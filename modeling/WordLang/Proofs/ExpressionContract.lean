import WordLang.Proofs.Expressions

/-!
# Expressions in any surroundings

An expression can be lowered with any words already pushed, and its code can stand among any other
code. Of the calls that it makes only this is known: they keep the stack pointer, the frame pointer
and the memory from the stack pointer up. Then the code computes the value of the expression, goes
on behind its end, and keeps the same.
-/
namespace WordLang

open Asm Machine

/-- What the value of an expression depends on. -/
structure Reading where
  /-- The word in a variable, or the address of a record; not known before the variable is set. -/
  word? : String → Option Word
  field? : String → String → Option Word
  literal : String → Word
  /-- The result of a call, with the trace before and after it. A call need not return. -/
  call? : Trace → String → List Word → Option (Word × Trace)

namespace Expr

variable (r : Reading)

mutual

/-- The value of an expression and the trace after it. Operands and arguments are taken from left to
right. There is no value where one of them has none, or where a quotient is not a word. -/
def value? : Expr → Trace → Option (Word × Trace)
  | .int value, t => some (value.toBitVec, t)
  | .str text, t => some (r.literal text, t)
  | .ident name, t => (r.word? name).map (·, t)
  | .binary op lhs rhs, t => do
    let (x, t) ← lhs.value? t
    let (y, t) ← rhs.value? t
    let v ← op.eval? x y
    return (v, t)
  | .compare op lhs rhs, t => do
    let (x, t) ← lhs.value? t
    let (y, t) ← rhs.value? t
    return (op.eval x y, t)
  | .call name args, t => do
    let (vs, t) ← argsValues? args t
    r.call? t name vs
  | .field name part, t => (r.field? name part).map (·, t)

def argsValues? : List Expr → Trace → Option (List Word × Trace)
  | [], t => some ([], t)
  | arg :: args, t => do
    let (v, t) ← arg.value? t
    let (vs, t) ← argsValues? args t
    return (v :: vs, t)

end

end Expr

/-- The stack pointer, the frame pointer and the memory from the stack pointer up to `high` are as
they were. -/
structure Machine.State.Preserves (high : Nat) (s s' : State) : Prop where
  rsp : s'.regs .rsp = s.regs .rsp
  rbp : s'.regs .rbp = s.regs .rbp
  memory : ∀ a : Word, (s.regs .rsp).toNat ≤ a.toNat → a.toNat < high → s'.memory a = s.memory a

/-- The code around an expression, with the meaning of its literals and calls. All that is known of
a call is what it is asked and answers, and that it preserves the stack. -/
structure Setting where
  image : Image
  runtime : Runtime
  reading : Reading
  /-- The literals by their numbers. -/
  literals : List String
  /-- Where the stack ends. -/
  top : Nat
  /-- The stack pointer where calls are made, modulo 16. -/
  alignment : Nat
  /-- Bytes of the stack that a call takes below its return address. -/
  depth : Nat
  literal_eq : ∀ text ∈ literals, reading.literal text = image.literal (literals.idxOf text)
  /-- A call that has a result returns it, where the stack is aligned and has room. -/
  serves : ∀ {k : Nat} {callee : Callee} {m : State} {args : List Word} {v : Word} {t : Trace},
    image.instrs[k]? = some (.call callee) → (Register.args.take args.length).map m.regs = args →
    reading.call? m.trace callee.symbol args = some (v, t) →
    (m.regs .rsp).toNat % 16 = alignment → (m.regs .rsp).toNat ≤ top →
    wordSize + depth ≤ (m.regs .rsp).toNat →
    ∃ m', image.Reaches runtime (image.address k, m) (image.address (k + 1), m') ∧
      m'.regs .rax = v ∧ m'.trace = t ∧ m.Preserves top m'

/-- Words of variables are inside the frame. -/
structure Frame.Bounded (decls : Declarations) (frame : Frame) : Prop where
  word : ∀ {name : String} {slot : Nat}, frame.WordSlot name slot →
    wordSize ≤ slot ∧ slot ≤ frame.size
  field : ∀ {name part : String} {slot : Nat}, frame.FieldSlot decls name part slot →
    wordSize ≤ slot ∧ slot ≤ frame.size

namespace Setting

variable (S : Setting)

/-- The machine runs in a frame: the stack pointer is below it, with the pushed words between, and
the slots hold what is known of the variables. -/
structure Shows (decls : Declarations) (frame : Frame) (m : State) : Prop where
  bounded : frame.Bounded decls
  rsp_le : (m.regs .rsp).toNat + frame.pending * wordSize + frame.size ≤ (m.regs .rbp).toNat
  rbp_le : (m.regs .rbp).toNat ≤ S.top
  aligned : ((m.regs .rsp).toNat + frame.pending * wordSize) % 16 = S.alignment
  word : ∀ {name : String} {slot : Nat} {v : Word}, frame.WordSlot name slot →
    S.reading.word? name = some v → m.memory.load (m.slot slot) = v
  record : ∀ {name typeName : String} {offset slots : Nat} {v : Word},
    frame.vars.find? name = some ⟨offset, .record typeName slots⟩ →
    S.reading.word? name = some v → m.slot offset = v
  field : ∀ {name part : String} {slot : Nat} {v : Word}, frame.FieldSlot decls name part slot →
    S.reading.field? name part = some v → m.memory.load (m.slot slot) = v

/-- From position `k` to position `k'`, the value `v` is computed into `%rax`, with `t` as the
trace. -/
def Computes (k k' : Nat) (m : State) (v : Word) (t : Trace) : Prop :=
  ∃ m', S.image.Reaches S.runtime (S.image.address k, m) (S.image.address k', m') ∧
    m'.regs .rax = v ∧ m'.trace = t ∧ m.Preserves S.top m'

end Setting

namespace Machine.State

variable {high : Nat} {s s' : State}

theorem Preserves.stacks (h : s.Preserves high s') : s.Stacks high [] s' :=
  .nil h.rsp h.rbp h.memory

theorem Stacks.preserves (h : s.Stacks high [] s') : s.Preserves high s' :=
  ⟨h.rsp_eq, h.rbp, h.memory⟩

end Machine.State

namespace Setting

variable {S : Setting} {decls : Declarations} {frame : Frame} {m m' : State}

namespace Shows

theorem rsp_le_top (h : S.Shows decls frame m) : (m.regs .rsp).toNat ≤ S.top := by
  have := h.rsp_le
  have := h.rbp_le
  omega

/-- Slots keep their words while others are pushed. -/
theorem load_eq (h : S.Shows decls frame m) {ws : List Word} (hp : m.Stacks S.top ws m')
    {slot : Nat} (hs : wordSize ≤ slot ∧ slot ≤ frame.size) :
    m'.memory.load (m'.slot slot) = m.memory.load (m.slot slot) := by
  have hrsp := h.rsp_le
  have hrbp := h.rbp_le
  have := (m.regs .rbp).isLt
  obtain ⟨hpos, hle⟩ := hs
  simp only [wordSize] at hpos hrsp
  -- The slot lies above all that is pushed, and ends below the frame pointer.
  have hslot : (m.slot slot).toNat = (m.regs .rbp).toNat - slot := toNat_sub_ofNat (by omega)
  rw [State.slot, hp.rbp]
  exact Memory.load_congr hp.memory (by rw [← State.slot, hslot]; omega)
    (by rw [← State.slot, hslot]; omega) (by rw [← State.slot, hslot]; omega)

/-- The frame with more words pushed. -/
theorem of_stacks (h : S.Shows decls frame m) {ws : List Word} (hp : m.Stacks S.top ws m') :
    S.Shows decls { frame with pending := frame.pending + ws.length } m' := by
  have hrsp := hp.rsp
  have hle := h.rsp_le
  have halign := h.aligned
  refine ⟨⟨h.bounded.word, h.bounded.field⟩, ?_, hp.rbp ▸ h.rbp_le, ?_, ?_, ?_, ?_⟩
  · show _ + (frame.pending + ws.length) * wordSize + frame.size ≤ _
    rw [hp.rbp, Nat.add_mul]
    omega
  · rw [← halign, Nat.add_mul]
    congr 1
    omega
  · intro name slot v hw hv
    rw [h.load_eq hp (h.bounded.word hw), h.word hw hv]
  · intro name typeName offset slots v hf hv
    rw [State.slot, hp.rbp]
    exact h.record hf hv
  · intro name part slot v hf hv
    rw [h.load_eq hp (h.bounded.field hf), h.field hf hv]

end Shows

end Setting

/-! ## Values -/

namespace Expr

variable {r : Reading} {t t' : Trace} {v : Word}

theorem value?_binary {op : BinaryOp} {lhs rhs : Expr} :
    (Expr.binary op lhs rhs).value? r t = some (v, t') ↔
      ∃ x t₁ y, lhs.value? r t = some (x, t₁) ∧ rhs.value? r t₁ = some (y, t') ∧
        op.eval? x y = some v := by
  simp [value?, Option.bind_eq_some_iff]

theorem value?_compare {op : CompareOp} {lhs rhs : Expr} :
    (Expr.compare op lhs rhs).value? r t = some (v, t') ↔
      ∃ x t₁ y, lhs.value? r t = some (x, t₁) ∧ rhs.value? r t₁ = some (y, t') ∧
        op.eval x y = v := by
  simp [value?, Option.bind_eq_some_iff]

theorem value?_call {name : String} {args : List Expr} :
    (Expr.call name args).value? r t = some (v, t') ↔
      ∃ vs t₁, argsValues? r args t = some (vs, t₁) ∧ r.call? t₁ name vs = some (v, t') := by
  simp [value?, Option.bind_eq_some_iff]

theorem argsValues?_cons {arg : Expr} {args : List Expr} {vs : List Word} :
    argsValues? r (arg :: args) t = some (vs, t') ↔
      ∃ x t₁ xs, arg.value? r t = some (x, t₁) ∧ argsValues? r args t₁ = some (xs, t') ∧
        x :: xs = vs := by
  simp [argsValues?, Option.bind_eq_some_iff]

/-- Arguments have one value each. -/
theorem length_argsValues? {args : List Expr} {vs : List Word}
    (h : argsValues? r args t = some (vs, t')) : args.length = vs.length := by
  induction args generalizing t vs with
  | nil =>
    cases h
    rfl
  | cons arg args ih =>
    obtain ⟨x, t₁, xs, -, hxs, rfl⟩ := argsValues?_cons.1 h
    exact congrArg (· + 1) (ih hxs)

/-! ## Code -/

/-- The code of `e` computes its value, wherever it stands. -/
def Computed (S : Setting) (decls : Declarations) (e : Expr) : Prop :=
  ∀ ⦃s s' : Lowering⦄ ⦃code : Code⦄ ⦃k k' : Nat⦄ ⦃m : State⦄ ⦃v : Word⦄ ⦃t : Trace⦄,
    e.Lowers decls s code s' → s'.pool.entries <+: S.literals → S.image.Holds k code k' →
    S.Shows decls s.frame m → 8 * e.stackWords + S.depth ≤ (m.regs .rsp).toNat →
    e.value? S.reading m.trace = some (v, t) → S.Computes k k' m v t

/-- The code of arguments pushes their values. -/
def AllComputed (S : Setting) (decls : Declarations) (args : List Expr) : Prop :=
  ∀ ⦃s s' : Lowering⦄ ⦃code : Code⦄ ⦃k k' : Nat⦄ ⦃m : State⦄ ⦃vs : List Word⦄ ⦃t : Trace⦄,
    LowersArgs decls args s code s' → s'.pool.entries <+: S.literals → S.image.Holds k code k' →
    S.Shows decls s.frame m → 8 * argsWords args + S.depth ≤ (m.regs .rsp).toNat →
    argsValues? S.reading args m.trace = some (vs, t) →
    ∃ m', S.image.Reaches S.runtime (S.image.address k, m) (S.image.address k', m') ∧
      m'.trace = t ∧ m.Stacks S.top vs m'

variable {S : Setting} {decls : Declarations}

/-- The code is one instruction, which computes the value. -/
theorem computes_instr {i : Instr} {k k' : Nat} {m : State} {v : Word}
    (hh : S.image.Holds k [.instr i] k') (he : i.exec S.image.literal m = some (m.set .rax v)) :
    S.Computes k k' m v m.trace := by
  obtain ⟨hi, rfl⟩ := hh
  exact ⟨_, .single (Image.step_exec hi he), by simp, rfl, rfl, rfl, fun _ _ _ => rfl⟩

theorem computed_int (value : Int64) : (Expr.int value).Computed S decls := by
  intro s s' code k k' m v t hl _ hh _ _ hv
  cases hl
  cases hv
  exact computes_instr hh rfl

theorem computed_str (text : String) : (Expr.str text).Computed S decls := by
  intro s s' code k k' m v t hl hp hh _ _ hv
  cases hl with
  | @str _ _ _ index hi =>
    have hinsert := hi.intern_grows.2.2.2
    have hmem : text ∈ s'.pool.entries :=
      List.mem_of_getElem? (StringPool.getElem?_of_insert hinsert)
    cases hv
    refine computes_instr hh ?_
    rw [Instr.exec, S.literal_eq text (hp.subset hmem), StringPool.idxOf_of_insert hinsert hp]

theorem computed_ident (name : String) : (Expr.ident name).Computed S decls := by
  intro s s' code k k' m v t hl _ hh hm _ hv
  obtain ⟨_, hword, he⟩ := Option.map_eq_some_iff.1 hv
  cases he
  cases hl with
  | word hw => exact computes_instr hh (by rw [Instr.exec, hm.word hw hword])
  | record hf => exact computes_instr hh (by rw [Instr.exec, hm.record hf hword])

theorem computed_field (name part : String) : (Expr.field name part).Computed S decls := by
  intro s s' code k k' m v t hl _ hh hm _ hv
  obtain ⟨_, hword, he⟩ := Option.map_eq_some_iff.1 hv
  cases he
  cases hl with
  | field hf => exact computes_instr hh (by rw [Instr.exec, hm.field hf hword])

/-- A value is computed and pushed. -/
theorem Computed.push {e : Expr} (h : e.Computed S decls) {s s' : Lowering} {code : Code}
    {k k' : Nat} {m : State} {v : Word} {t : Trace} (hl : e.Lowers decls s code s')
    (hp : s'.pool.entries <+: S.literals)
    (hh : S.image.Holds k (code ++ [.instr (.push .rax)]) k') (hm : S.Shows decls s.frame m)
    (hd : 8 * max e.stackWords 1 + S.depth ≤ (m.regs .rsp).toNat)
    (hv : e.value? S.reading m.trace = some (v, t)) :
    ∃ m', S.image.Reaches S.runtime (S.image.address k, m) (S.image.address k', m') ∧
      m'.trace = t ∧ m.Stacks S.top [v] m' ∧
      S.Shows decls (s'.withPending (s'.frame.pending + 1)).frame m' := by
  obtain ⟨k₁, hcode, hpush, rfl⟩ := Image.holds_append.1 hh
  obtain ⟨m₁, hr, rfl, rfl, hk⟩ := h hl hp hcode hm (by omega) hv
  have hroom : 8 ≤ (m₁.regs .rsp).toNat := by
    rw [hk.rsp]
    omega
  have hs : m.Stacks S.top [m₁.regs .rax] (m₁.push (m₁.regs .rax)) :=
    hk.stacks.append (.push m₁ hroom _) hm.rsp_le_top
  refine ⟨_, hr.tail (Image.step_exec hpush rfl), rfl, hs, ?_⟩
  rw [Lowering.withPending_frame, hl.frame_eq]
  exact hm.of_stacks hs

/-- Both operands are computed, the left one first. -/
theorem reaches_values {lhs rhs : Expr} (hl : lhs.Computed S decls) (hr : rhs.Computed S decls)
    {s s₁ s₂ : Lowering} {left right : Code} {k k' : Nat} {m : State} {x y : Word} {t₁ t₂ : Trace}
    (hleft : lhs.Lowers decls s left s₁)
    (hright : rhs.Lowers decls (s₁.withPending (s₁.frame.pending + 1)) right s₂)
    (hp : s₂.pool.entries <+: S.literals) (hh : S.image.Holds k (operandsCode left right) k')
    (hm : S.Shows decls s.frame m)
    (hd : 8 * max lhs.stackWords (rhs.stackWords + 1) + S.depth ≤ (m.regs .rsp).toNat)
    (hx : lhs.value? S.reading m.trace = some (x, t₁))
    (hy : rhs.value? S.reading t₁ = some (y, t₂)) :
    ∃ m', S.image.Reaches S.runtime (S.image.address k, m) (S.image.address k', m') ∧
      m'.regs .rax = x ∧ m'.regs .rcx = y ∧ m'.trace = t₂ ∧ m.Preserves S.top m' := by
  rw [operandsCode, List.append_assoc] at hh
  obtain ⟨k₂, hh, hpop⟩ := Image.holds_append.1 hh
  obtain ⟨k₁, hh₁, hh₂⟩ := Image.holds_append.1 hh
  have hp₁ : s₁.pool.entries <+: S.literals := hright.grows.of_withPending.entries.trans hp
  obtain ⟨m₁, hr₁, rfl, hs₁, hm₁⟩ := hl.push hleft hp₁ hh₁ hm (by omega) hx
  have hrsp := hs₁.rsp
  simp only [wordSize, List.length_singleton] at hrsp
  obtain ⟨m₂, hr₂, rfl, rfl, hk⟩ := hr hright hp hh₂ hm₁ (by omega) hy
  obtain ⟨m₃, hr₃, hx₃, hy₃, -, ht₃, hs₃⟩ :=
    Image.reaches_popOperand S.runtime (hs₁.append hk.stacks hm.rsp_le_top) hpop
  exact ⟨m₃, hr₁.trans (hr₂.trans hr₃), hx₃, hy₃, ht₃, hs₃.preserves⟩

/-- An operator works on registers alone. -/
theorem computes_of_combines {k k₁ k' : Nat} {m m₁ : State} {v : Word}
    (hr : S.image.Reaches S.runtime (S.image.address k, m) (S.image.address k₁, m₁))
    (hk : m.Preserves S.top m₁) (h : S.image.Combines S.runtime k₁ k' m₁ v) :
    S.Computes k k' m v m₁.trace := by
  obtain ⟨m', hr', hv, ht, hk'⟩ := h
  have hall := hk' 0 S.top
  refine ⟨m', hr.trans hr', hv, ht, hall.rsp.trans hk.rsp, hall.rbp.trans hk.rbp, ?_⟩
  intro a hl hh
  exact (hall.memory a (Nat.zero_le _) hh).trans (hk.memory a hl hh)

theorem Computed.binary {lhs rhs : Expr} (op : BinaryOp) (hl : lhs.Computed S decls)
    (hr : rhs.Computed S decls) : (Expr.binary op lhs rhs).Computed S decls := by
  intro s s' code k k' m v t hlow hp hh hm hd hv
  obtain ⟨x, t₁, y, hx, hy, hop⟩ := value?_binary.1 hv
  cases hlow with
  | binary hleft hright _ =>
    obtain ⟨k₁, hh₁, hh₂⟩ := Image.holds_append.1 hh
    obtain ⟨m₁, hr₁, rfl, rfl, rfl, hk⟩ := reaches_values hl hr hleft hright hp hh₁ hm hd hx hy
    exact computes_of_combines hr₁ hk (Image.combines_binary hh₂ m₁ hop)

theorem Computed.compare {lhs rhs : Expr} (op : CompareOp) (hl : lhs.Computed S decls)
    (hr : rhs.Computed S decls) : (Expr.compare op lhs rhs).Computed S decls := by
  intro s s' code k k' m v t hlow hp hh hm hd hv
  obtain ⟨x, t₁, y, hx, hy, rfl⟩ := value?_compare.1 hv
  cases hlow with
  | compare hleft hright _ =>
    obtain ⟨k₁, hh₁, hh₂⟩ := Image.holds_append.1 hh
    obtain ⟨m₁, hr₁, rfl, rfl, rfl, hk⟩ := reaches_values hl hr hleft hright hp hh₁ hm hd hx hy
    exact computes_of_combines hr₁ hk (Image.combines_compare hh₂ m₁)

theorem allComputed_nil : AllComputed S decls [] := by
  intro s s' code k k' m vs t hl _ hh _ _ hv
  cases hl
  cases hv
  obtain rfl : k = k' := hh
  exact ⟨m, .refl, rfl, .nil rfl rfl fun _ _ _ => rfl⟩

theorem Computed.cons {arg : Expr} {args : List Expr} (h : arg.Computed S decls)
    (ha : AllComputed S decls args) : AllComputed S decls (arg :: args) := by
  intro s s' code k k' m vs t hl hp hh hm hd hv
  rw [argsWords] at hd
  obtain ⟨x, t₁, xs, hx, hxs, rfl⟩ := argsValues?_cons.1 hv
  cases hl with
  | @cons _ _ _ s₁ _ value rest hvalue hrest =>
    obtain ⟨k₁, hh₁, hh₂⟩ := Image.holds_append.1 hh
    have hp₁ : s₁.pool.entries <+: S.literals := hrest.grows.of_withPending.entries.trans hp
    obtain ⟨m₁, hr₁, rfl, hs₁, hm₁⟩ := h.push hvalue hp₁ hh₁ hm (by omega) hx
    have hrsp := hs₁.rsp
    simp only [wordSize, List.length_singleton] at hrsp
    obtain ⟨m₂, hr₂, ht₂, hs₂⟩ := ha hrest hp hh₂ hm₁ (by omega) hxs
    exact ⟨m₂, hr₁.trans hr₂, ht₂, hs₁.append hs₂ hm.rsp_le_top⟩

/-- A call with the stack aligned. -/
theorem computes_callCode {frame : Frame} {callee : Callee} {k k' : Nat} {m : State}
    {vs : List Word} {v : Word} {t : Trace} (hm : S.Shows decls frame m)
    (hh : S.image.Holds k (Lower.callCode frame.pending callee) k')
    (hargs : (Register.args.take vs.length).map m.regs = vs)
    (hv : S.reading.call? m.trace callee.symbol vs = some (v, t))
    (hd : 16 + S.depth ≤ (m.regs .rsp).toNat) : S.Computes k k' m v t := by
  have halign := hm.aligned
  have htop := hm.rsp_le_top
  have hnat := State.toNat_alignFor_rsp (s := m) frame.pending (by omega)
  simp only [wordSize] at halign hnat
  -- With an odd number of words pushed one more is left free, so that in both cases the call sees
  -- the alignment of the frame.
  obtain ⟨j, hcall, hr, hback⟩ :=
    Image.reaches_callCode S.runtime S.top (m := m) hh (by omega)
  obtain ⟨m₂, hr₂, hv₂, ht₂, hk⟩ := S.serves hcall
    ((State.map_args_alignFor frame.pending _).trans hargs) (State.alignFor_trace.symm ▸ hv)
    (by omega) (by omega) (by simp only [wordSize]; omega)
  obtain ⟨m₃, hr₃, hv₃, -, ht₃, hs⟩ := hback m₂ hk.stacks
  exact ⟨m₃, hr.trans (hr₂.trans hr₃), hv₃.trans hv₂, ht₃.trans ht₂, hs.preserves⟩

theorem AllComputed.call {args : List Expr} (name : String) (ha : AllComputed S decls args) :
    (Expr.call name args).Computed S decls := by
  intro s s' code k k' m v t hl hp hh hm hd hv
  rw [stackWords] at hd
  obtain ⟨vs, t₁, hvs, hcall⟩ := value?_call.1 hv
  have hlen := length_argsValues? hvs
  cases hl with
  | @call _ _ callee _ s₁ values hn hcallee hvalues _ =>
    simp only [Image.holds_append] at hh
    obtain ⟨k₂, ⟨k₁, hh₁, hpops⟩, hh₂⟩ := hh
    obtain ⟨m₁, hr₁, rfl, hs₁⟩ := ha hvalues hp hh₁ hm (by omega) hvs
    rw [hlen] at hpops hn
    obtain ⟨m₂, hr₂, hargs, -, ht₂, hs₂⟩ := Image.reaches_argPops S.runtime hs₁ hn hpops
    -- All arguments are popped again, so the call is made over what was pushed before them.
    have hpending : s₁.frame.pending - args.length = s.frame.pending := by
      rw [hvalues.frame_eq]
      simp
    have hname : callee.symbol = name := by
      rcases Declarations.callee_eq_ok.1 hcallee with ⟨_, rfl⟩ | ⟨_, rfl, _⟩ <;> rfl
    rw [hpending] at hh₂
    rw [← hname, ← ht₂] at hcall
    obtain ⟨m₃, hr₃, hv₃, ht₃, hk⟩ := computes_callCode (hm.of_stacks hs₂) hh₂ hargs hcall
      (by rw [hs₂.rsp_eq]; omega)
    exact ⟨m₃, (hr₁.trans hr₂).trans hr₃, hv₃, ht₃, (hs₂.append hk.stacks hm.rsp_le_top).preserves⟩

mutual

theorem computed (S : Setting) (decls : Declarations) : (e : Expr) → e.Computed S decls
  | .int value => computed_int value
  | .str text => computed_str text
  | .ident name => computed_ident name
  | .binary op lhs rhs => (computed S decls lhs).binary op (computed S decls rhs)
  | .compare op lhs rhs => (computed S decls lhs).compare op (computed S decls rhs)
  | .call name args => (allComputed S decls args).call name
  | .field name part => computed_field name part

theorem allComputed (S : Setting) (decls : Declarations) :
    (args : List Expr) → AllComputed S decls args
  | [] => allComputed_nil
  | arg :: args => (computed S decls arg).cons (allComputed S decls args)

end

end Expr

/-- Frames that lowering lays out are bounded. -/
theorem Frame.Sound.bounded {decls : Declarations} {frame : Frame} (h : frame.Sound decls) :
    frame.Bounded decls where
  word hw := ((h.laid.slotAt_iff _).1 ⟨_, _, (h.wordSlot_iff.1 hw).2⟩).2
  field hf := by
    obtain ⟨index, -, hs⟩ := h.fieldSlot_iff.1 hf
    exact ((h.laid.slotAt_iff _).1 ⟨_, _, hs⟩).2

theorem Generate.runs_expr {g g' : Generator} {e : Expr} :
    Runs (Generate.expr e) g () g' ↔
      ∃ code s, Runs (e.lower g.declarations) g.lowering code s ∧
        g' = { g with lowering := s } := by
  unfold Runs
  rw [outcome_expr]
  rcases outcome (e.lower g.declarations) g.lowering with ⟨_ | code, t⟩
  · simp [Except.map]
  · simp [Except.map, eq_comm]

/-- An accepted expression leaves the generator as it was, but for the string pool, the labels and
the log. Its code defines no label twice. In any setting where it is placed, from any state that
shows the variables, it goes on behind its end with the value of the expression, and preserves the
stack. -/
theorem Generate.computes_of_expr {g g' : Generator} {e : Expr}
    (h : Runs (Generate.expr e) g () g') :
    g'.lowering.frame.pending = g.lowering.frame.pending ∧
    g' = { g with lowering := {
      pool := g'.lowering.pool
      nextLabel := g'.lowering.nextLabel
      frame := g.lowering.frame
      log := g'.lowering.log } } ∧
    g.lowering.Grows g'.lowering ∧
    ∃ code, Runs (e.lower g.declarations) g.lowering code g'.lowering ∧ code.labels.Nodup ∧
      ∀ (S : Setting) (k k' : Nat) (m : State) (v : Word) (t : Trace),
        g'.lowering.pool.entries <+: S.literals → S.image.Holds k code k' →
        S.Shows g.declarations g.lowering.frame m →
        wordSize * e.stackWords + S.depth ≤ (m.regs .rsp).toNat →
        e.value? S.reading m.trace = some (v, t) →
        ∃ m', S.image.Reaches S.runtime (S.image.address k, m) (S.image.address k', m') ∧
          m'.regs .rax = v ∧ m'.trace = t ∧ m.Preserves S.top m' := by
  obtain ⟨code, s, hruns, rfl⟩ := Generate.runs_expr.1 h
  have hlow := Expr.lowers_of_runs e hruns
  have hframe := hlow.frame_eq
  refine ⟨congrArg Frame.pending hframe, ?_, hlow.grows, code, hruns, hlow.labelsIn.nodup, ?_⟩
  · rw [← hframe]
  · intro S k k' m v t hp hh hm hroom hv
    exact e.computed S g.declarations hlow hp hh hm hroom hv

/-! ## Code alone -/

/-- Code from the first address on, with its own labels. -/
def Asm.Code.image (code : Code) (h : code.size ≤ 2 ^ 64) : Image where
  instrs := code.instrs
  symbols := code.symbols 0
  literal := BitVec.ofNat 64
  address := BitVec.ofNat 64
  index? a := some a.toNat
  index?_address k hk := by
    have : k < code.size := hk
    simp only [BitVec.toNat_ofNat, Option.some.injEq]
    omega

theorem Asm.Code.holds_image {code : Code} (h : code.size ≤ 2 ^ 64) (hn : code.labels.Nodup) :
    (code.image h).Holds 0 code code.size := by
  have hd : ((code.symbols 0).map Prod.fst).Nodup := by
    rw [Code.map_fst_symbols]
    exact hn.map labelName_injective
  have hfind : ∀ entry ∈ code.symbols 0, (code.image h).symbols.find? entry.1 = some entry.2 :=
    fun entry he => Table.find?_of_mem hd he
  simpa using Image.holds_of_symbols (k := 0) List.prefix_rfl hfind

/-- The calls that a support library answers. -/
def Machine.Runtime.call? (rt : Runtime) (t : Trace) (name : String) (args : List Word) :
    Option (Word × Trace) :=
  if IsSymbolName name ∧ ((Builtin.find? name).map Builtin.arity).getD 0 = args.length then
    (rt.answer t name args).map fun v => (v, t ++ [⟨name, args, v⟩])
  else none

theorem Asm.Code.exists_call (code : Code) (h : code.size ≤ 2 ^ 64) (rt : Runtime) {k : Nat}
    {callee : Callee} {m : State} {args : List Word} {v : Word} {t : Trace}
    (hcall : (code.image h).instrs[k]? = some (.call callee))
    (hargs : (Register.args.take args.length).map m.regs = args)
    (hv : rt.call? m.trace callee.symbol args = some (v, t)) (halign : 16 ∣ (m.regs .rsp).toNat) :
    ∃ m', (code.image h).Reaches rt ((code.image h).address k, m)
        ((code.image h).address (k + 1), m') ∧
      m'.regs .rax = v ∧ m'.trace = t ∧ m.Preserves rt.stackTop m' := by
  unfold Runtime.call? at hv
  split_ifs at hv with hname
  obtain ⟨v, hanswer, he⟩ := Option.map_eq_some_iff.1 hv
  cases he
  have hsym : (code.image h).symbols.find? callee.symbol = none := by
    show (code.symbols 0).find? callee.symbol = none
    rw [Table.find?_eq_none_iff, Code.map_fst_symbols]
    intro hmem
    obtain ⟨n, -, hn⟩ := List.mem_map.1 hmem
    exact not_isSymbolName_labelName n (hn ▸ hname.1)
  have hlib : m.libraryArgs callee.symbol = args := by
    rw [State.libraryArgs, hname.2, hargs]
  obtain ⟨m', hstep, hrax, ht, hk⟩ := rt.exists_call (hlib.symm ▸ hanswer) halign
  exact ⟨m', .single (Image.step_library hcall hsym hstep), hrax, hlib ▸ ht, hk.stacks.preserves⟩

/-- Code alone, whose calls all go to the support library. -/
def Setting.ofCode (code : Code) (h : code.size ≤ 2 ^ 64) (rt : Runtime) (literals : List String)
    (word? : String → Option Word) (field? : String → String → Option Word) : Setting where
  image := code.image h
  runtime := rt
  reading := {
    word?
    field?
    literal text := BitVec.ofNat 64 (literals.idxOf text)
    call? := rt.call? }
  literals
  top := rt.stackTop
  alignment := 0
  depth := 0
  literal_eq _ _ := rfl
  serves hcall hargs hv halign _ _ :=
    code.exists_call h rt hcall hargs hv (Nat.dvd_of_mod_eq_zero halign)

/-- A generator inside a function with a word `n` and a record `p`, with one word pushed. -/
def Generator.midway : Generator :=
  let g := Generator.new {} {}
  { g with
    declarations := { types := [("Pair", ⟨"Pair", ["left", "right"]⟩)] }
    lowering := { g.lowering with
      nextLabel := 4
      frame := { g.lowering.frame with
        vars := [("n", ⟨8, .scalar⟩), ("p", ⟨24, .record "Pair" 2⟩)]
        slots := ⟨8, 3⟩
        pending := 1 } } }

/-- A state that shows the variables of that function. -/
def Machine.State.midway : State where
  regs
    | .rbp => 4096
    | .rsp => 4056
    | _ => 0
  flags := none
  memory := Memory.store (Memory.store (fun _ => 0) 4088 7) 4072 5
  trace := []

/-- A call inside a difference, with a quotient as its first argument. -/
def Expr.midway : Expr :=
  .binary .sub
    (.call "runtime_max" [.binary .div (.ident "n") (.int 2), .field "p" "left"])
    (.int 3)

def Setting.midway (code : Code) (h : code.size ≤ 2 ^ 64) : Setting :=
  .ofCode code h .silent [] (fun name => if name = "n" then some 7 else none)
    fun name part => if name = "p" ∧ part = "left" then some 5 else none

theorem Setting.shows_midway (code : Code) (h : code.size ≤ 2 ^ 64) :
    (Setting.midway code h).Shows Generator.midway.declarations Generator.midway.lowering.frame
      .midway := by
  have hsound : Generator.midway.lowering.frame.Sound Generator.midway.declarations := by
    have hword := @Placed.snoc [] "n" .scalar .nil rfl (by decide)
    exact ⟨⟨rfl, rfl, @Placed.snoc _ "p" (.record "Pair" 2) hword (by decide) (by decide)⟩,
      by decide⟩
  have hn : Generator.midway.lowering.frame.vars.find? "n" = some ⟨8, .scalar⟩ := by decide
  have hp : Generator.midway.lowering.frame.vars.find? "p" = some ⟨24, .record "Pair" 2⟩ := by
    decide
  have htype : Generator.midway.declarations.types.find? "Pair" =
      some ⟨"Pair", ["left", "right"]⟩ := by decide
  have hleft : RecordDecl.fieldIndex? ⟨"Pair", ["left", "right"]⟩ "left" = some 0 := by decide
  refine ⟨hsound.bounded, by decide, show 4096 ≤ 65536 by decide,
    show (4056 + 1 * 8) % 16 = 0 by decide, ?_, ?_, ?_⟩
  · rintro name slot v ⟨kind, hf, -⟩ hv
    obtain ⟨rfl, hv⟩ := Option.ite_none_right_eq_some.1 hv
    cases hn.symm.trans hf
    cases hv
    decide
  · rintro name typeName offset slots v hf hv
    obtain ⟨rfl, hv⟩ := Option.ite_none_right_eq_some.1 hv
    cases hn.symm.trans hf
  · rintro name part slot v ⟨offset, typeName, slots, decl, index, hf, hd, hi, -, rfl⟩ hv
    obtain ⟨⟨rfl, rfl⟩, hv⟩ := Option.ite_none_right_eq_some.1 hv
    cases hp.symm.trans hf
    cases htype.symm.trans hd
    cases hleft.symm.trans hi
    cases hv
    decide

theorem Generate.computes_of_expr_midway :
    ∃ g' code h, Runs (Generate.expr .midway) .midway () g' ∧
      g'.lowering.frame.pending = 1 ∧
      ∃ m', (Code.image code h).Reaches .silent (0, .midway) (BitVec.ofNat 64 code.size, m') ∧
        m'.regs .rax = -3 ∧ m'.trace = [⟨"runtime_max", [3, 5], 0⟩] ∧
        State.midway.Preserves 65536 m' := by
  have hok : (outcome (Generate.expr .midway) .midway).1 = .ok () := by decide +kernel
  obtain ⟨hp, -, -, code, hcode, hn, hall⟩ := Generate.computes_of_expr (runs_of_fst hok)
  have hsize : code.size ≤ 2 ^ 64 := by
    have hcount : (outcome (Expr.midway.lower Generator.midway.declarations)
        Generator.midway.lowering).1.map Code.size = .ok 24 := by decide +kernel
    rw [hcode] at hcount
    rw [Except.ok.inj hcount]
    decide
  refine ⟨_, code, hsize, runs_of_fst hok, hp, ?_⟩
  have hpool : (outcome (Generate.expr .midway) .midway).2.lowering.pool.entries = [] := by
    decide +kernel
  exact hall (.midway code hsize) 0 code.size .midway _ _ (hpool ▸ List.nil_prefix)
    (code.holds_image hsize hn) (Setting.shows_midway code hsize)
    (show 8 * 2 + 0 ≤ 4056 by decide) rfl

end WordLang
