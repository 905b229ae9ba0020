import WordLang.Proofs.Image
import WordLang.Proofs.Operators

/-!
# Variables in memory

While a function runs, its variables are in the slots below the frame pointer, and below them are
the words that expressions have pushed. A store into a slot changes the one word of a variable that
has the slot, and nothing outside the frame.
-/
namespace WordLang

open Asm Machine

/-! ## Stack space -/

namespace Expr

mutual

/-- Words of the stack that an expression takes, outside of what it calls. A call takes two: one to
align the stack, and the return address. -/
def stackWords : Expr → Nat
  | .int _ | .str _ | .ident _ | .field _ _ => 0
  | .binary _ lhs rhs | .compare _ lhs rhs => max lhs.stackWords (rhs.stackWords + 1)
  | .call _ args => max (argsWords args) 2

def argsWords : List Expr → Nat
  | [] => 0
  | arg :: args => max arg.stackWords (argsWords args + 1)

end

end Expr

namespace Stmt

mutual

def stackWords : Stmt → Nat
  | .declare _ value | .set _ value | .setField _ _ value | .ret (some value) | .eval value =>
    value.stackWords
  | .print value => max value.stackWords 2
  | .branch cond thenBody elseBody =>
    max cond.stackWords (max (blockWords thenBody) (blockWords elseBody))
  | .loop cond body => max cond.stackWords (blockWords body)
  | .declareRecord .. | .ret none | .leave | .again => 0

def blockWords : List Stmt → Nat
  | [] => 0
  | stmt :: stmts => max stmt.stackWords (blockWords stmts)

end

end Stmt

/-- Bytes of the stack that a call of a function takes below its return address: the caller's frame
pointer, the frame, and what the body pushes. -/
def FunctionDecl.callBytes (decls : Declarations) (f : FunctionDecl) : Nat :=
  wordSize + alignTo16 (wordSize * decls.slotCount f.locals) + Stmt.blockWords f.body * wordSize

/-- Bytes of the stack that are enough for a call of any function of the program. -/
def Program.callBytes (p : Program) : Nat :=
  (p.functions.map (·.callBytes p.declarations)).foldr max 0

theorem Program.callBytes_le {p : Program} {f : FunctionDecl} (hf : f ∈ p.functions) :
    f.callBytes p.declarations ≤ p.callBytes := by
  have hmax (bytes : List Nat) (b : Nat) (hb : b ∈ bytes) : b ≤ bytes.foldr max 0 := by
    induction bytes with
    | nil => cases hb
    | cons a bytes ih =>
      simp only [List.foldr_cons]
      rcases List.mem_cons.1 hb with rfl | hb
      · exact Nat.le_max_left _ _
      · exact Nat.le_trans (ih hb) (Nat.le_max_right _ _)
  exact hmax _ _ (List.mem_map_of_mem hf)

/-! ## Calls on the stack -/

/-- The world of a loaded program: a literal stands for the address of its label. -/
def Machine.Image.world (img : Image) (rt : Runtime) (pool : StringPool) : World where
  answer := rt.answer
  literal text := img.literal (pool.entries.idxOf text)

/-- A program that has been assembled and loaded. No symbol is defined twice. -/
structure Loaded where
  limits : Limits
  program : Program
  assembly : Assembly
  image : Image
  runtime : Runtime
  assembles : program.Assembles limits assembly
  loads : image.Loads assembly
  distinct : (assembly.symbols.map Prod.fst).Nodup

namespace Loaded

def decls (L : Loaded) : Declarations := L.program.declarations

/-- Bytes of the stack that are enough for calls nested `n` deep. -/
def stackFor (L : Loaded) (n : Nat) : Nat := n * L.program.callBytes

theorem stackFor_succ (L : Loaded) (n : Nat) :
    L.stackFor (n + 1) = L.program.callBytes + L.stackFor n := by
  rw [stackFor, Nat.add_mul, Nat.one_mul, Nat.add_comm]
  rfl

def world (L : Loaded) : World := L.image.world L.runtime L.assembly.pool

@[simp] theorem world_literal (L : Loaded) (text : String) :
    L.world.literal text = L.image.literal (L.assembly.pool.entries.idxOf text) := rfl

/-- The code of a function of the program, with the lowering that gave it. -/
theorem exists_code (L : Loaded) {f : FunctionDecl} (hf : f ∈ L.program.functions) :
    ∃ r s s' k k', f.Lowers L.limits L.decls s r s' ∧
      s'.pool.entries <+: L.assembly.pool.entries ∧
      L.image.symbols.find? f.name = some k ∧ L.image.Holds k r.code k' := by
  obtain ⟨_, hl, hpool⟩ := L.assembles.exists_lowers
  obtain ⟨r, hr, s, s', hlow, hg⟩ := hl.exists_of_mem hf
  obtain ⟨k, k', hk, hh⟩ := L.loads.holds_routine L.distinct hr
  exact ⟨r, s, s', k, k', hlow, hpool ▸ hg.entries, hlow.name_eq ▸ hk, hh⟩

end Loaded

/-- A loaded program that is linked with the support library. No function of it has the name of a
label or of a library function. -/
structure Linked extends Loaded where
  names : ∀ f ∈ program.functions, IsSymbolName f.name ∧ Builtin.find? f.name = none

/-- A call that has set up its frame, which holds all variables of its function. -/
structure Activation (L : Loaded) where
  frame : Frame
  /-- The frame pointer. -/
  base : Word
  sound : frame.Sound L.decls
  aligned : 16 ∣ base.toNat
  /-- The caller's frame pointer and the return address are above it. -/
  base_le : base.toNat + 16 ≤ L.runtime.stackTop
  size_le : alignTo16 frame.size ≤ base.toNat

/-- Word number `index` of a variable holds `v`. -/
inductive Env.Cell (decls : Declarations) (scope : Scope) (env : Env) :
    String → Nat → Word → Prop where
  | word {name : String} {v : Word} {isText : Bool} :
      env.find? name = some (.word v isText) → Env.Cell decls scope env name 0 v
  | field {name part : String} {fields : Table Word} {v : Word} {index : Nat} :
      env.find? name = some (.record fields) → fields.find? part = some v →
      decls.fieldIndex? scope name part = some index → Env.Cell decls scope env name index v

namespace Activation

variable {L : Loaded} (act : Activation L)

/-- Address of a slot. -/
def slot (n : Nat) : Word := act.base - BitVec.ofNat 64 n

/-- The memory holds the variables: each has the kind that it was declared with, and its words are
in its slots. -/
structure Represents (env : Env) (memory : Memory) : Prop where
  word : ∀ {name : String} {v : Word} {isText : Bool}, env.find? name = some (.word v isText) →
    ∃ offset, act.frame.vars.find? name = some ⟨offset, if isText then .string else .scalar⟩
  record : ∀ {name : String} {fields : Table Word}, env.find? name = some (.record fields) →
    ∃ typeName, act.frame.scope.find? name = some (some typeName)
  cell : ∀ {name : String} {index slot : Nat} {v : Word},
    env.Cell L.decls act.frame.scope name index v → SlotAt act.frame.vars name index slot →
    memory.load (act.slot slot) = v

/-- The machine runs in this call, with `pending` words pushed. -/
structure Active (env : Env) (pending : Nat) (s : State) : Prop where
  rbp : s.regs .rbp = act.base
  rsp : (s.regs .rsp).toNat + pending * wordSize + alignTo16 act.frame.size = act.base.toNat
  represents : act.Represents env s.memory

/-- The variables and literals of a lowering state are those of the call and of the program, or come
before them. -/
structure Covers (s : Lowering) : Prop where
  vars : s.frame.vars <+: act.frame.vars
  pool : s.pool.entries <+: L.assembly.pool.entries

end Activation

theorem toNat_sub_ofNat {a : Word} {n : Nat} (h : n ≤ a.toNat) :
    (a - BitVec.ofNat 64 n).toNat = a.toNat - n := by
  have := a.isLt
  rw [BitVec.toNat_sub_of_le] <;> simp [BitVec.le_def] <;> omega

theorem le_alignTo16 (n : Nat) : n ≤ alignTo16 n := by
  unfold alignTo16
  omega

/-- Fields at one position have one name. -/
theorem Declarations.fieldIndex?_injective {decls : Declarations} {scope : Scope}
    {name part part' : String} {index : Nat} (h : decls.fieldIndex? scope name part = some index)
    (h' : decls.fieldIndex? scope name part' = some index) : part = part' := by
  simp only [fieldIndex?, Option.bind_eq_bind, Option.bind_eq_some_iff] at h h'
  obtain ⟨typeName, ht, decl, hd, hi⟩ := h
  obtain ⟨_, ht', _, hd', hi'⟩ := h'
  rw [ht] at ht'
  cases ht'
  rw [hd] at hd'
  cases hd'
  obtain ⟨_, he, _⟩ := List.idxOf?_eq_some_iff.1 hi
  obtain ⟨_, he', _⟩ := List.idxOf?_eq_some_iff.1 hi'
  exact he.symm.trans he'

namespace Activation

variable {L : Loaded} {act : Activation L}

theorem toNat_sub_eight {rsp : Word} (h : 8 ≤ rsp.toNat) : (rsp - 8).toNat = rsp.toNat - 8 :=
  toNat_sub_ofNat h

/-- The frame of a call that has just been made, with the return address at `rsp`. -/
def ofEntry {frame : Frame} (hs : frame.Sound L.decls) {rsp : Word} (halign : rsp.toNat % 16 = 8)
    (htop : rsp.toNat + 8 ≤ L.runtime.stackTop) (hroom : 8 + alignTo16 frame.size ≤ rsp.toNat) :
    Activation L where
  frame := frame
  base := rsp - 8
  sound := hs
  aligned := by
    rw [toNat_sub_eight (by omega)]
    omega
  base_le := by
    rw [toNat_sub_eight (by omega)]
    omega
  size_le := by
    rw [toNat_sub_eight (by omega)]
    omega

theorem toNat_base_ofEntry {frame : Frame} (hs : frame.Sound L.decls) {rsp : Word}
    (halign : rsp.toNat % 16 = 8) (htop : rsp.toNat + 8 ≤ L.runtime.stackTop)
    (hroom : 8 + alignTo16 frame.size ≤ rsp.toNat) :
    (ofEntry hs halign htop hroom).base.toNat + 8 = rsp.toNat := by
  show (rsp - 8).toNat + 8 = rsp.toNat
  rw [toNat_sub_eight (by omega)]
  omega

/-- Slots are whole words inside the frame. -/
theorem toNat_slot {name : String} {index slot : Nat} (h : SlotAt act.frame.vars name index slot) :
    (act.slot slot).toNat = act.base.toNat - slot ∧ 8 ∣ slot ∧ 8 ≤ slot ∧
      slot ≤ alignTo16 act.frame.size := by
  obtain ⟨k, hk, hpos, hle⟩ := act.sound.laid.placed.slotAt_bounds h
  have hsize := act.sound.laid.size_eq
  have halign := le_alignTo16 act.frame.size
  have hfit := act.size_le
  simp only [wordSize] at hk hsize
  refine ⟨toNat_sub_ofNat (by omega), by omega, by omega, by omega⟩

/-- A store into a slot leaves the words of other slots. -/
theorem load_store_slot_of_ne (m : Memory) (v : Word) {name name' : String}
    {index index' slot slot' : Nat} (h : SlotAt act.frame.vars name index slot)
    (h' : SlotAt act.frame.vars name' index' slot') (hne : ¬ (name' = name ∧ index' = index)) :
    (m.store (act.slot slot) v).load (act.slot slot') = m.load (act.slot slot') := by
  obtain ⟨ha, hdvd, hpos, hle⟩ := toNat_slot h
  obtain ⟨ha', hdvd', hpos', hle'⟩ := toNat_slot h'
  have hslot : slot ≠ slot' := by
    rintro rfl
    exact hne (act.sound.laid.placed.slotAt_injective h' h)
  have := act.size_le
  have := act.base.isLt
  apply Memory.load_store_of_disjoint <;> omega

/-- A store into a slot changes nothing outside the frame. -/
theorem store_slot_of_le (m : Memory) (v : Word) {name : String} {index slot : Nat}
    (h : SlotAt act.frame.vars name index slot) {a : Word} (ha : act.base.toNat ≤ a.toNat) :
    m.store (act.slot slot) v a = m a := by
  obtain ⟨hs, hdvd, hpos, hle⟩ := toNat_slot h
  have := act.size_le
  have := act.base.isLt
  apply Memory.store_of_outside <;> omega

/-! ### Representation -/

namespace Represents

variable {env : Env} {m m' : Memory}

/-- The words of the variables that have a value are unchanged. -/
theorem congr (h : act.Represents env m)
    (hm : ∀ {name : String} {index slot : Nat} {v : Word},
      env.Cell L.decls act.frame.scope name index v → SlotAt act.frame.vars name index slot →
      m'.load (act.slot slot) = m.load (act.slot slot)) : act.Represents env m' :=
  ⟨h.word, h.record, fun hc hs => (hm hc hs).trans (h.cell hc hs)⟩

/-- The memory of the frame is unchanged. -/
theorem of_frame (h : act.Represents env m)
    (hm : ∀ a : Word, act.base.toNat - alignTo16 act.frame.size ≤ a.toNat →
      a.toNat < act.base.toNat → m' a = m a) : act.Represents env m' := by
  refine h.congr fun _ hs => ?_
  obtain ⟨ha, hdvd, hpos, hle⟩ := toNat_slot hs
  have := act.size_le
  have := act.base.isLt
  apply Memory.load_congr hm <;> omega

/-- A variable is bound anew, and the words of the others are unchanged. -/
theorem put (h : act.Represents env m) {name : String} {b : Binding}
    (hword : ∀ {v isText}, b = .word v isText →
      ∃ offset, act.frame.vars.find? name = some ⟨offset, if isText then .string else .scalar⟩)
    (hrecord : ∀ {fields}, b = .record fields →
      ∃ typeName, act.frame.scope.find? name = some (some typeName))
    (hother : ∀ {name' : String} {index slot : Nat}, name' ≠ name →
      SlotAt act.frame.vars name' index slot →
      m'.load (act.slot slot) = m.load (act.slot slot))
    (hcell : ∀ {index slot : Nat} {v : Word},
      Env.Cell L.decls act.frame.scope [(name, b)] name index v →
      SlotAt act.frame.vars name index slot → m'.load (act.slot slot) = v) :
    act.Represents (env.put name b) m' := by
  constructor
  · intro name' v isText hf
    rw [Table.find?_put] at hf
    split_ifs at hf with he
    · exact he ▸ hword (Option.some.inj hf)
    · exact h.word hf
  · intro name' fields hf
    rw [Table.find?_put] at hf
    split_ifs at hf with he
    · exact he ▸ hrecord (Option.some.inj hf)
    · exact h.record hf
  · intro name' index slot v hc hs
    by_cases he : name' = name
    · subst he
      refine hcell ?_ hs
      cases hc with
      | word hf => exact .word (by simpa [Table.find?] using hf)
      | field hf hp hi => exact .field (by simpa [Table.find?] using hf) hp hi
    · rw [hother he hs]
      refine h.cell ?_ hs
      cases hc with
      | word hf => exact .word (by simpa [Ne.symm he] using hf)
      | field hf hp hi => exact .field (by simpa [Ne.symm he] using hf) hp hi

/-- A word variable is bound and stored. -/
theorem put_word (h : act.Represents env m) {name : String} {offset : Nat} {isText : Bool}
    (hv : act.frame.vars.find? name = some ⟨offset, if isText then .string else .scalar⟩)
    (v : Word) : act.Represents (env.put name (.word v isText)) (m.store (act.slot offset) v) := by
  have hslot : SlotAt act.frame.vars name 0 offset := by
    refine ⟨_, hv, ?_, by simp⟩
    cases isText <;> exact Nat.one_pos
  refine h.put ?_ nofun ?_ ?_
  · intro v' isText' he
    cases he
    exact ⟨offset, hv⟩
  · intro name' index slot hne hs
    exact load_store_slot_of_ne m v hslot hs fun hcon => hne hcon.1
  · intro index slot v' hc hs
    cases hc with
    | word hf =>
      obtain rfl : v = v' := by
        simp only [Table.find?, if_true, Option.some.injEq, Binding.word.injEq] at hf
        exact hf.1
      rw [← hslot.unique hs, Memory.load_store]
    | field hf => simp [Table.find?] at hf

/-- A variable without a value is stored to. -/
theorem store_unbound (h : act.Represents env m) {name : String} (hn : env.find? name = none)
    {index slot : Nat} (hs : SlotAt act.frame.vars name index slot) (v : Word) :
    act.Represents env (m.store (act.slot slot) v) := by
  refine h.congr fun hc hs' => load_store_slot_of_ne m v hs hs' ?_
  rintro ⟨rfl, -⟩
  cases hc with
  | word hf | field hf => simp [hn] at hf

theorem assign (h : act.Represents env m) {name : String} {slot : Nat}
    (hw : act.frame.WordSlot name slot) (v : Word) :
    act.Represents (env.assign name v) (m.store (act.slot slot) v) := by
  obtain ⟨hscope, hslot⟩ := act.sound.wordSlot_iff.1 hw
  unfold Env.assign
  split
  · next isText hf =>
    obtain ⟨offset, hv⟩ := h.word hf
    obtain ⟨kind, hv', -⟩ := hw
    obtain ⟨rfl, -⟩ : offset = slot ∧ _ = kind := by simpa [hv] using hv'
    exact h.put_word hv v
  · next hf =>
    -- A record is not bound to the name, as it was declared as a word.
    refine h.store_unbound ?_ hslot v
    cases hb : env.find? name with
    | none => rfl
    | some b =>
      cases b with
      | word v' isText => exact (hf v' isText hb).elim
      | record fields =>
        obtain ⟨typeName, ht⟩ := h.record hb
        simp [hscope] at ht

theorem assignField (h : act.Represents env m) {name part : String} {slot : Nat}
    (hf : act.frame.FieldSlot L.decls name part slot) (v : Word) :
    act.Represents (env.assignField name part v) (m.store (act.slot slot) v) := by
  obtain ⟨index, hi, hslot⟩ := act.sound.fieldSlot_iff.1 hf
  unfold Env.assignField
  split
  · next fields hb =>
    refine h.put nofun (fun _ => h.record hb) ?_ ?_
    · intro name' index' slot' hne hs
      exact load_store_slot_of_ne m v hslot hs fun hcon => hne hcon.1
    · intro index' slot' v' hc hs
      cases hc with
      | word hf => simp [Table.find?] at hf
      | @field part' fields' _ _ hfields hp hi' =>
        obtain rfl : fields.put part v = fields' := by simpa [Table.find?] using hfields
        rw [Table.find?_put] at hp
        split_ifs at hp with he
        · obtain rfl : v = v' := Option.some.inj hp
          obtain rfl : index = index' := Option.some.inj (hi.symm.trans (he ▸ hi'))
          rw [← hslot.unique hs, Memory.load_store]
        · rw [load_store_slot_of_ne m v hslot hs]
          · exact h.cell (.field hb hp hi') hs
          · rintro ⟨-, rfl⟩
            exact he (Declarations.fieldIndex?_injective hi hi')
  · next hb =>
    refine h.store_unbound ?_ hslot v
    cases hb' : env.find? name with
    | none => rfl
    | some b =>
      cases b with
      | record fields => exact (hb fields hb').elim
      | word v' isText =>
        obtain ⟨offset, hv⟩ := h.word hb'
        simp only [Declarations.fieldIndex?, Frame.find?_scope, hv] at hi
        cases isText <;> simp [VarKind.typeName?] at hi

/-- A record variable is bound, with zeros in all its slots. -/
theorem put_record (h : act.Represents env m) {name typeName : String}
    (hv : act.frame.scope.find? name = some (some typeName))
    (hother : ∀ {name' : String} {index slot : Nat}, name' ≠ name →
      SlotAt act.frame.vars name' index slot →
      m'.load (act.slot slot) = m.load (act.slot slot))
    (hzero : ∀ {index slot : Nat}, SlotAt act.frame.vars name index slot →
      m'.load (act.slot slot) = 0) (fields : List String) :
    act.Represents (env.put name (.record (fields.map (·, 0)))) m' := by
  refine h.put nofun (fun _ => ⟨typeName, hv⟩) hother ?_
  intro index slot v hc hs
  cases hc with
  | word hf => simp [Table.find?] at hf
  | @field part fields' _ _ hfields hp hi =>
    obtain rfl : fields.map (·, 0) = fields' := by simpa [Table.find?] using hfields
    obtain ⟨part', -, he⟩ := List.mem_map.1 (Table.mem_of_find? hp)
    obtain rfl : 0 = v := congrArg Prod.snd he
    exact hzero hs

end Represents

/-! ### The running call -/

namespace Active

variable {env : Env} {pending : Nat} {s s' : State}

theorem slot_eq (h : act.Active env pending s) (n : Nat) : s.slot n = act.slot n := by
  rw [State.slot, h.rbp, Activation.slot]

/-- The stack pointer is inside the stack. -/
theorem rsp_le (h : act.Active env pending s) :
    (s.regs .rsp).toNat ≤ L.runtime.stackTop := by
  have := h.rsp
  have := act.base_le
  omega

/-- What a callee keeps includes the call with its variables. -/
theorem of_keeps (h : act.Active env pending s)
    (hk : s.Keeps (s.regs .rsp).toNat L.runtime.stackTop s') : act.Active env pending s' := by
  refine ⟨hk.rbp.trans h.rbp, by rw [hk.rsp]; exact h.rsp, h.represents.of_frame ?_⟩
  intro a hl hh
  have := h.rsp
  have := act.base_le
  exact hk.memory a (by omega) (by omega)

end Active

/-- Earlier states of lowering have fewer variables and literals. -/
theorem Covers.of_grows {s s' : Lowering} (h : act.Covers s') (hs : s.Grows s')
    (hv : s.frame.vars <+: s'.frame.vars) : act.Covers s :=
  ⟨hv.trans h.vars, hs.entries.trans h.pool⟩

end Activation

namespace Frame

variable {frame frame' : Frame}

theorem WordSlot.mono {name : String} {slot : Nat} (h : frame.WordSlot name slot)
    (hv : frame.vars <+: frame'.vars) : frame'.WordSlot name slot := by
  obtain ⟨kind, hf, hk⟩ := h
  exact ⟨kind, Table.find?_of_prefix hv hf, hk⟩

theorem FieldSlot.mono {decls : Declarations} {name part : String} {slot : Nat}
    (h : frame.FieldSlot decls name part slot) (hv : frame.vars <+: frame'.vars) :
    frame'.FieldSlot decls name part slot := by
  obtain ⟨offset, typeName, slots, decl, index, hf, hrest⟩ := h
  exact ⟨offset, typeName, slots, decl, index, Table.find?_of_prefix hv hf, hrest⟩

end Frame

end WordLang
