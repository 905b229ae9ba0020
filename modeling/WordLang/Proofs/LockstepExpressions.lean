import WordLang.Proofs.Expressions
import WordLang.Proofs.Lockstep
import WordLang.Proofs.TextVariables

/-!
# Expressions in lockstep

Runs of one function are synced if they have the same frame, the same words in the slots that were
written, and the same library calls behind them. From there on the code of an expression keeps them
in lockstep until all of them have computed the same word. Each lemma here is about one form of
expression, whose parts keep the runs in lockstep.
-/
namespace WordLang

open Asm Machine

/-! ## Runs of a loaded program -/

namespace Loaded

section

variable (L : Loaded) (d : Discipline) {ι : Type}

/-- The runs stay in lockstep for `n` steps from position `k` on. -/
abbrev Lock (n k : Nat) (calls : List (List Nat)) (m : ι → State) : Prop :=
  L.image.Lockstep L.runtime d n ⟨L.image.address k, calls⟩ m

/-- The runs went from the states `m` to the states `m'`, and have computed one word into `%rax`.
All that a callee has to keep is kept. -/
structure Computed (m m' : ι → State) : Prop where
  keeps : ∀ i, (m i).Keeps ((m i).regs .rsp).toNat L.runtime.stackTop (m' i)
  result : Uniform fun i => (m' i).regs .rax
  trace : Uniform fun i => (m' i).trace

/-- The runs have returned with one word in `%rax` from calls that had just been made. The return
addresses are popped, and all that a callee has to keep is kept. -/
structure Returned (m m' : ι → State) : Prop where
  keeps : ∀ i, (m i).drop.Keeps ((m i).regs .rsp).toNat L.runtime.stackTop (m' i)
  result : Uniform fun i => (m' i).regs .rax
  trace : Uniform fun i => (m' i).trace

/-- A call of `f` has just been made, with the same arguments and from the same place. -/
structure Entered (f : FunctionDecl) (a : Word) (m : ι → State) : Prop where
  args : ∀ r ∈ Register.args.take f.params.length, Uniform fun i => (m i).regs r
  trace : Uniform fun i => (m i).trace
  rsp : Uniform fun i => ((m i).regs .rsp).toNat
  aligned : ∀ i, ((m i).regs .rsp).toNat % 16 = 8
  below_top : ∀ i, ((m i).regs .rsp).toNat + 8 ≤ L.runtime.stackTop
  top : ∀ i, (m i).top = a

/-- If the instruction at position `k` prints text and that is asked for, it prints a literal. -/
def PrintsLiterals (k : Nat) (m : ι → State) : Prop :=
  d.texts → L.image.PrintsText (L.image.address k) → ∀ i, L.image.IsLiteral ((m i).regs .rdi)

variable (ι) in
/-- Calls of functions keep the runs in lockstep for `n` steps, if what follows them does. -/
def CallsLock (n : Nat) : Prop :=
  ∀ {f : FunctionDecl} {k : Nat} {a : Word} {older : List (List Nat)} {m : ι → State},
    f ∈ L.program.functions → L.image.symbols.find? f.name = some k → L.Entered f a m →
    (∀ m', L.Returned m m' → L.image.Lockstep L.runtime d n ⟨a, older⟩ m') →
    L.Lock d n k ([] :: older) m

variable (ι) in
/-- A call that passes `count` arguments passes all that its callee reads. Of one run alone nothing
is asked. -/
def Supplies (callee : Callee) (count : Nat) : Prop :=
  (∃ f ∈ L.program.functions, f.name = callee.symbol ∧
    (Subsingleton ι ∨ f.params.length ≤ count)) ∨
  (∀ f ∈ L.program.functions, f.name ≠ callee.symbol) ∧
    ∃ b, Builtin.find? callee.symbol = some b ∧ b.arity ≤ count

end

end Loaded

/-! ## Frames of calls -/

namespace Activation

variable {L : Loaded} (c : Activation L) (d : Discipline) {ι : Type}

def IsSlot (n : Nat) : Prop := ∃ name index, SlotAt c.frame.vars name index n

/-- All words of the variables are in slots that were written. -/
def Assigned (names : List String) (written : List Nat) : Prop :=
  ∀ name ∈ names, ∀ {index slot : Nat}, SlotAt c.frame.vars name index slot → slot ∈ written

/-- The runs are in a call with this frame, with `pending` words pushed. Above the frame all is as
in the states `origin`, and the slots that were written hold the same words in all runs. Slots of
texts hold literals, if that is asked for. -/
structure Synced (origin : ι → State) (written : List Nat) (pending : Nat) (m : ι → State) :
    Prop where
  rbp : ∀ i, (m i).regs .rbp = c.base
  rsp : ∀ i, ((m i).regs .rsp).toNat + pending * wordSize + alignTo16 c.frame.size = c.base.toNat
  rbx : ∀ i, (m i).regs .rbx = (origin i).regs .rbx
  memory : ∀ i, ∀ a : Word, c.base.toNat ≤ a.toNat → a.toNat < L.runtime.stackTop →
    (m i).memory a = (origin i).memory a
  trace : Uniform fun i => (m i).trace
  slots : ∀ n ∈ written, c.IsSlot n ∧ Uniform fun i => (m i).memory.load (c.slot n)
  texts : d.texts → ∀ n ∈ written, c.frame.TextSlot n →
    ∀ i, L.image.IsLiteral ((m i).memory.load (c.slot n))

/-- The runs have computed the value of `e`. One that prints as text is a literal, if that is asked
for. -/
structure Evaluated (e : Expr) (m m' : ι → State) : Prop extends L.Computed m m' where
  text : d.texts → e.isString c.frame → ∀ i, L.image.IsLiteral ((m' i).regs .rax)

variable {c d}

/-- A value that does not print as text. -/
theorem Evaluated.of_computed {e : Expr} {m m' : ι → State} (h : L.Computed m m')
    (he : e.isString c.frame = false) : c.Evaluated d e m m' :=
  ⟨h, fun _ htext => by simp [he] at htext⟩

theorem IsSlot.toNat_slot {n : Nat} (h : c.IsSlot n) :
    (c.slot n).toNat = c.base.toNat - n ∧ 8 ∣ n ∧ 8 ≤ n ∧ n ≤ alignTo16 c.frame.size := by
  obtain ⟨_, _, hat⟩ := h
  exact Activation.toNat_slot hat

theorem isSlot_wordSlot {frame : Frame} (hv : frame.vars <+: c.frame.vars) {name : String}
    {n : Nat} (h : frame.WordSlot name n) : SlotAt c.frame.vars name 0 n :=
  (c.sound.wordSlot_iff.1 (h.mono hv)).2

theorem exists_fieldSlot {frame : Frame} (hv : frame.vars <+: c.frame.vars) {name part : String}
    {n : Nat} (h : frame.FieldSlot L.decls name part n) :
    ∃ index, SlotAt c.frame.vars name index n := by
  obtain ⟨index, -, hat⟩ := c.sound.fieldSlot_iff.1 (h.mono hv)
  exact ⟨index, hat⟩

namespace Synced

variable {origin : ι → State} {written : List Nat} {pending : Nat} {m m' : ι → State}

theorem slot_eq (h : c.Synced d origin written pending m) (i : ι) (n : Nat) :
    (m i).slot n = c.slot n := by
  rw [State.slot, h.rbp, Activation.slot]

theorem rsp_le (h : c.Synced d origin written pending m) (i : ι) :
    ((m i).regs .rsp).toNat + 16 ≤ L.runtime.stackTop := by
  have := h.rsp i
  have := c.base_le
  omega

theorem uniform_rsp (h : c.Synced d origin written pending m) :
    Uniform fun i => ((m i).regs .rsp).toNat := by
  refine ⟨c.base.toNat - (pending * wordSize + alignTo16 c.frame.size), fun i => ?_⟩
  show ((m i).regs .rsp).toNat = _
  rw [← h.rsp i]
  omega

/-- The runs go on with other words pushed; above the stack pointer nothing changes. -/
theorem of_memory (h : c.Synced d origin written pending m) {pending' : Nat}
    (hrbp : ∀ i, (m' i).regs .rbp = (m i).regs .rbp)
    (hrbx : ∀ i, (m' i).regs .rbx = (m i).regs .rbx)
    (hrsp : ∀ i, ((m' i).regs .rsp).toNat + pending' * wordSize =
      ((m i).regs .rsp).toNat + pending * wordSize)
    (hmem : ∀ i, ∀ a : Word, ((m i).regs .rsp).toNat ≤ a.toNat → a.toNat < L.runtime.stackTop →
      (m' i).memory a = (m i).memory a)
    (ht : Uniform fun i => (m' i).trace) : c.Synced d origin written pending' m' := by
  have hbase := c.base_le
  have hkept (n : Nat) (hn : n ∈ written) (i : ι) :
      (m' i).memory.load (c.slot n) = (m i).memory.load (c.slot n) := by
    obtain ⟨ha, -, hpos, hle⟩ := (h.slots n hn).1.toNat_slot
    have := c.size_le
    have := c.base.isLt
    have := h.rsp i
    apply Memory.load_congr (hmem i) <;> omega
  refine ⟨fun i => (hrbp i).trans (h.rbp i), fun i => by rw [hrsp i, h.rsp i],
    fun i => (hrbx i).trans (h.rbx i), fun i a hl hh => ?_, ht, fun n hn => ?_,
    fun hd n hn hs i => ?_⟩
  · have := h.rsp i
    exact (hmem i a (by omega) hh).trans (h.memory i a hl hh)
  · exact ⟨(h.slots n hn).1, (h.slots n hn).2.congr (hkept n hn)⟩
  · rw [hkept n hn]
    exact h.texts hd n hn hs i

theorem of_keeps (h : c.Synced d origin written pending m)
    (hk : ∀ i, (m i).Keeps ((m i).regs .rsp).toNat L.runtime.stackTop (m' i))
    (ht : Uniform fun i => (m' i).trace) : c.Synced d origin written pending m' :=
  h.of_memory (fun i => (hk i).rbp) (fun i => (hk i).rbx) (fun i => by rw [(hk i).rsp])
    (fun i => (hk i).memory) ht

theorem of_pushes (h : c.Synced d origin written pending m) {ws : List Word}
    (hp : ∀ i, (m i).Pushes L.runtime.stackTop ws (m' i)) (ht : Uniform fun i => (m' i).trace) :
    c.Synced d origin written (pending + ws.length) m' := by
  refine h.of_memory (fun i => (hp i).rbp) (fun i => (hp i).rbx) (fun i => ?_)
    (fun i => (hp i).memory) ht
  have := (hp i).rsp
  rw [Nat.add_mul]
  omega

/-- The stack pointer is aligned with an even number of words pushed. -/
theorem dvd_rsp (h : c.Synced d origin written pending m) (hp : pending % 2 = 0) (i : ι) :
    16 ∣ ((m i).regs .rsp).toNat := by
  have hrsp := h.rsp i
  have hbase := c.aligned
  simp only [alignTo16, wordSize] at hrsp
  omega

/-- One word is stored into a slot in all runs. -/
theorem store (h : c.Synced d origin written pending m) {n : Nat} (hn : c.IsSlot n) {v : ι → Word}
    (hv : Uniform v)
    (ht : d.texts → c.frame.TextSlot n → ∀ i, L.image.IsLiteral (v i)) :
    c.Synced d origin (n :: written) pending fun i => (m i).write (c.slot n) (v i) := by
  obtain ⟨ha, hdvd, hpos, hle⟩ := hn.toNat_slot
  have hsize := c.size_le
  have hlt := c.base.isLt
  have hother (n' : Nat) (hn' : n' ∈ written) (hne : n' ≠ n) (i : ι) :
      ((m i).write (c.slot n) (v i)).memory.load (c.slot n') =
        (m i).memory.load (c.slot n') := by
    obtain ⟨ha', hdvd', hpos', hle'⟩ := (h.slots n' hn').1.toNat_slot
    apply Memory.load_store_of_disjoint <;> omega
  refine ⟨h.rbp, h.rsp, h.rbx, fun i a hl hh => ?_, h.trace, fun n' hn' => ?_,
    fun hd n' hn' hs i => ?_⟩
  · rw [← h.memory i a hl hh]
    apply Memory.store_of_outside <;> omega
  · by_cases he : n' = n
    · subst he
      exact ⟨hn, hv.congr fun i => by simp⟩
    · have hn' := (List.mem_cons.1 hn').resolve_left he
      exact ⟨(h.slots n' hn').1, (h.slots n' hn').2.congr (hother n' hn' he)⟩
  · by_cases he : n' = n
    · subst he
      simpa using ht hd hs i
    · have hn' := (List.mem_cons.1 hn').resolve_left he
      rw [hother n' hn' he]
      exact h.texts hd n' hn' hs i

end Synced

end Activation

/-! ## Operators -/

/-- With prepared operands, one division fails. -/
theorem Machine.State.DivisionReady.divide_eq_none_iff {s : State} (h : s.DivisionReady) :
    s.divide (s.regs .rcx) = none ↔ s.regs .rax = BitVec.intMin 64 ∧ s.regs .rcx = -1 := by
  constructor
  · intro hnone
    by_contra hmin
    rw [State.divide_of_signExtended h.divisor hmin h.extended] at hnone
    cases hnone
  · rintro ⟨hx, hy⟩
    simp only [State.divide, h.extended, toInt_signExtended, hx, hy]
    rfl

section

variable {L : Loaded} {d : Discipline} {ι : Type} {n k k' : Nat} {written : List Nat}
  {older : List (List Nat)} {m : ι → State}

namespace Loaded

/-- The states that the runs were in do not matter for what they have computed since. -/
theorem Computed.of_keeps {m₁ m' : ι → State} (h : L.Computed m₁ m')
    (hk : ∀ i, (m i).Keeps ((m i).regs .rsp).toNat L.runtime.stackTop (m₁ i)) :
    L.Computed m m' := by
  refine ⟨fun i => (hk i).trans ?_, h.result, h.trace⟩
  rw [← (hk i).rsp]
  exact h.keeps i

/-- Quiet instructions that leave one word in `%rax`. -/
theorem lock_execAll {is : List Instr} (hq : ∀ i ∈ is, i.isQuiet)
    (hh : L.image.Holds k (.ofInstrs is) k') (ht : Uniform fun i => (m i).trace) {m' : ι → State}
    (he : ∀ i, Instr.execAll L.image.literal is (m i) = some (m' i))
    (hk : ∀ i, (m i).Keeps ((m i).regs .rsp).toNat L.runtime.stackTop (m' i))
    (hv : Uniform fun i => (m' i).regs .rax)
    (hn : ∀ m', L.Computed m m' → L.Lock d n k' (written :: older) m') :
    L.Lock d n k (written :: older) m := by
  refine .execAll hq hh ht he (hn m' ⟨hk, hv, ht.congr fun i => ?_⟩)
  exact Instr.execAll_trace (he i)

/-- A division with prepared operands fails in all runs or in none. -/
theorem lock_idiv {x y : Word} (h : L.image.instrs[k]? = some (.idiv .rcx))
    (ht : Uniform fun i => (m i).trace) (hx : ∀ i, (m i).regs .rax = x)
    (hy : ∀ i, (m i).regs .rcx = y) (hd : ∀ i, (m i).DivisionReady)
    (hn : L.Lock d n (k + 1) (written :: older) fun i =>
      (((m i).set .rax (BitVec.ofInt 64 (x.toInt.tdiv y.toInt))).set .rdx
        (BitVec.ofInt 64 (x.toInt.tmod y.toInt))).setFlags none) :
    L.Lock d n k (written :: older) m := by
  have hi : L.image.instrAt? (L.image.address k) = some (.idiv .rcx) := Image.instrAt?_address h
  have hin : L.image.InStep d ⟨L.image.address k, written :: older⟩ m := by
    refine ⟨ht, by simp, fun _ r hr => ?_, ?_, fun _ _ hp => ?_⟩
    · cases hi.symm.trans hr
      exact ⟨rfl, hd⟩
    · rintro - _ _ - slot dst hr
      cases hi.symm.trans hr
    · cases hi.symm.trans hp.instrAt?
  have hadvance (i : ι) : L.image.advance L.runtime (⟨L.image.address k, written :: older⟩, m i) =
      ((m i).divide ((m i).regs .rcx)).map
        (⟨L.image.address (k + 1), written :: older⟩, ·) := by
    simp [Image.advance_of_getElem? h (Nat.zero_le _), Image.step_of_getElem? h, Image.perform,
      Instr.exec, Image.track, Function.comp_def]
  by_cases hmin : x = BitVec.intMin 64 ∧ y = -1
  · refine .of_ended hin fun i => ?_
    rw [hadvance, (hd i).divide_eq_none_iff.2 ⟨(hx i).trans hmin.1, (hy i).trans hmin.2⟩]
    rfl
  · refine .of_advance hin (fun i => ?_) fun _ j hj => hn.mono (Nat.le_of_lt hj)
    rw [hadvance, State.divide_of_signExtended (hd i).divisor (by rwa [hx, hy]) (hd i).extended, hx,
      hy]
    rfl

end Loaded

theorem Asm.divisionCode_eq (remainder : Bool) (nonzero done : Nat) :
    divisionCode remainder nonzero done =
      Code.ofInstrs [.test .rcx .rcx, .jne nonzero] ++
        (Code.ofInstrs [.movImm 0 .rax, .jmp done] ++
          .label nonzero :: (Code.ofInstrs [.cqto, .idiv .rcx] ++
            (Code.ofInstrs (if remainder then [.mov .rdx .rax] else []) ++ [.label done]))) := by
  cases remainder <;> rfl

namespace Loaded

theorem lock_division {remainder : Bool} {nonzero done : Nat} {x y : Word}
    (hh : L.image.Holds k (divisionCode remainder nonzero done) k')
    (ht : Uniform fun i => (m i).trace) (hx : ∀ i, (m i).regs .rax = x)
    (hy : ∀ i, (m i).regs .rcx = y)
    (hn : ∀ m', L.Computed m m' → L.Lock d n k' (written :: older) m') :
    L.Lock d n k (written :: older) m := by
  rw [divisionCode_eq] at hh
  simp only [Image.holds_append, Image.holds_label, Image.holds_nil] at hh
  obtain ⟨k₁, htest, k₂, ⟨hmov, hjmp, -⟩, hnonzero, k₃, ⟨hcqto, hidiv, rfl⟩, k₄, hlast, hdone,
    rfl⟩ := hh
  refine .testNonzero htest ht hy (fun hne flags pos hpos => ?_) fun _ flags => ?_
  · -- The divisor is not zero, and the dividend is extended by its sign.
    obtain rfl : k₂ = pos := Option.some.inj (hnonzero.symm.trans hpos)
    refine .exec hcqto rfl ht (.inl rfl) (fun _ => rfl) fun _ => ?_
    refine L.lock_idiv hidiv ht hx hy (fun i => ⟨?_, rfl⟩) ?_
    · show (m i).regs .rcx ≠ 0
      rwa [hy]
    cases remainder with
    | false =>
      refine L.lock_execAll (by simp) hlast ht (fun _ => rfl)
        (fun _ => ⟨rfl, rfl, rfl, fun _ _ _ => rfl⟩) ⟨_, fun _ => rfl⟩ fun m' hm' => ?_
      exact hn m' (hm'.of_keeps fun _ => ⟨rfl, rfl, rfl, fun _ _ _ => rfl⟩)
    | true =>
      refine L.lock_execAll (by simp [Instr.isQuiet]) hlast ht (fun _ => rfl)
        (fun _ => ⟨rfl, rfl, rfl, fun _ _ _ => rfl⟩) ⟨_, fun _ => rfl⟩ fun m' hm' => ?_
      exact hn m' (hm'.of_keeps fun _ => ⟨rfl, rfl, rfl, fun _ _ _ => rfl⟩)
  · refine .exec hmov rfl ht (.inl rfl) (fun _ => rfl) fun _ => ?_
    refine .jmp hjmp ht fun pos hpos j hj => ?_
    obtain rfl : k₄ = pos := Option.some.inj (hdone.symm.trans hpos)
    have hm' : L.Computed m fun i => ((m i).setFlags flags).set .rax (0 : Int64).toBitVec :=
      ⟨fun _ => ⟨rfl, rfl, rfl, fun _ _ _ => rfl⟩, ⟨0, fun _ => rfl⟩, ht⟩
    exact (hn _ hm').mono (Nat.le_of_lt hj)

theorem lock_binary {op : BinaryOp} {label : Nat} {x y : Word}
    (hh : L.image.Holds k (op.code label) k') (ht : Uniform fun i => (m i).trace)
    (hx : ∀ i, (m i).regs .rax = x) (hy : ∀ i, (m i).regs .rcx = y)
    (hn : ∀ m', L.Computed m m' → L.Lock d n k' (written :: older) m') :
    L.Lock d n k (written :: older) m := by
  have hx' : Uniform fun i => (m i).regs .rax := ⟨x, hx⟩
  have hy' : Uniform fun i => (m i).regs .rcx := ⟨y, hy⟩
  cases op with
  | add =>
    have hh : L.image.Holds k (.ofInstrs [.add .rcx .rax]) k' := hh
    exact L.lock_execAll (by simp [Instr.isQuiet]) hh ht (fun _ => rfl)
      (fun _ => ⟨rfl, rfl, rfl, fun _ _ _ => rfl⟩) (hx'.map₂ hy' (· + ·)) hn
  | sub =>
    have hh : L.image.Holds k (.ofInstrs [.sub .rcx .rax]) k' := hh
    exact L.lock_execAll (by simp [Instr.isQuiet]) hh ht (fun _ => rfl)
      (fun _ => ⟨rfl, rfl, rfl, fun _ _ _ => rfl⟩) (hx'.map₂ hy' (· - ·)) hn
  | mul =>
    have hh : L.image.Holds k (.ofInstrs [.imul .rcx .rax]) k' := hh
    exact L.lock_execAll (by simp [Instr.isQuiet]) hh ht (fun _ => rfl)
      (fun _ => ⟨rfl, rfl, rfl, fun _ _ _ => rfl⟩) (hx'.map₂ hy' (· * ·)) hn
  | div | mod => exact L.lock_division hh ht hx hy hn

theorem lock_compare {op : CompareOp} {x y : Word} (hh : L.image.Holds k op.code k')
    (ht : Uniform fun i => (m i).trace) (hx : ∀ i, (m i).regs .rax = x)
    (hy : ∀ i, (m i).regs .rcx = y)
    (hn : ∀ m', L.Computed m m' → L.Lock d n k' (written :: older) m') :
    L.Lock d n k (written :: older) m := by
  have hh : L.image.Holds k (.ofInstrs [.cmp .rcx .rax, .set op .rax, .zeroExtend .rax]) k' := hh
  let outcome (x y : Word) : BitVec 8 :=
    if (Flags.ofResult (x - y) (x.toInt - y.toInt)).holds op then 1#8 else 0#8
  have hv := Uniform.map₂ ⟨x, hx⟩ ⟨y, hy⟩ fun x y =>
    ((x.extractLsb' 8 56 ++ outcome x y).setWidth 8).setWidth 64
  exact L.lock_execAll (by simp [Instr.isQuiet]) hh ht (fun _ => rfl)
    (fun _ => ⟨rfl, rfl, rfl, fun _ _ _ => rfl⟩) hv hn

/-! ## Calls -/

section

variable {callee : Callee} {count : Nat}

/-- A call by name passes as many arguments as its callee takes. -/
theorem supplies_of_callee {name : String} (h : L.decls.callee name count = .ok callee) :
    L.Supplies ι callee count := by
  obtain ⟨hfind, rfl⟩ | ⟨hnone, rfl, b, hb, rfl⟩ := Declarations.callee_eq_ok.1 h
  · obtain ⟨f, hf, hname, hlen⟩ := (Program.find?_functions L.assembles.functions_nodup).1 hfind
    exact .inl ⟨f, hf, hname, .inr hlen.le⟩
  · exact .inr ⟨Program.find?_functions_eq_none.1 hnone, b, hb, Nat.le_refl _⟩

/-- What a call calls, if it prints text. -/
theorem eq_of_printsText {pending : Nat} (hh : L.image.Holds k (Lower.callCode pending callee) k')
    (hp : L.image.PrintsText (L.image.address (k + pending % 2))) :
    callee = .library "print_string" := by
  have hat := Image.instrAt?_address (Image.getElem?_of_holds_callCode hh)
  cases hat.symm.trans hp.instrAt?
  rfl

/-- A call by name takes its arguments from the stack, and so is no print. -/
theorem not_printsText_of_callee {name : String} {pending : Nat}
    (h : L.decls.callee name count = .ok callee) (hpops : L.image.Holds k (argPops count) k')
    {k₂ : Nat} (hcall : L.image.Holds k' (Lower.callCode pending callee) k₂) :
    ¬ L.image.PrintsText (L.image.address (k' + pending % 2)) := by
  intro hp
  obtain rfl := L.eq_of_printsText hcall hp
  obtain rfl : count = 1 := by
    obtain ⟨-, hown⟩ | ⟨-, hname, b, hb, rfl⟩ := Declarations.callee_eq_ok.1 h
    · cases hown
    · cases hname
      cases hb
      rfl
  obtain ⟨hpop, rfl⟩ : L.image.instrs[k]? = some (.pop .rdi) ∧ k + 1 = k' := hpops
  exact Image.not_printsText_of_pop hpop hcall hp

/-- The library answers all runs alike. -/
theorem lock_library (h : L.image.instrs[k]? = some (.call callee))
    (hnone : L.image.symbols.find? callee.symbol = none) {b : Builtin}
    (hb : Builtin.find? callee.symbol = some b) (hle : b.arity ≤ count)
    (hargs : ∀ r ∈ Register.args.take count, Uniform fun i => (m i).regs r)
    (ht : Uniform fun i => (m i).trace) (hrsp : Uniform fun i => ((m i).regs .rsp).toNat)
    (halign : ∀ i, 16 ∣ ((m i).regs .rsp).toNat) (hp : L.PrintsLiterals d k m)
    (hn : ∀ m', L.Computed m m' → L.Lock d n (k + 1) (written :: older) m') :
    L.Lock d n k (written :: older) m := by
  have hin : L.image.InStep d ⟨L.image.address k, written :: older⟩ m :=
    Image.Lockstep.inStep_call h ht hp
  refine .of_room h hin (.inr hrsp) fun hroom => ?_
  have hvs : Uniform fun i => (m i).libraryArgs callee.symbol := by
    simp only [State.libraryArgs, hb, Option.map_some, Option.getD_some]
    exact Uniform.list_map fun r hr => hargs r (List.take_subset_take_left _ hle hr)
  obtain ⟨vs, (hvs : ∀ i, (m i).libraryArgs callee.symbol = vs)⟩ := hvs
  obtain ⟨t, (ht : ∀ i, (m i).trace = t)⟩ := ht
  have hanswer (i : ι) : L.runtime.answer (m i).trace callee.symbol
      ((m i).libraryArgs callee.symbol) = L.runtime.answer t callee.symbol vs := by
    rw [ht, hvs]
  have hadvance (i : ι) :
      L.image.advance L.runtime (⟨L.image.address k, written :: older⟩, m i) =
        (L.runtime.call callee.symbol (m i)).map
          (⟨L.image.address (k + 1), written :: older⟩, ·) := by
    simp [Image.advance_of_getElem? h (hroom i), Image.step_of_getElem? h, Image.perform, hnone,
      Image.track, Function.comp_def]
  cases hv : L.runtime.answer t callee.symbol vs with
  | none =>
    refine .of_ended hin fun i => ?_
    rw [hadvance, Runtime.call, hanswer, hv]
    rfl
  | some v =>
    choose m' hm' hresult htrace hkeeps using fun i =>
      L.runtime.exists_call ((hanswer i).trans hv) (halign i)
    refine .of_advance hin (fun i => ?_) fun _ j hj => (hn m' ⟨hkeeps, ⟨v, hresult⟩, ?_⟩).mono
      (Nat.le_of_lt hj)
    · rw [hadvance, hm']
      rfl
    · exact ⟨t ++ [⟨callee.symbol, vs, v⟩], fun i => by simp only [htrace, ht, hvs]⟩

/-- A function of the program is called, and returns to the instruction after the call. -/
theorem lock_own [Nonempty ι] (hcalls : ∀ j < n, L.CallsLock d ι j)
    (h : L.image.instrs[k]? = some (.call callee)) {f : FunctionDecl}
    (hf : f ∈ L.program.functions) (hname : f.name = callee.symbol)
    (hle : Subsingleton ι ∨ f.params.length ≤ count)
    (hargs : ∀ r ∈ Register.args.take count, Uniform fun i => (m i).regs r)
    (ht : Uniform fun i => (m i).trace) (hrsp : Uniform fun i => ((m i).regs .rsp).toNat)
    (halign : ∀ i, 16 ∣ ((m i).regs .rsp).toNat)
    (htop : ∀ i, ((m i).regs .rsp).toNat ≤ L.runtime.stackTop) (hp : L.PrintsLiterals d k m)
    (hn : ∀ m', L.Computed m m' → L.Lock d n (k + 1) (written :: older) m') :
    L.Lock d n k (written :: older) m := by
  have hin : L.image.InStep d ⟨L.image.address k, written :: older⟩ m :=
    Image.Lockstep.inStep_call h ht hp
  refine .of_room h hin (.inr hrsp) fun hroom => ?_
  obtain ⟨_, _, _, pos, _, -, -, hpos, -⟩ := L.exists_code hf
  have hpos' : L.image.symbols.find? callee.symbol = some pos := hname ▸ hpos
  let m₁ (i : ι) : State := (m i).push (L.image.address (k + 1))
  have hnat (i : ι) : ((m₁ i).regs .rsp).toNat = ((m i).regs .rsp).toNat - 8 :=
    toNat_sub_ofNat (hroom i)
  have henters : L.Entered f (L.image.address (k + 1)) m₁ := by
    refine ⟨fun r hr => ?_, ht, (hrsp.map (· - 8)).congr hnat, fun i => ?_, fun i => ?_,
      fun i => ?_⟩
    · have hr' : r ≠ .rsp := by
        rintro rfl
        simpa [Register.args] using List.mem_of_mem_take hr
      have hregs (i : ι) : (m₁ i).regs r = (m i).regs r := by simp [m₁, hr']
      refine Uniform.congr ?_ hregs
      obtain hle | hle := hle
      · exact .of_subsingleton hle _
      · exact hargs r (List.take_subset_take_left _ hle hr)
    · have hroom := hroom i
      have halign := halign i
      simp only [Instr.takes, wordSize] at hroom
      rw [hnat]
      omega
    · have hroom := hroom i
      have htop := htop i
      simp only [Instr.takes, wordSize] at hroom
      rw [hnat]
      omega
    · simp [m₁, State.top]
  have hadvance (i : ι) : L.image.advance L.runtime (⟨L.image.address k, written :: older⟩, m i) =
      some (⟨L.image.address pos, [] :: written :: older⟩, m₁ i) := by
    simp [Image.advance_of_getElem? h (hroom i), Image.step_call h hpos', Image.track, hpos', m₁]
  refine .of_advance hin hadvance fun _ j hj => hcalls j hj hf hpos henters fun m' hm' => ?_
  have hpush (i : ι) : (m i).Pushes L.runtime.stackTop [L.image.address (k + 1)] (m₁ i) :=
    (m i).pushes_push (hroom i) _
  refine (hn m' ⟨fun i => ?_, hm'.result, hm'.trace⟩).mono (Nat.le_of_lt hj)
  have hdrop : (m i).Keeps ((m i).regs .rsp).toNat L.runtime.stackTop (m₁ i).drop :=
    ⟨BitVec.sub_add_cancel ((m i).regs .rsp) 8, rfl, rfl, (hpush i).memory⟩
  exact hdrop.trans ((hm'.keeps i).mono (by rw [hnat]; omega))

/-- A call that passes all that its callee reads, with the stack aligned. -/
theorem lock_call [Nonempty ι] (hcalls : ∀ j < n, L.CallsLock d ι j)
    (h : L.image.instrs[k]? = some (.call callee)) (hc : L.Supplies ι callee count)
    (hargs : ∀ r ∈ Register.args.take count, Uniform fun i => (m i).regs r)
    (ht : Uniform fun i => (m i).trace) (hrsp : Uniform fun i => ((m i).regs .rsp).toNat)
    (halign : ∀ i, 16 ∣ ((m i).regs .rsp).toNat)
    (htop : ∀ i, ((m i).regs .rsp).toNat ≤ L.runtime.stackTop) (hp : L.PrintsLiterals d k m)
    (hn : ∀ m', L.Computed m m' → L.Lock d n (k + 1) (written :: older) m') :
    L.Lock d n k (written :: older) m := by
  obtain ⟨f, hf, hname, hle⟩ | ⟨hnone, b, hb, hle⟩ := hc
  · exact L.lock_own hcalls h hf hname hle hargs ht hrsp halign htop hp hn
  · have hsym : L.image.symbols.find? callee.symbol = none :=
      L.assembles.find?_symbols_eq_none L.loads (Builtin.isSymbolName_of_find? hb) hnone
    exact L.lock_library h hsym hb hle hargs ht hrsp halign hp hn

/-- The stack is aligned for the call, and brought back after it. -/
theorem lock_callCode [Nonempty ι] (hcalls : ∀ j < n, L.CallsLock d ι j) {c : Activation L}
    {origin : ι → State} {pending : Nat} (hm : c.Synced d origin written pending m)
    (hh : L.image.Holds k (Lower.callCode pending callee) k') (hc : L.Supplies ι callee count)
    (hargs : ∀ r ∈ Register.args.take count, Uniform fun i => (m i).regs r)
    (hp : L.PrintsLiterals d (k + pending % 2) m)
    (hn : ∀ m', L.Computed m m' → L.Lock d n k' (written :: older) m') :
    L.Lock d n k (written :: older) m := by
  unfold Lower.callCode at hh
  split at hh
  · next hodd =>
    rw [hodd] at hp
    obtain ⟨hsub, hcall, hadd, rfl⟩ := hh
    let m₁ (i : ι) : State := Instr.exec.difference (BitVec.ofNat 64 wordSize) .rsp (m i)
    refine .exec hsub rfl hm.trace (.inr hm.uniform_rsp) (fun _ => rfl) fun hroom => ?_
    have hnat (i : ι) : ((m₁ i).regs .rsp).toNat = ((m i).regs .rsp).toNat - 8 :=
      toNat_sub_ofNat (hroom i)
    refine L.lock_call hcalls hcall hc (m := m₁) (fun r hr => ?_) hm.trace
      ((hm.uniform_rsp.map (· - 8)).congr hnat) (fun i => ?_) (fun i => ?_) hp fun m₂ hm₂ => ?_
    · have hr' : r ≠ .rsp := by
        rintro rfl
        simpa [Register.args] using List.mem_of_mem_take hr
      refine (hargs r hr).congr fun i => ?_
      simp [m₁, Instr.exec.difference, State.compute, hr']
    · have hrsp := hm.rsp i
      have hbase := c.aligned
      have hroom := hroom i
      simp only [alignTo16, wordSize, Instr.takes] at hrsp hroom
      rw [hnat]
      omega
    · have hle := hm.rsp_le i
      rw [hnat]
      omega
    · refine .exec hadd rfl hm₂.trace (.inl rfl) (fun _ => rfl) fun _ => hn _ ⟨fun i => ?_,
        hm₂.result, hm₂.trace⟩
      have hk := hm₂.keeps i
      refine ⟨?_, hk.rbp, hk.rbx, fun a hl hh => hk.memory a (by rw [hnat]; omega) hh⟩
      show (m₂ i).regs .rsp + 8 = (m i).regs .rsp
      rw [hk.rsp]
      exact BitVec.sub_add_cancel ((m i).regs .rsp) 8
  · next heven =>
    obtain ⟨hcall, rfl⟩ := hh
    rw [show pending % 2 = 0 by omega] at hp
    refine L.lock_call hcalls hcall hc hargs hm.trace hm.uniform_rsp (hm.dvd_rsp (by omega))
      (fun i => ?_) hp hn
    have := hm.rsp_le i
    omega

end

end Loaded

end

/-! ## Forms of expressions -/

namespace Expr

mutual

/-- The variables that an expression names. -/
def reads : Expr → List String
  | .int _ | .str _ => []
  | .ident name | .field name _ => [name]
  | .binary _ lhs rhs | .compare _ lhs rhs => lhs.reads ++ rhs.reads
  | .call _ args => argsReads args

def argsReads : List Expr → List String
  | [] => []
  | arg :: args => arg.reads ++ argsReads args

end

section

variable (L : Loaded) (d : Discipline) (ι : Type)

/-- The code of `e` keeps synced runs in lockstep for `n` steps, if what follows it does. -/
def Locks (n : Nat) (e : Expr) : Prop :=
  ∀ {c : Activation L} {origin m : ι → State} {written : List Nat} {older : List (List Nat)}
    {s s' : Lowering} {code : Code} {k k' : Nat},
    e.Lowers L.decls s code s' → s'.frame.vars <+: c.frame.vars →
    (d.strict → c.Assigned e.reads written) → L.image.Holds k code k' →
    c.Synced d origin written s.frame.pending m →
    (∀ m', c.Evaluated d e m m' → L.Lock d n k' (written :: older) m') →
    L.Lock d n k (written :: older) m

/-- The code of arguments pushes the same words in all runs. -/
def AllLock (n : Nat) (args : List Expr) : Prop :=
  ∀ {c : Activation L} {origin m : ι → State} {written : List Nat} {older : List (List Nat)}
    {s s' : Lowering} {code : Code} {k k' : Nat},
    LowersArgs L.decls args s code s' → s'.frame.vars <+: c.frame.vars →
    (d.strict → c.Assigned (argsReads args) written) → L.image.Holds k code k' →
    c.Synced d origin written s.frame.pending m →
    (∀ m' vs, vs.length = args.length → (∀ i, (m i).Pushes L.runtime.stackTop vs (m' i)) →
      (Uniform fun i => (m' i).trace) → L.Lock d n k' (written :: older) m') →
    L.Lock d n k (written :: older) m

end

variable {L : Loaded} {d : Discipline} {ι : Type} {n : Nat}

theorem locks_int (value : Int64) : (Expr.int value).Locks L d ι n := by
  intro c origin m written older s s' code k k' hl _ _ hh hm hn
  cases hl
  obtain ⟨hi, rfl⟩ := hh
  exact .exec hi rfl hm.trace (.inl rfl) (fun _ => rfl) fun _ => hn _ (.of_computed
    ⟨fun _ => ⟨rfl, rfl, rfl, fun _ _ _ => rfl⟩, ⟨value.toBitVec, fun _ => rfl⟩, hm.trace⟩ rfl)

theorem locks_str (text : String) : (Expr.str text).Locks L d ι n := by
  intro c origin m written older s s' code k k' hl _ _ hh hm hn
  cases hl with
  | @str _ _ _ index _ =>
    obtain ⟨hi, rfl⟩ := hh
    have hliteral : L.image.IsLiteral (L.image.literal index) :=
      ⟨index, .rax, List.mem_of_getElem? hi, rfl⟩
    exact .exec hi rfl hm.trace (.inl rfl) (fun _ => rfl) fun _ => hn _
      ⟨⟨fun _ => ⟨rfl, rfl, rfl, fun _ _ _ => rfl⟩, ⟨_, fun _ => rfl⟩, hm.trace⟩,
        fun _ _ _ => hliteral⟩

/-- A word of a variable is read. -/
theorem lock_load [Nonempty ι] {c : Activation L} {origin m : ι → State} {written : List Nat}
    {older : List (List Nat)} {pending slot k : Nat}
    (hi : L.image.instrs[k]? = some (.load slot .rax)) (hs : d.strict → slot ∈ written)
    (hm : c.Synced d origin written pending m)
    (hn : ∀ m', L.Computed m m' →
      (d.texts → c.frame.TextSlot slot → ∀ i, L.image.IsLiteral ((m' i).regs .rax)) →
      L.Lock d n (k + 1) (written :: older) m') :
    L.Lock d n k (written :: older) m := by
  refine .load hi hs hm.trace fun hr =>
    hn _ ⟨fun _ => ⟨rfl, rfl, rfl, fun _ _ _ => rfl⟩, ?_, hm.trace⟩ fun ht htext i => ?_
  · obtain ⟨hone, -⟩ | hwritten := hr
    · exact .of_subsingleton hone _
    · refine (hm.slots slot hwritten).2.congr fun i => ?_
      simp [hm.slot_eq]
  · have hwritten : slot ∈ written := hr.resolve_left fun hone => hone.2 ht
    simpa [hm.slot_eq] using hm.texts ht slot hwritten htext i

theorem locks_ident [Nonempty ι] (name : String) : (Expr.ident name).Locks L d ι n := by
  intro c origin m written older s s' code k k' hl hv hr hh hm hn
  cases hl with
  | word hw =>
    obtain ⟨hi, rfl⟩ := hh
    have hat := c.isSlot_wordSlot hv hw
    exact lock_load hi (fun hs => hr hs name (by simp [reads]) hat) hm fun m' hm' ht =>
      hn m' ⟨hm', fun hd htext => ht hd (.of_isText htext hat)⟩
  | @record _ _ _ offset _ hfind =>
    obtain ⟨hi, rfl⟩ := hh
    have hscalar : (Expr.ident name).isString c.frame = false :=
      Frame.isText_of_find? (Table.find?_of_prefix hv hfind)
    refine .exec hi rfl hm.trace (.inl rfl) (fun _ => rfl) fun _ => hn _ (.of_computed
      ⟨fun _ => ⟨rfl, rfl, rfl, fun _ _ _ => rfl⟩, ⟨c.slot offset, fun i => ?_⟩, hm.trace⟩ hscalar)
    simp [hm.slot_eq]

theorem locks_field [Nonempty ι] (name part : String) :
    (Expr.field name part).Locks L d ι n := by
  intro c origin m written older s s' code k k' hl hv hr hh hm hn
  cases hl with
  | field hf =>
    obtain ⟨hi, rfl⟩ := hh
    obtain ⟨index, hat⟩ := c.exists_fieldSlot hv hf
    exact lock_load hi (fun hs => hr hs name (by simp [reads]) hat) hm fun m' hm' _ =>
      hn m' (.of_computed hm' rfl)

/-- A value is computed and pushed. -/
theorem Locks.push {e : Expr} (h : e.Locks L d ι n) {c : Activation L}
    {origin m : ι → State} {written : List Nat} {older : List (List Nat)} {s s' : Lowering}
    {code : Code} {k k' : Nat} (hl : e.Lowers L.decls s code s')
    (hv : s'.frame.vars <+: c.frame.vars) (hr : d.strict → c.Assigned e.reads written)
    (hh : L.image.Holds k (code ++ [.instr (.push .rax)]) k')
    (hm : c.Synced d origin written s.frame.pending m)
    (hn : ∀ m' v, (∀ i, (m i).Pushes L.runtime.stackTop [v] (m' i)) →
      c.Synced d origin written (s'.frame.pending + 1) m' →
      L.Lock d n k' (written :: older) m') :
    L.Lock d n k (written :: older) m := by
  obtain ⟨k₁, hcode, hpush, rfl⟩ := Image.holds_append.1 hh
  refine h hl hv hr hcode hm fun m₁ hm₁ => ?_
  obtain ⟨v, (hx : ∀ i, (m₁ i).regs .rax = v)⟩ := hm₁.result
  have hsync : c.Synced d origin written s.frame.pending m₁ := hm.of_keeps hm₁.keeps hm₁.trace
  refine .exec hpush rfl hm₁.trace (.inr hsync.uniform_rsp) (fun _ => rfl) fun hroom => ?_
  have hp (i : ι) : (m₁ i).Pushes L.runtime.stackTop [v] ((m₁ i).push ((m₁ i).regs .rax)) := by
    rw [hx]
    exact (m₁ i).pushes_push (hroom i) v
  refine hn _ v (fun i => (hp i).of_keeps (hm₁.keeps i)) ?_
  rw [hl.frame_eq]
  exact hsync.of_pushes hp hm₁.trace

/-- Both operands are computed, and brought into their registers. -/
theorem Locks.operands {lhs rhs : Expr} (hlhs : lhs.Locks L d ι n)
    (hrhs : rhs.Locks L d ι n) {c : Activation L} {origin m : ι → State} {written : List Nat}
    {older : List (List Nat)} {s s₁ s₂ : Lowering} {left right : Code} {k k' : Nat}
    (hl : lhs.Lowers L.decls s left s₁)
    (hr : rhs.Lowers L.decls (s₁.withPending (s₁.frame.pending + 1)) right s₂)
    (hv : s₂.frame.vars <+: c.frame.vars)
    (hreads : d.strict → c.Assigned (lhs.reads ++ rhs.reads) written)
    (hh : L.image.Holds k (operandsCode left right) k')
    (hm : c.Synced d origin written s.frame.pending m)
    (hn : ∀ m' x y, (∀ i, (m i).Keeps ((m i).regs .rsp).toNat L.runtime.stackTop (m' i)) →
      (∀ i, (m' i).regs .rax = x) → (∀ i, (m' i).regs .rcx = y) →
      (Uniform fun i => (m' i).trace) → L.Lock d n k' (written :: older) m') :
    L.Lock d n k (written :: older) m := by
  have hcode : operandsCode left right =
      (left ++ [.instr (.push .rax)]) ++ (right ++ .ofInstrs [.mov .rax .rcx, .pop .rax]) := by
    simp [operandsCode, Code.ofInstrs]
  rw [hcode] at hh
  simp only [Image.holds_append (a := left ++ _), Image.holds_append (a := right)] at hh
  obtain ⟨k₁, hleft, k₂, hright, hmoves⟩ := hh
  have hframe : s₂.frame = (s₁.withPending (s₁.frame.pending + 1)).frame := hr.frame_eq
  have hv₁ : s₁.frame.vars <+: c.frame.vars := by
    rw [hframe] at hv
    exact hv
  refine hlhs.push hl hv₁ (fun hs name hname => hreads hs name (by simp [hname])) hleft hm
    fun m₁ x hp hsync => ?_
  refine hrhs hr hv (fun hs name hname => hreads hs name (by simp [hname])) hright hsync
    fun m₂ hm₂ => ?_
  obtain ⟨y, (hy : ∀ i, (m₂ i).regs .rax = y)⟩ := hm₂.result
  refine .execAll (by simp [Instr.isQuiet]) hmoves hm₂.trace (fun _ => rfl) ?_
  refine hn _ x y (fun i => ⟨?_, ?_, ?_, fun a hl hh => ?_⟩) (fun i => ?_) hy hm₂.trace
  · simpa [(hm₂.keeps i).rsp] using (hp i).rsp_add
  · simpa [(hm₂.keeps i).rbp] using (hp i).rbp
  · simpa [(hm₂.keeps i).rbx] using (hp i).rbx
  · have hrsp := (hp i).rsp
    exact ((hm₂.keeps i).memory a (by omega) hh).trans ((hp i).memory a hl hh)
  · have hle := hm.rsp_le i
    have htop : (m₂ i).top = x := ((hp i).stack_of_keeps (hm₂.keeps i) (by omega)).1
    simpa [State.top] using htop

theorem Locks.binary {op : BinaryOp} {lhs rhs : Expr} (hlhs : lhs.Locks L d ι n)
    (hrhs : rhs.Locks L d ι n) : (Expr.binary op lhs rhs).Locks L d ι n := by
  intro c origin m written older s s' code k k' hlow hv hreads hh hm hn
  cases hlow with
  | binary hl hr _ =>
    obtain ⟨k₁, hh₁, hh₂⟩ := Image.holds_append.1 hh
    refine hlhs.operands hrhs hl hr hv hreads hh₁ hm fun m₁ x y hk hx hy ht => ?_
    exact L.lock_binary hh₂ ht hx hy fun m' hm' =>
      hn m' (.of_computed (hm'.of_keeps hk) rfl)

theorem Locks.compare {op : CompareOp} {lhs rhs : Expr} (hlhs : lhs.Locks L d ι n)
    (hrhs : rhs.Locks L d ι n) : (Expr.compare op lhs rhs).Locks L d ι n := by
  intro c origin m written older s s' code k k' hlow hv hreads hh hm hn
  cases hlow with
  | compare hl hr _ =>
    obtain ⟨k₁, hh₁, hh₂⟩ := Image.holds_append.1 hh
    refine hlhs.operands hrhs hl hr hv hreads hh₁ hm fun m₁ x y hk hx hy ht => ?_
    exact L.lock_compare hh₂ ht hx hy fun m' hm' =>
      hn m' (.of_computed (hm'.of_keeps hk) rfl)

theorem allLock_nil : AllLock L d ι n [] := by
  intro c origin m written older s s' code k k' hl _ _ hh hm hn
  cases hl
  obtain rfl : k = k' := hh
  exact hn m [] rfl (fun i => ⟨by simp, rfl, rfl, fun _ _ _ => rfl, trivial⟩) hm.trace

theorem Locks.cons {arg : Expr} {args : List Expr} (h : arg.Locks L d ι n)
    (ha : AllLock L d ι n args) : AllLock L d ι n (arg :: args) := by
  intro c origin m written older s s' code k k' hl hv hr hh hm hn
  cases hl with
  | @cons _ _ _ s₁ _ value rest hvalue hrest =>
    obtain ⟨k₁, hh₁, hh₂⟩ := Image.holds_append.1 hh
    have hv₁ : s₁.frame.vars <+: c.frame.vars := by
      rw [hrest.frame_eq] at hv
      exact hv
    refine h.push hvalue hv₁ (fun hs name hname => hr hs name (by simp [argsReads, hname])) hh₁ hm
      fun m₁ v hp hsync => ?_
    refine ha hrest hv (fun hs name hname => hr hs name (by simp [argsReads, hname])) hh₂ hsync
      fun m₂ vs hlen hp₂ ht => ?_
    refine hn m₂ (v :: vs) (by simp [hlen]) (fun i => (hp i).cons (hp₂ i) ?_) ht
    have := hm.rsp_le i
    omega

/-- The arguments are pushed, popped into their registers, and passed to the call. -/
theorem AllLock.call [Nonempty ι] {name : String} {args : List Expr}
    (ha : AllLock L d ι n args) (hcalls : ∀ j < n, L.CallsLock d ι j) :
    (Expr.call name args).Locks L d ι n := by
  intro c origin m written older s s' code k k' hl hv hr hh hm hn
  cases hl with
  | @call _ _ callee _ s₁ values hlen hcallee hvalues _ =>
    simp only [Image.holds_append] at hh
    obtain ⟨k₂, ⟨k₁, hh₁, hpops⟩, hh₂⟩ := hh
    refine ha hvalues hv hr hh₁ hm fun m₁ vs hvs hp ht => ?_
    have hmem (r : Register) (hr : r ∈ (Register.args.take args.length).reverse) :
        r ∈ Register.args := List.mem_of_mem_take (List.mem_reverse.1 hr)
    have hnodup : (Register.args.take args.length).reverse.Nodup :=
      List.nodup_reverse.2 ((List.take_sublist _ _).nodup (by decide))
    choose m₂ he hregs hrsp hother hmemory htrace using fun i =>
      Instr.execAll_pops L.image.literal hnodup (fun hr => by simpa [Register.args] using hmem _ hr)
        (by simp [hvs, hlen]) (hp i).stack
    have hk (i : ι) : (m i).Keeps ((m i).regs .rsp).toNat L.runtime.stackTop (m₂ i) := by
      refine ⟨?_, ?_, ?_, hmemory i ▸ (hp i).memory⟩
      · rw [hrsp, List.length_reverse, (hp i).rsp_add]
      · rw [hother i .rbp (fun hr => by simpa [Register.args] using hmem _ hr) (by decide),
          (hp i).rbp]
      · rw [hother i .rbx (fun hr => by simpa [Register.args] using hmem _ hr) (by decide),
          (hp i).rbx]
    have ht₂ : Uniform fun i => (m₂ i).trace := ht.congr htrace
    have hargs (r : Register) (hr : r ∈ Register.args.take args.length) :
        Uniform fun i => (m₂ i).regs r := by
      obtain ⟨index, hindex⟩ := List.mem_iff_getElem?.1 (List.mem_reverse.2 hr)
      refine ⟨vs.reverse[index]?.getD 0, fun i => ?_⟩
      rw [← hregs i, List.getElem?_map, hindex]
      rfl
    have hpending : s₁.frame.pending - args.length = s.frame.pending := by
      rw [hvalues.frame_eq]
      simp
    rw [hpending] at hh₂
    have hquiet : ∀ i ∈ (Register.args.take args.length).reverse.map Instr.pop, i.isQuiet := by
      intro i hi
      obtain ⟨r, -, rfl⟩ := List.mem_map.1 hi
      rfl
    have hprints : L.PrintsLiterals d (k₂ + s.frame.pending % 2) m₂ := fun _ hp =>
      (L.not_printsText_of_callee hcallee hpops hh₂ hp).elim
    refine .execAll hquiet hpops ht he ?_
    exact L.lock_callCode hcalls (hm.of_keeps hk ht₂) hh₂ (L.supplies_of_callee hcallee) hargs
      hprints fun m' hm' => hn m' (.of_computed (hm'.of_keeps hk) rfl)

mutual

/-- The code of every expression keeps synced runs in lockstep, if calls do. -/
theorem locks [Nonempty ι] (hcalls : ∀ j < n, L.CallsLock d ι j) :
    (e : Expr) → e.Locks L d ι n
  | .int value => locks_int value
  | .str text => locks_str text
  | .ident name => locks_ident name
  | .field name part => locks_field name part
  | .binary _ lhs rhs => Locks.binary (locks hcalls lhs) (locks hcalls rhs)
  | .compare _ lhs rhs => Locks.compare (locks hcalls lhs) (locks hcalls rhs)
  | .call _ args => AllLock.call (allLock hcalls args) hcalls

theorem allLock [Nonempty ι] (hcalls : ∀ j < n, L.CallsLock d ι j) :
    (args : List Expr) → AllLock L d ι n args
  | [] => allLock_nil
  | arg :: args => Locks.cons (locks hcalls arg) (allLock hcalls args)

end

end Expr

end WordLang
