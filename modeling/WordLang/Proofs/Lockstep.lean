import Mathlib.Tactic.Choose
import WordLang.Proofs.Machine
import WordLang.Proofs.Run

/-!
# Runs in lockstep

A run is followed from the entry of a function until the function returns. Along the way it is
noted which calls are open and which slots of its frame each of them has written. Several runs are
in lockstep for a number of steps if they go through the same points, with the same calls of the
support library and the same result: nothing that they differ in shows.

What holds of one run is the special case of a single one. `Lockstep` asks that divisions find
their operands prepared; and the runs may drift apart once a slot is read that was not written. A
discipline may ask for more: that no such slot is read, and that what is printed as text is a
literal.
-/
namespace WordLang.Asm

open Machine

/-- Bytes of the stack that an instruction takes. -/
def Instr.takes : Instr → Nat
  | .push _ | .call _ => wordSize
  | .subImm n .rsp => n
  | _ => 0

/-- Takes nothing of the stack, has to do with no slot, and neither divides, jumps, calls nor
returns. -/
def Instr.isQuiet : Instr → Bool
  | .push _ | .load .. | .store .. | .storeZero _ | .idiv _ | .jmp _ | .je _ | .jne _ | .call _
  | .ret => false
  | .subImm _ dst => dst ≠ .rsp
  | _ => true

/-- Neither divides, calls nor reads a slot: nothing is asked of the runs that come to it. -/
def Instr.isFree : Instr → Bool
  | .load .. | .idiv _ | .call _ => false
  | _ => true

theorem Instr.takes_of_isQuiet {i : Instr} (h : i.isQuiet) : i.takes = 0 := by
  unfold takes
  split <;> simp_all [isQuiet]

theorem Instr.isFree_of_isQuiet {i : Instr} (h : i.isQuiet) : i.isFree := by
  cases i <;> first | rfl | cases h

theorem Instr.exec_trace {i : Instr} {literal : Nat → Word} {s s' : State}
    (h : i.exec literal s = some s') : s'.trace = s.trace := by
  cases i with
  | jmp | je | jne | call | ret => cases h
  | set op dst =>
    obtain ⟨flags, -, rfl⟩ := Option.map_eq_some_iff.1 h
    rfl
  | idiv divisor =>
    simp only [exec, State.divide, Option.ite_none_left_eq_some, Option.some.injEq] at h
    obtain ⟨-, rfl⟩ := h
    rfl
  | _ =>
    obtain rfl := Option.some.inj h
    rfl

theorem Instr.execAll_trace {is : List Instr} {literal : Nat → Word} {s s' : State}
    (h : execAll literal is s = some s') : s'.trace = s.trace := by
  induction is generalizing s with
  | nil =>
    obtain rfl := Option.some.inj h
    rfl
  | cons i is ih =>
    obtain ⟨s₁, hi, hrest⟩ := Option.bind_eq_some_iff.1 h
    exact (ih hrest).trans (exec_trace hi)

end WordLang.Asm

namespace WordLang.Machine

open Asm

/-- Where a run is: the address of the next instruction, and the calls that have not returned, the
innermost first, each with the slots that it has written. -/
structure Point where
  address : Word
  calls : List (List Nat)
  deriving DecidableEq, Repr

/-- The operands of a division are prepared: the divisor is not zero, and the dividend is extended
by its sign. -/
structure State.DivisionReady (s : State) : Prop where
  divisor : s.regs .rcx ≠ 0
  extended : s.regs .rdx = if (s.regs .rax).toInt < 0 then -1 else 0

/-- All that can be seen of a run: where it is, the library calls that it made, and its result once
it has returned. -/
def observe (c : Point × State) : Point × Trace × Option Word :=
  (c.1, c.2.trace, if c.1.calls = [] then some (c.2.regs .rax) else none)

namespace Image

variable (img : Image)

/-- The instruction at an address. -/
def instrAt? (a : Word) : Option Instr := (img.index? a).bind fun k => img.instrs[k]?

/-- The open calls after an instruction. -/
def track (calls : List (List Nat)) : Instr → List (List Nat)
  | .call callee => if (img.symbols.find? callee.symbol).isSome then [] :: calls else calls
  | .ret => calls.tail
  | .store _ slot | .storeZero slot => calls.modifyHead (slot :: ·)
  | _ => calls

/-- One step of a run. A run ends where its outermost call has returned, and where the stack is used
up. -/
def advance (rt : Runtime) (c : Point × State) : Option (Point × State) := do
  let i ← img.instrAt? c.1.address
  if c.1.calls = [] ∨ (c.2.regs .rsp).toNat < i.takes then none
  else
    (img.step rt (c.1.address, c.2)).map fun c' => (⟨c'.1, img.track c.1.calls i⟩, c'.2)

/-- A number of steps of a run. -/
def run (rt : Runtime) : Nat → Point × State → Option (Point × State)
  | 0, c => some c
  | n + 1, c => (img.advance rt c).bind (run rt n)

/-- The function at position `k` has just been called. -/
def entry (k : Nat) (s : State) : Point × State := (⟨img.address k, [[]]⟩, s)

/-- If a slot is read next, it was written in the same call. -/
def ReadsWritten (p : Point) : Prop :=
  ∀ written older, p.calls = written :: older → ∀ slot dst,
    img.instrAt? p.address = some (.load slot dst) → slot ∈ written

/-- The address of a string literal that the program refers to. -/
def IsLiteral (w : Word) : Prop :=
  ∃ index dst, .leaString index dst ∈ img.instrs ∧ w = img.literal index

/-- At the address is the call by which a statement prints its value as text. -/
def PrintsText (a : Word) : Prop :=
  ∃ k k' pending, img.Holds k
    (.instr (.mov .rax .rdi) :: Lower.callCode pending (.library "print_string")) k' ∧
    a = img.address (k + 1 + pending % 2)

end Image

/-- What is asked of runs beyond going in lockstep. -/
structure Discipline where
  /-- They read only slots that were written. -/
  strict : Prop
  /-- They print only literals as text. -/
  texts : Prop

/-- Unless it is said otherwise, anything may be printed as text. -/
instance : Coe Prop Discipline := ⟨fun strict => ⟨strict, False⟩⟩

/-- One value for all runs. -/
def Uniform {ι α : Type} (f : ι → α) : Prop := ∃ a, ∀ i, f i = a

namespace Uniform

variable {ι α β γ : Type} {f : ι → α} {g : ι → β}

theorem map (h : Uniform f) (φ : α → β) : Uniform fun i => φ (f i) := by
  obtain ⟨a, ha⟩ := h
  exact ⟨φ a, fun i => congrArg φ (ha i)⟩

theorem map₂ (h : Uniform f) (h' : Uniform g) (φ : α → β → γ) :
    Uniform fun i => φ (f i) (g i) := by
  obtain ⟨a, ha⟩ := h
  obtain ⟨b, hb⟩ := h'
  exact ⟨φ a b, fun i => congrArg₂ φ (ha i) (hb i)⟩

theorem congr (h : Uniform f) {f' : ι → α} (he : ∀ i, f' i = f i) : Uniform f' := by
  obtain ⟨a, ha⟩ := h
  exact ⟨a, fun i => (he i).trans (ha i)⟩

theorem list_map {δ : Type} {fs : ι → δ → α} {xs : List δ}
    (h : ∀ x ∈ xs, Uniform fun i => fs i x) : Uniform fun i => xs.map (fs i) := by
  induction xs with
  | nil => exact ⟨[], fun _ => rfl⟩
  | cons x xs ih =>
    rw [List.forall_mem_cons] at h
    exact h.1.map₂ (ih h.2) List.cons

theorem of_subsingleton [Nonempty ι] (h : Subsingleton ι) (f : ι → α) : Uniform f :=
  ⟨f (Classical.arbitrary ι), fun i => by rw [h.elim i (Classical.arbitrary ι)]⟩

end Uniform

namespace Image

section

variable (img : Image) (rt : Runtime) {ι : Type} (d : Discipline)

/-- What holds of runs in lockstep at each point that they come to. -/
structure InStep (p : Point) (m : ι → State) : Prop where
  trace : Uniform fun i => (m i).trace
  result : p.calls = [] → Uniform fun i => (m i).regs .rax
  divides : p.calls ≠ [] → ∀ r, img.instrAt? p.address = some (.idiv r) →
    r = .rcx ∧ ∀ i, (m i).DivisionReady
  reads : d.strict → img.ReadsWritten p
  prints : d.texts → p.calls ≠ [] → img.PrintsText p.address →
    ∀ i, img.IsLiteral ((m i).regs .rdi)

/-- The runs go on from the point. A slot that was not written may be read by a single run, of which
nothing is asked that hangs on the word. -/
def GoesOn (ι : Type) (p : Point) : Prop :=
  (Subsingleton ι ∧ ¬ d.texts) ∨ img.ReadsWritten p

/-- The runs stay in lockstep for `n` steps, or until a slot is read that was not written. -/
def Lockstep : Nat → Point → (ι → State) → Prop
  | 0, p, m => img.InStep d p m
  | n + 1, p, m => img.InStep d p m ∧ (img.GoesOn d ι p →
      (∀ i, img.advance rt (p, m i) = none) ∨
      ∃ p' m', (∀ i, img.advance rt (p, m i) = some (p', m' i)) ∧ Lockstep n p' m')

end

variable {img : Image} {rt : Runtime}

/-! ## Runs -/

theorem reaches_of_run {n : Nat} {c c' : Point × State} (h : img.run rt n c = some c') :
    img.Reaches rt (c.1.address, c.2) (c'.1.address, c'.2) := by
  induction n generalizing c with
  | zero =>
    obtain rfl : c = c' := Option.some.inj h
    exact .refl
  | succ n ih =>
    obtain ⟨c₁, ha, hr⟩ := Option.bind_eq_some_iff.1 h
    obtain ⟨i, -, ha⟩ := Option.bind_eq_some_iff.1 ha
    split at ha
    · cases ha
    · obtain ⟨c₂, hs, rfl⟩ := Option.map_eq_some_iff.1 ha
      exact .head hs (ih hr)

theorem instrAt?_address {k : Nat} {i : Instr} (h : img.instrs[k]? = some i) :
    img.instrAt? (img.address k) = some i := by
  simp [instrAt?, img.index?_address k (List.getElem?_eq_some_iff.1 h).1, h]

/-- Instructions at one address are at one position. -/
theorem address_injective {k j : Nat} {i : Instr} (hk : img.instrs[k]? = some i) {i' : Instr}
    (hj : img.instrs[j]? = some i') (h : img.address k = img.address j) : k = j := by
  have hk' := img.index?_address k (List.getElem?_eq_some_iff.1 hk).1
  have hj' := img.index?_address j (List.getElem?_eq_some_iff.1 hj).1
  rw [h] at hk'
  exact Option.some.inj (hk'.symm.trans hj')

/-- Where the call stands in the code of a call. -/
theorem getElem?_of_holds_callCode {k k' pending : Nat} {callee : Callee}
    (h : img.Holds k (Lower.callCode pending callee) k') :
    img.instrs[k + pending % 2]? = some (.call callee) := by
  unfold Lower.callCode at h
  split at h
  · next hodd =>
    rw [hodd]
    exact h.2.1
  · next heven =>
    rw [show pending % 2 = 0 by omega]
    exact h.1

theorem PrintsText.instrAt? {a : Word} (h : img.PrintsText a) :
    img.instrAt? a = some (.call (.library "print_string")) := by
  obtain ⟨k, k', pending, ⟨-, hcall⟩, rfl⟩ := h
  exact instrAt?_address (getElem?_of_holds_callCode hcall)

/-- Before a print there is a move, and no pop. -/
theorem not_printsText_of_pop {k k' pending : Nat} {r : Register} {callee : Callee}
    (hpop : img.instrs[k]? = some (.pop r))
    (hcall : img.Holds (k + 1) (Lower.callCode pending callee) k') :
    ¬ img.PrintsText (img.address (k + 1 + pending % 2)) := by
  rintro ⟨j, j', pending', ⟨hmov, hcall'⟩, ha⟩
  have hkj : k + 1 + pending % 2 = j + 1 + pending' % 2 :=
    address_injective (getElem?_of_holds_callCode hcall) (getElem?_of_holds_callCode hcall') ha
  unfold Lower.callCode at hcall hcall'
  split at hcall <;> split at hcall'
  · obtain rfl : k = j := by omega
    cases hpop.symm.trans hmov
  · obtain rfl : k + 1 = j := by omega
    cases hcall.1.symm.trans hmov
  · obtain rfl : k = j + 1 := by omega
    cases hpop.symm.trans hcall'.1
  · obtain rfl : k = j := by omega
    cases hpop.symm.trans hmov

/-- A step inside a call, with enough of the stack left. -/
theorem advance_of_getElem? {k : Nat} {i : Instr} (h : img.instrs[k]? = some i)
    {written : List Nat} {older : List (List Nat)} {s : State}
    (hs : i.takes ≤ (s.regs .rsp).toNat) :
    img.advance rt (⟨img.address k, written :: older⟩, s) =
      (img.step rt (img.address k, s)).map fun c =>
        (⟨c.1, img.track (written :: older) i⟩, c.2) := by
  simp [advance, instrAt?_address h, Nat.not_lt.2 hs]

theorem advance_eq_none {k : Nat} {i : Instr} (h : img.instrs[k]? = some i)
    {calls : List (List Nat)} {s : State} (hs : (s.regs .rsp).toNat < i.takes) :
    img.advance rt (⟨img.address k, calls⟩, s) = none := by
  simp [advance, instrAt?_address h, hs]

/-- A run that has returned goes no further. -/
theorem advance_returned (a : Word) (s : State) : img.advance rt (⟨a, []⟩, s) = none := by
  unfold advance
  cases img.instrAt? a <;> simp

theorem track_of_isQuiet {i : Instr} (h : i.isQuiet) (calls : List (List Nat)) :
    img.track calls i = calls := by
  cases i <;> first | rfl | cases h

namespace Lockstep

variable {ι : Type} {d : Discipline} {n : Nat} {p p' : Point} {m m' : ι → State}

theorem inStep (h : img.Lockstep rt d n p m) : img.InStep d p m := by
  cases n with
  | zero => exact h
  | succ n => exact h.1

theorem mono (h : img.Lockstep rt d n p m) {j : Nat} (hj : j ≤ n) :
    img.Lockstep rt d j p m := by
  induction j generalizing n p m with
  | zero => exact h.inStep
  | succ j ih =>
    cases n with
    | zero => omega
    | succ n =>
      refine ⟨h.1, fun hr => (h.2 hr).imp_right ?_⟩
      rintro ⟨p', m', ha, hn⟩
      exact ⟨p', m', ha, ih hn (by omega)⟩

/-- All runs take one step. -/
theorem of_advance (h : img.InStep d p m)
    (ha : ∀ i, img.advance rt (p, m i) = some (p', m' i))
    (hn : img.GoesOn d ι p → ∀ j < n, img.Lockstep rt d j p' m') :
    img.Lockstep rt d n p m := by
  cases n with
  | zero => exact h
  | succ n => exact ⟨h, fun hr => .inr ⟨p', m', ha, hn hr n (by omega)⟩⟩

/-- All runs have ended. -/
theorem of_ended (h : img.InStep d p m) (ha : ∀ i, img.advance rt (p, m i) = none) :
    img.Lockstep rt d n p m := by
  cases n with
  | zero => exact h
  | succ n => exact ⟨h, fun _ => .inl ha⟩

/-- All runs have returned, with one result. -/
theorem returned {a : Word} (ht : Uniform fun i => (m i).trace)
    (hv : Uniform fun i => (m i).regs .rax) : img.Lockstep rt d n ⟨a, []⟩ m := by
  refine of_ended ⟨ht, fun _ => hv, fun h => (h rfl).elim, ?_, fun _ h => (h rfl).elim⟩
    fun i => advance_returned a (m i)
  rintro - _ _ ⟨⟩

/-- What holds at each point that one run comes to, as long as it goes on. -/
theorem inStep_run_of_goesOn {s t : State} {q : Point}
    (h : img.Lockstep rt d n p fun _ : Unit => s)
    (hg : ∀ l < n, ∀ q t, img.run rt l (p, s) = some (q, t) → img.GoesOn d Unit q)
    (hr : img.run rt n (p, s) = some (q, t)) : img.InStep d q fun _ : Unit => t := by
  induction n generalizing p s with
  | zero =>
    obtain ⟨rfl, rfl⟩ := Prod.mk.inj (Option.some.inj hr)
    exact h
  | succ n ih =>
    obtain ⟨c, ha, hr⟩ := Option.bind_eq_some_iff.1 hr
    obtain hnone | ⟨p', m', hsome, hn⟩ := h.2 (hg 0 (by omega) p s rfl)
    · cases (hnone ()).symm.trans ha
    · obtain rfl := Option.some.inj ((hsome ()).symm.trans ha)
      refine ih hn (fun l hl q t hrun => hg (l + 1) (by omega) q t ?_) hr
      rwa [run, ha]

/-- A single run goes on, if nothing is asked of what it prints. -/
theorem inStep_run {strict : Prop} {s t : State} {q : Point}
    (h : img.Lockstep rt strict n p fun _ : Unit => s)
    (hr : img.run rt n (p, s) = some (q, t)) : img.InStep strict q fun _ : Unit => t :=
  h.inStep_run_of_goesOn (fun _ _ _ _ _ => .inl ⟨inferInstance, id⟩) hr

/-- Runs in lockstep look the same, as long as one of them reads only slots that were written. -/
theorem observe_run (h : img.Lockstep rt d n p m) (i j : ι)
    (hr : ∀ l < n, ∀ q t, img.run rt l (p, m i) = some (q, t) → img.ReadsWritten q) :
    (img.run rt n (p, m i)).map observe = (img.run rt n (p, m j)).map observe := by
  induction n generalizing p m with
  | zero =>
    obtain ⟨t, (ht : ∀ i, (m i).trace = t)⟩ := h.trace
    by_cases hc : p.calls = []
    · obtain ⟨v, (hv : ∀ i, (m i).regs .rax = v)⟩ := h.result hc
      simp [run, observe, ht, hv]
    · simp [run, observe, ht, hc]
  | succ n ih =>
    obtain hnone | ⟨p', m', hsome, hn⟩ := h.2 (.inr (hr 0 (by omega) p (m i) rfl))
    · simp [run, hnone]
    · have hstep (i : ι) (l : Nat) : img.run rt (l + 1) (p, m i) = img.run rt l (p', m' i) := by
        simp [run, hsome]
      rw [hstep, hstep]
      exact ih hn fun l hl q t hrun => hr (l + 1) (by omega) q t (by rwa [hstep])

/-! ## Instructions -/

section

variable {k k' : Nat} {written : List Nat} {older : List (List Nat)} {i : Instr}

/-- Most instructions ask nothing but the same library calls. -/
theorem inStep_of_getElem? (h : img.instrs[k]? = some i) (hi : i.isFree)
    (ht : Uniform fun j => (m j).trace) :
    img.InStep d ⟨img.address k, written :: older⟩ m where
  trace := ht
  result hc := by cases hc
  divides _ r hr := by
    rw [instrAt?_address h, Option.some.injEq] at hr
    subst hr
    cases hi
  reads _ _ _ _ slot dst hr := by
    rw [instrAt?_address h, Option.some.injEq] at hr
    subst hr
    cases hi
  prints _ _ hp := by
    cases (instrAt?_address h).symm.trans hp.instrAt?
    cases hi

/-- A call, by which the runs print only literals as text. -/
theorem inStep_call {callee : Callee} (h : img.instrs[k]? = some (.call callee))
    (ht : Uniform fun j => (m j).trace)
    (hp : d.texts → img.PrintsText (img.address k) → ∀ j, img.IsLiteral ((m j).regs .rdi)) :
    img.InStep d ⟨img.address k, written :: older⟩ m where
  trace := ht
  result hc := by cases hc
  divides _ r hr := by cases (instrAt?_address h).symm.trans hr
  reads _ _ _ _ slot dst hr := by cases (instrAt?_address h).symm.trans hr
  prints ht _ := hp ht

/-- The stack is used up in all runs at once. -/
theorem of_room (h : img.instrs[k]? = some i)
    (hin : img.InStep d ⟨img.address k, written :: older⟩ m)
    (hsp : i.takes = 0 ∨ Uniform fun j => ((m j).regs .rsp).toNat)
    (hn : (∀ j, i.takes ≤ ((m j).regs .rsp).toNat) →
      img.Lockstep rt d n ⟨img.address k, written :: older⟩ m) :
    img.Lockstep rt d n ⟨img.address k, written :: older⟩ m := by
  by_cases hroom : ∀ j, i.takes ≤ ((m j).regs .rsp).toNat
  · exact hn hroom
  · refine of_ended hin fun j => advance_eq_none h ?_
    obtain hzero | ⟨sp, (hsp : ∀ j, ((m j).regs .rsp).toNat = sp)⟩ := hsp
    · exact (hroom fun j => by omega).elim
    · by_contra hle
      exact hroom fun j' => by rw [hsp j', ← hsp j]; omega

/-- An instruction that neither jumps, calls nor returns. -/
theorem exec (h : img.instrs[k]? = some i) (hi : i.isFree) (ht : Uniform fun j => (m j).trace)
    (hsp : i.takes = 0 ∨ Uniform fun j => ((m j).regs .rsp).toNat)
    (he : ∀ j, i.exec img.literal (m j) = some (m' j))
    (hn : (∀ j, i.takes ≤ ((m j).regs .rsp).toNat) →
      img.Lockstep rt d n ⟨img.address (k + 1), img.track (written :: older) i⟩ m') :
    img.Lockstep rt d n ⟨img.address k, written :: older⟩ m := by
  have hin : img.InStep d ⟨img.address k, written :: older⟩ m :=
    inStep_of_getElem? h hi ht
  refine of_room h hin hsp fun hroom => ?_
  refine of_advance hin (fun j => ?_) fun _ j hj => (hn hroom).mono (Nat.le_of_lt hj)
  rw [advance_of_getElem? h (hroom j), step_exec h (he j), Option.map_some]

/-- Quiet instructions one after another. -/
theorem execAll {is : List Instr} (hq : ∀ i ∈ is, i.isQuiet) (hh : img.Holds k (.ofInstrs is) k')
    (ht : Uniform fun j => (m j).trace)
    (he : ∀ j, Instr.execAll img.literal is (m j) = some (m' j))
    (hn : img.Lockstep rt d n ⟨img.address k', written :: older⟩ m') :
    img.Lockstep rt d n ⟨img.address k, written :: older⟩ m := by
  induction is generalizing k m with
  | nil =>
    obtain rfl : k = k' := hh
    obtain rfl : m = m' := funext fun j => Option.some.inj (he j)
    exact hn
  | cons i is ih =>
    rw [List.forall_mem_cons] at hq
    choose m₁ h₁ h₂ using fun j => Option.bind_eq_some_iff.1 (he j)
    have ht₁ : Uniform fun j => (m₁ j).trace := ht.congr fun j => Instr.exec_trace (h₁ j)
    refine exec hh.1 (Instr.isFree_of_isQuiet hq.1) ht (.inl (Instr.takes_of_isQuiet hq.1)) h₁
      fun _ => ?_
    rw [track_of_isQuiet hq.1]
    exact ih hq.2 hh.2 ht₁ h₂

/-- A slot is read. The runs may read different words if it was not written. -/
theorem load {slot : Nat} {dst : Register} (h : img.instrs[k]? = some (.load slot dst))
    (hs : d.strict → slot ∈ written) (ht : Uniform fun j => (m j).trace)
    (hn : (Subsingleton ι ∧ ¬ d.texts) ∨ slot ∈ written →
      img.Lockstep rt d n ⟨img.address (k + 1), written :: older⟩
        fun j => (m j).set dst ((m j).memory.load ((m j).slot slot))) :
    img.Lockstep rt d n ⟨img.address k, written :: older⟩ m := by
  have hi : img.instrAt? (img.address k) = some (.load slot dst) := instrAt?_address h
  refine of_advance ⟨ht, by simp, ?_, ?_, ?_⟩ (fun j => ?_) fun hr j hj =>
    (hn (hr.imp_right fun hr => hr _ _ rfl _ _ hi)).mono (Nat.le_of_lt hj)
  · intro _ r hr
    cases hi.symm.trans hr
  · rintro hstrict _ _ ⟨⟩ slot' dst' hr
    cases hi.symm.trans hr
    exact hs hstrict
  · intro _ _ hp
    cases hi.symm.trans hp.instrAt?
  · rw [advance_of_getElem? h (Nat.zero_le _), step_exec h rfl, Option.map_some]
    rfl

/-- A jump, taken or not: all runs go to one position, or to a label that does not exist. -/
theorem jump {label : Nat} (h : img.instrs[k]? = some i)
    (hi : i = .jmp label ∨ i = .je label ∨ i = .jne label) (ht : Uniform fun j => (m j).trace)
    (pos? : Option Nat)
    (hs : ∀ j, img.step rt (img.address k, m j) = pos?.map fun pos => (img.address pos, m j))
    (hn : ∀ pos, pos? = some pos → ∀ j < n,
      img.Lockstep rt d j ⟨img.address pos, written :: older⟩ m) :
    img.Lockstep rt d n ⟨img.address k, written :: older⟩ m := by
  have hin : img.InStep d ⟨img.address k, written :: older⟩ m := by
    refine inStep_of_getElem? h ?_ ht
    rcases hi with rfl | rfl | rfl <;> rfl
  have ha (j : ι) : img.advance rt (⟨img.address k, written :: older⟩, m j) =
      pos?.map fun pos => (⟨img.address pos, written :: older⟩, m j) := by
    rcases hi with rfl | rfl | rfl <;>
      simp [advance_of_getElem? h (Nat.zero_le _), hs, track, Function.comp_def]
  cases pos? with
  | none => exact of_ended hin ha
  | some pos => exact of_advance hin ha fun _ => hn pos rfl

theorem jmp {label : Nat} (h : img.instrs[k]? = some (.jmp label))
    (ht : Uniform fun j => (m j).trace)
    (hn : ∀ pos, img.symbols.find? (labelName label) = some pos → ∀ j < n,
      img.Lockstep rt d j ⟨img.address pos, written :: older⟩ m) :
    img.Lockstep rt d n ⟨img.address k, written :: older⟩ m :=
  jump h (.inl rfl) ht _ (fun j => by rw [step_of_getElem? h]; rfl) hn

/-- A test against zero, and a jump that is taken where the word is zero. -/
theorem testZero {label : Nat} (hh : img.Holds k (.ofInstrs [.cmpZero .rax, .je label]) k')
    (ht : Uniform fun j => (m j).trace) {v : Word} (hv : ∀ j, (m j).regs .rax = v)
    (hzero : v = 0 → ∀ flags pos, img.symbols.find? (labelName label) = some pos →
      img.Lockstep rt d n ⟨img.address pos, written :: older⟩ fun j => (m j).setFlags flags)
    (hn : v ≠ 0 → ∀ flags,
      img.Lockstep rt d n ⟨img.address k', written :: older⟩ fun j => (m j).setFlags flags) :
    img.Lockstep rt d n ⟨img.address k, written :: older⟩ m := by
  obtain ⟨hc, hje, rfl⟩ := hh
  let flags := Instr.exec.differenceFlags v 0
  have he (j : ι) : Instr.exec img.literal (.cmpZero .rax) (m j) = some ((m j).setFlags flags) := by
    simp [Instr.exec, hv, flags]
  refine exec hc rfl ht (.inl rfl) he fun _ => ?_
  let pos? := if v = 0 then img.symbols.find? (labelName label) else some (k + 1 + 1)
  refine jump hje (.inr (.inl rfl)) ht pos? (fun j => ?_) fun pos hpos j hj => ?_
  · rw [step_of_getElem? hje]
    by_cases hz : v = 0#64 <;>
      simp [perform, goto, hz, pos?, flags, Instr.exec.differenceFlags, Flags.ofResult]
  · unfold pos? at hpos
    split at hpos
    · next hz => exact (hzero hz flags pos hpos).mono (Nat.le_of_lt hj)
    · next hz =>
      obtain rfl := Option.some.inj hpos
      exact (hn hz flags).mono (Nat.le_of_lt hj)

/-- A test against zero, and a jump that is taken where the word is not zero. -/
theorem testNonzero {label : Nat}
    (hh : img.Holds k (.ofInstrs [.test .rcx .rcx, .jne label]) k')
    (ht : Uniform fun j => (m j).trace) {v : Word} (hv : ∀ j, (m j).regs .rcx = v)
    (hnonzero : v ≠ 0 → ∀ flags pos, img.symbols.find? (labelName label) = some pos →
      img.Lockstep rt d n ⟨img.address pos, written :: older⟩ fun j => (m j).setFlags flags)
    (hn : v = 0 → ∀ flags,
      img.Lockstep rt d n ⟨img.address k', written :: older⟩ fun j => (m j).setFlags flags) :
    img.Lockstep rt d n ⟨img.address k, written :: older⟩ m := by
  obtain ⟨hc, hjne, rfl⟩ := hh
  let flags := some (Flags.ofResult (v &&& v) (v &&& v).toInt)
  have he (j : ι) : Instr.exec img.literal (.test .rcx .rcx) (m j) =
      some ((m j).setFlags flags) := by
    simp [Instr.exec, hv, flags]
  refine exec hc rfl ht (.inl rfl) he fun _ => ?_
  let pos? := if v = 0 then some (k + 1 + 1) else img.symbols.find? (labelName label)
  refine jump hjne (.inr (.inr rfl)) ht pos? (fun j => ?_) fun pos hpos j hj => ?_
  · rw [step_of_getElem? hjne]
    by_cases hz : v = 0#64 <;> simp [perform, goto, hz, pos?, flags, Flags.ofResult]
  · unfold pos? at hpos
    split at hpos
    · next hz =>
      obtain rfl := Option.some.inj hpos
      exact (hn hz flags).mono (Nat.le_of_lt hj)
    · next hz => exact (hnonzero hz flags pos hpos).mono (Nat.le_of_lt hj)

end

end Lockstep

end Image

end WordLang.Machine
