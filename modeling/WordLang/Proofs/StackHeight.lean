import Mathlib.Algebra.Ring.Int.Parity
import Mathlib.Logic.Relation
import WordLang.Proofs.Labels

/-!
# Stack discipline

Read from top to bottom, code has a stack height at each line: the words pushed so far. In a
function's body the height is never negative, it is the same at a jump and at the label that the
jump names, and it is even at every call. So on every path through the function the stack pointer
is aligned at each call.
-/
namespace WordLang

open Asm

namespace Asm

/-- Words that an instruction adds to the stack by pushing or by moving the stack pointer. -/
def Instr.rise : Instr → Int
  | .push _ => 1
  | .pop _ => -1
  | .subImm value .rsp => if value = wordSize then 1 else 0
  | .addImm value .rsp => if value = wordSize then -1 else 0
  | _ => 0

def Line.rise : Line → Int
  | .label _ => 0
  | .instr i => i.rise

/-- The label that a jump names. -/
def Instr.target? : Instr → Option Nat
  | .jmp n | .je n | .jne n => some n
  | _ => none

namespace Code

/-- The lines with the stack height at each, counted from `h`. -/
def heights (h : Int) : Code → List (Int × Line)
  | [] => []
  | line :: code => (h, line) :: heights (h + line.rise) code

/-- The stack height at the end. -/
def heightAfter (h : Int) : Code → Int
  | [] => h
  | line :: code => heightAfter (h + line.rise) code

@[simp] theorem heights_nil (h : Int) : heights h [] = [] := rfl

@[simp] theorem heights_cons (h : Int) (line : Line) (code : Code) :
    heights h (line :: code) = (h, line) :: heights (h + line.rise) code := rfl

@[simp] theorem heightAfter_nil (h : Int) : heightAfter h [] = h := rfl

@[simp] theorem heightAfter_cons (h : Int) (line : Line) (code : Code) :
    heightAfter h (line :: code) = heightAfter (h + line.rise) code := rfl

@[simp] theorem heightAfter_append (h : Int) (a b : Code) :
    heightAfter h (a ++ b) = heightAfter (heightAfter h a) b := by
  induction a generalizing h with
  | nil => rfl
  | cons line a ih => exact ih _

@[simp] theorem heights_append (h : Int) (a b : Code) :
    heights h (a ++ b) = heights h a ++ heights (heightAfter h a) b := by
  induction a generalizing h with
  | nil => rfl
  | cons line a ih => exact congrArg _ (ih _)

theorem map_snd_heights (h : Int) (code : Code) : (heights h code).map Prod.snd = code := by
  induction code generalizing h with
  | nil => rfl
  | cons line code ih => exact congrArg _ (ih _)

/-- A label of a division, defined where the division takes place. -/
def DivisionLabel (code : Code) (n : Nat) : Prop :=
  ∃ remainder nonzero, divisionCode remainder nonzero (nonzero + 1) <:+: code ∧
    (n = nonzero ∨ n = nonzero + 1)

theorem DivisionLabel.append_right {a : Code} {n : Nat} (h : DivisionLabel a n) (b : Code) :
    DivisionLabel (a ++ b) n := by
  obtain ⟨remainder, nonzero, hi, hn⟩ := h
  exact ⟨remainder, nonzero, hi.trans (List.prefix_append a b).isInfix, hn⟩

theorem DivisionLabel.append_left {b : Code} {n : Nat} (h : DivisionLabel b n) (a : Code) :
    DivisionLabel (a ++ b) n := by
  obtain ⟨remainder, nonzero, hi, hn⟩ := h
  exact ⟨remainder, nonzero, hi.trans (List.suffix_append a b).isInfix, hn⟩

end Code

/-! ## Pointers along a path -/

/-- The stack pointer and the frame pointer. -/
structure Pointers where
  rsp : Int
  rbp : Int

/-- Writing a value that is not known into a register. -/
def Pointers.Overwrites (dst : Register) (s s' : Pointers) : Prop :=
  (dst ≠ .rsp → s'.rsp = s.rsp) ∧ (dst ≠ .rbp → s'.rbp = s.rbp)

/-- What an instruction can do to the pointers. A function that is called gives both back as they
were; a return leads out of the code. -/
def Instr.Moves : Instr → Pointers → Pointers → Prop
  | .push _, s, s' => s' = { s with rsp := s.rsp - wordSize }
  | .pop dst, s, s' => Pointers.Overwrites dst { s with rsp := s.rsp + wordSize } s'
  | .mov .rsp .rbp, s, s' => s' = { s with rbp := s.rsp }
  | .mov .rbp .rsp, s, s' => s' = { s with rsp := s.rbp }
  | .addImm value .rsp, s, s' => s' = { s with rsp := s.rsp + value }
  | .subImm value .rsp, s, s' => s' = { s with rsp := s.rsp - value }
  | .mov _ dst, s, s' | .movImm _ dst, s, s' | .load _ dst, s, s' | .leaSlot _ dst, s, s'
  | .leaString _ dst, s, s' | .add _ dst, s, s' | .sub _ dst, s, s' | .imul _ dst, s, s'
  | .addImm _ dst, s, s' | .subImm _ dst, s, s' | .set _ dst, s, s' | .zeroExtend dst, s, s' =>
    Pointers.Overwrites dst s s'
  | .store _ _, s, s' | .storeZero _, s, s' | .test _ _, s, s' | .cmp _ _, s, s'
  | .cmpZero _, s, s' | .cqto, s, s' | .idiv _, s, s' | .je _, s, s' | .jne _, s, s'
  | .call _, s, s' => s' = s
  | .jmp _, _, _ | .ret, _, _ => False

/-- One step along a path: to the next line, or to the label that a jump names. Both ways of a
conditional jump are taken. -/
inductive Code.Flow (code : Code) : Nat × Pointers → Nat × Pointers → Prop where
  | label {k n : Nat} {s : Pointers} :
      code[k]? = some (.label n) → Flow code (k, s) (k + 1, s)
  | next {k : Nat} {i : Instr} {s s' : Pointers} :
      code[k]? = some (.instr i) → i.Moves s s' → Flow code (k, s) (k + 1, s')
  | jump {k l n : Nat} {i : Instr} {s : Pointers} :
      code[k]? = some (.instr i) → i.target? = some n → code[l]? = some (.label n) →
      Flow code (k, s) (l, s)

/-- The instruction moves the pointers exactly as its height says. -/
def Instr.Steady (i : Instr) : Prop :=
  ∀ s s', i.Moves s s' → s' = ⟨s.rsp - wordSize * i.rise, s.rbp⟩

theorem Pointers.Overwrites.eq {dst : Register} {s s' : Pointers} (h : Overwrites dst s s')
    (hsp : dst ≠ .rsp) (hbp : dst ≠ .rbp) : s' = s := by
  obtain ⟨rsp, rbp⟩ := s'
  obtain rfl : rsp = _ := h.1 hsp
  obtain rfl : rbp = _ := h.2 hbp
  rfl

/-- Neither jumps nor calls nor returns, and moves the pointers by whole words at most. -/
def Instr.plain : Instr → Bool
  | .pop dst | .mov _ dst | .movImm _ dst | .load _ dst | .leaSlot _ dst | .leaString _ dst
  | .add _ dst | .sub _ dst | .imul _ dst | .set _ dst | .zeroExtend dst =>
    dst != .rsp && dst != .rbp
  | .addImm value dst | .subImm value dst => value == wordSize && dst == .rsp
  | .push _ | .store _ _ | .storeZero _ | .test _ _ | .cmp _ _ | .cmpZero _ | .cqto
  | .idiv _ => true
  | .jmp _ | .je _ | .jne _ | .call _ | .ret => false

theorem Instr.steady_of_plain (i : Instr) (h : i.plain = true) :
    i.Steady ∧ i.target? = none ∧ ∀ c, i ≠ .call c := by
  have hover {dst : Register} {s s' : Pointers} (hd : (dst != .rsp && dst != .rbp) = true)
      (hm : Pointers.Overwrites dst s s') : s' = s := by
    simp only [Bool.and_eq_true, bne_iff_ne] at hd
    exact hm.eq hd.1 hd.2
  cases i with
  | jmp | je | jne | call | ret => simp [Instr.plain] at h
  | push => exact ⟨fun s s' hm => by simpa [Instr.rise, Instr.Moves] using hm, rfl, by simp⟩
  | pop dst => exact ⟨fun s s' hm => by simpa [Instr.rise] using hover h hm, rfl, by simp⟩
  | addImm value dst | subImm value dst =>
    simp only [Instr.plain, Bool.and_eq_true, beq_iff_eq] at h
    obtain ⟨rfl, rfl⟩ := h
    exact ⟨fun s s' hm => by simpa [Instr.rise, Instr.Moves] using hm, rfl, by simp⟩
  | mov src dst =>
    refine ⟨fun s s' hm => ?_, rfl, by simp⟩
    have hd : dst ≠ .rsp ∧ dst ≠ .rbp := by simpa [Instr.plain] using h
    have hm : Pointers.Overwrites dst s s' := by simpa [Instr.Moves, hd] using hm
    simpa [Instr.rise] using hover h hm
  | movImm | load | leaSlot | leaString | add | sub | imul | set | zeroExtend =>
    exact ⟨fun s s' hm => by simpa [Instr.rise] using hover h hm, rfl, by simp⟩
  | store | storeZero | test | cmp | cmpZero | cqto | idiv =>
    exact ⟨fun s s' hm => by simpa [Instr.rise, Instr.Moves] using hm, rfl, by simp⟩

theorem Instr.steady_of_target (i : Instr) {n : Nat} (h : i.target? = some n) :
    i.Steady ∧ i.rise = 0 ∧ ∀ c, i ≠ .call c := by
  cases i with
  | jmp m | je m | jne m =>
    refine ⟨fun s s' hm => ?_, rfl, by simp⟩
    simp_all [Instr.Moves, Instr.rise]
  | _ => simp [Instr.target?] at h

theorem Code.mem_heights_instr {h k : Int} {i i' : Instr} :
    (k, Line.instr i') ∈ Code.heights h [.instr i] ↔ k = h ∧ i' = i := by
  simp

namespace Code

/-- Code that starts at height `h` and ends at `h'`. A jump out of the code happens at height zero
and goes to one of the labels `out`. -/
structure Scans (out : Nat → Prop) (h h' : Int) (code : Code) : Prop where
  after : code.heightAfter h = h'
  nonneg : ∀ e ∈ code.heights h, 0 ≤ e.1
  even_call : ∀ k c, (k, .instr (.call c)) ∈ code.heights h → Even k
  jumps : ∀ k i n, (k, .instr i) ∈ code.heights h → i.target? = some n →
    (k, .label n) ∈ code.heights h ∧ (k = 0 ∨ code.DivisionLabel n) ∨ k = 0 ∧ out n
  steady : ∀ i, .instr i ∈ code → i.Steady

namespace Scans

variable {out out' : Nat → Prop} {h h' h'' : Int} {a b code : Code}

theorem append (ha : Scans out h h' a) (hb : Scans out h' h'' b) : Scans out h h'' (a ++ b) where
  after := by rw [heightAfter_append, ha.after, hb.after]
  nonneg e he := by
    rw [heights_append, ha.after, List.mem_append] at he
    exact he.elim (ha.nonneg e) (hb.nonneg e)
  even_call k c hk := by
    rw [heights_append, ha.after, List.mem_append] at hk
    exact hk.elim (ha.even_call k c) (hb.even_call k c)
  jumps k i n hk hn := by
    rw [heights_append, ha.after, List.mem_append] at *
    rcases hk with hk | hk
    · rcases ha.jumps k i n hk hn with ⟨hl, hd⟩ | ho
      · exact .inl ⟨.inl hl, hd.imp_right (·.append_right b)⟩
      · exact .inr ho
    · rcases hb.jumps k i n hk hn with ⟨hl, hd⟩ | ho
      · exact .inl ⟨.inr hl, hd.imp_right (·.append_left a)⟩
      · exact .inr ho
  steady i hi := (List.mem_append.1 hi).elim (ha.steady i) (hb.steady i)

/-- Labels that the code defines at height zero need no place outside. -/
theorem close (hc : Scans out h h' code)
    (ho : ∀ n, out n → (0, .label n) ∈ code.heights h ∨ out' n) : Scans out' h h' code where
  after := hc.after
  nonneg := hc.nonneg
  even_call := hc.even_call
  jumps k i n hk hn := by
    rcases hc.jumps k i n hk hn with hl | ⟨rfl, hn⟩
    · exact .inl hl
    · rcases ho n hn with hl | hn
      · exact .inl ⟨hl, .inl rfl⟩
      · exact .inr ⟨rfl, hn⟩
  steady := hc.steady

theorem nil (out : Nat → Prop) (h : Int) : Scans out h h [] :=
  ⟨rfl, by simp, by simp, by simp, by simp⟩

theorem label (out : Nat → Prop) (hh : 0 ≤ h) (n : Nat) : Scans out h h [.label n] :=
  ⟨by simp [Line.rise], by simpa using hh, by simp, by simp, by simp⟩

theorem instr {i : Instr} (out : Nat → Prop) (hh : 0 ≤ h) (ht : i.target? = none)
    (hc : ∀ c, i = .call c → Even h) (hs : i.Steady) : Scans out h (h + i.rise) [.instr i] where
  after := rfl
  nonneg := by simpa using hh
  even_call k c hk := by
    obtain ⟨rfl, hi⟩ := mem_heights_instr.1 hk
    exact hc c hi.symm
  jumps k i' n hk hn := by
    obtain ⟨rfl, rfl⟩ := mem_heights_instr.1 hk
    rw [ht] at hn
    cases hn
  steady i' hi := by
    simp only [List.mem_singleton, Line.instr.injEq] at hi
    exact hi ▸ hs

theorem jump {i : Instr} {n : Nat} (ht : i.target? = some n) (hn : out n) :
    Scans out 0 0 [.instr i] := by
  obtain ⟨hs, hr, hc⟩ := i.steady_of_target ht
  refine ⟨by simp [Line.rise, hr], by simp, ?_, ?_, ?_⟩
  · intro k c hk
    exact (hc c (mem_heights_instr.1 hk).2.symm).elim
  · intro k i' n' hk hn'
    obtain ⟨rfl, rfl⟩ := mem_heights_instr.1 hk
    rw [ht] at hn'
    cases hn'
    exact .inr ⟨rfl, hn⟩
  · simpa using hs

theorem plain {i : Instr} (out : Nat → Prop) (hh : 0 ≤ h) (hp : i.plain = true)
    (hr : h + i.rise = h') : Scans out h h' [.instr i] := by
  obtain ⟨hs, ht, hc⟩ := i.steady_of_plain hp
  exact hr ▸ instr out hh ht (fun c h => (hc c h).elim) hs

/-- Instructions that leave the stack alone. -/
theorem level {is : List Instr} (out : Nat → Prop) (hh : 0 ≤ h)
    (hp : ∀ i ∈ is, i.plain = true ∧ i.rise = 0) : Scans out h h (.ofInstrs is) := by
  induction is with
  | nil => exact nil out h
  | cons i is ih =>
    simp only [List.mem_cons, forall_eq_or_imp] at hp
    exact (plain out hh hp.1.1 (by rw [hp.1.2, Int.add_zero])).append (ih hp.2)

theorem mono (hc : Scans out h h' code) (ho : ∀ n, out n → out' n) : Scans out' h h' code :=
  hc.close fun n hn => .inr (ho n hn)

theorem mem_label (ha : Scans out h h' a) (n : Nat) (b : Code) :
    (h', .label n) ∈ heights h (a ++ .label n :: b) := by
  simp [ha.after]

end Scans

end Code

end Asm

/-! ## Heights of lowered code -/

namespace Lower

theorem scans_callCode (out : Nat → Prop) (pending : Nat) (callee : Callee) :
    (callCode pending callee).Scans out pending pending := by
  have hsteady : (Instr.call callee).Steady := fun s s' hm => by
    simpa [Instr.rise, Instr.Moves] using hm
  unfold callCode
  split_ifs with h
  · have heven : Even ((pending : Int) + 1) := by
      rw [Int.even_iff]
      omega
    have hsub : Code.Scans out pending (pending + 1) [.instr (.subImm wordSize .rsp)] :=
      .plain out (by omega) rfl rfl
    have hcall : Code.Scans out (pending + 1) (pending + 1) [.instr (.call callee)] :=
      .instr out (by omega) rfl (fun _ _ => heven) hsteady
    have hadd : Code.Scans out (pending + 1) pending [.instr (.addImm wordSize .rsp)] :=
      .plain out (by omega) rfl (Int.add_neg_cancel_right _ _)
    exact (hsub.append hcall).append hadd
  · have heven : Even (pending : Int) := by
      rw [Int.even_iff]
      omega
    exact .instr out (by omega) rfl (fun _ _ => heven) hsteady

end Lower

theorem scans_operandsCode {out : Nat → Prop} {h : Int} (hh : 0 ≤ h) {left right : Code}
    (hl : left.Scans out h h) (hr : right.Scans out (h + 1) (h + 1)) :
    (operandsCode left right).Scans out h h := by
  have hpush : Code.Scans out h (h + 1) [.instr (.push .rax)] := .plain out hh rfl rfl
  have hmov : Code.Scans out (h + 1) (h + 1) [.instr (.mov .rax .rcx)] :=
    .plain out (by omega) rfl (Int.add_zero _)
  have hpop : Code.Scans out (h + 1) h [.instr (.pop .rax)] :=
    .plain out (by omega) rfl (Int.add_neg_cancel_right _ _)
  exact (((hl.append hpush).append hr).append hmov).append hpop

theorem scans_pops (out : Nat → Prop) {h : Int} (hh : 0 ≤ h) {rs : List Register}
    (hrs : ∀ r ∈ rs, r ≠ .rsp ∧ r ≠ .rbp) :
    Code.Scans out (h + rs.length) h (.ofInstrs (rs.map .pop)) := by
  induction rs with
  | nil =>
    rw [List.length_nil, Int.natCast_zero, Int.add_zero]
    exact .nil out h
  | cons r rs ih =>
    simp only [List.mem_cons, forall_eq_or_imp] at hrs
    have hpop : Code.Scans out (h + (r :: rs).length) (h + rs.length) [.instr (.pop r)] := by
      refine .plain out (by omega) (by simp [Instr.plain, hrs.1]) ?_
      simp only [List.length_cons, Instr.rise]
      omega
    exact hpop.append (ih hrs.2)

theorem scans_argPops (out : Nat → Prop) {h : Int} (hh : 0 ≤ h) {n : Nat}
    (hn : n ≤ Register.args.length) : (argPops n).Scans out (h + n) h := by
  have hargs : ∀ r ∈ Register.args, r ≠ .rsp ∧ r ≠ .rbp := by decide
  have hrs : ∀ r ∈ (Register.args.take n).reverse, r ≠ .rsp ∧ r ≠ .rbp := fun r hr =>
    hargs r (List.mem_of_mem_take (List.mem_reverse.1 hr))
  have hlen : (Register.args.take n).reverse.length = n := by simp [hn]
  have hpops := scans_pops out hh hrs
  rwa [hlen] at hpops

theorem scans_divisionCode (out : Nat → Prop) {h : Int} (hh : 0 ≤ h) (remainder : Bool) (n : Nat) :
    (divisionCode remainder n (n + 1)).Scans out h h := by
  have hheights : ∀ e ∈ (divisionCode remainder n (n + 1)).heights h, e.1 = h := by
    cases remainder <;> simp [divisionCode, Line.rise, Instr.rise]
  refine ⟨?_, ?_, ?_, ?_, ?_⟩
  · cases remainder <;> simp [divisionCode, Line.rise, Instr.rise]
  · intro e he
    rwa [hheights e he]
  · cases remainder <;> simp [divisionCode]
  · intro k i m hk hm
    obtain rfl : k = h := hheights _ hk
    have htarget : ∀ e ∈ (divisionCode remainder n (n + 1)).heights k, ∀ m i, e.2 = .instr i →
        i.target? = some m → m = n ∨ m = n + 1 := by
      cases remainder <;> simp [divisionCode, Instr.target?]
    have hm := htarget _ hk m i rfl hm
    have hlabel : (k, .label m) ∈ (divisionCode remainder n (n + 1)).heights k := by
      rcases hm with rfl | rfl <;> cases remainder <;> simp [divisionCode, Line.rise, Instr.rise]
    exact .inl ⟨hlabel, .inr ⟨remainder, n, List.infix_rfl, hm⟩⟩
  · intro i hi
    have hi : i.plain = true ∨ ∃ m, i.target? = some m := by
      revert i
      cases remainder <;> simp [divisionCode, Instr.plain, Instr.target?]
    rcases hi with hi | ⟨m, hm⟩
    · exact (i.steady_of_plain hi).1
    · exact (i.steady_of_target hm).1

theorem BinaryOp.scans_code (out : Nat → Prop) {h : Int} (hh : 0 ≤ h) (op : BinaryOp) (n : Nat) :
    (op.code n).Scans out h h := by
  cases op with
  | add | sub | mul => exact .plain out hh rfl (Int.add_zero _)
  | div | mod => exact scans_divisionCode out hh _ n

theorem CompareOp.scans_code (out : Nat → Prop) {h : Int} (hh : 0 ≤ h) (op : CompareOp) :
    op.code.Scans out h h :=
  .level out hh (by simp [Instr.plain, Instr.rise])

namespace Expr

variable {decls : Declarations}

mutual

/-- The code of an expression ends at the height at which it begins: that of the pushed words. -/
theorem Lowers.scans {e : Expr} {s s' : Lowering} {code : Code} (h : e.Lowers decls s code s')
    (out : Nat → Prop) : code.Scans out s.frame.pending s.frame.pending := by
  cases h with
  | int | str _ | word _ | record _ | field _ =>
    exact .plain out (Int.natCast_nonneg _) rfl (Int.add_zero _)
  | binary hl hr _ =>
    have hright := hr.scans out
    simp only [Lowering.withPending_frame, hl.frame_eq, Int.natCast_add, Int.natCast_one] at hright
    exact (scans_operandsCode (Int.natCast_nonneg _) (hl.scans out) hright).append
      (BinaryOp.scans_code out (Int.natCast_nonneg _) _ _)
  | compare hl hr _ =>
    have hright := hr.scans out
    simp only [Lowering.withPending_frame, hl.frame_eq, Int.natCast_add, Int.natCast_one] at hright
    exact (scans_operandsCode (Int.natCast_nonneg _) (hl.scans out) hright).append
      (CompareOp.scans_code out (Int.natCast_nonneg _) _)
  | call hn _ ha _ =>
    have hpending := congrArg Frame.pending ha.frame_eq
    simp only at hpending
    rw [hpending, Nat.add_sub_cancel]
    exact ((ha.scans out).append (scans_argPops out (Int.natCast_nonneg _) hn)).append
      (Lower.scans_callCode out _ _)

theorem LowersArgs.scans {args : List Expr} {s s' : Lowering} {code : Code}
    (h : LowersArgs decls args s code s') (out : Nat → Prop) :
    code.Scans out s.frame.pending (s.frame.pending + args.length) := by
  cases h with
  | nil =>
    rw [List.length_nil, Int.natCast_zero, Int.add_zero]
    exact .nil out _
  | cons hv hr =>
    have hrest := hr.scans out
    simp only [Lowering.withPending_frame, hv.frame_eq, Int.natCast_add, Int.natCast_one] at hrest
    have hpush : Code.Scans out s.frame.pending (s.frame.pending + 1) [.instr (.push .rax)] :=
      .plain out (Int.natCast_nonneg _) rfl rfl
    rw [List.length_cons, Int.natCast_add, Int.natCast_one, Int.add_comm _ 1, ← Int.add_assoc]
    exact ((hv.scans out).append hpush).append hrest

end

end Expr

namespace Frame

/-- Labels outside a statement to which it can jump. -/
def Exits (frame : Frame) (n : Nat) : Prop :=
  n = frame.exitLabel ∨
    ∃ labels, frame.innermostLoop? = some labels ∧ (n = labels.start ∨ n = labels.stop)

theorem Grows.exits_eq {frame frame' : Frame} (h : frame.Grows frame') :
    frame'.Exits = frame.Exits := by
  unfold Exits innermostLoop?
  rw [h.exitLabel, h.loops]

theorem exits_enterLoop {frame : Frame} {labels : LoopLabels} {n : Nat}
    (h : (frame.enterLoop labels).Exits n) :
    n = labels.start ∨ n = labels.stop ∨ frame.Exits n := by
  rcases h with rfl | ⟨labels', hl, h⟩
  · exact .inr (.inr (.inl rfl))
  · obtain rfl : labels = labels' := by simpa [innermostLoop?, enterLoop] using hl
    exact h.imp_right .inl

end Frame

theorem scans_test {out : Nat → Prop} {n : Nat} (hn : out n) :
    Code.Scans out 0 0 (.ofInstrs [.cmpZero .rax, .je n]) := by
  have hcmp : Code.Scans out 0 0 [.instr (.cmpZero .rax)] := .plain out (Int.le_refl _) rfl rfl
  exact hcmp.append (.jump rfl hn)

namespace Stmt

variable {decls : Declarations}

mutual

theorem Lowers.scans {stmt : Stmt} {s s' : Lowering} {code : Code}
    (h : stmt.Lowers decls s code s') (hp : s.frame.pending = 0) :
    code.Scans s.frame.Exits 0 0 := by
  have hexpr {e : Expr} {s s' : Lowering} {code : Code} (h : e.Lowers decls s code s')
      (hp : s.frame.pending = 0) (out : Nat → Prop) : code.Scans out 0 0 := by
    simpa [hp] using h.scans out
  cases h with
  | declare he _ | set he _ | setField he _ =>
    exact (hexpr he hp _).append (.plain _ (Int.le_refl _) rfl rfl)
  | declareRecord _ _ _ =>
    have hclear (base count : Nat) : Lower.clearCode base count = .ofInstrs
        ((List.range count).map fun index => .storeZero (base - index * wordSize)) := by
      simp [Lower.clearCode, Code.ofInstrs]
    rw [hclear]
    exact .level _ (Int.le_refl _) (by simp [Instr.plain, Instr.rise])
  | retNone =>
    have hzero : Code.Scans s.frame.Exits 0 0 [.instr (.movImm 0 .rax)] :=
      .plain _ (Int.le_refl _) rfl rfl
    exact hzero.append (.jump rfl (.inl rfl))
  | ret he => exact (hexpr he hp _).append (.jump rfl (.inl (by rw [he.frame_eq])))
  | @branch _ _ _ s₁ _ _ body hc hb =>
    have hp₁ : s₁.frame.pending = 0 := hc.frame_eq ▸ hp
    have hbody := (hb.scans hp₁).mono fun n hn => Or.inr (a := n = s₁.nextLabel) hn
    rw [Lowering.skipLabels_frame, hc.frame_eq] at hbody
    have hfront := ((hexpr hc hp _).append (scans_test (.inl rfl))).append hbody
    refine (hfront.append (.label _ (Int.le_refl _) s₁.nextLabel)).close ?_
    rintro n (rfl | hn)
    · exact .inl (hfront.mem_label _ [])
    · exact .inr hn
  | @branchElse _ _ _ _ s₁ s₂ _ _ _ other _ hc hb ho =>
    have hp₁ : s₁.frame.pending = 0 := hc.frame_eq ▸ hp
    let out n := n = s₁.nextLabel ∨ n = s₁.nextLabel + 1 ∨ s.frame.Exits n
    have hbody : Code.Scans out 0 0 _ := (hb.scans hp₁).mono fun n hn =>
      .inr (.inr (by rwa [Lowering.skipLabels_frame, hc.frame_eq] at hn))
    have hother : Code.Scans out 0 0 _ := (ho.scans (hb.frame_grows.pending.trans hp₁)).mono
      fun n hn => .inr (.inr (by
        rwa [hb.frame_grows.exits_eq, Lowering.skipLabels_frame, hc.frame_eq] at hn))
    have hthen := (((hexpr hc hp out).append (scans_test (.inl rfl))).append hbody).append
      (.jump (i := .jmp (s₁.nextLabel + 1)) rfl (.inr (.inl rfl)))
    have helse := (hthen.append (.label _ (Int.le_refl _) s₁.nextLabel)).append hother
    have hall := helse.append (.label _ (Int.le_refl _) (s₁.nextLabel + 1))
    have hclosed : Code.Scans s.frame.Exits 0 0 _ := hall.close (by
      rintro n (rfl | rfl | hn)
      · have hmem := hthen.mem_label s₁.nextLabel (other ++ [.label (s₁.nextLabel + 1)])
        exact .inl (by simpa using hmem)
      · exact .inl (helse.mem_label _ [])
      · exact .inr hn)
    simpa using hclosed
  | @loop _ _ _ s₁ _ _ _ hc hb =>
    have hp₁ : s₁.frame.pending = 0 := hc.frame_eq ▸ hp
    let out n := n = s.nextLabel ∨ n = s.nextLabel + 1 ∨ s.frame.Exits n
    have hbody : Code.Scans out 0 0 _ := (hb.scans hp₁).mono fun n hn =>
      Frame.exits_enterLoop (by rwa [Lowering.withFrame_frame, hc.frame_eq] at hn)
    have hstart : Code.Scans out 0 0 [.label s.nextLabel] := .label _ (Int.le_refl _) _
    have hround := (((hstart.append (hexpr hc hp out)).append
      (scans_test (.inr (.inl rfl)))).append hbody).append
      (.jump (i := .jmp s.nextLabel) rfl (.inl rfl))
    have hall := hround.append (.label _ (Int.le_refl _) (s.nextLabel + 1))
    have hclosed : Code.Scans s.frame.Exits 0 0 _ := hall.close (by
      rintro n (rfl | rfl | hn)
      · exact .inl (by simp)
      · exact .inl (hround.mem_label _ [])
      · exact .inr hn)
    simpa using hclosed
  | print he =>
    have hp' : s'.frame.pending = 0 := he.frame_eq ▸ hp
    have hcall (callee : Callee) := Lower.scans_callCode s.frame.Exits s'.frame.pending callee
    rw [hp'] at hcall ⊢
    have hmov : Code.Scans s.frame.Exits 0 0 [.instr (.mov .rax .rdi)] :=
      .plain _ (Int.le_refl _) rfl rfl
    exact (((hexpr he hp _).append hmov).append (hcall _)).append (hcall _)
  | eval he => exact hexpr he hp _
  | leave hl => exact .jump rfl (.inr ⟨_, hl, .inr rfl⟩)
  | again hl => exact .jump rfl (.inr ⟨_, hl, .inl rfl⟩)

theorem LowersBlock.scans {stmts : List Stmt} {s s' : Lowering} {code : Code}
    (h : LowersBlock decls stmts s code s') (hp : s.frame.pending = 0) :
    code.Scans s.frame.Exits 0 0 := by
  cases h with
  | nil => exact .nil _ 0
  | cons hf hr =>
    have hrest := hr.scans (hf.frame_grows.pending.trans hp)
    rw [hf.frame_grows.exits_eq] at hrest
    exact (hf.scans hp).append hrest

end

end Stmt

theorem StoresParams.scans {params : List (String × Register)} {s s' : Lowering} {code : Code}
    (h : StoresParams params s code s') (out : Nat → Prop) : code.Scans out 0 0 := by
  induction h with
  | nil => exact .nil out 0
  | @cons name register _ _ _ _ _ offset _ _ ih =>
    have hstore : Code.Scans out 0 0 [.instr (.store register offset)] :=
      .plain out (Int.le_refl _) rfl rfl
    exact hstore.append ih

/-- A function's code up to its exit has no way out, and the exit is at height zero. -/
theorem FunctionDecl.Lowers.exists_scans {limits : Limits} {decls : Declarations}
    {f : FunctionDecl} {s s' : Lowering} {r : Routine} (h : f.Lowers limits decls s r s') :
    ∃ (work : Code) (exit : Nat),
      r.body = work ++ [.label exit] ++ Code.ofInstrs Routine.epilogue ∧
      work.heightAfter 0 = 0 ∧ Code.Scans (fun _ => False) 0 0 (work ++ [.label exit]) := by
  obtain ⟨-, params, body, s₁, hp, hb, rfl⟩ := h
  have hgrows := hp.grows.2
  have hbody := hb.scans hgrows.pending
  rw [hgrows.exits_eq] at hbody
  have hzero : Code.Scans (f.enter limits s).frame.Exits 0 0 [.instr (.movImm 0 .rax)] :=
    .plain _ (Int.le_refl _) rfl rfl
  have hwork := ((hp.scans _).append hbody).append hzero
  refine ⟨params ++ body ++ [.instr (.movImm 0 .rax)], s.nextLabel, ?_, hwork.after, ?_⟩
  · simp [routine]
  · refine (hwork.append (.label _ (Int.le_refl _) s.nextLabel)).close ?_
    rintro n (rfl | ⟨labels, hl, -⟩)
    · exact .inl (hwork.mem_label _ [])
    · simp [Frame.innermostLoop?, enter] at hl

/-! ## Alignment along paths -/

namespace Asm

namespace Code

theorem mem_heights_of_getElem? {h : Int} {code : Code} {k : Nat} {line : Line}
    (hk : code[k]? = some line) : (heightAfter h (code.take k), line) ∈ heights h code := by
  induction code generalizing h k with
  | nil => simp at hk
  | cons first code ih =>
    cases k with
    | zero =>
      obtain rfl : first = line := by simpa using hk
      simp
    | succ k => exact .tail _ (ih (by simpa using hk))

theorem heightAfter_take_succ {h : Int} {code : Code} {k : Nat} {line : Line}
    (hk : code[k]? = some line) :
    heightAfter h (code.take (k + 1)) = heightAfter h (code.take k) + line.rise := by
  rw [List.take_add_one, hk, heightAfter_append]
  rfl

/-- A label that is defined once has one height. -/
theorem height_label_unique {h x y : Int} {code : Code} {n : Nat} (hd : code.labels.Nodup)
    (hx : (x, .label n) ∈ heights h code) (hy : (y, .label n) ∈ heights h code) : x = y := by
  have hmem {h x : Int} {code : Code} (hx : (x, .label n) ∈ heights h code) : n ∈ code.labels := by
    rw [mem_labels, ← map_snd_heights h code]
    exact List.mem_map.2 ⟨_, hx, rfl⟩
  induction code generalizing h with
  | nil => simp at hx
  | cons line code ih =>
    rw [heights_cons, List.mem_cons] at hx hy
    rcases hx with hx | hx <;> rcases hy with hy | hy
    · simp only [Prod.mk.injEq] at hx hy
      rw [hx.1, hy.1]
    · obtain rfl : Line.label n = line := (Prod.mk.inj hx).2
      exact ((List.nodup_cons.1 hd).1 (hmem hy)).elim
    · obtain rfl : Line.label n = line := (Prod.mk.inj hy).2
      exact ((List.nodup_cons.1 hd).1 (hmem hx)).elim
    · refine ih ?_ hx hy
      cases line with
      | label m => exact (List.nodup_cons.1 hd).2
      | instr i => exact hd

end Code

theorem Code.Flow.of_instr {code : Code} {k : Nat} {i : Instr} {s : Pointers}
    {c : Nat × Pointers} (hf : code.Flow (k, s) c) (hk : code[k]? = some (.instr i))
    (ht : i.target? = none) : ∃ s', i.Moves s s' ∧ c = (k + 1, s') := by
  cases hf with
  | label hk' => simp [hk] at hk'
  | next hk' hm =>
    obtain rfl : i = _ := by simpa [hk] using hk'
    exact ⟨_, hm, rfl⟩
  | jump hk' ht' _ =>
    obtain rfl : i = _ := by simpa [hk] using hk'
    simp [ht] at ht'

namespace Routine

variable {r : Routine} {main : Code} {rsp : Int}

/-- Lines of a routine are in the prologue, in the main part or in the epilogue. -/
theorem getElem?_code_cases (hr : r.body = main ++ Code.ofInstrs epilogue) {k : Nat} {line : Line}
    (hk : r.code[k]? = some line) :
    (∃ i ∈ r.prologue, line = .instr i ∧ k < r.prologue.length) ∨
    (∃ l, k = r.prologue.length + l ∧ main[l]? = some line) ∨
    (∃ i ∈ epilogue, line = .instr i ∧ r.prologue.length + main.length ≤ k) := by
  unfold code at hk
  rw [hr] at hk
  rcases Nat.lt_or_ge k r.prologue.length with hlt | hge
  · rw [List.getElem?_append_left (by simpa [Code.ofInstrs] using hlt)] at hk
    obtain ⟨i, hi, rfl⟩ := List.mem_map.1 (List.mem_of_getElem? hk)
    exact .inl ⟨i, hi, rfl, hlt⟩
  · have hlen : (Code.ofInstrs r.prologue).length = r.prologue.length := by simp [Code.ofInstrs]
    rw [List.getElem?_append_right (by omega), hlen] at hk
    rcases Nat.lt_or_ge (k - r.prologue.length) main.length with hlt | hge'
    · rw [List.getElem?_append_left hlt] at hk
      exact .inr (.inl ⟨_, by omega, hk⟩)
    · rw [List.getElem?_append_right hge'] at hk
      obtain ⟨i, hi, rfl⟩ := List.mem_map.1 (List.mem_of_getElem? hk)
      exact .inr (.inr ⟨i, hi, rfl, by omega⟩)

theorem mem_epilogue_of_getElem? (hr : r.body = main ++ Code.ofInstrs epilogue) {k : Nat}
    {line : Line} (hk : r.prologue.length + main.length ≤ k) (hl : r.code[k]? = some line) :
    ∃ i ∈ epilogue, line = .instr i := by
  obtain ⟨_, _, _, hlt⟩ | ⟨j, rfl, hj⟩ | ⟨i, hi, rfl, _⟩ := getElem?_code_cases hr hl
  · omega
  · have := (List.getElem?_eq_some_iff.1 hj).1
    omega
  · exact ⟨i, hi, rfl⟩

theorem getElem?_code_main (hr : r.body = main ++ Code.ofInstrs epilogue) {l : Nat}
    (hl : l < main.length) : r.code[r.prologue.length + l]? = main[l]? := by
  unfold code
  have hlen : (Code.ofInstrs r.prologue).length = r.prologue.length := by simp [Code.ofInstrs]
  rw [hr, List.getElem?_append_right (by omega), hlen, Nat.add_sub_cancel_left,
    List.getElem?_append_left hl]

/-- Where the pointers are at a line that a path reaches, if the stack pointer was `rsp` at the
first line: in the prologue, in the main part, or behind it. -/
inductive OnPath (r : Routine) (main : Code) (rsp : Int) : Nat × Pointers → Prop where
  | start {s : Pointers} : s.rsp = rsp → OnPath r main rsp (0, s)
  | saved {s : Pointers} : s.rsp = rsp - wordSize → OnPath r main rsp (1, s)
  | framed : r.stackSize ≠ 0 → OnPath r main rsp (2, ⟨rsp - wordSize, rsp - wordSize⟩)
  | within {l : Nat} : l < main.length → OnPath r main rsp (r.prologue.length + l,
      ⟨rsp - wordSize - r.stackSize - wordSize * Code.heightAfter 0 (main.take l), rsp - wordSize⟩)
  | behind {k : Nat} {s : Pointers} :
      r.prologue.length + main.length ≤ k → OnPath r main rsp (k, s)

theorem onPath_main (r : Routine) (main : Code) (rsp : Int) {l : Nat} (hl : l ≤ main.length) :
    OnPath r main rsp (r.prologue.length + l,
      ⟨rsp - wordSize - r.stackSize - wordSize * Code.heightAfter 0 (main.take l),
        rsp - wordSize⟩) := by
  rcases Nat.lt_or_ge l main.length with hlt | hge
  · exact .within hlt
  · exact .behind (by omega)

/-- The main part begins with the frame set up and nothing pushed. -/
theorem onPath_begin {k : Nat} (hk : k = r.prologue.length) {s : Pointers}
    (hs : s = ⟨rsp - wordSize - r.stackSize, rsp - wordSize⟩) : OnPath r main rsp (k, s) := by
  subst hk hs
  simpa using onPath_main r main rsp (Nat.zero_le _)

theorem OnPath.step (hr : r.body = main ++ Code.ofInstrs epilogue)
    (hm : main.Scans (fun _ => False) 0 0) (hd : main.labels.Nodup) {c c' : Nat × Pointers}
    (h : OnPath r main rsp c) (hf : r.code.Flow c c') : OnPath r main rsp c' := by
  cases h with
  | start hs =>
    obtain ⟨s', hmove, rfl⟩ := hf.of_instr (i := .push .rbp) rfl rfl
    obtain rfl : s' = _ := hmove
    exact .saved (by simp [hs])
  | saved hs =>
    obtain ⟨s', hmove, rfl⟩ := hf.of_instr (i := .mov .rsp .rbp) rfl rfl
    obtain rfl : s' = _ := hmove
    by_cases hz : r.stackSize = 0
    · exact onPath_begin (by simp [prologue, hz]) (by simp [hs, hz])
    · simpa [hs] using OnPath.framed hz
  | framed hz =>
    have hk : r.code[2]? = some (.instr (.subImm r.stackSize .rsp)) := by
      simp [code, prologue, hz, Code.ofInstrs]
    obtain ⟨s', hmove, rfl⟩ := hf.of_instr hk rfl
    obtain rfl : s' = _ := hmove
    exact onPath_begin (by simp [prologue, hz]) rfl
  | @within l hl =>
    obtain ⟨line, hline⟩ : ∃ line, main[l]? = some line := ⟨_, List.getElem?_eq_getElem hl⟩
    have hcode := (getElem?_code_main hr hl).trans hline
    have hheight := Code.heightAfter_take_succ (h := 0) hline
    have hnext := onPath_main r main rsp (Nat.succ_le_of_lt hl)
    cases hf with
    | label hk =>
      obtain rfl : line = _ := Option.some.inj (hcode.symm.trans hk)
      rw [hheight, Line.rise, Int.add_zero] at hnext
      exact hnext
    | @next _ i _ s' hk hmove =>
      obtain rfl : line = _ := Option.some.inj (hcode.symm.trans hk)
      rw [hm.steady i (List.mem_of_getElem? hline) _ _ hmove]
      rw [hheight, Line.rise, Int.mul_add, ← Int.sub_sub] at hnext
      exact hnext
    | @jump _ l' n i _ hk ht hl' =>
      obtain rfl : line = _ := Option.some.inj (hcode.symm.trans hk)
      obtain ⟨_, _, hi, _⟩ | ⟨j, rfl, hj⟩ | ⟨_, _, hi, _⟩ := getElem?_code_cases hr hl'
      · cases hi
      · have hjump := hm.jumps _ _ _ (Code.mem_heights_of_getElem? hline) ht
        simp only [and_false, or_false] at hjump
        have heq := Code.height_label_unique hd hjump.1 (Code.mem_heights_of_getElem? hj)
        rw [heq]
        exact onPath_main r main rsp (Nat.le_of_lt (List.getElem?_eq_some_iff.1 hj).1)
      · cases hi
  | @behind k s hk =>
    cases hf with
    | label _ | next _ _ => exact .behind (by omega)
    | jump hl ht _ =>
      -- No jump leads back from the epilogue.
      have hnone : ∀ i ∈ epilogue, i.target? = none := by decide
      obtain ⟨i, hi, heq⟩ := mem_epilogue_of_getElem? hr hk hl
      rw [Line.instr.inj heq, hnone i hi] at ht
      cases ht

/-- Heights are even at calls, so the stack pointer is aligned at every call on every path. -/
theorem aligned_of_scans (hr : r.body = main ++ Code.ofInstrs epilogue)
    (hm : main.Scans (fun _ => False) 0 0) (hd : main.labels.Nodup) {s s' : Pointers}
    (hs : 16 ∣ s.rsp + wordSize) {k : Nat}
    (hpath : Relation.ReflTransGen r.code.Flow (0, s) (k, s')) {callee : Callee}
    (hk : r.code[k]? = some (.instr (.call callee))) : 16 ∣ s'.rsp := by
  have hon : OnPath r main s.rsp (k, s') := by
    generalize (k, s') = c at hpath
    induction hpath with
    | refl => exact .start rfl
    | tail _ hf ih => exact ih.step hr hm hd hf
  cases hon with
  | start _ => cases hk
  | saved _ => cases hk
  | framed hz => simp [code, prologue, hz, Code.ofInstrs] at hk
  | within hl =>
    have hcall := (getElem?_code_main hr hl).symm.trans hk
    obtain ⟨m, heven⟩ := hm.even_call _ _ (Code.mem_heights_of_getElem? hcall)
    have hsize : 16 ∣ r.stackSize := Nat.dvd_mul_left _ _
    simp only [heven, wordSize] at hs ⊢
    omega
  | behind hge =>
    obtain ⟨i, hi, heq⟩ := mem_epilogue_of_getElem? hr hge hk
    cases heq
    simp [epilogue] at hi

/-- A routine keeps the stack in order. Up to the exit, which is at height zero, heights are never
negative; a jump has the height of its label, which is zero but within a division; calls are at
even heights. The epilogue has no heights: its first instruction drops whatever is on the stack, and
its pop undoes the push of the prologue, which is not counted either. On every path the stack
pointer is aligned at each call, if it was aligned when the routine was called. -/
structure StackDisciplined (r : Routine) : Prop where
  exists_heights : ∃ (work main : Code) (exit : Nat),
    main = work ++ [.label exit] ∧ r.body = main ++ Code.ofInstrs epilogue ∧
    main.labels.Nodup ∧ (0, .label exit) ∈ main.heights 0 ∧
    (∀ e ∈ main.heights 0, 0 ≤ e.1) ∧
    (∀ (h : Int) (i : Instr) (n : Nat), (h, .instr i) ∈ main.heights 0 → i.target? = some n →
      (h, .label n) ∈ main.heights 0 ∧ (h = 0 ∨ main.DivisionLabel n)) ∧
    (∀ (h : Int) (callee : Callee), (h, .instr (.call callee)) ∈ main.heights 0 → Even h)
  stackSize : 16 ∣ r.stackSize
  aligned : ∀ (s s' : Pointers) (k : Nat) (callee : Callee), 16 ∣ s.rsp + wordSize →
    Relation.ReflTransGen r.code.Flow (0, s) (k, s') →
    r.code[k]? = some (.instr (.call callee)) → 16 ∣ s'.rsp

end Routine

end Asm

theorem FunctionDecl.Lowers.stackDisciplined {limits : Limits} {decls : Declarations}
    {f : FunctionDecl} {s s' : Lowering} {r : Routine} (h : f.Lowers limits decls s r s') :
    r.StackDisciplined := by
  obtain ⟨work, exit, hbody, hexit, hscans⟩ := h.exists_scans
  have hlabels : Code.labels (work ++ [.label exit]) |>.Nodup := by
    have hnodup := h.labelsIn.nodup
    rw [Routine.code, hbody, Code.labels_append, Code.labels_ofInstrs, List.nil_append,
      Code.labels_append, Code.labels_ofInstrs, List.append_nil] at hnodup
    exact hnodup
  refine ⟨⟨work, _, exit, rfl, hbody, hlabels, ?_, hscans.nonneg, ?_, hscans.even_call⟩,
    Nat.dvd_mul_left _ _, fun _ _ _ _ hs hpath hk =>
      Routine.aligned_of_scans hbody hscans hlabels hs hpath hk⟩
  · simp [hexit]
  · intro h i n hk hn
    simpa using hscans.jumps h i n hk hn

namespace Program

theorem stack_disciplined {limits : Limits} {p : Program} (h : p.Accepted limits) :
    ∃ a : Assembly, p.written limits = utf8 a.text ∧
      List.Forall₂ (fun f r => r.name = f.name ∧ r.StackDisciplined) p.functions a.routines := by
  obtain ⟨a, ha⟩ := accepted_iff.1 h
  refine ⟨a, ha.written_eq, ha.forall₂.imp ?_⟩
  rintro f r ⟨s, s', hf⟩
  exact ⟨hf.name_eq, hf.stackDisciplined⟩

theorem stack_disciplined_halves : halves.Accepted {} ∧
    ∃ a : Assembly, halves.written {} = utf8 a.text ∧
      List.Forall₂ (fun f r => r.name = f.name ∧ r.StackDisciplined) halves.functions a.routines :=
  ⟨by decide +kernel, stack_disciplined (by decide +kernel)⟩

end Program

end WordLang
