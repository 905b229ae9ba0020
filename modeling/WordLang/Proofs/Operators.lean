import Mathlib.Tactic.NormNum
import WordLang.Proofs.Lowers
import WordLang.Proofs.Semantics

/-!
# Operators on the machine

With the operands in `%rax` and `%rcx`, the code of an operator leaves its value in `%rax`. The
flags of a difference tell how the operands compare, also where the difference overflows; and a
word that is extended by its sign divides as the word itself.
-/
namespace WordLang

open Asm Machine

/-! ## Comparisons -/

/-- The flags of a difference show how its operands compare. -/
theorem Machine.Flags.holds_ofResult_sub (op : CompareOp) (x y : Word) :
    (ofResult (x - y) (x.toInt - y.toInt)).holds op = op.holds x y := by
  have hzero : (x - y == 0) = (x == y) := by
    rw [Bool.eq_iff_iff, beq_iff_eq, beq_iff_eq]
    exact ⟨fun h => by simpa using BitVec.sub_eq_iff_eq_add.1 h, fun h => by simp [h]⟩
  have heq : (x == y) = decide (x.toInt = y.toInt) := by
    rw [Bool.eq_iff_iff, beq_iff_eq, decide_eq_true_eq, BitVec.toInt_inj]
  -- The sign of a difference is wrong exactly where it overflows.
  have hless : (decide ((x - y).toInt < 0) != ((x - y).toInt != x.toInt - y.toInt)) =
      decide (x.toInt < y.toInt) := by
    have hx := x.toInt_lt
    have hx' := x.le_toInt
    have hy := y.toInt_lt
    have hy' := y.le_toInt
    rw [BitVec.toInt_sub, Int.bmod_def, Bool.eq_iff_iff, bne_iff_ne, ne_eq, Bool.eq_iff_iff]
    simp only [decide_eq_true_eq, bne_iff_ne]
    norm_num at *
    split_ifs <;> omega
  have hge : (decide ((x - y).toInt < 0) == ((x - y).toInt != x.toInt - y.toInt)) =
      decide (y.toInt ≤ x.toInt) := by
    rw [← Bool.not_not (_ == _), ← bne, hless, ← decide_not, decide_eq_decide, not_lt]
  cases op with
  | eq => exact hzero
  | notEq => simp only [holds, ofResult, hzero, CompareOp.holds, bne]
  | lt => exact hless
  | gtEq => exact hge
  | ltEq =>
    simp only [holds, ofResult, hzero, hless, CompareOp.holds, heq]
    grind
  | gt =>
    simp only [holds, ofResult, hzero, hge, CompareOp.holds, heq]
    grind

section

variable {img : Image} {rt : Runtime} {k k' : Nat}

/-- From position `k` to position `k'`, the value `v` is computed into `%rax`, and the rest of what
a callee has to keep is kept, with all of the memory. -/
def Machine.Image.Combines (img : Image) (rt : Runtime) (k k' : Nat) (s : State) (v : Word) :
    Prop :=
  ∃ s', img.Reaches rt (img.address k, s) (img.address k', s') ∧ s'.regs .rax = v ∧
    s'.trace = s.trace ∧ ∀ low high, s.Keeps low high s'

theorem Machine.Image.Combines.yields {s : State} {v : Word} (h : img.Combines rt k k' s v) :
    img.Yields rt k k' s v s.trace := by
  obtain ⟨s', hr, hv, ht, hk⟩ := h
  exact ⟨s', hr, hv, ht, hk _ _⟩

theorem Machine.Image.combines_compare {op : CompareOp} (h : img.Holds k op.code k') (s : State) :
    img.Combines rt k k' s (op.eval (s.regs .rax) (s.regs .rcx)) := by
  refine ⟨_, reaches_execAll h rfl, ?_, rfl, fun _ _ => ⟨rfl, rfl, rfl, fun _ _ _ => rfl⟩⟩
  have hlow (x : Word) (b : BitVec 8) : (x.extractLsb' 8 56 ++ b).setWidth 8 = b :=
    BitVec.setWidth_append_eq_right
  simp only [State.set_regs, State.setFlags_regs, if_true, hlow, Flags.holds_ofResult_sub,
    CompareOp.eval]
  split_ifs <;> rfl

theorem Machine.Image.yields_compare {op : CompareOp} (h : img.Holds k op.code k') (s : State) :
    img.Yields rt k k' s (op.eval (s.regs .rax) (s.regs .rcx)) s.trace :=
  (combines_compare h s).yields

/-! ## Division -/

/-- Both halves of a word that is extended by its sign make up the word. -/
theorem toInt_signExtended (x : Word) :
    (if x.toInt < 0 then (-1 : Word) else 0).toInt * 2 ^ 64 + x.toNat = x.toInt := by
  have h := BitVec.toInt_eq_toNat_cond x
  have := x.isLt
  split_ifs at * <;> simp <;> omega

/-- One quotient of words is not a word. -/
theorem tdiv_bounds {x y : Word} (hy : y ≠ 0) (h : ¬ (x = BitVec.intMin 64 ∧ y = -1)) :
    ¬ (x.toInt.tdiv y.toInt < -2 ^ 63 ∨ 2 ^ 63 ≤ x.toInt.tdiv y.toInt) := by
  have hx := x.toInt_lt
  have hx' := x.le_toInt
  have hy' : y.toInt ≠ 0 := fun h0 => hy (BitVec.toInt_inj.1 (by simpa using h0))
  have habs : (x.toInt.tdiv y.toInt).natAbs = x.toInt.natAbs / y.toInt.natAbs :=
    Int.natAbs_tdiv ..
  by_cases hone : y.toInt.natAbs = 1
  · rcases Int.natAbs_eq_iff.1 hone with hone | hone
    · rw [hone, Int.cast_ofNat_Int, Int.tdiv_one]
      omega
    · have hmin : x.toInt ≠ -2 ^ 63 := by
        intro hm
        exact h ⟨BitVec.toInt_inj.1 (by rw [hm]; decide), BitVec.toInt_inj.1 (by rw [hone]; decide)⟩
      rw [hone, Int.cast_ofNat_Int, Int.tdiv_neg, Int.tdiv_one]
      omega
  · have hhalf : x.toInt.natAbs / y.toInt.natAbs ≤ x.toInt.natAbs / 2 :=
      Nat.div_le_div_left (by omega) (by omega)
    omega

/-- Sign extension and division. -/
theorem Machine.State.divide_of_signExtended {s : State} {y : Word} (hy : y ≠ 0)
    (h : ¬ (s.regs .rax = BitVec.intMin 64 ∧ y = -1))
    (hs : s.regs .rdx = if (s.regs .rax).toInt < 0 then -1 else 0) :
    s.divide y = some (((s.set .rax (BitVec.ofInt 64 ((s.regs .rax).toInt.tdiv y.toInt))).set .rdx
      (BitVec.ofInt 64 ((s.regs .rax).toInt.tmod y.toInt))).setFlags none) := by
  simp only [divide, hs, toInt_signExtended]
  rw [if_neg]
  rintro (h0 | hbounds)
  · exact hy h0
  · exact tdiv_bounds hy h hbounds

namespace Machine.Image

/-- A test against zero, and a jump that is taken where the word is not zero. -/
theorem reaches_testNonzero {label j : Nat}
    (h : img.Holds k (.ofInstrs [.test .rcx .rcx, .jne label]) k')
    (hj : img.symbols.find? (labelName label) = some j) (s : State) :
    ∃ flags, img.Reaches rt (img.address k, s)
      (img.address (if s.regs .rcx = 0 then k' else j), s.setFlags flags) := by
  obtain ⟨ht, hjne, rfl⟩ := h
  let both := s.regs .rcx &&& s.regs .rcx
  refine ⟨some (.ofResult both both.toInt), .head (step_exec ht rfl) (.single ?_)⟩
  rw [step_of_getElem? hjne]
  by_cases hz : s.regs .rcx = 0#64 <;> simp [perform, goto, hj, hz, both, Flags.ofResult]

theorem combines_division {remainder : Bool} {nonzero done : Nat}
    (h : img.Holds k (divisionCode remainder nonzero done) k') (s : State) {v : Word}
    (hv : BinaryOp.divide (if remainder then Int.tmod else Int.tdiv) (s.regs .rax) (s.regs .rcx) =
      some v) :
    img.Combines rt k k' s v := by
  let last : List Instr := if remainder then [.mov .rdx .rax] else []
  have hcode : divisionCode remainder nonzero done =
      Code.ofInstrs [.test .rcx .rcx, .jne nonzero] ++
        (Code.ofInstrs [.movImm 0 .rax, .jmp done] ++
          .label nonzero :: (Code.ofInstrs ([.cqto, .idiv .rcx] ++ last) ++ [.label done])) := by
    cases remainder <;> rfl
  rw [hcode] at h
  simp only [holds_append, holds_label, holds_nil] at h
  obtain ⟨k₁, htest, k₂, ⟨hmov, hjmp, -⟩, hnonzero, k₃, hdiv, hdone, rfl⟩ := h
  obtain ⟨flags, hr⟩ := reaches_testNonzero htest hnonzero s
  suffices hrest : img.Combines rt (if s.regs .rcx = 0 then k₁ else k₂) k₃ (s.setFlags flags) v by
    obtain ⟨s', hr', hv, ht, hk⟩ := hrest
    have hflags (low high : Nat) : s.Keeps low high (s.setFlags flags) :=
      ⟨rfl, rfl, rfl, fun _ _ _ => rfl⟩
    exact ⟨s', hr.trans hr', hv, ht, fun _ _ => (hflags _ _).trans (hk _ _)⟩
  unfold BinaryOp.divide at hv
  by_cases hy : s.regs .rcx = 0
  · rw [if_pos hy] at hv ⊢
    refine ⟨_, .head (step_exec hmov rfl) (.single (step_goto hjmp hdone _)), ?_, rfl,
      fun _ _ => ⟨rfl, rfl, rfl, fun _ _ _ => rfl⟩⟩
    exact Option.some.inj hv
  · rw [if_neg hy] at hv ⊢
    by_cases hmin : s.regs .rax = BitVec.intMin 64 ∧ s.regs .rcx = -1
    · simp [hmin] at hv
    rw [if_neg hmin] at hv
    let extended := (s.setFlags flags).set .rdx (if (s.regs .rax).toInt < 0 then -1 else 0)
    have hd := extended.divide_of_signExtended (y := s.regs .rcx) hy
      (by simpa [extended] using hmin) (by simp [extended])
    have hexec : Instr.execAll img.literal ([.cqto, .idiv .rcx] ++ last) (s.setFlags flags) =
        (extended.divide (s.regs .rcx)).bind (Instr.execAll img.literal last) := rfl
    rw [hd, Option.bind_some] at hexec
    cases remainder with
    | false =>
      refine ⟨_, reaches_execAll hdiv hexec, ?_, rfl,
        fun _ _ => ⟨rfl, rfl, rfl, fun _ _ _ => rfl⟩⟩
      simpa [extended] using hv
    | true =>
      refine ⟨_, reaches_execAll hdiv hexec, ?_, rfl,
        fun _ _ => ⟨rfl, rfl, rfl, fun _ _ _ => rfl⟩⟩
      simpa [extended] using hv

theorem yields_division {remainder : Bool} {nonzero done : Nat}
    (h : img.Holds k (divisionCode remainder nonzero done) k') (s : State) {v : Word}
    (hv : BinaryOp.divide (if remainder then Int.tmod else Int.tdiv) (s.regs .rax) (s.regs .rcx) =
      some v) :
    img.Yields rt k k' s v s.trace :=
  (combines_division h s hv).yields

theorem combines_binary {op : BinaryOp} {n : Nat} (h : img.Holds k (op.code n) k') (s : State)
    {v : Word} (hv : op.eval? (s.regs .rax) (s.regs .rcx) = some v) :
    img.Combines rt k k' s v := by
  cases op with
  | add | sub | mul =>
    obtain ⟨hi, rfl⟩ := h
    refine ⟨_, .single (step_exec hi rfl), ?_, rfl, fun _ _ => ⟨rfl, rfl, rfl, fun _ _ _ => rfl⟩⟩
    exact Option.some.inj hv
  | div | mod => exact combines_division h s hv

theorem yields_binary {op : BinaryOp} {n : Nat} (h : img.Holds k (op.code n) k') (s : State)
    {v : Word} (hv : op.eval? (s.regs .rax) (s.regs .rcx) = some v) :
    img.Yields rt k k' s v s.trace :=
  (combines_binary h s hv).yields

end Machine.Image

end

end WordLang
