import Mathlib.Order.Bounds.Basic
import WordLang.Proofs.SquareRoot

/-!
# Rounding fixed-point numbers

A word is rounded to the nearest multiple of a million on one side of it, if there is a word of that
value. The multiple is a greatest or a least element, and rounding succeeds with a word if and only
if the word is that element; the laws of rounding are laws of such elements.
-/
namespace WordLang.FixedPoint

/-! ## Whole numbers below and above -/

/-- `m` is the greatest value of a whole number that is not above `x`. -/
def IsFloor (x m : Int) : Prop := IsGreatest {n : Int | 1000000 ∣ n ∧ n ≤ x} m

/-- `m` is the least value of a whole number that is not below `x`. -/
def IsCeil (x m : Int) : Prop := IsLeast {n : Int | 1000000 ∣ n ∧ x ≤ n} m

section Values

variable {x y a b : Int}

theorem isFloor_iff : IsFloor x a ↔ 1000000 ∣ a ∧ a ≤ x ∧ x < a + 1000000 := by
  constructor
  · rintro ⟨⟨hdvd, hle⟩, hmax⟩
    refine ⟨hdvd, hle, ?_⟩
    by_contra hlt
    have hnext : a + 1000000 ≤ a := hmax ⟨by omega, by omega⟩
    omega
  · rintro ⟨hdvd, hle, hlt⟩
    refine ⟨⟨hdvd, hle⟩, fun n hn => ?_⟩
    obtain ⟨hn, hnle⟩ : 1000000 ∣ n ∧ n ≤ x := hn
    omega

/-- Rounding up is rounding down of the opposite number. -/
theorem isCeil_iff_isFloor_neg : IsCeil x a ↔ IsFloor (-x) (-a) := by
  constructor
  · rintro ⟨⟨hdvd, hle⟩, hmin⟩
    refine ⟨⟨by omega, by omega⟩, fun n hn => ?_⟩
    obtain ⟨hn, hnle⟩ : 1000000 ∣ n ∧ n ≤ -x := hn
    have hopp : a ≤ -n := hmin ⟨by omega, by omega⟩
    omega
  · rintro ⟨⟨hdvd, hle⟩, hmax⟩
    refine ⟨⟨by omega, by omega⟩, fun n hn => ?_⟩
    obtain ⟨hn, hnle⟩ : 1000000 ∣ n ∧ x ≤ n := hn
    have hopp : -n ≤ -a := hmax ⟨by omega, by omega⟩
    omega

theorem isCeil_iff : IsCeil x a ↔ 1000000 ∣ a ∧ x ≤ a ∧ a < x + 1000000 := by
  rw [isCeil_iff_isFloor_neg, isFloor_iff]
  omega

theorem IsFloor.mono (hxy : x ≤ y) (ha : IsFloor x a) (hb : IsFloor y b) : a ≤ b :=
  IsGreatest.mono ha hb fun _ hn => ⟨hn.1, hn.2.trans hxy⟩

theorem IsCeil.mono (hxy : x ≤ y) (ha : IsCeil x a) (hb : IsCeil y b) : a ≤ b :=
  IsLeast.mono hb ha fun _ hn => ⟨hn.1, hxy.trans hn.2⟩

/-- A whole number is its own floor. -/
theorem IsFloor.self (ha : IsFloor x a) : IsFloor a a := ⟨⟨ha.1.1, le_rfl⟩, fun _ hn => hn.2⟩

theorem IsCeil.self (ha : IsCeil x a) : IsCeil a a := ⟨⟨ha.1.1, le_rfl⟩, fun _ hn => hn.2⟩

theorem IsCeil.sub_isFloor (ha : IsCeil x a) (hb : IsFloor x b) :
    a - b = if 1000000 ∣ x then 0 else 1000000 := by
  rw [isCeil_iff] at ha
  rw [isFloor_iff] at hb
  split <;> omega

end Values

/-! ## Words -/

/-- `result` is the word of value `m`, or the overflow of `op` if no word has that value. -/
def WordOrOverflow (op : String) (m : Int) (result : Except Fault Int64) : Prop :=
  (∃ r : Int64, r.toInt = m ∧ result = .ok r) ∨
  ((∀ r : Int64, r.toInt ≠ m) ∧ result = .error (.overflow op))

theorem wordOrOverflow_word (op : String) (m : Int) : WordOrOverflow op m (word op m) := by
  by_cases h : Int64.minValue.toInt ≤ m ∧ m ≤ Int64.maxValue.toInt
  · obtain ⟨r, hr, hvalue⟩ := exists_word h.1 h.2 op
    exact .inl ⟨r, hvalue, hr⟩
  · refine .inr ⟨fun r hr => h ?_, if_neg h⟩
    subst hr
    exact ⟨Int64.le_toInt r, Int.le_sub_one_of_lt (Int64.toInt_lt r)⟩

/-- The only word of value `m` is what comes out. -/
theorem WordOrOverflow.eq_ok_iff {op : String} {m : Int} {result : Except Fault Int64}
    (h : WordOrOverflow op m result) {r : Int64} : result = .ok r ↔ r.toInt = m := by
  rcases h with ⟨s, rfl, rfl⟩ | ⟨hnone, rfl⟩
  · rw [Except.ok.injEq, eq_comm, Int64.toInt_inj]
  · simp [hnone r]

theorem exists_isFloor (x : Int64) :
    ∃ m, IsFloor x.toInt m ∧ WordOrOverflow "floor" m (floor x) := by
  refine ⟨x.toInt / scale * scale, isFloor_iff.2 ?_, wordOrOverflow_word _ _⟩
  simp only [scale]
  omega

theorem exists_isCeil (x : Int64) :
    ∃ m, IsCeil x.toInt m ∧ WordOrOverflow "ceil" m (ceil x) := by
  by_cases hwhole : x.toInt % scale = 0
  · refine ⟨x.toInt, isCeil_iff.2 ?_, .inl ⟨x, rfl, if_pos hwhole⟩⟩
    simp only [scale] at hwhole
    omega
  · have hceil : ceil x = word "ceil" ((x.toInt / scale + 1) * scale) := if_neg hwhole
    refine ⟨(x.toInt / scale + 1) * scale, isCeil_iff.2 ?_, hceil ▸ wordOrOverflow_word _ _⟩
    simp only [scale] at hwhole ⊢
    omega

theorem floor_eq_ok_iff {x r : Int64} : floor x = .ok r ↔ IsFloor x.toInt r.toInt := by
  obtain ⟨m, hm, hword⟩ := exists_isFloor x
  rw [hword.eq_ok_iff]
  exact ⟨fun h => h ▸ hm, fun h => IsGreatest.unique h hm⟩

theorem ceil_eq_ok_iff {x r : Int64} : ceil x = .ok r ↔ IsCeil x.toInt r.toInt := by
  obtain ⟨m, hm, hword⟩ := exists_isCeil x
  rw [hword.eq_ok_iff]
  exact ⟨fun h => h ▸ hm, fun h => IsLeast.unique h hm⟩

theorem toInt_neg_of_ne {x : Int64} (h : x ≠ Int64.minValue) : (-x).toInt = -x.toInt := by
  have hlo := Int64.le_toInt x
  have hhi := Int64.toInt_lt x
  have hne : x.toInt ≠ -2 ^ 63 := fun heq => h (Int64.toInt_inj.1 heq)
  rw [Int64.toInt_neg]
  exact Int.bmod_eq_of_le (by omega) (by omega)

/-! ## Overflow -/

section Overflow

variable {op : String} {m : Int} {result : Except Fault Int64}

theorem WordOrOverflow.eq_overflow_iff (h : WordOrOverflow op m result) :
    result = .error (.overflow op) ↔ m < -2 ^ 63 ∨ 2 ^ 63 ≤ m := by
  rcases h with ⟨r, rfl, rfl⟩ | ⟨hnone, rfl⟩
  · have hlo := Int64.le_toInt r
    have hhi := Int64.toInt_lt r
    exact iff_of_false (by simp) (by omega)
  · refine iff_of_true rfl ?_
    by_contra hfits
    exact hnone (Int64.ofInt m) (Int64.toInt_ofInt_of_le (by omega) (by omega))

end Overflow

/-- Rounding down fails only in the last part of a unit that the lowest words are. -/
theorem floor_eq_overflow_iff (x : Int64) :
    floor x = .error (.overflow "floor") ↔ x.toInt < -9223372036854000000 := by
  obtain ⟨m, hm, hword⟩ := exists_isFloor x
  have hhi := Int64.toInt_lt x
  rw [isFloor_iff] at hm
  rw [hword.eq_overflow_iff]
  omega

theorem ceil_eq_overflow_iff (x : Int64) :
    ceil x = .error (.overflow "ceil") ↔ 9223372036854000000 < x.toInt := by
  obtain ⟨m, hm, hword⟩ := exists_isCeil x
  have hlo := Int64.le_toInt x
  rw [isCeil_iff] at hm
  rw [hword.eq_overflow_iff]
  omega

/-! ## Intermediate results -/

/-- The word of a value, if there is one. -/
def word? (n : Int) : Option Int64 :=
  if Int64.minValue.toInt ≤ n ∧ n ≤ Int64.maxValue.toInt then some (Int64.ofInt n) else none

/-- Rounding down with all that is computed before the last multiplication in words; `none` if
something does not fit. -/
def floorInWords (x : Int64) : Option (Except Fault Int64) := do
  let quotient ← word? (x.toInt / scale)
  return word "floor" (quotient.toInt * scale)

/-- Rounding up in the same way. -/
def ceilInWords (x : Int64) : Option (Except Fault Int64) := do
  let remainder ← word? (x.toInt % scale)
  if remainder = 0 then
    return .ok x
  let quotient ← word? (x.toInt / scale)
  let successor ← word? (quotient.toInt + 1)
  return word "ceil" (successor.toInt * scale)

theorem exists_word? {n : Int} (hlo : -2 ^ 63 ≤ n) (hhi : n < 2 ^ 63) :
    ∃ r, word? n = some r ∧ r.toInt = n :=
  ⟨Int64.ofInt n, if_pos ⟨hlo, Int.le_sub_one_of_lt hhi⟩, Int64.toInt_ofInt_of_le hlo hhi⟩

/-- The quotient by the scale is so far inside the range that its successor fits as well. -/
theorem quotient_bounds (x : Int64) : -2 ^ 62 < x.toInt / scale ∧ x.toInt / scale < 2 ^ 62 := by
  have hlo := Int64.le_toInt x
  have hhi := Int64.toInt_lt x
  simp only [scale]
  omega

theorem floorInWords_eq (x : Int64) : floorInWords x = some (floor x) := by
  have hbounds := quotient_bounds x
  obtain ⟨q, hq, hqv⟩ := exists_word? (n := x.toInt / scale) (by omega) (by omega)
  simp [floorInWords, hq, hqv, floor]

theorem ceilInWords_eq (x : Int64) : ceilInWords x = some (ceil x) := by
  have hbounds := quotient_bounds x
  have hrem : 0 ≤ x.toInt % scale ∧ x.toInt % scale < 1000000 := by
    simp only [scale]
    omega
  obtain ⟨r, hr, hrv⟩ := exists_word? (n := x.toInt % scale) (by omega) (by omega)
  obtain ⟨q, hq, hqv⟩ := exists_word? (n := x.toInt / scale) (by omega) (by omega)
  obtain ⟨s, hs, hsv⟩ := exists_word? (n := x.toInt / scale + 1) (by omega) (by omega)
  have hzero : r = 0 ↔ x.toInt % scale = 0 := by
    rw [← hrv, ← Int64.toInt_inj]
    rfl
  by_cases hwhole : r = 0
  · have hceil : ceil x = .ok x := if_pos (hzero.1 hwhole)
    simp [ceilInWords, hr, hwhole, hceil]
  · have hceil : ceil x = word "ceil" ((x.toInt / scale + 1) * scale) := if_neg (mt hzero.2 hwhole)
    simp [ceilInWords, hr, hwhole, hq, hqv, hs, hsv, hceil]

/-- Rounding gives the nearest whole number on its side, or overflows if there is no such word. Only
the last multiplication can leave the range. The two directions mirror each other, keep the order,
keep whole numbers, and are one unit apart at all other numbers. -/
theorem floor_ceil_laws (x : Int64) :
    (∃ m, IsFloor x.toInt m ∧ WordOrOverflow "floor" m (floor x)) ∧
    (∃ m, IsCeil x.toInt m ∧ WordOrOverflow "ceil" m (ceil x)) ∧
    (floor x = .error (.overflow "floor") ↔ x.toInt < -9223372036854000000) ∧
    (ceil x = .error (.overflow "ceil") ↔ 9223372036854000000 < x.toInt) ∧
    floorInWords x = some (floor x) ∧ ceilInWords x = some (ceil x) ∧
    (x ≠ Int64.minValue → ∀ a b, ceil x = .ok a → floor (-x) = .ok b → a.toInt = -b.toInt) ∧
    (∀ y a b, x ≤ y → floor x = .ok a → floor y = .ok b → a ≤ b) ∧
    (∀ y a b, x ≤ y → ceil x = .ok a → ceil y = .ok b → a ≤ b) ∧
    (∀ a, floor x = .ok a → floor a = .ok a) ∧
    (∀ a, ceil x = .ok a → ceil a = .ok a) ∧
    ∀ a b, ceil x = .ok a → floor x = .ok b →
      a.toInt - b.toInt = if 1000000 ∣ x.toInt then 0 else 1000000 := by
  simp only [floor_eq_ok_iff, ceil_eq_ok_iff, Int64.le_iff_toInt_le]
  refine ⟨exists_isFloor x, exists_isCeil x, floor_eq_overflow_iff x, ceil_eq_overflow_iff x,
    floorInWords_eq x, ceilInWords_eq x, fun hx a b ha hb => ?_,
    fun y a b hxy ha hb => ha.mono hxy hb, fun y a b hxy ha hb => ha.mono hxy hb,
    fun a ha => ha.self, fun a ha => ha.self,
    fun a b ha hb => ha.sub_isFloor hb⟩
  rw [toInt_neg_of_ne hx] at hb
  have hopp : -a.toInt = b.toInt := IsGreatest.unique (isCeil_iff_isFloor_neg.1 ha) hb
  omega

end WordLang.FixedPoint
