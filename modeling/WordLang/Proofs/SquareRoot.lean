import Mathlib.Tactic.Linarith
import WordLang.FixedPoint

/-!
# The fixed-point square root

The root of a word is found by Newton's iteration on whole numbers, from above. No approximation
falls below the root, since the mean of `x` and `n / x` does not; and an approximation that the
iteration does not improve is not above the root. So the iteration stops at the root rounded down,
and all it computes on the way fits 128 bits.
-/
namespace WordLang.FixedPoint

/-- The pairs of an approximation and the one after it that the iteration for `n` comes to. -/
inductive Visits (n : Nat) : Nat → Nat → Prop where
  | start : Visits n n ((n + 1) / 2)
  | fall {x y : Nat} (h : Visits n x y) (hlt : y < x) : Visits n y ((y + n / y) / 2)

/-- A number of 128 bits. -/
def Wide (n : Nat) : Prop := n < 2 ^ 128

/-! ## Approximations from above -/

/-- `x` is not below the root of `n`, and `y` is the approximation after it. -/
structure Approximates (n x y : Nat) : Prop where
  pos : 0 < x
  le : x ≤ n
  lt_sq : n < (x + 1) * (x + 1)
  next : y = (x + n / x) / 2

/-- The mean of `x` and `n / x` is not below the root of `n`. -/
theorem lt_mean_sq {n x : Nat} (hx : 0 < x) :
    n < ((x + n / x) / 2 + 1) * ((x + n / x) / 2 + 1) := by
  have hquot : n < (n / x + 1) * x := Nat.lt_mul_of_div_lt (Nat.lt_succ_self _) hx
  have hmean : x + n / x + 1 ≤ 2 * ((x + n / x) / 2 + 1) := by omega
  generalize n / x = q at hquot hmean ⊢
  generalize (x + q) / 2 = y at hmean ⊢
  have hsq : (x + q + 1) * (x + q + 1) ≤ 2 * (y + 1) * (2 * (y + 1)) := Nat.mul_le_mul hmean hmean
  have hamgm : 4 * ((q + 1) * x) ≤ (x + q + 1) * (x + q + 1) := by
    zify
    nlinarith [sq_nonneg ((x : ℤ) - (q + 1))]
  nlinarith

theorem Approximates.start {n : Nat} (hn : 0 < n) : Approximates n n ((n + 1) / 2) where
  pos := hn
  le := Nat.le_refl n
  lt_sq := by nlinarith
  next := by rw [Nat.div_self hn]

/-- A lower approximation is not below the root either. -/
theorem Approximates.fall {n x y : Nat} (h : Approximates n x y) (hlt : y < x) :
    Approximates n y ((y + n / y) / 2) := by
  have hsq : n < (y + 1) * (y + 1) := h.next ▸ lt_mean_sq h.pos
  have hn : 0 < n := Nat.lt_of_lt_of_le h.pos h.le
  refine ⟨?_, (hlt.le.trans h.le), hsq, rfl⟩
  by_contra hy
  obtain rfl : y = 0 := by omega
  omega

theorem Visits.approximates {n x y : Nat} (hn : 0 < n) (h : Visits n x y) :
    Approximates n x y := by
  induction h with
  | start => exact .start hn
  | fall _ hlt ih => exact ih.fall hlt

/-- An approximation that the one after it does not improve is not above the root. -/
theorem Approximates.sq_le {n x y : Nat} (h : Approximates n x y) (hstop : x ≤ y) :
    x * x ≤ n := by
  have hx : x ≤ n / x := by
    have := h.next
    omega
  exact (Nat.le_div_iff_mul_le h.pos).1 hx

/-! ## The iteration -/

/-- The iteration stops at an approximation that is not improved. -/
theorem exists_visits_newton {n x y : Nat} (h : Visits n x y) :
    ∃ z, Visits n (newton n x y) z ∧ newton n x y ≤ z := by
  fun_induction newton n x y with
  | case1 x y hlt ih => exact ih (h.fall hlt)
  | case2 x y hle => exact ⟨y, h, Nat.le_of_not_lt hle⟩

theorem exists_visits_isqrt (n : Nat) : ∃ z, Visits n (isqrt n) z ∧ isqrt n ≤ z := by
  unfold isqrt
  split
  · exact ⟨_, .start, by omega⟩
  · exact exists_visits_newton .start

theorem isqrt_bounds {n : Nat} : isqrt n * isqrt n ≤ n ∧ n < (isqrt n + 1) * (isqrt n + 1) := by
  rcases Nat.eq_zero_or_pos n with rfl | hn
  · simp [isqrt]
  · obtain ⟨z, hvisits, hstop⟩ := exists_visits_isqrt n
    have happrox := hvisits.approximates hn
    exact ⟨happrox.sq_le hstop, happrox.lt_sq⟩

theorem Visits.le {n x y : Nat} (h : Visits n x y) : x ≤ n := by
  induction h with
  | start => exact Nat.le_refl n
  | fall _ hlt ih => omega

/-- The iteration for `n` computes in 128 bits, divides by no zero, and comes to an end, which is
its result. -/
structure RunsWide (n : Nat) : Prop where
  argument : Wide n
  first : Wide (n + 1)
  step : ∀ x y, Visits n x y → y < x → 0 < y ∧ Wide (y + n / y)
  stops : ∃ y, Visits n (isqrt n) y ∧ isqrt n ≤ y

theorem runsWide_of_lt {n : Nat} (h : n < 2 ^ 127) : RunsWide n where
  argument := by
    unfold Wide
    omega
  first := by
    unfold Wide
    omega
  step x y hvisits hlt := by
    have hn : 0 < n := by
      have := hvisits.le
      omega
    have hy := (hvisits.approximates hn).fall hlt
    have hdiv : n / y ≤ n := Nat.div_le_self n y
    have hle : y ≤ n := hy.le
    exact ⟨hy.pos, by unfold Wide; omega⟩
  stops := exists_visits_isqrt n

/-! ## Words -/

/-- A number that fits becomes the word of that value. -/
theorem exists_word {n : Int} (hlo : Int64.minValue.toInt ≤ n) (hhi : n ≤ Int64.maxValue.toInt)
    (op : String) : ∃ r : Int64, word op n = .ok r ∧ r.toInt = n := by
  refine ⟨Int64.ofInt n, if_pos ⟨hlo, hhi⟩, Int64.toInt_ofInt_of_le ?_ ?_⟩
  · exact hlo
  · exact Int.lt_of_le_sub_one hhi

/-- What the iteration is run on: a word that is not negative, scaled once more. -/
def radicand (x : Int64) : Nat := x.toInt.toNat * scale.toNat

theorem radicand_eq {x : Int64} (hx : 0 ≤ x) : (radicand x : Int) = x.toInt * 1000000 := by
  rw [radicand, Nat.cast_mul, Int.toNat_of_nonneg (Int64.le_iff_toInt_le.1 hx)]
  rfl

theorem radicand_le (x : Int64) : radicand x ≤ 9223372036854775807 * 1000000 := by
  have hx : x.toInt < 2 ^ 63 := Int64.toInt_lt x
  exact Nat.mul_le_mul_right 1000000 (by omega)

theorem isqrt_radicand_le (x : Int64) : isqrt (radicand x) ≤ 2 ^ 42 := by
  have hle := radicand_le x
  have hsq : isqrt (radicand x) * isqrt (radicand x) ≤ radicand x := isqrt_bounds.1
  by_contra hlt
  have hbound : (2 ^ 42) * (2 ^ 42) ≤ isqrt (radicand x) * isqrt (radicand x) :=
    Nat.mul_le_mul (by omega) (by omega)
  omega

/-- A word that is not negative has a root, which is the word of the root of its radicand. -/
theorem exists_sqrt {x : Int64} (hx : 0 ≤ x) :
    ∃ r : Int64, sqrt x = .ok r ∧ r.toInt = isqrt (radicand x) := by
  have hmin : Int64.minValue.toInt = -2 ^ 63 := rfl
  have hmax : Int64.maxValue.toInt = 2 ^ 63 - 1 := rfl
  have hle := isqrt_radicand_le x
  obtain ⟨r, hr, hvalue⟩ := exists_word (n := isqrt (radicand x)) (by omega) (by omega) "sqrt"
  exact ⟨r, (if_neg (Int64.not_lt.2 hx)).trans hr, hvalue⟩

/-- The square root is refused for negative words, and is the exact root rounded down for all
others. It is never out of range, and the iteration that finds it fits 128 bits, divides by no zero
and ends. -/
theorem sqrt_eq_floor (x : Int64) :
    (x < 0 → sqrt x = .error (.domainError "sqrt" x)) ∧
    (0 ≤ x → ∃ r : Int64, sqrt x = .ok r ∧ 0 ≤ r ∧ r.toInt * r.toInt ≤ x.toInt * 1000000 ∧
      x.toInt * 1000000 < (r.toInt + 1) * (r.toInt + 1)) ∧
    (∀ op, sqrt x ≠ .error (.overflow op)) ∧
    RunsWide (radicand x) := by
  refine ⟨fun hx => if_pos hx, fun hx => ?_, fun op => ?_, ?_⟩
  · obtain ⟨r, hr, hvalue⟩ := exists_sqrt hx
    obtain ⟨hle, hlt⟩ := isqrt_bounds (n := radicand x)
    refine ⟨r, hr, Int64.le_iff_toInt_le.2 ?_, ?_, ?_⟩
    · simp [hvalue]
    · rw [hvalue, ← radicand_eq hx]
      exact_mod_cast hle
    · rw [hvalue, ← radicand_eq hx]
      exact_mod_cast hlt
  · by_cases hx : x < 0
    · simp [sqrt, hx]
    · obtain ⟨r, hr, -⟩ := exists_sqrt (Int64.not_lt.1 hx)
      simp [hr]
  · have := radicand_le x
    exact runsWide_of_lt (by omega)

end WordLang.FixedPoint
