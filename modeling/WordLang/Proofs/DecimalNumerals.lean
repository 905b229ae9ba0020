import Mathlib.Algebra.Group.Nat.Defs
import Mathlib.Data.List.Induction
import WordLang.Diagnostic

/-!
# Numerals of words

The digits of a word are laid out from the end of a buffer. What has been laid out is always the
numeral of the digits taken off so far, and the digits still to come fit the room that is left:
nineteen are enough for every word, so that a byte remains for the sign.
-/
namespace WordLang.Diagnostic

/-! ## Reading numerals -/

def isDigit (b : UInt8) : Bool := 0x30 ≤ b && b ≤ 0x39

/-- The number that digits stand for. -/
def naturalValue (digits : List UInt8) : Nat :=
  digits.foldl (fun n b => 10 * n + (b.toNat - 0x30)) 0

/-- Reads a number of at least one digit. -/
def natural? (digits : List UInt8) : Option Nat :=
  if digits ≠ [] ∧ digits.all isDigit then some (naturalValue digits) else none

/-- Reads a number that may have a minus sign in front. -/
def parse? : List UInt8 → Option Int
  | [] => none
  | b :: rest =>
    if b = 0x2d then (natural? rest).map fun n => -(n : Int)
    else (natural? (b :: rest)).map fun n => (n : Int)

/-- At least one digit, and no zero in front of others. -/
structure IsNatural (digits : List UInt8) : Prop where
  ne_nil : digits ≠ []
  isDigit : ∀ b ∈ digits, isDigit b = true
  lead : digits.head? = some 0x30 → digits = [0x30]

/-- A number without needless zeros, which has a minus sign in front if it is below zero. -/
inductive IsCanonical : List UInt8 → Prop where
  | natural {digits : List UInt8} (h : IsNatural digits) : IsCanonical digits
  | negative {digits : List UInt8} (h : IsNatural digits) (hne : digits ≠ [0x30]) :
    IsCanonical (0x2d :: digits)

theorem isDigit_iff {b : UInt8} : isDigit b = true ↔ 0x30 ≤ b.toNat ∧ b.toNat ≤ 0x39 := by
  simp [isDigit, UInt8.le_iff_toNat_le]

theorem naturalValue_concat (digits : List UInt8) (b : UInt8) :
    naturalValue (digits ++ [b]) = 10 * naturalValue digits + (b.toNat - 0x30) := by
  simp [naturalValue]

section Natural

variable {digits : List UInt8}

theorem natural?_of_isNatural (h : IsNatural digits) :
    natural? digits = some (naturalValue digits) :=
  if_pos ⟨h.ne_nil, List.all_eq_true.2 h.isDigit⟩

theorem parse?_natural (h : IsNatural digits) :
    parse? digits = some (naturalValue digits : Int) := by
  obtain ⟨b, rest, rfl⟩ := List.exists_cons_of_ne_nil h.ne_nil
  have hb : b ≠ 0x2d := by
    rintro rfl
    exact absurd (h.isDigit 0x2d (by simp)) (by decide)
  simp [parse?, hb, natural?_of_isNatural h]

theorem parse?_negative (h : IsNatural digits) :
    parse? (0x2d :: digits) = some (-(naturalValue digits : Int)) := by
  simp [parse?, natural?_of_isNatural h]

theorem isNatural_singleton {b : UInt8} (hb : isDigit b = true) : IsNatural [b] where
  ne_nil := by simp
  isDigit := by simpa using hb
  lead := by simp

/-- One more digit can follow any number but zero. -/
theorem IsNatural.concat (h : IsNatural digits) (hvalue : naturalValue digits ≠ 0) {b : UInt8}
    (hb : Diagnostic.isDigit b = true) : IsNatural (digits ++ [b]) where
  ne_nil := by simp
  isDigit := by simpa [or_imp, forall_and, hb] using h.isDigit
  lead hhead := by
    obtain ⟨c, rest, rfl⟩ := List.exists_cons_of_ne_nil h.ne_nil
    rw [h.lead (by simpa using hhead)] at hvalue
    exact absurd rfl hvalue

/-- The digits before the last are a number of their own, and not zero. -/
theorem IsNatural.of_concat {b : UInt8} (h : IsNatural (digits ++ [b])) (hne : digits ≠ []) :
    IsNatural digits ∧ digits ≠ [0x30] := by
  have hlead : digits.head? ≠ some 0x30 := by
    obtain ⟨c, rest, rfl⟩ := List.exists_cons_of_ne_nil hne
    intro hhead
    have := congrArg List.length (h.lead (by simpa using hhead))
    simp at this
  refine ⟨⟨hne, fun c hc => h.isDigit c (by simp [hc]), fun hhead => absurd hhead hlead⟩, ?_⟩
  rintro rfl
  exact hlead rfl

theorem IsNatural.eq_zero (h : IsNatural digits) (hvalue : naturalValue digits = 0) :
    digits = [0x30] := by
  induction digits using List.reverseRecOn with
  | nil => exact absurd rfl h.ne_nil
  | append_singleton digits b ih =>
    rw [naturalValue_concat] at hvalue
    have hb := isDigit_iff.1 (h.isDigit b (by simp))
    rcases eq_or_ne digits [] with rfl | hne
    · have hzero : b = 0x30 := UInt8.toNat_inj.1 (show b.toNat = 0x30 by omega)
      rw [hzero, List.nil_append]
    · obtain ⟨hdigits, hpos⟩ := h.of_concat hne
      exact absurd (ih hdigits (by omega)) hpos

/-- No two numbers without needless zeros stand for the same. -/
theorem IsNatural.eq_of_naturalValue_eq {other : List UInt8} (h : IsNatural digits)
    (ho : IsNatural other) (heq : naturalValue digits = naturalValue other) : digits = other := by
  induction digits using List.reverseRecOn generalizing other with
  | nil => exact absurd rfl h.ne_nil
  | append_singleton digits b ih =>
    cases other using List.reverseRecOn with
    | nil => exact absurd rfl ho.ne_nil
    | append_singleton others c =>
      have hb := isDigit_iff.1 (h.isDigit b (by simp))
      have hc := isDigit_iff.1 (ho.isDigit c (by simp))
      simp only [naturalValue_concat] at heq
      have hlast : b = c := UInt8.toNat_inj.1 (by omega)
      have hinit : naturalValue digits = naturalValue others := by omega
      -- Before the last digit there is nothing or a number, which is not zero.
      rcases eq_or_ne digits [] with rfl | hne <;> rcases eq_or_ne others [] with rfl | hone
      · rw [hlast]
      · obtain ⟨hothers, hpos⟩ := ho.of_concat hone
        exact absurd (hothers.eq_zero hinit.symm) hpos
      · obtain ⟨hdigits, hpos⟩ := h.of_concat hne
        exact absurd (hdigits.eq_zero hinit) hpos
      · rw [ih (h.of_concat hne).1 (ho.of_concat hone).1 hinit, hlast]

end Natural

/-- No two canonical numerals stand for the same. -/
theorem IsCanonical.eq_of_parse?_eq {a b : List UInt8} (ha : IsCanonical a) (hb : IsCanonical b)
    (h : parse? a = parse? b) : a = b := by
  cases ha with
  | natural ha =>
    cases hb with
    | natural hb =>
      rw [parse?_natural ha, parse?_natural hb, Option.some.injEq] at h
      exact ha.eq_of_naturalValue_eq hb (by omega)
    | negative hb hne =>
      rw [parse?_natural ha, parse?_negative hb, Option.some.injEq] at h
      exact absurd (hb.eq_zero (by omega)) hne
  | negative ha hne =>
    cases hb with
    | natural hb =>
      rw [parse?_negative ha, parse?_natural hb, Option.some.injEq] at h
      exact absurd (ha.eq_zero (by omega)) hne
    | negative hb =>
      rw [parse?_negative ha, parse?_negative hb, Option.some.injEq] at h
      rw [ha.eq_of_naturalValue_eq hb (by omega)]

/-! ## Laying out digits -/

/-- The digit that is laid out for `n`. -/
theorem toNat_lastDigit (n : Nat) : (UInt8.ofNat (0x30 + n % 10)).toNat = 0x30 + n % 10 := by
  simp
  omega

/-- A number below `10 ^ count` takes at most `count` bytes of the room, whatever was laid out
before. -/
theorem exists_placeDigits {count n : Nat} (hcount : 0 < count) (hn : n < 10 ^ count) (spare : Nat)
    (tail : List UInt8) : ∃ digits,
      placeDigits (spare + count) n tail = some (spare + count - digits.length, digits ++ tail) ∧
      digits.length ≤ count ∧ IsNatural digits ∧ naturalValue digits = n := by
  induction count generalizing n tail with
  | zero => omega
  | succ count ih =>
    let last := UInt8.ofNat (0x30 + n % 10)
    have hlast : last.toNat = 0x30 + n % 10 := toNat_lastDigit n
    have hdigit : isDigit last = true := isDigit_iff.2 (by omega)
    rw [← Nat.add_assoc, placeDigits]
    by_cases hstop : n / 10 = 0
    · refine ⟨[last], by simp [hstop, last], by simp, isNatural_singleton hdigit, ?_⟩
      simp [naturalValue, hlast]
      omega
    · have hpow : 10 ^ (count + 1) = 10 ^ count * 10 := Nat.pow_succ ..
      have hcount : 0 < count := by
        rcases Nat.eq_zero_or_pos count with rfl | h
        · omega
        · exact h
      obtain ⟨digits, hplace, hlength, hnatural, hvalue⟩ :=
        ih hcount (n := n / 10) (by omega) (last :: tail)
      refine ⟨digits ++ [last], ?_, by simpa using hlength, hnatural.concat (by omega) hdigit, ?_⟩
      · simp only [hstop, if_false]
        rw [hplace]
        simp
      · rw [naturalValue_concat, hvalue, hlast]
        omega

/-! ## Numerals of words -/

theorem natAbs_lt (value : Int64) : value.toInt.natAbs < 10 ^ 19 := by
  have hlo : -2 ^ 63 ≤ value.toInt := Int64.le_toInt value
  have hhi : value.toInt < 2 ^ 63 := Int64.toInt_lt value
  omega

theorem placeSign_of_pos {room : Nat} (h : 0 < room) (tail : List UInt8) :
    placeSign room tail = some (0x2d :: tail) := by
  cases room with
  | zero => omega
  | succ room => rfl

/-- Every word has a numeral that fits the buffer; it is canonical and stands for the word. -/
theorem exists_numeral? (value : Int64) : ∃ bytes, numeral? value = some bytes ∧
    bytes.length ≤ bufferLength ∧ IsCanonical bytes ∧ parse? bytes = some value.toInt := by
  obtain ⟨digits, hplace, hlength, hnatural, hvalue⟩ :=
    exists_placeDigits (by decide) (natAbs_lt value) 1 []
  rw [List.append_nil] at hplace
  have hnumeral : numeral? value =
      if value < 0 then placeSign (1 + 19 - digits.length) digits else some digits :=
    congrArg (Option.bind · _) hplace
  by_cases hneg : value < 0
  · have hbelow : value.toInt < 0 := Int64.lt_iff_toInt_lt.1 hneg
    -- At most nineteen of the twenty bytes are taken, so that there is room for the sign.
    rw [if_pos hneg, placeSign_of_pos (by omega)] at hnumeral
    have hpos : digits ≠ [0x30] := by
      rintro rfl
      have hzero : naturalValue [0x30] = 0 := rfl
      omega
    refine ⟨_, hnumeral, Nat.succ_le_succ hlength, .negative hnatural hpos, ?_⟩
    rw [parse?_negative hnatural, Option.some.injEq]
    omega
  · have hnonneg : 0 ≤ value.toInt := Int64.le_iff_toInt_le.1 (Int64.not_lt.1 hneg)
    rw [if_neg hneg] at hnumeral
    refine ⟨_, hnumeral, Nat.le_succ_of_le hlength, .natural hnatural, ?_⟩
    rw [parse?_natural hnatural, Option.some.injEq]
    omega

/-- Every word is printed as the only canonical numeral that stands for it. Laying it out never
leaves the buffer, and no two words are printed alike. -/
theorem integer_canonical :
    (∀ value : Int64, numeral? value = some (integer value) ∧
      (integer value).length ≤ bufferLength ∧
      IsCanonical (integer value) ∧ parse? (integer value) = some value.toInt ∧
      ∀ bytes, IsCanonical bytes → parse? bytes = some value.toInt → bytes = integer value) ∧
    Function.Injective integer := by
  have hnumeral (value : Int64) : numeral? value = some (integer value) ∧
      (integer value).length ≤ bufferLength ∧ IsCanonical (integer value) ∧
      parse? (integer value) = some value.toInt := by
    obtain ⟨bytes, hbytes, h⟩ := exists_numeral? value
    obtain rfl : integer value = bytes := by simp [integer, hbytes]
    exact ⟨hbytes, h⟩
  refine ⟨fun value => ?_, fun a b h => ?_⟩
  · obtain ⟨hsome, hlength, hcanonical, hparse⟩ := hnumeral value
    refine ⟨hsome, hlength, hcanonical, hparse, fun bytes hbytes hvalue => ?_⟩
    exact hbytes.eq_of_parse?_eq hcanonical (hvalue.trans hparse.symm)
  · have hvalue : some a.toInt = some b.toInt := by
      rw [← (hnumeral a).2.2.2, ← (hnumeral b).2.2.2, h]
    exact Int64.toInt_inj.1 (Option.some.inj hvalue)

example : (integer Int64.minValue).length = bufferLength := by decide

end WordLang.Diagnostic
