import Mathlib.Data.FinEnum
import Mathlib.Data.LawfulXor.Basic
import Mathlib.Data.Nat.Prime.Basic
import Mathlib.Data.Set.Card
import Mathlib.Order.Interval.Finset.Nat
import WordLang.RandomSource

/-!
# Streams of random words

Nothing is lost on the way from a state to a word. A step combines a word three times with its own
shift, which can be undone because only zero is its own shift, and the multiplier is odd. So the
steps permute the states other than zero, every word is drawn from exactly one state, and the
streams of two seeds agree at one place only if they agree at all of them.
-/
namespace WordLang.RandomSource

open Function

/-- A request for a whole word, or for the top bits of one. -/
inductive Draw where
  | word
  | random
  deriving DecidableEq, Repr

/-- What is left of a source after a draw. -/
def Draw.run (r : RandomSource) : Draw → RandomSource
  | .word => r.next.2
  | .random => r.nextRandom.2

/-- What is left of a source after some draws, the first of the list first. -/
def after (r : RandomSource) (draws : List Draw) : RandomSource := draws.foldl Draw.run r

/-- The word that is drawn after `n` others. -/
def word (r : RandomSource) : Nat → UInt64
  | 0 => r.next.1
  | n + 1 => r.next.2.word n

/-! ## Operations that can be undone -/

section Injective

variable {x y k : UInt64}

theorem toNat_pos (hx : x ≠ 0) : 0 < x.toNat :=
  Nat.pos_of_ne_zero fun h => hx (UInt64.toNat_inj.1 h)

/-- An odd factor can be cancelled. -/
theorem eq_of_mul_odd_modEq {m : Nat} (hm : Odd m)
    (h : x.toNat * m ≡ y.toNat * m [MOD 2 ^ 64]) : x = y := by
  have hcoprime : Nat.Coprime (2 ^ 64) m := (Nat.coprime_two_left.2 hm).pow_left 64
  have hmod : x.toNat ≡ y.toNat [MOD 2 ^ 64] := h.cancel_right_of_coprime hcoprime
  exact UInt64.toNat_inj.1 (hmod.eq_of_lt_of_lt x.toNat_lt y.toNat_lt)

theorem mul_injective_of_odd {m : UInt64} (hm : Odd m.toNat) : Injective (· * m) := by
  intro x y h
  have heq := congrArg UInt64.toNat h
  simp only [UInt64.toNat_mul] at heq
  exact eq_of_mul_odd_modEq hm heq

theorem eq_zero_of_shiftRight_eq (hk : 0 < k.toNat % 64) (h : x >>> k = x) : x = 0 := by
  by_contra hx
  have hlt : x.toNat / 2 ^ (k.toNat % 64) < x.toNat :=
    Nat.div_lt_self (toNat_pos hx) (Nat.one_lt_two_pow hk.ne')
  have heq := congrArg UInt64.toNat h
  rw [UInt64.toNat_shiftRight, Nat.shiftRight_eq_div_pow] at heq
  omega

theorem eq_zero_of_shiftLeft_eq (hk : 0 < k.toNat % 64) (h : x <<< k = x) : x = 0 := by
  have heq := congrArg UInt64.toNat h
  rw [UInt64.toNat_shiftLeft, Nat.shiftLeft_eq] at heq
  -- The factor of the shift is even, so that it adds an odd multiple of `x`, which has to vanish.
  obtain ⟨m, hm⟩ : ∃ m, 2 ^ (k.toNat % 64) = m + 1 := Nat.exists_eq_add_one.2 (Nat.two_pow_pos _)
  have heven : Even (m + 1) := hm ▸ even_two.pow_of_ne_zero hk.ne'
  have hodd : Odd m := Nat.not_even_iff_odd.1 (Nat.even_add_one.1 heven)
  have hmod : x.toNat * m + x.toNat ≡ 0 + x.toNat [MOD 2 ^ 64] := by
    rw [← Nat.mul_add_one, ← hm, Nat.zero_add]
    exact heq.trans (Nat.mod_eq_of_lt x.toNat_lt).symm
  exact eq_of_mul_odd_modEq hodd (by simpa using hmod.add_right_cancel' x.toNat)

/-- If two words agree once each is combined with its image, then `f` keeps their difference. -/
theorem xor_injective_of_linear {f : UInt64 → UInt64}
    (hxor : ∀ x y, f (x ^^^ y) = f x ^^^ f y) (hfix : ∀ x, f x = x → x = 0) :
    Injective fun x => x ^^^ f x := by
  intro x y (h : x ^^^ f x = y ^^^ f y)
  have hdiff : f (x ^^^ y) = x ^^^ y :=
    calc f (x ^^^ y) = f x ^^^ f y := hxor x y
      _ = x ^^^ (x ^^^ f x) ^^^ f y := by rw [xor_cancel_left]
      _ = x ^^^ y := by rw [h, ← xor_assoc, xor_cancel_right]
  exact xor_eq_zero_iff.1 (hfix _ hdiff)

theorem xor_shiftRight_injective (hk : 0 < k.toNat % 64) :
    Injective fun x : UInt64 => x ^^^ x >>> k :=
  xor_injective_of_linear (fun _ _ => UInt64.shiftRight_xor) fun _ => eq_zero_of_shiftRight_eq hk

theorem xor_shiftLeft_injective (hk : 0 < k.toNat % 64) :
    Injective fun x : UInt64 => x ^^^ x <<< k :=
  xor_injective_of_linear (fun _ _ => UInt64.shiftLeft_xor) fun _ => eq_zero_of_shiftLeft_eq hk

end Injective

theorem step_injective : Injective step :=
  (xor_shiftRight_injective (k := 27) (by decide)).comp
    ((xor_shiftLeft_injective (k := 25) (by decide)).comp
      (xor_shiftRight_injective (k := 12) (by decide)))

theorem step_eq_zero_iff {x : UInt64} : step x = 0 ↔ x = 0 := step_injective.eq_iff' rfl

theorem mul_multiplier_injective : Injective (· * multiplier) := mul_injective_of_odd (by decide)

/-! ## Runs -/

theorem Draw.state_run (r : RandomSource) (draw : Draw) : (draw.run r).state = step r.state := by
  cases draw <;> rfl

theorem state_after_ne_zero {r : RandomSource} (hr : r.state ≠ 0) (draws : List Draw) :
    (r.after draws).state ≠ 0 := by
  induction draws generalizing r with
  | nil => exact hr
  | cons draw draws ih =>
    have hstep : (draw.run r).state ≠ 0 := by simpa [Draw.state_run, step_eq_zero_iff] using hr
    exact ih hstep

theorem word_eq (r : RandomSource) (n : Nat) : r.word n = step^[n + 1] r.state * multiplier := by
  induction n generalizing r with
  | zero => rfl
  | succ n ih => exact ih r.next.2

theorem word_eq_word_iff {r s : RandomSource} {n : Nat} :
    r.word n = s.word n ↔ r.state = s.state := by
  rw [word_eq, word_eq]
  exact (mul_multiplier_injective.comp (step_injective.iterate (n + 1))).eq_iff

/-! ## Seeds -/

theorem defaultSeed_ne_zero : defaultSeed ≠ 0 := by decide

theorem state_ofSeed_ne_zero (seed : UInt64) : (ofSeed seed).state ≠ 0 := by
  by_cases h : seed ^^^ defaultSeed = 0
  · simp [ofSeed, h, defaultSeed_ne_zero]
  · simp [ofSeed, h]

/-- Only the seed that would give the state zero shares its state with another. -/
theorem state_ofSeed_eq_iff {s t : UInt64} : (ofSeed s).state = (ofSeed t).state ↔
    s = t ∨ ({s, t} : Set UInt64) = {0, defaultSeed} := by
  simp only [ofSeed, xor_eq_zero_iff, Set.pair_eq_pair_iff]
  have hshift (u : UInt64) : u ^^^ defaultSeed = defaultSeed ↔ u = 0 := by
    rw [xor_eq_iff_left_eq, LawfulXor.xor_self]
  by_cases hs : s = defaultSeed <;> by_cases ht : t = defaultSeed
  · simp [hs, ht]
  · simp [hs, ht, eq_comm (a := defaultSeed), hshift]
  · simp [hs, ht, defaultSeed_ne_zero, hshift]
  · simp [hs, ht, (xor_left_involutive defaultSeed).injective.eq_iff]

example : ofSeed 0 = ofSeed defaultSeed := by decide

/-- The streams of two seeds differ at every place, unless the seeds are equal or are the two that
give the default state. -/
theorem word_ofSeed_eq_iff (s t : UInt64) (n : Nat) :
    (ofSeed s).word n = (ofSeed t).word n ↔
      s = t ∨ ({s, t} : Set UInt64) = {0, 0x9E3779B97F4A7C15} :=
  word_eq_word_iff.trans state_ofSeed_eq_iff

/-! ## How often a value is drawn -/

theorem toInt_nextRandom (r : RandomSource) :
    r.nextRandom.1.toInt = (r.next.1.toNat / 2 ^ 33 : Nat) := by
  have htop : (r.next.1 >>> 33).toNat = r.next.1.toNat / 2 ^ 33 := by
    rw [UInt64.toNat_shiftRight, Nat.shiftRight_eq_div_pow]
    rfl
  have hlt := r.next.1.toNat_lt
  rw [← htop]
  exact BitVec.toInt_eq_toNat_of_lt (show 2 * (r.next.1 >>> 33).toNat < 2 ^ 64 by omega)

theorem next_bijective : Bijective fun x : UInt64 => (next ⟨x⟩).1 :=
  Finite.injective_iff_bijective.1 (mul_multiplier_injective.comp step_injective)

theorem next_eq_zero_iff {x : UInt64} : (next ⟨x⟩).1 = 0 ↔ x = 0 :=
  next_bijective.injective.eq_iff' rfl

/-- How many words other than zero have the top bits `v`. -/
theorem ncard_words {v : Nat} (hv : v < 2 ^ 31) :
    {w : UInt64 | w ≠ 0 ∧ w.toNat / 2 ^ 33 = v}.ncard =
      (v + 1) * 2 ^ 33 - max 1 (v * 2 ^ 33) := by
  have hinj : Injective UInt64.toNat := fun _ _ => UInt64.toNat_inj.1
  have himage : UInt64.toNat '' {w : UInt64 | w ≠ 0 ∧ w.toNat / 2 ^ 33 = v} =
      (Finset.Ico (max 1 (v * 2 ^ 33)) ((v + 1) * 2 ^ 33) : Set Nat) := by
    ext n
    simp only [Set.mem_image, Set.mem_ofPred_eq, Finset.coe_Ico, Set.mem_Ico, max_le_iff]
    constructor
    · rintro ⟨w, ⟨hw, rfl⟩, rfl⟩
      have hpos := toNat_pos hw
      omega
    · rintro ⟨⟨hpos, hlo⟩, hhi⟩
      have hn : (UInt64.ofNat n).toNat = n := UInt64.toNat_ofNat_of_lt' (show n < 2 ^ 64 by omega)
      refine ⟨UInt64.ofNat n, ⟨fun h0 => ?_, by omega⟩, hn⟩
      have hzero : n = 0 := hn.symm.trans (congrArg UInt64.toNat h0)
      omega
  rw [← Set.ncard_image_of_injective _ hinj, himage, Set.ncard_coe_finset, Nat.card_Ico]

/-- Since words and states correspond, so many states other than zero give the value `v`. -/
theorem ncard_states {v : Int64} (hlo : 0 ≤ v.toInt) (hhi : v.toInt < 2 ^ 31) :
    {x : UInt64 | x ≠ 0 ∧ (nextRandom ⟨x⟩).1 = v}.ncard =
      (v.toInt.toNat + 1) * 2 ^ 33 - max 1 (v.toInt.toNat * 2 ^ 33) := by
  have hstates : {x : UInt64 | x ≠ 0 ∧ (nextRandom ⟨x⟩).1 = v} =
      Set.preimage (fun x => (next ⟨x⟩).1) {w | w ≠ 0 ∧ w.toNat / 2 ^ 33 = v.toInt.toNat} := by
    ext x
    have hvalue : (nextRandom ⟨x⟩).1 = v ↔ (next ⟨x⟩).1.toNat / 2 ^ 33 = v.toInt.toNat := by
      rw [← Int64.toInt_inj, toInt_nextRandom]
      omega
    simp [hvalue, next_eq_zero_iff]
  rw [hstates, Set.ncard_preimage_of_injective_subset_range next_bijective.injective
    (by simp [next_bijective.surjective.range_eq])]
  exact ncard_words (by omega)

/-- No source that was made from a seed comes to the state zero, whatever is drawn from it. Draws
permute the other states, and the values of bounded draws are spread over these as evenly as can
be. -/
theorem uniform_over_states :
    (∀ (seed : UInt64) (draws : List Draw), ((ofSeed seed).after draws).state ≠ 0) ∧
    Set.BijOn (fun x : UInt64 => (next ⟨x⟩).2.state) {x | x ≠ 0} {x | x ≠ 0} ∧
    (∀ r : RandomSource, 0 ≤ r.nextRandom.1.toInt ∧ r.nextRandom.1.toInt ≤ 2 ^ 31 - 1) ∧
    (∀ v : Int64, 1 ≤ v.toInt → v.toInt ≤ 2 ^ 31 - 1 →
      {x : UInt64 | x ≠ 0 ∧ (nextRandom ⟨x⟩).1 = v}.ncard = 2 ^ 33) ∧
    {x : UInt64 | x ≠ 0 ∧ (nextRandom ⟨x⟩).1 = 0}.ncard = 2 ^ 33 - 1 := by
  refine ⟨fun seed => state_after_ne_zero (state_ofSeed_ne_zero seed), ?_, fun r => ?_,
    fun v hlo hhi => ?_, ?_⟩
  · have hsurj : Surjective step := Finite.injective_iff_surjective.1 step_injective
    refine ⟨fun x hx => mt step_eq_zero_iff.1 hx, step_injective.injOn, fun y hy => ?_⟩
    obtain ⟨x, rfl⟩ := hsurj y
    exact ⟨x, mt step_eq_zero_iff.2 hy, rfl⟩
  · have hlt := r.next.1.toNat_lt
    rw [toInt_nextRandom]
    omega
  · rw [ncard_states (by omega) (by omega)]
    omega
  · rw [ncard_states (by decide) (by decide)]
    rfl

end WordLang.RandomSource
