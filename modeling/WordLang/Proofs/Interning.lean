import WordLang.Proofs.DataSection

/-!
# String literals in the pool

A pool takes literals in one after another and refuses new ones once it is full. What it holds then
is known without running it: the distinct literals in the order of their first occurrence, as many
as there is room for. The number that a literal is given is its place there.
-/
namespace WordLang

open Asm

namespace StringPool

variable {pool : StringPool} {value : String}

/-- The pool after an insertion, which changes nothing if it is refused. -/
def add (pool : StringPool) (value : String) : StringPool :=
  match pool.insert value with
  | .ok (_, pool') => pool'
  | .error _ => pool

/-- A new pool after literals were inserted one after another, some of them in vain. -/
def filled (capacity : Nat) (values : List String) : StringPool := values.foldl add { capacity }

/-! ## One insertion -/

theorem add_eq_ite (pool : StringPool) (value : String) :
    pool.add value =
      if value ∈ pool.entries ∨ pool.capacity ≤ pool.entries.length then pool
      else { pool with entries := pool.entries ++ [value] } := by
  unfold add insert
  cases hi : pool.entries.idxOf? value with
  | some i =>
    have hm : value ∈ pool.entries := List.isSome_idxOf?.1 (by simp [hi])
    simp [hm]
  | none =>
    have hm : value ∉ pool.entries := List.idxOf?_eq_none_iff.1 hi
    by_cases hfull : pool.capacity ≤ pool.entries.length <;> simp [size, hm, hfull]

theorem capacity_add (pool : StringPool) (value : String) :
    (pool.add value).capacity = pool.capacity := by
  rw [add_eq_ite]
  split <;> rfl

/-- A literal that is in the pool afterwards is given its place, and any other is refused. -/
theorem insert_eq_ite (pool : StringPool) (value : String) :
    pool.insert value =
      if value ∈ (pool.add value).entries then
        .ok ((pool.add value).entries.idxOf value, pool.add value)
      else .error (.tooManyStrings pool.capacity) := by
  cases h : pool.insert value with
  | ok result =>
    have hadd : pool.add value = result.2 := by simp [add, h]
    rw [hadd, if_pos (List.mem_of_getElem? (getElem?_of_insert h)),
      idxOf_of_insert h List.prefix_rfl]
  | error e =>
    have hadd : pool.add value = pool := by simp [add, h]
    obtain ⟨hn, rfl⟩ := insert_eq_error h
    rw [hadd, if_neg hn]

/-- A literal that is there already is never refused. -/
theorem insert_of_mem (h : value ∈ pool.entries) :
    pool.insert value = .ok (pool.entries.idxOf value, pool) := by
  have hadd : pool.add value = pool := by rw [add_eq_ite, if_pos (.inl h)]
  rw [insert_eq_ite, hadd, if_pos h]

/-- Lowering leaves its pool as an insertion does, refused or not. -/
theorem pool_of_intern (s : Lowering) (value : String) :
    (outcome (Lower.intern value) s).2.pool = s.pool.add value := by
  cases h : s.pool.insert value with
  | ok result =>
    obtain ⟨log, hruns⟩ := Lower.exists_runs_intern h
    simp [show outcome (Lower.intern value) s = _ from hruns, add, h]
  | error e => simp [Lower.outcome_intern_of_error h, add, h]

/-! ## Insertions one after another -/

theorem filled_concat (capacity : Nat) (values : List String) (value : String) :
    filled capacity (values ++ [value]) = (filled capacity values).add value := by
  simp [filled]

theorem capacity_filled (capacity : Nat) (values : List String) :
    (filled capacity values).capacity = capacity := by
  induction values using List.reverseRecOn with
  | nil => rfl
  | append_singleton values value ih => rw [filled_concat, capacity_add, ih]

theorem eraseDups_concat (values : List String) (value : String) :
    (values ++ [value]).eraseDups = addTo values.eraseDups value := by
  rw [← foldl_addTo_nil, ← foldl_addTo_nil, List.foldl_append, List.foldl_cons, List.foldl_nil]

/-- Literals that are cut off at the capacity could not have been taken in later. -/
theorem take_addTo (entries : List String) (value : String) (capacity : Nat) :
    (addTo entries value).take capacity =
      if value ∈ entries.take capacity ∨ capacity ≤ (entries.take capacity).length then
        entries.take capacity
      else entries.take capacity ++ [value] := by
  rw [List.length_take]
  by_cases hlt : entries.length < capacity
  · have hwhole : entries.take capacity = entries := List.take_of_length_le (Nat.le_of_lt hlt)
    have hroom : ¬capacity ≤ min capacity entries.length := by omega
    rw [hwhole, addTo]
    by_cases hm : value ∈ entries
    · simp [hm, hwhole]
    · simp only [hm, hroom, or_self, if_false]
      exact List.take_of_length_le (by simpa using Nat.succ_le_of_lt hlt)
  · have hfull : capacity ≤ min capacity entries.length := by omega
    rw [if_pos (.inr hfull), addTo]
    split
    · rfl
    · rw [List.take_append_of_le_length (Nat.not_lt.1 hlt)]

theorem entries_filled (capacity : Nat) (values : List String) :
    (filled capacity values).entries = values.eraseDups.take capacity := by
  induction values using List.reverseRecOn with
  | nil => simp [filled]
  | append_singleton values value ih =>
    rw [filled_concat, eraseDups_concat, take_addTo, add_eq_ite, capacity_filled, ih]
    split
    · exact ih
    · rfl

theorem nodup_filled (capacity : Nat) (values : List String) :
    (filled capacity values).entries.Nodup := by
  induction values using List.reverseRecOn with
  | nil => simp [filled]
  | append_singleton values value ih =>
    rw [filled_concat, add_eq_ite]
    split
    case isTrue => exact ih
    case isFalse hnew => simpa using ih.concat fun hm => hnew (.inl hm)

theorem entries_filled_append (capacity : Nat) (values more : List String) :
    (filled capacity values).entries <+: (filled capacity (values ++ more)).entries := by
  induction more using List.reverseRecOn with
  | nil => simp
  | append_singleton more value ih =>
    refine ih.trans ?_
    rw [← List.append_assoc, filled_concat, add_eq_ite]
    split
    · exact List.prefix_rfl
    · exact List.prefix_append _ _

/-- A pool holds the first distinct literals, as many as it has room for. An insertion gives a
literal its place among them, or is refused and changes nothing. A literal keeps its number, and is
found under it, from then on; numbers have different labels. -/
theorem filled_closed_form (capacity : Nat) (values : List String) (value : String) :
    (filled capacity values).entries = values.eraseDups.take capacity ∧
    ((filled capacity values).insert value =
      if value ∈ (values ++ [value]).eraseDups.take capacity then
        .ok (((values ++ [value]).eraseDups.take capacity).idxOf value,
          filled capacity (values ++ [value]))
      else .error (.tooManyStrings capacity)) ∧
    (value ∉ (values ++ [value]).eraseDups.take capacity →
      filled capacity (values ++ [value]) = filled capacity values) ∧
    (∀ more, value ∈ (filled capacity values).entries →
      (filled capacity (values ++ more)).insert value =
        .ok ((filled capacity values).entries.idxOf value, filled capacity (values ++ more))) ∧
    (∀ index pool, (filled capacity values).insert value = .ok (index, pool) →
      ∀ more, (filled capacity (values ++ value :: more)).get? index = some value) ∧
    (∀ index, (filled capacity values).get? index = some value →
      (filled capacity values).insert value = .ok (index, filled capacity values)) ∧
    Function.Injective stringLabel ∧
    ∀ s : Lowering, s.pool = filled capacity values →
      (outcome (Lower.intern value) s).2.pool = filled capacity (values ++ [value]) := by
  have hentries := entries_filled capacity (values ++ [value])
  have hinsert := insert_eq_ite (filled capacity values) value
  rw [← filled_concat, hentries, capacity_filled] at hinsert
  refine ⟨entries_filled capacity values, hinsert, fun hn => ?_, fun more hm => ?_,
    fun index pool h more => ?_, fun index h => ?_, DataImage.stringLabel_injective, fun s hs => ?_⟩
  · rw [if_neg hn] at hinsert
    rw [filled_concat, add, hinsert]
  · have hgrow := entries_filled_append capacity values more
    rw [insert_of_mem (hgrow.subset hm), hgrow.idxOf_eq_of_mem hm]
  · have hpool : pool = filled capacity (values ++ [value]) := by
      rw [filled_concat, add, h]
    have hgrow := entries_filled_append capacity (values ++ [value]) more
    rw [List.append_assoc, List.singleton_append, ← hpool] at hgrow
    obtain ⟨hlt, hvalue⟩ := List.getElem?_eq_some_iff.1 (getElem?_of_insert h)
    rw [get?, List.prefix_iff_getElem?.1 hgrow index hlt, hvalue]
  · obtain ⟨hlt, rfl⟩ := List.getElem?_eq_some_iff.1 h
    rw [insert_of_mem (List.getElem_mem hlt), (nodup_filled capacity values).idxOf_getElem]
  · rw [pool_of_intern, hs, filled_concat]

end StringPool

end WordLang
