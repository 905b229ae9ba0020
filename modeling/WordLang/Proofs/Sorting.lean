import Mathlib.Order.Bounds.Basic
import WordLang.WordList

/-!
# Sorting and searching lists

Sorting a list is determined by what comes out: the elements of the list, none lost and none added,
in the order of signed words. What sorting twice and sorting a merged list give is read off this,
and so is the place at which a search finds a word in a sorted list.
-/
namespace WordLang

namespace WordList

variable {l m : WordList} {v : Int64} {k : Nat}

/-- `m` has the elements of `l`, smaller ones first. -/
structure IsSortOf (m l : WordList) : Prop where
  ordered : m.items.Pairwise fun a b => a.toInt ≤ b.toInt
  perm : m.items.Perm l.items

/-- Elements of `l` that are smaller than `v`. -/
def countBelow (l : WordList) (v : Int64) : Nat := l.items.countP fun a => a.toInt < v.toInt

/-! ## Sorting -/

theorem sort_isSortOf (l : WordList) : l.sort.IsSortOf l := by
  refine ⟨?_, List.mergeSort_perm ..⟩
  have htrans (a b c : Int64) (hab : decide (a ≤ b) = true) (hbc : decide (b ≤ c) = true) :
      decide (a ≤ c) = true :=
    decide_eq_true (Int64.le_trans (of_decide_eq_true hab) (of_decide_eq_true hbc))
  have htotal (a b : Int64) : (decide (a ≤ b) || decide (b ≤ a)) = true := by
    simpa using Int64.le_total a b
  refine (List.pairwise_mergeSort htrans htotal l.items).imp fun h => ?_
  exact Int64.le_iff_toInt_le.1 (of_decide_eq_true h)

/-- Elements and order leave no choice. -/
theorem IsSortOf.unique {s t : WordList} (hs : s.IsSortOf l) (ht : t.IsSortOf l) : s = t := by
  have hitems : s.items = t.items :=
    List.Perm.eq_of_pairwise (fun a b _ _ hab hba => Int64.toInt_inj.1 (Int.le_antisymm hab hba))
      hs.ordered ht.ordered (hs.perm.trans ht.perm.symm)
  exact congrArg WordList.mk hitems

theorem isSortOf_iff {s : WordList} : s.IsSortOf l ↔ s = l.sort :=
  ⟨fun h => h.unique l.sort_isSortOf, fun h => h ▸ l.sort_isSortOf⟩

/-- Lists with the same elements are sorted alike. -/
theorem sort_eq_of_perm (h : l.items.Perm m.items) : l.sort = m.sort :=
  isSortOf_iff.1 ⟨l.sort_isSortOf.ordered, l.sort_isSortOf.perm.trans h⟩

theorem sort_sort (l : WordList) : l.sort.sort = l.sort := sort_eq_of_perm l.sort_isSortOf.perm

theorem sort_merge_comm (l m : WordList) : (l.merge m).sort = (m.merge l).sort :=
  sort_eq_of_perm List.perm_append_comm

/-! ## Searching -/

theorem find?_eq_some_iff_isLeast : l.find? v = some k ↔ IsLeast {i | l.items[i]? = some v} k := by
  rw [find?, List.idxOf?_eq_some_iff]
  constructor
  · rintro ⟨hk, hv, hfirst⟩
    refine ⟨List.getElem?_eq_some_iff.2 ⟨hk, hv⟩, fun j hj => ?_⟩
    obtain ⟨_, hj⟩ := List.getElem?_eq_some_iff.1 hj
    exact Nat.le_of_not_lt fun hlt => hfirst j hlt hj
  · rintro ⟨hk, hleast⟩
    obtain ⟨hk, hv⟩ := List.getElem?_eq_some_iff.1 hk
    refine ⟨hk, hv, fun j hlt hj => ?_⟩
    exact Nat.not_le_of_lt hlt (hleast (List.getElem?_eq_some_iff.2 ⟨Nat.lt_trans hlt hk, hj⟩))

theorem find?_eq_none_iff_not_mem : l.find? v = none ↔ v ∉ l.items := List.idxOf?_eq_none_iff

/-- Among ordered elements, exactly the smaller ones stand before the first that is equal. -/
theorem idxOf?_of_ordered {items : List Int64}
    (h : items.Pairwise fun a b => a.toInt ≤ b.toInt) (hv : v ∈ items) :
    items.idxOf? v = some (items.countP fun a => a.toInt < v.toInt) := by
  induction items with
  | nil => cases hv
  | cons a items ih =>
    obtain ⟨hhead, htail⟩ := List.pairwise_cons.1 h
    rw [List.idxOf?_cons]
    by_cases hav : a = v
    · subst hav
      have hnone : (items.countP fun b => b.toInt < a.toInt) = 0 := by
        simpa [List.countP_eq_zero] using hhead
      simp [hnone]
    · have hmem : v ∈ items := (List.mem_cons.1 hv).resolve_left (Ne.symm hav)
      have hlt : a.toInt < v.toInt :=
        Int.lt_iff_le_and_ne.2 ⟨hhead v hmem, fun he => hav (Int64.toInt_inj.1 he)⟩
      simp [hav, hlt, ih htail hmem]

theorem find?_sort (l : WordList) (v : Int64) :
    l.sort.find? v = if v ∈ l.items then some (l.countBelow v) else none := by
  obtain ⟨hordered, hperm⟩ := l.sort_isSortOf
  split
  case isTrue hv =>
    rw [find?, idxOf?_of_ordered hordered (hperm.mem_iff.2 hv), countBelow, hperm.countP_eq]
  case isFalse hv =>
    exact find?_eq_none_iff_not_mem.2 fun h => hv (hperm.mem_iff.1 h)

/-! ## Reversing -/

theorem reverse_merge (l m : WordList) : (l.merge m).reverse = m.reverse.merge l.reverse := by
  simp [merge, reverse]

theorem reverse_reverse (l : WordList) : l.reverse.reverse = l := by
  simp [reverse]

/-- Sorting gives the one list that has the same elements in non-decreasing order, so it does no
more the second time and does not depend on the order of merging. A search finds the least place of
a word, in a sorted list the number of smaller elements. Merging puts one list behind the other, and
reversing undoes itself and reverses the order of merging. -/
theorem sort_find_reverse_laws (l m : WordList) (v : Int64) :
    (∀ s : WordList, s.IsSortOf l ↔ s = l.sort) ∧
    l.sort.sort = l.sort ∧
    (l.merge m).sort = (m.merge l).sort ∧
    l.sort.find? v = (if v ∈ l.items then some (l.countBelow v) else none) ∧
    (∀ k, l.find? v = some k ↔ IsLeast {i | l.items[i]? = some v} k) ∧
    (l.find? v = none ↔ v ∉ l.items) ∧
    (l.merge m).items = l.items ++ m.items ∧
    (l.merge m).reverse = m.reverse.merge l.reverse ∧
    l.reverse.reverse = l :=
  ⟨fun _ => isSortOf_iff, l.sort_sort, l.sort_merge_comm m, l.find?_sort v,
    fun _ => find?_eq_some_iff_isLeast, find?_eq_none_iff_not_mem, rfl, l.reverse_merge m,
    l.reverse_reverse⟩

end WordList

end WordLang
