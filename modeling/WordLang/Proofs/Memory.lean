import Mathlib.Algebra.Group.Nat.Defs

/-!
# Words and memory

Memory is a byte for each 64-bit address. A word takes eight bytes, its low byte first.
-/
namespace WordLang

abbrev Word := BitVec 64

/-- A byte for each address. -/
abbrev Memory := Word → BitVec 8

namespace Memory

/-- The word at an address. -/
def load (m : Memory) (a : Word) : Word :=
  m (a + 7) ++ m (a + 6) ++ m (a + 5) ++ m (a + 4) ++ m (a + 3) ++ m (a + 2) ++ m (a + 1) ++ m a

/-- The memory with the word `v` at the address `a`. -/
def store (m : Memory) (a v : Word) : Memory := fun x =>
  if (x - a).toNat < 8 then v.extractLsb' (8 * (x - a).toNat) 8 else m x

@[simp] theorem load_store (m : Memory) (a v : Word) : (m.store a v).load a = v := by
  have hbyte (i : Word) (start : Nat) (hs : start = 8 * i.toNat) (hi : i.toNat < 8) :
      m.store a v (a + i) = v.extractLsb' start 8 := by
    have hsub : a + i - a = i := by rw [BitVec.add_comm, BitVec.add_sub_cancel]
    simp [store, hsub, hi, hs]
  have hzero : m.store a v a = v.extractLsb' 0 8 := by simp [store]
  have hjoin {start count : Nat} :
      v.extractLsb' (start + 8) count ++ v.extractLsb' start 8 = v.extractLsb' start (count + 8) :=
    BitVec.extractLsb'_append_extractLsb'_eq_extractLsb' rfl
  unfold load
  rw [hbyte 7 (48 + 8) rfl (by decide), hbyte 6 (40 + 8) rfl (by decide),
    hbyte 5 (32 + 8) rfl (by decide), hbyte 4 (24 + 8) rfl (by decide),
    hbyte 3 (16 + 8) rfl (by decide), hbyte 2 (8 + 8) rfl (by decide),
    hbyte 1 (0 + 8) rfl (by decide), hzero]
  rw [hjoin, hjoin, hjoin, hjoin, hjoin, hjoin, hjoin]
  exact BitVec.extractLsb'_eq_self

/-- A store changes no byte outside the word. -/
theorem store_of_outside (m : Memory) {a x : Word} (v : Word) (ha : a.toNat + 8 ≤ 2 ^ 64)
    (h : x.toNat < a.toNat ∨ a.toNat + 8 ≤ x.toNat) : m.store a v x = m x := by
  have hsub : ¬ (x - a).toNat < 8 := by
    rw [BitVec.toNat_sub]
    have := x.isLt
    omega
  rw [store, if_neg hsub]

/-- Memories that agree on a range of addresses hold the same words in it. -/
theorem load_congr {m m' : Memory} {low high : Nat}
    (h : ∀ x : Word, low ≤ x.toNat → x.toNat < high → m' x = m x) {a : Word}
    (hl : low ≤ a.toNat) (hh : a.toNat + 8 ≤ high) (hw : a.toNat + 8 ≤ 2 ^ 64) :
    m'.load a = m.load a := by
  have hbyte (i : Word) (hi : i.toNat < 8) : m' (a + i) = m (a + i) := by
    have hadd : (a + i).toNat = a.toNat + i.toNat := by
      rw [BitVec.toNat_add]
      omega
    exact h _ (by omega) (by omega)
  have hzero : m' a = m a := h a hl (by omega)
  unfold load
  rw [hbyte 7 (by decide), hbyte 6 (by decide), hbyte 5 (by decide), hbyte 4 (by decide),
    hbyte 3 (by decide), hbyte 2 (by decide), hbyte 1 (by decide), hzero]

/-- Words that do not overlap are independent. -/
theorem load_store_of_disjoint (m : Memory) {a b : Word} (v : Word) (ha : a.toNat + 8 ≤ 2 ^ 64)
    (hb : b.toNat + 8 ≤ 2 ^ 64) (h : a.toNat + 8 ≤ b.toNat ∨ b.toNat + 8 ≤ a.toNat) :
    (m.store a v).load b = m.load b :=
  load_congr (fun x hl hh => store_of_outside m v ha (by omega)) (Nat.le_refl _) (Nat.le_refl _) hb

/-- The words at an address and above it, the lowest first. -/
def Stack (m : Memory) : Word → List Word → Prop
  | _, [] => True
  | a, w :: ws => m.load a = w ∧ Stack m (a + 8) ws

theorem Stack.congr {m m' : Memory} {a : Word} {ws : List Word} (h : m.Stack a ws)
    (hw : a.toNat + ws.length * 8 < 2 ^ 64)
    (hm : ∀ x : Word, a.toNat ≤ x.toNat → x.toNat < a.toNat + ws.length * 8 → m' x = m x) :
    m'.Stack a ws := by
  induction ws generalizing a with
  | nil => trivial
  | cons w ws ih =>
    simp only [List.length_cons] at hw hm
    have hnext : (a + 8).toNat = a.toNat + 8 := BitVec.toNat_add_of_lt (by simp; omega)
    refine ⟨(load_congr hm (Nat.le_refl _) (by omega) (by omega)).trans h.1, ih h.2 (by omega) ?_⟩
    intro x hl hh
    exact hm x (by omega) (by omega)

/-- More words above the others. -/
theorem Stack.append {m : Memory} {a : Word} {ws ws' : List Word} (h : m.Stack a ws)
    (h' : m.Stack (a + BitVec.ofNat 64 (ws.length * 8)) ws') : m.Stack a (ws ++ ws') := by
  induction ws generalizing a with
  | nil => simpa using h'
  | cons w ws ih =>
    refine ⟨h.1, ih h.2 ?_⟩
    rw [List.length_cons, Nat.add_mul, Nat.one_mul, Nat.add_comm, BitVec.ofNat_add,
      ← BitVec.add_assoc] at h'
    exact h'

end Memory

end WordLang
