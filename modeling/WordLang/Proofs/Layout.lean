import Mathlib.Algebra.GroupWithZero.Nat
import WordLang.Proofs.Run

/-!
# Layout of variables in a frame

Each variable of a frame takes the slots directly below those of the variables declared before it.
So every word of a variable has a slot of its own, all slots lie between the frame pointer and the
end of the frame, and a variable keeps its slots when further variables are declared.
-/
namespace WordLang

open Asm

namespace Table

variable {α : Type}

@[simp] theorem find?_append_singleton (t : Table α) (key name : String) (value : α) :
    (t ++ [(key, value)] : Table α).find? name =
      (t.find? name).or (if key = name then some value else none) := by
  induction t with
  | nil => simp [find?]
  | cons entry t ih =>
    obtain ⟨k, v⟩ := entry
    simp only [List.cons_append, find?]
    split_ifs <;> simp_all

theorem find?_append_of_some {t u : Table α} {name : String} {value : α}
    (h : t.find? name = some value) : (t ++ u : Table α).find? name = some value := by
  induction t with
  | nil => simp [find?] at h
  | cons entry t ih =>
    obtain ⟨k, v⟩ := entry
    simp only [List.cons_append, find?] at h ⊢
    split_ifs at h ⊢
    · exact h
    · exact ih h

/-- A value found in a table is found in every longer one. -/
theorem find?_of_prefix {t u : Table α} (h : t <+: u) {name : String} {value : α}
    (hf : t.find? name = some value) : u.find? name = some value := by
  obtain ⟨rest, rfl⟩ := h
  exact find?_append_of_some hf

theorem find?_isSome_iff {t : Table α} {name : String} :
    (t.find? name).isSome ↔ name ∈ t.map Prod.fst := by
  induction t with
  | nil => simp [find?]
  | cons entry t ih =>
    obtain ⟨k, v⟩ := entry
    simp only [find?, List.map_cons, List.mem_cons]
    split_ifs with h
    · simp [h]
    · rw [ih]
      simp [Ne.symm h]

theorem find?_eq_none_iff {t : Table α} {name : String} :
    t.find? name = none ↔ name ∉ t.map Prod.fst := by
  rw [← find?_isSome_iff]
  simp

theorem contains_iff {t : Table α} {name : String} :
    t.contains name = true ↔ name ∈ t.map Prod.fst := find?_isSome_iff

theorem mem_of_find? {t : Table α} {name : String} {value : α} (h : t.find? name = some value) :
    (name, value) ∈ t := by
  induction t with
  | nil => simp [find?] at h
  | cons entry t ih =>
    obtain ⟨k, v⟩ := entry
    simp only [find?] at h
    split_ifs at h with hk
    · simp_all
    · exact .tail _ (ih h)

theorem find?_of_mem {t : Table α} (hd : (t.map Prod.fst).Nodup) {name : String}
    {value : α} (h : (name, value) ∈ t) : t.find? name = some value := by
  induction t with
  | nil => cases h
  | cons entry t ih =>
    obtain ⟨key, found⟩ := entry
    obtain ⟨hk, hd⟩ := List.nodup_cons.1 hd
    rcases List.mem_cons.1 h with h | h
    · simp_all [find?]
    · have : key ≠ name := fun he => hk (List.mem_map.2 ⟨_, h, he.symm⟩)
      simp [find?, this, ih hd h]

/-- A new name goes to the end. -/
theorem put_of_find?_eq_none {t : Table α} {name : String} (h : t.find? name = none) (value : α) :
    t.put name value = t ++ [(name, value)] := by
  induction t with
  | nil => rfl
  | cons entry t ih =>
    obtain ⟨k, v⟩ := entry
    simp only [find?] at h
    split_ifs at h with hk
    simp [put, hk, ih h]

@[simp] theorem find?_put (t : Table α) (key name : String) (value : α) :
    (t.put key value).find? name = if key = name then some value else t.find? name := by
  induction t with
  | nil => simp [put, find?]
  | cons entry t ih =>
    obtain ⟨k, v⟩ := entry
    simp only [put]
    split_ifs with hk hn hn
    · simp [find?, hk, hn]
    · simp [find?, hk, hn]
    · subst hn
      simp [find?, hk, ih]
    · simp [find?, ih, hn]

end Table

/-- Slots that the variables of a table take. -/
def slotCount (vars : Table Variable) : Nat := (vars.map fun v => v.2.kind.slots).sum

@[simp] theorem slotCount_nil : slotCount [] = 0 := rfl

@[simp] theorem slotCount_append_singleton (vars : Table Variable) (name : String)
    (var : Variable) : slotCount (vars ++ [(name, var)]) = slotCount vars + var.kind.slots := by
  simp [slotCount]

/-- Names are distinct, and each variable sits directly below those before it. -/
inductive Placed : Table Variable → Prop where
  | nil : Placed []
  | snoc {vars : Table Variable} {name : String} {kind : VarKind} :
      Placed vars → vars.find? name = none → 0 < kind.slots →
      Placed (vars ++ [(name, ⟨(slotCount vars + kind.slots) * wordSize, kind⟩)])

/-- `slot` holds word number `index` of a variable. -/
def SlotAt (vars : Table Variable) (name : String) (index slot : Nat) : Prop :=
  ∃ var, vars.find? name = some var ∧ index < var.kind.slots ∧
    slot = var.offset - index * wordSize

theorem SlotAt.mono {vars vars' : Table Variable} (hv : vars <+: vars') {name : String}
    {index slot : Nat} (h : SlotAt vars name index slot) : SlotAt vars' name index slot := by
  obtain ⟨var, hf, hi, rfl⟩ := h
  exact ⟨var, Table.find?_of_prefix hv hf, hi, rfl⟩

/-- A word of a variable has one slot. -/
theorem SlotAt.unique {vars : Table Variable} {name : String} {index slot slot' : Nat}
    (h : SlotAt vars name index slot) (h' : SlotAt vars name index slot') : slot = slot' := by
  obtain ⟨var, hf, _, rfl⟩ := h
  obtain ⟨var', hf', _, rfl⟩ := h'
  rw [hf] at hf'
  cases hf'
  rfl

namespace Placed

variable {vars : Table Variable}

theorem nodup (h : Placed vars) : (vars.map Prod.fst).Nodup := by
  induction h with
  | nil => simp
  | snoc _ hn _ ih =>
    have hn := Table.find?_eq_none_iff.1 hn
    simp only [List.map_append, List.map_singleton, List.nodup_append]
    refine ⟨ih, by simp, ?_⟩
    rintro a ha b hb rfl
    exact hn (List.mem_singleton.1 hb ▸ ha)

/-- A variable's offset is that of its lowest slot, and all its slots lie in the frame. -/
theorem offset_bounds (h : Placed vars) {name : String} {var : Variable}
    (hf : vars.find? name = some var) :
    0 < var.kind.slots ∧ ∃ below, var.offset = (below + var.kind.slots) * wordSize ∧
      below + var.kind.slots ≤ slotCount vars := by
  induction h with
  | nil => simp [Table.find?] at hf
  | @snoc vars key kind _ hn hk ih =>
    rw [Table.find?_append_singleton] at hf
    rw [slotCount_append_singleton]
    cases hv : vars.find? name with
    | some found =>
      rw [hv] at hf
      cases hf
      obtain ⟨hpos, below, ho, hle⟩ := ih hv
      exact ⟨hpos, below, ho, by omega⟩
    | none =>
      rw [hv] at hf
      simp only [Option.none_or] at hf
      split_ifs at hf
      cases hf
      exact ⟨hk, slotCount vars, rfl, Nat.le_refl _⟩

/-- Slots are multiples of the word size, and lie in the frame. -/
theorem slotAt_bounds (h : Placed vars) {name : String} {index slot : Nat}
    (hs : SlotAt vars name index slot) :
    ∃ k, slot = k * wordSize ∧ 0 < k ∧ k ≤ slotCount vars := by
  obtain ⟨var, hf, hi, rfl⟩ := hs
  obtain ⟨_, below, ho, hle⟩ := h.offset_bounds hf
  refine ⟨below + var.kind.slots - index, ?_, by omega, by omega⟩
  rw [ho, Nat.sub_mul]

/-- No slot holds two words. -/
theorem slotAt_injective (h : Placed vars) {name name' : String} {index index' slot : Nat}
    (hs : SlotAt vars name index slot) (hs' : SlotAt vars name' index' slot) :
    name = name' ∧ index = index' := by
  induction h with
  | nil =>
    obtain ⟨_, hf, _⟩ := hs
    simp [Table.find?] at hf
  | @snoc vars key kind hp hn hk ih =>
    -- A word of the new variable lies below all words of the others.
    have new_below : ∀ {name : String} {index slot : Nat},
        SlotAt (vars ++ [(key, ⟨(slotCount vars + kind.slots) * wordSize, kind⟩)])
          name index slot →
        SlotAt vars name index slot ∨
          name = key ∧ index < kind.slots ∧
            slot = (slotCount vars + kind.slots - index) * wordSize := by
      rintro name index slot ⟨var, hf, hi, rfl⟩
      rw [Table.find?_append_singleton] at hf
      cases hv : vars.find? name with
      | some found =>
        rw [hv] at hf
        cases hf
        exact .inl ⟨_, hv, hi, rfl⟩
      | none =>
        rw [hv] at hf
        simp only [Option.none_or] at hf
        split_ifs at hf with hk
        cases hf
        exact .inr ⟨hk.symm, hi, by rw [Nat.sub_mul]⟩
    rcases new_below hs with hold | ⟨rfl, hi, hslot⟩
    · rcases new_below hs' with hold' | ⟨rfl, hi', hslot'⟩
      · exact ih hold hold'
      · obtain ⟨k, hk, _, hle⟩ := hp.slotAt_bounds hold
        simp only [wordSize] at *
        omega
    · rcases new_below hs' with hold' | ⟨rfl, hi', hslot'⟩
      · obtain ⟨k, hk, _, hle⟩ := hp.slotAt_bounds hold'
        simp only [wordSize] at *
        omega
      · refine ⟨rfl, ?_⟩
        simp only [wordSize] at hslot hslot'
        omega

/-- Every slot down to the end of the frame holds a word. -/
theorem exists_slotAt (h : Placed vars) {k : Nat} (hpos : 0 < k) (hle : k ≤ slotCount vars) :
    ∃ name index, SlotAt vars name index (k * wordSize) := by
  induction h with
  | nil => exact absurd hle (Nat.not_le.2 hpos)
  | @snoc vars key kind _ hn hk ih =>
    by_cases hold : k ≤ slotCount vars
    · obtain ⟨name, index, hs⟩ := ih hold
      exact ⟨name, index, hs.mono (List.prefix_append _ _)⟩
    · rw [slotCount_append_singleton] at hle
      refine ⟨key, slotCount vars + kind.slots - k,
        ⟨(slotCount vars + kind.slots) * wordSize, kind⟩, by simp [hn], ?_, ?_⟩
      · show slotCount vars + kind.slots - k < kind.slots
        omega
      · show k * wordSize = (slotCount vars + kind.slots) * wordSize - _
        rw [← Nat.sub_mul, Nat.sub_sub_self hle]

end Placed

namespace Frame

/-- The slots handed out are those of the variables. -/
structure Laid (frame : Frame) : Prop where
  slotSize : frame.slots.size = wordSize
  used : frame.slots.used = slotCount frame.vars
  placed : Placed frame.vars

theorem Laid.size_eq {frame : Frame} (h : frame.Laid) :
    frame.size = slotCount frame.vars * wordSize := by
  simp [Frame.size, Slots.space, h.slotSize, h.used]

/-- The words of the variables take the slots down to the end of the frame. -/
theorem Laid.slotAt_iff {frame : Frame} (h : frame.Laid) (slot : Nat) :
    (∃ name index, SlotAt frame.vars name index slot) ↔
      wordSize ∣ slot ∧ wordSize ≤ slot ∧ slot ≤ frame.size := by
  rw [h.size_eq]
  constructor
  · rintro ⟨name, index, hs⟩
    obtain ⟨k, rfl, hpos, hle⟩ := h.placed.slotAt_bounds hs
    exact ⟨Nat.dvd_mul_left _ _, Nat.le_mul_of_pos_left _ hpos, Nat.mul_le_mul_right _ hle⟩
  · rintro ⟨⟨k, rfl⟩, hpos, hle⟩
    rw [Nat.mul_comm wordSize k] at hpos hle ⊢
    have hword : 0 < wordSize := by decide
    exact h.placed.exists_slotAt (Nat.pos_of_mul_pos_right (Nat.lt_of_lt_of_le hword hpos))
      (Nat.le_of_mul_le_mul_right hle hword)

/-- All that a declaration does: the name is new, there is room, and it goes to the end. -/
theorem declare_eq_ok {frame frame' : Frame} {name : String} {kind : VarKind} {offset : Nat} :
    frame.declare name kind = .ok (offset, frame') ↔
      frame.vars.find? name = none ∧ frame.vars.length < frame.maxVariables ∧
      offset = (frame.slots.reserve kind.slots).space ∧
      frame' = { frame with slots := frame.slots.reserve kind.slots, vars :=
        frame.vars ++ [(name, ⟨offset, kind⟩)] } := by
  unfold declare
  split_ifs with hc hm
  · have : frame.vars.find? name ≠ none := Option.isSome_iff_ne_none.1 hc
    simp [this]
  · simp [Nat.not_lt.2 hm]
  · have hn : frame.vars.find? name = none := by simpa [Table.contains] using hc
    simp only [Table.put_of_find?_eq_none hn, Except.ok.injEq, Prod.mk.injEq, hn, true_and,
      Nat.not_le.1 hm]
    constructor
    · rintro ⟨rfl, rfl⟩
      exact ⟨rfl, rfl⟩
    · rintro ⟨rfl, rfl⟩
      exact ⟨rfl, rfl⟩

/-- A name that is taken is refused before the limit is looked at. -/
theorem declare_eq_error {frame : Frame} {name : String} {kind : VarKind} {e : CompileError} :
    frame.declare name kind = .error e ↔
      (name ∈ frame.vars.map Prod.fst ∧ e = .variableAlreadyDefined name frame.function) ∨
      (name ∉ frame.vars.map Prod.fst ∧ frame.maxVariables ≤ frame.vars.length ∧
        e = .tooManyVariables frame.function frame.maxVariables) := by
  rw [← Table.contains_iff]
  unfold declare
  split_ifs with hc hle
  · simp [hc, eq_comm]
  · simp [hc, hle, eq_comm]
  · simp [hc, hle]

theorem Laid.declare {frame frame' : Frame} (h : frame.Laid) {name : String} {kind : VarKind}
    {offset : Nat} (hk : 0 < kind.slots) (hd : frame.declare name kind = .ok (offset, frame')) :
    frame'.Laid := by
  obtain ⟨hn, _, rfl, rfl⟩ := declare_eq_ok.1 hd
  have ho : (frame.slots.reserve kind.slots).space =
      (slotCount frame.vars + kind.slots) * wordSize := by
    simp [Slots.space, Slots.reserve, h.slotSize, h.used]
  refine ⟨h.slotSize, ?_, ?_⟩
  · simp [Slots.reserve, h.used]
  · simpa only [ho] using h.placed.snoc hn hk

/-- No slot of a new variable falls below zero. -/
theorem Laid.le_of_declare {frame frame' : Frame} (h : frame.Laid) {name : String}
    {kind : VarKind} {offset : Nat} (hd : frame.declare name kind = .ok (offset, frame')) :
    ∀ index < kind.slots, index * wordSize ≤ offset := by
  obtain ⟨-, -, rfl, -⟩ := declare_eq_ok.1 hd
  intro index hi
  rw [Slots.space, Slots.reserve, h.slotSize]
  exact Nat.mul_le_mul_right _ (Nat.le_trans (Nat.le_of_lt hi) (Nat.le_add_left _ _))

end Frame

end WordLang
