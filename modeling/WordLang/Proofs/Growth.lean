import WordLang.Proofs.Layout
import WordLang.Proofs.Lowers

/-!
# What lowering does to its state

Literals, labels and variables are only ever added. An expression leaves the frame as it was, and a
statement adds variables to it; both leave as many words pushed as there were.
-/
namespace WordLang

open Asm

namespace StringPool

/-- All that an insertion does: the literal is there already, or it goes to the end. -/
theorem insert_eq_ok {pool pool' : StringPool} {value : String} {index : Nat} :
    pool.insert value = .ok (index, pool') ↔
      (pool.entries.idxOf? value = some index ∧ pool' = pool) ∨
      (value ∉ pool.entries ∧ pool.entries.length < pool.capacity ∧
        index = pool.entries.length ∧
        pool' = { pool with entries := pool.entries ++ [value] }) := by
  unfold insert
  cases h : pool.entries.idxOf? value with
  | some i =>
    have hm : value ∈ pool.entries := List.isSome_idxOf?.1 (by simp [h])
    simp only [Except.ok.injEq, Prod.mk.injEq, hm, not_true_eq_false, false_and, or_false,
      Option.some.injEq]
    constructor <;> (rintro ⟨rfl, rfl⟩; exact ⟨rfl, rfl⟩)
  | none =>
    have hm : value ∉ pool.entries := List.idxOf?_eq_none_iff.1 h
    by_cases hc : pool.capacity ≤ pool.entries.length
    · simp [size, hm, hc, Nat.not_lt.2 hc]
    · simp only [size, hc, if_false, Except.ok.injEq, Prod.mk.injEq, reduceCtorEq, false_and,
        false_or, hm, not_false_eq_true, true_and, Nat.not_le.1 hc]
      constructor <;> (rintro ⟨rfl, rfl⟩; exact ⟨rfl, rfl⟩)

/-- All that a refusal says: the literal is new. -/
theorem insert_eq_error {pool : StringPool} {value : String} {e : CompileError}
    (h : pool.insert value = .error e) :
    value ∉ pool.entries ∧ e = .tooManyStrings pool.capacity := by
  unfold insert at h
  cases hi : pool.entries.idxOf? value with
  | some i => simp [hi] at h
  | none =>
    simp only [hi] at h
    split at h
    · exact ⟨List.idxOf?_eq_none_iff.1 hi, (Except.error.inj h).symm⟩
    · simp at h

/-- A literal is found under its number. -/
theorem getElem?_of_insert {pool pool' : StringPool} {value : String} {index : Nat}
    (h : pool.insert value = .ok (index, pool')) : pool'.entries[index]? = some value := by
  rcases insert_eq_ok.1 h with ⟨hi, rfl⟩ | ⟨_, _, rfl, rfl⟩
  · obtain ⟨hlt, hv, _⟩ := List.idxOf?_eq_some_iff.1 hi
    rw [List.getElem?_eq_getElem hlt, hv]
  · simp

/-- The number of a literal is its place in every pool that grows from this one. -/
theorem idxOf_of_insert {pool pool' : StringPool} {value : String} {index : Nat}
    (h : pool.insert value = .ok (index, pool')) {entries : List String}
    (hp : pool'.entries <+: entries) : entries.idxOf value = index := by
  have hm : value ∈ pool'.entries := List.mem_of_getElem? (getElem?_of_insert h)
  obtain ⟨rest, rfl⟩ := hp
  rw [List.idxOf_append_of_mem hm]
  rcases insert_eq_ok.1 h with ⟨hi, rfl⟩ | ⟨hn, _, rfl, rfl⟩
  · rw [List.idxOf_eq_getD_idxOf?, hi, Option.getD_some]
  · simp [List.idxOf_append, hn]

end StringPool

/-- Literals and labels are only added. -/
structure Lowering.Grows (s s' : Lowering) : Prop where
  capacity : s'.pool.capacity = s.pool.capacity
  entries : s.pool.entries <+: s'.pool.entries
  nextLabel : s.nextLabel ≤ s'.nextLabel

namespace Lowering.Grows

variable {s s₁ s' : Lowering}

theorem refl (s : Lowering) : s.Grows s := ⟨rfl, List.prefix_rfl, Nat.le_refl _⟩

theorem trans (h : s.Grows s₁) (g : s₁.Grows s') : s.Grows s' :=
  ⟨g.capacity.trans h.capacity, h.entries.trans g.entries,
    Nat.le_trans h.nextLabel g.nextLabel⟩

theorem skipLabels (h : s.Grows s') (n : Nat) : s.Grows (s'.skipLabels n) :=
  ⟨h.capacity, h.entries, Nat.le_trans h.nextLabel (Nat.le_add_right _ _)⟩

theorem of_withPending {n : Nat} (h : (s.withPending n).Grows s') : s.Grows s' :=
  ⟨h.capacity, h.entries, h.nextLabel⟩

theorem withPending (h : s.Grows s') (n : Nat) : s.Grows (s'.withPending n) :=
  ⟨h.capacity, h.entries, h.nextLabel⟩

theorem of_withFrame {frame : Frame} (h : (s.withFrame frame).Grows s') : s.Grows s' :=
  ⟨h.capacity, h.entries, h.nextLabel⟩

theorem withFrame (h : s.Grows s') (frame : Frame) : s.Grows (s'.withFrame frame) :=
  ⟨h.capacity, h.entries, h.nextLabel⟩

theorem of_skipLabels {n : Nat} (h : (s.skipLabels n).Grows s') : s.Grows s' :=
  ⟨h.capacity, h.entries, Nat.le_trans (Nat.le_add_right _ _) h.nextLabel⟩

end Lowering.Grows

/-- Only variables are added. -/
structure Frame.Grows (frame frame' : Frame) : Prop where
  function : frame'.function = frame.function
  maxVariables : frame'.maxVariables = frame.maxVariables
  exitLabel : frame'.exitLabel = frame.exitLabel
  loops : frame'.loops = frame.loops
  pending : frame'.pending = frame.pending
  vars : frame.vars <+: frame'.vars

namespace Frame.Grows

variable {frame frame₁ frame' : Frame}

theorem refl (frame : Frame) : frame.Grows frame := ⟨rfl, rfl, rfl, rfl, rfl, List.prefix_rfl⟩

theorem trans (h : frame.Grows frame₁) (g : frame₁.Grows frame') : frame.Grows frame' where
  function := g.function.trans h.function
  maxVariables := g.maxVariables.trans h.maxVariables
  exitLabel := g.exitLabel.trans h.exitLabel
  loops := g.loops.trans h.loops
  pending := g.pending.trans h.pending
  vars := h.vars.trans g.vars

theorem of_eq (h : frame' = frame) : frame.Grows frame' := h ▸ refl frame

end Frame.Grows

theorem Runs.intern_grows {value : String} {index : Nat} {s s' : Lowering}
    (h : Runs (Lower.intern value) s index s') :
    s.Grows s' ∧ s'.frame = s.frame ∧ s'.nextLabel = s.nextLabel ∧
      s.pool.insert value = .ok (index, s'.pool) := by
  obtain ⟨pool, log, hi, rfl⟩ := Lower.runs_intern h
  refine ⟨⟨?_, ?_, Nat.le_refl _⟩, rfl, rfl, hi⟩
  · rcases StringPool.insert_eq_ok.1 hi with ⟨_, rfl⟩ | ⟨_, _, _, rfl⟩ <;> rfl
  · rcases StringPool.insert_eq_ok.1 hi with ⟨_, rfl⟩ | ⟨_, _, _, rfl⟩
    · exact List.prefix_rfl
    · exact List.prefix_append _ _

namespace Expr

variable {decls : Declarations}

mutual

/-- An expression leaves the frame as it was. -/
theorem Lowers.frame_eq {e : Expr} {s s' : Lowering} {code : Code}
    (h : e.Lowers decls s code s') : s'.frame = s.frame := by
  cases h with
  | int | word | record | field => rfl
  | str h => exact h.intern_grows.2.1
  | binary hl hr hp =>
    simp [hr.frame_eq, hl.frame_eq]
  | compare hl hr hp =>
    simp [hr.frame_eq, hl.frame_eq]
  | call _ _ ha hp =>
    simp [ha.frame_eq]

/-- Arguments stay on the stack. -/
theorem LowersArgs.frame_eq {args : List Expr} {s s' : Lowering} {code : Code}
    (h : LowersArgs decls args s code s') :
    s'.frame = { s.frame with pending := s.frame.pending + args.length } := by
  cases h with
  | nil => rfl
  | cons hv hr =>
    rw [hr.frame_eq]
    simp only [Lowering.withPending_frame, hv.frame_eq, List.length_cons]
    congr 1
    omega

end

mutual

theorem Lowers.grows {e : Expr} {s s' : Lowering} {code : Code}
    (h : e.Lowers decls s code s') : s.Grows s' := by
  cases h with
  | int | word | record | field => exact .refl s
  | str h => exact h.intern_grows.1
  | binary hl hr hp => exact ((hl.grows.trans hr.grows.of_withPending).withPending _).skipLabels _
  | compare hl hr hp => exact (hl.grows.trans hr.grows.of_withPending).withPending _
  | call _ _ ha hp => exact ha.grows.withPending _

theorem LowersArgs.grows {args : List Expr} {s s' : Lowering} {code : Code}
    (h : LowersArgs decls args s code s') : s.Grows s' := by
  cases h with
  | nil => exact .refl s
  | cons hv hr => exact hv.grows.trans hr.grows.of_withPending

end

end Expr

theorem Runs.declare_grows {name : String} {kind : VarKind} {offset : Nat}
    {s s' : Lowering} (h : Runs (Lower.declare name kind) s offset s') :
    s.Grows s' ∧ s.frame.Grows s'.frame ∧ s.frame.declare name kind = .ok (offset, s'.frame) ∧
      s'.pool = s.pool ∧ s'.nextLabel = s.nextLabel := by
  obtain ⟨frame, hd, rfl⟩ := Lower.runs_declare.1 h
  refine ⟨⟨rfl, List.prefix_rfl, Nat.le_refl _⟩, ?_, hd, rfl, rfl⟩
  obtain ⟨_, _, _, rfl⟩ := Frame.declare_eq_ok.1 hd
  exact ⟨rfl, rfl, rfl, rfl, rfl, List.prefix_append _ _⟩

namespace Stmt

variable {decls : Declarations}

mutual

theorem Lowers.grows {stmt : Stmt} {s s' : Lowering} {code : Code}
    (h : stmt.Lowers decls s code s') : s.Grows s' := by
  cases h with
  | declare hv hd => exact hv.grows.trans hd.declare_grows.1
  | declareRecord _ hd _ => exact hd.declare_grows.1
  | set hv _ | setField hv _ | ret hv | print hv | eval hv => exact hv.grows
  | retNone | leave | again => exact .refl s
  | branch hc hb => exact hc.grows.trans hb.grows.of_skipLabels
  | branchElse _ hc hb ho => exact (hc.grows.trans hb.grows.of_skipLabels).trans ho.grows
  | loop hc hb => exact (hc.grows.of_skipLabels.trans hb.grows.of_withFrame).withFrame _

theorem LowersBlock.grows {stmts : List Stmt} {s s' : Lowering} {code : Code}
    (h : LowersBlock decls stmts s code s') : s.Grows s' := by
  cases h with
  | nil => exact .refl s
  | cons hf hr => exact hf.grows.trans hr.grows

end

mutual

theorem Lowers.frame_grows {stmt : Stmt} {s s' : Lowering} {code : Code}
    (h : stmt.Lowers decls s code s') : s.frame.Grows s'.frame := by
  cases h with
  | declare hv hd => exact hv.frame_eq ▸ hd.declare_grows.2.1
  | declareRecord _ hd _ => exact hd.declare_grows.2.1
  | set hv _ | setField hv _ | ret hv | print hv | eval hv => exact .of_eq hv.frame_eq
  | retNone | leave | again => exact .refl _
  | branch hc hb => exact hc.frame_eq ▸ hb.frame_grows
  | branchElse _ hc hb ho => exact (hc.frame_eq ▸ hb.frame_grows).trans ho.frame_grows
  | loop hc hb =>
    have h := hb.frame_grows
    have hc := hc.frame_eq
    simp only [Lowering.withFrame_frame, Frame.enterLoop, hc] at h
    exact ⟨h.function, h.maxVariables, h.exitLabel, by simp [Frame.exitLoop, h.loops],
      h.pending, h.vars⟩

theorem LowersBlock.frame_grows {stmts : List Stmt} {s s' : Lowering} {code : Code}
    (h : LowersBlock decls stmts s code s') : s.frame.Grows s'.frame := by
  cases h with
  | nil => exact .refl _
  | cons hf hr => exact hf.frame_grows.trans hr.frame_grows

end

end Stmt

end WordLang
