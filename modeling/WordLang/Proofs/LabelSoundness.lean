import Mathlib.Data.List.Perm.Subperm
import WordLang.Proofs.History

/-!
# Soundness of labels

Whatever a generator was asked for, no label is defined twice in what it has written, and every jump
goes to a label of the function that it stands in. A program that was generated as a whole defines
every label that was handed out.
-/
namespace WordLang

open Asm

/-! ## Labels and jumps as lines -/

/-- The line that defines a label. -/
def labelLine (n : Nat) : List UInt8 := utf8 (Line.label n).row

/-- A label or an instruction. -/
def IsCodeLine (line : List UInt8) : Prop := Begins ".L" line ∨ Begins "    " line

/-- The lines from the one to the other are all code, so both belong to the same function. -/
def SameBody (text : List (List UInt8)) (k l : Nat) : Prop :=
  ∀ m, min k l ≤ m → m ≤ max k l → ∃ line, text[m]? = some line ∧ IsCodeLine line

/-- Labels are defined once, and jumps go to labels of their own function. -/
structure LabelsSound (text : List (List UInt8)) : Prop where
  once : ∀ n, text.count (labelLine n) ≤ 1
  jumps : ∀ k line, text[k]? = some line → Begins "    j" line →
    ∃ i n l, line = utf8 (Line.instr i).row ∧ i.target? = some n ∧
      text.count (labelLine n) = 1 ∧ text[l]? = some (labelLine n) ∧ SameBody text k l

theorem isCodeLine_row (line : Line) : IsCodeLine (utf8 line.row) := by
  cases line with
  | label n =>
    left
    rw [begins_utf8 (by decide), Line.toList_row_label]
    simp
  | instr i =>
    right
    rw [begins_utf8 (by decide), Line.toList_row_instr]
    simp

namespace Asm

theorem Line.row_eq_label {line : Line} {n : Nat} (h : line.row = (Line.label n).row) :
    line = .label n := by
  rw [← String.toList_inj, toList_row_label] at h
  cases line with
  | label m =>
    rw [toList_row_label] at h
    have hrepr : m.repr = n.repr := by
      apply String.toList_injective
      simpa using h
    have hname : labelName m = labelName n := by
      rw [labelName_eq, labelName_eq, hrepr]
    rw [labelName_injective hname]
  | instr i => simp [toList_row_instr] at h

theorem Code.count_rows_label (code : Code) (n : Nat) :
    (code.map Line.row).count (Line.label n).row = code.labels.count n := by
  induction code with
  | nil => rfl
  | cons line code ih =>
    rw [List.map_cons, List.count_cons, ih]
    cases line with
    | label m =>
      have hrow : (Line.label m).row = (Line.label n).row ↔ m = n :=
        ⟨fun h => by simpa using Line.row_eq_label h, fun h => h ▸ rfl⟩
      simp [List.count_cons, hrow]
    | instr i =>
      have hrow : (Line.instr i).row ≠ (Line.label n).row := fun h => nomatch Line.row_eq_label h
      simp [hrow]

end Asm

/-- Neither a label nor a jump. -/
def NoCode (row : String) : Prop := ¬ ".L".toList <+: row.toList ∧ ¬ "    j".toList <+: row.toList

theorem NoCode.ne_label {row : String} (h : NoCode row) (n : Nat) : row ≠ (Line.label n).row := by
  rintro rfl
  apply h.1
  rw [Line.toList_row_label]
  simp

theorem noCode_headerRows {name : String} (h : IsIdentifier name) :
    ∀ row ∈ Routine.headerRows name, NoCode row := by
  obtain ⟨c, cs, hc, hdot, hspace⟩ := h.exists_cons
  simp [Routine.headerRows, NoCode, hc, Ne.symm hdot, Ne.symm hspace]

theorem noCode_dataRows (operands : List String) : ∀ row ∈ dataRows operands, NoCode row := by
  intro row hrow
  unfold dataRows at hrow
  split at hrow
  · simp at hrow
  · rw [List.mem_append, List.mem_flatMap] at hrow
    rcases hrow with hrow | ⟨⟨operand, index⟩, -, hrow⟩
    · revert row
      simp [NoCode]
    · revert row
      simp [literalRows, NoCode, stringLabel_eq]

namespace Part

variable {part : Part}

/-- All lines but those of a function's code. -/
theorem noCode_or_function (h : part.WellNamed) :
    (part.code = [] ∧ ∀ row ∈ part.rows, NoCode row) ∨
      ∃ r, part = .function r ∧ ∀ row ∈ Routine.headerRows r.name, NoCode row := by
  cases part with
  | textSection | stackNote =>
    left
    simp [Part.code, Part.rows, NoCode]
  | literals pool => exact .inl ⟨rfl, noCode_dataRows _⟩
  | function r => exact .inr ⟨r, rfl, noCode_headerRows h.1⟩

theorem count_rows_label (h : part.WellNamed) (n : Nat) :
    part.rows.count (Line.label n).row = part.code.labels.count n := by
  have hzero (rows : List String) (hrows : ∀ row ∈ rows, NoCode row) :
      rows.count (Line.label n).row = 0 := by
    rw [List.count_eq_zero]
    exact fun hm => (hrows _ hm).ne_label n rfl
  rcases noCode_or_function h with ⟨hcode, hrows⟩ | ⟨r, rfl, hheader⟩
  · rw [hcode, hzero _ hrows]
    rfl
  · rw [Part.rows, Routine.rows, List.count_append, hzero _ hheader, Code.count_rows_label,
      Nat.zero_add, Part.code]

/-- Only functions have jumps, and only in their code. -/
theorem exists_jump (h : part.WellNamed) {k : Nat} {row : String} (hrow : part.rows[k]? = some row)
    (hj : "    j".toList <+: row.toList) :
    ∃ r l i n, part = .function r ∧ k = 4 + l ∧ r.code[l]? = some (.instr i) ∧
      row = (Line.instr i).row ∧ i.target? = some n := by
  rcases noCode_or_function h with ⟨-, hrows⟩ | ⟨r, rfl, hheader⟩
  · exact absurd hj (hrows row (List.mem_of_getElem? hrow)).2
  · rw [Part.rows, Routine.rows] at hrow
    have hk : 4 ≤ k := by
      by_contra hlt
      rw [List.getElem?_append_left (Nat.lt_of_not_le hlt)] at hrow
      exact (hheader row (List.mem_of_getElem? hrow)).2 hj
    rw [List.getElem?_append_right hk, List.getElem?_map, Option.map_eq_some_iff] at hrow
    obtain ⟨line, hline, rfl⟩ := hrow
    cases line with
    | label n => simp [Line.toList_row_label] at hj
    | instr i =>
      rw [Line.toList_row_instr] at hj
      obtain ⟨n, hn⟩ := Instr.text_jump (i := i) (by simpa using hj)
      exact ⟨r, k - 4, i, n, rfl, by omega, hline, rfl, hn⟩

end Part

/-! ## Lines of parts -/

theorem getElem?_lines {rows : List String} {k : Nat} {row : String} (h : rows[k]? = some row) :
    (rows.map utf8 ++ [[]])[k]? = some (utf8 row) := by
  obtain ⟨hk, -⟩ := List.getElem?_eq_some_iff.1 h
  rw [List.getElem?_append_left (by simpa using hk), List.getElem?_map, h, Option.map_some]

theorem exists_row_of_getElem? {rows : List String} {k : Nat} {line : List UInt8}
    (h : (rows.map utf8 ++ [[]])[k]? = some line) (hne : line ≠ []) :
    ∃ row, rows[k]? = some row ∧ line = utf8 row := by
  by_cases hk : k < rows.length
  · rw [List.getElem?_append_left (by simpa using hk), List.getElem?_map,
      Option.map_eq_some_iff] at h
    obtain ⟨row, hrow, rfl⟩ := h
    exact ⟨row, hrow, rfl⟩
  · rw [List.getElem?_append_right (by simpa using hk)] at h
    exact absurd (List.mem_singleton.1 (List.mem_of_getElem? h)) hne

theorem exists_of_getElem?_flatMap {α β : Type} {f : α → List β} {xs : List α} {k : Nat} {y : β}
    (h : (xs.flatMap f)[k]? = some y) :
    ∃ before x behind j, xs = before ++ x :: behind ∧ k = (before.flatMap f).length + j ∧
      (f x)[j]? = some y := by
  induction xs generalizing k with
  | nil => simp at h
  | cons x xs ih =>
    rw [List.flatMap_cons] at h
    by_cases hk : k < (f x).length
    · rw [List.getElem?_append_left hk] at h
      exact ⟨[], x, xs, k, rfl, by simp, h⟩
    · rw [List.getElem?_append_right (Nat.le_of_not_lt hk)] at h
      obtain ⟨before, x', behind, j, rfl, hj, hy⟩ := ih h
      refine ⟨x :: before, x', behind, j, rfl, ?_, hy⟩
      rw [List.flatMap_cons, List.length_append]
      omega

section Parts

variable {parts : List Part}

theorem count_rows_label (h : ∀ part ∈ parts, part.WellNamed) (n : Nat) :
    (parts.flatMap Part.rows).count (Line.label n).row =
      (Code.labels (parts.flatMap Part.code)).count n := by
  induction parts with
  | nil => rfl
  | cons part parts ih =>
    rw [List.forall_mem_cons] at h
    rw [List.flatMap_cons, List.flatMap_cons, List.count_append, Code.labels_append,
      List.count_append, Part.count_rows_label h.1, ih h.2]

/-- A line of code in its place among all lines. -/
theorem getElem?_rows_code (before behind : List Part) {r : Routine} {l : Nat} {line : Line}
    (h : r.code[l]? = some line) :
    ((before ++ .function r :: behind).flatMap Part.rows)[(before.flatMap Part.rows).length +
      (4 + l)]? = some line.row := by
  rw [List.flatMap_append, List.getElem?_append_right (Nat.le_add_right _ _),
    Nat.add_sub_cancel_left, List.flatMap_cons, Part.rows, Routine.rows, List.append_assoc]
  have hlength : (Routine.headerRows r.name).length = 4 := rfl
  obtain ⟨hl, -⟩ := List.getElem?_eq_some_iff.1 h
  rw [List.getElem?_append_right (by omega), hlength, Nat.add_sub_cancel_left,
    List.getElem?_append_left (by simpa using hl), List.getElem?_map, h, Option.map_some]

/-- The code of one function, from one line of it to another. -/
theorem sameBody_of_code {before behind : List Part} {r : Routine} {k l : Nat}
    (hk : k < r.code.length) (hl : l < r.code.length) :
    SameBody (((before ++ .function r :: behind).flatMap Part.rows).map utf8 ++ [[]])
      ((before.flatMap Part.rows).length + (4 + k))
      ((before.flatMap Part.rows).length + (4 + l)) := by
  intro m hlow hhigh
  obtain ⟨j, rfl⟩ : ∃ j, m = (before.flatMap Part.rows).length + (4 + j) :=
    ⟨m - (before.flatMap Part.rows).length - 4, by omega⟩
  have hj : j < r.code.length := by omega
  have hrow := getElem?_rows_code before behind
    (List.getElem?_eq_getElem hj)
  exact ⟨_, getElem?_lines hrow, isCodeLine_row r.code[j]⟩

theorem count_labelLine (h : ∀ part ∈ parts, part.WellNamed) (n : Nat) :
    ((parts.flatMap Part.rows).map utf8 ++ [[]]).count (labelLine n) =
      (Code.labels (parts.flatMap Part.code)).count n := by
  have hne : (Line.label n).row ≠ "" := by
    intro hrow
    simpa [Line.toList_row_label] using congrArg String.toList hrow
  rw [labelLine, count_lines _ hne, count_rows_label h]

/-- Parts whose labels are distinct, and whose jumps stay inside, make a sound text. -/
theorem labelsSound_of_parts (hn : ∀ part ∈ parts, part.WellNamed)
    (hc : ∀ part ∈ parts, part.Closed)
    (hd : (Code.labels (parts.flatMap Part.code)).Nodup) :
    LabelsSound ((parts.flatMap Part.rows).map utf8 ++ [[]]) := by
  refine ⟨fun n => ?_, fun k line hline hj => ?_⟩
  · rw [count_labelLine hn]
    exact List.nodup_iff_count_le_one.1 hd n
  · -- The line is not the empty one at the end, so it is a row of some part.
    have hne : line ≠ [] := by
      rintro rfl
      exact absurd hj (by decide)
    obtain ⟨row, hrow, rfl⟩ := exists_row_of_getElem? hline hne
    obtain ⟨before, part, behind, j, rfl, rfl, hpart⟩ := exists_of_getElem?_flatMap hrow
    have hmem : part ∈ before ++ part :: behind := by simp
    obtain ⟨r, l, i, n, rfl, rfl, hi, rfl, htarget⟩ :=
      Part.exists_jump (hn part hmem) hpart ((begins_utf8 (by decide)).1 hj)
    have hlabel : n ∈ r.code.labels := hc _ hmem i n (List.mem_of_getElem? hi) htarget
    obtain ⟨l', hl'⟩ := List.mem_iff_getElem?.1 (Code.mem_labels.1 hlabel)
    refine ⟨i, n, (before.flatMap Part.rows).length + (4 + l'), rfl, htarget, ?_, ?_, ?_⟩
    · rw [count_labelLine hn]
      refine List.count_eq_one_of_mem hd (Code.mem_labels.2 (List.mem_flatMap.2 ⟨_, hmem, ?_⟩))
      exact Code.mem_labels.1 hlabel
    · exact getElem?_lines (getElem?_rows_code _ _ hl')
    · exact sameBody_of_code (List.getElem?_eq_some_iff.1 hi).1 (List.getElem?_eq_some_iff.1 hl').1

end Parts

/-! ## Every label is defined -/

@[simp] theorem BinaryOp.length_labels_code (op : BinaryOp) (n : Nat) :
    (op.code n).labels.length = op.labels := by
  cases op <;> simp [BinaryOp.code, divisionCode, BinaryOp.labels]

namespace Expr

variable {decls : Declarations}

mutual

/-- Every label that is handed out is defined. -/
theorem Lowers.length_labels {e : Expr} {s s' : Lowering} {code : Code}
    (h : e.Lowers decls s code s') : s.nextLabel + code.labels.length = s'.nextLabel := by
  cases h with
  | int | word _ | record _ | field _ => rfl
  | str hi => exact hi.intern_grows.2.2.1.symm
  | binary hl hr _ | compare hl hr _ =>
    have hleft := hl.length_labels
    have hright := hr.length_labels
    simp [operandsCode] at hright ⊢
    omega
  | call _ _ ha _ => simpa using ha.length_labels

theorem LowersArgs.length_labels {args : List Expr} {s s' : Lowering} {code : Code}
    (h : LowersArgs decls args s code s') : s.nextLabel + code.labels.length = s'.nextLabel := by
  cases h with
  | nil => rfl
  | cons hv hr =>
    have hfirst := hv.length_labels
    have hrest := hr.length_labels
    simp at hrest ⊢
    omega

end

end Expr

namespace Stmt

variable {decls : Declarations}

mutual

theorem Lowers.length_labels {stmt : Stmt} {s s' : Lowering} {code : Code}
    (h : stmt.Lowers decls s code s') : s.nextLabel + code.labels.length = s'.nextLabel := by
  cases h with
  | declare hv hd =>
    rw [hd.declare_grows.2.2.2.2]
    simpa using hv.length_labels
  | declareRecord _ hd _ => simp [hd.declare_grows.2.2.2.2]
  | set hv _ | setField hv _ | ret hv | print hv | eval hv => simpa using hv.length_labels
  | retNone | leave _ | again _ => rfl
  | branch hc hb =>
    have htest := hc.length_labels
    have hbody := hb.length_labels
    simp at hbody ⊢
    omega
  | branchElse _ hc hb ho =>
    have htest := hc.length_labels
    have hbody := hb.length_labels
    have hother := ho.length_labels
    simp at hbody ⊢
    omega
  | loop hc hb =>
    have htest := hc.length_labels
    have hbody := hb.length_labels
    simp at htest hbody ⊢
    omega

theorem LowersBlock.length_labels {stmts : List Stmt} {s s' : Lowering} {code : Code}
    (h : LowersBlock decls stmts s code s') :
    s.nextLabel + code.labels.length = s'.nextLabel := by
  cases h with
  | nil => rfl
  | cons hf hr =>
    have hfirst := hf.length_labels
    have hrest := hr.length_labels
    simp
    omega

end

end Stmt

theorem StoresParams.nextLabel_eq {params : List (String × Register)} {s s' : Lowering}
    {code : Code} (h : StoresParams params s code s') : s'.nextLabel = s.nextLabel := by
  induction h with
  | nil => rfl
  | cons hd _ ih => rw [ih, hd.declare_grows.2.2.2.2]

theorem FunctionDecl.Lowers.length_labels {limits : Limits} {decls : Declarations}
    {f : FunctionDecl} {s s' : Lowering} {r : Routine} (h : f.Lowers limits decls s r s') :
    s.nextLabel + r.code.labels.length = s'.nextLabel := by
  obtain ⟨-, params, body, s₁, hp, hb, rfl⟩ := h
  have hparams := hp.nextLabel_eq
  have hbody := hb.length_labels
  simp [Routine.code, routine, hp.labels_eq, enter] at hparams ⊢
  omega

theorem LowersFunctions.length_labels {limits : Limits} {decls : Declarations}
    {fs : List FunctionDecl} {s s' : Lowering} {rs : List Routine}
    (h : LowersFunctions limits decls fs s rs s') :
    s.nextLabel + (Code.labels (rs.flatMap Routine.code)).length = s'.nextLabel := by
  induction h with
  | nil => rfl
  | cons hf _ ih =>
    have hfirst := hf.length_labels
    simp at ih ⊢
    omega

/-- The labels of a program are those handed out. -/
theorem LowersFunctions.mem_labels_iff {limits : Limits} {decls : Declarations}
    {fs : List FunctionDecl} {s s' : Lowering} {rs : List Routine}
    (h : LowersFunctions limits decls fs s rs s') (hs : s.nextLabel = 0) (n : Nat) :
    n ∈ Code.labels (rs.flatMap Routine.code) ↔ n < s'.nextLabel := by
  have hin := h.labelsIn
  have hlength := h.length_labels
  have hsubset : Code.labels (rs.flatMap Routine.code) ⊆ List.range s'.nextLabel :=
    fun m hm => List.mem_range.2 (hin.bounds m hm).2
  have hperm := (List.subperm_of_subset hin.nodup hsubset).perm_of_length_le (by simp; omega)
  rw [hperm.mem_iff, List.mem_range]

theorem Program.Accepted.labelLine_mem_iff {limits : Limits} {p : Program}
    (h : p.Accepted limits) (hn : ∀ f ∈ p.functions, IsIdentifier f.name) (n : Nat) :
    labelLine n ∈ lines (p.written limits) ↔ n < (p.generate limits).2.lowering.nextLabel := by
  have hruns : Runs (Generate.program p) (Generator.new limits {}) () (p.generate limits).2 :=
    Prod.ext h rfl
  obtain ⟨ht, hf, rs, t, hl, hg⟩ := Generate.runs_program_new.1 hruns
  have ha : p.Assembles limits ⟨rs, t.pool⟩ := ⟨ht, hf, t, hl, rfl⟩
  have hcode : (Assembly.parts ⟨rs, t.pool⟩).flatMap Part.code = rs.flatMap Routine.code := by
    simp [Assembly.parts, Part.code, List.flatMap_map]
  have hnext : (p.generate limits).2.lowering.nextLabel = t.nextLabel := by rw [hg]; rfl
  rw [ha.written_eq, Assembly.text_eq_unlines, lines_parts (ha.wellNamed hn), hnext,
    ← hl.mem_labels_iff rfl n, ← hcode, ← List.count_pos_iff, ← List.count_pos_iff,
    count_labelLine (ha.wellNamed hn)]

/-! ## Soundness -/

namespace Generator

/-- Whatever a new generator was asked for, its labels are sound; and a program generated as a whole
defines the labels below the next one. -/
theorem labels_sound (limits : Limits) :
    (∀ requests : List Request,
      (∀ request ∈ requests, ∀ name ∈ request.functionNames, IsIdentifier name) →
      LabelsSound (lines ((Generator.new limits {}).after requests).sink.stored)) ∧
    ∀ p : Program, (∀ f ∈ p.functions, IsIdentifier f.name) → p.Accepted limits →
      ∀ n, labelLine n ∈ lines (p.written limits) ↔
        n < (p.generate limits).2.lowering.nextLabel := by
  refine ⟨fun requests hn => ?_, fun p hn ha => ha.labelLine_mem_iff hn⟩
  obtain ⟨parts, hw⟩ := exists_writes_after limits hn
  have hstored : ((Generator.new limits {}).after requests).sink.stored =
      utf8 (unlines (parts.flatMap Part.rows)) := by
    rw [hw.stored]
    rfl
  rw [hstored, lines_parts hw.wellNamed]
  exact labelsSound_of_parts hw.wellNamed hw.closed hw.labelsIn.nodup

/-- A failing request between two programs, the second of which is refused for its names. -/
theorem labels_sound_halves :
    (∀ request ∈ [Request.program halves, .expr (.ident "x"), .program halves],
      ∀ name ∈ request.functionNames, IsIdentifier name) ∧
    LabelsSound (lines ((Generator.new {} {}).after
      [.program halves, .expr (.ident "x"), .program halves]).sink.stored) ∧
    labelLine 0 ∈ lines (halves.written {}) := by
  have hnames : ∀ request ∈ [Request.program halves, .expr (.ident "x"), .program halves],
      ∀ name ∈ request.functionNames, IsIdentifier name := by
    decide
  have haccepted : halves.Accepted {} := by decide +kernel
  refine ⟨hnames, (labels_sound {}).1 _ hnames, ?_⟩
  exact ((labels_sound {}).2 halves (by decide) haccepted 0).2 (by decide +kernel)

end Generator

end WordLang
