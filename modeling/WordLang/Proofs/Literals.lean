import WordLang.Proofs.Listing
import WordLang.Proofs.WellFormed

/-!
# String literals of a program

Lowering meets the literals of a program from left to right and takes each into the pool when it
first occurs. As the pool only grows at its end, the number that an occurrence was given is still
the place of its literal when the pool is written.
-/
namespace WordLang

open Asm

namespace StringPool

/-- The entries with a literal that joins them if it is new. -/
def addTo (entries : List String) (value : String) : List String :=
  if value ∈ entries then entries else entries ++ [value]

theorem prefix_foldl_addTo (entries values : List String) :
    entries <+: values.foldl addTo entries := by
  induction values generalizing entries with
  | nil => exact List.prefix_rfl
  | cons value values ih =>
    have hadd : entries <+: addTo entries value := by
      unfold addTo
      split
      · exact List.prefix_rfl
      · exact List.prefix_append _ _
    exact hadd.trans (ih _)

/-- Literals that join one after another leave out later duplicates. -/
theorem foldl_addTo_nil (values : List String) : values.foldl addTo [] = values.eraseDups := by
  induction values using List.reverseRecOn with
  | nil => rfl
  | append_singleton values value ih =>
    rw [List.foldl_append, List.foldl_cons, List.foldl_nil, ih, List.eraseDups_append, addTo]
    by_cases hm : value ∈ values
    · simp [hm, List.removeAll]
    · simp [hm, List.removeAll, List.eraseDups_cons]

theorem insert_entries {pool pool' : StringPool} {value : String} {index : Nat}
    (h : pool.insert value = .ok (index, pool')) : pool'.entries = addTo pool.entries value := by
  unfold addTo
  rcases insert_eq_ok.1 h with ⟨hi, rfl⟩ | ⟨hn, -, -, rfl⟩
  · have hm : value ∈ pool'.entries := List.isSome_idxOf?.1 (by simp [hi])
    rw [if_pos hm]
  · rw [if_neg hn]

end StringPool

namespace Asm

/-- The number of the literal whose address the line takes, and where it goes. -/
def Line.stringLoad? : Line → Option (Nat × Register)
  | .instr (.leaString index dst) => some (index, dst)
  | _ => none

namespace Code

/-- The addresses of literals that code takes, in order. -/
def stringLoads (code : Code) : List (Nat × Register) := code.filterMap Line.stringLoad?

@[simp] theorem stringLoads_nil : stringLoads [] = [] := rfl

@[simp] theorem stringLoads_append (a b : Code) :
    stringLoads (a ++ b) = stringLoads a ++ stringLoads b :=
  List.filterMap_append

@[simp] theorem stringLoads_cons (line : Line) (code : Code) :
    stringLoads (line :: code) = line.stringLoad?.toList ++ stringLoads code := by
  unfold stringLoads
  cases h : line.stringLoad? with
  | none => rw [List.filterMap_cons_none h, Option.toList_none, List.nil_append]
  | some load => rw [List.filterMap_cons_some h, Option.toList_some, List.singleton_append]

theorem stringLoads_eq_nil {code : Code} (h : ∀ line ∈ code, line.stringLoad? = none) :
    stringLoads code = [] :=
  List.filterMap_eq_nil_iff.2 h

/-- The code takes the addresses of the literals `values`, which are met with the pool's entries
growing from `before` to `after`. -/
structure Collects (before values : List String) (code : Code) (after : List String) : Prop where
  entries : after = values.foldl StringPool.addTo before
  loads : ∀ entries, after <+: entries →
    code.stringLoads = values.map fun value => (entries.idxOf value, .rax)

namespace Collects

variable {before between after values more : List String} {a b code code' : Code}

theorem none (entries : List String) (h : code.stringLoads = []) :
    code.Collects entries [] entries :=
  ⟨rfl, fun _ _ => h⟩

theorem append (ha : a.Collects before values between) (hb : b.Collects between more after) :
    (a ++ b).Collects before (values ++ more) after := by
  refine ⟨?_, ?_⟩
  · rw [List.foldl_append, ← ha.entries, hb.entries]
  · intro entries hp
    have hgrow : between <+: after := hb.entries ▸ StringPool.prefix_foldl_addTo between more
    rw [stringLoads_append, List.map_append, ha.loads entries (hgrow.trans hp),
      hb.loads entries hp]

theorem of_loads (h : code.Collects before values after)
    (hc : code'.stringLoads = code.stringLoads) : code'.Collects before values after :=
  ⟨h.entries, fun entries hp => hc.trans (h.loads entries hp)⟩

end Collects

end Code

theorem stringLoads_prologue (r : Routine) : (Code.ofInstrs r.prologue).stringLoads = [] := by
  unfold Routine.prologue
  split <;> rfl

@[simp] theorem stringLoads_argPops (n : Nat) : (argPops n).stringLoads = [] := by
  apply Code.stringLoads_eq_nil
  intro line hm
  obtain ⟨i, hi, rfl⟩ := List.mem_map.1 hm
  obtain ⟨r, -, rfl⟩ := List.mem_map.1 hi
  rfl

@[simp] theorem stringLoads_callCode (pending : Nat) (callee : Callee) :
    (Lower.callCode pending callee).stringLoads = [] := by
  unfold Lower.callCode
  split <;> rfl

@[simp] theorem stringLoads_clearCode (base count : Nat) :
    (Lower.clearCode base count).stringLoads = [] := by
  apply Code.stringLoads_eq_nil
  intro line hm
  obtain ⟨i, -, rfl⟩ := List.mem_map.1 hm
  rfl

end Asm

@[simp] theorem BinaryOp.stringLoads_code (op : BinaryOp) (n : Nat) :
    (op.code n).stringLoads = [] := by
  cases op <;> rfl

@[simp] theorem CompareOp.stringLoads_code (op : CompareOp) : op.code.stringLoads = [] := rfl

namespace Expr

variable {decls : Declarations}

mutual

theorem Lowers.collects {e : Expr} {s s' : Lowering} {code : Code}
    (h : e.Lowers decls s code s') : code.Collects s.pool.entries e.literals s'.pool.entries := by
  cases h with
  | int | word _ | record _ | field _ => exact .none _ rfl
  | str hi =>
    have hinsert := hi.intern_grows.2.2.2
    refine ⟨StringPool.insert_entries hinsert, fun entries hp => ?_⟩
    rw [literals, List.map_singleton, StringPool.idxOf_of_insert hinsert hp]
    rfl
  | binary hl hr _ | compare hl hr _ =>
    exact (hl.collects.append hr.collects).of_loads (by simp [operandsCode, Line.stringLoad?])
  | call _ _ ha _ => exact ha.collects.of_loads (by simp)

theorem LowersArgs.collects {args : List Expr} {s s' : Lowering} {code : Code}
    (h : LowersArgs decls args s code s') :
    code.Collects s.pool.entries (argsLiterals args) s'.pool.entries := by
  cases h with
  | nil => exact .none _ rfl
  | cons hv hr => exact (hv.collects.append hr.collects).of_loads (by simp [Line.stringLoad?])

end

end Expr

namespace Stmt

variable {decls : Declarations}

mutual

theorem Lowers.collects {stmt : Stmt} {s s' : Lowering} {code : Code}
    (h : stmt.Lowers decls s code s') :
    code.Collects s.pool.entries stmt.literals s'.pool.entries := by
  cases h with
  | declare hv hd =>
    rw [hd.declare_grows.2.2.2.1]
    exact hv.collects.of_loads (by simp [Line.stringLoad?])
  | declareRecord _ hd _ =>
    rw [hd.declare_grows.2.2.2.1]
    exact .none _ (by simp)
  | set hv _ | setField hv _ => exact hv.collects.of_loads (by simp [Line.stringLoad?])
  | ret hv => exact hv.collects.of_loads (by simp [Line.stringLoad?])
  | retNone | leave _ | again _ => exact .none _ rfl
  | print hv => exact hv.collects.of_loads (by simp [Line.stringLoad?])
  | eval hv => exact hv.collects
  | branch hc hb =>
    have h := (hc.collects.append hb.collects).append (.none _ Code.stringLoads_nil)
    exact h.of_loads (by simp [Line.stringLoad?, Code.ofInstrs])
  | branchElse _ hc hb ho =>
    have h := (hc.collects.append hb.collects).append ho.collects
    exact h.of_loads (by simp [Line.stringLoad?, Code.ofInstrs])
  | loop hc hb =>
    exact (hc.collects.append hb.collects).of_loads (by simp [Line.stringLoad?, Code.ofInstrs])

theorem LowersBlock.collects {stmts : List Stmt} {s s' : Lowering} {code : Code}
    (h : LowersBlock decls stmts s code s') :
    code.Collects s.pool.entries (blockLiterals stmts) s'.pool.entries := by
  cases h with
  | nil => exact .none _ rfl
  | cons hf hr => exact hf.collects.append hr.collects

end

end Stmt

theorem StoresParams.stringLoads_eq {params : List (String × Register)} {s s' : Lowering}
    {code : Code} (h : StoresParams params s code s') : code.stringLoads = [] := by
  induction h with
  | nil => rfl
  | cons _ _ ih => simpa [Line.stringLoad?] using ih

namespace FunctionDecl.Lowers

variable {limits : Limits} {decls : Declarations} {f : FunctionDecl} {s s' : Lowering}
  {r : Routine}

theorem collects (h : f.Lowers limits decls s r s') :
    r.code.Collects s.pool.entries (Stmt.blockLiterals f.body) s'.pool.entries := by
  obtain ⟨-, params, body, s₁, hp, hb, rfl⟩ := h
  have hpool : s₁.pool = s.pool := hp.pool_eq
  rw [← hpool]
  apply hb.collects.of_loads
  rw [Routine.code, Code.stringLoads_append, stringLoads_prologue]
  simp [routine, hp.stringLoads_eq, Line.stringLoad?, Code.ofInstrs, Routine.epilogue]

end FunctionDecl.Lowers

/-- Functions take in their literals one after another, and what each of them refers to is known
from any pool that grows from the last. -/
theorem LowersFunctions.collects {limits : Limits} {decls : Declarations} {fs : List FunctionDecl}
    {s s' : Lowering} {rs : List Routine} (h : LowersFunctions limits decls fs s rs s') :
    s'.pool.entries =
      (fs.flatMap fun f => Stmt.blockLiterals f.body).foldl StringPool.addTo s.pool.entries ∧
    ∀ entries, s'.pool.entries <+: entries →
      List.Forall₂ (fun f r => r.name = f.name ∧ r.code.stringLoads =
        (Stmt.blockLiterals f.body).map fun value => (entries.idxOf value, .rax)) fs rs := by
  induction h with
  | nil => exact ⟨rfl, fun _ _ => .nil⟩
  | cons hf hr ih =>
    obtain ⟨hentries, hloads⟩ := ih
    refine ⟨?_, fun entries hp => ?_⟩
    · rw [List.flatMap_cons, List.foldl_append, ← hf.collects.entries]
      exact hentries
    · exact .cons ⟨hf.name_eq, hf.collects.loads entries (hr.grows.entries.trans hp)⟩
        (hloads entries hp)

/-! ## Lines that name literals -/

namespace Asm

/-- The header of a function has no line that begins like an instruction or like the label of a
literal. -/
theorem Routine.filter_rows {r : Routine} (h : IsIdentifier r.name) {start : String}
    (hs : ['.', 'S'] <+: start.toList ∨ [' '] <+: start.toList) :
    r.rows.filter (start.toList <+: ·.toList) =
      (r.code.map Line.row).filter (start.toList <+: ·.toList) := by
  obtain ⟨c, cs, hc, hdot, hspace⟩ := h.exists_cons
  rw [rows, List.filter_append]
  rcases hs with ⟨rest, hs⟩ | ⟨rest, hs⟩
  · simp [headerRows, ← hs, hc, Ne.symm hdot]
  · simp [headerRows, ← hs, hc, Ne.symm hspace]

theorem Code.filter_rows_label (code : Code) :
    (code.map Line.row).filter (".STR".toList <+: ·.toList) = [] := by
  rw [List.filter_eq_nil_iff]
  intro row hrow
  obtain ⟨line, -, rfl⟩ := List.mem_map.1 hrow
  cases line with
  | label n => simp [Line.toList_row_label]
  | instr i => simp [Line.toList_row_instr]

/-- The line that takes the address of a literal. -/
def stringLoadRow (load : Nat × Register) : String :=
  "    leaq " ++ stringLabel load.1 ++ "(%rip), " ++ load.2.operand

theorem Code.filter_rows_load (code : Code) :
    (code.map Line.row).filter ("    leaq .STR".toList <+: ·.toList) =
      code.stringLoads.map stringLoadRow := by
  induction code with
  | nil => rfl
  | cons line code ih =>
    rw [List.map_cons, List.filter_cons, ih, stringLoads_cons, List.map_append]
    simp only [decide_eq_true_eq]
    cases line with
    | label n => simp [Line.toList_row_label, Line.stringLoad?]
    | instr i =>
      by_cases hi : ∃ index dst, i = .leaString index dst
      · obtain ⟨index, dst, rfl⟩ := hi
        have hrow : (Line.instr (.leaString index dst)).row = stringLoadRow (index, dst) := by
          apply String.toList_injective
          simp [Line.row, Instr.text, instr₂, stringLoadRow]
        rw [if_pos (by simp [hrow, stringLoadRow, stringLabel_eq]), hrow]
        rfl
      · have hnone : (Line.instr i).stringLoad? = none := by
          cases i with
          | leaString index dst => exact absurd ⟨index, dst, rfl⟩ hi
          | _ => rfl
        have hrow : ¬ "    leaq .STR".toList <+: (Line.instr i).row.toList := by
          rw [Line.toList_row_instr]
          intro hp
          exact hi (Instr.text_leaString (by simpa using hp))
        rw [if_neg hrow, hnone]
        rfl

end Asm

theorem filter_dataRows_label (operands : List String) :
    (dataRows operands).filter (".STR".toList <+: ·.toList) =
      (List.range operands.length).map fun index => stringLabel index ++ ":" := by
  have hfrom (k : Nat) :
      ((operands.zipIdx k).flatMap fun item => literalRows item.2 item.1).filter
          (".STR".toList <+: ·.toList) =
        (List.range' k operands.length).map fun index => stringLabel index ++ ":" := by
    induction operands generalizing k with
    | nil => rfl
    | cons operand operands ih =>
      have hrows : (literalRows k operand).filter (".STR".toList <+: ·.toList) =
          [stringLabel k ++ ":"] := by
        simp [literalRows, stringLabel_eq]
      rw [List.zipIdx_cons, List.flatMap_cons, List.filter_append, hrows, ih, List.length_cons,
        List.range'_succ]
      rfl
  unfold dataRows
  split
  · next h => simp [h]
  · rw [List.filter_append, hfrom 0, List.range_eq_range']
    simp

theorem filter_dataRows_load (operands : List String) :
    (dataRows operands).filter ("    leaq .STR".toList <+: ·.toList) = [] := by
  simp only [List.filter_eq_nil_iff, decide_eq_true_eq]
  intro row hrow
  unfold dataRows at hrow
  split at hrow
  · simp at hrow
  · rw [List.mem_append, List.mem_flatMap] at hrow
    rcases hrow with hrow | ⟨⟨operand, index⟩, -, hrow⟩
    · revert row
      simp
    · revert row
      simp [literalRows, stringLabel_eq]

/-- Whatever the name of a function, none of its lines begins the data section. -/
theorem Asm.Routine.section_not_mem_rows (r : Routine) : ".section .rodata" ∉ r.rows := by
  have hname : ".section .rodata" ≠ r.name ++ ":" := by
    intro h
    have hlast := congrArg (·.toList.getLast?) h
    simp at hlast
  intro hm
  rw [rows, List.mem_append] at hm
  rcases hm with hm | hm
  · simp only [headerRows, List.mem_cons, List.not_mem_nil, or_false, hname,
      ← String.toList_inj] at hm
    simp at hm
  · obtain ⟨line, -, hline⟩ := List.mem_map.1 hm
    rw [← String.toList_inj] at hline
    cases line with
    | label n => simp [Line.toList_row_label] at hline
    | instr i => simp [Line.toList_row_instr] at hline

theorem count_dataRows_section (operands : List String) :
    (dataRows operands).count ".section .rodata" = if operands = [] then 0 else 1 := by
  unfold dataRows
  split
  · rfl
  · rw [List.count_append]
    have hrest : (operands.zipIdx.flatMap fun item => literalRows item.2 item.1).count
        ".section .rodata" = 0 := by
      rw [List.count_eq_zero]
      intro hm
      obtain ⟨⟨operand, index⟩, -, hrow⟩ := List.mem_flatMap.1 hm
      simp only [literalRows, List.mem_cons, List.not_mem_nil, or_false,
        ← String.toList_inj] at hrow
      simp [stringLabel_eq] at hrow
    rw [hrest]
    decide

namespace Assembly

/-- Lines of a program that begin like an instruction or like the label of a literal. -/
theorem filter_rows {a : Assembly} (hn : ∀ r ∈ a.routines, IsIdentifier r.name) {start : String}
    (hs : ['.', 'S'] <+: start.toList ∨ [' '] <+: start.toList) :
    (a.parts.flatMap Part.rows).filter (start.toList <+: ·.toList) =
      (a.routines.flatMap fun r => (r.code.map Line.row).filter (start.toList <+: ·.toList)) ++
        (dataRows (a.pool.entries.map Quoted.encode)).filter (start.toList <+: ·.toList) := by
  have htext : (Part.rows .textSection).filter (start.toList <+: ·.toList) = [] := by
    rcases hs with ⟨rest, hs⟩ | ⟨rest, hs⟩ <;> simp [Part.rows, ← hs]
  have hnote : (Part.rows .stackNote).filter (start.toList <+: ·.toList) = [] := by
    rcases hs with ⟨rest, hs⟩ | ⟨rest, hs⟩ <;> simp [Part.rows, ← hs]
  have hroutines : (a.routines.flatMap Routine.rows).filter (start.toList <+: ·.toList) =
      a.routines.flatMap fun r => (r.code.map Line.row).filter (start.toList <+: ·.toList) := by
    rw [List.filter_flatMap]
    exact List.flatMap_congr fun r hr => Routine.filter_rows (hn r hr) hs
  rw [a.flatMap_rows_parts, List.filter_append, List.filter_append, List.filter_append, htext,
    hnote, hroutines, List.nil_append, List.append_nil]

theorem count_rows_section (a : Assembly) :
    (a.parts.flatMap Part.rows).count ".section .rodata" =
      if a.pool.entries.map Quoted.encode = [] then 0 else 1 := by
  have htext : (Part.rows .textSection).count ".section .rodata" = 0 := by decide
  have hnote : (Part.rows .stackNote).count ".section .rodata" = 0 := by decide
  have hroutines : (a.routines.flatMap Routine.rows).count ".section .rodata" = 0 := by
    rw [List.count_eq_zero]
    intro hm
    obtain ⟨r, -, hrow⟩ := List.mem_flatMap.1 hm
    exact r.section_not_mem_rows hrow
  rw [a.flatMap_rows_parts, List.count_append, List.count_append, List.count_append, htext,
    hnote, hroutines, count_dataRows_section, Nat.zero_add, Nat.add_zero]

end Assembly

/-- The references of all functions to literals, in order. -/
theorem flatMap_stringLoads {entries : List String} {fs : List FunctionDecl} {rs : List Routine}
    (h : List.Forall₂ (fun f r => r.name = f.name ∧ r.code.stringLoads =
      (Stmt.blockLiterals f.body).map fun value => (entries.idxOf value, .rax)) fs rs) :
    rs.flatMap (·.code.stringLoads) =
      (fs.flatMap fun f => Stmt.blockLiterals f.body).map fun value =>
        (entries.idxOf value, .rax) := by
  induction h with
  | nil => rfl
  | cons hf _ ih => rw [List.flatMap_cons, List.flatMap_cons, List.map_append, hf.2, ih]

/-! ## The literals of a program -/

namespace Program

/-- The string literals of a program in its pool, in its code and in its data section. -/
structure LiteralsPlaced (limits : Limits) (p : Program) (routines : List Routine)
    (operands : List String) : Prop where
  /-- The pool has each literal once, in the order of the first occurrences. -/
  pool : (p.generate limits).2.lowering.pool.entries = p.literals.eraseDups
  /-- Each occurrence of a literal takes the address of the literal's place in the pool. -/
  loads : List.Forall₂ (fun f r => r.name = f.name ∧ r.code.stringLoads =
    (Stmt.blockLiterals f.body).map fun value => (p.literals.eraseDups.idxOf value, .rax))
    p.functions routines
  /-- The data section stands behind the functions. -/
  written : p.written limits = utf8 (unlines
    (Part.rows .textSection ++ routines.flatMap Routine.rows ++ dataRows operands ++
      Part.rows .stackNote))
  /-- Its operands are read as the literals. -/
  operands : operands.map Quoted.decode = p.literals.eraseDups.map fun value => some (utf8 value)

/-- The lines of the output that have to do with literals. -/
structure LiteralLines (limits : Limits) (p : Program) : Prop where
  section_count : (lines (p.written limits)).count (utf8 ".section .rodata") =
    if p.literals = [] then 0 else 1
  labels : (lines (p.written limits)).filter (Begins ".STR" ·) =
    (List.range p.literals.eraseDups.length).map fun index => utf8 (stringLabel index ++ ":")
  loads : (lines (p.written limits)).filter (Begins "    leaq .STR" ·) =
    p.literals.map fun value => utf8 (stringLoadRow (p.literals.eraseDups.idxOf value, .rax))

variable {limits : Limits} {p : Program}

/-- What generation did to an accepted program. -/
theorem Accepted.exists_placed (h : p.Accepted limits) :
    ∃ a : Assembly, p.Assembles limits a ∧ a.pool.entries = p.literals.eraseDups ∧
      p.LiteralsPlaced limits a.routines (a.pool.entries.map Quoted.encode) := by
  have hruns : Runs (Generate.program p) (Generator.new limits {}) () (p.generate limits).2 :=
    Prod.ext h rfl
  obtain ⟨ht, hf, rs, t, hl, hg⟩ := Generate.runs_program_new.1 hruns
  obtain ⟨hentries, hloads⟩ := hl.collects
  have hpool : t.pool.entries = p.literals.eraseDups := by
    rw [← StringPool.foldl_addTo_nil]
    exact hentries
  refine ⟨⟨rs, t.pool⟩, ⟨ht, hf, t, hl, rfl⟩, hpool, ?_⟩
  refine ⟨?_, hpool ▸ hloads t.pool.entries List.prefix_rfl, ?_, ?_⟩
  · rw [hg]
    exact hpool
  · rw [written, hg, Assembly.text_eq_unlines, Assembly.flatMap_rows_parts]
  · rw [List.map_map, hpool]
    exact List.map_congr_left fun value _ => Quoted.decode_encode value

theorem LiteralsPlaced.literalLines {a : Assembly} (ha : p.Assembles limits a)
    (hpool : a.pool.entries = p.literals.eraseDups)
    (h : p.LiteralsPlaced limits a.routines (a.pool.entries.map Quoted.encode))
    (hn : ∀ f ∈ p.functions, IsIdentifier f.name) : p.LiteralLines limits := by
  have hlines : lines (p.written limits) = (a.parts.flatMap Part.rows).map utf8 ++ [[]] := by
    rw [ha.written_eq, a.text_eq_unlines, lines_parts (ha.wellNamed hn)]
  have hnames : ∀ r ∈ a.routines, IsIdentifier r.name := by
    intro r hr
    have hpart : Part.function r ∈ a.parts := by simp [Assembly.parts, hr]
    exact (ha.wellNamed hn _ hpart).1
  refine ⟨?_, ?_, ?_⟩
  · have hempty : a.pool.entries.map Quoted.encode = [] ↔ p.literals = [] := by
      rw [List.map_eq_nil_iff, hpool]
      cases p.literals <;> simp [List.eraseDups_cons]
    rw [hlines, count_lines _ (by decide), a.count_rows_section]
    simp only [hempty]
  · have hcode : (a.routines.flatMap fun r =>
        (r.code.map Line.row).filter (".STR".toList <+: ·.toList)) = [] := by
      rw [List.flatMap_eq_nil_iff]
      exact fun r _ => r.code.filter_rows_label
    rw [hlines, filter_begins_lines _ (by decide) (by decide),
      a.filter_rows hnames (.inl (by decide)), hcode, filter_dataRows_label, List.nil_append,
      List.length_map, hpool, List.map_map]
    rfl
  · rw [hlines, filter_begins_lines _ (by decide) (by decide),
      a.filter_rows hnames (.inr (by decide)), filter_dataRows_load, List.append_nil]
    simp only [Code.filter_rows_load]
    rw [← List.map_flatMap, flatMap_stringLoads h.loads, List.map_map, List.map_map]
    rfl

/-- The literals of an accepted program are numbered from left to right, and the data section holds
them under their numbers. -/
theorem literals_placed (h : p.Accepted limits) :
    (∃ routines operands, p.LiteralsPlaced limits routines operands) ∧
      ((∀ f ∈ p.functions, IsIdentifier f.name) → p.LiteralLines limits) := by
  obtain ⟨a, ha, hpool, hplaced⟩ := h.exists_placed
  exact ⟨⟨_, _, hplaced⟩, LiteralsPlaced.literalLines ha hpool hplaced⟩

theorem literals_placed_halves :
    halves.Accepted {} ∧ (∀ f ∈ halves.functions, IsIdentifier f.name) ∧
      halves.LiteralLines {} := by
  have hnames : ∀ f ∈ halves.functions, IsIdentifier f.name := by decide
  have haccepted : halves.Accepted {} := by decide +kernel
  exact ⟨haccepted, hnames, (literals_placed haccepted).2 hnames⟩

end Program

end WordLang
