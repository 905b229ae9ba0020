import Mathlib.Data.List.Count
import Mathlib.Data.List.Infix
import WordLang.Proofs.Escapes
import WordLang.Proofs.Image
import WordLang.Proofs.StackHeight

/-!
# Lines of the assembly text

A generator writes its text in parts: the head of the text section, one part for each function, the
string literals, and the stack note. Each part consists of complete lines, and as long as function
names are identifiers, what kind of line it is can be read off its first characters.
-/
namespace WordLang

open Asm

/-- The lines of a text; what follows the last newline is one more. -/
def lines (bytes : List UInt8) : List (List UInt8) := bytes.splitOn 10

/-- A text of complete lines. -/
def unlines (rows : List String) : String := String.join (rows.map (· ++ "\n"))

def OneLine (row : String) : Prop := '\n' ∉ row.toList

/-! ## Bytes and characters -/

theorem utf8_injective : Function.Injective utf8 := by
  intro a b h
  have hdata : a.toByteArray.data = b.toByteArray.data := Array.toList_inj.1 h
  exact String.toByteArray_inj.1 (ByteArray.ext hdata)

/-- Bytes are read as the text that they are the bytes of. -/
theorem fromUTF8?_eq_some_iff {bytes : List UInt8} {text : String} :
    String.fromUTF8? ⟨bytes.toArray⟩ = some text ↔ bytes = utf8 text := by
  unfold String.fromUTF8? utf8
  constructor
  · intro h
    split_ifs at h with hvalid
    cases h
    rfl
  · rintro rfl
    have hbytes : (⟨text.toUTF8.data.toList.toArray⟩ : ByteArray) = text.toUTF8 := rfl
    have hvalid : text.toUTF8.IsValidUTF8 := text.isValidUTF8
    rw [hbytes, dif_pos hvalid]
    rfl

theorem utf8EncodeChar_of_lt {c : Char} (h : c.toNat < 128) :
    String.utf8EncodeChar c = [UInt8.ofNat c.toNat] := by
  have hle : c.toNat ≤ 127 := Nat.le_of_lt_succ h
  simp [String.utf8EncodeChar, hle]

/-- The bytes of a character beyond ASCII are not those of an ASCII character. -/
theorem le_of_mem_utf8EncodeChar {c : Char} (h : 128 ≤ c.toNat) {b : UInt8}
    (hb : b ∈ String.utf8EncodeChar c) : 128 ≤ b.toNat := by
  have hle : ¬ c.toNat ≤ 127 := by omega
  simp only [String.utf8EncodeChar, Char.toNat_val, hle, if_false] at hb
  split at hb
  · simp only [List.mem_cons, List.not_mem_nil, or_false] at hb
    rcases hb with rfl | rfl <;> simp <;> omega
  · split at hb
    · simp only [List.mem_cons, List.not_mem_nil, or_false] at hb
      rcases hb with rfl | rfl | rfl <;> simp <;> omega
    · simp only [List.mem_cons, List.not_mem_nil, or_false] at hb
      rcases hb with rfl | rfl | rfl | rfl <;> simp <;> omega

theorem newline_not_mem_utf8 {row : String} (h : OneLine row) : 10 ∉ utf8 row := by
  intro hm
  rw [utf8_eq_flatMap, List.mem_flatMap] at hm
  obtain ⟨c, hc, hb⟩ := hm
  by_cases hlt : c.toNat < 128
  · rw [utf8EncodeChar_of_lt hlt, List.mem_singleton] at hb
    have hten : c.toNat = 10 := by
      have := congrArg UInt8.toNat hb
      simp at this
      omega
    have hnl : c = '\n' := Char.toNat_inj.1 hten
    exact h (hnl ▸ hc)
  · have := le_of_mem_utf8EncodeChar (Nat.le_of_not_lt hlt) hb
    simp at this

/-- A text begins with an ASCII text if its bytes do. -/
theorem utf8_prefix_iff {a b : String} (ha : ∀ c ∈ a.toList, c.toNat < 128) :
    utf8 a <+: utf8 b ↔ a.toList <+: b.toList := by
  rw [utf8_eq_flatMap, utf8_eq_flatMap]
  generalize b.toList = ds
  revert ha
  induction a.toList generalizing ds with
  | nil => simp
  | cons c cs ih =>
    intro ha
    have hc : c.toNat < 128 := ha c List.mem_cons_self
    have hcs : ∀ c ∈ cs, c.toNat < 128 := fun c hm => ha c (List.mem_cons_of_mem _ hm)
    cases ds with
    | nil => simp [utf8EncodeChar_of_lt hc]
    | cons d ds =>
      rw [List.flatMap_cons, List.flatMap_cons, utf8EncodeChar_of_lt hc, List.cons_prefix_cons]
      by_cases hd : d.toNat < 128
      · have hbyte : UInt8.ofNat c.toNat = UInt8.ofNat d.toNat ↔ c = d := by
          rw [← Char.toNat_inj, ← UInt8.toNat_inj]
          simp
          omega
        rw [utf8EncodeChar_of_lt hd, List.singleton_append, List.singleton_append,
          List.cons_prefix_cons, ih ds hcs, hbyte]
      · have hne : c ≠ d := fun h => hd (h ▸ hc)
        obtain ⟨b, bs, hbs⟩ : ∃ b bs, String.utf8EncodeChar d = b :: bs := by
          apply List.exists_cons_of_length_pos
          rw [String.length_utf8EncodeChar]
          exact d.utf8Size_pos
        have hb : 128 ≤ b.toNat :=
          le_of_mem_utf8EncodeChar (Nat.le_of_not_lt hd) (hbs ▸ List.mem_cons_self)
        have hbyte : UInt8.ofNat c.toNat ≠ b := by
          intro h
          have := congrArg UInt8.toNat h
          simp at this
          omega
        simp [hbs, hne, hbyte]

/-- Complete lines are found again as they were written. -/
theorem lines_unlines {rows : List String} (h : ∀ row ∈ rows, OneLine row) :
    lines (utf8 (unlines rows)) = rows.map utf8 ++ [[]] := by
  induction rows with
  | nil => rfl
  | cons row rows ih =>
    have hrow : 10 ∉ utf8 row := newline_not_mem_utf8 (h row List.mem_cons_self)
    have hrest := ih fun r hr => h r (List.mem_cons_of_mem _ hr)
    have htext : utf8 (unlines (row :: rows)) = utf8 row ++ 10 :: utf8 (unlines rows) := by
      simp [unlines, show utf8 "\n" = [10] from rfl]
    have hsplit : (utf8 row).splitOn 10 = [utf8 row] := List.splitOn_eq_singleton hrow
    calc lines (utf8 (unlines (row :: rows)))
      _ = (utf8 row).splitOn 10 ++ lines (utf8 (unlines rows)) := by
        rw [htext]
        exact List.splitOnP_append_cons _ _ (by rfl)
      _ = (row :: rows).map utf8 ++ [[]] := by
        rw [hsplit, hrest]
        rfl

@[simp] theorem unlines_append (a b : List String) : unlines (a ++ b) = unlines a ++ unlines b := by
  simp [unlines]

theorem unlines_flatMap {α : Type} (rows : α → List String) (xs : List α) :
    unlines (xs.flatMap rows) = String.join (xs.map fun x => unlines (rows x)) := by
  induction xs with
  | nil => rfl
  | cons x xs ih => simp [ih]

/-! ## Rows of the parts -/

namespace Asm

def Line.row : Line → String
  | .label n => labelName n ++ ":"
  | .instr i => "    " ++ i.text

def Routine.headerRows (name : String) : List String :=
  ["", ".globl " ++ name, ".type " ++ name ++ ", @function", name ++ ":"]

/-- The lines of a function. -/
def Routine.rows (r : Routine) : List String := headerRows r.name ++ r.code.map Line.row

theorem Code.text_eq_unlines (code : Code) : code.text = unlines (code.map Line.row) := by
  have hline (line : Line) : line.text = line.row ++ "\n" := by
    cases line <;> simp [Line.text, Line.row, String.append_assoc]
  rw [Code.text, unlines, List.map_map]
  exact congrArg String.join (List.map_congr_left fun line _ => hline line)

theorem Routine.text_eq_unlines (r : Routine) : r.text = unlines r.rows := by
  rw [rows, unlines_append, ← Code.text_eq_unlines, Routine.text]
  congr 1
  apply String.toList_injective
  simp [header, headerRows, unlines]

end Asm

/-- The two lines that define a string literal. -/
def literalRows (index : Nat) (operand : String) : List String :=
  [stringLabel index ++ ":", "    .string \"" ++ operand ++ "\""]

/-- The lines of the read-only data section, of which there are none without literals. -/
def dataRows (operands : List String) : List String :=
  if operands = [] then []
  else ["", ".section .rodata"] ++ operands.zipIdx.flatMap fun item =>
    literalRows item.2 item.1

theorem StringPool.rodata_eq_unlines (pool : StringPool) :
    (if pool.isEmpty then "" else "\n" ++ pool.rodata) =
      unlines (dataRows (pool.entries.map Quoted.encode)) := by
  have hdefinition (index : Nat) (value : String) :
      StringPool.definition index value = unlines (literalRows index (Quoted.encode value)) := by
    apply String.toList_injective
    simp [definition, literalRows, unlines]
  by_cases h : pool.entries = []
  · simp [isEmpty, h, dataRows, unlines]
  · have hne : ¬ pool.isEmpty = true := by simpa [isEmpty] using h
    have hhead : unlines ["", ".section .rodata"] = "\n" ++ ".section .rodata\n" := by decide
    have hmap : ¬ pool.entries.map Quoted.encode = [] := by simpa using h
    rw [if_neg hne, dataRows, if_neg hmap, unlines_append, unlines_flatMap, List.zipIdx_map,
      List.map_map, rodata, if_neg hne, enumerate, List.map_map, hhead, String.append_assoc]
    simp [hdefinition, Function.comp_def]

/-- What is written at a time. -/
inductive Part where
  | textSection
  | function (r : Routine)
  | literals (pool : StringPool)
  | stackNote

def Part.rows : Part → List String
  | .textSection => [".text"]
  | .function r => r.rows
  | .literals pool => dataRows (pool.entries.map Quoted.encode)
  | .stackNote => ["", ".section .note.GNU-stack,\"\",@progbits"]

/-! ## Names -/

/-- A name for the assembler: letters, digits, underscores, dots and dollar signs, of which a digit
or a dot does not come first. -/
def IsIdentifier (name : String) : Prop :=
  name.toList.head?.any (fun c => c != '.' && !c.isDigit) ∧
    ∀ c ∈ name.toList, c.isAlphanum ∨ c ∈ ['_', '.', '$']

-- The instance is given by name: a search may find one that goes through all characters.
instance (name : String) : Decidable (IsIdentifier name) :=
  @instDecidableAnd _ _ _ (List.decidableBAll _ _)

namespace IsIdentifier

variable {name : String}

/-- An identifier begins neither like a label nor like an instruction. -/
theorem exists_cons (h : IsIdentifier name) :
    ∃ c cs, name.toList = c :: cs ∧ c ≠ '.' ∧ c ≠ ' ' := by
  obtain ⟨hhead, hall⟩ := h
  cases hn : name.toList with
  | nil => simp [hn] at hhead
  | cons c cs =>
    simp only [hn, List.head?_cons, Option.any_some, Bool.and_eq_true, bne_iff_ne] at hhead
    refine ⟨c, cs, rfl, hhead.1, ?_⟩
    rintro rfl
    exact absurd (hall ' ' (hn ▸ List.mem_cons_self)) (by decide)

theorem oneLine (h : IsIdentifier name) : OneLine name := by
  intro hm
  exact absurd (h.2 '\n' hm) (by decide)

end IsIdentifier

/-- Functions are named, and called, by identifiers. -/
def Part.WellNamed : Part → Prop
  | .function r =>
    IsIdentifier r.name ∧ ∀ callee, .instr (.call callee) ∈ r.code → IsIdentifier callee.symbol
  | .textSection | .literals _ | .stackNote => True

/-! ## No line is broken -/

@[simp] theorem oneLine_append {a b : String} : OneLine (a ++ b) ↔ OneLine a ∧ OneLine b := by
  simp [OneLine]

@[simp] theorem oneLine_repr (n : Nat) : OneLine n.repr := by
  intro hm
  rw [Nat.toList_repr] at hm
  exact absurd (Nat.isDigit_of_mem_toDigits (by decide : 0 < 10) (by decide) hm) (by decide)

namespace Asm

@[simp] theorem oneLine_immediate (value : Int) : OneLine (immediate value) := by
  cases value with
  | ofNat n => exact oneLine_append.2 ⟨by simp [OneLine], oneLine_repr n⟩
  | negSucc n =>
    have hdigits : OneLine ("-" ++ (n + 1).repr) := by
      rw [oneLine_append]
      exact ⟨by simp [OneLine], oneLine_repr _⟩
    exact oneLine_append.2 ⟨by simp [OneLine], hdigits⟩

@[simp] theorem oneLine_operand (r : Register) : OneLine r.operand := by
  cases r <;> simp [OneLine, Register.operand, Register.name]

@[simp] theorem oneLine_byteOperand (r : Register) : OneLine r.byteOperand := by
  cases r <;> simp [OneLine, Register.byteOperand, Register.byteName]

theorem slotOperand_eq (slot : Nat) : slotOperand slot = "-" ++ slot.repr ++ "(%rbp)" := rfl

theorem stringLabel_eq (index : Nat) : stringLabel index = ".STR" ++ index.repr := rfl

theorem Instr.oneLine_text {i : Instr} (h : ∀ callee, i = .call callee → OneLine callee.symbol) :
    OneLine i.text := by
  cases i with
  | call callee =>
    have hname := h callee rfl
    cases callee <;> simpa [Instr.text, instr₁, Callee.text, OneLine, Callee.symbol] using hname
  | movImm value dst =>
    simp only [Instr.text, instr₂]
    split <;> simp <;> simp [OneLine]
  | set op dst =>
    cases op <;> simp [Instr.text, instr₁, conditionSuffix] <;> simp [OneLine]
  | _ =>
    simp [Instr.text, instr₁, instr₂, labelName_eq, slotOperand_eq, stringLabel_eq]
    simp [OneLine]

theorem Line.oneLine_row {line : Line}
    (h : ∀ callee, line = .instr (.call callee) → OneLine callee.symbol) : OneLine line.row := by
  cases line with
  | label n =>
    simp [Line.row, labelName_eq]
    simp [OneLine]
  | instr i =>
    have htext : OneLine i.text := Instr.oneLine_text fun callee hi => h callee (hi ▸ rfl)
    exact oneLine_append.2 ⟨by simp [OneLine], htext⟩

/-- An operand that can be read is on one line. -/
theorem Quoted.oneLine_of_decode {operand : String} {bytes : List UInt8}
    (h : Quoted.decode operand = some bytes) : OneLine operand := by
  have hread (state : Quoted.Escape) : state.read '\n' = none := by
    cases state with
    | none | backslash => rfl
    | octal digits value =>
      have hdigit : (if digits < 3 then octalValue? '\n' else none) = none := by
        split <;> rfl
      simp [Escape.read, readOctal, hdigit, readPlain]
  have hchars (state : Quoted.Escape) (cs : List Char) (bytes : List UInt8)
      (h : decodeFrom state cs = some bytes) : '\n' ∉ cs := by
    induction cs generalizing state bytes with
    | nil => simp
    | cons c cs ih =>
      rw [decodeFrom, Option.bind_eq_bind, Option.bind_eq_some_iff] at h
      obtain ⟨⟨first, next⟩, hc, h⟩ := h
      obtain ⟨rest, hrest, -⟩ := Option.bind_eq_some_iff.1 h
      rw [List.mem_cons, not_or]
      refine ⟨?_, ih next rest hrest⟩
      rintro rfl
      simp [hread] at hc
  exact hchars .none operand.toList bytes h

end Asm

theorem oneLine_of_mem_dataRows {operands : List String}
    (h : ∀ operand ∈ operands, OneLine operand) : ∀ row ∈ dataRows operands, OneLine row := by
  intro row hrow
  unfold dataRows at hrow
  split at hrow
  · simp at hrow
  · rw [List.mem_append, List.mem_flatMap] at hrow
    rcases hrow with hrow | ⟨⟨operand, index⟩, hm, hrow⟩
    · revert row
      simp [OneLine]
    · have hoperand := h operand (List.fst_mem_of_mem_zipIdx hm)
      simp only [literalRows, List.mem_cons, List.not_mem_nil, or_false] at hrow
      rcases hrow with rfl | rfl
      · simp [stringLabel_eq]
        simp [OneLine]
      · simp [hoperand]
        simp [OneLine]

theorem Part.oneLine {part : Part} (h : part.WellNamed) : ∀ row ∈ part.rows, OneLine row := by
  cases part with
  | textSection => simp [Part.rows, OneLine]
  | stackNote => simp [Part.rows, OneLine]
  | literals pool =>
    apply oneLine_of_mem_dataRows
    intro operand hm
    obtain ⟨value, -, rfl⟩ := List.mem_map.1 hm
    exact Quoted.oneLine_of_decode (Quoted.decode_encode value)
  | function r =>
    obtain ⟨hname, hcalls⟩ := h
    intro row hrow
    rw [Part.rows, Routine.rows, List.mem_append] at hrow
    rcases hrow with hrow | hrow
    · have := hname.oneLine
      revert row
      simp [Routine.headerRows, this]
      simp [OneLine]
    · obtain ⟨line, hline, rfl⟩ := List.mem_map.1 hrow
      exact Line.oneLine_row fun callee hc => (hcalls callee (hc ▸ hline)).oneLine

theorem oneLine_parts {parts : List Part} (h : ∀ part ∈ parts, part.WellNamed) :
    ∀ row ∈ parts.flatMap Part.rows, OneLine row := by
  intro row hrow
  obtain ⟨part, hm, hrow⟩ := List.mem_flatMap.1 hrow
  exact Part.oneLine (h part hm) row hrow

/-- The lines that are found in parts written one after another. -/
theorem lines_parts {parts : List Part} (h : ∀ part ∈ parts, part.WellNamed) :
    lines (utf8 (unlines (parts.flatMap Part.rows))) =
      (parts.flatMap Part.rows).map utf8 ++ [[]] :=
  lines_unlines (oneLine_parts h)

/-! ## Reading lines -/

theorem isPrefixOf?_append (cs rest : List Char) : cs.isPrefixOf? (cs ++ rest) = some rest :=
  List.isPrefixOf?_eq_some_iff_append_eq.2 rfl

theorem isSuffixOf?_append (cs mark : List Char) : mark.isSuffixOf? (cs ++ mark) = some cs :=
  List.isSuffixOf?_eq_some_iff_append_eq.2 rfl

/-- The line begins with that text. -/
def Begins (start : String) (line : List UInt8) : Prop := utf8 start <+: line

instance (start : String) (line : List UInt8) : Decidable (Begins start line) :=
  inferInstanceAs (Decidable (_ <+: _))

theorem begins_utf8 {start row : String} (h : start.toList.all (·.toNat < 128)) :
    Begins start (utf8 row) ↔ start.toList <+: row.toList :=
  utf8_prefix_iff (by simpa using h)

namespace Asm

theorem Line.toList_row_instr (i : Instr) :
    (Line.instr i).row.toList = ' ' :: ' ' :: ' ' :: ' ' :: i.text.toList := by
  simp [Line.row]

theorem Line.toList_row_label (n : Nat) :
    (Line.label n).row.toList = '.' :: 'L' :: (n.repr.toList ++ [':']) := by
  simp [Line.row, labelName_eq]

/-- Jumps are the instructions whose names begin with a j. -/
theorem Instr.text_jump {i : Instr} (h : ['j'] <+: i.text.toList) : ∃ n, i.target? = some n := by
  cases i with
  | jmp n | je n | jne n => exact ⟨n, rfl⟩
  | movImm value dst =>
    simp only [Instr.text] at h
    split at h <;> simp [instr₂] at h
  | _ => simp [Instr.text, instr₁, instr₂] at h

theorem Instr.text_leaString {i : Instr} (h : "leaq .STR".toList <+: i.text.toList) :
    ∃ index dst, i = .leaString index dst := by
  cases i with
  | leaString index dst => exact ⟨index, dst, rfl⟩
  | movImm value dst =>
    simp only [Instr.text] at h
    split at h <;> simp [instr₂] at h
  | _ => simp [Instr.text, instr₁, instr₂, slotOperand_eq] at h

end Asm

theorem count_lines (rows : List String) {row : String} (hne : row ≠ "") :
    (rows.map utf8 ++ [[]]).count (utf8 row) = rows.count row := by
  have hlast : [([] : List UInt8)].count (utf8 row) = 0 := by
    rw [List.count_eq_zero, List.mem_singleton]
    exact fun h => hne (utf8_injective h)
  rw [List.count_append, List.count_map_of_injective rows utf8 utf8_injective, hlast,
    Nat.add_zero]

theorem filter_begins_lines (rows : List String) {start : String}
    (h : start.toList.all (·.toNat < 128)) (hne : start ≠ "") :
    (rows.map utf8 ++ [[]]).filter (Begins start ·) =
      (rows.filter (start.toList <+: ·.toList)).map utf8 := by
  have hlast : [([] : List UInt8)].filter (Begins start ·) = [] := by
    have hstart : utf8 start ≠ [] := fun h => hne (utf8_injective h)
    simpa [Begins] using hstart
  rw [List.filter_append, hlast, List.append_nil, List.filter_map]
  congr 2
  funext row
  simp [begins_utf8 h]

/-! ## Calls name functions -/

/-- A function that was declared, or one of the support library. -/
def Declarations.Callable (decls : Declarations) : Callee → Prop
  | .own name => (decls.functions.find? name).isSome
  | .library name => (Builtin.find? name).isSome

theorem Declarations.callable_of_callee {decls : Declarations} {name : String} {found : Nat}
    {callee : Callee} (h : decls.callee name found = .ok callee) : decls.Callable callee := by
  rcases callee_eq_ok.1 h with ⟨hf, rfl⟩ | ⟨-, rfl, builtin, hb, -⟩
  · exact Option.isSome_of_eq_some hf
  · exact Option.isSome_of_eq_some hb

namespace Asm

variable {callee : Callee}

theorem not_call_mem_argPops (n : Nat) : .instr (.call callee) ∉ argPops n := by
  intro h
  obtain ⟨i, hi, he⟩ := List.mem_map.1 h
  obtain ⟨r, -, rfl⟩ := List.mem_map.1 hi
  simp at he

theorem call_mem_callCode {pending : Nat} {target : Callee}
    (h : .instr (.call callee) ∈ Lower.callCode pending target) : callee = target := by
  unfold Lower.callCode at h
  split at h <;> simpa [Code.ofInstrs] using h

end Asm

theorem BinaryOp.not_call_mem_code (op : BinaryOp) (n : Nat) {callee : Callee} :
    .instr (.call callee) ∉ op.code n := by
  cases op <;> simp [BinaryOp.code, divisionCode]

namespace Expr

variable {decls : Declarations} {callee : Callee}

mutual

theorem Lowers.callable {e : Expr} {s s' : Lowering} {code : Code} (h : e.Lowers decls s code s')
    (hm : .instr (.call callee) ∈ code) : decls.Callable callee := by
  cases h with
  | int | str _ | word _ | record _ | field _ => simp at hm
  | @binary op _ _ _ _ s₂ _ _ hl hr _ =>
    simp [operandsCode, op.not_call_mem_code] at hm
    rcases hm with hm | hm
    · exact hl.callable hm
    · exact hr.callable hm
  | compare hl hr _ =>
    simp [operandsCode, CompareOp.code, Code.ofInstrs] at hm
    rcases hm with hm | hm
    · exact hl.callable hm
    · exact hr.callable hm
  | call _ hc ha _ =>
    simp only [List.mem_append, not_call_mem_argPops, or_false] at hm
    rcases hm with hm | hm
    · exact ha.callable hm
    · exact call_mem_callCode hm ▸ Declarations.callable_of_callee hc

theorem LowersArgs.callable {args : List Expr} {s s' : Lowering} {code : Code}
    (h : LowersArgs decls args s code s') (hm : .instr (.call callee) ∈ code) :
    decls.Callable callee := by
  cases h with
  | nil => simp at hm
  | cons hv hr =>
    simp at hm
    rcases hm with hm | hm
    · exact hv.callable hm
    · exact hr.callable hm

end

end Expr

namespace Stmt

variable {decls : Declarations} {callee : Callee}

mutual

theorem Lowers.callable {stmt : Stmt} {s s' : Lowering} {code : Code}
    (h : stmt.Lowers decls s code s') (hm : .instr (.call callee) ∈ code) :
    decls.Callable callee := by
  cases h with
  | declare hv _ | set hv _ | setField hv _ | ret hv =>
    simp at hm
    exact hv.callable hm
  | declareRecord _ _ _ => simp [Lower.clearCode] at hm
  | retNone | leave _ | again _ => simp [Code.ofInstrs] at hm
  | eval hv => exact hv.callable hm
  | @print value s s' code hv =>
    have hprinter : decls.Callable (.library (value.printer s'.frame)) := by
      unfold Expr.printer
      split <;> rfl
    simp at hm
    rcases hm with hm | hm | hm
    · exact hv.callable hm
    · exact call_mem_callCode hm ▸ hprinter
    · exact call_mem_callCode hm ▸ rfl
  | branch hc hb =>
    simp [Code.ofInstrs] at hm
    rcases hm with hm | hm
    · exact hc.callable hm
    · exact hb.callable hm
  | branchElse _ hc hb ho =>
    simp [Code.ofInstrs] at hm
    rcases hm with hm | hm | hm
    · exact hc.callable hm
    · exact hb.callable hm
    · exact ho.callable hm
  | loop hc hb =>
    simp [Code.ofInstrs] at hm
    rcases hm with hm | hm
    · exact hc.callable hm
    · exact hb.callable hm

theorem LowersBlock.callable {stmts : List Stmt} {s s' : Lowering} {code : Code}
    (h : LowersBlock decls stmts s code s') (hm : .instr (.call callee) ∈ code) :
    decls.Callable callee := by
  cases h with
  | nil => simp at hm
  | cons hf hr =>
    rcases List.mem_append.1 hm with hm | hm
    · exact hf.callable hm
    · exact hr.callable hm

end

end Stmt

theorem StoresParams.not_call_mem {params : List (String × Register)} {s s' : Lowering}
    {code : Code} (h : StoresParams params s code s') {callee : Callee} :
    .instr (.call callee) ∉ code := by
  induction h with
  | nil => simp
  | cons _ _ ih => simpa using ih

/-- Every declared function has an identifier for a name. -/
def Declarations.Identifiers (decls : Declarations) : Prop :=
  ∀ name, (decls.functions.find? name).isSome → IsIdentifier name

/-- What holds of the names of declared functions and of the library holds of what calls name. -/
theorem Declarations.Callable.symbol {decls : Declarations} {P : String → Prop} {callee : Callee}
    (hc : decls.Callable callee) (hd : ∀ name, (decls.functions.find? name).isSome → P name)
    (hb : ∀ b ∈ Builtin.all, P b.name) : P callee.symbol := by
  cases callee with
  | own name => exact hd name hc
  | library name =>
    obtain ⟨b, hfind⟩ := Option.isSome_iff_exists.1 hc
    have hname : b.name = name := by simpa using List.find?_some hfind
    exact hname ▸ hb b (List.mem_of_find?_eq_some hfind)

theorem FunctionDecl.Lowers.callable {limits : Limits} {decls : Declarations} {f : FunctionDecl}
    {s s' : Lowering} {r : Routine} (h : f.Lowers limits decls s r s') {callee : Callee}
    (hm : .instr (.call callee) ∈ r.code) : decls.Callable callee := by
  have hprologue : Line.instr (.call callee) ∉ Code.ofInstrs r.prologue := by
    unfold Routine.prologue
    split <;> simp [Code.ofInstrs]
  obtain ⟨-, params, body, s₁, hp, hb, rfl⟩ := h
  rw [Routine.code, List.mem_append] at hm
  have hbody := hm.resolve_left hprologue
  simp [routine, Code.ofInstrs, Routine.epilogue, hp.not_call_mem] at hbody
  exact hb.callable hbody

theorem FunctionDecl.Lowers.wellNamed {limits : Limits} {decls : Declarations} {f : FunctionDecl}
    {s s' : Lowering} {r : Routine} (h : f.Lowers limits decls s r s') (hf : IsIdentifier f.name)
    (hd : decls.Identifiers) : (Part.function r).WellNamed :=
  ⟨h.name_eq ▸ hf, fun _ hm => (h.callable hm).symbol hd (by decide)⟩

/-! ## Programs -/

/-- The parts of an assembled program, in the order in which they are written. -/
def Assembly.parts (a : Assembly) : List Part :=
  .textSection :: a.routines.map .function ++ [.literals a.pool, .stackNote]

theorem Assembly.flatMap_rows_parts (a : Assembly) :
    a.parts.flatMap Part.rows = Part.rows .textSection ++ a.routines.flatMap Routine.rows ++
      dataRows (a.pool.entries.map Quoted.encode) ++ Part.rows .stackNote := by
  simp [parts, Part.rows, List.flatMap_map]

theorem Assembly.text_eq_unlines (a : Assembly) :
    a.text = unlines (a.parts.flatMap Part.rows) := by
  have hroutines : String.join (a.routines.map Routine.text) =
      unlines (a.routines.flatMap Routine.rows) := by
    rw [unlines_flatMap]
    exact congrArg String.join (List.map_congr_left fun r _ => r.text_eq_unlines)
  have htext : unlines (Part.rows .textSection) = Generate.textSection := by decide
  have hnote : unlines (Part.rows .stackNote) = Generate.stackNote := by decide
  rw [text, hroutines, a.pool.rodata_eq_unlines, flatMap_rows_parts, unlines_append,
    unlines_append, unlines_append, htext, hnote]

theorem Program.Assembles.symbol_of_call {limits : Limits} {p : Program} {a : Assembly}
    {P : String → Prop} (h : p.Assembles limits a) (hn : ∀ f ∈ p.functions, P f.name)
    (hb : ∀ b ∈ Builtin.all, P b.name) {r : Routine} (hr : r ∈ a.routines) {callee : Callee}
    (hm : .instr (.call callee) ∈ r.code) : P callee.symbol := by
  obtain ⟨_, _, _, _, hlowers⟩ := h.exists_function hr
  refine (hlowers.callable hm).symbol (fun name hname => ?_) hb
  obtain ⟨count, hc⟩ := Option.isSome_iff_exists.1 hname
  obtain ⟨f, hf, rfl, -⟩ := (Program.find?_functions h.functions_nodup).1 hc
  exact hn f hf

theorem Program.Assembles.wellNamed {limits : Limits} {p : Program} {a : Assembly}
    (h : p.Assembles limits a) (hn : ∀ f ∈ p.functions, IsIdentifier f.name) :
    ∀ part ∈ a.parts, part.WellNamed := by
  intro part hpart
  simp only [Assembly.parts, List.cons_append, List.mem_cons, List.mem_append, List.mem_map,
    List.not_mem_nil, or_false] at hpart
  rcases hpart with rfl | ⟨r, hr, rfl⟩ | rfl | rfl
  · trivial
  · exact ⟨h.name_of_routine hn hr, fun _ hm => h.symbol_of_call hn (by decide) hr hm⟩
  · trivial
  · trivial

end WordLang
