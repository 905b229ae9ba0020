import WordLang.Proofs.Listing

/-!
# Reading code back from its text

An assembler sees nothing but text. The first character of an operand tells what kind of operand it
is, and an instruction is known by its name and the kinds of its operands, so every line of code is
read back as it was written. In the text of a whole program nothing else reads as code: the
instructions and the symbols of an image are those that stand in the text.
-/
namespace WordLang

open Asm

namespace Asm

/-! ## Numbers and names -/

/-- An identifier that a call can name: one with a dollar sign in front is taken for a number. -/
def IsCallName (name : String) : Prop := IsIdentifier name ∧ name.toList.head? ≠ some '$'

instance (name : String) : Decidable (IsCallName name) :=
  inferInstanceAs (Decidable (IsIdentifier name ∧ _ ≠ _))

theorem IsCallName.exists_cons {name : String} (h : IsCallName name) :
    ∃ c cs, name.toList = c :: cs ∧ c ∉ ['%', '$', '-', '.'] := by
  obtain ⟨⟨hhead, hall⟩, hdollar⟩ := h
  cases hn : name.toList with
  | nil => simp [hn] at hhead
  | cons c cs =>
    refine ⟨c, cs, rfl, fun hc => ?_⟩
    have hchar := hall c (hn ▸ List.mem_cons_self)
    simp only [List.mem_cons, List.not_mem_nil, or_false] at hc
    rcases hc with rfl | rfl | rfl | rfl
    · exact absurd hchar (by decide)
    · simp [hn] at hdollar
    · exact absurd hchar (by decide)
    · simp [hn] at hhead

def natural? (cs : List Char) : Option Nat :=
  if cs.all Char.isDigit && !cs.isEmpty then some (Nat.ofDigitChars 10 cs 0) else none

def integer? : List Char → Option Int
  | '-' :: cs => (natural? cs).map fun n => -(n : Int)
  | cs => (natural? cs).map fun n => (n : Int)

def identifier? (cs : List Char) : Option String :=
  if IsIdentifier (.ofList cs) then some (.ofList cs) else none

@[simp] theorem natural?_toDigits (n : Nat) : natural? (Nat.toDigits 10 n) = some n := by
  have hdigits : (Nat.toDigits 10 n).all Char.isDigit = true :=
    List.all_eq_true.2 fun _ hc => Nat.isDigit_of_mem_toDigits (by decide) (by decide) hc
  rw [natural?, hdigits, Nat.ofDigitChars_ten_toDigits]
  simp

theorem integer?_of_natural? {cs : List Char} {n : Nat} (h : natural? cs = some n) :
    integer? cs = some (n : Int) := by
  unfold integer?
  split
  · simp [natural?] at h
  · simp [h]

@[simp] theorem integer?_repr (i : Int) : integer? i.repr.toList = some i := by
  cases i with
  | ofNat n =>
    apply integer?_of_natural?
    rw [show (Int.ofNat n).repr = n.repr from rfl, Nat.toList_repr]
    exact natural?_toDigits n
  | negSucc n =>
    have hrepr : (Int.negSucc n).repr.toList = '-' :: Nat.toDigits 10 (n + 1) := by
      show ("-" ++ (n + 1).repr).toList = _
      simp
    rw [hrepr, integer?, natural?_toDigits]
    rfl

theorem identifier?_eq_some {name : String} (h : IsIdentifier name) :
    identifier? name.toList = some name := by
  simp [identifier?, h]

/-! ## Operands -/

/-- The kinds of operands. -/
inductive Operand where
  | register (r : Register)
  | byte (r : Register)
  | number (value : Int)
  | slot (offset : Nat)
  | literal (index : Nat)
  | label (n : Nat)
  | callee (target : Callee)
  deriving DecidableEq, Repr

def Operand.text : Operand → String
  | .register r => r.operand
  | .byte r => r.byteOperand
  | .number value => immediate value
  | .slot offset => slotOperand offset
  | .literal index => stringLabel index ++ "(%rip)"
  | .label n => labelName n
  | .callee target => target.text

/-- Functions are called by names that can be read. -/
def Operand.WellNamed : Operand → Prop
  | .callee target => IsCallName target.symbol
  | _ => True

def Register.read? (name : List Char) : Option Operand :=
  (Register.all.find? (·.name.toList = name)).map .register <|>
    (Register.all.find? (·.byteName.toList = name)).map .byte

def Callee.read? (cs : List Char) : Option Callee :=
  match "@PLT".toList.isSuffixOf? cs with
  | some name => (identifier? name).map .library
  | none => (identifier? cs).map .own

def Operand.read? : List Char → Option Operand
  | '%' :: name => Register.read? name
  | '$' :: cs => (integer? cs).map .number
  | '-' :: cs => do return .slot (← natural? (← "(%rbp)".toList.isSuffixOf? cs))
  | '.' :: 'L' :: cs => (natural? cs).map .label
  | '.' :: 'S' :: 'T' :: 'R' :: cs => do
    return .literal (← natural? (← "(%rip)".toList.isSuffixOf? cs))
  | cs => (Callee.read? cs).map .callee

@[simp] theorem Register.read?_name (r : Register) :
    Register.read? r.name.toList = some (.register r) := by
  cases r <;> decide

@[simp] theorem Register.read?_byteName (r : Register) :
    Register.read? r.byteName.toList = some (.byte r) := by
  cases r <;> decide

/-- No identifier ends in the mark of the library. -/
theorem isSuffixOf?_identifier {name : String} (h : IsIdentifier name) :
    "@PLT".toList.isSuffixOf? name.toList = none := by
  rw [Option.eq_none_iff_forall_ne_some]
  intro cs hcs
  have hname : cs ++ "@PLT".toList = name.toList := List.isSuffixOf?_eq_some_iff_append_eq.1 hcs
  have hat : '@' ∈ name.toList := by
    rw [← hname]
    simp
  exact absurd (h.2 '@' hat) (by decide)

theorem Callee.read?_text {target : Callee} (h : IsIdentifier target.symbol) :
    Callee.read? target.text.toList = some target := by
  cases target with
  | own name =>
    have hname : IsIdentifier name := h
    rw [Callee.read?, Callee.text, isSuffixOf?_identifier hname]
    simp [identifier?_eq_some hname]
  | library name =>
    have hname : IsIdentifier name := h
    rw [Callee.read?, Callee.text, String.toList_append, isSuffixOf?_append]
    simp [identifier?_eq_some hname]

/-- A call is not taken for another kind of operand. -/
theorem Operand.read?_callee {target : Callee} (h : IsCallName target.symbol) :
    read? target.text.toList = (Callee.read? target.text.toList).map .callee := by
  obtain ⟨c, cs, htext, hc⟩ :
      ∃ c cs, target.text.toList = c :: cs ∧ c ∉ ['%', '$', '-', '.'] := by
    obtain ⟨c, cs, hname, hc⟩ := h.exists_cons
    cases target with
    | own name => exact ⟨c, cs, hname, hc⟩
    | library name =>
      refine ⟨c, cs ++ "@PLT".toList, ?_, hc⟩
      rw [Callee.text, String.toList_append, show name.toList = c :: cs from hname,
        List.cons_append]
  rw [htext]
  unfold read?
  split <;> simp_all

theorem Operand.read?_text {o : Operand} (h : o.WellNamed) : read? o.text.toList = some o := by
  cases o with
  | register r => simp [text, Register.operand, read?]
  | byte r => simp [text, Register.byteOperand, read?]
  | number value => simp [text, immediate, read?]
  | slot offset =>
    have htext : (slot offset).text.toList =
        '-' :: (Nat.toDigits 10 offset ++ "(%rbp)".toList) := by
      simp [text, slotOperand_eq]
    rw [htext, read?, isSuffixOf?_append]
    simp
  | literal index =>
    have htext : (literal index).text.toList =
        '.' :: 'S' :: 'T' :: 'R' :: (Nat.toDigits 10 index ++ "(%rip)".toList) := by
      simp [text, stringLabel_eq]
    rw [htext, read?, isSuffixOf?_append]
    simp
  | label n => simp [text, labelName_eq, read?]
  | callee target => rw [text, read?_callee h, Callee.read?_text h.1, Option.map_some]

/-! ## Instructions -/

/-- Moves a number that is a word. -/
def Instr.movImm? (value : Int) (dst : Register) : Option Instr :=
  if (Int64.ofInt value).toInt = value then some (.movImm (Int64.ofInt value) dst) else none

/-- The instruction of that name with these operands. -/
def Instr.ofOperands? : String → List Operand → Option Instr
  | "pushq", [.register src] => some (.push src)
  | "popq", [.register dst] => some (.pop dst)
  | "movq", [.register src, .register dst] => some (.mov src dst)
  | "movq", [.number value, .register dst] => movImm? value dst
  | "movabsq", [.number value, .register dst] => movImm? value dst
  | "movq", [.slot slot, .register dst] => some (.load slot dst)
  | "movq", [.register src, .slot slot] => some (.store src slot)
  | "movq", [.number value, .slot slot] => if value = 0 then some (.storeZero slot) else none
  | "leaq", [.slot slot, .register dst] => some (.leaSlot slot dst)
  | "leaq", [.literal index, .register dst] => some (.leaString index dst)
  | "addq", [.register src, .register dst] => some (.add src dst)
  | "subq", [.register src, .register dst] => some (.sub src dst)
  | "imulq", [.register src, .register dst] => some (.imul src dst)
  | "addq", [.number value, .register dst] => value.toNat?.map (.addImm · dst)
  | "subq", [.number value, .register dst] => value.toNat?.map (.subImm · dst)
  | "testq", [.register a, .register b] => some (.test a b)
  | "cmpq", [.register src, .register dst] => some (.cmp src dst)
  | "cmpq", [.number value, .register dst] => if value = 0 then some (.cmpZero dst) else none
  | "sete", [.byte dst] => some (.set .eq dst)
  | "setne", [.byte dst] => some (.set .notEq dst)
  | "setl", [.byte dst] => some (.set .lt dst)
  | "setle", [.byte dst] => some (.set .ltEq dst)
  | "setg", [.byte dst] => some (.set .gt dst)
  | "setge", [.byte dst] => some (.set .gtEq dst)
  | "movzbq", [.byte src, .register dst] => if src = dst then some (.zeroExtend dst) else none
  | "cqto", [] => some .cqto
  | "idivq", [.register divisor] => some (.idiv divisor)
  | "jmp", [.label n] => some (.jmp n)
  | "je", [.label n] => some (.je n)
  | "jne", [.label n] => some (.jne n)
  | "call", [.callee target] => some (.call target)
  | "ret", [] => some .ret
  | _, _ => none

/-- Reads an instruction: its name, and up to two operands, with a comma between them. -/
def Instr.read? (cs : List Char) : Option Instr :=
  match cs.splitOn ' ' with
  | [name] => ofOperands? (.ofList name) []
  | [name, a] => do ofOperands? (.ofList name) [← Operand.read? a]
  | [name, a, b] => do
    ofOperands? (.ofList name) [← Operand.read? (← ",".toList.isSuffixOf? a), ← Operand.read? b]
  | _ => none

theorem space_not_mem_toDigits (n : Nat) : ' ' ∉ Nat.toDigits 10 n := fun h =>
  absurd (Nat.isDigit_of_mem_toDigits (by decide) (by decide) h) (by decide)

theorem Operand.space_not_mem_text {o : Operand} (h : o.WellNamed) : ' ' ∉ o.text.toList := by
  cases o with
  | register r => cases r <;> decide
  | byte r => cases r <;> decide
  | number value =>
    cases value with
    | ofNat n =>
      show ' ' ∉ ("$" ++ n.repr).toList
      simp [space_not_mem_toDigits]
    | negSucc n =>
      show ' ' ∉ ("$" ++ ("-" ++ (n + 1).repr)).toList
      simp [space_not_mem_toDigits]
  | slot offset => simp [text, slotOperand_eq, space_not_mem_toDigits]
  | literal index => simp [text, stringLabel_eq, space_not_mem_toDigits]
  | label n => simp [text, labelName_eq, space_not_mem_toDigits]
  | callee target =>
    have hname : ' ' ∉ target.symbol.toList := fun hm => absurd (h.1.2 ' ' hm) (by decide)
    cases target <;> simpa [text, Callee.text, Callee.symbol] using hname

theorem splitOn_append_space {word rest : List Char} (h : ' ' ∉ word) :
    (word ++ ' ' :: rest).splitOn ' ' = word :: rest.splitOn ' ' := by
  have hsplit : (word ++ ' ' :: rest).splitOn ' ' = word.splitOn ' ' ++ rest.splitOn ' ' :=
    List.splitOnP_append_cons _ _ (by decide)
  rw [hsplit, List.splitOn_eq_singleton h]
  rfl

namespace Instr

variable {name : String} {i : Instr}

theorem read?_instr₁ (a : Operand) (ha : a.WellNamed) (hn : ' ' ∉ name.toList)
    (hi : ofOperands? name [a] = some i) : read? (instr₁ name a.text).toList = some i := by
  have hwords : (instr₁ name a.text).toList.splitOn ' ' = [name.toList, a.text.toList] := by
    rw [instr₁, String.toList_append, String.toList_append, List.append_assoc]
    show (name.toList ++ ' ' :: a.text.toList).splitOn ' ' = _
    rw [splitOn_append_space hn, List.splitOn_eq_singleton (a.space_not_mem_text ha)]
  simp [read?, hwords, Operand.read?_text ha, hi]

theorem read?_instr₂ (a b : Operand) (ha : a.WellNamed) (hb : b.WellNamed)
    (hn : ' ' ∉ name.toList) (hi : ofOperands? name [a, b] = some i) :
    read? (instr₂ name a.text b.text).toList = some i := by
  have hcomma : ' ' ∉ a.text.toList ++ [','] := by
    simpa using Operand.space_not_mem_text ha
  have hwords : (instr₂ name a.text b.text).toList.splitOn ' ' =
      [name.toList, a.text.toList ++ [','], b.text.toList] := by
    have htext : (instr₂ name a.text b.text).toList =
        name.toList ++ ' ' :: ((a.text.toList ++ [',']) ++ ' ' :: b.text.toList) := by
      simp [instr₂]
    rw [htext, splitOn_append_space hn, splitOn_append_space hcomma,
      List.splitOn_eq_singleton (b.space_not_mem_text hb)]
  simp [read?, hwords, isSuffixOf?_append, Operand.read?_text ha, Operand.read?_text hb, hi]

/-- Every instruction is read back as it was written. -/
theorem read?_text (h : ∀ callee, i = .call callee → IsCallName callee.symbol) :
    read? i.text.toList = some i := by
  -- The cases go by the kinds of the operands, since these and the name are all that is looked up.
  cases i with
  | push r | pop r | idiv r => exact read?_instr₁ (.register r) trivial (by decide) rfl
  | set op dst => cases op <;> exact read?_instr₁ (.byte dst) trivial (by decide) rfl
  | jmp n | je n | jne n => exact read?_instr₁ (.label n) trivial (by decide) rfl
  | call callee => exact read?_instr₁ (.callee callee) (h callee rfl) (by decide) rfl
  | mov a b | add a b | sub a b | imul a b | test a b | cmp a b =>
    exact read?_instr₂ (.register a) (.register b) trivial trivial (by decide) rfl
  | movImm value dst =>
    have hword : movImm? value.toInt dst = some (.movImm value dst) := by simp [movImm?]
    rw [Instr.text]
    split <;>
      exact read?_instr₂ (.number value.toInt) (.register dst) trivial trivial (by decide) hword
  | load slot dst | leaSlot slot dst =>
    exact read?_instr₂ (.slot slot) (.register dst) trivial trivial (by decide) rfl
  | store src slot =>
    exact read?_instr₂ (.register src) (.slot slot) trivial trivial (by decide) rfl
  | storeZero slot => exact read?_instr₂ (.number 0) (.slot slot) trivial trivial (by decide) rfl
  | leaString index dst =>
    exact read?_instr₂ (.literal index) (.register dst) trivial trivial (by decide) rfl
  | addImm value dst | subImm value dst =>
    exact read?_instr₂ (.number value) (.register dst) trivial trivial (by decide) rfl
  | cmpZero dst => exact read?_instr₂ (.number 0) (.register dst) trivial trivial (by decide) rfl
  | zeroExtend dst =>
    exact read?_instr₂ (.byte dst) (.register dst) trivial trivial (by decide) (if_pos rfl)
  | cqto | ret => rfl

example : read? "movq -8(%rbp), %rax".toList = some (.load 8 .rax) := by decide

/-- The directive for a string literal is not an instruction. -/
theorem read?_string (cs : List Char) : read? (".string".toList ++ ' ' :: cs) = none := by
  have hnone (operands : List Operand) :
      ofOperands? (.ofList ".string".toList) operands = none := rfl
  rw [read?, splitOn_append_space (by decide)]
  cases cs.splitOn ' ' with
  | nil => exact hnone []
  | cons a rest =>
    rcases rest with _ | ⟨b, _ | ⟨c, rest⟩⟩ <;> simp only [hnone] <;> simp

end Instr

/-! ## Lines -/

/-- What a line adds to the code of a program. -/
inductive Item where
  | entry (name : String)
  | line (line : Line)
  deriving DecidableEq, Repr

/-- Reads a line: an instruction, a label, the name of a function, or none of these. -/
def Item.read? (row : String) : Option Item :=
  match row.toList with
  | ' ' :: ' ' :: ' ' :: ' ' :: cs => (Instr.read? cs).map (.line ∘ .instr)
  | '.' :: 'L' :: cs => do return .line (.label (← natural? (← ":".toList.isSuffixOf? cs)))
  | cs => do return .entry (← identifier? (← ":".toList.isSuffixOf? cs))

namespace Item

theorem read?_row {l : Line} (h : ∀ callee, l = .instr (.call callee) → IsCallName callee.symbol) :
    read? l.row = some (.line l) := by
  cases l with
  | instr i =>
    have htext := Instr.read?_text fun callee hi => h callee (hi ▸ rfl)
    rw [read?, Line.toList_row_instr]
    simp [htext]
  | label n =>
    rw [read?, Line.toList_row_label]
    simp [isSuffixOf?_append]

/-- A line that is neither indented nor a label can only name a function. -/
theorem read?_eq_entry {row : String} (hindent : ¬ "    ".toList <+: row.toList)
    (hlabel : ¬ ".L".toList <+: row.toList) :
    read? row = do return .entry (← identifier? (← ":".toList.isSuffixOf? row.toList)) := by
  unfold read?
  split <;> simp_all

theorem read?_entry {name : String} (h : IsIdentifier name) :
    read? (name ++ ":") = some (.entry name) := by
  obtain ⟨c, cs, hname, hdot, hspace⟩ := h.exists_cons
  have htext : (name ++ ":").toList = c :: (cs ++ ":".toList) := by
    rw [String.toList_append, hname, List.cons_append]
  rw [read?_eq_entry (by simp [htext, hspace.symm]) (by simp [htext, hdot.symm]),
    String.toList_append, isSuffixOf?_append]
  simp [identifier?_eq_some h]

/-- Other than a label, nothing that begins with a dot adds to the code. -/
theorem read?_of_dot {row : String} (c : Char) (hrow : ['.', c] <+: row.toList) (hc : c ≠ 'L') :
    read? row = none := by
  obtain ⟨cs, hcs⟩ := hrow
  rw [read?_eq_entry (by simp [← hcs]) (by simp [← hcs, hc.symm]), Option.bind_eq_bind,
    Option.bind_eq_none_iff]
  intro name hname
  have hdot : name.head? = some '.' := by
    have hrow : name ++ ":".toList = '.' :: c :: cs :=
      (List.isSuffixOf?_eq_some_iff_append_eq.1 hname).trans hcs.symm
    cases name with
    | nil => simp at hrow
    | cons d ds => simpa using (List.cons.inj hrow).1
  have hnot : ¬ IsIdentifier (.ofList name) := by
    intro h
    simpa [hdot] using h.1
  simp [identifier?, hnot]

theorem read?_string (operand : String) :
    read? ("    .string \"" ++ operand ++ "\"") = none := by
  have hrow : ("    .string \"" ++ operand ++ "\"").toList =
      ' ' :: ' ' :: ' ' :: ' ' ::
        (".string".toList ++ ' ' :: ("\"" ++ operand ++ "\"").toList) := by
    simp
  rw [read?, hrow]
  simp only [Instr.read?_string, Option.map_none]

end Item

end Asm

/-! ## Programs -/

/-- What the lines of a text add to the code. -/
def items (bytes : List UInt8) : List Item :=
  (lines bytes).filterMap fun line => (String.fromUTF8? ⟨line.toArray⟩).bind Item.read?

theorem items_unlines {rows : List String} (h : ∀ row ∈ rows, OneLine row) :
    items (utf8 (unlines rows)) = rows.filterMap Item.read? := by
  have hread (row : String) :
      (String.fromUTF8? ⟨(utf8 row).toArray⟩).bind Item.read? = Item.read? row := by
    rw [fromUTF8?_eq_some_iff.2 rfl, Option.bind_some]
  have hrows : rows.map utf8 ++ [[]] = (rows ++ [""]).map utf8 := by
    rw [List.map_append]
    rfl
  have hlast : [""].filterMap Item.read? = [] := by decide
  rw [items, lines_unlines h, hrows, List.filterMap_map]
  simp only [Function.comp_def, hread]
  rw [List.filterMap_append, hlast, List.append_nil]

theorem filterMap_headerRows {name : String} (h : IsIdentifier name) :
    (Routine.headerRows name).filterMap Item.read? = [.entry name] := by
  have hempty : Item.read? "" = none := by decide
  have hglobl : Item.read? (".globl " ++ name) = none :=
    Item.read?_of_dot 'g' (by simp) (by decide)
  have htype : Item.read? (".type " ++ name ++ ", @function") = none :=
    Item.read?_of_dot 't' (by simp) (by decide)
  simp [Routine.headerRows, hempty, hglobl, htype, Item.read?_entry h]

theorem filterMap_dataRows (operands : List String) :
    (dataRows operands).filterMap Item.read? = [] := by
  rw [List.filterMap_eq_nil_iff]
  intro row hrow
  unfold dataRows at hrow
  split at hrow
  · simp at hrow
  · rw [List.mem_append, List.mem_flatMap] at hrow
    rcases hrow with hrow | ⟨⟨operand, index⟩, -, hrow⟩
    · simp only [List.mem_cons, List.not_mem_nil, or_false] at hrow
      rcases hrow with rfl | rfl <;> decide
    · simp only [literalRows, List.mem_cons, List.not_mem_nil, or_false] at hrow
      rcases hrow with rfl | rfl
      · exact Item.read?_of_dot 'S' (by simp [stringLabel_eq]) (by decide)
      · exact Item.read?_string operand

theorem Asm.Routine.filterMap_rows {r : Routine} (hname : IsIdentifier r.name)
    (hcalls : ∀ callee, .instr (.call callee) ∈ r.code → IsCallName callee.symbol) :
    r.rows.filterMap Item.read? = .entry r.name :: r.code.map .line := by
  have hcode : (r.code.map Line.row).filterMap Item.read? = r.code.map .line := by
    rw [List.filterMap_map, ← List.filterMap_eq_map]
    exact List.filterMap_congr fun l hl => Item.read?_row fun callee hc => hcalls callee (hc ▸ hl)
  rw [Routine.rows, List.filterMap_append, filterMap_headerRows hname, hcode]
  rfl

/-- The functions one after another, each with its name in front. -/
def Assembly.items (a : Assembly) : List Item :=
  a.routines.flatMap fun r => .entry r.name :: r.code.map .line

theorem Program.Assembles.filterMap_rows {limits : Limits} {p : Program} {a : Assembly}
    (h : p.Assembles limits a) (hn : ∀ f ∈ p.functions, IsCallName f.name) :
    (a.routines.flatMap Routine.rows).filterMap Item.read? = a.items := by
  rw [List.filterMap_flatMap]
  refine List.flatMap_congr fun r hr => ?_
  have hname : IsCallName r.name := h.name_of_routine hn hr
  exact Routine.filterMap_rows hname.1 fun _ hm => h.symbol_of_call hn (by decide) hr hm

/-- The text of a program holds the code of its functions, and nothing else that reads as code. -/
theorem Program.Assembles.items_written {limits : Limits} {p : Program} {a : Assembly}
    (h : p.Assembles limits a) (hn : ∀ f ∈ p.functions, IsCallName f.name) :
    items (p.written limits) = a.items := by
  have hlines := oneLine_parts (h.wellNamed fun f hf => (hn f hf).1)
  have htext : (Part.rows .textSection).filterMap Item.read? = [] := by decide
  have hnote : (Part.rows .stackNote).filterMap Item.read? = [] := by decide
  rw [h.written_eq, Assembly.text_eq_unlines, items_unlines hlines, Assembly.flatMap_rows_parts]
  simp [List.filterMap_append, htext, hnote, filterMap_dataRows, h.filterMap_rows hn]

namespace Asm.Item

def instrs (items : List Item) : List Instr :=
  items.filterMap fun
    | .line (.instr i) => some i
    | .line (.label _) | .entry _ => none

/-- Names and labels, with the number of instructions before them. -/
def symbols : Nat → List Item → Table Nat
  | _, [] => []
  | k, .entry name :: items => (name, k) :: symbols k items
  | k, .line (.label n) :: items => (labelName n, k) :: symbols k items
  | k, .line (.instr _) :: items => symbols (k + 1) items

theorem instrs_line (code : Code) : instrs (code.map .line) = code.instrs := by
  rw [instrs, List.filterMap_map]
  refine List.filterMap_congr fun l _ => ?_
  cases l <;> rfl

theorem symbols_line (k : Nat) (code : Code) (items : List Item) :
    symbols k (code.map .line ++ items) = code.symbols k ++ symbols (k + code.size) items := by
  induction code generalizing k with
  | nil => rfl
  | cons l code ih =>
    cases l with
    | label n => simp [symbols, Code.symbols, ih]
    | instr i => simp [symbols, Code.symbols, ih, Nat.add_assoc, Nat.add_comm 1]

end Asm.Item

theorem Assembly.instrs_items (a : Assembly) : Item.instrs a.items = a.instrs := by
  rw [Item.instrs, items, List.filterMap_flatMap]
  exact List.flatMap_congr fun r _ => Item.instrs_line r.code

theorem Assembly.symbols_items (a : Assembly) : Item.symbols 0 a.items = a.symbols := by
  rw [items, symbols]
  generalize 0 = k
  induction a.routines generalizing k with
  | nil => rfl
  | cons r rs ih =>
    rw [List.flatMap_cons, List.cons_append, Item.symbols, Item.symbols_line, ih]
    rfl

/-- The image of a program is the one that its text gives. -/
theorem Program.Assembles.loads_iff {limits : Limits} {p : Program} {a : Assembly}
    (h : p.Assembles limits a) (hn : ∀ f ∈ p.functions, IsCallName f.name)
    (img : Machine.Image) :
    img.Loads a ↔ img.instrs = Item.instrs (items (p.written limits)) ∧
      img.symbols = Item.symbols 0 (items (p.written limits)) := by
  rw [h.items_written hn, a.instrs_items, a.symbols_items]
  exact ⟨fun hl => ⟨hl.instrs, hl.symbols⟩, fun hl => ⟨hl.1, hl.2⟩⟩

end WordLang
