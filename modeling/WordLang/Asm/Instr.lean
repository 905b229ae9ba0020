import WordLang.Asm.Register
import WordLang.Tree.Basic

/-!
# Instructions

The instructions that lowering uses, as data; `Instr.text` writes one in AT&T form. A slot is a
distance in bytes below the frame pointer, and a label is a number.
-/
namespace WordLang.Asm

/-- What a call names: a function of the program, or one of the support library. -/
inductive Callee where
  | own (name : String)
  | library (name : String)
  deriving DecidableEq, Repr

inductive Instr where
  | push (src : Register)
  | pop (dst : Register)
  | mov (src dst : Register)
  | movImm (value : Int64) (dst : Register)
  | load (slot : Nat) (dst : Register)
  | store (src : Register) (slot : Nat)
  | storeZero (slot : Nat)
  | leaSlot (slot : Nat) (dst : Register)
  | leaString (index : Nat) (dst : Register)
  | add (src dst : Register)
  | sub (src dst : Register)
  | imul (src dst : Register)
  | addImm (value : Nat) (dst : Register)
  | subImm (value : Nat) (dst : Register)
  | test (a b : Register)
  | cmp (src dst : Register)
  | cmpZero (dst : Register)
  /-- Sets the low byte of `dst` to the outcome of a signed comparison. -/
  | set (op : CompareOp) (dst : Register)
  /-- Clears all but the low byte. -/
  | zeroExtend (dst : Register)
  | cqto
  | idiv (divisor : Register)
  | jmp (label : Nat)
  | je (label : Nat)
  | jne (label : Nat)
  | call (callee : Callee)
  | ret
  deriving DecidableEq, Repr

def Callee.text : Callee → String
  | .own name => name
  | .library name => name ++ "@PLT"

def labelName (n : Nat) : String := s!".L{n}"

/-- Label of a string literal. -/
def stringLabel (index : Nat) : String := s!".STR{index}"

def slotOperand (slot : Nat) : String := s!"-{slot}(%rbp)"

/-- Suffix of the signed conditions. -/
def conditionSuffix : CompareOp → String
  | .eq => "e"
  | .notEq => "ne"
  | .lt => "l"
  | .ltEq => "le"
  | .gt => "g"
  | .gtEq => "ge"

/-- Whether sign extension of the low half gives the word back. -/
def fitsHalf (value : Int64) : Bool :=
  -2147483648 ≤ value.toInt && value.toInt ≤ 2147483647

def instr₁ (mnemonic a : String) : String := mnemonic ++ " " ++ a

def instr₂ (mnemonic a b : String) : String := mnemonic ++ " " ++ a ++ ", " ++ b

def immediate (value : Int) : String := "$" ++ value.repr

def Instr.text : Instr → String
  | .push src => instr₁ "pushq" src.operand
  | .pop dst => instr₁ "popq" dst.operand
  | .mov src dst => instr₂ "movq" src.operand dst.operand
  | .movImm value dst =>
    instr₂ (if fitsHalf value then "movq" else "movabsq") (immediate value.toInt) dst.operand
  | .load slot dst => instr₂ "movq" (slotOperand slot) dst.operand
  | .store src slot => instr₂ "movq" src.operand (slotOperand slot)
  | .storeZero slot => instr₂ "movq" (immediate 0) (slotOperand slot)
  | .leaSlot slot dst => instr₂ "leaq" (slotOperand slot) dst.operand
  | .leaString index dst => instr₂ "leaq" (stringLabel index ++ "(%rip)") dst.operand
  | .add src dst => instr₂ "addq" src.operand dst.operand
  | .sub src dst => instr₂ "subq" src.operand dst.operand
  | .imul src dst => instr₂ "imulq" src.operand dst.operand
  | .addImm value dst => instr₂ "addq" (immediate value) dst.operand
  | .subImm value dst => instr₂ "subq" (immediate value) dst.operand
  | .test a b => instr₂ "testq" a.operand b.operand
  | .cmp src dst => instr₂ "cmpq" src.operand dst.operand
  | .cmpZero dst => instr₂ "cmpq" (immediate 0) dst.operand
  | .set op dst => instr₁ ("set" ++ conditionSuffix op) dst.byteOperand
  | .zeroExtend dst => instr₂ "movzbq" dst.byteOperand dst.operand
  | .cqto => "cqto"
  | .idiv divisor => instr₁ "idivq" divisor.operand
  | .jmp label => instr₁ "jmp" (labelName label)
  | .je label => instr₁ "je" (labelName label)
  | .jne label => instr₁ "jne" (labelName label)
  | .call callee => instr₁ "call" callee.text
  | .ret => "ret"

/-- A line of code: a place that jumps can name, or an instruction. -/
inductive Line where
  | label (n : Nat)
  | instr (i : Instr)
  deriving DecidableEq, Repr

def Line.text : Line → String
  | .label n => labelName n ++ ":\n"
  | .instr i => "    " ++ i.text ++ "\n"

abbrev Code := List Line

/-- Instructions without labels between them. -/
def Code.ofInstrs (is : List Instr) : Code := is.map .instr

def Code.text (code : Code) : String := String.join (code.map Line.text)

end WordLang.Asm
