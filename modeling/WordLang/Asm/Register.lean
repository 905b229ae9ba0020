/-!
# Registers
-/
namespace WordLang.Asm

inductive Register where
  | rax | rbx | rcx | rdx | rsi | rdi | rsp | rbp | r8 | r9 | r10 | r11
  deriving DecidableEq, Repr

namespace Register

def all : List Register :=
  [.rax, .rbx, .rcx, .rdx, .rsi, .rdi, .rsp, .rbp, .r8, .r9, .r10, .r11]

/-- Name of the 64-bit register. -/
def name : Register → String
  | .rax => "rax"
  | .rbx => "rbx"
  | .rcx => "rcx"
  | .rdx => "rdx"
  | .rsi => "rsi"
  | .rdi => "rdi"
  | .rsp => "rsp"
  | .rbp => "rbp"
  | .r8 => "r8"
  | .r9 => "r9"
  | .r10 => "r10"
  | .r11 => "r11"

/-- Name of the low byte. -/
def byteName : Register → String
  | .rax => "al"
  | .rbx => "bl"
  | .rcx => "cl"
  | .rdx => "dl"
  | .rsi => "sil"
  | .rdi => "dil"
  | .rsp => "spl"
  | .rbp => "bpl"
  | .r8 => "r8b"
  | .r9 => "r9b"
  | .r10 => "r10b"
  | .r11 => "r11b"

/-- The register as an operand. -/
def operand (r : Register) : String := "%" ++ r.name

/-- The low byte as an operand. -/
def byteOperand (r : Register) : String := "%" ++ r.byteName

/-- Registers that carry arguments, in order. -/
def args : List Register := [.rdi, .rsi, .rdx, .rcx, .r8, .r9]

/-- Holds the value of an expression and of a call. -/
def result : Register := .rax

/-- Holds the right operand of an operator. -/
def scratch : Register := .rcx

end Register

/-- Bytes of a word. -/
def wordSize : Nat := 8

/-- The least multiple of 16 that is at least `n`: the stack pointer's alignment at a call. -/
def alignTo16 (n : Nat) : Nat := (n + 15) / 16 * 16

end WordLang.Asm
