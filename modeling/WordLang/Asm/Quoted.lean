import WordLang.Sink

/-!
# Quoted strings

The operand of a `.string` directive. Printable ASCII stands for itself, quotes and backslashes are
escaped, and every other byte is written with a letter or with exactly three octal digits, so that
a digit that follows is never taken for part of it.
-/
namespace WordLang.Asm.Quoted

def octalDigit (n : Nat) : Char := Nat.digitChar (n % 8)

/-- How a byte is written between quotes. -/
def escape (b : UInt8) : List Char :=
  if b = 0x5c then ['\\', '\\']
  else if b = 0x22 then ['\\', '"']
  else if b = 0x0a then ['\\', 'n']
  else if b = 0x09 then ['\\', 't']
  else if b = 0x0d then ['\\', 'r']
  else if 0x20 ≤ b ∧ b ≤ 0x7e then [Char.ofNat b.toNat]
  else ['\\', octalDigit (b.toNat / 64), octalDigit (b.toNat / 8), octalDigit b.toNat]

/-- The text between the quotes for the UTF-8 bytes of `value`. -/
def encode (value : String) : String :=
  String.ofList ((utf8 value).flatMap escape)

end WordLang.Asm.Quoted
