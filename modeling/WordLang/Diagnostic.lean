import WordLang.CompileError
import WordLang.Fault

/-!
# Diagnostics

What compiled programs print, and how failures are reported. Integers are laid out from the end of
a buffer of fixed size, so nothing is allocated while a program is failing.
-/
namespace WordLang.Diagnostic

/-! ## Integers -/

/-- Bytes of the longest integer, sign included. -/
def bufferLength : Nat := 20

/-- Puts the digits of `n` in front of `tail`, one byte of the `room` each. Returns the room that is
left, or `none` if there was too little. -/
def placeDigits : Nat → Nat → List UInt8 → Option (Nat × List UInt8)
  | 0, _, _ => none
  | room + 1, n, tail =>
    let tail := UInt8.ofNat (0x30 + n % 10) :: tail
    if n / 10 = 0 then some (room, tail) else placeDigits room (n / 10) tail

/-- Puts a minus sign in front of `tail`. -/
def placeSign : Nat → List UInt8 → Option (List UInt8)
  | 0, _ => none
  | _ + 1, tail => some (0x2d :: tail)

/-- The signed decimal numeral of a word, if it fits the buffer. -/
def numeral? (value : Int64) : Option (List UInt8) := do
  let (room, digits) ← placeDigits bufferLength value.toInt.natAbs []
  if value < 0 then placeSign room digits else some digits

def integer (value : Int64) : List UInt8 := (numeral? value).getD []

/-! ## Messages, in parts that are written one after another -/

def fault (f : Fault) : List (List UInt8) :=
  [utf8 "[RUNTIME ERROR] ", utf8 f.message, utf8 "\n"]

def abandonment (message : List UInt8) : List (List UInt8) :=
  [utf8 "PANIC: ", message, utf8 "\n"]

/-- Says nothing if the condition is not zero. -/
def assertion (condition : Int64) (message : List UInt8) : List (List UInt8) :=
  if condition ≠ 0 then [] else [utf8 "ASSERTION FAILED: ", message, utf8 "\n"]

/-- The line that reports a compile error. -/
def compileError (e : CompileError) : List (List UInt8) :=
  [utf8 "error[", integer (Int64.ofNat e.code.number), utf8 "]: ", utf8 e.message, utf8 "\n"]

end WordLang.Diagnostic
