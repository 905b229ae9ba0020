import WordLang.FixedPoint
import WordLang.Host.ListCall

/-!
# Calls of compiled programs

Every function of the support library that a compiled program may call.
-/
namespace WordLang

/-- Bytes at an address, up to and without the first zero byte; `none` is the null address. -/
abbrev CText := Option (List UInt8)

/-- What is read at the address of a text. -/
def CText.bytes : CText → List UInt8
  | none => utf8 "(null)"
  | some bytes => bytes.takeWhile (· != 0)

inductive MathCall where
  | sin (degrees : Int64)
  | cos (degrees : Int64)
  | tan (degrees : Int64)
  | sqrt (x : Int64)
  | pow (base exponent : Int64)
  | abs (x : Int64)
  | floor (x : Int64)
  | ceil (x : Int64)
  | min (a b : Int64)
  | max (a b : Int64)
  | random
  | log (x : Int64)
  | exp (x : Int64)
  deriving DecidableEq, Repr

inductive SystemCall where
  | printString (message : CText)
  | printInteger (value : Int64)
  | printNewline
  | abandon (message : CText)
  | assert (condition : Int64) (message : CText)
  | exit (code : Int64)
  deriving DecidableEq, Repr

inductive Call where
  | list (call : ListCall)
  | math (call : MathCall)
  | system (call : SystemCall)
  deriving DecidableEq, Repr

def MathCall.run : MathCall → Run Int64
  | .sin degrees => return FixedPoint.sin degrees
  | .cos degrees => return FixedPoint.cos degrees
  | .tan degrees => return FixedPoint.tan degrees
  | .sqrt x => Run.orFail (FixedPoint.sqrt x)
  | .pow base exponent => Run.orFail (FixedPoint.pow base exponent)
  | .abs x => Run.orFail (FixedPoint.abs x)
  | .floor x => Run.orFail (FixedPoint.floor x)
  | .ceil x => Run.orFail (FixedPoint.ceil x)
  | .min a b => return FixedPoint.min a b
  | .max a b => return FixedPoint.max a b
  | .random => modifyGet fun host =>
    let (value, source) := host.random.nextRandom
    (value, { host with random := source })
  | .log x => Run.orFail (FixedPoint.log x)
  | .exp x => Run.orFail (FixedPoint.exp x)

def SystemCall.run : SystemCall → Run Unit
  | .printString message => Run.print message.bytes
  | .printInteger value => Run.print (Diagnostic.integer value)
  | .printNewline => Run.print (utf8 "\n")
  | .abandon message => do
    Run.print (Diagnostic.abandonment message.bytes).flatten
    throw (.exit 1)
  | .assert condition message => do
    Run.print (Diagnostic.assertion condition message.bytes).flatten
    if condition = 0 then throw (.exit 1)
  -- the parent sees the low byte
  | .exit code => throw (.exit (code.toInt % 256).toNat)

def Call.run : Call → Run Reply
  | .list call => call.run
  | .math call => return .word (← call.run)
  | .system call => do
    call.run
    return .nothing

end WordLang
