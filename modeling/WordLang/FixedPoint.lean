import WordLang.Fault

/-!
# Fixed-point arithmetic

A word stands for a number with six decimal places. Angles are whole degrees, and exponents whole
numbers.
-/
namespace WordLang.FixedPoint

/-- The word that stands for one. -/
def scale : Int := 1000000

/-- A whole number as a word, if it fits. -/
def word (op : String) (n : Int) : Except Fault Int64 :=
  if Int64.minValue.toInt ≤ n ∧ n ≤ Int64.maxValue.toInt then .ok (Int64.ofInt n)
  else .error (.overflow op)

/-! ## Exact functions -/

/-- Newton's iteration from `x` with the next approximation `y`, as long as it falls. -/
def newton (n x y : Nat) : Nat :=
  if y < x then newton n y ((y + n / y) / 2) else x
termination_by x

/-- The greatest number whose square is at most `n`. -/
def isqrt (n : Nat) : Nat :=
  if n < 2 then n else newton n n ((n + 1) / 2)

def sqrt (x : Int64) : Except Fault Int64 :=
  if x < 0 then .error (.domainError "sqrt" x)
  else word "sqrt" (isqrt (x.toInt.toNat * scale.toNat))

def abs (x : Int64) : Except Fault Int64 := word "abs" x.toInt.natAbs

/-- Rounds down to a whole number. -/
def floor (x : Int64) : Except Fault Int64 := word "floor" (x.toInt / scale * scale)

/-- Rounds up to a whole number. -/
def ceil (x : Int64) : Except Fault Int64 :=
  if x.toInt % scale = 0 then .ok x
  else word "ceil" ((x.toInt / scale + 1) * scale)

def min (a b : Int64) : Int64 := if a ≤ b then a else b

def max (a b : Int64) : Int64 := if a ≤ b then b else a

/-! ## Approximate functions -/

def scaleFloat : Float := 1000000.0

def pi : Float := 3.141592653589793

/-- A tangent is cut off at this magnitude. -/
def tanLimit : Float := 1000000.0

/-- One more than the greatest word. -/
def wordBound : Float := 9223372036854775808.0

def toFloat (x : Int64) : Float := x.toFloat / scaleFloat

/-- The nearest fixed-point number; halves go away from zero. -/
def ofFloat (op : String) (value : Float) : Except Fault Int64 :=
  let scaled := (value * scaleFloat).round
  if !scaled.isFinite || scaled ≥ wordBound || scaled < -wordBound then .error (.overflow op)
  else .ok scaled.toInt64

/-- The nearest fixed-point number to a value of bounded magnitude. -/
def ofBounded (value : Float) : Int64 := (value * scaleFloat).round.toInt64

def radians (degrees : Int64) : Float := degrees.toFloat * pi / 180.0

def sin (degrees : Int64) : Int64 := ofBounded (radians degrees).sin

def cos (degrees : Int64) : Int64 := ofBounded (radians degrees).cos

def tan (degrees : Int64) : Int64 :=
  let t := (radians degrees).tan
  ofBounded (if t < -tanLimit then -tanLimit else if t > tanLimit then tanLimit else t)

/-- Raises `base` to a whole exponent. -/
def pow (base exponent : Int64) : Except Fault Int64 :=
  if exponent = 0 then .ok (Int64.ofInt scale)
  else if base = 0 ∧ exponent < 0 then .error (.domainError "pow" base)
  else ofFloat "pow" ((toFloat base).pow exponent.toFloat)

/-- Natural logarithm. -/
def log (x : Int64) : Except Fault Int64 :=
  if x ≤ 0 then .error (.domainError "log" x)
  else ofFloat "log" (toFloat x).log

def exp (x : Int64) : Except Fault Int64 := ofFloat "exp" (toFloat x).exp

end WordLang.FixedPoint
