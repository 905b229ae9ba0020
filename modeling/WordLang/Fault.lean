/-!
# Faults of the support library
-/
namespace WordLang

inductive Fault where
  | indexOutOfRange (index : Int64) (length : Nat)
  | nullHandle (op : String)
  /-- The argument lies outside the function's domain. -/
  | domainError (op : String) (value : Int64)
  /-- The result is not a 64-bit fixed-point number. -/
  | overflow (op : String)
  deriving DecidableEq, Repr

namespace Fault

def code : Fault → String
  | .indexOutOfRange .. => "R0001"
  | .nullHandle _ => "R0002"
  | .domainError .. => "R0003"
  | .overflow _ => "R0004"

def message : Fault → String
  | .indexOutOfRange index length =>
    s!"List index out of bounds: {index} (list length: {length})"
  | .nullHandle op => s!"`{op}` called with a null list handle"
  | .domainError op value => s!"`{op}` is undefined for argument {value}"
  | .overflow op => s!"`{op}` overflowed the fixed-point range"

end Fault

end WordLang
