/-!
# Limits of one compilation
-/
namespace WordLang

structure Limits where
  /-- Variables of one function, parameters included. -/
  maxVariables : Nat := 256
  /-- Distinct string literals of one program. -/
  maxStrings : Nat := 4096
  deriving DecidableEq, Repr

end WordLang
