/-!
# JSON values

The value a JSON text denotes, with what later reading needs kept: object members stay in order
and may repeat, and a numeral that is not a plain integer stays as written.
-/
namespace WordLang

/-- A JSON value. A string, also as a member name, is `none` if an unpaired surrogate escape keeps
it from denoting a text. -/
inductive Json where
  | null
  | bool (value : Bool)
  | int (value : Int)
  | real (numeral : String)
  | str (text : Option String)
  | arr (items : List Json)
  | obj (members : List (Option String × Json))

namespace Json

/-- The text of a string value that denotes one. -/
def text? : Json → Option String
  | .str text => text
  | _ => none

/-- An integer that fits a 64-bit word. -/
def word? : Json → Option Int64
  | .int i =>
    if Int64.minValue.toInt ≤ i ∧ i ≤ Int64.maxValue.toInt then some (Int64.ofInt i) else none
  | _ => none

end Json

end WordLang
