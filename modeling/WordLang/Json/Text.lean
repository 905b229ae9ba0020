import WordLang.Json.Token

/-!
# JSON texts

`parse?` reads a whole text, and `compress` writes a value without blanks. Reading is a pushdown
automaton over the tokens: its stack holds the containers still open, so nesting is unbounded.
-/
namespace WordLang.Json

/-! ## Reading -/

/-- A container still open, with what it holds so far in reverse. -/
inductive Context where
  | arr (items : List Json)
  | obj (members : List (Option String × Json)) (name : Option String)

/-- What may come next, under the open containers `stack`, the innermost first. -/
inductive Expect where
  /-- A value. -/
  | value (stack : List Context)
  /-- A value, or the end of the array just opened. -/
  | firstItem (stack : List Context)
  /-- A member, or the end of the object just opened. -/
  | firstMember (stack : List Context)
  /-- Another member of the object that holds `members`. -/
  | member (stack : List Context) (members : List (Option String × Json))
  /-- The colon after a member's name. -/
  | colon (stack : List Context) (members : List (Option String × Json)) (name : Option String)
  /-- A comma or the end of the innermost container, after the value `v`. -/
  | follow (stack : List Context) (v : Json)

/-- The first token of a value. -/
def openValue (stack : List Context) : Token → Option Expect
  | .null => some (.follow stack .null)
  | .bool b => some (.follow stack (.bool b))
  | .int i => some (.follow stack (.int i))
  | .real n => some (.follow stack (.real n))
  | .str t => some (.follow stack (.str t))
  | .openBracket => some (.firstItem stack)
  | .openBrace => some (.firstMember stack)
  | _ => none

def Expect.next : Expect → Token → Option Expect
  | .value stack, t => openValue stack t
  | .firstItem stack, .closeBracket => some (.follow stack (.arr []))
  | .firstItem stack, t => openValue (.arr [] :: stack) t
  | .firstMember stack, .closeBrace => some (.follow stack (.obj []))
  | .firstMember stack, .str name => some (.colon stack [] name)
  | .member stack ms, .str name => some (.colon stack ms name)
  | .colon stack ms name, .colon => some (.value (.obj ms name :: stack))
  | .follow (.arr items :: stack) v, .comma => some (.value (.arr (v :: items) :: stack))
  | .follow (.arr items :: stack) v, .closeBracket =>
    some (.follow stack (.arr (v :: items).reverse))
  | .follow (.obj ms name :: stack) v, .comma => some (.member stack ((name, v) :: ms))
  | .follow (.obj ms name :: stack) v, .closeBrace =>
    some (.follow stack (.obj ((name, v) :: ms).reverse))
  | _, _ => none

/-- The value read when no container is left open. -/
def Expect.result? : Expect → Option Json
  | .follow [] v => some v
  | _ => none

/-- The value of a sequence of tokens. -/
def ofTokens? (ts : List Token) : Option Json := do
  let final ← ts.foldlM Expect.next (.value [])
  final.result?

/-- The value of a text, or `none` if the text is not well formed. -/
def parse? (text : String) : Option Json := do
  let ts ← tokens? text.toList
  ofTokens? ts

/-! ## Writing -/

mutual

/-- The tokens of a value. -/
def tokens : Json → List Token
  | .null => [.null]
  | .bool b => [.bool b]
  | .int i => [.int i]
  | .real n => [.real n]
  | .str t => [.str t]
  | .arr items => .openBracket :: itemTokens items ++ [.closeBracket]
  | .obj members => .openBrace :: memberTokens members ++ [.closeBrace]

def itemTokens : List Json → List Token
  | [] => []
  | [v] => v.tokens
  | v :: vs => v.tokens ++ .comma :: itemTokens vs

def memberTokens : List (Option String × Json) → List Token
  | [] => []
  | [(name, v)] => .str name :: .colon :: v.tokens
  | (name, v) :: ms => .str name :: .colon :: v.tokens ++ .comma :: memberTokens ms

end

/-- The shortest text of a value. -/
def compress (v : Json) : String :=
  String.ofList (v.tokens.flatMap Token.chars)

end WordLang.Json
