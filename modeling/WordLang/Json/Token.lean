import WordLang.Json.Basic

/-!
# JSON tokens

A text is cut into tokens by maximal munch, with space, tab, line feed and carriage return between
them. `Token.chars` writes a token back in its shortest form, escaping only quotes, backslashes
and control characters.
-/
namespace WordLang.Json

inductive Token where
  | openBrace
  | closeBrace
  | openBracket
  | closeBracket
  | comma
  | colon
  | null
  | bool (value : Bool)
  | int (value : Int)
  | real (numeral : String)
  | str (text : Option String)

def isBlank (c : Char) : Bool :=
  c == ' ' || c == '\t' || c == '\n' || c == '\r'

/-! ## Strings -/

/-- One element of a string literal: a character, or a 16-bit unit written as an escape. -/
inductive Piece where
  | char (c : Char)
  | unit (value : Nat)

def hexValue? (c : Char) : Option Nat :=
  if '0' ≤ c ∧ c ≤ '9' then some (c.toNat - '0'.toNat)
  else if 'a' ≤ c ∧ c ≤ 'f' then some (c.toNat - 'a'.toNat + 10)
  else if 'A' ≤ c ∧ c ≤ 'F' then some (c.toNat - 'A'.toNat + 10)
  else none

/-- The 16-bit unit that four hexadecimal digits denote. -/
def unit? (a b c d : Char) : Option Nat := do
  let a ← hexValue? a
  let b ← hexValue? b
  let c ← hexValue? c
  let d ← hexValue? d
  return ((a * 16 + b) * 16 + c) * 16 + d

/-- The character that a backslash and `c` denote. -/
def escaped? (c : Char) : Option Char :=
  match c with
  | '"' => some '"'
  | '\\' => some '\\'
  | '/' => some '/'
  | 'b' => some '\x08'
  | 'f' => some '\x0c'
  | 'n' => some '\n'
  | 'r' => some '\r'
  | 't' => some '\t'
  | _ => none

/-- Reads the pieces of a literal up to its closing quote, and returns what follows the quote. -/
def pieces : List Char → Option (List Piece × List Char)
  | [] => none
  | c :: cs =>
    if c = '"' then some ([], cs)
    else if c = '\\' then
      match cs with
      | [] => none
      | e :: cs =>
        if e = 'u' then
          match cs with
          | h₁ :: h₂ :: h₃ :: h₄ :: cs => do
            let u ← unit? h₁ h₂ h₃ h₄
            let (ps, rest) ← pieces cs
            return (.unit u :: ps, rest)
          | _ => none
        else do
          let e ← escaped? e
          let (ps, rest) ← pieces cs
          return (.char e :: ps, rest)
    else if c.toNat < 0x20 then none
    else do
      let (ps, rest) ← pieces cs
      return (.char c :: ps, rest)

def isHighSurrogate (u : Nat) : Bool := 0xD800 ≤ u && u ≤ 0xDBFF

def isLowSurrogate (u : Nat) : Bool := 0xDC00 ≤ u && u ≤ 0xDFFF

/-- The characters that the pieces denote. A high surrogate unit must be followed at once by a low
one, and a low one must follow a high one. -/
def characters? : List Piece → Option (List Char)
  | [] => some []
  | .char c :: ps => (c :: ·) <$> characters? ps
  | .unit u :: ps =>
    if isLowSurrogate u then none
    else if isHighSurrogate u then
      match ps with
      | .unit v :: ps =>
        if isLowSurrogate v then
          (Char.ofNat (0x10000 + (u - 0xD800) * 0x400 + (v - 0xDC00)) :: ·) <$> characters? ps
        else none
      | _ => none
    else (Char.ofNat u :: ·) <$> characters? ps

def hexDigit (n : Nat) : Char := Nat.digitChar n

/-- How a character is written inside a literal. -/
def escape (c : Char) : List Char :=
  if c = '"' then ['\\', '"']
  else if c = '\\' then ['\\', '\\']
  else if c = '\x08' then ['\\', 'b']
  else if c = '\t' then ['\\', 't']
  else if c = '\n' then ['\\', 'n']
  else if c = '\x0c' then ['\\', 'f']
  else if c = '\r' then ['\\', 'r']
  else if c.toNat < 0x20 then
    ['\\', 'u', '0', '0', hexDigit (c.toNat / 16), hexDigit (c.toNat % 16)]
  else [c]

/-! ## Numerals -/

/-- A run of at least one digit. -/
def digits? (cs : List Char) : Option (List Char × List Char) :=
  match cs.takeWhile Char.isDigit with
  | [] => none
  | ds => some (ds, cs.dropWhile Char.isDigit)

/-- A lone zero, or digits that do not begin with one. -/
def whole? : List Char → Option (List Char × List Char)
  | '0' :: cs => some (['0'], cs)
  | cs => digits? cs

/-- A point and digits, or nothing. -/
def fraction? : List Char → Option (List Char × List Char)
  | '.' :: cs => do
    let (ds, rest) ← digits? cs
    return ('.' :: ds, rest)
  | cs => some ([], cs)

/-- An exponent mark, perhaps a sign, and digits, or nothing. -/
def exponent? : List Char → Option (List Char × List Char)
  | [] => some ([], [])
  | c :: cs =>
    if c = 'e' ∨ c = 'E' then
      match cs with
      | [] => none
      | s :: cs' =>
        if s = '+' ∨ s = '-' then do
          let (ds, rest) ← digits? cs'
          return (c :: s :: ds, rest)
        else do
          let (ds, rest) ← digits? (s :: cs')
          return (c :: ds, rest)
    else some ([], c :: cs)

/-- A numeral without fraction and exponent is an integer, except for a negative zero. -/
def unsignedNumeral? (negative : Bool) (cs : List Char) : Option (Token × List Char) := do
  let (ds, cs) ← whole? cs
  let (fs, cs) ← fraction? cs
  let (es, cs) ← exponent? cs
  let value := Nat.ofDigitChars 10 ds 0
  if fs.isEmpty && es.isEmpty && !(negative && value == 0) then
    return (.int (if negative then -value else value), cs)
  else
    return (.real (String.ofList ((if negative then ['-'] else []) ++ ds ++ fs ++ es)), cs)

def numeral? : List Char → Option (Token × List Char)
  | '-' :: cs => unsignedNumeral? true cs
  | cs => unsignedNumeral? false cs

/-! ## Cutting and joining -/

/-- The token at the head of a text that does not begin with a blank. -/
def token? (cs : List Char) : Option (Token × List Char) :=
  match cs with
  | '{' :: cs => some (.openBrace, cs)
  | '}' :: cs => some (.closeBrace, cs)
  | '[' :: cs => some (.openBracket, cs)
  | ']' :: cs => some (.closeBracket, cs)
  | ',' :: cs => some (.comma, cs)
  | ':' :: cs => some (.colon, cs)
  | 'n' :: 'u' :: 'l' :: 'l' :: cs => some (.null, cs)
  | 't' :: 'r' :: 'u' :: 'e' :: cs => some (.bool true, cs)
  | 'f' :: 'a' :: 'l' :: 's' :: 'e' :: cs => some (.bool false, cs)
  | '"' :: cs => do
    let (ps, rest) ← pieces cs
    return (.str (String.ofList <$> characters? ps), rest)
  | cs => numeral? cs

/-- At most `fuel` tokens; each takes at least one character. -/
def tokensWithin (fuel : Nat) (cs : List Char) : Option (List Token) :=
  match cs.dropWhile isBlank with
  | [] => some []
  | c :: cs =>
    match fuel with
    | 0 => none
    | fuel + 1 => do
      let (t, rest) ← token? (c :: cs)
      let ts ← tokensWithin fuel rest
      return t :: ts

/-- The tokens of a text, or `none` if some part of it is no token. -/
def tokens? (cs : List Char) : Option (List Token) :=
  tokensWithin cs.length cs

/-- How a token is written. A string that denotes no text is written as an unpaired surrogate. -/
def Token.chars : Token → List Char
  | .openBrace => ['{']
  | .closeBrace => ['}']
  | .openBracket => ['[']
  | .closeBracket => [']']
  | .comma => [',']
  | .colon => [':']
  | .null => ['n', 'u', 'l', 'l']
  | .bool true => ['t', 'r', 'u', 'e']
  | .bool false => ['f', 'a', 'l', 's', 'e']
  | .int i => i.repr.toList
  | .real numeral => numeral.toList
  | .str none => ['"', '\\', 'u', 'd', '8', '0', '0', '"']
  | .str (some text) => '"' :: text.toList.flatMap escape ++ ['"']

end WordLang.Json
