import WordLang.Tree.Encode

/-!
# Trees from JSON

Reading is more liberal than writing. The parts of a node may come as an object in any order, with
unknown members passed over, or as an array in the fixed order; some parts may be absent; a node
without parts may also be written as an object that holds `null`.

Each reader takes the number of brackets that may still be opened, and recursion follows that
number. Values under unknown names are not looked into, so they do not count.
-/
namespace WordLang

namespace Json

/-- The parts called `names`, in that order. An array may stop early, and must not go on; an object
must not hold one of them twice. -/
def parts? (names : List String) : Json → Option (List (Option Json))
  | .arr items =>
    if items.length ≤ names.length then
      some (items.map some ++ List.replicate (names.length - items.length) none)
    else none
  | .obj members => do
    let members ← members.mapM fun (name, v) => name.map (·, v)
    if names.all fun name => (members.filter (·.1 == name)).length ≤ 1 then
      some (names.map fun name => Table.find? members name)
    else none
  | _ => none

/-- The name of a node without parts. -/
def bareName? : Nat → Json → Option String
  | _, .str text => text
  | _ + 1, .obj [(some name, .null)] => some name
  | _, _ => none

/-- An array whose items `read` accepts. -/
def list? {α : Type} (read : Nat → Json → Option α) : Nat → Json → Option (List α)
  | depth + 1, .arr items => items.mapM (read depth)
  | _, _ => none

def texts? : Nat → Json → Option (List String) :=
  list? fun _ => text?

end Json

def BinaryOp.ofName? : String → Option BinaryOp
  | "Add" => some .add
  | "Sub" => some .sub
  | "Mul" => some .mul
  | "Div" => some .div
  | "Mod" => some .mod
  | _ => none

def BinaryOp.ofJson? (depth : Nat) (v : Json) : Option BinaryOp :=
  v.bareName? depth >>= BinaryOp.ofName?

def CompareOp.ofName? : String → Option CompareOp
  | "Eq" => some .eq
  | "NotEq" => some .notEq
  | "Lt" => some .lt
  | "LtEq" => some .ltEq
  | "Gt" => some .gt
  | "GtEq" => some .gtEq
  | _ => none

def CompareOp.ofJson? (depth : Nat) (v : Json) : Option CompareOp :=
  v.bareName? depth >>= CompareOp.ofName?

mutual

def Expr.ofJson? : Nat → Json → Option Expr
  | depth + 1, .obj [(some tag, v)] =>
    match tag with
    | "Int" => .int <$> v.word?
    | "Str" => .str <$> v.text?
    | "Ident" => .ident <$> v.text?
    | "Binary" => Expr.binaryOfJson? depth v
    | "Compare" => Expr.compareOfJson? depth v
    | "Call" => Expr.callOfJson? depth v
    | "Field" => Expr.fieldOfJson? depth v
    | _ => none
  | _, _ => none

/-- The parts of an arithmetic operation. -/
def Expr.binaryOfJson? : Nat → Json → Option Expr
  | 0, _ => none
  | depth + 1, v =>
    match v.parts? ["op", "lhs", "rhs"] with
    | some [some op, some lhs, some rhs] => do
      return .binary (← BinaryOp.ofJson? depth op) (← Expr.ofJson? depth lhs)
        (← Expr.ofJson? depth rhs)
    | _ => none

/-- The parts of a comparison. -/
def Expr.compareOfJson? : Nat → Json → Option Expr
  | 0, _ => none
  | depth + 1, v =>
    match v.parts? ["op", "lhs", "rhs"] with
    | some [some op, some lhs, some rhs] => do
      return .compare (← CompareOp.ofJson? depth op) (← Expr.ofJson? depth lhs)
        (← Expr.ofJson? depth rhs)
    | _ => none

/-- The parts of a call. -/
def Expr.callOfJson? : Nat → Json → Option Expr
  | 0, _ => none
  | depth + 1, v =>
    match v.parts? ["name", "args"] with
    | some [some name, some args] => do
      return .call (← name.text?) (← Expr.listOfJson? depth args)
    | _ => none

/-- The parts of a field access. -/
def Expr.fieldOfJson? : Nat → Json → Option Expr
  | 0, _ => none
  | _ + 1, v =>
    match v.parts? ["name", "field"] with
    | some [some name, some part] => do
      return .field (← name.text?) (← part.text?)
    | _ => none

def Expr.listOfJson? : Nat → Json → Option (List Expr)
  | depth + 1, .arr items => items.mapM (Expr.ofJson? depth)
  | _, _ => none

end

namespace Stmt

/-- The parts of a declaration. -/
def declareOfJson? : Nat → Json → Option Stmt
  | 0, _ => none
  | depth + 1, v =>
    match v.parts? ["name", "value"] with
    | some [some name, some value] => do
      return .declare (← name.text?) (← Expr.ofJson? depth value)
    | _ => none

/-- The parts of a record declaration. -/
def declareRecordOfJson? : Nat → Json → Option Stmt
  | 0, _ => none
  | _ + 1, v =>
    match v.parts? ["name", "type_name"] with
    | some [some name, some typeName] => do
      return .declareRecord (← name.text?) (← typeName.text?)
    | _ => none

/-- The parts of an assignment. -/
def setOfJson? : Nat → Json → Option Stmt
  | 0, _ => none
  | depth + 1, v =>
    match v.parts? ["name", "value"] with
    | some [some name, some value] => do
      return .set (← name.text?) (← Expr.ofJson? depth value)
    | _ => none

/-- The parts of an assignment to a field. -/
def setFieldOfJson? : Nat → Json → Option Stmt
  | 0, _ => none
  | depth + 1, v =>
    match v.parts? ["name", "field", "value"] with
    | some [some name, some field, some value] => do
      return .setField (← name.text?) (← field.text?) (← Expr.ofJson? depth value)
    | _ => none

/-- What a return carries; `null` stands for nothing. -/
def retOfJson? : Nat → Json → Option Stmt
  | _, .null => some (.ret none)
  | depth, v => (.ret ∘ some) <$> Expr.ofJson? depth v

/-- A statement without parts. -/
def bareOfName? : String → Option Stmt
  | "Break" => some .leave
  | "Continue" => some .again
  | _ => none

mutual

def ofJson? : Nat → Json → Option Stmt
  | _, .str (some name) => bareOfName? name
  | depth + 1, .obj [(some tag, v)] =>
    match tag with
    | "Let" => declareOfJson? depth v
    | "LetRecord" => declareRecordOfJson? depth v
    | "Set" => setOfJson? depth v
    | "SetField" => setFieldOfJson? depth v
    | "Return" => retOfJson? depth v
    | "If" => branchOfJson? depth v
    | "While" => loopOfJson? depth v
    | "Print" => .print <$> Expr.ofJson? depth v
    | "Expr" => .eval <$> Expr.ofJson? depth v
    | name =>
      match v with
      | .null => bareOfName? name
      | _ => none
  | _, _ => none

/-- The parts of a branch, of which the last may be absent. -/
def branchOfJson? : Nat → Json → Option Stmt
  | 0, _ => none
  | depth + 1, v =>
    match v.parts? ["cond", "then_body", "else_body"] with
    | some [some cond, some thenBody, none] => do
      return .branch (← Expr.ofJson? depth cond) (← listOfJson? depth thenBody) []
    | some [some cond, some thenBody, some elseBody] => do
      return .branch (← Expr.ofJson? depth cond) (← listOfJson? depth thenBody)
        (← listOfJson? depth elseBody)
    | _ => none

/-- The parts of a loop. -/
def loopOfJson? : Nat → Json → Option Stmt
  | 0, _ => none
  | depth + 1, v =>
    match v.parts? ["cond", "body"] with
    | some [some cond, some body] => do
      return .loop (← Expr.ofJson? depth cond) (← listOfJson? depth body)
    | _ => none

def listOfJson? : Nat → Json → Option (List Stmt)
  | depth + 1, .arr items => items.mapM (ofJson? depth)
  | _, _ => none

end

end Stmt

def FunctionDecl.ofJson? : Nat → Json → Option FunctionDecl
  | 0, _ => none
  | depth + 1, v =>
    match v.parts? ["name", "params", "body"] with
    | some [some name, params, some body] => do
      return {
        name := ← name.text?
        params := ← params.elim (some []) (Json.texts? depth)
        body := ← Stmt.listOfJson? depth body }
    | _ => none

def RecordDecl.ofJson? : Nat → Json → Option RecordDecl
  | 0, _ => none
  | depth + 1, v =>
    match v.parts? ["name", "fields"] with
    | some [some name, some fields] => do
      return { name := ← name.text?, fields := ← fields.texts? depth }
    | _ => none

def Program.ofJson? : Nat → Json → Option Program
  | 0, _ => none
  | depth + 1, v =>
    match v.parts? ["types", "functions"] with
    | some [types, functions] => do
      return {
        types := ← types.elim (some []) (Json.list? RecordDecl.ofJson? depth)
        functions := ← functions.elim (some []) (Json.list? FunctionDecl.ofJson? depth) }
    | _ => none

/-! ## Texts -/

/-- Brackets that a tree may have open at once. -/
def nestingLimit : Nat := 127

/-- A kind of tree with a JSON form. -/
class Tree (α : Type) where
  toJson : α → Json
  ofJson? : Nat → Json → Option α

instance : Tree Program := ⟨Program.toJson, Program.ofJson?⟩

instance : Tree FunctionDecl := ⟨FunctionDecl.toJson, FunctionDecl.ofJson?⟩

instance : Tree RecordDecl := ⟨RecordDecl.toJson, RecordDecl.ofJson?⟩

instance : Tree Stmt := ⟨Stmt.toJson, Stmt.ofJson?⟩

instance : Tree Expr := ⟨Expr.toJson, Expr.ofJson?⟩

instance : Tree BinaryOp := ⟨BinaryOp.toJson, BinaryOp.ofJson?⟩

instance : Tree CompareOp := ⟨CompareOp.toJson, CompareOp.ofJson?⟩

namespace Tree

variable {α : Type} [Tree α]

/-- The tree that a JSON value holds. -/
def read? (v : Json) : Option α := ofJson? nestingLimit v

/-- The tree that a text holds. -/
def decode? (text : String) : Option α := Json.parse? text >>= read?

/-- The text of a tree, without blanks. -/
def encode (t : α) : String := (toJson t).compress

end Tree

end WordLang
