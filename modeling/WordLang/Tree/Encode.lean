import WordLang.Json.Text
import WordLang.Tree.Basic

/-!
# Trees as JSON

A node with several parts is an object that names its form and holds an object of the parts, all of
them present and in a fixed order. A node without parts is a string.
-/
namespace WordLang

/-- An object with the given members. -/
def Json.record (members : List (String × Json)) : Json :=
  .obj (members.map fun (name, v) => (some name, v))

/-- A node of the form `tag`. -/
def Json.tagged (tag : String) (v : Json) : Json :=
  .obj [(some tag, v)]

def Json.ofText (text : String) : Json := .str (some text)

def Json.ofTexts (texts : List String) : Json := .arr (texts.map Json.ofText)

def BinaryOp.name : BinaryOp → String
  | .add => "Add"
  | .sub => "Sub"
  | .mul => "Mul"
  | .div => "Div"
  | .mod => "Mod"

def BinaryOp.toJson (op : BinaryOp) : Json := .ofText op.name

def CompareOp.name : CompareOp → String
  | .eq => "Eq"
  | .notEq => "NotEq"
  | .lt => "Lt"
  | .ltEq => "LtEq"
  | .gt => "Gt"
  | .gtEq => "GtEq"

def CompareOp.toJson (op : CompareOp) : Json := .ofText op.name

mutual

def Expr.toJson : Expr → Json
  | .int value => .tagged "Int" (.int value.toInt)
  | .str text => .tagged "Str" (.ofText text)
  | .ident name => .tagged "Ident" (.ofText name)
  | .binary op lhs rhs =>
    .tagged "Binary" (.record [("op", op.toJson), ("lhs", lhs.toJson), ("rhs", rhs.toJson)])
  | .compare op lhs rhs =>
    .tagged "Compare" (.record [("op", op.toJson), ("lhs", lhs.toJson), ("rhs", rhs.toJson)])
  | .call name args =>
    .tagged "Call" (.record [("name", .ofText name), ("args", .arr (Expr.listToJson args))])
  | .field name part =>
    .tagged "Field" (.record [("name", .ofText name), ("field", .ofText part)])

def Expr.listToJson : List Expr → List Json
  | [] => []
  | e :: es => e.toJson :: Expr.listToJson es

end

mutual

def Stmt.toJson : Stmt → Json
  | .declare name value =>
    .tagged "Let" (.record [("name", .ofText name), ("value", value.toJson)])
  | .declareRecord name typeName =>
    .tagged "LetRecord" (.record [("name", .ofText name), ("type_name", .ofText typeName)])
  | .set name value =>
    .tagged "Set" (.record [("name", .ofText name), ("value", value.toJson)])
  | .setField name field value =>
    .tagged "SetField"
      (.record [("name", .ofText name), ("field", .ofText field), ("value", value.toJson)])
  | .ret none => .tagged "Return" .null
  | .ret (some value) => .tagged "Return" value.toJson
  | .branch cond thenBody elseBody =>
    .tagged "If"
      (.record [("cond", cond.toJson), ("then_body", .arr (Stmt.listToJson thenBody)),
        ("else_body", .arr (Stmt.listToJson elseBody))])
  | .loop cond body =>
    .tagged "While" (.record [("cond", cond.toJson), ("body", .arr (Stmt.listToJson body))])
  | .print value => .tagged "Print" value.toJson
  | .eval value => .tagged "Expr" value.toJson
  | .leave => .ofText "Break"
  | .again => .ofText "Continue"

def Stmt.listToJson : List Stmt → List Json
  | [] => []
  | s :: ss => s.toJson :: Stmt.listToJson ss

end

def FunctionDecl.toJson (f : FunctionDecl) : Json :=
  .record [("name", .ofText f.name), ("params", .ofTexts f.params),
    ("body", .arr (Stmt.listToJson f.body))]

def RecordDecl.toJson (decl : RecordDecl) : Json :=
  .record [("name", .ofText decl.name), ("fields", .ofTexts decl.fields)]

def Program.toJson (p : Program) : Json :=
  .record [("types", .arr (p.types.map RecordDecl.toJson)),
    ("functions", .arr (p.functions.map FunctionDecl.toJson))]

end WordLang
