import WordLang.Sink

/-!
# Why a program is refused

Each cause has a number, shared by causes of one kind, and a message that names the offender.
-/
namespace WordLang

inductive CompileError where
  | output (cause : OutputError)
  | undefinedVariable (name function : String)
  | undefinedFunction (name : String)
  | undefinedType (typeName : String)
  | unknownField (field typeName : String)
  | notARecord (name : String)
  /-- A record assigned as a whole. -/
  | notAScalar (name : String)
  | variableAlreadyDefined (name function : String)
  | duplicateFunction (name : String)
  | duplicateType (typeName : String)
  | argCountMismatch (function : String) (expected found : Nat)
  | tooManyArguments (function : String) (limit found : Nat)
  | tooManyVariables (function : String) (limit : Nat)
  | tooManyStrings (limit : Nat)
  | breakOutsideLoop (function : String)
  | continueOutsideLoop (function : String)
  deriving DecidableEq, Repr

/-- Kinds of causes. -/
inductive ErrorCode where
  | output
  | unknownSymbol
  | repeatedSymbol
  | outsideLoop
  | argumentCount
  | wordOrRecord
  | unknownField
  | tableLimit
  | registerLimit
  deriving DecidableEq, Repr

namespace ErrorCode

def number : ErrorCode → Nat
  | .output => 1
  | .unknownSymbol => 2000
  | .repeatedSymbol => 2001
  | .outsideLoop => 2002
  | .argumentCount => 3001
  | .wordOrRecord => 3004
  | .unknownField => 4000
  | .tableLimit => 5000
  | .registerLimit => 5001

def name : ErrorCode → String
  | .output => "IO0001"
  | .unknownSymbol => "SEM2000"
  | .repeatedSymbol => "SEM2001"
  | .outsideLoop => "SEM2002"
  | .argumentCount => "TYP3001"
  | .wordOrRecord => "TYP3004"
  | .unknownField => "REC4000"
  | .tableLimit => "LIM5000"
  | .registerLimit => "LIM5001"

end ErrorCode

namespace CompileError

def code : CompileError → ErrorCode
  | .output _ => .output
  | .undefinedVariable .. | .undefinedFunction _ | .undefinedType _ => .unknownSymbol
  | .variableAlreadyDefined .. | .duplicateFunction _ | .duplicateType _ => .repeatedSymbol
  | .breakOutsideLoop _ | .continueOutsideLoop _ => .outsideLoop
  | .argCountMismatch .. => .argumentCount
  | .notARecord _ | .notAScalar _ => .wordOrRecord
  | .unknownField .. => .unknownField
  | .tooManyVariables .. | .tooManyStrings _ => .tableLimit
  | .tooManyArguments .. => .registerLimit

def message : CompileError → String
  | .output cause =>
    let text := cause.message
    s!"Cannot write assembly output: {text}"
  | .undefinedVariable name function => s!"Undefined variable `{name}` in function `{function}`."
  | .undefinedFunction name => s!"Undefined function `{name}`."
  | .undefinedType typeName => s!"Undefined record type `{typeName}`."
  | .unknownField field typeName => s!"Record `{typeName}` has no field named `{field}`."
  | .notARecord name => s!"`{name}` is not a record."
  | .notAScalar name => s!"Record `{name}` cannot be assigned as a whole; assign its fields."
  | .variableAlreadyDefined name function =>
    s!"Variable `{name}` is already defined in function `{function}`."
  | .duplicateFunction name => s!"Function `{name}` is defined more than once."
  | .duplicateType typeName => s!"Record type `{typeName}` is defined more than once."
  | .argCountMismatch function expected found =>
    s!"Function `{function}` expects {expected} argument(s), found {found}."
  | .tooManyArguments function limit found =>
    s!"`{function}` uses {found} arguments; at most {limit} are supported."
  | .tooManyVariables function limit =>
    s!"Too many variables in function `{function}` (limit: {limit})."
  | .tooManyStrings limit => s!"Too many string literals (limit: {limit})."
  | .breakOutsideLoop function => s!"Break statement outside of loop in function `{function}`."
  | .continueOutsideLoop function =>
    s!"Continue statement outside of loop in function `{function}`."

end CompileError

end WordLang
