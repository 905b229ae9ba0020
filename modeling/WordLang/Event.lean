/-!
# Log of a compilation
-/
namespace WordLang

inductive Level where
  | trace | debug | info
  deriving DecidableEq, Repr

def Level.name : Level → String
  | .trace => "TRACE"
  | .debug => "DEBUG"
  | .info => "INFO"

/-- What happened during a compilation. -/
inductive Event where
  | compiling (input : String) (functions types : Nat)
  | opened (output : String)
  | generating (function : String)
  | declared (function name : String) (offset slots : Nat)
  | interned (index bytes : Nat)
  /-- A function was written; `offsets` holds its variables. -/
  | laidOut (function : String) (offsets : List (String × Nat))
  | generated (functions strings labels : Nat)
  | wrote (output : String)
  deriving DecidableEq, Repr

namespace Event

def level : Event → Level
  | .compiling .. | .wrote _ => .info
  | .opened _ | .generating _ | .generated .. => .debug
  | .declared .. | .interned .. | .laidOut .. => .trace

def message : Event → String
  | .compiling input functions types =>
    s!"compiling {input} ({functions} function(s), {types} record type(s))"
  | .opened output => s!"writing assembly to {output}"
  | .generating function => s!"generating function `{function}`"
  | .declared function name offset slots =>
    s!"{function}: `{name}` at -{offset}(%rbp) ({slots} slot(s))"
  | .interned index bytes => s!"interned string literal {index} ({bytes} bytes)"
  | .laidOut function offsets =>
    let places := ", ".intercalate (offsets.map fun (name, offset) => s!"{name}@-{offset}")
    s!"`{function}` frame: {places}"
  | .generated functions strings labels =>
    s!"generated {functions} function(s), {strings} string literal(s), {labels} label(s)"
  | .wrote output => s!"wrote {output}"

end Event

end WordLang
