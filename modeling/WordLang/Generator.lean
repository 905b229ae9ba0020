import WordLang.Lowering.Stmt

/-!
# Generation of a program's assembly

A generator lowers functions one by one and writes each to its sink as soon as it is complete. What
it learned (declarations, literals, labels, the last frame) stays when a call fails, so several
programs can be generated one after another.
-/
namespace WordLang

open Asm

structure Generator where
  limits : Limits
  declarations : Declarations := {}
  lowering : Lowering
  sink : Sink
  deriving DecidableEq, Repr

abbrev Generate := ExceptT Halt (StateM Generator)

/-- A generator that has generated nothing; its frame is that of a function without a name. -/
def Generator.new (limits : Limits) (sink : Sink) : Generator where
  limits
  sink
  lowering := {
    pool := { capacity := limits.maxStrings }
    frame := { function := "", maxVariables := limits.maxVariables, exitLabel := 0 } }

/-- What happened so far, in order. -/
def Generator.events (g : Generator) : List Event := g.lowering.log.reverse

namespace Generate

def ofLower {α : Type} (action : Lower α) : Generate α := do
  let g ← get
  let (result, lowering) := action.run g.lowering
  set { g with lowering }
  match result with
  | .ok a => return a
  | .error e => throw e

def refuse {α : Type} (e : CompileError) : Generate α := throw (.refused e)

def write (text : String) : Generate Unit := do
  let g ← get
  let (result, sink) := g.sink.write (utf8 text)
  set { g with sink }
  match result with
  | .ok () => return
  | .error e => refuse (.output e)

/-- Takes in the declarations, and then refuses them if a name was there already. -/
def record (declarations : Declarations) (known : Bool) (e : CompileError) : Generate Unit := do
  modify fun g => { g with declarations }
  if known then refuse e

def declareType (decl : RecordDecl) : Generate Unit := do
  let decls := (← get).declarations
  record { decls with types := decls.types.put decl.name decl }
    (decls.types.contains decl.name) (.duplicateType decl.name)

def declareFunction (f : FunctionDecl) : Generate Unit := do
  let decls := (← get).declarations
  record { decls with functions := decls.functions.put f.name f.params.length }
    (decls.functions.contains f.name) (.duplicateFunction f.name)

/-- Lowers an expression into the current frame. Its code is not written. -/
def expr (e : Expr) : Generate Unit := do
  let _ ← ofLower (e.lower (← get).declarations)

/-- Lowers a statement into the current frame. Its code is not written. -/
def stmt (s : Stmt) : Generate Unit := do
  let _ ← ofLower (s.lower (← get).declarations)

/-- Lowers a function and writes it. -/
def function (f : FunctionDecl) : Generate Unit := do
  let g ← get
  let routine ← ofLower (f.lower g.limits g.declarations)
  write routine.text
  let frame := (← get).lowering.frame
  ofLower (Lower.note
    (.laidOut f.name (frame.vars.map fun (name, var) => (name, var.offset))))

def textSection : String := ".text\n"

/-- Marks the stack as not executable. -/
def stackNote : String := "\n.section .note.GNU-stack,\"\",@progbits\n"

/-- Writes the note at the end. -/
def close (functions literals : Nat) : Generate Unit := do
  write stackNote
  let labels := (← get).lowering.nextLabel
  ofLower (Lower.note (.generated functions literals labels))

/-- Writes what follows the functions: the string literals, if there are any, and the end. -/
def ending (functions : Nat) : Generate Unit := do
  let pool := (← get).lowering.pool
  if !pool.isEmpty then
    write ("\n" ++ pool.rodata)
  close functions pool.size

/-- Declares everything, then writes the functions and the string literals. -/
def program (p : Program) : Generate Unit := do
  p.types.forM declareType
  p.functions.forM declareFunction
  write textSection
  p.functions.forM function
  ending p.functions.length

def finish : Generate Unit := do
  match (← get).sink.flush with
  | .ok () => return
  | .error e => refuse (.output e)

end Generate

/-- Generates a whole program into a sink. -/
def Program.compile (limits : Limits) (sink : Sink) (p : Program) :
    Except Halt Unit × Generator :=
  (do Generate.program p; Generate.finish).run (Generator.new limits sink)

end WordLang
