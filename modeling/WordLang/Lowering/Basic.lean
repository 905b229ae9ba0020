import WordLang.Asm.Routine
import WordLang.Builtin
import WordLang.Event
import WordLang.Frame
import WordLang.StringPool

/-!
# Lowering

Lowering turns trees into code. It reads the declarations of the program, and it keeps a state: the
string pool and the next label, which last for the whole program, and the frame of the current
function. The state is kept when lowering stops with an error.
-/
namespace WordLang

open Asm

/-- Functions with their numbers of parameters, and record types. -/
structure Declarations where
  functions : Table Nat := []
  types : Table RecordDecl := []
  deriving DecidableEq, Repr

/-- Why lowering stops. -/
inductive Halt where
  | refused (e : CompileError)
  /-- A slot or the number of pushed words would fall below zero. -/
  | underflow
  deriving DecidableEq, Repr

structure Lowering where
  pool : StringPool
  nextLabel : Nat := 0
  frame : Frame
  /-- Events, the latest first. -/
  log : List Event := []
  deriving DecidableEq, Repr

abbrev Lower := ExceptT Halt (StateM Lowering)

/-- The frame after the body of a loop. An underflow leaves at once, and the loop stays open. -/
def Frame.afterBody {α : Type} (frame : Frame) : Except Halt α → Frame
  | .error .underflow => frame
  | .error (.refused _) | .ok _ => frame.exitLoop

namespace Declarations

/-- A call has at most as many arguments as there are registers for them. -/
def checkArgCount (function : String) (found : Nat) : Except CompileError Unit :=
  if Register.args.length < found then
    .error (.tooManyArguments function Register.args.length found)
  else .ok ()

/-- What a call with `found` arguments names. Functions of the program come before those of the
support library. -/
def callee (decls : Declarations) (name : String) (found : Nat) : Except CompileError Callee :=
  match decls.functions.find? name, Builtin.find? name with
  | some arity, _ => check arity (.own name)
  | none, some builtin => check builtin.arity (.library name)
  | none, none => .error (.undefinedFunction name)
where
  check (expected : Nat) (callee : Callee) : Except CompileError Callee :=
    if expected = found then .ok callee else .error (.argCountMismatch name expected found)

end Declarations

namespace Lower

def refuse {α : Type} (e : CompileError) : Lower α := throw (.refused e)

def ofExcept {α : Type} : Except CompileError α → Lower α
  | .ok a => pure a
  | .error e => refuse e

def note (e : Event) : Lower Unit :=
  modify fun s => { s with log := e :: s.log }

def frame : Lower Frame := do return (← get).frame

def setFrame (frame : Frame) : Lower Unit :=
  modify fun s => { s with frame }

def freshLabel : Lower Nat :=
  modifyGet fun s => (s.nextLabel, { s with nextLabel := s.nextLabel + 1 })

/-- The number of a string literal. -/
def intern (value : String) : Lower Nat := do
  let pool := (← get).pool
  let (index, pool') ← ofExcept (pool.insert value)
  modify fun s => { s with pool := pool' }
  if index = pool.size then
    note (.interned index value.utf8ByteSize)
  return index

/-- The offset of a new variable. -/
def declare (name : String) (kind : VarKind) : Lower Nat := do
  let (offset, frame') ← ofExcept ((← frame).declare name kind)
  note (.declared frame'.function name offset kind.slots)
  setFrame frame'
  return offset

def lookup (name : String) : Lower Variable := do
  ofExcept ((← frame).lookup name)

/-- The slot of the word `index` places above the slot `base`. -/
def slotAbove (base index : Nat) : Lower Nat :=
  if index * wordSize ≤ base then pure (base - index * wordSize) else throw .underflow

/-- The slot of a record's field. -/
def fieldSlot (decls : Declarations) (name field : String) : Lower Nat := do
  let var ← lookup name
  match var.kind with
  | .record typeName _ =>
    match decls.types.find? typeName >>= (·.fieldIndex? field) with
    | some index => slotAbove var.offset index
    | none => refuse (.unknownField field typeName)
  | .scalar | .string => refuse (.notARecord name)

/-- The slot of a variable that is not a record. -/
def scalarSlot (name : String) : Lower Nat := do
  let var ← lookup name
  match var.kind with
  | .scalar | .string => return var.offset
  | .record .. => refuse (.notAScalar name)

def push (r : Register) : Lower Code := do
  let frame ← frame
  setFrame { frame with pending := frame.pending + 1 }
  return [.instr (.push r)]

def pop (r : Register) : Lower Code := do
  let frame ← frame
  match frame.pending with
  | 0 => throw .underflow
  | pending + 1 =>
    setFrame { frame with pending }
    return [.instr (.pop r)]

def popAll : List Register → Lower Code
  | [] => return []
  | r :: rs => do
    let first ← pop r
    let rest ← popAll rs
    return first ++ rest

/-- Calls with the stack pointer aligned, whatever is pushed. -/
def call (callee : Callee) : Lower Code := do
  if (← frame).pending % 2 = 1 then
    return .ofInstrs [.subImm wordSize .rsp, .call callee, .addImm wordSize .rsp]
  else
    return .ofInstrs [.call callee]

/-- Runs `body` inside a loop, which is left also when `body` is refused. -/
def inLoop {α : Type} (labels : LoopLabels) (body : Lower α) : Lower α := fun s =>
  let (result, s) := body { s with frame := s.frame.enterLoop labels }
  (result, { s with frame := s.frame.afterBody result })

end Lower

end WordLang
