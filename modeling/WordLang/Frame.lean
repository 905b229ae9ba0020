import WordLang.Asm.Register
import WordLang.CompileError
import WordLang.Table

/-!
# Frame of a function

While a function is lowered, its frame knows where each variable lives, which loops are open, and
how many words expressions have pushed. Variables live in slots below the frame pointer, each
further down than those before it, and are visible to the end of the function.
-/
namespace WordLang

/-- Slots handed out one after another. -/
structure Slots where
  /-- Bytes of one slot. -/
  size : Nat := 0
  used : Nat := 0
  deriving DecidableEq, Repr

namespace Slots

/-- Bytes that the slots handed out take, as an exact number: it is the product in 64-bit words as
long as it is below `2 ^ 64`. -/
def space (s : Slots) : Nat := s.used * s.size

/-- Hands out `count` slots. The sum is exact too, and is the one in 64-bit words below `2 ^ 64`. -/
def reserve (s : Slots) (count : Nat) : Slots := { s with used := s.used + count }

end Slots

inductive VarKind where
  | scalar
  /-- Holds the address of a string literal. -/
  | string
  | record (typeName : String) (slots : Nat)
  deriving DecidableEq, Repr

/-- Slots that a variable takes. -/
def VarKind.slots : VarKind → Nat
  | .scalar | .string => 1
  | .record _ slots => slots

structure Variable where
  /-- Distance of the lowest slot from the frame pointer. -/
  offset : Nat
  kind : VarKind
  deriving DecidableEq, Repr

structure LoopLabels where
  start : Nat
  stop : Nat
  deriving DecidableEq, Repr

structure Frame where
  function : String
  maxVariables : Nat
  /-- Label of the one place where the function returns. -/
  exitLabel : Nat
  vars : Table Variable := []
  slots : Slots := { size := Asm.wordSize }
  /-- Open loops, the innermost first. -/
  loops : List LoopLabels := []
  /-- Words that expressions have pushed and not yet popped. -/
  pending : Nat := 0
  deriving DecidableEq, Repr

namespace Frame

/-- Gives a new variable its slots, and returns its offset. -/
def declare (frame : Frame) (name : String) (kind : VarKind) :
    Except CompileError (Nat × Frame) :=
  if frame.vars.contains name then
    .error (.variableAlreadyDefined name frame.function)
  else if frame.maxVariables ≤ frame.vars.length then
    .error (.tooManyVariables frame.function frame.maxVariables)
  else
    let slots := frame.slots.reserve kind.slots
    .ok (slots.space,
      { frame with slots, vars := frame.vars.put name ⟨slots.space, kind⟩ })

def lookup (frame : Frame) (name : String) : Except CompileError Variable :=
  match frame.vars.find? name with
  | some var => .ok var
  | none => .error (.undefinedVariable name frame.function)

/-- Bytes that the variables take. -/
def size (frame : Frame) : Nat := frame.slots.space

def enterLoop (frame : Frame) (labels : LoopLabels) : Frame :=
  { frame with loops := labels :: frame.loops }

def exitLoop (frame : Frame) : Frame :=
  { frame with loops := frame.loops.tail }

def innermostLoop? (frame : Frame) : Option LoopLabels := frame.loops.head?

end Frame

end WordLang
