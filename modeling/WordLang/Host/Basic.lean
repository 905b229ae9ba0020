import WordLang.Diagnostic
import WordLang.RandomSource
import WordLang.WordList

/-!
# The process of a compiled program

What the support library keeps while a compiled program runs: the lists behind the handles that it
gave out, its random source, and what was printed. A fault is printed and ends the process.
-/
namespace WordLang

abbrev Handle := Nat

structure Host where
  /-- Lists that were created and not destroyed. -/
  lists : List (Handle × WordList) := []
  nextHandle : Handle := 0
  random : RandomSource
  /-- What was printed. -/
  printed : List UInt8 := []
  deriving DecidableEq, Repr

/-- Why a call does not return. -/
inductive Stop where
  /-- The process ends with the status that its parent sees. -/
  | exit (status : Nat)
  /-- A handle was used that is not live; what follows is undefined. -/
  | dangling (handle : Handle)
  deriving DecidableEq, Repr

abbrev Run := ExceptT Stop (StateM Host)

namespace Host

def list? (host : Host) (handle : Handle) : Option WordList :=
  (host.lists.find? (·.1 == handle)).map (·.2)

def setList (host : Host) (handle : Handle) (l : WordList) : Host :=
  { host with
    lists := host.lists.map fun entry => if entry.1 == handle then (handle, l) else entry }

def dropList (host : Host) (handle : Handle) : Host :=
  { host with lists := host.lists.filter (·.1 != handle) }

end Host

namespace Run

def print (bytes : List UInt8) : Run Unit :=
  modify fun host => { host with printed := host.printed ++ bytes }

/-- Prints a fault and ends the process. -/
def fail {α : Type} (f : Fault) : Run α := do
  print (Diagnostic.fault f).flatten
  throw (.exit 1)

def orFail {α : Type} : Except Fault α → Run α
  | .ok a => pure a
  | .error f => fail f

/-- The list behind a handle, which `op` needs. -/
def list (op : String) : Option Handle → Run (Handle × WordList)
  | none => fail (.nullHandle op)
  | some handle => do
    match (← get).list? handle with
    | some l => return (handle, l)
    | none => throw (.dangling handle)

def setList (handle : Handle) (l : WordList) : Run Unit :=
  modify (·.setList handle l)

/-- A new handle for `l`. -/
def create (l : WordList) : Run Handle :=
  modifyGet fun host =>
    (host.nextHandle,
      { host with
        lists := host.lists ++ [(host.nextHandle, l)], nextHandle := host.nextHandle + 1 })

end Run

end WordLang
