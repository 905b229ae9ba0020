import WordLang.Fault

/-!
# Lists of words

The list value of compiled programs. Indices start at zero, and every indexed access is checked.
-/
namespace WordLang

structure WordList where
  items : List Int64 := []
  deriving DecidableEq, Repr

namespace WordList

def length (l : WordList) : Nat := l.items.length

def isEmpty (l : WordList) : Bool := l.items.isEmpty

/-- The position that `index` means, if it is below `bound`. -/
def position (l : WordList) (index : Int64) (bound : Nat) : Except Fault Nat :=
  if 0 ≤ index.toInt ∧ index.toInt < bound then .ok index.toInt.toNat
  else .error (.indexOutOfRange index l.length)

def append (l : WordList) (value : Int64) : WordList := ⟨l.items ++ [value]⟩

def get (l : WordList) (index : Int64) : Except Fault Int64 := do
  let i ← l.position index l.length
  match l.items[i]? with
  | some value => .ok value
  | none => .error (.indexOutOfRange index l.length)

def set (l : WordList) (index value : Int64) : Except Fault WordList := do
  let i ← l.position index l.length
  return ⟨l.items.set i value⟩

/-- Puts `value` before the element at `index`, or at the end. -/
def insert (l : WordList) (index value : Int64) : Except Fault WordList := do
  let i ← l.position index (l.length + 1)
  return ⟨l.items.insertIdx i value⟩

/-- The element at `index`, and the list without it. -/
def remove (l : WordList) (index : Int64) : Except Fault (Int64 × WordList) := do
  let value ← l.get index
  let i ← l.position index l.length
  return (value, ⟨l.items.eraseIdx i⟩)

def clear (_ : WordList) : WordList := ⟨[]⟩

/-- The position of the first element equal to `value`. -/
def find? (l : WordList) (value : Int64) : Option Nat := l.items.idxOf? value

/-- Smaller elements first. -/
def sort (l : WordList) : WordList := ⟨l.items.mergeSort fun a b => decide (a ≤ b)⟩

def reverse (l : WordList) : WordList := ⟨l.items.reverse⟩

/-- The elements of `l`, then those of `m`. -/
def merge (l m : WordList) : WordList := ⟨l.items ++ m.items⟩

end WordList

end WordLang
