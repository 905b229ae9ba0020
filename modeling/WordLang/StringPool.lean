import WordLang.Asm.Instr
import WordLang.Asm.Quoted
import WordLang.CompileError

/-!
# String literals of a program

Literals are numbered in the order of their first occurrence, and each is stored once.
-/
namespace WordLang

structure StringPool where
  /-- Literals that the pool can hold. -/
  capacity : Nat
  entries : List String := []
  deriving DecidableEq, Repr

namespace StringPool

def size (pool : StringPool) : Nat := pool.entries.length

def isEmpty (pool : StringPool) : Bool := pool.entries.isEmpty

def get? (pool : StringPool) (index : Nat) : Option String := pool.entries[index]?

/-- The number of a literal, which joins the pool if it is new. -/
def insert (pool : StringPool) (value : String) : Except CompileError (Nat × StringPool) :=
  match pool.entries.idxOf? value with
  | some index => .ok (index, pool)
  | none =>
    if pool.capacity ≤ pool.size then .error (.tooManyStrings pool.capacity)
    else .ok (pool.size, { pool with entries := pool.entries ++ [value] })

/-- The literals with their numbers. -/
def enumerate (pool : StringPool) : List (Nat × String) :=
  pool.entries.zipIdx.map fun (value, index) => (index, value)

/-- The definition of one literal. -/
def definition (index : Nat) (value : String) : String :=
  Asm.stringLabel index ++ ":\n    .string \"" ++ Asm.Quoted.encode value ++ "\"\n"

/-- The read-only data section, or nothing if there are no literals. -/
def rodata (pool : StringPool) : String :=
  if pool.isEmpty then ""
  else
    ".section .rodata\n" ++
      String.join (pool.enumerate.map fun (index, value) => definition index value)

end StringPool

end WordLang
