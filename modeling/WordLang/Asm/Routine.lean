import WordLang.Asm.Instr

/-!
# Assembled functions

The code of a function with its name and the bytes that its variables take.
-/
namespace WordLang.Asm

structure Routine where
  name : String
  frameSize : Nat
  body : Code
  deriving DecidableEq, Repr

namespace Routine

/-- Bytes by which the stack pointer moves down for the variables. -/
def stackSize (r : Routine) : Nat := alignTo16 r.frameSize

/-- Sets up the frame. -/
def prologue (r : Routine) : List Instr :=
  [.push .rbp, .mov .rsp .rbp] ++
    if r.stackSize = 0 then [] else [.subImm r.stackSize .rsp]

/-- Gives the frame back and returns. -/
def epilogue : List Instr := [.mov .rbp .rsp, .pop .rbp, .ret]

/-- The whole code, from the function's name to its return. -/
def code (r : Routine) : Code := Code.ofInstrs r.prologue ++ r.body

def header (name : String) : String :=
  "\n.globl " ++ name ++ "\n.type " ++ name ++ ", @function\n" ++ name ++ ":\n"

def text (r : Routine) : String := header r.name ++ r.code.text

end Routine

end WordLang.Asm
