import WordLang.Lowering.Basic

/-!
# Lowering of expressions

The code of an expression leaves its value in `%rax` and the stack as it was. Operands and
arguments are evaluated from left to right; those that wait are kept on the stack.
-/
namespace WordLang

open Asm

/-- Division or remainder of `%rax` by `%rcx`; by zero, both are zero. -/
def Asm.divisionCode (remainder : Bool) (nonzero done : Nat) : Code :=
  [.instr (.test .rcx .rcx), .instr (.jne nonzero), .instr (.movImm 0 .rax),
      .instr (.jmp done), .label nonzero, .instr .cqto, .instr (.idiv .rcx)] ++
    (if remainder then [.instr (.mov .rdx .rax)] else []) ++ [.label done]

def Lower.division (remainder : Bool) : Lower Code := do
  let nonzero ← freshLabel
  let done ← freshLabel
  return divisionCode remainder nonzero done

/-- Combines `%rax` and `%rcx` into `%rax`. -/
def BinaryOp.lower : BinaryOp → Lower Code
  | .add => return [.instr (.add .rcx .rax)]
  | .sub => return [.instr (.sub .rcx .rax)]
  | .mul => return [.instr (.imul .rcx .rax)]
  | .div => Lower.division false
  | .mod => Lower.division true

/-- Compares `%rax` with `%rcx`, and leaves one or zero in `%rax`. -/
def CompareOp.code (op : CompareOp) : Code :=
  .ofInstrs [.cmp .rcx .rax, .set op .rax, .zeroExtend .rax]

mutual

def Expr.lower (decls : Declarations) : Expr → Lower Code
  | .int value => return [.instr (.movImm value .rax)]
  | .str text => do
    let index ← Lower.intern text
    return [.instr (.leaString index .rax)]
  | .ident name => do
    let var ← Lower.lookup name
    match var.kind with
    | .scalar | .string => return [.instr (.load var.offset .rax)]
    | .record .. => return [.instr (.leaSlot var.offset .rax)]
  | .binary op lhs rhs => do
    let left ← lhs.lower decls
    let save ← Lower.push .rax
    let right ← rhs.lower decls
    let restore ← Lower.pop .rax
    let combine ← op.lower
    return left ++ save ++ right ++ [.instr (.mov .rax .rcx)] ++ restore ++ combine
  | .compare op lhs rhs => do
    let left ← lhs.lower decls
    let save ← Lower.push .rax
    let right ← rhs.lower decls
    let restore ← Lower.pop .rax
    return left ++ save ++ right ++ [.instr (.mov .rax .rcx)] ++ restore ++ op.code
  | .call name args => do
    Lower.ofExcept (Declarations.checkArgCount name args.length)
    let callee ← Lower.ofExcept (decls.callee name args.length)
    let values ← Expr.lowerArgs decls args
    let pops ← Lower.popAll (Register.args.take args.length).reverse
    let call ← Lower.call callee
    return values ++ pops ++ call
  | .field name part => do
    let slot ← Lower.fieldSlot decls name part
    return [.instr (.load slot .rax)]

/-- Evaluates the arguments and leaves them on the stack. -/
def Expr.lowerArgs (decls : Declarations) : List Expr → Lower Code
  | [] => return []
  | arg :: args => do
    let value ← arg.lower decls
    let save ← Lower.push .rax
    let rest ← Expr.lowerArgs decls args
    return value ++ save ++ rest

end

end WordLang
