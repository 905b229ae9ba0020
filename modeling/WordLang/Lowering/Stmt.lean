import WordLang.Limits
import WordLang.Lowering.Expr

/-!
# Lowering of statements and functions

A function's code stores the parameters, runs the body, and ends at the one place where it returns.
Falling off the end returns zero.
-/
namespace WordLang

open Asm

/-- String literals, and variables that were given one, print as text. -/
def Expr.isString (frame : Frame) : Expr → Bool
  | .str _ => true
  | .ident name => (frame.vars.find? name).any (·.kind == .string)
  | _ => false

namespace Lower

/-- Sets the slots of a new record to zero. -/
def clearSlots (base count : Nat) : Lower Code :=
  (List.range count).mapM fun index => do
    let slot ← slotAbove base index
    return .instr (.storeZero slot)

/-- Stores the arguments of a function in its parameters. -/
def storeParams : List (String × Register) → Lower Code
  | [] => return []
  | (name, register) :: rest => do
    let offset ← declare name .scalar
    let code ← storeParams rest
    return .instr (.store register offset) :: code

end Lower

mutual

def Stmt.lower (decls : Declarations) : Stmt → Lower Code
  | .declare name value => do
    let code ← value.lower decls
    let kind := if value.isString (← Lower.frame) then VarKind.string else .scalar
    let offset ← Lower.declare name kind
    return code ++ [.instr (.store .rax offset)]
  | .declareRecord name typeName => do
    match decls.types.find? typeName with
    | none => Lower.refuse (.undefinedType typeName)
    | some decl =>
      let slots := max decl.fields.length 1
      let base ← Lower.declare name (.record typeName slots)
      Lower.clearSlots base slots
  | .set name value => do
    let code ← value.lower decls
    let slot ← Lower.scalarSlot name
    return code ++ [.instr (.store .rax slot)]
  | .setField name field value => do
    let code ← value.lower decls
    let slot ← Lower.fieldSlot decls name field
    return code ++ [.instr (.store .rax slot)]
  | .ret none => do
    return .ofInstrs [.movImm 0 .rax, .jmp (← Lower.frame).exitLabel]
  | .ret (some value) => do
    let code ← value.lower decls
    return code ++ [.instr (.jmp (← Lower.frame).exitLabel)]
  | .branch cond thenBody [] => do
    let test ← cond.lower decls
    let done ← Lower.freshLabel
    let body ← Stmt.lowerBlock decls thenBody
    return test ++ .ofInstrs [.cmpZero .rax, .je done] ++ body ++ [.label done]
  | .branch cond thenBody (s :: ss) => do
    let test ← cond.lower decls
    let otherwise ← Lower.freshLabel
    let done ← Lower.freshLabel
    let body ← Stmt.lowerBlock decls thenBody
    let other ← Stmt.lowerBlock decls (s :: ss)
    return test ++ .ofInstrs [.cmpZero .rax, .je otherwise] ++ body ++
      [.instr (.jmp done), .label otherwise] ++ other ++ [.label done]
  | .loop cond body => do
    let start ← Lower.freshLabel
    let stop ← Lower.freshLabel
    let test ← cond.lower decls
    let code ← Lower.inLoop ⟨start, stop⟩ (Stmt.lowerBlock decls body)
    return .label start :: test ++ Code.ofInstrs [.cmpZero .rax, .je stop] ++ code ++
      [.instr (.jmp start), .label stop]
  | .print value => do
    let code ← value.lower decls
    let printer := if value.isString (← Lower.frame) then "print_string" else "print_integer"
    let call ← Lower.call (.library printer)
    let newline ← Lower.call (.library "print_newline")
    return code ++ [.instr (.mov .rax .rdi)] ++ call ++ newline
  | .eval value => value.lower decls
  | .leave => do
    let frame ← Lower.frame
    match frame.innermostLoop? with
    | some labels => return [.instr (.jmp labels.stop)]
    | none => Lower.refuse (.breakOutsideLoop frame.function)
  | .again => do
    let frame ← Lower.frame
    match frame.innermostLoop? with
    | some labels => return [.instr (.jmp labels.start)]
    | none => Lower.refuse (.continueOutsideLoop frame.function)

def Stmt.lowerBlock (decls : Declarations) : List Stmt → Lower Code
  | [] => return []
  | s :: ss => do
    let first ← s.lower decls
    let rest ← Stmt.lowerBlock decls ss
    return first ++ rest

end

/-- Begins a new frame and lowers the function into it. -/
def FunctionDecl.lower (limits : Limits) (decls : Declarations) (f : FunctionDecl) :
    Lower Routine := do
  Lower.note (.generating f.name)
  Lower.ofExcept (Declarations.checkArgCount f.name f.params.length)
  let exitLabel ← Lower.freshLabel
  Lower.setFrame { function := f.name, maxVariables := limits.maxVariables, exitLabel }
  let params ← Lower.storeParams (f.params.zip Register.args)
  let body ← Stmt.lowerBlock decls f.body
  return {
    name := f.name
    frameSize := (← Lower.frame).size
    body := params ++ body ++ [.instr (.movImm 0 .rax), .label exitLabel] ++
      .ofInstrs Routine.epilogue }

end WordLang
