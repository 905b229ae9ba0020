import WordLang.Proofs.Run

/-!
# Lowering as a relation

`Expr.Lowers decls e s code s'` says that lowering `e` in the state `s` succeeds with `code` and
leaves `s'`; statements, blocks and functions have relations of the same form. Each has one rule
per form of the tree, and holds exactly of the successful runs of the lowering function, so that
later proofs go by induction over the rules and never open the function.
-/
namespace WordLang

open Asm

namespace BinaryOp

/-- Labels that the code of an operator takes. -/
def labels : BinaryOp → Nat
  | .add | .sub | .mul => 0
  | .div | .mod => 2

/-- The code of an operator whose first label is `n`. -/
def code : BinaryOp → Nat → Code
  | .add, _ => [.instr (.add .rcx .rax)]
  | .sub, _ => [.instr (.sub .rcx .rax)]
  | .mul, _ => [.instr (.imul .rcx .rax)]
  | .div, n => divisionCode false n (n + 1)
  | .mod, n => divisionCode true n (n + 1)

@[simp] theorem runs_lower {op : BinaryOp} {s s' : Lowering} {code : Code} :
    Runs op.lower s code s' ↔ code = op.code s.nextLabel ∧ s' = s.skipLabels op.labels := by
  have division (remainder : Bool) : Runs (Lower.division remainder) s code s' ↔
      code = divisionCode remainder s.nextLabel (s.nextLabel + 1) ∧ s' = s.skipLabels 2 := by
    simp only [Lower.division, runs_bind, Lower.runs_freshLabel, runs_pure]
    constructor
    · rintro ⟨_, _, ⟨rfl, rfl⟩, _, _, ⟨rfl, rfl⟩, rfl, rfl⟩
      exact ⟨rfl, rfl⟩
    · rintro ⟨rfl, rfl⟩
      exact ⟨_, _, ⟨rfl, rfl⟩, _, _, ⟨rfl, rfl⟩, rfl, rfl⟩
  cases op with
  | add | sub | mul => simp [BinaryOp.lower, BinaryOp.code, labels]
  | div | mod => exact division _

end BinaryOp

/-- The code that brings both operands of an operator into `%rax` and `%rcx`. -/
def Asm.operandsCode (left right : Code) : Code :=
  left ++ [.instr (.push .rax)] ++ right ++ [.instr (.mov .rax .rcx)] ++ [.instr (.pop .rax)]

/-- Pops of the first `n` arguments, the last one first. -/
def Asm.argPops (n : Nat) : Code := .ofInstrs ((Register.args.take n).reverse.map .pop)

namespace Expr

variable (decls : Declarations)

mutual

inductive Lowers : Expr → Lowering → Code → Lowering → Prop where
  | int (value : Int64) (s : Lowering) : Lowers (.int value) s [.instr (.movImm value .rax)] s
  | str {text : String} {s s' : Lowering} {index : Nat} :
      Runs (Lower.intern text) s index s' →
      Lowers (.str text) s [.instr (.leaString index .rax)] s'
  | word {name : String} {s : Lowering} {slot : Nat} :
      s.frame.WordSlot name slot → Lowers (.ident name) s [.instr (.load slot .rax)] s
  | record {name typeName : String} {s : Lowering} {offset slots : Nat} :
      s.frame.vars.find? name = some ⟨offset, .record typeName slots⟩ →
      Lowers (.ident name) s [.instr (.leaSlot offset .rax)] s
  | binary {op : BinaryOp} {lhs rhs : Expr} {s s₁ s₂ : Lowering} {left right : Code} :
      Lowers lhs s left s₁ →
      Lowers rhs (s₁.withPending (s₁.frame.pending + 1)) right s₂ → 0 < s₂.frame.pending →
      Lowers (.binary op lhs rhs) s (operandsCode left right ++ op.code s₂.nextLabel)
        ((s₂.withPending (s₂.frame.pending - 1)).skipLabels op.labels)
  | compare {op : CompareOp} {lhs rhs : Expr} {s s₁ s₂ : Lowering} {left right : Code} :
      Lowers lhs s left s₁ →
      Lowers rhs (s₁.withPending (s₁.frame.pending + 1)) right s₂ → 0 < s₂.frame.pending →
      Lowers (.compare op lhs rhs) s (operandsCode left right ++ op.code)
        (s₂.withPending (s₂.frame.pending - 1))
  | call {name : String} {args : List Expr} {callee : Callee} {s s' : Lowering} {values : Code} :
      args.length ≤ Register.args.length → decls.callee name args.length = .ok callee →
      LowersArgs args s values s' → args.length ≤ s'.frame.pending →
      Lowers (.call name args) s
        (values ++ argPops args.length ++
          Lower.callCode (s'.frame.pending - args.length) callee)
        (s'.withPending (s'.frame.pending - args.length))
  | field {name part : String} {s : Lowering} {slot : Nat} :
      s.frame.FieldSlot decls name part slot →
      Lowers (.field name part) s [.instr (.load slot .rax)] s

inductive LowersArgs : List Expr → Lowering → Code → Lowering → Prop where
  | nil (s : Lowering) : LowersArgs [] s [] s
  | cons {arg : Expr} {args : List Expr} {s s₁ s' : Lowering} {value rest : Code} :
      Lowers arg s value s₁ →
      LowersArgs args (s₁.withPending (s₁.frame.pending + 1)) rest s' →
      LowersArgs (arg :: args) s (value ++ [.instr (.push .rax)] ++ rest) s'

end

end Expr

@[simp] theorem Declarations.checkArgCount_eq_ok {name : String} {found : Nat} {u : Unit} :
    Declarations.checkArgCount name found = .ok u ↔ found ≤ Register.args.length := by
  unfold Declarations.checkArgCount
  split_ifs with h
  · simpa using h
  · simpa using h

/-- All that a call can name: a function of the program, or else one of the support library. -/
theorem Declarations.callee_eq_ok {decls : Declarations} {name : String} {found : Nat}
    {callee : Callee} :
    decls.callee name found = .ok callee ↔
      decls.functions.find? name = some found ∧ callee = .own name ∨
      decls.functions.find? name = none ∧ callee = .library name ∧
        ∃ builtin, Builtin.find? name = some builtin ∧ builtin.arity = found := by
  have hcheck (expected : Nat) (c : Callee) :
      Declarations.callee.check name found expected c = .ok callee ↔
        expected = found ∧ callee = c := by
    unfold Declarations.callee.check
    split_ifs with h <;> simp [h, eq_comm]
  unfold Declarations.callee
  cases decls.functions.find? name with
  | some arity => simp [hcheck]
  | none =>
    cases Builtin.find? name with
    | some builtin => simp [hcheck, and_comm]
    | none => simp

namespace Expr

variable {decls : Declarations}

mutual

theorem lowers_of_runs : (e : Expr) → {s s' : Lowering} → {code : Code} →
    Runs (e.lower decls) s code s' → e.Lowers decls s code s'
  | .int value, s, s', code, h => by
    simp only [Expr.lower, runs_pure] at h
    obtain ⟨rfl, rfl⟩ := h
    exact .int value s'
  | .str text, s, s', code, h => by
    simp only [Expr.lower, bind_pure_comp, runs_map] at h
    obtain ⟨index, h, rfl⟩ := h
    exact .str h
  | .ident name, s, s', code, h => by
    simp only [Expr.lower, runs_bind, Lower.runs_lookup] at h
    obtain ⟨⟨offset, kind⟩, _, ⟨hv, rfl⟩, h⟩ := h
    cases kind with
    | scalar | string =>
      obtain ⟨rfl, rfl⟩ := runs_pure.1 h
      exact .word ⟨_, hv, trivial⟩
    | record =>
      obtain ⟨rfl, rfl⟩ := runs_pure.1 h
      exact .record hv
  | .binary op lhs rhs, s, s', code, h => by
    simp only [Expr.lower, runs_bind, Lower.runs_push, Lower.runs_pop, BinaryOp.runs_lower,
      runs_pure] at h
    obtain ⟨left, s₁, hl, _, _, ⟨rfl, rfl⟩, right, s₂, hr, _, _, ⟨hp, rfl, rfl⟩, _, _,
      ⟨rfl, rfl⟩, rfl, rfl⟩ := h
    simpa [operandsCode] using Lowers.binary (lowers_of_runs lhs hl) (lowers_of_runs rhs hr) hp
  | .compare op lhs rhs, s, s', code, h => by
    simp only [Expr.lower, runs_bind, Lower.runs_push, Lower.runs_pop, runs_pure] at h
    obtain ⟨left, s₁, hl, _, _, ⟨rfl, rfl⟩, right, s₂, hr, _, _, ⟨hp, rfl, rfl⟩, rfl, rfl⟩ := h
    exact .compare (lowers_of_runs lhs hl) (lowers_of_runs rhs hr) hp
  | .call name args, s, s', code, h => by
    simp only [Expr.lower, runs_bind, Lower.runs_ofExcept,
      Declarations.checkArgCount_eq_ok, Lower.runs_popAll, Lower.runs_call, runs_pure] at h
    obtain ⟨_, _, ⟨hn, rfl⟩, callee, _, ⟨hc, rfl⟩, values, s₁, ha, _, _, ⟨hp, rfl, rfl⟩, _, _,
      ⟨rfl, rfl⟩, rfl, rfl⟩ := h
    have hl : (Register.args.take args.length).reverse.length = args.length := by simp [hn]
    rw [hl] at hp ⊢
    exact .call hn hc (lowersArgs_of_runs args ha) hp
  | .field name part, s, s', code, h => by
    simp only [Expr.lower, bind_pure_comp, runs_map, Lower.runs_fieldSlot] at h
    obtain ⟨slot, ⟨h, rfl⟩, rfl⟩ := h
    exact .field h

theorem lowersArgs_of_runs : (args : List Expr) → {s s' : Lowering} → {code : Code} →
    Runs (Expr.lowerArgs decls args) s code s' → LowersArgs decls args s code s'
  | [], s, s', code, h => by
    simp only [Expr.lowerArgs, runs_pure] at h
    obtain ⟨rfl, rfl⟩ := h
    exact .nil s'
  | arg :: args, s, s', code, h => by
    simp only [Expr.lowerArgs, runs_bind, Lower.runs_push, runs_pure] at h
    obtain ⟨value, s₁, hv, _, _, ⟨rfl, rfl⟩, rest, s₂, hr, rfl, rfl⟩ := h
    exact .cons (lowers_of_runs arg hv) (lowersArgs_of_runs args hr)

end

mutual

theorem Lowers.runs {e : Expr} {s s' : Lowering} {code : Code} (h : e.Lowers decls s code s') :
    Runs (e.lower decls) s code s' := by
  cases h with
  | int value => simp [Expr.lower]
  | str h =>
    simp only [Expr.lower, bind_pure_comp, runs_map]
    exact ⟨_, h, rfl⟩
  | word h =>
    obtain ⟨kind, hv, hk⟩ := h
    simp only [Expr.lower, runs_bind, Lower.runs_lookup]
    refine ⟨_, _, ⟨hv, rfl⟩, ?_⟩
    cases kind with
    | scalar | string => simp
    | record => exact hk.elim
  | record h =>
    simp only [Expr.lower, runs_bind, Lower.runs_lookup]
    exact ⟨_, _, ⟨h, rfl⟩, by simp⟩
  | binary hl hr hp =>
    simp only [Expr.lower, runs_bind, Lower.runs_push, Lower.runs_pop, BinaryOp.runs_lower,
      runs_pure]
    exact ⟨_, _, hl.runs, _, _, ⟨rfl, rfl⟩, _, _, hr.runs, _, _, ⟨hp, rfl, rfl⟩, _, _,
      ⟨rfl, rfl⟩, by simp [operandsCode], rfl⟩
  | compare hl hr hp =>
    simp only [Expr.lower, runs_bind, Lower.runs_push, Lower.runs_pop, runs_pure]
    exact ⟨_, _, hl.runs, _, _, ⟨rfl, rfl⟩, _, _, hr.runs, _, _, ⟨hp, rfl, rfl⟩,
      by simp [operandsCode], rfl⟩
  | @call name args callee s s' values hn hc ha hp =>
    have hl : (Register.args.take args.length).reverse.length = args.length := by simp [hn]
    simp only [Expr.lower, runs_bind, Lower.runs_ofExcept,
      Declarations.checkArgCount_eq_ok, Lower.runs_popAll, Lower.runs_call, runs_pure]
    refine ⟨(), _, ⟨hn, rfl⟩, _, _, ⟨hc, rfl⟩, _, _, ha.runs, _, _, ⟨by rwa [hl], rfl, rfl⟩, _, _,
      ⟨rfl, rfl⟩, ?_, ?_⟩ <;> simp only [hl, argPops, Lowering.withPending_frame]
  | field h =>
    simp only [Expr.lower, bind_pure_comp, runs_map, Lower.runs_fieldSlot]
    exact ⟨_, ⟨h, trivial⟩, rfl⟩

theorem LowersArgs.runs {args : List Expr} {s s' : Lowering} {code : Code}
    (h : LowersArgs decls args s code s') :
    Runs (Expr.lowerArgs decls args) s code s' := by
  cases h with
  | nil => simp [Expr.lowerArgs]
  | cons hv hr =>
    simp only [Expr.lowerArgs, runs_bind, Lower.runs_push, runs_pure]
    exact ⟨_, _, hv.runs, _, _, ⟨rfl, rfl⟩, _, _, hr.runs, rfl, rfl⟩

end

theorem runs_lower_iff {e : Expr} {s s' : Lowering} {code : Code} :
    Runs (e.lower decls) s code s' ↔ e.Lowers decls s code s' :=
  ⟨lowers_of_runs e, Lowers.runs⟩

end Expr

/-- The kind of a variable that is declared with the value `e`. -/
def Expr.varKind (frame : Frame) (e : Expr) : VarKind :=
  if e.isString frame then .string else .scalar

/-- What prints a value: as text or as a number. -/
def Expr.printer (frame : Frame) (e : Expr) : String :=
  if e.isString frame then "print_string" else "print_integer"

/-- Slots of a record variable; a record without fields takes one. -/
def RecordDecl.slots (decl : RecordDecl) : Nat := max decl.fields.length 1

namespace Stmt

variable (decls : Declarations)

mutual

inductive Lowers : Stmt → Lowering → Code → Lowering → Prop where
  | declare {name : String} {value : Expr} {s s₁ s' : Lowering} {code : Code} {offset : Nat} :
      value.Lowers decls s code s₁ →
      Runs (Lower.declare name (value.varKind s₁.frame)) s₁ offset s' →
      Lowers (.declare name value) s (code ++ [.instr (.store .rax offset)]) s'
  | declareRecord {name typeName : String} {decl : RecordDecl} {s s' : Lowering} {base : Nat} :
      decls.types.find? typeName = some decl →
      Runs (Lower.declare name (.record typeName decl.slots)) s base s' →
      (∀ index < decl.slots, index * wordSize ≤ base) →
      Lowers (.declareRecord name typeName) s (Lower.clearCode base decl.slots) s'
  | set {name : String} {value : Expr} {s s' : Lowering} {code : Code} {slot : Nat} :
      value.Lowers decls s code s' → s'.frame.WordSlot name slot →
      Lowers (.set name value) s (code ++ [.instr (.store .rax slot)]) s'
  | setField {name field : String} {value : Expr} {s s' : Lowering} {code : Code} {slot : Nat} :
      value.Lowers decls s code s' → s'.frame.FieldSlot decls name field slot →
      Lowers (.setField name field value) s (code ++ [.instr (.store .rax slot)]) s'
  | retNone (s : Lowering) :
      Lowers (.ret none) s (.ofInstrs [.movImm 0 .rax, .jmp s.frame.exitLabel]) s
  | ret {value : Expr} {s s' : Lowering} {code : Code} :
      value.Lowers decls s code s' →
      Lowers (.ret (some value)) s (code ++ [.instr (.jmp s'.frame.exitLabel)]) s'
  | branch {cond : Expr} {thenBody : List Stmt} {s s₁ s' : Lowering} {test body : Code} :
      cond.Lowers decls s test s₁ →
      LowersBlock thenBody (s₁.skipLabels 1) body s' →
      Lowers (.branch cond thenBody []) s
        (test ++ .ofInstrs [.cmpZero .rax, .je s₁.nextLabel] ++ body ++ [.label s₁.nextLabel]) s'
  | branchElse {cond : Expr} {thenBody elseBody : List Stmt} {s s₁ s₂ s' : Lowering}
      {test body other : Code} :
      elseBody ≠ [] → cond.Lowers decls s test s₁ →
      LowersBlock thenBody (s₁.skipLabels 2) body s₂ → LowersBlock elseBody s₂ other s' →
      Lowers (.branch cond thenBody elseBody) s
        (test ++ .ofInstrs [.cmpZero .rax, .je s₁.nextLabel] ++ body ++
          [.instr (.jmp (s₁.nextLabel + 1)), .label s₁.nextLabel] ++ other ++
          [.label (s₁.nextLabel + 1)]) s'
  | loop {cond : Expr} {body : List Stmt} {s s₁ s₂ : Lowering} {test code : Code} :
      cond.Lowers decls (s.skipLabels 2) test s₁ →
      LowersBlock body
        (s₁.withFrame (s₁.frame.enterLoop ⟨s.nextLabel, s.nextLabel + 1⟩)) code s₂ →
      Lowers (.loop cond body) s
        (.label s.nextLabel :: test ++
          Code.ofInstrs [.cmpZero .rax, .je (s.nextLabel + 1)] ++ code ++
          [.instr (.jmp s.nextLabel), .label (s.nextLabel + 1)])
        (s₂.withFrame s₂.frame.exitLoop)
  | print {value : Expr} {s s' : Lowering} {code : Code} :
      value.Lowers decls s code s' →
      Lowers (.print value) s
        (code ++ [.instr (.mov .rax .rdi)] ++
          Lower.callCode s'.frame.pending (.library (value.printer s'.frame)) ++
          Lower.callCode s'.frame.pending (.library "print_newline")) s'
  | eval {value : Expr} {s s' : Lowering} {code : Code} :
      value.Lowers decls s code s' → Lowers (.eval value) s code s'
  | leave {labels : LoopLabels} {s : Lowering} :
      s.frame.innermostLoop? = some labels →
      Lowers .leave s [.instr (.jmp labels.stop)] s
  | again {labels : LoopLabels} {s : Lowering} :
      s.frame.innermostLoop? = some labels →
      Lowers .again s [.instr (.jmp labels.start)] s

inductive LowersBlock : List Stmt → Lowering → Code → Lowering → Prop where
  | nil (s : Lowering) : LowersBlock [] s [] s
  | cons {stmt : Stmt} {stmts : List Stmt} {s s₁ s' : Lowering} {first rest : Code} :
      Lowers stmt s first s₁ → LowersBlock stmts s₁ rest s' →
      LowersBlock (stmt :: stmts) s (first ++ rest) s'

end

variable {decls : Declarations}

mutual

theorem lowers_of_runs : (stmt : Stmt) → {s s' : Lowering} → {code : Code} →
    Runs (stmt.lower decls) s code s' → stmt.Lowers decls s code s'
  | .declare name value, s, s', code, h => by
    simp only [Stmt.lower, runs_bind, Expr.runs_lower_iff, Lower.runs_frame,
      runs_pure] at h
    obtain ⟨code, s₁, hv, _, _, ⟨rfl, rfl⟩, offset, s₂, hd, rfl, rfl⟩ := h
    exact .declare hv hd
  | .declareRecord name typeName, s, s', code, h => by
    simp only [Stmt.lower] at h
    split at h
    · simp at h
    · next decl hd =>
      simp only [runs_bind, Lower.runs_clearSlots] at h
      obtain ⟨base, s₁, hb, hle, rfl, rfl⟩ := h
      exact .declareRecord hd hb hle
  | .set name value, s, s', code, h => by
    simp only [Stmt.lower, runs_bind, Expr.runs_lower_iff, Lower.runs_scalarSlot,
      runs_pure] at h
    obtain ⟨code, s₁, hv, slot, _, ⟨hs, rfl⟩, rfl, rfl⟩ := h
    exact .set hv hs
  | .setField name field value, s, s', code, h => by
    simp only [Stmt.lower, runs_bind, Expr.runs_lower_iff, Lower.runs_fieldSlot,
      runs_pure] at h
    obtain ⟨code, s₁, hv, slot, _, ⟨hs, rfl⟩, rfl, rfl⟩ := h
    exact .setField hv hs
  | .ret none, s, s', code, h => by
    simp only [Stmt.lower, runs_bind, Lower.runs_frame, runs_pure] at h
    obtain ⟨_, _, ⟨rfl, rfl⟩, rfl, rfl⟩ := h
    exact .retNone s'
  | .ret (some value), s, s', code, h => by
    simp only [Stmt.lower, runs_bind, Expr.runs_lower_iff, Lower.runs_frame,
      runs_pure] at h
    obtain ⟨code, s₁, hv, _, _, ⟨rfl, rfl⟩, rfl, rfl⟩ := h
    exact .ret hv
  | .branch cond thenBody [], s, s', code, h => by
    simp only [Stmt.lower, runs_bind, Expr.runs_lower_iff, Lower.runs_freshLabel,
      runs_pure] at h
    obtain ⟨test, s₁, hc, _, _, ⟨rfl, rfl⟩, body, s₂, hb, rfl, rfl⟩ := h
    exact .branch hc (lowersBlock_of_runs thenBody hb)
  | .branch cond thenBody (stmt :: stmts), s, s', code, h => by
    simp only [Stmt.lower, runs_bind, Expr.runs_lower_iff, Lower.runs_freshLabel,
      runs_pure] at h
    obtain ⟨test, s₁, hc, _, _, ⟨rfl, rfl⟩, _, _, ⟨rfl, rfl⟩, body, s₂, hb, other, s₃, ho,
      rfl, rfl⟩ := h
    exact .branchElse (by simp) hc (lowersBlock_of_runs thenBody hb)
      (lowersBlock_of_runs (stmt :: stmts) ho)
  | .loop cond body, s, s', code, h => by
    simp only [Stmt.lower, runs_bind, Expr.runs_lower_iff, Lower.runs_freshLabel,
      Lower.runs_inLoop, runs_pure] at h
    obtain ⟨_, _, ⟨rfl, rfl⟩, _, _, ⟨rfl, rfl⟩, test, s₁, hc, code, _, ⟨s₂, hb, rfl⟩,
      rfl, rfl⟩ := h
    exact .loop hc (lowersBlock_of_runs body hb)
  | .print value, s, s', code, h => by
    simp only [Stmt.lower, runs_bind, Expr.runs_lower_iff, Lower.runs_frame,
      Lower.runs_call, runs_pure] at h
    obtain ⟨code, s₁, hv, _, _, ⟨rfl, rfl⟩, _, _, ⟨rfl, rfl⟩, _, _, ⟨rfl, rfl⟩, rfl, rfl⟩ := h
    exact .print hv
  | .eval value, s, s', code, h => by
    simp only [Stmt.lower, Expr.runs_lower_iff] at h
    exact .eval h
  | .leave, s, s', code, h => by
    simp only [Stmt.lower, runs_bind, Lower.runs_frame] at h
    obtain ⟨_, _, ⟨rfl, rfl⟩, h⟩ := h
    split at h
    · next labels hl =>
      obtain ⟨rfl, rfl⟩ := runs_pure.1 h
      exact .leave hl
    · simp at h
  | .again, s, s', code, h => by
    simp only [Stmt.lower, runs_bind, Lower.runs_frame] at h
    obtain ⟨_, _, ⟨rfl, rfl⟩, h⟩ := h
    split at h
    · next labels hl =>
      obtain ⟨rfl, rfl⟩ := runs_pure.1 h
      exact .again hl
    · simp at h

theorem lowersBlock_of_runs : (stmts : List Stmt) → {s s' : Lowering} → {code : Code} →
    Runs (Stmt.lowerBlock decls stmts) s code s' → LowersBlock decls stmts s code s'
  | [], s, s', code, h => by
    simp only [Stmt.lowerBlock, runs_pure] at h
    obtain ⟨rfl, rfl⟩ := h
    exact .nil s'
  | stmt :: stmts, s, s', code, h => by
    simp only [Stmt.lowerBlock, runs_bind, runs_pure] at h
    obtain ⟨first, s₁, hf, rest, s₂, hr, rfl, rfl⟩ := h
    exact .cons (lowers_of_runs stmt hf) (lowersBlock_of_runs stmts hr)

end

mutual

theorem Lowers.runs {stmt : Stmt} {s s' : Lowering} {code : Code}
    (h : stmt.Lowers decls s code s') : Runs (stmt.lower decls) s code s' := by
  cases h with
  | declare hv hd =>
    simp only [Stmt.lower, runs_bind, Lower.runs_frame, runs_pure]
    exact ⟨_, _, hv.runs, _, _, ⟨rfl, rfl⟩, _, _, hd, rfl, rfl⟩
  | declareRecord hd hb hle =>
    simp only [Stmt.lower, hd, runs_bind, Lower.runs_clearSlots]
    exact ⟨_, _, hb, hle, rfl, rfl⟩
  | set hv hs =>
    simp only [Stmt.lower, runs_bind, Lower.runs_scalarSlot, runs_pure]
    exact ⟨_, _, hv.runs, _, _, ⟨hs, rfl⟩, rfl, rfl⟩
  | setField hv hs =>
    simp only [Stmt.lower, runs_bind, Lower.runs_fieldSlot, runs_pure]
    exact ⟨_, _, hv.runs, _, _, ⟨hs, rfl⟩, rfl, rfl⟩
  | retNone =>
    simp only [Stmt.lower, runs_bind, Lower.runs_frame, runs_pure]
    exact ⟨_, _, ⟨rfl, rfl⟩, rfl, rfl⟩
  | ret hv =>
    simp only [Stmt.lower, runs_bind, Lower.runs_frame, runs_pure]
    exact ⟨_, _, hv.runs, _, _, ⟨rfl, rfl⟩, rfl, rfl⟩
  | branch hc hb =>
    simp only [Stmt.lower, runs_bind, Lower.runs_freshLabel, runs_pure]
    exact ⟨_, _, hc.runs, _, _, ⟨rfl, rfl⟩, _, _, hb.runs, rfl, rfl⟩
  | @branchElse cond thenBody elseBody s s₁ s₂ s' test body other he hc hb ho =>
    obtain ⟨stmt, stmts, rfl⟩ := List.exists_cons_of_ne_nil he
    simp only [Stmt.lower, runs_bind, Lower.runs_freshLabel, runs_pure]
    exact ⟨_, _, hc.runs, _, _, ⟨rfl, rfl⟩, _, _, ⟨rfl, rfl⟩, _, _, hb.runs, _, _, ho.runs,
      rfl, rfl⟩
  | loop hc hb =>
    simp only [Stmt.lower, runs_bind, Lower.runs_freshLabel, Lower.runs_inLoop,
      runs_pure]
    exact ⟨_, _, ⟨rfl, rfl⟩, _, _, ⟨rfl, rfl⟩, _, _, hc.runs, _, _, ⟨_, hb.runs, rfl⟩, rfl, rfl⟩
  | print hv =>
    simp only [Stmt.lower, runs_bind, Lower.runs_frame, Lower.runs_call, runs_pure]
    exact ⟨_, _, hv.runs, _, _, ⟨rfl, rfl⟩, _, _, ⟨rfl, rfl⟩, _, _, ⟨rfl, rfl⟩, rfl, rfl⟩
  | eval hv => exact hv.runs
  | leave hl =>
    simp only [Stmt.lower, runs_bind, Lower.runs_frame]
    exact ⟨_, _, ⟨rfl, rfl⟩, by simp [hl]⟩
  | again hl =>
    simp only [Stmt.lower, runs_bind, Lower.runs_frame]
    exact ⟨_, _, ⟨rfl, rfl⟩, by simp [hl]⟩

theorem LowersBlock.runs {stmts : List Stmt} {s s' : Lowering} {code : Code}
    (h : LowersBlock decls stmts s code s') :
    Runs (Stmt.lowerBlock decls stmts) s code s' := by
  cases h with
  | nil => simp [Stmt.lowerBlock]
  | cons hf hr =>
    simp only [Stmt.lowerBlock, runs_bind, runs_pure]
    exact ⟨_, _, hf.runs, _, _, hr.runs, rfl, rfl⟩

end

theorem runs_lowerBlock_iff {stmts : List Stmt} {s s' : Lowering} {code : Code} :
    Runs (Stmt.lowerBlock decls stmts) s code s' ↔ LowersBlock decls stmts s code s' :=
  ⟨lowersBlock_of_runs stmts, LowersBlock.runs⟩

end Stmt

/-- Stores of the arguments into parameters that are declared one after another. -/
inductive StoresParams : List (String × Register) → Lowering → Code → Lowering → Prop where
  | nil (s : Lowering) : StoresParams [] s [] s
  | cons {name : String} {register : Register} {rest : List (String × Register)}
      {s s₁ s' : Lowering} {code : Code} {offset : Nat} :
      Runs (Lower.declare name .scalar) s offset s₁ → StoresParams rest s₁ code s' →
      StoresParams ((name, register) :: rest) s (.instr (.store register offset) :: code) s'

theorem runs_storeParams_iff {params : List (String × Register)} {s s' : Lowering} {code : Code} :
    Runs (Lower.storeParams params) s code s' ↔ StoresParams params s code s' := by
  induction params generalizing s s' code with
  | nil =>
    simp only [Lower.storeParams, runs_pure]
    constructor
    · rintro ⟨rfl, rfl⟩
      exact .nil s'
    · intro h
      cases h
      exact ⟨rfl, rfl⟩
  | cons param rest ih =>
    obtain ⟨name, register⟩ := param
    simp only [Lower.storeParams, runs_bind, ih, runs_pure]
    constructor
    · rintro ⟨offset, s₁, hd, code, _, hr, rfl, rfl⟩
      exact .cons hd hr
    · intro h
      cases h with
      | cons hd hr => exact ⟨_, _, hd, _, _, hr, rfl, rfl⟩

namespace FunctionDecl

/-- The state in which the lowering of a function begins. -/
def enter (limits : Limits) (f : FunctionDecl) (s : Lowering) : Lowering :=
  ((s.logged (.generating f.name)).skipLabels 1).withFrame
    { function := f.name, maxVariables := limits.maxVariables, exitLabel := s.nextLabel }

/-- The assembled function whose parameters and body were lowered to `params` and `body`. -/
def routine (f : FunctionDecl) (frameSize exitLabel : Nat) (params body : Code) : Routine where
  name := f.name
  frameSize
  body := params ++ body ++ [.instr (.movImm 0 .rax), .label exitLabel] ++
    .ofInstrs Routine.epilogue

/-- The parameters are stored, then the body is lowered. -/
structure Lowers (limits : Limits) (decls : Declarations) (f : FunctionDecl) (s : Lowering)
    (r : Routine) (s' : Lowering) : Prop where
  params_le : f.params.length ≤ Register.args.length
  exists_code : ∃ params body s₁,
    StoresParams (f.params.zip Register.args) (f.enter limits s) params s₁ ∧
    Stmt.LowersBlock decls f.body s₁ body s' ∧
    r = f.routine s'.frame.size s.nextLabel params body

theorem Lowers.name_eq {limits : Limits} {decls : Declarations} {f : FunctionDecl}
    {s s' : Lowering} {r : Routine} (h : f.Lowers limits decls s r s') : r.name = f.name := by
  obtain ⟨-, _, _, _, -, -, rfl⟩ := h
  rfl

theorem runs_lower_iff {limits : Limits} {decls : Declarations} {f : FunctionDecl}
    {s s' : Lowering} {r : Routine} :
    Runs (f.lower limits decls) s r s' ↔ f.Lowers limits decls s r s' := by
  simp only [FunctionDecl.lower, runs_bind, Lower.runs_note, Lower.runs_ofExcept,
    Declarations.checkArgCount_eq_ok, Lower.runs_freshLabel, Lower.runs_setFrame,
    runs_storeParams_iff, Stmt.runs_lowerBlock_iff, Lower.runs_frame, runs_pure]
  constructor
  · rintro ⟨_, _, rfl, _, _, ⟨hn, rfl⟩, _, _, ⟨rfl, rfl⟩, _, _, rfl, params, s₁, hp, body, s₂, hb,
      _, _, ⟨rfl, rfl⟩, rfl, rfl⟩
    exact ⟨hn, params, body, s₁, hp, hb, rfl⟩
  · rintro ⟨hn, params, body, s₁, hp, hb, rfl⟩
    exact ⟨(), _, rfl, (), _, ⟨hn, rfl⟩, _, _, ⟨rfl, rfl⟩, (), _, rfl, params, s₁, hp, body, s', hb,
      _, _, ⟨rfl, rfl⟩, rfl, rfl⟩

end FunctionDecl

end WordLang
