import WordLang.Proofs.Machine
import WordLang.Tree.Basic

/-!
# What a program means

Evaluation of expressions, statements and calls, in one big step each. Values are words. A variable
has a value from its declaration on: before that it cannot be read, and what is assigned to it is
lost. The calls of the support library are threaded through as a trace. There is no rule for the
one division whose quotient is not a word, nor for a record variable that is used as a value.
-/
namespace WordLang

open Machine

namespace BinaryOp

/-- A quotient or remainder of signed words; it is zero where the divisor is. -/
def divide (f : Int → Int → Int) (x y : Word) : Option Word :=
  if y = 0 then some 0
  else if x = BitVec.intMin 64 ∧ y = -1 then none
  else some (BitVec.ofInt 64 (f x.toInt y.toInt))

def eval? : BinaryOp → Word → Word → Option Word
  | .add, x, y => some (x + y)
  | .sub, x, y => some (x - y)
  | .mul, x, y => some (x * y)
  | .div, x, y => divide Int.tdiv x y
  | .mod, x, y => divide Int.tmod x y

end BinaryOp

namespace CompareOp

/-- Comparison of signed words. -/
def holds : CompareOp → Word → Word → Bool
  | .eq, x, y => x == y
  | .notEq, x, y => x != y
  | .lt, x, y => x.toInt < y.toInt
  | .ltEq, x, y => x.toInt ≤ y.toInt
  | .gt, x, y => y.toInt < x.toInt
  | .gtEq, x, y => y.toInt ≤ x.toInt

def eval (op : CompareOp) (x y : Word) : Word := if op.holds x y then 1 else 0

end CompareOp

/-- What a declared variable stands for. -/
inductive Binding where
  /-- A word, and whether it prints as text. -/
  | word (value : Word) (isText : Bool)
  | record (fields : Table Word)
  deriving DecidableEq, Repr

/-- The variables whose declarations have run. -/
abbrev Env := Table Binding

namespace Env

def ofArgs (params : List String) (args : List Word) : Env :=
  (params.zip args).map fun v => (v.1, .word v.2 false)

def assign (env : Env) (name : String) (v : Word) : Env :=
  match env.find? name with
  | some (.word _ isText) => env.put name (.word v isText)
  | _ => env

def assignField (env : Env) (name field : String) (v : Word) : Env :=
  match env.find? name with
  | some (.record fields) => env.put name (.record (fields.put field v))
  | _ => env

end Env

/-- Whether a value prints as text: a literal does, and a variable that was declared as one that
does. -/
def Expr.isText (env : Env) : Expr → Bool
  | .str _ => true
  | .ident name =>
    match env.find? name with
    | some (.word _ isText) => isText
    | _ => false
  | _ => false

/-- How a statement ends. -/
inductive Outcome where
  | normal
  | leave
  | again
  | returned (v : Word)
  deriving DecidableEq, Repr

/-- The value of a call whose body ends so. -/
def Outcome.value? : Outcome → Option Word
  | .normal => some 0
  | .returned v => some v
  | .leave | .again => none

/-- What the meaning of a program depends on: the support library, and where literals are. -/
structure World where
  answer : Trace → String → List Word → Option Word
  literal : String → Word

/-- A call of the support library adds itself to the trace. -/
inductive World.Answers (w : World) (name : String) (args : List Word) (t : Trace) :
    Word → Trace → Prop where
  | intro {v : Word} : w.answer t name args = some v →
      World.Answers w name args t v (t ++ [⟨name, args, v⟩])

section

variable (p : Program) (w : World)

mutual

/-- `e.Evaluates p w n env t v t'`: the value of `e` is `v`, and the trace grows from `t` to `t'`.
Calls of functions of the program are nested at most `n` deep. -/
inductive Expr.Evaluates : Nat → Expr → Env → Trace → Word → Trace → Prop where
  | int (n : Nat) (value : Int64) (env : Env) (t : Trace) :
      Expr.Evaluates n (.int value) env t value.toBitVec t
  | str (n : Nat) (text : String) (env : Env) (t : Trace) :
      Expr.Evaluates n (.str text) env t (w.literal text) t
  | ident {name : String} {env : Env} {v : Word} {isText : Bool} (n : Nat) (t : Trace) :
      env.find? name = some (.word v isText) → Expr.Evaluates n (.ident name) env t v t
  | binary {n : Nat} {op : BinaryOp} {lhs rhs : Expr} {env : Env} {t t₁ t₂ : Trace}
      {x y v : Word} :
      Expr.Evaluates n lhs env t x t₁ → Expr.Evaluates n rhs env t₁ y t₂ →
      op.eval? x y = some v → Expr.Evaluates n (.binary op lhs rhs) env t v t₂
  | compare {n : Nat} {op : CompareOp} {lhs rhs : Expr} {env : Env} {t t₁ t₂ : Trace}
      {x y : Word} :
      Expr.Evaluates n lhs env t x t₁ → Expr.Evaluates n rhs env t₁ y t₂ →
      Expr.Evaluates n (.compare op lhs rhs) env t (op.eval x y) t₂
  | call {n : Nat} {name : String} {args : List Expr} {env : Env} {t t₁ t₂ : Trace}
      {vs : List Word} {v : Word} :
      Expr.EvaluatesAll n args env t vs t₁ → Program.Calls n name vs t₁ v t₂ →
      Expr.Evaluates n (.call name args) env t v t₂
  | field {name part : String} {env : Env} {fields : Table Word} {v : Word} (n : Nat)
      (t : Trace) :
      env.find? name = some (.record fields) → fields.find? part = some v →
      Expr.Evaluates n (.field name part) env t v t

/-- Arguments are evaluated from left to right. -/
inductive Expr.EvaluatesAll : Nat → List Expr → Env → Trace → List Word → Trace → Prop where
  | nil (n : Nat) (env : Env) (t : Trace) : Expr.EvaluatesAll n [] env t [] t
  | cons {n : Nat} {arg : Expr} {args : List Expr} {env : Env} {t t₁ t₂ : Trace} {v : Word}
      {vs : List Word} :
      Expr.Evaluates n arg env t v t₁ → Expr.EvaluatesAll n args env t₁ vs t₂ →
      Expr.EvaluatesAll n (arg :: args) env t (v :: vs) t₂

/-- A call by name, with its arguments. -/
inductive Program.Calls : Nat → String → List Word → Trace → Word → Trace → Prop where
  | own {n : Nat} {f : FunctionDecl} {vs : List Word} {t t' : Trace} {outcome : Outcome}
      {env : Env} {v : Word} :
      f ∈ p.functions → f.params.length = vs.length →
      Stmt.ExecutesAll n f.body (.ofArgs f.params vs) t outcome env t' →
      outcome.value? = some v → Program.Calls (n + 1) f.name vs t v t'
  | library {name : String} {vs : List Word} {t t' : Trace} {v : Word} (n : Nat) :
      (∀ f ∈ p.functions, f.name ≠ name) → w.Answers name vs t v t' →
      Program.Calls n name vs t v t'

inductive Stmt.Executes : Nat → Stmt → Env → Trace → Outcome → Env → Trace → Prop where
  | declare {n : Nat} {name : String} {value : Expr} {env : Env} {t t' : Trace} {v : Word} :
      Expr.Evaluates n value env t v t' →
      Stmt.Executes n (.declare name value) env t .normal
        (env.put name (.word v (value.isText env))) t'
  | declareRecord {name : String} {decl : RecordDecl} (n : Nat) (env : Env) (t : Trace) :
      decl ∈ p.types →
      Stmt.Executes n (.declareRecord name decl.name) env t .normal
        (env.put name (.record (decl.fields.map (·, 0)))) t
  | set {n : Nat} {name : String} {value : Expr} {env : Env} {t t' : Trace} {v : Word} :
      Expr.Evaluates n value env t v t' →
      Stmt.Executes n (.set name value) env t .normal (env.assign name v) t'
  | setField {n : Nat} {name part : String} {value : Expr} {env : Env} {t t' : Trace}
      {v : Word} :
      Expr.Evaluates n value env t v t' →
      Stmt.Executes n (.setField name part value) env t .normal (env.assignField name part v) t'
  | retNone (n : Nat) (env : Env) (t : Trace) :
      Stmt.Executes n (.ret none) env t (.returned 0) env t
  | ret {n : Nat} {value : Expr} {env : Env} {t t' : Trace} {v : Word} :
      Expr.Evaluates n value env t v t' →
      Stmt.Executes n (.ret (some value)) env t (.returned v) env t'
  | branch {n : Nat} {cond : Expr} {thenBody elseBody : List Stmt} {env env' : Env}
      {t t₁ t' : Trace} {v : Word} {outcome : Outcome} :
      Expr.Evaluates n cond env t v t₁ →
      Stmt.ExecutesAll n (if v = 0 then elseBody else thenBody) env t₁ outcome env' t' →
      Stmt.Executes n (.branch cond thenBody elseBody) env t outcome env' t'
  | loopEnd {n : Nat} {cond : Expr} {body : List Stmt} {env : Env} {t t' : Trace} :
      Expr.Evaluates n cond env t 0 t' → Stmt.Executes n (.loop cond body) env t .normal env t'
  | loopLeave {n : Nat} {cond : Expr} {body : List Stmt} {env env' : Env} {t t₁ t' : Trace}
      {v : Word} :
      Expr.Evaluates n cond env t v t₁ → v ≠ 0 → Stmt.ExecutesAll n body env t₁ .leave env' t' →
      Stmt.Executes n (.loop cond body) env t .normal env' t'
  | loopReturn {n : Nat} {cond : Expr} {body : List Stmt} {env env' : Env} {t t₁ t' : Trace}
      {v result : Word} :
      Expr.Evaluates n cond env t v t₁ → v ≠ 0 →
      Stmt.ExecutesAll n body env t₁ (.returned result) env' t' →
      Stmt.Executes n (.loop cond body) env t (.returned result) env' t'
  | loopRound {n : Nat} {cond : Expr} {body : List Stmt} {env env₁ env' : Env}
      {t t₁ t₂ t' : Trace} {v : Word} {round outcome : Outcome} :
      Expr.Evaluates n cond env t v t₁ → v ≠ 0 → Stmt.ExecutesAll n body env t₁ round env₁ t₂ →
      round = .normal ∨ round = .again →
      Stmt.Executes n (.loop cond body) env₁ t₂ outcome env' t' →
      Stmt.Executes n (.loop cond body) env t outcome env' t'
  | print {n : Nat} {value : Expr} {env : Env} {t t₁ t₂ t' : Trace} {v u u' : Word} :
      Expr.Evaluates n value env t v t₁ →
      w.Answers (if value.isText env then "print_string" else "print_integer") [v] t₁ u t₂ →
      w.Answers "print_newline" [] t₂ u' t' →
      Stmt.Executes n (.print value) env t .normal env t'
  | eval {n : Nat} {value : Expr} {env : Env} {t t' : Trace} {v : Word} :
      Expr.Evaluates n value env t v t' → Stmt.Executes n (.eval value) env t .normal env t'
  | leave (n : Nat) (env : Env) (t : Trace) : Stmt.Executes n .leave env t .leave env t
  | again (n : Nat) (env : Env) (t : Trace) : Stmt.Executes n .again env t .again env t

/-- Statements run one after another, until one ends other than normally. -/
inductive Stmt.ExecutesAll : Nat → List Stmt → Env → Trace → Outcome → Env → Trace → Prop where
  | nil (n : Nat) (env : Env) (t : Trace) : Stmt.ExecutesAll n [] env t .normal env t
  | stop {n : Nat} {stmt : Stmt} {stmts : List Stmt} {env env' : Env} {t t' : Trace}
      {outcome : Outcome} :
      Stmt.Executes n stmt env t outcome env' t' → outcome ≠ .normal →
      Stmt.ExecutesAll n (stmt :: stmts) env t outcome env' t'
  | cons {n : Nat} {stmt : Stmt} {stmts : List Stmt} {env env₁ env' : Env} {t t₁ t' : Trace}
      {outcome : Outcome} :
      Stmt.Executes n stmt env t .normal env₁ t₁ →
      Stmt.ExecutesAll n stmts env₁ t₁ outcome env' t' →
      Stmt.ExecutesAll n (stmt :: stmts) env t outcome env' t'

end

end

/-! ## Nesting

The bound on nested calls only limits which evaluations there are: each of them is one for every
larger bound, with the same value and trace. -/

section

variable {p : Program} {w : World}

mutual

theorem Expr.Evaluates.mono : ∀ {n n' : Nat} {e : Expr} {env : Env} {t t' : Trace} {v : Word},
    e.Evaluates p w n env t v t' → n ≤ n' → e.Evaluates p w n' env t v t'
  | _, _, _, _, _, _, _, .int _ value env t, _ => .int _ value env t
  | _, _, _, _, _, _, _, .str _ text env t, _ => .str _ text env t
  | _, _, _, _, _, _, _, .ident _ t h, _ => .ident _ t h
  | _, _, _, _, _, _, _, .binary hl hr hv, hn => .binary (hl.mono hn) (hr.mono hn) hv
  | _, _, _, _, _, _, _, .compare hl hr, hn => .compare (hl.mono hn) (hr.mono hn)
  | _, _, _, _, _, _, _, .call ha hc, hn => .call (ha.mono hn) (hc.mono hn)
  | _, _, _, _, _, _, _, .field _ t h hf, _ => .field _ t h hf

theorem Expr.EvaluatesAll.mono :
    ∀ {n n' : Nat} {args : List Expr} {env : Env} {t t' : Trace} {vs : List Word},
    Expr.EvaluatesAll p w n args env t vs t' → n ≤ n' → Expr.EvaluatesAll p w n' args env t vs t'
  | _, _, _, _, _, _, _, .nil _ env t, _ => .nil _ env t
  | _, _, _, _, _, _, _, .cons h ha, hn => .cons (h.mono hn) (ha.mono hn)

theorem Program.Calls.mono :
    ∀ {n n' : Nat} {name : String} {vs : List Word} {t t' : Trace} {v : Word},
    p.Calls w n name vs t v t' → n ≤ n' → p.Calls w n' name vs t v t'
  | _, _ + 1, _, _, _, _, _, .own hf hlen hb hv, hn =>
    .own hf hlen (hb.mono (Nat.le_of_succ_le_succ hn)) hv
  | _, _, _, _, _, _, _, .library _ hne h, _ => .library _ hne h

theorem Stmt.Executes.mono :
    ∀ {n n' : Nat} {stmt : Stmt} {env env' : Env} {t t' : Trace} {outcome : Outcome},
    stmt.Executes p w n env t outcome env' t' → n ≤ n' →
    stmt.Executes p w n' env t outcome env' t'
  | _, _, _, _, _, _, _, _, .declare h, hn => .declare (h.mono hn)
  | _, _, _, _, _, _, _, _, .declareRecord _ env t hd, _ => .declareRecord _ env t hd
  | _, _, _, _, _, _, _, _, .set h, hn => .set (h.mono hn)
  | _, _, _, _, _, _, _, _, .setField h, hn => .setField (h.mono hn)
  | _, _, _, _, _, _, _, _, .retNone _ env t, _ => .retNone _ env t
  | _, _, _, _, _, _, _, _, .ret h, hn => .ret (h.mono hn)
  | _, _, _, _, _, _, _, _, .branch h hb, hn => .branch (h.mono hn) (hb.mono hn)
  | _, _, _, _, _, _, _, _, .loopEnd h, hn => .loopEnd (h.mono hn)
  | _, _, _, _, _, _, _, _, .loopLeave h hv hb, hn => .loopLeave (h.mono hn) hv (hb.mono hn)
  | _, _, _, _, _, _, _, _, .loopReturn h hv hb, hn => .loopReturn (h.mono hn) hv (hb.mono hn)
  | _, _, _, _, _, _, _, _, .loopRound h hv hb hround hrest, hn =>
    .loopRound (h.mono hn) hv (hb.mono hn) hround (hrest.mono hn)
  | _, _, _, _, _, _, _, _, .print h hp hl, hn => .print (h.mono hn) hp hl
  | _, _, _, _, _, _, _, _, .eval h, hn => .eval (h.mono hn)
  | _, _, _, _, _, _, _, _, .leave _ env t, _ => .leave _ env t
  | _, _, _, _, _, _, _, _, .again _ env t, _ => .again _ env t

theorem Stmt.ExecutesAll.mono :
    ∀ {n n' : Nat} {stmts : List Stmt} {env env' : Env} {t t' : Trace} {outcome : Outcome},
    Stmt.ExecutesAll p w n stmts env t outcome env' t' → n ≤ n' →
    Stmt.ExecutesAll p w n' stmts env t outcome env' t'
  | _, _, _, _, _, _, _, _, .nil _ env t, _ => .nil _ env t
  | _, _, _, _, _, _, _, _, .stop h ho, hn => .stop (h.mono hn) ho
  | _, _, _, _, _, _, _, _, .cons h hs, hn => .cons (h.mono hn) (hs.mono hn)

end

end

end WordLang
