import WordLang.Table

/-!
# Program trees

A program is a set of record types and functions. Every value is one 64-bit word: an integer, the
address of a string literal, or the address of a record variable.
-/
namespace WordLang

inductive BinaryOp where
  | add
  | sub
  | mul
  | div
  | mod
  deriving DecidableEq, Repr

inductive CompareOp where
  | eq
  | notEq
  | lt
  | ltEq
  | gt
  | gtEq
  deriving DecidableEq, Repr

inductive Expr where
  | int (value : Int64)
  | str (text : String)
  | ident (name : String)
  | binary (op : BinaryOp) (lhs rhs : Expr)
  | compare (op : CompareOp) (lhs rhs : Expr)
  | call (name : String) (args : List Expr)
  | field (name field : String)
  deriving Repr

inductive Stmt where
  /-- Declares a variable and gives it a value. -/
  | declare (name : String) (value : Expr)
  /-- Declares a record variable, with all its fields zero. -/
  | declareRecord (name typeName : String)
  | set (name : String) (value : Expr)
  | setField (name field : String) (value : Expr)
  | ret (value : Option Expr)
  | branch (cond : Expr) (thenBody elseBody : List Stmt)
  | loop (cond : Expr) (body : List Stmt)
  | print (value : Expr)
  | eval (value : Expr)
  /-- Leaves the innermost loop. -/
  | leave
  /-- Goes on with the next round of the innermost loop. -/
  | again
  deriving Repr

structure FunctionDecl where
  name : String
  params : List String := []
  body : List Stmt
  deriving Repr

structure RecordDecl where
  name : String
  fields : List String
  deriving DecidableEq, Repr

/-- The position of the first field of that name. -/
def RecordDecl.fieldIndex? (decl : RecordDecl) (field : String) : Option Nat :=
  decl.fields.idxOf? field

structure Program where
  types : List RecordDecl := []
  functions : List FunctionDecl := []
  deriving Repr

/-! ## Equality of expressions -/

namespace Expr

mutual

/-- Equality of trees, node by node. -/
protected def beq : Expr → Expr → Bool
  | .int a, .int b => a == b
  | .str a, .str b => a == b
  | .ident a, .ident b => a == b
  | .binary o a b, .binary o' a' b' => o == o' && a.beq a' && b.beq b'
  | .compare o a b, .compare o' a' b' => o == o' && a.beq a' && b.beq b'
  | .call f as, .call g bs => f == g && beqList as bs
  | .field a f, .field b g => a == b && f == g
  | _, _ => false

def beqList : List Expr → List Expr → Bool
  | [], [] => true
  | a :: as, b :: bs => a.beq b && beqList as bs
  | _, _ => false

end

instance : BEq Expr := ⟨Expr.beq⟩

mutual

private theorem beq_self : (a : Expr) → a.beq a = true
  | .int _ | .str _ | .ident _ | .field _ _ => by simp [Expr.beq]
  | .binary _ a b | .compare _ a b => by simp [Expr.beq, beq_self a, beq_self b]
  | .call _ as => by simp [Expr.beq, beqList_self as]

private theorem beqList_self : (as : List Expr) → beqList as as = true
  | [] => by simp [beqList]
  | a :: as => by simp [beqList, beq_self a, beqList_self as]

end

mutual

private theorem eq_of_beq : (a b : Expr) → a.beq b = true → a = b
  | .int _, b => by cases b <;> simp [Expr.beq]
  | .str _, b => by cases b <;> simp [Expr.beq]
  | .ident _, b => by cases b <;> simp [Expr.beq]
  | .field _ _, b => by cases b <;> simp +contextual [Expr.beq]
  | .binary _ a b, c => by
    cases c with
    | binary _ a' b' =>
      simp only [Expr.beq, Bool.and_eq_true, beq_iff_eq, and_imp]
      rintro rfl ha hb
      rw [eq_of_beq a a' ha, eq_of_beq b b' hb]
    | _ => simp [Expr.beq]
  | .compare _ a b, c => by
    cases c with
    | compare _ a' b' =>
      simp only [Expr.beq, Bool.and_eq_true, beq_iff_eq, and_imp]
      rintro rfl ha hb
      rw [eq_of_beq a a' ha, eq_of_beq b b' hb]
    | _ => simp [Expr.beq]
  | .call _ as, c => by
    cases c with
    | call _ bs =>
      simp only [Expr.beq, Bool.and_eq_true, beq_iff_eq, and_imp]
      rintro rfl h
      rw [eq_of_beqList as bs h]
    | _ => simp [Expr.beq]

private theorem eq_of_beqList : (as bs : List Expr) → beqList as bs = true → as = bs
  | [], bs => by cases bs <;> simp [beqList]
  | a :: as, bs => by
    cases bs with
    | nil => simp [beqList]
    | cons b bs =>
      simp only [beqList, Bool.and_eq_true, and_imp]
      intro ha has
      rw [eq_of_beq a b ha, eq_of_beqList as bs has]

end

instance : LawfulBEq Expr where
  rfl := beq_self _
  eq_of_beq := eq_of_beq _ _

instance : DecidableEq Expr := instDecidableEqOfLawfulBEq

end Expr

end WordLang
