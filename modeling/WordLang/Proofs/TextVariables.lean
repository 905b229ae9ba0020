import Mathlib.Logic.Function.Basic
import WordLang.Proofs.Scope

/-!
# Variables that print as text

A variable that is declared with a string literal, or with a variable that prints as text, prints as
text from then on. An assignment does not change that, whatever is assigned. A program keeps its
texts if it assigns to such variables only what prints as text too; that can be seen from its
syntax, where one pass over a function finds the variables that lowering takes for texts.
-/
namespace WordLang

open Asm

/-- Whether a value prints as text, given the variables that do. -/
def Expr.isTextBy (isText : String → Bool) : Expr → Bool
  | .str _ => true
  | .ident name => isText name
  | _ => false

namespace Stmt

mutual

/-- The variables that print as text after the declarations of a statement. -/
def texts (isText : String → Bool) : Stmt → String → Bool
  | .declare name value => Function.update isText name (value.isTextBy isText)
  | .branch _ thenBody elseBody => blockTexts (blockTexts isText thenBody) elseBody
  | .loop _ body => blockTexts isText body
  | .declareRecord .. | .set .. | .setField .. | .ret _ | .print _ | .eval _ | .leave | .again =>
    isText

def blockTexts (isText : String → Bool) : List Stmt → String → Bool
  | [] => isText
  | stmt :: stmts => blockTexts (stmt.texts isText) stmts

end

mutual

/-- A variable that prints as text is assigned only what prints as text. -/
def keepsText (isText : String → Bool) : Stmt → Bool
  | .set name value => !isText name || value.isTextBy isText
  | .branch _ thenBody elseBody => blockKeepsText isText thenBody && blockKeepsText isText elseBody
  | .loop _ body => blockKeepsText isText body
  | .declare .. | .declareRecord .. | .setField .. | .ret _ | .print _ | .eval _ | .leave
  | .again => true

def blockKeepsText (isText : String → Bool) : List Stmt → Bool
  | [] => true
  | stmt :: stmts => stmt.keepsText isText && blockKeepsText isText stmts

end

end Stmt

/-- The variables of a function that print as text. -/
def FunctionDecl.isText (f : FunctionDecl) : String → Bool :=
  Stmt.blockTexts (fun _ => false) f.body

/-- No function assigns anything but text to a variable that prints as text. -/
def Program.KeepsText (p : Program) : Prop :=
  ∀ f ∈ p.functions, Stmt.blockKeepsText f.isText f.body

instance (p : Program) : Decidable p.KeepsText :=
  inferInstanceAs (Decidable (∀ f ∈ p.functions, _))

/-! ## Frames -/

namespace Frame

/-- Whether the variable prints as text. -/
def isText (frame : Frame) (name : String) : Bool :=
  (frame.vars.find? name).any (·.kind == .string)

/-- The slot of a variable that prints as text. -/
def TextSlot (frame : Frame) (slot : Nat) : Prop :=
  ∃ name, frame.vars.find? name = some ⟨slot, .string⟩

variable {frame frame' : Frame} {name : String}

theorem isText_of_find? {var : Variable} (h : frame.vars.find? name = some var) :
    frame.isText name = (var.kind == .string) := by
  simp [isText, h]

theorem isText_mono (hv : frame.vars <+: frame'.vars) (h : frame.isText name) :
    frame'.isText name := by
  obtain ⟨var, hvar, hkind⟩ := (Option.any_eq_true _ _).1 h
  rw [isText_of_find? (Table.find?_of_prefix hv hvar), hkind]

/-- A slot is a text's only if the variable that it belongs to prints as text. -/
theorem TextSlot.isText {slot index : Nat} (h : frame.TextSlot slot) (hl : Placed frame.vars)
    (hs : SlotAt frame.vars name index slot) : frame.isText name := by
  obtain ⟨name', hfind⟩ := h
  have hs' : SlotAt frame.vars name' 0 slot := ⟨_, hfind, Nat.one_pos, by simp⟩
  obtain ⟨rfl, -⟩ := hl.slotAt_injective hs hs'
  simp [isText_of_find? hfind]

/-- The slots of other variables are no texts. -/
theorem not_textSlot {var : Variable} (h : frame.vars.find? name = some var)
    (hk : var.kind ≠ .string) (hl : Placed frame.vars) {slot index : Nat}
    (hs : SlotAt frame.vars name index slot) : ¬ frame.TextSlot slot := by
  intro htext
  have hname : frame.isText name := htext.isText hl hs
  simp [isText_of_find? h, hk] at hname

theorem FieldSlot.not_textSlot {decls : Declarations} {field : String} {slot index : Nat}
    (h : frame.FieldSlot decls name field slot) (hl : Placed frame.vars)
    (hs : SlotAt frame.vars name index slot) : ¬ frame.TextSlot slot := by
  obtain ⟨offset, typeName, slots, _, _, hfind, -⟩ := h
  exact Frame.not_textSlot hfind (by simp) hl hs

theorem TextSlot.of_isText {slot : Nat} (h : frame.isText name)
    (hs : SlotAt frame.vars name 0 slot) : frame.TextSlot slot := by
  obtain ⟨⟨offset, kind⟩, hvar, -, rfl⟩ := hs
  obtain rfl : kind = .string := by simpa [isText_of_find? hvar] using h
  exact ⟨name, by simpa using hvar⟩

theorem isText_declare {kind : VarKind} {offset : Nat}
    (hd : frame.declare name kind = .ok (offset, frame')) :
    frame'.isText = Function.update frame.isText name (kind == .string) := by
  obtain ⟨hnew, -, -, rfl⟩ := declare_eq_ok.1 hd
  funext other
  by_cases hother : other = name
  · subst hother
    simp [isText, hnew]
  · simp [isText, hother, Ne.symm hother]

/-- A declaration of anything but text. -/
theorem isText_declare_of_ne {kind : VarKind} (hk : kind ≠ .string) {offset : Nat}
    (hd : frame.declare name kind = .ok (offset, frame')) : frame'.isText = frame.isText := by
  have hnew : frame.isText name = (kind == .string) := by
    simp [isText, (declare_eq_ok.1 hd).1, hk]
  rw [isText_declare hd, ← hnew, Function.update_eq_self]

end Frame

theorem Expr.isTextBy_isText (frame : Frame) (e : Expr) :
    e.isTextBy frame.isText = e.isString frame := by
  cases e <;> rfl

theorem Expr.isString_mono {frame frame' : Frame} (hv : frame.vars <+: frame'.vars) {e : Expr}
    (h : e.isString frame) : e.isString frame' := by
  cases e with
  | str => rfl
  | ident name => exact Frame.isText_mono hv h
  | _ => cases h

/-! ## Lowering -/

namespace Stmt

variable {decls : Declarations}

mutual

/-- The declarations that lowering takes for texts are those that the syntax shows. -/
theorem Lowers.isText_eq {stmt : Stmt} {s s' : Lowering} {code : Code}
    (h : stmt.Lowers decls s code s') : s'.frame.isText = stmt.texts s.frame.isText := by
  cases h with
  | @declare name value _ s₁ _ _ _ hv hd =>
    have hkind : (value.varKind s₁.frame == .string) = value.isTextBy s.frame.isText := by
      rw [Expr.isTextBy_isText, Expr.varKind, hv.frame_eq]
      cases value.isString s.frame <;> rfl
    rw [Frame.isText_declare hd.declare_grows.2.2.1, hkind, hv.frame_eq, texts]
  | declareRecord _ hd _ =>
    exact Frame.isText_declare_of_ne (by simp) hd.declare_grows.2.2.1
  | set hv _ | setField hv _ | ret hv | print hv | eval hv => rw [hv.frame_eq, texts]
  | retNone | leave | again => rfl
  | branch hc hb =>
    rw [hb.isText_eq, Lowering.skipLabels_frame, hc.frame_eq]
    rfl
  | branchElse _ hc hb ho =>
    rw [ho.isText_eq, hb.isText_eq, Lowering.skipLabels_frame, hc.frame_eq]
    rfl
  | loop hc hb =>
    have h := hb.isText_eq
    simp only [Lowering.withFrame_frame, hc.frame_eq] at h
    exact h

theorem LowersBlock.isText_eq {stmts : List Stmt} {s s' : Lowering} {code : Code}
    (h : LowersBlock decls stmts s code s') :
    s'.frame.isText = blockTexts s.frame.isText stmts := by
  cases h with
  | nil => rfl
  | cons hf hr => rw [hr.isText_eq, hf.isText_eq, blockTexts]

end

end Stmt

theorem StoresParams.isText_eq {params : List (String × Register)} {s s' : Lowering} {code : Code}
    (h : StoresParams params s code s') : s'.frame.isText = s.frame.isText := by
  induction h with
  | nil => rfl
  | cons hd _ ih => rw [ih, Frame.isText_declare_of_ne (by simp) hd.declare_grows.2.2.1]

theorem FunctionDecl.Lowers.isText_eq {limits : Limits} {decls : Declarations} {f : FunctionDecl}
    {s s' : Lowering} {r : Routine} (h : f.Lowers limits decls s r s') :
    s'.frame.isText = f.isText := by
  obtain ⟨-, _, _, _, hp, hb, -⟩ := h
  rw [hb.isText_eq, hp.isText_eq]
  rfl

end WordLang
