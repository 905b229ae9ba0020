import WordLang.Proofs.Acceptance
import WordLang.Proofs.FailedFunction
import WordLang.Proofs.Image
import WordLang.Proofs.Literals

/-!
# The order of declarations

Names are declared before anything is lowered, so functions and types may come in any order. The
order of types leaves no trace. That of functions shows in the numbers of labels, which are handed
out from function to function, and in the numbers of string literals, which follow their first
occurrence; apart from these numbers the code of each function stays as it is.
-/
namespace WordLang

open Asm

/-! ## Code up to its numbers -/

/-- An instruction that names neither a label nor a string literal. -/
def Asm.Instr.isFixed : Instr → Bool
  | .jmp _ | .je _ | .jne _ | .leaString _ _ => false
  | _ => true

/-- The same line where labels are higher by `d`, and where each literal has the number that `pool'`
gives it in place of that in `pool`. -/
inductive Asm.Line.Renumbered (d : Int) (pool pool' : StringPool) : Line → Line → Prop where
  | label {n n' : Nat} : (n' : Int) = n + d → Renumbered d pool pool' (.label n) (.label n')
  | jmp {n n' : Nat} : (n' : Int) = n + d →
      Renumbered d pool pool' (.instr (.jmp n)) (.instr (.jmp n'))
  | je {n n' : Nat} : (n' : Int) = n + d →
      Renumbered d pool pool' (.instr (.je n)) (.instr (.je n'))
  | jne {n n' : Nat} : (n' : Int) = n + d →
      Renumbered d pool pool' (.instr (.jne n)) (.instr (.jne n'))
  | leaString {index index' : Nat} {text : String} {dst : Register} :
      pool.get? index = some text → pool'.get? index' = some text →
      Renumbered d pool pool' (.instr (.leaString index dst)) (.instr (.leaString index' dst))
  | fixed {i : Instr} : i.isFixed = true → Renumbered d pool pool' (.instr i) (.instr i)

namespace Asm.Code

/-- The same code, line by line, up to the numbers of labels and literals. -/
def Renumbered (d : Int) (pool pool' : StringPool) (code code' : Code) : Prop :=
  List.Forall₂ (Line.Renumbered d pool pool') code code'

variable {d : Int} {pool pool' : StringPool} {a a' b b' : Code}

namespace Renumbered

theorem append (ha : a.Renumbered d pool pool' a') (hb : b.Renumbered d pool pool' b') :
    (a ++ b).Renumbered d pool pool' (a' ++ b') :=
  List.rel_append ha hb

theorem ofInstrs {is : List Instr} (h : ∀ i ∈ is, i.isFixed = true) :
    (ofInstrs is).Renumbered d pool pool' (ofInstrs is) := by
  refine List.forall₂_same.2 fun line hline => ?_
  obtain ⟨i, hi, rfl⟩ := List.mem_map.1 hline
  exact .fixed (h i hi)

theorem singleton {line line' : Line} (h : line.Renumbered d pool pool' line') :
    Renumbered d pool pool' [line] [line'] :=
  .cons h .nil

end Renumbered

theorem renumbered_argPops (n : Nat) : (argPops n).Renumbered d pool pool' (argPops n) := by
  refine Renumbered.ofInstrs fun i hi => ?_
  obtain ⟨r, -, rfl⟩ := List.mem_map.1 hi
  rfl

theorem renumbered_callCode (pending : Nat) (callee : Callee) :
    (Lower.callCode pending callee).Renumbered d pool pool' (Lower.callCode pending callee) := by
  unfold Lower.callCode
  split <;> exact Renumbered.ofInstrs (by simp [Instr.isFixed])

theorem renumbered_clearCode (base count : Nat) :
    (Lower.clearCode base count).Renumbered d pool pool' (Lower.clearCode base count) := by
  refine List.forall₂_same.2 fun line hline => ?_
  obtain ⟨index, -, rfl⟩ := List.mem_map.1 hline
  exact .fixed rfl

theorem renumbered_prologue (r : Routine) :
    (ofInstrs r.prologue).Renumbered d pool pool' (ofInstrs r.prologue) := by
  refine Renumbered.ofInstrs ?_
  unfold Routine.prologue
  split <;> simp [Instr.isFixed]

theorem Renumbered.operandsCode (ha : a.Renumbered d pool pool' a')
    (hb : b.Renumbered d pool pool' b') :
    (operandsCode a b).Renumbered d pool pool' (operandsCode a' b') :=
  (((ha.append (.singleton (.fixed rfl))).append hb).append (.singleton (.fixed rfl))).append
    (.singleton (.fixed rfl))

end Asm.Code

theorem BinaryOp.renumbered_code (op : BinaryOp) {d : Int} {pool pool' : StringPool} {n n' : Nat}
    (h : (n' : Int) = n + d) : (op.code n).Renumbered d pool pool' (op.code n') := by
  have hdivision (remainder : Bool) : (divisionCode remainder n (n + 1)).Renumbered d pool pool'
      (divisionCode remainder n' (n' + 1)) := by
    have hdone : ((n' + 1 : Nat) : Int) = (n + 1 : Nat) + d := by omega
    have hrest : Code.Renumbered d pool pool' (if remainder then [.instr (.mov .rdx .rax)] else [])
        (if remainder then [.instr (.mov .rdx .rax)] else []) := by
      cases remainder with
      | true => exact .singleton (.fixed rfl)
      | false => exact .nil
    refine Code.Renumbered.append (.append ?_ hrest) (.singleton (.label hdone))
    exact .cons (.fixed rfl) (.cons (.jne h) (.cons (.fixed rfl) (.cons (.jmp hdone)
      (.cons (.label h) (.cons (.fixed rfl) (.cons (.fixed rfl) .nil))))))
  cases op with
  | add | sub | mul => exact .singleton (.fixed rfl)
  | div | mod => exact hdivision _

/-! ## States up to their numbers -/

structure LoopLabels.Shifted (d : Int) (labels labels' : LoopLabels) : Prop where
  start : (labels'.start : Int) = labels.start + d
  stop : (labels'.stop : Int) = labels.stop + d

/-- The same variables and pushed words, with labels that are higher by `d`. -/
structure Frame.Shifted (d : Int) (frame frame' : Frame) : Prop where
  vars : frame'.vars = frame.vars
  slots : frame'.slots = frame.slots
  pending : frame'.pending = frame.pending
  exitLabel : (frame'.exitLabel : Int) = frame.exitLabel + d
  loops : List.Forall₂ (LoopLabels.Shifted d) frame.loops frame'.loops

namespace Frame.Shifted

variable {d : Int} {frame frame' : Frame}

theorem wordSlot (h : frame.Shifted d frame') {name : String} {slot slot' : Nat}
    (hs : frame.WordSlot name slot) (hs' : frame'.WordSlot name slot') : slot' = slot := by
  obtain ⟨kind, hv, -⟩ := hs
  obtain ⟨kind', hv', -⟩ := hs'
  rw [h.vars, hv] at hv'
  cases hv'
  rfl

theorem fieldSlot (h : frame.Shifted d frame') {decls : Declarations} {name field : String}
    {slot slot' : Nat} (hs : frame.FieldSlot decls name field slot)
    (hs' : frame'.FieldSlot decls name field slot') : slot' = slot := by
  obtain ⟨_, _, _, _, _, hv, hd, hi, -, rfl⟩ := hs
  obtain ⟨_, _, _, _, _, hv', hd', hi', -, rfl⟩ := hs'
  rw [h.vars, hv] at hv'
  cases hv'
  rw [hd] at hd'
  cases hd'
  rw [hi] at hi'
  cases hi'
  rfl

theorem isString_eq (h : frame.Shifted d frame') (e : Expr) :
    e.isString frame' = e.isString frame := by
  cases e <;> simp [Expr.isString, h.vars]

theorem varKind_eq (h : frame.Shifted d frame') (e : Expr) :
    e.varKind frame' = e.varKind frame := by
  rw [Expr.varKind, Expr.varKind, h.isString_eq]

theorem printer_eq (h : frame.Shifted d frame') (e : Expr) :
    e.printer frame' = e.printer frame := by
  rw [Expr.printer, Expr.printer, h.isString_eq]

theorem innermostLoop? (h : frame.Shifted d frame') {labels labels' : LoopLabels}
    (hl : frame.innermostLoop? = some labels) (hl' : frame'.innermostLoop? = some labels') :
    labels.Shifted d labels' := by
  have hloops := h.loops
  unfold Frame.innermostLoop? at hl hl'
  generalize frame.loops = loops at hloops hl
  generalize frame'.loops = loops' at hloops hl'
  cases hloops with
  | nil => cases hl
  | cons hhead =>
    cases hl
    cases hl'
    exact hhead

end Frame.Shifted

structure Lowering.Shifted (d : Int) (s t : Lowering) : Prop where
  nextLabel : (t.nextLabel : Int) = s.nextLabel + d
  frame : s.frame.Shifted d t.frame

namespace Lowering.Shifted

variable {d : Int} {s t : Lowering}

theorem withPending (h : s.Shifted d t) {n n' : Nat} (hn : n' = n) :
    (s.withPending n).Shifted d (t.withPending n') where
  nextLabel := h.nextLabel
  frame := { h.frame with pending := hn }

theorem nextLabel_add (h : s.Shifted d t) (n : Nat) :
    ((t.nextLabel + n : Nat) : Int) = (s.nextLabel + n : Nat) + d := by
  have := h.nextLabel
  omega

theorem skipLabels (h : s.Shifted d t) (n : Nat) :
    (s.skipLabels n).Shifted d (t.skipLabels n) where
  nextLabel := h.nextLabel_add n
  frame := h.frame

theorem declare (h : s.Shifted d t) {name : String} {kind : VarKind} {s' t' : Lowering}
    {offset offset' : Nat} (hs : Runs (Lower.declare name kind) s offset s')
    (ht : Runs (Lower.declare name kind) t offset' t') : offset' = offset ∧ s'.Shifted d t' := by
  obtain ⟨frame, hframe, rfl⟩ := Lower.runs_declare.1 hs
  obtain ⟨frame', hframe', rfl⟩ := Lower.runs_declare.1 ht
  obtain ⟨-, -, hoffset, rfl⟩ := Frame.declare_eq_ok.1 hframe
  obtain ⟨-, -, hoffset', rfl⟩ := Frame.declare_eq_ok.1 hframe'
  have heq : offset' = offset := by rw [hoffset, hoffset', h.frame.slots]
  refine ⟨heq, h.nextLabel, { h.frame with vars := ?_, slots := ?_ }⟩
  · simp [h.frame.vars, heq]
  · simp [h.frame.slots]

theorem enterLoop (h : s.Shifted d t) {labels labels' : LoopLabels}
    (hl : labels.Shifted d labels') : (s.withFrame (s.frame.enterLoop labels)).Shifted d
      (t.withFrame (t.frame.enterLoop labels')) where
  nextLabel := h.nextLabel
  frame := { h.frame with loops := .cons hl h.frame.loops }

theorem exitLoop (h : s.Shifted d t) :
    (s.withFrame s.frame.exitLoop).Shifted d (t.withFrame t.frame.exitLoop) where
  nextLabel := h.nextLabel
  frame := { h.frame with
    loops := by simpa [Frame.exitLoop] using List.forall₂_drop 1 h.frame.loops }

end Lowering.Shifted

/-- The literals that were taken in so far are among those of `pool`, under the same numbers. -/
def Lowering.Feeds (s : Lowering) (pool : StringPool) : Prop := s.pool.entries <+: pool.entries

theorem Lowering.Grows.feeds {s s' : Lowering} {pool : StringPool} (h : s.Grows s')
    (hf : s'.Feeds pool) : s.Feeds pool :=
  h.entries.trans hf

theorem Lowering.Feeds.get?_intern {s s' : Lowering} {pool : StringPool} {text : String}
    {index : Nat} (hf : s'.Feeds pool) (h : Runs (Lower.intern text) s index s') :
    pool.get? index = some text := by
  have hs' := StringPool.getElem?_of_insert h.intern_grows.2.2.2
  obtain ⟨rest, hrest⟩ := hf
  rw [StringPool.get?, ← hrest, List.getElem?_append_left (List.getElem?_eq_some_iff.1 hs').1, hs']

/-! ## Lowering from shifted states -/

section Trees

variable (decls : Declarations) (d : Int) (pool pool' : StringPool)

/-- From two states that differ in their numbers only, the expression is lowered to code that
differs in its numbers only. -/
def Expr.Renumbers (e : Expr) : Prop :=
  ∀ ⦃s s' t t' : Lowering⦄ ⦃code code' : Code⦄, e.Lowers decls s code s' →
    e.Lowers decls t code' t' → s.Shifted d t → s'.Feeds pool → t'.Feeds pool' →
    code.Renumbered d pool pool' code' ∧ s'.Shifted d t'

def Expr.ArgsRenumber (args : List Expr) : Prop :=
  ∀ ⦃s s' t t' : Lowering⦄ ⦃code code' : Code⦄, LowersArgs decls args s code s' →
    LowersArgs decls args t code' t' → s.Shifted d t → s'.Feeds pool → t'.Feeds pool' →
    code.Renumbered d pool pool' code' ∧ s'.Shifted d t'

def Stmt.Renumbers (stmt : Stmt) : Prop :=
  ∀ ⦃s s' t t' : Lowering⦄ ⦃code code' : Code⦄, stmt.Lowers decls s code s' →
    stmt.Lowers decls t code' t' → s.Shifted d t → s'.Feeds pool → t'.Feeds pool' →
    code.Renumbered d pool pool' code' ∧ s'.Shifted d t'

def Stmt.BlockRenumbers (stmts : List Stmt) : Prop :=
  ∀ ⦃s s' t t' : Lowering⦄ ⦃code code' : Code⦄, LowersBlock decls stmts s code s' →
    LowersBlock decls stmts t code' t' → s.Shifted d t → s'.Feeds pool → t'.Feeds pool' →
    code.Renumbered d pool pool' code' ∧ s'.Shifted d t'

end Trees

variable {decls : Declarations} {d : Int} {pool pool' : StringPool}

namespace Expr

theorem renumbers_str (text : String) : (str text).Renumbers decls d pool pool' := by
  intro s s' t t' code code' h h' hst hs ht
  cases h with
  | str h =>
    cases h' with
    | str h' =>
      obtain ⟨-, hframe, hlabel, -⟩ := h.intern_grows
      obtain ⟨-, hframe', hlabel', -⟩ := h'.intern_grows
      refine ⟨.singleton (.leaString (hs.get?_intern h) (ht.get?_intern h')), ?_, ?_⟩
      · rw [hlabel, hlabel']
        exact hst.nextLabel
      · rw [hframe, hframe']
        exact hst.frame

theorem renumbers_ident (name : String) : (ident name).Renumbers decls d pool pool' := by
  intro s s' t t' code code' h h' hst _ _
  refine ⟨?_, ?_⟩
  · cases h with
    | word h =>
      cases h' with
      | word h' =>
        rw [hst.frame.wordSlot h h']
        exact .singleton (.fixed rfl)
      | record h' =>
        obtain ⟨kind, hv, hk⟩ := h
        rw [hst.frame.vars, hv] at h'
        cases h'
        exact hk.elim
    | record h =>
      cases h' with
      | word h' =>
        obtain ⟨kind, hv, hk⟩ := h'
        rw [hst.frame.vars, h] at hv
        cases hv
        exact hk.elim
      | record h' =>
        rw [hst.frame.vars, h] at h'
        cases h'
        exact .singleton (.fixed rfl)
  · cases h <;> cases h' <;> exact hst

theorem Renumbers.operands {lhs rhs : Expr} (hlhs : lhs.Renumbers decls d pool pool')
    (hrhs : rhs.Renumbers decls d pool pool') {s s₁ s₂ t t₁ t₂ : Lowering}
    {left right left' right' : Code} (hl : lhs.Lowers decls s left s₁)
    (hr : rhs.Lowers decls (s₁.withPending (s₁.frame.pending + 1)) right s₂)
    (hl' : lhs.Lowers decls t left' t₁)
    (hr' : rhs.Lowers decls (t₁.withPending (t₁.frame.pending + 1)) right' t₂)
    (hst : s.Shifted d t) (hs : s₂.Feeds pool) (ht : t₂.Feeds pool') :
    (operandsCode left right).Renumbered d pool pool' (operandsCode left' right') ∧
      (s₂.withPending (s₂.frame.pending - 1)).Shifted d
        (t₂.withPending (t₂.frame.pending - 1)) := by
  obtain ⟨hleft, hst₁⟩ := hlhs hl hl' hst (hr.grows.of_withPending.feeds hs)
    (hr'.grows.of_withPending.feeds ht)
  obtain ⟨hright, hst₂⟩ := hrhs hr hr' (hst₁.withPending (by rw [hst₁.frame.pending])) hs ht
  exact ⟨hleft.operandsCode hright, hst₂.withPending (by rw [hst₂.frame.pending])⟩

theorem Renumbers.binary (op : BinaryOp) {lhs rhs : Expr}
    (hlhs : lhs.Renumbers decls d pool pool') (hrhs : rhs.Renumbers decls d pool pool') :
    (binary op lhs rhs).Renumbers decls d pool pool' := by
  intro s s' t t' code code' h h' hst hs ht
  cases h with
  | binary hl hr _ =>
    cases h' with
    | binary hl' hr' _ =>
      obtain ⟨hcode, hshift⟩ := hlhs.operands hrhs hl hr hl' hr' hst hs ht
      exact ⟨hcode.append (op.renumbered_code hshift.nextLabel), hshift.skipLabels _⟩

theorem Renumbers.compare (op : CompareOp) {lhs rhs : Expr}
    (hlhs : lhs.Renumbers decls d pool pool') (hrhs : rhs.Renumbers decls d pool pool') :
    (compare op lhs rhs).Renumbers decls d pool pool' := by
  intro s s' t t' code code' h h' hst hs ht
  cases h with
  | compare hl hr _ =>
    cases h' with
    | compare hl' hr' _ =>
      obtain ⟨hcode, hshift⟩ := hlhs.operands hrhs hl hr hl' hr' hst hs ht
      exact ⟨hcode.append (.ofInstrs (by simp [Instr.isFixed])), hshift⟩

theorem argsRenumber_nil : ArgsRenumber decls d pool pool' [] := by
  intro s s' t t' code code' h h' hst _ _
  cases h
  cases h'
  exact ⟨.nil, hst⟩

theorem Renumbers.cons {arg : Expr} {args : List Expr} (harg : arg.Renumbers decls d pool pool')
    (hargs : ArgsRenumber decls d pool pool' args) :
    ArgsRenumber decls d pool pool' (arg :: args) := by
  intro s s' t t' code code' h h' hst hs ht
  cases h with
  | cons hv hr =>
    cases h' with
    | cons hv' hr' =>
      obtain ⟨hcode, hst₁⟩ := harg hv hv' hst (hr.grows.of_withPending.feeds hs)
        (hr'.grows.of_withPending.feeds ht)
      obtain ⟨hrest, hshift⟩ := hargs hr hr' (hst₁.withPending (by rw [hst₁.frame.pending])) hs ht
      exact ⟨(hcode.append (.singleton (.fixed rfl))).append hrest, hshift⟩

theorem ArgsRenumber.call {args : List Expr} (hargs : ArgsRenumber decls d pool pool' args)
    (name : String) : (call name args).Renumbers decls d pool pool' := by
  intro s s' t t' code code' h h' hst hs ht
  cases h with
  | call _ hc ha _ =>
    cases h' with
    | call _ hc' ha' _ =>
      obtain ⟨hvalues, hst₁⟩ := hargs ha ha' hst hs ht
      rw [hc] at hc'
      cases hc'
      rw [hst₁.frame.pending]
      exact ⟨(hvalues.append (Code.renumbered_argPops _)).append (Code.renumbered_callCode _ _),
        hst₁.withPending rfl⟩

theorem renumbers_field (name part : String) : (field name part).Renumbers decls d pool pool' := by
  intro s s' t t' code code' h h' hst _ _
  cases h with
  | field h =>
    cases h' with
    | field h' =>
      rw [hst.frame.fieldSlot h h']
      exact ⟨.singleton (.fixed rfl), hst⟩

mutual

theorem renumbers : (e : Expr) → e.Renumbers decls d pool pool'
  | .int value => by
    intro s s' t t' code code' h h' hst _ _
    cases h
    cases h'
    exact ⟨.singleton (.fixed rfl), hst⟩
  | .str text => renumbers_str text
  | .ident name => renumbers_ident name
  | .binary op lhs rhs => .binary op lhs.renumbers rhs.renumbers
  | .compare op lhs rhs => .compare op lhs.renumbers rhs.renumbers
  | .call name args => (argsRenumber args).call name
  | .field name part => renumbers_field name part

theorem argsRenumber : (args : List Expr) → ArgsRenumber decls d pool pool' args
  | [] => argsRenumber_nil
  | arg :: args => arg.renumbers.cons (argsRenumber args)

end

end Expr

namespace Stmt

theorem renumbers_declare (name : String) (value : Expr) :
    (declare name value).Renumbers decls d pool pool' := by
  intro s s' t t' code code' h h' hst hs ht
  cases h with
  | declare hv hd =>
    cases h' with
    | declare hv' hd' =>
      obtain ⟨hcode, hst₁⟩ := value.renumbers hv hv' hst (hd.declare_grows.1.feeds hs)
        (hd'.declare_grows.1.feeds ht)
      rw [hst₁.frame.varKind_eq] at hd'
      obtain ⟨rfl, hshift⟩ := hst₁.declare hd hd'
      exact ⟨hcode.append (.singleton (.fixed rfl)), hshift⟩

theorem renumbers_declareRecord (name typeName : String) :
    (declareRecord name typeName).Renumbers decls d pool pool' := by
  intro s s' t t' code code' h h' hst _ _
  cases h with
  | declareRecord htype hd _ =>
    cases h' with
    | declareRecord htype' hd' _ =>
      rw [htype] at htype'
      cases htype'
      obtain ⟨rfl, hshift⟩ := hst.declare hd hd'
      exact ⟨Code.renumbered_clearCode _ _, hshift⟩

theorem renumbers_set (name : String) (value : Expr) :
    (set name value).Renumbers decls d pool pool' := by
  intro s s' t t' code code' h h' hst hs ht
  cases h with
  | set hv hslot =>
    cases h' with
    | set hv' hslot' =>
      obtain ⟨hcode, hshift⟩ := value.renumbers hv hv' hst hs ht
      rw [hshift.frame.wordSlot hslot hslot']
      exact ⟨hcode.append (.singleton (.fixed rfl)), hshift⟩

theorem renumbers_setField (name field : String) (value : Expr) :
    (setField name field value).Renumbers decls d pool pool' := by
  intro s s' t t' code code' h h' hst hs ht
  cases h with
  | setField hv hslot =>
    cases h' with
    | setField hv' hslot' =>
      obtain ⟨hcode, hshift⟩ := value.renumbers hv hv' hst hs ht
      rw [hshift.frame.fieldSlot hslot hslot']
      exact ⟨hcode.append (.singleton (.fixed rfl)), hshift⟩

theorem renumbers_ret (value : Option Expr) : (ret value).Renumbers decls d pool pool' := by
  intro s s' t t' code code' h h' hst hs ht
  cases h with
  | retNone =>
    cases h'
    exact ⟨.cons (.fixed rfl) (.cons (.jmp hst.frame.exitLabel) .nil), hst⟩
  | ret hv =>
    cases h' with
    | ret hv' =>
      obtain ⟨hcode, hshift⟩ := Expr.renumbers _ hv hv' hst hs ht
      exact ⟨hcode.append (.singleton (.jmp hshift.frame.exitLabel)), hshift⟩

theorem renumbers_print (value : Expr) : (print value).Renumbers decls d pool pool' := by
  intro s s' t t' code code' h h' hst hs ht
  cases h with
  | print hv =>
    cases h' with
    | print hv' =>
      obtain ⟨hcode, hshift⟩ := value.renumbers hv hv' hst hs ht
      rw [hshift.frame.pending, hshift.frame.printer_eq]
      exact ⟨((hcode.append (.singleton (.fixed rfl))).append (Code.renumbered_callCode _ _)).append
        (Code.renumbered_callCode _ _), hshift⟩

theorem renumbers_branch (cond : Expr) {thenBody elseBody : List Stmt}
    (hthen : BlockRenumbers decls d pool pool' thenBody)
    (helse : BlockRenumbers decls d pool pool' elseBody) :
    (branch cond thenBody elseBody).Renumbers decls d pool pool' := by
  intro s s' t t' code code' h h' hst hs ht
  cases h with
  | branch hc hb =>
    cases h' with
    | branch hc' hb' =>
      obtain ⟨htest, hst₁⟩ := cond.renumbers hc hc' hst (hb.grows.of_skipLabels.feeds hs)
        (hb'.grows.of_skipLabels.feeds ht)
      obtain ⟨hbody, hshift⟩ := hthen hb hb' (hst₁.skipLabels 1) hs ht
      exact ⟨((htest.append (.cons (.fixed rfl) (.cons (.je hst₁.nextLabel) .nil))).append
        hbody).append (.singleton (.label hst₁.nextLabel)), hshift⟩
    | branchElse hne => exact absurd rfl hne
  | branchElse hne hc hb ho =>
    cases h' with
    | branch => exact absurd rfl hne
    | branchElse _ hc' hb' ho' =>
      have hs₂ := ho.grows.feeds hs
      have ht₂ := ho'.grows.feeds ht
      obtain ⟨htest, hst₁⟩ := cond.renumbers hc hc' hst (hb.grows.of_skipLabels.feeds hs₂)
        (hb'.grows.of_skipLabels.feeds ht₂)
      obtain ⟨hbody, hst₂⟩ := hthen hb hb' (hst₁.skipLabels 2) hs₂ ht₂
      obtain ⟨hother, hshift⟩ := helse ho ho' hst₂ hs ht
      have hdone := hst₁.nextLabel_add 1
      exact ⟨((((htest.append (.cons (.fixed rfl) (.cons (.je hst₁.nextLabel) .nil))).append
        hbody).append (.cons (.jmp hdone) (.cons (.label hst₁.nextLabel) .nil))).append
        hother).append (.singleton (.label hdone)), hshift⟩

theorem renumbers_loop (cond : Expr) {body : List Stmt}
    (hbody : BlockRenumbers decls d pool pool' body) :
    (loop cond body).Renumbers decls d pool pool' := by
  intro s s' t t' code code' h h' hst hs ht
  cases h with
  | loop hc hb =>
    cases h' with
    | loop hc' hb' =>
      have hstop := hst.nextLabel_add 1
      obtain ⟨htest, hst₁⟩ := cond.renumbers hc hc' (hst.skipLabels 2)
        (hb.grows.of_withFrame.feeds hs) (hb'.grows.of_withFrame.feeds ht)
      obtain ⟨hcode, hst₂⟩ := hbody hb hb' (hst₁.enterLoop ⟨hst.nextLabel, hstop⟩) hs ht
      refine ⟨?_, hst₂.exitLoop⟩
      exact .append (.append (.append (.cons (.label hst.nextLabel) htest)
        (.cons (.fixed rfl) (.cons (.je hstop) .nil))) hcode)
        (.cons (.jmp hst.nextLabel) (.cons (.label hstop) .nil))

theorem blockRenumbers_nil : BlockRenumbers decls d pool pool' [] := by
  intro s s' t t' code code' h h' hst _ _
  cases h
  cases h'
  exact ⟨.nil, hst⟩

theorem Renumbers.cons {stmt : Stmt} {stmts : List Stmt}
    (hfirst : stmt.Renumbers decls d pool pool')
    (hrest : BlockRenumbers decls d pool pool' stmts) :
    BlockRenumbers decls d pool pool' (stmt :: stmts) := by
  intro s s' t t' code code' h h' hst hs ht
  cases h with
  | cons hf hr =>
    cases h' with
    | cons hf' hr' =>
      obtain ⟨hcode, hst₁⟩ := hfirst hf hf' hst (hr.grows.feeds hs) (hr'.grows.feeds ht)
      obtain ⟨hmore, hshift⟩ := hrest hr hr' hst₁ hs ht
      exact ⟨hcode.append hmore, hshift⟩

mutual

theorem renumbers : (stmt : Stmt) → stmt.Renumbers decls d pool pool'
  | .declare name value => renumbers_declare name value
  | .declareRecord name typeName => renumbers_declareRecord name typeName
  | .set name value => renumbers_set name value
  | .setField name field value => renumbers_setField name field value
  | .ret value => renumbers_ret value
  | .branch cond thenBody elseBody =>
    renumbers_branch cond (blockRenumbers thenBody) (blockRenumbers elseBody)
  | .loop cond body => renumbers_loop cond (blockRenumbers body)
  | .print value => renumbers_print value
  | .eval value => by
    intro s s' t t' code code' h h' hst hs ht
    cases h with
    | eval hv =>
      cases h' with
      | eval hv' => exact value.renumbers hv hv' hst hs ht
  | .leave => by
    intro s s' t t' code code' h h' hst _ _
    cases h with
    | leave hl =>
      cases h' with
      | leave hl' => exact ⟨.singleton (.jmp (hst.frame.innermostLoop? hl hl').stop), hst⟩
  | .again => by
    intro s s' t t' code code' h h' hst _ _
    cases h with
    | again hl =>
      cases h' with
      | again hl' => exact ⟨.singleton (.jmp (hst.frame.innermostLoop? hl hl').start), hst⟩

theorem blockRenumbers : (stmts : List Stmt) → BlockRenumbers decls d pool pool' stmts
  | [] => blockRenumbers_nil
  | stmt :: stmts => stmt.renumbers.cons (blockRenumbers stmts)

end

end Stmt

/-! ## Functions in another order -/

theorem StoresParams.renumbered (pool pool' : StringPool) {params : List (String × Register)}
    {s s' t t' : Lowering} {code code' : Code} (h : StoresParams params s code s')
    (h' : StoresParams params t code' t') (hst : s.Shifted d t) :
    code.Renumbered d pool pool' code' ∧ s'.Shifted d t' := by
  induction h generalizing t code' with
  | nil =>
    cases h'
    exact ⟨.nil, hst⟩
  | cons hd _ ih =>
    cases h' with
    | cons hd' hrest' =>
      obtain ⟨rfl, hst₁⟩ := hst.declare hd hd'
      obtain ⟨hcode, hshift⟩ := ih hrest' hst₁
      exact ⟨.cons (.fixed rfl) hcode, hshift⟩

/-- Wherever a function is lowered, its code is the same up to a shift of the labels and to the
numbers of the literals. -/
theorem FunctionDecl.Lowers.renumbered {limits : Limits} {f : FunctionDecl} {s s' t t' : Lowering}
    {r r' : Routine} (h : f.Lowers limits decls s r s') (h' : f.Lowers limits decls t r' t')
    (hs : s'.Feeds pool) (ht : t'.Feeds pool') :
    ∃ d : Int, r.code.Renumbered d pool pool' r'.code := by
  obtain ⟨-, params, body, s₁, hparams, hbody, rfl⟩ := h
  obtain ⟨-, params', body', t₁, hparams', hbody', rfl⟩ := h'
  let d : Int := t.nextLabel - s.nextLabel
  have hexit : (t.nextLabel : Int) = s.nextLabel + d := by omega
  have henter : (f.enter limits s).Shifted d (f.enter limits t) :=
    ⟨by simp [enter]; omega, rfl, rfl, rfl, hexit, .nil⟩
  obtain ⟨hcode, hst₁⟩ := hparams.renumbered pool pool' hparams' henter
  obtain ⟨hmore, hshift⟩ := Stmt.blockRenumbers f.body hbody hbody' hst₁ hs ht
  have hsize : t'.frame.size = s'.frame.size := by rw [Frame.size, Frame.size, hshift.frame.slots]
  rw [hsize]
  refine ⟨d, .append (Code.renumbered_prologue _) (.append (.append (.append hcode hmore) ?_) ?_)⟩
  · exact .cons (.fixed rfl) (.cons (.label hexit) .nil)
  · exact .ofInstrs (by simp [Routine.epilogue, Instr.isFixed])

theorem Declarations.Agree.symm {decls decls' : Declarations} (h : decls.Agree decls') :
    decls'.Agree decls :=
  ⟨fun name => (h.functions name).symm, fun name => (h.types name).symm⟩

theorem LowersFunctions.congr {limits : Limits} {decls decls' : Declarations}
    (hd : decls.Agree decls') {fs : List FunctionDecl} {s t : Lowering} {rs : List Routine}
    (h : LowersFunctions limits decls' fs s rs t) : LowersFunctions limits decls fs s rs t := by
  induction h with
  | nil s => exact .nil s
  | cons hf _ ih => exact .cons (hf.congr hd) ih

theorem LowersFunctions.unique {limits : Limits} {fs : List FunctionDecl} {s t t' : Lowering}
    {rs rs' : List Routine} (h : LowersFunctions limits decls fs s rs t)
    (h' : LowersFunctions limits decls fs s rs' t') : rs' = rs ∧ t' = t := by
  induction h generalizing rs' with
  | nil =>
    cases h'
    exact ⟨rfl, rfl⟩
  | cons hf _ ih =>
    cases h' with
    | cons hf' h' =>
      obtain ⟨rfl, rfl⟩ := hf.unique hf'
      obtain ⟨rfl, rfl⟩ := ih h'
      exact ⟨rfl, rfl⟩

/-- The function has the same code in both outputs, up to a shift of its labels and to the numbers
that its literals have in the two pools. -/
def Assembly.SameCode (a b : Assembly) (f : FunctionDecl) : Prop :=
  ∃ r ∈ a.routines, ∃ r' ∈ b.routines, r.name = f.name ∧ r'.name = f.name ∧
    ∃ d : Int, r.code.Renumbered d a.pool b.pool r'.code

namespace Program

/-- The output of a program, with its routines and its literals. -/
structure WrittenAs (limits : Limits) (p : Program) (a : Assembly) : Prop where
  written : p.written limits = utf8 a.text
  names : a.routines.map Routine.name = p.functions.map (·.name)
  pool : a.pool.entries = p.literals.eraseDups

variable {limits : Limits} {p q : Program} {a b : Assembly}

theorem Assembles.writtenAs (h : p.Assembles limits a) : p.WrittenAs limits a := by
  obtain ⟨s, hl, hpool⟩ := h.exists_lowers
  refine ⟨h.written_eq, h.map_name_routines, ?_⟩
  rw [← hpool, ← StringPool.foldl_addTo_nil]
  exact hl.collects.1

theorem Assembles.agree_of_perm (h : p.Assembles limits a) (hf : q.functions.Perm p.functions)
    (ht : q.types.Perm p.types) : p.declarations.Agree q.declarations :=
  Program.agree_of_perm h.types_nodup h.functions_nodup ht (hf.map _)

/-- A program is accepted whatever the order of its functions and types. -/
theorem Assembles.exists_of_perm (h : p.Assembles limits a) (hf : q.functions.Perm p.functions)
    (ht : q.types.Perm p.types) : ∃ b, q.Assembles limits b := by
  have hwell := h.wellFormed
  have hliterals : (q.functions.flatMap fun f => Stmt.blockLiterals f.body) ⊆ p.literals :=
    (hf.flatMap_right _).subset
  have hroom : (Generator.new limits {}).lowering.pool.Within p.literals :=
    ⟨List.nodup_nil, List.nil_subset _, hwell.literals_le⟩
  obtain ⟨rs, s', hl⟩ := exists_lowersFunctions h.types_nodup h.functions_nodup
    (fun f hm => hwell.functions_wellScoped f (hf.mem_iff.1 hm)) hroom hliterals
  have hq := hl.congr (h.agree_of_perm hf ht).symm
  exact ⟨⟨rs, s'.pool⟩, (ht.map _).nodup_iff.2 h.types_nodup,
    (hf.map _).nodup_iff.2 h.functions_nodup, s', hq, rfl⟩

/-- The order of types leaves no trace. -/
theorem Assembles.written_of_perm (h : p.Assembles limits a) (hq : q.Assembles limits b)
    (hf : q.functions = p.functions) (ht : q.types.Perm p.types) :
    q.written limits = p.written limits := by
  obtain ⟨s, hl, hpool⟩ := h.exists_lowers
  obtain ⟨t, hl', hpool'⟩ := hq.exists_lowers
  have hagree := h.agree_of_perm (hf ▸ .refl _) ht
  rw [hf] at hl'
  obtain ⟨hroutines, rfl⟩ := hl.unique (hl'.congr hagree)
  have heq : b = a := by
    cases a
    cases b
    simp_all
  rw [h.written_eq, hq.written_eq, heq]

theorem Assembles.sameCode_of_perm (h : p.Assembles limits a) (hq : q.Assembles limits b)
    (hf : q.functions.Perm p.functions) (ht : q.types.Perm p.types) {f : FunctionDecl}
    (hm : f ∈ p.functions) : a.SameCode b f := by
  obtain ⟨s, hl, hpool⟩ := h.exists_lowers
  obtain ⟨t, hl', hpool'⟩ := hq.exists_lowers
  obtain ⟨r, hr, _, _, hlowers, hgrows⟩ := hl.exists_of_mem hm
  obtain ⟨r', hr', _, _, hlowers', hgrows'⟩ := hl'.exists_of_mem (hf.mem_iff.2 hm)
  have hsame : ∃ d : Int, r.code.Renumbered d a.pool b.pool r'.code :=
    hlowers.renumbered (hlowers'.congr (h.agree_of_perm hf ht)) (hpool ▸ hgrows.entries)
      (hpool' ▸ hgrows'.entries)
  exact ⟨r, hr, r', hr', hlowers.name_eq, hlowers'.name_eq, hsame⟩

/-- An accepted program stays accepted when its functions and types come in another order. If only
types change places, the output is the same; if functions do, each keeps its code up to a shift of
its labels and to the numbers of its literals. -/
theorem order_independent (h : p.Accepted limits) (hf : q.functions.Perm p.functions)
    (ht : q.types.Perm p.types) :
    q.Accepted limits ∧ (q.functions = p.functions → q.written limits = p.written limits) ∧
      ∃ a b : Assembly, p.WrittenAs limits a ∧ q.WrittenAs limits b ∧
        ∀ f ∈ p.functions, a.SameCode b f := by
  obtain ⟨a, ha⟩ := accepted_iff.1 h
  obtain ⟨b, hb⟩ := ha.exists_of_perm hf ht
  exact ⟨accepted_iff.2 ⟨b, hb⟩, fun hfunctions => ha.written_of_perm hb hfunctions ht, a, b,
    ha.writtenAs, hb.writtenAs, fun f hm => ha.sameCode_of_perm hb hf ht hm⟩

/-- With its functions in reverse, `halves` has another output. -/
theorem order_independent_halves : ∃ q : Program, q.functions = halves.functions.reverse ∧
    q.types = halves.types ∧ q.Accepted {} ∧ q.written {} ≠ halves.written {} ∧
      ∃ a b : Assembly, halves.WrittenAs {} a ∧ q.WrittenAs {} b ∧
        ∀ f ∈ halves.functions, a.SameCode b f := by
  let q : Program := { halves with functions := halves.functions.reverse }
  have h : halves.Accepted {} := by decide +kernel
  obtain ⟨hq, -, hsame⟩ := order_independent (q := q) h (List.reverse_perm _) (.refl _)
  exact ⟨q, rfl, rfl, hq, by decide +kernel, hsame⟩

end Program

end WordLang
