import Mathlib.Order.Defs.Unbundled
import WordLang.Proofs.Scope

/-!
# Lowering by primitive actions

Lowering is composed of a few primitive actions: it takes labels, takes literals into the pool,
declares variables, counts pushed words, opens and closes loops, and stops. What each of these does
to the state, every lowering does, whether it succeeds or stops.
-/
namespace WordLang

open Asm

/-! ## Actions that may fail -/

section Leads

variable {σ α β : Type} {R : σ → σ → Prop}

/-- Whether it succeeds or fails, the action moves the state along `R`. -/
def Leads (R : σ → σ → Prop) (m : ExceptT Halt (StateM σ) α) : Prop := ∀ s, R s (outcome m s).2

variable [IsPreorder σ R]

theorem leads_pure (a : α) : Leads R (pure a : ExceptT Halt (StateM σ) α) := fun s => refl_of R s

theorem leads_throw (e : Halt) : Leads R (throw e : ExceptT Halt (StateM σ) α) :=
  fun s => refl_of R s

theorem leads_get : Leads R (get : ExceptT Halt (StateM σ) σ) := fun s => refl_of R s

theorem leads_bind_at {m : ExceptT Halt (StateM σ) α} {f : α → ExceptT Halt (StateM σ) β} {s : σ}
    (hm : R s (outcome m s).2) (hf : ∀ a, Leads R (f a)) : R s (outcome (m >>= f) s).2 := by
  rw [outcome_bind]
  rcases houtcome : outcome m s with ⟨_ | a, s₁⟩
  · rwa [houtcome] at hm
  · rw [houtcome] at hm
    exact trans_of R hm (hf a s₁)

theorem Leads.bind {m : ExceptT Halt (StateM σ) α} {f : α → ExceptT Halt (StateM σ) β}
    (hm : Leads R m) (hf : ∀ a, Leads R (f a)) : Leads R (m >>= f) :=
  fun s => leads_bind_at (hm s) hf

theorem leads_forM {f : α → ExceptT Halt (StateM σ) Unit} {xs : List α}
    (h : ∀ x ∈ xs, Leads R (f x)) : Leads R (xs.forM f) := by
  induction xs with
  | nil => exact leads_pure ()
  | cons x xs ih =>
    rw [List.forall_mem_cons] at h
    exact h.1.bind fun _ => ih h.2

end Leads

/-! ## Composed actions -/

/-- The program is to blame, and not the place where the output goes. -/
def CompileError.OfProgram (e : CompileError) : Prop := ∀ cause, e ≠ .output cause

/-- The program asks for more variables or literals than allowed. -/
def CompileError.IsLimit : CompileError → Prop
  | .tooManyVariables .. | .tooManyStrings _ => True
  | _ => False

/-- The program is to blame, under whatever limits. -/
def CompileError.OfTree (e : CompileError) : Prop := e.OfProgram ∧ ¬ e.IsLimit

/-- The variable takes at least one slot, and as many as its type asks for. -/
structure VarKind.Sized (decls : Declarations) (kind : VarKind) : Prop where
  pos : 0 < kind.slots
  eq : kind.slots = decls.slots kind.typeName?

theorem VarKind.sized_scalar (decls : Declarations) : VarKind.scalar.Sized decls := ⟨by decide, rfl⟩

theorem VarKind.sized_string (decls : Declarations) : VarKind.string.Sized decls := ⟨by decide, rfl⟩

theorem VarKind.sized_record {decls : Declarations} {typeName : String} {decl : RecordDecl}
    (h : decls.types.find? typeName = some decl) :
    (VarKind.record typeName decl.slots).Sized decls :=
  ⟨decl.slots_pos, (decls.slots_of_find? h).symm⟩

namespace Lower

/-- The variables that an action may declare and the literals that it may take in. -/
structure Words where
  locals : Scope
  literals : List String

/-- Actions that are composed of primitive ones. They do not look at the limits. -/
inductive Built (decls : Declarations) (words : Words) : {α : Type} → Lower α → Prop where
  | pure {α : Type} (a : α) : Built decls words (Pure.pure a : Lower α)
  | bind {α β : Type} {m : Lower α} {f : α → Lower β} :
      Built decls words m → (∀ a, Built decls words (f a)) → Built decls words (m >>= f)
  | refuse {α : Type} {e : CompileError} : e.OfTree → Built decls words (refuse e : Lower α)
  | underflow {α : Type} : Built decls words (throw .underflow : Lower α)
  | look {α : Type} {f : Frame → Lower α} :
      (∀ frame n, f { frame with maxVariables := n } = f frame) →
      (∀ frame, Built decls words (f frame)) → Built decls words (Lower.frame >>= f)
  | freshLabel : Built decls words freshLabel
  | intern {value : String} : value ∈ words.literals → Built decls words (intern value)
  | declare {name : String} {kind : VarKind} :
      (name, kind.typeName?) ∈ words.locals → kind.Sized decls →
      Built decls words (declare name kind)
  | push (r : Register) : Built decls words (push r)
  | pop (r : Register) : Built decls words (pop r)
  | inLoop {α : Type} (labels : LoopLabels) {body : Lower α} :
      Built decls words body → Built decls words (inLoop labels body)

section Built

variable {decls : Declarations} {words : Words}

theorem built_ofExcept {α : Type} {x : Except CompileError α}
    (h : ∀ e, x = .error e → e.OfTree) : Built decls words (ofExcept x) := by
  cases x with
  | ok a => exact .pure a
  | error e => exact .refuse (h e rfl)

theorem built_lookup (name : String) : Built decls words (lookup name) := by
  refine .look (fun _ _ => rfl) fun frame => built_ofExcept fun e he => ?_
  unfold Frame.lookup at he
  split at he <;> cases he
  exact ⟨by rintro _ ⟨⟩, id⟩

theorem built_slotAbove (base index : Nat) : Built decls words (slotAbove base index) := by
  unfold slotAbove
  split
  · exact .pure _
  · exact .underflow

theorem built_fieldSlot (name field : String) : Built decls words (fieldSlot decls name field) := by
  refine .bind (built_lookup name) fun var => ?_
  split
  · split
    · exact built_slotAbove _ _
    · exact .refuse ⟨by rintro _ ⟨⟩, id⟩
  · exact .refuse ⟨by rintro _ ⟨⟩, id⟩
  · exact .refuse ⟨by rintro _ ⟨⟩, id⟩

theorem built_scalarSlot (name : String) : Built decls words (scalarSlot name) := by
  refine .bind (built_lookup name) fun var => ?_
  split
  · exact .pure _
  · exact .pure _
  · exact .refuse ⟨by rintro _ ⟨⟩, id⟩

theorem built_popAll (rs : List Register) : Built decls words (popAll rs) := by
  induction rs with
  | nil => exact .pure _
  | cons r rs ih => exact .bind (.pop r) fun _ => .bind ih fun _ => .pure _

theorem built_call (callee : Callee) : Built decls words (call callee) := by
  refine .look (fun _ _ => rfl) fun frame => ?_
  split
  · exact .pure _
  · exact .pure _

theorem built_clearSlots (base count : Nat) : Built decls words (clearSlots base count) := by
  unfold clearSlots
  induction List.range count with
  | nil => exact .pure _
  | cons index indices ih =>
    rw [List.mapM_cons]
    exact .bind (.bind (built_slotAbove base index) fun _ => .pure _) fun _ =>
      .bind ih fun _ => .pure _

theorem built_storeParams {params : List (String × Register)}
    (h : ∀ param ∈ params, (param.1, none) ∈ words.locals) :
    Built decls words (storeParams params) := by
  induction params with
  | nil => exact .pure _
  | cons param params ih =>
    rw [List.forall_mem_cons] at h
    exact .bind (.declare h.1 (VarKind.sized_scalar decls)) fun _ =>
      .bind (ih h.2) fun _ => .pure _

end Built

end Lower

theorem BinaryOp.built_lower (decls : Declarations) (words : Lower.Words) (op : BinaryOp) :
    Lower.Built decls words op.lower := by
  cases op with
  | add | sub | mul => exact .pure _
  | div | mod => exact .bind .freshLabel fun _ => .bind .freshLabel fun _ => .pure _

namespace Declarations

theorem ofTree_of_checkArgCount {name : String} {found : Nat} {e : CompileError}
    (h : checkArgCount name found = .error e) : e.OfTree := by
  unfold checkArgCount at h
  split at h <;> cases h
  exact ⟨by rintro _ ⟨⟩, id⟩

theorem ofTree_of_callee {decls : Declarations} {name : String} {found : Nat}
    {e : CompileError} (h : decls.callee name found = .error e) : e.OfTree := by
  have hcheck {expected : Nat} {c : Callee}
      (h : Declarations.callee.check name found expected c = .error e) : e.OfTree := by
    unfold Declarations.callee.check at h
    split at h <;> cases h
    exact ⟨by rintro _ ⟨⟩, id⟩
  unfold Declarations.callee at h
  split at h
  · exact hcheck h
  · exact hcheck h
  · cases h
    exact ⟨by rintro _ ⟨⟩, id⟩

end Declarations

namespace Expr

variable (decls : Declarations) (words : Lower.Words)

mutual

theorem built_lower_within : (e : Expr) → e.literals ⊆ words.literals →
    Lower.Built decls words (e.lower decls)
  | .int _, _ => by
    unfold Expr.lower
    exact .pure _
  | .str text, h => by
    unfold Expr.lower
    exact .bind (.intern (h (List.mem_singleton_self text))) fun _ => .pure _
  | .ident name, _ => by
    unfold Expr.lower
    refine .bind (Lower.built_lookup name) fun var => ?_
    split <;> exact .pure _
  | .binary op lhs rhs, h => by
    obtain ⟨hl, hr⟩ := List.append_subset.1 h
    unfold Expr.lower
    exact .bind (built_lower_within lhs hl) fun _ => .bind (.push _) fun _ =>
      .bind (built_lower_within rhs hr) fun _ => .bind (.pop _) fun _ =>
      .bind (op.built_lower decls words) fun _ => .pure _
  | .compare op lhs rhs, h => by
    obtain ⟨hl, hr⟩ := List.append_subset.1 h
    unfold Expr.lower
    exact .bind (built_lower_within lhs hl) fun _ => .bind (.push _) fun _ =>
      .bind (built_lower_within rhs hr) fun _ => .bind (.pop _) fun _ => .pure _
  | .call name args, h => by
    unfold Expr.lower
    exact .bind (Lower.built_ofExcept fun _ => Declarations.ofTree_of_checkArgCount) fun _ =>
      .bind (Lower.built_ofExcept fun _ => Declarations.ofTree_of_callee) fun _ =>
      .bind (built_lowerArgs_within args h) fun _ => .bind (Lower.built_popAll _) fun _ =>
      .bind (Lower.built_call _) fun _ => .pure _
  | .field name part, _ => by
    unfold Expr.lower
    exact .bind (Lower.built_fieldSlot name part) fun _ => .pure _

theorem built_lowerArgs_within : (args : List Expr) → argsLiterals args ⊆ words.literals →
    Lower.Built decls words (Expr.lowerArgs decls args)
  | [], _ => by
    unfold Expr.lowerArgs
    exact .pure _
  | arg :: args, h => by
    obtain ⟨ha, hr⟩ := List.append_subset.1 h
    unfold Expr.lowerArgs
    exact .bind (built_lower_within arg ha) fun _ => .bind (.push _) fun _ =>
      .bind (built_lowerArgs_within args hr) fun _ => .pure _

end

theorem built_lower (e : Expr) : Lower.Built decls ⟨[], e.literals⟩ (e.lower decls) :=
  built_lower_within decls _ e (List.Subset.refl _)

end Expr

namespace Stmt

variable (decls : Declarations) (words : Lower.Words)

mutual

theorem built_lower_within : (stmt : Stmt) → stmt.locals ⊆ words.locals →
    stmt.literals ⊆ words.literals → Lower.Built decls words (stmt.lower decls)
  | .declare name value, hn, h => by
    have hname : (name, none) ∈ words.locals := hn (List.mem_singleton_self _)
    unfold Stmt.lower
    refine .bind (value.built_lower_within decls words h) fun _ =>
      .look (fun _ _ => rfl) fun frame => ?_
    split
    · exact .bind (.declare hname (VarKind.sized_string decls)) fun _ => .pure _
    · exact .bind (.declare hname (VarKind.sized_scalar decls)) fun _ => .pure _
  | .declareRecord name typeName, hn, _ => by
    unfold Stmt.lower
    split
    · exact .refuse ⟨by rintro _ ⟨⟩, id⟩
    · next decl hd =>
      exact .bind (.declare (hn (List.mem_singleton_self _)) (VarKind.sized_record hd)) fun _ =>
        Lower.built_clearSlots _ _
  | .set name value, _, h => by
    unfold Stmt.lower
    exact .bind (value.built_lower_within decls words h) fun _ =>
      .bind (Lower.built_scalarSlot name) fun _ => .pure _
  | .setField name field value, _, h => by
    unfold Stmt.lower
    exact .bind (value.built_lower_within decls words h) fun _ =>
      .bind (Lower.built_fieldSlot name field) fun _ => .pure _
  | .ret none, _, _ => by
    unfold Stmt.lower
    exact .look (fun _ _ => rfl) fun _ => .pure _
  | .ret (some value), _, h => by
    unfold Stmt.lower
    exact .bind (value.built_lower_within decls words h) fun _ =>
      .look (fun _ _ => rfl) fun _ => .pure _
  | .branch cond thenBody [], hn, h => by
    obtain ⟨hthen, -⟩ := List.append_subset.1 hn
    obtain ⟨h, -⟩ := List.append_subset.1 h
    obtain ⟨hc, hb⟩ := List.append_subset.1 h
    unfold Stmt.lower
    exact .bind (cond.built_lower_within decls words hc) fun _ => .bind .freshLabel fun _ =>
      .bind (built_lowerBlock_within thenBody hthen hb) fun _ => .pure _
  | .branch cond thenBody (stmt :: stmts), hn, h => by
    obtain ⟨hthen, helse⟩ := List.append_subset.1 hn
    obtain ⟨h, ho⟩ := List.append_subset.1 h
    obtain ⟨hc, hb⟩ := List.append_subset.1 h
    unfold Stmt.lower
    exact .bind (cond.built_lower_within decls words hc) fun _ => .bind .freshLabel fun _ =>
      .bind .freshLabel fun _ => .bind (built_lowerBlock_within thenBody hthen hb) fun _ =>
      .bind (built_lowerBlock_within (stmt :: stmts) helse ho) fun _ => .pure _
  | .loop cond body, hn, h => by
    obtain ⟨hc, hb⟩ := List.append_subset.1 h
    unfold Stmt.lower
    exact .bind .freshLabel fun _ => .bind .freshLabel fun _ =>
      .bind (cond.built_lower_within decls words hc) fun _ =>
      .bind (.inLoop _ (built_lowerBlock_within body hn hb)) fun _ => .pure _
  | .print value, _, h => by
    unfold Stmt.lower
    exact .bind (value.built_lower_within decls words h) fun _ => .look (fun _ _ => rfl) fun _ =>
      .bind (Lower.built_call _) fun _ => .bind (Lower.built_call _) fun _ => .pure _
  | .eval value, _, h => by
    unfold Stmt.lower
    exact value.built_lower_within decls words h
  | .leave, _, _ | .again, _, _ => by
    unfold Stmt.lower
    refine .look (fun _ _ => rfl) fun frame => ?_
    split
    · exact .pure _
    · exact .refuse ⟨by rintro _ ⟨⟩, id⟩

theorem built_lowerBlock_within : (stmts : List Stmt) → blockLocals stmts ⊆ words.locals →
    blockLiterals stmts ⊆ words.literals →
    Lower.Built decls words (Stmt.lowerBlock decls stmts)
  | [], _, _ => by
    unfold Stmt.lowerBlock
    exact .pure _
  | stmt :: stmts, hn, h => by
    obtain ⟨hfirst, hrest⟩ := List.append_subset.1 hn
    obtain ⟨hf, hr⟩ := List.append_subset.1 h
    unfold Stmt.lowerBlock
    exact .bind (built_lower_within stmt hfirst hf) fun _ =>
      .bind (built_lowerBlock_within stmts hrest hr) fun _ => .pure _

end

theorem built_lower (stmt : Stmt) :
    Lower.Built decls ⟨stmt.locals, stmt.literals⟩ (stmt.lower decls) :=
  built_lower_within decls _ stmt (List.Subset.refl _) (List.Subset.refl _)

theorem built_lowerBlock (stmts : List Stmt) :
    Lower.Built decls ⟨blockLocals stmts, blockLiterals stmts⟩ (Stmt.lowerBlock decls stmts) :=
  built_lowerBlock_within decls _ stmts (List.Subset.refl _) (List.Subset.refl _)

end Stmt

/-! ## What composed actions do -/

/-- Literals were taken in within the pool's capacity. -/
def StringPool.Bounded (pool : StringPool) : Prop := pool.entries.length ≤ pool.capacity

theorem StringPool.Bounded.insert {pool pool' : StringPool} {value : String} {index : Nat}
    (h : pool.Bounded) (hi : pool.insert value = .ok (index, pool')) : pool'.Bounded := by
  rcases insert_eq_ok.1 hi with ⟨_, rfl⟩ | ⟨_, hlt, _, rfl⟩
  · exact h
  · simpa [Bounded] using Nat.succ_le_of_lt hlt

theorem StringPool.nodup_insert {pool pool' : StringPool} {value : String} {index : Nat}
    (h : pool.entries.Nodup) (hi : pool.insert value = .ok (index, pool')) :
    pool'.entries.Nodup := by
  rcases insert_eq_ok.1 hi with ⟨_, rfl⟩ | ⟨hn, _, _, rfl⟩
  · exact h
  · simpa using h.concat hn

/-- There is room for the variables declared so far. -/
def Frame.Roomy (frame : Frame) : Prop := frame.vars.length ≤ frame.maxVariables

theorem Runs.declare_roomy {name : String} {kind : VarKind} {offset : Nat} {s s' : Lowering}
    (h : Runs (Lower.declare name kind) s offset s') : s'.frame.Roomy := by
  obtain ⟨_, hlt, _, hframe⟩ := Frame.declare_eq_ok.1 h.declare_grows.2.2.1
  rw [hframe]
  simpa [Frame.Roomy] using Nat.succ_le_of_lt hlt

/-- All but the open loops is as the body left it. -/
theorem Frame.exists_afterBody_eq {α : Type} (frame : Frame) (result : Except Halt α) :
    ∃ loops, frame.afterBody result = { frame with loops } := by
  rcases result with (_ | _) | _
  · exact ⟨frame.loops.tail, rfl⟩
  · exact ⟨frame.loops, rfl⟩
  · exact ⟨frame.loops.tail, rfl⟩

/-- Literals, labels and variables are only added, and all that is asked of the pool and the frame
is kept. Words that were pushed may be left behind. -/
structure Lowering.Extends (decls : Declarations) (s s' : Lowering) : Prop where
  grows : s.Grows s'
  bounded : s.pool.Bounded → s'.pool.Bounded
  nodup : s.pool.entries.Nodup → s'.pool.entries.Nodup
  maxVariables : s'.frame.maxVariables = s.frame.maxVariables
  roomy : s.frame.Roomy → s'.frame.Roomy
  laid : s.frame.Laid → s'.frame.Laid
  sound : s.frame.Sound decls → s'.frame.Sound decls

namespace Lowering.Extends

variable {decls : Declarations} {s s₁ s' : Lowering}

theorem refl (s : Lowering) : s.Extends decls s := ⟨.refl s, id, id, rfl, id, id, id⟩

theorem trans (h : s.Extends decls s₁) (h' : s₁.Extends decls s') : s.Extends decls s' where
  grows := h.grows.trans h'.grows
  bounded := h'.bounded ∘ h.bounded
  nodup := h'.nodup ∘ h.nodup
  maxVariables := h'.maxVariables.trans h.maxVariables
  roomy := h'.roomy ∘ h.roomy
  laid := h'.laid ∘ h.laid
  sound := h'.sound ∘ h.sound

instance : IsPreorder Lowering (Lowering.Extends decls) where
  refl := refl
  trans _ _ _ := trans

theorem withPending (s : Lowering) (n : Nat) : s.Extends decls (s.withPending n) where
  grows := (Grows.refl s).withPending n
  bounded := id
  nodup := id
  maxVariables := rfl
  roomy := id
  laid h := ⟨h.slotSize, h.used, h.placed⟩
  sound h := h.withPending n

/-- Open loops are not asked about. -/
theorem withLoops (s : Lowering) (loops : List LoopLabels) :
    s.Extends decls (s.withFrame { s.frame with loops }) where
  grows := (Grows.refl s).withFrame _
  bounded := id
  nodup := id
  maxVariables := rfl
  roomy := id
  laid h := ⟨h.slotSize, h.used, h.placed⟩
  sound h := ⟨⟨h.laid.slotSize, h.laid.used, h.laid.placed⟩, h.slots⟩

theorem inLoop {labels : LoopLabels} {α : Type} (result : Except Halt α)
    (h : (s.withFrame (s.frame.enterLoop labels)).Extends decls s') :
    s.Extends decls (s'.withFrame (s'.frame.afterBody result)) := by
  obtain ⟨loops, hloops⟩ := s'.frame.exists_afterBody_eq result
  rw [hloops]
  exact ((withLoops s _).trans h).trans (withLoops s' loops)

end Lowering.Extends

namespace Lower

variable {decls : Declarations} {words : Words}

/-- A literal that does not fit leaves the state as it was. -/
theorem outcome_intern_of_error {value : String} {e : CompileError} {s : Lowering}
    (h : s.pool.insert value = .error e) : outcome (intern value) s = (.error (.refused e), s) := by
  unfold intern
  rw [outcome_bind]
  show outcome (ofExcept (s.pool.insert value) >>= _) s = _
  rw [h]
  rfl

/-- So does a variable that cannot be declared. -/
theorem outcome_declare_of_error {name : String} {kind : VarKind} {e : CompileError}
    {s : Lowering} (h : s.frame.declare name kind = .error e) :
    outcome (declare name kind) s = (.error (.refused e), s) := by
  unfold declare
  rw [outcome_bind]
  show outcome (ofExcept (s.frame.declare name kind) >>= _) s = _
  rw [h]
  rfl

theorem outcome_inLoop {α : Type} (labels : LoopLabels) (body : Lower α) (s : Lowering) :
    outcome (inLoop labels body) s =
      let result := outcome body (s.withFrame (s.frame.enterLoop labels))
      (result.1, result.2.withFrame (result.2.frame.afterBody result.1)) := rfl

theorem leads_intern (value : String) : Leads (Lowering.Extends decls) (intern value) := by
  intro s
  cases h : s.pool.insert value with
  | ok result =>
    obtain ⟨index, pool⟩ := result
    obtain ⟨log, hruns⟩ := exists_runs_intern h
    rw [show (outcome (intern value) s).2 = { s with pool, log } from congrArg Prod.snd hruns]
    exact ⟨hruns.intern_grows.1, fun hb => hb.insert h, fun hn => StringPool.nodup_insert hn h,
      rfl, id, id, id⟩
  | error e =>
    rw [outcome_intern_of_error h]
    exact .refl s

theorem leads_declare (name : String) {kind : VarKind} (hk : kind.Sized decls) :
    Leads (Lowering.Extends decls) (declare name kind) := by
  intro s
  cases h : s.frame.declare name kind with
  | ok result =>
    obtain ⟨offset, frame⟩ := result
    have hruns := runs_declare.2 ⟨frame, h, rfl⟩
    rw [show (outcome (declare name kind) s).2 = _ from congrArg Prod.snd hruns]
    obtain ⟨hgrows, hframe, -, -, -⟩ := hruns.declare_grows
    exact ⟨hgrows, id, id, hframe.maxVariables, fun _ => hruns.declare_roomy,
      fun hl => hl.declare hk.pos h, fun hs => hs.declare hk.pos hk.eq h⟩
  | error e =>
    rw [outcome_declare_of_error h]
    exact .refl s

/-- Nothing is popped when nothing is pushed. -/
theorem outcome_pop_of_zero (r : Register) {s : Lowering} (h : s.frame.pending = 0) :
    outcome (pop r) s = (.error .underflow, s) := by
  have hframe : outcome Lower.frame s = (.ok s.frame, s) := rfl
  unfold pop
  rw [outcome_bind, hframe]
  simp only [h]
  rfl

theorem leads_pop (r : Register) : Leads (Lowering.Extends decls) (pop r) := by
  intro s
  rcases Nat.eq_zero_or_pos s.frame.pending with hp | hp
  · rw [outcome_pop_of_zero r hp]
    exact .refl s
  · have hruns := (runs_pop (r := r)).2 ⟨hp, rfl, rfl⟩
    rw [show (outcome (pop r) s).2 = _ from congrArg Prod.snd hruns]
    exact .withPending s _

/-- Every composed action extends the state, also one that stops. -/
theorem Built.leads {α : Type} {m : Lower α} (h : Built decls words m) :
    Leads (Lowering.Extends decls) m := by
  induction h with
  | pure a => exact leads_pure a
  | bind _ _ ihm ihf => exact ihm.bind ihf
  | refuse _ | underflow => exact leads_throw _
  | look _ _ ih => exact (leads_get.bind fun _ => leads_pure _).bind ih
  | freshLabel =>
    exact fun s => ⟨(Lowering.Grows.refl s).skipLabels 1, id, id, rfl, id, id, id⟩
  | @intern value _ => exact leads_intern value
  | @declare name _ _ hk => exact leads_declare name hk
  | push r => exact fun s => .withPending s _
  | pop r => exact leads_pop r
  | inLoop labels _ ih => exact fun s => (ih _).inLoop _

theorem Built.extends_of_runs {α : Type} {m : Lower α} (h : Built decls words m) {s s' : Lowering}
    {a : α} (hr : Runs m s a s') : s.Extends decls s' := by
  have hstate : (outcome m s).2 = s' := congrArg Prod.snd hr
  exact hstate ▸ h.leads s

/-- The loops that are open afterwards are those that were open before, unless it underflows. -/
theorem Built.loops_eq {α : Type} {m : Lower α} (h : Built decls words m) {s : Lowering}
    (hu : (outcome m s).1 ≠ .error .underflow) : (outcome m s).2.frame.loops = s.frame.loops := by
  induction h generalizing s with
  | pure | refuse | freshLabel | push => rfl
  | underflow => exact absurd rfl hu
  | look _ _ ih => exact ih s.frame hu
  | @bind _ _ m _ _ _ ihm ihf =>
    rw [outcome_bind] at hu ⊢
    rcases houtcome : outcome m s with ⟨e | a, s₁⟩
    · have hm : (outcome m s).1 ≠ .error .underflow := by
        rw [houtcome] at hu ⊢
        rintro ⟨⟩
        exact hu rfl
      simpa [houtcome] using ihm hm
    · have hm := ihm (s := s) (by simp [houtcome])
      rw [houtcome] at hu hm
      exact (ihf a hu).trans hm
  | @intern value _ =>
    cases hi : s.pool.insert value with
    | ok result =>
      obtain ⟨log, hruns⟩ := exists_runs_intern hi
      rw [show outcome (Lower.intern value) s = _ from hruns]
    | error e => rw [outcome_intern_of_error hi]
  | @declare name kind _ _ =>
    cases hd : s.frame.declare name kind with
    | ok result =>
      have hruns := runs_declare.2 ⟨_, hd, rfl⟩
      rw [show outcome (Lower.declare name kind) s = _ from hruns]
      exact hruns.declare_grows.2.1.loops
    | error e => rw [outcome_declare_of_error hd]
  | pop r =>
    rcases Nat.eq_zero_or_pos s.frame.pending with hp | hp
    · rw [outcome_pop_of_zero r hp]
    · rw [show outcome (Lower.pop r) s = _ from runs_pop.2 ⟨hp, rfl, rfl⟩]
      rfl
  | @inLoop _ labels body _ ih =>
    rw [outcome_inLoop] at hu ⊢
    have hbody := ih (s := s.withFrame (s.frame.enterLoop labels)) hu
    generalize outcome body (s.withFrame (s.frame.enterLoop labels)) = result at hu hbody ⊢
    obtain ⟨(_ | _) | _, t⟩ := result
    · exact congrArg List.tail hbody
    · exact absurd rfl hu
    · exact congrArg List.tail hbody

/-- Only programs are to blame for what composed actions refuse. -/
theorem Built.ofProgram {α : Type} {m : Lower α} (h : Built decls words m) {s : Lowering}
    {e : CompileError} (he : (outcome m s).1 = .error (.refused e)) : e.OfProgram := by
  induction h generalizing s with
  | pure | freshLabel | push => cases he
  | look _ _ ih => exact ih s.frame he
  | @bind _ _ m _ _ _ ihm ihf =>
    rw [outcome_bind] at he
    rcases houtcome : outcome m s with ⟨_ | a, s₁⟩
    · rw [houtcome] at he
      cases he
      exact ihm (congrArg Prod.fst houtcome)
    · rw [houtcome] at he
      exact ihf a he
  | refuse hp =>
    cases he
    exact hp.1
  | underflow => cases he
  | @intern value _ =>
    cases hi : s.pool.insert value with
    | ok result =>
      obtain ⟨log, hruns⟩ := exists_runs_intern hi
      rw [show outcome (Lower.intern value) s = _ from hruns] at he
      cases he
    | error e' =>
      rw [outcome_intern_of_error hi] at he
      cases he
      obtain ⟨-, rfl⟩ := StringPool.insert_eq_error hi
      rintro _ ⟨⟩
  | @declare name kind _ _ =>
    cases hd : s.frame.declare name kind with
    | ok result =>
      rw [show outcome (Lower.declare name kind) s = _ from runs_declare.2 ⟨_, hd, rfl⟩] at he
      cases he
    | error e' =>
      rw [outcome_declare_of_error hd] at he
      cases he
      rcases Frame.declare_eq_error.1 hd with ⟨-, rfl⟩ | ⟨-, -, rfl⟩ <;> rintro _ ⟨⟩
  | pop r =>
    rcases Nat.eq_zero_or_pos s.frame.pending with hp | hp
    · rw [outcome_pop_of_zero r hp] at he
      cases he
    · rw [show outcome (Lower.pop r) s = _ from runs_pop.2 ⟨hp, rfl, rfl⟩] at he
      cases he
  | inLoop labels _ ih => exact ih he

end Lower

/-- The state with another log. -/
def Lowering.withLog (s : Lowering) (log : List Event) : Lowering := { s with log }

namespace Lower

variable {decls : Declarations} {words : Words}

/-- Composed actions do not look at the log. -/
theorem Built.outcome_log {α : Type} {m : Lower α} (h : Built decls words m) (s : Lowering)
    (log : List Event) :
    ∃ log', outcome m (s.withLog log) = ((outcome m s).1, (outcome m s).2.withLog log') := by
  induction h generalizing s log with
  | pure | refuse | underflow | freshLabel | push => exact ⟨log, rfl⟩
  | look _ _ ih => exact ih s.frame s log
  | @bind _ _ m f _ _ ihm ihf =>
    obtain ⟨log₁, hm⟩ := ihm s log
    rw [outcome_bind, outcome_bind, hm]
    rcases outcome m s with ⟨_ | a, s₁⟩
    · exact ⟨log₁, rfl⟩
    · exact ihf a s₁ log₁
  | @intern value _ =>
    cases hi : s.pool.insert value with
    | ok result =>
      obtain ⟨log₁, hruns⟩ := exists_runs_intern hi
      obtain ⟨log', hruns'⟩ := exists_runs_intern (s := s.withLog log) hi
      rw [show outcome (Lower.intern value) s = _ from hruns,
        show outcome (Lower.intern value) (s.withLog log) = _ from hruns']
      exact ⟨log', rfl⟩
    | error e =>
      rw [outcome_intern_of_error hi, outcome_intern_of_error (s := s.withLog log) hi]
      exact ⟨log, rfl⟩
  | @declare name kind _ _ =>
    cases hd : s.frame.declare name kind with
    | ok result =>
      rw [show outcome (Lower.declare name kind) s = _ from runs_declare.2 ⟨_, hd, rfl⟩,
        show outcome (Lower.declare name kind) (s.withLog log) = _ from
          runs_declare.2 ⟨_, hd, rfl⟩]
      exact ⟨_, rfl⟩
    | error e =>
      rw [outcome_declare_of_error hd, outcome_declare_of_error (s := s.withLog log) hd]
      exact ⟨log, rfl⟩
  | pop r =>
    rcases Nat.eq_zero_or_pos s.frame.pending with hp | hp
    · rw [outcome_pop_of_zero r hp, outcome_pop_of_zero r (s := s.withLog log) hp]
      exact ⟨log, rfl⟩
    · rw [show outcome (Lower.pop r) s = _ from runs_pop.2 ⟨hp, rfl, rfl⟩,
        show outcome (Lower.pop r) (s.withLog log) = _ from runs_pop.2 ⟨hp, rfl, rfl⟩]
      exact ⟨log, rfl⟩
  | inLoop labels _ ih =>
    obtain ⟨log', hbody⟩ := ih (s.withFrame (s.frame.enterLoop labels)) log
    have hcomm : (s.withLog log).withFrame ((s.withLog log).frame.enterLoop labels) =
        (s.withFrame (s.frame.enterLoop labels)).withLog log := rfl
    rw [outcome_inLoop, outcome_inLoop, hcomm, hbody]
    exact ⟨log', rfl⟩

end Lower

/-! ## Functions -/

namespace FunctionDecl

variable (limits : Limits) (decls : Declarations) (f : FunctionDecl)

/-- What is left of lowering a function once its frame was begun. -/
def fill (exitLabel : Nat) : Lower Routine := do
  let params ← Lower.storeParams (f.params.zip Register.args)
  let body ← Stmt.lowerBlock decls f.body
  return f.routine (← Lower.frame).size exitLabel params body

theorem built_storeParams (words : Lower.Words) (h : f.locals ⊆ words.locals) :
    Lower.Built decls words (Lower.storeParams (f.params.zip Register.args)) :=
  Lower.built_storeParams fun param hm => (List.append_subset.1 h).1
    (List.mem_map.2 ⟨param.1, (List.of_mem_zip hm).1, rfl⟩)

theorem built_fill_within (words : Lower.Words) (exitLabel : Nat) (hn : f.locals ⊆ words.locals)
    (h : Stmt.blockLiterals f.body ⊆ words.literals) :
    Lower.Built decls words (f.fill decls exitLabel) :=
  .bind (f.built_storeParams decls words hn) fun _ =>
    .bind (Stmt.built_lowerBlock_within decls words f.body (List.append_subset.1 hn).2 h) fun _ =>
    .look (fun _ _ => rfl) fun _ => .pure _

theorem built_fill (exitLabel : Nat) :
    Lower.Built decls ⟨f.locals, Stmt.blockLiterals f.body⟩ (f.fill decls exitLabel) :=
  f.built_fill_within decls _ exitLabel (List.Subset.refl _) (List.Subset.refl _)

/-- A function with too many parameters is refused before its frame is begun. -/
theorem outcome_lower (s : Lowering) :
    outcome (f.lower limits decls) s =
      if Register.args.length < f.params.length then
        (.error (.refused (.tooManyArguments f.name Register.args.length f.params.length)),
          s.logged (.generating f.name))
      else outcome (f.fill decls s.nextLabel) (f.enter limits s) := by
  unfold FunctionDecl.lower
  rw [outcome_bind]
  show outcome (Lower.ofExcept (Declarations.checkArgCount f.name f.params.length) >>= _) _ = _
  unfold Declarations.checkArgCount
  split
  · rfl
  · rfl

end FunctionDecl

end WordLang
