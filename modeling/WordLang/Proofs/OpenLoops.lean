import WordLang.Proofs.RecordAccess

/-!
# Loops between requests

A loop is closed when its body has ended or was refused. An underflow leaves at once, and then the
loops around it are still open when the next request comes. So no loop is open between requests as
long as each of them was answered, and in any case once a function was generated. Everything else
that the next request relies on is there after an underflow too.
-/
namespace WordLang

open Asm

/-! ## What a request does to open loops -/

namespace Generator

/-- Open loops stay as they are, or all of them are closed. -/
def ClosesLoops (g g' : Generator) : Prop :=
  g'.lowering.frame.loops = g.lowering.frame.loops ∨ g'.lowering.frame.loops = []

instance : IsPreorder Generator ClosesLoops where
  refl _ := .inl rfl
  trans _ _ _ h h' := by
    rcases h' with h' | h'
    · rw [ClosesLoops, h']
      exact h
    · exact .inr h'

end Generator

namespace FunctionDecl

variable (limits : Limits) (decls : Declarations) (f : FunctionDecl)

/-- A function's records are as their types say, whatever the frame before was like. -/
theorem not_underflow_lower (s : Lowering) :
    (outcome (f.lower limits decls) s).1 ≠ .error .underflow := by
  intro h
  let g : Generator := { limits, declarations := decls, lowering := s, sink := {} }
  obtain ⟨t, ht⟩ := stops_iff.2 h
  have hstops : Stops (Generate.function f) g .underflow { g with lowering := t } :=
    Generate.stops_function.2 (.inl ⟨t, ht, rfl⟩)
  obtain ⟨a, ha, hu, -⟩ := exists_underflows hstops
  have hsound := ha.sound_function
  exact FieldAccess.not_outgrown hsound
    ((FieldAccess.strays_iff_outgrown hsound.laid).1 (.inl hu))

/-- A function that is refused before its frame begins leaves the loops as they were, and any other
closes all of them. -/
theorem loops_lower (s : Lowering) :
    (outcome (f.lower limits decls) s).2.frame.loops = [] ∨
      (outcome (f.lower limits decls) s).2.frame.loops = s.frame.loops ∧
        ∃ h, (outcome (f.lower limits decls) s).1 = .error h := by
  have hu := f.not_underflow_lower limits decls s
  rw [f.outcome_lower] at hu ⊢
  split_ifs at hu ⊢
  · exact .inr ⟨rfl, _, rfl⟩
  · exact .inl ((f.built_fill decls s.nextLabel).loops_eq hu)

end FunctionDecl

namespace Generate

open Generator

theorem closesLoops_write (text : String) : Leads ClosesLoops (write text) := by
  intro g
  rw [outcome_write]
  exact .inl rfl

theorem closesLoops_note (e : Event) : Leads ClosesLoops (ofLower (Lower.note e)) := by
  intro g
  rw [outcome_ofLower]
  exact .inl rfl

theorem closesLoops_record (declarations : Declarations) (known : Bool) (e : CompileError) :
    Leads ClosesLoops (record declarations known e) := by
  intro g
  rw [outcome_record]
  exact .inl rfl

theorem closesLoops_function (f : FunctionDecl) : Leads ClosesLoops (Generate.function f) :=
  leads_function_of
    (fun g => ((f.loops_lower g.limits g.declarations g.lowering).imp_right And.left).symm)
    closesLoops_write closesLoops_note

theorem closesLoops_program (p : Program) : Leads ClosesLoops (program p) :=
  leads_program_of (fun _ _ => leads_get.bind fun _ => closesLoops_record _ _ _)
    (fun _ _ => leads_get.bind fun _ => closesLoops_record _ _ _) (closesLoops_write _)
    (fun f _ => closesLoops_function f) (fun _ _ => closesLoops_write _) (closesLoops_write _)
    closesLoops_note

/-- A function that is generated has closed all its loops. -/
theorem loops_of_runs_function {f : FunctionDecl} {g g' : Generator}
    (h : Runs (Generate.function f) g () g') : g'.lowering.frame.loops = [] := by
  obtain ⟨r, t, ht, hframe, -⟩ := exists_of_runs_function h
  rw [hframe]
  have hloops := f.loops_lower g.limits g.declarations g.lowering
  rw [show outcome (f.lower g.limits g.declarations) g.lowering = (.ok r, t) from ht] at hloops
  rcases hloops with hclosed | ⟨-, _, herror⟩
  · exact hclosed
  · cases herror

end Generate

/-- A request that is answered has closed the loops that it began. -/
theorem Request.closesLoops {request : Request} {g : Generator}
    (hu : (outcome request.action g).1 ≠ .error .underflow) :
    g.ClosesLoops (outcome request.action g).2 := by
  cases request with
  | program p => exact Generate.closesLoops_program p g
  | function f => exact Generate.closesLoops_function f g
  | stmt s =>
    rw [show outcome (Request.stmt s).action g = _ from Generate.outcome_stmt s g] at hu ⊢
    refine .inl ((s.built_lower g.declarations).loops_eq fun h => hu ?_)
    rw [h]
    rfl
  | expr e =>
    rw [show outcome (Request.expr e).action g = _ from Generate.outcome_expr e g] at hu ⊢
    refine .inl ((e.built_lower g.declarations).loops_eq fun h => hu ?_)
    rw [h]
    rfl

/-! ## Any requests -/

namespace Generator

/-- Each of the requests, made one after another, succeeds or is refused. -/
def Answers (g : Generator) : List Request → Prop
  | [] => True
  | request :: requests =>
    (outcome request.action g).1 ≠ .error .underflow ∧
      (outcome request.action g).2.Answers requests

instance decidableAnswers : (g : Generator) → (requests : List Request) →
    Decidable (g.Answers requests)
  | _, [] => isTrue trivial
  | _, _ :: requests => @instDecidableAnd _ _ inferInstance (decidableAnswers _ requests)

theorem closesLoops_after {requests : List Request} {g : Generator} (h : g.Answers requests) :
    g.ClosesLoops (g.after requests) := by
  induction requests generalizing g with
  | nil => exact refl_of ClosesLoops g
  | cons request requests ih => exact trans_of ClosesLoops (request.closesLoops h.1) (ih h.2)

/-- No loop is open, and so none can be left or begun again. -/
structure Unlooped (g : Generator) : Prop where
  loops_eq : g.lowering.frame.loops = []
  leave_refused : (outcome (Generate.stmt .leave) g).1 =
    .error (.refused (.breakOutsideLoop g.lowering.frame.function))
  again_refused : (outcome (Generate.stmt .again) g).1 =
    .error (.refused (.continueOutsideLoop g.lowering.frame.function))

/-- What requests can do to a generator. -/
structure Steady (limits : Limits) (g : Generator) : Prop where
  /-- A literal keeps its number. -/
  literal_kept : ∀ more index value, g.lowering.pool.get? index = some value →
    (g.after more).lowering.pool.get? index = some value
  nextLabel_le : ∀ more, g.lowering.nextLabel ≤ (g.after more).lowering.nextLabel
  /-- Statements and expressions are not written. -/
  stmt_unwritten : ∀ s, (outcome (Generate.stmt s) g).2.sink = g.sink
  expr_unwritten : ∀ e, (outcome (Generate.expr e) g).2.sink = g.sink
  /-- What is written of a function depends on the declarations, the pool and the next label. -/
  function_written : ∀ f, (outcome (Generate.function f) g).1 = .ok () →
    ∃ text, f.textFrom limits g.declarations g.lowering.pool g.lowering.nextLabel = .ok text ∧
      (outcome (Generate.function f) g).2.sink.stored = g.sink.stored ++ utf8 text
  /-- Requests that are answered leave no further loop open. -/
  loops_kept : ∀ more, g.Answers more → g.ClosesLoops (g.after more)
  /-- A function that is generated closes also the loops that it found open. -/
  function_unlooped : ∀ f, (outcome (Generate.function f) g).1 = .ok () →
    (outcome (Generate.function f) g).2.Unlooped
  /-- An underflow is that of a field access, and leaves all as the access found it. -/
  underflow_left : ∀ request g', Stops request.action g .underflow g' →
    ∃ a : FieldAccess, a.OfRequest request g ∧ a.Underflows ∧ a.state = g'.lowering

/-- Where no loop is open, none is left and none is begun again. -/
theorem unlooped_of_loops {g : Generator} (h : g.lowering.frame.loops = []) : g.Unlooped := by
  have hnone : g.lowering.frame.innermostLoop? = none := by simp [Frame.innermostLoop?, h]
  have hframe : outcome Lower.frame g.lowering = (.ok g.lowering.frame, g.lowering) := rfl
  refine ⟨h, ?_, ?_⟩ <;>
  · rw [Generate.outcome_stmt]
    unfold Stmt.lower
    rw [outcome_bind, hframe]
    simp only [hnone]
    rfl

theorem Orderly.steady {g : Generator} (h : g.Orderly) : g.Steady g.limits where
  literal_kept more index value hv := by
    obtain ⟨added, hadded⟩ := (g.evolves_after more).grows.entries
    have hlt : index < g.lowering.pool.entries.length := (List.getElem?_eq_some_iff.1 hv).1
    show (g.after more).lowering.pool.entries[index]? = some value
    rw [← hadded, List.getElem?_append_left hlt]
    exact hv
  nextLabel_le more := (g.evolves_after more).grows.nextLabel
  stmt_unwritten s := by rw [Generate.outcome_stmt]
  expr_unwritten e := by rw [Generate.outcome_expr]
  function_written _ := Generate.exists_text_of_function
  loops_kept _ := closesLoops_after
  function_unlooped _ hf := unlooped_of_loops (Generate.loops_of_runs_function (Prod.ext hf rfl))
  underflow_left request _ := request.exists_underflows h.laid

end Generator

end WordLang
