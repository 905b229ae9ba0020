import WordLang.Proofs.History

/-!
# A generator between requests

Requests may fail at any place of a tree, and leave variables, labels and literals behind. Still the
next request finds a generator in order: variables and literals are within their limits, and the
variables fill the frame without overlap. What is left of the frame does not show in the functions
that are generated later.
-/
namespace WordLang

open Asm

/-! ## Lowering of a function -/

/-- A state in which nothing was lowered yet. -/
def Lowering.bare (pool : StringPool) (nextLabel : Nat) : Lowering where
  pool
  nextLabel
  frame := { function := "", maxVariables := 0, exitLabel := 0 }

namespace FunctionDecl

variable (limits : Limits) (decls : Declarations) (f : FunctionDecl)

/-- A function begins a frame of its own, unless it has too many parameters. -/
theorem state_lower (s : Lowering) :
    (outcome (f.lower limits decls) s).2 = s.logged (.generating f.name) ∨
      (f.enter limits s).Extends decls (outcome (f.lower limits decls) s).2 := by
  rw [f.outcome_lower limits decls s]
  split
  · exact .inl rfl
  · exact .inr ((f.built_fill decls _).leads _)

/-- The text of a function that is lowered with this pool and this next label. -/
def textFrom (pool : StringPool) (nextLabel : Nat) : Except Halt String :=
  (outcome (f.lower limits decls) (.bare pool nextLabel)).1.map Routine.text

/-- Neither the frame that was there before nor the log shows in a lowered function. -/
theorem map_text_lower (s : Lowering) :
    (outcome (f.lower limits decls) s).1.map Routine.text =
      f.textFrom limits decls s.pool s.nextLabel := by
  let bare := Lowering.bare s.pool s.nextLabel
  have henter : f.enter limits s =
      (f.enter limits bare).withLog (.generating f.name :: s.log) := rfl
  obtain ⟨log, hlog⟩ := (f.built_fill decls s.nextLabel).outcome_log (f.enter limits bare)
    (.generating f.name :: s.log)
  unfold textFrom
  rw [f.outcome_lower, f.outcome_lower, henter, hlog]
  split <;> rfl

end FunctionDecl

/-! ## What a request does -/

namespace Generator

/-- Limits are kept, and the variables are laid out in the frame. -/
structure Orderly (g : Generator) : Prop where
  maxVariables : g.lowering.frame.maxVariables = g.limits.maxVariables
  capacity : g.lowering.pool.capacity = g.limits.maxStrings
  roomy : g.lowering.frame.Roomy
  laid : g.lowering.frame.Laid
  bounded : g.lowering.pool.Bounded
  nodup : g.lowering.pool.entries.Nodup

/-- Labels and literals are only added, and order is kept. -/
structure Evolves (g g' : Generator) : Prop where
  limits : g'.limits = g.limits
  grows : g.lowering.Grows g'.lowering
  orderly : g.Orderly → g'.Orderly

instance : IsPreorder Generator Evolves where
  refl _ := ⟨rfl, .refl _, id⟩
  trans _ _ _ h h' :=
    ⟨h'.limits.trans h.limits, h.grows.trans h'.grows, h'.orderly ∘ h.orderly⟩

/-- Sinks and declarations may change freely. -/
theorem Evolves.of_lowering {g g' : Generator} (hl : g'.limits = g.limits)
    (hs : g'.lowering = g.lowering) : g.Evolves g' where
  limits := hl
  grows := hs ▸ .refl _
  orderly h := by
    obtain ⟨_, _, _, _⟩ := g
    obtain ⟨_, _, _, _⟩ := g'
    subst hl hs
    exact ⟨h.maxVariables, h.capacity, h.roomy, h.laid, h.bounded, h.nodup⟩

theorem Evolves.of_extends {g : Generator} {decls : Declarations} {s : Lowering}
    (h : g.lowering.Extends decls s) : g.Evolves { g with lowering := s } where
  limits := rfl
  grows := h.grows
  orderly hg := {
    maxVariables := h.maxVariables.trans hg.maxVariables
    capacity := h.grows.capacity.trans hg.capacity
    roomy := h.roomy hg.roomy
    laid := h.laid hg.laid
    bounded := h.bounded hg.bounded
    nodup := h.nodup hg.nodup }

/-- A function's frame begins in order, whatever the frame before was like. -/
theorem Evolves.of_enter {g : Generator} {decls : Declarations} {f : FunctionDecl} {s : Lowering}
    (h : (f.enter g.limits g.lowering).Extends decls s) : g.Evolves { g with lowering := s } where
  limits := rfl
  grows :=
    have henter : g.lowering.Grows (f.enter g.limits g.lowering) :=
      ⟨rfl, List.prefix_rfl, Nat.le_succ _⟩
    henter.trans h.grows
  orderly hg := {
    maxVariables := h.maxVariables
    capacity := h.grows.capacity.trans hg.capacity
    roomy := h.roomy (Nat.zero_le _)
    laid := h.laid ⟨rfl, rfl, .nil⟩
    bounded := h.bounded hg.bounded
    nodup := h.nodup hg.nodup }

end Generator

namespace Generate

open Generator

theorem evolves_write (text : String) : Leads Evolves (write text) := by
  intro g
  rw [outcome_write]
  exact .of_lowering rfl rfl

theorem evolves_note (e : Event) : Leads Evolves (ofLower (Lower.note e)) := by
  intro g
  rw [outcome_ofLower]
  exact ⟨rfl, ⟨rfl, List.prefix_rfl, Nat.le_refl _⟩, fun h =>
    ⟨h.maxVariables, h.capacity, h.roomy, h.laid, h.bounded, h.nodup⟩⟩

theorem evolves_ofLower {decls : Declarations} {words : Lower.Words} {α : Type} {m : Lower α}
    (h : Lower.Built decls words m) : Leads Evolves (ofLower m) := by
  intro g
  rw [outcome_ofLower]
  exact .of_extends (h.leads _)

theorem evolves_record (declarations : Declarations) (known : Bool) (e : CompileError) :
    Leads Evolves (record declarations known e) := by
  intro g
  rw [outcome_record]
  exact .of_lowering rfl rfl

theorem evolves_function (f : FunctionDecl) : Leads Evolves (Generate.function f) := by
  refine leads_function_of (fun g => ?_) evolves_write evolves_note
  rcases f.state_lower g.limits g.declarations g.lowering with hs | hs
  · rw [hs]
    have hnote := evolves_note (.generating f.name) g
    rwa [outcome_ofLower] at hnote
  · exact .of_enter hs

theorem evolves_program (p : Program) : Leads Evolves (program p) :=
  leads_program_of (fun _ _ => leads_get.bind fun _ => evolves_record _ _ _)
    (fun _ _ => leads_get.bind fun _ => evolves_record _ _ _) (evolves_write _)
    (fun f _ => evolves_function f) (fun _ _ => evolves_write _) (evolves_write _) evolves_note

/-- A sink that takes a text has stored all of it. -/
theorem of_runs_write {text : String} {g g' : Generator} {u : Unit}
    (h : Runs (write text) g u g') :
    g'.lowering = g.lowering ∧ g'.sink.stored = g.sink.stored ++ utf8 text := by
  unfold Runs at h
  rw [outcome_write, Prod.mk.injEq] at h
  obtain ⟨hresult, rfl⟩ := h
  refine ⟨rfl, ?_⟩
  unfold Sink.write at hresult ⊢
  split
  · rfl
  · next capacity hc =>
    simp only [hc] at hresult
    split at hresult
    · next hle => simp [List.take_of_length_le hle]
    · cases hresult

/-- A function that is generated is lowered and written as a whole. -/
theorem exists_of_runs_function {f : FunctionDecl} {g g' : Generator}
    (h : Runs (Generate.function f) g () g') :
    ∃ r t, Runs (f.lower g.limits g.declarations) g.lowering r t ∧
      g'.lowering.frame = t.frame ∧ g'.sink.stored = g.sink.stored ++ utf8 r.text := by
  unfold Runs at h
  rw [outcome_function] at h
  obtain ⟨r, _, hr, h⟩ := runs_bind.1 h
  obtain ⟨t, ht, rfl⟩ := runs_ofLower.1 hr
  obtain ⟨_, g₂, hw, h⟩ := runs_bind.1 h
  simp only [runs_bind, runs_get, runs_ofLower, Lower.runs_note] at h
  obtain ⟨_, _, ⟨rfl, rfl⟩, _, rfl, rfl⟩ := h
  obtain ⟨hlowering, hstored⟩ := of_runs_write hw
  have hframe := congrArg Lowering.frame hlowering
  exact ⟨r, t, ht, hframe, hstored⟩

/-- What is written of a function that is generated depends on nothing else in the generator. -/
theorem exists_text_of_function {f : FunctionDecl} {g : Generator}
    (h : (outcome (Generate.function f) g).1 = .ok ()) :
    ∃ text, f.textFrom g.limits g.declarations g.lowering.pool g.lowering.nextLabel = .ok text ∧
      (outcome (Generate.function f) g).2.sink.stored = g.sink.stored ++ utf8 text := by
  obtain ⟨r, t, ht, -, hstored⟩ := exists_of_runs_function (Prod.ext h rfl)
  refine ⟨r.text, ?_, hstored⟩
  rw [← f.map_text_lower, show outcome _ _ = _ from ht]
  rfl

end Generate

theorem Request.evolves (request : Request) : Leads Generator.Evolves request.action := by
  cases request with
  | program p => exact Generate.evolves_program p
  | function f => exact Generate.evolves_function f
  | stmt s =>
    exact leads_get.bind fun g => (Generate.evolves_ofLower (s.built_lower g.declarations)).bind
      fun _ => leads_pure _
  | expr e =>
    exact leads_get.bind fun g => (Generate.evolves_ofLower (e.built_lower g.declarations)).bind
      fun _ => leads_pure _

/-! ## Any requests -/

namespace Generator

theorem evolves_after (g : Generator) (requests : List Request) : g.Evolves (g.after requests) := by
  induction requests generalizing g with
  | nil => exact refl_of Evolves g
  | cons request requests ih => exact trans_of Evolves (request.evolves g) (ih _)

theorem orderly_new (limits : Limits) (sink : Sink) : (Generator.new limits sink).Orderly where
  maxVariables := rfl
  capacity := rfl
  roomy := Nat.zero_le _
  laid := ⟨rfl, rfl, .nil⟩
  bounded := Nat.zero_le _
  nodup := List.nodup_nil

theorem orderly_after (limits : Limits) (sink : Sink) (requests : List Request) :
    ((Generator.new limits sink).after requests).Orderly :=
  (evolves_after _ requests).orderly (orderly_new limits sink)

end Generator

end WordLang
