import WordLang.Proofs.Acceptance
import WordLang.Proofs.Truncation

/-!
# Limits

The limits on variables and literals decide only whether a program is refused. A program that is not
refused for one of them gives the same bytes, or fails for the same reason, under all larger limits.
Limits that leave room for the distinct names of each function and for the distinct literals of the
program are never exceeded.
-/
namespace WordLang

open Asm

section Actions

variable {σ α β : Type}

/-- The result is not that a limit is exceeded. -/
def WithinLimits (result : Except Halt α) : Prop :=
  ∀ e, result = .error (.refused e) → ¬ e.IsLimit

theorem withinLimits_ok (a : α) : WithinLimits (.ok a) := by rintro _ ⟨⟩

/-! ## The same action under larger limits -/

/-- Unless `m` stops at a limit, `m'` does from the state with raised limits what `m` does. -/
def Raises (raise : σ → σ) (below : σ → Prop) (m m' : ExceptT Halt (StateM σ) α) : Prop :=
  ∀ s, below s → WithinLimits (outcome m s).1 →
    below (outcome m s).2 ∧ outcome m' (raise s) = ((outcome m s).1, raise (outcome m s).2)

variable {raise : σ → σ} {below : σ → Prop}

theorem raises_pure (a : α) :
    Raises raise below (pure a : ExceptT Halt (StateM σ) α) (pure a) :=
  fun _ hs _ => ⟨hs, rfl⟩

theorem raises_throw (e : Halt) :
    Raises raise below (throw e : ExceptT Halt (StateM σ) α) (throw e) :=
  fun _ hs _ => ⟨hs, rfl⟩

theorem Raises.bind {m m' : ExceptT Halt (StateM σ) α} {f f' : α → ExceptT Halt (StateM σ) β}
    (hm : Raises raise below m m') (hf : ∀ a, Raises raise below (f a) (f' a)) :
    Raises raise below (m >>= f) (m' >>= f') := by
  intro s hs hw
  rw [outcome_bind] at hw
  rw [outcome_bind, outcome_bind]
  have hfirst := hm s hs
  rcases houtcome : outcome m s with ⟨e | a, s₁⟩ <;> rw [houtcome] at hfirst hw
  · obtain ⟨hs₁, hm'⟩ := hfirst fun e' he => hw e' (by cases he; rfl)
    rw [hm']
    exact ⟨hs₁, rfl⟩
  · obtain ⟨hs₁, hm'⟩ := hfirst (withinLimits_ok a)
    rw [hm']
    exact hf a s₁ hs₁ hw

theorem raises_forM {f : α → ExceptT Halt (StateM σ) Unit} {xs : List α}
    (h : ∀ x ∈ xs, Raises raise below (f x) (f x)) :
    Raises raise below (xs.forM f) (xs.forM f) := by
  induction xs with
  | nil => exact raises_pure ()
  | cons x xs ih =>
    rw [List.forall_mem_cons] at h
    exact h.1.bind fun _ => ih h.2

theorem raises_get_bind {f f' : σ → ExceptT Halt (StateM σ) α}
    (h : ∀ s, below s → Raises raise below (f s) (f' (raise s))) :
    Raises raise below (get >>= f) (get >>= f') := by
  intro s hs hw
  rw [outcome_bind] at hw
  rw [outcome_bind, outcome_bind]
  exact h s hs s hs hw

/-! ## Actions that stop at no limit -/

/-- From a state with `inv` the action does not stop at a limit, and it keeps `inv`. -/
def StaysWithin (inv : σ → Prop) (m : ExceptT Halt (StateM σ) α) : Prop :=
  ∀ s, inv s → WithinLimits (outcome m s).1 ∧ inv (outcome m s).2

variable {inv : σ → Prop}

theorem staysWithin_pure (a : α) : StaysWithin inv (pure a : ExceptT Halt (StateM σ) α) :=
  fun _ hs => ⟨withinLimits_ok a, hs⟩

theorem StaysWithin.bind {m : ExceptT Halt (StateM σ) α} {f : α → ExceptT Halt (StateM σ) β}
    (hm : StaysWithin inv m) (hf : ∀ a, StaysWithin inv (f a)) : StaysWithin inv (m >>= f) := by
  intro s hs
  rw [outcome_bind]
  have hfirst := hm s hs
  rcases houtcome : outcome m s with ⟨e | a, s₁⟩ <;> rw [houtcome] at hfirst
  · exact ⟨fun e' he => hfirst.1 e' (by cases he; rfl), hfirst.2⟩
  · exact hf a s₁ hfirst.2

theorem staysWithin_forM {f : α → ExceptT Halt (StateM σ) Unit} {xs : List α}
    (h : ∀ x ∈ xs, StaysWithin inv (f x)) : StaysWithin inv (xs.forM f) := by
  induction xs with
  | nil => exact staysWithin_pure ()
  | cons x xs ih =>
    rw [List.forall_mem_cons] at h
    exact h.1.bind fun _ => ih h.2

theorem staysWithin_get_bind {f : σ → ExceptT Halt (StateM σ) α}
    (h : ∀ s, inv s → StaysWithin inv (f s)) : StaysWithin inv (get >>= f) := by
  intro s hs
  rw [outcome_bind]
  exact h s hs s hs

end Actions

/-! ## Pools and frames -/

namespace StringPool

def raised (capacity : Nat) (pool : StringPool) : StringPool := { pool with capacity }

/-- A literal that fits has the same number in a larger pool. -/
theorem insert_raised {pool pool' : StringPool} {value : String} {index capacity : Nat}
    (h : pool.insert value = .ok (index, pool')) (hle : pool.capacity ≤ capacity) :
    (pool.raised capacity).insert value = .ok (index, pool'.raised capacity) := by
  rcases insert_eq_ok.1 h with ⟨hi, rfl⟩ | ⟨hn, hlt, hi, rfl⟩
  · exact insert_eq_ok.2 (.inl ⟨hi, rfl⟩)
  · exact insert_eq_ok.2 (.inr ⟨hn, Nat.lt_of_lt_of_le hlt hle, hi, rfl⟩)

theorem isLimit_of_insert {pool : StringPool} {value : String} {e : CompileError}
    (h : pool.insert value = .error e) : e.IsLimit := by
  obtain ⟨-, rfl⟩ := insert_eq_error h
  trivial

end StringPool

namespace Frame

def raised (maxVariables : Nat) (frame : Frame) : Frame := { frame with maxVariables }

theorem declare_raised {frame frame' : Frame} {name : String} {kind : VarKind} {offset n : Nat}
    (h : frame.declare name kind = .ok (offset, frame')) (hle : frame.maxVariables ≤ n) :
    (frame.raised n).declare name kind = .ok (offset, frame'.raised n) := by
  obtain ⟨hn, hlt, hoffset, rfl⟩ := declare_eq_ok.1 h
  exact declare_eq_ok.2 ⟨hn, Nat.lt_of_lt_of_le hlt hle, hoffset, rfl⟩

/-- The frame holds variables with names of `locals` only, and has room for all of these. -/
structure Within (locals : Scope) (frame : Frame) : Prop where
  nodup : (frame.vars.map Prod.fst).Nodup
  subset : frame.vars.map Prod.fst ⊆ locals.map Prod.fst
  card_le : (locals.map Prod.fst).toFinset.card ≤ frame.maxVariables

namespace Within

variable {locals : Scope} {frame frame' : Frame} {name : String} {kind : VarKind}

theorem length_lt (h : frame.Within locals) (hn : name ∉ frame.vars.map Prod.fst)
    (hm : name ∈ locals.map Prod.fst) : frame.vars.length < frame.maxVariables := by
  have hnodup : (name :: frame.vars.map Prod.fst).Nodup := List.nodup_cons.2 ⟨hn, h.nodup⟩
  have hsubset : (name :: frame.vars.map Prod.fst).toFinset ⊆ (locals.map Prod.fst).toFinset := by
    intro x hx
    rcases List.mem_cons.1 (List.mem_toFinset.1 hx) with rfl | hx
    · exact List.mem_toFinset.2 hm
    · exact List.mem_toFinset.2 (h.subset hx)
  have hcard := Finset.card_le_card hsubset
  rw [List.toFinset_card_of_nodup hnodup, List.length_cons, List.length_map] at hcard
  exact Nat.lt_of_lt_of_le hcard h.card_le

theorem declare {offset : Nat} (h : frame.Within locals)
    (hd : frame.declare name kind = .ok (offset, frame')) (hm : name ∈ locals.map Prod.fst) :
    frame'.Within locals := by
  obtain ⟨hn, -, -, rfl⟩ := declare_eq_ok.1 hd
  refine ⟨?_, ?_, h.card_le⟩
  · simpa using h.nodup.concat (Table.find?_eq_none_iff.1 hn)
  · rw [List.map_append]
    exact List.append_subset.2 ⟨h.subset, by simpa using hm⟩

/-- A variable with one of the names is refused only if its name is taken. -/
theorem not_isLimit_of_declare {e : CompileError} (h : frame.Within locals)
    (hd : frame.declare name kind = .error e) (hm : name ∈ locals.map Prod.fst) :
    ¬ e.IsLimit := by
  rcases declare_eq_error.1 hd with ⟨_, rfl⟩ | ⟨hn, hle, _⟩
  · exact id
  · exact absurd (h.length_lt hn hm) (Nat.not_lt.2 hle)

end Within

end Frame

/-! ## Lowering -/

namespace Lowering

/-- The state with other limits. -/
def raised (limits : Limits) (s : Lowering) : Lowering :=
  { s with pool := s.pool.raised limits.maxStrings, frame := s.frame.raised limits.maxVariables }

structure Below (limits : Limits) (s : Lowering) : Prop where
  maxStrings : s.pool.capacity ≤ limits.maxStrings
  maxVariables : s.frame.maxVariables ≤ limits.maxVariables

/-- Only `words` were declared and taken in, and there is room for all of them. -/
structure Within (words : Lower.Words) (s : Lowering) : Prop where
  pool : s.pool.Within words.literals
  frame : s.frame.Within words.locals

end Lowering

namespace Lower

variable {limits : Limits} {decls : Declarations} {words : Words}

theorem raises_intern (value : String) :
    Raises (·.raised limits) (·.Below limits) (intern value) (intern value) := by
  intro s hs hw
  cases hi : s.pool.insert value with
  | ok result =>
    obtain ⟨index, pool⟩ := result
    have hraised := runs_intern_of_insert (s := s.raised limits)
      (StringPool.insert_raised hi hs.maxStrings)
    rw [show outcome (intern value) s = _ from runs_intern_of_insert hi]
    refine ⟨⟨?_, hs.maxVariables⟩, hraised⟩
    rcases StringPool.insert_eq_ok.1 hi with ⟨-, rfl⟩ | ⟨-, -, -, rfl⟩ <;> exact hs.maxStrings
  | error e =>
    rw [outcome_intern_of_error hi] at hw
    exact absurd (StringPool.isLimit_of_insert hi) (hw e rfl)

theorem raises_declare (name : String) (kind : VarKind) :
    Raises (·.raised limits) (·.Below limits) (declare name kind) (declare name kind) := by
  intro s hs hw
  cases hd : s.frame.declare name kind with
  | ok result =>
    obtain ⟨offset, frame⟩ := result
    have hraised : Runs (declare name kind) (s.raised limits) _ _ :=
      runs_declare.2 ⟨_, Frame.declare_raised hd hs.maxVariables, rfl⟩
    rw [show outcome (declare name kind) s = _ from runs_declare.2 ⟨_, hd, rfl⟩]
    refine ⟨⟨hs.maxStrings, ?_⟩, hraised⟩
    obtain ⟨-, -, -, rfl⟩ := Frame.declare_eq_ok.1 hd
    exact hs.maxVariables
  | error e =>
    rw [outcome_declare_of_error hd] at hw ⊢
    rcases Frame.declare_eq_error.1 hd with ⟨hn, rfl⟩ | ⟨-, -, rfl⟩
    · exact ⟨hs, outcome_declare_of_error (Frame.declare_eq_error.2 (.inl ⟨hn, rfl⟩))⟩
    · exact absurd trivial (hw _ rfl)

theorem raises_pop (r : Register) :
    Raises (·.raised limits) (·.Below limits) (pop r) (pop r) := by
  intro s hs _
  rcases Nat.eq_zero_or_pos s.frame.pending with hp | hp
  · rw [outcome_pop_of_zero r hp]
    exact ⟨hs, outcome_pop_of_zero r hp⟩
  · rw [show outcome (pop r) s = _ from runs_pop.2 ⟨hp, rfl, rfl⟩]
    exact ⟨⟨hs.maxStrings, hs.maxVariables⟩,
      (runs_pop (s := s.raised limits)).2 ⟨hp, rfl, rfl⟩⟩

/-- Composed actions meet the limits only where they take in a literal or declare a variable. -/
theorem Built.raises {α : Type} {m : Lower α} (h : Built decls words m) :
    Raises (·.raised limits) (·.Below limits) m m := by
  induction h with
  | pure a => exact raises_pure a
  | bind _ _ ihm ihf => exact ihm.bind ihf
  | refuse _ | underflow => exact raises_throw _
  | @look _ f hf _ ih =>
    intro s hs hw
    have hlook (s : Lowering) : outcome (Lower.frame >>= f) s = outcome (f s.frame) s := rfl
    rw [hlook] at hw ⊢
    rw [hlook, show f (s.raised limits).frame = f s.frame from hf _ _]
    exact ih s.frame s hs hw
  | freshLabel | push => exact fun s hs _ => ⟨⟨hs.maxStrings, hs.maxVariables⟩, rfl⟩
  | intern _ => exact raises_intern _
  | declare _ _ => exact raises_declare _ _
  | pop r => exact raises_pop r
  | @inLoop _ labels body _ ih =>
    intro s hs hw
    rw [outcome_inLoop] at hw ⊢
    obtain ⟨hs', hbody⟩ := ih (s.withFrame (s.frame.enterLoop labels))
      ⟨hs.maxStrings, hs.maxVariables⟩ hw
    have hcomm : (s.raised limits).withFrame ((s.raised limits).frame.enterLoop labels) =
        (s.withFrame (s.frame.enterLoop labels)).raised limits := rfl
    rw [outcome_inLoop, hcomm, hbody]
    generalize outcome body (s.withFrame (s.frame.enterLoop labels)) = result at hs' ⊢
    obtain ⟨(_ | _) | _, t⟩ := result <;> exact ⟨⟨hs'.maxStrings, hs'.maxVariables⟩, rfl⟩

theorem staysWithin_intern {value : String} (h : value ∈ words.literals) :
    StaysWithin (·.Within words) (intern value) := by
  intro s hs
  obtain ⟨index, pool, hi, hpool⟩ := hs.pool.exists_insert h
  obtain ⟨log, hruns⟩ := exists_runs_intern hi
  rw [show outcome (intern value) s = _ from hruns]
  exact ⟨withinLimits_ok _, hpool, hs.frame⟩

theorem staysWithin_declare {name : String} {kind : VarKind}
    (h : (name, kind.typeName?) ∈ words.locals) :
    StaysWithin (·.Within words) (declare name kind) := by
  intro s hs
  have hname : name ∈ words.locals.map Prod.fst := List.mem_map.2 ⟨_, h, rfl⟩
  cases hd : s.frame.declare name kind with
  | ok result =>
    obtain ⟨offset, frame⟩ := result
    rw [show outcome (declare name kind) s = _ from runs_declare.2 ⟨_, hd, rfl⟩]
    exact ⟨withinLimits_ok _, hs.pool, hs.frame.declare hd hname⟩
  | error e =>
    rw [outcome_declare_of_error hd]
    refine ⟨?_, hs⟩
    rintro _ ⟨⟩
    exact hs.frame.not_isLimit_of_declare hd hname

/-- Composed actions that keep to their words exceed no limit that leaves room for these. -/
theorem Built.staysWithin {α : Type} {m : Lower α} (h : Built decls words m) :
    StaysWithin (·.Within words) m := by
  induction h with
  | pure a => exact staysWithin_pure a
  | bind _ _ ihm ihf => exact ihm.bind ihf
  | refuse he =>
    intro s hs
    refine ⟨?_, hs⟩
    rintro _ ⟨⟩
    exact he.2
  | underflow => exact fun s hs => ⟨by rintro _ ⟨⟩, hs⟩
  | look _ _ ih => exact fun s hs => ih s.frame s hs
  | freshLabel | push =>
    exact fun s hs =>
      ⟨withinLimits_ok _, hs.pool, hs.frame.nodup, hs.frame.subset, hs.frame.card_le⟩
  | intern hv => exact staysWithin_intern hv
  | declare hn _ => exact staysWithin_declare hn
  | pop r =>
    intro s hs
    rcases Nat.eq_zero_or_pos s.frame.pending with hp | hp
    · rw [outcome_pop_of_zero r hp]
      exact ⟨by rintro _ ⟨⟩, hs⟩
    · rw [show outcome (Lower.pop r) s = _ from runs_pop.2 ⟨hp, rfl, rfl⟩]
      exact ⟨withinLimits_ok _, hs.pool, hs.frame.nodup, hs.frame.subset, hs.frame.card_le⟩
  | @inLoop _ labels body _ ih =>
    intro s hs
    obtain ⟨hresult, hpool, hframe⟩ := ih (s.withFrame (s.frame.enterLoop labels))
      ⟨hs.pool, hs.frame.nodup, hs.frame.subset, hs.frame.card_le⟩
    rw [outcome_inLoop]
    generalize outcome body (s.withFrame (s.frame.enterLoop labels)) = result
      at hresult hpool hframe ⊢
    obtain ⟨loops, hloops⟩ := result.2.frame.exists_afterBody_eq result.1
    simp only [hloops]
    exact ⟨hresult, hpool, hframe.nodup, hframe.subset, hframe.card_le⟩

end Lower

namespace FunctionDecl

variable {limits : Limits} (decls : Declarations) (f : FunctionDecl)

theorem raises_lower {larger : Limits} (h : limits.maxVariables ≤ larger.maxVariables) :
    Raises (·.raised larger) (·.Below larger) (f.lower limits decls) (f.lower larger decls) := by
  intro s hs hw
  rw [f.outcome_lower] at hw ⊢
  rw [f.outcome_lower]
  split_ifs at hw ⊢
  · exact ⟨⟨hs.maxStrings, hs.maxVariables⟩, rfl⟩
  · exact (f.built_fill decls s.nextLabel).raises (f.enter limits s) ⟨hs.maxStrings, h⟩ hw

/-- Each function begins with room for all of its variables. -/
theorem staysWithin_lower {literals : List String}
    (hn : (f.locals.map Prod.fst).toFinset.card ≤ limits.maxVariables)
    (hl : Stmt.blockLiterals f.body ⊆ literals) :
    StaysWithin (·.pool.Within literals) (f.lower limits decls) := by
  intro s hs
  rw [f.outcome_lower]
  split_ifs
  · exact ⟨by rintro _ ⟨⟩; exact id, hs⟩
  · have hfill := f.built_fill_within decls ⟨f.locals, literals⟩ s.nextLabel
      (List.Subset.refl _) hl
    have henter : (f.enter limits s).frame.Within f.locals :=
      ⟨List.nodup_nil, List.nil_subset _, hn⟩
    obtain ⟨hresult, hend⟩ := hfill.staysWithin (f.enter limits s) ⟨hs, henter⟩
    exact ⟨hresult, hend.pool⟩

end FunctionDecl

/-! ## Generation -/

namespace Generator

def raised (limits : Limits) (g : Generator) : Generator :=
  { g with limits, lowering := g.lowering.raised limits }

structure Below (limits : Limits) (g : Generator) : Prop where
  maxVariables : g.limits.maxVariables ≤ limits.maxVariables
  lowering : g.lowering.Below limits

/-- The limits are still `limits`, and leave room for `literals`, of which some were taken in. -/
structure Within (limits : Limits) (literals : List String) (g : Generator) : Prop where
  limits_eq : g.limits = limits
  pool : g.lowering.pool.Within literals

end Generator

namespace Generate

variable {limits : Limits} {literals : List String}

section Raises

theorem raises_ofLower {α : Type} {m m' : Lower α}
    (h : Raises (·.raised limits) (·.Below limits) m m') :
    Raises (·.raised limits) (·.Below limits) (ofLower m) (ofLower m') := by
  intro g hg hw
  rw [outcome_ofLower] at hw ⊢
  obtain ⟨hbelow, hm'⟩ := h g.lowering hg.lowering hw
  rw [outcome_ofLower, show outcome m' (g.raised limits).lowering = _ from hm']
  exact ⟨⟨hg.maxVariables, hbelow⟩, rfl⟩

theorem raises_note (e : Event) :
    Raises (·.raised limits) (·.Below limits) (ofLower (Lower.note e)) (ofLower (Lower.note e)) :=
  raises_ofLower fun _ hs _ => ⟨⟨hs.maxStrings, hs.maxVariables⟩, rfl⟩

theorem raises_write (text : String) :
    Raises (·.raised limits) (·.Below limits) (write text) (write text) := by
  intro g hg _
  rw [outcome_write, outcome_write]
  exact ⟨⟨hg.maxVariables, hg.lowering⟩, rfl⟩

theorem raises_record (declarations : Declarations) (known : Bool) (e : CompileError) :
    Raises (·.raised limits) (·.Below limits) (record declarations known e)
      (record declarations known e) := by
  intro g hg _
  rw [outcome_record, outcome_record]
  exact ⟨⟨hg.maxVariables, hg.lowering⟩, rfl⟩

theorem raises_function (f : FunctionDecl) :
    Raises (·.raised limits) (·.Below limits) (Generate.function f) (Generate.function f) := by
  refine raises_get_bind fun g hg => ?_
  refine (raises_ofLower (f.raises_lower g.declarations hg.maxVariables)).bind fun r => ?_
  refine (raises_write r.text).bind fun _ => ?_
  exact raises_get_bind fun g _ => raises_note _

theorem raises_close (functions literals : Nat) :
    Raises (·.raised limits) (·.Below limits) (close functions literals)
      (close functions literals) :=
  (raises_write _).bind fun _ => raises_get_bind fun _ _ => raises_note _

/-- The capacity of a pool does not show in what is written of it. -/
theorem raises_ending (functions : Nat) :
    Raises (·.raised limits) (·.Below limits) (ending functions) (ending functions) := by
  refine raises_get_bind fun g _ => ?_
  have hempty : (g.raised limits).lowering.pool.isEmpty = g.lowering.pool.isEmpty := rfl
  have hrodata : (g.raised limits).lowering.pool.rodata = g.lowering.pool.rodata := rfl
  have hsize : (g.raised limits).lowering.pool.size = g.lowering.pool.size := rfl
  simp only [hempty, hrodata, hsize]
  split_ifs
  · exact (raises_write _).bind fun _ => raises_close _ _
  · exact raises_close _ _

theorem raises_program (p : Program) :
    Raises (·.raised limits) (·.Below limits) (program p) (program p) := by
  have hdecls (g : Generator) : (g.raised limits).declarations = g.declarations := rfl
  refine (raises_forM fun _ _ => raises_get_bind fun g _ => ?_).bind fun _ => ?_
  · rw [hdecls]
    exact raises_record _ _ _
  refine (raises_forM fun _ _ => raises_get_bind fun g _ => ?_).bind fun _ => ?_
  · rw [hdecls]
    exact raises_record _ _ _
  refine (raises_write _).bind fun _ => ?_
  refine (raises_forM fun f _ => raises_function f).bind fun _ => ?_
  exact raises_ending p.functions.length

theorem raises_finish :
    Raises (·.raised limits) (·.Below limits) Generate.finish Generate.finish := by
  refine raises_get_bind fun g _ => ?_
  have hflush : (g.raised limits).sink.flush = g.sink.flush := rfl
  rw [hflush]
  cases g.sink.flush with
  | ok => exact raises_pure ()
  | error e => exact raises_throw _

end Raises

section StaysWithin

theorem staysWithin_ofLower {α : Type} {m : Lower α}
    (h : StaysWithin (·.pool.Within literals) m) :
    StaysWithin (·.Within limits literals) (ofLower m) := by
  intro g hg
  rw [outcome_ofLower]
  obtain ⟨hresult, hpool⟩ := h g.lowering hg.pool
  exact ⟨hresult, hg.limits_eq, hpool⟩

theorem staysWithin_note (e : Event) :
    StaysWithin (·.Within limits literals) (ofLower (Lower.note e)) :=
  staysWithin_ofLower fun _ hs => ⟨withinLimits_ok _, hs⟩

theorem staysWithin_refuse_output {α : Type} (e : OutputError) :
    StaysWithin (·.Within limits literals) (Generate.refuse (.output e) : Generate α) :=
  fun _ hg => ⟨by rintro _ ⟨⟩; exact id, hg⟩

theorem staysWithin_write (text : String) :
    StaysWithin (·.Within limits literals) (write text) := by
  intro g hg
  rw [outcome_write]
  refine ⟨?_, hg.limits_eq, hg.pool⟩
  cases (g.sink.write (utf8 text)).1 with
  | ok u => exact withinLimits_ok u
  | error e =>
    rintro _ ⟨⟩
    exact id

theorem staysWithin_record (declarations : Declarations) (known : Bool) {e : CompileError}
    (he : ¬ e.IsLimit) :
    StaysWithin (·.Within limits literals) (record declarations known e) := by
  intro g hg
  rw [outcome_record]
  refine ⟨?_, hg.limits_eq, hg.pool⟩
  intro e' he'
  split_ifs at he'
  cases he'
  exact he

theorem staysWithin_function {f : FunctionDecl}
    (hn : (f.locals.map Prod.fst).toFinset.card ≤ limits.maxVariables)
    (hl : Stmt.blockLiterals f.body ⊆ literals) :
    StaysWithin (·.Within limits literals) (Generate.function f) := by
  refine staysWithin_get_bind fun g hg => ?_
  rw [hg.limits_eq]
  refine (staysWithin_ofLower (f.staysWithin_lower g.declarations hn hl)).bind fun r => ?_
  refine (staysWithin_write r.text).bind fun _ => ?_
  exact staysWithin_get_bind fun _ _ => staysWithin_note _

theorem staysWithin_close (functions count : Nat) :
    StaysWithin (·.Within limits literals) (close functions count) :=
  (staysWithin_write _).bind fun _ => staysWithin_get_bind fun _ _ => staysWithin_note _

theorem staysWithin_ending (functions : Nat) :
    StaysWithin (·.Within limits literals) (ending functions) := by
  refine staysWithin_get_bind fun g _ => ?_
  simp only
  split_ifs
  · exact (staysWithin_write _).bind fun _ => staysWithin_close _ _
  · exact staysWithin_close _ _

theorem staysWithin_program {p : Program}
    (hn : ∀ f ∈ p.functions, (f.locals.map Prod.fst).toFinset.card ≤ limits.maxVariables) :
    StaysWithin (·.Within limits p.literals) (program p) := by
  have hfunction (f : FunctionDecl) (hf : f ∈ p.functions) :
      StaysWithin (·.Within limits p.literals) (Generate.function f) :=
    staysWithin_function (hn f hf) fun _ hx => List.mem_flatMap.2 ⟨f, hf, hx⟩
  refine (staysWithin_forM fun _ _ => staysWithin_get_bind fun _ _ =>
    staysWithin_record _ _ id).bind fun _ => ?_
  refine (staysWithin_forM fun _ _ => staysWithin_get_bind fun _ _ =>
    staysWithin_record _ _ id).bind fun _ => ?_
  refine (staysWithin_write _).bind fun _ => ?_
  refine (staysWithin_forM hfunction).bind fun _ => ?_
  exact staysWithin_ending p.functions.length

theorem staysWithin_finish : StaysWithin (·.Within limits literals) Generate.finish := by
  refine staysWithin_get_bind fun g _ => ?_
  cases g.sink.flush with
  | ok => exact staysWithin_pure ()
  | error e => exact staysWithin_refuse_output e

end StaysWithin

end Generate

/-! ## Whole programs -/

namespace Program

variable {limits larger : Limits}

theorem compile_raised {p : Program} {sink : Sink}
    (hw : WithinLimits (p.compile limits sink).1)
    (hv : limits.maxVariables ≤ larger.maxVariables) (hs : limits.maxStrings ≤ larger.maxStrings) :
    p.compile larger sink = ((p.compile limits sink).1, (p.compile limits sink).2.raised larger) :=
  (((Generate.raises_program p).bind fun _ => Generate.raises_finish)
    (Generator.new limits sink) ⟨hv, hs, hv⟩ hw).2

theorem withinLimits_compile {p : Program} {sink : Sink}
    (hv : ∀ f ∈ p.functions, (f.locals.map Prod.fst).toFinset.card ≤ limits.maxVariables)
    (hs : p.literals.toFinset.card ≤ limits.maxStrings) :
    WithinLimits (p.compile limits sink).1 :=
  (((Generate.staysWithin_program hv).bind fun _ => Generate.staysWithin_finish)
    (Generator.new limits sink) ⟨rfl, List.nodup_nil, List.nil_subset _, hs⟩).1

/-- The limits decide only whether a program is refused. Whatever the sink, a program that does not
exceed them compiles to the same result and the same bytes under all larger limits. Limits on the
distinct names of each function and on the distinct literals are not exceeded. -/
theorem compile_under_limits (p : Program) (limits : Limits) (sink : Sink) :
    ((∀ e, (p.compile limits sink).1 = .error (.refused e) → ¬ e.IsLimit) →
      ∀ larger : Limits, limits.maxVariables ≤ larger.maxVariables →
        limits.maxStrings ≤ larger.maxStrings →
        (p.compile larger sink).1 = (p.compile limits sink).1 ∧
        (p.compile larger sink).2.sink.stored = (p.compile limits sink).2.sink.stored) ∧
    ((∀ f ∈ p.functions, (f.locals.map Prod.fst).toFinset.card ≤ limits.maxVariables) →
      p.literals.toFinset.card ≤ limits.maxStrings →
      ∀ e, (p.compile limits sink).1 = .error (.refused e) → ¬ e.IsLimit) := by
  refine ⟨fun hw larger hv hs => ?_, withinLimits_compile⟩
  rw [compile_raised hw hv hs]
  exact ⟨rfl, rfl⟩

/-- A record of two slots is one name. With less room than for one name and one literal this program
is refused. -/
theorem compile_under_limits_halves :
    (halves.compile ⟨0, 1⟩ {}).1 = .error (.refused (.tooManyVariables "half" 0)) ∧
    (halves.compile ⟨1, 0⟩ {}).1 = .error (.refused (.tooManyStrings 0)) ∧
    (halves.compile ⟨1, 1⟩ {}).1 = .ok () ∧
    ∀ larger : Limits, 1 ≤ larger.maxVariables → 1 ≤ larger.maxStrings →
      (halves.compile larger {}).1 = .ok () ∧
      (halves.compile larger {}).2.sink.stored = (halves.compile ⟨1, 1⟩ {}).2.sink.stored := by
  obtain ⟨hsame, hroom⟩ := compile_under_limits halves ⟨1, 1⟩ {}
  have hok : (halves.compile ⟨1, 1⟩ {}).1 = .ok () := by decide +kernel
  refine ⟨by decide +kernel, by decide +kernel, hok, fun larger hv hs => ?_⟩
  have hsame := hsame (hroom (by decide) (by decide)) larger hv hs
  exact ⟨hsame.1.trans hok, hsame.2⟩

end Program

end WordLang
