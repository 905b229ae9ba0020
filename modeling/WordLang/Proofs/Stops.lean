import WordLang.Proofs.Primitives

/-!
# Runs that stop

`Stops m s h s'` says that `m`, started in the state `s`, stops because of `h` and leaves the state
`s'`. A composed action stops where the first of its parts does, and each primitive action has one
lemma here that says when it stops.
-/
namespace WordLang

open Asm

section Stops

variable {σ α β : Type} {s s' : σ} {h : Halt}

def Stops (m : ExceptT Halt (StateM σ) α) (s : σ) (h : Halt) (s' : σ) : Prop :=
  outcome m s = (.error h, s')

theorem stops_iff {m : ExceptT Halt (StateM σ) α} :
    (∃ s', Stops m s h s') ↔ (outcome m s).1 = .error h := by
  constructor
  · rintro ⟨s', hs⟩
    exact congrArg Prod.fst hs
  · intro hs
    exact ⟨_, Prod.ext hs rfl⟩

theorem Runs.not_stops {m : ExceptT Halt (StateM σ) α} {a : α} {s₁ : σ} (hr : Runs m s a s₁) :
    ¬ Stops m s h s' := by
  unfold Stops
  rw [show outcome m s = _ from hr]
  simp

@[simp] theorem not_stops_pure {a : α} : ¬ Stops (pure a : ExceptT Halt (StateM σ) α) s h s' :=
  (runs_pure.2 ⟨rfl, rfl⟩).not_stops

/-- An action stops at its beginning, or goes on and stops later. -/
theorem stops_bind {m : ExceptT Halt (StateM σ) α} {f : α → ExceptT Halt (StateM σ) β} :
    Stops (m >>= f) s h s' ↔ Stops m s h s' ∨ ∃ a s₁, Runs m s a s₁ ∧ Stops (f a) s₁ h s' := by
  unfold Stops Runs
  rw [outcome_bind]
  rcases outcome m s with ⟨_ | a, s₁⟩
  · simp
  · simp only [Prod.mk.injEq, reduceCtorEq, false_and, false_or, Except.ok.injEq]
    constructor
    · intro hs
      exact ⟨a, s₁, ⟨rfl, rfl⟩, hs⟩
    · rintro ⟨_, _, ⟨rfl, rfl⟩, hs⟩
      exact hs

@[simp] theorem stops_map {m : ExceptT Halt (StateM σ) α} {f : α → β} :
    Stops (f <$> m) s h s' ↔ Stops m s h s' := by
  rw [map_eq_pure_bind, stops_bind]
  simp

@[simp] theorem stops_throw {e : Halt} :
    Stops (throw e : ExceptT Halt (StateM σ) α) s h s' ↔ h = e ∧ s' = s := by
  show ((.error e, s) : Except Halt α × σ) = (.error h, s') ↔ _
  simp [eq_comm]

@[simp] theorem not_stops_get : ¬ Stops (get : ExceptT Halt (StateM σ) σ) s h s' :=
  (runs_get.2 ⟨rfl, rfl⟩).not_stops

@[simp] theorem not_stops_modify {f : σ → σ} :
    ¬ Stops (modify f : ExceptT Halt (StateM σ) Unit) s h s' :=
  (runs_modify (u := ()).2 rfl).not_stops

/-- A loop over a list stops at one of its elements, and has run over those before. -/
theorem stops_forM {f : α → ExceptT Halt (StateM σ) Unit} {xs : List α} :
    Stops (xs.forM f) s h s' ↔
      ∃ before x after s₁, xs = before ++ x :: after ∧ Runs (before.forM f) s () s₁ ∧
        Stops (f x) s₁ h s' := by
  induction xs generalizing s with
  | nil => simp [List.forM]
  | cons x xs ih =>
    simp only [List.forM, stops_bind, ih]
    constructor
    · rintro (hs | ⟨_, s₁, hx, before, y, after, s₂, rfl, hruns, hs⟩)
      · exact ⟨[], x, xs, s, rfl, by simp [List.forM], hs⟩
      · exact ⟨x :: before, y, after, s₂, rfl, runs_bind.2 ⟨_, s₁, hx, hruns⟩, hs⟩
    · rintro ⟨before, y, after, s₁, hxs, hruns, hs⟩
      cases before with
      | nil =>
        obtain ⟨rfl, rfl⟩ := List.cons.inj hxs
        obtain ⟨-, rfl⟩ := runs_pure.1 hruns
        exact .inl hs
      | cons z before =>
        obtain ⟨rfl, rfl⟩ := List.cons.inj hxs
        obtain ⟨_, s₂, hx, hruns⟩ := runs_bind.1 hruns
        exact .inr ⟨_, s₂, hx, before, y, after, s₁, rfl, hruns, hs⟩

end Stops

namespace Lower

variable {α : Type} {s s' : Lowering} {h : Halt}

@[simp] theorem stops_refuse {e : CompileError} :
    Stops (refuse e : Lower α) s h s' ↔ h = .refused e ∧ s' = s := stops_throw

@[simp] theorem stops_ofExcept {x : Except CompileError α} :
    Stops (ofExcept x) s h s' ↔ ∃ e, x = .error e ∧ h = .refused e ∧ s' = s := by
  cases x <;> simp [ofExcept]

@[simp] theorem not_stops_note {e : Event} : ¬ Stops (note e) s h s' := not_stops_modify

@[simp] theorem not_stops_frame : ¬ Stops Lower.frame s h s' :=
  (runs_frame.2 ⟨rfl, rfl⟩).not_stops

theorem stops_freshLabel_bind {f : Nat → Lower α} :
    Stops (freshLabel >>= f) s h s' ↔ Stops (f s.nextLabel) (s.skipLabels 1) h s' :=
  Iff.rfl

@[simp] theorem stops_intern {value : String} :
    Stops (intern value) s h s' ↔
      ∃ e, s.pool.insert value = .error e ∧ h = .refused e ∧ s' = s := by
  cases hi : s.pool.insert value with
  | ok result =>
    obtain ⟨log, hruns⟩ := exists_runs_intern hi
    simp [hruns.not_stops]
  | error e => simp [Stops, outcome_intern_of_error hi, eq_comm]

@[simp] theorem stops_declare {name : String} {kind : VarKind} :
    Stops (declare name kind) s h s' ↔
      ∃ e, s.frame.declare name kind = .error e ∧ h = .refused e ∧ s' = s := by
  cases hd : s.frame.declare name kind with
  | ok result =>
    simp [(runs_declare.2 ⟨_, hd, rfl⟩).not_stops]
  | error e => simp [Stops, outcome_declare_of_error hd, eq_comm]

@[simp] theorem stops_lookup {name : String} :
    Stops (lookup name) s h s' ↔
      ∃ e, s.frame.lookup name = .error e ∧ h = .refused e ∧ s' = s := by
  simp [lookup, stops_bind]

@[simp] theorem stops_slotAbove {base index : Nat} :
    Stops (slotAbove base index) s h s' ↔
      base < index * wordSize ∧ h = .underflow ∧ s' = s := by
  unfold slotAbove
  split_ifs with hle
  · simp [Nat.not_lt.2 hle]
  · simp [Nat.not_le.1 hle]

theorem not_underflow_scalarSlot {name : String} : ¬ Stops (scalarSlot name) s .underflow s' := by
  simp only [scalarSlot, stops_bind, stops_lookup, reduceCtorEq, false_and, and_false, exists_false,
    false_or, not_exists, not_and]
  intro var s₁ _
  split <;> simp

theorem stops_push_bind {r : Register} {f : Code → Lower α} :
    Stops (push r >>= f) s h s' ↔
      Stops (f [.instr (.push r)]) (s.withPending (s.frame.pending + 1)) h s' :=
  Iff.rfl

@[simp] theorem stops_pop {r : Register} :
    Stops (pop r) s h s' ↔ s.frame.pending = 0 ∧ h = .underflow ∧ s' = s := by
  rcases Nat.eq_zero_or_pos s.frame.pending with hp | hp
  · simp [Stops, outcome_pop_of_zero r hp, hp, eq_comm]
  · simp [(runs_pop.2 ⟨hp, rfl, rfl⟩).not_stops, Nat.ne_of_gt hp]

@[simp] theorem not_stops_call {callee : Callee} : ¬ Stops (call callee) s h s' :=
  (runs_call.2 ⟨rfl, rfl⟩).not_stops

theorem stops_inLoop {labels : LoopLabels} {body : Lower α} :
    Stops (inLoop labels body) s h s' ↔
      ∃ t, Stops body (s.withFrame (s.frame.enterLoop labels)) h t ∧
        s' = t.withFrame (t.frame.afterBody (.error h : Except Halt α)) := by
  unfold Stops
  rw [outcome_inLoop]
  rcases outcome body (s.withFrame (s.frame.enterLoop labels)) with ⟨r, t⟩
  simp only [Prod.mk.injEq]
  constructor
  · rintro ⟨rfl, rfl⟩
    exact ⟨t, ⟨rfl, rfl⟩, rfl⟩
  · rintro ⟨_, ⟨rfl, rfl⟩, rfl⟩
    exact ⟨rfl, rfl⟩

/-- Words that were pushed can be popped. -/
theorem not_stops_popAll {rs : List Register} (hle : rs.length ≤ s.frame.pending) :
    ¬ Stops (popAll rs) s h s' :=
  (runs_popAll.2 ⟨hle, rfl, rfl⟩).not_stops

/-- Slots that lie below the base can be cleared. -/
theorem not_stops_clearSlots {base count : Nat} (hle : ∀ index < count, index * wordSize ≤ base) :
    ¬ Stops (clearSlots base count) s h s' :=
  (runs_clearSlots.2 ⟨hle, rfl, rfl⟩).not_stops

end Lower

@[simp] theorem BinaryOp.not_stops_lower {op : BinaryOp} {s s' : Lowering} {h : Halt} :
    ¬ Stops op.lower s h s' :=
  (BinaryOp.runs_lower.2 ⟨rfl, rfl⟩).not_stops

namespace Generate

variable {α : Type} {g g' : Generator} {h : Halt}

theorem stops_ofLower {m : Lower α} :
    Stops (ofLower m) g h g' ↔ ∃ t, Stops m g.lowering h t ∧ g' = { g with lowering := t } := by
  unfold Stops
  rw [outcome_ofLower]
  rcases outcome m g.lowering with ⟨r, t⟩
  simp only [Prod.mk.injEq]
  constructor
  · rintro ⟨rfl, rfl⟩
    exact ⟨t, ⟨rfl, rfl⟩, rfl⟩
  · rintro ⟨_, ⟨rfl, rfl⟩, rfl⟩
    exact ⟨rfl, rfl⟩

theorem stops_stmt {s : Stmt} :
    Stops (Generate.stmt s) g h g' ↔
      ∃ t, Stops (s.lower g.declarations) g.lowering h t ∧ g' = { g with lowering := t } := by
  simp [Generate.stmt, stops_bind, stops_ofLower]

theorem stops_expr {e : Expr} :
    Stops (Generate.expr e) g h g' ↔
      ∃ t, Stops (e.lower g.declarations) g.lowering h t ∧ g' = { g with lowering := t } := by
  simp [Generate.expr, stops_bind, stops_ofLower]

/-- Only the sink is to blame for a text that is not written. -/
theorem exists_of_stops_write {text : String} (hs : Stops (write text) g h g') :
    ∃ e, h = .refused (.output e) := by
  unfold Stops at hs
  rw [outcome_write] at hs
  rcases hw : g.sink.write (utf8 text) with ⟨_ | _, sink⟩ <;> rw [hw] at hs <;> cases hs
  exact ⟨_, rfl⟩

theorem of_stops_record {declarations : Declarations} {known : Bool} {e : CompileError}
    (hs : Stops (record declarations known e) g h g') : h = .refused e ∧ g'.sink = g.sink := by
  unfold Stops at hs
  rw [outcome_record] at hs
  cases known <;> cases hs
  exact ⟨rfl, rfl⟩

/-- A type is refused only if it is there already. -/
theorem of_stops_declareType {decl : RecordDecl} (hs : Stops (declareType decl) g h g') :
    h = .refused (.duplicateType decl.name) ∧ g'.sink = g.sink :=
  of_stops_record hs

theorem of_stops_declareFunction {f : FunctionDecl} (hs : Stops (declareFunction f) g h g') :
    h = .refused (.duplicateFunction f.name) ∧ g'.sink = g.sink :=
  of_stops_record hs

/-- A function stops while it is lowered, or when it is written. -/
theorem stops_function {f : FunctionDecl} :
    Stops (Generate.function f) g h g' ↔
      (∃ t, Stops (f.lower g.limits g.declarations) g.lowering h t ∧
        g' = { g with lowering := t }) ∨
      ∃ r t, Runs (f.lower g.limits g.declarations) g.lowering r t ∧
        Stops (write r.text) { g with lowering := t } h g' := by
  rw [← stops_ofLower]
  show outcome (Generate.function f) g = _ ↔ _
  rw [outcome_function]
  show Stops _ g h g' ↔ _
  rw [stops_bind]
  refine or_congr_right ⟨?_, ?_⟩
  · rintro ⟨r, _, hr, hs⟩
    obtain ⟨t, ht, rfl⟩ := runs_ofLower.1 hr
    rcases stops_bind.1 hs with hs | ⟨_, _, -, hs⟩
    · exact ⟨r, t, ht, hs⟩
    · simp [stops_bind, stops_ofLower] at hs
  · rintro ⟨r, t, ht, hs⟩
    exact ⟨r, _, runs_ofLower.2 ⟨t, ht, rfl⟩, stops_bind.2 (.inl hs)⟩

theorem not_stops_write {text : String} (hc : g.sink.capacity = none) :
    ¬ Stops (write text) g h g' :=
  ((runs_write hc).2 rfl : Runs (write text) g () _).not_stops

theorem exists_of_stops_close {functions literals : Nat}
    (hs : Stops (close functions literals) g h g') : ∃ e, h = .refused (.output e) := by
  rcases stops_bind.1 hs with hs | ⟨_, _, -, hs⟩
  · exact exists_of_stops_write hs
  · simp [stops_bind, stops_ofLower] at hs

/-- Once the functions are written, only the sink can stop the generator. -/
theorem exists_of_stops_ending {count : Nat} (hs : Stops (ending count) g h g') :
    ∃ e, h = .refused (.output e) := by
  rcases stops_bind.1 hs with hs | ⟨g₀, _, -, hs⟩
  · simp at hs
  by_cases he : g₀.lowering.pool.isEmpty
  · simp only [he] at hs
    exact exists_of_stops_close hs
  · simp only [he] at hs
    rcases stops_bind.1 hs with hs | ⟨_, _, -, hs⟩
    · exact exists_of_stops_write hs
    · exact exists_of_stops_close hs

end Generate

end WordLang
