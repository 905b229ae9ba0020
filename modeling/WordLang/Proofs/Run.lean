import Mathlib.Data.List.Nodup
import WordLang.Lowering.Stmt

/-!
# Successful runs of lowering

`Runs m s a s'` says that `m`, started in the state `s`, succeeds with the value `a` and
leaves the state `s'`. A run of a composed action splits into runs of its parts, and each primitive
action has one lemma here that says all it can do.
-/
namespace WordLang

open Asm

namespace Lowering

/-- The state with another number of pushed words. -/
def withPending (s : Lowering) (n : Nat) : Lowering :=
  { s with frame := { s.frame with pending := n } }

/-- The state after `n` labels were handed out. -/
def skipLabels (s : Lowering) (n : Nat) : Lowering := { s with nextLabel := s.nextLabel + n }

def withFrame (s : Lowering) (frame : Frame) : Lowering := { s with frame }

def logged (s : Lowering) (e : Event) : Lowering := { s with log := e :: s.log }

variable (s : Lowering) (n : Nat) (frame : Frame) (e : Event)

@[simp] theorem withPending_pool : (s.withPending n).pool = s.pool := rfl
@[simp] theorem withPending_nextLabel : (s.withPending n).nextLabel = s.nextLabel := rfl
@[simp] theorem withPending_frame :
    (s.withPending n).frame = { s.frame with pending := n } := rfl

@[simp] theorem skipLabels_pool : (s.skipLabels n).pool = s.pool := rfl
@[simp] theorem skipLabels_nextLabel : (s.skipLabels n).nextLabel = s.nextLabel + n := rfl
@[simp] theorem skipLabels_frame : (s.skipLabels n).frame = s.frame := rfl
@[simp] theorem skipLabels_zero : s.skipLabels 0 = s := rfl

@[simp] theorem withFrame_pool : (s.withFrame frame).pool = s.pool := rfl
@[simp] theorem withFrame_nextLabel : (s.withFrame frame).nextLabel = s.nextLabel := rfl
@[simp] theorem withFrame_frame : (s.withFrame frame).frame = frame := rfl

@[simp] theorem logged_pool : (s.logged e).pool = s.pool := rfl
@[simp] theorem logged_nextLabel : (s.logged e).nextLabel = s.nextLabel := rfl
@[simp] theorem logged_frame : (s.logged e).frame = s.frame := rfl

end Lowering

section Runs

variable {σ α β : Type} {s s' : σ}

/-- What a run gives: a value or the reason why it stops, and the state. -/
def outcome (m : ExceptT Halt (StateM σ) α) (s : σ) : Except Halt α × σ := m.run s

def Runs (m : ExceptT Halt (StateM σ) α) (s : σ) (a : α) (s' : σ) : Prop :=
  outcome m s = (.ok a, s')

theorem runs_of_fst {m : ExceptT Halt (StateM σ) α} {a : α} (h : (outcome m s).1 = .ok a) :
    Runs m s a (outcome m s).2 :=
  Prod.ext h rfl

theorem outcome_bind (m : ExceptT Halt (StateM σ) α) (f : α → ExceptT Halt (StateM σ) β) (s : σ) :
    outcome (m >>= f) s =
      match outcome m s with
      | (.ok a, s₁) => outcome (f a) s₁
      | (.error e, s₁) => (.error e, s₁) := by
  unfold outcome ExceptT.run
  simp only [bind, ExceptT.bind, ExceptT.mk, StateT.bind]
  rcases m s with ⟨_ | a, s₁⟩ <;> rfl

@[simp] theorem runs_pure {a b : α} :
    Runs (pure a : ExceptT Halt (StateM σ) α) s b s' ↔ b = a ∧ s' = s := by
  show ((.ok a, s) : Except Halt α × σ) = (.ok b, s') ↔ _
  simp [eq_comm]

theorem runs_bind {m : ExceptT Halt (StateM σ) α} {f : α → ExceptT Halt (StateM σ) β} {b : β} :
    Runs (m >>= f) s b s' ↔ ∃ a s₁, Runs m s a s₁ ∧ Runs (f a) s₁ b s' := by
  unfold Runs
  rw [outcome_bind]
  rcases outcome m s with ⟨_ | a, s₁⟩
  · simp
  · constructor
    · intro h
      exact ⟨a, s₁, rfl, h⟩
    · rintro ⟨a', s₁', h, h'⟩
      cases h
      exact h'

@[simp] theorem runs_map {m : ExceptT Halt (StateM σ) α} {f : α → β} {b : β} :
    Runs (f <$> m) s b s' ↔ ∃ a, Runs m s a s' ∧ b = f a := by
  rw [map_eq_pure_bind, runs_bind]
  simp only [runs_pure]
  constructor
  · rintro ⟨a, s₁, h, rfl, rfl⟩
    exact ⟨a, h, rfl⟩
  · rintro ⟨a, h, rfl⟩
    exact ⟨a, s', h, rfl, rfl⟩

@[simp] theorem not_runs_throw {e : Halt} {a : α} :
    ¬ Runs (throw e : ExceptT Halt (StateM σ) α) s a s' := by
  show ¬ ((.error e, s) : Except Halt α × σ) = (.ok a, s')
  simp

@[simp] theorem runs_get {t : σ} :
    Runs (get : ExceptT Halt (StateM σ) σ) s t s' ↔ t = s ∧ s' = s := by
  show ((.ok s, s) : Except Halt σ × σ) = (.ok t, s') ↔ _
  simp [eq_comm]

@[simp] theorem runs_modify {f : σ → σ} {u : Unit} :
    Runs (modify f : ExceptT Halt (StateM σ) Unit) s u s' ↔ s' = f s := by
  show ((.ok (), f s) : Except Halt Unit × σ) = (.ok u, s') ↔ _
  simp [eq_comm]

@[simp] theorem runs_set {t : σ} {u : Unit} :
    Runs (set t : ExceptT Halt (StateM σ) Unit) s u s' ↔ s' = t := by
  show ((.ok (), t) : Except Halt Unit × σ) = (.ok u, s') ↔ _
  simp [eq_comm]

end Runs

namespace Lower

variable {α : Type} {s s' : Lowering}

@[simp] theorem not_runs_refuse {e : CompileError} {a : α} : ¬ Runs (refuse e) s a s' := by
  simp [refuse]

@[simp] theorem runs_ofExcept {x : Except CompileError α} {a : α} :
    Runs (ofExcept x) s a s' ↔ x = .ok a ∧ s' = s := by
  cases x <;> simp [ofExcept, eq_comm]

@[simp] theorem runs_note {e : Event} {u : Unit} :
    Runs (note e) s u s' ↔ s' = s.logged e := by
  simp [note, Lowering.logged]

@[simp] theorem runs_frame {frame : Frame} :
    Runs Lower.frame s frame s' ↔ frame = s.frame ∧ s' = s := by
  simp only [Lower.frame, bind_pure_comp, runs_map, runs_get]
  constructor
  · rintro ⟨t, ⟨rfl, rfl⟩, rfl⟩
    exact ⟨rfl, rfl⟩
  · rintro ⟨rfl, rfl⟩
    exact ⟨_, ⟨rfl, rfl⟩, rfl⟩

@[simp] theorem runs_setFrame {frame : Frame} {u : Unit} :
    Runs (setFrame frame) s u s' ↔ s' = s.withFrame frame := by
  simp [setFrame, Lowering.withFrame]

@[simp] theorem runs_freshLabel {n : Nat} :
    Runs freshLabel s n s' ↔ n = s.nextLabel ∧ s' = s.skipLabels 1 := by
  show ((.ok s.nextLabel, s.skipLabels 1) : Except Halt Nat × Lowering) = (.ok n, s') ↔ _
  simp [eq_comm]

/-! ## String literals and variables -/

/-- The pool takes the literal in; only the log changes besides. -/
theorem runs_intern {value : String} {index : Nat} (h : Runs (intern value) s index s') :
    ∃ pool log, s.pool.insert value = .ok (index, pool) ∧ s' = { s with pool, log } := by
  simp only [Lower.intern, runs_bind, runs_get, runs_ofExcept, runs_modify] at h
  obtain ⟨_, _, ⟨rfl, rfl⟩, ⟨i, pool⟩, _, ⟨hi, rfl⟩, _, _, rfl, h⟩ := h
  split_ifs at h
  · obtain ⟨_, _, h, rfl, rfl⟩ := runs_bind.1 h
    rw [runs_note] at h
    exact ⟨pool, _, hi, h⟩
  · obtain ⟨rfl, rfl⟩ := runs_pure.1 h
    exact ⟨pool, _, hi, rfl⟩

/-- A literal that is new to the pool is logged. -/
theorem runs_intern_of_insert {value : String} {index : Nat} {pool : StringPool}
    (h : s.pool.insert value = .ok (index, pool)) :
    Runs (intern value) s index { s with
      pool
      log := if index = s.pool.size then .interned index value.utf8ByteSize :: s.log
        else s.log } := by
  simp only [Lower.intern, runs_bind, runs_get, runs_ofExcept, runs_modify]
  refine ⟨_, _, ⟨rfl, rfl⟩, _, _, ⟨h, rfl⟩, (), _, rfl, ?_⟩
  by_cases hi : index = s.pool.size <;> simp [hi, Lowering.logged]

theorem exists_runs_intern {value : String} {index : Nat} {pool : StringPool}
    (h : s.pool.insert value = .ok (index, pool)) :
    ∃ log, Runs (intern value) s index { s with pool, log } :=
  ⟨_, runs_intern_of_insert h⟩

theorem runs_declare {name : String} {kind : VarKind} {offset : Nat} :
    Runs (declare name kind) s offset s' ↔
      ∃ frame, s.frame.declare name kind = .ok (offset, frame) ∧
        s' = (s.logged (.declared frame.function name offset kind.slots)).withFrame frame := by
  simp only [declare, runs_bind, runs_frame, runs_ofExcept, runs_note, runs_setFrame, runs_pure]
  constructor
  · rintro ⟨_, _, ⟨rfl, rfl⟩, ⟨i, frame⟩, _, ⟨hd, rfl⟩, _, _, rfl, _, _, rfl, rfl, rfl⟩
    exact ⟨frame, hd, rfl⟩
  · rintro ⟨frame, hd, rfl⟩
    exact ⟨_, _, ⟨rfl, rfl⟩, (offset, frame), _, ⟨hd, rfl⟩, (), _, rfl, (), _, rfl, rfl, rfl⟩

@[simp] theorem runs_lookup {name : String} {var : Variable} :
    Runs (lookup name) s var s' ↔ s.frame.vars.find? name = some var ∧ s' = s := by
  simp only [lookup, runs_bind, runs_frame, runs_ofExcept, Frame.lookup]
  constructor
  · rintro ⟨_, _, ⟨rfl, rfl⟩, h, rfl⟩
    revert h
    split <;> simp_all
  · rintro ⟨h, rfl⟩
    exact ⟨_, _, ⟨rfl, rfl⟩, by simp [h], rfl⟩

@[simp] theorem runs_slotAbove {base index slot : Nat} :
    Runs (slotAbove base index) s slot s' ↔
      index * wordSize ≤ base ∧ slot = base - index * wordSize ∧ s' = s := by
  unfold slotAbove
  split_ifs with h <;> simp [h]

end Lower

/-- Scalars and strings are single words. -/
def VarKind.IsWord : VarKind → Prop
  | .scalar | .string => True
  | .record .. => False

namespace Frame

/-- `slot` holds the field of a record variable, as the declared type orders its fields. -/
def FieldSlot (decls : Declarations) (frame : Frame) (name field : String) (slot : Nat) : Prop :=
  ∃ offset typeName slots decl index,
    frame.vars.find? name = some ⟨offset, .record typeName slots⟩ ∧
    decls.types.find? typeName = some decl ∧ decl.fieldIndex? field = some index ∧
    index * wordSize ≤ offset ∧ slot = offset - index * wordSize

/-- `slot` holds a variable that is one word. -/
def WordSlot (frame : Frame) (name : String) (slot : Nat) : Prop :=
  ∃ kind, frame.vars.find? name = some ⟨slot, kind⟩ ∧ kind.IsWord

end Frame

namespace Lower

variable {s s' : Lowering}

theorem runs_fieldSlot {decls : Declarations} {name field : String} {slot : Nat} :
    Runs (fieldSlot decls name field) s slot s' ↔
      s.frame.FieldSlot decls name field slot ∧ s' = s := by
  simp only [fieldSlot, runs_bind, runs_lookup]
  constructor
  · rintro ⟨⟨offset, kind⟩, _, ⟨hv, rfl⟩, h⟩
    cases kind with
    | scalar | string => simp at h
    | record typeName slots =>
      simp only at h
      split at h
      · next index hi =>
        obtain ⟨decl, hd, hx⟩ := Option.bind_eq_some_iff.1 hi
        obtain ⟨hle, rfl, rfl⟩ := runs_slotAbove.1 h
        exact ⟨⟨_, _, _, _, _, hv, hd, hx, hle, rfl⟩, rfl⟩
      · simp at h
  · rintro ⟨⟨offset, typeName, slots, decl, index, hv, hd, hx, hle, rfl⟩, rfl⟩
    refine ⟨_, _, ⟨hv, rfl⟩, ?_⟩
    simp [hd, hx, hle]

theorem runs_scalarSlot {name : String} {slot : Nat} :
    Runs (scalarSlot name) s slot s' ↔ s.frame.WordSlot name slot ∧ s' = s := by
  simp only [scalarSlot, runs_bind, runs_lookup]
  constructor
  · rintro ⟨⟨offset, kind⟩, _, ⟨hv, rfl⟩, h⟩
    cases kind with
    | scalar | string =>
      obtain ⟨rfl, rfl⟩ := runs_pure.1 h
      exact ⟨⟨_, hv, trivial⟩, rfl⟩
    | record => simp at h
  · rintro ⟨⟨kind, hv, hk⟩, rfl⟩
    refine ⟨_, _, ⟨hv, rfl⟩, ?_⟩
    cases kind with
    | scalar | string => simp
    | record => exact hk.elim

/-! ## The stack and calls -/

@[simp] theorem runs_push {r : Register} {code : Code} :
    Runs (push r) s code s' ↔
      code = [.instr (.push r)] ∧ s' = s.withPending (s.frame.pending + 1) := by
  simp only [push, runs_bind, runs_frame, runs_setFrame, runs_pure]
  constructor
  · rintro ⟨_, _, ⟨rfl, rfl⟩, _, _, rfl, rfl, rfl⟩
    exact ⟨rfl, rfl⟩
  · rintro ⟨rfl, rfl⟩
    exact ⟨_, _, ⟨rfl, rfl⟩, (), _, rfl, rfl, rfl⟩

@[simp] theorem runs_pop {r : Register} {code : Code} :
    Runs (pop r) s code s' ↔
      0 < s.frame.pending ∧ code = [.instr (.pop r)] ∧
        s' = s.withPending (s.frame.pending - 1) := by
  simp only [pop, runs_bind, runs_frame]
  constructor
  · rintro ⟨_, _, ⟨rfl, rfl⟩, h⟩
    split at h
    · simp at h
    · next n hn =>
      simp only [runs_bind, runs_setFrame, runs_pure] at h
      obtain ⟨_, _, rfl, rfl, rfl⟩ := h
      exact ⟨by omega, rfl, by simp [Lowering.withPending, Lowering.withFrame, hn]⟩
  · rintro ⟨hp, rfl, rfl⟩
    refine ⟨_, _, ⟨rfl, rfl⟩, ?_⟩
    split
    · omega
    · next n hn =>
      simp [Lowering.withPending, Lowering.withFrame, hn]

theorem runs_popAll {rs : List Register} {code : Code} :
    Runs (popAll rs) s code s' ↔
      rs.length ≤ s.frame.pending ∧ code = Code.ofInstrs (rs.map .pop) ∧
        s' = s.withPending (s.frame.pending - rs.length) := by
  induction rs generalizing s s' code with
  | nil => simp [popAll, Code.ofInstrs, Lowering.withPending]
  | cons r rs ih =>
    simp only [popAll, runs_bind, runs_pop, runs_pure, ih]
    constructor
    · rintro ⟨_, _, ⟨hp, rfl, rfl⟩, _, _, ⟨hle, rfl, rfl⟩, rfl, rfl⟩
      simp only [Lowering.withPending_frame] at hle
      refine ⟨by simp; omega, by simp [Code.ofInstrs], ?_⟩
      simp only [Lowering.withPending, List.length_cons]
      congr 2
      omega
    · rintro ⟨hle, rfl, rfl⟩
      simp only [List.length_cons] at hle
      refine ⟨_, _, ⟨by omega, rfl, rfl⟩, _, _, ⟨?_, rfl, rfl⟩, by simp [Code.ofInstrs], ?_⟩
      · simp only [Lowering.withPending_frame]
        omega
      · simp only [Lowering.withPending, List.length_cons]
        congr 2
        omega

/-- The code of a call while `pending` words are pushed. -/
def callCode (pending : Nat) (callee : Callee) : Code :=
  if pending % 2 = 1 then
    .ofInstrs [.subImm wordSize .rsp, .call callee, .addImm wordSize .rsp]
  else .ofInstrs [.call callee]

@[simp] theorem runs_call {callee : Callee} {code : Code} :
    Runs (call callee) s code s' ↔ code = callCode s.frame.pending callee ∧ s' = s := by
  simp only [call, runs_bind, runs_frame, callCode]
  constructor
  · rintro ⟨_, _, ⟨rfl, rfl⟩, h⟩
    split_ifs at h ⊢ <;> exact runs_pure.1 h
  · rintro ⟨rfl, rfl⟩
    refine ⟨_, _, ⟨rfl, rfl⟩, ?_⟩
    split_ifs <;> simp

theorem runs_inLoop {α : Type} {labels : LoopLabels} {body : Lower α} {a : α} :
    Runs (inLoop labels body) s a s' ↔
      ∃ t, Runs body (s.withFrame (s.frame.enterLoop labels)) a t ∧
        s' = t.withFrame t.frame.exitLoop := by
  show ((let (r, t) := outcome body (s.withFrame (s.frame.enterLoop labels))
    (r, t.withFrame (t.frame.afterBody r))) : Except Halt α × Lowering) = (.ok a, s') ↔ _
  unfold Runs
  rcases outcome body (s.withFrame (s.frame.enterLoop labels)) with ⟨r, t⟩
  simp only [Prod.mk.injEq]
  constructor
  · rintro ⟨rfl, rfl⟩
    exact ⟨t, ⟨rfl, rfl⟩, rfl⟩
  · rintro ⟨_, ⟨rfl, rfl⟩, rfl⟩
    exact ⟨rfl, rfl⟩

/-- The code that clears the slots of a new record. -/
def clearCode (base count : Nat) : Code :=
  (List.range count).map fun index => .instr (.storeZero (base - index * wordSize))

theorem runs_clearSlots {base count : Nat} {code : Code} :
    Runs (clearSlots base count) s code s' ↔
      (∀ index < count, index * wordSize ≤ base) ∧ code = clearCode base count ∧ s' = s := by
  have key : ∀ (is : List Nat) (s s' : Lowering) (code : Code),
      Runs (is.mapM fun index => do
        let slot ← slotAbove base index
        return Line.instr (.storeZero slot)) s code s' ↔
      (∀ index ∈ is, index * wordSize ≤ base) ∧
        code = is.map (fun index => .instr (.storeZero (base - index * wordSize))) ∧ s' = s := by
    intro is
    induction is with
    | nil => simp
    | cons i is ih =>
      intro s s' code
      simp only [List.mapM_cons, runs_bind, runs_slotAbove, runs_pure, ih]
      constructor
      · rintro ⟨_, _, ⟨_, _, ⟨hi, rfl, rfl⟩, rfl, rfl⟩, _, _, ⟨his, rfl, rfl⟩, rfl, rfl⟩
        exact ⟨by simpa using ⟨hi, his⟩, by simp, rfl⟩
      · rintro ⟨h, rfl, rfl⟩
        simp only [List.mem_cons, forall_eq_or_imp] at h
        exact ⟨_, _, ⟨_, _, ⟨h.1, rfl, rfl⟩, rfl, rfl⟩, _, _, ⟨h.2, rfl, rfl⟩, by simp, rfl⟩
  rw [clearSlots, key, clearCode]
  simp

end Lower

end WordLang
