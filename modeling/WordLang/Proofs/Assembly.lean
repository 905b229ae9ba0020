import Mathlib.Data.List.Forall2
import WordLang.Generator
import WordLang.Proofs.Layout
import WordLang.Proofs.Lowers

/-!
# Generation as a relation

Generating a program by a fresh generator succeeds exactly if the names of its types and functions
are distinct and its functions can be lowered one after another. What is written then is the text
of the assembled program: its routines and its string literals.
-/
namespace WordLang

open Asm

/-- The routines and the string literals of a program. -/
structure Assembly where
  routines : List Routine
  pool : StringPool

/-- The text of an assembled program. -/
def Assembly.text (a : Assembly) : String :=
  Generate.textSection ++ String.join (a.routines.map Routine.text) ++
    (if a.pool.isEmpty then "" else "\n" ++ a.pool.rodata) ++ Generate.stackNote

namespace Program

/-- The declarations of a program whose names are distinct. -/
def declarations (p : Program) : Declarations where
  functions := p.functions.map fun f => (f.name, f.params.length)
  types := p.types.map fun decl => (decl.name, decl)

/-- Generation by a fresh generator whose sink never fails. -/
def generate (limits : Limits) (p : Program) : Except Halt Unit × Generator :=
  outcome (Generate.program p) (Generator.new limits {})

/-- Generation succeeds. -/
def Accepted (limits : Limits) (p : Program) : Prop := (p.generate limits).1 = .ok ()

instance (limits : Limits) (p : Program) : Decidable (p.Accepted limits) :=
  match h : (p.generate limits).1 with
  | .ok () => .isTrue h
  | .error _ => .isFalse fun ha => nomatch h.symm.trans ha

/-- What a fresh generator writes for a program. -/
def written (limits : Limits) (p : Program) : List UInt8 := (p.generate limits).2.sink.stored

end Program

/-- The variables of a frame with their offsets. -/
def Frame.offsets (frame : Frame) : List (String × Nat) :=
  frame.vars.map fun (name, var) => (name, var.offset)

/-- Functions are lowered one after another, each in the state that the one before it left. -/
inductive LowersFunctions (limits : Limits) (decls : Declarations) :
    List FunctionDecl → Lowering → List Routine → Lowering → Prop where
  | nil (s : Lowering) : LowersFunctions limits decls [] s [] s
  | cons {f : FunctionDecl} {fs : List FunctionDecl} {s s₁ s' : Lowering} {r : Routine}
      {rs : List Routine} :
      f.Lowers limits decls s r s₁ →
      LowersFunctions limits decls fs (s₁.logged (.laidOut f.name s₁.frame.offsets)) rs s' →
      LowersFunctions limits decls (f :: fs) s (r :: rs) s'

/-- The program is assembled to `a`. -/
structure Program.Assembles (limits : Limits) (p : Program) (a : Assembly) : Prop where
  types_nodup : (p.types.map (·.name)).Nodup
  functions_nodup : (p.functions.map (·.name)).Nodup
  exists_lowers : ∃ s', LowersFunctions limits p.declarations p.functions
    (Generator.new limits {}).lowering a.routines s' ∧ s'.pool = a.pool

/-- Every routine is the lowered form of its function. -/
theorem LowersFunctions.forall₂ {limits : Limits} {decls : Declarations} {fs : List FunctionDecl}
    {s s' : Lowering} {rs : List Routine} (h : LowersFunctions limits decls fs s rs s') :
    List.Forall₂ (fun f r => ∃ s s', f.Lowers limits decls s r s') fs rs := by
  induction h with
  | nil => exact .nil
  | cons hf _ ih => exact .cons ⟨_, _, hf⟩ ih

theorem Program.Assembles.forall₂ {limits : Limits} {p : Program} {a : Assembly}
    (h : p.Assembles limits a) :
    List.Forall₂ (fun f r => ∃ s s', f.Lowers limits p.declarations s r s') p.functions
      a.routines := by
  obtain ⟨_, hl, _⟩ := h.exists_lowers
  exact hl.forall₂

theorem Program.Assembles.exists_function {limits : Limits} {p : Program} {a : Assembly}
    (h : p.Assembles limits a) {r : Routine} (hr : r ∈ a.routines) :
    ∃ f ∈ p.functions, ∃ s s', f.Lowers limits p.declarations s r s' := by
  have hall := h.forall₂
  generalize p.functions = fs, a.routines = rs at hall hr ⊢
  induction hall with
  | nil => simp at hr
  | cons hf _ ih =>
    rcases List.mem_cons.1 hr with rfl | hr
    · exact ⟨_, List.mem_cons_self, hf⟩
    · obtain ⟨f, hm, hlowers⟩ := ih hr
      exact ⟨f, List.mem_cons_of_mem _ hm, hlowers⟩

/-- What holds of the names of functions holds of the names of routines. -/
theorem Program.Assembles.name_of_routine {limits : Limits} {p : Program} {a : Assembly}
    {P : String → Prop} (h : p.Assembles limits a) (hn : ∀ f ∈ p.functions, P f.name)
    {r : Routine} (hr : r ∈ a.routines) : P r.name := by
  obtain ⟨f, hf, _, _, hlowers⟩ := h.exists_function hr
  exact hlowers.name_eq ▸ hn f hf

namespace Program

variable {p : Program}

theorem find?_types (hd : (p.types.map (·.name)).Nodup) {name : String} {decl : RecordDecl} :
    p.declarations.types.find? name = some decl ↔ decl ∈ p.types ∧ decl.name = name := by
  constructor
  · intro h
    obtain ⟨_, hm, he⟩ := List.mem_map.1 (Table.mem_of_find? h)
    cases he
    exact ⟨hm, rfl⟩
  · rintro ⟨hm, rfl⟩
    refine Table.find?_of_mem ?_ (List.mem_map.2 ⟨decl, hm, rfl⟩)
    rw [declarations, List.map_map]
    exact hd

theorem find?_functions (hd : (p.functions.map (·.name)).Nodup) {name : String} {count : Nat} :
    p.declarations.functions.find? name = some count ↔
      ∃ f ∈ p.functions, f.name = name ∧ f.params.length = count := by
  constructor
  · intro h
    obtain ⟨f, hm, he⟩ := List.mem_map.1 (Table.mem_of_find? h)
    cases he
    exact ⟨f, hm, rfl, rfl⟩
  · rintro ⟨f, hm, rfl, rfl⟩
    refine Table.find?_of_mem ?_ (List.mem_map.2 ⟨f, hm, rfl⟩)
    rw [declarations, List.map_map]
    exact hd

theorem find?_functions_eq_none {name : String} :
    p.declarations.functions.find? name = none ↔ ∀ f ∈ p.functions, f.name ≠ name := by
  simp [Table.find?_eq_none_iff, declarations]

end Program

@[simp] theorem utf8_append (a b : String) : utf8 (a ++ b) = utf8 a ++ utf8 b := by
  simp [utf8, String.toUTF8]

namespace Generate

variable {g g' : Generator} {α : Type}

theorem outcome_ofLower (m : Lower α) (g : Generator) :
    outcome (ofLower m) g =
      ((outcome m g.lowering).1, { g with lowering := (outcome m g.lowering).2 }) := by
  unfold ofLower
  rw [outcome_bind]
  show outcome _ g = _
  unfold outcome
  rcases ExceptT.run m g.lowering with ⟨_ | a, t⟩ <;> rfl

/-- Of a statement only what it does to the state is kept. -/
theorem outcome_stmt (s : Stmt) (g : Generator) :
    outcome (Generate.stmt s) g =
      ((outcome (s.lower g.declarations) g.lowering).1.map fun _ => (),
        { g with lowering := (outcome (s.lower g.declarations) g.lowering).2 }) := by
  have hget : outcome (get : Generate Generator) g = (.ok g, g) := rfl
  unfold Generate.stmt
  rw [outcome_bind, hget]
  show outcome (ofLower (s.lower g.declarations) >>= fun _ => pure ()) g = _
  rw [outcome_bind, outcome_ofLower]
  rcases outcome (s.lower g.declarations) g.lowering with ⟨_ | code, t⟩ <;> rfl

theorem outcome_expr (e : Expr) (g : Generator) :
    outcome (Generate.expr e) g =
      ((outcome (e.lower g.declarations) g.lowering).1.map fun _ => (),
        { g with lowering := (outcome (e.lower g.declarations) g.lowering).2 }) := by
  have hget : outcome (get : Generate Generator) g = (.ok g, g) := rfl
  unfold Generate.expr
  rw [outcome_bind, hget]
  show outcome (ofLower (e.lower g.declarations) >>= fun _ => pure ()) g = _
  rw [outcome_bind, outcome_ofLower]
  rcases outcome (e.lower g.declarations) g.lowering with ⟨_ | code, t⟩ <;> rfl

@[simp] theorem runs_ofLower {m : Lower α} {a : α} :
    Runs (ofLower m) g a g' ↔ ∃ t, Runs m g.lowering a t ∧ g' = { g with lowering := t } := by
  unfold Runs
  rw [outcome_ofLower]
  rcases outcome m g.lowering with ⟨r, t⟩
  simp only [Prod.mk.injEq]
  constructor
  · rintro ⟨rfl, rfl⟩
    exact ⟨t, ⟨rfl, rfl⟩, rfl⟩
  · rintro ⟨_, ⟨rfl, rfl⟩, rfl⟩
    exact ⟨rfl, rfl⟩

@[simp] theorem not_runs_refuse {e : CompileError} {a : α} : ¬ Runs (refuse e) g a g' := by
  simp [refuse]

/-- A sink that fails has stored what fits. -/
theorem outcome_write (text : String) (g : Generator) :
    outcome (write text) g =
      ((g.sink.write (utf8 text)).1.mapError fun e => .refused (.output e),
        { g with sink := (g.sink.write (utf8 text)).2 }) := by
  unfold write
  rw [outcome_bind]
  show outcome _ g = _
  rcases g.sink.write (utf8 text) with ⟨_ | _, sink⟩ <;> rfl

/-- A sink without a bound takes every text. -/
theorem runs_write {text : String} {u : Unit} (hc : g.sink.capacity = none) :
    Runs (write text) g u g' ↔
      g' = { g with sink := { g.sink with stored := g.sink.stored ++ utf8 text } } := by
  unfold Runs
  rw [outcome_write]
  simp [Sink.write, hc, Except.mapError, eq_comm]

/-- A declaration that is there already is refused, and replaced all the same. -/
theorem outcome_record (declarations : Declarations) (known : Bool) (e : CompileError)
    (g : Generator) :
    outcome (record declarations known e) g =
      (if known then .error (.refused e) else .ok (), { g with declarations }) := by
  unfold record
  rw [outcome_bind]
  cases known <;> rfl

theorem outcome_declareType (decl : RecordDecl) (g : Generator) :
    outcome (declareType decl) g =
      (if g.declarations.types.contains decl.name then
          .error (.refused (.duplicateType decl.name)) else .ok (),
        { g with declarations.types := g.declarations.types.put decl.name decl }) := by
  unfold declareType
  rw [outcome_bind]
  exact outcome_record _ _ _ g

theorem outcome_declareFunction (f : FunctionDecl) (g : Generator) :
    outcome (declareFunction f) g =
      (if g.declarations.functions.contains f.name then
          .error (.refused (.duplicateFunction f.name)) else .ok (),
        { g with declarations.functions :=
          g.declarations.functions.put f.name f.params.length }) := by
  unfold declareFunction
  rw [outcome_bind]
  exact outcome_record _ _ _ g

@[simp] theorem runs_record {declarations : Declarations} {known : Bool} {e : CompileError}
    {u : Unit} :
    Runs (record declarations known e) g u g' ↔ known = false ∧ g' = { g with declarations } := by
  unfold Runs
  rw [outcome_record]
  cases known <;> simp [eq_comm]

/-- The generator with one more type. -/
theorem runs_declareType {decl : RecordDecl} {u : Unit} :
    Runs (declareType decl) g u g' ↔
      g.declarations.types.find? decl.name = none ∧
        g' = { g with declarations.types := g.declarations.types ++ [(decl.name, decl)] } := by
  simp only [declareType, runs_bind, runs_get, runs_record, Table.contains,
    Option.isSome_eq_false_iff, Option.isNone_iff_eq_none]
  constructor
  · rintro ⟨_, _, ⟨rfl, rfl⟩, hn, rfl⟩
    exact ⟨hn, by rw [Table.put_of_find?_eq_none hn]⟩
  · rintro ⟨hn, rfl⟩
    exact ⟨_, _, ⟨rfl, rfl⟩, hn, by rw [Table.put_of_find?_eq_none hn]⟩

theorem runs_declareFunction {f : FunctionDecl} {u : Unit} :
    Runs (declareFunction f) g u g' ↔
      g.declarations.functions.find? f.name = none ∧
        g' = { g with declarations.functions :=
          g.declarations.functions ++ [(f.name, f.params.length)] } := by
  simp only [declareFunction, runs_bind, runs_get, runs_record, Table.contains,
    Option.isSome_eq_false_iff, Option.isNone_iff_eq_none]
  constructor
  · rintro ⟨_, _, ⟨rfl, rfl⟩, hn, rfl⟩
    exact ⟨hn, by rw [Table.put_of_find?_eq_none hn]⟩
  · rintro ⟨hn, rfl⟩
    exact ⟨_, _, ⟨rfl, rfl⟩, hn, by rw [Table.put_of_find?_eq_none hn]⟩

/-- Names declared one after another are new each time exactly if they are distinct; `table` is what
a declaration adds to. -/
theorem runs_forM_declare {β : Type} {declare : α → Generate Unit} {name : α → String}
    {entry : α → β} (table : Generator → Table β) (update : Generator → Table β → Generator)
    (hget : ∀ g t, table (update g t) = t) (hset : ∀ g t t', update (update g t) t' = update g t')
    (hsame : ∀ g, update g (table g) = g)
    (hdeclare : ∀ {x u} {g g' : Generator}, Runs (declare x) g u g' ↔
      (table g).find? (name x) = none ∧ g' = update g (table g ++ [(name x, entry x)]))
    {xs : List α} {u : Unit} :
    Runs (xs.forM declare) g u g' ↔
      (xs.map name).Nodup ∧ (∀ x ∈ xs, (table g).find? (name x) = none) ∧
        g' = update g (table g ++ xs.map fun x => (name x, entry x)) := by
  induction xs generalizing g with
  | nil => simp [List.forM, hsame]
  | cons x xs ih =>
    simp only [List.forM, runs_bind, hdeclare, ih]
    simp only [List.map_cons, List.nodup_cons, List.mem_cons, forall_eq_or_imp, List.mem_map,
      not_exists, not_and]
    constructor
    · rintro ⟨_, _, ⟨hn, rfl⟩, hd, hf, rfl⟩
      simp only [hget, Table.find?_append_singleton, Option.or_eq_none_iff] at hf
      refine ⟨⟨?_, hd⟩, ⟨hn, fun y hm => (hf y hm).1⟩, by simp [hget, hset]⟩
      intro y hm he
      simpa [he] using (hf y hm).2
    · rintro ⟨⟨hm, hd⟩, ⟨hn, hf⟩, rfl⟩
      refine ⟨(), _, ⟨hn, rfl⟩, hd, ?_, by simp [hget, hset]⟩
      intro y hy
      have := hm y hy
      simp [hget, hf y hy, Ne.symm this]

theorem runs_declareTypes {decls : List RecordDecl} {u : Unit} :
    Runs (decls.forM declareType) g u g' ↔
      (decls.map (·.name)).Nodup ∧
      (∀ decl ∈ decls, g.declarations.types.find? decl.name = none) ∧
      g' = { g with declarations.types :=
        g.declarations.types ++ decls.map fun decl => (decl.name, decl) } :=
  runs_forM_declare (·.declarations.types) (fun g types => { g with declarations.types := types })
    (fun _ _ => rfl) (fun _ _ _ => rfl) (fun _ => rfl) runs_declareType

theorem runs_declareFunctions {fs : List FunctionDecl} {u : Unit} :
    Runs (fs.forM declareFunction) g u g' ↔
      (fs.map (·.name)).Nodup ∧
      (∀ f ∈ fs, g.declarations.functions.find? f.name = none) ∧
      g' = { g with declarations.functions :=
        g.declarations.functions ++ fs.map fun f => (f.name, f.params.length) } :=
  runs_forM_declare (·.declarations.functions)
    (fun g functions => { g with declarations.functions := functions })
    (fun _ _ => rfl) (fun _ _ _ => rfl) (fun _ => rfl) runs_declareFunction

/-- A function is lowered under the limits and the declarations that the generator has. -/
theorem outcome_function (f : FunctionDecl) (g : Generator) :
    outcome (Generate.function f) g = outcome (do
      let routine ← ofLower (f.lower g.limits g.declarations)
      write routine.text
      let frame := (← get).lowering.frame
      ofLower (Lower.note (.laidOut f.name frame.offsets))) g := by
  have hget : outcome (get : Generate Generator) g = (.ok g, g) := rfl
  unfold Generate.function
  rw [outcome_bind, hget]
  rfl

/-- A function that can be lowered is written as a whole. -/
theorem runs_function {f : FunctionDecl} {u : Unit} (hc : g.sink.capacity = none) :
    Runs (Generate.function f) g u g' ↔
      ∃ r t, f.Lowers g.limits g.declarations g.lowering r t ∧
        g' = { g with
          lowering := t.logged (.laidOut f.name t.frame.offsets)
          sink := { g.sink with stored := g.sink.stored ++ utf8 r.text } } := by
  simp only [Generate.function, runs_bind, runs_get, runs_ofLower, FunctionDecl.runs_lower_iff,
    Lower.runs_note]
  constructor
  · rintro ⟨_, _, ⟨rfl, rfl⟩, r, _, ⟨t, hl, rfl⟩, _, _, hw, _, _, ⟨rfl, rfl⟩, _, rfl, rfl⟩
    rw [runs_write (by exact hc)] at hw
    subst hw
    exact ⟨r, t, hl, rfl⟩
  · rintro ⟨r, t, hl, rfl⟩
    exact ⟨_, _, ⟨rfl, rfl⟩, r, _, ⟨t, hl, rfl⟩, (), _, (runs_write (by exact hc)).2 rfl, _, _,
      ⟨rfl, rfl⟩, _, rfl, rfl⟩

theorem runs_functions {fs : List FunctionDecl} {u : Unit} (hc : g.sink.capacity = none) :
    Runs (fs.forM Generate.function) g u g' ↔
      ∃ rs t, LowersFunctions g.limits g.declarations fs g.lowering rs t ∧
        g' = { g with
          lowering := t
          sink := { g.sink with
            stored := g.sink.stored ++ utf8 (String.join (rs.map Routine.text)) } } := by
  induction fs generalizing g with
  | nil =>
    simp only [List.forM, runs_pure, true_and]
    constructor
    · rintro rfl
      exact ⟨[], _, .nil _, by simp [utf8]⟩
    · rintro ⟨rs, t, h, rfl⟩
      cases h
      simp [utf8]
  | cons f fs ih =>
    simp only [List.forM, runs_bind, runs_function hc]
    constructor
    · rintro ⟨_, _, ⟨r, t, hl, rfl⟩, h⟩
      obtain ⟨rs, t', hls, rfl⟩ := (ih (by exact hc)).1 h
      exact ⟨r :: rs, t', .cons hl hls, by simp⟩
    · rintro ⟨_, t', h, rfl⟩
      cases h with
      | cons hl hls =>
        exact ⟨(), _, ⟨_, _, hl, rfl⟩, (ih (by exact hc)).2 ⟨_, _, hls, by simp⟩⟩

theorem runs_close {functions literals : Nat} {u : Unit} (hc : g.sink.capacity = none) :
    Runs (close functions literals) g u g' ↔
      g' = { g with
        lowering := g.lowering.logged (.generated functions literals g.lowering.nextLabel)
        sink := { g.sink with stored := g.sink.stored ++ utf8 stackNote } } := by
  simp only [close, runs_bind, runs_write hc, runs_get, runs_ofLower, Lower.runs_note]
  constructor
  · rintro ⟨_, _, rfl, _, _, ⟨rfl, rfl⟩, _, rfl, rfl⟩
    rfl
  · rintro rfl
    exact ⟨(), _, rfl, _, _, ⟨rfl, rfl⟩, _, rfl, rfl⟩

/-- The end of a program: the literals and the stack note are written, and the log closed. -/
theorem runs_ending {count : Nat} {u : Unit} (hc : g.sink.capacity = none) :
    Runs (ending count) g u g' ↔
      g' = { g with
        lowering :=
          g.lowering.logged (.generated count g.lowering.pool.size g.lowering.nextLabel)
        sink := { g.sink with
          stored := g.sink.stored ++
            utf8 ((if g.lowering.pool.isEmpty then "" else "\n" ++ g.lowering.pool.rodata) ++
              stackNote) } } := by
  rw [ending, runs_bind]
  simp only [runs_get, exists_eq_left, exists_and_left, and_assoc]
  by_cases he : g.lowering.pool.isEmpty
  · simp [he, runs_close hc, utf8]
  · simp only [he, Bool.not_false, if_true]
    rw [runs_bind]
    constructor
    · rintro ⟨_, _, hw, h⟩
      rw [runs_write hc] at hw
      subst hw
      simpa using (runs_close (by exact hc)).1 h
    · intro h
      exact ⟨(), _, (runs_write hc).2 rfl, (runs_close (by exact hc)).2 (by simpa using h)⟩

/-- All that a successful generation by a fresh generator does. -/
theorem runs_program_new {p : Program} {limits : Limits} {g : Generator} :
    Runs (program p) (Generator.new limits {}) () g ↔
      (p.types.map (·.name)).Nodup ∧ (p.functions.map (·.name)).Nodup ∧
      ∃ rs t, LowersFunctions limits p.declarations p.functions
          (Generator.new limits {}).lowering rs t ∧
        g = { limits
              declarations := p.declarations
              lowering := t.logged (.generated p.functions.length t.pool.size t.nextLabel)
              sink := { stored := utf8 (Assembly.text ⟨rs, t.pool⟩) } } := by
  simp only [program, runs_bind (m := List.forM _ _), runs_bind (m := write textSection),
    runs_declareTypes, runs_declareFunctions]
  constructor
  · rintro ⟨_, _, ⟨ht, -, rfl⟩, _, _, ⟨hf, -, rfl⟩, _, _, hw, _, _, hfs, he⟩
    rw [runs_write rfl] at hw
    subst hw
    obtain ⟨rs, t, hl, rfl⟩ := (runs_functions rfl).1 hfs
    rw [runs_ending rfl] at he
    subst he
    refine ⟨ht, hf, rs, t, hl, ?_⟩
    simp [Assembly.text, Generator.new, Program.declarations]
  · rintro ⟨ht, hf, rs, t, hl, rfl⟩
    refine ⟨(), _, ⟨ht, fun _ _ => rfl, rfl⟩, (), _, ⟨hf, fun _ _ => rfl, rfl⟩, (), _,
      (runs_write rfl).2 rfl, (), _, (runs_functions rfl).2 ⟨rs, t, hl, rfl⟩,
      (runs_ending rfl).2 ?_⟩
    simp [Assembly.text, Generator.new, Program.declarations]

/-- What a successful generation writes is the text of an assembled program. -/
theorem runs_program {p : Program} {limits : Limits} {bytes : List UInt8} :
    (∃ g, Runs (program p) (Generator.new limits {}) () g ∧ g.sink.stored = bytes) ↔
      ∃ a, p.Assembles limits a ∧ bytes = utf8 a.text := by
  simp only [runs_program_new]
  constructor
  · rintro ⟨_, ⟨ht, hf, rs, t, hl, rfl⟩, rfl⟩
    exact ⟨⟨rs, t.pool⟩, ⟨ht, hf, t, hl, rfl⟩, rfl⟩
  · rintro ⟨⟨rs, pool⟩, ⟨ht, hf, t, hl, hp⟩, rfl⟩
    obtain rfl : t.pool = pool := hp
    exact ⟨_, ⟨ht, hf, rs, t, hl, rfl⟩, rfl⟩

end Generate

namespace Program

variable {limits : Limits} {p : Program}

theorem accepted_iff : p.Accepted limits ↔ ∃ a, p.Assembles limits a := by
  constructor
  · intro h
    obtain ⟨a, ha, _⟩ := Generate.runs_program.1
      ⟨(p.generate limits).2, Prod.ext h rfl, rfl⟩
    exact ⟨a, ha⟩
  · rintro ⟨a, ha⟩
    obtain ⟨g, hg, _⟩ := Generate.runs_program.2 ⟨a, ha, rfl⟩
    exact congrArg Prod.fst hg

theorem Assembles.written_eq {a : Assembly} (h : p.Assembles limits a) :
    p.written limits = utf8 a.text := by
  obtain ⟨g, hg, hs⟩ := Generate.runs_program.2 ⟨a, h, rfl⟩
  rw [← hs]
  exact congrArg (fun r => r.2.sink.stored) hg

end Program

/-- A small program with a record, a loop, a division and a call while an operand waits. -/
def halves : Program where
  types := [⟨"Pair", ["count", "total"]⟩]
  functions := [
    ⟨"half", ["n"], [.ret (some (.binary .div (.ident "n") (.int 2)))]⟩,
    ⟨"main", [], [
      .declareRecord "p" "Pair",
      .setField "p" "count" (.int 2),
      .loop (.compare .gt (.field "p" "count") (.int 0)) [
        .setField "p" "total"
          (.binary .add (.field "p" "total") (.call "half" [.field "p" "count"])),
        .setField "p" "count" (.binary .sub (.field "p" "count") (.int 1))],
      .print (.str "done"),
      .ret (some (.field "p" "total"))]⟩]

end WordLang
