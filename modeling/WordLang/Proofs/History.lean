import WordLang.Proofs.Listing
import WordLang.Proofs.Primitives

/-!
# Histories of a generator

A generator can be asked for one thing after another, and each request may fail. What a request
leaves behind is then what the next one starts from: labels and literals are only added, and what
was written is followed by further complete parts, in which every jump stays inside its function.
-/
namespace WordLang

open Asm

/-! ## Lowering adds to its state also when it fails -/

theorem Lower.Built.leads_grows {decls : Declarations} {words : Words} {α : Type} {m : Lower α}
    (h : Built decls words m) : Leads Lowering.Grows m :=
  fun s => (h.leads s).grows

theorem FunctionDecl.leads_lower (limits : Limits) (decls : Declarations) (f : FunctionDecl) :
    Leads Lowering.Grows (f.lower limits decls) := by
  intro s
  rw [f.outcome_lower limits decls s]
  split
  · exact ⟨rfl, List.prefix_rfl, Nat.le_refl _⟩
  · have henter : s.Grows (f.enter limits s) := ⟨rfl, List.prefix_rfl, Nat.le_succ _⟩
    exact henter.trans ((f.built_fill decls _).leads_grows _)

/-! ## What a generator writes -/

def Part.code : Part → Code
  | .function r => r.code
  | .textSection | .literals _ | .stackNote => []

/-- Every jump of the part goes to one of its own labels. -/
def Part.Closed (part : Part) : Prop :=
  ∀ i n, .instr i ∈ part.code → i.target? = some n → n ∈ part.code.labels

theorem Asm.Instr.target?_eq_some {i : Instr} {n : Nat} :
    i.target? = some n ↔ i = .jmp n ∨ i = .je n ∨ i = .jne n := by
  cases i <;> simp [target?]

/-- The jumps of a function stay inside it. -/
theorem FunctionDecl.Lowers.closed {limits : Limits} {decls : Declarations} {f : FunctionDecl}
    {s s' : Lowering} {r : Routine} (h : f.Lowers limits decls s r s') :
    (Part.function r).Closed := by
  obtain ⟨work, exit, hbody, -, hscans⟩ := h.exists_scans
  generalize work ++ [Line.label exit] = main at hbody hscans
  intro i n hi hn
  have hcode : (Part.function r).code =
      Code.ofInstrs r.prologue ++ (main ++ Code.ofInstrs Routine.epilogue) := by
    rw [Part.code, Routine.code, hbody]
  have hmain : Line.instr i ∈ main := by
    have hprologue : Line.instr i ∉ Code.ofInstrs r.prologue := by
      unfold Routine.prologue
      rcases Instr.target?_eq_some.1 hn with rfl | rfl | rfl <;>
        split <;> simp [Code.ofInstrs]
    have hepilogue : Line.instr i ∉ Code.ofInstrs Routine.epilogue := by
      rcases Instr.target?_eq_some.1 hn with rfl | rfl | rfl <;>
        simp [Code.ofInstrs, Routine.epilogue]
    rw [hcode, List.mem_append, List.mem_append] at hi
    exact (hi.resolve_left hprologue).resolve_right hepilogue
  -- The scan of the body finds the label at the height of the jump.
  rw [← Code.map_snd_heights 0 main, List.mem_map] at hmain
  obtain ⟨⟨k, _⟩, hk, rfl⟩ := hmain
  have hlabel : (k, .label n) ∈ Code.heights 0 main := by
    rcases hscans.jumps k i n hk hn with ⟨hlabel, -⟩ | ⟨-, hout⟩
    · exact hlabel
    · exact hout.elim
  have hmem : Line.label n ∈ main := by
    rw [← Code.map_snd_heights 0 main]
    exact List.mem_map_of_mem hlabel
  rw [hcode, Code.mem_labels]
  exact List.mem_append_right _ (List.mem_append_left _ hmem)

namespace Generator

/-- The sink takes everything, and declared functions have identifiers for names. -/
structure Ready (g : Generator) : Prop where
  unbounded : g.sink.capacity = none
  identifiers : g.declarations.Identifiers

/-- On the way from `g` to `g'` the parts are written, with labels that are handed out on it. -/
structure Writes (g : Generator) (parts : List Part) (g' : Generator) : Prop where
  stored : g'.sink.stored = g.sink.stored ++ utf8 (unlines (parts.flatMap Part.rows))
  nextLabel_le : g.lowering.nextLabel ≤ g'.lowering.nextLabel
  labelsIn : Code.LabelsIn g.lowering.nextLabel g'.lowering.nextLabel (parts.flatMap Part.code)
  closed : ∀ part ∈ parts, part.Closed
  wellNamed : ∀ part ∈ parts, part.WellNamed

theorem Writes.none {g g' : Generator} (hs : g'.sink = g.sink)
    (hl : g.lowering.nextLabel ≤ g'.lowering.nextLabel) : g.Writes [] g' where
  stored := by simp [hs, unlines, utf8]
  nextLabel_le := hl
  labelsIn := Code.labelsIn_none _ _ rfl
  closed := by simp
  wellNamed := by simp

theorem Writes.trans {g g₁ g' : Generator} {parts parts' : List Part} (h : g.Writes parts g₁)
    (h' : g₁.Writes parts' g') : g.Writes (parts ++ parts') g' where
  stored := by simp [h'.stored, h.stored]
  nextLabel_le := Nat.le_trans h.nextLabel_le h'.nextLabel_le
  labelsIn := by
    rw [List.flatMap_append]
    exact h.labelsIn.append h'.labelsIn h.nextLabel_le h'.nextLabel_le
  closed := List.forall_mem_append.2 ⟨h.closed, h'.closed⟩
  wellNamed := List.forall_mem_append.2 ⟨h.wellNamed, h'.wellNamed⟩

/-- A generator that is ready writes complete parts and stays ready. -/
def Advances (g g' : Generator) : Prop := g.Ready → g'.Ready ∧ ∃ parts, g.Writes parts g'

instance : IsPreorder Generator Advances where
  refl g hg := ⟨hg, [], .none rfl (Nat.le_refl _)⟩
  trans g g₁ g' h h' hg := by
    obtain ⟨hg₁, parts, hw⟩ := h hg
    obtain ⟨hg', parts', hw'⟩ := h' hg₁
    exact ⟨hg', parts ++ parts', hw.trans hw'⟩

end Generator

namespace Generate

open Generator

theorem leads_ofLower {α : Type} {m : Lower α} (h : Leads Lowering.Grows m) :
    Leads Advances (ofLower m) := by
  intro g hg
  rw [outcome_ofLower]
  exact ⟨⟨hg.unbounded, hg.identifiers⟩, [], .none rfl (h g.lowering).nextLabel⟩

theorem leads_note (e : Event) : Leads Advances (ofLower (Lower.note e)) :=
  leads_ofLower fun _ => ⟨rfl, List.prefix_rfl, Nat.le_refl _⟩

theorem leads_write (part : Part) (hc : part.code = []) (hn : part.WellNamed) :
    Leads Advances (write (unlines part.rows)) := by
  intro g hg
  have hruns : Runs (write (unlines part.rows)) g () _ := (runs_write hg.unbounded).2 rfl
  rw [show (outcome (write (unlines part.rows)) g).2 = _ from congrArg Prod.snd hruns]
  refine ⟨⟨hg.unbounded, hg.identifiers⟩, [part], ?_⟩
  exact {
    stored := by simp
    nextLabel_le := Nat.le_refl _
    labelsIn := Code.labelsIn_none _ _ (by simp [hc])
    closed := by simp [Part.Closed, hc]
    wellNamed := by simpa using hn }

theorem leads_declareType (decl : RecordDecl) : Leads Advances (declareType decl) := by
  intro g hg
  rw [outcome_declareType]
  exact ⟨⟨hg.unbounded, hg.identifiers⟩, [], .none rfl (Nat.le_refl _)⟩

theorem leads_declareFunction {f : FunctionDecl} (hf : IsIdentifier f.name) :
    Leads Advances (declareFunction f) := by
  intro g hg
  rw [outcome_declareFunction]
  refine ⟨⟨hg.unbounded, ?_⟩, [], .none rfl (Nat.le_refl _)⟩
  intro name hname
  rw [Table.find?_put] at hname
  split at hname
  · next he => exact he ▸ hf
  · exact hg.identifiers name hname

/-- A function that cannot be lowered leaves nothing in the sink. -/
theorem leads_function {f : FunctionDecl} (hf : IsIdentifier f.name) :
    Leads Advances (Generate.function f) := by
  intro g hg
  have hgrows := f.leads_lower g.limits g.declarations g.lowering
  rcases houtcome : outcome (f.lower g.limits g.declarations) g.lowering with ⟨e | r, t⟩
  · have hstate : (outcome (Generate.function f) g).2 = { g with lowering := t } := by
      unfold Generate.function
      rw [outcome_bind]
      show (outcome (ofLower (f.lower g.limits g.declarations) >>= _) g).2 = _
      rw [outcome_bind, outcome_ofLower, houtcome]
    rw [houtcome] at hgrows
    rw [hstate]
    exact ⟨⟨hg.unbounded, hg.identifiers⟩, [], .none rfl hgrows.nextLabel⟩
  · have hlowers : f.Lowers g.limits g.declarations g.lowering r t :=
      FunctionDecl.runs_lower_iff.1 houtcome
    have hruns := (runs_function (u := ()) hg.unbounded).2 ⟨r, t, hlowers, rfl⟩
    rw [show (outcome (Generate.function f) g).2 = _ from congrArg Prod.snd hruns]
    refine ⟨⟨hg.unbounded, hg.identifiers⟩, [.function r], ?_⟩
    exact {
      stored := by simp [r.text_eq_unlines, Part.rows]
      nextLabel_le := hlowers.grows.nextLabel
      labelsIn := by simpa [Part.code] using hlowers.labelsIn
      closed := by simpa using hlowers.closed
      wellNamed := by simpa using hlowers.wellNamed hf hg.identifiers }

/-- A function is generated by lowering it, writing and logging. -/
theorem leads_function_of {R : Generator → Generator → Prop} [IsPreorder Generator R]
    {f : FunctionDecl}
    (hlower : ∀ g : Generator,
      R g { g with lowering := (outcome (f.lower g.limits g.declarations) g.lowering).2 })
    (hwrite : ∀ text, Leads R (write text)) (hlog : ∀ e, Leads R (ofLower (Lower.note e))) :
    Leads R (Generate.function f) := by
  intro g
  rw [outcome_function]
  refine leads_bind_at ?_ fun r => (hwrite r.text).bind fun _ => leads_get.bind fun _ => hlog _
  rw [outcome_ofLower]
  exact hlower g

/-- A program is generated by declaring, writing and logging, and by generating its functions. -/
theorem leads_program_of {R : Generator → Generator → Prop} [IsPreorder Generator R] {p : Program}
    (htypes : ∀ decl ∈ p.types, Leads R (declareType decl))
    (hdeclare : ∀ f ∈ p.functions, Leads R (declareFunction f))
    (htext : Leads R (write textSection))
    (hfunctions : ∀ f ∈ p.functions, Leads R (Generate.function f))
    (hliterals : ∀ pool : StringPool, ¬ pool.isEmpty → Leads R (write ("\n" ++ pool.rodata)))
    (hnote : Leads R (write stackNote)) (hlog : ∀ e, Leads R (ofLower (Lower.note e))) :
    Leads R (program p) := by
  refine (leads_forM htypes).bind fun _ => (leads_forM hdeclare).bind fun _ => ?_
  refine htext.bind fun _ => (leads_forM hfunctions).bind fun _ => leads_get.bind fun g => ?_
  have hclose : Leads R (close p.functions.length g.lowering.pool.size) :=
    hnote.bind fun _ => leads_get.bind fun _ => hlog _
  by_cases he : g.lowering.pool.isEmpty
  · simpa [he] using hclose
  · simpa [he] using (hliterals _ he).bind fun _ => hclose

theorem leads_program {p : Program} (hn : ∀ f ∈ p.functions, IsIdentifier f.name) :
    Leads Advances (program p) := by
  refine leads_program_of (fun decl _ => leads_declareType decl)
    (fun f hf => leads_declareFunction (hn f hf)) (leads_write .textSection rfl trivial)
    (fun f hf => leads_function (hn f hf)) (fun pool he => ?_)
    (leads_write .stackNote rfl trivial) leads_note
  have hrows := pool.rodata_eq_unlines
  rw [if_neg he] at hrows
  rw [hrows]
  exact leads_write (.literals pool) rfl trivial

end Generate

/-! ## Requests -/

/-- What a generator can be asked for. -/
inductive Request where
  | program (p : Program)
  | function (f : FunctionDecl)
  | stmt (s : Stmt)
  | expr (e : Expr)

namespace Request

def action : Request → Generate Unit
  | .program p => Generate.program p
  | .function f => Generate.function f
  | .stmt s => Generate.stmt s
  | .expr e => Generate.expr e

/-- The names of the functions that are to be generated. -/
def functionNames : Request → List String
  | .program p => p.functions.map (·.name)
  | .function f => [f.name]
  | .stmt _ | .expr _ => []

theorem leads_action {request : Request} (h : ∀ name ∈ request.functionNames, IsIdentifier name) :
    Leads Generator.Advances request.action := by
  cases request with
  | program p =>
    apply Generate.leads_program
    intro f hf
    exact h f.name (List.mem_map_of_mem hf)
  | function f => exact Generate.leads_function (h f.name (List.mem_singleton_self _))
  | stmt s =>
    exact leads_get.bind fun _ =>
      (Generate.leads_ofLower (s.built_lower _).leads_grows).bind fun _ => leads_pure _
  | expr e =>
    exact leads_get.bind fun _ =>
      (Generate.leads_ofLower (e.built_lower _).leads_grows).bind fun _ => leads_pure _

end Request

namespace Generator

/-- The generator after requests that were made one after another, whether they failed or not. -/
def after (g : Generator) (requests : List Request) : Generator :=
  requests.foldl (fun g request => (outcome request.action g).2) g

theorem advances_after {requests : List Request} (g : Generator)
    (h : ∀ request ∈ requests, ∀ name ∈ request.functionNames, IsIdentifier name) :
    g.Advances (g.after requests) := by
  induction requests generalizing g with
  | nil => exact refl_of Advances g
  | cons request requests ih =>
    rw [List.forall_mem_cons] at h
    exact trans_of Advances (request.leads_action h.1 g) (ih _ h.2)

/-- All that a new generator has written, whatever it was asked for. -/
theorem exists_writes_after (limits : Limits) {requests : List Request}
    (h : ∀ request ∈ requests, ∀ name ∈ request.functionNames, IsIdentifier name) :
    ∃ parts, (Generator.new limits {}).Writes parts ((Generator.new limits {}).after requests) := by
  have hready : (Generator.new limits {}).Ready := ⟨rfl, by
    intro name hname
    simp [Generator.new, Table.find?] at hname⟩
  exact (advances_after _ h hready).2

end Generator

end WordLang
