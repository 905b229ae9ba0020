import WordLang.Proofs.Assembly
import WordLang.Proofs.Growth

/-!
# Variables and literals

A function declares its parameters and, from left to right, the variables of its body, also those
inside branches and loops. When it is lowered its frame holds exactly these, in this order, and the
slots of a variable are those that its type asks for. The literals of a program are listed the same
way, from left to right.
-/
namespace WordLang

open Asm

/-- Names of variables; a record has the name of its type. -/
abbrev Scope := Table (Option String)

def VarKind.typeName? : VarKind → Option String
  | .scalar | .string => none
  | .record typeName _ => some typeName

theorem VarKind.isWord_iff {kind : VarKind} : kind.IsWord ↔ kind.typeName? = none := by
  cases kind <;> simp [IsWord, typeName?]

namespace Expr

mutual

/-- The string literals of an expression, in order. -/
def literals : Expr → List String
  | .str text => [text]
  | .int _ | .ident _ | .field _ _ => []
  | .binary _ lhs rhs | .compare _ lhs rhs => lhs.literals ++ rhs.literals
  | .call _ args => argsLiterals args

def argsLiterals : List Expr → List String
  | [] => []
  | arg :: args => arg.literals ++ argsLiterals args

end

end Expr

namespace Stmt

mutual

/-- The variables that a statement declares, in order. -/
def locals : Stmt → Scope
  | .declare name _ => [(name, none)]
  | .declareRecord name typeName => [(name, some typeName)]
  | .branch _ thenBody elseBody => blockLocals thenBody ++ blockLocals elseBody
  | .loop _ body => blockLocals body
  | .set .. | .setField .. | .ret _ | .print _ | .eval _ | .leave | .again => []

def blockLocals : List Stmt → Scope
  | [] => []
  | stmt :: stmts => stmt.locals ++ blockLocals stmts

end

mutual

def literals : Stmt → List String
  | .declare _ value | .set _ value | .setField _ _ value | .print value | .eval value =>
    value.literals
  | .ret value => value.elim [] Expr.literals
  | .branch cond thenBody elseBody =>
    cond.literals ++ blockLiterals thenBody ++ blockLiterals elseBody
  | .loop cond body => cond.literals ++ blockLiterals body
  | .declareRecord _ _ | .leave | .again => []

def blockLiterals : List Stmt → List String
  | [] => []
  | stmt :: stmts => stmt.literals ++ blockLiterals stmts

end

end Stmt

/-- The variables of a function, in the order of their declarations. -/
def FunctionDecl.locals (f : FunctionDecl) : Scope :=
  f.params.map (·, none) ++ Stmt.blockLocals f.body

/-- The string literals of a program, in order. -/
def Program.literals (p : Program) : List String :=
  p.functions.flatMap fun f => Stmt.blockLiterals f.body

namespace Declarations

/-- Slots of a variable, by its record type. -/
def slots (decls : Declarations) : Option String → Nat
  | none => 1
  | some typeName => ((decls.types.find? typeName).map RecordDecl.slots).getD 0

/-- Slots of all variables in scope. -/
def slotCount (decls : Declarations) (scope : Scope) : Nat :=
  (scope.map fun v => decls.slots v.2).sum

/-- Position of a field in the record that a variable stands for. -/
def fieldIndex? (decls : Declarations) (scope : Scope) (name field : String) : Option Nat := do
  let typeName ← (scope.find? name).join
  let decl ← decls.types.find? typeName
  decl.fieldIndex? field

end Declarations

namespace Frame

def scope (frame : Frame) : Scope := frame.vars.map fun v => (v.1, v.2.kind.typeName?)

/-- Variables are laid out one below the other, each with the slots that its type asks for. -/
structure Sound (decls : Declarations) (frame : Frame) : Prop where
  laid : frame.Laid
  slots : ∀ v ∈ frame.vars, v.2.kind.slots = decls.slots v.2.kind.typeName?

end Frame

theorem Declarations.slots_of_find? {decls : Declarations} {typeName : String} {decl : RecordDecl}
    (h : decls.types.find? typeName = some decl) : decls.slots (some typeName) = decl.slots := by
  simp [slots, h]

theorem RecordDecl.slots_pos (decl : RecordDecl) : 0 < decl.slots := by
  unfold slots
  omega

theorem Table.find?_map {α β : Type} (g : α → β) (t : Table α) (name : String) :
    Table.find? (t.map fun v => (v.1, g v.2)) name = (t.find? name).map g := by
  induction t with
  | nil => rfl
  | cons entry t ih =>
    obtain ⟨key, value⟩ := entry
    simp only [List.map_cons, Table.find?, ih]
    split_ifs <;> rfl

namespace Frame

variable {decls : Declarations} {frame frame' : Frame}

theorem find?_scope (frame : Frame) (name : String) :
    frame.scope.find? name = (frame.vars.find? name).map fun v => v.kind.typeName? :=
  Table.find?_map (fun v : Variable => v.kind.typeName?) frame.vars name

theorem Sound.slotCount_eq (h : frame.Sound decls) :
    slotCount frame.vars = decls.slotCount frame.scope := by
  unfold slotCount Declarations.slotCount scope
  rw [List.map_map]
  exact congrArg List.sum (List.map_congr_left h.slots)

/-- The slots of a record are those of its type. -/
theorem Sound.record_slots (h : frame.Sound decls) {name typeName : String} {offset slots : Nat}
    (hv : frame.vars.find? name = some ⟨offset, .record typeName slots⟩) :
    slots = decls.slots (some typeName) :=
  h.slots _ (Table.mem_of_find? hv)

theorem Sound.wordSlot_iff (h : frame.Sound decls) {name : String} {slot : Nat} :
    frame.WordSlot name slot ↔
      frame.scope.find? name = some none ∧ SlotAt frame.vars name 0 slot := by
  rw [find?_scope]
  constructor
  · rintro ⟨kind, hv, hk⟩
    have hpos := (h.laid.placed.offset_bounds hv).1
    exact ⟨by simp [hv, VarKind.isWord_iff.1 hk], _, hv, hpos, by simp⟩
  · rintro ⟨hn, ⟨offset, kind⟩, hv, -, rfl⟩
    refine ⟨kind, by simpa using hv, VarKind.isWord_iff.2 ?_⟩
    simpa [hv] using hn

theorem Sound.fieldSlot_iff (h : frame.Sound decls) {name field : String} {slot : Nat} :
    frame.FieldSlot decls name field slot ↔
      ∃ index, decls.fieldIndex? frame.scope name field = some index ∧
        SlotAt frame.vars name index slot := by
  constructor
  · rintro ⟨offset, typeName, slots, decl, index, hv, hd, hi, -, rfl⟩
    have hlt : index < decl.fields.length :=
      (List.idxOf?_eq_some_iff.1 hi).1
    have hs : slots = decl.slots := (h.record_slots hv).trans (decls.slots_of_find? hd)
    refine ⟨index, ?_, _, hv, ?_, rfl⟩
    · simp [Declarations.fieldIndex?, find?_scope, hv, VarKind.typeName?, hd, hi]
    · simp only [VarKind.slots, hs, RecordDecl.slots]
      omega
  · rintro ⟨index, hi, ⟨offset, kind⟩, hv, hlt, rfl⟩
    simp only [Declarations.fieldIndex?, find?_scope, hv, Option.map_some, Option.join_some,
      Option.bind_eq_bind, Option.bind_eq_some_iff] at hi
    obtain ⟨typeName, hk, decl, hd, hi⟩ := hi
    cases kind with
    | scalar | string => simp [VarKind.typeName?] at hk
    | record name' slots =>
      obtain rfl : name' = typeName := by simpa [VarKind.typeName?] using hk
      refine ⟨offset, name', slots, decl, index, hv, hd, hi, ?_, rfl⟩
      obtain ⟨_, below, ho, _⟩ := h.laid.placed.offset_bounds hv
      simp only at ho hlt
      rw [ho]
      exact Nat.mul_le_mul_right _ (by omega)

/-- The first word of a record is the one furthest from the frame pointer. -/
theorem Sound.record_slotAt (h : frame.Sound decls) {name typeName : String} {offset slots : Nat}
    (hv : frame.vars.find? name = some ⟨offset, .record typeName slots⟩) :
    frame.scope.find? name = some (some typeName) ∧ SlotAt frame.vars name 0 offset :=
  ⟨by simp [find?_scope, hv, VarKind.typeName?], _, hv, (h.laid.placed.offset_bounds hv).1, by simp⟩

theorem Sound.declare (h : frame.Sound decls) {name : String} {kind : VarKind} {offset : Nat}
    (hk : 0 < kind.slots) (hs : kind.slots = decls.slots kind.typeName?)
    (hd : frame.declare name kind = .ok (offset, frame')) : frame'.Sound decls := by
  refine ⟨h.laid.declare hk hd, ?_⟩
  obtain ⟨_, _, _, rfl⟩ := declare_eq_ok.1 hd
  simp only [List.mem_append, List.mem_singleton]
  rintro v (hv | rfl)
  · exact h.slots v hv
  · exact hs

theorem scope_declare {name : String} {kind : VarKind} {offset : Nat}
    (hd : frame.declare name kind = .ok (offset, frame')) :
    frame'.scope = frame.scope ++ [(name, kind.typeName?)] := by
  obtain ⟨_, _, _, rfl⟩ := declare_eq_ok.1 hd
  simp [scope]

/-- A new variable's first word is at the offset that its declaration gives. -/
theorem slotAt_declare {name : String} {kind : VarKind} {offset index : Nat}
    (hi : index < kind.slots) (hd : frame.declare name kind = .ok (offset, frame')) :
    SlotAt frame'.vars name index (offset - index * wordSize) := by
  obtain ⟨hn, _, _, rfl⟩ := declare_eq_ok.1 hd
  exact ⟨⟨offset, kind⟩, by simp [hn], hi, rfl⟩

theorem Sound.enterLoop (h : frame.Sound decls) (labels : LoopLabels) :
    (frame.enterLoop labels).Sound decls :=
  ⟨⟨h.laid.slotSize, h.laid.used, h.laid.placed⟩, h.slots⟩

theorem Sound.exitLoop (h : frame.Sound decls) : frame.exitLoop.Sound decls :=
  ⟨⟨h.laid.slotSize, h.laid.used, h.laid.placed⟩, h.slots⟩

theorem Sound.withPending (h : frame.Sound decls) (n : Nat) :
    ({ frame with pending := n } : Frame).Sound decls :=
  ⟨⟨h.laid.slotSize, h.laid.used, h.laid.placed⟩, h.slots⟩

end Frame

namespace Stmt

variable {decls : Declarations}

mutual

theorem Lowers.scope_eq {stmt : Stmt} {s s' : Lowering} {code : Code}
    (h : stmt.Lowers decls s code s') : s'.frame.scope = s.frame.scope ++ stmt.locals := by
  cases h with
  | @declare name value _ _ _ _ _ hv hd =>
    rw [Frame.scope_declare hd.declare_grows.2.2.1, hv.frame_eq, locals]
    unfold Expr.varKind
    split_ifs <;> rfl
  | declareRecord _ hd _ =>
    rw [Frame.scope_declare hd.declare_grows.2.2.1, locals]
    rfl
  | set hv _ | setField hv _ | ret hv | print hv | eval hv => simp [locals, hv.frame_eq]
  | retNone | leave | again => simp [locals]
  | branch hc hb =>
    rw [hb.scope_eq]
    simp [hc.frame_eq, locals, blockLocals]
  | branchElse _ hc hb ho =>
    rw [ho.scope_eq, hb.scope_eq]
    simp [hc.frame_eq, locals]
  | loop hc hb =>
    have h := hb.scope_eq
    simp only [Lowering.withFrame_frame, hc.frame_eq] at h
    exact h

theorem LowersBlock.scope_eq {stmts : List Stmt} {s s' : Lowering} {code : Code}
    (h : LowersBlock decls stmts s code s') :
    s'.frame.scope = s.frame.scope ++ blockLocals stmts := by
  cases h with
  | nil => simp [blockLocals]
  | cons hf hr =>
    rw [hr.scope_eq, hf.scope_eq]
    simp [blockLocals]

end

mutual

theorem Lowers.sound {stmt : Stmt} {s s' : Lowering} {code : Code}
    (h : stmt.Lowers decls s code s') (hs : s.frame.Sound decls) : s'.frame.Sound decls := by
  cases h with
  | @declare name value _ _ _ _ _ hv hd =>
    rw [← hv.frame_eq] at hs
    refine hs.declare ?_ ?_ hd.declare_grows.2.2.1 <;> unfold Expr.varKind <;> split_ifs <;>
      simp [VarKind.slots, Declarations.slots, VarKind.typeName?]
  | declareRecord ht hd _ =>
    refine hs.declare ?_ ?_ hd.declare_grows.2.2.1
    · exact RecordDecl.slots_pos _
    · exact (decls.slots_of_find? ht).symm
  | set hv _ | setField hv _ | ret hv | print hv | eval hv => rwa [hv.frame_eq]
  | retNone | leave | again => exact hs
  | branch hc hb => exact hb.sound (hc.frame_eq ▸ hs)
  | branchElse _ hc hb ho => exact ho.sound (hb.sound (hc.frame_eq ▸ hs))
  | loop hc hb =>
    rw [show s.frame = _ from hc.frame_eq.symm] at hs
    exact (hb.sound (hs.enterLoop _)).exitLoop

theorem LowersBlock.sound {stmts : List Stmt} {s s' : Lowering} {code : Code}
    (h : LowersBlock decls stmts s code s') (hs : s.frame.Sound decls) : s'.frame.Sound decls := by
  cases h with
  | nil => exact hs
  | cons hf hr => exact hr.sound (hf.sound hs)

end

end Stmt

namespace StoresParams

variable {decls : Declarations} {params : List (String × Register)} {s s' : Lowering} {code : Code}

theorem grows (h : StoresParams params s code s') : s.Grows s' ∧ s.frame.Grows s'.frame := by
  induction h with
  | nil s => exact ⟨.refl s, .refl _⟩
  | cons hd _ ih => exact ⟨hd.declare_grows.1.trans ih.1, hd.declare_grows.2.1.trans ih.2⟩

theorem scope_eq (h : StoresParams params s code s') :
    s'.frame.scope = s.frame.scope ++ params.map fun param => (param.1, none) := by
  induction h with
  | nil => simp
  | cons hd _ ih =>
    rw [ih, Frame.scope_declare hd.declare_grows.2.2.1]
    simp [VarKind.typeName?]

theorem sound (h : StoresParams params s code s') (hs : s.frame.Sound decls) :
    s'.frame.Sound decls := by
  induction h with
  | nil => exact hs
  | cons hd _ ih =>
    exact ih (hs.declare (by simp [VarKind.slots]) rfl hd.declare_grows.2.2.1)

end StoresParams

namespace FunctionDecl

variable {limits : Limits} {decls : Declarations} {f : FunctionDecl} {s s' : Lowering}
  {r : Routine}

theorem sound_enter (limits : Limits) (decls : Declarations) (f : FunctionDecl) (s : Lowering) :
    (f.enter limits s).frame.Sound decls :=
  ⟨⟨rfl, rfl, .nil⟩, by simp [enter]⟩

/-- There is a register for each parameter. -/
theorem map_zip_args {α : Type} (hn : f.params.length ≤ Register.args.length) (g : String → α) :
    (f.params.zip Register.args).map (fun param => g param.1) = f.params.map g := by
  conv_rhs => rw [← List.map_fst_zip hn, List.map_map]
  rfl

theorem Lowers.params_scope_eq {params : Code} {s₁ : Lowering}
    (hn : f.params.length ≤ Register.args.length)
    (hp : StoresParams (f.params.zip Register.args) (f.enter limits s) params s₁) :
    s₁.frame.scope = f.params.map (·, none) := by
  rw [hp.scope_eq, map_zip_args hn (·, none)]
  rfl

/-- The frame of a lowered function holds its variables. -/
theorem Lowers.scope_eq (h : f.Lowers limits decls s r s') : s'.frame.scope = f.locals := by
  obtain ⟨hn, params, body, s₁, hp, hb, -⟩ := h
  rw [hb.scope_eq, Lowers.params_scope_eq hn hp, locals]

theorem Lowers.sound (h : f.Lowers limits decls s r s') : s'.frame.Sound decls := by
  obtain ⟨-, params, body, s₁, hp, hb, -⟩ := h
  exact hb.sound (hp.sound (sound_enter limits decls f s))

theorem Lowers.size_eq (h : f.Lowers limits decls s r s') :
    s'.frame.size = wordSize * decls.slotCount f.locals := by
  have hs := h.sound
  rw [hs.laid.size_eq, hs.slotCount_eq, h.scope_eq, Nat.mul_comm]

theorem Lowers.grows (h : f.Lowers limits decls s r s') : s.Grows s' := by
  obtain ⟨-, params, body, s₁, hp, hb, -⟩ := h
  have henter : s.Grows (f.enter limits s) := ⟨rfl, List.prefix_rfl, Nat.le_succ _⟩
  exact (henter.trans hp.grows.1).trans hb.grows

end FunctionDecl

namespace LowersFunctions

variable {limits : Limits} {decls : Declarations} {fs : List FunctionDecl} {s s' : Lowering}
  {rs : List Routine}

theorem grows (h : LowersFunctions limits decls fs s rs s') : s.Grows s' := by
  induction h with
  | nil s => exact .refl s
  | cons hf _ ih => exact hf.grows.trans ⟨ih.capacity, ih.entries, ih.nextLabel⟩

/-- Every function is lowered, and what follows only adds to its literals and labels. -/
theorem exists_of_mem (h : LowersFunctions limits decls fs s rs s') {f : FunctionDecl}
    (hf : f ∈ fs) : ∃ r ∈ rs, ∃ s₁ s₂, f.Lowers limits decls s₁ r s₂ ∧ s₂.Grows s' := by
  induction h with
  | nil => cases hf
  | cons hl hr ih =>
    rcases List.mem_cons.1 hf with rfl | hf
    · have hg := hr.grows
      exact ⟨_, List.mem_cons_self, _, _, hl, hg.capacity, hg.entries, hg.nextLabel⟩
    · obtain ⟨r, hr, hlowers⟩ := ih hf
      exact ⟨r, List.mem_cons_of_mem _ hr, hlowers⟩

end LowersFunctions

end WordLang
