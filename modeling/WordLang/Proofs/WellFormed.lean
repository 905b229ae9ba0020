import Mathlib.Data.Finset.Card
import WordLang.Proofs.Primitives

/-!
# Well-formed programs

In a well-formed program names are distinct and declared before they are used, calls have the right
number of arguments, loops are left only from inside, and the limits are kept. This is stated on the
tree alone, and every program that is generated is well formed.
-/
namespace WordLang

open Asm

/-! ## Well-formed programs -/

namespace Program

/-- The variable stands for a record with that field. -/
def HasField (p : Program) (scope : Scope) (name field : String) : Prop :=
  ∃ decl ∈ p.types, (name, some decl.name) ∈ scope ∧ field ∈ decl.fields

/-- A call of that name takes `count` arguments. Functions of the program hide those of the support
library. -/
def HasArity (p : Program) (name : String) (count : Nat) : Prop :=
  (∃ f ∈ p.functions, f.name = name ∧ f.params.length = count) ∨
    (∀ f ∈ p.functions, f.name ≠ name) ∧ ∃ b ∈ Builtin.all, b.name = name ∧ b.arity = count

end Program

namespace Expr

variable (p : Program) (scope : Scope)

mutual

/-- Names are in scope and calls have the right number of arguments. -/
def Valid : Expr → Prop
  | .int _ | .str _ => True
  | .ident name => name ∈ scope.map Prod.fst
  | .binary _ lhs rhs | .compare _ lhs rhs => lhs.Valid ∧ rhs.Valid
  | .call name args => args.length ≤ 6 ∧ p.HasArity name args.length ∧ ArgsValid args
  | .field name part => p.HasField scope name part

def ArgsValid : List Expr → Prop
  | [] => True
  | arg :: args => arg.Valid ∧ ArgsValid args

end

end Expr

namespace Stmt

variable (p : Program)

mutual

/-- Valid after the declarations in `scope`. What a statement declares is visible behind it, also
outside the branch or loop that it stands in. -/
def Valid (scope : Scope) (inLoop : Bool) : Stmt → Prop
  | .declare _ value => value.Valid p scope
  | .declareRecord _ typeName => ∃ decl ∈ p.types, decl.name = typeName
  | .set name value => value.Valid p scope ∧ (name, none) ∈ scope
  | .setField name field value => value.Valid p scope ∧ p.HasField scope name field
  | .ret value => ∀ v ∈ value, v.Valid p scope
  | .branch cond thenBody elseBody =>
    cond.Valid p scope ∧ BlockValid scope inLoop thenBody ∧
      BlockValid (scope ++ blockLocals thenBody) inLoop elseBody
  | .loop cond body => cond.Valid p scope ∧ BlockValid scope true body
  | .print value | .eval value => value.Valid p scope
  | .leave | .again => inLoop = true

def BlockValid (scope : Scope) (inLoop : Bool) : List Stmt → Prop
  | [] => True
  | stmt :: stmts =>
    stmt.Valid scope inLoop ∧ BlockValid (scope ++ stmt.locals) inLoop stmts

end

end Stmt

/-- A function's variables are distinct and within the limit, and its body is valid. -/
structure FunctionDecl.WellScoped (limits : Limits) (p : Program) (f : FunctionDecl) : Prop where
  params_le : f.params.length ≤ 6
  locals_nodup : (f.locals.map Prod.fst).Nodup
  locals_le : f.locals.length ≤ limits.maxVariables
  body_valid : Stmt.BlockValid p (f.params.map (·, none)) false f.body

namespace Program

/-- Names are distinct and all functions are well scoped. -/
structure WellScoped (limits : Limits) (p : Program) : Prop where
  types_nodup : (p.types.map (·.name)).Nodup
  functions_nodup : (p.functions.map (·.name)).Nodup
  functions_wellScoped : ∀ f ∈ p.functions, f.WellScoped limits p

/-- Well scoped, with no more distinct string literals than allowed. -/
structure WellFormed (limits : Limits) (p : Program) : Prop extends p.WellScoped limits where
  literals_le : p.literals.toFinset.card ≤ limits.maxStrings

end Program

/-! ## Names -/

namespace Program

variable {p : Program}

theorem exists_callee_iff (hd : (p.functions.map (·.name)).Nodup) {name : String} {count : Nat} :
    (∃ callee, p.declarations.callee name count = .ok callee) ↔ p.HasArity name count := by
  have hbuiltin : (∃ b, Builtin.find? name = some b ∧ b.arity = count) ↔
      ∃ b ∈ Builtin.all, b.name = name ∧ b.arity = count := by
    have hall : ∀ b ∈ Builtin.all, Builtin.find? b.name = some b := by decide
    constructor
    · rintro ⟨b, hb, hc⟩
      exact ⟨b, List.mem_of_find?_eq_some hb, by simpa using List.find?_some hb, hc⟩
    · rintro ⟨b, hm, rfl, hc⟩
      exact ⟨b, hall b hm, hc⟩
  simp only [Declarations.callee_eq_ok, find?_functions hd, find?_functions_eq_none, hbuiltin]
  unfold HasArity
  constructor
  · rintro ⟨callee, ⟨h, -⟩ | ⟨hn, -, hb⟩⟩
    · exact .inl h
    · exact .inr ⟨hn, hb⟩
  · rintro (h | ⟨hn, hb⟩)
    · exact ⟨_, .inl ⟨h, rfl⟩⟩
    · exact ⟨_, .inr ⟨hn, rfl, hb⟩⟩

end Program

namespace Frame.Sound

variable {p : Program} {frame : Frame}

theorem scope_nodup {decls : Declarations} (h : frame.Sound decls) :
    (frame.scope.map Prod.fst).Nodup := by
  simpa [Frame.scope, Function.comp_def] using h.laid.placed.nodup

theorem exists_wordSlot_iff {decls : Declarations} (h : frame.Sound decls) {name : String} :
    (∃ slot, frame.WordSlot name slot) ↔ (name, none) ∈ frame.scope := by
  constructor
  · rintro ⟨slot, hw⟩
    exact Table.mem_of_find? (h.wordSlot_iff.1 hw).1
  · intro hm
    have hf := Table.find?_of_mem h.scope_nodup hm
    obtain ⟨var, hv, hk⟩ := Option.map_eq_some_iff.1 ((find?_scope frame name).symm.trans hf)
    exact ⟨var.offset, h.wordSlot_iff.2 ⟨hf, var, hv, (h.laid.placed.offset_bounds hv).1, by simp⟩⟩

theorem exists_fieldSlot_iff (h : frame.Sound p.declarations)
    (hd : (p.types.map (·.name)).Nodup) {name field : String} :
    (∃ slot, frame.FieldSlot p.declarations name field slot) ↔
      p.HasField frame.scope name field := by
  constructor
  · rintro ⟨slot, offset, typeName, slots, decl, index, hv, ht, hi, -, -⟩
    obtain ⟨hm, rfl⟩ := (Program.find?_types hd).1 ht
    exact ⟨decl, hm, Table.mem_of_find? (h.record_slotAt hv).1,
      List.isSome_idxOf?.1 (Option.isSome_of_eq_some hi)⟩
  · rintro ⟨decl, hm, hscope, hfield⟩
    have hf := Table.find?_of_mem h.scope_nodup hscope
    obtain ⟨var, hv, hk⟩ := Option.map_eq_some_iff.1 ((find?_scope frame name).symm.trans hf)
    have ht := (Program.find?_types hd).2 ⟨hm, rfl⟩
    obtain ⟨index, hi⟩ := Option.isSome_iff_exists.1 (List.isSome_idxOf?.2 hfield)
    have hlt : index < decl.fields.length := (List.idxOf?_eq_some_iff.1 hi).1
    have hslots : var.kind.slots = decl.slots := by
      rw [h.slots _ (Table.mem_of_find? hv), hk, Declarations.slots_of_find? ht]
    refine ⟨_, h.fieldSlot_iff.2 ⟨index, ?_, var, hv, ?_, rfl⟩⟩
    · simp [Declarations.fieldIndex?, hf, ht, RecordDecl.fieldIndex?, hi]
    · rw [hslots, RecordDecl.slots]
      omega

end Frame.Sound

/-! ## Accepted programs are well formed -/

namespace Expr

variable {p : Program}

mutual

theorem Lowers.valid {e : Expr} {s s' : Lowering} {code : Code}
    (h : e.Lowers p.declarations s code s') (hs : s.frame.Sound p.declarations)
    (ht : (p.types.map (·.name)).Nodup) (hf : (p.functions.map (·.name)).Nodup) :
    e.Valid p s.frame.scope := by
  cases h with
  | int | str _ => trivial
  | word hw => exact List.mem_map_of_mem (hs.exists_wordSlot_iff.1 ⟨_, hw⟩)
  | record hv => exact List.mem_map_of_mem (Table.mem_of_find? (hs.record_slotAt hv).1)
  | binary hl hr _ | compare hl hr _ =>
    have hright := hr.valid (Frame.Sound.withPending (hl.frame_eq ▸ hs) _) ht hf
    exact ⟨hl.valid hs ht hf, by simpa [Frame.scope, hl.frame_eq] using hright⟩
  | call hn hc ha _ =>
    exact ⟨hn, (Program.exists_callee_iff hf).1 ⟨_, hc⟩, ha.valid hs ht hf⟩
  | field hslot => exact (hs.exists_fieldSlot_iff ht).1 ⟨_, hslot⟩

theorem LowersArgs.valid {args : List Expr} {s s' : Lowering} {code : Code}
    (h : LowersArgs p.declarations args s code s') (hs : s.frame.Sound p.declarations)
    (ht : (p.types.map (·.name)).Nodup) (hf : (p.functions.map (·.name)).Nodup) :
    ArgsValid p s.frame.scope args := by
  cases h with
  | nil => trivial
  | cons hv hr =>
    have hrest := hr.valid (Frame.Sound.withPending (hv.frame_eq ▸ hs) _) ht hf
    exact ⟨hv.valid hs ht hf, by simpa [Frame.scope, hv.frame_eq] using hrest⟩

end

variable {decls : Declarations}

mutual

/-- Every literal of an expression is in the pool afterwards. -/
theorem Lowers.literals_subset {e : Expr} {s s' : Lowering} {code : Code}
    (h : e.Lowers decls s code s') : e.literals ⊆ s'.pool.entries := by
  cases h with
  | int | word _ | record _ | field _ => simp [literals]
  | str hi =>
    have hmem := StringPool.getElem?_of_insert hi.intern_grows.2.2.2
    simpa [literals] using List.mem_of_getElem? hmem
  | binary hl hr _ | compare hl hr _ =>
    exact List.append_subset.2
      ⟨fun _ hx => hr.grows.entries.subset (hl.literals_subset hx), hr.literals_subset⟩
  | call _ _ ha _ => exact ha.literals_subset

theorem LowersArgs.literals_subset {args : List Expr} {s s' : Lowering} {code : Code}
    (h : LowersArgs decls args s code s') : argsLiterals args ⊆ s'.pool.entries := by
  cases h with
  | nil => simp [argsLiterals]
  | cons hv hr =>
    exact List.append_subset.2
      ⟨fun _ hx => hr.grows.entries.subset (hv.literals_subset hx), hr.literals_subset⟩

end

end Expr

/-- The frame is that of a loop's body. -/
def Frame.inLoop (frame : Frame) : Bool := !frame.loops.isEmpty

theorem Frame.Grows.inLoop_eq {frame frame' : Frame} (h : frame.Grows frame') :
    frame'.inLoop = frame.inLoop := by
  rw [Frame.inLoop, h.loops, Frame.inLoop]

theorem Frame.inLoop_of_innermostLoop? {frame : Frame} {labels : LoopLabels}
    (h : frame.innermostLoop? = some labels) : frame.inLoop = true := by
  cases hl : frame.loops <;> simp_all [innermostLoop?, inLoop]

namespace Stmt

variable {p : Program}

mutual

theorem Lowers.valid {stmt : Stmt} {s s' : Lowering} {code : Code}
    (h : stmt.Lowers p.declarations s code s') (hs : s.frame.Sound p.declarations)
    (ht : (p.types.map (·.name)).Nodup) (hf : (p.functions.map (·.name)).Nodup) :
    stmt.Valid p s.frame.scope s.frame.inLoop := by
  cases h with
  | declare he _ | print he | eval he => exact he.valid hs ht hf
  | declareRecord hd _ _ => exact ⟨_, (Program.find?_types ht).1 hd⟩
  | set he hw =>
    rw [he.frame_eq] at hw
    exact ⟨he.valid hs ht hf, hs.exists_wordSlot_iff.1 ⟨_, hw⟩⟩
  | setField he hw =>
    rw [he.frame_eq] at hw
    exact ⟨he.valid hs ht hf, (hs.exists_fieldSlot_iff ht).1 ⟨_, hw⟩⟩
  | retNone => simp [Valid]
  | ret he => simpa [Valid] using he.valid hs ht hf
  | branch hc hb =>
    have hbody := hb.valid (hc.frame_eq ▸ hs) ht hf
    rw [Lowering.skipLabels_frame, hc.frame_eq] at hbody
    exact ⟨hc.valid hs ht hf, hbody, trivial⟩
  | branchElse _ hc hb ho =>
    have hs₁ : Frame.Sound p.declarations _ := hc.frame_eq ▸ hs
    have hbody := hb.valid hs₁ ht hf
    have hother := ho.valid (hb.sound hs₁) ht hf
    rw [hb.scope_eq, hb.frame_grows.inLoop_eq] at hother
    rw [Lowering.skipLabels_frame, hc.frame_eq] at hbody hother
    exact ⟨hc.valid hs ht hf, hbody, hother⟩
  | loop hc hb =>
    have hs₁ : Frame.Sound p.declarations _ := hc.frame_eq ▸ hs
    have hbody := hb.valid (hs₁.enterLoop _) ht hf
    rw [Lowering.withFrame_frame, hc.frame_eq] at hbody
    exact ⟨hc.valid hs ht hf, hbody⟩
  | leave hl | again hl => exact Frame.inLoop_of_innermostLoop? hl

theorem LowersBlock.valid {stmts : List Stmt} {s s' : Lowering} {code : Code}
    (h : LowersBlock p.declarations stmts s code s') (hs : s.frame.Sound p.declarations)
    (ht : (p.types.map (·.name)).Nodup) (hf : (p.functions.map (·.name)).Nodup) :
    BlockValid p s.frame.scope s.frame.inLoop stmts := by
  cases h with
  | nil => trivial
  | cons hfirst hrest =>
    have hvalid := hrest.valid (hfirst.sound hs) ht hf
    rw [hfirst.scope_eq, hfirst.frame_grows.inLoop_eq] at hvalid
    exact ⟨hfirst.valid hs ht hf, hvalid⟩

end

variable {decls : Declarations}

mutual

theorem Lowers.literals_subset {stmt : Stmt} {s s' : Lowering} {code : Code}
    (h : stmt.Lowers decls s code s') : stmt.literals ⊆ s'.pool.entries := by
  cases h with
  | declare he hd =>
    rw [hd.declare_grows.2.2.2.1]
    exact he.literals_subset
  | set he _ | setField he _ | ret he | print he | eval he => exact he.literals_subset
  | declareRecord _ _ _ | retNone | leave _ | again _ => simp [literals]
  | branch hc hb =>
    rw [literals, blockLiterals, List.append_nil]
    exact List.append_subset.2
      ⟨fun _ hx => hb.grows.entries.subset (hc.literals_subset hx), hb.literals_subset⟩
  | branchElse _ hc hb ho =>
    have hcond := fun x hx => ho.grows.entries.subset
      (hb.grows.entries.subset (hc.literals_subset (a := x) hx))
    have hthen := fun x hx => ho.grows.entries.subset (hb.literals_subset (a := x) hx)
    exact List.append_subset.2 ⟨List.append_subset.2 ⟨hcond, hthen⟩, ho.literals_subset⟩
  | loop hc hb =>
    exact List.append_subset.2
      ⟨fun _ hx => hb.grows.entries.subset (hc.literals_subset hx), hb.literals_subset⟩

theorem LowersBlock.literals_subset {stmts : List Stmt} {s s' : Lowering} {code : Code}
    (h : LowersBlock decls stmts s code s') : blockLiterals stmts ⊆ s'.pool.entries := by
  cases h with
  | nil => simp [blockLiterals]
  | cons hf hr =>
    exact List.append_subset.2
      ⟨fun _ hx => hr.grows.entries.subset (hf.literals_subset hx), hr.literals_subset⟩

end

end Stmt

theorem StoresParams.pool_eq {params : List (String × Register)} {s s' : Lowering} {code : Code}
    (h : StoresParams params s code s') : s'.pool = s.pool := by
  induction h with
  | nil => rfl
  | cons hd _ ih => rw [ih, hd.declare_grows.2.2.2.1]

namespace FunctionDecl.Lowers

variable {limits : Limits} {p : Program} {f : FunctionDecl} {s s' : Lowering} {r : Routine}

theorem extends_enter {decls : Declarations} (h : f.Lowers limits decls s r s') :
    (f.enter limits s).Extends decls s' := by
  obtain ⟨-, params, body, s₁, hp, hb, -⟩ := h
  have hparams := f.built_storeParams decls ⟨f.locals, []⟩ (List.Subset.refl _)
  exact (hparams.extends_of_runs (runs_storeParams_iff.2 hp)).trans
    ((Stmt.built_lowerBlock decls f.body).extends_of_runs (Stmt.runs_lowerBlock_iff.2 hb))

theorem wellScoped (h : f.Lowers limits p.declarations s r s')
    (ht : (p.types.map (·.name)).Nodup) (hf : (p.functions.map (·.name)).Nodup) :
    f.WellScoped limits p := by
  have hscope := h.scope_eq
  have hsound := h.sound
  have hroomy : s'.frame.Roomy := h.extends_enter.roomy (Nat.zero_le _)
  have hmax := h.extends_enter.maxVariables
  obtain ⟨hn, params, body, s₁, hp, hb, -⟩ := h
  refine ⟨hn, hscope ▸ hsound.scope_nodup, ?_, ?_⟩
  · have hlen : f.locals.length = s'.frame.vars.length := by simp [← hscope, Frame.scope]
    rw [hlen]
    exact Nat.le_trans hroomy (Nat.le_of_eq hmax)
  · have hvalid := hb.valid (hp.sound (sound_enter limits _ f s)) ht hf
    rw [params_scope_eq hn hp, hp.grows.2.inLoop_eq] at hvalid
    exact hvalid

theorem literals_subset (h : f.Lowers limits p.declarations s r s') :
    Stmt.blockLiterals f.body ⊆ s'.pool.entries := by
  obtain ⟨-, params, body, s₁, -, hb, -⟩ := h
  exact hb.literals_subset

end FunctionDecl.Lowers

namespace LowersFunctions

variable {limits : Limits} {p : Program} {fs : List FunctionDecl} {s s' : Lowering}
  {rs : List Routine}

theorem bounded (h : LowersFunctions limits p.declarations fs s rs s') (hb : s.pool.Bounded) :
    s'.pool.Bounded := by
  induction h with
  | nil => exact hb
  | cons hf _ ih => exact ih (hf.extends_enter.bounded hb)

theorem literals_subset (h : LowersFunctions limits p.declarations fs s rs s') :
    (fs.flatMap fun f => Stmt.blockLiterals f.body) ⊆ s'.pool.entries := by
  induction h with
  | nil => simp
  | cons hf hr ih =>
    rw [List.flatMap_cons]
    exact List.append_subset.2 ⟨fun _ hx => hr.grows.entries.subset (hf.literals_subset hx), ih⟩

end LowersFunctions

namespace Program.Assembles

variable {limits : Limits} {p : Program} {a : Assembly}

theorem wellFormed (h : p.Assembles limits a) : p.WellFormed limits := by
  obtain ⟨s', hl, -⟩ := h.exists_lowers
  have hbounded := hl.bounded (Nat.zero_le _)
  refine ⟨⟨h.types_nodup, h.functions_nodup, ?_⟩, ?_⟩
  · intro f hf
    obtain ⟨r, -, s, s', hlowers, -⟩ := hl.exists_of_mem hf
    exact hlowers.wellScoped h.types_nodup h.functions_nodup
  · calc p.literals.toFinset.card
        ≤ s'.pool.entries.toFinset.card :=
          Finset.card_le_card fun _ hx =>
            List.mem_toFinset.2 (hl.literals_subset (List.mem_toFinset.1 hx))
      _ ≤ s'.pool.entries.length := List.toFinset_card_le _
      _ ≤ s'.pool.capacity := hbounded
      _ = limits.maxStrings := hl.grows.capacity

end Program.Assembles

end WordLang
