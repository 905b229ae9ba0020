import WordLang.Proofs.WellFormed

/-!
# Accepted programs

Every well-formed program is generated, so generation accepts exactly the well-formed programs. The
proof follows the tree: at each place the names in scope are those of the frame, there is room for
the variables still to come, and the pool has room for the literals still to come.
-/
namespace WordLang

open Asm

/-- The pool holds some of the literals `all`, and has room for all of them. -/
structure StringPool.Within (all : List String) (pool : StringPool) : Prop where
  nodup : pool.entries.Nodup
  subset : pool.entries ⊆ all
  card_le : all.toFinset.card ≤ pool.capacity

theorem StringPool.Within.exists_insert {all : List String} {pool : StringPool} {value : String}
    (h : pool.Within all) (hv : value ∈ all) :
    ∃ index pool', pool.insert value = .ok (index, pool') ∧ pool'.Within all := by
  by_cases hm : value ∈ pool.entries
  · obtain ⟨index, hi⟩ := Option.isSome_iff_exists.1 (List.isSome_idxOf?.2 hm)
    exact ⟨index, pool, insert_eq_ok.2 (.inl ⟨hi, rfl⟩), h⟩
  · have hnodup : (value :: pool.entries).Nodup := List.nodup_cons.2 ⟨hm, h.nodup⟩
    have hsubset : (value :: pool.entries).toFinset ⊆ all.toFinset := by
      intro x hx
      rcases List.mem_cons.1 (List.mem_toFinset.1 hx) with rfl | hx
      · exact List.mem_toFinset.2 hv
      · exact List.mem_toFinset.2 (h.subset hx)
    have hlt : pool.entries.length < pool.capacity := by
      have hcard := Finset.card_le_card hsubset
      rw [List.toFinset_card_of_nodup hnodup, List.length_cons] at hcard
      exact Nat.lt_of_lt_of_le hcard h.card_le
    refine ⟨_, _, insert_eq_ok.2 (.inr ⟨hm, hlt, rfl, rfl⟩), ?_, ?_, h.card_le⟩
    · exact List.nodup_append.2 ⟨h.nodup, by simp, by
        rintro x hx y hy rfl
        exact hm (List.mem_singleton.1 hy ▸ hx)⟩
    · exact List.append_subset.2 ⟨h.subset, by simpa using hv⟩

namespace Expr

variable {p : Program} {all : List String}

mutual

theorem exists_lowers (ht : (p.types.map (·.name)).Nodup) (hf : (p.functions.map (·.name)).Nodup) :
    (e : Expr) → {s : Lowering} → e.Valid p s.frame.scope → s.frame.Sound p.declarations →
    s.pool.Within all → e.literals ⊆ all →
    ∃ code s', e.Lowers p.declarations s code s' ∧ s'.pool.Within all
  | .int value, s, _, _, hw, _ => ⟨_, s, .int value s, hw⟩
  | .str text, s, _, _, hw, hl => by
    obtain ⟨index, pool, hi, hw'⟩ := hw.exists_insert (hl (List.mem_singleton_self text))
    obtain ⟨log, hr⟩ := Lower.exists_runs_intern hi
    exact ⟨_, _, .str hr, hw'⟩
  | .ident name, s, hv, hs, hw, _ => by
    obtain ⟨⟨_, typeName⟩, hm, rfl⟩ := List.mem_map.1 hv
    have hfound := Table.find?_of_mem hs.scope_nodup hm
    obtain ⟨⟨offset, kind⟩, hvar, hk⟩ :=
      Option.map_eq_some_iff.1 ((Frame.find?_scope s.frame _).symm.trans hfound)
    cases kind with
    | scalar | string => exact ⟨_, s, .word ⟨_, hvar, trivial⟩, hw⟩
    | record => exact ⟨_, s, .record hvar, hw⟩
  | .binary op lhs rhs, s, hv, hs, hw, hl => by
    obtain ⟨hl, hr⟩ := List.append_subset.1 hl
    obtain ⟨left, s₁, hleft, hw₁⟩ := exists_lowers ht hf lhs hv.1 hs hw hl
    have hs₁ : s₁.frame.Sound p.declarations := hleft.frame_eq ▸ hs
    obtain ⟨right, s₂, hright, hw₂⟩ := exists_lowers ht hf rhs
      (s := s₁.withPending (s₁.frame.pending + 1))
      (by simpa [Frame.scope, hleft.frame_eq] using hv.2) (hs₁.withPending _) hw₁ hr
    exact ⟨_, _, .binary hleft hright (by simp [hright.frame_eq]), hw₂⟩
  | .compare op lhs rhs, s, hv, hs, hw, hl => by
    obtain ⟨hl, hr⟩ := List.append_subset.1 hl
    obtain ⟨left, s₁, hleft, hw₁⟩ := exists_lowers ht hf lhs hv.1 hs hw hl
    have hs₁ : s₁.frame.Sound p.declarations := hleft.frame_eq ▸ hs
    obtain ⟨right, s₂, hright, hw₂⟩ := exists_lowers ht hf rhs
      (s := s₁.withPending (s₁.frame.pending + 1))
      (by simpa [Frame.scope, hleft.frame_eq] using hv.2) (hs₁.withPending _) hw₁ hr
    exact ⟨_, _, .compare hleft hright (by simp [hright.frame_eq]), hw₂⟩
  | .call name args, s, hv, hs, hw, hl => by
    obtain ⟨hn, harity, hargs⟩ := hv
    obtain ⟨callee, hc⟩ := (Program.exists_callee_iff hf).2 harity
    obtain ⟨values, s', ha, hw'⟩ := exists_lowersArgs ht hf args hargs hs hw hl
    exact ⟨_, _, .call hn hc ha (by simp [ha.frame_eq]), hw'⟩
  | .field name part, s, hv, hs, hw, _ => by
    obtain ⟨slot, hslot⟩ := (hs.exists_fieldSlot_iff ht).2 hv
    exact ⟨_, s, .field hslot, hw⟩

theorem exists_lowersArgs (ht : (p.types.map (·.name)).Nodup)
    (hf : (p.functions.map (·.name)).Nodup) :
    (args : List Expr) → {s : Lowering} → ArgsValid p s.frame.scope args →
    s.frame.Sound p.declarations → s.pool.Within all → argsLiterals args ⊆ all →
    ∃ code s', LowersArgs p.declarations args s code s' ∧ s'.pool.Within all
  | [], s, _, _, hw, _ => ⟨_, s, .nil s, hw⟩
  | arg :: args, s, hv, hs, hw, hl => by
    obtain ⟨hl, hr⟩ := List.append_subset.1 hl
    obtain ⟨value, s₁, hvalue, hw₁⟩ := exists_lowers ht hf arg hv.1 hs hw hl
    have hs₁ : s₁.frame.Sound p.declarations := hvalue.frame_eq ▸ hs
    obtain ⟨rest, s', hrest, hw'⟩ := exists_lowersArgs ht hf args
      (s := s₁.withPending (s₁.frame.pending + 1))
      (by simpa [Frame.scope, hvalue.frame_eq] using hv.2) (hs₁.withPending _) hw₁ hr
    exact ⟨_, s', .cons hvalue hrest, hw'⟩

end

end Expr

namespace Frame

/-- The variables `locals` are new and distinct, and there is room for them. -/
structure Fits (locals : Scope) (frame : Frame) : Prop where
  nodup : ((frame.scope ++ locals).map Prod.fst).Nodup
  length_le : (frame.scope ++ locals).length ≤ frame.maxVariables

namespace Fits

variable {frame frame' : Frame} {a b : Scope}

theorem left (h : frame.Fits (a ++ b)) : frame.Fits a := by
  have hsub : (frame.scope ++ a).Sublist (frame.scope ++ (a ++ b)) :=
    (List.sublist_append_left a b).append_left _
  exact ⟨h.nodup.sublist (hsub.map _), Nat.le_trans hsub.length_le h.length_le⟩

theorem right (h : frame.Fits (a ++ b)) (hs : frame'.scope = frame.scope ++ a)
    (hm : frame'.maxVariables = frame.maxVariables) : frame'.Fits b := by
  obtain ⟨hnodup, hlen⟩ := h
  rw [← List.append_assoc, ← hs] at hnodup hlen
  exact ⟨hnodup, hm ▸ hlen⟩

end Fits

end Frame

/-- A variable for which there is room can be declared. -/
theorem Frame.Fits.exists_declare {s : Lowering} {name : String} {kind : VarKind}
    (h : s.frame.Fits [(name, kind.typeName?)]) :
    ∃ offset s', Runs (Lower.declare name kind) s offset s' ∧ s'.pool = s.pool ∧
      offset = (s.frame.slots.reserve kind.slots).space := by
  have hn : s.frame.vars.find? name = none := by
    have hnodup := h.nodup
    rw [List.map_append, List.nodup_append] at hnodup
    rw [Table.find?_eq_none_iff]
    intro hm
    refine hnodup.2.2 name ?_ name (by simp) rfl
    simpa [Frame.scope, Function.comp_def] using hm
  have hlt : s.frame.vars.length < s.frame.maxVariables := by
    have hlen := h.length_le
    simp only [Frame.scope, List.length_append, List.length_map, List.length_singleton] at hlen
    omega
  exact ⟨_, _, Lower.runs_declare.2 ⟨_, Frame.declare_eq_ok.2 ⟨hn, hlt, rfl, rfl⟩, rfl⟩, rfl, rfl⟩

theorem Frame.exists_innermostLoop? {frame : Frame} (h : frame.inLoop = true) :
    ∃ labels, frame.innermostLoop? = some labels := by
  unfold innermostLoop?
  cases hl : frame.loops with
  | nil => simp [inLoop, hl] at h
  | cons labels _ => exact ⟨labels, rfl⟩

namespace Stmt

variable {p : Program} {all : List String}

mutual

theorem exists_lowers (ht : (p.types.map (·.name)).Nodup) (hf : (p.functions.map (·.name)).Nodup) :
    (stmt : Stmt) → {s : Lowering} → stmt.Valid p s.frame.scope s.frame.inLoop →
    s.frame.Fits stmt.locals → s.frame.Sound p.declarations → s.pool.Within all →
    stmt.literals ⊆ all → ∃ code s', stmt.Lowers p.declarations s code s' ∧ s'.pool.Within all
  | .declare name value, s, hv, hfits, hs, hw, hl => by
    obtain ⟨code, s₁, he, hw₁⟩ := value.exists_lowers ht hf hv hs hw hl
    have hkind : (value.varKind s₁.frame).typeName? = none := by
      unfold Expr.varKind
      split_ifs <;> rfl
    have hfits₁ : s₁.frame.Fits [(name, (value.varKind s₁.frame).typeName?)] := by
      rw [hkind, he.frame_eq]
      exact hfits
    obtain ⟨offset, s', hd, hpool, -⟩ := hfits₁.exists_declare
    exact ⟨_, s', .declare he hd, hpool ▸ hw₁⟩
  | .declareRecord name typeName, s, hv, hfits, hs, hw, _ => by
    obtain ⟨decl, hm⟩ := hv
    have hd := (Program.find?_types ht).2 hm
    have hfits₁ : s.frame.Fits [(name, (VarKind.record typeName decl.slots).typeName?)] := hfits
    obtain ⟨offset, s', hdecl, hpool, hoffset⟩ := hfits₁.exists_declare
    refine ⟨_, s', .declareRecord hd hdecl fun index hi => ?_, hpool ▸ hw⟩
    rw [hoffset, Slots.space, Slots.reserve, hs.laid.slotSize]
    exact Nat.mul_le_mul_right _ (Nat.le_trans (Nat.le_of_lt hi) (Nat.le_add_left _ _))
  | .set name value, s, hv, _, hs, hw, hl => by
    obtain ⟨code, s', he, hw'⟩ := value.exists_lowers ht hf hv.1 hs hw hl
    obtain ⟨slot, hslot⟩ := hs.exists_wordSlot_iff.2 hv.2
    exact ⟨_, s', .set he (he.frame_eq ▸ hslot), hw'⟩
  | .setField name field value, s, hv, _, hs, hw, hl => by
    obtain ⟨code, s', he, hw'⟩ := value.exists_lowers ht hf hv.1 hs hw hl
    obtain ⟨slot, hslot⟩ := (hs.exists_fieldSlot_iff ht).2 hv.2
    exact ⟨_, s', .setField he (he.frame_eq ▸ hslot), hw'⟩
  | .ret none, s, _, _, _, hw, _ => ⟨_, s, .retNone s, hw⟩
  | .ret (some value), s, hv, _, hs, hw, hl => by
    obtain ⟨code, s', he, hw'⟩ := value.exists_lowers ht hf (hv value rfl) hs hw hl
    exact ⟨_, s', .ret he, hw'⟩
  | .branch cond thenBody [], s, hv, hfits, hs, hw, hl => by
    obtain ⟨hlc, hlt⟩ := List.append_subset.1 (List.append_subset.1 hl).1
    obtain ⟨test, s₁, hc, hw₁⟩ := cond.exists_lowers ht hf hv.1 hs hw hlc
    obtain ⟨body, s', hb, hw'⟩ := exists_lowersBlock ht hf thenBody (s := s₁.skipLabels 1)
      (by rw [Lowering.skipLabels_frame, hc.frame_eq]; exact hv.2.1)
      (by rw [Lowering.skipLabels_frame, hc.frame_eq]; exact hfits.left)
      (by rw [Lowering.skipLabels_frame, hc.frame_eq]; exact hs) hw₁ hlt
    exact ⟨_, s', .branch hc hb, hw'⟩
  | .branch cond thenBody (stmt :: stmts), s, hv, hfits, hs, hw, hl => by
    obtain ⟨hl, hlo⟩ := List.append_subset.1 hl
    obtain ⟨hlc, hlt⟩ := List.append_subset.1 hl
    obtain ⟨test, s₁, hc, hw₁⟩ := cond.exists_lowers ht hf hv.1 hs hw hlc
    have hframe : (s₁.skipLabels 2).frame = s.frame := hc.frame_eq
    obtain ⟨body, s₂, hb, hw₂⟩ := exists_lowersBlock ht hf thenBody (s := s₁.skipLabels 2)
      (hframe ▸ hv.2.1) (hframe ▸ hfits.left) (hframe ▸ hs) hw₁ hlt
    have hscope : s₂.frame.scope = s.frame.scope ++ blockLocals thenBody := hframe ▸ hb.scope_eq
    have hgrows : s.frame.Grows s₂.frame := hframe ▸ hb.frame_grows
    obtain ⟨other, s', ho, hw'⟩ := exists_lowersBlock ht hf (stmt :: stmts) (s := s₂)
      (by rw [hscope, hgrows.inLoop_eq]; exact hv.2.2)
      (hfits.right hscope hgrows.maxVariables) (hb.sound (hframe ▸ hs)) hw₂ hlo
    exact ⟨_, s', .branchElse (by simp) hc hb ho, hw'⟩
  | .loop cond body, s, hv, hfits, hs, hw, hl => by
    obtain ⟨hlc, hlb⟩ := List.append_subset.1 hl
    obtain ⟨test, s₁, hc, hw₁⟩ := cond.exists_lowers ht hf (s := s.skipLabels 2) hv.1 hs hw hlc
    have hframe : s₁.frame = s.frame := hc.frame_eq
    obtain ⟨code, s₂, hb, hw₂⟩ := exists_lowersBlock ht hf body
      (s := s₁.withFrame (s₁.frame.enterLoop ⟨s.nextLabel, s.nextLabel + 1⟩))
      (by rw [hframe]; exact hv.2) (by rw [hframe]; exact ⟨hfits.nodup, hfits.length_le⟩)
      (by rw [hframe]; exact hs.enterLoop _) hw₁ hlb
    exact ⟨_, _, .loop hc hb, hw₂⟩
  | .print value, s, hv, _, hs, hw, hl => by
    obtain ⟨code, s', he, hw'⟩ := value.exists_lowers ht hf hv hs hw hl
    exact ⟨_, s', .print he, hw'⟩
  | .eval value, s, hv, _, hs, hw, hl => by
    obtain ⟨code, s', he, hw'⟩ := value.exists_lowers ht hf hv hs hw hl
    exact ⟨_, s', .eval he, hw'⟩
  | .leave, s, hv, _, _, hw, _ => by
    obtain ⟨labels, hl⟩ := Frame.exists_innermostLoop? hv
    exact ⟨_, s, .leave hl, hw⟩
  | .again, s, hv, _, _, hw, _ => by
    obtain ⟨labels, hl⟩ := Frame.exists_innermostLoop? hv
    exact ⟨_, s, .again hl, hw⟩

theorem exists_lowersBlock (ht : (p.types.map (·.name)).Nodup)
    (hf : (p.functions.map (·.name)).Nodup) :
    (stmts : List Stmt) → {s : Lowering} → BlockValid p s.frame.scope s.frame.inLoop stmts →
    s.frame.Fits (blockLocals stmts) → s.frame.Sound p.declarations → s.pool.Within all →
    blockLiterals stmts ⊆ all →
    ∃ code s', LowersBlock p.declarations stmts s code s' ∧ s'.pool.Within all
  | [], s, _, _, _, hw, _ => ⟨_, s, .nil s, hw⟩
  | stmt :: stmts, s, hv, hfits, hs, hw, hl => by
    obtain ⟨hl, hlr⟩ := List.append_subset.1 hl
    obtain ⟨first, s₁, hfirst, hw₁⟩ := exists_lowers ht hf stmt hv.1 hfits.left hs hw hl
    obtain ⟨rest, s', hrest, hw'⟩ := exists_lowersBlock ht hf stmts (s := s₁)
      (by rw [hfirst.scope_eq, hfirst.frame_grows.inLoop_eq]; exact hv.2)
      (hfits.right hfirst.scope_eq hfirst.frame_grows.maxVariables) (hfirst.sound hs) hw₁ hlr
    exact ⟨_, s', .cons hfirst hrest, hw'⟩

end

end Stmt

theorem exists_storesParams (params : List (String × Register)) {s : Lowering}
    (hfits : s.frame.Fits (params.map fun param => (param.1, none))) :
    ∃ code s', StoresParams params s code s' := by
  induction params generalizing s with
  | nil => exact ⟨_, s, .nil s⟩
  | cons param rest ih =>
    obtain ⟨name, register⟩ := param
    have hfirst : s.frame.Fits [(name, VarKind.scalar.typeName?)] :=
      Frame.Fits.left (a := [(name, none)]) hfits
    obtain ⟨offset, s₁, hd, -, -⟩ := hfirst.exists_declare
    have hdecl := hd.declare_grows
    obtain ⟨code, s', hrest⟩ := ih (Frame.Fits.right (a := [(name, none)]) hfits
      (Frame.scope_declare hdecl.2.2.1) hdecl.2.1.maxVariables)
    exact ⟨_, s', .cons hd hrest⟩

namespace FunctionDecl.WellScoped

variable {limits : Limits} {p : Program} {f : FunctionDecl} {all : List String}

theorem exists_lowers (h : f.WellScoped limits p) (ht : (p.types.map (·.name)).Nodup)
    (hf : (p.functions.map (·.name)).Nodup) {s : Lowering} (hw : s.pool.Within all)
    (hl : Stmt.blockLiterals f.body ⊆ all) :
    ∃ r s', f.Lowers limits p.declarations s r s' ∧ s'.pool.Within all := by
  have hfits : (f.enter limits s).frame.Fits f.locals := ⟨h.locals_nodup, h.locals_le⟩
  obtain ⟨params, s₁, hp⟩ := exists_storesParams (f.params.zip Register.args) (by
    rw [map_zip_args h.params_le (·, none)]
    exact hfits.left)
  have hscope := Lowers.params_scope_eq h.params_le hp
  obtain ⟨body, s', hb, hw'⟩ := Stmt.exists_lowersBlock ht hf f.body (s := s₁)
    (by rw [hscope, hp.grows.2.inLoop_eq]; exact h.body_valid)
    (hfits.right hscope hp.grows.2.maxVariables) (hp.sound (sound_enter limits _ f s))
    (hp.pool_eq ▸ hw) hl
  exact ⟨_, s', ⟨h.params_le, params, body, s₁, hp, hb, rfl⟩, hw'⟩

end FunctionDecl.WellScoped

theorem exists_lowersFunctions {limits : Limits} {p : Program}
    (ht : (p.types.map (·.name)).Nodup) (hf : (p.functions.map (·.name)).Nodup)
    {all : List String} {fs : List FunctionDecl} (h : ∀ f ∈ fs, f.WellScoped limits p)
    {s : Lowering} (hw : s.pool.Within all)
    (hl : (fs.flatMap fun f => Stmt.blockLiterals f.body) ⊆ all) :
    ∃ rs s', LowersFunctions limits p.declarations fs s rs s' := by
  induction fs generalizing s with
  | nil => exact ⟨_, s, .nil s⟩
  | cons f fs ih =>
    rw [List.flatMap_cons, List.append_subset] at hl
    obtain ⟨r, s₁, hlowers, hw₁⟩ :=
      (h f List.mem_cons_self).exists_lowers ht hf hw hl.1
    obtain ⟨rs, s', hrest⟩ := ih (fun g hg => h g (List.mem_cons_of_mem _ hg))
      (s := s₁.logged (.laidOut f.name s₁.frame.offsets)) hw₁ hl.2
    exact ⟨_, s', .cons hlowers hrest⟩

namespace Program

variable {limits : Limits} {p : Program}

theorem WellFormed.exists_assembles (h : p.WellFormed limits) : ∃ a, p.Assembles limits a := by
  have hw : (Generator.new limits {}).lowering.pool.Within p.literals :=
    ⟨List.nodup_nil, List.nil_subset _, h.literals_le⟩
  obtain ⟨rs, s', hl⟩ := exists_lowersFunctions h.types_nodup h.functions_nodup
    h.functions_wellScoped hw (List.Subset.refl _)
  exact ⟨⟨rs, s'.pool⟩, h.types_nodup, h.functions_nodup, s', hl, rfl⟩

/-- Generation accepts exactly the well-formed programs. -/
theorem accepted_iff_wellFormed (limits : Limits) (p : Program) :
    p.Accepted limits ↔ p.WellFormed limits := by
  rw [accepted_iff]
  constructor
  · rintro ⟨a, ha⟩
    exact ha.wellFormed
  · exact WellFormed.exists_assembles

/-- Scopes alone do not make a program acceptable: here the one literal is one too many. -/
theorem wellScoped_not_accepted : ∃ p : Program,
    p.WellScoped ⟨0, 0⟩ ∧ p.literals.toFinset.card = 1 ∧ ¬ p.Accepted ⟨0, 0⟩ := by
  refine ⟨{ functions := [⟨"main", [], [.print (.str "a")]⟩] }, ⟨by decide, by decide, ?_⟩,
    by decide, by decide +kernel⟩
  intro f hf
  obtain rfl := List.mem_singleton.1 hf
  exact ⟨by decide, by decide, by decide, trivial, trivial⟩

end Program

end WordLang
