import WordLang.Proofs.Expressions

/-!
# The code of statements

A statement is realized if its code leads where its outcome says: past the code, to one of the
labels of the innermost loop, or to the exit of the function with the result in `%rax`. The
variables are then as the statement leaves them, and the memory above the frame is unchanged. Each
lemma here is about one form of statement, whose parts are realized.
-/
namespace WordLang

open Asm Machine

/-- Where a statement leads that stands before position `k'`. -/
def Outcome.target? (img : Image) (frame : Frame) (k' : Nat) : Outcome → Option Nat
  | .normal => some k'
  | .leave => frame.innermostLoop?.bind fun labels => img.symbols.find? (labelName labels.stop)
  | .again => frame.innermostLoop?.bind fun labels => img.symbols.find? (labelName labels.start)
  | .returned _ => img.symbols.find? (labelName frame.exitLabel)

/-- Where a loop goes on that stands from position `k` to position `k'`, by how its body ends. -/
def Outcome.loopTarget? (img : Image) (frame : Frame) (k k' : Nat) : Outcome → Option Nat
  | .normal | .again => some k
  | .leave => some k'
  | .returned _ => img.symbols.find? (labelName frame.exitLabel)

/-- From position `k` the machine gets to position `j`, with the variables `env` and the trace `t`.
All above the frame is kept. -/
def Activation.Ends {L : Loaded} (act : Activation L) (k : Nat) (m : State) (outcome : Outcome)
    (j : Nat) (env : Env) (t : Trace) : Prop :=
  ∃ m', L.image.Reaches L.runtime (L.image.address k, m) (L.image.address j, m') ∧
    (∀ v, outcome = .returned v → m'.regs .rax = v) ∧ m'.trace = t ∧ act.Active env 0 m' ∧
    m.Keeps act.base.toNat L.runtime.stackTop m'

namespace Stmt

/-- The code of a statement leads to where its outcome says, with room for calls nested `n`
deep. -/
def Realized (L : Linked) (n : Nat) (stmt : Stmt) (env : Env) (t : Trace) (outcome : Outcome)
    (env' : Env) (t' : Trace) : Prop :=
  ∀ {act : Activation L.toLoaded} {s s' : Lowering} {code : Code} {k k' j : Nat} {m : State},
    stmt.Lowers L.decls s code s' → act.Covers s' → s.frame.pending = 0 →
    L.image.Holds k code k' → outcome.target? L.image s.frame k' = some j →
    act.Active env 0 m → m.trace = t → 8 * stmt.stackWords + L.stackFor n ≤ (m.regs .rsp).toNat →
    act.Ends k m outcome j env' t'

/-- The code of a block leads to where its outcome says. -/
def AllRealized (L : Linked) (n : Nat) (stmts : List Stmt) (env : Env) (t : Trace)
    (outcome : Outcome) (env' : Env) (t' : Trace) : Prop :=
  ∀ {act : Activation L.toLoaded} {s s' : Lowering} {code : Code} {k k' j : Nat} {m : State},
    LowersBlock L.decls stmts s code s' → act.Covers s' → s.frame.pending = 0 →
    L.image.Holds k code k' → outcome.target? L.image s.frame k' = some j →
    act.Active env 0 m → m.trace = t → 8 * blockWords stmts + L.stackFor n ≤ (m.regs .rsp).toNat →
    act.Ends k m outcome j env' t'

end Stmt

namespace Outcome

variable {img : Image} {frame frame' : Frame} {outcome : Outcome}

theorem target?_of_grows (h : frame.Grows frame') (k : Nat) :
    outcome.target? img frame' k = outcome.target? img frame k := by
  cases outcome <;> simp [target?, Frame.innermostLoop?, h.loops, h.exitLabel]

/-- Only the normal outcome depends on where the code ends. -/
theorem target?_of_ne_normal (h : outcome ≠ .normal) (k k' : Nat) :
    outcome.target? img frame k = outcome.target? img frame k' := by
  cases outcome with
  | normal => exact (h rfl).elim
  | leave | again | returned => rfl

end Outcome

namespace Activation

variable {L : Loaded} {act : Activation L} {env : Env} {t : Trace} {outcome : Outcome}

/-- A loop covers its condition and its body. -/
theorem Covers.of_loop {body : List Stmt} {s s' : Lowering} {code : Code} {labels : LoopLabels}
    (h : act.Covers (s'.withFrame s'.frame.exitLoop))
    (hb : Stmt.LowersBlock L.decls body (s.withFrame (s.frame.enterLoop labels)) code s') :
    act.Covers s ∧ act.Covers s' := by
  have hs' : act.Covers s' := ⟨h.vars, h.pool⟩
  exact ⟨hs'.of_grows hb.grows.of_withFrame hb.frame_grows.vars, hs'⟩

theorem Active.rsp_le_base {pending : Nat} {m : State} (h : act.Active env pending m) :
    (m.regs .rsp).toNat ≤ act.base.toNat := by
  have := h.rsp
  omega

theorem Ends.of_reaches {k k₁ j : Nat} {m m₁ : State}
    (hr : L.image.Reaches L.runtime (L.image.address k, m) (L.image.address k₁, m₁))
    (hk : m.Keeps act.base.toNat L.runtime.stackTop m₁) (h : act.Ends k₁ m₁ outcome j env t) :
    act.Ends k m outcome j env t := by
  obtain ⟨m', hr', hv, ht, hm, hk'⟩ := h
  exact ⟨m', hr.trans hr', hv, ht, hm, hk.trans hk'⟩

theorem Ends.of_outcome {k j : Nat} {m : State} (h : act.Ends k m outcome j env t)
    {outcome' : Outcome} (ho : ∀ v, outcome' ≠ .returned v) : act.Ends k m outcome' j env t := by
  obtain ⟨m', hr, -, hrest⟩ := h
  exact ⟨m', hr, fun v hv => (ho v hv).elim, hrest⟩

/-- Code that ends normally goes on from its end to the end of the statement. -/
theorem Ends.of_normal {frame : Frame} {k k₁ k' j : Nat} {m : State}
    (h : ∀ {j}, outcome.target? L.image frame k₁ = some j → act.Ends k m outcome j env t)
    (hr : ∀ m₁, L.image.Reaches L.runtime (L.image.address k₁, m₁) (L.image.address k', m₁))
    (hj : outcome.target? L.image frame k' = some j) : act.Ends k m outcome j env t := by
  by_cases hn : outcome = .normal
  · subst hn
    obtain rfl : k' = j := Option.some.inj hj
    obtain ⟨m', hr', hv, ht, hm, hk⟩ := h rfl
    exact ⟨m', hr'.trans (hr m'), hv, ht, hm, hk⟩
  · exact h ((Outcome.target?_of_ne_normal hn k₁ k').trans hj)

end Activation

/-! ## Values -/

section

variable {L : Linked} {n : Nat} {env env' : Env} {t t₁ t' : Trace} {value : Expr} {v : Word}

/-- A value is computed in a call whose expressions have pushed nothing. -/
theorem Expr.Realized.reaches (h : value.Realized L n env t v t') :
    ∀ {act : Activation L.toLoaded} {s s' : Lowering} {code : Code} {k k' : Nat} {m : State},
      value.Lowers L.decls s code s' → act.Covers s' → s.frame.pending = 0 →
      L.image.Holds k code k' → act.Active env 0 m → m.trace = t →
      8 * value.stackWords + L.stackFor n ≤ (m.regs .rsp).toNat →
      ∃ m', L.image.Reaches L.runtime (L.image.address k, m) (L.image.address k', m') ∧
        m'.regs .rax = v ∧ m'.trace = t' ∧ act.Active env 0 m' ∧
        m.Keeps act.base.toNat L.runtime.stackTop m' := by
  intro act s s' code k k' m hl hc hp hh hm ht hd
  obtain ⟨m', hr, hv, ht', hk⟩ := h hl hc hh (hp ▸ hm) ht hd
  exact ⟨m', hr, hv, ht', hm.of_keeps hk, hk.mono hm.rsp_le_base⟩

/-- A value is computed and stored into a slot of the frame. -/
theorem Expr.Realized.store (h : value.Realized L n env t v t') :
    ∀ {act : Activation L.toLoaded} {s s' : Lowering} {code : Code} {k k' slot index : Nat}
      {name : String} {m : State}, value.Lowers L.decls s code s' → act.Covers s' →
      s.frame.pending = 0 → L.image.Holds k (code ++ [.instr (.store .rax slot)]) k' →
      SlotAt act.frame.vars name index slot →
      (∀ memory, act.Represents env memory →
        act.Represents env' (memory.store (act.slot slot) v)) →
      act.Active env 0 m → m.trace = t →
      8 * value.stackWords + L.stackFor n ≤ (m.regs .rsp).toNat →
      act.Ends k m .normal k' env' t' := by
  intro act s s' code k k' slot index name m hl hc hp hh hslot henv hm ht hd
  obtain ⟨k₁, hcode, hstore, rfl⟩ := Image.holds_append.1 hh
  obtain ⟨m₁, hr, hv, ht₁, hm₁, hk⟩ := h.reaches hl hc hp hcode hm ht hd
  have hexec : Instr.exec L.image.literal (.store .rax slot) m₁ =
      some (m₁.write (act.slot slot) v) := by
    rw [Instr.exec, hm₁.slot_eq, hv]
  refine .of_reaches hr hk ⟨_, .single (Image.step_exec hstore hexec), by rintro _ ⟨⟩, ht₁, ?_, ?_⟩
  · exact ⟨hm₁.rbp, hm₁.rsp, henv _ hm₁.represents⟩
  · exact ⟨rfl, rfl, rfl, fun a ha _ => Activation.store_slot_of_le _ _ hslot ha⟩

/-- A value is tested, and a jump is taken where it is zero. -/
theorem Expr.Realized.test (h : value.Realized L n env t v t') :
    ∀ {act : Activation L.toLoaded} {s s' : Lowering} {code : Code} {k k₁ k' label j : Nat}
      {m : State}, value.Lowers L.decls s code s' → act.Covers s' → s.frame.pending = 0 →
      L.image.Holds k code k₁ → L.image.Holds k₁ (.ofInstrs [.cmpZero .rax, .je label]) k' →
      L.image.symbols.find? (labelName label) = some j → act.Active env 0 m → m.trace = t →
      8 * value.stackWords + L.stackFor n ≤ (m.regs .rsp).toNat →
      ∃ m', L.image.Reaches L.runtime (L.image.address k, m)
          (L.image.address (if v = 0 then j else k'), m') ∧
        m'.trace = t' ∧ act.Active env 0 m' ∧
        m.Keeps act.base.toNat L.runtime.stackTop m' := by
  intro act s s' code k k₁ k' label j m hl hc hp hh htest hj hm ht hd
  obtain ⟨m₁, hr, rfl, ht₁, hm₁, hk⟩ := h.reaches hl hc hp hh hm ht hd
  obtain ⟨flags, hr₁⟩ := Image.reaches_testZero htest hj m₁
  exact ⟨_, hr.trans hr₁, ht₁, ⟨hm₁.rbp, hm₁.rsp, hm₁.represents⟩,
    ⟨hk.rsp, hk.rbp, hk.rbx, hk.memory⟩⟩

/-- A value prints as text where its variable was declared so. -/
theorem Expr.Lowers.isString_eq {s s' : Lowering} {code : Code} (h : value.Lowers L.decls s code s')
    {act : Activation L.toLoaded} (hc : act.Covers s') {memory : Memory}
    (hr : act.Represents env memory)
    (hb : ∀ name, value = .ident name → ∃ v isText, env.find? name = some (.word v isText)) :
    value.isString s'.frame = value.isText env := by
  cases value with
  | ident name =>
    obtain ⟨v, isText, hf⟩ := hb name rfl
    obtain ⟨offset, hv⟩ := hr.word hf
    obtain ⟨var, hvar⟩ : ∃ var, s'.frame.vars.find? name = some var := by
      cases h with
      | word hw =>
        obtain ⟨kind, hv, -⟩ := hw
        exact ⟨_, hv⟩
      | record hv => exact ⟨_, hv⟩
    obtain rfl : var = ⟨offset, if isText then .string else .scalar⟩ :=
      Option.some.inj ((Table.find?_of_prefix hc.vars hvar).symm.trans hv)
    cases isText <;> simp [isString, isText, hvar, hf]
  | _ => rfl

end

namespace Stmt

variable {L : Linked} {n : Nat} {env env₁ env' : Env} {t t₁ t₂ t' : Trace} {outcome : Outcome}

/-! ## Assignments -/

theorem realized_declare {name : String} {value : Expr} {v : Word}
    (h : value.Realized L n env t v t')
    (hb : ∀ name, value = .ident name → ∃ v isText, env.find? name = some (.word v isText)) :
    (Stmt.declare name value).Realized L n env t .normal
      (env.put name (.word v (value.isText env))) t' := by
  intro act s s' code k k' j m hl hc hp hh hj hm ht hd
  obtain rfl : k' = j := Option.some.inj hj
  cases hl with
  | @declare _ _ _ s₁ _ _ offset hv hd' =>
    obtain ⟨hg, hfg, hdecl, -, -⟩ := hd'.declare_grows
    have hc₁ : act.Covers s₁ := hc.of_grows hg hfg.vars
    obtain ⟨hnew, -, -, hframe⟩ := Frame.declare_eq_ok.1 hdecl
    have hvar : act.frame.vars.find? name =
        some ⟨offset, if value.isText env then .string else .scalar⟩ := by
      rw [← hv.isString_eq hc₁ hm.represents hb]
      refine Table.find?_of_prefix hc.vars ?_
      simp [hframe, hnew, Expr.varKind]
    have hslot : SlotAt act.frame.vars name 0 offset := by
      refine ⟨_, hvar, ?_, by simp⟩
      cases value.isText env <;> exact Nat.one_pos
    exact h.store hv hc₁ hp hh hslot (fun _ hr => hr.put_word hvar v) hm ht hd

theorem realized_set {name : String} {value : Expr} {v : Word} (h : value.Realized L n env t v t') :
    (Stmt.set name value).Realized L n env t .normal (env.assign name v) t' := by
  intro act s s' code k k' j m hl hc hp hh hj hm ht hd
  obtain rfl : k' = j := Option.some.inj hj
  cases hl with
  | set hv hw =>
    have hw := hw.mono hc.vars
    exact h.store hv hc hp hh (act.sound.wordSlot_iff.1 hw).2 (fun _ hr => hr.assign hw v) hm ht hd

theorem realized_setField {name part : String} {value : Expr} {v : Word}
    (h : value.Realized L n env t v t') :
    (Stmt.setField name part value).Realized L n env t .normal (env.assignField name part v)
      t' := by
  intro act s s' code k k' j m hl hc hp hh hj hm ht hd
  obtain rfl : k' = j := Option.some.inj hj
  cases hl with
  | setField hv hf =>
    have hf := hf.mono hc.vars
    obtain ⟨index, -, hslot⟩ := act.sound.fieldSlot_iff.1 hf
    exact h.store hv hc hp hh hslot (fun _ hr => hr.assignField hf v) hm ht hd

/-- Zeros are stored into words of a variable. -/
theorem exists_clear {act : Activation L.toLoaded} {name : String} {offset : Nat}
    {indices : List Nat}
    (hs : ∀ i ∈ indices, SlotAt act.frame.vars name i (offset - i * wordSize)) {m : State}
    (hm : m.regs .rbp = act.base) :
    ∃ m', Instr.execAll L.image.literal
        (indices.map fun i => .storeZero (offset - i * wordSize)) m = some m' ∧
      m'.regs = m.regs ∧ m'.trace = m.trace ∧
      (∀ {i slot}, i ∈ indices → SlotAt act.frame.vars name i slot →
        m'.memory.load (act.slot slot) = 0) ∧
      (∀ {name' i slot}, ¬ (name' = name ∧ i ∈ indices) → SlotAt act.frame.vars name' i slot →
        m'.memory.load (act.slot slot) = m.memory.load (act.slot slot)) ∧
      ∀ a : Word, act.base.toNat ≤ a.toNat → m'.memory a = m.memory a := by
  induction indices generalizing m with
  | nil => exact ⟨m, rfl, rfl, rfl, nofun, fun _ _ => rfl, fun _ _ => rfl⟩
  | cons i indices ih =>
    have hi := hs i List.mem_cons_self
    let m₁ := m.write (act.slot (offset - i * wordSize)) 0
    have hexec : Instr.exec L.image.literal (.storeZero (offset - i * wordSize)) m = some m₁ := by
      rw [Instr.exec, State.slot, hm]
      rfl
    obtain ⟨m', he, hregs, htrace, hzero, hother, habove⟩ :=
      ih (m := m₁) (fun i hi => hs i (List.mem_cons_of_mem _ hi)) hm
    refine ⟨m', by simpa [Instr.execAll, hexec] using he, hregs, htrace, ?_, ?_, ?_⟩
    · intro i' slot hmem hslot
      by_cases hin : i' ∈ indices
      · exact hzero hin hslot
      · obtain rfl : i' = i := by simpa [hin] using hmem
        rw [hother (fun hcon => hin hcon.2) hslot, hslot.unique hi]
        exact Memory.load_store ..
    · intro name' i' slot hne hslot
      rw [hother (fun hcon => hne ⟨hcon.1, List.mem_cons_of_mem _ hcon.2⟩) hslot]
      refine Activation.load_store_slot_of_ne _ _ hi hslot ?_
      rintro ⟨rfl, rfl⟩
      exact hne ⟨rfl, List.mem_cons_self⟩
    · intro a ha
      rw [habove a ha]
      exact Activation.store_slot_of_le _ _ hi ha

theorem realized_declareRecord {name typeName : String} (fields : List String) :
    (Stmt.declareRecord name typeName).Realized L n env t .normal
      (env.put name (.record (fields.map (·, 0)))) t := by
  intro act s s' code k k' j m hl hc hp hh hj hm ht hd
  obtain rfl : k' = j := Option.some.inj hj
  cases hl with
  | @declareRecord _ _ decl _ _ base hdecl hdeclare _ =>
    have hdeclared := hdeclare.declare_grows.2.2.1
    have hslots (i : Nat) (hi : i ∈ List.range decl.slots) :
        SlotAt act.frame.vars name i (base - i * wordSize) :=
      (Frame.slotAt_declare (List.mem_range.1 hi) hdeclared).mono hc.vars
    obtain ⟨m', he, hregs, htrace, hzero, hother, habove⟩ := exists_clear hslots hm.rbp
    obtain ⟨hnew, -, -, hframe⟩ := Frame.declare_eq_ok.1 hdeclared
    have hvar : act.frame.vars.find? name = some ⟨base, .record typeName decl.slots⟩ :=
      Table.find?_of_prefix hc.vars (by simp [hframe, hnew])
    have hscope : act.frame.scope.find? name = some (some typeName) := by
      simp [Frame.find?_scope, hvar, VarKind.typeName?]
    have hall {i slot : Nat} (hs : SlotAt act.frame.vars name i slot) :
        i ∈ List.range decl.slots := by
      obtain ⟨var, hv, hi, -⟩ := hs
      obtain rfl : var = ⟨base, .record typeName decl.slots⟩ :=
        Option.some.inj (hv.symm.trans hvar)
      exact List.mem_range.2 hi
    have hcode : Lower.clearCode base decl.slots =
        Code.ofInstrs ((List.range decl.slots).map fun i => .storeZero (base - i * wordSize)) := by
      rw [Code.ofInstrs, List.map_map]
      rfl
    rw [hcode] at hh
    refine ⟨m', Image.reaches_execAll hh he, by rintro _ ⟨⟩, htrace.trans ht, ?_, ?_⟩
    · refine ⟨hregs ▸ hm.rbp, hregs ▸ hm.rsp, hm.represents.put_record hscope ?_ ?_ fields⟩
      · exact fun hne hs => hother (fun hcon => hne hcon.1) hs
      · exact fun hs => hzero (hall hs) hs
    · exact ⟨by rw [hregs], by rw [hregs], by rw [hregs], fun a ha _ => habove a ha⟩

/-! ## Returns and expressions -/

theorem realized_retNone : (Stmt.ret none).Realized L n env t (.returned 0) env t := by
  intro act s s' code k k' j m hl hc hp hh hj hm ht hd
  cases hl
  obtain ⟨hmov, hjmp, -⟩ := hh
  refine ⟨_, .head (Image.step_exec hmov rfl) (.single (Image.step_goto hjmp hj _)), ?_, ht, ?_, ?_⟩
  · rintro v ⟨⟩
    simp
  · exact ⟨hm.rbp, hm.rsp, hm.represents⟩
  · exact ⟨rfl, rfl, rfl, fun _ _ _ => rfl⟩

theorem realized_ret {value : Expr} {v : Word} (h : value.Realized L n env t v t') :
    (Stmt.ret (some value)).Realized L n env t (.returned v) env t' := by
  intro act s s' code k k' j m hl hc hp hh hj hm ht hd
  cases hl with
  | ret hv =>
    obtain ⟨k₁, hcode, hjmp, -⟩ := Image.holds_append.1 hh
    obtain ⟨m₁, hr, rfl, ht₁, hm₁, hk⟩ := h.reaches hv hc hp hcode hm ht hd
    rw [hv.frame_eq] at hjmp
    refine ⟨m₁, hr.tail (Image.step_goto hjmp hj m₁), ?_, ht₁, hm₁, hk⟩
    rintro v ⟨⟩
    rfl

theorem realized_eval {value : Expr} {v : Word} (h : value.Realized L n env t v t') :
    (Stmt.eval value).Realized L n env t .normal env t' := by
  intro act s s' code k k' j m hl hc hp hh hj hm ht hd
  obtain rfl : k' = j := Option.some.inj hj
  cases hl with
  | eval hv =>
    obtain ⟨m₁, hr, -, ht₁, hm₁, hk⟩ := h.reaches hv hc hp hh hm ht hd
    exact ⟨m₁, hr, by rintro _ ⟨⟩, ht₁, hm₁, hk⟩

theorem realized_leave : Stmt.leave.Realized L n env t .leave env t := by
  intro act s s' code k k' j m hl hc hp hh hj hm ht hd
  cases hl with
  | leave hloop =>
    simp only [Outcome.target?, hloop, Option.bind_some] at hj
    exact ⟨m, .single (Image.step_goto hh.1 hj m), by rintro _ ⟨⟩, ht, hm, .refl _ _ m⟩

theorem realized_again : Stmt.again.Realized L n env t .again env t := by
  intro act s s' code k k' j m hl hc hp hh hj hm ht hd
  cases hl with
  | again hloop =>
    simp only [Outcome.target?, hloop, Option.bind_some] at hj
    exact ⟨m, .single (Image.step_goto hh.1 hj m), by rintro _ ⟨⟩, ht, hm, .refl _ _ m⟩

/-! ## Blocks -/

theorem allRealized_nil : AllRealized L n [] env t .normal env t := by
  intro act s s' code k k' j m hl hc hp hh hj hm ht hd
  obtain rfl : k' = j := Option.some.inj hj
  cases hl
  obtain rfl : k = k' := hh
  exact ⟨m, .refl, by rintro _ ⟨⟩, ht, hm, .refl _ _ m⟩

theorem Realized.stop {stmt : Stmt} {stmts : List Stmt}
    (h : stmt.Realized L n env t outcome env' t') (hn : outcome ≠ .normal) :
    AllRealized L n (stmt :: stmts) env t outcome env' t' := by
  intro act s s' code k k' j m hl hc hp hh hj hm ht hd
  rw [blockWords] at hd
  cases hl with
  | cons hf hr =>
    obtain ⟨k₁, hfirst, -⟩ := Image.holds_append.1 hh
    exact h hf (hc.of_grows hr.grows hr.frame_grows.vars) hp hfirst
      ((Outcome.target?_of_ne_normal hn k₁ k').trans hj) hm ht (by omega)

theorem Realized.cons {stmt : Stmt} {stmts : List Stmt}
    (h : stmt.Realized L n env t .normal env₁ t₁)
    (hs : AllRealized L n stmts env₁ t₁ outcome env' t') :
    AllRealized L n (stmt :: stmts) env t outcome env' t' := by
  intro act s s' code k k' j m hl hc hp hh hj hm ht hd
  rw [blockWords] at hd
  cases hl with
  | cons hf hr =>
    obtain ⟨k₁, hfirst, hrest⟩ := Image.holds_append.1 hh
    have hg := hf.frame_grows
    obtain ⟨m₁, hr₁, -, ht₁, hm₁, hk⟩ :=
      h hf (hc.of_grows hr.grows hr.frame_grows.vars) hp hfirst rfl hm ht (by omega)
    exact .of_reaches hr₁ hk (hs hr hc (hg.pending.trans hp) hrest
      ((Outcome.target?_of_grows hg k').trans hj) hm₁ ht₁ (by rw [hk.rsp]; omega))

/-! ## Branches and loops -/

/-- A condition is tested, and one of the blocks runs. -/
theorem realized_branch {cond : Expr} {thenBody elseBody : List Stmt} {v : Word}
    (h : cond.Realized L n env t v t₁)
    (hs : AllRealized L n (if v = 0 then elseBody else thenBody) env t₁ outcome env' t') :
    (Stmt.branch cond thenBody elseBody).Realized L n env t outcome env' t' := by
  intro act s s' code k k' j m hl hc hp hh hj hm ht hd
  rw [stackWords] at hd
  cases hl with
  | @branch _ _ _ s₁ _ test body hcond hbody =>
    simp only [Image.holds_append, Image.holds_label, Image.holds_nil] at hh
    obtain ⟨k₃, ⟨k₂, ⟨k₁, htest, hjump⟩, hthen⟩, hend, rfl⟩ := hh
    have hframe : s.frame = (s₁.skipLabels 1).frame := hcond.frame_eq.symm
    have hc₁ : act.Covers s₁ := hc.of_grows hbody.grows.of_skipLabels hbody.frame_grows.vars
    obtain ⟨m₁, hr, ht₁, hm₁, hk⟩ := h.test hcond hc₁ hp htest hjump hend hm ht (by omega)
    refine .of_reaches hr hk ?_
    by_cases hv : v = 0
    · rw [if_pos hv] at hs ⊢
      exact hs (.nil s₁) hc₁ (hframe ▸ hp) rfl (hframe ▸ hj) hm₁ ht₁ (by rw [hk.rsp]; omega)
    · rw [if_neg hv] at hs ⊢
      exact hs hbody hc (hframe ▸ hp) hthen (hframe ▸ hj) hm₁ ht₁ (by rw [hk.rsp]; omega)
  | @branchElse _ _ _ _ s₁ s₂ _ test body other _ hcond hbody hother =>
    simp only [Image.holds_append, Image.holds_instr, Image.holds_label, Image.holds_nil] at hh
    obtain ⟨k₄, ⟨_, ⟨k₃, ⟨k₂, ⟨k₁, htest, hjump⟩, hthen⟩, hjmp, helse, rfl⟩, hother'⟩, hend, rfl⟩ :=
      hh
    have hframe : s.frame = (s₁.skipLabels 2).frame := hcond.frame_eq.symm
    have hc₂ : act.Covers s₂ := hc.of_grows hother.grows hother.frame_grows.vars
    have hc₁ : act.Covers s₁ := hc₂.of_grows hbody.grows.of_skipLabels hbody.frame_grows.vars
    obtain ⟨m₁, hr, ht₁, hm₁, hk⟩ := h.test hcond hc₁ hp htest hjump helse hm ht (by omega)
    refine .of_reaches hr hk ?_
    by_cases hv : v = 0
    · rw [if_pos hv] at hs ⊢
      have hg := hbody.frame_grows
      rw [← hframe] at hg
      exact hs hother hc (hg.pending.trans hp) hother'
        ((Outcome.target?_of_grows hg _).trans hj) hm₁ ht₁ (by rw [hk.rsp]; omega)
    · rw [if_neg hv] at hs ⊢
      -- At its end, the first block jumps over the second one.
      refine .of_normal (fun hj' => ?_) (fun m₂ => .single (Image.step_goto hjmp hend m₂)) hj
      exact hs hbody hc₂ (hframe ▸ hp) hthen (hframe ▸ hj') hm₁ ht₁ (by rw [hk.rsp]; omega)

theorem realized_loopEnd {cond : Expr} {body : List Stmt} (h : cond.Realized L n env t 0 t') :
    (Stmt.loop cond body).Realized L n env t .normal env t' := by
  intro act s s' code k k' j m hl hc hp hh hj hm ht hd
  rw [stackWords] at hd
  obtain rfl : k' = j := Option.some.inj hj
  cases hl with
  | loop hcond hbody =>
    simp only [List.cons_append, Image.holds_append, Image.holds_instr, Image.holds_label,
      Image.holds_nil] at hh
    obtain ⟨hstart, k₃, ⟨k₂, ⟨k₁, htest, hjump⟩, hcode⟩, hjmp, hstop, rfl⟩ := hh
    obtain ⟨m₁, hr, ht₁, hm₁, hk⟩ :=
      h.test hcond (hc.of_loop hbody).1 hp htest hjump hstop hm ht (by omega)
    exact ⟨m₁, hr, by rintro _ ⟨⟩, ht₁, hm₁, hk⟩

/-- One round of a loop: the condition holds, and the body runs. -/
theorem ends_round {cond : Expr} {body : List Stmt} {v : Word} {round : Outcome}
    (h : cond.Realized L n env t v t₁) (hv : v ≠ 0)
    (hs : AllRealized L n body env t₁ round env' t') :
    ∀ {act : Activation L.toLoaded} {s s' : Lowering} {code : Code} {k k' j : Nat} {m : State},
      (Stmt.loop cond body).Lowers L.decls s code s' → act.Covers s' → s.frame.pending = 0 →
      L.image.Holds k code k' → round.loopTarget? L.image s.frame k k' = some j →
      act.Active env 0 m → m.trace = t →
      8 * (Stmt.loop cond body).stackWords + L.stackFor n ≤ (m.regs .rsp).toNat →
      act.Ends k m round j env' t' := by
  intro act s s' code k k' j m hl hc hp hh hj hm ht hd
  rw [stackWords] at hd
  cases hl with
  | @loop _ _ _ s₁ s₂ _ _ hcond hbody =>
    simp only [List.cons_append, Image.holds_append, Image.holds_instr, Image.holds_label,
      Image.holds_nil] at hh
    obtain ⟨hstart, k₃, ⟨k₂, ⟨k₁, htest, hjump⟩, hcode⟩, hjmp, hstop, rfl⟩ := hh
    obtain ⟨hc₁, hc₂⟩ := hc.of_loop hbody
    obtain ⟨m₁, hr, ht₁, hm₁, hk⟩ := h.test hcond hc₁ hp htest hjump hstop hm ht (by omega)
    rw [if_neg hv] at hr
    refine .of_reaches hr hk ?_
    -- The labels of the loop are the targets of the body.
    have hframe := hcond.frame_eq
    have htarget : round.target? L.image
        (s₁.frame.enterLoop ⟨s.nextLabel, s.nextLabel + 1⟩) k = some j := by
      rw [← hj]
      cases round <;> simp [Outcome.target?, Outcome.loopTarget?, Frame.innermostLoop?,
        Frame.enterLoop, hstart, hstop, hframe]
    refine .of_normal (fun hj' => ?_) (fun m₂ => .single (Image.step_goto hjmp hstart m₂)) htarget
    exact hs hbody hc₂ (by simpa [Frame.enterLoop, hframe] using hp) hcode hj' hm₁ ht₁
      (by rw [hk.rsp]; omega)

theorem realized_loopLeave {cond : Expr} {body : List Stmt} {v : Word}
    (h : cond.Realized L n env t v t₁) (hv : v ≠ 0)
    (hs : AllRealized L n body env t₁ .leave env' t') :
    (Stmt.loop cond body).Realized L n env t .normal env' t' := by
  intro act s s' code k k' j m hl hc hp hh hj hm ht hd
  exact (ends_round h hv hs hl hc hp hh hj hm ht hd).of_outcome (by rintro _ ⟨⟩)

theorem realized_loopReturn {cond : Expr} {body : List Stmt} {v result : Word}
    (h : cond.Realized L n env t v t₁) (hv : v ≠ 0)
    (hs : AllRealized L n body env t₁ (.returned result) env' t') :
    (Stmt.loop cond body).Realized L n env t (.returned result) env' t' :=
  ends_round h hv hs

theorem realized_loopRound {cond : Expr} {body : List Stmt} {v : Word} {round : Outcome}
    (h : cond.Realized L n env t v t₁) (hv : v ≠ 0)
    (hs : AllRealized L n body env t₁ round env₁ t₂) (hround : round = .normal ∨ round = .again)
    (hrest : (Stmt.loop cond body).Realized L n env₁ t₂ outcome env' t') :
    (Stmt.loop cond body).Realized L n env t outcome env' t' := by
  intro act s s' code k k' j m hl hc hp hh hj hm ht hd
  have hstart : round.loopTarget? L.image s.frame k k' = some k := by
    rcases hround with rfl | rfl <;> rfl
  obtain ⟨m₁, hr, -, ht₁, hm₁, hk⟩ := ends_round h hv hs hl hc hp hh hstart hm ht hd
  exact .of_reaches hr hk (hrest hl hc hp hh hj hm₁ ht₁ (by rwa [hk.rsp]))

/-! ## Printing -/

/-- A value is printed, and then a line end. -/
theorem realized_print {value : Expr} {v u u' : Word} (h : value.Realized L n env t v t₁)
    (hb : ∀ name, value = .ident name → ∃ v isText, env.find? name = some (.word v isText))
    (hprint : L.world.Answers (if value.isText env then "print_string" else "print_integer") [v]
      t₁ u t₂) (hline : L.world.Answers "print_newline" [] t₂ u' t') :
    (Stmt.print value).Realized L n env t .normal env t' := by
  intro act s s' code k k' j m hl hc hp hh hj hm ht hd
  rw [stackWords] at hd
  obtain rfl : k' = j := Option.some.inj hj
  cases hl with
  | print hv =>
    simp only [Image.holds_append (b := Lower.callCode _ _)] at hh
    obtain ⟨k₃, ⟨k₂, hh, hcall⟩, hcall'⟩ := hh
    obtain ⟨k₁, hcode, hmov, rfl⟩ := Image.holds_append.1 hh
    obtain ⟨m₁, hr₁, rfl, ht₁, hm₁, hk₁⟩ := h.reaches hv hc hp hcode hm ht (by omega)
    have hm₂ : act.Active env 0 (m₁.set .rdi (m₁.regs .rax)) := ⟨hm₁.rbp, hm₁.rsp, hm₁.represents⟩
    have hrsp : (m₁.set .rdi (m₁.regs .rax)).regs .rsp = m.regs .rsp := by simp [hk₁.rsp]
    rw [hv.frame_eq, hp] at hcall hcall'
    have hprinter :
        (Callee.library (value.printer s.frame)).Realized L 0 [m₁.regs .rax] t₁ u t₂ := by
      rw [← hv.isString_eq hc hm.represents hb, hv.frame_eq] at hprint
      obtain ⟨b, hfind, harity⟩ :
          ∃ b, Builtin.find? (value.printer s.frame) = some b ∧ b.arity = 1 := by
        unfold Expr.printer
        split_ifs <;> exact ⟨_, rfl, rfl⟩
      exact Callee.realized_library hfind (by exact harity) hprint
    have hnewline : (Callee.library "print_newline").Realized L 0 [] t₂ u' t' :=
      Callee.realized_library rfl rfl hline
    obtain ⟨m₃, hr₃, -, ht₃, hk₃⟩ := hprinter.yields_callCode hm₂ hcall (by simp [Register.args])
      ht₁ (by rw [hrsp]; omega)
    obtain ⟨m₄, hr₄, -, ht₄, hk₄⟩ := hnewline.yields_callCode (hm₂.of_keeps hk₃) hcall' rfl ht₃
      (by rw [hk₃.rsp, hrsp]; omega)
    have hm₃ := hm₂.of_keeps hk₃
    have hk := (hk₃.mono hm₂.rsp_le_base).trans (hk₄.mono hm₃.rsp_le_base)
    refine ⟨m₄, hr₁.trans (.head (Image.step_exec hmov rfl) (hr₃.trans hr₄)), by rintro _ ⟨⟩, ht₄,
      hm₃.of_keeps hk₄, hk₁.trans ⟨?_, ?_, ?_, hk.memory⟩⟩
    · simpa using hk.rsp
    · simpa using hk.rbp
    · simpa using hk.rbx

end Stmt

end WordLang
