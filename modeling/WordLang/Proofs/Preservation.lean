import WordLang.Proofs.Statements

/-!
# Programs keep their meaning

A function that is called sets up its frame, stores its arguments, runs its body, and returns with
its value in `%rax`. Together with what holds of expressions and statements this shows, by induction
over evaluations, that the code of a program computes what the program means.
-/
namespace WordLang

open Asm Machine

/-- A called function returns with its value, with room for calls nested `n` deep. -/
def Linked.FunctionRealized (L : Linked) (n : Nat) (f : FunctionDecl) (vs : List Word) (t : Trace)
    (v : Word) (t' : Trace) : Prop :=
  ∀ {k : Nat} {m : State}, L.image.symbols.find? f.name = some k →
    m.Enters L.runtime vs t (L.stackFor n) → L.image.Returns L.runtime k m v t'

/-! ## Frames -/

/-- The frame is set up: the caller's frame pointer is saved, and there is room for variables. -/
theorem Asm.Routine.execAll_prologue (r : Routine) (literal : Nat → Word) (m : State) :
    ∃ m', Instr.execAll literal r.prologue m = some m' ∧ m'.regs .rbp = m.regs .rsp - 8 ∧
      m'.regs .rsp = m.regs .rsp - 8 - BitVec.ofNat 64 r.stackSize ∧
      (∀ reg, reg ≠ .rsp → reg ≠ .rbp → m'.regs reg = m.regs reg) ∧
      m'.memory = m.memory.store (m.regs .rsp - 8) (m.regs .rbp) ∧ m'.trace = m.trace := by
  unfold prologue
  split_ifs with hz
  · refine ⟨_, rfl, by simp, by simp [hz], ?_, rfl, rfl⟩
    intro reg hsp hbp
    simp [hsp, hbp]
  · refine ⟨_, rfl, ?_, ?_, ?_, rfl, rfl⟩
    · simp [Instr.exec.difference, State.compute]
    · simp [Instr.exec.difference, State.compute]
    · intro reg hsp hbp
      simp [Instr.exec.difference, State.compute, hsp, hbp]

namespace StoresParams

variable {L : Linked} {act : Activation L.toLoaded}

/-- Parameters are stored into their slots, one after another. -/
theorem reaches {params : List (String × Register)} {s s' : Lowering} {code : Code}
    (h : StoresParams params s code s') (hc : act.Covers s') {k k' : Nat}
    (hh : L.image.Holds k code k') {env : Env}
    (henv : ∀ name, s.frame.vars.find? name = none → env.find? name = none) {m : State}
    (hm : act.Active env 0 m) :
    ∃ m', L.image.Reaches L.runtime (L.image.address k, m) (L.image.address k', m') ∧
      m'.trace = m.trace ∧
      act.Active (env ++ params.map fun p => (p.1, .word (m.regs p.2) false)) 0 m' ∧
      m.Keeps act.base.toNat L.runtime.stackTop m' := by
  induction h generalizing k env m with
  | nil =>
    obtain rfl : k = k' := hh
    exact ⟨m, .refl, rfl, by simpa using hm, .refl _ _ m⟩
  | @cons name register rest s s₁ s' code offset hd hr ih =>
    -- Parameters are new names, so the variable comes last in the environment, as in the frame.
    obtain ⟨hstore, hh⟩ := hh
    obtain ⟨hnew, -, -, hframe⟩ := Frame.declare_eq_ok.1 hd.declare_grows.2.2.1
    have hvar : act.frame.vars.find? name =
        some ⟨offset, if false then VarKind.string else .scalar⟩ :=
      Table.find?_of_prefix (hr.grows.2.vars.trans hc.vars) (by simp [hframe, hnew])
    have hslot : SlotAt act.frame.vars name 0 offset := ⟨_, hvar, Nat.one_pos, by simp⟩
    let m₁ := m.write (act.slot offset) (m.regs register)
    have hexec : Instr.exec L.image.literal (.store register offset) m = some m₁ := by
      rw [Instr.exec, hm.slot_eq]
    have hput : env.put name (.word (m.regs register) false) =
        env ++ [(name, .word (m.regs register) false)] :=
      Table.put_of_find?_eq_none (henv name hnew) _
    have hm₁ : act.Active (env ++ [(name, .word (m.regs register) false)]) 0 m₁ :=
      ⟨hm.rbp, hm.rsp, hput ▸ hm.represents.put_word hvar _⟩
    have henv₁ : ∀ name', s₁.frame.vars.find? name' = none →
        Table.find? (env ++ [(name, .word (m.regs register) false)]) name' = none := by
      intro name' hn
      simp only [hframe, Table.find?_append_singleton, Option.or_eq_none_iff] at hn ⊢
      exact ⟨henv name' hn.1, by simpa using hn.2⟩
    obtain ⟨m', hreach, ht, hm', hk⟩ := ih hc hh henv₁ hm₁
    refine ⟨m', .head (Image.step_exec hstore hexec) hreach, ht, by simpa [m₁] using hm', ?_⟩
    have hk₁ : m.Keeps act.base.toNat L.runtime.stackTop m₁ :=
      ⟨rfl, rfl, rfl, fun a ha _ => Activation.store_slot_of_le _ _ hslot ha⟩
    exact hk₁.trans hk

end StoresParams

namespace Linked

variable {L : Linked} {n : Nat} {f : FunctionDecl} {vs : List Word} {t t' : Trace} {v : Word}

/-- The frame is given back, and the function returns. -/
theorem reaches_epilogue {k k' : Nat} (hh : L.image.Holds k (.ofInstrs Routine.epilogue) k')
    (m : State) :
    ∃ m', L.image.Reaches L.runtime (L.image.address k, m)
        (m.memory.load (m.regs .rbp + 8), m') ∧
      m'.regs .rsp = m.regs .rbp + 8 + 8 ∧ m'.regs .rbp = m.memory.load (m.regs .rbp) ∧
      (∀ reg, reg ≠ .rsp → reg ≠ .rbp → m'.regs reg = m.regs reg) ∧ m'.memory = m.memory ∧
      m'.trace = m.trace := by
  obtain ⟨hmov, hpop, hret, -⟩ := hh
  let m₁ := m.set .rsp (m.regs .rbp)
  let m₂ := m₁.drop.set .rbp m₁.top
  have htop : m₂.top = m.memory.load (m.regs .rbp + 8) := by simp [State.top, m₁, m₂]
  have hmov₁ : L.image.step L.runtime (L.image.address k, m) = some (L.image.address (k + 1), m₁) :=
    Image.step_exec hmov rfl
  have hpop₁ : L.image.step L.runtime (L.image.address (k + 1), m₁) =
      some (L.image.address (k + 1 + 1), m₂) := Image.step_exec hpop rfl
  refine ⟨m₂.drop, htop ▸ .head hmov₁ (.head hpop₁ (.single (Image.step_ret hret m₂))), ?_, ?_, ?_,
    rfl, rfl⟩
  · simp [m₁, m₂]
  · simp [m₁, m₂, State.top]
  · intro reg hsp hbp
    simp [m₁, m₂, hsp, hbp]

/-- The arguments are in the registers of their parameters. -/
theorem map_zip_args_eq {params : List String} {vs : List Word} (hlen : params.length = vs.length)
    {regs : Register → Word} (hargs : (Register.args.take vs.length).map regs = vs) :
    ((params.zip Register.args).map fun p => (p.1, Binding.word (regs p.2) false)) =
      Env.ofArgs params vs := by
  have hzip : params.zip Register.args = params.zip (Register.args.take vs.length) :=
    calc
      _ = (params.zip Register.args).take vs.length :=
        (List.take_of_length_le (by simp [hlen])).symm
      _ = params.zip (Register.args.take vs.length) := by
        rw [List.zip, List.take_zipWith, ← hlen, List.take_length]
  rw [hzip, Env.ofArgs]
  nth_rewrite 2 [← hargs]
  rw [List.zip_map_right, List.map_map]
  rfl

/-- The frame of a called function, before its parameters are stored. -/
theorem exists_activation {s' : Lowering} {r : Routine} (hs : s'.frame.Sound L.decls)
    (hr : r.frameSize = s'.frame.size) {m : State} (halign : (m.regs .rsp).toNat % 16 = 8)
    (htop : (m.regs .rsp).toNat + 8 ≤ L.runtime.stackTop)
    (hroom : 8 + alignTo16 s'.frame.size ≤ (m.regs .rsp).toNat) :
    ∃ act : Activation L.toLoaded, act.frame = s'.frame ∧ act.base = m.regs .rsp - 8 ∧
      act.base.toNat + 8 = (m.regs .rsp).toNat ∧
      ∃ m₁, Instr.execAll L.image.literal r.prologue m = some m₁ ∧ act.Active [] 0 m₁ ∧
        (∀ reg ∈ Register.args, m₁.regs reg = m.regs reg) ∧ m₁.regs .rbx = m.regs .rbx ∧
        m₁.memory = m.memory.store act.base (m.regs .rbp) ∧ m₁.trace = m.trace := by
  let act := Activation.ofEntry hs halign htop hroom
  have hbase : act.base.toNat + 8 = (m.regs .rsp).toNat := Activation.toNat_base_ofEntry ..
  obtain ⟨m₁, he, hrbp, hrsp, hregs, hmem, ht⟩ := r.execAll_prologue L.image.literal m
  have hrsp₁ : (m₁.regs .rsp).toNat = act.base.toNat - alignTo16 s'.frame.size := by
    rw [hrsp, Routine.stackSize, hr]
    exact toNat_sub_ofNat act.size_le
  have hm₁ : act.Active [] 0 m₁ := by
    refine ⟨hrbp, ?_, nofun, nofun, ?_⟩
    · have hfit : alignTo16 s'.frame.size ≤ act.base.toNat := act.size_le
      show (m₁.regs .rsp).toNat + 0 * wordSize + alignTo16 s'.frame.size = act.base.toNat
      omega
    · rintro _ _ _ _ (⟨⟨⟩⟩ | ⟨⟨⟩⟩) _
  refine ⟨act, rfl, rfl, hbase, m₁, he, hm₁, ?_, ?_, hmem, ht⟩
  · intro reg hreg
    refine hregs reg ?_ ?_ <;> rintro rfl <;> simp [Register.args] at hreg
  · exact hregs .rbx (by decide) (by decide)

/-- A body that ends with a value leads to the exit of its function, with the value in `%rax`. -/
theorem ends_exit {stmts : List Stmt} {env env' : Env} {outcome : Outcome}
    (h : Stmt.AllRealized L n stmts env t outcome env' t') (hv : outcome.value? = some v)
    {act : Activation L.toLoaded} {s s' : Lowering} {code : Code} {k k' : Nat} {m : State}
    (hl : Stmt.LowersBlock L.decls stmts s code s') (hc : act.Covers s')
    (hpending : s.frame.pending = 0) (hh : L.image.Holds k code k')
    (hzero : L.image.instrs[k']? = some (.movImm 0 .rax))
    (hexit : L.image.symbols.find? (labelName s.frame.exitLabel) = some (k' + 1))
    (hm : act.Active env 0 m) (ht : m.trace = t)
    (hroom : 8 * Stmt.blockWords stmts + L.stackFor n ≤ (m.regs .rsp).toNat) :
    act.Ends k m (.returned v) (k' + 1) env' t' := by
  cases outcome with
  | leave | again => cases hv
  | returned w =>
    obtain rfl : w = v := Option.some.inj hv
    exact h hl hc hpending hh hexit hm ht hroom
  | normal =>
    obtain rfl : 0 = v := Option.some.inj hv
    obtain ⟨m', hr, -, ht', hm', hk⟩ := h hl hc hpending hh rfl hm ht hroom
    refine ⟨m'.set .rax 0, hr.tail (Image.step_exec hzero rfl), ?_, ht', ?_, ?_⟩
    · rintro _ ⟨⟩
      simp
    · exact ⟨hm'.rbp, hm'.rsp, hm'.represents⟩
    · exact hk.trans ⟨rfl, rfl, rfl, fun _ _ _ => rfl⟩

/-- From the exit of a function the machine returns to the caller, whose registers and memory are as
they were. -/
theorem returns_of_ends {act : Activation L.toLoaded} {env : Env} {k k₁ j k' : Nat} {m m₁ : State}
    (hbase : act.base = m.regs .rsp - 8) (hnat : act.base.toNat + 8 = (m.regs .rsp).toNat)
    (halign : (m.regs .rsp).toNat % 16 = 8)
    (htop : (m.regs .rsp).toNat + 8 ≤ L.runtime.stackTop)
    (hr : L.image.Reaches L.runtime (L.image.address k, m) (L.image.address k₁, m₁))
    (hrbx : m₁.regs .rbx = m.regs .rbx)
    (hmem : m₁.memory = m.memory.store act.base (m.regs .rbp))
    (h : act.Ends k₁ m₁ (.returned v) j env t')
    (hh : L.image.Holds j (.ofInstrs Routine.epilogue) k') :
    L.image.Returns L.runtime k m v t' := by
  obtain ⟨m₂, hr₂, hv, ht, hm₂, hk⟩ := h
  obtain ⟨m₃, hr₃, hrsp, hrbp, hregs, hmem₃, ht₃⟩ := L.reaches_epilogue hh m₂
  have hlt := (m.regs .rsp).isLt
  -- From the base on the memory is kept: it begins with the saved frame pointer and, next to it,
  -- the return address.
  have hret : act.base + 8 = m.regs .rsp := by rw [hbase, BitVec.sub_add_cancel]
  have hsaved : m₂.memory.load act.base = m.regs .rbp := by
    rw [hk.load_eq (Nat.le_refl _) (by omega) (by omega), hmem, Memory.load_store]
  have hcaller : m₂.memory.load (m.regs .rsp) = m.top := by
    rw [hk.load_eq (by omega) (by omega) (by omega), hmem,
      Memory.load_store_of_disjoint _ _ (by omega) (by omega) (by omega)]
    rfl
  rw [hm₂.rbp, hret] at hr₃ hrsp
  rw [hm₂.rbp, hsaved] at hrbp
  rw [hcaller] at hr₃
  refine ⟨m₃, (hr.trans hr₂).trans hr₃, ?_, ht₃.trans ht, ?_, ?_, ?_, ?_⟩
  · rw [hregs .rax (by decide) (by decide), hv v rfl]
  · simpa using hrsp
  · simpa using hrbp
  · rw [hregs .rbx (by decide) (by decide), hk.rbx, hrbx]
    rfl
  · intro a hl hh
    rw [hmem₃, hk.memory a (by omega) hh, hmem]
    exact Memory.store_of_outside _ _ (by omega) (by omega)

/-- A function is realized if its body is. -/
theorem realized_function (hf : f ∈ L.program.functions) (hlen : f.params.length = vs.length)
    {outcome : Outcome} {env : Env}
    (hb : Stmt.AllRealized L n f.body (.ofArgs f.params vs) t outcome env t')
    (hv : outcome.value? = some v) : L.FunctionRealized (n + 1) f vs t v t' := by
  intro k m hk ⟨hargs, ht, halign, htop, hroom⟩
  obtain ⟨r, s, s', k₀, k', hlow, hpool, hk₀, hh⟩ := L.exists_code hf
  obtain rfl : k₀ = k := Option.some.inj (hk₀.symm.trans hk)
  have hbytes : f.callBytes L.decls ≤ L.program.callBytes := Program.callBytes_le hf
  rw [FunctionDecl.callBytes, ← hlow.size_eq] at hbytes
  rw [Loaded.stackFor_succ] at hroom
  simp only [wordSize] at hbytes
  have hs := hlow.sound
  obtain ⟨-, params, body, s₁, hp, hlb, rfl⟩ := hlow
  obtain ⟨act, hframe, hbase, hnat, m₁, he, hm₁, hregs, hrbx, hmem, ht₁⟩ :=
    L.exists_activation (r := f.routine _ _ params body) hs rfl halign htop (by omega)
  -- The parameters are stored from `k₁` on, the body stands at `k₂`, and the exit is at `k₃ + 1`.
  simp only [Routine.code, FunctionDecl.routine, Image.holds_append] at hh
  obtain ⟨k₁, hprologue, k₄, ⟨k₃, ⟨k₂, hparams, hbody⟩, hzero, hexit, rfl⟩, hepilogue⟩ := hh
  have hc : act.Covers s' := ⟨hframe ▸ List.prefix_rfl, hpool⟩
  have hc₁ : act.Covers s₁ := hc.of_grows hlb.grows hlb.frame_grows.vars
  obtain ⟨m₂, hr₂, ht₂, hm₂, hk₂⟩ := hp.reaches hc₁ hparams (by intros; rfl) hm₁
  have hargs₁ : (Register.args.take vs.length).map m₁.regs = vs :=
    (Register.map_args_congr hregs _).trans hargs
  rw [List.nil_append, map_zip_args_eq hlen hargs₁] at hm₂
  have hrsp := hm₂.rsp
  rw [hframe] at hrsp
  refine returns_of_ends hbase hnat halign htop (Image.reaches_execAll hprologue he) hrbx hmem
    (.of_reaches hr₂ hk₂ (ends_exit hb hv hlb hc ?_ hbody hzero ?_ hm₂ ?_ ?_)) hepilogue
  · exact hp.grows.2.pending
  · rw [hp.grows.2.exitLabel]
    exact hexit
  · exact (ht₂.trans ht₁).trans ht
  · omega

/-! ## Calls -/

/-- A call of a function of the program returns to the instruction after the call. -/
theorem FunctionRealized.callRealized (hf : f ∈ L.program.functions)
    (h : L.FunctionRealized n f vs t v t') : L.CallRealized n f.name vs t v t' := by
  intro callee hcallee k m hcall hargs halign htop ht hd
  obtain ⟨-, rfl⟩ | ⟨hnone, -⟩ := Declarations.callee_eq_ok.1 hcallee
  swap
  · exact (Program.find?_functions_eq_none.1 hnone f hf rfl).elim
  obtain ⟨_, _, _, j, _, -, -, hj, -⟩ := L.exists_code hf
  have hlt := (m.regs .rsp).isLt
  have hnat : (m.regs .rsp - 8).toNat = (m.regs .rsp).toNat - 8 :=
    toNat_sub_ofNat (n := 8) (by omega)
  let m₁ := m.push (L.image.address (k + 1))
  have hrsp : m₁.regs .rsp = m.regs .rsp - 8 := by simp [m₁]
  have hargs₁ : (Register.args.take vs.length).map m₁.regs = vs := by
    refine (Register.map_args_congr (fun r hr => ?_) _).trans hargs
    have hr' : r ≠ .rsp := by
      rintro rfl
      simp [Register.args] at hr
    simp [m₁, hr']
  have htop₁ : m₁.top = L.image.address (k + 1) := by simp [m₁, State.top]
  obtain ⟨m', hr, hv, ht', hk⟩ := h hj
    ⟨hargs₁, ht, by rw [hrsp]; omega, by rw [hrsp]; omega, by rw [hrsp]; omega⟩
  rw [htop₁] at hr
  refine ⟨m', .head (Image.step_call hcall hj m) hr, hv, ht', ?_, ?_, ?_, ?_⟩
  · simpa [m₁, BitVec.sub_add_cancel] using hk.rsp
  · simpa [m₁] using hk.rbp
  · simpa [m₁] using hk.rbx
  · intro a hl hh
    rw [hk.memory a (by rw [hrsp]; omega) hh]
    exact Memory.store_of_outside _ _ (by omega) (by omega)

theorem callRealized_library {name : String} (hn : ∀ f ∈ L.program.functions, f.name ≠ name)
    (h : L.world.Answers name vs t v t') : L.CallRealized n name vs t v t' := by
  intro callee hcallee k m hcall hargs halign htop ht _
  obtain ⟨hsome, -⟩ | ⟨-, rfl, b, hb, harity⟩ := Declarations.callee_eq_ok.1 hcallee
  · simp [Loaded.decls, Program.find?_functions_eq_none.2 hn] at hsome
  · exact Callee.realized_library hb harity h hcall hargs halign htop ht (Nat.zero_le _)

end Linked

/-! ## Evaluations

All that is evaluated is realized, by induction over evaluations. The bound on nested calls goes
down where a function of the program is entered, as `realized_function` says. -/

section

variable {L : Linked}

/-- A variable that is evaluated has a word. -/
theorem Expr.Evaluates.exists_word {p : Program} {w : World} {n : Nat} {e : Expr} {env : Env}
    {t t' : Trace} {v : Word} (h : e.Evaluates p w n env t v t') (name : String)
    (he : e = .ident name) : ∃ v isText, env.find? name = some (.word v isText) := by
  subst he
  cases h with
  | ident _ _ h => exact ⟨_, _, h⟩

mutual

theorem Expr.Evaluates.realized : ∀ {n : Nat} {e : Expr} {env : Env} {t t' : Trace} {v : Word},
    e.Evaluates L.program L.world n env t v t' → e.Realized L n env t v t'
  | _, _, _, _, _, _, .int _ value _ _ => Expr.realized_int value
  | _, _, _, _, _, _, .str _ text _ _ => Expr.realized_str text
  | _, _, _, _, _, _, .ident _ _ h => Expr.realized_ident h
  | _, _, _, _, _, _, .field _ _ h hf => Expr.realized_field h hf
  | _, _, _, _, _, _, .binary hl hr hv => Expr.Realized.binary hl.realized hr.realized hv
  | _, _, _, _, _, _, .compare hl hr => Expr.Realized.compare hl.realized hr.realized
  | _, _, _, _, _, _, .call ha hc => Expr.AllRealized.call ha.realized ha.length_eq hc.realized

theorem Expr.EvaluatesAll.realized :
    ∀ {n : Nat} {args : List Expr} {env : Env} {t t' : Trace} {vs : List Word},
    Expr.EvaluatesAll L.program L.world n args env t vs t' →
    Expr.AllRealized L n args env t vs t'
  | _, _, _, _, _, _, .nil _ _ _ => Expr.allRealized_nil
  | _, _, _, _, _, _, .cons h ha => Expr.Realized.cons h.realized ha.realized

theorem Program.Calls.realized :
    ∀ {n : Nat} {name : String} {vs : List Word} {t t' : Trace} {v : Word},
    L.program.Calls L.world n name vs t v t' → L.CallRealized n name vs t v t'
  | _, _, _, _, _, _, .own hf hlen hb hv =>
    Linked.FunctionRealized.callRealized hf (Linked.realized_function hf hlen hb.realized hv)
  | _, _, _, _, _, _, .library _ hn h => Linked.callRealized_library hn h

theorem Stmt.Executes.realized :
    ∀ {n : Nat} {stmt : Stmt} {env env' : Env} {t t' : Trace} {outcome : Outcome},
    stmt.Executes L.program L.world n env t outcome env' t' →
    stmt.Realized L n env t outcome env' t'
  | _, _, _, _, _, _, _, .declare h => Stmt.realized_declare h.realized h.exists_word
  | _, _, _, _, _, _, _, .declareRecord _ _ _ _ => Stmt.realized_declareRecord _
  | _, _, _, _, _, _, _, .set h => Stmt.realized_set h.realized
  | _, _, _, _, _, _, _, .setField h => Stmt.realized_setField h.realized
  | _, _, _, _, _, _, _, .retNone _ _ _ => Stmt.realized_retNone
  | _, _, _, _, _, _, _, .ret h => Stmt.realized_ret h.realized
  | _, _, _, _, _, _, _, .branch h hb => Stmt.realized_branch h.realized hb.realized
  | _, _, _, _, _, _, _, .loopEnd h => Stmt.realized_loopEnd h.realized
  | _, _, _, _, _, _, _, .loopLeave h hv hb => Stmt.realized_loopLeave h.realized hv hb.realized
  | _, _, _, _, _, _, _, .loopReturn h hv hb => Stmt.realized_loopReturn h.realized hv hb.realized
  | _, _, _, _, _, _, _, .loopRound h hv hb hround hrest =>
    Stmt.realized_loopRound h.realized hv hb.realized hround hrest.realized
  | _, _, _, _, _, _, _, .print h hp hl => Stmt.realized_print h.realized h.exists_word hp hl
  | _, _, _, _, _, _, _, .eval h => Stmt.realized_eval h.realized
  | _, _, _, _, _, _, _, .leave _ _ _ => Stmt.realized_leave
  | _, _, _, _, _, _, _, .again _ _ _ => Stmt.realized_again

theorem Stmt.ExecutesAll.realized :
    ∀ {n : Nat} {stmts : List Stmt} {env env' : Env} {t t' : Trace} {outcome : Outcome},
    Stmt.ExecutesAll L.program L.world n stmts env t outcome env' t' →
    Stmt.AllRealized L n stmts env t outcome env' t'
  | _, _, _, _, _, _, _, .nil _ _ _ => Stmt.allRealized_nil
  | _, _, _, _, _, _, _, .stop h ho => Stmt.Realized.stop h.realized ho
  | _, _, _, _, _, _, _, .cons h hs => Stmt.Realized.cons h.realized hs.realized

end

end

/-- A call of `main` halves 2 and 1, and prints a line. -/
theorem halves_calls_main {w : World} (hw : ∀ t name args, w.answer t name args = some 0) :
    halves.Calls w 2 "main" [] [] 1
      [⟨"print_string", [w.literal "done"], 0⟩, ⟨"print_newline", [], 0⟩] := by
  let vars (count total : Word) : Env := [("p", .record [("count", count), ("total", total)])]
  have half (x v : Word) (h : BinaryOp.eval? .div x 2 = some v) :
      halves.Calls w 1 "half" [x] [] v [] :=
    .own (f := halves.functions[0]) (n := 0) (.head _) rfl
      (.stop (.ret (.binary (.ident _ _ rfl) (.int _ _ _ _) h)) nofun) rfl
  have test (count total : Word) : (Expr.compare .gt (.field "p" "count") (.int 0)).Evaluates
      halves w 1 (vars count total) [] (CompareOp.eval .gt count 0) [] :=
    .compare (.field _ _ rfl rfl) (.int _ _ _ _)
  have round (count total v : Word) (h : BinaryOp.eval? .div count 2 = some v) :
      Stmt.ExecutesAll halves w 1
        [.setField "p" "total"
          (.binary .add (.field "p" "total") (.call "half" [.field "p" "count"])),
        .setField "p" "count" (.binary .sub (.field "p" "count") (.int 1))]
        (vars count total) [] .normal (vars (count - 1) (total + v)) [] :=
    .cons (.setField (.binary (.field _ _ rfl rfl)
        (.call (.cons (.field _ _ rfl rfl) (.nil _ _ _)) (half count v h)) rfl))
      (.cons (.setField (.binary (.field _ _ rfl rfl) (.int _ _ _ _) rfl)) (.nil _ _ _))
  have hloop := Stmt.Executes.loopRound (test 2 0) (by decide) (round 2 0 1 (by decide)) (.inl rfl)
    (.loopRound (test 1 1) (by decide) (round 1 1 0 (by decide)) (.inl rfl)
      (.loopEnd (test 0 1)))
  have hpair : (⟨"Pair", ["count", "total"]⟩ : RecordDecl) ∈ halves.types := .head _
  exact .own (f := halves.functions[1]) (n := 1) (.tail _ (.head _)) rfl
    (.cons (.declareRecord _ _ _ hpair) (.cons (.setField (.int _ _ _ _)) (.cons hloop
      (.cons (.print (.str _ _ _ _) (.intro (hw _ _ _)) (.intro (hw _ _ _)))
        (.stop (.ret (.field _ _ rfl rfl)) nofun))))) rfl

namespace Program

variable {limits : Limits} {p : Program}

/-- The code that is written for a program computes what the program means: a function that is
called with some arguments returns with the value of the call, after the same calls of the support
library, whatever these answer. It takes at most `callBytes` bytes of the stack for each call that
is open at a time. -/
theorem calls_preserved (h : p.Accepted limits)
    (hn : ∀ f ∈ p.functions, IsSymbolName f.name ∧ Builtin.find? f.name = none) :
    ∃ a : Assembly, p.Assembles limits a ∧ p.written limits = utf8 a.text ∧
      ∀ (img : Image) (rt : Runtime), img.Loads a → ∀ f ∈ p.functions,
        ∃ k, img.symbols.find? f.name = some k ∧
          ∀ (n : Nat) (vs : List Word) (t : Trace) (v : Word) (t' : Trace),
            p.Calls (img.world rt a.pool) n f.name vs t v t' →
            ∀ m : State, m.Enters rt vs t (n * p.callBytes) → img.Returns rt k m v t' := by
  obtain ⟨a, ha⟩ := accepted_iff.1 h
  refine ⟨a, ha, ha.written_eq, fun img rt himg f hf => ?_⟩
  let L : Linked :=
    ⟨⟨limits, p, a, img, rt, ha, himg, ha.nodup_symbols fun f hf => (hn f hf).1⟩, hn⟩
  obtain ⟨_, _, _, k, _, -, -, hk, -⟩ := L.exists_code hf
  refine ⟨k, hk, fun n vs t v t' hcall m hm => ?_⟩
  -- The rule names some declaration with the name of `f`, whose code is found at `k` as well.
  generalize hname : f.name = name at hcall hk
  cases hcall with
  | library _ hne _ => exact (hne f hf hname).elim
  | own hg hlen hb hv =>
    exact Linked.realized_function (L := L) hg hlen (Stmt.ExecutesAll.realized hb) hv hk hm

/-- The code of `halves` runs, with a stack of 64 KiB and a library that answers zero. -/
theorem calls_preserved_halves : halves.Accepted {} ∧
    (∀ f ∈ halves.functions, IsSymbolName f.name ∧ Builtin.find? f.name = none) ∧
    ∃ (a : Assembly) (img : Image) (rt : Runtime) (k : Nat) (t : Trace) (m : State),
      halves.written {} = utf8 a.text ∧ img.Loads a ∧ img.symbols.find? "main" = some k ∧
      halves.Calls (img.world rt a.pool) 2 "main" [] [] 1 t ∧
      m.Enters rt [] [] (2 * halves.callBytes) ∧ img.Returns rt k m 1 t := by
  have h : halves.Accepted {} := by decide +kernel
  have hn : ∀ f ∈ halves.functions, IsSymbolName f.name ∧ Builtin.find? f.name = none := by
    decide +kernel
  obtain ⟨a, -, hwritten, hall⟩ := calls_preserved h hn
  have hsize : a.text.utf8ByteSize ≤ 2 ^ 64 := by
    have hlen : (halves.written {}).length ≤ 2 ^ 64 := by decide +kernel
    simpa [hwritten, utf8] using hlen
  obtain ⟨img, himg⟩ := a.exists_image hsize
  let rt : Runtime := ⟨fun _ _ _ => some 0, fun _ s => s, 2 ^ 16, fun _ s _ => .refl _ _ s⟩
  let m : State := ⟨fun _ => 2 ^ 16 - 8, none, fun _ => 0, []⟩
  obtain ⟨k, hk, hcalls⟩ := hall img rt himg _ (.tail _ (.head _))
  have hmain := halves_calls_main (w := img.world rt a.pool) (fun _ _ _ => rfl)
  have hm : m.Enters rt [] [] (2 * halves.callBytes) :=
    ⟨rfl, rfl, by decide, by decide, by decide +kernel⟩
  exact ⟨h, hn, a, img, rt, k, _, m, hwritten, himg, hk, hmain, hm, hcalls _ _ _ _ _ hmain m hm⟩

end Program

end WordLang
