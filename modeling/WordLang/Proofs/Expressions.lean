import WordLang.Proofs.Activation

/-!
# The code of expressions

An expression is realized if its code, wherever it stands in the program, computes its value and
keeps what a callee has to keep, provided that the stack has room for it. Each lemma here is about
one form of expression, whose parts are realized.
-/
namespace WordLang

open Asm Machine

/-- The words `ws` were pushed, the first one first; else all that a callee has to keep is kept. -/
structure Machine.State.Pushes (high : Nat) (ws : List Word) (s s' : State) : Prop where
  rsp : (s'.regs .rsp).toNat + ws.length * wordSize = (s.regs .rsp).toNat
  rbp : s'.regs .rbp = s.regs .rbp
  rbx : s'.regs .rbx = s.regs .rbx
  memory : ∀ a : Word, (s.regs .rsp).toNat ≤ a.toNat → a.toNat < high → s'.memory a = s.memory a
  stack : s'.memory.Stack (s'.regs .rsp) ws.reverse

/-- The words `ws` were pushed, by code that keeps the frame pointer and the memory of the stack,
and nothing else. -/
structure Machine.State.Stacks (high : Nat) (ws : List Word) (s s' : State) : Prop where
  rsp : (s'.regs .rsp).toNat + ws.length * wordSize = (s.regs .rsp).toNat
  rbp : s'.regs .rbp = s.regs .rbp
  memory : ∀ a : Word, (s.regs .rsp).toNat ≤ a.toNat → a.toNat < high → s'.memory a = s.memory a
  stack : s'.memory.Stack (s'.regs .rsp) ws.reverse

namespace Expr

/-- The code of `e` computes `v`, with room for calls nested `n` deep. -/
def Realized (L : Linked) (n : Nat) (e : Expr) (env : Env) (t : Trace) (v : Word) (t' : Trace) :
    Prop :=
  ∀ {act : Activation L.toLoaded} {s s' : Lowering} {code : Code} {k k' : Nat} {m : State},
    e.Lowers L.decls s code s' → act.Covers s' → L.image.Holds k code k' →
    act.Active env s.frame.pending m → m.trace = t →
    8 * e.stackWords + L.stackFor n ≤ (m.regs .rsp).toNat → L.image.Yields L.runtime k k' m v t'

/-- The code of arguments pushes their values. -/
def AllRealized (L : Linked) (n : Nat) (args : List Expr) (env : Env) (t : Trace) (vs : List Word)
    (t' : Trace) : Prop :=
  ∀ {act : Activation L.toLoaded} {s s' : Lowering} {code : Code} {k k' : Nat} {m : State},
    LowersArgs L.decls args s code s' → act.Covers s' → L.image.Holds k code k' →
    act.Active env s.frame.pending m → m.trace = t →
    8 * argsWords args + L.stackFor n ≤ (m.regs .rsp).toNat →
    ∃ m', L.image.Reaches L.runtime (L.image.address k, m) (L.image.address k', m') ∧
      m'.trace = t' ∧ m.Pushes L.runtime.stackTop vs m'

end Expr

/-- A call computes `v`, with the arguments in their registers and the stack aligned. -/
def Asm.Callee.Realized (L : Linked) (callee : Callee) (depth : Nat) (vs : List Word) (t : Trace)
    (v : Word) (t' : Trace) : Prop :=
  ∀ {k : Nat} {m : State}, L.image.instrs[k]? = some (.call callee) →
    (Register.args.take vs.length).map m.regs = vs → 16 ∣ (m.regs .rsp).toNat →
    (m.regs .rsp).toNat ≤ L.runtime.stackTop → m.trace = t → depth ≤ (m.regs .rsp).toNat →
    L.image.Yields L.runtime k (k + 1) m v t'

/-- A call by name computes `v`, with room for calls nested `n` deep. -/
def Linked.CallRealized (L : Linked) (n : Nat) (name : String) (vs : List Word) (t : Trace)
    (v : Word) (t' : Trace) : Prop :=
  ∀ {callee : Callee}, L.decls.callee name vs.length = .ok callee →
    callee.Realized L (8 + L.stackFor n) vs t v t'

/-! ## Pushes -/

namespace Machine.State

variable {high : Nat} {s s₁ s' : State}

namespace Stacks

variable {ws ws' : List Word}

theorem push (s : State) (h : 8 ≤ (s.regs .rsp).toNat) (v : Word) :
    s.Stacks high [v] (s.push v) := by
  have hsub : (s.regs .rsp - 8).toNat = (s.regs .rsp).toNat - 8 := toNat_sub_ofNat h
  have := (s.regs .rsp).isLt
  refine ⟨?_, rfl, ?_, ?_, trivial⟩
  · simp only [push_regs, if_true, hsub, wordSize, List.length_singleton]
    omega
  · intro a ha _
    exact Memory.store_of_outside _ _ (by omega) (by omega)
  · simp

/-- Nothing was pushed. -/
theorem nil (hsp : s'.regs .rsp = s.regs .rsp) (hbp : s'.regs .rbp = s.regs .rbp)
    (hm : ∀ a : Word, (s.regs .rsp).toNat ≤ a.toNat → a.toNat < high →
      s'.memory a = s.memory a) : s.Stacks high [] s' :=
  ⟨by simp [hsp], hbp, hm, trivial⟩

/-- Popping all that was pushed brings the stack pointer back. -/
theorem rsp_add (h : s.Stacks high ws s') :
    s'.regs .rsp + BitVec.ofNat 64 (ws.length * 8) = s.regs .rsp := by
  have hrsp := h.rsp
  have := (s.regs .rsp).isLt
  simp only [wordSize] at hrsp
  apply BitVec.eq_of_toNat_eq
  rw [BitVec.toNat_add_of_lt] <;> simp <;> omega

theorem rsp_eq (h : s.Stacks high [] s') : s'.regs .rsp = s.regs .rsp := by
  simpa using h.rsp_add

/-- Pushes after pushes. The words that were pushed first are still there. -/
theorem append (h : s.Stacks high ws s₁) (h' : s₁.Stacks high ws' s')
    (hh : (s.regs .rsp).toNat ≤ high) : s.Stacks high (ws ++ ws') s' := by
  have hrsp := h.rsp
  have hrsp' := h'.rsp
  have := (s.regs .rsp).isLt
  simp only [wordSize] at hrsp hrsp'
  refine ⟨?_, h'.rbp.trans h.rbp, ?_, ?_⟩
  · simp only [List.length_append, wordSize]
    omega
  · intro a hl hh
    exact (h'.memory a (by omega) hh).trans (h.memory a hl hh)
  · rw [List.reverse_append]
    refine h'.stack.append ?_
    rw [List.length_reverse, h'.rsp_add]
    refine h.stack.congr (by rw [List.length_reverse]; omega) fun a hl hh' => ?_
    rw [List.length_reverse] at hh'
    exact h'.memory a hl (by omega)

end Stacks

theorem Pushes.stacks {ws : List Word} (h : s.Pushes high ws s') : s.Stacks high ws s' :=
  ⟨h.rsp, h.rbp, h.memory, h.stack⟩

theorem Stacks.pushes {ws : List Word} (h : s.Stacks high ws s')
    (hb : s'.regs .rbx = s.regs .rbx) : s.Pushes high ws s' :=
  ⟨h.rsp, h.rbp, hb, h.memory, h.stack⟩

theorem Keeps.stacks (h : s.Keeps (s.regs .rsp).toNat high s') : s.Stacks high [] s' :=
  .nil h.rsp h.rbp h.memory

theorem Stacks.keeps (h : s.Stacks high [] s') (hb : s'.regs .rbx = s.regs .rbx) :
    s.Keeps (s.regs .rsp).toNat high s' :=
  ⟨h.rsp_eq, h.rbp, hb, h.memory⟩

theorem pushes_push (s : State) (h : 8 ≤ (s.regs .rsp).toNat) (v : Word) :
    s.Pushes high [v] (s.push v) :=
  (Stacks.push s h v).pushes rfl

theorem Pushes.of_keeps {ws : List Word} (hk : s.Keeps (s.regs .rsp).toNat high s₁)
    (hp : s₁.Pushes high ws s') : s.Pushes high ws s' := by
  refine ⟨hp.rsp.trans (by rw [hk.rsp]), hp.rbp.trans hk.rbp, hp.rbx.trans hk.rbx, ?_, hp.stack⟩
  intro a hl hh
  exact (hp.memory a (by rwa [hk.rsp]) hh).trans (hk.memory a hl hh)

theorem Pushes.rsp_add {ws : List Word} (h : s.Pushes high ws s') :
    s'.regs .rsp + BitVec.ofNat 64 (ws.length * 8) = s.regs .rsp :=
  h.stacks.rsp_add

/-- The words are on the stack, also after what keeps the stack. -/
theorem Pushes.stack_of_keeps {ws : List Word} (h : s.Pushes high ws s₁)
    (hk : s₁.Keeps (s₁.regs .rsp).toNat high s') (hh : (s.regs .rsp).toNat ≤ high) :
    s'.memory.Stack (s'.regs .rsp) ws.reverse := by
  simpa using (h.stacks.append hk.stacks hh).stack

/-- Pushes after a push. -/
theorem Pushes.cons {v : Word} {ws : List Word} (hv : s.Pushes high [v] s₁)
    (hp : s₁.Pushes high ws s') (hh : (s.regs .rsp).toNat ≤ high) : s.Pushes high (v :: ws) s' :=
  (hv.stacks.append hp.stacks hh).pushes (hp.rbx.trans hv.rbx)

end Machine.State

/-! ## Instructions around operands and calls -/

/-- Pops bring the words on the stack into registers. -/
theorem Asm.Instr.execAll_pops (literal : Nat → Word) {rs : List Register} (hd : rs.Nodup)
    (hsp : .rsp ∉ rs) {ws : List Word} (hl : rs.length = ws.length) {m : State}
    (hs : m.memory.Stack (m.regs .rsp) ws) :
    ∃ m', execAll literal (rs.map .pop) m = some m' ∧ rs.map m'.regs = ws ∧
      m'.regs .rsp = m.regs .rsp + BitVec.ofNat 64 (ws.length * 8) ∧
      (∀ r, r ∉ rs → r ≠ .rsp → m'.regs r = m.regs r) ∧ m'.memory = m.memory ∧
      m'.trace = m.trace := by
  induction rs generalizing ws m with
  | nil =>
    obtain rfl : ws = [] := List.length_eq_zero_iff.1 hl.symm
    exact ⟨m, rfl, rfl, by simp, fun _ _ _ => rfl, rfl, rfl⟩
  | cons r rs ih =>
    obtain ⟨w, ws, rfl⟩ := List.exists_cons_of_length_eq_add_one hl.symm
    obtain ⟨hr, hd⟩ := List.nodup_cons.1 hd
    simp only [List.mem_cons, not_or] at hsp
    let m₁ := m.drop.set r m.top
    have hrsp : m₁.regs .rsp = m.regs .rsp + 8 := by simp [m₁, hsp.1]
    obtain ⟨m', he, hregs, hrsp', hother, hmem, htrace⟩ := ih hd hsp.2 (Nat.succ.inj hl)
      (m := m₁) (by rw [hrsp]; exact hs.2)
    refine ⟨m', by simpa [execAll, exec] using he, ?_, ?_, ?_, hmem, htrace⟩
    · have hw : m'.regs r = w := by
        rw [hother r hr (Ne.symm hsp.1)]
        simpa [m₁, State.top] using hs.1
      rw [List.map_cons, hw, hregs]
    · rw [hrsp', hrsp, List.length_cons, Nat.add_mul, Nat.one_mul, Nat.add_comm, BitVec.ofNat_add,
        ← BitVec.add_assoc]
      rfl
    · intro r' hr' hsp'
      simp only [List.mem_cons, not_or] at hr'
      rw [hother r' hr'.2 hsp']
      simp [m₁, hr'.1, hsp']

theorem Asm.Register.map_args_congr {s s' : State} (h : ∀ r ∈ args, s'.regs r = s.regs r)
    (n : Nat) : (args.take n).map s'.regs = (args.take n).map s.regs :=
  List.map_congr_left fun r hr => h r (List.mem_of_mem_take hr)

/-- The state in which a call is made with `pending` words pushed. -/
def Machine.State.alignFor (pending : Nat) (s : State) : State :=
  if pending % 2 = 1 then Instr.exec.difference (BitVec.ofNat 64 wordSize) .rsp s else s

namespace Machine.State

variable {s : State} {pending : Nat}

@[simp] theorem alignFor_memory : (s.alignFor pending).memory = s.memory := by
  unfold alignFor
  split_ifs <;> rfl

@[simp] theorem alignFor_trace : (s.alignFor pending).trace = s.trace := by
  unfold alignFor
  split_ifs <;> rfl

theorem alignFor_regs {r : Register} (hr : r ≠ .rsp) :
    (s.alignFor pending).regs r = s.regs r := by
  unfold alignFor
  split_ifs
  · simp [Instr.exec.difference, compute, hr]
  · rfl

theorem toNat_alignFor_rsp (pending : Nat) (h : 8 ≤ (s.regs .rsp).toNat) :
    ((s.alignFor pending).regs .rsp).toNat + pending % 2 * wordSize = (s.regs .rsp).toNat := by
  have hsub : (s.regs .rsp - 8).toNat = (s.regs .rsp).toNat - 8 := toNat_sub_ofNat h
  unfold alignFor
  split_ifs with hodd
  · have hrsp : (Instr.exec.difference (BitVec.ofNat 64 wordSize) .rsp s).regs .rsp =
        s.regs .rsp - 8 := by simp [Instr.exec.difference, compute, wordSize]
    rw [hrsp, hsub, hodd, wordSize]
    omega
  · rw [Nat.mod_two_ne_one.1 hodd, Nat.zero_mul, Nat.add_zero]

theorem map_args_alignFor (pending n : Nat) :
    (Register.args.take n).map (s.alignFor pending).regs = (Register.args.take n).map s.regs :=
  Register.map_args_congr
    (fun r hr => alignFor_regs fun he => by simp [he, Register.args] at hr) n

end Machine.State

namespace Machine.Image

variable {img : Image} (rt : Runtime) {high k k' : Nat} {m m₁ : State}

/-- The left operand is popped, and the right one makes room for it. -/
theorem reaches_popOperand {x : Word} (hp : m.Stacks high [x] m₁)
    (hh : img.Holds k (.ofInstrs [.mov .rax .rcx, .pop .rax]) k') :
    ∃ m', img.Reaches rt (img.address k, m₁) (img.address k', m') ∧ m'.regs .rax = x ∧
      m'.regs .rcx = m₁.regs .rax ∧ m'.regs .rbx = m₁.regs .rbx ∧ m'.trace = m₁.trace ∧
      m.Stacks high [] m' := by
  refine ⟨_, reaches_execAll hh rfl, ?_, by simp, by simp, rfl, .nil ?_ ?_ hp.memory⟩
  · simpa [State.top] using hp.stack.1
  · simpa using hp.rsp_add
  · simpa using hp.rbp

/-- The arguments are popped into their registers. -/
theorem reaches_argPops {vs : List Word} (hp : m.Stacks high vs m₁)
    (hn : vs.length ≤ Register.args.length) (hh : img.Holds k (argPops vs.length) k') :
    ∃ m', img.Reaches rt (img.address k, m₁) (img.address k', m') ∧
      (Register.args.take vs.length).map m'.regs = vs ∧ m'.regs .rbx = m₁.regs .rbx ∧
      m'.trace = m₁.trace ∧ m.Stacks high [] m' := by
  have hmem (r : Register) (hr : r ∈ (Register.args.take vs.length).reverse) :
      r ∈ Register.args := List.mem_of_mem_take (List.mem_reverse.1 hr)
  have hnodup : (Register.args.take vs.length).reverse.Nodup :=
    List.nodup_reverse.2 ((List.take_sublist _ _).nodup (by decide))
  obtain ⟨m', he, hregs, hrsp, hother, hmemory, htrace⟩ :=
    Instr.execAll_pops img.literal hnodup (fun hr => by simpa [Register.args] using hmem _ hr)
      (by simp [hn]) hp.stack
  refine ⟨m', reaches_execAll hh he, ?_, ?_, htrace, .nil ?_ ?_ (hmemory ▸ hp.memory)⟩
  · rw [List.map_reverse] at hregs
    exact List.reverse_injective hregs
  · exact hother .rbx (fun hr => by simpa [Register.args] using hmem _ hr) (by decide)
  · rw [hrsp, List.length_reverse, hp.rsp_add]
  · rw [hother .rbp (fun hr => by simpa [Register.args] using hmem _ hr) (by decide), hp.rbp]

/-- The stack is aligned for a call, and brought back after it. -/
theorem reaches_callCode (high : Nat) {pending : Nat} {callee : Callee}
    (hh : img.Holds k (Lower.callCode pending callee) k') (hroom : 8 ≤ (m.regs .rsp).toNat) :
    ∃ j, img.instrs[j]? = some (.call callee) ∧
      img.Reaches rt (img.address k, m) (img.address j, m.alignFor pending) ∧
      ∀ m₂, (m.alignFor pending).Stacks high [] m₂ →
        ∃ m', img.Reaches rt (img.address (j + 1), m₂) (img.address k', m') ∧
          m'.regs .rax = m₂.regs .rax ∧ m'.regs .rbx = m₂.regs .rbx ∧ m'.trace = m₂.trace ∧
          m.Stacks high [] m' := by
  have hnat := State.toNat_alignFor_rsp pending hroom
  unfold Lower.callCode at hh
  split_ifs at hh with hodd
  · obtain ⟨hsub, hcall, hadd, rfl⟩ := hh
    have halign : m.alignFor pending =
        Instr.exec.difference (BitVec.ofNat 64 wordSize) .rsp m := if_pos hodd
    refine ⟨k + 1, hcall, halign ▸ .single (step_exec hsub rfl), fun m₂ hs => ?_⟩
    have hrsp : m₂.regs .rsp = m.regs .rsp - 8 := by
      rw [hs.rsp_eq, halign]
      simp [Instr.exec.difference, State.compute, wordSize]
    have hregs (r : Register) (hr : r ≠ .rsp) :
        (Instr.exec.sum (BitVec.ofNat 64 wordSize) .rsp m₂).regs r = m₂.regs r := by
      simp [Instr.exec.sum, State.compute, hr]
    refine ⟨_, .single (step_exec hadd rfl), hregs _ (by decide), hregs _ (by decide), rfl,
      .nil ?_ ?_ ?_⟩
    · show m₂.regs .rsp + 8 = m.regs .rsp
      rw [hrsp, BitVec.sub_add_cancel]
    · rw [hregs _ (by decide), hs.rbp, State.alignFor_regs (by decide)]
    · intro a hl hh
      exact (hs.memory a (by omega) hh).trans (by rw [State.alignFor_memory])
  · obtain ⟨hcall, rfl⟩ := hh
    have halign : m.alignFor pending = m := if_neg hodd
    rw [halign]
    exact ⟨k, hcall, .refl, fun m₂ hs => ⟨m₂, .refl, rfl, rfl, rfl, hs⟩⟩

end Machine.Image

/-- The call goes on with more words pushed. -/
theorem Activation.Active.of_pushes {L : Loaded} {act : Activation L} {env : Env} {pending : Nat}
    {s s' : State} (h : act.Active env pending s) {ws : List Word}
    (hp : s.Pushes L.runtime.stackTop ws s') : act.Active env (pending + ws.length) s' := by
  have hrsp := h.rsp
  have hrsp' := hp.rsp
  have := act.base_le
  refine ⟨hp.rbp.trans h.rbp, ?_, h.represents.of_frame ?_⟩
  · rw [Nat.add_mul]
    omega
  · intro a hl hh
    exact hp.memory a (by omega) (by omega)

namespace Expr

variable {L : Linked} {n : Nat} {env : Env} {t t₁ t₂ : Trace}

/-! ## Leaves -/

/-- The code is one instruction, which computes the value. -/
theorem realized_of_instr {e : Expr} {v : Word} {t : Trace}
    (h : ∀ {act : Activation L.toLoaded} {s s' : Lowering} {code : Code} {m : State},
      e.Lowers L.decls s code s' → act.Covers s' → act.Active env s.frame.pending m →
      ∃ i, code = [.instr i] ∧ i.exec L.image.literal m = some (m.set .rax v)) :
    e.Realized L n env t v t := by
  intro act s s' code k k' m hl hc hh hm ht _
  obtain ⟨i, rfl, he⟩ := h hl hc hm
  obtain ⟨hi, rfl⟩ := hh
  refine ⟨_, .single (Image.step_exec hi he), by simp, ht, ?_⟩
  exact ⟨rfl, rfl, rfl, fun _ _ _ => rfl⟩

theorem realized_int (value : Int64) : (Expr.int value).Realized L n env t value.toBitVec t := by
  refine realized_of_instr ?_
  intro act s s' code m hl _ _
  cases hl
  exact ⟨_, rfl, rfl⟩

theorem realized_str (text : String) :
    (Expr.str text).Realized L n env t (L.world.literal text) t := by
  refine realized_of_instr ?_
  intro act s s' code m hl hc _
  cases hl with
  | @str _ _ _ index hi =>
    refine ⟨_, rfl, ?_⟩
    rw [Instr.exec, L.world_literal, StringPool.idxOf_of_insert hi.intern_grows.2.2.2 hc.pool]

theorem realized_ident {name : String} {v : Word} {isText : Bool}
    (hf : env.find? name = some (.word v isText)) : (Expr.ident name).Realized L n env t v t := by
  refine realized_of_instr ?_
  intro act s s' code m hl hc hm
  cases hl with
  | @word _ _ slot hw =>
    obtain ⟨-, hslot⟩ := act.sound.wordSlot_iff.1 (hw.mono hc.vars)
    refine ⟨_, rfl, ?_⟩
    rw [Instr.exec, hm.slot_eq, hm.represents.cell (.word hf) hslot]
  | record hv =>
    obtain ⟨offset, hw⟩ := hm.represents.word hf
    have := Table.find?_of_prefix hc.vars hv
    cases isText <;> simp_all

theorem realized_field {name part : String} {fields : Table Word} {v : Word}
    (hf : env.find? name = some (.record fields)) (hp : fields.find? part = some v) :
    (Expr.field name part).Realized L n env t v t := by
  refine realized_of_instr ?_
  intro act s s' code m hl hc hm
  cases hl with
  | field hw =>
    obtain ⟨index, hi, hslot⟩ := act.sound.fieldSlot_iff.1 (hw.mono hc.vars)
    refine ⟨_, rfl, ?_⟩
    rw [Instr.exec, hm.slot_eq, hm.represents.cell (.field hf hp hi) hslot]

/-! ## Operators -/

/-- A value is computed and pushed. -/
theorem Realized.push {e : Expr} {x : Word} (h : e.Realized L n env t x t₁) :
    ∀ {act : Activation L.toLoaded} {s s' : Lowering} {code : Code} {k k' : Nat} {m : State},
      e.Lowers L.decls s code s' → act.Covers s' →
      L.image.Holds k (code ++ [.instr (.push .rax)]) k' → act.Active env s.frame.pending m →
      m.trace = t → 8 * max e.stackWords 1 + L.stackFor n ≤ (m.regs .rsp).toNat →
      ∃ m', L.image.Reaches L.runtime (L.image.address k, m) (L.image.address k', m') ∧
        m'.trace = t₁ ∧ m.Pushes L.runtime.stackTop [x] m' ∧
        act.Active env (s'.frame.pending + 1) m' := by
  intro act s s' code k k' m hl hc hh hm ht hd
  obtain ⟨k₁, hcode, hpush, rfl⟩ := Image.holds_append.1 hh
  obtain ⟨m₁, hr, rfl, rfl, hk⟩ := h hl hc hcode hm ht (by omega)
  have hroom : 8 ≤ (m₁.regs .rsp).toNat := by
    rw [hk.rsp]
    omega
  have hp : m.Pushes L.runtime.stackTop [m₁.regs .rax] (m₁.push (m₁.regs .rax)) :=
    .of_keeps hk (m₁.pushes_push hroom _)
  exact ⟨_, hr.tail (Image.step_exec hpush rfl), rfl, hp, hl.frame_eq ▸ hm.of_pushes hp⟩

/-- Both operands are computed, the left one first. -/
theorem reaches_operands {lhs rhs : Expr} {x y : Word} (hl : lhs.Realized L n env t x t₁)
    (hr : rhs.Realized L n env t₁ y t₂) :
    ∀ {act : Activation L.toLoaded} {s s₁ s₂ : Lowering} {left right : Code} {k k' : Nat}
      {m : State},
      lhs.Lowers L.decls s left s₁ →
      rhs.Lowers L.decls (s₁.withPending (s₁.frame.pending + 1)) right s₂ → act.Covers s₂ →
      L.image.Holds k (operandsCode left right) k' → act.Active env s.frame.pending m →
      m.trace = t →
      8 * max lhs.stackWords (rhs.stackWords + 1) + L.stackFor n ≤ (m.regs .rsp).toNat →
      ∃ m', L.image.Reaches L.runtime (L.image.address k, m) (L.image.address k', m') ∧
        m'.regs .rax = x ∧ m'.regs .rcx = y ∧ m'.trace = t₂ ∧
        m.Keeps (m.regs .rsp).toNat L.runtime.stackTop m' := by
  intro act s s₁ s₂ left right k k' m hleft hright hc hh hm ht hd
  rw [operandsCode, List.append_assoc] at hh
  obtain ⟨k₂, hh, hpop⟩ := Image.holds_append.1 hh
  obtain ⟨k₁, hh₁, hh₂⟩ := Image.holds_append.1 hh
  have hc₁ : act.Covers s₁ :=
    hc.of_grows hright.grows.of_withPending (by rw [hright.frame_eq]; exact List.prefix_rfl)
  obtain ⟨m₁, hr₁, ht₁, hp, hm₁⟩ := hl.push hleft hc₁ hh₁ hm ht (by omega)
  have hrsp := hp.rsp
  simp only [wordSize, List.length_singleton] at hrsp
  obtain ⟨m₂, hr₂, hy, ht₂, hk⟩ := hr hright hc hh₂ hm₁ ht₁ (by omega)
  obtain ⟨m₃, hr₃, hx₃, hy₃, hb₃, ht₃, hs⟩ :=
    Image.reaches_popOperand L.runtime (hp.stacks.append hk.stacks hm.rsp_le) hpop
  exact ⟨m₃, hr₁.trans (hr₂.trans hr₃), hx₃, hy₃.trans hy, ht₃.trans ht₂,
    hs.keeps (hb₃.trans (hk.rbx.trans hp.rbx))⟩

theorem Realized.binary {op : BinaryOp} {lhs rhs : Expr} {x y v : Word}
    (hl : lhs.Realized L n env t x t₁) (hr : rhs.Realized L n env t₁ y t₂)
    (hv : op.eval? x y = some v) : (Expr.binary op lhs rhs).Realized L n env t v t₂ := by
  intro act s s' code k k' m hlow hc hh hm ht hd
  cases hlow with
  | binary hleft hright _ =>
    obtain ⟨k₁, hh₁, hh₂⟩ := Image.holds_append.1 hh
    obtain ⟨m₁, hr₁, rfl, rfl, rfl, hk⟩ :=
      reaches_operands hl hr hleft hright ⟨hc.vars, hc.pool⟩ hh₁ hm ht hd
    exact .of_reaches hr₁ hk (Image.yields_binary hh₂ m₁ hv)

theorem Realized.compare {op : CompareOp} {lhs rhs : Expr} {x y : Word}
    (hl : lhs.Realized L n env t x t₁) (hr : rhs.Realized L n env t₁ y t₂) :
    (Expr.compare op lhs rhs).Realized L n env t (op.eval x y) t₂ := by
  intro act s s' code k k' m hlow hc hh hm ht hd
  cases hlow with
  | compare hleft hright _ =>
    obtain ⟨k₁, hh₁, hh₂⟩ := Image.holds_append.1 hh
    obtain ⟨m₁, hr₁, rfl, rfl, rfl, hk⟩ :=
      reaches_operands hl hr hleft hright ⟨hc.vars, hc.pool⟩ hh₁ hm ht hd
    exact .of_reaches hr₁ hk (Image.yields_compare hh₂ m₁)

/-! ## Calls -/

theorem allRealized_nil : AllRealized L n [] env t [] t := by
  intro act s s' code k k' m hl _ hh _ ht _
  cases hl
  obtain rfl : k = k' := hh
  exact ⟨m, .refl, ht, by simp, rfl, rfl, fun _ _ _ => rfl, trivial⟩

theorem Realized.cons {arg : Expr} {args : List Expr} {v : Word} {vs : List Word}
    (h : arg.Realized L n env t v t₁) (ha : AllRealized L n args env t₁ vs t₂) :
    AllRealized L n (arg :: args) env t (v :: vs) t₂ := by
  intro act s s' code k k' m hl hc hh hm ht hd
  rw [argsWords] at hd
  cases hl with
  | @cons _ _ _ s₁ _ value rest hv hrest =>
    obtain ⟨k₁, hh₁, hh₂⟩ := Image.holds_append.1 hh
    have hc₁ : act.Covers s₁ :=
      hc.of_grows hrest.grows.of_withPending (by rw [hrest.frame_eq]; exact List.prefix_rfl)
    obtain ⟨m₁, hr₁, ht₁, hp, hm₁⟩ := h.push hv hc₁ hh₁ hm ht (by omega)
    have hrsp := hp.rsp
    simp only [wordSize, List.length_singleton] at hrsp
    obtain ⟨m₂, hr₂, ht₂, hp₂⟩ := ha hrest hc hh₂ hm₁ ht₁ (by omega)
    exact ⟨m₂, hr₁.trans hr₂, ht₂, hp.cons hp₂ hm.rsp_le⟩

end Expr

namespace Asm.Callee

variable {L : Linked} {callee : Callee} {depth : Nat} {vs : List Word} {t t' : Trace} {v : Word}

/-- The stack is aligned for the call, and brought back after it. -/
theorem Realized.yields_callCode (h : callee.Realized L depth vs t v t')
    {act : Activation L.toLoaded} {env : Env} {pending k k' : Nat} {m : State}
    (hm : act.Active env pending m)
    (hh : L.image.Holds k (Lower.callCode pending callee) k')
    (hargs : (Register.args.take vs.length).map m.regs = vs) (ht : m.trace = t)
    (hd : depth + 8 ≤ (m.regs .rsp).toNat) : L.image.Yields L.runtime k k' m v t' := by
  have hrsp := hm.rsp
  have hbase := act.aligned
  have hle := hm.rsp_le
  have hnat := State.toNat_alignFor_rsp (s := m) pending (by omega)
  simp only [alignTo16, wordSize] at hrsp hnat
  obtain ⟨j, hcall, hr, hback⟩ :=
    Image.reaches_callCode L.runtime L.runtime.stackTop (m := m) hh (by omega)
  obtain ⟨m₂, hr₂, hv, ht₂, hk⟩ := h hcall ((State.map_args_alignFor pending _).trans hargs)
    (by omega) (by omega) (State.alignFor_trace.trans ht) (by omega)
  obtain ⟨m₃, hr₃, hv₃, hb₃, ht₃, hs⟩ := hback m₂ hk.stacks
  refine ⟨m₃, hr.trans (hr₂.trans hr₃), hv₃.trans hv, ht₃.trans ht₂, hs.keeps ?_⟩
  rw [hb₃, hk.rbx, State.alignFor_regs (by decide)]

/-- A call of the support library. -/
theorem realized_library {name : String} {b : Builtin} (hb : Builtin.find? name = some b)
    (hc : b.arity = vs.length) (h : L.world.Answers name vs t v t') :
    (Callee.library name).Realized L 0 vs t v t' := by
  obtain ⟨ha⟩ := h
  intro k m hcall hargs halign _ ht _
  have hn : ∀ f ∈ L.program.functions, f.name ≠ name := by
    rintro f hf rfl
    simp [(L.names f hf).2] at hb
  have hsym : L.image.symbols.find? name = none :=
    L.assembles.find?_symbols_eq_none L.loads (Builtin.isSymbolName_of_find? hb) hn
  have hlib : m.libraryArgs name = vs := by
    simpa [State.libraryArgs, hb, hc] using hargs
  subst ht
  obtain ⟨m', hcall', hv, ht', hk⟩ := L.runtime.exists_call (hlib ▸ ha) halign
  exact ⟨m', .single (Image.step_library hcall hsym hcall'), hv, hlib ▸ ht', hk⟩

end Asm.Callee

/-- Arguments have one value each. -/
theorem Expr.EvaluatesAll.length_eq {p : Program} {w : World} :
    ∀ {n : Nat} {args : List Expr} {env : Env} {t t' : Trace} {vs : List Word},
      EvaluatesAll p w n args env t vs t' → args.length = vs.length
  | _, _, _, _, _, _, .nil _ _ _ => rfl
  | _, _, _, _, _, _, .cons _ h => congrArg (· + 1) h.length_eq

namespace Expr

variable {L : Linked} {n : Nat} {env : Env} {t t₁ t₂ : Trace}

/-- The arguments are pushed, popped into their registers, and passed to the call. -/
theorem AllRealized.call {name : String} {args : List Expr} {vs : List Word} {v : Word}
    (ha : AllRealized L n args env t vs t₁) (hlen : args.length = vs.length)
    (hcall : L.CallRealized n name vs t₁ v t₂) : (Expr.call name args).Realized L n env t v t₂ := by
  intro act s s' code k k' m hl hc hh hm ht hd
  rw [stackWords] at hd
  cases hl with
  | @call _ _ callee _ s₁ values hn hcallee hvalues _ =>
    simp only [Image.holds_append] at hh
    obtain ⟨k₂, ⟨k₁, hh₁, hpops⟩, hh₂⟩ := hh
    obtain ⟨m₁, hr₁, ht₁, hp⟩ := ha hvalues ⟨hc.vars, hc.pool⟩ hh₁ hm ht (by omega)
    rw [hlen] at hpops hn
    obtain ⟨m₂, hr₂, hargs, hb, htrace, hs⟩ := Image.reaches_argPops L.runtime hp.stacks hn hpops
    have hk : m.Keeps (m.regs .rsp).toNat L.runtime.stackTop m₂ := hs.keeps (hb.trans hp.rbx)
    have hpending : s₁.frame.pending - args.length = s.frame.pending := by
      rw [hvalues.frame_eq]
      simp
    rw [hpending] at hh₂
    have hreal : callee.Realized L (8 + L.stackFor n) vs t₁ v t₂ := hcall (hlen ▸ hcallee)
    refine .of_reaches (hr₁.trans hr₂) hk ?_
    exact hreal.yields_callCode (hm.of_keeps hk) hh₂ hargs (htrace.trans ht₁)
      (by rw [hk.rsp]; omega)

end Expr

end WordLang
