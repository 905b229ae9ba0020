import WordLang.Proofs.LockstepStatements
import WordLang.Proofs.Preservation

/-!
# Calls in lockstep

A function that is called sets up its frame, stores its arguments, runs its body, and gives the
frame back. If the runs are in lockstep from where it returns, they are so through the whole call:
a call inside the body is a matter of fewer steps. So runs of a function that start alike stay in
lockstep for any number of steps.
-/
namespace WordLang

open Asm Machine

/-- Variables are read only in the blocks where they are declared, after their declaration. -/
def Program.BlockScoped (p : Program) : Prop :=
  ∀ f ∈ p.functions, Stmt.blockReadsIn f.params f.body

instance (p : Program) : Decidable p.BlockScoped :=
  inferInstanceAs (Decidable (∀ f ∈ p.functions, _))

variable {L : Loaded} {d : Discipline} {ι : Type} {n k k' : Nat} {c : Activation L}
  {origin m : ι → State} {older : List (List Nat)} {written : List Nat} {pending : Nat}

/-- Arguments are stored into their parameters, one after another. -/
theorem StoresParams.lock {params : List (String × Register)} {s s' : Lowering} {code : Code}
    (h : StoresParams params s code s') (hv : s'.frame.vars <+: c.frame.vars)
    (hh : L.image.Holds k code k') (hm : c.Synced d origin written pending m)
    (hargs : ∀ p ∈ params, Uniform fun i => (m i).regs p.2)
    (hn : ∀ m' written', written ⊆ written' → c.Assigned (params.map Prod.fst) written' →
      c.Synced d origin written' pending m' → L.Lock d n k' (written' :: older) m') :
    L.Lock d n k (written :: older) m := by
  induction h generalizing k m written with
  | nil =>
    obtain rfl : k = k' := hh
    exact hn m written (List.Subset.refl _) .nil hm
  | @cons name register rest s s₁ s' code offset hd hr ih =>
    rw [List.forall_mem_cons] at hargs
    obtain ⟨hstore, hh⟩ := hh
    have hfind := c.find?_declared hd (hr.grows.2.vars.trans hv)
    have hat : SlotAt c.frame.vars name 0 offset := ⟨_, hfind, Nat.one_pos, by simp⟩
    have hscalar : ¬ c.frame.TextSlot offset :=
      Frame.not_textSlot hfind (by simp) c.sound.laid.placed hat
    refine hm.lock_store hstore ⟨name, 0, hat⟩ hargs.1 (fun _ hs => (hscalar hs).elim)
      fun m₁ hm₁ hregs => ?_
    refine ih hv hh hm₁ (fun p hp => (hargs.2 p hp).congr fun i => hregs i p.2)
      fun m' written' hw ha hm' => ?_
    rw [List.cons_subset] at hw
    have hname : c.Assigned [name] written' := by
      refine c.assigned_of_find? hfind fun index hindex => ?_
      obtain rfl : index = 0 := by
        simp only [VarKind.slots] at hindex
        omega
      simpa using hw.1
    exact hn m' written' hw.2 (hname.append ha) hm'

theorem Loaded.lock_prologue {r : Routine} (hh : L.image.Holds k (.ofInstrs r.prologue) k')
    (ht : Uniform fun i => (m i).trace) (hrsp : Uniform fun i => ((m i).regs .rsp).toNat)
    (hn : ∀ m', (∀ i, 8 + r.stackSize ≤ ((m i).regs .rsp).toNat) →
      (∀ i, Instr.execAll L.image.literal r.prologue (m i) = some (m' i)) →
      L.Lock d n k' (written :: older) m') :
    L.Lock d n k (written :: older) m := by
  unfold Routine.prologue at hh hn
  split at hh
  · next hz =>
    rw [if_pos hz] at hn
    obtain ⟨hpush, hmov, rfl⟩ := hh
    refine .exec hpush rfl ht (.inr hrsp) (fun _ => rfl) fun hroom => ?_
    refine .exec hmov rfl ht (.inl rfl) (fun _ => rfl) fun _ => ?_
    exact hn _ (fun i => by rw [hz]; exact hroom i) fun _ => rfl
  · next hz =>
    rw [if_neg hz] at hn
    obtain ⟨hpush, hmov, hsub, rfl⟩ := hh
    refine .exec hpush rfl ht (.inr hrsp) (fun _ => rfl) fun hroom => ?_
    refine .exec hmov rfl ht (.inl rfl) (fun _ => rfl) fun _ => ?_
    have hnat (i : ι) : ((m i).regs .rsp - 8).toNat = ((m i).regs .rsp).toNat - 8 :=
      toNat_sub_ofNat (hroom i)
    refine .exec hsub rfl ht (.inr ((hrsp.map (· - 8)).congr hnat)) (fun _ => rfl)
      fun hroom₂ => hn _ (fun i => ?_) fun _ => rfl
    have hroom := hroom i
    have hroom₂ : r.stackSize ≤ ((m i).regs .rsp - 8).toNat := hroom₂ i
    rw [hnat] at hroom₂
    simp only [Instr.takes, wordSize] at hroom
    omega

/-- The frame is given back, and all runs return to the same place. -/
theorem Activation.Synced.lock_epilogue (hm : c.Synced d origin written pending m)
    (hv : Uniform fun i => (m i).regs .rax)
    (hh : L.image.Holds k (.ofInstrs Routine.epilogue) k') {entry : ι → State} {a : Word}
    (hrsp : ∀ i, (entry i).regs .rsp = c.base + 8)
    (hrbx : ∀ i, (origin i).regs .rbx = (entry i).regs .rbx)
    (hmem : ∀ i, (origin i).memory = (entry i).memory.store c.base ((entry i).regs .rbp))
    (htop : ∀ i, (entry i).top = a)
    (hn : ∀ m', L.Returned entry m' → L.image.Lockstep L.runtime d n ⟨a, older⟩ m') :
    L.Lock d n k (written :: older) m := by
  obtain ⟨hmov, hpop, hret, -⟩ := hh
  have hle := c.base_le
  have hlt := c.base.isLt
  have halign := c.aligned
  have hnext : (c.base + 8).toNat = c.base.toNat + 8 := BitVec.toNat_add_of_lt (by simp; omega)
  -- From the base on the memory is kept: it begins with the saved frame pointer and, next to it,
  -- the return address.
  have hsaved (i : ι) : (m i).memory.load c.base = (entry i).regs .rbp := by
    rw [Memory.load_congr (hm.memory i) (Nat.le_refl _) (by omega) (by omega), hmem,
      Memory.load_store]
  have hcaller (i : ι) : (m i).memory.load (c.base + 8) = a := by
    rw [Memory.load_congr (hm.memory i) (by omega) (by omega) (by omega), hmem,
      Memory.load_store_of_disjoint _ _ (by omega) (by omega) (by omega), ← htop i, State.top, hrsp]
  let m₂ (i : ι) : State := ((m i).set .rsp c.base).drop.set .rbp ((entry i).regs .rbp)
  have he (i : ι) : Instr.execAll L.image.literal [.mov .rbp .rsp, .pop .rbp] (m i) =
      some (m₂ i) := by
    simp [Instr.execAll, Instr.exec, State.top, hm.rbp, hsaved, m₂]
  have hmoves : L.image.Holds k (.ofInstrs [.mov .rbp .rsp, .pop .rbp]) (k + 1 + 1) :=
    ⟨hmov, hpop, rfl⟩
  refine .execAll (by simp [Instr.isQuiet]) hmoves hm.trace he ?_
  have hret' (i : ι) : L.image.advance L.runtime
      (⟨L.image.address (k + 1 + 1), written :: older⟩, m₂ i) = some (⟨a, older⟩, (m₂ i).drop) := by
    have htop₂ : (m₂ i).top = a := by simpa [m₂, State.top] using hcaller i
    simp [Image.advance_of_getElem? hret (Nat.zero_le _), Image.step_ret hret, htop₂, Image.track]
  have hreturned : L.Returned entry fun i => (m₂ i).drop := by
    refine ⟨fun i => ⟨?_, ?_, ?_, fun a hl hh => ?_⟩, hv, hm.trace⟩
    · simp [m₂, hrsp]
    · simp [m₂]
    · simp [m₂, hm.rbx, hrbx]
    · rw [hrsp, hnext] at hl
      show (m i).memory a = (entry i).memory a
      rw [hm.memory i a (by omega) hh, hmem]
      exact Memory.store_of_outside _ _ (by omega) (by omega)
  exact .of_advance (Image.Lockstep.inStep_of_getElem? hret rfl hm.trace) hret'
    fun _ j hj => (hn _ hreturned).mono (Nat.le_of_lt hj)

namespace Loaded

/-- The frame of a called function, before its parameters are stored. -/
theorem exists_synced [Nonempty ι] {f : FunctionDecl} {a : Word} (hm : L.Entered f a m)
    {s' : Lowering} (hs : s'.frame.Sound L.decls) {r : Routine}
    (hr : r.frameSize = s'.frame.size) (hroom : ∀ i, 8 + r.stackSize ≤ ((m i).regs .rsp).toNat)
    (he : ∀ i, Instr.execAll L.image.literal r.prologue (m i) = some (origin i)) :
    ∃ c : Activation L, c.frame = s'.frame ∧ c.Synced d origin [] 0 origin ∧
      (∀ i, (m i).regs .rsp = c.base + 8) ∧
      (∀ i, (origin i).regs .rbx = (m i).regs .rbx) ∧
      (∀ i, (origin i).memory = (m i).memory.store c.base ((m i).regs .rbp)) ∧
      ∀ r ∈ Register.args, ∀ i, (origin i).regs r = (m i).regs r := by
  obtain ⟨sp, (hsp : ∀ i, ((m i).regs .rsp).toNat = sp)⟩ := hm.rsp
  obtain ⟨i₀⟩ := ‹Nonempty ι›
  have hword (i : ι) : (m i).regs .rsp = (m i₀).regs .rsp :=
    BitVec.eq_of_toNat_eq ((hsp i).trans (hsp i₀).symm)
  have hroom₀ := hroom i₀
  rw [Routine.stackSize, hr] at hroom₀
  let c := Activation.ofEntry hs (hm.aligned i₀) (hm.below_top i₀) hroom₀
  have horigin (i : ι) : (origin i).regs .rbp = c.base ∧
      (origin i).regs .rsp = c.base - BitVec.ofNat 64 (alignTo16 s'.frame.size) ∧
      (∀ reg, reg ≠ .rsp → reg ≠ .rbp → (origin i).regs reg = (m i).regs reg) ∧
      (origin i).memory = (m i).memory.store c.base ((m i).regs .rbp) ∧
      (origin i).trace = (m i).trace := by
    obtain ⟨m', he', hrbp, hrsp, hregs, hmem, ht⟩ := r.execAll_prologue L.image.literal (m i)
    obtain rfl : m' = origin i := Option.some.inj (he'.symm.trans (he i))
    rw [hword i] at hrbp hrsp hmem
    rw [Routine.stackSize, hr] at hrsp
    exact ⟨hrbp, hrsp, hregs, hmem, ht⟩
  refine ⟨c, rfl, ⟨fun i => (horigin i).1, fun i => ?_, fun _ => rfl, fun _ _ _ _ => rfl, ?_,
    by simp, by simp⟩, fun i => ?_, fun i => (horigin i).2.2.1 _ (by decide) (by decide),
    fun i => (horigin i).2.2.2.1, ?_⟩
  · have hsize : alignTo16 s'.frame.size ≤ c.base.toNat := c.size_le
    show _ + 0 * wordSize + alignTo16 s'.frame.size = c.base.toNat
    rw [(horigin i).2.1, toNat_sub_ofNat hsize]
    omega
  · exact hm.trace.congr fun i => (horigin i).2.2.2.2
  · rw [hword]
    exact (BitVec.sub_add_cancel _ 8).symm
  · intro reg hreg i
    refine (horigin i).2.2.1 reg ?_ ?_ <;> rintro rfl <;> simp [Register.args] at hreg

/-- A call of a function stays in lockstep for `n` steps, if calls do so for fewer. -/
theorem callsLock_of_lt [Nonempty ι] (hlib : Subsingleton ι ∨ L.program.RespectsLibrary)
    (hscoped : d.strict → L.program.BlockScoped) (htexts : d.texts → L.program.KeepsText)
    (hcalls : ∀ j < n, L.CallsLock d ι j) : L.CallsLock d ι n := by
  intro f k a older m hf hk hm hn
  obtain ⟨r, s, s', k₀, k', hlow, -, hk₀, hh⟩ := L.exists_code hf
  obtain rfl : k₀ = k := Option.some.inj (hk₀.symm.trans hk)
  have hs := hlow.sound
  have htext := hlow.isText_eq
  obtain ⟨hparams_le, params, body, s₁, hp, hb, rfl⟩ := hlow
  -- The parameters are stored from `k₁` on, the body stands at `k₂`, and the exit is at `k₃ + 1`.
  simp only [Routine.code, FunctionDecl.routine, Image.holds_append] at hh
  obtain ⟨k₁, hprologue, k₄, ⟨k₃, ⟨k₂, hparams, hbody⟩, hzero, hexit, rfl⟩, hepilogue⟩ := hh
  refine L.lock_prologue hprologue hm.trace hm.rsp fun m₁ hroom he => ?_
  obtain ⟨c, hframe, hm₁, hrsp, hrbx, hmem, hregs⟩ := L.exists_synced hm hs rfl hroom he
  have hv : s'.frame.vars <+: c.frame.vars := hframe ▸ List.prefix_rfl
  rw [← hframe] at htext
  refine hp.lock (hb.frame_grows.vars.trans hv) hparams hm₁ ?_ fun m₂ written _ ha hm₂ => ?_
  · intro p hp
    have hreg : p.2 ∈ Register.args.take f.params.length := by
      rw [List.zip_eq_zip_take_min, Nat.min_eq_left hparams_le] at hp
      exact (List.of_mem_zip hp).2
    exact (hm.args p.2 hreg).congr (hregs p.2 (List.mem_of_mem_take hreg))
  have hg : (f.enter L.limits s).frame.Grows s₁.frame := hp.grows.2
  have hpending : s₁.frame.pending = 0 := hg.pending
  have hreturn {m' : ι → State} {written' : List Nat} (hm' : c.Synced d m₁ written' 0 m')
      (hv' : Uniform fun i => (m' i).regs .rax) :
      L.Lock d n (k₃ + 1) (written' :: older) m' :=
    hm'.lock_epilogue hv' hepilogue hrsp hrbx hmem hm.top hn
  have hexits : c.Exits L d m₁ older s₁.frame n written := by
    have hnoLoop : s₁.frame.innermostLoop? = none := by
      rw [Frame.innermostLoop?, hg.loops]
      rfl
    refine ⟨fun hpos hm' hv' => ?_, fun hl => ?_, fun hl => ?_⟩
    · rw [hg.exitLabel] at hpos
      obtain rfl := Option.some.inj (hexit.symm.trans hpos)
      exact hreturn (hpending ▸ hm') hv'
    · cases hnoLoop.symm.trans hl
    · cases hnoLoop.symm.trans hl
  have hnames : (f.params.zip Register.args).map Prod.fst = f.params :=
    List.map_fst_zip hparams_le
  refine Stmt.allLock hlib hcalls f.body hb hv (fun hs => ⟨hscoped hs f hf, hnames ▸ ha⟩)
    (fun hd => htext ▸ htexts hd f hf) hbody (hpending.symm ▸ hm₂) hexits
    fun m₃ written₃ _ hm₃ => ?_
  rw [hpending] at hm₃
  have hm₄ : c.Synced d m₁ written₃ 0 fun i => (m₃ i).set .rax (0 : Int64).toBitVec :=
    hm₃.of_keeps (fun _ => ⟨rfl, rfl, rfl, fun _ _ _ => rfl⟩) hm₃.trace
  exact .exec hzero rfl hm₃.trace (.inl rfl) (fun _ => rfl) fun _ =>
    hreturn hm₄ ⟨0, fun _ => rfl⟩

/-- Calls stay in lockstep for any number of steps. -/
theorem callsLock [Nonempty ι] (hlib : Subsingleton ι ∨ L.program.RespectsLibrary)
    (hscoped : d.strict → L.program.BlockScoped) (htexts : d.texts → L.program.KeepsText)
    (n : Nat) : L.CallsLock d ι n := by
  induction n using Nat.strong_induction_on with
  | _ n ih => exact callsLock_of_lt hlib hscoped htexts ih

/-- Runs of a function that start alike stay in lockstep. -/
theorem lock_entry [Nonempty ι] (hlib : Subsingleton ι ∨ L.program.RespectsLibrary)
    (hscoped : d.strict → L.program.BlockScoped) (htexts : d.texts → L.program.KeepsText)
    {f : FunctionDecl} (hf : f ∈ L.program.functions)
    (hk : L.image.symbols.find? f.name = some k) {a : Word} (hm : L.Entered f a m) (n : Nat) :
    L.Lock d n k [[]] m :=
  callsLock hlib hscoped htexts n hf hk hm fun _ hm' => .returned hm'.trace hm'.result

/-- The same, whatever is printed as text. -/
theorem lockstep_entry [Nonempty ι] {strict : Prop}
    (hlib : Subsingleton ι ∨ L.program.RespectsLibrary)
    (hscoped : strict → L.program.BlockScoped) {f : FunctionDecl} (hf : f ∈ L.program.functions)
    (hk : L.image.symbols.find? f.name = some k) {a : Word} (hm : L.Entered f a m) (n : Nat) :
    L.Lock strict n k [[]] m :=
  lock_entry hlib hscoped False.elim hf hk hm n

/-- A call of a function, as a single run. -/
theorem entered_of_enters {f : FunctionDecl} {s : State} {vs : List Word} {t : Trace}
    (h : s.Enters L.runtime vs t 0) : L.Entered f s.top fun _ : Unit => s where
  args _ _ := ⟨_, fun _ => rfl⟩
  trace := ⟨_, fun _ => rfl⟩
  rsp := ⟨_, fun _ => rfl⟩
  aligned _ := h.aligned
  below_top _ := h.below_top
  top _ := rfl

end Loaded

end WordLang
