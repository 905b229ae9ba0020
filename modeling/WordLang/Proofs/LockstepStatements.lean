import WordLang.Proofs.LockstepExpressions

/-!
# Statements and calls in lockstep

A statement leads past its end, to a label of the innermost loop, or to the exit of its function
with one result in all runs. Synced runs stay in lockstep through it if they do so from all places
where it may lead. A jump back takes a step, so that a loop is a matter of fewer steps; and so is a
call, which is why all calls stay in lockstep for any number of steps.
-/
namespace WordLang

open Asm Machine

namespace Stmt

/-- The variable that a statement declares. -/
def declares : Stmt → List String
  | .declare name _ | .declareRecord name _ => [name]
  | _ => []

mutual

/-- Every variable that is read is one of `names`, or was declared before it in the same block or
in one around it. -/
def readsIn (names : List String) : Stmt → Bool
  | .declare _ value | .set _ value | .setField _ _ value | .ret (some value) | .print value
  | .eval value => value.reads ⊆ names
  | .branch cond thenBody elseBody =>
    cond.reads ⊆ names && blockReadsIn names thenBody && blockReadsIn names elseBody
  | .loop cond body => cond.reads ⊆ names && blockReadsIn names body
  | .declareRecord .. | .ret none | .leave | .again => true

def blockReadsIn (names : List String) : List Stmt → Bool
  | [] => true
  | stmt :: stmts => stmt.readsIn names && blockReadsIn (stmt.declares ++ names) stmts

end

end Stmt

/-- A function that has the name of one of the support library takes no more arguments than that. -/
def Program.RespectsLibrary (p : Program) : Prop :=
  ∀ f ∈ p.functions, ∀ b ∈ Builtin.find? f.name, f.params.length ≤ b.arity

instance (p : Program) : Decidable p.RespectsLibrary :=
  inferInstanceAs (Decidable (∀ f ∈ p.functions, ∀ b ∈ Builtin.find? f.name, _))

section

variable (L : Loaded) (d : Discipline) {ι : Type}

/-- From the labels where statements lead, the runs stay in lockstep: for `n` steps from the exit of
the function and from where the innermost loop ends, and for fewer from where it starts. -/
structure Activation.Exits (c : Activation L) (origin : ι → State) (older : List (List Nat))
    (frame : Frame) (n : Nat) (written : List Nat) : Prop where
  exit : ∀ {pos : Nat} {m : ι → State} {written' : List Nat},
    L.image.symbols.find? (labelName frame.exitLabel) = some pos →
    c.Synced d origin written' frame.pending m → (Uniform fun i => (m i).regs .rax) →
    L.Lock d n pos (written' :: older) m
  stop : ∀ {labels : LoopLabels} {pos : Nat} {m : ι → State} {written' : List Nat},
    frame.innermostLoop? = some labels →
    L.image.symbols.find? (labelName labels.stop) = some pos → written ⊆ written' →
    c.Synced d origin written' frame.pending m → L.Lock d n pos (written' :: older) m
  start : ∀ {labels : LoopLabels} {pos : Nat} {m : ι → State} {written' : List Nat},
    frame.innermostLoop? = some labels →
    L.image.symbols.find? (labelName labels.start) = some pos → written ⊆ written' →
    c.Synced d origin written' frame.pending m → ∀ j < n, L.Lock d j pos (written' :: older) m

variable (ι)

/-- The code of a statement keeps synced runs in lockstep for `n` steps, if they stay so from where
it leads. -/
def Stmt.Locks (n : Nat) (stmt : Stmt) : Prop :=
  ∀ {c : Activation L} {origin m : ι → State} {written : List Nat} {older : List (List Nat)}
    {names : List String} {s s' : Lowering} {code : Code} {k k' : Nat},
    stmt.Lowers L.decls s code s' → s'.frame.vars <+: c.frame.vars →
    (d.strict → stmt.readsIn names ∧ c.Assigned names written) →
    (d.texts → stmt.keepsText c.frame.isText) → L.image.Holds k code k' →
    c.Synced d origin written s.frame.pending m → c.Exits L d origin older s.frame n written →
    (∀ m' written', written ⊆ written' → (d.strict → c.Assigned stmt.declares written') →
      c.Synced d origin written' s.frame.pending m' → L.Lock d n k' (written' :: older) m') →
    L.Lock d n k (written :: older) m

/-- The code of a block keeps synced runs in lockstep. -/
def Stmt.AllLock (n : Nat) (stmts : List Stmt) : Prop :=
  ∀ {c : Activation L} {origin m : ι → State} {written : List Nat} {older : List (List Nat)}
    {names : List String} {s s' : Lowering} {code : Code} {k k' : Nat},
    LowersBlock L.decls stmts s code s' → s'.frame.vars <+: c.frame.vars →
    (d.strict → blockReadsIn names stmts ∧ c.Assigned names written) →
    (d.texts → blockKeepsText c.frame.isText stmts) → L.image.Holds k code k' →
    c.Synced d origin written s.frame.pending m → c.Exits L d origin older s.frame n written →
    (∀ m' written', written ⊆ written' → c.Synced d origin written' s.frame.pending m' →
      L.Lock d n k' (written' :: older) m') →
    L.Lock d n k (written :: older) m

end

section

variable {L : Loaded} {d : Discipline} {ι : Type} {n : Nat} {c : Activation L} {origin : ι → State}
  {older : List (List Nat)} {frame : Frame} {written : List Nat}

namespace Activation

theorem Assigned.mono {names : List String} {written' : List Nat} (h : c.Assigned names written)
    (hw : written ⊆ written') : c.Assigned names written' := fun name hn _ _ hs =>
  hw (h name hn hs)

theorem Assigned.append {names names' : List String} (h : c.Assigned names written)
    (h' : c.Assigned names' written) : c.Assigned (names ++ names') written := fun name hn _ _ hs =>
  (List.mem_append.1 hn).elim (fun hn => h name hn hs) fun hn => h' name hn hs

theorem Assigned.nil : c.Assigned [] written := nofun

/-- An expression that reads only assigned variables. -/
theorem assigned_reads {e : Expr} {names : List String}
    (h : d.strict → decide (e.reads ⊆ names) = true ∧ c.Assigned names written) (hs : d.strict) :
    c.Assigned e.reads written := by
  obtain ⟨hreads, hassigned⟩ := h hs
  intro name hname index slot hat
  exact hassigned name (of_decide_eq_true hreads hname) hat

theorem find?_declared {name : String} {kind : VarKind} {offset : Nat} {s s' : Lowering}
    (hd : Runs (Lower.declare name kind) s offset s') (hv : s'.frame.vars <+: c.frame.vars) :
    c.frame.vars.find? name = some ⟨offset, kind⟩ := by
  obtain ⟨hnew, -, -, hframe⟩ := Frame.declare_eq_ok.1 hd.declare_grows.2.2.1
  exact Table.find?_of_prefix hv (by simp [hframe, hnew])

/-- A variable is assigned when all its words are. -/
theorem assigned_of_find? {name : String} {kind : VarKind} {offset : Nat}
    (hf : c.frame.vars.find? name = some ⟨offset, kind⟩)
    (hw : ∀ index < kind.slots, offset - index * wordSize ∈ written) :
    c.Assigned [name] written := by
  rintro _ hname index slot ⟨var, hvar, hindex, rfl⟩
  obtain rfl := List.mem_singleton.1 hname
  obtain rfl := Option.some.inj (hf.symm.trans hvar)
  exact hw index hindex

namespace Exits

theorem mono (h : c.Exits L d origin older frame n written) {j : Nat} (hj : j ≤ n)
    {written' : List Nat} (hw : written ⊆ written') :
    c.Exits L d origin older frame j written' where
  exit hpos hm hv := (h.exit hpos hm hv).mono hj
  stop hl hpos hs hm := (h.stop hl hpos (List.Subset.trans hw hs) hm).mono hj
  start hl hpos hs hm i hi := h.start hl hpos (List.Subset.trans hw hs) hm i (by omega)

theorem of_grows (h : c.Exits L d origin older frame n written) {frame' : Frame}
    (hg : frame.Grows frame') : c.Exits L d origin older frame' n written where
  exit hpos hm hv := h.exit (hg.exitLabel ▸ hpos) (hg.pending ▸ hm) hv
  stop hl hpos hs hm := h.stop (by rwa [Frame.innermostLoop?, ← hg.loops]) hpos hs (hg.pending ▸ hm)
  start hl hpos hs hm :=
    h.start (by rwa [Frame.innermostLoop?, ← hg.loops]) hpos hs (hg.pending ▸ hm)

/-- Inside a loop, from whose labels the runs stay in lockstep. -/
theorem enterLoop (h : c.Exits L d origin older frame n written) {j : Nat} (hj : j ≤ n)
    {labels : LoopLabels} {written₁ : List Nat}
    (hstop : ∀ {pos : Nat} {m : ι → State} {written' : List Nat},
      L.image.symbols.find? (labelName labels.stop) = some pos → written₁ ⊆ written' →
      c.Synced d origin written' frame.pending m → L.Lock d j pos (written' :: older) m)
    (hstart : ∀ {pos : Nat} {m : ι → State} {written' : List Nat},
      L.image.symbols.find? (labelName labels.start) = some pos → written₁ ⊆ written' →
      c.Synced d origin written' frame.pending m →
      ∀ i < j, L.Lock d i pos (written' :: older) m) :
    c.Exits L d origin older (frame.enterLoop labels) j written₁ where
  exit hpos hm hv := (h.exit hpos hm hv).mono hj
  stop hl hpos hs hm := by
    obtain rfl := Option.some.inj hl
    exact hstop hpos hs hm
  start hl hpos hs hm := by
    obtain rfl := Option.some.inj hl
    exact hstart hpos hs hm

end Exits

end Activation

/-! ## Forms of statements -/

/-- The word in a register is stored into a slot. -/
theorem Activation.Synced.lock_store {pending k slot : Nat} {m : ι → State} {r : Register}
    (hm : c.Synced d origin written pending m) (hi : L.image.instrs[k]? = some (.store r slot))
    (hslot : c.IsSlot slot) (hv : Uniform fun i => (m i).regs r)
    (ht : d.texts → c.frame.TextSlot slot → ∀ i, L.image.IsLiteral ((m i).regs r))
    (hn : ∀ m', c.Synced d origin (slot :: written) pending m' →
      (∀ i r, (m' i).regs r = (m i).regs r) →
      L.Lock d n (k + 1) ((slot :: written) :: older) m') :
    L.Lock d n k (written :: older) m := by
  have he (i : ι) : Instr.exec L.image.literal (.store r slot) (m i) =
      some ((m i).write (c.slot slot) ((m i).regs r)) := by
    rw [Instr.exec, hm.slot_eq]
  exact .exec hi rfl hm.trace (.inl rfl) he fun _ => hn _ (hm.store hslot hv ht) fun _ _ => rfl

namespace Expr

/-- A value is computed and stored into a slot. -/
theorem Locks.store {value : Expr} (h : value.Locks L d ι n) {m : ι → State}
    {s s' : Lowering} {code : Code} {k k' slot : Nat} (hl : value.Lowers L.decls s code s')
    (hv : s'.frame.vars <+: c.frame.vars) (hr : d.strict → c.Assigned value.reads written)
    (hh : L.image.Holds k (code ++ [.instr (.store .rax slot)]) k')
    (hm : c.Synced d origin written s.frame.pending m) (hslot : c.IsSlot slot)
    (ht : d.texts → c.frame.TextSlot slot → value.isString c.frame)
    (hn : ∀ m', c.Synced d origin (slot :: written) s.frame.pending m' →
      L.Lock d n k' ((slot :: written) :: older) m') :
    L.Lock d n k (written :: older) m := by
  obtain ⟨k₁, hcode, hstore, rfl⟩ := Image.holds_append.1 hh
  refine h hl hv hr hcode hm fun m₁ hm₁ => ?_
  have hsync := hm.of_keeps hm₁.keeps hm₁.trace
  exact hsync.lock_store hstore hslot hm₁.result (fun hd hs => hm₁.text hd (ht hd hs))
    fun m' hm' _ => hn m' hm'

/-- A value is tested, and a jump is taken where it is zero. -/
theorem Locks.test {cond : Expr} (h : cond.Locks L d ι n) {m : ι → State}
    {s s' : Lowering} {code : Code} {k k₁ k' label : Nat} (hl : cond.Lowers L.decls s code s')
    (hv : s'.frame.vars <+: c.frame.vars) (hr : d.strict → c.Assigned cond.reads written)
    (hh : L.image.Holds k code k₁)
    (htest : L.image.Holds k₁ (.ofInstrs [.cmpZero .rax, .je label]) k')
    (hm : c.Synced d origin written s.frame.pending m)
    (hzero : ∀ pos m', L.image.symbols.find? (labelName label) = some pos →
      c.Synced d origin written s.frame.pending m' → L.Lock d n pos (written :: older) m')
    (hn : ∀ m', c.Synced d origin written s.frame.pending m' →
      L.Lock d n k' (written :: older) m') :
    L.Lock d n k (written :: older) m := by
  refine h hl hv hr hh hm fun m₁ hm₁ => ?_
  obtain ⟨v, hv⟩ := hm₁.result
  have hsync (flags : Option Flags) :
      c.Synced d origin written s.frame.pending fun i => (m₁ i).setFlags flags :=
    (hm.of_keeps hm₁.keeps hm₁.trace).of_keeps (fun _ => ⟨rfl, rfl, rfl, fun _ _ _ => rfl⟩)
      hm₁.trace
  exact .testZero htest hm₁.trace hv (fun _ flags pos hpos => hzero pos _ hpos (hsync flags))
    fun _ flags => hn _ (hsync flags)

end Expr

namespace Stmt

theorem locks_declare {name : String} {value : Expr} (h : value.Locks L d ι n) :
    (Stmt.declare name value).Locks L d ι n := by
  intro c origin m written older names s s' code k k' hl hv hr _ hh hm _ hn
  cases hl with
  | @declare _ _ _ s₁ _ code offset hvalue hd =>
    have hfind := c.find?_declared hd hv
    have hone : (value.varKind s₁.frame).slots = 1 := by
      unfold Expr.varKind
      split <;> rfl
    have hat : SlotAt c.frame.vars name 0 offset := ⟨_, hfind, by simp [hone], by simp⟩
    have hv₁ : s₁.frame.vars <+: c.frame.vars := hd.declare_grows.2.1.vars.trans hv
    refine h.store hvalue hv₁ (c.assigned_reads hr) hh hm ⟨name, 0, hat⟩ (fun _ hs => ?_)
      fun m' hm' => hn m' _ (List.subset_cons_self _ _) (fun _ => ?_) hm'
    · have hkind := hs.isText c.sound.laid.placed hat
      rw [Frame.isText_of_find? hfind, Expr.varKind] at hkind
      cases hstring : value.isString s₁.frame with
      | true => exact Expr.isString_mono hv₁ hstring
      | false => simp [hstring] at hkind
    · refine c.assigned_of_find? hfind fun index hindex => ?_
      obtain rfl : index = 0 := by omega
      simp

theorem locks_set {name : String} {value : Expr} (h : value.Locks L d ι n) :
    (Stmt.set name value).Locks L d ι n := by
  intro c origin m written older names s s' code k k' hl hv hr ht hh hm _ hn
  cases hl with
  | set hvalue hw =>
    have hat := c.isSlot_wordSlot hv hw
    refine h.store hvalue hv (c.assigned_reads hr) hh hm ⟨_, _, hat⟩ (fun hd hs => ?_)
      fun m' hm' => hn m' _ (List.subset_cons_self _ _) (fun _ => .nil) hm'
    simpa [keepsText, Expr.isTextBy_isText, hs.isText c.sound.laid.placed hat] using ht hd

theorem locks_setField {name field : String} {value : Expr} (h : value.Locks L d ι n) :
    (Stmt.setField name field value).Locks L d ι n := by
  intro c origin m written older names s s' code k k' hl hv hr _ hh hm _ hn
  cases hl with
  | setField hvalue hf =>
    obtain ⟨index, hat⟩ := c.exists_fieldSlot hv hf
    exact h.store hvalue hv (c.assigned_reads hr) hh hm ⟨_, _, hat⟩
      (fun _ hs => ((hf.mono hv).not_textSlot c.sound.laid.placed hat hs).elim)
      fun m' hm' => hn m' _ (List.subset_cons_self _ _) (fun _ => .nil) hm'

/-- The words of a new record are cleared, one after another. -/
theorem lock_clear {slots : List Nat} {pending k k' : Nat} {m : ι → State}
    (hslots : ∀ slot ∈ slots, c.IsSlot slot ∧ ¬ c.frame.TextSlot slot)
    (hh : L.image.Holds k (slots.map fun slot => .instr (.storeZero slot)) k')
    (hm : c.Synced d origin written pending m)
    (hn : ∀ m' written', written ⊆ written' → slots ⊆ written' →
      c.Synced d origin written' pending m' → L.Lock d n k' (written' :: older) m') :
    L.Lock d n k (written :: older) m := by
  induction slots generalizing k m written with
  | nil =>
    obtain rfl : k = k' := hh
    exact hn m written (List.Subset.refl _) (List.nil_subset _) hm
  | cons slot slots ih =>
    rw [List.forall_mem_cons] at hslots
    obtain ⟨hi, hh⟩ := hh
    have he (i : ι) : Instr.exec L.image.literal (.storeZero slot) (m i) =
        some ((m i).write (c.slot slot) 0) := by
      rw [Instr.exec, hm.slot_eq]
    refine .exec hi rfl hm.trace (.inl rfl) he fun _ => ?_
    have hm₁ := hm.store hslots.1.1 ⟨0, fun _ => rfl⟩ fun _ hs => (hslots.1.2 hs).elim
    refine ih hslots.2 hh hm₁ fun m' written' hw hs hm' => ?_
    rw [List.cons_subset] at hw
    exact hn m' written' hw.2 (List.cons_subset.2 ⟨hw.1, hs⟩) hm'

theorem locks_declareRecord (name typeName : String) :
    (Stmt.declareRecord name typeName).Locks L d ι n := by
  intro c origin m written older names s s' code k k' hl hv _ _ hh hm _ hn
  cases hl with
  | @declareRecord _ _ decl _ _ base htype hd _ =>
    have hfind := c.find?_declared hd hv
    have hcode : Lower.clearCode base decl.slots =
        ((List.range decl.slots).map fun index => base - index * wordSize).map fun slot =>
          .instr (.storeZero slot) := by
      simp [Lower.clearCode]
    rw [hcode] at hh
    refine lock_clear (fun slot hslot => ?_) hh hm fun m' written' hw hslots hm' =>
      hn m' written' hw (fun _ => c.assigned_of_find? hfind fun index hindex => ?_) hm'
    · obtain ⟨index, hindex, rfl⟩ := List.mem_map.1 hslot
      have hat : SlotAt c.frame.vars name index (base - index * wordSize) :=
        ⟨_, hfind, List.mem_range.1 hindex, rfl⟩
      exact ⟨⟨name, index, hat⟩, Frame.not_textSlot hfind (by simp) c.sound.laid.placed hat⟩
    · exact hslots (List.mem_map.2 ⟨index, List.mem_range.2 hindex, rfl⟩)

theorem locks_retNone : (Stmt.ret none).Locks L d ι n := by
  intro c origin m written older names s s' code k k' hl _ _ _ hh hm he _
  cases hl
  obtain ⟨hmov, hjmp, rfl⟩ := hh
  have hm' : c.Synced d origin written s.frame.pending
      fun i => (m i).set .rax (0 : Int64).toBitVec :=
    hm.of_keeps (fun _ => ⟨rfl, rfl, rfl, fun _ _ _ => rfl⟩) hm.trace
  refine .exec hmov rfl hm.trace (.inl rfl) (fun _ => rfl) fun _ => ?_
  exact .jmp hjmp hm.trace fun pos hpos j hj =>
    (he.exit hpos hm' ⟨0, fun _ => rfl⟩).mono (Nat.le_of_lt hj)

theorem locks_ret {value : Expr} (h : value.Locks L d ι n) :
    (Stmt.ret (some value)).Locks L d ι n := by
  intro c origin m written older names s s' code k k' hl hv hr _ hh hm he _
  cases hl with
  | ret hvalue =>
    obtain ⟨k₁, hcode, hjmp, rfl⟩ := Image.holds_append.1 hh
    refine h hvalue hv (c.assigned_reads hr) hcode hm fun m₁ hm₁ => ?_
    refine .jmp hjmp hm₁.trace fun pos hpos j hj => ?_
    rw [hvalue.frame_eq] at hpos
    exact (he.exit hpos (hm.of_keeps hm₁.keeps hm₁.trace) hm₁.result).mono (Nat.le_of_lt hj)

theorem locks_eval {value : Expr} (h : value.Locks L d ι n) :
    (Stmt.eval value).Locks L d ι n := by
  intro c origin m written older names s s' code k k' hl hv hr _ hh hm _ hn
  cases hl with
  | eval hvalue =>
    exact h hvalue hv (c.assigned_reads hr) hh hm fun m' hm' =>
      hn m' written (List.Subset.refl _) (fun _ => .nil) (hm.of_keeps hm'.keeps hm'.trace)

theorem locks_leave : Stmt.leave.Locks L d ι n := by
  intro c origin m written older names s s' code k k' hl _ _ _ hh hm he _
  cases hl with
  | leave hloop =>
    obtain ⟨hjmp, rfl⟩ := hh
    exact .jmp hjmp hm.trace fun pos hpos j hj =>
      (he.stop hloop hpos (List.Subset.refl _) hm).mono (Nat.le_of_lt hj)

theorem locks_again : Stmt.again.Locks L d ι n := by
  intro c origin m written older names s s' code k k' hl _ _ _ hh hm he _
  cases hl with
  | again hloop =>
    obtain ⟨hjmp, rfl⟩ := hh
    exact .jmp hjmp hm.trace fun pos hpos => he.start hloop hpos (List.Subset.refl _) hm

/-- What prints takes no more than the value. -/
theorem supplies_library {name : String} {b : Builtin} (hb : Builtin.find? name = some b)
    (hlib : Subsingleton ι ∨ L.program.RespectsLibrary) :
    L.Supplies ι (.library name) b.arity := by
  by_cases hf : ∃ f ∈ L.program.functions, f.name = name
  · obtain ⟨f, hf, rfl⟩ := hf
    exact .inl ⟨f, hf, rfl, hlib.imp_right fun hlib => hlib f hf b hb⟩
  · exact .inr ⟨fun f hm hname => hf ⟨f, hm, hname⟩, b, hb, Nat.le_refl _⟩

theorem locks_print [Nonempty ι] {value : Expr} (h : value.Locks L d ι n)
    (hlib : Subsingleton ι ∨ L.program.RespectsLibrary)
    (hcalls : ∀ j < n, L.CallsLock d ι j) : (Stmt.print value).Locks L d ι n := by
  intro c origin m written older names s s' code k k' hl hv hr _ hh hm _ hn
  cases hl with
  | @print _ _ _ code hvalue =>
    simp only [Image.holds_append (b := Lower.callCode _ _)] at hh
    obtain ⟨k₂, ⟨k₁, hh, hprint⟩, hnewline⟩ := hh
    obtain ⟨k₀, hcode, hmov, rfl⟩ := Image.holds_append.1 hh
    rw [hvalue.frame_eq] at hprint hnewline
    obtain ⟨b, hb, harity⟩ : ∃ b, Builtin.find? (value.printer s.frame) = some b ∧ b.arity = 1 := by
      unfold Expr.printer
      split <;> exact ⟨_, rfl, rfl⟩
    refine h hvalue hv (c.assigned_reads hr) hcode hm fun m₁ hm₁ => ?_
    have hsync := hm.of_keeps hm₁.keeps hm₁.trace
    have hsync₂ : c.Synced d origin written s.frame.pending
        fun i => (m₁ i).set .rdi ((m₁ i).regs .rax) :=
      hsync.of_keeps (fun _ => ⟨rfl, rfl, rfl, fun _ _ _ => rfl⟩) hm₁.trace
    refine .exec hmov rfl hm₁.trace (.inl rfl) (fun _ => rfl) fun _ => ?_
    have hliterals : L.PrintsLiterals d (k₀ + 1 + s.frame.pending % 2)
        fun i => (m₁ i).set .rdi ((m₁ i).regs .rax) := by
      intro hd hp
      have hprinter := L.eq_of_printsText hprint hp
      cases hstring : value.isString s.frame with
      | true =>
        rw [← hvalue.frame_eq] at hstring
        exact hm₁.text hd (Expr.isString_mono hv hstring)
      | false => simp [Expr.printer, hstring] at hprinter
    refine L.lock_callCode hcalls hsync₂ hprint (supplies_library hb hlib) (fun r hr => ?_)
      hliterals fun m₃ hm₃ => ?_
    · rw [harity] at hr
      obtain rfl : r = .rdi := by simpa [Register.args] using hr
      exact hm₁.result
    have hsync₃ := hsync₂.of_keeps hm₃.keeps hm₃.trace
    have hnoText : L.PrintsLiterals d (k₂ + s.frame.pending % 2) m₃ := fun _ hp =>
      absurd (L.eq_of_printsText hnewline hp) (by decide)
    refine L.lock_callCode hcalls hsync₃ hnewline (supplies_library rfl hlib) (by simp) hnoText
      fun m₄ hm₄ => ?_
    exact hn m₄ written (List.Subset.refl _) (fun _ => .nil) (hsync₃.of_keeps hm₄.keeps hm₄.trace)

theorem allLock_nil : AllLock L d ι n [] := by
  intro c origin m written older names s s' code k k' hl _ _ _ hh hm _ hn
  cases hl
  obtain rfl : k = k' := hh
  exact hn m written (List.Subset.refl _) hm

theorem Locks.cons {stmt : Stmt} {stmts : List Stmt} (h : stmt.Locks L d ι n)
    (hs : AllLock L d ι n stmts) : AllLock L d ι n (stmt :: stmts) := by
  intro c origin m written older names s s' code k k' hl hv hr ht hh hm he hn
  cases hl with
  | @cons _ _ _ s₁ _ first rest hfirst hrest =>
    obtain ⟨k₁, hh₁, hh₂⟩ := Image.holds_append.1 hh
    have hg := hfirst.frame_grows
    have hr' (hs : d.strict) :
        stmt.readsIn names ∧ blockReadsIn (stmt.declares ++ names) stmts := by
      simpa [blockReadsIn] using (hr hs).1
    have ht' (hd : d.texts) :
        stmt.keepsText c.frame.isText ∧ blockKeepsText c.frame.isText stmts := by
      simpa [blockKeepsText] using ht hd
    refine h hfirst (hrest.frame_grows.vars.trans hv) (fun hs => ⟨(hr' hs).1, (hr hs).2⟩)
      (fun hd => (ht' hd).1) hh₁ hm he fun m₁ written₁ hw hd hm₁ => ?_
    refine hs hrest hv (fun hs => ⟨(hr' hs).2, (hd hs).append ((hr hs).2.mono hw)⟩)
      (fun hd => (ht' hd).2) hh₂ (hg.pending ▸ hm₁) ((he.mono (Nat.le_refl _) hw).of_grows hg)
      fun m' written' hw' hm' => ?_
    exact hn m' written' (List.Subset.trans hw hw') (hg.pending ▸ hm')

theorem locks_branch {cond : Expr} {thenBody : List Stmt} (hc : cond.Locks L d ι n)
    (hb : AllLock L d ι n thenBody) : (Stmt.branch cond thenBody []).Locks L d ι n := by
  intro c origin m written older names s s' code k k' hl hv hr ht hh hm he hn
  cases hl with
  | branchElse hne => exact (hne rfl).elim
  | @branch _ _ _ s₁ _ test body hcond hbody =>
    simp only [Image.holds_append, Image.holds_label, Image.holds_nil] at hh
    obtain ⟨k₃, ⟨k₂, ⟨k₁, hh₁, htest⟩, hh₂⟩, hlabel, rfl⟩ := hh
    have hframe := hcond.frame_eq
    have hr' (hs : d.strict) : decide (cond.reads ⊆ names) ∧ blockReadsIn names thenBody := by
      have hreads := (hr hs).1
      simp only [readsIn, Bool.and_eq_true] at hreads
      exact hreads.1
    have ht' (hd : d.texts) : blockKeepsText c.frame.isText thenBody := by
      have hkeeps := ht hd
      simp only [keepsText, Bool.and_eq_true] at hkeeps
      exact hkeeps.1
    refine hc.test hcond (hbody.frame_grows.vars.trans hv)
      (c.assigned_reads fun hs => ⟨(hr' hs).1, (hr hs).2⟩) hh₁ htest hm (fun pos m₁ hpos hm₁ => ?_)
      fun m₁ hm₁ => ?_
    · obtain rfl : k₃ = pos := Option.some.inj (hlabel.symm.trans hpos)
      exact hn m₁ written (List.Subset.refl _) (fun _ => .nil) hm₁
    · have hg : s.frame.Grows (s₁.skipLabels 1).frame := .of_eq hframe
      refine hb hbody hv (fun hs => ⟨(hr' hs).2, (hr hs).2⟩) ht' hh₂ (hg.pending ▸ hm₁)
        (he.of_grows hg) fun m' written' hw hm' => ?_
      exact hn m' written' hw (fun _ => .nil) (hg.pending ▸ hm')

theorem locks_branchElse {cond : Expr} {thenBody elseBody : List Stmt} (hne : elseBody ≠ [])
    (hc : cond.Locks L d ι n) (hb : AllLock L d ι n thenBody)
    (ho : AllLock L d ι n elseBody) :
    (Stmt.branch cond thenBody elseBody).Locks L d ι n := by
  intro c origin m written older names s s' code k k' hl hv hr ht hh hm he hn
  cases hl with
  | branch => exact (hne rfl).elim
  | @branchElse _ _ _ _ s₁ s₂ _ test body other _ hcond hbody hother =>
    simp only [Image.holds_append, Image.holds_label, Image.holds_instr, Image.holds_nil] at hh
    obtain ⟨k₅, ⟨k₄, ⟨k₃, ⟨k₂, ⟨k₁, hh₁, htest⟩, hh₂⟩, hjmp, hlabel, rfl⟩, hh₃⟩, hdone, rfl⟩ := hh
    have hg₁ : s.frame.Grows (s₁.skipLabels 2).frame := .of_eq hcond.frame_eq
    have hg₂ : s.frame.Grows s₂.frame := hg₁.trans hbody.frame_grows
    have hv₂ : s₂.frame.vars <+: c.frame.vars := hother.frame_grows.vars.trans hv
    have hr' (hs : d.strict) : (decide (cond.reads ⊆ names) ∧ blockReadsIn names thenBody) ∧
        blockReadsIn names elseBody := by
      simpa only [readsIn, Bool.and_eq_true] using (hr hs).1
    have ht' (hd : d.texts) : blockKeepsText c.frame.isText thenBody ∧
        blockKeepsText c.frame.isText elseBody := by
      simpa only [keepsText, Bool.and_eq_true] using ht hd
    refine hc.test hcond (hbody.frame_grows.vars.trans hv₂)
      (c.assigned_reads fun hs => ⟨(hr' hs).1.1, (hr hs).2⟩) hh₁ htest hm
      (fun pos m₁ hpos hm₁ => ?_) fun m₁ hm₁ => ?_
    · obtain rfl : k₃ + 1 = pos := Option.some.inj (hlabel.symm.trans hpos)
      exact ho hother hv (fun hs => ⟨(hr' hs).2, (hr hs).2⟩) (fun hd => (ht' hd).2) hh₃
        (hg₂.pending ▸ hm₁) (he.of_grows hg₂) fun m' written' hw hm' =>
          hn m' written' hw (fun _ => .nil) (hg₂.pending ▸ hm')
    · refine hb hbody hv₂ (fun hs => ⟨(hr' hs).1.2, (hr hs).2⟩) (fun hd => (ht' hd).1) hh₂
        (hg₁.pending ▸ hm₁) (he.of_grows hg₁) fun m' written' hw hm' => ?_
      refine .jmp hjmp hm'.trace fun pos hpos j hj => ?_
      obtain rfl : k₅ = pos := Option.some.inj (hdone.symm.trans hpos)
      exact (hn m' written' hw (fun _ => .nil) (hg₁.pending ▸ hm')).mono (Nat.le_of_lt hj)

theorem locks_loop {cond : Expr} {body : List Stmt} (hc : ∀ j ≤ n, cond.Locks L d ι j)
    (hb : ∀ j ≤ n, AllLock L d ι j body) : (Stmt.loop cond body).Locks L d ι n := by
  intro c origin m written older names s s' code k k' hl hv hr ht hh hm he hn
  cases hl with
  | @loop _ _ _ s₁ s₂ test code hcond hbody =>
    simp only [Image.holds_append, Image.holds_label, Image.holds_instr, Image.holds_nil,
      List.cons_append] at hh
    obtain ⟨hstart, k₃, ⟨k₂, ⟨k₁, hh₁, htest⟩, hh₂⟩, hjmp, hstop, rfl⟩ := hh
    have hr' (hs : d.strict) : decide (cond.reads ⊆ names) ∧ blockReadsIn names body := by
      simpa only [readsIn, Bool.and_eq_true] using (hr hs).1
    let labels : LoopLabels := ⟨s.nextLabel, s.nextLabel + 1⟩
    have hloop : (s₁.withFrame (s₁.frame.enterLoop labels)).frame = s.frame.enterLoop labels :=
      congrArg (·.enterLoop labels) hcond.frame_eq
    -- Each round begins with at least the slots written that were so when the loop was entered.
    have hround (j : Nat) : j ≤ n → ∀ {m' : ι → State} {written' : List Nat}, written ⊆ written' →
        c.Synced d origin written' s.frame.pending m' → L.Lock d j k (written' :: older) m' := by
      induction j using Nat.strong_induction_on with
      | _ j ih =>
        intro hj m' written' hw hm'
        refine Expr.Locks.test (hc j hj) hcond (hbody.frame_grows.vars.trans hv)
          (c.assigned_reads fun hs => ⟨(hr' hs).1, (hr hs).2.mono hw⟩) hh₁ htest hm'
          (fun pos m₁ hpos hm₁ => ?_) fun m₁ hm₁ => ?_
        · obtain rfl : k₃ + 1 = pos := Option.some.inj (hstop.symm.trans hpos)
          exact (hn m₁ written' hw (fun _ => .nil) hm₁).mono hj
        · have hexits : c.Exits L d origin older (s.frame.enterLoop labels) j written' := by
            refine he.enterLoop hj (fun hpos hw₂ hm₂ => ?_) fun hpos hw₂ hm₂ i hi => ?_
            · obtain rfl := Option.some.inj (hstop.symm.trans hpos)
              exact (hn _ _ (List.Subset.trans hw hw₂) (fun _ => .nil) hm₂).mono hj
            · obtain rfl := Option.some.inj (hstart.symm.trans hpos)
              exact ih i hi (by omega) (List.Subset.trans hw hw₂) hm₂
          rw [← hloop] at hexits
          refine hb j hj hbody hv (fun hs => ⟨(hr' hs).2, (hr hs).2.mono hw⟩) ht hh₂
            (by rw [hloop]; exact hm₁) hexits fun m₂ written₂ hw₂ hm₂ => ?_
          rw [hloop] at hm₂
          refine .jmp hjmp hm₂.trace fun pos hpos i hi => ?_
          obtain rfl := Option.some.inj (hstart.symm.trans hpos)
          exact ih i hi (by omega) (List.Subset.trans hw hw₂) hm₂
    exact hround n (Nat.le_refl _) (List.Subset.refl _) hm

mutual

/-- The code of every statement keeps synced runs in lockstep, if calls do. -/
theorem locks [Nonempty ι] (hlib : Subsingleton ι ∨ L.program.RespectsLibrary)
    {n : Nat} (hcalls : ∀ j < n, L.CallsLock d ι j) : (stmt : Stmt) → stmt.Locks L d ι n
  | .declare _ value => locks_declare (value.locks hcalls)
  | .declareRecord name typeName => locks_declareRecord name typeName
  | .set _ value => locks_set (value.locks hcalls)
  | .setField _ _ value => locks_setField (value.locks hcalls)
  | .ret none => locks_retNone
  | .ret (some value) => locks_ret (value.locks hcalls)
  | .branch cond thenBody [] => locks_branch (cond.locks hcalls) (allLock hlib hcalls thenBody)
  | .branch cond thenBody (stmt :: stmts) =>
    locks_branchElse (List.cons_ne_nil stmt stmts) (cond.locks hcalls)
      (allLock hlib hcalls thenBody) (allLock hlib hcalls (stmt :: stmts))
  | .loop cond body =>
    have hfewer {j : Nat} (hj : j ≤ n) : ∀ i < j, L.CallsLock d ι i :=
      fun i hi => hcalls i (Nat.lt_of_lt_of_le hi hj)
    locks_loop (fun _ hj => cond.locks (hfewer hj)) fun _ hj => allLock hlib (hfewer hj) body
  | .print value => locks_print (value.locks hcalls) hlib hcalls
  | .eval value => locks_eval (value.locks hcalls)
  | .leave => locks_leave
  | .again => locks_again

theorem allLock [Nonempty ι] (hlib : Subsingleton ι ∨ L.program.RespectsLibrary)
    {n : Nat} (hcalls : ∀ j < n, L.CallsLock d ι j) :
    (stmts : List Stmt) → AllLock L d ι n stmts
  | [] => allLock_nil
  | stmt :: stmts => Locks.cons (locks hlib hcalls stmt) (allLock hlib hcalls stmts)

end

end Stmt

end

end WordLang
