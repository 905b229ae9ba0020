import WordLang.Proofs.LockstepCalls

/-!
# Divide errors

The machine stops at a division whose quotient is not a word. The code of a division tests its
divisor, so that no run comes to a division by zero; and the dividend is extended by its sign. One
pair of operands is left: the lowest word divided by minus one, whose quotient is one too high, does
stop the machine.
-/
namespace WordLang

open Asm Machine

namespace Machine.Image

variable (img : Image) (rt : Runtime)

/-- A run that comes to a division has prepared the operands, and the division fails for one pair of
them only. -/
def DivisionsReady (c : Point × State) : Prop :=
  ∀ n q s, img.run rt n c = some (q, s) → q.calls ≠ [] →
    ∀ r, img.instrAt? q.address = some (.idiv r) → r = .rcx ∧ s.regs .rcx ≠ 0 ∧
      (s.divide (s.regs .rcx) = none ↔ s.regs .rax = BitVec.intMin 64 ∧ s.regs .rcx = -1)

/-- The code of a division computes a value, or the machine stops at its division. -/
structure DivisionEnds (remainder : Bool) (k k' : Nat) (s : State) : Prop where
  value : ¬ (s.regs .rax = BitVec.intMin 64 ∧ s.regs .rcx = -1) → ∃ v,
    BinaryOp.divide (if remainder then Int.tmod else Int.tdiv) (s.regs .rax) (s.regs .rcx) =
      some v ∧ img.Yields rt k k' s v s.trace
  error : s.regs .rax = BitVec.intMin 64 → s.regs .rcx = -1 → ∃ c : Config,
    img.Reaches rt (img.address k, s) c ∧ img.instrAt? c.1 = some (.idiv .rcx) ∧
      img.step rt c = none

variable {img rt}

/-- What the code of a division does, for all pairs of operands. -/
theorem divisionEnds_of_holds {remainder : Bool} {nonzero done k k' : Nat}
    (h : img.Holds k (divisionCode remainder nonzero done) k') (s : State) :
    img.DivisionEnds rt remainder k k' s := by
  constructor
  · intro hmin
    obtain ⟨v, hv⟩ : ∃ v, BinaryOp.divide (if remainder then Int.tmod else Int.tdiv)
        (s.regs .rax) (s.regs .rcx) = some v := by
      by_cases hy : s.regs .rcx = 0
      · exact ⟨0, by rw [BinaryOp.divide, if_pos hy]⟩
      · exact ⟨_, by rw [BinaryOp.divide, if_neg hy, if_neg hmin]⟩
    exact ⟨v, hv, yields_division h s hv⟩
  · intro hx hy
    rw [divisionCode_eq] at h
    simp only [holds_append, holds_label, holds_nil] at h
    obtain ⟨_, htest, k₁, -, hnonzero, _, ⟨hcqto, hidiv, rfl⟩, -⟩ := h
    obtain ⟨flags, hr⟩ := reaches_testNonzero htest hnonzero s
    rw [if_neg (by rw [hy]; decide)] at hr
    let s₁ := (s.setFlags flags).set .rdx (if (s.regs .rax).toInt < 0 then -1 else 0)
    have hcqto : img.step rt (img.address k₁, s.setFlags flags) =
        some (img.address (k₁ + 1), s₁) := step_exec hcqto rfl
    have hprepared : s₁.DivisionReady := ⟨by show s.regs .rcx ≠ 0; rw [hy]; decide, rfl⟩
    have hnone : s₁.divide (s₁.regs .rcx) = none := hprepared.divide_eq_none_iff.2 ⟨hx, hy⟩
    refine ⟨_, hr.tail hcqto, instrAt?_address hidiv, ?_⟩
    simp [step_of_getElem? hidiv, perform, Instr.exec, hnone]

end Machine.Image

namespace Program

variable {limits : Limits} {p : Program}

/-- In the code that is written for a program, whatever its functions are called with and whatever
the support library answers, the machine comes to a division only with a divisor other than zero and
with the dividend extended by its sign. The code of a division computes a value for all operands but
the lowest word and minus one; and for these the machine stops. -/
theorem divide_error_iff (h : p.Accepted limits) :
    ∃ a : Assembly, p.Assembles limits a ∧ p.written limits = utf8 a.text ∧
      ∀ (img : Image) (rt : Runtime), img.Loads a → (a.symbols.map Prod.fst).Nodup →
        (∀ f ∈ p.functions, ∃ k, img.symbols.find? f.name = some k ∧
          ∀ (vs : List Word) (t : Trace) (m : State), m.Enters rt vs t 0 →
            img.DivisionsReady rt (img.entry k m)) ∧
        ∀ {remainder : Bool} {nonzero done k k' : Nat},
          img.Holds k (divisionCode remainder nonzero done) k' →
          ∀ m : State, img.DivisionEnds rt remainder k k' m := by
  obtain ⟨a, ha⟩ := accepted_iff.1 h
  refine ⟨a, ha, ha.written_eq, fun img rt himg hd => ⟨fun f hf => ?_, Image.divisionEnds_of_holds⟩⟩
  let L : Loaded := ⟨limits, p, a, img, rt, ha, himg, hd⟩
  obtain ⟨_, _, _, k, _, -, -, hk, -⟩ := L.exists_code hf
  refine ⟨k, hk, fun vs t m hm n q s hrun hcalls r hr => ?_⟩
  have hlock : L.Lock False n k [[]] fun _ : Unit => m :=
    L.lockstep_entry (.inl inferInstance) False.elim hf hk (Loaded.entered_of_enters hm) n
  obtain ⟨rfl, hdivides⟩ := (hlock.inStep_run hrun).divides hcalls r hr
  exact ⟨rfl, (hdivides ()).divisor, (hdivides ()).divide_eq_none_iff⟩

/-- The code of `halves` divides. -/
theorem divide_error_iff_halves : halves.Accepted {} ∧
    ∃ (a : Assembly) (img : Image) (rt : Runtime) (k : Nat) (m : State),
      halves.written {} = utf8 a.text ∧ img.Loads a ∧ (a.symbols.map Prod.fst).Nodup ∧
      img.symbols.find? "half" = some k ∧ m.Enters rt [2] [] 0 ∧
      img.DivisionsReady rt (img.entry k m) ∧
      ∀ {remainder : Bool} {nonzero done k k' : Nat},
        img.Holds k (divisionCode remainder nonzero done) k' →
        img.DivisionEnds rt remainder k k' m := by
  have h : halves.Accepted {} := by decide +kernel
  obtain ⟨a, ha, hwritten, hall⟩ := divide_error_iff h
  have hd : (a.symbols.map Prod.fst).Nodup := ha.nodup_symbols (by decide +kernel)
  obtain ⟨img, himg⟩ := ha.exists_image (by decide +kernel)
  let m : State := (State.filled 0).set .rdi 2
  have hm : m.Enters .silent [2] [] 0 := ⟨rfl, rfl, by decide, by decide, by decide⟩
  obtain ⟨hfunctions, hends⟩ := hall img .silent himg hd
  obtain ⟨k, hk, hready⟩ := hfunctions _ (.head _)
  exact ⟨h, a, img, .silent, k, m, hwritten, himg, hd, hk, hm, hready _ _ m hm,
    fun hh => hends hh m⟩

end Program

/-- Divides the lowest word by minus one. -/
def lowestByMinusOne : Program where
  functions := [⟨"main", [], [.ret (some (.binary .div (.int Int64.minValue) (.int (-1))))]⟩]

/-- The code of `lowestByMinusOne` is written, and stops at its division. -/
theorem Program.lowestByMinusOne_stops : lowestByMinusOne.Accepted {} ∧
    ∃ (a : Assembly) (img : Image) (rt : Runtime) (k : Nat) (m : State),
      lowestByMinusOne.written {} = utf8 a.text ∧ img.Loads a ∧
      (a.symbols.map Prod.fst).Nodup ∧ img.symbols.find? "main" = some k ∧ m.Enters rt [] [] 0 ∧
      ∃ c : Config, img.Reaches rt (img.address k, m) c ∧
        img.instrAt? c.1 = some (.idiv .rcx) ∧ img.step rt c = none := by
  let body : Code := .ofInstrs [.movImm Int64.minValue .rax, .push .rax, .movImm (-1) .rax,
      .mov .rax .rcx, .pop .rax] ++ divisionCode false 1 2 ++
    [.instr (.jmp 0), .instr (.movImm 0 .rax), .label 0] ++ .ofInstrs Routine.epilogue
  let a : Assembly := ⟨[⟨"main", 0, body⟩], { capacity := 4096 }⟩
  let img : Image := a.image (by decide)
  have hrun : (img.run .silent 10 (img.entry 0 (.filled 0))).map (fun c =>
      (img.instrAt? c.1.address, (img.step .silent (c.1.address, c.2)).isNone)) =
        some (some (.idiv .rcx), true) := by
    decide +kernel
  obtain ⟨c, hrun, hc⟩ := Option.map_eq_some_iff.1 hrun
  simp only [Prod.mk.injEq, Option.isNone_iff_eq_none] at hc
  exact ⟨by decide +kernel, a, img, .silent, 0, .filled 0, by decide +kernel, a.loads_image _,
    by decide +kernel, by decide +kernel, State.filled_enters (Nat.le_refl _) 0, _,
    Image.reaches_of_run hrun, hc⟩

end WordLang
