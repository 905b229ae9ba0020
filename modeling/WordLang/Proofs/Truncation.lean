import WordLang.Proofs.Primitives

/-!
# Sinks that fail

A sink that is full, or that cannot be flushed, does not change what a generator does up to that
point. So what it stores is the beginning of what would be written to a sink without bound, and the
sink is to blame exactly if it did not take everything.
-/
namespace WordLang

open Asm

/-- The generator with a sink of another kind, which holds the same bytes. -/
def Generator.onSink (g : Generator) (capacity : Option Nat) (flushFails : Bool) : Generator :=
  { g with sink := { g.sink with capacity, flushFails } }

namespace Generate

/-- Bytes that the action leaves when it starts at `g`. -/
def stored {α : Type} (m : Generate α) (g : Generator) : List UInt8 := (outcome m g).2.sink.stored

/-- On a sink of another kind the action does what it does on the sink of `g`, which is without
bound, as long as all bytes fit. If they do not fit it fails with those stored that do. -/
structure TruncatesAt (capacity : Option Nat) (flushFails : Bool) {α : Type} (m : Generate α)
    (g : Generator) : Prop where
  sink : ∃ bytes, (outcome m g).2.sink = { g.sink with stored := g.sink.stored ++ bytes }
  ofProgram : ∀ e, (outcome m g).1 = .error (.refused e) → e.OfProgram
  same : (∀ k, capacity = some k → (stored m g).length ≤ k) →
    outcome m (g.onSink capacity flushFails) =
      ((outcome m g).1, (outcome m g).2.onSink capacity flushFails)
  cut : ∀ k, capacity = some k → g.sink.stored.length ≤ k → k < (stored m g).length →
    ∃ g', outcome m (g.onSink capacity flushFails) = (.error (.refused (.output .full)), g') ∧
      g'.sink.stored = (stored m g).take k

def Truncates (capacity : Option Nat) (flushFails : Bool) {α : Type} (m : Generate α) : Prop :=
  ∀ g, g.sink.capacity = none → TruncatesAt capacity flushFails m g

variable {capacity : Option Nat} {flushFails : Bool} {α β : Type}

/-- An action that leaves the sink alone does the same on every sink. -/
theorem truncatesAt_of_silent {m : Generate α} {g : Generator}
    (hs : (outcome m g).2.sink = g.sink)
    (he : ∀ e, (outcome m g).1 = .error (.refused e) → e.OfProgram)
    (hm : outcome m (g.onSink capacity flushFails) =
      ((outcome m g).1, (outcome m g).2.onSink capacity flushFails)) :
    TruncatesAt capacity flushFails m g where
  sink := ⟨[], by simp [hs]⟩
  ofProgram := he
  same _ := hm
  cut k _ hle hlt := by
    unfold stored at hlt
    rw [hs] at hlt
    omega

theorem truncates_pure (a : α) : Truncates capacity flushFails (pure a : Generate α) :=
  fun _ _ => truncatesAt_of_silent rfl (by rintro _ ⟨⟩) rfl

theorem truncates_ofLower {m : Lower α}
    (he : ∀ s e, (outcome m s).1 = .error (.refused e) → e.OfProgram) :
    Truncates capacity flushFails (ofLower m) := by
  intro g _
  refine truncatesAt_of_silent ?_ ?_ ?_ <;> rw [outcome_ofLower]
  · exact he g.lowering
  · rw [outcome_ofLower]
    rfl

/-- A bounded sink takes the part of a text that fits. -/
theorem truncates_write (text : String) : Truncates capacity flushFails (write text) := by
  intro g hg
  have hfull : outcome (write text) g =
      (.ok (), { g with sink := { g.sink with stored := g.sink.stored ++ utf8 text } }) := by
    rw [outcome_write]
    simp [Sink.write, hg, Except.mapError]
  have hstored : stored (write text) g = g.sink.stored ++ utf8 text := by
    rw [stored, hfull]
  refine ⟨⟨utf8 text, by rw [hfull]⟩, by rw [hfull]; rintro _ ⟨⟩, fun hfits => ?_, ?_⟩
  · rw [outcome_write, hfull]
    cases capacity with
    | none => rfl
    | some k =>
      have hle : (utf8 text).length ≤ k - g.sink.stored.length := by
        have := hfits k rfl
        rw [hstored, List.length_append] at this
        omega
      simp [Sink.write, Generator.onSink, Except.mapError, hle, List.take_of_length_le hle]
  · rintro k rfl hle hlt
    rw [hstored] at hlt ⊢
    rw [List.length_append] at hlt
    have hroom : ¬ (utf8 text).length ≤ k - g.sink.stored.length := by omega
    refine ⟨{ g with sink := { g.sink with
        capacity := some k
        flushFails
        stored := g.sink.stored ++ (utf8 text).take (k - g.sink.stored.length) } }, ?_, ?_⟩
    · rw [outcome_write]
      simp [Sink.write, Generator.onSink, Except.mapError, hroom]
    · simp [List.take_append, List.take_of_length_le hle]

theorem TruncatesAt.capacity_eq {m : Generate α} {g : Generator}
    (h : TruncatesAt capacity flushFails m g) :
    (outcome m g).2.sink.capacity = g.sink.capacity := by
  obtain ⟨bytes, hbytes⟩ := h.sink
  rw [hbytes]

theorem TruncatesAt.isPrefix {m : Generate α} {g : Generator}
    (h : TruncatesAt capacity flushFails m g) : g.sink.stored <+: stored m g := by
  obtain ⟨bytes, hbytes⟩ := h.sink
  rw [stored, hbytes]
  exact List.prefix_append _ _

theorem TruncatesAt.congr {m m' : Generate α} {g : Generator}
    (h : TruncatesAt capacity flushFails m g) (hg : outcome m' g = outcome m g)
    (hs : outcome m' (g.onSink capacity flushFails) = outcome m (g.onSink capacity flushFails)) :
    TruncatesAt capacity flushFails m' g := by
  have hstored : stored m' g = stored m g := by rw [stored, stored, hg]
  exact ⟨hg ▸ h.sink, hg ▸ h.ofProgram, by rw [hg, hs, hstored]; exact h.same,
    by rw [hs, hstored]; exact h.cut⟩

/-- Where the first part of an action is cut, all of it is. -/
theorem Truncates.bind {m : Generate α} {f : α → Generate β}
    (hm : Truncates capacity flushFails m) (hf : ∀ a, Truncates capacity flushFails (f a)) :
    Truncates capacity flushFails (m >>= f) := by
  intro g hg
  have hmg := hm g hg
  rcases houtcome : outcome m g with ⟨e | a, g₁⟩
  · have hbind : outcome (m >>= f) g = (.error e, g₁) := by rw [outcome_bind, houtcome]
    have hstored : stored (m >>= f) g = stored m g := by rw [stored, stored, hbind, houtcome]
    refine ⟨?_, ?_, fun hfits => ?_, fun k hk hle hlt => ?_⟩
    · simpa [hbind, houtcome] using hmg.sink
    · rw [hbind]
      rintro e' ⟨⟩
      exact hmg.ofProgram e' (by rw [houtcome])
    · rw [hstored] at hfits
      rw [outcome_bind, hmg.same hfits, houtcome, hbind]
    · rw [hstored] at hlt ⊢
      obtain ⟨g', hcut, hg'⟩ := hmg.cut k hk hle hlt
      exact ⟨g', by rw [outcome_bind, hcut], hg'⟩
  · have hbind : outcome (m >>= f) g = outcome (f a) g₁ := by rw [outcome_bind, houtcome]
    have hstored : stored (m >>= f) g = stored (f a) g₁ := by rw [stored, stored, hbind]
    have hstored₁ : stored m g = g₁.sink.stored := by rw [stored, houtcome]
    have hg₁ : g₁.sink.capacity = none := by
      rw [← hg, ← hmg.capacity_eq, houtcome]
    have hfg := hf a g₁ hg₁
    have hprefix := hfg.isPrefix
    refine ⟨?_, ?_, fun hfits => ?_, fun k hk hle hlt => ?_⟩
    · obtain ⟨bytes, hbytes⟩ := hmg.sink
      obtain ⟨bytes', hbytes'⟩ := hfg.sink
      rw [houtcome] at hbytes
      exact ⟨bytes ++ bytes', by rw [hbind, hbytes', hbytes]; simp⟩
    · rw [hbind]
      exact hfg.ofProgram
    · rw [hstored] at hfits
      have hfits₁ : ∀ k, capacity = some k → (stored m g).length ≤ k := fun k hk => by
        rw [hstored₁]
        exact Nat.le_trans hprefix.length_le (hfits k hk)
      rw [outcome_bind, hmg.same hfits₁, houtcome, hbind]
      exact hfg.same hfits
    · rw [hstored] at hlt ⊢
      -- The sink is full in the first part already, or takes it and is full later.
      rcases Nat.lt_or_ge k (stored m g).length with hlt₁ | hle₁
      · obtain ⟨g', hcut, hg'⟩ := hmg.cut k hk hle hlt₁
        refine ⟨g', by rw [outcome_bind, hcut], ?_⟩
        obtain ⟨rest, hrest⟩ := hprefix
        rw [hg', hstored₁, ← hrest,
          List.take_append_of_le_length (Nat.le_of_lt (hstored₁ ▸ hlt₁))]
      · rw [hstored₁] at hle₁
        obtain ⟨g', hcut, hg'⟩ := hfg.cut k hk hle₁ hlt
        refine ⟨g', ?_, hg'⟩
        have hfits₁ : ∀ k, capacity = some k → (stored m g).length ≤ k := by
          rw [hstored₁, hk]
          rintro _ ⟨⟩
          exact hle₁
        rw [outcome_bind, hmg.same hfits₁, houtcome]
        exact hcut

theorem truncates_forM {f : α → Generate Unit} {xs : List α}
    (h : ∀ x ∈ xs, Truncates capacity flushFails (f x)) :
    Truncates capacity flushFails (xs.forM f) := by
  induction xs with
  | nil => exact truncates_pure ()
  | cons x xs ih =>
    rw [List.forall_mem_cons] at h
    exact h.1.bind fun _ => ih h.2

/-- What is read from a generator must not be its sink. -/
theorem truncates_get_bind {f : Generator → Generate α}
    (hf : ∀ g, f (g.onSink capacity flushFails) = f g)
    (h : ∀ g, Truncates capacity flushFails (f g)) :
    Truncates capacity flushFails (get >>= f) := by
  intro g hg
  have hget (g : Generator) : outcome (get >>= f) g = outcome (f g) g := by
    rw [outcome_bind]
    rfl
  exact (h g g hg).congr (hget g) (by rw [hget, hf])

theorem truncates_record (declarations : Declarations) (known : Bool) {e : CompileError}
    (he : e.OfProgram) : Truncates capacity flushFails (record declarations known e) := by
  intro g _
  refine truncatesAt_of_silent ?_ ?_ ?_ <;> rw [outcome_record]
  · intro e' he'
    split at he' <;> cases he'
    exact he
  · rw [outcome_record]
    rfl

end Generate

theorem FunctionDecl.ofProgram_of_lower {limits : Limits} {decls : Declarations}
    {f : FunctionDecl} {s : Lowering} {e : CompileError}
    (h : (outcome (f.lower limits decls) s).1 = .error (.refused e)) : e.OfProgram := by
  rw [f.outcome_lower] at h
  split at h
  · cases h
    rintro _ ⟨⟩
  · exact (f.built_fill decls _).ofProgram h

namespace Generate

variable {capacity : Option Nat} {flushFails : Bool}

theorem truncates_note (e : Event) :
    Truncates capacity flushFails (ofLower (Lower.note e)) :=
  truncates_ofLower (by rintro _ _ ⟨⟩)

theorem truncates_function (f : FunctionDecl) :
    Truncates capacity flushFails (Generate.function f) := by
  refine truncates_get_bind (fun _ => rfl) fun g => ?_
  refine (truncates_ofLower fun _ _ => FunctionDecl.ofProgram_of_lower).bind fun r => ?_
  refine (truncates_write r.text).bind fun _ => ?_
  exact truncates_get_bind (fun _ => rfl) fun _ => truncates_note _

theorem truncates_program (p : Program) : Truncates capacity flushFails (program p) := by
  refine (truncates_forM fun _ _ => truncates_get_bind (fun _ => rfl) fun _ =>
    truncates_record _ _ (by rintro _ ⟨⟩)).bind fun _ => ?_
  refine (truncates_forM fun _ _ => truncates_get_bind (fun _ => rfl) fun _ =>
    truncates_record _ _ (by rintro _ ⟨⟩)).bind fun _ => ?_
  refine (truncates_write _).bind fun _ => ?_
  refine (truncates_forM fun f _ => truncates_function f).bind fun _ => ?_
  refine truncates_get_bind (fun _ => rfl) fun g => ?_
  have hclose : Truncates capacity flushFails
      (close p.functions.length g.lowering.pool.size) :=
    (truncates_write _).bind fun _ => truncates_get_bind (fun _ => rfl) fun _ => truncates_note _
  by_cases he : g.lowering.pool.isEmpty
  · simpa [he] using hclose
  · simpa [he] using (truncates_write _).bind fun _ => hclose

end Generate

/-! ## Whole programs -/

namespace Program

/-- A program is generated, and then the sink is flushed. -/
theorem compile_eq (limits : Limits) (sink : Sink) (p : Program) :
    p.compile limits sink =
      match outcome (Generate.program p) (Generator.new limits sink) with
      | (.ok _, g) => (g.sink.flush.mapError fun e => .refused (.output e), g)
      | (.error e, g) => (.error e, g) := by
  have hfinish (g : Generator) :
      outcome Generate.finish g = (g.sink.flush.mapError fun e => .refused (.output e), g) := by
    unfold Generate.finish
    rw [outcome_bind]
    show outcome _ g = _
    rcases g.sink.flush with e | u <;> rfl
  show outcome (Generate.program p >>= fun _ => Generate.finish) (Generator.new limits sink) = _
  rw [outcome_bind]
  rcases outcome (Generate.program p) (Generator.new limits sink) with ⟨e | u, g⟩
  · rfl
  · exact hfinish g

/-- A sink without bound takes all that is generated. -/
theorem compile_unbounded (limits : Limits) (p : Program) :
    p.compile limits {} = outcome (Generate.program p) (Generator.new limits {}) := by
  have h : Generate.TruncatesAt none false (Generate.program p) (Generator.new limits {}) :=
    Generate.truncates_program p _ rfl
  obtain ⟨bytes, hsink⟩ := h.sink
  rw [compile_eq]
  rcases houtcome : outcome (Generate.program p) (Generator.new limits {}) with ⟨e | u, g⟩
  · rfl
  · rw [houtcome] at hsink
    have hflush : g.sink.flush = .ok () := by
      rw [show g.sink = _ from hsink]
      rfl
    simp [hflush, Except.mapError]

/-- A sink that takes all bytes can still fail when it is flushed. -/
theorem compile_of_fits (limits : Limits) (p : Program) {capacity : Option Nat} (flushFails : Bool)
    (hfits : ∀ k, capacity = some k → (p.compile limits {}).2.sink.stored.length ≤ k) :
    p.compile limits { capacity, flushFails } =
      ((p.compile limits {}).1.bind fun _ =>
          if flushFails then .error (.refused (.output .flushFailed)) else .ok (),
        (p.compile limits {}).2.onSink capacity flushFails) := by
  rw [compile_unbounded] at hfits ⊢
  have hsame : outcome (Generate.program p) (Generator.new limits { capacity, flushFails }) = _ :=
    (Generate.truncates_program p _ rfl).same hfits
  rw [compile_eq, hsame]
  rcases outcome (Generate.program p) (Generator.new limits {}) with ⟨e | u, g⟩
  · rfl
  · cases flushFails <;> rfl

/-- A sink that does not take all bytes has stored those that fit. -/
theorem exists_compile_of_lt {limits : Limits} {p : Program} {k : Nat}
    (hlt : k < (p.compile limits {}).2.sink.stored.length) :
    ∃ g, p.compile limits { capacity := some k } = (.error (.refused (.output .full)), g) ∧
      g.sink.stored = (p.compile limits {}).2.sink.stored.take k := by
  have h : Generate.TruncatesAt (some k) false (Generate.program p) (Generator.new limits {}) :=
    Generate.truncates_program p _ rfl
  rw [compile_unbounded] at hlt ⊢
  obtain ⟨g, hcut, hg⟩ := h.cut k rfl (Nat.zero_le _) hlt
  have hrun : outcome (Generate.program p) (Generator.new limits { capacity := some k }) = _ := hcut
  exact ⟨g, by rw [compile_eq, hrun], hg⟩

/-- The output is never to blame where the sink takes everything. -/
theorem ofProgram_of_compile {limits : Limits} {p : Program} {e : CompileError}
    (h : (p.compile limits {}).1 = .error (.refused e)) : e.OfProgram := by
  have hunbounded : Generate.TruncatesAt none false (Generate.program p) (.new limits {}) :=
    Generate.truncates_program p _ rfl
  rw [compile_unbounded] at h
  exact hunbounded.ofProgram e h

/-- A program compiles to a sink that may fail as it does to one without bound, up to the point
where the sink fails. -/
theorem compile_truncated (limits : Limits) (p : Program) (k : Nat) :
    let full := p.compile limits {}
    let bytes := full.2.sink.stored
    let cut := p.compile limits { capacity := some k }
    let failed := p.compile limits { flushFails := true }
    (cut.2.sink.stored = bytes.take (min k bytes.length) ∧
      (k < bytes.length → cut.1 = .error (.refused (.output .full))) ∧
      (bytes.length ≤ k → cut.1 = full.1)) ∧
    failed.2.sink.stored = bytes ∧
    ((∃ cause, failed.1 = .error (.refused (.output cause))) ↔ full.1 = .ok ()) ∧
    (full.1 ≠ .ok () → failed.1 = full.1) := by
  intro full bytes cut failed
  constructor
  · rcases Nat.lt_or_ge k bytes.length with hlt | hle
    · obtain ⟨g, hcut, hg⟩ := exists_compile_of_lt hlt
      rw [show cut = _ from hcut, Nat.min_eq_left (Nat.le_of_lt hlt)]
      exact ⟨hg, fun _ => rfl, fun hle => absurd hlt (Nat.not_lt.2 hle)⟩
    · have hcut : cut = (full.1.bind fun _ => .ok (), full.2.onSink (some k) false) :=
        compile_of_fits limits p false (by rintro _ ⟨⟩; exact hle)
      have hresult : (full.1.bind fun _ => .ok ()) = full.1 := by
        rcases full.1 with e | u <;> rfl
      rw [hcut, hresult, Nat.min_eq_right hle, List.take_length]
      exact ⟨rfl, fun hlt => absurd hlt (Nat.not_lt.2 hle), fun _ => rfl⟩
  · have hfailed : failed = (full.1.bind fun _ => .error (.refused (.output .flushFailed)),
        full.2.onSink none true) := compile_of_fits limits p true (by rintro _ ⟨⟩)
    rw [hfailed]
    refine ⟨rfl, ?_⟩
    rcases hfull : full.1 with e | u
    · refine ⟨⟨?_, by rintro ⟨⟩⟩, fun _ => rfl⟩
      rintro ⟨cause, ⟨⟩⟩
      exact absurd rfl (ofProgram_of_compile hfull cause)
    · exact ⟨⟨fun _ => rfl, fun _ => ⟨_, rfl⟩⟩, fun h => absurd rfl h⟩

end Program

end WordLang
