import WordLang.Proofs.LockstepCalls

/-!
# What is left on the stack

A function finds words of finished calls below the stack pointer. It looks the same whatever they
are, as long as it reads only slots that it has written; and that it does if variables are read only
in the blocks where they are declared. Two things are not ruled out by the compiler and let the old
words show: a variable that is declared in a branch may be read after it, and a function may take
the place of one of the support library and read more arguments than that is given.
-/
namespace WordLang

open Asm Machine

/-- The states agree in all that a function with `count` parameters is given: the arguments, the
stack pointer, the memory from there on, and the library calls before. -/
structure Machine.State.StartsAs (count : Nat) (s s' : State) : Prop where
  args : ∀ r ∈ Register.args.take count, s'.regs r = s.regs r
  rsp : s'.regs .rsp = s.regs .rsp
  memory : ∀ a : Word, (s.regs .rsp).toNat ≤ a.toNat → s'.memory a = s.memory a
  trace : s'.trace = s.trace

theorem Machine.State.filled_startsAs (b b' : BitVec 8) (count : Nat) :
    (filled b).StartsAs count (filled b') := by
  refine ⟨fun _ _ => rfl, rfl, fun a ha => ?_, rfl⟩
  have hge : ¬ a.toNat < 65528 := Nat.not_lt.2 ha
  simp only [filled, if_neg hge]

namespace Machine.Image

variable (img : Image) (rt : Runtime) (n : Nat)

/-- For `n` steps, the run reads only slots that were written in the same call. -/
def ReadsOnlyWritten (c : Point × State) : Prop :=
  ∀ l < n, ∀ q t, img.run rt l c = some (q, t) → img.ReadsWritten q

/-- Nothing can be seen after `n` steps that the runs differ in. -/
def LookAlike (c c' : Point × State) : Prop :=
  (img.run rt n c).map observe = (img.run rt n c').map observe

end Machine.Image

namespace Loaded

variable {L : Loaded} {f : FunctionDecl} {s s' : State} {vs : List Word} {t : Trace} {k : Nat}

/-- Two calls that start alike. -/
theorem entered_of_startsAs (h : s.Enters L.runtime vs t 0) (hs : s.StartsAs f.params.length s') :
    L.Entered f s.top fun b : Bool => if b then s else s' := by
  have haligned := h.aligned
  have hword : (s.regs .rsp).toNat + 8 ≤ 2 ^ 64 := by
    have := (s.regs .rsp).isLt
    omega
  have htop : s'.top = s.top := by
    unfold State.top
    rw [hs.rsp]
    exact Memory.load_congr (fun a ha _ => hs.memory a ha) (Nat.le_refl _) hword hword
  refine ⟨fun r hr => ⟨s.regs r, ?_⟩, ⟨s.trace, ?_⟩, ⟨(s.regs .rsp).toNat, ?_⟩, ?_, ?_, ?_⟩ <;>
    rintro (_ | _)
  · exact hs.args r hr
  · rfl
  · exact hs.trace
  · rfl
  · exact congrArg BitVec.toNat hs.rsp
  · rfl
  · simpa [hs.rsp] using haligned
  · exact haligned
  · simpa [hs.rsp] using h.below_top
  · exact h.below_top
  · exact htop
  · rfl

/-- A function of a program with block scopes reads only slots that it has written. -/
theorem readsOnlyWritten (hscoped : L.program.BlockScoped) (hf : f ∈ L.program.functions)
    (hk : L.image.symbols.find? f.name = some k) (h : s.Enters L.runtime vs t 0) (n : Nat) :
    L.image.ReadsOnlyWritten L.runtime n (L.image.entry k s) := by
  intro l _ q u hrun
  have hlock : L.Lock True l k [[]] fun _ : Unit => s :=
    L.lockstep_entry (.inl inferInstance) (fun _ => hscoped) hf hk (entered_of_enters h) l
  exact (hlock.inStep_run hrun).reads trivial

/-- Calls that start alike look alike, as long as one of them reads only what it has written. -/
theorem lookAlike (hlib : L.program.RespectsLibrary) (hf : f ∈ L.program.functions)
    (hk : L.image.symbols.find? f.name = some k) (h : s.Enters L.runtime vs t 0)
    (hs : s.StartsAs f.params.length s') {n : Nat}
    (hreads : L.image.ReadsOnlyWritten L.runtime n (L.image.entry k s)) :
    L.image.LookAlike L.runtime n (L.image.entry k s) (L.image.entry k s') := by
  have hlock : L.Lock False n k [[]] fun b : Bool => if b then s else s' :=
    L.lockstep_entry (.inr hlib) False.elim hf hk (entered_of_startsAs h hs) n
  exact hlock.observe_run true false hreads

end Loaded

namespace Program

variable {limits : Limits} {p : Program}

/-- Take two calls of a function in the code that is written for a program, with the same arguments,
the same stack pointer and the same memory from there on, whatever else the states hold. As long as
the first reads only slots that it has written, both go through the same instructions with the same
library calls, and return the same word; and in a program with block scopes no other slots are
read. -/
theorem stale_stack_unseen (h : p.Accepted limits) :
    ∃ a : Assembly, p.Assembles limits a ∧ p.written limits = utf8 a.text ∧
      ∀ (img : Image) (rt : Runtime), img.Loads a → (a.symbols.map Prod.fst).Nodup →
        ∀ f ∈ p.functions, ∃ k, img.symbols.find? f.name = some k ∧
          ∀ (vs : List Word) (t : Trace) (s s' : State), s.Enters rt vs t 0 →
            s.StartsAs f.params.length s' → ∀ n,
            (p.RespectsLibrary → img.ReadsOnlyWritten rt n (img.entry k s) →
              img.LookAlike rt n (img.entry k s) (img.entry k s')) ∧
            (p.BlockScoped → img.ReadsOnlyWritten rt n (img.entry k s)) := by
  obtain ⟨a, ha⟩ := accepted_iff.1 h
  refine ⟨a, ha, ha.written_eq, fun img rt himg hd f hf => ?_⟩
  let L : Loaded := ⟨limits, p, a, img, rt, ha, himg, hd⟩
  obtain ⟨_, _, _, k, _, -, -, hk, -⟩ := L.exists_code hf
  refine ⟨k, hk, fun vs t s s' hm hs n => ⟨fun hlib hreads => ?_, fun hscoped => ?_⟩⟩
  · exact L.lookAlike hlib hf hk hm hs hreads
  · exact L.readsOnlyWritten hscoped hf hk hm n

/-- In the code of `halves` no old words show. -/
theorem stale_stack_unseen_halves :
    (halves.Accepted {} ∧ halves.RespectsLibrary ∧ halves.BlockScoped) ∧
    ∃ (a : Assembly) (img : Image) (rt : Runtime) (k : Nat),
      halves.written {} = utf8 a.text ∧ img.Loads a ∧ (a.symbols.map Prod.fst).Nodup ∧
      img.symbols.find? "main" = some k ∧ (State.filled 0).Enters rt [] [] 0 ∧
      (State.filled 0).StartsAs 0 (State.filled 1) ∧
      ∀ n, img.ReadsOnlyWritten rt n (img.entry k (State.filled 0)) ∧
        img.LookAlike rt n (img.entry k (State.filled 0)) (img.entry k (State.filled 1)) := by
  have h : halves.Accepted {} := by decide +kernel
  have hlib : halves.RespectsLibrary := by decide +kernel
  have hscoped : halves.BlockScoped := by decide +kernel
  obtain ⟨a, ha, hwritten, hall⟩ := stale_stack_unseen h
  have hd : (a.symbols.map Prod.fst).Nodup := ha.nodup_symbols (by decide +kernel)
  obtain ⟨img, himg⟩ := ha.exists_image (by decide +kernel)
  have hm : (State.filled 0).Enters .silent [] [] 0 := State.filled_enters (Nat.le_refl _) 0
  have hs : (State.filled 0).StartsAs 0 (State.filled 1) := State.filled_startsAs 0 1 0
  obtain ⟨k, hk, hruns⟩ := hall img .silent himg hd _ (.tail _ (.head _))
  refine ⟨⟨h, hlib, hscoped⟩, a, img, .silent, k, hwritten, himg, hd, hk, hm, hs, fun n => ?_⟩
  obtain ⟨halike, hreads⟩ := hruns _ _ _ _ hm hs n
  exact ⟨hreads hscoped, halike hlib (hreads hscoped)⟩

/-- In the code that is written for the program, two calls of `main` start alike, even with the same
registers, and come to the same point with other library calls or with another result. -/
def ShowsStale (p : Program) : Prop :=
  ∃ (a : Assembly) (img : Image) (rt : Runtime) (k : Nat) (s s' : State),
    p.written {} = utf8 a.text ∧ img.Loads a ∧ (a.symbols.map Prod.fst).Nodup ∧
    img.symbols.find? "main" = some k ∧ s.Enters rt [] [] 0 ∧
    s.StartsAs Register.args.length s' ∧ s'.regs = s.regs ∧
    ∃ n q o o', (img.run rt n (img.entry k s)).map observe = some (q, o) ∧
      (img.run rt n (img.entry k s')).map observe = some (q, o') ∧ o ≠ o'

/-- Reads a variable after the branch that declares it. -/
def lateRead : Program where
  functions := [⟨"main", [],
    [.branch (.int 0) [.declare "x" (.int 1)] [], .ret (some (.ident "x"))]⟩]

/-- Has a function in the place of one of the support library, with one more parameter. -/
def widePrint : Program where
  functions := [
    ⟨"print_integer", ["value", "width"], [.eval (.call "exit_with_code" [.ident "width"])]⟩,
    ⟨"main", [], [.eval (.call "print_newline" []), .print (.int 1)]⟩]

theorem lateRead_showsStale : lateRead.ShowsStale := by
  let body : Code := Code.ofInstrs [.movImm 0 .rax, .cmpZero .rax, .je 1, .movImm 1 .rax,
      .store .rax 8] ++ [.label 1] ++ Code.ofInstrs [.load 8 .rax, .jmp 0, .movImm 0 .rax] ++
    [.label 0] ++ Code.ofInstrs Routine.epilogue
  let a : Assembly := ⟨[⟨"main", 8, body⟩], { capacity := 4096 }⟩
  refine ⟨a, a.image (by decide), .silent, 0, .filled 0, .filled 1, by decide +kernel,
    a.loads_image _, by decide +kernel, by decide +kernel, State.filled_enters (Nat.le_refl _) 0,
    State.filled_startsAs 0 1 _, rfl, 11, ⟨0, []⟩, ([], some 0), ([], some 0x0101010101010101),
    by decide +kernel, by decide +kernel, by decide⟩

/-- The support library leaves an old word in the register of the second argument. -/
theorem widePrint_showsStale : widePrint.ShowsStale := by
  let print : Code := Code.ofInstrs [.store .rdi 8, .store .rsi 16, .load 16 .rax, .push .rax,
      .pop .rdi, .call (.library "exit_with_code"), .movImm 0 .rax] ++ [.label 0] ++
    Code.ofInstrs Routine.epilogue
  let main : Code := Code.ofInstrs [.call (.library "print_newline"), .movImm 1 .rax,
      .mov .rax .rdi, .call (.library "print_integer"), .call (.library "print_newline"),
      .movImm 0 .rax] ++ [.label 1] ++ Code.ofInstrs Routine.epilogue
  let a : Assembly := ⟨[⟨"print_integer", 16, print⟩, ⟨"main", 0, main⟩], { capacity := 4096 }⟩
  let rt : Runtime := { Runtime.silent with
    effect _ s := s.set .rsi (s.memory.load 0)
    keeps _ _ _ := ⟨rfl, rfl, rfl, fun _ _ _ => rfl⟩ }
  let trace (w : Word) : Trace := [⟨"print_newline", [], 0⟩, ⟨"exit_with_code", [w], 0⟩]
  refine ⟨a, a.image (by decide), rt, 13, .filled 0, .filled 1, by decide +kernel,
    a.loads_image _, by decide +kernel, by decide +kernel, State.filled_enters (Nat.le_refl _) 0,
    State.filled_startsAs 0 1 _, rfl, 15, ⟨9, [[16, 8], []]⟩, (trace 0, none),
    (trace 0x0101010101010101, none), by decide +kernel, by decide +kernel, by decide⟩

/-- Neither of the two conditions can be left out. -/
theorem stale_stack_seen :
    (lateRead.Accepted {} ∧ lateRead.RespectsLibrary ∧ lateRead.ShowsStale) ∧
      widePrint.Accepted {} ∧ widePrint.BlockScoped ∧ widePrint.ShowsStale :=
  ⟨⟨by decide +kernel, by decide +kernel, lateRead_showsStale⟩, by decide +kernel,
    by decide +kernel, widePrint_showsStale⟩

end Program

end WordLang
