import WordLang.Proofs.Literals
import WordLang.Proofs.StaleStack

/-!
# What is printed as text

A statement prints as text a string literal, or what is in a variable that was declared with one. In
a program that keeps its texts this is always the address of one of the literals, as long as a run
reads only slots that it has written: a slot of a text holds nothing else from its declaration on.
Both conditions are needed. The compiler takes a number for a text if it is assigned to a variable
that was one, and old words of the stack if the declaration of the variable has not run.
-/
namespace WordLang

open Asm Machine

theorem Asm.Code.mem_stringLoads {code : Code} {index : Nat} {dst : Register}
    (h : .leaString index dst ∈ code.instrs) : (index, dst) ∈ code.stringLoads := by
  obtain ⟨line, hline, hi⟩ := List.mem_filterMap.1 h
  cases line with
  | label n => cases hi
  | instr i =>
    obtain rfl := Option.some.inj hi
    exact List.mem_filterMap.2 ⟨_, hline, rfl⟩

/-- The code of a program refers to no literal that is not in its pool. -/
theorem Program.Assembles.index_lt {limits : Limits} {p : Program} {a : Assembly}
    (h : p.Assembles limits a) {index : Nat} {dst : Register}
    (hi : .leaString index dst ∈ a.instrs) : index < a.pool.entries.length := by
  obtain ⟨s', hl, hpool⟩ := h.exists_lowers
  obtain ⟨r, hr, hi⟩ := List.mem_flatMap.1 hi
  have hload : (index, dst) ∈ a.routines.flatMap (·.code.stringLoads) :=
    List.mem_flatMap.2 ⟨r, hr, Code.mem_stringLoads hi⟩
  rw [flatMap_stringLoads (hl.collects.2 _ List.prefix_rfl)] at hload
  obtain ⟨value, hvalue, hload⟩ := List.mem_map.1 hload
  cases hload
  rw [← hpool]
  exact List.idxOf_lt_length_iff.2 (hl.literals_subset hvalue)

/-- All that a run prints as text are addresses of the literals `entries`, as long as it reads only
slots that were written. -/
def Machine.Image.PrintsOnly (img : Image) (rt : Runtime) (entries : List String)
    (c : Point × State) : Prop :=
  ∀ n q s, img.run rt n c = some (q, s) → img.ReadsOnlyWritten rt n c → q.calls ≠ [] →
    img.PrintsText q.address →
    ∃ index text, entries[index]? = some text ∧ s.regs .rdi = img.literal index

/-- A function of a program that keeps its texts prints as text only literals. -/
theorem Loaded.printsOnly {L : Loaded} (hkeeps : L.program.KeepsText) {f : FunctionDecl}
    (hf : f ∈ L.program.functions) {k : Nat} (hk : L.image.symbols.find? f.name = some k)
    {s : State} {vs : List Word} {t : Trace} (h : s.Enters L.runtime vs t 0) :
    L.image.PrintsOnly L.runtime L.assembly.pool.entries (L.image.entry k s) := by
  intro n q u hrun hreads hcalls hprint
  have hlock : L.Lock ⟨False, True⟩ n k [[]] fun _ : Unit => s :=
    L.lock_entry (.inl inferInstance) False.elim (fun _ => hkeeps) hf hk (entered_of_enters h) n
  have hin : L.image.InStep ⟨False, True⟩ q fun _ : Unit => u :=
    hlock.inStep_run_of_goesOn (fun l hl q t hrun => .inr (hreads l hl q t hrun)) hrun
  obtain ⟨index, dst, hmem, hword⟩ := hin.prints trivial hcalls hprint ()
  have hlt : index < L.assembly.pool.entries.length := by
    rw [L.loads.instrs] at hmem
    exact L.assembles.index_lt hmem
  exact ⟨index, _, List.getElem?_eq_getElem hlt, hword⟩

namespace Program

variable {limits : Limits} {p : Program}

/-- In the code that is written for a program that keeps its texts, whatever its functions are
called with and whatever the support library answers, a statement that prints its value as text
passes on the address of one of the literals of the program, as long as the run reads only slots
that it has written; and in a program with block scopes no other slots are read. -/
theorem text_prints_literals (h : p.Accepted limits) (hkeeps : p.KeepsText) :
    ∃ a : Assembly, p.Assembles limits a ∧ p.written limits = utf8 a.text ∧
      ∀ (img : Image) (rt : Runtime), img.Loads a → (a.symbols.map Prod.fst).Nodup →
        ∀ f ∈ p.functions, ∃ k, img.symbols.find? f.name = some k ∧
          ∀ (vs : List Word) (t : Trace) (s : State), s.Enters rt vs t 0 →
            img.PrintsOnly rt a.pool.entries (img.entry k s) ∧
            (p.BlockScoped → ∀ n, img.ReadsOnlyWritten rt n (img.entry k s)) := by
  obtain ⟨a, ha⟩ := accepted_iff.1 h
  refine ⟨a, ha, ha.written_eq, fun img rt himg hd f hf => ?_⟩
  let L : Loaded := ⟨limits, p, a, img, rt, ha, himg, hd⟩
  obtain ⟨_, _, _, k, _, -, -, hk, -⟩ := L.exists_code hf
  refine ⟨k, hk, fun vs t s hs => ⟨L.printsOnly hkeeps hf hk hs, fun hscoped n => ?_⟩⟩
  exact L.readsOnlyWritten hscoped hf hk hs n

/-- Prints a variable that was declared with another one, and then assigned a literal. -/
def farewell : Program where
  functions := [⟨"main", [], [.declare "s" (.str "hello"), .declare "t" (.ident "s"),
    .set "t" (.str "goodbye"), .print (.ident "t")]⟩]

theorem text_prints_literals_farewell :
    (farewell.Accepted {} ∧ farewell.KeepsText ∧ farewell.BlockScoped) ∧
    ∃ (a : Assembly) (img : Image) (rt : Runtime) (k : Nat),
      farewell.written {} = utf8 a.text ∧ img.Loads a ∧ (a.symbols.map Prod.fst).Nodup ∧
      img.symbols.find? "main" = some k ∧ (State.filled 1).Enters rt [] [] 0 ∧
      img.PrintsOnly rt a.pool.entries (img.entry k (State.filled 1)) ∧
      ∀ n, img.ReadsOnlyWritten rt n (img.entry k (State.filled 1)) := by
  have h : farewell.Accepted {} := by decide +kernel
  have hkeeps : farewell.KeepsText := by decide +kernel
  have hscoped : farewell.BlockScoped := by decide +kernel
  obtain ⟨a, ha, hwritten, hall⟩ := text_prints_literals h hkeeps
  have hd : (a.symbols.map Prod.fst).Nodup := ha.nodup_symbols (by decide +kernel)
  obtain ⟨img, himg⟩ := ha.exists_image (by decide +kernel)
  have hs : (State.filled 1).Enters .silent [] [] 0 := State.filled_enters (Nat.le_refl _) 1
  obtain ⟨k, hk, hruns⟩ := hall img .silent himg hd _ (.head _)
  obtain ⟨hprints, hreads⟩ := hruns _ _ _ hs
  exact ⟨⟨h, hkeeps, hscoped⟩, a, img, .silent, k, hwritten, himg, hd, hk, hs, hprints,
    hreads hscoped⟩

/-- In the code that is written for the program, a call of `main` comes to a statement that prints
as text a word that is not the address of a literal. -/
def PrintsOther (p : Program) : Prop :=
  ∃ (a : Assembly) (img : Image) (rt : Runtime) (k : Nat) (s : State),
    p.written {} = utf8 a.text ∧ img.Loads a ∧ (a.symbols.map Prod.fst).Nodup ∧
    img.symbols.find? "main" = some k ∧ s.Enters rt [] [] 0 ∧
    ∃ n q t, img.run rt n (img.entry k s) = some (q, t) ∧ q.calls ≠ [] ∧
      img.PrintsText q.address ∧ ∀ index < a.pool.entries.length, t.regs .rdi ≠ img.literal index

/-- Assigns a number to a variable that was declared with a literal. -/
def numberForText : Program where
  functions := [⟨"main", [], [.declare "s" (.str "hi"), .set "s" (.int 5), .print (.ident "s")]⟩]

/-- Prints a variable after the branch that declares it. -/
def lateText : Program where
  functions := [⟨"main", [],
    [.branch (.int 0) [.declare "s" (.str "hi")] [], .print (.ident "s")]⟩]

/-- The code that prints the variable in the first slot, to the end of the function. -/
def printFirst : Code :=
  Code.ofInstrs [.load 8 .rax, .mov .rax .rdi, .call (.library "print_string"),
    .call (.library "print_newline"), .movImm 0 .rax] ++ [.label 0] ++
  Code.ofInstrs Routine.epilogue

/-- A run of `main` that shows it, with the move and the call of a print from position `k` on. -/
theorem printsOther_of_run {a : Assembly} {img : Image} (hwritten : p.written {} = utf8 a.text)
    (himg : img.Loads a) (hd : (a.symbols.map Prod.fst).Nodup)
    (hmain : img.symbols.find? "main" = some 0) {k : Nat}
    (hprint : img.Holds k
      (.instr (.mov .rax .rdi) :: Lower.callCode 0 (.library "print_string")) (k + 2))
    {b : BitVec 8} {n : Nat} {written : List Nat} {w : Word}
    (hrun : (img.run .silent n (img.entry 0 (.filled b))).map (fun c => (c.1, c.2.regs .rdi)) =
      some (⟨img.address (k + 1), [written]⟩, w))
    (hother : ∀ index < a.pool.entries.length, w ≠ img.literal index) : p.PrintsOther := by
  obtain ⟨⟨q, t⟩, hsome, hq⟩ := Option.map_eq_some_iff.1 hrun
  obtain ⟨rfl, rfl⟩ := Prod.mk.inj hq
  exact ⟨a, img, .silent, 0, .filled b, hwritten, himg, hd, hmain,
    State.filled_enters (Nat.le_refl _) b, n, _, t, hsome, by simp, ⟨k, _, 0, hprint, rfl⟩, hother⟩

theorem numberForText_printsOther : numberForText.PrintsOther := by
  let body : Code := Code.ofInstrs [.leaString 0 .rax, .store .rax 8, .movImm 5 .rax,
    .store .rax 8] ++ printFirst
  let a : Assembly := ⟨[⟨"main", 8, body⟩], { entries := ["hi"], capacity := 4096 }⟩
  let img : Image := a.image (by decide)
  have hrun : (img.run .silent 9 (img.entry 0 (.filled 0))).map (fun c => (c.1, c.2.regs .rdi)) =
      some (⟨9, [[8, 8]]⟩, 5) := by
    decide +kernel
  exact printsOther_of_run (k := 8) (by decide +kernel) (a.loads_image _)
    (by decide +kernel) (by decide +kernel) ⟨by decide +kernel, by decide +kernel, rfl⟩ hrun
    (by decide +kernel)

theorem lateText_printsOther : lateText.PrintsOther := by
  let body : Code := Code.ofInstrs [.movImm 0 .rax, .cmpZero .rax, .je 1, .leaString 0 .rax,
    .store .rax 8] ++ [.label 1] ++ printFirst
  let a : Assembly := ⟨[⟨"main", 8, body⟩], { entries := ["hi"], capacity := 4096 }⟩
  let img : Image := a.image (by decide)
  have hrun : (img.run .silent 8 (img.entry 0 (.filled 1))).map (fun c => (c.1, c.2.regs .rdi)) =
      some (⟨10, [[]]⟩, 0x0101010101010101) := by
    decide +kernel
  exact printsOther_of_run (k := 9) (by decide +kernel) (a.loads_image _)
    (by decide +kernel) (by decide +kernel) ⟨by decide +kernel, by decide +kernel, rfl⟩ hrun
    (by decide +kernel)

/-- Neither of the two conditions can be left out. -/
theorem text_prints_other_words :
    (numberForText.Accepted {} ∧ numberForText.BlockScoped ∧ numberForText.PrintsOther) ∧
      lateText.Accepted {} ∧ lateText.KeepsText ∧ lateText.PrintsOther :=
  ⟨⟨by decide +kernel, by decide +kernel, numberForText_printsOther⟩, by decide +kernel,
    by decide +kernel, lateText_printsOther⟩

end Program

end WordLang
