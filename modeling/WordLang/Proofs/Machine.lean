import Mathlib.Algebra.Group.Int.Defs
import Mathlib.Logic.Function.Basic
import Mathlib.Logic.Relation
import WordLang.Asm.Routine
import WordLang.Builtin
import WordLang.Proofs.Memory

/-!
# The machine

A machine with the registers, flags and memory that the instructions use. `step` takes one step of
a program that has been placed in memory; it is a partial function, so that a program and a state
have at most one run. A call of a name that the program does not define goes to the support library,
of which only the calling convention is known: it answers with a word, may change everything below
the stack pointer and every register but those that a callee has to keep, and the call is entered in
the trace.
-/
namespace WordLang.Machine

open Asm

/-- A call of the support library, with its result. -/
structure LibraryCall where
  name : String
  args : List Word
  result : Word
  deriving DecidableEq, Repr

/-- Calls of the support library, the first one first. -/
abbrev Trace := List LibraryCall

structure Flags where
  zero : Bool
  sign : Bool
  overflow : Bool
  deriving DecidableEq, Repr

namespace Flags

/-- The flags of a result whose exact value is `exact`. -/
def ofResult (result : Word) (exact : Int) : Flags where
  zero := result == 0
  sign := result.toInt < 0
  overflow := result.toInt != exact

/-- Whether the flags of a difference show that its operands compare so, as signed words. -/
def holds (f : Flags) : CompareOp → Bool
  | .eq => f.zero
  | .notEq => !f.zero
  | .lt => f.sign != f.overflow
  | .ltEq => f.zero || f.sign != f.overflow
  | .gt => !f.zero && f.sign == f.overflow
  | .gtEq => f.sign == f.overflow

end Flags

structure State where
  regs : Register → Word
  /-- Not known after an instruction that leaves them undefined. -/
  flags : Option Flags
  memory : Memory
  trace : Trace

namespace State

def set (s : State) (r : Register) (v : Word) : State :=
  { s with regs := Function.update s.regs r v }

def setFlags (s : State) (flags : Option Flags) : State := { s with flags }

def write (s : State) (a v : Word) : State := { s with memory := s.memory.store a v }

/-- The word `v` is pushed. -/
def push (s : State) (v : Word) : State :=
  (s.write (s.regs .rsp - 8) v).set .rsp (s.regs .rsp - 8)

/-- The word on top of the stack. -/
def top (s : State) : Word := s.memory.load (s.regs .rsp)

/-- The top of the stack is dropped. -/
def drop (s : State) : State := s.set .rsp (s.regs .rsp + 8)

/-- Address of a slot of the current frame. -/
def slot (s : State) (n : Nat) : Word := s.regs .rbp - BitVec.ofNat 64 n

variable (s : State) (r r' : Register) (a v : Word) (flags : Option Flags)

@[simp] theorem set_regs : (s.set r v).regs r' = if r' = r then v else s.regs r' := by
  simp [set, Function.update_apply]

@[simp] theorem set_flags : (s.set r v).flags = s.flags := rfl
@[simp] theorem set_memory : (s.set r v).memory = s.memory := rfl
@[simp] theorem set_trace : (s.set r v).trace = s.trace := rfl
@[simp] theorem setFlags_regs : (s.setFlags flags).regs = s.regs := rfl
@[simp] theorem setFlags_flags : (s.setFlags flags).flags = flags := rfl
@[simp] theorem setFlags_memory : (s.setFlags flags).memory = s.memory := rfl
@[simp] theorem setFlags_trace : (s.setFlags flags).trace = s.trace := rfl
@[simp] theorem write_regs : (s.write a v).regs = s.regs := rfl
@[simp] theorem write_flags : (s.write a v).flags = s.flags := rfl
@[simp] theorem write_memory : (s.write a v).memory = s.memory.store a v := rfl
@[simp] theorem write_trace : (s.write a v).trace = s.trace := rfl

@[simp] theorem push_regs : (s.push v).regs r = if r = .rsp then s.regs .rsp - 8 else s.regs r := by
  simp [push]

@[simp] theorem push_memory : (s.push v).memory = s.memory.store (s.regs .rsp - 8) v := rfl
@[simp] theorem push_trace : (s.push v).trace = s.trace := rfl

@[simp] theorem drop_regs : s.drop.regs r = if r = .rsp then s.regs .rsp + 8 else s.regs r := by
  simp [drop]

@[simp] theorem drop_memory : s.drop.memory = s.memory := rfl
@[simp] theorem drop_trace : s.drop.trace = s.trace := rfl

/-- The state after `exact` was computed as `result`, into a register. -/
def compute (s : State) (dst : Register) (result : Word) (exact : Int) : State :=
  (s.set dst result).setFlags (some (.ofResult result exact))

/-- Signed division of `%rdx:%rax`. It fails where the quotient is not a word. -/
def divide (s : State) (divisor : Word) : Option State :=
  let dividend := (s.regs .rdx).toInt * 2 ^ 64 + (s.regs .rax).toNat
  let quotient := dividend.tdiv divisor.toInt
  if divisor = 0 ∨ quotient < -2 ^ 63 ∨ 2 ^ 63 ≤ quotient then none
  else
    some (((s.set .rax (BitVec.ofInt 64 quotient)).set .rdx
      (BitVec.ofInt 64 (dividend.tmod divisor.toInt))).setFlags none)

/-- What a callee has to keep: the stack pointer, the registers that belong to the caller, and the
memory between `low` and `high`. -/
structure Keeps (low high : Nat) (s s' : State) : Prop where
  rsp : s'.regs .rsp = s.regs .rsp
  rbp : s'.regs .rbp = s.regs .rbp
  rbx : s'.regs .rbx = s.regs .rbx
  memory : ∀ a : Word, low ≤ a.toNat → a.toNat < high → s'.memory a = s.memory a

namespace Keeps

variable {low high : Nat} {s s₁ s' : State}

theorem refl (low high : Nat) (s : State) : s.Keeps low high s := ⟨rfl, rfl, rfl, fun _ _ _ => rfl⟩

theorem trans (h : s.Keeps low high s₁) (g : s₁.Keeps low high s') : s.Keeps low high s' where
  rsp := g.rsp.trans h.rsp
  rbp := g.rbp.trans h.rbp
  rbx := g.rbx.trans h.rbx
  memory a hl hh := (g.memory a hl hh).trans (h.memory a hl hh)

theorem mono (h : s.Keeps low high s') {low' : Nat} (hl : low ≤ low') : s.Keeps low' high s' :=
  ⟨h.rsp, h.rbp, h.rbx, fun a ha => h.memory a (Nat.le_trans hl ha)⟩

/-- The words of the memory that is kept. -/
theorem load_eq (h : s.Keeps low high s') {a : Word} (hl : low ≤ a.toNat)
    (hh : a.toNat + 8 ≤ high) (hw : a.toNat + 8 ≤ 2 ^ 64) :
    s'.memory.load a = s.memory.load a :=
  Memory.load_congr h.memory hl hh hw

end Keeps

end State

end WordLang.Machine

namespace WordLang.Asm

open Machine

/-- What an instruction other than a jump, a call or a return does, given the addresses of the
string literals. -/
def Instr.exec (literal : Nat → Word) : Instr → State → Option State
  | .push src, s => some (s.push (s.regs src))
  | .pop dst, s => some (s.drop.set dst s.top)
  | .mov src dst, s => some (s.set dst (s.regs src))
  | .movImm value dst, s => some (s.set dst value.toBitVec)
  | .load slot dst, s => some (s.set dst (s.memory.load (s.slot slot)))
  | .store src slot, s => some (s.write (s.slot slot) (s.regs src))
  | .storeZero slot, s => some (s.write (s.slot slot) 0)
  | .leaSlot slot dst, s => some (s.set dst (s.slot slot))
  | .leaString index dst, s => some (s.set dst (literal index))
  | .add src dst, s => some (sum (s.regs src) dst s)
  | .sub src dst, s => some (difference (s.regs src) dst s)
  | .imul src dst, s => some ((s.set dst (s.regs dst * s.regs src)).setFlags none)
  | .addImm value dst, s => some (sum (BitVec.ofNat 64 value) dst s)
  | .subImm value dst, s => some (difference (BitVec.ofNat 64 value) dst s)
  | .test a b, s =>
    let both := s.regs a &&& s.regs b
    some (s.setFlags (some (.ofResult both both.toInt)))
  | .cmp src dst, s => some (s.setFlags (differenceFlags (s.regs dst) (s.regs src)))
  | .cmpZero dst, s => some (s.setFlags (differenceFlags (s.regs dst) 0))
  | .set op dst, s => s.flags.map fun flags =>
    s.set dst ((s.regs dst).extractLsb' 8 56 ++ if flags.holds op then 1#8 else 0#8)
  | .zeroExtend dst, s => some (s.set dst (((s.regs dst).setWidth 8).setWidth 64))
  | .cqto, s => some (s.set .rdx (if (s.regs .rax).toInt < 0 then -1 else 0))
  | .idiv divisor, s => s.divide (s.regs divisor)
  | .jmp _, _ | .je _, _ | .jne _, _ | .call _, _ | .ret, _ => none
where
  sum (x : Word) (dst : Register) (s : State) : State :=
    s.compute dst (s.regs dst + x) ((s.regs dst).toInt + x.toInt)
  difference (x : Word) (dst : Register) (s : State) : State :=
    s.compute dst (s.regs dst - x) ((s.regs dst).toInt - x.toInt)
  differenceFlags (x y : Word) : Option Flags :=
    some (.ofResult (x - y) (x.toInt - y.toInt))

/-- Instructions one after another. -/
def Instr.execAll (literal : Nat → Word) : List Instr → State → Option State
  | [], s => some s
  | i :: is, s => (i.exec literal s).bind (execAll literal is)

def Callee.symbol : Callee → String
  | .own name | .library name => name

end WordLang.Asm

namespace WordLang.Machine

open Asm

/-- The support library as its callers see it. -/
structure Runtime where
  /-- The result of a call, given the calls before it; a call need not return. -/
  answer : Trace → String → List Word → Option Word
  /-- All else that a call does. -/
  effect : String → State → State
  /-- Where the stack ends. -/
  stackTop : Nat
  /-- The calling convention, which holds of calls with the stack aligned. -/
  keeps : ∀ (name : String) (s : State), 16 ∣ (s.regs .rsp).toNat →
    s.Keeps (s.regs .rsp).toNat stackTop (effect name s)

/-- The arguments of a call, from the registers that carry them. -/
def State.libraryArgs (s : State) (name : String) : List Word :=
  (Register.args.take (((Builtin.find? name).map Builtin.arity).getD 0)).map s.regs

def Runtime.call (rt : Runtime) (name : String) (s : State) : Option State :=
  (rt.answer s.trace name (s.libraryArgs name)).map fun result =>
    { (rt.effect name s).set .rax result with
      trace := s.trace ++ [⟨name, s.libraryArgs name, result⟩] }

/-- All that a caller can know of a call that returns. -/
theorem Runtime.exists_call (rt : Runtime) {name : String} {s : State} {v : Word}
    (h : rt.answer s.trace name (s.libraryArgs name) = some v)
    (ha : 16 ∣ (s.regs .rsp).toNat) :
    ∃ s', rt.call name s = some s' ∧ s'.regs .rax = v ∧
      s'.trace = s.trace ++ [⟨name, s.libraryArgs name, v⟩] ∧
      s.Keeps (s.regs .rsp).toNat rt.stackTop s' := by
  have hk := rt.keeps name s ha
  refine ⟨{ (rt.effect name s).set .rax v with
    trace := s.trace ++ [⟨name, s.libraryArgs name, v⟩] }, by simp [call, h], by simp, rfl,
    ?_, ?_, ?_, hk.memory⟩
  · simpa using hk.rsp
  · simpa using hk.rbp
  · simpa using hk.rbx

/-- A call with the arguments `args` has just been made: the return address is pushed, and there are
`room` bytes of the stack below it. -/
structure State.Enters (rt : Runtime) (args : List Word) (t : Trace) (room : Nat) (s : State) :
    Prop where
  args_eq : (Register.args.take args.length).map s.regs = args
  trace_eq : s.trace = t
  aligned : (s.regs .rsp).toNat % 16 = 8
  below_top : (s.regs .rsp).toNat + 8 ≤ rt.stackTop
  room_le : room ≤ (s.regs .rsp).toNat

/-- A program in memory: its instructions in order, the positions that its symbols stand for, and
the addresses of string literals and instructions. -/
structure Image where
  instrs : List Instr
  symbols : Table Nat
  literal : Nat → Word
  address : Nat → Word
  /-- The position of the instruction at an address. -/
  index? : Word → Option Nat
  index?_address : ∀ k < instrs.length, index? (address k) = some k

/-- The address of the next instruction, and the state. -/
abbrev Config := Word × State

namespace Image

variable (img : Image)

/-- The configuration that a jump leads to. -/
def goto (label : Nat) (s : State) : Option Config :=
  (img.symbols.find? (labelName label)).map fun k => (img.address k, s)

/-- What the instruction `i` does at position `k`. -/
def perform (rt : Runtime) (k : Nat) (i : Instr) (s : State) : Option Config :=
  let next := img.address (k + 1)
  match i with
  | .jmp n => img.goto n s
  | .je n => s.flags.bind fun flags => if flags.zero then img.goto n s else some (next, s)
  | .jne n => s.flags.bind fun flags => if flags.zero then some (next, s) else img.goto n s
  | .call callee =>
    match img.symbols.find? callee.symbol with
    | some j => some (img.address j, s.push next)
    | none => (rt.call callee.symbol s).map (next, ·)
  | .ret => some (s.top, s.drop)
  | i => (i.exec img.literal s).map (next, ·)

/-- One step of a placed program. -/
def step (rt : Runtime) (c : Config) : Option Config := do
  let k ← img.index? c.1
  let i ← img.instrs[k]?
  img.perform rt k i c.2

/-- Some number of steps lead from one configuration to the other. -/
def Reaches (rt : Runtime) : Config → Config → Prop :=
  Relation.ReflTransGen fun c c' => img.step rt c = some c'

/-- From position `k` to position `k'`, the value `v` is computed into `%rax`, with `t` as the
trace; all that a callee has to keep is kept. -/
def Yields (rt : Runtime) (k k' : Nat) (s : State) (v : Word) (t : Trace) : Prop :=
  ∃ s', img.Reaches rt (img.address k, s) (img.address k', s') ∧ s'.regs .rax = v ∧
    s'.trace = t ∧ s.Keeps (s.regs .rsp).toNat rt.stackTop s'

/-- From position `k` the machine gets to the return address on top of the stack, with the value `v`
in `%rax`. The return address is popped, and all that a callee has to keep is kept. -/
def Returns (rt : Runtime) (k : Nat) (s : State) (v : Word) (t : Trace) : Prop :=
  ∃ s', img.Reaches rt (img.address k, s) (s.top, s') ∧ s'.regs .rax = v ∧ s'.trace = t ∧
    s.drop.Keeps (s.regs .rsp).toNat rt.stackTop s'

/-- The code stands from position `k` to position `k'`, and its labels name the positions where
they stand. -/
def Holds : Nat → Code → Nat → Prop
  | k, [], k' => k = k'
  | k, .label n :: code, k' => img.symbols.find? (labelName n) = some k ∧ Holds k code k'
  | k, .instr i :: code, k' => img.instrs[k]? = some i ∧ Holds (k + 1) code k'

end Image

end WordLang.Machine

namespace WordLang.Asm.Code

/-- The instructions of a piece of code. -/
def instrs (code : Code) : List Instr :=
  code.filterMap fun
    | .label _ => none
    | .instr i => some i

/-- Number of instructions. -/
def size (code : Code) : Nat := code.instrs.length

@[simp] theorem size_label (n : Nat) (code : Code) : size (.label n :: code) = code.size := rfl

@[simp] theorem size_instr (i : Instr) (code : Code) :
    size (.instr i :: code) = code.size + 1 := rfl

@[simp] theorem instrs_append (a b : Code) : instrs (a ++ b) = a.instrs ++ b.instrs :=
  List.filterMap_append

end WordLang.Asm.Code

namespace WordLang.Machine.Image

open Asm

variable {img : Image} {rt : Runtime}

variable {k k' : Nat} {code : Code}

@[simp] theorem holds_nil : img.Holds k [] k' ↔ k = k' := Iff.rfl

@[simp] theorem holds_label {n : Nat} :
    img.Holds k (.label n :: code) k' ↔
      img.symbols.find? (labelName n) = some k ∧ img.Holds k code k' := Iff.rfl

@[simp] theorem holds_instr {i : Instr} :
    img.Holds k (.instr i :: code) k' ↔
      img.instrs[k]? = some i ∧ img.Holds (k + 1) code k' := Iff.rfl

theorem holds_append {a b : Code} :
    img.Holds k (a ++ b) k' ↔ ∃ m, img.Holds k a m ∧ img.Holds m b k' := by
  induction a generalizing k with
  | nil => simp
  | cons line a ih => cases line <;> simp [ih, and_assoc]

theorem step_of_getElem? {i : Instr} (h : img.instrs[k]? = some i) (s : State) :
    img.step rt (img.address k, s) = img.perform rt k i s := by
  have hk : img.index? (img.address k) = some k :=
    img.index?_address k (List.getElem?_eq_some_iff.1 h).1
  simp [step, hk, h]

theorem step_exec {i : Instr} (h : img.instrs[k]? = some i) {s s' : State}
    (he : i.exec img.literal s = some s') :
    img.step rt (img.address k, s) = some (img.address (k + 1), s') := by
  rw [step_of_getElem? h]
  cases i with
  | jmp | je | jne | call | ret => cases he
  | _ => simp [perform, he]

/-- A jump that is taken. -/
theorem step_goto {label j : Nat} (h : img.instrs[k]? = some (.jmp label))
    (hj : img.symbols.find? (labelName label) = some j) (s : State) :
    img.step rt (img.address k, s) = some (img.address j, s) := by
  simp [step_of_getElem? h, perform, goto, hj]

/-- A test against zero, and a jump that is taken where the word is zero. -/
theorem reaches_testZero {label j : Nat}
    (h : img.Holds k (.ofInstrs [.cmpZero .rax, .je label]) k')
    (hj : img.symbols.find? (labelName label) = some j) (s : State) :
    ∃ flags, img.Reaches rt (img.address k, s)
      (img.address (if s.regs .rax = 0 then j else k'), s.setFlags flags) := by
  obtain ⟨hc, hje, rfl⟩ := h
  refine ⟨Instr.exec.differenceFlags (s.regs .rax) 0, .head (step_exec hc rfl) (.single ?_)⟩
  rw [step_of_getElem? hje]
  by_cases hz : s.regs .rax = 0#64 <;>
    simp [perform, goto, hj, hz, Instr.exec.differenceFlags, Flags.ofResult]

theorem step_call {j : Nat} {callee : Callee} (h : img.instrs[k]? = some (.call callee))
    (hj : img.symbols.find? callee.symbol = some j) (s : State) :
    img.step rt (img.address k, s) = some (img.address j, s.push (img.address (k + 1))) := by
  simp [step_of_getElem? h, perform, hj]

theorem step_library {callee : Callee} (h : img.instrs[k]? = some (.call callee))
    (hj : img.symbols.find? callee.symbol = none) {s s' : State}
    (hc : rt.call callee.symbol s = some s') :
    img.step rt (img.address k, s) = some (img.address (k + 1), s') := by
  simp [step_of_getElem? h, perform, hj, hc]

theorem step_ret (h : img.instrs[k]? = some .ret) (s : State) :
    img.step rt (img.address k, s) = some (s.top, s.drop) := by
  simp [step_of_getElem? h, perform]

/-- Instructions that neither jump nor call run one after another. -/
theorem reaches_execAll {is : List Instr} (h : img.Holds k (.ofInstrs is) k')
    {s s' : State} (he : Instr.execAll img.literal is s = some s') :
    img.Reaches rt (img.address k, s) (img.address k', s') := by
  induction is generalizing k s with
  | nil =>
    obtain rfl : s = s' := Option.some.inj he
    obtain rfl : k = k' := h
    exact .refl
  | cons i is ih =>
    obtain ⟨s₁, hi, hr⟩ := Option.bind_eq_some_iff.1 he
    exact .head (step_exec h.1 hi) (ih h.2 hr)

/-- A value is computed after steps that keep what has to be kept. -/
theorem Yields.of_reaches {k₁ : Nat} {s s₁ : State} {v : Word} {t : Trace}
    (hr : img.Reaches rt (img.address k, s) (img.address k₁, s₁))
    (hk : s.Keeps (s.regs .rsp).toNat rt.stackTop s₁) (h : img.Yields rt k₁ k' s₁ v t) :
    img.Yields rt k k' s v t := by
  obtain ⟨s', hr', hv, ht, hk'⟩ := h
  rw [hk.rsp] at hk'
  exact ⟨s', hr.trans hr', hv, ht, hk.trans hk'⟩

end WordLang.Machine.Image
