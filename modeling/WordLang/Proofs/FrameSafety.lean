import Mathlib.Data.Set.Function
import Mathlib.Order.Bounds.Basic
import WordLang.Proofs.Scope

/-!
# Safety of frames

Code names a word of a variable by the slot that holds it. Read in order, the slots that a function
names are those of the words that its tree accesses. So two words never share a slot, a word keeps
its slot, and every slot lies between the frame pointer and the end of the frame.
-/
namespace WordLang

open Asm

namespace Asm

/-- The slot that an instruction names. -/
def Instr.slot? : Instr → Option Nat
  | .load slot _ | .store _ slot | .storeZero slot | .leaSlot slot _ => some slot
  | _ => none

def Line.slot? : Line → Option Nat
  | .label _ => none
  | .instr i => i.slot?

namespace Code

/-- The slots that code names, in order. -/
def slots (code : Code) : List Nat := code.filterMap Line.slot?

@[simp] theorem slots_nil : slots [] = [] := rfl

@[simp] theorem slots_append (a b : Code) : slots (a ++ b) = slots a ++ slots b :=
  List.filterMap_append

@[simp] theorem slots_label (n : Nat) (code : Code) : slots (.label n :: code) = slots code := rfl

@[simp] theorem slots_instr (i : Instr) (code : Code) :
    slots (.instr i :: code) = i.slot?.toList ++ slots code := by
  cases h : i.slot? <;> simp [slots, Line.slot?, h]

theorem slots_ofInstrs {is : List Instr} (h : ∀ i ∈ is, i.slot? = none) :
    slots (.ofInstrs is) = [] := by
  simpa [slots, ofInstrs, Line.slot?] using h

end Code

@[simp] theorem slots_argPops (n : Nat) : (argPops n).slots = [] := by
  refine Code.slots_ofInstrs fun i hi => ?_
  obtain ⟨r, -, rfl⟩ := List.mem_map.1 hi
  rfl

@[simp] theorem slots_callCode (pending : Nat) (callee : Callee) :
    (Lower.callCode pending callee).slots = [] := by
  unfold Lower.callCode
  split_ifs <;> rfl

@[simp] theorem slots_operandsCode (left right : Code) :
    (operandsCode left right).slots = left.slots ++ right.slots := by
  simp [operandsCode, Instr.slot?]

end Asm

@[simp] theorem BinaryOp.slots_code (op : BinaryOp) (n : Nat) : (op.code n).slots = [] := by
  cases op <;> rfl

@[simp] theorem CompareOp.slots_code (op : CompareOp) : op.code.slots = [] := rfl

/-! ## Accesses -/

/-- A word of a variable: the variable's name and the word's number. -/
abbrev Access := String × Nat

namespace Expr

variable (decls : Declarations) (scope : Scope)

mutual

/-- The words that an expression accesses, in order. -/
def accesses : Expr → List Access
  | .int _ | .str _ => []
  | .ident name => [(name, 0)]
  | .binary _ lhs rhs | .compare _ lhs rhs => lhs.accesses ++ rhs.accesses
  | .call _ args => argsAccesses args
  | .field name part => [(name, (decls.fieldIndex? scope name part).getD 0)]

def argsAccesses : List Expr → List Access
  | [] => []
  | arg :: args => arg.accesses ++ argsAccesses args

end

end Expr

namespace Stmt

variable (decls : Declarations) (scope : Scope)

mutual

/-- The words that a statement accesses, in order. A new record is accessed as a whole. -/
def accesses : Stmt → List Access
  | .declare name value | .set name value => value.accesses decls scope ++ [(name, 0)]
  | .declareRecord name typeName => (List.range (decls.slots (some typeName))).map (name, ·)
  | .setField name field value =>
    value.accesses decls scope ++ [(name, (decls.fieldIndex? scope name field).getD 0)]
  | .ret value => value.elim [] (·.accesses decls scope)
  | .branch cond thenBody elseBody =>
    cond.accesses decls scope ++ blockAccesses thenBody ++ blockAccesses elseBody
  | .loop cond body => cond.accesses decls scope ++ blockAccesses body
  | .print value | .eval value => value.accesses decls scope
  | .leave | .again => []

def blockAccesses : List Stmt → List Access
  | [] => []
  | stmt :: stmts => stmt.accesses ++ blockAccesses stmts

end

end Stmt

/-- The words that a function accesses, in order: first it stores its parameters. -/
def FunctionDecl.accesses (decls : Declarations) (f : FunctionDecl) : List Access :=
  f.params.map (·, 0) ++ Stmt.blockAccesses decls f.locals f.body

/-- The slots that code names are those of `accesses`. -/
def Frame.Names (frame : Frame) (accesses : List Access) (code : Code) : Prop :=
  List.Forall₂ (fun a slot => SlotAt frame.vars a.1 a.2 slot) accesses code.slots

namespace Frame

variable {frame : Frame} {decls : Declarations}

theorem scope_isPrefix {frame' : Frame} (h : frame.vars <+: frame'.vars) :
    frame.scope <+: frame'.scope := h.map _

theorem Names.append {as bs : List Access} {c d : Code} (ha : frame.Names as c)
    (hb : frame.Names bs d) : frame.Names (as ++ bs) (c ++ d) := by
  unfold Names at *
  rw [Code.slots_append]
  exact List.rel_append ha hb

/-- Code that names no slots may follow. -/
theorem Names.append_none {as : List Access} {c d : Code} (ha : frame.Names as c)
    (hd : d.slots = []) : frame.Names as (c ++ d) := by
  unfold Names at *
  simpa [hd] using ha

theorem names_nil {c : Code} (hc : c.slots = []) : frame.Names [] c := by
  unfold Names
  rw [hc]
  exact .nil

theorem SlotAt.names {name : String} {index slot : Nat} {i : Instr}
    (h : SlotAt frame.vars name index slot) (hi : i.slot? = some slot) :
    frame.Names [(name, index)] [.instr i] := by
  unfold Names
  simpa [hi] using h

end Frame

theorem Declarations.fieldIndex?_of_prefix {decls : Declarations} {scope scope' : Scope}
    (h : scope <+: scope') {name field : String} {index : Nat}
    (hi : decls.fieldIndex? scope name field = some index) :
    decls.fieldIndex? scope' name field = some index := by
  obtain ⟨typeName, hn, hi⟩ := Option.bind_eq_some_iff.1 hi
  obtain ⟨found, hf, rfl⟩ : ∃ found, scope.find? name = some found ∧ found = some typeName := by
    simpa [Option.join_eq_some_iff] using hn
  simpa [fieldIndex?, Table.find?_of_prefix h hf] using hi

namespace Frame

variable {decls : Declarations} {frame frame' : Frame}

theorem Sound.names_word (hs : frame.Sound decls) (hv : frame.vars <+: frame'.vars)
    {name : String} {slot : Nat} (hw : frame.WordSlot name slot) {i : Instr}
    (hi : i.slot? = some slot) : frame'.Names [(name, 0)] [.instr i] :=
  SlotAt.names ((hs.wordSlot_iff.1 hw).2.mono hv) hi

theorem Sound.names_field (hs : frame.Sound decls) (hv : frame.vars <+: frame'.vars)
    {name field : String} {slot : Nat} (hf : frame.FieldSlot decls name field slot) {i : Instr}
    (hi : i.slot? = some slot) :
    frame'.Names [(name, (decls.fieldIndex? frame'.scope name field).getD 0)] [.instr i] := by
  obtain ⟨index, hx, hat⟩ := hs.fieldSlot_iff.1 hf
  rw [Declarations.fieldIndex?_of_prefix (scope_isPrefix hv) hx]
  exact SlotAt.names (hat.mono hv) hi

end Frame

namespace Expr

variable {decls : Declarations} {frame : Frame}

mutual

theorem Lowers.names {e : Expr} {s s' : Lowering} {code : Code} (h : e.Lowers decls s code s')
    (hs : s.frame.Sound decls) (hv : s.frame.vars <+: frame.vars) :
    frame.Names (e.accesses decls frame.scope) code := by
  cases h with
  | int | str _ => exact Frame.names_nil rfl
  | word hw => exact hs.names_word hv hw rfl
  | record hf => exact Frame.SlotAt.names ((hs.record_slotAt hf).2.mono hv) rfl
  | binary hl hr _ =>
    have hf := hl.frame_eq
    refine Frame.Names.append_none ?_ (by simp)
    unfold Frame.Names
    rw [slots_operandsCode, accesses]
    exact List.rel_append (hl.names hs hv)
      (hr.names (Frame.Sound.withPending (hf ▸ hs) _) (by simpa [hf] using hv))
  | compare hl hr _ =>
    have hf := hl.frame_eq
    refine Frame.Names.append_none ?_ (by simp)
    unfold Frame.Names
    rw [slots_operandsCode, accesses]
    exact List.rel_append (hl.names hs hv)
      (hr.names (Frame.Sound.withPending (hf ▸ hs) _) (by simpa [hf] using hv))
  | call _ _ ha _ =>
    refine ((ha.names hs hv).append_none ?_).append_none ?_ <;> simp
  | field hf => exact hs.names_field hv hf rfl

theorem LowersArgs.names {args : List Expr} {s s' : Lowering} {code : Code}
    (h : LowersArgs decls args s code s') (hs : s.frame.Sound decls)
    (hv : s.frame.vars <+: frame.vars) :
    frame.Names (argsAccesses decls frame.scope args) code := by
  cases h with
  | nil => exact Frame.names_nil rfl
  | cons hf hr =>
    have he := hf.frame_eq
    exact ((hf.names hs hv).append_none rfl).append
      (hr.names (Frame.Sound.withPending (he ▸ hs) _) (by simpa [he] using hv))

end

end Expr

theorem Frame.names_clear {frame : Frame} {name : String} {base count : Nat}
    (h : ∀ index < count, SlotAt frame.vars name index (base - index * wordSize)) :
    frame.Names ((List.range count).map (name, ·)) (Lower.clearCode base count) := by
  have hc : (Lower.clearCode base count).slots =
      (List.range count).map fun index => base - index * wordSize := by
    unfold Lower.clearCode Code.slots
    rw [List.filterMap_map]
    exact congrFun (List.filterMap_eq_map (f := fun index => base - index * wordSize)) _
  unfold Frame.Names
  rw [hc, List.forall₂_map_left_iff, List.forall₂_map_right_iff, List.forall₂_same]
  intro index hi
  exact h index (List.mem_range.1 hi)

namespace Stmt

variable {decls : Declarations} {frame : Frame}

mutual

theorem Lowers.names {stmt : Stmt} {s s' : Lowering} {code : Code}
    (h : stmt.Lowers decls s code s') (hs : s.frame.Sound decls)
    (hv : s'.frame.vars <+: frame.vars) :
    frame.Names (stmt.accesses decls frame.scope) code := by
  cases h with
  | @declare name value _ s₁ _ _ offset he hd =>
    obtain ⟨-, hg, hd, -⟩ := hd.declare_grows
    have hkind : 0 < (value.varKind s₁.frame).slots := by
      unfold Expr.varKind
      split_ifs <;> simp [VarKind.slots]
    have hat := Frame.slotAt_declare hkind hd
    rw [Nat.zero_mul, Nat.sub_zero] at hat
    exact (he.names hs (he.frame_eq ▸ hg.vars.trans hv)).append
      (Frame.SlotAt.names (hat.mono hv) rfl)
  | declareRecord ht hd _ =>
    rw [accesses, Declarations.slots_of_find? ht]
    exact Frame.names_clear fun index hi =>
      (Frame.slotAt_declare hi hd.declare_grows.2.2.1).mono hv
  | set he hw =>
    rw [← he.frame_eq] at hs
    exact (he.names (he.frame_eq ▸ hs) (he.frame_eq ▸ hv)).append (hs.names_word hv hw rfl)
  | setField he hf =>
    rw [← he.frame_eq] at hs
    exact (he.names (he.frame_eq ▸ hs) (he.frame_eq ▸ hv)).append (hs.names_field hv hf rfl)
  | retNone | leave | again => exact Frame.names_nil rfl
  | ret he => exact (he.names hs (he.frame_eq ▸ hv)).append_none rfl
  | print he =>
    refine (((he.names hs (he.frame_eq ▸ hv)).append_none rfl).append_none ?_).append_none ?_ <;>
      simp
  | eval he => exact he.names hs (he.frame_eq ▸ hv)
  | branch hc hb =>
    rw [accesses, blockAccesses, List.append_nil]
    have hg := hb.frame_grows.vars.trans hv
    exact (((hc.names hs (hc.frame_eq ▸ hg)).append_none rfl).append
      (hb.names (hc.frame_eq ▸ hs) hv)).append_none rfl
  | branchElse _ hc hb ho =>
    have hg₂ := ho.frame_grows.vars.trans hv
    have hg₁ := hb.frame_grows.vars.trans hg₂
    have hs₁ : Frame.Sound decls _ := hc.frame_eq ▸ hs
    exact (((((hc.names hs (hc.frame_eq ▸ hg₁)).append_none rfl).append
      (hb.names hs₁ hg₂)).append_none rfl).append (ho.names (hb.sound hs₁) hv)).append_none rfl
  | loop hc hb =>
    have hg := hb.frame_grows.vars.trans hv
    have hs₁ : Frame.Sound decls _ := hc.frame_eq ▸ hs
    exact (((hc.names hs (hc.frame_eq ▸ hg)).append_none rfl).append
      (hb.names (hs₁.enterLoop _) hv)).append_none rfl

theorem LowersBlock.names {stmts : List Stmt} {s s' : Lowering} {code : Code}
    (h : LowersBlock decls stmts s code s') (hs : s.frame.Sound decls)
    (hv : s'.frame.vars <+: frame.vars) :
    frame.Names (blockAccesses decls frame.scope stmts) code := by
  cases h with
  | nil => exact Frame.names_nil rfl
  | cons hf hr =>
    exact (hf.names hs (hr.frame_grows.vars.trans hv)).append (hr.names (hf.sound hs) hv)

end

end Stmt

theorem StoresParams.names {params : List (String × Register)} {s s' : Lowering} {code : Code}
    (h : StoresParams params s code s') {frame : Frame} (hv : s'.frame.vars <+: frame.vars) :
    frame.Names (params.map fun param => (param.1, 0)) code := by
  induction h with
  | nil => exact Frame.names_nil rfl
  | cons hd hr ih =>
    have hkind : 0 < VarKind.slots .scalar := Nat.one_pos
    have hat := Frame.slotAt_declare hkind hd.declare_grows.2.2.1
    rw [Nat.zero_mul, Nat.sub_zero] at hat
    exact (Frame.SlotAt.names (hat.mono (hr.grows.2.vars.trans hv)) rfl).append (ih hv)

/-- A routine's frame is safe. Each word that the function accesses has a place of its own, and
the instructions name the places of the accessed words in order. Places are whole words in the
frame, and the prologue makes the frame as large as the variables need, rounded up to 16. -/
structure Asm.Routine.FrameSafe (decls : Declarations) (f : FunctionDecl) (r : Routine) : Prop where
  name_eq : r.name = f.name
  exists_place : ∃ place : Access → Nat,
    r.body.slots = (f.accesses decls).map place ∧
    (∀ a ∈ f.accesses decls, wordSize ∣ place a ∧ wordSize ≤ place a ∧ place a ≤ r.stackSize) ∧
    Set.InjOn place {a | a ∈ f.accesses decls}
  stackSize : IsLeast {size | 16 ∣ size ∧ wordSize * decls.slotCount f.locals ≤ size} r.stackSize
  code_eq : r.code = .ofInstrs ([.push .rbp, .mov .rsp .rbp] ++
    if r.stackSize = 0 then [] else [.subImm r.stackSize .rsp]) ++ r.body

/-- The slot of a word in a frame. -/
def Frame.place (frame : Frame) (a : Access) : Nat :=
  ((frame.vars.find? a.1).map Variable.offset).getD 0 - a.2 * wordSize

namespace Frame.Names

variable {frame : Frame} {accesses : List Access} {code : Code}

theorem slots_eq (h : frame.Names accesses code) : code.slots = accesses.map frame.place := by
  have hplace : ∀ a slot, SlotAt frame.vars a.1 a.2 slot → frame.place a = slot := by
    rintro a slot ⟨var, hv, -, rfl⟩
    simp [place, hv]
  have heq : List.Forall₂ (· = ·) (accesses.map frame.place) code.slots :=
    List.forall₂_map_left_iff.2 (h.imp hplace)
  rw [List.forall₂_eq_eq_eq] at heq
  exact heq.symm

theorem slotAt_place (h : frame.Names accesses code) :
    ∀ a ∈ accesses, SlotAt frame.vars a.1 a.2 (frame.place a) := by
  have hs := h.slots_eq
  unfold Names at h
  rw [hs, List.forall₂_map_right_iff, List.forall₂_same] at h
  exact h

end Frame.Names

theorem isLeast_alignTo16 (n : Nat) : IsLeast {size | 16 ∣ size ∧ n ≤ size} (alignTo16 n) := by
  unfold alignTo16
  refine ⟨⟨Nat.dvd_mul_left _ _, by omega⟩, ?_⟩
  rintro size ⟨⟨k, rfl⟩, hn⟩
  omega

namespace FunctionDecl.Lowers

variable {limits : Limits} {decls : Declarations} {f : FunctionDecl} {s s' : Lowering}
  {r : Routine}

theorem frameSize_eq (h : f.Lowers limits decls s r s') :
    r.frameSize = wordSize * decls.slotCount f.locals := by
  rw [← h.size_eq]
  obtain ⟨-, _, _, _, -, -, rfl⟩ := h
  rfl

theorem names (h : f.Lowers limits decls s r s') : s'.frame.Names (f.accesses decls) r.body := by
  have hscope := h.scope_eq
  obtain ⟨hn, params, body, s₁, hp, hb, rfl⟩ := h
  have hparams := hp.names hb.frame_grows.vars
  have hbody := hb.names (hp.sound (sound_enter limits decls f s)) List.prefix_rfl
  rw [map_zip_args hn (·, 0)] at hparams
  rw [hscope] at hbody
  exact ((hparams.append hbody).append_none rfl).append_none rfl

theorem frameSafe (h : f.Lowers limits decls s r s') : r.FrameSafe decls f := by
  have hnames := h.names
  have hplaced := h.sound.laid.placed
  have hsize : r.frameSize = slotCount s'.frame.vars * wordSize := by
    rw [h.frameSize_eq, h.sound.slotCount_eq, h.scope_eq, Nat.mul_comm]
  have hleast := isLeast_alignTo16 r.frameSize
  refine ⟨h.name_eq, ⟨s'.frame.place, hnames.slots_eq, ?_, ?_⟩, ?_, rfl⟩
  · intro a ha
    obtain ⟨k, hk, hpos, hle⟩ := hplaced.slotAt_bounds (hnames.slotAt_place a ha)
    have hfit : k * wordSize ≤ r.frameSize := hsize ▸ Nat.mul_le_mul_right _ hle
    rw [hk]
    exact ⟨Nat.dvd_mul_left _ _, Nat.le_mul_of_pos_left _ hpos, Nat.le_trans hfit hleast.1.2⟩
  · intro a ha b hb hab
    have hb := hnames.slotAt_place b hb
    rw [← hab] at hb
    obtain ⟨hname, hindex⟩ := hplaced.slotAt_injective (hnames.slotAt_place a ha) hb
    exact Prod.ext hname hindex
  · rwa [← h.frameSize_eq]

end FunctionDecl.Lowers

namespace Program

theorem frames_safe {limits : Limits} {p : Program} (h : p.Accepted limits) :
    ∃ a : Assembly, p.written limits = utf8 a.text ∧
      List.Forall₂ (Routine.FrameSafe p.declarations) p.functions a.routines := by
  obtain ⟨a, ha⟩ := accepted_iff.1 h
  refine ⟨a, ha.written_eq, ha.forall₂.imp ?_⟩
  rintro f r ⟨s, s', hf⟩
  exact hf.frameSafe

theorem frames_safe_halves : halves.Accepted {} ∧
    ∃ a : Assembly, halves.written {} = utf8 a.text ∧
      List.Forall₂ (Routine.FrameSafe halves.declarations) halves.functions a.routines :=
  ⟨by decide +kernel, frames_safe (by decide +kernel)⟩

end Program

end WordLang
