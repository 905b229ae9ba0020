import WordLang.Proofs.Scope

/-!
# Labels of lowered code

The labels that code defines are among those handed out while it was lowered, and each is defined
once. So no two functions of a program share a label.
-/
namespace WordLang

open Asm

namespace Asm

def Line.label? : Line → Option Nat
  | .label n => some n
  | .instr _ => none

namespace Code

/-- The labels that code defines, in order. -/
def labels (code : Code) : List Nat := code.filterMap Line.label?

@[simp] theorem labels_nil : labels [] = [] := rfl

@[simp] theorem labels_append (a b : Code) : labels (a ++ b) = labels a ++ labels b :=
  List.filterMap_append

@[simp] theorem labels_label (n : Nat) (code : Code) :
    labels (.label n :: code) = n :: labels code := rfl

@[simp] theorem labels_instr (i : Instr) (code : Code) :
    labels (.instr i :: code) = labels code := rfl

@[simp] theorem labels_ofInstrs (is : List Instr) : labels (.ofInstrs is) = [] := by
  induction is with
  | nil => rfl
  | cons i is ih => exact ih

theorem mem_labels {code : Code} {n : Nat} : n ∈ code.labels ↔ .label n ∈ code := by
  unfold labels
  rw [List.mem_filterMap]
  constructor
  · rintro ⟨line, hl, hn⟩
    cases line with
    | label m =>
      cases hn
      exact hl
    | instr i => cases hn
  · intro h
    exact ⟨_, h, rfl⟩

/-- Labels are defined once, and were handed out from `low` up to `high`. -/
structure LabelsIn (low high : Nat) (code : Code) : Prop where
  nodup : code.labels.Nodup
  bounds : ∀ n ∈ code.labels, low ≤ n ∧ n < high

theorem LabelsIn.append {low mid high : Nat} {a b : Code} (ha : LabelsIn low mid a)
    (hb : LabelsIn mid high b) (hl : low ≤ mid) (hh : mid ≤ high) :
    LabelsIn low high (a ++ b) := by
  refine ⟨?_, ?_⟩
  · rw [labels_append, List.nodup_append]
    refine ⟨ha.nodup, hb.nodup, fun n hn m hm => ?_⟩
    have hn := ha.bounds n hn
    have hm := hb.bounds m hm
    omega
  · intro n hn
    rw [labels_append, List.mem_append] at hn
    rcases hn with hn | hn
    · have := ha.bounds n hn
      omega
    · have := hb.bounds n hn
      omega

theorem LabelsIn.append_none {low high : Nat} {a b : Code} (ha : LabelsIn low high a)
    (hb : b.labels = []) : LabelsIn low high (a ++ b) :=
  ⟨by simpa [hb] using ha.nodup, by simpa [hb] using ha.bounds⟩

theorem LabelsIn.cons {n high : Nat} {code : Code} (h : LabelsIn (n + 1) high code)
    (hn : n < high) : LabelsIn n high (.label n :: code) := by
  refine ⟨?_, ?_⟩
  · rw [labels_label, List.nodup_cons]
    refine ⟨fun hm => ?_, h.nodup⟩
    have := h.bounds n hm
    omega
  · simp only [labels_label, List.mem_cons, forall_eq_or_imp]
    refine ⟨⟨Nat.le_refl _, hn⟩, fun m hm => ?_⟩
    have := h.bounds m hm
    omega

theorem LabelsIn.of_perm {low high : Nat} {a b : Code} (h : LabelsIn low high a)
    (hp : ∀ n, a.labels.count n = b.labels.count n) : LabelsIn low high b := by
  have hperm := List.perm_iff_count.2 hp
  exact ⟨hperm.nodup_iff.1 h.nodup, fun n hn => h.bounds n (hperm.mem_iff.2 hn)⟩

theorem labelsIn_none {code : Code} (low high : Nat) (h : code.labels = []) :
    LabelsIn low high code :=
  ⟨by simp [h], by simp [h]⟩

end Code

@[simp] theorem labels_argPops (n : Nat) : (argPops n).labels = [] := Code.labels_ofInstrs _

@[simp] theorem labels_callCode (pending : Nat) (callee : Callee) :
    (Lower.callCode pending callee).labels = [] := by
  unfold Lower.callCode
  split_ifs <;> rfl

theorem LabelsIn.operandsCode {low mid high : Nat} {left right : Code}
    (ha : left.LabelsIn low mid) (hb : right.LabelsIn mid high) (hl : low ≤ mid)
    (hh : mid ≤ high) : (operandsCode left right).LabelsIn low high :=
  (((ha.append_none rfl).append hb hl hh).append_none rfl).append_none rfl

@[simp] theorem labels_clearCode (base count : Nat) :
    (Lower.clearCode base count).labels = [] := by
  have h := Code.labels_ofInstrs
    ((List.range count).map fun index => .storeZero (base - index * wordSize))
  rwa [Code.ofInstrs, List.map_map] at h

end Asm

theorem BinaryOp.labelsIn_code (op : BinaryOp) (n : Nat) :
    (op.code n).LabelsIn n (n + op.labels) := by
  cases op with
  | add | sub | mul => exact Code.labelsIn_none _ _ rfl
  | div | mod =>
    refine ⟨?_, ?_⟩
    · simp [BinaryOp.code, divisionCode]
    · simp [BinaryOp.code, divisionCode, BinaryOp.labels]

@[simp] theorem CompareOp.labels_code (op : CompareOp) : op.code.labels = [] := rfl

namespace Expr

variable {decls : Declarations}

mutual

theorem Lowers.labelsIn {e : Expr} {s s' : Lowering} {code : Code}
    (h : e.Lowers decls s code s') : code.LabelsIn s.nextLabel s'.nextLabel := by
  cases h with
  | int | str _ | word _ | record _ | field _ => exact Code.labelsIn_none _ _ rfl
  | @binary op _ _ _ _ s₂ _ _ hl hr _ =>
    have hle := hl.grows.nextLabel
    have hle' := hr.grows.nextLabel
    exact (LabelsIn.operandsCode hl.labelsIn hr.labelsIn hle hle').append
      (op.labelsIn_code s₂.nextLabel) (Nat.le_trans hle hle') (Nat.le_add_right _ _)
  | compare hl hr _ =>
    exact (LabelsIn.operandsCode hl.labelsIn hr.labelsIn hl.grows.nextLabel
      hr.grows.nextLabel).append_none rfl
  | call _ _ ha _ => exact (ha.labelsIn.append_none (by simp)).append_none (by simp)

theorem LowersArgs.labelsIn {args : List Expr} {s s' : Lowering} {code : Code}
    (h : LowersArgs decls args s code s') : code.LabelsIn s.nextLabel s'.nextLabel := by
  cases h with
  | nil => exact Code.labelsIn_none _ _ rfl
  | cons hv hr =>
    exact (hv.labelsIn.append_none rfl).append hr.labelsIn hv.grows.nextLabel hr.grows.nextLabel

end

end Expr

namespace Stmt

variable {decls : Declarations}

mutual

theorem Lowers.labelsIn {stmt : Stmt} {s s' : Lowering} {code : Code}
    (h : stmt.Lowers decls s code s') : code.LabelsIn s.nextLabel s'.nextLabel := by
  cases h with
  | declare he hd =>
    rw [hd.declare_grows.2.2.2.2]
    exact he.labelsIn.append_none rfl
  | declareRecord _ _ _ => exact Code.labelsIn_none _ _ (by simp)
  | set he _ | setField he _ | ret he => exact he.labelsIn.append_none rfl
  | retNone | leave _ | again _ => exact Code.labelsIn_none _ _ rfl
  | print he =>
    refine ((he.labelsIn.append_none rfl).append_none ?_).append_none ?_ <;> simp
  | eval he => exact he.labelsIn
  | branch hc hb =>
    have hle := hb.grows.nextLabel
    rw [Lowering.skipLabels_nextLabel] at hle
    refine (hc.labelsIn.append (hb.labelsIn.cons hle) hc.grows.nextLabel
      (Nat.le_of_lt hle)).of_perm fun n => ?_
    simp [List.count_cons]
  | branchElse _ hc hb ho =>
    have hle := hb.grows.nextLabel
    have hle' := ho.grows.nextLabel
    rw [Lowering.skipLabels_nextLabel] at hle
    have hlabels := (((hb.labelsIn.append ho.labelsIn hle hle').cons (by omega)).cons (by omega))
    refine (hc.labelsIn.append hlabels hc.grows.nextLabel (by omega)).of_perm fun n => ?_
    simp [List.count_cons]
    omega
  | loop hc hb =>
    have hle := hc.grows.nextLabel
    have hle' := hb.grows.nextLabel
    rw [Lowering.skipLabels_nextLabel] at hle
    simp only [Lowering.withFrame_nextLabel] at hle' ⊢
    refine (((hc.labelsIn.append hb.labelsIn hle hle').cons (by omega)).cons
      (by omega)).of_perm fun n => ?_
    simp [List.count_cons]
    omega

theorem LowersBlock.labelsIn {stmts : List Stmt} {s s' : Lowering} {code : Code}
    (h : LowersBlock decls stmts s code s') : code.LabelsIn s.nextLabel s'.nextLabel := by
  cases h with
  | nil => exact Code.labelsIn_none _ _ rfl
  | cons hf hr => exact hf.labelsIn.append hr.labelsIn hf.grows.nextLabel hr.grows.nextLabel

end

end Stmt

theorem StoresParams.labels_eq {params : List (String × Register)} {s s' : Lowering} {code : Code}
    (h : StoresParams params s code s') : code.labels = [] := by
  induction h with
  | nil => rfl
  | cons _ _ ih => exact ih

namespace FunctionDecl.Lowers

variable {limits : Limits} {decls : Declarations} {f : FunctionDecl} {s s' : Lowering}
  {r : Routine}

theorem nextLabel_lt (h : f.Lowers limits decls s r s') : s.nextLabel < s'.nextLabel := by
  obtain ⟨-, params, body, s₁, hp, hb, -⟩ := h
  exact Nat.le_trans hp.grows.1.nextLabel hb.grows.nextLabel

/-- A function begins with its exit label, although the label comes last in the code. -/
theorem labelsIn (h : f.Lowers limits decls s r s') :
    r.code.LabelsIn s.nextLabel s'.nextLabel := by
  have hlt := h.nextLabel_lt
  obtain ⟨-, params, body, s₁, hp, hb, rfl⟩ := h
  have hle : s.nextLabel + 1 ≤ s₁.nextLabel := hp.grows.1.nextLabel
  have hbody : body.LabelsIn (s.nextLabel + 1) s'.nextLabel :=
    ⟨hb.labelsIn.nodup, fun n hn => by
      have := hb.labelsIn.bounds n hn
      omega⟩
  refine (hbody.cons hlt).of_perm fun n => ?_
  simp [Routine.code, routine, hp.labels_eq, List.count_cons]

end FunctionDecl.Lowers

namespace LowersFunctions

variable {limits : Limits} {decls : Declarations} {fs : List FunctionDecl} {s s' : Lowering}
  {rs : List Routine}

/-- The labels of a program are distinct. -/
theorem labelsIn (h : LowersFunctions limits decls fs s rs s') :
    Code.LabelsIn s.nextLabel s'.nextLabel (rs.flatMap Routine.code) := by
  induction h with
  | nil => exact Code.labelsIn_none _ _ rfl
  | cons hf hr ih => exact hf.labelsIn.append ih hf.grows.nextLabel hr.grows.nextLabel

end LowersFunctions

end WordLang
