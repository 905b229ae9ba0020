import WordLang.Proofs.BetweenRequests
import WordLang.Proofs.Stops

/-!
# Fields of records over a history

A record keeps the slots that its type asked for when the record was declared, but a field is looked
up in the type as it is now. A type that is declared again is refused and replaces the first one all
the same, so a record that the last function left can be asked for a field that it has no slot for.
Nothing else can make a slot or the number of pushed words fall below zero.
-/
namespace WordLang

open Asm

/-! ## Field accesses -/

/-- A field is asked for, under these declarations and in this state. -/
structure FieldAccess where
  decls : Declarations
  name : String
  part : String
  state : Lowering

namespace FieldAccess

/-- The type of the record has the field at a place for which the record has no slot. -/
def Outgrown (a : FieldAccess) : Prop :=
  ∃ offset typeName slots decl index,
    a.state.frame.vars.find? a.name = some ⟨offset, .record typeName slots⟩ ∧
    a.decls.types.find? typeName = some decl ∧ decl.fieldIndex? a.part = some index ∧
    slots ≤ index

def slot (a : FieldAccess) : Lower Nat := Lower.fieldSlot a.decls a.name a.part

def Underflows (a : FieldAccess) : Prop := Stops a.slot a.state .underflow a.state

/-- The slot falls below zero, or is none of the record's. -/
def Strays (a : FieldAccess) : Prop :=
  a.Underflows ∨
    ∃ slot, Runs a.slot a.state slot a.state ∧
      ∀ index, ¬ SlotAt a.state.frame.vars a.name index slot

end FieldAccess

theorem Lower.stops_fieldSlot {decls : Declarations} {name part : String} {s s' : Lowering} :
    Stops (fieldSlot decls name part) s .underflow s' ↔
      ∃ offset typeName slots decl index,
        s.frame.vars.find? name = some ⟨offset, .record typeName slots⟩ ∧
        decls.types.find? typeName = some decl ∧ decl.fieldIndex? part = some index ∧
        offset < index * wordSize ∧ s' = s := by
  simp only [fieldSlot, stops_bind, stops_lookup, reduceCtorEq, false_and, and_false, exists_false,
    false_or, runs_lookup]
  constructor
  · rintro ⟨⟨offset, kind⟩, _, ⟨hv, rfl⟩, h⟩
    cases kind with
    | scalar | string => simp at h
    | record typeName slots =>
      simp only at h
      split at h
      · next index hi =>
        obtain ⟨decl, hd, hx⟩ := Option.bind_eq_some_iff.1 hi
        obtain ⟨hlt, -, rfl⟩ := stops_slotAbove.1 h
        exact ⟨_, _, _, _, _, hv, hd, hx, hlt, rfl⟩
      · simp at h
  · rintro ⟨offset, typeName, slots, decl, index, hv, hd, hx, hlt, rfl⟩
    refine ⟨_, _, ⟨hv, rfl⟩, ?_⟩
    simp [hd, hx, hlt]

namespace FieldAccess

variable {a : FieldAccess}

/-- In a frame that is laid out, a field strays exactly if the record has no slot for it. -/
theorem strays_iff_outgrown (h : a.state.frame.Laid) : a.Strays ↔ a.Outgrown := by
  constructor
  · rintro (hu | ⟨slot, hr, hn⟩)
    · obtain ⟨offset, typeName, slots, decl, index, hv, hd, hx, hlt, -⟩ :=
        Lower.stops_fieldSlot.1 hu
      obtain ⟨-, below, ho, -⟩ := h.placed.offset_bounds hv
      refine ⟨offset, typeName, slots, decl, index, hv, hd, hx, ?_⟩
      have hle : below + slots < index := Nat.lt_of_mul_lt_mul_right (a := wordSize) (ho ▸ hlt)
      omega
    · obtain ⟨⟨offset, typeName, slots, decl, index, hv, hd, hx, -, rfl⟩, -⟩ :=
        Lower.runs_fieldSlot.1 hr
      refine ⟨offset, typeName, slots, decl, index, hv, hd, hx, ?_⟩
      by_contra hlt
      exact hn index ⟨_, hv, Nat.not_le.1 hlt, rfl⟩
  · rintro ⟨offset, typeName, slots, decl, index, hv, hd, hx, hle⟩
    obtain ⟨-, below, ho, -⟩ := h.placed.offset_bounds hv
    -- The slot lies further up than all of the record's, if it does not fall below zero.
    rcases Nat.lt_or_ge offset (index * wordSize) with hlt | hge
    · exact .inl (Lower.stops_fieldSlot.2 ⟨_, _, _, _, _, hv, hd, hx, hlt, rfl⟩)
    · refine .inr ⟨_, Lower.runs_fieldSlot.2 ⟨⟨_, _, _, _, _, hv, hd, hx, hge, rfl⟩, rfl⟩, ?_⟩
      rintro index' ⟨var, hv', hlt, heq⟩
      rw [hv] at hv'
      cases hv'
      simp only [VarKind.slots, wordSize] at ho hlt heq hge
      omega

/-- In a frame whose records are as their types say, no field is missing. -/
theorem not_outgrown (h : a.state.frame.Sound a.decls) : ¬ a.Outgrown := by
  rintro ⟨offset, typeName, slots, decl, index, hv, hd, hx, hle⟩
  have hs : slots = decl.slots := (h.record_slots hv).trans (a.decls.slots_of_find? hd)
  have hlt : index < decl.fields.length := (List.idxOf?_eq_some_iff.1 hx).1
  have hmax : decl.fields.length ≤ decl.slots := Nat.le_max_left _ _
  omega

end FieldAccess

/-! ## Accesses that lowering comes to -/

namespace FieldAccess

variable (a : FieldAccess)

mutual

/-- Lowering the expression in the state `s` comes to the access. -/
inductive OfExpr : Expr → Lowering → Prop where
  | field : OfExpr (.field a.name a.part) a.state
  | binaryLeft {op : BinaryOp} {lhs rhs : Expr} {s : Lowering} :
      OfExpr lhs s → OfExpr (.binary op lhs rhs) s
  | binaryRight {op : BinaryOp} {lhs rhs : Expr} {s s₁ : Lowering} {left : Code} :
      lhs.Lowers a.decls s left s₁ → OfExpr rhs (s₁.withPending (s₁.frame.pending + 1)) →
      OfExpr (.binary op lhs rhs) s
  | compareLeft {op : CompareOp} {lhs rhs : Expr} {s : Lowering} :
      OfExpr lhs s → OfExpr (.compare op lhs rhs) s
  | compareRight {op : CompareOp} {lhs rhs : Expr} {s s₁ : Lowering} {left : Code} :
      lhs.Lowers a.decls s left s₁ → OfExpr rhs (s₁.withPending (s₁.frame.pending + 1)) →
      OfExpr (.compare op lhs rhs) s
  | call {name : String} {args : List Expr} {callee : Callee} {s : Lowering} :
      args.length ≤ Register.args.length → a.decls.callee name args.length = .ok callee →
      OfArgs args s → OfExpr (.call name args) s

inductive OfArgs : List Expr → Lowering → Prop where
  | head {arg : Expr} {args : List Expr} {s : Lowering} :
      OfExpr arg s → OfArgs (arg :: args) s
  | tail {arg : Expr} {args : List Expr} {s s₁ : Lowering} {value : Code} :
      arg.Lowers a.decls s value s₁ → OfArgs args (s₁.withPending (s₁.frame.pending + 1)) →
      OfArgs (arg :: args) s

end

variable {a : FieldAccess}

mutual

/-- While an expression is lowered the frame stays the same but for the words that are pushed. -/
theorem OfExpr.frame_eq {e : Expr} {s : Lowering} (h : a.OfExpr e s) :
    ∃ n, a.state.frame = { s.frame with pending := n } := by
  cases h with
  | field => exact ⟨a.state.frame.pending, rfl⟩
  | binaryLeft h | compareLeft h => exact h.frame_eq
  | binaryRight hl h | compareRight hl h =>
    obtain ⟨n, hn⟩ := h.frame_eq
    exact ⟨n, by rw [hn, Lowering.withPending_frame, hl.frame_eq]⟩
  | call _ _ h => exact h.frame_eq

theorem OfArgs.frame_eq {args : List Expr} {s : Lowering} (h : a.OfArgs args s) :
    ∃ n, a.state.frame = { s.frame with pending := n } := by
  cases h with
  | head h => exact h.frame_eq
  | tail hv h =>
    obtain ⟨n, hn⟩ := h.frame_eq
    exact ⟨n, by rw [hn, Lowering.withPending_frame, hv.frame_eq]⟩

end

end FieldAccess

namespace Expr

variable {decls : Declarations}

/-- The second operand is lowered with the first one pushed, which can then be popped. -/
theorem underflow_of_operands {lhs rhs : Expr} {s s' : Lowering} {β : Type}
    {combine : Code → Code → Code → Code → Lower β}
    (hc : ∀ left save right restore s₁,
      ¬ Stops (combine left save right restore) s₁ .underflow s')
    (h : Stops (do
      let left ← lhs.lower decls
      let save ← Lower.push .rax
      let right ← rhs.lower decls
      let restore ← Lower.pop .rax
      combine left save right restore) s .underflow s') :
    Stops (lhs.lower decls) s .underflow s' ∨
      ∃ left s₁, lhs.Lowers decls s left s₁ ∧
        Stops (rhs.lower decls) (s₁.withPending (s₁.frame.pending + 1)) .underflow s' := by
  rcases stops_bind.1 h with h | ⟨left, s₁, hl, h⟩
  · exact .inl h
  rw [Lower.stops_push_bind] at h
  rcases stops_bind.1 h with h | ⟨right, s₂, hr, h⟩
  · exact .inr ⟨left, s₁, lowers_of_runs lhs hl, h⟩
  · -- The second operand has left the word of the first one on the stack.
    have hframe := (lowers_of_runs rhs hr).frame_eq
    simp [stops_bind, hframe, hc] at h

mutual

/-- Where lowering an expression underflows, it is a field access that does, and its state is what
is left. -/
theorem exists_underflows : (e : Expr) → {s s' : Lowering} →
    Stops (e.lower decls) s .underflow s' →
      ∃ a : FieldAccess, a.decls = decls ∧ a.OfExpr e s ∧ a.Underflows ∧ a.state = s'
  | .int value, s, s', h => by simp [Expr.lower] at h
  | .str text, s, s', h => by simp [Expr.lower] at h
  | .ident name, s, s', h => by
    simp only [Expr.lower, stops_bind, Lower.stops_lookup, reduceCtorEq, false_and, and_false,
      exists_false, false_or] at h
    obtain ⟨var, s₁, -, h⟩ := h
    split at h <;> simp at h
  | .binary op lhs rhs, s, s', h => by
    unfold Expr.lower at h
    rcases underflow_of_operands (by simp) h with h | ⟨left, s₁, hl, h⟩
    · obtain ⟨a, rfl, ha, hu⟩ := exists_underflows lhs h
      exact ⟨a, rfl, .binaryLeft ha, hu⟩
    · obtain ⟨a, rfl, ha, hu⟩ := exists_underflows rhs h
      exact ⟨a, rfl, .binaryRight hl ha, hu⟩
  | .compare op lhs rhs, s, s', h => by
    unfold Expr.lower at h
    rcases underflow_of_operands (by simp) h with h | ⟨left, s₁, hl, h⟩
    · obtain ⟨a, rfl, ha, hu⟩ := exists_underflows lhs h
      exact ⟨a, rfl, .compareLeft ha, hu⟩
    · obtain ⟨a, rfl, ha, hu⟩ := exists_underflows rhs h
      exact ⟨a, rfl, .compareRight hl ha, hu⟩
  | .call name args, s, s', h => by
    simp only [Expr.lower, stops_bind, Lower.stops_ofExcept, Lower.runs_ofExcept, reduceCtorEq,
      false_and, and_false, exists_false, false_or, Declarations.checkArgCount_eq_ok] at h
    obtain ⟨_, _, ⟨hn, rfl⟩, callee, _, ⟨hc, rfl⟩, h | ⟨values, s₁, ha, h⟩⟩ := h
    · obtain ⟨a, rfl, ha, hu⟩ := exists_args_underflows args h
      exact ⟨a, rfl, .call hn hc ha, hu⟩
    · -- Each argument has left its word.
      have hframe := (lowersArgs_of_runs args ha).frame_eq
      have hle : (Register.args.take args.length).reverse.length ≤ s₁.frame.pending := by
        simp only [List.length_reverse, List.length_take, hframe]
        omega
      simp [Lower.not_stops_popAll hle] at h
  | .field name part, s, s', h => by
    simp only [Expr.lower, bind_pure_comp, stops_map] at h
    obtain ⟨_, _, _, _, _, -, -, -, -, rfl⟩ := Lower.stops_fieldSlot.1 h
    exact ⟨⟨decls, name, part, s'⟩, rfl, .field, h, rfl⟩

theorem exists_args_underflows : (args : List Expr) → {s s' : Lowering} →
    Stops (Expr.lowerArgs decls args) s .underflow s' →
      ∃ a : FieldAccess, a.decls = decls ∧ a.OfArgs args s ∧ a.Underflows ∧ a.state = s'
  | [], s, s', h => by simp [Expr.lowerArgs] at h
  | arg :: args, s, s', h => by
    unfold Expr.lowerArgs at h
    rcases stops_bind.1 h with h | ⟨value, s₁, hv, h⟩
    · obtain ⟨a, rfl, ha, hu⟩ := exists_underflows arg h
      exact ⟨a, rfl, .head ha, hu⟩
    simp only [Lower.stops_push_bind, bind_pure_comp, stops_map] at h
    obtain ⟨a, rfl, ha, hu⟩ := exists_args_underflows args h
    exact ⟨a, rfl, .tail (lowers_of_runs arg hv) ha, hu⟩

end

end Expr

/-- The expression with which the code of a statement begins. -/
def Stmt.value? : Stmt → Option Expr
  | .declare _ value | .set _ value | .setField _ _ value | .print value | .eval value => some value
  | .ret value => value
  | .branch cond _ _ => some cond
  | .declareRecord .. | .loop .. | .leave | .again => none

namespace FieldAccess

variable (a : FieldAccess)

mutual

/-- Lowering the statement in the state `s` comes to the access. -/
inductive OfStmt : Stmt → Lowering → Prop where
  | value {stmt : Stmt} {value : Expr} {s : Lowering} :
      stmt.value? = some value → a.OfExpr value s → OfStmt stmt s
  | setField {value : Expr} {s : Lowering} {code : Code} :
      value.Lowers a.decls s code a.state → OfStmt (.setField a.name a.part value) s
  | thenBody {cond : Expr} {thenBody : List Stmt} {s s₁ : Lowering} {test : Code} :
      cond.Lowers a.decls s test s₁ → OfBlock thenBody (s₁.skipLabels 1) →
      OfStmt (.branch cond thenBody []) s
  | thenBodyElse {cond : Expr} {thenBody elseBody : List Stmt} {s s₁ : Lowering} {test : Code} :
      elseBody ≠ [] → cond.Lowers a.decls s test s₁ → OfBlock thenBody (s₁.skipLabels 2) →
      OfStmt (.branch cond thenBody elseBody) s
  | elseBody {cond : Expr} {thenBody elseBody : List Stmt} {s s₁ s₂ : Lowering}
      {test body : Code} :
      elseBody ≠ [] → cond.Lowers a.decls s test s₁ →
      Stmt.LowersBlock a.decls thenBody (s₁.skipLabels 2) body s₂ → OfBlock elseBody s₂ →
      OfStmt (.branch cond thenBody elseBody) s
  | loopCond {cond : Expr} {body : List Stmt} {s : Lowering} :
      a.OfExpr cond (s.skipLabels 2) → OfStmt (.loop cond body) s
  | loopBody {cond : Expr} {body : List Stmt} {s s₁ : Lowering} {test : Code} :
      cond.Lowers a.decls (s.skipLabels 2) test s₁ →
      OfBlock body (s₁.withFrame (s₁.frame.enterLoop ⟨s.nextLabel, s.nextLabel + 1⟩)) →
      OfStmt (.loop cond body) s

inductive OfBlock : List Stmt → Lowering → Prop where
  | head {stmt : Stmt} {stmts : List Stmt} {s : Lowering} :
      OfStmt stmt s → OfBlock (stmt :: stmts) s
  | tail {stmt : Stmt} {stmts : List Stmt} {s s₁ : Lowering} {first : Code} :
      stmt.Lowers a.decls s first s₁ → OfBlock stmts s₁ → OfBlock (stmt :: stmts) s

end

end FieldAccess

/-- A frame that is laid out stays so, and so do records that are as their types say. -/
structure Frame.Preserved (decls : Declarations) (frame frame' : Frame) : Prop where
  laid : frame.Laid → frame'.Laid
  sound : frame.Sound decls → frame'.Sound decls

namespace Frame.Preserved

variable {decls : Declarations} {frame frame₁ frame' : Frame}

theorem trans (h : frame.Preserved decls frame₁) (h' : frame₁.Preserved decls frame') :
    frame.Preserved decls frame' := ⟨h'.laid ∘ h.laid, h'.sound ∘ h.sound⟩

theorem of_pending (h : ∃ n, frame' = { frame with pending := n }) :
    frame.Preserved decls frame' := by
  obtain ⟨n, rfl⟩ := h
  exact ⟨fun hl => ⟨hl.slotSize, hl.used, hl.placed⟩, fun hs => hs.withPending n⟩

theorem of_eq (h : frame' = frame) : frame.Preserved decls frame' := h ▸ ⟨id, id⟩

theorem enterLoop (h : frame.Preserved decls frame') (labels : LoopLabels) :
    frame.Preserved decls (frame'.enterLoop labels) where
  laid hl := ⟨(h.laid hl).slotSize, (h.laid hl).used, (h.laid hl).placed⟩
  sound hs := (h.sound hs).enterLoop labels

end Frame.Preserved

theorem Stmt.LowersBlock.preserved {decls : Declarations} {stmts : List Stmt} {s s' : Lowering}
    {code : Code} (h : LowersBlock decls stmts s code s') :
    s.frame.Preserved decls s'.frame := by
  have hextends := (Stmt.built_lowerBlock decls stmts).extends_of_runs h.runs
  exact ⟨hextends.laid, hextends.sound⟩

theorem Stmt.Lowers.preserved {decls : Declarations} {stmt : Stmt} {s s' : Lowering}
    {code : Code} (h : stmt.Lowers decls s code s') : s.frame.Preserved decls s'.frame := by
  have hextends := (stmt.built_lower decls).extends_of_runs h.runs
  exact ⟨hextends.laid, hextends.sound⟩

namespace FieldAccess

variable {a : FieldAccess}

mutual

theorem OfStmt.preserved {stmt : Stmt} {s : Lowering} (h : a.OfStmt stmt s) :
    s.frame.Preserved a.decls a.state.frame := by
  cases h with
  | value _ h => exact .of_pending h.frame_eq
  | setField hv => exact .of_eq hv.frame_eq
  | thenBody hc h => exact hc.frame_eq ▸ h.preserved
  | thenBodyElse _ hc h => exact hc.frame_eq ▸ h.preserved
  | elseBody _ hc hb h => exact (hc.frame_eq ▸ hb.preserved).trans h.preserved
  | loopCond h => exact .of_pending h.frame_eq
  | loopBody hc h => exact ((Frame.Preserved.of_eq hc.frame_eq).enterLoop _).trans h.preserved

theorem OfBlock.preserved {stmts : List Stmt} {s : Lowering} (h : a.OfBlock stmts s) :
    s.frame.Preserved a.decls a.state.frame := by
  cases h with
  | head h => exact h.preserved
  | tail hf h => exact hf.preserved.trans h.preserved

end

end FieldAccess

namespace Stmt

variable {decls : Declarations}

/-- Where the value of a statement underflows, it is a field access of it that does. -/
theorem exists_underflows_of_value {stmt : Stmt} {value : Expr} {s s' : Lowering}
    (hv : stmt.value? = some value) (h : Stops (value.lower decls) s .underflow s') :
    ∃ a : FieldAccess, a.decls = decls ∧ a.OfStmt stmt s ∧ a.Underflows ∧ a.state = s' := by
  obtain ⟨a, rfl, ha, hu⟩ := value.exists_underflows h
  exact ⟨a, rfl, .value hv ha, hu⟩

mutual

theorem exists_underflows : (stmt : Stmt) → {s s' : Lowering} → s.frame.Laid →
    Stops (stmt.lower decls) s .underflow s' →
      ∃ a : FieldAccess, a.decls = decls ∧ a.OfStmt stmt s ∧ a.Underflows ∧ a.state = s'
  | .declare name value, s, s', hs, h => by
    unfold Stmt.lower at h
    rcases stops_bind.1 h with h | ⟨code, s₁, hv, h⟩
    · exact exists_underflows_of_value rfl h
    · simp [stops_bind] at h
  | .declareRecord name typeName, s, s', hs, h => by
    simp only [Stmt.lower] at h
    split at h
    · simp at h
    · next decl hd =>
      rcases stops_bind.1 h with h | ⟨base, s₁, hb, h⟩
      · simp at h
      · have hle := hs.le_of_declare hb.declare_grows.2.2.1
        exact absurd h (Lower.not_stops_clearSlots hle)
  | .set name value, s, s', hs, h => by
    unfold Stmt.lower at h
    rcases stops_bind.1 h with h | ⟨code, s₁, hv, h⟩
    · exact exists_underflows_of_value rfl h
    · simp [Lower.not_underflow_scalarSlot] at h
  | .setField name field value, s, s', hs, h => by
    unfold Stmt.lower at h
    rcases stops_bind.1 h with h | ⟨code, s₁, hv, h⟩
    · exact exists_underflows_of_value rfl h
    · simp only [bind_pure_comp, stops_map] at h
      obtain ⟨_, _, _, _, _, -, -, -, -, rfl⟩ := Lower.stops_fieldSlot.1 h
      exact ⟨⟨decls, name, field, s'⟩, rfl, .setField (Expr.lowers_of_runs value hv), h, rfl⟩
  | .ret none, s, s', hs, h => by simp [Stmt.lower] at h
  | .ret (some value), s, s', hs, h => by
    unfold Stmt.lower at h
    rcases stops_bind.1 h with h | ⟨code, s₁, hv, h⟩
    · exact exists_underflows_of_value rfl h
    · simp at h
  | .branch cond thenBody [], s, s', hs, h => by
    unfold Stmt.lower at h
    rcases stops_bind.1 h with h | ⟨test, s₁, hc, h⟩
    · exact exists_underflows_of_value rfl h
    have hc := Expr.lowers_of_runs cond hc
    have hs₁ : (s₁.skipLabels 1).frame.Laid := hc.frame_eq ▸ hs
    simp only [Lower.stops_freshLabel_bind, bind_pure_comp, stops_map] at h
    obtain ⟨a, rfl, ha, hu⟩ := exists_block_underflows thenBody hs₁ h
    exact ⟨a, rfl, .thenBody hc ha, hu⟩
  | .branch cond thenBody (stmt :: stmts), s, s', hs, h => by
    unfold Stmt.lower at h
    rcases stops_bind.1 h with h | ⟨test, s₁, hc, h⟩
    · exact exists_underflows_of_value rfl h
    have hc := Expr.lowers_of_runs cond hc
    have hs₁ : (s₁.skipLabels 2).frame.Laid := hc.frame_eq ▸ hs
    rw [Lower.stops_freshLabel_bind, Lower.stops_freshLabel_bind] at h
    rcases stops_bind.1 h with h | ⟨body, s₂, hb, h⟩
    · obtain ⟨a, rfl, ha, hu⟩ := exists_block_underflows thenBody hs₁ h
      exact ⟨a, rfl, .thenBodyElse (by simp) hc ha, hu⟩
    have hb := lowersBlock_of_runs thenBody hb
    simp only [bind_pure_comp, stops_map] at h
    obtain ⟨a, rfl, ha, hu⟩ := exists_block_underflows (stmt :: stmts) (hb.preserved.laid hs₁) h
    exact ⟨a, rfl, .elseBody (by simp) hc hb ha, hu⟩
  | .loop cond body, s, s', hs, h => by
    unfold Stmt.lower at h
    rw [Lower.stops_freshLabel_bind, Lower.stops_freshLabel_bind] at h
    rcases stops_bind.1 h with h | ⟨test, s₁, hc, h⟩
    · obtain ⟨a, rfl, ha, hu⟩ := cond.exists_underflows h
      exact ⟨a, rfl, .loopCond ha, hu⟩
    have hc := Expr.lowers_of_runs cond hc
    have hpreserved : s.frame.Preserved decls s₁.frame := .of_eq hc.frame_eq
    have hs₁ := (hpreserved.enterLoop ⟨s.nextLabel, s.nextLabel + 1⟩).laid hs
    simp only [bind_pure_comp, stops_map] at h
    obtain ⟨t, hb, rfl⟩ := Lower.stops_inLoop.1 h
    obtain ⟨a, rfl, ha, hu⟩ := exists_block_underflows body hs₁ hb
    exact ⟨a, rfl, .loopBody hc ha, hu⟩
  | .print value, s, s', hs, h => by
    unfold Stmt.lower at h
    rcases stops_bind.1 h with h | ⟨code, s₁, hv, h⟩
    · exact exists_underflows_of_value rfl h
    · simp [stops_bind] at h
  | .eval value, s, s', hs, h => by
    unfold Stmt.lower at h
    exact exists_underflows_of_value rfl h
  | .leave, s, s', hs, h => by
    simp only [Stmt.lower, stops_bind, Lower.not_stops_frame, false_or] at h
    obtain ⟨frame, s₁, -, h⟩ := h
    split at h <;> simp at h
  | .again, s, s', hs, h => by
    simp only [Stmt.lower, stops_bind, Lower.not_stops_frame, false_or] at h
    obtain ⟨frame, s₁, -, h⟩ := h
    split at h <;> simp at h

theorem exists_block_underflows : (stmts : List Stmt) → {s s' : Lowering} → s.frame.Laid →
    Stops (Stmt.lowerBlock decls stmts) s .underflow s' →
      ∃ a : FieldAccess, a.decls = decls ∧ a.OfBlock stmts s ∧ a.Underflows ∧ a.state = s'
  | [], s, s', hs, h => by simp [Stmt.lowerBlock] at h
  | stmt :: stmts, s, s', hs, h => by
    unfold Stmt.lowerBlock at h
    rcases stops_bind.1 h with h | ⟨first, s₁, hf, h⟩
    · obtain ⟨a, rfl, ha, hu⟩ := exists_underflows stmt hs h
      exact ⟨a, rfl, .head ha, hu⟩
    have hf := lowers_of_runs stmt hf
    simp only [bind_pure_comp, stops_map] at h
    obtain ⟨a, rfl, ha, hu⟩ := exists_block_underflows stmts (hf.preserved.laid hs) h
    exact ⟨a, rfl, .tail hf ha, hu⟩

end

end Stmt

/-! ## Accesses of requests -/

namespace FieldAccess

/-- The request, made of the generator `g`, comes to the access. -/
inductive OfRequest (a : FieldAccess) : Request → Generator → Prop where
  | expr {e : Expr} {g : Generator} :
      a.decls = g.declarations → a.OfExpr e g.lowering → OfRequest a (.expr e) g
  | stmt {s : Stmt} {g : Generator} :
      a.decls = g.declarations → a.OfStmt s g.lowering → OfRequest a (.stmt s) g
  | function {f : FunctionDecl} {g : Generator} {s : Lowering} {code : Code} :
      a.decls = g.declarations → f.params.length ≤ Register.args.length →
      StoresParams (f.params.zip Register.args) (f.enter g.limits g.lowering) code s →
      a.OfBlock f.body s → OfRequest a (.function f) g
  | program {p : Program} {before after : List FunctionDecl} {f : FunctionDecl}
      {g g' : Generator} :
      p.functions = before ++ f :: after →
      Runs (do
        p.types.forM Generate.declareType
        p.functions.forM Generate.declareFunction
        Generate.write Generate.textSection
        before.forM Generate.function) g () g' →
      OfRequest a (.function f) g' → OfRequest a (.program p) g

variable {a : FieldAccess} {g : Generator}

/-- A function finds its records as their types say, in whatever frame the function before left. -/
theorem OfRequest.sound_function {f : FunctionDecl} (h : a.OfRequest (.function f) g) :
    a.state.frame.Sound a.decls := by
  cases h with
  | function _ _ hp h => exact h.preserved.sound (hp.sound (f.sound_enter _ a.decls _))

theorem OfRequest.sound_program {p : Program} (h : a.OfRequest (.program p) g) :
    a.state.frame.Sound a.decls := by
  cases h with
  | program _ _ h => exact h.sound_function

theorem OfRequest.laid {request : Request} (h : a.OfRequest request g)
    (hg : g.lowering.frame.Laid) : a.state.frame.Laid := by
  cases h with
  | expr _ h =>
    have hpreserved : g.lowering.frame.Preserved a.decls a.state.frame := .of_pending h.frame_eq
    exact hpreserved.laid hg
  | stmt _ h => exact h.preserved.laid hg
  | function hd hn hp h => exact (OfRequest.function hd hn hp h).sound_function.laid
  | program _ _ h => exact h.sound_function.laid

theorem OfRequest.sound {request : Request} (h : a.OfRequest request g)
    (hg : g.lowering.frame.Sound g.declarations) : a.state.frame.Sound a.decls := by
  cases h with
  | expr hd h =>
    have hpreserved : g.lowering.frame.Preserved a.decls a.state.frame := .of_pending h.frame_eq
    exact hpreserved.sound (hd ▸ hg)
  | stmt hd h => exact h.preserved.sound (hd ▸ hg)
  | function hd hn hp h => exact (OfRequest.function hd hn hp h).sound_function
  | program _ _ h => exact h.sound_function

end FieldAccess

/-- Parameters are declared without a slot falling below zero. -/
theorem Lower.not_underflow_storeParams {params : List (String × Register)} {s s' : Lowering} :
    ¬ Stops (storeParams params) s .underflow s' := by
  induction params generalizing s with
  | nil => simp [storeParams]
  | cons param params ih => simp [storeParams, stops_bind, ih]

namespace FunctionDecl

variable {f : FunctionDecl} {g g' : Generator}

theorem exists_underflows (h : Stops (Generate.function f) g .underflow g') :
    ∃ a : FieldAccess, a.OfRequest (.function f) g ∧ a.Underflows ∧ a.state = g'.lowering := by
  rcases Generate.stops_function.1 h with ⟨t, hl, rfl⟩ | ⟨_, _, -, h⟩
  · unfold Stops at hl
    rw [f.outcome_lower] at hl
    split at hl
    · simp at hl
    · next hn =>
      rcases stops_bind.1 hl with h | ⟨params, s, hp, h⟩
      · exact absurd h Lower.not_underflow_storeParams
      have hp := runs_storeParams_iff.1 hp
      have hs := (hp.sound (f.sound_enter g.limits g.declarations g.lowering)).laid
      rcases stops_bind.1 h with h | ⟨body, s₁, -, h⟩
      · obtain ⟨a, hd, ha, hu⟩ := Stmt.exists_block_underflows f.body hs h
        exact ⟨a, .function hd (Nat.not_lt.1 hn) hp ha, hu⟩
      · simp at h
  · obtain ⟨_, hrefused⟩ := Generate.exists_of_stops_write h
    cases hrefused

end FunctionDecl

namespace Program

variable {p : Program} {g g' : Generator}

theorem exists_underflows (h : Stops (Generate.program p) g .underflow g') :
    ∃ a : FieldAccess, a.OfRequest (.program p) g ∧ a.Underflows ∧ a.state = g'.lowering := by
  unfold Generate.program at h
  rcases stops_bind.1 h with h | ⟨_, g₁, htypes, h⟩
  · obtain ⟨_, decl, _, _, -, -, h⟩ := stops_forM.1 h
    cases (Generate.of_stops_declareType h).1
  rcases stops_bind.1 h with h | ⟨_, g₂, hfunctions, h⟩
  · obtain ⟨_, f, _, _, -, -, h⟩ := stops_forM.1 h
    cases (Generate.of_stops_declareFunction h).1
  rcases stops_bind.1 h with h | ⟨_, g₃, hw, h⟩
  · obtain ⟨_, hrefused⟩ := Generate.exists_of_stops_write h
    cases hrefused
  rcases stops_bind.1 h with h | ⟨_, g₄, -, h⟩
  · obtain ⟨before, f, after, g₄, hsplit, hbefore, h⟩ := stops_forM.1 h
    obtain ⟨a, ha, hu⟩ := FunctionDecl.exists_underflows h
    refine ⟨a, .program hsplit ?_ ha, hu⟩
    exact runs_bind.2 ⟨_, g₁, htypes, runs_bind.2 ⟨_, g₂, hfunctions, runs_bind.2
      ⟨_, g₃, hw, hbefore⟩⟩⟩
  · obtain ⟨_, hrefused⟩ := Generate.exists_of_stops_ending h
    cases hrefused

end Program

/-- Whatever is asked for, it is a field access that underflows. Nothing is undone. -/
theorem Request.exists_underflows {request : Request} {g g' : Generator}
    (hg : g.lowering.frame.Laid) (h : Stops request.action g .underflow g') :
    ∃ a : FieldAccess, a.OfRequest request g ∧ a.Underflows ∧ a.state = g'.lowering := by
  cases request with
  | program p => exact Program.exists_underflows h
  | function f => exact FunctionDecl.exists_underflows h
  | stmt s =>
    obtain ⟨t, ht, rfl⟩ := Generate.stops_stmt.1 h
    obtain ⟨a, hd, ha, hu⟩ := s.exists_underflows hg ht
    exact ⟨a, .stmt hd ha, hu⟩
  | expr e =>
    obtain ⟨t, ht, rfl⟩ := Generate.stops_expr.1 h
    obtain ⟨a, hd, ha, hu⟩ := e.exists_underflows ht
    exact ⟨a, .expr hd ha, hu⟩

/-! ## Types that are declared again -/

/-- More types do not change the records that are there. -/
theorem Frame.Sound.of_prefix {decls decls' : Declarations} {frame : Frame}
    (h : frame.Sound decls) (hp : decls.types <+: decls'.types) : frame.Sound decls' := by
  refine ⟨h.laid, fun v hv => ?_⟩
  have hslots := h.slots v hv
  have hpos : 0 < v.2.kind.slots :=
    (h.laid.placed.offset_bounds (Table.find?_of_mem h.laid.placed.nodup hv)).1
  rcases htype : v.2.kind.typeName? with _ | typeName
  · rw [hslots, htype]
    rfl
  · rw [htype] at hslots
    cases hd : decls.types.find? typeName with
    | none =>
      -- A type that is not declared has no slots, and every variable has one.
      simp only [Declarations.slots, hd, Option.map_none, Option.getD_none] at hslots
      omega
    | some decl =>
      rw [hslots, decls.slots_of_find? hd, decls'.slots_of_find? (Table.find?_of_prefix hp hd)]

namespace Generator

/-- Types are kept, and records stay as their types say. -/
structure KeepsRecords (g g' : Generator) : Prop where
  types : g'.declarations.types = g.declarations.types
  sound : g.lowering.frame.Sound g.declarations → g'.lowering.frame.Sound g'.declarations

instance : IsPreorder Generator KeepsRecords where
  refl _ := ⟨rfl, id⟩
  trans _ _ _ h h' := ⟨h'.types.trans h.types, h'.sound ∘ h.sound⟩

theorem KeepsRecords.of_frame {g g' : Generator} (ht : g'.declarations.types = g.declarations.types)
    (hf : g'.lowering.frame = g.lowering.frame) : g.KeepsRecords g' :=
  ⟨ht, fun h => hf ▸ h.of_prefix (ht ▸ List.prefix_rfl)⟩

end Generator

namespace Generate

open Generator

theorem keepsRecords_write (text : String) : Leads KeepsRecords (write text) := by
  intro g
  rw [outcome_write]
  exact .of_frame rfl rfl

theorem keepsRecords_note (e : Event) : Leads KeepsRecords (ofLower (Lower.note e)) := by
  intro g
  rw [outcome_ofLower]
  exact .of_frame rfl rfl

theorem keepsRecords_declareFunction (f : FunctionDecl) :
    Leads KeepsRecords (declareFunction f) := by
  intro g
  rw [outcome_declareFunction]
  exact .of_frame rfl rfl

theorem keepsRecords_function (f : FunctionDecl) : Leads KeepsRecords (Generate.function f) := by
  refine leads_function_of (fun g => ?_) keepsRecords_write keepsRecords_note
  rcases f.state_lower g.limits g.declarations g.lowering with hs | hs
  · rw [hs]
    exact .of_frame rfl rfl
  · exact ⟨rfl, fun _ => hs.sound (f.sound_enter g.limits g.declarations g.lowering)⟩

/-- Once its types are declared, a program keeps the types and records that are there. -/
theorem keepsRecords_program (p : Program) : Leads KeepsRecords (program { p with types := [] }) :=
  leads_program_of (by simp) (fun f _ => keepsRecords_declareFunction f) (keepsRecords_write _)
    (fun f _ => keepsRecords_function f) (fun _ _ => keepsRecords_write _) (keepsRecords_write _)
    keepsRecords_note

/-- A program first declares its types. -/
theorem program_eq (p : Program) :
    program p = p.types.forM declareType >>= fun _ => program { p with types := [] } := rfl

end Generate

/-- The request is refused because a type is there already. -/
def Request.Repeats (request : Request) (g : Generator) : Prop :=
  ∃ name, (outcome request.action g).1 = .error (.refused (.duplicateType name))

theorem Request.sound_outcome {request : Request} {g : Generator} (hr : ¬ request.Repeats g)
    (h : g.lowering.frame.Sound g.declarations) :
    (outcome request.action g).2.lowering.frame.Sound
      (outcome request.action g).2.declarations := by
  cases request with
  | function f => exact (Generate.keepsRecords_function f g).sound h
  | stmt s =>
    rw [show outcome (Request.stmt s).action g = _ from Generate.outcome_stmt s g]
    exact ((s.built_lower g.declarations).leads _).sound h
  | expr e =>
    rw [show outcome (Request.expr e).action g = _ from Generate.outcome_expr e g]
    exact ((e.built_lower g.declarations).leads _).sound h
  | program p =>
    unfold Request.Repeats at hr
    simp only [Request.action, Generate.program_eq p, outcome_bind] at hr ⊢
    -- Types that are all accepted are new, and come after those that are there.
    rcases htypes : outcome (p.types.forM Generate.declareType) g with ⟨e | u, g₁⟩
    · obtain ⟨_, decl, _, _, -, -, hs⟩ := stops_forM.1 htypes
      rw [htypes] at hr
      have he := (Generate.of_stops_declareType hs).1
      exact absurd ⟨decl.name, congrArg Except.error he⟩ hr
    · obtain ⟨-, -, rfl⟩ := Generate.runs_declareTypes.1 htypes
      exact (Generate.keepsRecords_program p _).sound (h.of_prefix (List.prefix_append _ _))

/-- What is asked of a request: nothing falls below zero, and every field access that it comes to
gets a slot of its record. -/
structure Request.Safe (request : Request) (g : Generator) : Prop where
  no_underflow : (outcome request.action g).1 ≠ .error .underflow
  not_strays : ∀ a : FieldAccess, a.OfRequest request g → ¬ a.Strays

theorem Request.safe_iff {request : Request} {g : Generator} (hg : g.lowering.frame.Laid) :
    request.Safe g ↔ ∀ a : FieldAccess, a.OfRequest request g → ¬ a.Outgrown := by
  constructor
  · intro h a ha
    rw [← FieldAccess.strays_iff_outgrown (ha.laid hg)]
    exact h.not_strays a ha
  · intro h
    have hstrays (a : FieldAccess) (ha : a.OfRequest request g) : ¬ a.Strays := by
      rw [FieldAccess.strays_iff_outgrown (ha.laid hg)]
      exact h a ha
    refine ⟨fun hu => ?_, hstrays⟩
    obtain ⟨g', hu⟩ := stops_iff.2 hu
    obtain ⟨a, ha, hu, -⟩ := request.exists_underflows hg hu
    exact hstrays a ha (.inl hu)

/-- A function begins a frame of its own, in which no record is older than its type. -/
theorem Request.safe_function {f : FunctionDecl} {g : Generator} (hg : g.lowering.frame.Laid) :
    (Request.function f).Safe g :=
  (safe_iff hg).2 fun _ ha => FieldAccess.not_outgrown ha.sound_function

theorem Request.safe_program {p : Program} {g : Generator} (hg : g.lowering.frame.Laid) :
    (Request.program p).Safe g :=
  (safe_iff hg).2 fun _ ha => FieldAccess.not_outgrown ha.sound_program

/-- A field without a slot can be asked for. -/
theorem Request.not_safe_field {name part typeName : String} {offset slots index : Nat}
    {decl : RecordDecl} {g : Generator} (hg : g.lowering.frame.Laid)
    (hv : g.lowering.frame.vars.find? name = some ⟨offset, .record typeName slots⟩)
    (hd : g.declarations.types.find? typeName = some decl)
    (hx : decl.fieldIndex? part = some index) (hle : slots ≤ index) :
    ¬ (Request.expr (.field name part)).Safe g := by
  let a : FieldAccess := ⟨g.declarations, name, part, g.lowering⟩
  intro hsafe
  exact (safe_iff hg).1 hsafe a (.expr rfl .field) ⟨_, _, _, _, _, hv, hd, hx, hle⟩

namespace Generator

/-- None of the requests, made one after another, repeats a type. -/
def Unrepeated (g : Generator) : List Request → Prop
  | [] => True
  | request :: requests =>
    ¬ request.Repeats g ∧ (outcome request.action g).2.Unrepeated requests

theorem sound_after {requests : List Request} {g : Generator} (hr : g.Unrepeated requests)
    (h : g.lowering.frame.Sound g.declarations) :
    (g.after requests).lowering.frame.Sound (g.after requests).declarations := by
  induction requests generalizing g with
  | nil => exact h
  | cons request requests ih => exact ih hr.2 (request.sound_outcome hr.1 h)

theorem sound_new (limits : Limits) (sink : Sink) :
    (Generator.new limits sink).lowering.frame.Sound (Generator.new limits sink).declarations :=
  ⟨⟨rfl, rfl, .nil⟩, by simp [Generator.new]⟩

/-- After any history a request is safe unless it comes to a field that its record has no slot for.
Functions and programs are always safe, and so is everything else as long as no type was declared
twice. -/
theorem safe_after (limits : Limits) (sink : Sink) (requests : List Request) :
    let g := (Generator.new limits sink).after requests
    (∀ request : Request, request.Safe g ↔
      ∀ a : FieldAccess, a.OfRequest request g → ¬ a.Outgrown) ∧
    (∀ f, (Request.function f).Safe g) ∧ (∀ p, (Request.program p).Safe g) ∧
    ((Generator.new limits sink).Unrepeated requests → ∀ request : Request, request.Safe g) := by
  intro g
  have hlaid : g.lowering.frame.Laid := (orderly_after limits sink requests).laid
  refine ⟨fun _ => Request.safe_iff hlaid, fun _ => Request.safe_function hlaid,
    fun _ => Request.safe_program hlaid, fun hr request => ?_⟩
  have hsound : g.lowering.frame.Sound g.declarations :=
    sound_after hr (sound_new limits sink)
  exact (Request.safe_iff hlaid).2 fun a ha => FieldAccess.not_outgrown (ha.sound hsound)

/-- A function with a record, and then the type of the record with other fields. -/
def repeating (body : List Stmt) (fields : List String) : Generator :=
  (Generator.new {} {}).after [
    .program {
      types := [⟨"T", ["a"]⟩]
      functions := [⟨"main", [], body ++ [.declareRecord "r" "T"]⟩] },
    .program { types := [⟨"T", fields⟩] }]

/-- A field of the repeated type gets the slot of another variable, or falls below zero. -/
theorem repeating_unsafe :
    (let g := repeating [.declare "x" (.int 1)] ["a", "b"];
      ¬ (Request.expr (.field "r" "b")).Safe g ∧
      (outcome (Generate.expr (.field "r" "b")) g).1 = .ok () ∧
      Runs (Lower.fieldSlot g.declarations "r" "b") g.lowering wordSize g.lowering ∧
      SlotAt g.lowering.frame.vars "x" 0 wordSize) ∧
    (let g := repeating [] ["a", "b", "c"];
      ¬ (Request.expr (.field "r" "c")).Safe g ∧
      (outcome (Generate.expr (.field "r" "c")) g).1 = .error .underflow) := by
  constructor
  · have hg : (repeating [.declare "x" (.int 1)] ["a", "b"]).Orderly := orderly_after _ _ _
    have hr : (repeating [.declare "x" (.int 1)] ["a", "b"]).lowering.frame.vars.find? "r" =
        some ⟨16, .record "T" 1⟩ := by decide +kernel
    have hx : (repeating [.declare "x" (.int 1)] ["a", "b"]).lowering.frame.vars.find? "x" =
        some ⟨8, .scalar⟩ := by decide +kernel
    have ht : (repeating [.declare "x" (.int 1)] ["a", "b"]).declarations.types.find? "T" =
        some ⟨"T", ["a", "b"]⟩ := by decide +kernel
    have hb : (RecordDecl.mk "T" ["a", "b"]).fieldIndex? "b" = some 1 := by decide
    have hok : (outcome (Generate.expr (.field "r" "b"))
        (repeating [.declare "x" (.int 1)] ["a", "b"])).1 = .ok () := by decide +kernel
    generalize repeating [.declare "x" (.int 1)] ["a", "b"] = g at hg hr hx ht hok ⊢
    refine ⟨?_, hok, ?_, _, hx, by decide, rfl⟩
    · exact Request.not_safe_field hg.laid hr ht hb (by decide)
    · exact Lower.runs_fieldSlot.2 ⟨⟨_, _, _, _, 1, hr, ht, hb, by decide, rfl⟩, rfl⟩
  · have hu : (outcome (Generate.expr (.field "r" "c")) (repeating [] ["a", "b", "c"])).1 =
        .error .underflow := by decide +kernel
    exact ⟨fun hsafe => hsafe.no_underflow hu, hu⟩

end Generator

end WordLang
