import WordLang.Proofs.JsonText
import WordLang.Tree.Decode

/-!
# Reading back the text of a tree

The text of a tree is read as that tree if its brackets nest within the limit, and is refused if
they nest deeper. What a reader accepts, in whatever form it comes, has a text that is accepted
again: to write a tree out in full takes no more brackets than its reader was willing to open.
-/
namespace WordLang

namespace Json

variable {α β γ δ : Type}

@[simp]
theorem depth_ofText (text : String) : (ofText text).depth = 0 := by
  simp [ofText, depth]

@[simp]
theorem depth_tagged (tag : String) (v : Json) : (tagged tag v).depth = v.depth + 1 := by
  simp [tagged, depth, membersDepth]

theorem depth_record (members : List (String × Json)) :
    (record members).depth = itemsDepth (members.map Prod.snd) + 1 := by
  rw [record, depth]
  induction members with
  | nil => rfl
  | cons m ms ih => simp_all

theorem itemsDepth_le {items : List Json} {n : Nat} :
    itemsDepth items ≤ n ↔ ∀ v ∈ items, v.depth ≤ n := by
  induction items with
  | nil => simp [itemsDepth]
  | cons v items ih => rw [itemsDepth, Nat.max_le, ih, List.forall_mem_cons]

theorem depth_record_le {members : List (String × Json)} {n : Nat} :
    (record members).depth ≤ n + 1 ↔ ∀ m ∈ members, m.2.depth ≤ n := by
  rw [depth_record, Nat.add_le_add_iff_right, itemsDepth_le, List.forall_mem_map]

/-! ## Readers of records -/

/-- Reads a record of two parts, both of them present. -/
def pair? (a b : String) (f : Nat → Json → Option α) (g : Nat → Json → Option β)
    (make : α → β → δ) : Nat → Json → Option δ
  | 0, _ => none
  | depth + 1, v =>
    match v.parts? [a, b] with
    | some [some x, some y] => do return make (← f depth x) (← g depth y)
    | _ => none

/-- Reads a record of three parts, all of them present. -/
def triple? (a b c : String) (f : Nat → Json → Option α) (g : Nat → Json → Option β)
    (h : Nat → Json → Option γ) (make : α → β → γ → δ) : Nat → Json → Option δ
  | 0, _ => none
  | depth + 1, v =>
    match v.parts? [a, b, c] with
    | some [some x, some y, some z] => do return make (← f depth x) (← g depth y) (← h depth z)
    | _ => none

end Json

open Json

namespace Expr

theorem listToJson_eq (es : List Expr) : listToJson es = es.map toJson := by
  induction es with
  | nil => rfl
  | cons e es ih => rw [listToJson, ih, List.map_cons]

theorem listOfJson?_eq : listOfJson? = list? ofJson? := by
  funext n v
  cases n <;> cases v <;> simp [listOfJson?, list?]

theorem binaryOfJson?_eq :
    binaryOfJson? = triple? "op" "lhs" "rhs" BinaryOp.ofJson? ofJson? ofJson? .binary := by
  funext n v
  cases n <;> rfl

theorem compareOfJson?_eq :
    compareOfJson? = triple? "op" "lhs" "rhs" CompareOp.ofJson? ofJson? ofJson? .compare := by
  funext n v
  cases n <;> rfl

theorem callOfJson?_eq :
    callOfJson? = pair? "name" "args" (fun _ => text?) (list? ofJson?) .call := by
  rw [← listOfJson?_eq]
  funext n v
  cases n <;> rfl

theorem fieldOfJson?_eq :
    fieldOfJson? = pair? "name" "field" (fun _ => text?) (fun _ => text?) .field := by
  funext n v
  cases n <;> rfl

end Expr

namespace Stmt

theorem listToJson_eq (ss : List Stmt) : listToJson ss = ss.map toJson := by
  induction ss with
  | nil => rfl
  | cons s ss ih => rw [listToJson, ih, List.map_cons]

theorem listOfJson?_eq : listOfJson? = list? ofJson? := by
  funext n v
  cases n <;> cases v <;> simp [listOfJson?, list?]

theorem declareOfJson?_eq :
    declareOfJson? = pair? "name" "value" (fun _ => text?) Expr.ofJson? .declare := by
  funext n v
  cases n <;> rfl

theorem declareRecordOfJson?_eq : declareRecordOfJson? =
    pair? "name" "type_name" (fun _ => text?) (fun _ => text?) .declareRecord := by
  funext n v
  cases n <;> rfl

theorem setOfJson?_eq : setOfJson? = pair? "name" "value" (fun _ => text?) Expr.ofJson? .set := by
  funext n v
  cases n <;> rfl

theorem setFieldOfJson?_eq : setFieldOfJson? =
    triple? "name" "field" "value" (fun _ => text?) (fun _ => text?) Expr.ofJson? .setField := by
  funext n v
  cases n <;> rfl

theorem loopOfJson?_eq :
    loopOfJson? = pair? "cond" "body" Expr.ofJson? (list? ofJson?) .loop := by
  rw [← listOfJson?_eq]
  funext n v
  cases n <;> rfl

end Stmt

theorem RecordDecl.ofJson?_eq :
    RecordDecl.ofJson? = pair? "name" "fields" (fun _ => text?) texts? .mk := by
  funext n v
  cases n <;> rfl

/-! ## Reading what was written -/

namespace Json

variable {α β γ δ : Type} {read : Nat → Json → Option α} {write : α → Json}

/-- `read` takes `v` for `t` where as many brackets may be opened as `v` is deep, and refuses it
otherwise. -/
def ReadsAs (read : Nat → Json → Option α) (v : Json) (t : α) : Prop :=
  ∀ n, read n v = if v.depth ≤ n then some t else none

theorem bind_ite {P : Prop} [Decidable P] {a : α} {f : α → Option β} :
    (if P then some a else none).bind f = if P then f a else none := by
  split <;> rfl

theorem readsAs_ofText (text : String) : ReadsAs (fun _ => text?) (ofText text) text := by
  intro n
  simp [ofText, text?, depth]

theorem readsAs_word (i : Int64) : ReadsAs (fun _ => word?) (int i.toInt) i := by
  intro n
  have hrange : Int64.minValue.toInt ≤ i.toInt ∧ i.toInt ≤ Int64.maxValue.toInt :=
    ⟨Int64.minValue_le_toInt i, Int64.toInt_le i⟩
  simp only [word?, if_pos hrange, Int64.ofInt_toInt, depth, Nat.zero_le, if_true]

theorem ReadsAs.map {v : Json} {t : α} (h : ReadsAs read v t) (f : α → β) :
    ReadsAs (fun n v => f <$> read n v) v (f t) := by
  intro n
  simp only [h n]
  split <;> rfl

theorem ReadsAs.list {ts : List α} (h : ∀ t ∈ ts, ReadsAs read (write t) t) :
    ReadsAs (list? read) (.arr (ts.map write)) ts := by
  have hitems (n : Nat) : (ts.map write).mapM (read n) =
      if itemsDepth (ts.map write) ≤ n then some ts else none := by
    induction ts with
    | nil => simp [itemsDepth]
    | cons t ts ih =>
      rw [List.forall_mem_cons] at h
      rw [List.map_cons, List.mapM_cons, h.1 n, ih h.2]
      simp only [Option.bind_eq_bind, bind_ite, itemsDepth_cons, Nat.max_le, ite_and,
        Option.pure_def]
  intro n
  cases n with
  | zero => simp [list?, depth]
  | succ n => simp [list?, depth, hitems]

theorem readsAs_ofTexts (texts : List String) : ReadsAs texts? (ofTexts texts) texts :=
  ReadsAs.list fun text _ => readsAs_ofText text

/-- A node is read as its tag says. -/
theorem ReadsAs.tagged {f : Nat → Json → Option α} {tag : String} {v : Json} {t : α}
    (h : ReadsAs f v t) (hzero : read 0 (.tagged tag v) = none)
    (hsucc : ∀ n, read (n + 1) (.tagged tag v) = f n v) : ReadsAs read (.tagged tag v) t := by
  intro n
  cases n with
  | zero => simp [hzero]
  | succ n => simp [hsucc, h n]

theorem ReadsAs.record {members : List (String × Json)} {t : α}
    (hzero : read 0 (.record members) = none)
    (hsucc : ∀ n, read (n + 1) (.record members) =
      if ∀ m ∈ members, m.2.depth ≤ n then some t else none) :
    ReadsAs read (.record members) t := by
  intro n
  cases n with
  | zero => simp [hzero, depth_record]
  | succ n => simp only [hsucc, depth_record_le]

section Parts

variable {f : Nat → Json → Option α} {g : Nat → Json → Option β} {h : Nat → Json → Option γ}
variable {a b c : String} {x y z : Json} {r : α} {s : β} {t : γ}

theorem ReadsAs.pair (hab : a ≠ b) (hx : ReadsAs f x r) (hy : ReadsAs g y s)
    (make : α → β → δ) : ReadsAs (pair? a b f g make) (.record [(a, x), (b, y)]) (make r s) := by
  refine ReadsAs.record (by simp [pair?]) fun n => ?_
  simp [pair?, Json.record, parts?, Table.find?, hab, hab.symm, hx n, hy n, bind_ite, ite_and]

theorem ReadsAs.triple (hab : a ≠ b) (hac : a ≠ c) (hbc : b ≠ c) (hx : ReadsAs f x r)
    (hy : ReadsAs g y s) (hz : ReadsAs h z t) (make : α → β → γ → δ) :
    ReadsAs (triple? a b c f g h make) (.record [(a, x), (b, y), (c, z)]) (make r s t) := by
  refine ReadsAs.record (by simp [triple?]) fun n => ?_
  simp [triple?, Json.record, parts?, Table.find?, hab, hab.symm, hac, hac.symm, hbc, hbc.symm,
    hx n, hy n, hz n, bind_ite, ite_and]

end Parts

end Json

theorem BinaryOp.readsAs (op : BinaryOp) : ReadsAs ofJson? op.toJson op := by
  intro n
  cases op <;> simp [ofJson?, toJson, name, ofText, bareName?, ofName?, depth]

theorem CompareOp.readsAs (op : CompareOp) : ReadsAs ofJson? op.toJson op := by
  intro n
  cases op <;> simp [ofJson?, toJson, name, ofText, bareName?, ofName?, depth]

namespace Expr

/-- An expression is read as its tag says. -/
theorem readsAs_tagged {f : Nat → Json → Option Expr} {tag : String} {v : Json} {e : Expr}
    (h : ReadsAs f v e) (htag : ∀ n, ofJson? (n + 1) (tagged tag v) = f n v) :
    ReadsAs ofJson? (tagged tag v) e :=
  h.tagged (by simp [ofJson?]) htag

mutual

/-- The JSON form of an expression is read as that expression. -/
theorem readsAs : (e : Expr) → ReadsAs ofJson? e.toJson e
  | .int i => by
    rw [toJson]
    exact readsAs_tagged ((readsAs_word i).map Expr.int) fun n => by simp [ofJson?, tagged]
  | .str text => by
    rw [toJson]
    exact readsAs_tagged ((readsAs_ofText text).map Expr.str) fun n => by simp [ofJson?, tagged]
  | .ident name => by
    rw [toJson]
    exact readsAs_tagged ((readsAs_ofText name).map Expr.ident) fun n => by simp [ofJson?, tagged]
  | .binary op a b => by
    rw [toJson]
    refine readsAs_tagged (f := binaryOfJson?) ?_ fun n => by simp [ofJson?, tagged]
    rw [binaryOfJson?_eq]
    exact .triple (by decide) (by decide) (by decide) op.readsAs a.readsAs b.readsAs _
  | .compare op a b => by
    rw [toJson]
    refine readsAs_tagged (f := compareOfJson?) ?_ fun n => by simp [ofJson?, tagged]
    rw [compareOfJson?_eq]
    exact .triple (by decide) (by decide) (by decide) op.readsAs a.readsAs b.readsAs _
  | .call name args => by
    rw [toJson, listToJson_eq]
    refine readsAs_tagged (f := callOfJson?) ?_ fun n => by simp [ofJson?, tagged]
    rw [callOfJson?_eq]
    exact .pair (by decide) (readsAs_ofText name) (.list (readsAs_of_mem args)) _
  | .field name part => by
    rw [toJson]
    refine readsAs_tagged (f := fieldOfJson?) ?_ fun n => by simp [ofJson?, tagged]
    rw [fieldOfJson?_eq]
    exact .pair (by decide) (readsAs_ofText name) (readsAs_ofText part) _

theorem readsAs_of_mem : (es : List Expr) → ∀ e ∈ es, ReadsAs ofJson? e.toJson e
  | [], _, h => by cases h
  | e :: es, _, h => by
    cases h with
    | head => exact e.readsAs
    | tail _ h => exact readsAs_of_mem es _ h

end

end Expr

namespace Stmt

/-- A statement with parts is read as its tag says. -/
theorem readsAs_tagged {f : Nat → Json → Option Stmt} {tag : String} {v : Json} {s : Stmt}
    (h : ReadsAs f v s) (htag : ∀ n, ofJson? (n + 1) (tagged tag v) = f n v) :
    ReadsAs ofJson? (tagged tag v) s :=
  h.tagged (by simp [ofJson?, tagged]) htag

theorem readsAs_ret (value : Option Expr) : ReadsAs ofJson? (toJson (.ret value)) (.ret value) := by
  cases value with
  | none =>
    rw [toJson]
    refine readsAs_tagged (f := retOfJson?) (fun n => ?_) fun n => by simp [ofJson?, tagged]
    simp [retOfJson?, depth]
  | some value =>
    rw [toJson]
    refine readsAs_tagged (f := retOfJson?) (fun n => ?_) fun n => by simp [ofJson?, tagged]
    have hvalue : retOfJson? n value.toJson = (.ret ∘ some) <$> Expr.ofJson? n value.toJson := by
      cases value <;> simp [Expr.toJson, tagged, retOfJson?]
    rw [hvalue]
    exact value.readsAs.map (Stmt.ret ∘ some) n

theorem readsAs_branch (cond : Expr) {thenBody elseBody : List Stmt}
    (hthen : ∀ s ∈ thenBody, ReadsAs ofJson? s.toJson s)
    (helse : ∀ s ∈ elseBody, ReadsAs ofJson? s.toJson s) :
    ReadsAs ofJson? (toJson (.branch cond thenBody elseBody)) (.branch cond thenBody elseBody) := by
  have hthen := ReadsAs.list hthen
  have helse := ReadsAs.list helse
  rw [toJson, listToJson_eq, listToJson_eq]
  refine readsAs_tagged (f := branchOfJson?) ?_ fun n => by simp [ofJson?, tagged]
  refine .record (by simp [branchOfJson?]) fun n => ?_
  simp [branchOfJson?, listOfJson?_eq, record, parts?, Table.find?, cond.readsAs n, hthen n,
    helse n, bind_ite, ite_and]

mutual

/-- The JSON form of a statement is read as that statement. -/
theorem readsAs : (s : Stmt) → ReadsAs ofJson? s.toJson s
  | .declare name value => by
    rw [toJson]
    refine readsAs_tagged (f := declareOfJson?) ?_ fun n => by simp [ofJson?, tagged]
    rw [declareOfJson?_eq]
    exact .pair (by decide) (readsAs_ofText name) value.readsAs _
  | .declareRecord name typeName => by
    rw [toJson]
    refine readsAs_tagged (f := declareRecordOfJson?) ?_ fun n => by simp [ofJson?, tagged]
    rw [declareRecordOfJson?_eq]
    exact .pair (by decide) (readsAs_ofText name) (readsAs_ofText typeName) _
  | .set name value => by
    rw [toJson]
    refine readsAs_tagged (f := setOfJson?) ?_ fun n => by simp [ofJson?, tagged]
    rw [setOfJson?_eq]
    exact .pair (by decide) (readsAs_ofText name) value.readsAs _
  | .setField name field value => by
    rw [toJson]
    refine readsAs_tagged (f := setFieldOfJson?) ?_ fun n => by simp [ofJson?, tagged]
    rw [setFieldOfJson?_eq]
    exact .triple (by decide) (by decide) (by decide) (readsAs_ofText name) (readsAs_ofText field)
      value.readsAs _
  | .ret value => readsAs_ret value
  | .branch cond thenBody elseBody =>
    readsAs_branch cond (readsAs_of_mem thenBody) (readsAs_of_mem elseBody)
  | .loop cond body => by
    rw [toJson, listToJson_eq]
    refine readsAs_tagged (f := loopOfJson?) ?_ fun n => by simp [ofJson?, tagged]
    rw [loopOfJson?_eq]
    exact .pair (by decide) cond.readsAs (.list (readsAs_of_mem body)) _
  | .print value => by
    rw [toJson]
    exact readsAs_tagged (value.readsAs.map Stmt.print) fun n => by simp [ofJson?, tagged]
  | .eval value => by
    rw [toJson]
    exact readsAs_tagged (value.readsAs.map Stmt.eval) fun n => by simp [ofJson?, tagged]
  | .leave | .again => by
    intro n
    cases n <;> simp [toJson, ofText, ofJson?, bareOfName?, depth]

theorem readsAs_of_mem : (ss : List Stmt) → ∀ s ∈ ss, ReadsAs ofJson? s.toJson s
  | [], _, h => by cases h
  | s :: ss, _, h => by
    cases h with
    | head => exact s.readsAs
    | tail _ h => exact readsAs_of_mem ss _ h

end

end Stmt

theorem FunctionDecl.readsAs (f : FunctionDecl) : ReadsAs ofJson? f.toJson f := by
  have hbody := ReadsAs.list (Stmt.readsAs_of_mem f.body)
  rw [toJson, Stmt.listToJson_eq]
  refine .record (by simp [ofJson?]) fun n => ?_
  simp [ofJson?, Stmt.listOfJson?_eq, record, parts?, Table.find?, readsAs_ofText f.name n,
    readsAs_ofTexts f.params n, hbody n, bind_ite, ite_and]

theorem RecordDecl.readsAs (decl : RecordDecl) : ReadsAs ofJson? decl.toJson decl := by
  rw [ofJson?_eq]
  exact .pair (by decide) (readsAs_ofText decl.name) (readsAs_ofTexts decl.fields) _

theorem Program.readsAs (p : Program) : ReadsAs ofJson? p.toJson p := by
  have htypes := ReadsAs.list fun decl (_ : decl ∈ p.types) => decl.readsAs
  have hfunctions := ReadsAs.list fun f (_ : f ∈ p.functions) => f.readsAs
  refine .record (by simp [ofJson?]) fun n => ?_
  simp [ofJson?, record, parts?, Table.find?, htypes n, hfunctions n, bind_ite, ite_and]

/-! ## Room for what was read -/

namespace Json

variable {α β γ δ : Type} {n : Nat}

/-- What `read` accepts where `n` brackets may be opened is written with at most `n` brackets open
at once. -/
def Fits (read : Nat → Json → Option α) (write : α → Json) (n : Nat) : Prop :=
  ∀ ⦃v t⦄, read n v = some t → (write t).depth ≤ n

theorem fits_text : Fits (fun _ => text?) ofText n := fun _ _ _ => by simp

variable {f : Nat → Json → Option α} {g : Nat → Json → Option β} {h : Nat → Json → Option γ}
variable {writeF : α → Json} {writeG : β → Json} {writeH : γ → Json} {a b c : String} {v : Json}

theorem depth_le_of_mapM (hf : Fits f writeF n) {items : List Json} {ts : List α}
    (h : items.mapM (f n) = some ts) : ∀ t ∈ ts, (writeF t).depth ≤ n := by
  induction items generalizing ts with
  | nil => simp_all
  | cons v items ih =>
    simp only [List.mapM_cons, Option.bind_eq_bind, Option.bind_eq_some_iff, Option.pure_def,
      Option.some.injEq] at h
    obtain ⟨t, ht, ts, hts, rfl⟩ := h
    exact List.forall_mem_cons.2 ⟨hf ht, ih hts⟩

theorem Fits.list (hf : ∀ m < n, Fits f writeF m) :
    Fits (list? f) (fun ts => .arr (ts.map writeF)) n := by
  intro v ts hts
  unfold list? at hts
  split at hts
  · have hall := depth_le_of_mapM (hf _ (Nat.lt_succ_self _)) hts
    simpa [depth, itemsDepth_le] using hall
  · cases hts

theorem fits_texts : Fits texts? ofTexts n :=
  Fits.list fun _ _ => fits_text

/-- An absent list is written as an empty one, which takes one bracket. -/
theorem Fits.optional (hf : ∀ m < n, Fits f writeF m) (hn : 1 ≤ n) {v : Option Json} {ts : List α}
    (h : v.elim (some []) (list? f n) = some ts) : (arr (ts.map writeF)).depth ≤ n := by
  cases v with
  | none =>
    cases h
    simpa [depth, itemsDepth] using hn
  | some v => exact Fits.list hf h

theorem Fits.pair (hf : ∀ m < n, Fits f writeF m) (hg : ∀ m < n, Fits g writeG m)
    {make : α → β → δ} {u : δ} (h : pair? a b f g make n v = some u) :
    ∃ r s, u = make r s ∧ (record [(a, writeF r), (b, writeG s)]).depth ≤ n := by
  unfold pair? at h
  split at h
  · cases h
  · split at h
    · simp only [Option.pure_def, Option.bind_eq_bind, Option.bind_eq_some_iff,
        Option.some.injEq] at h
      obtain ⟨r, hr, s, hs, rfl⟩ := h
      have hr := hf _ (Nat.lt_succ_self _) hr
      have hs := hg _ (Nat.lt_succ_self _) hs
      exact ⟨r, s, rfl, by simp [depth_record_le, hr, hs]⟩
    · cases h

theorem Fits.triple (hf : ∀ m < n, Fits f writeF m) (hg : ∀ m < n, Fits g writeG m)
    (hh : ∀ m < n, Fits h writeH m) {make : α → β → γ → δ} {u : δ}
    (hu : triple? a b c f g h make n v = some u) :
    ∃ r s t, u = make r s t ∧
      (record [(a, writeF r), (b, writeG s), (c, writeH t)]).depth ≤ n := by
  unfold triple? at hu
  split at hu
  · cases hu
  · split at hu
    · simp only [Option.pure_def, Option.bind_eq_bind, Option.bind_eq_some_iff,
        Option.some.injEq] at hu
      obtain ⟨r, hr, s, hs, t, ht, rfl⟩ := hu
      have hr := hf _ (Nat.lt_succ_self _) hr
      have hs := hg _ (Nat.lt_succ_self _) hs
      have ht := hh _ (Nat.lt_succ_self _) ht
      exact ⟨r, s, t, rfl, by simp [depth_record_le, hr, hs, ht]⟩
    · cases hu

end Json

theorem BinaryOp.fits (n : Nat) : Fits ofJson? toJson n := fun _ _ _ => by simp [toJson]

theorem CompareOp.fits (n : Nat) : Fits ofJson? toJson n := fun _ _ _ => by simp [toJson]

/-- Writing an expression takes no more brackets than its reader may open. -/
theorem Expr.fits (n : Nat) : Fits ofJson? toJson n := by
  induction n using Nat.strong_induction_on with
  | _ n ih =>
    intro v e he
    unfold ofJson? at he
    split at he
    · rename_i depth _ _
      have h : ∀ m < depth, Fits ofJson? toJson m := fun m hm => ih m (by omega)
      split at he
      · obtain ⟨i, -, rfl⟩ := Option.map_eq_some_iff.1 he
        simp [toJson, Json.depth]
      · obtain ⟨text, -, rfl⟩ := Option.map_eq_some_iff.1 he
        simp [toJson]
      · obtain ⟨name, -, rfl⟩ := Option.map_eq_some_iff.1 he
        simp [toJson]
      · rw [binaryOfJson?_eq] at he
        obtain ⟨op, a, b, rfl, hle⟩ := Fits.triple (fun m _ => BinaryOp.fits m) h h he
        simpa [toJson] using hle
      · rw [compareOfJson?_eq] at he
        obtain ⟨op, a, b, rfl, hle⟩ := Fits.triple (fun m _ => CompareOp.fits m) h h he
        simpa [toJson] using hle
      · rw [callOfJson?_eq] at he
        have hargs (m : Nat) (hm : m < depth) := Fits.list fun l hl => h l (hl.trans hm)
        obtain ⟨name, args, rfl, hle⟩ := Fits.pair (fun _ _ => fits_text) hargs he
        simpa [toJson, listToJson_eq] using hle
      · rw [fieldOfJson?_eq] at he
        obtain ⟨name, part, rfl, hle⟩ := Fits.pair (fun _ _ => fits_text) (fun _ _ => fits_text) he
        simpa [toJson] using hle
      · cases he
    · cases he

namespace Stmt

variable {n : Nat} {v : Json} {s : Stmt}

theorem fits_ret (h : retOfJson? n v = some s) : s.toJson.depth ≤ n + 1 := by
  unfold retOfJson? at h
  split at h
  · cases h
    simp [toJson, depth]
  · obtain ⟨value, hvalue, rfl⟩ := Option.map_eq_some_iff.1 h
    simpa [toJson] using Expr.fits n hvalue

theorem fits_bare {name : String} (h : bareOfName? name = some s) : s.toJson.depth ≤ n := by
  unfold bareOfName? at h
  split at h <;> cases h <;> simp [toJson]

/-- The second body of a branch is written also where it was absent. The first one is there, so that
there is room for it. -/
theorem fits_branch (h : ∀ m < n, Fits ofJson? toJson m) (hs : branchOfJson? n v = some s) :
    s.toJson.depth ≤ n + 1 := by
  cases n with
  | zero => simp [branchOfJson?] at hs
  | succ n =>
    have hbody : Fits (list? ofJson?) _ n := Fits.list fun m hm => h m (Nat.lt_succ_of_lt hm)
    simp only [branchOfJson?, listOfJson?_eq] at hs
    split at hs
    · simp only [Option.pure_def, Option.bind_eq_bind, Option.bind_eq_some_iff,
        Option.some.injEq] at hs
      obtain ⟨cond, hcond, thenBody, hthen, rfl⟩ := hs
      have hthen := hbody hthen
      have helse : (arr []).depth ≤ n := by
        simp only [depth, itemsDepth] at hthen ⊢
        omega
      simp [toJson, listToJson_eq, depth_record_le, Expr.fits n hcond, hthen, helse]
    · simp only [Option.pure_def, Option.bind_eq_bind, Option.bind_eq_some_iff,
        Option.some.injEq] at hs
      obtain ⟨cond, hcond, thenBody, hthen, elseBody, helse, rfl⟩ := hs
      simp [toJson, listToJson_eq, depth_record_le, Expr.fits n hcond, hbody hthen, hbody helse]
    · cases hs

/-- Writing a statement takes no more brackets than its reader may open. -/
theorem fits (n : Nat) : Fits ofJson? toJson n := by
  induction n using Nat.strong_induction_on with
  | _ n ih =>
    intro v s hs
    unfold ofJson? at hs
    split at hs
    · exact fits_bare hs
    · rename_i depth _ _
      have h : ∀ m < depth, Fits ofJson? toJson m := fun m hm => ih m (by omega)
      have hbody (m : Nat) (hm : m < depth) := Fits.list fun l hl => h l (hl.trans hm)
      split at hs
      · rw [declareOfJson?_eq] at hs
        obtain ⟨name, value, rfl, hle⟩ :=
          Fits.pair (fun _ _ => fits_text) (fun m _ => Expr.fits m) hs
        simpa [toJson] using hle
      · rw [declareRecordOfJson?_eq] at hs
        obtain ⟨name, typeName, rfl, hle⟩ :=
          Fits.pair (fun _ _ => fits_text) (fun _ _ => fits_text) hs
        simpa [toJson] using hle
      · rw [setOfJson?_eq] at hs
        obtain ⟨name, value, rfl, hle⟩ :=
          Fits.pair (fun _ _ => fits_text) (fun m _ => Expr.fits m) hs
        simpa [toJson] using hle
      · rw [setFieldOfJson?_eq] at hs
        obtain ⟨name, field, value, rfl, hle⟩ :=
          Fits.triple (fun _ _ => fits_text) (fun _ _ => fits_text) (fun m _ => Expr.fits m) hs
        simpa [toJson] using hle
      · exact fits_ret hs
      · exact fits_branch h hs
      · rw [loopOfJson?_eq] at hs
        obtain ⟨cond, body, rfl, hle⟩ := Fits.pair (fun m _ => Expr.fits m) hbody hs
        simpa [toJson, listToJson_eq] using hle
      · obtain ⟨value, hvalue, rfl⟩ := Option.map_eq_some_iff.1 hs
        simpa [toJson] using Expr.fits depth hvalue
      · obtain ⟨value, hvalue, rfl⟩ := Option.map_eq_some_iff.1 hs
        simpa [toJson] using Expr.fits depth hvalue
      · split at hs
        · exact fits_bare hs
        · cases hs
    · cases hs

end Stmt

theorem FunctionDecl.fits (n : Nat) : Fits ofJson? toJson n := by
  intro v f hf
  cases n with
  | zero => simp [ofJson?] at hf
  | succ n =>
    simp only [ofJson?, Stmt.listOfJson?_eq] at hf
    split at hf
    · simp only [Option.pure_def, Option.bind_eq_bind, Option.bind_eq_some_iff,
        Option.some.injEq] at hf
      obtain ⟨name, -, params, hparams, body, hbody, rfl⟩ := hf
      have hbody := Fits.list (fun m _ => Stmt.fits m) hbody
      -- The body is there, so that there is room for the parameters where they were absent.
      have hroom : 1 ≤ n := by
        rw [depth] at hbody
        omega
      have hparams : (ofTexts params).depth ≤ n :=
        Fits.optional (f := fun _ => text?) (fun _ _ => fits_text) hroom hparams
      simp [toJson, Stmt.listToJson_eq, depth_record_le, hparams, hbody]
    · cases hf

theorem RecordDecl.fits (n : Nat) : Fits ofJson? toJson n := by
  intro v decl hdecl
  rw [ofJson?_eq] at hdecl
  obtain ⟨name, fields, rfl, hle⟩ := Fits.pair (fun _ _ => fits_text) (fun _ _ => fits_texts) hdecl
  exact hle

/-- Both lists of a program may be absent, and take two brackets when written. -/
theorem Program.fits {n : Nat} (hn : 2 ≤ n) : Fits ofJson? toJson n := by
  intro v p hp
  cases n with
  | zero => simp [ofJson?] at hp
  | succ n =>
    simp only [ofJson?] at hp
    split at hp
    · simp only [Option.pure_def, Option.bind_eq_bind, Option.bind_eq_some_iff,
        Option.some.injEq] at hp
      obtain ⟨types, htypes, functions, hfunctions, rfl⟩ := hp
      have hroom : 1 ≤ n := by omega
      have htypes := Fits.optional (fun m _ => RecordDecl.fits m) hroom htypes
      have hfunctions := Fits.optional (fun m _ => FunctionDecl.fits m) hroom hfunctions
      simp [toJson, depth_record_le, htypes, hfunctions]
    · cases hp

/-! ## Trees of every kind -/

namespace Json

@[simp]
theorem isPlain_null : null.IsPlain := by simp [IsPlain, tokens, Token.IsPlain]

@[simp]
theorem isPlain_int (i : Int) : (int i).IsPlain := by simp [IsPlain, tokens, Token.IsPlain]

@[simp]
theorem isPlain_ofText (text : String) : (ofText text).IsPlain := by
  simp [ofText, IsPlain, tokens, Token.IsPlain]

@[simp]
theorem isPlain_tagged {tag : String} {v : Json} : (tagged tag v).IsPlain ↔ v.IsPlain := by
  simp [tagged, isPlain_obj]

@[simp]
theorem isPlain_record {members : List (String × Json)} :
    (record members).IsPlain ↔ ∀ m ∈ members, m.2.IsPlain := by
  rw [record, isPlain_obj, List.forall_mem_map]

@[simp]
theorem isPlain_ofTexts (texts : List String) : (ofTexts texts).IsPlain := by
  simp [ofTexts, isPlain_arr]

end Json

mutual

theorem Expr.isPlain : (e : Expr) → e.toJson.IsPlain
  | .int _ | .str _ | .ident _ | .field _ _ => by simp [toJson]
  | .binary _ a b => by simp [toJson, BinaryOp.toJson, a.isPlain, b.isPlain]
  | .compare _ a b => by simp [toJson, CompareOp.toJson, a.isPlain, b.isPlain]
  | .call _ args => by simpa [toJson, listToJson_eq, isPlain_arr] using Expr.isPlain_of_mem args

theorem Expr.isPlain_of_mem : (es : List Expr) → ∀ e ∈ es, e.toJson.IsPlain
  | [], _, h => by cases h
  | e :: es, _, h => by
    cases h with
    | head => exact e.isPlain
    | tail _ h => exact isPlain_of_mem es _ h

end

mutual

theorem Stmt.isPlain : (s : Stmt) → s.toJson.IsPlain
  | .declareRecord _ _ | .ret none | .leave | .again => by simp [toJson]
  | .declare _ value | .set _ value | .setField _ _ value | .ret (some value) | .print value
  | .eval value => by
    simp [toJson, value.isPlain]
  | .branch cond thenBody elseBody => by
    have hthen := Stmt.isPlain_of_mem thenBody
    have helse := Stmt.isPlain_of_mem elseBody
    simpa [toJson, listToJson_eq, isPlain_arr, cond.isPlain] using ⟨hthen, helse⟩
  | .loop cond body => by
    simpa [toJson, listToJson_eq, isPlain_arr, cond.isPlain] using Stmt.isPlain_of_mem body

theorem Stmt.isPlain_of_mem : (ss : List Stmt) → ∀ s ∈ ss, s.toJson.IsPlain
  | [], _, h => by cases h
  | s :: ss, _, h => by
    cases h with
    | head => exact s.isPlain
    | tail _ h => exact isPlain_of_mem ss _ h

end

theorem FunctionDecl.isPlain (f : FunctionDecl) : f.toJson.IsPlain := by
  simpa [toJson, Stmt.listToJson_eq, isPlain_arr] using Stmt.isPlain_of_mem f.body

theorem RecordDecl.isPlain (decl : RecordDecl) : decl.toJson.IsPlain := by
  simp [toJson]

theorem Program.isPlain (p : Program) : p.toJson.IsPlain := by
  simp [toJson, isPlain_arr, RecordDecl.isPlain, FunctionDecl.isPlain]

namespace Tree

/-- A kind of tree whose reader and writer belong together. -/
class Lawful (α : Type) [Tree α] : Prop where
  isPlain (t : α) : (toJson t).IsPlain
  readsAs (t : α) : ReadsAs ofJson? (toJson t) t
  fits : Fits ofJson? (toJson : α → Json) nestingLimit

instance : Lawful Program :=
  ⟨Program.isPlain, Program.readsAs, Program.fits (by decide)⟩

instance : Lawful FunctionDecl :=
  ⟨FunctionDecl.isPlain, FunctionDecl.readsAs, FunctionDecl.fits _⟩

instance : Lawful RecordDecl :=
  ⟨RecordDecl.isPlain, RecordDecl.readsAs, RecordDecl.fits _⟩

instance : Lawful Stmt := ⟨Stmt.isPlain, Stmt.readsAs, Stmt.fits _⟩

instance : Lawful Expr := ⟨Expr.isPlain, Expr.readsAs, Expr.fits _⟩

instance : Lawful BinaryOp := ⟨fun _ => isPlain_ofText _, BinaryOp.readsAs, BinaryOp.fits _⟩

instance : Lawful CompareOp := ⟨fun _ => isPlain_ofText _, CompareOp.readsAs, CompareOp.fits _⟩

variable (α : Type) [Tree α]

/-- The text of a tree is read as that tree if it nests within the limit, and is refused
otherwise. -/
def RoundTrips : Prop :=
  ∀ t : α, decode? (encode t) = if nesting (encode t) ≤ nestingLimit then some t else none

/-- Whatever text a tree was read from, its own text is read as the same tree, and so is written
again as it is. -/
def Normalizes : Prop :=
  ∀ (text : String) (t : α), decode? text = some t →
    decode? (encode t) = some t ∧ (decode? (encode t) : Option α).map encode = some (encode t) ∧
      nesting (encode t) ≤ nestingLimit

variable {α} [Lawful α]

theorem nesting_encode (t : α) : nesting (encode t) = (toJson t).depth :=
  nesting_compress (Lawful.isPlain t)

theorem decode?_encode (t : α) :
    decode? (encode t) = if nesting (encode t) ≤ nestingLimit then some t else none := by
  have hparse : parse? (encode t) = some (toJson t) := parse?_compress (Lawful.isPlain t)
  rw [decode?, hparse, nesting_encode]
  exact Lawful.readsAs t nestingLimit

theorem nesting_encode_le {text : String} {t : α} (h : decode? text = some t) :
    nesting (encode t) ≤ nestingLimit := by
  obtain ⟨v, -, hread⟩ := Option.bind_eq_some_iff.1 h
  rw [nesting_encode]
  exact Lawful.fits hread

theorem normalizes : Normalizes α := by
  intro text t h
  have hle := nesting_encode_le h
  have hdecode : decode? (encode t) = some t := by rw [decode?_encode, if_pos hle]
  exact ⟨hdecode, by rw [hdecode, Option.map_some], hle⟩

/-- Every tree, of whatever kind and however deep, is read back from its text if the text has at
most 127 brackets open at once; and a text that nests deeper is refused. -/
theorem roundTrips_all : nestingLimit = 127 ∧ RoundTrips Program ∧ RoundTrips FunctionDecl ∧
    RoundTrips RecordDecl ∧ RoundTrips Stmt ∧ RoundTrips Expr ∧ RoundTrips BinaryOp ∧
    RoundTrips CompareOp :=
  ⟨rfl, decode?_encode, decode?_encode, decode?_encode, decode?_encode, decode?_encode,
    decode?_encode, decode?_encode⟩

/-- The text of a tree is a normal form of every text from which the tree can be read, for trees of
every kind. -/
theorem normalizes_all : Normalizes Program ∧ Normalizes FunctionDecl ∧ Normalizes RecordDecl ∧
    Normalizes Stmt ∧ Normalizes Expr ∧ Normalizes BinaryOp ∧ Normalizes CompareOp :=
  ⟨normalizes, normalizes, normalizes, normalizes, normalizes, normalizes, normalizes⟩

/-- A branch whose parts come as an array, the last of them absent, is written in full. -/
theorem normalizes_all_branch : ∃ (text : String) (s : Stmt),
    text = "\x7b\"If\": [\x7b\"Int\": 7\x7d, [\x7b\"Break\": null\x7d]]\x7d" ∧
    decode? text = some s ∧ encode s =
    "\x7b\"If\":\x7b\"cond\":\x7b\"Int\":7\x7d,\"then_body\":[\"Break\"],\"else_body\":[]\x7d\x7d" ∧
    decode? (encode s) = some s := by
  let text := "\x7b\"If\": [\x7b\"Int\": 7\x7d, [\x7b\"Break\": null\x7d]]\x7d"
  let normal :=
    "\x7b\"If\":\x7b\"cond\":\x7b\"Int\":7\x7d,\"then_body\":[\"Break\"],\"else_body\":[]\x7d\x7d"
  have hread : (decode? text : Option Stmt).map encode = some normal := by decide +kernel
  obtain ⟨s, hs, hencode⟩ := Option.map_eq_some_iff.1 hread
  exact ⟨text, s, rfl, hs, hencode, (normalizes_all.2.2.2.1 text s hs).1⟩

end Tree

end WordLang
