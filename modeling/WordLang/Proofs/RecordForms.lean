import Mathlib.Data.List.Forall2
import Mathlib.Data.List.Perm.Basic
import WordLang.Proofs.JsonContainers
import WordLang.Tree.Decode

/-!
# Forms of a record

The parts of a node may come as an array or as an object. A reader looks at nothing but the parts
that it is handed, and it is handed the same parts whether they come as an array in the fixed order
or as an object in any order, with other members anywhere among them. An object that names a part
twice is refused.
-/
namespace WordLang

theorem Table.find?_eq_head? {α : Type} (t : Table α) (name : String) :
    t.find? name = (t.filter (·.1 == name)).head?.map Prod.snd := by
  induction t with
  | nil => rfl
  | cons entry t ih => by_cases h : entry.1 = name <;> simp [Table.find?, h, ih]

namespace Json

/-! ## Parts of an object -/

theorem mapM_named (members : List (String × Json)) :
    (members.map fun m => (some m.1, m.2)).mapM
      (fun m : Option String × Json => m.1.map fun name => (name, m.2)) = some members := by
  induction members with
  | nil => rfl
  | cons m ms ih => simp [ih]

theorem parts?_obj (names : List String) (members : List (String × Json)) :
    (obj (members.map fun m => (some m.1, m.2))).parts? names =
      if names.all fun name => (members.filter (·.1 == name)).length ≤ 1 then
        some (names.map (Table.find? members))
      else none :=
  congrArg (Option.bind · _) (mapM_named members)

theorem parts?_obj_cases (names : List String) (members : List (Option String × Json)) :
    (obj members).parts? names = none ∨
      ∃ named : List (String × Json), members = named.map fun m => (some m.1, m.2) := by
  cases hmapM : members.mapM (fun m : Option String × Json => m.1.map fun name => (name, m.2)) with
  | none => exact .inl (congrArg (Option.bind · _) hmapM)
  | some named =>
    refine .inr ⟨named, ?_⟩
    induction members generalizing named with
    | nil =>
      obtain rfl : [] = named := by simpa using hmapM
      rfl
    | cons m members ih =>
      simp only [List.mapM_cons, Option.bind_eq_bind, Option.bind_eq_some_iff,
        Option.map_eq_some_iff] at hmapM
      obtain ⟨_, ⟨name, hname, rfl⟩, rest, hrest, heq⟩ := hmapM
      obtain rfl : (name, m.2) :: rest = named := by simpa using heq
      rw [List.map_cons, ← ih rest hrest, ← hname]

/-- An object that names a part twice has no parts. -/
theorem parts?_eq_none_of_repeated {names : List String} {members : List (Option String × Json)}
    {name : String} (hname : name ∈ names) (h : 2 ≤ (members.map Prod.fst).count (some name)) :
    (obj members).parts? names = none := by
  obtain hnone | ⟨named, rfl⟩ := parts?_obj_cases names members
  · exact hnone
  · have hcount : (named.filter (·.1 == name)).length =
        ((named.map fun m => (some m.1, m.2)).map Prod.fst).count (some name) := by
      rw [List.map_map, List.count_eq_countP, List.countP_map, List.countP_eq_length_filter]
      simp [Function.comp_def]
    rw [parts?_obj, if_neg]
    simp only [List.all_eq_true, decide_eq_true_eq]
    intro hle
    have := hle name hname
    omega

/-- Of entries with distinct names, one is under its name. -/
theorem filter_eq_singleton {α : Type} {entries : List (String × α)}
    (hd : (entries.map Prod.fst).Nodup) {entry : String × α} (h : entry ∈ entries) :
    entries.filter (·.1 == entry.1) = [entry] := by
  induction entries with
  | nil => cases h
  | cons first entries ih =>
    rw [List.map_cons, List.nodup_cons] at hd
    rcases List.mem_cons.1 h with rfl | h
    · have hnone : entries.filter (·.1 == entry.1) = [] := by
        simp only [List.filter_eq_nil_iff, beq_iff_eq]
        intro other ho heq
        exact hd.1 (heq ▸ List.mem_map_of_mem ho)
      simp [hnone]
    · have hne : first.1 ≠ entry.1 := by
        intro heq
        exact hd.1 (heq ▸ List.mem_map_of_mem h)
      simp [hne, ih hd.2 h]

section Order

variable {names : List String} {values : List Json} {members extras : List (String × Json)}

/-- Each named value is the only one under its name, in whatever order the members come. -/
theorem filter_members (hd : names.Nodup) (hlength : values.length = names.length)
    (hextras : ∀ m ∈ extras, m.1 ∉ names) (hperm : members.Perm (names.zip values ++ extras))
    {entry : String × Json} (h : entry ∈ names.zip values) :
    members.filter (·.1 == entry.1) = [entry] := by
  have hfst : (names.zip values).map Prod.fst = names := List.map_fst_zip hlength.ge
  have hname : entry.1 ∈ names := hfst ▸ List.mem_map_of_mem h
  have hnone : extras.filter (·.1 == entry.1) = [] := by
    simp only [List.filter_eq_nil_iff, beq_iff_eq]
    intro m hm heq
    exact hextras m hm (heq ▸ hname)
  have hfilter := hperm.filter (·.1 == entry.1)
  rw [List.filter_append, filter_eq_singleton (hfst.symm ▸ hd) h, hnone] at hfilter
  exact List.perm_singleton.1 hfilter

/-- An object hands over the same parts as the array of the values in the order of the names. -/
theorem parts?_obj_of_perm (hd : names.Nodup) (hlength : values.length = names.length)
    (hextras : ∀ m ∈ extras, m.1 ∉ names) (hperm : members.Perm (names.zip values ++ extras)) :
    (obj (members.map fun m => (some m.1, m.2))).parts? names = (arr values).parts? names := by
  have hfst : (names.zip values).map Prod.fst = names := List.map_fst_zip hlength.ge
  have hsnd : (names.zip values).map Prod.snd = values := List.map_snd_zip hlength.le
  have hfilter (entry : String × Json) (h : entry ∈ names.zip values) :
      members.filter (·.1 == entry.1) = [entry] :=
    filter_members hd hlength hextras hperm h
  have hall : names.all (fun name => (members.filter (·.1 == name)).length ≤ 1) = true := by
    simp only [List.all_eq_true, decide_eq_true_eq]
    intro name hname
    obtain ⟨entry, hentry, rfl⟩ := List.mem_map.1 (hfst.symm ▸ hname)
    simp [hfilter entry hentry]
  have hvalues : names.map (Table.find? members) = values.map some := by
    conv_lhs => rw [← hfst]
    conv_rhs => rw [← hsnd]
    rw [List.map_map, List.map_map]
    refine List.map_congr_left fun entry hentry => ?_
    simp [Table.find?_eq_head?, hfilter entry hentry]
  rw [parts?_obj, if_pos hall, hvalues]
  simp [parts?, hlength]

end Order

/-! ## Texts of records -/

/-- A text that holds a JSON value. -/
def IsText (text : String) : Prop := ∃ v, parse? text = some v

/-- The texts of members that hold `values` under the names `fields`, in any order, and that hold
any values under other names anywhere among them. -/
def HoldsFields (fields values : List String) (members : List (String × String)) : Prop :=
  ∃ (names : List String) (extras : List (String × String)),
    List.Forall₂ SpellsName names fields ∧
    (∀ m ∈ extras, ∃ name, SpellsName m.1 name ∧ name ∉ fields ∧ IsText m.2) ∧
    members.Perm (names.zip values ++ extras)

theorem exists_forall₂_of_forall {α β : Type} {R : α → β → Prop} {as : List α}
    (h : ∀ a ∈ as, ∃ b, R a b) : ∃ bs, List.Forall₂ R as bs := by
  induction as with
  | nil => exact ⟨[], .nil⟩
  | cons a as ih =>
    rw [List.forall_mem_cons] at h
    obtain ⟨b, hb⟩ := h.1
    obtain ⟨bs, hbs⟩ := ih h.2
    exact ⟨b :: bs, .cons hb hbs⟩

theorem forall₂_spellsMember_zip {names fields values : List String} {vs : List Json}
    (hnames : List.Forall₂ SpellsName names fields)
    (hvalues : List.Forall₂ (fun text v => parse? text = some v) values vs) :
    List.Forall₂ SpellsMember (names.zip values) (fields.zip vs) := by
  induction hnames generalizing values vs with
  | nil => simp
  | cons hname _ ih =>
    cases hvalues with
    | nil => simp
    | cons hvalue hrest => exact .cons ⟨hname, hvalue⟩ (ih hrest)

/-- Such members are read as an object that holds what the values are read as. -/
theorem HoldsFields.parse? {fields values : List String} {members : List (String × String)}
    (h : HoldsFields fields values members) {vs : List Json}
    (hvalues : List.Forall₂ (fun text v => Json.parse? text = some v) values vs) :
    ∃ ms extras : List (String × Json),
      Json.parse? (objectText members) = some (.obj (ms.map fun m => (some m.1, m.2))) ∧
      ms.Perm (fields.zip vs ++ extras) ∧ ∀ m ∈ extras, m.1 ∉ fields := by
  obtain ⟨names, extraTexts, hnames, hextras, hperm⟩ := h
  obtain ⟨extras, hextras⟩ : ∃ extras, List.Forall₂
      (fun text (m : String × Json) => m.1 ∉ fields ∧ SpellsMember text m) extraTexts extras := by
    refine exists_forall₂_of_forall fun text htext => ?_
    obtain ⟨name, hname, hnot, v, hv⟩ := hextras text htext
    exact ⟨(name, v), hnot, hname, hv⟩
  obtain ⟨hunknown, hextras⟩ := (List.forall₂_and_left ..).1 hextras.flip
  have hall :
      List.Forall₂ SpellsMember (names.zip values ++ extraTexts) (fields.zip vs ++ extras) :=
    List.rel_append (forall₂_spellsMember_zip hnames hvalues) hextras.flip
  obtain ⟨ms, hms, hmsPerm⟩ := List.perm_comp_forall₂ hperm hall
  exact ⟨ms, extras, parse?_objectText hms, hmsPerm, hunknown⟩

end Json

/-! ## Nodes with named parts -/

/-- The kinds of nodes whose parts have names. -/
inductive Shape where
  | program
  | function
  | recordType
  | declare
  | declareRecord
  | set
  | setField
  | branch
  | loop
  | binary
  | compare
  | call
  | field
  deriving DecidableEq, Repr

namespace Shape

/-- What a node of this kind is part of. -/
def Node : Shape → Type
  | .program => Program
  | .function => FunctionDecl
  | .recordType => RecordDecl
  | .declare | .declareRecord | .set | .setField | .branch | .loop => Stmt
  | .binary | .compare | .call | .field => Expr

instance tree : (shape : Shape) → Tree shape.Node
  | .program => (inferInstance : Tree Program)
  | .function => (inferInstance : Tree FunctionDecl)
  | .recordType => (inferInstance : Tree RecordDecl)
  | .declare | .declareRecord | .set | .setField | .branch | .loop => (inferInstance : Tree Stmt)
  | .binary | .compare | .call | .field => (inferInstance : Tree Expr)

/-- The names of the parts, in their order. -/
def fields : Shape → List String
  | .program => ["types", "functions"]
  | .function => ["name", "params", "body"]
  | .recordType => ["name", "fields"]
  | .declare | .set => ["name", "value"]
  | .declareRecord => ["name", "type_name"]
  | .setField => ["name", "field", "value"]
  | .branch => ["cond", "then_body", "else_body"]
  | .loop => ["cond", "body"]
  | .binary | .compare => ["op", "lhs", "rhs"]
  | .call => ["name", "args"]
  | .field => ["name", "field"]

/-- The tag of a node, if there are others in its place. -/
def tag? : Shape → Option String
  | .program | .function | .recordType => none
  | .declare => some "Let"
  | .declareRecord => some "LetRecord"
  | .set => some "Set"
  | .setField => some "SetField"
  | .branch => some "If"
  | .loop => some "While"
  | .binary => some "Binary"
  | .compare => some "Compare"
  | .call => some "Call"
  | .field => some "Field"

/-- Reads the parts of a node. -/
def ofParts? : (shape : Shape) → Nat → Json → Option shape.Node
  | .program => Program.ofJson?
  | .function => FunctionDecl.ofJson?
  | .recordType => RecordDecl.ofJson?
  | .declare => Stmt.declareOfJson?
  | .declareRecord => Stmt.declareRecordOfJson?
  | .set => Stmt.setOfJson?
  | .setField => Stmt.setFieldOfJson?
  | .branch => Stmt.branchOfJson?
  | .loop => Stmt.loopOfJson?
  | .binary => Expr.binaryOfJson?
  | .compare => Expr.compareOfJson?
  | .call => Expr.callOfJson?
  | .field => Expr.fieldOfJson?

theorem nodup_fields (shape : Shape) : shape.fields.Nodup := by
  cases shape <;> decide

/-- A reader looks at nothing but the parts that it is handed. -/
theorem ofParts?_congr (shape : Shape) {v w : Json}
    (h : v.parts? shape.fields = w.parts? shape.fields) (depth : Nat) :
    shape.ofParts? depth v = shape.ofParts? depth w := by
  cases depth with
  | zero => cases shape <;> rfl
  | succ depth =>
    cases shape
    all_goals
      simp only [fields] at h
      simp only [ofParts?, Program.ofJson?, FunctionDecl.ofJson?, RecordDecl.ofJson?,
        Stmt.declareOfJson?, Stmt.declareRecordOfJson?, Stmt.setOfJson?, Stmt.setFieldOfJson?,
        Stmt.branchOfJson?, Stmt.loopOfJson?, Expr.binaryOfJson?, Expr.compareOfJson?,
        Expr.callOfJson?, Expr.fieldOfJson?, h]
      rfl

theorem ofParts?_eq_none (shape : Shape) {v : Json} (h : v.parts? shape.fields = none)
    (depth : Nat) : shape.ofParts? depth v = none := by
  rw [shape.ofParts?_congr (w := .null) h]
  cases shape <;> cases depth <;> rfl

/-- The text of a node whose parts have the text `parts`. -/
def text (shape : Shape) (parts : String) : String :=
  match shape.tag? with
  | none => parts
  | some tag => Json.objectText [(Json.nameText tag, parts)]

/-- Brackets that may be open in the parts of a node, where the node itself is a whole text. -/
def room (shape : Shape) : Nat :=
  match shape.tag? with
  | none => nestingLimit
  | some _ => nestingLimit - 1

theorem ofJson?_untagged (shape : Shape) (h : shape.tag? = none) (depth : Nat) (v : Json) :
    (Tree.ofJson? depth v : Option shape.Node) = shape.ofParts? depth v := by
  cases shape <;> first | rfl | cases h

theorem ofJson?_tagged (shape : Shape) {tag : String} (h : shape.tag? = some tag) (depth : Nat)
    (v : Json) :
    (Tree.ofJson? (depth + 1) (.tagged tag v) : Option shape.Node) = shape.ofParts? depth v := by
  cases shape <;> cases h
  all_goals
    simp only [Tree.ofJson?, ofParts?, Json.tagged, Stmt.ofJson?, Expr.ofJson?]
    rfl

/-- A node is read by the reader of its parts. -/
theorem decode?_text (shape : Shape) {parts : String} {v : Json} (h : Json.parse? parts = some v) :
    (Tree.decode? (shape.text parts) : Option shape.Node) = shape.ofParts? shape.room v := by
  cases htag : shape.tag? with
  | none =>
    have hparse : Json.parse? (shape.text parts) = some v := by simpa [text, htag] using h
    rw [Tree.decode?, hparse, room, htag]
    exact shape.ofJson?_untagged htag nestingLimit v
  | some tag =>
    have hparse : Json.parse? (shape.text parts) = some (.tagged tag v) := by
      have hmember : Json.SpellsMember (Json.nameText tag, parts) (tag, v) :=
        ⟨Json.spellsName_nameText tag, h⟩
      simpa [text, htag, Json.tagged] using Json.parse?_objectText (.cons hmember .nil)
    rw [Tree.decode?, hparse, room, htag]
    exact shape.ofJson?_tagged htag (nestingLimit - 1) v

/-- Nodes are read alike whether their parts come as an array in the fixed order or as an object in
any order, with any members of other names among them; and this goes for nodes that are whole texts
as well as for nodes inside of others, where `depth` more brackets may be opened. An object that
names a part twice is refused. -/
theorem decode?_form_irrelevant (shape : Shape) :
    (∀ (values : List String) (members : List (String × String)),
      values.length = shape.fields.length → (∀ text ∈ values, Json.IsText text) →
      Json.HoldsFields shape.fields values members →
      (Tree.decode? (shape.text (Json.arrayText values)) : Option shape.Node) =
        Tree.decode? (shape.text (Json.objectText members)) ∧
      ∀ depth, (Json.parse? (Json.arrayText values) >>= shape.ofParts? depth) =
        (Json.parse? (Json.objectText members) >>= shape.ofParts? depth)) ∧
    ∀ (text : String) (members : List (Option String × Json)) (name : String),
      Json.parse? text = some (.obj members) → name ∈ shape.fields →
      2 ≤ (members.map Prod.fst).count (some name) →
      (Tree.decode? (shape.text text) : Option shape.Node) = none ∧
      ∀ depth, (Json.parse? text >>= shape.ofParts? depth) = none := by
  refine ⟨fun values members hlength hvalues hmembers => ?_,
    fun text members name htext hname hcount => ?_⟩
  · obtain ⟨vs, hvs⟩ := Json.exists_forall₂_of_forall hvalues
    obtain ⟨ms, extras, hobject, hperm, hextras⟩ := hmembers.parse? hvs
    have harray := Json.parse?_arrayText hvs
    have hparts :=
      Json.parts?_obj_of_perm shape.nodup_fields (hvs.length_eq ▸ hlength) hextras hperm
    have hread (depth : Nat) := shape.ofParts?_congr hparts depth
    refine ⟨?_, fun depth => ?_⟩
    · rw [shape.decode?_text harray, shape.decode?_text hobject, hread]
    · rw [harray, hobject]
      exact (hread depth).symm
  · have hnone := shape.ofParts?_eq_none (Json.parts?_eq_none_of_repeated hname hcount)
    refine ⟨?_, fun depth => ?_⟩
    · rw [shape.decode?_text htext, hnone]
    · rw [htext]
      exact hnone depth

/-- A call whose parts come in reverse, with another member between them. -/
theorem decode?_form_irrelevant_call : ∃ (values : List String) (members : List (String × String)),
    values = ["\"f\"", "[\x7b\"Int\": 7\x7d]"] ∧
    members = [(Json.nameText "args", "[\x7b\"Int\": 7\x7d]"),
      (Json.nameText "line", "[[[\"\\ud800\", 1e999]]]"), (Json.nameText "name", "\"f\"")] ∧
    (Tree.decode? (Shape.call.text (Json.arrayText values)) : Option Expr) =
      some (.call "f" [.int 7]) ∧
    (Tree.decode? (Shape.call.text (Json.objectText members)) : Option Expr) =
      some (.call "f" [.int 7]) := by
  let values := ["\"f\"", "[\x7b\"Int\": 7\x7d]"]
  let line := (Json.nameText "line", "[[[\"\\ud800\", 1e999]]]")
  let members := [(Json.nameText "args", "[\x7b\"Int\": 7\x7d]"), line,
    (Json.nameText "name", "\"f\"")]
  have hvalues : ∀ text ∈ values, Json.IsText text := by
    have hall : values.all (fun text => (Json.parse? text).isSome) = true := by decide +kernel
    exact fun text htext => Option.isSome_iff_exists.1 (List.all_eq_true.1 hall text htext)
  have hline : ∀ m ∈ [line],
      ∃ name, Json.SpellsName m.1 name ∧ name ∉ Shape.call.fields ∧ Json.IsText m.2 := by
    rw [List.forall_mem_singleton]
    have htext : (Json.parse? line.2).isSome = true := by decide +kernel
    exact ⟨"line", Json.spellsName_nameText _, by decide, Option.isSome_iff_exists.1 htext⟩
  have hmembers : Json.HoldsFields Shape.call.fields values members :=
    ⟨Shape.call.fields.map Json.nameText, [line],
      .cons (Json.spellsName_nameText _) (.cons (Json.spellsName_nameText _) .nil), hline,
      List.perm_append_singleton _ [_, line]⟩
  have hdecode : (Tree.decode? (Shape.call.text (Json.arrayText values)) : Option Expr) =
      some (.call "f" [.int 7]) := by decide +kernel
  have hforms := (Shape.call.decode?_form_irrelevant.1 values members rfl hvalues hmembers).1
  exact ⟨values, members, rfl, rfl, hdecode, hforms.symm.trans hdecode⟩

end Shape

end WordLang
