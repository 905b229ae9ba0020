import WordLang.Proofs.RecordAccess

/-!
# Functions that fail

A function is written when all of it is lowered, so one that fails leaves nothing behind. What a
program that is refused has written is the beginning of what every accepted program writes that has
the same declarations and begins with the same functions.
-/
namespace WordLang

open Asm

/-! ## Declarations with the same entries -/

/-- A name stands for the same function and for the same type. -/
structure Declarations.Agree (decls decls' : Declarations) : Prop where
  functions : ∀ name, decls'.functions.find? name = decls.functions.find? name
  types : ∀ name, decls'.types.find? name = decls.types.find? name

variable {decls decls' : Declarations}

theorem Declarations.Agree.callee_eq (h : decls.Agree decls') (name : String) (found : Nat) :
    decls'.callee name found = decls.callee name found := by
  unfold Declarations.callee
  rw [h.functions]

theorem Declarations.Agree.fieldSlot_eq (h : decls.Agree decls') (name field : String) :
    Lower.fieldSlot decls' name field = Lower.fieldSlot decls name field := by
  unfold Lower.fieldSlot
  simp only [h.types]

mutual

/-- Lowering asks the declarations for names, and for nothing else. -/
theorem Expr.lower_congr (h : decls.Agree decls') : (e : Expr) → e.lower decls' = e.lower decls
  | .int _ | .str _ | .ident _ => by unfold Expr.lower; rfl
  | .binary op lhs rhs => by
    unfold Expr.lower
    rw [Expr.lower_congr h lhs, Expr.lower_congr h rhs]
  | .compare op lhs rhs => by
    unfold Expr.lower
    rw [Expr.lower_congr h lhs, Expr.lower_congr h rhs]
  | .call name args => by
    unfold Expr.lower
    rw [h.callee_eq, Expr.lowerArgs_congr h args]
  | .field name part => by
    unfold Expr.lower
    rw [h.fieldSlot_eq]

theorem Expr.lowerArgs_congr (h : decls.Agree decls') :
    (args : List Expr) → Expr.lowerArgs decls' args = Expr.lowerArgs decls args
  | [] => by unfold Expr.lowerArgs; rfl
  | arg :: args => by
    unfold Expr.lowerArgs
    rw [Expr.lower_congr h arg, Expr.lowerArgs_congr h args]

end

mutual

theorem Stmt.lower_congr (h : decls.Agree decls') : (s : Stmt) → s.lower decls' = s.lower decls
  | .declare _ value | .set _ value | .ret (some value) | .print value | .eval value => by
    unfold Stmt.lower
    rw [value.lower_congr h]
  | .declareRecord name typeName => by
    unfold Stmt.lower
    rw [h.types]
  | .setField name field value => by
    unfold Stmt.lower
    rw [value.lower_congr h, h.fieldSlot_eq]
  | .ret none | .leave | .again => by unfold Stmt.lower; rfl
  | .branch cond thenBody [] => by
    unfold Stmt.lower
    rw [cond.lower_congr h, Stmt.lowerBlock_congr h thenBody]
  | .branch cond thenBody (s :: ss) => by
    unfold Stmt.lower
    rw [cond.lower_congr h, Stmt.lowerBlock_congr h thenBody, Stmt.lowerBlock_congr h (s :: ss)]
  | .loop cond body => by
    unfold Stmt.lower
    rw [cond.lower_congr h, Stmt.lowerBlock_congr h body]

theorem Stmt.lowerBlock_congr (h : decls.Agree decls') :
    (ss : List Stmt) → Stmt.lowerBlock decls' ss = Stmt.lowerBlock decls ss
  | [] => by unfold Stmt.lowerBlock; rfl
  | s :: ss => by
    unfold Stmt.lowerBlock
    rw [Stmt.lower_congr h s, Stmt.lowerBlock_congr h ss]

end

theorem FunctionDecl.lower_congr (h : decls.Agree decls') (limits : Limits) (f : FunctionDecl) :
    f.lower limits decls' = f.lower limits decls := by
  unfold FunctionDecl.lower
  rw [Stmt.lowerBlock_congr h f.body]

theorem FunctionDecl.Lowers.congr (hd : decls.Agree decls') {limits : Limits} {f : FunctionDecl}
    {s t : Lowering} {r : Routine} (h : f.Lowers limits decls' s r t) :
    f.Lowers limits decls s r t := by
  rw [← runs_lower_iff] at h ⊢
  rwa [f.lower_congr hd] at h

theorem FunctionDecl.Lowers.unique {limits : Limits} {f : FunctionDecl} {s t t' : Lowering}
    {r r' : Routine} (h : f.Lowers limits decls s r t) (h' : f.Lowers limits decls s r' t') :
    r' = r ∧ t' = t := by
  have hr : outcome (f.lower limits decls) s = (.ok r, t) := runs_lower_iff.2 h
  have hr' : outcome (f.lower limits decls) s = (.ok r', t') := runs_lower_iff.2 h'
  rw [hr] at hr'
  cases hr'
  exact ⟨rfl, rfl⟩

/-- Functions that come later do not change the routines of those before. -/
theorem LowersFunctions.isPrefix {limits : Limits} {fs fs' : List FunctionDecl}
    {s t t' : Lowering} {rs rs' : List Routine} (hd : decls.Agree decls')
    (h : LowersFunctions limits decls fs s rs t)
    (h' : LowersFunctions limits decls' fs' s rs' t') (hfs : fs <+: fs') : rs <+: rs' := by
  induction h generalizing fs' rs' with
  | nil => exact List.nil_prefix
  | cons hf _ ih =>
    obtain ⟨more, rfl⟩ := hfs
    cases h' with
    | cons hf' h' =>
      obtain ⟨rfl, rfl⟩ := hf.unique (hf'.congr hd)
      exact (List.prefix_cons_inj _).2 (ih h' (List.prefix_append _ _))

theorem Table.find?_of_perm {α : Type} {t u : Table α} (hd : (t.map Prod.fst).Nodup)
    (hp : u.Perm t) (name : String) : u.find? name = t.find? name := by
  have hd' : (u.map Prod.fst).Nodup := (hp.map Prod.fst).nodup_iff.2 hd
  cases hu : u.find? name with
  | some value => exact (Table.find?_of_mem hd (hp.mem_iff.1 (Table.mem_of_find? hu))).symm
  | none =>
    rw [Table.find?_eq_none_iff, (hp.map Prod.fst).mem_iff] at hu
    exact (Table.find?_eq_none_iff.2 hu).symm

/-- Programs that declare the same functions and types, in whatever order. -/
theorem Program.agree_of_perm {p q : Program} (htypes : (p.types.map (·.name)).Nodup)
    (hfunctions : (p.functions.map (·.name)).Nodup) (ht : q.types.Perm p.types)
    (hf : q.declarations.functions.Perm p.declarations.functions) :
    p.declarations.Agree q.declarations where
  functions := Table.find?_of_perm (by rwa [declarations, List.map_map]) hf
  types := Table.find?_of_perm (by rwa [declarations, List.map_map]) (ht.map _)

/-- The text of a program begins with that of its first routines. -/
theorem Assembly.utf8_prefix_text (a : Assembly) {rs : List Routine} (h : rs <+: a.routines) :
    utf8 (Generate.textSection ++ String.join (rs.map Routine.text)) <+: utf8 a.text := by
  obtain ⟨more, hmore⟩ := h
  rw [Assembly.text, ← hmore]
  simp

/-! ## Where a program stops -/

namespace Generate

variable {g g' : Generator} {h : Halt}

/-- Where there is no type yet, one is refused because it comes twice. -/
theorem of_stops_declareTypes {decls : List RecordDecl} (hg : g.declarations.types = [])
    (hs : Stops (decls.forM declareType) g h g') :
    ¬ (decls.map (·.name)).Nodup ∧ (∃ name, h = .refused (.duplicateType name)) ∧
      g'.sink = g.sink := by
  constructor
  · intro hnodup
    have hruns : Runs (decls.forM declareType) g () _ :=
      runs_declareTypes.2 ⟨hnodup, fun _ _ => by rw [hg]; rfl, rfl⟩
    exact hruns.not_stops hs
  · obtain ⟨_, decl, _, _, -, hbefore, hs⟩ := stops_forM.1 hs
    obtain ⟨-, -, rfl⟩ := runs_declareTypes.1 hbefore
    obtain ⟨rfl, hsink⟩ := of_stops_declareType hs
    exact ⟨⟨decl.name, rfl⟩, hsink⟩

theorem of_stops_declareFunctions {fs : List FunctionDecl} (hg : g.declarations.functions = [])
    (hs : Stops (fs.forM declareFunction) g h g') :
    ¬ (fs.map (·.name)).Nodup ∧ (∃ name, h = .refused (.duplicateFunction name)) ∧
      g'.sink = g.sink := by
  constructor
  · intro hnodup
    have hruns : Runs (fs.forM declareFunction) g () _ :=
      runs_declareFunctions.2 ⟨hnodup, fun _ _ => by rw [hg]; rfl, rfl⟩
    exact hruns.not_stops hs
  · obtain ⟨_, f, _, _, -, hbefore, hs⟩ := stops_forM.1 hs
    obtain ⟨-, -, rfl⟩ := runs_declareFunctions.1 hbefore
    obtain ⟨rfl, hsink⟩ := of_stops_declareFunction hs
    exact ⟨⟨f.name, rfl⟩, hsink⟩

/-- On a sink without bound, functions stop where one cannot be lowered, with those before it
written. -/
theorem of_stops_functions {fs : List FunctionDecl} (hc : g.sink.capacity = none)
    (hs : Stops (fs.forM Generate.function) g h g') :
    ∃ before f after rs s s', fs = before ++ f :: after ∧
      LowersFunctions g.limits g.declarations before g.lowering rs s ∧
      Stops (f.lower g.limits g.declarations) s h s' ∧
      g'.sink.stored = g.sink.stored ++ utf8 (String.join (rs.map Routine.text)) := by
  obtain ⟨before, f, after, _, hsplit, hbefore, hs⟩ := stops_forM.1 hs
  obtain ⟨rs, s, hlowers, rfl⟩ := (runs_functions hc).1 hbefore
  rcases stops_function.1 hs with ⟨s', hstops, rfl⟩ | ⟨_, _, -, hs⟩
  · exact ⟨before, f, after, rs, s, s', hsplit, hlowers, hstops, rfl⟩
  · exact absurd hs (not_stops_write hc)

/-- All that can stop a fresh generator: a name that is declared twice, before anything is written,
or a function that cannot be lowered. -/
theorem stops_program_new {p : Program} {limits : Limits}
    (hs : Stops (program p) (Generator.new limits {}) h g') :
    (¬ ((p.types.map (·.name)).Nodup ∧ (p.functions.map (·.name)).Nodup) ∧
      (∃ name, h = .refused (.duplicateType name) ∨ h = .refused (.duplicateFunction name)) ∧
      g'.sink.stored = []) ∨
    ((p.types.map (·.name)).Nodup ∧ (p.functions.map (·.name)).Nodup ∧
      ∃ before f after rs s s', p.functions = before ++ f :: after ∧
        LowersFunctions limits p.declarations before (Generator.new limits {}).lowering rs s ∧
        Stops (f.lower limits p.declarations) s h s' ∧
        g'.sink.stored = utf8 (textSection ++ String.join (rs.map Routine.text))) := by
  unfold program at hs
  rcases stops_bind.1 hs with hs | ⟨_, _, htypes, hs⟩
  · obtain ⟨hn, ⟨name, rfl⟩, hsink⟩ := of_stops_declareTypes rfl hs
    exact .inl ⟨fun hnodup => hn hnodup.1, ⟨name, .inl rfl⟩, by rw [hsink]; rfl⟩
  obtain ⟨ht, -, rfl⟩ := runs_declareTypes.1 htypes
  rcases stops_bind.1 hs with hs | ⟨_, _, hfunctions, hs⟩
  · obtain ⟨hn, ⟨name, rfl⟩, hsink⟩ := of_stops_declareFunctions rfl hs
    exact .inl ⟨fun hnodup => hn hnodup.2, ⟨name, .inr rfl⟩, by rw [hsink]; rfl⟩
  obtain ⟨hf, -, rfl⟩ := runs_declareFunctions.1 hfunctions
  rcases stops_bind.1 hs with hs | ⟨_, _, hw, hs⟩
  · exact absurd hs (not_stops_write rfl)
  rw [runs_write rfl] at hw
  subst hw
  rcases stops_bind.1 hs with hs | ⟨_, _, hall, hs⟩
  · obtain ⟨before, f, after, rs, s, s', hsplit, hlowers, hstops, hstored⟩ :=
      of_stops_functions rfl hs
    refine .inr ⟨ht, hf, before, f, after, rs, s, s', hsplit, hlowers, hstops, ?_⟩
    rw [hstored]
    simp [Generator.new]
  · obtain ⟨rs, t, -, rfl⟩ := (runs_functions rfl).1 hall
    exact absurd hs (Runs.not_stops ((runs_ending (u := ()) rfl).2 rfl))

end Generate

namespace Program

variable {limits : Limits} {p : Program}

/-- A name is declared twice, and nothing is written. -/
structure Redeclares (limits : Limits) (p : Program) : Prop where
  not_nodup : ¬ ((p.types.map (·.name)).Nodup ∧ (p.functions.map (·.name)).Nodup)
  refused : ∃ name, (p.generate limits).1 = .error (.refused (.duplicateType name)) ∨
    (p.generate limits).1 = .error (.refused (.duplicateFunction name))
  written_eq : p.written limits = []

/-- Function number `j` is the first that cannot be lowered, and exactly those before it are
written. -/
structure FailsAt (limits : Limits) (p : Program) (j : Nat) : Prop where
  types_nodup : (p.types.map (·.name)).Nodup
  functions_nodup : (p.functions.map (·.name)).Nodup
  exists_stops : ∃ f rs s e s', p.functions[j]? = some f ∧
    LowersFunctions limits p.declarations (p.functions.take j) (Generator.new limits {}).lowering
      rs s ∧
    Stops (f.lower limits p.declarations) s (.refused e) s' ∧
    (p.generate limits).1 = .error (.refused e) ∧
    p.written limits = utf8 (Generate.textSection ++ String.join (rs.map Routine.text))
  /-- The same declarations and the same functions before number `j` give the same beginning. -/
  isPrefix : ∀ q : Program, q.Accepted limits → q.types.Perm p.types →
    q.declarations.functions.Perm p.declarations.functions →
    q.functions.take j = p.functions.take j → p.written limits <+: q.written limits

/-- A program whose generation fails declares a name twice, or has a first function that cannot be
lowered and of which nothing is written. -/
theorem failed_function_unwritten (h : ¬ p.Accepted limits) :
    p.Redeclares limits ∨ ∃ j, p.FailsAt limits j := by
  obtain ⟨e, he⟩ : ∃ e, (p.generate limits).1 = .error (.refused e) := by
    have hsafe : (Request.program p).Safe (Generator.new limits {}) :=
      Request.safe_program (Generator.orderly_new limits {}).laid
    rcases hresult : (p.generate limits).1 with (e | _) | u
    · exact ⟨e, rfl⟩
    · exact absurd hresult hsafe.no_underflow
    · exact absurd hresult h
  obtain ⟨g, hstops⟩ := stops_iff.2 he
  have hwritten : p.written limits = g.sink.stored := congrArg (·.2.sink.stored) hstops
  rcases Generate.stops_program_new hstops with ⟨hn, ⟨name, hname⟩, hstored⟩ | ⟨ht, hf, hfails⟩
  · refine .inl ⟨hn, ⟨name, ?_⟩, hwritten.trans hstored⟩
    rw [he]
    exact hname.imp (congrArg Except.error) (congrArg Except.error)
  · obtain ⟨before, f, after, rs, s, s', hsplit, hlowers, hstops, hstored⟩ := hfails
    have htake : p.functions.take before.length = before := by simp [hsplit]
    refine .inr ⟨before.length, ht, hf, ⟨f, rs, s, e, s', ?_, ?_, hstops, he, ?_⟩, ?_⟩
    · simp [hsplit]
    · rwa [htake]
    · exact hwritten.trans hstored
    · intro q hq hqt hqf hqtake
      obtain ⟨a, ha⟩ := accepted_iff.1 hq
      obtain ⟨t, hqlowers, -⟩ := ha.exists_lowers
      have hbefore : before <+: q.functions := by
        rw [← htake, ← hqtake]
        exact List.take_prefix _ _
      have hroutines := hlowers.isPrefix (agree_of_perm ht hf hqt hqf) hqlowers hbefore
      rw [hwritten, hstored, ha.written_eq]
      exact a.utf8_prefix_text hroutines

/-- A program whose second function leaves a loop that is not there. -/
def strayLeave : Program where
  functions := [
    ⟨"half", ["n"], [.ret (some (.binary .div (.ident "n") (.int 2)))]⟩,
    ⟨"main", [], [.print (.str "done"), .leave]⟩]

theorem failed_function_unwritten_strayLeave :
    ¬ strayLeave.Accepted {} ∧ ∃ j, strayLeave.FailsAt {} j := by
  have h : ¬ strayLeave.Accepted {} := by decide +kernel
  exact ⟨h, (failed_function_unwritten h).resolve_left fun hr => hr.not_nodup (by decide)⟩

end Program

end WordLang
