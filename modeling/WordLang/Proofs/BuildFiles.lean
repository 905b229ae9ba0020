import WordLang.Build
import WordLang.Proofs.RecordAccess
import WordLang.Proofs.Truncation

/-!
# Files of a build

A build changes at most one file, its output. As long as the output was not opened nothing changes;
once it was opened it holds the whole assembly in the end, or is gone. Input and output may be the
same file.
-/
namespace WordLang

namespace FileTree

variable {t t' : FileTree} {path : Path} {name : String}

/-- The name leads to a file that holds this text. -/
def HasText (t : FileTree) (name text : String) : Prop :=
  ∃ path, t.resolve name = .ok (path, false) ∧ t.node? path = some (.file (utf8 text))

/-! ## Files that are put and removed -/

theorem node?_of_ne_nil (t : FileTree) (h : path ≠ []) :
    t.node? path = (t.nodes.find? (·.1 == path)).map (·.2) := by
  simp [node?, h]

theorem ne_nil_of_node? (h : t.node? path ≠ some .directory) : path ≠ [] := by
  rintro rfl
  exact h rfl

theorem find?_replace (nodes : List (Path × Node)) (path q : Path) (node : Node) :
    ((nodes.map fun entry => if entry.1 == path then (path, node) else entry).find?
        (·.1 == q)).map (·.2) =
      if q = path ∧ nodes.any (·.1 == path) then some node
      else (nodes.find? (·.1 == q)).map (·.2) := by
  induction nodes with
  | nil => simp
  | cons entry nodes ih =>
    obtain ⟨p, old⟩ := entry
    by_cases hp : p = path <;> by_cases hq : p = q <;> grind

theorem node?_put (hp : path ≠ []) (contents : List UInt8) (q : Path) :
    (t.put path contents).node? q = if q = path then some (.file contents) else t.node? q := by
  by_cases hq : q = []
  · subst hq
    rw [if_neg (Ne.symm hp)]
    rfl
  · rw [node?_of_ne_nil _ hq, node?_of_ne_nil _ hq]
    unfold put
    split_ifs with hany hqp hqp
    · rw [find?_replace, if_pos ⟨hqp, hany⟩]
    · rw [find?_replace, if_neg fun h => hqp h.1]
    · subst hqp
      have hnone : t.nodes.find? (·.1 == q) = none := List.find?_eq_none.2 fun entry hm he =>
        hany (List.any_eq_true.2 ⟨entry, hm, he⟩)
      simp [List.find?_append, hnone]
    · simp [List.find?_append, Ne.symm hqp]

theorem node?_removeFile {contents : List UInt8} (h : t.node? path = some (.file contents))
    (q : Path) : (t.removeFile path).node? q = if q = path then none else t.node? q := by
  have hdir : t.node? path ≠ some .directory := by simp [h]
  by_cases hq : q = []
  · subst hq
    rw [if_neg (Ne.symm (ne_nil_of_node? hdir))]
    rfl
  · rw [node?_of_ne_nil _ hq, node?_of_ne_nil _ hq]
    unfold removeFile
    rw [h, List.find?_filter]
    split_ifs with hqp
    · subst hqp
      simp
    · congr 2
      funext entry
      by_cases he : entry.1 = q <;> simp [he, hqp]

theorem removeFile_of_not_file (h : ∀ contents, t.node? path ≠ some (.file contents)) :
    t.removeFile path = t := by
  unfold removeFile
  split
  · next contents hfile => exact absurd hfile (h contents)
  · rfl

theorem workingDirectory_put (t : FileTree) (path : Path) (contents : List UInt8) :
    (t.put path contents).workingDirectory = t.workingDirectory := by
  unfold put
  split_ifs <;> rfl

theorem workingDirectory_remove (t : FileTree) (name : String) :
    (t.remove name).workingDirectory = t.workingDirectory := by
  unfold remove removeFile
  split
  · split <;> rfl
  · rfl

/-! ## Names -/

/-- A name leads to the same path where there are at least the same directories. -/
theorem walk_of_directories
    (h : ∀ p, t.node? p = some .directory → t'.node? p = some .directory) {start : Path}
    {components : List String} (hw : t.walk start components = .ok path) :
    t'.walk start components = .ok path := by
  fun_induction t.walk start components with
  | case1 start =>
    rw [walk]
    exact hw
  | case2 start component rest hc ih =>
    rw [walk, if_pos hc]
    exact ih hw
  | case3 start rest hc ih =>
    rw [walk, if_neg hc, if_pos rfl]
    exact ih hw
  | case4 start component rest hc hup path' hrest =>
    rw [walk, if_neg hc, if_neg hup, if_pos hrest]
    exact hw
  | case5 start component rest hc hup path' hrest hdir ih =>
    rw [walk, if_neg hc, if_neg hup, if_neg hrest, h _ hdir]
    exact ih hw
  | case6 | case7 => cases hw

/-- Where a name leads from. -/
def start (t : FileTree) (name : String) : Path :=
  if name.toList.head? = some '/' then [] else t.workingDirectory

theorem resolve_eq (t : FileTree) (name : String) :
    t.resolve name =
      if name.toList.contains '\x00' then .error .zeroInName
      else if name = "" then .error .noSuchFile
      else if nameLimit < name.utf8ByteSize then .error .nameTooLong
      else (t.walk (t.start name) (components name).1).map (·, (components name).2) := by
  unfold resolve
  by_cases hzero : name.toList.contains '\x00'
  · simp only [hzero, if_true]
    rfl
  by_cases hempty : name = ""
  · simp only [hempty, if_true]
    rfl
  by_cases hlong : nameLimit < name.utf8ByteSize
  · simp only [hzero, hempty, hlong, if_true]
    rfl
  · simp only [hzero, hempty, hlong, if_false]
    rfl

theorem resolve_of_directories {result : Path × Bool}
    (h : ∀ p, t.node? p = some .directory → t'.node? p = some .directory)
    (hd : t'.workingDirectory = t.workingDirectory) (hr : t.resolve name = .ok result) :
    t'.resolve name = .ok result := by
  have hstart : t'.start name = t.start name := by rw [start, start, hd]
  rw [resolve_eq] at hr ⊢
  split_ifs at hr ⊢
  cases hw : t.walk (t.start name) (components name).1 with
  | error e =>
    rw [hw] at hr
    cases hr
  | ok found =>
    rw [hw] at hr
    rw [hstart, walk_of_directories h hw]
    exact hr

/-- The path of a file that can be opened is no directory, and the path of one that cannot be opened
is no file. -/
theorem writable_cases (t : FileTree) (name : String) :
    (∃ path, t.writable name = .ok path ∧ t.resolve name = .ok (path, false) ∧
      t.node? path ≠ some .directory) ∨
    (∃ e, t.writable name = .error e ∧ ∀ path, t.resolve name = .ok (path, false) →
      ∀ contents, t.node? path ≠ some (.file contents)) := by
  unfold writable
  rcases hr : t.resolve name with e | ⟨path, _ | _⟩
  · exact .inr ⟨e, rfl, by rintro _ ⟨⟩⟩
  · rcases hn : t.node? path with _ | ⟨contents⟩ | _
    · by_cases hlong : path.getLast?.any isTooLong
      · refine .inr ⟨.nameTooLong, by simp only [bind, Except.bind, hn, hlong]; rfl, ?_⟩
        rintro _ ⟨⟩
        simp [hn]
      · exact .inl ⟨path, by simp only [bind, Except.bind, hn, hlong]; rfl, rfl, by simp [hn]⟩
    · exact .inl ⟨path, by simp only [bind, Except.bind, hn]; rfl, rfl, by simp [hn]⟩
    · refine .inr ⟨.isADirectory, by simp only [bind, Except.bind, hn]; rfl, ?_⟩
      rintro _ ⟨⟩
      simp [hn]
  · exact .inr ⟨_, rfl, by rintro _ ⟨⟩⟩

theorem of_writable (h : t.writable name = .ok path) :
    t.resolve name = .ok (path, false) ∧ t.node? path ≠ some .directory := by
  rcases t.writable_cases name with ⟨found, hf, hr⟩ | ⟨e, he, -⟩
  · obtain rfl := Except.ok.inj (hf.symm.trans h)
    exact hr
  · cases he.symm.trans h

/-- Where the file of a name cannot be opened there is none to remove. -/
theorem remove_of_not_writable {e : OutputError} (h : t.writable name = .error e) :
    t.remove name = t := by
  rcases t.writable_cases name with ⟨found, hf, -⟩ | ⟨-, -, hn⟩
  · cases hf.symm.trans h
  · unfold remove
    split
    · next path hr => exact removeFile_of_not_file (hn path hr)
    · rfl

/-! ## Opened files -/

section Opened

variable {contents : List UInt8} (h : t.writable name = .ok path)

include h

theorem node?_put_of_writable (q : Path) :
    (t.put path contents).node? q = if q = path then some (.file contents) else t.node? q :=
  node?_put (ne_nil_of_node? (of_writable h).2) contents q

/-- Names lead where they led before the file was opened. -/
theorem resolve_put : (t.put path contents).resolve name = .ok (path, false) := by
  refine resolve_of_directories (fun p hp => ?_) ?_ (of_writable h).1
  · rw [node?_put_of_writable h, if_neg]
    · exact hp
    · rintro rfl
      exact (of_writable h).2 hp
  · exact workingDirectory_put t path contents

theorem read?_put : (t.put path contents).read? name = some contents := by
  simp [read?, resolve_put h, node?_put_of_writable h]

/-- An opened file can be opened again. -/
theorem writable_put : (t.put path contents).writable name = .ok path := by
  rcases (t.put path contents).writable_cases name with ⟨found, hf, hr, -⟩ | ⟨-, -, hn⟩
  · cases hr.symm.trans (resolve_put h)
    exact hf
  · refine absurd ?_ (hn path (resolve_put h) contents)
    rw [node?_put_of_writable h, if_pos rfl]

/-- An opened file can be removed. -/
theorem node?_remove_put (q : Path) :
    ((t.put path contents).remove name).node? q = if q = path then none else t.node? q := by
  have hfile : (t.put path contents).node? path = some (.file contents) := by
    rw [node?_put_of_writable h, if_pos rfl]
  unfold remove
  rw [resolve_put h, node?_removeFile hfile, node?_put_of_writable h]
  split_ifs <;> rfl

theorem read?_remove_put : ((t.put path contents).remove name).read? name = none := by
  have hresolve : ((t.put path contents).remove name).resolve name = .ok (path, false) := by
    refine resolve_of_directories (fun p hp => ?_) ?_ (of_writable h).1
    · rw [node?_remove_put h, if_neg]
      · exact hp
      · rintro rfl
        exact (of_writable h).2 hp
    · rw [workingDirectory_remove, workingDirectory_put]
  simp [read?, hresolve, node?_remove_put h]

end Opened

end FileTree

/-! ## Builds -/

/-- The name leads to a file that holds the tree of this program. -/
def FileTree.HasProgram (t : FileTree) (name : String) (p : Program) : Prop :=
  ∃ text, t.HasText name text ∧ Tree.decode? text = some p

namespace Build

section Cases

variable {limits : Limits} {input output text : String} {files : FileTree} {p : Program}
  {path : Path}

theorem read?_of_hasText (h : files.HasText input text) :
    files.read? input = some (utf8 text) := by
  obtain ⟨path, hr, hn⟩ := h
  simp [FileTree.read?, hr, hn]

theorem hasText_of_read? (h : files.read? input = some (utf8 text)) :
    files.HasText input text := by
  unfold FileTree.read? at h
  split at h
  · next path hr =>
    split at h
    · next contents hn =>
      cases h
      exact ⟨path, hr, hn⟩
    · cases h
  · cases h

theorem load_of_hasText (h : files.HasText input text)
    (hd : (Tree.decode? text : Option Program) = none) :
    load input (files.read? input) = .error (.notAProgram input) := by
  have hutf8 := fromUTF8?_eq_some_iff.2 (Eq.refl (utf8 text))
  simp [load, read?_of_hasText h, hutf8, hd]

theorem load_of_hasProgram (h : files.HasProgram input p) :
    load input (files.read? input) = .ok p := by
  obtain ⟨text, ht, hd⟩ := h
  have hutf8 := fromUTF8?_eq_some_iff.2 (Eq.refl (utf8 text))
  simp [load, read?_of_hasText ht, hutf8, hd]

theorem load_of_no_text (h : ∀ text, ¬ files.HasText input text) :
    load input (files.read? input) = .error (.unreadable input) := by
  have hnone : (files.read? input >>= fun bytes => String.fromUTF8? ⟨bytes.toArray⟩) = none := by
    rw [Option.eq_none_iff_forall_ne_some]
    intro text htext
    obtain ⟨bytes, hread, hutf8⟩ := Option.bind_eq_some_iff.1 htext
    rw [fromUTF8?_eq_some_iff.1 hutf8] at hread
    exact h text (hasText_of_read? hread)
  simp [load, hnone]

theorem run_of_load_error {e : BuildError} (h : load input (files.read? input) = .error e) :
    run limits input output files = ⟨.error e, files, []⟩ := by
  simp [run, h]

theorem run_of_not_writable {e : OutputError} (h : files.HasProgram input p)
    (hw : files.writable output = .error e) :
    (run limits input output files).result = .error (.halted (.refused (.output e))) ∧
      (run limits input output files).files = files := by
  simp [run, load_of_hasProgram h, hw, FileTree.remove_of_not_writable hw]

theorem run_of_compile_ok (h : files.HasProgram input p) (hw : files.writable output = .ok path)
    (hc : (p.compile limits {}).1 = .ok ()) :
    (run limits input output files).result = .ok () ∧
      (run limits input output files).files =
        (files.put path []).put path (p.compile limits {}).2.sink.stored := by
  simp [run, load_of_hasProgram h, hw, hc]

theorem run_of_compile_error {halt : Halt} (h : files.HasProgram input p)
    (hw : files.writable output = .ok path) (hc : (p.compile limits {}).1 = .error halt) :
    (run limits input output files).result = .error (.halted halt) ∧
      (run limits input output files).files = (files.put path []).remove output := by
  simp [run, load_of_hasProgram h, hw, hc]

end Cases

/-- What a build leaves behind, by how far it comes. -/
structure Effects (limits : Limits) (input output : String) (files : FileTree)
    (outcome : Outcome) : Prop where
  /-- Nothing changes but the file that is the output. -/
  elsewhere : ∀ path, files.resolve output ≠ .ok (path, false) →
    outcome.files.node? path = files.node? path
  workingDirectory : outcome.files.workingDirectory = files.workingDirectory
  /-- The input is missing, is a directory, or is not the UTF-8 of a text. -/
  unreadable : (∀ text, ¬ files.HasText input text) →
    outcome.result = .error (.unreadable input) ∧ outcome.files = files
  notAProgram : ∀ text, files.HasText input text → (Tree.decode? text : Option Program) = none →
    outcome.result = .error (.notAProgram input) ∧ outcome.files = files
  unopened : ∀ p e, files.HasProgram input p → files.writable output = .error e →
    outcome.result = .error (.halted (.refused (.output e))) ∧ outcome.files = files
  written : ∀ p path, files.HasProgram input p → files.writable output = .ok path →
    (p.compile limits {}).1 = .ok () →
    outcome.result = .ok () ∧
      outcome.files.node? path = some (.file (p.compile limits {}).2.sink.stored) ∧
      outcome.files.read? output = some (p.compile limits {}).2.sink.stored
  /-- The output is gone, also one that was there before. -/
  removed : ∀ p path halt, files.HasProgram input p → files.writable output = .ok path →
    (p.compile limits {}).1 = .error halt →
    (∃ e, halt = .refused e) ∧ outcome.result = .error (.halted halt) ∧
      outcome.files.node? path = none ∧ outcome.files.read? output = none

theorem not_underflow_of_compile {limits : Limits} {p : Program} {halt : Halt}
    (h : (p.compile limits {}).1 = .error halt) : ∃ e, halt = .refused e := by
  cases halt with
  | refused e => exact ⟨e, rfl⟩
  | underflow =>
    rw [Program.compile_unbounded] at h
    have hlaid : (Generator.new limits {}).lowering.frame.Laid := ⟨rfl, rfl, .nil⟩
    exact absurd h (Request.safe_program hlaid).no_underflow

/-- The files stay as they are, or the output was opened and then written or removed. -/
theorem run_files_cases (limits : Limits) (input output : String) (files : FileTree) :
    (run limits input output files).files = files ∨
    ∃ path contents, files.writable output = .ok path ∧
      ((run limits input output files).files = (files.put path []).put path contents ∨
        (run limits input output files).files = (files.put path []).remove output) := by
  by_cases ht : ∃ text, files.HasText input text
  · obtain ⟨text, ht⟩ := ht
    cases hd : (Tree.decode? text : Option Program) with
    | none => exact .inl (by rw [run_of_load_error (load_of_hasText ht hd)])
    | some p =>
      have hp : files.HasProgram input p := ⟨text, ht, hd⟩
      cases hw : files.writable output with
      | error e => exact .inl (run_of_not_writable hp hw).2
      | ok path =>
        refine .inr ⟨path, (p.compile limits {}).2.sink.stored, rfl, ?_⟩
        cases hc : (p.compile limits {}).1 with
        | ok u => exact .inl (run_of_compile_ok hp hw hc).2
        | error halt => exact .inr (run_of_compile_error hp hw hc).2
  · exact .inl (by rw [run_of_load_error (load_of_no_text (not_exists.1 ht))])

/-- Whatever the files, the limits and the names, a build has these effects and no others. -/
theorem run_effects (limits : Limits) (input output : String) (files : FileTree) :
    Effects limits input output files (run limits input output files) where
  elsewhere path hpath := by
    rcases run_files_cases limits input output files with h | ⟨opened, contents, hw, h⟩
    · rw [h]
    · have hne : path ≠ opened := by
        rintro rfl
        exact hpath (FileTree.of_writable hw).1
      rcases h with h | h <;> rw [h]
      · rw [FileTree.node?_put_of_writable (FileTree.writable_put hw), if_neg hne,
          FileTree.node?_put_of_writable hw, if_neg hne]
      · rw [FileTree.node?_remove_put hw, if_neg hne]
  workingDirectory := by
    rcases run_files_cases limits input output files with h | ⟨path, contents, -, h | h⟩ <;> rw [h]
    · rw [FileTree.workingDirectory_put, FileTree.workingDirectory_put]
    · rw [FileTree.workingDirectory_remove, FileTree.workingDirectory_put]
  unreadable h := by
    rw [run_of_load_error (load_of_no_text h)]
    exact ⟨rfl, rfl⟩
  notAProgram text h hd := by
    rw [run_of_load_error (load_of_hasText h hd)]
    exact ⟨rfl, rfl⟩
  unopened p e hp hw := run_of_not_writable hp hw
  written p path hp hw hc := by
    obtain ⟨hresult, hfiles⟩ := run_of_compile_ok hp hw hc
    have hopened : (files.put path []).writable output = .ok path := FileTree.writable_put hw
    refine ⟨hresult, ?_, ?_⟩ <;> rw [hfiles]
    · rw [FileTree.node?_put_of_writable hopened, if_pos rfl]
    · exact FileTree.read?_put hopened
  removed p path halt hp hw hc := by
    obtain ⟨hresult, hfiles⟩ := run_of_compile_error hp hw hc
    refine ⟨not_underflow_of_compile hc, hresult, ?_, ?_⟩ <;> rw [hfiles]
    · rw [FileTree.node?_remove_put hw, if_pos rfl]
    · exact FileTree.read?_remove_put hw

/-- A program that is refused is gone where it is its own output. -/
example :
    let source := utf8 "[[],[[\"main\",[],[\"Break\"]]]]"
    (run {} "p" "./p" { nodes := [(["p"], .file source)] }).files = {} := by
  decide +kernel

end Build

end WordLang
