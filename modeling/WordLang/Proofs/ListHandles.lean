import Mathlib.Data.List.Induction
import Mathlib.Data.List.ReduceOption
import Mathlib.Logic.Function.Basic
import WordLang.Proofs.IndexedAccess

/-!
# Lists behind handles

Compiled programs reach their lists only through handles. To them, each live handle is a list value
of its own, whatever was copied, merged, passed twice or destroyed before: what a call comes to is
said here for values that are kept apart, and a process is shown to answer every sequence of calls
as such values do, up to the first fault, which it prints.
-/
namespace WordLang

/-- What a call comes to. -/
inductive Effect where
  /-- A word is returned, and all lists stay as they are. -/
  | answer (value : Int64)
  /-- The list behind `handle` is now `l`; a word may be returned. -/
  | change (handle : Handle) (l : WordList) (value : Option Int64)
  /-- There is one list more, and its handle is returned. -/
  | make (l : WordList)
  /-- A list is gone, unless the null address was passed. -/
  | release (list : Option Handle)

/-- What is returned, if the next list that is made goes by `new`. -/
def Effect.reply (new : Handle) : Effect → Reply
  | .answer value => .word value
  | .change _ _ (some value) => .word value
  | .change _ _ none => .nothing
  | .make _ => .handle new
  | .release _ => .nothing

namespace ListCall

/-- The name by which compiled programs call it. -/
def entryPoint : ListCall → String
  | .create => "list_create"
  | .append .. => "list_append"
  | .get .. => "list_get"
  | .getInteger .. => "list_get_integer"
  | .set .. => "list_set"
  | .insert .. => "list_insert"
  | .remove .. => "list_remove"
  | .clear .. => "list_clear"
  | .find .. => "list_find"
  | .sort .. => "list_sort"
  | .reverse .. => "list_reverse"
  | .copy .. => "list_copy"
  | .merge .. => "list_merge"
  | .length .. => "list_length"
  | .destroy .. => "list_destroy"

/-- The name that a fault gives. -/
def faultName : ListCall → String
  -- stands for `get`
  | .getInteger list index => (ListCall.get list index).entryPoint
  | call => call.entryPoint

/-- The handles that are passed, null addresses among them. -/
def arguments : ListCall → List (Option Handle)
  | .create => []
  | .append list _ | .get list _ | .getInteger list _ | .set list _ _ | .insert list _ _
  | .remove list _ | .clear list | .find list _ | .sort list | .reverse list | .copy list
  | .length list | .destroy list => [list]
  | .merge first second => [first, second]

def handles (call : ListCall) : List Handle := call.arguments.reduceOption

/-- The handle whose list the call may change: the first that is passed, if any. -/
def changes : ListCall → Option Handle
  | .append list _ | .set list _ _ | .insert list _ _ | .remove list _ | .clear list | .sort list
  | .reverse list | .destroy list => list
  | .create | .get .. | .getInteger .. | .find .. | .copy .. | .merge .. | .length .. => none

/-- The handle that is not live any more. -/
def releases : ListCall → Option Handle
  | .destroy list => list
  | _ => none

/-! ## What a call comes to on values -/

section Effect

variable (contents : Handle → WordList) (name : String)

def passed : Option Handle → Except Fault (Handle × WordList)
  | none => .error (.nullHandle name)
  | some handle => .ok (handle, contents handle)

def updated (list : Option Handle) (f : WordList → Except Fault WordList) :
    Except Fault Effect := do
  let (handle, l) ← passed contents name list
  return .change handle (← f l) none

def asked (list : Option Handle) (f : WordList → Except Fault Int64) : Except Fault Effect := do
  let (_, l) ← passed contents name list
  return .answer (← f l)

end Effect

/-- What a search returns. -/
def foundWord : Option Nat → Int64
  | some i => Int64.ofNat i
  | none => notFound

/-- The operation that the call stands for, on the values of the lists that are passed. -/
def effect (contents : Handle → WordList) (call : ListCall) : Except Fault Effect :=
  let name := call.faultName
  match call with
  | .create => .ok (.make {})
  | .append list value => updated contents name list fun l => .ok (l.append value)
  | .get list index | .getInteger list index => asked contents name list (·.get index)
  | .set list index value => updated contents name list (·.set index value)
  | .insert list index value => updated contents name list (·.insert index value)
  | .remove list index => do
    let (handle, l) ← passed contents name list
    let (value, rest) ← l.remove index
    return .change handle rest (some value)
  | .clear list => updated contents name list fun l => .ok l.clear
  | .find list value => asked contents name list fun l => .ok (foundWord (l.find? value))
  | .sort list => updated contents name list fun l => .ok l.sort
  | .reverse list => updated contents name list fun l => .ok l.reverse
  | .copy list => do
    let (_, l) ← passed contents name list
    return .make l
  | .merge first second => do
    let (_, l) ← passed contents name first
    let (_, m) ← passed contents name second
    return .make (l.merge m)
  | .length list => asked contents name list fun l => .ok (Int64.ofNat l.length)
  | .destroy list => .ok (.release list)

end ListCall

/-! ## What a process does -/

namespace Host

/-- The process after a call that came to `effect`. -/
def apply (host : Host) : Effect → Host
  | .answer _ => host
  | .change handle l _ => host.setList handle l
  | .make l =>
    { host with
      lists := host.lists ++ [(host.nextHandle, l)], nextHandle := host.nextHandle + 1 }
  | .release none => host
  | .release (some handle) => host.dropList handle

theorem printed_apply (host : Host) (effect : Effect) :
    (host.apply effect).printed = host.printed := by
  rcases effect with _ | _ | _ | (_ | _) <;> rfl

section Lists

variable (host : Host) (handle other : Handle) (l : WordList)

theorem list?_setList : (host.setList handle l).list? other =
    if other = handle then (host.list? other).map fun _ => l else host.list? other := by
  unfold list? setList
  induction host.lists with
  | nil => simp
  | cons entry lists ih => grind

theorem list?_dropList : (host.dropList handle).list? other =
    if other = handle then none else host.list? other := by
  unfold list? dropList
  induction host.lists with
  | nil => simp
  | cons entry lists ih => grind

theorem list?_make : (host.apply (.make l)).list? other =
    (host.list? other).or (if other = host.nextHandle then some l else none) := by
  unfold list? apply
  rw [List.find?_append, Option.map_or]
  by_cases hnew : other = host.nextHandle
  · simp [hnew]
  · simp [hnew, Ne.symm hnew]

end Lists

/-- A fault is printed and ends the process; without one it goes on with `next`. -/
def orFault {α β : Type} (host : Host) (result : Except Fault α)
    (next : α → Except Stop β × Host) : Except Stop β × Host :=
  match result with
  | .ok a => next a
  | .error fault => (.error (.exit 1), host.afterFault fault)

theorem orFault_bind {α β γ : Type} (host : Host) (result : Except Fault α)
    (f : α → Except Fault β) (next : β → Except Stop γ × Host) :
    host.orFault (result >>= f) next = host.orFault result fun a => host.orFault (f a) next := by
  cases result <;> rfl

/-- What the process answers to a call that comes to `result`. -/
def answer (host : Host) (result : Except Fault Effect) : Except Stop Reply × Host :=
  host.orFault result fun effect => (.ok (effect.reply host.nextHandle), host.apply effect)

end Host

namespace ListCall

variable {host : Host} {contents : Handle → WordList} {list : Option Handle}

theorem outcome_list_bind {β : Type}
    (h : ∀ handle ∈ list, host.list? handle = some (contents handle))
    (name : String) (next : Handle × WordList → Run β) :
    Run.outcome (Run.list name list >>= next) host =
      host.orFault (passed contents name list) fun entry => Run.outcome (next entry) host := by
  cases list with
  | none => rfl
  | some handle =>
    rw [Run.outcome_bind, Run.outcome_list (h handle rfl)]
    rfl

theorem outcome_orFail_bind {α β : Type} (result : Except Fault α) (next : α → Run β) :
    Run.outcome (Run.orFail result >>= next) host =
      host.orFault result fun a => Run.outcome (next a) host := by
  cases result <;> rfl

theorem outcome_update (h : ∀ handle ∈ list, host.list? handle = some (contents handle))
    (name : String) (f : WordList → Except Fault WordList) :
    Run.outcome (update name list f) host = host.answer (updated contents name list f) := by
  simp only [update, updated, Host.answer, outcome_list_bind h, outcome_orFail_bind,
    Host.orFault_bind]
  rfl

theorem outcome_query (h : ∀ handle ∈ list, host.list? handle = some (contents handle))
    (name : String) (f : WordList → Except Fault Int64) :
    Run.outcome (query name list f) host = host.answer (asked contents name list f) := by
  simp only [query, asked, Host.answer, outcome_list_bind h, outcome_orFail_bind,
    Host.orFault_bind]
  rfl

/-- All that a call does, if the handles passed are live. -/
theorem outcome_run (call : ListCall)
    (h : ∀ handle ∈ call.handles, host.list? handle = some (contents handle)) :
    Run.outcome call.run host = host.answer (call.effect contents) := by
  have hargs {list : Option Handle} (hlist : list ∈ call.arguments) :
      ∀ handle ∈ list, host.list? handle = some (contents handle) := fun handle hhandle =>
    h handle (List.reduceOption_mem_iff.2 (Option.mem_def.1 hhandle ▸ hlist))
  cases call with
  | create => rfl
  | get list | getInteger list | find list | length list =>
    simp only [run, effect]
    exact outcome_query (hargs (.head _)) _ _
  | append list | set list | insert list | clear list | sort list | reverse list =>
    simp only [run, effect]
    exact outcome_update (hargs (.head _)) _ _
  | remove list index =>
    simp only [run, effect, Host.answer, outcome_list_bind (hargs (.head _)),
      outcome_orFail_bind, Host.orFault_bind]
    rfl
  | copy list =>
    simp only [run, effect, Host.answer, outcome_list_bind (hargs (.head _)), Host.orFault_bind]
    rfl
  | merge first second =>
    simp only [run, effect, Host.answer, outcome_list_bind (hargs (.head _)),
      outcome_list_bind (hargs (.tail _ (.head _))), Host.orFault_bind]
    rfl
  | destroy list =>
    cases list with
    | none => rfl
    | some handle =>
      rw [run, outcome_list_bind (hargs (.head _))]
      rfl

/-! ## What a call leaves alone -/

/-- The effect is on the list that the call may change, and of the kind that the call is. -/
def Allows (call : ListCall) : Effect → Prop
  | .answer _ | .make _ => call.changes = none ∧ call.releases = none
  | .change handle _ _ => call.changes = some handle ∧ call.releases = none
  | .release list => call.changes = list ∧ call.releases = list

theorem exists_of_bind_eq_ok {α β : Type} {result : Except Fault α} {f : α → Except Fault β} {b : β}
    (h : result >>= f = .ok b) : ∃ a, result = .ok a ∧ f a = .ok b := by
  cases result with
  | error fault => cases h
  | ok a => exact ⟨a, rfl, h⟩

theorem eq_of_passed {name : String} {entry : Handle × WordList}
    (h : passed contents name list = .ok entry) : list = some entry.1 := by
  cases list with
  | none => cases h
  | some handle =>
    cases h
    rfl

theorem allows_of_effect {call : ListCall} {effect : Effect}
    (h : call.effect contents = .ok effect) : call.Allows effect := by
  cases call with
  | create | destroy =>
    cases h
    exact ⟨rfl, rfl⟩
  | get list | getInteger list | find list | length list =>
    obtain ⟨entry, -, h⟩ := exists_of_bind_eq_ok h
    obtain ⟨value, -, h⟩ := exists_of_bind_eq_ok h
    cases h
    exact ⟨rfl, rfl⟩
  | append list | set list | insert list | clear list | sort list | reverse list
  | remove list index =>
    obtain ⟨entry, hpassed, h⟩ := exists_of_bind_eq_ok h
    obtain ⟨l, -, h⟩ := exists_of_bind_eq_ok h
    cases h
    exact ⟨eq_of_passed hpassed, rfl⟩
  | copy list =>
    obtain ⟨entry, -, h⟩ := exists_of_bind_eq_ok h
    cases h
    exact ⟨rfl, rfl⟩
  | merge first second =>
    obtain ⟨entry, -, h⟩ := exists_of_bind_eq_ok h
    obtain ⟨entry, -, h⟩ := exists_of_bind_eq_ok h
    cases h
    exact ⟨rfl, rfl⟩

theorem mem_handles_of_changes {call : ListCall} {handle : Handle}
    (h : call.changes = some handle) : handle ∈ call.handles := by
  rw [handles, List.reduceOption_mem_iff, ← h]
  cases call with
  | append | set | insert | remove | clear | sort | reverse | destroy => exact .head _
  | create | get | getInteger | find | copy | merge | length => cases h

/-- A call leaves alone every list but the one that it may change. -/
theorem list?_apply_of_allows {call : ListCall} {effect : Effect} {handle : Handle} {l : WordList}
    (hallows : call.Allows effect) (hne : call.changes ≠ some handle)
    (hl : host.list? handle = some l) : (host.apply effect).list? handle = some l := by
  cases effect with
  | answer value => exact hl
  | change changed m value =>
    have hother : handle ≠ changed := fun he => hne (he ▸ hallows.1)
    rw [Host.apply, Host.list?_setList, if_neg hother, hl]
  | make m => rw [Host.list?_make, hl, Option.some_or]
  | release list =>
    cases list with
    | none => exact hl
    | some released =>
      have hother : handle ≠ released := fun he => hne (he ▸ hallows.1)
      rw [Host.apply, Host.list?_dropList, if_neg hother, hl]

theorem outcome_run_of_isSome {call : ListCall}
    (h : ∀ handle ∈ call.handles, (host.list? handle).isSome) :
    Run.outcome call.run host =
      host.answer (call.effect fun handle => (host.list? handle).getD {}) := by
  refine outcome_run call fun handle hm => ?_
  obtain ⟨l, hl⟩ := Option.isSome_iff_exists.1 (h handle hm)
  rw [hl, Option.getD_some]

theorem list?_outcome_of_changes_ne {call : ListCall} {handle : Handle} {l : WordList}
    (h : ∀ handle ∈ call.handles, (host.list? handle).isSome) (hne : call.changes ≠ some handle)
    (hl : host.list? handle = some l) : (Run.outcome call.run host).2.list? handle = some l := by
  rw [outcome_run_of_isSome h]
  cases heffect : call.effect fun handle => (host.list? handle).getD {} with
  | error fault => exact hl
  | ok effect => exact list?_apply_of_allows (allows_of_effect heffect) hne hl

/-! ## Null addresses and searches -/

theorem effect_of_null {call : ListCall} (hnull : none ∈ call.arguments)
    (hdestroy : ∀ list, call ≠ .destroy list) (contents : Handle → WordList) :
    call.effect contents = .error (.nullHandle call.faultName) := by
  cases call with
  | create => simp [arguments] at hnull
  | destroy list => exact absurd rfl (hdestroy list)
  | merge first second =>
    rcases List.mem_cons.1 hnull with rfl | hnull
    · rfl
    · obtain rfl := List.mem_singleton.1 hnull
      cases first <;> rfl
  | append list | get list | getInteger list | set list | insert list | remove list | clear list
  | find list | sort list | reverse list | copy list | length list =>
    obtain rfl := List.mem_singleton.1 hnull
    rfl

theorem outcome_of_null {call : ListCall}
    (h : ∀ handle ∈ call.handles, (host.list? handle).isSome) (hnull : none ∈ call.arguments)
    (hdestroy : ∀ list, call ≠ .destroy list) :
    Run.outcome call.run host =
      (.error (.exit 1), host.afterFault (.nullHandle call.faultName)) := by
  rw [outcome_run_of_isSome h, effect_of_null hnull hdestroy]
  rfl

theorem outcome_find {handle : Handle} {l : WordList} (hl : host.list? handle = some l)
    (value : Int64) :
    Run.outcome (ListCall.find (some handle) value).run host =
      (.ok (.word (foundWord (l.find? value))), host) := by
  have h : ∀ other ∈ some handle, host.list? other = some ((fun _ => l) other) := by
    rintro other ⟨⟩
    exact hl
  exact outcome_query h "list_find" fun l => .ok (foundWord (l.find? value))

theorem ofNat_ne_notFound {i : Nat} (hi : i < UInt64.size - 1) : Int64.ofNat i ≠ notFound := by
  intro h
  have hword : (Int64.ofNat i).toBitVec.toNat = notFound.toBitVec.toNat := by rw [h]
  have hleft : (Int64.ofNat i).toBitVec.toNat = i := by
    rw [Int64.toBitVec_ofNat', BitVec.toNat_ofNat]
    exact Nat.mod_eq_of_lt (Nat.lt_of_lt_of_le hi (Nat.sub_le ..))
  have hright : notFound.toBitVec.toNat = UInt64.size - 1 := by decide
  omega

/-- The length of a list is a word, so no position is taken for the word of an absent value. -/
theorem foundWord_find?_eq_iff {l : WordList} (hl : l.length < UInt64.size) (value : Int64) :
    foundWord (l.find? value) = notFound ↔ value ∉ l.items := by
  cases hfind : l.find? value with
  | none => simp [foundWord, List.idxOf?_eq_none_iff.1 hfind]
  | some i =>
    have hmem : value ∈ l.items := List.isSome_idxOf?.1 (by rw [← WordList.find?, hfind]; rfl)
    obtain ⟨hi, -⟩ := List.idxOf?_eq_some_iff.1 hfind
    have hword : Int64.ofNat i ≠ notFound :=
      ofNat_ne_notFound (Nat.lt_of_lt_of_le hi (Nat.le_sub_one_of_lt hl))
    simpa [foundWord, hmem] using hword

/-! ## Calls one after another -/

/-- The handles that are live once a call was answered. -/
def liveAfter (call : ListCall) (reply : Reply) (live : List Handle) : List Handle :=
  match reply with
  | .handle new => new :: live
  | .nothing | .word _ => live.filter fun handle => call.releases ≠ some handle

theorem liveAfter_of_releases_eq_none {call : ListCall} {reply : Reply}
    (h : call.releases = none) (hreply : ∀ new, reply ≠ .handle new) (live : List Handle) :
    call.liveAfter reply live = live := by
  cases reply with
  | handle new => exact absurd rfl (hreply new)
  | nothing | word => simp [liveAfter, h]

end ListCall

/-- Calls one after another, each with its reply, up to one that did not return. -/
structure Session (σ ε : Type) where
  state : σ
  log : List (ListCall × Reply) := []
  stop : Option ε := none

namespace Session

variable {σ ε : Type}

/-- One more call, unless the process has ended. -/
def next (step : ListCall → σ → Except ε Reply × σ) (session : Session σ ε) (call : ListCall) :
    Session σ ε :=
  match session.stop with
  | some _ => session
  | none =>
    match step call session.state with
    | (.ok reply, state) => { session with state, log := session.log ++ [(call, reply)] }
    | (.error e, state) => { session with state, stop := some e }

/-- The handles that were returned and not destroyed since. -/
def live (session : Session σ ε) : List Handle :=
  session.log.foldl (fun live exchange => exchange.1.liveAfter exchange.2 live) []

end Session

def Host.session (host : Host) (calls : List ListCall) : Session Host Stop :=
  calls.foldl (Session.next fun call host => Run.outcome call.run host) { state := host }

/-- Lists that are values and kept apart. A list goes by the number of lists made before it. -/
structure Values where
  contents : Handle → WordList := fun _ => {}
  made : Nat := 0

namespace Values

def apply (values : Values) : Effect → Values
  | .answer _ | .release _ => values
  | .change handle l _ => { values with contents := Function.update values.contents handle l }
  | .make l =>
    { contents := Function.update values.contents values.made l, made := values.made + 1 }

def answer (call : ListCall) (values : Values) : Except Fault Reply × Values :=
  match call.effect values.contents with
  | .ok effect => (.ok (effect.reply values.made), values.apply effect)
  | .error fault => (.error fault, values)

def session (calls : List ListCall) : Session Values Fault :=
  calls.foldl (Session.next answer) { state := {} }

/-- The process keeps the values behind the live handles, and nothing behind others. -/
structure Represents (live : List Handle) (values : Values) (host : Host) : Prop where
  list?_eq : ∀ handle,
    host.list? handle = if handle ∈ live then some (values.contents handle) else none
  made_eq : host.nextHandle = values.made
  below : ∀ handle ∈ live, handle < values.made

theorem Represents.apply {live : List Handle} {values : Values} {host : Host} {call : ListCall}
    {effect : Effect} (h : Represents live values host) (hallows : call.Allows effect)
    (hlive : ∀ handle, call.changes = some handle → handle ∈ live) :
    Represents (call.liveAfter (effect.reply values.made) live) (values.apply effect)
      (host.apply effect) := by
  cases effect with
  | answer value =>
    rw [ListCall.liveAfter_of_releases_eq_none hallows.2 (by simp [Effect.reply])]
    exact h
  | change handle l value =>
    rw [ListCall.liveAfter_of_releases_eq_none hallows.2 (by cases value <;> simp [Effect.reply])]
    refine ⟨fun other => ?_, h.made_eq, h.below⟩
    have hhandle := hlive handle hallows.1
    simp only [Host.apply, Values.apply, Host.list?_setList, h.list?_eq, Function.update_apply]
    by_cases hother : other = handle
    · simp [hother, hhandle]
    · simp [hother]
  | make l =>
    have hnew : values.made ∉ live := fun hm => Nat.lt_irrefl _ (h.below _ hm)
    refine ⟨fun other => ?_, congrArg (· + 1) h.made_eq, fun handle hm => ?_⟩
    · simp only [Host.list?_make, Values.apply, ListCall.liveAfter, Effect.reply, h.list?_eq,
        h.made_eq, Function.update_apply, List.mem_cons]
      by_cases hother : other = values.made
      · simp [hother, hnew]
      · simp [hother]
    · rcases List.mem_cons.1 hm with rfl | hm
      · exact Nat.lt_succ_self _
      · exact Nat.lt_succ_of_lt (h.below _ hm)
  | release list =>
    have hlist := hallows.2
    cases list with
    | none =>
      rw [ListCall.liveAfter_of_releases_eq_none hlist (by simp [Effect.reply])]
      exact h
    | some handle =>
      refine ⟨fun other => ?_, h.made_eq, fun other hm => ?_⟩
      · simp only [Host.apply, Values.apply, Host.list?_dropList, ListCall.liveAfter, Effect.reply,
          h.list?_eq, hlist]
        by_cases hother : other = handle
        · simp [hother]
        · simp [hother, Ne.symm hother]
      · exact h.below _ (List.mem_filter.1 hm).1

/-- What is printed about a session. -/
def report (session : Session Values Fault) : List UInt8 :=
  match session.stop with
  | some fault => (Diagnostic.fault fault).flatten
  | none => []

/-- The process and the values were asked the same and gave the same replies; the process ended with
the first fault of the values, which it printed, or goes on and has their lists. -/
structure Agree (process : Session Host Stop) (values : Session Values Fault) : Prop where
  log : process.log = values.log
  stop : process.stop = values.stop.map fun _ => .exit 1
  printed : process.state.printed = report values
  represents : Represents process.live values.state process.state

theorem Agree.next {process : Session Host Stop} {values : Session Values Fault} {call : ListCall}
    (h : Agree process values)
    (hlive : process.stop = none → ∀ handle ∈ call.handles, handle ∈ process.live) :
    Agree (process.next (fun call host => Run.outcome call.run host) call)
      (values.next answer call) := by
  have hstop := h.stop
  cases hfault : values.stop with
  | some fault =>
    rw [hfault, Option.map_some] at hstop
    simpa [Session.next, hstop, hfault] using h
  | none =>
    rw [hfault, Option.map_none] at hstop
    have hprinted : process.state.printed = [] := by rw [h.printed, report, hfault]
    have houtcome : Run.outcome call.run process.state =
        process.state.answer (call.effect values.state.contents) :=
      ListCall.outcome_run call fun handle hm => by
        rw [h.represents.list?_eq, if_pos (hlive hstop handle hm)]
    cases heffect : call.effect values.state.contents with
    | error fault =>
      simp only [Session.next, hstop, hfault, houtcome, answer, heffect, Host.answer, Host.orFault]
      exact ⟨h.log, rfl, by simp [Host.afterFault, hprinted, report],
        h.represents.list?_eq, h.represents.made_eq, h.represents.below⟩
    | ok effect =>
      have hallows := ListCall.allows_of_effect heffect
      have happly := h.represents.apply hallows fun handle hchanges =>
        hlive hstop handle (ListCall.mem_handles_of_changes hchanges)
      simp only [Session.next, hstop, hfault, houtcome, answer, heffect, Host.answer, Host.orFault,
        h.represents.made_eq]
      refine ⟨by rw [h.log], rfl, ?_, ?_⟩
      · rw [Host.printed_apply, hprinted, report]
      · simpa [Session.live] using happly

end Values

namespace Host

/-- At every call that is reached, the handles that are passed are live. -/
def PassesLive (host : Host) (calls : List ListCall) : Prop :=
  ∀ i (h : i < calls.length), (host.session (calls.take i)).stop = none →
    ∀ handle ∈ calls[i].handles, handle ∈ (host.session (calls.take i)).live

instance (host : Host) (calls : List ListCall) : Decidable (host.PassesLive calls) :=
  inferInstanceAs (Decidable (∀ i (h : i < calls.length),
    (host.session (calls.take i)).stop = none →
      ∀ handle ∈ calls[i].handles, handle ∈ (host.session (calls.take i)).live))

theorem session_concat (host : Host) (calls : List ListCall) (call : ListCall) :
    host.session (calls ++ [call]) =
      (host.session calls).next (fun call host => Run.outcome call.run host) call := by
  simp [session]

theorem PassesLive.of_concat {host : Host} {calls : List ListCall} {call : ListCall}
    (h : host.PassesLive (calls ++ [call])) :
    host.PassesLive calls ∧
      ((host.session calls).stop = none →
        ∀ handle ∈ call.handles, handle ∈ (host.session calls).live) := by
  refine ⟨fun i hi => ?_, ?_⟩
  · have hthen := h i (by simp; omega)
    rwa [List.take_append_of_le_length (Nat.le_of_lt hi), List.getElem_append_left hi] at hthen
  · simpa using h calls.length (by simp)

/-- A process that starts without lists answers as values do. -/
theorem agree_session (random : RandomSource) {calls : List ListCall}
    (h : ({ random } : Host).PassesLive calls) :
    Values.Agree (({ random } : Host).session calls) (Values.session calls) := by
  induction calls using List.reverseRecOn with
  | nil =>
    refine ⟨rfl, rfl, rfl, fun handle => ?_, rfl, fun handle hm => ?_⟩
    · simp [session, Session.live, list?]
    · simp [session, Session.live] at hm
  | append_singleton calls call ih =>
    obtain ⟨hearlier, hlast⟩ := h.of_concat
    have hvalues : Values.session (calls ++ [call]) =
        (Values.session calls).next Values.answer call := by
      simp [Values.session]
    rw [session_concat, hvalues]
    exact (ih hearlier).next hlast

/-- For every sequence of calls whose handles are live, a process gives the replies and has the
lists of values that are kept apart, and prints their first fault. A call leaves alone every list
but the first that is passed, and many leave alone that one too. A null address is a fault, which
gives the name of the call or of the one that it stands for; only `destroy` accepts it. A search
returns -1 exactly for an absent value, if the length of the list is a word. -/
theorem session_agrees (random : RandomSource) (calls : List ListCall)
    (hlive : ({ random } : Host).PassesLive calls) :
    Values.Agree (({ random } : Host).session calls) (Values.session calls) ∧
    (∀ (host : Host) (call : ListCall), (∀ handle ∈ call.handles, (host.list? handle).isSome) →
      (∀ handle l, call.changes ≠ some handle → host.list? handle = some l →
        (Run.outcome call.run host).2.list? handle = some l) ∧
      (none ∈ call.arguments → (∀ list, call ≠ .destroy list) →
        Run.outcome call.run host =
          (.error (.exit 1), host.afterFault (.nullHandle call.faultName)))) ∧
    (∀ host : Host, Run.outcome (ListCall.destroy none).run host = (.ok .nothing, host)) ∧
    ∀ (host : Host) handle l value, host.list? handle = some l → l.length < UInt64.size →
      ∃ word, Run.outcome (ListCall.find (some handle) value).run host = (.ok (.word word), host) ∧
        (word = -1 ↔ value ∉ l.items) := by
  refine ⟨agree_session random hlive, fun host call hcall => ⟨fun handle l hne hl => ?_, ?_⟩,
    fun host => rfl, fun host handle l value hl hlength => ?_⟩
  · exact ListCall.list?_outcome_of_changes_ne hcall hne hl
  · exact ListCall.outcome_of_null hcall
  · exact ⟨ListCall.foundWord (l.find? value), ListCall.outcome_find hl value,
      ListCall.foundWord_find?_eq_iff hlength value⟩

/-- A list that is merged with itself, destroyed, and outlived by a copy of the result, until an
index is out of range. -/
def aliasedCalls : List ListCall :=
  [.create, .append (some 0) 3, .merge (some 0) (some 0), .destroy (some 0), .copy (some 1),
    .set (some 2) 0 4, .find (some 1) 4, .get (some 2) 5]

theorem session_agrees_aliased :
    ({ random := ⟨1⟩ } : Host).PassesLive aliasedCalls ∧
    (({ random := ⟨1⟩ } : Host).session aliasedCalls).stop = some (.exit 1) ∧
    (({ random := ⟨1⟩ } : Host).session aliasedCalls).state.list? 1 = some ⟨[3, 3]⟩ := by
  have hlive : ({ random := ⟨1⟩ } : Host).PassesLive aliasedCalls := by decide +kernel
  have hagree := (session_agrees ⟨1⟩ aliasedCalls hlive).1
  refine ⟨hlive, hagree.stop.trans ?_, (hagree.represents.list?_eq 1).trans ?_⟩
  · decide +kernel
  · decide +kernel

/-- A null address that is passed to `getInteger` is not reported under its own name. -/
theorem getInteger_null_not_named :
    none ∈ (ListCall.getInteger none 0).arguments ∧
    Run.outcome (ListCall.getInteger none 0).run { random := ⟨1⟩ } ≠
      (.error (.exit 1), ({ random := ⟨1⟩ } : Host).afterFault
        (.nullHandle (ListCall.getInteger none 0).entryPoint)) := by
  refine ⟨.head _, fun h => ?_⟩
  have hprinted := congrArg (fun result => result.2.printed.length) h
  exact absurd hprinted (by decide +kernel)

end Host

end WordLang
