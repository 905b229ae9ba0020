import Mathlib.Data.List.InsertIdx
import WordLang.Host.ListCall

/-!
# Indexed access to lists

An index is a signed word, and means a position if it is neither negative nor past the last
position that the operation accepts; where an element is put in, one more is accepted than where one
has to be there. What each operation does at a position is said once, and the laws that relate the
operations follow from this.
-/
namespace WordLang

namespace WordList

/-- `i` means one of the first `bound` positions. -/
def InBounds (i : Int64) (bound : Nat) : Prop := 0 ≤ i.toInt ∧ i.toInt < bound

/-- An operation with the index `i` on a list of length `n` succeeds at the first `bound` positions,
and is refused with the index and the length otherwise. -/
structure Checked {α : Type} (i : Int64) (bound n : Nat) (result : Except Fault α) : Prop where
  ok_iff : (∃ a, result = .ok a) ↔ InBounds i bound
  refused : ¬InBounds i bound → result = .error (.indexOutOfRange i n)

/-! ## What an operation does at a position -/

section Position

variable {l m : WordList} {i j v w : Int64} {bound k : Nat}

theorem InBounds.exists_eq (h : InBounds i bound) : ∃ k : Nat, i.toInt = k ∧ k < bound := by
  obtain ⟨hpos, hlt⟩ := h
  exact ⟨i.toInt.toNat, by omega, by omega⟩

theorem inBounds_of_eq (hi : i.toInt = k) (hk : k < bound) : InBounds i bound := by
  unfold InBounds
  omega

theorem position_of_eq (hi : i.toInt = k) (hk : k < bound) : l.position i bound = .ok k := by
  have h : l.position i bound = .ok i.toInt.toNat := if_pos (inBounds_of_eq hi hk)
  rw [h, hi, Int.toNat_natCast]

theorem position_of_not_inBounds (h : ¬InBounds i bound) :
    l.position i bound = .error (.indexOutOfRange i l.length) := if_neg h

theorem exists_item (hk : k < l.length) : ∃ w, l.items[k]? = some w :=
  ⟨_, List.getElem?_eq_getElem hk⟩

theorem get_of_eq (hi : i.toInt = k) (hw : l.items[k]? = some w) : l.get i = .ok w := by
  have hk : k < l.length := (List.getElem?_eq_some_iff.1 hw).1
  simp [get, position_of_eq hi hk, hw, bind, Except.bind]

theorem set_of_eq (hi : i.toInt = k) (hk : k < l.length) (v : Int64) :
    l.set i v = .ok ⟨l.items.set k v⟩ := by
  rw [set, position_of_eq hi hk]
  rfl

theorem insert_of_eq (hi : i.toInt = k) (hk : k ≤ l.length) (v : Int64) :
    l.insert i v = .ok ⟨l.items.insertIdx k v⟩ := by
  rw [insert, position_of_eq hi (Nat.lt_succ_of_le hk)]
  rfl

theorem remove_of_eq (hi : i.toInt = k) (hw : l.items[k]? = some w) :
    l.remove i = .ok (w, ⟨l.items.eraseIdx k⟩) := by
  have hk : k < l.length := (List.getElem?_eq_some_iff.1 hw).1
  rw [remove, get_of_eq hi hw, position_of_eq hi hk]
  rfl

/-! ## Success and refusal -/

theorem checked_of {α : Type} {n : Nat} {result : Except Fault α}
    (hok : ∀ k : Nat, i.toInt = k → k < bound → ∃ a, result = .ok a)
    (hrefused : ¬InBounds i bound → result = .error (.indexOutOfRange i n)) :
    Checked i bound n result := by
  refine ⟨⟨fun ⟨a, ha⟩ => ?_, fun h => ?_⟩, hrefused⟩
  · by_contra h
    simp [hrefused h] at ha
  · obtain ⟨k, hi, hk⟩ := h.exists_eq
    exact hok k hi hk

theorem get_checked (l : WordList) (i : Int64) : Checked i l.length l.length (l.get i) := by
  refine checked_of (fun k hi hk => ?_) fun h => ?_
  · obtain ⟨w, hw⟩ := exists_item hk
    exact ⟨w, get_of_eq hi hw⟩
  · rw [get, position_of_not_inBounds h]
    rfl

theorem set_checked (l : WordList) (i v : Int64) : Checked i l.length l.length (l.set i v) := by
  refine checked_of (fun k hi hk => ?_) fun h => ?_
  · exact ⟨_, set_of_eq hi hk v⟩
  · rw [set, position_of_not_inBounds h]
    rfl

theorem insert_checked (l : WordList) (i v : Int64) :
    Checked i (l.length + 1) l.length (l.insert i v) := by
  refine checked_of (fun k hi hk => ?_) fun h => ?_
  · exact ⟨_, insert_of_eq hi (Nat.le_of_lt_succ hk) v⟩
  · rw [insert, position_of_not_inBounds h]
    rfl

theorem remove_checked (l : WordList) (i : Int64) : Checked i l.length l.length (l.remove i) := by
  refine checked_of (fun k hi hk => ?_) fun h => ?_
  · obtain ⟨w, hw⟩ := exists_item hk
    exact ⟨_, remove_of_eq hi hw⟩
  · rw [remove, (get_checked l i).refused h]
    rfl

/-! ## What a success says -/

theorem exists_of_get (h : l.get i = .ok w) : ∃ k : Nat, i.toInt = k ∧ l.items[k]? = some w := by
  obtain ⟨k, hi, hk⟩ := ((get_checked l i).ok_iff.1 ⟨w, h⟩).exists_eq
  obtain ⟨u, hu⟩ := exists_item hk
  rw [get_of_eq hi hu, Except.ok.injEq] at h
  exact ⟨k, hi, h ▸ hu⟩

theorem exists_of_set (h : l.set i v = .ok m) :
    ∃ k : Nat, i.toInt = k ∧ k < l.length ∧ m = ⟨l.items.set k v⟩ := by
  obtain ⟨k, hi, hk⟩ := ((set_checked l i v).ok_iff.1 ⟨m, h⟩).exists_eq
  rw [set_of_eq hi hk, Except.ok.injEq] at h
  exact ⟨k, hi, hk, h.symm⟩

theorem exists_of_insert (h : l.insert i v = .ok m) :
    ∃ k : Nat, i.toInt = k ∧ k ≤ l.length ∧ m = ⟨l.items.insertIdx k v⟩ := by
  obtain ⟨k, hi, hk⟩ := ((insert_checked l i v).ok_iff.1 ⟨m, h⟩).exists_eq
  rw [insert_of_eq hi (Nat.le_of_lt_succ hk), Except.ok.injEq] at h
  exact ⟨k, hi, Nat.le_of_lt_succ hk, h.symm⟩

theorem exists_of_remove (h : l.remove i = .ok (w, m)) :
    ∃ k : Nat, i.toInt = k ∧ l.items[k]? = some w ∧ m = ⟨l.items.eraseIdx k⟩ := by
  obtain ⟨k, hi, hk⟩ := ((remove_checked l i).ok_iff.1 ⟨_, h⟩).exists_eq
  obtain ⟨u, hu⟩ := exists_item hk
  rw [remove_of_eq hi hu, Except.ok.injEq, Prod.mk.injEq] at h
  exact ⟨k, hi, h.1 ▸ hu, h.2.symm⟩

/-! ## Laws -/

theorem get_eq_get {n : Nat} (hj : j.toInt = n) (hi : i.toInt = k) (hk : k < l.length)
    (h : m.items[n]? = l.items[k]?) : m.get j = l.get i := by
  obtain ⟨w, hw⟩ := exists_item hk
  rw [get_of_eq hi hw, get_of_eq hj (h.trans hw)]

theorem get_of_set (h : l.set i v = .ok m) (j : Int64) :
    m.get j = if j = i then .ok v else l.get j := by
  obtain ⟨k, hi, hk, rfl⟩ := exists_of_set h
  have hlength : (⟨l.items.set k v⟩ : WordList).length = l.length := List.length_set ..
  by_cases hin : InBounds j l.length
  · obtain ⟨n, hj, hn⟩ := hin.exists_eq
    have heq : j = i ↔ k = n := by
      rw [← Int64.toInt_inj]
      omega
    by_cases hsame : j = i
    · rw [if_pos hsame]
      exact get_of_eq hj (by grind [length])
    · rw [if_neg hsame]
      exact get_eq_get hj hj hn (by grind)
  · have hsame : j ≠ i := by
      rintro rfl
      exact hin (inBounds_of_eq hi hk)
    rw [if_neg hsame, (get_checked l j).refused hin, (get_checked _ j).refused (hlength ▸ hin),
      hlength]

/-- Elements before the new one stay where they are, and the others move up by one. -/
theorem get_of_insert (h : l.insert i v = .ok m) :
    m.length = l.length + 1 ∧ (∀ j, 0 ≤ j → j < i → m.get j = l.get j) ∧ m.get i = .ok v ∧
      ∀ j, i < j → j.toInt ≤ l.length → m.get j = l.get (j - 1) := by
  obtain ⟨k, hi, hk, rfl⟩ := exists_of_insert h
  refine ⟨List.length_insertIdx_of_le_length hk .., fun j hpos hlt => ?_, ?_, fun j hlt hle => ?_⟩
  · have hpos : 0 ≤ j.toInt := Int64.le_iff_toInt_le.1 hpos
    have hlt : j.toInt < i.toInt := Int64.lt_iff_toInt_lt.1 hlt
    obtain ⟨n, hj⟩ := Int.eq_ofNat_of_zero_le hpos
    exact get_eq_get hj hj (by omega) (by grind)
  · exact get_of_eq hi (by grind [length])
  · have hlt : i.toInt < j.toInt := Int64.lt_iff_toInt_lt.1 hlt
    obtain ⟨n, hj⟩ : ∃ n : Nat, j.toInt = (n + 1 : Nat) := ⟨j.toInt.toNat - 1, by omega⟩
    have hpred : (j - 1).toInt = n := by
      have hmax := Int64.toInt_lt j
      have hone : (1 : Int64).toInt = 1 := rfl
      rw [Int64.toInt_sub, hone, hj, Int.bmod_eq_of_le (by omega) (by omega)]
      omega
    exact get_eq_get hj hpred (by omega) (by grind)

theorem remove_of_insert (h : l.insert i v = .ok m) : m.remove i = .ok (v, l) := by
  obtain ⟨k, hi, hk, rfl⟩ := exists_of_insert h
  have hitem : (l.items.insertIdx k v)[k]? = some v := by grind [length]
  have hremove := remove_of_eq (l := ⟨l.items.insertIdx k v⟩) hi hitem
  rwa [List.eraseIdx_insertIdx_self] at hremove

theorem insert_of_remove (h : l.remove i = .ok (w, m)) : m.insert i w = .ok l := by
  obtain ⟨k, hi, hw, rfl⟩ := exists_of_remove h
  obtain ⟨hk, rfl⟩ := List.getElem?_eq_some_iff.1 hw
  have hle : k ≤ (⟨l.items.eraseIdx k⟩ : WordList).length := by grind [length]
  rw [insert_of_eq hi hle, List.insertIdx_eraseIdx_getElem hk]

end Position

end WordList

/-! ## Refused calls -/

/-- The process after a fault was printed. -/
def Host.afterFault (host : Host) (fault : Fault) : Host :=
  { host with printed := host.printed ++ (Diagnostic.fault fault).flatten }

namespace Run

variable {α β : Type} {host : Host} {handle : Handle} {l : WordList} {fault : Fault}

/-- What a call gives: a value or the reason why it does not return, and the process after it. -/
def outcome (call : Run α) (host : Host) : Except Stop α × Host := ExceptT.run call host

theorem outcome_bind (call : Run α) (next : α → Run β) (host : Host) :
    outcome (call >>= next) host =
      match outcome call host with
      | (.ok a, host') => outcome (next a) host'
      | (.error stop, host') => (.error stop, host') := by
  unfold outcome ExceptT.run
  simp only [bind, ExceptT.bind, ExceptT.mk, StateT.bind]
  rcases call host with ⟨_ | a, host'⟩ <;> rfl

theorem outcome_list (h : host.list? handle = some l) (op : String) :
    outcome (list op (some handle)) host = (.ok (handle, l), host) := by
  have hget : outcome get host = (.ok host, host) := rfl
  rw [list, outcome_bind, hget]
  simp only [h]
  rfl

/-- If a list refuses what it is asked, the rest of the call is not reached. -/
theorem outcome_of_error {f : WordList → Except Fault α} (hl : host.list? handle = some l)
    (hf : f l = .error fault) (op : String) (next : Handle × WordList → α → Run β) :
    outcome (list op (some handle) >>= fun entry => orFail (f entry.2) >>= next entry) host =
      (.error (.exit 1), host.afterFault fault) := by
  rw [outcome_bind, outcome_list hl]
  simp only [hf]
  rfl

end Run

namespace ListCall

variable {host : Host} {handle : Handle} {l : WordList} {fault : Fault}

/-- The calls with the index `i`, each with the number of positions that it accepts in a list of
length `n`. -/
def indexed (handle : Handle) (i v : Int64) (n : Nat) : List (ListCall × Nat) :=
  [(.get (some handle) i, n), (.set (some handle) i v, n), (.remove (some handle) i, n),
    (.insert (some handle) i v, n + 1)]

theorem outcome_query_of_error {f : WordList → Except Fault Int64} (hl : host.list? handle = some l)
    (hf : f l = .error fault) (op : String) :
    Run.outcome (query op (some handle) f) host = (.error (.exit 1), host.afterFault fault) :=
  Run.outcome_of_error hl hf op fun _ value => pure (Reply.word value)

theorem outcome_update_of_error {f : WordList → Except Fault WordList}
    (hl : host.list? handle = some l) (hf : f l = .error fault) (op : String) :
    Run.outcome (update op (some handle) f) host = (.error (.exit 1), host.afterFault fault) :=
  Run.outcome_of_error hl hf op fun entry changed =>
    Run.setList entry.1 changed >>= fun _ => pure Reply.nothing

theorem outcome_remove_of_error {i : Int64} (hl : host.list? handle = some l)
    (hf : l.remove i = .error fault) :
    Run.outcome (run (.remove (some handle) i)) host =
      (.error (.exit 1), host.afterFault fault) :=
  Run.outcome_of_error (f := (·.remove i)) hl hf "list_remove" fun entry removed =>
    Run.setList entry.1 removed.2 >>= fun _ => pure (Reply.word removed.1)

/-- A call with an index that it does not accept leaves all lists alone. -/
theorem lists_of_not_inBounds {i v : Int64} {entry : ListCall × Nat}
    (hl : host.list? handle = some l) (hentry : entry ∈ indexed handle i v l.length)
    (h : ¬WordList.InBounds i entry.2) : (Run.outcome entry.1.run host).2.lists = host.lists := by
  suffices hfault : Run.outcome entry.1.run host =
      (.error (.exit 1), host.afterFault (.indexOutOfRange i l.length)) by
    rw [hfault]
    rfl
  simp only [indexed, List.mem_cons, List.not_mem_nil, or_false] at hentry
  rcases hentry with rfl | rfl | rfl | rfl
  · exact outcome_query_of_error (f := (·.get i)) hl ((l.get_checked i).refused h) "list_get"
  · exact outcome_update_of_error (f := (·.set i v)) hl ((l.set_checked i v).refused h) "list_set"
  · exact outcome_remove_of_error hl ((l.remove_checked i).refused h)
  · exact outcome_update_of_error (f := (·.insert i v)) hl ((l.insert_checked i v).refused h)
      "list_insert"

end ListCall

/-- Indexed operations accept exactly the positions that there are, one more where an element is put
in, and change nothing otherwise. Reading gives back what was stored, and putting an element in and
taking it out undo each other. -/
theorem WordList.indexed_access_laws (l : WordList) (i v : Int64) :
    Checked i l.length l.length (l.get i) ∧
    Checked i l.length l.length (l.set i v) ∧
    Checked i l.length l.length (l.remove i) ∧
    Checked i (l.length + 1) l.length (l.insert i v) ∧
    (∀ (host : Host) (handle : Handle), host.list? handle = some l →
      ∀ entry ∈ ListCall.indexed handle i v l.length, ¬InBounds i entry.2 →
        (Run.outcome entry.1.run host).2.lists = host.lists) ∧
    (∀ w, l.get i = .ok w → ∃ k : Nat, i.toInt = k ∧ l.items[k]? = some w) ∧
    (∀ m, l.set i v = .ok m → ∀ j, m.get j = if j = i then .ok v else l.get j) ∧
    (∀ m, l.insert i v = .ok m →
      m.length = l.length + 1 ∧ (∀ j, 0 ≤ j → j < i → m.get j = l.get j) ∧ m.get i = .ok v ∧
      ∀ j, i < j → j.toInt ≤ l.length → m.get j = l.get (j - 1)) ∧
    (∀ m, l.insert i v = .ok m → m.remove i = .ok (v, l)) ∧
    ∀ w m, l.remove i = .ok (w, m) → m.insert i w = .ok l :=
  ⟨l.get_checked i, l.set_checked i v, l.remove_checked i, l.insert_checked i v,
    fun _ _ hl _ hentry h => ListCall.lists_of_not_inBounds hl hentry h, fun _ => exists_of_get,
    fun _ => get_of_set, fun _ => get_of_insert, fun _ => remove_of_insert,
    fun _ _ => insert_of_remove⟩

end WordLang
