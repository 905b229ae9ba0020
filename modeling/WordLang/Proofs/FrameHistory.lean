import Mathlib.Data.List.Induction
import Mathlib.Order.Interval.Set.Basic
import WordLang.Proofs.Primitives

/-!
# What a frame is asked, one request after another

While a function is lowered, its frame is asked to declare variables and to look them up, and is
told of loops that are entered and left. After any such history, refused declarations among them,
the frame is what the history says: the declarations that succeeded, in their order, each in the
slots directly below those before it, and the loops that were entered and not left again.
-/
namespace WordLang

open Asm

inductive FrameRequest where
  | declare (name : String) (kind : VarKind)
  | lookup (name : String)
  | enterLoop (labels : LoopLabels)
  | exitLoop
  deriving DecidableEq, Repr

namespace FrameRequest

/-- The declarations after one more request: a new name joins them as long as there is room. -/
def joined (limit : Nat) (earlier : List (String × VarKind)) :
    FrameRequest → List (String × VarKind)
  | .declare name kind =>
    if name ∈ earlier.map Prod.fst ∨ limit ≤ earlier.length then earlier
    else earlier ++ [(name, kind)]
  | .lookup _ | .enterLoop _ | .exitLoop => earlier

/-- The declarations of a history that succeed, with room for `limit` names. -/
def declared (limit : Nat) (requests : List FrameRequest) : List (String × VarKind) :=
  requests.foldl (joined limit) []

def isLoop : FrameRequest → Bool
  | .enterLoop _ | .exitLoop => true
  | .declare .. | .lookup _ => false

/-- Every loop that is entered is left again, and no other loop is left. -/
inductive Balanced : List FrameRequest → Prop where
  | nil : Balanced []
  | other {request : FrameRequest} {rest : List FrameRequest} :
      request.isLoop = false → Balanced rest → Balanced (request :: rest)
  | loop {labels : LoopLabels} {body rest : List FrameRequest} :
      Balanced body → Balanced rest → Balanced (.enterLoop labels :: (body ++ .exitLoop :: rest))

theorem Balanced.append {first second : List FrameRequest} (h : Balanced first)
    (h' : Balanced second) : Balanced (first ++ second) := by
  induction h with
  | nil => exact h'
  | other hr _ ih => exact .other hr ih
  | loop hb _ _ ih => simpa using Balanced.loop hb ih

end FrameRequest

/-- Slots that declarations ask for. -/
def slotsOf (declared : List (String × VarKind)) : Nat := (declared.map fun d => d.2.slots).sum

/-- Distances of a variable's words from the frame pointer, from the highest word to the lowest. -/
def Variable.bytes (var : Variable) : Set Nat :=
  Set.Icc (var.offset - wordSize * (var.kind.slots - 1)) var.offset

namespace Frame

open FrameRequest

/-- The frame after a request. A declaration that is refused changes nothing. -/
def after (frame : Frame) : FrameRequest → Frame
  | .declare name kind =>
    match frame.declare name kind with
    | .ok (_, frame') => frame'
    | .error _ => frame
  | .lookup _ => frame
  | .enterLoop labels => frame.enterLoop labels
  | .exitLoop => frame.exitLoop

/-- The frame of a function that has room for `limit` variables, after a history of requests. -/
def served (function : String) (limit exitLabel : Nat) (requests : List FrameRequest) : Frame :=
  requests.foldl after { function, maxVariables := limit, exitLabel }

variable {function : String} {limit exitLabel : Nat} {requests : List FrameRequest}
  {frame : Frame} {earlier : List (String × VarKind)}

theorem served_append (more : List FrameRequest) :
    served function limit exitLabel (requests ++ more) =
      more.foldl after (served function limit exitLabel requests) :=
  List.foldl_append

/-! ## Variables -/

/-- The frame has the variables that were declared, each directly below those before it. -/
structure Records (function : String) (limit : Nat) (earlier : List (String × VarKind))
    (frame : Frame) : Prop where
  function : frame.function = function
  limit : frame.maxVariables = limit
  slotSize : frame.slots.size = wordSize
  used : frame.slots.used = slotsOf earlier
  kinds : frame.vars.map (fun entry => (entry.1, entry.2.kind)) = earlier
  offsets : ∀ k entry, frame.vars[k]? = some entry →
    entry.2.offset = wordSize * slotsOf (earlier.take (k + 1))

namespace Records

variable (h : Records function limit earlier frame)
include h

theorem names : frame.vars.map Prod.fst = earlier.map Prod.fst := by
  rw [← h.kinds, List.map_map]
  rfl

theorem length_vars : frame.vars.length = earlier.length := by
  rw [← h.kinds, List.length_map]

theorem space_reserve (name : String) (kind : VarKind) :
    (frame.slots.reserve kind.slots).space = wordSize * slotsOf (earlier ++ [(name, kind)]) := by
  simp [Slots.space, Slots.reserve, h.slotSize, h.used, slotsOf, Nat.mul_comm]

theorem declare_eq (name : String) (kind : VarKind) :
    frame.declare name kind =
      if name ∈ earlier.map Prod.fst then .error (.variableAlreadyDefined name function)
      else if limit ≤ earlier.length then .error (.tooManyVariables function limit)
      else
        .ok (wordSize * slotsOf (earlier ++ [(name, kind)]), frame.after (.declare name kind)) := by
  unfold after
  unfold declare
  simp only [Table.contains_iff, h.names, h.length_vars, h.function, h.limit,
    h.space_reserve name kind]
  split_ifs <;> rfl

/-- What one request does to the variables. -/
theorem after (request : FrameRequest) :
    Records function limit (request.joined limit earlier) (frame.after request) := by
  cases request with
  | lookup name => exact h
  | enterLoop labels | exitLoop =>
    exact ⟨h.function, h.limit, h.slotSize, h.used, h.kinds, h.offsets⟩
  | declare name kind =>
    cases hd : frame.declare name kind with
    | error e =>
      have hrefused : name ∈ earlier.map Prod.fst ∨ limit ≤ earlier.length := by
        rw [← h.names, ← h.length_vars, ← h.limit]
        exact (declare_eq_error.1 hd).imp And.left fun hfull => hfull.2.1
      simpa only [joined, if_pos hrefused, Frame.after, hd] using h
    | ok result =>
      obtain ⟨hn, hlt, hoffset, hframe⟩ := declare_eq_ok.1 hd
      have hroom : ¬(name ∈ earlier.map Prod.fst ∨ limit ≤ earlier.length) := by
        rw [← h.names, ← h.length_vars, ← h.limit]
        exact not_or.2 ⟨Table.find?_eq_none_iff.1 hn, Nat.not_le.2 hlt⟩
      have hlength := h.length_vars
      simp only [joined, if_neg hroom, Frame.after, hd, hframe, hoffset, h.space_reserve name kind]
      refine ⟨h.function, h.limit, h.slotSize, ?_, ?_, fun k entry hentry => ?_⟩
      · simp [Slots.reserve, h.used, slotsOf]
      · simp [h.kinds]
      · -- The variables before the new one stay where they are, and the new one ends the list.
        rcases Nat.lt_or_ge k frame.vars.length with hk | hk
        · rw [List.getElem?_append_left hk] at hentry
          rw [h.offsets k entry hentry, List.take_append_of_le_length (by omega)]
        · rw [List.getElem?_append_right hk, List.getElem?_singleton] at hentry
          split_ifs at hentry
          cases hentry
          rw [List.take_of_length_le (by simp; omega)]

end Records

theorem records_served (function : String) (limit exitLabel : Nat)
    (requests : List FrameRequest) :
    Records function limit (declared limit requests)
      (served function limit exitLabel requests) := by
  induction requests using List.reverseRecOn with
  | nil => exact ⟨rfl, rfl, rfl, rfl, rfl, by simp [served]⟩
  | append_singleton requests request ih =>
    simpa [declared, served] using ih.after request

/-- Variables are only added. -/
theorem vars_after (frame : Frame) (request : FrameRequest) :
    frame.vars <+: (frame.after request).vars := by
  cases request with
  | lookup | enterLoop | exitLoop => exact List.prefix_rfl
  | declare name kind =>
    cases hd : frame.declare name kind with
    | error e => simp [after, hd]
    | ok result =>
      obtain ⟨-, -, -, hframe⟩ := declare_eq_ok.1 hd
      simp [after, hd, hframe]

theorem vars_foldl_after (frame : Frame) (requests : List FrameRequest) :
    frame.vars <+: (requests.foldl after frame).vars := by
  induction requests generalizing frame with
  | nil => exact List.prefix_rfl
  | cons request requests ih => exact (frame.vars_after request).trans (ih _)

/-- A variable is found as it was declared, whatever is asked afterwards. -/
theorem lookup_served_of_declare {name : String} {kind : VarKind} {offset : Nat} {frame' : Frame}
    (hd : (served function limit exitLabel requests).declare name kind = .ok (offset, frame'))
    (more : List FrameRequest) :
    (served function limit exitLabel (requests ++ .declare name kind :: more)).lookup name =
      .ok ⟨offset, kind⟩ := by
  have hafter : (served function limit exitLabel requests).after (.declare name kind) = frame' := by
    simp [after, hd]
  obtain ⟨hn, -, -, hframe⟩ := declare_eq_ok.1 hd
  have hfound : frame'.vars.find? name = some ⟨offset, kind⟩ := by
    rw [hframe]
    simp [hn]
  rw [served_append, List.foldl_cons, hafter, lookup,
    Table.find?_of_prefix (vars_foldl_after frame' more) hfound]

theorem lookup_served_of_not_mem {name : String}
    (hn : name ∉ (declared limit requests).map Prod.fst) :
    (served function limit exitLabel requests).lookup name =
      .error (.undefinedVariable name function) := by
  have h := records_served function limit exitLabel requests
  have hnone : (served function limit exitLabel requests).vars.find? name = none := by
    rw [Table.find?_eq_none_iff, h.names]
    exact hn
  rw [lookup, hnone, h.function]

/-! ## Slots -/

/-- Variables have no byte in common, and together they have the words of the frame. -/
structure Tiled (frame : Frame) : Prop where
  disjoint : ∀ name name' var var', frame.lookup name = .ok var → frame.lookup name' = .ok var' →
    name ≠ name' → ∀ x ∈ var.bytes, x ∉ var'.bytes
  covers : ∀ x, wordSize ∣ x →
    ((∃ name var, frame.lookup name = .ok var ∧ x ∈ var.bytes) ↔ wordSize ≤ x ∧ x ≤ frame.size)

theorem lookup_eq_ok {name : String} {var : Variable} :
    frame.lookup name = .ok var ↔ frame.vars.find? name = some var := by
  unfold lookup
  cases frame.vars.find? name <;> simp

theorem Laid.bytes_eq (h : frame.Laid) {name : String} {var : Variable}
    (hf : frame.vars.find? name = some var) :
    0 < var.kind.slots ∧ ∃ below, var.offset = (below + var.kind.slots) * wordSize ∧
      var.bytes = Set.Icc ((below + 1) * wordSize) ((below + var.kind.slots) * wordSize) := by
  obtain ⟨hpos, below, hoffset, -⟩ := h.placed.offset_bounds hf
  refine ⟨hpos, below, hoffset, ?_⟩
  rw [Variable.bytes, hoffset]
  congr 1
  simp only [wordSize]
  omega

/-- The words among a variable's bytes are those of its slots. -/
theorem Laid.mul_mem_bytes_iff (h : frame.Laid) {name : String} {var : Variable}
    (hf : frame.vars.find? name = some var) (k : Nat) :
    k * wordSize ∈ var.bytes ↔ ∃ index, SlotAt frame.vars name index (k * wordSize) := by
  obtain ⟨hpos, below, hoffset, hbytes⟩ := h.bytes_eq hf
  rw [hbytes, Set.mem_Icc]
  simp only [wordSize] at *
  constructor
  · rintro ⟨hlow, hhigh⟩
    exact ⟨below + var.kind.slots - k, var, hf, by omega, by simp only [wordSize]; omega⟩
  · rintro ⟨index, var', hf', hi, hslot⟩
    obtain rfl := Option.some.inj (hf.symm.trans hf')
    simp only [wordSize] at hslot
    omega

theorem Laid.tiled (h : frame.Laid) : frame.Tiled where
  disjoint name name' var var' hv hv' hne x hx hx' := by
    have hv := lookup_eq_ok.1 hv
    have hv' := lookup_eq_ok.1 hv'
    -- If two ranges meet, then in a word: the first of the one that begins later.
    suffices ∃ k, k * wordSize ∈ var.bytes ∧ k * wordSize ∈ var'.bytes by
      obtain ⟨k, hk, hk'⟩ := this
      obtain ⟨index, hs⟩ := (h.mul_mem_bytes_iff hv k).1 hk
      obtain ⟨index', hs'⟩ := (h.mul_mem_bytes_iff hv' k).1 hk'
      exact hne (h.placed.slotAt_injective hs hs').1
    obtain ⟨hpos, below, -, hbytes⟩ := h.bytes_eq hv
    obtain ⟨hpos', below', -, hbytes'⟩ := h.bytes_eq hv'
    rw [hbytes, Set.mem_Icc] at hx
    rw [hbytes', Set.mem_Icc] at hx'
    refine ⟨max below below' + 1, ?_, ?_⟩
    · rw [hbytes, Set.mem_Icc]
      simp only [wordSize] at *
      omega
    · rw [hbytes', Set.mem_Icc]
      simp only [wordSize] at *
      omega
  covers x hx := by
    obtain ⟨k, rfl⟩ := hx
    rw [Nat.mul_comm wordSize k]
    have hslots := h.slotAt_iff (k * wordSize)
    simp only [Nat.dvd_mul_left, true_and] at hslots
    rw [← hslots]
    constructor
    · rintro ⟨name, var, hv, hmem⟩
      exact ⟨name, (h.mul_mem_bytes_iff (lookup_eq_ok.1 hv) k).1 hmem⟩
    · rintro ⟨name, index, hs⟩
      obtain ⟨var, hv, -⟩ := id hs
      exact ⟨name, var, lookup_eq_ok.2 hv, (h.mul_mem_bytes_iff hv k).2 ⟨index, hs⟩⟩

theorem Laid.after (h : frame.Laid) {request : FrameRequest}
    (hslots : ∀ name kind, request = .declare name kind → 0 < kind.slots) :
    (frame.after request).Laid := by
  cases request with
  | lookup name => exact h
  | enterLoop labels | exitLoop => exact ⟨h.slotSize, h.used, h.placed⟩
  | declare name kind =>
    cases hd : frame.declare name kind with
    | error e => simpa [Frame.after, hd] using h
    | ok result => simpa [Frame.after, hd] using h.declare (hslots name kind rfl) hd

theorem laid_served
    (hslots : ∀ name kind, FrameRequest.declare name kind ∈ requests → 0 < kind.slots) :
    (served function limit exitLabel requests).Laid := by
  induction requests using List.reverseRecOn with
  | nil => exact ⟨rfl, rfl, .nil⟩
  | append_singleton requests request ih =>
    rw [served_append]
    refine (ih fun name kind hm => hslots name kind (List.mem_append_left _ hm)).after ?_
    rintro name kind rfl
    exact hslots name kind (by simp)

/-! ## Loops -/

theorem loops_after_of_isLoop_eq_false {request : FrameRequest} (h : request.isLoop = false)
    (frame : Frame) : (frame.after request).loops = frame.loops := by
  cases request with
  | enterLoop labels | exitLoop => simp [isLoop] at h
  | lookup name => rfl
  | declare name kind =>
    cases hd : frame.declare name kind with
    | error e => simp [after, hd]
    | ok result =>
      obtain ⟨-, -, -, hframe⟩ := declare_eq_ok.1 hd
      simp [after, hd, hframe]

/-- Loops that were entered and left again leave no trace. -/
theorem loops_of_balanced (h : Balanced requests) (frame : Frame) :
    (requests.foldl after frame).loops = frame.loops := by
  induction h generalizing frame with
  | nil => rfl
  | other hr _ ih => rw [List.foldl_cons, ih, loops_after_of_isLoop_eq_false hr]
  | @loop labels body rest _ _ ihbody ihrest =>
    rw [List.foldl_cons, List.foldl_append, List.foldl_cons, ihrest]
    simp [after, exitLoop, ihbody, enterLoop]

theorem loops_served_of_balanced {labels : LoopLabels} {before rest : List FrameRequest}
    (h : Balanced rest) :
    (served function limit exitLabel (before ++ .enterLoop labels :: rest)).loops =
      labels :: (served function limit exitLabel before).loops := by
  rw [served_append, List.foldl_cons, loops_of_balanced h]
  rfl

/-- An open loop was entered at some point and not left since, and the loops around it are those
that were open at that point. -/
theorem exists_of_loops_served {labels : LoopLabels} {outer : List LoopLabels}
    (h : (served function limit exitLabel requests).loops = labels :: outer) :
    ∃ before rest, requests = before ++ .enterLoop labels :: rest ∧ Balanced rest ∧
      (served function limit exitLabel before).loops = outer := by
  induction hn : requests.length using Nat.strong_induction_on
    generalizing requests labels outer with
  | _ n ih =>
    rcases List.eq_nil_or_concat requests with rfl | ⟨earlier, request, rfl⟩
    · simp [served] at h
    subst hn
    rw [List.concat_eq_append, served_append, List.foldl_cons, List.foldl_nil] at h
    by_cases hloop : request.isLoop = false
    · rw [loops_after_of_isLoop_eq_false hloop] at h
      obtain ⟨before, rest, rfl, hrest, houter⟩ := ih _ (by simp) h rfl
      exact ⟨before, rest ++ [request], by simp, hrest.append (.other hloop .nil), houter⟩
    · cases request with
      | declare name kind | lookup name => simp [isLoop] at hloop
      | enterLoop labels' =>
        simp only [after, enterLoop, List.cons.injEq] at h
        obtain ⟨rfl, houter⟩ := h
        exact ⟨earlier, [], by simp, .nil, houter⟩
      | exitLoop =>
        -- The loop that is left was entered inside this one, so the history is cut twice.
        simp only [after, exitLoop] at h
        obtain ⟨inner, hinner⟩ : ∃ inner,
            (served function limit exitLabel earlier).loops = inner :: labels :: outer := by
          cases hloops : (served function limit exitLabel earlier).loops with
          | nil => simp [hloops] at h
          | cons inner others => exact ⟨inner, by simpa [hloops] using h⟩
        obtain ⟨before, body, rfl, hbody, hbefore⟩ := ih _ (by simp) hinner rfl
        obtain ⟨before, rest, rfl, hrest, houter⟩ := ih _ (by simp) hbefore rfl
        exact ⟨before, rest ++ .enterLoop inner :: (body ++ [.exitLoop]), by simp,
          hrest.append (.loop hbody .nil), houter⟩

theorem innermostLoop?_served {labels : LoopLabels} :
    (served function limit exitLabel requests).innermostLoop? = some labels ↔
      ∃ before rest, requests = before ++ .enterLoop labels :: rest ∧ Balanced rest := by
  unfold innermostLoop?
  constructor
  · intro h
    obtain ⟨outer, houter⟩ := List.head?_eq_some_iff.1 h
    obtain ⟨before, rest, hrequests, hrest, -⟩ := exists_of_loops_served houter
    exact ⟨before, rest, hrequests, hrest⟩
  · rintro ⟨before, rest, rfl, hrest⟩
    rw [loops_served_of_balanced hrest, List.head?_cons]

/-- Lowering leaves its frame as the request does, refused or not. -/
theorem frame_of_declare (s : Lowering) (name : String) (kind : VarKind) :
    (outcome (Lower.declare name kind) s).2.frame = s.frame.after (.declare name kind) := by
  cases hd : s.frame.declare name kind with
  | ok result =>
    have hruns := Lower.runs_declare.2 ⟨_, hd, rfl⟩
    simp [show outcome (Lower.declare name kind) s = _ from hruns, after, hd]
  | error e => simp [Lower.outcome_declare_of_error hd, after, hd]

/-- After any history of requests whose records have words, a frame has the variables that were
declared, in their order; a declaration succeeds if and only if the name is new and there is room;
the variables' bytes fill the frame without overlap; a variable is found ever after as it was
declared; and the innermost loop is the last that was entered and not left again. -/
theorem served_laws (function : String) (limit exitLabel : Nat) (requests : List FrameRequest)
    (hslots : ∀ name typeName slots,
      FrameRequest.declare name (.record typeName slots) ∈ requests → 0 < slots) :
    Records function limit (declared limit requests) (served function limit exitLabel requests) ∧
    (served function limit exitLabel requests).Tiled ∧
    (served function limit exitLabel requests).size =
      wordSize * slotsOf (declared limit requests) ∧
    (∀ name kind, (served function limit exitLabel requests).declare name kind =
      if name ∈ (declared limit requests).map Prod.fst then
        .error (.variableAlreadyDefined name function)
      else if limit ≤ (declared limit requests).length then
        .error (.tooManyVariables function limit)
      else .ok (wordSize * slotsOf (declared limit requests ++ [(name, kind)]),
        served function limit exitLabel (requests ++ [.declare name kind]))) ∧
    (∀ name kind e, (served function limit exitLabel requests).declare name kind = .error e →
      served function limit exitLabel (requests ++ [.declare name kind]) =
        served function limit exitLabel requests) ∧
    (∀ name kind offset frame,
      (served function limit exitLabel requests).declare name kind = .ok (offset, frame) →
      ∀ more, (served function limit exitLabel
        (requests ++ .declare name kind :: more)).lookup name = .ok ⟨offset, kind⟩) ∧
    (∀ name, name ∉ (declared limit requests).map Prod.fst →
      (served function limit exitLabel requests).lookup name =
        .error (.undefinedVariable name function)) ∧
    (∀ labels, (served function limit exitLabel requests).innermostLoop? = some labels ↔
      ∃ before rest, requests = before ++ .enterLoop labels :: rest ∧ Balanced rest) ∧
    ((served function limit exitLabel requests).innermostLoop? = none →
      served function limit exitLabel (requests ++ [.exitLoop]) =
        served function limit exitLabel requests) ∧
    ∀ s name kind, s.frame = served function limit exitLabel requests →
      (outcome (Lower.declare name kind) s).2.frame =
        served function limit exitLabel (requests ++ [.declare name kind]) := by
  have hrecords := records_served function limit exitLabel requests
  have hlast (request : FrameRequest) : served function limit exitLabel (requests ++ [request]) =
      (served function limit exitLabel requests).after request := served_append [request]
  have hlaid : (served function limit exitLabel requests).Laid := by
    refine laid_served fun name kind hm => ?_
    cases kind with
    | scalar | string => exact Nat.one_pos
    | record typeName slots => exact hslots name typeName slots hm
  refine ⟨hrecords, hlaid.tiled, ?_, fun name kind => ?_, fun name kind e he => ?_,
    fun name kind offset frame hd => lookup_served_of_declare hd,
    fun name => lookup_served_of_not_mem, fun labels => innermostLoop?_served, fun hnone => ?_,
    fun s name kind hs => ?_⟩
  · rw [Frame.size, Slots.space, hrecords.slotSize, hrecords.used, Nat.mul_comm]
  · rw [hlast]
    exact hrecords.declare_eq name kind
  · rw [hlast, after, he]
  · have hloops : (served function limit exitLabel requests).loops = [] :=
      List.head?_eq_none_iff.1 hnone
    rw [hlast, after, exitLoop, hloops, List.tail_nil, ← hloops]
  · rw [frame_of_declare, hs, hlast]

/-- A history with a record, a name that is declared twice, one loop left too often, and a variable
for which there is no room. -/
def crowdedHistory : List FrameRequest :=
  [.declare "a" .scalar, .enterLoop ⟨1, 2⟩, .declare "p" (.record "Point" 3),
    .declare "a" .string, .exitLoop, .exitLoop, .declare "c" .scalar]

theorem served_laws_crowded :
    (∀ name typeName slots,
      FrameRequest.declare name (.record typeName slots) ∈ crowdedHistory → 0 < slots) ∧
    (served "main" 2 0 crowdedHistory).Tiled ∧ (served "main" 2 0 crowdedHistory).size = 32 := by
  have hslots : ∀ name typeName slots,
      FrameRequest.declare name (.record typeName slots) ∈ crowdedHistory → 0 < slots := by
    intro name typeName slots hm
    obtain ⟨-, -, rfl⟩ : name = "p" ∧ typeName = "Point" ∧ slots = 3 := by
      simpa [crowdedHistory] using hm
    decide
  obtain ⟨-, htiled, hsize, -⟩ := served_laws "main" 2 0 crowdedHistory hslots
  exact ⟨hslots, htiled, hsize.trans (by decide)⟩

end Frame

end WordLang
