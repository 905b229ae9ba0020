import WordLang.Host.Basic

/-!
# Calls on lists

A handle is `none` if the null address was passed. Only `destroy` accepts that; every other call
faults and names itself, or the call it stands for.
-/
namespace WordLang

inductive ListCall where
  | create
  | append (list : Option Handle) (value : Int64)
  | get (list : Option Handle) (index : Int64)
  /-- Stands for `get`. -/
  | getInteger (list : Option Handle) (index : Int64)
  | set (list : Option Handle) (index value : Int64)
  | insert (list : Option Handle) (index value : Int64)
  | remove (list : Option Handle) (index : Int64)
  | clear (list : Option Handle)
  | find (list : Option Handle) (value : Int64)
  | sort (list : Option Handle)
  | reverse (list : Option Handle)
  | copy (list : Option Handle)
  | merge (first second : Option Handle)
  | length (list : Option Handle)
  | destroy (list : Option Handle)
  deriving DecidableEq, Repr

/-- What a call returns. -/
inductive Reply where
  | nothing
  | word (value : Int64)
  | handle (handle : Handle)
  deriving DecidableEq, Repr

namespace ListCall

/-- What `find` returns if the value is absent. -/
def notFound : Int64 := -1

/-- Changes the list behind a handle. -/
def update (op : String) (list : Option Handle) (f : WordList → Except Fault WordList) :
    Run Reply := do
  let (handle, l) ← Run.list op list
  Run.setList handle (← Run.orFail (f l))
  return .nothing

/-- Asks the list behind a handle for a word. -/
def query (op : String) (list : Option Handle) (f : WordList → Except Fault Int64) :
    Run Reply := do
  let (_, l) ← Run.list op list
  return .word (← Run.orFail (f l))

def run : ListCall → Run Reply
  | .create => return .handle (← Run.create {})
  | .append list value => update "list_append" list fun l => .ok (l.append value)
  | .get list index | .getInteger list index => query "list_get" list (·.get index)
  | .set list index value => update "list_set" list (·.set index value)
  | .insert list index value => update "list_insert" list (·.insert index value)
  | .remove list index => do
    let (handle, l) ← Run.list "list_remove" list
    let (value, l) ← Run.orFail (l.remove index)
    Run.setList handle l
    return .word value
  | .clear list => update "list_clear" list fun l => .ok l.clear
  | .find list value => query "list_find" list fun l =>
    .ok (match l.find? value with
      | some i => Int64.ofNat i
      | none => notFound)
  | .sort list => update "list_sort" list fun l => .ok l.sort
  | .reverse list => update "list_reverse" list fun l => .ok l.reverse
  | .copy list => do
    let (_, l) ← Run.list "list_copy" list
    return .handle (← Run.create l)
  | .merge first second => do
    let (_, l) ← Run.list "list_merge" first
    let (_, m) ← Run.list "list_merge" second
    return .handle (← Run.create (l.merge m))
  | .length list => query "list_length" list fun l => .ok (Int64.ofNat l.length)
  | .destroy none => return .nothing
  | .destroy (some handle) => do
    let _ ← Run.list "list_destroy" (some handle)
    modify (·.dropList handle)
    return .nothing

end ListCall

end WordLang
