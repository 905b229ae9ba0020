/-!
# Tables keyed by names

A table lists its entries in the order in which their names were first put in. Putting a value
under a name that is there already replaces the value and keeps its place.
-/
namespace WordLang

abbrev Table (α : Type) := List (String × α)

namespace Table

variable {α : Type}

/-- The value under a name. -/
def find? : Table α → String → Option α
  | [], _ => none
  | (key, value) :: rest, name => if key = name then some value else find? rest name

def contains (t : Table α) (name : String) : Bool :=
  (t.find? name).isSome

def put : Table α → String → α → Table α
  | [], name, value => [(name, value)]
  | (key, old) :: rest, name, value =>
    if key = name then (key, value) :: rest else (key, old) :: put rest name value

end Table

end WordLang
