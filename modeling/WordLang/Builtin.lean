/-!
# Functions of the support library

The functions that a program may call without defining them. Arguments come in the order handle,
index, value.
-/
namespace WordLang

inductive BuiltinGroup where
  | list | math | system
  deriving DecidableEq, Repr

structure Builtin where
  name : String
  arity : Nat
  group : BuiltinGroup
  deriving DecidableEq, Repr

namespace BuiltinGroup

def name : BuiltinGroup → String
  | .list => "list"
  | .math => "math"
  | .system => "system"

def rank : BuiltinGroup → Nat
  | .list => 0
  | .math => 1
  | .system => 2

end BuiltinGroup

namespace Builtin

def all : List Builtin := [
  ⟨"list_create", 0, .list⟩,
  ⟨"list_append", 2, .list⟩,
  ⟨"list_get", 2, .list⟩,
  ⟨"list_get_integer", 2, .list⟩,
  ⟨"list_set", 3, .list⟩,
  ⟨"list_insert", 3, .list⟩,
  ⟨"list_remove", 2, .list⟩,
  ⟨"list_clear", 1, .list⟩,
  ⟨"list_find", 2, .list⟩,
  ⟨"list_sort", 1, .list⟩,
  ⟨"list_reverse", 1, .list⟩,
  ⟨"list_copy", 1, .list⟩,
  ⟨"list_merge", 2, .list⟩,
  ⟨"list_length", 1, .list⟩,
  ⟨"list_destroy", 1, .list⟩,
  ⟨"runtime_sin", 1, .math⟩,
  ⟨"runtime_cos", 1, .math⟩,
  ⟨"runtime_tan", 1, .math⟩,
  ⟨"runtime_sqrt", 1, .math⟩,
  ⟨"runtime_pow", 2, .math⟩,
  ⟨"runtime_abs", 1, .math⟩,
  ⟨"runtime_floor", 1, .math⟩,
  ⟨"runtime_ceil", 1, .math⟩,
  ⟨"runtime_min", 2, .math⟩,
  ⟨"runtime_max", 2, .math⟩,
  ⟨"runtime_random", 0, .math⟩,
  ⟨"runtime_log", 1, .math⟩,
  ⟨"runtime_exp", 1, .math⟩,
  ⟨"print_string", 1, .system⟩,
  ⟨"print_integer", 1, .system⟩,
  ⟨"print_newline", 0, .system⟩,
  ⟨"runtime_panic", 1, .system⟩,
  ⟨"runtime_assert", 2, .system⟩,
  ⟨"exit_with_code", 1, .system⟩]

def find? (name : String) : Option Builtin := all.find? (·.name == name)

/-- By group, then by name. -/
def before (a b : Builtin) : Bool :=
  a.group.rank < b.group.rank || a.group.rank == b.group.rank && a.name ≤ b.name

def line (f : Builtin) : String :=
  let group := f.group.name
  group.pushn ' ' (7 - group.length) ++ " " ++ f.name ++ "/" ++ toString f.arity

/-- One line per function, by group and name. -/
def listing : String :=
  "\n".intercalate ((all.mergeSort before).map line)

end Builtin

end WordLang
