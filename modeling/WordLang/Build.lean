import WordLang.FileTree
import WordLang.Generator
import WordLang.Tree.Decode

/-!
# Compilation from file to file

The output is opened as soon as the input turns out to be a program. Where opening it or generating
the program fails, no output is left behind, not even one that was there before.
-/
namespace WordLang

inductive BuildError where
  | unreadable (input : String)
  | notAProgram (input : String)
  | halted (cause : Halt)
  deriving DecidableEq, Repr

def BuildError.message : BuildError → String
  | .unreadable input => s!"cannot read program tree `{input}`"
  | .notAProgram input => s!"`{input}` is not a valid program tree"
  | .halted (.refused e) => e.message
  | .halted .underflow => "frame underflow"

namespace Build

/-- The program that a file holds; `contents` is `none` if it cannot be read. -/
def load (input : String) (contents : Option (List UInt8)) : Except BuildError Program := do
  match contents >>= fun bytes => String.fromUTF8? ⟨bytes.toArray⟩ with
  | none => .error (.unreadable input)
  | some text =>
    match Tree.decode? text with
    | none => .error (.notAProgram input)
    | some program => .ok program

structure Outcome where
  result : Except BuildError Unit
  files : FileTree
  log : List Event

/-- Compiles the file `input` into the file `output`. -/
def run (limits : Limits) (input output : String) (files : FileTree) : Outcome :=
  match load input (files.read? input) with
  | .error e => ⟨.error e, files, []⟩
  | .ok p =>
    let begun := Event.compiling input p.functions.length p.types.length
    match files.writable output with
    | .error e => ⟨.error (.halted (.refused (.output e))), files.remove output, [begun]⟩
    | .ok path =>
      let opened := files.put path []
      let (result, g) := p.compile limits {}
      let log := begun :: .opened output :: g.events
      match result with
      | .ok () => ⟨.ok (), opened.put path g.sink.stored, log ++ [.wrote output]⟩
      | .error h => ⟨.error (.halted h), opened.remove output, log⟩

end Build

end WordLang
