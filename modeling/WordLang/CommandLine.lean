import WordLang.Build
import WordLang.Builtin
import WordLang.Diagnostic

/-!
# Command line

One input file, an output file, two limits, and a listing of the support library.
-/
namespace WordLang

/-- What a command line asks for. -/
inductive Command where
  | help
  | listBuiltins
  | build (input output : String) (limits : Limits)
  deriving DecidableEq, Repr

namespace CommandLine

/-- Options that take a value. -/
inductive Valued where
  | output | maxVariables | maxStrings
  deriving DecidableEq, Repr

/-- What was given so far. -/
structure Given where
  input : Option String := none
  output : Option String := none
  maxVariables : Option Nat := none
  maxStrings : Option Nat := none
  listBuiltins : Bool := false
  deriving DecidableEq, Repr

/-- A decimal number below `2 ^ 64`, perhaps with a plus sign. -/
def limit? (text : String) : Option Nat :=
  let digits := match text.toList with
    | '+' :: ds => ds
    | ds => ds
  let value := Nat.ofDigitChars 10 digits 0
  if !digits.isEmpty && digits.all Char.isDigit && value < UInt64.size then some value else none

namespace Given

/-- Takes the input file, once. -/
def addInput (g : Given) (value : String) : Option Given :=
  if g.input.isNone && value != "" then some { g with input := some value } else none

/-- Takes the value of an option, once. -/
def add (g : Given) (option : Valued) (value : String) : Option Given :=
  match option with
  | .output =>
    if g.output.isNone && value != "" then some { g with output := some value } else none
  | .maxVariables => do
    let n ← limit? value
    if g.maxVariables.isNone then some { g with maxVariables := some n } else none
  | .maxStrings => do
    let n ← limit? value
    if g.maxStrings.isNone then some { g with maxStrings := some n } else none

def limits (g : Given) : Limits where
  maxVariables := g.maxVariables.getD ({} : Limits).maxVariables
  maxStrings := g.maxStrings.getD ({} : Limits).maxStrings

def command? (g : Given) : Option Command :=
  if g.listBuiltins then some .listBuiltins
  else g.input.map fun input => .build input (g.output.getD "out.s") g.limits

end Given

/-- One argument, by its form. -/
inductive Arg where
  /-- All that follows are file names. -/
  | endOfOptions
  | help
  | listBuiltins
  /-- An option with the value that is attached to it. -/
  | option (o : Valued) (value : Option String)
  | operand (text : String)
  | unknown
  deriving DecidableEq, Repr

/-- An option given by its long name. -/
def longOption (name : List Char) (value : Option String) : Arg :=
  match String.ofList name, value with
  | "out", value => .option .output value
  | "max-variables", value => .option .maxVariables value
  | "max-strings", value => .option .maxStrings value
  | "list-abi", none => .listBuiltins
  | "help", none => .help
  | _, _ => .unknown

def Arg.ofChars : List Char → Arg
  | ['-', '-'] => .endOfOptions
  | '-' :: '-' :: cs =>
    match cs.dropWhile (· != '=') with
    | [] => longOption cs none
    | _ :: value => longOption (cs.takeWhile (· != '=')) (some (String.ofList value))
  | ['-', 'o'] => .option .output none
  | '-' :: 'o' :: '=' :: value => .option .output (some (String.ofList value))
  | '-' :: 'o' :: value => .option .output (some (String.ofList value))
  | '-' :: 'h' :: _ => .help
  | '-' :: _ :: _ => .unknown
  | cs => .operand (String.ofList cs)

def Arg.ofString (text : String) : Arg := Arg.ofChars text.toList

def parseFrom (g : Given) : List String → Option Command
  | [] => g.command?
  | arg :: rest =>
    match Arg.ofString arg with
    | .endOfOptions => do (← rest.foldlM Given.addInput g).command?
    | .help => some .help
    | .listBuiltins =>
      if g.listBuiltins then none else parseFrom { g with listBuiltins := true } rest
    | .option o (some value) => do parseFrom (← g.add o value) rest
    | .option o none =>
      match rest with
      | [] => none
      | next :: rest =>
        match Arg.ofString next with
        | .operand value => do parseFrom (← g.add o value) rest
        | _ => none
    | .operand text => do parseFrom (← g.addInput text) rest
    | .unknown => none

/-- The command that the arguments ask for, or `none` if they cannot be understood. -/
def parse? (args : List String) : Option Command := parseFrom {} args

def usage : String :=
  "Usage: [OPTIONS] [INPUT]\n\n" ++
  "  INPUT                program tree as JSON\n" ++
  "  -o, --out FILE       assembly file (default out.s)\n" ++
  "  --max-variables N    variables allowed per function (default 256)\n" ++
  "  --max-strings N      distinct string literals allowed (default 4096)\n" ++
  "  --list-abi           print the functions of the support library\n" ++
  "  -h, --help           print this text\n"

/-- What is reported when a build fails. -/
def report : BuildError → List UInt8
  | .halted (.refused e) => (Diagnostic.compileError e).flatten
  | e =>
    let text := e.message
    utf8 s!"Error: {text}\n"

structure Outcome where
  status : Nat
  stdout : String := ""
  stderr : List UInt8 := []
  files : FileTree

/-- Runs the command line in a working directory. -/
def run (args : List String) (files : FileTree) : Outcome :=
  match parse? args with
  | none => { status := 2, stderr := utf8 usage, files }
  | some .help => { status := 0, stdout := usage, files }
  | some .listBuiltins => { status := 0, stdout := Builtin.listing ++ "\n", files }
  | some (.build input output limits) =>
    let outcome := Build.run limits input output files
    match outcome.result with
    | .ok () => { status := 0, files := outcome.files }
    | .error e => { status := 1, stderr := report e, files := outcome.files }

end CommandLine

end WordLang
