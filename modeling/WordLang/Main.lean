import WordLang.CommandLine

/-!
# The compiler as a program

Reads and writes real files; what to do with them is decided by `CommandLine` and `Build`.
-/
namespace WordLang

/-- The contents of a file, if it can be read. -/
def readInput (name : String) : IO (Option (List UInt8)) := do
  try
    let bytes ← IO.FS.readBinFile name
    return some bytes.data.toList
  catch _ => return none

def outputError : IO.Error → OutputError
  | .noFileOrDirectory .. => .noSuchFile
  | .inappropriateType _ 20 _ => .notADirectory
  | .inappropriateType _ 21 _ => .isADirectory
  | .invalidArgument _ 36 _ => .nameTooLong
  | e => .system (toString e)

/-- Opens the output for writing and empties it. -/
def openOutput (name : String) : IO (Except OutputError IO.FS.Handle) := do
  try
    return .ok (← IO.FS.Handle.mk name .write)
  catch e => return .error (outputError e)

/-- Removes the output of a build that failed, if there is one. -/
def removeOutput (name : String) : IO Unit := do
  try
    IO.FS.removeFile name
  catch _ => return

def writeError (bytes : List UInt8) : IO Unit := do
  (← IO.getStderr).write ⟨bytes.toArray⟩

/-- Compiles one file into another, and returns the exit status. -/
def buildFile (limits : Limits) (input output : String) : IO UInt32 := do
  match Build.load input (← readInput input) with
  | .error e =>
    writeError (CommandLine.report e)
    return 1
  | .ok p =>
    match ← openOutput output with
    | .error e =>
      removeOutput output
      writeError (CommandLine.report (.halted (.refused (.output e))))
      return 1
    | .ok handle =>
      let (result, g) := p.compile limits {}
      match result with
      | .ok () =>
        handle.write ⟨g.sink.stored.toArray⟩
        handle.flush
        return 0
      | .error h =>
        removeOutput output
        writeError (CommandLine.report (.halted h))
        return 1

end WordLang

def main (args : List String) : IO UInt32 := do
  match WordLang.CommandLine.parse? args with
  | none =>
    IO.eprint WordLang.CommandLine.usage
    return 2
  | some .help =>
    IO.print WordLang.CommandLine.usage
    return 0
  | some .listBuiltins =>
    IO.println WordLang.Builtin.listing
    return 0
  | some (.build input output limits) => WordLang.buildFile limits input output
