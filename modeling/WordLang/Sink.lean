/-!
# Sinks

Where bytes go. A sink of bounded capacity stores the part of a write that still fits and then
fails, so what it holds is always the beginning of what was to be written.
-/
namespace WordLang

/-- Why output could not be written. -/
inductive OutputError where
  | full
  | flushFailed
  | noSuchFile
  | notADirectory
  | isADirectory
  | nameTooLong
  /-- A file name holds a zero byte. -/
  | zeroInName
  /-- A failure that the system describes in its own words. -/
  | system (text : String)
  deriving DecidableEq, Repr

def OutputError.message : OutputError → String
  | .full => "failed to write whole buffer"
  | .flushFailed => "flush failed"
  | .noSuchFile => "No such file or directory (os error 2)"
  | .notADirectory => "Not a directory (os error 20)"
  | .isADirectory => "Is a directory (os error 21)"
  | .nameTooLong => "File name too long (os error 36)"
  | .zeroInName => "file name contained an unexpected NUL byte"
  | .system text => text

structure Sink where
  /-- Bytes that the sink can hold, if bounded. -/
  capacity : Option Nat := none
  flushFails : Bool := false
  stored : List UInt8 := []
  deriving DecidableEq, Repr

/-- The UTF-8 bytes of a text. -/
def utf8 (text : String) : List UInt8 :=
  text.toUTF8.data.toList

namespace Sink

/-- Stores what fits of `bytes`, and fails if that is not all. -/
def write (sink : Sink) (bytes : List UInt8) : Except OutputError Unit × Sink :=
  match sink.capacity with
  | none => (.ok (), { sink with stored := sink.stored ++ bytes })
  | some capacity =>
    let room := capacity - sink.stored.length
    (if bytes.length ≤ room then .ok () else .error .full,
      { sink with stored := sink.stored ++ bytes.take room })

def flush (sink : Sink) : Except OutputError Unit :=
  if sink.flushFails then .error .flushFailed else .ok ()

/-- Writes `parts` one after another, up to the first that does not fit. -/
def writeAll (sink : Sink) : List (List UInt8) → Except OutputError Unit × Sink
  | [] => (.ok (), sink)
  | bytes :: rest =>
    match sink.write bytes with
    | (.ok (), sink) => sink.writeAll rest
    | (.error e, sink) => (.error e, sink)

end Sink

end WordLang
