import WordLang.Json.Basic
import WordLang.Json.Token
import WordLang.Json.Text
import WordLang.Table
import WordLang.Tree.Basic
import WordLang.Tree.Encode
import WordLang.Tree.Decode
import WordLang.Limits
import WordLang.Sink
import WordLang.CompileError
import WordLang.Asm.Register
import WordLang.Asm.Quoted
import WordLang.Asm.Instr
import WordLang.StringPool
import WordLang.Builtin
import WordLang.Frame
import WordLang.Event
import WordLang.Asm.Routine
import WordLang.Lowering.Basic
import WordLang.Lowering.Expr
import WordLang.Lowering.Stmt
import WordLang.Generator
import WordLang.Fault
import WordLang.WordList
import WordLang.FixedPoint
import WordLang.RandomSource
import WordLang.Diagnostic
import WordLang.Host.Basic
import WordLang.Host.ListCall
import WordLang.Host.Call
import WordLang.FileTree
import WordLang.Build
import WordLang.CommandLine
import WordLang.Main
import WordLang.Proofs.Lowers
import WordLang.Proofs.Layout
import WordLang.Proofs.Growth
import WordLang.Proofs.Assembly
import WordLang.Proofs.Scope
import WordLang.Proofs.Primitives
import WordLang.Proofs.FrameSafety
import WordLang.Proofs.Labels
import WordLang.Proofs.StackHeight
import WordLang.Proofs.WellFormed
import WordLang.Proofs.Acceptance
import WordLang.Proofs.Memory
import WordLang.Proofs.Machine
import WordLang.Proofs.Semantics
import WordLang.Proofs.Operators
import WordLang.Proofs.Image
import WordLang.Proofs.Activation
import WordLang.Proofs.Expressions
import WordLang.Proofs.Statements
import WordLang.Proofs.Preservation
import WordLang.Proofs.Escapes
import WordLang.Proofs.Listing
import WordLang.Proofs.CodeText
import WordLang.Proofs.Literals
import WordLang.Proofs.History
import WordLang.Proofs.LabelSoundness
import WordLang.Proofs.TextVariables
import WordLang.Proofs.Lockstep
import WordLang.Proofs.LockstepExpressions
import WordLang.Proofs.LockstepStatements
import WordLang.Proofs.LockstepCalls
import WordLang.Proofs.DivideErrors
import WordLang.Proofs.StaleStack
import WordLang.Proofs.BetweenRequests
import WordLang.Proofs.RecordAccess
import WordLang.Proofs.Truncation
import WordLang.Proofs.FailedFunction
import WordLang.Proofs.JsonText
import WordLang.Proofs.RoundTrip
import WordLang.Proofs.Reordering
import WordLang.Proofs.PrintedText
import WordLang.Proofs.LimitErrors
import WordLang.Proofs.BuildFiles
import WordLang.Proofs.DataSection
import WordLang.Proofs.ExpressionContract
import WordLang.Proofs.Quoting
import WordLang.Proofs.SquareRoot
import WordLang.Proofs.DecimalNumerals
import WordLang.Proofs.JsonContainers
import WordLang.Proofs.RecordForms
import WordLang.Proofs.RandomStreams
import WordLang.Proofs.Rounding
import WordLang.Proofs.IndexedAccess
import WordLang.Proofs.Sorting
import WordLang.Proofs.Interning
import WordLang.Proofs.FrameHistory
import WordLang.Proofs.ListHandles
import WordLang.Proofs.OpenLoops
