import StackLang.Command
import StackLang.Command.Directory
import StackLang.Command.History
import StackLang.Command.Options
import StackLang.Command.Reader
import StackLang.Command.Scalar
import StackLang.Error
import StackLang.Fault
import StackLang.Log.Lines
import StackLang.Log.Report
import StackLang.Log.Trace
import StackLang.Machine
import StackLang.Machine.Dump
import StackLang.Machine.Step
import StackLang.Main
import StackLang.Output
import StackLang.Output.Device
import StackLang.Output.Stream
import StackLang.Program
import StackLang.Program.Draft
import StackLang.Proofs.Assembly
import StackLang.Proofs.Compilation
import StackLang.Proofs.Interpreter
import StackLang.Proofs.Registry
import StackLang.Proofs.Tree
import StackLang.Session
import StackLang.Session.Shared
import StackLang.Stack
import StackLang.Symbol
import StackLang.Text.Blank
import StackLang.Text.Bytes
import StackLang.Text.Decimal
import StackLang.Text.Escaped
import StackLang.Text.Literal
import StackLang.Text.Printable
import StackLang.Text.Template
import StackLang.Text.Template.Style
import StackLang.Text.Terminal
import StackLang.Text.Utf8
import StackLang.Token
import StackLang.Token.Scan
import StackLang.Value
import StackLang.Proofs.BlockLayout
import StackLang.Proofs.Representation
import StackLang.Proofs.Control
import StackLang.Proofs.Aborts
import StackLang.Proofs.Loading
import StackLang.Proofs.Sessions
import StackLang.Proofs.Quiescence
import StackLang.Proofs.Safety
import StackLang.Proofs.Delivery
import StackLang.Proofs.Simulation
import StackLang.Proofs.Refinement
import StackLang.Proofs.Effects
import StackLang.Proofs.Recovery
import StackLang.Proofs.Renaming
import StackLang.Proofs.Lockstep
import StackLang.Proofs.TwinSessions
import StackLang.Proofs.Isolation
import StackLang.Proofs.Refusal
import StackLang.Proofs.Alignment
import StackLang.Proofs.Joining
import StackLang.Proofs.ParallelRuns
import StackLang.Proofs.Splitting
import StackLang.Proofs.Verdict
import StackLang.Proofs.Completion
import StackLang.Proofs.Limits
import StackLang.Proofs.Invariants
import StackLang.Proofs.LimitedRuns
import StackLang.Proofs.Equality
import StackLang.Proofs.Receipt
import StackLang.Proofs.Scanning
import StackLang.Proofs.Spans
import StackLang.Proofs.Rendering
import StackLang.Proofs.FirstFault
import StackLang.Proofs.Shifting
import StackLang.Proofs.Halting
import StackLang.Proofs.Framing
import StackLang.Proofs.FailedSteps
import StackLang.Proofs.Cancellation
import StackLang.Proofs.Bounds
import StackLang.Proofs.Tracing
import StackLang.Proofs.Readback
import StackLang.Proofs.Catalog
import StackLang.Proofs.Expressions
import StackLang.Proofs.Literals
import StackLang.Proofs.Segments
import StackLang.Proofs.Controls
import StackLang.Proofs.Flattening
import StackLang.Proofs.Losses
import StackLang.Proofs.Dumps
import StackLang.Proofs.JoinedScans
import StackLang.Proofs.LineLogs
import StackLang.Proofs.Runes
import StackLang.Proofs.Reports
import StackLang.Proofs.RefusedTokens
