import ActionVm.Bytes.Basic
import ActionVm.Cli.Basic
import ActionVm.Cli.FileTree
import ActionVm.Code.Assembly
import ActionVm.Code.Instruction
import ActionVm.Code.Opcode
import ActionVm.Config.Basic
import ActionVm.Config.Reading
import ActionVm.Document.Anomaly
import ActionVm.Document.Basic
import ActionVm.Document.Builder
import ActionVm.Document.Input
import ActionVm.Document.Json
import ActionVm.Document.Listing
import ActionVm.Document.Names
import ActionVm.Document.Reader
import ActionVm.Document.Writer
import ActionVm.Event.Basic
import ActionVm.Event.Handler
import ActionVm.Event.Queue
import ActionVm.Event.Worker
import ActionVm.Graph.Action
import ActionVm.Graph.Basic
import ActionVm.Graph.Lowering
import ActionVm.Graph.Threaded
import ActionVm.Machine.Action
import ActionVm.Machine.Basic
import ActionVm.Machine.Builtins
import ActionVm.Machine.Call
import ActionVm.Machine.Compiled
import ActionVm.Machine.Dialogue
import ActionVm.Machine.Fault
import ActionVm.Machine.Frame
import ActionVm.Machine.Request
import ActionVm.Machine.Run
import ActionVm.Machine.Traits
import ActionVm.Main
import ActionVm.Native.Buffer
import ActionVm.Native.Build
import ActionVm.Native.Emit
import ActionVm.Native.Encoding
import ActionVm.Native.Region
import ActionVm.Number.Bounds
import ActionVm.Number.Double
import ActionVm.Number.Format
import ActionVm.Number.Leading
import ActionVm.Number.Reading
import ActionVm.Number.Shortest
import ActionVm.Object.Arithmetic
import ActionVm.Object.Coercion
import ActionVm.Object.Comparison
import ActionVm.Object.Reach
import ActionVm.Object.Store
import ActionVm.Object.Text
import ActionVm.Object.Value
import ActionVm.Object.View
import ActionVm.Session.Basic
import ActionVm.Session.Command
import ActionVm.Session.Embedder
import ActionVm.Session.Term
import ActionVm.Text.Blank
import ActionVm.Text.Hex
import ActionVm.Text.Hidden
import ActionVm.Text.Json
import ActionVm.Text.Quoted
import ActionVm.Text.Utf8
import ActionVm.Toml.Basic
import ActionVm.Toml.Parser
import ActionVm.Toml.Scalar
import ActionVm.Proofs.Graph.Walk
import ActionVm.Proofs.Code.Sweep
import ActionVm.Proofs.Code.Partition
import ActionVm.Proofs.Code.Pieces
import ActionVm.Proofs.Code.Assembling
import ActionVm.Proofs.Graph.Direct
import ActionVm.Proofs.Graph.Threading
import ActionVm.Proofs.Graph.Blocks
import ActionVm.Proofs.Machine.Operands
import ActionVm.Proofs.Graph.Closure
import ActionVm.Proofs.Graph.Shape
import ActionVm.Proofs.Graph.Growth
import ActionVm.Proofs.Graph.Meaning
import ActionVm.Proofs.Graph.Duplication
import ActionVm.Proofs.Native.Processor
import ActionVm.Proofs.Native.Layout
import ActionVm.Proofs.Native.Execution
import ActionVm.Proofs.Native.Agreement
import ActionVm.Proofs.Native.Validation
import ActionVm.Proofs.Bytes.Varint
import ActionVm.Proofs.Text.Utf8
import ActionVm.Proofs.Document.Restoring
import ActionVm.Proofs.Document.WellFormed
import ActionVm.Proofs.Document.RoundTrip
import ActionVm.Proofs.Document.Normal
import ActionVm.Proofs.Document.Streaming
import ActionVm.Proofs.Event.Parties
import ActionVm.Proofs.Event.Order
import ActionVm.Proofs.Event.Exit
import ActionVm.Proofs.Event.Alone
import ActionVm.Proofs.Machine.Nesting
import ActionVm.Proofs.Machine.Exchange
import ActionVm.Proofs.Machine.Discipline
import ActionVm.Proofs.Machine.Arguments
import ActionVm.Proofs.Machine.Lexical
import ActionVm.Proofs.Machine.Reading
import ActionVm.Proofs.Machine.ClassIndex
import ActionVm.Proofs.Machine.Concurrence
import ActionVm.Proofs.Machine.Policy
import ActionVm.Proofs.Machine.Conduct
import ActionVm.Proofs.Machine.Watch
import ActionVm.Proofs.Event.Service
import ActionVm.Proofs.Machine.Fresh
import ActionVm.Proofs.Event.Translation
import ActionVm.Proofs.Event.Initialization
import ActionVm.Proofs.Event.Deferral
import ActionVm.Proofs.Document.Linking
import ActionVm.Proofs.Machine.Iteration
import ActionVm.Proofs.Object.Writing
import ActionVm.Proofs.Native.Fixups
import ActionVm.Proofs.Document.Interning
import ActionVm.Proofs.Machine.Rebuilding
import ActionVm.Proofs.Number.Truncation
import ActionVm.Proofs.Number.Saturation
import ActionVm.Proofs.Document.Fields
import ActionVm.Proofs.Document.Volume
import ActionVm.Proofs.Machine.Literal
