import ScriptVM.Builtin.Core
import ScriptVM.Builtin.Sample
import ScriptVM.Bytecode.Arity
import ScriptVM.Bytecode.Builder
import ScriptVM.Bytecode.Encoding
import ScriptVM.Bytecode.Function
import ScriptVM.Bytecode.Listing
import ScriptVM.Bytecode.Opcode
import ScriptVM.Bytecode.Pool
import ScriptVM.Container
import ScriptVM.Embedding.Context
import ScriptVM.Embedding.Conversion
import ScriptVM.Embedding.Globals
import ScriptVM.Embedding.Program
import ScriptVM.Fault
import ScriptVM.FieldMap
import ScriptVM.Limits
import ScriptVM.Machine.Activation
import ScriptVM.Machine.Frame
import ScriptVM.Machine.Invocation
import ScriptVM.Machine.Run
import ScriptVM.Machine.Stack
import ScriptVM.Machine.State
import ScriptVM.Machine.Step
import ScriptVM.Machine.Variable
import ScriptVM.Number.Binary64
import ScriptVM.Number.Shortest
import ScriptVM.Number.SignedDecimal
import ScriptVM.Operator
import ScriptVM.Text.Blank
import ScriptVM.Text.Extending
import ScriptVM.Text.Printable
import ScriptVM.Text.Quoted
import ScriptVM.Toml.Document
import ScriptVM.Toml.Limits
import ScriptVM.Toml.Number
import ScriptVM.Toml.Reader
import ScriptVM.Toml.Text
import ScriptVM.Value.Basic
import ScriptVM.Value.Copy
import ScriptVM.Value.Display
import ScriptVM.Value.Equality
import ScriptVM.Value.Heap
import ScriptVM.Proofs.Fetch
import ScriptVM.Proofs.Fields
import ScriptVM.Proofs.Ground
import ScriptVM.Proofs.AcceptedLimits
import ScriptVM.Proofs.Activation
import ScriptVM.Proofs.Operands
import ScriptVM.Proofs.OutsideCall
import ScriptVM.Proofs.CallLayout
import ScriptVM.Proofs.Heap
import ScriptVM.Proofs.HostValues
import ScriptVM.Proofs.Region
import ScriptVM.Proofs.Confinement
import ScriptVM.Proofs.Height
import ScriptVM.Proofs.Walk
import ScriptVM.Proofs.HeapSimulation
import ScriptVM.Proofs.Detachment
import ScriptVM.Proofs.Locals
import ScriptVM.Proofs.Simulation
import ScriptVM.Proofs.Lockstep
import ScriptVM.Proofs.Promotion
import ScriptVM.Proofs.PromotedRun
import ScriptVM.Proofs.Beside
import ScriptVM.Proofs.CallerKept
import ScriptVM.Proofs.Termination
import ScriptVM.Proofs.Launch
import ScriptVM.Proofs.ListedOffsets
import ScriptVM.Proofs.Limited
import ScriptVM.Proofs.LimitedStep
import ScriptVM.Proofs.LimitedRun
import ScriptVM.Proofs.Checked
import ScriptVM.Proofs.CheckedParts
import ScriptVM.Proofs.CheckedStep
import ScriptVM.Proofs.NoPanic
import ScriptVM.Proofs.CallsBeside
import ScriptVM.Proofs.DeepCopy
import ScriptVM.Proofs.Plan
import ScriptVM.Proofs.StoreSimulation
import ScriptVM.Proofs.Interning
import ScriptVM.Proofs.Isolation
import ScriptVM.Proofs.Spared
import ScriptVM.Proofs.View
import ScriptVM.Proofs.HeapGrowth
import ScriptVM.Proofs.Quiet
import ScriptVM.Proofs.Moments
import ScriptVM.Proofs.LocalCells
import ScriptVM.Proofs.RootFrame
import ScriptVM.Proofs.Bindings
import ScriptVM.Proofs.Session
import ScriptVM.Proofs.Handles
import ScriptVM.Proofs.Written
import ScriptVM.Proofs.Rerun
import ScriptVM.Proofs.Decoding
import ScriptVM.Proofs.Assembly
import ScriptVM.Proofs.Charges
import ScriptVM.Proofs.Budget
import ScriptVM.Proofs.Failure
import ScriptVM.Proofs.NamedGlobals
import ScriptVM.Proofs.HostReading
import ScriptVM.Proofs.Contents
import ScriptVM.Proofs.RoundTrip
import ScriptVM.Proofs.Literals
import ScriptVM.Proofs.Slices
import ScriptVM.Proofs.EqualValues
import ScriptVM.Proofs.WrappingIntegers
import ScriptVM.Proofs.DecimalText
import ScriptVM.Proofs.PoolSessions
