import TapeStark.Air.Expr
import TapeStark.Air.Table
import TapeStark.Air.Witness
import TapeStark.Buffer
import TapeStark.Domain
import TapeStark.Error
import TapeStark.Field.Base
import TapeStark.Field.Extension
import TapeStark.Field.Tagged
import TapeStark.Grid
import TapeStark.Hash
import TapeStark.Machine.Interpreter
import TapeStark.Machine.Program
import TapeStark.Merkle
import TapeStark.Polynomial
import TapeStark.Proofs.Air.Columns
import TapeStark.Proofs.Air.Complete
import TapeStark.Proofs.Air.Evaluation
import TapeStark.Proofs.Air.Executed
import TapeStark.Proofs.Air.Extension
import TapeStark.Proofs.Air.InstructionRun
import TapeStark.Proofs.Air.MemoryOrder
import TapeStark.Proofs.Air.MemoryRun
import TapeStark.Proofs.Air.Processor
import TapeStark.Proofs.Air.ProcessorRun
import TapeStark.Proofs.Air.Public
import TapeStark.Proofs.Air.Reordering
import TapeStark.Proofs.Basic
import TapeStark.Proofs.Division
import TapeStark.Proofs.Domain
import TapeStark.Proofs.Field.Lawful
import TapeStark.Proofs.Field.Tagged
import TapeStark.Proofs.Fourier
import TapeStark.Proofs.Interpolation
import TapeStark.Proofs.Machine.Brackets
import TapeStark.Proofs.Machine.Compiled
import TapeStark.Proofs.Machine.Interpreter
import TapeStark.Proofs.Machine.Placement
import TapeStark.Proofs.Machine.Recorded
import TapeStark.Proofs.Machine.Run
import TapeStark.Proofs.Merkle
import TapeStark.Proofs.Polynomial
import TapeStark.Proofs.Protocol.Accepted
import TapeStark.Proofs.Protocol.Agreement
import TapeStark.Proofs.Protocol.Authentic
import TapeStark.Proofs.Protocol.Binding
import TapeStark.Proofs.Protocol.Committed
import TapeStark.Proofs.Protocol.Complete
import TapeStark.Proofs.Protocol.Composition
import TapeStark.Proofs.Protocol.Config
import TapeStark.Proofs.Protocol.Coverage
import TapeStark.Proofs.Protocol.DegreeCheck
import TapeStark.Proofs.Protocol.EvenOdd
import TapeStark.Proofs.Protocol.Extended
import TapeStark.Proofs.Protocol.Fold
import TapeStark.Proofs.Protocol.FoldChain
import TapeStark.Proofs.Protocol.Fri
import TapeStark.Proofs.Protocol.Opened
import TapeStark.Proofs.Protocol.Points
import TapeStark.Proofs.Protocol.Positions
import TapeStark.Proofs.Protocol.PrefixFree
import TapeStark.Proofs.Protocol.Prepared
import TapeStark.Proofs.Protocol.Quotient
import TapeStark.Proofs.Protocol.Received
import TapeStark.Proofs.Protocol.Totality
import TapeStark.Proofs.Sampling
import TapeStark.Proofs.Stream.Action
import TapeStark.Proofs.Stream.Canonical
import TapeStark.Proofs.Stream.Dialogue
import TapeStark.Proofs.Stream.Framed
import TapeStark.Proofs.Stream.Replay
import TapeStark.Proofs.Trace.Padded
import TapeStark.Proofs.Trace.Padding
import TapeStark.Proofs.Trace.Simulated
import TapeStark.Proofs.Transcript
import TapeStark.Proofs.Vanishing
import TapeStark.Protocol.Composition
import TapeStark.Protocol.Config
import TapeStark.Protocol.Execution
import TapeStark.Protocol.Fri
import TapeStark.Protocol.FriTrial
import TapeStark.Protocol.Mixed
import TapeStark.Protocol.Verifier
import TapeStark.Stream.Basic
import TapeStark.Stream.Edit
import TapeStark.Table
import TapeStark.Text
import TapeStark.Trace.Basic
import TapeStark.Trace.Row
import TapeStark.Transcript
