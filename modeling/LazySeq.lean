import LazySeq.Proofs.Batch.Account
import LazySeq.Proofs.Batch.AnyOrder
import LazySeq.Proofs.Batch.Conservation
import LazySeq.Proofs.Batch.Schedule
import LazySeq.Proofs.Cursor.Batches
import LazySeq.Proofs.Cursor.Concat
import LazySeq.Proofs.Cursor.HasLeft
import LazySeq.Proofs.Cursor.World
import LazySeq.Proofs.Demand.Backed
import LazySeq.Proofs.Demand.Draws
import LazySeq.Proofs.Demand.Source
import LazySeq.Proofs.Demand.Stack
import LazySeq.Proofs.Frame
import LazySeq.Proofs.Lawful
import LazySeq.Proofs.Outcome
import LazySeq.Proofs.Recorded
import LazySeq.Proofs.Schedule
import LazySeq.Proofs.Sequence.Means
import LazySeq.Proofs.Sequence.Pipeline
import LazySeq.Proofs.Sequence.Rows
import LazySeq.Proofs.Stage.Join
import LazySeq.Proofs.Stage.Lockstep
import LazySeq.Proofs.Stage.Peek
import LazySeq.Proofs.Stage.Product
import LazySeq.Proofs.Stage.Replay
import LazySeq.Proofs.Stage.Select
import LazySeq.Proofs.Stage.Transform
import LazySeq.Script.Fork
import LazySeq.Script.Possible
import LazySeq.Script.Verdict
import LazySeq.Proofs.Noted
import LazySeq.Proofs.Stage.LookAhead
import LazySeq.Proofs.Sequence.Costs
import LazySeq.Proofs.Sequence.ProductCost
import LazySeq.Proofs.Sequence.ProductForms
import LazySeq.Proofs.Simulation.Batch
import LazySeq.Proofs.Simulation.Lockstep
import LazySeq.Proofs.Simulation.Select
import LazySeq.Proofs.Independence.Calls
import LazySeq.Proofs.Independence.Interleaving
import LazySeq.Proofs.Named
import LazySeq.Proofs.Stage.Guarded
import LazySeq.Proofs.Cursor.Once
import LazySeq.Proofs.Sequence.Opened
import LazySeq.Proofs.Sequence.Building
import LazySeq.Proofs.Batch.Rack
import LazySeq.Proofs.Cursor.Nested
import LazySeq.Proofs.Endless
import LazySeq.Proofs.Signals
import LazySeq.Proofs.Word
import LazySeq.Proofs.Stage.Turns
import LazySeq.Proofs.Stage.Passes
import LazySeq.Proofs.Stage.Rounds
import LazySeq.Proofs.Stage.SliceExact
import LazySeq.Proofs.Stage.InStep
import LazySeq.Proofs.Sequence.ZipForms
import LazySeq.Proofs.Stage.Succession
import LazySeq.Proofs.Stage.Tested
import LazySeq.Proofs.Stage.PairsForms
import LazySeq.Proofs.Stage.Fusion
import LazySeq.Proofs.Stage.Layers
import LazySeq.Proofs.Stage.ReadAhead
import LazySeq.Proofs.Maybe.AsOption
import LazySeq.Proofs.Stage.Settling
import LazySeq.Proofs.Batch.Holdings
