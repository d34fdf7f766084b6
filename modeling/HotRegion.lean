import HotRegion.Analysis.Constant
import HotRegion.Analysis.Precision
import HotRegion.Ascending
import HotRegion.Cache
import HotRegion.CommandLine.Guest
import HotRegion.CommandLine.Options
import HotRegion.CommandLine.Run
import HotRegion.Compile.Compiled
import HotRegion.Compile.Error
import HotRegion.Compile.Prepared
import HotRegion.Config
import HotRegion.Engine
import HotRegion.Flow.Dominator
import HotRegion.Flow.Frontier
import HotRegion.Flow.Graph
import HotRegion.Ieee.Arithmetic
import HotRegion.Ieee.Format
import HotRegion.Image.Listing
import HotRegion.Isa.Arithmetic
import HotRegion.Isa.Control
import HotRegion.Isa.Decode
import HotRegion.Isa.Encode
import HotRegion.Isa.Instruction
import HotRegion.Isa.Operands
import HotRegion.Isa.Register
import HotRegion.Lowering.Breakdown
import HotRegion.Lowering.Function
import HotRegion.Lowering.Instruction
import HotRegion.Lowering.RegTable
import HotRegion.Machine.ByteTree
import HotRegion.Machine.Execute
import HotRegion.Machine.Fault
import HotRegion.Machine.Memory
import HotRegion.Machine.State
import HotRegion.Machine.Step
import HotRegion.Machine.Trace
import HotRegion.Main
import HotRegion.Profile
import HotRegion.Region.Block
import HotRegion.Region.Graph
import HotRegion.Region.Patch
import HotRegion.Region.Printer
import HotRegion.Region.Split
import HotRegion.Region.Tracked
import HotRegion.Region.Usage
import HotRegion.Ssa.Builder
import HotRegion.Ssa.Eval
import HotRegion.Ssa.Function
import HotRegion.Ssa.Inst
import HotRegion.Ssa.Terminator
import HotRegion.Ssa.Type
import HotRegion.Ssa.Validate
import HotRegion.Stats
import HotRegion.Text.Blank
import HotRegion.Text.Number
import HotRegion.Text.Numeral
import HotRegion.Text.Utf8
import HotRegion.TwoPow
import HotRegion.Proofs.Ascending
import HotRegion.Proofs.Flow.Dominance
import HotRegion.Proofs.Flow.DominatorTree
import HotRegion.Proofs.Flow.Closure
import HotRegion.Proofs.Flow.Frontier
import HotRegion.Proofs.Region.Links
import HotRegion.Proofs.Region.Shape
import HotRegion.Proofs.Region.Traced
import HotRegion.Proofs.Region.Overlap
import HotRegion.Proofs.Region.Patched
import HotRegion.Proofs.Region.Usage
import HotRegion.Proofs.Region.Ready
import HotRegion.Proofs.Ssa.Code
import HotRegion.Proofs.Ieee.Rounding
import HotRegion.Proofs.Lowering.Emit
import HotRegion.Proofs.Machine.Units
import HotRegion.Proofs.Lowering.Table
import HotRegion.Proofs.Lowering.Slots
import HotRegion.Proofs.Lowering.Instruction
import HotRegion.Proofs.Machine.Trajectory
import HotRegion.Proofs.Machine.BlockRun
import HotRegion.Proofs.Machine.SingleSteps
import HotRegion.Proofs.Machine.Traces
import HotRegion.Proofs.Machine.Faults
import HotRegion.Proofs.Machine.Stores
import HotRegion.Proofs.Machine.Bytes
import HotRegion.Proofs.Region.Passage
import HotRegion.Proofs.Ssa.Watched
import HotRegion.Proofs.Lowering.Block
import HotRegion.Proofs.Lowering.Draft
import HotRegion.Proofs.Lowering.Boundary
import HotRegion.Proofs.Lowering.Layout
import HotRegion.Proofs.Ssa.Built
import HotRegion.Proofs.Analysis.Precision
import HotRegion.Proofs.Region.Storage
import HotRegion.Proofs.Machine.Dependence
import HotRegion.Proofs.Analysis.Constant
import HotRegion.Proofs.Compile.Exits
import HotRegion.Proofs.Engine.Bookkeeping
import HotRegion.Proofs.Engine.Failed
import HotRegion.Proofs.Engine.Progress
import HotRegion.Proofs.Isa.Encoding
import HotRegion.Proofs.Compile.Folding
import HotRegion.Proofs.Flow.TreeWalk
import HotRegion.Proofs.Region.Dominators
import HotRegion.Proofs.Region.Reaching
import HotRegion.Proofs.Region.Changes
import HotRegion.Proofs.Lowering.Simulation
import HotRegion.Proofs.Lowering.FprFile
import HotRegion.Proofs.Engine.Accesses
import HotRegion.Proofs.Engine.Refinement
import HotRegion.Proofs.Region.Frontiers
import HotRegion.Proofs.Region.Halves
import HotRegion.Proofs.Region.Segments
import HotRegion.Proofs.Profile.Discovery
import HotRegion.Proofs.Analysis.Observation
import HotRegion.Proofs.Image.Loading
import HotRegion.Proofs.Text.Splitting
import HotRegion.Proofs.Text.Hexadecimal
import HotRegion.Proofs.Image.Listing
import HotRegion.Proofs.Ssa.Widths
import HotRegion.Proofs.Ssa.Coherence
import HotRegion.Proofs.Region.CachedTree
import HotRegion.Proofs.CommandLine.Guest
