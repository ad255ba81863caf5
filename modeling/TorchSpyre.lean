import TorchSpyre.Checked
import TorchSpyre.Loops
import TorchSpyre.Timeline
import TorchSpyre.Binary64
import TorchSpyre.Spans
import TorchSpyre.Buffer
import TorchSpyre.Scratchpad
import TorchSpyre.PermLayout.Solver
import TorchSpyre.PermLayout.Build
import TorchSpyre.PermLayout.Sweep
import TorchSpyre.PermLayout.Construct
import TorchSpyre.PermLayout.Overflow
import TorchSpyre.PermLayout.Run
import TorchSpyre.Greedy.Solver
import TorchSpyre.Greedy.Groups
import TorchSpyre.Greedy.Safe
import TorchSpyre.Greedy.Atomic
import TorchSpyre.Kahn
import TorchSpyre.FirstFit.Solver
import TorchSpyre.FirstFit.Safe
import TorchSpyre.Unroll
import TorchSpyre.Residency
import TorchSpyre.Collective
import TorchSpyre.PinnedAllocator
import TorchSpyre.Liveness.Overrides
import TorchSpyre.Liveness.Sound
import TorchSpyre.Liveness.Contents
import TorchSpyre.Pool.Allocator
import TorchSpyre.Pool.Planning
import TorchSpyre.Pool.Safe
import TorchSpyre.Pool.Ranges
import TorchSpyre.Pool.Runs
import TorchSpyre.Strided
import TorchSpyre.Layout.Tensor
import TorchSpyre.Layout.TileStride
import TorchSpyre.Layout.TileCompose
import TorchSpyre.Layout.Rescale
import TorchSpyre.Layout.Delinearize
import TorchSpyre.Layout.Resize
import TorchSpyre.Layout.Commutes
import TorchSpyre.Tiling.Advance
import TorchSpyre.Tiling.Lands
import TorchSpyre.Annealer.Runs
import TorchSpyre.Choices
import TorchSpyre.Tiling.Space
import TorchSpyre.Tiling.SpanEstimate
import TorchSpyre.SlidingWindow
import TorchSpyre.Traced
import TorchSpyre.Annealer.Problem
import TorchSpyre.Annealer.Engine
import TorchSpyre.Annealer.Moves
import TorchSpyre.Annealer.Anneal
import TorchSpyre.Annealer.SplitSpace
import TorchSpyre.Annealer.Trim
import TorchSpyre.Backtracking
import TorchSpyre.ExhaustiveSearch
import TorchSpyre.AdjacentSwaps
import TorchSpyre.PermLayout.Reinsert
import TorchSpyre.SimulatedAnnealing.Swap
import TorchSpyre.SimulatedAnnealing.Reinsertion
import TorchSpyre.FirstFit.Rests
import TorchSpyre.PermLayout.Supported
import TorchSpyre.SimulatedAnnealing.Seed
import TorchSpyre.Ladder
import TorchSpyre.Views.Coordinates
import TorchSpyre.Views.Spread
import TorchSpyre.Views.Faithful
import TorchSpyre.Views.Exact
import TorchSpyre.DepthFirst
import TorchSpyre.Contiguous
import TorchSpyre.Scheduling.Loops
import TorchSpyre.Scheduling.Nested
import TorchSpyre.Restickify.Future
import TorchSpyre.Restickify.Bound
import TorchSpyre.Radix
import TorchSpyre.Alignment.Normalize
import TorchSpyre.Alignment.Align
import TorchSpyre.Alignment.Placing
import TorchSpyre.Alignment.Fusing
import TorchSpyre.Alignment.Segments
import TorchSpyre.Alignment.Spans
import TorchSpyre.Alignment.Tensors
import TorchSpyre.Alignment.Keeps
import TorchSpyre.CoreMapping.Operation
import TorchSpyre.CoreMapping.View
import TorchSpyre.CoreMapping.Invert
import TorchSpyre.CoreMapping.Regions
import TorchSpyre.Words
import TorchSpyre.Transfer.Conversion
import TorchSpyre.Transfer.Narrow
import TorchSpyre.Transfer.Resize
import TorchSpyre.DeadCode
import TorchSpyre.DedupConstants
import TorchSpyre.WorkDivision.Split
import TorchSpyre.WorkDivision.Span
import TorchSpyre.WorkDivision.Transport
