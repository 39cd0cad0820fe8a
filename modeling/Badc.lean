import Badc.Aarch64.LogicalImm
import Badc.Aarch64.LoadImm
import Badc.Abi.Classify
import Badc.Abi.LeafOrder
import Badc.Abi.Passing
import Badc.Abi.RegisterParts
import Badc.Abi.RegisterPartsSpec
import Badc.Asm.Expr
import Badc.Lib.Precedence
import Badc.Asm.Grouping
import Badc.Asm.ExprSpec
import Badc.Asm.ExprEnds
import Badc.Asm.Measure
import Badc.Asm.Relax
import Badc.Asm.Relaxed
import Badc.Asm.Section
import Badc.Emit.FpMoves
import Badc.Emit.IntMoves
import Badc.Emit.Moves
import Badc.Ir.Eval
import Badc.Ir.Inst
import Badc.Ir.LowWord
import Badc.Ir.Program
import Badc.Lib.Align
import Badc.Lib.BackwardFlow
import Badc.Lib.BitFields
import Badc.Lib.BitRuns
import Badc.Lib.Bytes
import Badc.Lib.Checked
import Badc.Lib.Demand
import Badc.Lib.Descent
import Badc.Lib.Dominance
import Badc.Lib.Explore
import Badc.Lib.Fallible
import Badc.Lib.FindOrPush
import Badc.Lib.Frontier
import Badc.Lib.Listing
import Badc.Lib.Loop
import Badc.Lib.Mark
import Badc.Lib.Numbering
import Badc.Lib.ParallelMove
import Badc.Lib.Reaching
import Badc.Lib.Reciprocal
import Badc.Lib.ScopedMap
import Badc.Lib.ScopedWalk
import Badc.Lib.Settles
import Badc.Lib.SortedRuns
import Badc.Lib.Stacked
import Badc.Lib.Stutter
import Badc.Lib.TreeStamps
import Badc.Lib.TwoStage
import Badc.Lib.UnionFind
import Badc.Lib.WordBuffer
import Badc.Lib.Worklist
import Badc.Linker.Converge
import Badc.Linker.Eval
import Badc.Linker.GnuProperty
import Badc.Linker.GnuPropertyWalk
import Badc.Linker.GnuPropertyRules
import Badc.Linker.Attributes
import Badc.Linker.AttributesSound
import Badc.Linker.Archive
import Badc.Linker.ArchiveTrip
import Badc.Linker.ArchiveTotal
import Badc.Lib.TreeMap
import Badc.Linker.GnuPropertyGroups
import Badc.Linker.GnuPropertyMerge
import Badc.Linker.GnuPropertyNote
import Badc.Linker.Layout
import Badc.Linker.LayoutSpec
import Badc.Linker.PoolLayout
import Badc.Linker.PoolScan
import Badc.Linker.Pools
import Badc.Linker.PoolsSpec
import Badc.Linker.Reloc
import Badc.Linker.RelocSpec
import Badc.Linker.Script
import Badc.Linker.TlsRelax
import Badc.Linker.TlsRelaxSpec
import Badc.Magic.Lower
import Badc.Magic.Search
import Badc.Magic.Signed
import Badc.Magic.Unsigned
import Badc.Object.Arm64Unwind
import Badc.Object.EhFrame
import Badc.Object.EhFrameSpec
import Badc.Object.Relr
import Badc.Object.Strtab
import Badc.Object.UnwindInfo
import Badc.Passes.ConstFold.ConstData
import Badc.Passes.ConstFold.NullTests
import Badc.Passes.ConstFold.FoldSelects
import Badc.Passes.ConstFold.FoldSelectsSound
import Badc.Passes.ConstfoldBranch
import Badc.Passes.CopyElide
import Badc.Passes.CopyElidePlan
import Badc.Passes.CopyElideDecide
import Badc.Passes.CopyElideTape
import Badc.Passes.CopyElideAlign
import Badc.Passes.IpaConstParam
import Badc.Passes.IpaConstParamSpec
import Badc.Passes.JumpChains
import Badc.Passes.Layout
import Badc.Passes.LayoutSpec
import Badc.Passes.LoopForest
import Badc.Passes.LoopNesting
import Badc.Passes.PhiMerge
import Badc.Passes.PruneUnreachable
import Badc.Passes.RemapBlocks
import Badc.Passes.SplitCritEdges
import Badc.Passes.SplitCritEdgesSpec
import Badc.Passes.StoreForward
import Badc.Passes.StoreForwardSpec
import Badc.Passes.StripZeroTests
import Badc.Passes.ThreadJumps
import Badc.Passes.ValueRange.Bound
import Badc.Passes.ValueRange.Branch
import Badc.Passes.ValueRange.Descend
import Badc.Passes.ValueRange.Eval
import Badc.Passes.ValueRange.Facts
import Badc.Passes.ValueRange.Guards
import Badc.Passes.ValueRange.Meaning
import Badc.Passes.ValueRange.Numbering
import Badc.Passes.ValueRange.Overflow
import Badc.Passes.ValueRange.Preserves
import Badc.Passes.ValueRange.Range
import Badc.Passes.ValueRange.Ranges
import Badc.Passes.ValueRange.Results
import Badc.Passes.ValueRange.Settle
import Badc.Passes.ValueRange.Shape
import Badc.Passes.ValueRange.Transfer
import Badc.Passes.ValueRange.Visit
import Badc.Passes.ValueRange.Walk
import Badc.Preprocessor.Blocked
import Badc.Preprocessor.Expand
import Badc.Preprocessor.ExpandEnds
import Badc.Preprocessor.Hideset
import Badc.Preprocessor.Rescan
import Badc.Preprocessor.Substitute
import Badc.Preprocessor.Token
import Badc.Ssa.Calls
import Badc.Ssa.Defined
import Badc.Ssa.DomOrder
import Badc.Ssa.DomExact
import Badc.Ssa.Components
import Badc.Ssa.Dominators
import Badc.Ssa.Graph
import Badc.Ssa.Held
import Badc.Ssa.Liveness
import Badc.Ssa.LivenessDense
import Badc.Ssa.LivenessSparse
import Badc.Ssa.LivenessSpec
import Badc.Ssa.Machine
import Badc.Ssa.Memory
import Badc.Ssa.Operands
import Badc.Ssa.Rename
import Badc.Ssa.PhiClass
import Badc.Ssa.PhiPlacement
import Badc.Ssa.SlotLiveness
import Badc.Ssa.Repair
import Badc.Ssa.RepairApply
import Badc.Ssa.RepairPlan
import Badc.Ssa.RepairSpec
import Badc.Ssa.Tape
import Badc.Ssa.TapeConcat
import Badc.Ssa.TapeInsert
import Badc.Ssa.Trim
import Badc.Ssa.UseCounts
import Badc.Ssa.Verify
import Badc.Types.Struct
