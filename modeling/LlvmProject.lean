import LlvmProject.Tsan.ClockRefinement
import LlvmProject.CodeGen.BuildUDIV
import LlvmProject.CodeGen.BuildSDIV
import LlvmProject.Support.DAGDeltaRuns
import LlvmProject.Support.IntEqClasses
import LlvmProject.Analysis.EvaluateAtIteration
import LlvmProject.Transforms.IntegerDivisionRuns
import LlvmProject.Transforms.LowerSwitchConsistent
import LlvmProject.ADT.ImmutableSetRuns
import LlvmProject.Support.StringMapRuns
import LlvmProject.ADT.DenseMapRuns
import LlvmProject.ADT.ComputeEditDistance
import LlvmProject.APInt.BignumDivide
import LlvmProject.APInt.Rotations
import LlvmProject.Support.ScaledNumberCompare
import LlvmProject.Transforms.ASanStackFrameLayout
import LlvmProject.APInt.Sqrt
import LlvmProject.APInt.InverseCoefficients
import LlvmProject.Transforms.GlobalLayoutRuns
import LlvmProject.MC.StringTableLayout
import LlvmProject.ADT.SparseBitVectorFlags
import LlvmProject.ADT.SparseBitVectorRuns
import LlvmProject.Rewrite.DeltaTreeRuns
import LlvmProject.Rewrite.RewriteRopeRuns
import LlvmProject.Driver.ResponseFile
import LlvmProject.Support.WindowsProgram
import LlvmProject.MC.MCDwarf
import LlvmProject.CodeGen.TopologicalSortRuns
import LlvmProject.CodeGen.LiveIntervalRuns
import LlvmProject.CxxAbi.FallbackMallocRuns
import LlvmProject.Klee.IndependentSolverAnswers
import LlvmProject.Klee.ExprCreateSound
import LlvmProject.Klee.MapOfSetsRuns
import LlvmProject.Sanitizer.BitVectorRuns
import LlvmProject.Sanitizer.DeadlockDetectorRuns
import LlvmProject.ADT.FoldingSetNodeIDFaithful
import LlvmProject.ADT.FoldingSetRuns
import LlvmProject.Klee.ImmutableTreeRuns
import LlvmProject.Object.MachOBindEntry
import LlvmProject.Object.ExportTrieSafe
import LlvmProject.APInt.BitsNeeded
import LlvmProject.CodeGen.BuildExactSDIV
import LlvmProject.IR.ConstantRangeBinary
import LlvmProject.Support.LEB128Inverse
import LlvmProject.CodeGen.SUnitBias
import LlvmProject.CodeGen.LiveIntervalQueries
import LlvmProject.DebugInfo.DWARFDebugLineLookup
import LlvmProject.Target.AArch64AddressingModes
import LlvmProject.Analysis.BlockFrequencyInfo
import LlvmProject.Core.RangeDataVector
import LlvmProject.Tooling.Replacement
