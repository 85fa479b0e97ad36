import DartSdk.Aot.Proof.DispatchTable
import DartSdk.Backend.Proof.Int64Division
import DartSdk.Backend.Proof.IntegerSelection
import DartSdk.Backend.Proof.Loops
import DartSdk.Backend.Proof.ParallelMove
import DartSdk.Backend.Proof.RangeWiden
import DartSdk.Compiler.DeferredLoad.Proof.OutputUnits
import DartSdk.Compiler.Ssa.Proof.ValueRangeAnalyzer
import DartSdk.Convert.Proof.LineSplitter
import DartSdk.Core.Proof.BigIntDivision
import DartSdk.Core.Proof.DateTime
import DartSdk.Core.Proof.LocalTime
import DartSdk.Exhaustiveness.Proof.ListType
import DartSdk.Exhaustiveness.Proof.Space
import DartSdk.FlowAnalysis.Proof.PromotionModel
import DartSdk.Http.Proof.HttpParser
import DartSdk.Http.Proof.WebSocketOutgoing
import DartSdk.Internal.Proof.Sort
import DartSdk.Vm.Proof.CatchEntryMoves
import DartSdk.Vm.Proof.CodeSourceMap
import DartSdk.Vm.Proof.CompressedStackMaps
