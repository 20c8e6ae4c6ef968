import DartSdk.Vm.BitmapBuilder
import DartSdk.Vm.CodeDescriptors
import DartSdk.Vm.DeoptInfo
import DartSdk.Vm.GcSweeper.Concurrent
import DartSdk.Vm.HashSet
import DartSdk.Vm.MegamorphicCache
import DartSdk.Vm.ObjectIdRing
import DartSdk.Vm.ParallelMoveResolver
import DartSdk.Vm.RangeAnalysis.Uint32
import DartSdk.Vm.RangeAnalysis.IntegerOps
import DartSdk.Vm.UseIntervals
import DartSdk.Vm.Regexp.CharClass
import DartSdk.Convert.Utf.Agreement
import DartSdk.Io.CryptoUtils
import DartSdk.Io.HttpHeaders.Consistent
import DartSdk.Io.HttpOutgoing.RoundTrip
import DartSdk.Io.HttpParser.WellFormed
import DartSdk.Io.WebSocket.Reassembly
import DartSdk.Convert.LineSplitter
import DartSdk.Convert.JsonUtf8
import DartSdk.Async.BroadcastStreamController.Exact
import DartSdk.Compiler.Ssa.SequentializeCopies
import DartSdk.Compiler.Ssa.ValueRange.Operations
import DartSdk.Compiler.Ssa.ValueRange.Termination
import DartSdk.Compiler.Types.TypeMask.Intersection
import DartSdk.Compiler.Types.TypeMask.Containment
import DartSdk.Core.Integers
import DartSdk.Lib.Dominance
import DartSdk.Vm.RangeAnalysis.BoundsCheck
