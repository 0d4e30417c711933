import DartSdk.Compiler.Uint32.SelectorCorrect
import DartSdk.Collection.SplayCorrect
import DartSdk.Compiler.ParallelMove.Correct
import DartSdk.Internal.SortCorrect
import DartSdk.Convert.Json.NumberCorrect
import DartSdk.Convert.Base64.Codec
import DartSdk.Vm.Base64Safe
import DartSdk.Vm.CatchEntryMovesCorrect
import DartSdk.Vm.UnicodeCorrect
import DartSdk.Core.Ipv6Correct
import DartSdk.Vm.FreeListCorrect
import DartSdk.Vm.PriorityQueueCorrect
import DartSdk.Core.UriPathCorrect
import DartSdk.Exhaustiveness.Intersection
import DartSdk.Vm.CodeSourceMapCorrect
import DartSdk.Exhaustiveness.CheckerSound
import DartSdk.Util.DependencyWalkerCorrect
import DartSdk.FlowAnalysis.JoinSound
import DartSdk.Cfg.IsDominatedBy
import DartSdk.Http.ParserBuffers
import DartSdk.Compiler.ParallelMove.Emitter
import DartSdk.Core.DateTimeZone
import DartSdk.Compiler.Ranges.Truncate
import DartSdk.Convert.Utf8.Replacement
import DartSdk.Http.WebSocketSend
import DartSdk.Compiler.LiveRange
import DartSdk.Async.AsBroadcast
