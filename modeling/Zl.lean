import Zl.Mir.Verifier.OwnershipSoundness
import Zl.Vm.FrameLocalDispatch
import Zl.Vm.HandlerLifetime
import Zl.Mir.VmBackend.EdgeTransfer
import Zl.Mir.Dataflow.SuspensionCompleteness
import Zl.Vm.Safepoint.StopTheWorld
import Zl.Vm.Task.LifeCycle
import Zl.Machine.Correctness
import Zl.Common.CanonicalNames
import Zl.Vm.Contract.Contracts
import Zl.Vm.Native.OwnershipTransfer
import Zl.Vm.Channel.ExactlyOnce
import Zl.Vm.Gc.Recycling
import Zl.Vm.Json.RoundTrip
import Zl.Mir.VmBackend.ClassReflection
import Zl.Pkg.ResolveAll
import Zl.Vm.HashCode
import Zl.Mir.DeadValueSafety
import Zl.Regex.Possessive
import Zl.Vm.MapBox
import Zl.Mir.PruneBlocks
import Zl.Mir.DeadFunctions.DispatchTables
import Zl.Mir.DeadFunctions.ClosureProofs
import Zl.Mir.Verifier.TypeRefinement
import Zl.Mir.Simplify.BranchFixpoint
import Zl.Mir.DeadFunctions.Commit
import Zl.Vm.Native.ExportRegistry
import Zl.Regex.Scan
import Zl.Regex.Lookbehind
import Zl.Vm.Contract.ObjectInit
import Zl.Vm.Native.CallbackRegistry
import Zl.Ir.Verify
import Zl.Regex.CharacterClass
import Zl.Vm.Native.Base64
import Zl.Vm.Json.DecimalLayout
import Zl.Vm.Native.TextFormat
import Zl.Vm.Task.Resume
import Zl.Vm.ClosureCalls
import Zl.Vm.Json.Rfc8259
import Zl.Compiler.OverloadResolver
import Zl.Compiler.ThreadCapture
import Zl.Lexer.Partition
import Zl.Stdlib.Timestamps
import Zl.Mir.Lowering.NumberLiterals
import Zl.Mir.Lowering.FieldStores
import Zl.Mir.Lowering.ForLoopRun
import Zl.Mir.Lowering.ReleasedOnce
import Zl.Mir.TypeArena
import Zl.Stdlib.Text
import Zl.Stdlib.List.Raising
import Zl.Stdlib.List.BinarySearch
import Zl.Mir.ConstantPropagation
import Zl.Vm.Task.Executor
