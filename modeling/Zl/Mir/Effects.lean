import Zl.Graph.DepthFirst
import Zl.Graph.DominatorSolution
import Zl.Graph.Search
import Zl.Mir.Function

open zl.graph zl.fixpoint

namespace zl.mir

/-- The values an instruction reads. -/
def instructionUses (instruction : Instruction) : List ValueId := instruction.operands.filterMap valueOf

/-- The values a terminator reads: its value, and the arguments of its edges. -/
def terminatorUses (t : Terminator) : List ValueId :=
  (t.value :: t.edgeArguments.flatten).filterMap valueOf

/-- The value an instruction defines, if it defines one. -/
def resultValues (instruction : Instruction) : List ValueId :=
  if instruction.result = kNoTemp then [] else [.temp instruction.result]

theorem mem_resultValues {instruction : Instruction} {id : ValueId} :
    id ∈ resultValues instruction ↔ instruction.result ≠ kNoTemp ∧ id = .temp instruction.result := by
  unfold resultValues
  split
  next hnone => exact iff_of_false (fun h => nomatch h) fun h => h.1 hnone
  next hsome => exact List.mem_singleton.trans (and_iff_right hsome).symm

/-- The values a block defines on entry. -/
def parameterValues (b : BasicBlock) : List ValueId := b.parameters.map fun p => .blockParam p.id

/-- The definitions of a function with their types, in program order: parameters first, then the
    parameters and results of each block. -/
def valueDefinitions (f : Function) : List (ValueId × TypeId) :=
  f.parameters.zipIdx.map (fun p => (.param p.2, p.1.type)) ++
    f.blocks.flatMap fun b =>
      b.parameters.map (fun p => (.blockParam p.id, p.type)) ++
        b.instructions.flatMap fun i => (resultValues i).map fun v => (v, i.resultType)

/-- The type a value is first defined at, and no type for a value without a definition. -/
def valueType (f : Function) (value : ValueId) : TypeId :=
  (((valueDefinitions f).find? (·.1 == value)).map (·.2)).getD kNoType

inductive Effect where
  | Pure | ReadsMemory | WritesMemory | Allocation | RuntimeCheck | MayThrow | ObservableIo
  | Synchronization | VolatileRead
  | Calls | TaskEffect | ThreadBoundary | Suspension | NativeResource | Ownership | UnwindBarrier
  deriving DecidableEq, Repr

/-- The bits that are set. -/
abbrev EffectSet := List Effect

/-- Everything an instruction with this opcode can do, whatever its operands are. -/
def classifyOpcode : Opcode → EffectSet
  | .Add | .Sub | .Mul | .Div | .Mod | .Pow | .Neg | .Shl | .Shr | .Ushr
  | .Eq | .Ne | .Lt | .Le | .Gt | .Ge =>
    [.Pure, .MayThrow]
  | .BitAnd | .BitOr | .BitXor | .BitNot | .Not | .And | .Or | .Widen | .TypeTest | .IsNull | .Nop => [.Pure]
  | .Refine | .NullCheck => [.Pure, .RuntimeCheck, .MayThrow]
  | .Load => [.ReadsMemory]
  | .Store => [.WritesMemory]
  | .FieldLoad | .IndexLoad => [.ReadsMemory, .RuntimeCheck, .MayThrow]
  | .FieldStore | .IndexStore => [.WritesMemory, .RuntimeCheck, .MayThrow]
  | .StaticLoad => [.ReadsMemory, .RuntimeCheck, .MayThrow, .Calls]
  | .StaticStore => [.WritesMemory, .RuntimeCheck, .MayThrow, .Calls]
  | .Alloc | .NewCollection | .MakeClosure | .SharedCreate => [.Allocation]
  | .Call | .InvokeMethod | .InvokeSuper | .InvokeStatic | .CallIndirect | .CallNative =>
      [.Calls, .MayThrow, .ReadsMemory, .WritesMemory]
  | .Await => [.Suspension, .TaskEffect, .MayThrow, .ReadsMemory, .WritesMemory]
  | .TaskCreate => [.Allocation, .TaskEffect]
  | .TaskSpawn => [.TaskEffect, .ThreadBoundary, .MayThrow, .WritesMemory]
  | .TaskBlock => [.TaskEffect, .Synchronization, .MayThrow, .ReadsMemory, .WritesMemory]
  | .TaskIgnore | .TaskCancel => [.TaskEffect, .MayThrow, .WritesMemory]
  | .ThreadStart => [.ThreadBoundary, .MayThrow, .WritesMemory]
  | .ThreadJoin => [.ThreadBoundary, .Synchronization, .MayThrow, .ReadsMemory, .WritesMemory]
  | .ThreadIsAlive | .ChannelSize | .AtomicLoad | .AtomicLoadBool | .AtomicLoadDouble | .AtomicLoadRef
  | .SemaphoreAvailable
  | .SemaphoreTryAcquire | .SharedGet => [.Synchronization, .VolatileRead, .MayThrow]
  | .ChannelCreate => [.Allocation, .MayThrow]
  | .ChannelSend | .ChannelReceive
  | .ConditionWait | .ConditionWaitFor | .ConditionNotifyOne | .ConditionNotifyAll =>
    [.Synchronization, .MayThrow, .ReadsMemory, .WritesMemory]
  | .ChannelSendAsync | .ChannelReceiveAsync => [.Synchronization, .TaskEffect, .MayThrow,
      .ReadsMemory, .WritesMemory]
  | .MutexWithLock | .RwLockWithRead | .RwLockWithWrite | .SharedWithLock =>
    [.Synchronization, .UnwindBarrier, .Calls, .MayThrow, .ReadsMemory, .WritesMemory]
  | .AtomicStore | .AtomicStoreBool | .AtomicStoreDouble | .AtomicStoreRef
  | .SemaphoreAcquire | .SemaphoreRelease
  | .SemaphoreSetPermits | .SemaphoreReleaseMany | .SharedSet =>
      [.Synchronization, .MayThrow, .WritesMemory]
  | .AtomicAdd => [.Synchronization, .VolatileRead, .MayThrow, .WritesMemory]
  | .FfiCall | .CallbackInvoke => [.NativeResource, .Calls, .MayThrow, .ReadsMemory, .WritesMemory]
  | .HandleBorrow => [.NativeResource, .RuntimeCheck, .MayThrow]
  | .HandleConsume | .HandleClose | .CallbackRegister | .CallbackClose =>
      [.NativeResource, .RuntimeCheck, .MayThrow, .WritesMemory]
  | .Move | .EndBorrow | .Drop => [.Ownership, .ReadsMemory, .WritesMemory, .MayThrow]
  | .Borrow => [.Ownership, .WritesMemory, .MayThrow]
  | .RangeInBounds => [.Pure, .MayThrow]
  | .Log => [ .ObservableIo, .MayThrow]

namespace ControlFlowGraph

/-- The block a query by id looks at: the last one that carries the id. -/
def blockAt (f : Function) (id : BlockId) : Option BasicBlock := f.blocks.reverse.find? (·.id == id)

def isValid (f : Function) (id : BlockId) : Bool := f.blocks.any (·.id == id)

/-- Normal-flow successors that exist, in terminator order with duplicates kept. -/
def successors (f : Function) (id : BlockId) : List BlockId :=
  match blockAt f id with
  | none => []
  | some b => b.terminator.successors.filter (isValid f)

/-- The blocks with an edge to `id`, once for each edge. -/
def predecessors (f : Function) (id : BlockId) : List BlockId :=
  if isValid f id then
    f.blocks.flatMap fun b => (b.terminator.successors.filter (· == id)).map fun _ => b.id
  else []

/-- The handler targets of a block that exist, the innermost handler last. -/
def handlerTargets (f : Function) (b : BasicBlock) : List BlockId :=
  (b.exceptionHandlers.map (·.block)).filter fun id => id != kNoBlock && isValid f id

def unwindSuccessors (f : Function) (id : BlockId) : List BlockId :=
  match blockAt f id with
  | none => []
  | some b => handlerTargets f b

/-- The blocks whose handler chain names `id`, once for each handler. -/
def unwindPredecessors (f : Function) (id : BlockId) : List BlockId :=
  f.blocks.flatMap fun b => ((handlerTargets f b).filter (· == id)).map fun _ => b.id

/-- Fuel for a search: a vertex for each block, and the entry should it not exist. -/
def searchFuel (f : Function) : Nat := f.blocks.length + 1

/-- The blocks reachable from the entry along normal edges. -/
def reachable (f : Function) : List BlockId :=
  if f.entryBlock = kNoBlock then []
  else breadthFirst (successors f) (searchFuel f) ([f.entryBlock], [f.entryBlock])

/-- The blocks reachable when unwind edges are followed too. -/
def reachableWithUnwind (f : Function) : List BlockId :=
  breadthFirst (fun id => successors f id ++ unwindSuccessors f id) (searchFuel f)
    (reachable f, reachable f)

def isReachable (f : Function) (id : BlockId) : Bool := decide (id ∈ reachable f)

/-- Entry-first reverse post-order over normal edges. -/
def reversePostOrder (f : Function) : List BlockId :=
  if f.entryBlock = kNoBlock ∨ isValid f f.entryBlock = false then []
  else
    depthFirst (successors f) (searchCost (successors f) (f.blocks.map (·.id))) [f.entryBlock]
      [(f.entryBlock, successors f f.entryBlock)] []

/-- The table of immediate dominators, the entry its own. The intersection of two chains takes at
    most one round for each of their blocks. -/
def computeDominators (f : Function) : Option (BlockId → Option BlockId) :=
  match reversePostOrder f with
  | [] => some fun _ => none
  | entry :: rest =>
    let count := rest.length + 1
    whileChanged (sweepIdoms (entry :: rest).idxOf (2 * count + 1) (predecessors f) rest)
      (count * count + 2) (rootIdom entry)

/-- The immediate dominator over normal edges, and no block for the entry and for
    unreachable blocks. -/
def immediateDominator (f : Function) (id : BlockId) : BlockId :=
  match computeDominators f with
  | none => kNoBlock
  | some idom =>
    match idom id with
    | none => kNoBlock
    | some parent => if parent = id then kNoBlock else parent

/-- The walk of `dominates` up the dominator tree. -/
def climbsTo (f : Function) (dominator : BlockId) : Nat → BlockId → Bool
  | 0, _ => false
  | fuel + 1, current =>
    if current = kNoBlock then false
    else
      let next := immediateDominator f current
      if next = dominator then true
      else if next = kNoBlock ∨ next = current then false
      else climbsTo f dominator fuel next

def dominates (f : Function) (dominator block : BlockId) : Bool :=
  if isValid f dominator = false ∨ isValid f block = false then false
  else if dominator = block then true
  else climbsTo f dominator (searchFuel f) block

end ControlFlowGraph

end zl.mir
