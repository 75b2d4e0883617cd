import Mathlib.Data.List.Sort
import Zl.Ir.Function
import Zl.Mir.Instruction

namespace zl.mir

inductive BlockKind where
  | Normal | Catch | Cleanup
  deriving DecidableEq, Repr

/-- One handler of a block's exception chain, which has the innermost last. -/
structure ExceptionHandler where
  catchType : TypeId := 0
  block : BlockId := kNoBlock
  catchSlot : SlotId := 0
  isFinally : Bool := false
  deriving DecidableEq, Repr

inductive EdgeKind where
  | Normal | Unwind
  deriving DecidableEq, Repr

structure ControlFlowEdge where
  source : BlockId := kNoBlock
  target : BlockId := kNoBlock
  kind : EdgeKind := .Normal
  deriving DecidableEq, Repr

/-- A value bound on entry to a block, one argument for each incoming normal edge. -/
structure BlockParameter where
  id : BlockParamId := kNoBlockParam
  name : String := ""
  type : TypeId := 0
  deriving DecidableEq, Repr

structure BasicBlock where
  id : BlockId := kNoBlock
  kind : BlockKind := .Normal
  parameters : List BlockParameter := []
  instructions : List Instruction := []
  terminator : Terminator := {}
  exceptionHandlers : List ExceptionHandler := []
  deriving DecidableEq, Repr

/-- A captured variable of a closure. -/
structure CaptureSpec where
  name : String := ""
  storage : String := ""
  type : TypeId := 0
  usesThis : Bool := false
  deriving DecidableEq, Repr

structure Parameter where
  name : String := ""
  type : TypeId := 0
  ownership : OwnershipKind := .GC
  deriving DecidableEq, Repr

inductive MemberAccess where
  | Public | Protected | Private
  deriving DecidableEq, Repr

structure Function where
  name : String := ""
  ownerClass : String := ""
  simpleName : String := ""
  parameters : List Parameter := []
  hasThisParameter : Bool := false
  returnType : TypeId := 0
  slots : List Slot := []
  blocks : List BasicBlock := []
  entryBlock : BlockId := kNoBlock
  edges : List ControlFlowEdge := []
  isAsync : Bool := false
  isLambda : Bool := false
  isConstructor : Bool := false
  isStatic : Bool := false
  access : MemberAccess := .Public
  isNative : Bool := false
  isGenericTemplate : Bool := false
  typeParameters : List String := []
  methodTypeParameters : List String := []
  captures : List CaptureSpec := []
  incomplete : Bool := false
  incompleteReasons : List String := []
  deriving DecidableEq, Repr

namespace Function

/-- The first block with this id. -/
def block (f : Function) (id : BlockId) : Option BasicBlock :=
  if id = kNoBlock then none else f.blocks.find? (·.id == id)

theorem block_eq_some {f : Function} {id : BlockId} {b : BasicBlock} (h : f.block id = some b) :
    id ≠ kNoBlock ∧ b ∈ f.blocks ∧ b.id = id := by
  unfold block at h
  split at h
  · cases h
  next hne => exact ⟨hne, List.mem_of_find?_eq_some h, by simpa using List.find?_some h⟩

/-- All instructions, in block order. -/
def instructions (f : Function) : List Instruction := f.blocks.flatMap (·.instructions)

def parameter (f : Function) (id : ParamId) : Option Parameter := f.parameters[id]?

/-- Slot ids are one-based, so id zero names no slot. -/
def slot (f : Function) (id : SlotId) : Option Slot :=
  if id = 0 then none else f.slots[id - 1]?

/-- The first block that declares a parameter with this id. -/
def blockOfParameter (f : Function) (id : BlockParamId) : Option BasicBlock :=
  if id = kNoBlockParam then none
  else f.blocks.find? fun b => b.parameters.any (·.id == id)

def blockParameter (f : Function) (id : BlockParamId) : Option BlockParameter :=
  if id = kNoBlockParam then none
  else (f.blocks.flatMap (·.parameters)).find? (·.id == id)

/-- The edges one block contributes: its terminator's successors, then its handlers. -/
def edgesOf (b : BasicBlock) : List ControlFlowEdge :=
  b.terminator.successors.map (fun s => ⟨b.id, s, .Normal⟩) ++
    (b.exceptionHandlers.filter (·.block != kNoBlock)).map (fun h => ⟨b.id, h.block, .Unwind⟩)

/-- The order of the edge list: source block, then kind, then target. -/
def edgeLe (a b : ControlFlowEdge) : Bool :=
  let kindNumber : EdgeKind → Nat := fun | .Normal => 0 | .Unwind => 1
  if a.source != b.source then a.source < b.source
  else if a.kind != b.kind then kindNumber a.kind < kindNumber b.kind
  else a.target ≤ b.target

/-- The edge list implied by the terminators and handler chains, in a stable sorted order. -/
def rebuildEdges (f : Function) : Function :=
  { f with edges := (f.blocks.flatMap edgesOf).insertionSort (fun a b => edgeLe a b) }

end Function

/-- The parts of a module that the checks and passes read. -/
structure StaticField where
  className : String := ""
  name : String := ""
  type : TypeId := 0
  initializer : FunctionId := 0
  deriving DecidableEq, Repr

structure FieldLayout where
  name : String := ""
  type : TypeId := 0
  ownership : ir.OwnershipKind := .gc
  isStatic : Bool := false
  access : MemberAccess := .Public
  deriving DecidableEq, Repr

structure ClassLayout where
  name : String := ""
  parent : String := ""
  interfaces : List String := []
  fields : List FieldLayout := []
  deriving DecidableEq, Repr

/-- A method an interface declares: its explicit parameters, without a receiver. -/
structure InterfaceMethod where
  name : String := ""
  parameterTypes : List TypeId := []
  deriving DecidableEq, Repr

structure InterfaceInfo where
  name : String := ""
  bases : List String := []
  methods : List InterfaceMethod := []
  deriving DecidableEq, Repr

/-- The id of a function is its position in the module, counted from one. -/
structure Module where
  functions : List Function := []
  statics : List StaticField := []
  classes : List ClassLayout := []
  interfaces : List InterfaceInfo := []
  constants : List Constant := []
  entryPoint : FunctionId := 0
  deriving DecidableEq, Repr

namespace Module

def function (m : Module) (id : FunctionId) : Option Function :=
  if id = 0 then none else m.functions[id - 1]?

def constant (m : Module) (id : ConstId) : Option Constant :=
  if id = 0 then none else m.constants[id - 1]?

def staticField (m : Module) (id : StaticId) : Option StaticField :=
  if id = 0 then none else m.statics[id - 1]?

end Module

inductive TypeKind where
  | Void | Nil | Bool | Int | Double | String | List | Map | Set | Array | Object | Task | Shared
  | Option | Result | Function | Union | TypeParam | Unknown | Thread | Channel | Mutex | RwLock
  | Atomic | Semaphore | Condition | NativeHandle | NativeBuffer | NativeStruct | NativeCallback
  deriving DecidableEq, Repr

/-- One interned type, with the parts the function-level checks read. -/
structure MirType where
  kind : TypeKind := .Unknown
  name : String := ""
  arguments : List TypeId := []
  deriving DecidableEq, Repr

/-- The kinds that hold a heap reference. -/
def isReferenceKind : TypeKind → Bool
  | .List | .Map | .Set | .Array | .Object | .Task | .Shared | .Option | .Result | .Function
  | .Thread | .Channel | .Mutex | .RwLock | .Atomic | .Semaphore | .Condition | .NativeHandle
  | .NativeBuffer | .NativeStruct | .NativeCallback => true
  | _ => false

/-- An object of this class, or of a generic instantiation of it. -/
def isObjectNamed (type : MirType) (name : String) : Bool :=
  type.kind == .Object && (type.name == name || (name ++ "<").isPrefixOf type.name)

def isTaskType (type : MirType) : Bool := type.kind == .Task || isObjectNamed type "Task"

def ownershipName : OwnershipKind → String
  | .GC => "gc" | .OWNED => "owned" | .BORROW => "borrow" | .SHARED => "shared"

def constKindName : ConstKind → String
  | .Bool => "bool" | .Int => "int" | .Double => "double" | .String => "string" | .Nil => "nil"
  | .EnumMember => "enum"

/-- One error of a report: the block it is about (none for the function itself), the
    instruction in the block, and the text. -/
structure Diagnostic where
  block : BlockId := kNoBlock
  instructionIndex : Option Nat := none
  message : String
  deriving DecidableEq, Repr

/-- What the verifier asks of a module's types: the interned type of an id, nullability,
    assignability, the rendered name, and the rules an opcode that addresses no slot imposes on
    its operands and result. -/
structure TypeRules where
  find : TypeId → Option MirType
  isNullable : TypeId → Bool
  assignable : TypeId → TypeId → Bool
  render : TypeId → String
  valueRules : Function → BasicBlock → Instruction → Nat → List Diagnostic

end zl.mir
