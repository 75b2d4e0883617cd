import Mathlib.Data.Nat.Notation

namespace zl.mir

abbrev TempId := Nat
abbrev SlotId := Nat
abbrev ParamId := Nat
abbrev BlockId := Nat
abbrev ConstId := Nat
abbrev FunctionId := Nat
abbrev StaticId := Nat
abbrev BlockParamId := Nat
abbrev TypeId := Nat

/-- Ids are one-based, so zero is the absent id of every id space. -/
abbrev kNoTemp : TempId := 0
abbrev kNoSlot : SlotId := 0
abbrev kNoBlock : BlockId := 0
abbrev kNoBlockParam : BlockParamId := 0
abbrev kNoType : TypeId := 0

inductive ConstKind where
  | Bool | Int | Double | String | Nil | EnumMember
  deriving DecidableEq, Repr

/-- A module constant. The payload of a double is its bit pattern, which is what the constant pool
    compares. -/
structure Constant where
  kind : ConstKind := .Nil
  boolValue : Bool := false
  intValue : Int := 0
  doubleBits : Nat := 0
  stringValue : String := ""
  enumTypeName : String := ""
  deriving DecidableEq, Repr

inductive OperandKind where
  | None | Const | Temp | Param | BlockParam | Static
  deriving DecidableEq, Repr

/-- One typed reference to a value. -/
structure Operand where
  kind : OperandKind := .None
  type : TypeId := 0
  index : Nat := 0
  deriving DecidableEq, Repr

namespace Operand

def isNone (operand : Operand) : Bool := operand.kind == .None

def none : Operand := {}
def constant (id : ConstId) (type : TypeId) : Operand := ⟨.Const, type, id⟩
def temp (id : TempId) (type : TypeId) : Operand := ⟨.Temp, type, id⟩
def param (id : ParamId) (type : TypeId) : Operand := ⟨.Param, type, id⟩
def blockParam (id : BlockParamId) (type : TypeId) : Operand := ⟨.BlockParam, type, id⟩

end Operand

/-- A value of a function: a parameter, a block parameter or a temp. The inductive has no
    constructor for a constant or a static, so the invalid `ValueId` of the source is the `none`
    of `valueOf`. -/
inductive ValueId where
  | temp (id : TempId)
  | param (id : ParamId)
  | blockParam (id : BlockParamId)
  deriving DecidableEq, Repr

/-- The value an operand names, or nothing for a constant, a static or an absent operand. -/
def valueOf (operand : Operand) : Option ValueId :=
  match operand.kind with
  | .Param => some (.param operand.index)
  | .Temp => some (.temp operand.index)
  | .BlockParam => some (.blockParam operand.index)
  | .None | .Const | .Static => .none

theorem valueOf_eq_temp {operand : Operand} {id : TempId} :
    valueOf operand = some (.temp id) ↔ operand.kind = .Temp ∧ operand.index = id := by
  cases hkind : operand.kind <;> simp [valueOf, hkind]

theorem valueOf_eq_blockParam {operand : Operand} {id : BlockParamId} :
    valueOf operand = some (.blockParam id) ↔ operand.kind = .BlockParam ∧ operand.index = id := by
  cases hkind : operand.kind <;> simp [valueOf, hkind]

/-- The storage contract of a local. -/
inductive OwnershipKind where
  | GC | OWNED | BORROW | SHARED
  deriving DecidableEq, Repr

/-- A mutable local. -/
structure Slot where
  name : String := ""
  type : TypeId := 0
  isMutable : Bool := true
  ownership : OwnershipKind := .GC
  borrowSource : String := ""
  isCatchBinding : Bool := false
  deriving DecidableEq, Repr

inductive Opcode where
  | Nop | Add | Sub | Mul | Div | Mod | Pow | Neg | BitAnd | BitOr | BitXor | BitNot | Shl
  | Shr | Ushr | Eq | Ne | Lt | Le | Gt | Ge | Not | And | Or | Widen | Refine | TypeTest
  | NullCheck | IsNull | Load | Store | FieldLoad | FieldStore | IndexLoad | IndexStore
  | StaticLoad | StaticStore | Alloc | Call | InvokeMethod | InvokeSuper | InvokeStatic
  | CallIndirect | CallNative | MakeClosure | Await | TaskCreate | TaskSpawn | TaskBlock
  | TaskIgnore | TaskCancel | ThreadStart | ThreadJoin | ThreadIsAlive | ChannelCreate
  | ChannelSend | ChannelReceive | ChannelSize | ChannelSendAsync | ChannelReceiveAsync
  | MutexWithLock | RwLockWithRead | RwLockWithWrite | AtomicLoad | AtomicStore | AtomicAdd
  | AtomicLoadBool | AtomicStoreBool | AtomicLoadDouble | AtomicStoreDouble | AtomicLoadRef
  | AtomicStoreRef | SemaphoreAcquire | SemaphoreRelease | SemaphoreAvailable
  | SemaphoreSetPermits | SemaphoreTryAcquire | SemaphoreReleaseMany | ConditionWait
  | ConditionWaitFor | ConditionNotifyOne | ConditionNotifyAll | SharedCreate | SharedGet
  | SharedSet | SharedWithLock | FfiCall | HandleBorrow | HandleConsume | HandleClose
  | CallbackRegister | CallbackInvoke | CallbackClose | Move | Borrow | EndBorrow | Drop
  | NewCollection | RangeInBounds | Log
  deriving DecidableEq, Repr

def opcodeName : Opcode → String
  | .Nop => "nop" | .Add => "add" | .Sub => "sub" | .Mul => "mul" | .Div => "div" | .Mod => "mod"
  | .Pow => "pow" | .Neg => "neg" | .BitAnd => "bit_and" | .BitOr => "bit_or"
  | .BitXor => "bit_xor" | .BitNot => "bit_not" | .Shl => "shl" | .Shr => "shr" | .Ushr => "ushr"
  | .Eq => "eq" | .Ne => "ne" | .Lt => "lt" | .Le => "le" | .Gt => "gt" | .Ge => "ge"
  | .Not => "not" | .And => "and" | .Or => "or" | .Widen => "widen" | .Refine => "refine"
  | .TypeTest => "type_test" | .NullCheck => "null_check" | .IsNull => "is_null"
  | .Load => "load" | .Store => "store" | .FieldLoad => "field_load"
  | .FieldStore => "field_store" | .IndexLoad => "index_load" | .IndexStore => "index_store"
  | .StaticLoad => "static_load" | .StaticStore => "static_store" | .Alloc => "alloc"
  | .Call => "call" | .InvokeMethod => "invoke_method" | .InvokeSuper => "invoke_super"
  | .InvokeStatic => "invoke_static" | .CallIndirect => "call_indirect"
  | .CallNative => "call_native" | .MakeClosure => "make_closure" | .Await => "await"
  | .TaskCreate => "task_create" | .TaskSpawn => "task_spawn" | .TaskBlock => "task_block"
  | .TaskIgnore => "task_ignore" | .TaskCancel => "task_cancel" | .ThreadStart => "thread_start"
  | .ThreadJoin => "thread_join" | .ThreadIsAlive => "thread_is_alive"
  | .ChannelCreate => "channel_create" | .ChannelSend => "channel_send"
  | .ChannelReceive => "channel_receive" | .ChannelSize => "channel_size"
  | .ChannelSendAsync => "channel_send_async" | .ChannelReceiveAsync => "channel_receive_async"
  | .MutexWithLock => "mutex_with_lock" | .RwLockWithRead => "rwlock_with_read"
  | .RwLockWithWrite => "rwlock_with_write" | .AtomicLoad => "atomic_load"
  | .AtomicStore => "atomic_store" | .AtomicAdd => "atomic_add"
  | .AtomicLoadBool => "atomic_load_bool" | .AtomicStoreBool => "atomic_store_bool"
  | .AtomicLoadDouble => "atomic_load_double" | .AtomicStoreDouble => "atomic_store_double"
  | .AtomicLoadRef => "atomic_load_ref" | .AtomicStoreRef => "atomic_store_ref"
  | .SemaphoreAcquire => "semaphore_acquire" | .SemaphoreRelease => "semaphore_release"
  | .SemaphoreAvailable => "semaphore_available"
  | .SemaphoreSetPermits => "semaphore_set_permits"
  | .SemaphoreTryAcquire => "semaphore_try_acquire"
  | .SemaphoreReleaseMany => "semaphore_release_many" | .ConditionWait => "condition_wait"
  | .ConditionWaitFor => "condition_wait_for" | .ConditionNotifyOne => "condition_notify_one"
  | .ConditionNotifyAll => "condition_notify_all" | .SharedCreate => "shared_create"
  | .SharedGet => "shared_get" | .SharedSet => "shared_set"
  | .SharedWithLock => "shared_with_lock" | .FfiCall => "ffi_call"
  | .HandleBorrow => "handle_borrow" | .HandleConsume => "handle_consume"
  | .HandleClose => "handle_close" | .CallbackRegister => "callback_register"
  | .CallbackInvoke => "callback_invoke" | .CallbackClose => "callback_close" | .Move => "move"
  | .Borrow => "borrow" | .EndBorrow => "end_borrow" | .Drop => "drop"
  | .NewCollection => "new_collection" | .RangeInBounds => "range_in_bounds" | .Log => "log"

/-- The static shape of an opcode: the contract the verifier enforces. -/
structure OpcodeShape where
  operandCount : Nat := 0
  variadicOperands : Bool := false
  producesResult : Bool := false
  optionalResult : Bool := false
  mayThrow : Bool := false
  hasSideEffects : Bool := false
  deriving DecidableEq, Repr

/-- The opcodes whose temp is produced only for a non-void result. -/
def opcodeHasOptionalResult : Opcode → Bool
  | .Call | .InvokeMethod | .InvokeSuper | .InvokeStatic | .CallIndirect | .CallNative | .Await
  | .TaskBlock | .MutexWithLock | .RwLockWithRead | .RwLockWithWrite | .SharedWithLock | .FfiCall
  | .CallbackInvoke => true
  | _ => false

/-- One row of the shape table: operand count, variadic, result, may throw, side effects. -/
def setOpcodeShape (op : Opcode) (operands : Nat) (variadic result throws effects : Bool) :
    OpcodeShape :=
  { operandCount := operands, variadicOperands := variadic, producesResult := result,
    optionalResult := opcodeHasOptionalResult op, mayThrow := throws, hasSideEffects := effects }

def opcodeShape (op : Opcode) : OpcodeShape :=
  match op with
  | .Nop =>
    setOpcodeShape op 0 false false false false
  | .Add | .Sub | .Mul | .Pow | .BitAnd | .BitOr | .BitXor | .Shl | .Shr | .Ushr | .Eq | .Ne
  | .Lt | .Le | .Gt | .Ge | .And | .Or =>
    setOpcodeShape op 2 false true false false
  | .Div | .Mod | .IndexLoad =>
    setOpcodeShape op 2 false true true false
  | .Neg | .BitNot | .Not | .Widen | .TypeTest | .IsNull | .TaskCreate | .SharedCreate =>
    setOpcodeShape op 1 false true false false
  | .Refine | .NullCheck | .FieldLoad | .HandleBorrow =>
    setOpcodeShape op 1 false true true false
  | .Load | .StaticLoad | .Alloc | .NewCollection =>
    setOpcodeShape op 0 false true false false
  | .Store | .StaticStore | .Borrow | .Log =>
    setOpcodeShape op 1 false false false true
  | .FieldStore | .ChannelSend | .AtomicStore | .AtomicStoreBool | .AtomicStoreDouble
  | .AtomicStoreRef | .SemaphoreSetPermits | .SemaphoreReleaseMany | .SharedSet =>
    setOpcodeShape op 2 false false true true
  | .IndexStore =>
    setOpcodeShape op 3 false false true true
  | .Call | .InvokeStatic | .CallNative | .FfiCall =>
    setOpcodeShape op 0 true true true true
  | .InvokeMethod | .InvokeSuper | .CallIndirect | .CallbackInvoke =>
    setOpcodeShape op 1 true true true true
  | .MakeClosure =>
    setOpcodeShape op 0 true true false false
  | .Await | .TaskSpawn | .TaskBlock | .ThreadStart | .ThreadIsAlive | .ChannelCreate
  | .ChannelReceive | .ChannelSize | .ChannelReceiveAsync | .AtomicLoad | .AtomicLoadBool
  | .AtomicLoadDouble | .AtomicLoadRef | .SemaphoreAvailable | .SemaphoreTryAcquire | .SharedGet
  | .HandleConsume | .CallbackRegister =>
    setOpcodeShape op 1 false true true true
  | .TaskIgnore | .TaskCancel | .ThreadJoin | .SemaphoreAcquire | .SemaphoreRelease
  | .ConditionWait | .ConditionNotifyOne | .ConditionNotifyAll | .HandleClose | .CallbackClose =>
    setOpcodeShape op 1 false false true true
  | .ChannelSendAsync | .MutexWithLock | .RwLockWithRead | .RwLockWithWrite | .AtomicAdd
  | .ConditionWaitFor | .SharedWithLock =>
    setOpcodeShape op 2 false true true true
  | .Move =>
    setOpcodeShape op 0 false true false true
  | .EndBorrow =>
    setOpcodeShape op 0 false false false true
  | .Drop =>
    setOpcodeShape op 0 true false false true
  | .RangeInBounds =>
    setOpcodeShape op 3 false true true false

/-- The opcodes that address a mutable local through `Instruction.slot`. -/
def opcodeUsesSlot : Opcode → Bool
  | .Load | .Store | .Move | .Borrow | .EndBorrow | .Drop => true
  | _ => false

inductive NativeOwnership where
  | None | Borrowed | Owned | Consumed
  deriving DecidableEq, Repr

/-- The parts of a call target that the modelled analyses read. -/
structure CallTarget where
  function : FunctionId := 0
  className : String := ""
  methodName : String := ""
  nativeId : Int := -1
  nativeParamOwnership : List NativeOwnership := []
  ffiParamOwnership : List NativeOwnership := []
  deriving DecidableEq, Repr

structure Instruction where
  opcode : Opcode := .Nop
  result : TempId := kNoTemp
  resultType : TypeId := 0
  operands : List Operand := []
  name : String := ""
  target : CallTarget := {}
  testedType : TypeId := kNoType
  slot : SlotId := 0
  deriving DecidableEq, Repr

inductive TerminatorKind where
  | None | Return | Jump | Branch | Switch | Throw | Unreachable
  deriving DecidableEq, Repr

def terminatorKindName : TerminatorKind → String
  | .None => "none" | .Return => "return" | .Jump => "jump" | .Branch => "branch"
  | .Switch => "switch" | .Throw => "throw" | .Unreachable => "unreachable"

structure SwitchTarget where
  value : Int := 0
  block : BlockId := kNoBlock
  deriving DecidableEq, Repr

/-- The single control transfer that ends a block. `edgeArguments` has one entry for each normal
    successor, in the order `successors` reports them. -/
structure Terminator where
  kind : TerminatorKind := .None
  value : Operand := Operand.none
  target : BlockId := kNoBlock
  elseBlock : BlockId := kNoBlock
  cases : List SwitchTarget := []
  edgeArguments : List (List Operand) := []
  deriving DecidableEq, Repr

namespace Terminator

/-- Every block the terminator can transfer control to, in a stable order. -/
def successors (t : Terminator) : List BlockId :=
  match t.kind with
  | .Jump => [t.target].filter (· != kNoBlock)
  | .Branch => [t.target, t.elseBlock].filter (· != kNoBlock)
  | .Switch => (t.cases.map (·.block) ++ [t.target]).filter (· != kNoBlock)
  | .None | .Return | .Throw | .Unreachable => []

/-- The arguments handed to successor `index`, or none when it has no entry. -/
def argumentsFor (t : Terminator) (index : Nat) : List Operand :=
  t.edgeArguments.getD index []

theorem successors_ne_kNoBlock {t : Terminator} {b : BlockId} (hb : b ∈ t.successors) :
    b ≠ kNoBlock := by
  unfold successors at hb
  split at hb
  case h_4 | h_5 | h_6 | h_7 => cases hb
  all_goals simpa using (List.mem_filter.mp hb).2

end Terminator

end zl.mir
