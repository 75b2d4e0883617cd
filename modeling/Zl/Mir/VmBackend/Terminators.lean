import Zl.Mir.Function
import Zl.Vm.Bytecode

open zl.vm (Value)

namespace zl.mir.VmBackend

/-- One emitted instruction. Constants and names stand in place of their pool indices, and a block
    in place of the address the patching writes. `Execute` is the code of an ordinary instruction,
    which leaves handlers alone. -/
inductive BcInstruction where
  | PushConst (value : Value)
  | LoadVar (name : String)
  | DefineVar (name : String)
  | Execute (instruction : Instruction)
  | Jump (target : BlockId)
  | JumpIfFalse (target : BlockId)
  | PushHandler (target : BlockId) (catchClass : String) (group : Nat)
  | PushFinallyHandler (target : BlockId)
  | PopHandler
  | Return
  | Throw
  deriving DecidableEq, Repr

def toVmConstant (c : Constant) : Value :=
  match c.kind with
  | .Bool => .bool c.boolValue
  | .Int => .int c.intValue
  | .Double => .double c.doubleBits
  | .String => .string c.stringValue
  | .Nil => .nil
  | .EnumMember => .string c.stringValue

def primitiveTypeName : TypeKind → Option String
  | .Void => some "void"
  | .Nil => some "nil"
  | .Bool => some "bool"
  | .Int => some "int"
  | .Double => some "double"
  | .String => some "string"
  | _ => none

/-- The runtime spelling of a type. -/
def runtimeTypeName (rules : TypeRules) (id : TypeId) : String :=
  match rules.find id with
  | none => "unknown"
  | some type =>
    match primitiveTypeName type.kind with
    | some name => name
    | none => if type.kind = .Object ∧ type.name ≠ "" then type.name else rules.render id

/-- The bare class name of a catch type. -/
def bareTypeName (rules : TypeRules) (id : TypeId) : String :=
  match rules.find id with
  | none => runtimeTypeName rules id
  | some type => if type.name ≠ "" then type.name else runtimeTypeName rules id

def captureLocal (capture : CaptureSpec) : String :=
  if capture.storage = "" then capture.name else capture.storage

/-- The local of a parameter. The leading parameters of a closure body are its captures. -/
def paramLocal (f : Function) (p : ParamId) : String :=
  let declared := ((f.parameter p).map (·.name)).getD ""
  match f.captures[p]? with
  | some capture =>
    if f.isLambda then captureLocal capture
    else if f.hasThisParameter ∧ p = 0 then "this" else declared
  | none => if f.hasThisParameter ∧ p = 0 then "this" else declared

/-- The local of a slot. In a closure body the slot of a captured variable is the capture. -/
def slotLocal (f : Function) (s : SlotId) : String :=
  let own := "@m_slot_" ++ toString s
  match f.slot s with
  | none => own
  | some slot =>
    match f.captures.find? (·.name == slot.name) with
    | none => own
    | some capture => if f.isLambda then captureLocal capture else own

def tempLocal (t : TempId) : String := "@m_tmp_" ++ toString t

def blockParamLocal (p : BlockParamId) : String := "@m_bparam_" ++ toString p

def sameHandler (a b : ExceptionHandler) : Bool :=
  a.block == b.block && a.catchType == b.catchType && a.isFinally == b.isFinally

/-- The length of the longest common prefix of two chains. -/
def commonPrefix : List ExceptionHandler → List ExceptionHandler → Nat
  | a :: as, b :: bs => if sameHandler a b then commonPrefix as bs + 1 else 0
  | _, _ => 0

section
variable (rules : TypeRules) (m : Module) (f : Function)

/-- The code that pushes an operand. A static operand has no case of its own, so nothing is
    emitted for it. -/
def pushOperand (operand : Operand) : Except String (List BcInstruction) :=
  match operand.kind with
  | .Const =>
    match m.constant operand.index with
    | none => .error ("MIR backend: missing constant #" ++ toString operand.index)
    | some constant => .ok [.PushConst (toVmConstant constant)]
  | .Param => .ok [.LoadVar (paramLocal f operand.index)]
  | .Temp => .ok [.LoadVar (tempLocal operand.index)]
  | .BlockParam => .ok [.LoadVar (blockParamLocal operand.index)]
  | .None => .error "MIR backend: cannot push a None operand"
  | .Static => .ok []

/-- One store for each argument, in order. -/
def storeArguments : List (Operand × BlockParameter) → Except String (List BcInstruction)
  | [] => .ok []
  | (argument, parameter) :: rest => do
    let push ← pushOperand m f argument
    let code ← storeArguments rest
    return push ++ .DefineVar (blockParamLocal parameter.id) :: code

/-- The stores of the arguments a terminator hands to its successor. -/
def emitEdgeArguments (term : Terminator) (successorIndex : Nat) : Except String (List BcInstruction) :=
  match term.successors[successorIndex]?.bind f.block with
  | none => .ok []
  | some target =>
    if target.parameters = [] then .ok []
    else
      let arguments := term.argumentsFor successorIndex
      if arguments.length ≠ target.parameters.length then
        .error ("MIR backend: block b" ++ toString target.id ++ " has " ++
          toString target.parameters.length ++ " block parameter(s) but its incoming edge supplies " ++
          toString arguments.length)
      else storeArguments m f (arguments.zip target.parameters)

def chainOf (id : BlockId) : Except String (List ExceptionHandler) :=
  match f.block id with
  | none => .error "MIR backend: edge names no block"
  | some block => .ok block.exceptionHandlers

/-- The block an edge leads to has the same chain, handler for handler. -/
def sameChain (b : BasicBlock) (target : BlockId) : Except String Bool := do
  let chain ← chainOf f target
  return b.exceptionHandlers.length == chain.length &&
    (b.exceptionHandlers.zip chain).all fun p => sameHandler p.1 p.2

/-- The instruction that installs one handler. -/
def installHandler (groups : BlockId → Option Nat) (handler : ExceptionHandler) : BcInstruction :=
  if handler.isFinally then .PushFinallyHandler handler.block
  else
    .PushHandler handler.block
      (if handler.catchType ≠ 0 then bareTypeName rules handler.catchType else "")
      ((groups handler.block).getD 0)

/-- The adjustment of the handler stack along an edge: the handlers only the source has are
    popped, and those only the target has are pushed, the first of them last. -/
def syncHandlers (groups : BlockId → Option Nat) (b : BasicBlock) (target : BlockId) :
    Except String (List BcInstruction) := do
  let source := b.exceptionHandlers
  let chain ← chainOf f target
  let shared := commonPrefix source chain
  return List.replicate (source.length - shared) .PopHandler ++
    (chain.drop shared).reverse.map (installHandler rules groups)

def emitTerminator (groups : BlockId → Option Nat) (b : BasicBlock) :
    Except String (List BcInstruction) :=
  let term := b.terminator
  match term.kind with
  | .Return => do
    let push ← if term.value.isNone then .ok [.PushConst .nil] else pushOperand m f term.value
    return push ++ [.Return]
  | .Jump => do
    let stores ← emitEdgeArguments m f term 0
    let sync ← syncHandlers rules f groups b term.target
    return stores ++ sync ++ [.Jump term.target]
  | .Branch => do
    let thenSame ← sameChain f b term.target
    let elseSame ← sameChain f b term.elseBlock
    if !thenSame || !elseSame then .error "MIR backend: branch crosses an exception-handler region"
    else
      let thenStores ← emitEdgeArguments m f term 0
      let elseStores ← emitEdgeArguments m f term 1
      let push ← pushOperand m f term.value
      return thenStores ++ elseStores ++ push ++ [.JumpIfFalse term.elseBlock, .Jump term.target]
  | .Switch => .error "MIR backend: switch terminator is not translatable to this bytecode"
  | .Throw => do
    let push ← pushOperand m f term.value
    return push ++ [.Throw]
  | .Unreachable | .None => .ok []

end

end zl.mir.VmBackend
