import Zl.Mir.DeadFunctions.ReachableFunctions
import Zl.Mir.FoldingAgreement

namespace zl.mir

/-- Where instructions are put: a function under construction and its current block. -/
structure FunctionBuilder where
  function : Function := {}
  current : BlockId := kNoBlock
  nextTemp : TempId := 1

namespace FunctionBuilder

def updateBlock (fb : FunctionBuilder) (id : BlockId) (g : BasicBlock → BasicBlock) : FunctionBuilder :=
  { fb with function := { fb.function with
      blocks := fb.function.blocks.map fun b => if b.id = id then g b else b } }

def append (fb : FunctionBuilder) (i : Instruction) : FunctionBuilder :=
  fb.updateBlock fb.current fun b => { b with instructions := b.instructions ++ [i] }

/-- An instruction whose result is a new temp. -/
def appendResult (fb : FunctionBuilder) (i : Instruction) (type : TypeId) : TempId × FunctionBuilder :=
  (fb.nextTemp,
    { fb.append { i with result := fb.nextTemp, resultType := type } with nextTemp := fb.nextTemp + 1 })

def terminate (fb : FunctionBuilder) (t : Terminator) : FunctionBuilder :=
  fb.updateBlock fb.current fun b => { b with terminator := t }

def addSlot (fb : FunctionBuilder) (slot : Slot) : SlotId × FunctionBuilder :=
  (fb.function.slots.length + 1,
    { fb with function := { fb.function with slots := fb.function.slots ++ [slot] } })

def addBlock (fb : FunctionBuilder) (handlers : List ExceptionHandler) : BlockId × FunctionBuilder :=
  let id := fb.function.blocks.length + 1
  let function := { fb.function with
    blocks := fb.function.blocks ++ [{ id, exceptionHandlers := handlers }] }
  if id = 1 then (id, { fb with function := { function with entryBlock := id }, current := id })
  else (id, { fb with function })

def emitLoad (fb : FunctionBuilder) (slot : SlotId) : TempId × FunctionBuilder :=
  fb.appendResult { opcode := .Load, slot } (((fb.function.slot slot).map (·.type)).getD 0)

def emitStore (fb : FunctionBuilder) (slot : SlotId) (value : Operand) : FunctionBuilder :=
  fb.append { opcode := .Store, slot, operands := [value] }

def emitBinary (fb : FunctionBuilder) (opcode : Opcode) (left right : Operand) (type : TypeId) :
    TempId × FunctionBuilder :=
  fb.appendResult { opcode, operands := [left, right] } type

def emitWiden (fb : FunctionBuilder) (types : TypeTable) (operand : Operand) : TempId × FunctionBuilder :=
  fb.appendResult { opcode := .Widen, operands := [operand] } types.doubleType

def emitRefine (fb : FunctionBuilder) (operand : Operand) (type : TypeId) : TempId × FunctionBuilder :=
  fb.appendResult { opcode := .Refine, operands := [operand] } type

def emitRangeInBounds (fb : FunctionBuilder) (types : TypeTable) (current stop step : Operand) :
    TempId × FunctionBuilder :=
  fb.appendResult { opcode := .RangeInBounds, operands := [current, stop, step] } types.boolType

def emitFieldStore (fb : FunctionBuilder) (base : Operand) (fieldName : String) (value : Operand) :
    FunctionBuilder :=
  fb.append { opcode := .FieldStore, operands := [base, value], name := fieldName }

def emitStaticStore (fb : FunctionBuilder) (className fieldName : String) (value : Operand) :
    FunctionBuilder :=
  fb.append { opcode := .StaticStore, operands := [value], name := fieldName, target := { className } }

def emitJump (fb : FunctionBuilder) (target : BlockId) : FunctionBuilder :=
  fb.terminate { kind := .Jump, target }

def emitBranch (fb : FunctionBuilder) (condition : Operand) (thenBlock elseBlock : BlockId) :
    FunctionBuilder :=
  fb.terminate { kind := .Branch, value := condition, target := thenBlock, elseBlock }

end FunctionBuilder

/-- How a name in scope resolves. -/
inductive LocalRef where
  | slot (id : SlotId)
  | param (id : ParamId)
  | value (operand : Operand)
  deriving DecidableEq, Repr

structure LoopContext where
  continueTarget : BlockId := kNoBlock
  breakTarget : BlockId := kNoBlock
  finallyDepth : Nat := 0
  scopeDepth : Nat := 0
  deriving DecidableEq, Repr

/-- The state of lowering one function. The innermost scope, and the latest binding of a scope,
    comes first. -/
structure FunctionLowerer where
  fb : FunctionBuilder := {}
  typeParams : List String := []
  scopes : List (List (String × LocalRef)) := []
  loops : List LoopContext := []
  activeHandlers : List ExceptionHandler := []
  finallyDepth : Nat := 0
  failed : Bool := false

/-- Lowering a part of the program: it leaves a result and a state. -/
abbrev Lowering (α : Type) := StateM FunctionLowerer α

namespace FunctionLowerer

def emit (f : FunctionBuilder → FunctionBuilder) : Lowering Unit := modify fun l => { l with fb := f l.fb }

def emitResult {α : Type} (f : FunctionBuilder → α × FunctionBuilder) : Lowering α :=
  modifyGet fun l => ((f l.fb).1, { l with fb := (f l.fb).2 })

def newBlock : Lowering BlockId := do
  let l ← get
  emitResult (·.addBlock l.activeHandlers)

def gotoBlock (id : BlockId) : Lowering Unit := emit fun fb => { fb with current := id }

theorem run_bind {α β : Type} (m : Lowering α) (f : α → Lowering β) (l : FunctionLowerer) :
    (m >>= f) l = f (m l).1 (m l).2 := rfl

theorem run_pure {α : Type} (a : α) (l : FunctionLowerer) : (pure a : Lowering α) l = (a, l) := rfl

theorem run_get (l : FunctionLowerer) : (get : Lowering FunctionLowerer) l = (l, l) := rfl

theorem run_modify (f : FunctionLowerer → FunctionLowerer) (l : FunctionLowerer) :
    (modify f : Lowering Unit) l = ((), f l) := rfl

theorem run_emit (f : FunctionBuilder → FunctionBuilder) (l : FunctionLowerer) :
    emit f l = ((), { l with fb := f l.fb }) := rfl

theorem run_emitResult {α : Type} (f : FunctionBuilder → α × FunctionBuilder) (l : FunctionLowerer) :
    emitResult f l = ((f l.fb).1, { l with fb := (f l.fb).2 }) := rfl

/-- The current block already ends. -/
def isDead : Lowering Bool := do
  let l ← get
  return ((l.fb.function.block l.fb.current).map (·.terminator.kind != .None)).getD false

def storageKey (storageName name : String) : String := if storageName.isEmpty then name else storageName

def bindLocal (name : String) (ref : LocalRef) : Lowering Unit := modify fun l =>
  match l.scopes with
  | scope :: rest => { l with scopes := ((name, ref) :: scope) :: rest }
  | [] => l

def bindLocalBoth (name storageName : String) (ref : LocalRef) : Lowering Unit := do
  if !name.isEmpty then bindLocal name ref
  if !storageName.isEmpty && storageName != name then bindLocal storageName ref

def defineSlot (storageName name : String) (type : TypeId) (isMutable : Bool)
    (ownership : OwnershipKind) : Lowering SlotId := do
  let slot ← emitResult (·.addSlot { name := storageKey storageName name, type, isMutable, ownership })
  bindLocalBoth name storageName (.slot slot)
  return slot

section
variable (types : TypeTable) (module : Module)

/-- Every type parameter inside a type is one that the function binds. `fuel` is the depth that is
    left of the 16 levels the check looks into. -/
def tokensBoundHere (typeParams : List String) : Nat → Option MirType → Bool
  | 0, _ => true
  | fuel + 1, type =>
    match type with
    | none => true
    | some type =>
      if type.kind = .TypeParam then typeParams.contains type.name
      else if type.kind = .Object && !type.name.isEmpty && type.name != "object" &&
          type.arguments.isEmpty && (module.classLayout type.name).isNone then
        typeParams.contains type.name
      else type.arguments.all fun argument => tokensBoundHere typeParams fuel (types.find argument)

/-- How a value gets to a type: as it is, widened to a double, or asserted. -/
inductive Conversion where
  | keep
  | widen (target : TypeId)
  | refine (target : TypeId)
  deriving DecidableEq, Repr

/-- The conversion that `coerce` inserts. Nil is assigned as it is, and anything else is what the
    checker has accepted. -/
def conversion (typeParams : List String) (source target : TypeId) : Conversion :=
  if source = target then .keep
  else
    match types.find source, types.find target with
    | some fromType, some toType =>
      if fromType.kind = .Int ∧ toType.kind = .Double then .widen target
      else if fromType.kind = .Unknown ∧ toType.kind ≠ .Unknown ∧ toType.kind ≠ .Void ∧
          tokensBoundHere types module typeParams 17 (some toType) then .refine target
      else .keep
    | _, _ => .keep

/-- Emits a conversion, to the operand that carries the converted value. -/
def convert (value : Operand) : Conversion → Lowering Operand
  | .keep => pure value
  | .widen target => do
    let t ← emitResult (·.emitWiden types value)
    return .temp t target
  | .refine target => do
    let t ← emitResult (·.emitRefine value target)
    return .temp t target

def coerce (value : Operand) (target : TypeId) : Lowering Operand := do
  if value.isNone then return value
  let l ← get
  convert types value (conversion types module l.typeParams value.type target)

end

end FunctionLowerer

end zl.mir
