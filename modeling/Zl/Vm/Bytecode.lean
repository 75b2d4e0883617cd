import Mathlib

namespace zl.vm

/-- A value as the interpreter's stack holds it. A double is its bit pattern. A reference is an
    address, and carries whether it counts as true: a collection that has items, any other handle
    that is set. -/
inductive Value where
  | nil
  | bool (held : Bool)
  | int (held : Int)
  | double (bits : Nat)
  | string (held : String)
  | reference (address : Nat) (held : Bool)
  deriving DecidableEq, Repr

/-- Zero of either sign is the false double. -/
def isTruthy : Value → Bool
  | .nil => false
  | .bool held => held
  | .int held => held != 0
  | .double bits => bits % 2 ^ 63 != 0
  | .string held => held != ""
  | .reference _ held => held

theorem exists_pair_isTruthy (truth : Bool) :
    ∃ v, isTruthy v = truth ∧ ∃ w, isTruthy w = truth ∧ v ≠ w := by
  cases truth with
  | true => exact ⟨.bool true, rfl, .int 1, rfl, by decide⟩
  | false => exact ⟨.bool false, rfl, .nil, rfl, by decide⟩

inductive OpCode where
  | PushConst | Pop | Dup | DefineVar | LoadVar | MoveVar | DropVar | Add | Sub | Mul | Div
  | Mod | Pow | Neg | BitAnd | BitOr | BitXor | BitNot | Shl | Shr | Ushr | Eq | Neq | Lt | Gt
  | Lte | Gte | And | Or | Not | Jump | JumpIfFalse | Call | Return | CallNative
  | PushProgramArgs | MakeClosure | CallValue | Await | TaskBlock | TaskIgnore | TaskCancel
  | MatchType | AssertType | RangeContinue | PushHandler | PushFinallyHandler | PopHandler
  | Throw | NewObject | CopyObject | GetField | GetIndex | GetStaticField | SetStaticField
  | SetField | SetIndex | InvokeMethod | InvokeSuper | Log | Halt
  deriving DecidableEq, Repr

structure Instruction where
  op : OpCode
  operand : Nat := 0
  operand2 : Nat := 0
  operand3 : Nat := 0
  deriving DecidableEq, Repr

/-- A compiled program. `classReflection` maps each class to its base class name, which is empty
    for a class without a base. -/
structure Chunk (V : Type) where
  code : List Instruction := []
  constants : List V := []
  names : List String := []
  classReflection : List (String × String) := []
  deriving DecidableEq, Repr

namespace Chunk

section
variable {V : Type} (chunk : Chunk V)

/-- The walk up the base classes, cut off after `guard` steps. -/
def baseWalk (parent : String) : Nat → String → Bool
  | 0, _ => false
  | guard + 1, child =>
    match chunk.classReflection.lookup child with
    | none => false
    | some base =>
      if base = "" then false
      else if base = parent then true
      else baseWalk parent guard base

def isSubclass (child parent : String) : Bool :=
  child == parent || chunk.baseWalk parent 1024 child

/-- The class a `PushHandler` names: none for the untyped catch, and nothing for a name index out
    of bounds. -/
def catchClassName (instr : Instruction) : Option String :=
  if instr.operand2 = 0 then some "" else chunk.names[instr.operand2 - 1]?

end

end Chunk

/-- A thrown object as dispatch sees it: its class, the value that denotes it, and the message an
    untyped catch binds. -/
structure Thrown (V : Type) where
  className : String
  object : V
  message : V
  deriving DecidableEq, Repr

end zl.vm
