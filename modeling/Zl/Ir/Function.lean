import Mathlib.Data.Nat.Basic

namespace zl.ir

inductive OwnershipKind where
  | gc
  | owned
  | borrow
  | shared
  deriving DecidableEq, Repr

inductive Opcode where
  | nop
  | const
  | loadLocal
  | storeLocal
  | defineLocal
  | assignLocal
  | moveLocal
  | borrowLocal
  | endBorrow
  | dropLocal
  | unary
  | binary
  | call
  | return
  | jump
  | branch
  | throw
  deriving DecidableEq, Repr

/-- A value or a local of a function; 0 stands for none. -/
abbrev ValueId := Nat

abbrev BlockId := Nat

structure Instruction where
  opcode : Opcode := .nop
  result : ValueId := 0
  operand0 : ValueId := 0
  operand1 : ValueId := 0
  symbol : String := ""
  ownership : OwnershipKind := .gc
  operands : List ValueId := []
  deriving DecidableEq, Repr

structure BasicBlock where
  id : BlockId := 0
  instructions : List Instruction
  successors : List BlockId := []
  deriving DecidableEq, Repr

structure Function where
  name : String
  returnType : String
  parameterTypes : List String
  blocks : List BasicBlock
  isAsync : Bool := false
  deriving DecidableEq, Repr

structure Module where
  functions : List Function

end zl.ir
