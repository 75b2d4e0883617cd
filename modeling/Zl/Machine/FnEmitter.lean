import Mathlib.Tactic.IntervalCases
import Zl.X64.Execute
import Mathlib.Data.Finset.Basic
import Zl.Ir.Function

namespace zl.TokenType

def plus : Nat := 70
def minus : Nat := 71
def star : Nat := 72

end zl.TokenType

namespace zl.machine

open x64

def u32 (v : Nat) : List Byte := lowBytes 4 v

def u64 (v : Nat) : List Byte := lowBytes 8 v

def pushRbp : List Byte := [0x55]

def movRbpRsp : List Byte := [0x48, 0x89, 0xe5]

def popRbp : List Byte := [0x5d]

def ret : List Byte := [0xc3]

def subRsp (n : Nat) : List Byte :=
  if n = 0 then []
  else if n ≤ 127 then [0x48, 0x83, 0xec, BitVec.ofNat 8 n]
  else [0x48, 0x81, 0xec] ++ u32 n

def addRsp (n : Nat) : List Byte :=
  if n = 0 then []
  else if n ≤ 127 then [0x48, 0x83, 0xc4, BitVec.ofNat 8 n]
  else [0x48, 0x81, 0xc4] ++ u32 n

def movR64Imm64 (reg : Nat) (value : Word) : List Byte :=
  [0x48 ||| BitVec.ofNat 8 ((reg >>> 3) &&& 1), BitVec.ofNat 8 (0xb8 + (reg &&& 7))] ++ u64 value.toNat

/-- mov r64, [rbp+disp8] -/
def movR64Frame8 (reg : Nat) (disp : Byte) : List Byte :=
  [0x48 ||| BitVec.ofNat 8 ((reg >>> 3) &&& 1), 0x8b, 0x45 ||| BitVec.ofNat 8 ((reg &&& 7) <<< 3), disp]

/-- mov [rbp+disp8], r64 -/
def movFrame8R64 (disp : Byte) (reg : Nat) : List Byte :=
  [0x48 ||| BitVec.ofNat 8 ((reg >>> 3) &&& 1), 0x89, 0x45 ||| BitVec.ofNat 8 ((reg &&& 7) <<< 3), disp]

def addRaxRcx : List Byte := [0x48, 0x01, 0xc8]

def subRaxRcx : List Byte := [0x48, 0x29, 0xc8]

def imulRaxRcx : List Byte := [0x48, 0x0f, 0xaf, 0xc1]

def negRax : List Byte := [0x48, 0xf7, 0xd8]

/-- The cell of the frame at a displacement from rbp. -/
def frameCell (disp : Byte) : Place := .memory rbp (disp.signExtend 64)

/-- The cell that the frame forms name: the bit that should extend the register field of the
    ModRM byte extends its base field, so that a high register turns the base rbp into r13. -/
def encodedCell (disp : Byte) (reg : Nat) : Place :=
  .memory (extended (8 ≤ reg) 5) (disp.signExtend 64)

theorem encodedCell_of_lt (disp : Byte) {reg : Nat} (hreg : reg < 8) :
    encodedCell disp reg = frameCell disp := by
  unfold encodedCell frameCell
  rw [decide_eq_false (by omega)]
  rfl

theorem assembles_pushRbp : Assembles pushRbp [.push rbp] := .single fun _ => rfl

theorem assembles_movRbpRsp : Assembles movRbpRsp [.store (.register rbp) rsp] := .single fun _ => rfl

theorem assembles_popRbp : Assembles popRbp [.pop rbp] := .single fun _ => rfl

theorem assembles_ret : Assembles ret [.ret] := .single fun _ => rfl

theorem assembles_addRaxRcx : Assembles addRaxRcx [.arithmetic .add (.register rax) rcx] :=
  .single fun _ => rfl

theorem assembles_subRaxRcx : Assembles subRaxRcx [.arithmetic .sub (.register rax) rcx] :=
  .single fun _ => rfl

theorem assembles_imulRaxRcx : Assembles imulRaxRcx [.multiply rax (.register rcx)] :=
  .single fun _ => rfl

theorem assembles_negRax : Assembles negRax [.negate (.register rax)] := .single fun _ => rfl

theorem assembles_movFrame8R64 (disp : Byte) {reg : Nat} (hreg : reg < 16) :
    Assembles (movFrame8R64 disp reg) [.store (encodedCell disp reg) (extended false reg)] := by
  refine .single fun rest => ?_
  interval_cases reg <;> rfl

theorem assembles_movR64Frame8 (disp : Byte) {reg : Nat} (hreg : reg < 16) :
    Assembles (movR64Frame8 reg disp) [.load (extended false reg) (encodedCell disp reg)] := by
  refine .single fun rest => ?_
  interval_cases reg <;> rfl

theorem signExtend_ofNat {w n : Nat} (hw : w + 1 ≤ 64) (hn : n < 2 ^ w) :
    (BitVec.ofNat (w + 1) n).signExtend 64 = BitVec.ofNat 64 n := by
  have hpow : 2 ^ (w + 1) = 2 * 2 ^ w := Nat.pow_succ'
  have hle : 2 ^ (w + 1) ≤ 2 ^ 64 := Nat.pow_le_pow_right (by omega) hw
  have htoNat : (BitVec.ofNat (w + 1) n).toNat = n := by
    rw [BitVec.toNat_ofNat, Nat.mod_eq_of_lt (by omega)]
  have hmsb : (BitVec.ofNat (w + 1) n).msb = false := by
    rw [BitVec.msb_eq_false_iff_two_mul_lt, htoNat]
    omega
  rw [BitVec.signExtend_eq_setWidth_of_msb_false hmsb]
  refine BitVec.eq_of_toNat_eq ?_
  rw [BitVec.toNat_setWidth, htoNat, BitVec.toNat_ofNat]

theorem assembles_movR64Imm64 (value : Word) :
    Assembles (movR64Imm64 0 value) [.loadImmediate rax value] := by
  refine .single fun rest => ?_
  have hvalue : littleEndian (u64 value.toNat) = value.toNat := by
    rw [u64, littleEndian_lowBytes]
    exact Nat.mod_eq_of_lt value.isLt
  have hlength : (u64 value.toNat).length = 8 := length_lowBytes 8 _
  generalize hbytes : u64 value.toNat = bytes at hvalue hlength
  match bytes, hlength with
  | [b0, b1, b2, b3, b4, b5, b6, b7], _ =>
    have hdecode : decode (movR64Imm64 0 value ++ rest) =
        some (.loadImmediate rax (BitVec.ofNat 64 (littleEndian [b0, b1, b2, b3, b4, b5, b6, b7])),
        10) := by
      rw [movR64Imm64, hbytes]
      rfl
    rw [hdecode, hvalue, BitVec.ofNat_toNat, BitVec.setWidth_eq, movR64Imm64, hbytes]
    rfl

/-- Moving the stack pointer by a number of bytes. -/
def adjustRsp (op : ArithmeticOp) (n : Nat) : List Instruction :=
  if n = 0 then [] else [.arithmeticImmediate op (.register rsp) (BitVec.ofNat 64 n)]

theorem ret_notMem_adjustRsp (op : ArithmeticOp) (n : Nat) : .ret ∉ adjustRsp op n := by
  unfold adjustRsp
  split <;> simp

theorem signExtend_u32 {n : Nat} (hn : n < 2 ^ 31) :
    (BitVec.ofNat 32 (littleEndian (u32 n))).signExtend 64 = BitVec.ofNat 64 n := by
  rw [u32, littleEndian_lowBytes, Nat.mod_eq_of_lt (by omega)]
  exact signExtend_ofNat (by omega) hn

theorem assembles_subRsp {n : Nat} (hn : n < 2 ^ 31) : Assembles (subRsp n) (adjustRsp .sub n) := by
  unfold subRsp adjustRsp
  split
  · exact .nil
  · split
    · next hsmall =>
      rw [← signExtend_ofNat (w := 7) (by omega) (by omega)]
      exact .single fun _ => rfl
    · rw [← signExtend_u32 hn]
      have hlength : (u32 n).length = 4 := length_lowBytes 4 _
      generalize u32 n = bytes at hlength
      match bytes, hlength with
      | [b0, b1, b2, b3], _ => exact .single fun _ => rfl

theorem assembles_addRsp {n : Nat} (hn : n < 2 ^ 31) : Assembles (addRsp n) (adjustRsp .add n) := by
  unfold addRsp adjustRsp
  split
  · exact .nil
  · split
    · next hsmall =>
      rw [← signExtend_ofNat (w := 7) (by omega) (by omega)]
      exact .single fun _ => rfl
    · rw [← signExtend_u32 hn]
      have hlength : (u32 n).length = 4 := length_lowBytes 4 _
      generalize u32 n = bytes at hlength
      match bytes, hlength with
      | [b0, b1, b2, b3], _ => exact .single fun _ => rfl

/-- The two calling conventions that the preprocessor chooses between. -/
inductive Platform where
  | win32
  | systemV
  deriving DecidableEq

def Platform.argRegs : Platform → List Nat
  | .win32 => [1, 2, 8, 9]
  | .systemV => [7, 6, 2, 1, 8, 9]

/-- The order an unordered set is visited in: each element once, in no promised order. -/
structure IterationOrder where
  visit : Finset ir.ValueId → List ir.ValueId
  nodup (ids : Finset ir.ValueId) : (visit ids).Nodup
  mem_visit (ids : Finset ir.ValueId) (id : ir.ValueId) : id ∈ visit ids ↔ id ∈ ids

def digitsValue (digits : List Char) : Option Nat :=
  if digits ≠ [] ∧ digits.all Char.isDigit then
    some (digits.foldl (fun n c => 10 * n + (c.toNat - '0'.toNat)) 0)
  else none

/-- Reading a whole text as a decimal number of 64 bits, with no sign but a minus. -/
def parseInt64 (text : String) : Option Int :=
  match text.toList with
  | '-' :: digits => (digitsValue digits).bind fun n => if n ≤ 2 ^ 63 then some (-(n : Int)) else none
  | digits => (digitsValue digits).bind fun n => if n < 2 ^ 63 then some (n : Int) else none

def isInt (t : String) : Bool := t = "int" || t = "i64"

def supportedOwnership (k : ir.OwnershipKind) : Bool := k = .gc

def fail {α : Type} (fn : ir.Function) (msg : String) : Except String α := .error (fn.name ++ ": " ++ msg)

def validateType (fn : ir.Function) : Except String Unit :=
  if ¬ isInt fn.returnType then fail fn "machine backend currently supports only int returns"
  else if ¬ fn.parameterTypes.all isInt then
    fail fn "machine backend currently supports only int parameters"
  else if fn.isAsync then
    fail fn "async functions are not supported by the synchronous machine backend"
  else .ok ()

abbrev Slots := List (ir.ValueId × Byte)

def usedIds (fn : ir.Function) : Finset ir.ValueId :=
  (fn.blocks.flatMap fun b => b.instructions.flatMap fun ins =>
    (ins.result :: ins.operand0 :: ins.operand1 :: ins.operands).filter (· ≠ 0)).toFinset

def assignSlots (fn : ir.Function) : Nat → List ir.ValueId → Except String (Slots × Nat)
  | i, [] => .ok ([], i)
  | i, id :: ids =>
    let off := 8 * (i + 1)
    if off > 120 then fail fn "function needs more than 15 machine-code frame slots"
    else do
      let (slots, count) ← assignSlots fn (i + 1) ids
      .ok ((id, BitVec.ofInt 8 (-off)) :: slots, count)

/-- The slots of the values and the size of the frame. -/
def collectSlots (order : IterationOrder) (fn : ir.Function) : Except String (Slots × Nat) := do
  let (slots, i) ← assignSlots fn 0 (order.visit (usedIds fn))
  .ok (slots, (i * 8 + 15) / 16 * 16)

def slot (fn : ir.Function) (slots : Slots) (id : ir.ValueId) : Except String Byte :=
  match slots.lookup id with
  | none => fail fn ("instruction references unknown value " ++ toString id)
  | some off => .ok off

def emitLoad (fn : ir.Function) (slots : Slots) (id : ir.ValueId) (reg : Nat) :
    Except String (List Byte) := do
  let off ← slot fn slots id
  .ok (movR64Frame8 reg off)

def emitStore (fn : ir.Function) (slots : Slots) (id : ir.ValueId) (reg : Nat) :
    Except String (List Byte) := do
  let off ← slot fn slots id
  .ok (movFrame8R64 off reg)

def binaryOperation (fn : ir.Function) (symbol : String) : Except String (List Byte) :=
  if symbol = toString TokenType.plus then .ok addRaxRcx
  else if symbol = toString TokenType.minus then .ok subRaxRcx
  else if symbol = toString TokenType.star then .ok imulRaxRcx
  else fail fn ("unsupported binary operator '" ++ symbol ++ "'")

def emitBinary (fn : ir.Function) (slots : Slots) (ins : ir.Instruction) : Except String (List Byte) := do
  let left ← emitLoad fn slots ins.operand0 0
  let right ← emitLoad fn slots ins.operand1 1
  let operation ← binaryOperation fn ins.symbol
  let store ← emitStore fn slots ins.result 0
  .ok (left ++ right ++ operation ++ store)

/-- What the loop over the instructions has emitted so far. -/
structure Emitted where
  code : List Byte
  parameterIndex : Nat := 0
  terminated : Bool := false

def Emitted.append (e : Emitted) (bytes : List Byte) : Emitted := { e with code := e.code ++ bytes }

def emitCopy (fn : ir.Function) (slots : Slots) (e : Emitted) (ins : ir.Instruction) :
    Except String Emitted := do
  let load ← emitLoad fn slots ins.operand0 0
  let store ← emitStore fn slots ins.result 0
  .ok (e.append (load ++ store))

def emitDefine (platform : Platform) (fn : ir.Function) (slots : Slots) (e : Emitted)
    (ins : ir.Instruction) :
    Except String Emitted :=
  if ¬ supportedOwnership ins.ownership then
    fail fn "ownership mode is not supported in this machine-code slice"
  else if e.parameterIndex < fn.parameterTypes.length then
    match platform.argRegs[e.parameterIndex]? with
    | none => fail fn "too many parameters for current ABI slice"
    | some reg => do
      let off ← slot fn slots ins.result
      .ok { e.append (movFrame8R64 off reg) with parameterIndex := e.parameterIndex + 1 }
  else if ins.operand0 ≠ 0 then emitCopy fn slots e ins
  else .ok e

def emitResult (fn : ir.Function) (slots : Slots) (ins : ir.Instruction) : Except String (List Byte) :=
  if ins.operand0 ≠ 0 then emitLoad fn slots ins.operand0 0 else .ok []

def emitInstruction (platform : Platform) (fn : ir.Function) (slots : Slots) (frameSize : Nat)
    (e : Emitted) (ins : ir.Instruction) : Except String Emitted :=
  if e.terminated then fail fn "instructions appear after a terminating Return"
  else
    match ins.opcode with
    | .const =>
      match parseInt64 ins.symbol with
      | none => fail fn ("invalid integer constant '" ++ ins.symbol ++ "'")
      | some value => do
        let store ← emitStore fn slots ins.result 0
        .ok (e.append (movR64Imm64 0 (BitVec.ofInt 64 value) ++ store))
    | .defineLocal => emitDefine platform fn slots e ins
    | .loadLocal => emitCopy fn slots e ins
    | .assignLocal => emitCopy fn slots e ins
    | .unary =>
      if ins.symbol ≠ toString TokenType.minus then
        fail fn ("unsupported unary operator '" ++ ins.symbol ++ "'")
      else do
        let load ← emitLoad fn slots ins.operand0 0
        let store ← emitStore fn slots ins.result 0
        .ok (e.append (load ++ negRax ++ store))
    | .binary => do
      let bytes ← emitBinary fn slots ins
      .ok (e.append bytes)
    | .return => do
      let load ← emitResult fn slots ins
      .ok { e.append (load ++ addRsp frameSize ++ popRbp ++ ret) with terminated := true }
    | .nop => .ok e
    | _ => fail fn "unsupported MIR opcode in straight-line machine backend"

/-- The bytes of a function and the size of its frame. -/
def emit (platform : Platform) (order : IterationOrder) (fn : ir.Function) :
    Except String (List Byte × Nat) := do
  validateType fn
  let (slots, frameSize) ← collectSlots order fn
  match fn.blocks with
  | [block] =>
    let start : Emitted := { code := pushRbp ++ movRbpRsp ++ subRsp frameSize }
    let e ← block.instructions.foldlM (emitInstruction platform fn slots frameSize) start
    if ¬ e.terminated then fail fn "function does not end in Return" else .ok (e.code, frameSize)
  | _ => fail fn "control flow is not yet supported by the machine backend"

structure FunctionCode where
  name : String
  bytes : List Byte
  stackSize : Nat
  parameterCount : Nat

structure CompileResult where
  success : Bool := false
  functions : List FunctionCode := []
  error : String := ""

def emitFunctions (platform : Platform) (order : IterationOrder) :
    CompileResult → List ir.Function → CompileResult
  | out, [] => { out with success := true }
  | out, fn :: fns =>
    match emit platform order fn with
    | .error error => { out with error }
    | .ok (bytes, stackSize) =>
      let code : FunctionCode :=
        { name := fn.name, bytes, stackSize, parameterCount := fn.parameterTypes.length }
      emitFunctions platform order { out with functions := out.functions ++ [code] } fns

def emitX64 (platform : Platform) (order : IterationOrder) (module : ir.Module) : CompileResult :=
  emitFunctions platform order {} module.functions

end zl.machine
