import Zl.Mir.Effects
import Zl.Vm.Ordering

open zl.ieee zl.vm zl.vm.value

namespace zl.mir

/-- The types that a module interns, and the ids of those the language names itself. -/
structure TypeTable where
  find : TypeId → Option MirType
  isNullable : TypeId → Bool
  boolType : TypeId
  intType : TypeId
  doubleType : TypeId
  stringType : TypeId

namespace Constant

/-- The payloads of a constant, as the fields of the source hold them. -/
def int (c : Constant) : Int64 := .ofInt c.intValue

def double (c : Constant) : Binary64 := .ofBits c.doubleBits

end Constant

def addChecked (a b : Int64) : Option Int64 := representable (a.toInt + b.toInt)

def subChecked (a b : Int64) : Option Int64 := representable (a.toInt - b.toInt)

def mulChecked (a b : Int64) : Option Int64 := representable (a.toInt * b.toInt)

/-- The rest of an exponentiation: what is multiplied up so far, and the factor for the lowest bit
    of `n`. -/
def powChecked (result factor : Int64) (n : Nat) : Option Int64 :=
  if n = 0 then some result
  else do
    let result ← if n % 2 = 1 then mulChecked result factor else some result
    if n / 2 = 0 then some result
    else powChecked result (← mulChecked factor factor) (n / 2)
termination_by n

def makeInt (value : Int64) : Constant := { kind := .Int, intValue := value.toInt }

def makeDouble (value : Binary64) : Constant := { kind := .Double, doubleBits := value.toBits }

def makeBool (value : Bool) : Constant := { kind := .Bool, boolValue := value }

/-- A result that is not finite raises when the program runs. -/
def makeFinite (value : Binary64) : Option Constant :=
  if value.isFinite then some (makeDouble value) else none

def isNumericKind (kind : ConstKind) : Bool := kind == .Int || kind == .Double

/-- A number as the ordered comparisons take it: a double. -/
def asDouble (c : Constant) : Binary64 := if c.kind = .Double then c.double else .ofInt c.int.toInt

def constantOperand (module : Module) (operand : Operand) : Option Constant :=
  if operand.kind = .Const then module.constant operand.index else none

section
variable (types : TypeTable)

def constantTypeOf (constant : Constant) : TypeId :=
  match constant.kind with
  | .Bool => types.boolType
  | .Int => types.intType
  | .Double => types.doubleType
  | .String => types.stringType
  | .Nil | .EnumMember => 0

def constantMatchesType (constant : Constant) (type : TypeId) : Bool :=
  if type = 0 then false
  else if constantTypeOf types constant ≠ 0 then constantTypeOf types constant = type
  else match constant.kind with
    | .Nil => types.isNullable type
    | .EnumMember => (types.find type).any fun declared =>
        declared.kind == .Object && declared.name == constant.enumTypeName
    | _ => false

end

def foldUnary (op : Opcode) (a : Constant) : Option Constant :=
  match op, a.kind with
  | .Neg, .Int => if a.int = .minValue then none else some (makeInt (-a.int))
  | .Neg, .Double => some (makeDouble a.double.neg)
  | .BitNot, .Int => some (makeInt (~~~a.int))
  | .Not, .Bool => some (makeBool !a.boolValue)
  | .Widen, .Int => some (makeDouble (.ofInt a.int.toInt))
  | _, _ => none

/-- The operators of two integers that give an integer. -/
def foldInteger (op : Opcode) (a b : Int64) : Option Int64 :=
  match op with
  | .Add => addChecked a b
  | .Sub => subChecked a b
  | .Mul => mulChecked a b
  | .Div => if b = 0 then none else if a = .minValue ∧ b = -1 then none else some (a / b)
  | .Mod => if b = 0 then none else if a = .minValue ∧ b = -1 then some 0 else some (a % b)
  | .Pow => if b < 0 then none else powChecked 1 a b.toInt.toNat
  | .BitAnd => some (a &&& b)
  | .BitOr => some (a ||| b)
  | .BitXor => some (a ^^^ b)
  | .Shl => if b < 0 ∨ 64 ≤ b then none else some (a.toUInt64 <<< b.toUInt64).toInt64
  | .Shr => if b < 0 ∨ 64 ≤ b then none else some (shiftRightArithmetic a b)
  | .Ushr => if b < 0 ∨ 64 ≤ b then none else some (a.toUInt64 >>> b.toUInt64).toInt64
  | _ => none

def foldDouble (library : Library) (op : Opcode) (a b : Binary64) : Option Constant :=
  match op with
  | .Add => makeFinite (a.add b)
  | .Sub => makeFinite (a.sub b)
  | .Mul => makeFinite (a.mul b)
  | .Div => if b.beq .zero then none else makeFinite (a.div b)
  | .Mod => if b.beq .zero then none else some (makeDouble (a.fmod b))
  | .Pow => makeFinite (library.pow a b)
  | _ => none

/-- Equality, of constants of one kind or of two numbers. -/
def foldEqual (a b : Constant) : Option Bool :=
  match a.kind, b.kind with
  | .Int, .Int => some (a.int = b.int)
  | .Bool, .Bool => some (a.boolValue = b.boolValue)
  | .String, .String => some (a.stringValue = b.stringValue)
  | .Nil, .Nil => some true
  | .Int, .Double | .Double, .Int | .Double, .Double =>
    some (if (asDouble a).isNaN || (asDouble b).isNaN then false else (asDouble a).beq (asDouble b))
  | _, _ => none

def foldOrdered (op : Opcode) (x y : Binary64) : Bool :=
  if x.isNaN || y.isNaN then false
  else match op with
    | .Lt => x.lt y
    | .Le => x.le y
    | .Gt => y.lt x
    | _ => y.le x

def foldBinary (library : Library) (op : Opcode) (a b : Constant) : Option Constant :=
  match op with
  | .Add | .Sub | .Mul | .Div | .Mod | .Pow | .BitAnd | .BitOr | .BitXor | .Shl | .Shr | .Ushr =>
    match a.kind, b.kind with
    | .Int, .Int => (foldInteger op a.int b.int).map makeInt
    | .Double, .Double => foldDouble library op a.double b.double
    | .String, .String => if op = .Add then some
        { kind := .String, stringValue := a.stringValue ++ b.stringValue } else none
    | _, _ => none
  | .And => if a.kind = .Bool ∧ b.kind = .Bool then some (makeBool (a.boolValue && b.boolValue)) else none
  | .Or => if a.kind = .Bool ∧ b.kind = .Bool then some (makeBool (a.boolValue || b.boolValue)) else none
  | .Eq => (foldEqual a b).map makeBool
  | .Ne => (foldEqual a b).map fun equal => makeBool !equal
  | .Lt | .Le | .Gt | .Ge =>
    if isNumericKind a.kind && isNumericKind b.kind then some
      (makeBool (foldOrdered op (asDouble a) (asDouble b))) else none
  | _ => none

def foldInstruction (types : TypeTable) (library : Library) (module : Module)
    (instruction : Instruction) : Option Constant :=
  let typed (value : Constant) :=
    if constantMatchesType types value instruction.resultType then some value else none
  if .Pure ∉ classifyOpcode instruction.opcode then none
  else if instruction.result = kNoTemp then none
  else match instruction.operands with
    | [left] => do
      let a ← constantOperand module left
      typed (← foldUnary instruction.opcode a)
    | [left, right] => do
      let a ← constantOperand module left
      let b ← constantOperand module right
      typed (← foldBinary library instruction.opcode a b)
    | _ => none

/-- The bytes of a text. -/
def textBytes (text : String) : List UInt8 := text.toByteArray.data.toList

/-- The value that a constant is in the constants of a program. -/
def constantValue (c : Constant) : gc.Value :=
  match c.kind with
  | .Nil => .nil
  | .Bool => .bool c.boolValue
  | .Int => .int c.int
  | .Double => .double c.doubleBits
  | .String | .EnumMember => .string (textBytes c.stringValue)

def vmBinaryOp : Opcode → Option OpCode
  | .Add => some .Add | .Sub => some .Sub | .Mul => some .Mul | .Div => some .Div | .Mod =>
      some .Mod | .Pow => some .Pow
  | .BitAnd => some .BitAnd | .BitOr => some .BitOr | .BitXor => some .BitXor | .Shl =>
      some .Shl | .Shr => some .Shr | .Ushr => some .Ushr
  | .Eq => some .Eq | .Ne => some .Neq | .Lt => some .Lt | .Le => some .Lte | .Gt =>
      some .Gt | .Ge => some .Gte
  | .And => some .And | .Or => some .Or
  | _ => none

def vmUnaryOp : Opcode → Option OpCode
  | .Neg => some .Neg | .Not => some .Not | .BitNot => some .BitNot
  | _ => none

/-- How the machine executes a binary operator. -/
def executeBinary (library : Library) (memory : Memory) (op : OpCode) (a b : gc.Value) :
    Except VmError gc.Value :=
  match op with
  | .BitAnd | .BitOr | .BitXor | .Shl | .Shr | .Ushr => binaryBitwise op a b
  | .Eq | .Neq | .Lt | .Gt | .Lte | .Gte => binaryCompare memory op a b
  | .And | .Or => .ok (binaryLogical memory op a b)
  | _ => binaryArith library op a b

/-- What the code of an operator does with the values of its operands. A widening has no code, its
    operand passes through. -/
def executeOperator (library : Library) (memory : Memory) (op : Opcode) : List gc.Value →
    Option (Except VmError gc.Value)
  | [a] => if op = .Widen then some (.ok a) else (vmUnaryOp op).map fun vmOp => unary memory vmOp a
  | [a, b] => (vmBinaryOp op).map fun vmOp => executeBinary library memory vmOp a b
  | _ => none

/-- The number that a value is once it is a double. -/
def roundedUnits : gc.Value → Int
  | .int held => (Binary64.ofInt held.toInt).exact
  | .double bits => (Binary64.ofBits bits).exact
  | _ => 0

/-- Two numbers in order that are one double. -/
def Collapsed (a b : gc.Value) : Prop :=
  isNaNValue a = false ∧ isNaNValue b = false ∧ exactUnits a < exactUnits b ∧
    roundedUnits a = roundedUnits b

def isDouble : gc.Value → Bool
  | .double _ => true
  | _ => false

/-- A NaN that the machine takes for equal to another double, or for less than an integer. -/
def NaNEqual (a b : gc.Value) : Prop :=
  isDouble a = true ∧ isDouble b = true ∧ (isNaNValue a = true ∨ isNaNValue b = true)

def NaNLess (a b : gc.Value) : Prop := isNaNValue a = true ∧ isInteger b = true

/-- When the folded value is the one the machine computes. -/
def FoldsExactly (op : Opcode) : List gc.Value → Prop
  | [_] => op ≠ .Widen
  | [a, b] => match op with
    | .Eq | .Ne => (isInteger a && isInteger b) = false → ¬Collapsed a b ∧ ¬Collapsed b a
    | .Lt => ¬Collapsed a b ∧ ¬NaNLess a b
    | .Ge => ¬Collapsed a b ∧ ¬NaNEqual a b
    | .Gt => ¬Collapsed b a
    | .Le => ¬Collapsed b a ∧ ¬NaNLess a b ∧ ¬NaNEqual a b
    | _ => True
  | _ => True

section
variable {library : Library} {memory : Memory} {a b c : Constant} {op : Opcode}

theorem powChecked_eq (n : Nat) (result factor : Int64) :
    powChecked result factor n = value.powChecked result factor n := by
  induction n using Nat.strong_induction_on generalizing result factor with
  | _ n ih =>
    rw [powChecked, value.powChecked]
    by_cases hn : n = 0
    · rw [if_pos hn, if_pos hn]
    · have hstep (result factor : Int64) := ih (n / 2) (by omega) result factor
      rw [if_neg hn, if_neg hn]
      simp only [hstep, mulChecked]
      rfl

@[simp]
theorem int_makeInt (n : Int64) : (makeInt n).int = n := Int64.ofInt_toInt n

theorem constantValue_makeInt (n : Int64) : constantValue (makeInt n) = .int n :=
  congrArg gc.Value.int (int_makeInt n)

theorem constantValue_makeBool (x : Bool) : constantValue (makeBool x) = .bool x := rfl

theorem constantValue_int (h : a.kind = .Int) : constantValue a = .int a.int := by rw [constantValue, h]

theorem constantValue_double (h : a.kind = .Double) : constantValue a = .double a.doubleBits := by
  rw [constantValue, h]

theorem constantValue_bool (h : a.kind = .Bool) : constantValue a = .bool a.boolValue := by
  rw [constantValue, h]

theorem constantValue_string (h : a.kind = .String) :
    constantValue a = .string (textBytes a.stringValue) := by rw [constantValue, h]

theorem textBytes_append (s t : String) : textBytes (s ++ t) = textBytes s ++ textBytes t := by
  rw [textBytes, String.toByteArray_append, ByteArray.data_append, Array.toList_append]
  rfl

theorem textBytes_inj {s t : String} : textBytes s = textBytes t ↔ s = t := by
  refine ⟨fun h => String.toByteArray_inj.mp (ByteArray.ext (Array.toList_inj.mp h)), congrArg _⟩

theorem checkedInteger_eq {n : Int} {held : Int64} (operation : String) (h : representable n = some held) :
    checkedInteger n operation = .ok (.int held) := by
  rw [checkedInteger, h]

theorem checkedDoubleResult_eq {x : Binary64} (operation : String) (h : makeFinite x = some c) :
    checkedDoubleResult x operation = .ok (constantValue c) := by
  unfold makeFinite at h
  split at h
  next hfinite =>
    obtain ⟨hnan, hinf⟩ := Binary64.isFinite_iff.mp hfinite
    rw [checkedDoubleResult, hinf, hnan, ← Option.some.inj h]
    rfl
  next => nomatch h

theorem shift_eq {f : Int64 → Int64 → Int64} {x y r : Int64}
    (h : (if y < 0 ∨ 64 ≤ y then none else some (f x y)) = some r) :
    shift f x y = .ok (.int r) := by
  unfold shift
  split at h
  · nomatch h
  next hrange => rw [if_neg hrange, Option.some.inj h]

theorem executeBinary_integer {x y r : Int64} (h : foldInteger op x y = some r) :
    ∃ vmOp, vmBinaryOp op = some vmOp ∧
      executeBinary library memory vmOp (.int x) (.int y) = .ok (.int r) := by
  cases op <;> simp only [foldInteger, reduceCtorEq] at h
  case Add => exact ⟨.Add, rfl, checkedInteger_eq _ h⟩
  case Sub => exact ⟨.Sub, rfl, checkedInteger_eq _ h⟩
  case Mul => exact ⟨.Mul, rfl, checkedInteger_eq _ h⟩
  case Div =>
    refine ⟨.Div, rfl, ?_⟩
    change (if y = 0 then _ else if x = .minValue ∧
      y = -1 then _ else Except.ok (gc.Value.int (x / y))) = _
    split at h
    · nomatch h
    next hzero =>
      split at h
      · nomatch h
      next hmin => rw [if_neg hzero, if_neg hmin, Option.some.inj h]
  case Mod =>
    refine ⟨.Mod, rfl, ?_⟩
    change (if y = 0 then _ else if x = .minValue ∧
      y = -1 then _ else Except.ok (gc.Value.int (x % y))) = _
    split at h
    · nomatch h
    next hzero =>
      split at h
      next hmin => rw [if_neg hzero, if_pos hmin, Option.some.inj h]
      next hmin => rw [if_neg hzero, if_neg hmin, Option.some.inj h]
  case Pow =>
    refine ⟨.Pow, rfl, ?_⟩
    change powArith library (.int x) (.int y) = _
    rw [powArith]
    split at h
    · nomatch h
    next hneg => rw [if_pos (Int64.not_lt.mp hneg), ← powChecked_eq, h]
  case BitAnd => exact ⟨.BitAnd, rfl, congrArg (fun r => Except.ok (gc.Value.int r)) (Option.some.inj h)⟩
  case BitOr => exact ⟨.BitOr, rfl, congrArg (fun r => Except.ok (gc.Value.int r)) (Option.some.inj h)⟩
  case BitXor => exact ⟨.BitXor, rfl, congrArg (fun r => Except.ok (gc.Value.int r)) (Option.some.inj h)⟩
  case Shl => exact ⟨.Shl, rfl, @shift_eq (fun x y => (x.toUInt64 <<< y.toUInt64).toInt64) x y r h⟩
  case Shr => exact ⟨.Shr, rfl, shift_eq h⟩
  case Ushr => exact ⟨.Ushr, rfl, @shift_eq (fun x y => (x.toUInt64 >>> y.toUInt64).toInt64) x y r h⟩

theorem executeBinary_double {x y : Nat} (h : foldDouble library op (.ofBits x) (.ofBits y) = some c) :
    ∃ vmOp, vmBinaryOp op = some vmOp ∧
      executeBinary library memory vmOp (.double x) (.double y) = .ok (constantValue c) := by
  cases op <;> simp only [foldDouble, reduceCtorEq] at h
  case Add => exact ⟨.Add, rfl, checkedDoubleResult_eq "addition" h⟩
  case Sub => exact ⟨.Sub, rfl, checkedDoubleResult_eq "subtraction" h⟩
  case Mul => exact ⟨.Mul, rfl, checkedDoubleResult_eq "multiplication" h⟩
  case Div =>
    refine ⟨.Div, rfl, ?_⟩
    change (if (Binary64.ofBits y).beq .zero then _ else checkedDoubleResult _ "division") = _
    split at h
    · nomatch h
    next hzero => rw [if_neg hzero, checkedDoubleResult_eq "division" h]
  case Mod =>
    refine ⟨.Mod, rfl, ?_⟩
    change (if (Binary64.ofBits y).beq .zero then _ else Except.ok
      (gc.Value.double ((Binary64.ofBits x).fmod (.ofBits y)).toBits)) = _
    split at h
    · nomatch h
    next hzero =>
      rw [if_neg hzero, ← Option.some.inj h]
      rfl
  case Pow => exact ⟨.Pow, rfl, checkedDoubleResult_eq "exponentiation" h⟩

/-- Outside the comparisons and the connectives folding goes by the kinds of the operands. -/
theorem foldBinary_arithmetic
    (hop : op ∈ [.Add, .Sub, .Mul, .Div, .Mod, .Pow, .BitAnd, .BitOr, .BitXor, .Shl, .Shr,
      .Ushr, .And, .Or]) (hlogical : ¬(op = .And ∨ op = .Or)) :
    foldBinary library op a b = match a.kind, b.kind with
      | .Int, .Int => (foldInteger op a.int b.int).map makeInt
      | .Double, .Double => foldDouble library op a.double b.double
      | .String, .String => if op = .Add then some
          { kind := .String, stringValue := a.stringValue ++ b.stringValue } else none
      | _, _ => none := by
  simp only [List.mem_cons, List.not_mem_nil, or_false] at hop
  rcases hop with rfl | rfl | rfl | rfl | rfl | rfl | rfl | rfl | rfl | rfl | rfl | rfl | rfl | rfl <;>
    first | rfl | exact absurd (by simp) hlogical

/-- Outside the comparisons the machine computes what was folded. -/
theorem executeBinary_arithmetic
    (hop : op ∈ [.Add, .Sub, .Mul, .Div, .Mod, .Pow, .BitAnd, .BitOr, .BitXor, .Shl, .Shr,
      .Ushr, .And, .Or])
    (h : foldBinary library op a b = some c) :
    executeOperator library memory op [constantValue a, constantValue b] =
      some (.ok (constantValue c)) := by
  have hoperator {vmOp : OpCode} (hvm : vmBinaryOp op = some vmOp)
      (hexecute : executeBinary library memory vmOp (constantValue a) (constantValue b) =
        .ok (constantValue c)) :
      executeOperator library memory op [constantValue a, constantValue b] =
        some (.ok (constantValue c)) := by
    rw [executeOperator, hvm, Option.map_some, hexecute]
  by_cases hlogical : op = .And ∨ op = .Or
  · have hbool : a.kind = .Bool ∧ b.kind = .Bool := by
      rcases hlogical with rfl | rfl
      · exact (Option.ite_none_right_eq_some.mp h).1
      · exact (Option.ite_none_right_eq_some.mp h).1
    rw [constantValue_bool hbool.1, constantValue_bool hbool.2]
    rcases hlogical with rfl | rfl
    · rw [← Option.some.inj (Option.ite_none_right_eq_some.mp h).2]
      rfl
    · rw [← Option.some.inj (Option.ite_none_right_eq_some.mp h).2]
      rfl
  · rw [foldBinary_arithmetic hop hlogical] at h
    split at h
    next ha hb =>
      obtain ⟨r, hr, rfl⟩ := Option.map_eq_some_iff.mp h
      obtain ⟨vmOp, hvm, hexecute⟩ := @executeBinary_integer library memory op _ _ _ hr
      refine hoperator hvm ?_
      rw [constantValue_int ha, constantValue_int hb, hexecute, constantValue_makeInt]
    next ha hb =>
      obtain ⟨vmOp, hvm, hexecute⟩ := @executeBinary_double library memory c op _ _ h
      refine hoperator hvm ?_
      rw [constantValue_double ha, constantValue_double hb, hexecute]
    next ha hb =>
      split at h
      next hadd =>
        refine @hoperator .Add (by rw [hadd]; rfl) ?_
        rw [constantValue_string ha, constantValue_string hb, ← Option.some.inj h]
        change Except.ok (gc.Value.string (textBytes a.stringValue ++ textBytes b.stringValue)) = _
        rw [← textBytes_append]
        rfl
      next => cases h
    next => cases h

end

section
variable {library : Library} {memory : Memory} {a b c : Constant} {op : Opcode}

theorem isNumericKind_iff : isNumericKind a.kind = true ↔ a.kind = .Int ∨ a.kind = .Double := by
  simp [isNumericKind]

/-- A number and the double it is folded as. -/
theorem asDouble_spec (h : isNumericKind a.kind = true) : isNumericValue (constantValue a) = true ∧
    (asDouble a).isNaN = isNaNValue (constantValue a) ∧
    (asDouble a).exact = roundedUnits (constantValue a) := by
  rcases isNumericKind_iff.mp h with hkind | hkind
  · rw [constantValue_int hkind, asDouble, if_neg (by simp [hkind])]
    exact ⟨rfl, Binary64.isNaN_ofInt _, rfl⟩
  · rw [constantValue_double hkind, asDouble, if_pos hkind]
    exact ⟨rfl, rfl, rfl⟩

theorem roundedUnits_mono {v w : gc.Value} (hv : isNumericValue v = true)
    (hw : isNumericValue w = true) (hnan : isNaNValue v = false)
    (hnan' : isNaNValue w = false) (h : exactUnits v ≤ exactUnits w) :
    roundedUnits v ≤ roundedUnits w := by
  cases v with
  | int v =>
    cases w with
    | int w => exact Binary64.exact_ofInt_mono (Int.le_of_mul_le_mul_right h unit_pos')
    | double w => exact Binary64.exact_ofInt_le hnan' h
    | _ => nomatch hw
  | double v =>
    cases w with
    | int w => exact Binary64.le_exact_ofInt hnan h
    | double w => exact h
    | _ => nomatch hw
  | _ => nomatch hv

/-- Without a NaN the order of two doubles tells that of the numbers, but where they collapsed. -/
theorem rounded_order {v w : gc.Value} (hv : isNumericValue v = true) (hw : isNumericValue w = true)
    (hnan : isNaNValue v = false) (hnan' : isNaNValue w = false) :
    ((exactUnits v < exactUnits w ↔ roundedUnits v < roundedUnits w) ↔ ¬Collapsed v w) ∧
    ((exactUnits v = exactUnits w ↔ roundedUnits v = roundedUnits w) ↔ ¬Collapsed v w ∧
      ¬Collapsed w v) := by
  have hle := roundedUnits_mono hv hw hnan hnan'
  have hge := roundedUnits_mono hw hv hnan' hnan
  unfold Collapsed
  simp only [hnan, hnan', true_and]
  omega

theorem valuesEqual_plain {v w : gc.Value}
    (h : ∀ p q, ¬(v = .box .object (some p) ∧ w = .box .object (some q))) :
    valuesEqual memory v w = plainValuesEqual memory v w := by
  unfold valuesEqual
  split
  next p q => exact absurd ⟨rfl, rfl⟩ (h p q)
  next => rfl

theorem constantValue_ne_object (c : Constant) (p : gc.Address) :
    constantValue c ≠ .box .object (some p) := by
  unfold constantValue
  split <;> exact nofun

/-- Folded equality is the equality of the machine, but of numbers that collapsed. -/
theorem foldEqual_spec {equal : Bool} (h : foldEqual a b = some equal) : ∃ answer,
    valuesEqual memory (constantValue a) (constantValue b) = .ok answer ∧
      (answer = equal ↔ ((isInteger (constantValue a) && isInteger (constantValue b)) = false →
        ¬Collapsed (constantValue a) (constantValue b) ∧
        ¬Collapsed (constantValue b) (constantValue a))) := by
  rw [valuesEqual_plain fun p q h => constantValue_ne_object a p h.1]
  have hother {v w : gc.Value} (hnumeric : isNumericValue v = false) (hnative : ∀ r, v ≠ .native r)
    (hw : isNumericValue w = false) :
      plainValuesEqual memory v w = .ok (decide (v = w)) ∧ ¬Collapsed v w ∧ ¬Collapsed w v := by
    refine ⟨plainValuesEqual_other (by simp [hnumeric]) fun r _ hv => absurd hv (hnative r), ?_⟩
    have hzero {u : gc.Value} (hu : isNumericValue u = false) : exactUnits u = 0 := by
      cases u <;> first | rfl | cases hu
    rw [Collapsed, Collapsed, hzero hnumeric, hzero hw]
    omega
  have hnumbers (ha : isNumericKind a.kind = true) (hb : isNumericKind b.kind = true)
      (hmixed : (isInteger (constantValue a) && isInteger (constantValue b)) = false)
      (hequal : (if (asDouble a).isNaN || (asDouble b).isNaN then false else (asDouble a).beq
        (asDouble b)) = equal) :
      ∃ answer, plainValuesEqual memory (constantValue a) (constantValue b) = .ok answer ∧
        (answer = equal ↔ ((isInteger (constantValue a) && isInteger (constantValue b)) = false →
          ¬Collapsed (constantValue a) (constantValue b) ∧
          ¬Collapsed (constantValue b) (constantValue a))) := by
    obtain ⟨hnumeric, hnan, hexact⟩ := asDouble_spec ha
    obtain ⟨hnumeric', hnan', hexact'⟩ := asDouble_spec hb
    refine ⟨_, plainValuesEqual_numeric hnumeric hnumeric', ?_⟩
    rw [← hequal, Binary64.beq, hnan, hnan', hexact, hexact']
    cases hv : isNaNValue (constantValue a) with
    | true => simp [Collapsed, hv]
    | false =>
      cases hw : isNaNValue (constantValue b) with
      | true => simp [Collapsed, hw]
      | false => simpa [hmixed] using (rounded_order hnumeric hnumeric' hv hw).2
  unfold foldEqual at h
  split at h
  next ha hb =>
    rw [constantValue_int ha, constantValue_int hb]
    refine ⟨_, plainValuesEqual_numeric rfl rfl, ?_⟩
    have hunits : a.int.toInt * (unit : Int) = b.int.toInt * unit ↔ a.int = b.int := by
      rw [Int.mul_eq_mul_right_iff unit_pos'.ne', Int64.toInt_inj]
    simp [isInteger, isNaNValue, exactUnits, ← Option.some.inj h, hunits]
  next ha hb =>
    rw [constantValue_bool ha, constantValue_bool hb]
    obtain ⟨hanswer, hcollapsed⟩ :=
      @hother (.bool a.boolValue) (.bool b.boolValue) rfl (fun _ hv => by cases hv) rfl
    exact ⟨_, hanswer, iff_of_true (by simp [← Option.some.inj h]) fun _ => hcollapsed⟩
  next ha hb =>
    rw [constantValue_string ha, constantValue_string hb]
    obtain ⟨hanswer, hcollapsed⟩ :=
      @hother (.string (textBytes a.stringValue)) (.string (textBytes b.stringValue)) rfl
        (fun _ hv => by cases hv) rfl
    exact ⟨_, hanswer, iff_of_true (by simp [← Option.some.inj h, textBytes_inj]) fun _ => hcollapsed⟩
  next ha hb =>
    have hnil {u : Constant} (hu : u.kind = .Nil) : constantValue u = .nil := by rw [constantValue, hu]
    rw [hnil ha, hnil hb]
    obtain ⟨hanswer, hcollapsed⟩ := @hother .nil .nil rfl (fun _ hv => by cases hv) rfl
    exact ⟨_, hanswer, iff_of_true (by simp [← Option.some.inj h]) fun _ => hcollapsed⟩
  next ha hb =>
    exact hnumbers (by simp [isNumericKind, ha]) (by simp [isNumericKind, hb])
      (by simp [constantValue_double hb, isInteger]) (Option.some.inj h)
  next ha hb =>
    exact hnumbers (by simp [isNumericKind, ha]) (by simp [isNumericKind, hb])
      (by simp [constantValue_double ha, isInteger]) (Option.some.inj h)
  next ha hb =>
    exact hnumbers (by simp [isNumericKind, ha]) (by simp [isNumericKind, hb])
      (by simp [constantValue_double ha, isInteger]) (Option.some.inj h)
  next => cases h

theorem orderedResult_sign (e : Int) : orderedResult .Lt e.sign = .ok (.bool (e < 0)) ∧
    orderedResult .Gt e.sign = .ok (.bool (0 < e)) ∧
    orderedResult .Lte e.sign = .ok (.bool (e ≤ 0)) ∧
    orderedResult .Gte e.sign = .ok (.bool (0 ≤ e)) := by
  rcases Int.lt_trichotomy e 0 with h | rfl | h
  · rw [Int.sign_eq_neg_one_of_neg h]
    simp [orderedResult, h, h.le, not_lt_of_gt h]
  · exact ⟨rfl, rfl, rfl, rfl⟩
  · rw [Int.sign_eq_one_of_pos h]
    simp [orderedResult, h, h.le, not_lt_of_gt h]

theorem foldOrdered_eq {x y : Binary64} (hx : x.isNaN = false) (hy : y.isNaN = false) :
    foldOrdered .Lt x y = decide (x.exact < y.exact) ∧ foldOrdered .Gt x y = decide (y.exact < x.exact) ∧
      foldOrdered .Le x y = decide (x.exact ≤ y.exact) ∧
      foldOrdered .Ge x y = decide (y.exact ≤ x.exact) := by
  simp [foldOrdered, Binary64.lt, Binary64.le, hx, hy]

theorem executeOperator_ordered (hop : op = .Lt ∨ op = .Le ∨ op = .Gt ∨ op = .Ge)
    (ha : isNumericKind a.kind = true) (hb : isNumericKind b.kind = true) :
    executeOperator library memory op [constantValue a, constantValue b] =
        some (.ok (.bool (foldOrdered op (asDouble a) (asDouble b)))) ↔
        FoldsExactly op [constantValue a, constantValue b] := by
  obtain ⟨hnumeric, hnan, hexact⟩ := asDouble_spec ha
  obtain ⟨hnumeric', hnan', hexact'⟩ := asDouble_spec hb
  generalize constantValue a = v at *
  generalize constantValue b = w at *
  have hexecute {vmOp : OpCode} (hvm : vmBinaryOp op = some vmOp)
    (hordering : isOrdering vmOp = true) {cmp : Int}
      (hcmp : compareNumericValues v w = .ok cmp) : executeOperator library memory op [v, w] =
        some (orderedResult vmOp cmp) := by
    have hcompare : executeBinary library memory vmOp v w = binaryCompare memory vmOp v w := by
      cases vmOp <;> first | rfl | cases hordering
    rw [executeOperator, hvm, Option.map_some, hcompare,
      binaryCompare_ordering hnumeric hnumeric' hordering hcmp]
  by_cases hany : isNaNValue v = true ∨ isNaNValue w = true
  · -- the folded answer is no, that of the machine depends on the kinds
    have hcmp := compareNumericValues_unordered hnumeric hnumeric' hany
    have hfold : foldOrdered op (asDouble a) (asDouble b) = false := by
      unfold foldOrdered
      rw [hnan, hnan', if_pos (by simpa using hany)]
    have hcollapsed : ¬Collapsed v w ∧ ¬Collapsed w v := by
      rcases hany with h | h
      · exact ⟨fun hc => Bool.noConfusion (h.symm.trans hc.1),
          fun hc => Bool.noConfusion (h.symm.trans hc.2.1)⟩
      · exact ⟨fun hc => Bool.noConfusion (h.symm.trans hc.2.1),
          fun hc => Bool.noConfusion (h.symm.trans hc.1)⟩
    rw [hfold]
    have hkinds : unorderedResult v w = 2 ∧ ¬NaNLess v w ∧ ¬NaNEqual v w ∨
        unorderedResult v w = -2 ∧ NaNLess v w ∧ ¬NaNEqual v w ∨ unorderedResult v w = 0 ∧
        ¬NaNLess v w ∧ NaNEqual v w := by
      cases v with
      | int v => simp [unorderedResult, NaNLess, NaNEqual, isNaNValue, isDouble]
      | double v =>
        cases w with
        | int w =>
          have hv : isNaNValue (.double v) = true := hany.resolve_right Bool.false_ne_true
          simp [unorderedResult, NaNLess, NaNEqual, hv, isInteger, isDouble]
        | double w => simp [unorderedResult, NaNLess, NaNEqual, isInteger, isDouble, hany]
        | _ => cases hnumeric'
      | _ => cases hnumeric
    rcases hop with rfl | rfl | rfl | rfl
    · rw [@hexecute .Lt rfl rfl _ hcmp]
      rcases hkinds with ⟨hcmp, hless, hequal⟩ | ⟨hcmp, hless, hequal⟩ | ⟨hcmp, hless, hequal⟩ <;>
        simp [hcmp, orderedResult, FoldsExactly, hcollapsed, hless]
    · rw [@hexecute .Lte rfl rfl _ hcmp]
      rcases hkinds with ⟨hcmp, hless, hequal⟩ | ⟨hcmp, hless, hequal⟩ | ⟨hcmp, hless, hequal⟩ <;>
        simp [hcmp, orderedResult, FoldsExactly, hcollapsed, hless, hequal]
    · rw [@hexecute .Gt rfl rfl _ hcmp]
      rcases hkinds with ⟨hcmp, hless, hequal⟩ | ⟨hcmp, hless, hequal⟩ | ⟨hcmp, hless, hequal⟩ <;>
        simp [hcmp, orderedResult, FoldsExactly, hcollapsed]
    · rw [@hexecute .Gte rfl rfl _ hcmp]
      rcases hkinds with ⟨hcmp, hless, hequal⟩ | ⟨hcmp, hless, hequal⟩ | ⟨hcmp, hless, hequal⟩ <;>
        simp [hcmp, orderedResult, FoldsExactly, hcollapsed, hequal]
  · have hv : isNaNValue v = false := Bool.eq_false_iff.mpr fun h => hany (.inl h)
    have hw : isNaNValue w = false := Bool.eq_false_iff.mpr fun h => hany (.inr h)
    have hcmp := compareNumericValues_exact hnumeric hnumeric' hv hw
    have hless : ¬NaNLess v w := fun h => Bool.noConfusion (h.1.symm.trans hv)
    have hequal : ¬NaNEqual v w := fun h => hany h.2.2
    have horder := (rounded_order hnumeric hnumeric' hv hw).1
    have horder' := (rounded_order hnumeric' hnumeric hw hv).1
    have hsome {x y : Bool} : some (Except.ok (gc.Value.bool x) : Except VmError gc.Value) = some
      (.ok (.bool y)) ↔ x = y := by simp
    obtain ⟨hlt, hgt, hle, hge⟩ := orderedResult_sign (exactUnits v - exactUnits w)
    obtain ⟨hlt', hgt', hle', hge'⟩ := foldOrdered_eq (hnan.trans hv) (hnan'.trans hw)
    rw [hexact, hexact'] at hlt' hgt' hle' hge'
    rcases hop with rfl | rfl | rfl | rfl
    · rw [@hexecute .Lt rfl rfl _ hcmp, hlt, hlt', hsome, decide_eq_decide, FoldsExactly, ← horder]
      simp only [hless, not_false_eq_true, and_true]
      omega
    · rw [@hexecute .Lte rfl rfl _ hcmp, hle, hle', hsome, decide_eq_decide, FoldsExactly, ← horder']
      simp only [hless, hequal, not_false_eq_true, and_true]
      omega
    · rw [@hexecute .Gt rfl rfl _ hcmp, hgt, hgt', hsome, decide_eq_decide, FoldsExactly, ← horder']
      omega
    · rw [@hexecute .Gte rfl rfl _ hcmp, hge, hge', hsome, decide_eq_decide, FoldsExactly, ← horder]
      simp only [hequal, not_false_eq_true, and_true]
      omega

theorem executeOperator_unary (h : foldUnary op a = some c) :
    executeOperator library memory op [constantValue a] = some (.ok (constantValue c)) ↔
      FoldsExactly op [constantValue a] := by
  unfold foldUnary at h
  rw [FoldsExactly]
  split at h
  next ha =>
    split at h
    · nomatch h
    next hmin =>
      rw [constantValue_int ha, ← Option.some.inj h, constantValue_makeInt]
      exact iff_of_true (congrArg some (if_neg hmin)) (by decide)
  next ha =>
    rw [constantValue_double ha, ← Option.some.inj h]
    exact iff_of_true rfl (by decide)
  next ha =>
    rw [constantValue_int ha, ← Option.some.inj h, constantValue_makeInt]
    exact iff_of_true rfl (by decide)
  next ha =>
    rw [constantValue_bool ha, ← Option.some.inj h]
    exact iff_of_true rfl (by decide)
  next ha =>
    rw [constantValue_int ha, ← Option.some.inj h]
    exact iff_of_false (fun hwiden => nomatch hwiden) (fun hne => hne rfl)
  next => nomatch h

theorem executeOperator_binary (h : foldBinary library op a b = some c) :
    executeOperator library memory op [constantValue a, constantValue b] = some (.ok (constantValue c)) ↔
      FoldsExactly op [constantValue a, constantValue b] := by
  have harithmetic (hop : op ∈ [.Add, .Sub, .Mul, .Div, .Mod, .Pow, .BitAnd, .BitOr, .BitXor, .Shl,
    .Shr, .Ushr, .And, .Or])
      (hfolds : FoldsExactly op [constantValue a, constantValue b]) :=
        iff_of_true (@executeBinary_arithmetic library memory a b c op hop h) hfolds
  have hordered (hop : op = .Lt ∨ op = .Le ∨ op = .Gt ∨ op = .Ge)
      (h : (if isNumericKind a.kind && isNumericKind b.kind then some
        (makeBool (foldOrdered op (asDouble a) (asDouble b))) else none) = some c) :
      executeOperator library memory op [constantValue a, constantValue b] = some
        (.ok (constantValue c)) ↔ FoldsExactly op [constantValue a, constantValue b] := by
    obtain ⟨hnumeric, hc⟩ := Option.ite_none_right_eq_some.mp h
    obtain ⟨ha, hb⟩ := (Bool.and_eq_true _ _).mp hnumeric
    rw [← Option.some.inj hc, constantValue_makeBool]
    exact executeOperator_ordered hop ha hb
  unfold foldBinary at h
  cases op
  case Eq =>
    obtain ⟨equal, hequal, rfl⟩ := Option.map_eq_some_iff.mp h
    obtain ⟨answer, hanswer, hiff⟩ := @foldEqual_spec memory a b equal hequal
    have hexecute : executeOperator library memory .Eq [constantValue a, constantValue b] =
        some (.ok (.bool answer)) := by
      change some (binaryCompare memory .Eq _ _) = _
      rw [binaryCompare, if_pos (.inl rfl), hanswer]
      rfl
    rw [hexecute, constantValue_makeBool, FoldsExactly, ← hiff]
    simp
  case Ne =>
    obtain ⟨equal, hequal, rfl⟩ := Option.map_eq_some_iff.mp h
    obtain ⟨answer, hanswer, hiff⟩ := @foldEqual_spec memory a b equal hequal
    have hexecute : executeOperator library memory .Ne [constantValue a, constantValue b] =
        some (.ok (.bool !answer)) := by
      change some (binaryCompare memory .Neq _ _) = _
      rw [binaryCompare, if_pos (.inr rfl), hanswer]
      rfl
    rw [hexecute, constantValue_makeBool, FoldsExactly, ← hiff]
    simp
  case Lt => exact hordered (.inl rfl) h
  case Le => exact hordered (.inr (.inl rfl)) h
  case Gt => exact hordered (.inr (.inr (.inl rfl))) h
  case Ge => exact hordered (.inr (.inr (.inr rfl))) h
  all_goals first | exact harithmetic (by decide) trivial | cases h

/-- The values of the operands of an instruction, if they are constants. -/
def operandValues (module : Module) (instruction : Instruction) : Option (List gc.Value) :=
  instruction.operands.mapM fun operand => (constantOperand module operand).map constantValue

theorem foldInstruction_constants {types : TypeTable} {module : Module} {instruction : Instruction}
    (h : foldInstruction types library module instruction = some c) :
    (∃ left a, instruction.operands = [left] ∧ constantOperand module left = some a ∧
      foldUnary instruction.opcode a = some c) ∨ ∃ left right a b,
      instruction.operands = [left, right] ∧ constantOperand module left = some a ∧
      constantOperand module right = some b ∧ foldBinary library instruction.opcode a b = some c := by
  have htyped {folded : Option Constant}
      (h : (folded.bind fun value =>
        if constantMatchesType types value instruction.resultType then some value else none) = some c) :
      folded = some c := by
    obtain ⟨value, hvalue, h⟩ := Option.bind_eq_some_iff.mp h
    rw [hvalue, (Option.ite_none_right_eq_some.mp h).2]
  unfold foldInstruction at h
  dsimp only at h
  split at h
  · nomatch h
  · split at h
    · nomatch h
    · split at h
      next left hoperands =>
        obtain ⟨a, ha, h⟩ := Option.bind_eq_some_iff.mp h
        exact .inl ⟨left, a, hoperands, ha, htyped h⟩
      next left right hoperands =>
        obtain ⟨a, ha, h⟩ := Option.bind_eq_some_iff.mp h
        obtain ⟨b, hb, h⟩ := Option.bind_eq_some_iff.mp h
        exact .inr ⟨left, right, a, b, hoperands, ha, hb, htyped h⟩
      next => nomatch h

/-- What is folded is what the machine computes, exactly where no operand is widened, no two
    numbers collapse to one double where it matters, and no NaN is ordered. -/
theorem foldInstruction_iff (types : TypeTable) (library : Library) (memory : Memory)
    (module : Module) (instruction : Instruction)
    (c : Constant) (h : foldInstruction types library module instruction = some c) :
    ∃ values, operandValues module instruction = some values ∧
      (executeOperator library memory instruction.opcode values = some (.ok (constantValue c)) ↔
        FoldsExactly instruction.opcode values) := by
  unfold operandValues
  rcases foldInstruction_constants h with ⟨left, a, hoperands, ha, hfold⟩ | ⟨left, right, a, b,
    hoperands, ha, hb, hfold⟩
  · refine ⟨[constantValue a], ?_, executeOperator_unary hfold⟩
    rw [hoperands]
    simp [ha]
  · refine ⟨[constantValue a, constantValue b], ?_, executeOperator_binary hfold⟩
    rw [hoperands]
    simp [ha, hb]

end

def foldTypes : TypeTable :=
  { find _ := none, isNullable _ := false, boolType := 1, intType := 2, doubleType := 3, stringType := 4 }

def foldLibrary : Library := ⟨fun x _ => x, fun _ => []⟩

def foldMemory : Memory := ⟨{}, fun _ => .handle 0⟩

def foldModule : Module := { constants := [makeInt (2 ^ 53), makeInt (2 ^ 53 + 1)] }

def lessThan : Instruction :=
  { opcode := .Lt, result := 1, resultType := 1, operands := [.constant 1 2, .constant 2 2] }

theorem foldInstruction_iff_lessThan : ∃ values, operandValues foldModule lessThan = some values ∧
    (executeOperator foldLibrary foldMemory .Lt values = some (.ok (.bool false)) ↔
      FoldsExactly .Lt values) :=
  foldInstruction_iff foldTypes foldLibrary foldMemory foldModule lessThan (makeBool false)
    (by decide +kernel)

/-- One of them is less than the other, and is folded to be not less. -/
theorem lessThan_misfolded : ¬∀ types library memory module instruction c,
    foldInstruction types library module instruction = some c →
    ∀ values, operandValues module instruction = some values →
    executeOperator library memory instruction.opcode values = some (.ok (constantValue c)) := by
  intro h
  have hfold : foldInstruction foldTypes foldLibrary foldModule lessThan = some (makeBool false) := by
    decide +kernel
  have hexecute := h foldTypes foldLibrary foldMemory foldModule lessThan _ hfold [.int (2 ^ 53),
    .int (2 ^ 53 + 1)] (by decide +kernel)
  have htrue : executeOperator foldLibrary foldMemory .Lt [.int (2 ^ 53), .int (2 ^ 53 + 1)] =
    some (.ok (.bool true)) := by decide +kernel
  exact absurd (htrue.symm.trans hexecute) (by decide)

end zl.mir
