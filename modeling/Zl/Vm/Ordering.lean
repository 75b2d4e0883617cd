import Zl.Ieee.Arithmetic
import Zl.Vm.Bytecode
import Zl.Vm.ValueEquivalence

open zl.ieee zl.vm.gc

namespace zl.vm.value

/-- What the operators use of the standard library, and of the printing of values: how a value that
    is no string reads. -/
structure Library where
  pow : Binary64 → Binary64 → Binary64
  format : gc.Value → List UInt8

def valueToString (library : Library) : gc.Value → List UInt8
  | .string held => held
  | v => library.format v

def isStringValue : gc.Value → Bool
  | .string _ => true
  | _ => false

section
variable (memory : Memory)

def nativeValid : NativeValue → Bool
  | .handle id | .callback id => id != 0
  | .bufferView _ _ valid | .structView _ _ _ valid => valid

def isTruthy : gc.Value → Bool
  | .nil => false
  | .bool held => held
  | .int held => held != 0
  | .double bits => !(Binary64.ofBits bits).beq .zero
  | .string held => !held.isEmpty
  | .box .list (some a) => !(listAt memory.heap a).items.isEmpty
  | .box .map (some a) => (mapAt memory.heap a).entries.length != 0
  | .box _ handle => handle.isSome
  | .task handle | .thread handle => handle.isSome
  | .native a => nativeValid (memory.natives a)

end

def checkedDoubleResult (result : Binary64) (operation : String) : Except VmError gc.Value :=
  if result.isInf then .error (.arithmetic ("floating-point overflow in " ++ operation))
  else if result.isNaN then .error (.arithmetic ("invalid floating-point result in " ++ operation))
  else .ok (.double result.toBits)

/-- What `__builtin_add_overflow` and its like leave of an exact result. -/
def representable (n : Int) : Option Int64 := if -2 ^ 63 ≤ n ∧ n < 2 ^ 63 then some (.ofInt n) else none

def checkedInteger (n : Int) (operation : String) : Except VmError gc.Value :=
  match representable n with
  | some held => .ok (.int held)
  | none => .error (.arithmetic ("integer overflow in " ++ operation))

/-- Exponentiation by squaring. An overflow in the chain ends it, also one in the factor. -/
def powChecked (result factor : Int64) (n : Nat) : Option Int64 :=
  if n = 0 then some result
  else do
    let result ← if n % 2 = 1 then representable (result.toInt * factor.toInt) else some result
    if n / 2 = 0 then return result
    let factor ← representable (factor.toInt * factor.toInt)
    powChecked result factor (n / 2)
termination_by n

/-- Both operands are integers. The operators without an integer form have none here. -/
def integerArith : OpCode → Int64 → Int64 → Option (Except VmError gc.Value)
  | .Add, x, y => some (checkedInteger (x.toInt + y.toInt) "addition")
  | .Sub, x, y => some (checkedInteger (x.toInt - y.toInt) "subtraction")
  | .Mul, x, y => some (checkedInteger (x.toInt * y.toInt) "multiplication")
  | .Div, x, y => some (
    if y = 0 then .error (.arithmetic "division by zero")
    else if x = .minValue ∧ y = -1 then .error (.arithmetic "integer overflow in division")
    else .ok (.int (x / y)))
  | .Mod, x, y => some (
    if y = 0 then .error (.arithmetic "modulo by zero")
    else if x = .minValue ∧ y = -1 then .ok (.int 0)
    else .ok (.int (x % y)))
  | _, _, _ => none

def doubleArith : OpCode → Binary64 → Binary64 → Except VmError gc.Value
  | .Add, x, y => checkedDoubleResult (x.add y) "addition"
  | .Sub, x, y => checkedDoubleResult (x.sub y) "subtraction"
  | .Mul, x, y => checkedDoubleResult (x.mul y) "multiplication"
  | .Div, x, y =>
    if y.beq .zero then .error (.arithmetic "division by zero") else checkedDoubleResult
      (x.div y) "division"
  | .Mod, x, y =>
    if y.beq .zero then .error (.arithmetic "modulo by zero") else .ok (.double (x.fmod y).toBits)
  | _, _, _ => .error (.runtime "VM: not an arithmetic opcode")

def powArith (library : Library) : gc.Value → gc.Value → Except VmError gc.Value
  | .int base, .int exponent =>
    if 0 ≤ exponent then
      match powChecked 1 base exponent.toInt.toNat with
      | some result => .ok (.int result)
      | none => .error (.arithmetic "integer overflow in exponentiation")
    else .error (.runtime "negative integer exponent requires floating-point result")
  | a, b => do checkedDoubleResult (library.pow (← toDouble a) (← toDouble b)) "exponentiation"

def binaryArith (library : Library) (op : OpCode) (a b : gc.Value) : Except VmError gc.Value :=
  if op = .Add ∧ (isStringValue a || isStringValue b) then .ok
    (.string (valueToString library a ++ valueToString library b))
  else if !isNumericValue a || !isNumericValue b then
    .error (.runtime "arithmetic operators require numbers (or strings, for +)")
  else if op = .Pow then powArith library a b
  else
    let integers := match a, b with
      | .int x, .int y => integerArith op x y
      | _, _ => none
    match integers with
    | some result => result
    | none => do doubleArith op (← toDouble a) (← toDouble b)

def shiftError : VmError := .runtime "shift count must be in the range 0..63"

/-- A shift to the right that fills with the sign. -/
def shiftRightArithmetic (value amount : Int64) : Int64 :=
  let shifted := value.toUInt64 >>> amount.toUInt64
  (if value < 0 ∧ amount ≠ 0 then shifted ||| (~~~0 : UInt64) <<<
    (64 - amount.toUInt64) else shifted).toInt64

def shift (op : Int64 → Int64 → Int64) (x y : Int64) : Except VmError gc.Value :=
  if y < 0 ∨ 64 ≤ y then .error shiftError else .ok (.int (op x y))

def binaryBitwise (op : OpCode) (a b : gc.Value) : Except VmError gc.Value := do
  let x ← toInt64Strict a
  let y ← toInt64Strict b
  match op with
  | .BitAnd => return .int (x &&& y)
  | .BitOr => return .int (x ||| y)
  | .BitXor => return .int (x ^^^ y)
  | .Shl => shift (fun x y => (x.toUInt64 <<< y.toUInt64).toInt64) x y
  | .Shr => shift shiftRightArithmetic x y
  | .Ushr => shift (fun x y => (x.toUInt64 >>> y.toUInt64).toInt64) x y
  | _ => throw (.runtime "VM: not a bitwise opcode")

/-- An ordered comparison, of the outcome of `compareNumericValues`. -/
def orderedResult (op : OpCode) (cmp : Int) : Except VmError gc.Value :=
  if cmp = 2 then .ok (.bool false)
  else match op with
    | .Lt => .ok (.bool (cmp < 0))
    | .Gt => .ok (.bool (0 < cmp))
    | .Lte => .ok (.bool (cmp ≤ 0))
    | .Gte => .ok (.bool (0 ≤ cmp))
    | _ => .error (.runtime "VM: not a comparison opcode")

def binaryCompare (memory : Memory) (op : OpCode) (a b : gc.Value) : Except VmError gc.Value :=
  if op = .Eq ∨ op = .Neq then do
    let equal ← valuesEqual memory a b
    return .bool (if op = .Eq then equal else !equal)
  else if !isNumericValue a || !isNumericValue b then .error
    (.runtime "comparison operators require numbers")
  else do orderedResult op (← compareNumericValues a b)

def binaryLogical (memory : Memory) (op : OpCode) (a b : gc.Value) : gc.Value :=
  let x := isTruthy memory a
  let y := isTruthy memory b
  .bool (if op = .And then x && y else x || y)

def unary (memory : Memory) : OpCode → gc.Value → Except VmError gc.Value
  | .Neg, .int held =>
    if held = .minValue then .error (.arithmetic "integer overflow in negation") else .ok (.int (-held))
  | .Neg, .double bits => .ok (.double (Binary64.ofBits bits).neg.toBits)
  | .Neg, _ => .error (.runtime "unary '-' requires a number")
  | .Not, a => .ok (.bool (!isTruthy memory a))
  | .BitNot, a => do return .int (~~~(← toInt64Strict a))
  | _, _ => .error (.runtime "VM: not a unary opcode")

/-- The number that a value is. -/
noncomputable def number : gc.Value → EReal
  | .int held => ((held.toInt : ℝ) : EReal)
  | .double bits => (Binary64.ofBits bits).toEReal
  | _ => 0

/-- The sign of a comparison. -/
noncomputable def orderSign (x y : EReal) : Int := if x < y then -1 else if y < x then 1 else 0

def isInteger : gc.Value → Bool
  | .int _ => true
  | _ => false

/-- What `compareNumericValues` answers where an operand is a NaN. -/
def unorderedResult : gc.Value → gc.Value → Int
  | .int _, _ => 2
  | _, .int _ => -2
  | _, _ => 0

/-- The ordering comparisons of the language. -/
def isOrdering : OpCode → Bool
  | .Lt | .Gt | .Lte | .Gte => true
  | _ => false

/-- What the comparison of two numbers is for: it gives their exact order, and 2 where there is none. -/
structure OrderedExactly (memory : Memory) (a b : gc.Value) : Prop where
  exact : isNaNValue a = false → isNaNValue b = false →
    compareNumericValues a b = .ok (orderSign (number a) (number b))
  unordered : compareNumericValues a b = .ok 2 ↔ isNaNValue a = true ∨ isNaNValue b = true
  swapped : isNaNValue a = false → isNaNValue b = false →
    ∃ cmp, compareNumericValues a b = .ok cmp ∧ compareNumericValues b a = .ok (-cmp)
  comparisons : isNaNValue a = true ∨ isNaNValue b = true →
    ∀ op, isOrdering op = true → binaryCompare memory op a b = .ok (.bool false)

section
variable {memory : Memory} {a b : gc.Value} {op : OpCode}

theorem compareNumericValues_of_numeric (ha : isNumericValue a = true) (hb : isNumericValue b = true) :
    compareNumericValues a b = compareNumbers a b := by
  rw [compareNumericValues, ha, hb]
  rfl

theorem compareNumericValues_exact (ha : isNumericValue a = true) (hb : isNumericValue b = true)
    (hnan : isNaNValue a = false) (hnan' : isNaNValue b = false) :
    compareNumericValues a b = .ok (Int.sign (exactUnits a - exactUnits b)) := by
  rw [compareNumericValues_of_numeric ha hb, compareNumbers_eq ha hb hnan hnan']

/-- A NaN is recognised by the comparison of an integer with a double, and by nothing else. -/
theorem compareNumericValues_unordered (ha : isNumericValue a = true) (hb : isNumericValue b = true)
    (hnan : isNaNValue a = true ∨ isNaNValue b = true) :
    compareNumericValues a b = .ok (unorderedResult a b) := by
  have hint {i : Int64} {d : Binary64} (h : d.isNaN = true) : compareIntAndDouble i d = 2 := by
    unfold compareIntAndDouble
    rw [if_pos h]
  rw [compareNumericValues_of_numeric ha hb]
  cases a with
  | int a =>
    cases b with
    | double b => exact congrArg Except.ok (hint (hnan.resolve_left Bool.false_ne_true))
    | int b => exact absurd hnan (by simp [isNaNValue])
    | _ => cases hb
  | double a =>
    cases b with
    | int b => exact congrArg (fun cmp => Except.ok (-cmp)) (hint (hnan.resolve_right Bool.false_ne_true))
    | double b =>
      rw [isNaNValue, isNaNValue] at hnan
      have hlt : (Binary64.ofBits b).lt (Binary64.ofBits a) = false ∧
          (Binary64.ofBits a).lt (Binary64.ofBits b) = false := by
        rcases hnan with h | h
        · simp [Binary64.lt, h]
        · simp [Binary64.lt, h]
      rw [compareNumbers, hlt.1, hlt.2]
      rfl
    | _ => cases hb
  | _ => cases ha

theorem natAbs_toInt_lt (i : Int64) : i.toInt.natAbs < 2 ^ 64 := by
  have := i.le_toInt
  have := i.toInt_lt
  omega

theorem number_eq (ha : isNumericValue a = true) (hnan : isNaNValue a = false) :
    number a = extended (exactUnits a) ∧ (exactUnits a).natAbs ≤ units infinityCode := by
  cases a with
  | int a => exact ⟨(extended_int (natAbs_toInt_lt a)).symm, (natAbs_mul_unit_lt (natAbs_toInt_lt a)).le⟩
  | double a => exact ⟨Binary64.toEReal_eq hnan, Binary64.natAbs_exact_le hnan⟩
  | _ => nomatch ha

theorem sign_exactUnits (ha : isNumericValue a = true) (hb : isNumericValue b = true)
    (hnan : isNaNValue a = false) (hnan' : isNaNValue b = false) : Int.sign (exactUnits a - exactUnits b) =
      orderSign (number a) (number b) := by
  obtain ⟨hnumber, hle⟩ := number_eq ha hnan
  obtain ⟨hnumber', hle'⟩ := number_eq hb hnan'
  unfold orderSign
  rw [hnumber, hnumber']
  simp only [extended_lt_extended_iff hle hle', extended_lt_extended_iff hle' hle]
  split
  next h => exact Int.sign_eq_neg_one_of_neg (by omega)
  next h =>
    split
    next h' => exact Int.sign_eq_one_of_pos (by omega)
    next h' =>
      rw [show exactUnits a - exactUnits b = 0 by omega]
      rfl

theorem binaryCompare_ordering (ha : isNumericValue a = true) (hb : isNumericValue b = true)
    (hop : isOrdering op = true) {cmp : Int} (h : compareNumericValues a b = .ok cmp) :
    binaryCompare memory op a b = orderedResult op cmp := by
  have hne : ¬(op = .Eq ∨ op = .Neq) := by
    rintro (rfl | rfl) <;> nomatch hop
  rw [binaryCompare, if_neg hne, ha, hb, h]
  rfl

/-- A pair is compared as it should be where neither is a NaN, and also where the first is an integer. -/
theorem orderedExactly_iff (memory : Memory) (a b : gc.Value) (ha : isNumericValue a = true)
    (hb : isNumericValue b = true) :
    OrderedExactly memory a b ↔ isNaNValue a = false ∧ (isNaNValue b = true → isInteger a = true) := by
  constructor
  · intro h
    have hanswer (hnan : isNaNValue a = true ∨ isNaNValue b = true) : unorderedResult a b = 2 :=
      Except.ok.inj ((compareNumericValues_unordered ha hb hnan).symm.trans (h.unordered.mpr hnan))
    cases a with
    | int a => exact ⟨rfl, fun _ => rfl⟩
    | double a =>
      have hne : unorderedResult (.double a) b ≠ 2 := by cases b <;> simp [unorderedResult]
      exact ⟨Bool.eq_false_iff.mpr fun hnan => hne (hanswer (.inl hnan)), fun hnan =>
        absurd (hanswer (.inr hnan)) hne⟩
    | _ => nomatch ha
  · rintro ⟨hnan, hinteger⟩
    cases hnan' : isNaNValue b with
    | false =>
      have hnone : ¬(isNaNValue a = true ∨ isNaNValue b = true) := by simp [hnan, hnan']
      have hsign : Int.sign (exactUnits a - exactUnits b) ≠ 2 := by
        have := Int.sign_trichotomy (exactUnits a - exactUnits b)
        omega
      refine ⟨fun _ _ => ?_, ?_, fun _ _ => ?_, fun h => absurd h hnone⟩
      · rw [compareNumericValues_exact ha hb hnan hnan', sign_exactUnits ha hb hnan hnan']
      · rw [compareNumericValues_exact ha hb hnan hnan']
        exact iff_of_false (fun h => hsign (Except.ok.inj h)) (by simpa [hnan'] using hnone)
      · refine ⟨_, compareNumericValues_exact ha hb hnan hnan', ?_⟩
        rw [compareNumericValues_exact hb ha hnan' hnan, ← Int.sign_neg, Int.neg_sub]
    | true =>
      have heither : isNaNValue a = true ∨ isNaNValue b = true := .inr hnan'
      have htwo : compareNumericValues a b = .ok 2 := by
        rw [compareNumericValues_unordered ha hb heither]
        cases a with
        | int a => rfl
        | _ => nomatch hinteger hnan'
      refine ⟨fun _ h => ?_, ?_, fun _ h => ?_, fun _ op hop => ?_⟩
      · rw [hnan'] at h
        nomatch h
      · exact iff_of_true htwo heither
      · rw [hnan'] at h
        nomatch h
      · rw [binaryCompare_ordering ha hb hop htwo]
        rfl

end

def nanValue : gc.Value := .double Binary64.nan.toBits

theorem orderedExactly_iff_nan : ¬OrderedExactly ⟨{}, fun _ => .handle 0⟩ nanValue nanValue :=
  fun h => nomatch ((orderedExactly_iff ⟨{}, fun _ => .handle 0⟩ nanValue nanValue rfl rfl).mp h).1

/-- A NaN is said to be equal to a NaN and below an integer. -/
theorem nan_is_ordered : (¬∀ memory a b, isNumericValue a = true → isNumericValue b = true →
      OrderedExactly memory a b) ∧ compareNumericValues nanValue nanValue = .ok 0 ∧
      compareNumericValues nanValue (.int 1) = .ok (-2) ∧ ∀ memory,
    binaryCompare memory .Lte nanValue nanValue = .ok (.bool true) ∧
    binaryCompare memory .Lt nanValue (.int 1) = .ok (.bool true) := by
  have hzero : compareNumericValues nanValue nanValue = .ok 0 :=
    compareNumericValues_unordered rfl rfl (.inl rfl)
  have hless : compareNumericValues nanValue (.int 1) = .ok (-2) :=
    compareNumericValues_unordered rfl rfl (.inl rfl)
  refine ⟨fun h => ?_, hzero, hless, fun memory => ⟨?_, ?_⟩⟩
  · have htwo := (h ⟨{}, fun _ => .handle 0⟩ nanValue nanValue rfl rfl).unordered.mpr (.inl rfl)
    nomatch hzero.symm.trans htwo
  · exact binaryCompare_ordering rfl rfl rfl hzero
  · exact binaryCompare_ordering rfl rfl rfl hless

end zl.vm.value
