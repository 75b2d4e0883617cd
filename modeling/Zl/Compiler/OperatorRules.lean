import Zl.Compiler.SemanticModel
import Zl.Mir.FoldingAgreement
import Zl.Vm.EqualityLaws

open zl.ieee zl.vm zl.vm.gc zl.vm.value

namespace zl.compiler

inductive Operator where
  | Plus | Minus | Multiply | Divide | Modulo | Power
  | BitAnd | BitOr | BitXor | ShiftLeft | ShiftRight | ShiftRightZero
  | Equal | NotEqual | Less | Greater | LessEqual | GreaterEqual
  | LogicalAnd | LogicalOr
  | Not | BitNot
  | Unknown
  deriving DecidableEq, Repr

/-- The rule that most arithmetic operators share. -/
def promotedResult (left right : ZlType) : Option ZlType :=
  if left = .INT ∧ right = .INT then some .INT
  else if left = .DOUBLE ∨ right = .DOUBLE then some .DOUBLE
  else none

def isNumber (type : ZlType) : Bool := type = .INT || type = .DOUBLE

def unaryResult (op : Operator) (operand : ZlType) : Option ZlType :=
  match op with
  | .Minus | .Plus => if operand = .INT then some .INT else if operand = .DOUBLE then some .DOUBLE else none
  | .Not => some .BOOL
  | .BitNot => if operand = .INT then some .INT else none
  | _ => none

def unaryError : Operator → String
  | .Minus => "unary '-' requires a numeric operand"
  | .Plus => "unary '+' requires a numeric operand"
  | .BitNot => "unary '~' requires an integer operand"
  | _ => "invalid unary operator"

def binaryResult (op : Operator) (left right : ZlType) : Option ZlType :=
  match op with
  | .Plus => if left = .STRING ∨ right = .STRING then some .STRING else promotedResult left right
  | .Minus | .Multiply | .Divide | .Modulo => promotedResult left right
  | .Power =>
    if left = .INT ∧ right = .INT then some .INT
    else if isNumber left && isNumber right then some .DOUBLE
    else none
  | .BitAnd | .BitOr | .BitXor | .ShiftLeft | .ShiftRight | .ShiftRightZero =>
    if left = .INT ∧ right = .INT then some .INT else none
  | .Equal | .NotEqual => some .BOOL
  | .Less | .Greater | .LessEqual | .GreaterEqual =>
      if isNumber left && isNumber right then some .BOOL else none
  | .LogicalAnd | .LogicalOr => some .BOOL
  | .Not | .BitNot | .Unknown => none

/-- The opcode of a binary operator. -/
def opCode : Operator → Option OpCode
  | .Plus => some .Add
  | .Minus => some .Sub
  | .Multiply => some .Mul
  | .Divide => some .Div
  | .Modulo => some .Mod
  | .Power => some .Pow
  | .BitAnd => some .BitAnd
  | .BitOr => some .BitOr
  | .BitXor => some .BitXor
  | .ShiftLeft => some .Shl
  | .ShiftRight => some .Shr
  | .ShiftRightZero => some .Ushr
  | .Equal => some .Eq
  | .NotEqual => some .Neq
  | .Less => some .Lt
  | .Greater => some .Gt
  | .LessEqual => some .Lte
  | .GreaterEqual => some .Gte
  | .LogicalAnd => some .And
  | .LogicalOr => some .Or
  | .Not | .BitNot | .Unknown => none

/-- The values that the machine takes for values of a type. An integer is taken for a double, and
    nil for what can be null, also for a string. An object may be a boxed value of any type. -/
def holdsType : ZlType → gc.Value → Bool
  | .INT, v => (v matches .int _)
  | .DOUBLE, v => (v matches .double _ | .int _)
  | .STRING, v => (v matches .string _ | .nil)
  | .BOOL, v => (v matches .bool _)
  | .VOID_TYPE, v | .NIL, v => (v matches .nil)
  | .LIST, v | .SET, v | .ARRAY, v => (v matches .box .list _ | .nil)
  | .MAP, v => (v matches .box .map _ | .nil)
  | .FUNCTION, v => (v matches .box .closure _ | .nil)
  | .TASK, v => (v matches .task _ | .nil)
  | .OBJECT, _ | .UNKNOWN, _ | .UNION, _ => true

/-- An overflow, a division by zero, a result that is not finite, or a shift by too many places. -/
def isArithmeticError : VmError → Bool
  | .arithmetic _ => true
  | e => e = shiftError

/-- A value of the type, or an arithmetic error. -/
def YieldsType (type : ZlType) : Except VmError gc.Value → Prop
  | .ok v => holdsType type v = true
  | .error e => isArithmeticError e = true

/-- The operands on which an operator of a result type works: numbers where the type of one of
    them says nothing about the other, a string where a nil may stand for one, an exponent that is
    not negative, and values that can be compared. -/
def OperandsSuit (memory : Memory) (op : Operator) (left right : ZlType) (a b : gc.Value) : Prop :=
  match op with
  | .Plus =>
    if left = .STRING ∨ right = .STRING then isStringValue a = true ∨ isStringValue b = true
    else isNumericValue a = true ∧ isNumericValue b = true
  | .Minus | .Multiply | .Divide | .Modulo => isNumericValue a = true ∧ isNumericValue b = true
  | .Power => ∀ base exponent, a = .int base → b = .int exponent → 0 ≤ exponent
  | .Equal | .NotEqual => ∃ equal, valuesEqual memory a b = .ok equal
  | _ => True

section
variable {library : Library} {memory : Memory} {left right type : ZlType} {a b : gc.Value}
variable {op : OpCode}

theorem yieldsType_checkedInteger (n : Int) (operation : String) :
    YieldsType .INT (checkedInteger n operation) := by
  unfold checkedInteger
  split <;> rfl

theorem yieldsType_checkedDoubleResult (x : Binary64) (operation : String) :
    YieldsType .DOUBLE (checkedDoubleResult x operation) := by
  unfold checkedDoubleResult
  split
  · rfl
  · split <;> rfl

theorem YieldsType.toDouble {result : Except VmError gc.Value} (h : YieldsType .INT result) :
    YieldsType .DOUBLE result := by
  cases result with
  | error e => exact h
  | ok v =>
    cases v with
    | int held => rfl
    | _ => nomatch h

theorem yieldsType_integerArith {x y : Int64} {result : Except VmError gc.Value}
    (h : integerArith op x y = some result) :
    YieldsType .INT result := by
  unfold integerArith at h
  split at h
  case h_6 => nomatch h
  case h_1 | h_2 | h_3 =>
    cases h
    exact yieldsType_checkedInteger ..
  case h_4 =>
    cases h
    split
    · rfl
    · split <;> rfl
  case h_5 =>
    cases h
    split
    · rfl
    · split <;> rfl

theorem yieldsType_doubleArith (hop : op ∈ [OpCode.Add, .Sub, .Mul, .Div, .Mod]) (x y : Binary64) :
    YieldsType .DOUBLE (doubleArith op x y) := by
  simp only [List.mem_cons, List.not_mem_nil, or_false] at hop
  obtain rfl | rfl | rfl | rfl | rfl := hop
  case inr.inr.inr.inl =>
    show YieldsType .DOUBLE (if y.beq .zero then _ else _)
    split
    · rfl
    · exact yieldsType_checkedDoubleResult ..
  case inr.inr.inr.inr =>
    show YieldsType .DOUBLE (if y.beq .zero then _ else _)
    split <;> rfl
  all_goals exact yieldsType_checkedDoubleResult ..

theorem isStringValue_of_numeric (h : isNumericValue a = true) : isStringValue a = false := by
  cases a with
  | string held => nomatch h
  | _ => rfl

theorem yieldsType_binaryArith {op : OpCode} (hop : op ∈ [OpCode.Add, .Sub, .Mul, .Div, .Mod])
    (ha : isNumericValue a = true)
    (hb : isNumericValue b = true) : YieldsType .DOUBLE (binaryArith library op a b) ∧
      (holdsType .INT a = true → holdsType .INT b = true →
        YieldsType .INT (binaryArith library op a b)) := by
  have hstrings : ¬(op = .Add ∧ (isStringValue a || isStringValue b) = true) := by
    rw [isStringValue_of_numeric ha, isStringValue_of_numeric hb]
    exact fun h => Bool.noConfusion h.2
  have hpow : op ≠ .Pow := by
    rintro rfl
    simp at hop
  have hintegers (x y : Int64) : ∃ result, integerArith op x y = some result := by
    simp only [List.mem_cons, List.not_mem_nil, or_false] at hop
    obtain rfl | rfl | rfl | rfl | rfl := hop <;> exact ⟨_, rfl⟩
  unfold binaryArith
  rw [if_neg hstrings, if_neg (by simp [ha, hb]), if_neg hpow]
  cases a with
  | int i =>
    cases b with
    | int j =>
      obtain ⟨result, hresult⟩ := hintegers i j
      simp only [hresult]
      exact ⟨(yieldsType_integerArith hresult).toDouble, fun _ _ => yieldsType_integerArith hresult⟩
    | double y => exact ⟨yieldsType_doubleArith hop _ _, fun _ h => by cases h⟩
    | _ => cases hb
  | double x =>
    cases b with
    | int j => exact ⟨yieldsType_doubleArith hop _ _, fun h => by cases h⟩
    | double y => exact ⟨yieldsType_doubleArith hop _ _, fun h => by cases h⟩
    | _ => cases hb
  | _ => cases ha

theorem binaryArith_rejects {op : OpCode}
    (hstrings : ¬(op = .Add ∧ (isStringValue a || isStringValue b) = true))
    (hnumbers : ¬(isNumericValue a = true ∧ isNumericValue b = true)) :
    binaryArith library op a b = .error
      (.runtime "arithmetic operators require numbers (or strings, for +)") := by
  unfold binaryArith
  rw [if_neg hstrings, if_pos]
  by_contra h
  exact hnumbers (by simpa using h)

theorem numeric_of_isNumber (htype : isNumber type = true) (ha : holdsType type a = true) :
    isNumericValue a = true := by
  cases type with
  | INT =>
    cases a with
    | int held => rfl
    | _ => nomatch ha
  | DOUBLE =>
    cases a with
    | int held => rfl
    | double bits => rfl
    | _ => nomatch ha
  | _ => nomatch htype

theorem promotedResult_number (h : promotedResult left right = some type) : type = .INT ∨
    type = .DOUBLE := by
  unfold promotedResult at h
  split at h
  · exact .inl (Option.some.inj h).symm
  · split at h
    · exact .inr (Option.some.inj h).symm
    · nomatch h

theorem yieldsType_promoted (hop : op ∈ [OpCode.Add, .Sub, .Mul, .Div, .Mod])
    (h : promotedResult left right = some type) (ha : holdsType left a = true)
    (hb : holdsType right b = true) :
    YieldsType type (binaryArith library op a b) ↔ isNumericValue a = true ∧ isNumericValue b = true := by
  constructor
  · intro hyields
    by_contra hnumbers
    by_cases hstrings : op = .Add ∧ (isStringValue a || isStringValue b) = true
    · unfold binaryArith at hyields
      rw [if_pos hstrings] at hyields
      obtain rfl | rfl := promotedResult_number h <;> nomatch hyields
    · rw [binaryArith_rejects hstrings hnumbers] at hyields
      nomatch hyields
  · rintro ⟨hna, hnb⟩
    have hyields := @yieldsType_binaryArith library _ _ _ hop hna hnb
    obtain ⟨hdouble, hinteger⟩ := hyields
    unfold promotedResult at h
    split at h
    next hints =>
      cases h
      exact hinteger (hints.1 ▸ ha) (hints.2 ▸ hb)
    next =>
      split at h
      · cases h
        exact hdouble
      · nomatch h

theorem not_numeric_of_string (ha : holdsType .STRING a = true) : isNumericValue a ≠ true := by
  cases a with
  | string held => exact nofun
  | nil => exact nofun
  | _ => nomatch ha

theorem yieldsType_concat (hstring : left = .STRING ∨ right = .STRING)
    (ha : holdsType left a = true) (hb : holdsType right b = true) :
    YieldsType .STRING (binaryArith library .Add a b) ↔ isStringValue a = true ∨
      isStringValue b = true := by
  constructor
  · intro hyields
    by_contra hstrings
    have hnumbers : ¬(isNumericValue a = true ∧ isNumericValue b = true) := by
      rintro ⟨hna, hnb⟩
      obtain rfl | rfl := hstring
      · exact not_numeric_of_string ha hna
      · exact not_numeric_of_string hb hnb
    rw [binaryArith_rejects (by simpa using hstrings) hnumbers] at hyields
    nomatch hyields
  · intro hstrings
    unfold binaryArith
    rw [if_pos ⟨rfl, by simpa using hstrings⟩]
    rfl

theorem yieldsType_powArith_int (hnumber : isNumber type = true) (i j : Int64) :
    YieldsType type (powArith library (.int i) (.int j)) ↔ 0 ≤ j := by
  show YieldsType type (if 0 ≤ j then _ else _) ↔ _
  split
  next hle =>
    refine iff_of_true ?_ hle
    cases type with
    | INT => split <;> rfl
    | DOUBLE => split <;> rfl
    | _ => nomatch hnumber
  next hneg => exact iff_of_false (fun h => nomatch h) hneg

theorem yieldsType_pow (htype : if left = .INT ∧ right = .INT then type = .INT else type = .DOUBLE)
    (hleft : isNumber left = true)
    (hright : isNumber right = true) (ha : holdsType left a = true) (hb : holdsType right b = true) :
    YieldsType type (binaryArith library .Pow a b) ↔ ∀ base exponent, a = .int base →
      b = .int exponent → 0 ≤ exponent := by
  have hna := numeric_of_isNumber hleft ha
  have hnb := numeric_of_isNumber hright hb
  have hpow : binaryArith library .Pow a b = powArith library a b := by
    unfold binaryArith
    rw [if_neg (fun h => nomatch h.1), if_neg (by simp [hna, hnb]), if_pos rfl]
  have hdouble (hnot : ¬(left = .INT ∧ right = .INT)) (x y : Binary64)
    (heq : powArith library a b = checkedDoubleResult (library.pow x y)
      "exponentiation") : YieldsType type (powArith library a b) := by
    rw [if_neg hnot] at htype
    rw [htype, heq]
    exact yieldsType_checkedDoubleResult ..
  rw [hpow]
  cases a with
  | int i =>
    cases b with
    | int j =>
      have hnumber : isNumber type = true := by
        split at htype <;> rw [htype] <;> rfl
      rw [yieldsType_powArith_int hnumber]
      exact ⟨fun h _ _ _ heq => gc.Value.int.inj heq ▸ h, fun h => h i j rfl rfl⟩
    | double y =>
      refine iff_of_true (hdouble ?_ _ _ rfl) fun _ _ _ h => nomatch h
      rintro ⟨-, rfl⟩
      nomatch hb
    | _ => nomatch hnb
  | double x =>
    have hnot : ¬(left = .INT ∧ right = .INT) := by
      rintro ⟨rfl, -⟩
      nomatch ha
    refine iff_of_true ?_ fun _ _ h => nomatch h
    cases b with
    | int j => exact hdouble hnot _ _ rfl
    | double y => exact hdouble hnot _ _ rfl
    | _ => nomatch hnb
  | _ => nomatch hna

theorem yieldsType_bitwise (hop : op ∈ [OpCode.BitAnd, .BitOr, .BitXor, .Shl, .Shr, .Ushr])
    (ha : holdsType .INT a = true) (hb : holdsType .INT b = true) :
    YieldsType .INT (mir.executeBinary library memory op a b) := by
  have hshift (f : Int64 → Int64 → Int64) (x y : Int64) : YieldsType .INT (shift f x y) := by
    unfold shift
    split
    · show decide (shiftError = shiftError) = true
      exact decide_eq_true rfl
    · rfl
  cases a with
  | int x =>
    cases b with
    | int y =>
      simp only [List.mem_cons, List.not_mem_nil, or_false] at hop
      obtain rfl | rfl | rfl | rfl | rfl | rfl := hop
      case inl | inr.inl | inr.inr.inl => rfl
      · exact hshift (fun x y => (x.toUInt64 <<< y.toUInt64).toInt64) x y
      · exact hshift shiftRightArithmetic x y
      · exact hshift (fun x y => (x.toUInt64 >>> y.toUInt64).toInt64) x y
    | _ => cases hb
  | _ => cases ha

theorem yieldsType_ordered (hop : op ∈ [OpCode.Lt, .Gt, .Lte, .Gte]) (ha : isNumericValue a = true)
    (hb : isNumericValue b = true) :
    YieldsType .BOOL (mir.executeBinary library memory op a b) := by
  have hexecute : mir.executeBinary library memory op a b = binaryCompare memory op a b := by
    simp only [List.mem_cons, List.not_mem_nil, or_false] at hop
    obtain rfl | rfl | rfl | rfl := hop <;> rfl
  have hequality : ¬(op = .Eq ∨ op = .Neq) := by
    rintro (rfl | rfl) <;> simp at hop
  have hordered (cmp : Int) : YieldsType .BOOL (orderedResult op cmp) := by
    unfold orderedResult
    split
    · rfl
    · simp only [List.mem_cons, List.not_mem_nil, or_false] at hop
      obtain rfl | rfl | rfl | rfl := hop <;> rfl
  have hcompare : ∃ cmp, compareNumericValues a b = .ok cmp := by
    unfold compareNumericValues
    rw [if_neg (by simp [ha, hb])]
    cases a <;> cases b <;> simp_all [isNumericValue, compareNumbers]
  obtain ⟨cmp, hcmp⟩ := hcompare
  rw [hexecute, binaryCompare, if_neg hequality, if_neg (by simp [ha, hb]), hcmp]
  exact hordered cmp

theorem yieldsType_equality (hop : op = .Eq ∨ op = .Neq) :
    YieldsType .BOOL (binaryCompare memory op a b) ↔ ∃ equal, valuesEqual memory a b = .ok equal := by
  unfold binaryCompare
  rw [if_pos hop]
  cases hequal : valuesEqual memory a b with
  | ok equal => exact iff_of_true rfl ⟨equal, rfl⟩
  | error e =>
    refine iff_of_false (fun h => ?_) fun ⟨_, h⟩ => nomatch h
    obtain rfl | rfl := valuesEqual_error hequal <;> nomatch h

/-- The table is right exactly where the operands suit the operator: a double on one side lets
    every type through on the other, a string may be nil, an exponent negative, and a comparison
    fail. -/
theorem binaryResult_yieldsType_iff (library : Library) (memory : Memory) (op : Operator)
    (left right type : ZlType) (a b : gc.Value)
    (h : binaryResult op left right = some type) (ha : holdsType left a = true)
    (hb : holdsType right b = true) :
    (∃ vmOp, opCode op = some vmOp ∧ YieldsType type (mir.executeBinary library memory vmOp a b)) ↔
      OperandsSuit memory op left right a b := by
  have hcode {vmOp : OpCode} (hop : opCode op = some vmOp) : (∃ vmOp, opCode op = some vmOp ∧
      YieldsType type (mir.executeBinary library memory vmOp a b)) ↔
      YieldsType type (mir.executeBinary library memory vmOp a b) := by
    rw [hop]
    exact ⟨fun ⟨_, heq, h⟩ => Option.some.inj heq ▸ h, fun h => ⟨vmOp, rfl, h⟩⟩
  cases op with
  | Plus =>
    rw [hcode rfl]
    unfold binaryResult at h
    unfold OperandsSuit
    simp only at h ⊢
    split at h
    next hstring =>
      cases h
      rw [if_pos hstring]
      exact yieldsType_concat hstring ha hb
    next hstring =>
      rw [if_neg hstring]
      exact yieldsType_promoted (by decide) h ha hb
  | Minus => exact (hcode rfl).trans (yieldsType_promoted (by decide) h ha hb)
  | Multiply => exact (hcode rfl).trans (yieldsType_promoted (by decide) h ha hb)
  | Divide => exact (hcode rfl).trans (yieldsType_promoted (by decide) h ha hb)
  | Modulo => exact (hcode rfl).trans (yieldsType_promoted (by decide) h ha hb)
  | Power =>
    rw [hcode rfl]
    unfold binaryResult at h
    simp only at h
    split at h
    next hints =>
      cases h
      exact yieldsType_pow (by rw [if_pos hints]) (hints.1 ▸ rfl) (hints.2 ▸ rfl) ha hb
    next hints =>
      split at h
      next hnumbers =>
        cases h
        obtain ⟨hleft, hright⟩ := Bool.and_eq_true_iff.mp hnumbers
        exact yieldsType_pow (by rw [if_neg hints]) hleft hright ha hb
      next => nomatch h
  | BitAnd | BitOr | BitXor | ShiftLeft | ShiftRight | ShiftRightZero =>
    unfold binaryResult at h
    simp only at h
    split at h
    next hints =>
      cases h
      refine (hcode rfl).trans (iff_of_true ?_ trivial)
      exact yieldsType_bitwise (by decide) (hints.1 ▸ ha) (hints.2 ▸ hb)
    next => nomatch h
  | Equal =>
    cases h
    exact (hcode rfl).trans (yieldsType_equality (.inl rfl))
  | NotEqual =>
    cases h
    exact (hcode rfl).trans (yieldsType_equality (.inr rfl))
  | Less | Greater | LessEqual | GreaterEqual =>
    unfold binaryResult at h
    simp only at h
    split at h
    next hnumbers =>
      cases h
      obtain ⟨hleft, hright⟩ := Bool.and_eq_true_iff.mp hnumbers
      refine (hcode rfl).trans (iff_of_true ?_ trivial)
      exact yieldsType_ordered (by decide) (numeric_of_isNumber hleft ha) (numeric_of_isNumber hright hb)
    next => nomatch h
  | LogicalAnd | LogicalOr =>
    cases h
    exact iff_of_true ⟨_, rfl, rfl⟩ trivial
  | Not | BitNot | Unknown => nomatch h

theorem binaryResult_yieldsType_iff_intDouble :
    (∃ vmOp, opCode .Plus = some vmOp ∧
      YieldsType .DOUBLE (mir.executeBinary mir.foldLibrary mir.foldMemory vmOp (.int 1)
      (.double 0))) ↔ OperandsSuit mir.foldMemory .Plus .INT .DOUBLE (.int 1) (.double 0) :=
  binaryResult_yieldsType_iff mir.foldLibrary mir.foldMemory .Plus .INT .DOUBLE .DOUBLE (.int 1)
    (.double 0) rfl rfl rfl

/-- The table gives a boolean plus a double the type of a double, and the machine rejects the boolean. -/
theorem boolPlusDouble_rejected : binaryResult .Plus .BOOL .DOUBLE = some .DOUBLE ∧
    holdsType .BOOL (.bool true) = true ∧ holdsType .DOUBLE (.double 0) = true ∧ ∀ library memory,
    ¬∃ vmOp, opCode .Plus = some vmOp ∧
    YieldsType .DOUBLE (mir.executeBinary library memory vmOp (.bool true) (.double 0)) := by
  refine ⟨rfl, rfl, rfl, fun library memory h => ?_⟩
  obtain ⟨vmOp, hop, hyields⟩ := h
  cases hop
  have hrejected := @binaryArith_rejects library (.bool true) (.double 0) .Add
    (fun h => nomatch h.2) (fun h => nomatch h.1)
  change YieldsType .DOUBLE (binaryArith library .Add (.bool true) (.double 0)) at hyields
  rw [hrejected] at hyields
  nomatch hyields

end

end zl.compiler
