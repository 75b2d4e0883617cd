import Zl.Mir.FoldingAgreement

open zl.ieee zl.vm zl.vm.value

namespace zl.mir

/-- Equality of the constant pool: that of the payload, where doubles are compared bitwise. -/
def sameConstant (a b : Constant) : Bool :=
  if a.kind ≠ b.kind then false
  else match a.kind with
    | .Bool => a.boolValue == b.boolValue
    | .Int => a.intValue == b.intValue
    | .Double => a.doubleBits == b.doubleBits
    | .String => a.stringValue == b.stringValue
    | .Nil => true
    | .EnumMember => a.enumTypeName == b.enumTypeName && a.stringValue == b.stringValue

def internConstant (module : Module) (value : Constant) : Module × ConstId :=
  match module.constants.findIdx? (sameConstant value) with
  | some i => (module, i + 1)
  | none => ({ module with constants := module.constants ++ [value] }, module.constants.length + 1)

def definingInstruction (function : Function) (value : Option ValueId) : Option Instruction :=
  match value with
  | some (.temp id) =>
    (function.blocks.flatMap (·.instructions)).find? fun instruction =>
      instruction.result != kNoTemp && instruction.result == id
  | _ => none

section
variable (module : Module)

def isIntConstant (operand : Operand) (value : Int64) : Bool :=
  (constantOperand module operand).any fun constant => constant.kind == .Int && constant.int == value

def isDoubleConstant (operand : Operand) (value : Binary64) : Bool :=
  (constantOperand module operand).any fun constant =>
    constant.kind == .Double && constant.double.beq value

/-- The operand of a negation that is negated in turn. -/
def doubleNegation (function : Function) (instruction : Instruction) : Option Operand :=
  match instruction.operands with
  | [inner] =>
    if (instruction.opcode = .Neg ∨ instruction.opcode = .Not) ∧ inner.kind = .Temp then
      match definingInstruction function (valueOf inner) with
      | some definition =>
        match definition.operands with
        | [operand] => if definition.opcode = instruction.opcode ∧
            operand.type = instruction.resultType then some operand else none
        | _ => none
      | none => none
    else none
  | _ => none

/-- An operand that names a constant of the module, which may be new. -/
def constantResult (value : Constant) (type : TypeId) : Module × Operand :=
  let (module, id) := internConstant module value
  (module, .constant id type)

def intIdentity (types : TypeTable) (op : Opcode) (left right : Operand) : Option (Module × Operand) :=
  let zero := constantResult module (makeInt 0) types.intType
  match op with
  | .Add =>
    if isIntConstant module left 0 then some (module, right)
    else if isIntConstant module right 0 then some (module, left)
    else none
  | .Sub =>
    if isIntConstant module right 0 then some (module, left)
    else if left = right then some zero
    else none
  | .Mul =>
    if isIntConstant module left 1 then some (module, right)
    else if isIntConstant module right 1 then some (module, left)
    else if isIntConstant module left 0 then some (module, left)
    else if isIntConstant module right 0 then some (module, right)
    else none
  | .Div => if isIntConstant module right 1 then some (module, left) else none
  | .Mod => if isIntConstant module right 1 then some zero else none
  | .BitAnd =>
    if isIntConstant module left (-1) then some (module, right)
    else if isIntConstant module right (-1) then some (module, left)
    else if isIntConstant module left 0 then some (module, left)
    else if isIntConstant module right 0 then some (module, right)
    else if left = right then some (module, left)
    else none
  | .BitOr =>
    if isIntConstant module left 0 then some (module, right)
    else if isIntConstant module right 0 then some (module, left)
    else if isIntConstant module left (-1) then some (module, left)
    else if isIntConstant module right (-1) then some (module, right)
    else if left = right then some (module, left)
    else none
  | .BitXor =>
    if isIntConstant module left 0 then some (module, right)
    else if isIntConstant module right 0 then some (module, left)
    else if left = right then some zero
    else none
  | .Shl | .Shr | .Ushr => if isIntConstant module right 0 then some (module, left) else none
  | _ => none

/-- The opcodes whose identities are for integers, and those that also have some for doubles. -/
def hasIntIdentity : Opcode → Bool
  | .Add | .Sub | .Mul | .Div | .Mod | .BitAnd | .BitOr | .BitXor | .Shl | .Shr | .Ushr => true
  | _ => false

def hasDoubleIdentity : Opcode → Bool
  | .Mul | .Div | .Sub => true
  | _ => false

def doubleIdentity (op : Opcode) (left right : Operand) : Option (Module × Operand) :=
  match op with
  | .Mul =>
    if isDoubleConstant module left .one then some (module, right)
    else if isDoubleConstant module right .one then some (module, left)
    else none
  | .Div => if isDoubleConstant module right .one then some (module, left) else none
  | .Sub => if isDoubleConstant module right .zero then some (module, left) else none
  | _ => none

/-- Comparisons of a value with itself. -/
def selfComparison (types : TypeTable) (op : Opcode) (left right : Operand) (resultType : TypeId) :
    Option (Module × Operand) :=
  let integral := left.type = types.intType
  let boolean := left.type = types.boolType
  let answer (value : Bool) := constantResult module (makeBool value) types.boolType
  if resultType = types.boolType ∧ left = right then
    match op with
    | .Eq => if integral ∨ boolean then some (answer true) else none
    | .Ne => if integral ∨ boolean then some (answer false) else none
    | .Le | .Ge => if integral then some (answer true) else none
    | .Lt | .Gt => if integral then some (answer false) else none
    | _ => none
  else none

/-- The operand that the result of an instruction can be replaced by, in a module that may have a
    new constant. -/
def tryAlgebraicIdentity (types : TypeTable) (function : Function) (instruction : Instruction) :
    Option (Module × Operand) :=
  match instruction.operands with
  | [_] => (doubleNegation function instruction).map (module, ·)
  | [left, right] =>
    let op := instruction.opcode
    let all (type : TypeId) := left.type = type ∧ right.type = type ∧ instruction.resultType = type
    if all types.intType ∧ hasIntIdentity op then intIdentity module types op left right
    else if all types.doubleType ∧ hasDoubleIdentity op then doubleIdentity module op left right
    else selfComparison module types op left right instruction.resultType
  | _ => none

/-- The value of an operand, where the values of all but constants are given. -/
def valueIn (values : Operand → gc.Value) (operand : Operand) : gc.Value :=
  match constantOperand module operand with
  | some constant => constantValue constant
  | none => values operand

/-- The values that an operand of a type can have. An integer stays one when it is widened. -/
structure HasKind (types : TypeTable) (v : gc.Value) (type : TypeId) : Prop where
  integer : type = types.intType → isInteger v = true
  boolean : type = types.boolType → ∃ b, v = .bool b
  number : type = types.doubleType → isNumericValue v = true
  bits : ∀ bits, v = .double bits → bits < 2 ^ 64

end

/-- The instruction as it was: after the negation inside it, if it is a double one. -/
def executeOriginal (library : Library) (memory : Memory) (module : Module) (function : Function)
    (instruction : Instruction)
    (values : Operand → gc.Value) : Option (Except VmError gc.Value) :=
  match doubleNegation function instruction with
  | some operand => do
    match ← executeOperator library memory instruction.opcode [valueIn module values operand] with
    | .ok inner => executeOperator library memory instruction.opcode [inner]
    | .error e => some (.error e)
  | none => executeOperator library memory instruction.opcode
      (instruction.operands.map (valueIn module values))

/-- What is left of it: the negation inside, and the operand. -/
def executeReplaced (library : Library) (memory : Memory) (module : Module) (function : Function)
    (instruction : Instruction)
    (values : Operand → gc.Value) (replaced : Module × Operand) : Option (Except VmError gc.Value) :=
  match doubleNegation function instruction with
  | some operand => do
    match ← executeOperator library memory instruction.opcode [valueIn module values operand] with
    | .ok _ => some (.ok (valueIn replaced.1 values replaced.2))
    | .error e => some (.error e)
  | none => some (.ok (valueIn replaced.1 values replaced.2))

/-- A double that an operation with one or with zero gives back. -/
def finiteBits (bits : Nat) : Bool := (Binary64.ofBits bits).isFinite

def isNegativeZero (bits : Nat) : Bool := (Binary64.ofBits bits).isZero && (Binary64.ofBits bits).signbit

/-- The operand values for which an identity holds in the machine: two integers, or two doubles
    that are finite where they are kept, but not the difference of two negative zeros. What is
    negated twice by `not` is a bool. -/
def KeepsValue (op : Opcode) : List gc.Value → Prop
  | [a] => op = .Not → ∃ b, a = .bool b
  | [.double x, .double y] => match op with
    | .Mul => finiteBits x = true ∧ finiteBits y = true
    | .Div => finiteBits x = true
    | .Sub => finiteBits x = true ∧ ¬(isNegativeZero x = true ∧ isNegativeZero y = true)
    | _ => True
  | [.double _, .int _] | [.int _, .double _] => hasDoubleIdentity op = false
  | _ => True

/-- The values of the operands that an identity is about. -/
def identityValues (module : Module) (function : Function) (instruction : Instruction)
    (values : Operand → gc.Value) : List gc.Value :=
  match doubleNegation function instruction with
  | some operand => [valueIn module values operand]
  | none => instruction.operands.map (valueIn module values)

section
variable {library : Library} {memory : Memory} {module : Module} {values : Operand → gc.Value}
  {operand left right : Operand} {op : Opcode}
  {types : TypeTable} {replaced : Module × Operand}
variable {v : gc.Value} {operation : String} {r : Binary64} {bits : Nat}

theorem valueIn_of_constant {c : Constant} (h : constantOperand module operand = some c) :
    valueIn module values operand = constantValue c := by
  rw [valueIn, h]

theorem valueIn_intConstant {n : Int64} (h : isIntConstant module operand n = true) :
    valueIn module values operand = .int n := by
  obtain ⟨c, hc, h⟩ := (Option.any_eq_true _ _).mp h
  obtain ⟨hkind, hint⟩ := (Bool.and_eq_true _ _).mp h
  rw [valueIn_of_constant hc, constantValue_int (beq_iff_eq.mp hkind), beq_iff_eq.mp hint]

theorem valueIn_doubleConstant {d : Binary64} (h : isDoubleConstant module operand d = true) :
    ∃ bits, valueIn module values operand = .double bits ∧ (Binary64.ofBits bits).beq d = true := by
  obtain ⟨c, hc, h⟩ := (Option.any_eq_true _ _).mp h
  obtain ⟨hkind, hbeq⟩ := (Bool.and_eq_true _ _).mp h
  exact ⟨c.doubleBits, by rw [valueIn_of_constant hc, constantValue_double (beq_iff_eq.mp hkind)], hbeq⟩

theorem constantValue_congr {a b : Constant} (h : sameConstant a b = true) :
    constantValue a = constantValue b := by
  unfold sameConstant at h
  split at h
  · cases h
  next hkind =>
    have hkind : a.kind = b.kind := not_not.mp hkind
    unfold constantValue Constant.int
    rw [← hkind]
    cases hcase : a.kind <;> simp only [hcase, Bool.and_eq_true, beq_iff_eq] at h <;> simp [h]

theorem constant_internConstant (c : Constant) : ∃ c',
    (internConstant module c).1.constant (internConstant module c).2 = some c' ∧
    constantValue c' = constantValue c := by
  unfold internConstant
  split
  next i hi =>
    obtain ⟨hlt, hsame, -⟩ := List.findIdx?_eq_some_iff_getElem.mp hi
    refine ⟨module.constants[i], ?_, (constantValue_congr hsame).symm⟩
    simp [Module.constant, List.getElem?_eq_getElem hlt]
  next => exact ⟨c, by simp [Module.constant], rfl⟩

theorem valueIn_constantResult (c : Constant) (type : TypeId) :
    valueIn (constantResult module c type).1 values (constantResult module c type).2 =
      constantValue c := by
  obtain ⟨c', hc', hvalue⟩ := @constant_internConstant module c
  rw [← hvalue]
  exact valueIn_of_constant hc'

theorem exists_int (h : isInteger v = true) : ∃ n, v = .int n := by
  cases v with
  | int n => exact ⟨n, rfl⟩
  | _ => nomatch h

theorem representable_toInt (n : Int64) : representable n.toInt = some n := by
  rw [representable, if_pos ⟨n.le_toInt, n.toInt_lt⟩, Int64.ofInt_toInt]

theorem toUInt64_zero : (0 : Int64).toUInt64 = 0 := rfl

theorem executeOperator_integer {x y r : Int64} (h : foldInteger op x y = some r) :
    executeOperator library memory op [.int x, .int y] = some (.ok (.int r)) := by
  obtain ⟨vmOp, hvm, hexecute⟩ := @executeBinary_integer library memory op x y r h
  rw [executeOperator, hvm, Option.map_some, hexecute]

/-- What the operand of an identity stands for is the result of the operation. -/
theorem foldInteger_identity {x y : Int64} (hleft : valueIn module values left = .int x)
    (hright : valueIn module values right = .int y)
    (h : intIdentity module types op left right = some replaced) :
    ∃ r, foldInteger op x y = some r ∧ valueIn replaced.1 values replaced.2 = .int r := by
  have hx {n : Int64} (h : isIntConstant module left n = true) : x = n :=
    gc.Value.int.inj (hleft.symm.trans (valueIn_intConstant h))
  have hy {n : Int64} (h : isIntConstant module right n = true) : y = n :=
    gc.Value.int.inj (hright.symm.trans (valueIn_intConstant h))
  have hxy (h : left = right) : x = y := gc.Value.int.inj (hleft.symm.trans (h ▸ hright))
  have hzero : valueIn (constantResult module (makeInt 0) types.intType).1 values
      (constantResult module (makeInt 0) types.intType).2 = .int 0 :=
    (valueIn_constantResult _ _).trans (constantValue_makeInt 0)
  -- the side that is kept, or the zero that is new
  have keepLeft (hr : foldInteger op x y = some x) (h : (module, left) = replaced) :
      ∃ r, foldInteger op x y = some r ∧ valueIn replaced.1 values replaced.2 = .int r :=
        ⟨x, hr, h ▸ hleft⟩
  have keepRight (hr : foldInteger op x y = some y) (h : (module, right) = replaced) :
      ∃ r, foldInteger op x y = some r ∧ valueIn replaced.1 values replaced.2 = .int r :=
        ⟨y, hr, h ▸ hright⟩
  have giveZero (hr : foldInteger op x y = some 0)
    (h : constantResult module (makeInt 0) types.intType = replaced) :
      ∃ r, foldInteger op x y = some r ∧ valueIn replaced.1 values replaced.2 = .int r := ⟨0, hr, h ▸ hzero⟩
  cases op <;> simp only [intIdentity, reduceCtorEq] at h
  case Add =>
    split at h
    next hl =>
      exact keepRight (by simp [hx hl, foldInteger, addChecked, representable_toInt])
        (Option.some.inj h)
    next =>
      obtain ⟨hr, h⟩ := Option.ite_none_right_eq_some.mp h
      exact keepLeft (by simp [hy hr, foldInteger, addChecked, representable_toInt]) (Option.some.inj h)
  case Sub =>
    split at h
    next hr =>
      exact keepLeft (by simp [hy hr, foldInteger, subChecked, representable_toInt])
        (Option.some.inj h)
    next =>
      obtain ⟨hsame, h⟩ := Option.ite_none_right_eq_some.mp h
      exact giveZero (by simp [hxy hsame, foldInteger, subChecked, representable]) (Option.some.inj h)
  case Mul =>
    split at h
    next hl =>
      exact keepRight (by simp [hx hl, foldInteger, mulChecked, representable_toInt])
        (Option.some.inj h)
    next =>
      split at h
      next hr =>
        exact keepLeft (by simp [hy hr, foldInteger, mulChecked, representable_toInt])
          (Option.some.inj h)
      next =>
        split at h
        next hl =>
          exact keepLeft (by simp [hx hl, foldInteger, mulChecked, representable])
            (Option.some.inj h)
        next =>
          obtain ⟨hr, h⟩ := Option.ite_none_right_eq_some.mp h
          exact keepRight (by simp [hy hr, foldInteger, mulChecked, representable]) (Option.some.inj h)
  case Div =>
    obtain ⟨hr, h⟩ := Option.ite_none_right_eq_some.mp h
    exact keepLeft (by simp [hy hr, foldInteger]) (Option.some.inj h)
  case Mod =>
    obtain ⟨hr, h⟩ := Option.ite_none_right_eq_some.mp h
    exact giveZero (by simp [hy hr, foldInteger]) (Option.some.inj h)
  case BitAnd =>
    split at h
    next hl => exact keepRight (by simp [hx hl, foldInteger]) (Option.some.inj h)
    next =>
      split at h
      next hr => exact keepLeft (by simp [hy hr, foldInteger]) (Option.some.inj h)
      next =>
        split at h
        next hl => exact keepLeft (by simp [hx hl, foldInteger]) (Option.some.inj h)
        next =>
          split at h
          next hr => exact keepRight (by simp [hy hr, foldInteger]) (Option.some.inj h)
          next =>
            obtain ⟨hsame, h⟩ := Option.ite_none_right_eq_some.mp h
            exact keepLeft (by simp [hxy hsame, foldInteger]) (Option.some.inj h)
  case BitOr =>
    split at h
    next hl => exact keepRight (by simp [hx hl, foldInteger]) (Option.some.inj h)
    next =>
      split at h
      next hr => exact keepLeft (by simp [hy hr, foldInteger]) (Option.some.inj h)
      next =>
        split at h
        next hl => exact keepLeft (by simp [hx hl, foldInteger]) (Option.some.inj h)
        next =>
          split at h
          next hr => exact keepRight (by simp [hy hr, foldInteger]) (Option.some.inj h)
          next =>
            obtain ⟨hsame, h⟩ := Option.ite_none_right_eq_some.mp h
            exact keepLeft (by simp [hxy hsame, foldInteger]) (Option.some.inj h)
  case BitXor =>
    split at h
    next hl => exact keepRight (by simp [hx hl, foldInteger]) (Option.some.inj h)
    next =>
      split at h
      next hr => exact keepLeft (by simp [hy hr, foldInteger]) (Option.some.inj h)
      next =>
        obtain ⟨hsame, h⟩ := Option.ite_none_right_eq_some.mp h
        exact giveZero (by simp [hxy hsame, foldInteger]) (Option.some.inj h)
  case Shl =>
    obtain ⟨hr, h⟩ := Option.ite_none_right_eq_some.mp h
    exact keepLeft (by simp [hy hr, foldInteger, toUInt64_zero]) (Option.some.inj h)
  case Shr =>
    obtain ⟨hr, h⟩ := Option.ite_none_right_eq_some.mp h
    exact keepLeft (by simp [hy hr, foldInteger, shiftRightArithmetic, toUInt64_zero]) (Option.some.inj h)
  case Ushr =>
    obtain ⟨hr, h⟩ := Option.ite_none_right_eq_some.mp h
    exact keepLeft (by simp [hy hr, foldInteger, toUInt64_zero]) (Option.some.inj h)

theorem ofBits_inj {x y : Nat} (hx : x < 2 ^ 64) (hy : y < 2 ^ 64) :
    Binary64.ofBits x = Binary64.ofBits y ↔ x = y := by
  refine ⟨fun h => ?_, congrArg _⟩
  rw [← Binary64.toBits_ofBits hx, h, Binary64.toBits_ofBits hy]

theorem checkedDoubleResult_iff (hbits : bits < 2 ^ 64) :
    checkedDoubleResult r operation = .ok (.double bits) ↔ r.isFinite = true ∧ r = .ofBits bits := by
  unfold checkedDoubleResult
  rw [Binary64.isFinite_iff]
  split
  next hinf => simp [hinf]
  next hinf =>
    split
    next hnan => simp [hnan]
    next hnan =>
      have hr : r.toBits = bits ↔ r = .ofBits bits := by
        rw [← ofBits_inj r.toBits_lt hbits, Binary64.ofBits_toBits]
      simpa [Bool.not_eq_true _ ▸ hinf, Bool.not_eq_true _ ▸ hnan] using hr

theorem checkedDoubleResult_ne_int {n : Int64} :
    checkedDoubleResult r operation ≠ .ok (.int n) := by
  unfold checkedDoubleResult
  split
  · exact nofun
  · split <;> exact nofun

/-- The operand that is kept has the result as its value if it is finite, and if the result is the
    operand then. -/
theorem kept_iff {p : Prop} (hbits : bits < 2 ^ 64)
    (hfinite : finiteBits bits = true → (r = .ofBits bits ↔ p))
    (hinfinite : finiteBits bits = false → r.isFinite = false) :
    checkedDoubleResult r operation = .ok (.double bits) ↔ finiteBits bits = true ∧ p := by
  rw [checkedDoubleResult_iff hbits]
  cases hcase : finiteBits bits with
  | true =>
    refine ⟨fun h => ⟨rfl, (hfinite hcase).mp h.2⟩, fun h => ?_⟩
    have hr := (hfinite hcase).mpr h.2
    exact ⟨hr ▸ hcase, hr⟩
  | false => simp [hinfinite hcase]

theorem executeOperator_doubleArith {vmOp : OpCode} {v w : gc.Value} {x y : Binary64}
    (hop : vmBinaryOp op = some vmOp)
    (harith : vmOp = .Add ∨ vmOp = .Sub ∨ vmOp = .Mul ∨ vmOp = .Div ∨ vmOp = .Mod)
    (hv : toDouble v = .ok x) (hw : toDouble w = .ok y)
    (hdouble : (isInteger v && isInteger w) = false) : executeOperator library memory op [v, w] =
      some (doubleArith vmOp x y) := by
  have hnumber {v : gc.Value} {x : Binary64} (h : toDouble v = .ok x) : isStringValue v = false ∧
      isNumericValue v = true := by
    cases v with
    | int | double => exact ⟨rfl, rfl⟩
    | _ => cases h
  have hexecute : executeBinary library memory vmOp v w = binaryArith library vmOp v w := by
    rcases harith with rfl | rfl | rfl | rfl | rfl <;> rfl
  have hpow : vmOp ≠ .Pow := by
    rcases harith with rfl | rfl | rfl | rfl | rfl <;> decide
  rw [executeOperator, hop, Option.map_some, hexecute]
  unfold binaryArith
  rw [if_neg (by simp [hnumber hv, hnumber hw]), if_neg (by simp [hnumber hv, hnumber hw]),
    if_neg hpow, hv, hw]
  cases v with
  | int n =>
    cases w with
    | int m => cases hdouble
    | double bits => rfl
    | _ => cases hw
  | double bits => rfl
  | _ => cases hv

section
variable {v : gc.Value} {k : Nat} (hv : isNumericValue v = true)
  (hbits : ∀ bits, v = .double bits → bits < 2 ^ 64)

include hv hbits

/-- An operation of a number with a double, as a check of one result. -/
theorem executed_iff (operation : String) (r : Binary64 → Binary64) (p : Nat → Prop) {w w' : gc.Value}
    (hexecute : ∀ x, toDouble v = .ok x →
      executeOperator library memory op [w, w'] = some (checkedDoubleResult (r x) operation))
    (hfinite : ∀ x, x.isFinite = true → (r x = x ↔ p x.toBits))
    (hinfinite : ∀ x, x.isFinite = false → (r x).isFinite = false) :
    executeOperator library memory op [w, w'] = some (.ok v) ↔ ∃ bits, v = .double bits ∧
      finiteBits bits = true ∧ p bits := by
  cases v with
  | int n =>
    rw [hexecute _ rfl]
    exact iff_of_false (fun h => checkedDoubleResult_ne_int (Option.some.inj h))
      (fun ⟨_, h, _⟩ => nomatch h)
  | double bits =>
    have hbits := hbits bits rfl
    rw [hexecute _ rfl, Option.some_inj, kept_iff hbits (p := p bits) (fun h => ?_) (hinfinite _)]
    · simp
    · rw [hfinite _ h, Binary64.toBits_ofBits hbits]
  | _ => nomatch hv

end

theorem isInteger_and_double :
    (isInteger v && isInteger (.double bits)) = false := Bool.and_false _

theorem keepsValue_left {k : Nat} (hop : hasDoubleIdentity op = true) (hv : isNumericValue v = true) :
    KeepsValue op [v, .double k] ↔ ∃ bits, v = .double bits ∧
      KeepsValue op [.double bits, .double k] := by
  cases v with
  | int n => exact iff_of_false (fun h => nomatch hop.symm.trans h) (fun ⟨_, h, _⟩ => nomatch h)
  | double bits => simp
  | _ => nomatch hv

theorem keepsValue_right {k : Nat} (hop : hasDoubleIdentity op = true) (hv : isNumericValue v = true) :
    KeepsValue op [.double k, v] ↔ ∃ bits, v = .double bits ∧
      KeepsValue op [.double k, .double bits] := by
  cases v with
  | int n => exact iff_of_false (fun h => nomatch hop.symm.trans h) (fun ⟨_, h, _⟩ => nomatch h)
  | double bits => simp
  | _ => nomatch hv

/-- An identity of doubles gives the result where the operands are as it needs them. -/
theorem executeOperator_doubleIdentity (hleft : isNumericValue (valueIn module values left) = true)
    (hright : isNumericValue (valueIn module values right) = true)
    (hbits : ∀ bits, valueIn module values left = .double bits → bits < 2 ^ 64)
    (hbits' : ∀ bits, valueIn module values right = .double bits → bits < 2 ^ 64)
    (h : doubleIdentity module op left right = some replaced) :
    executeOperator library memory op [valueIn module values left, valueIn module values right] =
      some (.ok (valueIn replaced.1 values replaced.2)) ↔
      KeepsValue op [valueIn module values left, valueIn module values right] := by
  have hfinite {k : Nat} (hone : Binary64.ofBits k = .one) : finiteBits k = true := by
    rw [finiteBits, hone, Binary64.isFinite_one]
  cases op <;> simp only [doubleIdentity, reduceCtorEq] at h
  case Mul =>
    split at h
    next hl =>
      obtain ⟨k, hk, hbeq⟩ := @valueIn_doubleConstant module values _ _ hl
      have hone := Binary64.eq_one_of_beq hbeq
      rw [← Option.some.inj h, hk, keepsValue_right rfl hright]
      refine (executed_iff hright hbits' "multiplication" (fun x => (Binary64.ofBits k).mul x)
        (fun _ => True) (fun x hx => ?_) (fun x hx => ?_) fun x hx => ?_).trans ?_
      · exact executeOperator_doubleArith rfl (.inr (.inr (.inl rfl))) rfl hx rfl
      · rw [hone, Binary64.one_mul hx]
        simp
      · rw [hone, Binary64.mul_comm, Binary64.isFinite_mul_one hx]
      · simp [KeepsValue, hfinite hone]
    next =>
      obtain ⟨hr, h⟩ := Option.ite_none_right_eq_some.mp h
      obtain ⟨k, hk, hbeq⟩ := @valueIn_doubleConstant module values _ _ hr
      have hone := Binary64.eq_one_of_beq hbeq
      rw [← Option.some.inj h, hk, keepsValue_left rfl hleft]
      refine (executed_iff hleft hbits "multiplication" (fun x => x.mul (.ofBits k)) (fun _ => True)
        (fun x hx => ?_) (fun x hx => ?_) fun x hx => ?_).trans ?_
      · exact executeOperator_doubleArith rfl (.inr (.inr (.inl rfl))) hx rfl isInteger_and_double
      · rw [hone, Binary64.mul_one hx]
        simp
      · rw [hone, Binary64.isFinite_mul_one hx]
      · simp [KeepsValue, hfinite hone]
  case Div =>
    obtain ⟨hr, h⟩ := Option.ite_none_right_eq_some.mp h
    obtain ⟨k, hk, hbeq⟩ := @valueIn_doubleConstant module values _ _ hr
    have hone := Binary64.eq_one_of_beq hbeq
    have hzero : ¬(Binary64.ofBits k).beq .zero = true := by
      rw [hone]
      decide +kernel
    rw [← Option.some.inj h, hk, keepsValue_left rfl hleft]
    refine (executed_iff hleft hbits "division" (fun x => x.div (.ofBits k)) (fun _ => True)
      (fun x hx => ?_) (fun x hx => ?_) fun x hx => ?_).trans ?_
    · rw [executeOperator_doubleArith rfl (.inr (.inr (.inr (.inl rfl)))) hx rfl
        isInteger_and_double, doubleArith, if_neg hzero]
    · rw [hone, Binary64.div_one hx]
      simp
    · rw [hone, Binary64.isFinite_div_one hx]
    · simp [KeepsValue]
  case Sub =>
    obtain ⟨hr, h⟩ := Option.ite_none_right_eq_some.mp h
    obtain ⟨k, hk, hbeq⟩ := @valueIn_doubleConstant module values _ _ hr
    have hzero := Binary64.isZero_of_beq hbeq
    rw [← Option.some.inj h, hk, keepsValue_left rfl hleft]
    refine (executed_iff hleft hbits "subtraction" (fun x => x.sub (.ofBits k))
      (fun bits => ¬(isNegativeZero bits = true ∧ isNegativeZero k = true)) (fun x hx => ?_)
        (fun x hx => ?_) fun x hx => Binary64.isFinite_sub_zero hx hzero).trans ?_
    · exact executeOperator_doubleArith rfl (.inr (.inl rfl)) hx rfl isInteger_and_double
    · rw [isNegativeZero, Binary64.ofBits_toBits, isNegativeZero, Bool.and_eq_true, Bool.and_eq_true]
      refine ⟨fun heq hnot => Binary64.sub_negative_zeros hnot.1.1 hzero hnot.1.2 hnot.2.2 heq,
        fun hnot => ?_⟩
      refine Binary64.sub_zero hx hzero fun hx' hsign => ?_
      rw [← Bool.not_eq_true]
      exact fun hy => hnot ⟨⟨hx', hsign⟩, hzero, hy⟩
    · simp [KeepsValue]

theorem executeOperator_selfComparison {type : TypeId}
    (hkind : HasKind types (valueIn module values left) left.type)
    (h : selfComparison module types op left right type = some replaced) :
    executeOperator library memory op [valueIn module values left, valueIn module values right] =
      some (.ok (valueIn replaced.1 values replaced.2)) ∧
      KeepsValue op [valueIn module values left, valueIn module values right] := by
  have hanswer {value : Bool} (h : constantResult module (makeBool value) types.boolType = replaced) :
      valueIn replaced.1 values replaced.2 = .bool value := by
    rw [← h]
    exact valueIn_constantResult _ _
  have hequal {v : gc.Value} (hv : isInteger v = true ∨ ∃ b, v = .bool b) :
      valuesEqual memory v v = .ok true := by
    rcases hv with hv | ⟨b, rfl⟩
    · cases v with
      | int n => simp [valuesEqual, plainValuesEqual, isNumericValue, isNaNValue, compareNumbers,
          value.orderOf, Except.map]
      | _ => cases hv
    · simp [valuesEqual, plainValuesEqual, isNumericValue]
  have hcompare {v : gc.Value} (hv : isInteger v = true) : isNumericValue v = true ∧
      compareNumericValues v v = .ok 0 := by
    cases v with
    | int n => simp [isNumericValue, compareNumericValues, compareNumbers, value.orderOf]
    | _ => cases hv
  have hkeeps {v : gc.Value} (hv : isInteger v = true ∨ ∃ b, v = .bool b) : KeepsValue op [v, v] := by
    rcases hv with hv | ⟨b, rfl⟩
    · cases v with
      | int n => trivial
      | _ => cases hv
    · trivial
  unfold selfComparison at h
  obtain ⟨⟨-, hsame⟩, hanswers⟩ := Option.ite_none_right_eq_some.mp h
  subst hsame
  have hscalar (hor : left.type = types.intType ∨ left.type = types.boolType) :=
    hor.imp hkind.integer hkind.boolean
  have hordered {vmOp : OpCode} (hvm : vmBinaryOp op = some vmOp) (hop : isOrdering vmOp = true)
    (hint : left.type = types.intType) :
      executeOperator library memory op [valueIn module values left, valueIn module values left] =
        some (orderedResult vmOp 0) := by
    obtain ⟨hnumeric, hcmp⟩ := hcompare (hkind.integer hint)
    have hexecute : executeBinary library memory vmOp (valueIn module values left)
        (valueIn module values left) = binaryCompare memory vmOp (valueIn module values left)
        (valueIn module values left) := by
      cases vmOp <;> first | rfl | cases hop
    rw [executeOperator, hvm, Option.map_some, hexecute,
      binaryCompare_ordering hnumeric hnumeric hop hcmp]
  clear h
  cases op <;> simp only [Option.ite_none_right_eq_some, Option.some.injEq, reduceCtorEq] at hanswers
  case Eq =>
    refine ⟨?_, hkeeps (hscalar hanswers.1)⟩
    rw [hanswer hanswers.2]
    change some (binaryCompare memory .Eq _ _) = _
    rw [binaryCompare, if_pos (.inl rfl), hequal (hscalar hanswers.1)]
    rfl
  case Ne =>
    refine ⟨?_, hkeeps (hscalar hanswers.1)⟩
    rw [hanswer hanswers.2]
    change some (binaryCompare memory .Neq _ _) = _
    rw [binaryCompare, if_pos (.inr rfl), hequal (hscalar hanswers.1)]
    rfl
  case Lt => exact ⟨(@hordered .Lt rfl rfl hanswers.1).trans (by rw [hanswer hanswers.2]; rfl),
      hkeeps (.inl (hkind.integer hanswers.1))⟩
  case Le => exact ⟨(@hordered .Lte rfl rfl hanswers.1).trans (by rw [hanswer hanswers.2]; rfl),
      hkeeps (.inl (hkind.integer hanswers.1))⟩
  case Gt => exact ⟨(@hordered .Gt rfl rfl hanswers.1).trans (by rw [hanswer hanswers.2]; rfl),
      hkeeps (.inl (hkind.integer hanswers.1))⟩
  case Ge => exact ⟨(@hordered .Gte rfl rfl hanswers.1).trans (by rw [hanswer hanswers.2]; rfl),
      hkeeps (.inl (hkind.integer hanswers.1))⟩

theorem unary_neg_neg {a b : gc.Value} (hbits : ∀ bits, a = .double bits → bits < 2 ^ 64)
    (h : unary memory .Neg a = .ok b) :
    unary memory .Neg b = .ok a := by
  cases a with
  | int n =>
    rw [unary] at h
    split at h
    next => nomatch h
    next hmin =>
      rw [← Except.ok.inj h, unary, if_neg fun hneg => hmin ?_, Int64.neg_neg]
      rw [← @Int64.neg_neg n, hneg]
      rfl
  | double bits =>
    rw [← Except.ok.inj h, unary, Binary64.ofBits_toBits, Binary64.neg_neg,
      Binary64.toBits_ofBits (hbits bits rfl)]
  | _ => nomatch h

theorem doubleNegation_opcode {function : Function} {instruction : Instruction}
    (h : doubleNegation function instruction = some operand) :
    instruction.opcode = .Neg ∨ instruction.opcode = .Not := by
  unfold doubleNegation at h
  split at h
  · exact (Option.ite_none_right_eq_some.mp h).1.1
  · nomatch h

theorem executeOriginal_negation {function : Function} {instruction : Instruction}
    (hnegation : doubleNegation function instruction = some operand)
    (hbits : ∀ bits, valueIn module values operand = .double bits → bits < 2 ^ 64) :
    executeOriginal library memory module function instruction values =
        executeReplaced library memory module function instruction values (module, operand) ↔
      KeepsValue instruction.opcode [valueIn module values operand] := by
  unfold executeOriginal executeReplaced
  rw [hnegation]
  dsimp only
  generalize valueIn module values operand = a at *
  rcases doubleNegation_opcode hnegation with hop | hop
  · have hexecute (a : gc.Value) : executeOperator library memory .Neg [a] =
      some (unary memory .Neg a) := rfl
    rw [hop]
    simp only [hexecute, Option.bind_eq_bind, Option.bind_some]
    refine iff_of_true ?_ nofun
    cases hinner : unary memory .Neg a with
    | error e => rfl
    | ok inner => exact congrArg some (unary_neg_neg hbits hinner)
  · have hexecute (a : gc.Value) : executeOperator library memory .Not [a] =
      some (.ok (.bool !value.isTruthy memory a)) := rfl
    rw [hop]
    simp only [hexecute, Option.bind_eq_bind, Option.bind_some, Option.some.injEq, Except.ok.injEq,
      value.isTruthy, Bool.not_not]
    constructor
    · exact fun h _ => ⟨_, h.symm⟩
    · intro h
      obtain ⟨b, rfl⟩ := h rfl
      rfl

/-- An instruction can be replaced as it is, exactly if its operands have the values that the
    identity needs. -/
theorem tryAlgebraicIdentity_iff (types : TypeTable) (library : Library) (memory : Memory)
    (module : Module) (function : Function)
    (instruction : Instruction) (values : Operand → gc.Value) (replaced : Module × Operand)
    (hkind : ∀ operand ∈ instruction.operands ++ (doubleNegation function instruction).toList,
      HasKind types (valueIn module values operand) operand.type)
    (h : tryAlgebraicIdentity module types function instruction = some replaced) :
    executeOriginal library memory module function instruction values =
        executeReplaced library memory module function instruction values replaced ↔
      KeepsValue instruction.opcode (identityValues module function instruction values) := by
  unfold tryAlgebraicIdentity at h
  split at h
  next inner hoperands =>
    obtain ⟨operand, hnegation, rfl⟩ := Option.map_eq_some_iff.mp h
    rw [identityValues, hnegation]
    exact executeOriginal_negation hnegation (hkind operand (by simp [hnegation])).bits
  next left right hoperands =>
    have hnegation : doubleNegation function instruction = none := by rw [doubleNegation, hoperands]
    unfold executeOriginal executeReplaced identityValues
    rw [hnegation, hoperands]
    have hleft := hkind left (by simp [hoperands])
    have hright := hkind right (by simp [hoperands])
    rw [List.map_cons, List.map_cons, List.map_nil]
    dsimp only at h
    split at h
    next hints =>
      obtain ⟨⟨htype, htype', -⟩, -⟩ := hints
      obtain ⟨x, hx⟩ := exists_int (hleft.integer htype)
      obtain ⟨y, hy⟩ := exists_int (hright.integer htype')
      obtain ⟨r, hr, hvalue⟩ := foldInteger_identity hx hy h
      rw [hx, hy, hvalue]
      exact iff_of_true (executeOperator_integer hr) trivial
    next =>
      split at h
      next hdoubles =>
        obtain ⟨⟨htype, htype', -⟩, -⟩ := hdoubles
        exact executeOperator_doubleIdentity (hleft.number htype)
          (hright.number htype') hleft.bits hright.bits h
      next =>
        obtain ⟨hexecute, hkeeps⟩ :=
          @executeOperator_selfComparison library memory module values left right _ _ _ _ hleft h
        exact iff_of_true hexecute hkeeps
  next => nomatch h

end

def timesOne : Instruction :=
  { opcode := .Mul, result := 1, resultType := 3, operands := [.param 0 3, .constant 1 3] }

def timesOneModule : Module := { constants := [makeDouble .one] }

def timesOneFunction : Function :=
  { name := "identity", parameters := [{ name := "x", type := 3 }], returnType := 3, entryBlock := 0,
    blocks :=
      [{ id := 0, instructions := [timesOne], terminator := { kind := .Return, value := .temp 1 3 } }] }

def infinite : gc.Value := .double (Binary64.infinity false).toBits

theorem hasKind_double {bits : Nat} (h : bits < 2 ^ 64) : HasKind foldTypes (.double bits) 3 :=
  { integer := nofun, boolean := nofun, number := fun _ => rfl,
    bits := fun _ heq => gc.Value.double.inj heq ▸ h }

theorem timesOne_kinds :
    ∀ operand ∈ timesOne.operands ++ (doubleNegation timesOneFunction timesOne).toList,
      HasKind foldTypes (valueIn timesOneModule (fun _ => infinite) operand) operand.type := by
  intro operand hoperand
  rcases List.mem_append.mp hoperand with hoperand | hoperand
  · rcases List.mem_pair.mp hoperand with rfl | rfl
    · exact hasKind_double (Binary64.toBits_lt _)
    · exact hasKind_double (Binary64.toBits_lt _)
  · nomatch hoperand

theorem tryAlgebraicIdentity_iff_timesOne :
    executeOriginal foldLibrary foldMemory timesOneModule timesOneFunction timesOne (fun _ => infinite) =
        executeReplaced foldLibrary foldMemory timesOneModule timesOneFunction timesOne
        (fun _ => infinite) (timesOneModule, .param 0 3) ↔
      KeepsValue .Mul (identityValues timesOneModule timesOneFunction timesOne fun _ => infinite) :=
  tryAlgebraicIdentity_iff foldTypes foldLibrary foldMemory timesOneModule timesOneFunction timesOne
    (fun _ => infinite) _
    timesOne_kinds (by decide +kernel)

/-- The product of an infinity with one raises, and the infinity that replaces it does not. -/
theorem timesOne_replaced : ¬∀ types library memory module function instruction values replaced,
    (∀ operand ∈ instruction.operands ++ (doubleNegation function instruction).toList,
      HasKind types (valueIn module values operand) operand.type) →
    tryAlgebraicIdentity module types function instruction = some replaced →
      executeOriginal library memory module function instruction values =
        executeReplaced library memory module function instruction values replaced := by
  intro h
  have hsame := h foldTypes foldLibrary foldMemory timesOneModule timesOneFunction timesOne
    (fun _ => infinite) (timesOneModule, .param 0 3)
    timesOne_kinds (by decide +kernel)
  have hraises : executeOriginal foldLibrary foldMemory timesOneModule timesOneFunction timesOne
    (fun _ => infinite) = some (.error
    (.arithmetic "floating-point overflow in multiplication")) := by decide +kernel
  nomatch hraises.symm.trans hsame

end zl.mir
