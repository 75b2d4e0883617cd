import Zl.Mir.Interpreter
import Zl.Mir.Verifier.CheckedOperands
import Zl.Mir.Simplify.Algebraic

open zl.ieee zl.vm zl.vm.value zl.mir.interpreter

namespace zl.mir

section
variable (types : TypeTable) (library : Library) (module : Module)

def intAt (instruction : Instruction) (index : Nat) : Option Int64 := do
  let constant ← constantOperand module (← instruction.operands[index]?)
  if constant.kind = .Int then some constant.int else none

/-- Whether this operation can raise, as far as its constants and the types of its operands tell. -/
def operationCanRaise (instruction : Instruction) : Bool :=
  let int := intAt module instruction
  let typed (type : TypeId) (operand : Operand) : Bool := operand.type = type
  if instruction.result = kNoTemp then true
  else if (foldInstruction types library module instruction).isSome then false
  else match instruction.opcode with
    | .Add =>
      !(instruction.operands.length == 2 && instruction.operands.any (typed types.stringType)) &&
        int 0 != some 0 && int 1 != some 0
    | .Sub => int 1 != some 0
    | .Mul => int 0 != some 0 && int 0 != some 1 && int 1 != some 0 && int 1 != some 1
    | .Div | .Mod =>
      match int 1 with
      | none => true
      | some divisor => if divisor = 0 then true else if divisor =
          -1 then (int 0).all (· == .minValue) else false
    | .Shl | .Shr | .Ushr => !(int 1).any fun count => 0 ≤ count ∧ count < 64
    | .Eq | .Ne => false
    | .Lt | .Le | .Gt | .Ge =>
      !(!instruction.operands.isEmpty && instruction.operands.all fun operand =>
        typed types.intType operand || typed types.doubleType operand)
    | _ => true

def classifyInstruction (instruction : Instruction) : EffectSet :=
  let effects := classifyOpcode instruction.opcode
  if .MayThrow ∈ effects ∧ .Pure ∈ effects ∧
    operationCanRaise types library module instruction = false then effects.filter (· ≠ .MayThrow)
  else effects

def isRemovableIfResultUnused (instruction : Instruction) : Bool :=
  instruction.result != kNoTemp && (classifyInstruction types library module instruction).all
    fun effect => effect ∈ [.Pure, .ReadsMemory]

end

/-- A number that is no infinity and no NaN. -/
def finiteNumber : gc.Value → Bool
  | .int _ => true
  | .double bits => finiteBits bits
  | _ => false

/-- What the classification takes for granted of the operand values of an instruction it finds
    removable. -/
def Fits (memory : Memory) (op : Opcode) (values : List gc.Value) : Prop :=
  match op with
  | .BitNot | .BitAnd | .BitOr | .BitXor => ∀ v ∈ values, isInteger v = true
  | .Shl | .Shr | .Ushr => ∀ v ∈ values.head?, isInteger v = true
  | .Add => (∃ v ∈ values, isStringValue v = true) ∨ .int 0 ∈ values ∧ ∀ v ∈ values, finiteNumber v = true
  | .Sub | .Mul | .Div => ∀ v ∈ values, finiteNumber v = true
  | .Mod | .Lt | .Le | .Gt | .Ge => ∀ v ∈ values, isNumericValue v = true
  | .Eq | .Ne => ∀ a b, values = [a, b] → ∃ equal, valuesEqual memory a b = .ok equal
  | _ => True

section
variable {library : Library} {memory : Memory} {op : Opcode} {a b : gc.Value} {c d e : Constant}
  {x y : Binary64}
variable {n : Int64} {vmOp : OpCode}

theorem checkedDoubleResult_of_finite {r : Binary64} {operation : String} (h : r.isFinite = true) :
    checkedDoubleResult r operation = .ok (.double r.toBits) := by
  obtain ⟨hnan, hinf⟩ := Binary64.isFinite_iff.mp h
  rw [checkedDoubleResult, hinf, hnan]
  rfl

theorem toDouble_of_finite (h : finiteNumber a = true) : ∃ x, toDouble a = .ok x ∧ x.isFinite = true := by
  cases a with
  | int n => exact ⟨_, rfl, Binary64.isFinite_ofInt n.le_toInt (Int.le_of_lt n.toInt_lt)⟩
  | double bits => exact ⟨_, rfl, h⟩
  | _ => nomatch h

/-- An operator completes on two numbers if it does on integers, and if its result as a double is
    finite. -/
theorem completes_of_numbers {r : Binary64} (operation : String) (hop : vmBinaryOp op = some vmOp)
    (harith : vmOp = .Add ∨ vmOp = .Sub ∨ vmOp = .Mul ∨ vmOp = .Div ∨ vmOp = .Mod)
    (ha : toDouble a = .ok x) (hb : toDouble b = .ok y)
    (hintegers : ∀ n m, a = .int n → b = .int m → ∃ k, foldInteger op n m = some k)
    (hdoubles : doubleArith vmOp x y = checkedDoubleResult r operation) (hfinite : r.isFinite = true) :
    ∃ v, executeOperator library memory op [a, b] = some (.ok v) := by
  by_cases hint : ∃ n m, a = .int n ∧ b = .int m
  · obtain ⟨n, m, rfl, rfl⟩ := hint
    obtain ⟨k, hk⟩ := hintegers n m rfl rfl
    exact ⟨_, executeOperator_integer hk⟩
  · have hdouble : (isInteger a && isInteger b) = false := by
      rw [← Bool.not_eq_true, Bool.and_eq_true]
      rintro ⟨ha, hb⟩
      obtain ⟨n, rfl⟩ := exists_int ha
      obtain ⟨m, rfl⟩ := exists_int hb
      exact hint ⟨n, m, rfl, rfl⟩
    refine ⟨.double r.toBits, (executeOperator_doubleArith hop harith ha hb hdouble).trans ?_⟩
    rw [hdoubles, checkedDoubleResult_of_finite hfinite]

theorem exact_ofInt_zero_neg : (Binary64.ofInt 0).neg.exact = 0 := by
  rw [Binary64.exact_neg, Binary64.exact_ofInt_zero]
  rfl

theorem isFinite_unit (h : n = 0 ∨ n = 1) : (Binary64.ofInt n.toInt).isFinite = true ∧
    (Binary64.ofInt n.toInt).size ≤ unit := by
  refine ⟨Binary64.isFinite_ofInt n.le_toInt (Int.le_of_lt n.toInt_lt), ?_⟩
  rcases h with rfl | rfl
  · rw [Binary64.size, ← Binary64.natAbs_exact, show (0 : Int64).toInt = 0 from rfl,
      Binary64.exact_ofInt_zero]
    exact Nat.zero_le _
  · exact Binary64.size_one.le

theorem isFinite_zero : (Binary64.ofInt (0 : Int64).toInt).isFinite = true := (isFinite_unit (.inl rfl)).1

theorem completes_add (hzero : a = .int 0 ∨ b = .int 0) (ha : finiteNumber a = true)
    (hb : finiteNumber b = true) :
    ∃ v, executeOperator library memory .Add [a, b] = some (.ok v) := by
  obtain ⟨x, hx, hfinite⟩ := toDouble_of_finite ha
  obtain ⟨y, hy, hfinite'⟩ := toDouble_of_finite hb
  refine completes_of_numbers (r := x.add y) "addition" rfl (.inl rfl) hx hy (fun n m hn hm => ?_) rfl ?_
  · rcases hzero with rfl | rfl
    · cases hn
      exact ⟨m, by simp [foldInteger, addChecked, representable_toInt]⟩
    · cases hm
      exact ⟨n, by simp [foldInteger, addChecked, representable_toInt]⟩
  · rcases hzero with rfl | rfl
    · rw [← Except.ok.inj hx] at hfinite ⊢
      exact Binary64.isFinite_zero_add hfinite hfinite' Binary64.exact_ofInt_zero
    · rw [← Except.ok.inj hy] at hfinite' ⊢
      exact Binary64.isFinite_add_zero hfinite hfinite' Binary64.exact_ofInt_zero

theorem completes_sub (ha : finiteNumber a = true) : ∃ v,
    executeOperator library memory .Sub [a, .int 0] = some (.ok v) := by
  obtain ⟨x, hx, hfinite⟩ := toDouble_of_finite ha
  refine completes_of_numbers (r := x.sub (.ofInt 0)) "subtraction" rfl (.inr (.inl rfl)) hx rfl
    (fun n m hn hm => ?_) rfl ?_
  · cases hm
    exact ⟨n, by simp [foldInteger, subChecked, representable_toInt]⟩
  · exact Binary64.isFinite_add_zero hfinite (Binary64.isFinite_neg isFinite_zero) exact_ofInt_zero_neg

theorem completes_mul (h : (a = .int 0 ∨ a = .int 1) ∧ finiteNumber b = true ∨
      (b = .int 0 ∨ b = .int 1) ∧ finiteNumber a = true) :
    ∃ v, executeOperator library memory .Mul [a, b] = some (.ok v) := by
  have hunit {v : gc.Value} (h : v = .int 0 ∨ v = .int 1) : ∃ k : Int64, v = .int k ∧
      (k = 0 ∨ k = 1) := by
    rcases h with rfl | rfl
    · exact ⟨0, rfl, .inl rfl⟩
    · exact ⟨1, rfl, .inr rfl⟩
  rcases h with ⟨h, hb⟩ | ⟨h, ha⟩
  · obtain ⟨k, rfl, hk⟩ := hunit h
    obtain ⟨y, hy, hfinite⟩ := toDouble_of_finite hb
    refine completes_of_numbers (r := (Binary64.ofInt k.toInt).mul y) "multiplication" rfl
      (.inr (.inr (.inl rfl))) rfl hy (fun n m hn hm => ?_) rfl ?_
    · cases hn
      rcases hk with rfl | rfl
      · exact ⟨0, by simp [foldInteger, mulChecked, representable]⟩
      · exact ⟨m, by simp [foldInteger, mulChecked, representable_toInt]⟩
    · rw [Binary64.mul_comm]
      exact Binary64.isFinite_mul_of_size_le hfinite (isFinite_unit hk).1 (isFinite_unit hk).2
  · obtain ⟨k, rfl, hk⟩ := hunit h
    obtain ⟨x, hx, hfinite⟩ := toDouble_of_finite ha
    refine completes_of_numbers (r := x.mul (.ofInt k.toInt)) "multiplication" rfl
      (.inr (.inr (.inl rfl))) hx rfl (fun n m hn hm => ?_) rfl ?_
    · cases hm
      rcases hk with rfl | rfl
      · exact ⟨0, by simp [foldInteger, mulChecked, representable]⟩
      · exact ⟨n, by simp [foldInteger, mulChecked, representable_toInt]⟩
    · exact Binary64.isFinite_mul_of_size_le hfinite (isFinite_unit hk).1 (isFinite_unit hk).2

theorem divisor_ne_zero (h : n ≠ 0) : (Binary64.ofInt n.toInt).beq .zero = false := by
  have hsize := Binary64.unit_le_size_ofInt (n := n.toInt) fun hzero => h (Int64.toInt_inj.mp hzero)
  rw [← Bool.not_eq_true]
  intro hbeq
  have hmagnitude : (Binary64.ofInt n.toInt).magnitude = 0 :=
    of_decide_eq_true (Binary64.isZero_of_beq hbeq)
  rw [Binary64.size, hmagnitude] at hsize
  exact Nat.not_lt.mpr hsize unit_pos

theorem completes_div (hzero : n ≠ 0) (hmin : ¬(a = .int .minValue ∧ n = -1)) (ha : finiteNumber a = true) :
    ∃ v, executeOperator library memory .Div [a, .int n] = some (.ok v) := by
  obtain ⟨x, hx, hfinite⟩ := toDouble_of_finite ha
  refine completes_of_numbers (r := x.div (.ofInt n.toInt)) "division" rfl
    (.inr (.inr (.inr (.inl rfl)))) hx rfl
    (fun k m hk hm => ?_) ?_ ?_
  · cases hm
    refine ⟨k / n, ?_⟩
    rw [foldInteger, if_neg hzero, if_neg fun h => hmin ⟨hk.trans (congrArg _ h.1), h.2⟩]
  · rw [doubleArith, divisor_ne_zero hzero]
    rfl
  · exact Binary64.isFinite_div_of_le_size hfinite
      (Binary64.isFinite_ofInt n.le_toInt (Int.le_of_lt n.toInt_lt))
      (Binary64.unit_le_size_ofInt fun h => hzero (Int64.toInt_inj.mp h))

theorem completes_mod (hzero : n ≠ 0) (ha : isNumericValue a = true) :
    ∃ v, executeOperator library memory .Mod [a, .int n] = some (.ok v) := by
  cases a with
  | int k =>
    refine ⟨.int (if k = .minValue ∧ n = -1 then 0 else k % n), executeOperator_integer ?_⟩
    rw [foldInteger, if_neg hzero]
    split <;> rfl
  | double bits =>
    have hexecute : executeOperator library memory .Mod [.double bits, .int n] =
        some (doubleArith .Mod (.ofBits bits) (.ofInt n.toInt)) :=
          executeOperator_doubleArith rfl (.inr (.inr (.inr (.inr rfl)))) rfl rfl rfl
    rw [hexecute, doubleArith, divisor_ne_zero hzero]
    exact ⟨_, rfl⟩
  | _ => cases ha

theorem completes_of_integers (ha : isInteger a = true) (hb : isInteger b = true)
    (hfold : ∀ n m, ∃ k, foldInteger op n m = some k) :
    ∃ v, executeOperator library memory op [a, b] = some (.ok v) := by
  obtain ⟨n, rfl⟩ := exists_int ha
  obtain ⟨m, rfl⟩ := exists_int hb
  obtain ⟨k, hk⟩ := hfold n m
  exact ⟨_, executeOperator_integer hk⟩

theorem completes_shift {count : Int64} {f : Int64 → Int64 → Int64} (ha : isInteger a = true)
    (hcount : ¬(count < 0 ∨ 64 ≤ count))
    (hfold : ∀ n, foldInteger op n count = if count < 0 ∨ 64 ≤ count then none else some (f n count)) :
    ∃ v, executeOperator library memory op [a, .int count] = some (.ok v) := by
  obtain ⟨n, rfl⟩ := exists_int ha
  exact ⟨_, executeOperator_integer ((hfold n).trans (if_neg hcount))⟩

theorem completes_equality (hop : vmBinaryOp op = some vmOp) (hequality : vmOp = .Eq ∨ vmOp = .Neq)
    {equal : Bool} (hequal : valuesEqual memory a b = .ok equal) :
    ∃ v, executeOperator library memory op [a, b] =
      some (.ok v) := by
  have hexecute : executeBinary library memory vmOp a b = binaryCompare memory vmOp a b := by
    rcases hequality with rfl | rfl <;> rfl
  rw [executeOperator, hop, Option.map_some, hexecute, binaryCompare, if_pos hequality, hequal]
  exact ⟨_, rfl⟩

theorem completes_ordering (hop : vmBinaryOp op = some vmOp) (hordering : isOrdering vmOp = true)
    (ha : isNumericValue a = true) (hb : isNumericValue b = true) : ∃ v,
      executeOperator library memory op [a, b] = some (.ok v) := by
  have hexecute : executeBinary library memory vmOp a b = binaryCompare memory vmOp a b := by
    cases vmOp <;> first | rfl | nomatch hordering
  have hcompare : ∃ cmp, compareNumericValues a b = .ok cmp := by
    rw [compareNumericValues_of_numeric ha hb]
    cases a with
    | int n =>
      cases b with
      | int m | double bits => exact ⟨_, rfl⟩
      | _ => nomatch hb
    | double bits =>
      cases b with
      | int m | double bits => exact ⟨_, rfl⟩
      | _ => nomatch hb
    | _ => nomatch ha
  obtain ⟨cmp, hcmp⟩ := hcompare
  have hresult : ∃ v, orderedResult vmOp cmp = .ok v := by
    unfold orderedResult
    split
    · exact ⟨_, rfl⟩
    · cases vmOp <;> first | exact ⟨_, rfl⟩ | nomatch hordering
  obtain ⟨v, hv⟩ := hresult
  rw [executeOperator, hop, Option.map_some, hexecute, binaryCompare_ordering ha hb hordering hcmp, hv]
  exact ⟨v, rfl⟩

theorem completes_concatenation (h : isStringValue a = true ∨ isStringValue b = true) :
    ∃ v, executeOperator library memory .Add [a, b] = some (.ok v) := by
  refine ⟨.string (valueToString library a ++ valueToString library b), congrArg some (if_pos ⟨rfl, ?_⟩)⟩
  rw [Bool.or_eq_true]
  exact h

theorem completes_unary (h : foldUnary op c = some d) : ∃ v,
    executeOperator library memory op [constantValue c] = some (.ok v) := by
  by_cases hwiden : op = .Widen
  · exact ⟨_, if_pos hwiden⟩
  · exact ⟨_, (executeOperator_unary h).mpr hwiden⟩

theorem completes_binary (h : foldBinary library op c d = some e) :
    ∃ v, executeOperator library memory op [constantValue c, constantValue d] = some (.ok v) := by
  have hordered {vmOp : OpCode} (hop : vmBinaryOp op = some vmOp)
    (hordering : isOrdering vmOp = true) {folded : Constant}
      (h : (if isNumericKind c.kind && isNumericKind d.kind then some folded else none) = some e) :
      ∃ v, executeOperator library memory op [constantValue c, constantValue d] = some (.ok v) := by
    obtain ⟨hc, hd⟩ := (Bool.and_eq_true _ _).mp (Option.ite_none_right_eq_some.mp h).1
    exact completes_ordering hop hordering (asDouble_spec hc).1 (asDouble_spec hd).1
  unfold foldBinary at h
  cases op
  case Eq =>
    obtain ⟨equal, hequal, -⟩ := Option.map_eq_some_iff.mp h
    exact completes_equality rfl (.inl rfl) (foldEqual_spec hequal).choose_spec.1
  case Ne =>
    obtain ⟨equal, hequal, -⟩ := Option.map_eq_some_iff.mp h
    exact completes_equality rfl (.inr rfl) (foldEqual_spec hequal).choose_spec.1
  case Lt => exact hordered rfl rfl h
  case Le => exact hordered rfl rfl h
  case Gt => exact hordered rfl rfl h
  case Ge => exact hordered rfl rfl h
  all_goals first | exact ⟨_, executeBinary_arithmetic (by decide) h⟩ | nomatch h

theorem removable_cases {types : TypeTable} {module : Module} {instruction : Instruction}
    (h : isRemovableIfResultUnused types library module instruction = true) :
    instruction.opcode ∈ [.Nop, .Load, .TypeTest, .IsNull, .BitAnd, .BitOr, .BitXor, .BitNot, .Not,
      .And, .Or, .Widen] ∨ operationCanRaise types library module instruction = false := by
  rw [isRemovableIfResultUnused, classifyInstruction] at h
  cases hraise : operationCanRaise types library module instruction with
  | false => exact .inr rfl
  | true =>
    simp only [hraise, Bool.true_eq_false, and_false, if_false, Bool.and_eq_true] at h
    left
    revert h
    cases instruction.opcode <;> simp [classifyOpcode]

end

section
variable {W : Type} {runtime : Runtime W} {types : TypeTable} {module : Module}
  {instruction : Instruction} {values : ValueId → gc.Value}
  {world : W} {memory : Memory}

theorem operands_length (h : Verifier.operandCountOk instruction = true)
    (hfixed : (opcodeShape instruction.opcode).variadicOperands = false) :
    instruction.operands.length = (opcodeShape instruction.opcode).operandCount := by
  unfold Verifier.operandCountOk at h
  dsimp only at h
  rw [if_neg (Bool.eq_false_iff.mp hfixed)] at h
  exact of_decide_eq_true h

theorem operandValue_constant {operand : Operand} {c : Constant}
    (h : constantOperand module operand = some c) :
    operandValue runtime module values world operand = constantValue c := by
  rw [operandValue, h]

theorem operandValue_intAt {index : Nat} {n : Int64} {operand : Operand}
    (hn : intAt module instruction index = some n)
    (hoperand : instruction.operands[index]? = some operand) :
    operandValue runtime module values world operand = .int n := by
  unfold intAt at hn
  obtain ⟨found, hfound, hn⟩ := Option.bind_eq_some_iff.mp hn
  obtain ⟨c, hc, hn⟩ := Option.bind_eq_some_iff.mp hn
  obtain ⟨hkind, hn⟩ := Option.ite_none_right_eq_some.mp hn
  rw [hoperand] at hfound
  rw [Option.some.inj hfound, operandValue_constant hc, constantValue_int hkind, Option.some.inj hn]

theorem completes_of_folded (h : (foldInstruction types runtime.library module instruction).isSome =
      true) : ∃ v, executeOperator runtime.library memory instruction.opcode
      (instruction.operands.map (operandValue runtime module values world)) = some (.ok v) := by
  obtain ⟨c, hc⟩ := Option.isSome_iff_exists.mp h
  rcases foldInstruction_constants hc with ⟨left, a, hoperands, ha, hfold⟩ | ⟨left, right, a, b,
    hoperands, ha, hb, hfold⟩
  · rw [hoperands, List.map_singleton, operandValue_constant ha]
    exact completes_unary hfold
  · rw [hoperands, List.map_cons, List.map_singleton, operandValue_constant ha, operandValue_constant hb]
    exact completes_binary hfold

theorem operands_pair (hcount : Verifier.operandCountOk instruction = true) {op : Opcode}
    (hop : instruction.opcode = op)
    (hfixed : (opcodeShape op).variadicOperands = false) (htwo : (opcodeShape op).operandCount = 2) :
    ∃ l r, instruction.operands = [l, r] := by
  subst hop
  exact List.length_eq_two.mp ((operands_length hcount hfixed).trans htwo)

/-- An operator that cannot raise by its constants completes on values that fit it. -/
theorem completes_discharged (hcount : Verifier.operandCountOk instruction = true)
    (hraise : operationCanRaise types runtime.library module instruction = false)
    (hfold : ¬(foldInstruction types runtime.library module instruction).isSome = true)
    (hfits : Fits memory instruction.opcode
      (instruction.operands.map (operandValue runtime module values world))) : ∃ v,
      executeOperator runtime.library memory instruction.opcode
      (instruction.operands.map (operandValue runtime module values world)) = some (.ok v) := by
  unfold operationCanRaise at hraise
  have hresult : instruction.result ≠ kNoTemp := fun h => by
    rw [if_pos h] at hraise
    nomatch hraise
  rw [if_neg hresult, if_neg hfold] at hraise
  have hshift {op : Opcode} {f : Int64 → Int64 → Int64} (hop : instruction.opcode = op)
    (hfixed : (opcodeShape op).variadicOperands = false)
      (htwo : (opcodeShape op).operandCount = 2)
      (hfold : ∀ n count, foldInteger op n count = if count < 0 ∨
        64 ≤ count then none else some (f n count))
      (hraise : (!(intAt module instruction 1).any fun count => 0 ≤ count ∧ count < 64) = false)
      (hinteger : ∀ v ∈ (instruction.operands.map (operandValue runtime module values world)).head?,
        isInteger v = true) : ∃ v, executeOperator runtime.library memory op
        (instruction.operands.map (operandValue runtime module values world)) = some (.ok v) := by
    obtain ⟨l, r, hoperands⟩ := operands_pair hcount hop hfixed htwo
    rw [Bool.not_eq_false', Option.any_eq_true] at hraise
    obtain ⟨count, hconstant, hrange⟩ := hraise
    obtain ⟨hnonneg, hlt⟩ := of_decide_eq_true hrange
    rw [hoperands, List.map_cons, List.map_singleton] at hinteger ⊢
    rw [operandValue_intAt hconstant (congrArg (·[1]?) hoperands)]
    exact completes_shift (hinteger _ rfl) (by grind) fun n => hfold n count
  have hordered {op : Opcode} {vmOp : OpCode} (hop : instruction.opcode = op)
    (hfixed : (opcodeShape op).variadicOperands = false)
      (htwo : (opcodeShape op).operandCount = 2) (hvm : vmBinaryOp op = some vmOp)
        (hordering : isOrdering vmOp = true)
      (hnumeric : ∀ v ∈ instruction.operands.map (operandValue runtime module values world),
        isNumericValue v = true) : ∃ v, executeOperator runtime.library memory op
        (instruction.operands.map (operandValue runtime module values world)) = some (.ok v) := by
    obtain ⟨l, r, hoperands⟩ := operands_pair hcount hop hfixed htwo
    rw [hoperands, List.map_cons, List.map_singleton] at hnumeric ⊢
    exact completes_ordering hvm hordering (hnumeric _ List.mem_cons_self)
      (hnumeric _ (List.mem_cons_of_mem _ List.mem_cons_self))
  split at hraise
  next hop =>
    obtain ⟨l, r, hoperands⟩ := operands_pair hcount hop rfl rfl
    rw [hop, hoperands, List.map_cons, List.map_singleton] at hfits ⊢
    rcases hfits with ⟨v, hv, hstring⟩ | ⟨hzero, hfinite⟩
    · rcases List.mem_pair.mp hv with rfl | rfl
      · exact completes_concatenation (.inl hstring)
      · exact completes_concatenation (.inr hstring)
    · exact completes_add ((List.mem_pair.mp hzero).imp Eq.symm Eq.symm) (hfinite _ List.mem_cons_self)
        (hfinite _ (List.mem_cons_of_mem _ List.mem_cons_self))
  next hop =>
    obtain ⟨l, r, hoperands⟩ := operands_pair hcount hop rfl rfl
    have hzero : intAt module instruction 1 = some 0 := by simpa using hraise
    rw [hop, hoperands, List.map_cons, List.map_singleton] at hfits ⊢
    rw [operandValue_intAt hzero (congrArg (·[1]?) hoperands)]
    exact completes_sub (hfits _ List.mem_cons_self)
  next hop =>
    obtain ⟨l, r, hoperands⟩ := operands_pair hcount hop rfl rfl
    rw [hop, hoperands, List.map_cons, List.map_singleton] at hfits ⊢
    have hleft {n : Int64} (h : intAt module instruction 0 = some n) :
        operandValue runtime module values world l = .int n :=
      operandValue_intAt h (congrArg (·[0]?) hoperands)
    have hright {n : Int64} (h : intAt module instruction 1 = some n) :
        operandValue runtime module values world r = .int n :=
      operandValue_intAt h (congrArg (·[1]?) hoperands)
    have hunit : (intAt module instruction 0 = some 0 ∨ intAt module instruction 0 = some 1) ∨
        intAt module instruction 1 = some 0 ∨ intAt module instruction 1 = some 1 := by grind
    have hfinite := hfits _ List.mem_cons_self
    have hfinite' := hfits _ (List.mem_cons_of_mem _ List.mem_cons_self)
    exact completes_mul (hunit.imp (fun h => ⟨h.imp hleft hleft, hfinite'⟩) fun h =>
      ⟨h.imp hright hright, hfinite⟩)
  next hop =>
    obtain ⟨l, r, hoperands⟩ := operands_pair hcount hop rfl rfl
    rw [hop, hoperands, List.map_cons, List.map_singleton] at hfits ⊢
    split at hraise
    · nomatch hraise
    next divisor hdivisor =>
      rw [operandValue_intAt hdivisor (congrArg (·[1]?) hoperands)]
      split at hraise
      · nomatch hraise
      next hzero =>
        refine completes_div hzero (fun hmin => ?_) (hfits _ List.mem_cons_self)
        rw [if_pos hmin.2] at hraise
        cases hdividend : intAt module instruction 0 with
        | none => simp [hdividend] at hraise
        | some dividend =>
          have hdividend' := @operandValue_intAt W runtime module instruction values world _ _ _
            hdividend (congrArg (·[0]?) hoperands)
          rw [hmin.1] at hdividend'
          rw [hdividend, ← gc.Value.int.inj hdividend'] at hraise
          nomatch hraise
  next hop =>
    obtain ⟨l, r, hoperands⟩ := operands_pair hcount hop rfl rfl
    rw [hop, hoperands, List.map_cons, List.map_singleton] at hfits ⊢
    split at hraise
    · nomatch hraise
    next divisor hdivisor =>
      rw [operandValue_intAt hdivisor (congrArg (·[1]?) hoperands)]
      split at hraise
      · nomatch hraise
      next hzero => exact completes_mod hzero (hfits _ List.mem_cons_self)
  next hop =>
    rw [hop] at hfits ⊢
    exact hshift hop rfl rfl (fun _ _ => rfl) hraise hfits
  next hop =>
    rw [hop] at hfits ⊢
    exact hshift hop rfl rfl (fun _ _ => rfl) hraise hfits
  next hop =>
    rw [hop] at hfits ⊢
    exact hshift hop rfl rfl (fun _ _ => rfl) hraise hfits
  next hop =>
    obtain ⟨l, r, hoperands⟩ := operands_pair hcount hop rfl rfl
    rw [hop, hoperands, List.map_cons, List.map_singleton] at hfits ⊢
    exact completes_equality rfl (.inl rfl) (hfits _ _ rfl).choose_spec
  next hop =>
    obtain ⟨l, r, hoperands⟩ := operands_pair hcount hop rfl rfl
    rw [hop, hoperands, List.map_cons, List.map_singleton] at hfits ⊢
    exact completes_equality rfl (.inr rfl) (hfits _ _ rfl).choose_spec
  next hop =>
    rw [hop] at hfits ⊢
    exact hordered hop rfl rfl rfl rfl hfits
  next hop =>
    rw [hop] at hfits ⊢
    exact hordered hop rfl rfl rfl rfl hfits
  next hop =>
    rw [hop] at hfits ⊢
    exact hordered hop rfl rfl rfl rfl hfits
  next hop =>
    rw [hop] at hfits ⊢
    exact hordered hop rfl rfl rfl rfl hfits
  next => nomatch hraise

theorem completes_pure (hcount : Verifier.operandCountOk instruction = true)
    (hop : instruction.opcode ∈ [.BitAnd, .BitOr, .BitXor, .BitNot, .Not, .And, .Or, .Widen])
    (hfits : Fits memory instruction.opcode
      (instruction.operands.map (operandValue runtime module values world))) : ∃ v,
      executeOperator runtime.library memory instruction.opcode
      (instruction.operands.map (operandValue runtime module values world)) = some (.ok v) := by
  have hone {op : Opcode} (hop : instruction.opcode = op)
    (hshape : (opcodeShape op).variadicOperands = false ∧ (opcodeShape op).operandCount = 1) :
      ∃ o, instruction.operands = [o] := by
    subst hop
    exact List.length_eq_one_iff.mp ((operands_length hcount hshape.1).trans hshape.2)
  have hbitwise {op : Opcode} (hop : instruction.opcode = op)
      (hshape : (opcodeShape op).variadicOperands = false ∧ (opcodeShape op).operandCount = 2)
        (hfold : ∀ n m, ∃ k, foldInteger op n m = some k)
      (hintegers : ∀ v ∈ instruction.operands.map (operandValue runtime module values world),
        isInteger v = true) : ∃ v, executeOperator runtime.library memory op
        (instruction.operands.map (operandValue runtime module values world)) = some (.ok v) := by
    obtain ⟨l, r, hoperands⟩ := operands_pair hcount hop hshape.1 hshape.2
    rw [hoperands, List.map_cons, List.map_singleton] at hintegers ⊢
    exact completes_of_integers (hintegers _ List.mem_cons_self)
      (hintegers _ (List.mem_cons_of_mem _ List.mem_cons_self)) hfold
  simp only [List.mem_cons, List.not_mem_nil, or_false] at hop
  rcases hop with hop | hop | hop | hop | hop | hop | hop | hop <;> rw [hop] at hfits ⊢
  · exact hbitwise hop ⟨rfl, rfl⟩ (fun _ _ => ⟨_, rfl⟩) hfits
  · exact hbitwise hop ⟨rfl, rfl⟩ (fun _ _ => ⟨_, rfl⟩) hfits
  · exact hbitwise hop ⟨rfl, rfl⟩ (fun _ _ => ⟨_, rfl⟩) hfits
  · obtain ⟨o, hoperands⟩ := hone hop ⟨rfl, rfl⟩
    rw [hoperands] at hfits ⊢
    obtain ⟨n, hn⟩ := exists_int (hfits _ List.mem_cons_self)
    rw [List.map_singleton, hn]
    exact ⟨_, rfl⟩
  · obtain ⟨o, hoperands⟩ := hone hop ⟨rfl, rfl⟩
    rw [hoperands]
    exact ⟨_, rfl⟩
  · obtain ⟨l, r, hoperands⟩ := operands_pair hcount hop rfl rfl
    rw [hoperands]
    exact ⟨_, rfl⟩
  · obtain ⟨l, r, hoperands⟩ := operands_pair hcount hop rfl rfl
    rw [hoperands]
    exact ⟨_, rfl⟩
  · obtain ⟨o, hoperands⟩ := hone hop ⟨rfl, rfl⟩
    rw [hoperands]
    exact ⟨_, rfl⟩

/-- An operator that is removable completes where it folds to a constant, or its operand values are
    as the classification takes for granted. -/
theorem completes_of_fits (hcount : Verifier.operandCountOk instruction = true)
    (hremovable : isRemovableIfResultUnused types runtime.library module instruction = true)
    (hop : instruction.opcode ∉ [.Nop, .Load, .TypeTest, .IsNull])
    (hfits : foldInstruction types runtime.library module instruction = none → Fits memory
      instruction.opcode (instruction.operands.map (operandValue runtime module values world))) : ∃ v,
      executeOperator runtime.library memory instruction.opcode
      (instruction.operands.map (operandValue runtime module values world)) = some (.ok v) := by
  by_cases hfold : (foldInstruction types runtime.library module instruction).isSome = true
  · exact completes_of_folded hfold
  have hfits := hfits (Option.not_isSome_iff_eq_none.mp hfold)
  rcases removable_cases hremovable with hmem | hraise
  · exact completes_pure hcount ((List.mem_append.mp hmem).resolve_left hop) hfits
  · exact completes_discharged hcount hraise hfold hfits

end

end zl.mir
