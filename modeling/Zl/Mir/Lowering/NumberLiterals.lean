import Zl.Compiler.OperatorRules
import Zl.Lexer.Lexer
import Zl.Mir.Lowering.Lowerer
import Zl.Mir.Simplify.Algebraic
import Zl.Numerals.Positional

open zl.compiler zl.ieee zl.lexer zl.numerals zl.vm zl.vm.value

namespace zl.mir

inductive ConversionError where
  | invalid_argument | out_of_range
  deriving DecidableEq, Repr

def isSpace (c : Char) : Bool := c = ' ' || 9 ≤ c.toNat && c.toNat ≤ 13

/-- The value of a row of decimal digits. -/
def decimalValue (digits : List Char) : Nat := positional 10 (digits.map fun d => d.toNat - 48)

/-- `std::stoll`: spaces, a sign and digits, as far as they go. -/
def stoll (text : String) : Except ConversionError (Int × Nat) :=
  let signed := text.toList.dropWhile isSpace
  let negative := signed.head? = some '-'
  let unsigned := if negative || signed.head? = some '+' then signed.tail else signed
  let digits := unsigned.takeWhile Char.isDigit
  let value : Int := if negative then -decimalValue digits else decimalValue digits
  if digits.isEmpty then .error .invalid_argument
  else if value < -2 ^ 63 ∨ 2 ^ 63 ≤ value then .error .out_of_range
  else .ok (value, text.toList.length - unsigned.length + digits.length)

/-- `std::stod`, of another library: the double, and the number of characters it was read from. -/
abbrev Stod := String → Except ConversionError (Binary64 × Nat)

/-- On a decimal fraction `stod` rounds correctly, or reports a range error by throwing. -/
structure RoundsDecimals (stod : Stod) : Prop where
  rounds : ∀ (whole fraction : List Char) (x : Binary64) (pos : Nat),
    (∀ d ∈ whole ++ fraction, d.isDigit = true) → fraction ≠ [] →
    stod (String.ofList (whole ++ '.' :: fraction)) = .ok (x, pos) →
      pos = (whole ++ '.' :: fraction).length ∧ x.isFinite = true ∧
        x = .round false (decimalValue (whole ++ fraction) * unit) (10 ^ fraction.length)

structure Literal where
  literalType : TokenType
  raw : String
  line : Nat
  deriving DecidableEq, Repr

/-- The expressions of number literals and unary operators. -/
inductive Expr where
  | literal (literal : Literal)
  | unary (op : TokenType) (operand : Expr) (line : Nat)
  deriving DecidableEq, Repr

def isUnary (type : TokenType) : Bool := type = .MINUS || type = .NOT || type = .BIT_NOT

/-- A unary operator and its operand. The literal of the least `int`, of which the positive half is no
    `int`, becomes one literal. -/
def unaryExpr (op : lexer.Token) (operand : Expr) : Expr :=
  match operand with
  | .literal literal =>
    if op.type = .MINUS ∧ literal.literalType = .INT_LITERAL ∧ literal.raw = "9223372036854775808" then
      .literal { literal with raw := "-9223372036854775808", line := op.line }
    else .unary op.type operand op.line
  | .unary .. => .unary op.type operand op.line

/-- `parsePratt` and `parsePrimary` on unary operators and number literals. -/
def parseUnary : List lexer.Token → Option (Expr × List lexer.Token)
  | [] => none
  | tok :: rest =>
    if isUnary tok.type then (parseUnary rest).map fun (operand, rest) => (unaryExpr tok operand, rest)
    else if tok.type = .INT_LITERAL ∨ tok.type = .DECIMAL_LITERAL ∨ tok.type = .FLOAT_LITERAL then
      some (.literal ⟨tok.type, tok.lexeme, tok.line⟩, rest)
    else none

def typeError {A : Type} (message : String) (line : Nat) : Except String A :=
  .error s!"type error (line {line}): {message}"

section
variable (stod : Stod)

/-- The error of a text that is not read to its end is thrown where the range error is caught. -/
def inferLiteral (node : Literal) : Except String ZlType :=
  match node.literalType with
  | .INT_LITERAL =>
    match stoll node.raw with
    | .ok (_, pos) =>
      if pos ≠ node.raw.length then typeError s!"integer literal is out of range '{node.raw}'" node.line
      else .ok .INT
    | .error _ => typeError s!"integer literal is out of range '{node.raw}'" node.line
  | .DECIMAL_LITERAL | .FLOAT_LITERAL =>
    match stod node.raw with
    | .ok (_, pos) =>
      if pos ≠ node.raw.length then
        typeError s!"floating-point literal is invalid or out of range '{node.raw}'" node.line
      else .ok .DOUBLE
    | .error _ => typeError s!"floating-point literal is invalid or out of range '{node.raw}'" node.line
  | .STRING_LITERAL => .ok .STRING
  | .BOOL_LITERAL => .ok .BOOL
  | .KW_NULL => .ok .NIL
  | _ => .ok .UNKNOWN

def operatorFromToken : TokenType → Operator
  | .MINUS => .Minus
  | .NOT => .Not
  | .BIT_NOT => .BitNot
  | _ => .Unknown

/-- `inferUnary`, of an operand that is no object. -/
def inferUnary (op : TokenType) (operand : ZlType) (line : Nat) : Except String ZlType :=
  match unaryResult (operatorFromToken op) operand with
  | some result => .ok result
  | none => if op = .NOT then .ok .BOOL else typeError (unaryError (operatorFromToken op)) line

def inferExpr : Expr → Except String ZlType
  | .literal node => inferLiteral stod node
  | .unary op operand line => do inferUnary op (← inferExpr operand) line

/-- `checkPattern` on a literal, for a subject that literals of some types can match. -/
def checkLiteralPattern (compatible : ZlType → Bool) (pattern : Literal) : Except String Bool := do
  let type ← inferLiteral stod pattern
  if compatible type then return false
  else typeError "match literal pattern type does not match subject type" pattern.line

def constantInt (value : Int) : Constant := { kind := .Int, intValue := value }

def constantDouble (value : Binary64) : Constant := { kind := .Double, doubleBits := value.toBits }

/-- The number that a literal is lowered to. A conversion that throws gives zero. -/
def numberConstant (node : Literal) : Constant :=
  match node.literalType with
  | .INT_LITERAL =>
    match stoll node.raw with
    | .ok (value, _) => constantInt value
    | .error _ => constantInt 0
  | _ =>
    match stod node.raw with
    | .ok (value, _) => constantDouble value
    | .error _ => constantDouble (.ofBits 0)

variable (types : TypeTable)

/-- `constOperand` on a number. -/
def constOperand (literal : Literal) (module : Module) : Module × Operand :=
  constantResult module (numberConstant stod literal)
    (if literal.literalType = .INT_LITERAL then types.intType else types.doubleType)

/-- `patternValue` on a number, which is converted as `constOperand` converts it. -/
def patternValue (pattern : Literal) (module : Module) : Module × Operand :=
  constantResult module (numberConstant stod pattern)
    (if pattern.literalType = .INT_LITERAL then types.intType else types.doubleType)

def zlTypeOf (id : TypeId) : ZlType :=
  match types.find id with
  | none => .UNKNOWN
  | some type =>
    match type.kind with
    | .Bool => .BOOL
    | .Int => .INT
    | .Double => .DOUBLE
    | .String => .STRING
    | .Nil => .NIL
    | .Void => .VOID_TYPE
    | .List => .LIST
    | .Map => .MAP
    | .Set => .SET
    | .Array => .ARRAY
    | .Task => .TASK
    | .Function => .FUNCTION
    | .Union => .UNION
    | _ => .OBJECT

variable (otherType : ZlType → TypeId)

/-- `primitiveFor`; `otherType` are the primitive types that no value of an operator is of. -/
def typeIdFor : ZlType → TypeId
  | .INT => types.intType
  | .DOUBLE => types.doubleType
  | .BOOL => types.boolType
  | .STRING => types.stringType
  | type => otherType type

/-- `unary`, of an operand that is no object. What is not supported has no operand. -/
def unary (op : TokenType) (operand : Operand) (fb : FunctionBuilder) : FunctionBuilder × Operand :=
  let emit := fun opcode type =>
    let (temp, fb) := fb.appendResult { opcode, operands := [operand] } type
    (fb, .temp temp type)
  if operand.isNone then (fb, .none)
  else match op with
    | .MINUS =>
      match unaryResult .Minus (zlTypeOf types operand.type) with
      | some result => emit .Neg (typeIdFor types otherType result)
      | none => (fb, .none)
    | .NOT => emit .Not types.boolType
    | .BIT_NOT => emit .BitNot types.intType
    | _ => (fb, .none)

def expression (module : Module) (fb : FunctionBuilder) : Expr → Module × FunctionBuilder × Operand
  | .literal literal =>
    let (module, operand) := constOperand stod types literal module
    (module, fb, operand)
  | .unary op node _ =>
    let (module, fb, operand) := expression module fb node
    (module, unary types otherType op operand fb)

end

variable {stod : Stod} {scan : Scan} {c : Char} {rest : List Char}

theorem wordType_ne {text : List Char} {type : TokenType} (htype : type = .INT_LITERAL ∨
      type = .FLOAT_LITERAL) :
    wordType text ≠ type := by
  have hkeywords : ∀ k ∈ keywords, k.2 ≠ .INT_LITERAL ∧ k.2 ≠ .FLOAT_LITERAL := by decide
  unfold wordType
  cases hlookup : keywords.lookup (String.ofList text) with
  | none => rcases htype with rfl | rfl <;> simp
  | some found =>
    obtain ⟨before, after, hsplit, -⟩ := List.lookup_eq_some_iff.mp hlookup
    have hmem := hkeywords (String.ofList text, found) (by simp [hsplit])
    rcases htype with rfl | rfl
    · exact hmem.1
    · exact hmem.2

theorem scanSymbol_type_ne (c : Char) (rest : List Char) :
    (scanSymbol c rest).type ≠ .INT_LITERAL ∧ (scanSymbol c rest).type ≠ .FLOAT_LITERAL := by
  unfold scanSymbol
  split <;> (repeat' split) <;> simp [makeToken]

/-- The lexeme of a number token: digits, or a decimal fraction. -/
def Spelled (scan : Scan) : Prop :=
  (scan.type = .INT_LITERAL ∧ scan.lexeme ≠ [] ∧ ∀ d ∈ scan.lexeme, d.isDigit = true) ∨
  scan.type = .FLOAT_LITERAL ∧ ∃ whole fraction, scan.lexeme = whole ++ '.' :: fraction ∧ fraction ≠ [] ∧
    ∀ d ∈ whole ++ fraction, d.isDigit = true

theorem digits_takeWhile (text : List Char) : ∀ d ∈ text.takeWhile Char.isDigit, d.isDigit = true :=
  fun _ hd => List.mem_takeWhile_imp hd

theorem takeWhile_ne_nil {text : List Char} (h : text.head?.any Char.isDigit = true) :
    text.takeWhile Char.isDigit ≠ [] := by
  cases text with
  | nil => simp at h
  | cons d text =>
    rw [List.takeWhile_cons_of_pos (by simpa using h)]
    exact List.cons_ne_nil _ _

theorem scanNumber_spelled (h : c.isDigit = true ∨ c = '.' ∧ rest.head?.any Char.isDigit = true) :
    Spelled (scanNumber (c :: rest)) := by
  unfold scanNumber
  split
  next rest' heq =>
    obtain ⟨rfl, rfl⟩ := List.cons.inj heq
    have hrest := (h.resolve_left (by decide)).2
    exact .inr ⟨rfl, [], _, rfl, takeWhile_ne_nil hrest, digits_takeWhile _⟩
  next hdot =>
    have hc : c.isDigit = true := h.resolve_right fun hdot' => hdot rest (by rw [hdot'.1])
    have hwhole : (c :: rest).takeWhile Char.isDigit ≠ [] := takeWhile_ne_nil (by simpa using hc)
    have hint : Spelled (makeToken .INT_LITERAL ((c :: rest).takeWhile Char.isDigit)) :=
      .inl ⟨rfl, hwhole, digits_takeWhile _⟩
    dsimp only
    split
    next rest' hrest =>
      split
      next hfraction =>
        refine .inr ⟨rfl, _, _, rfl, takeWhile_ne_nil hfraction, fun d hd => ?_⟩
        rcases List.mem_append.mp hd with hd | hd
        · exact digits_takeWhile _ d hd
        · exact digits_takeWhile _ d hd
      next => exact hint
    next => exact hint

theorem scanToken_spelled (hscan : scanToken c rest = .ok scan)
    (htype : scan.type = .INT_LITERAL ∨ scan.type = .FLOAT_LITERAL) : Spelled scan := by
  unfold scanToken at hscan
  split at hscan
  next hnumber =>
    cases hscan
    exact scanNumber_spelled (by simpa using hnumber)
  split at hscan
  next =>
    cases hscan
    exact absurd rfl (wordType_ne htype)
  split at hscan
  next =>
    unfold scanString at hscan
    split at hscan <;> cases hscan
    simp at htype
  split at hscan
  next =>
    unfold scanRegexLiteral at hscan
    split at hscan <;> cases hscan
    simp at htype
  next =>
    cases hscan
    obtain ⟨hint, hfloat⟩ := scanSymbol_type_ne c rest
    exact (htype.elim hint hfloat).elim

theorem stoll_digits {digits : List Char} (hne : digits ≠ []) (hdigits : ∀ d ∈ digits, d.isDigit = true) :
    stoll (String.ofList digits) =
      if 2 ^ 63 ≤ (decimalValue digits : Int) then .error .out_of_range
      else .ok (decimalValue digits, digits.length) := by
  have hhead : ∀ d, digits.head? = some d → d.isDigit = true :=
    fun d hd => hdigits d (List.mem_of_head? hd)
  have hspace : digits.dropWhile isSpace = digits := by
    cases digits with
    | nil => rfl
    | cons d digits =>
      refine List.dropWhile_cons_of_neg ?_
      have hd := hdigits d List.mem_cons_self
      simp only [Char.isDigit, ge_iff_le, Bool.and_eq_true, decide_eq_true_eq,
        UInt32.le_iff_toNat_le] at hd
      have hrange : 48 ≤ d.toNat ∧ d.toNat ≤ 57 := hd
      have hne : d ≠ ' ' := by
        rintro rfl
        exact absurd hrange.1 (by decide)
      simp only [isSpace, hne, decide_false, Bool.false_or, Bool.and_eq_true, decide_eq_true_eq]
      omega
  have hsign : ∀ sign : Char, sign.isDigit = false → digits.head? ≠ some sign := by
    intro sign hsign hd
    rw [hhead sign hd] at hsign
    cases hsign
  have htake : digits.takeWhile Char.isDigit = digits :=
    List.takeWhile_eq_self_iff.mpr hdigits
  have hempty : digits.isEmpty = false := by simpa using hne
  simp only [stoll, String.toList_ofList, hspace, hsign '-' rfl, hsign '+' rfl, decide_false,
    Bool.or_self, Bool.false_eq_true, if_false, htake, hempty, Nat.sub_self, Nat.zero_add]
  have hnonneg : ¬(decimalValue digits : Int) < -2 ^ 63 := by omega
  simp only [hnonneg, false_or]

theorem stoll_least : stoll "-9223372036854775808" = .ok (-2 ^ 63, 20) := by decide +kernel

/-- A literal that the checker takes is converted without an exception. -/
theorem numberConstant_of_inferLiteral {node : Literal} {type : ZlType}
    (h : inferLiteral stod node = .ok type) :
    (node.literalType = .INT_LITERAL → ∃ value, stoll node.raw = .ok (value, node.raw.length) ∧
      numberConstant stod node = constantInt value) ∧
    (node.literalType = .FLOAT_LITERAL → ∃ value, stod node.raw = .ok (value, node.raw.length) ∧
      numberConstant stod node = constantDouble value) := by
  unfold inferLiteral at h
  unfold numberConstant
  refine ⟨fun htype => ?_, fun htype => ?_⟩
  · rw [htype] at h ⊢
    dsimp only at h ⊢
    match hread : stoll node.raw with
    | .ok (value, pos) =>
      rw [hread] at h
      dsimp only at h
      split at h
      · cases h
      next hpos =>
        obtain rfl := not_not.mp hpos
        exact ⟨value, rfl, rfl⟩
    | .error e =>
      rw [hread] at h
      cases h
  · rw [htype] at h ⊢
    dsimp only at h ⊢
    match hread : stod node.raw with
    | .ok (value, pos) =>
      rw [hread] at h
      dsimp only at h
      split at h
      · cases h
      next hpos =>
        obtain rfl := not_not.mp hpos
        exact ⟨value, rfl, rfl⟩
    | .error e =>
      rw [hread] at h
      cases h

/-- The value that a number token spells: an integer, or the double nearest to a decimal fraction. -/
def Denotes (scan : Scan) (v : gc.Value) : Prop :=
  (scan.type = .INT_LITERAL ∧ ∃ n : Int64, v = .int n ∧ n.toInt = decimalValue scan.lexeme) ∨
  scan.type = .FLOAT_LITERAL ∧ ∃ (whole fraction : List Char) (x : Binary64),
    scan.lexeme = whole ++ '.' :: fraction ∧ v = .double x.toBits ∧ x.isFinite = true ∧
    ∀ y : Binary64,
      (x.exact * (10 ^ fraction.length : Nat) - (decimalValue (whole ++ fraction) * unit : Nat)).natAbs ≤
        (y.exact * (10 ^ fraction.length : Nat) - (decimalValue (whole ++ fraction) * unit : Nat)).natAbs

/-- The integer that a token spells, negated. -/
def DenotesMinus (scan : Scan) (v : gc.Value) : Prop :=
  scan.type = .INT_LITERAL ∧ ∃ n : Int64, v = .int n ∧ n.toInt = -decimalValue scan.lexeme

theorem toInt_constantInt {value : Int} (hlow : -2 ^ 63 ≤ value) (hhigh : value < 2 ^ 63) :
    (constantInt value).int.toInt = value :=
  Int64.toInt_ofInt_of_le hlow hhigh

/-- The literal of a number token. -/
def literalOf (scan : Scan) (line : Nat) : Literal := ⟨scan.type, String.ofList scan.lexeme, line⟩

theorem denotes_numberConstant (hstod : RoundsDecimals stod) (hspelled : Spelled scan) {line : Nat}
    {type : ZlType} (h : inferLiteral stod (literalOf scan line) = .ok type) :
    Denotes scan (constantValue (numberConstant stod (literalOf scan line))) := by
  obtain ⟨hint, hfloat⟩ := numberConstant_of_inferLiteral h
  rcases hspelled with ⟨htype, hne, hdigits⟩ | ⟨htype, whole, fraction, hlexeme, hne, hdigits⟩
  · obtain ⟨value, hread, hconstant⟩ := hint htype
    rw [hconstant]
    change stoll (String.ofList scan.lexeme) = _ at hread
    rw [stoll_digits hne hdigits] at hread
    split at hread
    · cases hread
    next hrange =>
      obtain ⟨rfl, -⟩ := Prod.mk.inj (Except.ok.inj hread)
      exact .inl ⟨htype, _, constantValue_int rfl, toInt_constantInt (by omega) (by omega)⟩
  · obtain ⟨x, hread, hconstant⟩ := hfloat htype
    rw [hconstant]
    change stod (String.ofList scan.lexeme) = _ at hread
    rw [hlexeme] at hread
    obtain ⟨-, hfinite, rfl⟩ := hstod.rounds whole fraction x _ hdigits hne hread
    exact .inr ⟨htype, whole, fraction, _, hlexeme, constantValue_double rfl, hfinite, fun y =>
      Binary64.round_nearest y (Nat.pow_pos (by decide)) hfinite⟩

theorem denotesMinus_numberConstant {line : Nat} (htype : scan.type = .INT_LITERAL)
    (hraw : String.ofList scan.lexeme = "9223372036854775808") :
    DenotesMinus scan (constantValue (numberConstant stod
      ⟨.INT_LITERAL, "-9223372036854775808", line⟩)) := by
  have hconstant : numberConstant stod ⟨.INT_LITERAL, "-9223372036854775808", line⟩ =
      constantInt (-2 ^ 63) := by
    unfold numberConstant
    simp only [stoll_least]
  have hlexeme : scan.lexeme = "9223372036854775808".toList := by
    rw [← hraw, String.toList_ofList]
  have hvalue : decimalValue scan.lexeme = 2 ^ 63 := by
    rw [hlexeme]
    decide +kernel
  rw [hconstant]
  refine ⟨htype, _, constantValue_int rfl, ?_⟩
  rw [toInt_constantInt (by decide) (by decide), hvalue]
  rfl

namespace Expr

/-- The literal under the operators. -/
def base : Expr → Literal
  | .literal node => node
  | .unary _ operand _ => operand.base

def operators : Expr → List TokenType
  | .literal _ => []
  | .unary op operand _ => op :: operand.operators

end Expr

theorem inferLiteral_base {node : Expr} {type : ZlType} (h : inferExpr stod node = .ok type) :
    ∃ type', inferLiteral stod node.base = .ok type' := by
  induction node generalizing type with
  | literal literal => exact ⟨type, h⟩
  | unary op operand line ih =>
    unfold inferExpr at h
    cases hoperand : inferExpr stod operand with
    | error e =>
      rw [hoperand] at h
      cases h
    | ok type' => exact ih hoperand

/-- The table has the primitive types of numbers and truth values under the ids it names them by. -/
structure HasPrimitives (types : TypeTable) : Prop where
  int : ∃ type, types.find types.intType = some type ∧ type.kind = .Int
  double : ∃ type, types.find types.doubleType = some type ∧ type.kind = .Double
  bool : ∃ type, types.find types.boolType = some type ∧ type.kind = .Bool

theorem zlTypeOf_typeIdFor {types : TypeTable} (hprimitives : HasPrimitives types)
    (otherType : ZlType → TypeId) {type : ZlType} (h : type = .INT ∨ type = .DOUBLE ∨ type = .BOOL) :
    zlTypeOf types (typeIdFor types otherType type) = type := by
  obtain ⟨⟨int, hint, hintKind⟩, ⟨double, hdouble, hdoubleKind⟩, bool, hbool, hboolKind⟩ := hprimitives
  rcases h with rfl | rfl | rfl
  · simp only [zlTypeOf, typeIdFor, hint, hintKind]
  · simp only [zlTypeOf, typeIdFor, hdouble, hdoubleKind]
  · simp only [zlTypeOf, typeIdFor, hbool, hboolKind]

def unaryOpcode : TokenType → Opcode
  | .MINUS => .Neg
  | .NOT => .Not
  | _ => .BitNot

/-- The instructions of unary operators on an operand, the innermost first, their results numbered
    from `next`, and the operand that they end in. -/
inductive Applied (literal : Operand) (next : TempId) : List TokenType → List Instruction → Operand →
    Prop where
  | literal : Applied literal next [] [] literal
  | unary {op : TokenType} {ops : List TokenType} {is : List Instruction} {operand : Operand}
      (type : TypeId) (h : Applied literal next ops is operand) :
      Applied literal next (op :: ops)
        (is ++ [{ opcode := unaryOpcode op, result := next + is.length, resultType := type,
                  operands := [operand] }])
        (.temp (next + is.length) type)

theorem Applied.isNone {literal operand : Operand} {next : TempId} {ops : List TokenType}
    {is : List Instruction} (h : Applied literal next ops is operand) (hliteral : literal.isNone = false) :
    operand.isNone = false := by
  cases h with
  | literal => exact hliteral
  | unary => rfl

/-- An expression that the checker takes is lowered to the operators it has, on its literal. -/
theorem expression_applied {types : TypeTable} (hprimitives : HasPrimitives types)
    (otherType : ZlType → TypeId) (module : Module) (fb : FunctionBuilder) {node : Expr}
    (hnumber : node.base.literalType = .INT_LITERAL ∨ node.base.literalType = .FLOAT_LITERAL)
    (hops : ∀ op ∈ node.operators, isUnary op = true) {type : ZlType}
    (hinfer : inferExpr stod node = .ok type) :
    zlTypeOf types (expression stod types otherType module fb node).2.2.type = type ∧
      ∃ is, Applied (constOperand stod types node.base module).2 fb.nextTemp node.operators is
          (expression stod types otherType module fb node).2.2 ∧
        (expression stod types otherType module fb node).2.1 =
          { is.foldl FunctionBuilder.append fb with nextTemp := fb.nextTemp + is.length } := by
  have htypes := @zlTypeOf_typeIdFor _ hprimitives otherType
  induction node generalizing type with
  | literal literal =>
    refine ⟨?_, [], .literal, rfl⟩
    change zlTypeOf types (if literal.literalType = .INT_LITERAL then types.intType
      else types.doubleType) = type
    change inferLiteral stod literal = .ok type at hinfer
    unfold inferLiteral at hinfer
    rcases hnumber with htype | htype <;> (change literal.literalType = _ at htype; rw [htype] at hinfer ⊢)
    · dsimp only at hinfer
      split at hinfer
      · split at hinfer <;> cases hinfer
        exact htypes (.inl rfl)
      · cases hinfer
    · dsimp only at hinfer
      split at hinfer
      · split at hinfer <;> cases hinfer
        exact htypes (.inr (.inl rfl))
      · cases hinfer
  | unary op node line ih =>
    unfold inferExpr at hinfer
    cases hoperand : inferExpr stod node with
    | error e =>
      rw [hoperand] at hinfer
      cases hinfer
    | ok operandType =>
      rw [hoperand] at hinfer
      change inferUnary op operandType line = .ok type at hinfer
      obtain ⟨htype, is, happlied, hbuilder⟩ :=
        ih hnumber (fun other hother => hops other (List.mem_cons_of_mem _ hother)) hoperand
      have hop := hops op List.mem_cons_self
      have hsome := happlied.isNone rfl
      change zlTypeOf types (unary types otherType op _ _).2.type = type ∧ ∃ is', Applied _ _
        (op :: node.operators) is' (unary types otherType op _ _).2 ∧
        (unary types otherType op _ _).1 = _
      generalize (expression stod types otherType module fb node).2.2 = operand at happlied hsome htype ⊢
      generalize (expression stod types otherType module fb node).2.1 = fb' at hbuilder ⊢
      subst hbuilder
      have hemit (type : TypeId) := @Applied.unary _ _ op _ _ _ type happlied
      simp only [isUnary, Bool.or_eq_true, decide_eq_true_eq] at hop
      unfold unary
      unfold inferUnary at hinfer
      rw [if_neg (by rw [hsome]; exact Bool.false_ne_true)]
      rcases hop with (rfl | rfl) | rfl
      · dsimp only [operatorFromToken] at hinfer ⊢
        rw [htype]
        cases hresult : unaryResult .Minus operandType with
        | none => rw [hresult] at hinfer; cases hinfer
        | some result =>
          rw [hresult] at hinfer
          cases hinfer
          refine ⟨htypes ?_, _, hemit _, ?_⟩
          · unfold unaryResult at hresult
            grind
          · rw [List.foldl_append, List.length_append]
            rfl
      · cases hinfer
        refine ⟨htypes (.inr (.inr rfl)), _, hemit _, ?_⟩
        rw [List.foldl_append, List.length_append]
        rfl
      · by_cases hint : operandType = .INT
        · subst hint
          cases hinfer
          refine ⟨htypes (.inl rfl), _, hemit _, ?_⟩
          rw [List.foldl_append, List.length_append]
          rfl
        · have hresult : unaryResult .BitNot operandType = none := if_neg hint
          dsimp only [operatorFromToken] at hinfer
          rw [hresult] at hinfer
          cases hinfer

theorem expression_module {types : TypeTable} {otherType : ZlType → TypeId} (module : Module)
    (fb : FunctionBuilder) (node : Expr) :
    (expression stod types otherType module fb node).1 =
      (constOperand stod types node.base module).1 := by
  induction node with
  | literal literal => rfl
  | unary op operand line ih => exact ih

/-- How a number token is read behind unary operators: as its literal under all of them, or the last
    one, a minus, with the token as the literal of the least `int`. -/
theorem parseUnary_number {tok : lexer.Token} (hnumber : tok.type = .INT_LITERAL ∨
      tok.type = .FLOAT_LITERAL)
    (ops after : List lexer.Token) (hops : ∀ op ∈ ops, isUnary op.type = true) :
    ∃ node, parseUnary (ops ++ tok :: after) = some (node, after) ∧
      ((node.base = ⟨tok.type, tok.lexeme, tok.line⟩ ∧ node.operators = ops.map (·.type)) ∨
        (∃ line, node.base = ⟨.INT_LITERAL, "-9223372036854775808", line⟩) ∧ tok.type = .INT_LITERAL ∧
          tok.lexeme = "9223372036854775808" ∧ node.operators ++ [.MINUS] = ops.map (·.type)) := by
  induction ops with
  | nil =>
    refine ⟨.literal ⟨tok.type, tok.lexeme, tok.line⟩, ?_, .inl ⟨rfl, rfl⟩⟩
    unfold parseUnary
    rcases hnumber with htype | htype <;> simp [htype, isUnary]
  | cons op ops ih =>
    obtain ⟨node, hparse, hnode⟩ := ih fun op' hop' => hops op' (List.mem_cons_of_mem _ hop')
    refine ⟨unaryExpr op node, ?_, ?_⟩
    · rw [List.cons_append, parseUnary, if_pos (hops op List.mem_cons_self), hparse]
      rfl
    · cases node with
      | unary op' operand line =>
        rcases hnode with ⟨hbase, hoperators⟩ | ⟨hbase, htype, hlexeme, hoperators⟩
        · exact .inl ⟨hbase, by rw [List.map_cons, ← hoperators]; rfl⟩
        · exact .inr ⟨hbase, htype, hlexeme, by rw [List.map_cons, ← hoperators]; rfl⟩
      | literal literal =>
        unfold unaryExpr
        dsimp only
        rcases hnode with ⟨rfl, hoperators⟩ | ⟨⟨line, rfl⟩, htype, hlexeme, hoperators⟩
        · split
          next hleast =>
            refine .inr ⟨⟨op.line, ?_⟩, hleast.2.1, hleast.2.2, ?_⟩
            · rw [Expr.base, hleast.2.1]
            · rw [List.map_cons, ← hoperators, hleast.1]
              rfl
          next => exact .inl ⟨rfl, by rw [List.map_cons, ← hoperators]; rfl⟩
        · have hraw : "-9223372036854775808" ≠ "9223372036854775808" := by decide
          rw [if_neg fun hleast => hraw hleast.2.2]
          exact .inr ⟨⟨line, rfl⟩, htype, hlexeme, by rw [List.map_cons, ← hoperators]; rfl⟩

/-- A number token is refused, or what its expression is lowered to applies the unary operators before
    it to the value that it spells; the least `int` is spelled with the last minus before it. In a match
    pattern it is refused or the operand has that value. -/
theorem number_literal_exact (hstod : RoundsDecimals stod) (hscan : scanToken c rest = .ok scan)
    (hnumber : scan.type = .INT_LITERAL ∨ scan.type = .FLOAT_LITERAL) (start : Cursor) :
    (∀ ops after : List lexer.Token, (∀ op ∈ ops, isUnary op.type = true) →
      ∃ node, parseUnary (ops ++ (Scanned.mk start scan).token :: after) = some (node, after) ∧
        ((∃ message, inferExpr stod node = .error message) ∨
          ∀ (types : TypeTable) (otherType : ZlType → TypeId) (module : Module) (fb : FunctionBuilder),
            HasPrimitives types → ∃ literal is,
              Applied literal fb.nextTemp node.operators is
                (expression stod types otherType module fb node).2.2 ∧
              (expression stod types otherType module fb node).2.1 =
                { is.foldl FunctionBuilder.append fb with nextTemp := fb.nextTemp + is.length } ∧
              ∀ (values : Operand → gc.Value) (v : gc.Value),
                valueIn (expression stod types otherType module fb node).1 values literal = v →
                  (Denotes scan v ∧ node.operators = ops.map (·.type)) ∨
                    DenotesMinus scan v ∧ node.operators ++ [.MINUS] = ops.map (·.type))) ∧
    ∀ compatible : ZlType → Bool,
      (∃ message, checkLiteralPattern stod compatible (literalOf scan start.line) = .error message) ∨
        ∀ (types : TypeTable) (module : Module) (values : Operand → gc.Value), ∃ v,
          valueIn (patternValue stod types (literalOf scan start.line) module).1 values
            (patternValue stod types (literalOf scan start.line) module).2 = v ∧ Denotes scan v := by
  have hspelled := scanToken_spelled hscan hnumber
  refine ⟨fun ops after hops => ?_, fun compatible => ?_⟩
  · have htoken : (Scanned.mk start scan).token.type = .INT_LITERAL ∨
        (Scanned.mk start scan).token.type = .FLOAT_LITERAL := hnumber
    obtain ⟨node, hparse, hnode⟩ := parseUnary_number htoken ops after hops
    refine ⟨node, hparse, ?_⟩
    cases hinfer : inferExpr stod node with
    | error message => exact .inl ⟨message, rfl⟩
    | ok type =>
      refine .inr fun types otherType module fb hprimitives => ?_
      obtain ⟨hbaseType, hopsNode⟩ : (node.base.literalType = .INT_LITERAL ∨
          node.base.literalType = .FLOAT_LITERAL) ∧ ∀ op ∈ node.operators, isUnary op = true := by
        have hmapped : ∀ op ∈ ops.map (·.type), isUnary op = true := by simpa using hops
        rcases hnode with ⟨hliteral, hoperators⟩ | ⟨⟨line, hliteral⟩, -, -, hoperators⟩
        · exact ⟨by rw [hliteral]; exact htoken, by rwa [hoperators]⟩
        · refine ⟨by rw [hliteral]; exact .inl rfl, fun op hop => hmapped op ?_⟩
          rw [← hoperators]
          exact List.mem_append_left _ hop
      obtain ⟨-, is, happlied, hbuilder⟩ :=
        expression_applied hprimitives otherType module fb hbaseType hopsNode hinfer
      refine ⟨_, is, happlied, hbuilder, fun values v hv => ?_⟩
      rw [expression_module, constOperand, valueIn_constantResult] at hv
      subst hv
      obtain ⟨type', hbase⟩ := inferLiteral_base hinfer
      rcases hnode with ⟨hliteral, hoperators⟩ | ⟨⟨line, hliteral⟩, htype, hlexeme, hoperators⟩
      · rw [hliteral] at hbase ⊢
        exact .inl ⟨denotes_numberConstant hstod hspelled hbase, hoperators⟩
      · rw [hliteral]
        exact .inr ⟨denotesMinus_numberConstant htype hlexeme, hoperators⟩
  · unfold checkLiteralPattern
    cases hinfer : inferLiteral stod (literalOf scan start.line) with
    | error message => exact .inl ⟨message, rfl⟩
    | ok type =>
      refine .inr fun types module values => ⟨_, rfl, ?_⟩
      rw [patternValue, valueIn_constantResult]
      exact denotes_numberConstant hstod hspelled hinfer

/-- `stod` on decimal fractions alone. -/
def fractionStod : Stod := fun text =>
  match text.toList.dropWhile Char.isDigit with
  | '.' :: fraction =>
    let x := Binary64.round false
      (decimalValue (text.toList.takeWhile Char.isDigit ++ fraction) * unit) (10 ^ fraction.length)
    if x.isFinite then .ok (x, text.toList.length) else .error .out_of_range
  | _ => .error .invalid_argument

theorem fractionStod_rounds : RoundsDecimals fractionStod where
  rounds whole fraction x pos hdigits _ hread := by
    have hwhole : ∀ d ∈ whole, d.isDigit = true := fun d hd => hdigits d (List.mem_append_left _ hd)
    have hsplit : (whole ++ '.' :: fraction).takeWhile Char.isDigit = whole ∧
        (whole ++ '.' :: fraction).dropWhile Char.isDigit = '.' :: fraction := by
      rw [List.takeWhile_append_of_pos hwhole, List.dropWhile_append_of_pos hwhole]
      exact ⟨by simp [show ('.' : Char).isDigit = false from rfl], rfl⟩
    unfold fractionStod at hread
    simp only [String.toList_ofList, hsplit] at hread
    split at hread
    next hfinite =>
      obtain ⟨rfl, rfl⟩ := Prod.mk.inj (Except.ok.inj hread)
      exact ⟨rfl, hfinite, rfl⟩
    next => cases hread

def primitiveTypes : TypeTable where
  find id := [TypeKind.Unknown, .Bool, .Int, .Double, .String][id]?.map fun kind => { kind }
  isNullable _ := false
  boolType := 1
  intType := 2
  doubleType := 3
  stringType := 4

theorem number_literal_exact_half :
    (∃ literal is,
      Applied literal 1 [.MINUS] is
        (expression fractionStod primitiveTypes (fun _ => 0) {} {}
          (.unary .MINUS (.literal ⟨.FLOAT_LITERAL, "0.5", 1⟩) 1)).2.2 ∧
      Denotes (makeToken .FLOAT_LITERAL ['0', '.', '5'])
        (valueIn (expression fractionStod primitiveTypes (fun _ => 0) {} {}
          (.unary .MINUS (.literal ⟨.FLOAT_LITERAL, "0.5", 1⟩) 1)).1 (fun _ => .nil) literal)) ∧
    Denotes (makeToken .FLOAT_LITERAL ['0', '.', '5'])
      (valueIn (patternValue fractionStod primitiveTypes ⟨.FLOAT_LITERAL, "0.5", 1⟩ {}).1 (fun _ => .nil)
        (patternValue fractionStod primitiveTypes ⟨.FLOAT_LITERAL, "0.5", 1⟩ {}).2) := by
  have hliteral : literalOf (makeToken .FLOAT_LITERAL ['0', '.', '5']) 1 =
    ⟨.FLOAT_LITERAL, "0.5", 1⟩ := rfl
  have hscan : scanToken '0' ['.', '5'] = .ok (makeToken .FLOAT_LITERAL ['0', '.', '5']) := by decide
  have hexact := number_literal_exact fractionStod_rounds hscan (.inr rfl) ⟨['0', '.', '5'], 0, 1, 1⟩
  constructor
  · obtain ⟨node, hparse, hlowered⟩ := hexact.1 [⟨.MINUS, "-", 1, 1⟩] [] (by simp [isUnary])
    obtain rfl : .unary .MINUS (.literal ⟨.FLOAT_LITERAL, "0.5", 1⟩) 1 = node :=
      (Prod.mk.inj (Option.some.inj hparse)).1
    rcases hlowered with ⟨message, herror⟩ | hlowered
    · have hinfer : inferExpr fractionStod (.unary .MINUS (.literal ⟨.FLOAT_LITERAL, "0.5", 1⟩) 1) =
          .ok .DOUBLE := by
        decide +kernel
      rw [hinfer] at herror
      cases herror
    · have hprimitives : HasPrimitives primitiveTypes := ⟨⟨_, rfl, rfl⟩, ⟨_, rfl, rfl⟩, _, rfl, rfl⟩
      obtain ⟨literal, is, happlied, -, hvalue⟩ := hlowered _ (fun _ => 0) {} {} hprimitives
      refine ⟨literal, is, happlied, ?_⟩
      rcases hvalue (fun _ => .nil) _ rfl with hdenotes | hminus
      · exact hdenotes.1
      · cases hminus.1.1
  · rcases hexact.2 fun _ => true with ⟨message, herror⟩ | hvalue
    · have hchecks : checkLiteralPattern fractionStod (fun _ => true) ⟨.FLOAT_LITERAL, "0.5", 1⟩ =
          .ok false := by
        decide +kernel
      rw [hliteral, hchecks] at herror
      cases herror
    · obtain ⟨v, rfl, hdenotes⟩ := hvalue primitiveTypes {} fun _ => .nil
      exact hdenotes

end zl.mir
