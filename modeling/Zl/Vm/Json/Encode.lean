import Zl.Vm.Gc.Heap
import Zl.Vm.Json.JsonParser

open zl.vm.gc

namespace zl.vm.json

/-- What the C++ library does between doubles, given by their bit patterns, and decimal text. -/
structure StandardLibrary where
  /-- `std::to_chars` in scientific form, where there is one. -/
  toChars : Nat → Option Bytes
  /-- `std::snprintf` of `%.*e`, if the text fits. -/
  snprintf : Nat → Nat → Option Bytes
  strtod : Bytes → Nat
  stod : Bytes → Option Nat
  /-- What a stream writes with the precision of 17 digits. -/
  longForm : Nat → Bytes

def exponentMark : UInt8 := 'e'.toUInt8

def signbit (bits : Nat) : Bool := bits / 2 ^ 63 % 2 = 1

def fabs (bits : Nat) : Nat := bits % 2 ^ 63

def isFinite (bits : Nat) : Bool := bits / 2 ^ 52 % 2 ^ 11 ≠ 2047

/-- The decimal digits of a number. -/
def decimal (n : Nat) : Bytes := (Nat.toDigits 10 n).map Char.toUInt8

/-- `std::to_string`. -/
def stdToString (n : Int) : Bytes := if n < 0 then minus :: decimal n.natAbs else decimal n.natAbs

/-- `std::strtol` on the exponent of the scientific form. -/
def strtol (s : Bytes) : Int :=
  let (sgn, digits) := sign (fun c => c = plus || c = minus) s
  let magnitude : Int := digitsValue (digits.takeWhile isDigit)
  if sgn = [minus] then -magnitude else magnitude

/-- The digits and the exponent of a number in scientific form. -/
def scientificParts (text : Bytes) : Option (Bytes × Int) :=
  match text.dropWhile (· ≠ exponentMark) with
  | [] => none
  | _ :: exponent => some ((text.takeWhile (· ≠ exponentMark)).filter (· ≠ dot), strtol exponent)

/-- `jsonEscape` on a byte. -/
def escapeByte (c : UInt8) : Bytes :=
  let hex (n : UInt8) : UInt8 := if n < 10 then 48 + n else 87 + n
  if c = quote then [backslash, quote]
  else if c = backslash then [backslash, backslash]
  else if c = 8 then [backslash, 'b'.toUInt8]
  else if c = 12 then [backslash, 'f'.toUInt8]
  else if c = 10 then [backslash, 'n'.toUInt8]
  else if c = 13 then [backslash, 'r'.toUInt8]
  else if c = 9 then [backslash, 't'.toUInt8]
  else if c < 0x20 then [backslash, 'u'.toUInt8, zero, zero, hex (c >>> 4), hex (c &&& 0x0F)]
  else [c]

def jsonEscape (s : Bytes) : Bytes := quote :: (s.flatMap escapeByte ++ [quote])

def digitsErase (digits : Bytes) : Bytes :=
  match digits.rdropWhile (· = zero) with
  | [] => digits.take 1
  | significant => significant

/-- Fixed or scientific form, as the position of the decimal point has it. -/
def spelling (digits : Bytes) (exponent : Int) : Bytes :=
  let point := exponent + 1
  if -4 < point ∧ point ≤ 17 then
    if point ≤ 0 then zero :: dot :: (List.replicate (-point).toNat zero ++ digits)
    else if digits.length ≤ point.toNat then digits ++ List.replicate (point.toNat - digits.length) zero
    else digits.take point.toNat ++ dot :: digits.drop point.toNat
  else
    let out := if 1 < digits.length then digits.take 1 ++ dot :: digits.drop 1 else digits
    let scientificExponent := point - 1
    out ++ exponentMark :: (if scientificExponent < 0 then minus else plus) ::
      ((if scientificExponent.natAbs < 10 then [zero] else []) ++ decimal scientificExponent.natAbs)

/-- A list, as an array whose items are separated by commas. -/
def separated {A : Type} (encode : A → Except String Bytes) : List A → Except String Bytes
  | [] => .ok []
  | [a] => encode a
  | a :: rest => do
    let text ← encode a
    let texts ← separated encode rest
    return text ++ comma :: texts

/-- A member of an object. -/
def encodeField (encode : gc.Value → Except String Bytes) (field : String × gc.Value) :
    Except String Bytes := do
  let text ← encode field.2
  return jsonEscape field.1.toUTF8.toList ++ colon :: text

/-- An entry of a map. -/
def encodeEntry (encode : gc.Value → Except String Bytes) : gc.Value × gc.Value → Except String Bytes
  | (.string key, value) => do
    let text ← encode value
    return jsonEscape key ++ colon :: text
  | _ => .error "Serialize.encode: object keys must be strings"

section
variable (lib : StandardLibrary)

/-- Printing with one more digit, until the text reads back as the double. -/
def digitsOfPrecision (magnitude : Nat) : List Nat → Option (Bytes × Int)
  | [] => none
  | precision :: rest =>
    match lib.snprintf (precision - 1) magnitude with
    | none => none
    | some text => if lib.strtod text ≠
        magnitude then digitsOfPrecision magnitude rest else scientificParts text

def shortestDigits (bits : Nat) : Option (Bytes × Int) :=
  let magnitude := fabs bits
  let fromToChars := (lib.toChars magnitude).bind fun text =>
    (scientificParts text).filter fun _ => lib.strtod text = magnitude
  match fromToChars with
  | some parts => some parts
  | none => digitsOfPrecision lib magnitude (List.range' 1 17)

def doubleToShortestString (bits : Nat) : Bytes :=
  if fabs bits = 0 then if signbit bits then [minus, zero] else [zero]
  else
    match shortestDigits lib bits with
    | none => lib.longForm bits
    | some (digits, exponent) =>
      let out := spelling (digitsErase digits) exponent
      if signbit bits then minus :: out else out

/-- The scalars of `toJsonInner`, and the null handles. -/
def encodeValue (encodeBox : BoxId → Except String Bytes) : gc.Value → Except String Bytes
  | .nil => .ok nullText
  | .bool held => .ok (if held then trueText else falseText)
  | .int held => .ok (stdToString held.toInt)
  | .double bits =>
    if isFinite bits then .ok (doubleToShortestString lib bits) else .error
      "Serialize.encode: non-finite number"
  | .string held => .ok (jsonEscape held)
  | .box .closure _ => .error "Serialize.encode: unsupported value"
  | .box kind (some a) => encodeBox ⟨kind, a⟩
  | .box _ none => .ok nullText
  | _ => .error "Serialize.encode: unsupported value"

variable (heap : Heap)

/-- The native storage that a collection class of the library wraps. -/
def nativeStorage (box : ObjectBox) : Option gc.Value :=
  if box.className = "List" ∨ box.className = "Map" ∨
    box.className = "Set" then box.objectFieldLookup "__native" else none

/-- The boxes of `toJsonInner`. -/
def encodeBox (encode : gc.Value → Except String Bytes) : BoxId → Except String Bytes
  | ⟨.list, a⟩ => do
    let texts ← separated encode (listAt heap a).items
    return openBracket :: (texts ++ [closeBracket])
  | ⟨.map, a⟩ => do
    let texts ← separated (encodeEntry encode) (mapAt heap a).entries
    return openBrace :: (texts ++ [closeBrace])
  | ⟨.object, a⟩ =>
    match nativeStorage (objectAt heap a) with
    | some native => encode native
    | none => do
      let texts ← separated (encodeField encode) (namedFields (objectAt heap a))
      return openBrace :: (texts ++ [closeBrace])
  | ⟨.closure, _⟩ => .error "Serialize.encode: unsupported value"

/-- A value, where boxes may still be nested `room` deep. `active` are the boxes on the way to it. -/
def toJsonInner : Nat → List BoxId → gc.Value → Except String Bytes
  | 0, active, v =>
    encodeValue lib (fun id =>
      if id ∈ active then .error "Serialize.encode: circular reference detected"
      else .error "Serialize.encode: nesting exceeds the maximum depth of 500") v
  | room + 1, active, v =>
    encodeValue lib (fun id =>
      if id ∈ active then .error "Serialize.encode: circular reference detected"
      else encodeBox heap (toJsonInner room (id :: active)) id) v

def serializeEncode (v : gc.Value) : Except String Bytes :=
  toJsonInner lib heap kMaxValueNestingDepth [] v

end

end zl.vm.json
