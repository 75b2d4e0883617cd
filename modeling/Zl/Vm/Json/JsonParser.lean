import Mathlib

namespace zl.vm.json

abbrev Bytes := List UInt8

/-- What `Serialize.decode` builds. Every array and every object is a new box that nothing else
    refers to, so that the value is a tree. A double is its bit pattern. -/
inductive Decoded where
  | nil
  | bool (held : Bool)
  | int (held : Int64)
  | double (bits : Nat)
  | string (held : Bytes)
  | list (items : List Decoded)
  | map (entries : List (Bytes × Decoded))

def quote : UInt8 := '"'.toUInt8

def backslash : UInt8 := '\\'.toUInt8

def comma : UInt8 := ','.toUInt8

def colon : UInt8 := ':'.toUInt8

def openBracket : UInt8 := '['.toUInt8

def closeBracket : UInt8 := ']'.toUInt8

def openBrace : UInt8 := '{'.toUInt8

def closeBrace : UInt8 := '}'.toUInt8

def minus : UInt8 := '-'.toUInt8

def plus : UInt8 := '+'.toUInt8

def dot : UInt8 := '.'.toUInt8

def zero : UInt8 := '0'.toUInt8

def nullText : Bytes := ['n', 'u', 'l', 'l'].map Char.toUInt8

def trueText : Bytes := ['t', 'r', 'u', 'e'].map Char.toUInt8

def falseText : Bytes := ['f', 'a', 'l', 's', 'e'].map Char.toUInt8

/-- `std::isspace` in the C locale. -/
def isSpace (c : UInt8) : Bool := c = 32 || (9 ≤ c && c ≤ 13)

def isDigit (c : UInt8) : Bool := 48 ≤ c && c ≤ 57

def isExponentMark (c : UInt8) : Bool := c = 'e'.toUInt8 || c = 'E'.toUInt8

/-- Why the parser gave up, and how many bytes were left then. -/
structure Failure where
  message : String
  left : Nat

def fail {A : Type} (message : String) (s : Bytes) : Except Failure A :=
  .error { message := message, left := s.length }

def ws (s : Bytes) : Bytes := s.dropWhile isSpace

def appendUtf8 (cp : Nat) : Bytes :=
  if cp ≤ 0x7F then [UInt8.ofNat cp]
  else if cp ≤ 0x7FF then [UInt8.ofNat (0xC0 + cp / 64), UInt8.ofNat (0x80 + cp % 64)]
  else if cp ≤ 0xFFFF then
    [UInt8.ofNat (0xE0 + cp / 4096), UInt8.ofNat (0x80 + cp / 64 % 64), UInt8.ofNat (0x80 + cp % 64)]
  else
    [UInt8.ofNat (0xF0 + cp / 262144), UInt8.ofNat (0x80 + cp / 4096 % 64),
      UInt8.ofNat (0x80 + cp / 64 % 64), UInt8.ofNat (0x80 + cp % 64)]

def hexDigit (c : UInt8) : Option Nat :=
  if '0'.toUInt8 ≤ c ∧ c ≤ '9'.toUInt8 then some (c.toNat - 48)
  else if 'a'.toUInt8 ≤ c ∧ c ≤ 'f'.toUInt8 then some (c.toNat - 97 + 10)
  else if 'A'.toUInt8 ≤ c ∧ c ≤ 'F'.toUInt8 then some (c.toNat - 65 + 10)
  else none

/-- A digit of a unicode escape, with what is behind it. -/
def hexDigitOrFail (c : UInt8) (s : Bytes) : Except Failure Nat :=
  match hexDigit c with
  | some d => .ok d
  | none => fail "invalid unicode escape" s

def hex4 : Bytes → Except Failure (Nat × Bytes)
  | a :: b :: c :: d :: s => do
    let a ← hexDigitOrFail a (b :: c :: d :: s)
    let b ← hexDigitOrFail b (c :: d :: s)
    let c ← hexDigitOrFail c (d :: s)
    let d ← hexDigitOrFail d s
    return (((a * 16 + b) * 16 + c) * 16 + d, s)
  | s => fail "incomplete unicode escape" s

/-- What follows `\u`. A code point beyond the first plane is a pair of surrogates. -/
def unicodeEscape (s : Bytes) : Except Failure (Bytes × Bytes) := do
  let (first, s) ← hex4 s
  if 0xD800 ≤ first ∧ first ≤ 0xDBFF then
    match s with
    | b :: u :: s' =>
      if b = backslash ∧ u = 'u'.toUInt8 then
        let (second, s) ← hex4 s'
        if second < 0xDC00 ∨ second > 0xDFFF then fail "invalid low surrogate" s
        else return (appendUtf8 (0x10000 + (first - 0xD800) * 1024 + (second - 0xDC00)), s)
      else fail "high surrogate must be followed by a low surrogate" s
    | s => fail "high surrogate must be followed by a low surrogate" s
  else if 0xDC00 ≤ first ∧ first ≤ 0xDFFF then fail "unexpected low surrogate" s
  else return (appendUtf8 first, s)

def simpleEscape (e : UInt8) : Option UInt8 :=
  if e = quote then some quote
  else if e = backslash then some backslash
  else if e = '/'.toUInt8 then some '/'.toUInt8
  else if e = 'b'.toUInt8 then some 8
  else if e = 'f'.toUInt8 then some 12
  else if e = 'n'.toUInt8 then some 10
  else if e = 'r'.toUInt8 then some 13
  else if e = 't'.toUInt8 then some 9
  else none

/-- The loop of `parseString`. A round takes at least one byte, so that `fuel` for all of them is
    used up at the end of the text only. -/
def stringLoop : Nat → Bytes → Except Failure (Bytes × Bytes)
  | _, [] => fail "unterminated string" []
  | 0, s => fail "unterminated string" s
  | fuel + 1, c :: s =>
    if c = quote then .ok ([], s)
    else if c < 0x20 then fail "unescaped control character in string" s
    else if c ≠ backslash then do
      let (out, s) ← stringLoop fuel s
      return (c :: out, s)
    else
      match s with
      | [] => fail "unterminated escape" []
      | e :: s =>
        if e = 'u'.toUInt8 then do
          let (cp, s) ← unicodeEscape s
          let (out, s) ← stringLoop fuel s
          return (cp ++ out, s)
        else
          match simpleEscape e with
          | some b => do
            let (out, s) ← stringLoop fuel s
            return (b :: out, s)
          | none => fail "unsupported escape" s

def parseString (s : Bytes) : Except Failure (Bytes × Bytes) :=
  match ws s with
  | c :: s => if c = quote then stringLoop s.length s else fail "expected string" (c :: s)
  | [] => fail "expected string" []

/-- An optional sign. -/
def sign (isSign : UInt8 → Bool) : Bytes → Bytes × Bytes
  | [] => ([], [])
  | c :: s => if isSign c then ([c], s) else ([], c :: s)

def integerPart (s : Bytes) : Except Failure (Bytes × Bytes) :=
  match s with
  | [] => fail "expected number" []
  | c :: rest =>
    if !isDigit c then fail "expected number" s
    else if c = zero then
      match rest with
      | [] => .ok ([zero], [])
      | d :: rest' => if isDigit d then fail "leading zero in number" rest else .ok ([zero], d :: rest')
    else .ok (s.span isDigit)

def fractionPart (s : Bytes) : Except Failure (Bytes × Bytes) :=
  match s with
  | [] => .ok ([], [])
  | c :: rest =>
    if c = dot then
      match rest.span isDigit with
      | ([], _) => fail "expected digit after decimal point" rest
      | (digits, rest) => .ok (dot :: digits, rest)
    else .ok ([], s)

def exponentPart (s : Bytes) : Except Failure (Bytes × Bytes) :=
  match s with
  | [] => .ok ([], [])
  | c :: rest =>
    if isExponentMark c then
      let (sgn, rest) := sign (fun c => c = plus || c = minus) rest
      match rest.span isDigit with
      | ([], _) => fail "expected digit in exponent" rest
      | (digits, rest) => .ok (c :: (sgn ++ digits), rest)
    else .ok ([], s)

/-- The value of a run of digits. -/
def digitsValue (digits : Bytes) : Nat := digits.foldl (fun value d => value * 10 + (d.toNat - 48)) 0

/-- `std::stoll` on the text of a number without fraction and exponent. -/
def stoll (n : Bytes) : Option Int64 :=
  let value : Int := match n with
    | c :: digits => if c = minus then -(digitsValue digits : Int) else (digitsValue n : Int)
    | [] => 0
  if -2 ^ 63 ≤ value ∧ value < 2 ^ 63 then some (Int64.ofInt value) else none

section
variable (stod : Bytes → Option Nat)

def parseNumber (s : Bytes) : Except Failure (Decoded × Bytes) := do
  let (sgn, rest) := sign (· = minus) (ws s)
  let (int, rest) ← integerPart rest
  let (frac, rest) ← fractionPart rest
  let (exp, rest) ← exponentPart rest
  let n := sgn ++ int ++ frac ++ exp
  let value := if frac ≠ [] ∨ exp ≠ [] then (stod n).map Decoded.double else (stoll n).map Decoded.int
  match value with
  | some value => return (value, rest)
  | none => fail "invalid number" rest

/-- The loop of `parseArray`, which has `fuel` for the bytes that are left: each round takes one. -/
def itemsLoop (parseValue : Bytes → Except Failure (Decoded × Bytes)) : Nat → Bytes →
    Except Failure (List Decoded × Bytes)
  | 0, s => fail "unexpected end" s
  | fuel + 1, s => do
    let (value, s) ← parseValue s
    match ws s with
    | [] => fail "expected ',' or ']'" []
    | c :: rest =>
      if c = closeBracket then return ([value], rest)
      else if c = comma then
        match ws rest with
        | [] => do
          let (values, s) ← itemsLoop parseValue fuel []
          return (value :: values, s)
        | d :: rest =>
          if d = closeBracket then fail "trailing comma in array" (d :: rest)
          else do
            let (values, s) ← itemsLoop parseValue fuel (d :: rest)
            return (value :: values, s)
      else fail "expected ',' or ']'" (c :: rest)

def parseArray (parseValue : Bytes → Except Failure (Decoded × Bytes)) (s : Bytes) :
    Except Failure (Decoded × Bytes) :=
  match ws s with
  | c :: rest =>
    if c = closeBracket then .ok (.list [], rest)
    else do
      let (values, s) ← itemsLoop parseValue (c :: rest).length (c :: rest)
      return (.list values, s)
  | [] => fail "unexpected end" []

def membersLoop (parseValue : Bytes → Except Failure (Decoded × Bytes)) :
    Nat → Bytes → Except Failure (List (Bytes × Decoded) × Bytes)
  | 0, s => fail "object key must be string" s
  | fuel + 1, s =>
    match ws s with
    | [] => fail "object key must be string" []
    | c :: rest =>
      if c ≠ quote then fail "object key must be string" (c :: rest)
      else do
        let (key, s) ← parseString (c :: rest)
        match ws s with
        | [] => fail "expected ':'" []
        | c :: rest =>
          if c ≠ colon then fail "expected ':'" (c :: rest)
          else do
            let (value, s) ← parseValue rest
            match ws s with
            | [] => fail "expected ',' or '\x7d'" []
            | c :: rest =>
              if c = closeBrace then return ([(key, value)], rest)
              else if c = comma then
                match ws rest with
                | [] => do
                  let (members, s) ← membersLoop parseValue fuel []
                  return ((key, value) :: members, s)
                | d :: rest =>
                  if d = closeBrace then fail "trailing comma in object" (d :: rest)
                  else do
                    let (members, s) ← membersLoop parseValue fuel (d :: rest)
                    return ((key, value) :: members, s)
              else fail "expected ',' or '\x7d'" (c :: rest)

def parseObject (parseValue : Bytes → Except Failure (Decoded × Bytes)) (s : Bytes) :
    Except Failure (Decoded × Bytes) :=
  match ws s with
  | c :: rest =>
    if c = closeBrace then .ok (.map [], rest)
    else do
      let (members, s) ← membersLoop parseValue (c :: rest).length (c :: rest)
      return (.map members, s)
  | [] => fail "object key must be string" []

def kMaxNestingDepth : Nat := 500

/-- A value, where arrays and objects may still be nested `room` deep. -/
def parseValue (room : Nat) (s : Bytes) : Except Failure (Decoded × Bytes) :=
  match ws s with
  | [] => fail "unexpected end" []
  | c :: rest =>
    if c = quote then do
      let (out, s) ← parseString (c :: rest)
      return (.string out, s)
    else if c = openBrace ∨ c = openBracket then
      match room with
      | 0 => fail "nesting too deep (limit 500)" (c :: rest)
      | room + 1 => if c = openBrace then parseObject (parseValue room) rest else parseArray
          (parseValue room) rest
    else if trueText <+: c :: rest then .ok (.bool true, (c :: rest).drop 4)
    else if falseText <+: c :: rest then .ok (.bool false, (c :: rest).drop 5)
    else if nullText <+: c :: rest then .ok (.nil, (c :: rest).drop 4)
    else parseNumber stod (c :: rest)

/-- `Serialize.decode`, whose errors name the offset. -/
def serializeDecode (s : Bytes) : Except String Decoded :=
  let parsed := do
    let (value, rest) ← parseValue stod kMaxNestingDepth s
    match ws rest with
    | [] => return value
    | rest => fail "trailing characters" rest
  parsed.mapError fun failure =>
    "Serialize.decode: " ++ failure.message ++ " at offset " ++ toString (s.length - failure.left)

end

end zl.vm.json
