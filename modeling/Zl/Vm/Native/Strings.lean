import Mathlib.Data.List.Basic

namespace zl.vm.native

/-- A string of the machine: its bytes, of any value. -/
abbrev Bytes := List UInt8

/-- The byte of an ASCII character. -/
def byte (c : Char) : UInt8 := c.toNat.toUInt8

theorem forall_byte {P : UInt8 → Prop} (h : ∀ n < 256, P n.toUInt8) (c : UInt8) : P c := by
  have hc := h c.toNat c.toNat_lt
  rwa [Nat.toUInt8, UInt8.ofNat_toNat] at hc

inductive Failure where
  | indexError (message : String)
  | runtimeError (message : String)
  deriving DecidableEq, Repr

namespace strings

structure Utf8Char where
  bytes : Bytes
  cp : Nat
  next : Nat
  deriving DecidableEq, Repr

/-- How many bytes a lead byte asks for, and the bits of the code point it holds itself. -/
def leadByte (u : UInt8) : Option (Nat × Nat) :=
  if u &&& 0xE0 = 0xC0 then some (2, (u &&& 0x1F).toNat)
  else if u &&& 0xF0 = 0xE0 then some (3, (u &&& 0x0F).toNat)
  else if u &&& 0xF8 = 0xF0 then some (4, (u &&& 0x07).toNat)
  else none

def continuations : Bytes → Nat → Option Nat
  | [], cp => some cp
  | c :: rest, cp =>
    if c &&& 0xC0 ≠ 0x80 then none else continuations rest (cp <<< 6 ||| (c &&& 0x3F).toNat)

/-- Too small for its length, beyond the last code point, or a surrogate. -/
def notScalar (need cp : Nat) : Bool :=
  let minCp := if need = 2 then 0x80 else if need = 3 then 0x800 else 0x10000
  cp < minCp ∨ 0x10FFFF < cp ∨ (0xD800 ≤ cp ∧ cp ≤ 0xDFFF)

/-- The byte at a position as a character on its own. -/
def oneByte (s : Bytes) (i : Nat) : Utf8Char := ⟨(s.drop i).take 1, (s.getD i 0).toNat, i + 1⟩

def utf8Next (s : Bytes) (i : Nat) : Utf8Char :=
  let u := s.getD i 0
  if u < 0x80 then oneByte s i
  else match leadByte u with
    | none => oneByte s i
    | some (need, cp) =>
      if s.length < i + need then oneByte s i
      else match continuations ((s.drop (i + 1)).take (need - 1)) cp with
        | none => oneByte s i
        | some cp =>
          if notScalar need cp then oneByte s i else ⟨(s.drop i).take need, cp, i + need⟩

theorem leadByte_pos {u : UInt8} {need cp : Nat} (h : leadByte u = some (need, cp)) : 0 < need := by
  unfold leadByte at h
  split at h
  · cases h
    decide
  · split at h
    · cases h
      decide
    · split at h
      · cases h
        decide
      · cases h

theorem utf8Next_gt (s : Bytes) (i : Nat) : i < (utf8Next s i).next := by
  have hone : i < (oneByte s i).next := Nat.lt_succ_self i
  unfold utf8Next
  dsimp only
  split
  · exact hone
  split
  · exact hone
  next hlead =>
    split
    · exact hone
    split
    · exact hone
    split
    · exact hone
    · exact Nat.lt_add_of_pos_right (leadByte_pos hlead)

section
variable (s : Bytes)

def utf8LengthFrom (i n : Nat) : Nat :=
  if i < s.length then utf8LengthFrom (utf8Next s i).next (n + 1) else n
  termination_by s.length - i
  decreasing_by
    have := utf8Next_gt s i
    omega

def utf8LengthOf : Nat := utf8LengthFrom s 0 0

def utf8AtFrom (index : Int) (fnName : String) (i n : Nat) : Except Failure Utf8Char :=
  if i < s.length then
    if n = index then .ok (utf8Next s i) else utf8AtFrom index fnName (utf8Next s i).next (n + 1)
  else .error (.indexError s!"{fnName}: index {index} out of bounds (size {n})")
  termination_by s.length - i
  decreasing_by
    have := utf8Next_gt s i
    omega

def utf8At (index : Int) (fnName : String) : Except Failure Utf8Char :=
  if index < 0 then .error (.indexError s!"{fnName}: index {index} out of bounds")
  else utf8AtFrom s index fnName 0 0

def utf8Length : Int := utf8LengthOf s

def utf8CharAt (index : Int) : Except Failure Bytes :=
  Utf8Char.bytes <$> utf8At s index "String.utf8CharAt"

def utf8CodePointAt (index : Int) : Except Failure Int :=
  (fun ch => (ch.cp : Int)) <$> utf8At s index "String.utf8CodePointAt"

def utf8SubstringFrom (start stop : Nat) (i idx : Nat) (out : Bytes) : Bytes :=
  if i < s.length ∧ idx < stop then
    utf8SubstringFrom start stop (utf8Next s i).next (idx + 1)
      (if start ≤ idx then out ++ (utf8Next s i).bytes else out)
  else out
  termination_by s.length - i
  decreasing_by
    have := utf8Next_gt s i
    omega

def utf8Substring (start stop : Int) : Except Failure Bytes :=
  let n := utf8LengthOf s
  if start < 0 ∨ stop < start ∨ n < stop then
    .error (.runtimeError
      s!"String.utf8Substring: invalid range [{start}, {stop}) for a string of length {n}")
  else .ok (utf8SubstringFrom s start.toNat stop.toNat 0 0 [])

/-- The characters of a walk from a position on. -/
def utf8Walk (i : Nat) : List Bytes :=
  if i < s.length then (utf8Next s i).bytes :: utf8Walk (utf8Next s i).next else []
  termination_by s.length - i
  decreasing_by
    have := utf8Next_gt s i
    omega

def utf8Reverse : Bytes := (utf8Walk s 0).reverse.flatten

def utf8ByteIndexFrom (index : Nat) (i idx : Nat) : Nat :=
  if i < s.length then
    if idx = index then i else utf8ByteIndexFrom index (utf8Next s i).next (idx + 1)
  else s.length
  termination_by s.length - i
  decreasing_by
    have := utf8Next_gt s i
    omega

def utf8ByteIndex (index : Int) : Except Failure Int :=
  let n := utf8LengthOf s
  if index < 0 ∨ n < index then
    .error (.indexError s!"String.utf8ByteIndex: index {index} out of bounds (size {n})")
  else if index = n then .ok s.length
  else .ok (utf8ByteIndexFrom s index.toNat 0 0)

def utf8IndexFrom (target : Nat) (i idx : Nat) : Nat :=
  if i < s.length ∧ i < target then utf8IndexFrom target (utf8Next s i).next (idx + 1) else idx
  termination_by s.length - i
  decreasing_by
    have := utf8Next_gt s i
    omega

def utf8IndexFromByte (byteIndex : Int) : Except Failure Int :=
  if byteIndex < 0 ∨ s.length < byteIndex.toNat then
    .error (.indexError s!"String.utf8IndexFromByte: byte index {byteIndex} out of bounds (size {s.length})")
  else .ok (utf8IndexFrom s byteIndex.toNat 0 0)

end

def utf8Encode (cp : Nat) : Bytes :=
  if cp ≤ 0x7F then [cp.toUInt8]
  else if cp ≤ 0x7FF then [(0xC0 ||| cp >>> 6).toUInt8, (0x80 ||| cp &&& 0x3F).toUInt8]
  else if cp ≤ 0xFFFF then
    [(0xE0 ||| cp >>> 12).toUInt8, (0x80 ||| (cp >>> 6) &&& 0x3F).toUInt8, (0x80 ||| cp &&& 0x3F).toUInt8]
  else
    [(0xF0 ||| cp >>> 18).toUInt8, (0x80 ||| (cp >>> 12) &&& 0x3F).toUInt8,
      (0x80 ||| (cp >>> 6) &&& 0x3F).toUInt8, (0x80 ||| cp &&& 0x3F).toUInt8]

def utf8FromCodePoint (code : Int) : Except Failure Bytes :=
  if code < 0 ∨ 0x10FFFF < code ∨ (0xD800 ≤ code ∧ code ≤ 0xDFFF) then
    .error (.indexError s!"String.utf8FromCodePoint: value {code} is not a Unicode scalar value")
  else .ok (utf8Encode code.toNat)

/-- Where a text stands in a string for the first time at or behind a position. -/
def find (s text : Bytes) (pos : Nat) : Option Nat :=
  (List.range' pos (s.length + 1 - pos)).find? fun i => text.isPrefixOf (s.drop i)

theorem find_bounds {s text : Bytes} {pos found : Nat} (h : find s text pos = some found) :
    pos ≤ found ∧ found + text.length ≤ s.length := by
  have hmem := List.mem_range'_1.mp (List.mem_of_find?_eq_some h)
  have hprefix : text <+: s.drop found := by simpa using List.find?_some h
  have hlength := hprefix.length_le
  rw [List.length_drop] at hlength
  omega

/-- The pieces of a string between the occurrences of a separator that is not empty. -/
def splitFrom (s delim : Bytes) (hdelim : delim ≠ []) (pos : Nat) : List Bytes :=
  match _ : find s delim pos with
  | none => [s.drop pos]
  | some found => (s.drop pos).take (found - pos) :: splitFrom s delim hdelim (found + delim.length)
  termination_by s.length - pos
  decreasing_by
    have := find_bounds ‹_›
    have := List.length_pos_iff.mpr hdelim
    omega

def strSplit (s delim : Bytes) : List Bytes :=
  if hdelim : delim = [] then utf8Walk s 0 else splitFrom s delim hdelim 0

end strings
end zl.vm.native
