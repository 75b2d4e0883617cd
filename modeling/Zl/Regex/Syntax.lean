import Mathlib

namespace zl.regex

/-- A string of the engine, which works on bytes. -/
abbrev Bytes := List UInt8

def utf8Width (c : UInt8) : Nat :=
  if c &&& 0x80 = 0 then 1
  else if c &&& 0xE0 = 0xC0 then 2
  else if c &&& 0xF0 = 0xE0 then 3
  else if c &&& 0xF8 = 0xF0 then 4
  else 0

/-- The code point the continuation bytes complete, six bits each. -/
def continued : Bytes → Nat → Option Nat
  | [], cp => some cp
  | c :: rest, cp => if c &&& 0xC0 = 0x80 then continued rest (cp * 64 + c.toNat % 64) else none

/-- An encoding that is longer than need be, beyond the last code point, or of a surrogate. -/
def malformed (width cp : Nat) : Bool :=
  (width == 2 && cp < 0x80) || (width == 3 && cp < 0x800) || (width == 4 && cp < 0x10000) ||
    cp > 0x10FFFF || (cp ≥ 0xD800 && cp ≤ 0xDFFF)

/-- The code point a lead byte starts, and the number of bytes it takes. -/
def decodeLead (c : UInt8) (rest : Bytes) : Option (Nat × Nat) :=
  if utf8Width c = 0 ∨ rest.length + 1 < utf8Width c then none
  else if utf8Width c = 1 then some (c.toNat, 1)
  else
    match continued (rest.take (utf8Width c - 1)) (c.toNat % 2 ^ (7 - utf8Width c)) with
    | none => none
    | some cp => if malformed (utf8Width c) cp then none else some (cp, utf8Width c)

def decodeFront : Bytes → Option (Nat × Nat)
  | [] => none
  | c :: rest => decodeLead c rest

def decodeUtf8 (s : Bytes) (pos : Nat) : Option (Nat × Nat) := decodeFront (s.drop pos)

theorem decodeLead_width {c : UInt8} {rest : Bytes} {cp width : Nat}
    (hdecode : decodeLead c rest = some (cp, width)) :
    utf8Width c = width ∧ 0 < width ∧ width ≤ rest.length + 1 := by
  unfold decodeLead at hdecode
  split at hdecode
  · cases hdecode
  · next hlong =>
    have hwidth : utf8Width c = width := by
      split at hdecode
      · next hone => exact hone.trans (congrArg Prod.snd (Option.some.inj hdecode))
      · split at hdecode
        · cases hdecode
        · split at hdecode
          · cases hdecode
          · exact congrArg Prod.snd (Option.some.inj hdecode)
    omega

theorem decodeFront_width {s : Bytes} {cp width : Nat} (hdecode : decodeFront s = some (cp, width)) :
    0 < width ∧ width ≤ s.length := by
  cases s with
  | nil => cases hdecode
  | cons c rest => exact (decodeLead_width hdecode).2

theorem decodeFront_take_append {s : Bytes} {cp width : Nat} (hdecode : decodeFront s = some (cp, width))
    (rest : Bytes) : decodeFront (s.take width ++ rest) = some (cp, width) := by
  cases s with
  | nil => cases hdecode
  | cons c tail =>
    obtain ⟨hwidth, hpos, hle⟩ := decodeLead_width hdecode
    obtain ⟨n, rfl⟩ := Nat.exists_eq_succ_of_ne_zero (Nat.ne_of_gt hpos)
    have htake : (tail.take n ++ rest).take n = tail.take n := by
      rw [List.take_append_of_le_length (by simp; omega), List.take_take, Nat.min_self]
    have hlong : ¬ (utf8Width c = 0 ∨ (tail.take n ++ rest).length + 1 < utf8Width c) := by
      simp only [List.length_append, List.length_take]
      omega
    rw [List.take_succ_cons, List.cons_append, ← hdecode]
    change decodeLead c (tail.take n ++ rest) = decodeLead c tail
    have hlong' : ¬ (utf8Width c = 0 ∨ tail.length + 1 < utf8Width c) := by omega
    unfold decodeLead
    rw [if_neg hlong, if_neg hlong', hwidth, Nat.succ_eq_add_one, Nat.add_sub_cancel, htake]

theorem decodeFront_take {s : Bytes} {cp width : Nat} (hdecode : decodeFront s = some (cp, width)) :
    decodeFront (s.take width) = some (cp, (s.take width).length) := by
  have h := decodeFront_take_append hdecode []
  rw [List.append_nil] at h
  rw [h, List.length_take, Nat.min_eq_left (decodeFront_width hdecode).2]

/-- The encoding of one code point. -/
structure Literal where
  bytes : Bytes
  codePoint : Nat
  decodes : decodeFront bytes = some (codePoint, bytes.length)
  deriving DecidableEq, Repr

/-- The literal at the front of a string. -/
def Literal.ofDecode {s : Bytes} {cp width : Nat} (hdecode : decodeFront s = some (cp, width)) :
    Literal where
  bytes := s.take width
  codePoint := cp
  decodes := decodeFront_take hdecode

/-- The repetitions a quantifier allows: no maximum is no limit. -/
structure Bounds where
  minimum : Nat
  maximum : Option Nat
  ordered : ∀ limit ∈ maximum, minimum ≤ limit
  deriving DecidableEq, Repr

/-- A node of a parsed pattern. Capture index zero is a group that captures nothing. -/
inductive Node where
  | sequence (children : List Node)
  | alternation (children : List Node)
  | literal (text : Literal)
  | escape (text : Bytes)
  | characterClass (text : Bytes)
  | any
  | group (captureIndex : Nat) (child : Node)
  | namedGroup (captureIndex : Nat) (captureName : Bytes) (child : Node)
  | atomicGroup (child : Node)
  | backreference (index : Nat) (captureName : Bytes)
  | anchorStart
  | anchorEnd
  | quantifier (bounds : Bounds) (greedy possessive : Bool) (child : Node)
  | lookahead (child : Node)
  | negativeLookahead (child : Node)
  | lookbehind (child : Node)
  | negativeLookbehind (child : Node)
  deriving Repr

structure Pattern where
  root : Node

mutual

/-- The largest capture index of a node. -/
def maxCapture : Node → Nat
  | .sequence children | .alternation children => maxCaptureAll children
  | .group captureIndex child | .namedGroup captureIndex _ child => max captureIndex (maxCapture child)
  | .atomicGroup child | .quantifier _ _ _ child | .lookahead child | .negativeLookahead child
  | .lookbehind child | .negativeLookbehind child => maxCapture child
  | .literal _ | .escape _ | .characterClass _ | .any | .backreference _ _ | .anchorStart
  | .anchorEnd => 0

def maxCaptureAll : List Node → Nat
  | [] => 0
  | child :: rest => max (maxCapture child) (maxCaptureAll rest)

end

end zl.regex
