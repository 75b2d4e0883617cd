import Zl.Regex.Syntax

namespace zl.regex

structure ParserState where
  pos : Nat := 0
  captureCount : Nat := 0
  captureNames : List Bytes := []

abbrev Parser (A : Type) := ParserState → Except String (A × ParserState)

def text (bytes : Bytes) : String := String.ofList (bytes.map fun c => Char.ofNat c.toNat)

def code (c : Char) : UInt8 := UInt8.ofNat c.toNat

def isDigit (c : UInt8) : Bool := 48 ≤ c && c ≤ 57
def isAlpha (c : UInt8) : Bool := (65 ≤ c && c ≤ 90) || (97 ≤ c && c ≤ 122)

/-- The value of a string of digits; `std::stoi` refuses what no `int` holds. -/
def stoi (digits : Bytes) : Except String Nat :=
  let value := digits.foldl (fun value c => value * 10 + (c.toNat - 48)) 0
  if value > 2147483647 then .error "stoi" else .ok value

def kMaxPatternDepth : Nat := 500

def fail {A : Type} (message : String) : Parser A := fun st =>
  .error ("Regex: " ++ message ++ " at offset " ++ toString st.pos)

def validateName (name : Bytes) : Parser Unit := fun st =>
  if (name.head?.any fun c => isAlpha c || c == code '_') = false then
    fail ("invalid capture name '" ++ text name ++ "'") st
  else if name.all (fun c => isAlpha c || isDigit c || c == code '_') = false then
    fail ("invalid capture name '" ++ text name ++ "'") st
  else .ok ((), st)

def skip (st : ParserState) (n : Nat) : ParserState := { st with pos := st.pos + n }

section
variable (source : Bytes)

def atEnd (st : ParserState) : Bool := st.pos ≥ source.length

/-- The next byte, zero at the end. -/
def peek (st : ParserState) : UInt8 := source.getD st.pos 0

/-- Consume a byte that has to be there. -/
def expect (c : Char) (message : String) : Parser Unit := fun st =>
  if peek source st = code c then .ok ((), skip st 1) else fail message st

/-- The bytes up to the first that fails the test. -/
def takeWhile (test : UInt8 → Bool) (st : ParserState) : Bytes × ParserState :=
  let taken := (source.drop st.pos).takeWhile test
  (taken, skip st taken.length)

/-- The bounds of a quantifier in braces, behind the opening one. -/
def parseRange : Parser Bounds := fun st => do
  let (lo, st) := takeWhile source isDigit st
  if lo = [] then fail "expected quantifier minimum" st
  else
    let minimum ← stoi lo
    if peek source st = code '\x7d' then
      return (⟨minimum, some minimum, by simp⟩, skip st 1)
    else if peek source st = code ',' then
      let (hi, st) := takeWhile source isDigit (skip st 1)
      let ((), st) ← expect source '}' "unterminated range quantifier" st
      if hi = [] then return (⟨minimum, none, by simp⟩, st)
      else
        let maximum ← stoi hi
        if h : minimum ≤ maximum then return (⟨minimum, some maximum, by simpa using h⟩, st)
        else fail "quantifier maximum is less than minimum" st
    else fail "expected '\x7d' in quantifier" st

def parseBounds : Parser Bounds := fun st =>
  if peek source st = code '*' then .ok (⟨0, none, by simp⟩, skip st 1)
  else if peek source st = code '+' then .ok (⟨1, none, by simp⟩, skip st 1)
  else if peek source st = code '?' then .ok (⟨0, some 1, by simp⟩, skip st 1)
  else parseRange source (skip st 1)

def parseQuantifier (atom : Node) : Parser Node := fun st => do
  let (bounds, st) ← parseBounds source st
  if peek source st = code '?' then return (.quantifier bounds false false atom, skip st 1)
  else if peek source st = code '+' then return (.quantifier bounds true true atom, skip st 1)
  else return (.quantifier bounds true false atom, st)

def startsQuantifier (c : UInt8) : Bool :=
  c == code '*' || c == code '+' || c == code '?' || c == code '\x7b'

def maybeQuantify (atom : Node) : Parser Node := fun st =>
  if startsQuantifier (peek source st) then parseQuantifier source atom st else .ok (atom, st)

/-- The text of a character class behind its bracket, up to and with the closing one. -/
def classBody : Nat → Parser Bytes
  | 0 => fail "unterminated character class"
  | fuel + 1 => fun st =>
    if atEnd source st then fail "unterminated character class" st
    else
      let c := peek source st
      let st := skip st 1
      if c = code ']' then .ok ([c], st)
      else if c = code '\\' then
        if atEnd source st then fail "unterminated character-class escape" st
        else do
          let (rest, st') ← classBody fuel (skip st 1)
          return (c :: peek source st :: rest, st')
      else do
        let (rest, st) ← classBody fuel st
        return (c :: rest, st)

def parseCharacterClass : Parser Node := fun st => do
  let open_ := peek source st
  let st := skip st 1
  let negated := peek source st = code '^'
  let (body, st) ← classBody source (source.length + 1) (if negated then skip st 1 else st)
  return (.characterClass (open_ :: if negated then code '^' :: body else body), st)

/-- An escape, behind the backslash. -/
def parseEscape : Parser Node := fun st =>
  if atEnd source st then fail "trailing escape" st
  else
    let e := peek source st
    let st := skip st 1
    if (e = code 'p' ∨ e = code 'P') ∧ peek source st = code '\x7b' then
      let (body, st) := takeWhile source (· != code '\x7d') (skip st 1)
      if peek source st ≠ code '\x7d' ∨ body.length ≠ 1 then
        fail "invalid Unicode property escape" st
      else if body.all (fun c => "LNMPSZC".toList.any fun p => code p == c) = false then
        fail "unsupported Unicode property" (skip st 1)
      else .ok (.escape ([code '\\', e, code '\x7b'] ++ body ++ [code '\x7d']), skip st 1)
    else if isDigit e then
      if e = code '0' then fail "numeric backreference out of range" st
      else .ok (.backreference (e.toNat - 48) [], st)
    else if e = code 'k' ∧ peek source st = code '<' then
      let (name, st) := takeWhile source (· != code '>') (skip st 1)
      if peek source st ≠ code '>' ∨ name = [] then
        fail "invalid named backreference syntax" st
      else .ok (.backreference 0 name, skip st 1)
    else .ok (.escape [code '\\', e], st)

/-- The inside of a group and its closing parenthesis. -/
def parseInner (nested : Parser Node) (message : String) : Parser Node := fun st => do
  let (inner, st) ← nested st
  let ((), st) ← expect source ')' message st
  return (inner, st)

/-- A group that starts with `(?<`: a lookbehind, or a named capture. -/
def parseAngle (nested : Parser Node) : Parser Node := fun st => do
  if peek source st = code '=' then
    let (inner, st) ← parseInner source nested "unterminated positive lookbehind" (skip st 1)
    return (.lookbehind inner, st)
  else if peek source st = code '!' then
    let (inner, st) ← parseInner source nested "unterminated negative lookbehind" (skip st 1)
    return (.negativeLookbehind inner, st)
  else
    let (name, st) := takeWhile source (· != code '>') st
    if peek source st ≠ code '>' ∨ name = [] then fail "invalid named capture syntax" st
    else
      let ((), st) ← validateName name (skip st 1)
      let index := st.captureCount + 1
      let (inner, st) ← parseInner source nested "unterminated named capture"
        { st with captureCount := index, captureNames := st.captureNames ++ [name] }
      maybeQuantify source (.namedGroup index name inner) st

/-- A group, behind its opening parenthesis. -/
def parseGroup (nested : Parser Node) : Parser Node := fun st => do
  if peek source st = code '?' then
    let st := skip st 1
    let c := peek source st
    if c = code ':' then
      let (inner, st) ← parseInner source nested "unterminated group" (skip st 1)
      maybeQuantify source (.group 0 inner) st
    else if c = code '>' then
      let (inner, st) ← parseInner source nested "unterminated atomic group" (skip st 1)
      maybeQuantify source (.atomicGroup inner) st
    else if c = code '=' then
      let (inner, st) ← parseInner source nested "unterminated positive lookahead" (skip st 1)
      return (.lookahead inner, st)
    else if c = code '!' then
      let (inner, st) ← parseInner source nested "unterminated negative lookahead" (skip st 1)
      return (.negativeLookahead inner, st)
    else if c = code '<' then parseAngle source nested (skip st 1)
    else fail "unsupported group modifier" st
  else
    let index := st.captureCount + 1
    let (inner, st) ← parseInner source nested "unterminated group"
      { st with captureCount := index, captureNames := st.captureNames ++ [[]] }
    maybeQuantify source (.group index inner) st

def parseLiteral : Parser Node := fun st =>
  match h : decodeFront (source.drop st.pos) with
  | none => fail "invalid UTF-8 in literal" st
  | some (_, width) => .ok (.literal (.ofDecode h), skip st width)

def parseAtom (nested : Parser Node) : Parser Node := fun st => do
  let c := peek source st
  if c = code '^' then maybeQuantify source .anchorStart (skip st 1)
  else if c = code '$' then maybeQuantify source .anchorEnd (skip st 1)
  else if c = code '.' then maybeQuantify source .any (skip st 1)
  else if c = code '(' then parseGroup source nested (skip st 1)
  else if c = code '[' then
    let (n, st) ← parseCharacterClass source st
    maybeQuantify source n st
  else if c = code '\\' then
    let (n, st) ← parseEscape source (skip st 1)
    maybeQuantify source n st
  else if startsQuantifier c then fail "quantifier without a preceding atom" st
  else
    let (n, st) ← parseLiteral source st
    maybeQuantify source n st

/-- The atoms up to the end of an arm. Each of them takes at least a byte. -/
def parseAtoms (nested : Parser Node) : Nat → Parser (List Node)
  | 0 => fun st => .ok ([], st)
  | fuel + 1 => fun st =>
    if atEnd source st ∨ peek source st = code ')' ∨ peek source st = code '|' then .ok ([], st)
    else do
      let (n, st) ← parseAtom source nested st
      let (rest, st) ← parseAtoms nested fuel st
      return (n :: rest, st)

def parseSequence (nested : Parser Node) : Parser Node := fun st => do
  let (children, st) ← parseAtoms source nested source.length st
  match children with
  | [] => fail "empty sequence" st
  | [n] => return (n, st)
  | children => return (.sequence children, st)

/-- The arms behind the first one. -/
def parseArms (nested : Parser Node) : Nat → Parser (List Node)
  | 0 => fun st => .ok ([], st)
  | fuel + 1 => fun st =>
    if peek source st ≠ code '|' then .ok ([], st)
    else
      let st := skip st 1
      if peek source st = code '|' ∨ peek source st = code ')' ∨ atEnd source st then
        fail "empty alternation arm" st
      else do
        let (n, st) ← parseSequence source nested st
        let (rest, st) ← parseArms nested fuel st
        return (n :: rest, st)

/-- An alternation, with the nesting depth that is left. -/
def parseAlternation : Nat → Parser Node
  | 0 => fail "pattern nesting exceeds the maximum depth"
  | depth + 1 => fun st => do
    let (left, st) ← parseSequence source (parseAlternation depth) st
    if peek source st ≠ code '|' then return (left, st)
    else
      let (arms, st) ← parseArms source (parseAlternation depth) source.length st
      return (.alternation (left :: arms), st)

/-- The first name in a list that occurs again. -/
def duplicateName : List Bytes → List Bytes → Option Bytes
  | _, [] => none
  | seen, name :: rest =>
    if name = [] then duplicateName seen rest
    else if name ∈ seen then some name
    else duplicateName (name :: seen) rest

def parsePattern : Except String Pattern :=
  if source = [] then .ok ⟨.sequence []⟩
  else do
    let (root, st) ← parseAlternation source kMaxPatternDepth {}
    if atEnd source st = false then
      let (pattern, _) ← fail ("unexpected character '" ++ text [peek source st] ++ "'") st
      return pattern
    else
      match duplicateName [] st.captureNames with
      | some name =>
        let (pattern, _) ← fail ("duplicate capture name '" ++ text name ++ "'") st
        return pattern
      | none => return ⟨root⟩

end

mutual

/-- The named captures of a node with their indices, and the number of its captures. -/
def collectCaptureNames : Node → List (Bytes × Nat) × Nat
  | .group index child =>
    let (names, count) := collectCaptureNames child
    (names, if index > 0 then count + 1 else count)
  | .namedGroup index name child =>
    let (names, count) := collectCaptureNames child
    if index > 0 then ((name, index) :: names, count + 1) else (names, count)
  | .sequence children | .alternation children => collectCaptureNamesAll children
  | .atomicGroup child | .quantifier _ _ _ child | .lookahead child | .negativeLookahead child
  | .lookbehind child | .negativeLookbehind child => collectCaptureNames child
  | .literal _ | .escape _ | .characterClass _ | .any | .backreference _ _ | .anchorStart
  | .anchorEnd => ([], 0)

def collectCaptureNamesAll : List Node → List (Bytes × Nat) × Nat
  | [] => ([], 0)
  | child :: rest =>
    ((collectCaptureNames child).1 ++ (collectCaptureNamesAll rest).1,
      (collectCaptureNames child).2 + (collectCaptureNamesAll rest).2)

end

mutual

def validationLookbehindWidth : Node → Option Nat
  | .literal _ | .escape _ | .characterClass _ | .any => some 1
  | .sequence children => validationLookbehindWidthAll children
  | .group _ child | .namedGroup _ _ child => validationLookbehindWidth child
  | .quantifier bounds _ _ child =>
    if bounds.maximum = some bounds.minimum then
      (validationLookbehindWidth child).map (· * bounds.minimum)
    else none
  | .alternation _ | .atomicGroup _ | .backreference _ _ | .anchorStart | .anchorEnd | .lookahead _
  | .negativeLookahead _ | .lookbehind _ | .negativeLookbehind _ => none

def validationLookbehindWidthAll : List Node → Option Nat
  | [] => some 0
  | child :: rest =>
    match validationLookbehindWidth child, validationLookbehindWidthAll rest with
    | some x, some w => some (x + w)
    | _, _ => none

end

def validateLookbehind (child : Node) : Except String Unit :=
  match validationLookbehindWidth child with
  | none => .error lookbehindMessage
  | some width => if width = 0 ∨ width > 1024 then .error lookbehindMessage else .ok ()
where
  lookbehindMessage :=
    "Regex: lookbehind must be a non-empty fixed-width expression (maximum width 1024)"

mutual

def validateLookbehinds : Node → Except String Unit
  | .lookbehind child | .negativeLookbehind child => do
    validateLookbehind child
    validateLookbehinds child
  | .sequence children | .alternation children => validateLookbehindsAll children
  | .group _ child | .namedGroup _ _ child | .atomicGroup child | .quantifier _ _ _ child
  | .lookahead child | .negativeLookahead child => validateLookbehinds child
  | .literal _ | .escape _ | .characterClass _ | .any | .backreference _ _ | .anchorStart
  | .anchorEnd => .ok ()

def validateLookbehindsAll : List Node → Except String Unit
  | [] => .ok ()
  | child :: rest => do
    validateLookbehinds child
    validateLookbehindsAll rest

end

mutual

/-- Check the backreferences, and resolve the named ones to the index of their capture. -/
def validateReferences (captureCount : Nat) (names : List (Bytes × Nat)) : Node → Except String Node
  | .backreference index name =>
    if name ≠ [] then
      match names.lookup name with
      | none => .error ("Regex: unknown named backreference '" ++ text name ++ "'")
      | some resolved => .ok (.backreference resolved name)
    else if index = 0 ∨ index > captureCount then
      .error ("Regex: backreference index out of range at capture " ++ toString index)
    else .ok (.backreference index name)
  | .sequence children => return .sequence (← validateReferencesAll captureCount names children)
  | .alternation children => return .alternation (← validateReferencesAll captureCount names children)
  | .group index child => return .group index (← validateReferences captureCount names child)
  | .namedGroup index name child =>
    return .namedGroup index name (← validateReferences captureCount names child)
  | .atomicGroup child => return .atomicGroup (← validateReferences captureCount names child)
  | .quantifier bounds greedy possessive child =>
    return .quantifier bounds greedy possessive (← validateReferences captureCount names child)
  | .lookahead child => return .lookahead (← validateReferences captureCount names child)
  | .negativeLookahead child =>
    return .negativeLookahead (← validateReferences captureCount names child)
  | .lookbehind child => return .lookbehind (← validateReferences captureCount names child)
  | .negativeLookbehind child =>
    return .negativeLookbehind (← validateReferences captureCount names child)
  | .literal text => return .literal text
  | .escape text => return .escape text
  | .characterClass text => return .characterClass text
  | .any => return .any
  | .anchorStart => return .anchorStart
  | .anchorEnd => return .anchorEnd

def validateReferencesAll (captureCount : Nat) (names : List (Bytes × Nat)) :
    List Node → Except String (List Node)
  | [] => .ok []
  | child :: rest => do
    let child ← validateReferences captureCount names child
    let rest ← validateReferencesAll captureCount names rest
    return child :: rest

end

def parse (source : Bytes) : Except String Pattern := do
  let out ← parsePattern source
  let (names, count) := collectCaptureNames out.root
  validateLookbehinds out.root
  let root ← validateReferences count names out.root
  return ⟨root⟩

end zl.regex
