import Zl.Regex.Parse

namespace zl.regex

/-- The tables of the generated Unicode header: the general categories by letter, and the decimal
    digits. -/
structure UnicodeTables where
  property : Nat → UInt8 → Bool
  decimalDigit : Nat → Bool

structure CapState where
  start : List Int
  stop : List Int
  set : List Bool
  deriving DecidableEq, Repr

structure State where
  pos : Nat
  caps : CapState
  deriving DecidableEq, Repr

def makeCaps (n : Nat) : CapState where
  start := List.replicate (n + 1) (-1)
  stop := List.replicate (n + 1) (-1)
  set := List.replicate (n + 1) false

namespace State

/-- A group opens: where it starts is recorded, and it is unset until it closes. -/
def enter (st : State) (i : Nat) : State :=
  if i > 0 then
    { st with
      caps := { st.caps with start := st.caps.start.set i st.pos, set := st.caps.set.set i false } }
  else st

def leave (st : State) (i : Nat) : State :=
  if i > 0 then
    { st with
      caps := { st.caps with stop := st.caps.stop.set i st.pos, set := st.caps.set.set i true } }
  else st

@[simp]
theorem enter_pos (st : State) (i : Nat) : (st.enter i).pos = st.pos := by
  unfold enter
  split <;> rfl

@[simp]
theorem leave_pos (st : State) (i : Nat) : (st.leave i).pos = st.pos := by
  unfold leave
  split <;> rfl

end State

section
variable (tables : UnicodeTables)

def unicodeSpace (cp : Nat) : Bool :=
  tables.property cp (code 'Z') || cp == 9 || cp == 10 || cp == 13 || cp == 12 || cp == 11

def unicodeWord (cp : Nat) : Bool :=
  tables.property cp (code 'L') || tables.property cp (code 'N') || tables.property cp (code 'M') ||
    cp == 95

/-- The classes an escape letter stands for, in a class and outside. -/
def escapeClass (e : UInt8) (cp : Nat) : Option Bool :=
  if e = code 'd' then some (tables.decimalDigit cp)
  else if e = code 'D' then some (!tables.decimalDigit cp)
  else if e = code 'w' then some (unicodeWord tables cp)
  else if e = code 'W' then some (!unicodeWord tables cp)
  else if e = code 's' then some (unicodeSpace tables cp)
  else if e = code 'S' then some (!unicodeSpace tables cp)
  else if e = code 't' then some (cp == 9)
  else if e = code 'n' then some (cp == 10)
  else if e = code 'r' then some (cp == 13)
  else none

def propertyHit (e prop : UInt8) (cp : Nat) : Bool :=
  if e = code 'p' then tables.property cp prop else !tables.property cp prop

/-- The items of a character class between its brackets. What cannot be decoded ends it. -/
def classItems (cp : Nat) : Nat → Bytes → Bool
  | 0, _ => false
  | _, [] => false
  | fuel + 1, c :: rest =>
    if c = code '\\' then
      match rest with
      | [] => false
      | e :: rest =>
        if (e = code 'p' ∨ e = code 'P') ∧ rest.head? = some (code '\x7b') then
          match rest.tail with
          | [] => false
          | [_] => false
          | prop :: close :: rest =>
            if close = code '\x7d' then propertyHit tables e prop cp || classItems cp fuel rest
            else classItems cp fuel rest
        else (escapeClass tables e cp).getD (cp == e.toNat) || classItems cp fuel rest
    else
      match decodeFront (c :: rest) with
      | none => false
      | some (a, aw) =>
        let rest := (c :: rest).drop aw
        if rest.head? = some (code '-') then
          match decodeFront rest.tail with
          | none => false
          | some (b, bw) =>
            (a ≤ cp && cp ≤ b) || classItems cp fuel (rest.tail.drop bw)
        else a == cp || classItems cp fuel rest

def classAtom (cls : Bytes) (cp : Nat) : Bool :=
  if cls.length < 2 ∨ cls.head? ≠ some (code '[') ∨ cls.getLast? ≠ some (code ']') then false
  else
    let neg := cls.length > 2 ∧ cls[1]? = some (code '^')
    let ok := classItems tables cp cls.length (cls.dropLast.drop (if neg then 2 else 1))
    if neg then !ok else ok

def escapeAtom (e : Bytes) (cp : Nat) : Bool :=
  match e with
  | [backslash, letter] =>
    if backslash ≠ code '\\' then false
    else
      match escapeClass tables letter cp with
      | some hit => hit
      | none =>
        if letter = code 'f' then cp == 12
        else if letter = code 'v' then cp == 11
        else cp == letter.toNat
  | [backslash, letter, opening, prop, closing] =>
    backslash == code '\\' && (letter == code 'p' || letter == code 'P') && opening == code '\x7b' &&
      closing == code '\x7d' && propertyHit tables letter prop cp
  | _ => false

end

/-- A computation that counts the steps it has used, or gives up. -/
abbrev Budgeted := StateT Nat (Except String)

def kRegexMaxSteps : Nat := 1000000
def kRegexMaxDepth : Nat := 10000

def budgetExceeded {A : Type} (what : String) : Budgeted A := fun _ =>
  .error ("match budget exceeded (" ++ what ++ "): the pattern backtracks pathologically or the " ++
    "input is too large for this engine")

def buyStep : Budgeted Unit := fun steps =>
  if steps + 1 > kRegexMaxSteps then budgetExceeded "too many steps" steps else .ok ((), steps + 1)

/-- Run over a list in order, and join the states that come out. -/
def collect {A : Type} (run : A → Budgeted (List State)) : List A → Budgeted (List State)
  | [] => pure []
  | a :: rest => do
    let out ← run a
    let tail ← collect run rest
    return out ++ tail

def matchSequence (run : Node → State → Budgeted (List State)) :
    List Node → State → Budgeted (List State)
  | [], st => pure [st]
  | n :: rest, st => do
    let heads ← run n st
    collect (matchSequence run rest) heads

/-- No further iteration is allowed. -/
def limitReached (maximum : Option Nat) (count : Nat) : Bool := maximum.any (· ≤ count)

/-- The loop of a possessive quantifier: the first match of each iteration, as long as it
    consumes. An iteration costs a step at least, so the steps bound the loop. -/
def possess (run : State → Budgeted (List State)) (maximum : Option Nat) :
    Nat → State → Nat → Budgeted (State × Nat)
  | 0, _, _ => budgetExceeded "too many steps"
  | fuel + 1, cur, count =>
    if limitReached maximum count then pure (cur, count)
    else do
      let next ← run cur
      match next with
      | [] => return (cur, count)
      | chosen :: _ =>
        if chosen.pos = cur.pos then return (cur, count)
        else possess run maximum fuel chosen (count + 1)

mutual

def fixedWidth : Node → Int
  | .literal _ | .escape _ | .any | .characterClass _ => 1
  | .sequence children => fixedWidthAll children
  | .group _ child | .namedGroup _ _ child | .atomicGroup child => fixedWidth child
  | .quantifier bounds _ _ child =>
    if bounds.maximum = some bounds.minimum then fixedWidth child * bounds.minimum else -1
  | .alternation _ | .backreference _ _ | .anchorStart | .anchorEnd | .lookahead _
  | .negativeLookahead _ | .lookbehind _ | .negativeLookbehind _ => -1

def fixedWidthAll : List Node → Int
  | [] => 0
  | child :: rest =>
    if fixedWidth child < 0 ∨ fixedWidthAll rest < 0 then -1
    else fixedWidth child + fixedWidthAll rest

end

section
variable (tables : UnicodeTables) (text : Bytes)

/-- One code point that passes a test. -/
def matchCodePoint (test : Nat → Bool) (st : State) : List State :=
  match decodeUtf8 text st.pos with
  | none => []
  | some (cp, width) => if test cp then [{ st with pos := st.pos + width }] else []

def matchLiteral (literal : Literal) (st : State) : List State :=
  if st.pos + literal.bytes.length > text.length ∨
      (text.drop st.pos).take literal.bytes.length ≠ literal.bytes then []
  else matchCodePoint text (fun _ => true) st

/-- The text of a capture again. -/
def matchBackreference (i : Nat) (captureName : Bytes) (st : State) : List State :=
  if i = 0 ∧ captureName ≠ [] then []
  else if i = 0 ∨ i ≥ st.caps.set.length ∨ st.caps.set.getD i false = false then []
  else
    let a := (st.caps.start.getD i 0).toNat
    let b := (st.caps.stop.getD i 0).toNat
    if b < a ∨ b > text.length ∨ st.pos + (b - a) > text.length then []
    else if (text.drop st.pos).take (b - a) ≠ (text.drop a).take (b - a) then []
    else [{ st with pos := st.pos + (b - a) }]

/-- Whether a node leads from its width in front of the position back to it. -/
def matchLookbehind (run : State → Budgeted (List State)) (child : Node) (st : State) : Budgeted Bool :=
  if fixedWidth child < 0 ∨ (st.pos : Int) < fixedWidth child then pure false
  else do
    let out ← run { st with pos := st.pos - (fixedWidth child).toNat }
    return out.any (·.pos = st.pos)

mutual

/-- Every state a node can lead to, in order of preference. The first argument is the depth that
    is left. -/
def matchNode : Nat → Node → State → Budgeted (List State)
  | 0, _, _ => do
    buyStep
    budgetExceeded "recursion too deep"
  | depth + 1, n, st => do
    buyStep
    match n with
    | .sequence children => matchSequence (matchNode depth) children st
    | .alternation children => collect (fun child => matchNode depth child st) children
    | .literal literal => return matchLiteral text literal st
    | .escape e => return matchCodePoint text (escapeAtom tables e) st
    | .characterClass cls => return matchCodePoint text (classAtom tables cls) st
    | .any => return matchCodePoint text (fun _ => true) st
    | .anchorStart => return if st.pos = 0 then [st] else []
    | .anchorEnd => return if st.pos = text.length then [st] else []
    | .group i child | .namedGroup i _ child =>
      let out ← matchNode depth child (st.enter i)
      return out.map (State.leave · i)
    | .atomicGroup child =>
      let out ← matchNode depth child st
      return out.take 1
    | .backreference i captureName => return matchBackreference text i captureName st
    | .quantifier bounds greedy possessive child =>
      repeatNode depth child bounds greedy possessive st 0
    | .lookahead child =>
      let out ← matchNode depth child st
      return if out.isEmpty then [] else [st]
    | .negativeLookahead child =>
      let out ← matchNode depth child st
      return if out.isEmpty then [st] else []
    | .lookbehind child =>
      let found ← matchLookbehind (matchNode depth child) child st
      return if found then [st] else []
    | .negativeLookbehind child =>
      let found ← matchLookbehind (matchNode depth child) child st
      return if found then [] else [st]

/-- The continuation of a quantifier after `count` iterations. -/
def repeatNode : Nat → Node → Bounds → Bool → Bool → State → Nat → Budgeted (List State)
  | 0, _, _, _, _, _, _ => budgetExceeded "recursion too deep"
  | depth + 1, child, bounds, greedy, possessive, st, count =>
    if possessive then do
      let (cur, reached) ← possess (matchNode depth child) bounds.maximum (kRegexMaxSteps + 1) st count
      return if reached ≥ bounds.minimum then [cur] else []
    else
      let stop := if count ≥ bounds.minimum then [st] else []
      if limitReached bounds.maximum count then pure stop
      else do
        let next ← matchNode depth child st
        let more ← collect
          (fun ns => repeatNode depth child bounds greedy possessive ns (count + 1))
          (next.filter fun ns => ns.pos ≠ st.pos)
        return if greedy then more ++ stop else stop ++ more

end

end

structure MatchResult where
  matched : Bool := false
  start : Nat := 0
  stop : Nat := 0
  groups : List Bytes := []
  groupMatched : List Bool := []
  deriving DecidableEq, Repr

/-- The capture of an index, empty when it is not set. -/
def capturedText (text : Bytes) (caps : CapState) (i : Nat) : Bytes :=
  if caps.set.getD i false then
    let a := (caps.start.getD i 0).toNat
    let b := (caps.stop.getD i 0).toNat
    (text.drop a).take (b - a)
  else []

def materialize (text : Bytes) (s : State) : MatchResult where
  matched := true
  start := if s.caps.set.getD 0 false then (s.caps.start.getD 0 0).toNat else s.pos
  stop := s.pos
  groups := (List.range s.caps.set.length).map (capturedText text s.caps)
  groupMatched := s.caps.set

section
variable (tables : UnicodeTables) (pattern : Pattern) (text : Bytes)

/-- The state in which the match of the whole pattern starts. -/
def startState (pos : Nat) : State where
  pos := pos
  caps :=
    let caps := makeCaps (maxCapture pattern.root)
    { caps with start := caps.start.set 0 0, set := caps.set.set 0 true }

/-- The result of a match that began at `pos` and led to a state. -/
def matchedFrom (pos : Nat) (s : State) : MatchResult :=
  materialize text
    { s with
      caps :=
        { start := s.caps.start.set 0 pos, stop := s.caps.stop.set 0 s.pos,
          set := s.caps.set.set 0 true } }

/-- The first of the start positions that has a match, each with a budget of its own. -/
def matchFrom : List Nat → Except String MatchResult
  | [] => .ok {}
  | pos :: rest => do
    let (out, _) ← matchNode tables text kRegexMaxDepth pattern.root (startState pattern pos) 0
    match out with
    | [] => matchFrom rest
    | s :: _ => return matchedFrom text pos s

/-- The start positions a match tries. -/
def startPositions (search : Bool) : List Nat := if search then List.range (text.length + 1) else [0]

def runMatch (search : Bool) : Except String MatchResult :=
  matchFrom tables pattern text (startPositions text search)

end

end zl.regex
