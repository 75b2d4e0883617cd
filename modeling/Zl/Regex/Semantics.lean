import Zl.Regex.Matcher

namespace zl.regex

section
variable (next : State → List State)

/-- The states after exactly `n` iterations of a body, in order of preference. -/
def iterate : Nat → State → List State
  | 0, st => [st]
  | n + 1, st => (next st).flatMap (iterate n)

/-- The states after at most `n` optional iterations. An optional iteration has to consume; a
    greedy quantifier prefers one more of them, a lazy one prefers to stop. -/
def upTo (greedy : Bool) : Nat → State → List State
  | 0, st => [st]
  | n + 1, st =>
    let more := ((next st).filter (·.pos ≠ st.pos)).flatMap (upTo greedy n)
    if greedy then more ++ [st] else st :: more

/-- The iterations of a possessive quantifier, which never gives back: the first match of
    each mandatory iteration, -/
def iteratePossessive : Nat → State → Option State
  | 0, st => some st
  | n + 1, st => (next st).head?.bind (iteratePossessive n)

/-- and then the first match of an optional one, as long as it consumes. -/
def upToPossessive : Nat → State → State
  | 0, st => st
  | n + 1, st =>
    match next st with
    | [] => st
    | chosen :: _ => if chosen.pos = st.pos then st else upToPossessive n chosen

end

/-- The optional iterations behind the mandatory ones. Each of them consumes, so that a text has
    room for as many as it is long. -/
def optionalIterations (bounds : Bounds) (size : Nat) : Nat :=
  match bounds.maximum with
  | none => size
  | some limit => limit - bounds.minimum

/-- At least the minimum and at most the maximum of iterations of a body. -/
def repeated (next : State → List State) (bounds : Bounds) (greedy possessive : Bool) (size : Nat)
    (st : State) : List State :=
  if possessive then
    ((iteratePossessive next bounds.minimum st).map
      (upToPossessive next (optionalIterations bounds size))).toList
  else
    (iterate next bounds.minimum st).flatMap (upTo next greedy (optionalIterations bounds size))

section
variable (tables : UnicodeTables) (text : Bytes)

mutual

/-- The states a node leads to, in order of preference: leftmost-first backtracking. -/
def results : Node → State → List State
  | .sequence children, st => sequenceResults children st
  | .alternation children, st => alternationResults children st
  | .literal literal, st =>
    if (text.drop st.pos).take literal.bytes.length = literal.bytes then
      [{ st with pos := st.pos + literal.bytes.length }]
    else []
  | .escape e, st => matchCodePoint text (escapeAtom tables e) st
  | .characterClass cls, st => matchCodePoint text (classAtom tables cls) st
  | .any, st => matchCodePoint text (fun _ => true) st
  | .anchorStart, st => if st.pos = 0 then [st] else []
  | .anchorEnd, st => if st.pos = text.length then [st] else []
  | .group i child, st | .namedGroup i _ child, st =>
    (results child (st.enter i)).map (State.leave · i)
  | .atomicGroup child, st => (results child st).take 1
  | .backreference i captureName, st => matchBackreference text i captureName st
  | .quantifier bounds greedy possessive child, st =>
    repeated (results child) bounds greedy possessive text.length st
  | .lookahead child, st => if (results child st).isEmpty then [] else [st]
  | .negativeLookahead child, st => if (results child st).isEmpty then [st] else []
  | .lookbehind child, st =>
    if (List.range (st.pos + 1)).any fun start =>
        (results child { st with pos := start }).any (·.pos = st.pos) then [st]
    else []
  | .negativeLookbehind child, st =>
    if (List.range (st.pos + 1)).any fun start =>
        (results child { st with pos := start }).any (·.pos = st.pos) then []
    else [st]

/-- One after the other, the choices of the first preferred to those of the rest. -/
def sequenceResults : List Node → State → List State
  | [], st => [st]
  | child :: rest, st => (results child st).flatMap (sequenceResults rest)

/-- An earlier arm is preferred to a later one. -/
def alternationResults : List Node → State → List State
  | [], _ => []
  | child :: rest, st => results child st ++ alternationResults rest st

end

/-- The result of a leftmost-first match: the first preferred state at the first start
    position that has one. -/
structure LeftmostFirst (pattern : Pattern) (search : Bool) (result : MatchResult) : Prop where
  found : result.matched = true →
    ∃ earlier pos later s rest, startPositions text search = earlier ++ pos :: later ∧
      (∀ p ∈ earlier, results tables text pattern.root (startState pattern p) = []) ∧
      results tables text pattern.root (startState pattern pos) = s :: rest ∧
      result = matchedFrom text pos s
  missed : result.matched = false →
    ∀ pos ∈ startPositions text search, results tables text pattern.root (startState pattern pos) = []

end

/-- Where a match of a node would go on. -/
def InText (text : Bytes) (st : State) (next : State) : Prop := st.pos ≤ next.pos ∧ next.pos ≤ text.length

section
variable {tables : UnicodeTables} {text : Bytes}
variable {next : State → List State} {st s : State} {n : Nat}

theorem mem_matchCodePoint {test : Nat → Bool} (hs : s ∈ matchCodePoint text test st) :
    InText text st s := by
  unfold matchCodePoint at hs
  split at hs
  · cases hs
  · next cp width hdecode =>
    split at hs
    · obtain rfl := List.mem_singleton.mp hs
      obtain ⟨hpos, hle⟩ := decodeFront_width hdecode
      rw [List.length_drop] at hle
      unfold InText
      dsimp only
      omega
    · cases hs

theorem mem_matchBackreference {i : Nat} {captureName : Bytes}
    (hs : s ∈ matchBackreference text i captureName st) : InText text st s := by
  unfold matchBackreference at hs
  split at hs
  · cases hs
  · split at hs
    · cases hs
    · dsimp only at hs
      split at hs
      · cases hs
      · next hbound =>
        split at hs
        · cases hs
        · obtain rfl := List.mem_singleton.mp hs
          unfold InText
          dsimp only
          omega

theorem mem_iterate (hst : st.pos ≤ text.length)
    (hnext : ∀ st s, st.pos ≤ text.length → s ∈ next st → InText text st s)
    (hs : s ∈ iterate next n st) : InText text st s := by
  induction n generalizing st with
  | zero =>
    obtain rfl := List.mem_singleton.mp hs
    exact ⟨Nat.le_refl _, hst⟩
  | succ n ih =>
    obtain ⟨t, ht, hs⟩ := List.mem_flatMap.mp hs
    have hstep := hnext st t hst ht
    have hrest := ih hstep.2 hs
    exact ⟨Nat.le_trans hstep.1 hrest.1, hrest.2⟩

theorem mem_upTo {greedy : Bool} (hst : st.pos ≤ text.length)
    (hnext : ∀ st s, st.pos ≤ text.length → s ∈ next st → InText text st s)
    (hs : s ∈ upTo next greedy n st) : InText text st s := by
  induction n generalizing st with
  | zero =>
    obtain rfl := List.mem_singleton.mp hs
    exact ⟨Nat.le_refl _, hst⟩
  | succ n ih =>
    have hcases : s = st ∨ s ∈ ((next st).filter (·.pos ≠ st.pos)).flatMap (upTo next greedy n) := by
      cases greedy with
      | true => exact (List.mem_append.mp hs).symm.imp_left List.mem_singleton.mp
      | false => exact List.mem_cons.mp hs
    cases hcases with
    | inl heq =>
      rw [heq]
      exact ⟨Nat.le_refl _, hst⟩
    | inr hmore =>
      obtain ⟨t, ht, hs⟩ := List.mem_flatMap.mp hmore
      have hstep := hnext st t hst (List.mem_of_mem_filter ht)
      have hrest := ih hstep.2 hs
      exact ⟨Nat.le_trans hstep.1 hrest.1, hrest.2⟩

theorem mem_iteratePossessive (hst : st.pos ≤ text.length)
    (hnext : ∀ st s, st.pos ≤ text.length → s ∈ next st → InText text st s)
    (hs : iteratePossessive next n st = some s) : InText text st s := by
  induction n generalizing st with
  | zero =>
    obtain rfl := Option.some.inj hs
    exact ⟨Nat.le_refl _, hst⟩
  | succ n ih =>
    obtain ⟨t, ht, hs⟩ := Option.bind_eq_some_iff.mp hs
    have hstep := hnext st t hst (List.mem_of_mem_head? ht)
    have hrest := ih hstep.2 hs
    exact ⟨Nat.le_trans hstep.1 hrest.1, hrest.2⟩

theorem upToPossessive_inText (n : Nat) {st : State} (hst : st.pos ≤ text.length)
    (hnext : ∀ st s, st.pos ≤ text.length → s ∈ next st → InText text st s) :
    InText text st (upToPossessive next n st) := by
  induction n generalizing st with
  | zero => exact ⟨Nat.le_refl _, hst⟩
  | succ n ih =>
    unfold upToPossessive
    split
    · exact ⟨Nat.le_refl _, hst⟩
    · next chosen rest hchosen =>
      split
      · exact ⟨Nat.le_refl _, hst⟩
      · have hstep := hnext st chosen hst (hchosen ▸ List.mem_cons_self)
        have hrest := ih hstep.2
        exact ⟨Nat.le_trans hstep.1 hrest.1, hrest.2⟩

theorem mem_repeated {bounds : Bounds} {greedy possessive : Bool} (hst : st.pos ≤ text.length)
    (hnext : ∀ st s, st.pos ≤ text.length → s ∈ next st → InText text st s)
    (hs : s ∈ repeated next bounds greedy possessive text.length st) : InText text st s := by
  unfold repeated at hs
  split at hs
  · obtain ⟨t, ht, rfl⟩ := Option.map_eq_some_iff.mp (Option.mem_toList.mp hs)
    have hstep := mem_iteratePossessive hst hnext ht
    have hrest := upToPossessive_inText (optionalIterations bounds text.length) hstep.2 hnext
    exact ⟨Nat.le_trans hstep.1 hrest.1, hrest.2⟩
  · obtain ⟨t, ht, hs⟩ := List.mem_flatMap.mp hs
    have hstep := mem_iterate hst hnext ht
    have hrest := mem_upTo hstep.2 hnext hs
    exact ⟨Nat.le_trans hstep.1 hrest.1, hrest.2⟩

theorem inText_of_mem_ite {p : Prop} [Decidable p] (hst : st.pos ≤ text.length)
    (hs : s ∈ if p then [st] else []) : InText text st s := by
  split at hs
  · obtain rfl := List.mem_singleton.mp hs
    exact ⟨Nat.le_refl _, hst⟩
  · cases hs

mutual

/-- A match goes forward, and stays in the text. -/
theorem mem_results : ∀ (n : Node) {st s : State}, st.pos ≤ text.length →
    s ∈ results tables text n st → InText text st s
  | .sequence children, _, _, hst, hs => mem_sequenceResults children hst (by rwa [results] at hs)
  | .alternation children, _, _, hst, hs => mem_alternationResults children hst (by rwa [results] at hs)
  | .literal literal, st, s, hst, hs => by
    rw [results] at hs
    split at hs
    · next htext =>
      obtain rfl := List.mem_singleton.mp hs
      have hlength := congrArg List.length htext
      rw [List.length_take, List.length_drop] at hlength
      unfold InText
      dsimp only
      omega
    · cases hs
  | .escape e, _, _, _, hs => mem_matchCodePoint (by rwa [results] at hs)
  | .characterClass cls, _, _, _, hs => mem_matchCodePoint (by rwa [results] at hs)
  | .any, _, _, _, hs => mem_matchCodePoint (by rwa [results] at hs)
  | .anchorStart, _, _, hst, hs => inText_of_mem_ite hst (by rwa [results] at hs)
  | .anchorEnd, _, _, hst, hs => inText_of_mem_ite hst (by rwa [results] at hs)
  | .group i child, st, s, hst, hs => by
    rw [results] at hs
    obtain ⟨t, ht, rfl⟩ := List.mem_map.mp hs
    have h := mem_results child (by rwa [State.enter_pos]) ht
    rwa [InText, State.enter_pos, ← State.leave_pos t i] at h
  | .namedGroup i _ child, st, s, hst, hs => by
    rw [results] at hs
    obtain ⟨t, ht, rfl⟩ := List.mem_map.mp hs
    have h := mem_results child (by rwa [State.enter_pos]) ht
    rwa [InText, State.enter_pos, ← State.leave_pos t i] at h
  | .atomicGroup child, _, _, hst, hs => by
    rw [results] at hs
    exact mem_results child hst (List.mem_of_mem_take hs)
  | .backreference i captureName, _, _, _, hs => mem_matchBackreference (by rwa [results] at hs)
  | .quantifier bounds greedy possessive child, _, _, hst, hs => by
    rw [results] at hs
    exact mem_repeated hst (fun st s hst hs => mem_results child hst hs) hs
  | .lookahead child, _, _, hst, hs => by
    rw [results, ← ite_not] at hs
    exact inText_of_mem_ite hst hs
  | .negativeLookahead child, _, _, hst, hs => inText_of_mem_ite hst (by rwa [results] at hs)
  | .lookbehind child, _, _, hst, hs => inText_of_mem_ite hst (by rwa [results] at hs)
  | .negativeLookbehind child, _, _, hst, hs => by
    rw [results, ← ite_not] at hs
    exact inText_of_mem_ite hst hs

theorem mem_sequenceResults : ∀ (children : List Node) {st s : State}, st.pos ≤ text.length →
    s ∈ sequenceResults tables text children st → InText text st s
  | [], _, _, hst, hs => by
    rw [sequenceResults] at hs
    obtain rfl := List.mem_singleton.mp hs
    exact ⟨Nat.le_refl _, hst⟩
  | child :: rest, _, _, hst, hs => by
    rw [sequenceResults] at hs
    obtain ⟨t, ht, hs⟩ := List.mem_flatMap.mp hs
    have hstep := mem_results child hst ht
    have hrest := mem_sequenceResults rest hstep.2 hs
    exact ⟨Nat.le_trans hstep.1 hrest.1, hrest.2⟩

theorem mem_alternationResults : ∀ (children : List Node) {st s : State}, st.pos ≤ text.length →
    s ∈ alternationResults tables text children st → InText text st s
  | [], _, _, _, hs => by
    rw [alternationResults] at hs
    cases hs
  | child :: rest, _, _, hst, hs => by
    rw [alternationResults] at hs
    cases List.mem_append.mp hs with
    | inl hs => exact mem_results child hst hs
    | inr hs => exact mem_alternationResults rest hst hs

end

end

end zl.regex
