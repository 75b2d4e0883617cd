import Zl.Regex.Repetition

namespace zl.regex

/-- What a computation returns, when it does not give up, has a property. -/
def Returns {A : Type} (c : Budgeted A) (P : A → Prop) : Prop :=
  ∀ steps out steps', c steps = .ok (out, steps') → P out

theorem returns_pure {A : Type} {P : A → Prop} {a : A} (ha : P a) : Returns (pure a) P := by
  intro steps out steps' hrun
  cases hrun
  exact ha

theorem returns_budgetExceeded {A : Type} {P : A → Prop} (what : String) :
    Returns (budgetExceeded what) P := by
  intro steps out steps' hrun
  cases hrun

theorem returns_bind {A B : Type} {c : Budgeted A} {f : A → Budgeted B} {Q : A → Prop} {P : B → Prop}
    (hc : Returns c Q) (hf : ∀ a, Q a → Returns (f a) P) : Returns (c >>= f) P := by
  intro steps out steps' hrun
  change (c steps >>= fun r => f r.1 r.2) = _ at hrun
  cases hfirst : c steps with
  | error e =>
    rw [hfirst] at hrun
    cases hrun
  | ok r =>
    rw [hfirst] at hrun
    exact hf r.1 (hc steps r.1 r.2 hfirst) r.2 out steps' hrun

theorem returns_buyStep {A : Type} {c : Budgeted A} {P : A → Prop} (hc : Returns c P) :
    Returns (buyStep >>= fun _ => c) P :=
  returns_bind (Q := fun _ => True) (fun _ _ _ _ => trivial) fun _ _ => hc

theorem returns_collect {A : Type} {run : A → Budgeted (List State)} {f : A → List State} {l : List A}
    (hrun : ∀ a ∈ l, Returns (run a) (· = f a)) : Returns (collect run l) (· = l.flatMap f) := by
  induction l with
  | nil => exact returns_pure rfl
  | cons a rest ih =>
    refine returns_bind (hrun a List.mem_cons_self) fun out hout => ?_
    refine returns_bind (ih fun b hb => hrun b (List.mem_cons_of_mem a hb)) fun tail htail => ?_
    refine returns_pure ?_
    rw [hout, htail, List.flatMap_cons]

section
variable (tables : UnicodeTables) (text : Bytes)

/-- Every start from which a lookbehind body matches up to the position is the width of the body
    in front of it. -/
def StartsAtWidth (next : State → List State) (child : Node) (st : State) : Prop :=
  ∀ start ≤ st.pos, (∃ s ∈ next { st with pos := start }, s.pos = st.pos) →
    (start : Int) + fixedWidth child = st.pos

mutual

/-- At every state a match of a node visits, no iteration of a quantifier below its minimum
    matches the empty string, and the body of a lookbehind takes as many bytes as its width in
    code points. -/
def Exact : Node → State → Prop
  | .sequence children, st => ExactSequence children st
  | .alternation children, st => ExactAlternation children st
  | .group i child, st | .namedGroup i _ child, st => Exact child (st.enter i)
  | .atomicGroup child, st | .lookahead child, st | .negativeLookahead child, st => Exact child st
  | .quantifier bounds _ possessive child, st =>
    ConsumesMandatory (results tables text child) bounds possessive st ∧
      ∀ count t, Iterates (results tables text child) bounds possessive st count t →
        limitReached bounds.maximum count = false → Exact child t
  | .lookbehind child, st | .negativeLookbehind child, st =>
    StartsAtWidth (results tables text child) child st ∧
      ∀ start : Nat, start ≤ st.pos → (start : Int) + fixedWidth child = st.pos →
        Exact child { st with pos := start }
  | .literal _, _ | .escape _, _ | .characterClass _, _ | .any, _ | .anchorStart, _
  | .anchorEnd, _ | .backreference _ _, _ => True

def ExactSequence : List Node → State → Prop
  | [], _ => True
  | child :: rest, st =>
    Exact child st ∧ ∀ s ∈ results tables text child st, ExactSequence rest s

def ExactAlternation : List Node → State → Prop
  | [], _ => True
  | child :: rest, st => Exact child st ∧ ExactAlternation rest st

end

end

section
variable {tables : UnicodeTables} {text : Bytes}

theorem decodeUtf8_of_literal {literal : Literal} {pos : Nat}
    (htext : (text.drop pos).take literal.bytes.length = literal.bytes) :
    decodeUtf8 text pos = some (literal.codePoint, literal.bytes.length) := by
  have hsplit := List.take_append_drop literal.bytes.length (text.drop pos)
  rw [htext] at hsplit
  have hdecode := decodeFront_take_append literal.decodes ((text.drop pos).drop literal.bytes.length)
  rwa [List.take_length, hsplit] at hdecode

theorem matchLiteral_eq (literal : Literal) (st : State) :
    matchLiteral text literal st = results tables text (.literal literal) st := by
  rw [results, matchLiteral]
  by_cases htext : (text.drop st.pos).take literal.bytes.length = literal.bytes
  · have hlength := congrArg List.length htext
    have hpos := (decodeFront_width literal.decodes).1
    rw [List.length_take, List.length_drop] at hlength
    have hshort : ¬ (st.pos + literal.bytes.length > text.length ∨
        (text.drop st.pos).take literal.bytes.length ≠ literal.bytes) := by
      rintro (hlong | hne)
      · omega
      · exact hne htext
    rw [if_neg hshort, if_pos htext, matchCodePoint, decodeUtf8_of_literal htext]
    rfl
  · rw [if_pos (Or.inr htext), if_neg htext]

theorem returns_matchLookbehind {run : State → Budgeted (List State)} {next : State → List State}
    {child : Node} {st : State} (hstarts : StartsAtWidth next child st)
    (hrun : ∀ start : Nat, start ≤ st.pos → (start : Int) + fixedWidth child = st.pos →
      Returns (run { st with pos := start }) (· = next { st with pos := start })) :
    Returns (matchLookbehind run child st) (· = (List.range (st.pos + 1)).any fun start =>
      (next { st with pos := start }).any (·.pos = st.pos)) := by
  have hfound (start : Nat) (hstart : start ≤ st.pos)
      (hany : (next { st with pos := start }).any (·.pos = st.pos) = true) :
      (start : Int) + fixedWidth child = st.pos := by
    obtain ⟨s, hs, hpos⟩ := List.any_eq_true.mp hany
    exact hstarts start hstart ⟨s, hs, of_decide_eq_true hpos⟩
  unfold matchLookbehind
  split
  · next hwidth =>
    refine returns_pure ?_
    symm
    rw [List.any_eq_false]
    intro start hmem hany
    have hstart := List.mem_range.mp hmem
    have := hfound start (by omega) hany
    omega
  · next hwidth =>
    have hstart : st.pos - (fixedWidth child).toNat ≤ st.pos := Nat.sub_le _ _
    refine returns_bind (hrun _ hstart (by omega)) fun out hout => returns_pure ?_
    rw [hout, Bool.eq_iff_iff, List.any_eq_true (l := List.range (st.pos + 1))]
    constructor
    · exact fun hany => ⟨_, List.mem_range.mpr (by omega), hany⟩
    · rintro ⟨start, hmem, hany⟩
      have hmem := List.mem_range.mp hmem
      have := hfound start (by omega) hany
      obtain rfl : start = st.pos - (fixedWidth child).toNat := by omega
      exact hany

section
variable {next : State → List State} {run : State → Budgeted (List State)} {bounds : Bounds} {st : State}
  (hnext : ∀ st s, st.pos ≤ text.length → s ∈ next st → InText text st s)
  (hst : st.pos ≤ text.length)
include hnext hst

/-- The loop of a possessive quantifier, by induction on the steps it has left. -/
theorem returns_possess (hmandatory : ConsumesMandatory next bounds true st)
    (hrun : ∀ count t, Iterates next bounds true st count t →
      limitReached bounds.maximum count = false → Returns (run t) (· = next t))
    (fuel : Nat) {count : Nat} {t : State} (hiterates : Iterates next bounds true st count t) :
    Returns (possess run bounds.maximum fuel t count) fun r =>
      (if r.2 ≥ bounds.minimum then [r.1] else []) =
        outcomesPossessive next bounds text.length count t := by
  induction fuel generalizing count t with
  | zero => exact returns_budgetExceeded _
  | succ fuel ih =>
    unfold possess
    split
    · next hlimit =>
      refine returns_pure ?_
      rw [outcomesPossessive_of_limitReached hlimit, if_pos (minimum_le_of_limitReached hlimit)]
    · next hlimit =>
      have hlimit : limitReached bounds.maximum count = false := by simpa using hlimit
      refine returns_bind (hrun count t hiterates hlimit) fun out hout => ?_
      have hpos : t.pos ≤ text.length := hiterates.pos_le hnext hst
      subst hout
      cases hchosen : next t with
      | nil =>
        refine returns_pure ?_
        by_cases hcount : bounds.minimum ≤ count
        · rw [if_pos hcount, outcomesPossessive_of_ge hnext hpos hlimit hcount, hchosen]
        · rw [if_neg hcount, outcomesPossessive_of_lt (Nat.lt_of_not_le hcount), hchosen]
      | cons chosen rest =>
        have hmem : chosen ∈ choices true (next t) := by
          rw [hchosen]
          exact List.mem_cons_self
        dsimp only
        split
        · next hsame =>
          refine returns_pure ?_
          by_cases hcount : bounds.minimum ≤ count
          · rw [if_pos hcount, outcomesPossessive_of_ge hnext hpos hlimit hcount, hchosen]
            exact (if_pos hsame).symm
          · exact absurd hsame (hmandatory count t hiterates (Nat.lt_of_not_le hcount) chosen hmem)
        · next hmoved =>
          have hoff : outcomesPossessive next bounds text.length count t =
              outcomesPossessive next bounds text.length (count + 1) chosen := by
            by_cases hcount : bounds.minimum ≤ count
            · rw [outcomesPossessive_of_ge hnext hpos hlimit hcount, hchosen]
              exact if_neg hmoved
            · rw [outcomesPossessive_of_lt (Nat.lt_of_not_le hcount), hchosen]
          rw [hoff]
          exact ih (hiterates.step hlimit hmem hmoved)

/-- The continuation of a quantifier, when the depth it has left is enough for its body and for
    its further iterations. -/
theorem returns_repeatNode {depth : Nat} {child : Node} {greedy possessive : Bool}
    (hmandatory : ConsumesMandatory next bounds possessive st)
    (hrun : ∀ count t, Iterates next bounds possessive st count t →
      limitReached bounds.maximum count = false →
      Returns (matchNode tables text depth child t) (· = next t))
    (hrepeat : ∀ count t, Iterates next bounds possessive st count t →
      Returns (repeatNode tables text depth child bounds greedy possessive t count)
        (· = quantified next bounds greedy possessive text.length count t))
    {count : Nat} {t : State} (hiterates : Iterates next bounds possessive st count t) :
    Returns (repeatNode tables text (depth + 1) child bounds greedy possessive t count)
      (· = quantified next bounds greedy possessive text.length count t) := by
  rw [repeatNode]
  cases possessive with
  | true =>
    refine returns_bind (returns_possess hnext hst hmandatory hrun _ hiterates) fun r hr => ?_
    exact returns_pure hr
  | false =>
    simp only [quantified, Bool.false_eq_true, if_false] at hrepeat ⊢
    split
    · next hlimit =>
      refine returns_pure ?_
      rw [outcomes_of_limitReached hlimit, if_pos (minimum_le_of_limitReached hlimit)]
    · next hlimit =>
      have hlimit : limitReached bounds.maximum count = false := by simpa using hlimit
      have hpos : t.pos ≤ text.length := hiterates.pos_le hnext hst
      refine returns_bind (hrun count t hiterates hlimit) fun out hout => ?_
      subst hout
      refine returns_bind (returns_collect
        (f := outcomes next bounds greedy text.length (count + 1)) fun s hs => ?_) fun more hmore => ?_
      · obtain ⟨hs, hmoved⟩ := List.mem_filter.mp hs
        exact hrepeat (count + 1) s (hiterates.step hlimit hs (of_decide_eq_true hmoved))
      refine returns_pure ?_
      rw [hmore]
      by_cases hcount : bounds.minimum ≤ count
      · rw [outcomes_of_ge hnext hpos hlimit hcount, if_pos hcount]
        rfl
      · have hlt := Nat.lt_of_not_le hcount
        have hall : (next t).filter (·.pos ≠ t.pos) = next t :=
          List.filter_eq_self.mpr fun s hs => decide_eq_true (hmandatory count t hiterates hlt s hs)
        rw [outcomes_of_lt hlt, if_neg hcount, hall, List.append_nil, List.nil_append, ite_self]

end

theorem returns_matchSequence {run : Node → State → Budgeted (List State)}
    (hrun : ∀ n st, st.pos ≤ text.length → Exact tables text n st →
      Returns (run n st) (· = results tables text n st))
    {children : List Node} {st : State} (hst : st.pos ≤ text.length)
    (hexact : ExactSequence tables text children st) :
    Returns (matchSequence run children st) (· = sequenceResults tables text children st) := by
  induction children generalizing st with
  | nil =>
    rw [sequenceResults]
    exact returns_pure rfl
  | cons child rest ih =>
    rw [ExactSequence] at hexact
    rw [sequenceResults]
    refine returns_bind (hrun child st hst hexact.1) fun heads hheads => ?_
    subst hheads
    exact returns_collect fun s hs => ih (mem_results child hst hs).2 (hexact.2 s hs)

theorem returns_alternation {run : Node → Budgeted (List State)} {children : List Node} {st : State}
    (hrun : ∀ n, Exact tables text n st → Returns (run n) (· = results tables text n st))
    (hexact : ExactAlternation tables text children st) :
    Returns (collect run children) (· = alternationResults tables text children st) := by
  induction children with
  | nil =>
    rw [alternationResults]
    exact returns_pure rfl
  | cons child rest ih =>
    rw [ExactAlternation] at hexact
    rw [alternationResults]
    refine returns_bind (hrun child hexact.1) fun out hout => ?_
    refine returns_bind (ih hexact.2) fun tail htail => returns_pure ?_
    rw [hout, htail]

/-- Within its depth, a match that does not give up returns what the node leads to. -/
theorem returns_matchNode (depth : Nat) :
    (∀ n st, st.pos ≤ text.length → Exact tables text n st →
      Returns (matchNode tables text depth n st) (· = results tables text n st)) ∧
    (∀ child bounds greedy possessive st, st.pos ≤ text.length →
      Exact tables text (.quantifier bounds greedy possessive child) st →
      ∀ count t, Iterates (results tables text child) bounds possessive st count t →
      Returns (repeatNode tables text depth child bounds greedy possessive t count)
        (· = quantified (results tables text child) bounds greedy possessive text.length count t)) := by
  induction depth with
  | zero =>
    refine ⟨fun n st _ _ => ?_, fun child bounds greedy possessive st _ _ count t _ => ?_⟩
    · rw [matchNode]
      exact returns_buyStep (returns_budgetExceeded _)
    · rw [repeatNode]
      exact returns_budgetExceeded _
  | succ depth ih =>
    obtain ⟨hnode, hrepeat⟩ := ih
    have hnext (child : Node) (st s : State) (hst : st.pos ≤ text.length)
        (hs : s ∈ results tables text child st) : InText text st s := mem_results child hst hs
    refine ⟨fun n st hst hexact => ?_,
      fun child bounds greedy possessive st hst hexact count t hiterates => ?_⟩
    · rw [matchNode.eq_def]
      refine returns_buyStep ?_
      cases n with
      | sequence children =>
        rw [Exact] at hexact
        rw [results]
        exact returns_matchSequence hnode hst hexact
      | alternation children =>
        rw [Exact] at hexact
        rw [results]
        exact returns_alternation (fun n hn => hnode n st hst hn) hexact
      | literal literal => exact returns_pure (matchLiteral_eq literal st)
      | escape e => exact returns_pure (by rw [results])
      | characterClass cls => exact returns_pure (by rw [results])
      | any => exact returns_pure (by rw [results])
      | anchorStart => exact returns_pure (by rw [results])
      | anchorEnd => exact returns_pure (by rw [results])
      | group i child =>
        rw [Exact] at hexact
        rw [results]
        refine returns_bind (hnode child _ (by rwa [State.enter_pos]) hexact) fun out hout => ?_
        exact returns_pure (by rw [hout])
      | namedGroup i captureName child =>
        rw [Exact] at hexact
        rw [results]
        refine returns_bind (hnode child _ (by rwa [State.enter_pos]) hexact) fun out hout => ?_
        exact returns_pure (by rw [hout])
      | atomicGroup child =>
        rw [Exact] at hexact
        rw [results]
        exact returns_bind (hnode child st hst hexact) fun out hout => returns_pure (by rw [hout])
      | backreference i captureName => exact returns_pure (by rw [results])
      | quantifier bounds greedy possessive child =>
        rw [results, ← quantified_zero]
        exact hrepeat child bounds greedy possessive st hst hexact 0 st .start
      | lookahead child =>
        rw [Exact] at hexact
        rw [results]
        exact returns_bind (hnode child st hst hexact) fun out hout => returns_pure (by rw [hout])
      | negativeLookahead child =>
        rw [Exact] at hexact
        rw [results]
        exact returns_bind (hnode child st hst hexact) fun out hout => returns_pure (by rw [hout])
      | lookbehind child =>
        rw [Exact] at hexact
        rw [results]
        refine returns_bind (returns_matchLookbehind hexact.1 fun start hstart hwidth =>
          hnode child _ (Nat.le_trans hstart hst) (hexact.2 start hstart hwidth)) fun found hfound => ?_
        exact returns_pure (by rw [hfound])
      | negativeLookbehind child =>
        rw [Exact] at hexact
        rw [results]
        refine returns_bind (returns_matchLookbehind hexact.1 fun start hstart hwidth =>
          hnode child _ (Nat.le_trans hstart hst) (hexact.2 start hstart hwidth)) fun found hfound => ?_
        exact returns_pure (by rw [hfound])
    · have hquantifier := hexact
      rw [Exact] at hexact
      refine returns_repeatNode (hnext child) hst hexact.1 (fun count t ht hlimit => ?_)
        (hrepeat child bounds greedy possessive st hst hquantifier) hiterates
      exact hnode child t (ht.pos_le (hnext child) hst) (hexact.2 count t ht hlimit)

theorem matchFrom_cons {pattern : Pattern} {pos : Nat} {rest : List Nat} {r : List State × Nat}
    (h : matchNode tables text kRegexMaxDepth pattern.root (startState pattern pos) 0 = .ok r) :
    matchFrom tables pattern text (pos :: rest) = match r.1 with
      | [] => matchFrom tables pattern text rest
      | s :: _ => .ok (matchedFrom text pos s) := by
  rw [matchFrom, h]
  rfl

/-- The start positions tried in order: the first of them with a match, or none. -/
theorem matchFrom_cases {pattern : Pattern} {positions : List Nat} {result : MatchResult}
    (hpositions : ∀ pos ∈ positions, pos ≤ text.length)
    (hexact : ∀ earlier pos later, positions = earlier ++ pos :: later →
      (∀ p ∈ earlier, results tables text pattern.root (startState pattern p) = []) →
      Exact tables text pattern.root (startState pattern pos))
    (hrun : matchFrom tables pattern text positions = .ok result) :
    (∃ earlier pos later s rest, positions = earlier ++ pos :: later ∧
      (∀ p ∈ earlier, results tables text pattern.root (startState pattern p) = []) ∧
      results tables text pattern.root (startState pattern pos) = s :: rest ∧
      result = matchedFrom text pos s) ∨
    (result = {} ∧
      ∀ pos ∈ positions, results tables text pattern.root (startState pattern pos) = []) := by
  induction positions with
  | nil =>
    cases hrun
    exact Or.inr ⟨rfl, fun pos hpos => by cases hpos⟩
  | cons pos rest ih =>
    have hreturns := (returns_matchNode kRegexMaxDepth).1 pattern.root (startState pattern pos)
      (hpositions pos List.mem_cons_self) (hexact [] pos rest rfl fun p hp => (by cases hp))
    cases hmatch : matchNode tables text kRegexMaxDepth pattern.root (startState pattern pos) 0 with
    | error e =>
      rw [matchFrom, hmatch] at hrun
      cases hrun
    | ok r =>
      rw [matchFrom_cons hmatch] at hrun
      have hout : r.1 = _ := hreturns 0 r.1 r.2 hmatch
      cases hstates : r.1 with
      | cons s more =>
        rw [hstates] at hrun hout
        cases hrun
        exact Or.inl ⟨[], pos, rest, s, more, rfl, (fun p hp => (by cases hp)), hout.symm, rfl⟩
      | nil =>
        rw [hstates] at hrun hout
        have hrest := ih (fun p hp => hpositions p (List.mem_cons_of_mem pos hp))
          (fun earlier p later hsplit hnone => hexact (pos :: earlier) p later (by rw [hsplit]; rfl)
            (List.forall_mem_cons.mpr ⟨hout.symm, hnone⟩)) hrun
        cases hrest with
        | inl hfound =>
          obtain ⟨earlier, p, later, s, more, hsplit, hnone, hs, hresult⟩ := hfound
          exact Or.inl ⟨pos :: earlier, p, later, s, more, by rw [hsplit]; rfl,
            List.forall_mem_cons.mpr ⟨hout.symm, hnone⟩, hs, hresult⟩
        | inr hmissed => exact Or.inr ⟨hmissed.1, List.forall_mem_cons.mpr ⟨hout.symm, hmissed.2⟩⟩

theorem startPositions_le (search : Bool) : ∀ pos ∈ startPositions text search, pos ≤ text.length := by
  intro pos hpos
  unfold startPositions at hpos
  split at hpos
  · exact Nat.le_of_lt_succ (List.mem_range.mp hpos)
  · rw [List.mem_singleton.mp hpos]
    exact Nat.zero_le _

end

/-- A match that stays within its budget is leftmost-first, when at every start position up
    to the first with a match the matcher visits only states at which it is exact. -/
theorem leftmostFirst_of_exact (tables : UnicodeTables) (pattern : Pattern) (text : Bytes) (search : Bool)
    (result : MatchResult)
    (hexact : ∀ earlier pos later, startPositions text search = earlier ++ pos :: later →
      (∀ p ∈ earlier, results tables text pattern.root (startState pattern p) = []) →
      Exact tables text pattern.root (startState pattern pos))
    (hrun : runMatch tables pattern text search = .ok result) :
    LeftmostFirst tables text pattern search result := by
  cases matchFrom_cases (startPositions_le search) hexact hrun with
  | inl hfound =>
    obtain ⟨earlier, pos, later, s, rest, hsplit, hnone, hs, rfl⟩ := hfound
    exact ⟨fun _ => ⟨earlier, pos, later, s, rest, hsplit, hnone, hs, rfl⟩, nofun⟩
  | inr hmissed =>
    obtain ⟨rfl, hnone⟩ := hmissed
    exact ⟨nofun, fun _ => hnone⟩

/-- The Unicode tables below the code points that take two bytes. -/
def asciiTables : UnicodeTables where
  property cp letter :=
    if letter = code 'L' then (65 ≤ cp && cp ≤ 90) || (97 ≤ cp && cp ≤ 122)
    else if letter = code 'N' then 48 ≤ cp && cp ≤ 57
    else letter == code 'Z' && cp == 32
  decimalDigit cp := 48 ≤ cp && cp ≤ 57

theorem le_unlimited : ∀ limit ∈ (none : Option Nat), 1 ≤ limit := nofun

/-- `(a|b)+` consumes in each of its iterations. -/
def lettersPattern : Pattern where
  root := .quantifier ⟨1, none, le_unlimited⟩ true false
    (.alternation [.literal ⟨[97], 97, by decide⟩, .literal ⟨[98], 98, by decide⟩])

/-- In front of a `c` and of letters it matches, each of its start positions is exact. -/
theorem lettersPattern_leftmostFirst :
    (∃ result, runMatch asciiTables lettersPattern [99, 98, 97] true = .ok result) ∧
    ∀ result, runMatch asciiTables lettersPattern [99, 98, 97] true = .ok result →
      LeftmostFirst asciiTables [99, 98, 97] lettersPattern true result := by
  refine ⟨⟨_, rfl⟩, fun result hrun => leftmostFirst_of_exact _ _ _ _ _ ?_ hrun⟩
  intro earlier pos later hsplit hnone
  have hpos : pos ∈ startPositions [99, 98, 97] true := by
    rw [hsplit]
    exact List.mem_append_right earlier List.mem_cons_self
  rw [lettersPattern, Exact]
  refine ⟨fun count t hiterates hcount s hs => ?_, fun count t _ _ => ?_⟩
  · obtain rfl : count = 0 := Nat.lt_one_iff.mp hcount
    cases hiterates
    have hall : ∀ p ∈ startPositions [99, 98, 97] true, ∀ s ∈ results asciiTables [99, 98, 97]
        (.alternation [.literal ⟨[97], 97, by decide⟩, .literal ⟨[98], 98, by decide⟩])
        (startState lettersPattern p), s.pos ≠ p := by
      decide +kernel
    exact hall pos hpos s hs
  · simp only [Exact, ExactAlternation, and_self]

/-- `(a?){2}` has a match on the empty text, both iterations empty, which the matcher does not
    find: it drops an empty iteration although it is one of the two. -/
theorem emptyIterations_not_leftmostFirst : ∃ pattern result,
    parse ("(a?)\x7b2\x7d".toList.map code) = .ok pattern ∧
      runMatch asciiTables pattern [] true = .ok result ∧
      ¬ LeftmostFirst asciiTables [] pattern true result := by
  refine ⟨_, _, rfl, rfl, fun h => ?_⟩
  exact absurd (h.missed rfl 0 (by decide)) (by decide +kernel)

end zl.regex
