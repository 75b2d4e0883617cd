import Zl.Collections.Basic
import Zl.Regex.CodePoints
import Zl.Regex.Moves

open Relation zl.collections

namespace zl.regex

def Node.children : Node → List Node
  | .sequence children | .alternation children => children
  | .group _ child | .namedGroup _ _ child | .atomicGroup child | .quantifier _ _ _ child
  | .lookahead child | .negativeLookahead child | .lookbehind child | .negativeLookbehind child => [child]
  | .literal _ | .escape _ | .characterClass _ | .any | .backreference _ _ | .anchorStart
  | .anchorEnd => []

/-- A node is part of another. -/
def Contains (root n : Node) : Prop := ReflTransGen (fun parent child => child ∈ parent.children) root n

mutual

/-- A node has to repeat what matches only the empty string. -/
def repeatsEmpty : Node → Bool
  | .sequence children => repeatsEmptyAny children
  | .group _ child | .namedGroup _ _ child => repeatsEmpty child
  | .quantifier bounds _ _ child =>
    bounds.minimum > 0 && (validationLookbehindWidth child == some 0 || repeatsEmpty child)
  | .alternation _ | .atomicGroup _ | .literal _ | .escape _ | .characterClass _ | .any
  | .backreference _ _ | .anchorStart | .anchorEnd | .lookahead _ | .negativeLookahead _
  | .lookbehind _ | .negativeLookbehind _ => false

def repeatsEmptyAny : List Node → Bool
  | [] => false
  | child :: rest => repeatsEmpty child || repeatsEmptyAny rest

end

theorem width_cons {child : Node} {rest : List Node} {w : Nat}
    (hwidth : validationLookbehindWidthAll (child :: rest) = some w) : ∃ x y,
      validationLookbehindWidth child = some x ∧ validationLookbehindWidthAll rest = some y ∧ w = x + y := by
  rw [validationLookbehindWidthAll] at hwidth
  split at hwidth
  · next x y hx hy => exact ⟨x, y, hx, hy, (Option.some.inj hwidth).symm⟩
  · nomatch hwidth

theorem width_quantifier {bounds : Bounds} {greedy possessive : Bool} {child : Node} {w : Nat}
    (hwidth : validationLookbehindWidth (.quantifier bounds greedy possessive child) = some w) : ∃ x,
      bounds.maximum = some bounds.minimum ∧ validationLookbehindWidth child = some x ∧
        w = x * bounds.minimum := by
  rw [validationLookbehindWidth] at hwidth
  split at hwidth
  · next hmaximum =>
    obtain ⟨x, hx, rfl⟩ := Option.map_eq_some_iff.mp hwidth
    exact ⟨x, hmaximum, hx, rfl⟩
  · nomatch hwidth

mutual

/-- The matcher goes back as many bytes as the validation counts code points. -/
theorem fixedWidth_eq : ∀ (n : Node) {w : Nat}, validationLookbehindWidth n = some w → fixedWidth n = w
  | .sequence children, w, h => by
    rw [validationLookbehindWidth] at h
    rw [fixedWidth]
    exact fixedWidthAll_eq children h
  | .group _ child, w, h => by
    rw [validationLookbehindWidth] at h
    rw [fixedWidth]
    exact fixedWidth_eq child h
  | .namedGroup _ _ child, w, h => by
    rw [validationLookbehindWidth] at h
    rw [fixedWidth]
    exact fixedWidth_eq child h
  | .quantifier bounds _ _ child, w, h => by
    obtain ⟨x, hmaximum, hx, rfl⟩ := width_quantifier h
    rw [fixedWidth, if_pos hmaximum, fixedWidth_eq child hx, Int.natCast_mul]
  | .literal _, w, h | .escape _, w, h | .characterClass _, w, h | .any, w, h => by
    rw [validationLookbehindWidth] at h
    rw [fixedWidth, ← Option.some.inj h]
    rfl
  | .alternation _, w, h | .atomicGroup _, w, h | .backreference _ _, w, h | .anchorStart, w, h
  | .anchorEnd, w, h | .lookahead _, w, h | .negativeLookahead _, w, h | .lookbehind _, w, h
  | .negativeLookbehind _, w, h => by
    rw [validationLookbehindWidth] at h
    nomatch h

theorem fixedWidthAll_eq : ∀ (children : List Node) {w : Nat},
    validationLookbehindWidthAll children = some w → fixedWidthAll children = w
  | [], w, h => by
    rw [validationLookbehindWidthAll] at h
    rw [fixedWidthAll, ← Option.some.inj h]
    rfl
  | child :: rest, w, h => by
    obtain ⟨x, y, hx, hy, rfl⟩ := width_cons h
    rw [fixedWidthAll, fixedWidth_eq child hx, fixedWidthAll_eq rest hy, if_neg (by omega),
      Int.natCast_add]

end

section
variable {tables : UnicodeTables} {text : Bytes}
variable {next : State → List State} {st s : State} {bounds : Bounds} {child : Node} {x : Nat}

theorem codePoints_matchCodePoint {test : Nat → Bool} (hs : s ∈ matchCodePoint text test st) :
    CodePoints text st.pos 1 s.pos := by
  unfold matchCodePoint at hs
  split at hs
  · nomatch hs
  · next cp width hdecode =>
    split at hs
    · obtain rfl := List.mem_singleton.mp hs
      exact .single hdecode
    · nomatch hs

theorem codePoints_iterate {x n : Nat} (hnext : ∀ st, ∀ s ∈ next st, CodePoints text st.pos x s.pos)
    (hs : s ∈ iterate next n st) : CodePoints text st.pos (x * n) s.pos := by
  induction n generalizing st with
  | zero =>
    obtain rfl := List.mem_singleton.mp hs
    exact .none
  | succ n ih =>
    obtain ⟨t, ht, hs⟩ := List.mem_flatMap.mp hs
    rw [Nat.mul_succ, Nat.add_comm]
    exact (hnext st t ht).trans (ih hs)

theorem codePoints_iteratePossessive {x n : Nat}
    (hnext : ∀ st, ∀ s ∈ next st, CodePoints text st.pos x s.pos)
    (hs : iteratePossessive next n st = some s) : CodePoints text st.pos (x * n) s.pos := by
  induction n generalizing st with
  | zero =>
    obtain rfl := Option.some.inj hs
    exact .none
  | succ n ih =>
    obtain ⟨t, ht, hs⟩ := Option.bind_eq_some_iff.mp hs
    rw [Nat.mul_succ, Nat.add_comm]
    exact (hnext st t (List.mem_of_head? ht)).trans (ih hs)

theorem codePoints_repeated (hmaximum : bounds.maximum = some bounds.minimum)
    (hnext : ∀ st, ∀ s ∈ next st, CodePoints text st.pos x s.pos) {greedy possessive : Bool}
    {size : Nat} (hs : s ∈ repeated next bounds greedy possessive size st) :
    CodePoints text st.pos (x * bounds.minimum) s.pos := by
  have hoptional : optionalIterations bounds size = 0 := by
    simp [optionalIterations, hmaximum]
  rw [repeated, hoptional] at hs
  split at hs
  · obtain ⟨t, ht, rfl⟩ := Option.map_eq_some_iff.mp (Option.mem_toList.mp hs)
    exact codePoints_iteratePossessive hnext ht
  · obtain ⟨t, ht, hs⟩ := List.mem_flatMap.mp hs
    obtain rfl := List.mem_singleton.mp hs
    exact codePoints_iterate hnext ht

mutual

/-- What a node of a width leads to is so many code points away. -/
theorem codePoints_results : ∀ (n : Node) {w : Nat}, validationLookbehindWidth n = some w →
    ∀ st, ∀ s ∈ results tables text n st, CodePoints text st.pos w s.pos
  | .sequence children, w, h, st, s, hs => by
    rw [validationLookbehindWidth] at h
    rw [results] at hs
    exact codePoints_sequenceResults children h st s hs
  | .group i child, w, h, st, s, hs | .namedGroup i _ child, w, h, st, s, hs => by
    rw [validationLookbehindWidth] at h
    rw [results] at hs
    obtain ⟨t, ht, rfl⟩ := List.mem_map.mp hs
    simpa using codePoints_results child h _ t ht
  | .quantifier bounds _ _ child, w, h, st, s, hs => by
    obtain ⟨x, hmaximum, hx, rfl⟩ := width_quantifier h
    rw [results] at hs
    exact codePoints_repeated hmaximum (fun st s hs => codePoints_results child hx st s hs) hs
  | .literal literal, w, h, st, s, hs => by
    rw [validationLookbehindWidth] at h
    rw [← Option.some.inj h]
    rw [results] at hs
    split at hs
    · next htext =>
      obtain rfl := List.mem_singleton.mp hs
      exact .single (decodeUtf8_of_literal htext)
    · nomatch hs
  | .escape _, w, h, st, s, hs | .characterClass _, w, h, st, s, hs | .any, w, h, st, s, hs => by
    rw [validationLookbehindWidth] at h
    rw [← Option.some.inj h]
    rw [results] at hs
    exact codePoints_matchCodePoint hs
  | .alternation _, w, h, _, _, _ | .atomicGroup _, w, h, _, _, _ | .backreference _ _, w, h, _, _, _
  | .anchorStart, w, h, _, _, _ | .anchorEnd, w, h, _, _, _ | .lookahead _, w, h, _, _, _
  | .negativeLookahead _, w, h, _, _, _ | .lookbehind _, w, h, _, _, _
  | .negativeLookbehind _, w, h, _, _, _ => by
    rw [validationLookbehindWidth] at h
    nomatch h

theorem codePoints_sequenceResults : ∀ (children : List Node) {w : Nat},
    validationLookbehindWidthAll children = some w →
    ∀ st, ∀ s ∈ sequenceResults tables text children st, CodePoints text st.pos w s.pos
  | [], w, h, st, s, hs => by
    rw [validationLookbehindWidthAll] at h
    rw [sequenceResults] at hs
    obtain rfl := List.mem_singleton.mp hs
    rw [← Option.some.inj h]
    exact .none
  | child :: rest, w, h, st, s, hs => by
    obtain ⟨x, y, hx, hy, rfl⟩ := width_cons h
    rw [sequenceResults] at hs
    obtain ⟨t, ht, hs⟩ := List.mem_flatMap.mp hs
    exact (codePoints_results child hx st t ht).trans (codePoints_sequenceResults rest hy t s hs)

end

theorem exact_quantifier {possessive : Bool} {st : State} (hmaximum : bounds.maximum = some bounds.minimum)
    (hnext : ∀ st, ∀ s ∈ results tables text child st, CodePoints text st.pos x s.pos)
    (hbody : bounds.minimum > 0 → 0 < x ∧ ∀ t, Exact tables text child t) :
    ConsumesMandatory (results tables text child) bounds possessive st ∧
      ∀ count t, Iterates (results tables text child) bounds possessive st count t →
        limitReached bounds.maximum count = false → Exact tables text child t := by
  refine ⟨fun count t _ hcount s hs => ?_, fun count t _ hlimit => ?_⟩
  · have hpos := (hbody (by omega)).1
    have hle := (hnext t s (mem_of_mem_choices hs)).le
    omega
  · simp only [hmaximum, limitReached, Option.any_some, decide_eq_false_iff_not] at hlimit
    exact (hbody (by omega)).2 t

mutual

/-- A node of a width is exact everywhere when it repeats nothing empty. -/
theorem exact_of_width : ∀ (n : Node) {w : Nat}, validationLookbehindWidth n = some w →
    repeatsEmpty n = false → ∀ st, Exact tables text n st
  | .sequence children, w, h, hempty, st => by
    rw [validationLookbehindWidth] at h
    rw [repeatsEmpty] at hempty
    rw [Exact]
    exact exactSequence_of_width children h hempty st
  | .group i child, w, h, hempty, st | .namedGroup i _ child, w, h, hempty, st => by
    rw [validationLookbehindWidth] at h
    rw [repeatsEmpty] at hempty
    rw [Exact]
    exact exact_of_width child h hempty _
  | .quantifier bounds _ _ child, w, h, hempty, st => by
    obtain ⟨x, hmaximum, hx, rfl⟩ := width_quantifier h
    rw [repeatsEmpty, hx] at hempty
    rw [Exact]
    refine exact_quantifier hmaximum (codePoints_results child hx) fun hminimum => ?_
    simp only [decide_eq_true hminimum, Bool.true_and, Bool.or_eq_false_iff] at hempty
    refine ⟨?_, exact_of_width child hx hempty.2⟩
    have hne : x ≠ 0 := by simpa using hempty.1
    omega
  | .literal _, w, h, hempty, st | .escape _, w, h, hempty, st | .characterClass _, w, h, hempty, st
  | .any, w, h, hempty, st => by simp only [Exact]
  | .alternation _, w, h, _, _ | .atomicGroup _, w, h, _, _ | .backreference _ _, w, h, _, _
  | .anchorStart, w, h, _, _ | .anchorEnd, w, h, _, _ | .lookahead _, w, h, _, _
  | .negativeLookahead _, w, h, _, _ | .lookbehind _, w, h, _, _
  | .negativeLookbehind _, w, h, _, _ => by
    rw [validationLookbehindWidth] at h
    nomatch h

theorem exactSequence_of_width : ∀ (children : List Node) {w : Nat},
    validationLookbehindWidthAll children = some w → repeatsEmptyAny children = false →
    ∀ st, ExactSequence tables text children st
  | [], w, h, hempty, st => by simp only [ExactSequence]
  | child :: rest, w, h, hempty, st => by
    obtain ⟨x, y, hx, hy, rfl⟩ := width_cons h
    rw [repeatsEmptyAny, Bool.or_eq_false_iff] at hempty
    rw [ExactSequence]
    exact ⟨exact_of_width child hx hempty.1 st, fun s _ => exactSequence_of_width rest hy hempty.2 s⟩

end

/-- A quantifier that needs an iteration finds none that consumes. -/
theorem returns_repeatNode_nil {depth : Nat} {greedy possessive : Bool} {st : State}
    (hminimum : bounds.minimum > 0)
    (hbody : ∀ depth, Returns (matchNode tables text depth child st) fun out => ∀ s ∈ out, s.pos = st.pos) :
    Returns (repeatNode tables text depth child bounds greedy possessive st 0) (· = []) := by
  cases depth with
  | zero =>
    rw [repeatNode]
    exact returns_budgetExceeded _
  | succ depth =>
    have hlimit : ¬ limitReached bounds.maximum 0 = true := fun hlimit => by
      have hle := minimum_le_of_limitReached hlimit
      omega
    have hstop : ¬ (0 ≥ bounds.minimum) := by omega
    rw [repeatNode]
    split
    · refine returns_bind (Q := fun r => r.2 = 0) ?_ fun r hr => returns_pure ?_
      · rw [possess, if_neg hlimit]
        refine returns_bind (hbody depth) fun out hout => ?_
        split
        · exact returns_pure rfl
        · rw [if_pos (hout _ List.mem_cons_self)]
          exact returns_pure rfl
      · rw [hr, if_neg hstop]
    · refine returns_bind (hbody depth) fun next hnext => ?_
      have hfilter : next.filter (fun ns => ns.pos ≠ st.pos) = [] :=
        List.filter_eq_nil_iff.mpr fun s hs => by simpa using hnext s hs
      rw [hfilter]
      refine returns_bind (Q := (· = [])) (returns_pure rfl) fun more hmore => returns_pure ?_
      rw [hmore]
      cases greedy <;> rfl

theorem returns_matchSequence_nil {depth : Nat} {children : List Node} {n : Node} (hmem : n ∈ children)
    (hnil : ∀ st, st.pos ≤ text.length → Returns (matchNode tables text depth n st) (· = [])) {st : State}
    (hst : st.pos ≤ text.length) :
    Returns (matchSequence (matchNode tables text depth) children st) (· = []) := by
  induction children generalizing st with
  | nil => nomatch hmem
  | cons child rest ih =>
    rw [matchSequence]
    by_cases hchild : n = child
    · subst hchild
      refine returns_bind (hnil st hst) fun heads hheads => ?_
      rw [hheads]
      exact returns_pure rfl
    · have hrest := (List.mem_cons.mp hmem).resolve_left hchild
      refine returns_bind ((inText_moves.returns_matchNode depth).1 child st) fun heads hheads => ?_
      intro steps out steps' hrun
      have hall := returns_collect (f := fun _ => []) (fun s hs => ih hrest (hheads s hs hst))
        steps out steps' hrun
      rw [hall]
      simp

/-- A body of width zero stays where it is. -/
theorem returns_pos_eq (hx : validationLookbehindWidth child = some x)
    (hempty : x = 0 ∨ repeatsEmpty child = true)
    (hnil : repeatsEmpty child = true → ∀ depth st, st.pos ≤ text.length →
      Returns (matchNode tables text depth child st) (· = []))
    {st : State} (hst : st.pos ≤ text.length) (depth : Nat) :
    Returns (matchNode tables text depth child st) fun out => ∀ s ∈ out, s.pos = st.pos := by
  intro steps out steps' hrun s hs
  cases hrepeats : repeatsEmpty child with
  | true =>
    rw [hnil hrepeats depth st hst steps out steps' hrun] at hs
    nomatch hs
  | false =>
    have hzero := hempty.resolve_right (by simp [hrepeats])
    subst hzero
    have hexact : Exact tables text child st := exact_of_width child hx hrepeats st
    rw [(returns_matchNode depth).1 child st hst hexact steps out steps' hrun] at hs
    generalize hpos : s.pos = pos
    have hpoints := codePoints_results child hx st s hs
    rw [hpos] at hpoints
    cases hpoints
    rfl

mutual

theorem returns_nil_of_repeatsEmpty : ∀ (n : Node) {w : Nat}, validationLookbehindWidth n = some w →
    repeatsEmpty n = true → ∀ depth st, st.pos ≤ text.length →
      Returns (matchNode tables text depth n st) (· = [])
  | .sequence children, w, h, hempty, depth, st, hst => by
    rw [validationLookbehindWidth] at h
    rw [repeatsEmpty] at hempty
    obtain ⟨n, hn, hnil⟩ := exists_nil_of_repeatsEmptyAny children h hempty
    cases depth with
    | zero =>
      rw [matchNode]
      exact returns_buyStep (returns_budgetExceeded _)
    | succ depth =>
      rw [matchNode.eq_def]
      exact returns_buyStep (returns_matchSequence_nil hn (hnil depth) hst)
  | .group i child, w, h, hempty, depth, st, hst | .namedGroup i _ child, w, h, hempty, depth, st, hst => by
    rw [validationLookbehindWidth] at h
    rw [repeatsEmpty] at hempty
    cases depth with
    | zero =>
      rw [matchNode]
      exact returns_buyStep (returns_budgetExceeded _)
    | succ depth =>
      rw [matchNode.eq_def]
      refine returns_buyStep (returns_bind (returns_nil_of_repeatsEmpty child h hempty depth _
        (by simpa using hst)) fun out hout => ?_)
      rw [hout]
      exact returns_pure rfl
  | .quantifier bounds greedy possessive child, w, h, hempty, depth, st, hst => by
    obtain ⟨x, hmaximum, hx, rfl⟩ := width_quantifier h
    rw [repeatsEmpty, hx, Bool.and_eq_true, Bool.or_eq_true] at hempty
    obtain ⟨hminimum, hbody⟩ := hempty
    have hstays := returns_pos_eq hx (hbody.imp_left (by simp))
      (fun hrepeats => returns_nil_of_repeatsEmpty child hx hrepeats) hst
    cases depth with
    | zero =>
      rw [matchNode]
      exact returns_buyStep (returns_budgetExceeded _)
    | succ depth =>
      rw [matchNode.eq_def]
      exact returns_buyStep (returns_repeatNode_nil (of_decide_eq_true hminimum) hstays)
  | .literal _, w, h, hempty, _, _, _ | .escape _, w, h, hempty, _, _, _
  | .characterClass _, w, h, hempty, _, _, _ | .any, w, h, hempty, _, _, _
  | .alternation _, w, h, hempty, _, _, _ | .atomicGroup _, w, h, hempty, _, _, _
  | .backreference _ _, w, h, hempty, _, _, _ | .anchorStart, w, h, hempty, _, _, _
  | .anchorEnd, w, h, hempty, _, _, _ | .lookahead _, w, h, hempty, _, _, _
  | .negativeLookahead _, w, h, hempty, _, _, _ | .lookbehind _, w, h, hempty, _, _, _
  | .negativeLookbehind _, w, h, hempty, _, _, _ => by
    rw [repeatsEmpty] at hempty
    nomatch hempty

theorem exists_nil_of_repeatsEmptyAny : ∀ (children : List Node) {w : Nat},
    validationLookbehindWidthAll children = some w → repeatsEmptyAny children = true →
      ∃ n ∈ children, ∀ depth st, st.pos ≤ text.length → Returns (matchNode tables text depth n st) (· = [])
  | [], w, h, hempty => by
    rw [repeatsEmptyAny] at hempty
    nomatch hempty
  | child :: rest, w, h, hempty => by
    obtain ⟨x, y, hx, hy, rfl⟩ := width_cons h
    rw [repeatsEmptyAny, Bool.or_eq_true] at hempty
    cases hempty with
    | inl hchild => exact ⟨child, List.mem_cons_self, returns_nil_of_repeatsEmpty child hx hchild⟩
    | inr hrest =>
      obtain ⟨n, hn, hnil⟩ := exists_nil_of_repeatsEmptyAny rest hy hrest
      exact ⟨n, List.mem_cons_of_mem child hn, hnil⟩

end

end

section
variable (tables : UnicodeTables) (text : Bytes)

/-- Some part of the text that ends at the position matches a node. -/
def EndsAt (child : Node) (st : State) : Prop :=
  ∃ start ≤ st.pos, ∃ s ∈ results tables text child { st with pos := start }, s.pos = st.pos

/-- The code points in front of a position take one byte each. -/
def SingleBytes (n pos : Nat) : Prop := ∃ start, start + n = pos ∧ CodePoints text start n pos

end

section
variable {tables : UnicodeTables} {text : Bytes}

/-- A lookbehind of the matcher succeeds where one should, if its body repeats nothing empty
    and stands behind characters of one byte. -/
theorem returns_matchLookbehind_iff {child : Node} {w : Nat}
    (hwidth : validationLookbehindWidth child = some w)
    {st : State} (hst : st.pos ≤ text.length) (depth : Nat) :
    Returns (matchLookbehind (matchNode tables text depth child) child st) fun found =>
      (found = true ↔
        EndsAt tables text child st ∧ repeatsEmpty child = false ∧ SingleBytes text w st.pos) := by
  have hfixed := fixedWidth_eq child hwidth
  have hback : st.pos - w ≤ text.length := by omega
  unfold matchLookbehind
  rw [hfixed]
  split
  · next hshort =>
    refine returns_pure (iff_of_false Bool.false_ne_true ?_)
    rintro ⟨-, -, start, hstart, -⟩
    omega
  · next hlong =>
    rw [Int.toNat_natCast]
    cases hrepeats : repeatsEmpty child with
    | true =>
      refine returns_bind (returns_nil_of_repeatsEmpty child hwidth hrepeats depth _ hback) fun out hout => ?_
      rw [hout]
      exact returns_pure (by simp)
    | false =>
      refine returns_bind ((returns_matchNode depth).1 child _ hback
        (exact_of_width child hwidth hrepeats _)) fun out hout => returns_pure ?_
      rw [hout, List.any_eq_true]
      constructor
      · rintro ⟨s, hs, hpos⟩
        have hpos := of_decide_eq_true hpos
        have hpoints := codePoints_results child hwidth _ s hs
        rw [hpos] at hpoints
        exact ⟨⟨st.pos - w, Nat.sub_le _ _, s, hs, hpos⟩, rfl, st.pos - w, by omega, hpoints⟩
      · rintro ⟨⟨start, hstart, s, hs, hpos⟩, -, start', hstart', hpoints'⟩
        have hpoints : CodePoints text start w s.pos := codePoints_results child hwidth _ s hs
        rw [hpos] at hpoints
        have hsame : start = st.pos - w := by
          have heq := hpoints.start_unique hpoints'
          omega
        subst hsame
        exact ⟨s, hs, decide_eq_true hpos⟩

end

/-- The validation of a part of a pattern. -/
structure SameLookbehinds (n resolved : Node) : Prop where
  width : validationLookbehindWidth resolved = validationLookbehindWidth n
  valid : validateLookbehinds n = .ok () → validateLookbehinds resolved = .ok ()

structure SameLookbehindsAll (children resolved : List Node) : Prop where
  width : validationLookbehindWidthAll resolved = validationLookbehindWidthAll children
  valid : validateLookbehindsAll children = .ok () → validateLookbehindsAll resolved = .ok ()

section
variable {captureCount : Nat} {names : List (Bytes × Nat)}

mutual

theorem sameLookbehinds : ∀ (n : Node) {resolved : Node},
    validateReferences captureCount names n = .ok resolved → SameLookbehinds n resolved
  | .backreference index name, resolved, h => by
    rw [validateReferences] at h
    split at h
    · split at h
      · nomatch h
      · cases h
        exact ⟨rfl, fun _ => rfl⟩
    · split at h
      · nomatch h
      · cases h
        exact ⟨rfl, id⟩
  | .sequence children, resolved, h | .alternation children, resolved, h => by
    rw [validateReferences] at h
    obtain ⟨all, hall, h⟩ := bind_eq_ok.mp h
    cases h
    have hsame := sameLookbehindsAll children hall
    exact ⟨by simp only [validationLookbehindWidth, hsame.width], by
      simpa only [validateLookbehinds] using hsame.valid⟩
  | .group _ child, resolved, h | .namedGroup _ _ child, resolved, h | .atomicGroup child, resolved, h
  | .quantifier _ _ _ child, resolved, h | .lookahead child, resolved, h
  | .negativeLookahead child, resolved, h => by
    rw [validateReferences] at h
    obtain ⟨inner, hinner, h⟩ := bind_eq_ok.mp h
    cases h
    have hsame := sameLookbehinds child hinner
    exact ⟨by simp only [validationLookbehindWidth, hsame.width], by
      simpa only [validateLookbehinds] using hsame.valid⟩
  | .lookbehind child, resolved, h | .negativeLookbehind child, resolved, h => by
    rw [validateReferences] at h
    obtain ⟨inner, hinner, h⟩ := bind_eq_ok.mp h
    cases h
    have hsame := sameLookbehinds child hinner
    refine ⟨by simp only [validationLookbehindWidth], fun hvalid => ?_⟩
    rw [validateLookbehinds] at hvalid ⊢
    obtain ⟨u, hwidth, hvalid⟩ := bind_eq_ok.mp hvalid
    refine bind_eq_ok.mpr ⟨u, ?_, hsame.valid hvalid⟩
    rwa [validateLookbehind, hsame.width]
  | .literal _, resolved, h | .escape _, resolved, h | .characterClass _, resolved, h | .any, resolved, h
  | .anchorStart, resolved, h | .anchorEnd, resolved, h => by
    rw [validateReferences] at h
    cases h
    exact ⟨rfl, id⟩

theorem sameLookbehindsAll : ∀ (children : List Node) {resolved : List Node},
    validateReferencesAll captureCount names children = .ok resolved → SameLookbehindsAll children resolved
  | [], resolved, h => by
    rw [validateReferencesAll] at h
    cases h
    exact ⟨rfl, id⟩
  | child :: rest, resolved, h => by
    rw [validateReferencesAll] at h
    obtain ⟨first, hfirst, h⟩ := bind_eq_ok.mp h
    obtain ⟨others, hothers, h⟩ := bind_eq_ok.mp h
    cases h
    have hchild := sameLookbehinds child hfirst
    have hrest := sameLookbehindsAll rest hothers
    refine ⟨by simp only [validationLookbehindWidthAll, hchild.width, hrest.width], fun hvalid => ?_⟩
    rw [validateLookbehindsAll] at hvalid ⊢
    obtain ⟨u, hfirst, hvalid⟩ := bind_eq_ok.mp hvalid
    exact bind_eq_ok.mpr ⟨u, hchild.valid hfirst, hrest.valid hvalid⟩

end

end

theorem validateLookbehindsAll_mem {children : List Node} (h : validateLookbehindsAll children = .ok ())
    {n : Node} (hn : n ∈ children) : validateLookbehinds n = .ok () := by
  induction children with
  | nil => nomatch hn
  | cons child rest ih =>
    rw [validateLookbehindsAll] at h
    obtain ⟨u, hchild, hrest⟩ := bind_eq_ok.mp h
    cases List.mem_cons.mp hn with
    | inl heq => exact heq ▸ hchild
    | inr hmem => exact ih hrest hmem

theorem validateLookbehinds_contains {root n : Node} (hcontains : Contains root n)
    (h : validateLookbehinds root = .ok ()) : validateLookbehinds n = .ok () := by
  induction hcontains with
  | refl => exact h
  | @tail parent child _ hchild ih =>
    cases parent with
    | sequence children | alternation children =>
      rw [validateLookbehinds] at ih
      exact validateLookbehindsAll_mem ih hchild
    | group _ inner | namedGroup _ _ inner | atomicGroup inner | quantifier _ _ _ inner | lookahead inner
    | negativeLookahead inner =>
      rw [validateLookbehinds] at ih
      rwa [List.mem_singleton.mp hchild]
    | lookbehind inner | negativeLookbehind inner =>
      rw [validateLookbehinds] at ih
      obtain ⟨u, -, hinner⟩ := bind_eq_ok.mp ih
      rwa [List.mem_singleton.mp hchild]
    | literal | escape | characterClass | any | backreference | anchorStart | anchorEnd => nomatch hchild

/-- A lookbehind in a pattern that is accepted has a body of one up to 1024 code points. -/
theorem lookbehind_width {source : Bytes} {pattern : Pattern} (hparse : parse source = .ok pattern)
    {child : Node}
    (hchild : Contains pattern.root (.lookbehind child) ∨ Contains pattern.root (.negativeLookbehind child)) :
    ∃ w, validationLookbehindWidth child = some w ∧ 0 < w ∧ w ≤ 1024 := by
  rw [parse] at hparse
  obtain ⟨out, -, hparse⟩ := bind_eq_ok.mp hparse
  obtain ⟨u, hvalid, hparse⟩ := bind_eq_ok.mp hparse
  obtain ⟨root, hroot, hparse⟩ := bind_eq_ok.mp hparse
  cases hparse
  have hroot := (sameLookbehinds out.root hroot).valid hvalid
  have hwidth : validateLookbehind child = .ok () := by
    cases hchild with
    | inl h =>
      have hcontained := validateLookbehinds_contains h hroot
      rw [validateLookbehinds] at hcontained
      exact (bind_eq_ok.mp hcontained).elim fun _ h => h.1
    | inr h =>
      have hcontained := validateLookbehinds_contains h hroot
      rw [validateLookbehinds] at hcontained
      exact (bind_eq_ok.mp hcontained).elim fun _ h => h.1
  unfold validateLookbehind at hwidth
  split at hwidth
  · nomatch hwidth
  · next w hw =>
    split at hwidth
    · nomatch hwidth
    · next hbounds => exact ⟨w, hw, by omega, by omega⟩

theorem returns_lookbehind {tables : UnicodeTables} {text : Bytes} {child : Node} {w : Nat}
    (hwidth : validationLookbehindWidth child = some w) {st : State} (hst : st.pos ≤ text.length)
    (depth : Nat) :
    Returns (matchNode tables text depth (.lookbehind child) st) (fun out => out ≠ [] ↔
      EndsAt tables text child st ∧ repeatsEmpty child = false ∧ SingleBytes text w st.pos) ∧
    Returns (matchNode tables text depth (.negativeLookbehind child) st) (fun out => out = [] ↔
      EndsAt tables text child st ∧ repeatsEmpty child = false ∧ SingleBytes text w st.pos) := by
  cases depth with
  | zero =>
    rw [matchNode, matchNode]
    exact ⟨returns_buyStep (returns_budgetExceeded _), returns_buyStep (returns_budgetExceeded _)⟩
  | succ depth =>
    have hfound : Returns (matchLookbehind (matchNode tables text depth child) child st) _ :=
      returns_matchLookbehind_iff hwidth hst depth
    rw [matchNode.eq_def, matchNode.eq_def]
    constructor
    · refine returns_buyStep (returns_bind hfound fun found hfound => returns_pure ?_)
      rw [← hfound]
      cases found <;> simp
    · refine returns_buyStep (returns_bind hfound fun found hfound => returns_pure ?_)
      rw [← hfound]
      cases found <;> simp

/-- In an accepted pattern a lookbehind succeeds where a part of the text ends that matches its
    body, and a negative one where none does, exactly when there is no such part, or the body
    repeats nothing empty and the code points it takes in front of the position are of one
    byte each. -/
theorem lookbehind_correct_iff (tables : UnicodeTables) (source : Bytes) (pattern : Pattern)
    (hparse : parse source = .ok pattern) (child : Node)
    (hchild : Contains pattern.root (.lookbehind child) ∨ Contains pattern.root (.negativeLookbehind child)) :
    ∃ w, validationLookbehindWidth child = some w ∧
      ∀ (text : Bytes) (st : State), st.pos ≤ text.length → ∀ depth steps out steps',
      (matchNode tables text depth (.lookbehind child) st steps = .ok (out, steps') →
        ((out ≠ [] ↔ EndsAt tables text child st) ↔
          (EndsAt tables text child st → repeatsEmpty child = false ∧ SingleBytes text w st.pos))) ∧
      (matchNode tables text depth (.negativeLookbehind child) st steps = .ok (out, steps') →
        ((out ≠ [] ↔ ¬ EndsAt tables text child st) ↔
          (EndsAt tables text child st → repeatsEmpty child = false ∧ SingleBytes text w st.pos))) := by
  obtain ⟨w, hwidth, -, -⟩ := lookbehind_width hparse hchild
  refine ⟨w, hwidth, fun text st hst depth steps out steps' => ?_⟩
  have hreturns : Returns (matchNode tables text depth (.lookbehind child) st) _ ∧
      Returns (matchNode tables text depth (.negativeLookbehind child) st) _ :=
    returns_lookbehind hwidth hst depth
  constructor
  · intro hrun
    have hout := hreturns.1 steps out steps' hrun
    dsimp only at hout
    tauto
  · intro hrun
    have hout := hreturns.2 steps out steps' hrun
    dsimp only at hout
    tauto

theorem lookbehind_correct_iff_letter :
    let a : Node := .literal ⟨[97], 97, by decide⟩
    let st : State := ⟨1, makeCaps 0⟩
    ([st] ≠ [] ↔ EndsAt asciiTables [97] a st) ↔
      (EndsAt asciiTables [97] a st → repeatsEmpty a = false ∧ SingleBytes [97] 1 1) := by
  intro a st
  obtain ⟨w, hwidth, hcorrect⟩ := lookbehind_correct_iff asciiTables ("(?<=a)".toList.map code)
    ⟨.lookbehind a⟩ rfl a (.inl .refl)
  obtain rfl := Option.some.inj hwidth
  exact (hcorrect [97] st (by decide) 10 0 [st] 2 ).1 rfl

/-- `(?<=é)` goes back one byte of the two, and fails behind an `é`. -/
theorem twoByte_lookbehind_fails : ∃ pattern child,
    parse ("(?<=".toList.map code ++ [0xC3, 0xA9] ++ ")".toList.map code) = .ok pattern ∧
      pattern.root = .lookbehind child ∧ ValidUtf8 [0xC3, 0xA9] ∧ Boundary [0xC3, 0xA9] 2 ∧
      EndsAt asciiTables [0xC3, 0xA9] child ⟨2, makeCaps 0⟩ ∧
      ∃ steps, matchNode asciiTables [0xC3, 0xA9] kRegexMaxDepth pattern.root ⟨2, makeCaps 0⟩ 0 =
        .ok ([], steps) := by
  have hdecode : decodeUtf8 [0xC3, 0xA9] 0 = some (0xE9, 2) := rfl
  have hboundary := Boundary.zero.next hdecode
  exact ⟨_, _, rfl, rfl, hboundary, hboundary, ⟨0, by decide, _, List.mem_singleton_self _, rfl⟩, _, rfl⟩

end zl.regex
