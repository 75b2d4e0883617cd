import Zl.Regex.Semantics

namespace zl.regex

/-- What a quantifier goes on with: a possessive one only with the first match of its body. -/
def choices (possessive : Bool) (states : List State) : List State :=
  if possessive then states.take 1 else states

/-- The states a quantifier iterates from, with the iterations behind each. An iteration
    that consumes nothing is not gone on with. -/
inductive Iterates (next : State → List State) (bounds : Bounds) (possessive : Bool) (st : State) :
    Nat → State → Prop
  | start : Iterates next bounds possessive st 0 st
  | step {count : Nat} {t s : State} (hiterates : Iterates next bounds possessive st count t)
      (hlimit : limitReached bounds.maximum count = false) (hmem : s ∈ choices possessive (next t))
      (hpos : s.pos ≠ t.pos) : Iterates next bounds possessive st (count + 1) s

/-- No iteration below the minimum matches the empty string. -/
def ConsumesMandatory (next : State → List State) (bounds : Bounds) (possessive : Bool) (st : State) :
    Prop :=
  ∀ count t, Iterates next bounds possessive st count t → count < bounds.minimum →
    ∀ s ∈ choices possessive (next t), s.pos ≠ t.pos

/-- The optional iterations that are left after `count` iterations. -/
def remaining (bounds : Bounds) (size count : Nat) : Nat :=
  match bounds.maximum with
  | none => size
  | some limit => limit - max bounds.minimum count

/-- What a quantifier that gives back leads to after `count` iterations. -/
def outcomes (next : State → List State) (bounds : Bounds) (greedy : Bool) (size count : Nat)
    (st : State) : List State :=
  (iterate next (bounds.minimum - count) st).flatMap (upTo next greedy (remaining bounds size count))

/-- What a possessive one leads to. -/
def outcomesPossessive (next : State → List State) (bounds : Bounds) (size count : Nat)
    (st : State) : List State :=
  ((iteratePossessive next (bounds.minimum - count) st).map
    (upToPossessive next (remaining bounds size count))).toList

/-- What either leads to. -/
def quantified (next : State → List State) (bounds : Bounds) (greedy possessive : Bool)
    (size count : Nat) (st : State) : List State :=
  if possessive then outcomesPossessive next bounds size count st
  else outcomes next bounds greedy size count st

theorem remaining_zero (bounds : Bounds) (size : Nat) :
    remaining bounds size 0 = optionalIterations bounds size := by
  unfold remaining optionalIterations
  cases bounds.maximum with
  | none => rfl
  | some limit => rw [Nat.max_zero]

theorem quantified_zero (next : State → List State) (bounds : Bounds) (greedy possessive : Bool)
    (size : Nat) (st : State) :
    quantified next bounds greedy possessive size 0 st =
      repeated next bounds greedy possessive size st := by
  unfold quantified repeated outcomes outcomesPossessive
  rw [remaining_zero, Nat.sub_zero]

theorem limitReached_false_of_lt {bounds : Bounds} {count : Nat} (hcount : count < bounds.minimum) :
    limitReached bounds.maximum count = false := by
  cases hmaximum : bounds.maximum with
  | none => rfl
  | some limit =>
    have hordered := bounds.ordered limit hmaximum
    simp only [limitReached, Option.any_some, decide_eq_false_iff_not]
    omega

theorem minimum_le_of_limitReached {bounds : Bounds} {count : Nat}
    (hlimit : limitReached bounds.maximum count = true) : bounds.minimum ≤ count := by
  by_contra hcount
  rw [limitReached_false_of_lt (Nat.lt_of_not_le hcount)] at hlimit
  cases hlimit

theorem remaining_of_limitReached {bounds : Bounds} (size : Nat) {count : Nat}
    (hlimit : limitReached bounds.maximum count = true) : remaining bounds size count = 0 := by
  cases hmaximum : bounds.maximum with
  | none =>
    rw [hmaximum] at hlimit
    cases hlimit
  | some limit =>
    simp only [hmaximum, limitReached, Option.any_some, decide_eq_true_eq] at hlimit
    simp only [remaining, hmaximum]
    omega

theorem remaining_succ_of_lt {bounds : Bounds} (size : Nat) {count : Nat}
    (hcount : count < bounds.minimum) :
    remaining bounds size (count + 1) = remaining bounds size count := by
  unfold remaining
  split
  · rfl
  · rw [Nat.max_eq_left hcount, Nat.max_eq_left (Nat.le_of_lt hcount)]

/-- An optional iteration takes one of a limited number. -/
theorem remaining_of_ge {bounds : Bounds} {size count limit : Nat} (hmaximum : bounds.maximum = some limit)
    (hlimit : limitReached bounds.maximum count = false) (hcount : bounds.minimum ≤ count) :
    remaining bounds size count = remaining bounds size (count + 1) + 1 := by
  simp only [hmaximum, limitReached, Option.any_some, decide_eq_false_iff_not] at hlimit
  simp only [remaining, hmaximum]
  omega

section
variable {text : Bytes} {next : State → List State}
variable {st : State} {bounds : Bounds} {greedy : Bool} {size count : Nat}

theorem mem_of_mem_choices {possessive : Bool} {states : List State} {s : State}
    (hs : s ∈ choices possessive states) : s ∈ states := by
  unfold choices at hs
  split at hs
  · exact List.mem_of_mem_take hs
  · exact hs

theorem Iterates.pos_le {possessive : Bool} {st t : State} {count : Nat}
    (hnext : ∀ st s, st.pos ≤ text.length → s ∈ next st → InText text st s)
    (hst : st.pos ≤ text.length) (hiterates : Iterates next bounds possessive st count t) :
    t.pos ≤ text.length := by
  induction hiterates with
  | start => exact hst
  | step _ _ hmem _ ih => exact (hnext _ _ ih (mem_of_mem_choices hmem)).2

theorem pos_eq_of_end (hnext : ∀ st s, st.pos ≤ text.length → s ∈ next st → InText text st s)
    {st s : State} (hend : st.pos = text.length) (hs : s ∈ next st) : s.pos = st.pos := by
  obtain ⟨hle, hbound⟩ := hnext st s (Nat.le_of_eq hend) hs
  exact Nat.le_antisymm (hend ▸ hbound) hle

theorem upTo_of_end (hnext : ∀ st s, st.pos ≤ text.length → s ∈ next st → InText text st s)
    (n : Nat) (hend : st.pos = text.length) : upTo next greedy n st = [st] := by
  cases n with
  | zero => rfl
  | succ n =>
    have hnone : (next st).filter (·.pos ≠ st.pos) = [] :=
      List.filter_eq_nil_iff.mpr fun s hs hpos => of_decide_eq_true hpos (pos_eq_of_end hnext hend hs)
    simp only [upTo, hnone, List.flatMap_nil, List.nil_append, ite_self]

/-- Optional iterations beyond what is left of the text change nothing, as each consumes. -/
theorem upTo_eq_of_le (hnext : ∀ st s, st.pos ≤ text.length → s ∈ next st → InText text st s)
    {m n : Nat} (hst : st.pos ≤ text.length) (hm : text.length - st.pos ≤ m)
    (hn : text.length - st.pos ≤ n) :
    upTo next greedy m st = upTo next greedy n st := by
  induction m generalizing n st with
  | zero =>
    have hend : st.pos = text.length := by omega
    rw [upTo_of_end hnext 0 hend, upTo_of_end hnext n hend]
  | succ m ih =>
    cases n with
    | zero =>
      have hend : st.pos = text.length := by omega
      rw [upTo_of_end hnext (m + 1) hend, upTo_of_end hnext 0 hend]
    | succ n =>
      have hmore : ((next st).filter (·.pos ≠ st.pos)).flatMap (upTo next greedy m) =
          ((next st).filter (·.pos ≠ st.pos)).flatMap (upTo next greedy n) := by
        refine List.flatMap_congr fun s hs => ?_
        obtain ⟨hs, hpos⟩ := List.mem_filter.mp hs
        obtain ⟨hle, hbound⟩ := hnext st s hst hs
        have hpos : s.pos ≠ st.pos := of_decide_eq_true hpos
        exact ih hbound (by omega) (by omega)
      simp only [upTo, hmore]

theorem upToPossessive_of_end
    (hnext : ∀ st s, st.pos ≤ text.length → s ∈ next st → InText text st s) (n : Nat)
    (hend : st.pos = text.length) : upToPossessive next n st = st := by
  cases n with
  | zero => rfl
  | succ n =>
    unfold upToPossessive
    split
    · rfl
    · next chosen rest hchosen =>
      exact if_pos (pos_eq_of_end hnext hend (hchosen ▸ List.mem_cons_self))

theorem upToPossessive_eq_of_le
    (hnext : ∀ st s, st.pos ≤ text.length → s ∈ next st → InText text st s) {m n : Nat}
    (hst : st.pos ≤ text.length) (hm : text.length - st.pos ≤ m) (hn : text.length - st.pos ≤ n) :
    upToPossessive next m st = upToPossessive next n st := by
  induction m generalizing n st with
  | zero =>
    have hend : st.pos = text.length := by omega
    rw [upToPossessive_of_end hnext 0 hend, upToPossessive_of_end hnext n hend]
  | succ m ih =>
    cases n with
    | zero =>
      have hend : st.pos = text.length := by omega
      rw [upToPossessive_of_end hnext (m + 1) hend, upToPossessive_of_end hnext 0 hend]
    | succ n =>
      unfold upToPossessive
      split
      · rfl
      · next chosen rest hchosen =>
        obtain ⟨hle, hbound⟩ := hnext st chosen hst (hchosen ▸ List.mem_cons_self)
        split
        · rfl
        · exact ih hbound (by omega) (by omega)

/-- One more iteration of a quantifier that gives back: a mandatory one, -/
theorem outcomes_of_lt (hcount : count < bounds.minimum) :
    outcomes next bounds greedy size count st =
      (next st).flatMap (outcomes next bounds greedy size (count + 1)) := by
  unfold outcomes
  obtain ⟨k, hk⟩ : ∃ k, bounds.minimum - count = k + 1 := ⟨bounds.minimum - count - 1, by omega⟩
  have hk' : bounds.minimum - (count + 1) = k := by omega
  rw [hk, hk', remaining_succ_of_lt size hcount, iterate, List.flatMap_assoc]

/-- or none, as there may be no more, -/
theorem outcomes_of_limitReached (hlimit : limitReached bounds.maximum count = true) :
    outcomes next bounds greedy size count st = [st] := by
  rw [outcomes, remaining_of_limitReached size hlimit,
    Nat.sub_eq_zero_of_le (minimum_le_of_limitReached hlimit)]
  rfl

/-- or an optional one. -/
theorem outcomes_of_ge {count : Nat} (hnext : ∀ st s, st.pos ≤ text.length → s ∈ next st → InText text st s)
    (hst : st.pos ≤ text.length) (hlimit : limitReached bounds.maximum count = false)
    (hcount : bounds.minimum ≤ count) :
    outcomes next bounds greedy text.length count st =
      let more := ((next st).filter (·.pos ≠ st.pos)).flatMap
        (outcomes next bounds greedy text.length (count + 1))
      if greedy then more ++ [st] else st :: more := by
  have hdone {count : Nat} (hcount : bounds.minimum ≤ count) :
      outcomes next bounds greedy text.length count =
        upTo next greedy (remaining bounds text.length count) := by
    funext s
    rw [outcomes, Nat.sub_eq_zero_of_le hcount]
    exact List.flatMap_singleton _ _
  have hone : upTo next greedy (remaining bounds text.length count) st =
      upTo next greedy (remaining bounds text.length (count + 1) + 1) st := by
    cases hmaximum : bounds.maximum with
    | none =>
      refine upTo_eq_of_le hnext hst ?_ ?_ <;>
      · simp only [remaining, hmaximum]
        omega
    | some limit => rw [remaining_of_ge hmaximum hlimit hcount]
  rw [hdone hcount, hdone (Nat.le_succ_of_le hcount), hone, upTo]

/-- A mandatory iteration of a possessive quantifier, -/
theorem outcomesPossessive_of_lt (hcount : count < bounds.minimum) :
    outcomesPossessive next bounds size count st =
      match next st with
      | [] => []
      | chosen :: _ => outcomesPossessive next bounds size (count + 1) chosen := by
  unfold outcomesPossessive
  obtain ⟨k, hk⟩ : ∃ k, bounds.minimum - count = k + 1 := ⟨bounds.minimum - count - 1, by omega⟩
  have hk' : bounds.minimum - (count + 1) = k := by omega
  rw [hk, hk', remaining_succ_of_lt size hcount, iteratePossessive]
  cases next st <;> rfl

theorem outcomesPossessive_of_limitReached (hlimit : limitReached bounds.maximum count = true) :
    outcomesPossessive next bounds size count st = [st] := by
  rw [outcomesPossessive, remaining_of_limitReached size hlimit,
    Nat.sub_eq_zero_of_le (minimum_le_of_limitReached hlimit)]
  rfl

/-- and an optional one. -/
theorem outcomesPossessive_of_ge {count : Nat}
    (hnext : ∀ st s, st.pos ≤ text.length → s ∈ next st → InText text st s)
    (hst : st.pos ≤ text.length) (hlimit : limitReached bounds.maximum count = false)
    (hcount : bounds.minimum ≤ count) :
    outcomesPossessive next bounds text.length count st =
      match next st with
      | [] => [st]
      | chosen :: _ =>
        if chosen.pos = st.pos then [st]
        else outcomesPossessive next bounds text.length (count + 1) chosen := by
  have hdone {count : Nat} (hcount : bounds.minimum ≤ count) (s : State) :
      outcomesPossessive next bounds text.length count s =
        [upToPossessive next (remaining bounds text.length count) s] := by
    rw [outcomesPossessive, Nat.sub_eq_zero_of_le hcount]
    rfl
  have hone : upToPossessive next (remaining bounds text.length count) st =
      upToPossessive next (remaining bounds text.length (count + 1) + 1) st := by
    cases hmaximum : bounds.maximum with
    | none =>
      refine upToPossessive_eq_of_le hnext hst ?_ ?_ <;>
      · simp only [remaining, hmaximum]
        omega
    | some limit => rw [remaining_of_ge hmaximum hlimit hcount]
  rw [hdone hcount, hone, upToPossessive]
  cases next st with
  | nil => rfl
  | cons chosen rest =>
    dsimp only
    rw [hdone (Nat.le_succ_of_le hcount)]
    split <;> rfl

end

end zl.regex
