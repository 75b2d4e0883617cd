import Zl.Regex.Correctness

namespace zl.regex

theorem returns_collect_forall {A : Type} {run : A → Budgeted (List State)} {l : List A} {P : State → Prop}
    (h : ∀ a ∈ l, Returns (run a) fun out => ∀ s ∈ out, P s) : Returns (collect run l) fun out =>
      ∀ s ∈ out, P s := by
  induction l with
  | nil => exact returns_pure nofun
  | cons a rest ih =>
    refine returns_bind (h a List.mem_cons_self) fun out hout => ?_
    refine returns_bind (ih fun b hb => h b (List.mem_cons_of_mem a hb)) fun tail htail =>
      returns_pure fun s hs => ?_
    exact (List.mem_append.mp hs).elim (hout s) (htail s)

/-- A relation that holds between the state before a step of the matcher and the one behind
    it, whatever the step. -/
structure Moves (text : Bytes) (R : State → State → Prop) : Prop where
  refl : ∀ st, R st st
  trans : ∀ {st t s}, R st t → R t s → R st s
  codePoint : ∀ {st cp width}, decodeUtf8 text st.pos = some (cp, width) →
    R st { st with pos := st.pos + width }
  backreference : ∀ {i captureName st s}, s ∈ matchBackreference text i captureName st → R st s
  group : ∀ {i st t}, R (st.enter i) t → R st (t.leave i)

namespace Moves

variable {tables : UnicodeTables} {text : Bytes} {R : State → State → Prop} (hR : Moves text R)
include hR

theorem trans_returns {c : Budgeted (List State)} {st t : State} (hst : R st t)
    (h : Returns c fun out => ∀ s ∈ out, R t s) : Returns c fun out => ∀ s ∈ out, R st s :=
  fun steps out steps' hrun s hs => hR.trans hst (h steps out steps' hrun s hs)

theorem mem_codePoint {test : Nat → Bool} {st s : State}
    (hs : s ∈ matchCodePoint text test st) : R st s := by
  unfold matchCodePoint at hs
  split at hs
  · nomatch hs
  · next cp width hdecode =>
    split at hs
    · obtain rfl := List.mem_singleton.mp hs
      exact hR.codePoint hdecode
    · nomatch hs

theorem stay {p : Prop} [Decidable p] {st s : State} (hs : s ∈ if p then [st] else []) : R st s := by
  split at hs
  · rw [List.mem_singleton.mp hs]
    exact hR.refl st
  · nomatch hs

theorem stay_not {p : Prop} [Decidable p] {st s : State} (hs : s ∈ if p then [] else [st]) : R st s := by
  rw [← ite_not] at hs
  exact hR.stay hs

theorem returns_matchSequence {run : Node → State → Budgeted (List State)}
    (h : ∀ n st, Returns (run n st) fun out => ∀ s ∈ out, R st s) (children : List Node) (st : State) :
    Returns (matchSequence run children st) fun out => ∀ s ∈ out, R st s := by
  induction children generalizing st with
  | nil =>
    refine returns_pure fun s hs => ?_
    rw [List.mem_singleton.mp hs]
    exact hR.refl st
  | cons child rest ih =>
    exact returns_bind (h child st) fun heads hheads => returns_collect_forall fun t ht =>
      hR.trans_returns (hheads t ht) (ih t)

theorem returns_possess {run : State → Budgeted (List State)}
    (h : ∀ st, Returns (run st) fun out => ∀ s ∈ out, R st s)
    (maximum : Option Nat) (fuel : Nat) (st : State) (count : Nat) :
    Returns (possess run maximum fuel st count) fun r => R st r.1 := by
  induction fuel generalizing st count with
  | zero => exact returns_budgetExceeded _
  | succ fuel ih =>
    unfold possess
    split
    · exact returns_pure (hR.refl st)
    · refine returns_bind (h st) fun next hnext => ?_
      split
      · exact returns_pure (hR.refl st)
      · split
        · exact returns_pure (hR.refl st)
        · exact fun steps out steps' hrun =>
            hR.trans (hnext _ List.mem_cons_self) (ih _ _ steps out steps' hrun)

/-- What holds of every step holds of a match, by induction on the depth. -/
theorem returns_matchNode (depth : Nat) :
    (∀ n st, Returns (matchNode tables text depth n st) fun out => ∀ s ∈ out, R st s) ∧
      ∀ child bounds greedy possessive st count,
      Returns (repeatNode tables text depth child bounds greedy possessive st count)
        fun out => ∀ s ∈ out, R st s := by
  induction depth with
  | zero =>
    refine ⟨fun n st => ?_, fun child bounds greedy possessive st count => ?_⟩
    · rw [matchNode]
      exact returns_buyStep (returns_budgetExceeded _)
    · rw [repeatNode]
      exact returns_budgetExceeded _
  | succ depth ih =>
    obtain ⟨hnode, hrepeat⟩ := ih
    refine ⟨fun n st => ?_, fun child bounds greedy possessive st count => ?_⟩
    · rw [matchNode.eq_def]
      refine returns_buyStep ?_
      cases n with
      | sequence children => exact hR.returns_matchSequence hnode children st
      | alternation children => exact returns_collect_forall fun child _ => hnode child st
      | literal literal =>
        refine returns_pure fun s hs => ?_
        unfold matchLiteral at hs
        split at hs
        · cases hs
        · exact hR.mem_codePoint hs
      | escape | characterClass | any => exact returns_pure fun s hs => hR.mem_codePoint hs
      | anchorStart | anchorEnd => exact returns_pure fun s hs => hR.stay hs
      | group i child | namedGroup i captureName child =>
        refine returns_bind (hnode child _) fun out hout => returns_pure fun s hs => ?_
        obtain ⟨inner, hinner, rfl⟩ := List.mem_map.mp hs
        exact hR.group (hout inner hinner)
      | atomicGroup child =>
        exact returns_bind (hnode child st) fun out hout =>
          returns_pure fun s hs => hout s (List.mem_of_mem_take hs)
      | backreference i captureName => exact returns_pure fun s hs => hR.backreference hs
      | quantifier bounds greedy possessive child => exact hrepeat child bounds greedy possessive st 0
      | lookahead child =>
        exact returns_bind (hnode child st) fun out _ => returns_pure fun s hs => hR.stay_not hs
      | negativeLookahead child =>
        exact returns_bind (hnode child st) fun out _ => returns_pure fun s hs => hR.stay hs
      | lookbehind child =>
        exact returns_bind (fun _ _ _ _ => trivial) fun found (_ : True) =>
          returns_pure fun s hs => hR.stay hs
      | negativeLookbehind child =>
        exact returns_bind (fun _ _ _ _ => trivial) fun found (_ : True) =>
          returns_pure fun s hs => hR.stay_not hs
    · rw [repeatNode.eq_def]
      dsimp only
      split
      · refine returns_bind (hR.returns_possess (hnode child) _ _ st count) fun r hr =>
          returns_pure fun s hs => ?_
        split at hs
        · rw [List.mem_singleton.mp hs]
          exact hr
        · cases hs
      · have hstop : ∀ s ∈ (if count ≥ bounds.minimum then [st] else []), R st s := fun s hs => hR.stay hs
        split
        · exact returns_pure hstop
        · refine returns_bind (hnode child st) fun next hnext => ?_
          refine returns_bind (Q := fun more => ∀ s ∈ more, R st s) ?_ fun more hmore =>
            returns_pure fun s hs => ?_
          · exact returns_collect_forall fun t ht =>
              hR.trans_returns (hnext t (List.mem_filter.mp ht).1)
                (hrepeat child bounds greedy possessive t _)
          · split at hs
            · exact (List.mem_append.mp hs).elim (hmore s) (hstop s)
            · exact (List.mem_append.mp hs).elim (hstop s) (hmore s)

end Moves

section
variable {text : Bytes}

theorem mem_backreference {i : Nat} {captureName : Bytes} {st s : State}
    (hs : s ∈ matchBackreference text i captureName st) :
    0 < i ∧ st.caps.set[i]? = some true ∧ ∃ a b, a = (st.caps.start.getD i 0).toNat ∧
      b = (st.caps.stop.getD i 0).toNat ∧ a ≤ b ∧ st.pos + (b - a) ≤ text.length ∧
      (text.drop st.pos).take (b - a) = (text.drop a).take (b - a) ∧
      s = { st with pos := st.pos + (b - a) } := by
  unfold matchBackreference at hs
  split at hs
  · nomatch hs
  · split at hs
    · nomatch hs
    · next hset =>
      dsimp only at hs
      split at hs
      · nomatch hs
      · next hbound =>
        split at hs
        · nomatch hs
        · next hsame =>
          have hlt : i < st.caps.set.length := by omega
          refine ⟨by omega, ?_, _, _, rfl, rfl, by omega, by omega, not_not.mp hsame,
            List.mem_singleton.mp hs⟩
          rw [List.getElem?_eq_getElem hlt]
          have hget : st.caps.set.getD i false ≠ false := fun h => hset (.inr (.inr h))
          simpa [hlt] using hget

theorem forward_moves : Moves text (fun st s => st.pos ≤ s.pos) where
  refl _ := Nat.le_refl _
  trans := Nat.le_trans
  codePoint _ := Nat.le_add_right _ _
  backreference hs := by
    obtain ⟨-, -, a, b, -, -, -, -, -, rfl⟩ := mem_backreference hs
    exact Nat.le_add_right _ _
  group h := by simpa using h

theorem inText_moves : Moves text (fun st s => st.pos ≤ text.length → s.pos ≤ text.length) where
  refl _ := id
  trans h h' := h' ∘ h
  codePoint hdecode _ := by
    have hle := (decodeFront_width hdecode).2
    rw [List.length_drop] at hle
    dsimp only
    omega
  backreference hs _ := by
    obtain ⟨-, -, a, b, -, -, -, hle, -, rfl⟩ := mem_backreference hs
    exact hle
  group h := by simpa using h

end

end zl.regex
