import Mathlib.Data.Finset.Card
import Zl.Collections.Basic

open zl.collections

namespace zl.graph.coinduction

/-- A test of a graph that may fail, with the nodes met so far. -/
abbrev Check (E N : Type) := List N → Except E (Bool × List N)

/-- One test after the other, up to the first that says no. -/
def all {E N : Type} : List (Check E N) → Check E N
  | [] => fun seen => .ok (true, seen)
  | check :: checks => fun seen => do
    let (holds, seen) ← check seen
    if holds then all checks seen else return (false, seen)

/-- What a node asks for: an answer that is known at once, or another node. -/
inductive Goal (E N : Type) where
  | now (answer : Except E Bool)
  | later (node : N)

section
variable {E N : Type}

/-- The goal is met where the nodes of a set are taken for granted. -/
def Goal.HoldsIn (S : N → Prop) : Goal E N → Prop
  | .now answer => answer = .ok true
  | .later node => S node

/-- The nodes of the set ask for no more than the set. -/
def Closed (goals : N → List (Goal E N)) (S : N → Prop) : Prop := ∀ n, S n → ∀ g ∈ goals n, g.HoldsIn S

def Goal.check (visit : N → Check E N) : Goal E N → Check E N
  | .now answer => fun seen => answer.map (·, seen)
  | .later node => visit node

theorem Goal.HoldsIn.mono {S T : N → Prop} (hST : ∀ n, S n → T n) {g : Goal E N} (h : g.HoldsIn S) :
    g.HoldsIn T := by
  cases g with
  | now answer => exact h
  | later node => exact hST node h

theorem all_cons_eq_true {check : Check E N} {checks : List (Check E N)} {seen seen' : List N} :
    all (check :: checks) seen = .ok (true, seen') ↔ ∃ s, check seen = .ok (true, s) ∧
      all checks s = .ok (true, seen') := by
  rw [all, bind_eq_ok]
  constructor
  · rintro ⟨⟨holds, s⟩, hcheck, h⟩
    cases holds with
    | true => exact ⟨s, hcheck, h⟩
    | false => nomatch h
  · rintro ⟨s, hcheck, h⟩
    exact ⟨(true, s), hcheck, h⟩

theorem all_cons_of_true {check : Check E N} {checks : List (Check E N)} {seen s : List N}
    (h : check seen = .ok (true, s)) : all (check :: checks) seen = all checks s := by
  simp only [all, h]
  rfl

theorem all_cons_of_error {check : Check E N} {checks : List (Check E N)} {seen : List N} {e : E}
    (h : check seen = .error e) : all (check :: checks) seen = .error e := by
  simp only [all, h]
  rfl

variable [DecidableEq N] (goals : N → List (Goal E N)) (tooDeep : E)

/-- Depth first through what a node asks for, at most so deep. A node met before is taken for granted. -/
def visit : Nat → N → Check E N
  | 0, _, _ => .error tooDeep
  | depth + 1, node, seen =>
    if node ∈ seen then .ok (true, seen) else all ((goals node).map (Goal.check (visit depth)))
      (node :: seen)

variable {goals tooDeep} {depth : Nat} {node : N} {seen seen' : List N}

/-- What a successful test has met: nothing is forgotten, and what is new asks for no more. -/
structure Explored (goals : N → List (Goal E N)) (seen seen' : List N) : Prop where
  subset : seen ⊆ seen'
  holds : ∀ n ∈ seen', n ∉ seen → ∀ g ∈ goals n, g.HoldsIn (· ∈ seen')
  nodup : seen.Nodup → seen'.Nodup

omit [DecidableEq N] in
theorem Explored.refl (seen : List N) : Explored goals seen seen :=
  ⟨List.Subset.refl _, fun _ hn hnew => absurd hn hnew, id⟩

omit [DecidableEq N] in
theorem Explored.trans {s₁ s₂ s₃ : List N} (h : Explored goals s₁ s₂) (h' : Explored goals s₂ s₃) :
    Explored goals s₁ s₃ where
  subset := List.Subset.trans h.subset h'.subset
  holds := by
    intro n hn hnew g hg
    by_cases hmem : n ∈ s₂
    · exact (h.holds n hmem hnew g hg).mono fun m hm => h'.subset hm
    · exact h'.holds n hn hmem g hg
  nodup := h'.nodup ∘ h.nodup

/-- The goals of a list are tested one after the other. -/
theorem all_sound {gs : List (Goal E N)}
    (hvisit : ∀ n s s', visit goals tooDeep depth n s = .ok (true, s') → Explored goals s s' ∧ n ∈ s')
    (h : all (gs.map (Goal.check (visit goals tooDeep depth))) seen = .ok (true, seen')) :
    Explored goals seen seen' ∧ ∀ g ∈ gs, g.HoldsIn (· ∈ seen') := by
  induction gs generalizing seen with
  | nil =>
    cases h
    exact ⟨.refl _, nofun⟩
  | cons g gs ih =>
    obtain ⟨s, hcheck, h⟩ := all_cons_eq_true.mp h
    obtain ⟨hexplored, hgs⟩ := ih h
    have hg : Explored goals seen s ∧ g.HoldsIn (· ∈ s) := by
      cases g with
      | now answer =>
        cases answer with
        | error e => nomatch hcheck
        | ok holds =>
          cases hcheck
          exact ⟨.refl _, rfl⟩
      | later node => exact hvisit node _ s hcheck
    refine ⟨hg.1.trans hexplored, List.forall_mem_cons.mpr
      ⟨hg.2.mono fun n hn => hexplored.subset hn, hgs⟩⟩

/-- What was met answers for what was asked. -/
theorem visit_sound (h : visit goals tooDeep depth node seen = .ok (true, seen')) :
    Explored goals seen seen' ∧ node ∈ seen' := by
  induction depth generalizing node seen seen' with
  | zero => nomatch h
  | succ depth ih =>
    rw [visit] at h
    split at h
    next hmem =>
      cases h
      exact ⟨.refl seen, hmem⟩
    next hnew =>
      obtain ⟨hexplored, hgoals⟩ := all_sound (fun n s s' => ih) h
      have hnode := hexplored.subset List.mem_cons_self
      refine ⟨⟨List.Subset.trans (List.subset_cons_self _ _) hexplored.subset, fun n hn hn' => ?_,
        fun hnodup => ?_⟩, hnode⟩
      · by_cases heq : n = node
        · exact heq ▸ hgoals
        · exact hexplored.holds n hn (by simp [heq, hn'])
      · exact hexplored.nodup (List.nodup_cons.mpr ⟨hnew, hnodup⟩)

/-- Goals that are met in a set are never denied, where the nodes of the set are not. -/
theorem all_complete {S : N → Prop} {gs : List (Goal E N)} (hgs : ∀ g ∈ gs, g.HoldsIn S)
    (hvisit : ∀ n s, S n →
      (∃ s', visit goals tooDeep depth n s = .ok (true, s')) ∨
      visit goals tooDeep depth n s = .error tooDeep) :
    (∃ seen', all (gs.map (Goal.check (visit goals tooDeep depth))) seen = .ok (true, seen')) ∨
      all (gs.map (Goal.check (visit goals tooDeep depth))) seen = .error tooDeep := by
  induction gs generalizing seen with
  | nil => exact .inl ⟨_, rfl⟩
  | cons g gs ih =>
    obtain ⟨hg, hgs⟩ := List.forall_mem_cons.mp hgs
    have hcheck : (∃ s, g.check (visit goals tooDeep depth) seen = .ok (true, s)) ∨
        g.check (visit goals tooDeep depth) seen = .error tooDeep := by
      cases g with
      | now answer =>
        rw [Goal.HoldsIn] at hg
        exact .inl ⟨seen, by rw [hg]; rfl⟩
      | later node => exact hvisit node seen hg
    rcases hcheck with ⟨s, hs⟩ | herror
    · rcases @ih s hgs with ⟨seen', hseen'⟩ | herror
      · exact .inl ⟨seen', all_cons_eq_true.mpr ⟨s, hs, hseen'⟩⟩
      · exact .inr ((all_cons_of_true hs).trans herror)
    · exact .inr (all_cons_of_error herror)

/-- A node of a closed set is never denied: the test says yes or goes too deep. -/
theorem visit_complete {S : N → Prop} (hclosed : Closed goals S) (hnode : S node) :
    (∃ seen', visit goals tooDeep depth node seen = .ok (true, seen')) ∨
      visit goals tooDeep depth node seen = .error tooDeep := by
  induction depth generalizing node seen with
  | zero => exact .inr rfl
  | succ depth ih =>
    rw [visit]
    split
    · exact .inl ⟨seen, rfl⟩
    · exact all_complete (hclosed node hnode) fun n s hn => ih hn

/-- From nothing met, a successful test has met a closed set. -/
theorem closed_of_visit (h : visit goals tooDeep depth node [] = .ok (true, seen')) :
    Closed goals (· ∈ seen') ∧ node ∈ seen' ∧ seen'.Nodup :=
  ⟨fun n hn => (visit_sound h).1.holds n hn List.not_mem_nil, (visit_sound h).2,
    (visit_sound h).1.nodup List.nodup_nil⟩

/-- The nodes of a set that were not met. -/
def unseen (U : Finset N) (seen : List N) : Nat := (U.filter (· ∉ seen)).card

theorem unseen_le {U : Finset N} (h : seen ⊆ seen') : unseen U seen' ≤ unseen U seen :=
  Finset.card_le_card (Finset.monotone_filter_right U fun _ _ hnew hmem => hnew (h hmem))

theorem unseen_cons_lt {U : Finset N} (hnode : node ∈ U) (hnew : node ∉ seen) :
    unseen U (node :: seen) < unseen U seen := by
  refine Finset.card_lt_card (Finset.ssubset_iff_of_subset ?_ |>.mpr ⟨node, ?_, ?_⟩)
  · exact Finset.monotone_filter_right U fun _ _ hnot hmem => hnot (List.mem_cons_of_mem _ hmem)
  · exact Finset.mem_filter.mpr ⟨hnode, hnew⟩
  · exact fun hmem => (Finset.mem_filter.mp hmem).2 List.mem_cons_self

/-- No goal of a list goes too deep, where the nodes that were not met are too few. -/
theorem all_ne_tooDeep {U : Finset N} {gs : List (Goal E N)} (hnow : .now (.error tooDeep) ∉ gs)
    (hlater : ∀ n, .later n ∈ gs → n ∈ U)
    (hvisit : ∀ n s, n ∈ U → unseen U s < depth → visit goals tooDeep depth n s ≠ .error tooDeep)
    (hfew : unseen U seen < depth) :
    all (gs.map (Goal.check (visit goals tooDeep depth))) seen ≠ .error tooDeep := by
  induction gs generalizing seen with
  | nil => exact nofun
  | cons g gs ih =>
    obtain ⟨hg, hnow⟩ := not_or.mp (List.mem_cons.not.mp hnow)
    have hrest {s : List N} := @ih s hnow fun n hn => hlater n (List.mem_cons_of_mem _ hn)
    rw [List.map_cons]
    cases hcheck : g.check (visit goals tooDeep depth) seen with
    | error e =>
      rw [all_cons_of_error hcheck]
      rintro heq
      cases heq
      cases g with
      | now answer =>
        cases answer with
        | error e =>
          cases hcheck
          exact hg rfl
        | ok holds => nomatch hcheck
      | later n => exact hvisit n seen (hlater n List.mem_cons_self) hfew hcheck
    | ok answer =>
      obtain ⟨holds, s⟩ := answer
      cases holds with
      | false => simp [all, hcheck, bind, Except.bind, pure, Except.pure]
      | true =>
        rw [all_cons_of_true hcheck]
        refine hrest (lt_of_le_of_lt (unseen_le ?_) hfew)
        cases g with
        | now answer =>
          cases answer with
          | error e => nomatch hcheck
          | ok holds =>
            cases hcheck
            exact List.Subset.refl _
        | later n => exact (visit_sound hcheck).1.subset

/-- A test within a finite set of nodes is never deeper than the set is large. -/
theorem visit_ne_tooDeep {U : Finset N} (hnow : ∀ n ∈ U, .now (.error tooDeep) ∉ goals n)
    (hlater : ∀ n ∈ U, ∀ m, .later m ∈ goals n → m ∈ U) (hnode : node ∈ U) (hfew : unseen U seen < depth) :
    visit goals tooDeep depth node seen ≠ .error tooDeep := by
  induction depth generalizing node seen with
  | zero => exact absurd hfew (Nat.not_lt_zero _)
  | succ depth ih =>
    rw [visit]
    split
    · exact nofun
    next hnew =>
      refine all_ne_tooDeep (hnow node hnode) (hlater node hnode) (fun n s hn hs => ih hn hs) ?_
      have := unseen_cons_lt hnode hnew
      omega

omit [DecidableEq N] in
theorem all_error {P : E → Prop} {visit : N → Check E N} {gs : List (Goal E N)}
    (hnow : ∀ e, .now (.error e) ∈ gs → P e) (hvisit : ∀ n s e, visit n s = .error e → P e) {e : E}
    (h : all (gs.map (Goal.check visit)) seen = .error e) : P e := by
  induction gs generalizing seen with
  | nil => nomatch h
  | cons g gs ih =>
    cases hcheck : g.check visit seen with
    | error failure =>
      rw [List.map_cons, all_cons_of_error hcheck] at h
      cases h
      cases g with
      | later n => exact hvisit n seen e hcheck
      | now answer =>
        cases answer with
        | ok holds => nomatch hcheck
        | error failure =>
          cases hcheck
          exact hnow e List.mem_cons_self
    | ok result =>
      obtain ⟨holds, s⟩ := result
      cases holds with
      | false =>
        simp only [List.map_cons, all, hcheck] at h
        nomatch h
      | true =>
        rw [List.map_cons, all_cons_of_true hcheck] at h
        exact ih (fun e he => hnow e (List.mem_cons_of_mem _ he)) h

theorem visit_error {P : E → Prop} (hdeep : P tooDeep)
    (hnow : ∀ n e, .now (.error e) ∈ goals n → P e) {e : E}
    (h : visit goals tooDeep depth node seen = .error e) : P e := by
  induction depth generalizing node seen e with
  | zero =>
    cases h
    exact hdeep
  | succ depth ih =>
    rw [visit] at h
    split at h
    · nomatch h
    · exact all_error (hnow node) (fun n s e herror => ih herror) h

/-- A chain of new nodes, each of which asks for the next one first, is followed to the end of the
    depth. -/
theorem visit_chain {chain : Nat → N} {length i : Nat}
    (hfirst : ∀ i < length, ∃ gs, goals (chain i) = .later (chain (i + 1)) :: gs)
    (hinj : ∀ i j, i ≤ length → j ≤ length → chain i = chain j → i = j) (hdepth : i + depth ≤ length)
    (hseen : ∀ n ∈ seen, ∃ j < i, n = chain j) : visit goals tooDeep depth (chain i) seen =
      .error tooDeep := by
  induction depth generalizing i seen with
  | zero => rfl
  | succ depth ih =>
    obtain ⟨gs, hgs⟩ := hfirst i (by omega)
    have hnew : chain i ∉ seen := by
      intro hmem
      obtain ⟨j, hj, heq⟩ := hseen _ hmem
      have := hinj i j (by omega) (by omega) heq
      omega
    rw [visit, if_neg hnew, hgs]
    refine all_cons_of_error (ih (by omega) fun n hn => ?_)
    rcases List.mem_cons.mp hn with rfl | hn
    · exact ⟨i, Nat.lt_succ_self i, rfl⟩
    · obtain ⟨j, hj, heq⟩ := hseen n hn
      exact ⟨j, Nat.lt_succ_of_lt hj, heq⟩

theorem all_of_forall {gs : List (Goal E N)}
    (hgs : ∀ g ∈ gs, ∀ s, seen ⊆ s → ∃ s', g.check (visit goals tooDeep depth) s = .ok (true, s') ∧
      s ⊆ s') :
    ∃ seen', all (gs.map (Goal.check (visit goals tooDeep depth))) seen = .ok (true, seen') ∧
      seen ⊆ seen' := by
  induction gs generalizing seen with
  | nil => exact ⟨seen, rfl, List.Subset.refl _⟩
  | cons g gs ih =>
    obtain ⟨hg, hgs⟩ := List.forall_mem_cons.mp hgs
    obtain ⟨s, hs, hsub⟩ := hg seen (List.Subset.refl _)
    obtain ⟨seen', hseen', hsub'⟩ := ih fun g hg s' hs' => hgs g hg s' (List.Subset.trans hsub hs')
    exact ⟨seen', all_cons_eq_true.mpr ⟨s, hs, hseen'⟩, List.Subset.trans hsub hsub'⟩

/-- A chain that comes to its end, or to a node that was met, is followed as deep as it is long. -/
theorem visit_along {chain : Nat → N} {met : List N} {i last : Nat}
    (hgoals : ∀ j, i ≤ j → j < last → ∀ g ∈ goals (chain j), g = .now (.ok true) ∨
      g = .later (chain (j + 1)))
    (hlast : chain last ∈ met ∨ ∀ g ∈ goals (chain last), g = .now (.ok true)) (hi : i ≤ last)
    (hdepth : last - i < depth)
    (hmet : met ⊆ seen) : ∃ seen', visit goals tooDeep depth (chain i) seen = .ok (true, seen') ∧
      seen ⊆ seen' ∧ chain i ∈ seen' := by
  induction depth generalizing i seen with
  | zero => exact absurd hdepth (Nat.not_lt_zero _)
  | succ depth ih =>
    rw [visit]
    split
    next hmem => exact ⟨seen, rfl, List.Subset.refl _, hmem⟩
    next hnew =>
      obtain ⟨seen', hseen', hsub⟩ : ∃ seen',
          all ((goals (chain i)).map (Goal.check (visit goals tooDeep depth)))
          (chain i :: seen) = .ok (true, seen') ∧ chain i :: seen ⊆ seen' := by
        refine all_of_forall fun g hg s hs => ?_
        have hmet' : met ⊆ s := List.Subset.trans hmet (List.Subset.trans (List.subset_cons_self _ _) hs)
        have hcases : g = .now (.ok true) ∨ i < last ∧ g = .later (chain (i + 1)) := by
          rcases Nat.lt_or_eq_of_le hi with hlt | rfl
          · exact (hgoals i le_rfl hlt g hg).imp_right fun h => ⟨hlt, h⟩
          · exact .inl (hlast.resolve_left (fun hmem => hnew (hmet hmem)) g hg)
        rcases hcases with rfl | ⟨hlt, rfl⟩
        · exact ⟨s, rfl, List.Subset.refl _⟩
        · obtain ⟨s', hs', hsub, -⟩ := ih (fun j hj => hgoals j (by omega)) hlt (by omega) hmet'
          exact ⟨s', hs', hsub⟩
      exact ⟨seen', hseen', List.Subset.trans (List.subset_cons_self _ _) hsub, hsub List.mem_cons_self⟩

end

end zl.graph.coinduction
