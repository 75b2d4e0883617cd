import Zl.Fixpoint.RoundRobin

open Relation zl.fixpoint

namespace zl.graph

section
variable {A : Type} [DecidableEq A]

/-- Iterative depth-first search, cut off after `fuel` rounds. A frame of the stack holds a vertex
    and its successors not looked at yet. A vertex is put in front of `order` when its frame is
    finished, so `order` is a reverse post-order. -/
def depthFirst (next : A → List A) : Nat → List A → List (A × List A) → List A → List A
  | 0, _, _, order => order
  | _ + 1, _, [], order => order
  | fuel + 1, visited, (current, []) :: stack, order =>
    depthFirst next fuel visited stack (current :: order)
  | fuel + 1, visited, (current, v :: rest) :: stack, order =>
    if v ∈ visited then depthFirst next fuel visited ((current, rest) :: stack) order
    else depthFirst next fuel (visited ++ [v]) ((v, next v) :: (current, rest) :: stack) order

/-- The rounds a depth-first search of the vertices of `bound` takes. -/
def searchCost (next : A → List A) (bound : List A) : Nat :=
  (bound.map fun v => (next v).length + 1).sum

/-- `p` stands before `x` in the list. -/
def Precedes (p x : A) (order : List A) : Prop :=
  ∃ before after, order = before ++ p :: after ∧ x ∈ after

omit [DecidableEq A] in
theorem Precedes.cons {p x v : A} {order : List A} (h : Precedes p x order) :
    Precedes p x (v :: order) := by
  obtain ⟨before, after, rfl, hx⟩ := h
  exact ⟨v :: before, after, rfl, hx⟩

omit [DecidableEq A] in
theorem Precedes.head {p x : A} {order : List A} (hx : x ∈ order) : Precedes p x (p :: order) :=
  ⟨[], order, rfl, hx⟩

theorem Precedes.idxOf_lt {p x : A} {order : List A} (hnodup : order.Nodup)
    (h : Precedes p x order) : order.idxOf p < order.idxOf x := by
  obtain ⟨before, after, rfl, hx⟩ := h
  obtain ⟨-, hafter, hdisjoint⟩ := List.nodup_append.mp hnodup
  have hp : p ∉ before := fun hp => hdisjoint p hp p List.mem_cons_self rfl
  have hxb : x ∉ before := fun hb => hdisjoint x hb x (List.mem_cons_of_mem _ hx) rfl
  have hne : p ≠ x := by
    rintro rfl
    exact (List.nodup_cons.mp hafter).1 hx
  rw [List.idxOf_append_of_notMem hp, List.idxOf_append_of_notMem hxb, List.idxOf_cons_self,
    List.idxOf_cons_ne _ hne]
  omega

/-- What the search keeps. Every finished vertex other than the root was entered along an edge
    from a vertex that is still open or that precedes it. -/
structure DepthFirstInvariant (next : A → List A) (root : A) (visited : List A)
    (stack : List (A × List A)) (order : List A) : Prop where
  nodup : (order ++ stack.map Prod.fst).Nodup
  visited_iff : ∀ v, v ∈ visited ↔ v ∈ order ∨ v ∈ stack.map Prod.fst
  sound : ∀ v ∈ visited, ReflTransGen (fun a b => b ∈ next a) root v
  pending : ∀ frame ∈ stack, ∀ v ∈ next frame.1, v ∈ visited ∨ v ∈ frame.2
  open_sub : ∀ frame ∈ stack, ∀ v ∈ frame.2, v ∈ next frame.1
  closed : ∀ b ∈ order, ∀ v ∈ next b, v ∈ visited
  edges : (stack.map Prod.fst).IsChain fun upper lower => upper ∈ next lower
  bottom : (stack.map Prod.fst).getLast?.or order.head? = some root
  parent : ∀ x ∈ order, x ≠ root →
    ∃ p, x ∈ next p ∧ (p ∈ stack.map Prod.fst ∨ Precedes p x order)

/-- The rounds a vertex still costs: its frame and its successors, once it is visited. -/
def unvisitedCost (next : A → List A) (visited : List A) (v : A) : Nat :=
  if v ∈ visited then 0 else (next v).length + 1

/-- The rounds a state still needs: its open frames and the vertices not visited. -/
def remainingCost (next : A → List A) (bound visited : List A) (stack : List (A × List A)) : Nat :=
  (stack.map fun frame => frame.2.length + 1).sum + (bound.map (unvisitedCost next visited)).sum

theorem sum_unvisitedCost_le (next : A → List A) {bound visited : List A} {v : A} (hv : v ∈ bound)
    (hnew : v ∉ visited) :
    (bound.map (unvisitedCost next (visited ++ [v]))).sum + ((next v).length + 1) ≤
      (bound.map (unvisitedCost next visited)).sum := by
  refine sum_map_add_le hv (fun w => ?_) ?_
  · unfold unvisitedCost
    by_cases hw : w ∈ visited
    · simp [hw]
    · rw [if_neg hw]
      split
      · exact Nat.zero_le _
      · exact Nat.le_refl _
  · simp [unvisitedCost, hnew]

namespace DepthFirstInvariant

section
variable {next : A → List A} {root : A} {visited : List A} {stack : List (A × List A)}
  {order : List A}

omit [DecidableEq A] in
theorem start (next : A → List A) (root : A) :
    DepthFirstInvariant next root [root] [(root, next root)] [] where
  nodup := by simp
  visited_iff := by simp
  sound := by
    intro v hv
    rw [List.mem_singleton.mp hv]
  pending := by
    intro frame hframe v hv
    rw [List.mem_singleton.mp hframe] at hv ⊢
    exact Or.inr hv
  open_sub := by
    intro frame hframe v hv
    rw [List.mem_singleton.mp hframe] at hv ⊢
    exact hv
  closed := by simp
  edges := by simp
  bottom := by simp
  parent := by simp

omit [DecidableEq A] in
/-- Finishing a frame. Its vertex came from the frame below, which is still open. -/
theorem finish {current : A} (hinv : DepthFirstInvariant next root visited ((current, []) :: stack) order) :
    DepthFirstInvariant next root visited stack (current :: order) where
  nodup := by
    have h := hinv.nodup
    simp only [List.map_cons] at h
    exact (List.perm_middle.nodup_iff).mp h
  visited_iff := by
    intro v
    rw [hinv.visited_iff v, List.map_cons, List.mem_cons, List.mem_cons]
    tauto
  sound := hinv.sound
  pending := fun frame hframe => hinv.pending frame (List.mem_cons_of_mem _ hframe)
  open_sub := fun frame hframe => hinv.open_sub frame (List.mem_cons_of_mem _ hframe)
  closed := by
    intro b hb v hv
    rcases List.mem_cons.mp hb with rfl | hb
    · rcases hinv.pending _ List.mem_cons_self v hv with h | h
      · exact h
      · cases h
    · exact hinv.closed b hb v hv
  edges := hinv.edges.tail
  bottom := by
    have h := hinv.bottom
    cases stack with
    | nil => simpa using h
    | cons frame stack =>
      simp only [List.map_cons, List.getLast?_cons_cons] at h ⊢
      have hlast : (frame.1 :: stack.map Prod.fst).getLast? = some root := by simpa using h
      rw [hlast]
      rfl
  parent := by
    intro x hx hroot
    rcases List.mem_cons.mp hx with rfl | horder
    · cases stack with
      | nil =>
        have h := hinv.bottom
        simp at h
        exact absurd h hroot
      | cons frame stack =>
        have hedge := hinv.edges
        simp only [List.map_cons, List.isChain_cons_cons] at hedge
        exact ⟨frame.1, hedge.1, Or.inl (by simp)⟩
    · obtain ⟨p, hedge, hp⟩ := hinv.parent x horder hroot
      refine ⟨p, hedge, ?_⟩
      rcases hp with hp | hp
      · rcases List.mem_cons.mp hp with rfl | hp
        · exact Or.inr (Precedes.head horder)
        · exact Or.inl hp
      · exact Or.inr hp.cons

omit [DecidableEq A] in
/-- Skipping a successor that was visited before. -/
theorem skip {current v : A} {rest : List A}
    (hinv : DepthFirstInvariant next root visited ((current, v :: rest) :: stack) order)
    (hv : v ∈ visited) :
    DepthFirstInvariant next root visited ((current, rest) :: stack) order where
  nodup := hinv.nodup
  visited_iff := hinv.visited_iff
  sound := hinv.sound
  pending := by
    intro frame hframe w hw
    rcases List.mem_cons.mp hframe with rfl | hframe
    · rcases hinv.pending _ List.mem_cons_self w hw with h | h
      · exact Or.inl h
      · rcases List.mem_cons.mp h with rfl | h
        · exact Or.inl hv
        · exact Or.inr h
    · exact hinv.pending frame (List.mem_cons_of_mem _ hframe) w hw
  open_sub := by
    intro frame hframe w hw
    rcases List.mem_cons.mp hframe with rfl | hframe
    · exact hinv.open_sub _ List.mem_cons_self w (List.mem_cons_of_mem _ hw)
    · exact hinv.open_sub frame (List.mem_cons_of_mem _ hframe) w hw
  closed := hinv.closed
  edges := hinv.edges
  bottom := hinv.bottom
  parent := hinv.parent

/-- Opening a frame for a new vertex. -/
theorem descend {current v : A} {rest : List A}
    (hinv : DepthFirstInvariant next root visited ((current, v :: rest) :: stack) order)
    (hv : v ∉ visited) :
    DepthFirstInvariant next root (visited ++ [v]) ((v, next v) :: (current, rest) :: stack) order where
  nodup := by
    have hnew : v ∉ order ++ (((current, v :: rest) :: stack).map Prod.fst) := by
      rw [List.mem_append, ← hinv.visited_iff v]
      exact hv
    have h := List.nodup_cons.mpr ⟨hnew, hinv.nodup⟩
    exact (List.perm_middle.nodup_iff).mpr h
  visited_iff := by
    intro w
    have h := hinv.visited_iff w
    simp only [List.map_cons, List.mem_append, List.mem_cons, List.not_mem_nil, or_false] at h ⊢
    tauto
  sound := by
    intro w hw
    rcases List.mem_append.mp hw with hw | hw
    · exact hinv.sound w hw
    · rw [List.mem_singleton.mp hw]
      have hcurrent : current ∈ visited := (hinv.visited_iff current).mpr (Or.inr (by simp))
      exact (hinv.sound current hcurrent).tail (hinv.open_sub _ List.mem_cons_self v List.mem_cons_self)
  pending := by
    intro frame hframe w hw
    rcases List.mem_cons.mp hframe with rfl | hframe
    · exact Or.inr hw
    · rcases List.mem_cons.mp hframe with rfl | hframe
      · rcases hinv.pending _ List.mem_cons_self w hw with h | h
        · exact Or.inl (List.mem_append_left _ h)
        · rcases List.mem_cons.mp h with rfl | h
          · exact Or.inl (List.mem_append_right _ List.mem_cons_self)
          · exact Or.inr h
      · exact (hinv.pending frame (List.mem_cons_of_mem _ hframe) w hw).imp_left
          (List.mem_append_left _)
  open_sub := by
    intro frame hframe w hw
    rcases List.mem_cons.mp hframe with rfl | hframe
    · exact hw
    · rcases List.mem_cons.mp hframe with rfl | hframe
      · exact hinv.open_sub _ List.mem_cons_self w (List.mem_cons_of_mem _ hw)
      · exact hinv.open_sub frame (List.mem_cons_of_mem _ hframe) w hw
  closed := fun b hb w hw => List.mem_append_left _ (hinv.closed b hb w hw)
  edges := by
    have h := hinv.edges
    simp only [List.map_cons] at h ⊢
    exact List.isChain_cons_cons.mpr
      ⟨hinv.open_sub _ List.mem_cons_self v List.mem_cons_self, h⟩
  bottom := by
    have h := hinv.bottom
    simp only [List.map_cons, List.getLast?_cons_cons] at h ⊢
    exact h
  parent := by
    intro x hx hroot
    obtain ⟨p, hedge, hp⟩ := hinv.parent x hx hroot
    exact ⟨p, hedge, hp.imp_left (List.mem_cons_of_mem _)⟩

end

end DepthFirstInvariant

/-- A search with enough fuel for the vertices reachable from the root ends with an empty stack,
    so everything the invariant says is about the order alone. -/
theorem depthFirst_invariant {next : A → List A} {root : A} {bound : List A}
    (hbound : ∀ v, ReflTransGen (fun a b => b ∈ next a) root v → v ∈ bound) {fuel : Nat}
    (hfuel : searchCost next bound ≤ fuel) :
    ∃ visited, DepthFirstInvariant next root visited []
      (depthFirst next fuel [root] [(root, next root)] []) := by
  have hrun : ∀ (fuel : Nat) (visited : List A) (stack : List (A × List A)) (order : List A),
      DepthFirstInvariant next root visited stack order →
      remainingCost next bound visited stack ≤ fuel →
      ∃ visited', DepthFirstInvariant next root visited' []
        (depthFirst next fuel visited stack order) := by
    intro fuel
    induction fuel with
    | zero =>
      intro visited stack order hinv hcost
      cases stack with
      | nil => exact ⟨visited, hinv⟩
      | cons frame stack =>
        simp [remainingCost] at hcost
    | succ fuel ih =>
      intro visited stack order hinv hcost
      match stack, hinv, hcost with
      | [], hinv, _ => exact ⟨visited, hinv⟩
      | (current, []) :: stack, hinv, hcost =>
        rw [depthFirst]
        refine ih _ _ _ hinv.finish ?_
        simp only [remainingCost, List.map_cons, List.sum_cons, List.length_nil] at hcost ⊢
        omega
      | (current, v :: rest) :: stack, hinv, hcost =>
        rw [depthFirst]
        by_cases hv : v ∈ visited
        · rw [if_pos hv]
          refine ih _ _ _ (hinv.skip hv) ?_
          simp only [remainingCost, List.map_cons, List.sum_cons, List.length_cons] at hcost ⊢
          omega
        · rw [if_neg hv]
          have hdescend := hinv.descend hv
          refine ih _ _ _ hdescend ?_
          have hreach := hdescend.sound v (List.mem_append_right _ List.mem_cons_self)
          have hsaved := sum_unvisitedCost_le next (hbound v hreach) hv
          simp only [remainingCost, List.map_cons, List.sum_cons, List.length_cons] at hcost ⊢
          omega
  refine hrun fuel [root] _ [] (DepthFirstInvariant.start next root) (Nat.le_trans ?_ hfuel)
  have hroot := sum_unvisitedCost_le next (hbound root .refl) List.not_mem_nil
  simp only [remainingCost, List.map_cons, List.map_nil, List.sum_cons, List.sum_nil]
  simp only [List.nil_append] at hroot
  have hcost : unvisitedCost next [] = fun v => (next v).length + 1 := by
    funext v
    simp [unvisitedCost]
  rw [hcost] at hroot
  exact Nat.le_trans (by omega) hroot

end

end zl.graph
