import Zl.Graph.DominatorSolution

open Relation zl.fixpoint

namespace zl.graph

section
variable {A : Type} [DecidableEq A]
variable {done later : List A} {w : A} {b : A}

/-- The first predecessor with a smaller number. The root has none, and is its own. -/
def treeParent (order : List A) (preds : A → List A) (b : A) : A :=
  ((preds b).find? fun p => decide (order.idxOf p < order.idxOf b)).getD b

variable {root : A} {rest : List A} {preds : A → List A} {old new idom : A → Option A}

theorem SearchOrder.treeParent_spec (horder : SearchOrder root rest preds) (hb : b ∈ rest) :
    treeParent (root :: rest) preds b ∈ preds b ∧
      (root :: rest).idxOf (treeParent (root :: rest) preds b) < (root :: rest).idxOf b := by
  obtain ⟨p, hp, -, hlt⟩ := horder.earlier b hb
  unfold treeParent
  cases hfind : (preds b).find? fun p => decide ((root :: rest).idxOf p < (root :: rest).idxOf b) with
  | none => exact absurd (decide_eq_true hlt) (List.find?_eq_none.mp hfind p hp)
  | some q => exact ⟨List.mem_of_find?_eq_some hfind, by simpa using List.find?_some hfind⟩

theorem treeParent_root : treeParent (root :: rest) preds root = root := by
  unfold treeParent
  cases hfind : (preds root).find? fun p =>
    decide ((root :: rest).idxOf p < (root :: rest).idxOf root) with
  | none => rfl
  | some q =>
    have hlt := List.find?_some hfind
    rw [List.idxOf_cons_self, decide_eq_true_iff] at hlt
    omega

theorem SearchOrder.idxOf_treeParent_le (horder : SearchOrder root rest preds) (hb : b ∈ root :: rest) :
    (root :: rest).idxOf (treeParent (root :: rest) preds b) ≤ (root :: rest).idxOf b := by
  obtain rfl | hb := List.mem_cons.mp hb
  · rw [treeParent_root]
  · exact Nat.le_of_lt (horder.treeParent_spec hb).2

theorem SearchOrder.treeParent_mem (horder : SearchOrder root rest preds) (hb : b ∈ root :: rest) :
    treeParent (root :: rest) preds b ∈ root :: rest := by
  rw [← List.idxOf_lt_length_iff] at hb ⊢
  exact Nat.lt_of_le_of_lt (horder.idxOf_treeParent_le (List.idxOf_lt_length_iff.mp hb)) hb

theorem SearchOrder.idxOf_le_of_tree (horder : SearchOrder root rest preds) {p x : A}
    (hp : p ∈ root :: rest) (htree : Above (treeParent (root :: rest) preds) p x) :
    (root :: rest).idxOf x ≤ (root :: rest).idxOf p := by
  obtain ⟨k, rfl⟩ := htree
  induction k generalizing p with
  | zero => exact Nat.le_refl _
  | succ k ih => exact Nat.le_trans (ih (horder.treeParent_mem hp)) (horder.idxOf_treeParent_le hp)

theorem IdomTable.idxOf_parentOf_le (h : IdomTable root rest idom) (x : A) :
    (root :: rest).idxOf (parentOf idom x) ≤ (root :: rest).idxOf x := by
  cases hx : idom x with
  | none => rw [parentOf, hx, Option.getD_none]
  | some y => exact h.climbs.number_up_le (Option.isSome_iff_exists.mpr ⟨y, hx⟩)

theorem IdomTable.above_congr (h : IdomTable root rest old) {n : Nat}
    (heq : ∀ y, (root :: rest).idxOf y < n → old y = new y) {x u : A}
    (hx : (root :: rest).idxOf x < n) (habove : Above (parentOf old) x u) : Above (parentOf new) x u := by
  obtain ⟨k, hk⟩ := habove
  induction k generalizing x with
  | zero => exact ⟨0, hk⟩
  | succ k ih =>
    have hparent : parentOf old x = parentOf new x := by rw [parentOf, parentOf, heq x hx]
    refine Above.step (hparent ▸ ih (Nat.lt_of_le_of_lt (h.idxOf_parentOf_le x) hx) hk)

/-- What every round leaves behind: a parent lies on the chain of the tree parent, and is
    below every common ancestor of the predecessors. -/
structure Settled (root : A) (rest : List A) (preds : A → List A) (idom : A → Option A) : Prop where
  table : IdomTable root rest idom
  all : ∀ x ∈ root :: rest, (idom x).isSome = true
  tree : ∀ w ∈ rest, Above (parentOf idom) (treeParent (root :: rest) preds w) (parentOf idom w)
  below : ∀ w ∈ rest, ∀ u, (root :: rest).idxOf u < (root :: rest).idxOf w →
    (∀ p ∈ preds w, (idom p).isSome = true → Above (parentOf idom) p u) →
    Above (parentOf idom) (parentOf idom w) u

namespace Settled

theorem tree_above (h : Settled root rest preds idom) (horder : SearchOrder root rest preds)
    {p x : A} (hp : p ∈ root :: rest)
    (habove : Above (parentOf idom) p x) : Above (treeParent (root :: rest) preds) p x := by
  obtain ⟨n, hn⟩ : ∃ n, (root :: rest).idxOf p = n := ⟨_, rfl⟩
  induction n using Nat.strong_induction_on generalizing p with
  | _ n ih =>
    by_cases hpx : p = x
    · exact hpx ▸ .refl _ _
    · obtain rfl | hrest := List.mem_cons.mp hp
      · obtain ⟨k, hk⟩ := habove
        rw [Function.iterate_fixed (parentOf_of_eq_some h.table.root_self)] at hk
        exact absurd hk hpx
      · refine Above.step (ih _ ?_ (horder.treeParent_mem hp)
          ((h.tree p hrest).trans (habove.up hpx)) rfl)
        exact hn ▸ (horder.treeParent_spec hrest).2

end Settled

theorem SearchOrder.above_of_tree (horder : SearchOrder root rest preds)
    (htree : ∀ w ∈ rest, Above (parentOf idom) (treeParent (root :: rest) preds w)
      (parentOf idom w)) {p x u : A}
    (hp : p ∈ root :: rest) (habove : Above (parentOf idom) p u)
    (hpath : Above (treeParent (root :: rest) preds) p x)
    (hle : (root :: rest).idxOf u ≤ (root :: rest).idxOf x) : Above (parentOf idom) x u := by
  obtain ⟨k, hk⟩ := hpath
  induction k generalizing p with
  | zero => exact hk ▸ habove
  | succ k ih =>
    have hmem := horder.treeParent_mem hp
    refine ih hmem ?_ hk
    obtain rfl | hrest := List.mem_cons.mp hp
    · rwa [treeParent_root]
    · have hlt := (horder.treeParent_spec hrest).2
      have hx := horder.idxOf_le_of_tree hmem ⟨k, hk⟩
      have hne : p ≠ u := by
        rintro rfl
        omega
      exact (htree p hrest).trans (habove.up hne)

theorem PassResult.mixed_eq (h : PassResult root rest preds rest old new)
    (horder : SearchOrder root rest preds) (hsplit : rest = done ++ w :: later) {y : A}
    (hy : (root :: rest).idxOf y < (root :: rest).idxOf w) :
    mixed done new old y = new y := by
  have hnodup := horder.nodup
  rw [hsplit, ← List.cons_append] at hnodup hy
  have hw : w ∉ root :: done :=
    fun hmem => (List.nodup_append.mp hnodup).2.2 w hmem w List.mem_cons_self rfl
  have hearlier : y ∈ root :: done := mem_of_idxOf_lt hw hy
  unfold mixed
  obtain rfl | hdone := List.mem_cons.mp hearlier
  · have hroot : y ∉ rest := hsplit ▸ (List.nodup_cons.mp hnodup).1
    rw [h.untouched y hroot]
    split <;> rfl
  · rw [if_pos hdone]

theorem SearchOrder.mixed_late (horder : SearchOrder root rest preds)
    (hsplit : rest = done ++ w :: later) {y : A} (hy : (root :: rest).idxOf w ≤ (root :: rest).idxOf y) :
    mixed done new old y = old y := by
  refine if_neg fun hdone => ?_
  have hnodup := horder.nodup
  rw [hsplit, ← List.cons_append] at hnodup hy
  have hlt : (root :: done).idxOf y < (root :: done).length :=
    List.idxOf_lt_length_iff.mpr (List.mem_cons_of_mem _ hdone)
  have hw : w ∉ root :: done :=
    fun hmem => (List.nodup_append.mp hnodup).2.2 w hmem w List.mem_cons_self rfl
  rw [List.idxOf_append_of_notMem hw, List.idxOf_append_of_mem (List.mem_cons_of_mem _ hdone)] at hy
  omega

section
variable {done later : List A} {w u : A} (h : PassResult root rest preds rest old new)
  (horder : SearchOrder root rest preds)
  (hsplit : rest = done ++ w :: later)
include h horder hsplit

theorem PassResult.above_mixed_iff {x : A} (hx : (root :: rest).idxOf x < (root :: rest).idxOf w) :
    Above (parentOf (mixed done new old)) x u ↔ Above (parentOf new) x u :=
  ⟨(h.turn done w later hsplit).1.above_congr (fun _ hy => h.mixed_eq horder hsplit hy) hx,
    h.table.above_congr (fun _ hy => (h.mixed_eq horder hsplit hy).symm) hx⟩

/-- At the turn of a vertex, an ancestor stays one when the new table has it below the vertex. -/
theorem PassResult.above_mixed {p : A} (hold : Above (parentOf old) p u)
    (hu : (root :: rest).idxOf u < (root :: rest).idxOf w)
    (hnew : ∀ x, Above (parentOf old) p x → (root :: rest).idxOf x < (root :: rest).idxOf w →
      Above (parentOf old) x u → Above (parentOf new) x u) : Above
      (parentOf (mixed done new old)) p u := by
  obtain ⟨k, hk⟩ := hold
  induction k generalizing p with
  | zero =>
    obtain rfl : p = u := hk
    exact .refl _ _
  | succ k ih =>
    by_cases hp : (root :: rest).idxOf p < (root :: rest).idxOf w
    · exact (h.above_mixed_iff horder hsplit hp).mpr (hnew p (.refl _ _) hp ⟨k + 1, hk⟩)
    · have hparent : parentOf (mixed done new old) p = parentOf old p := by
        rw [parentOf, parentOf, horder.mixed_late hsplit (Nat.le_of_not_lt hp)]
      refine Above.step (hparent ▸ ih (fun x hx => hnew x hx.step) hk)

/-- At the turn of a vertex, an ancestor was one before when it was one before below the vertex. -/
theorem PassResult.above_old {p : A} (hmixed : Above (parentOf (mixed done new old)) p u)
    (hold : ∀ x, (root :: rest).idxOf x < (root :: rest).idxOf w → Above (parentOf new) x u →
      Above (parentOf old) x u) :
    Above (parentOf old) p u := by
  obtain ⟨k, hk⟩ := hmixed
  induction k generalizing p with
  | zero => exact ⟨0, hk⟩
  | succ k ih =>
    by_cases hp : (root :: rest).idxOf p < (root :: rest).idxOf w
    · exact hold p hp ((h.above_mixed_iff horder hsplit hp).mp ⟨k + 1, hk⟩)
    · have hparent : parentOf (mixed done new old) p = parentOf old p := by
        rw [parentOf, parentOf, horder.mixed_late hsplit (Nat.le_of_not_lt hp)]
      exact Above.step (ih (hparent ▸ hk))

end

/-- The parent of a vertex is an ancestor of its tree parent, which is a predecessor processed before. -/
theorem PassResult.tree (h : PassResult root rest preds rest old new)
    (horder : SearchOrder root rest preds) (hw : w ∈ rest) :
    Above (parentOf new) (treeParent (root :: rest) preds w) (parentOf new w) := by
  obtain ⟨done, later, hsplit⟩ := List.append_of_mem hw
  obtain ⟨hmem, hlt⟩ := horder.treeParent_spec hw
  have hsome : (mixed done new old (treeParent (root :: rest) preds w)).isSome = true := by
    rw [h.mixed_eq horder hsplit hlt]
    exact h.all _ (horder.treeParent_mem (List.mem_cons_of_mem _ hw))
  exact (h.above_mixed_iff horder hsplit hlt).mp ((h.turn done w later hsplit).2.above _ hmem hsome)

theorem PassResult.idxOf_parent_lt (h : PassResult root rest preds rest old new)
    (horder : SearchOrder root rest preds) (hw : w ∈ rest) :
    (root :: rest).idxOf (parentOf new w) < (root :: rest).idxOf w := by
  refine h.table.climbs.lt w (h.all w (List.mem_cons_of_mem _ hw)) ?_
  rintro rfl
  exact (List.nodup_cons.mp horder.nodup).1 hw

/-- A round settles a table, if common ancestors of the predecessors are there at the turn of each
    vertex. -/
theorem PassResult.settled (h : PassResult root rest preds rest old new)
    (horder : SearchOrder root rest preds)
    (hlate : ∀ done w later, rest = done ++ w :: later → ∀ p u, (mixed done new old p).isSome = true →
      (root :: rest).idxOf w ≤ (root :: rest).idxOf p → (root :: rest).idxOf u < (root :: rest).idxOf w →
      Above (parentOf new) p u → Above (parentOf (mixed done new old)) p u) : Settled root rest
        preds new where
  table := h.table
  all := h.all
  tree _ hw := h.tree horder hw
  below w hw u hu hpreds := by
    obtain ⟨done, later, hsplit⟩ := List.append_of_mem hw
    obtain ⟨htable, hmeet⟩ := h.turn done w later hsplit
    refine (h.above_mixed_iff horder hsplit (h.idxOf_parent_lt horder hw)).mp
      (hmeet.greatest u fun p hp hsome => ?_)
    have hnew : Above (parentOf new) p u := by
      refine hpreds p hp (h.all p ?_)
      obtain ⟨y, hy⟩ := Option.isSome_iff_exists.mp hsome
      exact htable.mem p y hy
    by_cases hlt : (root :: rest).idxOf p < (root :: rest).idxOf w
    · exact (h.above_mixed_iff horder hsplit hlt).mpr hnew
    · exact hlate done w later hsplit p u hsome (Nat.le_of_not_lt hlt) hu hnew

/-- After a settled table no chain gets longer. -/
theorem PassResult.shrinks (h : PassResult root rest preds rest old new)
    (horder : SearchOrder root rest preds)
    (hold : Settled root rest preds old) {x u : A} (habove : Above (parentOf new) x u) :
    Above (parentOf old) x u := by
  obtain ⟨n, hn⟩ : ∃ n, (root :: rest).idxOf x = n := ⟨_, rfl⟩
  induction n using Nat.strong_induction_on generalizing x u with
  | _ n ih =>
    by_cases hxu : x = u
    · exact hxu ▸ .refl _ _
    by_cases hx : x ∈ rest
    · obtain ⟨done, later, hsplit⟩ := List.append_of_mem hx
      obtain ⟨htable, hmeet⟩ := h.turn done x later hsplit
      have hsome := h.all x (List.mem_cons_of_mem _ hx)
      have hu := h.table.climbs.number_above_lt hsome habove hxu
      refine Above.step (hold.below x hx u hu fun p hp hpsome => ?_)
      have hpmixed : (mixed done new old p).isSome = true := by
        obtain ⟨y, hy⟩ := Option.isSome_iff_exists.mp hpsome
        unfold mixed
        split
        · exact h.all p (hold.table.mem p y hy)
        · exact hpsome
      have hmixed := (hmeet.above p hp hpmixed).trans
        ((h.above_mixed_iff horder hsplit (h.idxOf_parent_lt horder hx)).mpr (habove.up hxu))
      exact h.above_old horder hsplit hmixed fun y hy hnew => ih _ (hn ▸ hy) hnew rfl
    · have hfixed : parentOf new x = x := by
        by_cases hroot : x = root
        · rw [hroot]
          exact parentOf_of_eq_some h.table.root_self
        · have hnone : new x = none := by
            by_contra hne
            obtain ⟨y, hy⟩ := Option.ne_none_iff_exists'.mp hne
            exact (List.mem_cons.mp (h.table.mem x y hy)).elim hroot hx
          rw [parentOf, hnone, Option.getD_none]
      obtain ⟨k, hk⟩ := habove
      rw [Function.iterate_fixed hfixed] at hk
      exact absurd hk hxu

/-- A round keeps a settled table settled. -/
theorem PassResult.settled_again (h : PassResult root rest preds rest old new)
    (horder : SearchOrder root rest preds)
    (hold : Settled root rest preds old) : Settled root rest preds new := by
  refine h.settled horder fun done w later hsplit p u hsome _ hu hnew => ?_
  have hp : p ∈ root :: rest := by
    obtain ⟨y, hy⟩ := Option.isSome_iff_exists.mp hsome
    exact (h.turn done w later hsplit).1.mem p y hy
  refine h.above_mixed horder hsplit (h.shrinks horder hold hnew) hu fun x hx _ hxu => ?_
  have hxsome := hold.table.climbs.dom_above (hold.all p hp) hx
  exact horder.above_of_tree (fun _ hw => h.tree horder hw) hp hnew (hold.tree_above horder hp hx)
    (hold.table.climbs.number_above_le hxsome hxu)

theorem SearchOrder.not_late_first (horder : SearchOrder root rest preds) {w p u : A}
    (hsplit : rest = done ++ w :: later) (hsome : (mixed done new (rootIdom root) p).isSome = true)
    (hle : (root :: rest).idxOf w ≤ (root :: rest).idxOf p)
    (hu : (root :: rest).idxOf u < (root :: rest).idxOf w) : False := by
  rw [horder.mixed_late hsplit hle, rootIdom] at hsome
  have hp : p = root := by
    by_contra hne
    rw [Function.update_of_ne hne] at hsome
    cases hsome
  rw [hp, List.idxOf_cons_self] at hle
  omega

/-- The first round settles the initial table: at its turn a vertex only has predecessors that were
    processed before. -/
theorem PassResult.settled_first (h : PassResult root rest preds rest (rootIdom root) new)
    (horder : SearchOrder root rest preds) :
    Settled root rest preds new := by
  exact h.settled horder fun done w later hsplit p u hsome hle hu _ =>
    (horder.not_late_first hsplit hsome hle hu).elim

theorem PassResult.decreases (h : PassResult root rest preds rest old new)
    (horder : SearchOrder root rest preds) (hold : Settled root rest preds old) (hne : new ≠ old) :
    (rest.map fun w => (root :: rest).idxOf (parentOf new w)).sum <
    (rest.map fun w => (root :: rest).idxOf (parentOf old w)).sum := by
  have hle (w : A) : (root :: rest).idxOf (parentOf new w) ≤ (root :: rest).idxOf (parentOf old w) := by
    by_cases hw : w ∈ rest
    · have hsome := hold.all w (List.mem_cons_of_mem _ hw)
      have habove : Above (parentOf old) w (parentOf new w) :=
        h.shrinks horder hold (Above.step (.refl _ _))
      have hdiffers : w ≠ parentOf new w := by
        intro heq
        have hlt := h.idxOf_parent_lt horder hw
        rw [← heq] at hlt
        exact Nat.lt_irrefl _ hlt
      exact hold.table.climbs.number_above_le (hold.table.climbs.dom_up w hsome) (habove.up hdiffers)
    · rw [parentOf, parentOf, h.untouched w hw]
  obtain ⟨w, hw⟩ : ∃ w, new w ≠ old w := by
    by_contra hall
    exact hne (funext fun w => by_contra fun hw => hall ⟨w, hw⟩)
  have hmem : w ∈ rest := by_contra fun hnot => hw (h.untouched w hnot)
  have hlt : (root :: rest).idxOf (parentOf new w) < (root :: rest).idxOf (parentOf old w) := by
    refine Nat.lt_of_le_of_ne (hle w) fun heq => hw ?_
    obtain ⟨x, hx⟩ := Option.isSome_iff_exists.mp (h.all w (List.mem_cons_of_mem _ hmem))
    obtain ⟨y, hy⟩ := Option.isSome_iff_exists.mp (hold.all w (List.mem_cons_of_mem _ hmem))
    rw [parentOf_of_eq_some hx, parentOf_of_eq_some hy] at heq
    obtain ⟨z, hz⟩ :=
      Option.isSome_iff_exists.mp (h.table.climbs.dom_up w (Option.isSome_iff_exists.mpr ⟨x, hx⟩))
    rw [parentOf_of_eq_some hx] at hz
    rw [hx, hy, (List.idxOf_inj (h.table.mem x z hz)).mp heq]
  exact Nat.lt_of_succ_le (@sum_map_add_le _ _ _ _ _ 1 hmem hle (Nat.succ_le_of_lt hlt))

/-- Every dominator of a vertex is on its chain. -/
def Complete (root : A) (rest : List A) (preds : A → List A) (idom : A → Option A) : Prop :=
  ∀ w ∈ root :: rest, ∀ u, Dominates (fun v w => v ∈ preds w) root u w → Above (parentOf idom) w u

section
variable (horder : SearchOrder root rest preds)
include horder

theorem SearchOrder.tree_of_dominates {w u : A} (hw : w ∈ root :: rest)
    (hdom : Dominates (fun v w => v ∈ preds w) root u w) :
    Above (treeParent (root :: rest) preds) w u := by
  obtain ⟨n, hn⟩ : ∃ n, (root :: rest).idxOf w = n := ⟨_, rfl⟩
  induction n using Nat.strong_induction_on generalizing w with
  | _ n ih =>
    by_cases hwu : w = u
    · exact hwu ▸ .refl _ _
    obtain rfl | hrest := List.mem_cons.mp hw
    · exact absurd ⟨hwu, .refl⟩ hdom
    · obtain ⟨hmem, hlt⟩ := horder.treeParent_spec hrest
      exact Above.step (ih _ (hn ▸ hlt) (horder.treeParent_mem hw)
        (fun havoids => hdom (havoids.tail hmem hwu)) rfl)

/-- A dominator of a vertex dominates the vertices of the tree path that are behind it. -/
theorem SearchOrder.dominates_of_tree {p x u : A} (hp : p ∈ root :: rest)
    (hdom : Dominates (fun v w => v ∈ preds w) root u p)
    (hpath : Above (treeParent (root :: rest) preds) p x)
    (hle : (root :: rest).idxOf u ≤ (root :: rest).idxOf x) :
    Dominates (fun v w => v ∈ preds w) root u x := by
  obtain ⟨k, hk⟩ := hpath
  induction k generalizing p with
  | zero => exact hk ▸ hdom
  | succ k ih =>
    have hmem := horder.treeParent_mem hp
    refine ih hmem (fun havoids => hdom ?_) hk
    obtain rfl | hrest := List.mem_cons.mp hp
    · rwa [treeParent_root] at havoids
    · obtain ⟨hpred, hlt⟩ := horder.treeParent_spec hrest
      have hx := horder.idxOf_le_of_tree hmem ⟨k, hk⟩
      refine havoids.tail hpred ?_
      rintro rfl
      omega

theorem SearchOrder.idxOf_dominator_lt {w u : A} (hw : w ∈ rest)
    (hdom : Dominates (fun v w => v ∈ preds w) root u w) (hne : w ≠ u) :
    (root :: rest).idxOf u < (root :: rest).idxOf w := by
  have hpath := (horder.tree_of_dominates (List.mem_cons_of_mem _ hw) hdom).up hne
  have hle := horder.idxOf_le_of_tree (horder.treeParent_mem (List.mem_cons_of_mem _ hw)) hpath
  exact Nat.lt_of_le_of_lt hle (horder.treeParent_spec hw).2

/-- A round leaves a complete table, if dominators of the predecessors are there at the turn of each
    vertex. -/
theorem PassResult.complete (h : PassResult root rest preds rest old new)
    (hlate : ∀ done w later, rest = done ++ w :: later → ∀ p u, (mixed done new old p).isSome = true →
      (root :: rest).idxOf w ≤ (root :: rest).idxOf p → (root :: rest).idxOf u < (root :: rest).idxOf w →
      Dominates (fun v w => v ∈ preds w) root u p →
      (∀ x ∈ root :: rest, (root :: rest).idxOf x < (root :: rest).idxOf w →
        Dominates (fun v w => v ∈ preds w) root u x → Above (parentOf new) x u) →
        Above (parentOf (mixed done new old)) p u) : Complete root rest preds new := by
  intro w hw u hdom
  obtain ⟨n, hn⟩ : ∃ n, (root :: rest).idxOf w = n := ⟨_, rfl⟩
  induction n using Nat.strong_induction_on generalizing w with
  | _ n ih =>
    by_cases hwu : w = u
    · exact hwu ▸ .refl _ _
    obtain rfl | hrest := List.mem_cons.mp hw
    · exact absurd ⟨hwu, .refl⟩ hdom
    · obtain ⟨done, later, hsplit⟩ := List.append_of_mem hrest
      obtain ⟨htable, hmeet⟩ := h.turn done w later hsplit
      refine Above.step ((h.above_mixed_iff horder hsplit (h.idxOf_parent_lt horder hrest)).mp
        (hmeet.greatest u fun p hp hsome => ?_))
      have hpdom : Dominates (fun v w => v ∈ preds w) root u p :=
        fun havoids => hdom (havoids.tail hp hwu)
      have hpmem : p ∈ root :: rest := by
        obtain ⟨y, hy⟩ := Option.isSome_iff_exists.mp hsome
        exact htable.mem p y hy
      by_cases hlt : (root :: rest).idxOf p < (root :: rest).idxOf w
      · exact (h.above_mixed_iff horder hsplit hlt).mpr (ih _ (hn ▸ hlt) p hpmem hpdom rfl)
      · exact hlate done w later hsplit p u hsome (Nat.le_of_not_lt hlt)
          (horder.idxOf_dominator_lt hrest hdom hwu) hpdom
          fun x hx hxlt hxdom => ih _ (hn ▸ hxlt) x hx hxdom rfl

theorem PassResult.complete_again (h : PassResult root rest preds rest old new)
    (hold : Settled root rest preds old)
    (hcomplete : Complete root rest preds old) : Complete root rest preds new := by
  refine h.complete horder fun done w later hsplit p u hsome _ hu hdom hnew => ?_
  have hp : p ∈ root :: rest := by
    obtain ⟨y, hy⟩ := Option.isSome_iff_exists.mp hsome
    exact (h.turn done w later hsplit).1.mem p y hy
  refine h.above_mixed horder hsplit (hcomplete p hp u hdom) hu fun x hx hxlt hxu => ?_
  have hxsome := hold.table.climbs.dom_above (hold.all p hp) hx
  obtain ⟨y, hy⟩ := Option.isSome_iff_exists.mp hxsome
  refine hnew x (hold.table.mem x y hy) hxlt
    (horder.dominates_of_tree hp hdom (hold.tree_above horder hp hx) ?_)
  exact hold.table.climbs.number_above_le hxsome hxu

theorem PassResult.complete_first (h : PassResult root rest preds rest (rootIdom root) new) :
    Complete root rest preds new := by
  exact h.complete horder fun done w later hsplit p u hsome hle hu _ _ =>
    (horder.not_late_first hsplit hsome hle hu).elim

/-- The iteration ends, with a table that has exactly the dominators on the chains. -/
theorem SearchOrder.whileChanged_isSome {fuel rounds : Nat} (hfuel : 2 * (root :: rest).length < fuel)
    (hrounds : (root :: rest).length * (root :: rest).length + 2 ≤ rounds) :
    ∃ idom, whileChanged (sweepIdoms (root :: rest).idxOf fuel preds rest) rounds
      (rootIdom root) = some idom ∧ Settled root rest preds idom ∧ Complete root rest preds idom := by
  obtain ⟨first, changed, hsweep, hresult, -⟩ :=
    sweepIdoms_spec horder hfuel (IdomTable.rootIdom root rest)
  have hfirst : Settled root rest preds first ∧ Complete root rest preds first :=
    ⟨hresult.settled_first horder, hresult.complete_first horder⟩
  obtain ⟨rounds, rfl⟩ : ∃ n, rounds = n + 1 := ⟨rounds - 1, by omega⟩
  rw [whileChanged, hsweep]
  cases changed with
  | false => exact ⟨first, rfl, hfirst⟩
  | true =>
    have hpass : ∀ old, Settled root rest preds old ∧ Complete root rest preds old →
        Settled root rest preds (sweepIdoms (root :: rest).idxOf fuel preds rest old).1 ∧
        Complete root rest preds (sweepIdoms (root :: rest).idxOf fuel preds rest old).1 := by
      rintro old ⟨hold, hcomplete⟩
      obtain ⟨new, changed, hsweep, hresult, -⟩ := sweepIdoms_spec horder hfuel hold.table
      rw [hsweep]
      exact ⟨hresult.settled_again horder hold, hresult.complete_again horder hold hcomplete⟩
    have hdecrease : ∀ old, Settled root rest preds old ∧ Complete root rest preds old →
        (sweepIdoms (root :: rest).idxOf fuel preds rest old).2 = true →
        (rest.map fun w => (root :: rest).idxOf
        (parentOf (sweepIdoms (root :: rest).idxOf fuel preds rest old).1 w)).sum <
          (rest.map fun w => (root :: rest).idxOf (parentOf old w)).sum := by
      rintro old ⟨hold, -⟩ hchanged
      obtain ⟨new, changed, hsweep, hresult, hsame⟩ := sweepIdoms_spec horder hfuel hold.table
      rw [hsweep] at hchanged ⊢
      refine hresult.decreases horder hold fun heq => ?_
      rw [hsame.mpr heq] at hchanged
      cases hchanged
    have hmeasure : (rest.map fun w => (root :: rest).idxOf (parentOf first w)).sum < rounds := by
      have hle : ∀ n ∈ rest.map fun w => (root :: rest).idxOf (parentOf first w),
          n ≤ (root :: rest).length := by
        intro n hn
        obtain ⟨w, -, rfl⟩ := List.mem_map.mp hn
        exact List.idxOf_le_length
      have hsum := List.sum_le_card_nsmul _ _ hle
      have hmul : rest.length * (root :: rest).length ≤ (root :: rest).length * (root :: rest).length :=
        Nat.mul_le_mul_right _ (Nat.le_succ _)
      rw [List.length_map, Nat.nsmul_eq_mul] at hsum
      omega
    obtain ⟨idom, hend⟩ := fixpoint.whileChanged_isSome _ (fun idom =>
      (rest.map fun w => (root :: rest).idxOf (parentOf idom w)).sum) hpass hdecrease hfirst hmeasure
    obtain ⟨last, hlast, hunchanged⟩ := whileChanged_result _ hpass hfirst hend
    have hidom := hpass last hlast
    rw [hunchanged] at hidom
    exact ⟨idom, hend, hidom⟩

end

/-- The table after some rounds, when the vertices of a list had their turn in the next one. -/
def tableAt (number : A → Nat) (fuel : Nat) (preds : A → List A) (order : List A)
    (start : A → Option A) (rounds : Nat) (done : List A) :
    A → Option A :=
  (done.foldl (updateIdom number fuel preds)
    ((fun idom => (sweepIdoms number fuel preds order idom).1)^[rounds] start, false)).1

theorem foldl_updateIdom_untouched {number : A → Nat} {fuel : Nat} {todo : List A}
    {state : (A → Option A) × Bool} {x : A} (hx : x ∉ todo) :
    (todo.foldl (updateIdom number fuel preds) state).1 x = state.1 x := by
  induction todo generalizing state with
  | nil => rfl
  | cons b todo ih =>
    rw [List.foldl_cons, ih fun hmem => hx (List.mem_cons_of_mem _ hmem)]
    have hne : x ≠ b := fun heq => hx (heq ▸ List.mem_cons_self)
    unfold updateIdom
    split
    · rfl
    · split
      · rfl
      · exact Function.update_of_ne hne ..

theorem foldl_updateIdom_mixed (number : A → Nat) (fuel : Nat) (preds : A → List A)
    {order done later : List A}
    (hsplit : order = done ++ later) (hnodup : order.Nodup) (old : A → Option A) :
    (done.foldl (updateIdom number fuel preds) (old, false)).1 =
      mixed done (sweepIdoms number fuel preds order old).1 old := by
  subst hsplit
  funext x
  unfold mixed
  split
  next hdone =>
    have hlater : x ∉ later := fun hmem => (List.nodup_append.mp hnodup).2.2 x hdone x hmem rfl
    rw [sweepIdoms, List.foldl_append, foldl_updateIdom_untouched hlater]
  next hdone => exact foldl_updateIdom_untouched hdone

/-- Whenever two chains are intersected, the loops end. -/
theorem SearchOrder.intersects (horder : SearchOrder root rest preds) {fuel : Nat}
    (hfuel : 2 * (root :: rest).length < fuel) (rounds : Nat) (hsplit : rest = done ++ w :: later) {p q : A}
    (hp : (tableAt (root :: rest).idxOf fuel preds rest (rootIdom root) rounds done p).isSome = true)
    (hq : (tableAt (root :: rest).idxOf fuel preds rest (rootIdom root) rounds done q).isSome = true) :
    ∃ r, Intersects (parentOf (tableAt (root :: rest).idxOf fuel preds rest
      (rootIdom root) rounds done)) (root :: rest).idxOf p q r := by
  have hround : ∀ n, IdomTable root rest
      ((fun idom => (sweepIdoms (root :: rest).idxOf fuel preds rest idom).1)^[n] (rootIdom root)) := by
    intro n
    induction n with
    | zero => exact IdomTable.rootIdom root rest
    | succ n ih =>
      obtain ⟨new, changed, hsweep, hresult, -⟩ := sweepIdoms_spec horder hfuel ih
      rw [Function.iterate_succ_apply', hsweep]
      exact hresult.table
  have htable : IdomTable root rest
      (tableAt (root :: rest).idxOf fuel preds rest (rootIdom root) rounds done) := by
    obtain ⟨new, changed, hsweep, hresult, -⟩ := sweepIdoms_spec horder hfuel (hround rounds)
    have hnodup := (List.nodup_cons.mp horder.nodup).2
    have hmixed := foldl_updateIdom_mixed (root :: rest).idxOf fuel preds hsplit hnodup
      ((fun idom => (sweepIdoms (root :: rest).idxOf fuel preds rest idom).1)^[rounds] (rootIdom root))
    rw [hsweep] at hmixed
    rw [tableAt, hmixed]
    exact (hresult.turn done w later hsplit).1
  exact ⟨_, htable.climbs.intersects hp hq (Nat.lt_succ_self _)⟩

end

end zl.graph
