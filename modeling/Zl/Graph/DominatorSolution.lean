import Zl.Graph.Dominance
import Zl.Fixpoint.RoundRobin

open Relation zl.fixpoint

namespace zl.graph

section
variable {A : Type} [DecidableEq A]

/-- The parent a table of immediate dominators gives a vertex: itself as long as the vertex has
    none. -/
def parentOf (idom : A → Option A) (a : A) : A := (idom a).getD a

/-- One more predecessor in the search for the lowest common ancestor. -/
def meetWith (number : A → Nat) (fuel : Nat) (idom : A → Option A) (found : Option A) (pred : A) :
    Option A :=
  match found with
  | none => some pred
  | some other => some (intersect (parentOf idom) number fuel pred other)

/-- The lowest common ancestor of the predecessors that have an immediate dominator already. -/
def newIdom (number : A → Nat) (fuel : Nat) (preds : A → List A) (idom : A → Option A) (b : A) :
    Option A :=
  (preds b).foldl
    (fun found pred => if (idom pred).isSome then meetWith number fuel idom found pred else found)
    none

/-- Update one vertex, and note whether its immediate dominator changed. -/
def updateIdom (number : A → Nat) (fuel : Nat) (preds : A → List A)
    (state : (A → Option A) × Bool) (b : A) : (A → Option A) × Bool :=
  match newIdom number fuel preds state.1 b with
  | none => state
  | some d => if state.1 b = some d then state else (Function.update state.1 b (some d), true)

/-- One pass over the vertices in order. -/
def sweepIdoms (number : A → Nat) (fuel : Nat) (preds : A → List A) (order : List A)
    (idom : A → Option A) : (A → Option A) × Bool :=
  order.foldl (updateIdom number fuel preds) (idom, false)

/-- A search order of the vertices reachable from the root along edges given by predecessor lists:
    every other vertex has a predecessor earlier in the order. -/
structure SearchOrder (root : A) (rest : List A) (preds : A → List A) : Prop where
  nodup : (root :: rest).Nodup
  earlier : ∀ b ∈ rest, ∃ p ∈ preds b, p ∈ root :: rest ∧
    (root :: rest).idxOf p < (root :: rest).idxOf b
  closed : ∀ b p, p ∈ root :: rest → p ∈ preds b → b ∈ root :: rest

/-- A table of immediate dominators over a search order: a vertex has a parent with a smaller
    number that has one itself, and the root is its own. -/
structure IdomTable (root : A) (rest : List A) (idom : A → Option A) : Prop where
  root_self : idom root = some root
  mem : ∀ x y, idom x = some y → x ∈ root :: rest
  parent : ∀ x y, idom x = some y → x ≠ root →
    (idom y).isSome = true ∧ (root :: rest).idxOf y < (root :: rest).idxOf x

variable {root : A} {rest : List A} {preds : A → List A} {idom : A → Option A}

omit [DecidableEq A] in
theorem parentOf_of_eq_some {a b : A} (h : idom a = some b) : parentOf idom a = b := by
  simp [parentOf, h]

theorem IdomTable.climbs (h : IdomTable root rest idom) :
    Climbs (parentOf idom) (root :: rest).idxOf root (fun x => (idom x).isSome = true) where
  up_root := parentOf_of_eq_some h.root_self
  number_root := List.idxOf_cons_self
  dom_up := by
    intro x hx
    obtain ⟨y, hy⟩ := Option.isSome_iff_exists.mp hx
    rw [parentOf_of_eq_some hy]
    by_cases hroot : x = root
    · rw [hroot, h.root_self] at hy
      rw [← Option.some.inj hy, h.root_self]
      rfl
    · exact (h.parent x y hy hroot).1
  lt := by
    intro x hx hroot
    obtain ⟨y, hy⟩ := Option.isSome_iff_exists.mp hx
    rw [parentOf_of_eq_some hy]
    exact (h.parent x y hy hroot).2
  inj := by
    intro x y hx hy heq
    obtain ⟨x', hx'⟩ := Option.isSome_iff_exists.mp hx
    exact (List.idxOf_inj (h.mem x x' hx')).mp heq

/-- A common ancestor of all predecessors that have a parent, below every other one. -/
structure MeetOfPreds (preds : A → List A) (idom : A → Option A) (b d : A) : Prop where
  dom : (idom d).isSome = true
  above : ∀ p ∈ preds b, (idom p).isSome = true → Above (parentOf idom) p d
  greatest : ∀ u, (∀ p ∈ preds b, (idom p).isSome = true → Above (parentOf idom) p u) →
    Above (parentOf idom) d u

/-- The fold of `newIdom`, started at some vertex, over predecessors that have a parent. -/
private theorem foldl_meet (h : IdomTable root rest idom) {fuel : Nat}
    (hfuel : 2 * (root :: rest).length < fuel) (ps : List A)
    (hps : ∀ p ∈ ps, (idom p).isSome = true) {found : A} (hfound : (idom found).isSome = true) :
    ∃ d, ps.foldl (meetWith (root :: rest).idxOf fuel idom) (some found) = some d ∧
      (idom d).isSome = true ∧ (∀ p ∈ found :: ps, Above (parentOf idom) p d) ∧
      ∀ u, (∀ p ∈ found :: ps, Above (parentOf idom) p u) → Above (parentOf idom) d u := by
  induction ps generalizing found with
  | nil =>
    refine ⟨found, rfl, hfound, ?_, fun u hu => hu found List.mem_cons_self⟩
    intro p hp
    rw [List.mem_singleton.mp hp]
    exact .refl _ _
  | cons p ps ih =>
    have hlt : ∀ x, (idom x).isSome = true → (root :: rest).idxOf x < (root :: rest).length := by
      intro x hx
      obtain ⟨y, hy⟩ := Option.isSome_iff_exists.mp hx
      exact List.idxOf_lt_length_of_mem (h.mem x y hy)
    have hp := hps p List.mem_cons_self
    have hsum : (root :: rest).idxOf p + (root :: rest).idxOf found < fuel := by
      have := hlt p hp
      have := hlt found hfound
      omega
    obtain ⟨hpm, hfm, hgreatest⟩ := h.climbs.intersect_spec hp hfound hsum
    rw [List.foldl_cons, meetWith]
    generalize intersect (parentOf idom) (fun a => (root :: rest).idxOf a) fuel p found = m
      at hpm hfm hgreatest ⊢
    obtain ⟨d, hfold, hd, hall, hmeet⟩ :=
      ih (fun q hq => hps q (List.mem_cons_of_mem _ hq)) (h.climbs.dom_above hp hpm)
    have hmd := hall m List.mem_cons_self
    refine ⟨d, hfold, hd, ?_, fun u hu => hmeet u ?_⟩
    · intro q hq
      rcases List.mem_cons.mp hq with rfl | hq
      · exact hfm.trans hmd
      · rcases List.mem_cons.mp hq with rfl | hq
        · exact hpm.trans hmd
        · exact hall q (List.mem_cons_of_mem _ hq)
    · intro q hq
      rcases List.mem_cons.mp hq with rfl | hq
      · exact hgreatest u (hu p (by simp)) (hu found (by simp))
      · exact hu q (List.mem_cons_of_mem _ (List.mem_cons_of_mem _ hq))

/-- `newIdom` finds the meet of the predecessors as soon as one of them has a parent. -/
theorem newIdom_spec (h : IdomTable root rest idom) {fuel : Nat}
    (hfuel : 2 * (root :: rest).length < fuel) {b : A} (hsome : ∃ p ∈ preds b, (idom p).isSome = true) :
    ∃ d, newIdom (root :: rest).idxOf fuel preds idom b = some d ∧ MeetOfPreds preds idom b d := by
  have hfilter : newIdom (root :: rest).idxOf fuel preds idom b =
      ((preds b).filter fun p => (idom p).isSome).foldl
        (meetWith (root :: rest).idxOf fuel idom) none := by
    rw [List.foldl_filter]
    rfl
  have hmem : ∀ p, p ∈ ((preds b).filter fun p => (idom p).isSome) ↔
      p ∈ preds b ∧ (idom p).isSome = true := fun p => List.mem_filter
  rw [hfilter]
  generalize ((preds b).filter fun p => (idom p).isSome) = ps at hmem ⊢
  cases ps with
  | nil =>
    obtain ⟨p, hp, hps⟩ := hsome
    exact absurd ((hmem p).mpr ⟨hp, hps⟩) List.not_mem_nil
  | cons p ps =>
    have hps : ∀ q ∈ p :: ps, (idom q).isSome = true := fun q hq => ((hmem q).mp hq).2
    obtain ⟨d, hfold, hd, hall, hmeet⟩ :=
      foldl_meet h hfuel ps (fun q hq => hps q (List.mem_cons_of_mem _ hq)) (hps p List.mem_cons_self)
    refine ⟨d, hfold, hd, fun q hq hqs => hall q ((hmem q).mpr ⟨hq, hqs⟩), fun u hu => ?_⟩
    exact hmeet u fun q hq => hu q ((hmem q).mp hq).1 ((hmem q).mp hq).2

end

section
variable {A : Type} [DecidableEq A] {root : A} {rest : List A} {preds : A → List A}
variable {idom : A → Option A} {fuel : Nat}

/-- The table in the middle of a pass: new parents for the vertices done, old ones for the
    others. -/
def mixed (done : List A) (new old : A → Option A) (x : A) : Option A :=
  if x ∈ done then new x else old x

/-- Giving a vertex the meet of its predecessors keeps the table well formed, when one of the
    predecessors has a parent and a smaller number. -/
theorem IdomTable.update (h : IdomTable root rest idom) {b d : A} (hb : b ∈ root :: rest)
    (hroot : b ≠ root) (hmeet : MeetOfPreds preds idom b d)
    (hearlier : ∃ p ∈ preds b, (idom p).isSome = true ∧ (root :: rest).idxOf p < (root :: rest).idxOf b) :
    IdomTable root rest (Function.update idom b (some d)) where
  root_self := by rw [Function.update_of_ne (Ne.symm hroot), h.root_self]
  mem := by
    intro x y hx
    by_cases hxb : x = b
    · exact hxb ▸ hb
    · rw [Function.update_of_ne hxb] at hx
      exact h.mem x y hx
  parent := by
    intro x y hx hxroot
    have hsome : ∀ z, (idom z).isSome = true →
        (Function.update idom b (some d) z).isSome = true := by
      intro z hz
      by_cases hzb : z = b
      · rw [hzb, Function.update_self]
        rfl
      · rwa [Function.update_of_ne hzb]
    by_cases hxb : x = b
    · rw [hxb, Function.update_self] at hx
      rw [← Option.some.inj hx, hxb]
      obtain ⟨p, hp, hps, hlt⟩ := hearlier
      have hle := h.climbs.number_above_le hps (hmeet.above p hp hps)
      exact ⟨hsome d hmeet.dom, Nat.lt_of_le_of_lt hle hlt⟩
    · rw [Function.update_of_ne hxb] at hx
      obtain ⟨hy, hlt⟩ := h.parent x y hx hxroot
      exact ⟨hsome y hy, hlt⟩

theorem updateIdom_spec (h : IdomTable root rest idom) (hfuel : 2 * (root :: rest).length < fuel)
    {b : A} (changed : Bool) (hsome : ∃ p ∈ preds b, (idom p).isSome = true) :
    ∃ d, MeetOfPreds preds idom b d ∧
      updateIdom (root :: rest).idxOf fuel preds (idom, changed) b =
        (Function.update idom b (some d), if idom b = some d then changed else true) := by
  obtain ⟨d, hnew, hmeet⟩ := newIdom_spec h hfuel hsome
  refine ⟨d, hmeet, ?_⟩
  unfold updateIdom
  rw [hnew]
  by_cases hsame : idom b = some d
  · simp only [hsame, if_true]
    rw [← hsame, Function.update_eq_self]
  · simp only [hsame, if_false]

/-- What a pass over `todo` does to a table whose vertices before `todo` all have parents: each
    vertex gets the meet of its predecessors in the table at its turn. -/
structure PassResult (root : A) (rest : List A) (preds : A → List A) (todo : List A)
    (old new : A → Option A) : Prop where
  table : IdomTable root rest new
  all : ∀ x ∈ root :: rest, (new x).isSome = true
  untouched : ∀ x, x ∉ todo → new x = old x
  turn : ∀ done w later, todo = done ++ w :: later →
    IdomTable root rest (mixed done new old) ∧
      MeetOfPreds preds (mixed done new old) w (parentOf new w)

theorem mixed_cons {b : A} {done : List A} {new old : A → Option A} {d : A} (hb : b ∉ done)
    (hnew : new b = some d) :
    mixed (b :: done) new old = mixed done new (Function.update old b (some d)) := by
  funext x
  unfold mixed
  by_cases hxb : x = b
  · rw [hxb, if_pos List.mem_cons_self, if_neg hb, Function.update_self, hnew]
  · simp only [List.mem_cons, hxb, false_or, Function.update_of_ne hxb]

omit [DecidableEq A] in
theorem mem_of_idxOf_lt [DecidableEq A] {done todo : List A} {b p : A} (hb : b ∉ done)
    (hlt : (done ++ b :: todo).idxOf p < (done ++ b :: todo).idxOf b) : p ∈ done := by
  by_contra hp
  rw [List.idxOf_append_of_notMem hp, List.idxOf_append_of_notMem hb, List.idxOf_cons_self] at hlt
  omega

/-- A pass from a table whose vertices before `todo` all have parents. It reports a change exactly
    when the table differs afterwards. -/
theorem foldl_updateIdom (horder : SearchOrder root rest preds)
    (hfuel : 2 * (root :: rest).length < fuel) (todo done : List A) (hsplit : rest = done ++ todo)
    {old : A → Option A} (htable : IdomTable root rest old)
    (hdone : ∀ x ∈ root :: done, (old x).isSome = true) (changed : Bool) :
    ∃ new changed', todo.foldl (updateIdom (root :: rest).idxOf fuel preds) (old, changed) =
        (new, changed') ∧ PassResult root rest preds todo old new ∧
      (changed' = false ↔ changed = false ∧ new = old) := by
  induction todo generalizing done old changed with
  | nil =>
    refine ⟨old, changed, rfl, ⟨htable, ?_, fun _ _ => rfl, ?_⟩, by simp⟩
    · rw [hsplit, List.append_nil]
      exact hdone
    · intro done' w later hnil
      simp at hnil
  | cons b todo ih =>
    have hb : b ∈ rest := by rw [hsplit]; simp
    have hnodup := horder.nodup
    have hroot : b ≠ root := by
      rintro rfl
      exact (List.nodup_cons.mp hnodup).1 hb
    have hrest : (done ++ b :: todo).Nodup := hsplit ▸ (List.nodup_cons.mp hnodup).2
    have hbtodo : b ∉ todo := (List.nodup_cons.mp (List.nodup_append.mp hrest).2.1).1
    obtain ⟨p, hp, hpmem, hlt⟩ := horder.earlier b hb
    have hbdone : b ∉ root :: done := by
      intro hmem
      rcases List.mem_cons.mp hmem with heq | hmem
      · exact hroot heq
      · exact (List.nodup_append.mp hrest).2.2 b hmem b List.mem_cons_self rfl
    have hpdone : p ∈ root :: done := by
      rw [hsplit] at hlt
      exact mem_of_idxOf_lt hbdone hlt
    have hps := hdone p hpdone
    obtain ⟨d, hmeet, hupdate⟩ := updateIdom_spec htable hfuel changed ⟨p, hp, hps⟩
    have htable' := htable.update (List.mem_cons_of_mem _ hb) hroot hmeet ⟨p, hp, hps, hlt⟩
    have hdone' : ∀ x ∈ root :: (done ++ [b]),
        (Function.update old b (some d) x).isSome = true := by
      intro x hx
      by_cases hxb : x = b
      · rw [hxb, Function.update_self]
        rfl
      · rw [Function.update_of_ne hxb]
        refine hdone x ?_
        simpa [hxb] using hx
    obtain ⟨new, changed', hfold, hresult, hchanged⟩ := ih (done ++ [b]) (by simpa using hsplit)
      htable' hdone' (if old b = some d then changed else true)
    have hnewb : new b = some d := by rw [hresult.untouched b hbtodo, Function.update_self]
    refine ⟨new, changed', by rw [List.foldl_cons, hupdate, hfold], ⟨hresult.table, hresult.all, ?_, ?_⟩, ?_⟩
    · intro x hx
      rw [hresult.untouched x fun hmem => hx (List.mem_cons_of_mem _ hmem),
        Function.update_of_ne fun heq => hx (by rw [heq]; exact List.mem_cons_self)]
    · intro done' w later hcons
      cases done' with
      | nil =>
        obtain ⟨rfl, -⟩ := List.cons_eq_cons.mp hcons
        have hmixed : mixed [] new old = old := by
          funext x
          simp [mixed]
        rw [hmixed, parentOf_of_eq_some hnewb]
        exact ⟨htable, hmeet⟩
      | cons b' done' =>
        obtain ⟨rfl, htail⟩ := List.cons_eq_cons.mp hcons
        have hbdone : b ∉ done' := fun hmem => hbtodo (by rw [htail]; exact List.mem_append_left _ hmem)
        rw [mixed_cons hbdone hnewb]
        exact hresult.turn done' w later htail
    · rw [hchanged]
      by_cases hsame : old b = some d
      · rw [if_pos hsame, ← hsame, Function.update_eq_self]
      · rw [if_neg hsame]
        constructor
        · rintro ⟨h, -⟩
          cases h
        · rintro ⟨-, heq⟩
          exact absurd (heq ▸ hnewb) hsame

/-- A fixed point of the pass: every vertex has the meet of its predecessors as parent. -/
structure Solution (root : A) (rest : List A) (preds : A → List A) (idom : A → Option A) : Prop where
  table : IdomTable root rest idom
  all : ∀ x ∈ root :: rest, (idom x).isSome = true
  meet : ∀ w ∈ rest, MeetOfPreds preds idom w (parentOf idom w)

theorem sweepIdoms_spec (horder : SearchOrder root rest preds)
    (hfuel : 2 * (root :: rest).length < fuel) {old : A → Option A} (htable : IdomTable root rest old) :
    ∃ new changed, sweepIdoms (root :: rest).idxOf fuel preds rest old = (new, changed) ∧
      PassResult root rest preds rest old new ∧ (changed = false ↔ new = old) := by
  obtain ⟨new, changed, hfold, hresult, hchanged⟩ :=
    foldl_updateIdom horder hfuel rest [] rfl htable (by simp [htable.root_self]) false
  exact ⟨new, changed, hfold, hresult, by simpa using hchanged⟩

/-- The table a pass leaves unchanged is a solution. -/
theorem PassResult.solution (h : PassResult root rest preds rest idom idom) :
    Solution root rest preds idom := by
  refine ⟨h.table, h.all, fun w hw => ?_⟩
  obtain ⟨done, later, hsplit⟩ := List.append_of_mem hw
  have hmixed : mixed done idom idom = idom := by
    funext x
    simp [mixed]
  simpa only [hmixed] using (h.turn done w later hsplit).2

/-- Whenever the iteration ends, it ends with a solution. -/
theorem whileChanged_solution (horder : SearchOrder root rest preds)
    (hfuel : 2 * (root :: rest).length < fuel) {rounds : Nat} {old idom : A → Option A}
    (htable : IdomTable root rest old)
    (hend : whileChanged (sweepIdoms (root :: rest).idxOf fuel preds rest) rounds old = some idom) :
    Solution root rest preds idom := by
  have hpass : ∀ old, IdomTable root rest old →
      IdomTable root rest (sweepIdoms (root :: rest).idxOf fuel preds rest old).1 := by
    intro old htable
    obtain ⟨new, changed, hsweep, hresult, -⟩ := sweepIdoms_spec horder hfuel htable
    rw [hsweep]
    exact hresult.table
  obtain ⟨last, hlast, hunchanged⟩ := whileChanged_result _ hpass htable hend
  obtain ⟨new, changed, hsweep, hresult, hchanged⟩ := sweepIdoms_spec horder hfuel hlast
  obtain ⟨rfl, rfl⟩ : new = idom ∧ changed = false := by simpa [hsweep] using hunchanged
  have hsame := hchanged.mp rfl
  rw [← hsame] at hresult
  exact hresult.solution

/-- The initial table: only the root has a parent, itself. -/
def rootIdom (root : A) : A → Option A := Function.update (fun _ => none) root (some root)

theorem IdomTable.rootIdom (root : A) (rest : List A) :
    IdomTable root rest (rootIdom root) where
  root_self := Function.update_self ..
  mem := by
    intro x y hx
    by_cases hxr : x = root
    · exact hxr ▸ List.mem_cons_self
    · rw [zl.graph.rootIdom, Function.update_of_ne hxr] at hx
      cases hx
  parent := by
    intro x y hx hxr
    rw [zl.graph.rootIdom, Function.update_of_ne hxr] at hx
    cases hx

/-- A vertex on the chain of a solution dominates. -/
theorem Solution.dominates (h : Solution root rest preds idom)
    (horder : SearchOrder root rest preds) {a b : A} (habove : Above (parentOf idom) b a) :
    Dominates (fun v w => v ∈ preds w) root a b := by
  refine dominates_of_above (parentOf_of_eq_some h.table.root_self) ?_ habove
  intro v w hedge hreach hw
  have hv : v ∈ root :: rest := by
    clear hedge
    induction hreach with
    | refl => exact List.mem_cons_self
    | tail _ hstep ih => exact horder.closed _ _ ih hstep
  have hwrest : w ∈ rest := by
    rcases List.mem_cons.mp (horder.closed w v hv hedge) with rfl | hmem
    · exact absurd rfl hw
    · exact hmem
  exact (h.meet w hwrest).above v hedge (h.all v hv)

end

end zl.graph
