import Mathlib.Data.Finset.Prod

open Relation

namespace zl.graph

section
variable {A : Type} (passes : A → Prop) (jump : A → Option A)

/-- A jump of a vertex that does nothing else. -/
def Hop (x y : A) : Prop := passes x ∧ jump x = some y

/-- The vertices on the way of a jump, as long as only vertices that do nothing else are passed. -/
def OnWay (a y : A) : Prop := ∃ t, jump a = some t ∧ ReflTransGen (Hop passes jump) t y

/-- A jump leads into a cycle, other than the loop of its target or a cycle of the two. -/
def Spins : Prop :=
  ∃ a t, jump a = some t ∧ TransGen (Hop passes jump) t t ∧ jump t ≠ some t ∧ jump t ≠ some a

/-- A vertex whose jump can lead to where its target jumps. -/
structure Shortcut (x u v : A) : Prop where
  passable : passes u
  first : jump x = some u
  second : jump u = some v
  source_ne : u ≠ x
  target_ne : v ≠ u
  end_ne : v ≠ x

end

section
variable {A : Type} {passes : A → Prop} {jump : A → Option A} {a t y : A}

/-- What a vertex with a loop reaches. -/
theorem eq_of_loop (hloop : jump a = some a) (hpath : ReflTransGen (Hop passes jump) a y) : y = a := by
  induction hpath with
  | refl => rfl
  | tail _ hhop ih =>
    subst ih
    exact Option.some.inj (hhop.2.symm.trans hloop)

theorem eq_or_eq_of_pair (ha : jump a = some t) (ht : jump t = some a)
    (hpath : ReflTransGen (Hop passes jump) a y) : y = a ∨ y = t := by
  induction hpath with
  | refl => exact .inl rfl
  | tail _ hhop ih =>
    rcases ih with rfl | rfl
    · exact .inr (Option.some.inj (hhop.2.symm.trans ha))
    · exact .inl (Option.some.inj (hhop.2.symm.trans ht))

theorem exists_hop_of_cycle (hcycle : TransGen (Hop passes jump) a a) :
    ∃ w, passes a ∧ jump a = some w ∧ ReflTransGen (Hop passes jump) w a := by
  obtain ⟨w, ⟨hpasses, hjump⟩, hback⟩ := TransGen.head'_iff.mp hcycle
  exact ⟨w, hpasses, hjump, hback⟩

theorem cycle_of_path (hcycle : TransGen (Hop passes jump) a a)
    (hpath : ReflTransGen (Hop passes jump) a y) :
    TransGen (Hop passes jump) y y := by
  induction hpath with
  | refl => exact hcycle
  | tail _ hhop ih =>
    obtain ⟨w, -, hjump, hback⟩ := exists_hop_of_cycle ih
    obtain rfl := Option.some.inj (hhop.2.symm.trans hjump)
    exact TransGen.tail' hback hhop

end

/-- The pairs of a vertex and one on its way. -/
noncomputable def ways {A : Type} (passes : A → Prop) (jump : A → Option A) (vertices : Finset A) :
    Finset (A × A) :=
  open Classical in (vertices ×ˢ vertices).filter fun pair => OnWay passes jump pair.1 pair.2

theorem mem_ways {A : Type} {passes : A → Prop} {jump : A → Option A} {vertices : Finset A} {a y : A} :
    (a, y) ∈ ways passes jump vertices ↔ (a ∈ vertices ∧ y ∈ vertices) ∧ OnWay passes jump a y := by
  classical exact Finset.mem_filter.trans (and_congr_left' Finset.mem_product)

namespace Shortcut

section
variable {A : Type} [DecidableEq A] {passes : A → Prop} {jump : A → Option A} {x u v a t y : A}
  (h : Shortcut passes jump x u v)
include h

theorem hop_of_update (hhop : Hop passes (Function.update jump x (some v)) a y) :
    ReflTransGen (Hop passes jump) a y := by
  obtain ⟨hpasses, hjump⟩ := hhop
  by_cases heq : a = x
  · subst heq
    rw [Function.update_self] at hjump
    cases hjump
    exact (ReflTransGen.single ⟨hpasses, h.first⟩).tail ⟨h.passable, h.second⟩
  · rw [Function.update_of_ne heq] at hjump
    exact .single ⟨hpasses, hjump⟩

theorem path_of_update (hpath : ReflTransGen (Hop passes (Function.update jump x (some v))) a y) :
    ReflTransGen (Hop passes jump) a y := by
  induction hpath with
  | refl => exact .refl
  | tail _ hhop ih => exact ih.trans (h.hop_of_update hhop)

theorem onWay_of_update (hway : OnWay passes (Function.update jump x (some v)) a y) :
    OnWay passes jump a y := by
  obtain ⟨t, hjump, hpath⟩ := hway
  have hold := h.path_of_update hpath
  by_cases heq : a = x
  · subst heq
    rw [Function.update_self] at hjump
    cases hjump
    exact ⟨u, h.first, hold.head ⟨h.passable, h.second⟩⟩
  · rw [Function.update_of_ne heq] at hjump
    exact ⟨t, hjump, hold⟩

theorem cycle_of_update (hcycle : TransGen (Hop passes (Function.update jump x (some v))) t t) :
    TransGen (Hop passes jump) t t := by
  obtain ⟨w, hpasses, hjump, hback⟩ := exists_hop_of_cycle hcycle
  have hold := h.path_of_update hback
  by_cases heq : t = x
  · subst heq
    rw [Function.update_self] at hjump
    cases hjump
    exact TransGen.head' ⟨hpasses, h.first⟩ (hold.head ⟨h.passable, h.second⟩)
  · rw [Function.update_of_ne heq] at hjump
    exact TransGen.head' ⟨hpasses, hjump⟩ hold

omit h in
/-- A way on which the source of the shortcut does not lie is as before. -/
theorem path_update (hpath : ReflTransGen (Hop passes jump) a y)
    (hnot : ∀ w, ReflTransGen (Hop passes jump) a w → w ≠ x) :
    ReflTransGen (Hop passes (Function.update jump x (some v))) a y := by
  induction hpath with
  | refl => exact .refl
  | tail hpath hhop ih => exact ih.tail ⟨hhop.1, (Function.update_of_ne (hnot _ hpath) _ _).trans hhop.2⟩

omit h in
/-- Up to the source of the shortcut a way is as before. -/
theorem path_to_source (hpath : ReflTransGen (Hop passes jump) a x) :
    ReflTransGen (Hop passes (Function.update jump x (some v))) a x := by
  induction hpath using ReflTransGen.head_induction_on with
  | refl => exact .refl
  | @head a c hhop _ ih =>
    by_cases heq : a = x
    · exact heq ▸ .refl
    · exact ih.head ⟨hhop.1, (Function.update_of_ne heq _ _).trans hhop.2⟩

theorem spins_of_update (hspins : Spins passes (Function.update jump x (some v))) :
    Spins passes jump := by
  obtain ⟨a, t, hjump, hcycle', hloop, hback⟩ := hspins
  have hcycle := h.cycle_of_update hcycle'
  by_cases hax : a = x
  · subst hax
    rw [Function.update_self] at hjump
    obtain rfl := Option.some.inj hjump
    rw [Function.update_of_ne h.end_ne] at hloop
    by_cases hpair : jump v = some u
    · -- The source of the shortcut jumps into a cycle of two.
      obtain ⟨w, hpasses, -, -⟩ := exists_hop_of_cycle hcycle
      refine ⟨a, u, h.first, TransGen.head ⟨h.passable, h.second⟩ (.single ⟨hpasses, hpair⟩), ?_, ?_⟩
      · rw [h.second]
        exact fun heq => h.target_ne (Option.some.inj heq)
      · rw [h.second]
        exact fun heq => h.end_ne (Option.some.inj heq)
    · exact ⟨u, v, h.second, hcycle, hloop, hpair⟩
  · rw [Function.update_of_ne hax] at hjump
    by_cases htx : t = x
    · subst htx
      refine ⟨a, t, hjump, hcycle, ?_, ?_⟩
      · rw [h.first]
        exact fun heq => h.source_ne (Option.some.inj heq)
      · intro heq
        rw [h.first] at heq
        obtain rfl := Option.some.inj heq
        rw [h.second] at hjump
        exact h.end_ne (Option.some.inj hjump)
    · rw [Function.update_of_ne htx] at hloop hback
      exact ⟨a, t, hjump, hcycle, hloop, hback⟩

theorem spins_update (hspins : Spins passes jump) : Spins passes (Function.update jump x (some v)) := by
  obtain ⟨a, t, hjump, hcycle, hloop, hback⟩ := hspins
  by_cases hreach : ReflTransGen (Hop passes jump) t x
  · -- The source lies on the cycle. What it leaves out jumps into the rest.
    obtain ⟨w, hpasses, hw, hreturn⟩ := exists_hop_of_cycle (cycle_of_path hcycle hreach)
    obtain rfl := Option.some.inj (h.first.symm.trans hw)
    have hreturns : ReflTransGen (Hop passes jump) v x := by
      cases hreturn.cases_head with
      | inl heq => exact (h.source_ne heq).elim
      | inr hhop =>
        obtain ⟨w, ⟨-, hw⟩, hrest⟩ := hhop
        exact Option.some.inj (hw.symm.trans h.second) ▸ hrest
    refine ⟨u, v, (Function.update_of_ne h.source_ne _ _).trans h.second, ?_, ?_, ?_⟩
    · exact TransGen.tail' (path_to_source hreturns) ⟨hpasses, Function.update_self ..⟩
    · rw [Function.update_of_ne h.end_ne]
      exact fun heq => h.end_ne (eq_of_loop heq hreturns).symm
    · rw [Function.update_of_ne h.end_ne]
      intro heq
      rcases eq_or_eq_of_pair heq h.second hreturns with heq | heq
      · exact h.end_ne heq.symm
      · exact h.source_ne heq.symm
  · have hnot (w : A) (hpath : ReflTransGen (Hop passes jump) t w) : w ≠ x :=
      fun heq => hreach (heq ▸ hpath)
    obtain ⟨w, hpasses, hw, hreturn⟩ := exists_hop_of_cycle hcycle
    have hcycle' : TransGen (Hop passes (Function.update jump x (some v))) t t :=
      TransGen.head' ⟨hpasses, (Function.update_of_ne (hnot t .refl) _ _).trans hw⟩
        (path_update hreturn fun y hpath => hnot y (hpath.head ⟨hpasses, hw⟩))
    by_cases hax : a = x
    · subst hax
      obtain rfl := Option.some.inj (h.first.symm.trans hjump)
      obtain rfl := Option.some.inj (h.second.symm.trans hw)
      have hbehind : Hop passes (Function.update jump a (some v)) u v :=
        ⟨hpasses, (Function.update_of_ne h.source_ne _ _).trans h.second⟩
      refine ⟨a, v, Function.update_self .., cycle_of_path hcycle' (.single hbehind), ?_, ?_⟩
      · rw [Function.update_of_ne h.end_ne]
        exact fun heq => h.target_ne (eq_of_loop heq hreturn).symm
      · rw [Function.update_of_ne h.end_ne]
        intro heq
        obtain ⟨w, hpasses', -, -⟩ := exists_hop_of_cycle (cycle_of_path hcycle (.single ⟨hpasses, hw⟩))
        exact hreach ((ReflTransGen.single ⟨hpasses, hw⟩).tail ⟨hpasses', heq⟩)
    · refine ⟨a, t, (Function.update_of_ne hax _ _).trans hjump, hcycle', ?_, ?_⟩
      · rwa [Function.update_of_ne (hnot t .refl)]
      · rwa [Function.update_of_ne (hnot t .refl)]

theorem spins_update_iff : Spins passes (Function.update jump x (some v)) ↔ Spins passes jump :=
  ⟨h.spins_of_update, h.spins_update⟩

/-- Where no jump spins, the vertex left out is not on the way of the source any more. -/
theorem not_onWay_update (hspins : ¬Spins passes jump) :
    OnWay passes jump x u ∧ ¬OnWay passes (Function.update jump x (some v)) x u := by
  refine ⟨⟨u, h.first, .refl⟩, fun ⟨t, hjump, hpath⟩ => hspins ?_⟩
  rw [Function.update_self] at hjump
  obtain rfl := Option.some.inj hjump
  refine ⟨x, u, h.first, TransGen.head' ⟨h.passable, h.second⟩ (h.path_of_update hpath), ?_, ?_⟩
  · rw [h.second]
    exact fun heq => h.target_ne (Option.some.inj heq)
  · rw [h.second]
    exact fun heq => h.end_ne (Option.some.inj heq)

end

/-- Where no jump spins, a shortcut leaves fewer ways. -/
theorem card_ways_update {A : Type} [DecidableEq A] {passes : A → Prop} {jump : A → Option A} {x u v : A}
    (h : Shortcut passes jump x u v) (hspins : ¬Spins passes jump) {vertices : Finset A}
    (hx : x ∈ vertices) (hu : u ∈ vertices) :
    (ways passes (Function.update jump x (some v)) vertices).card < (ways passes jump vertices).card := by
  obtain ⟨hway, hnot⟩ := h.not_onWay_update hspins
  refine Finset.card_lt_card ((Finset.ssubset_iff_of_subset fun pair hpair => ?_).mpr
    ⟨(x, u), mem_ways.mpr ⟨⟨hx, hu⟩, hway⟩, fun hmem =>
    hnot (mem_ways.mp hmem).2⟩)
  obtain ⟨hmem, hpair⟩ := mem_ways.mp hpair
  exact mem_ways.mpr ⟨hmem, h.onWay_of_update hpair⟩

end Shortcut

end zl.graph
