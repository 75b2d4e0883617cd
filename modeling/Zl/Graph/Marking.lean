import Mathlib.Data.Set.Insert

open Relation

namespace zl.graph

section
variable {A : Type}

/-- What is on a path from the start. -/
def Reached (R : A → A → Prop) (start : Set A) : Set A := {v | ∃ s ∈ start, ReflTransGen R s v}

variable {R R' : A → A → Prop} {start start' marked work S : Set A} {v w : A}

theorem subset_reached : start ⊆ Reached R start := fun v hv => ⟨v, hv, .refl⟩

theorem Reached.step (hv : v ∈ Reached R start) (hedge : R v w) : w ∈ Reached R start := by
  obtain ⟨s, hs, hpath⟩ := hv
  exact ⟨s, hs, hpath.tail hedge⟩

theorem Reached.mono (hsub : start ⊆ start') : Reached R start ⊆ Reached R start' :=
  fun _ ⟨s, hs, hpath⟩ =>
  ⟨s, hsub hs, hpath⟩

theorem reached_subset (hstart : start ⊆ S) (hclosed : ∀ v ∈ S, ∀ w, R v w → w ∈ S) :
    Reached R start ⊆ S := by
  rintro v ⟨s, hs, hpath⟩
  induction hpath with
  | refl => exact hstart hs
  | tail _ hedge ih => exact hclosed _ ih _ hedge

/-- Where a marking that goes through the vertices in any order stands: what it has marked and what
    is still on its list, which may name a vertex twice, or one that is marked already. -/
structure Marking (R : A → A → Prop) (start marked work : Set A) : Prop where
  sound : marked ∪ work ⊆ Reached R start
  started : start ⊆ marked ∪ work
  closed : ∀ v ∈ marked, ∀ w, R v w → w ∈ marked ∪ work

theorem Marking.begin : Marking R start ∅ start :=
  ⟨by simpa using subset_reached, by simp, fun _ hv => nomatch hv⟩

/-- A second marking goes on with the marks of the first. -/
theorem Marking.resume (h : Marking R start marked ∅) (more : Set A) :
    Marking R (start ∪ more) marked more := by
  refine ⟨Set.union_subset (fun v hv => ?_) fun v hv => ?_,
    Set.union_subset (fun v hv => ?_) fun v hv => .inr hv, fun v hv w hedge => ?_⟩
  · exact Reached.mono Set.subset_union_left (h.sound (.inl hv))
  · exact subset_reached (.inr hv)
  · exact .inl ((h.started hv).resolve_right id)
  · exact .inl ((h.closed v hv w hedge).resolve_right id)

theorem Marking.congr {work' : Set A} (h : Marking R start marked work) (heq : work = work') :
    Marking R start marked work' := heq ▸ h

theorem Marking.skip (h : Marking R start marked (insert v work)) (hv : v ∈ marked) :
    Marking R start marked work := by
  have hunion : marked ∪ insert v work = marked ∪ work := by
    rw [Set.union_insert]
    exact Set.insert_eq_of_mem (.inl hv)
  exact ⟨hunion ▸ h.sound, hunion ▸ h.started, fun u hu w hedge => hunion ▸ h.closed u hu w hedge⟩

theorem Marking.mark (h : Marking R start marked (insert v work)) :
    Marking R start (insert v marked) ({w | R v w} ∪ work) := by
  have hv : v ∈ Reached R start := h.sound (.inr (Set.mem_insert v work))
  have hold {u : A} (hu : u ∈ marked ∪ insert v work) : u ∈ insert v marked ∪ ({w | R v w} ∪ work) := by
    rcases hu with hu | hu | hu
    · exact .inl (.inr hu)
    · exact .inl (.inl hu)
    · exact .inr (.inr hu)
  refine ⟨?_, fun u hu => hold (h.started hu), fun u hu w hedge => ?_⟩
  · rintro u ((rfl | hu) | (hu | hu))
    · exact hv
    · exact h.sound (.inl hu)
    · exact Reached.step hv hu
    · exact h.sound (.inr (.inr hu))
  · rcases hu with rfl | hu
    · exact .inr (.inl hedge)
    · exact hold (h.closed u hu w hedge)

/-- A marking whose list is empty has marked what is reached, and nothing else. -/
theorem Marking.marked_eq (h : Marking R start marked ∅) : marked = Reached R start := by
  refine Set.Subset.antisymm (fun v hv => h.sound (.inl hv))
    (reached_subset (fun v hv => ?_) fun v hv w hedge => ?_)
  · exact (h.started hv).resolve_right id
  · exact (h.closed v hv w hedge).resolve_right id

end

end zl.graph
