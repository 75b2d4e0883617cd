import Zl.Vm.Contract.CheckOutcome

namespace zl.vm.contract

section
variable {R O : Type} [DecidableEq R] {chunk : Chunk O} {heap : Heap R O}
variable {plan plan' : Plan R} {fuel : Nat}

/-- No contract is still being checked. -/
def noneOpened : R → NativeContainerType → Prop := fun _ _ => False

def committed (heap : Heap R O) (r : R) : Option NativeContainerType := (heap r).storageType

/-- Every committed contract fits its container, and what the container holds is assignable to
    its arguments. -/
def ContractsHold (chunk : Chunk O) (heap : Heap R O) : Prop :=
  ∀ r c, (heap r).storageType = some c →
    Shaped (heap r).contents c ∧ Holds chunk heap (committed heap) r c

theorem ContractsHold.planned (h : ContractsHold chunk heap) :
    Planned chunk heap noneOpened (proposed heap []) :=
  ⟨fun r c hc => (h r c hc).1, fun r c hc => .inl (h r c hc).2⟩

theorem commit_contents (heap : Heap R O) (plan : Plan R) (r : R) :
    (commit heap plan r).contents = (heap r).contents := by
  induction plan with
  | nil => rfl
  | cons entry plan ih =>
    rw [commit, Function.update_apply]
    split
    · next heq => rw [heq] at ih; exact heq ▸ ih
    · exact ih

theorem commit_storageType (heap : Heap R O) (plan : Plan R) (r : R) :
    (commit heap plan r).storageType = proposed heap plan r := by
  induction plan with
  | nil => rfl
  | cons entry plan ih =>
    rw [commit, Function.update_apply]
    split
    · next heq => rw [heq, proposed_cons_self]
    · next hne => rw [proposed_cons_of_ne _ _ hne, ih]

theorem setContents_storageType (heap : Heap R O) (r r' : R) (contents : Contents R O) :
    (setContents heap r contents r').storageType = (heap r').storageType := by
  rw [setContents, Function.update_apply]
  split
  · next heq => rw [heq]
  · rfl

theorem proposed_setContents (heap : Heap R O) (r r' : R) (contents : Contents R O) (plan : Plan R) :
    proposed (setContents heap r contents) plan r' = proposed heap plan r' := by
  rw [proposed, proposed, setContents_storageType]

/-- A written container that meets its contract keeps the contracts of the whole plan. -/
theorem contractsHold_commit_setContents {plan : Plan R} {r : R} {contents : Contents R O}
    (hplanned : Planned chunk heap noneOpened (proposed heap plan))
    (hkind : isMap contents = isMap (heap r).contents)
    (hsize : ∀ c size, proposed heap plan r = some c → c.fixedSize = some size →
      logicalSize contents = size)
    (hholds : ∀ c, proposed heap plan r = some c → ∀ p ∈ expectations c.arguments contents,
      Assignable chunk (mapRef heap) (proposed heap plan) p.1 p.2) :
    ContractsHold chunk (commit (setContents heap r contents) plan) := by
  intro r' c hc
  have hview : committed (commit (setContents heap r contents) plan) = proposed heap plan :=
    funext fun r' => (commit_storageType ..).trans (proposed_setContents ..)
  have hmap : mapRef (commit (setContents heap r contents) plan) = mapRef heap := by
    funext r''
    rw [mapRef, mapRef, commit_contents, setContents, Function.update_apply]
    split
    · next heq => rw [heq, hkind]
    · rfl
  rw [commit_storageType, proposed_setContents] at hc
  have hshaped := hplanned.shaped r' c hc
  unfold Holds
  rw [hview, hmap, commit_contents, setContents, Function.update_apply]
  split
  · next heq =>
    subst heq
    refine ⟨⟨?_, hshaped.wellFormed, fun size hs => ⟨?_, hsize c size hc hs⟩⟩, hholds c hc⟩
    · rw [hkind]
      exact hshaped.arity
    · rw [hkind]
      exact (hshaped.size size hs).1
  · exact ⟨hshaped, (hplanned.holds r' c hc).resolve_right id⟩

/-- Publishing a plan whose checks all ended keeps the contracts. -/
theorem contractsHold_commit {plan : Plan R}
    (hplanned : Planned chunk heap noneOpened (proposed heap plan)) :
    ContractsHold chunk (commit heap plan) := by
  intro r c hc
  have hview : committed (commit heap plan) = proposed heap plan :=
    funext fun r => commit_storageType ..
  have hmap : mapRef (commit heap plan) = mapRef heap := by
    funext r
    rw [mapRef, mapRef, commit_contents]
  rw [commit_storageType] at hc
  unfold Holds
  rw [hview, hmap, commit_contents]
  exact ⟨hplanned.shaped r c hc, (hplanned.holds r c hc).resolve_right id⟩

theorem runChecks_planned {checks : List (BoundaryCheck R O)} {found : List Bool}
    (hplanned : Planned chunk heap noneOpened (proposed heap plan))
    (h : runChecks chunk heap fuel plan checks = some (found, plan')) :
    Planned chunk heap noneOpened (proposed heap plan') := by
  induction checks generalizing plan found with
  | nil =>
    obtain ⟨-, rfl⟩ := Prod.mk.inj (Option.some.inj h)
    exact hplanned
  | cons boundary checks ih =>
    obtain ⟨⟨first, middle⟩, hcheck, h⟩ := Option.bind_eq_some_iff.mp h
    obtain ⟨⟨others, last⟩, hothers, h⟩ := Option.bind_eq_some_iff.mp h
    obtain ⟨-, rfl⟩ := Prod.mk.inj (Option.some.inj h)
    exact ih (check_outcome hplanned hcheck).planned hothers

theorem checkBoundary_contractsHold {checks : List (BoundaryCheck R O)} {commits : Bool}
    {heap' : Heap R O} (hholds : ContractsHold chunk heap)
    (h : checkBoundary chunk heap fuel checks commits = some heap') :
    ContractsHold chunk heap' := by
  obtain ⟨⟨found, plan⟩, hchecks, rfl⟩ := Option.map_eq_some_iff.mp h
  cases commits with
  | false => exact hholds
  | true => exact contractsHold_commit (runChecks_planned hholds.planned hchecks)

theorem listWrite_outcome {list : R} {inserted : Option (Value R O)} {resultingSize : Nat}
    (hplanned : Planned chunk heap noneOpened (proposed heap plan))
    (h : listWrite chunk heap fuel plan list inserted resultingSize = .matched plan') :
    Outcome chunk heap noneOpened plan plan' [] ∧
      ∀ c, proposed heap plan list = some c →
        (∀ size, c.fixedSize = some size → resultingSize = size) ∧
          ∀ value ∈ inserted,
            Assignable chunk (mapRef heap) (proposed heap plan') value
            (c.arguments.getD 0 unknownType) := by
  unfold listWrite at h
  split at h
  · next hnone =>
    obtain rfl := Verdict.matched.inj h
    refine ⟨.refl hplanned, fun c hc => ?_⟩
    rw [hnone] at hc
    cases hc
  · next type htype =>
    split at h
    · cases h
    next hsize =>
    have hresulting : ∀ size, type.fixedSize = some size → resultingSize = size := by
      intro size hs
      by_contra hne
      refine hsize ?_
      rw [hs, Option.isSome_some, Bool.true_and, bne_iff_ne]
      exact fun heq => hne (Option.some.inj heq).symm
    split at h
    · next value =>
      have houtcome :=
        require_outcome (getD_of_wellFormed (hplanned.shaped _ _ htype).wellFormed 0) hplanned h
      refine ⟨⟨houtcome.planned, houtcome.narrowed, List.forall_mem_nil _⟩, fun c hc => ?_⟩
      obtain rfl := Option.some.inj (htype.symm.trans hc)
      refine ⟨hresulting, fun v hv => ?_⟩
      obtain rfl := Option.some.inj hv
      exact houtcome.assignable _ List.mem_cons_self
    · obtain rfl := Verdict.matched.inj h
      refine ⟨.refl hplanned, fun c hc => ?_⟩
      obtain rfl := Option.some.inj (htype.symm.trans hc)
      exact ⟨hresulting, fun v hv => by cases hv⟩

theorem mapWrite_outcome {map : R} {key value : Value R O}
    (hplanned : Planned chunk heap noneOpened (proposed heap plan))
    (h : mapWrite chunk heap fuel plan map key value = .matched plan') :
    Outcome chunk heap noneOpened plan plan' [] ∧
      ∀ c, proposed heap plan map = some c →
        Assignable chunk (mapRef heap) (proposed heap plan') key (c.arguments.getD 0 unknownType) ∧
          Assignable chunk (mapRef heap) (proposed heap plan') value
          (c.arguments.getD 1 unknownType) := by
  unfold mapWrite at h
  split at h
  · next hnone =>
    obtain rfl := Verdict.matched.inj h
    refine ⟨.refl hplanned, fun c hc => ?_⟩
    rw [hnone] at hc
    cases hc
  · next type htype =>
    have hwf := (hplanned.shaped _ _ htype).wellFormed
    split at h
    · next middle hkey =>
      have hfirst := require_outcome (getD_of_wellFormed hwf 0) hplanned hkey
      have hboth := hfirst.trans (require_outcome (getD_of_wellFormed hwf 1) hfirst.planned h)
      refine ⟨⟨hboth.planned, hboth.narrowed, List.forall_mem_nil _⟩, fun c hc => ?_⟩
      obtain rfl := Option.some.inj (htype.symm.trans hc)
      exact ⟨hboth.assignable _ List.mem_cons_self,
        hboth.assignable _ (List.mem_cons_of_mem _ List.mem_cons_self)⟩
    · next hnot => exact absurd h (hnot plan')

end

end zl.vm.contract
