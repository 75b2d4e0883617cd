import Zl.Mir.Verifier.OwnershipFlow

open zl.fixpoint zl.mir.ControlFlowGraph

namespace zl.mir.Verifier

/-- The slots the instructions of a function name. -/
def slotUniverse (f : Function) : Finset SlotId :=
  ((positions f).map (·.instruction.slot)).toFinset

/-- The indices of the first operands, among them those of all released parameters. -/
def paramUniverse (f : Function) : Finset ParamId :=
  ((positions f).map fun p => (p.instruction.operands.headD Operand.none).index).toFinset

/-- A state that only speaks of what the instructions of the function name. -/
structure Small (f : Function) (state : FlowState) : Prop where
  moved : state.moved ⊆ slotUniverse f
  dropped : state.dropped ⊆ slotUniverse f
  droppedParams : state.droppedParams ⊆ paramUniverse f
  borrows : ∀ k : SlotId, state.borrows[k]? ≠ none → k ∈ slotUniverse f
  mustBorrows : state.mustBorrows ⊆ slotUniverse f

/-- How far the root of a slot has risen. -/
def rootRank : Option SlotId → Nat
  | none => 0
  | some root => if root = unknownRoot then 2 else 1

theorem rootRank_le_two (a : Option SlotId) : rootRank a ≤ 2 := by
  unfold rootRank
  grind

theorem RootLe.rank_le {a b : Option SlotId} (h : RootLe a b) : rootRank a ≤ rootRank b := by
  unfold RootLe rootRank at *
  grind

theorem RootLe.eq_of_rank {a b : Option SlotId} (h : RootLe a b) (hrank : rootRank a = rootRank b) :
    a = b := by
  unfold RootLe rootRank at *
  grind

/-- How far a state has risen. -/
def FlowState.rank (f : Function) (state : FlowState) : Nat :=
  state.moved.card + state.dropped.card + state.droppedParams.card +
    (slotUniverse f).sum (fun k => rootRank state.borrows[k]?) +
    ((slotUniverse f).card - state.mustBorrows.card)

section
variable {f : Function}

theorem card_slotUniverse_le : (slotUniverse f).card ≤ (positions f).length :=
  (List.toFinset_card_le _).trans (by rw [List.length_map])

theorem card_paramUniverse_le : (paramUniverse f).card ≤ (positions f).length :=
  (List.toFinset_card_le _).trans (by rw [List.length_map])

theorem Small.rank_le {state : FlowState} (h : Small f state) :
    state.rank f ≤ 6 * (positions f).length := by
  have hmoved := Finset.card_le_card h.moved
  have hdropped := Finset.card_le_card h.dropped
  have hparams := Finset.card_le_card h.droppedParams
  have hborrows : (slotUniverse f).sum (fun k => rootRank state.borrows[k]?) ≤
      (slotUniverse f).card * 2 :=
    Finset.sum_le_card_nsmul _ _ 2 fun k _ => rootRank_le_two _
  have hslots := card_slotUniverse_le (f := f)
  have hparamUniverse := card_paramUniverse_le (f := f)
  unfold FlowState.rank
  omega

theorem FlowLe.rank_le {a b : FlowState} (hle : a ≤ b) (ha : Small f a) (hb : Small f b) :
    a.rank f ≤ b.rank f := by
  have hmoved := Finset.card_le_card hle.moved
  have hdropped := Finset.card_le_card hle.dropped
  have hparams := Finset.card_le_card hle.droppedParams
  have hmust := Finset.card_le_card hle.mustBorrows
  have hborrows := Finset.sum_le_sum
    fun k (_ : k ∈ slotUniverse f) => (hle.borrows k).rank_le
  have hcapA := Finset.card_le_card ha.mustBorrows
  have hcapB := Finset.card_le_card hb.mustBorrows
  unfold FlowState.rank
  omega

theorem FlowState.eq_of_rank {a b : FlowState} (hle : a ≤ b) (ha : Small f a) (hb : Small f b)
    (hrank : b.rank f ≤ a.rank f) : a = b := by
  have hmoved := Finset.card_le_card hle.moved
  have hdropped := Finset.card_le_card hle.dropped
  have hparams := Finset.card_le_card hle.droppedParams
  have hmust := Finset.card_le_card hle.mustBorrows
  have hroots : ∀ k ∈ slotUniverse f, rootRank a.borrows[k]? ≤ rootRank b.borrows[k]? :=
    fun k _ => (hle.borrows k).rank_le
  have hborrows := Finset.sum_le_sum hroots
  have hcapA := Finset.card_le_card ha.mustBorrows
  have hcapB := Finset.card_le_card hb.mustBorrows
  unfold FlowState.rank at hrank
  have hsum : (slotUniverse f).sum (fun k => rootRank a.borrows[k]?) =
      (slotUniverse f).sum (fun k => rootRank b.borrows[k]?) := by omega
  have hpoint := (Finset.sum_eq_sum_iff_of_le hroots).mp hsum
  refine le_antisymm hle ⟨?_, ?_, ?_, ?_, ?_⟩
  · exact (Finset.eq_of_subset_of_card_le hle.moved (by omega)).ge
  · exact (Finset.eq_of_subset_of_card_le hle.dropped (by omega)).ge
  · exact (Finset.eq_of_subset_of_card_le hle.droppedParams (by omega)).ge
  · intro k
    refine Or.inr (Or.inl ?_)
    by_cases hk : k ∈ slotUniverse f
    · exact ((hle.borrows k).eq_of_rank (hpoint k hk)).symm
    · have hnone : ∀ {state : FlowState}, Small f state → state.borrows[k]? = none :=
        fun hsmall => by_contra fun hne => hk (hsmall.borrows k hne)
      rw [hnone ha, hnone hb]
  · exact (Finset.eq_of_subset_of_card_le hle.mustBorrows (by omega)).ge

theorem Small.empty : Small f {} where
  moved := Finset.empty_subset _
  dropped := Finset.empty_subset _
  droppedParams := Finset.empty_subset _
  borrows := by simp
  mustBorrows := Finset.empty_subset _

theorem Small.sup {a b : FlowState} (ha : Small f a) (hb : Small f b) : Small f (a ⊔ b) where
  moved := Finset.union_subset ha.moved hb.moved
  dropped := Finset.union_subset ha.dropped hb.dropped
  droppedParams := Finset.union_subset ha.droppedParams hb.droppedParams
  borrows := by
    intro k hk
    change (joinBorrows a.borrows b.borrows)[k]? ≠ none at hk
    rw [getElem?_joinBorrows] at hk
    cases hak : a.borrows[k]? with
    | some root => exact ha.borrows k (by simp [hak])
    | none =>
      cases hbk : b.borrows[k]? with
      | some root => exact hb.borrows k (by simp [hbk])
      | none => simp [hak, hbk, joinRoot] at hk
  mustBorrows := fun _ h => ha.mustBorrows (Finset.mem_inter.mp h).1

theorem mem_slotUniverse_of_dropTarget {place : Position} (hplace : place ∈ positions f)
    {id : SlotId} (h : dropTarget f place.instruction = .slot id) : id ∈ slotUniverse f := by
  have hmem : ∀ p ∈ positions f, p.instruction.slot ∈ slotUniverse f := by
    intro p hp
    exact List.mem_toFinset.mpr (List.mem_map_of_mem hp)
  unfold dropTarget at h
  split at h
  · cases h
    exact hmem place hplace
  · simp only at h
    split at h
    · cases h
    · split at h
      · cases h
      next howner =>
        cases h
        unfold ownerSlotOf at howner ⊢
        split at howner
        case isFalse => exact absurd rfl howner
        case isTrue hkind =>
          rw [if_pos hkind]
          unfold provenance at howner ⊢
          split at howner
          case isTrue => exact absurd rfl howner
          case isFalse htemp =>
            rw [if_neg htemp]
            simp only at howner ⊢
            cases hfind : (positions f).reverse.find? _ with
            | none =>
              rw [hfind] at howner
              exact absurd rfl howner
            | some source =>
              exact hmem source (List.mem_reverse.mp (List.mem_of_find?_eq_some hfind))

theorem Small.applyInstruction {state : FlowState} (h : Small f state) {place : Position}
    (hplace : place ∈ positions f) : Small f (applyInstruction f place.instruction state) := by
  have hslot : place.instruction.slot ∈ slotUniverse f :=
    List.mem_toFinset.mpr (List.mem_map_of_mem hplace)
  unfold Verifier.applyInstruction
  split
  · exact { h with dropped := (Finset.erase_subset _ _).trans h.dropped }
  · exact { h with moved := Finset.insert_subset hslot h.moved }
  · refine { h with borrows := fun k hk => ?_, mustBorrows := Finset.insert_subset hslot h.mustBorrows }
    by_cases heq : place.instruction.slot = k
    · exact heq ▸ hslot
    · simp [Std.ExtTreeMap.getElem?_insert, heq] at hk
      exact h.borrows k (by simpa using hk)
  · refine { h with borrows := fun k hk => ?_,
                    mustBorrows := (Finset.erase_subset _ _).trans h.mustBorrows }
    by_cases heq : place.instruction.slot = k
    · exact heq ▸ hslot
    · simp [Std.ExtTreeMap.getElem?_erase, heq] at hk
      exact h.borrows k (by simpa using hk)
  · split
    next id htarget =>
      refine { h with droppedParams := Finset.insert_subset ?_ h.droppedParams }
      unfold dropTarget at htarget
      split at htarget
      · cases htarget
      · simp only at htarget
        split at htarget
        · cases htarget
          exact List.mem_toFinset.mpr (List.mem_map_of_mem hplace)
        · split at htarget <;> cases htarget
    next id htarget =>
      exact { h with dropped :=
        Finset.insert_subset (mem_slotUniverse_of_dropTarget hplace htarget) h.dropped }
    next => exact h
  · exact h

/-- A larger state before an instruction gives a larger state after it. -/
theorem applyInstruction_mono {a b : FlowState} (h : a ≤ b) (instruction : Instruction) :
    applyInstruction f instruction a ≤ applyInstruction f instruction b := by
  unfold applyInstruction
  split
  · exact { h with dropped := Finset.erase_subset_erase _ h.dropped }
  · exact { h with moved := Finset.insert_subset_insert _ h.moved }
  · refine { h with borrows := fun k => ?_, mustBorrows := Finset.insert_subset_insert _ h.mustBorrows }
    by_cases heq : instruction.slot = k
    · subst heq
      exact Or.inr (Or.inl (by simp))
    · simpa [Std.ExtTreeMap.getElem?_insert, heq] using h.borrows k
  · refine { h with borrows := fun k => ?_, mustBorrows := Finset.erase_subset_erase _ h.mustBorrows }
    by_cases heq : instruction.slot = k
    · subst heq
      exact Or.inr (Or.inl (by simp))
    · simpa [Std.ExtTreeMap.getElem?_erase, heq] using h.borrows k
  · split
    next id _ => exact { h with droppedParams := Finset.insert_subset_insert _ h.droppedParams }
    next id _ => exact { h with dropped := Finset.insert_subset_insert _ h.dropped }
    next => exact h
  · exact h

theorem transfer_small {b : BasicBlock} (hb : b ∈ f.blocks) {input : FlowState} (h : Small f input) :
    Small f (transfer f b input).1 ∧ Small f (transfer f b input).2 := by
  refine escapeTransfer_keeps (fun _ _ => Small.sup) (fun instruction hmem state hstate => ?_) _ h
  obtain ⟨place, hplace, rfl⟩ := exists_position hb hmem
  exact hstate.applyInstruction hplace

/-- The ownership analysis is monotone, and its states can rise only so often. -/
theorem ownershipFlow_ascending (f : Function) :
    Ascending (incomingState f) (transferAt f) (fun states => Small f states.1 ∧ Small f states.2)
      (fun states => states.1.rank f + states.2.rank f) (flowHeight f) where
  gather_mono := by
    intro out out' id hout
    refine foldl_mergeFact_mono fun x hx => ?_
    simp only [List.mem_append, List.mem_filterMap, Option.map_eq_some_iff] at hx ⊢
    rcases hx with ⟨pred, hpred, states, hstates, rfl⟩ | ⟨pred, hpred, states, hstates, rfl⟩
    · obtain ⟨states', hstates', hle⟩ := hout pred states hstates
      exact ⟨states'.1, Or.inl ⟨pred, hpred, states', hstates', rfl⟩, hle.1⟩
    · obtain ⟨states', hstates', hle⟩ := hout pred states hstates
      exact ⟨states'.2, Or.inr ⟨pred, hpred, states', hstates', rfl⟩, hle.2⟩
  transfer_mono := by
    intro id input input' hle
    unfold transferAt
    split
    · exact ⟨hle, hle⟩
    · exact escapeTransfer_mono (fun i _ _ h => applyInstruction_mono h i) _ _ hle
  small_transfer := by
    intro out id input hout hinput
    have hsmall : Small f input := by
      refine foldl_mergeFact_keeps (fun _ _ => Small.sup) (fun x hx => ?_) (fun x hx => ?_) _ hinput
      · split at hx
        · cases hx
          exact Small.empty
        · cases hx
      · simp only [List.mem_append, List.mem_filterMap, Option.map_eq_some_iff] at hx
        rcases hx with ⟨pred, -, states, hstates, rfl⟩ | ⟨pred, -, states, hstates, rfl⟩
        · exact (hout pred states hstates).1
        · exact (hout pred states hstates).2
    unfold transferAt
    split
    · exact ⟨hsmall, hsmall⟩
    next b hb => exact transfer_small (blockAt_mem hb).1 hsmall
  rank_lt := by
    rintro ⟨a, u⟩ ⟨b, v⟩ ⟨ha, hu⟩ ⟨hb, hv⟩ hlt
    by_contra hrank
    simp only at ha hu hb hv hrank
    have hab : a ≤ b := hlt.le.1
    have huv : u ≤ v := hlt.le.2
    have hra := FlowLe.rank_le hab ha hb
    have hru := FlowLe.rank_le huv hu hv
    have heqa := FlowState.eq_of_rank hab ha hb (by omega)
    have hequ := FlowState.eq_of_rank huv hu hv (by omega)
    exact hlt.ne (by rw [heqa, hequ])
  rank_le := by
    intro states hsmall
    have hstate := hsmall.1.rank_le
    have hunwind := hsmall.2.rank_le
    unfold flowHeight
    omega

/-- The loop of the ownership analysis terminates on every function, and ends with a
    solution of its equations. -/
theorem solveOwnershipFlow_spec (f : Function) :
    ∃ flow, solveOwnershipFlow f = some flow ∧
      Solved (incomingState f) (transferAt f) (flowOrder f) flow :=
  solveFlow_spec (ownershipFlow_ascending f) (flowOrder f) (Nat.lt_succ_self _)

end

end zl.mir.Verifier
