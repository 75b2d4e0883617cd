import Mathlib
import Zl.Vm.Safepoint.History

open zl.transition

namespace zl.vm.safepoint

section
variable {Caller V P : Type}

/-- A collection runs when one caller collects, and no other does. -/
structure Exclusive (running : Bool) (stage : Caller → Stage) : Prop where
  collecting : running = true ↔ ∃ c id, stage c = .collecting id
  unique : ∀ c c' id id', stage c = .collecting id → stage c' = .collecting id' → c = c'

/-- What holds of a world that any run leads to. -/
structure WellFormed (w : World Caller V P) : Prop where
  recorded : Recorded w.coordinator w.history
  exclusive : Exclusive w.coordinator.collectionRunning w.stage

namespace WellFormed
variable {w : World Caller V P}

theorem publish (h : WellFormed w) (id : ParticipantId) (roots : GCRoots V P) :
    WellFormed (w.publish id roots) := by
  unfold World.publish
  split
  · next hcount => exact ⟨h.recorded.publish hcount roots, h.exclusive⟩
  · exact h

theorem release (h : WellFormed w) (hrunning : w.coordinator.collectionRunning = false)
    (id : ParticipantId) : WellFormed (w.release id) := by
  unfold World.release
  split
  · next hcount => exact ⟨h.recorded.release hrunning hcount, h.exclusive⟩
  · exact h

theorem request (h : WellFormed w) : WellFormed w.request := ⟨h.recorded.request, h.exclusive⟩

theorem not_running_of_not_requested (h : WellFormed w)
    (hrequested : ¬ w.coordinator.collectionRequested = true) :
    w.coordinator.collectionRunning = false :=
  Bool.eq_false_iff.mpr fun hrun => hrequested (h.recorded.requested hrun)

end WellFormed

@[simp]
theorem stage_publish (w : World Caller V P) (id : ParticipantId) (roots : GCRoots V P) :
    (w.publish id roots).stage = w.stage := by
  unfold World.publish
  split <;> rfl

@[simp]
theorem stage_release (w : World Caller V P) (id : ParticipantId) : (w.release id).stage = w.stage := by
  unfold World.release
  split <;> rfl

@[simp]
theorem collectionRunning_release (w : World Caller V P) (id : ParticipantId) :
    (w.release id).coordinator.collectionRunning = w.coordinator.collectionRunning := by
  unfold World.release
  split <;> rfl

variable [DecidableEq Caller]

theorem Exclusive.move {running : Bool} {stage : Caller → Stage} {c : Caller} {target : Stage}
    (h : Exclusive running stage) (hc : ∀ id, stage c ≠ .collecting id)
    (htarget : ∀ id, target ≠ .collecting id) :
    Exclusive running (Function.update stage c target) := by
  have hsame (c' : Caller) (id : ParticipantId) :
      Function.update stage c target c' = .collecting id ↔ stage c' = .collecting id := by
    by_cases heq : c' = c
    · subst heq
      rw [Function.update_self]
      exact ⟨fun h => absurd h (htarget id), fun h => absurd h (hc id)⟩
    · rw [Function.update_of_ne heq]
  refine ⟨?_, fun c c' id id' h1 h2 => h.unique c c' id id' ((hsame _ _).mp h1) ((hsame _ _).mp h2)⟩
  simp only [hsame]
  exact h.collecting

theorem Exclusive.start {stage : Caller → Stage} (h : Exclusive false stage) (c : Caller)
    (id : ParticipantId) : Exclusive true (Function.update stage c (.collecting id)) := by
  have hnone (c' : Caller) (id' : ParticipantId) : stage c' ≠ .collecting id' := fun heq =>
    Bool.false_ne_true (h.collecting.mpr ⟨c', id', heq⟩)
  have honly {c' : Caller} {id' : ParticipantId}
      (hc : Function.update stage c (.collecting id) c' = .collecting id') : c' = c := by
    by_contra heq
    rw [Function.update_of_ne heq] at hc
    exact hnone c' id' hc
  refine ⟨iff_of_true rfl ⟨c, id, Function.update_self ..⟩, fun c₁ c₂ id₁ id₂ h₁ h₂ => ?_⟩
  rw [honly h₁, honly h₂]

theorem Exclusive.finish {running : Bool} {stage : Caller → Stage} {c : Caller} {id : ParticipantId}
    {target : Stage} (h : Exclusive running stage) (hc : stage c = .collecting id)
    (htarget : ∀ id, target ≠ .collecting id) : Exclusive false (Function.update stage c target) := by
  have hnone (c' : Caller) (id' : ParticipantId) :
      Function.update stage c target c' ≠ .collecting id' := by
    by_cases heq : c' = c
    · subst heq
      rw [Function.update_self]
      exact htarget id'
    · rw [Function.update_of_ne heq]
      exact fun hc' => heq (h.unique c' c id' id hc' hc)
  exact ⟨iff_of_false Bool.false_ne_true fun hc => hc.elim fun c' hc => hc.elim (hnone c'),
    fun c₁ _ id₁ _ h₁ _ => absurd h₁ (hnone c₁ id₁)⟩

namespace WellFormed
variable {w : World Caller V P} {c : Caller}

theorem move (h : WellFormed w) {target : Stage} (hc : ∀ id, w.stage c ≠ .collecting id)
    (htarget : ∀ id, target ≠ .collecting id) : WellFormed (w.move c target) :=
  ⟨h.recorded, h.exclusive.move hc htarget⟩

theorem endCollection (h : WellFormed w)
    (hc : w.coordinator.collectionRunning = true → ∃ id, w.stage c = .collecting id) {target : Stage}
    (htarget : ∀ id, target ≠ .collecting id) : WellFormed (w.endCollection.move c target) := by
  refine ⟨h.recorded.finish, ?_⟩
  change Exclusive false (Function.update w.stage c target)
  cases hrun : w.coordinator.collectionRunning with
  | true =>
    obtain ⟨id, hid⟩ := hc hrun
    exact h.exclusive.finish hid htarget
  | false =>
    have hexclusive := h.exclusive
    rw [hrun] at hexclusive
    exact hexclusive.move (fun id hid =>
      Bool.false_ne_true (hexclusive.collecting.mpr ⟨c, id, hid⟩)) htarget

theorem collectionFailed (h : WellFormed w)
    (hc : w.coordinator.collectionRunning = true → ∃ id, w.stage c = .collecting id)
    (id : ParticipantId) : WellFormed (w.collectionFailed c id) := by
  have hcomm : w.collectionFailed c id = (w.endCollection.move c .idle).release id := by
    unfold World.collectionFailed World.release World.move
    dsimp only
    split <;> rfl
  have hended : WellFormed (w.endCollection.move c .idle) := h.endCollection hc nofun
  rw [hcomm]
  exact hended.release rfl id

/-- The head of the loop, which a caller reaches while it does not collect. -/
theorem loop (h : WellFormed w) (hc : ∀ id, w.stage c ≠ .collecting id) (id : ParticipantId)
    (gathered : Bool) : WellFormed (w.loop c id gathered) := by
  unfold World.loop
  split
  · next hrequested =>
    split
    · exact h.move hc nofun
    · next hready =>
      have hrunning : w.coordinator.collectionRunning = false :=
        Bool.eq_false_iff.mpr fun hrun => hready (Or.inl hrun)
      have hparked : w.coordinator.allParked = true := by
        by_contra hnot
        exact hready (Or.inr hnot)
      split
      · refine ⟨h.recorded.start hrequested hrunning hparked, ?_⟩
        have hexclusive := h.exclusive
        rw [hrunning] at hexclusive
        exact hexclusive.start c id
      · refine h.collectionFailed (fun hrun => ?_) id
        rw [hrunning] at hrun
        cases hrun
  · next hrequested =>
    refine (h.release (h.not_running_of_not_requested hrequested) id).move ?_ nofun
    rw [stage_release]
    exact hc

theorem join (h : WellFormed w) (hc : ∀ id, w.stage c ≠ .collecting id) (id : ParticipantId)
    (roots : GCRoots V P) (pressure gathered : Bool) :
    WellFormed (w.join c id roots pressure gathered) := by
  unfold World.join
  split
  · exact h.move hc nofun
  · split
    · refine (h.request.publish id roots).loop ?_ id gathered
      rw [stage_publish]
      exact hc
    · exact h.move hc nofun

/-- Every section, taken by any caller at any time, keeps the world well formed. -/
theorem step (h : WellFormed w) {a : Action Caller V P} {w' : World Caller V P} (hstep : Step w a w') :
    WellFormed w' := by
  cases a with
  | registerParticipant =>
    obtain ⟨hrunning, hw⟩ := Option.ite_none_left_eq_some.mp hstep
    cases hw
    exact ⟨h.recorded.emplace (Bool.eq_false_iff.mpr hrunning), h.exclusive⟩
  | unregisterParticipant id =>
    obtain ⟨hrunning, hw⟩ := Option.ite_none_left_eq_some.mp hstep
    cases hw
    unfold World.unregisterParticipant
    split
    · exact ⟨h.recorded.erase (Bool.eq_false_iff.mpr hrunning) id, h.exclusive⟩
    · exact h
  | beginBlockingNative id roots =>
    cases hstep
    exact h.publish id roots
  | endBlockingNative id =>
    obtain ⟨hrunning, hw⟩ := Option.ite_none_left_eq_some.mp hstep
    cases hw
    exact h.release (Bool.eq_false_iff.mpr hrunning) id
  | poll c id pressure =>
    obtain ⟨hstage, hw⟩ := Option.ite_none_right_eq_some.mp hstep
    split at hw <;> cases hw
    · refine h.move ?_ nofun
      rw [hstage]
      nofun
    · exact h
  | sampled c id roots pressure gathered =>
    obtain ⟨hstage, hw⟩ := Option.ite_none_right_eq_some.mp hstep
    cases hw
    refine h.join ?_ id roots pressure gathered
    rw [hstage]
    nofun
  | woken c id gathered =>
    obtain ⟨hstage, hw⟩ := Option.ite_none_right_eq_some.mp hstep
    cases hw
    refine h.loop ?_ id gathered
    rw [hstage]
    nofun
  | collected c id =>
    obtain ⟨hstage, hw⟩ := Option.ite_none_right_eq_some.mp hstep
    cases hw
    exact h.endCollection (fun _ => ⟨id, hstage⟩) nofun
  | failed c id =>
    obtain ⟨hstage, hw⟩ := Option.ite_none_right_eq_some.mp hstep
    cases hw
    exact h.collectionFailed (fun _ => ⟨id, hstage⟩) id
  | reclaimed c id gathered =>
    obtain ⟨hstage, hw⟩ := Option.ite_none_right_eq_some.mp hstep
    cases hw
    refine h.loop ?_ id gathered
    rw [hstage]
    nofun

omit [DecidableEq Caller] in
theorem initial : WellFormed ({} : World Caller V P) :=
  ⟨.initial, iff_of_false nofun nofun, nofun⟩

end WellFormed

end

section
variable {Caller V P : Type} {w : World Caller V P}

/-- The participants that are registered. -/
def World.registered (w : World Caller V P) : List ParticipantId := w.coordinator.participants.map (·.1)

theorem registered_publish (w : World Caller V P) (id : ParticipantId) (roots : GCRoots V P) :
    (w.publish id roots).registered = w.registered := by
  unfold World.publish
  split
  · unfold World.registered CoordinatorState.setParticipant
    rw [List.map_map]
    refine List.map_congr_left fun e _ => ?_
    rw [Function.comp_apply]
    split
    · next heq => exact heq.symm
    · rfl
  · rfl

theorem collectionRunning_publish (w : World Caller V P) (id : ParticipantId) (roots : GCRoots V P) :
    (w.publish id roots).coordinator.collectionRunning = w.coordinator.collectionRunning := by
  unfold World.publish
  split <;> rfl

theorem collectionRequested_publish (w : World Caller V P) (id : ParticipantId) (roots : GCRoots V P) :
    (w.publish id roots).coordinator.collectionRequested = w.coordinator.collectionRequested := by
  unfold World.publish
  split <;> rfl

variable [DecidableEq Caller]

/-- Who comes to the head of the loop while a collection runs waits for its end. -/
theorem loop_of_running {c : Caller} {id : ParticipantId} {gathered : Bool}
    (hrequested : w.coordinator.collectionRequested = true)
    (hrunning : w.coordinator.collectionRunning = true) :
    w.loop c id gathered = w.move c (.waiting id) := by
  rw [World.loop, if_pos hrequested, if_pos (Or.inl hrunning)]

theorem registered_join {c : Caller} {id : ParticipantId} {roots : GCRoots V P} {pressure gathered : Bool}
    (hrunning : w.coordinator.collectionRunning = true) :
    (w.join c id roots pressure gathered).registered = w.registered := by
  unfold World.join
  split
  · rfl
  · split
    · rw [loop_of_running (by rw [collectionRequested_publish]; rfl)
        (by rw [collectionRunning_publish]; exact hrunning)]
      exact registered_publish w.request id roots
    · rfl

/-- A section during a collection that does not end it registers and unregisters nobody. -/
theorem registered_step (h : WellFormed w) {a : Action Caller V P} {w' : World Caller V P}
    (hstep : Step w a w') (hrunning : w.coordinator.collectionRunning = true)
    (hgoes : w'.coordinator.collectionRunning = true) : w'.registered = w.registered := by
  have hrequested := h.recorded.requested hrunning
  cases a with
  | registerParticipant => exact absurd hrunning (Option.ite_none_left_eq_some.mp hstep).1
  | unregisterParticipant id => exact absurd hrunning (Option.ite_none_left_eq_some.mp hstep).1
  | endBlockingNative id => exact absurd hrunning (Option.ite_none_left_eq_some.mp hstep).1
  | beginBlockingNative id roots =>
    cases hstep
    exact registered_publish w id roots
  | poll c id pressure =>
    obtain ⟨hstage, hw⟩ := Option.ite_none_right_eq_some.mp hstep
    split at hw <;> cases hw <;> rfl
  | sampled c id roots pressure gathered =>
    obtain ⟨hstage, hw⟩ := Option.ite_none_right_eq_some.mp hstep
    cases hw
    exact registered_join hrunning
  | woken c id gathered =>
    obtain ⟨hstage, hw⟩ := Option.ite_none_right_eq_some.mp hstep
    cases hw
    rw [loop_of_running hrequested hrunning]
    rfl
  | reclaimed c id gathered =>
    obtain ⟨hstage, hw⟩ := Option.ite_none_right_eq_some.mp hstep
    cases hw
    rw [loop_of_running hrequested hrunning]
    rfl
  | collected c id =>
    obtain ⟨hstage, hw⟩ := Option.ite_none_right_eq_some.mp hstep
    cases hw
    cases hgoes
  | failed c id =>
    obtain ⟨hstage, hw⟩ := Option.ite_none_right_eq_some.mp hstep
    cases hw
    unfold World.collectionFailed World.move at hgoes
    dsimp only at hgoes
    rw [collectionRunning_release] at hgoes
    cases hgoes

end

section
variable {Caller V P : Type}

/-- What a stop-the-world rendezvous promises of a state and of what led to it. -/
structure StopTheWorld (w : World Caller V P) : Prop where
  running : w.coordinator.collectionRunning = true ↔ ∃ c id, w.stage c = .collecting id
  exclusive : ∀ c c' id id', w.stage c = .collecting id → w.stage c' = .collecting id' → c = c'
  recorded : openCollection w.history = w.coordinator.collectionRunning
  parked : w.coordinator.collectionRunning = true → ∀ e ∈ w.coordinator.participants,
    e.2.parked = true ∧ parkedRoots w.history e.1 = some e.2.roots
  undisturbed : ∀ event before, event :: before <:+ w.history → Undisturbed event before
  included : ∀ event before, event :: before <:+ w.history → IncludesParked event before

theorem WellFormed.stops {w : World Caller V P} (h : WellFormed w) : StopTheWorld w where
  running := h.exclusive.collecting
  exclusive := h.exclusive.unique
  recorded := h.recorded.running
  parked hrunning e he := by
    have hparked := h.recorded.parked hrunning e he
    exact ⟨hparked, (h.recorded.roots e he).trans (if_pos hparked)⟩
  undisturbed := h.recorded.undisturbed
  included := h.recorded.included

variable [DecidableEq Caller]

/-- In whatever order its callers take their sections: a collection that runs has every
    participant parked with its last snapshot, it alone, until it ends, and it started from the
    snapshot of whoever was parked. -/
theorem stopTheWorld {w : World Caller V P} {past : List (World Caller V P × Action Caller V P)}
    (hrun : Run Initial Step w past) :
    StopTheWorld w ∧
      ∀ a w', Step w a w' → w.coordinator.collectionRunning = true →
        w'.coordinator.collectionRunning = true → w'.registered = w.registered := by
  have h : WellFormed w := hrun.invariant_of_all WellFormed
    (fun w hw => by rw [show w = {} from hw]; exact .initial) fun w a w' h hstep => h.step hstep
  exact ⟨h.stops, fun a w' hstep => registered_step h hstep⟩

private theorem run_next {w w' : World Caller V P}
    {past : List (World Caller V P × Action Caller V P)} (hrun : Run Initial Step w past)
    (a : Action Caller V P) (hnext : next w a = some w') : Run Initial Step w' ((w, a) :: past) :=
  hrun.step hnext

/-- One participant waits in a native call when another polls and collects. -/
theorem stopTheWorld_nativeWaiter : ∃ w : World Nat Nat Nat,
    w.coordinator.collectionRunning = true ∧ w.registered = [1, 2] ∧ StopTheWorld w := by
  have h₀ : Run Initial Step ({} : World Nat Nat Nat) [] := .start rfl
  have h₁ := run_next h₀ .registerParticipant rfl
  have h₂ := run_next h₁ .registerParticipant rfl
  have h₃ := run_next h₂ (.beginBlockingNative 2 { values := [11] }) rfl
  have h₄ := run_next h₃ (.poll 0 1 true) rfl
  have h₅ := run_next h₄ (.sampled 0 1 { values := [22] } true true) rfl
  exact ⟨_, rfl, rfl, (stopTheWorld h₅).1⟩

end

end zl.vm.safepoint
