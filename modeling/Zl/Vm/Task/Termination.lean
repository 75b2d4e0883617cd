import Mathlib
import Zl.Vm.Task.TaskState

open zl.transition

namespace zl.vm.task

section
variable {Caller T V E : Type}
variable {w w' : World Caller T V E} {c : Caller}

/-- A call that has not yet listed the children it cascades to. -/
def Frame.unlisted : Frame T → Nat
  | .notifying _ _ | .propagating _ => 1
  | .running _ | .cascading _ _ | .requesting _ => 0

/-- What a call has left to do, when it lists no children. -/
def Frame.weight : Frame T → Nat
  | .running ks => ks.length + 1
  | .notifying _ ks => ks.length + 2
  | .propagating _ => 1
  | .cascading _ children => 2 * children.length + 1
  | .requesting _ => 1

def unlisted (frames : List (Frame T)) : Nat := (frames.map Frame.unlisted).sum

def weight (frames : List (Frame T)) : Nat := (frames.map Frame.weight).sum

variable [Fintype T]

/-- The tasks whose cancellation is not requested. -/
def World.unrequested (w : World Caller T V E) : Nat :=
  (Finset.univ.filter fun t => (w.tasks t).cancellationRequested = false).card

/-- What a caller has left to do: a cascade goes on only to a task that is requested for the first
    time, and lists the children of each once. -/
def World.remaining (w : World Caller T V E) (c : Caller) : Nat ×ₗ Nat ×ₗ Nat :=
  toLex (w.unrequested, toLex (unlisted (w.stack c), weight (w.stack c)))

theorem unrequested_le (hlater : ∀ t, Later (w.tasks t) (w'.tasks t)) :
    w'.unrequested ≤ w.unrequested := by
  refine Finset.card_le_card fun t ht => ?_
  rw [Finset.mem_filter] at ht ⊢
  refine ⟨ht.1, Bool.eq_false_iff.mpr fun hrequested => ?_⟩
  rw [(hlater t).requested hrequested] at ht
  exact Bool.noConfusion ht.2

theorem unrequested_lt (hlater : ∀ t, Later (w.tasks t) (w'.tasks t)) {t : T}
    (hold : (w.tasks t).cancellationRequested = false) (hnew : (w'.tasks t).cancellationRequested = true) :
    w'.unrequested < w.unrequested := by
  refine Finset.card_lt_card (Finset.ssubset_iff_of_subset ?_ |>.mpr ⟨t, ?_, ?_⟩)
  · intro t' ht'
    rw [Finset.mem_filter] at ht' ⊢
    refine ⟨ht'.1, Bool.eq_false_iff.mpr fun hrequested => ?_⟩
    rw [(hlater t').requested hrequested] at ht'
    exact Bool.noConfusion ht'.2
  · exact Finset.mem_filter.mpr ⟨Finset.mem_univ t, hold⟩
  · rw [Finset.mem_filter, hnew]
    exact fun h => Bool.noConfusion h.2

theorem remaining_lt {old new : List (Frame T)} (hunrequested : w'.unrequested ≤ w.unrequested)
    (hold : w.stack c = old) (hnew : w'.stack c = new)
    (hframes : unlisted new < unlisted old ∨ unlisted new = unlisted old ∧ weight new < weight old) :
    w'.remaining c < w.remaining c := by
  have hinner : toLex (unlisted (w'.stack c), weight (w'.stack c)) <
      toLex (unlisted (w.stack c), weight (w.stack c)) := by
    rw [hold, hnew]
    exact Prod.Lex.toLex_lt_toLex.mpr hframes
  rcases Nat.lt_or_eq_of_le hunrequested with hlt | heq
  · exact Prod.Lex.toLex_lt_toLex.mpr (Or.inl hlt)
  · exact Prod.Lex.toLex_lt_toLex.mpr (Or.inr ⟨heq, hinner⟩)

omit [Fintype T] in
@[simp]
theorem unlisted_cons (frame : Frame T) (rest : List (Frame T)) :
    unlisted (frame :: rest) = frame.unlisted + unlisted rest := by
  unfold unlisted
  rw [List.map_cons, List.sum_cons]

omit [Fintype T] in
@[simp]
theorem weight_cons (frame : Frame T) (rest : List (Frame T)) :
    weight (frame :: rest) = frame.weight + weight rest := by
  unfold weight
  rw [List.map_cons, List.sum_cons]

theorem remaining_le (hunrequested : w'.unrequested ≤ w.unrequested)
    (hframes : w'.stack c = w.stack c) : w'.remaining c ≤ w.remaining c := by
  rcases Nat.lt_or_eq_of_le hunrequested with hlt | heq
  · exact le_of_lt (Prod.Lex.toLex_lt_toLex.mpr (Or.inl hlt))
  · unfold World.remaining
    rw [heq, hframes]

variable [DecidableEq Caller] [DecidableEq T]

/-- Going on with a call leaves less to do. -/
theorem remaining_advance (hadvance : w.advance c (w.stack c) = some w') :
    w'.remaining c < w.remaining c := by
  have hunrequested := unrequested_le (later_advance hadvance)
  cases hstack : w.stack c with
  | nil =>
    rw [hstack] at hadvance
    cases hadvance
  | cons frame rest =>
    rw [hstack] at hadvance
    cases frame with
    | running ks =>
      cases ks <;> cases hadvance
      · refine remaining_lt hunrequested hstack (Function.update_self ..) (Or.inr ⟨?_, ?_⟩)
        · simp only [unlisted_cons, Frame.unlisted, Nat.zero_add]
        · simp only [weight_cons, Frame.weight, List.length_nil]
          omega
      · refine remaining_lt hunrequested hstack (Function.update_self ..) (Or.inr ⟨rfl, ?_⟩)
        simp only [weight_cons, Frame.weight, List.length_cons]
        omega
    | notifying t ks =>
      cases ks <;> cases hadvance
      · refine remaining_lt hunrequested hstack (Function.update_self ..) (Or.inr ⟨rfl, ?_⟩)
        simp only [weight_cons, Frame.weight, List.length_nil]
        omega
      · refine remaining_lt hunrequested hstack (Function.update_self ..) (Or.inr ⟨rfl, ?_⟩)
        simp only [weight_cons, Frame.weight, List.length_cons]
        omega
    | propagating t =>
      cases hadvance
      refine remaining_lt hunrequested hstack (Function.update_self ..) (Or.inl ?_)
      simp only [unlisted_cons, Frame.unlisted]
      omega
    | cascading t children =>
      cases children with
      | nil =>
        cases hadvance
        refine remaining_lt hunrequested hstack (Function.update_self ..) (Or.inr ⟨?_, ?_⟩)
        · simp only [unlisted_cons, Frame.unlisted, Nat.zero_add]
        · simp only [weight_cons, Frame.weight, List.length_nil]
          omega
      | cons child children =>
        rw [World.advance] at hadvance
        split at hadvance <;> cases hadvance <;>
        · refine remaining_lt hunrequested hstack (Function.update_self ..) (Or.inr ⟨?_, ?_⟩)
          · simp only [unlisted_cons, Frame.unlisted, Nat.zero_add]
          · simp only [weight_cons, Frame.weight, List.length_cons]
            omega
    | requesting t =>
      cases hadvance
      unfold World.requestSection at hunrequested ⊢
      dsimp only at hunrequested ⊢
      split at hunrequested
      · next hdone =>
        rw [if_pos hdone]
        refine remaining_lt hunrequested hstack (Function.update_self ..) (Or.inr ⟨?_, ?_⟩)
        · simp only [unlisted_cons, Frame.unlisted, Nat.zero_add]
        · simp only [weight_cons, Frame.weight]
          omega
      · next hlive =>
        rw [if_neg hlive]
        have hold : (w.tasks t).cancellationRequested = false :=
          Bool.eq_false_iff.mpr fun hrequested => hlive (Or.inr hrequested)
        have hlater : Later (w.tasks t) (w.tasks t).requestCancellation :=
          .of_not_isTerminal (fun hterminal => hlive (Or.inl hterminal)) (fun _ => rfl) rfl
        rw [setStack_setTask_push]
        refine Prod.Lex.toLex_lt_toLex.mpr
          (Or.inl (unrequested_lt (fun t' => later_update hlater t') hold ?_))
        change (Function.update w.tasks t _ t).cancellationRequested = true
        rw [Function.update_self]
        rfl

omit [Fintype T] in
theorem stack_enter_of_ne (w : World Caller T V E) {c c' : Caller} (hne : c ≠ c') (call : Call T V E) :
    (w.enter c' call).stack c = w.stack c := by
  have hpush (w' : World Caller T V E) (frame : Frame T) : (w'.push c' frame).stack c = w'.stack c :=
    Function.update_of_ne hne ..
  cases call with
  | start t => rfl
  | requestCancellation t => exact hpush w _
  | succeed t value =>
    rw [World.enter]
    split
    · rfl
    · exact hpush _ _
  | fail t error =>
    rw [World.enter]
    split
    · rfl
    · exact hpush _ _
  | cancel t =>
    rw [World.enter]
    split
    · rfl
    · exact hpush _ _
  | addSpawnedChild t child =>
    rw [World.enter]
    unfold World.addSpawnedChild
    dsimp only
    split
    · rfl
    · split
      · exact hpush _ _
      · rfl
  | «then» t =>
    rw [World.enter]
    unfold World.registerThen
    dsimp only
    split
    · exact hpush _ _
    · rfl
  | onCancellation t =>
    rw [World.enter]
    unfold World.registerOnCancellation
    dsimp only
    split
    · exact hpush _ _
    · split <;> rfl

omit [Fintype T] in
theorem stack_advance_of_ne {c c' : Caller} (hne : c ≠ c') {frames : List (Frame T)}
    (hadvance : w.advance c' frames = some w') : w'.stack c = w.stack c := by
  have hset (w₁ : World Caller T V E) (frames : List (Frame T)) :
      (w₁.setStack c' frames).stack c = w₁.stack c :=
    Function.update_of_ne hne ..
  unfold World.advance at hadvance
  split at hadvance
  · cases hadvance
  · cases hadvance
    exact hset _ _
  · cases hadvance
    exact hset _ _
  · cases hadvance
    exact hset _ _
  · cases hadvance
    exact hset _ _
  · cases hadvance
    exact hset _ _
  · cases hadvance
    exact hset _ _
  · split at hadvance <;> cases hadvance <;> exact hset _ _
  · cases hadvance
    unfold World.requestSection
    dsimp only
    split
    · exact hset _ _
    · rw [setStack_setTask_push]
      exact hset _ _

/-- What the others do leaves a caller no more to do. -/
theorem remaining_step {a : Action Caller T V E} (hstep : Step w a w')
    (hcall : ∀ call, a ≠ .call c call) (hadvance : a ≠ .advance c) :
    w'.remaining c ≤ w.remaining c := by
  refine remaining_le (unrequested_le (later_step hstep)) ?_
  cases a with
  | call c' call =>
    cases hstep
    refine stack_enter_of_ne w (fun heq => hcall call ?_) call
    rw [heq]
  | advance c' => exact stack_advance_of_ne (fun heq => hadvance (heq ▸ rfl)) hstep
  | expire t =>
    cases hstep
    rfl

/-- Once it makes no new calls, a caller comes to the end of those it has made, also when
    the spawn links form a cycle. -/
theorem finitely_many_advances (w : Nat → World Caller T V E) (actions : Nat → Action Caller T V E)
    (hsteps : ∀ n, Step (w n) (actions n) (w (n + 1))) (c : Caller)
    (hcalls : ∀ n call, actions n ≠ .call c call) : ∃ N, ∀ n, N ≤ n → actions n ≠ .advance c := by
  have hlt (n : Nat) (hn : actions n = .advance c) : (w (n + 1)).remaining c < (w n).remaining c := by
    have hstep := hsteps n
    rw [hn] at hstep
    exact remaining_advance hstep
  refine finitely_often_of_descent (fun n => (w n).remaining c) (fun n => actions n = .advance c)
    (fun n => ?_) hlt
  by_cases hn : actions n = .advance c
  · exact le_of_lt (hlt n hn)
  · exact remaining_step (hsteps n) (hcalls n) hn

end

end zl.vm.task
