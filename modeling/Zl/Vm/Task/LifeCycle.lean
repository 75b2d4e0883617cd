import Zl.Vm.Task.Cascade
import Zl.Vm.Task.Continuations
import Zl.Vm.Task.Termination

open zl.transition

namespace zl.vm.task

section
variable {Caller T V E : Type} [DecidableEq Caller] [DecidableEq T] {w w' : World Caller T V E}

theorem mem_pendingOf_of_runs_advance {c : Caller} {frames : List (Frame T)}
    (hadvance : w.advance c frames = some w') {k : Registration} (hk : w'.runs k ≠ w.runs k) :
    k ∈ pendingOf frames := by
  have hran {k' : Registration} (hne : k ≠ k') : (w.ran k').runs k = w.runs k :=
    Function.update_of_ne hne ..
  unfold World.advance at hadvance
  split at hadvance
  · cases hadvance
  · cases hadvance
    exact absurd rfl hk
  · next k' ks rest =>
    cases hadvance
    obtain rfl : k = k' := by_contra fun hne => hk (hran hne)
    exact List.mem_cons_self
  · cases hadvance
    exact absurd rfl hk
  · next t k' ks rest =>
    cases hadvance
    obtain rfl : k = k' := by_contra fun hne => hk (hran hne)
    exact List.mem_cons_self
  · cases hadvance
    exact absurd rfl hk
  · cases hadvance
    exact absurd rfl hk
  · split at hadvance <;> cases hadvance <;> exact absurd rfl hk
  · cases hadvance
    refine absurd ?_ hk
    unfold World.requestSection
    dsimp only
    split <;> rfl

theorem runs_enter (w : World Caller T V E) (c : Caller) (call : Call T V E) :
    (w.enter c call).runs = w.runs := by
  cases call with
  | start t => rfl
  | requestCancellation t => rfl
  | succeed t value =>
    rw [World.enter]
    split <;> rfl
  | fail t error =>
    rw [World.enter]
    split <;> rfl
  | cancel t =>
    rw [World.enter]
    split <;> rfl
  | addSpawnedChild t child =>
    rw [World.enter]
    unfold World.addSpawnedChild
    dsimp only
    split
    · rfl
    · split <;> rfl
  | «then» t =>
    rw [World.enter]
    unfold World.registerThen
    dsimp only
    split <;> rfl
  | onCancellation t =>
    rw [World.enter]
    unfold World.registerOnCancellation
    dsimp only
    split
    · rfl
    · split <;> rfl

theorem pending_of_runs {a : Action Caller T V E} (hstep : Step w a w') {k : Registration}
    (hk : w'.runs k ≠ w.runs k) : ∃ c, k ∈ pendingOf (w.stack c) := by
  cases a with
  | call c call =>
    cases hstep
    rw [runs_enter] at hk
    exact absurd rfl hk
  | advance c => exact ⟨c, mem_pendingOf_of_runs_advance hstep hk⟩
  | expire t =>
    cases hstep
    exact absurd rfl hk

/-- What holds of a world, of what led to it and of the next step. -/
structure LifeCycle (w : World Caller T V E) (past : List (World Caller T V E × Action Caller T V E)) :
    Prop where
  settled : ∀ p ∈ past, ∀ t, (p.1.tasks t).isTerminal = true → (w.tasks t).status = (p.1.tasks t).status
  continuation : ∀ k t, w.registered k = some (.then, t) →
    (k ∈ (w.tasks t).continuations ∧ ¬ (w.tasks t).isTerminal = true ∧ w.runs k = 0) ∨
    ((w.tasks t).isTerminal = true ∧ w.runs k = 0 ∧ ∃ c, k ∈ pendingOf (w.stack c)) ∨
    ((w.tasks t).isTerminal = true ∧ w.runs k = 1)
  observer : ∀ k t, w.registered k = some (.onCancellation, t) →
    w.runs k ≤ 1 ∧ (w.SettledUnrequested t → w.runs k = 0)
  due : ∀ a w', Step w a w' → ∀ k, w'.runs k ≠ w.runs k →
    ∃ kind t, w.registered k = some (kind, t) ∧ (w.tasks t).Due kind
  cascade : ∀ t ∈ w.returned, w.SettledUnrequested t ∨
    ∀ t', SpawnedUnder w t t' → w.Reached t' ∨ w.OwesBetween t t'

/-- The tasks of an earlier world never go back. -/
theorem later_of_run {past : List (World Caller T V E × Action Caller T V E)}
    (hrun : Run Initial Step w past) :
    ∀ p ∈ past, ∀ t, Later (p.1.tasks t) (w.tasks t) := by
  induction hrun with
  | start _ => exact nofun
  | step _ hstep ih =>
    intro p hp t
    cases List.mem_cons.mp hp with
    | inl heq =>
      rw [heq]
      exact later_step hstep t
    | inr hold => exact (ih p hold t).trans (later_step hstep t)

theorem linked_accounted_of_run {past : List (World Caller T V E × Action Caller T V E)}
    (hrun : Run Initial Step w past) : Linked w ∧ Accounted w := by
  refine hrun.invariant_of_all (fun w => Linked w ∧ Accounted w) (fun w hw => ?_) fun w a w' h hstep => ?_
  · rw [show w = {} from hw]
    exact ⟨.initial, .initial⟩
  · exact ⟨h.1.step hstep, h.2.step h.1.cancelled hstep⟩

omit [DecidableEq Caller] [DecidableEq T] in
/-- Where a continuation of `then` is. -/
theorem Accounted.continuation (h : Accounted w) {k : Registration} {t : T}
    (hregistered : w.registered k = some (.then, t)) :
    (k ∈ (w.tasks t).continuations ∧ ¬ (w.tasks t).isTerminal = true ∧ w.runs k = 0) ∨
    ((w.tasks t).isTerminal = true ∧ w.runs k = 0 ∧ ∃ c, k ∈ pendingOf (w.stack c)) ∨
    ((w.tasks t).isTerminal = true ∧ w.runs k = 1) := by
  by_cases hruns : w.runs k = 0
  · cases h.kept k t hregistered hruns with
    | inl hwaits =>
      obtain ⟨-, hnot, -⟩ := h.waiting t .then k hwaits
      exact Or.inl ⟨hwaits, hnot, hruns⟩
    | inr hpending =>
      obtain ⟨c, hk⟩ := hpending
      obtain ⟨kind, t', hregistered', hdue, -⟩ := h.pending c k hk
      rw [hregistered] at hregistered'
      cases hregistered'
      exact Or.inr (Or.inl ⟨hdue, hruns, c, hk⟩)
  · obtain ⟨hone, kind, t', hregistered', hdue⟩ := h.ran k hruns
    rw [hregistered] at hregistered'
    cases hregistered'
    exact Or.inr (Or.inr ⟨hdue, hone⟩)

omit [DecidableEq Caller] [DecidableEq T] in
theorem Accounted.observer (h : Accounted w) {k : Registration} {t : T}
    (hregistered : w.registered k = some (.onCancellation, t)) :
    w.runs k ≤ 1 ∧ (w.SettledUnrequested t → w.runs k = 0) := by
  by_cases hruns : w.runs k = 0
  · exact ⟨hruns ▸ Nat.zero_le 1, fun _ => hruns⟩
  · obtain ⟨hone, kind, t', hregistered', hdue⟩ := h.ran k hruns
    rw [hregistered] at hregistered'
    cases hregistered'
    refine ⟨Nat.le_of_eq hone, fun hsettled => ?_⟩
    have hnot := hsettled.2
    rw [show (w.tasks t).cancellationRequested = true from hdue] at hnot
    cases hnot

/-- In whatever order the sections of the calls are taken: settled tasks stay as they are, a
    continuation is run once, after what it waits for, and a request that has returned reaches
    what is spawned under its task but for what calls in progress still owe. These come to an end
    when there are finitely many tasks. -/
theorem lifeCycle {past : List (World Caller T V E × Action Caller T V E)}
    (hrun : Run Initial Step w past) :
    LifeCycle w past ∧
      (Finite T → ∀ (worlds : Nat → World Caller T V E) (actions : Nat → Action Caller T V E),
        worlds 0 = w → (∀ n, Step (worlds n) (actions n) (worlds (n + 1))) →
        ∀ c, (∀ n call, actions n ≠ .call c call) → ∃ N, ∀ n, N ≤ n → actions n ≠ .advance c) := by
  obtain ⟨hlinked, haccounted⟩ := linked_accounted_of_run hrun
  refine ⟨⟨fun p hp t hterminal => ((later_of_run hrun p hp t).settled hterminal).1,
    fun k t => haccounted.continuation, fun k t => haccounted.observer, fun a w' hstep k hk => ?_,
    fun t ht => ?_⟩, fun hfinite worlds actions _ hsteps c hcalls => ?_⟩
  · obtain ⟨c, hpending⟩ := pending_of_runs hstep hk
    obtain ⟨kind, t, hregistered, hdue, -⟩ := haccounted.pending c k hpending
    exact ⟨kind, t, hregistered, hdue⟩
  · cases hrequested : (w.tasks t).cancellationRequested with
    | true => exact Or.inr fun t' hunder => hlinked.reached_of_spawnedUnder hrequested hunder
    | false =>
      refine Or.inl ⟨(hlinked.returned t ht).resolve_left ?_, hrequested⟩
      rw [hrequested]
      exact Bool.false_ne_true
  · have := Fintype.ofFinite T
    exact finitely_many_advances worlds actions hsteps c hcalls

end

section
variable {T : Type} [DecidableEq T]

private theorem run_next {w w' : World Nat T Unit Unit}
    {past : List (World Nat T Unit Unit × Action Nat T Unit Unit)}
    (hrun : Run Initial Step w past) (a : Action Nat T Unit Unit) (hnext : next w a = some w') :
    Run Initial Step w' ((w, a) :: past) := hrun.step hnext

/-- A continuation registered before its task succeeds has run once. -/
theorem lifeCycle_succeeded : ∃ (w : World Nat Bool Unit Unit) (past : _),
    w.runs 0 = 1 ∧ LifeCycle w past := by
  have h₀ : Run Initial Step ({} : World Nat Bool Unit Unit) [] := .start rfl
  have h₁ := run_next h₀ (.call 0 (.then true)) rfl
  have h₂ := run_next h₁ (.call 0 (.succeed true ())) rfl
  have h₃ := run_next h₂ (.advance 0) rfl
  exact ⟨_, _, rfl, (lifeCycle h₃).1⟩

/-- A child that has succeeded does not pass a request on: what it spawned runs on after the
    request to cancel its parent has returned, with no call in progress. -/
theorem succeededChild_stops_cascade : ∃ (w : World Nat Nat Unit Unit) (past : _),
    Run Initial Step w past ∧ (∀ c, w.stack c = []) ∧ 0 ∈ w.returned ∧
      Relation.TransGen (fun t t' => t' ∈ (w.tasks t).spawnedChildren) 0 2 ∧ w.expired 2 = false ∧
      (w.tasks 2).isTerminal = false ∧ (w.tasks 2).cancellationRequested = false := by
  have h₀ : Run Initial Step ({} : World Nat Nat Unit Unit) [] := .start rfl
  have h₁ := run_next h₀ (.call 0 (.addSpawnedChild 0 1)) rfl
  have h₂ := run_next h₁ (.call 0 (.addSpawnedChild 1 2)) rfl
  have h₃ := run_next h₂ (.call 0 (.succeed 1 ())) rfl
  have h₄ := run_next h₃ (.advance 0) rfl
  have h₅ := run_next h₄ (.call 0 (.requestCancellation 0)) rfl
  have h₆ := run_next h₅ (.advance 0) rfl
  have h₇ := run_next h₆ (.advance 0) rfl
  have h₈ := run_next h₇ (.advance 0) rfl
  have h₉ := run_next h₈ (.advance 0) rfl
  have h₁₀ := run_next h₉ (.advance 0) rfl
  refine ⟨_, _, h₁₀, fun c => ?_, List.mem_singleton_self 0, ?_, rfl, rfl, rfl⟩
  · cases c <;> rfl
  · exact .tail (.single (List.mem_singleton_self 1)) (List.mem_singleton_self 2)

end

end zl.vm.task
