import Mathlib.Data.List.Perm.Subperm
import Mathlib.Data.List.Nodup
import Zl.Vm.Channel.ChannelState

open zl.transition zl.vm.task

namespace zl.vm.channel

section
variable {Op V : Type}

namespace World
variable (w : World Op V)

/-- The tasks that wait in a queue of the channel. -/
def queued : List Op := w.pendingSends.map (·.task) ++ w.pendingReceives

/-- The tasks that a call has taken out of a queue, or made, and has not completed yet. -/
def handedOff : List Op := w.completions.map (·.task)

/-- The tasks that the channel or a call may still complete. -/
def refs : List Op := w.queued ++ w.handedOff

/-- The call has had its first section. -/
def Begun (c : Op) : Prop := w.phase c ≠ .idle ∧ w.phase c ≠ .ready

/-- The call makes a task. -/
def Async (c : Op) : Prop := (w.operation c).any Operation.isAsync = true

/-- The call has noticed that the task it cancels is not pending any more. -/
def Noticed (c : Op) : Prop := w.phase c = .requesting ∨ ∃ observers, w.phase c = .observing observers

end World

/-- Each task is in at most one queue or in the hands of one call, and has the status that goes
    with it. -/
structure Tasks (w : World Op V) : Prop where
  refs_nodup : w.refs.Nodup
  refs_begun : ∀ t ∈ w.refs, w.Begun t
  refs_async : ∀ t ∈ w.refs, w.Async t
  queued : ∀ t ∈ w.queued, (w.tasks t).status = .Pending ∨ (w.tasks t).status = .Cancelled
  handed : ∀ k ∈ w.completions, (w.tasks k.task).status = if k.started then .Running else .Pending
  fresh : ∀ t, ¬ w.Begun t → w.tasks t = {}
  blocking : ∀ t, ¬ w.Async t → (w.tasks t).status = .Pending
  target : ∀ c t, w.operation c = some (.cancel t) → w.phase t = .returned none ∧ w.Async t
  noticed : ∀ c t, w.operation c = some (.cancel t) → w.Noticed c → (w.tasks t).status ≠ .Pending
  sends : ∀ p ∈ w.pendingSends, w.operation p.task = some (.sendAsync p.value)

variable {w w' : World Op V} {c t : Op} {phase : Phase Op V}

theorem live_iff : w.live t = true ↔ (w.tasks t).isTerminal = false := by simp [World.live]

theorem Tasks.pending_of_live (h : Tasks w) (ht : t ∈ w.queued) (hlive : w.live t = true) :
    (w.tasks t).status = .Pending := by
  rcases h.queued t ht with hpending | hcancelled
  · exact hpending
  · rw [live_iff, RuntimeTaskState.isTerminal, hcancelled] at hlive
    cases hlive

theorem Tasks.cancelled_of_dead (h : Tasks w) (ht : t ∈ w.queued) (hdead : w.live t = false) :
    (w.tasks t).status = .Cancelled := by
  rcases h.queued t ht with hpending | hcancelled
  · rw [World.live, RuntimeTaskState.isTerminal, hpending] at hdead
    cases hdead
  · exact hcancelled

theorem Tasks.completion_unique (h : Tasks w) {k k' : Completion Op V} (hk : k ∈ w.completions)
    (hk' : k' ∈ w.completions) (heq : k.task = k'.task) : k = k' :=
  List.inj_on_of_nodup_map (List.nodup_append'.mp h.refs_nodup).2.1 hk hk' heq

theorem Tasks.not_queued (h : Tasks w) {k : Completion Op V} (hk : k ∈ w.completions) :
    k.task ∉ w.queued :=
  fun hqueued => (List.nodup_append'.mp h.refs_nodup).2.2 hqueued (List.mem_map_of_mem hk)

theorem not_begun_of_ready (hready : w.phase c = .ready) : ¬ w.Begun c := fun h => h.2 hready

theorem Tasks.ready_notMem (h : Tasks w) (hready : w.phase c = .ready) : c ∉ w.refs :=
  fun hc => not_begun_of_ready hready (h.refs_begun c hc)

theorem Tasks.dropQueues (h : Tasks w) {sends : List (PendingSend Op V)} {receives : List Op}
    (hsends : sends.Sublist w.pendingSends) (hreceives : receives.Sublist w.pendingReceives) :
    Tasks { w with pendingSends := sends, pendingReceives := receives } := by
  have hqueued : (World.queued
      { w with pendingSends := sends, pendingReceives := receives }).Sublist w.queued :=
    (hsends.map _).append hreceives
  have hrefs : (World.refs { w with pendingSends := sends, pendingReceives := receives }).Sublist
      w.refs :=
    hqueued.append (List.Sublist.refl _)
  exact ⟨hrefs.nodup h.refs_nodup, fun t ht => h.refs_begun t (hrefs.subset ht), fun t ht =>
    h.refs_async t (hrefs.subset ht), fun t ht => h.queued t (hqueued.subset ht), h.handed, h.fresh,
    h.blocking, h.target, h.noticed, fun p hp => h.sends p (hsends.subset hp)⟩

variable [DecidableEq Op]

/-- A section of a call that makes a task, takes tasks out of the queues, or puts its own into one. -/
theorem Tasks.section (h : Tasks w) (hready : w.phase c = .ready)
    (hphase : w'.phase = Function.update w.phase c phase)
    (hbegun : phase ≠ .idle ∧ phase ≠ .ready) (hnoticed : phase ≠ .requesting ∧ ∀ observers,
      phase ≠ .observing observers)
    (hoperation : w'.operation = w.operation) (hstatus : ∀ t, (w'.tasks t).status = (w.tasks t).status)
    (htasks : ∀ t, t ≠ c → w'.tasks t = w.tasks t) (hrefs : w'.refs.Subperm (c :: w.refs))
    (hasync : c ∈ w'.refs → w.Async c) (hqueued : ∀ t ∈ w'.queued, t ∈ w.queued ∨ t = c)
    (hhanded : ∀ k ∈ w'.completions, k ∈ w.completions ∨
      k.started = false ∧ (k.task = c ∨ k.task ∈ w.queued ∧ w.live k.task = true))
    (hsends : ∀ p ∈ w'.pendingSends, p ∈ w.pendingSends ∨
      w.operation p.task = some (.sendAsync p.value)) :
    Tasks w' := by
  have hfresh : w.tasks c = {} := h.fresh c (not_begun_of_ready hready)
  have hother {t : Op} (ht : t ≠ c) : w'.phase t = w.phase t := by rw [hphase, Function.update_of_ne ht]
  have hown : w'.phase c = phase := by rw [hphase, Function.update_self]
  have hbegunOther {t : Op} (ht : w.Begun t) : w'.Begun t := by
    have hne : t ≠ c := fun heq => not_begun_of_ready hready (heq ▸ ht)
    exact ⟨fun hp => ht.1 ((hother hne).symm.trans hp), fun hp => ht.2 ((hother hne).symm.trans hp)⟩
  have hbegunOwn : w'.Begun c := by
    rw [World.Begun, hown]
    exact hbegun
  have hasyncEq (t : Op) : w'.Async t ↔ w.Async t := by rw [World.Async, hoperation, World.Async]
  have hmem {t : Op} (ht : t ∈ w'.refs) : t = c ∨ t ∈ w.refs := List.mem_cons.mp (hrefs.subset ht)
  refine ⟨?_, fun t ht => ?_, fun t ht => ?_, fun t ht => ?_, fun k hk => ?_, fun t ht => ?_,
    fun t ht => ?_, fun d t hd => ?_, fun d t hd hnote => ?_, fun p hp => ?_⟩
  · obtain ⟨l, hperm, hsub⟩ := hrefs
    exact hperm.nodup_iff.mp (hsub.nodup (List.nodup_cons.mpr ⟨h.ready_notMem hready, h.refs_nodup⟩))
  · rcases hmem ht with rfl | ht
    · exact hbegunOwn
    · exact hbegunOther (h.refs_begun t ht)
  · rw [hasyncEq]
    rcases hmem ht with rfl | hold
    · exact hasync ht
    · exact h.refs_async t hold
  · rw [hstatus]
    rcases hqueued t ht with hold | rfl
    · exact h.queued t hold
    · rw [hfresh]
      exact .inl rfl
  · rw [hstatus]
    rcases hhanded k hk with hold | ⟨hstarted, hc | ⟨hwaits, hlive⟩⟩
    · exact h.handed k hold
    · rw [hc, hfresh, hstarted]
      rfl
    · rw [h.pending_of_live hwaits hlive, hstarted]
      rfl
  · have hne : t ≠ c := fun heq => ht (heq ▸ hbegunOwn)
    rw [htasks t hne]
    exact h.fresh t fun hb => ht (hbegunOther hb)
  · rw [hstatus]
    exact h.blocking t fun ha => ht ((hasyncEq t).mpr ha)
  · rw [hoperation] at hd
    obtain ⟨hreturned, ha⟩ := h.target d t hd
    have hne : t ≠ c := fun heq => by
      rw [heq, hready] at hreturned
      cases hreturned
    exact ⟨(hother hne).trans hreturned, (hasyncEq t).mpr ha⟩
  · rw [hoperation] at hd
    rw [hstatus]
    refine h.noticed d t hd ?_
    have hne : d ≠ c := fun heq => by
      rw [World.Noticed, heq, hown] at hnote
      rcases hnote with hnote | ⟨observers, hnote⟩
      · exact hnoticed.1 hnote
      · exact hnoticed.2 observers hnote
    rwa [World.Noticed, hother hne] at hnote
  · rw [hoperation]
    exact (hsends p hp).elim (h.sends p) id

theorem Tasks.setPhase (h : Tasks w) (hfrom : w.phase c ≠ .returned none)
    (hbegun : phase ≠ .idle ∧ phase ≠ .ready) (hnoticed : ∀ t, w.operation c = some (.cancel t) →
      (phase = .requesting ∨ ∃ observers, phase = .observing observers) →
      (w.tasks t).status ≠ .Pending) : Tasks (w.setPhase c phase) := by
  have hother {t : Op} (ht : t ≠ c) : (w.setPhase c phase).phase t = w.phase t :=
    Function.update_of_ne ht _ _
  have hown : (w.setPhase c phase).phase c = phase := Function.update_self _ _ _
  have hbegun' {t : Op} (ht : w.Begun t) : (w.setPhase c phase).Begun t := by
    by_cases heq : t = c
    · rw [heq, World.Begun, hown]
      exact hbegun
    · rw [World.Begun, hother heq]
      exact ht
  refine ⟨h.refs_nodup, fun t ht => hbegun' (h.refs_begun t ht), h.refs_async, h.queued, h.handed,
    fun t ht => h.fresh t fun hb => ht (hbegun' hb), h.blocking, fun d t hd => ?_,
    fun d t hd hnote => ?_, h.sends⟩
  · obtain ⟨hreturned, ha⟩ := h.target d t hd
    have hne : t ≠ c := fun heq => hfrom (heq ▸ hreturned)
    exact ⟨(hother hne).trans hreturned, ha⟩
  · by_cases heq : d = c
    · rw [World.Noticed, heq, hown] at hnote
      exact hnoticed t (heq ▸ hd) hnote
    · rw [World.Noticed, hother heq] at hnote
      exact h.noticed d t hd hnote

theorem Tasks.begin (h : Tasks w) {operation : Operation Op V} (hidle : w.phase c = .idle)
    (hmay : w.mayBegin operation = true) :
    Tasks { w.setPhase c .ready with operation := Function.update w.operation c (some operation) } := by
  have hnot : ¬ w.Begun c := fun hb => hb.1 hidle
  have hne {t : Op} (ht : w.Begun t) : t ≠ c := fun heq => hnot (heq ▸ ht)
  have hother {t : Op} (ht : t ≠ c) : (w.setPhase c .ready).phase t = w.phase t :=
    Function.update_of_ne ht _ _
  have hoperation {t : Op} (ht : t ≠ c) : Function.update w.operation c (some operation) t =
      w.operation t :=
    Function.update_of_ne ht _ _
  have hbegun {t : Op} (ht : w.Begun t) : (w.setPhase c .ready).Begun t := by
    rw [World.Begun, hother (hne ht)]
    exact ht
  have hasync {t : Op} (ht : t ≠ c) (ha : w.Async t) :
      World.Async { w.setPhase c .ready with operation := Function.update w.operation c (some
        operation) } t := by
    change (Function.update w.operation c (some operation) t).any Operation.isAsync = true
    rw [hoperation ht]
    exact ha
  have hfresh {t : Op} (ht : ¬ (w.setPhase c .ready).Begun t) : w.tasks t = {} :=
    h.fresh t fun hb => ht (hbegun hb)
  have hreturned {t : Op} {result : Option (Item Op V)} (ht : w.phase t = .returned result) : t ≠ c := by
    rintro rfl
    rw [hidle] at ht
    cases ht
  refine ⟨h.refs_nodup, fun t ht => hbegun (h.refs_begun t ht), fun t ht =>
    hasync (hne (h.refs_begun t ht)) (h.refs_async t ht), h.queued, h.handed, fun t ht => hfresh ht,
    fun t ht => ?_, fun d t hd => ?_, fun d t hd hnote => ?_, fun p hp => ?_⟩
  · by_cases heq : t = c
    · change (w.tasks t).status = .Pending
      rw [heq, h.fresh c hnot]
    · exact h.blocking t fun ha => ht (hasync heq ha)
  · change Function.update w.operation c (some operation) d = _ at hd
    by_cases heq : d = c
    · rw [heq, Function.update_self] at hd
      cases hd
      unfold World.mayBegin at hmay
      split at hmay
      · next heq' =>
        cases heq'
        split at hmay
        · next hphase => exact ⟨(hother (hreturned hphase)).trans hphase, hasync (hreturned hphase) hmay⟩
        · cases hmay
      · next heq' => cases heq'
      · next heq' => cases heq'
      · next heq' => cases heq'
      · next heq' => cases heq'
    · rw [hoperation heq] at hd
      obtain ⟨hphase, ha⟩ := h.target d t hd
      exact ⟨(hother (hreturned hphase)).trans hphase, hasync (hreturned hphase) ha⟩
  · change Function.update w.operation c (some operation) d = _ at hd
    by_cases heq : d = c
    · have hready : (w.setPhase c .ready).phase d = .ready := by
        rw [heq]
        exact Function.update_self _ _ _
      rcases hnote with hnote | ⟨observers, hnote⟩
      · cases hready.symm.trans hnote
      · cases hready.symm.trans hnote
    · rw [hoperation heq] at hd
      refine h.noticed d t hd ?_
      have hsame := hother heq
      rcases hnote with hnote | ⟨observers, hnote⟩
      · exact .inl (hsame.symm.trans hnote)
      · exact .inr ⟨observers, hsame.symm.trans hnote⟩
  · have hwaits : p.task ∈ w.refs :=
      List.mem_append_left _ (List.mem_append_left _ (List.mem_map_of_mem hp))
    exact (hoperation (hne (h.refs_begun _ hwaits))).trans (h.sends p hp)

theorem Tasks.transition (h : Tasks w) {s : RuntimeTaskState Op (Option (Item Op V)) Unit}
    {completions : List (Completion Op V)} (hasync : w.Async t) (hbegun : w.Begun t)
    (hrefs : (completions.map (·.task)).Sublist w.handedOff)
    (hqueued : t ∈ w.queued → s.status = .Pending ∨ s.status = .Cancelled)
    (hhanded : ∀ k ∈ completions, k.task ≠ t ∧ k ∈ w.completions ∨
      k.task = t ∧ s.status = if k.started then .Running else .Pending)
    (hpending : s.status = .Pending → (w.tasks t).status = .Pending) :
    Tasks { w.setTask t s with completions := completions } := by
  have hother {u : Op} (hu : u ≠ t) : (w.setTask t s).tasks u = w.tasks u := Function.update_of_ne hu _ _
  have hown : (w.setTask t s).tasks t = s := Function.update_self _ _ _
  have hsub : (World.refs { w.setTask t s with completions := completions }).Sublist w.refs :=
    (List.Sublist.refl _).append hrefs
  refine ⟨hsub.nodup h.refs_nodup, fun u hu => h.refs_begun u (hsub.subset hu), fun u hu =>
    h.refs_async u (hsub.subset hu), fun u hu => ?_, fun k hk => ?_, fun u hu => ?_, fun u hu => ?_,
    h.target, fun d u hd hnote => ?_, h.sends⟩
  · change ((w.setTask t s).tasks u).status = _ ∨ ((w.setTask t s).tasks u).status = _
    by_cases heq : u = t
    · rw [heq, hown]
      exact hqueued (heq ▸ hu)
    · rw [hother heq]
      exact h.queued u hu
  · change ((w.setTask t s).tasks k.task).status = _
    rcases hhanded k hk with ⟨hne, hold⟩ | ⟨heq, hstatus⟩
    · rw [hother hne]
      exact h.handed k hold
    · rw [heq, hown, hstatus]
  · exact (hother fun heq => hu (heq ▸ hbegun)).trans (h.fresh u hu)
  · have hne : u ≠ t := fun heq => hu (heq ▸ hasync)
    change ((w.setTask t s).tasks u).status = _
    rw [hother hne]
    exact h.blocking u hu
  · change ((w.setTask t s).tasks u).status ≠ _
    have hold := h.noticed d u hd hnote
    by_cases heq : u = t
    · rw [heq, hown]
      exact fun hp => hold (heq ▸ hpending hp)
    · rwa [hother heq]

end

end zl.vm.channel
