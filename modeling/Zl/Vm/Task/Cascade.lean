import Mathlib
import Zl.Vm.Task.TaskState

open zl.transition

namespace zl.vm.task

section
variable {Caller T V E : Type}
variable {w w' : World Caller T V E}

/-- A call that has still to request the cancellation of a child that it finds, or will
    find, among those of its parent. -/
def Frame.Owes (parent child : T) : Frame T → Prop
  | .running _ => False
  | .notifying t _ | .propagating t => t = parent
  | .cascading t children => t = parent ∧ child ∈ children
  | .requesting t => t = child

/-- A call that goes on with a task whose cancellation it has requested. -/
def Frame.Announces (t : T) : Frame T → Prop
  | .running _ | .requesting _ => False
  | .notifying t' _ | .propagating t' | .cascading t' _ => t' = t

/-- A task that a cascade has no more to do with. -/
def World.Reached (w : World Caller T V E) (t : T) : Prop :=
  (w.tasks t).cancellationRequested = true ∨ (w.tasks t).isTerminal = true ∨ w.expired t = true

/-- Every child of a task whose cancellation is requested is reached by the cascade, or a
    call in progress has yet to reach it. -/
structure Linked (w : World Caller T V E) : Prop where
  cancelled : ∀ t, (w.tasks t).status = .Cancelled → (w.tasks t).cancellationRequested = true
  cascaded : ∀ parent child, child ∈ (w.tasks parent).spawnedChildren →
    (w.tasks parent).cancellationRequested = true →
    w.Reached child ∨ ∃ c, ∃ frame ∈ w.stack c, frame.Owes parent child
  announced : ∀ c, ∀ frame ∈ w.stack c, ∀ t, frame.Announces t → (w.tasks t).cancellationRequested = true
  returned : ∀ t ∈ w.returned, (w.tasks t).cancellationRequested = true ∨ (w.tasks t).isTerminal = true

theorem World.Reached.later {t : T} (h : w.Reached t) (hlater : Later (w.tasks t) (w'.tasks t))
    (hexpired : w.expired t = true → w'.expired t = true) :
    w'.Reached t := by
  rcases h with hrequested | hterminal | hgone
  · exact Or.inl (hlater.requested hrequested)
  · exact Or.inr (Or.inl (hlater.isTerminal hterminal))
  · exact Or.inr (Or.inr (hexpired hgone))

/-- A step in which one caller goes on keeps the links, when what its calls owed is reached
    or still owed, and so is what the step adds. -/
theorem Linked.update (h : Linked w) (c : Caller) (hother : ∀ c', c' ≠ c → w'.stack c' = w.stack c')
    (hlater : ∀ t, Later (w.tasks t) (w'.tasks t))
    (hexpired : ∀ t, w.expired t = true → w'.expired t = true)
    (hcancelled : ∀ t, (w'.tasks t).status = .Cancelled → (w'.tasks t).cancellationRequested = true)
    (hlinks : ∀ parent child, child ∈ (w'.tasks parent).spawnedChildren →
      (w'.tasks parent).cancellationRequested = true →
      (child ∈ (w.tasks parent).spawnedChildren ∧ (w.tasks parent).cancellationRequested = true) ∨
        ∃ frame ∈ w'.stack c, frame.Owes parent child)
    (howed : ∀ parent, ∀ child ∈ (w.tasks parent).spawnedChildren, ∀ frame ∈ w.stack c,
      frame.Owes parent child → w'.Reached child ∨ ∃ frame ∈ w'.stack c, frame.Owes parent child)
    (hannounced : ∀ frame ∈ w'.stack c, ∀ t, frame.Announces t → (w'.tasks t).cancellationRequested = true)
    (hreturned : ∀ t ∈ w'.returned, (w'.tasks t).cancellationRequested = true ∨
      (w'.tasks t).isTerminal = true) : Linked w' where
  cancelled := hcancelled
  cascaded parent child hchild hrequested := by
    cases hlinks parent child hchild hrequested with
    | inr hnew => exact Or.inr ⟨c, hnew⟩
    | inl hold =>
      cases h.cascaded parent child hold.1 hold.2 with
      | inl hreached => exact Or.inl (hreached.later (hlater child) (hexpired child))
      | inr hframe =>
        obtain ⟨c', frame, hmem, howes⟩ := hframe
        by_cases heq : c' = c
        · subst heq
          exact (howed parent child hold.1 frame hmem howes).imp_right fun hnew => ⟨c', hnew⟩
        · rw [← hother c' heq] at hmem
          exact Or.inr ⟨c', frame, hmem, howes⟩
  announced c' frame hmem t hann := by
    by_cases heq : c' = c
    · subst heq
      exact hannounced frame hmem t hann
    · rw [hother c' heq] at hmem
      exact (hlater t).requested (h.announced c' frame hmem t hann)
  returned := hreturned

theorem Linked.returned_later (h : Linked w) (hlater : ∀ t, Later (w.tasks t) (w'.tasks t)) :
    ∀ t ∈ w.returned, (w'.tasks t).cancellationRequested = true ∨ (w'.tasks t).isTerminal = true :=
  fun t ht => (h.returned t ht).imp (hlater t).requested (hlater t).isTerminal

end

section
variable {Caller T V E : Type} [DecidableEq Caller] [DecidableEq T] {w : World Caller T V E}
variable {c : Caller}

/-- A step that changes one task, and puts frames in front of those of one caller. -/
theorem Linked.push (h : Linked w) (c : Caller) (t : T) (s : RuntimeTaskState T V E) (new : List (Frame T))
    (hlater : Later (w.tasks t) s) (hcancelled : s.status = .Cancelled → s.cancellationRequested = true)
    (hlinks : ∀ child ∈ s.spawnedChildren, s.cancellationRequested = true →
      (child ∈ (w.tasks t).spawnedChildren ∧ (w.tasks t).cancellationRequested = true) ∨
        ∃ frame ∈ new, frame.Owes t child)
    (hannounced : ∀ frame ∈ new, ∀ t', frame.Announces t' → t' = t ∧ s.cancellationRequested = true) :
    Linked ((w.setTask t s).setStack c (new ++ w.stack c)) := by
  have hstack : ((w.setTask t s).setStack c (new ++ w.stack c)).stack c = new ++ w.stack c :=
    Function.update_self ..
  have htasks : ((w.setTask t s).setStack c (new ++ w.stack c)).tasks = Function.update w.tasks t s := rfl
  have hall (t' : T) : Later (w.tasks t') (Function.update w.tasks t s t') := later_update hlater t'
  refine h.update c (fun c' hne => Function.update_of_ne hne ..) (fun t' => ?_) (fun _ => id)
    (fun t' => ?_)
    (fun parent child => ?_) (fun parent child _ frame hmem howes => Or.inr ⟨frame, ?_, howes⟩)
    (fun frame hmem t' hann => ?_) (h.returned_later fun t' => ?_)
  · rw [htasks]
    exact hall t'
  · rw [htasks]
    by_cases heq : t' = t
    · subst heq
      rw [Function.update_self]
      exact hcancelled
    · rw [Function.update_of_ne heq]
      exact h.cancelled t'
  · rw [htasks, hstack]
    by_cases heq : parent = t
    · subst heq
      rw [Function.update_self]
      intro hchild hrequested
      refine (hlinks child hchild hrequested).imp_right fun ⟨frame, hmem, howes⟩ => ?_
      exact ⟨frame, List.mem_append_left _ hmem, howes⟩
    · rw [Function.update_of_ne heq]
      exact fun hchild hrequested => Or.inl ⟨hchild, hrequested⟩
  · rw [hstack]
    exact List.mem_append_right new hmem
  · rw [hstack] at hmem
    rw [htasks]
    cases List.mem_append.mp hmem with
    | inl hnew =>
      obtain ⟨rfl, hrequested⟩ := hannounced frame hnew t' hann
      rwa [Function.update_self]
    | inr hold => exact (hall t').requested (h.announced c frame hold t' hann)
  · rw [htasks]
    exact hall t'

theorem Linked.setTask (h : Linked w) (c : Caller) (t : T) (s : RuntimeTaskState T V E)
    (new : List (Frame T)) (hlater : Later (w.tasks t) s)
    (hchildren : s.spawnedChildren = (w.tasks t).spawnedChildren)
    (hrequested : s.cancellationRequested = (w.tasks t).cancellationRequested)
    (hcancelled : s.status = .Cancelled → (w.tasks t).status = .Cancelled)
    (hnew : ∀ frame ∈ new, ∀ t', ¬ frame.Announces t') :
    Linked ((w.setTask t s).setStack c (new ++ w.stack c)) := by
  refine h.push c t s new hlater (fun hs => ?_) (fun child hchild hs => Or.inl ⟨?_, ?_⟩)
    fun frame hmem t' hann => absurd hann (hnew frame hmem t')
  · rw [hrequested]
    exact h.cancelled t (hcancelled hs)
  · rwa [← hchildren]
  · rwa [← hrequested]

omit [DecidableEq T] in
theorem Linked.setStack (h : Linked w) (c : Caller) (frames : List (Frame T))
    (howed : ∀ parent, ∀ child ∈ (w.tasks parent).spawnedChildren, ∀ frame ∈ w.stack c,
      frame.Owes parent child → w.Reached child ∨ ∃ frame ∈ frames, frame.Owes parent child)
    (hannounced : ∀ frame ∈ frames, ∀ t, frame.Announces t → (w.tasks t).cancellationRequested = true) :
    Linked (w.setStack c frames) := by
  have hstack : (w.setStack c frames).stack c = frames := Function.update_self ..
  refine h.update c (fun c' hne => Function.update_of_ne hne ..) (fun t => .refl _)
    (fun _ => id) h.cancelled
    (fun parent child hchild hrequested => Or.inl ⟨hchild, hrequested⟩) ?_ ?_ h.returned
  · rw [hstack]
    exact howed
  · rw [hstack]
    exact hannounced

omit [DecidableEq T] in
/-- The innermost call goes on as `frames`: what it owed is reached, or owed by these. -/
theorem Linked.goOn (h : Linked w) {frame : Frame T} {rest : List (Frame T)}
    (hstack : w.stack c = frame :: rest) (frames : List (Frame T))
    (howed : ∀ parent, ∀ child ∈ (w.tasks parent).spawnedChildren, frame.Owes parent child →
      w.Reached child ∨ ∃ frame ∈ frames, frame.Owes parent child)
    (hannounced : ∀ t, ∀ frame' ∈ frames, frame'.Announces t → frame.Announces t) :
    Linked (w.setStack c (frames ++ rest)) := by
  refine h.setStack c _ (fun parent child hchild f hmem howes => ?_) fun f hmem t hann => ?_
  · rw [hstack] at hmem
    cases List.mem_cons.mp hmem with
    | inl heq =>
      subst heq
      refine (howed parent child hchild howes).imp_right fun ⟨f, hmem, howes⟩ => ?_
      exact ⟨f, List.mem_append_left rest hmem, howes⟩
    | inr hrest => exact Or.inr ⟨f, List.mem_append_right frames hrest, howes⟩
  · cases List.mem_append.mp hmem with
    | inl hnew =>
      refine h.announced c frame ?_ t (hannounced t f hnew hann)
      rw [hstack]
      exact List.mem_cons_self
    | inr hrest =>
      refine h.announced c f ?_ t hann
      rw [hstack]
      exact List.mem_cons_of_mem frame hrest

omit [DecidableEq Caller] [DecidableEq T] in
theorem Linked.register (h : Linked w) (kind : Kind) (t : T) : Linked (w.register kind t) :=
  ⟨h.cancelled, h.cascaded, h.announced, h.returned⟩

omit [DecidableEq T] in
theorem Linked.pushFrame (h : Linked w) (c : Caller) {frame : Frame T} (hframe : ∀ t, ¬ frame.Announces t) :
    Linked (w.push c frame) := by
  refine h.setStack c _ (fun parent child hchild f hmem howes => ?_) fun f hmem t hann => ?_
  · exact Or.inr ⟨f, List.mem_cons_of_mem _ hmem, howes⟩
  · cases List.mem_cons.mp hmem with
    | inl heq =>
      rw [heq] at hann
      exact absurd hann (hframe t)
    | inr hold => exact h.announced c f hold t hann

theorem Linked.of_push_nil {t : T} {s : RuntimeTaskState T V E} (c : Caller)
    (h : Linked ((w.setTask t s).setStack c ([] ++ w.stack c))) : Linked (w.setTask t s) :=
  (congrArg Linked (setStack_stack (w.setTask t s) c)).mp h

theorem Linked.enter (h : Linked w) (c : Caller) (call : Call T V E) : Linked (w.enter c call) := by
  have hrunning (ks : List Registration) : ∀ frame ∈ [Frame.running (T := T) ks], ∀ t',
      ¬ frame.Announces t' := by
    intro frame hmem t' hann
    rw [List.mem_singleton.mp hmem] at hann
    exact hann
  cases call with
  | start t =>
    rw [World.enter]
    refine .of_push_nil c (h.setTask c t _ [] (.start _) ?_ ?_ ?_ fun _ hmem => (by cases hmem))
    · unfold RuntimeTaskState.start
      split <;> rfl
    · unfold RuntimeTaskState.start
      split <;> rfl
    · unfold RuntimeTaskState.start
      split
      · exact fun hs => by cases hs
      · exact id
  | succeed t value =>
    rw [World.enter]
    split
    · exact h
    · next hlive =>
      exact h.setTask c t ((w.tasks t).succeed value) _ (.of_not_isTerminal hlive id rfl) rfl rfl
        (fun hs => (by cases hs)) (hrunning _)
  | fail t error =>
    rw [World.enter]
    split
    · exact h
    · next hlive =>
      exact h.setTask c t ((w.tasks t).fail error) _ (.of_not_isTerminal hlive id rfl) rfl rfl
        (fun hs => (by cases hs)) (hrunning _)
  | cancel t =>
    rw [World.enter]
    split
    · exact h
    · next hlive =>
      refine h.push c t (w.tasks t).cancel [.notifying t _] ?_ (fun _ => rfl) ?_ ?_
      · exact .of_not_isTerminal hlive (fun _ => rfl) rfl
      · exact fun child _ _ => Or.inr ⟨_, List.mem_singleton_self _, rfl⟩
      · intro frame hmem t' hann
        rw [List.mem_singleton.mp hmem] at hann
        exact ⟨Eq.symm hann, rfl⟩
  | requestCancellation t => exact h.pushFrame c fun t' hann => hann
  | addSpawnedChild t child =>
    rw [World.enter]
    unfold World.addSpawnedChild
    dsimp only
    split
    · exact h
    · split
      · next hnow =>
        refine h.push c t _ [.requesting child] (.addSpawnedChild _ child) (h.cancelled t) ?_ ?_
        · intro x hx hrequested
          cases List.mem_append.mp hx with
          | inl hold => exact Or.inl ⟨hold, hrequested⟩
          | inr hnew =>
            exact Or.inr ⟨_, List.mem_singleton_self _, (List.mem_singleton.mp hnew).symm⟩
        · intro frame hmem t' hann
          rw [List.mem_singleton.mp hmem] at hann
          exact hann.elim
      · next hlater =>
        refine .of_push_nil c (h.push c t _ [] (.addSpawnedChild _ child) (h.cancelled t) ?_ ?_)
        · exact fun x _ hrequested => absurd (Or.inl hrequested) hlater
        · exact fun _ hmem => by cases hmem
  | «then» t =>
    rw [World.enter]
    unfold World.registerThen
    dsimp only
    have hregister := h.register .then t
    split
    · exact hregister.pushFrame c fun t' hann => hann
    · next hlive =>
      exact .of_push_nil c (hregister.setTask c t _ [] (.of_not_isTerminal hlive id rfl) rfl rfl id
        fun _ hmem => (by cases hmem))
  | onCancellation t =>
    rw [World.enter]
    unfold World.registerOnCancellation
    dsimp only
    have hregister := h.register .onCancellation t
    split
    · exact hregister.pushFrame c fun t' hann => hann
    · split
      · exact hregister
      · next hlive =>
        exact .of_push_nil c (hregister.setTask c t _ [] (.of_not_isTerminal hlive id rfl) rfl rfl id
          fun _ hmem => (by cases hmem))

omit [DecidableEq Caller] [DecidableEq T] in
theorem Linked.ran (h : Linked w) (k : Registration) : Linked (w.ran k) :=
  ⟨h.cancelled, h.cascaded, h.announced, h.returned⟩

omit [DecidableEq T] in
theorem setStack_setStack (w : World Caller T V E) (c : Caller) (frames frames' : List (Frame T)) :
    (w.setStack c frames).setStack c frames' = w.setStack c frames' := by
  unfold World.setStack
  rw [Function.update_idem]

theorem Linked.requestSection (h : Linked w) {t : T} {rest : List (Frame T)}
    (hstack : w.stack c = .requesting t :: rest) :
    Linked ((w.setStack c rest).requestSection c t) := by
  unfold World.requestSection
  dsimp only
  split
  · next hdone =>
    have hreached : w.Reached t := hdone.symm.imp_right Or.inl
    have hpop := h.goOn hstack [] (fun parent child _ howes => Or.inl (howes ▸ hreached))
      fun _ _ hmem => nomatch hmem
    refine ⟨hpop.cancelled, hpop.cascaded, hpop.announced, fun t' ht' => ?_⟩
    cases List.mem_cons.mp ht' with
    | inl heq => exact heq ▸ hdone.symm
    | inr hold => exact h.returned t' hold
  · next hlive =>
    have hlater : Later (w.tasks t) (w.tasks t).requestCancellation :=
      .of_not_isTerminal (fun hterminal => hlive (Or.inl hterminal)) (fun _ => rfl) rfl
    have hpush := h.push c t _ [.notifying t (w.tasks t).cancellationContinuations] hlater (fun _ => rfl)
      (fun child _ _ => Or.inr ⟨_, List.mem_singleton_self _, rfl⟩) fun frame hmem t' hann => by
        rw [List.mem_singleton.mp hmem] at hann
        exact ⟨Eq.symm hann, rfl⟩
    rw [setStack_setTask_push, ← setStack_setStack _ c ([.notifying t _] ++ w.stack c)]
    have hold : ((w.setTask t (w.tasks t).requestCancellation).setStack c
        ([.notifying t (w.tasks t).cancellationContinuations] ++ w.stack c)).stack c =
          .notifying t (w.tasks t).cancellationContinuations :: .requesting t :: rest := by
      rw [← hstack]
      exact Function.update_self ..
    have hrequested : (Function.update w.tasks t
        (w.tasks t).requestCancellation t).cancellationRequested = true := by
      rw [Function.update_self]
      rfl
    refine hpush.setStack c _ (fun parent child _ frame hmem howes => ?_) fun frame hmem t' hann => ?_
    · rw [hold] at hmem
      cases List.mem_cons.mp hmem with
      | inl heq => exact Or.inr ⟨frame, heq ▸ List.mem_cons_self, howes⟩
      | inr hmem =>
        cases List.mem_cons.mp hmem with
        | inl heq =>
          rw [heq] at howes
          exact Or.inl (Or.inl (howes ▸ hrequested))
        | inr hrest => exact Or.inr ⟨frame, List.mem_cons_of_mem _ hrest, howes⟩
    · refine hpush.announced c frame ?_ t' hann
      rw [hold]
      cases List.mem_cons.mp hmem with
      | inl heq => exact heq ▸ List.mem_cons_self
      | inr hrest => exact List.mem_cons_of_mem _ (List.mem_cons_of_mem _ hrest)

theorem Linked.advance (h : Linked w) {w' : World Caller T V E}
    (hadvance : w.advance c (w.stack c) = some w') : Linked w' := by
  cases hstack : w.stack c with
  | nil =>
    rw [hstack] at hadvance
    cases hadvance
  | cons frame rest =>
    rw [hstack] at hadvance
    cases frame with
    | running ks =>
      cases ks with
      | nil =>
        cases hadvance
        exact h.goOn hstack [] (fun _ _ _ howes => howes.elim) fun _ _ hmem => nomatch hmem
      | cons k ks =>
        cases hadvance
        refine (h.ran k).goOn hstack [.running ks] (fun _ _ _ howes => howes.elim) fun t f hmem hann => ?_
        rw [List.mem_singleton.mp hmem] at hann
        exact hann
    | notifying t ks =>
      cases ks with
      | nil =>
        cases hadvance
        refine h.goOn hstack [.propagating t] (fun _ _ _ howes => ?_) fun t f hmem hann => ?_
        · exact Or.inr ⟨_, List.mem_singleton_self _, howes⟩
        · rw [List.mem_singleton.mp hmem] at hann
          exact hann
      | cons k ks =>
        cases hadvance
        refine (h.ran k).goOn hstack [.notifying t ks] (fun _ _ _ howes => ?_) fun t f hmem hann => ?_
        · exact Or.inr ⟨_, List.mem_singleton_self _, howes⟩
        · rw [List.mem_singleton.mp hmem] at hann
          exact hann
    | propagating t =>
      cases hadvance
      refine h.goOn hstack [.cascading t _] (fun parent child hchild howes => ?_) fun t' f hmem hann => ?_
      · obtain rfl : t = parent := howes
        cases hexpired : w.expired child with
        | true => exact Or.inl (Or.inr (Or.inr hexpired))
        | false =>
          refine Or.inr ⟨_, List.mem_singleton_self _, rfl, List.mem_filter.mpr ⟨hchild, ?_⟩⟩
          rw [hexpired]
          rfl
      · rw [List.mem_singleton.mp hmem] at hann
        exact hann
    | cascading t children =>
      cases children with
      | nil =>
        cases hadvance
        have hpop := h.goOn hstack [] (fun _ _ _ howes => nomatch howes.2) fun _ _ hmem => nomatch hmem
        refine ⟨hpop.cancelled, hpop.cascaded, hpop.announced, fun t' ht' => ?_⟩
        cases List.mem_cons.mp ht' with
        | inl heq =>
          refine Or.inl (heq ▸ h.announced c (.cascading t []) ?_ t rfl)
          rw [hstack]
          exact List.mem_cons_self
        | inr hold => exact h.returned t' hold
      | cons child children =>
        rw [World.advance] at hadvance
        split at hadvance <;> cases hadvance
        · next hterminal =>
          refine h.goOn hstack [.cascading t children] (fun parent x _ howes => ?_)
            fun t' f hmem hann => ?_
          · obtain ⟨rfl, hx⟩ := howes
            cases List.mem_cons.mp hx with
            | inl heq => exact Or.inl (Or.inr (Or.inl (heq ▸ hterminal)))
            | inr hrest => exact Or.inr ⟨_, List.mem_singleton_self _, rfl, hrest⟩
          · rw [List.mem_singleton.mp hmem] at hann
            exact hann
        · refine h.goOn hstack [.requesting child, .cascading t children] (fun parent x _ howes => ?_)
            fun t' f hmem hann => ?_
          · obtain ⟨rfl, hx⟩ := howes
            cases List.mem_cons.mp hx with
            | inl heq => exact Or.inr ⟨_, List.mem_cons_self, heq.symm⟩
            | inr hrest => exact Or.inr ⟨_, List.mem_cons_of_mem _ List.mem_cons_self, rfl, hrest⟩
          · cases List.mem_cons.mp hmem with
            | inl heq =>
              rw [heq] at hann
              exact hann.elim
            | inr hrest =>
              rw [List.mem_singleton.mp hrest] at hann
              exact hann
    | requesting t =>
      cases hadvance
      exact h.requestSection hstack

omit [DecidableEq Caller] in
theorem Linked.expire (h : Linked w) (t : T) :
    Linked { w with expired := Function.update w.expired t true } := by
  refine ⟨h.cancelled, fun parent child hchild hrequested => ?_, h.announced, h.returned⟩
  refine (h.cascaded parent child hchild hrequested).imp_left fun hreached => ?_
  refine hreached.later (.refl _) fun hexpired => ?_
  change Function.update w.expired t true child = true
  by_cases heq : child = t
  · rw [heq, Function.update_self]
  · rwa [Function.update_of_ne heq]

theorem Linked.step (h : Linked w) {a : Action Caller T V E} {w' : World Caller T V E}
    (hstep : Step w a w') : Linked w' := by
  cases a with
  | call c call =>
    cases hstep
    exact h.enter c call
  | advance c => exact h.advance hstep
  | expire t =>
    cases hstep
    exact h.expire t

omit [DecidableEq Caller] [DecidableEq T] in
theorem Linked.initial : Linked ({} : World Caller T V E) :=
  ⟨nofun, nofun, nofun, nofun⟩

end

section
variable {Caller T V E : Type}

/-- A task that succeeded or failed before any request to cancel it. -/
def World.SettledUnrequested (w : World Caller T V E) (t : T) : Prop :=
  (w.tasks t).isTerminal = true ∧ (w.tasks t).cancellationRequested = false

/-- A task spawned under another, through tasks that were still there and had not settled
    when their cancellation was requested. -/
inductive SpawnedUnder (w : World Caller T V E) (ancestor : T) : T → Prop
  | child {t : T} (hchild : t ∈ (w.tasks ancestor).spawnedChildren) : SpawnedUnder w ancestor t
  | step {t t' : T} (hunder : SpawnedUnder w ancestor t) (hlive : ¬ w.SettledUnrequested t)
      (hexpired : w.expired t = false) (hchild : t' ∈ (w.tasks t).spawnedChildren) :
        SpawnedUnder w ancestor t'

/-- A call in progress that has yet to request the cancellation of a task on the way from
    one to another that is spawned under it. -/
def World.OwesBetween (w : World Caller T V E) (ancestor t : T) : Prop :=
  ∃ c, ∃ frame ∈ w.stack c, ∃ parent, ∃ child ∈ (w.tasks parent).spawnedChildren,
    frame.Owes parent child ∧ (parent = ancestor ∨ SpawnedUnder w ancestor parent) ∧
      (child = t ∨ SpawnedUnder w child t)

/-- The cascade reaches whatever is spawned under a task whose cancellation is requested,
    but for what calls in progress have yet to reach. -/
theorem Linked.reached_of_spawnedUnder {w : World Caller T V E} (h : Linked w) {ancestor t : T}
    (hrequested : (w.tasks ancestor).cancellationRequested = true) (hunder : SpawnedUnder w ancestor t) :
    w.Reached t ∨ w.OwesBetween ancestor t := by
  induction hunder with
  | @child t hchild =>
    refine (h.cascaded ancestor t hchild hrequested).imp_right ?_
    rintro ⟨c, frame, hmem, howes⟩
    exact ⟨c, frame, hmem, ancestor, t, hchild, howes, Or.inl rfl, Or.inl rfl⟩
  | @step t t' hunder hlive hexpired hchild ih =>
    have hlink (hrequested' : (w.tasks t).cancellationRequested = true) :
        w.Reached t' ∨ w.OwesBetween ancestor t' := by
      refine (h.cascaded t t' hchild hrequested').imp_right ?_
      rintro ⟨c, frame, hmem, howes⟩
      exact ⟨c, frame, hmem, t, t', hchild, howes, Or.inr hunder, Or.inl rfl⟩
    rcases ih with (hrequested' | hterminal | hgone) | howes
    · exact hlink hrequested'
    · cases hflag : (w.tasks t).cancellationRequested with
      | false => exact absurd ⟨hterminal, hflag⟩ hlive
      | true => exact hlink hflag
    · rw [hexpired] at hgone
      cases hgone
    · obtain ⟨c, frame, hmem, parent, child, hlinked, howes, hparent, hbelow⟩ := howes
      refine Or.inr ⟨c, frame, hmem, parent, child, hlinked, howes, hparent, Or.inr ?_⟩
      cases hbelow with
      | inl heq => exact heq ▸ .child hchild
      | inr hbelow => exact .step hbelow hlive hexpired hchild

end

end zl.vm.task
