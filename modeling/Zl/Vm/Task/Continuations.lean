import Mathlib
import Zl.Vm.Task.TaskState

namespace zl.vm.task

section
variable {Caller T V E : Type}

/-- The continuations of a kind that a task holds. -/
def RuntimeTaskState.waiting (s : RuntimeTaskState T V E) : Kind → List Registration
  | .then => s.continuations
  | .onCancellation => s.cancellationContinuations

/-- What a continuation of a kind waits for has come. -/
def RuntimeTaskState.Due (s : RuntimeTaskState T V E) : Kind → Prop
  | .then => s.isTerminal = true
  | .onCancellation => s.cancellationRequested = true

theorem Later.due {s s' : RuntimeTaskState T V E} (h : Later s s') {kind : Kind} (hdue : s.Due kind) :
    s'.Due kind := by
  cases kind with
  | «then» => exact h.isTerminal hdue
  | onCancellation => exact h.requested hdue

def Frame.continuations : Frame T → List Registration
  | .running ks | .notifying _ ks => ks
  | .propagating _ | .cascading _ _ | .requesting _ => []

/-- The continuations that the calls of a caller have still to run. -/
def pendingOf (frames : List (Frame T)) : List Registration := frames.flatMap Frame.continuations

/-- Where each continuation is: with its task, which has not come to what it waits for; with one
    call, once its task has; or it has run. -/
structure Placed (w : World Caller T V E) : Prop where
  fresh : ∀ k, w.nextRegistration ≤ k → w.registered k = none ∧ w.runs k = 0
  waiting : ∀ t kind, ∀ k ∈ (w.tasks t).waiting kind,
    w.registered k = some (kind, t) ∧ ¬ (w.tasks t).Due kind ∧ w.runs k = 0
  pending : ∀ c, ∀ k ∈ pendingOf (w.stack c),
    ∃ kind t, w.registered k = some (kind, t) ∧ (w.tasks t).Due kind ∧ w.runs k = 0
  ran : ∀ k, w.runs k ≠ 0 →
    w.runs k = 1 ∧ ∃ kind t, w.registered k = some (kind, t) ∧ (w.tasks t).Due kind
  waiting_nodup : ∀ t kind, ((w.tasks t).waiting kind).Nodup
  pending_nodup : ∀ c, (pendingOf (w.stack c)).Nodup
  unique : ∀ c c', ∀ k ∈ pendingOf (w.stack c), k ∈ pendingOf (w.stack c') → c = c'

/-- And none that waits for the end of its task is lost. -/
structure Accounted (w : World Caller T V E) : Prop extends Placed w where
  kept : ∀ k t, w.registered k = some (.then, t) → w.runs k = 0 →
    k ∈ (w.tasks t).continuations ∨ ∃ c, k ∈ pendingOf (w.stack c)

end

section
variable {Caller T V E : Type} [DecidableEq Caller] [DecidableEq T] {w : World Caller T V E}

omit [DecidableEq T] in
theorem pendingOf_update {stack : Caller → List (Frame T)} {c : Caller} {frames : List (Frame T)}
    (c' : Caller) :
    pendingOf (Function.update stack c frames c') =
      if c' = c then pendingOf frames else pendingOf (stack c') := by
  by_cases heq : c' = c
  · subst heq
    rw [Function.update_self, if_pos rfl]
  · rw [Function.update_of_ne heq, if_neg heq]

theorem Accounted.give (h : Accounted w) (c : Caller) (t : T) (s : RuntimeTaskState T V E)
    (frames : List (Frame T)) (ks : List Registration)
    (hframes : pendingOf frames = ks ++ pendingOf (w.stack c)) (hlater : Later (w.tasks t) s)
    (hwaiting : ∀ kind, s.waiting kind = [] ∨
      s.waiting kind = (w.tasks t).waiting kind ∧ (s.Due kind → (w.tasks t).Due kind))
    (hks : ∀ k ∈ ks, ∃ kind, k ∈ (w.tasks t).waiting kind ∧ s.Due kind) (hnodup : ks.Nodup)
    (hkept : s.continuations = (w.tasks t).continuations ∨ (w.tasks t).continuations ⊆ ks) :
    Accounted ((w.setTask t s).setStack c frames) := by
  have hall (t' : T) : Later (w.tasks t') (Function.update w.tasks t s t') := later_update hlater t'
  have hgiven {k : Registration} (hk : k ∈ ks) : ∃ kind, w.registered k = some (kind, t) ∧
      (Function.update w.tasks t s t).Due kind ∧ ¬ (w.tasks t).Due kind ∧ w.runs k = 0 := by
    obtain ⟨kind, hmem, hdue⟩ := hks k hk
    obtain ⟨hregistered, hnot, hruns⟩ := h.waiting t kind k hmem
    rw [Function.update_self]
    exact ⟨kind, hregistered, hdue, hnot, hruns⟩
  -- what is given was in no call before
  have hnew {k : Registration} (hk : k ∈ ks) (c' : Caller) : k ∉ pendingOf (w.stack c') := by
    intro hmem
    obtain ⟨kind, hregistered, -, hnot, -⟩ := hgiven hk
    obtain ⟨kind', t', hregistered', hdue, -⟩ := h.pending c' k hmem
    rw [hregistered] at hregistered'
    cases hregistered'
    exact hnot hdue
  have hmem {c' : Caller} {k : Registration} (hk : k ∈ pendingOf (Function.update w.stack c frames c')) :
      (c' = c ∧ k ∈ ks) ∨ k ∈ pendingOf (w.stack c') := by
    rw [pendingOf_update] at hk
    split at hk
    · next heq =>
      rw [hframes] at hk
      exact (List.mem_append.mp hk).imp (fun hks => ⟨heq, hks⟩) fun hold => heq ▸ hold
    · exact Or.inr hk
  have hold {c' : Caller} {k : Registration} (hk : k ∈ pendingOf (w.stack c')) :
      k ∈ pendingOf (Function.update w.stack c frames c') := by
    rw [pendingOf_update]
    split
    · next heq =>
      rw [hframes]
      exact List.mem_append_right ks (heq ▸ hk)
    · exact hk
  refine ⟨⟨h.fresh, fun t' kind k hk => ?_, fun c' k hk => ?_, fun k hk => ?_, fun t' kind => ?_,
    fun c' => ?_, fun c₁ c₂ k h₁ h₂ => ?_⟩, fun k t' hregistered hruns => ?_⟩
  · change k ∈ (Function.update w.tasks t s t').waiting kind at hk
    change _ ∧ ¬ (Function.update w.tasks t s t').Due kind ∧ _
    by_cases heq : t' = t
    · subst heq
      rw [Function.update_self] at hk ⊢
      cases hwaiting kind with
      | inl hnil =>
        rw [hnil] at hk
        cases hk
      | inr hsame =>
        rw [hsame.1] at hk
        obtain ⟨hregistered, hnot, hruns⟩ := h.waiting t' kind k hk
        exact ⟨hregistered, fun hdue => hnot (hsame.2 hdue), hruns⟩
    · rw [Function.update_of_ne heq] at hk ⊢
      exact h.waiting t' kind k hk
  · cases hmem hk with
    | inl hnew =>
      obtain ⟨kind, hregistered, hdue, -, hruns⟩ := hgiven hnew.2
      exact ⟨kind, t, hregistered, hdue, hruns⟩
    | inr hk =>
      obtain ⟨kind, t', hregistered, hdue, hruns⟩ := h.pending c' k hk
      exact ⟨kind, t', hregistered, (hall t').due hdue, hruns⟩
  · obtain ⟨hone, kind, t', hregistered, hdue⟩ := h.ran k hk
    exact ⟨hone, kind, t', hregistered, (hall t').due hdue⟩
  · change ((Function.update w.tasks t s t').waiting kind).Nodup
    by_cases heq : t' = t
    · subst heq
      rw [Function.update_self]
      cases hwaiting kind with
      | inl hnil => exact hnil ▸ List.nodup_nil
      | inr hsame => exact hsame.1 ▸ h.waiting_nodup t' kind
    · rw [Function.update_of_ne heq]
      exact h.waiting_nodup t' kind
  · change (pendingOf (Function.update w.stack c frames c')).Nodup
    rw [pendingOf_update]
    split
    · rw [hframes]
      exact List.Nodup.append hnodup (h.pending_nodup c) fun k hk hold => hnew hk c hold
    · exact h.pending_nodup c'
  · cases hmem h₁ with
    | inl hgiven₁ =>
      cases hmem h₂ with
      | inl hgiven₂ => exact hgiven₁.1.trans hgiven₂.1.symm
      | inr hold₂ => exact absurd hold₂ (hnew hgiven₁.2 c₂)
    | inr hold₁ =>
      cases hmem h₂ with
      | inl hgiven₂ => exact absurd hold₁ (hnew hgiven₂.2 c₁)
      | inr hold₂ => exact h.unique c₁ c₂ k hold₁ hold₂
  · change k ∈ (Function.update w.tasks t s t').continuations ∨ _
    cases h.kept k t' hregistered hruns with
    | inr hpending =>
      obtain ⟨c', hk⟩ := hpending
      exact Or.inr ⟨c', hold hk⟩
    | inl hwaits =>
      by_cases heq : t' = t
      · subst heq
        rw [Function.update_self]
        cases hkept with
        | inl hsame => exact Or.inl (hsame ▸ hwaits)
        | inr hgive =>
          refine Or.inr ⟨c, ?_⟩
          change k ∈ pendingOf (Function.update w.stack c frames c)
          rw [Function.update_self, hframes]
          exact List.mem_append_left _ (hgive hwaits)
      · rw [Function.update_of_ne heq]
        exact Or.inl hwaits

omit [DecidableEq T] in
theorem Accounted.setStack (h : Accounted w) (c : Caller) (frames : List (Frame T))
    (hframes : pendingOf frames = pendingOf (w.stack c)) : Accounted (w.setStack c frames) := by
  have hsame (c' : Caller) : pendingOf ((w.setStack c frames).stack c') = pendingOf (w.stack c') := by
    change pendingOf (Function.update w.stack c frames c') = _
    rw [pendingOf_update]
    split
    · next heq => rw [hframes, heq]
    · rfl
  refine ⟨⟨h.fresh, h.waiting, fun c' => ?_, h.ran, h.waiting_nodup, fun c' => ?_, fun c₁ c₂ => ?_⟩,
    fun k t hregistered hruns => ?_⟩
  · rw [hsame]
    exact h.pending c'
  · rw [hsame]
    exact h.pending_nodup c'
  · rw [hsame, hsame]
    exact h.unique c₁ c₂
  · refine (h.kept k t hregistered hruns).imp_right fun ⟨c', hk⟩ => ⟨c', ?_⟩
    rwa [hsame]

omit [DecidableEq T] in
/-- A call runs the first of its continuations. -/
theorem Accounted.run (h : Accounted w) (c : Caller) (k : Registration) (frames : List (Frame T))
    (hframes : pendingOf (w.stack c) = k :: pendingOf frames) :
    Accounted ((w.ran k).setStack c frames) := by
  have hhead : k ∈ pendingOf (w.stack c) := hframes ▸ List.mem_cons_self
  obtain ⟨kind, t, hregistered, hdue, hruns⟩ := h.pending c k hhead
  have hnodup : k ∉ pendingOf frames ∧ (pendingOf frames).Nodup := by
    have := h.pending_nodup c
    rwa [hframes, List.nodup_cons] at this
  have hmem {c' : Caller} {k' : Registration}
      (hk : k' ∈ pendingOf (Function.update w.stack c frames c')) : k' ∈ pendingOf (w.stack c') ∧
        k' ≠ k := by
    rw [pendingOf_update] at hk
    split at hk
    · next heq =>
      subst heq
      rw [hframes]
      exact ⟨List.mem_cons_of_mem k hk, fun heq => hnodup.1 (heq ▸ hk)⟩
    · next hne => exact ⟨hk, fun heq => hne (h.unique c' c k (heq ▸ hk) hhead)⟩
  have hother {k' : Registration} (hne : k' ≠ k) : (w.ran k).runs k' = w.runs k' :=
    Function.update_of_ne hne ..
  refine ⟨⟨fun k' hk' => ?_, fun t' kind' k' hk' => ?_, fun c' k' hk' => ?_, fun k' hk' => ?_,
    h.waiting_nodup, fun c' => ?_, fun c₁ c₂ k' h₁ h₂ => h.unique c₁ c₂ k' (hmem h₁).1 (hmem h₂).1⟩,
    fun k' t' hregistered' hruns' => ?_⟩
  · have hne : k' ≠ k := by
      rintro rfl
      rw [(h.fresh k' hk').1] at hregistered
      cases hregistered
    exact ⟨(h.fresh k' hk').1, (hother hne).trans (h.fresh k' hk').2⟩
  · obtain ⟨hregistered', hnot, hruns'⟩ := h.waiting t' kind' k' hk'
    have hne : k' ≠ k := by
      rintro rfl
      rw [hregistered] at hregistered'
      cases hregistered'
      exact hnot hdue
    exact ⟨hregistered', hnot, (hother hne).trans hruns'⟩
  · obtain ⟨hold, hne⟩ := hmem hk'
    obtain ⟨kind', t', hregistered', hdue', hruns'⟩ := h.pending c' k' hold
    exact ⟨kind', t', hregistered', hdue', (hother hne).trans hruns'⟩
  · by_cases hne : k' = k
    · subst hne
      refine ⟨?_, kind, t, hregistered, hdue⟩
      change Function.update w.runs k' (w.runs k' + 1) k' = 1
      rw [Function.update_self, hruns]
    · have hsame := hother hne
      change (w.ran k).runs k' ≠ 0 at hk'
      rw [hsame] at hk'
      exact ⟨hsame.trans (h.ran k' hk').1, (h.ran k' hk').2⟩
  · change (pendingOf (Function.update w.stack c frames c')).Nodup
    rw [pendingOf_update]
    split
    · exact hnodup.2
    · exact h.pending_nodup c'
  · have hne : k' ≠ k := by
      rintro rfl
      change Function.update w.runs k' (w.runs k' + 1) k' = 0 at hruns'
      rw [Function.update_self] at hruns'
      cases hruns'
    refine (h.kept k' t' hregistered' ((hother hne).symm.trans hruns')).imp_right fun ⟨c', hk'⟩ =>
      ⟨c', ?_⟩
    change k' ∈ pendingOf (Function.update w.stack c frames c')
    rw [pendingOf_update]
    split
    · next heq =>
      subst heq
      rw [hframes] at hk'
      exact (List.mem_cons.mp hk').resolve_left hne
    · exact hk'

section
omit [DecidableEq Caller] [DecidableEq T]

theorem Placed.not_waiting (h : Placed w) {k : Registration} (hk : w.registered k = none) (t : T)
    (kind : Kind) : k ∉ (w.tasks t).waiting kind := by
  intro hmem
  rw [(h.waiting t kind k hmem).1] at hk
  cases hk

theorem Placed.not_pending (h : Placed w) {k : Registration} (hk : w.registered k = none) (c : Caller) :
    k ∉ pendingOf (w.stack c) := by
  intro hmem
  obtain ⟨kind, t, hregistered, -⟩ := h.pending c k hmem
  rw [hregistered] at hk
  cases hk

theorem register_of_registered (h : Placed w) (kind : Kind) (t : T) {k : Registration} {r : Kind × T}
    (hk : w.registered k = some r) : (w.register kind t).registered k = some r := by
  have hne : k ≠ w.nextRegistration := by
    rintro rfl
    rw [(h.fresh w.nextRegistration (Nat.le_refl _)).1] at hk
    cases hk
  exact (Function.update_of_ne hne ..).trans hk

theorem Placed.register (h : Placed w) (kind : Kind) (t : T) : Placed (w.register kind t) where
  fresh k hk := by
    have hle : w.nextRegistration + 1 ≤ k := hk
    have hold := h.fresh k (Nat.le_of_succ_le hle)
    refine ⟨?_, hold.2⟩
    have hne : k ≠ w.nextRegistration := Nat.ne_of_gt hle
    exact (Function.update_of_ne hne ..).trans hold.1
  waiting t' kind' k hk := by
    obtain ⟨hregistered, hrest⟩ := h.waiting t' kind' k hk
    exact ⟨register_of_registered h kind t hregistered, hrest⟩
  pending c k hk := by
    obtain ⟨kind', t', hregistered, hrest⟩ := h.pending c k hk
    exact ⟨kind', t', register_of_registered h kind t hregistered, hrest⟩
  ran k hk := by
    obtain ⟨hone, kind', t', hregistered, hdue⟩ := h.ran k hk
    exact ⟨hone, kind', t', register_of_registered h kind t hregistered, hdue⟩
  waiting_nodup := h.waiting_nodup
  pending_nodup := h.pending_nodup
  unique := h.unique

theorem registered_register {kind : Kind} {t : T} :
    (w.register kind t).registered w.nextRegistration = some (kind, t) := Function.update_self ..

end

omit [DecidableEq Caller] [DecidableEq T] in
theorem kept_of_register (h : Accounted w) {kind : Kind} {t : T} {w' : World Caller T V E}
    (hregistered : w'.registered = (w.register kind t).registered) (hruns : w'.runs = w.runs)
    (hwaiting : ∀ t', (w.tasks t').continuations ⊆ (w'.tasks t').continuations)
    (hpending : ∀ c, pendingOf (w.stack c) ⊆ pendingOf (w'.stack c)) (hnew : kind = .then →
      w.nextRegistration ∈ (w'.tasks t).continuations ∨ ∃ c,
      w.nextRegistration ∈ pendingOf (w'.stack c)) :
    ∀ k t', w'.registered k = some (.then, t') → w'.runs k = 0 →
      k ∈ (w'.tasks t').continuations ∨ ∃ c, k ∈ pendingOf (w'.stack c) := by
  intro k t' hk hrun
  rw [hregistered] at hk
  rw [hruns] at hrun
  by_cases hne : k = w.nextRegistration
  · subst hne
    rw [registered_register] at hk
    cases hk
    exact hnew rfl
  · have hk : w.registered k = some (.then, t') := (Function.update_of_ne hne ..).symm.trans hk
    exact (h.kept k t' hk hrun).imp (fun hw => hwaiting t' hw) fun ⟨c, hc⟩ => ⟨c, hpending c hc⟩

omit [DecidableEq T] in
theorem Accounted.registerNow (h : Accounted w) (c : Caller) (kind : Kind) (t : T)
    (hdue : (w.tasks t).Due kind) :
    Accounted ((w.register kind t).push c (.running [w.nextRegistration])) := by
  have hplaced := h.toPlaced.register kind t
  have hnone := h.fresh w.nextRegistration (Nat.le_refl _)
  have hframes : pendingOf (.running [w.nextRegistration] :: w.stack c) =
      w.nextRegistration :: pendingOf (w.stack c) := rfl
  have hmem {c' : Caller} {k : Registration}
      (hk : k ∈ pendingOf (Function.update w.stack c (.running [w.nextRegistration] :: w.stack c) c')) :
      (c' = c ∧ k = w.nextRegistration) ∨ k ∈ pendingOf (w.stack c') := by
    rw [pendingOf_update] at hk
    split at hk
    · next heq =>
      rw [hframes] at hk
      exact (List.mem_cons.mp hk).imp (fun hnew => ⟨heq, hnew⟩) fun hold => heq ▸ hold
    · exact Or.inr hk
  have hnew (c' : Caller) {k : Registration} (hk : k = w.nextRegistration) :
      k ∉ pendingOf (w.stack c') := hk ▸ h.not_pending hnone.1 c'
  refine ⟨{ hplaced with pending := fun c' k hk => ?_, pending_nodup := fun c' => ?_, unique := ?_ },
    kept_of_register h rfl rfl (fun _ => List.Subset.refl _) (fun c' k hk => ?_) fun _ => Or.inr ⟨c, ?_⟩⟩
  · cases hmem hk with
    | inl heq =>
      obtain ⟨-, rfl⟩ := heq
      exact ⟨kind, t, registered_register, hdue, hnone.2⟩
    | inr hold => exact hplaced.pending c' k hold
  · change (pendingOf (Function.update w.stack c (.running [w.nextRegistration] :: w.stack c) c')).Nodup
    rw [pendingOf_update]
    split
    · rw [hframes, List.nodup_cons]
      exact ⟨h.not_pending hnone.1 c, h.pending_nodup c⟩
    · exact h.pending_nodup c'
  · intro c₁ c₂ k h₁ h₂
    cases hmem h₁ with
    | inl hnew₁ =>
      cases hmem h₂ with
      | inl hnew₂ => exact hnew₁.1.trans hnew₂.1.symm
      | inr hold₂ => exact absurd hold₂ (hnew c₂ hnew₁.2)
    | inr hold₁ =>
      cases hmem h₂ with
      | inl hnew₂ => exact absurd hold₁ (hnew c₁ hnew₂.2)
      | inr hold₂ => exact h.unique c₁ c₂ k hold₁ hold₂
  · change k ∈ pendingOf (Function.update w.stack c (.running [w.nextRegistration] :: w.stack c) c')
    rw [pendingOf_update]
    split
    · next heq =>
      rw [hframes]
      exact List.mem_cons_of_mem _ (heq ▸ hk)
    · exact hk
  · change w.nextRegistration ∈
      pendingOf (Function.update w.stack c (.running [w.nextRegistration] :: w.stack c) c)
    rw [Function.update_self, hframes]
    exact List.mem_cons_self

omit [DecidableEq Caller] in
theorem Accounted.registerLater (h : Accounted w) (kind : Kind) (t : T) (s : RuntimeTaskState T V E)
    (hlater : Later (w.tasks t) s) (hdue : ∀ kind', s.Due kind' → (w.tasks t).Due kind')
    (hnot : ¬ (w.tasks t).Due kind) (hwaiting : ∀ kind', s.waiting kind' =
      if kind' = kind then (w.tasks t).waiting kind' ++
      [w.nextRegistration] else (w.tasks t).waiting kind') :
    Accounted ((w.register kind t).setTask t s) := by
  have hplaced := h.toPlaced.register kind t
  have hnone := h.fresh w.nextRegistration (Nat.le_refl _)
  have hall (t' : T) : Later (w.tasks t') (Function.update w.tasks t s t') := later_update hlater t'
  have hgrows (kind' : Kind) : (w.tasks t).waiting kind' ⊆ s.waiting kind' := by
    rw [hwaiting kind']
    split
    · exact List.subset_append_left _ _
    · exact List.Subset.refl _
  refine ⟨{ hplaced with
      waiting := ?_
      pending := fun c k hk => ?_
      ran := fun k hk => ?_
      waiting_nodup := ?_ },
    kept_of_register h rfl rfl (fun t' => ?_) (fun c => List.Subset.refl _) fun hkind => Or.inl ?_⟩
  · intro t' kind' k hk
    change k ∈ (Function.update w.tasks t s t').waiting kind' at hk
    change _ ∧ ¬ (Function.update w.tasks t s t').Due kind' ∧ _
    by_cases heq : t' = t
    · subst heq
      rw [Function.update_self] at hk ⊢
      rw [hwaiting kind'] at hk
      split at hk
      · next hkind =>
        subst hkind
        cases List.mem_append.mp hk with
        | inl hold =>
          obtain ⟨hregistered, hnot', hruns⟩ := hplaced.waiting t' kind' k hold
          exact ⟨hregistered, fun hs => hnot' (hdue kind' hs), hruns⟩
        | inr hnew =>
          obtain rfl := List.mem_singleton.mp hnew
          exact ⟨registered_register, fun hs => hnot (hdue kind' hs), hnone.2⟩
      · obtain ⟨hregistered, hnot', hruns⟩ := hplaced.waiting t' kind' k hk
        exact ⟨hregistered, fun hs => hnot' (hdue kind' hs), hruns⟩
    · rw [Function.update_of_ne heq] at hk ⊢
      exact hplaced.waiting t' kind' k hk
  · obtain ⟨kind', t', hregistered, hdue', hruns⟩ := hplaced.pending c k hk
    exact ⟨kind', t', hregistered, (hall t').due hdue', hruns⟩
  · obtain ⟨hone, kind', t', hregistered, hdue'⟩ := hplaced.ran k hk
    exact ⟨hone, kind', t', hregistered, (hall t').due hdue'⟩
  · intro t' kind'
    change ((Function.update w.tasks t s t').waiting kind').Nodup
    by_cases heq : t' = t
    · subst heq
      rw [Function.update_self, hwaiting kind']
      split
      · exact (h.waiting_nodup t' kind').append (List.nodup_singleton _) fun k hk hnew =>
          h.not_waiting hnone.1 t' kind' (List.mem_singleton.mp hnew ▸ hk)
      · exact h.waiting_nodup t' kind'
    · rw [Function.update_of_ne heq]
      exact h.waiting_nodup t' kind'
  · change (w.tasks t').continuations ⊆ (Function.update w.tasks t s t').continuations
    by_cases heq : t' = t
    · subst heq
      rw [Function.update_self]
      exact hgrows .then
    · rw [Function.update_of_ne heq]
      exact List.Subset.refl _
  · change w.nextRegistration ∈ (Function.update w.tasks t s t).waiting .then
    rw [Function.update_self, hwaiting, if_pos hkind.symm]
    exact List.mem_append_right _ (List.mem_singleton_self _)

theorem Accounted.settle (h : Accounted w) (c : Caller) (t : T) (s : RuntimeTaskState T V E)
    (hlive : ¬ (w.tasks t).isTerminal = true) (hterminal : s.isTerminal = true)
    (hcontinuations : s.continuations = []) (hobservers : s.cancellationContinuations = [])
    (hrequested : s.cancellationRequested = (w.tasks t).cancellationRequested)
    (hchildren : s.spawnedChildren = (w.tasks t).spawnedChildren) :
    Accounted ((w.setTask t s).push c (.running (w.tasks t).continuations)) := by
  refine h.give c t s (.running _ :: w.stack c) (w.tasks t).continuations rfl
    (.of_not_isTerminal hlive (fun hs => hrequested.trans hs) hchildren) (fun kind => Or.inl ?_)
    (fun k hk => ⟨.then, hk, hterminal⟩) (h.waiting_nodup t .then) (Or.inr (List.Subset.refl _))
  cases kind with
  | «then» => exact hcontinuations
  | onCancellation => exact hobservers

theorem Accounted.setTask (h : Accounted w) (c : Caller) (t : T) (s : RuntimeTaskState T V E)
    (hlater : Later (w.tasks t) s) (hwaiting : ∀ kind, s.waiting kind = (w.tasks t).waiting kind)
    (hdue : ∀ kind, s.Due kind → (w.tasks t).Due kind) : Accounted (w.setTask t s) := by
  have hset := h.give c t s (w.stack c) [] rfl hlater (fun kind => Or.inr ⟨hwaiting kind, hdue kind⟩)
    (fun k hk => nomatch hk) List.nodup_nil (Or.inl (hwaiting .then))
  exact (congrArg Accounted (setStack_stack (w.setTask t s) c)).mp hset

theorem Accounted.start (h : Accounted w) (c : Caller) (t : T) :
    Accounted (w.setTask t (w.tasks t).start) := by
  refine h.setTask c t _ (.start _) (fun kind => ?_) fun kind => ?_
  · cases kind <;>
    · unfold RuntimeTaskState.start
      split <;> rfl
  · unfold RuntimeTaskState.start
    split
    · cases kind with
      | «then» => exact fun hdue => nomatch hdue
      | onCancellation => exact id
    · exact id

theorem Accounted.enter (h : Accounted w)
    (hcancelled : ∀ t, (w.tasks t).status = .Cancelled → (w.tasks t).cancellationRequested = true)
    (c : Caller) (call : Call T V E) : Accounted (w.enter c call) := by
  cases call with
  | start t => exact h.start c t
  | succeed t value =>
    rw [World.enter]
    split
    · exact h
    · next hlive => exact h.settle c t _ hlive rfl rfl rfl rfl rfl
  | fail t error =>
    rw [World.enter]
    split
    · exact h
    · next hlive => exact h.settle c t _ hlive rfl rfl rfl rfl rfl
  | cancel t =>
    rw [World.enter]
    split
    · exact h
    · next hlive =>
      have hdisjoint : (w.tasks t).continuations.Disjoint (w.tasks t).cancellationContinuations := by
        intro k hthen hobserver
        have hregistered := (h.waiting t .then k hthen).1
        rw [(h.waiting t .onCancellation k hobserver).1] at hregistered
        cases hregistered
      refine h.give c t (w.tasks t).cancel (.notifying t _ :: w.stack c)
        ((w.tasks t).continuations ++ (w.tasks t).cancellationContinuations) rfl
        (.of_not_isTerminal hlive (fun _ => rfl) rfl) (fun kind => Or.inl ?_) (fun k hk => ?_)
        ((h.waiting_nodup t .then).append (h.waiting_nodup t .onCancellation) hdisjoint)
        (Or.inr (List.subset_append_left _ _))
      · cases kind <;> rfl
      · cases List.mem_append.mp hk with
        | inl hthen => exact ⟨.then, hthen, rfl⟩
        | inr hobserver => exact ⟨.onCancellation, hobserver, rfl⟩
  | requestCancellation t => exact h.setStack c _ rfl
  | addSpawnedChild t child =>
    have hadd : Accounted (w.setTask t ((w.tasks t).addSpawnedChild child)) :=
      h.setTask c t _ (.addSpawnedChild _ child) (fun kind => by cases kind <;> rfl)
        fun kind => by cases kind <;> exact id
    rw [World.enter]
    unfold World.addSpawnedChild
    dsimp only
    split
    · exact h
    · split
      · exact hadd.setStack c _ rfl
      · exact hadd
  | «then» t =>
    rw [World.enter]
    unfold World.registerThen
    dsimp only
    split
    · next hterminal => exact h.registerNow c .then t hterminal
    · next hlive =>
      refine h.registerLater .then t _ (.of_not_isTerminal hlive id rfl) (fun kind => ?_) hlive
        fun kind => ?_
      · cases kind <;> exact id
      · cases kind <;> rfl
  | onCancellation t =>
    rw [World.enter]
    unfold World.registerOnCancellation
    dsimp only
    split
    · next hrequested => exact h.registerNow c .onCancellation t (hrequested.elim (hcancelled t) id)
    · next hnot =>
      split
      · exact ⟨h.toPlaced.register .onCancellation t,
          kept_of_register h rfl rfl (fun _ => List.Subset.refl _)
          (fun _ => List.Subset.refl _) (by intro h; cases h)⟩
      · next hlive =>
        refine h.registerLater .onCancellation t _ (.of_not_isTerminal hlive id rfl) (fun kind => ?_)
          (fun hdue => hnot (Or.inr hdue)) fun kind => ?_
        · cases kind <;> exact id
        · cases kind <;> rfl

theorem Accounted.requestSection (h : Accounted w) {c : Caller} {t : T} {rest : List (Frame T)}
    (hstack : w.stack c = .requesting t :: rest) :
    Accounted ((w.setStack c rest).requestSection c t) := by
  unfold World.requestSection
  dsimp only
  split
  · have hpop := h.setStack c rest (by rw [hstack]; rfl)
    exact ⟨⟨hpop.fresh, hpop.waiting, hpop.pending, hpop.ran, hpop.waiting_nodup,
      hpop.pending_nodup, hpop.unique⟩, hpop.kept⟩
  · next hlive =>
    rw [setStack_setTask_push]
    refine h.give c t (w.tasks t).requestCancellation _ (w.tasks t).cancellationContinuations ?_ ?_
      (fun kind => ?_)
      (fun k hk => ⟨.onCancellation, hk, rfl⟩) (h.waiting_nodup t .onCancellation) (Or.inl rfl)
    · rw [hstack]
      rfl
    · exact .of_not_isTerminal (fun hterminal => hlive (Or.inl hterminal)) (fun _ => rfl) rfl
    · cases kind with
      | «then» => exact Or.inr ⟨rfl, id⟩
      | onCancellation => exact Or.inl rfl

theorem Accounted.advance (h : Accounted w) {c : Caller} {w' : World Caller T V E}
    (hadvance : w.advance c (w.stack c) = some w') : Accounted w' := by
  cases hstack : w.stack c with
  | nil =>
    rw [hstack] at hadvance
    cases hadvance
  | cons frame rest =>
    rw [hstack] at hadvance
    cases frame with
    | running ks =>
      cases ks with
      | nil =>
        cases hadvance
        exact h.setStack c rest (by rw [hstack]; rfl)
      | cons k ks =>
        cases hadvance
        exact h.run c k _ (by rw [hstack]; rfl)
    | notifying t ks =>
      cases ks with
      | nil =>
        cases hadvance
        exact h.setStack c _ (by rw [hstack]; rfl)
      | cons k ks =>
        cases hadvance
        exact h.run c k _ (by rw [hstack]; rfl)
    | propagating t =>
      cases hadvance
      exact h.setStack c _ (by rw [hstack]; rfl)
    | cascading t children =>
      cases children with
      | nil =>
        cases hadvance
        have hpop := h.setStack c rest (by rw [hstack]; rfl)
        exact ⟨⟨hpop.fresh, hpop.waiting, hpop.pending, hpop.ran, hpop.waiting_nodup, hpop.pending_nodup,
          hpop.unique⟩, hpop.kept⟩
      | cons child children =>
        rw [World.advance] at hadvance
        split at hadvance <;> cases hadvance <;> exact h.setStack c _ (by rw [hstack]; rfl)
    | requesting t =>
      cases hadvance
      exact h.requestSection hstack

theorem Accounted.step (h : Accounted w)
    (hcancelled : ∀ t, (w.tasks t).status = .Cancelled → (w.tasks t).cancellationRequested = true)
    {a : Action Caller T V E} {w' : World Caller T V E} (hstep : Step w a w') : Accounted w' := by
  cases a with
  | call c call =>
    cases hstep
    exact h.enter hcancelled c call
  | advance c => exact h.advance hstep
  | expire t =>
    cases hstep
    exact ⟨⟨h.fresh, h.waiting, h.pending, h.ran, h.waiting_nodup, h.pending_nodup, h.unique⟩, h.kept⟩

omit [DecidableEq Caller] [DecidableEq T] in
theorem Accounted.initial : Accounted ({} : World Caller T V E) := by
  refine ⟨⟨fun _ _ => ⟨rfl, rfl⟩, fun t kind k hk => ?_, nofun, fun k hk => absurd rfl hk,
    fun t kind => ?_, fun _ => List.nodup_nil, nofun⟩, nofun⟩
  · cases kind <;> cases hk
  · cases kind <;> exact List.nodup_nil

end

end zl.vm.task
