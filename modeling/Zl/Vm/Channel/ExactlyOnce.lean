import Mathlib
import Zl.Vm.Channel.Delivery

open zl.transition zl.vm.task

namespace zl.vm.channel

section
variable {Op V : Type} [DecidableEq Op] {w w' : World Op V} {c t : Op} {value : V} {item : Item Op V}
  {own : List (Completion Op V)} {result : Option (Item Op V)}
variable {k : Completion Op V}

/-- What must not come between: a call of `cancel` makes its transition while another call is
    completing the task, or a send puts its value into the buffer while live senders wait. -/
def Undisturbed (w : World Op V) : Action Op V → Prop
  | .begin _ _ => True
  | .advance c => ∀ t, w.phase c = .cancelling → w.operation c = some (.cancel t) → t ∉ w.handedOff
  | .section c _ => (∃ value, w.Sent (c, value)) → w.items.length < w.capacity → w.liveSends = []

omit [DecidableEq Op] in
theorem OwnSend.tasks_sublist (hown : OwnSend w c value own) : (own.map (·.task)).Sublist [c] := by
  rcases hown with ⟨-, rfl⟩ | ⟨-, rfl⟩
  · exact List.nil_sublist _
  · exact List.Sublist.refl _

omit [DecidableEq Op] in
theorem OwnReceive.tasks_sublist (hown : OwnReceive w c item own result) :
    (own.map (·.task)).Sublist [c] := by
  rcases hown with ⟨-, rfl, -⟩ | ⟨-, rfl, -⟩
  · exact List.nil_sublist _
  · exact List.Sublist.refl _

omit [DecidableEq Op] in
theorem OwnSend.fresh (hown : OwnSend w c value own) (hk : k ∈ own) :
    w.Async c ∧ k.started = false ∧ k.task = c := by
  rcases hown with ⟨-, rfl⟩ | ⟨hop, rfl⟩
  · nomatch hk
  · rw [List.mem_singleton.mp hk, World.Async, hop]
    exact ⟨rfl, rfl, rfl⟩

omit [DecidableEq Op] in
theorem OwnReceive.fresh (hown : OwnReceive w c item own result) (hk : k ∈ own) :
    w.Async c ∧ k.started = false ∧ k.task = c := by
  rcases hown with ⟨-, rfl, -⟩ | ⟨hop, rfl, -⟩
  · nomatch hk
  · rw [List.mem_singleton.mp hk, World.Async, hop]
    exact ⟨rfl, rfl, rfl⟩

omit [DecidableEq Op] in
/-- A section that only moves tasks between the queues and the hands of the call, but for the own
    task of the call. -/
theorem Tasks.refs_section (h : Tasks w) (hready : w.phase c = .ready)
    (hsub : (own.map (·.task)).Sublist [c])
    (hfresh : ∀ k ∈ own, w.Async c) (hrefs : w'.refs.Subperm (own.map (·.task) ++ w.refs)) :
    w'.refs.Subperm (c :: w.refs) ∧ (c ∈ w'.refs → w.Async c) := by
  refine ⟨hrefs.trans (hsub.append (List.Sublist.refl _)).subperm, fun hc => ?_⟩
  rcases List.mem_append.mp (hrefs.subset hc) with hc | hc
  · obtain ⟨k, hk, -⟩ := List.mem_map.mp hc
    exact hfresh k hk
  · exact absurd hc (h.ready_notMem hready)

theorem Tasks.handToReceiver (h : Tasks w) (hready : w.phase c = .ready)
    (hown : OwnSend w c value own) {rest : List Op}
    (hnext : nextLive w.live w.pendingReceives = some (t, rest)) :
    Tasks (w.handToReceiver c value own t rest) := by
  obtain ⟨hlive, dead, hqueue, -⟩ := nextLive_eq_some hnext
  have hwaits : t ∈ w.queued := List.mem_append_right _ (by rw [hqueue]; simp)
  have hrest {u : Op} (hu : u ∈ rest) : u ∈ w.pendingReceives := by rw [hqueue]; simp [hu]
  have hrefs : (w.handToReceiver c value own t rest).refs.Subperm (own.map (·.task) ++ w.refs) := by
    refine ⟨own.map (·.task) ++ (w.pendingSends.map (·.task) ++ (t :: rest) ++ w.handedOff), ?_, ?_⟩
    · refine List.perm_iff_count.mpr fun u => ?_
      simp only [World.refs, World.queued, World.handedOff, World.handToReceiver, List.map_append,
        List.map_cons, List.map_nil, List.count_append, List.count_cons, List.count_nil]
      omega
    · rw [World.refs, World.queued, hqueue]
      exact (List.Sublist.refl _).append
        (((List.Sublist.refl _).append (List.sublist_append_right _ _)).append (List.Sublist.refl _))
  obtain ⟨hrefs, hasync⟩ := h.refs_section hready hown.tasks_sublist (fun k hk => (hown.fresh hk).1) hrefs
  refine h.section hready rfl (by simp) (by simp) rfl (fun _ => rfl) (fun _ _ => rfl) hrefs hasync
    (fun u hu => ?_)
    (fun k hk => ?_) (fun p hp => .inl hp)
  · rcases List.mem_append.mp hu with hu | hu
    · exact .inl (List.mem_append_left _ hu)
    · exact .inl (List.mem_append_right _ (hrest hu))
  · rcases List.mem_append.mp hk with hk | hk
    · rcases List.mem_append.mp hk with hk | hk
      · exact .inl hk
      · exact .inr ⟨(hown.fresh hk).2.1, .inl (hown.fresh hk).2.2⟩
    · rw [List.mem_singleton.mp hk]
      exact .inr ⟨rfl, .inr ⟨hwaits, hlive⟩⟩

theorem Tasks.pushItem (h : Tasks w) (hready : w.phase c = .ready) (hown : OwnSend w c value own) :
    Tasks (w.pushItem c value own) := by
  have hrefs : (w.pushItem c value own).refs.Subperm (own.map (·.task) ++ w.refs) := by
    refine ⟨own.map (·.task) ++ (w.pendingSends.map (·.task) ++ w.handedOff), ?_, ?_⟩
    · refine List.perm_iff_count.mpr fun u => ?_
      simp only [World.refs, World.queued, World.handedOff, World.pushItem, List.map_append,
        List.append_nil, List.count_append]
      omega
    · exact (List.Sublist.refl _).append ((List.sublist_append_left _ _).append (List.Sublist.refl _))
  obtain ⟨hrefs, hasync⟩ := h.refs_section hready hown.tasks_sublist (fun k hk => (hown.fresh hk).1) hrefs
  refine h.section hready rfl (by simp) (by simp) rfl (fun _ => rfl) (fun _ _ => rfl) hrefs hasync
    (fun u hu => ?_)
    (fun k hk => ?_) (fun p hp => .inl hp)
  · rcases List.mem_append.mp hu with hu | hu
    · exact .inl (List.mem_append_left _ hu)
    · cases hu
  · rcases List.mem_append.mp hk with hk | hk
    · exact .inl hk
    · exact .inr ⟨(hown.fresh hk).2.1, .inl (hown.fresh hk).2.2⟩

theorem Tasks.popItem (h : Tasks w) (hready : w.phase c = .ready) {rest : List (Item Op V)}
    (hown : OwnReceive w c item own result) : Tasks (w.popItem c item rest own result) := by
  have hrefs : (w.popItem c item rest own result).refs.Subperm (own.map (·.task) ++ w.refs) := by
    refine List.Perm.subperm (List.perm_iff_count.mpr fun u => ?_)
    simp only [World.refs, World.queued, World.handedOff, World.popItem, List.map_append,
      List.count_append]
    omega
  obtain ⟨hrefs, hasync⟩ := h.refs_section hready hown.tasks_sublist (fun k hk => (hown.fresh hk).1) hrefs
  refine h.section hready rfl (by simp) (by simp) rfl (fun _ => rfl) (fun _ _ => rfl) hrefs hasync
    (fun u hu => .inl hu)
    (fun k hk => ?_) (fun p hp => .inl hp)
  rcases List.mem_append.mp hk with hk | hk
  · exact .inl hk
  · exact .inr ⟨(hown.fresh hk).2.1, .inl (hown.fresh hk).2.2⟩

theorem Tasks.takeFromSender (h : Tasks w) (hready : w.phase c = .ready) {sender : PendingSend Op V}
    {rest : List (PendingSend Op V)} (hown : OwnReceive w c item own result)
    (hnext : nextLive (fun p => w.live p.task) w.pendingSends = some (sender, rest)) :
    Tasks (w.takeFromSender c sender rest own result) := by
  obtain ⟨hlive, dead, hqueue, -⟩ := nextLive_eq_some hnext
  have hwaits : sender.task ∈ w.queued := List.mem_append_left _ (by rw [hqueue]; simp)
  have hrest {p : PendingSend Op V} (hp : p ∈ rest) : p ∈ w.pendingSends := by rw [hqueue]; simp [hp]
  have hrefs : (w.takeFromSender c sender rest own result).refs.Subperm (own.map (·.task) ++ w.refs) := by
    refine ⟨own.map (·.task) ++ ((sender :: rest).map (·.task) ++ w.pendingReceives ++ w.handedOff),
      ?_, ?_⟩
    · refine List.perm_iff_count.mpr fun u => ?_
      simp only [World.refs, World.queued, World.handedOff, World.takeFromSender, List.map_append,
        List.map_cons, List.count_append, List.count_cons]
      omega
    · rw [World.refs, World.queued, hqueue, List.map_append]
      exact (List.Sublist.refl _).append
        (((List.sublist_append_right _ _).append (List.Sublist.refl _)).append (List.Sublist.refl _))
  obtain ⟨hrefs, hasync⟩ := h.refs_section hready hown.tasks_sublist (fun k hk => (hown.fresh hk).1) hrefs
  refine h.section hready rfl (by simp) (by simp) rfl (fun _ => rfl) (fun _ _ => rfl) hrefs hasync
    (fun u hu => ?_)
    (fun k hk => ?_) (fun p hp => .inl (hrest hp))
  · rcases List.mem_append.mp hu with hu | hu
    · obtain ⟨p, hp, rfl⟩ := List.mem_map.mp hu
      exact .inl (List.mem_append_left _ (List.mem_map_of_mem (hrest hp)))
    · exact .inl (List.mem_append_right _ hu)
  · rcases List.mem_append.mp hk with hk | hk
    · exact .inl hk
    · rcases List.mem_cons.mp hk with rfl | hk
      · exact .inr ⟨rfl, .inr ⟨hwaits, hlive⟩⟩
      · exact .inr ⟨(hown.fresh hk).2.1, .inl (hown.fresh hk).2.2⟩

theorem Tasks.enqueue (h : Tasks w) (hready : w.phase c = .ready) (hasync : w.Async c)
    (hphase : w'.phase = Function.update w.phase c (.returned none))
    (hoperation : w'.operation = w.operation)
    {s : RuntimeTaskState Op (Option (Item Op V)) Unit} (hstatus : s.status = .Pending)
    (htasks : w'.tasks = Function.update w.tasks c s) (hcompletions : w'.completions = w.completions)
    (hqueued : w'.queued.Subperm (c :: w.queued)) (hsends : ∀ p ∈ w'.pendingSends, p ∈ w.pendingSends ∨
      w.operation p.task = some (.sendAsync p.value)) : Tasks w' := by
  have hfresh : w.tasks c = {} := h.fresh c (not_begun_of_ready hready)
  refine h.section hready hphase (by simp) (by simp) hoperation (fun t => ?_) (fun t ht => ?_) ?_
    (fun _ => hasync)
    (fun t ht => (List.mem_cons.mp (hqueued.subset ht)).symm)
      (fun k hk => .inl (hcompletions ▸ hk)) hsends
  · by_cases ht : t = c
    · rw [ht, htasks, Function.update_self, hfresh]
      exact hstatus
    · rw [htasks, Function.update_of_ne ht]
  · rw [htasks, Function.update_of_ne ht]
  · rw [World.refs, World.handedOff, hcompletions]
    exact hqueued.append (List.Subperm.refl _)

/-- What holds between any two steps. -/
structure Inv (w : World Op V) : Prop where
  tasks : Tasks w
  delivery : Delivery w

omit [DecidableEq Op] in
theorem Inv.dropQueues (h : Inv w) {sends : List (PendingSend Op V)} {receives : List Op}
    (hreceives : receives.Sublist w.pendingReceives) (hsends : sends.Sublist w.pendingSends)
    (hlive : ∀ p ∈ w.pendingSends, w.live p.task = true → p ∈ sends) :
    Inv { w with pendingSends := sends, pendingReceives := receives } :=
  ⟨h.tasks.dropQueues hsends hreceives, h.delivery.dropQueues h.tasks hreceives hsends hlive⟩

theorem Inv.setPhase (h : Inv w) {phase : Phase Op V} (hfrom : ∀ result, w.phase c ≠ .returned result)
    (hcarries : ∀ item, w.phase c ≠ .completing (some item)) (hbegun : phase ≠ .idle ∧ phase ≠ .ready)
    (hto : ∀ item, phase ≠ .completing (some item) ∧ phase ≠ .returned (some item))
    (hnoticed : ∀ t, w.operation c = some (.cancel t) →
      (phase = .requesting ∨ ∃ observers, phase = .observing observers) → (w.tasks t).status ≠ .Pending)
    (hsend : ∀ value, w.operation c = some (.send value) → phase = .failed)
    (hsendAsync : ∀ value, w.operation c ≠ some (.sendAsync value)) : Inv (w.setPhase c phase) := by
  refine ⟨h.tasks.setPhase (hfrom none) hbegun hnoticed,
    h.delivery.setPhase hbegun (fun item => ?_) (fun v hv hphase => ?_)
    fun v hv => absurd hv (hsendAsync v)⟩
  · refine iff_of_false ?_ ?_
    · rintro (hp | hp)
      · exact (hto item).1 hp
      · exact (hto item).2 hp
    · rintro (hp | hp)
      · exact hcarries item hp
      · exact hfrom (some item) hp
  · obtain ⟨result', hp | hp⟩ := hphase <;> cases hp.symm.trans (hsend v hv)

/-- A blocking call gives up: nobody could ever answer it. -/
theorem Inv.fail (h : Inv w) (hready : w.phase c = .ready)
    (hsendAsync : ∀ value, w.operation c ≠ some (.sendAsync value)) :
    Inv (w.setPhase c .failed) :=
  h.setPhase (by simp [hready]) (by simp [hready]) (by simp) (by simp) (by simp)
    (fun _ _ => rfl) hsendAsync

theorem Inv.channelSend (h : Inv w) (hready : w.phase c = .ready) (hop : w.operation c = some (.send value))
    (hok : w.items.length < w.capacity → w.liveSends = []) (wouldDeadlock : Bool) :
    Inv (w.channelSend c value wouldDeadlock) := by
  have hown : OwnSend w c value [] := .inl ⟨hop, rfl⟩
  unfold World.channelSend
  split
  · next hnext => exact ⟨h.tasks.handToReceiver hready hown hnext,
        h.delivery.handToReceiver hready hown hnext⟩
  · split
    · next hroom => exact ⟨h.tasks.pushItem hready hown,
          h.delivery.pushItem hready hown hroom (hok hroom)⟩
    · split
      · exact (h.fail hready (by simp [hop])).dropQueues (List.nil_sublist _) (List.Sublist.refl _)
          fun _ hp _ => hp
      · exact h.dropQueues (List.nil_sublist _) (List.Sublist.refl _) fun _ hp _ => hp

theorem Inv.channelSendAsync (h : Inv w) (hready : w.phase c = .ready)
    (hop : w.operation c = some (.sendAsync value))
    (hok : w.items.length < w.capacity → w.liveSends = []) : Inv (w.channelSendAsync c value) := by
  have hown : OwnSend w c value [{ caller := c, task := c }] := .inr ⟨hop, rfl⟩
  have hfresh : w.tasks c = {} := h.tasks.fresh c (not_begun_of_ready hready)
  unfold World.channelSendAsync
  split
  · next hnext => exact ⟨h.tasks.handToReceiver hready hown hnext,
        h.delivery.handToReceiver hready hown hnext⟩
  · split
    · next hroom => exact ⟨h.tasks.pushItem hready hown,
          h.delivery.pushItem hready hown hroom (hok hroom)⟩
    · refine ⟨h.tasks.enqueue hready ?_ rfl rfl ?_ rfl rfl ?_ fun p hp => ?_,
        h.delivery.enqueueSend hready hfresh ?_⟩
      · rw [World.Async, hop]
        rfl
      · rw [hfresh]
      · refine ⟨c :: w.pendingSends.map (·.task), ?_, ?_⟩
        · refine List.perm_iff_count.mpr fun u => ?_
          simp only [World.queued, List.map_append, List.map_cons, List.map_nil, List.append_nil,
            List.count_append, List.count_cons, List.count_nil]
          omega
        · exact (List.sublist_append_left _ _).cons_cons c
      · rcases List.mem_append.mp hp with hp | hp
        · exact .inl hp
        · rw [List.mem_singleton.mp hp]
          exact .inr hop
      · rw [hfresh]
        exact ⟨rfl, rfl⟩

theorem Inv.channelReceive (h : Inv w) (hready : w.phase c = .ready) (hop : w.operation c = some .receive)
    (wouldDeadlock : Bool) : Inv (w.channelReceive c wouldDeadlock) := by
  unfold World.channelReceive
  split
  · next item rest hitems =>
    have hown : OwnReceive w c item [] (some item) := .inl ⟨hop, rfl, rfl⟩
    exact ⟨h.tasks.popItem hready hown, h.delivery.popItem hready hown hitems⟩
  · next hitems =>
    split
    · next sender rest hnext =>
      have hown : OwnReceive w c (sender.task, sender.value) [] (some (sender.task, sender.value)) :=
        .inl ⟨hop, rfl, rfl⟩
      exact ⟨h.tasks.takeFromSender hready hown hnext,
        h.delivery.takeFromSender h.tasks hready hitems hown hnext⟩
    · next hnext =>
      have hdead : ∀ p ∈ w.pendingSends, w.live p.task = true → p ∈ ([] : List (PendingSend Op V)) :=
        fun p hp hlive => by
        rw [nextLive_eq_none hnext p hp] at hlive
        cases hlive
      split
      · exact (h.fail hready (by simp [hop])).dropQueues (List.Sublist.refl _) (List.nil_sublist _) hdead
      · exact h.dropQueues (List.Sublist.refl _) (List.nil_sublist _) hdead

theorem Inv.channelReceiveAsync (h : Inv w) (hready : w.phase c = .ready)
    (hop : w.operation c = some .receiveAsync) :
    Inv (w.channelReceiveAsync c) := by
  have hfresh : w.tasks c = {} := h.tasks.fresh c (not_begun_of_ready hready)
  unfold World.channelReceiveAsync
  split
  · next item rest hitems =>
    have hown : OwnReceive w c item [{ caller := c, task := c, result := some item }] none :=
      .inr ⟨hop, rfl, rfl⟩
    exact ⟨h.tasks.popItem hready hown, h.delivery.popItem hready hown hitems⟩
  · next hitems =>
    split
    · next sender rest hnext =>
      have hown : OwnReceive w c (sender.task, sender.value)
          [{ caller := c, task := c, result := some (sender.task, sender.value) }] none :=
            .inr ⟨hop, rfl, rfl⟩
      exact ⟨h.tasks.takeFromSender hready hown hnext,
        h.delivery.takeFromSender h.tasks hready hitems hown hnext⟩
    · next hnext =>
      refine ⟨h.tasks.enqueue hready ?_ rfl rfl ?_ rfl rfl ?_ (fun p hp => nomatch hp),
        h.delivery.enqueueReceive h.tasks hready hop ?_ hitems hnext⟩
      · rw [World.Async, hop]
        rfl
      · rw [hfresh]
      · refine ⟨c :: w.pendingReceives, ?_, ?_⟩
        · refine List.perm_iff_count.mpr fun u => ?_
          simp only [World.queued, List.map_nil, List.nil_append, List.count_append,
            List.count_cons, List.count_nil]
          omega
        · exact (List.sublist_append_right _ _).cons_cons c
      · rw [hfresh]
        exact ⟨rfl, rfl⟩

theorem Inv.begin (h : Inv w) {operation : Operation Op V} (hidle : w.phase c = .idle)
    (hmay : w.mayBegin operation = true) :
    Inv { w.setPhase c .ready with operation := Function.update w.operation c (some operation) } := by
  have hother {t : Op} (ht : t ≠ c) : (w.setPhase c .ready).phase t = w.phase t :=
    Function.update_of_ne ht _ _
  have hown : (w.setPhase c .ready).phase c = .ready := Function.update_self _ _ _
  have hop {t : Op} (ht : t ≠ c) : Function.update w.operation c (some operation) t = w.operation t :=
    Function.update_of_ne ht _ _
  have hne {t : Op} (ht : w.Begun t) : t ≠ c := fun heq => ht.1 (heq ▸ hidle)
  have hbegun {t : Op} : (w.setPhase c .ready).Begun t ↔ w.Begun t := by
    by_cases ht : t = c
    · rw [ht]
      exact iff_of_false (not_begun_of_ready hown) fun hb => hb.1 hidle
    · rw [World.Begun, hother ht, World.Begun]
  have hphase (r : Op) (phase : Phase Op V) (hnot : phase ≠ .idle ∧ phase ≠ .ready) :
      (w.setPhase c .ready).phase r = phase ↔ w.phase r = phase := by
    by_cases hr : r = c
    · rw [hr, hown, hidle]
      exact iff_of_false hnot.2.symm hnot.1.symm
    · rw [hother hr]
  have hiff (r : Op) (item : Item Op V) :
      (w.setPhase c .ready).Carried r item ∨ (w.setPhase c .ready).Received r item ↔
        w.Carried r item ∨ w.Received r item := by
    rw [World.Carried, World.Received, hphase r _ (by simp), hphase r _ (by simp)]
    rfl
  have hdelivery := h.delivery
  -- An accepted send has begun, so it is not this call.
  have haccepted {s : Op} (hs : s ∈ w.accepted) : s ≠ c := hne (hdelivery.accepted_begun s hs)
  have hstays {s : Op} (hs : s ∈ w.deliveredSends ++ w.items.map (·.1)) : s ≠ c :=
    haccepted (hdelivery.order.subset (List.mem_append_left _ hs))
  have hsent {item : Item Op V} (hitem : item.1 ≠ c) (hs : w.Sent item) :
      World.Sent { w.setPhase c .ready with operation := Function.update w.operation c (some
        operation) } item :=
    hs.imp (hop hitem).trans (hop hitem).trans
  refine ⟨h.tasks.begin hidle hmay, hdelivery.bounded, hdelivery.order, hdelivery.accepted_nodup,
    fun s hs => hbegun.mpr (hdelivery.accepted_begun s hs), hdelivery.idle_receivers, hdelivery.located,
    fun p hp => (hiff p.2 p.1).mpr (hdelivery.arrives p hp), fun r item hon =>
    hdelivery.carried r item ((hiff r item).mp hon), fun s v hs hmem => ?_, fun item hitem => ?_,
    fun p hp => ?_, fun d v hd hphase' => ?_, fun d v hd hb => ?_⟩
  · exact hdelivery.settled s v ((hop (hstays hmem)).symm.trans hs) hmem
  · exact hsent (hstays (List.mem_append_right _ (List.mem_map_of_mem hitem)))
      (hdelivery.sent_items item hitem)
  · exact hsent (hstays (List.mem_append_left _ (List.mem_map_of_mem hp))) (hdelivery.sent_delivered p hp)
  · obtain ⟨result, hphase'⟩ := hphase'
    rw [hphase d _ (by simp), hphase d _ (by simp)] at hphase'
    have hdc : d ≠ c := fun heq => by
      rw [heq, hidle] at hphase'
      rcases hphase' with hp | hp <;> cases hp
    exact hdelivery.send_accepted d v ((hop hdc).symm.trans hd) ⟨result, hphase'⟩
  · have hb' : w.Begun d := hbegun.mp hb
    exact hdelivery.sendAsync_accepted d v ((hop (hne hb')).symm.trans hd) hb'

theorem Inv.dropCompletion (h : Inv w) (hk : k ∈ w.completions) (hstarted : k.started = true) :
    Inv ((w.setTask k.task ((w.tasks k.task).succeed k.result)).dropCompletion k) := by
  have hmem : k.task ∈ w.refs := List.mem_append_right _ (List.mem_map_of_mem hk)
  have hrunning : (w.tasks k.task).status = .Running := by
    have hstatus := h.tasks.handed k hk
    rwa [hstarted] at hstatus
  have hopen : (w.tasks k.task).isTerminal = false := by rw [RuntimeTaskState.isTerminal, hrunning]; rfl
  have hself : k.sameAs k = true := by simp [Completion.sameAs]
  have hsub : (w.completions.filter fun other => !k.sameAs other).Sublist w.completions :=
    List.filter_sublist
  have hne {k' : Completion Op V} (hk' : k' ∈ w.completions.filter fun other => !k.sameAs other) :
    k'.task ≠ k.task := fun heq => by
    obtain ⟨hold, hnot⟩ := List.mem_filter.mp hk'
    rw [h.tasks.completion_unique hold hk heq, hself] at hnot
    cases hnot
  refine ⟨h.tasks.transition (h.tasks.refs_async _ hmem) (h.tasks.refs_begun _ hmem) (hsub.map _)
    (fun hqueued => absurd hqueued (h.tasks.not_queued hk))
      (fun k' hk' => .inl ⟨hne hk', hsub.subset hk'⟩)
    (fun hpending => by cases hpending), h.delivery.transition hopen (fun k' hk' => ?_)
    (fun k' hk' => ⟨k', hsub.subset hk', rfl, rfl⟩) fun result _ hresult =>
      ⟨k, hk, rfl, Option.some.inj hresult⟩⟩
  · by_cases hsame : k.sameAs k' = true
    · have heq : k'.task = k.task := by
        rw [Completion.sameAs, Bool.and_eq_true, decide_eq_true_eq, decide_eq_true_eq] at hsame
        exact hsame.2
      obtain rfl := h.tasks.completion_unique hk' hk heq
      exact .inr ⟨rfl, rfl, rfl⟩
    · exact .inl ⟨k', List.mem_filter.mpr ⟨hk', by simpa using hsame⟩, rfl, rfl⟩

theorem Inv.markStarted (h : Inv w) (hk : k ∈ w.completions)
    (hpending : (w.tasks k.task).status = .Pending) :
    Inv ((w.setTask k.task (w.tasks k.task).start).markStarted k) := by
  have hmem : k.task ∈ w.refs := List.mem_append_right _ (List.mem_map_of_mem hk)
  have hopen : (w.tasks k.task).isTerminal = false := by rw [RuntimeTaskState.isTerminal, hpending]; rfl
  have hstart : (w.tasks k.task).start.status = .Running := by
    rw [RuntimeTaskState.start, if_pos hpending]
  let mark (other : Completion Op V) : Completion Op V :=
    if k.sameAs other then { other with started := true } else other
  have hmark (other : Completion Op V) : (mark other).task = other.task ∧
      (mark other).result = other.result := by
    unfold mark
    split
    · exact ⟨rfl, rfl⟩
    · exact ⟨rfl, rfl⟩
  have hsame : (w.completions.map mark).map (·.task) = w.handedOff := by
    rw [List.map_map]
    exact List.map_congr_left fun other _ => (hmark other).1
  refine ⟨h.tasks.transition (h.tasks.refs_async _ hmem) (h.tasks.refs_begun _ hmem)
    (hsame ▸ List.Sublist.refl _)
    (fun hqueued => absurd hqueued (h.tasks.not_queued hk)) (fun k' hk' => ?_) (fun _ => hpending),
    h.delivery.transition hopen (fun k' hk' =>
    .inl ⟨mark k', List.mem_map_of_mem hk', (hmark k').1, (hmark k').2⟩)
      (fun k' hk' => ?_) fun _ hsucceeded => ?_⟩
  · obtain ⟨other, hother, rfl⟩ := List.mem_map.mp hk'
    by_cases heq : other.task = k.task
    · obtain rfl := h.tasks.completion_unique hother hk heq
      have hself : other.sameAs other = true := by simp [Completion.sameAs]
      exact .inr ⟨(hmark other).1, by rw [hstart, if_pos hself]; rfl⟩
    · have hnot : k.sameAs other = false := by simp [Completion.sameAs, heq]
      rw [hnot]
      exact .inl ⟨heq, hother⟩
  · obtain ⟨other, hother, rfl⟩ := List.mem_map.mp hk'
    exact ⟨other, hother, (hmark other).1.symm, (hmark other).2.symm⟩
  · cases hstart.symm.trans hsucceeded

/-- No transition of a task that a call completes is refused. -/
theorem Inv.complete (h : Inv w) (hphase : w.phase c = .completing result) :
    Inv (w.complete c result) := by
  have hbegun : w.Begun c := by rw [World.Begun, hphase]; simp
  unfold World.complete
  split
  · refine ⟨h.tasks.setPhase (by simp [hphase]) (by simp) (by simp),
      h.delivery.setPhase (by simp) (by simp [hphase]) (fun v hv _ => ?_) fun v hv => ?_⟩
    · exact h.delivery.send_accepted c v hv ⟨result, .inl hphase⟩
    · exact h.delivery.sendAsync_accepted c v hv hbegun
  · next k hfind =>
    have hk : k ∈ w.completions := List.mem_of_find?_eq_some hfind
    have hstatus := h.tasks.handed k hk
    split
    · next hstarted =>
      rw [hstarted, if_pos rfl] at hstatus
      rw [if_neg (by rw [RuntimeTaskState.isTerminal, hstatus]; simp [isTerminalStatus])]
      exact h.dropCompletion hk hstarted
    · next hnot =>
      rw [if_neg hnot] at hstatus
      rw [if_pos hstatus]
      exact h.markStarted hk hstatus

theorem Inv.taskCancel (h : Inv w) (hready : w.phase c = .ready) (hop : w.operation c = some (.cancel t)) :
    Inv (w.taskCancel c t) := by
  have hset {phase : Phase Op V} (hphase : phase = .cancelling ∨ phase = .requesting ∧
      (w.tasks t).status ≠ .Pending ∨ phase = .returned none) : Inv (w.setPhase c phase) := by
    refine h.setPhase (by simp [hready]) (by simp [hready]) ?_ ?_ (fun t' ht' hnoticed => ?_)
      (by simp [hop]) (by simp [hop])
    · rcases hphase with rfl | ⟨rfl, -⟩ | rfl <;> simp
    · rcases hphase with rfl | ⟨rfl, -⟩ | rfl <;> simp
    · obtain rfl : t = t' := by
        rw [hop] at ht'
        cases ht'
        rfl
      rcases hphase with rfl | ⟨-, hstatus⟩ | rfl
      · simp at hnoticed
      · exact hstatus
      · simp at hnoticed
  unfold World.taskCancel
  split
  · exact hset (.inl rfl)
  · next hrunning => exact hset (.inr (.inl ⟨rfl, by simp [hrunning]⟩))
  all_goals exact hset (.inr (.inr rfl))

theorem Inv.cancelTask (h : Inv w) (hphase : w.phase c = .cancelling)
    (hop : w.operation c = some (.cancel t)) (hok : t ∉ w.handedOff) : Inv (w.cancelTask c t) := by
  unfold World.cancelTask
  split
  · exact h.setPhase (by simp [hphase]) (by simp [hphase]) (by simp) (by simp) (by simp)
      (fun _ _ => rfl) (by simp [hop])
  · next hopen =>
    have hopen' : (w.tasks t).isTerminal = false := Bool.eq_false_iff.mpr hopen
    obtain ⟨hreturned, hasync⟩ := h.tasks.target c t hop
    have hbegun : w.Begun t := by rw [World.Begun, hreturned]; simp
    have hcancelled : Inv (w.setTask t (w.tasks t).cancel) := by
      refine ⟨h.tasks.transition hasync hbegun (List.Sublist.refl _) (fun _ => .inr rfl)
        (fun k hk => .inl ⟨?_, hk⟩)
        (fun hpending => by cases hpending), h.delivery.cancel hopen' rfl⟩
      exact fun heq => hok (heq ▸ List.mem_map_of_mem hk)
    refine hcancelled.setPhase ?_ ?_ (by simp) (by simp) (fun t' ht' _ => ?_) ?_ ?_
    · simp [World.setTask, hphase]
    · simp [World.setTask, hphase]
    · obtain rfl : t = t' := by
        cases hop.symm.trans ht'
        rfl
      change (Function.update w.tasks t (w.tasks t).cancel t).status ≠ .Pending
      rw [Function.update_self]
      simp [RuntimeTaskState.cancel, RuntimeTaskState.settle]
    · exact fun v hv => by cases hop.symm.trans hv
    · exact fun v hv => by cases hop.symm.trans hv

theorem Inv.requestCancellation (h : Inv w) (hphase : w.phase c = .requesting)
    (hop : w.operation c = some (.cancel t)) :
    Inv (w.requestCancellation c t) := by
  unfold World.requestCancellation
  split
  · exact h.setPhase (by simp [hphase]) (by simp [hphase]) (by simp) (by simp) (by simp)
      (by simp [hop]) (by simp [hop])
  · next hopen =>
    have hopen' : (w.tasks t).isTerminal = false :=
      Bool.eq_false_iff.mpr fun hterminal => hopen (.inl hterminal)
    obtain ⟨hreturned, hasync⟩ := h.tasks.target c t hop
    have hbegun : w.Begun t := by rw [World.Begun, hreturned]; simp
    have hrequested : Inv (w.setTask t (w.tasks t).requestCancellation) := by
      refine ⟨h.tasks.transition hasync hbegun (List.Sublist.refl _) (h.tasks.queued t)
        (fun k hk => ?_) id, h.delivery.transition hopen' (fun k hk => .inl ⟨k, hk, rfl, rfl⟩)
        (fun k hk => ⟨k, hk, rfl, rfl⟩)
          fun _ hsucceeded => ?_⟩
      · by_cases heq : k.task = t
        · exact .inr ⟨heq, heq ▸ h.tasks.handed k hk⟩
        · exact .inl ⟨heq, hk⟩
      · change (w.tasks t).status = .Succeeded at hsucceeded
        rw [RuntimeTaskState.isTerminal, hsucceeded] at hopen'
        cases hopen'
    have hnot : (w.tasks t).status ≠ .Pending := h.tasks.noticed c t hop (.inl hphase)
    refine hrequested.setPhase ?_ ?_ (by simp) (by simp) (fun t' ht' _ => ?_) ?_ ?_
    · simp [World.setTask, hphase]
    · simp [World.setTask, hphase]
    · obtain rfl : t = t' := by
        cases hop.symm.trans ht'
        rfl
      change (Function.update w.tasks t (w.tasks t).requestCancellation t).status ≠ .Pending
      rw [Function.update_self]
      exact hnot
    · exact fun v hv => by cases hop.symm.trans hv
    · exact fun v hv => by cases hop.symm.trans hv

theorem Inv.runObserver (h : Inv w) (hop : w.operation c = some (.cancel t))
    (hnoticed : w.Noticed c) (observer : Registration) :
    Inv (w.runObserver t observer) := by
  unfold World.runObserver
  split
  · refine h.dropQueues (List.Sublist.refl _) List.filter_sublist fun p hp hlive =>
      List.mem_filter.mpr ⟨hp, ?_⟩
    have hwaits : p.task ∈ w.queued := List.mem_append_left _ (List.mem_map_of_mem hp)
    have hpending := h.tasks.pending_of_live hwaits hlive
    exact decide_eq_true fun heq => h.tasks.noticed c t hop hnoticed (heq ▸ hpending)
  · exact h.dropQueues List.filter_sublist (List.Sublist.refl _) fun _ hp _ => hp

/-- An undisturbed step keeps every value accounted for. -/
theorem Inv.step (h : Inv w) {a : Action Op V} (hok : Undisturbed w a) (hstep : Step w a w') :
    Inv w' := by
  unfold Step next at hstep
  split at hstep
  · next c operation =>
    split at hstep
    · next hidle =>
      split at hstep
      · next hmay =>
        cases hstep
        exact h.begin hidle hmay
      · cases hstep
    · cases hstep
  · next c wouldDeadlock =>
    split at hstep
    · next value hready hop =>
      cases hstep
      exact h.channelSend hready hop (hok ⟨value, .inl hop⟩) wouldDeadlock
    · next hready hop =>
      cases hstep
      exact h.channelReceive hready hop wouldDeadlock
    · next value hready hop =>
      cases hstep
      exact h.channelSendAsync hready hop (hok ⟨value, .inr hop⟩)
    · next hready hop =>
      cases hstep
      exact h.channelReceiveAsync hready hop
    · cases hstep
  · next c =>
    split at hstep
    · next result hphase =>
      cases hstep
      exact h.complete hphase
    · next t hready hop =>
      cases hstep
      exact h.taskCancel hready hop
    · next t hphase hop =>
      cases hstep
      exact h.cancelTask hphase hop (hok t hphase hop)
    · next t hphase hop =>
      cases hstep
      exact h.requestCancellation hphase hop
    · next t hphase hop =>
      cases hstep
      exact h.setPhase (by simp [hphase]) (by simp [hphase]) (by simp) (by simp) (by simp)
        (by simp [hop]) (by simp [hop])
    · next observer rest t hphase hop =>
      cases hstep
      have hnoticed : w.Noticed c := .inr ⟨_, hphase⟩
      have hran := h.runObserver hop hnoticed observer
      have hsame : (w.runObserver t observer).phase = w.phase ∧
          (w.runObserver t observer).operation = w.operation ∧
          (w.runObserver t observer).tasks = w.tasks := by
        unfold World.runObserver
        split
        · exact ⟨rfl, rfl, rfl⟩
        · exact ⟨rfl, rfl, rfl⟩
      obtain ⟨hphase', hop', htasks'⟩ := hsame
      refine hran.setPhase ?_ ?_ (by simp) (by simp) (fun t' ht' _ => ?_) ?_ ?_
      · simp [hphase', hphase]
      · simp [hphase', hphase]
      · rw [hop', hop] at ht'
        cases ht'
        rw [htasks']
        exact h.tasks.noticed c t hop hnoticed
      · simp [hop', hop]
      · simp [hop', hop]
    · cases hstep

omit [DecidableEq Op] in
theorem Inv.initial (hinit : Initial w) : Inv w := by
  obtain ⟨capacity, hcapacity, rfl⟩ := hinit
  constructor
  · refine ⟨List.nodup_nil, ?_, ?_, ?_, ?_, fun _ _ => rfl, fun _ _ => rfl, ?_, ?_, ?_⟩ <;>
      simp [World.refs, World.queued, World.handedOff]
  · refine ⟨Nat.zero_le _, ?_, List.nodup_nil, ?_, ?_, ?_, ?_, ?_, ?_, ?_, ?_, ?_, ?_⟩ <;>
      simp [World.deliveredSends, World.liveSends, World.Carried, World.Received]

end

section
variable {Op V : Type}

/-- Each value arrives once and in order. A value that has left the channel is on its way until the
    call that brings it has completed its task, or has returned it. -/
structure ExactlyOnce (w : World Op V) : Prop where
  bounded : w.items.length ≤ w.capacity
  kept : ∀ item, w.SendCompleted item →
    item ∈ w.items ∧ (∀ r, ¬ w.Carried r item ∧ ¬ w.Received r item) ∨
      item ∉ w.items ∧ ∃! r, w.Carried r item ∨ w.Received r item
  arrived : (∀ c result, w.phase c ≠ .completing result) → w.completions = [] →
    ∀ item, w.SendCompleted item → item ∈ w.items ∧ (∀ r, ¬ w.Received r item) ∨ item ∉ w.items ∧
    ∃! r, w.Received r item
  cancelled : ∀ s value, w.operation s = some (.sendAsync value) → (w.tasks s).status = .Cancelled →
    (s, value) ∉ w.items ∧ ∀ r, ¬ w.Carried r (s, value) ∧ ¬ w.Received r (s, value)
  delivered_iff : ∀ item r, (item, r) ∈ w.delivered ↔ w.Carried r item ∨ w.Received r item
  accepted_once : w.accepted.Nodup
  ordered : (w.delivered.map (·.1.1)).Sublist w.accepted

variable {w : World Op V} {r : Op} {item : Item Op V}

theorem Delivery.delivered_iff (h : Delivery w) : (item, r) ∈ w.delivered ↔ w.Carried r item ∨
    w.Received r item :=
  ⟨h.arrives (item, r), h.carried r item⟩

theorem Delivery.sends_nodup (h : Delivery w) : (w.deliveredSends ++ w.items.map (·.1)).Nodup :=
  (List.nodup_append'.mp (h.order.nodup h.accepted_nodup)).1

/-- A value is brought to one receive only. -/
theorem Delivery.receiver_unique (h : Delivery w) {r r' : Op} (hr : (item, r) ∈ w.delivered)
    (hr' : (item, r') ∈ w.delivered) : r = r' :=
  congrArg Prod.snd (List.inj_on_of_nodup_map (List.nodup_append'.mp h.sends_nodup).1 hr hr' rfl)

theorem Delivery.not_delivered (h : Delivery w) (hitem : item ∈ w.items) :
    (item, r) ∉ w.delivered := fun hr =>
  (List.nodup_append'.mp h.sends_nodup).2.2 (List.mem_map_of_mem hr) (List.mem_map_of_mem hitem)

theorem sent_unique {item' : Item Op V} (hsent : w.Sent item) (hsent' : w.Sent item')
    (heq : item.1 = item'.1) : item = item' := by
  have hvalue : item.2 = item'.2 := by
    rcases hsent with hsent | hsent <;> rcases hsent' with hsent' | hsent' <;>
      rw [heq, hsent'] at hsent <;> simp_all
  exact Prod.ext heq hvalue

/-- The value of a send that was accepted and that left its queue is in the buffer or has been
    brought to a receive. -/
theorem Delivery.mem_or_delivered (h : Delivery w) (hsent : w.Sent item)
    (hmem : item.1 ∈ w.deliveredSends ∨ item.1 ∈ w.items.map (·.1)) : item ∈ w.items ∨ ∃ r,
      (item, r) ∈ w.delivered := by
  rcases hmem with hmem | hmem
  · obtain ⟨⟨item', r⟩, hp, heq⟩ := List.mem_map.mp hmem
    obtain rfl := sent_unique (h.sent_delivered _ hp) hsent heq
    exact .inr ⟨r, hp⟩
  · obtain ⟨item', hitem, heq⟩ := List.mem_map.mp hmem
    obtain rfl := sent_unique (h.sent_items _ hitem) hsent heq
    exact .inl hitem

theorem Inv.completed_located (h : Inv w) (hcompleted : w.SendCompleted item) :
    item ∈ w.items ∨ ∃ r, (item, r) ∈ w.delivered := by
  have hsent : w.Sent item := hcompleted.imp And.left And.left
  have hstatus : (w.tasks item.1).status ≠ .Cancelled ∧ item.1 ∉ w.pendingSends.map (·.task) := by
    rcases hcompleted with ⟨hop, -⟩ | ⟨-, hsucceeded⟩
    · have hasync : ¬ w.Async item.1 := by simp [World.Async, hop, Operation.isAsync]
      refine ⟨by simp [h.tasks.blocking _ hasync], fun hmem => ?_⟩
      obtain ⟨p, hp, heq⟩ := List.mem_map.mp hmem
      have hsendAsync := h.tasks.sends p hp
      rw [heq, hop] at hsendAsync
      cases hsendAsync
    · refine ⟨by simp [hsucceeded], fun hmem => ?_⟩
      rcases h.tasks.queued _ (List.mem_append_left _ hmem) with hq | hq <;>
        cases hsucceeded.symm.trans hq
  have haccepted : item.1 ∈ w.accepted := by
    rcases hcompleted with ⟨hop, hreturned⟩ | ⟨hop, hsucceeded⟩
    · exact h.delivery.send_accepted _ _ hop ⟨none, .inr hreturned⟩
    · refine h.delivery.sendAsync_accepted _ _ hop ?_
      by_contra hnot
      rw [h.tasks.fresh _ hnot] at hsucceeded
      cases hsucceeded
  rcases h.delivery.located _ haccepted with hloc | hloc | hloc | hloc
  · exact h.delivery.mem_or_delivered hsent (.inl hloc)
  · exact h.delivery.mem_or_delivered hsent (.inr hloc)
  · exact absurd hloc hstatus.2
  · exact absurd hloc hstatus.1

/-- A cancelled `sendAsync` is in the hands of no call, so its value never left its queue. -/
theorem Inv.cancelled_not_sent (h : Inv w) {s : Op} {value : V}
    (hop : w.operation s = some (.sendAsync value))
    (hcancelled : (w.tasks s).status = .Cancelled) : s ∉ w.deliveredSends ++ w.items.map (·.1) :=
  fun hmem => by
  rcases h.delivery.settled s value hop hmem with hsucceeded | hhanded
  · cases hsucceeded.symm.trans hcancelled
  · obtain ⟨k, hk, rfl⟩ := List.mem_map.mp hhanded
    have hstatus := h.tasks.handed k hk
    rw [hcancelled] at hstatus
    split at hstatus <;> cases hstatus

theorem Inv.exactlyOnce (h : Inv w) : ExactlyOnce w := by
  have hdelivered (item : Item Op V) (r : Op) : (item, r) ∈ w.delivered ↔ w.Carried r item ∨
    w.Received r item := h.delivery.delivered_iff
  have hkept (item : Item Op V) (hcompleted : w.SendCompleted item) :
      item ∈ w.items ∧ (∀ r, ¬ w.Carried r item ∧ ¬ w.Received r item) ∨
        item ∉ w.items ∧ ∃! r, w.Carried r item ∨ w.Received r item := by
    rcases h.completed_located hcompleted with hitem | ⟨r, hr⟩
    · exact .inl ⟨hitem, fun r => not_or.mp fun hon =>
        h.delivery.not_delivered hitem ((hdelivered item r).mpr hon)⟩
    · refine .inr ⟨fun hitem => h.delivery.not_delivered hitem hr, r, (hdelivered item r).mp hr,
        fun r' hr' => ?_⟩
      exact h.delivery.receiver_unique ((hdelivered item r').mpr hr') hr
  refine ⟨h.delivery.bounded, hkept, fun hphase hnone item hcompleted => ?_,
    fun s value hop hcancelled => ?_, hdelivered, h.delivery.accepted_nodup, ?_⟩
  · have hcarried (r : Op) : ¬ w.Carried r item := by
      rintro (hcarried | ⟨k, hk, -⟩)
      · exact hphase r _ hcarried
      · rw [hnone] at hk
        nomatch hk
    simpa [hcarried] using hkept item hcompleted
  · have hnot := h.cancelled_not_sent hop hcancelled
    refine ⟨fun hitem => hnot (List.mem_append_right _ (List.mem_map_of_mem hitem)), fun r =>
      not_or.mp fun hon => ?_⟩
    exact hnot (List.mem_append_left _ (List.mem_map_of_mem ((hdelivered _ r).mpr hon)))
  · exact ((List.sublist_append_left _ _).trans (List.sublist_append_left _ _)).trans h.delivery.order

variable [DecidableEq Op]

/-- While no call of `cancel` cuts in between a handoff and its completion, and no send overtakes
    one that waits, the channel delivers each value exactly once and in order. -/
theorem exactlyOnce_of_undisturbed {past : List (World Op V × Action Op V)} (hrun : Run Initial Step w past)
    (hok : ∀ p ∈ past, Undisturbed p.1 p.2) : ExactlyOnce w := by
  have hinv : Inv w := hrun.invariant Inv Undisturbed (fun _ hinit => .initial hinit)
    (fun _ _ _ h hundisturbed hstep => h.step hundisturbed hstep) hok
  exact hinv.exactlyOnce

end

section

private theorem run_next {w w' : World (Fin 3) Nat} {past : List (World (Fin 3) Nat × Action (Fin 3) Nat)}
    (hrun : Run Initial Step w past) (a : Action (Fin 3) Nat) (hnext : next w a = some w') :
    Run Initial Step w' ((w, a) :: past) := .step hrun hnext

/-- A receiver that waits gets the value of a `send`. -/
theorem exactlyOnce_of_undisturbed_handoff : ∃ (w : World (Fin 3) Nat) (past : _),
    Run Initial Step w past ∧ w.delivered = [((1, 7), 0)] ∧ ExactlyOnce w := by
  have h₀ : Run Initial Step ({ capacity := 1 } : World (Fin 3) Nat) [] := .start ⟨1, Nat.one_pos, rfl⟩
  have h₁ := run_next h₀ (.begin 0 .receiveAsync) rfl
  have h₂ := run_next h₁ (.section 0 false) rfl
  have h₃ := run_next h₂ (.begin 1 (.send 7)) rfl
  have h₄ := run_next h₃ (.section 1 false) rfl
  have h₅ := run_next h₄ (.advance 1) rfl
  have h₆ := run_next h₅ (.advance 1) rfl
  have h₇ := run_next h₆ (.advance 1) rfl
  refine ⟨_, _, h₇, rfl, exactlyOnce_of_undisturbed h₇ fun p hp => ?_⟩
  simp only [List.mem_cons, List.not_mem_nil, or_false] at hp
  rcases hp with rfl | rfl | rfl | rfl | rfl | rfl | rfl
  · exact fun t hphase _ => by cases hphase
  · exact fun t hphase _ => by cases hphase
  · exact fun t hphase _ => by cases hphase
  · exact fun _ _ => rfl
  · trivial
  · exact fun _ _ => rfl
  · trivial

/-- The receiver that waits is cancelled after the `send` has handed its value over, and before it
    completes the receiver's task. -/
theorem cancel_loses_value : ¬ ∀ (w : World (Fin 3) Nat) (past : _), Run Initial Step w past →
    ExactlyOnce w := by
  intro hall
  have h₀ : Run Initial Step ({ capacity := 1 } : World (Fin 3) Nat) [] := .start ⟨1, Nat.one_pos, rfl⟩
  have h₁ := run_next h₀ (.begin 0 .receiveAsync) rfl
  have h₂ := run_next h₁ (.section 0 false) rfl
  have h₃ := run_next h₂ (.begin 1 (.send 7)) rfl
  have h₄ := run_next h₃ (.section 1 false) rfl
  have h₅ := run_next h₄ (.begin 2 (.cancel 0)) rfl
  have h₆ := run_next h₅ (.advance 2) rfl
  have h₇ := run_next h₆ (.advance 2) rfl
  have h₈ := run_next h₇ (.advance 2) rfl
  have h₉ := run_next h₈ (.advance 2) rfl
  have h₁₀ := run_next h₉ (.advance 1) rfl
  have h₁₁ := run_next h₁₀ (.advance 1) rfl
  rcases (hall _ _ h₁₁).kept (1, 7) (.inl ⟨rfl, rfl⟩) with ⟨hitem, -⟩ | ⟨-, r, hr, -⟩
  · cases hitem
  · match r with
    | 0 => rcases hr with (hr | ⟨_, hr, -⟩) | (hr | ⟨hr, -⟩) <;> cases hr
    | 1 => rcases hr with (hr | ⟨_, hr, -⟩) | (hr | ⟨hr, -⟩) <;> cases hr
    | 2 => rcases hr with (hr | ⟨_, hr, -⟩) | (hr | ⟨hr, -⟩) <;> cases hr

end

end zl.vm.channel
