import Zl.Vm.Channel.Handoffs

open zl.transition zl.vm.task

namespace zl.vm.channel

section
variable {Op V : Type}
variable {s : RuntimeTaskState Op (Option (Item Op V)) Unit} {w' : World Op V}

namespace World
variable (w : World Op V)

/-- A call that has left the lock brings the item to the receive `r`. -/
def Carried (r : Op) (item : Item Op V) : Prop :=
  w.phase r = .completing (some item) ∨ ∃ k ∈ w.completions, k.task = r ∧ k.result = some item

/-- The item is the result of the receive `r`: it has returned it, or its task has succeeded with it. -/
def Received (r : Op) (item : Item Op V) : Prop :=
  w.phase r = .returned (some item) ∨ (w.tasks r).status = .Succeeded ∧
    (w.tasks r).result = some (some item)

/-- The call offers the value. -/
def Sent (item : Item Op V) : Prop :=
  w.operation item.1 = some (.send item.2) ∨ w.operation item.1 = some (.sendAsync item.2)

/-- The send has returned, or its task has succeeded. -/
def SendCompleted (item : Item Op V) : Prop :=
  w.operation item.1 = some (.send item.2) ∧ w.phase item.1 = .returned none ∨
    w.operation item.1 = some (.sendAsync item.2) ∧ (w.tasks item.1).status = .Succeeded

/-- The sends whose values have left the channel, in that order. -/
def deliveredSends : List Op := w.delivered.map (·.1.1)

/-- The sends that wait and are not cancelled. -/
def liveSends : List Op := (w.pendingSends.filter fun p => w.live p.task).map (·.task)

end World

/-- Where the values are: each accepted one is in the buffer, waits, is on its way to one receive or
    has arrived there, and they leave in the order in which they were accepted. -/
structure Delivery (w : World Op V) : Prop where
  bounded : w.items.length ≤ w.capacity
  order : (w.deliveredSends ++ w.items.map (·.1) ++ w.liveSends).Sublist w.accepted
  accepted_nodup : w.accepted.Nodup
  accepted_begun : ∀ s ∈ w.accepted, w.Begun s
  idle_receivers : w.pendingReceives ≠ [] → w.items = [] ∧ w.pendingSends = []
  located : ∀ s ∈ w.accepted, s ∈ w.deliveredSends ∨ s ∈ w.items.map (·.1) ∨
    s ∈ w.pendingSends.map (·.task) ∨ (w.tasks s).status = .Cancelled
  arrives : ∀ p ∈ w.delivered, w.Carried p.2 p.1 ∨ w.Received p.2 p.1
  carried : ∀ r item, w.Carried r item ∨ w.Received r item → (item, r) ∈ w.delivered
  settled : ∀ s value, w.operation s = some (.sendAsync value) →
    s ∈ w.deliveredSends ++ w.items.map (·.1) → (w.tasks s).status = .Succeeded ∨ s ∈ w.handedOff
  sent_items : ∀ item ∈ w.items, w.Sent item
  sent_delivered : ∀ p ∈ w.delivered, w.Sent p.1
  send_accepted : ∀ c value, w.operation c = some (.send value) →
    (∃ result, w.phase c = .completing result ∨ w.phase c = .returned result) → c ∈ w.accepted
  sendAsync_accepted : ∀ c value, w.operation c = some (.sendAsync value) → w.Begun c → c ∈ w.accepted

/-- The completion of the own task that a send makes after its section, if it has a task. -/
def OwnSend (w : World Op V) (c : Op) (value : V) (own : List (Completion Op V)) : Prop :=
  w.operation c = some (.send value) ∧ own = [] ∨
    w.operation c = some (.sendAsync value) ∧ own = [{ caller := c, task := c }]

/-- How a receive gets its item: as its result, or as that of its task. -/
def OwnReceive (w : World Op V) (c : Op) (item : Item Op V) (own : List (Completion Op V))
    (result : Option (Item Op V)) : Prop :=
  w.operation c = some .receive ∧ own = [] ∧ result = some item ∨
    w.operation c = some .receiveAsync ∧ own = [{ caller := c, task := c, result := some item }] ∧
    result = none

variable {w : World Op V} {c t : Op} {value : V} {phase : Phase Op V}
  {own : List (Completion Op V)} {result : Option (Item Op V)} {item : Item Op V}

theorem OwnSend.sent (hown : OwnSend w c value own) : w.Sent (c, value) := hown.imp And.left And.left

theorem OwnSend.mem_own (hown : OwnSend w c value own) {v : V}
    (hasync : w.operation c = some (.sendAsync v)) :
    c ∈ own.map (·.task) := by
  rcases hown with ⟨hsend, -⟩ | ⟨-, rfl⟩
  · cases hasync.symm.trans hsend
  · exact List.mem_singleton_self c

theorem OwnSend.result_eq (hown : OwnSend w c value own) {k : Completion Op V} (hk : k ∈ own) :
    k.result = none := by
  rcases hown with ⟨-, rfl⟩ | ⟨-, rfl⟩
  · nomatch hk
  · rw [List.mem_singleton.mp hk]

theorem OwnReceive.not_sent (hown : OwnReceive w c item own result) (v : V) : ¬ w.Sent (c, v) := by
  rintro (hsend | hsend) <;> rcases hown with ⟨hreceive, -⟩ | ⟨hreceive, -⟩ <;>
    cases hsend.symm.trans hreceive

theorem live_congr {t : Op} (hstatus : (w'.tasks t).status = (w.tasks t).status) :
    w'.live t = w.live t := by
  rw [World.live, World.live, RuntimeTaskState.isTerminal, RuntimeTaskState.isTerminal, hstatus]

theorem filter_live_congr (hstatus : ∀ t, (w'.tasks t).status = (w.tasks t).status)
    (sends : List (PendingSend Op V)) :
    (sends.filter fun p => w'.live p.task) = sends.filter fun p => w.live p.task :=
  List.filter_congr fun p _ => live_congr (hstatus p.task)

/-- The receive gets the item it has taken, and nothing else. -/
theorem OwnReceive.carries_iff (hown : OwnReceive w c item own result) {r : Op} {item' : Item Op V} :
    (r = c ∧ Phase.completing result = .completing (some item') ∨ ∃ k ∈ own, k.task = r ∧
      k.result = some item') ↔ (item', r) ∈ [(item, c)] := by
  rcases hown with ⟨-, rfl, rfl⟩ | ⟨-, rfl, rfl⟩ <;> simp [eq_comm, and_comm]

/-- Elements of the queues that are not live are lost. -/
theorem Delivery.dropQueues (h : Delivery w) (htasks : Tasks w) {sends : List (PendingSend Op V)}
    {receives : List Op}
    (hreceives : receives.Sublist w.pendingReceives) (hsends : sends.Sublist w.pendingSends)
    (hlive : ∀ p ∈ w.pendingSends, w.live p.task = true → p ∈ sends) :
    Delivery { w with pendingSends := sends, pendingReceives := receives } := by
  refine ⟨h.bounded, ?_, h.accepted_nodup, h.accepted_begun, fun hne => ?_, fun s hs => ?_,
    h.arrives, h.carried, h.settled, h.sent_items, h.sent_delivered, h.send_accepted,
    h.sendAsync_accepted⟩
  · exact ((List.Sublist.refl _).append ((hsends.filter _).map _)).trans h.order
  · have hne' : w.pendingReceives ≠ [] := fun hnil => hne (List.sublist_nil.mp (hnil ▸ hreceives))
    obtain ⟨hitems, hnil⟩ := h.idle_receivers hne'
    exact ⟨hitems, List.sublist_nil.mp (hnil ▸ hsends)⟩
  · rcases h.located s hs with hloc | hloc | hloc | hloc
    · exact .inl hloc
    · exact .inr (.inl hloc)
    · obtain ⟨p, hp, rfl⟩ := List.mem_map.mp hloc
      cases halive : w.live p.task with
      | true => exact .inr (.inr (.inl (List.mem_map_of_mem (hlive p hp halive))))
      | false =>
        have hwaits : p.task ∈ w.queued := List.mem_append_left _ (List.mem_map_of_mem hp)
        exact .inr (.inr (.inr (htasks.cancelled_of_dead hwaits halive)))
    · exact .inr (.inr (.inr hloc))

variable [DecidableEq Op]

/-- A section brings on their way exactly the items it delivers. -/
theorem Delivery.arrives_section (h : Delivery w) (w' : World Op V) (hready : w.phase c = .ready)
    {new : List (Completion Op V)} {more : List (Item Op V × Op)}
    (hphase : w'.phase = Function.update w.phase c phase)
    (hcompletions : w'.completions = w.completions ++ new) (hdelivered : w'.delivered = w.delivered ++ more)
    (htasks : ∀ r, (w'.tasks r).status = (w.tasks r).status ∧ (w'.tasks r).result = (w.tasks r).result)
    (hreturned : ∀ item, phase ≠ .returned (some item))
    (hmore : ∀ r item, (r = c ∧ phase = .completing (some item) ∨ ∃ k ∈ new, k.task = r ∧
      k.result = some item) ↔ (item, r) ∈ more) :
    (∀ p ∈ w'.delivered, w'.Carried p.2 p.1 ∨ w'.Received p.2 p.1) ∧
      ∀ r item, w'.Carried r item ∨ w'.Received r item → (item, r) ∈ w'.delivered := by
  have hother {r : Op} (hr : r ≠ c) : w'.phase r = w.phase r := by rw [hphase, Function.update_of_ne hr]
  have hown : w'.phase c = phase := by rw [hphase, Function.update_self]
  have hne {r : Op} {p : Phase Op V} (hp : w.phase r = p) (hnot : p ≠ .ready) : r ≠ c := fun heq =>
    hnot (hp.symm.trans (heq ▸ hready))
  constructor
  · intro p hp
    rw [hdelivered] at hp
    rcases List.mem_append.mp hp with hp | hp
    · rcases h.arrives p hp with (hcarried | ⟨k, hk, hto⟩) | (hreceived | hreceived)
      · exact .inl (.inl ((hother (hne hcarried (by simp))).trans hcarried))
      · exact .inl (.inr ⟨k, hcompletions ▸ List.mem_append_left _ hk, hto⟩)
      · exact .inr (.inl ((hother (hne hreceived (by simp))).trans hreceived))
      · refine .inr (.inr ?_)
        rw [(htasks p.2).1, (htasks p.2).2]
        exact hreceived
    · rcases (hmore p.2 p.1).mpr hp with ⟨hr, hcarries⟩ | ⟨k, hk, hto⟩
      · exact .inl (.inl (by rw [hr, hown, hcarries]))
      · exact .inl (.inr ⟨k, hcompletions ▸ List.mem_append_right _ hk, hto⟩)
  · intro r item hon
    rw [hdelivered]
    rcases hon with (hcarried | ⟨k, hk, hto⟩) | (hreceived | hreceived)
    · by_cases hr : r = c
      · rw [hr, hown] at hcarried
        exact List.mem_append_right _ ((hmore r item).mp (.inl ⟨hr, hcarried⟩))
      · exact List.mem_append_left _ (h.carried r item (.inl (.inl ((hother hr).symm.trans hcarried))))
    · rw [hcompletions] at hk
      rcases List.mem_append.mp hk with hk | hk
      · exact List.mem_append_left _ (h.carried r item (.inl (.inr ⟨k, hk, hto⟩)))
      · exact List.mem_append_right _ ((hmore r item).mp (.inr ⟨k, hk, hto⟩))
    · by_cases hr : r = c
      · rw [hr, hown] at hreceived
        exact absurd hreceived (hreturned item)
      · exact List.mem_append_left _ (h.carried r item (.inr (.inl ((hother hr).symm.trans hreceived))))
    · rw [(htasks r).1, (htasks r).2] at hreceived
      exact List.mem_append_left _ (h.carried r item (.inr (.inr hreceived)))

theorem begun_update (hbegun : phase ≠ .idle ∧ phase ≠ .ready)
    (hphase : w'.phase = Function.update w.phase c phase) {s : Op} :
    w'.Begun s ↔ s = c ∨ w.Begun s := by
  rw [World.Begun, hphase]
  by_cases hs : s = c
  · rw [hs, Function.update_self]
    exact iff_of_true hbegun (.inl rfl)
  · rw [Function.update_of_ne hs, World.Begun]
    exact (or_iff_right hs).symm

/-- A section that accepts `news`, delivers `more` and leaves `new` completions to make. -/
theorem Delivery.section (h : Delivery w) (w' : World Op V) (hready : w.phase c = .ready)
    {new : List (Completion Op V)} {more : List (Item Op V × Op)} {news : List Op}
    (hphase : w'.phase = Function.update w.phase c phase) (hbegun : phase ≠ .idle ∧ phase ≠ .ready)
    (hoperation : w'.operation = w.operation)
    (htasks : ∀ r, (w'.tasks r).status = (w.tasks r).status ∧ (w'.tasks r).result = (w.tasks r).result)
    (hcompletions : w'.completions = w.completions ++ new) (hdelivered : w'.delivered = w.delivered ++ more)
    (haccepted : w'.accepted = w.accepted ++ news)
    (hnews : news = [c] ∨ news = [] ∧ ∀ value, ¬ w.Sent (c, value))
    (hbounded : w'.items.length ≤ w'.capacity)
    (horder : (w'.deliveredSends ++ w'.items.map (·.1) ++ w'.liveSends).Sublist w'.accepted)
    (hidle : w'.pendingReceives ≠ [] → w'.items = [] ∧ w'.pendingSends = [])
    (hlocated : ∀ s, s ∈ w.items.map (·.1) ∨ s ∈ w.pendingSends.map (·.task) ∨ s ∈ news →
      s ∈ w'.deliveredSends ∨ s ∈ w'.items.map (·.1) ∨ s ∈ w'.pendingSends.map (·.task) ∨
      (w.tasks s).status = .Cancelled)
    (hreturned : ∀ item, phase ≠ .returned (some item))
    (hmore : ∀ r item, (r = c ∧ phase = .completing (some item) ∨ ∃ k ∈ new, k.task = r ∧
      k.result = some item) ↔ (item, r) ∈ more)
    (hsettled : ∀ s value, w.operation s = some (.sendAsync value) →
      s ∈ more.map (·.1.1) ++ w'.items.map (·.1) → s ∈ w.items.map (·.1) ∨ s ∈ new.map (·.task))
    (hitems : ∀ item ∈ w'.items, item ∈ w.items ∨ w.Sent item) (hsent : ∀ p ∈ more, w.Sent p.1) :
    Delivery w' := by
  obtain ⟨harrives, hcarried⟩ :=
    h.arrives_section w' hready hphase hcompletions hdelivered htasks hreturned hmore
  have hnot : c ∉ w.accepted := fun hc => not_begun_of_ready hready (h.accepted_begun c hc)
  have hdeliveredSends : w'.deliveredSends = w.deliveredSends ++ more.map (·.1.1) := by
    rw [World.deliveredSends, hdelivered, List.map_append, World.deliveredSends]
  have hsentEq (item : Item Op V) : w'.Sent item ↔ w.Sent item := by
    rw [World.Sent, hoperation, World.Sent]
  have hmemNews {s : Op} (hs : s ∈ news) : s = c := by
    rcases hnews with rfl | ⟨rfl, -⟩
    · exact List.mem_singleton.mp hs
    · nomatch hs
  refine ⟨hbounded, horder, ?_, fun s hs => ?_, hidle, fun s hs => ?_, harrives, hcarried,
    fun s v hs hmem => ?_, fun item hitem => ?_, fun p hp => ?_, fun d v hd hphase' => ?_,
    fun d v hd hb => ?_⟩
  · rw [haccepted]
    refine List.nodup_append'.mpr ⟨h.accepted_nodup, ?_, fun s hs hs' => hnot (hmemNews hs' ▸ hs)⟩
    rcases hnews with rfl | ⟨rfl, -⟩
    · exact List.nodup_singleton c
    · exact List.nodup_nil
  · rw [haccepted] at hs
    refine (begun_update hbegun hphase).mpr ?_
    rcases List.mem_append.mp hs with hs | hs
    · exact .inr (h.accepted_begun s hs)
    · exact .inl (hmemNews hs)
  · rw [(htasks s).1]
    rw [haccepted] at hs
    rcases List.mem_append.mp hs with hs | hs
    · rcases h.located s hs with hloc | hloc | hloc | hloc
      · exact .inl (hdeliveredSends ▸ List.mem_append_left _ hloc)
      · exact hlocated s (.inl hloc)
      · exact hlocated s (.inr (.inl hloc))
      · exact .inr (.inr (.inr hloc))
    · exact hlocated s (.inr (.inr hs))
  · rw [hoperation] at hs
    have hold : s ∈ w.deliveredSends ++ w.items.map (·.1) ∨ s ∈ new.map (·.task) := by
      rw [hdeliveredSends, List.append_assoc] at hmem
      rcases List.mem_append.mp hmem with hmem | hmem
      · exact .inl (List.mem_append_left _ hmem)
      · exact (hsettled s v hs hmem).imp_left (List.mem_append_right _)
    rw [(htasks s).1, World.handedOff, hcompletions, List.map_append, List.mem_append]
    rcases hold with hold | hold
    · exact (h.settled s v hs hold).imp_right .inl
    · exact .inr (.inr hold)
  · rw [hsentEq]
    exact (hitems item hitem).elim (h.sent_items item) id
  · rw [hsentEq]
    rw [hdelivered] at hp
    exact (List.mem_append.mp hp).elim (h.sent_delivered p) (hsent p)
  · rw [hoperation] at hd
    rw [haccepted]
    by_cases hdc : d = c
    · rcases hnews with rfl | ⟨-, hnosend⟩
      · exact List.mem_append_right _ (List.mem_singleton.mpr hdc)
      · exact absurd (.inl (hdc ▸ hd)) (hnosend v)
    · refine List.mem_append_left _ (h.send_accepted d v hd ?_)
      rwa [hphase, Function.update_of_ne hdc] at hphase'
  · rw [hoperation] at hd
    rw [haccepted]
    rcases (begun_update hbegun hphase).mp hb with rfl | hb
    · rcases hnews with rfl | ⟨-, hnosend⟩
      · exact List.mem_append_right _ (List.mem_singleton_self _)
      · exact absurd (.inr hd) (hnosend v)
    · exact List.mem_append_left _ (h.sendAsync_accepted d v hd hb)

/-- A send meets a receiver that waits. -/
theorem Delivery.handToReceiver (h : Delivery w) (hready : w.phase c = .ready)
    (hown : OwnSend w c value own)
    {rest : List Op} (hnext : nextLive w.live w.pendingReceives = some (t, rest)) :
    Delivery (w.handToReceiver c value own t rest) := by
  obtain ⟨-, dead, hqueue, -⟩ := nextLive_eq_some hnext
  obtain ⟨hitems, hsends⟩ := h.idle_receivers (by rw [hqueue]; simp)
  have hlive : w.liveSends = [] := by rw [World.liveSends, hsends]; rfl
  have horder := h.order
  rw [hitems, hlive, List.map_nil, List.append_nil, List.append_nil] at horder
  have hdelivered : (w.handToReceiver c value own t rest).deliveredSends = w.deliveredSends ++ [c] := by
    simp [World.deliveredSends, World.handToReceiver]
  refine h.section (w.handToReceiver c value own t rest) hready rfl (by simp) rfl (fun _ => ⟨rfl, rfl⟩)
    (List.append_assoc _ _ _) rfl rfl (.inl rfl) h.bounded ?_ (fun _ => ⟨hitems, hsends⟩)
      (fun s hs => ?_) (by simp)
    (fun r item => ?_) (fun s v hs hmem => ?_) (fun _ => .inl) (fun p hp => ?_)
  · rw [hdelivered]
    change (w.deliveredSends ++ [c] ++ w.items.map (·.1) ++ w.liveSends).Sublist (w.accepted ++ [c])
    rw [hitems, hlive, List.map_nil, List.append_nil, List.append_nil]
    exact horder.append (List.Sublist.refl _)
  · rw [hdelivered]
    rcases hs with hs | hs | hs
    · exact .inr (.inl hs)
    · exact .inr (.inr (.inl hs))
    · exact .inl (List.mem_append_right _ hs)
  · simp only [reduceCtorEq, and_false, false_or, Phase.completing.injEq, List.mem_append,
      List.mem_singleton, or_and_right, exists_or, exists_eq_left, Option.some.injEq, Prod.mk.injEq]
    constructor
    · rintro (⟨k, hk, -, hresult⟩ | ⟨rfl, rfl⟩)
      · cases (hown.result_eq hk).symm.trans hresult
      · exact ⟨rfl, rfl⟩
    · rintro ⟨rfl, rfl⟩
      exact .inr ⟨rfl, rfl⟩
  · rcases List.mem_append.mp hmem with hmem | hmem
    · obtain rfl := List.mem_singleton.mp hmem
      rw [List.map_append]
      exact .inr (List.mem_append_left _ (hown.mem_own hs))
    · exact .inl hmem
  · obtain rfl := List.mem_singleton.mp hp
    exact hown.sent

theorem Delivery.pushItem (h : Delivery w) (hready : w.phase c = .ready) (hown : OwnSend w c value own)
    (hroom : w.items.length < w.capacity) (hnone : w.liveSends = []) :
    Delivery (w.pushItem c value own) := by
  have horder := h.order
  rw [hnone, List.append_nil] at horder
  refine h.section (w.pushItem c value own) hready rfl (by simp) rfl (fun _ => ⟨rfl, rfl⟩) rfl
    (List.append_nil _).symm rfl
    (.inl rfl) ?_ ?_ (fun hne => absurd rfl hne) (fun s hs => ?_) (by simp) (fun r item => ?_)
      (fun s v hs hmem => ?_)
    (fun i hi => ?_) (fun _ h => nomatch h)
  · change (w.items ++ [(c, value)]).length ≤ w.capacity
    rw [List.length_append]
    exact hroom
  · change (w.deliveredSends ++ (w.items ++ [(c, value)]).map (·.1) ++ w.liveSends).Sublist
      (w.accepted ++ [c])
    rw [hnone, List.append_nil, List.map_append, ← List.append_assoc]
    exact horder.append (List.Sublist.refl _)
  · change s ∈ w.deliveredSends ∨ s ∈ (w.items ++ [(c, value)]).map (·.1) ∨
      s ∈ w.pendingSends.map (·.task) ∨ _
    rw [List.map_append, List.mem_append]
    rcases hs with hs | hs | hs
    · exact .inr (.inl (.inl hs))
    · exact .inr (.inr (.inl hs))
    · exact .inr (.inl (.inr hs))
  · simp only [Phase.completing.injEq, reduceCtorEq, and_false, false_or, List.not_mem_nil, iff_false]
    rintro ⟨k, hk, -, hresult⟩
    cases (hown.result_eq hk).symm.trans hresult
  · change s ∈ [] ++ (w.items ++ [(c, value)]).map (·.1) at hmem
    rw [List.nil_append, List.map_append, List.mem_append] at hmem
    refine hmem.imp_right fun hs' => ?_
    obtain rfl := List.mem_singleton.mp hs'
    exact hown.mem_own hs
  · rcases List.mem_append.mp hi with hi | hi
    · exact .inl hi
    · obtain rfl := List.mem_singleton.mp hi
      exact .inr hown.sent

/-- A `sendAsync` waits in the queue of a full channel. -/
theorem Delivery.enqueueSend (h : Delivery w) (hready : w.phase c = .ready)
    (hfresh : w.tasks c = {}) (hstatus : s.status = .Pending ∧ s.result = none) :
    Delivery
      { w with
        pendingSends := w.pendingSends ++ [{ value := value, task := c }]
        pendingReceives := []
        tasks := Function.update w.tasks c s
        phase := Function.update w.phase c (.returned none)
        accepted := w.accepted ++ [c] } := by
  have hpending : s.status = .Pending := hstatus.1
  have htasks (r : Op) : (Function.update w.tasks c s r).status = (w.tasks r).status ∧
      (Function.update w.tasks c s r).result = (w.tasks r).result := by
    by_cases hr : r = c
    · rw [hr, Function.update_self, hfresh]
      exact hstatus
    · rw [Function.update_of_ne hr]
      exact ⟨rfl, rfl⟩
  refine h.section _ hready rfl (by simp) rfl htasks (List.append_nil _).symm
    (List.append_nil _).symm rfl (.inl rfl)
    h.bounded ?_ (fun hne => absurd rfl hne) (fun s hs => ?_) (by simp) (by simp)
      (fun s v hs hmem => .inl hmem)
    (fun _ => .inl) (fun _ h => nomatch h)
  · rw [World.liveSends, filter_live_congr fun t => (htasks t).1]
    change (w.deliveredSends ++ w.items.map (·.1) ++
      ((w.pendingSends ++ [(⟨value, c⟩ : PendingSend Op V)]).filter fun p => w.live p.task).map
      (·.task)).Sublist
      (w.accepted ++ [c])
    have hlive : w.live c = true := by rw [live_iff, hfresh]; rfl
    rw [List.filter_append, List.filter_singleton, hlive, List.map_append, ← List.append_assoc]
    exact h.order.append (List.Sublist.refl _)
  · change s ∈ w.deliveredSends ∨ s ∈ w.items.map (·.1) ∨
      s ∈ (w.pendingSends ++ [_]).map PendingSend.task ∨ _
    rw [List.map_append, List.mem_append]
    rcases hs with hs | hs | hs
    · exact .inr (.inl hs)
    · exact .inr (.inr (.inl (.inl hs)))
    · exact .inr (.inr (.inl (.inr hs)))

theorem Delivery.popItem (h : Delivery w) (hready : w.phase c = .ready) {rest : List (Item Op V)}
    (hown : OwnReceive w c item own result) (hitems : w.items = item :: rest) :
    Delivery (w.popItem c item rest own result) := by
  have hdelivered : (w.popItem c item rest own result).deliveredSends = w.deliveredSends ++ [item.1] := by
    simp [World.deliveredSends, World.popItem]
  have hsub : rest ⊆ w.items := by
    rw [hitems]
    exact List.subset_cons_self item rest
  refine h.section (w.popItem c item rest own result) hready rfl (by simp) rfl
    (fun _ => ⟨rfl, rfl⟩) rfl rfl
    (List.append_nil _).symm (.inr ⟨rfl, hown.not_sent⟩) ?_ ?_ (fun hne => ?_) (fun s hs => ?_) (by simp)
    (fun r item' => hown.carries_iff) (fun s v hs hmem => .inl ?_) (fun i hi => .inl (hsub hi))
      (fun p hp => ?_)
  · have hbounded := h.bounded
    rw [hitems, List.length_cons] at hbounded
    exact Nat.le_of_succ_le hbounded
  · have horder := h.order
    rw [hitems, List.map_cons] at horder
    rw [hdelivered]
    change (w.deliveredSends ++ [item.1] ++ rest.map (·.1) ++ w.liveSends).Sublist w.accepted
    rw [List.append_assoc, List.cons_append] at horder
    rw [List.append_assoc, List.append_assoc, List.singleton_append]
    exact horder
  · obtain ⟨hnil, -⟩ := h.idle_receivers hne
    rw [hitems] at hnil
    cases hnil
  · rw [hdelivered]
    rcases hs with hs | hs | hs
    · rw [hitems, List.map_cons, List.mem_cons] at hs
      rcases hs with rfl | hs
      · exact .inl (List.mem_append_right _ (List.mem_singleton_self _))
      · exact .inr (.inl hs)
    · exact .inr (.inr (.inl hs))
    · nomatch hs
  · rw [hitems, List.map_cons]
    exact hmem
  · obtain rfl := List.mem_singleton.mp hp
    exact h.sent_items _ (hitems ▸ List.mem_cons_self)

/-- A receive takes the value of the first sender that waits and is not cancelled. -/
theorem Delivery.takeFromSender (h : Delivery w) (htasks : Tasks w) (hready : w.phase c = .ready)
    {sender : PendingSend Op V} {rest : List (PendingSend Op V)} (hitems : w.items = [])
    (hown : OwnReceive w c (sender.task, sender.value) own result)
    (hnext : nextLive (fun p => w.live p.task) w.pendingSends = some (sender, rest)) :
    Delivery (w.takeFromSender c sender rest own result) := by
  obtain ⟨hlive, dead, hqueue, hdead⟩ := nextLive_eq_some hnext
  have hdelivered : (w.takeFromSender c sender rest own result).deliveredSends =
      w.deliveredSends ++ [sender.task] := by
    simp [World.deliveredSends, World.takeFromSender]
  have hnone : w.pendingReceives = [] := by
    by_contra hne
    obtain ⟨-, hnil⟩ := h.idle_receivers hne
    rw [hqueue] at hnil
    cases dead <;> cases hnil
  have hdeadNil : (dead.filter fun p => w.live p.task) = [] :=
    List.filter_eq_nil_iff.mpr fun p hp => Bool.eq_false_iff.mp (hdead p hp)
  have hmem : sender ∈ w.pendingSends := by rw [hqueue]; simp
  refine h.section (w.takeFromSender c sender rest own result) hready rfl (by simp) rfl
    (fun _ => ⟨rfl, rfl⟩) rfl rfl
    (List.append_nil _).symm (.inr ⟨rfl, hown.not_sent⟩) h.bounded ?_ (fun hne => absurd hnone hne)
      (fun s hs => ?_) (by simp)
    (fun r item' => ?_) (fun s v hs hmem => ?_) (fun _ => .inl) (fun p hp => ?_)
  · have horder := h.order
    have hfirst : ((sender :: rest).filter fun p => w.live p.task) = sender :: rest.filter fun p =>
        w.live p.task :=
      List.filter_cons_of_pos hlive
    rw [World.liveSends, hqueue, List.filter_append, hdeadNil, List.nil_append, hfirst,
      List.map_cons, hitems, List.map_nil, List.append_nil] at horder
    rw [hdelivered]
    change (w.deliveredSends ++ [sender.task] ++ w.items.map (·.1) ++
      (rest.filter fun p => w.live p.task).map (·.task)).Sublist
      w.accepted
    rw [hitems, List.map_nil, List.append_nil, List.append_assoc, List.singleton_append]
    exact horder
  · rw [hdelivered]
    rcases hs with hs | hs | hs
    · rw [hitems] at hs
      nomatch hs
    · rw [hqueue, List.map_append, List.map_cons, List.mem_append, List.mem_cons] at hs
      rcases hs with hs | rfl | hs
      · obtain ⟨p, hp, rfl⟩ := List.mem_map.mp hs
        have hwaits : p.task ∈ w.queued :=
          List.mem_append_left _ (List.mem_map_of_mem (hqueue ▸ List.mem_append_left _ hp))
        exact .inr (.inr (.inr (htasks.cancelled_of_dead hwaits (hdead p hp))))
      · exact .inl (List.mem_append_right _ (List.mem_singleton_self _))
      · exact .inr (.inr (.inl hs))
    · nomatch hs
  · rw [← hown.carries_iff]
    simp
  · have hs' : s ∈ [sender.task] ++ w.items.map (·.1) := hmem
    rw [hitems, List.map_nil, List.append_nil, List.mem_singleton] at hs'
    exact .inr (by simp [hs'])
  · obtain rfl := List.mem_singleton.mp hp
    exact .inr (htasks.sends sender hmem)

/-- A `receiveAsync` waits on an empty channel. -/
theorem Delivery.enqueueReceive (h : Delivery w) (htasks : Tasks w) (hready : w.phase c = .ready)
    (hoperation : w.operation c = some .receiveAsync)
    (hstatus : s.status = .Pending ∧ s.result = none) (hitems : w.items = [])
    (hnext : nextLive (fun p => w.live p.task) w.pendingSends = none) :
    Delivery
      { w with
        pendingSends := []
        pendingReceives := w.pendingReceives ++ [c]
        tasks := Function.update w.tasks c s
        phase := Function.update w.phase c (.returned none) } := by
  have hfresh : w.tasks c = {} := htasks.fresh c (not_begun_of_ready hready)
  have hsame (r : Op) : (Function.update w.tasks c s r).status = (w.tasks r).status ∧
      (Function.update w.tasks c s r).result = (w.tasks r).result := by
    by_cases hr : r = c
    · rw [hr, Function.update_self, hfresh]
      exact hstatus
    · rw [Function.update_of_ne hr]
      exact ⟨rfl, rfl⟩
  have hnosend (v : V) : ¬ w.Sent (c, v) := by
    rintro (hsend | hsend) <;> cases hsend.symm.trans hoperation
  refine h.section _ hready rfl (by simp) rfl hsame (List.append_nil _).symm (List.append_nil _).symm
    (List.append_nil _).symm (.inr ⟨rfl, hnosend⟩) h.bounded ?_ (fun _ => ⟨hitems, rfl⟩)
      (fun s hs => ?_) (by simp) (by simp)
    (fun s v hs hmem => .inl hmem) (fun _ => .inl) (fun _ h => nomatch h)
  · change (w.deliveredSends ++ w.items.map (·.1) ++ ([] : List Op)).Sublist w.accepted
    rw [List.append_nil]
    exact (List.sublist_append_left _ _).trans h.order
  · rcases hs with hs | hs | hs
    · exact .inr (.inl hs)
    · obtain ⟨p, hp, rfl⟩ := List.mem_map.mp hs
      have hwaits : p.task ∈ w.queued := List.mem_append_left _ (List.mem_map_of_mem hp)
      exact .inr (.inr (.inr (htasks.cancelled_of_dead hwaits (nextLive_eq_none hnext p hp))))
    · nomatch hs

theorem Delivery.setPhase (h : Delivery w) (hbegun : phase ≠ .idle ∧ phase ≠ .ready)
    (hresult : ∀ item, phase = .completing (some item) ∨ phase = .returned (some item) ↔
      w.phase c = .completing (some item) ∨ w.phase c = .returned (some item))
    (hsend : ∀ value, w.operation c = some (.send value) →
      (∃ result, phase = .completing result ∨ phase = .returned result) → c ∈ w.accepted)
    (hsendAsync : ∀ value, w.operation c = some (.sendAsync value) → c ∈ w.accepted) :
    Delivery (w.setPhase c phase) := by
  have hother {r : Op} (hr : r ≠ c) : (w.setPhase c phase).phase r = w.phase r :=
    Function.update_of_ne hr _ _
  have hown : (w.setPhase c phase).phase c = phase := Function.update_self _ _ _
  have hiff (r : Op) (item : Item Op V) : (w.setPhase c phase).Carried r item ∨
      (w.setPhase c phase).Received r item ↔ w.Carried r item ∨ w.Received r item := by
    have hphase : (w.setPhase c phase).phase r = .completing (some item) ∨
        (w.setPhase c phase).phase r = .returned (some item) ↔ w.phase r = .completing (some item) ∨
        w.phase r = .returned (some item) := by
      by_cases hr : r = c
      · rw [hr, hown]
        exact hresult item
      · rw [hother hr]
    rw [World.Carried, World.Received, or_or_or_comm, hphase, ← or_or_or_comm]
    rfl
  have hbegun' {s : Op} : (w.setPhase c phase).Begun s ↔ s = c ∨ w.Begun s := begun_update hbegun rfl
  refine ⟨h.bounded, h.order, h.accepted_nodup, fun s hs =>
    hbegun'.mpr (.inr (h.accepted_begun s hs)), h.idle_receivers, h.located, fun p hp =>
    (hiff p.2 p.1).mpr (h.arrives p hp), fun r item hon => h.carried r item ((hiff r item).mp hon),
    h.settled, h.sent_items, h.sent_delivered, fun d v hd hphase => ?_, fun d v hd hb => ?_⟩
  · by_cases hdc : d = c
    · rw [hdc, hown] at hphase
      exact hdc ▸ hsend v (hdc ▸ hd) hphase
    · rw [hother hdc] at hphase
      exact h.send_accepted d v hd hphase
  · rcases hbegun'.mp hb with rfl | hb
    · exact hsendAsync v hd
    · exact h.sendAsync_accepted d v hd hb

theorem liveSends_setTask (hopen : (w.tasks t).isTerminal = false)
    (s : RuntimeTaskState Op (Option (Item Op V)) Unit) :
    (w.setTask t s).liveSends.Sublist w.liveSends := by
  refine (List.monotone_filter_right _ fun p hlive => ?_).map _
  by_cases hp : p.task = t
  · rw [hp, World.live, hopen]
    rfl
  · change (!((Function.update w.tasks t s) p.task).isTerminal) = true at hlive
    rwa [Function.update_of_ne hp] at hlive

/-- A task that has not settled changes its state. What it carried, it has or still carries. -/
theorem Delivery.transition (h : Delivery w) {completions : List (Completion Op V)}
    (hopen : (w.tasks t).isTerminal = false)
    (hkept : ∀ k ∈ w.completions, (∃ k' ∈ completions, k'.task = k.task ∧ k'.result = k.result) ∨
      k.task = t ∧ s.status = .Succeeded ∧ s.result = some k.result)
    (hfrom : ∀ k' ∈ completions, ∃ k ∈ w.completions, k.task = k'.task ∧ k.result = k'.result)
    (hsucceeded : ∀ result, s.status = .Succeeded → s.result = some result → ∃ k ∈ w.completions,
      k.task = t ∧ k.result = result) :
    Delivery { w.setTask t s with completions := completions } := by
  have hother {r : Op} (hr : r ≠ t) : (w.setTask t s).tasks r = w.tasks r := Function.update_of_ne hr _ _
  have hown : (w.setTask t s).tasks t = s := Function.update_self _ _ _
  have hne {r : Op} (hr : (w.tasks r).isTerminal = true) : r ≠ t := fun heq => by
    rw [heq, hopen] at hr
    cases hr
  refine ⟨h.bounded, ((List.Sublist.refl _).append (liveSends_setTask hopen s)).trans h.order,
    h.accepted_nodup, h.accepted_begun, h.idle_receivers, fun s' hs => ?_, fun p hp => ?_,
    fun r item hon => ?_, fun s' v hs hmem => ?_, h.sent_items, h.sent_delivered, h.send_accepted,
    h.sendAsync_accepted⟩
  · rcases h.located s' hs with hloc | hloc | hloc | hloc
    · exact .inl hloc
    · exact .inr (.inl hloc)
    · exact .inr (.inr (.inl hloc))
    · refine .inr (.inr (.inr ?_))
      change ((w.setTask t s).tasks s').status = .Cancelled
      rw [hother (hne (by rw [RuntimeTaskState.isTerminal, hloc]; rfl))]
      exact hloc
  · rcases h.arrives p hp with (hcarried | ⟨k, hk, hto, hresult⟩) | (hreceived | hreceived)
    · exact .inl (.inl hcarried)
    · rcases hkept k hk with ⟨k', hk', htask, hsame⟩ | ⟨htask, hstatus, hsame⟩
      · exact .inl (.inr ⟨k', hk', htask.trans hto, hsame.trans hresult⟩)
      · refine .inr (.inr ?_)
        change ((w.setTask t s).tasks p.2).status = _ ∧ ((w.setTask t s).tasks p.2).result = _
        rw [← hto, htask, hown, hsame, hresult]
        exact ⟨hstatus, rfl⟩
    · exact .inr (.inl hreceived)
    · refine .inr (.inr ?_)
      change ((w.setTask t s).tasks p.2).status = _ ∧ ((w.setTask t s).tasks p.2).result = _
      rw [hother (hne (by rw [RuntimeTaskState.isTerminal, hreceived.1]; rfl))]
      exact hreceived
  · rcases hon with (hcarried | ⟨k', hk', hto, hresult⟩) | (hreceived | hreceived)
    · exact h.carried r item (.inl (.inl hcarried))
    · obtain ⟨k, hk, htask, hsame⟩ := hfrom k' hk'
      exact h.carried r item (.inl (.inr ⟨k, hk, htask.trans hto, hsame.trans hresult⟩))
    · exact h.carried r item (.inr (.inl hreceived))
    · change ((w.setTask t s).tasks r).status = _ ∧ ((w.setTask t s).tasks r).result = _ at hreceived
      by_cases hr : r = t
      · rw [hr, hown] at hreceived
        obtain ⟨k, hk, htask, hsame⟩ := hsucceeded _ hreceived.1 hreceived.2
        exact h.carried r item (.inl (.inr ⟨k, hk, htask.trans hr.symm, hsame⟩))
      · rw [hother hr] at hreceived
        exact h.carried r item (.inr (.inr hreceived))
  · change ((w.setTask t s).tasks s').status = _ ∨ s' ∈ completions.map (·.task)
    rcases h.settled s' v hs hmem with hstatus | hhanded
    · rw [hother (hne (by rw [RuntimeTaskState.isTerminal, hstatus]; rfl))]
      exact .inl hstatus
    · obtain ⟨k, hk, rfl⟩ := List.mem_map.mp hhanded
      rcases hkept k hk with ⟨k', hk', htask, -⟩ | ⟨htask, hstatus, -⟩
      · exact .inr (List.mem_map.mpr ⟨k', hk', htask⟩)
      · rw [htask, hown]
        exact .inl hstatus

/-- A pending task that no call completes is cancelled: nothing was on its way to it or from it. -/
theorem Delivery.cancel (h : Delivery w) (hopen : (w.tasks t).isTerminal = false)
    (hcancelled : s.status = .Cancelled) :
    Delivery (w.setTask t s) := by
  refine h.transition hopen (fun k hk => .inl ⟨k, hk, rfl, rfl⟩) (fun k hk => ⟨k, hk, rfl, rfl⟩)
    fun _ hstatus => ?_
  cases hcancelled.symm.trans hstatus

end

end zl.vm.channel
