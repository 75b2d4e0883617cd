import Zl.Transition.Run

open zl.transition

namespace zl.vm.safepoint

/-- A snapshot of execution state: values, and programs whose constants and statics are read when
    they are traced. -/
structure GCRoots (V P : Type) where
  values : List V := []
  programs : List P := []

def GCRoots.append {V P : Type} (roots other : GCRoots V P) : GCRoots V P where
  values := roots.values ++ other.values
  programs := roots.programs ++ other.programs

abbrev ParticipantId := Nat

structure Participant (V P : Type) where
  parked : Bool := false
  roots : GCRoots V P := {}

structure CoordinatorState (V P : Type) where
  participants : List (ParticipantId × Participant V P) := []
  nextId : ParticipantId := 1
  collectionRequested : Bool := false
  collectionRunning : Bool := false

namespace CoordinatorState
variable {V P : Type} (s : CoordinatorState V P)

def count (id : ParticipantId) : Bool := s.participants.any (·.1 = id)

def allParked : Bool := s.participants.all (·.2.parked)

def setParticipant (id : ParticipantId) (participant : Participant V P) : CoordinatorState V P :=
  { s with participants := s.participants.map fun e => if e.1 = id then (id, participant) else e }

def emplace : CoordinatorState V P :=
  { s with participants := s.participants ++ [(s.nextId, {})], nextId := s.nextId + 1 }

def erase (id : ParticipantId) : CoordinatorState V P :=
  { s with participants := s.participants.filter (·.1 ≠ id) }

/-- The roots of every participant, which a collection starts from. -/
def allRoots : GCRoots V P := s.participants.foldl (fun all e => all.append e.2.roots) {}

end CoordinatorState

/-- What happens to the participants and to the collections. -/
inductive Event (V P : Type) where
  | registered (id : ParticipantId)
  | unregistered (id : ParticipantId)
  | published (id : ParticipantId) (roots : GCRoots V P)
  | released (id : ParticipantId)
  | started (roots : GCRoots V P)
  | ended

/-- Where a call of `poll` stands between two sections that hold the lock. -/
inductive Stage where
  | idle
  | sampling (id : ParticipantId)
  | waiting (id : ParticipantId)
  | collecting (id : ParticipantId)
  | reclaiming (id : ParticipantId)
  deriving DecidableEq, Repr

/-- The coordinator with its callers, any number of them. The history, newest first, is not read
    by any of them. -/
structure World (Caller V P : Type) where
  coordinator : CoordinatorState V P := {}
  stage : Caller → Stage := fun _ => .idle
  history : List (Event V P) := []

namespace World
variable {Caller V P : Type} [DecidableEq Caller] (w : World Caller V P)

def move (c : Caller) (stage : Stage) : World Caller V P :=
  { w with stage := Function.update w.stage c stage }

def registerParticipant : World Caller V P :=
  { w with
    coordinator := w.coordinator.emplace, history := .registered w.coordinator.nextId :: w.history }

def unregisterParticipant (id : ParticipantId) : World Caller V P :=
  if w.coordinator.count id then
    { w with coordinator := w.coordinator.erase id, history := .unregistered id :: w.history }
  else w

/-- A participant parks with a snapshot. -/
def publish (id : ParticipantId) (roots : GCRoots V P) : World Caller V P :=
  if w.coordinator.count id then
    { w with
      coordinator := w.coordinator.setParticipant id { parked := true, roots := roots },
      history := .published id roots :: w.history }
  else w

/-- A participant runs again, its snapshot moved out. One that is gone has nothing left to
    write to: the reference that `poll` keeps is not used behind its end. -/
def release (id : ParticipantId) : World Caller V P :=
  if w.coordinator.count id then
    { w with
      coordinator := w.coordinator.setParticipant id {},
      history := .released id :: w.history }
  else w

def request : World Caller V P :=
  { w with coordinator := { w.coordinator with collectionRequested := true } }

def startCollection : World Caller V P :=
  { w with
    coordinator := { w.coordinator with collectionRunning := true },
    history := .started w.coordinator.allRoots :: w.history }

def endCollection : World Caller V P :=
  { w with
    coordinator := { w.coordinator with collectionRunning := false, collectionRequested := false },
    history := .ended :: w.history }

/-- The collector gives up: it reactivates itself under the lock, and rethrows. -/
def collectionFailed (c : Caller) (id : ParticipantId) : World Caller V P :=
  (w.endCollection.release id).move c .idle

/-- The head of the loop of `poll`: it leaves when no collection is requested, waits, or
    becomes the collector. Gathering the roots may run out of memory. -/
def loop (c : Caller) (id : ParticipantId) (gathered : Bool) : World Caller V P :=
  if w.coordinator.collectionRequested then
    if w.coordinator.collectionRunning ∨ ¬ w.coordinator.allParked then w.move c (.waiting id)
    else if gathered then w.startCollection.move c (.collecting id)
    else w.collectionFailed c id
  else (w.release id).move c .idle

end World

/-- A section that holds the lock. `pressure` is what `shouldCollect` answers. -/
inductive Action (Caller V P : Type) where
  | registerParticipant
  | unregisterParticipant (id : ParticipantId)
  | beginBlockingNative (id : ParticipantId) (roots : GCRoots V P)
  | endBlockingNative (id : ParticipantId)
  | poll (c : Caller) (id : ParticipantId) (pressure : Bool)
  | sampled (c : Caller) (id : ParticipantId) (roots : GCRoots V P) (pressure gathered : Bool)
  | woken (c : Caller) (id : ParticipantId) (gathered : Bool)
  | collected (c : Caller) (id : ParticipantId)
  | failed (c : Caller) (id : ParticipantId)
  | reclaimed (c : Caller) (id : ParticipantId) (gathered : Bool)

section
variable {Caller V P : Type} [DecidableEq Caller]

/-- The section after the snapshot was taken with no lock held: the request is checked
    again, and the participant parks. -/
def World.join (w : World Caller V P) (c : Caller) (id : ParticipantId) (roots : GCRoots V P)
    (pressure gathered : Bool) : World Caller V P :=
  if w.coordinator.count id = false then w.move c .idle
  else if w.coordinator.collectionRequested ∨
    pressure then (w.request.publish id roots).loop c id gathered
  else w.move c .idle

/-- What a section does, when the caller has come to it and may hold the lock. -/
def next (w : World Caller V P) : Action Caller V P → Option (World Caller V P)
  | .registerParticipant =>
    if w.coordinator.collectionRunning then none else some w.registerParticipant
  | .unregisterParticipant id =>
    if w.coordinator.collectionRunning then none else some (w.unregisterParticipant id)
  | .beginBlockingNative id roots => some (w.publish id roots)
  | .endBlockingNative id => if w.coordinator.collectionRunning then none else some (w.release id)
  | .poll c id pressure =>
    if w.stage c = .idle then
      if w.coordinator.count id ∧ (w.coordinator.collectionRequested ∨ pressure) then
        some (w.move c (.sampling id))
      else some w
    else none
  | .sampled c id roots pressure gathered =>
    if w.stage c = .sampling id then some (w.join c id roots pressure gathered) else none
  | .woken c id gathered => if w.stage c = .waiting id then some (w.loop c id gathered) else none
  | .collected c id =>
    if w.stage c = .collecting id then some (w.endCollection.move c (.reclaiming id)) else none
  | .failed c id => if w.stage c = .collecting id then some (w.collectionFailed c id) else none
  | .reclaimed c id gathered => if w.stage c = .reclaiming id then some (w.loop c id gathered) else none

/-- One section by one caller, in any order. -/
def Step (w : World Caller V P) (a : Action Caller V P) (w' : World Caller V P) : Prop :=
  next w a = some w'

/-- No participant is registered, no call in progress. -/
def Initial (w : World Caller V P) : Prop := w = {}

end

section
variable {V P : Type}
variable {s : CoordinatorState V P} {participant : Participant V P} {id : ParticipantId}

/-- A collection has started and not ended. -/
def openCollection : List (Event V P) → Bool
  | [] => false
  | .started _ :: _ => true
  | .ended :: _ => false
  | .registered _ :: rest | .unregistered _ :: rest | .published _ _ :: rest | .released _ :: rest =>
    openCollection rest

/-- The snapshot a participant published last, unless it was released or unregistered since. -/
def parkedRoots : List (Event V P) → ParticipantId → Option (GCRoots V P)
  | [], _ => none
  | .published id' roots :: rest, id => if id' = id then some roots else parkedRoots rest id
  | .released id' :: rest, id | .unregistered id' :: rest, id =>
    if id' = id then none else parkedRoots rest id
  | .registered _ :: rest, id | .started _ :: rest, id | .ended :: rest, id => parkedRoots rest id

def Event.isPublished : Event V P → Bool
  | .published _ _ => true
  | _ => false

def GCRoots.Includes (all roots : GCRoots V P) : Prop :=
  roots.values ⊆ all.values ∧ roots.programs ⊆ all.programs

/-- While a collection is open, nothing happens but publications and its end. -/
def Undisturbed (event : Event V P) (before : List (Event V P)) : Prop :=
  openCollection before = true → event.isPublished = true ∨ event = .ended

/-- A collection starts from the snapshot of each participant that is parked. -/
def IncludesParked (event : Event V P) (before : List (Event V P)) : Prop :=
  ∀ all, event = .started all → ∀ id roots, parkedRoots before id = some roots → all.Includes roots

/-- The participants of a coordinator are those its history tells of. -/
structure Recorded (s : CoordinatorState V P) (history : List (Event V P)) : Prop where
  running : openCollection history = s.collectionRunning
  requested : s.collectionRunning = true → s.collectionRequested = true
  parked : s.collectionRunning = true → ∀ e ∈ s.participants, e.2.parked = true
  roots : ∀ e ∈ s.participants, parkedRoots history e.1 = if e.2.parked then some e.2.roots else none
  absent : ∀ id, (∀ e ∈ s.participants, e.1 ≠ id) → parkedRoots history id = none
  fresh : ∀ e ∈ s.participants, e.1 < s.nextId
  undisturbed : ∀ event before, event :: before <:+ history → Undisturbed event before
  included : ∀ event before, event :: before <:+ history → IncludesParked event before

theorem suffix_cons_cases {A : Type} {a b : A} {before rest : List A} (h : a :: before <:+ b :: rest) :
    (a = b ∧ before = rest) ∨ a :: before <:+ rest := by
  cases List.suffix_cons_iff.mp h with
  | inl heq =>
    obtain ⟨rfl, rfl⟩ := List.cons.inj heq
    exact Or.inl ⟨rfl, rfl⟩
  | inr hrest => exact Or.inr hrest

theorem allRoots_includes {e : ParticipantId × Participant V P} (he : e ∈ s.participants) :
    s.allRoots.Includes e.2.roots := by
  have hfold (l : List (ParticipantId × Participant V P)) (all : GCRoots V P) :
      (l.foldl (fun all e => all.append e.2.roots) all).Includes all ∧
        ∀ e ∈ l, (l.foldl (fun all e => all.append e.2.roots) all).Includes e.2.roots := by
    induction l generalizing all with
    | nil => exact ⟨⟨List.Subset.refl _, List.Subset.refl _⟩, fun e he => nomatch he⟩
    | cons f rest ih =>
      obtain ⟨hall, hrest⟩ := ih (all.append f.2.roots)
      have hleft : all.values ⊆ (all.append f.2.roots).values := List.subset_append_left _ _
      have hleft' : all.programs ⊆ (all.append f.2.roots).programs := List.subset_append_left _ _
      refine ⟨⟨List.Subset.trans hleft hall.1, List.Subset.trans hleft' hall.2⟩, fun e he => ?_⟩
      cases List.mem_cons.mp he with
      | inl heq =>
        subst heq
        exact ⟨List.Subset.trans (List.subset_append_right _ _) hall.1,
          List.Subset.trans (List.subset_append_right _ _) hall.2⟩
      | inr hmem => exact hrest e hmem
  exact (hfold s.participants {}).2 e he

theorem count_eq_true (hcount : s.count id = true) :
    ∃ e ∈ s.participants, e.1 = id := by
  obtain ⟨e, he, hid⟩ := List.any_eq_true.mp hcount
  exact ⟨e, he, of_decide_eq_true hid⟩

theorem mem_setParticipant {e : ParticipantId × Participant V P}
    (he : e ∈ (s.setParticipant id participant).participants) :
    e = (id, participant) ∨ (e ∈ s.participants ∧ e.1 ≠ id) := by
  obtain ⟨f, hf, rfl⟩ := List.mem_map.mp he
  split
  · exact Or.inl rfl
  · next hne => exact Or.inr ⟨hf, hne⟩

theorem lt_nextId_of_mem_setParticipant (hfresh : ∀ e ∈ s.participants, e.1 < s.nextId)
    (hcount : s.count id = true) :
    ∀ e ∈ (s.setParticipant id participant).participants, e.1 < s.nextId := by
  intro e he
  cases mem_setParticipant he with
  | inl heq =>
    obtain ⟨f, hf, hid⟩ := count_eq_true hcount
    rw [heq, ← hid]
    exact hfresh f hf
  | inr hold => exact hfresh e hold.1

theorem absent_of_setParticipant {id id' : ParticipantId} (hne : id ≠ id')
    (habsent : ∀ e ∈ (s.setParticipant id participant).participants, e.1 ≠ id') :
    ∀ e ∈ s.participants, e.1 ≠ id' := by
  intro e he heq
  refine habsent e (List.mem_map.mpr ⟨e, he, if_neg ?_⟩) heq
  rw [heq]
  exact Ne.symm hne

namespace Recorded
variable {s : CoordinatorState V P} {history : List (Event V P)}

theorem initial : Recorded ({} : CoordinatorState V P) [] where
  running := rfl
  requested := nofun
  parked := nofun
  roots := nofun
  absent _ _ := rfl
  fresh := nofun
  undisturbed _ _ h := nomatch List.suffix_nil.mp h
  included _ _ h := nomatch List.suffix_nil.mp h

/-- An event that opens no collection, and that an open collection allows, keeps the
    properties of the history. -/
theorem cons_undisturbed (h : Recorded s history) {event : Event V P} (hevent : Undisturbed event history) :
    ∀ event' before, event' :: before <:+ event :: history → Undisturbed event' before := by
  intro event' before hsuffix
  cases suffix_cons_cases hsuffix with
  | inl heq =>
    obtain ⟨rfl, rfl⟩ := heq
    exact hevent
  | inr hrest => exact h.undisturbed event' before hrest

theorem cons_included (h : Recorded s history) {event : Event V P} (hevent : IncludesParked event history) :
    ∀ event' before, event' :: before <:+ event :: history → IncludesParked event' before := by
  intro event' before hsuffix
  cases suffix_cons_cases hsuffix with
  | inl heq =>
    obtain ⟨rfl, rfl⟩ := heq
    exact hevent
  | inr hrest => exact h.included event' before hrest

theorem undisturbed_of_not_running (h : Recorded s history) (hrunning : s.collectionRunning = false)
    (event : Event V P) : Undisturbed event history := by
  intro hopen
  rw [h.running, hrunning] at hopen
  cases hopen

theorem emplace (h : Recorded s history) (hrunning : s.collectionRunning = false) :
    Recorded s.emplace (.registered s.nextId :: history) where
  running := h.running
  requested := h.requested
  parked hrun := by
    rw [show s.collectionRunning = true from hrun] at hrunning
    cases hrunning
  roots e he := by
    cases List.mem_append.mp he with
    | inl hold => exact h.roots e hold
    | inr hnew =>
      obtain rfl := List.mem_singleton.mp hnew
      exact h.absent s.nextId fun e he => Nat.ne_of_lt (h.fresh e he)
  absent id hid := h.absent id fun e he => hid e (List.mem_append_left _ he)
  fresh e he := by
    cases List.mem_append.mp he with
    | inl hold => exact Nat.lt_succ_of_lt (h.fresh e hold)
    | inr hnew =>
      obtain rfl := List.mem_singleton.mp hnew
      exact Nat.lt_succ_self _
  undisturbed := h.cons_undisturbed (h.undisturbed_of_not_running hrunning _)
  included := h.cons_included nofun

theorem erase (h : Recorded s history) (hrunning : s.collectionRunning = false) (id : ParticipantId) :
    Recorded (s.erase id) (.unregistered id :: history) where
  running := h.running
  requested := h.requested
  parked hrun := by
    rw [show s.collectionRunning = true from hrun] at hrunning
    cases hrunning
  roots e he := by
    obtain ⟨hmem, hne⟩ := List.mem_filter.mp he
    rw [parkedRoots, if_neg (Ne.symm (of_decide_eq_true hne))]
    exact h.roots e hmem
  absent id' hid := by
    rw [parkedRoots]
    split
    · rfl
    · next hne =>
      refine h.absent id' fun e he heq => ?_
      refine hid e (List.mem_filter.mpr ⟨he, decide_eq_true ?_⟩) heq
      rw [heq]
      exact Ne.symm hne
  fresh e he := h.fresh e (List.mem_of_mem_filter he)
  undisturbed := h.cons_undisturbed (h.undisturbed_of_not_running hrunning _)
  included := h.cons_included nofun

theorem publish (h : Recorded s history) {id : ParticipantId} (hcount : s.count id = true)
    (roots : GCRoots V P) :
    Recorded (s.setParticipant id { parked := true, roots := roots })
      (.published id roots :: history) where
  running := h.running
  requested := h.requested
  parked hrun e he := by
    cases mem_setParticipant he with
    | inl heq => rw [heq]
    | inr hold => exact h.parked hrun e hold.1
  roots e he := by
    cases mem_setParticipant he with
    | inl heq =>
      rw [heq]
      exact if_pos rfl
    | inr hold =>
      rw [parkedRoots, if_neg (Ne.symm hold.2)]
      exact h.roots e hold.1
  absent id' hid := by
    obtain ⟨e, he, heq⟩ := count_eq_true hcount
    have hne : id ≠ id' := hid (id, _) (List.mem_map.mpr ⟨e, he, if_pos heq⟩)
    rw [parkedRoots, if_neg hne]
    exact h.absent id' (absent_of_setParticipant hne hid)
  fresh := lt_nextId_of_mem_setParticipant h.fresh hcount
  undisturbed := h.cons_undisturbed fun _ => Or.inl rfl
  included := h.cons_included nofun

theorem release (h : Recorded s history) (hrunning : s.collectionRunning = false) {id : ParticipantId}
    (hcount : s.count id = true) : Recorded (s.setParticipant id {}) (.released id :: history) where
  running := h.running
  requested := h.requested
  parked hrun := by
    rw [show s.collectionRunning = true from hrun] at hrunning
    cases hrunning
  roots e he := by
    cases mem_setParticipant he with
    | inl heq =>
      rw [heq]
      exact if_pos rfl
    | inr hold =>
      rw [parkedRoots, if_neg (Ne.symm hold.2)]
      exact h.roots e hold.1
  absent id' hid := by
    rw [parkedRoots]
    split
    · rfl
    · next hne => exact h.absent id' (absent_of_setParticipant hne hid)
  fresh := lt_nextId_of_mem_setParticipant h.fresh hcount
  undisturbed := h.cons_undisturbed (h.undisturbed_of_not_running hrunning _)
  included := h.cons_included nofun

theorem request (h : Recorded s history) : Recorded { s with collectionRequested := true } history :=
  { h with requested := fun _ => rfl }

theorem start (h : Recorded s history) (hrequested : s.collectionRequested = true)
    (hrunning : s.collectionRunning = false) (hparked : s.allParked = true) :
    Recorded { s with collectionRunning := true } (.started s.allRoots :: history) where
  running := rfl
  requested _ := hrequested
  parked _ e he := List.all_eq_true.mp hparked e he
  roots e he := h.roots e he
  absent id hid := h.absent id hid
  fresh e he := h.fresh e he
  undisturbed := h.cons_undisturbed (h.undisturbed_of_not_running hrunning _)
  included := by
    refine h.cons_included fun all hall id roots hroots => ?_
    obtain rfl := Event.started.inj hall
    -- a snapshot in the history is that of a registered participant
    by_cases hid : ∃ e ∈ s.participants, e.1 = id
    · obtain ⟨e, he, rfl⟩ := hid
      rw [h.roots e he, if_pos (List.all_eq_true.mp hparked e he)] at hroots
      obtain rfl := Option.some.inj hroots
      exact allRoots_includes he
    · rw [h.absent id fun e he heq => hid ⟨e, he, heq⟩] at hroots
      cases hroots

theorem finish (h : Recorded s history) :
    Recorded { s with collectionRunning := false, collectionRequested := false } (.ended :: history) where
  running := rfl
  requested := nofun
  parked := nofun
  roots e he := h.roots e he
  absent id hid := h.absent id hid
  fresh e he := h.fresh e he
  undisturbed := h.cons_undisturbed fun _ => Or.inr rfl
  included := h.cons_included nofun

end Recorded

end

end zl.vm.safepoint
