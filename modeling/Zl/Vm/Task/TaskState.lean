import Zl.Transition.Run

open zl.transition

namespace zl.vm.task

inductive TaskStatus where
  | Pending | Running | Succeeded | Failed | Cancelled
  deriving DecidableEq, Repr

def isTerminalStatus : TaskStatus → Bool
  | .Succeeded | .Failed | .Cancelled => true
  | .Pending | .Running => false

/-- The number of a continuation, each registration has its own. -/
abbrev Registration := Nat

structure RuntimeTaskState (T V E : Type) where
  status : TaskStatus := .Pending
  result : Option V := none
  error : Option E := none
  cancellationRequested : Bool := false
  operationRoots : List V := []
  continuations : List Registration := []
  cancellationContinuations : List Registration := []
  spawnedChildren : List T := []

namespace RuntimeTaskState
variable {T V E : Type} (s : RuntimeTaskState T V E)

def isTerminal : Bool := isTerminalStatus s.status

/-- The lists a task gives up when it settles: its continuations and its observers are
    swapped out, its roots released. -/
def settle (status : TaskStatus) : RuntimeTaskState T V E :=
  { s with
    status := status, continuations := [], cancellationContinuations := [], operationRoots := [] }

def start : RuntimeTaskState T V E := if s.status = .Pending then { s with status := .Running } else s

def succeed (value : V) : RuntimeTaskState T V E := { s.settle .Succeeded with result := some value }

def fail (error : E) : RuntimeTaskState T V E := { s.settle .Failed with error := some error }

def cancel : RuntimeTaskState T V E := { s.settle .Cancelled with cancellationRequested := true }

def requestCancellation : RuntimeTaskState T V E :=
  { s with cancellationRequested := true, cancellationContinuations := [] }

def addSpawnedChild (child : T) : RuntimeTaskState T V E :=
  { s with spawnedChildren := s.spawnedChildren ++ [child] }

end RuntimeTaskState

/-- What a continuation waits for: the end of a task, or a request to cancel it. -/
inductive Kind where
  | «then» | onCancellation
  deriving DecidableEq, Repr

/-- Where a call stands between two sections that hold a lock: it runs continuations, runs them
    with a cascade to follow, is about to list the children, to take the next of them, or to
    request a cancellation. -/
inductive Frame (T : Type) where
  | running (continuations : List Registration)
  | notifying (t : T) (continuations : List Registration)
  | propagating (t : T)
  | cascading (t : T) (children : List T)
  | requesting (t : T)

/-- The tasks, those a weak pointer no longer finds, and the calls in progress of each caller, the
    innermost first. What is recorded of the continuations and of the calls that have returned is
    read by none of them. -/
structure World (Caller T V E : Type) where
  tasks : T → RuntimeTaskState T V E := fun _ => {}
  expired : T → Bool := fun _ => false
  stack : Caller → List (Frame T) := fun _ => []
  nextRegistration : Registration := 0
  registered : Registration → Option (Kind × T) := fun _ => none
  runs : Registration → Nat := fun _ => 0
  returned : List T := []

namespace World
variable {Caller T V E : Type} [DecidableEq Caller] [DecidableEq T] (w : World Caller T V E)

def setTask (t : T) (s : RuntimeTaskState T V E) : World Caller T V E :=
  { w with tasks := Function.update w.tasks t s }

def setStack (c : Caller) (frames : List (Frame T)) : World Caller T V E :=
  { w with stack := Function.update w.stack c frames }

def push (c : Caller) (frame : Frame T) : World Caller T V E := w.setStack c (frame :: w.stack c)

def ran (k : Registration) : World Caller T V E :=
  { w with runs := Function.update w.runs k (w.runs k + 1) }

def register (kind : Kind) (t : T) : World Caller T V E :=
  { w with
    registered := Function.update w.registered w.nextRegistration (some (kind, t)),
    nextRegistration := w.nextRegistration + 1 }

/-- `then`: a continuation of a task that has settled is run at once. -/
def registerThen (c : Caller) (t : T) : World Caller T V E :=
  let s := w.tasks t
  let k := w.nextRegistration
  if s.isTerminal then (w.register .then t).push c (.running [k])
  else (w.register .then t).setTask t { s with continuations := s.continuations ++ [k] }

/-- `onCancellation`: an observer of a task that settled with no request is dropped. -/
def registerOnCancellation (c : Caller) (t : T) : World Caller T V E :=
  let s := w.tasks t
  let k := w.nextRegistration
  if s.status = .Cancelled ∨ s.cancellationRequested = true then
    (w.register .onCancellation t).push c (.running [k])
  else if s.isTerminal then w.register .onCancellation t
  else
    (w.register .onCancellation t).setTask t
      { s with cancellationContinuations := s.cancellationContinuations ++ [k] }

def addSpawnedChild (c : Caller) (t child : T) : World Caller T V E :=
  let s := w.tasks t
  if child = t then w
  else if s.cancellationRequested = true ∨ s.status = .Cancelled then
    (w.setTask t (s.addSpawnedChild child)).push c (.requesting child)
  else w.setTask t (s.addSpawnedChild child)

/-- The section of `requestCancellation`, which returns at once when there is nothing to do. -/
def requestSection (c : Caller) (t : T) : World Caller T V E :=
  let s := w.tasks t
  if s.isTerminal = true ∨ s.cancellationRequested = true then { w with returned := t :: w.returned }
  else (w.setTask t s.requestCancellation).push c (.notifying t s.cancellationContinuations)

end World

/-- A call of a member function. `fail` is called with an exception. -/
inductive Call (T V E : Type) where
  | start (t : T)
  | succeed (t : T) (value : V)
  | fail (t : T) (error : E)
  | cancel (t : T)
  | requestCancellation (t : T)
  | addSpawnedChild (t child : T)
  | «then» (t : T)
  | onCancellation (t : T)

/-- A caller calls, also from within a continuation it runs, or goes on with its innermost
    call; or the last owner of a task drops it. -/
inductive Action (Caller T V E : Type) where
  | call (c : Caller) (call : Call T V E)
  | advance (c : Caller)
  | expire (t : T)

section
variable {Caller T V E : Type} [DecidableEq Caller] [DecidableEq T]

/-- The first section of a call. One that throws `task is already terminal`, or that a task has
    started, changes nothing. -/
def World.enter (w : World Caller T V E) (c : Caller) : Call T V E → World Caller T V E
  | .start t => w.setTask t (w.tasks t).start
  | .succeed t value =>
    if (w.tasks t).isTerminal then w
    else (w.setTask t ((w.tasks t).succeed value)).push c (.running (w.tasks t).continuations)
  | .fail t error =>
    if (w.tasks t).isTerminal then w
    else (w.setTask t ((w.tasks t).fail error)).push c (.running (w.tasks t).continuations)
  | .cancel t =>
    if (w.tasks t).isTerminal then w
    else
      (w.setTask t (w.tasks t).cancel).push c
        (.notifying t ((w.tasks t).continuations ++ (w.tasks t).cancellationContinuations))
  | .requestCancellation t => w.push c (.requesting t)
  | .addSpawnedChild t child => w.addSpawnedChild c t child
  | .then t => w.registerThen c t
  | .onCancellation t => w.registerOnCancellation c t

/-- The next section, or the next continuation, of the innermost call. -/
def World.advance (w : World Caller T V E) (c : Caller) : List (Frame T) → Option (World Caller T V E)
  | [] => none
  | .running [] :: rest => some (w.setStack c rest)
  | .running (k :: ks) :: rest => some ((w.ran k).setStack c (.running ks :: rest))
  | .notifying t [] :: rest => some (w.setStack c (.propagating t :: rest))
  | .notifying t (k :: ks) :: rest => some ((w.ran k).setStack c (.notifying t ks :: rest))
  | .propagating t :: rest =>
    some (w.setStack c (.cascading t ((w.tasks t).spawnedChildren.filter (!w.expired ·)) :: rest))
  | .cascading t [] :: rest => some { w.setStack c rest with returned := t :: w.returned }
  | .cascading t (child :: children) :: rest =>
    if (w.tasks child).isTerminal then some (w.setStack c (.cascading t children :: rest))
    else some (w.setStack c (.requesting child :: .cascading t children :: rest))
  | .requesting t :: rest => some ((w.setStack c rest).requestSection c t)

def next (w : World Caller T V E) : Action Caller T V E → Option (World Caller T V E)
  | .call c call => some (w.enter c call)
  | .advance c => w.advance c (w.stack c)
  | .expire t => some { w with expired := Function.update w.expired t true }

def Step (w : World Caller T V E) (a : Action Caller T V E) (w' : World Caller T V E) : Prop :=
  next w a = some w'

def Initial (w : World Caller T V E) : Prop := w = {}

end

section
variable {T V E : Type}

/-- What never goes back in a task: that it has settled, with what was requested until then, and
    that its cancellation is requested. -/
structure Later (s s' : RuntimeTaskState T V E) : Prop where
  settled : s.isTerminal = true → s'.status = s.status ∧
    s'.cancellationRequested = s.cancellationRequested
  requested : s.cancellationRequested = true → s'.cancellationRequested = true
  children : s.spawnedChildren ⊆ s'.spawnedChildren

namespace Later
variable {s s' s'' : RuntimeTaskState T V E}

theorem refl (s : RuntimeTaskState T V E) : Later s s := ⟨fun _ => ⟨rfl, rfl⟩, id, fun _ => id⟩

theorem isTerminal (h : Later s s') (hs : s.isTerminal = true) : s'.isTerminal = true := by
  unfold RuntimeTaskState.isTerminal
  rwa [(h.settled hs).1]

theorem trans (h : Later s s') (h' : Later s' s'') : Later s s'' where
  settled hs :=
    ⟨(h'.settled (h.isTerminal hs)).1.trans (h.settled hs).1,
      (h'.settled (h.isTerminal hs)).2.trans (h.settled hs).2⟩
  requested hs := h'.requested (h.requested hs)
  children := List.Subset.trans h.children h'.children

theorem of_not_isTerminal (hs : ¬ s.isTerminal = true)
    (hrequested : s.cancellationRequested = true → s'.cancellationRequested = true)
    (hchildren : s'.spawnedChildren = s.spawnedChildren) : Later s s' :=
  ⟨fun h => absurd h hs, hrequested, fun _ hx => by rwa [hchildren]⟩

theorem start (s : RuntimeTaskState T V E) : Later s s.start := by
  unfold RuntimeTaskState.start
  split
  · next hpending =>
    refine of_not_isTerminal ?_ id rfl
    rw [RuntimeTaskState.isTerminal, hpending]
    nofun
  · exact refl s

theorem addSpawnedChild (s : RuntimeTaskState T V E) (child : T) : Later s (s.addSpawnedChild child) :=
  ⟨fun _ => ⟨rfl, rfl⟩, id, List.subset_append_left _ _⟩

end Later

end

section
variable {Caller T V E : Type} [DecidableEq T] {w : World Caller T V E}

theorem later_update {tasks : T → RuntimeTaskState T V E} {t : T} {s : RuntimeTaskState T V E}
    (h : Later (tasks t) s) (t' : T) : Later (tasks t') (Function.update tasks t s t') := by
  by_cases heq : t' = t
  · subst heq
    rwa [Function.update_self]
  · rw [Function.update_of_ne heq]
    exact .refl _

variable [DecidableEq Caller]

omit [DecidableEq T] in
theorem setStack_stack (w : World Caller T V E) (c : Caller) : w.setStack c (w.stack c) = w := by
  unfold World.setStack
  rw [Function.update_eq_self]

theorem setStack_setTask_push (w : World Caller T V E) (c : Caller) (rest : List (Frame T)) (t : T)
    (s : RuntimeTaskState T V E) (frame : Frame T) :
    ((w.setStack c rest).setTask t s).push c frame = (w.setTask t s).setStack c (frame :: rest) := by
  unfold World.push World.setTask World.setStack
  dsimp only
  rw [Function.update_idem, Function.update_self]

theorem later_enter (c : Caller) (call : Call T V E) (t : T) :
    Later (w.tasks t) ((w.enter c call).tasks t) := by
  cases call with
  | start t' => exact later_update (.start _) t
  | succeed t' value =>
    rw [World.enter]
    split
    · exact .refl _
    · next hlive =>
      change Later (w.tasks t) (Function.update w.tasks t' _ t)
      refine later_update ?_ t
      exact .of_not_isTerminal hlive id rfl
  | fail t' error =>
    rw [World.enter]
    split
    · exact .refl _
    · next hlive =>
      change Later (w.tasks t) (Function.update w.tasks t' _ t)
      refine later_update ?_ t
      exact .of_not_isTerminal hlive id rfl
  | cancel t' =>
    rw [World.enter]
    split
    · exact .refl _
    · next hlive =>
      change Later (w.tasks t) (Function.update w.tasks t' _ t)
      refine later_update ?_ t
      exact .of_not_isTerminal hlive (fun _ => rfl) rfl
  | requestCancellation t' => exact .refl _
  | addSpawnedChild t' child =>
    rw [World.enter]
    unfold World.addSpawnedChild
    dsimp only
    split
    · exact .refl _
    · split <;> exact later_update (.addSpawnedChild _ child) t
  | «then» t' =>
    rw [World.enter]
    unfold World.registerThen
    dsimp only
    split
    · exact .refl _
    · next hlive =>
      change Later (w.tasks t) (Function.update w.tasks t' _ t)
      refine later_update ?_ t
      exact .of_not_isTerminal hlive id rfl
  | onCancellation t' =>
    rw [World.enter]
    unfold World.registerOnCancellation
    dsimp only
    split
    · exact .refl _
    · split
      · exact .refl _
      · next hlive =>
      change Later (w.tasks t) (Function.update w.tasks t' _ t)
      refine later_update ?_ t
      exact .of_not_isTerminal hlive id rfl

theorem later_advance {c : Caller} {frames : List (Frame T)} {w' : World Caller T V E}
    (hadvance : w.advance c frames = some w') (t : T) : Later (w.tasks t) (w'.tasks t) := by
  unfold World.advance at hadvance
  split at hadvance
  · cases hadvance
  · cases hadvance
    exact .refl _
  · cases hadvance
    exact .refl _
  · cases hadvance
    exact .refl _
  · cases hadvance
    exact .refl _
  · cases hadvance
    exact .refl _
  · cases hadvance
    exact .refl _
  · split at hadvance <;> cases hadvance <;> exact .refl _
  · cases hadvance
    unfold World.requestSection
    dsimp only
    split
    · exact .refl _
    · next hlive =>
      change Later (w.tasks t) (Function.update w.tasks _ _ t)
      refine later_update ?_ t
      exact .of_not_isTerminal (fun h => hlive (Or.inl h)) (fun _ => rfl) rfl

/-- No step takes back what a task has come to. -/
theorem later_step {a : Action Caller T V E} {w' : World Caller T V E} (hstep : Step w a w') (t : T) :
    Later (w.tasks t) (w'.tasks t) := by
  cases a with
  | call c call =>
    cases hstep
    exact later_enter c call t
  | advance c => exact later_advance hstep t
  | expire t' =>
    cases hstep
    exact .refl _

end

end zl.vm.task
