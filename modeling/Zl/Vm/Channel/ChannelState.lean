import Zl.Vm.Task.TaskState

open zl.transition zl.vm.task

namespace zl.vm.channel

/-- A value and the call that sends it. No step looks at the call. -/
abbrev Item (Op V : Type) := Op × V

/-- A call of one of the operations on the channel, or of `cancel` on the task that one returned. -/
inductive Operation (Op V : Type) where
  | send (value : V)
  | receive
  | sendAsync (value : V)
  | receiveAsync
  | cancel (task : Op)
  deriving DecidableEq

def Operation.isAsync {Op V : Type} : Operation Op V → Bool
  | .sendAsync _ | .receiveAsync => true
  | .send _ | .receive | .cancel _ => false

/-- Where a call stands between two of its steps. A call that has left the lock of the channel
    completes tasks, a call of `cancel` has read the status or runs the observers. -/
inductive Phase (Op V : Type) where
  | idle
  | ready
  | completing (result : Option (Item Op V))
  | cancelling
  | requesting
  | observing (observers : List Registration)
  | returned (result : Option (Item Op V))
  | failed
  deriving DecidableEq

/-- A value whose `sendAsync` waits, and its task. -/
structure PendingSend (Op V : Type) where
  value : V
  task : Op

/-- A task that a call is going to start and to complete with a result, or has started. -/
structure Completion (Op V : Type) where
  caller : Op
  task : Op
  result : Option (Item Op V) := none
  started : Bool := false

def Completion.sameAs {Op V : Type} [DecidableEq Op] (k other : Completion Op V) : Bool :=
  other.caller = k.caller && other.task = k.task

/-- The observer that takes a cancelled sender, or receiver, out of its queue. -/
def removePendingSend : Registration := 0

def removePendingReceive : Registration := 1

/-- The channel, the tasks of the calls, which go by the call that made them, and where each call
    stands. What was accepted and delivered, in which order, is recorded and never read. -/
structure World (Op V : Type) where
  capacity : Nat
  items : List (Item Op V) := []
  pendingSends : List (PendingSend Op V) := []
  pendingReceives : List Op := []
  tasks : Op → RuntimeTaskState Op (Option (Item Op V)) Unit := fun _ => {}
  operation : Op → Option (Operation Op V) := fun _ => none
  phase : Op → Phase Op V := fun _ => .idle
  completions : List (Completion Op V) := []
  accepted : List Op := []
  delivered : List (Item Op V × Op) := []

/-- The first live element of a queue and what is behind it. The dead ones before it are lost. -/
def nextLive {A : Type} (live : A → Bool) : List A → Option (A × List A)
  | [] => none
  | a :: rest => if live a then some (a, rest) else nextLive live rest

namespace World
variable {Op V : Type} [DecidableEq Op] (w : World Op V)

def live (t : Op) : Bool := !(w.tasks t).isTerminal

def setPhase (c : Op) (phase : Phase Op V) : World Op V :=
  { w with phase := Function.update w.phase c phase }

def setTask (t : Op) (s : RuntimeTaskState Op (Option (Item Op V)) Unit) : World Op V :=
  { w with tasks := Function.update w.tasks t s }

/-- A sender hands its value to a receiver that waits. Its own task, if it has one, is completed
    first. -/
def handToReceiver (c : Op) (value : V) (own : List (Completion Op V)) (t : Op) (rest : List Op) :
    World Op V :=
  { w with
    pendingReceives := rest
    phase := Function.update w.phase c (.completing none)
    completions := w.completions ++ own ++ [{ caller := c, task := t, result := some (c, value) }]
    accepted := w.accepted ++ [c]
    delivered := w.delivered ++ [((c, value), t)] }

/-- A sender finds no receiver and puts its value into the buffer. -/
def pushItem (c : Op) (value : V) (own : List (Completion Op V)) : World Op V :=
  { w with
    items := w.items ++ [(c, value)]
    pendingReceives := []
    phase := Function.update w.phase c (.completing none)
    completions := w.completions ++ own
    accepted := w.accepted ++ [c] }

/-- A receiver takes the oldest value of the buffer. -/
def popItem (c : Op) (item : Item Op V) (rest : List (Item Op V)) (own : List (Completion Op V))
    (result : Option (Item Op V)) : World Op V :=
  { w with
    items := rest
    phase := Function.update w.phase c (.completing result)
    completions := w.completions ++ own
    delivered := w.delivered ++ [(item, c)] }

/-- A receiver takes the value of a sender that waits, and completes the sender's task first. -/
def takeFromSender (c : Op) (sender : PendingSend Op V) (rest : List (PendingSend Op V))
    (own : List (Completion Op V))
    (result : Option (Item Op V)) : World Op V :=
  { w with
    pendingSends := rest
    phase := Function.update w.phase c (.completing result)
    completions := w.completions ++ { caller := c, task := sender.task } :: own
    delivered := w.delivered ++ [((sender.task, sender.value), c)] }

/-- The section of `send`. On a full channel it waits for another round, or raises the deadlock
    error. -/
def channelSend (c : Op) (value : V) (wouldDeadlock : Bool) : World Op V :=
  match nextLive w.live w.pendingReceives with
  | some (t, rest) => w.handToReceiver c value [] t rest
  | none =>
    if w.items.length < w.capacity then w.pushItem c value []
    else if wouldDeadlock then { w.setPhase c .failed with pendingReceives := [] }
    else { w with pendingReceives := [] }

/-- The section of `receive`. -/
def channelReceive (c : Op) (wouldDeadlock : Bool) : World Op V :=
  match w.items with
  | item :: rest => w.popItem c item rest [] (some item)
  | [] =>
    match nextLive (fun sender => w.live sender.task) w.pendingSends with
    | some (sender, rest) => w.takeFromSender c sender rest [] (some (sender.task, sender.value))
    | none =>
      if wouldDeadlock then { w.setPhase c .failed with pendingSends := [] }
      else { w with pendingSends := [] }

/-- The section of `sendAsync`, whose task waits in a queue of the channel when the buffer is full. -/
def channelSendAsync (c : Op) (value : V) : World Op V :=
  match nextLive w.live w.pendingReceives with
  | some (t, rest) => w.handToReceiver c value [{ caller := c, task := c }] t rest
  | none =>
    if w.items.length < w.capacity then w.pushItem c value [{ caller := c, task := c }]
    else
      { w with
        pendingSends := w.pendingSends ++ [{ value := value, task := c }]
        pendingReceives := []
        tasks :=
          Function.update w.tasks c { w.tasks c with cancellationContinuations := [removePendingSend] }
        phase := Function.update w.phase c (.returned none)
        accepted := w.accepted ++ [c] }

/-- The section of `receiveAsync`, whose task waits when no value is there. -/
def channelReceiveAsync (c : Op) : World Op V :=
  match w.items with
  | item :: rest => w.popItem c item rest [{ caller := c, task := c, result := some item }] none
  | [] =>
    match nextLive (fun sender => w.live sender.task) w.pendingSends with
    | some (sender, rest) =>
      w.takeFromSender c sender rest
        [{ caller := c, task := c, result := some (sender.task, sender.value) }] none
    | none =>
      { w with
        pendingSends := []
        pendingReceives := w.pendingReceives ++ [c]
        tasks :=
          Function.update w.tasks c { w.tasks c with cancellationContinuations := [removePendingReceive] }
        phase := Function.update w.phase c (.returned none) }

/-- `TaskCancel`: a pending task is going to be cancelled, of a running one it is requested. -/
def taskCancel (c t : Op) : World Op V :=
  match (w.tasks t).status with
  | .Pending => w.setPhase c .cancelling
  | .Running => w.setPhase c .requesting
  | .Succeeded | .Failed | .Cancelled => w.setPhase c (.returned none)

/-- The transition of `cancel`, which raises an error when the task has settled. -/
def cancelTask (c t : Op) : World Op V :=
  if (w.tasks t).isTerminal then w.setPhase c .failed
  else (w.setTask t (w.tasks t).cancel).setPhase c (.observing (w.tasks t).cancellationContinuations)

def requestCancellation (c t : Op) : World Op V :=
  if (w.tasks t).isTerminal ∨ (w.tasks t).cancellationRequested then w.setPhase c (.returned none)
  else (w.setTask t (w.tasks t).requestCancellation).setPhase c
    (.observing (w.tasks t).cancellationContinuations)

/-- An observer takes the lock of the channel and removes the task from its queue. -/
def runObserver (t : Op) (observer : Registration) : World Op V :=
  if observer = removePendingSend then { w with pendingSends := w.pendingSends.filter (·.task ≠ t) }
  else { w with pendingReceives := w.pendingReceives.filter (· ≠ t) }

/-- A completion is made or given up. -/
def dropCompletion (k : Completion Op V) : World Op V :=
  { w with completions := w.completions.filter fun other => !k.sameAs other }

/-- A call goes on from `start` to `succeed`. -/
def markStarted (k : Completion Op V) : World Op V :=
  { w with completions := w.completions.map fun other =>
      if k.sameAs other then { other with started := true } else other }

/-- A transition of a task is refused. Of the partner's task the error is caught, of the own one
    it leaves the call. -/
def refused (c : Op) (k : Completion Op V) : World Op V :=
  if k.task = c then (w.dropCompletion k).setPhase c .failed else w.dropCompletion k

/-- The next step of a call that has left the lock: it starts or completes a task, or returns. -/
def complete (c : Op) (result : Option (Item Op V)) : World Op V :=
  match w.completions.find? (·.caller = c) with
  | none => w.setPhase c (.returned result)
  | some k =>
    if k.started then
      if (w.tasks k.task).isTerminal then w.refused c k
      else (w.setTask k.task ((w.tasks k.task).succeed k.result)).dropCompletion k
    else if (w.tasks k.task).status =
      .Pending then (w.setTask k.task (w.tasks k.task).start).markStarted k
    else w.refused c k

end World

/-- A call begins, takes the channel's lock for one section, or makes its next step without it. -/
inductive Action (Op V : Type) where
  | begin (c : Op) (operation : Operation Op V)
  | section (c : Op) (wouldDeadlock : Bool)
  | advance (c : Op)

section
variable {Op V : Type} [DecidableEq Op]

/-- Only tasks that have been returned can be cancelled. -/
def World.mayBegin (w : World Op V) : Operation Op V → Bool
  | .cancel t =>
    match w.phase t with
    | .returned none => (w.operation t).any Operation.isAsync
    | _ => false
  | .send _ | .receive | .sendAsync _ | .receiveAsync => true

def next (w : World Op V) : Action Op V → Option (World Op V)
  | .begin c operation =>
    match w.phase c with
    | .idle =>
      if w.mayBegin operation then
        some { w.setPhase c .ready with operation := Function.update w.operation c (some operation) }
      else none
    | _ => none
  | .section c wouldDeadlock =>
    match w.phase c, w.operation c with
    | .ready, some (.send value) => some (w.channelSend c value wouldDeadlock)
    | .ready, some .receive => some (w.channelReceive c wouldDeadlock)
    | .ready, some (.sendAsync value) => some (w.channelSendAsync c value)
    | .ready, some .receiveAsync => some (w.channelReceiveAsync c)
    | _, _ => none
  | .advance c =>
    match w.phase c, w.operation c with
    | .completing result, _ => some (w.complete c result)
    | .ready, some (.cancel t) => some (w.taskCancel c t)
    | .cancelling, some (.cancel t) => some (w.cancelTask c t)
    | .requesting, some (.cancel t) => some (w.requestCancellation c t)
    | .observing [], some (.cancel _) => some (w.setPhase c (.returned none))
    | .observing (observer :: rest), some (.cancel t) =>
        some ((w.runObserver t observer).setPhase c (.observing rest))
    | _, _ => none

def Step (w : World Op V) (a : Action Op V) (w' : World Op V) : Prop := next w a = some w'

/-- A new channel. -/
def Initial (w : World Op V) : Prop := ∃ capacity, 0 < capacity ∧ w = { capacity := capacity }

end

section
variable {A : Type} {live : A → Bool} {queue rest : List A} {a : A}

theorem nextLive_eq_some (h : nextLive live queue = some (a, rest)) :
    live a = true ∧ ∃ dead, queue = dead ++ a :: rest ∧ ∀ b ∈ dead, live b = false := by
  induction queue with
  | nil => cases h
  | cons b queue ih =>
    rw [nextLive] at h
    split at h
    · next hlive =>
      cases h
      exact ⟨hlive, [], rfl, fun _ h => nomatch h⟩
    · next hdead =>
      obtain ⟨hlive, dead, rfl, hdeads⟩ := ih h
      refine ⟨hlive, b :: dead, rfl, fun b' hb' => ?_⟩
      rcases List.mem_cons.mp hb' with rfl | hb'
      · exact Bool.eq_false_iff.mpr hdead
      · exact hdeads b' hb'

theorem nextLive_eq_none (h : nextLive live queue = none) : ∀ b ∈ queue, live b = false := by
  induction queue with
  | nil => exact fun _ h => nomatch h
  | cons b queue ih =>
    rw [nextLive] at h
    split at h
    · cases h
    · next hdead =>
      intro b' hb'
      rcases List.mem_cons.mp hb' with rfl | hb'
      · exact Bool.eq_false_iff.mpr hdead
      · exact ih h b' hb'

end

end zl.vm.channel
