import Mathlib
import Zl.Transition.Run

open zl.transition

namespace zl.vm.task

/-- The pool, whose workers wait, run a work or have left their loop, and the started threads that
    are counted with its tasks. A call of `enqueue` has the mutex between its count and its push.
    The last three fields are recorded and never read. -/
structure RuntimeTaskExecutor (Work : Type) where
  waiting : Nat
  running : List Work := []
  exited : Nat := 0
  queue : List Work := []
  enqueuing : Option Work := none
  stopping : Bool := false
  threads : Nat := 0
  gAliveWorkerThreads : Int := 0
  accepted : List Work := []
  begun : List Work := []
  finished : List Work := []

namespace RuntimeTaskExecutor
variable {Work : Type} {w w' : RuntimeTaskExecutor Work}

def channelBlockWouldDeadlock (w : RuntimeTaskExecutor Work) (gIsWorkerThread : Bool)
    (schedulerPendingCount : Nat) : Bool :=
  if gIsWorkerThread then false
  else if w.gAliveWorkerThreads > 0 then false
  else if schedulerPendingCount > 0 then false
  else true

def Initial (w : RuntimeTaskExecutor Work) : Prop :=
  ∃ n, w = { waiting := max 1 n }

/-- The sections under the mutex of the queue, and what threads do to the count without it. -/
inductive Step (w : RuntimeTaskExecutor Work) : Unit → RuntimeTaskExecutor Work → Prop
  | count (work : Work) (hfree : w.enqueuing = none) (hopen : w.stopping = false) :
      Step w () { w with enqueuing := some work, gAliveWorkerThreads := w.gAliveWorkerThreads + 1 }
  | push {work} (hheld : w.enqueuing = some work) :
      Step w () { w with enqueuing := none, queue := w.queue ++ [work], accepted := w.accepted ++ [work] }
  | pop {n work rest} (hfree : w.enqueuing = none) (hqueue : w.queue = work :: rest)
      (hwaiting : w.waiting = n + 1) :
      Step w () { w with
        waiting := n, running := work :: w.running, queue := rest, begun := w.begun ++ [work] }
  -- The work has returned or raised.
  | finish {before after work} (hrunning : w.running = before ++ work :: after) :
      Step w () { w with
        waiting := w.waiting + 1, running := before ++ after, finished := w.finished ++ [work]
        gAliveWorkerThreads := w.gAliveWorkerThreads - 1 }
  | exit {n} (hfree : w.enqueuing = none) (hstopping : w.stopping = true) (hqueue : w.queue = [])
      (hwaiting : w.waiting = n + 1) : Step w () { w with waiting := n, exited := w.exited + 1 }
  | stop (hfree : w.enqueuing = none) : Step w () { w with stopping := true }
  | startThread :
      Step w () { w with threads := w.threads + 1, gAliveWorkerThreads := w.gAliveWorkerThreads + 1 }
  -- The thread ends, or could not be spawned.
  | endThread {n} (hthreads : w.threads = n + 1) :
      Step w () { w with threads := n, gAliveWorkerThreads := w.gAliveWorkerThreads - 1 }

/-- The count is of what is not finished, and the queue loses and repeats nothing. -/
structure Accounted (w : RuntimeTaskExecutor Work) : Prop where
  counted : w.gAliveWorkerThreads =
    w.enqueuing.toList.length + w.queue.length + w.running.length + w.threads
  fifo : w.begun ++ w.queue = w.accepted
  once : (w.finished ++ w.running).Perm w.begun
  drained : 0 < w.exited → w.queue = [] ∧ w.enqueuing = none ∧ w.stopping = true
  workers : 0 < w.waiting + w.running.length + w.exited

theorem Accounted.step (h : Accounted w) (hstep : Step w () w') : Accounted w' := by
  obtain ⟨hcounted, hfifo, honce, hdrained, hworkers⟩ := h
  cases hstep with
  | count work hfree hopen =>
    exact ⟨by simp [hcounted, hfree]; omega, hfifo, honce, fun h => by simp [hdrained h] at hopen, hworkers⟩
  | push hheld =>
    exact ⟨by simp [hcounted, hheld]; omega, by simp [← hfifo], honce,
      fun h => by simp [hdrained h] at hheld, hworkers⟩
  | pop hfree hqueue hwaiting =>
    refine ⟨by simp [hcounted, hqueue]; omega, by simp [← hfifo, hqueue], ?_,
      fun h => by simp [hdrained h] at hqueue, by simp⟩
    exact List.perm_middle.trans ((honce.cons _).trans (List.perm_append_singleton _ _).symm)
  | finish hrunning =>
    refine ⟨by simp [hcounted, hrunning]; omega, hfifo, ?_, hdrained, by simp⟩
    rw [hrunning] at honce
    rw [List.append_assoc, List.singleton_append]
    exact (List.perm_middle.symm.append_left _).trans honce
  | exit hfree hstopping hqueue hwaiting =>
    exact ⟨hcounted, hfifo, honce, fun _ => ⟨hqueue, hfree, hstopping⟩, by simp⟩
  | stop hfree => exact ⟨hcounted, hfifo, honce, fun h => ⟨(hdrained h).1, hfree, rfl⟩, hworkers⟩
  | startThread => exact ⟨by simp; omega, hfifo, honce, hdrained, hworkers⟩
  | endThread hthreads => exact ⟨by simp; omega, hfifo, honce, hdrained, hworkers⟩

/-- Work begins in the order of the queue and finishes once. A deadlock is only reported when none
    is left and no thread runs, and the workers only leave when all that was accepted has finished. -/
theorem run_accounted {past} (hrun : Run Initial Step w past) :
    w.begun ++ w.queue = w.accepted ∧ (w.finished ++ w.running).Perm w.begun ∧
    (∀ isWorker pending, w.channelBlockWouldDeadlock isWorker pending = true →
      w.enqueuing = none ∧ w.finished.Perm w.accepted ∧ w.threads = 0) ∧
    (w.waiting = 0 → w.running = [] → w.enqueuing = none ∧ w.finished.Perm w.accepted) := by
  obtain ⟨hcounted, hfifo, honce, hdrained, hworkers⟩ : Accounted w :=
    hrun.invariant_of_all Accounted (by rintro _ ⟨n, rfl⟩; constructor <;> simp) fun _ _ _ h hs => h.step hs
  have hall (hqueue : w.queue = []) (hrunning : w.running = []) : w.finished.Perm w.accepted := by
    simpa [← hfifo, hqueue, hrunning] using honce
  refine ⟨hfifo, honce, fun isWorker pending hdead => ?_, fun hwaiting hrunning => ?_⟩
  · have hcount : ¬ 0 < w.gAliveWorkerThreads := by
      intro hpos
      simp [channelBlockWouldDeadlock, hpos] at hdead
    refine ⟨Option.toList_eq_nil_iff.mp (List.length_eq_zero_iff.mp (by omega)),
      hall (List.length_eq_zero_iff.mp (by omega)) (List.length_eq_zero_iff.mp (by omega)), by omega⟩
  · obtain ⟨hqueue, hfree, -⟩ := hdrained (by simpa [hwaiting, hrunning] using hworkers)
    exact ⟨hfree, hall hqueue hrunning⟩

/-- The one worker of a pool finishes a task and leaves. -/
theorem run_accounted_shutdown : ∃ w : RuntimeTaskExecutor String, w.finished = ["task"] ∧ w.exited = 1 ∧
    w.enqueuing = none ∧ w.finished.Perm w.accepted := by
  have h₁ := ((@Run.start _ _ Initial Step _ ⟨1, rfl⟩).step (.count "task" rfl rfl)).step (.push rfl)
  have h₂ := (h₁.step (.pop rfl rfl rfl)).step (.finish (List.nil_append _).symm)
  have h₃ := (h₂.step (.stop rfl)).step (.exit rfl rfl rfl rfl)
  exact ⟨_, rfl, rfl, (run_accounted h₃).2.2.2 rfl rfl⟩

end RuntimeTaskExecutor

end zl.vm.task
