import Zl.Vm.Task.TaskState

namespace zl.vm.task

/-- An exception in flight: a thrown object of the language, or an error of the C++ library. -/
inductive Raised (E : Type) where
  | thrown (object : E)
  | logicError
  | other
  deriving DecidableEq, Repr

/-- What another thread does to the task. A call that throws there changes nothing. -/
inductive Move (V E : Type) where
  | start
  | succeed (value : V)
  | fail (error : Raised E)
  | cancel
  | requestCancellation
  | «then» (continuation : Registration)
  | onCancellation (continuation : Registration)

section
variable {T V E : Type}

def Move.apply (t : RuntimeTaskState T V (Raised E)) : Move V E → RuntimeTaskState T V (Raised E)
  | .start => t.start
  | .succeed value => if t.isTerminal then t else t.succeed value
  | .fail error => if t.isTerminal then t else t.fail error
  | .cancel => if t.isTerminal then t else t.cancel
  | .requestCancellation => if t.isTerminal ∨ t.cancellationRequested then t else t.requestCancellation
  | .then k => if t.isTerminal then t else { t with continuations := t.continuations ++ [k] }
  | .onCancellation k =>
    if t.isTerminal ∨ t.cancellationRequested then t
    else { t with cancellationContinuations := t.cancellationContinuations ++ [k] }

/-- Where `resumeAsyncInvocation` looks at the task, named after what it does there. -/
inductive Point where
  | status | start | cancellationRequested | succeed | isTerminal | settle
  deriving DecidableEq, Repr

structure AsyncInvocation (T V E : Type) where
  resumeIp : Nat := 0
  started : Bool := false
  awaitedTask : Option (RuntimeTaskState T V (Raised E)) := none

/-- A machine that runs the body of one task. `terminalTransitions` and `suspended` record what this
    call of `resumeAsyncInvocation` did, no code reads them. -/
structure Vm (T V E : Type) where
  asyncInvocation : Option (AsyncInvocation T V E)
  asyncTask : RuntimeTaskState T V (Raised E) := {}
  stack : List V := []
  pendingResumeException : Option (Raised E) := none
  terminalTransitions : Nat := 0
  suspended : Bool := false

/-- How the interpreter loop ends. An exception that `enterFrame` throws counts as the body's. -/
inductive BodyOutcome (T V E : Type) where
  | completed (result : V)
  | raised (error : Raised E)
  | suspended (resumeIp : Nat) (awaitedTask : RuntimeTaskState T V (Raised E))

/-- What a call meets: what other threads do before each look at the task, the body, what a
    continuation throws, and the exception that stands for a cancellation. -/
structure Surroundings (T V E : Type) where
  others : Point → List (Move V E)
  body : Vm T V E → BodyOutcome T V E
  continuation : Registration → Option (Raised E)
  entryAddress : Nat
  makeCancellationException : E
  isCancellationException : E → Bool

/-- How a call ends when it does not return: with an exception, or at `asyncInvocation_->` after the
    record is gone. -/
inductive Stop (E : Type) where
  | raised (error : Raised E)
  | clearedRecordUsed
  deriving DecidableEq, Repr

namespace Vm
variable (s : Surroundings T V E) (vm : Vm T V E)

def clear : Vm T V E := { vm with asyncInvocation := none }

/-- The task as the other threads leave it in front of a point. -/
def moved (p : Point) (t : RuntimeTaskState T V (Raised E)) : RuntimeTaskState T V (Raised E) :=
  (s.others p).foldl Move.apply t

def interfere (p : Point) : Vm T V E := { vm with asyncTask := moved s p vm.asyncTask }

/-- The first exception of the continuations. All of them are run. -/
def firstError (continuations : List Registration) : Option (Raised E) :=
  continuations.findSome? s.continuation

def settle (t : RuntimeTaskState T V (Raised E)) : Vm T V E :=
  { vm with asyncTask := t, terminalTransitions := vm.terminalTransitions + 1 }

def succeed (value : V) : Vm T V E × Option (Raised E) :=
  if vm.asyncTask.isTerminal then (vm, some .logicError)
  else (vm.settle (vm.asyncTask.succeed value), firstError s vm.asyncTask.continuations)

def fail (error : Raised E) : Vm T V E × Option (Raised E) :=
  if vm.asyncTask.isTerminal then (vm, some .logicError)
  else (vm.settle (vm.asyncTask.fail error), firstError s vm.asyncTask.continuations)

def cancel : Vm T V E × Option (Raised E) :=
  if vm.asyncTask.isTerminal then (vm, some .logicError)
  else (vm.settle vm.asyncTask.cancel,
    firstError s (vm.asyncTask.continuations ++ vm.asyncTask.cancellationContinuations))

/-- The value, or the exception, of an awaited task that has settled. -/
def observeAwaited (record : AsyncInvocation T V E) : Vm T V E :=
  match record.awaitedTask with
  | none => vm
  | some awaited =>
    if awaited.isTerminal then
      let vm := { vm with asyncInvocation := some { record with awaitedTask := none } }
      match awaited.status, awaited.result, awaited.error with
      | .Succeeded, some value, _ => { vm with stack := value :: vm.stack }
      | .Failed, _, some error => { vm with pendingResumeException := some error }
      | _, _, _ => { vm with pendingResumeException := some (.thrown s.makeCancellationException) }
    else vm

/-- How the part in front of the interpreter loop ends. -/
inductive Entry (E : Type) where
  | runs
  | returns
  | raises (error : Raised E)

def enter : Vm T V E × Entry E :=
  if vm.asyncInvocation.any (·.started) then (vm, .runs)
  else
    let vm := vm.interfere s .status
    if vm.asyncTask.status = .Cancelled then (vm.clear, .returns)
    else if vm.asyncTask.status ≠ .Pending then (vm, .raises .logicError)
    else
      let vm := vm.interfere s .start
      if vm.asyncTask.status ≠ .Pending then (vm, .raises .logicError)
      else
        ({ vm with
            asyncTask := vm.asyncTask.start
            asyncInvocation := vm.asyncInvocation.map fun record =>
              { record with resumeIp := s.entryAddress, started := true } }, .runs)

/-- The machine when the interpreter loop is entered. -/
def prepared : Vm T V E :=
  let vm := vm.interfere s .cancellationRequested
  if vm.asyncTask.cancellationRequested then
    { vm with pendingResumeException := some (.thrown s.makeCancellationException) }
  else vm

def finish (result : V) : Vm T V E × Option (Stop E) :=
  match vm.asyncInvocation with
  | none => (vm, some .clearedRecordUsed)
  | some _ =>
    let (vm, raised) := (vm.clear.interfere s .succeed).succeed s result
    (vm, raised.map .raised)

def execute : Vm T V E × Option (Stop E) :=
  let vm := vm.prepared s
  let outcome := s.body vm
  let vm := { vm with pendingResumeException := none }
  match outcome with
  | .completed result => vm.finish s result
  | .raised error => (vm, some (.raised error))
  | .suspended resumeIp awaitedTask =>
    ({ vm with
        asyncInvocation := vm.asyncInvocation.map fun record =>
          { record with resumeIp, awaitedTask := some awaitedTask }
        suspended := true }, none)

def tryBlock (record : AsyncInvocation T V E) : Vm T V E × Option (Stop E) :=
  match (vm.observeAwaited s record).enter s with
  | (vm, .runs) => vm.execute s
  | (vm, .returns) => (vm, none)
  | (vm, .raises error) => (vm, some (.raised error))

/-- The call by which a handler settles the task. -/
def settleWith (error : Raised E) : Vm T V E × Option (Raised E) :=
  match error with
  | .thrown object => if s.isCancellationException object then vm.cancel s else vm.fail s error
  | _ => vm.fail s error

/-- The two handlers. A `std::logic_error` of the call that settles the task is dropped. -/
def handle (error : Raised E) : Vm T V E × Option (Stop E) :=
  match vm.asyncInvocation with
  | none => (vm, some .clearedRecordUsed)
  | some _ =>
    let vm := vm.clear.interfere s .isTerminal
    if vm.asyncTask.isTerminal then (vm, none)
    else
      match (vm.interfere s .settle).settleWith s error with
      | (vm, none) | (vm, some .logicError) => (vm, none)
      | (vm, some error) => (vm, some (.raised error))

/-- What the handlers make of the end of the block they belong to. -/
def guarded : Vm T V E × Option (Stop E) → Vm T V E × Option (Stop E)
  | (vm, some (.raised error)) => vm.handle s error
  | result => result

def resumeAsyncInvocation : Vm T V E × Option (Stop E) :=
  let vm := { vm with terminalTransitions := 0, suspended := false }
  match vm.asyncInvocation with
  | none => (vm, none)
  | some record => guarded s (vm.tryBlock s record)

/-- A call returns without having used a cleared record, settles the task at most once and keeps the
    record exactly if the body is to be resumed. -/
structure Total (result : Vm T V E × Option (Stop E)) : Prop where
  record_used : result.2 ≠ some .clearedRecordUsed
  returns : ∀ error, result.2 ≠ some (.raised error)
  once : result.1.terminalTransitions ≤ 1
  cleared_iff : result.1.asyncInvocation = none ↔ result.1.suspended = false

/-- The continuations that settling a task with an exception runs. -/
def called (error : Raised E) (t : RuntimeTaskState T V (Raised E)) : List Registration :=
  match error with
  | .thrown object =>
    if s.isCancellationException object then t.continuations ++ t.cancellationContinuations
      else t.continuations
  | _ => t.continuations

/-- An exception that meets a task in a state is absorbed: someone else has settled the task, or the
    first continuation to throw, if one does, throws a `std::logic_error`. -/
def Absorbed (error : Raised E) (t : RuntimeTaskState T V (Raised E)) : Prop :=
  let seen := moved s .isTerminal t
  let last := moved s .settle seen
  seen.isTerminal = true ∨ last.isTerminal = true ∨
    ∀ raised ∈ firstError s (called s error last), raised = .logicError

/-- What the body ends with can be dealt with: a result finds the task not settled and no continuation
    that throws, an exception is absorbed. -/
def BodySettles : Prop :=
  match s.body (vm.prepared s) with
  | .completed _ =>
    let t := moved s .succeed (vm.prepared s).asyncTask
    t.isTerminal = false ∧ ∀ k ∈ t.continuations, s.continuation k = none
  | .raised error => Absorbed s error (vm.prepared s).asyncTask
  | .suspended _ _ => True

/-- The task of a body that has not started can be dealt with: it was cancelled, or it is pending and
    is started, or the error that it is neither is absorbed. -/
def StartSettles : Prop :=
  let t := moved s .status vm.asyncTask
  let t' := moved s .start t
  t.status = .Cancelled ∨
    (t.status ≠ .Cancelled ∧ t.status ≠ .Pending ∧ Absorbed s .logicError t) ∨
    (t.status = .Pending ∧ t'.status ≠ .Pending ∧ Absorbed s .logicError t') ∨
    (t.status = .Pending ∧ t'.status = .Pending ∧
      BodySettles s { vm with
        asyncTask := t'.start
        asyncInvocation := vm.asyncInvocation.map fun record =>
          { record with resumeIp := s.entryAddress, started := true } })

def Settles : Prop :=
  let vm := { vm with terminalTransitions := 0, suspended := false }
  ∀ record ∈ vm.asyncInvocation,
    if record.started then BodySettles s (vm.observeAwaited s record)
    else StartSettles s (vm.observeAwaited s record)

section
variable {s vm}
variable {error : Raised E}

/-- The machine of a call that has not ended yet: the record is there and nothing is settled. -/
structure Underway (vm : Vm T V E) : Prop where
  record : vm.asyncInvocation.isSome = true
  once : vm.terminalTransitions = 0
  not_suspended : vm.suspended = false

theorem total_of_cleared {vm' : Vm T V E} (hrecord : vm'.asyncInvocation = none)
    (honce : vm'.terminalTransitions ≤ 1) (hsuspended : vm'.suspended = false) :
    Total (vm', (none : Option (Stop E))) :=
  ⟨nofun, nofun, honce, fun _ => hsuspended, fun _ => hrecord⟩

/-- Settling a task with an exception runs the continuations that are called. -/
theorem settleWith_live (hlive : vm.asyncTask.isTerminal = false) :
    ∃ t, vm.settleWith s error = (vm.settle t, firstError s (called s error vm.asyncTask)) := by
  have hfail : vm.fail s error = (vm.settle (vm.asyncTask.fail error),
    firstError s vm.asyncTask.continuations) := by
    rw [fail, hlive]
    rfl
  have hcancel : vm.cancel s =
      (vm.settle vm.asyncTask.cancel,
        firstError s (vm.asyncTask.continuations ++ vm.asyncTask.cancellationContinuations)) := by
    rw [cancel, hlive]
    rfl
  cases error with
  | thrown object =>
    unfold settleWith called
    dsimp only
    split
    · exact ⟨_, hcancel⟩
    · exact ⟨_, hfail⟩
  | logicError => exact ⟨_, hfail⟩
  | other => exact ⟨_, hfail⟩

theorem settleWith_terminal (hterminal : vm.asyncTask.isTerminal = true) :
    vm.settleWith s error = (vm, some .logicError) := by
  have hfail : vm.fail s error = (vm, some .logicError) := if_pos hterminal
  have hcancel : vm.cancel s = (vm, some .logicError) := if_pos hterminal
  cases error with
  | thrown object =>
    unfold settleWith
    dsimp only
    split
    · exact hcancel
    · exact hfail
  | logicError => exact hfail
  | other => exact hfail

theorem handle_total (h : Underway vm) : Total (vm.handle s error) ↔ Absorbed s error vm.asyncTask := by
  obtain ⟨record, hrecord⟩ := Option.isSome_iff_exists.mp h.record
  obtain ⟨-, honce, hsuspended⟩ := h
  have hdone : vm.terminalTransitions ≤ 1 := by omega
  unfold handle
  rw [hrecord]
  dsimp only
  by_cases hseen : (vm.clear.interfere s .isTerminal).asyncTask.isTerminal = true
  · rw [if_pos hseen]
    exact iff_of_true (total_of_cleared rfl hdone hsuspended) (.inl hseen)
  rw [if_neg hseen]
  by_cases hlast : ((vm.clear.interfere s .isTerminal).interfere s .settle).asyncTask.isTerminal = true
  · rw [settleWith_terminal hlast]
    exact iff_of_true (total_of_cleared rfl hdone hsuspended) (.inr (.inl hlast))
  obtain ⟨t, hsettled⟩ : ∃ t, ((vm.clear.interfere s .isTerminal).interfere s .settle).settleWith s error =
      (((vm.clear.interfere s .isTerminal).interfere s .settle).settle t,
        firstError s (called s error ((vm.clear.interfere s .isTerminal).interfere s .settle).asyncTask)) :=
    settleWith_live (by simpa using hlast)
  rw [hsettled]
  have habsorbed : Absorbed s error vm.asyncTask ↔
      ∀ raised ∈ firstError s (called s error
        ((vm.clear.interfere s .isTerminal).interfere s .settle).asyncTask),
        raised = .logicError :=
    (or_iff_right hseen).trans (or_iff_right hlast)
  rw [habsorbed]
  have htotal : Total (((vm.clear.interfere s .isTerminal).interfere s .settle).settle t,
    (none : Option (Stop E))) :=
    total_of_cleared rfl (Nat.le_of_eq (congrArg (· + 1) honce)) hsuspended
  cases hfirst : firstError s (called s error
    ((vm.clear.interfere s .isTerminal).interfere s .settle).asyncTask) with
  | none => exact iff_of_true htotal (by simp)
  | some raised =>
    cases raised with
    | logicError => exact iff_of_true htotal (by simp)
    | thrown object => exact iff_of_false (fun h => h.returns _ rfl) (by simp)
    | other => exact iff_of_false (fun h => h.returns _ rfl) (by simp)

theorem firstError_eq_none {continuations : List Registration} :
    firstError s continuations = none ↔ ∀ k ∈ continuations, s.continuation k = none :=
  List.findSome?_eq_none_iff

/-- A result that cannot be delivered ends in the handlers, which find the record gone. -/
theorem finish_total (h : Underway vm) (result : V) : Total (guarded s (vm.finish s result)) ↔
    (moved s .succeed vm.asyncTask).isTerminal = false ∧
      ∀ k ∈ (moved s .succeed vm.asyncTask).continuations, s.continuation k = none := by
  obtain ⟨record, hrecord⟩ := Option.isSome_iff_exists.mp h.record
  obtain ⟨-, honce, hsuspended⟩ := h
  have hused : ∀ vm' : Vm T V E, vm'.asyncInvocation = none → ∀ error,
      ¬ Total (guarded s (vm', some (.raised error))) := by
    intro vm' hnone error htotal
    apply htotal.record_used
    rw [guarded, handle, hnone]
  unfold finish
  rw [hrecord]
  dsimp only
  by_cases hterminal : (moved s .succeed vm.asyncTask).isTerminal = true
  · have hsucceed : (vm.clear.interfere s .succeed).succeed s result =
        (vm.clear.interfere s .succeed, some .logicError) := if_pos hterminal
    rw [hsucceed]
    exact iff_of_false (hused _ rfl _) (by simp [hterminal])
  · have hsucceed : (vm.clear.interfere s .succeed).succeed s result =
        ((vm.clear.interfere s .succeed).settle ((moved s .succeed vm.asyncTask).succeed result),
          firstError s (moved s .succeed vm.asyncTask).continuations) := if_neg hterminal
    rw [hsucceed, ← firstError_eq_none]
    cases hfirst : firstError s (moved s .succeed vm.asyncTask).continuations with
    | none =>
      refine iff_of_true (total_of_cleared rfl ?_ hsuspended) ⟨by simpa using hterminal, rfl⟩
      exact Nat.le_of_eq (congrArg (· + 1) honce)
    | some raised => exact iff_of_false (hused _ rfl _) (by simp)

theorem Underway.prepared (h : Underway vm) : Underway (vm.prepared s) := by
  unfold Vm.prepared
  dsimp only
  split <;> exact ⟨h.record, h.once, h.not_suspended⟩

theorem Underway.observeAwaited (h : Underway vm) (record : AsyncInvocation T V E) :
    Underway (vm.observeAwaited s record) := by
  unfold Vm.observeAwaited
  split
  · exact h
  split
  · split <;> exact ⟨rfl, h.once, h.not_suspended⟩
  · exact h

theorem observeAwaited_started {record : AsyncInvocation T V E} (h : vm.asyncInvocation = some record) :
    (vm.observeAwaited s record).asyncInvocation.any (·.started) = record.started := by
  unfold Vm.observeAwaited
  split
  · rw [h]
    rfl
  split
  · split <;> rfl
  · rw [h]
    rfl

theorem execute_total (h : Underway vm) : Total (guarded s (vm.execute s)) ↔ BodySettles s vm := by
  have hprepared := h.prepared (s := s)
  unfold execute BodySettles
  dsimp only
  generalize vm.prepared s = ready at hprepared ⊢
  have hloop : Underway { ready with pendingResumeException := none } :=
    ⟨hprepared.record, hprepared.once, hprepared.not_suspended⟩
  cases s.body ready with
  | completed result => exact finish_total hloop result
  | raised error => exact handle_total hloop
  | suspended resumeIp awaitedTask =>
    obtain ⟨record, hrecord⟩ := Option.isSome_iff_exists.mp hprepared.record
    refine iff_of_true ⟨nofun, nofun, Nat.le_of_eq hprepared.once |>.trans (Nat.zero_le 1), ?_⟩ trivial
    simp [guarded, hrecord]

theorem enter_total (h : Underway vm) (hstarted : vm.asyncInvocation.any (·.started) = false) :
    Total (guarded s (match vm.enter s with
      | (vm, .runs) => vm.execute s
      | (vm, .returns) => (vm, none)
      | (vm, .raises error) => (vm, some (.raised error)))) ↔ StartSettles s vm := by
  have hmoved : ∀ p, Underway (vm.interfere s p) := fun _ => ⟨h.record, h.once, h.not_suspended⟩
  unfold enter StartSettles
  rw [hstarted, if_neg (by decide)]
  dsimp only
  by_cases hcancelled : (vm.interfere s .status).asyncTask.status = .Cancelled
  · rw [if_pos hcancelled]
    refine iff_of_true (total_of_cleared rfl ?_ h.not_suspended) (.inl hcancelled)
    exact Nat.le_of_eq h.once |>.trans (Nat.zero_le 1)
  have hcancelled' : ¬ (moved s .status vm.asyncTask).status = .Cancelled := hcancelled
  rw [if_neg hcancelled, or_iff_right hcancelled']
  by_cases hpending : (vm.interfere s .status).asyncTask.status = .Pending
  · rw [if_neg (not_not.mpr hpending)]
    by_cases hpending' : ((vm.interfere s .status).interfere s .start).asyncTask.status = .Pending
    · rw [if_neg (not_not.mpr hpending')]
      have hstart : Underway { vm with
          asyncTask := ((vm.interfere s .status).interfere s .start).asyncTask.start
          asyncInvocation := vm.asyncInvocation.map fun record =>
            { record with resumeIp := s.entryAddress, started := true } } :=
        ⟨by simpa using h.record, h.once, h.not_suspended⟩
      refine (execute_total hstart).trans ⟨fun hsettles => .inr (.inr ⟨hpending, hpending', hsettles⟩), ?_⟩
      rintro (⟨-, hnot, -⟩ | ⟨-, hnot, -⟩ | ⟨-, -, hsettles⟩)
      · exact absurd hpending hnot
      · exact absurd hpending' hnot
      · exact hsettles
    · rw [if_pos hpending']
      have hraced : Underway ((vm.interfere s .status).interfere s .start) :=
        ⟨h.record, h.once, h.not_suspended⟩
      refine (handle_total hraced).trans ?_
      refine ⟨fun habsorbed => .inr (.inl ⟨hpending, hpending', habsorbed⟩), ?_⟩
      rintro (⟨-, hnot, -⟩ | ⟨-, -, habsorbed⟩ | ⟨-, hpos, -⟩)
      · exact absurd hpending hnot
      · exact habsorbed
      · exact absurd hpos hpending'
  · rw [if_pos hpending]
    refine (handle_total (hmoved .status)).trans ?_
    refine ⟨fun habsorbed => .inl ⟨hcancelled, hpending, habsorbed⟩, ?_⟩
    rintro (⟨-, -, habsorbed⟩ | ⟨hpos, -⟩ | ⟨hpos, -⟩)
    · exact habsorbed
    · exact absurd hpos hpending
    · exact absurd hpos hpending

/-- A call is total exactly if what the body, or the attempt to start it, ends with can be dealt with. -/
theorem resumeAsyncInvocation_total_iff (s : Surroundings T V E) (vm : Vm T V E) :
    Total (vm.resumeAsyncInvocation s) ↔ Settles s vm := by
  unfold resumeAsyncInvocation Settles
  dsimp only
  cases hrecord : vm.asyncInvocation with
  | none =>
    exact iff_of_true ⟨nofun, nofun, Nat.zero_le 1, fun _ => rfl, fun _ => rfl⟩ (by simp)
  | some record =>
    have hunderway : Underway { vm with
        asyncInvocation := some record, terminalTransitions := 0, suspended := false } := ⟨rfl, rfl, rfl⟩
    have hobserved := hunderway.observeAwaited (s := s) record
    have hstarted : (observeAwaited s { vm with
        asyncInvocation := some record, terminalTransitions := 0, suspended := false }
          record).asyncInvocation.any (·.started) = record.started := observeAwaited_started rfl
    dsimp only
    rw [tryBlock]
    simp only [Option.mem_def, Option.some.injEq, forall_eq']
    generalize observeAwaited s _ record = ready at hobserved hstarted ⊢
    cases hstart : record.started with
    | true =>
      have henter : ready.enter s = (ready, .runs) := if_pos (hstarted.trans hstart)
      rw [henter, if_pos rfl]
      exact execute_total hobserved
    | false =>
      rw [if_neg (by decide)]
      exact enter_total hobserved (hstarted.trans hstart)

end
end Vm
end

/-- A body that returns 7 while another thread cancels the task. -/
def cancelledMeanwhile : Surroundings Unit Nat Unit where
  others p := if p = .succeed then [.cancel] else []
  body _ := .completed 7
  continuation _ := none
  entryAddress := 0
  makeCancellationException := ()
  isCancellationException _ := true

/-- The result is refused after the record is gone, and the handler reads the record. -/
theorem refused_result_uses_cleared_record :
    (Vm.resumeAsyncInvocation cancelledMeanwhile { asyncInvocation := some {} }).2 = some .clearedRecordUsed ∧
      ¬ Vm.Total (Vm.resumeAsyncInvocation cancelledMeanwhile { asyncInvocation := some {} }) :=
  ⟨rfl, fun htotal => htotal.record_used rfl⟩

end zl.vm.task
