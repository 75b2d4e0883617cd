import Zl.Transition.Run

open zl.transition

namespace zl.vm.statics

inductive Status where
  | Uninitialized | Initializing | Initialized | Failed
  deriving DecidableEq, Repr

structure StaticFieldState (Thread V E : Type) [Inhabited V] where
  status : Status := .Uninitialized
  value : V := default
  failure : Option E := none
  ownerThread : Option Thread := none

/-- Where an access to the field stands on the stack of a thread: about to take the lock,
    waiting for another thread's initializer, or running the initializer. -/
inductive Frame (V : Type) where
  | looking
  | waiting
  | initializing
  | storing (value : V)
  | waitingToStore (value : V)
  deriving DecidableEq

/-- What the accesses did: `entered`, `completed` and `raised` are the initializer's. -/
inductive Event (Thread V E : Type) where
  | entered (t : Thread)
  | completed (t : Thread) (value : V)
  | raised (t : Thread) (failure : E)
  | wrote (t : Thread) (value : V)
  | read (t : Thread) (value : V)

/-- One static field with the threads that access it. The history, newest first, is read by
    none of them. -/
structure World (Thread V E : Type) [Inhabited V] where
  field : StaticFieldState Thread V E := {}
  stack : Thread → List (Frame V) := fun _ => []
  history : List (Event Thread V E) := []

namespace World
variable {Thread V E : Type} [Inhabited V] [DecidableEq Thread] (w : World Thread V E)

def setStack (t : Thread) (frames : List (Frame V)) : World Thread V E :=
  { w with stack := Function.update w.stack t frames }

def record (event : Event Thread V E) : World Thread V E := { w with history := event :: w.history }

/-- The thread runs code of the program, which may access the field: no access of its own is
    in progress, or the innermost one runs the initializer. -/
def runsCode (t : Thread) : Bool :=
  match w.stack t with
  | [] | .initializing :: _ => true
  | _ => false

/-- The round of the loop of `GetStaticField` that holds the lock. -/
def look (t : Thread) (rest : List (Frame V)) : World Thread V E :=
  match w.field.status with
  | .Initialized => (w.setStack t rest).record (.read t w.field.value)
  | .Failed => w.setStack t rest
  | .Initializing =>
    -- the thread that initializes gets an exception, others wait
    if w.field.ownerThread = some t then w.setStack t rest else w.setStack t (.waiting :: rest)
  | .Uninitialized =>
    { (w.setStack t (.initializing :: rest)).record (.entered t) with
      field := { w.field with status := .Initializing, ownerThread := some t } }

/-- The end of the section of `SetStaticField`. A value that is not of the field's type
    raises before anything is written. -/
def store (t : Thread) (value : V) (accepted : Bool) (rest : List (Frame V)) : World Thread V E :=
  if accepted then
    { (w.setStack t rest).record (.wrote t value) with
      field := { status := .Initialized, value := value, failure := none, ownerThread := none } }
  else w.setStack t rest

/-- The section that publishes what the initializer returned, which the access returns. -/
def complete (t : Thread) (value : V) (rest : List (Frame V)) : World Thread V E :=
  { ((w.setStack t rest).record (.completed t value)).record (.read t value) with
    field := { w.field with status := .Initialized, value := value, ownerThread := none } }

/-- The section that publishes the exception of the initializer. -/
def raise (t : Thread) (failure : E) (rest : List (Frame V)) : World Thread V E :=
  { (w.setStack t rest).record (.raised t failure) with
    field := { w.field with status := .Failed, failure := some failure, ownerThread := none } }

end World

/-- A thread comes to an instruction, takes the lock, wakes up from its wait, or its
    initializer ends. `accepted` is the verdict of the type check on the written value. -/
inductive Action (Thread V E : Type) where
  | get (t : Thread)
  | look (t : Thread)
  | wake (t : Thread)
  | set (t : Thread) (value : V)
  | write (t : Thread) (accepted : Bool)
  | wakeToWrite (t : Thread) (accepted : Bool)
  | complete (t : Thread) (value : V)
  | raise (t : Thread) (failure : E)

section
variable {Thread V E : Type} [Inhabited V] [DecidableEq Thread]

def next (w : World Thread V E) : Action Thread V E → Option (World Thread V E)
  | .get t => if w.runsCode t then some (w.setStack t (.looking :: w.stack t)) else none
  | .set t value => if w.runsCode t then some (w.setStack t (.storing value :: w.stack t)) else none
  | .look t =>
    match w.stack t with
    | .looking :: rest => some (w.look t rest)
    | _ => none
  | .wake t =>
    match w.stack t with
    | .waiting :: rest =>
      if w.field.status = .Initializing then none else some (w.setStack t (.looking :: rest))
    | _ => none
  | .write t accepted =>
    match w.stack t with
    | .storing value :: rest =>
      if w.field.status = .Initializing ∧ w.field.ownerThread ≠ some t then
        some (w.setStack t (.waitingToStore value :: rest))
      else some (w.store t value accepted rest)
    | _ => none
  | .wakeToWrite t accepted =>
    match w.stack t with
    | .waitingToStore value :: rest =>
      if w.field.status = .Initializing then none else some (w.store t value accepted rest)
    | _ => none
  | .complete t value =>
    match w.stack t with
    | .initializing :: rest => some (w.complete t value rest)
    | _ => none
  | .raise t failure =>
    match w.stack t with
    | .initializing :: rest => some (w.raise t failure rest)
    | _ => none

/-- One section by one thread, in any order. -/
def Step (w : World Thread V E) (a : Action Thread V E) (w' : World Thread V E) : Prop :=
  next w a = some w'

/-- The field's state has just been created, and no thread accesses it. -/
def Initial (w : World Thread V E) : Prop := w = {}

end

section
variable {Thread V E : Type}

def Frame.isInitializer : Frame V → Bool
  | .initializing => true
  | _ => false

/-- How many runs of the initializer are on a stack. -/
def initializers (frames : List (Frame V)) : Nat := frames.countP Frame.isInitializer

/-- The value of the latest `SetStaticField` of a history. -/
def latestWrite : List (Event Thread V E) → Option V
  | [] => none
  | .wrote _ value :: _ => some value
  | .entered _ :: rest | .completed _ _ :: rest | .raised _ _ :: rest | .read _ _ :: rest =>
      latestWrite rest

/-- The value is the initializer's result, or was written by the latest `SetStaticField`. -/
def Supplied (before : List (Event Thread V E)) (value : V) : Prop :=
  (∃ t, .completed t value ∈ before) ∨ latestWrite before = some value

/-- What an event says of those before it: the initializer is entered once, its result
    replaces no written value, and a read returns a value that was supplied. -/
def Event.Allowed (event : Event Thread V E) (before : List (Event Thread V E)) : Prop :=
  match event with
  | .entered _ => ∀ t, .entered t ∉ before
  | .completed _ _ => ∀ t value, .wrote t value ∉ before
  | .read _ value => Supplied before value
  | .raised _ _ | .wrote _ _ => True

end

section
variable {Thread V E : Type} [Inhabited V] [DecidableEq Thread] {w w' : World Thread V E}
variable {a : Action Thread V E} {past : List (World Thread V E × Action Thread V E)}
  {frames : List (Frame V)} {t : Thread}

/-- What holds of a world and of what led to it: its history is in order, and the field was
    initialized from some state on. -/
structure OnceProtocol (w : World Thread V E) (past : List (World Thread V E × Action Thread V E)) :
    Prop where
  history : Justified Event.Allowed w.history
  initialized : (w :: past.map Prod.fst).Pairwise fun later earlier =>
    earlier.field.status = .Initialized → later.field.status = .Initialized

/-- The initializer returns or raises in a thread that has written the field itself. -/
def EndsAfterOwnWrite (w : World Thread V E) : Action Thread V E → Prop
  | .complete t _ | .raise t _ => ∃ value, .wrote t value ∈ w.history
  | _ => False

/-- What one section does: besides the stacks it changes the field and the history in one of these
    ways. -/
inductive Effect (w : World Thread V E) : Action Thread V E → World Thread V E → Prop
  | moves {a : Action Thread V E} {stack : Thread → List (Frame V)}
      (hstack : ∀ u, initializers (stack u) = initializers (w.stack u)) :
        Effect w a { w with stack := stack }
  | reads {a : Action Thread V E} (t : Thread) {stack : Thread → List (Frame V)}
      (hstatus : w.field.status = .Initialized)
      (hstack : ∀ u, initializers (stack u) = initializers (w.stack u)) :
      Effect w a { w with stack := stack, history := .read t w.field.value :: w.history }
  | enters {a : Action Thread V E} (t : Thread) {stack : Thread → List (Frame V)}
      (hstatus : w.field.status = .Uninitialized)
      (hstack : ∀ u, initializers (stack u) = initializers (w.stack u) + if u = t then 1 else 0) :
      Effect w a
        { w with
          field := { w.field with status := .Initializing, ownerThread := some t },
          stack := stack, history := .entered t :: w.history }
  | writes {a : Action Thread V E} (t : Thread) (value : V) {stack : Thread → List (Frame V)}
      (howner : w.field.status = .Initializing → w.field.ownerThread = some t)
      (hstack : ∀ u, initializers (stack u) = initializers (w.stack u)) :
      Effect w a
        { w with
          field := { status := .Initialized, value := value, failure := none, ownerThread := none },
          stack := stack, history := .wrote t value :: w.history }
  | completes (t : Thread) (value : V) {stack : Thread → List (Frame V)}
      (hstack : ∀ u, initializers (w.stack u) = initializers (stack u) + if u = t then 1 else 0) :
      Effect w (.complete t value)
        { w with
          field := { w.field with status := .Initialized, value := value, ownerThread := none },
          stack := stack, history := .read t value :: .completed t value :: w.history }
  | raises (t : Thread) (failure : E) {stack : Thread → List (Frame V)}
      (hstack : ∀ u, initializers (w.stack u) = initializers (stack u) + if u = t then 1 else 0) :
      Effect w (.raise t failure)
        { w with
          field := { w.field with status := .Failed, failure := some failure, ownerThread := none },
          stack := stack, history := .raised t failure :: w.history }

omit [Inhabited V] in
theorem initializers_update (stack : Thread → List (Frame V)) (t : Thread)
    (hframes : initializers frames = initializers (stack t)) (u : Thread) :
    initializers (Function.update stack t frames u) = initializers (stack u) := by
  by_cases hu : u = t
  · rw [hu, Function.update_self, hframes]
  · rw [Function.update_of_ne hu]

omit [Inhabited V] in
theorem initializers_update_succ (stack : Thread → List (Frame V)) (t : Thread)
    (hframes : initializers frames = initializers (stack t) + 1) (u : Thread) :
    initializers (Function.update stack t frames u) = initializers (stack u) + if u =
      t then 1 else 0 := by
  by_cases hu : u = t
  · rw [hu, Function.update_self, hframes, if_pos rfl]
  · rw [Function.update_of_ne hu, if_neg hu, Nat.add_zero]

omit [Inhabited V] in
theorem initializers_update_pred (stack : Thread → List (Frame V)) (t : Thread)
    (hframes : initializers (stack t) = initializers frames + 1) (u : Thread) :
    initializers (stack u) = initializers (Function.update stack t frames u) + if u =
      t then 1 else 0 := by
  by_cases hu : u = t
  · rw [hu, Function.update_self, hframes, if_pos rfl]
  · rw [Function.update_of_ne hu, if_neg hu, Nat.add_zero]

omit [Inhabited V] [DecidableEq Thread] in
theorem initializers_cons {frame : Frame V} (hframe : frame.isInitializer = false) (rest : List (Frame V)) :
    initializers (frame :: rest) = initializers rest :=
  List.countP_cons_of_neg (by rw [hframe]; exact Bool.false_ne_true)

omit [Inhabited V] [DecidableEq Thread] in
theorem initializers_initializing (rest : List (Frame V)) :
    initializers (.initializing :: rest) = initializers rest + 1 := List.countP_cons_of_pos rfl

theorem effect_look {rest : List (Frame V)} (hstack : w.stack t = .looking :: rest) :
    Effect w a (w.look t rest) := by
  have hrest : initializers rest = initializers (w.stack t) := by rw [hstack, initializers_cons rfl]
  unfold World.look
  cases hstatus : w.field.status with
  | Initialized => exact .reads t hstatus (initializers_update w.stack t hrest)
  | Failed => exact .moves (initializers_update w.stack t hrest)
  | Initializing =>
    dsimp only
    split
    · exact .moves (initializers_update w.stack t hrest)
    · refine .moves (initializers_update w.stack t ?_)
      rw [initializers_cons rfl, hrest]
  | Uninitialized =>
    refine .enters t hstatus (initializers_update_succ w.stack t ?_)
    rw [initializers_initializing, hrest]

theorem effect_store {frame : Frame V} {rest : List (Frame V)} (hstack : w.stack t = frame :: rest)
    (hframe : frame.isInitializer = false)
    (howner : w.field.status = .Initializing → w.field.ownerThread = some t) (value : V) (accepted : Bool) :
    Effect w a (w.store t value accepted rest) := by
  have hrest : initializers rest = initializers (w.stack t) := by rw [hstack, initializers_cons hframe]
  cases accepted with
  | false => exact .moves (initializers_update w.stack t hrest)
  | true => exact .writes t value howner (initializers_update w.stack t hrest)

theorem effect_of_step (hstep : Step w a w') : Effect w a w' := by
  have hmoves (t : Thread) {frame frame' : Frame V} {rest : List (Frame V)}
    (hstack : w.stack t = frame :: rest)
      (hframe : frame.isInitializer = false) (hframe' : frame'.isInitializer = false) :
      Effect w a (w.setStack t (frame' :: rest)) := by
    refine .moves (initializers_update w.stack t ?_)
    rw [hstack, initializers_cons hframe, initializers_cons hframe']
  cases a with
  | get t =>
    dsimp only [Step, next] at hstep
    split at hstep <;> cases hstep
    exact .moves (initializers_update w.stack t (initializers_cons rfl _))
  | set t value =>
    dsimp only [Step, next] at hstep
    split at hstep <;> cases hstep
    exact .moves (initializers_update w.stack t (initializers_cons rfl _))
  | look t =>
    dsimp only [Step, next] at hstep
    split at hstep <;> cases hstep
    next hstack => exact effect_look hstack
  | wake t =>
    dsimp only [Step, next] at hstep
    split at hstep
    · next hstack =>
      split at hstep <;> cases hstep
      exact hmoves t hstack rfl rfl
    · cases hstep
  | write t accepted =>
    dsimp only [Step, next] at hstep
    split at hstep
    · next value rest hstack =>
      split at hstep <;> cases hstep
      · exact hmoves t hstack rfl rfl
      · next hallowed =>
        refine effect_store hstack rfl (fun hstatus => ?_) value accepted
        by_contra howner
        exact hallowed ⟨hstatus, howner⟩
    · cases hstep
  | wakeToWrite t accepted =>
    dsimp only [Step, next] at hstep
    split at hstep
    · next value rest hstack =>
      split at hstep <;> cases hstep
      next hstatus => exact effect_store hstack rfl (fun h => absurd h hstatus) value accepted
    · cases hstep
  | complete t value =>
    dsimp only [Step, next] at hstep
    split at hstep <;> cases hstep
    next rest hstack =>
    refine .completes t value (initializers_update_pred w.stack t ?_)
    rw [hstack, initializers_initializing]
  | raise t failure =>
    dsimp only [Step, next] at hstep
    split at hstep <;> cases hstep
    next rest hstack =>
    refine .raises t failure (initializers_update_pred w.stack t ?_)
    rw [hstack, initializers_initializing]

omit [Inhabited V] [DecidableEq Thread] in
private theorem supplied_read {history : List (Event Thread V E)} {v : V}
    (h : Supplied history v) (t : Thread) (value : V) : Supplied (.read t value :: history) v := by
  refine h.imp (fun hcompleted => ?_) id
  obtain ⟨t', ht'⟩ := hcompleted
  exact ⟨t', List.mem_cons_of_mem _ ht'⟩

/-- What every section keeps, as long as no initializer ends after a write of its own
    thread: while it runs, either nothing else has happened, or its thread has written. -/
structure Orderly (w : World Thread V E) : Prop where
  history : Justified Event.Allowed w.history
  fresh : w.field.status = .Uninitialized → w.history = [] ∧ ∀ t, initializers (w.stack t) = 0
  initializing : w.field.status = .Initializing →
    ∃ t, w.field.ownerThread = some t ∧ w.history = [.entered t] ∧
      ∀ u, initializers (w.stack u) = if u = t then 1 else 0
  initialized : w.field.status = .Initialized →
    Supplied w.history w.field.value ∧ ∀ t, initializers (w.stack t) = 0 ∨ ∃ value,
    .wrote t value ∈ w.history
  failed : w.field.status = .Failed → ∀ t, initializers (w.stack t) = 0

theorem Orderly.initial : Orderly ({} : World Thread V E) where
  history := trivial
  fresh _ := ⟨rfl, fun _ => rfl⟩
  initializing := nofun
  initialized := nofun
  failed := nofun

theorem Orderly.ending (h : Orderly w) (hruns : initializers (w.stack t) ≠ 0)
    (hunwritten : ¬ ∃ value, .wrote t value ∈ w.history) :
    w.field.status = .Initializing ∧ w.history = [.entered t] ∧
      ∀ u, initializers (w.stack u) = if u = t then 1 else 0 := by
  cases hstatus : w.field.status with
  | Uninitialized => exact absurd ((h.fresh hstatus).2 t) hruns
  | Failed => exact absurd (h.failed hstatus t) hruns
  | Initialized => exact absurd (((h.initialized hstatus).2 t).resolve_left hruns) hunwritten
  | Initializing =>
    obtain ⟨t', -, hhistory, hcount⟩ := h.initializing hstatus
    obtain rfl : t = t' := by
      by_contra hne
      exact hruns ((hcount t).trans (if_neg hne))
    exact ⟨rfl, hhistory, hcount⟩

private theorem none_left {before after : Thread → Nat} (hcount : ∀ u, before u = if u = t then 1 else 0)
    (hstack : ∀ u, before u = after u + if u = t then 1 else 0) (u : Thread) : after u = 0 := by
  have := hstack u
  rw [hcount u] at this
  omega

theorem Orderly.step {a : Action Thread V E} (h : Orderly w) (hok : ¬ EndsAfterOwnWrite w a)
    (heffect : Effect w a w') :
    Orderly w' ∧ (w.field.status = .Initialized → w'.field.status = .Initialized) := by
  cases heffect with
  | moves hstack =>
    refine ⟨⟨h.history, fun hstatus => ?_, fun hstatus => ?_, fun hstatus => ?_, fun hstatus t => ?_⟩, id⟩
    · exact ⟨(h.fresh hstatus).1, fun t => (hstack t).trans ((h.fresh hstatus).2 t)⟩
    · obtain ⟨t, howner, hhistory, hcount⟩ := h.initializing hstatus
      exact ⟨t, howner, hhistory, fun u => (hstack u).trans (hcount u)⟩
    · obtain ⟨hsupplied, hruns⟩ := h.initialized hstatus
      exact ⟨hsupplied, fun t => (hruns t).imp_left (hstack t).trans⟩
    · exact (hstack t).trans (h.failed hstatus t)
  | reads t hstatus hstack =>
    obtain ⟨hsupplied, hruns⟩ := h.initialized hstatus
    refine ⟨⟨⟨hsupplied, h.history⟩, ?_, ?_, fun _ => ⟨supplied_read hsupplied t _, fun u => ?_⟩, ?_⟩, id⟩
    · exact fun hfresh => nomatch hstatus.symm.trans hfresh
    · exact fun hinit => nomatch hstatus.symm.trans hinit
    · refine (hruns u).imp (hstack u).trans fun hwrote => ?_
      obtain ⟨value, hvalue⟩ := hwrote
      exact ⟨value, List.mem_cons_of_mem _ hvalue⟩
    · exact fun hfailed => nomatch hstatus.symm.trans hfailed
  | enters t hstatus hstack =>
    obtain ⟨hhistory, hnone⟩ := h.fresh hstatus
    refine ⟨⟨⟨fun t' ht' => ?_, h.history⟩, nofun, fun _ => ⟨t, rfl, ?_, fun u => ?_⟩, nofun,
      nofun⟩, fun hinit => ?_⟩
    · rw [hhistory] at ht'
      cases ht'
    · rw [hhistory]
    · rw [hstack u, hnone u, Nat.zero_add]
    · exact nomatch hstatus.symm.trans hinit
  | writes t value howner hstack =>
    refine ⟨⟨⟨trivial, h.history⟩, nofun, nofun, fun _ => ⟨Or.inr rfl, fun u => ?_⟩, nofun⟩, fun _ => rfl⟩
    rw [hstack u]
    cases hstatus : w.field.status with
    | Uninitialized => exact Or.inl ((h.fresh hstatus).2 u)
    | Failed => exact Or.inl (h.failed hstatus u)
    | Initialized =>
      refine ((h.initialized hstatus).2 u).imp_right fun hwrote => ?_
      obtain ⟨value', hvalue'⟩ := hwrote
      exact ⟨value', List.mem_cons_of_mem _ hvalue'⟩
    | Initializing =>
      obtain ⟨t', howner', -, hcount⟩ := h.initializing hstatus
      obtain rfl : t' = t := Option.some.inj (howner'.symm.trans (howner hstatus))
      by_cases hu : u = t'
      · exact Or.inr ⟨value, hu ▸ List.mem_cons_self⟩
      · exact Or.inl (by rw [hcount u, if_neg hu])
  | completes t value hstack =>
    have hruns : initializers (w.stack t) ≠ 0 := by
      rw [hstack t, if_pos rfl]
      exact Nat.succ_ne_zero _
    obtain ⟨-, hhistory, hcount⟩ := h.ending hruns hok
    have hsupplied : Supplied (.completed t value :: w.history) value := Or.inl ⟨t, List.mem_cons_self⟩
    refine ⟨⟨⟨hsupplied, fun u v hv => ?_, h.history⟩, nofun, nofun,
      fun _ => ⟨supplied_read hsupplied t value, fun u => Or.inl (none_left hcount hstack u)⟩,
      nofun⟩, fun _ => rfl⟩
    rw [hhistory] at hv
    cases hv with
    | tail _ hv => cases hv
  | raises t failure hstack =>
    have hruns : initializers (w.stack t) ≠ 0 := by
      rw [hstack t, if_pos rfl]
      exact Nat.succ_ne_zero _
    obtain ⟨hstatus, -, hcount⟩ := h.ending hruns hok
    refine ⟨⟨⟨trivial, h.history⟩, nofun, nofun, nofun, fun _ => none_left hcount hstack⟩,
      fun hinit => ?_⟩
    exact nomatch hstatus.symm.trans hinit

theorem Orderly.initialized_of_written (h : Orderly w) {t u : Thread} {value : V}
    (hruns : initializers (w.stack t) ≠ 0) (hwritten : .wrote u value ∈ w.history) :
    w.field.status = .Initialized := by
  cases hstatus : w.field.status with
  | Uninitialized => exact absurd ((h.fresh hstatus).2 t) hruns
  | Failed => exact absurd (h.failed hstatus t) hruns
  | Initialized => rfl
  | Initializing =>
    obtain ⟨t', -, hhistory, -⟩ := h.initializing hstatus
    rw [hhistory] at hwritten
    cases hwritten with
    | tail _ hnil => cases hnil

/-- An initializer that ends after a write of its own thread replaces the written value, or
    makes an initialized field a failed one. -/
theorem Orderly.not_onceProtocol (h : Orderly w) (hstep : Step w a w') (hends : EndsAfterOwnWrite w a) :
    ¬ OnceProtocol w' ((w, a) :: past) := by
  intro honce
  cases a with
  | complete t value =>
    dsimp only [Step, next] at hstep
    split at hstep <;> cases hstep
    obtain ⟨value', hvalue'⟩ := hends
    exact honce.history.2.1 t value' hvalue'
  | raise t failure =>
    dsimp only [Step, next] at hstep
    split at hstep <;> cases hstep
    next rest hstack =>
    obtain ⟨value', hvalue'⟩ := hends
    have hruns : initializers (w.stack t) ≠ 0 := by
      rw [hstack, initializers_initializing]
      exact Nat.succ_ne_zero _
    have hstatus := h.initialized_of_written hruns hvalue'
    have hkept := (List.pairwise_cons.mp honce.initialized).1 w List.mem_cons_self hstatus
    cases hkept
  | get t => exact hends
  | look t => exact hends
  | wake t => exact hends
  | set t value => exact hends
  | write t accepted => exact hends
  | wakeToWrite t accepted => exact hends

omit [DecidableEq Thread] in
theorem OnceProtocol.before (h : OnceProtocol w' ((w, a) :: past))
    (hsuffix : w.history <:+ w'.history) : OnceProtocol w past :=
  ⟨h.history.of_suffix hsuffix, (List.pairwise_cons.mp h.initialized).2⟩

theorem Effect.history_suffix (heffect : Effect w a w') :
    w.history <:+ w'.history := by
  cases heffect with
  | moves _ => exact List.suffix_refl _
  | reads _ _ _ => exact List.suffix_cons _ _
  | enters _ _ _ => exact List.suffix_cons _ _
  | writes _ _ _ _ => exact List.suffix_cons _ _
  | completes _ _ _ => exact (List.suffix_cons _ _).trans (List.suffix_cons _ _)
  | raises _ _ _ => exact List.suffix_cons _ _

theorem orderly_of_run (hrun : Run Initial Step w past)
    (hok : ∀ p ∈ past, ¬ EndsAfterOwnWrite p.1 p.2) : Orderly w :=
  hrun.invariant Orderly (fun w a => ¬ EndsAfterOwnWrite w a)
    (fun w hw => by rw [show w = {} from hw]; exact .initial)
    (fun _ _ _ h hok hstep => (h.step hok (effect_of_step hstep)).1) hok

/-- In whatever order the sections are taken, the field is initialized once and its written
    values are kept exactly if no initializer ends after a write of its own thread. -/
theorem onceProtocol_iff {past : List (World Thread V E × Action Thread V E)}
    (hrun : Run Initial Step w past) :
    OnceProtocol w past ↔ ∀ p ∈ past, ¬ EndsAfterOwnWrite p.1 p.2 := by
  constructor
  · intro honce
    induction hrun with
    | start _ => exact nofun
    | @step w w' a past hrun hstep ih =>
      have hpast := ih (honce.before (effect_of_step hstep).history_suffix)
      intro p hp
      cases List.mem_cons.mp hp with
      | inl heq =>
        rw [heq]
        exact fun hends => (orderly_of_run hrun hpast).not_onceProtocol hstep hends honce
      | inr hold => exact hpast p hold
  · intro hok
    refine ⟨(orderly_of_run hrun hok).history, ?_⟩
    refine hrun.stable Orderly (fun w a => ¬ EndsAfterOwnWrite w a) _ (fun w hw => ?_)
      (fun w a w' h hok hstep => ?_) hok
    · rw [show w = {} from hw]
      exact .initial
    · exact h.step hok (effect_of_step hstep)

end

section

private theorem run_next {w w' : World Bool Nat Unit}
    {past : List (World Bool Nat Unit × Action Bool Nat Unit)}
    (hrun : Run Initial Step w past) (a : Action Bool Nat Unit) (hnext : next w a = some w') :
    Run Initial Step w' ((w, a) :: past) := hrun.step hnext

/-- One thread initializes the field to 7 while another waits to write 9, and reads it back. -/
theorem onceProtocol_iff_waitingWriter : ∃ (w : World Bool Nat Unit) (past : _),
    w.field.value = 9 ∧ OnceProtocol w past := by
  have h₀ : Run Initial Step ({} : World Bool Nat Unit) [] := .start rfl
  have h₁ := run_next h₀ (.get true) rfl
  have h₂ := run_next h₁ (.look true) rfl
  have h₃ := run_next h₂ (.set false 9) rfl
  have h₄ := run_next h₃ (.write false true) rfl
  have h₅ := run_next h₄ (.complete true 7) rfl
  have h₆ := run_next h₅ (.wakeToWrite false true) rfl
  have h₇ := run_next h₆ (.get true) rfl
  have h₈ := run_next h₇ (.look true) rfl
  refine ⟨_, _, rfl, (onceProtocol_iff h₈).mpr fun p hp hends => ?_⟩
  simp only [List.mem_cons, List.not_mem_nil, or_false] at hp
  rcases hp with rfl | rfl | rfl | rfl | rfl | rfl | rfl | rfl <;> try exact hends
  -- when the initializer returns, the other thread still waits
  obtain ⟨value, hvalue⟩ := hends
  cases hvalue with
  | tail _ hnil => cases hnil

/-- An initializer that writes 5 to its own field and then returns 7 replaces the 5. -/
theorem initializer_overwrites_ownWrite : ¬ ∀ (w : World Bool Nat Unit) (past : _),
    Run Initial Step w past → OnceProtocol w past := by
  intro honce
  have h₀ : Run Initial Step ({} : World Bool Nat Unit) [] := .start rfl
  have h₁ := run_next h₀ (.get true) rfl
  have h₂ := run_next h₁ (.look true) rfl
  have h₃ := run_next h₂ (.set true 5) rfl
  have h₄ := run_next h₃ (.write true true) rfl
  have h₅ := run_next h₄ (.complete true 7) rfl
  exact (honce _ _ h₅).history.2.1 true 5 List.mem_cons_self

end

end zl.vm.statics
