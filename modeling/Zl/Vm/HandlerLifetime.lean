import Zl.Vm.Interpreter

open zl.collections zl.transition

namespace zl.vm

/-- Every installed handler records a call depth no larger than the current one. -/
def NoHandlerOutlivesFrame {V : Type} (m : Machine V) : Prop :=
  ∀ h ∈ m.state.handlers, h.callStackSize ≤ m.state.callDepth

/-- The handlers were installed at depths that never decrease towards the top, none of them deeper
    than the current call depth. -/
structure HandlersWithin {V : Type} (state : ExecutionState V) : Prop where
  levelled : Levelled Handler.callStackSize state.handlers
  atMost : LevelsAtMost Handler.callStackSize state.callDepth state.handlers

namespace HandlersWithin

section
variable {V : Type} {state state' : ExecutionState V}

theorem pushHandler (hwithin : HandlersWithin state) (catchIp : Nat) (catchClassName : String)
    (rethrow : Bool) (groupId : Nat) :
    HandlersWithin (state.pushHandler catchIp catchClassName rethrow groupId) := by
  constructor
  · exact hwithin.levelled.push hwithin.atMost
  · intro h hh
    rcases List.mem_cons.mp hh with rfl | hh
    · exact Nat.le_refl state.callDepth
    · exact hwithin.atMost h hh

theorem of_sublist (hwithin : HandlersWithin state)
    (hhandlers : state'.handlers.Sublist state.handlers) (hdepth : state.callDepth ≤ state'.callDepth) :
    HandlersWithin state' :=
  ⟨hwithin.levelled.sublist hhandlers, (hwithin.atMost.sublist hhandlers).mono hdepth⟩

/-- Discarding the handlers deeper than `depth` makes `depth` a bound of the rest. -/
theorem of_discard (hwithin : HandlersWithin state) (depth : Nat)
    (hhandlers : state'.handlers = (state.discardHandlersDeeperThan depth).handlers)
    (hdepth : depth ≤ state'.callDepth) : HandlersWithin state' := by
  constructor
  · rw [hhandlers]
    exact hwithin.levelled.sublist (List.dropWhile_sublist _)
  · rw [hhandlers]
    exact (hwithin.levelled.dropWhile_levelsAtMost depth).mono hdepth

theorem enterFrame (hwithin : HandlersWithin state) {frame : CallFrame}
    (henter : state.enterFrame frame = some state') : HandlersWithin state' := by
  rw [ExecutionState.enterFrame_eq_some henter]
  refine hwithin.of_sublist (List.Sublist.refl _) ?_
  exact Nat.le_succ state.callDepth

theorem returnToCaller (hwithin : HandlersWithin state) {finished : CallFrame}
    (hleave : state.leaveFrame = some (finished, state')) :
    HandlersWithin state'.discardHandlersForFinishedFrames := by
  obtain ⟨hhandlers, -⟩ := ExecutionState.leaveFrame_eq_some hleave
  refine hwithin.of_discard state'.callDepth ?_ (Nat.le_refl state'.callDepth)
  change List.dropWhile _ state'.handlers = _
  rw [hhandlers]
  rfl

theorem restoreToDepth [Inhabited V] (hwithin : HandlersWithin state) (valueStackSize : Nat)
    {callStackSize : Nat} (hdepth : callStackSize ≤ state.callDepth) :
    HandlersWithin (state.restoreToDepth valueStackSize callStackSize) := by
  refine hwithin.of_discard callStackSize (ExecutionState.restoreToDepth_handlers ..) ?_
  exact Nat.le_of_eq (ExecutionState.restoreToDepth_callDepth valueStackSize hdepth).symm

/-- A dispatch unwinds to the depth of the handler it finds, and the handlers below that one lie
    no deeper. Without a handler it only pops. -/
theorem dispatch [Inhabited V] (hwithin : HandlersWithin state) (chunk : Chunk V) (thrown : Thrown V)
    (initialCallDepth : Nat) :
    HandlersWithin (dispatchThrownException chunk thrown initialCallDepth state).1 := by
  have hsuffix := searchHandler_suffix chunk thrown initialCallDepth state.handlers
  cases hsearch : searchHandler chunk thrown initialCallDepth state.handlers with
  | mk found rest =>
    rw [hsearch] at hsuffix
    cases found with
    | none =>
      rw [dispatchThrownException_none hsearch]
      exact hwithin.of_sublist hsuffix.sublist (Nat.le_refl state.callDepth)
    | some h =>
      obtain ⟨popped, hsplit, -⟩ := searchHandler_eq_some hsearch
      obtain ⟨-, hdepth, hhandlers⟩ := dispatchThrownException_found hsearch
      have hrest : Levelled Handler.callStackSize (h :: rest) :=
        hwithin.levelled.sublist (by rw [hsplit]; exact List.sublist_append_right popped _)
      constructor
      · rw [hhandlers]
        exact hrest.of_cons.1.sublist List.filter_sublist
      · rw [hhandlers, hdepth]
        exact hrest.of_cons.2.sublist List.filter_sublist

end

end HandlersWithin

/-- The nested runs fit the call stack: a run started by `invokeFunction` began one frame above
    the depth its caller recorded, and is still at least there. -/
def RunsWithin {V : Type} (depth : Nat) : List (Activation V) → Prop
  | [] => True
  | run :: outer =>
    match run.caller with
    | none => outer = []
    | some (_, callerFrames) =>
      run.stopAtReturn = true ∧ run.initialCallDepth = callerFrames + 1 ∧
        run.initialCallDepth ≤ depth ∧ RunsWithin callerFrames outer

section
variable {V : Type}

theorem RunsWithin.mono {depth depth' : Nat} (hle : depth ≤ depth') {runs : List (Activation V)}
    (hruns : RunsWithin depth runs) : RunsWithin depth' runs := by
  cases runs with
  | nil => trivial
  | cons run outer =>
    unfold RunsWithin at hruns ⊢
    split at hruns
    · exact hruns
    · exact ⟨hruns.1, hruns.2.1, Nat.le_trans hruns.2.2.1 hle, hruns.2.2.2⟩

theorem RunsWithin.outer {depth : Nat} {run : Activation V} {outer : List (Activation V)}
    (hruns : RunsWithin depth (run :: outer)) {depth' : Nat}
    (hdepth : ∀ stackSize callerFrames, run.caller = some (stackSize, callerFrames) →
      callerFrames ≤ depth') : RunsWithin depth' outer := by
  unfold RunsWithin at hruns
  split at hruns
  · rw [hruns]; trivial
  · next stackSize callerFrames hcaller =>
    exact hruns.2.2.2.mono (hdepth stackSize callerFrames hcaller)

theorem RunsWithin.depth {depth depth' : Nat} {run : Activation V} {outer : List (Activation V)}
    (hruns : RunsWithin depth (run :: outer))
    (hscope : run.caller.isSome = true → run.initialCallDepth ≤ depth') :
    RunsWithin depth' (run :: outer) := by
  unfold RunsWithin at hruns ⊢
  split at hruns
  · exact hruns
  · next hcaller => exact ⟨hruns.1, hruns.2.1, hscope (by simp [hcaller]), hruns.2.2.2⟩

theorem RunsWithin.callerFrames_lt {depth : Nat} {run : Activation V} {outer : List (Activation V)}
    (hruns : RunsWithin depth (run :: outer)) {stackSize callerFrames : Nat}
    (hcaller : run.caller = some (stackSize, callerFrames)) : callerFrames < depth := by
  unfold RunsWithin at hruns
  rw [hcaller] at hruns
  obtain ⟨-, hinitial, hle, -⟩ := hruns
  omega

theorem RunsWithin.stopAtReturn {depth : Nat} {run : Activation V} {outer : List (Activation V)}
    (hruns : RunsWithin depth (run :: outer)) (hcaller : run.caller.isSome = true) :
    run.stopAtReturn = true := by
  obtain ⟨caller, hcaller⟩ := Option.isSome_iff_exists.mp hcaller
  unfold RunsWithin at hruns
  rw [hcaller] at hruns
  exact hruns.1

/-- What every step keeps: handlers within the call depth and runs within the call stack. -/
structure StackInvariant (m : Machine V) : Prop where
  handlers : HandlersWithin m.state
  runs : RunsWithin m.state.callDepth m.runs

theorem StackInvariant.noHandlerOutlivesFrame {m : Machine V} (hinv : StackInvariant m) :
    NoHandlerOutlivesFrame m := hinv.handlers.atMost

theorem StackInvariant.of_fresh {m : Machine V} (hfresh : m.Fresh) : StackInvariant m := by
  obtain ⟨maxCallDepth, rfl⟩ := hfresh
  exact ⟨⟨List.Pairwise.nil, by intro h hh; cases hh⟩, trivial⟩

/-- The condition on a step: a `Return` that ends a nested run executes with no handler of the
    finished frame left on the stack. -/
def LeavesNoHandler (m : Machine V) (a : Action) : Prop :=
  a = .returnEndsRun → ∀ h ∈ m.state.handlers, h.callStackSize < m.state.callDepth

/-- A frame entered on top of any value stack keeps the handlers and the runs in place. -/
private theorem stackInvariant_enterFrame {state entered : ExecutionState V}
    {runs : List (Activation V)} {raising : Option (Thrown V)} (raising' : Option (Thrown V))
    (hinv : StackInvariant ⟨state, runs, raising⟩) {stack : List V} {frame : CallFrame}
    (henter : ExecutionState.enterFrame { state with stack := stack } frame = some entered) :
    StackInvariant ⟨entered, runs, raising'⟩ ∧ entered.callDepth = state.callDepth + 1 := by
  have hdepth : entered.callDepth = state.callDepth + 1 := by
    rw [ExecutionState.enterFrame_eq_some henter]
    rfl
  have hwithin : HandlersWithin { state with stack := stack } := ⟨hinv.handlers.1, hinv.handlers.2⟩
  refine ⟨⟨hwithin.enterFrame henter, ?_⟩, hdepth⟩
  have hle : state.callDepth ≤ entered.callDepth := by omega
  exact RunsWithin.mono hle hinv.runs

/-- The exceptional end of a run: `invokeFunction` lands on the depth its caller had, which is
    within the scope of every outer run. -/
private theorem stackInvariant_afterUncaught [Inhabited V] {state : ExecutionState V} {run : Activation V}
    {outer : List (Activation V)} {raising : Option (Thrown V)}
    (hwithin : HandlersWithin state) (hruns : RunsWithin state.callDepth (run :: outer)) :
    StackInvariant ⟨afterUncaught run state, outer, raising⟩ := by
  unfold afterUncaught
  split
  · next stackSize callerFrames hcaller =>
    have hlt := hruns.callerFrames_lt hcaller
    refine ⟨hwithin.restoreToDepth stackSize (Nat.le_of_lt hlt), ?_⟩
    refine hruns.outer fun stackSize' callerFrames' hcaller' => ?_
    rw [hcaller] at hcaller'
    cases hcaller'
    exact Nat.le_of_eq (ExecutionState.restoreToDepth_callDepth stackSize
      (Nat.le_of_lt hlt)).symm
  · next hcaller =>
    refine ⟨hwithin, hruns.outer fun stackSize callerFrames hcaller' => ?_⟩
    rw [hcaller] at hcaller'
    cases hcaller'

private theorem runsWithin_dispatch [Inhabited V] {chunk : Chunk V} {state : ExecutionState V}
    {run : Activation V} {outer : List (Activation V)} {thrown : Thrown V}
    (hruns : RunsWithin state.callDepth (run :: outer)) :
    RunsWithin (dispatchThrownException chunk thrown run.initialCallDepth state).1.callDepth
      (run :: outer) := by
  cases hsearch : searchHandler chunk thrown run.initialCallDepth state.handlers with
  | mk found rest =>
    cases found with
    | none =>
      rw [dispatchThrownException_none hsearch]
      exact hruns
    | some h =>
      obtain ⟨popped, -, -, -, hscope⟩ := searchHandler_eq_some hsearch
      rw [(dispatchThrownException_found hsearch).2.1]
      exact hruns.depth fun _ => hscope

/-- Every step keeps the invariant, except a `Return` that ends a nested run with a handler of its
    frame still installed. -/
theorem StackInvariant.step [Inhabited V] {m m' : Machine V} {a : Action} (hinv : StackInvariant m)
    (hok : LeavesNoHandler m a) (hstep : Step m a m') : StackInvariant m' := by
  cases hstep with
  | start state program => exact ⟨hinv.handlers, rfl⟩
  | startAsync state chunk frame entry henter pending =>
    obtain ⟨hentered, -⟩ := stackInvariant_enterFrame pending hinv henter
    exact ⟨hentered.handlers, rfl⟩
  | resumeAsync state chunk ip stack pending =>
    exact ⟨⟨hinv.handlers.levelled, hinv.handlers.atMost⟩, rfl⟩
  | data state run outer instr hinstr hop stack ip =>
    exact ⟨⟨hinv.handlers.levelled, hinv.handlers.atMost⟩, hinv.runs⟩
  | call state run outer instr hinstr hop stack frame hreturn entry henter =>
    obtain ⟨hentered, -⟩ := stackInvariant_enterFrame none hinv henter
    exact ⟨hentered.handlers, hentered.runs⟩
  | pushHandler state run outer instr hinstr hop catchClassName hname =>
    exact ⟨hinv.handlers.pushHandler .., hinv.runs⟩
  | pushFinallyHandler state run outer instr hinstr hop =>
    exact ⟨hinv.handlers.pushHandler .., hinv.runs⟩
  | popHandler state run outer instr hinstr hop =>
    exact ⟨hinv.handlers.of_sublist (List.tail_sublist _) (Nat.le_refl _), hinv.runs⟩
  | @returnToCaller state run outer instr hinstr hop result stack hstack finished left hleave hgo =>
    have hwithin := hinv.handlers.returnToCaller hleave
    refine ⟨⟨hwithin.levelled, hwithin.atMost⟩, ?_⟩
    refine RunsWithin.depth hinv.runs fun hcaller => ?_
    have hstop := RunsWithin.stopAtReturn hinv.runs hcaller
    exact Nat.le_of_not_lt fun hlt => hgo ⟨hstop, hlt⟩
  | @returnEndsRun state run outer instr hinstr hop result stack hstack finished left hleave hend =>
    obtain ⟨hhandlers, hdepth⟩ := ExecutionState.leaveFrame_eq_some hleave
    have hbelow := hok rfl
    refine ⟨⟨?_, ?_⟩, ?_⟩
    · change Levelled _ left.handlers
      rw [hhandlers]
      exact hinv.handlers.levelled
    · intro h hh
      have hlt := hbelow h (by rw [← hhandlers]; exact hh)
      change h.callStackSize ≤ left.callDepth
      change h.callStackSize < state.callDepth at hlt
      omega
    · refine RunsWithin.outer hinv.runs fun stackSize callerFrames hcaller => ?_
      have hlt := RunsWithin.callerFrames_lt hinv.runs hcaller
      change callerFrames ≤ left.callDepth
      change callerFrames < state.callDepth at hlt
      omega
  | halt state run outer instr hinstr hop =>
    refine ⟨hinv.handlers, RunsWithin.outer hinv.runs fun stackSize callerFrames hcaller => ?_⟩
    exact Nat.le_of_lt (RunsWithin.callerFrames_lt hinv.runs hcaller)
  | suspend state run instr hinstr hop hcaller stack =>
    exact ⟨⟨hinv.handlers.levelled, hinv.handlers.atMost⟩, trivial⟩
  | suspendNested state run outer instr hinstr hop hcaller stack thrown =>
    exact stackInvariant_afterUncaught ⟨hinv.handlers.levelled, hinv.handlers.atMost⟩ hinv.runs
  | @invoke state runs hop stack chunk frame entry entered henter =>
    obtain ⟨hentered, hdepth⟩ := stackInvariant_enterFrame none hinv henter
    exact ⟨hentered.handlers, rfl, hdepth, Nat.le_refl _, hinv.runs⟩
  | @invokeRefused state runs hop stack frame entered henter thrown =>
    obtain ⟨hentered, hdepth⟩ := stackInvariant_enterFrame none hinv henter
    have hle : state.callDepth ≤ entered.callDepth := by omega
    refine ⟨hentered.handlers.restoreToDepth stack.length hle, ?_⟩
    exact RunsWithin.mono
      (Nat.le_of_eq (ExecutionState.restoreToDepth_callDepth stack.length hle).symm) hinv.runs
  | raise state run outer stack thrown =>
    exact ⟨⟨hinv.handlers.levelled, hinv.handlers.atMost⟩, hinv.runs⟩
  | caught state run outer thrown hdispatch =>
    exact ⟨hinv.handlers.dispatch .., runsWithin_dispatch hinv.runs⟩
  | uncaught state run outer thrown hdispatch =>
    exact stackInvariant_afterUncaught (hinv.handlers.dispatch ..)
      (runsWithin_dispatch hinv.runs)

/-- A handler left on the stack by such a `Return` lies deeper than the depth after it. -/
theorem StackInvariant.step_breaks [Inhabited V] {m m' : Machine V} {a : Action} (hok : ¬ LeavesNoHandler m a)
    (hstep : Step m a m') : ¬ NoHandlerOutlivesFrame m' := by
  obtain ⟨rfl, hleft⟩ := Classical.not_imp.mp hok
  obtain ⟨h, hleft⟩ := not_forall.mp hleft
  obtain ⟨hh, hdeep⟩ := Classical.not_imp.mp hleft
  cases hstep with
  | @returnEndsRun state run outer instr hinstr hop result stack hstack finished left hleave hend =>
    obtain ⟨hhandlers, hdepth⟩ := ExecutionState.leaveFrame_eq_some hleave
    intro hgood
    have hle := hgood h (by change h ∈ left.handlers; rw [hhandlers]; exact hh)
    change h.callStackSize ≤ left.callDepth at hle
    have hdeep : state.callDepth ≤ h.callStackSize := Nat.le_of_not_lt hdeep
    omega

/-- In a run, every entry of the handler stack records at most the current call depth in all
    states reached exactly when every `Return` that ended a nested run executed with no handler of
    the finished frame on the stack. -/
theorem noHandlerOutlivesFrame_iff [Inhabited V] {m : Machine V} {past : List (Machine V × Action)}
    (hrun : MachineRun m past) :
    (NoHandlerOutlivesFrame m ∧ ∀ p ∈ past, NoHandlerOutlivesFrame p.1) ↔
      ∀ p ∈ past, LeavesNoHandler p.1 p.2 :=
  hrun.good_iff StackInvariant NoHandlerOutlivesFrame LeavesNoHandler
    (fun _ hfresh => StackInvariant.of_fresh hfresh)
    (fun _ hinv => hinv.noHandlerOutlivesFrame) (fun _ _ _ hinv hok hstep => hinv.step hok hstep)
    fun _ _ _ _ hok hstep => StackInvariant.step_breaks hok hstep

end

/-- A program whose native call runs the function at address 2, which returns from inside its try:
    no `PopHandler` comes before that `Return`. -/
def returnInsideTry : Chunk Int where
  code := [⟨.CallNative, 0, 0, 0⟩, ⟨.Halt, 0, 0, 0⟩, ⟨.PushHandler, 5, 0, 1⟩, ⟨.PushConst, 0, 0, 0⟩,
    ⟨.Return, 0, 0, 0⟩, ⟨.PushConst, 0, 0, 0⟩, ⟨.Return, 0, 0, 0⟩]
  constants := [7]

/-- The handler that function installs one frame above the program. -/
def returnInsideTryHandler : Handler := ⟨5, 0, 1, "", false, 1⟩

/-- The program's own run, waiting in its native call. -/
def returnInsideTryRun : Activation Int := ⟨returnInsideTry, 0, false, 0, none⟩

/-- The nested run of the function at address `ip`. -/
def returnInsideTryNested (ip : Nat) : Activation Int := ⟨returnInsideTry, 1, true, ip, some (0, 0)⟩

/-- The steps of the program up to the return of its native call, newest first. -/
def returnInsideTryPast : List (Machine Int × Action) :=
  let frame : CallFrame := ⟨7, "f"⟩
  [(⟨⟨[7], [frame], 100000, [returnInsideTryHandler]⟩,
      [returnInsideTryNested 4, returnInsideTryRun], none⟩, .returnEndsRun),
    (⟨⟨[], [frame], 100000, [returnInsideTryHandler]⟩,
      [returnInsideTryNested 3, returnInsideTryRun], none⟩, .data),
    (⟨⟨[], [frame], 100000, []⟩, [returnInsideTryNested 2, returnInsideTryRun], none⟩, .pushHandler),
    (⟨{}, [returnInsideTryRun], none⟩, .invoke),
    (⟨{}, [], none⟩, .start)]

/-- The machine after the native call: the handler is still there, at depth zero. -/
def returnInsideTryAfter : Machine Int :=
  ⟨⟨[], [], 100000, [returnInsideTryHandler]⟩, [returnInsideTryRun], none⟩

private theorem returnInsideTry_run : MachineRun returnInsideTryAfter returnInsideTryPast := by
  have hnative : ∀ run ∈ [returnInsideTryRun].head?, ∃ instr, run.instruction = some instr ∧
      instr.op.mayKeepFrames = true := by
    intro run hrun
    cases hrun
    exact ⟨_, rfl, rfl⟩
  refine .step (.step (.step (.step (.step (.start ⟨100000, rfl⟩) (.start _ returnInsideTry))
    (.invoke _ _ hnative [] returnInsideTry ⟨7, "f"⟩ 2 rfl))
    (.pushHandler _ (returnInsideTryNested 2) _ ⟨.PushHandler, 5, 0, 1⟩ rfl rfl "" rfl))
    (.data _ (returnInsideTryNested 3) _ ⟨.PushConst, 0, 0, 0⟩ rfl rfl [7] 4)) ?_
  exact .returnEndsRun _ (returnInsideTryNested 4) _ ⟨.Return, 0, 0, 0⟩ rfl rfl rfl
    ⟨7, "f"⟩ ⟨[7], [], 100000, [returnInsideTryHandler]⟩ rfl ⟨rfl, Nat.zero_lt_one⟩

/-- A nested run that returns normally from inside a try leaves its handler behind. -/
theorem handler_outlives_nested_run :
    ¬ ∀ (m : Machine Int) (past : List (Machine Int × Action)),
      MachineRun m past → NoHandlerOutlivesFrame m := by
  intro hall
  have hle := hall _ _ returnInsideTry_run returnInsideTryHandler List.mem_cons_self
  exact absurd hle (by decide)

theorem noHandlerOutlivesFrame_iff_returnInsideTry :
    (NoHandlerOutlivesFrame returnInsideTryAfter ∧
        ∀ p ∈ returnInsideTryPast, NoHandlerOutlivesFrame p.1) ↔
      ∀ p ∈ returnInsideTryPast, LeavesNoHandler p.1 p.2 :=
  noHandlerOutlivesFrame_iff returnInsideTry_run

end zl.vm
