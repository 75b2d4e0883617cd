import Zl.Transition.Run
import Zl.Vm.Bytecode
import Zl.Vm.ExecutionState

open zl.collections zl.transition

namespace zl.vm

section
variable {V : Type} (chunk : Chunk V) (thrown : Thrown V) (initialCallDepth : Nat)

/-- A catch-all handler, an exact class match, or a handler for a base class. -/
def catches (h : Handler) : Bool :=
  h.catchClassName == "" || thrown.className == h.catchClassName ||
    ((chunk.classReflection.lookup thrown.className).isSome &&
      chunk.isSubclass thrown.className h.catchClassName)

/-- The popping loop of dispatch: discard handlers from the top, as long as they belong to this
    run, until one catches the object. Returns that handler, if there is one, and the handlers
    left on the stack. -/
def searchHandler : List Handler → Option Handler × List Handler
  | [] => (none, [])
  | h :: rest =>
    if h.callStackSize ≥ initialCallDepth then
      if catches chunk thrown h then (some h, rest) else searchHandler rest
    else (none, h :: rest)

/-- Search for a handler, unwind to it, drop its siblings and bind the thrown object. Without a
    handler of this run, only the popped handlers are gone and there is no address to continue
    at. -/
def dispatchThrownException [Inhabited V] (state : ExecutionState V) : ExecutionState V × Option Nat :=
  match searchHandler chunk thrown initialCallDepth state.handlers with
  | (none, rest) => ({ state with handlers := rest }, none)
  | (some h, rest) =>
    let state := { state with handlers := rest }
    let state := (state.unwindTo h).removeHandlerGroup h.groupId
    let caught :=
      if h.rethrowAfterHandler || h.catchClassName != "" then thrown.object else thrown.message
    ({ state with stack := caught :: state.stack }, some h.catchIp)

end

section
variable {V : Type} {chunk : Chunk V} {thrown : Thrown V} {initialCallDepth : Nat}

/-- The search splits the stack at the handler it finds: every handler above it belongs to this
    run and does not catch the object. -/
theorem searchHandler_eq_some {handlers rest : List Handler} {h : Handler}
    (hsearch : searchHandler chunk thrown initialCallDepth handlers = (some h, rest)) :
    ∃ popped, handlers = popped ++ h :: rest ∧
      (∀ g ∈ popped, catches chunk thrown g = false ∧ initialCallDepth ≤ g.callStackSize) ∧
      catches chunk thrown h = true ∧ initialCallDepth ≤ h.callStackSize := by
  induction handlers with
  | nil => cases hsearch
  | cons g handlers ih =>
    unfold searchHandler at hsearch
    split at hsearch
    · next hscope =>
      split at hsearch
      · next hcatch =>
        cases hsearch
        exact ⟨[], rfl, by simp, hcatch, hscope⟩
      · next hcatch =>
        obtain ⟨popped, hsplit, hpopped, hh⟩ := ih hsearch
        refine ⟨g :: popped, by rw [hsplit, List.cons_append], ?_, hh⟩
        intro p hp
        rcases List.mem_cons.mp hp with rfl | hp
        · exact ⟨by simpa using hcatch, hscope⟩
        · exact hpopped p hp
    · cases hsearch

/-- Conversely, the topmost handler that catches the object is the one found when it and
    everything above it belong to this run. -/
theorem searchHandler_append {popped rest : List Handler} {h : Handler}
    (hpopped : ∀ g ∈ popped, catches chunk thrown g = false ∧ initialCallDepth ≤ g.callStackSize)
    (hcatch : catches chunk thrown h = true) (hscope : initialCallDepth ≤ h.callStackSize) :
    searchHandler chunk thrown initialCallDepth (popped ++ h :: rest) = (some h, rest) := by
  induction popped with
  | nil => simp [searchHandler, hscope, hcatch]
  | cons g popped ih =>
    obtain ⟨hg, hgscope⟩ := hpopped g List.mem_cons_self
    simp only [List.cons_append, searchHandler, ge_iff_le, hgscope, if_true, hg,
      Bool.false_eq_true, if_false]
    exact ih fun p hp => hpopped p (List.mem_cons_of_mem _ hp)

theorem searchHandler_suffix (chunk : Chunk V) (thrown : Thrown V) (initialCallDepth : Nat)
    (handlers : List Handler) :
    (searchHandler chunk thrown initialCallDepth handlers).2 <:+ handlers := by
  induction handlers with
  | nil => exact List.suffix_rfl
  | cons g handlers ih =>
    unfold searchHandler
    split
    · split
      · exact List.suffix_cons g handlers
      · exact ih.trans (List.suffix_cons g handlers)
    · exact List.suffix_rfl

/-- What a dispatch that finds a handler does to the handler stack and the call depth. -/
theorem dispatchThrownException_found [Inhabited V] {state : ExecutionState V} {h : Handler}
    {rest : List Handler}
    (hsearch : searchHandler chunk thrown initialCallDepth state.handlers = (some h, rest)) :
    (dispatchThrownException chunk thrown initialCallDepth state).2 = some h.catchIp ∧
      (dispatchThrownException chunk thrown initialCallDepth state).1.callDepth = h.callStackSize ∧
      (dispatchThrownException chunk thrown initialCallDepth state).1.handlers =
        rest.filter (fun g => decide (h.groupId = 0 ∨ g.groupId ≠ h.groupId)) := by
  unfold dispatchThrownException
  rw [hsearch]
  refine ⟨rfl, ?_, ?_⟩
  · change (ExecutionState.removeHandlerGroup _ h.groupId).callDepth = h.callStackSize
    rw [ExecutionState.removeHandlerGroup_callDepth, ExecutionState.unwindTo_callDepth]
  · change (ExecutionState.removeHandlerGroup _ h.groupId).handlers = _
    rw [ExecutionState.removeHandlerGroup_handlers, ExecutionState.unwindTo_handlers]

theorem dispatchThrownException_none [Inhabited V] {state : ExecutionState V} {rest : List Handler}
    (hsearch : searchHandler chunk thrown initialCallDepth state.handlers = (none, rest)) :
    dispatchThrownException chunk thrown initialCallDepth state =
      ({ state with handlers := rest }, none) := by
  unfold dispatchThrownException
  rw [hsearch]

end

/-- The opcodes that transfer control to a function. -/
def OpCode.isCall : OpCode → Bool
  | .Call | .CallValue | .InvokeMethod | .InvokeSuper => true
  | _ => false

/-- The opcodes that may finish without touching the call stack or the handler stack. A call of an
    async function is one: it only pushes a task. -/
def OpCode.mayKeepFrames : OpCode → Bool
  | .Return | .PushHandler | .PushFinallyHandler | .PopHandler | .Throw | .Halt => false
  | _ => true

/-- One active call of `execute`. `caller` holds the value stack size and the call depth that
    `invokeFunction` recorded, and is absent for the run of a program or of an async step. -/
structure Activation (V : Type) where
  chunk : Chunk V
  initialCallDepth : Nat
  stopAtReturn : Bool
  ip : Nat
  caller : Option (Nat × Nat)

/-- The instruction the run is about to execute. -/
def Activation.instruction {V : Type} (run : Activation V) : Option Instruction :=
  run.chunk.code[run.ip]?

/-- A virtual machine: its stacks, the nested `execute` calls with the innermost first, and the
    exception on its way to the innermost of them. -/
structure Machine (V : Type) where
  state : ExecutionState V := {}
  runs : List (Activation V) := []
  raising : Option (Thrown V) := none

/-- A machine nothing has run on. -/
def Machine.Fresh {V : Type} (m : Machine V) : Prop :=
  ∃ maxCallDepth, m = { state := { maxCallDepth := maxCallDepth } }

inductive Action where
  | start | startAsync | resumeAsync | data | call | pushHandler | pushFinallyHandler | popHandler
  | returnToCaller | returnEndsRun | halt | suspend | suspendNested | invoke | invokeRefused
  | raise | caught | uncaught
  deriving DecidableEq, Repr

/-- The stacks after a run ended with an exception: `invokeFunction` restores the depths it
    recorded before it rethrows, the other callers leave them alone. -/
def afterUncaught {V : Type} [Inhabited V] (run : Activation V) (state : ExecutionState V) :
    ExecutionState V :=
  match run.caller with
  | some (valueStackSize, callStackSize) => state.restoreToDepth valueStackSize callStackSize
  | none => state

/-- One step of the interpreter. The contents of the value stack and the targets of jumps are left
    open wherever the handler stack does not depend on them. -/
inductive Step {V : Type} [Inhabited V] : Machine V → Action → Machine V → Prop
  -- `VM::run`
  | start (state : ExecutionState V) (program : Chunk V) :
      Step ⟨state, [], none⟩ .start ⟨state, [⟨program, state.callDepth, false, 0, none⟩], none⟩
  -- `resumeAsyncInvocation`, the first time and after a suspension
  | startAsync (state : ExecutionState V) (chunk : Chunk V) (frame : CallFrame) (entry : Nat)
      {entered : ExecutionState V} (henter : state.enterFrame frame = some entered)
      (pending : Option (Thrown V)) :
      Step ⟨state, [], none⟩ .startAsync
        ⟨entered, [⟨chunk, entered.callDepth, true, entry, none⟩], pending⟩
  | resumeAsync (state : ExecutionState V) (chunk : Chunk V) (ip : Nat) (stack : List V)
      (pending : Option (Thrown V)) :
      Step ⟨state, [], none⟩ .resumeAsync
        ⟨{ state with stack := stack }, [⟨chunk, state.callDepth, true, ip, none⟩], pending⟩
  | data (state : ExecutionState V) (run : Activation V) (outer : List (Activation V))
      (instr : Instruction) (hinstr : run.instruction = some instr)
      (hop : instr.op.mayKeepFrames = true) (stack : List V) (ip : Nat) :
      Step ⟨state, run :: outer, none⟩ .data
        ⟨{ state with stack := stack }, { run with ip := ip } :: outer, none⟩
  | call (state : ExecutionState V) (run : Activation V) (outer : List (Activation V))
      (instr : Instruction) (hinstr : run.instruction = some instr) (hop : instr.op.isCall = true)
      (stack : List V) (frame : CallFrame) (hreturn : frame.returnIp = run.ip + 1) (entry : Nat)
      {entered : ExecutionState V}
      (henter : ExecutionState.enterFrame { state with stack := stack } frame = some entered) :
      Step ⟨state, run :: outer, none⟩ .call ⟨entered, { run with ip := entry } :: outer, none⟩
  | pushHandler (state : ExecutionState V) (run : Activation V) (outer : List (Activation V))
      (instr : Instruction) (hinstr : run.instruction = some instr) (hop : instr.op = .PushHandler)
      (catchClassName : String) (hname : run.chunk.catchClassName instr = some catchClassName) :
      Step ⟨state, run :: outer, none⟩ .pushHandler
        ⟨state.pushHandler instr.operand catchClassName false instr.operand3,
          { run with ip := run.ip + 1 } :: outer, none⟩
  | pushFinallyHandler (state : ExecutionState V) (run : Activation V) (outer : List (Activation V))
      (instr : Instruction) (hinstr : run.instruction = some instr)
      (hop : instr.op = .PushFinallyHandler) :
      Step ⟨state, run :: outer, none⟩ .pushFinallyHandler
        ⟨state.pushHandler instr.operand "" true, { run with ip := run.ip + 1 } :: outer, none⟩
  | popHandler (state : ExecutionState V) (run : Activation V) (outer : List (Activation V))
      (instr : Instruction) (hinstr : run.instruction = some instr) (hop : instr.op = .PopHandler) :
      Step ⟨state, run :: outer, none⟩ .popHandler
        ⟨state.popHandler, { run with ip := run.ip + 1 } :: outer, none⟩
  | returnToCaller (state : ExecutionState V) (run : Activation V) (outer : List (Activation V))
      (instr : Instruction) (hinstr : run.instruction = some instr) (hop : instr.op = .Return)
      {result : V} {stack : List V} (hstack : state.stack = result :: stack)
      (finished : CallFrame) (left : ExecutionState V)
      (hleave : state.leaveFrame = some (finished, left))
      (hgo : ¬ (run.stopAtReturn = true ∧ left.callDepth < run.initialCallDepth)) :
      Step ⟨state, run :: outer, none⟩ .returnToCaller
        ⟨{ left.discardHandlersForFinishedFrames with stack := result :: stack },
          { run with ip := finished.returnIp } :: outer, none⟩
  -- the early exit: the handlers of the finished frame are not discarded
  | returnEndsRun (state : ExecutionState V) (run : Activation V) (outer : List (Activation V))
      (instr : Instruction) (hinstr : run.instruction = some instr) (hop : instr.op = .Return)
      {result : V} {stack : List V} (hstack : state.stack = result :: stack)
      (finished : CallFrame) (left : ExecutionState V)
      (hleave : state.leaveFrame = some (finished, left))
      (hend : run.stopAtReturn = true ∧ left.callDepth < run.initialCallDepth) :
      Step ⟨state, run :: outer, none⟩ .returnEndsRun ⟨{ left with stack := stack }, outer, none⟩
  | halt (state : ExecutionState V) (run : Activation V) (outer : List (Activation V))
      (instr : Instruction) (hinstr : run.instruction = some instr) (hop : instr.op = .Halt) :
      Step ⟨state, run :: outer, none⟩ .halt ⟨state, outer, none⟩
  -- `await` of a pending task, in an async step and in a run nested in one
  | suspend (state : ExecutionState V) (run : Activation V) (instr : Instruction)
      (hinstr : run.instruction = some instr) (hop : instr.op = .Await) (hcaller : run.caller = none)
      (stack : List V) :
      Step ⟨state, [run], none⟩ .suspend ⟨{ state with stack := stack }, [], none⟩
  | suspendNested (state : ExecutionState V) (run : Activation V)
      (outer : List (Activation V)) (instr : Instruction) (hinstr : run.instruction = some instr)
      (hop : instr.op = .Await) (hcaller : run.caller.isSome = true) (stack : List V)
      (thrown : Thrown V) :
      Step ⟨state, run :: outer, none⟩ .suspendNested
        ⟨afterUncaught run { state with stack := stack }, outer,
          if outer.isEmpty then none else some thrown⟩
  -- `invokeFunction`, from the host or while an instruction is being executed
  | invoke (state : ExecutionState V) (runs : List (Activation V))
      (hop : ∀ run ∈ runs.head?, ∃ instr, run.instruction = some instr ∧
        instr.op.mayKeepFrames = true)
      (stack : List V) (chunk : Chunk V) (frame : CallFrame) (entry : Nat)
      {entered : ExecutionState V}
      (henter : ExecutionState.enterFrame { state with stack := stack } frame = some entered) :
      Step ⟨state, runs, none⟩ .invoke
        ⟨entered, ⟨chunk, entered.callDepth, true, entry, some (stack.length, state.callDepth)⟩ :: runs,
          none⟩
  -- the nested `execute` refuses to start: too many nested runs
  | invokeRefused (state : ExecutionState V) (runs : List (Activation V))
      (hop : ∀ run ∈ runs.head?, ∃ instr, run.instruction = some instr ∧
        instr.op.mayKeepFrames = true)
      (stack : List V) (frame : CallFrame) {entered : ExecutionState V}
      (henter : ExecutionState.enterFrame { state with stack := stack } frame = some entered)
      (thrown : Thrown V) :
      Step ⟨state, runs, none⟩ .invokeRefused
        ⟨entered.restoreToDepth stack.length state.callDepth, runs,
          if runs.isEmpty then none else some thrown⟩
  | raise (state : ExecutionState V) (run : Activation V) (outer : List (Activation V))
      (stack : List V) (thrown : Thrown V) :
      Step ⟨state, run :: outer, none⟩ .raise
        ⟨{ state with stack := stack }, run :: outer, some thrown⟩
  | caught (state : ExecutionState V) (run : Activation V) (outer : List (Activation V))
      (thrown : Thrown V) {ip : Nat}
      (hdispatch : (dispatchThrownException run.chunk thrown run.initialCallDepth state).2 = some ip) :
      Step ⟨state, run :: outer, some thrown⟩ .caught
        ⟨(dispatchThrownException run.chunk thrown run.initialCallDepth state).1,
          { run with ip := ip } :: outer, none⟩
  | uncaught (state : ExecutionState V) (run : Activation V)
      (outer : List (Activation V)) (thrown : Thrown V)
      (hdispatch : (dispatchThrownException run.chunk thrown run.initialCallDepth state).2 = none) :
      Step ⟨state, run :: outer, some thrown⟩ .uncaught
        ⟨afterUncaught run
            (dispatchThrownException run.chunk thrown run.initialCallDepth state).1,
          outer, if outer.isEmpty then none else some thrown⟩

/-- The runs of a machine from a fresh one, with their steps listed newest first. -/
abbrev MachineRun {V : Type} [Inhabited V] : Machine V → List (Machine V × Action) → Prop :=
  Run Machine.Fresh Step

end zl.vm
