import Zl.Collections.Basic

open zl.collections

namespace zl.vm

/-- An installed exception handler. `callStackSize` is the call depth it was installed at, and
    group zero belongs to no try. -/
structure Handler where
  catchIp : Nat := 0
  stackSize : Nat := 0
  callStackSize : Nat := 0
  catchClassName : String := ""
  rethrowAfterHandler : Bool := false
  groupId : Nat := 0
  deriving DecidableEq, Repr

structure CallFrame where
  returnIp : Nat := 0
  functionName : String := ""
  deriving DecidableEq, Repr

/-- The interpreter's stacks. Each vector of the source is a list with the back of the vector, the
    innermost entry, first. The default value of `V` is nil. -/
structure ExecutionState (V : Type) where
  stack : List V := []
  callStack : List CallFrame := []
  maxCallDepth : Nat := 100000
  handlers : List Handler := []
  deriving DecidableEq, Repr

/-- `std::vector::resize` on a vector kept back first: shrink from the top, or pad it. -/
def resize {A : Type} (filler : A) (size : Nat) (stack : List A) : List A :=
  List.replicate (size - stack.length) filler ++ stack.drop (stack.length - size)

@[simp]
theorem length_resize {A : Type} (filler : A) (size : Nat) (stack : List A) :
    (resize filler size stack).length = size := by
  simp only [resize, List.length_append, List.length_replicate, List.length_drop]
  omega

namespace ExecutionState

section
variable {V : Type} (state : ExecutionState V)

def callDepth : Nat := state.callStack.length

/-- Refused when the call stack is full. -/
def enterFrame (frame : CallFrame) : Option (ExecutionState V) :=
  if state.callStack.length ≥ state.maxCallDepth then none
  else some { state with callStack := frame :: state.callStack }

/-- The finished frame and the state without it, or nothing on an empty call stack. -/
def leaveFrame : Option (CallFrame × ExecutionState V) :=
  match state.callStack with
  | [] => none
  | finished :: rest => some (finished, { state with callStack := rest })

def pushHandler (catchIp : Nat) (catchClassName : String := "") (rethrowAfterHandler : Bool := false)
    (groupId : Nat := 0) : ExecutionState V :=
  { state with
    handlers := ⟨catchIp, state.stack.length, state.callStack.length, catchClassName,
      rethrowAfterHandler, groupId⟩ :: state.handlers }

/-- The `PopHandler` instruction: nothing happens on an empty handler stack. -/
def popHandler : ExecutionState V := { state with handlers := state.handlers.tail }

def removeHandlerGroup (groupId : Nat) : ExecutionState V :=
  if groupId = 0 then state
  else { state with handlers := state.handlers.filter fun h => decide (h.groupId ≠ groupId) }

/-- Drop the handlers installed strictly deeper than the given call depth, from the top. -/
def discardHandlersDeeperThan (callStackSize : Nat) : ExecutionState V :=
  { state with
    handlers := state.handlers.dropWhile fun h => decide (callStackSize < h.callStackSize) }

def discardHandlersForFinishedFrames : ExecutionState V :=
  state.discardHandlersDeeperThan state.callStack.length

def restoreToDepth [Inhabited V] (valueStackSize callStackSize : Nat) : ExecutionState V :=
  { state.discardHandlersDeeperThan callStackSize with
    callStack :=
      if state.callStack.length > callStackSize then resize {} callStackSize state.callStack
      else state.callStack
    stack :=
      if state.stack.length > valueStackSize then resize default valueStackSize state.stack
      else state.stack }

def unwindTo [Inhabited V] (handler : Handler) : ExecutionState V :=
  { state with
    stack := resize default handler.stackSize state.stack
    callStack := resize {} handler.callStackSize state.callStack }

end

section
variable {V : Type} {state : ExecutionState V}

theorem enterFrame_eq_some {frame : CallFrame} {entered : ExecutionState V}
    (henter : state.enterFrame frame = some entered) :
    entered = { state with callStack := frame :: state.callStack } := by
  unfold enterFrame at henter
  split at henter
  · cases henter
  · exact (Option.some.inj henter).symm

theorem leaveFrame_eq_some {finished : CallFrame} {left : ExecutionState V}
    (hleave : state.leaveFrame = some (finished, left)) :
    left.handlers = state.handlers ∧ left.callDepth + 1 = state.callDepth := by
  unfold leaveFrame at hleave
  split at hleave
  · cases hleave
  · next top rest hstack =>
    cases hleave
    exact ⟨rfl, by simp [callDepth, hstack]⟩

theorem removeHandlerGroup_handlers (groupId : Nat) :
    (state.removeHandlerGroup groupId).handlers =
      state.handlers.filter (fun h => decide (groupId = 0 ∨ h.groupId ≠ groupId)) := by
  unfold removeHandlerGroup
  split
  · next hzero => simp [hzero]
  · next hzero => simp [hzero]

@[simp]
theorem removeHandlerGroup_callDepth (groupId : Nat) :
    (state.removeHandlerGroup groupId).callDepth = state.callDepth := by
  unfold removeHandlerGroup
  split <;> rfl

@[simp]
theorem unwindTo_handlers [Inhabited V] (handler : Handler) :
    (state.unwindTo handler).handlers = state.handlers := rfl

@[simp]
theorem unwindTo_callDepth [Inhabited V] (handler : Handler) :
    (state.unwindTo handler).callDepth = handler.callStackSize := by
  simp [unwindTo, callDepth]

theorem restoreToDepth_handlers [Inhabited V] (valueStackSize callStackSize : Nat) :
    (state.restoreToDepth valueStackSize callStackSize).handlers =
      (state.discardHandlersDeeperThan callStackSize).handlers := rfl

/-- Restoring from at least the recorded depth lands exactly on it. -/
theorem restoreToDepth_callDepth [Inhabited V] (valueStackSize : Nat) {callStackSize : Nat}
    (hdepth : callStackSize ≤ state.callDepth) :
    (state.restoreToDepth valueStackSize callStackSize).callDepth = callStackSize := by
  unfold callDepth at hdepth
  simp only [restoreToDepth, callDepth]
  by_cases hdeep : state.callStack.length > callStackSize
  · rw [if_pos hdeep, length_resize]
  · rw [if_neg hdeep]
    omega

end

end ExecutionState

end zl.vm
