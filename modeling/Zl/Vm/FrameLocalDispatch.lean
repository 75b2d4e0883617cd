import Zl.Vm.Interpreter

open zl.collections zl.transition

namespace zl.vm

section
variable {V : Type}

/-- The handlers of frames shallower than `depth`, in stack order. -/
def handlersBelow (depth : Nat) (handlers : List Handler) : List Handler :=
  handlers.filter fun g => decide (g.callStackSize < depth)

/-- `h` is the topmost handler of this run that catches the object: `popped` lies above it on the
    handler stack and `rest` below it. -/
structure Matches (run : Activation V) (thrown : Thrown V) (handlers popped : List Handler)
    (h : Handler) (rest : List Handler) : Prop where
  split : handlers = popped ++ h :: rest
  popped : ∀ g ∈ popped, catches run.chunk thrown g = false ∧ run.initialCallDepth ≤ g.callStackSize
  catches : catches run.chunk thrown h = true
  scope : run.initialCallDepth ≤ h.callStackSize

/-- A dispatch that finds a handler keeps the handlers of all shallower frames, in order. -/
def KeepsOuterHandlers [Inhabited V] (run : Activation V) (thrown : Thrown V)
    (state : ExecutionState V) : Prop :=
  ∀ popped h rest, Matches run thrown state.handlers popped h rest →
    handlersBelow h.callStackSize
        (dispatchThrownException run.chunk thrown run.initialCallDepth state).1.handlers =
      handlersBelow h.callStackSize state.handlers

/-- Neither popping nor sibling removal can reach a shallower frame: nothing above the matching
    handler belongs to one, and none of their handlers below it carries its group. -/
def SiblingsStayLocal (run : Activation V) (thrown : Thrown V) (handlers : List Handler) : Prop :=
  ∀ popped h rest, Matches run thrown handlers popped h rest →
    (∀ g ∈ popped, h.callStackSize ≤ g.callStackSize) ∧
      (h.groupId = 0 ∨ ∀ g ∈ rest, g.callStackSize < h.callStackSize → g.groupId ≠ h.groupId)

theorem Matches.search {run : Activation V} {thrown : Thrown V} {handlers popped rest : List Handler}
    {h : Handler} (hmatch : Matches run thrown handlers popped h rest) :
    searchHandler run.chunk thrown run.initialCallDepth handlers = (some h, rest) := by
  rw [hmatch.split]
  exact searchHandler_append hmatch.popped hmatch.catches hmatch.scope

theorem handlersBelow_append (depth : Nat) (above below : List Handler) :
    handlersBelow depth (above ++ below) = handlersBelow depth above ++ handlersBelow depth below :=
  List.filter_append above below

/-- A list that grows by a part and loses elements of the other is unchanged only if the part is
    empty and nothing is lost. -/
private theorem sublist_eq_append_iff {A : Type} {kept above below : List A}
    (hsub : kept.Sublist below) : kept = above ++ below ↔ above = [] ∧ kept = below := by
  constructor
  · intro heq
    have hlen := congrArg List.length heq
    rw [List.length_append] at hlen
    have hle := hsub.length_le
    have habove : above.length = 0 := by omega
    have hnil := List.eq_nil_of_length_eq_zero habove
    exact ⟨hnil, by rw [heq, hnil, List.nil_append]⟩
  · rintro ⟨rfl, rfl⟩
    rfl

theorem handlersBelow_eq_nil_iff {depth : Nat} {handlers : List Handler} :
    handlersBelow depth handlers = [] ↔ ∀ g ∈ handlers, depth ≤ g.callStackSize := by
  simp only [handlersBelow, List.filter_eq_nil_iff, decide_eq_true_eq, Nat.not_lt]

/-- Removing the group of `h` costs the shallower frames nothing exactly when the group is the
    empty one or none of them uses it. -/
private theorem handlersBelow_filter_group_iff {h : Handler} {rest : List Handler} :
    handlersBelow h.callStackSize
        (rest.filter fun g => decide (h.groupId = 0 ∨ g.groupId ≠ h.groupId)) =
      handlersBelow h.callStackSize rest ↔
    h.groupId = 0 ∨ ∀ g ∈ rest, g.callStackSize < h.callStackSize → g.groupId ≠ h.groupId := by
  unfold handlersBelow
  rw [List.filter_comm, List.filter_eq_self]
  simp only [List.mem_filter, decide_eq_true_eq, and_imp]
  constructor
  · intro hall
    by_cases hzero : h.groupId = 0
    · exact Or.inl hzero
    · exact Or.inr fun g hg hlt => (hall g hg hlt).resolve_left hzero
  · rintro (hzero | hall) g hg hlt
    · exact Or.inl hzero
    · exact Or.inr (hall g hg hlt)

/-- In every machine state a run reaches, and for every thrown object, a dispatch keeps the
    handlers of shallower frames exactly when popping and sibling removal stay within the frame of
    the matching handler. -/
theorem keepsOuterHandlers_iff [Inhabited V] :
    ∀ (m : Machine V) (past : List (Machine V × Action)), MachineRun m past →
      ∀ run ∈ m.runs.head?, ∀ thrown : Thrown V,
        KeepsOuterHandlers run thrown m.state ↔ SiblingsStayLocal run thrown m.state.handlers := by
  intro m past _ run _ thrown
  refine forall_congr' fun popped => forall_congr' fun h => forall_congr' fun rest =>
    forall_congr' fun hmatch => ?_
  rw [(dispatchThrownException_found hmatch.search).2.2, hmatch.split, handlersBelow_append]
  have hself : handlersBelow h.callStackSize (h :: rest) = handlersBelow h.callStackSize rest := by
    simp [handlersBelow]
  have hsub : (handlersBelow h.callStackSize
      (rest.filter fun g => decide (h.groupId = 0 ∨ g.groupId ≠ h.groupId))).Sublist
      (handlersBelow h.callStackSize rest) := List.filter_sublist.filter _
  rw [hself, sublist_eq_append_iff hsub, handlersBelow_eq_nil_iff, handlersBelow_filter_group_iff]

end

/-- A caller whose try (group 1, address 2) calls a callee whose try (group 1 as well, address 8)
    throws: each function numbers its tries from one. -/
def nestedTries : Chunk Int where
  code := [⟨.Call, 0, 0, 0⟩, ⟨.Halt, 0, 0, 0⟩, ⟨.PushHandler, 6, 0, 1⟩, ⟨.Call, 1, 0, 0⟩,
    ⟨.PushConst, 0, 0, 0⟩, ⟨.Return, 0, 0, 0⟩, ⟨.PushConst, 0, 0, 0⟩, ⟨.Return, 0, 0, 0⟩,
    ⟨.PushHandler, 11, 0, 1⟩, ⟨.PushConst, 0, 0, 0⟩, ⟨.Throw, 0, 0, 0⟩, ⟨.Return, 0, 0, 0⟩]
  constants := [7]

/-- The only run of that program, at address `ip`. -/
def nestedTriesRun (ip : Nat) : Activation Int := ⟨nestedTries, 0, false, ip, none⟩

def nestedTriesCallerHandler : Handler := ⟨6, 0, 1, "", false, 1⟩
def nestedTriesCalleeHandler : Handler := ⟨11, 0, 2, "", false, 1⟩

def nestedTriesThrown : Thrown Int := ⟨"Exception", 7, 7⟩

/-- The callee has just thrown. -/
def nestedTriesState : ExecutionState Int where
  callStack := [⟨4, "g"⟩, ⟨1, "f"⟩]
  handlers := [nestedTriesCalleeHandler, nestedTriesCallerHandler]

private theorem nestedTries_run : ∃ past,
    MachineRun ⟨nestedTriesState, [nestedTriesRun 10], some nestedTriesThrown⟩ past := by
  refine ⟨_, .step (.step (.step (.step (.step (.step (.step (.start ⟨100000, rfl⟩)
    (.start _ nestedTries))
    (.call _ (nestedTriesRun 0) _ ⟨.Call, 0, 0, 0⟩ rfl rfl [] ⟨1, "f"⟩ rfl 2 rfl))
    (.pushHandler _ (nestedTriesRun 2) _ ⟨.PushHandler, 6, 0, 1⟩ rfl rfl "" rfl))
    (.call _ (nestedTriesRun 3) _ ⟨.Call, 1, 0, 0⟩ rfl rfl [] ⟨4, "g"⟩ rfl 8 rfl))
    (.pushHandler _ (nestedTriesRun 8) _ ⟨.PushHandler, 11, 0, 1⟩ rfl rfl "" rfl))
    (.data _ (nestedTriesRun 9) _ ⟨.PushConst, 0, 0, 0⟩ rfl rfl [7] 10))
    (.raise _ (nestedTriesRun 10) _ [] nestedTriesThrown)⟩

private theorem nestedTries_matches :
    Matches (nestedTriesRun 10) nestedTriesThrown nestedTriesState.handlers [] nestedTriesCalleeHandler
      [nestedTriesCallerHandler] :=
  ⟨rfl, by simp, rfl, Nat.zero_le _⟩

/-- Dispatching to the callee's catch removes the caller's handler with it. -/
theorem dispatch_removes_caller_handler :
    ¬ ∀ (m : Machine Int) (past : List (Machine Int × Action)), MachineRun m past →
      ∀ run ∈ m.runs.head?, ∀ thrown : Thrown Int, KeepsOuterHandlers run thrown m.state := by
  intro hall
  obtain ⟨past, hrun⟩ := nestedTries_run
  have hkeeps := hall _ past hrun _ rfl nestedTriesThrown _ _ _ nestedTries_matches
  exact absurd hkeeps (by decide)

theorem keepsOuterHandlers_iff_nestedTries :
    KeepsOuterHandlers (nestedTriesRun 10) nestedTriesThrown nestedTriesState ↔
      SiblingsStayLocal (nestedTriesRun 10) nestedTriesThrown nestedTriesState.handlers := by
  obtain ⟨past, hrun⟩ := nestedTries_run
  exact keepsOuterHandlers_iff _ past hrun _ rfl nestedTriesThrown

end zl.vm
