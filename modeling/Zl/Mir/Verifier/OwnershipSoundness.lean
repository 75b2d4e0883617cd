import Zl.Mir.Verifier.OwnershipTermination

open Relation zl.fixpoint zl.mir.ControlFlowGraph

namespace zl.mir.Verifier

section
variable (f : Function)

/-- A place on an execution path and the instructions whose effects happened before it, newest
    first. Control follows the edges of terminators, and enters a handler from any instruction
    that may throw, before or after its effect, or from a throw. -/
inductive FlowPath : BasicBlock → Nat → List Instruction → Prop
  | entry {b : BasicBlock} (hb : f.block f.entryBlock = some b) : FlowPath b 0 []
  | effect {b : BasicBlock} {pc : Nat} {past : List Instruction} {instruction : Instruction}
      (hpath : FlowPath b pc past) (hget : b.instructions[pc]? = some instruction) :
      FlowPath b (pc + 1) (instruction :: past)
  | normal {b c : BasicBlock} {past : List Instruction} {id : BlockId}
      (hpath : FlowPath b b.instructions.length past) (hedge : id ∈ b.terminator.successors)
      (hc : f.block id = some c) : FlowPath c 0 past
  | unwindBefore {b c : BasicBlock} {pc : Nat} {past : List Instruction} {instruction : Instruction}
      {handler : ExceptionHandler} (hpath : FlowPath b pc past)
      (hget : b.instructions[pc]? = some instruction)
      (hthrow : (opcodeShape instruction.opcode).mayThrow = true)
      (hhandler : handler ∈ b.exceptionHandlers) (hc : f.block handler.block = some c) :
      FlowPath c 0 past
  | unwindAfter {b c : BasicBlock} {pc : Nat} {past : List Instruction} {instruction : Instruction}
      {handler : ExceptionHandler} (hpath : FlowPath b pc past)
      (hget : b.instructions[pc]? = some instruction)
      (hthrow : (opcodeShape instruction.opcode).mayThrow = true)
      (hhandler : handler ∈ b.exceptionHandlers) (hc : f.block handler.block = some c) :
      FlowPath c 0 (instruction :: past)
  | raise {b c : BasicBlock} {past : List Instruction} {handler : ExceptionHandler}
      (hpath : FlowPath b b.instructions.length past) (hthrow : b.terminator.kind = .Throw)
      (hhandler : handler ∈ b.exceptionHandlers) (hc : f.block handler.block = some c) :
      FlowPath c 0 past

def Moves (instruction : Instruction) (slot : SlotId) : Prop :=
  instruction.opcode = .Move ∧ instruction.slot = slot

def Drops (instruction : Instruction) (target : DropTarget) : Prop :=
  instruction.opcode = .Drop ∧ dropTarget f instruction = target

/-- The root a borrow slot was last bound to on a path, unless that borrow was ended. -/
def boundRoot : List Instruction → SlotId → Option SlotId
  | [], _ => none
  | instruction :: past, slot =>
    if instruction.opcode = .Borrow ∧ instruction.slot = slot then some (borrowRoot f instruction)
    else if instruction.opcode = .EndBorrow ∧ instruction.slot = slot then none
    else boundRoot past slot

/-- The ownership rules for an instruction about to be executed after some past. -/
structure Respected (b : BasicBlock) (pc : Nat) (past : List Instruction) (instruction : Instruction) :
    Prop where
  /-- A slot that was moved or dropped is not loaded, stored or moved. -/
  live : instruction.opcode = .Load ∨ instruction.opcode = .Store ∨ instruction.opcode = .Move →
    ∀ earlier ∈ past, ¬ Moves earlier instruction.slot ∧ ¬ Drops f earlier (.slot instruction.slot)
  /-- No slot and no parameter is dropped twice. -/
  dropOnce : ∀ target, Drops f instruction target → target ≠ .nothing →
    ∀ earlier ∈ past, ¬ Drops f earlier target
  /-- A slot is not moved while a borrow slot is bound to it. -/
  moveUnborrowed : ∀ slot, Moves instruction slot → ∀ borrow, boundRoot f past borrow ≠ some slot
  /-- A slot a borrow slot is bound to is only dropped in the trailing drops before a return. -/
  dropUnborrowed : ∀ slot, Drops f instruction (.slot slot) →
    (∃ borrow, boundRoot f past borrow = some slot) →
    b.terminator.kind = .Return ∧
      ∀ j later, pc < j → b.instructions[j]? = some later → later.opcode = .Drop

/-- The facts of a path hold in an abstract state. -/
structure Covers (past : List Instruction) (state : FlowState) : Prop where
  moved : ∀ earlier ∈ past, ∀ slot, Moves earlier slot → slot ∈ state.moved
  dropped : ∀ earlier ∈ past, ∀ slot, Drops f earlier (.slot slot) → slot ∈ state.dropped
  droppedParams : ∀ earlier ∈ past, ∀ id, Drops f earlier (.param id) → id ∈ state.droppedParams
  borrows : ∀ k : SlotId, RootLe (boundRoot f past k) state.borrows[k]?

end

section
variable {f : Function}
variable {instruction : Instruction} {state : FlowState} {past : List Instruction} {b : BasicBlock}
  {pc : Nat}

theorem FlowPath.exists_entry (hpath : FlowPath f b pc past) :
    ∃ c, f.block f.entryBlock = some c := by
  induction hpath with
  | entry hb => exact ⟨_, hb⟩
  | effect _ _ ih => exact ih
  | normal _ _ _ ih => exact ih
  | unwindBefore _ _ _ _ _ ih => exact ih
  | unwindAfter _ _ _ _ _ ih => exact ih
  | raise _ _ _ _ ih => exact ih

theorem Covers.empty (state : FlowState) : Covers f [] state where
  moved := by simp
  dropped := by simp
  droppedParams := by simp
  borrows := fun _ => Or.inl rfl

theorem Covers.mono {a b : FlowState} (h : Covers f past a) (hle : a ≤ b) :
    Covers f past b where
  moved := fun e he slot hm => hle.moved (h.moved e he slot hm)
  dropped := fun e he slot hd => hle.dropped (h.dropped e he slot hd)
  droppedParams := fun e he id hd => hle.droppedParams (h.droppedParams e he id hd)
  borrows := fun k => (h.borrows k).trans (hle.borrows k)

theorem store_live (hopcode : instruction.opcode = .Store)
    (hok : flowErrors f state b instruction pc = []) :
    instruction.slot ∉ state.moved ∧ instruction.slot ∉ state.dropped := by
  unfold flowErrors at hok
  rw [hopcode] at hok
  simp only [checkLive] at hok
  by_cases hmoved : instruction.slot ∈ state.moved
  · simp [hmoved] at hok
  · exact ⟨hmoved, by simpa [hmoved] using hok⟩

theorem load_live (hopcode : instruction.opcode = .Load) (hok : flowErrors f state b instruction pc = []) :
    instruction.slot ∉ state.moved ∧ instruction.slot ∉ state.dropped := by
  unfold flowErrors at hok
  rw [hopcode] at hok
  simp only [checkLive, List.append_eq_nil_iff] at hok
  by_cases hmoved : instruction.slot ∈ state.moved
  · simp [hmoved] at hok
  · exact ⟨hmoved, by simpa [hmoved] using hok.2⟩

theorem not_bound_of_borrowOf (hcovers : Covers f past state) {slot : SlotId}
    (hnone : borrowOf state slot = none) (borrow : SlotId) :
    boundRoot f past borrow ≠ some slot := by
  intro hbound
  have hroot := hcovers.borrows borrow
  rw [hbound] at hroot
  have hfind : state.borrows.toList.find?
      (fun entry => entry.2 == slot || entry.2 == unknownRoot) = none := by
    simpa [borrowOf] using hnone
  have hall := List.find?_eq_none.mp hfind
  rcases hroot with h | h | h
  · cases h
  · have hmem := Std.ExtTreeMap.mem_toList_iff_getElem?_eq_some.mpr h.symm
    have hno := hall _ hmem
    simp at hno
  · have hmem := Std.ExtTreeMap.mem_toList_iff_getElem?_eq_some.mpr h
    have hno := hall _ hmem
    simp at hno

theorem move_free (hopcode : instruction.opcode = .Move) (hok : flowErrors f state b instruction pc = []) :
    instruction.slot ∉ state.moved ∧ instruction.slot ∉ state.dropped ∧
      borrowOf state instruction.slot = none := by
  unfold flowErrors at hok
  rw [hopcode] at hok
  simp only [List.append_eq_nil_iff] at hok
  obtain ⟨huse, hborrow⟩ := hok
  have hnone : borrowOf state instruction.slot = none := by
    cases h : borrowOf state instruction.slot with
    | none => rfl
    | some borrowSlot => simp [h] at hborrow
  by_cases hmoved : instruction.slot ∈ state.moved
  · simp [hmoved] at huse
  · exact ⟨hmoved, by simpa [hmoved] using huse, hnone⟩

theorem drop_free (hopcode : instruction.opcode = .Drop) (hok : flowErrors f state b instruction pc = []) :
    (∀ id, dropTarget f instruction = .param id → id ∉ state.droppedParams) ∧
      ∀ slot, dropTarget f instruction = .slot slot → slot ∉ state.dropped ∧
        (isTrailingCleanup b pc = true ∨ borrowOf state slot = none) := by
  unfold flowErrors at hok
  rw [hopcode] at hok
  simp only [checkDrop] at hok
  constructor
  · intro id htarget
    simpa [htarget] using hok
  · intro slot htarget
    simp only [htarget, List.append_eq_nil_iff] at hok
    obtain ⟨huse, hborrow⟩ := hok
    refine ⟨?_, ?_⟩
    · by_cases hmoved : slot ∈ state.moved
      · simp [hmoved] at huse
      · simpa [hmoved] using huse
    · by_cases htrailing : isTrailingCleanup b pc = true
      · exact Or.inl htrailing
      · refine Or.inr ?_
        rw [if_neg htrailing] at hborrow
        cases h : borrowOf state slot with
        | none => rfl
        | some borrowSlot => simp [h] at hborrow

/-- Only a borrow and its end change what borrow slots are bound to. -/
theorem borrows_applyInstruction (instruction : Instruction) (state : FlowState) :
    (applyInstruction f instruction state).borrows =
      if instruction.opcode = .Borrow then
        state.borrows.insert instruction.slot (borrowRoot f instruction)
      else if instruction.opcode = .EndBorrow then state.borrows.erase instruction.slot
      else state.borrows := by
  unfold applyInstruction
  split
  next hopcode => simp [hopcode]
  next hopcode => simp [hopcode]
  next hopcode => simp [hopcode]
  next hopcode => simp [hopcode]
  next hopcode => split <;> simp [hopcode]
  next hborrow hend _ => rw [if_neg hborrow, if_neg hend]

/-- An instruction the replay does not complain about keeps its state a cover of the path. -/
theorem Covers.effect (h : Covers f past state) (hok : flowErrors f state b instruction pc = []) :
    Covers f (instruction :: past) (applyInstruction f instruction state) where
  moved := by
    intro earlier hmem slot hmoves
    have hkeep : state.moved ⊆ (applyInstruction f instruction state).moved := by
      unfold applyInstruction
      split <;> try exact subset_rfl
      · exact Finset.subset_insert _ _
      · split <;> exact subset_rfl
    rcases List.mem_cons.mp hmem with rfl | hmem
    · obtain ⟨hopcode, rfl⟩ := hmoves
      unfold applyInstruction
      rw [hopcode]
      exact Finset.mem_insert_self _ _
    · exact hkeep (h.moved earlier hmem slot hmoves)
  dropped := by
    intro earlier hmem slot hdrops
    rcases List.mem_cons.mp hmem with rfl | hmem
    · obtain ⟨hopcode, htarget⟩ := hdrops
      unfold applyInstruction
      simp only [hopcode, htarget]
      exact Finset.mem_insert_self _ _
    · have hslot := h.dropped earlier hmem slot hdrops
      unfold applyInstruction
      split <;> try exact hslot
      next hopcode =>
        -- A store only forgets the release of the slot it is for, which was not released.
        refine Finset.mem_erase.mpr ⟨?_, hslot⟩
        rintro rfl
        exact (store_live hopcode hok).2 hslot
      next =>
        split <;> try exact hslot
        exact Finset.mem_insert_of_mem hslot
  droppedParams := by
    intro earlier hmem id hdrops
    rcases List.mem_cons.mp hmem with rfl | hmem
    · obtain ⟨hopcode, htarget⟩ := hdrops
      unfold applyInstruction
      simp only [hopcode, htarget]
      exact Finset.mem_insert_self _ _
    · have hid := h.droppedParams earlier hmem id hdrops
      unfold applyInstruction
      split <;> try exact hid
      split <;> try exact hid
      exact Finset.mem_insert_of_mem hid
  borrows := by
    intro k
    have hk := h.borrows k
    rw [borrows_applyInstruction, boundRoot]
    by_cases hborrow : instruction.opcode = .Borrow
    · by_cases heq : instruction.slot = k
      · subst heq
        exact Or.inr (Or.inl (by simp [hborrow]))
      · simpa [hborrow, heq, Std.ExtTreeMap.getElem?_insert] using hk
    · by_cases hend : instruction.opcode = .EndBorrow
      · by_cases heq : instruction.slot = k
        · exact Or.inl (by simp [hend, heq])
        · simpa [hend, heq, Std.ExtTreeMap.getElem?_erase] using hk
      · simpa [hborrow, hend] using hk

/-- The rules hold where the replay has a cover of the path and no complaint. -/
theorem Covers.respected (h : Covers f past state)
    (hok : flowErrors f state b instruction pc = []) : Respected f b pc past instruction where
  live := by
    intro hopcode earlier hmem
    have hfree : instruction.slot ∉ state.moved ∧ instruction.slot ∉ state.dropped := by
      rcases hopcode with hopcode | hopcode | hopcode
      · exact load_live hopcode hok
      · exact store_live hopcode hok
      · exact ⟨(move_free hopcode hok).1, (move_free hopcode hok).2.1⟩
    exact ⟨fun hm => hfree.1 (h.moved earlier hmem _ hm),
      fun hd => hfree.2 (h.dropped earlier hmem _ hd)⟩
  dropOnce := by
    rintro target ⟨hopcode, htarget⟩ hsome earlier hmem hdrops
    obtain ⟨hparam, hslot⟩ := drop_free hopcode hok
    cases target with
    | param id => exact hparam id htarget (h.droppedParams earlier hmem id hdrops)
    | slot slot => exact (hslot slot htarget).1 (h.dropped earlier hmem slot hdrops)
    | nothing => exact hsome rfl
  moveUnborrowed := by
    rintro slot ⟨hopcode, rfl⟩ borrow
    exact not_bound_of_borrowOf h (move_free hopcode hok).2.2 borrow
  dropUnborrowed := by
    rintro slot ⟨hopcode, htarget⟩ ⟨borrow, hbound⟩
    rcases ((drop_free hopcode hok).2 slot htarget).2 with htrailing | hnone
    · unfold isTrailingCleanup at htrailing
      rw [Bool.and_eq_true, List.all_eq_true] at htrailing
      refine ⟨by simpa using htrailing.1, fun j later hj hget => ?_⟩
      have hmem : later ∈ b.instructions.drop (pc + 1) := by
        refine List.mem_of_getElem? (i := j - (pc + 1)) ?_
        rw [List.getElem?_drop, ← hget]
        congr 1
        omega
      simpa using htrailing.2 later hmem
    · exact absurd hbound (not_bound_of_borrowOf h hnone borrow)

end

section
variable {f : Function}

theorem flowErrors_of_replay {b : BasicBlock} {instructions : List Instruction} {start : Nat}
    {input : FlowState} (hok : replay f b start instructions input = []) {pc : Nat}
    {instruction : Instruction} (hget : instructions[pc]? = some instruction) :
    flowErrors f (stateAt (applyInstruction f) instructions input pc) b instruction
      (start + pc) = [] := by
  induction instructions generalizing start input pc with
  | nil => cases hget
  | cons first rest ih =>
    rw [replay, List.append_eq_nil_iff] at hok
    cases pc with
    | zero =>
      cases hget
      exact hok.1
    | succ pc =>
      have hrest := ih hok.2 hget
      rw [Nat.add_right_comm, Nat.add_assoc] at hrest
      simpa [stateAt] using hrest

/-- The states an exception can escape a block with are below what its handlers get. -/
theorem transfer_captures (b : BasicBlock) (input : FlowState) :
    (transfer f b input).1 = stateAt (applyInstruction f) b.instructions input b.instructions.length ∧
      (∀ pc instruction, b.instructions[pc]? = some instruction →
        (opcodeShape instruction.opcode).mayThrow = true →
        stateAt (applyInstruction f) b.instructions input pc ≤ (transfer f b input).2 ∧
          stateAt (applyInstruction f) b.instructions input (pc + 1) ≤ (transfer f b input).2) ∧
      ((b.terminator.kind == .Throw) = true →
        stateAt (applyInstruction f) b.instructions input b.instructions.length ≤
          (transfer f b input).2) :=
  escapeTransfer_captures b.instructions _ input

/-- What the solution says at a place of a path: the block was solved, and the state before the
    instruction covers the path. -/
structure Tracked (f : Function) (flow : Flow BlockId FlowState (FlowState × FlowState))
    (b : BasicBlock) (pc : Nat) (past : List Instruction) : Prop where
  mem : b ∈ f.blocks
  reached : ReflTransGen (MixedEdge f) f.entryBlock b.id
  solved : ∃ input, flow.input b.id = some input ∧
    flow.output b.id = some (transfer f b input) ∧
    Covers f past (stateAt (applyInstruction f) b.instructions input pc)

/-- Control arrives at a block along an edge that hands it a state covering the path. -/
theorem Tracked.arrive (hids : f.DistinctIds) (hentry : f.entryBlock ≠ kNoBlock)
    {flow : Flow BlockId FlowState (FlowState × FlowState)}
    (hsolved : Solved (incomingState f) (transferAt f) (flowOrder f) flow) {c : BasicBlock}
    (hc : c ∈ f.blocks) (hreach : ReflTransGen (MixedEdge f) f.entryBlock c.id)
    {past : List Instruction} {input : FlowState}
    (hinput : incomingState f flow.output c.id = some input) (hcovers : Covers f past input) :
    Tracked f flow c 0 past := by
  have hmem : c.id ∈ flowOrder f := by
    unfold flowOrder
    rw [List.mem_filter]
    exact ⟨List.mem_map_of_mem hc, by simpa using (mem_reachableWithUnwind hentry).mpr hreach⟩
  obtain ⟨hin, hout⟩ := hsolved.step c.id hmem input hinput
  have hat : transferAt f c.id input = transfer f c input := by
    rw [transferAt, (blockAt_eq_some hids).mpr ⟨hc, rfl⟩]
  exact ⟨hc, hreach, input, hin, hat ▸ hout, hcovers⟩

/-- A state among those an edge hands to a block is below the block's input. -/
theorem incomingState_le {out : BlockId → Option (FlowState × FlowState)} {id : BlockId} {state : FlowState}
    (hstate : (∃ pred ∈ predecessors f id, ∃ states, out pred = some states ∧ states.1 = state) ∨
      ∃ pred ∈ unwindPredecessors f id, ∃ states, out pred = some states ∧ states.2 = state) :
    ∃ input, incomingState f out id = some input ∧ state ≤ input := by
  have hmem : state ∈ (predecessors f id).filterMap (fun pred => (out pred).map (·.1)) ++
      (unwindPredecessors f id).filterMap (fun pred => (out pred).map (·.2)) := by
    simpa only [List.mem_append, List.mem_filterMap, Option.map_eq_some_iff] using hstate
  obtain ⟨input, hinput⟩ := foldl_mergeFact_isSome _
    (if id = f.entryBlock then some {} else none) (Or.inr (List.ne_nil_of_mem hmem))
  exact ⟨input, hinput, (foldl_mergeFact _ _ hinput).2.1 state hmem⟩

theorem Tracked.unwind (hids : f.DistinctIds) (hentry : f.entryBlock ≠ kNoBlock)
    {flow : Flow BlockId FlowState (FlowState × FlowState)}
    (hsolved : Solved (incomingState f) (transferAt f) (flowOrder f) flow) {b c : BasicBlock}
    (hb : b ∈ f.blocks) (hreach : ReflTransGen (MixedEdge f) f.entryBlock b.id) {input : FlowState}
    (hout : flow.output b.id = some (transfer f b input)) {handler : ExceptionHandler}
    (hhandler : handler ∈ b.exceptionHandlers) (hc : f.block handler.block = some c)
    {past : List Instruction} {state : FlowState} (hcovers : Covers f past state)
    (hle : state ≤ (transfer f b input).2) : Tracked f flow c 0 past := by
  obtain ⟨hmem, hid, -⟩ := blockAt_of_block hids hc
  have hne : handler.block ≠ kNoBlock := by
    intro hnone
    rw [hnone, Function.block, if_pos rfl] at hc
    cases hc
  have hsucc : c.id ∈ unwindSuccessors f b.id := by
    refine mem_unwindSuccessors.mpr ⟨b, (blockAt_eq_some hids).mpr ⟨hb, rfl⟩, ?_⟩
    exact mem_handlerTargets.mpr ⟨handler, hhandler, hid.symm, hid ▸ hne, isValid_of_mem hmem⟩
  obtain ⟨next, hnext, hbelow⟩ := incomingState_le (f := f) (Or.inr ⟨b.id,
    (mem_unwindPredecessors hids).mpr hsucc, _, hout, rfl⟩)
  exact Tracked.arrive hids hentry hsolved hmem (hreach.tail (Or.inr hsucc)) hnext
    (hcovers.mono (hle.trans hbelow))

/-- Every path the replay is silent about is covered by the solution. -/
theorem tracked_of_flowPath (hids : f.DistinctIds) {flow : Flow BlockId FlowState (FlowState × FlowState)}
    (hsolved : Solved (incomingState f) (transferAt f) (flowOrder f) flow)
    (hsilent : ∀ b ∈ f.blocks, ∀ input, flow.input b.id = some input →
      flow.output b.id = some (transfer f b input) → replay f b 0 b.instructions input = [])
    {b : BasicBlock} {pc : Nat} {past : List Instruction} (hpath : FlowPath f b pc past) :
    Tracked f flow b pc past := by
  have hentry : f.entryBlock ≠ kNoBlock := by
    obtain ⟨c, hc⟩ := hpath.exists_entry
    intro hnone
    rw [hnone, Function.block, if_pos rfl] at hc
    cases hc
  have heffect : ∀ {b : BasicBlock} {pc : Nat} {past : List Instruction} {instruction : Instruction},
      b ∈ f.blocks → b.instructions[pc]? = some instruction → ∀ input,
      flow.input b.id = some input → flow.output b.id = some (transfer f b input) →
      Covers f past (stateAt (applyInstruction f) b.instructions input pc) →
      Covers f (instruction :: past) (stateAt (applyInstruction f) b.instructions input (pc + 1)) := by
    intro b pc past instruction hb hget input hin hout hcovers
    have hok := flowErrors_of_replay (hsilent b hb input hin hout) hget
    rw [stateAt_succ hget]
    exact hcovers.effect hok
  induction hpath with
  | entry hb =>
    obtain ⟨hmem, hid, -⟩ := blockAt_of_block hids hb
    obtain ⟨input, hinput⟩ := foldl_mergeFact_isSome
      ((predecessors f f.entryBlock).filterMap (fun pred => (flow.output pred).map (·.1)) ++
        (unwindPredecessors f f.entryBlock).filterMap (fun pred => (flow.output pred).map (·.2)))
      (some {}) (Or.inl rfl)
    have hincoming : incomingState f flow.output f.entryBlock = some input := by
      rw [incomingState, if_pos rfl]
      exact hinput
    rw [← hid] at hincoming
    exact Tracked.arrive hids hentry hsolved hmem (hid ▸ .refl) hincoming (Covers.empty input)
  | effect _ hget ih =>
    obtain ⟨hmem, hreach, input, hin, hout, hcovers⟩ := ih
    exact ⟨hmem, hreach, input, hin, hout, heffect hmem hget input hin hout hcovers⟩
  | @normal b c past id _ hedge hc ih =>
    obtain ⟨hmem, hreach, input, hin, hout, hcovers⟩ := ih
    obtain ⟨hcmem, hsucc⟩ := mem_successors_of_block hids hmem hedge hc
    obtain ⟨next, hnext, hbelow⟩ := incomingState_le (f := f) (Or.inl ⟨b.id,
      (mem_predecessors hids).mpr hsucc, _, hout, rfl⟩)
    have hlast := (transfer_captures (f := f) b input).1
    rw [← hlast] at hcovers
    exact Tracked.arrive hids hentry hsolved hcmem (hreach.tail (Or.inl hsucc)) hnext
      (hcovers.mono hbelow)
  | unwindBefore _ hget hthrow hhandler hc ih =>
    obtain ⟨hmem, hreach, input, hin, hout, hcovers⟩ := ih
    exact Tracked.unwind hids hentry hsolved hmem hreach hout hhandler hc hcovers
      ((transfer_captures _ input).2.1 _ _ hget hthrow).1
  | unwindAfter _ hget hthrow hhandler hc ih =>
    obtain ⟨hmem, hreach, input, hin, hout, hcovers⟩ := ih
    exact Tracked.unwind hids hentry hsolved hmem hreach hout hhandler hc
      (heffect hmem hget input hin hout hcovers)
      ((transfer_captures _ input).2.1 _ _ hget hthrow).2
  | raise _ hthrow hhandler hc ih =>
    obtain ⟨hmem, hreach, input, hin, hout, hcovers⟩ := ih
    exact Tracked.unwind hids hentry hsolved hmem hreach hout hhandler hc hcovers
      ((transfer_captures _ input).2.2 (by simp [hthrow]))

/-- The loop of the ownership check ends on every function. When the blocks of a function have
    distinct ids and the check reports nothing, every instruction on every execution path respects
    the ownership rules. -/
theorem checkOwnershipFlow_sound (f : Function) :
    (∃ flow, solveOwnershipFlow f = some flow) ∧
      (f.DistinctIds → checkOwnershipFlow f = [] →
        ∀ b pc past instruction, FlowPath f b pc past → b.instructions[pc]? = some instruction →
          Respected f b pc past instruction) := by
  obtain ⟨flow, hflow, hsolved⟩ := solveOwnershipFlow_spec f
  refine ⟨⟨flow, hflow⟩, fun hids hok b pc past instruction hpath hget => ?_⟩
  have hvalid : isValid f f.entryBlock = true := by
    obtain ⟨c, hc⟩ := hpath.exists_entry
    obtain ⟨hmem, hid, -⟩ := blockAt_of_block hids hc
    exact hid ▸ isValid_of_mem hmem
  have hsilent : ∀ b ∈ f.blocks, ∀ input, flow.input b.id = some input →
      flow.output b.id = some (transfer f b input) → replay f b 0 b.instructions input = [] := by
    intro b hb input hin hout
    rw [checkOwnershipFlow, if_neg (by simp [hids, hvalid]), hflow] at hok
    have hnil := List.flatMap_eq_nil_iff.mp hok b hb
    rw [hin, hout] at hnil
    exact hnil
  obtain ⟨hmem, -, input, hin, hout, hcovers⟩ := tracked_of_flowPath hids hsolved hsilent hpath
  have herrors := flowErrors_of_replay (hsilent b hmem input hin hout) hget
  rw [Nat.zero_add] at herrors
  exact hcovers.respected herrors

end

/-- An owned local is given a value and moved out of, once. -/
def storeThenMove : Function where
  name := "storeThenMove"
  parameters := [{ name := "value", type := 1 }]
  slots := [{ name := "owner", type := 1, ownership := .OWNED }]
  entryBlock := 1
  blocks := [
    { id := 1
      instructions := [
        { opcode := .Store, operands := [.param 0 1], slot := 1 },
        { opcode := .Move, result := 1, resultType := 1, slot := 1 }]
      terminator := { kind := .Return, value := .temp 1 1 } }]

theorem checkOwnershipFlow_sound_storeThenMove :
    Respected storeThenMove (storeThenMove.blocks.head (by decide)) 1
      [{ opcode := .Store, operands := [.param 0 1], slot := 1 }]
      { opcode := .Move, result := 1, resultType := 1, slot := 1 } :=
  (checkOwnershipFlow_sound storeThenMove).2 (by decide) (by decide +kernel) _ _ _ _
    (.effect (.entry rfl) rfl) rfl

/-- Two blocks of one id, the first of which moves out of its local twice. -/
def moveTwice : Function where
  name := "moveTwice"
  slots := [{ name := "owner", type := 1, ownership := .OWNED }]
  entryBlock := 1
  blocks := [
    { id := 1
      instructions := [
        { opcode := .Move, result := 1, resultType := 1, slot := 1 },
        { opcode := .Move, result := 2, resultType := 1, slot := 1 }]
      terminator := { kind := .Unreachable } },
    { id := 1, terminator := { kind := .Unreachable } }]

/-- The check returns before the analysis when two blocks carry one id, so its silence says
    nothing about such a function. -/
theorem checkOwnershipFlow_silent_on_moveTwice :
    ¬ ∀ f : Function, checkOwnershipFlow f = [] → ∀ b pc past instruction, FlowPath f b pc past →
      b.instructions[pc]? = some instruction → Respected f b pc past instruction := by
  intro hsound
  have hpath : FlowPath moveTwice (moveTwice.blocks.head (by decide)) 1
      [{ opcode := .Move, result := 1, resultType := 1, slot := 1 }] := .effect (.entry rfl) rfl
  have hrespected := hsound moveTwice (by decide +kernel) _ _ _ _ hpath rfl
  exact (hrespected.live (Or.inr (Or.inr rfl)) _ List.mem_cons_self).1 ⟨rfl, rfl⟩

end zl.mir.Verifier
