import Zl.Fixpoint.Escape
import Zl.Mir.Verifier.Operands

open zl.fixpoint zl.mir.ControlFlowGraph

namespace zl.mir.Verifier

/-- Slots every path initialized, and values some path closed, consumed or released. -/
structure SafetyState where
  initialized : Finset SlotId := ∅
  ended : Finset ValueId := ∅
  deriving DecidableEq

namespace SafetyState

def merge (a b : SafetyState) : SafetyState where
  initialized := a.initialized ∩ b.initialized
  ended := a.ended ∪ b.ended

instance : PartialOrder SafetyState where
  le a b := b.initialized ⊆ a.initialized ∧ a.ended ⊆ b.ended
  le_refl a := ⟨fun _ h => h, fun _ h => h⟩
  le_trans a b c hab hbc := ⟨hbc.1.trans hab.1, hab.2.trans hbc.2⟩
  le_antisymm a b hab hba := by
    have hinitialized := hba.1.antisymm hab.1
    have hended := hab.2.antisymm hba.2
    cases a
    cases b
    simp only at *
    rw [hinitialized, hended]

instance : SemilatticeSup SafetyState where
  sup := merge
  le_sup_left _ _ := ⟨Finset.inter_subset_left, Finset.subset_union_left⟩
  le_sup_right _ _ := ⟨Finset.inter_subset_right, Finset.subset_union_right⟩
  sup_le _ _ _ hac hbc := ⟨Finset.subset_inter hac.1 hbc.1, Finset.union_subset hac.2 hbc.2⟩

end SafetyState

section
variable (checkOwnership : Bool) (f : Function)

/-- The last instruction listed that defines the temp and has one of the opcodes. -/
def lastDefinition (opcodes : List Opcode) (temp : TempId) : Option Instruction :=
  if temp = kNoTemp then none
  else
    ((positions f).map (·.instruction)).reverse.find? fun instruction =>
      instruction.result == temp && opcodes.contains instruction.opcode &&
        (instruction.opcode == .Load || !instruction.operands.isEmpty)

/-- The value a refine or a handle borrow is another name of. A refined constant is an alias of no
    value. -/
def aliasOf : ValueId → Option (Option ValueId)
  | .temp temp => (lastDefinition f [.Refine, .HandleBorrow] temp).map fun instruction =>
      valueOf (instruction.operands.headD Operand.none)
  | .param _ | .blockParam _ => none

/-- Follow the aliases of a value to the one that owns it. -/
def rootFrom : Nat → List ValueId → ValueId → Option ValueId
  | 0, _, v => some v
  | fuel + 1, seen, v =>
    match aliasOf f v with
    | none => some v
    | some next =>
      if v ∈ seen then some v
      else
        match next with
        | none => none
        | some w => rootFrom fuel (v :: seen) w

def root (operand : Operand) : Option ValueId :=
  (valueOf operand).bind (rootFrom f ((positions f).length + 1) [])

/-- Whether some handle borrow defines the value. -/
def isHandleBorrow : ValueId → Bool
  | .temp temp => (positions f).any fun place =>
      temp != kNoTemp && place.instruction.result == temp && place.instruction.opcode == .HandleBorrow
  | .param _ | .blockParam _ => false

/-- Whether the value, or one it is an alias of, is the result of a handle borrow. -/
def borrowedFrom : Nat → List ValueId → ValueId → Bool
  | 0, _, _ => false
  | fuel + 1, seen, v =>
    if v ∈ seen then false
    else if isHandleBorrow f v then true
    else
      match aliasOf f v with
      | some (some w) => borrowedFrom fuel (v :: seen) w
      | some none | none => false

def isBorrowedHandle (operand : Operand) : Bool :=
  (valueOf operand).any (borrowedFrom f ((positions f).length + 1) [])

/-- The operands an instruction closes, consumes or releases. -/
def endedOperands (instruction : Instruction) : List Operand :=
  if checkOwnership then
    match instruction.opcode with
    | .HandleClose | .HandleConsume | .CallbackClose | .Drop => instruction.operands.take 1
    | .FfiCall =>
      ((instruction.target.ffiParamOwnership.zip instruction.operands).filter
        (·.1 == .Consumed)).map (·.2)
    | .CallNative =>
      ((instruction.target.nativeParamOwnership.zip instruction.operands).filter
        (·.1 == .Consumed)).map (·.2)
    | _ => []
  else []

/-- The value one ended operand adds. A borrowed handle is reported instead. -/
def endOperand (ended : Finset ValueId) (operand : Operand) : Finset ValueId :=
  if isBorrowedHandle f operand then ended
  else
    match root f operand with
    | none => ended
    | some v => insert v ended

/-- A store or a borrow initializes its slot; a definition makes a fresh value. -/
def applySafety (instruction : Instruction) (state : SafetyState) : SafetyState :=
  let initialized :=
    if instruction.opcode = .Store ∨ instruction.opcode = .Borrow then
      insert instruction.slot state.initialized
    else state.initialized
  let fresh :=
    if instruction.result ≠ kNoTemp ∧ aliasOf f (.temp instruction.result) = none then
      state.ended.erase (.temp instruction.result)
    else state.ended
  ⟨initialized, (endedOperands checkOwnership instruction).foldl (endOperand f) fresh⟩

/-- The state at the end of a block, and the join of the states an exception escapes with. -/
def safetyTransfer (b : BasicBlock) (input : SafetyState) : SafetyState × SafetyState :=
  escapeTransfer (applySafety checkOwnership f)
    (fun instruction => (opcodeShape instruction.opcode).mayThrow) b.instructions
    (b.terminator.kind == .Throw) input

/-- A value that some path ended cannot be used. -/
def checkUse (state : SafetyState) (operand : Operand) (block : BlockId) (index : Option Nat) :
    List Diagnostic :=
  errorIf ((root f operand).any fun v => decide (v ∈ state.ended))
    "use of value after close, consume, or release on a possible path" block index

def safetyErrors (state : SafetyState) (b : BasicBlock) (instruction : Instruction) (index : Nat) :
    List Diagnostic :=
  instruction.operands.flatMap (fun operand => checkUse f state operand b.id (some index)) ++
    (match f.slot instruction.slot with
    | none => []
    | some slot =>
      errorIf ((instruction.opcode == .Load || instruction.opcode == .Move) &&
          !decide (instruction.slot ∈ state.initialized))
        ("local '" ++ slot.name ++ "' may be read before definition") b.id (some index)) ++
    (endedOperands checkOwnership instruction).flatMap fun operand =>
      errorIf (isBorrowedHandle f operand) "a borrowed native handle cannot be closed or consumed"
        b.id (some index)

/-- Whether a returned value is a borrowed parameter, or was loaded from a borrow slot. -/
def returnsBorrow (value : Operand) : Bool :=
  match root f value with
  | none | some (.blockParam _) => false
  | some (.param id) => (f.parameter id).any (·.ownership == .BORROW)
  | some (.temp temp) =>
    match lastDefinition f [.Load] temp with
    | none => false
    | some instruction => (f.slot instruction.slot).any (·.ownership == .BORROW)

def safetyTerminatorErrors (state : SafetyState) (b : BasicBlock) : List Diagnostic :=
  let t := b.terminator
  checkUse f state t.value b.id none ++
    t.edgeArguments.flatten.flatMap (fun argument => checkUse f state argument b.id none) ++
    errorIf (checkOwnership && t.kind == .Return && returnsBorrow f t.value)
      "return of a borrowed value escapes its local/caller lifetime" b.id none

/-- The reporting replay of a block. -/
def safetyReplay (b : BasicBlock) : Nat → List Instruction → SafetyState → List Diagnostic
  | _, [], state => safetyTerminatorErrors checkOwnership f state b
  | index, instruction :: rest, state =>
    safetyErrors checkOwnership f state b instruction index ++
      safetyReplay b (index + 1) rest (applySafety checkOwnership f instruction state)

/-- The state a handler edge hands to its block: its own catch binding is initialized. -/
def bindCatch (handler : ExceptionHandler) (state : SafetyState) : SafetyState :=
  if handler.catchSlot = kNoSlot then state
  else { state with initialized := insert handler.catchSlot state.initialized }

def incomingSafety (out : BlockId → Option (SafetyState × SafetyState)) (id : BlockId) :
    Option SafetyState :=
  let normal := (predecessors f id).filterMap fun pred => (out pred).map (·.1)
  let exceptional := (unwindPredecessors f id).flatMap fun pred =>
    match out pred, f.block pred with
    | some states, some b =>
      (b.exceptionHandlers.filter (·.block == id)).map fun handler => bindCatch handler states.2
    | _, _ => []
  (normal ++ exceptional).foldl mergeFact (if id = f.entryBlock then some {} else none)

def safetyTransferAt (id : BlockId) (input : SafetyState) : SafetyState × SafetyState :=
  match blockAt f id with
  | none => (input, input)
  | some b => safetyTransfer checkOwnership f b input

/-- The slots that can be initialized: those instructions name, and catch slots. -/
def initializableSlots : List SlotId :=
  (positions f).map (·.instruction.slot) ++
    (f.blocks.flatMap (·.exceptionHandlers)).map (·.catchSlot)

/-- The operands instructions have, which every ended value is the root of. -/
def instructionOperands : List Operand := (positions f).flatMap (·.instruction.operands)

/-- How often the two states of a block can change. -/
def safetyHeight : Nat :=
  2 * ((initializableSlots f).length + (instructionOperands f).length)

/-- The blocks the solver visits, in listing order. -/
def safetyOrder : List BlockId := (f.blocks.map (·.id)).filter (· ∈ reachableWithUnwind f)

def solveSafety : Option (Flow BlockId SafetyState (SafetyState × SafetyState)) :=
  solveFlow (incomingSafety f) (safetyTransferAt checkOwnership f) (safetyOrder f)
    ((safetyOrder f).length * (safetyHeight f + 1) + 1)

def appendSafetyAnalysis : List Diagnostic :=
  if isValid f f.entryBlock = false ∨ ¬ f.DistinctIds then []
  else
    match solveSafety checkOwnership f with
    | none => []
    | some flow =>
      f.blocks.flatMap fun b =>
        match flow.output b.id, flow.input b.id with
        | some _, some input => safetyReplay checkOwnership f b 0 b.instructions input
        | _, _ => []

end

section
variable {checkOwnership : Bool} {f : Function}
variable {a b : SafetyState} {state : SafetyState}

def slotsOf (f : Function) : Finset SlotId := (initializableSlots f).toFinset

def valuesOf (f : Function) : Finset ValueId := ((instructionOperands f).filterMap (root f)).toFinset

/-- A state that only speaks of slots and values of the function. -/
structure Local (f : Function) (state : SafetyState) : Prop where
  initialized : state.initialized ⊆ slotsOf f
  ended : state.ended ⊆ valuesOf f

/-- How far a state has risen. -/
def SafetyState.rank (f : Function) (state : SafetyState) : Nat :=
  ((slotsOf f).card - state.initialized.card) + state.ended.card

theorem Local.rank_le (h : Local f state) :
    state.rank f ≤ (initializableSlots f).length + (instructionOperands f).length := by
  have hslots : (slotsOf f).card ≤ (initializableSlots f).length := List.toFinset_card_le _
  have hvalues : (valuesOf f).card ≤ (instructionOperands f).length :=
    (List.toFinset_card_le _).trans (List.length_filterMap_le _ _)
  have hended := Finset.card_le_card h.ended
  unfold SafetyState.rank
  omega

theorem SafetyState.rank_le (hle : a ≤ b) (ha : Local f a) :
    a.rank f ≤ b.rank f := by
  have hinitialized := Finset.card_le_card hle.1
  have hended := Finset.card_le_card hle.2
  have hcap := Finset.card_le_card ha.initialized
  unfold SafetyState.rank
  omega

theorem SafetyState.eq_of_rank (hle : a ≤ b) (ha : Local f a) (hrank : b.rank f ≤ a.rank f) :
    a = b := by
  have hinitialized := Finset.card_le_card hle.1
  have hended := Finset.card_le_card hle.2
  have hcap := Finset.card_le_card ha.initialized
  unfold SafetyState.rank at hrank
  refine le_antisymm hle ⟨?_, ?_⟩
  · exact (Finset.eq_of_subset_of_card_le hle.1 (by omega)).ge
  · exact (Finset.eq_of_subset_of_card_le hle.2 (by omega)).ge

theorem Local.empty : Local f {} := ⟨Finset.empty_subset _, Finset.empty_subset _⟩

theorem Local.sup (ha : Local f a) (hb : Local f b) : Local f (a ⊔ b) :=
  ⟨Finset.inter_subset_left.trans ha.initialized, Finset.union_subset ha.ended hb.ended⟩

theorem endedOperands_subset (instruction : Instruction) :
    ∀ operand ∈ endedOperands checkOwnership instruction, operand ∈ instruction.operands := by
  have hzip : ∀ (ownership : List NativeOwnership) (operand : Operand),
      operand ∈ ((ownership.zip instruction.operands).filter (·.1 == .Consumed)).map (·.2) →
      operand ∈ instruction.operands := by
    intro ownership operand hmem
    obtain ⟨pair, hpair, rfl⟩ := List.mem_map.mp hmem
    exact (List.of_mem_zip (List.mem_filter.mp hpair).1).2
  intro operand hmem
  unfold endedOperands at hmem
  split at hmem
  · split at hmem
    case h_1 | h_2 | h_3 | h_4 => exact List.mem_of_mem_take hmem
    case h_5 | h_6 => exact hzip _ operand hmem
    case h_7 => cases hmem
  · cases hmem

theorem endOperand_mono {a b : Finset ValueId} (h : a ⊆ b) (operand : Operand) :
    endOperand f a operand ⊆ endOperand f b operand := by
  unfold endOperand
  split
  · exact h
  · split
    · exact h
    · exact Finset.insert_subset_insert _ h

theorem foldl_endOperand_mono (operands : List Operand) {a b : Finset ValueId} (h : a ⊆ b) :
    operands.foldl (endOperand f) a ⊆ operands.foldl (endOperand f) b := by
  induction operands generalizing a b with
  | nil => exact h
  | cons operand operands ih => exact ih (endOperand_mono h operand)

theorem foldl_endOperand_subset {operands : List Operand}
    (hoperands : ∀ operand ∈ operands, operand ∈ instructionOperands f) {a : Finset ValueId}
    (h : a ⊆ valuesOf f) : operands.foldl (endOperand f) a ⊆ valuesOf f := by
  induction operands generalizing a with
  | nil => exact h
  | cons operand operands ih =>
    refine ih (fun o ho => hoperands o (List.mem_cons_of_mem _ ho)) ?_
    unfold endOperand
    split
    · exact h
    · split
      next => exact h
      next v hv =>
        refine Finset.insert_subset (List.mem_toFinset.mpr ?_) h
        exact List.mem_filterMap.mpr ⟨operand, hoperands operand List.mem_cons_self, hv⟩

theorem applySafety_mono (instruction : Instruction) (h : a ≤ b) :
    applySafety checkOwnership f instruction a ≤ applySafety checkOwnership f instruction b := by
  unfold applySafety
  refine ⟨?_, foldl_endOperand_mono _ ?_⟩
  · simp only
    split
    · exact Finset.insert_subset_insert _ h.1
    · exact h.1
  · split
    · exact Finset.erase_subset_erase _ h.2
    · exact h.2

theorem Local.applySafety (h : Local f state) {place : Position} (hplace : place ∈ positions f) :
    Local f (applySafety checkOwnership f place.instruction state) := by
  unfold Verifier.applySafety
  refine ⟨?_, foldl_endOperand_subset (fun operand hmem => ?_) ?_⟩
  · simp only
    split
    · refine Finset.insert_subset (List.mem_toFinset.mpr ?_) h.initialized
      exact List.mem_append_left _ (List.mem_map_of_mem hplace)
    · exact h.initialized
  · exact List.mem_flatMap.mpr ⟨place, hplace, endedOperands_subset _ operand hmem⟩
  · split
    · exact (Finset.erase_subset _ _).trans h.ended
    · exact h.ended

theorem bindCatch_mono (handler : ExceptionHandler) (h : a ≤ b) :
    bindCatch handler a ≤ bindCatch handler b := by
  unfold bindCatch
  split
  · exact h
  · exact ⟨Finset.insert_subset_insert _ h.1, h.2⟩

theorem Local.bindCatch (h : Local f state) {b : BasicBlock} (hb : b ∈ f.blocks)
    {handler : ExceptionHandler} (hhandler : handler ∈ b.exceptionHandlers) :
    Local f (bindCatch handler state) := by
  unfold Verifier.bindCatch
  split
  · exact h
  · refine ⟨Finset.insert_subset (List.mem_toFinset.mpr ?_) h.initialized, h.ended⟩
    refine List.mem_append_right _ (List.mem_map_of_mem ?_)
    exact List.mem_flatMap.mpr ⟨b, hb, hhandler⟩

/-- Where the incoming states of a block come from: the state at the end of a predecessor,
    or a state escaping one of its handlers' blocks with the catch binding made. -/
theorem mem_incomingSafety {out : BlockId → Option (SafetyState × SafetyState)} {id : BlockId}
    (h : state ∈ (predecessors f id).filterMap (fun pred => (out pred).map (·.1)) ++
      (unwindPredecessors f id).flatMap fun pred =>
        match out pred, f.block pred with
        | some states, some b =>
          (b.exceptionHandlers.filter (·.block == id)).map fun handler => bindCatch handler states.2
        | _, _ => []) :
    (∃ pred states, pred ∈ predecessors f id ∧ out pred = some states ∧ states.1 = state) ∨
      ∃ pred states b handler, pred ∈ unwindPredecessors f id ∧ out pred = some states ∧
        f.block pred = some b ∧ handler ∈ b.exceptionHandlers ∧ handler.block = id ∧
        bindCatch handler states.2 = state := by
  rw [List.mem_append] at h
  refine h.imp (fun h => ?_) fun h => ?_
  · obtain ⟨pred, hpred, hmap⟩ := List.mem_filterMap.mp h
    obtain ⟨states, hstates, rfl⟩ := Option.map_eq_some_iff.mp hmap
    exact ⟨pred, states, hpred, hstates, rfl⟩
  · obtain ⟨pred, hpred, hmem⟩ := List.mem_flatMap.mp h
    split at hmem
    next states b hstates hb =>
      obtain ⟨handler, hhandler, rfl⟩ := List.mem_map.mp hmem
      obtain ⟨hhandler, hid⟩ := List.mem_filter.mp hhandler
      exact ⟨pred, states, b, handler, hpred, hstates, hb, hhandler, by simpa using hid, rfl⟩
    next => cases hmem

/-- The safety analysis is monotone, and its states can rise only so often. -/
theorem safety_ascending (checkOwnership : Bool) (f : Function) :
    Ascending (incomingSafety f) (safetyTransferAt checkOwnership f)
      (fun states => Local f states.1 ∧ Local f states.2)
      (fun states => states.1.rank f + states.2.rank f) (safetyHeight f) where
  gather_mono := by
    intro out out' id hout
    refine foldl_mergeFact_mono fun x hx => ?_
    rcases mem_incomingSafety hx with ⟨pred, states, hpred, hstates, rfl⟩ |
      ⟨pred, states, b, handler, hpred, hstates, hb, hhandler, hid, rfl⟩
    · obtain ⟨states', hstates', hle⟩ := hout pred states hstates
      refine ⟨states'.1, List.mem_append_left _ ?_, hle.1⟩
      exact List.mem_filterMap.mpr ⟨pred, hpred, by rw [hstates']; rfl⟩
    · obtain ⟨states', hstates', hle⟩ := hout pred states hstates
      refine ⟨bindCatch handler states'.2, List.mem_append_right _ ?_, bindCatch_mono handler hle.2⟩
      refine List.mem_flatMap.mpr ⟨pred, hpred, ?_⟩
      rw [hstates', hb]
      exact List.mem_map_of_mem (List.mem_filter.mpr ⟨hhandler, by simp [hid]⟩)
  transfer_mono := by
    intro id input input' hle
    unfold safetyTransferAt
    split
    · exact ⟨hle, hle⟩
    · exact escapeTransfer_mono (fun i _ _ h => applySafety_mono i h) _ _ hle
  small_transfer := by
    intro out id input hout hinput
    have hlocal : Local f input := by
      refine foldl_mergeFact_keeps (fun _ _ => Local.sup) (fun x hx => ?_) (fun x hx => ?_) _ hinput
      · split at hx
        · cases hx
          exact Local.empty
        · cases hx
      · rcases mem_incomingSafety hx with ⟨pred, states, -, hstates, rfl⟩ |
          ⟨pred, states, b, handler, -, hstates, hb, hhandler, -, rfl⟩
        · exact (hout pred states hstates).1
        · refine (hout pred states hstates).2.bindCatch ?_ hhandler
          unfold Function.block at hb
          split at hb
          · cases hb
          · exact List.mem_of_find?_eq_some hb
    unfold safetyTransferAt
    split
    · exact ⟨hlocal, hlocal⟩
    next b hb =>
      refine escapeTransfer_keeps (fun _ _ => Local.sup) (fun i hmem state hstate => ?_) _ hlocal
      obtain ⟨place, hplace, rfl⟩ := exists_position (blockAt_mem hb).1 hmem
      exact hstate.applySafety hplace
  rank_lt := by
    rintro ⟨a, u⟩ ⟨b, v⟩ ⟨ha, hu⟩ - hlt
    by_contra hrank
    simp only at ha hu hrank
    have hab : a ≤ b := hlt.le.1
    have huv : u ≤ v := hlt.le.2
    have hra := SafetyState.rank_le hab ha
    have hru := SafetyState.rank_le huv hu
    have heqa := SafetyState.eq_of_rank hab ha (by omega)
    have hequ := SafetyState.eq_of_rank huv hu (by omega)
    exact hlt.ne (by rw [heqa, hequ])
  rank_le := by
    intro states hlocal
    have hstate := hlocal.1.rank_le
    have hunwind := hlocal.2.rank_le
    unfold safetyHeight
    omega

/-- The loop of the safety analysis terminates on every function. -/
theorem solveSafety_spec (checkOwnership : Bool) (f : Function) :
    ∃ flow, solveSafety checkOwnership f = some flow ∧
      Solved (incomingSafety f) (safetyTransferAt checkOwnership f) (safetyOrder f) flow :=
  solveFlow_spec (safety_ascending checkOwnership f) (safetyOrder f) (Nat.lt_succ_self _)

end

end zl.mir.Verifier
