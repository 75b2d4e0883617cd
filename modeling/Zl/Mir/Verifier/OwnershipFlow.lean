import Std.Data.ExtTreeMap
import Zl.Fixpoint.Escape
import Zl.Mir.Verifier.Operands

open zl.fixpoint zl.mir.ControlFlowGraph

namespace zl.mir.Verifier

/-- Borrow slot to root: a slot id, or one past the slots plus a parameter index. Root zero stands
    for conflicting or unknown roots. -/
abbrev BorrowRoots := Std.ExtTreeMap SlotId SlotId compare

/-- The root recorded for conflicting or unknown owners. -/
abbrev unknownRoot : SlotId := 0

/-- Move, release and borrow state. Moved and released storage and bound borrows are what some
    path did; `mustBorrows` is what every path did. -/
structure FlowState where
  moved : Finset SlotId := ∅
  dropped : Finset SlotId := ∅
  droppedParams : Finset ParamId := ∅
  borrows : BorrowRoots := ∅
  mustBorrows : Finset SlotId := ∅
  deriving DecidableEq

/-- One root of the second map merged into the first. -/
def joinBorrow (out : BorrowRoots) (entry : SlotId × SlotId) : BorrowRoots :=
  match out[entry.1]? with
  | none => out.insert entry.1 entry.2
  | some owner => if owner = entry.2 then out else out.insert entry.1 unknownRoot

def joinBorrows (a b : BorrowRoots) : BorrowRoots := b.toList.foldl joinBorrow a

def FlowState.join (a b : FlowState) : FlowState where
  moved := a.moved ∪ b.moved
  dropped := a.dropped ∪ b.dropped
  droppedParams := a.droppedParams ∪ b.droppedParams
  borrows := joinBorrows a.borrows b.borrows
  mustBorrows := a.mustBorrows ∩ b.mustBorrows

/-- What two paths together say about one borrow slot. -/
def joinRoot : Option SlotId → Option SlotId → Option SlotId
  | none, b => b
  | a, none => a
  | some a, some b => some (if a = b then a else unknownRoot)

/-- A slot not bound is below every root, and every root below the unknown one. -/
def RootLe (a b : Option SlotId) : Prop := a = none ∨ a = b ∨ b = some unknownRoot

theorem RootLe.trans {a b c : Option SlotId} (hab : RootLe a b) (hbc : RootLe b c) : RootLe a c := by
  unfold RootLe at *
  grind

theorem RootLe.antisymm {a b : Option SlotId} (hab : RootLe a b) (hba : RootLe b a) : a = b := by
  unfold RootLe at *
  grind

theorem rootLe_joinRoot_left (a b : Option SlotId) : RootLe a (joinRoot a b) := by
  unfold RootLe joinRoot
  grind

theorem rootLe_joinRoot_right (a b : Option SlotId) : RootLe b (joinRoot a b) := by
  unfold RootLe joinRoot
  grind

theorem joinRoot_le {a b c : Option SlotId} (hac : RootLe a c) (hbc : RootLe b c) :
    RootLe (joinRoot a b) c := by
  unfold RootLe joinRoot at *
  grind

theorem getElem?_joinBorrow (out : BorrowRoots) (entry : SlotId × SlotId) (k : SlotId) :
    (joinBorrow out entry)[k]? =
      if entry.1 = k then joinRoot out[k]? (some entry.2) else out[k]? := by
  unfold joinBorrow
  by_cases hk : entry.1 = k
  · subst hk
    cases hout : out[entry.1]? with
    | none => simp [joinRoot]
    | some owner =>
      by_cases heq : owner = entry.2
      · simp [joinRoot, heq, hout]
      · simp [joinRoot, heq]
  · cases hout : out[entry.1]? with
    | none => simp [Std.ExtTreeMap.getElem?_insert, hk]
    | some owner =>
      by_cases heq : owner = entry.2
      · simp [heq, hk]
      · simp [heq, Std.ExtTreeMap.getElem?_insert, hk]

theorem getElem?_joinBorrows (a b : BorrowRoots) (k : SlotId) :
    (joinBorrows a b)[k]? = joinRoot a[k]? b[k]? := by
  have hfold : ∀ (entries : List (SlotId × SlotId)) (out : BorrowRoots),
      entries.Pairwise (fun x y => ¬ compare x.1 y.1 = .eq) →
      (entries.foldl joinBorrow out)[k]? =
        joinRoot out[k]? ((entries.find? (·.1 == k)).map (·.2)) := by
    intro entries
    induction entries with
    | nil =>
      intro out _
      cases h : out[k]? <;> simp [joinRoot, h]
    | cons entry entries ih =>
      intro out hdistinct
      obtain ⟨hhead, htail⟩ := List.pairwise_cons.mp hdistinct
      rw [List.foldl_cons, ih _ htail, getElem?_joinBorrow]
      by_cases hk : entry.1 = k
      · have hnone : entries.find? (·.1 == k) = none := by
          rw [List.find?_eq_none]
          intro other hother
          have hne := hhead other hother
          simp only [Nat.compare_eq_eq] at hne
          simpa [hk] using fun h : other.1 = k => hne (by rw [hk, h])
        rw [if_pos hk, hnone, List.find?_cons_of_pos (by simp [hk])]
        cases h : out[k]? <;> simp [joinRoot]
      · rw [if_neg hk, List.find?_cons_of_neg (by simp [hk])]
  rw [joinBorrows, hfold _ _ Std.ExtTreeMap.distinct_keys_toList]
  congr 1
  cases hb : b[k]? with
  | none =>
    have hnone : b.toList.find? (·.1 == k) = none := by
      rw [List.find?_eq_none]
      rintro ⟨slot, owner⟩ hmem heq
      rw [Std.ExtTreeMap.mem_toList_iff_getElem?_eq_some] at hmem
      have heq : slot = k := by simpa using heq
      rw [heq, hb] at hmem
      cases hmem
    rw [hnone]
    rfl
  | some owner =>
    have hmem := Std.ExtTreeMap.mem_toList_iff_getElem?_eq_some.mpr hb
    cases hfind : b.toList.find? (·.1 == k) with
    | none =>
      have hnone := List.find?_eq_none.mp hfind _ hmem
      simp at hnone
    | some entry =>
      obtain ⟨slot, other⟩ := entry
      have hslot : slot = k := by simpa using List.find?_some hfind
      have hother := Std.ExtTreeMap.mem_toList_iff_getElem?_eq_some.mp (List.mem_of_find?_eq_some hfind)
      rw [hslot, hb] at hother
      cases hother
      rfl

/-- The facts of the first state hold in the second too, which may assume less. -/
structure FlowLe (a b : FlowState) : Prop where
  moved : a.moved ⊆ b.moved
  dropped : a.dropped ⊆ b.dropped
  droppedParams : a.droppedParams ⊆ b.droppedParams
  borrows : ∀ k : SlotId, RootLe a.borrows[k]? b.borrows[k]?
  mustBorrows : b.mustBorrows ⊆ a.mustBorrows

instance : PartialOrder FlowState where
  le := FlowLe
  le_refl a := ⟨fun _ h => h, fun _ h => h, fun _ h => h, fun _ => Or.inr (Or.inl rfl), fun _ h => h⟩
  le_trans a b c hab hbc :=
    ⟨hab.moved.trans hbc.moved, hab.dropped.trans hbc.dropped,
      hab.droppedParams.trans hbc.droppedParams, fun k => (hab.borrows k).trans (hbc.borrows k),
      hbc.mustBorrows.trans hab.mustBorrows⟩
  le_antisymm a b hab hba := by
    have hborrows : a.borrows = b.borrows :=
      Std.ExtTreeMap.ext_getElem? fun k => (hab.borrows k).antisymm (hba.borrows k)
    have hmoved := hab.moved.antisymm hba.moved
    have hdropped := hab.dropped.antisymm hba.dropped
    have hparams := hab.droppedParams.antisymm hba.droppedParams
    have hmust := hba.mustBorrows.antisymm hab.mustBorrows
    cases a
    cases b
    simp only at *
    rw [hmoved, hdropped, hparams, hborrows, hmust]

/-- The join at a merge is the least state that both incoming states imply. -/
instance : SemilatticeSup FlowState where
  sup := FlowState.join
  le_sup_left a b := by
    refine ⟨Finset.subset_union_left, Finset.subset_union_left, Finset.subset_union_left,
      fun k => ?_, Finset.inter_subset_left⟩
    rw [FlowState.join, getElem?_joinBorrows]
    exact rootLe_joinRoot_left _ _
  le_sup_right a b := by
    refine ⟨Finset.subset_union_right, Finset.subset_union_right, Finset.subset_union_right,
      fun k => ?_, Finset.inter_subset_right⟩
    rw [FlowState.join, getElem?_joinBorrows]
    exact rootLe_joinRoot_right _ _
  sup_le a b c hac hbc := by
    refine ⟨Finset.union_subset hac.moved hbc.moved, Finset.union_subset hac.dropped hbc.dropped,
      Finset.union_subset hac.droppedParams hbc.droppedParams, fun k => ?_,
      Finset.subset_inter hac.mustBorrows hbc.mustBorrows⟩
    rw [FlowState.join, getElem?_joinBorrows]
    exact joinRoot_le (hac.borrows k) (hbc.borrows k)

section
variable (f : Function)

/-- The slot the last load or move listed for a temp takes its value from, or no slot. -/
def provenance (temp : TempId) : SlotId :=
  let isSource := fun place : Position =>
    place.instruction.result == temp &&
      (place.instruction.opcode == .Load || place.instruction.opcode == .Move)
  if temp = kNoTemp then kNoSlot
  else (((positions f).reverse.find? isSource).map (·.instruction.slot)).getD kNoSlot

/-- The slot a value was loaded or moved from, or no slot when it has no provenance. -/
def ownerSlotOf (operand : Operand) : SlotId :=
  if operand.kind = .Temp then provenance f operand.index else kNoSlot

/-- Parameter roots are kept apart from slot roots. -/
def paramRoot (index : ParamId) : SlotId := f.slots.length + 1 + index

/-- The root a borrow binds its slot to. -/
def borrowRoot (instruction : Instruction) : SlotId :=
  let owner := instruction.operands.headD Operand.none
  if owner.kind = .Param then paramRoot f owner.index else ownerSlotOf f owner

/-- What a drop releases: a parameter, a slot, or a value with no slot provenance. -/
inductive DropTarget where
  | param (id : ParamId)
  | slot (id : SlotId)
  | nothing
  deriving DecidableEq, Repr

def dropTarget (instruction : Instruction) : DropTarget :=
  if instruction.slot ≠ kNoSlot then .slot instruction.slot
  else
    let value := instruction.operands.headD Operand.none
    if value.kind = .Param then .param value.index
    else if ownerSlotOf f value = kNoSlot then .nothing
    else .slot (ownerSlotOf f value)

/-- The effect of one instruction on the state. A store clears the release record only. -/
def applyInstruction (instruction : Instruction) (state : FlowState) : FlowState :=
  match instruction.opcode with
  | .Store => { state with dropped := state.dropped.erase instruction.slot }
  | .Move => { state with moved := insert instruction.slot state.moved }
  | .Borrow =>
    { state with borrows := state.borrows.insert instruction.slot (borrowRoot f instruction),
                 mustBorrows := insert instruction.slot state.mustBorrows }
  | .EndBorrow =>
    { state with borrows := state.borrows.erase instruction.slot,
                 mustBorrows := state.mustBorrows.erase instruction.slot }
  | .Drop =>
    match dropTarget f instruction with
    | .param id => { state with droppedParams := insert id state.droppedParams }
    | .slot id => { state with dropped := insert id state.dropped }
    | .nothing => state
  | _ => state

/-- The state at the end of a block, and the join of the states an exception escapes with: those
    around each instruction that may throw, and the one a throw ends with. -/
def transfer (b : BasicBlock) (input : FlowState) : FlowState × FlowState :=
  escapeTransfer (applyInstruction f) (fun instruction => (opcodeShape instruction.opcode).mayThrow)
    b.instructions (b.terminator.kind == .Throw) input

/-- Everything after the instruction is a drop, and the block returns. -/
def isTrailingCleanup (b : BasicBlock) (index : Nat) : Bool :=
  b.terminator.kind == .Return && (b.instructions.drop (index + 1)).all (·.opcode == .Drop)

/-- Whether a borrow's lifetime anchors to an owned value of this frame. Each round looks at a
    borrow slot not seen before. -/
def borrowRootsInOwned (state : FlowState) : Nat → List SlotId → SlotId → Bool
  | 0, _, _ => false
  | fuel + 1, seen, borrowSlot =>
    if borrowSlot ∈ seen then false
    else
      match state.borrows[borrowSlot]? with
      | none => false
      | some owner =>
        if owner = unknownRoot then false
        else if owner > f.slots.length then
          let param := owner - f.slots.length - 1
          !decide (param ∈ state.droppedParams) && (f.parameter param).any (·.ownership == .OWNED)
        else
          match f.slot owner with
          | none => false
          | some slot =>
            if owner ∈ state.moved ∨ owner ∈ state.dropped then false
            else if slot.ownership = .OWNED then true
            else if slot.ownership ≠ .BORROW then false
            else borrowRootsInOwned state fuel (borrowSlot :: seen) owner

def localName (id : SlotId) : String :=
  match f.slot id with
  | none => "an unknown local"
  | some slot => "local '" ++ slot.name ++ "'"

/-- The first borrow that is or may be rooted in the slot. -/
def borrowOf (state : FlowState) (owner : SlotId) : Option SlotId :=
  (state.borrows.toList.find? fun entry => entry.2 == owner || entry.2 == unknownRoot).map (·.1)

/-- A value that was moved or released cannot be used. -/
def checkLive (state : FlowState) (slot : SlotId) (subject : String) (block : BlockId) (index : Nat) :
    List Diagnostic :=
  if slot ∈ state.moved then errorIf true (subject ++ " after it was moved") block (some index)
  else
    errorIf (decide (slot ∈ state.dropped)) (subject ++ " after it was dropped") block (some index)

def checkDrop (state : FlowState) (b : BasicBlock) (instruction : Instruction) (index : Nat) :
    List Diagnostic :=
  let slotName := localName f instruction.slot
  match dropTarget f instruction with
  | .nothing => []
  | .param id =>
    errorIf (decide (id ∈ state.droppedParams))
      "drop of parameter after it was dropped; a resource releases exactly once" b.id (some index)
  | .slot target =>
    (if target ∈ state.moved then
      errorIf true ("drop of " ++ slotName ++ " after it was moved") b.id (some index)
    else
      errorIf (decide (target ∈ state.dropped))
        ("drop of " ++ slotName ++ " after it was dropped; a resource releases exactly once")
        b.id (some index)) ++
    if isTrailingCleanup b index then []
    else
      match borrowOf state target with
      | none => []
      | some borrowSlot =>
        errorIf true ("drop of " ++ slotName ++ " while it is borrowed by " ++
          localName f borrowSlot ++ "; the borrow would access a released resource")
          b.id (some index)

def checkBorrow (state : FlowState) (b : BasicBlock) (instruction : Instruction) (index : Nat) :
    List Diagnostic :=
  let owner := instruction.operands.headD Operand.none
  let root := borrowRoot f instruction
  errorIf (owner.kind == .Param && decide (owner.index ∈ state.droppedParams))
    "borrow of parameter after it was dropped" b.id (some index) ++
  if root ≠ unknownRoot ∧ root ∈ state.moved then
    errorIf true ("borrow of " ++ localName f root ++ " after it was moved") b.id (some index)
  else
    errorIf (root != unknownRoot && decide (root ∈ state.dropped))
      ("borrow of " ++ localName f root ++
        " after it was dropped; a borrow cannot outlive a released owner") b.id (some index)

/-- What the reporting replay says about one instruction. -/
def flowErrors (state : FlowState) (b : BasicBlock) (instruction : Instruction) (index : Nat) :
    List Diagnostic :=
  let slotName := localName f instruction.slot
  let error := fun (bad : Bool) message => errorIf bad message b.id (some index)
  match instruction.opcode with
  | .Store => checkLive state instruction.slot ("assignment to " ++ slotName) b.id index
  | .Load =>
    error ((f.slot instruction.slot).any (·.ownership == .BORROW) &&
        !decide (instruction.slot ∈ state.mustBorrows))
      ("read of " ++ slotName ++ " without an active borrow on every path") ++
    checkLive state instruction.slot ("read of " ++ slotName) b.id index
  | .Move =>
    (if instruction.slot ∈ state.moved then
      error true ("move of " ++ slotName ++ " after it was already moved")
    else
      error (decide (instruction.slot ∈ state.dropped))
        ("move of " ++ slotName ++ " after it was dropped")) ++
    match borrowOf state instruction.slot with
    | none => []
    | some borrowSlot =>
      error true ("move of " ++ slotName ++ " while it is borrowed by " ++ localName f borrowSlot)
  | .Borrow => checkBorrow f state b instruction index
  | .EndBorrow =>
    error (!decide (instruction.slot ∈ state.mustBorrows))
      ("end_borrow of " ++ slotName ++ ", which does not hold an active borrow here")
  | .Drop => checkDrop f state b instruction index
  | .Await =>
    state.borrows.toList.flatMap fun entry =>
      let borrow := match f.slot entry.1 with
        | none => "slot " ++ toString entry.1
        | some slot => "local '" ++ slot.name ++ "'"
      error (!borrowRootsInOwned f state (state.borrows.size + 1) [] entry.1)
        ("await while borrow " ++ borrow ++ " without an owned-frame lifetime is active; " ++
          "end the borrow or use an owned/shared value before suspension")
  | _ => []

/-- The reporting replay of a list of instructions that starts at an index. -/
def replay (b : BasicBlock) : Nat → List Instruction → FlowState → List Diagnostic
  | _, [], _ => []
  | index, instruction :: rest, state =>
    flowErrors f state b instruction index ++
      replay b (index + 1) rest (applyInstruction f instruction state)

/-- What the known predecessors of a block hand it: their states along normal edges, and the
    states exceptions escape with along unwind edges. The entry starts from nothing. -/
def incomingState (out : BlockId → Option (FlowState × FlowState)) (id : BlockId) :
    Option FlowState :=
  ((predecessors f id).filterMap (fun pred => (out pred).map (·.1)) ++
    (unwindPredecessors f id).filterMap (fun pred => (out pred).map (·.2))).foldl mergeFact
      (if id = f.entryBlock then some {} else none)

def transferAt (id : BlockId) (input : FlowState) : FlowState × FlowState :=
  match blockAt f id with
  | none => (input, input)
  | some b => transfer f b input

/-- The blocks the solver visits, in listing order. -/
def flowOrder : List BlockId := (f.blocks.map (·.id)).filter (· ∈ reachableWithUnwind f)

/-- How often the two states of a block can change: each instruction names one slot, which counts
    five times in a state, and at most one parameter. -/
def flowHeight : Nat := 12 * (positions f).length

def solveOwnershipFlow : Option (Flow BlockId FlowState (FlowState × FlowState)) :=
  solveFlow (incomingState f) (transferAt f) (flowOrder f)
    ((flowOrder f).length * (flowHeight f + 1) + 1)

def checkOwnershipFlow : List Diagnostic :=
  if ¬ f.DistinctIds ∨ isValid f f.entryBlock = false then []
  else
    match solveOwnershipFlow f with
    | none => []
    | some flow =>
      f.blocks.flatMap fun b =>
        match flow.output b.id, flow.input b.id with
        | some _, some input => replay f b 0 b.instructions input
        | _, _ => []

end

end zl.mir.Verifier
