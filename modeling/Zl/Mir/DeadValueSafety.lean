import Zl.Mir.OperationCanRaise
import Zl.Vm.DeepRecords

open zl.vm zl.vm.value zl.mir.interpreter zl.transition

namespace zl.mir

namespace Function

def uses (f : Function) : List ValueId :=
  f.blocks.flatMap fun b => b.instructions.flatMap instructionUses ++ terminatorUses b.terminator

/-- The slots that an instruction of the function reads. -/
def readSlots (f : Function) : List SlotId :=
  ((f.blocks.flatMap (·.instructions)).filter fun i => i.slot != 0 && slotReadBy i.opcode).map (·.slot)

/-- A store to a slot that nothing reads can be left out of the plainest kind of slot. -/
def storeIsRemovable (f : Function) (slot : SlotId) : Bool :=
  f.captures.isEmpty && (f.slot slot).any fun declaration =>
    !declaration.isCatchBinding && declaration.ownership == .GC

/-- The instructions that are kept. -/
def keep (f : Function) (kept : Instruction → Bool) : Function :=
  { f with blocks := f.blocks.map fun b => { b with instructions := b.instructions.filter kept } }

section
variable {f : Function} {kept : Instruction → Bool}

theorem keep_keep (f : Function) (kept kept' : Instruction → Bool) :
    (f.keep kept).keep kept' = f.keep fun i => kept i && kept' i := by
  simp only [keep, List.map_map, Function.comp_def, List.filter_filter, Bool.and_comm]

theorem keep_congr {kept' : Instruction → Bool} (h : ∀ i ∈ f.instructions, kept i = kept' i) :
    f.keep kept = f.keep kept' := by
  have hblocks : (f.blocks.map fun b => { b with instructions := b.instructions.filter kept }) =
      f.blocks.map fun b => { b with instructions := b.instructions.filter kept' } := by
    refine List.map_congr_left fun b hb => ?_
    rw [List.filter_congr fun i hi => h i (List.mem_flatMap.mpr ⟨b, hb, hi⟩)]
  rw [keep, hblocks, keep]

theorem keep_true (f : Function) : (f.keep fun _ => true) = f := by
  simp [keep]

theorem instructions_keep : (f.keep kept).instructions = f.instructions.filter kept := by
  rw [instructions, keep, List.flatMap_map, instructions, List.filter_flatMap]

theorem block_keep (id : BlockId) : (f.keep kept).block id = (f.block id).map fun b =>
    { b with instructions := b.instructions.filter kept } := by
  unfold block
  split
  · rfl
  · exact List.find?_map ..

theorem mem_uses_keep {id : ValueId} (h : id ∈ (f.keep kept).uses) : id ∈ f.uses := by
  obtain ⟨b', hb', hid⟩ := List.mem_flatMap.mp h
  obtain ⟨b, hb, rfl⟩ := List.mem_map.mp hb'
  refine List.mem_flatMap.mpr ⟨b, hb,
    List.mem_append.mpr ((List.mem_append.mp hid).imp_left fun hid => ?_)⟩
  obtain ⟨i, hi, hid⟩ := List.mem_flatMap.mp hid
  exact List.mem_flatMap.mpr ⟨i, (List.mem_filter.mp hi).1, hid⟩

theorem mem_readSlots_iff {slot : SlotId} :
    slot ∈ f.readSlots ↔ ∃ i ∈ f.instructions, i.slot = slot ∧ slot ≠ 0 ∧ slotReadBy i.opcode = true := by
  simp only [readSlots, instructions, List.mem_map, List.mem_filter, Bool.and_eq_true, bne_iff_ne]
  constructor
  · rintro ⟨i, ⟨hi, hne, hread⟩, rfl⟩
    exact ⟨i, hi, rfl, hne, hread⟩
  · rintro ⟨i, hi, rfl, hne, hread⟩
    exact ⟨i, ⟨hi, hne, hread⟩, rfl⟩

theorem mem_readSlots_keep {slot : SlotId} (h : slot ∈ (f.keep kept).readSlots) : slot ∈ f.readSlots := by
  obtain ⟨i, hi, hread⟩ := mem_readSlots_iff.mp h
  rw [instructions_keep] at hi
  exact mem_readSlots_iff.mpr ⟨i, (List.mem_filter.mp hi).1, hread⟩

theorem mem_uses_operand {i : Instruction} {operand : Operand} {id : ValueId}
    (hi : i ∈ f.instructions) (hoperand : operand ∈ i.operands)
    (hid : valueOf operand = some id) : id ∈ f.uses := by
  obtain ⟨b, hb, hi⟩ := List.mem_flatMap.mp hi
  exact List.mem_flatMap.mpr ⟨b, hb,
    List.mem_append.mpr (.inl (List.mem_flatMap.mpr
    ⟨i, hi, List.mem_filterMap.mpr ⟨operand, hoperand, hid⟩⟩))⟩

theorem mem_uses_terminator {b : BasicBlock} {operand : Operand} {id : ValueId} (hb : b ∈ f.blocks)
    (hoperand : operand ∈ b.terminator.value :: b.terminator.edgeArguments.flatten)
    (hid : valueOf operand = some id) : id ∈ f.uses :=
  List.mem_flatMap.mpr ⟨b, hb, List.mem_append.mpr
    (.inr (List.mem_filterMap.mpr ⟨operand, hoperand, hid⟩))⟩

end

end Function

section
variable (types : TypeTable) (library : Library) (module : Module)

def unreadResult (f : Function) (instruction : Instruction) : Bool :=
  instruction.result != kNoTemp && !decide (.temp instruction.result ∈ f.uses) &&
    isRemovableIfResultUnused types library module instruction

def unreadStore (f : Function) (instruction : Instruction) : Bool :=
  instruction.opcode == .Store && instruction.slot != 0 &&
    !decide (instruction.slot ∈ f.readSlots) && f.storeIsRemovable instruction.slot

/-- One round: unread results, and then the stores that nothing reads in what is left. -/
def deadValueRound (f : Function) : Function :=
  let f := f.keep fun i => !unreadResult types library module f i
  f.keep fun i => !unreadStore f i

/-- Rounds as long as they remove something, at most so many. -/
def deadValueRounds : Nat → Function → Function
  | 0, f => f
  | rounds + 1, f =>
    let next := deadValueRound types library module f
    if next = f then f else deadValueRounds rounds next

def eliminateDeadValues (f : Function) : Function := deadValueRounds types library module 64 f

end

/-- Why an instruction may be left out: nothing that is left reads its result, or the slot that it
    stores to. -/
def Unread (types : TypeTable) (library : Library) (module : Module) (left : Function)
    (i : Instruction) : Prop :=
  (i.result ≠ kNoTemp ∧ .temp i.result ∉ left.uses ∧
    isRemovableIfResultUnused types library module i = true) ∨
    (i.opcode = .Store ∧ i.slot ≠ kNoSlot ∧ i.slot ∉ left.readSlots ∧ left.captures = [])

section
variable {types : TypeTable} {library : Library} {module : Module} {f : Function} {i : Instruction}

theorem unread_of_unreadResult {left : Function} (hleft : ∀ id ∈ left.uses, id ∈ f.uses)
    (h : unreadResult types library module f i = true) :
    Unread types library module left i := by
  simp only [unreadResult, Bool.and_eq_true, bne_iff_ne, Bool.not_eq_true', decide_eq_false_iff_not] at h
  exact .inl ⟨h.1.1, fun hmem => h.1.2 (hleft _ hmem), h.2⟩

theorem unread_of_unreadStore {left : Function} (hleft : ∀ slot ∈ left.readSlots,
      slot ∈ f.readSlots) (hcaptures : left.captures = f.captures)
    (h : unreadStore f i = true) : Unread types library module left i := by
  simp only [unreadStore, Function.storeIsRemovable, Bool.and_eq_true, beq_iff_eq, bne_iff_ne,
    Bool.not_eq_true', decide_eq_false_iff_not, List.isEmpty_iff] at h
  exact .inr ⟨h.1.1.1, h.1.1.2, fun hmem => h.1.2 (hleft _ hmem), hcaptures.trans h.2.1⟩

/-- Rounds keep some of the instructions, and leave out only what nothing reads in the end. -/
theorem deadValueRounds_keep (rounds : Nat) (f : Function) : ∃ kept,
    deadValueRounds types library module rounds f = f.keep kept ∧ ∀ i, kept i = false →
    Unread types library module (deadValueRounds types library module rounds f) i := by
  induction rounds generalizing f with
  | zero => exact ⟨fun _ => true, (Function.keep_true f).symm, fun _ h => Bool.noConfusion h⟩
  | succ rounds ih =>
    rw [deadValueRounds]
    split
    · exact ⟨fun _ => true, (Function.keep_true f).symm, fun _ h => Bool.noConfusion h⟩
    · obtain ⟨kept, hkept, hunread⟩ := ih (deadValueRound types library module f)
      rw [hkept] at hunread ⊢
      refine ⟨_, (congrArg (Function.keep · kept) (Function.keep_keep ..)).trans
        (Function.keep_keep ..), fun i hi => ?_⟩
      rw [Bool.and_eq_false_iff, Bool.and_eq_false_iff] at hi
      rcases hi with (hresult | hstore) | hlater
      · exact unread_of_unreadResult
          (fun id hid => Function.mem_uses_keep (Function.mem_uses_keep (Function.mem_uses_keep hid)))
          ((Bool.not_eq_false' ..).mp hresult)
      · exact unread_of_unreadStore (fun slot hslot =>
          Function.mem_readSlots_keep (Function.mem_readSlots_keep hslot)) rfl
          ((Bool.not_eq_false' ..).mp hstore)
      · exact hunread i hlater

theorem eliminateDeadValues_keep (types : TypeTable) (library : Library) (module : Module) (f : Function) :
    eliminateDeadValues types library module f = f.keep
      (fun i => decide (i ∈ (eliminateDeadValues types library module f).instructions)) ∧
      ∀ i ∈ f.instructions, i ∉ (eliminateDeadValues types library module f).instructions →
      Unread types library module (eliminateDeadValues types library module f) i := by
  obtain ⟨kept, hkept, hunread⟩ := @deadValueRounds_keep types library module 64 f
  rw [← eliminateDeadValues] at hkept hunread
  have hmem {i : Instruction} (hi : i ∈ f.instructions) :
      decide (i ∈ (eliminateDeadValues types library module f).instructions) = kept i := by
    rw [hkept, Function.instructions_keep, Bool.eq_iff_iff, decide_eq_true_iff, List.mem_filter]
    exact and_iff_right hi
  constructor
  · exact hkept.trans (Function.keep_congr fun i hi => (hmem hi).symm)
  · intro i hi hleft
    exact hunread i ((hmem hi).symm.trans (decide_eq_false hleft))

end

/-- The slots whose contents can make a difference to a function. -/
def Function.Alive (f : Function) (slot : SlotId) : Prop :=
  f.captures ≠ [] ∨ slot = kNoSlot ∨ slot ∈ f.readSlots

/-- The frames of a function and of what is left of it are at the same place, and agree on
    everything that is left to read. -/
structure SameFrame (left : Function) (frame frame' : Frame) : Prop where
  block : frame'.block = frame.block
  rest : frame'.rest = frame.rest.filter (· ∈ left.instructions)
  values : ∀ id ∈ left.uses, frame'.values id = frame.values id
  slots : ∀ slot, left.Alive slot → frame'.slots slot = frame.slots slot

def Matches {W : Type} (left : Function) : Configuration W → Configuration W → Prop
  | .running frame world, .running frame' world' => SameFrame left frame frame' ∧ world' = world
  | ended, ended' => ended' = ended

section
variable {W : Type} (types : TypeTable) (runtime : Runtime W) (module : Module)

/-- The state of an instruction that the pass leaves out is one that the pass has in mind: a loaded
    slot was stored to, a type test leaves no trace, and the operand values of an operator that does
    not fold to a constant are what the classification takes for granted. -/
def Harmless (frame : Frame) (world : W) (i : Instruction) : Prop :=
  let arguments := i.operands.map (operandValue runtime module frame.values world)
  match i.opcode with
  | .Load => (frame.slots i.slot).isSome = true
  | .TypeTest => (runtime.matchType world i.testedType (arguments.headD .nil)).2 = world
  | op => foldInstruction types runtime.library module i = none → Fits (runtime.memory world) op arguments

/-- The next instruction is harmless, if it is left out. -/
def HarmlessAt (left : Function) : Configuration W → Prop
  | .running frame world => ∀ i ∈ frame.rest.head?, i ∉ left.instructions →
      Harmless types runtime module frame world i
  | _ => True

end

section
variable {W : Type} {runtime : Runtime W} {module : Module} {left : Function} {frame frame' : Frame}
  {world : W} {i : Instruction}

theorem operandValue_congr {values values' : ValueId → gc.Value} {operand : Operand}
    (h : ∀ id, valueOf operand = some id → values id = values' id) :
    operandValue runtime module values world operand =
      operandValue runtime module values' world operand := by
  unfold operandValue
  split
  · rfl
  · split
    next id hid => exact h id hid
    next => rfl

theorem bindParameters_congr {values values' : ValueId → gc.Value}
    {parameters : List BlockParameter} {arguments : List gc.Value}
    {id : ValueId} (h : values' id = values id) :
    bindParameters values' parameters arguments id = bindParameters values parameters arguments id := by
  unfold bindParameters
  induction parameters.zip arguments generalizing values values' with
  | nil => exact h
  | cons binding bindings ih =>
    refine ih ?_
    dsimp only
    rw [Function.update_apply, Function.update_apply, h]

namespace SameFrame

theorem arguments (h : SameFrame left frame frame') {operands : List Operand}
    (huses : ∀ operand ∈ operands, ∀ id, valueOf operand = some id → id ∈ left.uses) :
    operands.map (operandValue runtime module frame'.values world) =
      operands.map (operandValue runtime module frame.values world) :=
  List.map_congr_left fun operand hoperand => operandValue_congr fun id hid =>
    h.values id (huses operand hoperand id hid)

theorem define (h : SameFrame left frame frame') (result : TempId) (v : gc.Value) :
    SameFrame left (frame.define result v) (frame'.define result v) := by
  unfold Frame.define
  split
  · exact h
  · refine ⟨h.block, h.rest, fun id hid => ?_, h.slots⟩
    dsimp only
    rw [Function.update_apply, Function.update_apply, h.values id hid]

theorem setSlot (h : SameFrame left frame frame') (slot : SlotId) (v : Option gc.Value) :
    SameFrame left (frame.setSlot slot v) (frame'.setSlot slot v) := by
  refine ⟨h.block, h.rest, h.values, fun s hs => ?_⟩
  unfold Frame.setSlot
  dsimp only
  rw [Function.update_apply, Function.update_apply, h.slots s hs]

theorem define_left (h : SameFrame left frame frame') {result : TempId}
    (hunread : .temp result ∉ left.uses) (v : gc.Value) :
    SameFrame left (frame.define result v) frame' := by
  unfold Frame.define
  split
  · exact h
  · refine ⟨h.block, h.rest, fun id hid => ?_, h.slots⟩
    have hne : id ≠ .temp result := fun heq => hunread (heq ▸ hid)
    dsimp only
    rw [Function.update_of_ne hne, h.values id hid]

theorem setSlot_left (h : SameFrame left frame frame') {slot : SlotId} (hdead : ¬left.Alive slot)
    (v : Option gc.Value) :
    SameFrame left (frame.setSlot slot v) frame' := by
  refine ⟨h.block, h.rest, h.values, fun s hs => ?_⟩
  have hne : s ≠ slot := fun heq => hdead (heq ▸ hs)
  unfold Frame.setSlot
  dsimp only
  rw [Function.update_of_ne hne, h.slots s hs]

end SameFrame

end

section
variable {W : Type} {runtime : Runtime W} {module : Module} {f left : Function}
  {frame frame' : Frame} {world : W} {i : Instruction}
  (hkeep : left = f.keep fun i => decide (i ∈ left.instructions))
include hkeep

theorem block_left (id : BlockId) :
    left.block id = (f.block id).map fun b =>
      { b with instructions := b.instructions.filter (· ∈ left.instructions) } :=
  (congrArg (·.block id) hkeep).trans (Function.block_keep id)

theorem captures_left : left.captures = f.captures := congrArg (·.captures) hkeep

theorem slotLocal_left (slot : SlotId) : VmBackend.slotLocal left slot = VmBackend.slotLocal f slot := by
  rw [hkeep]
  rfl

theorem captured_left (h : SameFrame left frame frame') : captured left frame' = captured f frame := by
  unfold captured
  rw [captures_left hkeep]
  split
  · rfl
  next hcaptures =>
    funext slot
    exact h.slots slot (.inl fun hnil => hcaptures (by rw [← captures_left hkeep, hnil]; rfl))

theorem raise_left (h : SameFrame left frame frame') (thrown : Thrown) :
    Matches left (raise runtime f frame thrown world) (raise runtime left frame' thrown world) := by
  unfold raise
  rw [h.block, block_left hkeep frame.block, captured_left hkeep h]
  cases f.block frame.block with
  | none => rfl
  | some block =>
    dsimp only [Option.map_some]
    cases runtime.dispatch block.exceptionHandlers thrown world with
    | none => rfl
    | some handler =>
      dsimp only
      rw [block_left hkeep handler.block]
      cases f.block handler.block with
      | none => rfl
      | some target =>
        dsimp only [Option.map_some]
        have hentered : SameFrame left { frame with block := handler.block, rest := target.instructions }
            { frame' with
              block := handler.block
              rest := target.instructions.filter (· ∈ left.instructions) } :=
          ⟨rfl, rfl, h.values, h.slots⟩
        split
        · exact ⟨hentered, rfl⟩
        · exact ⟨hentered.setSlot _ _, rfl⟩

theorem matches_operator (h : SameFrame left frame frame') (result : Except VmError gc.Value) :
    Matches left
      (match result with
      | .ok v => .running (frame.define i.result v) world
      | .error e => raise runtime f frame (.error e) world)
      (match result with
      | .ok v => .running (frame'.define i.result v) world
      | .error e => raise runtime left frame' (.error e) world) := by
  cases result with
  | ok v => exact ⟨h.define _ v, rfl⟩
  | error e => exact raise_left hkeep h _

theorem execute_left (h : SameFrame left frame frame') (hi : i ∈ left.instructions) :
    Matches left (execute runtime module f frame world i) (execute runtime module left frame' world i) := by
  have hslot (hread : slotReadBy i.opcode = true) : frame'.slots i.slot = frame.slots i.slot := by
    refine h.slots i.slot (.inr ?_)
    by_cases hzero : i.slot = kNoSlot
    · exact .inl hzero
    · exact .inr (Function.mem_readSlots_iff.mpr ⟨i, hi, rfl, hzero, hread⟩)
  unfold execute
  rw [h.arguments fun operand hoperand id hid => Function.mem_uses_operand hi hoperand hid,
    slotLocal_left hkeep]
  dsimp only
  split
  · exact ⟨h, rfl⟩
  next hop =>
    rw [hslot (by rw [hop]; rfl)]
    exact matches_operator hkeep h _
  · exact ⟨h.setSlot _ _, rfl⟩
  · exact ⟨h.define _ _, rfl⟩
  · exact matches_operator hkeep h _
  next =>
    split
    · exact matches_operator hkeep h _
    · have hread : (if slotReadBy i.opcode then frame'.slots i.slot else none) =
          if slotReadBy i.opcode then frame.slots i.slot else none := by
        split
        next hread => exact hslot hread
        next => rfl
      rw [hread]
      have hwritten (v : Option gc.Value) :
        SameFrame left (if slotWrittenBy i.opcode then frame.setSlot i.slot v else frame)
          (if slotWrittenBy i.opcode then frame'.setSlot i.slot v else frame') := by
        split
        · exact h.setSlot _ _
        · exact h
      split
      · exact ⟨(hwritten _).define _ _, rfl⟩
      · exact raise_left hkeep (hwritten _) _

theorem enter_left (h : SameFrame left frame frame') {arguments : List Operand} (target : BlockId)
    (huses : ∀ operand ∈ arguments, ∀ id, valueOf operand = some id → id ∈ left.uses) :
    Matches left (enter runtime module f frame world target arguments)
      (enter runtime module left frame' world target arguments) := by
  unfold enter
  rw [block_left hkeep target, h.arguments huses]
  cases f.block target with
  | none => rfl
  | some block =>
    refine ⟨⟨rfl, rfl, fun id hid => ?_, h.slots⟩, rfl⟩
    exact bindParameters_congr (h.values id hid)

theorem terminate_left (h : SameFrame left frame frame') :
    Matches left (terminate runtime module f frame world) (terminate runtime module left frame' world) := by
  unfold terminate
  rw [h.block, block_left hkeep frame.block, captured_left hkeep h]
  cases hblock : f.block frame.block with
  | none => rfl
  | some block =>
    have hmem : { block with instructions := block.instructions.filter (· ∈ left.instructions) } ∈
        left.blocks :=
      (Function.block_eq_some ((block_left hkeep _).trans (congrArg _ hblock))).2.1
    have huses {operand : Operand}
      (hoperand : operand ∈ block.terminator.value :: block.terminator.edgeArguments.flatten)
      (id : ValueId)
        (hid : valueOf operand = some id) : id ∈ left.uses :=
          Function.mem_uses_terminator hmem hoperand hid
    have hvalue : operandValue runtime module frame'.values world block.terminator.value =
        operandValue runtime module frame.values world block.terminator.value :=
      operandValue_congr fun id hid => h.values id (huses List.mem_cons_self id hid)
    dsimp only [Option.map_some]
    rw [hvalue]
    have harguments (edge : Nat) : ∀ operand ∈ block.terminator.argumentsFor edge, ∀ id,
        valueOf operand = some id → id ∈ left.uses := by
      intro operand hoperand
      refine huses (List.mem_cons_of_mem _ (List.mem_flatten.mpr ⟨_, ?_, hoperand⟩))
      rw [Terminator.argumentsFor, List.getD_eq_getElem?_getD] at hoperand ⊢
      cases hedge : block.terminator.edgeArguments[edge]? with
      | none =>
        rw [hedge] at hoperand
        nomatch hoperand
      | some operands => exact List.mem_of_getElem? hedge
    split
    · rfl
    · exact enter_left hkeep h _ (harguments _)
    · exact enter_left hkeep h _ (harguments _)
    · exact enter_left hkeep h _ (harguments _)
    · exact raise_left hkeep h _
    · rfl
    · rfl

end

section
variable {W : Type} {runtime : Runtime W} {types : TypeTable} {module : Module} {f left : Function}
  {frame frame' : Frame} {world : W}
  {i : Instruction}

theorem isNull_completes (memory : Memory) (library : Library) (a : gc.Value) : ∃ v,
    executeBinary library memory .Eq a .nil = .ok v := by
  have hequal : valuesEqual memory a .nil = .ok (decide (a = .nil)) := by
    rw [valuesEqual_plain fun p q (h : _ ∧ gc.Value.nil = _) => gc.Value.noConfusion h.2]
    cases a <;> rfl
  refine ⟨.bool (decide (a = .nil)), ?_⟩
  change binaryCompare memory .Eq a .nil = _
  rw [binaryCompare, if_pos (.inl rfl), hequal]
  rfl

/-- A removable instruction that is harmless completes, and changes no more than its result. -/
theorem execute_removable (hcount : i.opcode ≠ .Nop → Verifier.operandCountOk i = true)
    (hremovable : isRemovableIfResultUnused types runtime.library module i = true)
    (hharmless : Harmless types runtime module frame world i) :
    ∃ after, execute runtime module f frame world i = .running after world ∧
      (after = frame ∨ ∃ v, after = frame.define i.result v) := by
  unfold execute
  dsimp only
  unfold Harmless at hharmless
  split
  next => exact ⟨frame, rfl, .inl rfl⟩
  next hop =>
    rw [hop] at hharmless
    obtain ⟨v, hv⟩ := Option.isSome_iff_exists.mp hharmless
    rw [hv]
    exact ⟨_, rfl, .inr ⟨v, rfl⟩⟩
  next hop =>
    rw [isRemovableIfResultUnused, classifyInstruction, hop] at hremovable
    simp [classifyOpcode] at hremovable
  next hop =>
    rw [hop] at hharmless
    exact ⟨_, congrArg _ hharmless, .inr ⟨_, rfl⟩⟩
  next =>
    obtain ⟨v, hv⟩ := isNull_completes (runtime.memory world) runtime.library
      ((i.operands.map (operandValue runtime module frame.values world)).headD .nil)
    rw [hv]
    exact ⟨_, rfl, .inr ⟨v, rfl⟩⟩
  next hnop hload hstore htest hnull =>
    have hfits (hfold : foldInstruction types runtime.library module i = none) :
        Fits (runtime.memory world) i.opcode
          (i.operands.map (operandValue runtime module frame.values world)) := by
      split at hharmless
      next hop => exact absurd hop hload
      next hop => exact absurd hop htest
      next => exact hharmless hfold
    have hother : i.opcode ∉ [.Nop, .Load, .TypeTest, .IsNull] := by
      simp only [List.mem_cons, List.not_mem_nil, or_false]
      rintro (h | h | h | h)
      exacts [hnop h, hload h, htest h, hnull h]
    obtain ⟨v, hv⟩ := completes_of_fits (hcount hnop) hremovable hother hfits
    rw [hv]
    exact ⟨_, rfl, .inr ⟨v, rfl⟩⟩

/-- An instruction that is left out goes by unnoticed. -/
theorem execute_unread (hcount : i.opcode ≠ .Nop → Verifier.operandCountOk i = true)
    (hunread : Unread types runtime.library module left i)
    (hharmless : Harmless types runtime module frame world i) (h : SameFrame left frame frame') :
    ∃ after, execute runtime module f frame world i = .running after world ∧
      after.block = frame.block ∧ after.rest = frame.rest ∧ SameFrame left after frame' := by
  rcases hunread with ⟨-, hresult, hremovable⟩ | ⟨hop, hslot, hread, hcaptures⟩
  · obtain ⟨after, hafter, rfl | ⟨v, rfl⟩⟩ :=
      @execute_removable W runtime types module f frame world i hcount hremovable hharmless
    · exact ⟨_, hafter, rfl, rfl, h⟩
    · refine ⟨_, hafter, ?_, ?_, h.define_left hresult v⟩
      · unfold Frame.define
        split <;> rfl
      · unfold Frame.define
        split <;> rfl
  · have hdead : ¬left.Alive i.slot := by
      rintro (hsome | hzero | hmem)
      · exact hsome hcaptures
      · exact hslot hzero
      · exact hread hmem
    refine ⟨frame.setSlot i.slot (i.operands.map
      (operandValue runtime module frame.values world)).head?, ?_, rfl, rfl, h.setSlot_left hdead _⟩
    unfold execute
    dsimp only
    rw [hop]

/-- What is left of the block is code of the function. -/
def Inside (f : Function) : Configuration W → Prop
  | .running frame _ => ∀ i ∈ frame.rest, i ∈ f.instructions
  | _ => True

theorem mem_instructions_of_block {id : BlockId} {b : BasicBlock} (hb : f.block id = some b)
    (hi : i ∈ b.instructions) : i ∈ f.instructions :=
  List.mem_flatMap.mpr ⟨b, (Function.block_eq_some hb).2.1, hi⟩

theorem inside_raise (thrown : Thrown) : Inside f (raise runtime f frame thrown world) := by
  unfold raise
  split
  · trivial
  · split
    · trivial
    · split
      · trivial
      next target htarget =>
        dsimp only
        split
        · exact fun i hi => mem_instructions_of_block htarget hi
        · exact fun i hi => mem_instructions_of_block htarget hi

theorem inside_operator (h : ∀ i ∈ frame.rest, i ∈ f.instructions) (result : Except VmError gc.Value) :
    Inside f (match result with
      | .ok v => .running (frame.define i.result v) world
      | .error e => raise runtime f frame (.error e) world) := by
  cases result with
  | ok v => exact fun i hi => h i (@define_rest frame _ v ▸ hi)
  | error e => exact inside_raise _

theorem inside_execute (h : ∀ i ∈ frame.rest, i ∈ f.instructions) :
    Inside f (execute runtime module f frame world i) := by
  unfold execute
  dsimp only
  split
  · exact h
  · exact inside_operator h _
  · exact h
  · exact fun i hi => h i (@define_rest frame _ _ ▸ hi)
  · exact inside_operator h _
  · split
    · exact inside_operator h _
    · split
      · intro i hi
        rw [define_rest] at hi
        split at hi
        · exact h i hi
        · exact h i hi
      · exact inside_raise _

theorem inside_step {c : Configuration W} (h : Inside f c) : Inside f (step runtime module f c) := by
  cases c with
  | running frame world =>
    rw [step]
    split
    next i rest hrest => exact inside_execute fun i hi => h i (hrest ▸ List.mem_cons_of_mem _ hi)
    next =>
      have henter (target : BlockId) (arguments : List Operand) :
          Inside f (enter runtime module f frame world target arguments) := by
        unfold enter
        split
        · trivial
        next b hb => exact fun i hi => mem_instructions_of_block hb hi
      unfold terminate
      split
      · trivial
      · dsimp only
        split
        · trivial
        · exact henter _ _
        · exact henter _ _
        · exact henter _ _
        · exact inside_raise _
        · trivial
        · trivial
  | returned | raised | stuck => trivial

/-- How much of the block is left. -/
def restLength : Configuration W → Nat
  | .running frame _ => frame.rest.length
  | _ => 0

/-- The function takes a step of what is left of it, or leaves out an instruction. -/
theorem stutters_left (hkeep : left = f.keep fun i => decide (i ∈ left.instructions))
    (hunread : ∀ i ∈ f.instructions, i ∉ left.instructions → Unread types runtime.library module left i)
    (hcount : ∀ i ∈ f.instructions, i.opcode ≠ .Nop → Verifier.operandCountOk i = true) :
    Stutters (step runtime module f) (step runtime module left) (fun c c' => Inside f c ∧ Matches left c c')
      (HarmlessAt types runtime module left) restLength := by
  rintro c c' ⟨hinside, hmatches⟩ hharmless
  cases c with
  | running frame world =>
    cases c' with
    | running frame' world' =>
      obtain ⟨hsame, rfl⟩ := hmatches
      cases hrest : frame.rest with
      | nil =>
        left
        refine ⟨inside_step hinside, ?_⟩
        rw [step, step, hsame.rest, hrest]
        exact terminate_left hkeep hsame
      | cons i rest =>
        by_cases hi : i ∈ left.instructions
        · left
          refine ⟨inside_step hinside, ?_⟩
          have hfirst : (i :: rest).filter (· ∈ left.instructions) =
              i :: rest.filter (· ∈ left.instructions) :=
            List.filter_cons_of_pos (decide_eq_true hi)
          rw [step, step, hsame.rest, hrest, hfirst]
          exact execute_left hkeep ⟨hsame.block, rfl, hsame.values, hsame.slots⟩ hi
        · right
          have hmem : i ∈ f.instructions := hinside i (hrest ▸ List.mem_cons_self)
          have hbehind : SameFrame left { frame with rest := rest } frame' := by
            refine ⟨hsame.block, ?_, hsame.values, hsame.slots⟩
            rw [hsame.rest, hrest, List.filter_cons_of_neg (by simpa using hi)]
          have hhere : Harmless types runtime module { frame with rest := rest } world' i :=
            hharmless i (hrest ▸ rfl) hi
          obtain ⟨after, hafter, -, hlength, hmatches⟩ :=
            @execute_unread W runtime types module f left _ _ world' i (hcount i hmem)
              (hunread i hmem hi) hhere hbehind
          have hstep : step runtime module f (.running frame world') = .running after world' := by
            rw [step, hrest]
            exact hafter
          refine ⟨⟨inside_step hinside, ?_⟩, ?_⟩
          · rw [hstep]
            exact ⟨hmatches, rfl⟩
          · rw [hstep, restLength, restLength, hlength, hrest]
            exact Nat.lt_succ_self _
    | returned | raised | stuck => cases hmatches
  | returned | raised | stuck =>
    cases hmatches
    exact .inl ⟨trivial, rfl⟩

theorem start_left (hkeep : left = f.keep fun i => decide (i ∈ left.instructions))
    (arguments : ParamId → gc.Value) (slots : SlotId → Option gc.Value) :
    Inside f (start f arguments slots world) ∧
      Matches left (start f arguments slots world) (start left arguments slots world) := by
  have hentry : left.entryBlock = f.entryBlock := congrArg (·.entryBlock) hkeep
  unfold start
  rw [hentry, block_left hkeep]
  cases hblock : f.block f.entryBlock with
  | none => exact ⟨trivial, rfl⟩
  | some b => exact ⟨fun i hi => mem_instructions_of_block hblock hi,
      ⟨rfl, rfl, fun _ _ => rfl, fun _ _ => rfl⟩, rfl⟩

end

/-- In every run of a verified function in which what the pass leaves out is harmless where it is
    reached, it completes and changes nothing outside of the frame, and the run and that of what is
    left of the function match. -/
theorem eliminateDeadValues_matches {W : Type} (rules : TypeRules)
    (options : Verifier.VerifierOptions) (types : TypeTable)
    (runtime : Runtime W) (module : Module) (f : Function) (arguments : ParamId → gc.Value)
    (slots : SlotId → Option gc.Value) (world : W)
    (hok : Verifier.verifyFunction rules module f options = [])
    (hharmless : ∀ n, HarmlessAt types runtime module (eliminateDeadValues types runtime.library module f)
      ((step runtime module f)^[n] (start f arguments slots world))) :
    let left := eliminateDeadValues types runtime.library module f
    let before n := (step runtime module f)^[n] (start f arguments slots world)
    let after n := (step runtime module left)^[n] (start left arguments slots world)
    (∀ n frame world i rest, before n = .running frame world → frame.rest = i :: rest →
      i ∉ left.instructions → ∃ next, before (n + 1) = .running next world ∧
      next.block = frame.block ∧ next.rest = rest) ∧
      (∀ n, ∃ m ≤ n, Matches left (before n) (after m)) ∧ ∀ m, ∃ n ≥ m,
      Matches left (before n) (after m) := by
  intro left before after
  obtain ⟨hkeep, hunread⟩ := eliminateDeadValues_keep types runtime.library module f
  have hcount (i : Instruction) (hi : i ∈ f.instructions) (hnop : i.opcode ≠ .Nop) :
      Verifier.operandCountOk i = true := by
    obtain ⟨b, hb, hi⟩ := List.mem_flatMap.mp hi
    exact (Verifier.accepted_of_verifyFunction hok).count_ok hb hi hnop
  have hstutters := @stutters_left W runtime types module f left hkeep hunread hcount
  have hstart := @start_left W f left world hkeep arguments slots
  have hforward (n : Nat) := hstutters.forward (n := n) hstart fun m _ => hharmless m
  refine ⟨fun n frame world i rest hframe hrest hi => ?_, fun n => ?_, fun m => ?_⟩
  · obtain ⟨m, -, hinside, hmatches⟩ := hforward n
    have hhere := hharmless n
    rw [show (step runtime module f)^[n] (start f arguments slots _) =
      .running frame world from hframe] at hinside hmatches hhere
    cases hafter : (step runtime module left)^[m] (start left arguments slots _) with
    | running frame' world' =>
      rw [hafter] at hmatches
      have hmem : i ∈ f.instructions := hinside i (hrest ▸ List.mem_cons_self)
      have hbehind : SameFrame left { frame with rest := rest } frame' := by
        refine ⟨hmatches.1.block, ?_, hmatches.1.values, hmatches.1.slots⟩
        rw [hmatches.1.rest, hrest, List.filter_cons_of_neg (by simpa using hi)]
      have hharmless' : Harmless types runtime module { frame with rest := rest } world i :=
        hhere i (hrest ▸ rfl) hi
      obtain ⟨next, hnext, hblock, hlength, -⟩ :=
        @execute_unread W runtime types module f left _ _ world i (hcount i hmem)
          (hunread i hmem hi) hharmless' hbehind
      refine ⟨next, ?_, hblock, hlength⟩
      have hstep : before (n + 1) = step runtime module f (before n) := Function.iterate_succ_apply' ..
      rw [hstep, hframe, step, hrest]
      exact hnext
    | returned | raised | stuck =>
      rw [hafter] at hmatches
      cases hmatches
  · obtain ⟨m, hm, -, hmatches⟩ := hforward n
    exact ⟨m, hm, hmatches⟩
  · obtain ⟨n, hn, -, hmatches⟩ := hstutters.backward hstart hharmless m
    exact ⟨n, hn, hmatches⟩

def recordTypes : TypeRules where
  find
    | 1 => some { kind := .Bool }
    | 2 => some { kind := .Object, name := "Link" }
    | 3 => some { kind := .Void }
    | _ => none
  isNullable _ := false
  assignable source target := source == target
  render _ := ""
  valueRules _ _ _ _ := []

def recordTable : TypeTable :=
  { find := recordTypes.find, isNullable := recordTypes.isNullable, boolType := 1, intType := 4,
    doubleType := 5, stringType := 6 }

def recordRuntime : Runtime Unit where
  library := foldLibrary
  memory _ := deepMemory
  static _ _ := .nil
  matchType _ _ _ := (false, ())
  effect _ _ _ _ := { result := .ok .nil, world := () }
  dispatch _ _ _ := none
  caught _ _ := (.nil, ())

def unreadEquality : Function := Function.rebuildEdges {
  name := "unreadEquality"
  parameters := [{ name := "a", type := 2 }, { name := "b", type := 2 }]
  returnType := 3
  entryBlock := 1
  blocks := [{
    id := 1
    instructions :=
      [{ opcode := .Eq, result := 1, resultType := 1, operands := [.param 0 2, .param 1 2] }]
    terminator := { kind := .Return } }] }

def emptied : Function :=
  { unreadEquality with blocks := [{ id := 1, terminator := { kind := .Return } }] }

theorem eliminateDeadValues_unreadEquality :
    eliminateDeadValues recordTable foldLibrary {} unreadEquality = emptied := by decide +kernel

theorem run_emptied (arguments : ParamId → gc.Value) (n : Nat) :
    (∃ frame, (step recordRuntime {} emptied)^[n] (start emptied arguments (fun _ => none) ()) =
      .running frame ()) ∨ (step recordRuntime {} emptied)^[n]
      (start emptied arguments (fun _ => none) ()) = .returned none (fun _ => none) () := by
  cases n with
  | zero => exact .inl ⟨_, rfl⟩
  | succ n =>
    right
    rw [Function.iterate_succ_apply]
    exact Function.iterate_fixed rfl n

theorem matches_raised {W : Type} {left : Function} {thrown : Thrown} {captured : SlotId →
      Option gc.Value} {world : W} {c : Configuration W}
    (h : Matches left (.raised thrown captured world) c) : c = .raised thrown captured world := by
  cases c <;> exact h

theorem step_unreadEquality (arguments : ParamId → gc.Value) :
    step recordRuntime {} unreadEquality (start unreadEquality arguments (fun _ => none) ()) =
      match valuesEqual deepMemory (arguments 0) (arguments 1) with
      | .ok equal => .running ⟨1, [], Function.update (fun | .param i => arguments i | _ => .nil)
          (.temp 1) (.bool equal), fun _ => none⟩ ()
      | .error e => .raised (.error e) (fun _ => none) () := by
  have hexecute (v w : gc.Value) : executeOperator foldLibrary deepMemory .Eq [v, w] =
      some ((valuesEqual deepMemory v w).map fun equal => .bool equal) := by
    change some (binaryCompare deepMemory .Eq v w) = _
    rw [binaryCompare, if_pos (.inl rfl)]
    cases valuesEqual deepMemory v w <;> rfl
  change execute recordRuntime {} unreadEquality ⟨1, [], fun | .param i => arguments i | _ => .nil,
    fun _ => none⟩ ()
    { opcode := .Eq, result := 1, resultType := 1, operands := [.param 0 2, .param 1 2] } = _
  have harguments : [Operand.param 0 2, .param 1 2].map
    (operandValue recordRuntime {} (fun | .param i => arguments i | _ => .nil) ()) = [arguments 0,
    arguments 1] := rfl
  unfold execute
  dsimp only
  rw [harguments, show recordRuntime.library = foldLibrary from rfl,
    show recordRuntime.memory () = deepMemory from rfl, hexecute]
  cases valuesEqual deepMemory (arguments 0) (arguments 1) with
  | ok equal => rfl
  | error e => rfl

theorem eliminateDeadValues_matches_equal :
    let left := eliminateDeadValues recordTable foldLibrary {} unreadEquality
    ∀ n, ∃ m ≤ n, Matches left ((step recordRuntime {} unreadEquality)^[n]
      (start unreadEquality (fun _ => .nil) (fun _ => none) ()))
      ((step recordRuntime {} left)^[m] (start left (fun _ => .nil) (fun _ => none) ())) := by
  refine (eliminateDeadValues_matches recordTypes {} recordTable recordRuntime {} unreadEquality
    (fun _ => .nil) (fun _ => none) ()
    (by decide +kernel) fun n => ?_).2.1
  match n with
  | 0 =>
    rintro i hi -
    obtain rfl : _ = i := Option.some.inj hi
    intro _ a b h
    change [gc.Value.nil, .nil] = [a, b] at h
    cases h
    exact ⟨true, rfl⟩
  | 1 =>
    rw [Function.iterate_one, step_unreadEquality]
    exact fun _ hi => absurd hi (Option.not_mem_none _)
  | n + 2 =>
    have hfixed (n : Nat) : (step recordRuntime {} unreadEquality)^[n]
        (.returned none (fun _ => none) ()) = .returned none (fun _ => none) () :=
      Function.iterate_fixed rfl n
    have htwo : (step recordRuntime {} unreadEquality)^[2]
        (start unreadEquality (fun _ => .nil) (fun _ => none) ()) =
        .returned none (fun _ => none) () := by
      rw [Function.iterate_succ_apply', Function.iterate_one, step_unreadEquality]
      rfl
    rw [Function.iterate_add_apply, htwo, hfixed]
    trivial

/-- The first records of two chains. -/
def deepArguments (i : ParamId) : gc.Value := .box .object (some (if i = 0 then 0 else 502))

/-- Equality, which the pass takes to complete, raises on records that are nested too deeply. -/
theorem unreadEquality_raises :
    ¬∀ (W : Type) (rules : TypeRules) (options : Verifier.VerifierOptions) (types : TypeTable)
    (runtime : Runtime W) (module : Module) (f : Function) (arguments : ParamId → gc.Value)
    (slots : SlotId → Option gc.Value) (world : W),
    Verifier.verifyFunction rules module f options = [] →
    ∀ n, ∃ m, Matches (eliminateDeadValues types runtime.library module f)
    ((step runtime module f)^[n] (start f arguments slots world))
        ((step runtime module (eliminateDeadValues types runtime.library module f))^[m]
          (start (eliminateDeadValues types runtime.library module f) arguments slots world)) := by
  intro h
  have hexists := h Unit recordTypes {} recordTable recordRuntime {} unreadEquality deepArguments
    (fun _ => none) () (by decide +kernel) 1
  have hraised : step recordRuntime {} unreadEquality
      (start unreadEquality deepArguments (fun _ => none) ()) = .raised (.error nestingError)
      (fun _ => none) () := by
    rw [step_unreadEquality, show deepArguments 0 = .box .object (some 0) from rfl,
      show deepArguments 1 = .box .object (some 502) from rfl, low_middle]
  rw [Function.iterate_one, hraised, show recordRuntime.library = foldLibrary from rfl,
    eliminateDeadValues_unreadEquality] at hexists
  obtain ⟨m, hm⟩ := hexists
  have hended := matches_raised hm
  rcases run_emptied deepArguments m with ⟨frame, hrunning⟩ | hreturned
  · rw [hrunning] at hended
    cases hended
  · rw [hreturned] at hended
    cases hended

end zl.mir
