import Zl.Mir.Interpreter
import Zl.Mir.Lowering.Lowerer

namespace zl.mir

namespace FunctionBuilder

variable {fb : FunctionBuilder} {id : BlockId} {b : BasicBlock}

/-- Blocks are numbered from one. -/
def Numbered (fb : FunctionBuilder) : Prop := ∀ b ∈ fb.function.blocks, b.id ≤ fb.function.blocks.length

/-- A block of the function under construction. -/
def block (fb : FunctionBuilder) (id : BlockId) : Option BasicBlock := fb.function.block id

theorem length_updateBlock (id : BlockId) (g : BasicBlock → BasicBlock) :
    (fb.updateBlock id g).function.blocks.length = fb.function.blocks.length := by
  simp [updateBlock]

theorem block_updateBlock {g : BasicBlock → BasicBlock} (hg : ∀ b, (g b).id = b.id) (id target : BlockId) :
    (fb.updateBlock id g).block target =
      (fb.block target).map fun b => if target = id then g b else b := by
  unfold block Function.block updateBlock
  split
  · rfl
  · rw [List.find?_map]
    have hid : ((fun b : BasicBlock => b.id == target) ∘ fun b => if b.id = id then g b else b) =
        fun b => b.id == target := by
      funext b
      simp only [Function.comp_apply]
      split <;> simp [hg]
    rw [hid]
    cases hfind : fb.function.blocks.find? (·.id == target) with
    | none => rfl
    | some b =>
      have hb : b.id = target := by simpa using List.find?_some hfind
      simp [hb]

theorem Numbered.updateBlock (h : fb.Numbered) {g : BasicBlock → BasicBlock} (hg : ∀ b, (g b).id = b.id)
    (id : BlockId) : (fb.updateBlock id g).Numbered := by
  intro b hb
  rw [length_updateBlock]
  obtain ⟨old, hold, rfl⟩ := List.mem_map.mp hb
  have hle := h old hold
  split
  · rwa [hg]
  · exact hle

theorem Numbered.block_eq_none (h : fb.Numbered) (hid : fb.function.blocks.length < id) :
    fb.block id = none := by
  cases hb : fb.block id with
  | none => rfl
  | some b =>
    obtain ⟨-, hmem, rfl⟩ := Function.block_eq_some hb
    exact absurd (h b hmem) (Nat.not_le.mpr hid)

theorem Numbered.le_of_block (h : fb.Numbered) (hb : fb.block id = some b) :
    id ≠ kNoBlock ∧ id ≤ fb.function.blocks.length := by
  obtain ⟨hne, hmem, rfl⟩ := Function.block_eq_some hb
  exact ⟨hne, h b hmem⟩

theorem addBlock_eq (hpos : 0 < fb.function.blocks.length) (handlers : List ExceptionHandler) :
    fb.addBlock handlers = (fb.function.blocks.length + 1, { fb with function := { fb.function with
      blocks := fb.function.blocks ++
        [{ id := fb.function.blocks.length + 1, exceptionHandlers := handlers }] } }) := by
  unfold addBlock
  have hid : fb.function.blocks.length + 1 ≠ 1 := by omega
  simp only [hid, if_false]

theorem block_append (h : fb.Numbered) (new : BasicBlock) (hnew : new.id = fb.function.blocks.length + 1)
    (target : BlockId) :
    Function.block { fb.function with blocks := fb.function.blocks ++ [new] } target =
      if target = fb.function.blocks.length + 1 then some new else fb.block target := by
  unfold Function.block
  split
  next hzero =>
    subst hzero
    rw [if_neg (Nat.succ_ne_zero _).symm]
    rfl
  next hne =>
    rw [List.find?_append]
    split
    next heq =>
      have hnone : fb.block target = none := h.block_eq_none (heq ▸ Nat.lt_succ_self _)
      rw [block, Function.block, if_neg hne] at hnone
      rw [hnone]
      simp [heq, hnew]
    next hother =>
      have hlast : [new].find? (·.id == target) = none := by simp [hnew, Ne.symm hother]
      rw [hlast, Option.or_none, block, Function.block, if_neg hne]

theorem Numbered.addBlock (h : fb.Numbered) (hpos : 0 < fb.function.blocks.length)
    (handlers : List ExceptionHandler) : (fb.addBlock handlers).2.Numbered := by
  rw [addBlock_eq hpos]
  intro b hb
  rw [List.length_append]
  cases List.mem_append.mp hb with
  | inl hold => exact (h b hold).trans (Nat.le_add_right ..)
  | inr hnew => rw [List.mem_singleton.mp hnew]; exact le_rfl

theorem block_addBlock (h : fb.Numbered) (hpos : 0 < fb.function.blocks.length)
    (handlers : List ExceptionHandler) (target : BlockId) :
    (fb.addBlock handlers).2.block target = if target = fb.function.blocks.length + 1 then
      some { id := fb.function.blocks.length + 1, exceptionHandlers := handlers } else fb.block
        target := by
  rw [addBlock_eq hpos]
  exact block_append h _ rfl target

theorem length_addBlock (hpos : 0 < fb.function.blocks.length) (handlers : List ExceptionHandler) :
    (fb.addBlock handlers).2.function.blocks.length = fb.function.blocks.length + 1 := by
  simp [addBlock_eq hpos]

theorem addBlock_current (hpos : 0 < fb.function.blocks.length) (handlers : List ExceptionHandler) :
    (fb.addBlock handlers).2.current = fb.current := by
  rw [addBlock_eq hpos]

theorem addBlock_nextTemp (hpos : 0 < fb.function.blocks.length) (handlers : List ExceptionHandler) :
    (fb.addBlock handlers).2.nextTemp = fb.nextTemp := by
  rw [addBlock_eq hpos]

theorem addBlock_slots (hpos : 0 < fb.function.blocks.length) (handlers : List ExceptionHandler) :
    (fb.addBlock handlers).2.function.slots = fb.function.slots := by
  rw [addBlock_eq hpos]

theorem block_append_instruction (i : Instruction) (target : BlockId) :
    (fb.append i).block target = (fb.block target).map fun b =>
      if target = fb.current then { b with instructions := b.instructions ++ [i] } else b :=
  block_updateBlock (g := fun b => { b with instructions := b.instructions ++ [i] }) (fun _ => rfl) ..

theorem block_terminate (t : Terminator) (target : BlockId) :
    (fb.terminate t).block target = (fb.block target).map fun b =>
      if target = fb.current then { b with terminator := t } else b :=
  block_updateBlock (g := fun b => { b with terminator := t }) (fun _ => rfl) ..

theorem Numbered.append (h : fb.Numbered) (i : Instruction) : (fb.append i).Numbered :=
  h.updateBlock (g := fun b => { b with instructions := b.instructions ++ [i] }) (fun _ => rfl) _

theorem Numbered.terminate (h : fb.Numbered) (t : Terminator) : (fb.terminate t).Numbered :=
  h.updateBlock (g := fun b => { b with terminator := t }) (fun _ => rfl) _

theorem block_foldl_append (fb : FunctionBuilder) (is : List Instruction) (target : BlockId) :
    (is.foldl FunctionBuilder.append fb).block target = (fb.block target).map fun b =>
      if target = fb.current then { b with instructions := b.instructions ++ is } else b := by
  induction is generalizing fb with
  | nil => simp
  | cons i is ih =>
    rw [List.foldl_cons, ih, block_append_instruction, Option.map_map]
    congr 1
    funext b
    by_cases htarget : target = fb.current
    · simp [htarget, append, updateBlock]
    · simp [htarget, append, updateBlock]

theorem foldl_append_kept (fb : FunctionBuilder) (is : List Instruction) :
    (is.foldl FunctionBuilder.append fb).current = fb.current ∧
      (is.foldl FunctionBuilder.append fb).nextTemp = fb.nextTemp ∧
      (is.foldl FunctionBuilder.append fb).function.slots = fb.function.slots ∧
      (is.foldl FunctionBuilder.append fb).function.blocks.length = fb.function.blocks.length ∧
      (fb.Numbered → (is.foldl FunctionBuilder.append fb).Numbered) := by
  induction is generalizing fb with
  | nil => exact ⟨rfl, rfl, rfl, rfl, id⟩
  | cons i is ih =>
    obtain ⟨hcurrent, htemp, hslots, hlength, hnumbered⟩ := @ih (fb.append i)
    exact ⟨hcurrent, htemp, hslots, hlength.trans (length_updateBlock ..), fun h =>
      hnumbered (h.append i)⟩

/-- Several blocks with the same handlers. -/
def addBlocks (fb : FunctionBuilder) (handlers : List ExceptionHandler) : Nat → FunctionBuilder
  | 0 => fb
  | k + 1 => ((fb.addBlocks handlers k).addBlock handlers).2

theorem addBlocks_spec (h : fb.Numbered) (hpos : 0 < fb.function.blocks.length)
    (handlers : List ExceptionHandler) (k : Nat) :
    (fb.addBlocks handlers k).Numbered ∧
      (fb.addBlocks handlers k).function.blocks.length = fb.function.blocks.length + k ∧
      (fb.addBlocks handlers k).current = fb.current ∧
      (fb.addBlocks handlers k).nextTemp = fb.nextTemp ∧
      (fb.addBlocks handlers k).function.slots = fb.function.slots ∧
      ∀ target, (fb.addBlocks handlers k).block target =
        if fb.function.blocks.length < target ∧ target ≤ fb.function.blocks.length + k then
          some { id := target, exceptionHandlers := handlers } else fb.block target := by
  induction k with
  | zero =>
    refine ⟨h, rfl, rfl, rfl, rfl, fun target => (if_neg fun hin => ?_).symm⟩
    exact absurd hin.2 (Nat.not_le.mpr hin.1)
  | succ k ih =>
    obtain ⟨hnumbered, hlength, hcurrent, htemp, hslots, hblock⟩ := ih
    have hpos' : 0 < (fb.addBlocks handlers k).function.blocks.length := by omega
    refine ⟨hnumbered.addBlock hpos' handlers, ?_, ?_, ?_, ?_, fun target => ?_⟩
    · rw [addBlocks, length_addBlock hpos', hlength, Nat.add_assoc]
    · rw [addBlocks, addBlock_current hpos', hcurrent]
    · rw [addBlocks, addBlock_nextTemp hpos', htemp]
    · rw [addBlocks, addBlock_slots hpos', hslots]
    · rw [addBlocks, block_addBlock hnumbered hpos', hblock, hlength]
      simp only [BlockId] at *
      split_ifs <;> first | rfl | (exfalso; omega) | (subst_vars; rfl)

end FunctionBuilder

namespace FunctionLowerer

structure ForStmt where
  storageName : String
  varName : String
  start : Lowering Operand
  stop : Lowering Operand
  step : Lowering Operand
  body : Lowering Unit

/-- The slots and blocks of a lowered for loop. -/
structure ForLoop where
  counter : SlotId
  endSlot : SlotId
  stepSlot : SlotId
  conditionBlock : BlockId
  bodyBlock : BlockId
  stepBlock : BlockId
  exitBlock : BlockId
  deriving DecidableEq, Repr

section
variable (types : TypeTable) (module : Module)

/-- The range is kept in three slots. -/
def forRange (node : ForStmt) (start stop step : Operand) : Lowering (SlotId × SlotId × SlotId) := do
  let counter ← defineSlot node.storageName node.varName types.intType true .GC
  let endSlot ← emitResult (·.addSlot { name := "__for_end", type := types.intType })
  let stepSlot ← emitResult (·.addSlot { name := "__for_step", type := types.intType })
  let start ← coerce types module start types.intType
  emit (·.emitStore counter start)
  let stop ← coerce types module stop types.intType
  emit (·.emitStore endSlot stop)
  let step ← coerce types module step types.intType
  emit (·.emitStore stepSlot step)
  return (counter, endSlot, stepSlot)

/-- The blocks of the loop. The condition asks for the direction and the bound in one instruction. -/
def forCondition (counter endSlot stepSlot : SlotId) : Lowering ForLoop := do
  let conditionBlock ← newBlock
  let bodyBlock ← newBlock
  let stepBlock ← newBlock
  let exitBlock ← newBlock
  emit (·.emitJump conditionBlock)
  gotoBlock conditionBlock
  let current ← emitResult (·.emitLoad counter)
  let endValue ← emitResult (·.emitLoad endSlot)
  let stepValue ← emitResult (·.emitLoad stepSlot)
  let keepGoing ← emitResult (·.emitRangeInBounds types (.temp current types.intType)
    (.temp endValue types.intType) (.temp stepValue types.intType))
  emit (·.emitBranch (.temp keepGoing types.boolType) bodyBlock exitBlock)
  gotoBlock bodyBlock
  return { counter, endSlot, stepSlot, conditionBlock, bodyBlock, stepBlock, exitBlock }

/-- The latch loads the step again, as the condition need not dominate it. -/
def forStep (loop : ForLoop) : Lowering Unit := do
  if !(← isDead) then emit (·.emitJump loop.stepBlock)
  gotoBlock loop.stepBlock
  let counterValue ← emitResult (·.emitLoad loop.counter)
  let stepReload ← emitResult (·.emitLoad loop.stepSlot)
  let advanced ← emitResult (·.emitBinary .Add (.temp counterValue types.intType)
    (.temp stepReload types.intType) types.intType)
  emit (·.emitStore loop.counter (.temp advanced types.intType))
  emit (·.emitJump loop.conditionBlock)
  gotoBlock loop.exitBlock

def forStatement (node : ForStmt) : Lowering Unit := do
  let start ← node.start
  if start.isNone then return
  let stop ← node.stop
  if stop.isNone then return
  let step ← node.step
  if step.isNone then return
  let (counter, endSlot, stepSlot) ← forRange types module node start stop step
  if (← get).failed then return
  let loop ← forCondition types counter endSlot stepSlot
  modify fun l => { l with loops := { continueTarget := loop.stepBlock, breakTarget := loop.exitBlock
                                      finallyDepth :=
                                        l.finallyDepth, scopeDepth := l.scopes.length } :: l.loops }
  node.body
  modify fun l => { l with loops := l.loops.tail }
  forStep types loop

end

/-- A lowerer that stands in a block of a function, of which every id in use exists. -/
structure Ready (l : FunctionLowerer) : Prop where
  numbered : l.fb.Numbered
  current : ∃ b, l.fb.block l.fb.current = some b
  temps : 0 < l.fb.nextTemp
  handlers : ∀ h ∈ l.activeHandlers, h.block ≤ l.fb.function.blocks.length
  scopes : ∀ scope ∈ l.scopes, ∀ name slot, (name, LocalRef.slot slot) ∈ scope →
    slot ≤ l.fb.function.slots.length

def rangeStores (n : SlotId) (start stop step : Operand) : List Instruction :=
  [{ opcode := .Store, slot := n + 1, operands := [start] },
    { opcode := .Store, slot := n + 2, operands := [stop] },
    { opcode := .Store, slot := n + 3, operands := [step] }]

section
variable {types : TypeTable} {module : Module} {l : FunctionLowerer} {start stop step value : Operand}
  {node : ForStmt}

theorem coerce_same (htype : value.type = types.intType) : coerce types module value types.intType l =
    (value, l) := by
  unfold coerce
  split
  · rfl
  · simp [conversion, htype]; rfl

/-- The scopes after a name is bound in the innermost one. -/
def bindName (name : String) (ref : LocalRef) : List (List (String × LocalRef)) →
    List (List (String × LocalRef))
  | scope :: rest => ((name, ref) :: scope) :: rest
  | [] => []

def bindNames (name storageName : String) (ref : LocalRef) (scopes : List (List (String × LocalRef))) :
    List (List (String × LocalRef)) :=
  let scopes := if !name.isEmpty then bindName name ref scopes else scopes
  if !storageName.isEmpty && storageName != name then bindName storageName ref scopes else scopes

theorem bindLocal_eq (name : String) (ref : LocalRef) :
    bindLocal name ref l = ((), { l with scopes := bindName name ref l.scopes }) := by
  cases l with
  | mk fb typeParams scopes =>
    cases scopes with
    | nil => rfl
    | cons scope rest => rfl

theorem bindLocalBoth_eq (name storageName : String) (ref : LocalRef) :
    bindLocalBoth name storageName ref l =
      ((), { l with scopes := bindNames name storageName ref l.scopes }) := by
  unfold bindLocalBoth bindNames
  cases hname : !name.isEmpty <;> cases hstorage : !storageName.isEmpty && storageName != name <;>
    simp [run_bind, run_pure, bindLocal_eq]

/-- The state after the slots of a range are defined. -/
def rangeDefined (types : TypeTable) (node : ForStmt) (l : FunctionLowerer) : FunctionLowerer :=
  { l with
    scopes := bindNames node.varName node.storageName (.slot (l.fb.function.slots.length + 1)) l.scopes
    fb := { l.fb with function := { l.fb.function with slots := l.fb.function.slots ++
      [{ name := storageKey node.storageName node.varName, type := types.intType },
        { name := "__for_end", type := types.intType },
        { name := "__for_step", type := types.intType }] } } }

theorem forRange_eq (hstart : start.type = types.intType) (hstop : stop.type = types.intType)
    (hstep : step.type = types.intType) : forRange types module node start stop step l =
      ((l.fb.function.slots.length + 1, l.fb.function.slots.length + 2, l.fb.function.slots.length + 3),
        { rangeDefined types node l with
          fb := (rangeStores l.fb.function.slots.length start stop step).foldl FunctionBuilder.append
            (rangeDefined types node l).fb }) := by
  unfold forRange defineSlot
  simp only [run_bind, run_pure, run_emit, run_emitResult, bindLocalBoth_eq, coerce_same hstart,
    coerce_same hstop, coerce_same hstep]
  simp [FunctionBuilder.addSlot, FunctionBuilder.emitStore, rangeStores, rangeDefined]

/-- The code of the condition, whose temps begin at `t`. -/
def conditionInstructions (types : TypeTable) (slotType : SlotId → TypeId) (loop : ForLoop) (t : TempId) :
    List Instruction :=
  [{ opcode := .Load, slot := loop.counter, result := t, resultType := slotType loop.counter },
    { opcode := .Load, slot := loop.endSlot, result := t + 1, resultType := slotType loop.endSlot },
    { opcode := .Load, slot := loop.stepSlot, result := t + 2, resultType := slotType loop.stepSlot },
    { opcode := .RangeInBounds, result := t + 3, resultType := types.boolType
      operands := [.temp t types.intType, .temp (t + 1) types.intType, .temp (t + 2) types.intType] }]

def conditionTerminator (types : TypeTable) (loop : ForLoop) (t : TempId) : Terminator :=
  { kind := .Branch, value := .temp (t + 3) types.boolType, target := loop.bodyBlock
    elseBlock := loop.exitBlock }

/-- The code of the latch. -/
def stepInstructions (types : TypeTable) (slotType : SlotId → TypeId) (loop : ForLoop) (t : TempId) :
    List Instruction :=
  [{ opcode := .Load, slot := loop.counter, result := t, resultType := slotType loop.counter },
    { opcode := .Load, slot := loop.stepSlot, result := t + 1, resultType := slotType loop.stepSlot },
    { opcode := .Add, result := t + 2, resultType := types.intType
      operands := [.temp t types.intType, .temp (t + 1) types.intType] },
    { opcode := .Store, slot := loop.counter, operands := [.temp (t + 2) types.intType] }]

/-- The loop whose blocks follow the first `n`. -/
def loopAfter (n : Nat) (counter endSlot stepSlot : SlotId) : ForLoop :=
  { counter, endSlot, stepSlot, conditionBlock := n + 1, bodyBlock := n + 2, stepBlock := n + 3
    exitBlock := n + 4 }

theorem newBlock_eq (hnumbered : l.fb.Numbered) (hpos : 0 < l.fb.function.blocks.length) (k : Nat) :
    newBlock { l with fb := l.fb.addBlocks l.activeHandlers k } =
      (l.fb.function.blocks.length + k + 1,
        { l with fb := l.fb.addBlocks l.activeHandlers (k + 1) }) := by
  obtain ⟨-, hlength, -⟩ := FunctionBuilder.addBlocks_spec hnumbered hpos l.activeHandlers k
  have hpos' : 0 < (l.fb.addBlocks l.activeHandlers k).function.blocks.length := by omega
  unfold newBlock
  simp only [run_bind, run_get, run_emitResult]
  rw [FunctionBuilder.addBlocks, FunctionBuilder.addBlock_eq hpos', hlength]

/-- The code of the condition is put behind the last block. -/
def conditionBuilder (types : TypeTable) (loop : ForLoop) (fb : FunctionBuilder) : FunctionBuilder :=
  let fb := { fb.emitJump loop.conditionBlock with current := loop.conditionBlock }
  let t := fb.nextTemp
  let fb := (fb.emitLoad loop.counter).2
  let fb := (fb.emitLoad loop.endSlot).2
  let fb := (fb.emitLoad loop.stepSlot).2
  let fb := (fb.emitRangeInBounds types (.temp t types.intType) (.temp (t + 1) types.intType)
    (.temp (t + 2) types.intType)).2
  { fb.emitBranch (.temp (t + 3) types.boolType) loop.bodyBlock loop.exitBlock with
    current := loop.bodyBlock }

theorem forCondition_eq (hnumbered : l.fb.Numbered) (hpos : 0 < l.fb.function.blocks.length)
    (counter endSlot stepSlot : SlotId) :
    forCondition types counter endSlot stepSlot l =
      (loopAfter l.fb.function.blocks.length counter endSlot stepSlot,
        { l with
          fb := conditionBuilder types (loopAfter l.fb.function.blocks.length counter endSlot stepSlot)
            (l.fb.addBlocks l.activeHandlers 4) }) := by
  have h₀ := newBlock_eq hnumbered hpos 0
  have h₁ := newBlock_eq hnumbered hpos 1
  have h₂ := newBlock_eq hnumbered hpos 2
  have h₃ := newBlock_eq hnumbered hpos 3
  rw [FunctionBuilder.addBlocks] at h₀
  norm_num only at h₀ h₁ h₂ h₃
  unfold forCondition
  simp only [run_bind, h₀, h₁, h₂, h₃, run_emit, run_emitResult, run_pure, gotoBlock]
  generalize l.fb.addBlocks l.activeHandlers 4 = fb
  rfl

/-- The types that loads of slots have. -/
def slotTypes (fb : FunctionBuilder) (slot : SlotId) : TypeId :=
  ((fb.function.slot slot).map (·.type)).getD 0

theorem conditionBuilder_eq (loop : ForLoop) (fb : FunctionBuilder) :
    conditionBuilder types loop fb =
      { ((conditionInstructions types (slotTypes fb) loop fb.nextTemp).foldl FunctionBuilder.append
          { fb.emitJump loop.conditionBlock with current := loop.conditionBlock }).terminate
          (conditionTerminator types loop fb.nextTemp) with
        current := loop.bodyBlock, nextTemp := fb.nextTemp + 4 } := rfl

theorem block_conditionBuilder (loop : ForLoop) (fb : FunctionBuilder) (id : BlockId) :
    (conditionBuilder types loop fb).block id =
      ((fb.block id).map fun b => if id = fb.current then
        { b with terminator := { kind := .Jump, target := loop.conditionBlock } } else b).map
        fun b => if id = loop.conditionBlock then { b with
          instructions := b.instructions ++ conditionInstructions types (slotTypes fb) loop fb.nextTemp
          terminator := conditionTerminator types loop fb.nextTemp } else b := by
  have hcurrent (is : List Instruction) (fb : FunctionBuilder) :
      (is.foldl FunctionBuilder.append fb).current = fb.current :=
        (FunctionBuilder.foldl_append_kept fb is).1
  rw [conditionBuilder_eq]
  change (FunctionBuilder.terminate _ _).block id = _
  rw [FunctionBuilder.block_terminate, FunctionBuilder.block_foldl_append, hcurrent, Option.map_map]
  change Option.map _ ((fb.emitJump loop.conditionBlock).block id) = _
  rw [FunctionBuilder.emitJump, FunctionBuilder.block_terminate]
  congr 1
  funext b
  by_cases hid : id = loop.conditionBlock
  · simp [hid]
  · simp [hid]

theorem forCondition_spec (types : TypeTable) (l : FunctionLowerer) (hnumbered : l.fb.Numbered)
    (hpos : 0 < l.fb.function.blocks.length)
    (hstands : l.fb.current ≤ l.fb.function.blocks.length) (counter endSlot stepSlot : SlotId) :
    let n := l.fb.function.blocks.length
    let loop := loopAfter n counter endSlot stepSlot
    ∃ fb, forCondition types counter endSlot stepSlot l = (loop, { l with fb }) ∧
      fb.Numbered ∧ fb.function.blocks.length = n + 4 ∧ fb.current = loop.bodyBlock ∧
      fb.nextTemp = l.fb.nextTemp + 4 ∧ fb.function.slots = l.fb.function.slots ∧
      (∃ slotType, fb.block loop.conditionBlock = some {
        id := loop.conditionBlock, exceptionHandlers := l.activeHandlers
        instructions := conditionInstructions types slotType loop l.fb.nextTemp
        terminator := conditionTerminator types loop l.fb.nextTemp }) ∧
      (∀ id, n + 2 ≤ id → id ≤ n + 4 → fb.block id = some { id, exceptionHandlers := l.activeHandlers }) ∧
      ∀ id ≤ n, fb.block id = (l.fb.block id).map fun b => if id = l.fb.current then
        { b with terminator := { kind := .Jump, target := loop.conditionBlock } } else b := by
  intro n loop
  have hle : n ≥ l.fb.current := hstands
  obtain ⟨hnumbered', hlength, hcurrent, htemp, hslots, hblock⟩ :=
    FunctionBuilder.addBlocks_spec hnumbered hpos l.activeHandlers 4
  refine ⟨_, forCondition_eq hnumbered hpos counter endSlot stepSlot, ?_⟩
  generalize l.fb.addBlocks l.activeHandlers 4 = fb at *
  obtain ⟨-, -, hslots', hlength', hnumbered''⟩ := FunctionBuilder.foldl_append_kept
    { fb.emitJump loop.conditionBlock with current := loop.conditionBlock }
    (conditionInstructions types (slotTypes fb) loop fb.nextTemp)
  refine ⟨(hnumbered'' (hnumbered'.terminate _)).terminate _, ?_, rfl, ?_, hslots'.trans hslots,
    ⟨slotTypes fb, ?_⟩, fun id hlow hhigh => ?_, fun id hid => ?_⟩
  · exact (FunctionBuilder.length_updateBlock ..).trans
      (hlength'.trans ((FunctionBuilder.length_updateBlock ..).trans hlength))
  · exact congrArg (· + 4) htemp
  · have hin : n < loop.conditionBlock ∧ loop.conditionBlock ≤ n + 4 :=
      ⟨Nat.lt_succ_self n, Nat.add_le_add_left (by decide : 1 ≤ 4) n⟩
    have hne : loop.conditionBlock ≠ l.fb.current := (Nat.lt_succ_of_le hle).ne'
    rw [block_conditionBuilder, hblock, hcurrent, htemp, if_pos hin]
    simp only [Option.map_some, if_neg hne, n, loop, if_true, List.nil_append]
  · have hin : n < id ∧ id ≤ n + 4 := by omega
    have hne : id ≠ l.fb.current := by omega
    have hne' : id ≠ loop.conditionBlock := by
      change id ≠ n + 1
      omega
    rw [block_conditionBuilder, hblock, hcurrent, if_pos hin]
    exact congrArg some ((if_neg hne').trans (if_neg hne))
  · have hout : ¬(n < id ∧ id ≤ n + 4) := fun hin => absurd hid (Nat.not_le.mpr hin.1)
    have hne : id ≠ loop.conditionBlock := fun heq =>
      absurd (le_of_eq_of_le heq.symm hid) (Nat.not_succ_le_self n)
    rw [block_conditionBuilder, hblock, hcurrent, if_neg hout]
    refine (congrArg (Option.map · _) (funext fun b => if_neg hne)).trans ?_
    exact Option.map_id' ..

/-- The code of the latch is put into its block. -/
def stepBuilder (types : TypeTable) (loop : ForLoop) (fb : FunctionBuilder) : FunctionBuilder :=
  let t := fb.nextTemp
  let fb := { fb with current := loop.stepBlock }
  let fb := (fb.emitLoad loop.counter).2
  let fb := (fb.emitLoad loop.stepSlot).2
  let fb := (fb.emitBinary .Add (.temp t types.intType) (.temp (t + 1) types.intType) types.intType).2
  let fb := fb.emitStore loop.counter (.temp (t + 2) types.intType)
  { fb.emitJump loop.conditionBlock with current := loop.exitBlock }

theorem stepBuilder_eq (loop : ForLoop) (fb : FunctionBuilder) :
    stepBuilder types loop fb =
      { ((stepInstructions types (slotTypes fb) loop fb.nextTemp).foldl FunctionBuilder.append
          { fb with current := loop.stepBlock }).terminate
          { kind := .Jump, target := loop.conditionBlock } with
        current := loop.exitBlock, nextTemp := fb.nextTemp + 3 } := rfl

theorem block_stepBuilder (loop : ForLoop) (fb : FunctionBuilder) (id : BlockId) :
    (stepBuilder types loop fb).block id = (fb.block id).map fun b =>
      if id = loop.stepBlock then { b with
        instructions := b.instructions ++ stepInstructions types (slotTypes fb) loop fb.nextTemp
        terminator := { kind := .Jump, target := loop.conditionBlock } } else b := by
  have hcurrent (is : List Instruction) (fb : FunctionBuilder) :
      (is.foldl FunctionBuilder.append fb).current = fb.current :=
        (FunctionBuilder.foldl_append_kept fb is).1
  rw [stepBuilder_eq]
  change (FunctionBuilder.terminate _ _).block id = _
  rw [FunctionBuilder.block_terminate, FunctionBuilder.block_foldl_append, hcurrent, Option.map_map]
  congr 1
  funext b
  by_cases hid : id = loop.stepBlock
  · simp [hid]
  · simp [hid]

/-- Where a block goes on to the latch if it does not end. -/
def jumpsOn (loop : ForLoop) (fb : FunctionBuilder) (dead : Bool) : FunctionBuilder :=
  if dead then fb else fb.emitJump loop.stepBlock

theorem block_jumpsOn (loop : ForLoop) (fb : FunctionBuilder) (dead : Bool) (id : BlockId) :
    (jumpsOn loop fb dead).block id = (fb.block id).map fun b => if dead = false ∧ id = fb.current then
      { b with terminator := { kind := .Jump, target := loop.stepBlock } } else b := by
  cases dead with
  | true => simp [jumpsOn]
  | false => simp [jumpsOn, FunctionBuilder.emitJump, FunctionBuilder.block_terminate]

theorem jumpsOn_kept (loop : ForLoop) (fb : FunctionBuilder) (dead : Bool) :
    (jumpsOn loop fb dead).nextTemp = fb.nextTemp ∧
      (jumpsOn loop fb dead).function.blocks.length = fb.function.blocks.length := by
  cases dead with
  | true => exact ⟨rfl, rfl⟩
  | false => exact ⟨rfl, FunctionBuilder.length_updateBlock ..⟩

theorem forStep_eq (loop : ForLoop) :
    forStep types loop l =
      ((), { l with fb := stepBuilder types loop (jumpsOn loop l.fb (isDead l).1) }) := by
  have hdead : isDead l = ((isDead l).1, l) := rfl
  unfold forStep
  rw [run_bind, hdead]
  cases (isDead l).1 with
  | true => rfl
  | false => rfl

/-- Blocks other than the latch and the one the body ends in are kept, and that one keeps its
    instructions. -/
theorem forStep_spec (types : TypeTable) (l : FunctionLowerer) (loop : ForLoop) {b : BasicBlock}
    (hstep : l.fb.block loop.stepBlock = some b)
    (hempty : b.instructions = []) (hother : l.fb.current ≠ loop.stepBlock) :
    ∃ fb, forStep types loop l = ((), { l with fb }) ∧ fb.current = loop.exitBlock ∧
      fb.function.blocks.length = l.fb.function.blocks.length ∧
      (∃ slotType t, l.fb.nextTemp = t ∧ fb.block loop.stepBlock = some { b with
        instructions := stepInstructions types slotType loop t
        terminator := { kind := .Jump, target := loop.conditionBlock } }) ∧
      (∀ id, id ≠ loop.stepBlock → id ≠ l.fb.current → fb.block id = l.fb.block id) ∧
      ∀ id, id ≠ loop.stepBlock → (fb.block id).map (fun b => (b.instructions, b.exceptionHandlers)) =
        (l.fb.block id).map fun b => (b.instructions, b.exceptionHandlers) := by
  generalize hfb : jumpsOn loop l.fb (isDead l).1 = fb
  have hblock (id : BlockId) : fb.block id = (l.fb.block id).map fun b =>
      if (isDead l).1 = false ∧ id = l.fb.current then
        { b with terminator := { kind := .Jump, target := loop.stepBlock } } else b :=
    hfb ▸ block_jumpsOn loop l.fb _ id
  obtain ⟨htemp, hlength⟩ := jumpsOn_kept loop l.fb (isDead l).1
  rw [hfb] at htemp hlength
  refine ⟨stepBuilder types loop fb, hfb ▸ forStep_eq loop, rfl, ?_, ⟨slotTypes fb, _, htemp.symm, ?_⟩,
    fun id hid hne => ?_, fun id hid => ?_⟩
  · obtain ⟨-, -, -, hfold, -⟩ := FunctionBuilder.foldl_append_kept
      { fb with current := loop.stepBlock } (stepInstructions types (slotTypes fb) loop fb.nextTemp)
    exact (FunctionBuilder.length_updateBlock ..).trans (hfold.trans hlength)
  · rw [block_stepBuilder, hblock, hstep]
    have hcurrent : ¬((isDead l).1 = false ∧ loop.stepBlock = l.fb.current) := fun h => hother h.2.symm
    simp only [Option.map_some, if_neg hcurrent, if_true, hempty, List.nil_append]
  · rw [block_stepBuilder, hblock]
    have hcurrent : ¬((isDead l).1 = false ∧ id = l.fb.current) := fun h => hne h.2
    simp only [if_neg hid, if_neg hcurrent, Option.map_id']
  · rw [block_stepBuilder, hblock, Option.map_map, Option.map_map]
    congr 1
    funext b
    simp only [Function.comp_apply, if_neg hid]
    split <;> rfl

end

/-- A slot that a statement may write: a name reaches it, or it was not there before. Of the slots
    that are found by their name, those of a loop have none that a program uses. -/
def Nameable (l : FunctionLowerer) (slot : SlotId) : Prop :=
  (∃ scope ∈ l.scopes, ∃ name, (name, LocalRef.slot slot) ∈ scope) ∨
    (∃ s, l.fb.function.slot slot = some s ∧ s.name ≠ "__for_end" ∧ s.name ≠ "__for_step") ∨
    l.fb.function.slots.length < slot

/-- What the lowering of a statement leaves as it was. It adds to the block it stands in, and else
    only new blocks. -/
structure Extends (l l' : FunctionLowerer) : Prop where
  numbered : l'.fb.Numbered
  length : l.fb.function.blocks.length ≤ l'.fb.function.blocks.length
  current : l'.fb.current = l.fb.current ∨ l.fb.function.blocks.length < l'.fb.current
  temps : 0 < l'.fb.nextTemp
  kept : ∀ id ≤ l.fb.function.blocks.length, id ≠ l.fb.current → l'.fb.block id = l.fb.block id
  stands : ∃ b, l'.fb.block l.fb.current = some b
  writes : ∀ id b', id = l.fb.current ∨ l.fb.function.blocks.length < id → l'.fb.block id = some b' →
    ∀ i ∈ b'.instructions, slotWrittenBy i.opcode = true →
      (∃ b, l.fb.block id = some b ∧ i ∈ b.instructions) ∨ Nameable l i.slot
  catches : ∀ id b', id = l.fb.current ∨ l.fb.function.blocks.length < id → l'.fb.block id = some b' →
    ∀ h ∈ b'.exceptionHandlers, (∃ b, l.fb.block id = some b ∧ h ∈ b.exceptionHandlers) ∨
      h ∈ l.activeHandlers ∨ h.catchSlot = 0 ∨ l.fb.function.slots.length < h.catchSlot

/-- A function that the lowering of what follows has completed. -/
structure Completes (l : FunctionLowerer) (f : Function) : Prop where
  kept : ∀ id ≤ l.fb.function.blocks.length, id ≠ l.fb.current → f.block id = l.fb.block id
  stands : ∃ b, f.block l.fb.current = some b

/-- The blocks of the body: the first one, and those that were added up to `last`. -/
def ForLoop.InBody (loop : ForLoop) (last id : BlockId) : Prop :=
  id = loop.bodyBlock ∨ loop.exitBlock < id ∧ id ≤ last

structure Laid (types : TypeTable) (f : Function) (loop : ForLoop) (last : BlockId) : Prop where
  condition : ∃ b slotType t, 0 < t ∧ f.block loop.conditionBlock = some b ∧
    b.instructions = conditionInstructions types slotType loop t ∧
    b.terminator = conditionTerminator types loop t
  body : ∃ b, f.block loop.bodyBlock = some b
  step : ∃ b slotType t, 0 < t ∧ f.block loop.stepBlock = some b ∧
    b.instructions = stepInstructions types slotType loop t ∧
    b.terminator = { kind := .Jump, target := loop.conditionBlock } ∧
    ∀ h ∈ b.exceptionHandlers, h.block ≠ loop.conditionBlock ∧ h.block ≠ loop.stepBlock
  exit : ∃ b, f.block loop.exitBlock = some b
  slots : loop.counter ≠ loop.endSlot ∧ loop.counter ≠ loop.stepSlot ∧ loop.endSlot ≠ loop.stepSlot
  blocks : loop.conditionBlock ≠ loop.bodyBlock ∧ loop.conditionBlock ≠ loop.stepBlock ∧
    loop.conditionBlock ≠ loop.exitBlock
  outside : ¬loop.InBody last loop.stepBlock
  writes : ∀ id b, loop.InBody last id → f.block id = some b →
    (∀ i ∈ b.instructions, slotWrittenBy i.opcode = true → i.slot ≠ loop.endSlot ∧
    i.slot ≠ loop.stepSlot) ∧ ∀ h ∈ b.exceptionHandlers, loop.InBody last h.block ∨
    h.block = loop.stepBlock → h.catchSlot = 0 ∨ h.catchSlot ≠ loop.counter ∧
    h.catchSlot ≠ loop.endSlot ∧ h.catchSlot ≠ loop.stepSlot

section
variable {types : TypeTable} {module : Module} {node : ForStmt} {l₀ l₁ l₂ l : FunctionLowerer}
  {start stop step : Operand}
variable {scope : List (String × LocalRef)}

/-- The range of a loop is lowered, to three integers. -/
structure RangeLowered (types : TypeTable) (node : ForStmt) (l₀ l : FunctionLowerer)
    (start stop step : Operand) : Prop where
  runs : ∃ l₁ l₂, node.start l₀ = (start, l₁) ∧ node.stop l₁ = (stop, l₂) ∧ node.step l₂ = (step, l)
  operands : start.isNone = false ∧ stop.isNone = false ∧ step.isNone = false
  types : start.type = types.intType ∧ stop.type = types.intType ∧ step.type = types.intType
  succeeds : l.failed = false

/-- The loop that is lowered where a lowerer stands. -/
def loopAt (l : FunctionLowerer) : ForLoop :=
  loopAfter l.fb.function.blocks.length (l.fb.function.slots.length + 1) (l.fb.function.slots.length + 2)
    (l.fb.function.slots.length + 3)

/-- The state in which the body of a loop is lowered. -/
structure AtBody (types : TypeTable) (node : ForStmt) (l : FunctionLowerer) (start stop step : Operand)
    (atBody : FunctionLowerer) : Prop where
  numbered : atBody.fb.Numbered
  length : atBody.fb.function.blocks.length = l.fb.function.blocks.length + 4
  current : atBody.fb.current = (loopAt l).bodyBlock
  temps : atBody.fb.nextTemp = l.fb.nextTemp + 4
  slots : atBody.fb.function.slots = l.fb.function.slots ++
    [{ name := storageKey node.storageName node.varName, type := types.intType },
      { name := "__for_end", type := types.intType }, { name := "__for_step", type := types.intType }]
  scopes : atBody.scopes =
    bindNames node.varName node.storageName (.slot (l.fb.function.slots.length + 1)) l.scopes
  handlers : atBody.activeHandlers = l.activeHandlers
  condition : ∃ slotType, atBody.fb.block (loopAt l).conditionBlock = some {
    id := (loopAt l).conditionBlock, exceptionHandlers := l.activeHandlers
    instructions := conditionInstructions types slotType (loopAt l) l.fb.nextTemp
    terminator := conditionTerminator types (loopAt l) l.fb.nextTemp }
  fresh : ∀ id, l.fb.function.blocks.length + 2 ≤ id → id ≤ l.fb.function.blocks.length + 4 →
    atBody.fb.block id = some { id, exceptionHandlers := l.activeHandlers }
  old : ∀ id ≤ l.fb.function.blocks.length, atBody.fb.block id = (l.fb.block id).map fun b =>
    if id = l.fb.current then { b with
      instructions := b.instructions ++ rangeStores l.fb.function.slots.length start stop step
      terminator := { kind := .Jump, target := (loopAt l).conditionBlock } } else b

theorem forStatement_eq (module : Module) (hlowered : RangeLowered types node l₀ l start stop step)
    (hready : Ready l) :
    ∃ atBody, AtBody types node l start stop step atBody ∧
      forStatement types module node l₀ =
        forStep types (loopAt l) { (node.body atBody).2 with loops := (node.body
          atBody).2.loops.tail } := by
  obtain ⟨⟨l₁, l₂, hstart, hstop, hstep⟩, ⟨hstart', hstop', hstep'⟩, ⟨hstart'', hstop'', hstep''⟩,
    hfailed⟩ := hlowered
  obtain ⟨b, hb⟩ := hready.current
  obtain ⟨hne, hle⟩ := hready.numbered.le_of_block hb
  obtain ⟨hcurrent, htemp, hslots, hlength, hnumbered⟩ := FunctionBuilder.foldl_append_kept
    (rangeDefined types node l).fb (rangeStores l.fb.function.slots.length start stop step)
  have hblock (id : BlockId) := FunctionBuilder.block_foldl_append (rangeDefined types node l).fb
    (rangeStores l.fb.function.slots.length start stop step) id
  have hrange : forRange types module node start stop step l = _ := forRange_eq hstart'' hstop'' hstep''
  generalize List.foldl FunctionBuilder.append (rangeDefined types node l).fb
    (rangeStores l.fb.function.slots.length start stop step) = fb at *
  have hlength' : fb.function.blocks.length = l.fb.function.blocks.length := hlength
  have hstands : l.fb.current ≤ l.fb.function.blocks.length := hle
  have hpos : 0 < l.fb.function.blocks.length := (Nat.pos_of_ne_zero hne).trans_le hle
  obtain ⟨fb', hcondition, hnumbered', hlength'', hcurrent', htemp', hslots', hcond, hfresh, hold⟩ :=
    forCondition_spec types { rangeDefined types node l with fb }
      (hnumbered hready.numbered)
      (hlength' ▸ hpos) (by rw [hlength', hcurrent]; exact hstands) (l.fb.function.slots.length + 1)
      (l.fb.function.slots.length + 2) (l.fb.function.slots.length + 3)
  simp only [hlength'] at hcondition hlength'' hcurrent' hcond hfresh hold
  refine ⟨{ rangeDefined types node l with
    fb := fb', loops := { continueTarget := (loopAt l).stepBlock, breakTarget := (loopAt l).exitBlock
                          finallyDepth :=
                            l.finallyDepth, scopeDepth := (rangeDefined types node l).scopes.length } ::
      l.loops },
    ⟨hnumbered', hlength'', hcurrent', htemp'.trans (congrArg (· + 4) htemp), hslots'.trans hslots,
      rfl, rfl, ?_, hfresh, fun id hid => ?_⟩, ?_⟩
  · obtain ⟨slotType, hcond⟩ := hcond
    exact ⟨slotType, hcond.trans (by rw [htemp]; rfl)⟩
  · rw [hold id hid, hblock, Option.map_map]
    congr 1
    funext b
    by_cases heq : id = l.fb.current
    · have hcurrent' : id = (rangeDefined types node l).fb.current := heq
      simp only [Function.comp_apply, if_pos heq, if_pos hcurrent', if_pos (heq.trans hcurrent.symm)]
      rfl
    · have hcurrent' : ¬id = (rangeDefined types node l).fb.current := heq
      have hcurrent'' : ¬id = fb.current := fun h => heq (h.trans hcurrent)
      simp only [Function.comp_apply, if_neg heq, if_neg hcurrent', if_neg hcurrent'']
  · unfold forStatement
    have hfailed' : (rangeDefined types node l).failed = false := hfailed
    simp only [run_bind, hstart, hstart', hstop, hstop', hstep, hstep', Bool.false_eq_true,
      if_false, hrange]
    rw [if_neg (by rw [run_get]; exact ne_true_of_eq_false hfailed')]
    simp only [run_bind, run_get, hcondition, run_modify]
    rfl

theorem mem_bindName {name other : String} {ref ref' : LocalRef}
    {scopes : List (List (String × LocalRef))} (hscope : scope ∈ bindName name ref scopes)
    (hmem : (other, ref') ∈ scope) : ref' = ref ∨ ∃ scope ∈ scopes, (other, ref') ∈ scope := by
  cases scopes with
  | nil => cases hscope
  | cons first rest =>
    cases List.mem_cons.mp hscope with
    | inl heq =>
      subst heq
      cases List.mem_cons.mp hmem with
      | inl hnew => exact .inl (congrArg Prod.snd hnew)
      | inr hold => exact .inr ⟨first, List.mem_cons_self, hold⟩
    | inr hrest => exact .inr ⟨scope, List.mem_cons_of_mem _ hrest, hmem⟩

theorem mem_bindNames {name storageName other : String} {ref ref' : LocalRef}
    {scopes : List (List (String × LocalRef))}
    (hscope : scope ∈ bindNames name storageName ref scopes) (hmem : (other, ref') ∈ scope) :
    ref' = ref ∨ ∃ scope ∈ scopes, (other, ref') ∈ scope := by
  have hfirst {scope : List (String × LocalRef)}
      (hscope : scope ∈ if !name.isEmpty then bindName name ref scopes else scopes)
      (hmem : (other, ref') ∈ scope) : ref' = ref ∨ ∃ scope ∈ scopes, (other, ref') ∈ scope := by
    split at hscope
    · exact mem_bindName hscope hmem
    · exact .inr ⟨scope, hscope, hmem⟩
  unfold bindNames at hscope
  dsimp only at hscope
  split at hscope
  · cases mem_bindName hscope hmem with
    | inl heq => exact .inl heq
    | inr hold =>
      obtain ⟨scope, hscope, hmem⟩ := hold
      exact hfirst hscope hmem
  · exact hfirst hscope hmem

variable {atBody : FunctionLowerer}

theorem AtBody.bound (hat : AtBody types node l start stop step atBody) (hready : Ready l)
    (hscope : scope ∈ atBody.scopes) {name : String} {slot : SlotId}
    (hmem : (name, LocalRef.slot slot) ∈ scope) : slot ≤ l.fb.function.slots.length + 1 := by
  rw [hat.scopes] at hscope
  cases mem_bindNames hscope hmem with
  | inl heq => exact (LocalRef.slot.inj heq).le
  | inr hold =>
    obtain ⟨scope, hscope, hmem⟩ := hold
    exact (hready.scopes scope hscope name slot hmem).trans (Nat.le_succ _)

theorem AtBody.ready (hat : AtBody types node l start stop step atBody) (hready : Ready l) :
    Ready atBody where
  numbered := hat.numbered
  current := ⟨_, by
    rw [hat.current]
    exact hat.fresh _ le_rfl (Nat.add_le_add_left (by decide) _)⟩
  temps := hat.temps ▸ Nat.succ_pos _
  handlers := fun h hh => by
    rw [hat.length]
    exact (hready.handlers h (hat.handlers ▸ hh)).trans (Nat.le_add_right ..)
  scopes := fun scope hscope name slot hmem => by
    rw [hat.slots, List.length_append]
    exact (hat.bound hready hscope hmem).trans (Nat.add_le_add_left (by decide : 1 ≤ 3) _)

/-- The bound and the step of a loop have no name. -/
theorem AtBody.nameable (hat : AtBody types node l start stop step atBody) (hready : Ready l)
    {slot : SlotId} (hslot : Nameable atBody slot) : slot ≠ (loopAt l).endSlot ∧
      slot ≠ (loopAt l).stepSlot := by
  have hlength : atBody.fb.function.slots.length = l.fb.function.slots.length + 3 := by
    rw [hat.slots, List.length_append]
    rfl
  have hend : atBody.fb.function.slot (loopAt l).endSlot =
      some { name := "__for_end", type := types.intType } := by
    simp [Function.slot, hat.slots, loopAt, loopAfter]
  have hstep : atBody.fb.function.slot (loopAt l).stepSlot =
      some { name := "__for_step", type := types.intType } := by
    simp [Function.slot, hat.slots, loopAt, loopAfter]
  rcases hslot with ⟨scope, hscope, name, hmem⟩ | ⟨s, hs, hname⟩ | hnew
  · have hbound : l.fb.function.slots.length + 1 ≥ slot := hat.bound hready hscope hmem
    exact ⟨fun h => absurd (h ▸ hbound) (Nat.not_succ_le_self _),
      fun h => absurd (h ▸ hbound) (by simp [loopAt, loopAfter])⟩
  · refine ⟨fun h => hname.1 ?_, fun h => hname.2 ?_⟩
    · rw [h, hend] at hs
      exact (congrArg Slot.name (Option.some.inj hs)).symm
    · rw [h, hstep] at hs
      exact (congrArg Slot.name (Option.some.inj hs)).symm
  · rw [hlength] at hnew
    exact ⟨fun h => absurd (h ▸ hnew) (by simp [loopAt, loopAfter]),
      fun h => absurd (h ▸ hnew) (by simp [loopAt, loopAfter])⟩

theorem forStatement_laid (hlowered : RangeLowered types node l₀ l start stop step) (hready : Ready l)
    (hbody : ∀ l, Ready l → Extends l (node.body l).2) {f : Function}
    (hcompletes : Completes (forStatement types module node l₀).2 f) :
    Laid types f (loopAt l) (forStatement types module node l₀).2.fb.function.blocks.length ∧
      l.fb.current ≤ l.fb.function.blocks.length ∧
      ∃ old b, l.fb.block l.fb.current = some old ∧ f.block l.fb.current = some b ∧
        b.instructions = old.instructions ++ rangeStores l.fb.function.slots.length start stop step ∧
        b.terminator = { kind := .Jump, target := (loopAt l).conditionBlock } := by
  obtain ⟨atBody, hat, hrun⟩ := forStatement_eq module hlowered hready
  have hextends := hbody atBody (hat.ready hready)
  obtain ⟨old, hold⟩ := hready.current
  have hstands : l.fb.function.blocks.length ≥ l.fb.current := (hready.numbered.le_of_block hold).2
  rw [hrun] at hcompletes ⊢
  generalize (node.body atBody).2 = atEnd at *
  have hlength := hat.length
  have hcurrent : atBody.fb.current = l.fb.function.blocks.length + 2 := hat.current
  -- Before the body is lowered, the blocks around it are there.
  have hkept (id : ℕ) (hle : id ≤ l.fb.function.blocks.length + 4)
    (hne : id ≠ l.fb.function.blocks.length + 2) :
      atEnd.fb.block id = atBody.fb.block id :=
    hextends.kept id (hlength ▸ hle) (hcurrent ▸ hne)
  obtain ⟨ending, hending⟩ : ∃ ending : ℕ, ending = atEnd.fb.current := ⟨_, rfl⟩
  have hends : ending = l.fb.function.blocks.length + 2 ∨ l.fb.function.blocks.length + 4 < ending := by
    rw [← hlength, ← hcurrent, hending]
    exact hextends.current
  have hgrows : l.fb.function.blocks.length + 4 ≤ atEnd.fb.function.blocks.length :=
    hlength ▸ hextends.length
  have hstep : atEnd.fb.block (l.fb.function.blocks.length + 3) = some {
      id := l.fb.function.blocks.length + 3, exceptionHandlers := l.activeHandlers } :=
    (hkept _ (by omega) (by omega)).trans (hat.fresh _ (by omega) (by omega))
  obtain ⟨fb, hrun', hexit, hlength', ⟨slotType, t, ht, hstep'⟩, hother, hsame⟩ :=
    forStep_spec types { atEnd with loops := atEnd.loops.tail } (loopAt l)
      hstep rfl (fun h => by
        have heq : ending = l.fb.function.blocks.length + 3 := hending.trans h
        omega)
  rw [hrun'] at hcompletes ⊢
  have hfinal (id : ℕ) (hle : id ≤ l.fb.function.blocks.length + 4)
      (hne : id ≠ l.fb.function.blocks.length + 2) (hne' : id ≠ l.fb.function.blocks.length + 3)
      (hne'' : id ≠ l.fb.function.blocks.length + 4) : f.block id = atBody.fb.block id := by
    have hcurrent' : id ≠ ending := by omega
    rw [hending] at hcurrent'
    refine (hcompletes.kept id ?_ ?_).trans ((hother id hne' hcurrent').trans (hkept id hle hne))
    · exact hlength' ▸ hle.trans hgrows
    · exact hexit ▸ hne''
  have hin (id : BlockId) (hlow : id = (loopAt l).bodyBlock ∨ l.fb.function.blocks.length + 4 < id)
      (hhigh : id ≤ fb.function.blocks.length) : f.block id = fb.block id := by
    refine hcompletes.kept id hhigh (hexit ▸ ?_)
    rintro rfl
    rcases hlow with heq | hlt
    · simp [loopAt, loopAfter] at heq
    · simp [loopAt, loopAfter] at hlt
  have hbodyle : (loopAt l).bodyBlock ≤ fb.function.blocks.length :=
    hlength' ▸ (Nat.add_le_add_left (by decide : 2 ≤ 4) _).trans hgrows
  -- A block of the body is one that the lowering of the body leaves.
  have hbefore (id : BlockId) (hid : (loopAt l).InBody fb.function.blocks.length id) (b : BasicBlock)
      (hb : f.block id = some b) : ∃ c, atEnd.fb.block id = some c ∧ b.instructions = c.instructions ∧
        b.exceptionHandlers = c.exceptionHandlers := by
    have hne : id ≠ (loopAt l).stepBlock := by
      rintro rfl
      rcases hid with heq | hlt
      · simp [loopAt, loopAfter] at heq
      · simp [loopAt, loopAfter] at hlt
    have hsame' := hsame id hne
    rw [← hin id (hid.imp_right And.left) (hid.elim (fun heq => heq ▸ hbodyle) And.right), hb] at hsame'
    cases hc : atEnd.fb.block id with
    | none => simp [hc] at hsame'
    | some c =>
      rw [hc] at hsame'
      exact ⟨c, rfl, congrArg Prod.fst (Option.some.inj hsame'),
        congrArg Prod.snd (Option.some.inj hsame')⟩
  have hregion (id : BlockId) (hid : (loopAt l).InBody fb.function.blocks.length id) :
      (id = atBody.fb.current ∨ atBody.fb.function.blocks.length < id) ∧ ∀ b,
        atBody.fb.block id = some b → b.instructions = [] ∧ b.exceptionHandlers = l.activeHandlers := by
    rcases hid with rfl | ⟨hlt, -⟩
    · refine ⟨.inl hat.current.symm, fun b hb => ?_⟩
      have hfresh : atBody.fb.block (loopAt l).bodyBlock = some {
          id := (loopAt l).bodyBlock, exceptionHandlers := l.activeHandlers } :=
        hat.fresh _ le_rfl (Nat.add_le_add_left (by decide) _)
      rw [hfresh] at hb
      cases hb
      exact ⟨rfl, rfl⟩
    · have hlt' : atBody.fb.function.blocks.length < id := hlength ▸ hlt
      refine ⟨.inr hlt', fun b hb => ?_⟩
      rw [hat.numbered.block_eq_none hlt'] at hb
      cases hb
  have hslots : atBody.fb.function.slots.length = l.fb.function.slots.length + 3 := by
    rw [hat.slots, List.length_append]
    rfl
  refine ⟨{ condition := ?_, body := ?_, step := ?_, exit := hexit ▸ hcompletes.stands
            slots := by simp [loopAt, loopAfter], blocks := by simp [loopAt, loopAfter]
            outside := by simp [ForLoop.InBody, loopAt, loopAfter], writes := ?_ }, hstands, ?_⟩
  · obtain ⟨slotType', hcond⟩ := hat.condition
    have hkept' := hfinal (l.fb.function.blocks.length + 1) (by omega) (by omega) (by omega) (by omega)
    exact ⟨_, slotType', l.fb.nextTemp, hready.temps, hkept'.trans hcond, rfl, rfl⟩
  · obtain ⟨b, hb⟩ := hextends.stands
    rw [hcurrent] at hb
    have hsame' := hsame (loopAt l).bodyBlock (by simp [loopAt, loopAfter])
    change Option.map _ (fb.block (loopAt l).bodyBlock) =
      Option.map _ (atEnd.fb.block (l.fb.function.blocks.length + 2)) at hsame'
    rw [hb] at hsame'
    obtain ⟨c, hc, -⟩ := Option.map_eq_some_iff.mp hsame'
    exact ⟨c, (hin _ (.inl rfl) hbodyle).trans hc⟩
  · have hkept' : f.block (loopAt l).stepBlock = fb.block (loopAt l).stepBlock := by
      refine hcompletes.kept _ (hlength' ▸ ?_) (hexit ▸ ?_)
      · exact (Nat.add_le_add_left (by decide : 3 ≤ 4) _).trans hgrows
      · simp [loopAt, loopAfter]
    refine ⟨_, slotType, t, ht ▸ hextends.temps, hkept'.trans hstep', rfl, rfl, fun h hh => ?_⟩
    have hle := hready.handlers h hh
    exact ⟨fun heq => absurd (heq ▸ hle) (by simp [loopAt, loopAfter]),
      fun heq => absurd (heq ▸ hle) (by simp [loopAt, loopAfter])⟩
  · intro id b hid hb
    obtain ⟨c, hc, hinstructions, hhandlers⟩ := hbefore id hid b hb
    obtain ⟨hnew, hempty⟩ := hregion id hid
    rw [hinstructions, hhandlers]
    refine ⟨fun i hi hwritten => ?_, fun h hh hinside => ?_⟩
    · rcases hextends.writes id c hnew hc i hi hwritten with ⟨b', hb', hi'⟩ | hname
      · rw [(hempty b' hb').1] at hi'
        cases hi'
      · exact hat.nameable hready hname
    · have hactive : h ∉ l.activeHandlers := by
        intro hactive
        have hle := hready.handlers h hactive
        rcases hinside with (heq | ⟨hlt, -⟩) | heq
        · exact absurd (heq ▸ hle) (by simp [loopAt, loopAfter])
        · exact absurd (hlt.trans_le hle) (by simp [loopAt, loopAfter])
        · exact absurd (heq ▸ hle) (by simp [loopAt, loopAfter])
      rcases hextends.catches id c hnew hc h hh with ⟨b', hb', hh'⟩ | hh' | hzero | hlt
      · rw [(hempty b' hb').2] at hh'
        exact absurd hh' hactive
      · exact absurd (hat.handlers ▸ hh') hactive
      · exact .inl hzero
      · rw [hslots] at hlt
        refine .inr ⟨?_, ?_, ?_⟩ <;> rintro heq <;> rw [heq] at hlt <;>
          simp [loopAt, loopAfter] at hlt
  · have hkept' := hfinal l.fb.current (by omega) (by omega) (by omega) (by omega)
    rw [hat.old _ hstands, hold, Option.map_some, if_pos rfl] at hkept'
    exact ⟨old, _, hold, hkept', rfl, rfl⟩

end

end FunctionLowerer

end zl.mir
