import Zl.Graph.FirstExit
import Zl.Mir.Lowering.ForLoop
import Zl.Mir.Power

open zl.graph zl.ieee zl.vm zl.vm.value

namespace zl.mir.interpreter

def zeroStep : VmError := .runtime "for-loop step cannot be 0 (the loop would never end)"

/-- The test of a range instruction. -/
def rangeContinue (current stop step : gc.Value) : Except VmError Bool :=
  if !isNumericValue current || !isNumericValue stop || !isNumericValue step then
    .error (.runtime "for-loop range/step must be numbers")
  else
    match current, stop, step with
    | .int c, .int e, .int s =>
      if 0 < s then .ok (decide (c < e))
      else if s < 0 then .ok (decide (e < c))
      else .error zeroStep
    | _, _, _ => do
      let s ← toDouble step
      if Binary64.zero.lt s then return (← toDouble current).lt (← toDouble stop)
      if s.lt .zero then return (← toDouble stop).lt (← toDouble current)
      throw zeroStep

/-- The outcome of a range instruction. -/
def rangeOutcome {W : Type} (arguments : List gc.Value) (world : W) : Outcome W :=
  { world, result :=
      match rangeContinue (arguments.getD 0 .nil) (arguments.getD 1 .nil) (arguments.getD 2 .nil) with
      | .ok goesOn => .ok (.bool goesOn)
      | .error e => .error (.error e) }

/-- A runtime that executes the range instruction as the machine does. -/
def Runtime.ranging {W : Type} (runtime : Runtime W) : Runtime W :=
  { runtime with effect := fun i arguments slot world =>
      if i.opcode = .RangeInBounds then rangeOutcome arguments world
      else runtime.effect i arguments slot world }

section
variable {W : Type} (runtime : Runtime W) (module : Module) (f : Function)

/-- A body that runs in one of these blocks. -/
def InBlocks (region : BlockId → Prop) : Configuration W → Prop
  | .running frame _ => region frame.block
  | _ => False

/-- A run that starts in a region and comes out of it. -/
def Passes (region : BlockId → Prop) (c d : Configuration W) : Prop :=
  InBlocks region c ∧ FirstExit (step runtime module f) (InBlocks region) c d

def slotOf (slot : SlotId) : Configuration W → Option gc.Value
  | .running frame _ => frame.slots slot
  | _ => none

/-- An instruction of a block raises, and the run does not leave the block before. -/
def RaisesIn (id : BlockId) (thrown : Thrown) (c : Configuration W) : Prop :=
  ∃ n, ∃ frame : Frame, ∃ world i rest, (∀ k ≤ n, InBlocks (· = id) ((step runtime module f)^[k] c)) ∧
    (step runtime module f)^[n] c = .running { frame with rest := i :: rest } world ∧
    step runtime module f (.running { frame with rest := i :: rest } world) =
      raise runtime f { frame with rest } thrown world

end

namespace RaisesIn

variable {W : Type} {runtime : Runtime W} {module : Module} {f : Function} {id : BlockId}
  {thrown : Thrown}

theorem here (frame : Frame) {world : W} {i : Instruction} {rest : List Instruction}
    (hid : frame.block = id)
    (hraises : step runtime module f (.running { frame with rest := i :: rest } world) =
      raise runtime f { frame with rest } thrown world) :
    RaisesIn runtime module f id thrown (.running { frame with rest := i :: rest } world) := by
  refine ⟨0, frame, world, i, rest, fun k hk => ?_, rfl, hraises⟩
  rw [Nat.le_zero.mp hk]
  exact hid

theorem later {c : Configuration W} (hin : InBlocks (· = id) c)
    (hnext : RaisesIn runtime module f id thrown (step runtime module f c)) :
    RaisesIn runtime module f id thrown c := by
  obtain ⟨n, frame, world, i, rest, hkept, hreaches, hraises⟩ := hnext
  refine ⟨n + 1, frame, world, i, rest, fun k hk => ?_, hreaches, hraises⟩
  cases k with
  | zero => exact hin
  | succ k => exact hkept k (Nat.le_of_succ_le_succ hk)

end RaisesIn

section
variable {W : Type} {runtime : Runtime W} {module : Module} {f : Function} {id : BlockId}
  {rest : List Instruction} {values : ValueId → gc.Value} {slots : SlotId → Option gc.Value} {world : W}

theorem step_load {slot : SlotId} {t : TempId} {type : TypeId} {v : gc.Value} (hslot : slots slot = some v)
    (ht : t ≠ 0) :
    step runtime module f (.running
      ⟨id, { opcode := .Load, slot, result := t, resultType := type } :: rest, values, slots⟩ world)
      = .running ⟨id, rest, Function.update values (.temp t) v, slots⟩ world := by
  simp [step, execute, hslot, Frame.define, ht]

theorem step_store {slot : SlotId} {operand : Operand} :
    step runtime module f (.running ⟨id, { opcode := .Store, slot, operands := [operand] } :: rest,
        values, slots⟩ world) =
      .running ⟨id, rest, values,
        Function.update slots slot (some (operandValue runtime module values world operand))⟩ world := rfl

theorem operandValue_temp (t : TempId) (type : TypeId) :
    operandValue runtime module values world (.temp t type) = values (.temp t) := rfl

/-- The comparison that a step other than zero asks for. -/
def goesOn (c e d : Int64) : Bool := if 0 < d then decide (c < e) else decide (e < c)

theorem rangeContinue_int {c e d : Int64} (hd : d ≠ 0) :
    rangeContinue (.int c) (.int e) (.int d) = .ok (goesOn c e d) := by
  unfold rangeContinue goesOn
  by_cases hpos : 0 < d
  · simp [isNumericValue, hpos]
  · have hneg : d < 0 := Int64.lt_of_le_of_ne (Int64.not_lt.mp hpos) hd
    simp [isNumericValue, hpos, hneg]

theorem rangeContinue_zero (c e : Int64) : rangeContinue (.int c) (.int e) (.int 0) =
    .error zeroStep := by
  simp [rangeContinue, isNumericValue]

section
variable {t t₁ t₂ t₃ : TempId} {type type₁ type₂ type₃ : TypeId} {c e d : Int64}

theorem step_range (hcurrent : values (.temp t₁) = .int c) (hstop : values (.temp t₂) = .int e)
    (hstep : values (.temp t₃) = .int d) (hd : d ≠ 0) (ht : t ≠ 0) :
    step runtime.ranging module f (.running ⟨id,
        { opcode := .RangeInBounds, result := t, resultType := type
          operands := [.temp t₁ type₁, .temp t₂ type₂, .temp t₃ type₃] } :: rest, values, slots⟩ world) =
      .running ⟨id, rest, Function.update values (.temp t) (.bool (goesOn c e d)), slots⟩ world := by
  simp [step, execute, executeOperator, Runtime.ranging, rangeOutcome, operandValue_temp, hcurrent, hstop,
    hstep, rangeContinue_int hd, slotWrittenBy, Frame.define, ht]

theorem step_range_zero (hcurrent : values (.temp t₁) = .int c) (hstop : values (.temp t₂) = .int e)
    (hstep : values (.temp t₃) = .int 0) :
    step runtime.ranging module f (.running ⟨id,
        { opcode := .RangeInBounds, result := t, resultType := type
          operands := [.temp t₁ type₁, .temp t₂ type₂, .temp t₃ type₃] } :: rest, values, slots⟩ world) =
      raise runtime.ranging f ⟨id, rest, values, slots⟩ (.error zeroStep) world := by
  simp [step, execute, executeOperator, Runtime.ranging, rangeOutcome, operandValue_temp, hcurrent, hstop,
    hstep, rangeContinue_zero, slotWrittenBy]

theorem executeBinary_add {library : Library} {memory : Memory} (c d : Int64) :
    executeBinary library memory .Add (.int c) (.int d) =
      checkedInteger (c.toInt + d.toInt) "addition" := by
  simp [executeBinary, binaryArith, isStringValue, isNumericValue, integerArith]

theorem step_add (hcurrent : values (.temp t₁) = .int c) (hstep : values (.temp t₂) = .int d) {v : Int64}
    (hsum : representable (c.toInt + d.toInt) = some v) (ht : t ≠ 0) :
    step runtime module f (.running ⟨id, { opcode := .Add, result := t, resultType := type
                                           operands := [.temp t₁ type₁, .temp t₂ type₂] } :: rest,
        values, slots⟩ world) =
      .running ⟨id, rest, Function.update values (.temp t) (.int v), slots⟩ world := by
  simp [step, execute, executeOperator, vmBinaryOp, operandValue_temp, hcurrent, hstep, executeBinary_add,
    checkedInteger, hsum, Frame.define, ht]

theorem step_add_overflow (hcurrent : values (.temp t₁) = .int c) (hstep : values (.temp t₂) = .int d)
    (hsum : representable (c.toInt + d.toInt) = none) :
    step runtime module f (.running ⟨id, { opcode := .Add, result := t, resultType := type
                                           operands := [.temp t₁ type₁, .temp t₂ type₂] } :: rest,
        values, slots⟩ world) =
      raise runtime f ⟨id, rest, values, slots⟩ (.error (.arithmetic "integer overflow in addition"))
        world := by
  simp [step, execute, executeOperator, vmBinaryOp, operandValue_temp, hcurrent, hstep, executeBinary_add,
    checkedInteger, hsum]

theorem step_jump {b target : BasicBlock} {next : BlockId} (hb : f.block id = some b)
    (hterminator : b.terminator = { kind := .Jump, target := next })
    (htarget : f.block next = some target) :
    step runtime module f (.running ⟨id, [], values, slots⟩ world) =
      .running ⟨next, target.instructions, values, slots⟩ world := by
  simp [step, terminate, hb, hterminator, selected, enter, htarget, Terminator.argumentsFor,
    bindParameters]

theorem step_branch {b target : BasicBlock} {yes no : BlockId} (hb : f.block id = some b)
    (hterminator : b.terminator = { kind := .Branch, value := .temp t type, target := yes, elseBlock := no })
    {truth : Bool} (hcondition : values (.temp t) = .bool truth)
    (htarget : f.block (if truth then yes else no) = some target) :
    step runtime module f (.running ⟨id, [], values, slots⟩ world) =
      .running ⟨if truth then yes else no, target.instructions, values, slots⟩ world := by
  cases truth with
  | true =>
    simp at htarget
    simp [step, terminate, hb, hterminator, selected, enter, operandValue_temp, hcondition,
      value.isTruthy, htarget, Terminator.argumentsFor, bindParameters]
  | false =>
    simp at htarget
    simp [step, terminate, hb, hterminator, selected, enter, operandValue_temp, hcondition,
      value.isTruthy, htarget, Terminator.argumentsFor, bindParameters]

end

end

open FunctionLowerer

/-- A frame at the beginning of its block. -/
def Starts (f : Function) (frame : Frame) : Prop :=
  ∃ b, f.block frame.block = some b ∧ frame.rest = b.instructions

theorem Starts.rest_eq {f : Function} {frame : Frame} {b : BasicBlock} (h : Starts f frame)
    (hb : f.block frame.block = some b) : frame.rest = b.instructions := by
  obtain ⟨b', hb', hrest⟩ := h
  rwa [Option.some.inj (hb.symm.trans hb')]

section
variable {W : Type} {runtime : Runtime W} {module : Module} {f : Function} {types : TypeTable}
  {loop : ForLoop} {last : BlockId} {frame : Frame} {world : W} {c e d : Int64}
variable {next : Frame} {world' : W}

theorem loaded_values (values : ValueId → gc.Value) (t : TempId) (x y z : gc.Value) :
    let loaded := Function.update (Function.update (Function.update values (.temp t) x) (.temp (t + 1)) y)
      (.temp (t + 2)) z
    loaded (.temp t) = x ∧ loaded (.temp (t + 1)) = y ∧ loaded (.temp (t + 2)) = z := by
  simp

/-- A frame that holds the counter, the bound and the step of a loop. -/
structure Holds (loop : ForLoop) (frame : Frame) (c e d : Int64) : Prop where
  counter : frame.slots loop.counter = some (.int c)
  endSlot : frame.slots loop.endSlot = some (.int e)
  stepSlot : frame.slots loop.stepSlot = some (.int d)

theorem passes_condition (runtime : Runtime W) (module : Module) (world : W)
    (hlaid : Laid types f loop last) (hblock : frame.block = loop.conditionBlock)
    (hstarts : Starts f frame) (hholds : Holds loop frame c e d) (hd : d ≠ 0) :
    ∃ next, Passes runtime.ranging module f (· = loop.conditionBlock) (.running frame world)
        (.running next world) ∧
      next.block = (if goesOn c e d then loop.bodyBlock else loop.exitBlock) ∧ Starts f next ∧
      next.slots = frame.slots := by
  obtain ⟨b, slotType, t, ht, hb, hinstructions, hterminator⟩ := hlaid.condition
  obtain ⟨id, rest, values, slots⟩ := frame
  obtain rfl : id = loop.conditionBlock := hblock
  obtain rfl : rest = b.instructions := hstarts.rest_eq hb
  obtain ⟨hcounter, hend, hstep⟩ := hholds
  obtain ⟨target, htarget⟩ : ∃ target, f.block
      (if goesOn c e d then loop.bodyBlock else loop.exitBlock) = some target := by
    split
    · exact hlaid.body
    · exact hlaid.exit
  have hleaves : (if goesOn c e d then loop.bodyBlock else loop.exitBlock) ≠ loop.conditionBlock := by
    split
    · exact hlaid.blocks.1.symm
    · exact hlaid.blocks.2.2.symm
  rw [hinstructions, conditionInstructions]
  let loaded := Function.update (Function.update (Function.update values (.temp t) (.int c))
    (.temp (t + 1)) (.int e)) (.temp (t + 2)) (.int d)
  refine ⟨⟨if goesOn c e d then loop.bodyBlock else loop.exitBlock, target.instructions,
    Function.update loaded (.temp (t + 3)) (.bool (goesOn c e d)), slots⟩, ⟨rfl, .stay rfl ?_⟩, rfl,
    ⟨target, htarget, rfl⟩, rfl⟩
  rw [step_load hcounter ht.ne']
  refine .stay rfl ?_
  rw [step_load hend (Nat.succ_ne_zero _)]
  refine .stay rfl ?_
  rw [step_load hstep (Nat.succ_ne_zero _)]
  refine .stay rfl ?_
  obtain ⟨hcurrent, hstop, hvalue⟩ := loaded_values values t (.int c) (.int e) (.int d)
  rw [step_range hcurrent hstop hvalue hd (Nat.succ_ne_zero _)]
  refine .stay rfl ?_
  rw [step_branch hb hterminator (Function.update_self ..) htarget]
  exact .out hleaves

/-- With a step of zero the condition raises. -/
theorem raises_condition (hlaid : Laid types f loop last) (hblock : frame.block = loop.conditionBlock)
    (hstarts : Starts f frame) (hholds : Holds loop frame c e 0) :
    RaisesIn runtime.ranging module f loop.conditionBlock (.error zeroStep) (.running frame world) := by
  obtain ⟨b, slotType, t, ht, hb, hinstructions, hterminator⟩ := hlaid.condition
  obtain ⟨id, rest, values, slots⟩ := frame
  obtain rfl : id = loop.conditionBlock := hblock
  obtain rfl : rest = b.instructions := hstarts.rest_eq hb
  obtain ⟨hcounter, hend, hstep⟩ := hholds
  rw [hinstructions, conditionInstructions]
  refine .later rfl ?_
  rw [step_load hcounter ht.ne']
  refine .later rfl ?_
  rw [step_load hend (Nat.succ_ne_zero _)]
  refine .later rfl ?_
  rw [step_load hstep (Nat.succ_ne_zero _)]
  obtain ⟨hcurrent, hstop, hvalue⟩ := loaded_values values t (.int c) (.int e) (.int 0)
  exact .here ⟨loop.conditionBlock, [], _, slots⟩ rfl (step_range_zero hcurrent hstop hvalue)

/-- The latch advances the counter if the sum is an integer of 64 bits. -/
theorem passes_step (runtime : Runtime W) (module : Module) (world : W)
    (hlaid : Laid types f loop last) (hblock : frame.block = loop.stepBlock)
    (hstarts : Starts f frame) (hholds : Holds loop frame c e d) {v : Int64}
    (hsum : representable (c.toInt + d.toInt) = some v) :
    ∃ next, Passes runtime module f (· = loop.stepBlock) (.running frame world) (.running next world) ∧
      next.block = loop.conditionBlock ∧ Starts f next ∧ Holds loop next v e d := by
  obtain ⟨b, slotType, t, ht, hb, hinstructions, hterminator, -⟩ := hlaid.step
  obtain ⟨target, -, -, -, htarget, -⟩ := hlaid.condition
  obtain ⟨id, rest, values, slots⟩ := frame
  obtain rfl : id = loop.stepBlock := hblock
  obtain rfl : rest = b.instructions := hstarts.rest_eq hb
  obtain ⟨hcounter, hend, hstep⟩ := hholds
  rw [hinstructions, stepInstructions]
  let loaded := Function.update (Function.update values (.temp t) (.int c)) (.temp (t + 1)) (.int d)
  refine ⟨⟨loop.conditionBlock, target.instructions, Function.update loaded (.temp (t + 2)) (.int v),
    Function.update slots loop.counter (some (.int v))⟩, ⟨rfl, .stay rfl ?_⟩, rfl, ⟨target, htarget, rfl⟩,
    ⟨Function.update_self .., ?_, ?_⟩⟩
  · rw [step_load hcounter ht.ne']
    refine .stay rfl ?_
    rw [step_load hstep (Nat.succ_ne_zero _)]
    refine .stay rfl ?_
    rw [step_add (by simp [Function.update]) (by simp [Function.update]) hsum (Nat.succ_ne_zero _)]
    refine .stay rfl ?_
    rw [step_store, operandValue_temp, Function.update_self]
    refine .stay rfl ?_
    rw [step_jump hb hterminator htarget]
    exact .out hlaid.blocks.2.1
  · exact (Function.update_of_ne hlaid.slots.1.symm ..).trans hend
  · exact (Function.update_of_ne hlaid.slots.2.1.symm ..).trans hstep

/-- A handler that is chosen is one of the block. -/
def Runtime.Dispatches (runtime : Runtime W) : Prop :=
  ∀ handlers thrown world h, runtime.dispatch handlers thrown world = some h → h ∈ handlers

/-- An exception that is caught enters the block of a handler, whose slot may be set. -/
theorem raise_caught (hdispatches : runtime.Dispatches) {thrown : Thrown} {b : BasicBlock}
    (hb : f.block frame.block = some b) (h : raise runtime f frame thrown world = .running next world') :
    ∃ handler ∈ b.exceptionHandlers, next.block = handler.block ∧
      ∀ slot, handler.catchSlot = 0 ∨ handler.catchSlot ≠ slot → next.slots slot = frame.slots slot := by
  unfold raise at h
  rw [hb] at h
  dsimp only at h
  split at h
  · nomatch h
  next handler hhandler =>
    split at h
    · nomatch h
    next target htarget =>
      refine ⟨handler, hdispatches _ _ _ _ hhandler, ?_⟩
      split at h
      · cases h
        exact ⟨rfl, fun _ _ => rfl⟩
      next hcatch =>
        cases h
        exact ⟨rfl, fun slot hslot => Function.update_of_ne (hslot.resolve_left hcatch).symm ..⟩

/-- If the counter would leave the range of an integer, the latch raises, and no handler leads back to
    the condition. -/
theorem not_passes_step (hlaid : Laid types f loop last) (hdispatches : runtime.Dispatches)
    (hblock : frame.block = loop.stepBlock) (hstarts : Starts f frame)
    (hholds : Holds loop frame c e d) (hsum : representable (c.toInt + d.toInt) = none)
    (hpasses : Passes runtime module f (· = loop.stepBlock) (.running frame world) (.running next world')) :
    next.block ≠ loop.conditionBlock := by
  obtain ⟨b, slotType, t, ht, hb, hinstructions, hterminator, hhandlers⟩ := hlaid.step
  obtain ⟨id, rest, values, slots⟩ := frame
  obtain rfl : id = loop.stepBlock := hblock
  obtain rfl : rest = b.instructions := hstarts.rest_eq hb
  obtain ⟨hcounter, hend, hstep⟩ := hholds
  rw [hinstructions, stepInstructions] at hpasses
  obtain ⟨rest', values', hadds⟩ : ∃ rest' values', FirstExit (step runtime module f)
      (InBlocks (· = loop.stepBlock)) (raise runtime f ⟨loop.stepBlock, rest', values', slots⟩
        (.error (.arithmetic "integer overflow in addition")) world) (.running next world') := by
    have hexit := hpasses.2.of_inside rfl
    rw [step_load hcounter ht.ne'] at hexit
    have hexit := hexit.of_inside rfl
    rw [step_load hstep (Nat.succ_ne_zero _)] at hexit
    have hexit := hexit.of_inside rfl
    rw [step_add_overflow (by simp [Function.update]) (by simp [Function.update]) hsum] at hexit
    exact ⟨_, _, hexit⟩
  generalize hraised : raise runtime f ⟨loop.stepBlock, rest', values', slots⟩ _ world = raised at hadds
  cases hadds with
  | out =>
    obtain ⟨handler, hmem, hnext, -⟩ := raise_caught hdispatches hb hraised
    exact hnext ▸ (hhandlers handler hmem).1
  | stay hin =>
    cases raised with
    | running caught world'' =>
      obtain ⟨handler, hmem, hnext, -⟩ := raise_caught hdispatches hb hraised
      exact absurd (hnext.symm.trans hin) (hhandlers handler hmem).2
    | returned | raised | stuck => exact absurd hin id

theorem define_slots (frame : Frame) (t : TempId) (v : gc.Value) :
    (frame.define t v).slots = frame.slots := by
  unfold Frame.define
  split <;> rfl

theorem operator_slots {i : Instruction} {slot : SlotId} {held : Option gc.Value}
    (hrefused : ∀ e : VmError, raise runtime f frame (.error e) world = .running next world' →
      next.slots slot = held)
    {result : Except VmError gc.Value} (h : (match result with
      | .ok v => Configuration.running (frame.define i.result v) world
      | .error e => raise runtime f frame (.error e) world) = .running next world')
    (hheld : frame.slots slot = held) : next.slots slot = held := by
  cases result with
  | ok v =>
    cases h
    exact (congrFun (define_slots ..) slot).trans hheld
  | error e => exact hrefused e h

/-- A step changes a slot only by an instruction that writes it, or by the handler it enters. -/
theorem step_slots (hdispatches : runtime.Dispatches) {b : BasicBlock} (hstanding : Standing f frame b)
    (hstep : step runtime module f (.running frame world) = .running next world') {slot : SlotId}
    (hwrites : ∀ i ∈ b.instructions, slotWrittenBy i.opcode = true → i.slot ≠ slot)
    (hcatches : ∀ h ∈ b.exceptionHandlers, h.block = next.block → h.catchSlot = 0 ∨ h.catchSlot ≠ slot) :
    next.slots slot = frame.slots slot := by
  have hraise {frame' : Frame} {thrown : Thrown} {world : W} (hblock : frame'.block = frame.block)
      (hslot : frame'.slots slot = frame.slots slot)
      (h : raise runtime f frame' thrown world = .running next world') :
        next.slots slot = frame.slots slot := by
    obtain ⟨handler, hmem, hnext, hkept⟩ := raise_caught hdispatches (hblock ▸ hstanding.block) h
    exact (hkept slot (hcatches handler hmem hnext.symm)).trans hslot
  rw [step] at hstep
  cases hrest : frame.rest with
  | nil =>
    rw [hrest] at hstep
    unfold terminate at hstep
    rw [hstanding.block] at hstep
    dsimp only at hstep
    split at hstep
    case h_1 | h_6 | h_7 => cases hstep
    case h_5 => exact hraise rfl rfl hstep
    all_goals
      obtain ⟨c, -, rfl⟩ := enter_running hstep
      rfl
  | cons i rest =>
    rw [hrest] at hstep
    have hi : i ∈ b.instructions := hstanding.rest.subset (hrest ▸ List.mem_cons_self)
    have hrefused (e : VmError) : raise runtime f { frame with rest } (.error e) world =
      .running next world' →
        next.slots slot = frame.slots slot := hraise rfl rfl
    unfold execute at hstep
    dsimp only at hstep
    split at hstep
    · cases hstep
      rfl
    · exact operator_slots hrefused hstep rfl
    next hop =>
      cases hstep
      exact Function.update_of_ne (hwrites i hi (by rw [hop]; rfl)).symm ..
    · cases hstep
      exact congrFun (define_slots ..) slot
    · exact operator_slots hrefused hstep rfl
    · split at hstep
      · exact operator_slots hrefused hstep rfl
      · generalize hframe : (if slotWrittenBy i.opcode = true then _ else _ : Frame) = frame' at hstep
        have hkept : frame'.block = frame.block ∧ frame'.slots slot = frame.slots slot := by
          rw [← hframe]
          split
          next hwritten => exact ⟨rfl, Function.update_of_ne (hwrites i hi hwritten).symm ..⟩
          next => exact ⟨rfl, rfl⟩
        split at hstep
        · cases hstep
          exact (congrFun (define_slots ..) slot).trans hkept.2
        · exact hraise hkept.1 hkept.2 hstep

end

section
variable {W : Type} (runtime : Runtime W) (module : Module) (f : Function)

/-- A body that is at the beginning of a block. -/
def AtBlock (id : BlockId) : Configuration W → Prop
  | .running frame _ => frame.block = id ∧ Starts f frame
  | _ => False

/-- The condition lets a value of the counter into the body, the body comes to the latch, and that
    leads back to the condition. -/
inductive Round (loop : ForLoop) (last : BlockId) (c : Configuration W) (v : gc.Value)
    (d : Configuration W) : Prop
  | mk {entry ends : Configuration W}
      (hcondition : Passes runtime module f (· = loop.conditionBlock) c entry)
      (hentry : AtBlock f loop.bodyBlock entry) (hcounter : slotOf loop.counter entry = some v)
      (hbody : Passes runtime module f (loop.InBody last) entry ends)
        (hends : AtBlock f loop.stepBlock ends)
      (hstep : Passes runtime module f (· = loop.stepBlock) ends d) (hd : AtBlock f loop.conditionBlock d)

inductive Rounds (loop : ForLoop) (last : BlockId) :
    Configuration W → List gc.Value → Configuration W → Prop
  | nil (c : Configuration W) : Rounds loop last c [] c
  | cons {c d out : Configuration W} {v : gc.Value} {vs : List gc.Value}
      (hround : Round runtime module f loop last c v d)
      (hrounds : Rounds loop last d vs out) : Rounds loop last c (v :: vs) out

/-- Each iteration of the body that a run comes to ends at the latch: normally, or by a continue. -/
def BodyEnds (loop : ForLoop) (last : BlockId) (c : Configuration W) : Prop :=
  ∀ vs d entry, Rounds runtime module f loop last c vs d →
    Passes runtime module f (· = loop.conditionBlock) d entry → AtBlock f loop.bodyBlock entry →
    ∃ ends, Passes runtime module f (loop.InBody last) entry ends ∧ AtBlock f loop.stepBlock ends

/-- No instruction of the body writes the counter. -/
def KeepsCounter (loop : ForLoop) (last : BlockId) : Prop :=
  ∀ id b, loop.InBody last id → f.block id = some b →
    ∀ i ∈ b.instructions, slotWrittenBy i.opcode = true → i.slot ≠ loop.counter

end

/-- How many values a range has. -/
def rangeCount (s e d : ℤ) : ℕ :=
  if 0 < d then ((e - s + d - 1) / d).toNat else if d < 0 then ((s - e - d - 1) / -d).toNat else 0

/-- `s`, `s + d`, `s + 2 * d` and so on, before `e`. -/
def rangeValues (s e d : ℤ) : List ℤ := (List.range (rangeCount s e d)).map fun i : ℕ => s + i * d

/-- A value lies before the bound, in the direction of the step. -/
def Before (s e d : ℤ) : Prop := 0 < d ∧ s < e ∨ d < 0 ∧ e < s

instance (s e d : ℤ) : Decidable (Before s e d) := inferInstanceAs (Decidable (_ ∨ _))

theorem rangeCount_before {s e d : ℤ} (h : Before s e d) :
    rangeCount s e d = rangeCount (s + d) e d + 1 := by
  unfold rangeCount
  rcases h with ⟨hd, hlt⟩ | ⟨hd, hlt⟩
  · have hshift : e - s + d - 1 = (e - (s + d) + d - 1) + 1 * d := by ring
    have hnonneg : 0 ≤ (e - (s + d) + d - 1) / d := Int.ediv_nonneg (by omega) hd.le
    rw [if_pos hd, if_pos hd, hshift, Int.add_mul_ediv_right _ _ hd.ne']
    omega
  · have hshift : s - e - d - 1 = (s + d - e - d - 1) + 1 * -d := by ring
    have hnonneg : 0 ≤ (s + d - e - d - 1) / -d := Int.ediv_nonneg (by omega) (by omega)
    rw [if_neg hd.not_gt, if_pos hd, if_neg hd.not_gt, if_pos hd, hshift,
      Int.add_mul_ediv_right _ _ (by omega)]
    omega

theorem rangeValues_before {s e d : ℤ} (h : Before s e d) :
    rangeValues s e d = s :: rangeValues (s + d) e d := by
  rw [rangeValues, rangeCount_before h, List.range_succ_eq_map, List.map_cons, List.map_map, rangeValues]
  simp only [Nat.cast_zero, zero_mul, add_zero, List.cons.injEq, true_and]
  refine List.map_congr_left fun i _ => ?_
  simp only [Function.comp_apply, Nat.succ_eq_add_one, Nat.cast_add, Nat.cast_one]
  ring

theorem rangeValues_end {s e d : ℤ} (h : ¬Before s e d) : rangeValues s e d = [] := by
  have hcount : rangeCount s e d = 0 := by
    unfold rangeCount Before at *
    split
    next hd =>
      have hlt : (e - s + d - 1) / d < 1 := Int.ediv_lt_of_lt_mul hd (by omega)
      omega
    next hd =>
      split
      next hd' =>
        have hlt : (s - e - d - 1) / -d < 1 := Int.ediv_lt_of_lt_mul (by omega) (by omega)
        omega
      next => rfl
  rw [rangeValues, hcount]
  rfl

theorem goesOn_eq {c e d : Int64} (hd : d ≠ 0) :
    goesOn c e d = decide (Before c.toInt e.toInt d.toInt) := by
  have hne : d.toInt ≠ 0 := fun h => hd (Int64.toInt_inj.mp h)
  unfold goesOn Before
  simp only [Int64.lt_iff_toInt_lt, Int64.toInt_zero]
  by_cases hpos : 0 < d.toInt
  · simp [hpos, hpos.le]
  · have hneg : d.toInt < 0 := by omega
    simp [hpos, hneg]

section
variable {W : Type} {runtime : Runtime W} {module : Module} {f : Function} {types : TypeTable}
  {loop : ForLoop} {last : BlockId} {frame next : Frame} {world world' : W} {c e d : Int64}

/-- The body leaves the counter, the bound and the step as they are. -/
theorem passes_body (hlaid : Laid types f loop last) (hdispatches : runtime.Dispatches)
    (hkeeps : KeepsCounter f loop last) (hstarts : Starts f frame)
    (hpasses : Passes runtime module f (loop.InBody last) (.running frame world) (.running next world'))
    (hnext : next.block = loop.stepBlock) (hholds : Holds loop frame c e d) : Holds loop next c e d := by
  have hslots {g : Frame} {w : W} {b : BasicBlock} (hin : loop.InBody last g.block)
      (hstanding : Standing f g b) {g' : Frame} {w' : W}
      (hstep : step runtime module f (.running g w) = .running g' w')
      (hto : loop.InBody last g'.block ∨ g'.block = loop.stepBlock) (slot : SlotId)
      (hslot : slot ∈ [loop.counter, loop.endSlot, loop.stepSlot]) : g'.slots slot = g.slots slot := by
    obtain ⟨hwrites, hcatches⟩ := hlaid.writes g.block b hin hstanding.block
    refine step_slots hdispatches hstanding hstep (fun i hi hwritten => ?_) (fun h hh hblock => ?_)
    · have hcounter := hkeeps g.block b hin hstanding.block i hi hwritten
      have hothers := hwrites i hi hwritten
      simp only [List.mem_cons, List.not_mem_nil, or_false] at hslot
      rcases hslot with rfl | rfl | rfl
      · exact hcounter
      · exact hothers.1
      · exact hothers.2
    · refine (hcatches h hh (hblock ▸ hto)).imp_right fun hne => ?_
      simp only [List.mem_cons, List.not_mem_nil, or_false] at hslot
      rcases hslot with rfl | rfl | rfl
      · exact hne.1
      · exact hne.2.1
      · exact hne.2.2
  let P (s : Configuration W) : Prop := Placed f s ∧
    ∀ slot ∈ [loop.counter, loop.endSlot, loop.stepSlot], slotOf slot s = frame.slots slot
  obtain ⟨b, hb, hrest⟩ := hstarts
  obtain ⟨final, hin, ⟨hplaced, hkept⟩, hstep⟩ := hpasses.2.exists_last (P := P) hpasses.1
    ⟨⟨b, hb, hrest ▸ List.suffix_rfl⟩, fun _ _ => rfl⟩ fun s hs hs' hP => by
      obtain ⟨hplaced, hkept⟩ := hP
      refine ⟨placed_step hplaced, fun slot hslot => ?_⟩
      cases s with
      | running g w =>
        obtain ⟨b, hstanding⟩ := hplaced
        cases hg : step runtime module f (.running g w) with
        | running g' w' =>
          rw [hg] at hs'
          exact (hslots hs hstanding hg (.inl hs') slot hslot).trans (hkept slot hslot)
        | returned | raised | stuck =>
          rw [hg] at hs'
          exact absurd hs' id
      | returned | raised | stuck => exact absurd hs id
  cases final with
  | returned | raised | stuck => exact absurd hin id
  | running g w =>
    obtain ⟨b, hstanding⟩ := hplaced
    have hsame (slot : SlotId) (hslot : slot ∈ [loop.counter, loop.endSlot, loop.stepSlot]) :
        next.slots slot = frame.slots slot :=
      (hslots hin hstanding hstep (.inr hnext) slot hslot).trans (hkept slot hslot)
    exact ⟨(hsame _ (by simp)).trans hholds.counter, (hsame _ (by simp)).trans hholds.endSlot,
      (hsame _ (by simp)).trans hholds.stepSlot⟩

theorem Passes.unique {region : BlockId → Prop} {a b b' : Configuration W}
    (h : Passes runtime module f region a b) (h' : Passes runtime module f region a b') : b = b' :=
  h.2.unique h'.2

/-- The values of a range, as the machine holds them. -/
def heldValues (s e d : Int64) : List gc.Value :=
  (rangeValues s.toInt e.toInt d.toInt).map fun c => .int (.ofInt c)

/-- The next value of the counter is an integer of 64 bits. -/
def NextFits (d : Int64) (c : ℤ) : Prop := -2 ^ 63 ≤ c + d.toInt ∧ c + d.toInt < 2 ^ 63

instance (d : Int64) (c : ℤ) : Decidable (NextFits d c) := inferInstanceAs (Decidable (_ ∧ _))

theorem exists_next {d : Int64} {c : ℤ} (h : NextFits d c) :
    ∃ v, representable (c + d.toInt) = some v ∧ v.toInt = c + d.toInt := by
  cases hsum : representable (c + d.toInt) with
  | none =>
    have hout := representable_eq_none.mp hsum
    unfold NextFits at h
    omega
  | some v => exact ⟨v, rfl, representable_eq_some.mp hsum⟩

theorem heldValues_before (h : Before c.toInt e.toInt d.toInt) {v : Int64}
    (hv : v.toInt = c.toInt + d.toInt) :
    heldValues c e d = .int c :: heldValues v e d := by
  rw [heldValues, rangeValues_before h, List.map_cons, heldValues, hv, Int64.ofInt_toInt]

theorem before_of_rangeCount {a b d : ℤ} {n : ℕ} (h : rangeCount a b d = n + 1) : Before a b d := by
  by_contra hend
  have hnil := congrArg List.length (rangeValues_end hend)
  rw [rangeValues, List.length_map, List.length_range, h] at hnil
  exact Nat.succ_ne_zero _ hnil

/-- An iteration of the loop, up to the latch. -/
theorem exists_latch (hlaid : Laid types f loop last) (hdispatches : runtime.Dispatches)
    (hkeeps : KeepsCounter f loop last) (hd : d ≠ 0) (hblock : frame.block = loop.conditionBlock)
    (hstarts : Starts f frame) (hholds : Holds loop frame c e d)
    (hbody : BodyEnds runtime.ranging module f loop last (.running frame world))
    (hbefore : Before c.toInt e.toInt d.toInt) :
    ∃ entry latch w, Passes runtime.ranging module f (· = loop.conditionBlock) (.running frame world)
        (.running entry world) ∧ AtBlock f loop.bodyBlock (.running entry world) ∧
      entry.slots loop.counter = some (.int c) ∧
      Passes runtime.ranging module f (loop.InBody last) (.running entry world) (.running latch w) ∧
      AtBlock f loop.stepBlock (.running latch w) ∧ Holds loop latch c e d := by
  obtain ⟨entry, hcondition, hentry, hstarts', hslots⟩ :=
    passes_condition runtime module world hlaid hblock hstarts hholds hd
  rw [goesOn_eq hd, decide_eq_true hbefore] at hentry
  have hholds' : Holds loop entry c e d :=
    ⟨hslots ▸ hholds.counter, hslots ▸ hholds.endSlot, hslots ▸ hholds.stepSlot⟩
  obtain ⟨ends, hpasses, hends⟩ := hbody [] _ _ (.nil _) hcondition ⟨hentry, hstarts'⟩
  cases ends with
  | running latch w =>
    have hranging : runtime.ranging.Dispatches := hdispatches
    exact ⟨entry, latch, w, hcondition, ⟨hentry, hstarts'⟩, hholds'.counter, hpasses, hends,
      passes_body hlaid hranging hkeeps hstarts' hpasses hends.1 hholds'⟩
  | returned | raised | stuck => exact absurd hends id

/-- If no next value leaves the integers, the rounds are those of the range. -/
theorem rounds_range (hlaid : Laid types f loop last) (hdispatches : runtime.Dispatches)
    (hkeeps : KeepsCounter f loop last) (hd : d ≠ 0) (hblock : frame.block = loop.conditionBlock)
    (hstarts : Starts f frame) (hholds : Holds loop frame c e d)
    (hbody : BodyEnds runtime.ranging module f loop last (.running frame world))
    (hfits : ∀ v ∈ rangeValues c.toInt e.toInt d.toInt, NextFits d v) :
    ∃ b out, Rounds runtime.ranging module f loop last (.running frame world) (heldValues c e d) b ∧
      Passes runtime.ranging module f (· = loop.conditionBlock) b out ∧ AtBlock f loop.exitBlock out := by
  generalize hcount : rangeCount c.toInt e.toInt d.toInt = count
  induction count generalizing c frame world with
  | zero =>
    have hend : ¬Before c.toInt e.toInt d.toInt := fun h => by
      rw [rangeCount_before h] at hcount
      exact Nat.succ_ne_zero _ hcount
    obtain ⟨next, hpasses, hnext, hstarts', -⟩ :=
      passes_condition runtime module world hlaid hblock hstarts hholds hd
    rw [goesOn_eq hd, decide_eq_false hend] at hnext
    rw [heldValues, rangeValues_end hend]
    exact ⟨_, _, .nil _, hpasses, hnext, hstarts'⟩
  | succ count ih =>
    have hbefore := before_of_rangeCount hcount
    rw [rangeValues_before hbefore] at hfits
    obtain ⟨v, hsum, hv⟩ := exists_next (hfits _ List.mem_cons_self)
    obtain ⟨entry, latch, w, hcondition, hentry, hcounter, hpasses, hlatch, hholds'⟩ :=
      exists_latch hlaid hdispatches hkeeps hd hblock hstarts hholds hbody hbefore
    obtain ⟨next, hstep, hnext, hstarts'', hholds''⟩ :=
      passes_step runtime.ranging module w hlaid hlatch.1 hlatch.2 hholds' hsum
    have hround : Round runtime.ranging module f loop last (.running frame world) (.int c)
        (.running next w) :=
      .mk hcondition hentry hcounter hpasses hlatch hstep ⟨hnext, hstarts''⟩
    rw [← hv] at hfits
    obtain ⟨b, out, hrounds, hout⟩ := ih hnext hstarts'' hholds''
      (fun vs d' entry hrounds => hbody _ d' entry (.cons hround hrounds))
      (fun v' hv' => hfits v' (List.mem_cons_of_mem _ hv'))
      (by
        rw [rangeCount_before hbefore, ← hv] at hcount
        exact Nat.succ.inj hcount)
    refine ⟨b, out, ?_, hout⟩
    rw [heldValues_before hbefore hv]
    exact .cons hround hrounds

/-- In the rounds of a range no next value leaves the integers. -/
theorem fits_of_rounds (hlaid : Laid types f loop last) (hdispatches : runtime.Dispatches)
    (hkeeps : KeepsCounter f loop last) (hd : d ≠ 0) (hblock : frame.block = loop.conditionBlock)
    (hstarts : Starts f frame) (hholds : Holds loop frame c e d)
    (hbody : BodyEnds runtime.ranging module f loop last (.running frame world)) {b : Configuration W}
    (hrounds : Rounds runtime.ranging module f loop last (.running frame world) (heldValues c e d) b) :
    ∀ v ∈ rangeValues c.toInt e.toInt d.toInt, NextFits d v := by
  generalize hcount : rangeCount c.toInt e.toInt d.toInt = count
  induction count generalizing c frame world with
  | zero =>
    rw [rangeValues, hcount]
    exact fun v hv => absurd hv List.not_mem_nil
  | succ count ih =>
    have hbefore := before_of_rangeCount hcount
    obtain ⟨entry, latch, w, hcondition, hentry, hcounter, hpasses, hlatch, hholds'⟩ :=
      exists_latch hlaid hdispatches hkeeps hd hblock hstarts hholds hbody hbefore
    have hheld : heldValues c e d = .int c :: (rangeValues (c.toInt + d.toInt) e.toInt d.toInt).map
        fun c => .int (.ofInt c) := by
      rw [heldValues, rangeValues_before hbefore, List.map_cons, Int64.ofInt_toInt]
    rw [hheld] at hrounds
    cases hrounds with
    | @cons _ middle _ _ _ hround hrounds =>
      obtain ⟨hcondition', -, -, hpasses', -, hstep, hmiddle⟩ := hround
      obtain rfl := hcondition.unique hcondition'
      obtain rfl := hpasses.unique hpasses'
      cases hsum : representable (c.toInt + d.toInt) with
      | none =>
        cases middle with
        | running next w' =>
          have hranging : runtime.ranging.Dispatches := hdispatches
          exact absurd hmiddle.1
            (not_passes_step hlaid hranging hlatch.1 hlatch.2 hholds' hsum hstep)
        | returned | raised | stuck => exact absurd hmiddle id
      | some v =>
        have hv : v.toInt = c.toInt + d.toInt := representable_eq_some.mp hsum
        obtain ⟨next, hstep', hnext, hstarts'', hholds''⟩ :=
          passes_step runtime.ranging module w hlaid hlatch.1 hlatch.2 hholds' hsum
        obtain rfl := hstep'.unique hstep
        rw [rangeValues_before hbefore, ← hv]
        rw [← hv] at hrounds
        refine List.forall_mem_cons.mpr ⟨?_, ih hnext hstarts'' hholds'' (fun vs d' entry hrounds' => ?_)
          hrounds ?_⟩
        · rw [NextFits, ← hv]
          exact ⟨v.le_toInt, v.toInt_lt⟩
        · exact hbody _ d' entry (.cons (.mk hcondition hentry hcounter hpasses hlatch hstep
            ⟨hnext, hstarts''⟩) hrounds')
        · rw [rangeCount_before hbefore, ← hv] at hcount
          exact Nat.succ.inj hcount

/-- What a loop over a range does, from its condition on. -/
def EnumeratesRange (runtime : Runtime W) (module : Module) (f : Function) (loop : ForLoop)
    (last : BlockId)
    (s : Configuration W) (c e d : Int64) : Prop :=
  if d = 0 then RaisesIn runtime module f loop.conditionBlock (.error zeroStep) s
  else ∃ b out, Rounds runtime module f loop last s (heldValues c e d) b ∧
    Passes runtime module f (· = loop.conditionBlock) b out ∧ AtBlock f loop.exitBlock out

theorem enumeratesRange_iff (hlaid : Laid types f loop last) (hdispatches : runtime.Dispatches)
    (hkeeps : KeepsCounter f loop last) (hblock : frame.block = loop.conditionBlock)
    (hstarts : Starts f frame) (hholds : Holds loop frame c e d)
    (hbody : BodyEnds runtime.ranging module f loop last (.running frame world)) :
    EnumeratesRange runtime.ranging module f loop last (.running frame world) c e d ↔
      d = 0 ∨ ∀ v ∈ rangeValues c.toInt e.toInt d.toInt, NextFits d v := by
  unfold EnumeratesRange
  split
  next hd =>
    subst hd
    exact iff_of_true (raises_condition hlaid hblock hstarts hholds) (.inl rfl)
  next hd =>
    rw [or_iff_right hd]
    constructor
    · rintro ⟨b, out, hrounds, -⟩
      exact fits_of_rounds hlaid hdispatches hkeeps hd hblock hstarts hholds hbody hrounds
    · exact rounds_range hlaid hdispatches hkeeps hd hblock hstarts hholds hbody

theorem passes_range (runtime : Runtime W) (module : Module) (world : W) {start stop step : Operand}
    {n : ℕ} {target b : BasicBlock} (hb : f.block frame.block = some b)
    (hterminator : b.terminator = { kind := .Jump, target := loop.conditionBlock })
    (htarget : f.block loop.conditionBlock = some target) (hne : frame.block ≠ loop.conditionBlock)
    (hcounter : loop.counter = n + 1) (hend : loop.endSlot = n + 2) (hstepSlot : loop.stepSlot = n + 3)
    (hrest : frame.rest = rangeStores n start stop step)
    (hstart : operandValue runtime module frame.values world start = .int c)
    (hstop : operandValue runtime module frame.values world stop = .int e)
    (hstep : operandValue runtime module frame.values world step = .int d) :
    ∃ next, Passes runtime module f (· = frame.block) (.running frame world) (.running next world) ∧
      next.block = loop.conditionBlock ∧ Starts f next ∧ Holds loop next c e d := by
  obtain ⟨id, rest, values, slots⟩ := frame
  dsimp only at hb hne hrest hstart hstop hstep
  rw [hrest, rangeStores]
  refine ⟨⟨loop.conditionBlock, target.instructions, values, Function.update (Function.update
    (Function.update slots (n + 1) (some (.int c))) (n + 2) (some (.int e))) (n + 3) (some (.int d))⟩,
    ⟨rfl, .stay rfl ?_⟩, rfl, ⟨target, htarget, rfl⟩, ?_⟩
  · rw [step_store, hstart]
    refine .stay rfl ?_
    rw [step_store, hstop]
    refine .stay rfl ?_
    rw [step_store, hstep]
    refine .stay rfl ?_
    rw [step_jump hb hterminator htarget]
    exact .out hne.symm
  · exact ⟨by simp [hcounter], by simp [hend], by simp [hstepSlot]⟩

/-- What a lowered for loop does once its range is evaluated: its body runs for the values of the range,
    and control comes to the block behind. -/
def RunsLoop (runtime : Runtime W) (module : Module) (f : Function) (l : FunctionLowerer) (last : BlockId)
    (s : Configuration W) (c e d : Int64) : Prop :=
  ∃ a, Passes runtime module f (· = l.fb.current) s a ∧ AtBlock f (loopAt l).conditionBlock a ∧
    EnumeratesRange runtime module f (loopAt l) last a c e d

section
variable {node : ForStmt} {l₀ l : FunctionLowerer} {start stop step : Operand}

/-- The range comes to the condition in the slots of the loop. -/
theorem passes_preheader (runtime : Runtime W) (module : Module) (world : W)
    (hlaid : Laid types f (loopAt l) last) (hstands : l.fb.current ≤ l.fb.function.blocks.length)
    {b : BasicBlock} (hb : f.block l.fb.current = some b)
    (hterminator : b.terminator = { kind := .Jump, target := (loopAt l).conditionBlock })
    (hblock : frame.block = l.fb.current)
    (hrest : frame.rest = rangeStores l.fb.function.slots.length start stop step)
    (hstart : operandValue runtime module frame.values world start = .int c)
    (hstop : operandValue runtime module frame.values world stop = .int e)
    (hstep : operandValue runtime module frame.values world step = .int d) :
    ∃ next, Passes runtime module f (· = l.fb.current) (.running frame world) (.running next world) ∧
      AtBlock f (loopAt l).conditionBlock (.running next world) ∧ Holds (loopAt l) next c e d := by
  obtain ⟨target, -, -, -, htarget, -⟩ := hlaid.condition
  have hne : frame.block ≠ (loopAt l).conditionBlock := fun h =>
    absurd (h.symm.trans hblock ▸ hstands) (Nat.not_succ_le_self _)
  obtain ⟨next, hpasses, hnext, hstarts, hholds⟩ :=
    passes_range runtime module world (hblock ▸ hb) hterminator htarget hne rfl rfl rfl hrest
      hstart hstop hstep
  exact ⟨next, hblock ▸ hpasses, ⟨hnext, hstarts⟩, hholds⟩

/-- A lowered for loop runs its body for the values of its range and comes to the block behind, exactly
    if every value has a next one among the integers, also the last. A step of zero raises before the
    first round. The body has to end at the latch and leave the counter alone. -/
theorem for_loop_enumerates_iff (hlowered : RangeLowered types node l₀ l start stop step) (hready : Ready l)
    (hextends : ∀ l, Ready l → Extends l (node.body l).2)
    (hcompletes : Completes (forStatement types module node l₀).2 f) (hdispatches : runtime.Dispatches)
    (hlast : last = (forStatement types module node l₀).2.fb.function.blocks.length)
    (hblock : frame.block = l.fb.current)
    (hrest : frame.rest = rangeStores l.fb.function.slots.length start stop step)
    (hstart : operandValue runtime.ranging module frame.values world start = .int c)
    (hstop : operandValue runtime.ranging module frame.values world stop = .int e)
    (hstep : operandValue runtime.ranging module frame.values world step = .int d)
    (hkeeps : KeepsCounter f (loopAt l) last)
    (hbody : ∀ a, Passes runtime.ranging module f (· = l.fb.current) (.running frame world) a →
      BodyEnds runtime.ranging module f (loopAt l) last a) :
    RunsLoop runtime.ranging module f l last (.running frame world) c e d ↔
      d = 0 ∨ ∀ v ∈ rangeValues c.toInt e.toInt d.toInt, NextFits d v := by
  subst hlast
  obtain ⟨hlaid, hstands, old, b, -, hb, -, hterminator⟩ :=
    forStatement_laid hlowered hready hextends hcompletes
  obtain ⟨next, hpasses, hnext, hholds⟩ :=
    passes_preheader runtime.ranging module world hlaid hstands hb hterminator hblock
    hrest hstart hstop hstep
  rw [← enumeratesRange_iff hlaid hdispatches hkeeps hnext.1 hnext.2 hholds (hbody _ hpasses)]
  constructor
  · rintro ⟨a, hpasses', -, henumerates⟩
    exact hpasses.unique hpasses' ▸ henumerates
  · exact fun henumerates => ⟨_, hpasses, hnext, henumerates⟩

end

end

def loopTypes : TypeTable :=
  { find := fun _ => none, isNullable := fun _ => false, boolType := 2, intType := 1, doubleType := 3
    stringType := 4 }

def constantRange (c e d : Int) : Module :=
  { constants := [{ kind := .Int, intValue := c }, { kind := .Int, intValue := e },
      { kind := .Int, intValue := d }] }

def emptyLoop : ForStmt :=
  { storageName := "", varName := "i", start := pure (.constant 1 1), stop := pure (.constant 2 1)
    step := pure (.constant 3 1), body := pure () }

/-- A function of one block, of which nothing is lowered yet. -/
def loopEntry : FunctionLowerer :=
  { fb := { function := { blocks := [{ id := 1 }], entryBlock := 1 }, current := 1 }, scopes := [[]] }

def loopFunction : Function := (forStatement loopTypes {} emptyLoop loopEntry).2.fb.function

def handlerless : Runtime Unit :=
  { library := { pow := fun x _ => x, format := fun _ => [] }
    memory := fun _ => ⟨{}, fun _ => .handle 0⟩
    static := fun _ _ => .nil
    matchType := fun w _ _ => (false, w)
    effect := fun _ _ _ w => { result := .ok .nil, world := w }
    dispatch := fun _ _ _ => none
    caught := fun _ w => (.nil, w) }

theorem handlerless_dispatches : handlerless.Dispatches :=
  fun _ _ _ _ h => (Option.some_ne_none _ h.symm).elim

/-- The range is evaluated, and no slot is set. -/
def loopFrame : Frame :=
  { block := 1, rest := rangeStores 0 (.constant 1 1) (.constant 2 1) (.constant 3 1),
    values := fun _ => .nil
    slots := fun _ => none }

theorem loopEntry_ready : Ready loopEntry where
  numbered := fun b hb => by
    rw [List.mem_singleton.mp hb]
    exact le_rfl
  current := ⟨{ id := 1 }, by decide⟩
  temps := Nat.one_pos
  handlers := fun h hh => absurd hh List.not_mem_nil
  scopes := fun scope hscope name slot hmem => by
    rw [List.mem_singleton.mp hscope] at hmem
    cases hmem

theorem emptyLoop_lowered :
    RangeLowered loopTypes emptyLoop loopEntry loopEntry (.constant 1 1) (.constant 2 1)
      (.constant 3 1) where
  runs := ⟨_, _, rfl, rfl, rfl⟩
  operands := ⟨rfl, rfl, rfl⟩
  types := ⟨rfl, rfl, rfl⟩
  succeeds := rfl

theorem emptyLoop_extends (l : FunctionLowerer) (hready : Ready l) : Extends l (emptyLoop.body l).2 where
  numbered := hready.numbered
  length := le_rfl
  current := .inl rfl
  temps := hready.temps
  kept := fun _ _ _ => rfl
  stands := hready.current
  writes := fun _ b' _ hb' _ hi _ => .inl ⟨b', hb', hi⟩
  catches := fun _ b' _ hb' _ hh => .inl ⟨b', hb', hh⟩

/-- The lowering of the loop does not look at the constants. -/
theorem emptyLoop_completes (module : Module) :
    Completes (forStatement loopTypes module emptyLoop loopEntry).2 loopFunction := by
  have hsame : (forStatement loopTypes module emptyLoop loopEntry).2 =
      (forStatement loopTypes {} emptyLoop loopEntry).2 := rfl
  rw [hsame]
  exact ⟨fun _ _ _ => rfl, Option.isSome_iff_exists.mp (by decide)⟩

theorem loopFunction_body {id : BlockId} {b : BasicBlock} (hid : (loopAt loopEntry).InBody 5 id)
    (hb : loopFunction.block id = some b) :
    id = 3 ∧ b.instructions = [] ∧ b.terminator = { kind := .Jump, target := 4 } := by
  have hid' : id = 3 := by
    rcases hid with rfl | ⟨hlt, hle⟩
    · rfl
    · exact absurd (hlt.trans_le hle) (lt_irrefl 5)
  subst hid'
  have hthree : loopFunction.block 3 =
    some { id := 3, terminator := { kind := .Jump, target := 4 } } := by decide
  rw [hthree] at hb
  cases hb
  exact ⟨rfl, rfl, rfl⟩

theorem loopFunction_keepsCounter : KeepsCounter loopFunction (loopAt loopEntry) 5 := by
  intro id b hid hb i hi
  rw [(loopFunction_body hid hb).2.1] at hi
  cases hi

theorem loopFunction_bodyEnds (module : Module) (a : Configuration Unit) :
    BodyEnds handlerless.ranging module loopFunction (loopAt loopEntry) 5 a := by
  intro vs d entry _ _ hentry
  cases entry with
  | running frame world =>
    obtain ⟨id, rest, values, slots⟩ := frame
    obtain ⟨hblock, b, hb, hrest⟩ := hentry
    obtain ⟨hid, hempty, hterminator⟩ := loopFunction_body (.inl hblock) hb
    dsimp only at hb hrest hid
    subst hid
    rw [hrest, hempty]
    obtain ⟨target, htarget⟩ : ∃ target, loopFunction.block 4 = some target :=
      Option.isSome_iff_exists.mp (by decide)
    have hout : ¬(loopAt loopEntry).InBody 5 4 := fun h =>
      h.elim (fun heq => absurd heq (by decide)) fun hlt => absurd hlt.1 (by decide)
    refine ⟨.running ⟨4, target.instructions, values, slots⟩ world, ⟨.inl rfl, .stay (.inl rfl) ?_⟩, rfl,
      target, htarget, rfl⟩
    rw [step_jump hb hterminator htarget]
    exact .out hout
  | returned | raised | stuck => exact absurd hentry id

/-- Three rounds from zero on. -/
theorem loop_enumerates_three :
    RunsLoop handlerless.ranging (constantRange 0 3 1) loopFunction loopEntry 5
      (.running loopFrame ()) 0 3 1 :=
  (for_loop_enumerates_iff emptyLoop_lowered loopEntry_ready emptyLoop_extends (emptyLoop_completes _)
    handlerless_dispatches rfl rfl rfl rfl rfl rfl loopFunction_keepsCounter
    fun a _ => loopFunction_bodyEnds _ a).mpr (.inr (by decide))

/-- From `2^63 - 2` to `2^63 - 1` in steps of two there is one round, and the latch of it raises. -/
theorem loop_raises_at_the_end : KeepsCounter loopFunction (loopAt loopEntry) 5 ∧
    (∀ a, BodyEnds handlerless.ranging (constantRange (2 ^ 63 - 2) (2 ^ 63 - 1) 2) loopFunction
      (loopAt loopEntry) 5 a) ∧
    ¬RunsLoop handlerless.ranging (constantRange (2 ^ 63 - 2) (2 ^ 63 - 1) 2) loopFunction loopEntry 5
      (.running loopFrame ()) (.ofInt (2 ^ 63 - 2)) (.ofInt (2 ^ 63 - 1)) 2 := by
  refine ⟨loopFunction_keepsCounter, loopFunction_bodyEnds _, ?_⟩
  rintro ⟨a, hpasses, -, henumerates⟩
  obtain ⟨hlaid, hstands, old, b, -, hb, -, hterminator⟩ :=
    forStatement_laid emptyLoop_lowered loopEntry_ready emptyLoop_extends (emptyLoop_completes {})
  obtain ⟨next, hpasses', hnext, hholds⟩ := passes_preheader handlerless.ranging
    (constantRange (2 ^ 63 - 2) (2 ^ 63 - 1) 2) () hlaid hstands hb hterminator
    (rfl : loopFrame.block = loopEntry.fb.current) (c := .ofInt (2 ^ 63 - 2))
      (e := .ofInt (2 ^ 63 - 1)) (d := 2)
    rfl rfl rfl rfl
  obtain rfl := hpasses.unique hpasses'
  have hfits :=
    (enumeratesRange_iff hlaid handlerless_dispatches loopFunction_keepsCounter hnext.1 hnext.2 hholds
    (loopFunction_bodyEnds _ _)).mp henumerates
  exact absurd hfits (by decide)

end zl.mir.interpreter
