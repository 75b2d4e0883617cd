import Zl.Mir.FoldingAgreement
import Zl.Mir.VmBackend.Terminators

open zl.vm zl.vm.value

namespace zl.mir

/-- The opcodes that read a slot, and those that write one. -/
def slotReadBy : Opcode → Bool
  | .Load | .Move | .Drop | .EndBorrow => true
  | _ => false

def slotWrittenBy : Opcode → Bool
  | .Store | .Move | .Borrow | .EndBorrow | .Drop => true
  | _ => false

namespace interpreter

/-- An exception: one of the machine, or a value that the program throws. -/
inductive Thrown where
  | error (e : VmError)
  | value (v : gc.Value)

/-- What an instruction with an effect does: its result or exception, and what its slot holds
    afterwards. -/
structure Outcome (W : Type) where
  result : Except Thrown gc.Value
  slot : Option gc.Value := none
  world : W

/-- What a body runs in. The world is everything outside of it: the heap, statics, tasks, what was
    logged and called. The instructions with an effect, the choice of a handler and the exception
    object that it binds are left open. -/
structure Runtime (W : Type) where
  library : Library
  memory : W → Memory
  static : W → StaticId → gc.Value
  matchType : W → TypeId → gc.Value → Bool × W
  effect : Instruction → List gc.Value → Option gc.Value → W → Outcome W
  dispatch : List ExceptionHandler → Thrown → W → Option ExceptionHandler
  caught : Thrown → W → gc.Value × W

/-- A place in a body, with what is left of its block, and the values there. -/
structure Frame where
  block : BlockId
  rest : List Instruction
  values : ValueId → gc.Value
  slots : SlotId → Option gc.Value

/-- A body that runs or has ended. The captured variables of a closure outlive it. -/
inductive Configuration (W : Type) where
  | running (frame : Frame) (world : W)
  | returned (value : Option gc.Value) (captured : SlotId → Option gc.Value) (world : W)
  | raised (thrown : Thrown) (captured : SlotId → Option gc.Value) (world : W)
  | stuck

/-- A temp gets its value. -/
def Frame.define (frame : Frame) (result : TempId) (v : gc.Value) : Frame :=
  if result = kNoTemp then frame else { frame with values := Function.update frame.values (.temp result) v }

def Frame.setSlot (frame : Frame) (slot : SlotId) (v : Option gc.Value) : Frame :=
  { frame with slots := Function.update frame.slots slot v }

/-- The parameters of a block are bound together, to values that were read before. -/
def bindParameters (values : ValueId → gc.Value) (parameters : List BlockParameter)
    (arguments : List gc.Value) : ValueId → gc.Value :=
  (parameters.zip arguments).foldl
    (fun values binding => Function.update values (.blockParam binding.1.id) binding.2) values

/-- The successor that a terminator selects, and which of its edges leads there. A switch has no
    edge for a case without a block. -/
def selected (memory : Memory) (t : Terminator) (v : gc.Value) : BlockId × Nat :=
  let edges (cases : List SwitchTarget) : Nat := (cases.filter (·.block != kNoBlock)).length
  match t.kind with
  | .Branch => if isTruthy memory v then (t.target, 0) else (t.elseBlock, 1)
  | .Switch =>
    match t.cases.findIdx? fun target => v = .int (.ofInt target.value) with
    | some i => ((t.cases.getD i {}).block, edges (t.cases.take i))
    | none => (t.target, edges t.cases)
  | _ => (t.target, 0)

section
variable {W : Type} (runtime : Runtime W) (module : Module) (function : Function)

def operandValue (values : ValueId → gc.Value) (world : W) (operand : Operand) : gc.Value :=
  match constantOperand module operand with
  | some c => constantValue c
  | none =>
    match valueOf operand with
    | some id => values id
    | none => if operand.kind = .Static then runtime.static world operand.index else .nil

/-- The slots that outlive the body. -/
def captured (frame : Frame) : SlotId → Option gc.Value :=
  if function.captures.isEmpty then fun _ => none else frame.slots

/-- The handlers of the block are asked for the exception. -/
def raise (frame : Frame) (thrown : Thrown) (world : W) : Configuration W :=
  match function.block frame.block with
  | none => .stuck
  | some block =>
    match runtime.dispatch block.exceptionHandlers thrown world with
    | none => .raised thrown (captured function frame) world
    | some handler =>
      match function.block handler.block with
      | none => .stuck
      | some target =>
        let (exception, world) := runtime.caught thrown world
        let frame := { frame with block := handler.block, rest := target.instructions }
        .running (if handler.catchSlot = 0 then frame else frame.setSlot handler.catchSlot
          (some exception)) world

/-- An instruction, where the frame has the rest of the block after it. -/
def execute (frame : Frame) (world : W) (instruction : Instruction) : Configuration W :=
  let arguments := instruction.operands.map (operandValue runtime module frame.values world)
  let operator (result : Except VmError gc.Value) : Configuration W :=
    match result with
    | .ok v => .running (frame.define instruction.result v) world
    | .error e => raise runtime function frame (.error e) world
  match instruction.opcode with
  | .Nop => .running frame world
  | .Load => operator (match frame.slots instruction.slot with
    | some v => .ok v
    | none => .error (.runtime ("undefined variable '" ++
        VmBackend.slotLocal function instruction.slot ++ "'")))
  | .Store => .running (frame.setSlot instruction.slot arguments.head?) world
  | .TypeTest =>
    let (matched, world) := runtime.matchType world instruction.testedType (arguments.headD .nil)
    .running (frame.define instruction.result (.bool matched)) world
  | .IsNull => operator (executeBinary runtime.library (runtime.memory world) .Eq
      (arguments.headD .nil) .nil)
  | op =>
    match executeOperator runtime.library (runtime.memory world) op arguments with
    | some result => operator result
    | none =>
      let slot := if slotReadBy op then frame.slots instruction.slot else none
      let outcome := runtime.effect instruction arguments slot world
      let frame := if slotWrittenBy op then frame.setSlot instruction.slot outcome.slot else frame
      match outcome.result with
      | .ok v => .running (frame.define instruction.result v) outcome.world
      | .error thrown => raise runtime function frame thrown outcome.world

def enter (frame : Frame) (world : W) (target : BlockId) (arguments : List Operand) : Configuration W :=
  match function.block target with
  | none => .stuck
  | some block =>
    let values := bindParameters frame.values block.parameters
      (arguments.map (operandValue runtime module frame.values world))
    .running { frame with block := target, rest := block.instructions, values } world

def terminate (frame : Frame) (world : W) : Configuration W :=
  match function.block frame.block with
  | none => .stuck
  | some block =>
    let t := block.terminator
    let v := operandValue runtime module frame.values world t.value
    match t.kind with
    | .Return => .returned (if t.value.isNone then none else some v) (captured function frame) world
    | .Jump | .Branch | .Switch =>
      let (target, edge) := selected (runtime.memory world) t v
      enter runtime module function frame world target (t.argumentsFor edge)
    | .Throw => raise runtime function frame (.value v) world
    | .None | .Unreachable => .stuck

def step : Configuration W → Configuration W
  | .running frame world =>
    match frame.rest with
    | instruction :: rest => execute runtime module function { frame with rest } world instruction
    | [] => terminate runtime module function frame world
  | ended => ended

/-- The first configuration of a call. The slots of a closure hold the variables it captured. -/
def start (arguments : ParamId → gc.Value) (slots : SlotId → Option gc.Value) (world : W) :
    Configuration W :=
  match function.block function.entryBlock with
  | none => .stuck
  | some block =>
    let values : ValueId → gc.Value := fun | .param i => arguments i | _ => .nil
    .running { block := function.entryBlock, rest := block.instructions, values, slots } world

/-- The values a call begins with. -/
def startValues (arguments : ParamId → gc.Value) : ValueId → gc.Value
  | .param i => arguments i
  | _ => .nil

end

section
variable {W : Type}

/-- The values that a step defines: the result of an instruction that completes, or the parameters
    of a block that a jump enters. An exception enters its handler without. -/
def definedBy (f : Function) : Configuration W → Configuration W → List ValueId
  | .running frame _, .running next _ =>
    match frame.rest with
    | i :: rest => if next.block = frame.block ∧ next.rest = rest then resultValues i else []
    | [] =>
      if (f.block frame.block).any (·.terminator.kind ==
        .Throw) then [] else ((f.block next.block).map parameterValues).getD []
  | _, _ => []

/-- The values that the first steps of a run define. -/
def definedAfter (f : Function) (run : Nat → Configuration W) : Nat → List ValueId
  | 0 => []
  | n + 1 => definedBy f (run n) (run (n + 1)) ++ definedAfter f run n

/-- A frame stands at a place of a block. -/
structure Standing (f : Function) (frame : Frame) (b : BasicBlock) : Prop where
  block : f.block frame.block = some b
  rest : frame.rest <:+ b.instructions

def Placed (f : Function) : Configuration W → Prop
  | .running frame _ => ∃ b, Standing f frame b
  | _ => True

/-- The edge that the terminator of a block takes. -/
def takenEdge (runtime : Runtime W) (module : Module) (frame : Frame) (world : W) (t : Terminator) :
    BlockId × Nat :=
  selected (runtime.memory world) t (operandValue runtime module frame.values world t.value)

/-- How control gets from a place of a block to another place. -/
inductive Moves (runtime : Runtime W) (module : Module) (f : Function) (frame : Frame) (world : W)
    (b : BasicBlock) (next : Frame) : Prop
  | completes {i : Instruction} {rest : List Instruction} (hrest : frame.rest = i :: rest)
      (hblock : next.block = frame.block)
      (hnext : next.rest = rest) (hvalues : ∀ id ∉ resultValues i, next.values id = frame.values id)
  | enters {c : BasicBlock} (hrest : frame.rest = [])
      (hkind : b.terminator.kind ∈ [TerminatorKind.Jump, .Branch, .Switch])
      (hc : f.block (takenEdge runtime module frame world b.terminator).1 = some c)
      (hnext : next = { frame with
        block := (takenEdge runtime module frame world b.terminator).1
        rest := c.instructions
        values := bindParameters frame.values c.parameters
          ((b.terminator.argumentsFor (takenEdge runtime module frame world b.terminator).2).map
            (operandValue runtime module frame.values world)) })
  | unwinds {c : BasicBlock} (hleaves : frame.rest ≠ [] ∨ b.terminator.kind = .Throw)
      (hc : f.block next.block = some c)
      (hnext : next.rest = c.instructions) (hvalues : next.values = frame.values)

section
variable {runtime : Runtime W} {module : Module} {f : Function} {frame next : Frame}
  {world world' : W} {i : Instruction} {b : BasicBlock}

theorem define_block (result : TempId) (v : gc.Value) : (frame.define result v).block = frame.block := by
  unfold Frame.define
  split <;> rfl

theorem define_rest (result : TempId) (v : gc.Value) : (frame.define result v).rest = frame.rest := by
  unfold Frame.define
  split <;> rfl

theorem define_values {id : ValueId} (hid : id ∉ resultValues i) (v : gc.Value) :
    (frame.define i.result v).values id = frame.values id := by
  unfold Frame.define resultValues at *
  split
  · rfl
  next hresult =>
    rw [if_neg hresult, List.mem_singleton] at hid
    exact Function.update_of_ne hid _ _

theorem define_result (hresult : i.result ≠ kNoTemp) (v : gc.Value) :
    (frame.define i.result v).values (.temp i.result) = v := by
  unfold Frame.define
  rw [if_neg hresult]
  exact Function.update_self ..

/-- An exception that is caught enters a block. -/
theorem raise_running {thrown : Thrown} (h : raise runtime f frame thrown world = .running next world') :
    ∃ c, f.block next.block = some c ∧ next.rest = c.instructions ∧ next.values = frame.values := by
  unfold raise at h
  split at h
  · nomatch h
  · split at h
    · nomatch h
    · split at h
      · nomatch h
      next c hc =>
        dsimp only at h
        split at h <;> cases h <;> exact ⟨c, hc, rfl, rfl⟩

theorem execute_running (h : execute runtime module f frame world i = .running next world') :
    (next.block = frame.block ∧ next.rest = frame.rest ∧ ∀ id ∉ resultValues i,
      next.values id = frame.values id) ∨ ∃ c, f.block next.block = some c ∧
      next.rest = c.instructions ∧ next.values = frame.values := by
  have hoperator {result : Except VmError gc.Value} (h : (match result with
      | .ok v => Configuration.running (frame.define i.result v) world
      | .error e => raise runtime f frame (.error e) world) = .running next world') :
      (next.block = frame.block ∧ next.rest = frame.rest ∧ ∀ id ∉ resultValues i,
        next.values id = frame.values id) ∨ ∃ c, f.block next.block = some c ∧
        next.rest = c.instructions ∧ next.values = frame.values := by
    cases result with
    | ok v =>
      cases h
      exact .inl ⟨define_block .., define_rest .., fun id hid => define_values hid v⟩
    | error e => exact .inr (raise_running h)
  unfold execute at h
  dsimp only at h
  split at h
  · cases h
    exact .inl ⟨rfl, rfl, fun _ _ => rfl⟩
  · exact hoperator h
  · cases h
    exact .inl ⟨rfl, rfl, fun _ _ => rfl⟩
  · cases h
    exact .inl ⟨define_block .., define_rest .., fun id hid => define_values hid _⟩
  · exact hoperator h
  · split at h
    · exact hoperator h
    · split at h
      · cases h
        refine .inl ⟨?_, ?_, fun id hid => ?_⟩
        · rw [define_block]
          split <;> rfl
        · rw [define_rest]
          split <;> rfl
        · rw [define_values hid]
          split <;> rfl
      · obtain ⟨c, hc, hrest, hvalues⟩ := raise_running h
        refine .inr ⟨c, hc, hrest, hvalues.trans ?_⟩
        split <;> rfl

theorem enter_running {target : BlockId} {arguments : List Operand}
    (h : enter runtime module f frame world target arguments = .running next world') :
    ∃ c, f.block target = some c ∧ next = { frame with
      block := target
      rest := c.instructions
      values := bindParameters frame.values c.parameters
        (arguments.map (operandValue runtime module frame.values world)) } := by
  unfold enter at h
  split at h
  · nomatch h
  next c hc =>
    cases h
    exact ⟨c, hc, rfl⟩

theorem step_moves (hb : f.block frame.block = some b)
    (h : step runtime module f (.running frame world) = .running next world') :
    Moves runtime module f frame world b next := by
  rw [step] at h
  cases hrest : frame.rest with
  | cons i rest =>
    rw [hrest] at h
    rcases execute_running h with ⟨hblock, hnext, hvalues⟩ | ⟨c, hc, hnext, hvalues⟩
    · exact .completes hrest hblock hnext hvalues
    · exact .unwinds (.inl fun hnil => List.cons_ne_nil i rest (hrest.symm.trans hnil)) hc hnext hvalues
  | nil =>
    rw [hrest] at h
    unfold terminate at h
    rw [hb] at h
    dsimp only at h
    split at h
    case h_1 | h_6 | h_7 => nomatch h
    case h_5 hkind =>
      obtain ⟨c, hc, hnext, hvalues⟩ := raise_running h
      exact .unwinds (.inr hkind) hc hnext hvalues
    all_goals
      rename_i hkind
      obtain ⟨c, hc, hnext⟩ := enter_running h
      exact .enters hrest (by rw [hkind]; decide) hc hnext

theorem Moves.standing (hstanding : Standing f frame b)
    (h : Moves runtime module f frame world b next) : ∃ c, Standing f next c := by
  cases h with
  | completes hrest hblock hnext _ =>
    refine ⟨b, hblock ▸ hstanding.block, ?_⟩
    rw [hnext]
    exact (List.suffix_cons _ _).trans (hrest ▸ hstanding.rest)
  | @enters c _ _ hc hnext =>
    rw [hnext]
    exact ⟨c, hc, List.suffix_rfl⟩
  | @unwinds c _ hc hnext _ => exact ⟨c, hc, hnext ▸ List.suffix_rfl⟩

theorem Standing.not_begun (hstanding : Standing f frame b) {rest : List Instruction}
    (hrest : frame.rest = i :: rest) {c : BasicBlock}
    (hc : f.block frame.block = some c) : rest ≠ c.instructions := by
  rintro rfl
  obtain rfl : b = c := Option.some.inj (hstanding.block.symm.trans hc)
  have hlength := hstanding.rest.length_le
  rw [hrest, List.length_cons] at hlength
  omega

theorem definedBy_completes {rest : List Instruction} (hrest : frame.rest = i :: rest)
    (hblock : next.block = frame.block)
    (hnext : next.rest = rest) : definedBy f (.running frame world) (.running next world') =
      resultValues i := by
  rw [definedBy, hrest]
  exact if_pos ⟨hblock, hnext⟩

theorem definedBy_enters (hstanding : Standing f frame b) (hrest : frame.rest = [])
    (hkind : b.terminator.kind ≠ .Throw) {c : BasicBlock}
    (hc : f.block next.block = some c) : definedBy f (.running frame world) (.running next world') =
      parameterValues c := by
  rw [definedBy, hrest, hstanding.block, hc]
  exact if_neg fun heq => hkind (beq_iff_eq.mp heq)

theorem definedBy_unwinds (hstanding : Standing f frame b)
    (hleaves : frame.rest ≠ [] ∨ b.terminator.kind = .Throw) {c : BasicBlock}
    (hc : f.block next.block = some c) (hnext : next.rest = c.instructions) :
    definedBy f (.running frame world) (.running next world') = [] := by
  rw [definedBy]
  cases hrest : frame.rest with
  | nil =>
    rw [hstanding.block]
    exact if_pos (beq_iff_eq.mpr (hleaves.resolve_left fun hcons => hcons hrest))
  | cons i rest =>
    refine if_neg ?_
    rintro ⟨hblock, hbehind⟩
    exact hstanding.not_begun hrest (hblock ▸ hc) (hbehind.symm.trans hnext)

theorem bindParameters_of_notMem {values : ValueId → gc.Value} {parameters : List BlockParameter}
    {arguments : List gc.Value} {id : ValueId}
    (hid : ∀ parameter ∈ parameters, .blockParam parameter.id ≠ id) :
    bindParameters values parameters arguments id = values id := by
  unfold bindParameters
  induction parameters generalizing values arguments with
  | nil => rfl
  | cons parameter parameters ih =>
    cases arguments with
    | nil => rfl
    | cons v arguments =>
      obtain ⟨hne, hid⟩ := List.forall_mem_cons.mp hid
      exact (ih hid).trans (Function.update_of_ne hne.symm _ _)

theorem placed_step {c : Configuration W} (h : Placed f c) : Placed f (step runtime module f c) := by
  cases c with
  | running frame world =>
    obtain ⟨b, hb⟩ := h
    cases hstep : step runtime module f (.running frame world) with
    | running next world' => exact (step_moves hb.block hstep).standing hb
    | returned | raised | stuck => trivial
  | returned | raised | stuck => trivial

theorem placed_start (arguments : ParamId → gc.Value) (slots : SlotId → Option gc.Value) (world : W) :
    Placed f (start f arguments slots world) := by
  unfold start
  split
  · trivial
  next b hb => exact ⟨b, hb, List.suffix_rfl⟩

theorem placed_run (arguments : ParamId → gc.Value) (slots : SlotId → Option gc.Value)
    (world : W) (n : Nat) :
    Placed f ((step runtime module f)^[n] (start f arguments slots world)) := by
  induction n with
  | zero => exact placed_start ..
  | succ n ih =>
    rw [Function.iterate_succ_apply']
    exact placed_step ih

end

end

end interpreter

end zl.mir
