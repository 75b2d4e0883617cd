import Zl.Mir.ConstantSoundness
import Zl.Mir.Simplify.Algebraic

open zl.vm zl.vm.value zl.mir.interpreter

namespace zl.mir

def Instruction.mapOperands (g : Operand → Operand) (i : Instruction) : Instruction :=
  { i with operands := i.operands.map g }

def Terminator.mapOperands (g : Operand → Operand) (t : Terminator) : Terminator :=
  { t with value := g t.value, edgeArguments := t.edgeArguments.map (·.map g) }

def BasicBlock.mapOperands (g : Operand → Operand) (b : BasicBlock) : BasicBlock :=
  { b with instructions := b.instructions.map (·.mapOperands g), terminator := b.terminator.mapOperands g }

namespace Function

def mapOperands (g : Operand → Operand) (f : Function) : Function :=
  { f with blocks := f.blocks.map (·.mapOperands g) }

/-- Every use of a value or constant in the body. -/
def operands (f : Function) : List Operand :=
  f.blocks.flatMap fun b =>
    b.instructions.flatMap (·.operands) ++ b.terminator.value :: b.terminator.edgeArguments.flatten

end Function

/-- A use is rewritten where it names the value at the type of what replaces it. -/
def usesTyped (value : ValueId) (replacement operand : Operand) : Bool :=
  valueOf operand = some value ∧ operand.type = replacement.type

/-- The body, and how many uses were rewritten. -/
def replaceValueUsesTyped (f : Function) (value : ValueId) (replacement : Operand) : Function × Nat :=
  (f.mapOperands fun operand => if usesTyped value replacement operand then replacement else operand,
    f.operands.countP (usesTyped value replacement))

def typeOfValue (f : Function) : ValueId → TypeId
  | .param id => (f.parameters[id]?).elim 0 (·.type)
  | .blockParam id =>
    ((f.blockOfParameter id).bind fun owner => owner.parameters.find? (·.id = id)).elim 0 (·.type)
  | .temp id => (definingInstruction f (some (.temp id))).elim 0 (·.resultType)

namespace ConstantPropagationPass

structure State where
  function : Function
  values : Nat := 0
  usesRewritten : Nat := 0

section
variable (types : TypeTable) (module : Module) (constants : ConstantAnalysis)

def propagate (s : State) (value : ValueId) : State :=
  match constants.constantOf value with
  | none => s
  | some id =>
    match module.constant id with
    | none => s
    | some constant =>
      let type := typeOfValue s.function value
      if constantMatchesType types constant type then
        let (function, rewritten) := replaceValueUsesTyped s.function value (.constant id type)
        { function
          values := if rewritten ≠ 0 then s.values + 1 else s.values
          usesRewritten := s.usesRewritten + rewritten }
      else s

end

/-- The body, whether it changed, and the note on what was done. -/
def runOnFunction (types : TypeTable) (library : Library) (module : Module) (f : Function) :
    Function × Bool × String :=
  let constants := ConstantAnalysis.run types library module f
  let s := constants.constantValues.foldl (propagate types module constants) { function := f }
  if s.usesRewritten = 0 then (s.function, false, "")
  else (s.function, true, "propagated " ++ toString s.values ++ " constant value(s) into " ++
    toString s.usesRewritten ++ " use(s)")

end ConstantPropagationPass

section
variable {g g' : Operand → Operand} {f : Function}

theorem mapOperands_id : f.mapOperands id = f := by
  simp [Function.mapOperands, BasicBlock.mapOperands, Instruction.mapOperands, Terminator.mapOperands]

theorem mapOperands_mapOperands : (f.mapOperands g).mapOperands g' = f.mapOperands (g' ∘ g) := by
  simp [Function.mapOperands, BasicBlock.mapOperands, Instruction.mapOperands, Terminator.mapOperands,
    Function.comp_def]

theorem block_mapOperands (id : BlockId) :
    (f.mapOperands g).block id = (f.block id).map (·.mapOperands g) := by
  unfold Function.block
  split
  · rfl
  · exact List.find?_map ..

theorem argumentsFor_mapOperands (t : Terminator) (edge : Nat) :
    (t.mapOperands g).argumentsFor edge = (t.argumentsFor edge).map g := by
  simp only [Terminator.argumentsFor, Terminator.mapOperands, List.getD_eq_getElem?_getD, List.getElem?_map]
  cases t.edgeArguments[edge]? <;> rfl

end

namespace interpreter

/-- The effects of an instruction depend on its operands by their values only. -/
def Runtime.ByValues {W : Type} (runtime : Runtime W) : Prop :=
  ∀ (i : Instruction) (g : Operand → Operand) (arguments : List gc.Value) (slot : Option gc.Value)
    (world : W),
    runtime.effect (i.mapOperands g) arguments slot world = runtime.effect i arguments slot world

def Frame.mapOperands (g : Operand → Operand) (frame : Frame) : Frame :=
  { frame with rest := frame.rest.map (·.mapOperands g) }

/-- Only the instructions that are still ahead in the block are others. -/
def Configuration.mapOperands {W : Type} (g : Operand → Operand) : Configuration W → Configuration W
  | .running frame world => .running (frame.mapOperands g) world
  | ended => ended

section
variable {W : Type} (runtime : Runtime W) (module : Module) (f : Function)

/-- The operands whose values the next step takes. -/
def readOperands : Configuration W → List Operand
  | .running frame world =>
    match frame.rest with
    | i :: _ => i.operands
    | [] => (f.block frame.block).elim [] fun b => b.terminator.value ::
        b.terminator.argumentsFor (takenEdge runtime module frame world b.terminator).2
  | _ => []

def SameValue (g : Operand → Operand) (frame : Frame) (world : W) (operand : Operand) : Prop :=
  operandValue runtime module frame.values world (g operand) =
    operandValue runtime module frame.values world operand

/-- A rewriting that the next step does not notice. -/
def Unnoticed (g : Operand → Operand) : Configuration W → Prop
  | .running frame world =>
    ∀ operand ∈ readOperands runtime module f (.running frame world),
      SameValue runtime module g frame world operand
  | _ => True

/-- A call after so many steps. -/
def after (arguments : ParamId → gc.Value) (slots : SlotId → Option gc.Value) (world : W) (n : Nat) :
    Configuration W :=
  (step runtime module f)^[n] (start f arguments slots world)

end

section
variable {W : Type} {runtime : Runtime W} {module : Module} {f : Function} {g : Operand → Operand}
  {frame : Frame} {world : W}

theorem raise_mapOperands (thrown : Thrown) :
    raise runtime (f.mapOperands g) (frame.mapOperands g) thrown world =
      (raise runtime f frame thrown world).mapOperands g := by
  unfold raise
  dsimp only [Frame.mapOperands]
  rw [block_mapOperands]
  cases f.block frame.block with
  | none => rfl
  | some b =>
    dsimp only [Option.map_some, BasicBlock.mapOperands]
    cases runtime.dispatch b.exceptionHandlers thrown world with
    | none => rfl
    | some handler =>
      dsimp only
      rw [block_mapOperands]
      cases f.block handler.block with
      | none => rfl
      | some target =>
        dsimp only [Option.map_some, BasicBlock.mapOperands]
        split <;> rfl

theorem operator_mapOperands (result : TempId) (outcome : Except Thrown gc.Value) :
    (match outcome with
      | .ok v => .running ((frame.mapOperands g).define result v) world
      | .error e => raise runtime (f.mapOperands g) (frame.mapOperands g) e world) =
    Configuration.mapOperands g (match outcome with
      | .ok v => .running (frame.define result v) world
      | .error e => raise runtime f frame e world) := by
  cases outcome with
  | ok v =>
    dsimp only [Frame.define]
    split <;> rfl
  | error e => exact raise_mapOperands e

theorem map_operandValue {operands : List Operand}
    (h : ∀ operand ∈ operands, SameValue runtime module g frame world operand) :
    (operands.map g).map (operandValue runtime module frame.values world) =
      operands.map (operandValue runtime module frame.values world) := by
  rw [List.map_map]
  exact List.map_congr_left h

theorem execute_mapOperands (hvalues : runtime.ByValues) {i : Instruction}
    (h : ∀ operand ∈ i.operands, SameValue runtime module g frame world operand) :
    execute runtime module (f.mapOperands g) (frame.mapOperands g) world (i.mapOperands g) =
      (execute runtime module f frame world i).mapOperands g := by
  have hframe : (frame.mapOperands g).values = frame.values ∧ (frame.mapOperands g).slots = frame.slots :=
    ⟨rfl, rfl⟩
  have hinstruction : (i.mapOperands g).opcode = i.opcode ∧ (i.mapOperands g).slot = i.slot ∧
      (i.mapOperands g).operands = i.operands.map g := ⟨rfl, rfl, rfl⟩
  have hoperator (result : Except VmError gc.Value) :=
    @operator_mapOperands W runtime f g frame world i.result (result.mapError Thrown.error)
  unfold execute
  dsimp only
  rw [hframe.1, hframe.2, hinstruction.1, hinstruction.2.1, hinstruction.2.2, map_operandValue h]
  simp only [hvalues i g]
  split
  · rfl
  · cases frame.slots i.slot with
    | some v => exact hoperator (.ok v)
    | none => exact raise_mapOperands _
  · rfl
  · exact @operator_mapOperands W runtime f g frame _ i.result (.ok _)
  · cases executeBinary runtime.library (runtime.memory world) .Eq _ _ with
    | ok v => exact hoperator (.ok v)
    | error e => exact hoperator (.error e)
  · split
    next result _ =>
      cases result with
      | ok v => exact hoperator (.ok v)
      | error e => exact hoperator (.error e)
    next =>
      generalize runtime.effect i _ _ world = outcome
      by_cases hwritten : slotWrittenBy i.opcode = true
      · simp only [if_pos hwritten]
        exact @operator_mapOperands W runtime f g (frame.setSlot i.slot outcome.slot) outcome.world i.result
          outcome.result
      · simp only [if_neg hwritten]
        exact operator_mapOperands i.result outcome.result

theorem enter_mapOperands (target : BlockId) {arguments : List Operand}
    (h : ∀ operand ∈ arguments, SameValue runtime module g frame world operand) :
    enter runtime module (f.mapOperands g) (frame.mapOperands g) world target (arguments.map g) =
      (enter runtime module f frame world target arguments).mapOperands g := by
  unfold enter
  dsimp only [Frame.mapOperands]
  rw [block_mapOperands, map_operandValue h]
  cases f.block target <;> rfl

theorem terminate_mapOperands (hnone : ∀ operand, (g operand).isNone = operand.isNone)
    (h : ∀ b, f.block frame.block = some b → ∀ operand ∈ b.terminator.value ::
      b.terminator.argumentsFor (takenEdge runtime module frame world b.terminator).2,
      SameValue runtime module g frame world operand) :
    terminate runtime module (f.mapOperands g) (frame.mapOperands g) world =
      (terminate runtime module f frame world).mapOperands g := by
  unfold terminate
  dsimp only [Frame.mapOperands]
  rw [block_mapOperands]
  cases hb : f.block frame.block with
  | none => rfl
  | some b =>
    obtain ⟨hvalue, harguments⟩ := List.forall_mem_cons.mp (h b hb)
    dsimp only [Option.map_some, BasicBlock.mapOperands]
    have hsame : (b.terminator.mapOperands g).value = g b.terminator.value ∧
        (b.terminator.mapOperands g).kind = b.terminator.kind := ⟨rfl, rfl⟩
    rw [hsame.1, hsame.2, hvalue, hnone, argumentsFor_mapOperands]
    split
    · rfl
    · exact enter_mapOperands _ harguments
    · exact enter_mapOperands _ harguments
    · exact enter_mapOperands _ harguments
    · exact raise_mapOperands _
    · rfl
    · rfl

theorem step_mapOperands (hvalues : runtime.ByValues)
    (hnone : ∀ operand, (g operand).isNone = operand.isNone) {c : Configuration W}
    (h : Unnoticed runtime module f g c) :
    step runtime module (f.mapOperands g) (c.mapOperands g) = (step runtime module f c).mapOperands g := by
  cases c with
  | returned | raised | stuck => rfl
  | running frame world =>
    obtain ⟨block, rest, values, slots⟩ := frame
    cases rest with
    | nil =>
      refine terminate_mapOperands hnone fun b hb operand hoperand => h operand ?_
      unfold readOperands
      dsimp only at hb ⊢
      rw [hb]
      exact hoperand
    | cons i rest =>
      exact @execute_mapOperands W runtime module f g ⟨block, rest, values, slots⟩ world hvalues i h

/-- A run none of whose steps notices the rewriting is the same run. -/
theorem after_mapOperands (hvalues : runtime.ByValues)
    (hnone : ∀ operand, (g operand).isNone = operand.isNone)
    (arguments : ParamId → gc.Value) (slots : SlotId → Option gc.Value) (world : W) (n : Nat)
    (h : ∀ m < n, Unnoticed runtime module f g (after runtime module f arguments slots world m)) :
    after runtime module (f.mapOperands g) arguments slots world n =
      (after runtime module f arguments slots world n).mapOperands g := by
  induction n with
  | zero =>
    rw [after, after, Function.iterate_zero_apply, Function.iterate_zero_apply]
    unfold start
    rw [show (f.mapOperands g).entryBlock = f.entryBlock from rfl, block_mapOperands]
    cases f.block f.entryBlock <;> rfl
  | succ n ih =>
    rw [after, after, Function.iterate_succ_apply', Function.iterate_succ_apply']
    exact (congrArg _ (ih fun m hm => h m (Nat.lt_succ_of_lt hm))).trans
      (step_mapOperands hvalues hnone (h n n.lt_succ_self))

end

end interpreter

namespace ConstantPropagationPass

section
variable {types : TypeTable} {module : Module} {constants : ConstantAnalysis} {f : Function}

/-- A rewriting of uses to the constants that the analysis reports for them. -/
def Substitutes (module : Module) (constants : ConstantAnalysis) (g : Operand → Operand) : Prop :=
  ∀ operand, g operand = operand ∨ ∃ value id constant, valueOf operand = some value ∧
    constants.constantOf value = some id ∧ module.constant id = some constant ∧
    g operand = .constant id operand.type

theorem Substitutes.isNone {g : Operand → Operand} (h : Substitutes module constants g) (operand : Operand) :
    (g operand).isNone = operand.isNone := by
  obtain heq | ⟨value, id, constant, hvalue, -, -, heq⟩ := h operand
  · rw [heq]
  · rw [heq]
    cases hkind : operand.kind <;> simp_all [valueOf, Operand.isNone, Operand.constant]

theorem Substitutes.propagate {g : Operand → Operand} (h : Substitutes module constants g)
    {s : State} (hs : s.function = f.mapOperands g) (value : ValueId) :
    ∃ g', Substitutes module constants g' ∧
      (propagate types module constants s value).function = f.mapOperands g' := by
  unfold ConstantPropagationPass.propagate
  split
  · exact ⟨g, h, hs⟩
  next id hid =>
    split
    · exact ⟨g, h, hs⟩
    next constant hconstant =>
      dsimp only
      generalize typeOfValue s.function value = type
      split
      · refine ⟨_, fun operand => ?_, by rw [replaceValueUsesTyped, hs, mapOperands_mapOperands]⟩
        rw [Function.comp_apply]
        obtain heq | ⟨value', id', constant', hvalue, hid', hconstant', heq⟩ := h operand
        · rw [heq]
          by_cases huse : usesTyped value (.constant id type) operand = true
          · obtain ⟨hvalue, htype⟩ := of_decide_eq_true huse
            rw [if_pos huse]
            exact .inr ⟨value, id, constant, hvalue, hid, hconstant, by rw [htype]; rfl⟩
          · rw [if_neg huse]
            exact .inl rfl
        · rw [heq, if_neg fun huse => by cases (of_decide_eq_true huse).1]
          exact .inr ⟨value', id', constant', hvalue, hid', hconstant', rfl⟩
      · exact ⟨g, h, hs⟩

theorem exists_substitutes (library : Library) : ∃ g,
    Substitutes module (ConstantAnalysis.run types library module f) g ∧
      (runOnFunction types library module f).1 = f.mapOperands g := by
  unfold runOnFunction
  generalize ConstantAnalysis.run types library module f = constants
  obtain ⟨g, hg, hs⟩ := List.foldlRecOn
    (motive := fun s : State => ∃ g, Substitutes module constants g ∧ s.function = f.mapOperands g)
    constants.constantValues (propagate types module constants)
    (b := { function := f }) ⟨id, fun _ => .inl rfl, mapOperands_id.symm⟩ fun s hs value _ => by
      obtain ⟨g, hg, hs⟩ := hs
      exact hg.propagate hs value
  refine ⟨g, hg, ?_⟩
  dsimp only
  split <;> exact hs

/-- A step on which the pass can rely: what the analysis folded is folded exactly, and of the values
    it reports the step reads those only that were defined before. -/
def Settled {W : Type} (runtime : Runtime W) (module : Module) (f : Function) (constants : ConstantAnalysis)
    (defs : List ValueId) (c : Configuration W) : Prop :=
  constants.ReliableAt runtime module f defs c ∧ ∀ operand ∈ readOperands runtime module f c,
    ∀ value, valueOf operand = some value → constants.constantOf value ≠ none → value ∈ defs

/-- A reported constant stands for its value wherever that was defined. -/
theorem Settled.unnoticed {W : Type} {runtime : Runtime W} {g : Operand → Operand}
    (hg : Substitutes module constants g) {defs : List ValueId} {c : Configuration W}
    (h : Settled runtime module f constants defs c) (hholds : constants.HoldsAt module defs c) :
    Unnoticed runtime module f g c := by
  cases c with
  | returned | raised | stuck => trivial
  | running frame world =>
    intro operand hoperand
    unfold SameValue
    obtain heq | ⟨value, id, constant, hvalue, hid, hconstant, heq⟩ := hg operand
    · rw [heq]
    · have hdefined := h.2 operand hoperand value hvalue (by rw [hid]; exact Option.some_ne_none id)
      have hnot : constantOperand module operand = none := by
        refine if_neg fun hkind => ?_
        rw [valueOf, hkind] at hvalue
        cases hvalue
      have hconst : constantOperand module (.constant id operand.type) = some constant :=
        (if_pos rfl).trans hconstant
      rw [heq, operandValue_constant hconst, operandValue, hnot, hvalue]
      exact (hholds value hdefined id constant hid hconstant).symm

end

/-- Constant propagation leaves every run of a verified function as it is, step by step. -/
theorem runOnFunction_after {W : Type} (rules : TypeRules) (options : Verifier.VerifierOptions)
    (types : TypeTable) (runtime : Runtime W) (module : Module) (f : Function)
    (arguments : ParamId → gc.Value) (slots : SlotId → Option gc.Value) (world : W)
    (hok : Verifier.verifyFunction rules module f options = []) (hvalues : runtime.ByValues) (n : Nat)
    (hsettled : ∀ m < n, Settled runtime module f (ConstantAnalysis.run types runtime.library module f)
      (definedAfter f (after runtime module f arguments slots world) m)
      (after runtime module f arguments slots world m)) :
    ∃ g, Substitutes module (ConstantAnalysis.run types runtime.library module f) g ∧
      after runtime module (runOnFunction types runtime.library module f).1 arguments slots world n =
        (after runtime module f arguments slots world n).mapOperands g := by
  obtain ⟨g, hg, hrewritten⟩ := @exists_substitutes types module f runtime.library
  have haccepted := Verifier.accepted_of_verifyFunction hok
  have hholds (m : Nat) (hm : m ≤ n) : (ConstantAnalysis.run types runtime.library module f).HoldsAt module
      (definedAfter f (after runtime module f arguments slots world) m)
      (after runtime module f arguments slots world m) := by
    induction m with
    | zero =>
      rw [after, Function.iterate_zero_apply]
      cases start f arguments slots world with
      | running frame world => exact List.forall_mem_nil _
      | returned | raised | stuck => trivial
    | succ m ih =>
      have hstep := ConstantAnalysis.holdsAt_step haccepted ConstantAnalysis.supported_run
        (placed_run arguments slots world m) (hsettled m hm).1 (ih (Nat.le_of_lt hm))
      rw [← Function.iterate_succ_apply' (step runtime module f) m] at hstep
      exact hstep
  refine ⟨g, hg, ?_⟩
  rw [hrewritten]
  exact after_mapOperands hvalues hg.isNone arguments slots world n fun m hm =>
    (hsettled m hm).unnoticed hg (hholds m (Nat.le_of_lt hm))

open ConstantAnalysis in
/-- The sum that the body returns is replaced by its value. -/
theorem runOnFunction_after_sum : (runOnFunction foldTypes foldLibrary sumModule (computing sum)).2.1 = true ∧
    ∃ g, Substitutes sumModule (run foldTypes foldLibrary sumModule (computing sum)) g ∧
      after foldRuntime sumModule (runOnFunction foldTypes foldLibrary sumModule (computing sum)).1
          (fun _ => .nil) (fun _ => none) () 2 =
        (after foldRuntime sumModule (computing sum) (fun _ => .nil) (fun _ => none) () 2).mapOperands g := by
  refine ⟨by decide +kernel, runOnFunction_after Verifier.exampleTypes {} foldTypes foldRuntime sumModule
    (computing sum) (fun _ => .nil) (fun _ => none) () (by decide +kernel) (fun _ _ _ _ _ => rfl) 2
    fun m hm => ?_⟩
  obtain rfl | rfl : m = 0 ∨ m = 1 := by omega
  · refine ⟨fun _ values hvalues => ?_, fun operand hoperand value hvalue _ => ?_⟩
    · cases hvalues
      trivial
    · have hconst : ∀ operand ∈ sum.operands, valueOf operand = none := by decide
      cases (hconst operand hoperand).symm.trans hvalue
  · refine ⟨fun b hb operand hoperand => ?_, fun operand hoperand value hvalue _ => ?_⟩
    · cases hb
      cases hoperand
    · obtain rfl : operand = .temp 1 2 := List.mem_singleton.mp hoperand
      cases hvalue
      exact List.mem_singleton.mpr rfl

end ConstantPropagationPass

end zl.mir
