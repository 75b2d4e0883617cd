import Zl.Mir.ConstantSoundness

open zl.vm zl.vm.value zl.transition zl.mir.interpreter

namespace zl.mir

/-- The position of the block that an id names. -/
def Function.positionOf (f : Function) (id : BlockId) : Option Nat :=
  if id = kNoBlock then none else f.blocks.findIdx? (·.id == id)

namespace BranchSimplificationPass

section
variable (module : Module) (f : Function)

/-- The case of a switch that an integer takes: the first that matches, or the default behind all of
    them. -/
def takenCase (cases : List SwitchTarget) (subject : Constant) : Nat :=
  (cases.findIdx? fun entry => Int64.ofInt entry.value = subject.int).getD cases.length

/-- A branch or a switch that was decided: a jump with the arguments of the path it keeps. -/
def decided (t : Terminator) : Option Terminator :=
  match t.kind with
  | .Branch =>
    match (constantOperand module t.value).filter (·.kind == .Bool) with
    | some condition =>
      some { t with
        kind := .Jump
        target := if condition.boolValue then t.target else t.elseBlock
        elseBlock := kNoBlock
        cases := []
        value := Operand.none
        edgeArguments := [t.argumentsFor (if condition.boolValue then 0 else 1)] }
    | none =>
      if t.target = t.elseBlock ∧ t.argumentsFor 0 = t.argumentsFor 1 then
        some { t with
          kind := .Jump
          elseBlock := kNoBlock
          value := Operand.none
          edgeArguments := [t.argumentsFor 0] }
      else none
  | .Switch =>
    match (constantOperand module t.value).filter (·.kind == .Int) with
    | none => none
    | some subject =>
      let taken := takenCase t.cases subject
      some { t with
        kind := .Jump
        target := ((t.cases[taken]?).map (·.block)).getD t.target
        cases := []
        value := Operand.none
        edgeArguments := [t.argumentsFor taken] }
  | _ => none

/-- A block with nothing to do on the way through. -/
def isEmptyBlock (b : BasicBlock) : Bool :=
  b.instructions.isEmpty && b.parameters.isEmpty && b.exceptionHandlers.isEmpty && b.kind == .Normal

/-- Where a jump of the block at a position ends up when it skips an empty block. -/
def threaded (index : Nat) (t : Terminator) : Option BlockId :=
  match f.block t.target with
  | none => none
  | some target =>
    if f.positionOf t.target = some index then none
    else if isEmptyBlock target = false then none
    else if target.terminator.kind ≠ .Jump then none
    else if target.terminator.target = target.id then none
    else
      match f.block target.terminator.target with
      | none => none
      | some onward =>
        if f.positionOf target.terminator.target = some index then none
        else if onward.parameters ≠ [] then none
        else some onward.id

def simplifyTerminator (index : Nat) (t : Terminator) : Option Terminator :=
  if t.kind = .Jump then (threaded f index t).map fun target => { t with target } else decided module t

/-- The function with the terminator of one block rewritten, if there is something to rewrite. -/
def simplifyBlock (index : Nat) : Option Function := do
  let b ← f.blocks[index]?
  let terminator ← simplifyTerminator module f index b.terminator
  return { f with blocks := f.blocks.set index { b with terminator } }

end

/-- Each block in turn, in the function that the blocks before it left. -/
def simplifyBlocks (module : Module) : List Nat → Function → Function × Nat
  | [], f => (f, 0)
  | index :: rest, f =>
    match simplifyBlock module f index with
    | none => simplifyBlocks module rest f
    | some g =>
      let (simplified, rewritten) := simplifyBlocks module rest g
      (simplified, rewritten + 1)

/-- The function after the pass, and the number of terminators it simplified. -/
def runOnFunction (module : Module) (f : Function) : Function × Nat :=
  let (simplified, rewritten) := simplifyBlocks module (List.range f.blocks.length) f
  if rewritten = 0 then (f, 0) else (simplified.rebuildEdges, rewritten)

/-- A jump skips an empty block that jumps on to a block without parameters. -/
structure Threads (f : Function) (b skipped onward : BasicBlock) : Prop where
  kind : b.terminator.kind = .Jump
  target : f.block b.terminator.target = some skipped
  target_ne : skipped.id ≠ b.id
  empty : isEmptyBlock skipped = true
  jumps : skipped.terminator.kind = .Jump
  onwards : f.block skipped.terminator.target = some onward
  onward_ne : onward.id ≠ skipped.id
  end_ne : onward.id ≠ b.id
  parameters : onward.parameters = []

/-- The block of an id after one rewriting. -/
def withTerminator (b : BasicBlock) (terminator : Terminator) (c : BasicBlock) : BasicBlock :=
  if c.id = b.id then { c with terminator } else c

section
variable {module : Module} {f g : Function} {index : Nat} {b c : BasicBlock}
  {simplified : Terminator} {id : BlockId}

theorem getElem_id_inj (hids : f.DistinctIds) {j : Nat} (hb : f.blocks[index]? = some b)
    (hc : f.blocks[j]? = some c) (heq : c.id = b.id) :
    j = index := by
  obtain ⟨hlt, rfl⟩ := List.getElem?_eq_some_iff.mp hb
  obtain ⟨hlt', rfl⟩ := List.getElem?_eq_some_iff.mp hc
  have hsame : (⟨j, by rwa [List.length_map]⟩ : Fin (f.blocks.map (·.id)).length) =
      ⟨index, by rwa [List.length_map]⟩ :=
    List.nodup_iff_injective_getElem.mp hids (by simpa using heq)
  exact Fin.val_eq_of_eq hsame

theorem positionOf_eq (hids : f.DistinctIds) (hget : f.blocks[index]? = some b) (hid : id ≠ kNoBlock) :
    f.positionOf id = some index ↔ id = b.id := by
  rw [Function.positionOf, if_neg hid, List.findIdx?_eq_some_iff_getElem]
  obtain ⟨hlt, rfl⟩ := List.getElem?_eq_some_iff.mp hget
  constructor
  · rintro ⟨_, hfound, _⟩
    exact (beq_iff_eq.mp hfound).symm
  · rintro rfl
    refine ⟨hlt, beq_self_eq_true _, fun j hj heq => ?_⟩
    have hsame := getElem_id_inj hids hget (List.getElem?_eq_getElem (hj.trans hlt)) (beq_iff_eq.mp heq)
    omega

theorem threaded_eq_some (hids : f.DistinctIds) (hget : f.blocks[index]? = some b)
    (hkind : b.terminator.kind = .Jump) :
    threaded f index b.terminator = some id ↔ ∃ skipped onward, Threads f b skipped onward ∧
      onward.id = id := by
  unfold threaded
  constructor
  · intro h
    split at h
    · nomatch h
    next skipped htarget =>
    obtain ⟨hid, -, hname⟩ := Function.block_eq_some htarget
    split at h
    · nomatch h
    next htarget_ne =>
    rw [positionOf_eq hids hget hid, ← hname] at htarget_ne
    split at h
    · nomatch h
    next hempty =>
    split at h
    · nomatch h
    next hjumps =>
    split at h
    · nomatch h
    next honward_ne =>
    split at h
    · nomatch h
    next onward honwards =>
    obtain ⟨hid', -, hname'⟩ := Function.block_eq_some honwards
    split at h
    · nomatch h
    next hend_ne =>
    rw [positionOf_eq hids hget hid', ← hname'] at hend_ne
    split at h
    · nomatch h
    next hparameters =>
    exact ⟨skipped, onward, ⟨hkind, htarget, htarget_ne, (Bool.not_eq_false _).mp hempty,
      not_not.mp hjumps, honwards, hname' ▸ honward_ne, hend_ne, not_not.mp hparameters⟩,
      Option.some.inj h⟩
  · rintro ⟨skipped, onward, h, rfl⟩
    obtain ⟨hid, -, hname⟩ := Function.block_eq_some h.target
    obtain ⟨hid', -, hname'⟩ := Function.block_eq_some h.onwards
    rw [h.target]
    dsimp only
    rw [if_neg (mt (positionOf_eq hids hget hid).mp (hname ▸ h.target_ne)),
      if_neg (by rw [h.empty]; decide), if_neg (not_not.mpr h.jumps),
      if_neg (hname' ▸ h.onward_ne), h.onwards]
    dsimp only
    rw [if_neg (mt (positionOf_eq hids hget hid').mp (hname' ▸ h.end_ne)),
      if_neg (not_not.mpr h.parameters)]

theorem simplifyBlock_eq_some (hids : f.DistinctIds) (h : simplifyBlock module f index = some g) :
    ∃ b simplified, f.blocks[index]? = some b ∧
      simplifyTerminator module f index b.terminator = some simplified ∧
      g = { f with blocks := f.blocks.map (withTerminator b simplified) } := by
  obtain ⟨b, hb, h⟩ := Option.bind_eq_some_iff.mp h
  obtain ⟨simplified, hsimplified, h⟩ := Option.bind_eq_some_iff.mp h
  cases h
  refine ⟨b, simplified, hb, hsimplified, ?_⟩
  congr 1
  refine List.ext_getElem? fun j => ?_
  rw [List.getElem?_set, List.getElem?_map]
  obtain ⟨hlt, -⟩ := List.getElem?_eq_some_iff.mp hb
  by_cases hj : index = j
  · subst hj
    rw [if_pos rfl, if_pos hlt, hb]
    exact congrArg some (if_pos rfl).symm
  · rw [if_neg hj]
    cases hc : f.blocks[j]? with
    | none => rfl
    | some c => exact congrArg some (if_neg fun heq => hj (getElem_id_inj hids hb hc heq).symm).symm

theorem block_withTerminator (b : BasicBlock) (simplified : Terminator) (id : BlockId) :
    ({ f with blocks := f.blocks.map (withTerminator b simplified) } : Function).block id =
      (f.block id).map (withTerminator b simplified) := by
  unfold Function.block
  split
  · rfl
  · rw [List.find?_map]
    congr 2
    funext c
    unfold withTerminator
    dsimp only [Function.comp]
    split <;> rfl

theorem ids_withTerminator (b : BasicBlock) (simplified : Terminator) :
    (f.blocks.map (withTerminator b simplified)).map (·.id) = f.blocks.map (·.id) := by
  rw [List.map_map]
  refine List.map_congr_left fun c _ => ?_
  unfold withTerminator
  dsimp only [Function.comp]
  split <;> rfl

end

end BranchSimplificationPass

/-- Functions that differ in terminators only. -/
structure SameBodies (f g : Function) : Prop where
  block : ∀ id, (g.block id).map (fun c => { c with terminator := {} }) =
    (f.block id).map (fun c => { c with terminator := {} })
  entryBlock : g.entryBlock = f.entryBlock
  slots : g.slots = f.slots
  captures : g.captures = f.captures
  isLambda : g.isLambda = f.isLambda

namespace SameBodies

section
variable {W : Type} {runtime : Runtime W} {module : Module} {f g : Function}

theorem refl (f : Function) : SameBodies f f := ⟨fun _ => rfl, rfl, rfl, rfl, rfl⟩

theorem trans {e f g : Function} (h : SameBodies e f) (h' : SameBodies f g) : SameBodies e g where
  block id := (h'.block id).trans (h.block id)
  entryBlock := h'.entryBlock.trans h.entryBlock
  slots := h'.slots.trans h.slots
  captures := h'.captures.trans h.captures
  isLambda := h'.isLambda.trans h.isLambda

theorem block_eq_some (h : SameBodies f g) {id : BlockId} {b : BasicBlock} (hb : f.block id = some b) :
    ∃ c, g.block id = some c ∧ c.instructions = b.instructions ∧ c.parameters = b.parameters ∧
      c.exceptionHandlers = b.exceptionHandlers ∧ c.kind = b.kind ∧ c.id = b.id := by
  have hblock := h.block id
  rw [hb, Option.map_some] at hblock
  obtain ⟨c, hc, heq⟩ := Option.map_eq_some_iff.mp hblock
  injection heq with hid hkind hparameters hinstructions _ hhandlers
  exact ⟨c, hc, hinstructions, hparameters, hhandlers, hkind, hid⟩

theorem block_eq_none (h : SameBodies f g) {id : BlockId} (hb : f.block id = none) :
    g.block id = none := by
  have hblock := h.block id
  rw [hb] at hblock
  exact Option.map_eq_none_iff.mp hblock

theorem captured (h : SameBodies f g) (frame : Frame) :
    interpreter.captured g frame = interpreter.captured f frame := by
  unfold interpreter.captured
  rw [h.captures]

theorem slotLocal (h : SameBodies f g) (slot : SlotId) :
    VmBackend.slotLocal g slot = VmBackend.slotLocal f slot := by
  unfold VmBackend.slotLocal Function.slot
  rw [h.slots, h.captures, h.isLambda]

theorem raise (h : SameBodies f g) (frame : Frame) (thrown : Thrown) (world : W) :
    interpreter.raise runtime g frame thrown world = interpreter.raise runtime f frame thrown world := by
  unfold interpreter.raise
  cases hb : f.block frame.block with
  | none => rw [h.block_eq_none hb]
  | some b =>
    obtain ⟨c, hc, -, -, hhandlers, -⟩ := h.block_eq_some hb
    rw [hc]
    dsimp only
    rw [hhandlers, h.captured]
    split
    · rfl
    next handler _ =>
      cases htarget : f.block handler.block with
      | none => rw [h.block_eq_none htarget]
      | some target =>
        obtain ⟨target', htarget', hinstructions, -⟩ := h.block_eq_some htarget
        rw [htarget']
        dsimp only
        rw [hinstructions]

theorem execute (h : SameBodies f g) (frame : Frame) (world : W) (i : Instruction) :
    interpreter.execute runtime module g frame world i =
      interpreter.execute runtime module f frame world i := by
  unfold interpreter.execute
  simp only [h.raise, h.slotLocal]

theorem enter (h : SameBodies f g) (frame : Frame) (world : W) (target : BlockId)
    (arguments : List Operand) :
    interpreter.enter runtime module g frame world target arguments =
      interpreter.enter runtime module f frame world target arguments := by
  unfold interpreter.enter
  cases hb : f.block target with
  | none => rw [h.block_eq_none hb]
  | some b =>
    obtain ⟨c, hc, hinstructions, hparameters, -⟩ := h.block_eq_some hb
    rw [hc]
    dsimp only
    rw [hinstructions, hparameters]

theorem start (h : SameBodies f g) (arguments : ParamId → gc.Value) (slots : SlotId →
      Option gc.Value) (world : W) :
    interpreter.start g arguments slots world = interpreter.start f arguments slots world := by
  unfold interpreter.start
  rw [h.entryBlock]
  cases hb : f.block f.entryBlock with
  | none => rw [h.block_eq_none hb]
  | some b =>
    obtain ⟨c, hc, hinstructions, -⟩ := h.block_eq_some hb
    rw [hc]
    dsimp only
    rw [hinstructions]

theorem step_of_rest (h : SameBodies f g) {frame : Frame} (hrest : frame.rest ≠ []) (world : W) :
    step runtime module g (.running frame world) = step runtime module f (.running frame world) := by
  cases hcase : frame.rest with
  | nil => exact absurd hcase hrest
  | cons i rest =>
    rw [step, step, hcase]
    exact h.execute _ world i

/-- At the end of a block with the same terminator the functions take the same step. -/
theorem terminate (h : SameBodies f g) {frame : Frame} {b c : BasicBlock}
    (hb : f.block frame.block = some b)
    (hc : g.block frame.block = some c) (hsame : c.terminator = b.terminator) (world : W) :
    interpreter.terminate runtime module g frame world =
      interpreter.terminate runtime module f frame world := by
  unfold interpreter.terminate
  rw [hb, hc]
  dsimp only
  rw [hsame, h.captured, h.raise]
  simp only [h.enter]

end

end SameBodies

namespace BranchSimplificationPass

section
variable {W : Type} (module : Module) (f : Function)

/-- In a block that the pass may skip. -/
def Idle : Configuration W → Prop
  | .running frame _ => frame.rest = [] ∧ ∃ b, f.block frame.block = some b ∧ isEmptyBlock b = true
  | _ => False

/-- Where a switch on a constant is decided, every case in front of the one it takes has a block. -/
def CasesHaveBlocks : Configuration W → Prop
  | .running frame _ => frame.rest = [] → ∀ b, f.block frame.block = some b →
      b.terminator.kind = .Switch → ∀ subject,
      constantOperand module b.terminator.value = some subject → subject.kind = .Int →
      ∀ entry ∈ b.terminator.cases.take (takenCase b.terminator.cases subject), entry.block ≠ kNoBlock
  | _ => True

end

section
variable {W : Type} {runtime : Runtime W} {module : Module} {f g : Function} {index : Nat}
  {b c : BasicBlock} {simplified : Terminator}
  {skipped onward : BasicBlock} {frame : Frame} {world : W}

theorem sameBodies_withTerminator (b : BasicBlock) (simplified : Terminator) :
    SameBodies f { f with blocks := f.blocks.map (withTerminator b simplified) } where
  block id := by
    rw [block_withTerminator, Option.map_map]
    congr 1
    funext c
    unfold withTerminator
    dsimp only [Function.comp]
    split <;> rfl
  entryBlock := rfl
  slots := rfl
  captures := rfl
  isLambda := rfl

theorem filter_length_of_blocks {cases : List SwitchTarget} (h : ∀ entry ∈ cases, entry.block ≠ kNoBlock) :
    (cases.filter (·.block != kNoBlock)).length = cases.length :=
  congrArg List.length (List.filter_eq_self.mpr fun entry hmem => bne_iff_ne.mpr (h entry hmem))

variable (runtime world) in
/-- A decision keeps the path that the terminator takes. -/
theorem decided_selected {t : Terminator} (h : decided module t = some simplified)
    (hcases : t.kind = .Switch → ∀ subject, constantOperand module t.value = some subject →
      subject.kind = .Int → ∀ entry ∈ t.cases.take (takenCase t.cases subject),
      entry.block ≠ kNoBlock) (values : ValueId → gc.Value) :
    t.kind ∈ [TerminatorKind.Branch, .Switch] ∧ simplified.kind = .Jump ∧
      simplified.target = (selected (runtime.memory world) t
        (operandValue runtime module values world t.value)).1 ∧
        simplified.argumentsFor 0 = t.argumentsFor
        (selected (runtime.memory world) t (operandValue runtime module values world t.value)).2 := by
  unfold decided at h
  split at h
  case h_3 => nomatch h
  next hkind =>
    rw [hkind]
    unfold selected
    rw [hkind]
    dsimp only
    split at h
    next condition hcondition =>
      cases h
      obtain ⟨hconstant, hbool⟩ := Option.filter_eq_some_iff.mp hcondition
      rw [operandValue_constant hconstant, constantValue, beq_iff_eq.mp hbool]
      dsimp only [value.isTruthy]
      refine ⟨by decide, rfl, ?_, ?_⟩ <;> cases condition.boolValue <;> rfl
    next =>
      split at h
      next hagree =>
        cases h
        obtain ⟨htarget, harguments⟩ := hagree
        refine ⟨by decide, rfl, ?_, ?_⟩
        · split
          · rfl
          · exact htarget
        · split
          · rfl
          · exact harguments
      · nomatch h
  next hkind =>
    split at h
    · nomatch h
    next subject hsubject =>
    cases h
    obtain ⟨hconstant, hint⟩ := Option.filter_eq_some_iff.mp hsubject
    have hint := beq_iff_eq.mp hint
    have hblocks := hcases hkind subject hconstant hint
    rw [hkind]
    unfold selected
    rw [hkind]
    dsimp only
    rw [operandValue_constant hconstant, constantValue, hint]
    have hsame : (fun entry : SwitchTarget =>
        decide (gc.Value.int subject.int = .int (Int64.ofInt entry.value))) = fun entry =>
        decide (Int64.ofInt entry.value = subject.int) := by
      funext entry
      rw [decide_eq_decide, gc.Value.int.injEq]
      exact eq_comm
    dsimp only
    rw [hsame]
    refine ⟨by decide, rfl, ?_⟩
    unfold takenCase at hblocks ⊢
    cases hfound : t.cases.findIdx? fun entry => decide (Int64.ofInt entry.value = subject.int) with
    | none =>
      rw [hfound] at hblocks
      dsimp only [Option.getD] at hblocks ⊢
      rw [List.take_length] at hblocks
      rw [filter_length_of_blocks hblocks, List.getElem?_eq_none (Nat.le_refl _)]
      exact ⟨rfl, rfl⟩
    | some k =>
      rw [hfound] at hblocks
      obtain ⟨hlt, -⟩ := List.findIdx?_eq_some_iff_getElem.mp hfound
      dsimp only [Option.getD] at hblocks ⊢
      rw [filter_length_of_blocks hblocks, List.getElem?_eq_getElem hlt, List.length_take,
        Nat.min_eq_left (Nat.le_of_lt hlt), List.getD_eq_getElem?_getD, List.getElem?_eq_getElem hlt]
      exact ⟨rfl, rfl⟩

theorem terminate_jump (hb : f.block frame.block = some b) (hkind : b.terminator.kind = .Jump) :
    terminate runtime module f frame world = enter runtime module f frame world b.terminator.target
      (b.terminator.argumentsFor 0) := by
  unfold terminate selected
  rw [hb]
  dsimp only
  rw [hkind]

theorem enter_of_no_parameters {target : BlockId} (hc : f.block target = some c)
    (hnone : c.parameters = []) (arguments : List Operand) :
    enter runtime module f frame world target arguments =
      .running { frame with block := target, rest := c.instructions } world := by
  unfold enter
  rw [hc]
  dsimp only
  rw [hnone]
  rfl

variable (runtime module world) in
/-- A jump that skips an empty block takes the two steps at once. -/
theorem step_threads (hthreads : Threads f b skipped onward) (hb : f.block frame.block = some b)
    (hrest : frame.rest = []) (hg : g.block frame.block = some
      { b with terminator := { b.terminator with target := onward.id } }) (hsame : SameBodies f g) :
    Idle f (step runtime module f (.running frame world)) ∧
      step runtime module g (.running frame world) =
      step runtime module f (step runtime module f (.running frame world)) := by
  obtain ⟨hinstructions, hparameters⟩ : skipped.instructions = [] ∧ skipped.parameters = [] := by
    have hempty := hthreads.empty
    unfold isEmptyBlock at hempty
    simp only [Bool.and_eq_true, List.isEmpty_iff] at hempty
    exact hempty.1.1
  have hname := (Function.block_eq_some hthreads.onwards).2.2
  have hfirst : step runtime module f (.running frame world) =
      .running { frame with block := b.terminator.target, rest := [] } world := by
    rw [step, hrest]
    dsimp only
    rw [terminate_jump hb hthreads.kind, enter_of_no_parameters hthreads.target hparameters,
      hinstructions]
  have hsecond : step runtime module f
      (.running { frame with block := b.terminator.target, rest := [] } world) =
      .running { frame with block := onward.id, rest := onward.instructions } world := by
    rw [step]
    dsimp only
    rw [terminate_jump hthreads.target hthreads.jumps,
      enter_of_no_parameters hthreads.onwards hthreads.parameters, hname]
  rw [hfirst]
  refine ⟨⟨rfl, skipped, hthreads.target, hthreads.empty⟩, ?_⟩
  rw [hsecond, step, hrest]
  dsimp only
  rw [terminate_jump hg hthreads.kind, hsame.enter]
  exact enter_of_no_parameters (hname ▸ hthreads.onwards) hthreads.parameters _

/-- A jump that a decision left takes the step of the terminator. -/
theorem step_decided (hdecided : decided module b.terminator = some simplified)
    (hb : f.block frame.block = some b) (hrest : frame.rest = [])
    (hg : g.block frame.block = some { b with terminator := simplified }) (hsame : SameBodies f g)
    (hcases : CasesHaveBlocks module f (.running frame world)) :
    step runtime module g (.running frame world) = step runtime module f (.running frame world) := by
  obtain ⟨hkind, hjump, htarget, harguments⟩ :=
    decided_selected runtime world hdecided (hcases hrest b hb) frame.values
  rw [step, step, hrest]
  dsimp only
  rw [terminate_jump hg hjump, hsame.enter, htarget, harguments]
  unfold interpreter.terminate
  rw [hb]
  dsimp only
  rcases List.mem_cons.mp hkind with hkind | hkind
  · rw [hkind]
  · rw [List.mem_singleton.mp hkind]

variable (runtime) in
/-- One rewriting leaves out idle states of a run. -/
theorem skips_of_simplifyBlock (hids : f.DistinctIds) (h : simplifyBlock module f index = some g)
    {c : Configuration W} (hcases : ∀ n, CasesHaveBlocks module f ((step runtime module f)^[n] c)) :
    Skips (fun n => (step runtime module f)^[n] c) (fun n => (step runtime module g)^[n] c) (Idle f) := by
  obtain ⟨b, simplified, hget, hsimplified, rfl⟩ := simplifyBlock_eq_some hids h
  have hsame : SameBodies f { f with blocks := f.blocks.map (withTerminator b simplified) } :=
    sameBodies_withTerminator b simplified
  refine skips_of_steps fun n => ?_
  have hone (heq : step runtime module
    { f with blocks := f.blocks.map (withTerminator b simplified) }
    ((step runtime module f)^[n] c) = step runtime module f ((step runtime module f)^[n] c)) :
      ∃ k, step runtime module { f with blocks := f.blocks.map (withTerminator b simplified) }
        ((step runtime module f)^[n] c) = (step runtime module f)^[n + k + 1] c ∧ ∀ j, n < j →
        j < n + k + 1 → Idle f ((step runtime module f)^[j] c) :=
    ⟨0, heq.trans (Function.iterate_succ_apply' ..).symm, fun j hlt hgt => by omega⟩
  cases hat : (step runtime module f)^[n] c with
  | returned | raised | stuck => exact hat ▸ hone (hat ▸ rfl)
  | running frame world =>
    rw [hat] at hone
    by_cases hrest : frame.rest = []
    · cases hblock : f.block frame.block with
      | none =>
        refine hone ?_
        rw [step, step, hrest]
        dsimp only
        unfold interpreter.terminate
        rw [hblock, hsame.block_eq_none hblock]
      | some b' =>
        have hg := block_withTerminator (f := f) b simplified frame.block
        rw [hblock, Option.map_some] at hg
        by_cases heq : b'.id = b.id
        · obtain rfl := hids.eq (Function.block_eq_some hblock).2.1 (List.mem_of_getElem? hget) heq
          rw [withTerminator, if_pos rfl] at hg
          unfold simplifyTerminator at hsimplified
          split at hsimplified
          next hkind =>
            obtain ⟨target, htarget, rfl⟩ := Option.map_eq_some_iff.mp hsimplified
            obtain ⟨skipped, onward, hthreads, rfl⟩ := (threaded_eq_some hids hget hkind).mp htarget
            obtain ⟨hidle, hstep⟩ := step_threads runtime module world hthreads hblock hrest hg hsame
            rw [← hat, ← Function.iterate_succ_apply' (step runtime module f)] at hidle
            rw [← hat, ← Function.iterate_succ_apply' (step runtime module f),
              ← Function.iterate_succ_apply' (step runtime module f)] at hstep
            refine ⟨1, hat ▸ hstep, fun j hlt hgt => ?_⟩
            obtain rfl : j = n + 1 := by omega
            exact hidle
          next => exact hone (step_decided hsimplified hblock hrest hg hsame (hat ▸ hcases n))
        · rw [withTerminator, if_neg heq] at hg
          refine hone ?_
          rw [step, step, hrest]
          exact hsame.terminate hblock hg rfl world
    · exact hone (hsame.step_of_rest hrest world)

theorem simplifyBlock_distinctIds (hids : f.DistinctIds)
    (h : simplifyBlock module f index = some g) : g.DistinctIds := by
  obtain ⟨b, simplified, -, -, rfl⟩ := simplifyBlock_eq_some hids h
  unfold Function.DistinctIds
  rw [ids_withTerminator]
  exact hids

theorem simplifyBlock_sameBodies (hids : f.DistinctIds)
    (h : simplifyBlock module f index = some g) : SameBodies f g := by
  obtain ⟨b, simplified, -, -, rfl⟩ := simplifyBlock_eq_some hids h
  exact sameBodies_withTerminator b simplified

theorem simplifyTerminator_jumps {t : Terminator}
    (h : simplifyTerminator module f index t = some simplified) : simplified.kind = .Jump := by
  unfold simplifyTerminator at h
  split at h
  next hkind =>
    obtain ⟨target, -, rfl⟩ := Option.map_eq_some_iff.mp h
    exact hkind
  next =>
    unfold decided at h
    split at h
    · split at h
      · cases h
        rfl
      · split at h
        · cases h
          rfl
        · nomatch h
    · split at h
      · nomatch h
      · cases h
        rfl
    · nomatch h

theorem casesHaveBlocks_of_simplifyBlock (hids : f.DistinctIds)
    (h : simplifyBlock module f index = some g) {config : Configuration W}
    (hcases : CasesHaveBlocks module f config) : CasesHaveBlocks module g config := by
  obtain ⟨b, simplified, -, hsimplified, rfl⟩ := simplifyBlock_eq_some hids h
  cases config with
  | returned | raised | stuck => trivial
  | running frame world =>
    intro hrest c hc hswitch
    rw [block_withTerminator] at hc
    obtain ⟨c', hc', rfl⟩ := Option.map_eq_some_iff.mp hc
    unfold withTerminator at hswitch ⊢
    split at hswitch
    · rw [simplifyTerminator_jumps hsimplified] at hswitch
      nomatch hswitch
    next hne =>
      rw [if_neg hne]
      exact hcases hrest c' hc' hswitch

theorem idle_of_sameBodies (h : SameBodies f g) {config : Configuration W} (hidle : Idle g config) :
    Idle f config := by
  cases config with
  | returned | raised | stuck => exact hidle
  | running frame world =>
    obtain ⟨hrest, c, hc, hempty⟩ := hidle
    cases hb : f.block frame.block with
    | none => nomatch (h.block_eq_none hb).symm.trans hc
    | some b =>
      obtain ⟨c', hc', hinstructions, hparameters, hhandlers, hkind, -⟩ := h.block_eq_some hb
      obtain rfl := Option.some.inj (hc.symm.trans hc')
      refine ⟨hrest, b, hb, ?_⟩
      unfold isEmptyBlock at hempty ⊢
      rwa [← hinstructions, ← hparameters, ← hhandlers, ← hkind]

/-- All the rewritings together leave out idle states of a run. -/
theorem skips_of_simplifyBlocks (indices : List Nat) (hids : f.DistinctIds) {config : Configuration W}
    (hcases : ∀ n, CasesHaveBlocks module f ((step runtime module f)^[n] config)) :
    SameBodies f (simplifyBlocks module indices f).1 ∧
      Skips (fun n => (step runtime module f)^[n] config)
      (fun n => (step runtime module (simplifyBlocks module indices f).1)^[n] config)
        (Idle f) := by
  induction indices generalizing f with
  | nil => exact ⟨.refl f, Skips.refl _ _⟩
  | cons index indices ih =>
    rw [simplifyBlocks]
    cases h : simplifyBlock module f index with
    | none => exact ih hids hcases
    | some g =>
      have hsame := simplifyBlock_sameBodies hids h
      have hskips := skips_of_simplifyBlock runtime hids h hcases
      obtain ⟨hsame', hskips'⟩ := ih (f := g) (simplifyBlock_distinctIds hids h) fun n => by
        obtain ⟨place, -, -, hplace, -⟩ := hskips
        refine casesHaveBlocks_of_simplifyBlock hids h ?_
        rw [show (step runtime module g)^[n] config = _ from hplace n]
        exact hcases (place n)
      exact ⟨hsame.trans hsame', hskips.trans hskips' fun _ hidle => idle_of_sameBodies hsame hidle⟩

end

theorem step_rebuildEdges {W : Type} (runtime : Runtime W) (module : Module) (f : Function) :
    step runtime module f.rebuildEdges = step runtime module f := by
  have hsame : SameBodies f f.rebuildEdges := ⟨fun _ => rfl, rfl, rfl, rfl, rfl⟩
  funext config
  cases config with
  | returned | raised | stuck => rfl
  | running frame world =>
    by_cases hrest : frame.rest = []
    · rw [step, step, hrest]
      dsimp only
      cases hb : f.block frame.block with
      | none =>
        unfold interpreter.terminate
        rw [hb, hsame.block_eq_none hb]
      | some b => exact hsame.terminate hb hb rfl world
    · exact hsame.step_of_rest hrest world

/-- Every run of a verified function leaves out nothing but idle states when the branches are
    simplified, as long as the switches that it decides have a block for each case in front of the
    one that they take. -/
theorem runOnFunction_skips {W : Type} (rules : TypeRules) (options : Verifier.VerifierOptions)
    (runtime : Runtime W) (module : Module)
    (f : Function) (arguments : ParamId → gc.Value) (slots : SlotId → Option gc.Value) (world : W)
    (hok : Verifier.verifyFunction rules module f options = []) (hcases : ∀ n, CasesHaveBlocks module f
      ((step runtime module f)^[n] (start f arguments slots world))) :
    Skips (fun n => (step runtime module f)^[n] (start f arguments slots world))
      (fun n => (step runtime module (runOnFunction module f).1)^[n]
        (start (runOnFunction module f).1 arguments slots world)) (Idle f) := by
  obtain ⟨hsame, hskips⟩ := skips_of_simplifyBlocks (List.range f.blocks.length)
    (Verifier.accepted_of_verifyFunction hok).distinctIds hcases
  unfold runOnFunction
  dsimp only
  split
  · exact Skips.refl _ _
  · rw [step_rebuildEdges, show start
      (simplifyBlocks module (List.range f.blocks.length) f).1.rebuildEdges arguments slots world =
      start (simplifyBlocks module (List.range f.blocks.length) f).1 arguments slots world from rfl,
      hsame.start]
    exact hskips

def switchModule : Module := { constants := [makeInt 2] }

def decideSwitch (first : BlockId) (edgeArguments : List (List Operand)) : Function :=
  Function.rebuildEdges {
  name := "decideSwitch"
  returnType := 2
  entryBlock := 1
  blocks := [
    { id := 1
      terminator :=
        { kind := .Switch, value := .constant 1 2, target := 3, cases := [⟨1, first⟩, ⟨2, 2⟩]
          edgeArguments } },
    { id := 2, parameters := [{ id := 1, name := "n", type := 2 }],
      terminator := { kind := .Return, value := .blockParam 1 2 } },
      { id := 3, terminator := { kind := .Return, value := .constant 1 2 } }] }

theorem runOnFunction_skips_switch :
    Skips (fun n => (step ConstantAnalysis.foldRuntime switchModule
      (decideSwitch 3 [[], [.constant 1 2], []]))^[n]
        (start (decideSwitch 3 [[], [.constant 1 2], []]) (fun _ => .nil) (fun _ => none) ()))
      (fun n => (step ConstantAnalysis.foldRuntime switchModule
          (runOnFunction switchModule (decideSwitch 3 [[], [.constant 1 2], []])).1)^[n]
        (start (runOnFunction switchModule (decideSwitch 3 [[], [.constant 1 2], []])).1
          (fun _ => .nil) (fun _ => none) ()))
      (Idle (decideSwitch 3 [[], [.constant 1 2], []])) := by
  refine runOnFunction_skips Verifier.exampleTypes {} ConstantAnalysis.foldRuntime switchModule
    (decideSwitch 3 [[], [.constant 1 2], []])
    (fun _ => .nil) (fun _ => none) () (by decide +kernel) fun n => ?_
  cases (step ConstantAnalysis.foldRuntime switchModule
    (decideSwitch 3 [[], [.constant 1 2], []]))^[n] _ with
  | returned | raised | stuck => trivial
  | running frame world =>
    intro _ b hb _ subject _ _ entry hentry
    have hall : ∀ b ∈ (decideSwitch 3 [[], [.constant 1 2], []]).blocks, ∀ entry ∈ b.terminator.cases,
      entry.block ≠ kNoBlock := by decide
    exact hall b (Function.block_eq_some hb).2.1 entry (List.mem_of_mem_take hentry)

/-- The edge arguments are in the order of the successors, and a case without a block has none. -/
theorem missing_case_not_skipped :
    ¬∀ (W : Type) (rules : TypeRules) (options : Verifier.VerifierOptions) (runtime : Runtime W)
    (module : Module)
    (f : Function) (arguments : ParamId → gc.Value) (slots : SlotId → Option gc.Value) (world : W),
    Verifier.verifyFunction rules module f options = [] →
    Skips (fun n => (step runtime module f)^[n] (start f arguments slots world))
      (fun n => (step runtime module (runOnFunction module f).1)^[n]
        (start (runOnFunction module f).1 arguments slots world)) (Idle f) := by
  intro h
  obtain ⟨place, hmono, hzero, hsame, -⟩ :=
    h Unit Verifier.exampleTypes {} ConstantAnalysis.foldRuntime switchModule
    (decideSwitch kNoBlock [[.constant 1 2], []]) (fun _ => .nil) (fun _ => none) () (by decide +kernel)
  obtain ⟨k, hk⟩ :=
    Nat.exists_eq_succ_of_ne_zero (Nat.ne_of_gt (hzero ▸ hmono Nat.zero_lt_one : 0 < place 1))
  have hone := hsame 1
  rw [hk] at hone
  let values : ValueId → gc.Value := startValues fun _ => .nil
  have hsimplified : (step ConstantAnalysis.foldRuntime switchModule
      (runOnFunction switchModule (decideSwitch kNoBlock [[.constant 1 2], []])).1)^[1]
      (start (runOnFunction switchModule (decideSwitch kNoBlock [[.constant 1 2], []])).1
        (fun _ => .nil) (fun _ => none) ()) =
      .running ⟨2, [], values, fun _ => none⟩ () := rfl
  have hfirst : (step ConstantAnalysis.foldRuntime switchModule
    (decideSwitch kNoBlock [[.constant 1 2], []]))^[1]
      (start (decideSwitch kNoBlock [[.constant 1 2], []]) (fun _ => .nil) (fun _ => none) ()) =
      .running ⟨2, [], Function.update values (.blockParam 1) (.int 2), fun _ => none⟩ () := rfl
  have hends (n : Nat) : (step ConstantAnalysis.foldRuntime switchModule
    (decideSwitch kNoBlock [[.constant 1 2], []]))^[n + 2]
      (start (decideSwitch kNoBlock [[.constant 1 2], []]) (fun _ => .nil) (fun _ => none) ()) =
      .returned (some (.int 2)) (fun _ => none) () := by
    induction n with
    | zero =>
      rw [Function.iterate_succ_apply', hfirst]
      rfl
    | succ n ih =>
      rw [Function.iterate_succ_apply', ih]
      rfl
  have hrun := hsimplified.symm.trans hone
  cases k with
  | zero =>
    have hvalues := congrArg Frame.values (Configuration.running.inj (hrun.trans hfirst)).1
    cases congrFun hvalues (.blockParam 1)
  | succ k => cases hrun.trans (hends k)

end BranchSimplificationPass

end zl.mir
