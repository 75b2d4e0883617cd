import Zl.Vm.Interpreter

open zl.transition

namespace zl.vm

/-- The actions that may only take frames away. -/
def Action.onlyUnwinds : Action → Bool
  | .startAsync | .data | .call | .invoke | .returnToCaller | .returnEndsRun => false
  | _ => true

theorem mem_resize {A : Type} {filler : A} {size : Nat} {stack : List A} {x : A}
    (h : x ∈ resize filler size stack) : x = filler ∨ x ∈ stack := by
  rcases List.mem_append.mp h with h | h
  · exact .inl (List.eq_of_mem_replicate h)
  · exact .inr (List.mem_of_mem_drop h)

namespace closures

abbrev ClosureId := Nat
abbrev VmId := Nat

/-- A map from names to values. -/
abbrev Scope (V : Type) := String → Option V

structure FunctionInfo where
  paramNames : List String := []
  captureNames : List String := []
  capturesEvaluationScope : Bool := false

structure ClosureBox (V : Type) where
  function : FunctionInfo := {}
  captured : Scope V

structure Frame (V : Type) where
  locals : Scope V := fun _ => none
  activeClosure : Option ClosureId := none

/-- A machine and the locals of its call frames, the innermost first. -/
structure Vm (V : Type) where
  machine : Machine V := {}
  frames : List (Frame V) := []
  globals : Scope V := fun _ => none

/-- All machines and the closures they share. `history` is what each closure should hold: what it was
    made with and the final locals of each call of it that returned normally, newest first. -/
structure World (V : Type) where
  closureBoxes : ClosureId → Option (ClosureBox V) := fun _ => none
  vms : VmId → Vm V := fun _ => {}
  history : ClosureId → List (Scope V) := fun _ => []

section
variable {V : Type}

/-- Refused if the number of arguments is wrong. -/
def makeCallFrame (fn : FunctionInfo) (args : List V) (receiver : Option V)
    (closure : Option (ClosureId × ClosureBox V)) : Option (Frame V) :=
  if args.length ≠ fn.paramNames.length then none
  else
    let locals : Scope V :=
      match closure, receiver with
      | some (_, box), _ => box.captured
      | none, some object => Function.update (fun _ => none) "this" (some object)
      | none, none => fun _ => none
    some {
      locals := (fn.paramNames.zip args).foldl
        (fun scope arg => Function.update scope arg.1 (some arg.2)) locals
      activeClosure := closure.map (·.1) }

namespace Vm
variable (vm : Vm V)

def instruction : Option Instruction := vm.machine.runs.head?.bind (·.instruction)

/-- The name operand of the current instruction. -/
def operandName : Option String :=
  vm.machine.runs.head?.bind fun run => run.instruction.bind fun instr => run.chunk.names[instr.operand]?

def snapshotScope : Scope V :=
  match vm.frames with
  | [] => vm.globals
  | frame :: _ => frame.locals

def setVariable (name : String) (value : V) : Vm V :=
  match vm.frames with
  | [] => { vm with globals := Function.update vm.globals name (some value) }
  | frame :: rest =>
    { vm with frames := { frame with locals := Function.update frame.locals name (some value) } :: rest }

/-- Nothing happens outside a function. -/
def dropLocal (name : String) : Vm V :=
  match vm.frames with
  | [] => vm
  | frame :: rest =>
    { vm with frames := { frame with locals := Function.update frame.locals name none } :: rest }

def enterFrame (frame : Frame V) : Vm V := { vm with frames := frame :: vm.frames }

/-- The frames that are left when the call stack is resized. -/
def unwindTo (depth : Nat) : Vm V := { vm with frames := resize {} depth vm.frames }

end Vm

namespace World
variable (w : World V)

def setVm (i : VmId) (vm : Vm V) : World V := { w with vms := Function.update w.vms i vm }

/-- What `MakeClosure` captures of a scope. -/
def capture (fn : FunctionInfo) (scope : Scope V) : Scope V :=
  fun name => if fn.capturesEvaluationScope ∧ name ∈ fn.captureNames then scope name else none

def makeClosure (c : ClosureId) (fn : FunctionInfo) (scope : Scope V) : World V :=
  { w with
    closureBoxes := Function.update w.closureBoxes c (some ⟨fn, capture fn scope⟩)
    history := Function.update w.history c [capture fn scope] }

/-- A call of a closure has returned normally with its locals at these values. -/
def record (finished : Frame V) : World V :=
  match finished.activeClosure with
  | none => w
  | some c => { w with history := Function.update w.history c (finished.locals :: w.history c) }

/-- The locals of a finished call become what its closure holds. -/
def writeBack (finished : Frame V) : World V :=
  match finished.activeClosure with
  | none => w
  | some c =>
    { w with
      closureBoxes := Function.update w.closureBoxes c
        ((w.closureBoxes c).map fun box => { box with captured := finished.locals }) }

end World

/-- A step of one of the machines. Values that come from the value stack are left open. -/
inductive WorldStep [Inhabited V] : World V → VmId × Action → World V → Prop
  | assign (w : World V) (i : VmId) {machine : Machine V} (hstep : Step (w.vms i).machine .data machine)
      {instr : Instruction} (hinstr : (w.vms i).instruction = some instr)
      (hop : instr.op = .DefineVar ∨ instr.op = .MoveVar)
      {name : String} (hname : (w.vms i).operandName = some name) (value : V) :
      WorldStep w (i, .data) (w.setVm i { (w.vms i).setVariable name value with machine := machine })
  | dropLocal (w : World V) (i : VmId) {machine : Machine V}
      (hstep : Step (w.vms i).machine .data machine)
      {instr : Instruction} (hinstr : (w.vms i).instruction = some instr) (hop : instr.op = .DropVar)
      {name : String} (hname : (w.vms i).operandName = some name) :
      WorldStep w (i, .data) (w.setVm i { (w.vms i).dropLocal name with machine := machine })
  | makeClosure (w : World V) (i : VmId) {machine : Machine V}
      (hstep : Step (w.vms i).machine .data machine)
      {instr : Instruction} (hinstr : (w.vms i).instruction = some instr) (hop : instr.op = .MakeClosure)
      (c : ClosureId) (hfresh : w.closureBoxes c = none) (fn : FunctionInfo) :
      WorldStep w (i, .data)
        ((w.makeClosure c fn (w.vms i).snapshotScope).setVm i { w.vms i with machine := machine })
  | data (w : World V) (i : VmId) {machine : Machine V} (hstep : Step (w.vms i).machine .data machine)
      {instr : Instruction} (hinstr : (w.vms i).instruction = some instr)
      (hop : instr.op ∉ [.DefineVar, .MoveVar, .DropVar, .MakeClosure]) :
      WorldStep w (i, .data) (w.setVm i { w.vms i with machine := machine })
  | callValue (w : World V) (i : VmId) {machine : Machine V}
      (hstep : Step (w.vms i).machine .call machine)
      {instr : Instruction} (hinstr : (w.vms i).instruction = some instr) (hop : instr.op = .CallValue)
      {c : ClosureId} {box : ClosureBox V} (hbox : w.closureBoxes c = some box) (args : List V)
      {frame : Frame V} (hframe : makeCallFrame box.function args none (some (c, box)) = some frame) :
      WorldStep w (i, .call) (w.setVm i { (w.vms i).enterFrame frame with machine := machine })
  | call (w : World V) (i : VmId) {machine : Machine V} (hstep : Step (w.vms i).machine .call machine)
      {instr : Instruction} (hinstr : (w.vms i).instruction = some instr) (hop : instr.op ≠ .CallValue)
      (fn : FunctionInfo) (args : List V) (receiver : Option V)
      {frame : Frame V} (hframe : makeCallFrame fn args receiver none = some frame) :
      WorldStep w (i, .call) (w.setVm i { (w.vms i).enterFrame frame with machine := machine })
  -- `invokeFunction`, of a closure or not; `invokeTaskClosure` is the case of no arguments
  | invokeClosure (w : World V) (i : VmId) {machine : Machine V}
      (hstep : Step (w.vms i).machine .invoke machine)
      {c : ClosureId} {box : ClosureBox V} (hbox : w.closureBoxes c = some box) (args : List V)
      {frame : Frame V} (hframe : makeCallFrame box.function args none (some (c, box)) = some frame) :
      WorldStep w (i, .invoke) (w.setVm i { (w.vms i).enterFrame frame with machine := machine })
  | invoke (w : World V) (i : VmId) {machine : Machine V}
      (hstep : Step (w.vms i).machine .invoke machine)
      (fn : FunctionInfo) (args : List V) (receiver : Option V)
      {frame : Frame V} (hframe : makeCallFrame fn args receiver none = some frame) :
      WorldStep w (i, .invoke) (w.setVm i { (w.vms i).enterFrame frame with machine := machine })
  -- the frame was made when the task was scheduled
  | startAsync (w : World V) (i : VmId) {machine : Machine V}
      (hstep : Step (w.vms i).machine .startAsync machine)
      (frame : Frame V)
      (hclosure : ∀ c ∈ frame.activeClosure, (w.closureBoxes c).isSome = true) :
      WorldStep w (i, .startAsync) (w.setVm i { (w.vms i).enterFrame frame with machine := machine })
  | returnToCaller (w : World V) (i : VmId) {machine : Machine V}
      (hstep : Step (w.vms i).machine .returnToCaller machine)
      {finished : Frame V} {rest : List (Frame V)} (hframes : (w.vms i).frames = finished :: rest) :
      WorldStep w (i, .returnToCaller) (((w.record finished).writeBack finished).setVm i
        { w.vms i with machine := machine, frames := rest })
  -- the early exit: the locals are not written back
  | returnEndsRun (w : World V) (i : VmId) {machine : Machine V}
      (hstep : Step (w.vms i).machine .returnEndsRun machine)
      {finished : Frame V} {rest : List (Frame V)} (hframes : (w.vms i).frames = finished :: rest) :
      WorldStep w (i, .returnEndsRun) ((w.record finished).setVm i
        { w.vms i with machine := machine, frames := rest })
  | unwind (w : World V) (i : VmId) {a : Action} (ha : a.onlyUnwinds = true) {machine : Machine V}
      (hstep : Step (w.vms i).machine a machine) :
      WorldStep w (i, a) (w.setVm i { (w.vms i).unwindTo machine.state.callDepth with machine := machine })

/-- Nothing has run and no closure has been made. -/
def World.Fresh (w : World V) : Prop :=
  w.closureBoxes = (fun _ => none) ∧ w.history = (fun _ => []) ∧
    ∀ i, (w.vms i).machine.Fresh ∧ (w.vms i).frames = [] ∧ (w.vms i).globals = fun _ => none

abbrev WorldRun [Inhabited V] : World V → List (World V × (VmId × Action)) → Prop := Run World.Fresh WorldStep

/-- Every closure holds the final locals of its last call that returned normally. -/
def Settled (w : World V) : Prop :=
  ∀ c, (w.closureBoxes c).map (·.captured) = (w.history c).head?

/-- A variable of a closure that each call raises by one counts the calls. -/
def LosesNoUpdate (w : World V) : Prop :=
  ∀ c name (count : Option V → Int) box made, w.closureBoxes c = some box →
    (w.history c).getLast? = some made →
    (w.history c).IsChain (fun newer older => count (newer name) = count (older name) + 1) →
    count (box.captured name) = count (made name) + ((w.history c).length - 1)

/-- The condition on a step: a `Return` that ends a nested run leaves no call of a closure whose locals
    differ from what the closure holds. -/
def LeavesNothingBehind (w : World V) (step : VmId × Action) : Prop :=
  step.2 = .returnEndsRun → ∀ finished ∈ (w.vms step.1).frames.head?, ∀ c ∈ finished.activeClosure,
    (w.closureBoxes c).map (·.captured) = some finished.locals

/-- The closures of all frames exist. -/
def Alive (w : World V) : Prop :=
  ∀ i, ∀ frame ∈ (w.vms i).frames, ∀ c ∈ frame.activeClosure, (w.closureBoxes c).isSome = true

end

section
variable {V : Type} {w w' : World V} {i : VmId} {a : Action}

theorem makeCallFrame_activeClosure {fn : FunctionInfo} {args : List V} {receiver : Option V}
    {closure : Option (ClosureId × ClosureBox V)} {frame : Frame V}
    (h : makeCallFrame fn args receiver closure = some frame) :
    frame.activeClosure = closure.map (·.1) := by
  unfold makeCallFrame at h
  split at h
  · cases h
  · cases h
    rfl

theorem Vm.setVariable_activeClosure (vm : Vm V) (name : String) (value : V) :
    (vm.setVariable name value).frames.map (·.activeClosure) = vm.frames.map (·.activeClosure) := by
  unfold Vm.setVariable
  split <;> simp [*]

theorem Vm.dropLocal_activeClosure (vm : Vm V) (name : String) :
    (vm.dropLocal name).frames.map (·.activeClosure) = vm.frames.map (·.activeClosure) := by
  unfold Vm.dropLocal
  split <;> simp [*]

@[simp]
theorem World.record_closures (finished : Frame V) : (w.record finished).closureBoxes = w.closureBoxes := by
  unfold World.record
  split <;> rfl

@[simp]
theorem World.record_vms (finished : Frame V) : (w.record finished).vms = w.vms := by
  unfold World.record
  split <;> rfl

@[simp]
theorem World.writeBack_vms (finished : Frame V) : (w.writeBack finished).vms = w.vms := by
  unfold World.writeBack
  split <;> rfl

theorem World.writeBack_isSome (finished : Frame V) (c : ClosureId) :
    ((w.writeBack finished).closureBoxes c).isSome = (w.closureBoxes c).isSome := by
  unfold World.writeBack
  split
  · rfl
  · next c' _ =>
    by_cases hc : c = c'
    · subst hc
      simp
    · simp [hc]

theorem Alive.setVm (h : Alive w)
    (hclosures : ∀ c, (w.closureBoxes c).isSome = true → (w'.closureBoxes c).isSome = true)
    (hvms : w'.vms = w.vms) {vm : Vm V}
    (hvm : ∀ frame ∈ vm.frames, ∀ c ∈ frame.activeClosure, (w.closureBoxes c).isSome = true) :
    Alive (w'.setVm i vm) := by
  intro j frame hframe c hc
  apply hclosures
  by_cases hj : j = i
  · subst hj
    exact hvm frame (by simpa [World.setVm] using hframe) c hc
  · exact h j frame (by simpa [World.setVm, hvms, hj] using hframe) c hc

theorem Alive.of_activeClosure (h : Alive w) {frames : List (Frame V)}
    (hframes : frames.map (·.activeClosure) = (w.vms i).frames.map (·.activeClosure)) :
    ∀ frame ∈ frames, ∀ c ∈ frame.activeClosure, (w.closureBoxes c).isSome = true := by
  intro frame hframe c hc
  have hmem : frame.activeClosure ∈ (w.vms i).frames.map (·.activeClosure) :=
    hframes ▸ List.mem_map_of_mem hframe
  obtain ⟨old, hold, hsame⟩ := List.mem_map.mp hmem
  exact h i old hold c (hsame ▸ hc)

theorem Alive.enterFrame (h : Alive w) {frame : Frame V} {machine : Machine V}
    (hframe : ∀ c ∈ frame.activeClosure, (w.closureBoxes c).isSome = true) :
    Alive (w.setVm i { (w.vms i).enterFrame frame with machine := machine }) := by
  refine h.setVm (fun _ hc => hc) rfl fun entered hentered => ?_
  rcases List.mem_cons.mp hentered with rfl | hentered
  · exact hframe
  · exact h i entered hentered

theorem WorldStep.alive [Inhabited V] (hstep : WorldStep w (i, a) w') (h : Alive w) : Alive w' := by
  cases hstep with
  | assign _ hstep hinstr hop hname value =>
    exact h.setVm (fun _ hc => hc) rfl (h.of_activeClosure (Vm.setVariable_activeClosure _ _ _))
  | dropLocal _ hstep hinstr hop hname =>
    exact h.setVm (fun _ hc => hc) rfl (h.of_activeClosure (Vm.dropLocal_activeClosure _ _))
  | makeClosure _ hstep hinstr hop c hfresh fn =>
    have hkept : ∀ c', (w.closureBoxes c').isSome = true →
        ((w.makeClosure c fn (w.vms i).snapshotScope).closureBoxes c').isSome = true := by
      intro c' hc'
      by_cases hc : c' = c
      · simp [World.makeClosure, hc]
      · simpa [World.makeClosure, hc] using hc'
    exact h.setVm hkept rfl (h i)
  | data _ hstep hinstr hop => exact h.setVm (fun _ hc => hc) rfl (h i)
  | callValue _ hstep hinstr hop hbox args hframe =>
    refine h.enterFrame fun c hc => ?_
    rw [makeCallFrame_activeClosure hframe] at hc
    cases hc
    simp [hbox]
  | call _ hstep hinstr hop fn args receiver hframe =>
    refine h.enterFrame fun c hc => ?_
    rw [makeCallFrame_activeClosure hframe] at hc
    cases hc
  | invokeClosure _ hstep hbox args hframe =>
    refine h.enterFrame fun c hc => ?_
    rw [makeCallFrame_activeClosure hframe] at hc
    cases hc
    simp [hbox]
  | invoke _ hstep fn args receiver hframe =>
    refine h.enterFrame fun c hc => ?_
    rw [makeCallFrame_activeClosure hframe] at hc
    cases hc
  | startAsync _ hstep frame hclosure => exact h.enterFrame hclosure
  | returnToCaller _ hstep hframes =>
    refine h.setVm (fun c hc => ?_) (by simp) fun frame hframe => ?_
    · simpa [World.writeBack_isSome] using hc
    · exact h i frame (hframes ▸ List.mem_cons_of_mem _ hframe)
  | returnEndsRun _ hstep hframes =>
    refine h.setVm (fun c hc => ?_) (by simp) fun frame hframe => ?_
    · simpa using hc
    · exact h i frame (hframes ▸ List.mem_cons_of_mem _ hframe)
  | unwind _ ha hstep =>
    refine h.setVm (fun _ hc => hc) rfl fun frame hframe c hc => ?_
    rcases mem_resize hframe with rfl | hframe
    · cases hc
    · exact h i frame hframe c hc

theorem Settled.makeClosure (h : Settled w) (c : ClosureId) (fn : FunctionInfo) (scope : Scope V) :
    Settled (w.makeClosure c fn scope) := by
  intro c'
  by_cases hc : c' = c
  · simp [World.makeClosure, hc]
  · simpa [World.makeClosure, hc] using h c'

theorem Settled.returnToCaller (h : Settled w) {finished : Frame V}
    (halive : ∀ c ∈ finished.activeClosure, (w.closureBoxes c).isSome = true) :
    Settled ((w.record finished).writeBack finished) := by
  unfold World.writeBack World.record
  cases hclosure : finished.activeClosure with
  | none => exact h
  | some c =>
    obtain ⟨box, hbox⟩ := Option.isSome_iff_exists.mp (halive c hclosure)
    intro c'
    by_cases hc : c' = c
    · simp [hc, hbox]
    · simpa [hc] using h c'

/-- A call that returns without writing back is settled only if there was nothing to write. -/
theorem Settled.record_iff (h : Settled w) {finished : Frame V} : Settled (w.record finished) ↔
    ∀ c ∈ finished.activeClosure, (w.closureBoxes c).map (·.captured) = some finished.locals := by
  unfold World.record
  cases hclosure : finished.activeClosure with
  | none => simpa using h
  | some c =>
    constructor
    · intro hsettled c' hc'
      cases hc'
      simpa using hsettled c
    · intro hheld c'
      by_cases hc : c' = c
      · simpa [hc] using hheld c rfl
      · simpa [hc] using h c'

theorem WorldStep.settled_iff [Inhabited V] (hstep : WorldStep w (i, a) w') (halive : Alive w)
    (h : Settled w) :
    Settled w' ↔ LeavesNothingBehind w (i, a) := by
  have hother : a ≠ .returnEndsRun → LeavesNothingBehind w (i, a) := fun hne heq => absurd heq hne
  cases hstep with
  | assign _ hstep hinstr hop hname value => exact iff_of_true h (hother nofun)
  | dropLocal _ hstep hinstr hop hname => exact iff_of_true h (hother nofun)
  | makeClosure _ hstep hinstr hop c hfresh fn => exact iff_of_true (h.makeClosure c fn _) (hother nofun)
  | data _ hstep hinstr hop => exact iff_of_true h (hother nofun)
  | callValue _ hstep hinstr hop hbox args hframe => exact iff_of_true h (hother nofun)
  | call _ hstep hinstr hop fn args receiver hframe => exact iff_of_true h (hother nofun)
  | invokeClosure _ hstep hbox args hframe => exact iff_of_true h (hother nofun)
  | invoke _ hstep fn args receiver hframe => exact iff_of_true h (hother nofun)
  | startAsync _ hstep frame hclosure => exact iff_of_true h (hother nofun)
  | returnToCaller _ hstep hframes =>
    refine iff_of_true (h.returnToCaller fun c hc => ?_) (hother nofun)
    exact halive i _ (hframes ▸ List.mem_cons_self) c hc
  | returnEndsRun _ hstep hframes =>
    refine h.record_iff.trans ⟨?_, ?_⟩
    · intro hheld _ finished hfinished c hc
      rw [hframes] at hfinished
      cases hfinished
      exact hheld c hc
    · intro hleaves c hc
      exact hleaves rfl _ (by rw [hframes]; rfl) c hc
  | unwind _ ha hstep => exact iff_of_true h (hother (by rintro rfl; cases ha))

theorem count_of_isChain {A : Type} {f : A → Int} {history : List A} {newest oldest : A}
    (h : history.IsChain fun newer older => f newer = f older + 1) (hnewest : history.head? = some newest)
    (holdest : history.getLast? = some oldest) : f newest = f oldest + (history.length - 1) := by
  induction history generalizing newest with
  | nil => cases hnewest
  | cons newer history ih =>
    cases hnewest
    cases history with
    | nil =>
      cases holdest
      simp
    | cons older history =>
      obtain ⟨hstep, hrest⟩ := List.isChain_cons_cons.mp h
      have hcount := ih hrest rfl (by simpa using holdest)
      simp only [List.length_cons] at hcount ⊢
      omega

theorem Settled.losesNoUpdate (h : Settled w) : LosesNoUpdate w := by
  intro c name count box made hbox hmade hcounts
  have hnewest : (w.history c).head? = some box.captured := by
    rw [← h c, hbox]
    rfl
  exact count_of_isChain (f := fun scope => count (scope name)) hcounts hnewest hmade

theorem World.Fresh.settled (h : w.Fresh) : Settled w := by
  obtain ⟨hclosures, hhistory, -⟩ := h
  intro c
  rw [hclosures, hhistory]
  rfl

theorem World.Fresh.alive (h : w.Fresh) : Alive w := by
  intro j frame hframe
  rw [(h.2.2 j).2.1] at hframe
  cases hframe

end

/-- Over any run of any machines, every closure always holds the final locals of its last call,
    and counters lose no update, exactly if no nested run ends with a call that has something to
    write back. -/
theorem captured_settled_iff {V : Type} [Inhabited V] {w : World V} {past : List (World V × (VmId × Action))}
    (hrun : WorldRun w past) :
    ((Settled w ∧ LosesNoUpdate w) ∧ ∀ p ∈ past, Settled p.1 ∧ LosesNoUpdate p.1) ↔
      ∀ p ∈ past, LeavesNothingBehind p.1 p.2 := by
  refine hrun.good_iff (fun w => Alive w ∧ Settled w) (fun w => Settled w ∧ LosesNoUpdate w)
    LeavesNothingBehind (fun w hfresh => ⟨hfresh.alive, hfresh.settled⟩)
    (fun w hinv => ⟨hinv.2, hinv.2.losesNoUpdate⟩) ?_ ?_
  · intro w step w' hinv hleaves hstep
    exact ⟨hstep.alive hinv.1, (hstep.settled_iff hinv.1 hinv.2).mpr hleaves⟩
  · intro w step w' hinv hleaves hstep hgood
    exact hleaves ((hstep.settled_iff hinv.1 hinv.2).mp hgood.1)

/-- A program that sets `n` to 0, makes a closure over it at address 5 and calls it through a native. -/
def counter : Chunk Int where
  code := [⟨.PushConst, 0, 0, 0⟩, ⟨.DefineVar, 0, 0, 0⟩, ⟨.MakeClosure, 0, 0, 0⟩, ⟨.CallNative, 0, 0, 0⟩,
    ⟨.Halt, 0, 0, 0⟩, ⟨.PushConst, 1, 0, 0⟩, ⟨.DefineVar, 0, 0, 0⟩, ⟨.PushConst, 1, 0, 0⟩, ⟨.Return, 0, 0, 0⟩]
  constants := [0, 1]
  names := ["n"]

/-- The run of the program at an address. -/
def counterRun (ip : Nat) : Activation Int := ⟨counter, 0, false, ip, none⟩

/-- The nested run of the closure. -/
def counterNested (ip : Nat) : Activation Int := ⟨counter, 1, true, ip, some (0, 0)⟩

def counterFunction : FunctionInfo where
  captureNames := ["n"]
  capturesEvaluationScope := true

private theorem counter_run :
    ∃ (w : World Int) (past : _), WorldRun w past ∧ ¬ Settled w ∧ ¬ LosesNoUpdate w := by
  have hnative : ∀ run ∈ [counterRun 3].head?, ∃ instr, run.instruction = some instr ∧
      instr.op.mayKeepFrames = true := by
    intro run hrun
    cases hrun
    exact ⟨_, rfl, rfl⟩
  have hfresh : World.Fresh ({} : World Int) := ⟨rfl, rfl, fun _ => ⟨⟨100000, rfl⟩, rfl, rfl⟩⟩
  have hstarted := Run.step (.start hfresh) (WorldStep.unwind {} 0 rfl (.start _ counter))
  have hzero := Run.step hstarted
    (.data _ 0 (.data _ (counterRun 0) _ ⟨.PushConst, 0, 0, 0⟩ rfl rfl [0] 1) rfl
    (by decide))
  have hdefined := Run.step hzero
    (.assign _ 0 (.data _ (counterRun 1) _ ⟨.DefineVar, 0, 0, 0⟩ rfl rfl [] 2) rfl
    (.inl rfl) rfl 0)
  have hmade := Run.step hdefined (.makeClosure _ 0
    (.data _ (counterRun 2) _ ⟨.MakeClosure, 0, 0, 0⟩ rfl rfl [] 3) rfl rfl 0 rfl counterFunction)
  have hcalled := Run.step hmade (@WorldStep.invokeClosure _ _ _ 0 _
    (.invoke _ _ hnative [] counter ⟨9, ""⟩ 5 rfl) 0 _ rfl [] _ rfl)
  have hone := Run.step hcalled (.data _ 0
    (.data _ (counterNested 5) _ ⟨.PushConst, 1, 0, 0⟩ rfl rfl [1] 6) rfl (by decide))
  have hcounted := Run.step hone (.assign _ 0
    (.data _ (counterNested 6) _ ⟨.DefineVar, 0, 0, 0⟩ rfl rfl [] 7) rfl (.inl rfl) rfl 1)
  have hresult := Run.step hcounted (.data _ 0
    (.data _ (counterNested 7) _ ⟨.PushConst, 1, 0, 0⟩ rfl rfl [1] 8) rfl (by decide))
  have hreturned := Run.step hresult (.returnEndsRun _ 0
    (.returnEndsRun _ (counterNested 8) _ ⟨.Return, 0, 0, 0⟩ rfl rfl rfl ⟨9, ""⟩ ⟨[1], [], 100000, []⟩ rfl
      ⟨rfl, Nat.zero_lt_one⟩) rfl)
  refine ⟨_, _, hreturned, fun hsettled => ?_, fun hcounts => ?_⟩
  · have hheld := congrArg (Option.map fun scope => scope "n") (hsettled 0)
    exact absurd hheld (by decide)
  · have hcount := hcounts 0 "n" (fun value => value.getD 0) _ _ rfl rfl (by simp; decide)
    exact absurd hcount (by decide)

/-- The increment of a call through a native is lost. -/
theorem native_call_loses_increment :
    ¬ ∀ (w : World Int) (past : _), WorldRun w past → Settled w ∧ LosesNoUpdate w := by
  intro hall
  obtain ⟨w, past, hrun, hsettled, -⟩ := counter_run
  exact hsettled (hall w past hrun).1

/-- The last return of that run leaves something behind. -/
theorem captured_settled_iff_counter : ∃ (w : World Int) (past : _), WorldRun w past ∧
    ¬ ∀ p ∈ past, LeavesNothingBehind p.1 p.2 := by
  obtain ⟨w, past, hrun, hsettled, -⟩ := counter_run
  exact ⟨w, past, hrun, fun hleaves => hsettled ((captured_settled_iff hrun).mpr hleaves).1.1⟩

end closures

end zl.vm
