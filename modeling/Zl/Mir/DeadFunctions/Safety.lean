import Zl.Mir.DeadFunctions.Renumbered

open zl.transition

namespace zl.mir

/-- An execution, with every function under its new id. -/
def Execution.rename (newId : FunctionId → FunctionId) (execution : Execution) : Execution :=
  ⟨execution.entered.map newId, execution.closures.map newId⟩

def Action.rename (newId : FunctionId → FunctionId) : Action → Action
  | .enter caller instruction receiverClass callee =>
    .enter (newId caller) (instruction.retarget newId) receiverClass (newId callee)
  | .makeClosure caller instruction => .makeClosure (newId caller) (instruction.retarget newId)
  | .runClosure body => .runClosure (newId body)
  | .reflect caller instruction callee =>
      .reflect (newId caller) (instruction.retarget newId) (newId callee)

section
variable {newId : FunctionId → FunctionId}

theorem Function.instructions_retarget (function : Function) :
    (function.retarget newId).instructions = function.instructions.map (·.retarget newId) := by
  simp only [instructions, retarget, List.map_flatMap, List.flatMap_map]
  rfl

theorem Function.retarget_id (function : Function) : function.retarget id = function := by
  have hinstruction : (fun instruction : Instruction => instruction.retarget id) = id := rfl
  have hblock : (fun block : BasicBlock => block.retarget id) = id := by
    funext block
    rw [BasicBlock.retarget, hinstruction, List.map_id]
    rfl
  rw [retarget, hblock, List.map_id]

theorem Execution.rename_id (execution : Execution) : execution.rename id = execution := by
  rw [rename, List.map_id, List.map_id]

theorem Action.rename_id (action : Action) : action.rename id = action := by
  cases action <;> rfl

end

namespace Module

section
variable {m : Module} {types : TypeRules} {execution execution' : Execution} {action : Action}
  {past : List (Execution × Action)}

/-- Only functions of the module are entered or made into closures. -/
def Existing (m : Module) (execution : Execution) : Prop :=
  (∀ id ∈ execution.entered, (m.function id).isSome = true) ∧
    ∀ id ∈ execution.closures, (m.function id).isSome = true

theorem run_existing (hrun : Run m.Starts (m.Step types) execution past)
    (hforeseen : ∀ p ∈ past, m.StepForeseen types p.2) : m.Existing execution := by
  refine hrun.invariant m.Existing (fun _ action => m.StepForeseen types action) ?_ ?_ hforeseen
  · rintro execution ⟨rfl, hentry⟩
    exact ⟨List.forall_mem_singleton.mpr hentry, nofun⟩
  · intro execution action execution' ⟨hentered, hclosures⟩ hforeseen hstep
    cases hstep with
    | enter hexecutes hcallee =>
      obtain ⟨fn, hf, -⟩ := hforeseen
      exact ⟨List.forall_mem_cons.mpr ⟨by simp [hf], hentered⟩, hclosures⟩
    | makeClosure hexecutes hopcode hbody => exact ⟨hentered, List.forall_mem_cons.mpr ⟨hbody, hclosures⟩⟩
    | runClosure hmade => exact ⟨List.forall_mem_cons.mpr ⟨hclosures _ hmade, hentered⟩, hclosures⟩
    | reflect hexecutes hopcode hreflective hcallee =>
      exact ⟨List.forall_mem_cons.mpr ⟨hcallee, hentered⟩, hclosures⟩

/-- An entered function that is kept runs the same instructions in the new module. -/
theorem executes_withKept (hcomplete : (m.reachableFunctions types).complete = true)
    (hreported : m.Reported types execution) {caller : FunctionId} {instruction : Instruction}
    (hexecutes : m.Executes execution caller instruction) :
    (m.withKept types).Executes (execution.rename (m.newId types)) (m.newId types caller)
      (instruction.retarget (m.newId types)) := by
  obtain ⟨hcaller, function, hfunction, hinstruction⟩ := hexecutes
  refine ⟨List.mem_map_of_mem hcaller, function.retarget (m.newId types), ?_, ?_⟩
  · exact function_withKept_of_some (mem_keptIds_of_reported hcomplete (hreported.1 _ hcaller)) hfunction
  · rw [Function.instructions_retarget]
    exact List.mem_map_of_mem hinstruction

/-- A foreseen step of the module is a step of the new module, under the new ids. -/
theorem step_withKept (hverified : m.Verified) (hcomplete : (m.reachableFunctions types).complete = true)
    (haccepted : ¬ (m.keepSet types).any fun id => (m.namedCallees id).any (m.functions.length < ·))
    (hreported : m.Reported types execution) (hforeseen : m.StepForeseen types action)
    (hstep : m.Step types execution action execution') :
    (m.withKept types).Step types (execution.rename (m.newId types)) (action.rename (m.newId types))
      (execution'.rename (m.newId types)) := by
  have hreported' := step_reported hcomplete hreported hforeseen hstep
  cases hstep with
  | enter hexecutes hcallee =>
    obtain ⟨fn, hf, hlambda, hforeseen⟩ := hforeseen
    obtain ⟨hcaller, function, hfunction, hinstruction⟩ := id hexecutes
    exact .enter (executes_withKept hcomplete hreported hexecutes)
      (callee_withKept hverified hcomplete haccepted (hreported.1 _ hcaller) hfunction hinstruction
        hcallee hf
        hlambda hforeseen)
  | @makeClosure caller instruction hexecutes hopcode hbody =>
    have hkept := mem_keptIds_of_reported hcomplete (hreported'.2 _ List.mem_cons_self)
    refine .makeClosure (executes_withKept hcomplete hreported hexecutes) hopcode ?_
    rw [Instruction.retarget, function_withKept hkept, Option.isSome_map]
    exact hbody
  | runClosure hmade => exact .runClosure (List.mem_map_of_mem hmade)
  | reflect hexecutes hopcode hreflective hcallee =>
    have hkept := mem_keptIds_of_reported hcomplete (hreported'.1 _ List.mem_cons_self)
    refine .reflect (executes_withKept hcomplete hreported hexecutes) hopcode hreflective ?_
    rw [function_withKept hkept, Option.isSome_map]
    exact hcallee

/-- What the pass leaves: the module as it is, or the kept functions of a closed report. -/
theorem eliminateDeadFunctions_cases {e : Elimination} (h : m.eliminateDeadFunctions types = some e) :
    (e.module = m ∧ e.newId = id) ∨
    ((m.reachableFunctions types).complete = true ∧
      (¬ (m.keepSet types).any fun id => (m.namedCallees id).any (m.functions.length < ·)) ∧
      e.module = m.withKept types ∧ e.newId = m.newId types) := by
  unfold eliminateDeadFunctions at h
  split at h
  · rw [← Option.some.inj h]
    exact .inl ⟨rfl, rfl⟩
  next hcomplete =>
    split at h
    · rw [← Option.some.inj h]
      exact .inl ⟨rfl, rfl⟩
    next haccepted =>
      split at h
      · rw [← Option.some.inj h]
        exact .inl ⟨rfl, rfl⟩
      · split at h
        · nomatch h
        · rw [← Option.some.inj h]
          exact .inr ⟨by simpa using hcomplete, haccepted, rfl, rfl⟩

/-- The pass keeps every function that an execution enters through foreseen steps, and the
    execution is one of the new module, in which each step enters the same function. -/
theorem run_eliminateDeadFunctions (hverified : m.Verified)
    (hrun : Run m.Starts (m.Step types) execution past) (hforeseen : ∀ p ∈ past, m.StepForeseen types p.2) :
    ∃ e, m.eliminateDeadFunctions types = some e ∧
      (∀ id ∈ execution.entered, ∃ function, m.function id = some function ∧
        e.module.function (e.newId id) = some (function.retarget e.newId)) ∧
      Run e.module.Starts (e.module.Step types) (execution.rename e.newId)
        (past.map fun p => (p.1.rename e.newId, p.2.rename e.newId)) := by
  obtain ⟨e, he⟩ := exists_elimination hverified types
  refine ⟨e, he, ?_⟩
  have hexisting := (run_existing hrun hforeseen).1
  rcases eliminateDeadFunctions_cases he with ⟨hmodule, hid⟩ | ⟨hcomplete, haccepted, hmodule, hid⟩
  · rw [hmodule, hid]
    refine ⟨fun id hentered => ?_, ?_⟩
    · obtain ⟨function, hf⟩ := Option.isSome_iff_exists.mp (hexisting id hentered)
      exact ⟨function, hf, by rw [Function.retarget_id]; exact hf⟩
    · simpa only [Execution.rename_id, Action.rename_id, Prod.mk.eta, List.map_id'] using hrun
  · rw [hmodule, hid]
    refine ⟨fun id hentered => ?_, ?_⟩
    · obtain ⟨function, hf⟩ := Option.isSome_iff_exists.mp (hexisting id hentered)
      have hreported := (run_reported hcomplete hrun hforeseen).1 id hentered
      exact ⟨function, hf, function_withKept_of_some (mem_keptIds_of_reported hcomplete hreported) hf⟩
    · refine hrun.map _ _ (m.Reported types) (fun _ action => m.StepForeseen types action)
        (fun _ => starts_reported hcomplete) (fun _ _ _ => step_reported hcomplete) ?_
        (fun _ _ _ => step_withKept hverified hcomplete haccepted) hforeseen
      rintro execution ⟨rfl, hentry⟩
      refine ⟨rfl, ?_⟩
      show ((m.withKept types).function (m.newId types m.entryPoint)).isSome = true
      rw [function_withKept (mem_keptIds_of_reported hcomplete
        (entryPoint_mem_reachableFunctions hcomplete)), Option.isSome_map]
      exact hentry

end

end Module

/-- A module without interned types. -/
def noTypes : TypeRules :=
  ⟨fun _ => none, fun _ => false, fun _ _ => false, fun _ => "", fun _ _ _ _ => []⟩

def invokeM : Instruction :=
  { opcode := .InvokeMethod, operands := [Operand.temp 1 1],
    target := { className := "I", methodName := "m" } }

def methodM (className : String) : Function :=
  { name := className ++ ".m", ownerClass := className, simpleName := "m()",
    parameters := [{ name := "this" }]
    hasThisParameter := true }

/-- The entry point calls a method of an interface. One class declares it, the other inherits it
    from a parent that does not implement the interface. -/
def inheritingProgram : Module :=
  { functions := [{ name := "main", blocks := [{ id := 1, instructions := [invokeM] }] },
    methodM "Base", methodM "Other"]
    classes := [{ name := "Base" }, { name := "Derived", parent := "Base", interfaces := ["I"] },
      { name := "Other", interfaces := ["I"] }]
    interfaces := [{ name := "I", methods := [{ name := "m" }] }]
    entryPoint := 1 }

theorem inheritingProgram_verified : inheritingProgram.Verified where
  initializer_exists := nofun
  class_names_nodup := by decide

theorem run_invokeM {receiverClass : String} {callee : FunctionId}
    (hcallee : inheritingProgram.callee noTypes invokeM receiverClass = some callee) :
    Run inheritingProgram.Starts (inheritingProgram.Step noTypes) ⟨[callee, 1], []⟩
      [(⟨[1], []⟩, .enter 1 invokeM receiverClass callee)] := by
  refine .step (.start ⟨rfl, rfl⟩) (.enter ⟨List.mem_cons_self, _, rfl, ?_⟩ hcallee)
  exact List.mem_cons_self

theorem invokeM_other_kept : ∃ e, inheritingProgram.eliminateDeadFunctions noTypes = some e ∧
    e.module.function (e.newId 3) = some ((methodM "Other").retarget e.newId) := by
  have hcallee : inheritingProgram.callee noTypes invokeM "Other" = some 3 := by decide +kernel
  obtain ⟨e, he, hkept, -⟩ :=
    Module.run_eliminateDeadFunctions inheritingProgram_verified (run_invokeM hcallee) <| by
    refine List.forall_mem_singleton.mpr ⟨methodM "Other", rfl, fun _ => rfl, fun site hsite => ?_⟩
    obtain rfl := Option.some.inj hsite
    refine ⟨by decide +kernel, fun _ _ => Or.inr ⟨?_, ?_⟩⟩
    · exact ⟨{ name := "Other", interfaces := ["I"] }, by decide, rfl⟩
    exact .single (by decide)
  obtain ⟨function, hf, hfound⟩ := hkept 3 List.mem_cons_self
  rw [← Option.some.inj hf] at hfound
  exact ⟨e, he, hfound⟩

/-- The report is closed, the call on a `Derived` enters the inherited method, and the pass removes
    it. -/
theorem inherited_method_removed : ∃ execution past,
    Run inheritingProgram.Starts (inheritingProgram.Step noTypes) execution past ∧
    (inheritingProgram.reachableFunctions noTypes).complete = true ∧ 2 ∈ execution.entered ∧
    inheritingProgram.function 2 = some (methodM "Base") ∧
    (inheritingProgram.eliminateDeadFunctions noTypes).map
    (fun e => (e.module.functions.map (·.name), e.newId 2)) = some (["main", "Other.m"], 0) := by
  have hcallee : inheritingProgram.callee noTypes invokeM "Derived" = some 2 := by decide +kernel
  exact ⟨_, _, run_invokeM hcallee, by decide +kernel, List.mem_cons_self, rfl, by decide +kernel⟩

end zl.mir
