import Mathlib
import Zl.Mir.DeadFunctions.Eliminate
import Zl.Mir.VmBackend.Vtables
import Zl.Transition.Run

open Relation zl.transition

namespace zl.mir

/-- The functions an execution has entered, and the bodies of the closures it has made. -/
structure Execution where
  entered : List FunctionId
  closures : List FunctionId

/-- What an execution does next. The class in `enter` is the runtime class of the receiver. -/
inductive Action where
  | enter (caller : FunctionId) (instruction : Instruction) (receiverClass : String) (callee : FunctionId)
  | makeClosure (caller : FunctionId) (instruction : Instruction)
  | runClosure (body : FunctionId)
  | reflect (caller : FunctionId) (instruction : Instruction) (callee : FunctionId)

/-- The static type of a receiver, as the instruction states it. -/
def statedType (instruction : Instruction) (site : DispatchSite) : String :=
  if instruction.opcode = .InvokeMethod then instruction.target.className else site.className

namespace Module

/-- An entered function runs the instruction. Which of its blocks are reached is left open. -/
def Executes (m : Module) (execution : Execution) (caller : FunctionId)
    (instruction : Instruction) : Prop :=
  caller ∈ execution.entered ∧ ∃ function, m.function caller = some function ∧
    instruction ∈ function.instructions

/-- An execution starts in the entry point. -/
def Starts (m : Module) (execution : Execution) : Prop :=
  execution = ⟨[m.entryPoint], []⟩ ∧ (m.function m.entryPoint).isSome = true

/-- One step. Threads, tasks and callbacks all run a closure that was made before, and so does a
    call through a function value. A reflective native can enter any function. -/
inductive Step (m : Module) (types : TypeRules) : Execution → Action → Execution → Prop
  | enter {execution : Execution} {caller callee : FunctionId} {instruction : Instruction}
      {receiverClass : String}
      (hexecutes : m.Executes execution caller instruction)
      (hcallee : m.callee types instruction receiverClass = some callee) :
      Step m types execution (.enter caller instruction receiverClass callee)
        { execution with entered := callee :: execution.entered }
  | makeClosure {execution : Execution} {caller : FunctionId} {instruction : Instruction}
      (hexecutes : m.Executes execution caller instruction) (hopcode : instruction.opcode = .MakeClosure)
      (hbody : (m.function instruction.target.function).isSome = true) :
      Step m types execution (.makeClosure caller instruction)
        { execution with closures := instruction.target.function :: execution.closures }
  | runClosure {execution : Execution} {body : FunctionId} (hmade : body ∈ execution.closures) :
      Step m types execution (.runClosure body) { execution with entered := body :: execution.entered }
  | reflect {execution : Execution} {caller callee : FunctionId} {instruction : Instruction}
      (hexecutes : m.Executes execution caller instruction) (hopcode : instruction.opcode = .CallNative)
      (hreflective : nativeIsReflective instruction.target.nativeId = true)
      (hcallee : (m.function callee).isSome = true) :
      Step m types execution (.reflect caller instruction callee)
        { execution with entered := callee :: execution.entered }

/-- Declarations lead from the first name to the second. -/
def Supertype (m : Module) : String → String → Prop := ReflTransGen fun a b => b ∈ m.declaredSupertypes a

/-- The class is the static type of a receiver, a supertype of it, or a class below it. -/
def RelatedClass (m : Module) (staticType className : String) : Prop :=
  m.Supertype staticType className ∨
    (∃ layout ∈ m.classes, layout.name = className) ∧ m.Supertype className staticType

/-- A function of the method's name belongs to a class related to the static type. -/
def DeclaredNear (m : Module) (staticType methodName : String) (fn : Function) : Prop :=
  fn.ownerClass ≠ "" ∧ m.RelatedClass staticType fn.ownerClass ∧ nameTokenOf fn = nameToken methodName

/-- The method entered has the name the call site gives, and its class is related to the static
    type the site gives, if there is one and any method of that name is declared near it. -/
def DispatchForeseen (m : Module) (staticType methodName : String) (fn : Function) : Prop :=
  nameTokenOf fn = nameToken methodName ∧
    (staticType ≠ "" → (∃ id near, m.function id = some near ∧
    m.DeclaredNear staticType methodName near) → m.RelatedClass staticType fn.ownerClass)

/-- The function entered is one that the instruction announces: the constructor it names, the
    initializer of the first field it names, an empty constructor of the collection, or a method
    declared near the static type. -/
def CalleeForeseen (m : Module) (types : TypeRules) (instruction : Instruction) (callee : FunctionId)
    (fn : Function) : Prop :=
  match instruction.opcode with
  | .Call => callee = instruction.target.function
  | .InvokeSuper | .InvokeStatic => True
  | .StaticLoad => instruction.target.className ≠ "" ∧ instruction.name ≠ "" ∧
      ((m.statics.find? fun field => field.className = instruction.target.className && field.name =
      instruction.name).map
        (·.initializer)) = some callee
  | .NewCollection => ∀ base, classCollectionBase types instruction.resultType = some base →
      isCollectionConstructor fn base = true
  | _ => ∀ site, dispatchSite types instruction = some site →
      m.DispatchForeseen (statedType instruction site) site.methodName fn

/-- A step enters a foreseen function. What is entered with a receiver is no lambda body. -/
def StepForeseen (m : Module) (types : TypeRules) : Action → Prop
  | .enter _ instruction _ callee => ∃ fn, m.function callee = some fn ∧
      (fn.hasThisParameter = true → fn.isLambda = false) ∧ m.CalleeForeseen types instruction callee fn
  | .makeClosure .. | .runClosure _ | .reflect .. => True

section
variable {m : Module} {types : TypeRules} {id : FunctionId} {fn : Function}
  {staticType className methodName : String}

theorem mem_relatedClasses : className ∈ m.relatedClasses staticType ↔
    m.RelatedClass staticType className := by
  rw [relatedClasses, List.mem_append, mem_closure, mem_supertypesOf, mem_supertypesOf, RelatedClass]
  by_cases heq : className = staticType
  · subst heq
    simp [Supertype, ReflTransGen.refl]
  · simp only [heq, ne_eq, not_false_eq_true, true_and, false_or, Ne.symm heq]
    exact or_comm

theorem mem_keepDispatchEdge (hf : m.function id = some fn) (howner : fn.ownerClass ≠ "")
    (hforeseen : m.DispatchForeseen staticType methodName fn)
    (hclosed : (m.keepDispatchEdge staticType methodName).unresolved = false) :
    id ∈ (m.keepDispatchEdge staticType methodName).targets := by
  obtain ⟨htoken, hrelated⟩ := hforeseen
  unfold keepDispatchEdge at hclosed ⊢
  split at hclosed
  · nomatch hclosed
  next hname =>
    rw [if_neg hname]
    have hnamed : id ∈ m.functionsNamed methodName :=
      mem_functionsWith.mpr ⟨fn, hf, decide_eq_true htoken⟩
    by_cases hstatic : staticType = ""
    · subst hstatic
      simpa using hnamed
    · have hempty : staticType.isEmpty = false := by simpa using hstatic
      simp only [hempty, Bool.false_eq_true, if_false]
      cases hcandidates : (m.dispatchCandidates staticType methodName).isEmpty with
      | true => simpa using hnamed
      | false =>
        obtain ⟨near, hnear⟩ := List.exists_mem_of_ne_nil _ (List.isEmpty_eq_false_iff.mp hcandidates)
        obtain ⟨c, hc, hmethods⟩ := List.mem_flatMap.mp hnear
        obtain ⟨g, hg, -⟩ := mem_functionsWith.mp hmethods
        obtain ⟨hgowner, hgrelated, hgtoken⟩ := (mem_dispatchCandidates hg).mp hnear
        refine (mem_dispatchCandidates hf).mpr
          ⟨howner, mem_relatedClasses.mpr (hrelated hstatic ?_), htoken⟩
        exact ⟨near, g, hg, hgowner, mem_relatedClasses.mp hgrelated, hgtoken⟩

/-- Without two classes of one name the parent the backend goes to is one the class declares. -/
theorem mem_declaredSupertypes_parentOf (hnames : (m.classes.map (·.name)).Nodup)
    (hparent : m.parentOf className ≠ "") (hne : m.parentOf className ≠ className) :
    m.parentOf className ∈ m.declaredSupertypes className := by
  have hlayout : ∀ layout, (m.classes.filter (·.name = className)).getLast? = some layout →
      m.classLayout className = some layout := by
    intro layout hlast
    obtain ⟨hmem, hname⟩ := List.mem_filter.mp (List.mem_of_getLast? hlast)
    cases hfind : m.classLayout className with
    | none => exact absurd hname (List.find?_eq_none.mp hfind layout hmem)
    | some first =>
      have hfound : m.classes.find? (·.name = className) = some first := hfind
      have hfirst : first.name = className := by simpa using List.find?_some hfound
      rw [List.inj_on_of_nodup_map hnames (List.mem_of_find?_eq_some hfind) hmem
        (hfirst.trans (of_decide_eq_true hname).symm)]
  unfold parentOf at hparent hne ⊢
  cases hlast : (m.classes.filter (·.name = className)).getLast? with
  | none =>
    rw [hlast] at hparent
    exact absurd rfl hparent
  | some layout =>
    rw [hlast] at hparent hne
    simp only [Option.map_some, Option.getD_some] at hparent hne ⊢
    simp [declaredSupertypes, hlayout layout hlast, hparent, hne]

theorem supertype_of_mem_parentChain (hnames : (m.classes.map (·.name)).Nodup) {guard : Nat}
    {current : String}
    (h : current ∈ m.parentChain guard className) : current ≠ "" ∧ m.Supertype className current := by
  induction guard generalizing className with
  | zero => cases h
  | succ guard ih =>
    rw [parentChain] at h
    split at h
    · cases h
    next hnamed =>
      have hclass : className ≠ "" := by simpa using hnamed
      rcases List.mem_cons.mp h with rfl | h
      · exact ⟨hclass, .refl⟩
      · by_cases heq : m.parentOf className = className
        · rw [heq] at h
          exact ih h
        · obtain ⟨hcurrent, hpath⟩ := ih h
          by_cases hparent : m.parentOf className = ""
          · rw [hparent] at h
            cases guard with
            | zero => cases h
            | succ guard => cases h
          · exact ⟨hcurrent, .head (mem_declaredSupertypes_parentOf hnames hparent heq) hpath⟩

theorem nameToken_of_methodToken {simpleName : String} (h : methodToken simpleName = methodName.toList) :
    nameToken simpleName = nameToken methodName := by
  rw [nameToken, nameToken, ← h, methodToken, List.takeWhile_takeWhile]
  simp

/-- What a class on the parent chain of the static type declares under the name of a call is
    foreseen. -/
theorem dispatchForeseen_of_declaresMethod (hnames : (m.classes.map (·.name)).Nodup)
    (hname : methodName ≠ "")
    {resolved current : String} (hstated : staticType ≠ "" → staticType = resolved)
    (hcurrent : current ∈ m.parentChain 64 resolved) {argCount : Nat}
    (hdeclares : declaresMethod current methodName argCount fn = true) :
    fn.ownerClass ≠ "" ∧ m.DispatchForeseen staticType methodName fn := by
  obtain ⟨hnamed, hsupertype⟩ := supertype_of_mem_parentChain hnames hcurrent
  simp only [declaresMethod, Bool.and_eq_true, decide_eq_true_eq] at hdeclares
  obtain ⟨⟨⟨⟨rfl, -⟩, -⟩, htoken⟩, -⟩ := hdeclares
  have hsimple : fn.simpleName ≠ "" := by
    intro hempty
    rw [hempty, methodToken] at htoken
    exact hname (String.toList_injective htoken.symm)
  refine ⟨hnamed, ?_, fun hstatic _ => Or.inl (hstated hstatic ▸ hsupertype)⟩
  rw [nameTokenOf, if_neg (by simpa using hsimple)]
  exact nameToken_of_methodToken htoken

end

end Module

section
variable {types : TypeRules} {instruction : Instruction} {site : DispatchSite}

theorem sharedMethodFor_cases {opcode : Opcode} {methodName : String}
    (h : sharedMethodFor opcode = some methodName) :
    (opcode = .SharedGet ∧ methodName = "get") ∨ (opcode = .SharedSet ∧ methodName = "setValue") ∨
      (opcode = .SharedWithLock ∧ methodName = "withLock") := by
  unfold sharedMethodFor at h
  split at h
  · exact .inl ⟨rfl, (Option.some.inj h).symm⟩
  · exact .inr (.inl ⟨rfl, (Option.some.inj h).symm⟩)
  · exact .inr (.inr ⟨rfl, (Option.some.inj h).symm⟩)
  · nomatch h

/-- The instructions that are compiled to a dispatch, and what they dispatch. -/
theorem dispatchSite_cases (h : dispatchSite types instruction = some site) :
    (instruction.opcode = .InvokeMethod ∧ site.methodName = instruction.target.methodName ∧
      (instruction.target.className ≠ "" → instruction.target.className = site.className)) ∨
    (instruction.opcode = .IndexStore ∧
      (instruction.operands.head?.bind fun collection => classCollectionBase types collection.type) =
        some site.className ∧ site.methodName = collectionAppendMethod site.className) ∨
    (sharedMethodFor instruction.opcode = some site.methodName ∧ site.className = "Shared") := by
  unfold dispatchSite at h
  split at h
  · next hopcode =>
    refine .inl ⟨hopcode, ?_⟩
    split at h
    · nomatch h
    · split at h
      · next hempty =>
        obtain ⟨receiver, -, rfl⟩ := Option.map_eq_some_iff.mp h
        exact ⟨rfl, fun hne => absurd (by simpa using hempty) hne⟩
      · obtain rfl := Option.some.inj h
        exact ⟨rfl, fun _ => rfl⟩
  · next hopcode =>
    obtain ⟨base, hbase, rfl⟩ := Option.map_eq_some_iff.mp h
    exact .inr (.inl ⟨hopcode, hbase, rfl⟩)
  · obtain ⟨methodName, hname, rfl⟩ := Option.map_eq_some_iff.mp h
    exact .inr (.inr ⟨hname, rfl⟩)

theorem statedType_eq (h : dispatchSite types instruction = some site)
    (hstated : statedType instruction site ≠ "") :
    statedType instruction site = site.className := by
  unfold statedType at hstated ⊢
  split
  next hopcode =>
    rw [if_pos hopcode] at hstated
    rcases dispatchSite_cases h with ⟨-, -, hclass⟩ | ⟨hstore, -⟩ | ⟨hshared, -⟩
    · exact hclass hstated
    · nomatch hopcode.symm.trans hstore
    · rw [hopcode] at hshared
      nomatch hshared
  · rfl

end

namespace Module

section
variable {m : Module} {types : TypeRules} {id callee : FunctionId} {function fn : Function}
  {instruction : Instruction} {site : DispatchSite} {receiverClass : String}

/-- The report follows a dispatch by the class the instruction states. -/
theorem opcodeEdges_dispatch (m : Module) (function : Function)
    (h : dispatchSite types instruction = some site) :
    (∀ id ∈ (m.keepDispatchEdge (statedType instruction site) site.methodName).targets,
      id ∈ (m.opcodeEdges types function instruction).targets) ∧
    ((m.opcodeEdges types function instruction).unresolved = false →
      (m.keepDispatchEdge (statedType instruction site) site.methodName).unresolved = false) := by
  rcases dispatchSite_cases h with ⟨hopcode, hname, -⟩ | ⟨hopcode, hbase, hname⟩ | ⟨hshared, hclass⟩
  · simp only [opcodeEdges, hopcode, statedType, if_true, hname]
    exact ⟨fun _ h => h, fun h => h⟩
  · simp only [opcodeEdges, hopcode, statedType, reduceCtorEq, if_false, hname, hbase]
    exact ⟨fun _ h => h, fun h => h⟩
  · rcases sharedMethodFor_cases hshared with ⟨hopcode, hname⟩ | ⟨hopcode, hname⟩ | ⟨hopcode, hname⟩
    · simp only [opcodeEdges, hopcode, statedType, reduceCtorEq, if_false, hname, hclass]
      exact ⟨fun _ h => h, fun h => h⟩
    · simp only [opcodeEdges, hopcode, statedType, reduceCtorEq, if_false, hname, hclass]
      exact ⟨fun _ h => h, fun h => h⟩
    · simp only [opcodeEdges, hopcode, statedType, reduceCtorEq, if_false, hname, hclass]
      exact ⟨fun _ h => List.mem_append_left _ h, fun h => (Bool.or_eq_false_iff.mp h).1⟩

/-- What a dispatch site enters, and the meaning of a foreseen callee there. -/
theorem callee_dispatch (m : Module) (receiverClass : String) (callee : FunctionId) (fn : Function)
    (h : dispatchSite types instruction = some site) :
    m.callee types instruction receiverClass =
        (m.resolveMethodSlot types site).bind (m.vtableEntry types receiverClass) ∧
      (m.CalleeForeseen types instruction callee fn →
        m.DispatchForeseen (statedType instruction site) site.methodName fn) := by
  have hopcode : instruction.opcode = .InvokeMethod ∨ instruction.opcode = .IndexStore ∨
      instruction.opcode = .SharedGet ∨ instruction.opcode = .SharedSet ∨
      instruction.opcode = .SharedWithLock := by
    rcases dispatchSite_cases h with ⟨hopcode, -⟩ | ⟨hopcode, -⟩ | ⟨hshared, -⟩
    · exact .inl hopcode
    · exact .inr (.inl hopcode)
    · rcases sharedMethodFor_cases hshared with ⟨hopcode, -⟩ | ⟨hopcode, -⟩ | ⟨hopcode, -⟩ <;>
        simp [hopcode]
  rcases hopcode with hopcode | hopcode | hopcode | hopcode | hopcode <;>
  · simp only [Module.callee, CalleeForeseen, hopcode, h, Option.bind_some]
    exact ⟨trivial, fun hforeseen => hforeseen site rfl⟩

/-- The ways an instruction enters a function. -/
inductive Enters (m : Module) (types : TypeRules) (instruction : Instruction) (receiverClass : String)
    (callee : FunctionId) : Prop
  | named (hopcode : instruction.opcode = .Call ∨ instruction.opcode = .InvokeSuper ∨
      instruction.opcode = .InvokeStatic)
      (htarget : instruction.target.function = callee)
  | constructed {fn : Function} (hopcode : instruction.opcode = .Call)
      (hf : m.function instruction.target.function = some fn)
      (hentry : m.vtableEntry types receiverClass (dispatchKeyFor types fn) = some callee)
  | initializer (hopcode : instruction.opcode = .StaticLoad)
      (hfield : m.staticFieldInitializer instruction.target.className instruction.name = some callee)
  | collection {base : String} (hopcode : instruction.opcode = .NewCollection)
      (hbase : classCollectionBase types instruction.resultType = some base)
  | dispatched {site : DispatchSite} {key : String} (hsite : dispatchSite types instruction = some site)
      (hkey : m.resolveMethodSlot types site = some key)
        (hentry : m.vtableEntry types receiverClass key = some callee)

theorem enters_of_callee (h : m.callee types instruction receiverClass = some callee) :
    m.Enters types instruction receiverClass callee := by
  unfold Module.callee at h
  split at h
  · next hopcode =>
    obtain ⟨fn, hf, h⟩ := Option.bind_eq_some_iff.mp h
    split at h
    · obtain ⟨key, hkey, hentry⟩ := Option.bind_eq_some_iff.mp h
      unfold requireSlot at hkey
      split at hkey
      · nomatch hkey
      · rw [← Option.some.inj hkey] at hentry
        exact .constructed hopcode hf hentry
    · exact .named (.inl hopcode) (Option.some.inj h)
  · next hopcode =>
    obtain ⟨fn, hf, rfl⟩ := Option.map_eq_some_iff.mp h
    exact .named (.inr (.inl hopcode)) rfl
  · next hopcode =>
    obtain ⟨fn, hf, rfl⟩ := Option.map_eq_some_iff.mp h
    exact .named (.inr (.inr hopcode)) rfl
  · next hopcode => exact .initializer hopcode h
  · next hopcode =>
    obtain ⟨base, hbase, -⟩ := Option.bind_eq_some_iff.mp h
    exact .collection hopcode hbase
  · obtain ⟨site, hsite, h⟩ := Option.bind_eq_some_iff.mp h
    obtain ⟨key, hkey, hentry⟩ := Option.bind_eq_some_iff.mp h
    exact .dispatched hsite hkey hentry

theorem ownerClass_of_vtableEntry {className key : String}
    (h : m.vtableEntry types className key = some callee)
    (hf : m.function callee = some fn) : declaresKey types key fn.ownerClass fn = true ∧
      fn.ownerClass ≠ "" := by
  obtain ⟨current, -, hlast⟩ := List.exists_of_findSome?_eq_some h
  obtain ⟨g, hg, hdeclares⟩ := mem_functionsWith.mp (List.mem_of_getLast? hlast)
  obtain rfl := Option.some.inj (hf.symm.trans hg)
  have howner : fn.ownerClass ≠ "" ∧ fn.ownerClass = current := by
    simp only [declaresKey, Bool.and_eq_true, Bool.not_eq_true', decide_eq_true_eq,
      String.isEmpty_eq_false_iff] at hdeclares
    exact hdeclares.1.1
  rw [howner.2]
  exact ⟨hdeclares, howner.2 ▸ howner.1⟩

/-- A foreseen callee is among the edges of the instruction, unless that opens the report. -/
theorem mem_opcodeEdges (hcallee : m.callee types instruction receiverClass = some callee)
    (hf : m.function callee = some fn) (hforeseen : m.CalleeForeseen types instruction callee fn)
    (hclosed : (m.opcodeEdges types function instruction).unresolved = false) :
    callee ∈ (m.opcodeEdges types function instruction).targets := by
  cases enters_of_callee hcallee with
  | named hopcode htarget =>
    rcases hopcode with hopcode | hopcode | hopcode <;>
    · simp only [opcodeEdges, hopcode, htarget]
      exact List.mem_cons_self
  | constructed hopcode _ _ =>
    simp only [CalleeForeseen, hopcode] at hforeseen
    simp only [opcodeEdges, hopcode, hforeseen]
    exact List.mem_cons_self
  | initializer hopcode _ =>
    simp only [CalleeForeseen, hopcode] at hforeseen
    obtain ⟨hclass, hname, hfield⟩ := hforeseen
    simp [opcodeEdges, hopcode, staticInitializerOf, hclass, hname, hfield]
  | collection hopcode hbase =>
    simp only [CalleeForeseen, hopcode] at hforeseen
    simp only [opcodeEdges, hopcode, hbase]
    exact mem_functionsWith.mpr ⟨fn, hf, hforeseen _ hbase⟩
  | @dispatched site _ hsite _ hentry =>
    obtain ⟨hsub, hopen⟩ := m.opcodeEdges_dispatch function hsite
    refine hsub _ (mem_keepDispatchEdge hf (ownerClass_of_vtableEntry hentry hf).2 ?_ (hopen hclosed))
    exact (m.callee_dispatch receiverClass callee fn hsite).2 hforeseen

/-- Everything entered, and every closure made, is in the report. -/
def Reported (m : Module) (types : TypeRules) (execution : Execution) : Prop :=
  (∀ id ∈ execution.entered, id ∈ (m.reachableFunctions types).functions) ∧
    ∀ id ∈ execution.closures, id ∈ (m.reachableFunctions types).functions

theorem starts_reported {execution : Execution} (hcomplete : (m.reachableFunctions types).complete = true)
    (hstarts : m.Starts execution) : m.Reported types execution := by
  rw [hstarts.1]
  refine ⟨fun id hid => ?_, nofun⟩
  rw [List.mem_singleton.mp hid]
  exact entryPoint_mem_reachableFunctions hcomplete

/-- A foreseen step of an execution within a closed report stays within it. -/
theorem step_reported {execution execution' : Execution} {action : Action}
    (hcomplete : (m.reachableFunctions types).complete = true) (hreported : m.Reported types execution)
    (hforeseen : m.StepForeseen types action) (hstep : m.Step types execution action execution') :
    m.Reported types execution' := by
  obtain ⟨hentered, hclosures⟩ := hreported
  cases hstep with
  | @enter caller callee instruction receiverClass hexecutes hcallee =>
    obtain ⟨hcaller, function, hfunction, hinstruction⟩ := hexecutes
    obtain ⟨fn, hf, -, hforeseen⟩ := hforeseen
    have hopen := (edges_of_complete hcomplete (hentered _ hcaller) hfunction hinstruction).1
    refine ⟨List.forall_mem_cons.mpr ⟨?_, hentered⟩, hclosures⟩
    exact mem_reachableFunctions_of_edge hcomplete (hentered _ hcaller) hfunction hinstruction hf
      (mem_opcodeEdges hcallee hf hforeseen hopen)
  | @makeClosure caller instruction hexecutes hopcode hbody =>
    obtain ⟨hcaller, function, hfunction, hinstruction⟩ := hexecutes
    obtain ⟨fn, hf⟩ := Option.isSome_iff_exists.mp hbody
    refine ⟨hentered, List.forall_mem_cons.mpr ⟨?_, hclosures⟩⟩
    refine mem_reachableFunctions_of_edge hcomplete (hentered _ hcaller) hfunction hinstruction hf ?_
    simp only [opcodeEdges, hopcode]
    exact List.mem_cons_self
  | runClosure hmade => exact ⟨List.forall_mem_cons.mpr ⟨hclosures _ hmade, hentered⟩, hclosures⟩
  | @reflect caller callee instruction hexecutes hopcode hreflective hcallee =>
    obtain ⟨hcaller, function, hfunction, hinstruction⟩ := hexecutes
    have hdynamic := (edges_of_complete hcomplete (hentered _ hcaller) hfunction hinstruction).2
    simp only [opcodeEdges, hopcode, hreflective] at hdynamic
    nomatch hdynamic

/-- Within a closed report, an execution whose steps are all foreseen enters reported functions. -/
theorem run_reported {execution : Execution} {past : List (Execution × Action)}
    (hcomplete : (m.reachableFunctions types).complete = true)
    (hrun : Run m.Starts (m.Step types) execution past) (hforeseen : ∀ p ∈ past, m.StepForeseen types p.2) :
    m.Reported types execution :=
  hrun.invariant (m.Reported types) (fun _ action => m.StepForeseen types action)
    (fun _ => starts_reported hcomplete) (fun _ _ _ => step_reported hcomplete) hforeseen

end

end Module

end zl.mir
