import Zl.Graph.Search
import Zl.Mir.Function

open Relation zl.graph

namespace zl.mir

/-- The bare method token of a name: without its parameter list and its class. -/
def nameToken (text : String) : List Char :=
  ((text.toList.takeWhile (· ≠ '(')).reverse.takeWhile (· ≠ '.')).reverse

/-- The token dispatch knows a function by. -/
def nameTokenOf (function : Function) : List Char :=
  nameToken (if function.simpleName.isEmpty then function.name else function.simpleName)

namespace Function

/-- The instruction that defines a temp: the last one in block order. -/
def definition (f : Function) (temp : TempId) : Option Instruction :=
  if temp = kNoTemp then none else f.instructions.reverse.find? (·.result = temp)

def storesTo (f : Function) (slot : SlotId) : List Instruction :=
  f.instructions.filter fun instruction => instruction.opcode = .Store ∧ instruction.slot = slot

/-- The closure body a value is pinned to by its one definition, possibly through slots that are
    stored to exactly once. Every slot followed is one that some load reads, so the number of
    instructions is fuel enough. -/
def proveTemp (f : Function) : Nat → List SlotId → Operand → Option FunctionId
  | 0, _, _ => none
  | fuel + 1, visitedSlots, operand =>
    if operand.kind ≠ .Temp then none else
    match f.definition operand.index with
    | none => none
    | some instruction =>
      match instruction.opcode with
      | .MakeClosure => if instruction.target.function = 0 then none else some instruction.target.function
      | .Load =>
        if instruction.slot ∈ visitedSlots then none else
        match f.storesTo instruction.slot with
        | [store] => store.operands.head?.bind (f.proveTemp fuel (instruction.slot :: visitedSlots))
        | _ => none
      | _ => none

def provenClosureBody (f : Function) (operand : Operand) : Option FunctionId :=
  f.proveTemp (f.instructions.length + 1) [] operand

end Function

/-- The method the backend dispatches a shared-cell access to. -/
def sharedMethodFor : Opcode → Option String
  | .SharedGet => some "get"
  | .SharedSet => some "setValue"
  | .SharedWithLock => some "withLock"
  | _ => none

/-- The collection class of an object type, without its type arguments. -/
def classCollectionBase (types : TypeRules) (id : TypeId) : Option String :=
  match types.find id with
  | none => none
  | some type =>
    if type.kind ≠ .Object then none
    else ["List", "Map", "Set"].find? fun base => base.toList = type.name.toList.takeWhile (· ≠ '<')

/-- The method that grows a collection of this class. -/
def collectionAppendMethod (base : String) : String :=
  if base = "List" then "push" else if base = "Set" then "add" else if base = "Map" then "put" else ""

def isCollectionConstructor (function : Function) (base : String) : Bool :=
  function.isConstructor && function.ownerClass = base && function.parameters.length = 1

/-- The natives from `REFLECTION_NAME` to `REFLECTION_CONSTRUCTOR_INVOKE`. -/
def nativeIsReflective (id : Int) : Bool := 224 ≤ id && id ≤ 256

/-- What one instruction adds to the report: the functions it can enter, and whether it opens the
    call graph. -/
structure CallEdges where
  targets : List FunctionId := []
  unresolved : Bool := false
  dynamicEntry : Bool := false

/-- Which functions a program can enter, and what makes the answer a lower bound. -/
structure ReachabilityReport where
  functions : List FunctionId := []
  hasEntryPoint : Bool := false
  dynamicEntry : Bool := false
  unresolvedCalls : Bool := false

/-- Every possible execution edge has been accounted for. -/
def ReachabilityReport.complete (report : ReachabilityReport) : Bool :=
  report.hasEntryPoint && !report.dynamicEntry && !report.unresolvedCalls

namespace Module

/-- The ids of the functions, in module order. -/
def functionIds (m : Module) : List FunctionId := List.range' 1 m.functions.length

/-- The functions with a property, which no unknown id has. -/
def functionsWith (m : Module) (p : Function → Bool) : List FunctionId :=
  m.functionIds.filter fun id => (m.function id).any p

def classLayout (m : Module) (name : String) : Option ClassLayout := m.classes.find? (·.name = name)

def interfaceInfo (m : Module) (name : String) : Option InterfaceInfo :=
  m.interfaces.find? (·.name = name)

/-- What a class or an interface declares as its parent, its interfaces and its bases. -/
def declaredSupertypes (m : Module) (name : String) : List String :=
  let ofLayout := match m.classLayout name with
    | none => []
    | some layout =>
      [layout.parent].filter (fun parent => !parent.isEmpty && parent ≠ name) ++
        layout.interfaces.filter (· ≠ name)
  let ofInterface := match m.interfaceInfo name with
    | none => []
    | some info => info.bases.filter (· ≠ name)
  ofLayout ++ ofInterface

/-- Every name some class or interface declares as a supertype. -/
def supertypeNames (m : Module) : List String :=
  m.classes.flatMap (fun layout => layout.parent :: layout.interfaces) ++ m.interfaces.flatMap (·.bases)

/-- All supertypes, through parents, interfaces and their bases. A name that stands in the work
    list of the source more than once is followed once. -/
def supertypesOf (m : Module) (name : String) : List String :=
  (stackSearch m.declaredSupertypes (m.supertypeNames.length + 1) ([name], [name])).filter (· ≠ name)

/-- The classes a value of a static type can be of: itself and its subtypes. -/
def closure (m : Module) (name : String) : List String :=
  name :: (m.classes.map (·.name)).filter fun className => name ∈ m.supertypesOf className

/-- The functions that carry the name of a method and belong to a class. -/
def methodsOf (m : Module) (methodName className : String) : List FunctionId :=
  m.functionsWith fun function => !function.ownerClass.isEmpty && function.ownerClass = className &&
    nameTokenOf function = nameToken methodName

/-- The classes dispatch looks at for a static type. -/
def relatedClasses (m : Module) (className : String) : List String :=
  m.closure className ++ m.supertypesOf className

/-- The functions a call on a receiver of a static type is taken to run. -/
def dispatchCandidates (m : Module) (className methodName : String) : List FunctionId :=
  (m.relatedClasses className).flatMap (m.methodsOf methodName)

section
variable {m : Module} {id : FunctionId} {f : Function} {className methodName : String}

theorem function_eq_some : m.function id = some f ↔ id ≠ 0 ∧ m.functions[id - 1]? = some f := by
  unfold function
  split
  · next h => simp [h]
  · next h => simp [h]

theorem mem_functionIds : id ∈ m.functionIds ↔ id ≠ 0 ∧ id ≤ m.functions.length := by
  rw [functionIds, List.mem_range'_1, Nat.add_comm, Nat.lt_succ_iff, Nat.one_le_iff_ne_zero]

theorem mem_functionIds_of_function (h : m.function id = some f) : id ∈ m.functionIds := by
  obtain ⟨hne, hget⟩ := function_eq_some.mp h
  obtain ⟨hlt, -⟩ := List.getElem?_eq_some_iff.mp hget
  exact mem_functionIds.mpr ⟨hne, Nat.le_of_pred_lt hlt⟩

theorem exists_function (h : id ∈ m.functionIds) : ∃ f, m.function id = some f := by
  obtain ⟨hne, hle⟩ := mem_functionIds.mp h
  have hlt : id - 1 < m.functions.length := Nat.sub_one_lt_of_le (Nat.pos_of_ne_zero hne) hle
  exact ⟨m.functions[id - 1], function_eq_some.mpr ⟨hne, List.getElem?_eq_getElem hlt⟩⟩

theorem nodup_functionIds (m : Module) : m.functionIds.Nodup := List.nodup_range'

theorem mem_functionsWith {p : Function → Bool} : id ∈ m.functionsWith p ↔
    ∃ f, m.function id = some f ∧ p f = true := by
  rw [functionsWith, List.mem_filter, Option.any_eq_true]
  exact and_iff_right_of_imp fun ⟨f, hf, _⟩ => mem_functionIds_of_function hf

theorem mem_dispatchCandidates (hf : m.function id = some f) :
    id ∈ m.dispatchCandidates className methodName ↔
      f.ownerClass ≠ "" ∧ f.ownerClass ∈ m.relatedClasses className ∧
      nameTokenOf f = nameToken methodName := by
  rw [dispatchCandidates, List.mem_flatMap]
  constructor
  · rintro ⟨c, hc, hid⟩
    obtain ⟨g, hg, hp⟩ := mem_functionsWith.mp hid
    obtain rfl := Option.some.inj (hf.symm.trans hg)
    simp only [Bool.and_eq_true, Bool.not_eq_true', decide_eq_true_eq, String.isEmpty_eq_false_iff] at hp
    obtain ⟨⟨hne, rfl⟩, htoken⟩ := hp
    exact ⟨hne, hc, htoken⟩
  · rintro ⟨hne, hc, htoken⟩
    refine ⟨_, hc, mem_functionsWith.mpr ⟨f, hf, ?_⟩⟩
    simp [hne, htoken]

end

section
variable {m : Module} {a b : String}

theorem mem_supertypeNames (h : b ∈ m.declaredSupertypes a) : b ∈ m.supertypeNames := by
  unfold declaredSupertypes at h
  rcases List.mem_append.mp h with h | h
  · split at h
    · nomatch h
    · next layout hlayout =>
      refine List.mem_append_left _ (List.mem_flatMap.mpr ⟨layout, List.mem_of_find?_eq_some hlayout, ?_⟩)
      rcases List.mem_append.mp h with h | h
      · rw [List.mem_singleton.mp (List.mem_filter.mp h).1]
        exact List.mem_cons_self
      · exact List.mem_cons_of_mem _ (List.mem_filter.mp h).1
  · split at h
    · nomatch h
    · next info hinfo =>
      refine List.mem_append_right _ (List.mem_flatMap.mpr ⟨info, List.mem_of_find?_eq_some hinfo, ?_⟩)
      exact (List.mem_filter.mp h).1

theorem mem_supertypesOf : b ∈ m.supertypesOf a ↔
    b ≠ a ∧ ReflTransGen (fun c d => d ∈ m.declaredSupertypes c) a b := by
  have hfuel : (a :: m.supertypeNames).length ≤ m.supertypeNames.length + 1 := Nat.le_refl _
  have hbound : ∀ s ∈ [a], ∀ v, ReflTransGen (fun c d => d ∈ m.declaredSupertypes c) s v →
      v ∈ a :: m.supertypeNames := by
    intro s hs v hpath
    rw [List.mem_singleton.mp hs] at hpath
    cases hpath with
    | refl => exact List.mem_cons_self
    | tail _ hlast => exact List.mem_cons_of_mem _ (mem_supertypeNames hlast)
  rw [supertypesOf, List.mem_filter, mem_stackSearch_iff (List.nodup_singleton a) hbound hfuel]
  simp only [List.mem_singleton, exists_eq_left, decide_eq_true_eq]
  exact and_comm

theorem mem_closure : b ∈ m.closure a ↔ b = a ∨ (∃ layout ∈ m.classes, layout.name = b) ∧
    a ∈ m.supertypesOf b := by
  rw [closure, List.mem_cons, List.mem_filter, List.mem_map, decide_eq_true_iff]

end

def functionsNamed (m : Module) (methodName : String) : List FunctionId :=
  m.functionsWith (nameTokenOf · = nameToken methodName)

/-- A dispatch site keeps the candidates of its hierarchy, else every function of the name. -/
def keepDispatchEdge (m : Module) (className methodName : String) : CallEdges :=
  if methodName.isEmpty then { unresolved := true } else
    let candidates := if className.isEmpty then [] else m.dispatchCandidates className methodName
    let kept := if candidates.isEmpty then m.functionsNamed methodName else candidates
    { targets := kept, unresolved := kept.isEmpty }

/-- The function value in an operand is run: its body when it is pinned to one. -/
def executeValue (function : Function) (instruction : Instruction) (operandIndex : Nat) : CallEdges :=
  match instruction.operands[operandIndex]?.bind function.provenClosureBody with
  | some body => { targets := [body] }
  | none => { unresolved := true }

/-- The initializer of the first static field with this class and name. -/
def staticInitializerOf (m : Module) (className fieldName : String) : List FunctionId :=
  if className.isEmpty || fieldName.isEmpty then []
  else ((m.statics.find? fun field => field.className = className && field.name = fieldName).map
    (·.initializer)).toList

def staticInitializer (m : Module) (id : StaticId) : List FunctionId :=
  ((m.staticField id).map (·.initializer)).toList

/-- The edges of an instruction by its opcode. -/
def opcodeEdges (m : Module) (types : TypeRules) (function : Function) (instruction : Instruction) :
    CallEdges :=
  match instruction.opcode with
  | .Call | .InvokeSuper | .InvokeStatic | .MakeClosure => { targets := [instruction.target.function] }
  | .InvokeMethod => m.keepDispatchEdge instruction.target.className instruction.target.methodName
  | .CallIndirect | .TaskSpawn | .ThreadStart => executeValue function instruction 0
  | .MutexWithLock | .RwLockWithRead | .RwLockWithWrite => executeValue function instruction 1
  | .SharedGet => m.keepDispatchEdge "Shared" "get"
  | .SharedSet => m.keepDispatchEdge "Shared" "setValue"
  | .SharedWithLock =>
    let dispatched := m.keepDispatchEdge "Shared" "withLock"
    let executed := executeValue function instruction 1
    ⟨dispatched.targets ++ executed.targets, dispatched.unresolved || executed.unresolved, false⟩
  | .IndexStore =>
    match instruction.operands.head?.bind fun collection => classCollectionBase types collection.type with
    | none => {}
    | some base => m.keepDispatchEdge base (collectionAppendMethod base)
  | .NewCollection =>
    match classCollectionBase types instruction.resultType with
    | none => {}
    | some base =>
      let constructors := m.functionsWith (isCollectionConstructor · base)
      { targets := constructors, unresolved := constructors.isEmpty }
  | .CallNative => { dynamicEntry := nativeIsReflective instruction.target.nativeId }
  | .StaticLoad | .StaticStore =>
    { targets := m.staticInitializerOf instruction.target.className instruction.name }
  | _ => {}

/-- The edges of an instruction, with the initializers of the statics its operands name. -/
def instructionEdges (m : Module) (types : TypeRules) (function : Function)
    (instruction : Instruction) : CallEdges :=
  let edges := m.opcodeEdges types function instruction
  let statics := instruction.operands.filter (·.kind = .Static)
  { edges with targets := edges.targets ++ statics.flatMap fun operand => m.staticInitializer operand.index }

/-- The edges of all instructions of a function, and none of an unknown id. -/
def edgesFrom (m : Module) (types : TypeRules) (id : FunctionId) : List CallEdges :=
  match m.function id with
  | none => []
  | some function => function.instructions.map (m.instructionEdges types function)

/-- The functions a function can enter, less the ids that name no function. -/
def entersFrom (m : Module) (types : TypeRules) (id : FunctionId) : List FunctionId :=
  ((m.edgesFrom types id).flatMap (·.targets)).filter fun callee => (m.function callee).isSome

def reachableFunctions (m : Module) (types : TypeRules) : ReachabilityReport :=
  if (m.function m.entryPoint).isNone then {} else
    let functions := stackSearch (m.entersFrom types) m.functions.length ([m.entryPoint], [m.entryPoint])
    { functions, hasEntryPoint := true
      dynamicEntry := functions.any fun id => (m.edgesFrom types id).any (·.dynamicEntry)
      unresolvedCalls := functions.any fun id => (m.edgesFrom types id).any (·.unresolved) }

section
variable {m : Module} {types : TypeRules} {id callee : FunctionId} {function : Function}

theorem exists_of_mem_entersFrom (h : callee ∈ m.entersFrom types id) : ∃ f, m.function callee = some f :=
  Option.isSome_iff_exists.mp (List.mem_filter.mp h).2

/-- The report holds exactly what the edges lead to from the entry point. -/
theorem mem_reachableFunctions {entry : Function} (hentry : m.function m.entryPoint = some entry) :
    id ∈ (m.reachableFunctions types).functions ↔
      ReflTransGen (fun a b => b ∈ m.entersFrom types a) m.entryPoint id := by
  have hbound : ∀ s ∈ [m.entryPoint], ∀ v, ReflTransGen (fun a b => b ∈ m.entersFrom types a) s v →
      v ∈ m.functionIds := by
    intro s hs v hpath
    rw [List.mem_singleton.mp hs] at hpath
    cases hpath with
    | refl => exact mem_functionIds_of_function hentry
    | tail _ hlast =>
      obtain ⟨f, hf⟩ := exists_of_mem_entersFrom hlast
      exact mem_functionIds_of_function hf
  have hfuel : m.functionIds.length ≤ m.functions.length := by simp [functionIds]
  have hreport : (m.reachableFunctions types).functions =
      stackSearch (m.entersFrom types) m.functions.length ([m.entryPoint], [m.entryPoint]) := by
    simp [reachableFunctions, hentry]
  rw [hreport, mem_stackSearch_iff (List.nodup_singleton _) hbound hfuel]
  simp only [List.mem_singleton, exists_eq_left]

theorem exists_entry (h : (m.reachableFunctions types).complete = true) :
    ∃ entry, m.function m.entryPoint = some entry := by
  cases hentry : m.function m.entryPoint with
  | some entry => exact ⟨entry, rfl⟩
  | none => simp [reachableFunctions, hentry, ReachabilityReport.complete] at h

/-- What a reachable function of a closed report can enter is reachable. -/
theorem mem_reachableFunctions_of_enters (h : (m.reachableFunctions types).complete = true)
    (hid : id ∈ (m.reachableFunctions types).functions) (hcallee : callee ∈ m.entersFrom types id) :
    callee ∈ (m.reachableFunctions types).functions := by
  obtain ⟨entry, hentry⟩ := exists_entry h
  exact (mem_reachableFunctions hentry).mpr (((mem_reachableFunctions hentry).mp hid).tail hcallee)

theorem entryPoint_mem_reachableFunctions (h : (m.reachableFunctions types).complete = true) :
    m.entryPoint ∈ (m.reachableFunctions types).functions := by
  obtain ⟨entry, hentry⟩ := exists_entry h
  exact (mem_reachableFunctions hentry).mpr .refl

/-- An instruction of a reachable function opens no closed report. -/
theorem edges_of_complete (h : (m.reachableFunctions types).complete = true)
    (hid : id ∈ (m.reachableFunctions types).functions) (hf : m.function id = some function)
    {instruction : Instruction} (hinstruction : instruction ∈ function.instructions) :
    (m.opcodeEdges types function instruction).unresolved = false ∧
      (m.opcodeEdges types function instruction).dynamicEntry = false := by
  obtain ⟨entry, hentry⟩ := exists_entry h
  have hreport : (m.reachableFunctions types) =
      { functions := (m.reachableFunctions types).functions, hasEntryPoint := true
        dynamicEntry := (m.reachableFunctions types).functions.any fun id =>
          (m.edgesFrom types id).any (·.dynamicEntry)
        unresolvedCalls := (m.reachableFunctions types).functions.any fun id =>
          (m.edgesFrom types id).any (·.unresolved) } := by
    simp [reachableFunctions, hentry]
  rw [hreport] at h
  have hmem : m.instructionEdges types function instruction ∈ m.edgesFrom types id := by
    simp only [edgesFrom, hf]
    exact List.mem_map_of_mem hinstruction
  simp only [ReachabilityReport.complete, Bool.true_and, Bool.and_eq_true, Bool.not_eq_true',
    List.any_eq_false, Bool.not_eq_true] at h
  have hunresolved := h.2 id hid _ hmem
  have hdynamic := h.1 id hid _ hmem
  exact ⟨hunresolved, hdynamic⟩

theorem mem_reachableFunctions_of_edge (h : (m.reachableFunctions types).complete = true)
    (hid : id ∈ (m.reachableFunctions types).functions) (hf : m.function id = some function)
    {instruction : Instruction} (hinstruction : instruction ∈ function.instructions) {f : Function}
    (hcallee : m.function callee = some f)
    (hedge : callee ∈ (m.opcodeEdges types function instruction).targets) :
    callee ∈ (m.reachableFunctions types).functions := by
  refine mem_reachableFunctions_of_enters h hid (List.mem_filter.mpr ⟨?_, by simp [hcallee]⟩)
  refine List.mem_flatMap.mpr ⟨m.instructionEdges types function instruction, ?_,
    List.mem_append_left _ hedge⟩
  simp only [edgesFrom, hf]
  exact List.mem_map_of_mem hinstruction

end

end Module

end zl.mir
