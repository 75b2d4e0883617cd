import Zl.Mir.DeadFunctions.ReachableFunctions
import Zl.Graph.ParentChain

open zl.graph

namespace zl.mir

def primitiveTypeName : TypeKind → Option String
  | .Void => some "void" | .Nil => some "nil" | .Bool => some "bool" | .Int => some "int"
  | .Double => some "double" | .String => some "string" | _ => none

/-- The spelling of a type that the runtime checks and dispatch keys use. -/
def runtimeTypeName (types : TypeRules) (id : TypeId) : String :=
  match types.find id with
  | none => "unknown"
  | some type =>
    match primitiveTypeName type.kind with
    | some name => name
    | none => if type.kind = .Object ∧ !type.name.isEmpty then type.name else types.render id

def parameterList (types : TypeRules) (parameters : List TypeId) : String :=
  "(" ++ ",".intercalate (parameters.map (runtimeTypeName types)) ++ ")"

/-- The dispatch key of a method or a constructor, which an override shares with its base. -/
def dispatchKeyFor (types : TypeRules) (fn : Function) : String :=
  (if fn.isConstructor && !fn.ownerClass.isEmpty then fn.ownerClass else fn.simpleName) ++
    parameterList types ((fn.parameters.drop (if fn.hasThisParameter then 1 else 0)).map (·.type))

def methodToken (simpleName : String) : List Char := simpleName.toList.takeWhile (· ≠ '(')

/-- The function claims a slot for its dispatch key. -/
def registersKey (types : TypeRules) (key : String) (fn : Function) : Bool :=
  !fn.isLambda && !fn.ownerClass.isEmpty && fn.hasThisParameter && dispatchKeyFor types fn = key

/-- The class declares the function under this dispatch key. -/
def declaresKey (types : TypeRules) (key className : String) (fn : Function) : Bool :=
  !fn.ownerClass.isEmpty && fn.ownerClass = className && fn.hasThisParameter &&
    dispatchKeyFor types fn = key

/-- The class declares the function as a method of this name with so many explicit parameters. -/
def declaresMethod (className methodName : String) (argCount : Nat) (fn : Function) : Bool :=
  fn.ownerClass = className && fn.hasThisParameter && !fn.isConstructor &&
    methodToken fn.simpleName = methodName.toList && fn.parameters.length = argCount + 1

/-- A dispatch the backend emits: the class and the method it resolves, and the operands, the
    receiver first. -/
structure DispatchSite where
  className : String
  methodName : String
  args : List Operand

/-- The dispatch an instruction is compiled to. The operations on tasks are no dispatch. -/
def dispatchSite (types : TypeRules) (instruction : Instruction) : Option DispatchSite :=
  let operands := instruction.operands
  match instruction.opcode with
  | .InvokeMethod =>
    if instruction.target.className = "Task" then none
    else if instruction.target.className.isEmpty then
      operands.head?.map fun receiver =>
        ⟨runtimeTypeName types receiver.type, instruction.target.methodName, operands⟩
    else some ⟨instruction.target.className, instruction.target.methodName, operands⟩
  | .IndexStore =>
    (operands.head?.bind fun collection => classCollectionBase types collection.type).map fun base =>
      ⟨base, collectionAppendMethod base,
        operands.take 1 ++ if base = "Map" then (operands.drop 1).take 2 else (operands.drop 2).take 1⟩
  | opcode => (sharedMethodFor opcode).map fun methodName => ⟨"Shared", methodName, operands⟩

namespace Module

/-- The parent of a class, from the last layout of that name. -/
def parentOf (m : Module) (className : String) : String :=
  ((m.classes.filter (·.name = className)).getLast?.map (·.parent)).getD ""

/-- A class and its ancestors, at most `guard` of them. -/
def parentChain (m : Module) : Nat → String → List String
  | 0, _ => []
  | guard + 1, className => if className.isEmpty then [] else className :: m.parentChain guard
      (m.parentOf className)

/-- The dispatch key, when some function has a slot for it. -/
def requireSlot (m : Module) (types : TypeRules) (key : String) : Option String :=
  if (m.functionsWith (registersKey types key)).isEmpty then none else some key

/-- The function a class runs for a dispatch key: the last one the nearest class on its parent
    chain declares. -/
def vtableEntry (m : Module) (types : TypeRules) (className key : String) : Option FunctionId :=
  (m.parentChain 64 className).findSome? fun current =>
    (m.functionsWith (declaresKey types key current)).getLast?

/-- The parameters of a function have the types of the arguments. -/
def takesArguments (m : Module) (args : List Operand) (id : FunctionId) : Bool :=
  (m.function id).any fun fn => (fn.parameters.drop 1).map (·.type) = args.tail.map (·.type)

/-- The method a class declares for a call: the one of its name and arity, or among several the
    first whose parameters have the types of the arguments. -/
def findDeclaredMethod (m : Module) (className methodName : String) (args : List Operand) :
    Option FunctionId :=
  match m.functionsWith (declaresMethod className methodName args.tail.length) with
  | [only] => some only
  | overloads => overloads.find? (m.takesArguments args)

/-- The dispatch key an interface declares for a method, or the first of its bases does. -/
def interfaceKey (m : Module) (types : TypeRules) (methodName : String) (argCount : Nat) : Nat →
    String → Option String
  | 0, _ => none
  | guard + 1, name =>
    if name.isEmpty then none else
      match m.interfaceInfo name with
      | none => none
      | some info =>
        let inherited := info.bases.head?.bind (m.interfaceKey types methodName argCount guard)
        match info.methods.find? (·.name = methodName) with
        | none => inherited
        | some method =>
          if method.parameterTypes.length = argCount then
            some (methodName ++ parameterList types method.parameterTypes ++
              parameterList types method.parameterTypes)
          else inherited

/-- The dispatch key of a site: of the method that the class or its nearest ancestor declares, else
    of the interface method. -/
def resolveMethodSlot (m : Module) (types : TypeRules) (site : DispatchSite) : Option String :=
  match (m.parentChain 64 site.className).findSome? fun current =>
      m.findDeclaredMethod current site.methodName site.args with
  | some declared => (m.function declared).bind fun fn => m.requireSlot types (dispatchKeyFor types fn)
  | none =>
    (m.interfaceKey types site.methodName site.args.tail.length 64 site.className).bind
      (m.requireSlot types)

/-- The initializer that the runtime has for a static field: of the last field of that full name
    which has one. -/
def staticFieldInitializer (m : Module) (className fieldName : String) : Option FunctionId :=
  ((m.statics.filter fun field => (m.function field.initializer).isSome &&
    field.className ++ "." ++ field.name = className ++ "." ++ fieldName).getLast?).map (·.initializer)

/-- The function that an instruction enters when it is run on a receiver of the given class. A
    constructor is called through the method table of its receiver, a literal of a collection
    class runs the empty constructor on a new collection. -/
def callee (m : Module) (types : TypeRules) (instruction : Instruction) (receiverClass : String) :
    Option FunctionId :=
  match instruction.opcode with
  | .Call => (m.function instruction.target.function).bind fun fn =>
    if fn.isConstructor && fn.hasThisParameter then
      (m.requireSlot types (dispatchKeyFor types fn)).bind (m.vtableEntry types receiverClass)
    else some instruction.target.function
  | .InvokeSuper | .InvokeStatic => (m.function instruction.target.function).map fun _ =>
      instruction.target.function
  | .StaticLoad => m.staticFieldInitializer instruction.target.className instruction.name
  | .NewCollection => (classCollectionBase types instruction.resultType).bind fun base =>
    ((m.functionsWith (isCollectionConstructor · base)).head?.bind m.function).bind fun fn =>
      (m.requireSlot types (dispatchKeyFor types fn)).bind (m.vtableEntry types base)
  | _ => (dispatchSite types instruction).bind fun site =>
    (m.resolveMethodSlot types site).bind (m.vtableEntry types receiverClass)

end Module

/-- The names so far, and a name that is not among them behind them. -/
def appendNew (names : List String) (name : String) : List String :=
  if name ∈ names then names else names ++ [name]

namespace Module

/-- The dispatch keys by slot: one slot for each distinct key of the instance methods and
    constructors, in module order. -/
def slotKeyByIndex (m : Module) (types : TypeRules) : List String :=
  m.functions.foldl (fun keys fn =>
    if fn.isLambda || fn.ownerClass.isEmpty || !fn.hasThisParameter then keys
    else appendNew keys (dispatchKeyFor types fn)) []

/-- The function a class declares for a dispatch key. A later one replaces an earlier one. -/
def declByClass (m : Module) (types : TypeRules) (className key : String) : Option FunctionId :=
  (m.functionsWith (declaresKey types key className)).getLast?

/-- The classes that get a row: those with a layout, then the other owners of functions. -/
def classNames (m : Module) : List String :=
  m.functions.foldl (fun names fn =>
    if fn.ownerClass.isEmpty then names else appendNew names fn.ownerClass)
    (m.classes.foldl (fun names cls => appendNew names cls.name) [])

/-- The row after the declarations of one more class, which replace the inherited ones. -/
def mergeRow (m : Module) (types : TypeRules) (row : List (Option FunctionId)) (current : String) :
    List (Option FunctionId) :=
  List.zipWith (fun key inherited => (m.declByClass types current key).or inherited)
    (m.slotKeyByIndex types) row

/-- The row of a class, base classes first. A slot without a function has no index. -/
def vtableRow (m : Module) (types : TypeRules) (name : String) : List (Option FunctionId) :=
  (m.parentChain 64 name).reverse.foldl (m.mergeRow types)
    (List.replicate (m.slotKeyByIndex types).length none)

def vtables (m : Module) (types : TypeRules) : List (String × List (Option FunctionId)) :=
  m.classNames.map fun name => (name, m.vtableRow types name)

/-- What the table of a class holds at the slot of a dispatch key. -/
def vtableSlot (m : Module) (types : TypeRules) (className key : String) : Option (Option FunctionId) :=
  ((m.vtables types).lookup className).bind fun row =>
    ((m.slotKeyByIndex types).idxOf? key).bind fun slot => row[slot]?

/-- The parent class that a layout gives a class. -/
def parentClass (m : Module) (className : String) : Option String :=
  if className.isEmpty || (m.parentOf className).isEmpty then none else some (m.parentOf className)

end Module

section
variable {m : Module} {types : TypeRules} {className key : String}
  {row : List (Option FunctionId)} {slot : Nat}

theorem getElem?_mergeRow {inherited : Option FunctionId}
    (hkey : (m.slotKeyByIndex types)[slot]? = some key)
    (hrow : row[slot]? = some inherited) (current : String) :
    (m.mergeRow types row current)[slot]? = some ((m.declByClass types current key).or inherited) := by
  rw [Module.mergeRow, List.getElem?_zipWith, hkey, hrow]

theorem getElem?_foldl_mergeRow (hkey : (m.slotKeyByIndex types)[slot]? = some key) (bases : List String) :
    (bases.reverse.foldl (m.mergeRow types) (List.replicate (m.slotKeyByIndex types).length none))[slot]? =
      some (bases.findSome? (m.declByClass types · key)) := by
  induction bases with
  | nil =>
    have hlt := (List.getElem?_eq_some_iff.mp hkey).1
    exact List.getElem?_replicate_of_lt hlt
  | cons current bases ih =>
    rw [List.reverse_cons, List.foldl_append, List.foldl_cons, List.foldl_nil, getElem?_mergeRow hkey ih,
      List.findSome?_cons]
    cases m.declByClass types current key with
    | none => rfl
    | some id => rfl

/-- Each row holds at each slot what the nearest class on the walked chain declares. -/
theorem getElem?_vtableRow (hkey : (m.slotKeyByIndex types)[slot]? = some key) (name : String) :
    (m.vtableRow types name)[slot]? = some (m.vtableEntry types name key) :=
  getElem?_foldl_mergeRow hkey (m.parentChain 64 name)

theorem lookup_map_self {B : Type} (f : String → B) {names : List String} (h : className ∈ names) :
    (names.map fun name => (name, f name)).lookup className = some (f className) := by
  induction names with
  | nil => nomatch h
  | cons name names ih =>
    rw [List.map_cons, List.lookup_cons]
    by_cases heq : className = name
    · rw [heq, beq_self_eq_true]
    · rw [beq_false_of_ne heq]
      exact ih ((List.mem_cons.mp h).resolve_left heq)

theorem vtableSlot_eq (hclass : className ∈ m.classNames) (hkey : key ∈ m.slotKeyByIndex types) :
    m.vtableSlot types className key = some (m.vtableEntry types className key) := by
  obtain ⟨slot, hslot⟩ := Option.isSome_iff_exists.mp (List.isSome_idxOf?.mpr hkey)
  rw [Module.vtableSlot, Module.vtables, lookup_map_self _ hclass, hslot]
  refine getElem?_vtableRow ?_ className
  obtain ⟨hlt, hget, -⟩ := List.idxOf?_eq_some_iff.mp hslot
  rw [List.getElem?_eq_getElem hlt, hget]

theorem declByClass_empty : m.declByClass types "" key = none := by
  rw [Module.declByClass, List.getLast?_eq_none_iff, List.eq_nil_iff_forall_not_mem]
  intro id hid
  obtain ⟨fn, -, hdeclares⟩ := Module.mem_functionsWith.mp hid
  simp [declaresKey] at hdeclares

theorem parentChain_eq_chain (hne : className ≠ "") (guard : Nat) :
    m.parentChain guard className = chain m.parentClass guard className := by
  induction guard generalizing className with
  | zero => rfl
  | succ guard ih =>
    rw [Module.parentChain, chain, Module.parentClass]
    have hempty : className.isEmpty = false := by simpa using hne
    rw [if_neg (by rw [hempty]; exact Bool.false_ne_true)]
    by_cases hparent : m.parentOf className = ""
    · rw [hparent]
      cases guard <;> simp [Module.parentChain]
    · rw [ih hparent]
      simp [hempty, hparent]

theorem parentClass_eq_some {parent : String} (h : m.parentClass className = some parent) :
    className ∈ m.classes.map (·.name) := by
  unfold Module.parentClass at h
  split at h
  · cases h
  · next hnot =>
    by_contra hmem
    have hnil : m.classes.filter (·.name = className) = [] :=
      List.filter_eq_nil_iff.mpr fun cls hcls hname =>
        hmem (List.mem_map.mpr ⟨cls, hcls, of_decide_eq_true hname⟩)
    simp [Module.parentOf, hnil] at hnot

/-- The table holds what the nearest declaring class declares, unless only classes behind the end
    of the walk declare the key. -/
theorem nearest_vtableEntry_iff (hacyclic : Acyclic m.parentClass) :
    Nearest m.parentClass (m.declByClass types · key) className (m.vtableEntry types className key) ↔
      ((∃ n base, ancestor m.parentClass n className = some base ∧
        (m.declByClass types base key).isSome) → ∃ n base, n < 64 ∧
        ancestor m.parentClass n className = some base ∧ (m.declByClass types base key).isSome) := by
  have hnodes (a b : String) (h : m.parentClass a = some b) := parentClass_eq_some h
  by_cases hne : className = ""
  · subst hne
    have hroot : m.parentClass "" = none := rfl
    refine iff_of_true (.absent declByClass_empty hroot) ?_
    rintro ⟨n, base, hn, hbase⟩
    cases n with
    | zero => exact ⟨0, base, by decide, hn, hbase⟩
    | succ n =>
      rw [ancestor, hroot] at hn
      cases hn
  · rw [Module.vtableEntry, parentChain_eq_chain hne]
    exact nearest_findSome?_iff hacyclic hnodes

end

end zl.mir
