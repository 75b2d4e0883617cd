import Zl.Common.ReadBack

namespace zl.vm.contract

/-- A value as the type checks see it: what a container or an object refers to is on the heap, a
    closure and a task carry the names of their types, and no check asks for a native view. -/
inductive Value (R O : Type) where
  | nil
  | bool (held : Bool)
  | int (held : Int)
  | double (bits : Nat)
  | string (held : String)
  | container (r : R)
  | object (o : O)
  | closure (parameterTypeNames : List (List Char)) (returnTypeName : List Char) (isAsync : Bool)
  | task (valueTypeName : List Char)
  | thread (id : Nat)
  | nativeHandle (id : Nat)
  | nativeView (id : Nat)
  deriving DecidableEq

structure ClassReflection where
  isEnumType : Bool
  enumMembers : List String

/-- What the checks read of a chunk. Matching an object against the name of a class or an
    interface goes by the object and the class table only. -/
structure Chunk (O : Type) where
  classReflection : String → Option ClassReflection
  reflectiveObjectMatches : O → List Char → Bool

def isDynamicTypeName : TypeName → Bool
  | .named name args _ => (name = "unknown" || name = "object") && args.isEmpty
  | .union _ => false

/-- The list types share one representation. -/
def isContainerName (name : String) : Bool :=
  name = "list" || name = "set" || name = "array" || name = "map"

section
variable {R O : Type} (chunk : Chunk O) (observe : R → List Char → Bool) (value : Value R O)

/-- The parameters of a closure against those of a function type. -/
def parametersMatch : List (List Char) → List TypeName → Bool
  | [], [] => true
  | actual :: actuals, expected :: expecteds =>
    (isDynamicTypeName (parseTypeName actual) || typeNamesEqual (parseTypeName actual) expected) &&
      parametersMatch actuals expecteds
  | _, _ => false

def closureMatches (parameterTypeNames : List (List Char)) (returnTypeName : List Char) (isAsync : Bool)
    (args : List TypeName) : Bool :=
  match args.getLast? with
  | none => true
  | some expectedReturn =>
    let returnType := if returnTypeName.isEmpty then "void".toList else returnTypeName
    let actualReturn :=
      parseTypeName (if isAsync then "Task<".toList ++ returnType ++ ">".toList else returnType)
    parametersMatch parameterTypeNames args.dropLast &&
      (isDynamicTypeName expectedReturn || isDynamicTypeName actualReturn ||
        typeNamesEqual actualReturn expectedReturn)

def taskMatches (valueTypeName : List Char) : List TypeName → Bool
  | [] => true
  | [expected] =>
    valueTypeName.isEmpty || isDynamicTypeName expected ||
      typeNamesEqual (parseTypeName valueTypeName) expected
  | _ => false

/-- Matching against a type that is no union. A container is matched by a check of its own,
    `observe`, which commits no contract. -/
def reflectiveMatchesNamed (name : String) (args : List TypeName) (fixedSize : Option Nat) : Bool :=
  let enumMembers := if args.isEmpty then
    (chunk.classReflection name).filter (·.isEnumType) else none
  match enumMembers with
  | some reflection => match value with
    | .string member => member ∈ reflection.enumMembers
    | _ => false
  | none =>
    if name = "unknown" then true
    else if name = "nil" then value matches .nil
    else if name = "object" then value matches .object _ | .nil
    else if name = "int" then value matches .int _
    else if name = "double" ∨ name = "float" then value matches .double _ | .int _
    else if name = "string" then value matches .string _
    else if name = "bool" then value matches .bool _
    else if name = "void" then value matches .nil
    else if name = "Thread" then value matches .thread _
    else if name = "NativeHandle" then value matches .nativeHandle _
    else if name = "func" then match value with
      | .closure parameterTypeNames returnTypeName isAsync =>
        closureMatches parameterTypeNames returnTypeName isAsync args
      | _ => false
    else if name = "Task" then match value with
      | .task valueTypeName => taskMatches valueTypeName args
      | _ => false
    else if isContainerName name then match value with
      | .container r => observe r (describeTypeName (.named name args fixedSize))
      | _ => false
    else match value with
      | .object o => chunk.reflectiveObjectMatches o (describeTypeName (.named name args fixedSize))
      | _ => false

mutual

def reflectiveMatchesSpec : TypeName → Bool
  | .union members => reflectiveMatchesMember members
  | .named name args fixedSize => reflectiveMatchesNamed chunk observe value name args fixedSize

def reflectiveMatchesMember : List TypeName → Bool
  | [] => false
  | member :: members => reflectiveMatchesSpec member || reflectiveMatchesMember members

end

/-- The types that take nil. -/
def takesNil (base : String) : Bool :=
  base ∈ ["void", "nil", "string", "list", "map", "set", "array", "func", "object", "Task"] ||
    ((chunk.classReflection base).any fun reflection => !reflection.isEnumType)

def runtimeAssignableToNamed (name : String) (args : List TypeName) (fixedSize : Option Nat) : Bool :=
  if name = "object" ∨ name = "unknown" then true
  else if name = "double" ∧ value matches .int _ then true
  else match value with
    | .nil => takesNil chunk name
    | _ => reflectiveMatchesNamed chunk observe value name args fixedSize

mutual

def runtimeAssignableToSpec : TypeName → Bool
  | .union members => runtimeAssignableToMember members
  | .named name args fixedSize => runtimeAssignableToNamed chunk observe value name args fixedSize

def runtimeAssignableToMember : List TypeName → Bool
  | [] => false
  | member :: members => runtimeAssignableToSpec member || runtimeAssignableToMember members

end

def reflectiveTypeMatchesName (typeName : List Char) : Bool :=
  reflectiveMatchesSpec chunk observe value (parseTypeName typeName)

def runtimeAssignableToType (typeName : List Char) : Bool :=
  runtimeAssignableToSpec chunk observe value (parseTypeName typeName)

theorem reflectiveMatchesNamed_observe {name : String} (observe' : R → List Char → Bool)
    (h : isContainerName name = false ∨ ∀ r, value ≠ .container r) (args : List TypeName)
    (fixedSize : Option Nat) :
    reflectiveMatchesNamed chunk observe value name args fixedSize =
      reflectiveMatchesNamed chunk observe' value name args fixedSize := by
  unfold reflectiveMatchesNamed
  rcases h with hname | hvalue
  · rw [hname]
    rfl
  · cases value with
    | container r => exact absurd rfl (hvalue r)
    | _ => rfl

theorem runtimeAssignableToNamed_observe {name : String} (observe' : R → List Char → Bool)
    (h : isContainerName name = false ∨ ∀ r, value ≠ .container r) (args : List TypeName)
    (fixedSize : Option Nat) :
    runtimeAssignableToNamed chunk observe value name args fixedSize =
      runtimeAssignableToNamed chunk observe' value name args fixedSize := by
  unfold runtimeAssignableToNamed
  rw [reflectiveMatchesNamed_observe chunk observe value observe' h]

end

/-- The contract a container is committed to: its argument types and, for an array, its size. -/
structure NativeContainerType where
  arguments : List TypeName
  fixedSize : Option Nat
  deriving DecidableEq

/-- The elements of a list from its front on, or the entries of a map in their order. -/
inductive Contents (R O : Type) where
  | list (items : List (Value R O))
  | map (entries : List (Value R O × Value R O))

structure Container (R O : Type) where
  storageType : Option NativeContainerType
  contents : Contents R O

abbrev Heap (R O : Type) := R → Container R O

/-- The contracts a check proposes, the newest first. -/
abbrev Plan (R : Type) := List (R × NativeContainerType)

inductive Mode where
  | assignment
  | pattern

/-- How matching a value ends. -/
inductive Verdict (R : Type) where
  | outOfFuel
  | mismatch
  | matched (plan : Plan R)
  deriving DecidableEq

def unknownType : TypeName := .named "unknown" [] none

def unconstrained : TypeName → Bool
  | .named name args _ => args.isEmpty && (name = "unknown" || name = "object")
  | .union _ => false

def sameContract (a b : NativeContainerType) : Bool :=
  a.fixedSize = b.fixedSize && typeNamesEqualAll a.arguments b.arguments

section
variable {R O : Type} [DecidableEq R]

def proposed (heap : Heap R O) (plan : Plan R) (r : R) : Option NativeContainerType :=
  match plan.find? fun entry => entry.1 = r with
  | some entry => some entry.2
  | none => (heap r).storageType

def commit (heap : Heap R O) : Plan R → Heap R O
  | [] => heap
  | (r, type) :: plan =>
    Function.update (commit heap plan) r { commit heap plan r with storageType := some type }

end

section
variable {R O : Type}

def isMap : Contents R O → Bool
  | .list _ => false
  | .map _ => true

/-- Every element with the argument type it is checked against. -/
def expectations (arguments : List TypeName) : Contents R O → List (Value R O × TypeName)
  | .list items => items.map fun item => (item, arguments.getD 0 unknownType)
  | .map entries => entries.flatMap fun entry =>
      [(entry.1, arguments.getD 0 unknownType), (entry.2, arguments.getD 1 unknownType)]

/-- Only a list type has a size to check. -/
def logicalSize : Contents R O → Nat
  | .list items => items.length
  | .map entries => entries.length

def arityOf (map : Bool) : Nat := if map then 2 else 1

/-- The arguments of a contract once a type constrains them too. -/
def mergeArguments : List TypeName → List TypeName → Option (List TypeName)
  | wanted, [] => some wanted
  | [], _ :: _ => none
  | wanted :: wanteds, arg :: args =>
    if unconstrained arg then (mergeArguments wanteds args).map (wanted :: ·)
    else if !unconstrained wanted && !typeNamesEqual wanted arg then none
    else (mergeArguments wanteds args).map (arg :: ·)

def mergeSize (wanted : Option Nat) (size : Nat) : Option Nat → Option (Option Nat)
  | none => some wanted
  | some fixedSize =>
    if wanted.isSome && wanted != some fixedSize then none
    else if size ≠ fixedSize then none
    else some (some fixedSize)

/-- The contract of a container once a type constrains it too. -/
def wantedContract (prior : Option NativeContainerType) (contents : Contents R O) (args : List TypeName)
    (fixedSize : Option Nat) : Option NativeContainerType :=
  let wanted := prior.getD ⟨[], none⟩
  let arguments := if wanted.arguments.isEmpty then
    List.replicate (arityOf (isMap contents)) unknownType else wanted.arguments
  (mergeArguments arguments args).bind fun arguments =>
    (mergeSize wanted.fixedSize (logicalSize contents) fixedSize).map fun fixedSize =>
      ⟨arguments, fixedSize⟩

/-- The contract asks for nothing beyond what is in force. -/
def settled (wanted : NativeContainerType) : Option NativeContainerType → Bool
  | some prior => sameContract prior wanted
  | none => wanted.fixedSize.isNone && wanted.arguments.all unconstrained

/-- A value matches a union through the first member it matches; a member that fails leaves
    no proposal behind. -/
def firstMatch (matchesMember : TypeName → Verdict R) : List TypeName → Verdict R
  | [] => .mismatch
  | member :: members =>
    match matchesMember member with
    | .mismatch => firstMatch matchesMember members
    | verdict => verdict

def allItems (matchesItem : Plan R → Value R O → TypeName → Verdict R) :
    Plan R → List (Value R O × TypeName) → Verdict R
  | plan, [] => .matched plan
  | plan, (value, type) :: items =>
    match matchesItem plan value type with
    | .matched plan => allItems matchesItem plan items
    | verdict => verdict

def Verdict.isMatched : Verdict R → Bool
  | .matched _ => true
  | _ => false

end

section
variable {R O : Type} [DecidableEq R] (chunk : Chunk O) (heap : Heap R O)

/-- The contract is proposed before the elements are checked, so that a cycle ends and aliases
    agree. -/
def container (matchesItem : Plan R → Value R O → TypeName → Verdict R) (plan : Plan R) (name : String)
    (args : List TypeName) (fixedSize : Option Nat) : Value R O → Verdict R
  | .container r =>
    let contents := (heap r).contents
    if isMap contents != (name == "map") then .mismatch
    else if !args.isEmpty && args.length ≠ arityOf (isMap contents) then .mismatch
    else match wantedContract (proposed heap plan r) contents args fixedSize with
      | none => .mismatch
      | some wanted =>
        if settled wanted (proposed heap plan r) then .matched plan
        else allItems matchesItem ((r, wanted) :: plan) (expectations wanted.arguments contents)
  | _ => .mismatch

def leafMatches (observe : R → List Char → Bool) (value : Value R O) (type : TypeName) : Mode → Bool
  | .pattern => reflectiveTypeMatchesName chunk observe value (describeTypeName type)
  | .assignment => runtimeAssignableToType chunk observe value (describeTypeName type)

def isNil : Value R O → Bool
  | .nil => true
  | _ => false

/-- The source recurses without a bound; a verdict other than running out of fuel is the one it
    returns. -/
def matchesType : Nat → Plan R → Value R O → TypeName → Mode → Verdict R
  | 0, _, _, _, _ => .outOfFuel
  | fuel + 1, plan, value, .union members, mode =>
    firstMatch (fun member => matchesType fuel plan value member mode) members
  | fuel + 1, plan, value, .named name args fixedSize, mode =>
    if !isNil value && isContainerName name then
      container heap (fun plan value type => matchesType fuel plan value type .assignment)
        plan name args fixedSize value
    else if leafMatches chunk
        (fun r typeName => (matchesType fuel [] (.container r)
          (parseTypeName typeName) .assignment).isMatched)
        value (.named name args fixedSize) mode then .matched plan
    else .mismatch

/-- Whether the value matches, and the plan after the check: without a match that is the plan
    before it. -/
def check (fuel : Nat) (plan : Plan R) (value : Value R O) (typeName : List Char) (mode : Mode) :
    Option (Bool × Plan R) :=
  match matchesType chunk heap fuel plan value (parseTypeName typeName) mode with
  | .matched plan' => some (true, plan')
  | .mismatch => some (false, plan)
  | .outOfFuel => none

/-- A check that does not match ends the whole transaction. -/
def require (fuel : Nat) (plan : Plan R) (value : Value R O) (typeName : List Char) : Verdict R :=
  match check chunk heap fuel plan value typeName .assignment with
  | some (true, plan') => .matched plan'
  | some (false, _) => .mismatch
  | none => .outOfFuel

def listWrite (fuel : Nat) (plan : Plan R) (list : R) (inserted : Option (Value R O))
    (resultingSize : Nat) :
    Verdict R :=
  match proposed heap plan list with
  | none => .matched plan
  | some type =>
    if type.fixedSize.isSome && type.fixedSize != some resultingSize then .mismatch
    else match inserted with
      | some value => require chunk heap fuel plan value
          (describeTypeName (type.arguments.getD 0 unknownType))
      | none => .matched plan

def mapWrite (fuel : Nat) (plan : Plan R) (map : R) (key value : Value R O) : Verdict R :=
  match proposed heap plan map with
  | none => .matched plan
  | some type =>
    match require chunk heap fuel plan key (describeTypeName (type.arguments.getD 0 unknownType)) with
    | .matched plan => require chunk heap fuel plan value
        (describeTypeName (type.arguments.getD 1 unknownType))
    | verdict => verdict

end

/-- Two types whose names, printed and read back often enough, are spelled alike. -/
def SameType (a b : TypeName) : Prop := ∃ m n, reread^[m] a = reread^[n] b

/-- The type constrains nothing, possibly once its name is printed and read back. -/
def Free (t : TypeName) : Prop := ∃ n, unconstrained (reread^[n] t) = true

theorem reread_of_unconstrained {t : TypeName} (h : unconstrained t = true) : reread t = t := by
  cases t with
  | union members => nomatch h
  | named name args fixedSize =>
    rw [unconstrained, Bool.and_eq_true, List.isEmpty_iff] at h
    rw [h.1, reread, rereadAll]

theorem SameType.refl (t : TypeName) : SameType t t := ⟨0, 0, rfl⟩

theorem SameType.reread {a b : TypeName} (h : SameType (zl.reread a) b) : SameType a b := by
  obtain ⟨m, n, heq⟩ := h
  exact ⟨m + 1, n, heq⟩

theorem Free.of_unconstrained {t : TypeName} (h : unconstrained t = true) : Free t := ⟨0, h⟩

theorem Free.reread {t : TypeName} (h : Free (zl.reread t)) : Free t := by
  obtain ⟨n, hn⟩ := h
  exact ⟨n + 1, hn⟩

theorem Free.of_sameType {a b : TypeName} (hsame : SameType a b) (hfree : unconstrained b = true) :
    Free a := by
  obtain ⟨m, n, heq⟩ := hsame
  refine ⟨m, ?_⟩
  rw [heq, Function.iterate_fixed (reread_of_unconstrained hfree)]
  exact hfree

/-- The committed contract of a container, if any, meets what a container type asks for. -/
structure Compatible (contract : Option NativeContainerType) (args : List TypeName)
    (fixedSize : Option Nat) :
    Prop where
  arguments : ∀ (i : Nat) arg, args[i]? = some arg →
    Free arg ∨ ∃ c argument, contract = some c ∧ c.arguments[i]? = some argument ∧ SameType arg argument
  size : ∀ size, fixedSize = some size → ∃ c, contract = some c ∧ c.fixedSize = some size

/-- The value is accepted for the type by its kind alone, whatever containers hold. -/
def Accepted {R O : Type} (chunk : Chunk O) (value : Value R O) (type : TypeName) : Prop :=
  ∃ n, ∀ observe, runtimeAssignableToSpec chunk observe value (reread^[n] type) = true

/-- A value is assignable to a type when the containers are committed as `view` has it: it is
    accepted by its kind, or it is a container whose contract is compatible with the type. -/
inductive Assignable {R O : Type} (chunk : Chunk O) (mapRef : R → Bool)
    (view : R → Option NativeContainerType) : Value R O → TypeName → Prop
  | member {value : Value R O} {members : List TypeName} {m : TypeName} (hm : m ∈ members)
      (h : Assignable chunk mapRef view value m) : Assignable chunk mapRef view value (.union members)
  | container {r : R} {name : String} {args : List TypeName} {fixedSize : Option Nat}
      (hname : isContainerName name = true) (hkind : mapRef r = (name == "map"))
      (harity : args = [] ∨ args.length = arityOf (mapRef r)) (h : Compatible (view r) args fixedSize) :
      Assignable chunk mapRef view (.container r) (.named name args fixedSize)
  | leaf {value : Value R O} {name : String} {args : List TypeName} {fixedSize : Option Nat}
      (h : Accepted chunk value (.named name args fixedSize)) :
      Assignable chunk mapRef view value (.named name args fixedSize)

/-- A later contract asks for all the earlier one asks for. -/
structure Narrows (c c' : NativeContainerType) : Prop where
  arguments : ∀ (i : Nat) t, c.arguments[i]? = some t → unconstrained t = true ∨ c'.arguments[i]? = some t
  size : ∀ size, c.fixedSize = some size → c'.fixedSize = some size

def Narrowed (prior later : Option NativeContainerType) : Prop :=
  ∀ c, prior = some c → ∃ c', later = some c' ∧ Narrows c c'

theorem Narrows.refl (c : NativeContainerType) : Narrows c c := ⟨fun _ _ h => .inr h, fun _ h => h⟩

theorem Narrows.trans {c c' c'' : NativeContainerType} (h : Narrows c c') (h' : Narrows c' c'') :
    Narrows c c'' := by
  refine ⟨fun i t ht => ?_, fun size hsize => h'.size size (h.size size hsize)⟩
  rcases h.arguments i t ht with hfree | ht'
  · exact .inl hfree
  · exact h'.arguments i t ht'

theorem Narrowed.refl (contract : Option NativeContainerType) : Narrowed contract contract :=
  fun c hc => ⟨c, hc, .refl c⟩

theorem Narrowed.trans {a b c : Option NativeContainerType} (h : Narrowed a b) (h' : Narrowed b c) :
    Narrowed a c := by
  intro x hx
  obtain ⟨y, hy, hxy⟩ := h x hx
  obtain ⟨z, hz, hyz⟩ := h' y hy
  exact ⟨z, hz, hxy.trans hyz⟩

theorem Compatible.narrowed {prior later : Option NativeContainerType} {args : List TypeName}
    {fixedSize : Option Nat} (h : Compatible prior args fixedSize) (hnarrowed : Narrowed prior later) :
    Compatible later args fixedSize := by
  constructor
  · intro i arg harg
    rcases h.arguments i arg harg with hfree | ⟨c, argument, hc, hargument, hsame⟩
    · exact .inl hfree
    · obtain ⟨c', hc', hnarrows⟩ := hnarrowed c hc
      rcases hnarrows.arguments i argument hargument with hfree | hargument'
      · exact .inl (.of_sameType hsame hfree)
      · exact .inr ⟨c', argument, hc', hargument', hsame⟩
  · intro size hsize
    obtain ⟨c, hc, hcsize⟩ := h.size size hsize
    obtain ⟨c', hc', hnarrows⟩ := hnarrowed c hc
    exact ⟨c', hc', hnarrows.size size hcsize⟩

theorem Compatible.reread {contract : Option NativeContainerType} {args : List TypeName}
    {fixedSize : Option Nat} (h : Compatible contract (rereadAll args) fixedSize) :
    Compatible contract args fixedSize := by
  refine ⟨fun i arg harg => ?_, h.size⟩
  have hreread : (rereadAll args)[i]? = some (zl.reread arg) := by
    rw [rereadAll_eq_map, List.getElem?_map, harg]
    rfl
  rcases h.arguments i _ hreread with hfree | ⟨c, argument, hc, hargument, hsame⟩
  · exact .inl hfree.reread
  · exact .inr ⟨c, argument, hc, hargument, hsame.reread⟩

namespace Assignable

section
variable {R O : Type} {chunk : Chunk O} {mapRef : R → Bool} {view view' : R → Option NativeContainerType}
  {value : Value R O}

theorem narrowed {t : TypeName} (h : Assignable chunk mapRef view value t)
    (hnarrowed : ∀ r, Narrowed (view r) (view' r)) : Assignable chunk mapRef view' value t := by
  induction h with
  | member hm _ ih => exact .member hm ih
  | container hname hkind harity h => exact .container hname hkind harity (h.narrowed (hnarrowed _))
  | leaf h => exact .leaf h

theorem of_reread_named {name : String} {args : List TypeName} {fixedSize : Option Nat}
    (h : Assignable chunk mapRef view value (reread (.named name args fixedSize))) :
    Assignable chunk mapRef view value (.named name args fixedSize) := by
  generalize ht : reread (.named name args fixedSize) = t at h
  rw [reread] at ht
  cases h with
  | member hm h => cases ht
  | container hname hkind harity h =>
    obtain ⟨rfl, rfl, rfl⟩ := TypeName.named.inj ht
    refine .container hname hkind ?_ h.reread
    rwa [rereadAll_eq_map, List.map_eq_nil_iff, List.length_map] at harity
  | leaf h =>
    obtain ⟨rfl, rfl, rfl⟩ := TypeName.named.inj ht
    obtain ⟨n, hn⟩ := h
    exact .leaf ⟨n + 1, by rwa [Function.iterate_succ_apply, reread]⟩

theorem exists_member {members : List TypeName} (h : Assignable chunk mapRef view value (.union members)) :
    ∃ m ∈ members, Assignable chunk mapRef view value m := by
  cases h with
  | member hm h => exact ⟨_, hm, h⟩

theorem of_reread {t : TypeName} (hwf : WellFormed t) (h : Assignable chunk mapRef view value (reread t)) :
    Assignable chunk mapRef view value t := by
  induction hwf with
  | named _ _ _ _ => exact of_reread_named h
  | @union members hne hmembers hnamed ih =>
    rw [reread, rereadAll_eq_map] at h
    rcases members with _ | ⟨m, _ | ⟨m', ms⟩⟩
    · exact absurd rfl hne
    · exact .member List.mem_cons_self (ih m List.mem_cons_self h)
    · obtain ⟨s, hs, h⟩ := h.exists_member
      obtain ⟨t, ht, hst⟩ := mem_sortedMembers.mp hs
      obtain ⟨u, hu, rfl⟩ : ∃ u ∈ m :: m' :: ms, zl.reread u = t := List.mem_map.mp ht
      cases u with
      | union _ => exact (hnamed _ hu).elim
      | named name args fixedSize =>
        rw [reread] at hst
        obtain rfl := List.mem_singleton.mp hst
        exact .member hu (ih _ hu h)

end

end Assignable

end zl.vm.contract
