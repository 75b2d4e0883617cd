import Mathlib
import Zl.Mir.VmBackend.Vtables

open zl.graph

namespace zl.mir

def accessName : MemberAccess → String
  | .Private => "private"
  | .Protected => "protected"
  | .Public => "public"

/-- A method as the reflection metadata of a class lists it. -/
structure RuntimeMethodInfo where
  name : String
  ownerClassName : String
  parameterTypes : List String
  dispatchSignature : String
  returnType : String
  access : String
  isStatic : Bool
  isAsync : Bool
  functionIndex : Nat
  deriving DecidableEq, Repr

def Function.explicitParameters (fn : Function) : List Parameter :=
  fn.parameters.drop (if fn.hasThisParameter then 1 else 0)

/-- The entry of a method. Its signature is the dispatch key without the name. -/
def runtimeMethodInfo (types : TypeRules) (id : FunctionId) (fn : Function) : RuntimeMethodInfo where
  name := String.ofList (methodToken fn.simpleName)
  ownerClassName := fn.ownerClass
  parameterTypes := fn.explicitParameters.map fun parameter => types.render parameter.type
  dispatchSignature := parameterList types (fn.explicitParameters.map (·.type))
  returnType := types.render fn.returnType
  access := accessName fn.access
  isStatic := fn.isStatic
  isAsync := fn.isAsync
  functionIndex := id - 1

/-- The two entries have one name and one list of parameter types. -/
def RuntimeMethodInfo.sameMethod (info existing : RuntimeMethodInfo) : Bool :=
  existing.name = info.name && existing.parameterTypes = info.parameterTypes

/-- The entries after one more method, which is dropped when there is one like it already. -/
def addMethod (methods : List RuntimeMethodInfo) (info : RuntimeMethodInfo) : List RuntimeMethodInfo :=
  if methods.any info.sameMethod then methods else methods ++ [info]

namespace Module

/-- A class and its ancestors, up to the first that has no layout. -/
def reflectionChain (m : Module) : Nat → String → List String
  | 0, _ => []
  | guard + 1, className =>
    if className.isEmpty then [] else
      match m.classLayout className with
      | none => []
      | some layout => layout.name :: m.reflectionChain guard (m.parentOf className)

/-- The methods that the metadata of a class list, base classes first. -/
def reflectedMethods (m : Module) (types : TypeRules) (className : String) : List RuntimeMethodInfo :=
  (((m.reflectionChain 64 className).reverse.flatMap fun owner =>
    m.functionsWith fun fn => fn.ownerClass = owner && !fn.isLambda && !fn.isConstructor).filterMap
      fun id =>
      (m.function id).map (runtimeMethodInfo types id)).foldl addMethod []

/-- The functions of a class and of its ancestors, base classes first. -/
def members (m : Module) (className : String) : List FunctionId :=
  (m.parentChain 64 className).reverse.flatMap fun owner => m.functionsWith (·.ownerClass = owner)

/-- The entry that a function asks for in the metadata of its class and of the classes below. -/
def methodEntry (m : Module) (types : TypeRules) (id : FunctionId) : Option RuntimeMethodInfo :=
  (m.function id).bind fun fn =>
    if (m.classLayout fn.ownerClass).isSome && !fn.isLambda && !fn.isConstructor then some
      (runtimeMethodInfo types id fn)
    else none

/-- The function answers virtual calls under the key. -/
def answersKey (m : Module) (types : TypeRules) (key : String) (id : FunctionId) : Bool :=
  (m.function id).any fun fn => !fn.ownerClass.isEmpty && fn.hasThisParameter &&
    dispatchKeyFor types fn = key

/-- Some class on the walked part of the parent chain declares the key, if any on the chain does. -/
def DeclaredOnWalk (m : Module) (types : TypeRules) (className key : String) : Prop :=
  (∃ n base, ancestor m.parentClass n className = some base ∧ (m.declByClass types base key).isSome) →
    ∃ n base, n < 64 ∧ ancestor m.parentClass n className = some base ∧
    (m.declByClass types base key).isSome

/-- The first method of each name and parameter list that has the key is an instance method, and
    neither its class nor one below it declares the key again behind it. -/
def FirstNotOverridden (m : Module) (types : TypeRules) (className key : String) : Prop :=
  ∀ earlier id later info fn, m.members className = earlier ++ id :: later →
    m.methodEntry types id = some info → m.function id = some fn → dispatchKeyFor types fn = key →
    (∀ e ∈ earlier.filterMap (m.methodEntry types), info.sameMethod e = false) →
    fn.hasThisParameter ∧ ∀ g ∈ later, m.answersKey types key g = false

end Module

section
variable {m : Module} {types : TypeRules} {className key : String} {info : RuntimeMethodInfo}
  {entries : List RuntimeMethodInfo} {id : FunctionId} {fn : Function}

theorem sameMethod_iff {existing : RuntimeMethodInfo} :
    info.sameMethod existing = true ↔ existing.name = info.name ∧
      existing.parameterTypes = info.parameterTypes := by
  simp [RuntimeMethodInfo.sameMethod]

theorem mem_addMethod {methods : List RuntimeMethodInfo} {added : RuntimeMethodInfo} :
    info ∈ addMethod methods added ↔ info ∈ methods ∨ info = added ∧ ∀ e ∈ methods,
      added.sameMethod e = false := by
  unfold addMethod
  split
  · next hany =>
    obtain ⟨e, he, hsame⟩ := List.any_eq_true.mp hany
    refine ⟨.inl, fun h => h.resolve_right fun ⟨_, hnone⟩ => ?_⟩
    rw [hnone e he] at hsame
    cases hsame
  · next hany =>
    rw [List.mem_append, List.mem_singleton]
    have hnone : ∀ e ∈ methods, added.sameMethod e = false := by simpa using hany
    exact or_congr_right (and_iff_left hnone).symm

theorem exists_listed {added : RuntimeMethodInfo} (h : added ∈ entries) :
    ∃ e ∈ entries.foldl addMethod [], added.sameMethod e = true := by
  induction entries using List.reverseRecOn with
  | nil => nomatch h
  | append_singleton entries last ih =>
    rw [List.foldl_append, List.foldl_cons, List.foldl_nil]
    rcases List.mem_append.mp h with h | h
    · obtain ⟨e, he, hsame⟩ := ih h
      exact ⟨e, mem_addMethod.mpr (.inl he), hsame⟩
    · obtain rfl := List.mem_singleton.mp h
      by_cases hnone : ∀ e ∈ entries.foldl addMethod [], added.sameMethod e = false
      · exact ⟨added, mem_addMethod.mpr (.inr ⟨rfl, hnone⟩), sameMethod_iff.mpr ⟨rfl, rfl⟩⟩
      · simp only [not_forall, Bool.not_eq_false] at hnone
        obtain ⟨e, he, hsame⟩ := hnone
        exact ⟨e, mem_addMethod.mpr (.inl he), hsame⟩

theorem mem_foldl_addMethod : info ∈ entries.foldl addMethod [] ↔
    ∃ earlier later, entries = earlier ++ info :: later ∧ ∀ e ∈ earlier, info.sameMethod e = false := by
  induction entries using List.reverseRecOn generalizing info with
  | nil => simp
  | append_singleton entries added ih =>
    rw [List.foldl_append, List.foldl_cons, List.foldl_nil, mem_addMethod, ih]
    constructor
    · rintro (⟨earlier, later, rfl, hfirst⟩ | ⟨rfl, hnone⟩)
      · exact ⟨earlier, later ++ [added], by simp, hfirst⟩
      · refine ⟨entries, [], rfl, fun e he => ?_⟩
        by_contra hsame
        obtain ⟨listed, hlisted, hlike⟩ := exists_listed he
        have hne := hnone listed hlisted
        rw [Bool.eq_false_iff, ne_eq, sameMethod_iff] at hne
        rw [Bool.not_eq_false, sameMethod_iff] at hsame
        rw [sameMethod_iff] at hlike
        exact hne ⟨hlike.1.trans hsame.1, hlike.2.trans hsame.2⟩
    · rintro ⟨earlier, later, hsplit, hfirst⟩
      rcases List.eq_nil_or_concat later with rfl | ⟨later, last, rfl⟩
      · obtain ⟨rfl, hlast⟩ := List.append_inj' hsplit rfl
        cases hlast
        refine .inr ⟨rfl, fun e he => ?_⟩
        obtain ⟨earlier, later, rfl, -⟩ := ih.mp he
        exact hfirst e (by simp)
      · rw [List.concat_eq_append, ← List.cons_append, ← List.append_assoc] at hsplit
        obtain ⟨rfl, -⟩ := List.append_inj' hsplit rfl
        exact .inl ⟨earlier, later, rfl, hfirst⟩

theorem parentOf_eq_empty (h : m.classLayout className = none) : m.parentOf className = "" := by
  have hnil : m.classes.filter (·.name = className) = [] :=
    List.filter_eq_nil_iff.mpr (List.find?_eq_none.mp h)
  simp [Module.parentOf, hnil]

theorem reflectionChain_eq_filter (guard : Nat) (className : String) :
    m.reflectionChain guard className = (m.parentChain guard className).filter fun c =>
      (m.classLayout c).isSome := by
  induction guard generalizing className with
  | zero => rfl
  | succ guard ih =>
    rw [Module.reflectionChain, Module.parentChain]
    by_cases hempty : className.isEmpty
    · rw [if_pos hempty, if_pos hempty]
      rfl
    · rw [if_neg hempty, if_neg hempty, List.filter_cons]
      cases hlayout : m.classLayout className with
      | none =>
        rw [parentOf_eq_empty hlayout, ← ih]
        cases guard <;> simp [Module.reflectionChain]
      | some layout =>
        have hname : layout.name = className := by simpa using List.find?_some hlayout
        rw [← ih, if_pos Option.isSome_some]
        exact congrArg (· :: m.reflectionChain guard (m.parentOf className)) hname

/-- The metadata is merged from what the functions on the parent chain ask for. -/
theorem reflectedMethods_eq :
    m.reflectedMethods types className =
      ((m.members className).filterMap (m.methodEntry types)).foldl addMethod [] := by
  rw [Module.reflectedMethods, Module.members, reflectionChain_eq_filter, ← List.filter_reverse]
  congr 1
  generalize (m.parentChain 64 className).reverse = owners
  induction owners with
  | nil => rfl
  | cons owner owners ih =>
    rw [List.flatMap_cons, List.filterMap_append, ← ih, List.filter_cons]
    have hown : (m.functionsWith fun fn => fn.ownerClass = owner).filterMap (m.methodEntry types) =
        if (m.classLayout owner).isSome then (m.functionsWith fun fn =>
          fn.ownerClass = owner && !fn.isLambda && !fn.isConstructor).filterMap fun id =>
            (m.function id).map (runtimeMethodInfo types id) else [] := by
      rw [Module.functionsWith, Module.functionsWith, List.filterMap_filter, List.filterMap_filter]
      cases hlayout : (m.classLayout owner).isSome with
      | true =>
        refine List.filterMap_congr fun id _ => ?_
        cases hfn : m.function id with
        | none => simp
        | some fn =>
          by_cases howner : fn.ownerClass = owner
          · simp [Module.methodEntry, hfn, howner, hlayout]
          · simp [howner]
      | false =>
        refine List.filterMap_eq_nil_iff.mpr fun id _ => ?_
        cases hfn : m.function id with
        | none => simp
        | some fn =>
          by_cases howner : fn.ownerClass = owner
          · simp [Module.methodEntry, hfn, howner, hlayout]
          · simp [howner]
    rw [hown]
    split
    · rw [List.flatMap_cons, List.filterMap_append]
    · rfl

theorem mem_reflectedMethods : info ∈ m.reflectedMethods types className ↔
    ∃ earlier id later, m.members className = earlier ++ id :: later ∧
    m.methodEntry types id = some info ∧ ∀ e ∈ earlier.filterMap (m.methodEntry types),
    info.sameMethod e = false := by
  rw [reflectedMethods_eq, mem_foldl_addMethod]
  constructor
  · rintro ⟨earlier, later, hsplit, hfirst⟩
    obtain ⟨front, back, hmembers, rfl, hback⟩ := List.filterMap_eq_append_iff.mp hsplit
    obtain ⟨skipped, id, rest, rfl, hskipped, hentry, -⟩ := List.filterMap_eq_cons_iff.mp hback
    refine ⟨front ++ skipped, id, rest, by rw [hmembers, List.append_assoc], hentry, ?_⟩
    rw [List.filterMap_append, List.filterMap_eq_nil_iff.mpr hskipped, List.append_nil]
    exact hfirst
  · rintro ⟨earlier, id, later, hsplit, hentry, hfirst⟩
    refine ⟨earlier.filterMap (m.methodEntry types), later.filterMap (m.methodEntry types), ?_, hfirst⟩
    rw [hsplit, List.filterMap_append, List.filterMap_cons_some hentry]

theorem getLast?_reverse_flatMap {A B : Type} (f : A → List B) (l : List A) :
    (l.reverse.flatMap f).getLast? = l.findSome? fun a => (f a).getLast? := by
  induction l with
  | nil => rfl
  | cons a l ih =>
    rw [List.reverse_cons, List.flatMap_append, List.flatMap_singleton, List.getLast?_append, ih,
      List.findSome?_cons]
    cases (f a).getLast? with
    | none => rfl
    | some b => rfl

/-- A virtual call runs the last function on the parent chain that answers the key. -/
theorem vtableEntry_eq : m.vtableEntry types className key =
    ((m.members className).filter (m.answersKey types key)).getLast? := by
  rw [Module.members, List.filter_flatMap, getLast?_reverse_flatMap, Module.vtableEntry]
  congr 1
  funext owner
  rw [Module.functionsWith, Module.functionsWith, List.filter_filter]
  congr 2
  funext id
  cases hfn : m.function id with
  | none => simp [Module.answersKey, hfn]
  | some fn => simp [Module.answersKey, hfn, declaresKey, Bool.and_comm, Bool.and_left_comm,
      Bool.and_assoc]

theorem nodup_members (hacyclic : Acyclic m.parentClass) : (m.members className).Nodup := by
  have hchain : (m.parentChain 64 className).Nodup := by
    by_cases hne : className = ""
    · subst hne
      exact List.nodup_nil
    · rw [parentChain_eq_chain hne]
      exact nodup_chain hacyclic 64 className
  refine List.nodup_flatMap.mpr ⟨fun owner _ => (Module.nodup_functionIds m).filter _, ?_⟩
  refine (List.nodup_reverse.mpr hchain).imp fun hne id hid hid' => ?_
  obtain ⟨fn, hfn, howner⟩ := Module.mem_functionsWith.mp hid
  obtain ⟨fn', hfn', howner'⟩ := Module.mem_functionsWith.mp hid'
  obtain rfl := Option.some.inj (hfn.symm.trans hfn')
  exact hne ((of_decide_eq_true howner).symm.trans (of_decide_eq_true howner'))

/-- In a list without repetitions the last element with a property is one behind which no other has it. -/
theorem getLast?_filter_iff {A : Type} {p : A → Bool} {earlier later : List A} {a : A}
    (hnodup : (earlier ++ a :: later).Nodup) :
    ((earlier ++ a :: later).filter p).getLast? = some a ↔ p a = true ∧ ∀ b ∈ later, p b = false := by
  rw [List.filter_append, List.filter_cons]
  constructor
  · intro h
    obtain ⟨-, hcons, hdisjoint⟩ := List.nodup_append'.mp hnodup
    have hearlier : a ∉ earlier.filter p :=
      fun ha => hdisjoint (List.mem_of_mem_filter ha) List.mem_cons_self
    have hlater : a ∉ later.filter p := fun ha => (List.nodup_cons.mp hcons).1 (List.mem_of_mem_filter ha)
    cases hown : p a with
    | false =>
      rw [if_neg (by rw [hown]; exact Bool.false_ne_true)] at h
      exact absurd (List.mem_of_getLast? h) (List.not_mem_append hearlier hlater)
    | true =>
      rw [if_pos hown, List.getLast?_append, List.getLast?_cons] at h
      cases hlast : (later.filter p).getLast? with
      | none =>
        rw [List.getLast?_eq_none_iff, List.filter_eq_nil_iff] at hlast
        exact ⟨rfl, fun b hb => Bool.eq_false_iff.mpr (hlast b hb)⟩
      | some b =>
        rw [hlast] at h
        obtain rfl : b = a := Option.some.inj h
        exact absurd (List.mem_of_getLast? hlast) hlater
  · rintro ⟨ha, hlater⟩
    have hnil : later.filter p = [] := List.filter_eq_nil_iff.mpr fun b hb => by simp [hlater b hb]
    rw [if_pos ha, hnil, List.getLast?_append]
    rfl

theorem ne_empty_of_mem_parentChain {guard : Nat} {owner : String}
    (h : owner ∈ m.parentChain guard className) :
    owner ≠ "" := by
  induction guard generalizing className with
  | zero => cases h
  | succ guard ih =>
    rw [Module.parentChain] at h
    split at h
    · cases h
    · next hne =>
      rcases List.mem_cons.mp h with rfl | h
      · simpa using hne
      · exact ih h

theorem methodEntry_eq_some (h : m.methodEntry types id = some info) :
    ∃ fn, m.function id = some fn ∧ info.functionIndex + 1 = id := by
  obtain ⟨fn, hfn, hentry⟩ := Option.bind_eq_some_iff.mp h
  refine ⟨fn, hfn, ?_⟩
  split at hentry
  · cases hentry
    exact Nat.sub_one_add_one (Module.function_eq_some.mp hfn).1
  · cases hentry

/-- The metadata names the function a virtual call runs exactly when the listed method of the key
    is not declared again behind it. -/
theorem reflected_iff (hacyclic : Acyclic m.parentClass) :
    (∀ info ∈ m.reflectedMethods types className, ∀ fn, m.function (info.functionIndex + 1) = some fn →
      dispatchKeyFor types fn = key → m.vtableEntry types className key = some (info.functionIndex + 1)) ↔
      m.FirstNotOverridden types className key := by
  have hlast {earlier later : List FunctionId} {id : FunctionId}
    (hsplit : m.members className = earlier ++ id :: later) :
      m.vtableEntry types className key = some id ↔
        m.answersKey types key id = true ∧ ∀ g ∈ later, m.answersKey types key g = false := by
    rw [vtableEntry_eq, hsplit]
    exact getLast?_filter_iff (hsplit ▸ nodup_members hacyclic)
  constructor
  · intro h earlier id later info fn hsplit hentry hfn hkey hfirst
    obtain ⟨fn', hfn', rfl⟩ := methodEntry_eq_some hentry
    have hlisted := mem_reflectedMethods.mpr ⟨earlier, _, later, hsplit, hentry, hfirst⟩
    obtain ⟨hanswers, hlater⟩ := (hlast hsplit).mp (h info hlisted fn hfn hkey)
    rw [Module.answersKey, hfn] at hanswers
    simp only [Option.any_some, Bool.and_eq_true] at hanswers
    exact ⟨hanswers.1.2, hlater⟩
  · intro h info hlisted fn hfn hkey
    obtain ⟨earlier, id, later, hsplit, hentry, hfirst⟩ := mem_reflectedMethods.mp hlisted
    obtain ⟨-, -, rfl⟩ := methodEntry_eq_some hentry
    obtain ⟨hthis, hlater⟩ := h earlier _ later info fn hsplit hentry hfn hkey hfirst
    refine (hlast hsplit).mpr ⟨?_, hlater⟩
    have hmem : info.functionIndex + 1 ∈ m.members className := by simp [hsplit]
    obtain ⟨owner, howner, hid⟩ := List.mem_flatMap.mp hmem
    obtain ⟨fn', hfn', heq⟩ := Module.mem_functionsWith.mp hid
    obtain rfl := Option.some.inj (hfn.symm.trans hfn')
    have hne := ne_empty_of_mem_parentChain (List.mem_reverse.mp howner)
    rw [← of_decide_eq_true heq] at hne
    simp [Module.answersKey, hfn, hne, hthis, hkey]

/-- The table holds the function of the nearest declaring class, and the metadata name the same
    one, exactly when the walk goes far enough and the listed methods are not overridden. -/
theorem mostDerived_iff (hacyclic : Acyclic m.parentClass) (hclass : className ∈ m.classNames)
    (hkey : key ∈ m.slotKeyByIndex types) :
    (∃ entry, m.vtableSlot types className key = some entry ∧
      Nearest m.parentClass (m.declByClass types · key) className entry ∧
      (entry = none ↔ ∀ n base, ancestor m.parentClass n className = some base →
        m.declByClass types base key = none) ∧ ∀ info ∈ m.reflectedMethods types className, ∀ fn,
        m.function (info.functionIndex + 1) = some fn → dispatchKeyFor types fn = key →
        entry = some (info.functionIndex + 1)) ↔ m.DeclaredOnWalk types className key ∧
        m.FirstNotOverridden types className key := by
  have hslot := vtableSlot_eq hclass hkey
  have hnodes (a b : String) (h : m.parentClass a = some b) := parentClass_eq_some h
  constructor
  · rintro ⟨entry, hentry, hnearest, -, hreflected⟩
    obtain rfl := Option.some.inj (hslot.symm.trans hentry)
    exact ⟨(nearest_vtableEntry_iff hacyclic).mp hnearest, (reflected_iff hacyclic).mp hreflected⟩
  · rintro ⟨hnear, hfirst⟩
    have hnearest := (nearest_vtableEntry_iff hacyclic).mpr hnear
    refine ⟨_, hslot, hnearest, ⟨fun hnone => ?_, fun hnone => ?_⟩, (reflected_iff hacyclic).mpr hfirst⟩
    · exact (Nearest.none_iff hacyclic hnodes).mp (hnone ▸ hnearest)
    · exact hnearest.unique ((Nearest.none_iff hacyclic hnodes).mpr hnone)

end

def overridingTypes : TypeRules :=
  ⟨fun _ => none, fun _ => false, fun _ _ => false, fun _ => "", fun _ _ _ _ => []⟩

def overridingMethod (className : String) : Function :=
  { name := className ++ ".m", ownerClass := className, simpleName := "m()",
    parameters := [{ name := "this" }]
    hasThisParameter := true }

/-- A class that overrides the one method of its parent. -/
def overridingModule : Module :=
  { functions := [overridingMethod "Base", overridingMethod "Derived"]
    classes := [{ name := "Base" }, { name := "Derived", parent := "Base" }] }

theorem overridingModule_parentClass {a b : String} (h : overridingModule.parentClass a = some b) :
    a = "Derived" ∧ b = "Base" := by
  have hnamed := parentClass_eq_some h
  obtain rfl | rfl : a = "Base" ∨ a = "Derived" := by simpa [overridingModule] using hnamed
  · cases h
  · exact ⟨rfl, (Option.some.inj h).symm⟩

theorem overridingModule_acyclic : Acyclic overridingModule.parentClass := by
  intro a h
  obtain ⟨b, hfirst, -⟩ := Relation.TransGen.head'_iff.mp h
  obtain ⟨c, -, hlast⟩ := Relation.TransGen.tail'_iff.mp h
  have heq := (overridingModule_parentClass hfirst).1.symm.trans (overridingModule_parentClass hlast).2
  exact absurd heq (by decide)

/-- The metadata of the class list the method of its parent, the table holds its own. -/
theorem override_not_listed {entry : Option FunctionId}
    (hentry : overridingModule.vtableSlot overridingTypes "Derived" "m()()" = some entry)
    (hreflected : ∀ info ∈ overridingModule.reflectedMethods overridingTypes "Derived", ∀ fn,
      overridingModule.function (info.functionIndex + 1) = some fn →
      dispatchKeyFor overridingTypes fn = "m()()" → entry = some (info.functionIndex + 1)) : False := by
  have hown : overridingModule.vtableSlot overridingTypes "Derived" "m()()" = some (some 2) := by decide
  obtain rfl := Option.some.inj (hown.symm.trans hentry)
  have hlisted : runtimeMethodInfo overridingTypes 1 (overridingMethod "Base") ∈
      overridingModule.reflectedMethods overridingTypes "Derived" := by decide
  exact absurd (hreflected _ hlisted (overridingMethod "Base") (by decide) (by decide)) (by decide)

theorem override_lists_base :
    Acyclic overridingModule.parentClass ∧ "Derived" ∈ overridingModule.classNames ∧
      "m()()" ∈ overridingModule.slotKeyByIndex overridingTypes ∧
      ¬ ∃ entry, overridingModule.vtableSlot overridingTypes "Derived" "m()()" = some entry ∧
        Nearest overridingModule.parentClass
        (overridingModule.declByClass overridingTypes · "m()()") "Derived" entry ∧
        (entry = none ↔ ∀ n base, ancestor overridingModule.parentClass n "Derived" = some base →
          overridingModule.declByClass overridingTypes base "m()()" = none) ∧
          ∀ info ∈ overridingModule.reflectedMethods overridingTypes "Derived", ∀ fn,
          overridingModule.function (info.functionIndex + 1) = some fn →
          dispatchKeyFor overridingTypes fn = "m()()" → entry = some (info.functionIndex + 1) :=
  ⟨overridingModule_acyclic, by decide, by decide,
    fun ⟨_, hentry, _, _, hreflected⟩ => override_not_listed hentry hreflected⟩

theorem mostDerived_iff_overriding :
    ¬ (overridingModule.DeclaredOnWalk overridingTypes "Derived" "m()()" ∧
      overridingModule.FirstNotOverridden overridingTypes "Derived" "m()()") := by
  intro hcondition
  obtain ⟨entry, hentry, -, -, hreflected⟩ :=
    (mostDerived_iff overridingModule_acyclic (by decide) (by decide)).mpr hcondition
  exact override_not_listed hentry hreflected

end zl.mir
