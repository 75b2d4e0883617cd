import Zl.Mir.DeadFunctions.Reported

open Relation

namespace zl.mir.Module

section
variable {A B : Type} {a : A} {l : List A} {p : A → Bool}

theorem getLast?_filter_of_kept (h : l.getLast? = some a) (hp : p a = true) :
    (l.filter p).getLast? = some a := by
  obtain ⟨ys, rfl⟩ := List.getLast?_eq_some_iff.mp h
  simp [hp]

theorem findSome?_eq_some_of_agree {f g : A → Option B} {b c : B} (h : l.findSome? f = some b)
    (hnone : ∀ a, f a = none → g a = none) (hsome : ∀ a, f a = some b → g a = some c) :
    l.findSome? g = some c := by
  obtain ⟨before, a, after, rfl, ha, hbefore⟩ := List.findSome?_eq_some_iff.mp h
  exact List.findSome?_eq_some_iff.mpr ⟨before, a, after, rfl, hsome a ha, fun x hx =>
    hnone x (hbefore x hx)⟩

theorem findSome?_map_of_agree {f g : A → Option B} {n : B → B} (h : ∀ a ∈ l, g a = (f a).map n) :
    l.findSome? g = (l.findSome? f).map n := by
  induction l with
  | nil => rfl
  | cons a l ih =>
    rw [List.findSome?_cons, List.findSome?_cons, h a List.mem_cons_self]
    cases f a with
    | none => exact ih fun a ha => h a (List.mem_cons_of_mem _ ha)
    | some b => rfl

end

section
variable {m : Module} {types : TypeRules} {id callee : FunctionId} {className key : String}

theorem parentChain_withKept (m : Module) (types : TypeRules) (guard : Nat) (className : String) :
    (m.withKept types).parentChain guard className = m.parentChain guard className := by
  induction guard generalizing className with
  | zero => rfl
  | succ guard ih => rw [parentChain, parentChain, ih]; rfl

theorem interfaceKey_withKept (m : Module) (types : TypeRules) (methodName : String) (argCount guard : Nat)
    (name : String) : (m.withKept types).interfaceKey types methodName argCount guard name =
      m.interfaceKey types methodName argCount guard name := by
  induction guard generalizing name with
  | zero => rfl
  | succ guard ih =>
    rw [interfaceKey, interfaceKey]
    have hinherited : (m.withKept types).interfaceKey types methodName argCount guard =
        m.interfaceKey types methodName argCount guard := funext ih
    rw [hinherited]
    rfl

theorem vtableEntry_withKept (h : m.vtableEntry types className key = some callee)
    (hkept : callee ∈ m.keptIds types) :
    (m.withKept types).vtableEntry types className key = some (m.newId types callee) := by
  rw [vtableEntry, parentChain_withKept]
  refine findSome?_eq_some_of_agree h (fun current hnone => ?_) fun current hsome => ?_
  · rw [functionsWith_withKept fun _ _ => rfl, List.getLast?_eq_none_iff.mp hnone]
    rfl
  · rw [functionsWith_withKept fun _ _ => rfl, List.getLast?_map,
      getLast?_filter_of_kept hsome (decide_eq_true hkept)]
    rfl

theorem requireSlot_withKept (hkept : id ∈ m.keptIds types) {fn : Function} (hf : m.function id = some fn)
    (hkey : registersKey types key fn = true) : (m.withKept types).requireSlot types key = some key := by
  rw [requireSlot, functionsWith_withKept fun _ _ => rfl, if_neg]
  rw [Bool.not_eq_true, List.isEmpty_eq_false_iff]
  refine List.ne_nil_of_mem (List.mem_map_of_mem (List.mem_filter.mpr ⟨?_, decide_eq_true hkept⟩))
  exact mem_functionsWith.mpr ⟨fn, hf, hkey⟩

theorem function_withKept_of_some (hkept : id ∈ m.keptIds types) {fn : Function}
    (hf : m.function id = some fn) :
    (m.withKept types).function (m.newId types id) = some (fn.retarget (m.newId types)) := by
  rw [function_withKept hkept, hf]
  rfl

theorem takesArguments_withKept (hkept : id ∈ m.keptIds types) (args : List Operand) :
    (m.withKept types).takesArguments args (m.newId types id) = m.takesArguments args id := by
  rw [takesArguments, takesArguments, function_withKept hkept, Option.any_map]
  rfl

/-- A class whose methods of a name are all kept resolves a call of that name as before. -/
theorem findDeclaredMethod_withKept {methodName : String} {args : List Operand}
    (hkept : ∀ id ∈ m.functionsWith (declaresMethod className methodName args.tail.length),
      id ∈ m.keptIds types) :
    (m.withKept types).findDeclaredMethod className methodName args =
      (m.findDeclaredMethod className methodName args).map (m.newId types) := by
  rw [findDeclaredMethod, findDeclaredMethod, functionsWith_withKept fun _ _ => rfl,
    List.filter_eq_self.mpr fun id hid => decide_eq_true (hkept id hid)]
  generalize m.functionsWith (declaresMethod className methodName args.tail.length) = overloads at hkept
  have hfind : (overloads.map (m.newId types)).find? ((m.withKept types).takesArguments args) =
      (overloads.find? (m.takesArguments args)).map (m.newId types) := by
    rw [← List.head?_filter, ← List.head?_filter, List.filter_map, List.head?_map]
    have hsame : ∀ id ∈ overloads, ((m.withKept types).takesArguments args ∘ m.newId types) id =
        m.takesArguments args id := fun id hid => takesArguments_withKept (hkept id hid) args
    rw [List.filter_congr hsame]
  match overloads with
  | [] => rfl
  | [_] => rfl
  | _ :: _ :: _ => exact hfind

theorem mem_of_findDeclaredMethod {methodName : String} {args : List Operand}
    (h : m.findDeclaredMethod className methodName args = some id) :
    id ∈ m.functionsWith (declaresMethod className methodName args.tail.length) := by
  unfold findDeclaredMethod at h
  split at h
  · next honly => rw [honly, Option.some.inj h]; exact List.mem_cons_self
  · exact List.mem_of_find?_eq_some h

theorem eq_of_requireSlot {found : String} (h : m.requireSlot types key = some found) : found = key := by
  unfold requireSlot at h
  split at h
  · nomatch h
  · exact (Option.some.inj h).symm

/-- A site resolves to its key as before when the methods of its name are kept in its class and the
    ancestors of that, and the key has kept its slot. -/
theorem resolveMethodSlot_withKept {site : DispatchSite} (h : m.resolveMethodSlot types site = some key)
    (hkept : ∀ current ∈ m.parentChain 64 site.className,
      ∀ id ∈ m.functionsWith (declaresMethod current site.methodName site.args.tail.length),
      id ∈ m.keptIds types)
    (hslot : (m.withKept types).requireSlot types key = some key) :
    (m.withKept types).resolveMethodSlot types site = some key := by
  have hdeclared : ((m.parentChain 64 site.className).findSome? fun current =>
        (m.withKept types).findDeclaredMethod current site.methodName site.args) =
      ((m.parentChain 64 site.className).findSome? fun current =>
        m.findDeclaredMethod current site.methodName site.args).map (m.newId types) :=
    findSome?_map_of_agree fun current hcurrent => findDeclaredMethod_withKept (hkept current hcurrent)
  rw [resolveMethodSlot] at h
  rw [resolveMethodSlot, parentChain_withKept, hdeclared, interfaceKey_withKept]
  cases hfound : (m.parentChain 64 site.className).findSome? fun current =>
      m.findDeclaredMethod current site.methodName site.args with
  | none =>
    simp only [hfound] at h
    obtain ⟨key', hkey, hrequired⟩ := Option.bind_eq_some_iff.mp h
    obtain rfl := eq_of_requireSlot hrequired
    simp only [Option.map_none, hkey, Option.bind_some]
    exact hslot
  | some declared =>
    simp only [hfound] at h
    obtain ⟨fn, hf, hrequired⟩ := Option.bind_eq_some_iff.mp h
    obtain rfl := eq_of_requireSlot hrequired
    obtain ⟨before, current, after, hchain, hcurrent, -⟩ := List.findSome?_eq_some_iff.mp hfound
    have hmem : current ∈ m.parentChain 64 site.className := by simp [hchain]
    have hdeclaredKept := hkept current hmem declared (mem_of_findDeclaredMethod hcurrent)
    simp only [Option.map_some, function_withKept_of_some hdeclaredKept hf, Option.bind_some]
    exact hslot

theorem staticFieldInitializer_withKept (hverified : m.Verified) {fieldName : String}
    (h : m.staticFieldInitializer className fieldName = some callee) :
    (m.withKept types).staticFieldInitializer className fieldName = some (m.newId types callee) := by
  have hexists : ∀ field ∈ m.statics,
      ((m.withKept types).function (m.newId types field.initializer)).isSome =
      (m.function field.initializer).isSome := by
    intro field hfield
    by_cases hzero : field.initializer = 0
    · rw [hzero, newId_zero]
      rfl
    · have hkept : field.initializer ∈ m.keptIds types :=
        mem_keptIds_of_root (hverified.initializer_exists field hfield hzero)
          (.inr (.inr (List.mem_map_of_mem hfield)))
      rw [function_withKept hkept, Option.isSome_map]
  rw [staticFieldInitializer] at h ⊢
  show Option.map _ (List.getLast? (List.filter _ (m.statics.map _))) = _
  rw [List.filter_map, List.getLast?_map, Option.map_map,
    List.filter_congr (q := fun field => (m.function field.initializer).isSome &&
      field.className ++ "." ++ field.name = className ++ "." ++ fieldName) fun field hfield => by
        simp only [Function.comp_apply, hexists field hfield]]
  obtain ⟨field, hfield, rfl⟩ := Option.map_eq_some_iff.mp h
  rw [hfield]
  rfl

end

section
variable {m : Module} {types : TypeRules} {id caller callee : FunctionId} {function fn : Function}
  {instruction : Instruction} {site : DispatchSite} {receiverClass key : String}

theorem mem_keptIds_of_reported (hcomplete : (m.reachableFunctions types).complete = true)
    (hid : id ∈ (m.reachableFunctions types).functions) : id ∈ m.keptIds types := by
  refine mem_keptIds_of_root ?_ (.inl hid)
  obtain ⟨entry, hentry⟩ := exists_entry hcomplete
  cases (mem_reachableFunctions hentry).mp hid with
  | refl => exact mem_functionIds_of_function hentry
  | tail _ hlast =>
    obtain ⟨f, hf⟩ := exists_of_mem_entersFrom hlast
    exact mem_functionIds_of_function hf

theorem requireSlot_of_vtableEntry (hkept : callee ∈ m.keptIds types) (hf : m.function callee = some fn)
    (hlambda : fn.hasThisParameter = true → fn.isLambda = false) {className : String}
    (hentry : m.vtableEntry types className key = some callee) :
    (m.withKept types).requireSlot types key = some key := by
  obtain ⟨hdeclares, howner⟩ := ownerClass_of_vtableEntry hentry hf
  refine requireSlot_withKept hkept hf ?_
  simp only [declaresKey, Bool.and_eq_true, decide_eq_true_eq] at hdeclares
  simp [registersKey, hlambda hdeclares.1.2, howner, hdeclares.1.2, hdeclares.2]

theorem entry_withKept (hkept : callee ∈ m.keptIds types) (hf : m.function callee = some fn)
    (hlambda : fn.hasThisParameter = true → fn.isLambda = false) {className : String}
    (h : (m.requireSlot types key).bind (m.vtableEntry types className) = some callee) :
    ((m.withKept types).requireSlot types key).bind ((m.withKept types).vtableEntry types className) =
      some (m.newId types callee) := by
  obtain ⟨found, hfound, hentry⟩ := Option.bind_eq_some_iff.mp h
  obtain rfl := eq_of_requireSlot hfound
  rw [requireSlot_of_vtableEntry hkept hf hlambda hentry, Option.bind_some]
  exact vtableEntry_withKept hentry hkept

theorem reported_of_declaresMethod (hverified : m.Verified)
    (hcomplete : (m.reachableFunctions types).complete = true)
    (hcaller : caller ∈ (m.reachableFunctions types).functions)
    (hfunction : m.function caller = some function) (hinstruction : instruction ∈ function.instructions)
    (hsite : dispatchSite types instruction = some site)
    {current : String} (hcurrent : current ∈ m.parentChain 64 site.className)
    (hid : id ∈ m.functionsWith (declaresMethod current site.methodName site.args.tail.length)) :
    id ∈ (m.reachableFunctions types).functions := by
  obtain ⟨fn, hf, hdeclares⟩ := mem_functionsWith.mp hid
  have hopen := (edges_of_complete hcomplete hcaller hfunction hinstruction).1
  obtain ⟨hsub, hclosed⟩ := m.opcodeEdges_dispatch function hsite
  have hname : site.methodName ≠ "" := by
    intro hempty
    have := hclosed hopen
    rw [keepDispatchEdge, hempty] at this
    nomatch this
  obtain ⟨howner, hforeseen⟩ := dispatchForeseen_of_declaresMethod hverified.class_names_nodup hname
    (statedType_eq hsite) hcurrent hdeclares
  exact mem_reachableFunctions_of_edge hcomplete hcaller hfunction hinstruction hf
    (hsub _ (mem_keepDispatchEdge hf howner hforeseen (hclosed hopen)))

/-- In the new module an instruction enters the function that it entered before. -/
theorem callee_withKept (hverified : m.Verified) (hcomplete : (m.reachableFunctions types).complete = true)
    (haccepted : ¬ (m.keepSet types).any fun id => (m.namedCallees id).any (m.functions.length < ·))
    (hcaller : caller ∈ (m.reachableFunctions types).functions)
    (hfunction : m.function caller = some function) (hinstruction : instruction ∈ function.instructions)
    (hcallee : m.callee types instruction receiverClass = some callee) (hf : m.function callee = some fn)
    (hlambda : fn.hasThisParameter = true → fn.isLambda = false)
    (hforeseen : m.CalleeForeseen types instruction callee fn) :
    (m.withKept types).callee types (instruction.retarget (m.newId types)) receiverClass =
      some (m.newId types callee) := by
  have hopen := (edges_of_complete hcomplete hcaller hfunction hinstruction).1
  have hreported : callee ∈ (m.reachableFunctions types).functions :=
    mem_reachableFunctions_of_edge hcomplete hcaller hfunction hinstruction hf
      (mem_opcodeEdges hcallee hf hforeseen hopen)
  have hkept := mem_keptIds_of_reported hcomplete hreported
  have htarget : ∀ target, m.function instruction.target.function = some target →
      (m.withKept types).function (m.newId types instruction.target.function) =
        some (target.retarget (m.newId types)) := by
    intro target htarget
    refine function_withKept_of_some
      (mem_keptIds_of_named haccepted (mem_keptIds_of_reported hcomplete hcaller)
      (mem_namedCallees hfunction hinstruction ?_) ?_) htarget
    all_goals exact (function_eq_some.mp htarget).1
  unfold Module.callee at hcallee
  split at hcallee
  · next hopcode =>
    simp only [CalleeForeseen, hopcode] at hforeseen
    subst hforeseen
    obtain ⟨target, hfound, hcallee⟩ := Option.bind_eq_some_iff.mp hcallee
    have hcall : (m.withKept types).callee types (instruction.retarget (m.newId types)) receiverClass =
        if target.isConstructor && target.hasThisParameter then
          ((m.withKept types).requireSlot types (dispatchKeyFor types target)).bind
            ((m.withKept types).vtableEntry types receiverClass)
        else some (m.newId types instruction.target.function) := by
      simp only [Module.callee, Instruction.retarget, hopcode, htarget target hfound, Option.bind_some]
      rfl
    rw [hcall]
    split
    next hconstructor =>
      rw [if_pos hconstructor] at hcallee
      exact entry_withKept hkept hf hlambda hcallee
    · rfl
  · next hopcode =>
    obtain ⟨target, hfound, rfl⟩ := Option.map_eq_some_iff.mp hcallee
    simp only [Module.callee, hopcode, Instruction.retarget, htarget target hfound, Option.map_some]
  · next hopcode =>
    obtain ⟨target, hfound, rfl⟩ := Option.map_eq_some_iff.mp hcallee
    simp only [Module.callee, hopcode, Instruction.retarget, htarget target hfound, Option.map_some]
  · next hopcode =>
    simp only [Module.callee, hopcode, Instruction.retarget]
    exact staticFieldInitializer_withKept hverified hcallee
  · next hopcode =>
    obtain ⟨base, hbase, hcallee⟩ := Option.bind_eq_some_iff.mp hcallee
    obtain ⟨constructor, hconstructor, hcallee⟩ := Option.bind_eq_some_iff.mp hcallee
    obtain ⟨first, hfirst, hfound⟩ := Option.bind_eq_some_iff.mp hconstructor
    have hall : ∀ id ∈ m.functionsWith (isCollectionConstructor · base), id ∈ m.keptIds types := by
      intro id hid
      obtain ⟨f, hf, -⟩ := mem_functionsWith.mp hid
      refine mem_keptIds_of_reported hcomplete
        (mem_reachableFunctions_of_edge hcomplete hcaller hfunction hinstruction hf ?_)
      simpa only [opcodeEdges, hopcode, hbase] using hid
    have hsame : ((m.withKept types).functionsWith (isCollectionConstructor · base)).head? =
        some (m.newId types first) := by
      rw [functionsWith_withKept fun _ _ => rfl, List.filter_eq_self.mpr fun id hid =>
        decide_eq_true (hall id hid), List.head?_map, hfirst, Option.map_some]
    simp only [Module.callee, hopcode, Instruction.retarget, hbase, Option.bind_some, hsame,
      function_withKept_of_some (hall first (List.mem_of_head? hfirst)) hfound]
    exact entry_withKept hkept hf hlambda hcallee
  · obtain ⟨site, hsite, hcallee⟩ := Option.bind_eq_some_iff.mp hcallee
    obtain ⟨key, hkey, hentry⟩ := Option.bind_eq_some_iff.mp hcallee
    have hresolved : (m.withKept types).resolveMethodSlot types site = some key :=
      resolveMethodSlot_withKept hkey
        (fun current hcurrent id hid => mem_keptIds_of_reported hcomplete
          (reported_of_declaresMethod hverified hcomplete hcaller hfunction hinstruction hsite
            hcurrent hid))
        (requireSlot_of_vtableEntry hkept hf hlambda hentry)
    have hsame : dispatchSite types (instruction.retarget (m.newId types)) = some site := hsite
    rw [(callee_dispatch (m.withKept types) receiverClass (m.newId types callee) fn hsame).1, hresolved,
      Option.bind_some]
    exact vtableEntry_withKept hentry hkept

end

end zl.mir.Module
