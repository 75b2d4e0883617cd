import Zl.Mir.DeadFunctions.Safety

open Relation

namespace zl.mir.Module

/-- The function that the table of a class holds for a dispatch. -/
def selectedMethod (m : Module) (types : TypeRules) (site : DispatchSite) (receiverClass : String) :
    Option FunctionId :=
  (m.resolveMethodSlot types site).bind fun key => (m.vtableSlot types receiverClass key).join

/-- The nearest class on the parent chain that declares a key. -/
def declaringClass (m : Module) (types : TypeRules) (className key : String) : Option String :=
  (m.parentChain 64 className).find? fun current => (m.declByClass types current key).isSome

/-- The class that declares the key of a dispatch is the static receiver, below it, or a supertype
    of it. What it declares is a method, or named like the method that is called. -/
def DeclaredInSight (m : Module) (types : TypeRules) (site : DispatchSite)
    (receiverClass : String) : Prop :=
  ∀ key current, m.resolveMethodSlot types site = some key →
    m.declaringClass types receiverClass key = some current →
    m.RelatedClass site.className current ∧ ∀ id fn, m.declByClass types current key = some id →
    m.function id = some fn → fn.isConstructor = true ∨ fn.simpleName = "" →
    nameTokenOf fn = nameToken site.methodName

section
variable {m : Module} {types : TypeRules} {site : DispatchSite}
  {className receiverClass key : String} {id : FunctionId} {fn : Function}

theorem mem_appendNew {names : List String} {name x : String} : x ∈ appendNew names name ↔
    x ∈ names ∨ x = name := by
  unfold appendNew
  split
  next hmem => exact ⟨.inl, fun h => h.elim id fun heq => heq ▸ hmem⟩
  next => rw [List.mem_append, List.mem_singleton]

theorem mem_foldl_appendNew {A : Type} {skipped : A → Bool} {nameOf : A → String} {l : List A}
    {names : List String} {x : String} :
    x ∈ l.foldl (fun names a => if skipped a then names else appendNew names (nameOf a)) names ↔
      x ∈ names ∨ ∃ a ∈ l, skipped a = false ∧ nameOf a = x := by
  induction l generalizing names with
  | nil => simp
  | cons a l ih =>
    rw [List.foldl_cons, ih]
    cases hskipped : skipped a with
    | true => simp [hskipped]
    | false =>
      simp only [Bool.false_eq_true, if_false, mem_appendNew, List.mem_cons, or_assoc]
      refine or_congr_right ⟨?_, ?_⟩
      · rintro (rfl | ⟨b, hb, h⟩)
        · exact ⟨a, .inl rfl, hskipped, rfl⟩
        · exact ⟨b, .inr hb, h⟩
      · rintro ⟨b, rfl | hb, h⟩
        · exact .inl h.2.symm
        · exact .inr ⟨b, hb, h⟩

theorem mem_functions_of_function (h : m.function id = some fn) : fn ∈ m.functions :=
  List.mem_of_getElem? (function_eq_some.mp h).2

theorem mem_slotKeyByIndex (h : m.requireSlot types key = some key) : key ∈ m.slotKeyByIndex types := by
  unfold requireSlot at h
  split at h
  · nomatch h
  next hsome =>
    obtain ⟨id, hid⟩ := List.exists_mem_of_ne_nil _ (fun hnil => hsome (List.isEmpty_iff.mpr hnil))
    obtain ⟨fn, hf, hregisters⟩ := mem_functionsWith.mp hid
    refine mem_foldl_appendNew.mpr (.inr ⟨fn, mem_functions_of_function hf, ?_⟩)
    unfold registersKey at hregisters
    simp only [Bool.and_eq_true, Bool.not_eq_true', decide_eq_true_eq] at hregisters
    obtain ⟨⟨⟨hlambda, howner⟩, hthis⟩, hkey⟩ := hregisters
    exact ⟨by simp [hlambda, howner, hthis], hkey⟩

theorem vtableEntry_of_notMem (h : className ∉ m.classNames) :
    m.vtableEntry types className key = none := by
  have hnames := mt mem_foldl_appendNew.mpr h
  simp only [not_or, not_exists, not_and] at hnames
  obtain ⟨hclasses, hfunctions⟩ := hnames
  have hlayout : m.classes.filter (·.name = className) = [] := by
    rw [List.filter_eq_nil_iff]
    intro cls hcls hname
    have hmem : className ∈ m.classes.foldl
        (fun names cls => if false then names else appendNew names cls.name) [] :=
      mem_foldl_appendNew.mpr (.inr ⟨cls, hcls, rfl, of_decide_eq_true hname⟩)
    exact hclasses hmem
  have hparent : m.parentOf className = "" := by
    rw [parentOf, hlayout]
    rfl
  have hnone : m.declByClass types className key = none := by
    rw [declByClass, List.getLast?_eq_none_iff, List.eq_nil_iff_forall_not_mem]
    intro id hid
    obtain ⟨fn, hf, hdeclares⟩ := mem_functionsWith.mp hid
    simp only [declaresKey, Bool.and_eq_true, Bool.not_eq_true', decide_eq_true_eq] at hdeclares
    exact hfunctions fn (mem_functions_of_function hf) hdeclares.1.1.1 hdeclares.1.1.2
  unfold vtableEntry
  rw [parentChain]
  split
  · rfl
  · rw [List.findSome?_cons, show (m.functionsWith (declaresKey types key className)).getLast? =
      none from hnone, hparent]
    rfl

theorem join_vtableSlot (hkey : key ∈ m.slotKeyByIndex types) (className : String) :
    (m.vtableSlot types className key).join = m.vtableEntry types className key := by
  by_cases hclass : className ∈ m.classNames
  · rw [vtableSlot_eq hclass hkey, Option.join_some]
  · have hrow : (m.vtables types).lookup className = none := by
      rw [vtables, List.lookup_eq_none_iff]
      intro row hrow
      obtain ⟨name, hname, rfl⟩ := List.mem_map.mp hrow
      rw [bne_iff_ne]
      rintro rfl
      exact hclass hname
    rw [vtableEntry_of_notMem hclass, vtableSlot, hrow]
    rfl

/-- The entry is what the nearest class that declares the key declares. -/
theorem vtableEntry_eq (className : String) : m.vtableEntry types className key =
    (m.declaringClass types className key).bind fun current => m.declByClass types current key := by
  unfold vtableEntry declaringClass
  induction m.parentChain 64 className with
  | nil => rfl
  | cons current chain ih =>
    rw [List.findSome?_cons, List.find?_cons]
    cases hdecl : m.declByClass types current key with
    | none =>
      rw [show (m.functionsWith (declaresKey types key current)).getLast? = none from hdecl]
      exact ih
    | some id =>
      rw [show (m.functionsWith (declaresKey types key current)).getLast? = some id from hdecl]
      exact hdecl.symm

theorem takeWhile_append_stop {A : Type} {p : A → Bool} {stop : A} (hstop : p stop = false)
    (l rest : List A) :
    (l ++ stop :: rest).takeWhile p = l.takeWhile p := by
  induction l with
  | nil => exact List.takeWhile_cons_of_neg (by rw [hstop]; exact Bool.false_ne_true)
  | cons x l ih =>
    rw [List.cons_append, List.takeWhile_cons, List.takeWhile_cons, ih]

theorem methodToken_append (name : String) (parameters : List TypeId) :
    methodToken (name ++ parameterList types parameters) = methodToken name := by
  have hlist : (name ++ parameterList types parameters).toList =
      name.toList ++ '(' :: (",".intercalate (parameters.map (runtimeTypeName types)) ++ ")").toList := by
    simp [parameterList, String.toList_append]
  rw [methodToken, methodToken, hlist]
  exact takeWhile_append_stop (by decide) _ _

theorem methodToken_interfaceKey {methodName : String} {argCount guard : Nat} {name : String}
    (h : m.interfaceKey types methodName argCount guard name = some key) :
    methodToken key = methodToken methodName := by
  induction guard generalizing name with
  | zero => cases h
  | succ guard ih =>
    have hinherited {info : InterfaceInfo}
      (h : info.bases.head?.bind (m.interfaceKey types methodName argCount guard) = some key) :
        methodToken key = methodToken methodName := by
      obtain ⟨base, -, h⟩ := Option.bind_eq_some_iff.mp h
      exact ih h
    rw [interfaceKey] at h
    split at h
    · cases h
    · split at h
      · cases h
      · dsimp only at h
        split at h
        · exact hinherited h
        · split at h
          · cases h
            rw [methodToken_append, methodToken_append]
          · exact hinherited h

theorem methodToken_of_resolveMethodSlot (h : m.resolveMethodSlot types site = some key) :
    m.requireSlot types key = some key ∧ methodToken key = methodToken site.methodName := by
  unfold resolveMethodSlot at h
  split at h
  next declared hdeclared =>
    obtain ⟨fn, hf, h⟩ := Option.bind_eq_some_iff.mp h
    obtain rfl := eq_of_requireSlot h
    refine ⟨h, ?_⟩
    obtain ⟨current, -, hfound⟩ := List.exists_of_findSome?_eq_some hdeclared
    obtain ⟨g, hg, hdeclares⟩ := mem_functionsWith.mp (mem_of_findDeclaredMethod hfound)
    obtain rfl := Option.some.inj (hf.symm.trans hg)
    simp only [declaresMethod, Bool.and_eq_true, Bool.not_eq_true', decide_eq_true_eq] at hdeclares
    obtain ⟨⟨⟨-, hconstructor⟩, htoken⟩, -⟩ := hdeclares
    rw [dispatchKeyFor, hconstructor, Bool.false_and, if_neg Bool.false_ne_true, methodToken_append,
      htoken, methodToken, ← htoken, methodToken, List.takeWhile_takeWhile]
    simp
  next =>
    obtain ⟨found, hfound, h⟩ := Option.bind_eq_some_iff.mp h
    obtain rfl := eq_of_requireSlot h
    exact ⟨h, methodToken_interfaceKey hfound⟩

theorem nameToken_of_methodToken_eq {name name' : String}
    (h : methodToken name = methodToken name') : nameToken name = nameToken name' := by
  unfold methodToken at h
  unfold nameToken
  rw [h]

theorem nameTokenOf_declared (h : m.resolveMethodSlot types site = some key)
    (hdeclares : declaresKey types key className fn = true)
    (hmethod : ¬(fn.isConstructor = true ∨ fn.simpleName = "")) :
    nameTokenOf fn = nameToken site.methodName := by
  obtain ⟨hconstructor, hnamed⟩ := not_or.mp hmethod
  simp only [declaresKey, Bool.and_eq_true, decide_eq_true_eq] at hdeclares
  have hkey := hdeclares.2
  rw [dispatchKeyFor, Bool.eq_false_iff.mpr hconstructor, Bool.false_and,
    if_neg Bool.false_ne_true] at hkey
  have htoken := (methodToken_of_resolveMethodSlot h).2
  rw [← hkey, methodToken_append] at htoken
  rw [nameTokenOf, if_neg (by simpa using hnamed)]
  exact nameToken_of_methodToken_eq htoken

/-- The candidates of a static receiver hold the method that the table of a class selects exactly
    when the class that declares it is in sight of the static receiver. -/
theorem selectedMethod_candidate_iff (m : Module) (types : TypeRules) (site : DispatchSite)
    (receiverClass : String) :
    (∀ id, m.selectedMethod types site receiverClass = some id →
      id ∈ m.dispatchCandidates site.className site.methodName) ↔
      m.DeclaredInSight types site receiverClass := by
  have hselected {key : String} (hkey : m.resolveMethodSlot types site = some key) :
      m.selectedMethod types site receiverClass = (m.declaringClass types receiverClass key).bind
      fun current => m.declByClass types current key := by
    rw [selectedMethod, hkey, Option.bind_some,
      join_vtableSlot (mem_slotKeyByIndex (methodToken_of_resolveMethodSlot hkey).1), vtableEntry_eq]
  have hdeclared {key current : String} {id : FunctionId}
    (hid : m.declByClass types current key = some id) :
      ∃ fn, m.function id = some fn ∧ declaresKey types key current fn = true ∧ fn.ownerClass ≠ "" ∧
        fn.ownerClass = current := by
    obtain ⟨fn, hf, hdeclares⟩ := mem_functionsWith.mp (List.mem_of_getLast? hid)
    refine ⟨fn, hf, hdeclares, ?_⟩
    simp only [declaresKey, Bool.and_eq_true, Bool.not_eq_true', decide_eq_true_eq,
      String.isEmpty_eq_false_iff] at hdeclares
    exact hdeclares.1.1
  constructor
  · intro hcomplete key current hkey hcurrent
    have hsome := List.find?_some hcurrent
    obtain ⟨id, hid⟩ := Option.isSome_iff_exists.mp hsome
    obtain ⟨fn, hf, -, -, howner⟩ := hdeclared hid
    have hmem := hcomplete id (by rw [hselected hkey, hcurrent]; exact hid)
    obtain ⟨-, hrelated, htoken⟩ := (mem_dispatchCandidates hf).mp hmem
    refine ⟨mem_relatedClasses.mp (howner ▸ hrelated), fun id' fn' hid' hf' _ => ?_⟩
    obtain rfl := Option.some.inj (hid.symm.trans hid')
    obtain rfl := Option.some.inj (hf.symm.trans hf')
    exact htoken
  · intro hsight id hid
    obtain ⟨key, hkey, -⟩ := Option.bind_eq_some_iff.mp hid
    rw [hselected hkey] at hid
    obtain ⟨current, hcurrent, hid⟩ := Option.bind_eq_some_iff.mp hid
    obtain ⟨fn, hf, hdeclares, hne, howner⟩ := hdeclared hid
    obtain ⟨hrelated, hnamed⟩ := hsight key current hkey hcurrent
    refine (mem_dispatchCandidates hf).mpr ⟨hne, howner ▸ mem_relatedClasses.mpr hrelated, ?_⟩
    by_cases hmethod : fn.isConstructor = true ∨ fn.simpleName = ""
    · exact hnamed id fn hid hf hmethod
    · exact nameTokenOf_declared hkey hdeclares hmethod

end

/-- A class inherits the method of an interface from a parent that does not implement the
    interface: the candidates of the interface lack the method that the table of the class
    selects. -/
theorem inherited_method_missing :
    ¬∀ (m : Module) (types : TypeRules) (site : DispatchSite) (receiverClass : String),
    m.Supertype receiverClass site.className →
    ∀ id, m.selectedMethod types site receiverClass = some id →
    id ∈ m.dispatchCandidates site.className site.methodName := by
  intro h
  have hselected : inheritingProgram.selectedMethod noTypes
    ⟨"I", "m", [Operand.temp 1 1]⟩ "Derived" = some 2 := by decide +kernel
  have hsubtype : inheritingProgram.Supertype "Derived" "I" := .single (by decide)
  exact absurd (h inheritingProgram noTypes ⟨"I", "m", [Operand.temp 1 1]⟩ "Derived" hsubtype 2
    hselected) (by decide +kernel)

end zl.mir.Module
