import Mathlib
import Zl.Mir.DeadFunctions.Eliminate

open Relation

namespace zl.mir

/-- What a move leaves of a function: the vectors are empty, a string holds whatever the library
    leaves there. -/
def Function.movedFrom (leftover : String → String) (function : Function) : Function :=
  { function with
    name := leftover function.name, ownerClass := leftover function.ownerClass
    simpleName := leftover function.simpleName
    parameters := [], slots := [], blocks := [], edges := []
    typeParameters := [], methodTypeParameters := [], captures := [], incompleteReasons := [] }

namespace Module

/-- An id that is no function, or the id of a function that is kept. -/
def rewrites (m : Module) (types : TypeRules) (id : FunctionId) : Bool :=
  id = 0 || (id ≤ m.functions.length && m.newId types id ≠ 0)

/-- Initializers are rewritten in place, up to the first that cannot be. -/
def rewriteInitializers (m : Module) (types : TypeRules) : List StaticField → List StaticField × Bool
  | [] => ([], true)
  | field :: fields =>
    if m.rewrites types field.initializer then
      let (rewritten, done) := m.rewriteInitializers types fields
      ({ field with initializer := m.newId types field.initializer } :: rewritten, done)
    else (field :: fields, false)

/-- The function table once the kept functions have been moved out of it. -/
def movedOut (m : Module) (types : TypeRules) (leftover : String → String) : List Function :=
  m.functions.mapIdx fun i function =>
    if i + 1 ∈ m.keptIds types then function.movedFrom leftover else function

/-- The pass: whether it changed the module, and the module it leaves. -/
def runOnModule (m : Module) (types : TypeRules) (leftover : String → String) : Bool × Module :=
  if m.functions.length = 0 then (false, m)
  else if !(m.reachableFunctions types).complete then (false, m)
  else if (m.keepSet types).any fun id => (m.namedCallees id).any (m.functions.length < ·) then (false, m)
  else if (m.keptIds types).length = m.functions.length then (false, m)
  else
    let moved := { m with functions := m.movedOut types leftover }
    if (m.keptIds types).any fun id => (m.namedCallees id).any (!m.rewrites types ·) then (false, moved)
    else if !m.rewrites types m.entryPoint then (false, moved)
    else
      let (statics, done) := m.rewriteInitializers types m.statics
      if !done then (false, { moved with entryPoint := m.newId types m.entryPoint, statics })
      else (true, m.withKept types)

/-- A function the program needs: it is reported reachable, is the entry point or initializes a
    static, or instructions lead to it from such a function. -/
def Keeps (m : Module) (types : TypeRules) (id : FunctionId) : Prop :=
  ∃ root ∈ m.keepRoots types,
    ReflTransGen (fun a b => b ∈ (m.namedCallees a).filter (· ≤ m.functions.length)) root id

/-- The report is closed, needed functions name only functions of the module, and some function is
    not needed. -/
structure HasDead (m : Module) (types : TypeRules) : Prop where
  complete : (m.reachableFunctions types).complete = true
  callee_exists : ∀ id, m.Keeps types id → ∀ callee ∈ m.namedCallees id, callee ≤ m.functions.length
  dead : ∃ id ∈ m.functionIds, ¬ m.Keeps types id

/-- Each initializer is no function or a function of the module. -/
def InitializersExist (m : Module) : Prop :=
  ∀ field ∈ m.statics, field.initializer = 0 ∨ field.initializer ∈ m.functionIds

/-- Nothing a move takes and nothing renumbering changes: the needed functions hold no list and no
    text, and no dead function stands before the entry point or before an initializer that comes
    ahead of the first missing one. -/
structure NothingToLose (m : Module) (types : TypeRules) (leftover : String → String) : Prop where
  functions : ∀ id, m.Keeps types id → ∀ function, m.function id = some function →
    function.movedFrom leftover = function
  entryPoint : ∀ id ∈ m.functionIds, id < m.entryPoint → m.Keeps types id
  statics : ∀ before field after, m.statics = before ++ field :: after →
    (∀ f ∈ before ++ [field], f.initializer = 0 ∨ f.initializer ∈ m.functionIds) →
    ∀ id ∈ m.functionIds, id < field.initializer → m.Keeps types id

section
variable {m : Module} {types : TypeRules} {leftover : String → String} {id : FunctionId}

theorem mem_keptIds_iff_keeps (hid : id ∈ m.functionIds) : id ∈ m.keptIds types ↔ m.Keeps types id :=
  mem_keptIds.trans <| (and_iff_right hid).trans mem_keepSet

theorem hasDead_iff : m.HasDead types ↔ (m.reachableFunctions types).complete = true ∧
    ((m.keepSet types).any fun id => (m.namedCallees id).any (m.functions.length < ·)) = false ∧
    (m.keptIds types).length ≠ m.functions.length := by
  have hcallees : ((m.keepSet types).any fun id => (m.namedCallees id).any (m.functions.length < ·))
      = false ↔ ∀ id, m.Keeps types id → ∀ callee ∈ m.namedCallees id, callee ≤ m.functions.length := by
    simp only [List.any_eq_false, Bool.not_eq_true, decide_eq_false_iff_not, Nat.not_lt,
      mem_keepSet, Keeps]
  have hdead : (m.keptIds types).length ≠ m.functions.length ↔ ∃ id ∈ m.functionIds,
      ¬ m.Keeps types id := by
    have hlength : m.functions.length = m.functionIds.length := by simp [functionIds]
    rw [hlength, keptIds, ne_eq, List.length_filter_eq_length_iff]
    simp only [decide_eq_true_eq, not_forall, exists_prop, mem_keepSet, Keeps]
  rw [hcallees, hdead]
  exact ⟨fun h => ⟨h.complete, h.callee_exists, h.dead⟩, fun h => ⟨h.1, h.2.1, h.2.2⟩⟩

theorem runOnModule_of_not_hasDead (h : ¬ m.HasDead types) :
    m.runOnModule types leftover = (false, m) := by
  rw [hasDead_iff] at h
  unfold runOnModule
  split
  · rfl
  · split
    · rfl
    · rename_i hcomplete
      split
      · rfl
      · rename_i hcallees
        split
        · rfl
        · rename_i hlength
          exact absurd ⟨by simpa using hcomplete, by simpa using hcallees, hlength⟩ h

theorem rewrites_iff (hroot : id ∈ m.functionIds → id ∈ m.keptIds types) :
    m.rewrites types id = true ↔ id = 0 ∨ id ∈ m.functionIds := by
  rw [rewrites, Bool.or_eq_true, Bool.and_eq_true, decide_eq_true_eq, decide_eq_true_eq,
    decide_eq_true_eq]
  refine or_congr_right ⟨fun ⟨hle, hnew⟩ => ?_, fun hid => ?_⟩
  · by_contra hid
    exact hnew (newId_eq_zero fun hkept => hid (mem_keptIds.mp hkept).1)
  · refine ⟨(mem_functionIds.mp hid).2, ?_⟩
    rw [newId_of_mem (hroot hid)]
    exact Nat.succ_ne_zero _

theorem initializer_mem_keptIds {field : StaticField} (hfield : field ∈ m.statics)
    (hid : field.initializer ∈ m.functionIds) : field.initializer ∈ m.keptIds types :=
  mem_keptIds_of_root hid (.inr (.inr (List.mem_map_of_mem hfield)))

theorem runOnModule_of_hasDead (h : m.HasDead types) : m.runOnModule types leftover =
    if (m.rewriteInitializers types m.statics).2 then (true, m.withKept types)
    else (false, { m with functions := m.movedOut types leftover, entryPoint := m.newId types m.entryPoint
                          statics := (m.rewriteInitializers types m.statics).1 }) := by
  obtain ⟨hcomplete, hcallees, hlength⟩ := hasDead_iff.mp h
  obtain ⟨entry, hentry⟩ := exists_entry hcomplete
  have hentry : m.entryPoint ∈ m.functionIds := mem_functionIds_of_function hentry
  have hentryRewrites : m.rewrites types m.entryPoint = true :=
    (rewrites_iff fun hid => mem_keptIds_of_root hid (.inr (.inl rfl))).mpr (.inr hentry)
  have hnamed : ((m.keptIds types).any fun id => (m.namedCallees id).any (!m.rewrites types ·)) =
      false := by
    rw [List.any_eq_false]
    intro id hid hany
    obtain ⟨callee, hcallee, hnot⟩ := List.any_eq_true.mp hany
    have hkept : callee ≠ 0 → callee ∈ m.keptIds types :=
      mem_keptIds_of_named (by simpa using hcallees) hid hcallee
    rw [Bool.not_eq_true', ← Bool.not_eq_true, rewrites_iff fun hid =>
      hkept (mem_functionIds.mp hid).1] at hnot
    push Not at hnot
    exact hnot.2 (mem_keptIds.mp (hkept hnot.1)).1
  have hnonempty : m.functions.length ≠ 0 := fun hempty => by
    obtain ⟨hne, hle⟩ := mem_functionIds.mp hentry
    exact hne (Nat.le_zero.mp (hempty ▸ hle))
  unfold runOnModule
  rw [if_neg hnonempty, if_neg (by simp [hcomplete]), if_neg (by simpa using hcallees), if_neg hlength]
  simp only [hnamed, hentryRewrites, Bool.not_true, Bool.false_eq_true, if_false, Bool.not_eq_eq_eq_not]
  cases (m.rewriteInitializers types m.statics).2 <;> rfl

theorem rewriteInitializers_done {fields : List StaticField} :
    (m.rewriteInitializers types fields).2 = true ↔ ∀ field ∈ fields,
      m.rewrites types field.initializer = true := by
  induction fields with
  | nil => simp [rewriteInitializers]
  | cons field fields ih =>
    rw [rewriteInitializers, List.forall_mem_cons]
    split
    · rename_i hfield
      simpa [hfield] using ih
    · rename_i hfield
      simp [hfield]

/-- The initializers stay as they are when those ahead of the first missing one keep their ids. -/
theorem rewriteInitializers_eq_self {fields : List StaticField} :
    (m.rewriteInitializers types fields).1 = fields ↔
      ∀ before field after, fields = before ++ field :: after →
        (∀ f ∈ before ++ [field], m.rewrites types f.initializer = true) →
        m.newId types field.initializer = field.initializer := by
  induction fields with
  | nil => simp [rewriteInitializers]
  | cons first fields ih =>
    rw [rewriteInitializers]
    split
    · rename_i hfirst
      have hsame : { first with initializer := m.newId types first.initializer } = first ↔
          m.newId types first.initializer = first.initializer := by
        cases first
        simp
      rw [List.cons.injEq, hsame, ih]
      constructor
      · rintro ⟨hhead, htail⟩ before field after hsplit hall
        cases before with
        | nil =>
          obtain ⟨rfl, rfl⟩ := List.cons.inj hsplit
          exact hhead
        | cons _ before =>
          obtain ⟨rfl, rfl⟩ := List.cons.inj hsplit
          exact htail before field after rfl fun f hf => hall f (List.mem_cons_of_mem _ hf)
      · refine fun h => ⟨h [] first fields rfl (by simpa using hfirst),
          fun before field after hsplit hall => ?_⟩
        refine h (first :: before) field after (by rw [hsplit, List.cons_append]) ?_
        rw [List.cons_append, List.forall_mem_cons]
        exact ⟨hfirst, hall⟩
    · rename_i hfirst
      refine iff_of_true rfl fun before field after hsplit hall => absurd (hall first ?_) hfirst
      cases before with
      | nil => simp [(List.cons.inj hsplit).1]
      | cons => simp [(List.cons.inj hsplit).1]

theorem movedOut_eq_self : m.movedOut types leftover = m.functions ↔
    ∀ id, m.Keeps types id → ∀ function, m.function id = some function →
    function.movedFrom leftover = function := by
  rw [movedOut, List.ext_getElem?_iff]
  simp only [List.getElem?_mapIdx]
  constructor
  · intro h id hkeeps function hf
    have hid := mem_functionIds_of_function hf
    have hat : m.functions[id - 1]? = some function := by
      rwa [Module.function, if_neg (mem_functionIds.mp hid).1] at hf
    have hsucc : id - 1 + 1 = id := Nat.succ_pred_eq_of_ne_zero (mem_functionIds.mp hid).1
    have hmoved := h (id - 1)
    rw [hat, Option.map_some, hsucc, if_pos ((mem_keptIds_iff_keeps hid).mpr hkeeps)] at hmoved
    exact Option.some.inj hmoved
  · intro h i
    cases hat : m.functions[i]? with
    | none => rfl
    | some function =>
      have hf : m.function (i + 1) = some function := hat
      rw [Option.map_some]
      split
      · rename_i hkept
        exact congrArg some <|
          h (i + 1) ((mem_keptIds_iff_keeps (mem_functionIds_of_function hf)).mp hkept) function hf
      · rfl

/-- A filter leaves a position where it is exactly when it keeps everything before it. -/
theorem idxOf_filter_range' {p : Nat → Bool} {n length : Nat} (hn : n ∈ List.range' 1 length) (hp : p n) :
    ((List.range' 1 length).filter p).idxOf n + 1 = n ↔ ∀ k ∈ List.range' 1 length, k < n → p k := by
  obtain ⟨hone, hlt⟩ := List.mem_range'_1.mp hn
  have hsplit : List.range' 1 length = List.range' 1 (n - 1) ++ n :: List.range' (n + 1)
      (length - n) := by
    have happend : List.range' 1 (n - 1) ++ List.range' (1 + (n - 1)) (length - n + 1) =
        List.range' 1 (n - 1 + (length - n + 1)) := List.range'_append_1
    rw [← List.range'_succ]
    rw [show 1 + (n - 1) = n by omega, show n - 1 + (length - n + 1) = length by omega] at happend
    exact happend.symm
  have hnot : n ∉ (List.range' 1 (n - 1)).filter p := fun hmem => by
    have := List.mem_range'_1.mp (List.mem_filter.mp hmem).1
    omega
  have hindex : ((List.range' 1 length).filter p).idxOf n =
      ((List.range' 1 (n - 1)).filter p).length := by
    rw [hsplit, List.filter_append, List.filter_cons_of_pos hp, List.idxOf_append_of_notMem hnot,
      List.idxOf_cons_self, Nat.add_zero]
  have hbefore : (∀ k ∈ List.range' 1 length, k < n → p k) ↔ ∀ k ∈ List.range' 1 (n - 1), p k := by
    refine forall_congr' fun k => ?_
    simp only [List.mem_range'_1]
    exact ⟨fun h hk => h (by omega) (by omega), fun h hk hlt => h (by omega)⟩
  rw [hindex, hbefore, ← List.length_filter_eq_length_iff, List.length_range']
  omega

theorem newId_eq_self (hkept : id ∈ m.keptIds types) :
    m.newId types id = id ↔ ∀ k ∈ m.functionIds, k < id → m.Keeps types k := by
  have hid := (mem_keptIds.mp hkept).1
  rw [newId_of_mem hkept, keptIds, functionIds]
  rw [idxOf_filter_range' hid (by simpa using (mem_keptIds.mp hkept).2)]
  simp only [decide_eq_true_eq, mem_keepSet, Keeps]

theorem initializersExist_iff :
    m.InitializersExist ↔ (m.rewriteInitializers types m.statics).2 = true := by
  rw [rewriteInitializers_done]
  exact forall₂_congr fun field hfield => (rewrites_iff (initializer_mem_keptIds hfield)).symm

theorem statics_eq_self : (m.rewriteInitializers types m.statics).1 = m.statics ↔
    ∀ before field after, m.statics = before ++ field :: after →
      (∀ f ∈ before ++ [field], f.initializer = 0 ∨ f.initializer ∈ m.functionIds) →
      ∀ id ∈ m.functionIds, id < field.initializer → m.Keeps types id := by
  rw [rewriteInitializers_eq_self]
  refine forall₄_congr fun before field after hsplit => ?_
  have hmem : ∀ f ∈ before ++ [field], f ∈ m.statics := by
    intro f hf
    rw [hsplit]
    rw [← List.singleton_append, ← List.append_assoc]
    exact List.mem_append_left _ hf
  refine imp_congr_ctx (forall₂_congr fun f hf =>
    rewrites_iff (initializer_mem_keptIds (hmem f hf))) fun hall => ?_
  have hlast : field ∈ before ++ [field] := List.mem_append_right _ List.mem_cons_self
  cases hall field hlast with
  | inl hzero =>
    rw [hzero, newId_zero]
    exact iff_of_true rfl fun id _ hlt => absurd hlt (Nat.not_lt_zero id)
  | inr hid => exact newId_eq_self (initializer_mem_keptIds (hmem field hlast) hid)

theorem failed_eq_self_iff (hentry : m.entryPoint ∈ m.functionIds) :
    { m with functions := m.movedOut types leftover, entryPoint := m.newId types m.entryPoint
             statics :=
               (m.rewriteInitializers types m.statics).1 } = m ↔ m.NothingToLose types leftover := by
  have hfields : ∀ functions entryPoint statics, { m with functions, entryPoint, statics } = m ↔
      functions = m.functions ∧ entryPoint = m.entryPoint ∧ statics = m.statics := by
    intro functions entryPoint statics
    cases m
    simp only [Module.mk.injEq, true_and]
    tauto
  rw [hfields, movedOut_eq_self, newId_eq_self (mem_keptIds_of_root hentry (.inr (.inl rfl))),
    statics_eq_self]
  exact ⟨fun ⟨hfunctions, hentry, hstatics⟩ => ⟨hfunctions, hentry, hstatics⟩,
    fun h => ⟨h.functions, h.entryPoint, h.statics⟩⟩

/-- A pass that reports no change has left the module as it was exactly when it stopped before the
    first move, or had no missing initializer to stop at, or had nothing to lose. -/
theorem runOnModule_keeps_iff (m : Module) (types : TypeRules) (leftover : String → String) :
    ((m.runOnModule types leftover).1 = false → (m.runOnModule types leftover).2 = m) ↔
      ¬ m.HasDead types ∨ m.InitializersExist ∨ m.NothingToLose types leftover := by
  by_cases hdead : m.HasDead types
  · obtain ⟨entry, hentry⟩ := exists_entry hdead.complete
    rw [runOnModule_of_hasDead hdead, ← failed_eq_self_iff (mem_functionIds_of_function hentry)]
    rw [initializersExist_iff, or_iff_right (not_not_intro hdead)]
    split
    · rename_i hdone
      exact iff_of_true nofun (.inl hdone)
    · rename_i hfailed
      rw [or_iff_right hfailed]
      exact ⟨fun h => h rfl, fun h _ => h⟩
  · rw [runOnModule_of_not_hasDead hdead]
    exact iff_of_true (fun _ => rfl) (.inl hdead)

end

end Module

/-- A dead function, and a static whose initializer does not exist. -/
def missingInitializer : Module :=
  { functions := [{ name := "main", blocks := [{ id := 1 }] }, { name := "dead" }]
    statics := [{ name := "field", initializer := 9 }]
    entryPoint := 1 }

/-- The pass reports no change, and the entry point has lost its name and its body. -/
theorem missingInitializer_loses_main :
    missingInitializer.runOnModule ⟨fun _ => none, fun _ => false, fun _ _ => false, fun _ => "",
      fun _ _ _ _ => []⟩
        (fun _ => "") = (false, { missingInitializer with functions := [{}, { name := "dead" }] }) ∧
      { missingInitializer with functions := [{}, { name := "dead" }] } ≠ missingInitializer := by
  decide +kernel

end zl.mir
