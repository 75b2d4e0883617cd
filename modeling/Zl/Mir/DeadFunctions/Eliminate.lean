import Zl.Mir.DeadFunctions.ReachableFunctions

open Relation zl.graph

namespace zl.mir

/-- The callee an instruction names, under the new id of that function. -/
def Instruction.retarget (newId : FunctionId → FunctionId) (instruction : Instruction) : Instruction :=
  { instruction with target := { instruction.target with function := newId instruction.target.function } }

def BasicBlock.retarget (newId : FunctionId → FunctionId) (block : BasicBlock) : BasicBlock :=
  { block with instructions := block.instructions.map (·.retarget newId) }

def Function.retarget (newId : FunctionId → FunctionId) (function : Function) : Function :=
  { function with blocks := function.blocks.map (·.retarget newId) }

/-- Where the pass leaves a module, and the id it gives each function it keeps. -/
structure Elimination where
  module : Module
  newId : FunctionId → FunctionId
  changed : Bool

namespace Module

/-- The reachable functions, the entry point and every static initializer. -/
def keepRoots (m : Module) (types : TypeRules) : List FunctionId :=
  m.functionIds.filter fun id => id ∈ (m.reachableFunctions types).functions || id = m.entryPoint ||
    id ∈ m.statics.map (·.initializer)

/-- The callees the instructions of a function name. -/
def namedCallees (m : Module) (id : FunctionId) : List FunctionId :=
  match m.function id with
  | none => []
  | some function => (function.instructions.map (·.target.function)).filter (· ≠ 0)

/-- The roots, closed under the callees that instructions name. -/
def keepSet (m : Module) (types : TypeRules) : List FunctionId :=
  breadthFirst (fun id => (m.namedCallees id).filter (· ≤ m.functions.length)) m.functions.length
    (m.keepRoots types, m.keepRoots types)

/-- The kept functions, in module order. -/
def keptIds (m : Module) (types : TypeRules) : List FunctionId :=
  m.functionIds.filter (· ∈ m.keepSet types)

/-- The position a kept function moves to, and no function for the others. -/
def newId (m : Module) (types : TypeRules) (id : FunctionId) : FunctionId :=
  if id ∈ m.keptIds types then (m.keptIds types).idxOf id + 1 else 0

/-- The module of the kept functions, all ids rewritten. -/
def withKept (m : Module) (types : TypeRules) : Module :=
  { m with
    functions := (m.keptIds types).filterMap fun id => (m.function id).map (·.retarget (m.newId types))
    entryPoint := m.newId types m.entryPoint
    statics := m.statics.map fun field => { field with initializer := m.newId types field.initializer } }

/-- The pass. It refuses an open report and a callee that does not exist, and has nothing to do
    when all functions are kept. An initializer that cannot be rewritten ends it after the kept
    functions were moved out of the module, which is the missing result. -/
def eliminateDeadFunctions (m : Module) (types : TypeRules) : Option Elimination :=
  if !(m.reachableFunctions types).complete then some ⟨m, id, false⟩
  else if (m.keepSet types).any fun id =>
    (m.namedCallees id).any (m.functions.length < ·) then some ⟨m, id, false⟩
  else if (m.keptIds types).length = m.functions.length then some ⟨m, id, false⟩
  else if m.statics.any fun field =>
    field.initializer ≠ 0 && m.newId types field.initializer = 0 then none
  else some ⟨m.withKept types, m.newId types, true⟩

/-- What the module verifier checks and the pass relies on: the initializers are functions of the
    module, and no two classes share a name. -/
structure Verified (m : Module) : Prop where
  initializer_exists : ∀ field ∈ m.statics, field.initializer ≠ 0 → field.initializer ∈ m.functionIds
  class_names_nodup : (m.classes.map (·.name)).Nodup

section
variable {m : Module} {types : TypeRules} {id callee : FunctionId} {function : Function}

theorem mem_keepSet : id ∈ m.keepSet types ↔ ∃ root ∈ m.keepRoots types,
    ReflTransGen (fun a b => b ∈ (m.namedCallees a).filter (· ≤ m.functions.length)) root id := by
  have hnodup : (m.keepRoots types).Nodup := (nodup_functionIds m).filter _
  have hbound : ∀ root ∈ m.keepRoots types, ∀ v,
      ReflTransGen (fun a b => b ∈ (m.namedCallees a).filter (· ≤ m.functions.length)) root v →
      v ∈ m.functionIds := by
    intro root hroot v hpath
    cases hpath with
    | refl => exact (List.mem_filter.mp hroot).1
    | tail _ hlast =>
      obtain ⟨hcallee, hle⟩ := List.mem_filter.mp hlast
      refine mem_functionIds.mpr ⟨?_, of_decide_eq_true hle⟩
      unfold namedCallees at hcallee
      split at hcallee
      · nomatch hcallee
      · exact of_decide_eq_true (List.mem_filter.mp hcallee).2
  exact mem_breadthFirst_iff hnodup hbound (by simp [functionIds])

theorem mem_keptIds : id ∈ m.keptIds types ↔ id ∈ m.functionIds ∧ id ∈ m.keepSet types := by
  rw [keptIds, List.mem_filter, decide_eq_true_iff]

theorem nodup_keptIds (m : Module) (types : TypeRules) : (m.keptIds types).Nodup :=
  (nodup_functionIds m).filter _

theorem mem_keptIds_of_root (hid : id ∈ m.functionIds)
    (h : id ∈ (m.reachableFunctions types).functions ∨ id = m.entryPoint ∨
      id ∈ m.statics.map (·.initializer)) :
    id ∈ m.keptIds types := by
  refine mem_keptIds.mpr ⟨hid, mem_keepSet.mpr ⟨id, List.mem_filter.mpr ⟨hid, ?_⟩, .refl⟩⟩
  simpa [or_assoc] using h

theorem mem_namedCallees (hf : m.function id = some function) {instruction : Instruction}
    (hinstruction : instruction ∈ function.instructions) (hne : instruction.target.function ≠ 0) :
    instruction.target.function ∈ m.namedCallees id := by
  simp only [namedCallees, hf]
  exact List.mem_filter.mpr ⟨List.mem_map_of_mem hinstruction, by simpa using hne⟩

theorem mem_keptIds_of_named
    (haccepted : ¬ (m.keepSet types).any fun id => (m.namedCallees id).any (m.functions.length < ·))
    (hkept : id ∈ m.keptIds types) (hcallee : callee ∈ m.namedCallees id) (hne : callee ≠ 0) :
    callee ∈ m.keptIds types := by
  obtain ⟨-, hkeep⟩ := mem_keptIds.mp hkept
  have hle : callee ≤ m.functions.length := by
    by_contra hgt
    refine haccepted (List.any_eq_true.mpr ⟨id, hkeep, List.any_eq_true.mpr ⟨callee, hcallee, ?_⟩⟩)
    exact decide_eq_true (Nat.lt_of_not_le hgt)
  obtain ⟨root, hroot, hpath⟩ := mem_keepSet.mp hkeep
  refine mem_keptIds.mpr ⟨mem_functionIds.mpr ⟨hne, hle⟩, mem_keepSet.mpr ⟨root, hroot, hpath.tail ?_⟩⟩
  exact List.mem_filter.mpr ⟨hcallee, decide_eq_true hle⟩

theorem newId_eq_zero (h : id ∉ m.keptIds types) : m.newId types id = 0 := if_neg h

theorem newId_of_mem (h : id ∈ m.keptIds types) :
    m.newId types id = (m.keptIds types).idxOf id + 1 := if_pos h

theorem newId_zero (m : Module) (types : TypeRules) : m.newId types 0 = 0 :=
  newId_eq_zero fun h => (mem_functionIds.mp (mem_keptIds.mp h).1).1 rfl

theorem getElem?_filterMap_of_total {A B : Type} {g : A → Option B} {l : List A}
    (h : ∀ a ∈ l, ∃ b, g a = some b) (i : Nat) : (l.filterMap g)[i]? = l[i]?.bind g := by
  induction l generalizing i with
  | nil => simp
  | cons a l ih =>
    obtain ⟨b, hb⟩ := h a List.mem_cons_self
    rw [List.filterMap_cons_some hb]
    cases i with
    | zero => simp [hb]
    | succ i => simpa using ih (fun a ha => h a (List.mem_cons_of_mem _ ha)) i

theorem length_filterMap_of_total {A B : Type} {g : A → Option B} {l : List A}
    (h : ∀ a ∈ l, ∃ b, g a = some b) :
    (l.filterMap g).length = l.length := by
  induction l with
  | nil => rfl
  | cons a l ih =>
    obtain ⟨b, hb⟩ := h a List.mem_cons_self
    rw [List.filterMap_cons_some hb, List.length_cons, List.length_cons, ih fun a ha =>
      h a (List.mem_cons_of_mem _ ha)]

theorem exists_retargeted (h : id ∈ m.keptIds types) :
    ∃ function, (m.function id).map (·.retarget (m.newId types)) = some function := by
  obtain ⟨function, hf⟩ := exists_function (mem_keptIds.mp h).1
  exact ⟨function.retarget (m.newId types), by simp [hf]⟩

theorem function_withKept (h : id ∈ m.keptIds types) :
    (m.withKept types).function (m.newId types id) =
      (m.function id).map (·.retarget (m.newId types)) := by
  rw [newId_of_mem h, function, if_neg (Nat.succ_ne_zero _), Nat.add_sub_cancel]
  show ((m.keptIds types).filterMap _)[_]? = _
  rw [getElem?_filterMap_of_total (fun _ => exists_retargeted), List.getElem?_idxOf h]
  rfl

theorem length_withKept (m : Module) (types : TypeRules) :
    (m.withKept types).functions.length = (m.keptIds types).length :=
  length_filterMap_of_total fun _ => exists_retargeted

theorem functionIds_withKept (m : Module) (types : TypeRules) :
    (m.withKept types).functionIds = (m.keptIds types).map (m.newId types) := by
  rw [functionIds, length_withKept]
  refine List.ext_getElem (by simp) fun i hi hi' => ?_
  have hlt : i < (m.keptIds types).length := by simpa using hi
  rw [List.getElem_range', List.getElem_map, newId_of_mem (List.getElem_mem hlt),
    (nodup_keptIds m types).idxOf_getElem]
  omega

/-- What a search by a property of functions finds in the new module: the kept ones of what it
    finds in the old module, in the same order. -/
theorem functionsWith_withKept {p : Function → Bool}
    (hp : ∀ function newId, p (Function.retarget newId function) = p function) :
    (m.withKept types).functionsWith p =
      ((m.functionsWith p).filter (· ∈ m.keptIds types)).map (m.newId types) := by
  rw [functionsWith, functionIds_withKept, List.filter_map]
  congr 1
  rw [functionsWith, List.filter_filter, keptIds, List.filter_filter, ← keptIds]
  refine List.filter_congr fun id hid => ?_
  by_cases hkept : id ∈ m.keptIds types
  · have hkeep := (mem_keptIds.mp hkept).2
    simp only [Function.comp_apply, function_withKept hkept, Option.any_map, hp, hkeep, hkept,
      decide_true, Bool.and_true, Bool.true_and]
  · have hkeep : id ∉ m.keepSet types := fun hkeep => hkept (mem_keptIds.mpr ⟨hid, hkeep⟩)
    simp [hkeep, hkept]

/-- A verified module is never left half rewritten. -/
theorem exists_elimination (hverified : m.Verified) (types : TypeRules) :
    ∃ e, m.eliminateDeadFunctions types = some e := by
  unfold eliminateDeadFunctions
  split
  · exact ⟨_, rfl⟩
  · split
    · exact ⟨_, rfl⟩
    · split
      · exact ⟨_, rfl⟩
      · rw [if_neg]
        · exact ⟨_, rfl⟩
        · rw [Bool.not_eq_true, List.any_eq_false]
          intro field hfield h
          simp only [Bool.and_eq_true, decide_eq_true_eq] at h
          have hkept : field.initializer ∈ m.keptIds types :=
            mem_keptIds_of_root (hverified.initializer_exists field hfield h.1)
              (.inr (.inr (List.mem_map_of_mem hfield)))
          rw [newId_of_mem hkept] at h
          exact Nat.succ_ne_zero _ h.2

end

end Module

end zl.mir
