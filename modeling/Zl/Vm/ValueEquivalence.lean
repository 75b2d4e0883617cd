import Zl.Graph.Coinduction
import Zl.Vm.Numeric

open zl.graph.coinduction zl.vm.gc zl.ieee

namespace zl.vm.value

/-- A value of native code. A view is valid while its owner lives. -/
inductive NativeValue where
  | handle (id : Nat)
  | bufferView (data size : Nat) (valid : Bool)
  | structView (data size alignment : Nat) (valid : Bool)
  | callback (id : Nat)
  deriving DecidableEq

/-- What values lead to. -/
structure Memory where
  heap : Heap
  natives : Address → NativeValue

def nestingError : VmError := .runtime "structural comparison nesting exceeds the maximum depth of 500"

def nativeValuesEqual : NativeValue → NativeValue → Except VmError Bool
  | .handle id, .handle id' => .ok (id = id')
  | .bufferView data size _, .bufferView data' size' _ => .ok (data = data' && size = size')
  | .structView data size alignment valid, .structView data' size' alignment' valid' =>
    if valid && valid' then .ok (data = data' && size = size' && alignment = alignment')
    else .error (.runtime "native struct view is not valid or owner is destroyed")
  | .callback id, .callback id' => .ok (id = id')
  | _, _ => .ok false

def isRecord (box : ObjectBox) : Bool := box.runtimeType.any (·.isDataType)

/-- Two records that are compared by their fields. -/
def sameClass (a b : ObjectBox) : Bool := isRecord a && isRecord b && decide (a.className = b.className)

def fieldCount (box : ObjectBox) : Nat := box.fields.length + box.extraFields.entries.length

section
variable (memory : Memory)

/-- `valuesEqual` of two values that are not both objects. -/
def plainValuesEqual (a b : gc.Value) : Except VmError Bool :=
  if isNumericValue a && isNumericValue b then
    if isNaNValue a || isNaNValue b then .ok false else (compareNumbers a b).map (· = 0)
  else
    match a, b with
    | .native a, .native b => nativeValuesEqual (memory.natives a) (memory.natives b)
    | a, b => .ok (a = b)

/-- What `recordValuesEqual` finds out from two handles before it counts how deep it is. -/
def compareHandles (compareFields : Address → Address → Check VmError (Address × Address)) :
    Option Address → Option Address → Check VmError (Address × Address)
  | some a, some b => fun seen =>
    if a = b then .ok (true, seen)
    else if !sameClass (objectAt memory.heap a) (objectAt memory.heap b) then .ok (false, seen)
    else compareFields a b seen
  | a, b => fun seen => .ok (decide (a = b), seen)

/-- A field of one record, against the field of that name of the other. -/
def compareField (visit : Option Address → Option Address → Check VmError (Address × Address))
    (b : ObjectBox)
    (field : String × gc.Value) : Check VmError (Address × Address) := fun seen =>
  match b.objectFieldLookup field.1 with
  | none => .ok (false, seen)
  | some bv =>
    match field.2, bv with
    | .box .object x, .box .object y => visit x y seen
    | av, bv => (plainValuesEqual memory av bv).map (·, seen)

/-- Records, where fields may still be followed `room` deep. -/
def recordValuesEqual : Nat → Option Address → Option Address → Check VmError (Address × Address)
  | 0 => compareHandles memory fun _ _ _ => .error nestingError
  | room + 1 => compareHandles memory fun a b seen =>
    if (a, b) ∈ seen then .ok (true, seen)
    else
      let box := objectAt memory.heap a
      let box' := objectAt memory.heap b
      if fieldCount box ≠ fieldCount box' then .ok (false, (a, b) :: seen)
      else all ((namedFields box).map (compareField memory (recordValuesEqual room) box'))
        ((a, b) :: seen)

/-- Every level up to the maximum depth, and the first one, which is level zero. -/
def maximumRoom : Nat := kMaxValueNestingDepth + 1

def valuesEqual : gc.Value → gc.Value → Except VmError Bool
  | .box .object (some a), .box .object (some b) =>
    if isRecord (objectAt memory.heap a) && isRecord (objectAt memory.heap b) then
      (recordValuesEqual memory maximumRoom (some a) (some b) []).map Prod.fst
    else .ok (a = b)
  | a, b => plainValuesEqual memory a b

/-- Two handles, as a goal of the comparison. -/
def handleGoal : Option Address → Option Address → Goal VmError (Address × Address)
  | some a, some b =>
    if a = b then .now (.ok true)
    else if !sameClass (objectAt memory.heap a) (objectAt memory.heap b) then .now (.ok false)
    else .later (a, b)
  | a, b => .now (.ok (decide (a = b)))

def valueGoal : gc.Value → gc.Value → Goal VmError (Address × Address)
  | .box .object x, .box .object y => handleGoal memory x y
  | a, b => .now (plainValuesEqual memory a b)

def fieldGoal (b : ObjectBox) (field : String × gc.Value) : Goal VmError (Address × Address) :=
  match b.objectFieldLookup field.1 with
  | none => .now (.ok false)
  | some bv => valueGoal memory field.2 bv

def recordGoals (pair : Address × Address) : List (Goal VmError (Address × Address)) :=
  let box := objectAt memory.heap pair.1
  let box' := objectAt memory.heap pair.2
  if fieldCount box ≠ fieldCount box' then [.now (.ok false)] else (namedFields box).map
    (fieldGoal memory box')

/-- The values are the same: some pairs of records can be taken to be equal without contradiction, and
    the values are equal if those records are. -/
def Same (a b : gc.Value) : Prop := ∃ S, Closed (recordGoals memory) S ∧ (valueGoal memory a b).HoldsIn S

end

section
variable {memory : Memory} {a b c : gc.Value} {room : Nat}

theorem compareField_eq (b : ObjectBox) (field : String × gc.Value)
    (h : ∀ x y, recordValuesEqual memory room x y = (handleGoal memory x y).check
      (visit (recordGoals memory) nestingError room)) :
    compareField memory (recordValuesEqual memory room) b field =
      (fieldGoal memory b field).check (visit (recordGoals memory) nestingError room) := by
  funext seen
  unfold compareField fieldGoal
  split
  · rfl
  · unfold valueGoal
    split
    · rw [h]
    · rfl

theorem compareHandles_eq {compareFields : Address → Address → Check VmError (Address × Address)}
    {depth : Nat} (h : ∀ a b, compareFields a b = visit (recordGoals memory) nestingError depth (a, b))
    (x y : Option Address) :
    compareHandles memory compareFields x y = (handleGoal memory x y).check
      (visit (recordGoals memory) nestingError depth) := by
  funext seen
  unfold compareHandles handleGoal
  split
  · split
    · rfl
    · split
      · rfl
      · rw [h]
        rfl
  · rfl

/-- The comparison of records is the search of their goals. -/
theorem recordValuesEqual_eq (room : Nat) (x y : Option Address) :
    recordValuesEqual memory room x y = (handleGoal memory x y).check
      (visit (recordGoals memory) nestingError room) := by
  induction room generalizing x y with
  | zero =>
    rw [recordValuesEqual]
    exact @compareHandles_eq memory _ 0 (fun a b => rfl) x y
  | succ room ih =>
    rw [recordValuesEqual]
    refine compareHandles_eq (fun a b => ?_) x y
    funext seen
    rw [visit, recordGoals]
    by_cases hmem : (a, b) ∈ seen
    · rw [if_pos hmem, if_pos hmem]
    · rw [if_neg hmem, if_neg hmem]
      by_cases hcount : fieldCount (objectAt memory.heap a) ≠ fieldCount (objectAt memory.heap b)
      · rw [if_pos hcount, if_pos hcount]
        rfl
      · rw [if_neg hcount, if_neg hcount, List.map_map]
        congr 1
        exact List.map_congr_left fun field _ => compareField_eq _ field ih

end

section
variable {box : ObjectBox} {name : String} {v : gc.Value}

/-- The declared names of an object, in the order of their slots. -/
def declaredNames (box : ObjectBox) : List String :=
  (box.runtimeType.map RuntimeTypeInfo.instanceFieldNames).getD []

theorem namedFields_eq (box : ObjectBox) : namedFields box = (declaredNames box).zip box.fields ++
    box.extraFields.entries.map fun field => (field.1, field.2) := rfl

theorem nodup_declaredNames (box : ObjectBox) : (declaredNames box).Nodup := by
  unfold declaredNames
  cases box.runtimeType with
  | none => exact List.nodup_nil
  | some type => exact type.nodup_instanceFieldNames

theorem objectFieldSlot_eq (box : ObjectBox) (name : String) :
    box.objectFieldSlot name = (declaredNames box).findIdx? (· = name) := by
  unfold ObjectFields.objectFieldSlot declaredNames
  cases box.runtimeType with
  | none => rfl
  | some type => rfl

theorem objectFieldSlot_eq_some_iff {slot : Nat} : box.objectFieldSlot name = some slot ↔
    (declaredNames box)[slot]? = some name := by
  rw [objectFieldSlot_eq, List.findIdx?_eq_some_iff_getElem]
  constructor
  · rintro ⟨hlt, hname, -⟩
    rw [List.getElem?_eq_getElem hlt, of_decide_eq_true hname]
  · intro h
    obtain ⟨hlt, hname⟩ := List.getElem?_eq_some_iff.mp h
    refine ⟨hlt, decide_eq_true hname, fun j hj heq => ?_⟩
    have heq := of_decide_eq_true heq
    have := (nodup_declaredNames box).getElem_inj_iff.mp (heq.trans hname.symm)
    omega

theorem objectFieldSlot_eq_none_iff : box.objectFieldSlot name = none ↔ name ∉ declaredNames box := by
  rw [objectFieldSlot_eq, List.findIdx?_eq_none_iff]
  constructor
  · exact fun h hmem => of_decide_eq_false (h name hmem) rfl
  · exact fun h x hx => decide_eq_false fun heq => h (heq ▸ hx)

theorem length_namedFields (box : ObjectBox) : (namedFields box).length = fieldCount box := by
  have hle := box.fields_le
  have hlength : (declaredNames box).length =
      (box.runtimeType.map RuntimeTypeInfo.instanceFieldCount).getD 0 := by
    unfold declaredNames
    cases box.runtimeType with
    | none => rfl
    | some type => rfl
  rw [namedFields_eq, List.length_append, List.length_zip, List.length_map, hlength,
    Nat.min_eq_right hle]
  rfl

theorem mem_extraFields {box : ObjectBox} : (name, v) ∈ box.extraFields.entries.map
    (fun field => (field.1, field.2)) ↔ box.extraFields.lookup name = some v := by
  rw [← Option.mem_def, AList.mem_lookup_iff]
  constructor
  · intro h
    obtain ⟨field, hfield, heq⟩ := List.mem_map.mp h
    cases heq
    exact hfield
  · exact fun h => List.mem_map.mpr ⟨⟨name, v⟩, h, rfl⟩

theorem objectFieldLookup_eq_some_iff : box.objectFieldLookup name = some v ↔
    (name, v) ∈ namedFields box := by
  have hzip : (name, v) ∈ (declaredNames box).zip box.fields ↔
      ∃ slot : Nat, (declaredNames box)[slot]? = some name ∧ box.fields[slot]? = some v := by
    rw [List.mem_iff_getElem?]
    simp only [List.getElem?_zip_eq_some]
  rw [namedFields_eq, List.mem_append, hzip, mem_extraFields]
  unfold ObjectFields.objectFieldLookup
  split
  next slot hslot =>
    have hname := objectFieldSlot_eq_some_iff.mp hslot
    constructor
    · exact fun hv => .inl ⟨slot, hname, hv⟩
    · rintro (⟨slot', hname', hv⟩ | hextra)
      · rw [Option.some.inj (hslot.symm.trans (objectFieldSlot_eq_some_iff.mpr hname'))]
        exact hv
      · have hundeclared := box.extra_undeclared name (AList.lookup_isSome.mp (hextra ▸ rfl))
        rw [hslot] at hundeclared
        nomatch hundeclared
  next hslot =>
    refine ⟨.inr, fun h => h.resolve_left ?_⟩
    rintro ⟨slot, hname, -⟩
    rw [objectFieldSlot_eq_some_iff.mpr hname] at hslot
    nomatch hslot

theorem nodup_fieldNames (box : ObjectBox) : ((namedFields box).map Prod.fst).Nodup := by
  rw [namedFields_eq, List.map_append, List.nodup_append, List.map_map]
  have hsub : (((declaredNames box).zip box.fields).map Prod.fst).Sublist (declaredNames box) := by
    rw [List.zip_eq_zip_take_min, List.map_fst_zip (by simp)]
    exact List.take_sublist _ _
  refine ⟨(nodup_declaredNames box).sublist hsub, box.extraFields.nodupKeys, fun a ha b hb heq => ?_⟩
  exact objectFieldSlot_eq_none_iff.mp (box.extra_undeclared b hb) (heq ▸ hsub.subset ha)

end

section
variable {memory : Memory} {a b c : gc.Value}

theorem nativeValuesEqual_symm {a b : NativeValue} (h : nativeValuesEqual a b = .ok true) :
    nativeValuesEqual b a = .ok true := by
  cases a <;> cases b <;> simp_all [nativeValuesEqual, ite_eq_iff]

theorem nativeValuesEqual_trans {a b c : NativeValue} (hab : nativeValuesEqual a b = .ok true)
    (hbc : nativeValuesEqual b c = .ok true) : nativeValuesEqual a c = .ok true := by
  cases a <;> cases b <;> cases c <;> simp_all [nativeValuesEqual, ite_eq_iff]

theorem plainValuesEqual_numeric (ha : isNumericValue a = true) (hb : isNumericValue b = true) :
    plainValuesEqual memory a b = .ok
      (!isNaNValue a && !isNaNValue b && decide (exactUnits a = exactUnits b)) := by
  unfold plainValuesEqual
  rw [ha, hb, Bool.and_self, if_pos rfl]
  cases hnan : isNaNValue a with
  | true => rfl
  | false =>
    cases hnan' : isNaNValue b with
    | true => rfl
    | false =>
      rw [compareNumbers_eq ha hb hnan hnan', if_neg (by decide), Except.map]
      simp [Int.sign_eq_zero_iff_zero, Int.sub_eq_zero]

theorem plainValuesEqual_native (r r' : Address) : plainValuesEqual memory (.native r) (.native r') =
    nativeValuesEqual (memory.natives r) (memory.natives r') := rfl

theorem plainValuesEqual_other (hnumeric : ¬(isNumericValue a = true ∧ isNumericValue b = true))
    (hnative : ∀ r r', a = .native r → b ≠ .native r') :
    plainValuesEqual memory a b = .ok (decide (a = b)) := by
  rw [plainValuesEqual, if_neg (by simpa using hnumeric)]
  exact hnative

/-- Equality is an equivalence of the values that are not objects: it keeps them in three kinds. -/
theorem plainValuesEqual_eq_true_iff : plainValuesEqual memory a b = .ok true ↔
    (isNumericValue a = true ∧ isNumericValue b = true ∧ isNaNValue a = false ∧
      isNaNValue b = false ∧ exactUnits a = exactUnits b) ∨
      (∃ r r', a = .native r ∧ b = .native r' ∧
      nativeValuesEqual (memory.natives r) (memory.natives r') = .ok true) ∨
      (isNumericValue a = false ∧ (∀ r, a ≠ .native r) ∧ a = b) := by
  by_cases hnumeric : isNumericValue a = true ∧ isNumericValue b = true
  · have hnative (r : Address) : a ≠ .native r := by
      rintro rfl
      nomatch hnumeric.1
    rw [plainValuesEqual_numeric hnumeric.1 hnumeric.2]
    simp [hnumeric, hnative, and_assoc]
  · by_cases hnative : ∃ r r', a = .native r ∧ b = .native r'
    · obtain ⟨r, r', rfl, rfl⟩ := hnative
      simp [plainValuesEqual_native, isNumericValue]
    · rw [plainValuesEqual_other hnumeric fun r r' ha hb => hnative ⟨r, r', ha, hb⟩]
      simp only [Except.ok.injEq, decide_eq_true_eq]
      constructor
      · rintro rfl
        refine .inr (.inr ⟨Bool.eq_false_iff.mpr fun h => hnumeric ⟨h, h⟩, ?_, rfl⟩)
        exact fun r ha => hnative ⟨r, r, ha, ha⟩
      · rintro (⟨ha, hb, -⟩ | ⟨r, r', ha, hb, -⟩ | ⟨-, -, heq⟩)
        · exact absurd ⟨ha, hb⟩ hnumeric
        · exact absurd ⟨r, r', ha, hb⟩ hnative
        · exact heq

theorem plainValuesEqual_symm (h : plainValuesEqual memory a b = .ok true) :
    plainValuesEqual memory b a = .ok true := by
  rcases plainValuesEqual_eq_true_iff.mp h with ⟨ha, hb, hnan, hnan', heq⟩ | ⟨r, r', rfl, rfl,
    heq⟩ | ⟨-, -, rfl⟩
  · exact plainValuesEqual_eq_true_iff.mpr (.inl ⟨hb, ha, hnan', hnan, heq.symm⟩)
  · exact nativeValuesEqual_symm heq
  · exact h

theorem plainValuesEqual_trans (hab : plainValuesEqual memory a b = .ok true)
    (hbc : plainValuesEqual memory b c = .ok true) :
    plainValuesEqual memory a c = .ok true := by
  rcases plainValuesEqual_eq_true_iff.mp hab with ⟨ha, hb, hnan, hnan', heq⟩ | ⟨r, r', rfl, rfl,
    heq⟩ | ⟨-, -, rfl⟩
  · rcases plainValuesEqual_eq_true_iff.mp hbc with ⟨-, hc, -, hnan'', heq'⟩ | ⟨r, r', rfl, -,
      -⟩ | ⟨hnot, -, -⟩
    · exact plainValuesEqual_eq_true_iff.mpr (.inl ⟨ha, hc, hnan, hnan'', heq.trans heq'⟩)
    · nomatch hb
    · exact absurd hb (by rw [hnot]; exact Bool.false_ne_true)
  · rcases plainValuesEqual_eq_true_iff.mp hbc with ⟨hb, -⟩ | ⟨s, s', hs, rfl, heq'⟩ | ⟨-, hnot, -⟩
    · nomatch hb
    · cases hs
      exact nativeValuesEqual_trans heq heq'
    · exact absurd rfl (hnot r')
  · exact hbc

end

section
variable {memory : Memory} {a b c : gc.Value} {x y z : Option Address} {p q r : Address}
  {S T : Address × Address → Prop}

theorem sameClass_iff {a b : ObjectBox} :
    sameClass a b = true ↔ isRecord a = true ∧ isRecord b = true ∧ a.className = b.className := by
  simp [sameClass, and_assoc]

/-- When two handles are equal, given pairs that are. -/
def HandlesSame (memory : Memory) (S : Address × Address → Prop) (x y : Option Address) : Prop :=
  x = y ∨ ∃ p q, x = some p ∧ y = some q ∧
    sameClass (objectAt memory.heap p) (objectAt memory.heap q) = true ∧ S (p, q)

/-- When two values are equal, given pairs of records that are. -/
def ValuesSame (memory : Memory) (S : Address × Address → Prop) (a b : gc.Value) : Prop :=
  (∃ x y, a = .box .object x ∧ b = .box .object y ∧ HandlesSame memory S x y) ∨
    (¬∃ x y, a = .box .object x ∧ b = .box .object y) ∧ plainValuesEqual memory a b = .ok true

theorem handleGoal_holdsIn : (handleGoal memory x y).HoldsIn S → HandlesSame memory S x y := by
  unfold handleGoal
  split
  next p q =>
    split
    next heq => exact fun _ => .inl (heq ▸ rfl)
    next =>
      split
      · exact nofun
      next hclass => exact fun h => .inr ⟨p, q, rfl, rfl, by simpa using hclass, h⟩
  next => exact fun h => .inl (of_decide_eq_true (Except.ok.inj h))

theorem HandlesSame.holdsIn (h : HandlesSame memory S x y) : (handleGoal memory x y).HoldsIn S := by
  rcases h with rfl | ⟨p, q, rfl, rfl, hclass, hS⟩
  · cases x with
    | none => rfl
    | some p =>
      rw [handleGoal, if_pos rfl]
      rfl
  · rw [handleGoal]
    split
    · rfl
    · rw [hclass]
      exact hS

theorem valueGoal_holdsIn_iff : (valueGoal memory a b).HoldsIn S ↔ ValuesSame memory S a b := by
  unfold valueGoal
  split
  next x y =>
    constructor
    · exact fun h => .inl ⟨x, y, rfl, rfl, handleGoal_holdsIn h⟩
    · rintro (⟨x', y', hx, hy, h⟩ | ⟨hnot, -⟩)
      · cases hx
        cases hy
        exact h.holdsIn
      · exact absurd ⟨x, y, rfl, rfl⟩ hnot
  next hnot =>
    have hnot' : ¬∃ x y, a = .box .object x ∧ b = .box .object y := fun ⟨x, y, hx, hy⟩ => hnot x y hx hy
    exact ⟨fun h => .inr ⟨hnot', h⟩, fun h => (h.resolve_left fun ⟨x, y, hx, hy, _⟩ => hnot x y hx hy).2⟩

/-- The pairs are records of one class, as far as they are compared, whose fields agree. -/
structure Bisimulation (memory : Memory) (S : Address × Address → Prop) : Prop where
  count : ∀ p q, S (p, q) → fieldCount (objectAt memory.heap p) = fieldCount (objectAt memory.heap q)
  fields : ∀ p q, S (p, q) → ∀ field ∈ namedFields (objectAt memory.heap p),
    ∃ v, (objectAt memory.heap q).objectFieldLookup field.1 = some v ∧ ValuesSame memory S field.2 v

theorem closed_iff : Closed (recordGoals memory) S ↔ Bisimulation memory S := by
  have hgoals (p q : Address) : (∀ g ∈ recordGoals memory (p, q), g.HoldsIn S) ↔
      fieldCount (objectAt memory.heap p) = fieldCount (objectAt memory.heap q) ∧
        ∀ field ∈ namedFields (objectAt memory.heap p),
          ∃ v, (objectAt memory.heap q).objectFieldLookup field.1 = some v ∧
          ValuesSame memory S field.2 v := by
    have hfield (field : String × gc.Value) :
        (fieldGoal memory (objectAt memory.heap q) field).HoldsIn S ↔ ∃ v,
        (objectAt memory.heap q).objectFieldLookup field.1 = some v ∧ ValuesSame memory S field.2 v := by
      unfold fieldGoal
      split
      next hnone => exact ⟨nofun, fun ⟨v, hv, _⟩ => nomatch hnone.symm.trans hv⟩
      next v hv =>
        rw [valueGoal_holdsIn_iff]
        exact ⟨fun h => ⟨v, hv, h⟩, fun ⟨v', hv', h⟩ => Option.some.inj (hv'.symm.trans hv) ▸ h⟩
    rw [recordGoals]
    by_cases hcount : fieldCount (objectAt memory.heap p) = fieldCount (objectAt memory.heap q)
    · rw [if_neg (not_not.mpr hcount), List.forall_mem_map]
      simp only [hfield, hcount, true_and]
    · rw [if_pos hcount, List.forall_mem_singleton]
      exact ⟨nofun, fun h => absurd h.1 hcount⟩
  constructor
  · exact fun h => ⟨fun p q hS => ((hgoals p q).mp (h (p, q) hS)).1, fun p q hS =>
      ((hgoals p q).mp (h (p, q) hS)).2⟩
  · exact fun h pair hS => (hgoals pair.1 pair.2).mpr ⟨h.count _ _ hS, h.fields _ _ hS⟩

theorem same_iff : Same memory a b ↔ ∃ S, Bisimulation memory S ∧ ValuesSame memory S a b := by
  unfold Same
  simp only [closed_iff, valueGoal_holdsIn_iff]

end

end zl.vm.value
