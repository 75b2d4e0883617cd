import Zl.Vm.Contract.CheckOutcome
import Zl.Vm.RuntimeType

namespace zl.vm.contract

/-- The metadata of a class. Its layout gives a slot to each of its instance fields. -/
structure ClassReflectionInfo where
  baseClassName : String := ""
  baseTypeName : List Char := []
  typeParameters : List String := []
  isEnumType : Bool := false
  enumMembers : List String := []
  fields : List RuntimeFieldInfo
  runtimeType : Option RuntimeTypeInfo
  layout : ∀ type ∈ runtimeType, ∀ field ∈ fields, field.isStatic = false →
    (type.fieldIndex field.name).isSome = true

/-- What the initialisation reads of a chunk, and the name of its type that an object goes by. -/
structure ReflectionTable (O : Type) where
  classReflection : List (String × ClassReflectionInfo)
  reflectiveObjectMatches : O → List Char → Bool
  objectTypeName : O → List Char

def ReflectionTable.chunk {O : Type} (table : ReflectionTable O) : Chunk O where
  classReflection name := (table.classReflection.lookup name).map fun info =>
    ⟨info.isEnumType, info.enumMembers⟩
  reflectiveObjectMatches := table.reflectiveObjectMatches

/-- An object. Before it has its runtime type each field it is given goes to `extraFields`. -/
structure ObjectBox (R O : Type) extends ObjectFields (Value R O) where
  className : String
  genericTypeName : List Char := []

abbrev RuntimeTypeBindings := List (String × List Char)

mutual

def substituteSpec (bindings : RuntimeTypeBindings) : TypeName → TypeName
  | .named name args fixedSize =>
    match bindings.lookup name with
    | some bound =>
      if args.isEmpty then parseTypeName bound
      else .named name (substituteAll bindings args) fixedSize
    | none => .named name (substituteAll bindings args) fixedSize
  | .union members => .union (substituteAll bindings members)

def substituteAll (bindings : RuntimeTypeBindings) : List TypeName → List TypeName
  | [] => []
  | type :: types => substituteSpec bindings type :: substituteAll bindings types

end

/-- The rendered tree is parsed once more, as an argument can be a union. -/
def substituteTypeParams (typeName : List Char) (bindings : RuntimeTypeBindings) : List Char :=
  if bindings.isEmpty ∨ typeName.isEmpty then typeName
  else describeTypeName (parseTypeName (describeTypeName (substituteSpec bindings (parseTypeName typeName))))

def specName : TypeName → String
  | .named name _ _ => name
  | .union _ => ""

def specArgs : TypeName → List TypeName
  | .named _ args _ => args
  | .union _ => []

def bindTypeParameters (info : ClassReflectionInfo) (typeName : List Char) : RuntimeTypeBindings :=
  let args := specArgs (parseTypeName typeName)
  if info.typeParameters.length ≠ args.length then []
  else info.typeParameters.zip (args.map describeTypeName)

section
variable {R O : Type} (table : ReflectionTable O)

/-- The name of the type as which the declaring class is inherited, with the arguments that
    each `extends` on the way gives. -/
def typeUpTo (declaringClass : String) : Nat → String → List Char → List Char
  | 0, _, _ => []
  | depth + 1, className, typeName =>
    if className = declaringClass then typeName
    else
      match table.classReflection.lookup className with
      | none => []
      | some info =>
        if info.baseClassName = "" then []
        else
          let base := if info.baseTypeName = [] then info.baseClassName.toList else info.baseTypeName
          typeUpTo declaringClass depth info.baseClassName
            (substituteTypeParams base (bindTypeParameters info typeName))

def typeInHierarchy (receiver : ObjectBox R O) (declaringClass : String) : List Char :=
  typeUpTo table declaringClass (table.classReflection.length + 1) receiver.className
    (if receiver.genericTypeName = [] then receiver.className.toList else receiver.genericTypeName)

def receiverTypeBindings (receiver : ObjectBox R O) (declaringClass : String) : RuntimeTypeBindings :=
  match table.classReflection.lookup declaringClass with
  | none => []
  | some info => bindTypeParameters info (typeInHierarchy table receiver declaringClass)

/-- The type of an instance field, with the arguments of the receiver. -/
def runtimeFieldType (className fieldName : String) (receiver : ObjectBox R O) : Except String (List Char) :=
  match table.classReflection.lookup className with
  | none => .error ("VM: missing class metadata for " ++ className)
  | some info =>
    match info.fields.find? fun field => field.name = fieldName with
    | none => .error ("VM: unknown field '" ++ className ++ "." ++ fieldName ++ "'")
    | some field =>
      if field.isStatic then .error "VM: invalid static/instance field access"
      else .ok (substituteTypeParams field.typeName
        (receiverTypeBindings table receiver field.ownerClassName))

/-- The zero of a value type; a union that takes nil starts as nil, any other as its first
    member, and an enumeration as its first member. -/
def defaultFieldSpecValue : TypeName → Value R O
  | .union members =>
    if runtimeAssignableToMember table.chunk (fun _ _ => false) (.nil : Value R O) members then .nil
    else
      match members with
      | [] => .nil
      | member :: _ => defaultFieldSpecValue member
  | .named base _ _ =>
    if base = "int" then .int 0
    else if base = "double" ∨ base = "float" ∨ base = "decimal" then .double 0
    else if base = "bool" then .bool false
    else if base = "string" then .string ""
    else
      match table.classReflection.lookup base with
      | none => .nil
      | some info =>
        match info.enumMembers with
        | [] => .nil
        | member :: _ => if info.isEnumType then .string member else .nil

def defaultFieldValue (typeName : List Char) : Value R O :=
  defaultFieldSpecValue table (parseTypeName typeName)

end

section
variable {R O : Type} (type : RuntimeTypeInfo)

/-- A vector grows with nil up to a slot, and the slot is written. -/
def writeSlot (fields : List (Value R O)) (slot : Nat) (value : Value R O) : List (Value R O) :=
  (fields ++ List.replicate (slot + 1 - fields.length) Value.nil).set slot value

/-- Move the fields of some names into their slots. -/
def materialise : List String → List (Value R O) × AList (fun _ : String => Value R O) →
    List (Value R O) × AList (fun _ : String => Value R O)
  | [], stores => stores
  | name :: pending, (fields, extraFields) =>
    match type.fieldIndex name with
    | none => materialise pending (fields, extraFields)
    | some slot =>
      materialise pending (writeSlot fields slot ((extraFields.lookup name).getD Value.nil),
        extraFields.erase name)

end

section
variable {R O : Type} [DecidableEq R] (table : ReflectionTable O) (heap : Heap R O) (fuel : Nat)
  (type : RuntimeTypeInfo) (receiver : ObjectBox R O)

/-- The loop over the declared fields that gives a default to the slots there are not yet. -/
def defaultFields : List RuntimeFieldInfo → List (Value R O) → Except String (List (Value R O))
  | [], fields => .ok fields
  | field :: rest, fields =>
    if field.isStatic then defaultFields rest fields
    else
      match type.fieldIndex field.name with
      | none => defaultFields rest fields
      | some slot =>
        if fields.length ≤ slot then do
          let typeName ← runtimeFieldType table receiver.className field.name receiver
          defaultFields rest (writeSlot fields slot (defaultFieldValue table typeName))
        else defaultFields rest fields

def containerTypeName (held : Container R O) : List Char :=
  match held.contents, held.storageType with
  | .list _, none => "list".toList
  | .list _, some type =>
    describeTypeName
      (.named (if type.fixedSize.isSome then "array" else "list") type.arguments type.fixedSize)
  | .map _, none => "map".toList
  | .map _, some type => describeTypeName (.named "map" type.arguments none)

/-- The type of a value as an error names it. -/
def runtimeValueTypeName : Value R O → List Char
  | .nil => "void".toList
  | .int _ => "int".toList
  | .double _ => "double".toList
  | .string _ => "string".toList
  | .bool _ => "bool".toList
  | .container r => containerTypeName (heap r)
  | .object o => table.objectTypeName o
  | .closure _ _ _ => "func".toList
  | .task _ => "Task".toList
  | .thread _ => "Thread".toList
  | .nativeHandle _ => "NativeHandle".toList
  | .nativeView _ => "unknown".toList

/-- The loop that asserts the types of the fields. A check that runs out of fuel does not
    return. -/
def requireFields (fields : List (Value R O)) : List RuntimeFieldInfo → Plan R → Except String (Plan R)
  | [], plan => .ok plan
  | field :: rest, plan =>
    if field.isStatic then requireFields fields rest plan
    else
      match (type.fieldIndex field.name).bind (fields[·]?) with
      | none => requireFields fields rest plan
      | some value => do
        let typeName ← runtimeFieldType table receiver.className field.name receiver
        match require table.chunk heap fuel plan value typeName with
        | .matched plan => requireFields fields rest plan
        | .mismatch => .error ("type assertion failed: expected " ++ String.ofList typeName ++
            ", got " ++ String.ofList (runtimeValueTypeName table heap value))
        | .outOfFuel => .error "no verdict"

end

section
variable {R O : Type} [DecidableEq R] (table : ReflectionTable O) (heap : Heap R O) (fuel : Nat)

/-- The declared fields of an object that has its runtime type. -/
def initializeFields (info : ClassReflectionInfo) (type : RuntimeTypeInfo) (box : ObjectBox R O) :
    Except String (ObjectBox R O × Heap R O) := do
  let pending := box.extraFields.keys.filter fun name => (type.fieldIndex name).isSome
  let (fields, extraFields) := materialise type pending (box.fields, box.extraFields)
  let fields ← defaultFields table type box info.fields fields
  let plan ← requireFields table heap fuel type box fields info.fields []
  return ({ box with fields, extraFields }, commit heap plan)

/-- Give an object its type. There is none when the value is no object, or a null one. -/
def initializeObjectType (value : Option (ObjectBox R O)) (typeName : List Char) :
    Except String (ObjectBox R O × Heap R O) :=
  let spec := parseTypeName typeName
  match value with
  | none => .error ("VM: factory returned a value incompatible with " ++ String.ofList typeName)
  | some object =>
    if object.className ≠ specName spec then
      .error ("VM: factory returned a value incompatible with " ++ String.ofList typeName)
    else
      let object := { object with
        genericTypeName := if (specArgs spec).isEmpty then [] else describeTypeName spec }
      match table.classReflection.lookup (specName spec) with
      | none => .ok (object, heap)
      | some info =>
        let object := { object with runtimeType := info.runtimeType }
        match info.runtimeType with
        | none => .ok (object, heap)
        | some type => initializeFields table heap fuel info type object

end

section
variable {R O : Type}

theorem writeSlot_length (fields : List (Value R O)) (slot : Nat) (value : Value R O) :
    (writeSlot fields slot value).length = max fields.length (slot + 1) := by
  simp only [writeSlot, List.length_set, List.length_append, List.length_replicate]
  omega

theorem writeSlot_getElem? (fields : List (Value R O)) (slot : Nat) (value : Value R O) (i : Nat) :
    (writeSlot fields slot value)[i]? =
      if i = slot then some value else if i < fields.length then fields[i]?
      else if i ≤ slot then some .nil else none := by
  unfold writeSlot
  by_cases hslot : i = slot
  · subst hslot
    rw [if_pos rfl, List.getElem?_set_self]
    simp only [List.length_append, List.length_replicate]
    omega
  · rw [if_neg hslot, List.getElem?_set_ne (Ne.symm hslot)]
    by_cases hlt : i < fields.length
    · rw [if_pos hlt, List.getElem?_append_left hlt]
    · rw [if_neg hlt, List.getElem?_append_right (by omega), List.getElem?_replicate]
      by_cases hle : i ≤ slot
      · rw [if_pos hle, if_pos (by omega)]
      · rw [if_neg hle, if_neg (by omega)]

theorem fieldIndex_injective {type : RuntimeTypeInfo} {a b : String} {slot : Nat}
    (ha : type.fieldIndex a = some slot) (hb : type.fieldIndex b = some slot) : a = b := by
  obtain ⟨_, ha, -⟩ := List.findIdx?_eq_some_iff_getElem.mp ha
  obtain ⟨_, hb, -⟩ := List.findIdx?_eq_some_iff_getElem.mp hb
  exact (of_decide_eq_true ha).symm.trans (of_decide_eq_true hb)

section
variable {type : RuntimeTypeInfo}
variable {extraFields : AList (fun _ : String => Value R O)} {fields : List (Value R O)}
  {pending : List String} {name : String}

theorem materialise_length {i : Nat} :
    i < (materialise type pending (fields, extraFields)).1.length ↔
      i < fields.length ∨ ∃ name ∈ pending, ∃ slot, type.fieldIndex name = some slot ∧ i ≤ slot := by
  induction pending generalizing fields extraFields with
  | nil => simp [materialise]
  | cons name pending ih =>
    rw [materialise]
    cases hslot : type.fieldIndex name with
    | none => simp [ih, hslot]
    | some slot =>
      dsimp only
      rw [ih, writeSlot_length]
      simp only [List.exists_mem_cons_iff, hslot, Option.some.injEq, exists_eq_left']
      have hmax : i < max fields.length (slot + 1) ↔ i < fields.length ∨ i ≤ slot := by omega
      rw [hmax, or_assoc]

theorem materialise_other {i : Nat} (hi : i < (materialise type pending (fields, extraFields)).1.length)
    (hother : ∀ name ∈ pending, type.fieldIndex name ≠ some i) :
    (materialise type pending (fields, extraFields)).1[i]? = some (fields[i]?.getD .nil) := by
  induction pending generalizing fields extraFields with
  | nil =>
    rw [materialise] at hi ⊢
    rw [List.getElem?_eq_getElem hi]
    rfl
  | cons name pending ih =>
    obtain ⟨hname, hrest⟩ := List.forall_mem_cons.mp hother
    rw [materialise] at hi ⊢
    cases hslot : type.fieldIndex name with
    | none =>
      rw [hslot] at hi
      exact ih hi hrest
    | some slot =>
      have hne : i ≠ slot := fun heq => hname (heq ▸ hslot)
      rw [hslot] at hi
      dsimp only at hi ⊢
      rw [ih hi hrest]
      congr 1
      rw [writeSlot_getElem?, if_neg hne]
      by_cases hlt : i < fields.length
      · rw [if_pos hlt]
      · rw [if_neg hlt, List.getElem?_eq_none (l := fields) (by omega)]
        split <;> rfl

theorem materialise_moved (hpending : pending.Nodup) (hname : name ∈ pending) {slot : Nat}
    (hslot : type.fieldIndex name = some slot) :
    (materialise type pending (fields, extraFields)).1[slot]? =
      some ((extraFields.lookup name).getD .nil) := by
  induction pending generalizing fields extraFields with
  | nil => nomatch hname
  | cons first pending ih =>
    obtain ⟨hnotin, hnodup⟩ := List.nodup_cons.mp hpending
    by_cases hsame : name = first
    · subst hsame
      rw [materialise, hslot]
      dsimp only
      rw [materialise_other]
      · rw [writeSlot_getElem?, if_pos rfl]
        rfl
      · rw [materialise_length, writeSlot_length]
        exact .inl (by omega)
      · intro other hother hindex
        exact hnotin (fieldIndex_injective hindex hslot ▸ hother)
    · have hrest := (List.mem_cons.mp hname).resolve_left hsame
      rw [materialise]
      cases hfirst : type.fieldIndex first with
      | none => exact ih hnodup hrest
      | some firstSlot =>
        dsimp only
        rw [ih hnodup hrest, AList.lookup_erase_ne hsame]

theorem materialise_lookup_none (hnone : extraFields.lookup name = none) :
    (materialise type pending (fields, extraFields)).2.lookup name = none := by
  induction pending generalizing fields extraFields with
  | nil => exact hnone
  | cons first pending ih =>
    rw [materialise]
    cases type.fieldIndex first with
    | none => exact ih hnone
    | some slot =>
      refine ih ?_
      by_cases hsame : name = first
      · rw [hsame]
        exact AList.lookup_erase _ _
      · rw [AList.lookup_erase_ne hsame, hnone]

theorem materialise_extraFields (hname : name ∈ pending) (hslot : (type.fieldIndex name).isSome = true) :
    (materialise type pending (fields, extraFields)).2.lookup name = none := by
  induction pending generalizing fields extraFields with
  | nil => nomatch hname
  | cons first pending ih =>
    rw [materialise]
    by_cases hsame : name = first
    · subst hsame
      obtain ⟨slot, hslot⟩ := Option.isSome_iff_exists.mp hslot
      rw [hslot]
      exact materialise_lookup_none (AList.lookup_erase _ _)
    · have hrest := (List.mem_cons.mp hname).resolve_left hsame
      cases type.fieldIndex first with
      | none => exact ih hrest
      | some slot => exact ih hrest

end

end

/-- The instance fields in the order of the metadata. -/
def instanceFields (fields : List RuntimeFieldInfo) : List RuntimeFieldInfo := fields.filter (!·.isStatic)

/-- A field with a higher slot comes first in the metadata. -/
def Overtaken (type : RuntimeTypeInfo) (fields : List RuntimeFieldInfo) (name : String) (slot : Nat) : Prop :=
  ∃ field ∈ (instanceFields fields).takeWhile (·.name ≠ name), ∃ higher,
    type.fieldIndex field.name = some higher ∧ slot < higher

section
variable {R O : Type} {table : ReflectionTable O} {type : RuntimeTypeInfo}
  {receiver : ObjectBox R O}
variable {rest : List RuntimeFieldInfo} {field : RuntimeFieldInfo} {slot : Nat} {name : String}

theorem overtaken_static (hstatic : field.isStatic = true) :
    Overtaken type (field :: rest) name slot ↔
      Overtaken type rest name slot := by
  simp [Overtaken, instanceFields, hstatic]

theorem overtaken_cons (hstatic : field.isStatic = false) (hne : field.name ≠ name) :
    Overtaken type (field :: rest) name slot ↔
      (∃ higher, type.fieldIndex field.name = some higher ∧ slot < higher) ∨
        Overtaken type rest name slot := by
  simp [Overtaken, instanceFields, hstatic, hne]

theorem not_overtaken_self (hstatic : field.isStatic = false) :
    ¬ Overtaken type (field :: rest) field.name slot := by
  simp [Overtaken, instanceFields, hstatic]

/-- The loop changes no slot that there is, and makes one for each instance field. -/
theorem defaultFields_keeps {fields fields' : List (Value R O)}
    (hrun : defaultFields table type receiver rest fields = .ok fields') :
    fields.length ≤ fields'.length ∧ (∀ i < fields.length, fields'[i]? = fields[i]?) ∧
      ∀ field ∈ rest, field.isStatic = false → ∀ slot, type.fieldIndex field.name = some slot →
        slot < fields'.length := by
  induction rest generalizing fields with
  | nil =>
    cases hrun
    exact ⟨Nat.le_refl _, fun _ _ => rfl, nofun⟩
  | cons field rest ih =>
    rw [defaultFields] at hrun
    split at hrun
    · next hstatic =>
      obtain ⟨hle, hsame, hall⟩ := ih hrun
      exact ⟨hle, hsame, List.forall_mem_cons.mpr ⟨fun h => by simp [hstatic] at h, hall⟩⟩
    · next hstatic =>
      split at hrun
      · next hnone =>
        obtain ⟨hle, hsame, hall⟩ := ih hrun
        exact ⟨hle, hsame, List.forall_mem_cons.mpr ⟨fun _ slot h => by simp [hnone] at h, hall⟩⟩
      · next slot hslot =>
        split at hrun
        · next hnew =>
          obtain ⟨typeName, -, hrun⟩ := zl.collections.bind_eq_ok.mp hrun
          obtain ⟨hle, hsame, hall⟩ := ih hrun
          rw [writeSlot_length] at hle hsame
          refine ⟨by omega, fun i hi => ?_, List.forall_mem_cons.mpr ⟨fun _ slot' hslot' => ?_, hall⟩⟩
          · rw [hsame i (by omega), writeSlot_getElem?, if_neg (by omega), if_pos hi]
          · rw [hslot] at hslot'
            obtain rfl := Option.some.inj hslot'
            omega
        · next hold =>
          obtain ⟨hle, hsame, hall⟩ := ih hrun
          refine ⟨hle, hsame, List.forall_mem_cons.mpr ⟨fun _ slot' hslot' => ?_, hall⟩⟩
          rw [hslot] at hslot'
          obtain rfl := Option.some.inj hslot'
          omega

/-- A slot the loop makes holds the default of its field, unless a field with a higher slot
    comes first: then it is there, with nil, when the turn of its field comes. -/
theorem defaultFields_new {fields fields' : List (Value R O)}
    (hrun : defaultFields table type receiver rest fields = .ok fields')
    (hname : ∃ field ∈ rest, field.isStatic = false ∧ field.name = name)
    (hslot : type.fieldIndex name = some slot) (hnew : fields.length ≤ slot) :
    (Overtaken type rest name slot ∧ fields'[slot]? = some .nil) ∨
      (¬ Overtaken type rest name slot ∧ ∃ typeName,
        runtimeFieldType table receiver.className name receiver = .ok typeName ∧
        fields'[slot]? = some (defaultFieldValue table typeName)) := by
  induction rest generalizing fields with
  | nil =>
    obtain ⟨field, hfield, -⟩ := hname
    nomatch hfield
  | cons field rest ih =>
    rw [defaultFields] at hrun
    split at hrun
    · next hstatic =>
      rw [overtaken_static hstatic]
      refine ih hrun ?_ hnew
      obtain ⟨declared, hdeclared, hinstance, heq⟩ := hname
      refine ⟨declared, (List.mem_cons.mp hdeclared).resolve_left ?_, hinstance, heq⟩
      rintro rfl
      simp [hstatic] at hinstance
    · next hstatic =>
      have hstatic : field.isStatic = false := by simpa using hstatic
      by_cases hself : field.name = name
      · subst hself
        rw [hslot] at hrun
        dsimp only at hrun
        rw [if_pos hnew] at hrun
        obtain ⟨typeName, htype, hrun⟩ := zl.collections.bind_eq_ok.mp hrun
        refine .inr ⟨not_overtaken_self hstatic, typeName, htype, ?_⟩
        rw [(defaultFields_keeps hrun).2.1 slot (by rw [writeSlot_length]; omega),
          writeSlot_getElem?, if_pos rfl]
      · have hrest : ∃ field ∈ rest, field.isStatic = false ∧ field.name = name := by
          obtain ⟨declared, hdeclared, hinstance, heq⟩ := hname
          refine ⟨declared, (List.mem_cons.mp hdeclared).resolve_left ?_, hinstance, heq⟩
          rintro rfl
          exact hself heq
        rw [overtaken_cons hstatic hself]
        split at hrun
        · next hnone => simpa [hnone] using ih hrun hrest hnew
        · next other hother =>
          have hne : slot ≠ other := by
            rintro rfl
            exact hself (fieldIndex_injective hother hslot)
          simp only [hother, Option.some.injEq, exists_eq_left']
          split at hrun
          · next hgrows =>
            obtain ⟨typeName, -, hrun⟩ := zl.collections.bind_eq_ok.mp hrun
            by_cases hlt : slot < other
            · refine .inl ⟨.inl hlt, ?_⟩
              rw [(defaultFields_keeps hrun).2.1 slot (by rw [writeSlot_length]; omega), writeSlot_getElem?,
                if_neg hne, if_neg (by omega), if_pos (by omega)]
            · simpa [hlt] using ih hrun hrest (by rw [writeSlot_length]; omega)
          · next hthere =>
            have hlt : ¬ slot < other := by omega
            simpa [hlt] using ih hrun hrest hnew

theorem requireFields_types [DecidableEq R] {heap : Heap R O} {fuel : Nat}
    {fields : List (Value R O)} {plan plan' : Plan R}
    (hrun : requireFields table heap fuel type receiver fields rest plan = .ok plan') :
    ∀ field ∈ rest, field.isStatic = false → ∀ slot, type.fieldIndex field.name = some slot →
      slot < fields.length →
      ∃ typeName, runtimeFieldType table receiver.className field.name receiver = .ok typeName := by
  induction rest generalizing plan with
  | nil => exact nofun
  | cons field rest ih =>
    rw [requireFields] at hrun
    split at hrun
    · next hstatic => exact List.forall_mem_cons.mpr ⟨fun h => by simp [hstatic] at h, ih hrun⟩
    · split at hrun
      · next hnone =>
        refine List.forall_mem_cons.mpr ⟨fun _ slot hslot hlt => ?_, ih hrun⟩
        simp [hslot, hlt] at hnone
      · obtain ⟨typeName, htype, hrun⟩ := zl.collections.bind_eq_ok.mp hrun
        refine List.forall_mem_cons.mpr ⟨fun _ _ _ _ => ⟨typeName, htype⟩, ?_⟩
        split at hrun
        · exact ih hrun
        · nomatch hrun
        · nomatch hrun

end

section
variable {R O : Type} (table : ReflectionTable O)

/-- The name of the instantiated type, none for a class without arguments. -/
def genericName (typeName : List Char) : List Char :=
  if (specArgs (parseTypeName typeName)).isEmpty then [] else describeTypeName (parseTypeName typeName)

/-- The type of a field of an object, once it is of a type. -/
def effectiveType (object : ObjectBox R O) (typeName : List Char) (fieldName : String) :
    Except String (List Char) :=
  runtimeFieldType table object.className fieldName { object with genericTypeName := genericName typeName }

/-- Each instance field is in its slot: with the value it was given before, or else with the
    default of its type. -/
structure Initialised (info : ClassReflectionInfo) (typeName : List Char) (before after : ObjectBox R O) :
    Prop where
  kept : ∀ field ∈ info.fields, field.isStatic = false → ∀ value,
    before.extraFields.lookup field.name = some value → after.objectFieldLookup field.name = some value
  defaulted : ∀ field ∈ info.fields, field.isStatic = false → before.extraFields.lookup field.name = none →
    ∃ fieldType, effectiveType table before typeName field.name = .ok fieldType ∧
      after.objectFieldLookup field.name = some (defaultFieldValue table fieldType)
  moved : ∀ field ∈ info.fields, field.isStatic = false → after.extraFields.lookup field.name = none

/-- The slot is there before the turn of its field: a field that was set has a higher one, or
    one that comes first. -/
def Skipped (info : ClassReflectionInfo) (type : RuntimeTypeInfo) (object : ObjectBox R O) (name : String) :
    Prop :=
  ∃ slot, type.fieldIndex name = some slot ∧
    ((∃ other ∈ object.extraFields, ∃ higher, type.fieldIndex other = some higher ∧ slot < higher) ∨
      Overtaken type info.fields name slot)

end

section
variable {R O : Type} [DecidableEq R]

/-- What an initialisation leaves in the slots. -/
theorem initializeFields_slots {table : ReflectionTable O} {heap heap' : Heap R O} {fuel : Nat}
    {info : ClassReflectionInfo} {type : RuntimeTypeInfo} (htype : info.runtimeType = some type)
    {box after : ObjectBox R O} (hfresh : box.fields = []) (hbox : box.runtimeType = some type)
    (hrun : initializeFields table heap fuel info type box = .ok (after, heap')) :
    ∀ field ∈ info.fields, field.isStatic = false →
      after.extraFields.lookup field.name = none ∧
      (∀ value, box.extraFields.lookup field.name = some value →
        after.objectFieldLookup field.name = some value) ∧
      (box.extraFields.lookup field.name = none →
        ∃ fieldType, runtimeFieldType table box.className field.name box = .ok fieldType ∧
          (Skipped info type box field.name → after.objectFieldLookup field.name = some .nil) ∧
          (¬ Skipped info type box field.name →
            after.objectFieldLookup field.name = some (defaultFieldValue table fieldType))) := by
  unfold initializeFields at hrun
  generalize hpending :
    box.extraFields.keys.filter (fun name => (type.fieldIndex name).isSome) = pending at hrun
  obtain ⟨fields, hdefaults, hrun⟩ := zl.collections.bind_eq_ok.mp hrun
  obtain ⟨plan, hrequired, hrun⟩ := zl.collections.bind_eq_ok.mp hrun
  cases hrun
  generalize hmoved : (materialise type pending (box.fields, box.extraFields)).1 = moved at hdefaults
  obtain ⟨hgrown, hsame, hslots⟩ := defaultFields_keeps hdefaults
  have hmem {name : String} : name ∈ pending ↔
      name ∈ box.extraFields ∧ (type.fieldIndex name).isSome = true := by
    rw [← hpending, List.mem_filter]
    rfl
  have hnodup : pending.Nodup := hpending ▸ box.extraFields.nodupKeys.filter _
  intro field hfield hinstance
  have hindex := info.layout type htype field hfield hinstance
  obtain ⟨slot, hslot⟩ := Option.isSome_iff_exists.mp hindex
  have hlookup {fields : List (Value R O)} {extraFields : AList fun _ : String => Value R O} :
      ({ box with fields, extraFields } : ObjectBox R O).objectFieldLookup field.name = fields[slot]? := by
    simp [ObjectFields.objectFieldLookup, ObjectFields.objectFieldSlot, hbox, hslot]
  have hunset {name : String} (hnone : box.extraFields.lookup name = none) : name ∉ box.extraFields :=
    AList.lookup_eq_none.mp hnone
  rw [hlookup]
  refine ⟨?_, fun value hvalue => ?_, fun hnone => ?_⟩
  · cases hbefore : box.extraFields.lookup field.name with
    | none => exact materialise_lookup_none hbefore
    | some value =>
      have hpresent : field.name ∈ box.extraFields := AList.lookup_isSome.mp (by rw [hbefore]; rfl)
      exact materialise_extraFields (hmem.mpr ⟨hpresent, hindex⟩) hindex
  · have hpresent : field.name ∈ box.extraFields := AList.lookup_isSome.mp (by rw [hvalue]; rfl)
    have hvalue' : moved[slot]? = some value := by
      rw [← hmoved, materialise_moved hnodup (hmem.mpr ⟨hpresent, hindex⟩) hslot, hvalue]
      rfl
    rw [hsame slot (List.getElem?_eq_some_iff.mp hvalue').1, hvalue']
  · obtain ⟨fieldType, hfieldType⟩ :=
      requireFields_types hrequired field hfield hinstance slot hslot
        (hslots field hfield hinstance slot hslot)
    refine ⟨fieldType, hfieldType, ?_⟩
    -- A field that was set has a slot of its own.
    have hother : ∀ name ∈ pending, type.fieldIndex name ≠ some slot := by
      intro name hname hsame
      exact hunset hnone (fieldIndex_injective hsame hslot ▸ (hmem.mp hname).1)
    have hhigher : slot < moved.length ↔ ∃ other ∈ box.extraFields, ∃ higher,
        type.fieldIndex other = some higher ∧ slot < higher := by
      rw [← hmoved, materialise_length, hfresh]
      constructor
      · rintro (hlt | ⟨name, hname, higher, hindex, hle⟩)
        · exact absurd hlt (Nat.not_lt_zero _)
        · refine ⟨name, (hmem.mp hname).1, higher, hindex, Nat.lt_of_le_of_ne hle ?_⟩
          rintro rfl
          exact hother name hname hindex
      · rintro ⟨name, hname, higher, hindex, hlt⟩
        exact .inr ⟨name, hmem.mpr ⟨hname, by rw [hindex]; rfl⟩, higher, hindex, Nat.le_of_lt hlt⟩
    have hskipped : Skipped info type box field.name ↔
        slot < moved.length ∨ Overtaken type info.fields field.name slot := by
      simp only [Skipped, hslot, Option.some.injEq, exists_eq_left', hhigher]
    rw [hskipped]
    by_cases hthere : slot < moved.length
    · have hnil : moved[slot]? = some .nil := by
        rw [← hmoved] at hthere ⊢
        rw [materialise_other hthere hother, hfresh]
        rfl
      rw [hsame slot hthere, hnil]
      exact ⟨fun _ => rfl, fun hnot => absurd (.inl hthere) hnot⟩
    · cases defaultFields_new hdefaults ⟨field, hfield, hinstance, rfl⟩ hslot (Nat.le_of_not_lt hthere) with
      | inl hovertaken => exact ⟨fun _ => hovertaken.2, fun hnot => absurd (.inr hovertaken.1) hnot⟩
      | inr hfirst =>
        obtain ⟨hfirst, typeName, htypeName, hdefault⟩ := hfirst
        rw [hfieldType] at htypeName
        cases htypeName
        exact ⟨fun h => absurd (h.resolve_left hthere) hfirst, fun _ => hdefault⟩

/-- An object that had no slots is initialised exactly when each field that was not set, and
    whose slot is there too early, has nil as the default of its type. -/
theorem initializeObjectType_defaults_iff (table : ReflectionTable O) (heap heap' : Heap R O) (fuel : Nat)
    (object after : ObjectBox R O) (typeName : List Char) (info : ClassReflectionInfo)
    (type : RuntimeTypeInfo) (hinfo : table.classReflection.lookup object.className = some info)
    (htype : info.runtimeType = some type) (hfresh : object.fields = [])
    (hrun : initializeObjectType table heap fuel (some object) typeName = .ok (after, heap')) :
    Initialised table info typeName object after ↔
      ∀ field ∈ info.fields, field.isStatic = false → object.extraFields.lookup field.name = none →
        Skipped info type object field.name → ∀ fieldType,
          effectiveType table object typeName field.name = .ok fieldType →
          defaultFieldValue table fieldType = (.nil : Value R O) := by
  unfold initializeObjectType at hrun
  dsimp only at hrun
  split at hrun
  · nomatch hrun
  · next hname =>
    have hname := not_not.mp hname
    rw [← hname, hinfo] at hrun
    dsimp only at hrun
    split at hrun
    · next hnone =>
      rw [htype] at hnone
      nomatch hnone
    · next type' htype' =>
      rw [htype] at htype'
      obtain rfl := Option.some.inj htype'
      generalize hbox : ({ object with
        genericTypeName := genericName typeName, runtimeType := info.runtimeType } : ObjectBox R O) = box
      have hrun : initializeFields table heap fuel info type box = .ok (after, heap') := by
        rw [← hbox]
        exact hrun
      have hslots := initializeFields_slots htype (by rw [← hbox]; exact hfresh)
        (by rw [← hbox]; exact htype) hrun
      subst hbox
      constructor
      · intro hinitialised field hfield hinstance hunset hskipped fieldType hfieldType
        obtain ⟨fieldType', hfieldType', hheld⟩ := hinitialised.defaulted field hfield hinstance hunset
        rw [hfieldType] at hfieldType'
        cases hfieldType'
        obtain ⟨-, -, hnil, -⟩ := (hslots field hfield hinstance).2.2 hunset
        rw [hnil hskipped] at hheld
        exact (Option.some.inj hheld).symm
      · intro hdefaults
        refine ⟨fun field hfield hinstance => (hslots field hfield hinstance).2.1,
          fun field hfield hinstance hunset => ?_, fun field hfield hinstance =>
            (hslots field hfield hinstance).1⟩
        obtain ⟨fieldType, hfieldType, hnil, hdefault⟩ := (hslots field hfield hinstance).2.2 hunset
        refine ⟨fieldType, hfieldType, ?_⟩
        by_cases hskipped : Skipped info type object field.name
        · rw [hnil hskipped, hdefaults field hfield hinstance hunset hskipped fieldType hfieldType]
        · exact hdefault hskipped

/-- A class with a text and a number. -/
def noteFields : List RuntimeFieldInfo :=
  [⟨"text", "Note", "string".toList, false⟩, ⟨"count", "Note", "int".toList, false⟩]

def noteType : RuntimeTypeInfo where
  name := "Note"
  fields := noteFields

def noteInfo : ClassReflectionInfo where
  fields := noteFields
  runtimeType := some noteType
  layout := by
    intro type htype field hfield _
    cases htype
    simp only [noteFields, List.mem_cons, List.not_mem_nil, or_false] at hfield
    rcases hfield with rfl | rfl <;> rfl

def noteTable : ReflectionTable Unit where
  classReflection := [("Note", noteInfo)]
  reflectiveObjectMatches _ _ := true
  objectTypeName _ := "Note".toList

def emptyHeap : Heap Unit Unit := fun _ => ⟨none, .list []⟩

/-- A note of which a factory has written one field. -/
def noteWith (name : String) (value : Value Unit Unit) : ObjectBox Unit Unit where
  className := "Note"
  extraFields := AList.insert name value ∅

theorem initializeObjectType_defaults_iff_text : ∃ after heap',
    initializeObjectType noteTable emptyHeap 2 (some (noteWith "text" (.string "a"))) "Note".toList =
      .ok (after, heap') ∧
    (Initialised noteTable noteInfo "Note".toList (noteWith "text" (.string "a")) after ↔
      ∀ field ∈ noteInfo.fields, field.isStatic = false →
        (noteWith "text" (.string "a")).extraFields.lookup field.name = none →
        Skipped noteInfo noteType (noteWith "text" (.string "a")) field.name → ∀ fieldType,
          effectiveType noteTable (noteWith "text" (.string "a")) "Note".toList field.name = .ok fieldType →
          defaultFieldValue noteTable fieldType = (.nil : Value Unit Unit)) :=
  ⟨_, _, rfl, initializeObjectType_defaults_iff noteTable emptyHeap _ 2 _ _ _ noteInfo noteType rfl rfl
    rfl rfl⟩

/-- The count is written, in the second slot, and the text stays nil instead of empty. -/
theorem noteWith_count_not_initialised : ∃ after heap',
    initializeObjectType noteTable emptyHeap 2 (some (noteWith "count" (.int 1))) "Note".toList =
      .ok (after, heap') ∧
    after.objectFieldLookup "text" = some .nil ∧
    ¬ Initialised noteTable noteInfo "Note".toList (noteWith "count" (.int 1)) after := by
  refine ⟨_, _, rfl, rfl, fun h => ?_⟩
  obtain ⟨fieldType, hfieldType, hheld⟩ :=
    h.defaulted ⟨"text", "Note", "string".toList, false⟩ List.mem_cons_self rfl rfl
  have htext : effectiveType noteTable (noteWith "count" (.int 1)) "Note".toList "text" =
      .ok "string".toList := rfl
  rw [htext] at hfieldType
  cases hfieldType
  exact absurd hheld (by decide)

end

end zl.vm.contract
