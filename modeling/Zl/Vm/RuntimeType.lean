import Mathlib.Data.List.AList

namespace zl.vm

structure RuntimeFieldInfo where
  name : String
  ownerClassName : String := ""
  typeName : List Char := []
  isStatic : Bool := false

/-- The instance fields of a class in the order of their slots: the first occurrence of a name
    counts. -/
def buildRuntimeFieldIndex (fields : List RuntimeFieldInfo) : List String :=
  fields.foldl (fun names field => if field.isStatic ∨ field.name ∈ names then names
    else names ++ [field.name]) []

structure RuntimeTypeInfo where
  name : String := ""
  isDataType : Bool := false
  fields : List RuntimeFieldInfo

namespace RuntimeTypeInfo
variable (type : RuntimeTypeInfo)

def instanceFieldNames : List String := buildRuntimeFieldIndex type.fields

def instanceFieldCount : Nat := type.instanceFieldNames.length

def fieldIndex (name : String) : Option Nat := type.instanceFieldNames.findIdx? (· = name)

theorem nodup_instanceFieldNames : type.instanceFieldNames.Nodup := by
  have hfold : ∀ (fields : List RuntimeFieldInfo) (names : List String), names.Nodup →
      (fields.foldl (fun names field => if field.isStatic ∨ field.name ∈ names then names
        else names ++ [field.name]) names).Nodup := by
    intro fields
    induction fields with
    | nil => exact fun names h => h
    | cons field fields ih =>
      intro names h
      refine ih _ ?_
      beta_reduce
      split
      · exact h
      next hnew =>
        rw [not_or] at hnew
        refine List.nodup_append.mpr ⟨h, List.nodup_singleton _, fun a ha b hb heq => ?_⟩
        exact hnew.2 (List.mem_singleton.mp hb ▸ heq ▸ ha)
  exact hfold type.fields [] List.nodup_nil

end RuntimeTypeInfo

/-- What an object holds. The fields that its class declares have slots, which only exist once it has
    its runtime type, any other name goes to `extraFields`. -/
structure ObjectFields (V : Type) where
  runtimeType : Option RuntimeTypeInfo := none
  fields : List V := []
  extraFields : AList (fun _ : String => V) := ∅

namespace ObjectFields
variable {V : Type} (box : ObjectFields V)

/-- The slot of a field that the class of the object declares. -/
def objectFieldSlot (name : String) : Option Nat := box.runtimeType.bind fun type => type.fieldIndex name

def objectFieldLookup (name : String) : Option V :=
  match box.objectFieldSlot name with
  | some slot => box.fields[slot]?
  | none => box.extraFields.lookup name

end ObjectFields

end zl.vm
