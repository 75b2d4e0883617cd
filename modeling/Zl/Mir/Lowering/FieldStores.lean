import Zl.Graph.ParentChain
import Zl.Mir.Lowering.Lowerer

namespace zl.mir

namespace Module

/-- The field that a layout itself declares. -/
def ownField (m : Module) (className fieldName : String) : Option FieldLayout :=
  (m.classLayout className).bind fun layout => layout.fields.find? (·.name = fieldName)

def parentLayout (m : Module) (className : String) : Option String :=
  (m.classLayout className).bind fun layout => if layout.parent.isEmpty then none else some layout.parent

/-- A static field by its class and its name. -/
def staticOf (m : Module) (className fieldName : String) : Option StaticField :=
  m.statics.find? fun f => f.className = className && f.name = fieldName

end Module

namespace FunctionLowerer

/-- An assignment to a field. `object` and `value` lower the two expressions. -/
structure FieldAssignExpr where
  object : Lowering Operand
  value : Lowering Operand
  fieldName : String
  isStaticFieldAssign : Bool := false
  staticFieldClassName : String := ""

section
variable (types : TypeTable) (module : Module)

/-- A value for a place whose declared type was found, or not. -/
def coerceTo (value : Operand) : Option TypeId → Lowering Operand
  | some target => coerce types module value target
  | none => pure value

/-- The stores of a field assignment, given how the declared type is looked up: of a static field,
    and of a field of the class that the type of the object names. -/
def fieldAssignBy (staticType : FieldAssignExpr → Option TypeId) (fieldType : String → String →
      Option TypeId)
    (node : FieldAssignExpr) : Lowering Operand := do
  let value ← node.value
  if value.isNone then return .none
  if node.isStaticFieldAssign then
    let value ← coerceTo types module value (staticType node)
    if value.isNone then return .none
    emit (·.emitStaticStore node.staticFieldClassName node.fieldName value)
    return value
  let base ← node.object
  if base.isNone then return .none
  let value ← coerceTo types module value
    ((types.find base.type).bind fun baseType => fieldType baseType.name node.fieldName)
  if value.isNone then return .none
  emit (·.emitFieldStore base node.fieldName value)
  return value

/-- Any static field of this name, and the field of the class's own layout. -/
def fieldAssign : FieldAssignExpr → Lowering Operand :=
  fieldAssignBy types module (fun node => (module.statics.find? (·.name = node.fieldName)).map (·.type))
    fun className fieldName => (module.ownField className fieldName).map (·.type)

/-- The stores of a field assignment when the declared type of the field is known. -/
def storesAs (declared : TypeId) : FieldAssignExpr → Lowering Operand :=
  fieldAssignBy types module (fun _ => some declared) fun _ _ => some declared

/-- The verifier finds no dynamic value where the declared type is none. -/
def requireRefined (value : Operand) (target : TypeId) : Bool :=
  match types.find value.type, types.find target with
  | some fromType, some toType =>
    value.isNone || fromType.kind != .Unknown || toType.kind == .Unknown || toType.kind == .TypeParam ||
      toType.kind == .Void
  | _, _ => true

/-- The verifier's checks of a value that is stored. A type is assignable to itself, and `assignable`
    stands for the other rules of that relation. -/
def checkStored (assignable : TypeId → TypeId → Bool) (value : Operand) (target : TypeId) : Bool :=
  (value.type == target || assignable value.type target) && requireRefined types value target

/-- The conversion for a declared type that was found, or not. -/
def conversionTo (typeParams : List String) (source : TypeId) : Option TypeId → Conversion
  | some target => conversion types module typeParams source target
  | none => .keep

end

section
variable {types : TypeTable} {module : Module} {l : FunctionLowerer} {value : Operand}
variable {node : FieldAssignExpr}

theorem coerceTo_eq (h : value.isNone = false) (target : Option TypeId) :
    coerceTo types module value target l =
      convert types value (conversionTo types module l.typeParams value.type target) l := by
  cases target with
  | none => rfl
  | some target => simp [coerceTo, coerce, h, conversionTo]; rfl

/-- The operand that a conversion leaves. -/
def converted (value : Operand) (t : TempId) : Conversion → Operand
  | .keep => value
  | .widen target | .refine target => .temp t target

theorem convert_fst (c : Conversion) : (convert types value c l).1 = converted value l.fb.nextTemp c := by
  cases c <;> rfl

theorem convert_nextTemp (c : Conversion) :
    (convert types value c l).2.fb.nextTemp = if c = .keep then l.fb.nextTemp else l.fb.nextTemp + 1 := by
  cases c <;> rfl

theorem source_of_conversionTo {typeParams : List String} {source : TypeId} {target : Option TypeId} :
    (∀ t, conversionTo types module typeParams source target = .widen t →
      (types.find source).map (·.kind) = some .Int) ∧
    ∀ t, conversionTo types module typeParams source target = .refine t →
      (types.find source).map (·.kind) = some .Unknown := by
  cases target with
  | none => simp [conversionTo]
  | some target =>
    simp only [conversionTo, conversion]
    split
    · simp
    · split
      next fromType toType hfrom hto =>
        rw [hfrom]
        split_ifs <;> simp_all
      next => simp

/-- The converted value and the number of temps tell the conversion. -/
theorem conversionTo_inj {t t' : Option TypeId}
    (hvalue : converted value l.fb.nextTemp (conversionTo types module l.typeParams value.type t) =
      converted value l.fb.nextTemp (conversionTo types module l.typeParams value.type t'))
    (htemp : (convert types value (conversionTo types module l.typeParams value.type t) l).2.fb.nextTemp =
      (convert types value (conversionTo types module l.typeParams value.type t') l).2.fb.nextTemp) :
    conversionTo types module l.typeParams value.type t =
      conversionTo types module l.typeParams value.type t' := by
  have hsource := @source_of_conversionTo types module l.typeParams value.type t
  have hsource' := @source_of_conversionTo types module l.typeParams value.type t'
  simp only [convert_nextTemp] at htemp
  generalize conversionTo types module l.typeParams value.type t = c at *
  generalize conversionTo types module l.typeParams value.type t' = c' at *
  cases c with
  | keep =>
    cases c' with
    | keep => rfl
    | widen target | refine target => simp at htemp
  | widen target =>
    cases c' with
    | keep => simp at htemp
    | widen target' => simpa [converted, Operand.temp] using hvalue
    | refine target' => simpa [hsource.1 target rfl] using hsource'.2 target' rfl
  | refine target =>
    cases c' with
    | keep => simp at htemp
    | widen target' => simpa [hsource.2 target rfl] using hsource'.1 target' rfl
    | refine target' => simpa [converted, Operand.temp] using hvalue

theorem converted_isNone (h : value.isNone = false) (t : TempId) (c : Conversion) :
    (converted value t c).isNone = false := by
  cases c with
  | keep => exact h
  | widen target | refine target => rfl

theorem fieldAssignBy_static {l₀ : FunctionLowerer} (hstatic : node.isStaticFieldAssign = true)
    (hrun : node.value l₀ = (value, l)) (h : value.isNone = false)
    (staticType : FieldAssignExpr → Option TypeId) (fieldType : String → String → Option TypeId) :
    let c := conversionTo types module l.typeParams value.type (staticType node)
    fieldAssignBy types module staticType fieldType node l₀ =
      (converted value l.fb.nextTemp c,
        { (convert types value c l).2 with
          fb := (convert types value c l).2.fb.emitStaticStore node.staticFieldClassName node.fieldName
            (converted value l.fb.nextTemp c) }) := by
  intro c
  have hcoerced : coerceTo types module value (staticType node) l = (converted value l.fb.nextTemp c,
      (convert types value c l).2) :=
    (coerceTo_eq h _).trans (Prod.ext (convert_fst _) rfl)
  rw [fieldAssignBy, run_bind, hrun]
  simp only [h, hstatic, Bool.false_eq_true, if_false, if_true]
  rw [run_bind, hcoerced]
  simp only [converted_isNone h, Bool.false_eq_true, if_false]
  rfl

theorem fieldAssignBy_instance {l₀ l₁ : FunctionLowerer} {base : Operand}
    (hstatic : node.isStaticFieldAssign = false) (hrun : node.value l₀ = (value, l₁))
    (h : value.isNone = false) (hobject : node.object l₁ = (base, l)) (hbase : base.isNone = false)
    (staticType : FieldAssignExpr → Option TypeId) (fieldType : String → String → Option TypeId) :
    let c := conversionTo types module l.typeParams value.type
      ((types.find base.type).bind fun baseType => fieldType baseType.name node.fieldName)
    fieldAssignBy types module staticType fieldType node l₀ =
      (converted value l.fb.nextTemp c,
        { (convert types value c l).2 with
          fb := (convert types value c l).2.fb.emitFieldStore base node.fieldName
            (converted value l.fb.nextTemp c) }) := by
  intro c
  have hcoerced : coerceTo types module value
      ((types.find base.type).bind fun baseType => fieldType baseType.name node.fieldName) l =
      (converted value l.fb.nextTemp c, (convert types value c l).2) :=
    (coerceTo_eq h _).trans (Prod.ext (convert_fst _) rfl)
  rw [fieldAssignBy, run_bind, hrun]
  simp only [h, hstatic, Bool.false_eq_true, if_false]
  rw [run_bind, hobject]
  simp only [hbase, Bool.false_eq_true, if_false]
  rw [run_bind, hcoerced]
  simp only [converted_isNone h, Bool.false_eq_true, if_false]
  rfl

/-- A static store is converted as for the declared type exactly if the first static field of this
    name asks for the same conversion. -/
theorem fieldAssign_static_iff {l₀ : FunctionLowerer} (hstatic : node.isStaticFieldAssign = true)
    (hrun : node.value l₀ = (value, l)) (h : value.isNone = false) (declared : TypeId) :
    fieldAssign types module node l₀ = storesAs types module declared node l₀ ↔
      conversionTo types module l.typeParams value.type
          ((module.statics.find? (·.name = node.fieldName)).map (·.type)) =
        conversionTo types module l.typeParams value.type (some declared) := by
  rw [fieldAssign, storesAs, fieldAssignBy_static hstatic hrun h, fieldAssignBy_static hstatic hrun h]
  refine ⟨fun heq => conversionTo_inj (congrArg Prod.fst heq) ?_, fun heq => by rw [heq]⟩
  exact congrArg (·.2.fb.nextTemp) heq

theorem fieldAssign_instance_iff {l₀ l₁ : FunctionLowerer} {base : Operand} {baseType : MirType}
    {field : FieldLayout} (hstatic : node.isStaticFieldAssign = false)
    (hrun : node.value l₀ = (value, l₁)) (h : value.isNone = false)
    (hobject : node.object l₁ = (base, l)) (hbase : base.isNone = false)
    (htype : types.find base.type = some baseType)
    (hfield : zl.graph.Nearest module.parentLayout (module.ownField · node.fieldName) baseType.name
      (some field)) :
    fieldAssign types module node l₀ = storesAs types module field.type node l₀ ↔
      (module.ownField baseType.name node.fieldName).isSome ∨
        conversionTo types module l.typeParams value.type (some field.type) = .keep := by
  rw [fieldAssign, storesAs, fieldAssignBy_instance hstatic hrun h hobject hbase,
    fieldAssignBy_instance hstatic hrun h hobject hbase, htype]
  simp only [Option.bind_some]
  cases hfield with
  | own hown =>
    simp [hown]
  | inherited hnone =>
    simp only [hnone, Option.map_none, Option.isSome_none, Bool.false_eq_true, false_or]
    constructor
    · intro heq
      have hkeep := conversionTo_inj (t := none) (congrArg Prod.fst heq) (congrArg (·.2.fb.nextTemp) heq)
      exact hkeep.symm
    · intro hkeep
      rw [hkeep]
      rfl

/-- A converted value is of the declared type, and no longer dynamic. -/
theorem checkStored_converted {typeParams : List String} (assignable : TypeId → TypeId → Bool)
    (t : TempId) (declared : TypeId) :
    checkStored types assignable
        (converted value t (conversionTo types module typeParams value.type (some declared)))
        declared = true ↔
      conversionTo types module typeParams value.type (some declared) ≠ .keep ∨
        checkStored types assignable value declared = true := by
  simp only [conversionTo, conversion]
  split
  · simp [converted]
  · split
    next fromType toType hfrom hto =>
      split_ifs with hwiden hrefine
      · simp [converted, checkStored, requireRefined, Operand.temp, hto, hwiden.2]
      · simp [converted, checkStored, requireRefined, Operand.temp, hto, hrefine.2.1]
      · simp [converted]
    next => simp [converted]

/-- What is stored is converted by the declared type of the field that is written, and the verifier
    accepts it there. -/
def ConvertedFor (types : TypeTable) (module : Module) (assignable : TypeId → TypeId → Bool)
    (node : FieldAssignExpr) (declared : TypeId) (l : FunctionLowerer) : Prop :=
  fieldAssign types module node l = storesAs types module declared node l ∧
    checkStored types assignable (fieldAssign types module node l).1 declared = true

/-- A field store is converted by the declared type of its field exactly in these cases: for `C.f`, the
    first static field named `f` asks for the same conversion; for `o.f`, the receiver's own class
    declares `f`, or none is needed. A value that is stored as it is also has to pass the verifier. -/
theorem field_stores_converted_iff {types : TypeTable} {module : Module} {node : FieldAssignExpr}
    {l₀ l₁ : FunctionLowerer} {value : Operand} (assignable : TypeId → TypeId → Bool)
    (hrun : node.value l₀ = (value, l₁)) (hvalue : value.isNone = false) :
    (∀ declared, node.isStaticFieldAssign = true →
      module.staticOf node.staticFieldClassName node.fieldName = some declared →
      (ConvertedFor types module assignable node declared.type l₀ ↔
        conversionTo types module l₁.typeParams value.type
            ((module.statics.find? (·.name = node.fieldName)).map (·.type)) =
          conversionTo types module l₁.typeParams value.type (some declared.type) ∧
        (conversionTo types module l₁.typeParams value.type (some declared.type) ≠ .keep ∨
          checkStored types assignable value declared.type = true))) ∧
    ∀ l₂ base baseType field, node.isStaticFieldAssign = false → node.object l₁ = (base, l₂) →
      base.isNone = false → types.find base.type = some baseType →
      zl.graph.Nearest module.parentLayout (module.ownField · node.fieldName) baseType.name (some field) →
      (ConvertedFor types module assignable node field.type l₀ ↔
        ((module.ownField baseType.name node.fieldName).isSome ∨
          conversionTo types module l₂.typeParams value.type (some field.type) = .keep) ∧
        (conversionTo types module l₂.typeParams value.type (some field.type) ≠ .keep ∨
          checkStored types assignable value field.type = true)) := by
  refine ⟨fun declared hstatic _ => ?_,
    fun l₂ base baseType field hstatic hobject hbase htype hfield => ?_⟩
  · rw [ConvertedFor, ← fieldAssign_static_iff hstatic hrun hvalue]
    refine and_congr_right fun hsame => ?_
    rw [hsame, storesAs, fieldAssignBy_static hstatic hrun hvalue]
    exact checkStored_converted _ _ _
  · rw [ConvertedFor, ← fieldAssign_instance_iff hstatic hrun hvalue hobject hbase htype hfield]
    refine and_congr_right fun hsame => ?_
    rw [hsame, storesAs, fieldAssignBy_instance hstatic hrun hvalue hobject hbase, htype]
    exact checkStored_converted _ _ _

/-- `int`, the dynamic type and class `B`. -/
def inheritingTypes : TypeTable :=
  { find := fun id => [{ kind := .Int }, { kind := .Unknown }, { kind := .Object, name := "B" }][id - 1]?
    isNullable := fun _ => false, boolType := 0, intType := 1, doubleType := 0, stringType := 0 }

def inheritingModule : Module :=
  { classes := [{ name := "A", fields := [{ name := "x", type := 1 }] }, { name := "B", parent := "A" }] }

def dynamicStore : FieldAssignExpr :=
  { object := pure (.param 1 3), value := pure (.param 0 2), fieldName := "x" }

theorem inherited_field_nearest :
    zl.graph.Nearest inheritingModule.parentLayout (inheritingModule.ownField · "x") "B"
      (some { name := "x", type := 1 }) :=
  .inherited (by decide) (by decide : _ = some "A") (.own (by decide))

theorem inherited_field_unasserted :
    ¬∃ assignable, ∀ field, zl.graph.Nearest inheritingModule.parentLayout (inheritingModule.ownField · "x") "B"
      (some field) →
        ConvertedFor inheritingTypes inheritingModule assignable dynamicStore field.type {} := by
  rintro ⟨assignable, hconverted⟩
  have hchecked := (hconverted _ inherited_field_nearest).2
  rw [checkStored, Bool.and_eq_true] at hchecked
  exact absurd hchecked.2 (by decide)

theorem own_field_asserted :
    ConvertedFor inheritingTypes
      { inheritingModule with classes := [{ name := "B", fields := [{ name := "x", type := 1 }] }] }
      (fun _ _ => false) dynamicStore 1 {} :=
  ((field_stores_converted_iff _ (show dynamicStore.value {} = (.param 0 2, {}) from rfl) rfl).2 _ _ _
    { name := "x", type := 1 } rfl rfl rfl rfl
    (.own (by decide))).mpr (by decide)

end

end FunctionLowerer

end zl.mir
