import Zl.Mir.Reachability

open zl.mir.ControlFlowGraph

namespace zl.mir.Verifier

/-- An error when the flag is set, tied to a block and an instruction. -/
def errorIf (bad : Bool) (message : String) (block : BlockId) (index : Option Nat) :
    List Diagnostic :=
  if bad then [{ block := block, instructionIndex := index, message := message }] else []

@[simp]
theorem errorIf_eq_nil {bad : Bool} {message : String} {block : BlockId} {index : Option Nat} :
    errorIf bad message block index = [] ↔ bad = false := by
  cases bad <;> simp [errorIf]

/-- A place in the listing of a function: a block, and an instruction of it with its index. -/
structure Position where
  block : BasicBlock
  index : Nat
  instruction : Instruction
  deriving DecidableEq, Repr

/-- Every instruction of a function in the order in which its blocks list them. -/
def positions (f : Function) : List Position :=
  f.blocks.flatMap fun b => b.instructions.zipIdx.map fun p => ⟨b, p.2, p.1⟩

theorem mem_positions {f : Function} {place : Position} :
    place ∈ positions f ↔ place.block ∈ f.blocks ∧
      place.block.instructions[place.index]? = some place.instruction := by
  unfold positions
  simp only [List.mem_flatMap, List.mem_map]
  constructor
  · rintro ⟨b, hb, p, hp, rfl⟩
    exact ⟨hb, List.mk_mem_zipIdx_iff_getElem?.mp hp⟩
  · rintro ⟨hb, hget⟩
    exact ⟨place.block, hb, (place.instruction, place.index),
      List.mk_mem_zipIdx_iff_getElem?.mpr hget, rfl⟩

theorem exists_position {f : Function} {b : BasicBlock} (hb : b ∈ f.blocks) {instruction : Instruction}
    (h : instruction ∈ b.instructions) : ∃ place ∈ positions f, place.instruction = instruction := by
  obtain ⟨i, hi⟩ := List.mem_iff_getElem?.mp h
  exact ⟨⟨b, i, instruction⟩, mem_positions.mpr ⟨hb, hi⟩, rfl⟩

/-- The first instruction listed that defines the temp. -/
def definition (f : Function) (temp : TempId) : Option Position :=
  if temp = kNoTemp then none else (positions f).find? (·.instruction.result == temp)

/-- A temp has one definition. -/
def collectDefinitions (f : Function) : List Diagnostic :=
  (positions f).zipIdx.flatMap fun p =>
    let temp := p.1.instruction.result
    match ((positions f).take p.2).find? (·.instruction.result == temp) with
    | none => []
    | some first =>
      errorIf (temp != kNoTemp)
        ("temp %" ++ toString temp ++ " is defined more than once (first in block b" ++
          toString first.block.id ++ ")") p.1.block.id (some p.1.index)

/-- A type id must name a type of the module. -/
def validType (rules : TypeRules) (id : TypeId) (what : String) (block : BlockId)
    (index : Option Nat) : List Diagnostic :=
  if id = kNoType then errorIf true (what ++ " has no type") block index
  else
    errorIf (rules.find id).isNone (what ++ " refers to unknown type id " ++ toString id) block index

/-- A constant may only be used at a type of its own kind. -/
def constantMatches (rules : TypeRules) (constant : Constant) (id : TypeId) (type : MirType) : Bool :=
  match constant.kind with
  | .Bool => type.kind == .Bool
  | .Int => type.kind == .Int
  | .Double => type.kind == .Double
  | .String => type.kind == .String
  | .Nil => rules.isNullable id
  | .EnumMember => type.kind == .Object && type.name == constant.enumTypeName

/-- An operand must resolve, and carry the type of what it names. The type of a temp is the one
    recorded so far, if any. -/
def checkOperand (rules : TypeRules) (m : Module) (f : Function) (tempTypes : TempId → Option TypeId)
    (operand : Operand) (what : String) (block : BlockId) (index : Option Nat) : List Diagnostic :=
  let error := fun message => errorIf true (what ++ message) block index
  if operand.kind = .None then error " is absent"
  else if validType rules operand.type what block index ≠ [] then
    validType rules operand.type what block index
  else
    match operand.kind with
    | .None => []
    | .Const =>
      match m.constant operand.index, rules.find operand.type with
      | none, _ => error (" refers to unknown constant " ++ toString operand.index)
      | some _, none => []
      | some constant, some type =>
        errorIf (!constantMatches rules constant operand.type type)
          (what ++ " is the " ++ constKindName constant.kind ++ " constant " ++
            toString operand.index ++ " but has type " ++ rules.render operand.type) block index
    | .Temp =>
      if operand.index = kNoTemp then error " refers to no temp"
      else if (definition f operand.index).isNone then
        error (" refers to temp %" ++ toString operand.index ++
          ", which is never defined in this function")
      else
        match tempTypes operand.index with
        | none => []
        | some type =>
          errorIf (type != operand.type)
            (what ++ " refers to temp %" ++ toString operand.index ++ " as " ++
              rules.render operand.type ++ " but it is defined as " ++ rules.render type) block index
    | .Param =>
      match f.parameter operand.index with
      | none => error (" refers to unknown parameter " ++ toString operand.index)
      | some parameter =>
        errorIf (parameter.type != operand.type)
          (what ++ " refers to parameter " ++ toString operand.index ++ " ('" ++ parameter.name ++
            "') as " ++ rules.render operand.type ++ " but it is declared " ++
            rules.render parameter.type) block index
    | .BlockParam =>
      if operand.index = kNoBlockParam then error " refers to no block parameter"
      else
        match f.blockParameter operand.index with
        | none =>
          error (" refers to block parameter ^" ++ toString operand.index ++
            ", which no block defines")
        | some parameter =>
          if parameter.type ≠ operand.type then
            error (" refers to block parameter ^" ++ toString operand.index ++ " ('" ++
              parameter.name ++ "') as " ++ rules.render operand.type ++ " but it is declared " ++
              rules.render parameter.type)
          else
            match f.blockOfParameter operand.index, f.block block with
            | some owner, some _ =>
              errorIf (owner.id != block && !dominates f owner.id block)
                (what ++ " uses block parameter ^" ++ toString operand.index ++
                  " defined by block b" ++ toString owner.id ++
                  ", which does not dominate block b" ++ toString block) block index
            | _, _ => []
    | .Static =>
      match m.staticField operand.index with
      | none => error (" refers to unknown static field " ++ toString operand.index)
      | some field =>
        errorIf (field.type != operand.type)
          (what ++ " refers to static " ++ field.className ++ "." ++ field.name ++ " as " ++
            rules.render operand.type ++ " but it is declared " ++ rules.render field.type) block index

/-- A dynamic value may cross into statically typed territory only through a refine. -/
def requireRefined (rules : TypeRules) (value : Operand) (targetId : TypeId) (what : String)
    (block : BlockId) (index : Option Nat) : List Diagnostic :=
  if value.isNone then []
  else
    match rules.find value.type, rules.find targetId with
    | some source, some target =>
      errorIf (source.kind == .Unknown && target.kind != .Unknown && target.kind != .TypeParam &&
          target.kind != .Void)
        (what ++ " passes a dynamic (unknown) value where " ++ rules.render targetId ++
          " is declared without a runtime type assertion; lower the boundary as refine") block index
    | _, _ => []

/-- An unsubstituted generic parameter is only meaningful inside a template that declares it.
    Arguments of a type were interned before it, so the fuel is its id. -/
def checkTypeParamScope (rules : TypeRules) (f : Function) (what : String) (block : BlockId)
    (index : Option Nat) : Nat → TypeId → List Diagnostic
  | 0, _ => []
  | fuel + 1, id =>
    match rules.find id with
    | none => []
    | some type =>
      if type.kind = .TypeParam then
        if f.typeParameters = [] ∧ f.methodTypeParameters = [] then
          errorIf true (what ++ " uses generic parameter '" ++ type.name ++
            "' but the function is not a generic template") block index
        else
          errorIf (!(f.typeParameters.contains type.name || f.methodTypeParameters.contains type.name))
            (what ++ " uses generic parameter '" ++ type.name ++
              "' which the function does not declare") block index
      else type.arguments.flatMap fun argument =>
        checkTypeParamScope rules f what block index fuel argument

end zl.mir.Verifier
