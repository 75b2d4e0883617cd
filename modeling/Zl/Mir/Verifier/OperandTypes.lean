import Zl.Mir.Verifier.CheckedOperands

namespace zl.mir.Verifier

/-- A temp operand carries exactly the type its defining instruction declares. -/
def carriesDeclaredType (f : Function) (operand : Operand) : Bool :=
  (definition f operand.index).any (·.instruction.resultType == operand.type)

/-- The operands terminators read: their values, and the arguments of their edges. -/
def terminatorOperands (f : Function) : List Operand :=
  f.blocks.flatMap fun b => b.terminator.value :: b.terminator.edgeArguments.flatten

/-- The operands of instructions the verifier compares with no declared type: those of a
    placeholder, and those whose defining instruction is listed later. -/
def uncheckedOperands : List Position → List Operand
  | [] => []
  | place :: after =>
    (place.instruction.operands.filter fun operand =>
      place.instruction.opcode == .Nop || after.any (·.instruction.result == operand.index)) ++
      uncheckedOperands after

section
variable {rules : TypeRules} {m : Module} {f : Function}

/-- The types recorded once a list of instructions is behind. -/
def recordedTypes (places : List Position) (start : TempId → Option TypeId) : TempId → Option TypeId :=
  places.foldl (fun tempTypes place => recordResult tempTypes place.instruction) start

theorem checkFrom_append (start : TempId → Option TypeId) (before after : List Position) :
    checkFrom rules m f start (before ++ after) =
      checkFrom rules m f start before ++
        checkFrom rules m f (recordedTypes before start) after := by
  induction before generalizing start with
  | nil => rfl
  | cons place before ih =>
    rw [List.cons_append, checkFrom, checkFrom, ih, List.append_assoc]
    rfl

theorem recordResult_of_ok {tempTypes types : TempId → Option TypeId} {place : Position}
    (hok : checkInstruction rules m f types place.block place.instruction place.index = []) :
    recordResult tempTypes place.instruction =
      if place.instruction.result = kNoTemp then tempTypes
      else Function.update tempTypes place.instruction.result (some place.instruction.resultType) := by
  unfold checkInstruction at hok
  unfold recordResult
  by_cases hnop : place.instruction.opcode = .Nop
  · have hnone : place.instruction.result = kNoTemp := by simpa [hnop] using hok
    simp [hnop, hnone]
  · by_cases hcount : operandCountOk place.instruction = true
    · by_cases hresult : place.instruction.result = kNoTemp
      · simp [hresult]
      · simp [hnop, hcount, hresult]
    · simp [hnop, hcount] at hok

theorem recordedTypes_eq (hdefinitions : collectDefinitions f = []) {places : List Position}
    (hplaces : ∀ place ∈ places, place ∈ positions f)
    (start : TempId → Option TypeId) (hok : checkFrom rules m f start places = []) {d : Position}
    (hd : d ∈ places) (hresult : d.instruction.result ≠ kNoTemp) :
    recordedTypes places start d.instruction.result = some d.instruction.resultType := by
  have hkeep : ∀ (rest : List Position) (table : TempId → Option TypeId),
      (∀ place ∈ rest, place ∈ positions f) → checkFrom rules m f table rest = [] →
      table d.instruction.result = some d.instruction.resultType →
      recordedTypes rest table d.instruction.result = some d.instruction.resultType := by
    intro rest
    induction rest with
    | nil => exact fun table _ _ h => h
    | cons place rest ih =>
      intro table hrest hrestok h
      rw [checkFrom, List.append_eq_nil_iff] at hrestok
      refine ih _ (fun p hp => hrest p (List.mem_cons_of_mem _ hp)) hrestok.2 ?_
      simp only
      rw [recordResult_of_ok hrestok.1]
      split
      · exact h
      next hplace =>
        by_cases hsame : d.instruction.result = place.instruction.result
        · have hplaceDef := definition_eq hdefinitions (hrest place List.mem_cons_self) hplace
          have hdDef : definition f d.instruction.result = some d :=
            definition_eq hdefinitions (hplaces d hd) hresult
          rw [hsame, hplaceDef] at hdDef
          rw [hsame, Function.update_self, Option.some.inj hdDef]
        · rw [Function.update_of_ne hsame]
          exact h
  obtain ⟨before, after, rfl⟩ := List.append_of_mem hd
  rw [checkFrom_append, List.append_eq_nil_iff, checkFrom, List.append_eq_nil_iff] at hok
  obtain ⟨-, hhere, hafter⟩ := hok
  rw [recordedTypes, List.foldl_append, List.foldl_cons]
  refine hkeep after _ (fun p hp => hplaces p (by simp [hp])) hafter ?_
  rw [recordResult_of_ok hhere, if_neg hresult, Function.update_self]

/-- An operand whose definition is not listed later is compared with the recorded type. -/
theorem typed_of_listed (h : Accepted rules m f) {before after : List Position} {place : Position}
    (hpositions : positions f = before ++ [place] ++ after) (hnop : place.instruction.opcode ≠ .Nop)
    {operand : Operand} (hmem : operand ∈ place.instruction.operands) (hkind : operand.kind = .Temp)
    (hlater : ∀ p ∈ after, p.instruction.result ≠ operand.index) :
    carriesDeclaredType f operand = true := by
  have hok := h.instructions
  rw [checkInstructions, hpositions, checkFrom_append, List.append_eq_nil_iff] at hok
  have hhere := hok.1
  rw [checkFrom_append, List.append_eq_nil_iff, checkFrom, List.append_eq_nil_iff] at hok
  obtain ⟨what, hoperand⟩ := checkInstruction_operand hok.1.2.1 hnop hmem
  obtain ⟨⟨d, hd⟩, htable⟩ := checkOperand_temp hkind hoperand
  obtain ⟨hdmem, hdresult, hne⟩ := definition_mem hd
  have hdhere : d ∈ before ++ [place] := by
    rw [hpositions, List.mem_append] at hdmem
    exact hdmem.resolve_right fun hafter => hlater d hafter hdresult
  have hplaces : ∀ p ∈ before ++ [place], p ∈ positions f := by
    intro p hp
    rw [hpositions]
    exact List.mem_append_left _ hp
  have hrecorded := recordedTypes_eq h.definitions hplaces _ hhere hdhere (hdresult ▸ hne)
  rw [hdresult, recordedTypes, List.foldl_append] at hrecorded
  rw [carriesDeclaredType, hd, Option.any_some, htable _ hrecorded]
  exact beq_self_eq_true _

/-- The temps of instructions are compared with the types their definitions declare, except in a
    placeholder and where the definition is listed later. -/
theorem instructionOperands_typed (h : Accepted rules m f) :
    (∀ operand ∈ instructionOperands f, operand.kind = .Temp → carriesDeclaredType f operand = true) ↔
      ∀ operand ∈ uncheckedOperands (positions f), operand.kind = .Temp →
        carriesDeclaredType f operand = true := by
  have hsplit : ∀ before after, positions f = before ++ after →
      ((∀ place ∈ after, ∀ operand ∈ place.instruction.operands, operand.kind = .Temp →
          carriesDeclaredType f operand = true) ↔
        ∀ operand ∈ uncheckedOperands after, operand.kind = .Temp →
          carriesDeclaredType f operand = true) := by
    intro before after
    induction after generalizing before with
    | nil => simp [uncheckedOperands]
    | cons place after ih =>
      intro hpositions
      rw [List.append_cons] at hpositions
      rw [uncheckedOperands]
      simp only [List.forall_mem_cons, List.forall_mem_append, ih _ hpositions]
      refine and_congr_left fun _ =>
        ⟨fun hall operand hmem => hall operand (List.mem_filter.mp hmem).1, ?_⟩
      intro hunchecked operand hmem hkind
      by_cases hskip : (place.instruction.opcode == .Nop ||
          after.any (·.instruction.result == operand.index)) = true
      · exact hunchecked operand (List.mem_filter.mpr ⟨hmem, hskip⟩) hkind
      · obtain ⟨hnop, hlater⟩ : place.instruction.opcode ≠ .Nop ∧
            ∀ p ∈ after, p.instruction.result ≠ operand.index := by simpa using hskip
        exact typed_of_listed h hpositions hnop hmem hkind hlater
  rw [← hsplit [] (positions f) rfl]
  unfold instructionOperands
  simp only [List.mem_flatMap]
  constructor
  · exact fun hops place hplace operand hmem => hops operand ⟨place, hplace, hmem⟩
  · rintro hops operand ⟨place, hplace, hmem⟩
    exact hops place hplace operand hmem

/-- In an accepted function every temp operand carries the type its definition declares
    exactly if those of the terminators, of the edge arguments, of placeholders and of
    instructions listed before the definition do: nothing compares these. -/
theorem operandTypes_iff (rules : TypeRules) (m : Module) (f : Function) (options : VerifierOptions)
    (hok : verifyFunction rules m f options = []) :
    (∀ operand ∈ instructionOperands f ++ terminatorOperands f, operand.kind = .Temp →
        carriesDeclaredType f operand = true) ↔
      ∀ operand ∈ uncheckedOperands (positions f) ++ terminatorOperands f, operand.kind = .Temp →
        carriesDeclaredType f operand = true := by
  simp only [List.forall_mem_append]
  exact and_congr_left fun _ => instructionOperands_typed (accepted_of_verifyFunction hok)

end

/-- The types of the examples: a bool, an int and a list, assignable to themselves only. -/
def exampleTypes : TypeRules where
  find
    | 1 => some { kind := .Bool }
    | 2 => some { kind := .Int }
    | 3 => some { kind := .List, arguments := [2] }
    | 4 => some { kind := .Void }
    | _ => none
  isNullable id := id == 3
  assignable source target := source == target
  render
    | 1 => "bool"
    | 2 => "int"
    | 3 => "list<int>"
    | _ => "void"
  valueRules _ _ _ _ := []

/-- An int is stored and loaded, and the loaded temp is returned at the given type. -/
def returnLoaded (type : TypeId) : Function := Function.rebuildEdges {
  name := "returnLoaded"
  parameters := [{ name := "n", type := 2 }]
  returnType := type
  slots := [{ name := "x", type := 2 }]
  entryBlock := 1
  blocks := [
    { id := 1
      instructions := [
        { opcode := .Store, operands := [.param 0 2], slot := 1 },
        { opcode := .Load, result := 1, resultType := 2, slot := 1 }]
      terminator := { kind := .Return, value := .temp 1 type } }] }

theorem operandTypes_iff_returnLoaded : verifyFunction exampleTypes {} (returnLoaded 2) {} = [] ∧
    ∀ operand ∈ instructionOperands (returnLoaded 2) ++ terminatorOperands (returnLoaded 2),
      operand.kind = .Temp → carriesDeclaredType (returnLoaded 2) operand = true := by
  have haccepted : verifyFunction exampleTypes {} (returnLoaded 2) {} = [] := by decide +kernel
  exact ⟨haccepted, (operandTypes_iff exampleTypes {} (returnLoaded 2) {} haccepted).mpr
    (by decide +kernel)⟩

/-- The verifier accepts a function that returns an int temp as a bool. -/
theorem verifyFunction_accepts_returnLoaded_as_bool :
    ¬ ∀ (rules : TypeRules) (m : Module) (f : Function) (options : VerifierOptions),
      verifyFunction rules m f options = [] →
        ∀ operand ∈ instructionOperands f ++ terminatorOperands f, operand.kind = .Temp →
          carriesDeclaredType f operand = true := by
  intro htyped
  have hreturn := htyped exampleTypes {} (returnLoaded 1) {} (by decide +kernel) (.temp 1 1)
    (by decide +kernel) rfl
  exact absurd hreturn (by decide +kernel)

end zl.mir.Verifier
