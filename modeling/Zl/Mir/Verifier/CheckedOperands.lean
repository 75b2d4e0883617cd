import Zl.Mir.Verifier.ControlFlow
import Zl.Mir.Verifier.Instructions
import Zl.Mir.Verifier.OwnershipFlow
import Zl.Mir.Verifier.SafetyTermination

open zl.mir.ControlFlowGraph

namespace zl.mir.Verifier

structure VerifierOptions where
  checkOwnership : Bool := true
  unreachableBlocksAreErrors : Bool := true
  deriving DecidableEq, Repr

/-- The errors the verifier reports for one function, phase by phase. A cap on the number of
    errors cuts the list, but never empties it. -/
def verifyFunction (rules : TypeRules) (m : Module) (f : Function) (options : VerifierOptions) :
    List Diagnostic :=
  if f.blocks = [] then checkSignature rules f
  else
    checkSignature rules f ++ collectDefinitions f ++
      checkControlFlow rules m f options.unreachableBlocksAreErrors ++ checkInstructions rules m f ++
      checkDominance f ++ (if options.checkOwnership then checkOwnershipFlow f else []) ++
      appendSafetyAnalysis options.checkOwnership f

/-- What an accepted function passed, one field for each phase. -/
structure Accepted (rules : TypeRules) (m : Module) (f : Function) : Prop where
  nonempty : f.blocks ≠ []
  signature : checkSignature rules f = []
  definitions : collectDefinitions f = []
  blocks : ∀ b i, f.blocks[i]? = some b → checkBlock rules m f b i = []
  entry : predecessors f f.entryBlock = []
  parameters : checkBlockParameters rules m f = []
  instructions : checkInstructions rules m f = []
  dominance : checkDominance f = []

theorem accepted_of_verifyFunction {rules : TypeRules} {m : Module} {f : Function}
    {options : VerifierOptions} (hok : verifyFunction rules m f options = []) : Accepted rules m f := by
  by_cases hempty : f.blocks = []
  · rw [verifyFunction, if_pos hempty, checkSignature, if_pos hempty] at hok
    simp at hok
  · rw [verifyFunction, if_neg hempty] at hok
    simp only [List.append_eq_nil_iff, checkControlFlow, errorIf_eq_nil] at hok
    obtain ⟨⟨⟨⟨⟨⟨hsignature, hdefinitions⟩, hflow⟩, hinstructions⟩, hdominance⟩, -⟩, -⟩ := hok
    obtain ⟨⟨⟨⟨⟨hblocks, -⟩, hentry⟩, -⟩, hparameters⟩, -⟩ := hflow
    refine ⟨hempty, hsignature, hdefinitions, fun b i hget => ?_, by simpa using hentry,
      hparameters, hinstructions, hdominance⟩
    exact List.flatMap_eq_nil_iff.mp hblocks (b, i) (List.mk_mem_zipIdx_iff_getElem?.mpr hget)

namespace Accepted

variable {rules : TypeRules} {m : Module} {f : Function}

theorem id_eq (h : Accepted rules m f) {b : BasicBlock} {i : Nat} (hget : f.blocks[i]? = some b) :
    b.id = i + 1 := by
  have hok := h.blocks b i hget
  unfold checkBlock at hok
  split at hok
  · simp at hok
  · simp only [List.append_eq_nil_iff, errorIf_eq_nil] at hok
    simpa using hok.1.1.1.1

theorem distinctIds (h : Accepted rules m f) : f.DistinctIds := by
  refine List.nodup_iff_injective_getElem.mpr fun i j heq => ?_
  have hlength : ∀ k : Fin (f.blocks.map (·.id)).length, k.1 < f.blocks.length := by
    intro k
    simpa using k.2
  have hid : ∀ k : Fin (f.blocks.map (·.id)).length,
      (f.blocks.map (·.id))[k.1] = k.1 + 1 := by
    intro k
    rw [List.getElem_map]
    exact h.id_eq (List.getElem?_eq_getElem (hlength k))
  have hsame : (f.blocks.map (·.id))[i.1] = (f.blocks.map (·.id))[j.1] := heq
  rw [hid i, hid j] at hsame
  exact Fin.ext (Nat.succ.inj hsame)

theorem id_ne (h : Accepted rules m f) {b : BasicBlock} (hb : b ∈ f.blocks) : b.id ≠ kNoBlock := by
  obtain ⟨i, hi⟩ := List.mem_iff_getElem?.mp hb
  rw [h.id_eq hi]
  exact Nat.succ_ne_zero i

theorem entry_eq (h : Accepted rules m f) :
    ∃ b ∈ f.blocks, b.id = f.entryBlock ∧ f.blocks.head? = some b := by
  obtain ⟨b, rest, hblocks⟩ := List.exists_cons_of_ne_nil h.nonempty
  have hok := h.signature
  rw [checkSignature, if_neg h.nonempty] at hok
  simp only [List.append_eq_nil_iff] at hok
  have hentry := hok.1.1.2
  unfold checkEntry at hentry
  simp only [hblocks, List.head?_cons, Option.map_some, Option.getD_some] at hentry
  split at hentry
  · simp at hentry
  · refine ⟨b, by rw [hblocks]; exact List.mem_cons_self, by simpa using hentry, by rw [hblocks]; rfl⟩

theorem entry_ne (h : Accepted rules m f) : f.entryBlock ≠ kNoBlock := by
  obtain ⟨b, hb, hid, -⟩ := h.entry_eq
  exact hid ▸ h.id_ne hb

theorem block_eq (h : Accepted rules m f) {b : BasicBlock} (hb : b ∈ f.blocks) :
    f.block b.id = some b := by
  unfold Function.block
  rw [if_neg (h.id_ne hb)]
  cases hfind : f.blocks.find? (·.id == b.id) with
  | none =>
    have hnone := List.find?_eq_none.mp hfind b hb
    simp at hnone
  | some c =>
    have hid : c.id = b.id := by simpa using List.find?_some hfind
    rw [h.distinctIds.eq (List.mem_of_find?_eq_some hfind) hb hid]

theorem terminator_ok (h : Accepted rules m f) {b : BasicBlock} (hb : b ∈ f.blocks) :
    checkTerminator rules m f b = [] := by
  obtain ⟨i, hi⟩ := List.mem_iff_getElem?.mp hb
  have hok := h.blocks b i hi
  unfold checkBlock at hok
  split at hok
  · simp at hok
  · simp only [List.append_eq_nil_iff] at hok
    exact hok.2

end Accepted

section
variable {rules : TypeRules} {m : Module} {f : Function}
variable {operand : Operand} {place : Position}

theorem definition_mem {temp : TempId} (h : definition f temp = some place) :
    place ∈ positions f ∧ place.instruction.result = temp ∧ temp ≠ kNoTemp := by
  unfold definition at h
  split at h
  · cases h
  next hne => exact ⟨List.mem_of_find?_eq_some h, by simpa using List.find?_some h, hne⟩

/-- Without a report of a second definition, an instruction that defines a temp is the one its
    definition is. -/
theorem definition_eq (hok : collectDefinitions f = []) (hplace : place ∈ positions f)
    (hresult : place.instruction.result ≠ kNoTemp) :
    definition f place.instruction.result = some place := by
  cases hfind : definition f place.instruction.result with
  | none =>
    rw [definition, if_neg hresult] at hfind
    have hnone := List.find?_eq_none.mp hfind place hplace
    simp at hnone
  | some first =>
    rw [definition, if_neg hresult] at hfind
    obtain ⟨-, i, hi, hget, hbefore⟩ := List.find?_eq_some_iff_getElem.mp hfind
    obtain ⟨j, hj⟩ := List.mem_iff_getElem?.mp hplace
    obtain ⟨hjlen, hjget⟩ := List.getElem?_eq_some_iff.mp hj
    have hle : i ≤ j := by
      by_contra hlt
      have hno := hbefore j (by omega)
      rw [hjget] at hno
      simp at hno
    by_cases heq : i = j
    · subst heq
      rw [← hget, hjget]
    · have hreport := List.flatMap_eq_nil_iff.mp hok (place, j) (List.mk_mem_zipIdx_iff_getElem?.mpr hj)
      simp only at hreport
      have htake : first ∈ (positions f).take j := by
        rw [List.mem_take_iff_getElem]
        exact ⟨i, by omega, hget⟩
      have hsame : first.instruction.result = place.instruction.result := by
        simpa using List.find?_some hfind
      cases hearlier : ((positions f).take j).find?
          (·.instruction.result == place.instruction.result) with
      | none =>
        have hnone := List.find?_eq_none.mp hearlier first htake
        simp [hsame] at hnone
      | some other =>
        rw [hearlier] at hreport
        simp [hresult] at hreport

theorem checkOperand_temp {tempTypes : TempId → Option TypeId} {what : String} {block : BlockId}
    {index : Option Nat} (hkind : operand.kind = .Temp)
    (hok : checkOperand rules m f tempTypes operand what block index = []) :
    (∃ d, definition f operand.index = some d) ∧
      ∀ type, tempTypes operand.index = some type → type = operand.type := by
  unfold checkOperand at hok
  simp only [hkind, reduceCtorEq, if_false] at hok
  split at hok
  next htype => exact absurd hok htype
  · split at hok
    · simp at hok
    · split at hok
      · simp at hok
      next hsome =>
        refine ⟨?_, fun type htype => ?_⟩
        · cases hd : definition f operand.index with
          | none => simp [hd] at hsome
          | some d => exact ⟨d, rfl⟩
        · rw [htype] at hok
          simpa using hok

theorem checkOperand_blockParam {tempTypes : TempId → Option TypeId} {what : String}
    {block : BlockId} {index : Option Nat} (hkind : operand.kind = .BlockParam)
    (hblock : ∃ b, f.block block = some b)
    (hok : checkOperand rules m f tempTypes operand what block index = []) :
    ∃ owner, f.blockOfParameter operand.index = some owner ∧
      (owner.id = block ∨ dominates f owner.id block = true) := by
  obtain ⟨b, hb⟩ := hblock
  unfold checkOperand at hok
  simp only [hkind, reduceCtorEq, if_false] at hok
  split at hok
  next htype => exact absurd hok htype
  · split at hok
    · simp at hok
    next hne =>
      cases hparam : f.blockParameter operand.index with
      | none => simp [hparam] at hok
      | some parameter =>
        rw [hparam] at hok
        simp only at hok
        split at hok
        · simp at hok
        · cases howner : f.blockOfParameter operand.index with
          | none =>
            -- A parameter that some block declares has an owner.
            rw [Function.blockParameter, if_neg hne] at hparam
            rw [Function.blockOfParameter, if_neg hne] at howner
            obtain ⟨c, hc, hmem⟩ := List.mem_flatMap.mp (List.mem_of_find?_eq_some hparam)
            have hno := List.find?_eq_none.mp howner c hc
            have hid := List.find?_some hparam
            exact absurd (List.any_eq_true.mpr ⟨parameter, hmem, hid⟩) hno
          | some owner =>
            rw [howner, hb] at hok
            simp only [errorIf_eq_nil, Bool.and_eq_false_iff] at hok
            refine ⟨owner, rfl, hok.imp (fun h => ?_) fun h => ?_⟩
            · simpa using h
            · simpa using h

theorem checkInstruction_count {types : TypeId → Option TypeId} {b : BasicBlock}
    {instruction : Instruction} {index : Nat}
    (hok : checkInstruction rules m f types b instruction index = []) (hnop : instruction.opcode ≠ .Nop) :
    operandCountOk instruction = true := by
  unfold checkInstruction at hok
  rw [if_neg hnop] at hok
  cases hcount : operandCountOk instruction with
  | true => rfl
  | false => simp [hcount] at hok

/-- The operands of an accepted instruction other than a placeholder were all looked at. -/
theorem checkInstruction_operand {types : TempId → Option TypeId} {b : BasicBlock}
    {instruction : Instruction} {index : Nat}
    (hok : checkInstruction rules m f types b instruction index = [])
    (hnop : instruction.opcode ≠ .Nop) (hmem : operand ∈ instruction.operands) :
    ∃ what, checkOperand rules m f types operand what b.id (some index) = [] := by
  unfold checkInstruction at hok
  rw [if_neg hnop] at hok
  by_cases hcount : operandCountOk instruction = false
  · simp [hcount] at hok
  rw [if_neg hcount] at hok
  simp only [List.append_eq_nil_iff] at hok
  obtain ⟨j, hj⟩ := List.mem_iff_getElem?.mp hmem
  exact ⟨_, List.flatMap_eq_nil_iff.mp hok.1.2 (operand, j) (List.mk_mem_zipIdx_iff_getElem?.mpr hj)⟩

theorem checkFrom_mem {places : List Position} {start : TempId → Option TypeId}
    (hok : checkFrom rules m f start places = []) (hplace : place ∈ places) :
    ∃ types, checkInstruction rules m f types place.block place.instruction place.index = [] := by
  induction places generalizing start with
  | nil => cases hplace
  | cons first places ih =>
    rw [checkFrom, List.append_eq_nil_iff] at hok
    by_cases heq : place = first
    · exact ⟨_, heq ▸ hok.1⟩
    · exact ih hok.2 ((List.mem_cons.mp hplace).resolve_left heq)

namespace Accepted

theorem operand_ok (h : Accepted rules m f) {place : Position} (hplace : place ∈ positions f)
    (hnop : place.instruction.opcode ≠ .Nop) {operand : Operand}
    (hmem : operand ∈ place.instruction.operands) :
    ∃ types what, checkOperand rules m f types operand what place.block.id (some place.index) = [] := by
  obtain ⟨types, hok⟩ := checkFrom_mem h.instructions hplace
  exact ⟨types, checkInstruction_operand hok hnop hmem⟩

theorem count_ok (h : Accepted rules m f) {b : BasicBlock} (hb : b ∈ f.blocks) {instruction : Instruction}
    (hmem : instruction ∈ b.instructions) (hnop : instruction.opcode ≠ .Nop) :
    operandCountOk instruction = true := by
  obtain ⟨place, hplace, rfl⟩ := exists_position hb hmem
  obtain ⟨types, hok⟩ := checkFrom_mem h.instructions hplace
  exact checkInstruction_count hok hnop

/-- The value of a terminator, if there is one, was looked at. -/
theorem value_ok (h : Accepted rules m f) {b : BasicBlock} (hb : b ∈ f.blocks)
    (hvalue : b.terminator.value.isNone = false) :
    ∃ what, checkOperand rules m f noTempTypes b.terminator.value what b.id none = [] := by
  have hok := h.terminator_ok hb
  have hsubject : ∀ missing what must kind,
      checkSubject rules m f b missing what must kind = [] →
      checkOperand rules m f noTempTypes b.terminator.value what b.id none = [] := by
    intro missing what must kind hsubject
    unfold checkSubject at hsubject
    rw [if_neg (by simp [hvalue])] at hsubject
    simp only at hsubject
    split at hsubject
    next herrors => exact absurd hsubject herrors
    next herrors => simpa using herrors
  unfold checkTerminator at hok
  simp only at hok
  split at hok
  · simp at hok
  · rw [List.append_eq_nil_iff] at hok
    have hreturn := hok.2
    unfold checkReturnValue at hreturn
    split at hreturn
    · simp [hvalue] at hreturn
    · rw [if_neg (by simp [hvalue])] at hreturn
      simp only at hreturn
      split at hreturn
      next herrors => exact absurd hreturn herrors
      next herrors => exact ⟨_, by simpa using herrors⟩
  · simp [hvalue] at hok
  · simp only [List.append_eq_nil_iff] at hok
    exact ⟨_, hsubject _ _ _ _ hok.2⟩
  · simp only [List.append_eq_nil_iff] at hok
    exact ⟨_, hsubject _ _ _ _ hok.2⟩
  · rw [if_neg (by simp [hvalue]), List.append_eq_nil_iff] at hok
    exact ⟨_, hok.2⟩
  · simp [hvalue] at hok

theorem argument_ok (h : Accepted rules m f) {b : BasicBlock} (hb : b ∈ f.blocks)
    {arguments : List Operand} (harguments : arguments ∈ b.terminator.edgeArguments)
    {operand : Operand} (hmem : operand ∈ arguments) :
    ∃ what, checkOperand rules m f noTempTypes operand what b.id none = [] := by
  have hok := h.parameters
  rw [checkBlockParameters, List.append_eq_nil_iff, List.append_eq_nil_iff] at hok
  have hedges := List.flatMap_eq_nil_iff.mp hok.1.2 b hb
  unfold checkEdgeArguments at hedges
  simp only at hedges
  split at hedges
  · have hnone : b.terminator.edgeArguments = [] := by simpa using hedges
    rw [hnone] at harguments
    cases harguments
  · rw [List.append_eq_nil_iff, errorIf_eq_nil] at hedges
    obtain ⟨hall, hlength⟩ := hedges
    obtain ⟨i, hi⟩ := List.mem_iff_getElem?.mp harguments
    have hbound : i < b.terminator.successors.length := by
      obtain ⟨hlt, -⟩ := List.getElem?_eq_some_iff.mp hi
      have hle : b.terminator.edgeArguments.length ≤ b.terminator.successors.length := by
        simpa using hlength
      omega
    have hedge := List.flatMap_eq_nil_iff.mp hall _
      (List.mk_mem_zipIdx_iff_getElem?.mpr (List.getElem?_eq_getElem hbound))
    unfold checkEdge at hedge
    simp only [hi] at hedge
    split at hedge
    · simp at hedge
    next hcount =>
      obtain ⟨a, ha⟩ := List.mem_iff_getElem?.mp hmem
      obtain ⟨halt, -⟩ := List.getElem?_eq_some_iff.mp ha
      rw [not_not.mp hcount] at halt
      obtain ⟨parameters, hparameters⟩ : ∃ parameters, parameters =
          ((f.block b.terminator.successors[i]).map (·.parameters)).getD [] := ⟨_, rfl⟩
      rw [← hparameters] at halt hedge
      have hzip : (arguments.zip parameters)[a]? = some (operand, parameters[a]) :=
        List.getElem?_zip_eq_some.mpr ⟨ha, List.getElem?_eq_getElem halt⟩
      have hargument := List.flatMap_eq_nil_iff.mp hedge _ (List.mk_mem_zipIdx_iff_getElem?.mpr hzip)
      unfold checkEdgeArgument at hargument
      simp only at hargument
      split at hargument
      next herrors => exact absurd hargument herrors
      next herrors => exact ⟨_, by simpa using herrors⟩

end Accepted

end

end zl.mir.Verifier
