import Zl.Mir.Verifier.OperandTypes

open Relation zl.graph zl.mir.ControlFlowGraph

namespace zl.mir.Verifier

/-- The values the first `pc` instructions of a block define. -/
def definedBefore (b : BasicBlock) (pc : Nat) : List ValueId :=
  (b.instructions.take pc).flatMap resultValues

/-- The operands read at a place of a block: those of an instruction or, at its end, the
    value of the terminator and the arguments of its edges. -/
def operandsAt (b : BasicBlock) (pc : Nat) : List Operand :=
  match b.instructions[pc]? with
  | some instruction => instruction.operands
  | none => b.terminator.value :: b.terminator.edgeArguments.flatten

/-- The temps and block parameters read at a place of a block. -/
def readsAt (b : BasicBlock) (pc : Nat) : List ValueId :=
  ((operandsAt b pc).filterMap valueOf).filter fun
    | .param _ => false
    | .temp _ | .blockParam _ => true

/-- Whether the instruction at a place is a placeholder. -/
def placeholderAt (b : BasicBlock) (pc : Nat) : Bool := b.instructions[pc]?.any (·.opcode == .Nop)

section
variable (f : Function)

/-- A place on an execution path and the values defined on the path so far. Control follows the
    edges of terminators, and enters a handler of its block after any instruction, or when the
    block ends in a throw. -/
inductive DefPath : BasicBlock → Nat → List ValueId → Prop
  | entry {b : BasicBlock} (hb : f.block f.entryBlock = some b) : DefPath b 0 []
  | effect {b : BasicBlock} {pc : Nat} {defs : List ValueId} {instruction : Instruction}
      (hpath : DefPath b pc defs) (hget : b.instructions[pc]? = some instruction) :
      DefPath b (pc + 1) (resultValues instruction ++ defs)
  | normal {b c : BasicBlock} {defs : List ValueId} {id : BlockId}
      (hpath : DefPath b b.instructions.length defs) (hedge : id ∈ b.terminator.successors)
      (hc : f.block id = some c) : DefPath c 0 (parameterValues c ++ defs)
  | unwind {b c : BasicBlock} {pc : Nat} {defs : List ValueId} {handler : ExceptionHandler}
      (hpath : DefPath b (pc + 1) defs) (hhandler : handler ∈ b.exceptionHandlers)
      (hc : f.block handler.block = some c) : DefPath c 0 defs
  | raise {b c : BasicBlock} {defs : List ValueId} {handler : ExceptionHandler}
      (hpath : DefPath b b.instructions.length defs) (hthrow : b.terminator.kind = .Throw)
      (hhandler : handler ∈ b.exceptionHandlers) (hc : f.block handler.block = some c) :
      DefPath c 0 defs

/-- A route through the blocks along which a value is not defined. The flag tells whether the
    route entered a handler. An exception that leaves a block as early as it can, after the first
    instruction, skips the most definitions. -/
inductive Route (v : ValueId) : BasicBlock → Bool → Prop
  | entry {b : BasicBlock} (hb : f.block f.entryBlock = some b) : Route v b false
  | normal {b c : BasicBlock} {unwound : Bool} {id : BlockId} (hroute : Route v b unwound)
      (hundefined : v ∉ definedBefore b b.instructions.length)
      (hedge : id ∈ b.terminator.successors) (hc : f.block id = some c)
      (hparameter : v ∉ parameterValues c) : Route v c unwound
  | unwind {b c : BasicBlock} {unwound : Bool} {handler : ExceptionHandler}
      (hroute : Route v b unwound)
      (hleaves : b.instructions ≠ [] ∨ b.terminator.kind = .Throw)
      (hundefined : v ∉ definedBefore b 1) (hhandler : handler ∈ b.exceptionHandlers)
      (hc : f.block handler.block = some c) : Route v c true

/-- Every temp and block parameter read on an execution path was defined earlier on it. -/
def DefinedBeforeUse : Prop :=
  ∀ b pc defs, DefPath f b pc defs → ∀ v ∈ readsAt b pc, v ∈ defs

/-- No route that enters a handler reaches a read around the definition of the value it
    reads, and no route at all does where the read is that of a placeholder. -/
def NoDetour : Prop :=
  ∀ b pc, pc ≤ b.instructions.length → ∀ v ∈ readsAt b pc, v ∉ definedBefore b pc →
    ¬ Route f v b true ∧ (placeholderAt b pc = true → ¬ Route f v b false)

end

theorem mem_readsAt {b : BasicBlock} {pc : Nat} {v : ValueId} :
    v ∈ readsAt b pc ↔ ∃ operand ∈ operandsAt b pc,
      (operand.kind = .Temp ∧ v = .temp operand.index) ∨
        (operand.kind = .BlockParam ∧ v = .blockParam operand.index) := by
  unfold readsAt
  rw [List.mem_filter, List.mem_filterMap]
  constructor
  · rintro ⟨⟨operand, hmem, hvalue⟩, hkind⟩
    refine ⟨operand, hmem, ?_⟩
    cases v with
    | temp id =>
      obtain ⟨htemp, rfl⟩ := valueOf_eq_temp.mp hvalue
      exact Or.inl ⟨htemp, rfl⟩
    | param id => cases hkind
    | blockParam id =>
      obtain ⟨hparam, rfl⟩ := valueOf_eq_blockParam.mp hvalue
      exact Or.inr ⟨hparam, rfl⟩
  · rintro ⟨operand, hmem, ⟨htemp, rfl⟩ | ⟨hparam, rfl⟩⟩
    · exact ⟨⟨operand, hmem, valueOf_eq_temp.mpr ⟨htemp, rfl⟩⟩, rfl⟩
    · exact ⟨⟨operand, hmem, valueOf_eq_blockParam.mpr ⟨hparam, rfl⟩⟩, rfl⟩

theorem definedBefore_succ {b : BasicBlock} {pc : Nat} {instruction : Instruction}
    (hget : b.instructions[pc]? = some instruction) :
    definedBefore b (pc + 1) = definedBefore b pc ++ resultValues instruction := by
  simp [definedBefore, List.take_add_one, hget]

theorem definedBefore_mono {b : BasicBlock} {i j : Nat} (hle : i ≤ j) :
    definedBefore b i ⊆ definedBefore b j := by
  intro v hv
  obtain ⟨instruction, hmem, hv⟩ := List.mem_flatMap.mp hv
  exact List.mem_flatMap.mpr ⟨instruction, List.take_subset_take_left b.instructions hle hmem, hv⟩

theorem mem_definedBefore {b : BasicBlock} {pc : Nat} {id : TempId} :
    .temp id ∈ definedBefore b pc ↔ id ≠ kNoTemp ∧
      ∃ i instruction, i < pc ∧ b.instructions[i]? = some instruction ∧ instruction.result = id := by
  unfold definedBefore resultValues
  simp only [List.mem_flatMap, List.mem_take_iff_getElem]
  constructor
  · rintro ⟨instruction, ⟨i, hi, rfl⟩, hmem⟩
    split at hmem
    · cases hmem
    next hne =>
      have hid : id = b.instructions[i].result := by simpa using hmem
      exact ⟨hid ▸ hne, i, _, by omega, List.getElem?_eq_getElem (by omega), hid.symm⟩
  · rintro ⟨hne, i, instruction, hi, hget, rfl⟩
    obtain ⟨hlt, rfl⟩ := List.getElem?_eq_some_iff.mp hget
    exact ⟨_, ⟨i, by omega, rfl⟩, by rw [if_neg hne]; exact List.mem_singleton.mpr rfl⟩

section
variable {rules : TypeRules} {m : Module} {f : Function}
variable {b : BasicBlock} {v : ValueId} {unwound : Bool}

namespace Accepted

theorem operandAt_ok (h : Accepted rules m f) {b : BasicBlock} (hb : b ∈ f.blocks) {pc : Nat}
    (hplace : placeholderAt b pc = false) {operand : Operand} (hmem : operand ∈ operandsAt b pc)
    (hsome : operand.isNone = false) :
    ∃ types what index, checkOperand rules m f types operand what b.id index = [] := by
  unfold operandsAt at hmem
  unfold placeholderAt at hplace
  cases hget : b.instructions[pc]? with
  | some instruction =>
    rw [hget] at hmem hplace
    have hnop : instruction.opcode ≠ .Nop := by simpa using hplace
    have hposition : (⟨b, pc, instruction⟩ : Position) ∈ positions f := mem_positions.mpr ⟨hb, hget⟩
    obtain ⟨types, what, hok⟩ := h.operand_ok hposition hnop hmem
    exact ⟨types, what, _, hok⟩
  | none =>
    rw [hget] at hmem
    cases List.mem_cons.mp hmem with
    | inl hvalue =>
      obtain ⟨what, hok⟩ := h.value_ok hb (hvalue ▸ hsome)
      exact ⟨_, what, _, hvalue ▸ hok⟩
    | inr hargument =>
      obtain ⟨arguments, harguments, hargument⟩ := List.mem_flatten.mp hargument
      obtain ⟨what, hok⟩ := h.argument_ok hb harguments hargument
      exact ⟨_, what, _, hok⟩

/-- A use of a defined temp stands behind the definition in its block, or in a block the
    definition dominates. -/
theorem temp_dominates (h : Accepted rules m f) {b : BasicBlock} (hb : b ∈ f.blocks) {pc : Nat}
    {operand : Operand} (hmem : operand ∈ operandsAt b pc) (hkind : operand.kind = .Temp)
    {place : Position} (hplace : definition f operand.index = some place) :
    (place.block.id = b.id ∧ (pc < b.instructions.length → place.index < pc)) ∨
      (place.block.id ≠ b.id ∧ dominates f place.block.id b.id = true) := by
  have huse : ∀ what index, checkUseDominatesDef f operand what b.id index = [] →
      (place.block.id = b.id ∧ ∀ i, index = some i → place.index < i) ∨
        (place.block.id ≠ b.id ∧ dominates f place.block.id b.id = true) := by
    intro what index hok
    unfold checkUseDominatesDef at hok
    rw [if_neg (not_not.mpr hkind), hplace] at hok
    simp only at hok
    split at hok
    next hsame =>
      refine Or.inl ⟨hsame, ?_⟩
      rintro i rfl
      simpa using hok
    next hother => exact Or.inr ⟨hother, by simpa using hok⟩
  have hok := List.flatMap_eq_nil_iff.mp h.dominance b hb
  simp only [checkBlockDominance, List.append_eq_nil_iff] at hok
  obtain ⟨⟨hinstructions, hvalue⟩, harguments⟩ := hok
  unfold operandsAt at hmem
  cases hget : b.instructions[pc]? with
  | some instruction =>
    rw [hget] at hmem
    obtain ⟨o, ho⟩ := List.mem_iff_getElem?.mp hmem
    have hinstruction := List.flatMap_eq_nil_iff.mp hinstructions (instruction, pc)
      (List.mk_mem_zipIdx_iff_getElem?.mpr hget)
    have hdominates := huse _ _ (List.flatMap_eq_nil_iff.mp hinstruction (operand, o)
      (List.mk_mem_zipIdx_iff_getElem?.mpr ho))
    exact hdominates.imp_left fun hin => ⟨hin.1, fun _ => hin.2 pc rfl⟩
  | none =>
    rw [hget] at hmem
    have hend : ¬ pc < b.instructions.length := by simpa using hget
    have hlater : ∀ what, checkUseDominatesDef f operand what b.id none = [] →
        (place.block.id = b.id ∧ (pc < b.instructions.length → place.index < pc)) ∨
          (place.block.id ≠ b.id ∧ dominates f place.block.id b.id = true) := fun what hok =>
      (huse what none hok).imp_left fun hin => ⟨hin.1, fun hlt => absurd hlt hend⟩
    cases List.mem_cons.mp hmem with
    | inl heq =>
      subst heq
      rw [if_neg (by simp [Operand.isNone, hkind])] at hvalue
      exact hlater _ hvalue
    | inr hargument =>
      obtain ⟨arguments, hlist, hargument⟩ := List.mem_flatten.mp hargument
      obtain ⟨e, he⟩ := List.mem_iff_getElem?.mp hlist
      obtain ⟨a, ha⟩ := List.mem_iff_getElem?.mp hargument
      have hedge := List.flatMap_eq_nil_iff.mp harguments (arguments, e)
        (List.mk_mem_zipIdx_iff_getElem?.mpr he)
      exact hlater _ (List.flatMap_eq_nil_iff.mp hedge (operand, a)
        (List.mk_mem_zipIdx_iff_getElem?.mpr ha))

theorem entry_parameters (h : Accepted rules m f) {b : BasicBlock}
    (hb : f.block f.entryBlock = some b) : parameterValues b = [] := by
  obtain ⟨hmem, hid, -⟩ := blockAt_of_block h.distinctIds hb
  have hok := h.parameters
  rw [checkBlockParameters, List.append_eq_nil_iff, List.append_eq_nil_iff] at hok
  obtain ⟨i, hi⟩ := List.mem_iff_getElem?.mp hmem
  have hdeclared := List.flatMap_eq_nil_iff.mp hok.1.1 (b, i) (List.mk_mem_zipIdx_iff_getElem?.mpr hi)
  simp only [checkDeclaredParameters, List.append_eq_nil_iff, errorIf_eq_nil] at hdeclared
  have hnone : b.parameters = [] := by simpa [hid] using hdeclared.2
  simp [parameterValues, hnone]

end Accepted

theorem blockOfParameter_mem {id : BlockParamId} {owner : BasicBlock}
    (h : f.blockOfParameter id = some owner) :
    owner ∈ f.blocks ∧ .blockParam id ∈ parameterValues owner := by
  unfold Function.blockOfParameter at h
  split at h
  · cases h
  · refine ⟨List.mem_of_find?_eq_some h, ?_⟩
    simpa [parameterValues] using List.find?_some h

theorem Route.mem (hids : f.DistinctIds) (hroute : Route f v b unwound) : b ∈ f.blocks := by
  cases hroute with
  | entry hb => exact (blockAt_of_block hids hb).1
  | normal _ _ _ hc _ => exact (blockAt_of_block hids hc).1
  | unwind _ _ _ _ hc => exact (blockAt_of_block hids hc).1

/-- A route along normal edges alone does not arrive at the block of a parameter it avoids. -/
theorem Route.notMem_parameterValues (haccepted : Accepted rules m f) (hroute : Route f v b false) :
    v ∉ parameterValues b := by
  cases hroute with
  | entry hb => simp [haccepted.entry_parameters hb]
  | normal _ _ _ _ hparameter => exact hparameter

/-- A route along normal edges alone that avoids a value avoids the block defining it,
    unless it ends there. -/
theorem Route.avoids (haccepted : Accepted rules m f) {d : BasicBlock} (hd : d ∈ f.blocks)
    (hdefines : v ∈ definedBefore d d.instructions.length ∨ v ∈ parameterValues d)
    (hroute : Route f v b unwound) (hnormal : unwound = false) :
    b = d ∨ Avoids (fun a b => b ∈ successors f a) f.entryBlock d.id b.id := by
  have hids := haccepted.distinctIds
  induction hroute with
  | @entry b hb =>
    obtain ⟨hmem, hid, -⟩ := blockAt_of_block hids hb
    by_cases heq : b = d
    · exact Or.inl heq
    · refine Or.inr ⟨fun hsame => heq (hids.eq hmem hd (hid.trans hsame)), ?_⟩
      rw [hid]
  | @normal b c unwound id hroute hundefined hedge hc hparameter ih =>
    by_cases heq : c = d
    · exact Or.inl heq
    · refine Or.inr ?_
      obtain ⟨hcmem, hsucc⟩ := mem_successors_of_block hids (hroute.mem hids) hedge hc
      cases ih hnormal with
      | inl hbd =>
        subst hbd
        subst hnormal
        exact absurd hdefines (not_or.mpr ⟨hundefined, hroute.notMem_parameterValues haccepted⟩)
      | inr havoids => exact havoids.tail hsucc fun hsame => heq (hids.eq hcmem hd hsame)
  | unwind => cases hnormal

/-- The verifier leaves no read that a route along normal edges reaches around the definition. -/
theorem Route.not_reads (haccepted : Accepted rules m f) (hroute : Route f v b false) {pc : Nat}
    (hpc : pc ≤ b.instructions.length) (hplace : placeholderAt b pc = false)
    (hreads : v ∈ readsAt b pc) : v ∈ definedBefore b pc := by
  have hids := haccepted.distinctIds
  have hb := hroute.mem hids
  obtain ⟨operand, hmem, ⟨hkind, rfl⟩ | ⟨hkind, rfl⟩⟩ := mem_readsAt.mp hreads
  · obtain ⟨_, _, _, hok⟩ := haccepted.operandAt_ok hb hplace hmem (by simp [Operand.isNone, hkind])
    obtain ⟨⟨place, hdefinition⟩, -⟩ := checkOperand_temp hkind hok
    obtain ⟨hposition, hresult, hne⟩ := definition_mem hdefinition
    obtain ⟨hd, hget⟩ := mem_positions.mp hposition
    obtain ⟨hlt, -⟩ := List.getElem?_eq_some_iff.mp hget
    have hdefines : ∀ n, place.index < n → .temp operand.index ∈ definedBefore place.block n :=
      fun n hn => mem_definedBefore.mpr ⟨hne, place.index, _, hn, hget, hresult⟩
    cases haccepted.temp_dominates hb hmem hkind hdefinition with
    | inl hsame =>
      have hblock := hids.eq hd hb hsame.1
      rw [← hblock] at hsame hpc ⊢
      refine hdefines pc ?_
      by_cases hend : pc < place.block.instructions.length
      · exact hsame.2 hend
      · omega
    | inr hother =>
      have hsound := dominates_sound hids (haccepted.id_ne hd) hother.2
      cases hroute.avoids haccepted hd (Or.inl (hdefines _ hlt)) rfl with
      | inl hblock => exact absurd (hblock ▸ rfl) hother.1
      | inr havoids => exact absurd havoids hsound
  · obtain ⟨_, _, _, hok⟩ := haccepted.operandAt_ok hb hplace hmem (by simp [Operand.isNone, hkind])
    obtain ⟨owner, howner, hdominates⟩ := checkOperand_blockParam hkind ⟨b, haccepted.block_eq hb⟩ hok
    obtain ⟨hmem, hdeclares⟩ := blockOfParameter_mem howner
    have hne : b ≠ owner := by
      rintro rfl
      exact hroute.notMem_parameterValues haccepted hdeclares
    have havoids := (hroute.avoids haccepted hmem (Or.inr hdeclares) rfl).resolve_left hne
    cases hdominates with
    | inl hsame => exact absurd (hids.eq hb hmem hsame.symm) hne
    | inr hdominates => exact absurd havoids (dominates_sound hids (haccepted.id_ne hmem) hdominates)

/-- A path runs through the instructions of the block it arrived at. -/
theorem DefPath.run {b : BasicBlock} {defs : List ValueId} (hpath : DefPath f b 0 defs) {pc : Nat}
    (hpc : pc ≤ b.instructions.length) :
    ∃ after, DefPath f b pc after ∧ ∀ v, v ∈ after → v ∈ defs ∨ v ∈ definedBefore b pc := by
  induction pc with
  | zero => exact ⟨defs, hpath, fun v hv => Or.inl hv⟩
  | succ pc ih =>
    obtain ⟨after, hafter, hdefined⟩ := ih (by omega)
    have hget := List.getElem?_eq_getElem (Nat.lt_of_succ_le hpc)
    refine ⟨_, hafter.effect hget, fun v hv => ?_⟩
    rw [definedBefore_succ hget, List.mem_append]
    cases List.mem_append.mp hv with
    | inl hresult => exact Or.inr (Or.inr hresult)
    | inr hearlier => exact (hdefined v hearlier).imp_right Or.inl

theorem Route.exists_path (hroute : Route f v b unwound) :
    ∃ defs, DefPath f b 0 defs ∧ v ∉ defs := by
  induction hroute with
  | entry hb => exact ⟨[], .entry hb, List.not_mem_nil⟩
  | normal _ hundefined hedge hc hparameter ih =>
    obtain ⟨defs, hpath, hv⟩ := ih
    obtain ⟨after, hafter, hdefined⟩ := hpath.run (Nat.le_refl _)
    refine ⟨_, hafter.normal hedge hc, fun hmem => ?_⟩
    cases List.mem_append.mp hmem with
    | inl hmem => exact hparameter hmem
    | inr hmem => exact (hdefined v hmem).elim hv hundefined
  | @unwind b c unwound handler _ hleaves hundefined hhandler hc ih =>
    obtain ⟨defs, hpath, hv⟩ := ih
    by_cases hempty : b.instructions = []
    · have hthrow := hleaves.resolve_left (not_not.mpr hempty)
      refine ⟨defs, DefPath.raise ?_ hthrow hhandler hc, hv⟩
      simpa [hempty] using hpath
    · obtain ⟨after, hafter, hdefined⟩ := hpath.run (List.length_pos_iff.mpr hempty)
      exact ⟨after, hafter.unwind hhandler hc, fun hmem => (hdefined v hmem).elim hv hundefined⟩

/-- A value a path has not defined is one some route to its block avoids. -/
theorem DefPath.exists_route {pc : Nat} {defs : List ValueId} (hpath : DefPath f b pc defs) :
    pc ≤ b.instructions.length ∧
      ∀ v, v ∉ defs → (∃ unwound, Route f v b unwound) ∧ v ∉ definedBefore b pc := by
  induction hpath with
  | entry hb => exact ⟨Nat.zero_le _, fun v _ => ⟨⟨false, .entry hb⟩, by simp [definedBefore]⟩⟩
  | effect _ hget ih =>
    obtain ⟨hlt, -⟩ := List.getElem?_eq_some_iff.mp hget
    refine ⟨hlt, fun v hv => ?_⟩
    obtain ⟨hresult, hearlier⟩ : v ∉ resultValues _ ∧ v ∉ _ := by simpa using hv
    obtain ⟨hroute, hbefore⟩ := ih.2 v hearlier
    refine ⟨hroute, ?_⟩
    rw [definedBefore_succ hget]
    simpa using ⟨hbefore, hresult⟩
  | normal _ hedge hc ih =>
    refine ⟨Nat.zero_le _, fun v hv => ⟨?_, by simp [definedBefore]⟩⟩
    obtain ⟨hparameter, hearlier⟩ : v ∉ parameterValues _ ∧ v ∉ _ := by simpa using hv
    obtain ⟨⟨unwound, hroute⟩, hundefined⟩ := ih.2 v hearlier
    exact ⟨unwound, hroute.normal hundefined hedge hc hparameter⟩
  | @unwind b c pc defs handler _ hhandler hc ih =>
    refine ⟨Nat.zero_le _, fun v hv => ⟨⟨true, ?_⟩, by simp [definedBefore]⟩⟩
    obtain ⟨⟨unwound, hroute⟩, hundefined⟩ := ih.2 v hv
    refine hroute.unwind (Or.inl fun hempty => ?_) (fun hmem => hundefined ?_) hhandler hc
    · simp [hempty] at ih
    · exact definedBefore_mono (by omega) hmem
  | @raise b c defs handler _ hthrow hhandler hc ih =>
    refine ⟨Nat.zero_le _, fun v hv => ⟨⟨true, ?_⟩, by simp [definedBefore]⟩⟩
    obtain ⟨⟨unwound, hroute⟩, hundefined⟩ := ih.2 v hv
    refine hroute.unwind (Or.inr hthrow) (fun hmem => hundefined ?_) hhandler hc
    rw [definedBefore, List.take_length]
    obtain ⟨instruction, htake, hv⟩ := List.mem_flatMap.mp hmem
    exact List.mem_flatMap.mpr ⟨instruction, List.mem_of_mem_take htake, hv⟩

/-- In an accepted function every temp and block parameter read on a path was defined earlier on
    the path exactly if no route through a handler gets around a definition: the dominance the
    verifier looks at knows the normal edges from the entry only. -/
theorem definedBeforeUse_iff (rules : TypeRules) (m : Module) (f : Function)
    (options : VerifierOptions) (hok : verifyFunction rules m f options = []) :
    DefinedBeforeUse f ↔ NoDetour f := by
  have haccepted := accepted_of_verifyFunction hok
  constructor
  · intro hdefined b pc hpc v hreads hbefore
    have hnone : ∀ unwound, ¬ Route f v b unwound := by
      intro unwound hroute
      obtain ⟨defs, hpath, hv⟩ := hroute.exists_path
      obtain ⟨after, hafter, hsplit⟩ := hpath.run hpc
      exact (hsplit v (hdefined b pc after hafter v hreads)).elim hv hbefore
    exact ⟨hnone true, fun _ => hnone false⟩
  · intro hdetour b pc defs hpath v hreads
    by_contra hv
    obtain ⟨hpc, hroutes⟩ := hpath.exists_route
    obtain ⟨⟨unwound, hroute⟩, hbefore⟩ := hroutes v hv
    obtain ⟨hhandlers, hplaceholder⟩ := hdetour b pc hpc v hreads hbefore
    cases unwound with
    | true => exact hhandlers hroute
    | false =>
      by_cases hplace : placeholderAt b pc = true
      · exact hplaceholder hplace hroute
      · exact hbefore (hroute.not_reads haccepted hpc (by simpa using hplace) hreads)

theorem noDetour_of_no_handlers (hids : f.DistinctIds)
    (hhandlers : ∀ b ∈ f.blocks, b.exceptionHandlers = [])
    (hplaces : ∀ b ∈ f.blocks, ∀ instruction ∈ b.instructions, instruction.opcode ≠ .Nop) :
    NoDetour f := by
  have hnormal : ∀ v b unwound, Route f v b unwound → unwound = false := by
    intro v b unwound hroute
    induction hroute with
    | entry => rfl
    | normal _ _ _ _ _ ih => exact ih
    | unwind hroute _ _ hhandler =>
      rw [hhandlers _ (hroute.mem hids)] at hhandler
      cases hhandler
  intro b pc _ v _ _
  refine ⟨fun hroute => Bool.noConfusion (hnormal v b true hroute), fun hplace hroute => ?_⟩
  unfold placeholderAt at hplace
  cases hget : b.instructions[pc]? with
  | none => simp [hget] at hplace
  | some instruction =>
    rw [hget] at hplace
    have hnop : instruction.opcode = .Nop := by simpa using hplace
    exact hplaces b (hroute.mem hids) instruction (List.mem_of_getElem? hget) hnop

end

/-- A loop that hands its counter on, negated, as long as it is told to. -/
def negateAgain : Function := Function.rebuildEdges {
  name := "negateAgain"
  parameters := [{ name := "n", type := 2 }, { name := "again", type := 1 }]
  returnType := 2
  entryBlock := 1
  blocks := [
    { id := 1, terminator := { kind := .Jump, target := 2, edgeArguments := [[.param 0 2]] } },
    { id := 2
      parameters := [{ id := 1, name := "i", type := 2 }]
      instructions := [{ opcode := .Neg, result := 1, resultType := 2, operands := [.blockParam 1 2] }]
      terminator := { kind := .Branch, value := .param 1 1, target := 2, elseBlock := 3,
                      edgeArguments := [[.temp 1 2], []] } },
    { id := 3, terminator := { kind := .Return, value := .blockParam 1 2 } }] }

theorem definedBeforeUse_iff_negateAgain : DefinedBeforeUse negateAgain :=
  (definedBeforeUse_iff exampleTypes {} negateAgain {} (by decide +kernel)).mpr
    (noDetour_of_no_handlers (by decide +kernel) (by decide +kernel) (by decide +kernel))

def enterBlock : BasicBlock where
  id := 1
  terminator := { kind := .Jump, target := 2 }

/-- The body of a try that loads a temp. -/
def loadBlock : BasicBlock where
  id := 2
  instructions := [
    { opcode := .Store, operands := [.param 0 2], slot := 1 },
    { opcode := .Load, result := 1, resultType := 2, slot := 1 }]
  terminator := { kind := .Jump, target := 4 }
  exceptionHandlers := [{ catchType := 2, block := 3, catchSlot := 2 }]

def recoverBlock : BasicBlock where
  id := 3
  kind := .Catch
  terminator := { kind := .Jump, target := 4 }

def returnBlock : BasicBlock where
  id := 4
  terminator := { kind := .Return, value := .temp 1 2 }

/-- A temp is loaded inside a try, and returned behind it. -/
def returnAfterTry : Function := Function.rebuildEdges {
  name := "returnAfterTry"
  parameters := [{ name := "n", type := 2 }]
  returnType := 2
  slots := [{ name := "x", type := 2 }, { name := "e", type := 2 }]
  entryBlock := 1
  blocks := [enterBlock, loadBlock, recoverBlock, returnBlock] }

/-- The verifier accepts a function that reads a temp behind a catch block entered before the temp
    was defined: no path along normal edges leads to the catch block, so the edge from there to
    the join has no part in the dominators. -/
theorem verifyFunction_accepts_returnAfterTry :
    ¬ ∀ (rules : TypeRules) (m : Module) (f : Function) (options : VerifierOptions),
      verifyFunction rules m f options = [] → DefinedBeforeUse f := by
  intro hsound
  have henter : DefPath returnAfterTry enterBlock 0 [] := .entry rfl
  have hload : DefPath returnAfterTry loadBlock 0 [] := henter.normal (List.mem_singleton_self 2) rfl
  have hstored : DefPath returnAfterTry loadBlock 1 [] := hload.effect rfl
  have hrecover : DefPath returnAfterTry recoverBlock 0 [] :=
    hstored.unwind List.mem_cons_self rfl
  have hreturn : DefPath returnAfterTry returnBlock 0 [] :=
    hrecover.normal (List.mem_singleton_self 4) rfl
  have hdefined := hsound exampleTypes {} returnAfterTry {} (by decide +kernel) _ _ _ hreturn
    (.temp 1) (by decide)
  cases hdefined

end zl.mir.Verifier
