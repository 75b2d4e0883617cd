import Zl.Mir.Interpreter
import Zl.Mir.Verifier.CheckedOperands

open zl.mir.interpreter

namespace zl.mir.Verifier.Accepted

section
variable {rules : TypeRules} {m : Module} {f : Function}

theorem definition_listed (h : Accepted rules m f) {i : Instruction} (hi : i ∈ f.instructions)
    (hresult : i.result ≠ kNoTemp) :
    f.instructions.find? (fun other => other.result ≠ kNoTemp ∧ other.result = i.result) = some i := by
  obtain ⟨b, hb, hi⟩ := List.mem_flatMap.mp hi
  obtain ⟨place, hplace, rfl⟩ := exists_position hb hi
  have hfirst := definition_eq h.definitions hplace hresult
  have hlisted : f.instructions = (positions f).map (·.instruction) := by
    rw [positions, List.map_flatMap]
    refine congrArg (f.blocks.flatMap ·) (funext fun b => ?_)
    rw [List.map_map]
    exact (List.zipIdx_map_fst 0 b.instructions).symm
  rw [definition, if_neg hresult] at hfirst
  rw [hlisted, List.find?_map]
  have hsame : ((fun other : Instruction =>
    decide (other.result ≠ kNoTemp ∧ other.result = place.instruction.result)) ∘
      fun p : Position => p.instruction) = fun p => p.instruction.result == place.instruction.result := by
    funext p
    by_cases heq : p.instruction.result = place.instruction.result <;> simp [heq, hresult]
  rw [hsame, hfirst]
  rfl

theorem parameter_undefined (h : Accepted rules m f) {i a : Nat} {b : BasicBlock}
    {parameter : BlockParameter} (hb : f.blocks[i]? = some b)
    (hparameter : b.parameters[a]? = some parameter) : parameter.id ≠ kNoBlockParam ∧
      definedIn f b i a parameter.id = none := by
  have hok := h.parameters
  rw [checkBlockParameters, List.append_eq_nil_iff, List.append_eq_nil_iff] at hok
  have hdeclared := List.flatMap_eq_nil_iff.mp hok.1.1 (b, i) (List.mk_mem_zipIdx_iff_getElem?.mpr hb)
  rw [checkDeclaredParameters, List.append_eq_nil_iff] at hdeclared
  have hchecked :=
    List.flatMap_eq_nil_iff.mp hdeclared.1 (parameter, a) (List.mk_mem_zipIdx_iff_getElem?.mpr hparameter)
  unfold checkBlockParameter at hchecked
  dsimp only at hchecked
  split at hchecked
  · simp at hchecked
  next hid =>
    cases hdefined : definedIn f b i a parameter.id with
    | none => exact ⟨hid, rfl⟩
    | some first =>
      rw [hdefined] at hchecked
      simp at hchecked

theorem parameter_position (h : Accepted rules m f) {b : BasicBlock} (hb : b ∈ f.blocks)
    {a a' : Nat} {parameter parameter' : BlockParameter}
    (hparameter : b.parameters[a]? = some parameter) (hparameter' : b.parameters[a']? = some parameter')
    (hid : parameter.id = parameter'.id) : a = a' := by
  have hnot {a a' : Nat} {parameter parameter' : BlockParameter}
    (hparameter : b.parameters[a]? = some parameter)
      (hparameter' : b.parameters[a']? = some parameter') (hid : parameter.id = parameter'.id) :
        ¬a < a' := by
    intro hlt
    obtain ⟨i, hi⟩ := List.mem_iff_getElem?.mp hb
    have hnone := (h.parameter_undefined hi hparameter').2
    unfold definedIn at hnone
    have hearlier : parameter ∈ b.parameters.take a' :=
      List.mem_of_getElem? ((List.getElem?_take_of_lt hlt).trans hparameter)
    have hfind := List.find?_eq_none.mp (Option.map_eq_none_iff.mp hnone) (b.id, parameter.id)
      (List.mem_append_right _ (List.mem_map_of_mem hearlier))
    exact hfind (beq_iff_eq.mpr hid)
  have hle := hnot hparameter hparameter' hid
  have hge := hnot hparameter' hparameter hid.symm
  omega

theorem blockOfParameter_eq (h : Accepted rules m f) {b : BasicBlock} (hb : b ∈ f.blocks)
    {parameter : BlockParameter}
    (hparameter : parameter ∈ b.parameters) : f.blockOfParameter parameter.id = some b := by
  obtain ⟨i, hi⟩ := List.mem_iff_getElem?.mp hb
  obtain ⟨a, ha⟩ := List.mem_iff_getElem?.mp hparameter
  obtain ⟨hid, hnone⟩ := h.parameter_undefined hi ha
  obtain ⟨hlt, hget⟩ := List.getElem?_eq_some_iff.mp hi
  rw [Function.blockOfParameter, if_neg hid, List.find?_eq_some_iff_getElem]
  refine ⟨List.any_eq_true.mpr ⟨parameter, hparameter, beq_self_eq_true _⟩, i, hlt, hget, fun j hj => ?_⟩
  rw [Bool.not_eq_true', List.any_eq_false]
  intro other hother heq
  have hearlier : f.blocks[j] ∈ f.blocks.take i := List.mem_take_iff_getElem.mpr ⟨j, by omega, rfl⟩
  unfold definedIn at hnone
  have hfind := List.find?_eq_none.mp (Option.map_eq_none_iff.mp hnone) ((f.blocks[j]).id, other.id)
    (List.mem_append_left _ (List.mem_flatMap.mpr ⟨f.blocks[j], hearlier, List.mem_map_of_mem hother⟩))
  exact hfind heq

end

end zl.mir.Verifier.Accepted
