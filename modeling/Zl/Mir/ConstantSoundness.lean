import Zl.Mir.ConstantAnalysis
import Zl.Mir.OperationCanRaise
import Zl.Mir.Verifier.OperandTypes
import Zl.Mir.Verifier.UniqueDefinitions

open zl.vm zl.vm.value zl.mir.interpreter

namespace zl.mir

theorem Constant.constantValue_of_same {a b : Constant} (h : a.same b = true) :
    constantValue a = constantValue b := by
  unfold Constant.same at h
  split at h
  · cases h
  next hkind =>
    have hkind : a.kind = b.kind := not_not.mp hkind
    unfold constantValue Constant.int
    rw [← hkind]
    cases hcase : a.kind <;> rw [hcase] at h <;> simp_all

namespace ConstantAnalysis

section
variable {W : Type} (runtime : Runtime W) (module : Module) (f : Function) (a : ConstantAnalysis)

/-- A step on which the analysis can rely: what it folded is folded exactly, and the values it
    knows that the edge taken hands on were defined before. -/
def ReliableAt (defs : List ValueId) : Configuration W → Prop
  | .running frame world =>
    match frame.rest with
    | i :: _ => a.constantOf (.temp i.result) ≠ none →
        ∀ values, operandValues module i = some values → FoldsExactly i.opcode values
    | [] => ∀ b, f.block frame.block = some b →
        ∀ operand ∈ b.terminator.argumentsFor (takenEdge runtime module frame world b.terminator).2,
        ∀ id, valueOf operand = some id → a.constantOf id ≠ none → id ∈ defs
  | _ => True

/-- The values defined so far are what the analysis says. -/
def HoldsAt (defs : List ValueId) : Configuration W → Prop
  | .running frame _ => ∀ id ∈ defs, ∀ c constant, a.constantOf id = some c →
      module.constant c = some constant → frame.values id = constantValue constant
  | _ => True

end

section
variable {W : Type} {rules : TypeRules} {types : TypeTable} {runtime : Runtime W} {module : Module}
  {f : Function} {a : ConstantAnalysis}
  {frame next : Frame} {world world' : W} {i : Instruction} {b : BasicBlock} {defs : List ValueId}

theorem arguments_constant {values : List gc.Value} (h : operandValues module i = some values) :
    i.operands.map (operandValue runtime module frame.values world) = values := by
  unfold operandValues at h
  revert h
  generalize i.operands = operands
  intro h
  induction operands generalizing values with
  | nil =>
    cases h
    rfl
  | cons operand operands ih =>
    rw [List.mapM_cons] at h
    obtain ⟨v, hv, h⟩ := Option.bind_eq_some_iff.mp h
    obtain ⟨rest, hrest, h⟩ := Option.bind_eq_some_iff.mp h
    obtain ⟨c, hc, rfl⟩ := Option.map_eq_some_iff.mp hv
    cases h
    rw [List.map_cons, operandValue_constant hc, ih hrest]

theorem execute_operator {v : gc.Value} (h : executeOperator runtime.library (runtime.memory world) i.opcode
      (i.operands.map (operandValue runtime module frame.values world)) = some (.ok v)) :
    execute runtime module f frame world i = .running (frame.define i.result v) world := by
  have hnot {op : Opcode} (hop : i.opcode = op) (hunary : op ≠ .Widen ∧ vmUnaryOp op = none)
      (hbinary : vmBinaryOp op = none) : False := by
    rw [hop] at h
    unfold executeOperator at h
    split at h
    · rw [if_neg hunary.1, hunary.2] at h
      nomatch h
    · rw [hbinary] at h
      nomatch h
    · nomatch h
  unfold execute
  dsimp only
  split
  next hop => exact (hnot hop (by decide) rfl).elim
  next hop => exact (hnot hop (by decide) rfl).elim
  next hop => exact (hnot hop (by decide) rfl).elim
  next hop => exact (hnot hop (by decide) rfl).elim
  next hop => exact (hnot hop (by decide) rfl).elim
  next => rw [h]

/-- The result of an instruction that is folded exactly. -/
theorem holds_result (hok : Verifier.Accepted rules module f)
    (ha : Supported types runtime.library module f a) (hi : i ∈ f.instructions)
    (hresult : i.result ≠ kNoTemp) {c : ConstId} {constant : Constant}
    (hc : a.constantOf (.temp i.result) = some c) (hconstant : module.constant c = some constant)
    (hexact : ∀ values, operandValues module i = some values → FoldsExactly i.opcode values) :
    execute runtime module f frame world i =
      .running (frame.define i.result (constantValue constant)) world := by
  obtain ⟨definition, hdefinition, h⟩ := Option.bind_eq_some_iff.mp (ha _ _ hc)
  rw [hok.definition_listed hi hresult] at hdefinition
  cases hdefinition
  obtain ⟨folded, hfolded, hpool⟩ := Option.bind_eq_some_iff.mp h
  obtain ⟨pooled, hpooled, hsame⟩ := poolIdOf_some hpool
  obtain rfl : pooled = constant := Option.some.inj (hpooled.symm.trans hconstant)
  obtain ⟨values, hvalues, hiff⟩ :=
    foldInstruction_iff types runtime.library (runtime.memory world) module i folded hfolded
  apply execute_operator
  rw [arguments_constant hvalues, Constant.constantValue_of_same hsame]
  exact hiff.mpr (hexact values hvalues)

theorem bindParameters_of_getElem? {values : ValueId → gc.Value} {parameters : List BlockParameter}
    {arguments : List gc.Value} {position : Nat} {parameter : BlockParameter} {v : gc.Value}
    (hparameter : parameters[position]? = some parameter) (hv : arguments[position]? = some v)
    (hunique : ∀ k other, parameters[k]? = some other → other.id = parameter.id → k = position) :
    bindParameters values parameters arguments (.blockParam parameter.id) = v := by
  induction parameters generalizing values arguments position with
  | nil => nomatch hparameter
  | cons first parameters ih =>
    cases arguments with
    | nil => nomatch hv
    | cons argument arguments =>
      cases position with
      | zero =>
        cases hparameter
        cases hv
        change bindParameters (Function.update values (.blockParam parameter.id) v) parameters
          arguments _ = v
        rw [bindParameters_of_notMem, Function.update_self]
        intro other hother heq
        obtain ⟨k, hk⟩ := List.mem_iff_getElem?.mp hother
        nomatch hunique (k + 1) other hk (ValueId.blockParam.inj heq)
      | succ position =>
        exact ih hparameter hv fun k other hother hid => Nat.succ.inj (hunique (k + 1) other hother hid)

theorem getElem?_filter_take {α : Type} {p : α → Bool} {l : List α} {k : Nat} {x : α}
    (hx : l[k]? = some x) (hp : p x = true) :
    (l.filter p)[((l.take k).filter p).length]? = some x := by
  induction l generalizing k with
  | nil => nomatch hx
  | cons y l ih =>
    cases k with
    | zero =>
      cases hx
      rw [List.filter_cons_of_pos hp]
      rfl
    | succ k =>
      rw [List.take_succ_cons]
      cases hy : p y with
      | true =>
        rw [List.filter_cons_of_pos hy, List.filter_cons_of_pos hy]
        exact ih hx
      | false =>
        rw [List.filter_cons_of_neg (by simp [hy]), List.filter_cons_of_neg (by simp [hy])]
        exact ih hx

/-- The edge taken is one of the terminator's, to the block selected. -/
theorem selected_successor (hok : Verifier.checkTerminator rules module f b = [])
    (hkind : b.terminator.kind ∈ [TerminatorKind.Jump, .Branch, .Switch]) {memory : Memory} {v : gc.Value}
    (hne : (selected memory b.terminator v).1 ≠ kNoBlock) :
    b.terminator.successors[(selected memory b.terminator v).2]? =
      some (selected memory b.terminator v).1 := by
  unfold Verifier.checkTerminator at hok
  unfold selected Terminator.successors at *
  dsimp only at hok hne ⊢
  simp only [List.mem_cons, List.not_mem_nil, or_false] at hkind
  rcases hkind with hkind | hkind | hkind
  · rw [hkind] at hne ⊢
    simp [hne]
  · rw [hkind] at hok hne ⊢
    simp only [List.append_eq_nil_iff, Verifier.errorIf_eq_nil] at hok
    obtain ⟨htarget, helse⟩ : b.terminator.target ≠ kNoBlock ∧ b.terminator.elseBlock ≠ kNoBlock := by
      simpa using hok.1.1
    dsimp only
    cases isTruthy memory v <;> simp [htarget, helse]
  · rw [hkind] at hne ⊢
    have hedges : ((b.terminator.cases.map (·.block)).filter (· != kNoBlock)).length =
        (b.terminator.cases.filter (·.block != kNoBlock)).length := by
      rw [List.filter_map, List.length_map]
      rfl
    dsimp only at hne ⊢
    rw [List.filter_append]
    cases hcase : b.terminator.cases.findIdx? fun target => v = .int (.ofInt target.value) with
    | none =>
      rw [hcase] at hne
      dsimp only at hne ⊢
      rw [← hedges, List.getElem?_append_right (Nat.le_refl _), Nat.sub_self]
      simp [hne]
    | some k =>
      rw [hcase] at hne
      obtain ⟨hlt, -⟩ := List.findIdx?_eq_some_iff_getElem.mp hcase
      have hget : b.terminator.cases[k]? = some (b.terminator.cases.getD k {}) := by
        rw [List.getD_eq_getElem?_getD, List.getElem?_eq_getElem hlt]
        rfl
      have hfound :=
        getElem?_filter_take hget (p := fun target => target.block != kNoBlock) (bne_iff_ne.mpr hne)
      have hmapped := congrArg (Option.map (·.block)) hfound
      rw [← List.getElem?_map] at hmapped
      rw [List.filter_map]
      refine List.getElem?_append_left ?_ |>.trans hmapped
      exact (List.getElem?_eq_some_iff.mp hmapped).1

/-- The parameters of a block that is entered hold what the edges agree on. -/
theorem holds_parameter (hok : Verifier.Accepted rules module f)
    (ha : Supported types runtime.library module f a) (hb : b ∈ f.blocks)
    {c : BasicBlock} {target : BlockId} {edge : Nat} (hc : f.block target = some c)
    (hedge : b.terminator.successors[edge]? = some target)
    (hhanded : ∀ operand ∈ b.terminator.argumentsFor edge, ∀ id, valueOf operand = some id →
      a.constantOf id ≠ none → id ∈ defs)
    (h : a.HoldsAt module defs (.running frame world)) {parameter : BlockParameter}
    (hparameter : parameter ∈ c.parameters) {k : ConstId}
    {constant : Constant} (hk : a.constantOf (.blockParam parameter.id) = some k)
    (hconstant : module.constant k = some constant) :
    bindParameters frame.values c.parameters
      ((b.terminator.argumentsFor edge).map (operandValue runtime module frame.values world))
      (.blockParam parameter.id) = constantValue constant := by
  obtain ⟨hid, hmem, rfl⟩ := Function.block_eq_some hc
  obtain ⟨owner, howner, hagreed⟩ := Option.bind_eq_some_iff.mp (ha _ _ hk)
  rw [hok.blockOfParameter_eq hmem hparameter] at howner
  cases howner
  obtain ⟨position, hposition, hagreed⟩ := Option.bind_eq_some_iff.mp hagreed
  obtain ⟨hlt, hfound, -⟩ := List.findIdx?_eq_some_iff_getElem.mp hposition
  have hfound : c.parameters[position].id = parameter.id := of_decide_eq_true hfound
  have hget : c.parameters[position]? = some c.parameters[position] := List.getElem?_eq_getElem hlt
  have hinto : b.terminator.argumentsFor edge ∈ argumentsInto f c.id :=
    List.mem_flatMap.mpr ⟨b, hb, List.mem_map.mpr ⟨(c.id, edge),
      List.mem_filter.mpr ⟨List.mk_mem_zipIdx_iff_getElem?.mpr hedge, decide_eq_true rfl⟩, rfl⟩⟩
  obtain ⟨operand, hoperand, hvalue⟩ := (agreed_eq_some.mp hagreed).2 _ hinto
  have hheld : operandValue runtime module frame.values world operand = constantValue constant := by
    unfold evaluateOperand at hvalue
    split at hvalue
    next hkind =>
      obtain ⟨found, hfound, hindex⟩ := Option.map_eq_some_iff.mp hvalue
      apply operandValue_constant
      rw [constantOperand, if_pos hkind, hindex, hconstant]
    next hkind =>
      obtain ⟨id, hid, hknown⟩ := Option.bind_eq_some_iff.mp hvalue
      have hdefined : id ∈ defs := by
        refine hhanded operand (List.mem_of_getElem? hoperand) id hid fun hnone => ?_
        nomatch hnone.symm.trans hknown
      rw [operandValue, constantOperand, if_neg hkind, hid]
      exact h id hdefined k constant hknown hconstant
  rw [← hfound]
  refine bindParameters_of_getElem? hget ?_ fun other parameter' hother heq =>
    hok.parameter_position hmem hother hget heq
  rw [List.getElem?_map, hoperand, Option.map_some, hheld]

/-- A reliable step defines nothing but what the analysis says. -/
theorem holdsAt_step (hok : Verifier.Accepted rules module f)
    (ha : Supported types runtime.library module f a) {c : Configuration W}
    (hplaced : Placed f c) (hreliable : a.ReliableAt runtime module f defs c)
    (h : a.HoldsAt module defs c) :
    a.HoldsAt module (definedBy f c (step runtime module f c) ++ defs) (step runtime module f c) := by
  cases c with
  | returned | raised | stuck => trivial
  | running frame world =>
    obtain ⟨b, hb⟩ := hplaced
    obtain ⟨hne, hmem, -⟩ := Function.block_eq_some hb.block
    cases hstep : step runtime module f (.running frame world) with
    | returned | raised | stuck => trivial
    | running next world' =>
      intro id hid k constant hk hconstant
      cases step_moves hb.block hstep with
      | @completes i rest hrest hblock hnext hvalues =>
        rw [definedBy_completes hrest hblock hnext] at hid
        by_cases hresult : id ∈ resultValues i
        · obtain ⟨hsome, rfl⟩ := mem_resultValues.mp hresult
          have hi : i ∈ f.instructions :=
            List.mem_flatMap.mpr ⟨b, hmem, hb.rest.mem (hrest ▸ List.mem_cons_self)⟩
          rw [ReliableAt, hrest] at hreliable
          have hexact := hreliable (by rw [hk]; exact Option.some_ne_none k)
          rw [step, hrest] at hstep
          cases (holds_result hok ha hi hsome hk hconstant hexact).symm.trans hstep
          exact define_result hsome _
        · rw [hvalues id hresult]
          exact h id ((List.mem_append.mp hid).resolve_left hresult) k constant hk hconstant
      | @enters target hrest hkind hc hnext =>
        have hthrow : b.terminator.kind ≠ .Throw := fun heq => absurd (heq ▸ hkind) (by decide)
        rw [definedBy_enters hb hrest hthrow (by rw [hnext]; exact hc)] at hid
        rw [ReliableAt, hrest] at hreliable
        have hedge := selected_successor (hok.terminator_ok hmem) hkind (Function.block_eq_some hc).1
        rw [hnext]
        dsimp only
        by_cases hparameter : id ∈ parameterValues target
        · obtain ⟨parameter, hdeclared, rfl⟩ := List.mem_map.mp hparameter
          exact holds_parameter hok ha hmem hc hedge (hreliable b hb.block) h hdeclared hk hconstant
        · rw [bindParameters_of_notMem fun parameter hmem heq =>
            hparameter (List.mem_map.mpr ⟨parameter, hmem, heq⟩)]
          exact h id ((List.mem_append.mp hid).resolve_left hparameter) k constant hk hconstant
      | @unwinds target hleaves hc hnext hvalues =>
        rw [definedBy_unwinds hb hleaves hc hnext, List.nil_append] at hid
        rw [hvalues]
        exact h id hid k constant hk hconstant

end

/-- In every run of a verified function whose steps are reliable, a value that was defined is the
    constant that the analysis reports for it. -/
theorem run_sound {W : Type} (rules : TypeRules) (options : Verifier.VerifierOptions)
    (types : TypeTable) (runtime : Runtime W)
    (module : Module) (f : Function) (arguments : ParamId → gc.Value) (slots : SlotId →
      Option gc.Value) (world : W)
    (hok : Verifier.verifyFunction rules module f options = []) (n : Nat)
    (hreliable : ∀ m < n, (run types runtime.library module f).ReliableAt runtime module f
      (definedAfter f (fun k => (step runtime module f)^[k] (start f arguments slots world)) m)
      ((step runtime module f)^[m] (start f arguments slots world))) :
    (run types runtime.library module f).HoldsAt module
      (definedAfter f (fun k => (step runtime module f)^[k] (start f arguments slots world)) n)
      ((step runtime module f)^[n] (start f arguments slots world)) := by
  have haccepted := Verifier.accepted_of_verifyFunction hok
  induction n with
  | zero =>
    rw [Function.iterate_zero_apply]
    cases start f arguments slots world with
    | running frame world => exact fun id hid => nomatch hid
    | returned | raised | stuck => trivial
  | succ n ih =>
    have hstep := holdsAt_step haccepted supported_run (placed_run arguments slots world n)
      (hreliable n n.lt_succ_self)
      (ih fun m hm => hreliable m (Nat.lt_succ_of_lt hm))
    rw [definedAfter, Function.iterate_succ_apply']
    exact hstep

def foldRuntime : Runtime Unit where
  library := foldLibrary
  memory _ := foldMemory
  static _ _ := .nil
  matchType world _ _ := (false, world)
  effect _ _ _ world := { result := .ok .nil, world }
  dispatch _ _ _ := none
  caught _ world := (.nil, world)

/-- A body that computes one value and returns it. -/
def computing (i : Instruction) : Function := Function.rebuildEdges {
  name := "computing"
  returnType := i.resultType
  entryBlock := 1
  blocks := [
    { id := 1, instructions := [i]
      terminator := { kind := .Return, value := .temp i.result i.resultType } }] }

def sumModule : Module := { constants := [makeInt 1, makeInt 2, makeInt 3] }

def sum : Instruction :=
  { opcode := .Add, result := 1, resultType := 2, operands := [.constant 1 2, .constant 2 2] }

/-- A loop that is entered with the sum, and from its own end with the constant of the same value. -/
def summing : Function := Function.rebuildEdges {
  name := "summing"
  parameters := [{ name := "again", type := 1 }]
  returnType := 2
  entryBlock := 1
  blocks := [
    { id := 1, instructions := [sum]
      terminator := { kind := .Jump, target := 2, edgeArguments := [[.temp 1 2]] } },
    { id := 2, parameters := [{ id := 1, name := "n", type := 2 }]
      terminator :=
        { kind := .Branch, value := .param 0 1, target := 2, elseBlock := 3
          edgeArguments := [[.constant 3 2], []] } },
    { id := 3, terminator := { kind := .Return, value := .blockParam 1 2 } }] }

/-- The parameter of the loop is reported, and holds the constant after the loop has come round. -/
theorem run_sound_sum :
    (run foldTypes foldLibrary sumModule summing).constantOf (.blockParam 1) = some 3 ∧
    (run foldTypes foldLibrary sumModule summing).HoldsAt sumModule
      (definedAfter summing (fun k => (step foldRuntime sumModule summing)^[k]
        (start summing (fun _ => .bool true) (fun _ => none) ())) 3)
      ((step foldRuntime sumModule summing)^[3]
        (start summing (fun _ => .bool true) (fun _ => none) ())) := by
  refine ⟨by decide +kernel, ?_⟩
  refine run_sound Verifier.exampleTypes {} foldTypes foldRuntime sumModule summing
    (fun _ => .bool true) (fun _ => none) () (by decide +kernel) 3 fun m hm => ?_
  have hdefined : definedAfter summing (fun k => (step foldRuntime sumModule summing)^[k]
      (start summing (fun _ => .bool true) (fun _ => none) ())) 1 = [.temp 1] := rfl
  obtain rfl | rfl | rfl : m = 0 ∨ m = 1 ∨ m = 2 := by omega
  · intro _ values hvalues
    cases hvalues
    trivial
  · rw [hdefined]
    intro b hb operand hoperand id hid _
    cases hb
    obtain rfl : operand = .temp 1 2 := List.mem_singleton.mp hoperand
    cases hid
    exact List.mem_singleton_self _
  · intro b hb operand hoperand id hid _
    cases hb
    obtain rfl : operand = .constant 3 2 := List.mem_singleton.mp hoperand
    cases hid

def collapsedModule : Module := { constants := [makeInt (2 ^ 53), makeInt (2 ^ 53 + 1), makeBool false] }

/-- The analysis reports false for a comparison that is true. -/
theorem run_collapsed : ¬∀ (W : Type) (rules : TypeRules) (options : Verifier.VerifierOptions)
    (types : TypeTable) (runtime : Runtime W)
    (module : Module) (f : Function) (arguments : ParamId → gc.Value) (slots : SlotId →
      Option gc.Value) (world : W), Verifier.verifyFunction rules module f options = [] →
      ∀ n, (run types runtime.library module f).HoldsAt module
      (definedAfter f (fun k => (step runtime module f)^[k] (start f arguments slots world)) n)
      ((step runtime module f)^[n] (start f arguments slots world)) := by
  intro h
  have hok : Verifier.verifyFunction Verifier.exampleTypes collapsedModule (computing lessThan) {} = [] := by
    decide +kernel
  have hruns := h Unit Verifier.exampleTypes {} foldTypes foldRuntime collapsedModule
    (computing lessThan) (fun _ => .nil) (fun _ => none) () hok
  have hreported : (run foldTypes foldLibrary collapsedModule (computing lessThan)).constantOf (.temp 1) =
      some 3 := by decide +kernel
  let frame : Frame := ⟨1, [], startValues fun _ => .nil, fun _ => none⟩
  have hless : executeOperator foldLibrary foldMemory .Lt [.int (2 ^ 53), .int (2 ^ 53 + 1)] =
    some (.ok (.bool true)) := by decide +kernel
  have hvalues : operandValues collapsedModule lessThan = some [.int (2 ^ 53), .int (2 ^ 53 + 1)] := by
    decide +kernel
  have hexecute : execute foldRuntime collapsedModule (computing lessThan) frame () lessThan =
      .running (frame.define 1 (.bool true)) () := by
    apply execute_operator
    rw [show lessThan.operands.map _ = _ from arguments_constant hvalues]
    exact hless
  have hstart : start (computing lessThan) (fun _ => .nil) (fun _ => none) () =
      .running { frame with rest := [lessThan] } () := rfl
  have hstep : (step foldRuntime collapsedModule (computing lessThan))^[1]
      (start (computing lessThan) (fun _ => .nil) (fun _ => none) ()) =
      .running (frame.define 1 (.bool true)) () := by
    rw [Function.iterate_one, hstart, step]
    exact hexecute
  have hholds (n : Nat) (c : Configuration Unit)
    (hc : (step foldRuntime collapsedModule (computing lessThan))^[n]
      (start (computing lessThan) (fun _ => .nil) (fun _ => none) ()) = c) := hc ▸ hruns n
  have hdefined : ValueId.temp 1 ∈ definedAfter (computing lessThan)
    (fun k => (step foldRuntime collapsedModule (computing lessThan))^[k]
      (start (computing lessThan) (fun _ => .nil) (fun _ => none) ())) 1 := by
    have hnow : definedBy (computing lessThan) (.running { frame with rest := [lessThan] } ())
      (.running (frame.define 1 (.bool true)) ()) = [.temp 1] := rfl
    rw [definedAfter, hstep, Function.iterate_zero_apply, hstart, hnow]
    exact List.mem_cons_self
  cases hholds 1 _ hstep (.temp 1) hdefined 3 (makeBool false) hreported rfl

end ConstantAnalysis

end zl.mir
