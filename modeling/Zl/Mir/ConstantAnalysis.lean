import Zl.Mir.FoldingAgreement

open zl.vm.value

namespace zl.mir

/-- Constants that share a place in the pool: of one kind, and the same as far as their kind goes. -/
def Constant.same (a b : Constant) : Bool :=
  if a.kind ≠ b.kind then false
  else match a.kind with
    | .Bool => a.boolValue = b.boolValue
    | .Int => a.intValue = b.intValue
    | .Double => a.doubleBits = b.doubleBits
    | .String => a.stringValue = b.stringValue
    | .Nil => true
    | .EnumMember => a.enumTypeName = b.enumTypeName && a.stringValue = b.stringValue

/-- What is known to be constant, also in the order in which it was found. -/
structure ConstantAnalysis where
  constantIds : ValueId → Option ConstId := fun _ => none
  constantValues : List ValueId := []

namespace ConstantAnalysis

section
variable (types : TypeTable) (library : Library) (module : Module) (f : Function)
  (known : ValueId → Option ConstId)

def poolIdOf (constant : Constant) : Option ConstId :=
  (List.range' 1 module.constants.length).find? fun id => (module.constant id).any (·.same constant)

def evaluateOperand (operand : Operand) : Option ConstId :=
  if operand.kind = .Const then (module.constant operand.index).map fun _ => operand.index
  else (valueOf operand).bind known

/-- The arguments on each edge to a block. -/
def argumentsInto (id : BlockId) : List (List Operand) :=
  f.blocks.flatMap fun b => (b.terminator.successors.zipIdx.filter (·.1 = id)).map fun s =>
    b.terminator.argumentsFor s.2

/-- The constant at one position that all edges hand on. -/
def agreed (position : Nat) : Option ConstId → List (List Operand) → Option ConstId
  | sofar, [] => sofar
  | sofar, arguments :: rest => do
    let argument ← evaluateOperand module known (← arguments[position]?)
    if sofar = none ∨ sofar = some argument then agreed position (some argument) rest else none

/-- What the definition of a value implies, given the constants known right now. -/
def evaluate : ValueId → Option ConstId
  | .param _ => none
  | .blockParam id => do
    let owner ← f.blockOfParameter id
    let position ← owner.parameters.findIdx? (·.id = id)
    agreed module known position none (argumentsInto f owner.id)
  | .temp id => do
    let definition ← f.instructions.find? fun i => i.result ≠ kNoTemp ∧ i.result = id
    poolIdOf module (← foldInstruction types library module definition)

/-- The flag tells whether something new became constant. -/
def visit (a : ConstantAnalysis × Bool) (value : ValueId) : ConstantAnalysis × Bool :=
  if (a.1.constantIds value).isSome then a
  else match evaluate types library module f a.1.constantIds value with
    | none => a
    | some c =>
      ({ constantIds := Function.update a.1.constantIds value (some c)
         constantValues := a.1.constantValues ++ [value] }, true)

def rounds : Nat → ConstantAnalysis → ConstantAnalysis
  | 0, a => a
  | guard + 1, a =>
    let (next, changed) :=
      ((valueDefinitions f).map (·.1)).foldl (visit types library module f) (a, false)
    if changed then rounds guard next else next

def run : ConstantAnalysis := rounds types library module f ((valueDefinitions f).length * 4 + 64) {}

end

def constantOf (a : ConstantAnalysis) (value : ValueId) : Option ConstId := a.constantIds value

section
variable {types : TypeTable} {library : Library} {module : Module} {f : Function}
  {known known' : ValueId → Option ConstId}

theorem poolIdOf_some {constant : Constant} {id : ConstId} (h : poolIdOf module constant = some id) :
    ∃ c, module.constant id = some c ∧ c.same constant = true := by
  have hany := List.find?_some h
  rwa [Option.any_eq_true] at hany

theorem evaluateOperand_mono (hle : ∀ v c, known v = some c → known' v = some c)
    {operand : Operand} {c : ConstId}
    (h : evaluateOperand module known operand = some c) : evaluateOperand module known' operand =
      some c := by
  unfold evaluateOperand at *
  split
  next hkind => rwa [if_pos hkind] at h
  next hkind =>
    rw [if_neg hkind] at h
    obtain ⟨v, hv, hc⟩ := Option.bind_eq_some_iff.mp h
    exact Option.bind_eq_some_iff.mpr ⟨v, hv, hle v c hc⟩

theorem agreed_eq_some {position : Nat} {sofar : Option ConstId} {edges : List (List Operand)}
    {c : ConstId} :
    agreed module known position sofar edges = some c ↔ (sofar = some c ∨ sofar = none ∧ edges ≠ []) ∧
      ∀ arguments ∈ edges, ∃ operand, arguments[position]? = some operand ∧
      evaluateOperand module known operand = some c := by
  induction edges generalizing sofar with
  | nil => simp [agreed]
  | cons arguments rest ih =>
    rw [agreed, List.forall_mem_cons]
    constructor
    · intro h
      obtain ⟨operand, hoperand, h⟩ := Option.bind_eq_some_iff.mp h
      obtain ⟨argument, hargument, h⟩ := Option.bind_eq_some_iff.mp h
      split at h
      next hsofar =>
        obtain ⟨hagreed, hrest⟩ := ih.mp h
        obtain rfl : argument = c := by simpa using hagreed
        refine ⟨?_, ⟨operand, hoperand, hargument⟩, hrest⟩
        exact hsofar.elim (fun hnone => .inr ⟨hnone, List.cons_ne_nil _ _⟩) .inl
      next => nomatch h
    · rintro ⟨hsofar, ⟨operand, hoperand, hargument⟩, hrest⟩
      refine Option.bind_eq_some_iff.mpr
        ⟨operand, hoperand, Option.bind_eq_some_iff.mpr ⟨c, hargument, ?_⟩⟩
      rw [if_pos (hsofar.elim .inr fun h => .inl h.1)]
      exact ih.mpr ⟨.inl rfl, hrest⟩

/-- More constants known leave those that were implied. -/
theorem evaluate_mono (hle : ∀ v c, known v = some c → known' v = some c) {value : ValueId} {c : ConstId}
    (h : evaluate types library module f known value = some c) :
    evaluate types library module f known' value = some c := by
  cases value with
  | param => nomatch h
  | temp => exact h
  | blockParam id =>
    obtain ⟨owner, howner, h⟩ := Option.bind_eq_some_iff.mp h
    obtain ⟨position, hposition, h⟩ := Option.bind_eq_some_iff.mp h
    refine Option.bind_eq_some_iff.mpr
      ⟨owner, howner, Option.bind_eq_some_iff.mpr ⟨position, hposition, ?_⟩⟩
    obtain ⟨hsome, hedges⟩ := agreed_eq_some.mp h
    refine agreed_eq_some.mpr ⟨hsome, fun arguments harguments => ?_⟩
    obtain ⟨operand, hoperand, hc⟩ := hedges arguments harguments
    exact ⟨operand, hoperand, evaluateOperand_mono hle hc⟩

/-- Each constant is implied by the definition of its value and by the others. -/
def Supported (types : TypeTable) (library : Library) (module : Module) (f : Function)
    (a : ConstantAnalysis) : Prop :=
  ∀ value c, a.constantOf value = some c → evaluate types library module f a.constantIds value = some c

theorem supported_visit {a : ConstantAnalysis × Bool} (h : Supported types library module f a.1)
    (value : ValueId) :
    Supported types library module f (visit types library module f a value).1 := by
  unfold visit
  split
  · exact h
  next hnew =>
    split
    · exact h
    next c hc =>
      have hle (v : ValueId) (d : ConstId) (hd : a.1.constantIds v = some d) :
          Function.update a.1.constantIds value (some c) v = some d := by
        rw [Function.update_of_ne, hd]
        rintro rfl
        exact hnew (hd ▸ rfl)
      intro v d hd
      change Function.update a.1.constantIds value (some c) v = some d at hd
      by_cases hv : v = value
      · subst hv
        rw [Function.update_self] at hd
        cases hd
        exact evaluate_mono hle hc
      · rw [Function.update_of_ne hv] at hd
        exact evaluate_mono hle (h v d hd)

theorem supported_rounds (guard : Nat) {a : ConstantAnalysis} (h : Supported types library module f a) :
    Supported types library module f (rounds types library module f guard a) := by
  induction guard generalizing a with
  | zero => exact h
  | succ guard ih =>
    have hround (values : List ValueId) (b : ConstantAnalysis × Bool)
      (hb : Supported types library module f b.1) :
        Supported types library module f (values.foldl (visit types library module f) b).1 := by
      induction values generalizing b with
      | nil => exact hb
      | cons value values ih => exact ih _ (supported_visit hb value)
    have hnext := hround ((valueDefinitions f).map (·.1)) (a, false) h
    rw [rounds]
    dsimp only
    split
    · exact ih hnext
    · exact hnext

theorem supported_run : Supported types library module f (run types library module f) :=
  supported_rounds _ fun _ _ h => nomatch h

end

end ConstantAnalysis

end zl.mir
