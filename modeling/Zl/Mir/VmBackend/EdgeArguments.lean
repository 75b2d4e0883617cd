import Zl.Assign.CopySequence
import Zl.Mir.VmBackend.Terminators

open zl.assign
open zl.vm (Value isTruthy exists_pair_isTruthy)

namespace zl.mir.VmBackend

/-- The locals of a frame by name. -/
abbrev Locals := String → Value

/-- The run of a terminator's code up to the jump it takes: the block control goes to, the locals,
    and the rest of the operand stack. -/
def transfer : List BcInstruction → Locals → List Value → Option (BlockId × Locals × List Value)
  | .PushConst value :: code, locals, stack => transfer code locals (value :: stack)
  | .LoadVar name :: code, locals, stack => transfer code locals (locals name :: stack)
  | .DefineVar name :: code, locals, value :: stack =>
    transfer code (Function.update locals name value) stack
  | .JumpIfFalse target :: code, locals, value :: stack =>
    if isTruthy value then transfer code locals stack else some (target, locals, stack)
  | .Jump target :: _, locals, stack => some (target, locals, stack)
  | .PushHandler _ _ _ :: code, locals, stack => transfer code locals stack
  | .PushFinallyHandler _ :: code, locals, stack => transfer code locals stack
  | .PopHandler :: code, locals, stack => transfer code locals stack
  | _, _, _ => none

section
variable (m : Module) (f : Function)

/-- The value of an operand. -/
def operandValue (statics : StaticId → Value) (locals : Locals) (operand : Operand) : Option Value :=
  match operand.kind with
  | .Const => (m.constant operand.index).map toVmConstant
  | .Param => some (locals (paramLocal f operand.index))
  | .Temp => some (locals (tempLocal operand.index))
  | .BlockParam => some (locals (blockParamLocal operand.index))
  | .Static => some (statics operand.index)
  | .None => none

/-- The successor a terminator selects, by its position. -/
def selectedSuccessor (statics : StaticId → Value) (locals : Locals) (t : Terminator) : Nat :=
  if t.kind = .Branch ∧ (operandValue m f statics locals t.value).any isTruthy = false then 1 else 0

/-- The locals of a block's parameters. -/
def parameterLocals (c : BasicBlock) : List String := c.parameters.map fun p => blockParamLocal p.id

/-- Control arrives at a successor with its parameters bound in parallel: each holds what
    its argument was before, and every other block-parameter local what it held itself. -/
structure BoundInParallel (statics : StaticId → Value) (before : Locals) (arguments : List Operand)
    (c : BasicBlock) (after : Locals) : Prop where
  parameters : ∀ pair ∈ arguments.zip c.parameters,
    operandValue m f statics before pair.1 = some (after (blockParamLocal pair.2.id))
  others : ∀ q, blockParamLocal q ∉ parameterLocals c →
    after (blockParamLocal q) = before (blockParamLocal q)

/-- Whatever the locals hold, the code of a terminator goes to the successor the terminator
    selects and binds its parameters in parallel. -/
def ParallelTransfer (t : Terminator) (code : List BcInstruction) : Prop :=
  ∀ statics locals stack, ∃ c after rest,
    t.successors[selectedSuccessor m f statics locals t]?.bind f.block = some c ∧
      transfer code locals stack = some (c.id, after, rest) ∧
      BoundInParallel m f statics locals
        (t.argumentsFor (selectedSuccessor m f statics locals t)) c after

/-- The local or constant that is pushed for an operand. -/
def operandSource (operand : Operand) : Option (Source String Value) :=
  match operand.kind with
  | .Const => (m.constant operand.index).map fun c => .const (toVmConstant c)
  | .Param => some (.var (paramLocal f operand.index))
  | .Temp => some (.var (tempLocal operand.index))
  | .BlockParam => some (.var (blockParamLocal operand.index))
  | .Static | .None => none

/-- The arguments of an edge with the parameters they are for. -/
def edgePairs (t : Terminator) (i : Nat) : List (Operand × BlockParameter) :=
  match t.successors[i]?.bind f.block with
  | none => []
  | some c => (t.argumentsFor i).zip c.parameters

/-- The copies a list of arguments stands for. -/
def pairCopies (pairs : List (Operand × BlockParameter)) : List (String × Source String Value) :=
  pairs.filterMap fun pair =>
    (operandSource m f pair.1).map fun source => (blockParamLocal pair.2.id, source)

/-- The edges whose arguments are stored whichever of them is taken. -/
def storedEdges (t : Terminator) : List Nat := if t.kind = .Branch then [0, 1] else [0]

/-- The copies that run before the transfer, in order. -/
def terminatorCopies (t : Terminator) : List (String × Source String Value) :=
  (storedEdges t).flatMap fun i => pairCopies m f (edgePairs f t i)

/-- The edges some value of the condition selects. -/
def selectableEdges (t : Terminator) : List Nat :=
  if t.kind = .Branch then
    match operandSource m f t.value with
    | some (.const value) => if isTruthy value then [0] else [1]
    | _ => [0, 1]
  else [0]

/-- Traced through the copies of the terminator, each parameter of the successor stems from
    its argument, and each other local that is written from itself. -/
def TracedInParallel (t : Terminator) (i : Nat) : Prop :=
  (∀ pair ∈ edgePairs f t i,
    operandSource m f pair.1 = some (traced (terminatorCopies m f t) (blockParamLocal pair.2.id))) ∧
  ∀ copy ∈ terminatorCopies m f t,
    copy.1 ∈ ((t.successors[i]?.bind f.block).map parameterLocals).getD [] ∨
      traced (terminatorCopies m f t) copy.1 = .var copy.1

instance (t : Terminator) (i : Nat) : Decidable (TracedInParallel m f t i) :=
  inferInstanceAs (Decidable (_ ∧ _))

/-- The condition for the stores of a terminator to amount to a parallel assignment. -/
structure CopiesInParallel (t : Terminator) : Prop where
  /-- No operand that is pushed is a static. -/
  noStatic : ∀ i ∈ storedEdges t, ∀ pair ∈ edgePairs f t i, pair.1.kind ≠ .Static
  conditionNoStatic : t.kind = .Branch → t.value.kind ≠ .Static
  /-- The copies bind in parallel on every edge the condition can select. -/
  edges : ∀ i ∈ selectableEdges m f t, TracedInParallel m f t i
  /-- The condition still reads the local it read before, unless it makes no difference. -/
  condition : t.kind = .Branch → t.target ≠ t.elseBlock → ∀ source,
    operandSource m f t.value = some source →
      source.subst (traced (terminatorCopies m f t)) = source

end

section
variable {m : Module} {f : Function}
variable {code : List BcInstruction} {pairs : List (Operand × BlockParameter)} {operand : Operand}
  {t : Terminator}

theorem selectedSuccessor_branch {statics : StaticId → Value} {locals : Locals}
    (hkind : t.kind = .Branch) {value : Value}
    (hvalue : operandValue m f statics locals t.value = some value) :
    selectedSuccessor m f statics locals t = if isTruthy value then 0 else 1 := by
  unfold selectedSuccessor
  rw [hvalue, Option.any_some]
  cases htruthy : isTruthy value with
  | true => simp
  | false => simp [hkind]

theorem selectedSuccessor_jump {statics : StaticId → Value} {locals : Locals}
    (hkind : t.kind = .Jump) : selectedSuccessor m f statics locals t = 0 := by
  simp [selectedSuccessor, hkind]

theorem operandValue_of_source {source : Source String Value}
    (hsource : operandSource m f operand = some source) (statics : StaticId → Value)
    (locals : Locals) : operandValue m f statics locals operand = some (source.eval locals) := by
  unfold operandSource at hsource
  unfold operandValue
  cases hkind : operand.kind with
  | Static | None => simp [hkind] at hsource
  | Const =>
    simp only [hkind, Option.map_eq_some_iff] at hsource ⊢
    obtain ⟨constant, hconstant, rfl⟩ := hsource
    exact ⟨constant, hconstant, rfl⟩
  | Param | Temp | BlockParam =>
    simp only [hkind, Option.some.injEq] at hsource
    subst hsource
    rfl

/-- A push leaves the value of its source on the stack. -/
theorem transfer_pushOperand (hpush : pushOperand m f operand = .ok code) (hkind : operand.kind ≠ .Static) :
    ∃ source, operandSource m f operand = some source ∧ ∀ rest locals stack,
      transfer (code ++ rest) locals stack = transfer rest locals (source.eval locals :: stack) := by
  unfold pushOperand at hpush
  unfold operandSource
  cases hoperand : operand.kind with
  | Static => exact absurd hoperand hkind
  | None =>
    rw [hoperand] at hpush
    cases hpush
  | Const =>
    rw [hoperand] at hpush
    simp only at hpush
    cases hconstant : m.constant operand.index with
    | none =>
      rw [hconstant] at hpush
      cases hpush
    | some constant =>
      rw [hconstant] at hpush
      cases hpush
      exact ⟨_, rfl, fun _ _ _ => rfl⟩
  | Param | Temp | BlockParam =>
    rw [hoperand] at hpush
    cases hpush
    exact ⟨_, rfl, fun _ _ _ => rfl⟩

theorem pushOperand_static (hkind : operand.kind = .Static) :
    pushOperand m f operand = .ok [] := by
  simp [pushOperand, hkind]

theorem storeArguments_cons {argument : Operand} {parameter : BlockParameter}
    (hstore : storeArguments m f ((argument, parameter) :: pairs) = .ok code) :
    ∃ push rest, pushOperand m f argument = .ok push ∧ storeArguments m f pairs = .ok rest ∧
      code = push ++ .DefineVar (blockParamLocal parameter.id) :: rest := by
  rw [storeArguments] at hstore
  cases hpush : pushOperand m f argument with
  | error => simp [hpush, bind, Except.bind] at hstore
  | ok push =>
    cases hrest : storeArguments m f pairs with
    | error => simp [hpush, hrest, bind, Except.bind] at hstore
    | ok rest =>
      refine ⟨push, rest, rfl, rfl, ?_⟩
      simpa [hpush, hrest, bind, Except.bind, pure, Except.pure] using hstore.symm

/-- The stores of arguments none of which is a static run the copies. -/
theorem transfer_storeArguments (hstore : storeArguments m f pairs = .ok code)
    (hkind : ∀ pair ∈ pairs, pair.1.kind ≠ .Static) (rest : List BcInstruction) (locals : Locals)
    (stack : List Value) :
    transfer (code ++ rest) locals stack =
      transfer rest (runCopies (pairCopies m f pairs) locals) stack := by
  induction pairs generalizing code locals with
  | nil =>
    cases hstore
    rfl
  | cons pair pairs ih =>
    obtain ⟨argument, parameter⟩ := pair
    obtain ⟨push, later, hpush, hlater, rfl⟩ := storeArguments_cons hstore
    obtain ⟨hfirst, hothers⟩ := List.forall_mem_cons.mp hkind
    obtain ⟨source, hsource, hrun⟩ := transfer_pushOperand hpush hfirst
    have hcopies : pairCopies m f ((argument, parameter) :: pairs) =
        (blockParamLocal parameter.id, source) :: pairCopies m f pairs := by
      simp [pairCopies, hsource]
    rw [List.append_assoc, hrun, List.cons_append, transfer, ih hlater hothers, hcopies, runCopies]

theorem transfer_storeArguments_static (hstore : storeArguments m f pairs = .ok code)
    (hkind : ∃ pair ∈ pairs, pair.1.kind = .Static) (rest : List BcInstruction) (locals : Locals) :
    transfer (code ++ rest) locals [] = none := by
  induction pairs generalizing code locals with
  | nil =>
    obtain ⟨pair, hmem, -⟩ := hkind
    cases hmem
  | cons pair pairs ih =>
    obtain ⟨argument, parameter⟩ := pair
    obtain ⟨push, later, hpush, hlater, rfl⟩ := storeArguments_cons hstore
    by_cases hstatic : argument.kind = .Static
    · rw [pushOperand_static hstatic] at hpush
      cases hpush
      rfl
    · obtain ⟨source, -, hrun⟩ := transfer_pushOperand hpush hstatic
      obtain ⟨pair, hmem, hpair⟩ := hkind
      have hmem : pair ∈ pairs := by
        refine (List.mem_cons.mp hmem).resolve_left ?_
        rintro rfl
        exact hstatic hpair
      rw [List.append_assoc, hrun, List.cons_append, transfer]
      exact ih hlater ⟨pair, hmem, hpair⟩ _

theorem emitEdgeArguments_eq_ok {i : Nat} (hemit : emitEdgeArguments m f t i = .ok code) :
    storeArguments m f (edgePairs f t i) = .ok code := by
  unfold emitEdgeArguments at hemit
  unfold edgePairs
  cases htarget : t.successors[i]?.bind f.block with
  | none =>
    rw [htarget] at hemit
    exact hemit
  | some c =>
    rw [htarget] at hemit
    simp only at hemit ⊢
    split at hemit
    next hnone =>
      rw [hnone, List.zip_nil_right]
      exact hemit
    · split at hemit
      · cases hemit
      · exact hemit

theorem transfer_syncHandlers {rules : TypeRules} {groups : BlockId → Option Nat} {b : BasicBlock}
    {target : BlockId} (hsync : syncHandlers rules f groups b target = .ok code) :
    (∃ c, f.block target = some c) ∧ ∀ rest locals stack,
      transfer (code ++ rest) locals stack = transfer rest locals stack := by
  unfold syncHandlers chainOf at hsync
  cases hblock : f.block target with
  | none => simp [hblock, bind, Except.bind] at hsync
  | some c =>
    refine ⟨⟨c, rfl⟩, fun rest locals stack => ?_⟩
    simp only [hblock, bind, Except.bind, pure, Except.pure, Except.ok.injEq] at hsync
    subst hsync
    have hpops : ∀ n (tail : List BcInstruction),
        transfer (List.replicate n .PopHandler ++ tail) locals stack = transfer tail locals stack := by
      intro n tail
      induction n with
      | zero => rfl
      | succ n ih =>
        rw [List.replicate_succ, List.cons_append, transfer]
        exact ih
    have hpushes : ∀ chain : List ExceptionHandler,
        transfer (chain.map (installHandler rules groups) ++ rest) locals stack =
          transfer rest locals stack := by
      intro chain
      induction chain with
      | nil => rfl
      | cons handler chain ih =>
        rw [List.map_cons, List.cons_append, installHandler]
        split
        · exact ih
        · exact ih
    rw [List.append_assoc, hpops, hpushes]

end

end zl.mir.VmBackend
