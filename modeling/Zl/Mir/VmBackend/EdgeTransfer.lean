import Zl.Mir.VmBackend.EdgeArguments
import Zl.Mir.Verifier.DefinitionSoundness

open zl.assign
open zl.vm (Value isTruthy exists_pair_isTruthy)

namespace zl.mir.VmBackend

section
variable {rules : TypeRules} {m : Module} {f : Function} {groups : BlockId → Option Nat}
  {b : BasicBlock} {code : List BcInstruction}
variable {t : Terminator} {i : Nat}

theorem getElem?_arm {A : Type} (a b : A) (first : Prop) [Decidable first] :
    [a, b][if first then 0 else 1]? = some (if first then a else b) := by
  by_cases hfirst : first
  · simp [hfirst]
  · simp [hfirst]

theorem emitTerminator_jump (hemit : emitTerminator rules m f groups b = .ok code)
    (hkind : b.terminator.kind = .Jump) :
    ∃ stores sync c, storeArguments m f (edgePairs f b.terminator 0) = .ok stores ∧
      syncHandlers rules f groups b b.terminator.target = .ok sync ∧
      code = stores ++ sync ++ [.Jump b.terminator.target] ∧
      b.terminator.successors = [b.terminator.target] ∧ f.block b.terminator.target = some c := by
  unfold emitTerminator at hemit
  simp only [hkind] at hemit
  cases hstores : emitEdgeArguments m f b.terminator 0 with
  | error => simp [hstores, bind, Except.bind] at hemit
  | ok stores =>
    cases hsync : syncHandlers rules f groups b b.terminator.target with
    | error => simp [hstores, hsync, bind, Except.bind] at hemit
    | ok sync =>
      obtain ⟨⟨c, hc⟩, -⟩ := transfer_syncHandlers hsync
      refine ⟨stores, sync, c, emitEdgeArguments_eq_ok hstores, rfl, ?_, ?_, hc⟩
      · simpa [hstores, hsync, bind, Except.bind, pure, Except.pure] using hemit.symm
      · simp [Terminator.successors, hkind, (Function.block_eq_some hc).1]

theorem sameChain_eq_ok {target : BlockId} {same : Bool} (h : sameChain f b target = .ok same) :
    ∃ c, f.block target = some c := by
  unfold sameChain chainOf at h
  cases hblock : f.block target with
  | none => simp [hblock, bind, Except.bind] at h
  | some c => exact ⟨c, rfl⟩

/-- The code of a branch. -/
theorem emitTerminator_branch (hemit : emitTerminator rules m f groups b = .ok code)
    (hkind : b.terminator.kind = .Branch) :
    ∃ thenStores elseStores push c d, storeArguments m f (edgePairs f b.terminator 0) = .ok thenStores ∧
      storeArguments m f (edgePairs f b.terminator 1) = .ok elseStores ∧
      pushOperand m f b.terminator.value = .ok push ∧
      code = thenStores ++ elseStores ++ push ++
        [.JumpIfFalse b.terminator.elseBlock, .Jump b.terminator.target] ∧
      b.terminator.successors = [b.terminator.target, b.terminator.elseBlock] ∧
      f.block b.terminator.target = some c ∧ f.block b.terminator.elseBlock = some d := by
  unfold emitTerminator at hemit
  simp only [hkind] at hemit
  cases hthen : sameChain f b b.terminator.target with
  | error => simp [hthen, bind, Except.bind] at hemit
  | ok thenSame =>
    cases helse : sameChain f b b.terminator.elseBlock with
    | error => simp [hthen, helse, bind, Except.bind] at hemit
    | ok elseSame =>
      simp only [hthen, helse, bind, Except.bind, pure, Except.pure] at hemit
      split at hemit
      · cases hemit
      · cases hthenStores : emitEdgeArguments m f b.terminator 0 with
        | error => simp [hthenStores] at hemit
        | ok thenStores =>
          cases helseStores : emitEdgeArguments m f b.terminator 1 with
          | error => simp [hthenStores, helseStores] at hemit
          | ok elseStores =>
            cases hpush : pushOperand m f b.terminator.value with
            | error => simp [hthenStores, helseStores, hpush] at hemit
            | ok push =>
              obtain ⟨c, hc⟩ := sameChain_eq_ok hthen
              obtain ⟨d, hd⟩ := sameChain_eq_ok helse
              refine ⟨thenStores, elseStores, push, c, d, emitEdgeArguments_eq_ok hthenStores,
                emitEdgeArguments_eq_ok helseStores, rfl, ?_, ?_, hc, hd⟩
              · simpa [hthenStores, helseStores, hpush] using hemit.symm
              · simp [Terminator.successors, hkind, (Function.block_eq_some hc).1,
                  (Function.block_eq_some hd).1]

/-- Without statics the code runs the copies and then selects the successor by the condition as it
    is after them. -/
theorem transfer_emitTerminator (hemit : emitTerminator rules m f groups b = .ok code)
    (hkind : b.terminator.kind = .Jump ∨ b.terminator.kind = .Branch)
    (hstatic : ∀ i ∈ storedEdges b.terminator, ∀ pair ∈ edgePairs f b.terminator i,
      pair.1.kind ≠ .Static)
    (hcondition : b.terminator.kind = .Branch → b.terminator.value.kind ≠ .Static)
    (statics : StaticId → Value) (locals : Locals) (stack : List Value) :
    ∃ c, b.terminator.successors[selectedSuccessor m f statics
        (runCopies (terminatorCopies m f b.terminator) locals) b.terminator]?.bind f.block = some c ∧
      transfer code locals stack =
        some (c.id, runCopies (terminatorCopies m f b.terminator) locals, stack) := by
  cases hkind with
  | inl hjump =>
    obtain ⟨stores, sync, c, hstores, hsync, rfl, hsuccessors, hc⟩ := emitTerminator_jump hemit hjump
    have hcopies : terminatorCopies m f b.terminator = pairCopies m f (edgePairs f b.terminator 0) := by
      simp [terminatorCopies, storedEdges, hjump]
    refine ⟨c, by simp [selectedSuccessor_jump hjump, hsuccessors, hc], ?_⟩
    rw [List.append_assoc, transfer_storeArguments hstores (hstatic 0 (by simp [storedEdges, hjump])),
      (transfer_syncHandlers hsync).2, transfer, hcopies, (Function.block_eq_some hc).2.2]
  | inr hbranch =>
    obtain ⟨thenStores, elseStores, push, c, d, hthen, helse, hpush, rfl, hsuccessors, hc, hd⟩ :=
      emitTerminator_branch hemit hbranch
    obtain ⟨source, hsource, hrun⟩ := transfer_pushOperand hpush (hcondition hbranch)
    have hcopies : terminatorCopies m f b.terminator =
        pairCopies m f (edgePairs f b.terminator 0) ++ pairCopies m f (edgePairs f b.terminator 1) := by
      simp [terminatorCopies, storedEdges, hbranch]
    have hcode : transfer (thenStores ++ elseStores ++ push ++
        [.JumpIfFalse b.terminator.elseBlock, .Jump b.terminator.target]) locals stack =
        transfer [.JumpIfFalse b.terminator.elseBlock, .Jump b.terminator.target]
          (runCopies (terminatorCopies m f b.terminator) locals)
          (source.eval (runCopies (terminatorCopies m f b.terminator) locals) :: stack) := by
      rw [List.append_assoc, List.append_assoc,
        transfer_storeArguments hthen (hstatic 0 (by simp [storedEdges, hbranch])),
        transfer_storeArguments helse (hstatic 1 (by simp [storedEdges, hbranch])), hrun, hcopies,
        runCopies_append]
    rw [hcode, transfer]
    rw [selectedSuccessor_branch hbranch (operandValue_of_source hsource statics _)]
    by_cases htruthy : isTruthy
        (source.eval (runCopies (terminatorCopies m f b.terminator) locals)) = true
    · refine ⟨c, by simp [htruthy, hsuccessors, hc], ?_⟩
      rw [if_pos htruthy, transfer, (Function.block_eq_some hc).2.2]
    · refine ⟨d, by simp [htruthy, hsuccessors, hd], ?_⟩
      rw [if_neg htruthy, (Function.block_eq_some hd).2.2]

/-- A static among the operands that are pushed makes the code fail on an empty stack. -/
theorem transfer_emitTerminator_static (hemit : emitTerminator rules m f groups b = .ok code)
    (hkind : b.terminator.kind = .Jump ∨ b.terminator.kind = .Branch)
    (hstatic : (∃ i ∈ storedEdges b.terminator, ∃ pair ∈ edgePairs f b.terminator i,
      pair.1.kind = .Static) ∨ b.terminator.kind = .Branch ∧ b.terminator.value.kind = .Static)
    (locals : Locals) : transfer code locals [] = none := by
  cases hkind with
  | inl hjump =>
    obtain ⟨stores, sync, c, hstores, -, rfl, -, -⟩ := emitTerminator_jump hemit hjump
    have hpairs : ∃ pair ∈ edgePairs f b.terminator 0, pair.1.kind = .Static := by
      simpa [storedEdges, hjump] using hstatic
    rw [List.append_assoc, transfer_storeArguments_static hstores hpairs]
  | inr hbranch =>
    obtain ⟨thenStores, elseStores, push, c, d, hthen, helse, hpush, rfl, -, -, -⟩ :=
      emitTerminator_branch hemit hbranch
    rw [List.append_assoc, List.append_assoc]
    by_cases hfirst : ∃ pair ∈ edgePairs f b.terminator 0, pair.1.kind = .Static
    · rw [transfer_storeArguments_static hthen hfirst]
    · have hclean : ∀ pair ∈ edgePairs f b.terminator 0, pair.1.kind ≠ .Static :=
        fun pair hmem hpair => hfirst ⟨pair, hmem, hpair⟩
      rw [transfer_storeArguments hthen hclean]
      by_cases hsecond : ∃ pair ∈ edgePairs f b.terminator 1, pair.1.kind = .Static
      · rw [transfer_storeArguments_static helse hsecond]
      · have hcleanElse : ∀ pair ∈ edgePairs f b.terminator 1, pair.1.kind ≠ .Static :=
          fun pair hmem hpair => hsecond ⟨pair, hmem, hpair⟩
        have hvalue : b.terminator.value.kind = .Static := by
          refine (hstatic.resolve_left ?_).2
          rintro ⟨i, hi, pair, hmem, hpair⟩
          have hi : i = 0 ∨ i = 1 := by simpa [storedEdges, hbranch] using hi
          cases hi with
          | inl hi => exact hclean pair (hi ▸ hmem) hpair
          | inr hi => exact hcleanElse pair (hi ▸ hmem) hpair
        rw [pushOperand_static hvalue] at hpush
        cases hpush
        rw [transfer_storeArguments helse hcleanElse]
        rfl

theorem selectedSuccessor_mem {source : Source String Value} (hkind : t.kind = .Branch)
    (hsource : operandSource m f t.value = some source) (statics : StaticId → Value) (locals : Locals) :
    selectedSuccessor m f statics locals t ∈ selectableEdges m f t := by
  rw [selectedSuccessor_branch hkind (operandValue_of_source hsource statics locals),
    selectableEdges, if_pos hkind, hsource]
  cases source with
  | var name =>
    by_cases htruthy : isTruthy (locals name) = true
    · simp [Source.eval, htruthy]
    · simp [Source.eval, htruthy]
  | const value =>
    by_cases htruthy : isTruthy value = true
    · simp [Source.eval, htruthy]
    · simp [Source.eval, htruthy]

theorem selectableEdges_subset (hi : i ∈ selectableEdges m f t) :
    i ∈ storedEdges t := by
  unfold selectableEdges at hi
  unfold storedEdges
  split at hi
  next hkind =>
    rw [if_pos hkind]
    split at hi
    · split at hi
      · simp_all
      · simp_all
    · exact hi
  next hkind =>
    rw [if_neg hkind]
    exact hi

/-- The values the locals may hold for the condition to select a successor. -/
def selecting (m : Module) (f : Function) (t : Terminator) (i : Nat) (name : String) : Set Value :=
  {v | t.kind = .Branch → operandSource m f t.value = some (.var name) → isTruthy v = (i == 0)}

theorem exists_pair_selecting (m : Module) (f : Function) (t : Terminator) (i : Nat) (name : String) :
    ∃ v ∈ selecting m f t i name, ∃ w ∈ selecting m f t i name, v ≠ w := by
  obtain ⟨v, hv, w, hw, hne⟩ := exists_pair_isTruthy (i == 0)
  exact ⟨v, fun _ _ => hv, w, fun _ _ => hw, hne⟩

theorem selectedSuccessor_of_selecting (hkind : t.kind = .Jump ∨ t.kind = .Branch)
    (hsource : t.kind = .Branch → ∃ source, operandSource m f t.value = some source)
    (hi : i ∈ selectableEdges m f t) (statics : StaticId → Value) {locals : Locals}
    (hlocals : ∀ name, locals name ∈ selecting m f t i name) :
    selectedSuccessor m f statics locals t = i := by
  unfold selectableEdges at hi
  cases hkind with
  | inl hjump =>
    rw [if_neg (by simp [hjump])] at hi
    rw [selectedSuccessor_jump hjump, List.mem_singleton.mp hi]
  | inr hbranch =>
    obtain ⟨source, hsource⟩ := hsource hbranch
    rw [selectedSuccessor_branch hbranch (operandValue_of_source hsource statics locals)]
    rw [if_pos hbranch, hsource] at hi
    cases source with
    | const value =>
      simp only [Source.eval] at hi ⊢
      by_cases htruthy : isTruthy value = true
      · simp_all
      · simp_all
    | var name =>
      have htruth := hlocals name hbranch hsource
      have hi : i = 0 ∨ i = 1 := by simpa using hi
      cases hi with
      | inl hi => simp [Source.eval, htruth, hi]
      | inr hi => simp [Source.eval, htruth, hi]

theorem TracedInParallel.bound (h : TracedInParallel m f t i) {c : BasicBlock}
    (hc : t.successors[i]?.bind f.block = some c) (statics : StaticId → Value) (locals : Locals) :
    BoundInParallel m f statics locals (t.argumentsFor i) c
      (runCopies (terminatorCopies m f t) locals) := by
  obtain ⟨hparameters, hothers⟩ := h
  constructor
  · intro pair hmem
    have hpair : pair ∈ edgePairs f t i := by
      rw [edgePairs, hc]
      exact hmem
    rw [runCopies_eq, operandValue_of_source (hparameters pair hpair)]
  · intro q hq
    rw [runCopies_eq]
    by_cases hwritten : blockParamLocal q ∈ (terminatorCopies m f t).map Prod.fst
    · obtain ⟨copy, hmem, hcopy⟩ := List.mem_map.mp hwritten
      have hkept := (hothers copy hmem).resolve_left (by simpa [hc, hcopy] using hq)
      rw [← hcopy, hkept]
      rfl
    · rw [traced_of_notMem hwritten]
      rfl

theorem exists_source_of_value {operand : Operand} {statics : StaticId → Value} {locals : Locals}
    {value : Value} (hvalue : operandValue m f statics locals operand = some value)
    (hkind : operand.kind ≠ .Static) : ∃ source, operandSource m f operand = some source := by
  unfold operandValue at hvalue
  unfold operandSource
  cases hoperand : operand.kind with
  | Static => exact absurd hoperand hkind
  | None => simp [hoperand] at hvalue
  | Const =>
    simp only [hoperand, Option.map_eq_some_iff] at hvalue
    obtain ⟨constant, hconstant, -⟩ := hvalue
    exact ⟨_, by rw [hconstant]; rfl⟩
  | Param | Temp | BlockParam => exact ⟨_, rfl⟩

/-- The source of the condition of an emitted branch. -/
theorem exists_source_of_condition (hemit : emitTerminator rules m f groups b = .ok code)
    (hbranch : b.terminator.kind = .Branch) (hstatic : b.terminator.value.kind ≠ .Static) :
    ∃ source, operandSource m f b.terminator.value = some source := by
  obtain ⟨_, _, push, _, _, -, -, hpush, -⟩ := emitTerminator_branch hemit hbranch
  obtain ⟨source, hsource, -⟩ := transfer_pushOperand hpush hstatic
  exact ⟨source, hsource⟩

namespace ParallelTransfer

theorem noStatic (hparallel : ParallelTransfer m f b.terminator code)
    (hemit : emitTerminator rules m f groups b = .ok code)
    (hkind : b.terminator.kind = .Jump ∨ b.terminator.kind = .Branch) :
    (∀ i ∈ storedEdges b.terminator, ∀ pair ∈ edgePairs f b.terminator i, pair.1.kind ≠ .Static) ∧
      (b.terminator.kind = .Branch → b.terminator.value.kind ≠ .Static) := by
  obtain ⟨c, after, rest, -, htransfer, -⟩ := hparallel (fun _ => .nil) (fun _ => .nil) []
  constructor
  · intro i hi pair hmem hpair
    rw [transfer_emitTerminator_static hemit hkind (Or.inl ⟨i, hi, pair, hmem, hpair⟩)] at htransfer
    cases htransfer
  · intro hbranch hvalue
    rw [transfer_emitTerminator_static hemit hkind (Or.inr ⟨hbranch, hvalue⟩)] at htransfer
    cases htransfer

/-- The successor the code goes to is the selected one, and the copies bind its parameters. -/
theorem bound (hparallel : ParallelTransfer m f b.terminator code)
    (hemit : emitTerminator rules m f groups b = .ok code)
    (hkind : b.terminator.kind = .Jump ∨ b.terminator.kind = .Branch)
    (statics : StaticId → Value) (locals : Locals) :
    ∃ c d,
      b.terminator.successors[selectedSuccessor m f statics locals b.terminator]?.bind f.block = some c ∧
      b.terminator.successors[selectedSuccessor m f statics
        (runCopies (terminatorCopies m f b.terminator) locals) b.terminator]?.bind f.block = some d ∧
      c.id = d.id ∧
      BoundInParallel m f statics locals
        (b.terminator.argumentsFor (selectedSuccessor m f statics locals b.terminator)) c
        (runCopies (terminatorCopies m f b.terminator) locals) := by
  obtain ⟨hstatic, hcondition⟩ := hparallel.noStatic hemit hkind
  obtain ⟨c, after, rest, hc, htransfer, hbound⟩ := hparallel statics locals []
  obtain ⟨d, hd, hrun⟩ := transfer_emitTerminator hemit hkind hstatic hcondition statics locals []
  rw [hrun] at htransfer
  simp only [Option.some.injEq, Prod.mk.injEq] at htransfer
  obtain ⟨hid, hafter, -⟩ := htransfer
  exact ⟨c, d, hc, hd, hid.symm, hafter ▸ hbound⟩

/-- On an edge that can be selected the copies trace back in parallel: there are locals that
    select the edge and tell any two sources apart. -/
theorem tracedInParallel (hparallel : ParallelTransfer m f b.terminator code)
    (hemit : emitTerminator rules m f groups b = .ok code)
    (hkind : b.terminator.kind = .Jump ∨ b.terminator.kind = .Branch) {i : Nat}
    (hi : i ∈ selectableEdges m f b.terminator) : TracedInParallel m f b.terminator i := by
  obtain ⟨hstatic, hcondition⟩ := hparallel.noStatic hemit hkind
  have hplenty := exists_pair_selecting m f b.terminator i
  have hbound : ∀ locals : Locals, (∀ name, locals name ∈ selecting m f b.terminator i name) →
      ∃ c, b.terminator.successors[i]?.bind f.block = some c ∧
        BoundInParallel m f (fun _ => .nil) locals (b.terminator.argumentsFor i) c
          (runCopies (terminatorCopies m f b.terminator) locals) := by
    intro locals hlocals
    obtain ⟨c, d, hc, -, -, hbound⟩ := hparallel.bound hemit hkind (fun _ => .nil) locals
    rw [selectedSuccessor_of_selecting hkind
      (fun hbranch => exists_source_of_condition hemit hbranch (hcondition hbranch)) hi _ hlocals]
      at hc hbound
    exact ⟨c, hc, hbound⟩
  constructor
  · intro pair hpair
    have hvalue : ∀ locals : Locals, (∀ name, locals name ∈ selecting m f b.terminator i name) →
        operandValue m f (fun _ => .nil) locals pair.1 = some
          ((traced (terminatorCopies m f b.terminator) (blockParamLocal pair.2.id)).eval locals) := by
      intro locals hlocals
      obtain ⟨c, hc, hbound⟩ := hbound locals hlocals
      rw [edgePairs, hc] at hpair
      rw [hbound.parameters pair hpair, runCopies_eq]
    obtain ⟨source, hsource⟩ : ∃ source, operandSource m f pair.1 = some source := by
      choose v hv w hw hne using hplenty
      exact exists_source_of_value (hvalue v hv) (hstatic i (selectableEdges_subset hi) pair hpair)
    rw [hsource]
    refine congrArg some (Source.eq_of_eval_eq hplenty fun locals hlocals => ?_)
    have heval := hvalue locals hlocals
    rw [operandValue_of_source hsource] at heval
    exact Option.some.inj heval
  · intro copy hcopy
    obtain ⟨q, hq⟩ : ∃ q, copy.1 = blockParamLocal q := by
      obtain ⟨j, -, hmem⟩ := List.mem_flatMap.mp hcopy
      obtain ⟨pair, -, hpair⟩ := List.mem_filterMap.mp hmem
      obtain ⟨source, -, rfl⟩ := Option.map_eq_some_iff.mp hpair
      exact ⟨pair.2.id, rfl⟩
    rw [or_iff_not_imp_left]
    intro hother
    refine Source.eq_of_eval_eq hplenty fun locals hlocals => ?_
    obtain ⟨c, hc, hbound⟩ := hbound locals hlocals
    rw [hq] at hother ⊢
    rw [← runCopies_eq, hbound.others q (by simpa [hc] using hother)]
    rfl

/-- When the successors differ, the condition reads the same local before and after. -/
theorem condition_kept (hparallel : ParallelTransfer m f b.terminator code)
    (hemit : emitTerminator rules m f groups b = .ok code) (hbranch : b.terminator.kind = .Branch)
    (hne : b.terminator.target ≠ b.terminator.elseBlock) {source : Source String Value}
    (hsource : operandSource m f b.terminator.value = some source) :
    source.subst (traced (terminatorCopies m f b.terminator)) = source := by
  obtain ⟨_, _, _, c, d, -, -, -, -, hsuccessors, hc, hd⟩ := emitTerminator_branch hemit hbranch
  have htruth : ∀ locals : Locals, isTruthy (source.eval locals) = isTruthy
      ((source.subst (traced (terminatorCopies m f b.terminator))).eval locals) := by
    intro locals
    obtain ⟨c', d', hc', hd', hid, -⟩ := hparallel.bound hemit (Or.inr hbranch) (fun _ => .nil) locals
    rw [selectedSuccessor_branch hbranch (operandValue_of_source hsource _ _), hsuccessors] at hc' hd'
    rw [Source.eval_subst, ← funext (runCopies_eq (terminatorCopies m f b.terminator) locals)]
    have hdiffer : c.id ≠ d.id := by
      rw [(Function.block_eq_some hc).2.2, (Function.block_eq_some hd).2.2]
      exact hne
    rw [getElem?_arm, Option.bind_some] at hc' hd'
    cases hbefore : isTruthy (source.eval locals) with
    | true =>
      cases hafter : isTruthy
          (source.eval (runCopies (terminatorCopies m f b.terminator) locals)) with
      | true => rfl
      | false =>
        rw [hbefore, if_pos rfl, hc, Option.some.injEq] at hc'
        rw [hafter, if_neg (by simp), hd, Option.some.injEq] at hd'
        exact absurd (hc' ▸ hd' ▸ hid) hdiffer
    | false =>
      cases hafter : isTruthy
          (source.eval (runCopies (terminatorCopies m f b.terminator) locals)) with
      | false => rfl
      | true =>
        rw [hbefore, if_neg (by simp), hd, Option.some.injEq] at hc'
        rw [hafter, if_pos rfl, hc, Option.some.injEq] at hd'
        exact absurd (hc' ▸ hd' ▸ hid).symm hdiffer
  cases source with
  | const value => rfl
  | var name =>
    by_contra hkept
    cases htraced : traced (terminatorCopies m f b.terminator) name with
    | const value =>
      have hconst := htruth fun _ => .bool (!isTruthy value)
      rw [Source.subst, htraced] at hconst
      simp [Source.eval, isTruthy] at hconst
    | var other =>
      have hother : other ≠ name := by
        rintro rfl
        exact hkept htraced
      have hvar := htruth (Function.update (fun _ => .bool false) name (.bool true))
      rw [Source.subst, htraced] at hvar
      simp [Source.eval, isTruthy, Function.update_of_ne hother] at hvar

end ParallelTransfer

theorem CopiesInParallel.parallelTransfer (h : CopiesInParallel m f b.terminator)
    (hemit : emitTerminator rules m f groups b = .ok code)
    (hkind : b.terminator.kind = .Jump ∨ b.terminator.kind = .Branch) :
    ParallelTransfer m f b.terminator code := by
  intro statics locals stack
  obtain ⟨d, hd, hrun⟩ :=
    transfer_emitTerminator hemit hkind h.noStatic h.conditionNoStatic statics locals stack
  have hmem : selectedSuccessor m f statics locals b.terminator ∈ selectableEdges m f b.terminator := by
    cases hkind with
    | inl hjump =>
      rw [selectedSuccessor_jump hjump]
      simp [selectableEdges, hjump]
    | inr hbranch =>
      obtain ⟨source, hsource⟩ :=
        exists_source_of_condition hemit hbranch (h.conditionNoStatic hbranch)
      exact selectedSuccessor_mem hbranch hsource statics locals
  have hsame : b.terminator.successors[selectedSuccessor m f statics locals b.terminator]?.bind
      f.block = some d := by
    rw [← hd]
    cases hkind with
    | inl hjump => rw [selectedSuccessor_jump hjump, selectedSuccessor_jump hjump]
    | inr hbranch =>
      obtain ⟨_, _, _, _, _, -, -, -, -, hsuccessors, -, -⟩ := emitTerminator_branch hemit hbranch
      obtain ⟨source, hsource⟩ :=
        exists_source_of_condition hemit hbranch (h.conditionNoStatic hbranch)
      rw [selectedSuccessor_branch hbranch (operandValue_of_source hsource _ _),
        selectedSuccessor_branch hbranch (operandValue_of_source hsource _ _), hsuccessors]
      by_cases hne : b.terminator.target = b.terminator.elseBlock
      · rw [hne, getElem?_arm, getElem?_arm, ite_self, ite_self]
      · have hkept : source.eval (runCopies (terminatorCopies m f b.terminator) locals) =
            source.eval locals := by
          have hsubst := h.condition hbranch hne source hsource
          rw [funext (runCopies_eq (terminatorCopies m f b.terminator) locals), ← Source.eval_subst,
            hsubst]
        rw [hkept]
  exact ⟨d, _, stack, hsame, hrun, (h.edges _ hmem).bound hsame statics locals⟩

/-- The code of a jump or a branch goes to the selected successor and binds its parameters
    in parallel, whatever the locals hold, exactly if its copies trace back in parallel. -/
theorem parallelTransfer_iff (rules : TypeRules) (m : Module) (f : Function)
    (groups : BlockId → Option Nat) (b : BasicBlock) (code : List BcInstruction)
    (hemit : emitTerminator rules m f groups b = .ok code)
    (hkind : b.terminator.kind = .Jump ∨ b.terminator.kind = .Branch) :
    ParallelTransfer m f b.terminator code ↔ CopiesInParallel m f b.terminator := by
  constructor
  · intro hparallel
    obtain ⟨hstatic, hcondition⟩ := hparallel.noStatic hemit hkind
    exact ⟨hstatic, hcondition, fun i hi => hparallel.tracedInParallel hemit hkind hi,
      fun hbranch hne source hsource => hparallel.condition_kept hemit hbranch hne hsource⟩
  · intro hcopies
    exact hcopies.parallelTransfer hemit hkind

end

theorem parallelTransfer_iff_negateAgain :
    ParallelTransfer {} Verifier.negateAgain
      { kind := .Jump, target := 2, edgeArguments := [[.param 0 2]] }
      [.LoadVar "n", .DefineVar "@m_bparam_1", .Jump 2] :=
  (parallelTransfer_iff Verifier.exampleTypes {} Verifier.negateAgain (fun _ => none)
    { id := 1, terminator := { kind := .Jump, target := 2, edgeArguments := [[.param 0 2]] } } _
    rfl (Or.inl rfl)).mpr
    ⟨by decide +kernel, by decide, by decide +kernel, by decide⟩

/-- The end of a loop body that swaps the two parameters of the loop. -/
def swapBlock : BasicBlock where
  id := 3
  terminator := { kind := .Jump, target := 2, edgeArguments := [[.blockParam 2 2, .blockParam 1 2]] }

/-- A loop that swaps two values as long as it is told to. -/
def swapAgain : Function := Function.rebuildEdges {
  name := "swapAgain"
  parameters := [{ name := "a", type := 2 }, { name := "b", type := 2 }, { name := "again", type := 1 }]
  returnType := 2
  entryBlock := 1
  blocks := [
    { id := 1
      terminator := { kind := .Jump, target := 2, edgeArguments := [[.param 0 2, .param 1 2]] } },
    { id := 2
      parameters := [{ id := 1, name := "x", type := 2 }, { id := 2, name := "y", type := 2 }]
      terminator := { kind := .Branch, value := .param 2 1, target := 3, elseBlock := 4 } },
    swapBlock,
    { id := 4, terminator := { kind := .Return, value := .blockParam 1 2 } }] }

/-- The second store of a swap reads the parameter the first one has replaced. -/
theorem emitTerminator_swapBlock_not_parallel :
    ¬ ∀ (rules : TypeRules) (m : Module) (f : Function) (options : Verifier.VerifierOptions)
      (groups : BlockId → Option Nat) (b : BasicBlock) (code : List BcInstruction),
      Verifier.verifyFunction rules m f options = [] → b ∈ f.blocks →
        b.terminator.kind = .Jump ∨ b.terminator.kind = .Branch →
        emitTerminator rules m f groups b = .ok code → ParallelTransfer m f b.terminator code := by
  intro hclaim
  have hemit : emitTerminator Verifier.exampleTypes {} swapAgain (fun _ => none) swapBlock =
      .ok [.LoadVar "@m_bparam_2", .DefineVar "@m_bparam_1", .LoadVar "@m_bparam_1",
        .DefineVar "@m_bparam_2", .Jump 2] := rfl
  have hparallel := hclaim Verifier.exampleTypes {} swapAgain {} _ swapBlock _ (by decide +kernel)
    (by decide +kernel) (Or.inl rfl) hemit
  have htraced := hparallel.tracedInParallel hemit (Or.inl rfl) (i := 0) (by decide)
  exact absurd htraced (by decide +kernel)

end zl.mir.VmBackend
