import Zl.Mir.Lowering.OwnedCleanup

namespace zl.mir

/-- A path through a function, up to the entry of a block, and the instructions executed on it. Any
    instruction but a drop may raise, and control then goes to one of the block's handlers. -/
inductive Path (f : Function) : BlockId → List Instruction → Prop
  | entry : Path f f.entryBlock []
  | jump {id target : BlockId} {b : BasicBlock} {trace : List Instruction} (hpath : Path f id trace)
      (hblock : f.block id = some b) (htarget : target ∈ b.terminator.successors) :
      Path f target (trace ++ b.instructions)
  | raise {id : BlockId} {b : BasicBlock} {trace done rest : List Instruction} {i : Instruction}
      {handler : ExceptionHandler} (hpath : Path f id trace) (hblock : f.block id = some b)
      (hraise : b.instructions = done ++ i :: rest) (hopcode : i.opcode ≠ .Drop)
      (hhandler : handler ∈ b.exceptionHandlers) : Path f handler.block (trace ++ done)
  | throw {id : BlockId} {b : BasicBlock} {trace : List Instruction} {handler : ExceptionHandler}
      (hpath : Path f id trace) (hblock : f.block id = some b) (hthrow : b.terminator.kind = .Throw)
      (hhandler : handler ∈ b.exceptionHandlers) : Path f handler.block (trace ++ b.instructions)

/-- A path to the return of a block, its last instructions included. -/
def ReturnPath (f : Function) (id : BlockId) (trace : List Instruction) : Prop :=
  ∃ before b, Path f id before ∧ f.block id = some b ∧ trace = before ++ b.instructions

/-- An owned value: the argument of a parameter, or what an instruction has made. -/
inductive Owned where
  | parameter (id : ParamId)
  | made (number : Nat)
  deriving DecidableEq, Repr

/-- Where the owned values of an execution are. A slot names the value it was given last, also when that
    was moved out of it. -/
structure Custody where
  held : SlotId → Option Owned := fun _ => none
  temps : TempId → Option Owned := fun _ => none
  made : Nat := 0
  moved : List Owned := []
  released : List Owned := []

namespace Custody

open OwnedLowerer

def valueOf (c : Custody) (operand : Operand) : Option Owned :=
  match operand.kind with
  | .Param => some (.parameter operand.index)
  | .Temp => c.temps operand.index
  | _ => none

/-- The value of an instruction's operand, or a new one when that is no value made on the path. -/
def operandValue (c : Custody) (i : Instruction) : Owned :=
  (i.operands.head?.bind c.valueOf).getD (.made c.made)

/-- What a drop releases: the value of its operand, or of its slot. -/
def dropped (c : Custody) (i : Instruction) : Option Owned :=
  match i.operands with
  | [] => c.held i.slot
  | value :: _ => c.valueOf value

/-- One instruction. A value keeps its identity in the slots it is stored in and the temps they
    are loaded to; a move takes it from its slot and hands it on as a new one. What is read from
    elsewhere counts as new too: the type checker takes only new and moved values for owned
    storage. -/
def execute (c : Custody) (i : Instruction) : Custody :=
  match i.opcode with
  | .Store | .Borrow =>
    { c with held := Function.update c.held i.slot (some (c.operandValue i)), made := c.made + 1 }
  | .Load => { c with temps := Function.update c.temps i.result (c.held i.slot) }
  | .Refine | .NullCheck =>
    { c with temps := Function.update c.temps i.result (some (c.operandValue i)), made := c.made + 1 }
  | .Move =>
    { c with
      temps := Function.update c.temps i.result (some (.made c.made))
      made := c.made + 1
      moved := c.moved ++ (c.held i.slot).toList }
  | .Drop => { c with released := c.released ++ (c.dropped i).toList }
  | _ =>
    { c with temps := Function.update c.temps i.result (some (.made c.made)), made := c.made + 1 }

def run (trace : List Instruction) : Custody := trace.foldl execute {}

end Custody

/-- No path to the return of a block moves a slot. -/
def MovedNowhere (f : Function) (id : BlockId) (slot : SlotId) : Prop :=
  ∀ trace, ReturnPath f id trace → ∀ i ∈ trace, i.opcode = .Move → i.slot ≠ slot

/-- The drops of a path to the return of a block release every value once and none that was moved away,
    and those of the block drop every owned slot that was given a value and is moved on no path here. -/
structure ReleasesOnce (f : Function) (id : BlockId) (trace : List Instruction) : Prop where
  once : (Custody.run trace).released.Nodup
  unmoved : ∀ value ∈ (Custody.run trace).released, value ∉ (Custody.run trace).moved
  complete : ∀ slot, f.owns slot = true → ((Custody.run trace).held slot).isSome →
    MovedNowhere f id slot → ∃ b, f.block id = some b ∧ OwnedLowerer.dropSlot slot ∈ b.instructions

namespace OwnedLowerer

/-- What an action says about a slot: that it is moved, or that it is given a value. -/
def moves (slot : SlotId) : Action → Option Bool
  | .move other => if other = slot then some true else none
  | .assign other _ => if other = slot then some false else none
  | _ => none

/-- The last word of the text about a slot is that it is moved. -/
def MovedLast (actions : List Action) (slot : SlotId) : Prop :=
  (actions.filterMap (moves slot)).getLast? = some true

/-- The order of the text agrees with the path that arrives at a return: `actions` is the text
    before it, `l` the state it is lowered in and `c` what the path has done. -/
structure Agrees (actions : List Action) (l : OwnedLowerer) (f : Function) (c : Custody) : Prop where
  parameters : ∀ p, f.ownsParameter p = true → .parameter p ∉ c.moved
  copies : ∀ slot p, l.fb.function.owns slot = true → l.fb.function.ownsParameter p = true →
    c.held slot = some (.parameter p) → MovedLast actions slot
  apart : ∀ slot other value, l.fb.function.owns slot = true → l.fb.function.owns other = true →
    slot ≠ other → c.held slot = some value → c.held other = some value →
    MovedLast actions slot ∨ MovedLast actions other
  moved : ∀ slot, l.fb.function.owns slot = true → (∃ value ∈ c.moved, c.held slot = some value) →
    MovedLast actions slot
  kept : ∀ slot, f.owns slot = true → (c.held slot).isSome → MovedNowhere f l.fb.current slot →
    l.fb.function.owns slot = true ∧ ¬MovedLast actions slot

end OwnedLowerer

section
variable {c : Custody} {i : Instruction}

theorem DropsLast.before_raise {b : BasicBlock} (h : OwnedLowerer.DropsLast b) {done rest : List Instruction}
    (hraise : b.instructions = done ++ i :: rest) (hopcode : i.opcode ≠ .Drop) :
    ∀ j ∈ done, j.opcode ≠ .Drop := by
  obtain ⟨body, drops, hinstructions, hbody, hdrops, -⟩ := h
  rw [hinstructions] at hraise
  cases List.append_eq_append_iff.mp hraise with
  | inl hlong =>
    -- the raising instruction would be among the drops
    obtain ⟨more, -, hdrop⟩ := hlong
    exact absurd (hdrops i (hdrop ▸ by simp)) hopcode
  | inr hshort =>
    obtain ⟨more, rfl, -⟩ := hshort
    exact fun j hj => hbody j (List.mem_append_left _ hj)

theorem Path.not_drop {l : OwnedLowerer} (hbuilt : l.Built) {id : BlockId} {trace : List Instruction}
    (h : Path l.fb.function id trace) : ∀ i ∈ trace, i.opcode ≠ .Drop := by
  induction h with
  | entry => exact fun i hi => absurd hi List.not_mem_nil
  | @jump id target b trace _ hblock htarget ih =>
    have hkind : b.terminator.kind ≠ .Return := by
      intro hreturn
      simp [Terminator.successors, hreturn] at htarget
    intro i hi
    cases List.mem_append.mp hi with
    | inl hold => exact ih i hold
    | inr hnew => exact (hbuilt.drops _ _ hblock).body hkind i hnew
  | @raise id b trace done rest raising handler _ hblock hraise hopcode _ ih =>
    intro i hi
    cases List.mem_append.mp hi with
    | inl hold => exact ih i hold
    | inr hnew => exact DropsLast.before_raise (hbuilt.drops _ _ hblock) hraise hopcode i hnew
  | @throw id b trace handler _ hblock hthrow _ ih =>
    intro i hi
    cases List.mem_append.mp hi with
    | inl hold => exact ih i hold
    | inr hnew => exact (hbuilt.drops _ _ hblock).body (by simp [hthrow]) i hnew

namespace Custody

theorem released_execute (hdrop : i.opcode ≠ .Drop) : (c.execute i).released = c.released := by
  unfold execute
  split
  case h_7 hopcode => exact absurd hopcode hdrop
  all_goals rfl

theorem released_foldl {trace : List Instruction} (htrace : ∀ i ∈ trace, i.opcode ≠ .Drop) (c : Custody) :
    (trace.foldl execute c).released = c.released := by
  induction trace generalizing c with
  | nil => rfl
  | cons i trace ih =>
    have hi := released_execute (c := c) (htrace i List.mem_cons_self)
    exact (ih (fun j hj => htrace j (List.mem_cons_of_mem _ hj)) (c.execute i)).trans hi

theorem foldl_drops {drops : List Instruction} (hdrops : ∀ i ∈ drops, i.opcode = .Drop) (c : Custody) :
    drops.foldl execute c = { c with released := c.released ++ drops.filterMap c.dropped } := by
  induction drops generalizing c with
  | nil => simp
  | cons i drops ih =>
    have hi : i.opcode = .Drop := hdrops i List.mem_cons_self
    rw [List.foldl_cons, ih fun j hj => hdrops j (List.mem_cons_of_mem _ hj)]
    have hexecute : c.execute i = { c with released := c.released ++ (c.dropped i).toList } := by
      simp [execute, hi]
    have hsame : dropped { c with released := c.released ++ (c.dropped i).toList } = c.dropped := rfl
    rw [hexecute, hsame, List.filterMap_cons]
    cases c.dropped i with
    | none => simp
    | some value => simp

end Custody

end

namespace OwnedLowerer

section
variable {parameters : List (Parameter × Bool)} {actions : List Action}
  {l next : OwnedLowerer} {c : Custody} {slot : SlotId} {p : ParamId}
variable {b : BasicBlock} {id : BlockId}

theorem mem_releasedSlots : slot ∈ l.releasedSlots ↔
    l.fb.function.owns slot = true ∧ slot ∉ l.movedOwnedSlots := by
  have hrange : l.fb.function.owns slot = true → slot ∈ List.range' 1 l.fb.function.slots.length := by
    intro howns
    obtain ⟨info, hinfo, -⟩ := owns_iff.mp howns
    have hpos : slot ≠ 0 := by
      rintro rfl
      simp [Function.slot] at hinfo
    have hle := slot_le hinfo
    exact List.mem_range'_1.mpr ⟨Nat.pos_of_ne_zero hpos, by rw [Nat.add_comm]; exact Nat.lt_succ_of_le hle⟩
  simp only [releasedSlots, List.mem_filter, List.mem_reverse, Bool.and_eq_true, Bool.not_eq_true',
    List.contains_eq_mem, decide_eq_false_iff_not]
  exact ⟨And.right, fun h => ⟨hrange h.1, h⟩⟩

theorem nodup_releasedSlots (l : OwnedLowerer) : l.releasedSlots.Nodup :=
  ((List.nodup_reverse.mpr List.nodup_range').filter _)

theorem mem_releasedParameters {f : Function} :
    p ∈ releasedParameters f ↔ f.ownsParameter p = true := by
  have hrange : f.ownsParameter p = true → p < f.parameters.length := by
    intro howns
    obtain ⟨parameter, hparameter, -⟩ := (Option.any_eq_true _ _).mp howns
    exact (List.getElem?_eq_some_iff.mp hparameter).1
  simp only [releasedParameters, List.mem_filter, List.mem_reverse, List.mem_range]
  exact ⟨And.right, fun h => ⟨hrange h, h⟩⟩

theorem nodup_releasedParameters (f : Function) : (releasedParameters f).Nodup :=
  ((List.nodup_reverse.mpr List.nodup_range).filter _)

theorem dropped_parameter {f : Function} (howns : f.ownsParameter p = true) :
    c.dropped (dropValue (f.parameterOperand p)) = some (.parameter p) := by
  obtain ⟨parameter, hparameter, -⟩ := (Option.any_eq_true _ _).mp howns
  simp [Custody.dropped, dropValue, Function.parameterOperand, hparameter, Custody.valueOf, Operand.param]

theorem filterMap_dropped (c : Custody) : l.ownedCleanup.filterMap c.dropped =
    l.releasedSlots.filterMap c.held ++ (releasedParameters l.fb.function).map .parameter := by
  rw [ownedCleanup, List.filterMap_append, List.filterMap_map, List.filterMap_map]
  congr 1
  rw [← List.filterMap_eq_map]
  refine List.filterMap_congr fun p hp => ?_
  exact dropped_parameter (mem_releasedParameters.mp hp)

theorem mem_releasedValues {value : Owned} : value ∈ l.ownedCleanup.filterMap c.dropped ↔
    (∃ slot, (l.fb.function.owns slot = true ∧ slot ∉ l.movedOwnedSlots) ∧ c.held slot = some value) ∨
      ∃ p, l.fb.function.ownsParameter p = true ∧ value = .parameter p := by
  simp only [filterMap_dropped, List.mem_append, List.mem_filterMap, List.mem_map, mem_releasedSlots,
    mem_releasedParameters, eq_comm (b := value)]

/-- The cleanup releases no value twice just when no two slots that it drops hold one value and
    none holds the value of an owned parameter. -/
theorem nodup_releasedValues (c : Custody) : (l.ownedCleanup.filterMap c.dropped).Nodup ↔
    (∀ slot ∈ l.releasedSlots, ∀ other ∈ l.releasedSlots, slot ≠ other → ∀ value,
      c.held slot = some value → c.held other ≠ some value) ∧
    ∀ slot ∈ l.releasedSlots, ∀ p, l.fb.function.ownsParameter p = true →
      c.held slot ≠ some (.parameter p) := by
  have hparameters : ((releasedParameters l.fb.function).map Owned.parameter).Nodup :=
    (nodup_releasedParameters _).map fun _ _ hsame => Owned.parameter.inj hsame
  have hslots : (l.releasedSlots.filterMap c.held).Nodup ↔ ∀ slot ∈ l.releasedSlots,
      ∀ other ∈ l.releasedSlots, slot ≠ other → ∀ value, c.held slot = some value →
        c.held other ≠ some value := by
    rw [List.Nodup, List.pairwise_filterMap]
    constructor
    · intro hpairwise slot hslot other hother hne value hheld hsame
      have : Std.Symm fun slot other => ∀ value, c.held slot = some value →
          ∀ value', c.held other = some value' → value ≠ value' :=
        ⟨fun _ _ h value hvalue value' hvalue' hsame => h value' hvalue' value hvalue hsame.symm⟩
      exact hpairwise.forall hslot hother hne value hheld value hsame rfl
    · refine fun h => (nodup_releasedSlots l).pairwise_of_forall_ne fun slot hslot other hother hne => ?_
      rintro value hheld value' hheld' rfl
      exact h slot hslot other hother hne value hheld hheld'
  rw [filterMap_dropped, List.nodup_append, hslots]
  refine and_congr_right fun _ => ⟨fun ⟨_, hdisjoint⟩ slot hslot p hp hheld => ?_,
    fun hcopies => ⟨hparameters, fun value hvalue value' hvalue' hsame => ?_⟩⟩
  · have hmem : Owned.parameter p ∈ l.releasedSlots.filterMap c.held :=
      List.mem_filterMap.mpr ⟨slot, hslot, hheld⟩
    exact hdisjoint _ hmem _ (List.mem_map_of_mem (mem_releasedParameters.mpr hp)) rfl
  · subst hsame
    obtain ⟨slot, hslot, hheld⟩ := List.mem_filterMap.mp hvalue
    obtain ⟨p, hp, rfl⟩ := List.mem_map.mp hvalue'
    exact hcopies slot hslot p (mem_releasedParameters.mp hp) hheld

theorem movedLast_append (actions : List Action) (a : Action) : MovedLast (actions ++ [a]) slot ↔
    moves slot a = some true ∨ moves slot a = none ∧ MovedLast actions slot := by
  unfold MovedLast
  cases hmoves : moves slot a with
  | none => simp [List.filterMap_append, hmoves]
  | some moved => simp [List.filterMap_append, hmoves]

theorem lowerBody_append (a : Action) : lowerBody parameters (actions ++ [a]) =
    (lowerBody parameters actions).bind (·.lowerAction a) := by
  simp [lowerBody, List.foldlM_append]

theorem mem_movedOwnedSlots (h : lowerBody parameters actions = some l) :
    slot ∈ l.movedOwnedSlots ↔ MovedLast actions slot := by
  induction actions using List.reverseRecOn generalizing l with
  | nil =>
    obtain rfl := Option.some.inj h
    simp [lowerParameters, MovedLast]
  | append_singleton actions a ih =>
    rw [lowerBody_append] at h
    obtain ⟨before, hbefore, hstep⟩ := Option.bind_eq_some_iff.mp h
    have hmoved := (built_lowerBody hbefore).moved
    rw [movedLast_append, ← ih hbefore]
    cases a with
    | assign other value =>
      simp only [lowerAction, Option.ite_none_right_eq_some, Option.some.injEq] at hstep
      obtain ⟨-, rfl⟩ := hstep
      by_cases hsame : other = slot
      · simp [assign, moves, hsame]
      · simp [assign, moves, hsame, Ne.symm hsame]
    | move other =>
      simp only [lowerAction, Option.ite_none_right_eq_some, Option.some.injEq] at hstep
      obtain ⟨-, rfl⟩ := hstep
      by_cases hsame : other = slot
      · simp [move, moves, hsame]
      · simp [move, moves, hsame, Ne.symm hsame]
    | varDecl info initial =>
      simp only [lowerAction, Option.ite_none_right_eq_some, Option.some.injEq] at hstep
      obtain ⟨-, rfl⟩ := hstep
      -- the slot is new, so it was not counted as moved before
      have hnew : slot ∈ before.movedOwnedSlots → slot ≠ before.fb.function.slots.length + 1 := by
        intro hslot hsame
        exact absurd (hsame ▸ hmoved slot hslot) (Nat.not_succ_le_self _)
      unfold varDecl
      split
      · simp [moves]
      · simpa [moves, FunctionBuilder.addSlot] using hnew
    | emit _ | addSlot _ | gotoBlock _ | terminate _ | returnStatement _ =>
      simp only [lowerAction, Option.ite_none_right_eq_some, Option.some.injEq] at hstep
      obtain ⟨-, rfl⟩ := hstep
      simp [moves, returnStatement, emitOwnedCleanup]
    | newBlock handlers =>
      obtain rfl := Option.some.inj hstep
      simp [moves]

/-- An instruction leaves the terminators as they are. -/
theorem return_of_append {fb : FunctionBuilder} {i : Instruction} {id : BlockId} {b : BasicBlock}
    (hblock : (fb.append i).block id = some b) (hreturn : b.terminator.kind = .Return) :
    ∃ b, fb.block id = some b ∧ b.terminator.kind = .Return := by
  rw [FunctionBuilder.block_append_instruction] at hblock
  obtain ⟨old, hold, rfl⟩ := Option.map_eq_some_iff.mp hblock
  refine ⟨old, hold, ?_⟩
  split at hreturn <;> exact hreturn

theorem return_of_copyParameters {rest : List (Parameter × Bool)} {fb : FunctionBuilder}
    {k : ParamId} (hblock : (copyParameters fb rest k).block id = some b)
    (hreturn : b.terminator.kind = .Return) :
    ∃ b, fb.block id = some b ∧ b.terminator.kind = .Return := by
  induction rest generalizing fb k with
  | nil => exact ⟨b, hblock, hreturn⟩
  | cons parameter rest ih =>
    obtain ⟨middle, hmiddle, hreturn'⟩ := ih hblock
    unfold copyParameter at hmiddle
    split at hmiddle
    · dsimp only at hmiddle
      split at hmiddle
      · exact @return_of_append (fb.addSlot _).2 _ _ _ hmiddle hreturn'
      · exact @return_of_append (fb.addSlot _).2 _ _ _ hmiddle hreturn'
    · exact ⟨middle, hmiddle, hreturn'⟩

theorem return_of_lowerAction (h : Built l) {a : Action} (hnext : l.lowerAction a = some next)
    (hblock : next.fb.block id = some b) (hreturn : b.terminator.kind = .Return) :
    (∃ b, l.fb.block id = some b ∧ b.terminator.kind = .Return) ∨
      ∃ value, a = .returnStatement value ∧ l.fb.current = id := by
  cases a with
  | emit i =>
    simp only [lowerAction, Option.ite_none_right_eq_some, Option.some.injEq] at hnext
    obtain ⟨-, rfl⟩ := hnext
    exact .inl (return_of_append hblock hreturn)
  | varDecl info initial =>
    simp only [lowerAction, Option.ite_none_right_eq_some, Option.some.injEq] at hnext
    obtain ⟨-, rfl⟩ := hnext
    unfold varDecl at hblock
    dsimp only at hblock
    left
    split at hblock
    · exact @return_of_append (l.fb.addSlot info).2 _ _ _ hblock hreturn
    · exact @return_of_append (l.fb.addSlot info).2 _ _ _ hblock hreturn
  | assign other value =>
    simp only [lowerAction, Option.ite_none_right_eq_some, Option.some.injEq] at hnext
    obtain ⟨-, rfl⟩ := hnext
    exact .inl (return_of_append hblock hreturn)
  | move other =>
    simp only [lowerAction, Option.ite_none_right_eq_some, Option.some.injEq] at hnext
    obtain ⟨-, rfl⟩ := hnext
    exact .inl (return_of_append hblock hreturn)
  | addSlot _ | gotoBlock _ =>
    simp only [lowerAction, Option.ite_none_right_eq_some, Option.some.injEq] at hnext
    obtain ⟨-, rfl⟩ := hnext
    exact .inl ⟨b, hblock, hreturn⟩
  | newBlock handlers =>
    obtain rfl := Option.some.inj hnext
    rw [FunctionBuilder.block_addBlock h.numbered h.nonempty] at hblock
    split at hblock
    · obtain rfl := Option.some.inj hblock
      cases hreturn
    · exact .inl ⟨b, hblock, hreturn⟩
  | terminate t =>
    simp only [lowerAction, Option.ite_none_right_eq_some, Option.some.injEq] at hnext
    obtain ⟨⟨-, -, hkind⟩, rfl⟩ := hnext
    rw [FunctionBuilder.block_terminate] at hblock
    obtain ⟨old, hold, rfl⟩ := Option.map_eq_some_iff.mp hblock
    split at hreturn
    · exact absurd hreturn hkind
    · exact .inl ⟨old, hold, hreturn⟩
  | returnStatement value =>
    simp only [lowerAction, Option.ite_none_right_eq_some, Option.some.injEq] at hnext
    obtain ⟨-, rfl⟩ := hnext
    by_cases hid : l.fb.current = id
    · exact .inr ⟨value, rfl, hid⟩
    · rw [block_returnStatement] at hblock
      obtain ⟨old, hold, rfl⟩ := Option.map_eq_some_iff.mp hblock
      rw [if_neg (Ne.symm hid)] at hreturn
      exact .inl ⟨old, hold, hreturn⟩

/-- Every return of a function stands where a return statement of its body was lowered. -/
theorem return_lowered (h : lowerBody parameters actions = some l) (hblock : l.fb.block id = some b)
    (hreturn : b.terminator.kind = .Return) :
    ∃ before value after l₀, actions = before ++ .returnStatement value :: after ∧
      lowerBody parameters before = some l₀ ∧ l₀.fb.current = id := by
  induction actions using List.reverseRecOn generalizing l b with
  | nil =>
    obtain rfl := Option.some.inj h
    obtain ⟨b, hb, hreturn⟩ := return_of_copyParameters hblock hreturn
    obtain ⟨-, hmem, -⟩ := Function.block_eq_some hb
    obtain rfl := List.mem_singleton.mp hmem
    cases hreturn
  | append_singleton actions a ih =>
    rw [lowerBody_append] at h
    obtain ⟨l₀, hbefore, hstep⟩ := Option.bind_eq_some_iff.mp h
    cases return_of_lowerAction (built_lowerBody hbefore) hstep hblock hreturn with
    | inl hold =>
      obtain ⟨b, hblock, hreturn⟩ := hold
      obtain ⟨before, value, after, l₁, rfl, hlowered⟩ := ih hbefore hblock hreturn
      exact ⟨before, value, after ++ [a], l₁, by simp, hlowered⟩
    | inr hnew =>
      obtain ⟨value, rfl, hid⟩ := hnew
      exact ⟨actions, value, [], l₀, rfl, hbefore, hid⟩

/-- The instructions of a block. -/
def instructionsAt (l : OwnedLowerer) (id : BlockId) : List Instruction :=
  ((l.fb.block id).map (·.instructions)).getD []

/-- A return statement puts its cleanup behind the instructions of the block, and nothing follows it. -/
theorem return_block (h : lowerBody parameters actions = some l) {before after : List Action}
    {value : Operand} {l₀ : OwnedLowerer} (hactions : actions = before ++ .returnStatement value :: after)
    (hbefore : lowerBody parameters before = some l₀) : Grown l₀ l ∧
      ∃ b, l.fb.block l₀.fb.current = some b ∧
        b.instructions = l₀.instructionsAt l₀.fb.current ++ l₀.ownedCleanup := by
  subst hactions
  have hbuilt := built_lowerBody hbefore
  rw [lowerBody, List.foldlM_append, ← lowerBody, hbefore] at h
  have hrun : (Action.returnStatement value :: after).foldlM lowerAction l₀ = some l := h
  obtain ⟨next, hnext, hrest⟩ := Option.bind_eq_some_iff.mp hrun
  obtain ⟨hgrown, hbuilt'⟩ := hbuilt.lowerAction hnext
  obtain ⟨hgrown', -⟩ := hbuilt'.foldlM hrest
  simp only [lowerAction, Option.ite_none_right_eq_some, Option.some.injEq] at hnext
  obtain ⟨hlive, rfl⟩ := hnext
  obtain ⟨b, hb, -⟩ := live_iff.mp hlive
  refine ⟨hgrown.trans hgrown', _, hgrown'.ended l₀.fb.current
    { b with instructions := b.instructions ++ l₀.ownedCleanup, terminator := { kind := .Return, value } }
    ?_ (by simp), ?_⟩
  · rw [block_returnStatement, hb, Option.map_some, if_pos rfl]
  · rw [instructionsAt, hb]
    rfl

theorem return_live (h : lowerBody parameters actions = some l) {before after : List Action}
    {value : Operand} {l₀ : OwnedLowerer} (hactions : actions = before ++ .returnStatement value :: after)
    (hbefore : lowerBody parameters before = some l₀) : l₀.live = true := by
  subst hactions
  rw [lowerBody, List.foldlM_append, ← lowerBody, hbefore] at h
  have hrun : (Action.returnStatement value :: after).foldlM lowerAction l₀ = some l := h
  obtain ⟨next, hnext, -⟩ := Option.bind_eq_some_iff.mp hrun
  simp only [lowerAction, Option.ite_none_right_eq_some] at hnext
  exact hnext.1

theorem mem_ownedCleanup : dropSlot slot ∈ l.ownedCleanup ↔
    l.fb.function.owns slot = true ∧ slot ∉ l.movedOwnedSlots := by
  rw [ownedCleanup, List.mem_append, List.mem_map, List.mem_map, ← mem_releasedSlots]
  constructor
  · rintro (⟨other, hother, hsame⟩ | ⟨p, -, hsame⟩)
    · obtain rfl : other = slot := congrArg Instruction.slot hsame
      exact hother
    · simp [dropSlot, dropValue] at hsame
  · exact fun hslot => .inl ⟨slot, hslot, rfl⟩

theorem Grown.ownsParameter (h : Grown l next) :
    next.fb.function.ownsParameter p = l.fb.function.ownsParameter p := by
  rw [Function.ownsParameter, Function.parameter, h.parameters]
  rfl

/-- The drop of an owned slot is one of the cleanup: a block that does not return yet has none. -/
theorem dropSlot_mem_iff (hbuilt : Built l) (hlive : l.live = true)
    (hinstructions : b.instructions = l.instructionsAt l.fb.current ++ l.ownedCleanup) :
    dropSlot slot ∈ b.instructions ↔ l.fb.function.owns slot = true ∧ slot ∉ l.movedOwnedSlots := by
  obtain ⟨current, hcurrent, hnone⟩ := live_iff.mp hlive
  have hbody := (hbuilt.drops _ _ hcurrent).body (by simp [hnone])
  rw [hinstructions, List.mem_append, ← mem_ownedCleanup, instructionsAt, hcurrent]
  exact or_iff_right fun hmem => hbody _ hmem rfl

/-- A path that arrives at the cleanup of a return has released nothing. -/
theorem released_of_path (h : Built l) (hnext : Built next) (hlive : l.live = true)
    {trace : List Instruction} (hpath : Path next.fb.function l.fb.current trace) :
    (Custody.run (trace ++ l.instructionsAt l.fb.current)).released = [] := by
  obtain ⟨current, hcurrent, hnone⟩ := live_iff.mp hlive
  have hbody := (h.drops _ _ hcurrent).body (by simp [hnone])
  refine Custody.released_foldl (fun i hi => ?_) {}
  cases List.mem_append.mp hi with
  | inl hold => exact hpath.not_drop hnext i hold
  | inr hnew =>
    rw [instructionsAt, hcurrent] at hnew
    exact hbody i hnew

/-- Every return of a lowered body stands where a return statement was lowered, and a path to it
    releases owned values once just when the order of the text agrees with the path. -/
theorem releasesOnce_iff_agrees (h : lowerBody parameters actions = some l) :
    (∀ id b, l.fb.block id = some b → b.terminator.kind = .Return →
      ∃ before value after l₀, actions = before ++ .returnStatement value :: after ∧
        lowerBody parameters before = some l₀ ∧ l₀.fb.current = id) ∧
    ∀ before value after l₀ trace, actions = before ++ .returnStatement value :: after →
      lowerBody parameters before = some l₀ → Path l.fb.function l₀.fb.current trace →
      (ReleasesOnce l.fb.function l₀.fb.current (trace ++ l.instructionsAt l₀.fb.current) ↔
        Agrees before l₀ l.fb.function (Custody.run (trace ++ l₀.instructionsAt l₀.fb.current))) := by
  refine ⟨fun id b hblock hreturn => return_lowered h hblock hreturn,
    fun before value after l₀ trace hactions hbefore hpath => ?_⟩
  obtain ⟨hgrown, b, hblock, hinstructions⟩ := return_block h hactions hbefore
  have hlive : l₀.live = true := return_live h hactions hbefore
  have hbuilt := built_lowerBody hbefore
  have hreleased := released_of_path hbuilt (built_lowerBody h) hlive hpath
  have hmoved := fun slot => @mem_movedOwnedSlots _ _ _ slot hbefore
  have hrun : Custody.run (trace ++ l.instructionsAt l₀.fb.current) =
      { Custody.run (trace ++ l₀.instructionsAt l₀.fb.current) with
        released := l₀.ownedCleanup.filterMap
          (Custody.run (trace ++ l₀.instructionsAt l₀.fb.current)).dropped } := by
    have hat : l.instructionsAt l₀.fb.current = b.instructions := by rw [instructionsAt, hblock]; rfl
    rw [hat, hinstructions, ← List.append_assoc, Custody.run, List.foldl_append, ← Custody.run,
      Custody.foldl_drops opcode_ownedCleanup, hreleased, List.nil_append]
  generalize Custody.run (trace ++ l₀.instructionsAt l₀.fb.current) = c at hrun
  have hdrop : ∀ slot, (∃ b, l.fb.function.block l₀.fb.current = some b ∧
      dropSlot slot ∈ b.instructions) ↔ l₀.fb.function.owns slot = true ∧ ¬MovedLast before slot := by
    intro slot
    rw [← hmoved, ← dropSlot_mem_iff hbuilt hlive hinstructions]
    constructor
    · rintro ⟨b', hb', hmem⟩
      obtain rfl := Option.some.inj (hblock.symm.trans hb')
      exact hmem
    · exact fun hmem => ⟨b, hblock, hmem⟩
  have hkept : ∀ {slot}, slot ∈ l₀.releasedSlots ↔
      l₀.fb.function.owns slot = true ∧ ¬MovedLast before slot :=
    fun {slot} => mem_releasedSlots.trans (and_congr_right fun _ => (hmoved slot).not)
  constructor
  · intro hreleases
    have honce := hreleases.once
    have hunmoved := hreleases.unmoved
    have hcomplete := hreleases.complete
    rw [hrun] at honce hunmoved hcomplete
    obtain ⟨hapart, hcopies⟩ := (nodup_releasedValues c).mp honce
    refine ⟨fun p hp hmem => ?_, fun slot p howns hp hheld => ?_,
      fun slot other value howns howns' hne hheld hheld' => ?_, fun slot howns ⟨value, hmem, hheld⟩ => ?_,
      fun slot howns hheld hnowhere => (hdrop slot).mp (hcomplete slot howns hheld hnowhere)⟩
    · exact hunmoved _ (mem_releasedValues.mpr (.inr ⟨p, hgrown.ownsParameter ▸ hp, rfl⟩)) hmem
    · by_contra hlast
      exact hcopies slot (hkept.mpr ⟨howns, hlast⟩) p hp hheld
    · by_contra hlast
      obtain ⟨hlast, hlast'⟩ := not_or.mp hlast
      exact hapart slot (hkept.mpr ⟨howns, hlast⟩) other (hkept.mpr ⟨howns', hlast'⟩) hne value hheld hheld'
    · by_contra hlast
      have hslot := (hmoved slot).not.mpr hlast
      exact hunmoved value (mem_releasedValues.mpr (.inl ⟨slot, ⟨howns, hslot⟩, hheld⟩)) hmem
  · intro hagrees
    refine ⟨?_, ?_, ?_⟩
    · rw [hrun]
      refine (nodup_releasedValues c).mpr ⟨fun slot hslot other hother hne value hheld hheld' => ?_,
        fun slot hslot p hp hheld => ?_⟩
      · obtain ⟨howns, hlast⟩ := hkept.mp hslot
        obtain ⟨howns', hlast'⟩ := hkept.mp hother
        exact (hagrees.apart slot other value howns howns' hne hheld hheld').elim hlast hlast'
      · obtain ⟨howns, hlast⟩ := hkept.mp hslot
        exact hlast (hagrees.copies slot p howns hp hheld)
    · rw [hrun]
      intro value hvalue hmem
      rcases mem_releasedValues.mp hvalue with ⟨slot, ⟨howns, hslot⟩, hheld⟩ | ⟨p, hp, rfl⟩
      · exact hslot ((hmoved slot).mpr (hagrees.moved slot howns ⟨value, hmem, hheld⟩))
      · exact hagrees.parameters p (hgrown.ownsParameter.trans hp) hmem
    · rw [hrun]
      exact fun slot howns hheld hnowhere => (hdrop slot).mpr (hagrees.kept slot howns hheld hnowhere)

/-- `first = second = new Token()` gives one value to two slots, and the cleanup releases it with each. -/
example : (lowerBody [] [.emit { opcode := .Alloc, result := 1, resultType := 2 },
    .varDecl { name := "first", type := 2, ownership := .OWNED } (.temp 1 2),
    .emit { opcode := .Alloc, result := 2, resultType := 2 },
    .varDecl { name := "second", type := 2, ownership := .OWNED } (.temp 2 2),
    .emit { opcode := .Alloc, result := 3, resultType := 2 }, .assign 2 (.temp 3 2),
    .assign 1 (.temp 3 2), .returnStatement .none]).map
      (fun l => (Custody.run (l.instructionsAt 1)).released) = some [.made 4, .made 4] := by decide

end

def tokenParameters : List (Parameter × Bool) :=
  [({ name := "token", type := 2, ownership := .OWNED }, true), ({ name := "renew", type := 1 }, false)]

def renewToken : List Action :=
  [.newBlock [], .newBlock [],
    .terminate { kind := .Branch, value := .param 1 1, target := 3, elseBlock := 2 },
    .gotoBlock 3, .emit { opcode := .Alloc, result := 1, resultType := 2 }, .assign 1 (.temp 1 2),
    .terminate { kind := .Jump, target := 2 }, .gotoBlock 2]

def tokenRenewed : OwnedLowerer := ((lowerBody tokenParameters renewToken).get (by decide))

def tokenReturned : OwnedLowerer := tokenRenewed.returnStatement .none

theorem lowerBody_tokenReturned :
    lowerBody tokenParameters (renewToken ++ [.returnStatement .none]) = some tokenReturned := rfl

theorem path_kept : Path tokenReturned.fb.function 2 (tokenReturned.instructionsAt 1) := by
  have hblock : tokenReturned.fb.function.block 1 = some _ := rfl
  exact Path.entry.jump hblock (by decide)

theorem path_renewed : Path tokenReturned.fb.function 2
    (tokenReturned.instructionsAt 1 ++ tokenReturned.instructionsAt 3) := by
  have hentry : tokenReturned.fb.function.block 1 = some _ := rfl
  have hblock : tokenReturned.fb.function.block 3 = some _ := rfl
  exact (Path.entry.jump hentry (by decide)).jump hblock (by decide)

theorem owns_token {slot : SlotId} (h : tokenReturned.fb.function.owns slot = true) : slot = 1 := by
  match slot, h with
  | 1, _ => rfl

theorem renewed_releasesOnce : ReleasesOnce tokenReturned.fb.function 2
    (tokenReturned.instructionsAt 1 ++ tokenReturned.instructionsAt 3 ++ tokenReturned.instructionsAt 2) := by
  refine ((releasesOnce_iff_agrees lowerBody_tokenReturned).2 renewToken .none [] tokenRenewed _ rfl rfl
    path_renewed).mpr ⟨fun p _ hmem => ?_, fun slot p howns _ hheld => ?_,
      fun slot other value howns howns' hne _ _ => ?_, fun slot _ hmoved => ?_, fun slot howns _ _ => ?_⟩
  · cases hmem
  · obtain rfl := owns_token howns
    have hstored : some (Owned.made 1) = some (.parameter p) := hheld
    cases hstored
  · exact absurd ((owns_token howns).trans (owns_token howns').symm) hne
  · obtain ⟨value, hmem, -⟩ := hmoved
    cases hmem
  · obtain rfl := owns_token howns
    exact ⟨rfl, by unfold MovedLast; decide⟩

/-- The argument is released twice: with the slot it was copied to, and as a parameter. -/
theorem kept_released_twice : lowerBody tokenParameters (renewToken ++ [.returnStatement .none]) =
    some tokenReturned ∧ ∃ trace, ReturnPath tokenReturned.fb.function 2 trace ∧
      (Custody.run trace).released = [.parameter 0, .parameter 0] ∧
      ¬ReleasesOnce tokenReturned.fb.function 2 trace := by
  refine ⟨rfl, tokenReturned.instructionsAt 1 ++ tokenReturned.instructionsAt 2, ?_, ?_, fun h => ?_⟩
  · exact ⟨_, _, path_kept, rfl, rfl⟩
  · decide
  · have honce := h.once
    revert honce
    decide

end OwnedLowerer

end zl.mir
