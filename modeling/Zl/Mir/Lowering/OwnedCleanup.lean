import Zl.Mir.Lowering.ForLoop

namespace zl.mir

namespace Function

def owns (f : Function) (slot : SlotId) : Bool := (f.slot slot).any (·.ownership == .OWNED)

def ownsParameter (f : Function) (id : ParamId) : Bool := (f.parameter id).any (·.ownership == .OWNED)

def parameterOperand (f : Function) (id : ParamId) : Operand :=
  ((f.parameter id).map fun parameter => Operand.param id parameter.type).getD .none

end Function

namespace FunctionBuilder

def emitMove (fb : FunctionBuilder) (slot : SlotId) : TempId × FunctionBuilder :=
  fb.appendResult { opcode := .Move, slot } (((fb.function.slot slot).map (·.type)).getD 0)

def emitBorrow (fb : FunctionBuilder) (borrowSlot : SlotId) (owner : Operand) : FunctionBuilder :=
  fb.append { opcode := .Borrow, slot := borrowSlot, operands := [owner] }

def emitReturn (fb : FunctionBuilder) (value : Operand) : FunctionBuilder :=
  fb.terminate { kind := .Return, value }

end FunctionBuilder

/-- What lowering keeps of the owned storage of a function. -/
structure OwnedLowerer where
  fb : FunctionBuilder := {}
  movedOwnedSlots : List SlotId := []

namespace OwnedLowerer

/-- What lowering a body does, in the order of the source: the parts of an expression come before the
    whole, and a statement may open blocks and go to any of them. -/
inductive Action where
  | emit (instruction : Instruction)
  | addSlot (slot : Slot)
  | varDecl (slot : Slot) (initial : Operand)
  | assign (slot : SlotId) (value : Operand)
  | move (slot : SlotId)
  | returnStatement (value : Operand)
  | newBlock (handlers : List ExceptionHandler)
  | gotoBlock (id : BlockId)
  | terminate (terminator : Terminator)
  deriving DecidableEq, Repr

/-- The current block does not end yet. A statement is skipped where it does. -/
def live (l : OwnedLowerer) : Bool := (l.fb.block l.fb.current).any (·.terminator.kind == .None)

def dropSlot (slot : SlotId) : Instruction := { opcode := .Drop, slot }

def dropValue (value : Operand) : Instruction := { opcode := .Drop, operands := [value] }

/-- The owned slots that are not counted as moved, the latest first. -/
def releasedSlots (l : OwnedLowerer) : List SlotId :=
  ((List.range' 1 l.fb.function.slots.length).reverse).filter fun slot =>
    l.fb.function.owns slot && !l.movedOwnedSlots.contains slot

def releasedParameters (f : Function) : List ParamId :=
  (List.range f.parameters.length).reverse.filter f.ownsParameter

/-- The drops before a return: of the owned slots, and of every owned parameter. -/
def ownedCleanup (l : OwnedLowerer) : List Instruction :=
  l.releasedSlots.map dropSlot ++
    (releasedParameters l.fb.function).map fun id => dropValue (l.fb.function.parameterOperand id)

def emitOwnedCleanup (l : OwnedLowerer) : OwnedLowerer :=
  { l with fb := l.ownedCleanup.foldl FunctionBuilder.append l.fb }

def returnStatement (l : OwnedLowerer) (value : Operand) : OwnedLowerer :=
  let l := l.emitOwnedCleanup
  { l with fb := l.fb.emitReturn value }

def varDecl (l : OwnedLowerer) (slot : Slot) (initial : Operand) : OwnedLowerer :=
  let added := l.fb.addSlot slot
  if slot.ownership = .BORROW then { l with fb := added.2.emitBorrow added.1 initial }
  else { fb := added.2.emitStore added.1 initial
         movedOwnedSlots := l.movedOwnedSlots.filter (· != added.1) }

/-- A store is a fresh value: any earlier move of the slot is undone. -/
def assign (l : OwnedLowerer) (slot : SlotId) (value : Operand) : OwnedLowerer :=
  { fb := l.fb.emitStore slot value, movedOwnedSlots := l.movedOwnedSlots.filter (· != slot) }

def move (l : OwnedLowerer) (slot : SlotId) : OwnedLowerer :=
  { fb := (l.fb.emitMove slot).2, movedOwnedSlots := l.movedOwnedSlots.insert slot }

/-- One step of lowering a body. Owned storage is written by declarations and assignments. -/
def lowerAction (l : OwnedLowerer) : Action → Option OwnedLowerer
  | .emit i =>
    if l.live ∧ i.opcode ≠ .Move ∧ i.opcode ≠ .Drop ∧
      (i.opcode = .Store → (l.fb.function.slot i.slot).any (·.ownership != .OWNED)) then
      some { l with fb := l.fb.append i }
    else none
  | .addSlot slot =>
    if slot.ownership ≠ .OWNED then some { l with fb := (l.fb.addSlot slot).2 } else none
  | .varDecl slot initial =>
    if l.live then some (l.varDecl slot initial) else none
  | .assign slot value =>
    if l.live ∧ (l.fb.function.slot slot).isSome then some (l.assign slot value) else none
  | .move slot => if l.live ∧ (l.fb.function.slot slot).isSome then some (l.move slot) else none
  | .returnStatement value => if l.live then some (l.returnStatement value) else none
  | .newBlock handlers => some { l with fb := (l.fb.addBlock handlers).2 }
  | .gotoBlock id =>
    if (l.fb.block id).isSome then some { l with fb := { l.fb with current := id } } else none
  | .terminate t =>
    if l.live ∧ t.kind ≠ .None ∧ t.kind ≠ .Return then some { l with fb := l.fb.terminate t } else none

/-- A borrowed parameter is copied to a slot, and so is one that the body writes or moves. -/
def needsSlot (parameter : Parameter × Bool) : Bool := parameter.1.ownership == .BORROW || parameter.2

def copyParameter (fb : FunctionBuilder) (parameter : Parameter) (written : Bool) (id : ParamId) :
    FunctionBuilder :=
  if needsSlot (parameter, written) then
    let slot := fb.function.slots.length + 1
    let fb := (fb.addSlot { name := parameter.name, type := parameter.type,
                            ownership := parameter.ownership }).2
    if parameter.ownership = .BORROW then fb.emitBorrow slot (fb.function.parameterOperand id)
    else fb.emitStore slot (fb.function.parameterOperand id)
  else fb

def copyParameters (fb : FunctionBuilder) : List (Parameter × Bool) → ParamId → FunctionBuilder
  | [], _ => fb
  | (parameter, written) :: rest, id =>
    copyParameters (copyParameter fb parameter written id) rest (id + 1)

/-- The state in which the body of a function is lowered. -/
def lowerParameters (parameters : List (Parameter × Bool)) : OwnedLowerer :=
  let fb : FunctionBuilder := { function := { parameters := parameters.map (·.1) } }
  { fb := copyParameters (fb.addBlock []).2 parameters 0 }

def lowerBody (parameters : List (Parameter × Bool)) (actions : List Action) : Option OwnedLowerer :=
  actions.foldlM lowerAction (lowerParameters parameters)

/-- The drops of a block are its last instructions, and a return follows them. -/
def DropsLast (b : BasicBlock) : Prop :=
  ∃ body drops, b.instructions = body ++ drops ∧ (∀ i ∈ body, i.opcode ≠ .Drop) ∧
    (∀ i ∈ drops, i.opcode = .Drop) ∧ (b.terminator.kind ≠ .Return → drops = [])

structure Built (l : OwnedLowerer) : Prop where
  numbered : l.fb.Numbered
  current : ∃ b, l.fb.block l.fb.current = some b
  drops : ∀ id b, l.fb.block id = some b → DropsLast b
  moved : ∀ slot ∈ l.movedOwnedSlots, slot ≤ l.fb.function.slots.length

/-- What a later state keeps of an earlier one. -/
structure Grown (l next : OwnedLowerer) : Prop where
  slots : l.fb.function.slots <+: next.fb.function.slots
  parameters : next.fb.function.parameters = l.fb.function.parameters
  ended : ∀ id b, l.fb.block id = some b → b.terminator.kind ≠ .None → next.fb.block id = some b

section
variable {l next last : OwnedLowerer} {f g : Function} {i : Instruction}
  {slot : SlotId} {info : Slot} {b : BasicBlock}

theorem Grown.refl (l : OwnedLowerer) : Grown l l :=
  ⟨List.prefix_refl _, rfl, fun _ _ hb _ => hb⟩

theorem Grown.trans (h : Grown l next) (h' : Grown next last) : Grown l last :=
  ⟨h.slots.trans h'.slots, h'.parameters.trans h.parameters, fun id b hb hend =>
    h'.ended id b (h.ended id b hb hend) hend⟩

theorem slot_le (hslot : f.slot slot = some info) : slot ≤ f.slots.length := by
  unfold Function.slot at hslot
  split at hslot
  · cases hslot
  next hne =>
    have hlt : slot - 1 < f.slots.length := (List.getElem?_eq_some_iff.mp hslot).1
    exact Nat.le_of_pred_lt hlt

theorem owns_iff : f.owns slot = true ↔ ∃ info, f.slot slot = some info ∧ info.ownership = .OWNED := by
  simp [Function.owns, Option.any_eq_true]

theorem DropsLast.of_body (hbody : ∀ i ∈ b.instructions, i.opcode ≠ .Drop) : DropsLast b :=
  ⟨b.instructions, [], (List.append_nil _).symm, hbody, fun _ hi => absurd hi List.not_mem_nil, fun _ => rfl⟩

theorem DropsLast.body (h : DropsLast b) (hkind : b.terminator.kind ≠ .Return) :
    ∀ i ∈ b.instructions, i.opcode ≠ .Drop := by
  obtain ⟨body, drops, hinstructions, hbody, -, hnone⟩ := h
  rw [hinstructions, hnone hkind, List.append_nil]
  exact hbody

theorem live_iff : l.live = true ↔ ∃ b, l.fb.block l.fb.current = some b ∧ b.terminator.kind = .None := by
  simp [live, Option.any_eq_true]

theorem Built.of_blocks (h : Built l) (hnumbered : next.fb.Numbered)
    (hcurrent : ∃ b, next.fb.block next.fb.current = some b)
    (hblocks : ∀ id b, next.fb.block id = some b → l.fb.block id = some b ∨ DropsLast b)
    (hmoved : ∀ slot ∈ next.movedOwnedSlots, slot ≤ next.fb.function.slots.length) : Built next where
  numbered := hnumbered
  current := hcurrent
  drops id b hb := by
    cases hblocks id b hb with
    | inl hold => exact h.drops id b hold
    | inr hnew => exact hnew
  moved := hmoved

theorem Built.nonempty (h : Built l) : 0 < l.fb.function.blocks.length := by
  obtain ⟨b, hb⟩ := h.current
  obtain ⟨-, hmem, -⟩ := Function.block_eq_some hb
  exact List.length_pos_of_mem hmem

/-- An instruction put in a live block. The temps and the slots counted as moved may be any. -/
theorem Built.append (h : Built l) (hlive : l.live = true) (hdrop : i.opcode ≠ .Drop)
    (t : TempId) {moved : List SlotId} (hmoved : ∀ slot ∈ moved, slot ≤ l.fb.function.slots.length) :
    Grown l ⟨{ l.fb.append i with nextTemp := t }, moved⟩ ∧
      Built ⟨{ l.fb.append i with nextTemp := t }, moved⟩ := by
  obtain ⟨current, hcurrent, hkind⟩ := live_iff.mp hlive
  have hblock : ∀ id, FunctionBuilder.block { l.fb.append i with nextTemp := t } id =
      (l.fb.block id).map fun b =>
        if id = l.fb.current then { b with instructions := b.instructions ++ [i] } else b :=
    FunctionBuilder.block_append_instruction i
  have hgrown : Grown l ⟨{ l.fb.append i with nextTemp := t }, moved⟩ := by
    refine ⟨List.prefix_refl _, rfl, fun id b hb hend => ?_⟩
    have hne : id ≠ l.fb.current := by
      rintro rfl
      rw [hcurrent, Option.some.injEq] at hb
      exact hend (hb ▸ hkind)
    simp [hblock, hb, hne]
  refine ⟨hgrown, h.of_blocks (h.numbered.append i)
    ⟨_, (hblock l.fb.current).trans (by rw [hcurrent, Option.map_some])⟩
    (fun id b hb => ?_) hmoved⟩
  rw [hblock] at hb
  by_cases hid : id = l.fb.current
  · subst hid
    rw [hcurrent, Option.map_some, if_pos rfl, Option.some.injEq] at hb
    subst hb
    have hbody := (h.drops _ _ hcurrent).body (by simp [hkind])
    refine .inr (DropsLast.of_body ?_)
    simpa [or_imp, forall_and] using ⟨hbody, hdrop⟩
  · left
    simpa [hid] using hb

theorem Built.addSlot (h : Built l) (info : Slot) :
    Grown l { l with fb := (l.fb.addSlot info).2 } ∧
      Built { l with fb := (l.fb.addSlot info).2 } := by
  have hgrown : Grown l { l with fb := (l.fb.addSlot info).2 } :=
    ⟨List.prefix_append .., rfl, fun _ _ hb _ => hb⟩
  refine ⟨hgrown, h.of_blocks h.numbered h.current (fun _ _ hb => .inl hb) fun slot hslot => ?_⟩
  exact (h.moved slot hslot).trans hgrown.slots.length_le

theorem Built.newBlock (h : Built l) (handlers : List ExceptionHandler) :
    Grown l { l with fb := (l.fb.addBlock handlers).2 } ∧
      Built { l with fb := (l.fb.addBlock handlers).2 } := by
  have hblock := FunctionBuilder.block_addBlock h.numbered h.nonempty handlers
  have hslots := @FunctionBuilder.addBlock_slots l.fb h.nonempty handlers
  have hgrown : Grown l { l with fb := (l.fb.addBlock handlers).2 } := by
    refine ⟨by rw [hslots], by rw [FunctionBuilder.addBlock_eq h.nonempty], fun id b hb hend => ?_⟩
    have hne : id ≠ l.fb.function.blocks.length + 1 := by
      rintro rfl
      exact absurd (h.numbered.le_of_block hb).2 (Nat.not_succ_le_self _)
    rw [hblock, if_neg hne, hb]
  refine ⟨hgrown, h.of_blocks (h.numbered.addBlock h.nonempty handlers) ?_ (fun id b hb => ?_) ?_⟩
  · obtain ⟨b, hb⟩ := h.current
    refine ⟨b, ?_⟩
    rw [FunctionBuilder.addBlock_current h.nonempty, hblock, if_neg, hb]
    intro hid
    exact absurd (hid ▸ (h.numbered.le_of_block hb).2) (Nat.not_succ_le_self _)
  · rw [hblock] at hb
    split at hb
    · obtain rfl := Option.some.inj hb
      exact .inr (DropsLast.of_body (by simp))
    · exact .inl hb
  · rw [hslots]
    exact h.moved

/-- The current block is given more instructions and its terminator at once. -/
theorem Built.ended (h : Built l) (hlive : l.live = true) (hgrown : Grown l next)
    (hsame : next.fb.current = l.fb.current ∧ next.movedOwnedSlots = l.movedOwnedSlots)
    (hnumbered : next.fb.Numbered) {drops : List Instruction} {t : Terminator}
    (hdrops : ∀ i ∈ drops, i.opcode = .Drop) (hkind : t.kind ≠ .Return → drops = [])
    (hblock : ∀ id, next.fb.block id = (l.fb.block id).map fun b =>
      if id = l.fb.current then { b with instructions := b.instructions ++ drops, terminator := t }
      else b) : Built next := by
  obtain ⟨current, hcurrent, hnone⟩ := live_iff.mp hlive
  refine h.of_blocks hnumbered ?_ (fun id b hb => ?_) ?_
  · exact ⟨_, by rw [hsame.1, hblock, hcurrent, Option.map_some, if_pos rfl]⟩
  · rw [hblock] at hb
    by_cases hid : id = l.fb.current
    · subst hid
      rw [hcurrent, Option.map_some, if_pos rfl, Option.some.injEq] at hb
      subst hb
      exact .inr ⟨_, drops, rfl, (h.drops _ _ hcurrent).body (by simp [hnone]), hdrops, hkind⟩
    · left
      simpa [hid] using hb
  · rw [hsame.2]
    exact fun slot hslot => (h.moved slot hslot).trans hgrown.slots.length_le

theorem grown_of_block (hlive : l.live = true) (hslots : next.fb.function.slots = l.fb.function.slots)
    (hparameters : next.fb.function.parameters = l.fb.function.parameters) {g : BasicBlock → BasicBlock}
    (hblock : ∀ id, next.fb.block id =
      (l.fb.block id).map fun b => if id = l.fb.current then g b else b) : Grown l next := by
  obtain ⟨current, hcurrent, hnone⟩ := live_iff.mp hlive
  refine ⟨by rw [hslots], hparameters, fun id b hb hend => ?_⟩
  have hne : id ≠ l.fb.current := by
    rintro rfl
    rw [hcurrent, Option.some.injEq] at hb
    exact hend (hb ▸ hnone)
  rw [hblock, hb, Option.map_some, if_neg hne]

theorem block_returnStatement (l : OwnedLowerer) (value : Operand) (id : BlockId) :
    (l.returnStatement value).fb.block id = (l.fb.block id).map fun b =>
      if id = l.fb.current then
        { b with instructions := b.instructions ++ l.ownedCleanup
                 terminator := { kind := .Return, value } }
      else b := by
  have hcurrent := (FunctionBuilder.foldl_append_kept l.fb l.ownedCleanup).1
  have hblock := FunctionBuilder.block_foldl_append l.fb l.ownedCleanup id
  unfold returnStatement emitOwnedCleanup FunctionBuilder.emitReturn
  rw [FunctionBuilder.block_terminate, hblock, hcurrent, Option.map_map]
  congr 1
  funext b
  by_cases hid : id = l.fb.current
  · simp [hid]
  · simp [hid]

theorem opcode_ownedCleanup : ∀ i ∈ l.ownedCleanup, i.opcode = .Drop := by
  intro i hi
  cases List.mem_append.mp hi with
  | inl hslot => obtain ⟨slot, -, rfl⟩ := List.mem_map.mp hslot; rfl
  | inr hparameter => obtain ⟨p, -, rfl⟩ := List.mem_map.mp hparameter; rfl

theorem parameters_foldl_append (fb : FunctionBuilder) (is : List Instruction) :
    (is.foldl FunctionBuilder.append fb).function.parameters = fb.function.parameters := by
  induction is generalizing fb with
  | nil => rfl
  | cons i is ih => exact ih (fb.append i)

theorem Built.returnStatement (h : Built l) (hlive : l.live = true) (value : Operand) :
    Grown l (l.returnStatement value) ∧ Built (l.returnStatement value) := by
  obtain ⟨hcurrent, -, hslots, -, hnumbered⟩ := FunctionBuilder.foldl_append_kept l.fb l.ownedCleanup
  have hblock := block_returnStatement l value
  have hgrown : Grown l (l.returnStatement value) :=
    grown_of_block hlive hslots (parameters_foldl_append l.fb l.ownedCleanup) hblock
  exact ⟨hgrown, h.ended hlive hgrown ⟨hcurrent, rfl⟩ ((hnumbered h.numbered).terminate _)
    opcode_ownedCleanup (fun hkind => absurd rfl hkind) hblock⟩

theorem Built.terminate (h : Built l) (hlive : l.live = true) (t : Terminator) :
    Grown l { l with fb := l.fb.terminate t } ∧ Built { l with fb := l.fb.terminate t } := by
  have hblock : ∀ id, (l.fb.terminate t).block id = (l.fb.block id).map fun b =>
      if id = l.fb.current then { b with instructions := b.instructions ++ [], terminator := t }
      else b := by
    intro id
    simp only [FunctionBuilder.block_terminate, List.append_nil]
  have hgrown : Grown l { l with fb := l.fb.terminate t } := grown_of_block hlive rfl rfl hblock
  exact ⟨hgrown, h.ended hlive hgrown ⟨rfl, rfl⟩ (h.numbered.terminate t)
    (fun i hi => absurd hi List.not_mem_nil) (fun _ => rfl) hblock⟩

theorem Built.addSlot_append (h : Built l) (hlive : l.live = true) (info : Slot) (hdrop : i.opcode ≠ .Drop)
    {moved : List SlotId} (hmoved : ∀ slot ∈ moved, slot ∈ l.movedOwnedSlots) :
    Grown l ⟨(l.fb.addSlot info).2.append i, moved⟩ ∧ Built ⟨(l.fb.addSlot info).2.append i, moved⟩ := by
  obtain ⟨hslot, hbuilt⟩ := h.addSlot info
  obtain ⟨hgrown, hnext⟩ := hbuilt.append hlive hdrop l.fb.nextTemp fun slot hslot =>
    hbuilt.moved slot (hmoved slot hslot)
  exact ⟨hslot.trans hgrown, hnext⟩

theorem Built.varDecl (h : Built l) (hlive : l.live = true) (info : Slot) (initial : Operand) :
    Grown l (l.varDecl info initial) ∧ Built (l.varDecl info initial) := by
  unfold OwnedLowerer.varDecl
  dsimp only
  split
  · exact h.addSlot_append hlive info (by simp) fun _ hslot => hslot
  · exact h.addSlot_append hlive info (by simp) fun _ hslot => List.mem_of_mem_filter hslot

theorem Built.assign (h : Built l) (hlive : l.live = true) (slot : SlotId) (value : Operand) :
    Grown l (l.assign slot value) ∧ Built (l.assign slot value) :=
  h.append hlive (by simp) l.fb.nextTemp fun slot hslot => h.moved slot (List.mem_of_mem_filter hslot)

theorem Built.move (h : Built l) (hlive : l.live = true) (hslot : (l.fb.function.slot slot).isSome) :
    Grown l (l.move slot) ∧ Built (l.move slot) := by
  refine h.append hlive (by simp) (l.fb.nextTemp + 1) fun other hother => ?_
  cases List.mem_insert_iff.mp hother with
  | inl hsame =>
    obtain ⟨info, hinfo⟩ := Option.isSome_iff_exists.mp hslot
    exact hsame ▸ slot_le hinfo
  | inr hold => exact h.moved other hold

theorem Built.lowerAction (h : Built l) {a : Action} (hnext : l.lowerAction a = some next) :
    Grown l next ∧ Built next := by
  cases a with
  | emit i =>
    simp only [OwnedLowerer.lowerAction, Option.ite_none_right_eq_some, Option.some.injEq] at hnext
    obtain ⟨⟨hlive, -, hdrop, -⟩, rfl⟩ := hnext
    exact h.append hlive hdrop l.fb.nextTemp h.moved
  | addSlot slot =>
    simp only [OwnedLowerer.lowerAction, Option.ite_none_right_eq_some, Option.some.injEq] at hnext
    obtain ⟨-, rfl⟩ := hnext
    exact h.addSlot slot
  | varDecl slot initial =>
    simp only [OwnedLowerer.lowerAction, Option.ite_none_right_eq_some, Option.some.injEq] at hnext
    obtain ⟨hlive, rfl⟩ := hnext
    exact h.varDecl hlive slot initial
  | assign slot value =>
    simp only [OwnedLowerer.lowerAction, Option.ite_none_right_eq_some, Option.some.injEq] at hnext
    obtain ⟨⟨hlive, -⟩, rfl⟩ := hnext
    exact h.assign hlive slot value
  | move slot =>
    simp only [OwnedLowerer.lowerAction, Option.ite_none_right_eq_some, Option.some.injEq] at hnext
    obtain ⟨⟨hlive, hslot⟩, rfl⟩ := hnext
    exact h.move hlive hslot
  | returnStatement value =>
    simp only [OwnedLowerer.lowerAction, Option.ite_none_right_eq_some, Option.some.injEq] at hnext
    obtain ⟨hlive, rfl⟩ := hnext
    exact h.returnStatement hlive value
  | newBlock handlers =>
    obtain rfl := Option.some.inj hnext
    exact h.newBlock handlers
  | gotoBlock id =>
    simp only [OwnedLowerer.lowerAction, Option.ite_none_right_eq_some, Option.some.injEq] at hnext
    obtain ⟨hblock, rfl⟩ := hnext
    exact ⟨⟨List.prefix_refl _, rfl, fun _ _ hb _ => hb⟩, h.numbered, Option.isSome_iff_exists.mp hblock,
      h.drops, h.moved⟩
  | terminate t =>
    simp only [OwnedLowerer.lowerAction, Option.ite_none_right_eq_some, Option.some.injEq] at hnext
    obtain ⟨⟨hlive, -⟩, rfl⟩ := hnext
    exact h.terminate hlive t

/-- A whole body. -/
theorem Built.foldlM (h : Built l) {actions : List Action}
    (hnext : actions.foldlM OwnedLowerer.lowerAction l = some next) : Grown l next ∧ Built next := by
  induction actions generalizing l with
  | nil =>
    obtain rfl := Option.some.inj hnext
    exact ⟨Grown.refl l, h⟩
  | cons a actions ih =>
    obtain ⟨middle, hmiddle, hrest⟩ := Option.bind_eq_some_iff.mp hnext
    obtain ⟨hgrown, hbuilt⟩ := h.lowerAction hmiddle
    obtain ⟨hgrown', hbuilt'⟩ := ih hbuilt hrest
    exact ⟨hgrown.trans hgrown', hbuilt'⟩

theorem live_append (hlive : l.live = true) (i : Instruction) : live ⟨l.fb.append i, []⟩ = true := by
  obtain ⟨b, hb, hnone⟩ := live_iff.mp hlive
  refine live_iff.mpr ⟨{ b with instructions := b.instructions ++ [i] }, ?_, hnone⟩
  exact (FunctionBuilder.block_append_instruction i l.fb.current).trans (by rw [hb]; simp)

theorem Built.copyParameters {rest : List (Parameter × Bool)} {fb : FunctionBuilder} {id : ParamId}
    (h : Built ⟨fb, []⟩) (hlive : live ⟨fb, []⟩ = true) :
    Grown ⟨fb, []⟩ ⟨copyParameters fb rest id, []⟩ ∧ Built ⟨copyParameters fb rest id, []⟩ := by
  induction rest generalizing fb id with
  | nil => exact ⟨Grown.refl _, h⟩
  | cons parameter rest ih =>
    obtain ⟨parameter, written⟩ := parameter
    unfold OwnedLowerer.copyParameters OwnedLowerer.copyParameter
    split
    · have hcopied (info : Slot) (i : Instruction) (hdrop : i.opcode ≠ .Drop) :
          Grown ⟨fb, []⟩ ⟨OwnedLowerer.copyParameters ((fb.addSlot info).2.append i) rest (id + 1), []⟩ ∧
          Built ⟨OwnedLowerer.copyParameters ((fb.addSlot info).2.append i) rest (id + 1), []⟩ := by
        obtain ⟨hgrown, hnext⟩ := h.addSlot_append hlive info hdrop (List.forall_mem_nil _)
        obtain ⟨hrest, hlast⟩ := ih hnext (live_append (l := ⟨(fb.addSlot info).2, []⟩) hlive i)
        exact ⟨hgrown.trans hrest, hlast⟩
      dsimp only
      split
      · exact hcopied _ _ (by simp)
      · exact hcopied _ _ (by simp)
    · exact ih h hlive

theorem built_lowerParameters (parameters : List (Parameter × Bool)) :
    Built (lowerParameters parameters) := by
  have hblock : ∀ id b, FunctionBuilder.block (FunctionBuilder.addBlock
      { function := { parameters := parameters.map (·.1) } } []).2 id = some b → b = { id := 1 } := by
    intro id b hb
    obtain ⟨-, hmem, -⟩ := Function.block_eq_some hb
    exact List.mem_singleton.mp hmem
  refine (Built.copyParameters ⟨?_, ⟨_, rfl⟩, fun id b hb => ?_, by simp⟩ rfl).2
  · intro b hb
    rw [List.mem_singleton.mp hb]
    exact le_rfl
  · rw [hblock id b hb]
    exact DropsLast.of_body (by simp)

theorem built_lowerBody {parameters : List (Parameter × Bool)} {actions : List Action}
    (h : lowerBody parameters actions = some l) : Built l :=
  ((built_lowerParameters parameters).foldlM h).2

end

end OwnedLowerer

end zl.mir
