import Zl.Fixpoint.Backward
import Zl.Mir.Reachability

open zl.fixpoint zl.mir.ControlFlowGraph

namespace zl.mir

def opcodeWritesSlot : Opcode → Bool
  | .Store | .Move | .Drop | .EndBorrow | .Borrow => true
  | _ => false

def opcodeReadsSlot : Opcode → Bool
  | .Load | .Move | .Drop | .EndBorrow => true
  | _ => false

/-- The slots and the values that may still be read. -/
structure LivenessFact where
  slots : Finset SlotId := ∅
  values : Finset ValueId := ∅
  deriving DecidableEq

namespace LivenessFact

@[ext]
theorem ext {a b : LivenessFact} (hslots : a.slots = b.slots) (hvalues : a.values = b.values) :
    a = b := by
  cases a
  cases b
  simp_all

instance : Max LivenessFact := ⟨fun a b => ⟨a.slots ∪ b.slots, a.values ∪ b.values⟩⟩

instance : SemilatticeSup LivenessFact where
  le a b := a.slots ⊆ b.slots ∧ a.values ⊆ b.values
  le_refl _ := ⟨subset_rfl, subset_rfl⟩
  le_trans _ _ _ hab hbc := ⟨hab.1.trans hbc.1, hab.2.trans hbc.2⟩
  le_antisymm _ _ hab hba := LivenessFact.ext (hab.1.antisymm hba.1) (hab.2.antisymm hba.2)
  sup a b := a ⊔ b
  le_sup_left _ _ := ⟨Finset.subset_union_left, Finset.subset_union_left⟩
  le_sup_right _ _ := ⟨Finset.subset_union_right, Finset.subset_union_right⟩
  sup_le _ _ _ hac hbc := ⟨Finset.union_subset hac.1 hbc.1, Finset.union_subset hac.2 hbc.2⟩

end LivenessFact

/-- One instruction's backward step: what it defines is dead before it, what it reads live. A slot
    it both reads and writes stays live. -/
def applyLiveStep (instruction : Instruction) (live : LivenessFact) : LivenessFact where
  values :=
    (live.values \ (resultValues instruction).toFinset) ∪ (instructionUses instruction).toFinset
  slots :=
    if instruction.slot = 0 then live.slots
    else
      let killed :=
        if opcodeWritesSlot instruction.opcode then live.slots.erase instruction.slot else live.slots
      if opcodeReadsSlot instruction.opcode then insert instruction.slot killed else killed

def addTerminatorUses (t : Terminator) (live : LivenessFact) : LivenessFact :=
  { live with values := live.values ∪ (terminatorUses t).toFinset }

/-- The fact at the entry of a block, given the one at its exit. -/
def transferLiveness (b : BasicBlock) (out : LivenessFact) : LivenessFact :=
  let live := b.instructions.foldr applyLiveStep (addTerminatorUses b.terminator out)
  { live with values := live.values \ (parameterValues b).toFinset }

def solveLiveness (f : Function) : Flow BlockId LivenessFact LivenessFact :=
  solveBackward f.block (successors f) transferLiveness {} (reversePostOrder f) (f.blocks.length + 8)

/-- The fact at the exit of a block, empty for a block the solver did not visit. -/
def liveOut (f : Function) (id : BlockId) : LivenessFact := ((solveLiveness f).output id).getD {}

structure SuspendedValue where
  value : ValueId
  type : TypeId := 0
  deriving DecidableEq, Repr

structure SuspendedSlot where
  slot : SlotId := 0
  type : TypeId := 0
  ownership : OwnershipKind := .GC
  borrowSource : String := ""
  deriving DecidableEq, Repr

/-- What one await has to preserve. -/
structure SuspensionPoint where
  block : BlockId := kNoBlock
  instructionIndex : Nat := 0
  values : List SuspendedValue := []
  slots : List SuspendedSlot := []
  deriving DecidableEq, Repr

/-- Values are ordered by kind, then by index. -/
def valueKey : ValueId → Nat × Nat
  | .temp id => (2, id)
  | .param id => (3, id)
  | .blockParam id => (4, id)

def valueLe (a b : ValueId) : Prop :=
  (valueKey a).1 < (valueKey b).1 ∨ (valueKey a).1 = (valueKey b).1 ∧ (valueKey a).2 ≤ (valueKey b).2

instance : DecidableRel valueLe := fun _ _ => inferInstanceAs (Decidable (_ ∨ _))

instance : IsTrans ValueId valueLe where
  trans a b c hab hbc := by
    unfold valueLe at *
    omega

instance : Std.Total valueLe where
  total a b := by
    unfold valueLe
    omega

instance : Std.Antisymm valueLe where
  antisymm a b hab hba := by
    unfold valueLe at hab hba
    have hkey : valueKey a = valueKey b := Prod.ext (by omega) (by omega)
    cases a <;> cases b <;> simp_all [valueKey]

/-- What is live right after an instruction of a block: the fact at the exit of the block, walked
    back over the terminator and the instructions that follow. -/
def liveAfter (f : Function) (b : BasicBlock) (i : Nat) : LivenessFact :=
  (b.instructions.drop (i + 1)).foldr applyLiveStep (addTerminatorUses b.terminator (liveOut f b.id))

def suspendedSlot (f : Function) (slot : SlotId) : SuspendedSlot :=
  match f.slot slot with
  | none => { slot := slot }
  | some info => ⟨slot, info.type, info.ownership, info.borrowSource⟩

/-- The point of one await. Its own result is produced by the resumption. -/
def suspensionPoint (f : Function) (b : BasicBlock) (i : Nat) (await : Instruction) :
    SuspensionPoint :=
  let live := liveAfter f b i
  { block := b.id
    instructionIndex := i
    values := ((live.values \ (resultValues await).toFinset).sort valueLe).map fun value =>
      ⟨value, valueType f value⟩
    slots := live.slots.sort.map (suspendedSlot f) }

/-- One point for each await of the function, in program order. -/
def suspensionPoints (f : Function) : List SuspensionPoint :=
  f.blocks.flatMap fun b => b.instructions.zipIdx.filterMap fun p =>
    if p.1.opcode = .Await then some (suspensionPoint f b p.2 p.1) else none

/-- A thing that is read and overwritten: a slot, or a value. -/
inductive Storage where
  | slot (id : SlotId)
  | value (id : ValueId)
  deriving DecidableEq, Repr

def LivenessFact.Has (fact : LivenessFact) : Storage → Prop
  | .slot s => s ∈ fact.slots
  | .value v => v ∈ fact.values

def Reads (instruction : Instruction) : Storage → Prop
  | .slot s => opcodeReadsSlot instruction.opcode = true ∧ instruction.slot = s ∧ s ≠ kNoSlot
  | .value v => v ∈ instructionUses instruction

def Writes (instruction : Instruction) : Storage → Prop
  | .slot s => opcodeWritesSlot instruction.opcode = true ∧ instruction.slot = s ∧ s ≠ kNoSlot
  | .value v => v ∈ resultValues instruction

def TerminatorReads (t : Terminator) : Storage → Prop
  | .slot _ => False
  | .value v => v ∈ terminatorUses t

/-- A normal edge into a block binds the parameters of the block. -/
def BoundOnEntry (b : BasicBlock) : Storage → Prop
  | .slot _ => False
  | .value v => v ∈ parameterValues b

section
variable (edge : BasicBlock → Nat → BasicBlock → Prop) (x : Storage)

/-- A path from a place in a block along the given edges reads `x` before it overwrites it. -/
inductive ReadAlong : BasicBlock → Nat → Prop
  | read {b : BasicBlock} {pc : Nat} {instruction : Instruction}
      (hget : b.instructions[pc]? = some instruction) (hreads : Reads instruction x) : ReadAlong b pc
  | terminator {b : BasicBlock} (hreads : TerminatorReads b.terminator x) :
      ReadAlong b b.instructions.length
  | step {b : BasicBlock} {pc : Nat} {instruction : Instruction}
      (hget : b.instructions[pc]? = some instruction) (hkept : ¬ Writes instruction x)
      (hlater : ReadAlong b (pc + 1)) : ReadAlong b pc
  | follow {b c : BasicBlock} {pc : Nat} (hedge : edge b pc c) (hlater : ReadAlong c 0) :
      ReadAlong b pc

/-- The first thing a run of instructions does with `x` is to read it. -/
def ReadsFirst : List Instruction → Prop
  | [] => False
  | instruction :: rest => Reads instruction x ∨ (¬ Writes instruction x ∧ ReadsFirst rest)

def Untouched (instructions : List Instruction) : Prop :=
  ∀ instruction ∈ instructions, ¬ Writes instruction x

end

section
variable (f : Function) (x : Storage)

/-- Control follows an edge of the terminator at the end of the block. -/
def NormalStep (b : BasicBlock) (pc : Nat) (c : BasicBlock) : Prop :=
  pc = b.instructions.length ∧ (∃ id ∈ b.terminator.successors, f.block id = some c) ∧
    ¬ BoundOnEntry c x

/-- Control enters a handler of the block, which binds the slot of the handler. -/
def UnwindStep (b : BasicBlock) (pc : Nat) (c : BasicBlock) : Prop :=
  pc ≤ b.instructions.length ∧ ∃ handler ∈ b.exceptionHandlers, f.block handler.block = some c ∧
    x ≠ .slot handler.catchSlot

/-- Some execution path from the place reads `x` before overwriting it. -/
def ReadLater : BasicBlock → Nat → Prop :=
  ReadAlong (fun b pc c => NormalStep f x b pc c ∨ UnwindStep f x b pc c) x

/-- Control follows a normal edge out of a block that normal edges reach from the entry. -/
def AnalysedStep (b : BasicBlock) (pc : Nat) (c : BasicBlock) : Prop :=
  pc = b.instructions.length ∧ b.id ∈ reversePostOrder f ∧
    (∃ id ∈ successors f b.id, f.block id = some c) ∧ ¬ BoundOnEntry c x

/-- Some path along normal edges alone reads `x` before overwriting it. -/
def ReadNormally : BasicBlock → Nat → Prop := ReadAlong (AnalysedStep f x) x

/-- What a block makes live on its own. -/
def LiveGen (b : BasicBlock) (x : Storage) : Prop :=
  (ReadsFirst x b.instructions ∨ (Untouched x b.instructions ∧ TerminatorReads b.terminator x)) ∧
    ¬ BoundOnEntry b x

/-- What a block does not let through. -/
def LiveKill (b : BasicBlock) (x : Storage) : Prop := ¬ Untouched x b.instructions ∨ BoundOnEntry b x

end

theorem applyLiveStep_has {instruction : Instruction} {live : LivenessFact} {x : Storage} :
    (applyLiveStep instruction live).Has x ↔
      Reads instruction x ∨ (¬ Writes instruction x ∧ live.Has x) := by
  cases x with
  | value v =>
    simp only [LivenessFact.Has, applyLiveStep, Reads, Writes, Finset.mem_union, Finset.mem_sdiff,
      List.mem_toFinset]
    tauto
  | slot s =>
    simp only [LivenessFact.Has, applyLiveStep, Reads, Writes]
    by_cases hnone : instruction.slot = 0
    · rw [if_pos hnone]
      constructor
      · intro hs
        refine Or.inr ⟨?_, hs⟩
        rintro ⟨-, rfl, hne⟩
        exact hne hnone
      · rintro (⟨-, rfl, hne⟩ | ⟨-, hs⟩)
        · exact absurd hnone hne
        · exact hs
    · rw [if_neg hnone]
      by_cases hslot : s = instruction.slot
      · subst hslot
        cases hreads : opcodeReadsSlot instruction.opcode <;>
          cases hwrites : opcodeWritesSlot instruction.opcode <;> simp [hnone]
      · have hslot' : instruction.slot ≠ s := Ne.symm hslot
        cases hreads : opcodeReadsSlot instruction.opcode <;>
          cases hwrites : opcodeWritesSlot instruction.opcode <;> simp [hslot, hslot']

theorem foldr_applyLiveStep_has {instructions : List Instruction} {live : LivenessFact} {x : Storage} :
    (instructions.foldr applyLiveStep live).Has x ↔
      ReadsFirst x instructions ∨ (Untouched x instructions ∧ live.Has x) := by
  induction instructions with
  | nil => simp [ReadsFirst, Untouched]
  | cons instruction rest ih =>
    rw [List.foldr_cons, applyLiveStep_has, ih, ReadsFirst]
    simp only [Untouched, List.forall_mem_cons]
    tauto

theorem addTerminatorUses_has {t : Terminator} {live : LivenessFact} {x : Storage} :
    (addTerminatorUses t live).Has x ↔ TerminatorReads t x ∨ live.Has x := by
  cases x with
  | slot s => simp [LivenessFact.Has, addTerminatorUses, TerminatorReads]
  | value v => simp [LivenessFact.Has, addTerminatorUses, TerminatorReads, or_comm]

/-- The transfer of a block is of the gen/kill kind. -/
theorem genKill_transferLiveness :
    GenKill transferLiveness {} LivenessFact.Has LiveGen LiveKill where
  boundary x := by cases x <;> simp [LivenessFact.Has]
  join i j x := by
    cases x with
    | slot s => exact Finset.mem_union
    | value v => exact Finset.mem_union
  transfer b o x := by
    have hentry : (transferLiveness b o).Has x ↔
        (b.instructions.foldr applyLiveStep (addTerminatorUses b.terminator o)).Has x ∧
          ¬ BoundOnEntry b x := by
      cases x with
      | slot s => simp [LivenessFact.Has, transferLiveness, BoundOnEntry]
      | value v => simp [LivenessFact.Has, transferLiveness, BoundOnEntry]
    rw [hentry, foldr_applyLiveStep_has, addTerminatorUses_has]
    unfold LiveGen LiveKill
    tauto

end zl.mir
