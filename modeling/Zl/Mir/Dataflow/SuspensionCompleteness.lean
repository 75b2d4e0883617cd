import Zl.Mir.Dataflow.Liveness

open zl.fixpoint zl.mir.ControlFlowGraph

namespace zl.mir

section
variable (f : Function) (x : Storage)

/-- What is read from a place on, in terms of the rest of its block and of the blocks that
    follow. -/
def LiveAt (b : BasicBlock) (pc : Nat) : Prop :=
  ReadsFirst x (b.instructions.drop pc) ∨
    (Untouched x (b.instructions.drop pc) ∧
      (TerminatorReads b.terminator x ∨
        (b.id ∈ reversePostOrder f ∧
          ∃ id ∈ successors f b.id, LiveFrom f.block (successors f) LiveGen LiveKill x id)))

/-- The suspension point of an await lists a thing. -/
def SuspensionPoint.Lists (point : SuspensionPoint) : Storage → Prop
  | .slot s => s ∈ point.slots.map (·.slot)
  | .value v => v ∈ point.values.map (·.value)

/-- The result of an await, which the resumption produces. -/
def OwnResult (await : Instruction) : Storage → Prop
  | .slot _ => False
  | .value v => v ∈ resultValues await

/-- Every await lists what some execution path that continues from it still reads. -/
def SuspensionComplete : Prop :=
  ∀ b ∈ f.blocks, ∀ i await, b.instructions[i]? = some await → await.opcode = .Await →
    ∀ x, ¬ OwnResult await x → ReadLater f x b (i + 1) → (suspensionPoint f b i await).Lists x

/-- What is still read on some execution path from an await is read on a path along normal edges
    as well. -/
def ReadNormallyToo : Prop :=
  ∀ b ∈ f.blocks, ∀ i await, b.instructions[i]? = some await → await.opcode = .Await →
    ∀ x, ¬ OwnResult await x → ReadLater f x b (i + 1) → ReadNormally f x b (i + 1)

end

section
variable {f : Function} {x : Storage}
variable {b : BasicBlock} {id : BlockId} {pc : Nat} {i : Nat}

theorem block_of_mem_reversePostOrder (hid : id ∈ reversePostOrder f) :
    ∃ b, f.block id = some b := by
  obtain ⟨hmem, hne⟩ := (reversePostOrder_closed f).2.2 id hid
  obtain ⟨b, hb, hbid⟩ := List.mem_map.mp hmem
  rw [Function.block, if_neg hne]
  cases hfind : f.blocks.find? (·.id == id) with
  | some c => exact ⟨c, rfl⟩
  | none =>
    have hno := List.find?_eq_none.mp hfind b hb
    simp [hbid] at hno

/-- The exit fact of a block is exact. -/
theorem liveOut_has : (liveOut f id).Has x ↔ id ∈ reversePostOrder f ∧
    ∃ c ∈ successors f id, LiveFrom f.block (successors f) LiveGen LiveKill x c := by
  have hpasses : (reversePostOrder f).length < f.blocks.length + 8 := by
    have := length_reversePostOrder_le f
    omega
  obtain ⟨hsound, hcomplete⟩ := solveBackward_spec genKill_transferLiveness
    (reversePostOrder_closed f).2.1 (fun _ => block_of_mem_reversePostOrder) hpasses id
  unfold liveOut solveLiveness
  constructor
  · intro hlive
    cases hout : (solveBackward f.block (successors f) transferLiveness {} (reversePostOrder f)
        (f.blocks.length + 8)).output id with
    | none =>
      rw [hout] at hlive
      exact absurd hlive (genKill_transferLiveness.boundary x)
    | some o =>
      rw [hout] at hlive
      obtain ⟨hid, hlives⟩ := hsound o hout
      exact ⟨hid, hlives x hlive⟩
  · rintro ⟨hid, hlive⟩
    obtain ⟨o, hout, hhas⟩ := hcomplete hid
    rw [hout]
    exact hhas x hlive

theorem liveAfter_has :
    (liveAfter f b i).Has x ↔ LiveAt f x b (i + 1) := by
  rw [liveAfter, foldr_applyLiveStep_has, addTerminatorUses_has, liveOut_has]
  rfl

theorem LiveAt.liveFrom {c : BasicBlock} (hc : f.block id = some c) (hbound : ¬ BoundOnEntry c x)
    (hlive : LiveAt f x c 0) :
    LiveFrom f.block (successors f) LiveGen LiveKill x id := by
  unfold LiveAt at hlive
  rw [List.drop_zero] at hlive
  obtain hreads | ⟨huntouched, hreads | ⟨-, next, hedge, hnext⟩⟩ := hlive
  · exact .gen hc ⟨Or.inl hreads, hbound⟩
  · exact .gen hc ⟨Or.inr ⟨huntouched, hreads⟩, hbound⟩
  · refine .pass hc (not_or.mpr ⟨not_not.mpr huntouched, hbound⟩) ?_ hnext
    rw [← (Function.block_eq_some hc).2.2]
    exact hedge

theorem LiveAt.step {b : BasicBlock} {pc : Nat} {instruction : Instruction}
    (hget : b.instructions[pc]? = some instruction) :
    LiveAt f x b pc ↔
      Reads instruction x ∨ (¬ Writes instruction x ∧ LiveAt f x b (pc + 1)) := by
  obtain ⟨hlt, rfl⟩ := List.getElem?_eq_some_iff.mp hget
  unfold LiveAt
  rw [List.drop_eq_getElem_cons hlt, ReadsFirst]
  simp only [Untouched, List.forall_mem_cons]
  tauto

theorem LiveAt.of_readNormally (hread : ReadNormally f x b pc) :
    LiveAt f x b pc := by
  induction hread with
  | read hget hreads => exact (LiveAt.step hget).mpr (Or.inl hreads)
  | terminator hreads =>
    refine Or.inr ⟨?_, Or.inl hreads⟩
    simp [Untouched]
  | step hget hkept _ ih => exact (LiveAt.step hget).mpr (Or.inr ⟨hkept, ih⟩)
  | @follow b c pc hedge _ ih =>
    obtain ⟨rfl, hreached, ⟨id, hid, hc⟩, hbound⟩ := hedge
    refine Or.inr ⟨?_, Or.inr ⟨hreached, id, hid, ih.liveFrom hc hbound⟩⟩
    simp [Untouched]

theorem ReadNormally.of_rest {rest : List Instruction} (hdrop : b.instructions.drop pc = rest)
    (hpc : pc ≤ b.instructions.length)
    (hrest : ReadsFirst x rest ∨ (Untouched x rest ∧ ReadNormally f x b b.instructions.length)) :
    ReadNormally f x b pc := by
  induction rest generalizing pc with
  | nil =>
    have hend : pc = b.instructions.length := by
      have hle := List.drop_eq_nil_iff.mp hdrop
      omega
    subst hend
    exact (hrest.resolve_left id).2
  | cons instruction rest ih =>
    have hget : b.instructions[pc]? = some instruction := by
      rw [← List.head?_drop, hdrop, List.head?_cons]
    obtain ⟨hlt, -⟩ := List.getElem?_eq_some_iff.mp hget
    have hdrop' : b.instructions.drop (pc + 1) = rest := by
      rw [← List.tail_drop, hdrop, List.tail_cons]
    obtain (hreads | ⟨hkept, hreads⟩) | ⟨huntouched, hend⟩ := hrest
    · exact .read hget hreads
    · exact .step hget hkept (ih hdrop' hlt (Or.inl hreads))
    · obtain ⟨hkept, huntouched⟩ := List.forall_mem_cons.mp huntouched
      exact .step hget hkept (ih hdrop' hlt (Or.inr ⟨huntouched, hend⟩))

theorem ReadNormally.of_liveFrom (hid : id ∈ reversePostOrder f)
    (hlive : LiveFrom f.block (successors f) LiveGen LiveKill x id) :
    ∃ c, f.block id = some c ∧ ¬ BoundOnEntry c x ∧ ReadNormally f x c 0 := by
  induction hlive with
  | @gen id c hc hgen =>
    obtain ⟨hgen, hbound⟩ := hgen
    refine ⟨c, hc, hbound, .of_rest rfl (Nat.zero_le _) ?_⟩
    rw [List.drop_zero]
    exact hgen.imp_right fun ⟨huntouched, hreads⟩ => ⟨huntouched, .terminator hreads⟩
  | @pass id next c hc hkill hedge _ ih =>
    obtain ⟨huntouched, hbound⟩ := not_or.mp hkill
    obtain ⟨d, hd, hdbound, hread⟩ := ih ((reversePostOrder_closed f).2.1 id hid next hedge)
    have hcid := (Function.block_eq_some hc).2.2
    refine ⟨c, hc, hbound, .of_rest rfl (Nat.zero_le _) (Or.inr ⟨?_, .follow ?_ hread⟩)⟩
    · rw [List.drop_zero]
      exact not_not.mp huntouched
    · exact ⟨rfl, hcid ▸ hid, ⟨next, hcid ▸ hedge, hd⟩, hdbound⟩

theorem readNormally_iff_liveAt (hpc : pc ≤ b.instructions.length) :
    ReadNormally f x b pc ↔ LiveAt f x b pc := by
  refine ⟨LiveAt.of_readNormally, fun hlive => .of_rest rfl hpc ?_⟩
  refine hlive.imp_right fun ⟨huntouched, hend⟩ => ⟨huntouched, ?_⟩
  obtain hreads | ⟨hreached, id, hid, hlive⟩ := hend
  · exact .terminator hreads
  · obtain ⟨c, hc, hbound, hread⟩ :=
      ReadNormally.of_liveFrom ((reversePostOrder_closed f).2.1 b.id hreached id hid) hlive
    exact .follow ⟨rfl, hreached, ⟨id, hid, hc⟩, hbound⟩ hread

theorem suspensionPoint_lists_iff_has {await : Instruction} :
    (suspensionPoint f b i await).Lists x ↔ (liveAfter f b i).Has x ∧ ¬ OwnResult await x := by
  cases x with
  | slot s =>
    have hslot : ∀ s, (suspendedSlot f s).slot = s := by
      intro s
      unfold suspendedSlot
      split <;> rfl
    simp [SuspensionPoint.Lists, suspensionPoint, OwnResult, LivenessFact.Has, hslot]
  | value v =>
    simp [SuspensionPoint.Lists, suspensionPoint, OwnResult, LivenessFact.Has, Function.comp_def]

/-- A suspension point lists exactly what a path along normal edges still reads, but for the
    result of the await. -/
theorem suspensionPoint_lists {await : Instruction} (hget : b.instructions[i]? = some await) :
    (suspensionPoint f b i await).Lists x ↔ ReadNormally f x b (i + 1) ∧ ¬ OwnResult await x := by
  obtain ⟨hlt, -⟩ := List.getElem?_eq_some_iff.mp hget
  rw [readNormally_iff_liveAt (Nat.succ_le_of_lt hlt), ← liveAfter_has, suspensionPoint_lists_iff_has]

end

/-- The awaits of a function list what every execution path still reads exactly if paths through
    handlers read nothing that paths along normal edges do not: those are the paths the backward
    solver follows, and it follows them to the end. -/
theorem suspensionComplete_iff (f : Function) : SuspensionComplete f ↔ ReadNormallyToo f := by
  constructor
  · intro hcomplete b hb i await hget hawait x hown hread
    exact ((suspensionPoint_lists hget).mp (hcomplete b hb i await hget hawait x hown hread)).1
  · intro hnormal b hb i await hget hawait x hown hread
    exact (suspensionPoint_lists hget).mpr ⟨hnormal b hb i await hget hawait x hown hread, hown⟩

/-- The try that awaits before it overwrites a local. -/
def awaitBlock : BasicBlock where
  id := 2
  instructions := [
    { opcode := .Await, operands := [.param 0 5] },
    { opcode := .Store, operands := [.param 1 2], slot := 1 }]
  terminator := { kind := .Jump, target := 4 }
  exceptionHandlers := [{ catchType := 2, block := 3, catchSlot := 2 }]

/-- The catch block that reads the local. -/
def readBlock : BasicBlock where
  id := 3
  kind := .Catch
  instructions := [{ opcode := .Load, result := 1, resultType := 2, slot := 1 }]
  terminator := { kind := .Return, value := .temp 1 2 }

/-- A local is set, an await in a try may fail, and the catch returns the local. -/
def readAfterFailure : Function := Function.rebuildEdges {
  name := "readAfterFailure"
  parameters := [{ name := "task", type := 5 }, { name := "n", type := 2 }]
  returnType := 2
  slots := [{ name := "x", type := 2 }, { name := "e", type := 2 }]
  isAsync := true
  entryBlock := 1
  blocks := [
    { id := 1
      instructions := [{ opcode := .Store, operands := [.param 1 2], slot := 1 }]
      terminator := { kind := .Jump, target := 2 } },
    awaitBlock,
    readBlock,
    { id := 4, terminator := { kind := .Return, value := .param 1 2 } }] }

/-- The point of an await in a try leaves out a slot that only the catch block reads. -/
theorem suspensionPoint_misses_slot : ¬ ∀ f, SuspensionComplete f := by
  intro hclaim
  have hread : ReadLater readAfterFailure (.slot 1) readBlock 0 :=
    .read (show readBlock.instructions[0]? =
      some { opcode := .Load, result := 1, resultType := 2, slot := 1 } from rfl)
      ⟨rfl, rfl, by decide⟩
  have hlater : ReadLater readAfterFailure (.slot 1) awaitBlock 1 :=
    .follow (Or.inr ⟨by decide, _, List.mem_cons_self, rfl, by decide⟩) hread
  have hlists := hclaim readAfterFailure awaitBlock (by decide) 0 _ rfl rfl (.slot 1) id hlater
  have hmissed : (1 : SlotId) ∉ (liveAfter readAfterFailure awaitBlock 0).slots := by decide +kernel
  exact hmissed (suspensionPoint_lists_iff_has.mp hlists).1

end zl.mir
