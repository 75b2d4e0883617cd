import Zl.Mir.Effects

open Relation zl.graph

namespace zl.mir

/-- No two blocks of the function carry the same id. -/
def Function.DistinctIds (f : Function) : Prop := (f.blocks.map (·.id)).Nodup

instance (f : Function) : Decidable f.DistinctIds := inferInstanceAs (Decidable (List.Nodup _))

theorem Function.DistinctIds.eq {f : Function} (hids : f.DistinctIds) {b c : BasicBlock}
    (hb : b ∈ f.blocks) (hc : c ∈ f.blocks) (h : b.id = c.id) : b = c :=
  List.inj_on_of_nodup_map hids hb hc h

namespace ControlFlowGraph

variable {f : Function}

theorem blockAt_mem {id : BlockId} {b : BasicBlock} (h : blockAt f id = some b) :
    b ∈ f.blocks ∧ b.id = id := by
  refine ⟨List.mem_reverse.mp (List.mem_of_find?_eq_some h), ?_⟩
  simpa using List.find?_some h

theorem blockAt_eq_some (hids : f.DistinctIds) {id : BlockId} {b : BasicBlock} :
    blockAt f id = some b ↔ b ∈ f.blocks ∧ b.id = id := by
  refine ⟨blockAt_mem, ?_⟩
  rintro ⟨hb, rfl⟩
  cases hfind : blockAt f b.id with
  | none =>
    have hnone := List.find?_eq_none.mp hfind b (List.mem_reverse.mpr hb)
    simp at hnone
  | some c =>
    obtain ⟨hc, hid⟩ := blockAt_mem hfind
    rw [hids.eq hc hb hid]

theorem blockAt_of_block (hids : f.DistinctIds) {id : BlockId} {b : BasicBlock}
    (h : f.block id = some b) : b ∈ f.blocks ∧ b.id = id ∧ blockAt f id = some b := by
  obtain ⟨-, hmem, hid⟩ := Function.block_eq_some h
  exact ⟨hmem, hid, (blockAt_eq_some hids).mpr ⟨hmem, hid⟩⟩

theorem isValid_iff {id : BlockId} : isValid f id = true ↔ id ∈ f.blocks.map (·.id) := by
  simp [isValid]

theorem isValid_of_mem {b : BasicBlock} (hb : b ∈ f.blocks) : isValid f b.id = true :=
  isValid_iff.mpr (List.mem_map_of_mem hb)

theorem mem_successors {a b : BlockId} :
    b ∈ successors f a ↔
      ∃ c, blockAt f a = some c ∧ b ∈ c.terminator.successors ∧ isValid f b = true := by
  unfold successors
  cases blockAt f a with
  | none => simp
  | some c => simp

/-- An edge a terminator names leads to a successor in the sense of the queries. -/
theorem mem_successors_of_block (hids : f.DistinctIds) {b c : BasicBlock} (hb : b ∈ f.blocks)
    {id : BlockId} (hedge : id ∈ b.terminator.successors) (hc : f.block id = some c) :
    c ∈ f.blocks ∧ c.id ∈ successors f b.id := by
  obtain ⟨hcmem, hid, -⟩ := blockAt_of_block hids hc
  refine ⟨hcmem, mem_successors.mpr ⟨b, (blockAt_eq_some hids).mpr ⟨hb, rfl⟩, hid ▸ hedge, ?_⟩⟩
  exact isValid_of_mem hcmem

theorem mem_unwindSuccessors {a b : BlockId} :
    b ∈ unwindSuccessors f a ↔ ∃ c, blockAt f a = some c ∧ b ∈ handlerTargets f c := by
  unfold unwindSuccessors
  cases blockAt f a with
  | none => simp
  | some c => simp

theorem mem_handlerTargets {c : BasicBlock} {b : BlockId} :
    b ∈ handlerTargets f c ↔
      ∃ h ∈ c.exceptionHandlers, h.block = b ∧ b ≠ kNoBlock ∧ isValid f b = true := by
  simp [handlerTargets]
  tauto

theorem isValid_of_mem_successors {a b : BlockId} (h : b ∈ successors f a) : isValid f b = true := by
  obtain ⟨_, -, -, hvalid⟩ := mem_successors.mp h
  exact hvalid

theorem isValid_of_mem_unwindSuccessors {a b : BlockId} (h : b ∈ unwindSuccessors f a) :
    isValid f b = true := by
  obtain ⟨_, -, hmem⟩ := mem_unwindSuccessors.mp h
  obtain ⟨_, -, -, -, hvalid⟩ := mem_handlerTargets.mp hmem
  exact hvalid

theorem mem_predecessors_of_mem_successors {a b : BlockId} (h : b ∈ successors f a) :
    a ∈ predecessors f b := by
  obtain ⟨c, hc, hmem, hvalid⟩ := mem_successors.mp h
  obtain ⟨hcf, hid⟩ := blockAt_mem hc
  rw [predecessors, if_pos hvalid, List.mem_flatMap]
  refine ⟨c, hcf, List.mem_map.mpr ⟨b, ?_, hid⟩⟩
  exact List.mem_filter.mpr ⟨hmem, by simp⟩

theorem mem_predecessors (hids : f.DistinctIds) {a b : BlockId} :
    a ∈ predecessors f b ↔ b ∈ successors f a := by
  refine ⟨fun h => ?_, mem_predecessors_of_mem_successors⟩
  rw [predecessors] at h
  split at h
  case isFalse => cases h
  case isTrue hvalid =>
    obtain ⟨c, hc, hmem⟩ := List.mem_flatMap.mp h
    obtain ⟨s, hs, hid⟩ := List.mem_map.mp hmem
    obtain ⟨hs, heq⟩ := List.mem_filter.mp hs
    have heq : s = b := by simpa using heq
    exact mem_successors.mpr ⟨c, (blockAt_eq_some hids).mpr ⟨hc, hid⟩, heq ▸ hs, hvalid⟩

theorem mem_unwindPredecessors (hids : f.DistinctIds) {a b : BlockId} :
    a ∈ unwindPredecessors f b ↔ b ∈ unwindSuccessors f a := by
  rw [mem_unwindSuccessors, unwindPredecessors, List.mem_flatMap]
  constructor
  · rintro ⟨c, hc, hmem⟩
    obtain ⟨t, ht, hid⟩ := List.mem_map.mp hmem
    obtain ⟨ht, heq⟩ := List.mem_filter.mp ht
    have heq : t = b := by simpa using heq
    exact ⟨c, (blockAt_eq_some hids).mpr ⟨hc, hid⟩, heq ▸ ht⟩
  · rintro ⟨c, hc, hmem⟩
    obtain ⟨hcf, hid⟩ := blockAt_mem hc
    exact ⟨c, hcf, List.mem_map.mpr ⟨b, List.mem_filter.mpr ⟨hmem, by simp⟩, hid⟩⟩

/-- An edge along which control can pass: to a successor or into a handler. -/
def MixedEdge (f : Function) (a b : BlockId) : Prop :=
  b ∈ successors f a ∨ b ∈ unwindSuccessors f a

private theorem mem_bound {next : BlockId → List BlockId}
    (hvalid : ∀ a b, b ∈ next a → isValid f b = true) {start v : BlockId}
    (h : ReflTransGen (fun a b => b ∈ next a) start v) :
    v = start ∨ v ∈ f.blocks.map (·.id) := by
  cases h with
  | refl => exact Or.inl rfl
  | tail _ hedge => exact Or.inr (isValid_iff.mp (hvalid _ _ hedge))

theorem mem_reachable (hentry : f.entryBlock ≠ kNoBlock) {v : BlockId} :
    v ∈ reachable f ↔ ReflTransGen (fun a b => b ∈ successors f a) f.entryBlock v := by
  have hbound : ∀ s ∈ [f.entryBlock], ∀ w, ReflTransGen (fun a b => b ∈ successors f a) s w →
      w ∈ f.entryBlock :: f.blocks.map (·.id) := by
    intro s hs w hw
    rw [List.mem_singleton.mp hs] at hw
    exact List.mem_cons.mpr (mem_bound (fun _ _ => isValid_of_mem_successors) hw)
  have hfuel : (f.entryBlock :: f.blocks.map (·.id)).length ≤ searchFuel f := by simp [searchFuel]
  rw [reachable, if_neg hentry, mem_breadthFirst_iff (List.nodup_singleton _) hbound hfuel]
  simp

/-- The blocks the second traversal finds are those on some path along edges of both kinds. -/
theorem mem_reachableWithUnwind (hentry : f.entryBlock ≠ kNoBlock) {v : BlockId} :
    v ∈ reachableWithUnwind f ↔ ReflTransGen (MixedEdge f) f.entryBlock v := by
  have hmem : ∀ w, w ∈ reachable f ↔ ReflTransGen (fun a b => b ∈ successors f a) f.entryBlock w :=
    fun w => mem_reachable hentry
  have hnodup : (reachable f).Nodup := by
    rw [reachable, if_neg hentry]
    exact nodup_breadthFirst (List.nodup_singleton _)
  have hvalid : ∀ a b, b ∈ successors f a ++ unwindSuccessors f a → isValid f b = true := by
    intro a b h
    rcases List.mem_append.mp h with h | h
    · exact isValid_of_mem_successors h
    · exact isValid_of_mem_unwindSuccessors h
  have hbound : ∀ s ∈ reachable f, ∀ w,
      ReflTransGen (fun a b => b ∈ successors f a ++ unwindSuccessors f a) s w →
      w ∈ f.entryBlock :: f.blocks.map (·.id) := by
    intro s hs w hw
    rcases mem_bound hvalid hw with rfl | hw
    · exact List.mem_cons.mpr (mem_bound (fun _ _ => isValid_of_mem_successors) ((hmem _).mp hs))
    · exact List.mem_cons_of_mem _ hw
  have hfuel : (f.entryBlock :: f.blocks.map (·.id)).length ≤ searchFuel f := by simp [searchFuel]
  rw [reachableWithUnwind, mem_breadthFirst_iff hnodup hbound hfuel]
  simp only [List.mem_append]
  constructor
  · rintro ⟨s, hs, hpath⟩
    have hstart : ReflTransGen (MixedEdge f) f.entryBlock s :=
      ReflTransGen.mono (fun _ _ h => Or.inl h) _ _ ((hmem s).mp hs)
    exact hstart.trans hpath
  · intro hpath
    exact ⟨f.entryBlock, (hmem _).mpr .refl, hpath⟩

variable {f : Function}

/-- The invariant the search for the reverse post-order ends with. -/
theorem reversePostOrder_invariant (hentry : f.entryBlock ≠ kNoBlock)
    (hvalid : isValid f f.entryBlock = true) :
    ∃ visited, DepthFirstInvariant (successors f) f.entryBlock visited [] (reversePostOrder f) := by
  have hbound : ∀ v, ReflTransGen (fun a b => b ∈ successors f a) f.entryBlock v →
      v ∈ f.blocks.map (·.id) := by
    intro v hv
    cases hv with
    | refl => exact isValid_iff.mp hvalid
    | tail _ hedge => exact isValid_iff.mp (isValid_of_mem_successors hedge)
  obtain ⟨visited, hinv⟩ := depthFirst_invariant hbound (Nat.le_refl _)
  have horder : reversePostOrder f = depthFirst (successors f)
      (searchCost (successors f) (f.blocks.map (·.id))) [f.entryBlock]
      [(f.entryBlock, successors f f.entryBlock)] [] := by
    rw [reversePostOrder, if_neg (by simp [hentry, hvalid])]
  rw [← horder] at hinv
  exact ⟨visited, hinv⟩

/-- The order holds each block once, with its successors, and each of them exists. -/
theorem reversePostOrder_closed (f : Function) :
    (reversePostOrder f).Nodup ∧ (∀ a ∈ reversePostOrder f, ∀ b ∈ successors f a,
      b ∈ reversePostOrder f) ∧ ∀ a ∈ reversePostOrder f, a ∈ f.blocks.map (·.id) ∧ a ≠ kNoBlock := by
  by_cases hentry : f.entryBlock = kNoBlock ∨ isValid f f.entryBlock = false
  · rw [reversePostOrder, if_pos hentry]
    simp
  · obtain ⟨hentry, hvalid⟩ : f.entryBlock ≠ kNoBlock ∧ isValid f f.entryBlock = true := by
      simpa using hentry
    obtain ⟨visited, hinv⟩ := reversePostOrder_invariant hentry hvalid
    have hmem : ∀ v, v ∈ visited ↔ v ∈ reversePostOrder f := by
      intro v
      simpa using hinv.visited_iff v
    refine ⟨by simpa using hinv.nodup, fun a ha b hb => (hmem b).mp (hinv.closed a ha b hb), ?_⟩
    intro a ha
    cases hinv.sound a ((hmem a).mpr ha) with
    | refl => exact ⟨isValid_iff.mp hvalid, hentry⟩
    | tail _ hedge =>
      obtain ⟨_, -, hsucc, hvalid⟩ := mem_successors.mp hedge
      exact ⟨isValid_iff.mp hvalid, Terminator.successors_ne_kNoBlock hsucc⟩

theorem length_reversePostOrder_le (f : Function) : (reversePostOrder f).length ≤ f.blocks.length := by
  obtain ⟨hnodup, -, hmem⟩ := reversePostOrder_closed f
  have hle := (hnodup.subperm fun a ha => (hmem a ha).1).length_le
  simpa using hle

/-- The reverse post-order of a function whose entry exists starts with the entry and is a search
    order of the blocks along normal edges. -/
theorem reversePostOrder_spec (hids : f.DistinctIds) (hentry : f.entryBlock ≠ kNoBlock)
    (hvalid : isValid f f.entryBlock = true) :
    ∃ rest, reversePostOrder f = f.entryBlock :: rest ∧
      SearchOrder f.entryBlock rest (predecessors f) := by
  obtain ⟨visited, hinv⟩ := reversePostOrder_invariant hentry hvalid
  have hmem : ∀ v, v ∈ visited ↔ v ∈ reversePostOrder f := by
    intro v
    simpa using hinv.visited_iff v
  have hhead : (reversePostOrder f).head? = some f.entryBlock := by simpa using hinv.bottom
  have hnodup : (reversePostOrder f).Nodup := by simpa using hinv.nodup
  obtain ⟨rest, hrest⟩ := List.head?_eq_some_iff.mp hhead
  refine ⟨rest, hrest, ?_, ?_, ?_⟩
  · exact hrest ▸ hnodup
  · intro b hb
    have hb' : b ∈ reversePostOrder f := hrest ▸ List.mem_cons_of_mem _ hb
    have hne : b ≠ f.entryBlock := by
      rintro rfl
      rw [hrest] at hnodup
      exact (List.nodup_cons.mp hnodup).1 hb
    obtain ⟨p, hedge, hp⟩ := hinv.parent b hb' hne
    have hprecedes : Precedes p b (reversePostOrder f) := by simpa using hp
    obtain ⟨before, after, hsplit, -⟩ := hprecedes
    refine ⟨p, mem_predecessors_of_mem_successors hedge, ?_, ?_⟩
    · rw [← hrest, hsplit]
      simp
    · rw [← hrest]
      exact Precedes.idxOf_lt hnodup (by simpa using hp)
  · intro b p hp hpred
    rw [← hrest] at hp ⊢
    rw [mem_predecessors hids] at hpred
    exact (hmem b).mp (hinv.closed p hp b hpred)

variable {f : Function}

private theorem above_of_climbsTo {idom : BlockId → Option BlockId}
    (hidom : computeDominators f = some idom) {dominator : BlockId} (hne : dominator ≠ kNoBlock)
    {fuel : Nat} {block : BlockId} (h : climbsTo f dominator fuel block = true) :
    Above (parentOf idom) block dominator := by
  have hparent : ∀ b, immediateDominator f b ≠ kNoBlock →
      parentOf idom b = immediateDominator f b := by
    intro b hb
    unfold immediateDominator at hb ⊢
    rw [hidom] at hb ⊢
    simp only at hb ⊢
    cases hfound : idom b with
    | none =>
      rw [hfound] at hb
      exact absurd rfl hb
    | some parent =>
      rw [hfound] at hb
      simp only at hb ⊢
      by_cases heq : parent = b
      · rw [if_pos heq] at hb
        exact absurd rfl hb
      · rw [if_neg heq]
        exact parentOf_of_eq_some hfound
  induction fuel generalizing block with
  | zero => cases h
  | succ fuel ih =>
    unfold climbsTo at h
    by_cases hblock : block = kNoBlock
    · simp [hblock] at h
    · rw [if_neg hblock] at h
      simp only at h
      by_cases hnext : immediateDominator f block = dominator
      · refine ⟨1, ?_⟩
        rw [Function.iterate_one, hparent block (hnext ▸ hne), hnext]
      · rw [if_neg hnext] at h
        by_cases hstop : immediateDominator f block = kNoBlock ∨ immediateDominator f block = block
        · rw [if_pos hstop] at h
          cases h
        · rw [if_neg hstop] at h
          refine Above.step ?_
          rw [hparent block fun hnone => hstop (Or.inl hnone)]
          exact ih h

/-- Whatever `dominates` confirms lies on every path along normal edges. -/
theorem dominates_sound (hids : f.DistinctIds) {dominator block : BlockId}
    (hne : dominator ≠ kNoBlock) (h : dominates f dominator block = true) :
    Dominates (fun a b => b ∈ successors f a) f.entryBlock dominator block := by
  rw [dominates] at h
  by_cases hinvalid : isValid f dominator = false ∨ isValid f block = false
  · rw [if_pos hinvalid] at h
    cases h
  rw [if_neg hinvalid] at h
  by_cases heq : dominator = block
  · exact fun havoids => havoids.ne heq.symm
  rw [if_neg heq] at h
  by_cases hentry : f.entryBlock = kNoBlock ∨ isValid f f.entryBlock = false
  · have htable : computeDominators f = some fun _ => none := by
      rw [computeDominators, reversePostOrder, if_pos hentry]
    obtain ⟨k, hk⟩ := above_of_climbsTo htable hne h
    have hfix : parentOf (fun _ : BlockId => none) block = block := rfl
    rw [Function.iterate_fixed hfix] at hk
    exact absurd hk.symm heq
  · obtain ⟨hentry, hvalid⟩ : f.entryBlock ≠ kNoBlock ∧ isValid f f.entryBlock = true := by
      simpa using hentry
    obtain ⟨rest, horder, hsearch⟩ := reversePostOrder_spec hids hentry hvalid
    cases htable : computeDominators f with
    | none =>
      have hnone : ∀ b, immediateDominator f b = kNoBlock := by
        intro b
        rw [immediateDominator, htable]
      rw [searchFuel, climbsTo, hnone] at h
      simp [hne.symm] at h
    | some idom =>
      have hend := htable
      rw [computeDominators, horder] at hend
      have hsolution := whileChanged_solution hsearch (by simp) (IdomTable.rootIdom _ rest) hend
      have hdominates := hsolution.dominates hsearch (above_of_climbsTo htable hne h)
      intro havoids
      refine hdominates ⟨havoids.1, ?_⟩
      refine ReflTransGen.mono (fun a b hstep => ?_) _ _ havoids.2
      exact ⟨(mem_predecessors hids).mpr hstep.1, hstep.2⟩

end ControlFlowGraph

end zl.mir
