import Zl.Graph.DominatorRounds
import Zl.Mir.Reachability

open Relation zl.graph zl.fixpoint

namespace zl.mir.ControlFlowGraph

def strictlyDominates (f : Function) (dominator block : BlockId) : Bool :=
  dominator != block && dominates f dominator block

/-- The walk from a predecessor of a join up to the immediate dominator of the join. The
    guard allows more rounds than a chain has blocks. -/
def frontierWalk (f : Function) (stop : BlockId) : Nat → BlockId → List BlockId
  | 0, _ => []
  | guard + 1, runner =>
    if runner = kNoBlock ∨ runner = stop then []
    else
      let next := immediateDominator f runner
      runner :: if next = runner then [] else frontierWalk f stop guard next

/-- The blocks to whose frontier a block is added. -/
def frontierOwners (f : Function) (block : BlockId) : List BlockId :=
  if isReachable f block = false then []
  else
    let preds := ((predecessors f block).insertionSort (· ≤ ·)).dedup
    if preds.length < 2 then []
    else
      let stop := immediateDominator f block
      preds.flatMap fun pred =>
        if stop = kNoBlock ∨ isReachable f pred = false then [] else frontierWalk f stop
          (f.blocks.length + 2) pred

def dominanceFrontier (f : Function) (id : BlockId) : List BlockId :=
  if isValid f id then
    (((f.blocks.map (·.id)).filter fun block => decide (id ∈ frontierOwners f block)).insertionSort
      (· ≤ ·)).dedup
  else []

section
variable {f : Function} {a b : BlockId}

theorem normalEdge_eq (hids : f.DistinctIds) : (fun v w => v ∈ predecessors f w) = fun v w =>
    w ∈ successors f v := by
  funext v w
  exact propext (mem_predecessors hids)

/-- The order holds exactly the reachable blocks. -/
theorem mem_reversePostOrder_iff (hentry : f.entryBlock ≠ kNoBlock)
    (hvalid : isValid f f.entryBlock = true) :
    a ∈ reversePostOrder f ↔ isReachable f a = true := by
  obtain ⟨visited, hinv⟩ := reversePostOrder_invariant hentry hvalid
  have hvisited : ∀ v, v ∈ visited ↔ v ∈ reversePostOrder f := by
    intro v
    simpa using hinv.visited_iff v
  rw [isReachable, decide_eq_true_iff, mem_reachable hentry]
  constructor
  · exact fun ha => hinv.sound a ((hvisited a).mpr ha)
  · intro hpath
    induction hpath with
    | refl =>
      have hhead : (reversePostOrder f).head? = some f.entryBlock := by simpa using hinv.bottom
      exact List.mem_of_mem_head? hhead
    | tail _ hedge ih => exact (reversePostOrder_closed f).2.1 _ ih _ hedge

theorem entry_of_reachable (hvalid : isValid f a = true) (hreachable : isReachable f a = true) :
    f.entryBlock ≠ kNoBlock ∧ isValid f f.entryBlock = true := by
  have hentry : f.entryBlock ≠ kNoBlock := by
    intro hnone
    rw [isReachable, reachable, if_pos hnone] at hreachable
    cases hreachable
  rw [isReachable, decide_eq_true_iff, mem_reachable hentry] at hreachable
  refine ⟨hentry, ?_⟩
  cases ReflTransGen.cases_head hreachable with
  | inl heq => exact heq ▸ hvalid
  | inr hstep =>
    obtain ⟨_, hedge, -⟩ := hstep
    obtain ⟨c, hat, -⟩ := mem_successors.mp hedge
    exact (blockAt_mem hat).2 ▸ isValid_of_mem (blockAt_mem hat).1

/-- The table of immediate dominators after some rounds, when some blocks had their turn in the next
    one. -/
def idomsAt (f : Function) (rounds : Nat) (done : List BlockId) : BlockId → Option BlockId :=
  match reversePostOrder f with
  | [] => fun _ => none
  | entry :: rest => tableAt (entry :: rest).idxOf (2 * (rest.length + 1) + 1) (predecessors f) rest
      (rootIdom entry) rounds done

/-- A table with exactly the dominators of each block of a search order on its chain. -/
structure DominatorTable (f : Function) (rest : List BlockId) (idom : BlockId → Option BlockId) :
    Prop where
  order : reversePostOrder f = f.entryBlock :: rest
  search : SearchOrder f.entryBlock rest (predecessors f)
  computed : computeDominators f = some idom
  solution : Solution f.entryBlock rest (predecessors f) idom
  complete : Complete f.entryBlock rest (predecessors f) idom

theorem exists_dominatorTable (hids : f.DistinctIds) (hentry : f.entryBlock ≠ kNoBlock)
    (hvalid : isValid f f.entryBlock = true) :
    ∃ rest idom, DominatorTable f rest idom := by
  obtain ⟨rest, horder, hsearch⟩ := reversePostOrder_spec hids hentry hvalid
  obtain ⟨idom, hend, -, hcomplete⟩ := hsearch.whileChanged_isSome (Nat.lt_succ_self _) (Nat.le_refl _)
  have hcomputed : computeDominators f = some idom := by
    rw [computeDominators, horder]
    exact hend
  exact ⟨rest, idom, horder, hsearch, hcomputed,
    whileChanged_solution hsearch (by simp) (IdomTable.rootIdom _ rest) hend, hcomplete⟩

namespace DominatorTable

variable {rest : List BlockId} {idom : BlockId → Option BlockId} (h : DominatorTable f rest idom)
include h

theorem mem_iff (hentry : f.entryBlock ≠ kNoBlock) (hvalid : isValid f f.entryBlock = true) :
    a ∈ f.entryBlock :: rest ↔ isReachable f a = true := h.order ▸ mem_reversePostOrder_iff hentry hvalid

theorem ne_kNoBlock (ha : a ∈ f.entryBlock :: rest) : a ≠ kNoBlock :=
  ((reversePostOrder_closed f).2.2 a (h.order ▸ ha)).2

theorem isValid (ha : a ∈ f.entryBlock :: rest) : isValid f a = true :=
  isValid_iff.mpr ((reversePostOrder_closed f).2.2 a (h.order ▸ ha)).1

theorem parentOf_ne (ha : a ∈ rest) : parentOf idom a ≠ a := by
  obtain ⟨y, hy⟩ := Option.isSome_iff_exists.mp (h.solution.all a (List.mem_cons_of_mem _ ha))
  have hroot : a ≠ f.entryBlock := by
    rintro rfl
    exact (List.nodup_cons.mp h.search.nodup).1 ha
  have hlt := (h.solution.table.parent a y hy hroot).2
  rw [parentOf_of_eq_some hy]
  rintro rfl
  exact Nat.lt_irrefl _ hlt

theorem immediateDominator_eq (ha : a ∈ rest) : immediateDominator f a = parentOf idom a := by
  obtain ⟨y, hy⟩ := Option.isSome_iff_exists.mp (h.solution.all a (List.mem_cons_of_mem _ ha))
  have hne := h.parentOf_ne ha
  rw [parentOf_of_eq_some hy] at hne ⊢
  rw [immediateDominator, h.computed]
  simp only [hy, if_neg hne]

theorem parentOf_mem (ha : a ∈ f.entryBlock :: rest) : parentOf idom a ∈ f.entryBlock :: rest := by
  obtain ⟨y, hy⟩ := Option.isSome_iff_exists.mp (h.solution.table.climbs.dom_up a (h.solution.all a ha))
  exact h.solution.table.mem _ y hy

/-- The chain of a block holds exactly its dominators. -/
theorem above_iff (hids : f.DistinctIds) (ha : a ∈ f.entryBlock :: rest) :
    Above (parentOf idom) a b ↔ Dominates (fun v w => w ∈ successors f v) f.entryBlock b a := by
  rw [← normalEdge_eq hids]
  exact ⟨fun habove => h.solution.dominates h.search habove, fun hdom => h.complete a ha b hdom⟩

theorem climbsTo_of_above {fuel : Nat} (ha : a ∈ f.entryBlock :: rest) (hne : a ≠ b)
    (habove : Above (parentOf idom) a b)
    (hfuel : (f.entryBlock :: rest).idxOf a < fuel) : climbsTo f b fuel a = true := by
  induction fuel generalizing a with
  | zero => omega
  | succ fuel ih =>
    have hrest : a ∈ rest := by
      obtain rfl | hrest := List.mem_cons.mp ha
      · obtain ⟨k, hk⟩ := habove
        rw [Function.iterate_fixed (parentOf_of_eq_some h.solution.table.root_self)] at hk
        exact absurd hk hne
      · exact hrest
    have hparent := h.parentOf_mem ha
    rw [climbsTo, if_neg (h.ne_kNoBlock ha)]
    simp only [h.immediateDominator_eq hrest]
    by_cases hfound : parentOf idom a = b
    · rw [if_pos hfound]
    · rw [if_neg hfound, if_neg (not_or.mpr ⟨h.ne_kNoBlock hparent, h.parentOf_ne hrest⟩)]
      have hroot : a ≠ f.entryBlock := by
        rintro rfl
        exact (List.nodup_cons.mp h.search.nodup).1 hrest
      have hlt := h.solution.table.climbs.lt a (h.solution.all a ha) hroot
      exact ih hparent hfound (habove.up hne) (by omega)

theorem dominates_iff (hids : f.DistinctIds) (ha : a ∈ f.entryBlock :: rest)
    (hb : b ∈ f.entryBlock :: rest) :
    dominates f a b = true ↔ Above (parentOf idom) b a := by
  constructor
  · exact fun hdom => (h.above_iff hids hb).mpr (dominates_sound hids (h.ne_kNoBlock ha) hdom)
  · intro habove
    rw [dominates, if_neg (by simp [h.isValid ha, h.isValid hb])]
    by_cases heq : a = b
    · exact if_pos heq
    · rw [if_neg heq]
      refine h.climbsTo_of_above hb (Ne.symm heq) habove
        (Nat.lt_of_lt_of_le (List.idxOf_lt_length_iff.mpr hb) ?_)
      rw [← h.order]
      exact Nat.le_succ_of_le (length_reversePostOrder_le f)

theorem number_parentOf_lt (ha : a ∈ rest) : (f.entryBlock :: rest).idxOf (parentOf idom a) <
    (f.entryBlock :: rest).idxOf a := by
  refine h.solution.table.climbs.lt a (h.solution.all a (List.mem_cons_of_mem _ ha)) ?_
  rintro rfl
  exact (List.nodup_cons.mp h.search.nodup).1 ha

theorem number_above_le (ha : a ∈ f.entryBlock :: rest) (habove : Above (parentOf idom) a b) :
    (f.entryBlock :: rest).idxOf b ≤ (f.entryBlock :: rest).idxOf a :=
  h.solution.table.climbs.number_above_le (h.solution.all a ha) habove

theorem above_parent_iff (hb : b ∈ rest) : Above (parentOf idom) (parentOf idom b) a ↔
    b ≠ a ∧ Above (parentOf idom) b a := by
  constructor
  · intro habove
    refine ⟨?_, habove.step⟩
    rintro rfl
    have hle := h.number_above_le (h.parentOf_mem (List.mem_cons_of_mem _ hb)) habove
    have hlt := h.number_parentOf_lt hb
    omega
  · exact fun ⟨hne, habove⟩ => habove.up hne

theorem mem_frontierWalk {stop runner : BlockId} {guard : Nat} (hrunner : runner ∈ f.entryBlock :: rest)
    (hstop : Above (parentOf idom) runner stop) (hguard : (f.entryBlock :: rest).idxOf runner < guard) :
    a ∈ frontierWalk f stop guard runner ↔ Above (parentOf idom) runner a ∧
      ¬Above (parentOf idom) stop a := by
  induction guard generalizing runner with
  | zero => omega
  | succ guard ih =>
    rw [frontierWalk]
    by_cases heq : runner = stop
    · rw [if_pos (.inr heq), heq]
      exact iff_of_false List.not_mem_nil fun ⟨habove, hnot⟩ => hnot habove
    · have hrest : runner ∈ rest := by
        obtain rfl | hrest := List.mem_cons.mp hrunner
        · obtain ⟨k, hk⟩ := hstop
          rw [Function.iterate_fixed (parentOf_of_eq_some h.solution.table.root_self)] at hk
          exact absurd hk heq
        · exact hrest
      rw [if_neg (not_or.mpr ⟨h.ne_kNoBlock hrunner, heq⟩)]
      simp only [h.immediateDominator_eq hrest, if_neg (h.parentOf_ne hrest)]
      have hlt := h.number_parentOf_lt hrest
      rw [List.mem_cons, ih (h.parentOf_mem hrunner) (hstop.up heq) (by omega), h.above_parent_iff hrest]
      constructor
      · rintro (rfl | ⟨⟨-, habove⟩, hnot⟩)
        · refine ⟨.refl _ _, fun hback => ?_⟩
          have hle := h.number_above_le (h.parentOf_mem hrunner) ((hstop.up heq).trans hback)
          omega
        · exact ⟨habove, hnot⟩
      · rintro ⟨habove, hnot⟩
        by_cases ha : a = runner
        · exact .inl ha
        · exact .inr ⟨⟨Ne.symm ha, habove⟩, hnot⟩

/-- A block is added to the frontiers of the blocks that dominate a predecessor and not the block
    itself. -/
theorem mem_frontierOwners (hentry : f.entryBlock ≠ kNoBlock)
    (hvalid : ControlFlowGraph.isValid f f.entryBlock = true)
    (hnone : predecessors f f.entryBlock = []) (hb : b ∈ f.entryBlock :: rest) :
    a ∈ frontierOwners f b ↔ (∃ p ∈ predecessors f b, isReachable f p = true ∧
      Above (parentOf idom) p a) ∧ ¬(b ≠ a ∧ Above (parentOf idom) b a) := by
  have hpreds : ∀ p, p ∈ ((predecessors f b).insertionSort (· ≤ ·)).dedup ↔ p ∈ predecessors f b := by
    intro p
    rw [List.mem_dedup, List.mem_insertionSort]
  rw [frontierOwners, if_neg (by simp [(h.mem_iff hentry hvalid).mp hb])]
  simp only
  generalize ((predecessors f b).insertionSort (· ≤ ·)).dedup = preds at hpreds
  obtain rfl | hrest := List.mem_cons.mp hb
  · rw [hnone] at hpreds
    have hempty : preds = [] := List.eq_nil_iff_forall_not_mem.mpr fun p hp => nomatch (hpreds p).mp hp
    rw [hempty, hnone]
    simp
  have hmeet := h.solution.meet b hrest
  have hsome {p : BlockId} (hp : isReachable f p = true) : (idom p).isSome = true :=
    h.solution.all p ((h.mem_iff hentry hvalid).mpr hp)
  rw [← h.above_parent_iff hrest]
  split
  next hfew =>
    refine iff_of_false List.not_mem_nil ?_
    rintro ⟨⟨p, hp, hpreachable, habove⟩, hnot⟩
    have hsingle : ∀ q ∈ predecessors f b, q = p := by
      intro q hq
      have hp' := (hpreds p).mpr hp
      have hq' := (hpreds q).mpr hq
      match preds, hfew with
      | [], _ => nomatch hp'
      | [r], _ => rw [List.mem_singleton.mp hp', List.mem_singleton.mp hq']
    have hgreatest := hmeet.greatest p fun q hq _ => hsingle q hq ▸ .refl _ _
    exact hnot (hgreatest.trans habove)
  next =>
    rw [h.immediateDominator_eq hrest, List.mem_flatMap]
    have hstop := h.ne_kNoBlock (h.parentOf_mem (List.mem_cons_of_mem _ hrest))
    have hwalk {p : BlockId} (hp : p ∈ predecessors f b) (hpreachable : isReachable f p = true) :
        a ∈ frontierWalk f (parentOf idom b) (f.blocks.length + 2) p ↔
          Above (parentOf idom) p a ∧ ¬Above (parentOf idom) (parentOf idom b) a := by
      have hmem := (h.mem_iff hentry hvalid).mpr hpreachable
      refine h.mem_frontierWalk hmem (hmeet.above p hp (hsome hpreachable)) ?_
      have hlt := List.idxOf_lt_length_iff.mpr hmem
      have hle := length_reversePostOrder_le f
      rw [h.order] at hle
      omega
    constructor
    · rintro ⟨p, hp, hin⟩
      split at hin
      · nomatch hin
      next hgo =>
        have hpreachable : isReachable f p = true := by simpa using (not_or.mp hgo).2
        obtain ⟨habove, hnot⟩ := (hwalk ((hpreds p).mp hp) hpreachable).mp hin
        exact ⟨⟨p, (hpreds p).mp hp, hpreachable, habove⟩, hnot⟩
    · rintro ⟨⟨p, hp, hpreachable, habove⟩, hnot⟩
      refine ⟨p, (hpreds p).mpr hp, ?_⟩
      rw [if_neg (not_or.mpr ⟨hstop, by simp [hpreachable]⟩)]
      exact (hwalk hp hpreachable).mpr ⟨habove, hnot⟩

theorem reachable_of_climbs (hentry : f.entryBlock ≠ kNoBlock)
    (hvalid : ControlFlowGraph.isValid f f.entryBlock = true)
    (ha : a ≠ kNoBlock) (hne : a ≠ b) (hdom : dominates f a b = true) : isReachable f b = true := by
  rw [dominates, if_neg hne] at hdom
  split at hdom
  · cases hdom
  -- The walk up the tree takes no step where the table has no entry.
  cases hb : idom b with
  | some y => exact (h.mem_iff hentry hvalid).mp (h.solution.table.mem b y hb)
  | none =>
    have hnone : immediateDominator f b = kNoBlock := by
      rw [immediateDominator, h.computed]
      simp only [hb]
    rw [searchFuel, climbsTo] at hdom
    simp [hnone, ha.symm] at hdom

theorem reachable_of_dominates (hentry : f.entryBlock ≠ kNoBlock)
    (hvalid : ControlFlowGraph.isValid f f.entryBlock = true)
    (ha : isReachable f a = true) (hdom : dominates f a b = true) : isReachable f b = true := by
  by_cases heq : a = b
  · exact heq ▸ ha
  · exact h.reachable_of_climbs hentry hvalid (h.ne_kNoBlock ((h.mem_iff hentry hvalid).mpr ha)) heq hdom

end DominatorTable

/-- In a function whose entry has no predecessors, `dominates` decides whether all paths pass a
    block, the loops that compute it end, and a frontier holds exactly the blocks where the
    dominance of a block ends. -/
theorem dominators_and_frontiers_exact (hids : f.DistinctIds) (hnone : predecessors f f.entryBlock = []) :
    (∀ a b, isValid f a = true → isReachable f a = true → isValid f b = true → isReachable f b = true →
      (dominates f a b = true ↔ Dominates (fun v w => w ∈ successors f v) f.entryBlock a b)) ∧
    (∃ idom, computeDominators f = some idom) ∧
    (∀ rounds done b later, reversePostOrder f = f.entryBlock :: (done ++ b :: later) → ∀ p q,
      (idomsAt f rounds done p).isSome = true → (idomsAt f rounds done q).isSome = true →
        ∃ r, Intersects (parentOf (idomsAt f rounds done)) (reversePostOrder f).idxOf p q r) ∧
    ∀ a b, isValid f a = true → isReachable f a = true →
      (b ∈ dominanceFrontier f a ↔ isValid f b = true ∧ isReachable f b = true ∧
        (∃ p ∈ predecessors f b, dominates f a p = true) ∧ strictlyDominates f a b = false) := by
  refine ⟨fun a b ha hareach hb hbreach => ?_, ?_, fun rounds done b later horder p q hp hq => ?_,
    fun a b ha hareach => ?_⟩
  · obtain ⟨hentry, hvalid⟩ := entry_of_reachable ha hareach
    obtain ⟨rest, idom, h⟩ := exists_dominatorTable hids hentry hvalid
    have hbmem := (h.mem_iff hentry hvalid).mpr hbreach
    rw [h.dominates_iff hids ((h.mem_iff hentry hvalid).mpr hareach) hbmem, h.above_iff hids hbmem]
  · by_cases hexists : f.entryBlock = kNoBlock ∨ isValid f f.entryBlock = false
    · refine ⟨fun _ => none, ?_⟩
      rw [computeDominators, reversePostOrder, if_pos hexists]
    · obtain ⟨hentry, hvalid⟩ : f.entryBlock ≠ kNoBlock ∧ isValid f f.entryBlock = true := by
        simpa using hexists
      obtain ⟨rest, idom, h⟩ := exists_dominatorTable hids hentry hvalid
      exact ⟨idom, h.computed⟩
  · have hexists : ¬(f.entryBlock = kNoBlock ∨ isValid f f.entryBlock = false) := by
      intro hexists
      rw [reversePostOrder, if_pos hexists] at horder
      cases horder
    obtain ⟨hentry, hvalid⟩ : f.entryBlock ≠ kNoBlock ∧ isValid f f.entryBlock = true := by
      simpa using hexists
    obtain ⟨rest, hrest, hsearch⟩ := reversePostOrder_spec hids hentry hvalid
    obtain ⟨-, hsplit⟩ := List.cons_eq_cons.mp (hrest.symm.trans horder)
    unfold idomsAt at hp hq ⊢
    rw [hrest] at hp hq ⊢
    exact hsearch.intersects (Nat.lt_succ_self _) rounds hsplit hp hq
  · obtain ⟨hentry, hvalid⟩ := entry_of_reachable ha hareach
    obtain ⟨rest, idom, h⟩ := exists_dominatorTable hids hentry hvalid
    have hamem := (h.mem_iff hentry hvalid).mpr hareach
    rw [dominanceFrontier, if_pos ha, List.mem_dedup, List.mem_insertionSort, List.mem_filter,
      decide_eq_true_iff, ← isValid_iff]
    refine and_congr_right fun _ => ?_
    by_cases hbreach : isReachable f b = true
    · have hbmem := (h.mem_iff hentry hvalid).mpr hbreach
      rw [h.mem_frontierOwners hentry hvalid hnone hbmem, and_iff_right hbreach]
      refine and_congr (exists_congr fun p => and_congr_right fun hp => ?_) ?_
      · constructor
        · rintro ⟨hpreach, habove⟩
          exact (h.dominates_iff hids hamem ((h.mem_iff hentry hvalid).mpr hpreach)).mpr habove
        · intro hdom
          have hpreach := h.reachable_of_dominates hentry hvalid hareach hdom
          exact ⟨hpreach, (h.dominates_iff hids hamem ((h.mem_iff hentry hvalid).mpr hpreach)).mp hdom⟩
      · rw [strictlyDominates, ← h.dominates_iff hids hamem hbmem, ← Bool.not_eq_true,
          Bool.and_eq_true, bne_iff_ne, ne_comm]
    · rw [frontierOwners, if_pos (by simpa using hbreach)]
      exact iff_of_false List.not_mem_nil fun h => hbreach h.1

end

/-- Two arms that join. -/
def diamond : Function where
  blocks := [{ id := 1, terminator := { kind := .Branch, target := 2, elseBlock := 3 } },
    { id := 2, terminator := { kind := .Jump, target := 4 } },
    { id := 3, terminator := { kind := .Jump, target := 4 } },
    { id := 4, terminator := { kind := .Return } }]
  entryBlock := 1

theorem dominators_and_frontiers_exact_diamond : Dominates (fun v w => w ∈ successors diamond v) 1 1 4 ∧
    ¬Dominates (fun v w => w ∈ successors diamond v) 1 2 4 ∧
    (∃ idom, computeDominators diamond = some idom) ∧ 4 ∈ dominanceFrontier diamond 2 := by
  obtain ⟨hdominates, hends, -, hfrontier⟩ :=
    @dominators_and_frontiers_exact diamond (by decide) (by decide)
  refine ⟨?_, fun hdom => ?_, hends, ?_⟩
  · exact (hdominates 1 4 (by decide) (by decide) (by decide) (by decide)).mp (by decide +kernel)
  · exact absurd ((hdominates 2 4 (by decide) (by decide) (by decide) (by decide)).mpr hdom)
      (by decide +kernel)
  · exact (hfrontier 2 4 (by decide) (by decide)).mpr
      ⟨by decide, by decide, ⟨2, by decide, by decide +kernel⟩, by decide +kernel⟩

end zl.mir.ControlFlowGraph
