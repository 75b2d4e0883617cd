import Zl.Mir.Reachability

open Relation zl.graph

namespace zl.mir

/-- Every block id a terminator stores, whether its kind uses the field or not. -/
def Terminator.storedTargets (t : Terminator) : List BlockId :=
  t.target :: t.elseBlock :: t.cases.map (·.block)

/-- Every block id a block stores besides its own. -/
def BasicBlock.storedTargets (b : BasicBlock) : List BlockId :=
  b.terminator.storedTargets ++ b.exceptionHandlers.map (·.block)

def Terminator.rename (newId : BlockId → BlockId) (t : Terminator) : Terminator :=
  { t with
    target := newId t.target
    elseBlock := newId t.elseBlock
    cases := t.cases.map fun entry => { entry with block := newId entry.block } }

/-- A block in which every block id is renamed, and nothing else. -/
def BasicBlock.rename (newId : BlockId → BlockId) (b : BasicBlock) : BasicBlock :=
  { b with
    id := newId b.id
    terminator := b.terminator.rename newId
    exceptionHandlers :=
      b.exceptionHandlers.map fun handler => { handler with block := newId handler.block } }

theorem Terminator.mem_storedTargets {t : Terminator} {id : BlockId} (h : id ∈ t.successors) :
    id ∈ t.storedTargets := by
  unfold successors at h
  unfold storedTargets
  cases hkind : t.kind <;> rw [hkind] at h <;> simp at h ⊢ <;> tauto

theorem Terminator.successors_rename {t : Terminator} {newId : BlockId → BlockId}
    (h : ∀ id ∈ t.storedTargets, newId id = kNoBlock ↔ id = kNoBlock) :
    (t.rename newId).successors = t.successors.map newId := by
  have hfilter {ids : List BlockId} (hids : ids ⊆ t.storedTargets) :
      (ids.map newId).filter (· != kNoBlock) = (ids.filter (· != kNoBlock)).map newId := by
    rw [List.filter_map]
    congr 1
    refine List.filter_congr fun id hid => ?_
    rw [Function.comp_apply, Bool.eq_iff_iff, bne_iff_ne, bne_iff_ne]
    exact not_congr (h id (hids hid))
  have hcases : (t.cases.map fun entry => { entry with block := newId entry.block }).map (·.block) =
      (t.cases.map (·.block)).map newId := by simp
  unfold successors rename
  cases t.kind with
  | None | Return | Throw | Unreachable => rfl
  | Jump =>
    refine @hfilter [t.target] fun id hid => ?_
    rw [List.mem_singleton.mp hid]
    exact List.mem_cons_self
  | Branch =>
    refine @hfilter [t.target, t.elseBlock] fun id hid => ?_
    obtain rfl | hid := List.mem_cons.mp hid
    · exact List.mem_cons_self
    · rw [List.mem_singleton.mp hid]
      exact List.mem_cons_of_mem _ List.mem_cons_self
  | Switch =>
    simp only [hcases]
    rw [← List.map_singleton, ← List.map_append]
    refine @hfilter (t.cases.map (·.block) ++ [t.target]) fun id hid => ?_
    obtain hid | hid := List.mem_append.mp hid
    · exact List.mem_cons_of_mem _ (List.mem_cons_of_mem _ hid)
    · rw [List.mem_singleton.mp hid]
      exact List.mem_cons_self

namespace ControlFlowGraph

/-- The new id of a surviving block: its position, counted from one. -/
def renumber (survivors : List BasicBlock) (id : BlockId) : Option BlockId :=
  ((survivors.zipIdx 1).reverse.find? (·.1.id == id)).map Prod.snd

/-- A stored id under its new number. A pruned block has none: the reference dangles. -/
def rewrite (survivors : List BasicBlock) (target : BlockId) : Option BlockId :=
  if target = kNoBlock then some target else renumber survivors target

def rewriteBlock (survivors : List BasicBlock) (b : BasicBlock) : Option BasicBlock := do
  let id ← renumber survivors b.id
  let target ← rewrite survivors b.terminator.target
  let elseBlock ← rewrite survivors b.terminator.elseBlock
  let cases ← b.terminator.cases.mapM
    fun entry => do return { entry with block := ← rewrite survivors entry.block }
  let exceptionHandlers ← b.exceptionHandlers.mapM fun handler => do
    return { handler with block := ← rewrite survivors handler.block }
  return { b with id, terminator := { b.terminator with target, elseBlock, cases }, exceptionHandlers }

/-- The blocks that an edge of some kind reaches from the entry. -/
def survivors (f : Function) : List BasicBlock :=
  f.blocks.filter fun b => decide (b.id ∈ reachableWithUnwind f)

/-- The function without its dead blocks, and their number. It stays as it is where a reference
    would dangle. -/
def pruneUnreachableBlocks (f : Function) : Function × Nat :=
  if f.blocks = [] ∨ (survivors f).length = f.blocks.length then (f, 0)
  else
    match (survivors f).mapM (rewriteBlock (survivors f)) with
    | none => (f, 0)
    | some blocks =>
      let entryBlock := (rewrite (survivors f) f.entryBlock).getD f.entryBlock
      (Function.rebuildEdges { f with blocks, entryBlock }, f.blocks.length - blocks.length)

/-- A block on some path from the entry, along edges of both kinds. -/
def Live (f : Function) (id : BlockId) : Prop :=
  f.entryBlock ≠ kNoBlock ∧ ReflTransGen (MixedEdge f) f.entryBlock id

/-- The terminators and the handlers of a function name blocks that exist. -/
def NamesExist (f : Function) : Prop :=
  ∀ b ∈ f.blocks, ∀ id ∈ b.storedTargets, id ≠ kNoBlock → isValid f id = true

/-- No live block stores the id of a dead block in a field that its terminator does not use. -/
def NoStaleTarget (f : Function) : Prop :=
  ∀ b ∈ f.blocks, Live f b.id → ∀ id ∈ b.terminator.storedTargets, id ∉ b.terminator.successors →
    id ≠ kNoBlock → Live f id

/-- A function is another one without its dead blocks, under new ids. -/
structure Pruned (f g : Function) (newId : BlockId → BlockId) : Prop where
  blocks : ∃ live : List BasicBlock, live.Sublist f.blocks ∧
    (∀ b, b ∈ live ↔ b ∈ f.blocks ∧ Live f b.id) ∧ g.blocks = live.map (·.rename newId)
  ids : g.blocks.map (·.id) = List.range' 1 g.blocks.length
  entry : g.entryBlock = newId f.entryBlock
  injective : ∀ a ∈ f.blocks, ∀ b ∈ f.blocks, Live f a.id → Live f b.id → newId a.id = newId b.id → a = b
  successors : ∀ b ∈ f.blocks, Live f b.id →
    ControlFlowGraph.successors g (newId b.id) = (ControlFlowGraph.successors f b.id).map newId
  unwindSuccessors : ∀ b ∈ f.blocks, Live f b.id →
    ControlFlowGraph.unwindSuccessors g (newId b.id) =
    (ControlFlowGraph.unwindSuccessors f b.id).map newId
  live : ∀ b ∈ g.blocks, Live g b.id
  edges : g.rebuildEdges = g

/-- The number that a block id gets. An id of no surviving block stays. -/
def newBlockId (f : Function) (id : BlockId) : BlockId := (rewrite (survivors f) id).getD id

section
variable {f : Function} {id : BlockId} {b : BasicBlock}

theorem mem_reachableWithUnwind_iff_live : id ∈ reachableWithUnwind f ↔ Live f id := by
  by_cases hentry : f.entryBlock = kNoBlock
  · have hnone : reachable f = [] := if_pos hentry
    rw [reachableWithUnwind, hnone,
      @mem_breadthFirst_iff _ _ _ _ [] List.nodup_nil (fun s hs => (by cases hs)) _ (Nat.zero_le _)]
    constructor
    · rintro ⟨s, hs, -⟩
      cases hs
    · exact fun h => absurd hentry h.1
  · rw [mem_reachableWithUnwind hentry]
    exact (and_iff_right hentry).symm

theorem mem_survivors : b ∈ survivors f ↔ b ∈ f.blocks ∧ Live f b.id := by
  rw [survivors, List.mem_filter, decide_eq_true_iff, mem_reachableWithUnwind_iff_live]

theorem nodup_survivors (hids : f.DistinctIds) : ((survivors f).map (·.id)).Nodup :=
  List.Nodup.sublist (List.filter_sublist.map _) hids

theorem exists_survivor (hlive : Live f id) (hvalid : isValid f id = true) : ∃ b ∈ survivors f,
    b.id = id := by
  obtain ⟨b, hb, heq⟩ := List.any_eq_true.mp hvalid
  have heq : b.id = id := by simpa using heq
  exact ⟨b, mem_survivors.mpr ⟨hb, heq ▸ hlive⟩, heq⟩

theorem renumber_getElem {blocks : List BasicBlock} (hnodup : (blocks.map (·.id)).Nodup) {pos : Nat}
    (hpos : pos < blocks.length) :
    renumber blocks blocks[pos].id = some (pos + 1) := by
  have hmem : (blocks[pos], pos + 1) ∈ (blocks.zipIdx 1).reverse := by
    rw [List.mem_reverse, List.mk_mem_zipIdx_iff_le_and_getElem?_sub]
    exact ⟨by omega, List.getElem?_eq_getElem hpos⟩
  unfold renumber
  cases hfind : (blocks.zipIdx 1).reverse.find? (·.1.id == blocks[pos].id) with
  | none => exact absurd (beq_self_eq_true _) (List.find?_eq_none.mp hfind _ hmem)
  | some found =>
    obtain ⟨c, i⟩ := found
    have hid : c.id = blocks[pos].id := by simpa using List.find?_some hfind
    obtain ⟨hi, hc⟩ := List.mk_mem_zipIdx_iff_le_and_getElem?_sub.mp
      (List.mem_reverse.mp (List.mem_of_find?_eq_some hfind))
    obtain ⟨hlt, rfl⟩ := List.getElem?_eq_some_iff.mp hc
    have hsame : i - 1 = pos := by
      refine (@List.Nodup.getElem_inj_iff _ _ hnodup _ (by rwa [List.length_map]) _
        (by rwa [List.length_map])).mp ?_
      rwa [List.getElem_map, List.getElem_map]
    rw [Option.map_some, Option.some_inj]
    show i = pos + 1
    omega

theorem live_ne_kNoBlock (h : Live f id) : id ≠ kNoBlock := by
  cases h.2 with
  | refl => exact h.1
  | tail _ hedge =>
    cases hedge with
    | inl hsucc =>
      obtain ⟨c, -, hmem, -⟩ := mem_successors.mp hsucc
      exact Terminator.successors_ne_kNoBlock hmem
    | inr hunwind =>
      obtain ⟨c, -, hmem⟩ := mem_unwindSuccessors.mp hunwind
      obtain ⟨_, -, -, hne, -⟩ := mem_handlerTargets.mp hmem
      exact hne

@[simp]
theorem newBlockId_kNoBlock : newBlockId f kNoBlock = kNoBlock := rfl

theorem newBlockId_getElem (hids : f.DistinctIds) {pos : Nat} (hpos : pos < (survivors f).length) :
    newBlockId f (survivors f)[pos].id = pos + 1 := by
  have hlive := (mem_survivors.mp (List.getElem_mem hpos)).2
  rw [newBlockId, rewrite, if_neg (live_ne_kNoBlock hlive), renumber_getElem (nodup_survivors hids) hpos]
  rfl

theorem rewrite_eq (hids : f.DistinctIds) (h : id ≠ kNoBlock → Live f id ∧ isValid f id = true) :
    rewrite (survivors f) id = some (newBlockId f id) := by
  by_cases hnone : id = kNoBlock
  · rw [hnone]
    rfl
  · obtain ⟨b, hb, rfl⟩ := exists_survivor (h hnone).1 (h hnone).2
    obtain ⟨pos, hpos, rfl⟩ := List.getElem_of_mem hb
    rw [newBlockId_getElem hids hpos, rewrite, if_neg hnone, renumber_getElem (nodup_survivors hids) hpos]

theorem live_of_stored (hnames : NamesExist f) (hstale : NoStaleTarget f) (hids : f.DistinctIds)
    (hb : b ∈ survivors f)
    (hid : id ∈ b.storedTargets) (hne : id ≠ kNoBlock) : Live f id ∧ isValid f id = true := by
  obtain ⟨hmem, hlive⟩ := mem_survivors.mp hb
  have hvalid := hnames b hmem id hid hne
  have hat : blockAt f b.id = some b := (blockAt_eq_some hids).mpr ⟨hmem, rfl⟩
  refine ⟨?_, hvalid⟩
  cases List.mem_append.mp hid with
  | inl hterminator =>
    by_cases hused : id ∈ b.terminator.successors
    · exact ⟨hlive.1, hlive.2.tail (.inl (mem_successors.mpr ⟨b, hat, hused, hvalid⟩))⟩
    · exact hstale b hmem hlive id hterminator hused hne
  | inr hhandler =>
    obtain ⟨handler, hin, heq⟩ := List.mem_map.mp hhandler
    have htarget := mem_handlerTargets.mpr ⟨handler, hin, heq, hne, hvalid⟩
    exact ⟨hlive.1, hlive.2.tail (.inr (mem_unwindSuccessors.mpr ⟨b, hat, htarget⟩))⟩

theorem mapM_eq_some_map {A B : Type} {g : A → Option B} {h : A → B} {l : List A}
    (heq : ∀ a ∈ l, g a = some (h a)) :
    l.mapM g = some (l.map h) := by
  induction l with
  | nil => rfl
  | cons a l ih =>
    rw [List.mapM_cons, heq a List.mem_cons_self, ih fun c hc => heq c (List.mem_cons_of_mem _ hc)]
    rfl

theorem rewriteBlock_eq (hids : f.DistinctIds) (hnames : NamesExist f) (hstale : NoStaleTarget f)
    (hb : b ∈ survivors f) :
    rewriteBlock (survivors f) b = some (b.rename (newBlockId f)) := by
  have hstored : ∀ id ∈ b.storedTargets, rewrite (survivors f) id = some (newBlockId f id) :=
    fun id hid => rewrite_eq hids (live_of_stored hnames hstale hids hb hid)
  have hterminator : ∀ id ∈ b.terminator.storedTargets,
      rewrite (survivors f) id = some (newBlockId f id) :=
    fun id hid => hstored id (List.mem_append_left _ hid)
  obtain ⟨pos, hpos, hat⟩ := List.getElem_of_mem hb
  have hown : renumber (survivors f) b.id = some (newBlockId f b.id) := by
    rw [← hat, newBlockId_getElem hids hpos, renumber_getElem (nodup_survivors hids) hpos]
  rw [rewriteBlock, hown, hterminator b.terminator.target List.mem_cons_self,
    hterminator b.terminator.elseBlock (List.mem_cons_of_mem _ List.mem_cons_self)]
  rw [mapM_eq_some_map (h := fun entry => { entry with block := newBlockId f entry.block })
    fun entry hentry => ?_, mapM_eq_some_map
    (h := fun handler => { handler with block := newBlockId f handler.block }) fun handler hhandler => ?_]
  · rfl
  · rw [hstored _ (List.mem_append_right _ (List.mem_map_of_mem hhandler))]
    rfl
  · rw [hterminator _ (List.mem_cons_of_mem _ (List.mem_cons_of_mem _ (List.mem_map_of_mem hentry)))]
    rfl

/-- Some block is dead, and then the survivors are what is left. -/
theorem pruneUnreachableBlocks_eq (hids : f.DistinctIds) (hnames : NamesExist f) (hstale : NoStaleTarget f)
    (hdead : ∃ b ∈ f.blocks, ¬Live f b.id) : pruneUnreachableBlocks f =
      (Function.rebuildEdges { f with
        blocks := (survivors f).map (·.rename (newBlockId f)), entryBlock := newBlockId f f.entryBlock },
      f.blocks.length - (survivors f).length) := by
  obtain ⟨b, hb, hdead⟩ := hdead
  have hsome : ¬(f.blocks = [] ∨ (survivors f).length = f.blocks.length) := by
    rintro (hempty | hall)
    · rw [hempty] at hb
      nomatch hb
    · have hkept : survivors f = f.blocks := List.filter_sublist.eq_of_length hall
      exact hdead (mem_survivors.mp (hkept ▸ hb)).2
  rw [pruneUnreachableBlocks, if_neg hsome, mapM_eq_some_map fun b hb =>
    rewriteBlock_eq hids hnames hstale hb]
  simp only [List.length_map]
  rfl

variable {g : Function}

theorem ids_of_blocks (hids : f.DistinctIds)
    (hblocks : g.blocks = (survivors f).map (·.rename (newBlockId f))) :
    g.blocks.map (·.id) = List.range' 1 g.blocks.length := by
  have hlength : g.blocks.length = (survivors f).length := by rw [hblocks, List.length_map]
  refine List.ext_getElem (by rw [List.length_map, List.length_range']) fun pos h _ => ?_
  have hpos : pos < (survivors f).length := by rwa [List.length_map, hlength] at h
  rw [List.getElem_range', Nat.one_mul, List.getElem_map]
  simp only [hblocks, List.getElem_map]
  exact (newBlockId_getElem hids hpos).trans (Nat.add_comm ..)

theorem distinctIds_of_blocks (hids : f.DistinctIds)
    (hblocks : g.blocks = (survivors f).map (·.rename (newBlockId f))) :
    g.DistinctIds := by
  rw [Function.DistinctIds, ids_of_blocks hids hblocks]
  exact List.nodup_range' ..

theorem newBlockId_ne_kNoBlock (hids : f.DistinctIds) (hlive : Live f id) (hvalid : isValid f id = true) :
    newBlockId f id ≠ kNoBlock := by
  obtain ⟨b, hb, rfl⟩ := exists_survivor hlive hvalid
  obtain ⟨pos, hpos, rfl⟩ := List.getElem_of_mem hb
  rw [newBlockId_getElem hids hpos]
  exact Nat.succ_ne_zero pos

theorem isValid_newBlockId (hblocks : g.blocks = (survivors f).map (·.rename (newBlockId f)))
    (hlive : Live f id) (hvalid : isValid f id = true) : isValid g (newBlockId f id) = true := by
  obtain ⟨b, hb, rfl⟩ := exists_survivor hlive hvalid
  refine isValid_of_mem (b := b.rename (newBlockId f)) ?_
  rw [hblocks]
  exact List.mem_map_of_mem hb

theorem successors_newBlockId (hids : f.DistinctIds) (hnames : NamesExist f) (hstale : NoStaleTarget f)
    (hblocks : g.blocks = (survivors f).map (·.rename (newBlockId f))) (hb : b ∈ survivors f) :
    successors g (newBlockId f b.id) = (successors f b.id).map (newBlockId f) ∧
    unwindSuccessors g (newBlockId f b.id) = (unwindSuccessors f b.id).map (newBlockId f) := by
  have hstored : ∀ id ∈ b.storedTargets, id ≠ kNoBlock → Live f id ∧ isValid f id = true :=
    fun id hid => live_of_stored hnames hstale hids hb hid
  have hzero : ∀ id ∈ b.storedTargets, newBlockId f id = kNoBlock ↔ id = kNoBlock := by
    intro id hid
    refine ⟨fun hnone => ?_, fun hnone => (congrArg _ hnone).trans newBlockId_kNoBlock⟩
    by_contra hne
    exact newBlockId_ne_kNoBlock hids (hstored id hid hne).1 (hstored id hid hne).2 hnone
  have hat : blockAt f b.id = some b := (blockAt_eq_some hids).mpr ⟨(mem_survivors.mp hb).1, rfl⟩
  have hat' : blockAt g (newBlockId f b.id) = some (b.rename (newBlockId f)) := by
    refine (blockAt_eq_some (distinctIds_of_blocks hids hblocks)).mpr ⟨?_, rfl⟩
    rw [hblocks]
    exact List.mem_map_of_mem hb
  constructor
  · have hsuccessors : (b.rename (newBlockId f)).terminator.successors = b.terminator.successors.map
        (newBlockId f) :=
      Terminator.successors_rename fun id hid => hzero id (List.mem_append_left _ hid)
    simp only [successors, hat, hat', hsuccessors]
    rw [List.filter_map]
    congr 1
    refine List.filter_congr fun id hid => ?_
    have hne := Terminator.successors_ne_kNoBlock hid
    obtain ⟨hlive, hvalid⟩ := hstored id (List.mem_append_left _ (Terminator.mem_storedTargets hid)) hne
    rw [Function.comp_apply, isValid_newBlockId hblocks hlive hvalid, hvalid]
  · have htargets : (b.rename (newBlockId f)).exceptionHandlers.map (·.block) =
        (b.exceptionHandlers.map (·.block)).map (newBlockId f) := by
      simp [BasicBlock.rename]
    simp only [unwindSuccessors, hat, hat', handlerTargets, htargets]
    rw [List.filter_map]
    congr 1
    refine List.filter_congr fun id hid => ?_
    rw [Function.comp_apply]
    by_cases hne : id = kNoBlock
    · rw [hne]
      rfl
    · obtain ⟨hlive, hvalid⟩ := hstored id (List.mem_append_right _ hid) hne
      have hne' := newBlockId_ne_kNoBlock hids hlive hvalid
      rw [isValid_newBlockId hblocks hlive hvalid, hvalid, bne_iff_ne.mpr hne, bne_iff_ne.mpr hne']

theorem exists_block_of_edge {a c : BlockId} (h : MixedEdge f a c) : ∃ b ∈ f.blocks, b.id = a := by
  cases h with
  | inl hsucc =>
    obtain ⟨b, hat, -⟩ := mem_successors.mp hsucc
    exact ⟨b, blockAt_mem hat⟩
  | inr hunwind =>
    obtain ⟨b, hat, -⟩ := mem_unwindSuccessors.mp hunwind
    exact ⟨b, blockAt_mem hat⟩

/-- A path of the function is a path of what is left of it. -/
theorem path_newBlockId (hids : f.DistinctIds) (hnames : NamesExist f) (hstale : NoStaleTarget f)
    (hblocks : g.blocks = (survivors f).map (·.rename (newBlockId f))) (hlive : Live f id) :
    ReflTransGen (MixedEdge g) (newBlockId f f.entryBlock) (newBlockId f id) := by
  obtain ⟨hentry, hpath⟩ := hlive
  induction hpath with
  | refl => exact .refl
  | @tail a c hpath hedge ih =>
    refine ih.tail ?_
    obtain ⟨b, hb, rfl⟩ := exists_block_of_edge hedge
    obtain ⟨hsuccessors, hunwinds⟩ :=
      successors_newBlockId hids hnames hstale hblocks (mem_survivors.mpr ⟨hb, hentry, hpath⟩)
    cases hedge with
    | inl hsucc =>
      refine .inl ?_
      rw [hsuccessors]
      exact List.mem_map_of_mem hsucc
    | inr hunwind =>
      refine .inr ?_
      rw [hunwinds]
      exact List.mem_map_of_mem hunwind

/-- What is left after pruning are the live blocks in their order, numbered from one, with the edges
    they had. -/
theorem pruned_survivors (hids : f.DistinctIds) (hnames : NamesExist f) (hstale : NoStaleTarget f)
    (hblocks : g.blocks = (survivors f).map (·.rename (newBlockId f)))
    (hentry : g.entryBlock = newBlockId f f.entryBlock)
    (hedges : g.rebuildEdges = g) : Pruned f g (newBlockId f) where
  blocks := ⟨survivors f, List.filter_sublist, fun _ => mem_survivors, hblocks⟩
  ids := ids_of_blocks hids hblocks
  entry := hentry
  injective a ha b hb hlivea hliveb heq := by
    have ha' := mem_survivors.mpr ⟨ha, hlivea⟩
    have hb' := mem_survivors.mpr ⟨hb, hliveb⟩
    obtain ⟨i, hi, rfl⟩ := List.getElem_of_mem ha'
    obtain ⟨j, hj, rfl⟩ := List.getElem_of_mem hb'
    rw [newBlockId_getElem hids hi, newBlockId_getElem hids hj, Nat.add_right_cancel_iff] at heq
    subst heq
    rfl
  successors b hb hlive :=
    (successors_newBlockId hids hnames hstale hblocks (mem_survivors.mpr ⟨hb, hlive⟩)).1
  unwindSuccessors b hb hlive :=
    (successors_newBlockId hids hnames hstale hblocks (mem_survivors.mpr ⟨hb, hlive⟩)).2
  live c hc := by
    rw [hblocks] at hc
    obtain ⟨b, hb, rfl⟩ := List.mem_map.mp hc
    obtain ⟨hmem, hlive⟩ := mem_survivors.mp hb
    have hpath := path_newBlockId hids hnames hstale hblocks hlive
    refine ⟨?_, hentry ▸ hpath⟩
    have hvalid : isValid f f.entryBlock = true := by
      cases ReflTransGen.cases_head hlive.2 with
      | inl heq => exact heq ▸ isValid_of_mem hmem
      | inr hstep =>
        obtain ⟨_, hedge, -⟩ := hstep
        obtain ⟨b, hb, hid⟩ := exists_block_of_edge hedge
        exact hid ▸ isValid_of_mem hb
    rw [hentry]
    exact newBlockId_ne_kNoBlock hids ⟨hlive.1, .refl⟩ hvalid
  edges := hedges

/-- Pruning keeps the live blocks, numbered anew, and does nothing where all blocks are live. -/
theorem pruneUnreachableBlocks_live (hids : f.DistinctIds) (hnames : NamesExist f)
    (hstale : NoStaleTarget f) :
    ((∀ b ∈ f.blocks, Live f b.id) → pruneUnreachableBlocks f = (f, 0)) ∧
    ((∃ b ∈ f.blocks, ¬Live f b.id) → (∃ newId, Pruned f (pruneUnreachableBlocks f).1 newId) ∧
      (pruneUnreachableBlocks f).1.blocks.length + (pruneUnreachableBlocks f).2 = f.blocks.length) := by
  constructor
  · intro hall
    have hkept : survivors f = f.blocks :=
      List.filter_eq_self.mpr fun b hb =>
        decide_eq_true (mem_reachableWithUnwind_iff_live.mpr (hall b hb))
    exact if_pos (.inr (congrArg _ hkept))
  · intro hdead
    rw [pruneUnreachableBlocks_eq hids hnames hstale hdead]
    refine ⟨⟨newBlockId f, pruned_survivors hids hnames hstale rfl rfl rfl⟩, ?_⟩
    have hle : (survivors f).length ≤ f.blocks.length := List.length_filter_le ..
    show ((survivors f).map _).length + _ = _
    rw [List.length_map]
    omega

end

/-- A jump past a dead block, with a handler. -/
def deadJump : Function where
  blocks := [{ id := 1, terminator := { kind := .Jump, target := 3 }, exceptionHandlers := [{ block := 4 }] },
    { id := 2, terminator := { kind := .Jump, target := 3 } },
    { id := 3, terminator := { kind := .Return } },
    { id := 4, kind := .Catch, terminator := { kind := .Return } }]
  entryBlock := 1

theorem pruneUnreachableBlocks_live_deadJump :
    (∃ newId, Pruned deadJump (pruneUnreachableBlocks deadJump).1 newId) ∧
    (pruneUnreachableBlocks deadJump).1.blocks.length + (pruneUnreachableBlocks deadJump).2 =
    deadJump.blocks.length := by
  have hnames : NamesExist deadJump := by
    unfold NamesExist
    decide
  have hempty : ∀ b ∈ deadJump.blocks, ∀ id ∈ b.terminator.storedTargets, id ∉ b.terminator.successors →
      id = kNoBlock := by decide
  have hdead : ¬Live deadJump 2 := mem_reachableWithUnwind_iff_live.not.mp (by decide)
  have hstale : NoStaleTarget deadJump :=
    fun b hb _ id hid hunused hne => absurd (hempty b hb id hid hunused) hne
  exact (pruneUnreachableBlocks_live (by decide) hnames hstale).2
    ⟨_, List.mem_cons_of_mem _ List.mem_cons_self, hdead⟩

/-- A return whose unused target is the id of a dead block. -/
def staleReturn : Function where
  blocks := [{ id := 1, terminator := { kind := .Return, target := 2 } },
    { id := 2, terminator := { kind := .Return } }]
  entryBlock := 1

/-- A live block under an id that is not its position. -/
def sparseReturn : Function where
  blocks := [{ id := 5, terminator := { kind := .Return } }]
  entryBlock := 5

/-- Two live blocks under one id, and a dead one. -/
def sharedReturn : Function where
  blocks := [{ id := 1, terminator := { kind := .Jump, target := 2 } },
    { id := 2, terminator := { kind := .Return } }, { id := 2, terminator := { kind := .Return } },
    { id := 3, terminator := { kind := .Return } }]
  entryBlock := 1

/-- A reference that dangles leaves the dead block where it is, and ids are not made dense without a
    dead block or with a shared id. -/
theorem staleReturn_not_pruned :
    (NamesExist staleReturn ∧ ¬∃ newId, Pruned staleReturn (pruneUnreachableBlocks staleReturn).1 newId) ∧
    (NamesExist sparseReturn ∧ ¬∃ newId,
      Pruned sparseReturn (pruneUnreachableBlocks sparseReturn).1 newId) ∧
      (NamesExist sharedReturn ∧ ¬∃ newId,
      Pruned sharedReturn (pruneUnreachableBlocks sharedReturn).1 newId) := by
  have hsame : pruneUnreachableBlocks staleReturn = (staleReturn, 0) := by decide
  have hdead : ¬Live staleReturn 2 := mem_reachableWithUnwind_iff_live.not.mp (by decide)
  refine ⟨⟨by unfold NamesExist; decide, ?_⟩,
    ⟨by unfold NamesExist; decide, ?_⟩, by unfold NamesExist; decide, ?_⟩
  · rintro ⟨newId, hpruned⟩
    obtain ⟨live, hsublist, hlive, hblocks⟩ := hpruned.blocks
    rw [hsame] at hblocks
    have hall : live = staleReturn.blocks := hsublist.eq_of_length (by rw [hblocks, List.length_map])
    have hmem : { id := 2, terminator := { kind := .Return } } ∈ live := by
      rw [hall]
      decide
    exact hdead ((hlive _).mp hmem).2
  · rintro ⟨newId, hpruned⟩
    exact absurd hpruned.ids (by decide)
  · rintro ⟨newId, hpruned⟩
    exact absurd hpruned.ids (by decide)

end ControlFlowGraph

end zl.mir
