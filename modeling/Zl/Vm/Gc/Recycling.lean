import Zl.Vm.Gc.TracingGC

open zl.graph zl.transition Relation

namespace zl.vm.gc

/-- The collector among its mutators: the roots are what the mutators would report. A collection that
    was made is reset and then handed to the free lists while the mutators run. -/
structure World where
  collector : TracingGC := {}
  heap : Heap := {}
  roots : GCRoots := {}
  detached : List (List BoxId) := []
  cleared : List (List BoxId) := []

namespace World
variable (w : World)

def reached : Set Node := Reached (Refers w.heap) (starts w.collector w.roots)

/-- No box hangs off the node that is not reached already. -/
def Accessible (n : Node) : Prop := ∀ id, .box id ∈ Reached (Refers w.heap) {n} → .box id ∈ w.reached

/-- An allocation. The caller keeps the handle. -/
def make (kind : Kind) (address : Address) : World :=
  let made := w.collector.makeGC w.heap kind address
  { w with collector := made.1, heap := made.2.1, roots := w.roots.append { values := [handle made.2.2] } }

end World

inductive Action where
  | make (kind : Kind) (address : Address)
  | write (id : BoxId) (box : Box id.kind)
  | writeTask (a : Address) (task : Task)
  | writeProgram (a : Address) (chunk : Chunk)
  | writeStatics (a : Address) (fields : List (String × Option StaticField))
  | setRoots (roots : GCRoots)
  | protect (id : BoxId)
  | unprotect (id : BoxId)
  | collect
  | reset (boxes : List BoxId)
  | handOff (boxes : List BoxId)

def Action.isCollectors : Action → Bool
  | .collect | .reset _ | .handOff _ => true
  | _ => false

/-- The mutators write what they like, but they come by a handle of a box only by `makeGC` or by
    reading it from something that is reached. A collection stops them. -/
inductive Step (w : World) : Action → World → Prop
  | make {kind : Kind} {address : Address} (hnew : (⟨kind, address⟩ : BoxId) ∉ w.heap.boxes) :
    Step w (.make kind address) (w.make kind address)
  | write {id : BoxId} {box : Box id.kind} (hid : .box id ∈ w.reached)
      (hbox : ∀ n, boxRefers id.kind box n → w.Accessible n) :
    Step w (.write id box) { w with heap := { w.heap with boxes := w.heap.boxes.insert id box } }
  | writeTask {a : Address} {task : Task} (htask : ∀ n, taskRefers task n → w.Accessible n) :
    Step w (.writeTask a task) { w with heap := { w.heap with tasks := w.heap.tasks.insert a task } }
  | writeProgram {a : Address} {chunk : Chunk} (hchunk : ∀ n, programRefers chunk n → w.Accessible n) :
    Step w (.writeProgram a chunk)
      { w with heap := { w.heap with programs := w.heap.programs.insert a chunk } }
  | writeStatics {a : Address} {fields : List (String × Option StaticField)}
      (hfields : ∀ n, staticsRefer fields n → w.Accessible n) :
    Step w (.writeStatics a fields)
      { w with heap := { w.heap with statics := w.heap.statics.insert a fields } }
  | setRoots {roots : GCRoots} (hroots : ∀ n ∈ roots.nodes, w.Accessible n) :
    Step w (.setRoots roots) { w with roots := roots }
  | protect {id : BoxId} (hid : .box id ∈ w.reached) :
      Step w (.protect id) { w with collector := w.collector.protect id }
  | unprotect {id : BoxId} : Step w (.unprotect id) { w with collector := w.collector.unprotect id }
  | collect :
    Step w .collect
      { w with
        collector := (w.collector.collect w.heap w.roots).1
        detached := w.detached ++ [(w.collector.collect w.heap w.roots).2.retired] }
  | reset {before after : List (List BoxId)} {boxes : List BoxId}
      (hdetached : w.detached = before ++ boxes :: after) :
    Step w (.reset boxes)
      { w with heap := w.heap.reset boxes, detached := before ++ after, cleared := w.cleared ++ [boxes] }
  | handOff {before after : List (List BoxId)} {boxes : List BoxId}
      (hcleared : w.cleared = before ++ boxes :: after) :
    Step w (.handOff boxes)
      { w with
        collector := (w.collector.handOff w.heap boxes).1
        heap := (w.collector.handOff w.heap boxes).2
        cleared := before ++ after }

def Initial (w : World) : Prop := w = {}

/-- How many owners a box has: the registry, a collection on its way, or a free list. -/
def World.owners (w : World) (id : BoxId) : Nat :=
  w.collector.entries.count id + w.detached.flatten.count id + w.cleared.flatten.count id +
    (w.collector.free id.kind).count id.address

/-- Each box has one owner, only the registry owns boxes that are reached, and the boxes that are
    ready to be handed out again are like fresh ones. -/
structure Inv (w : World) : Prop where
  once : ∀ id, w.owners id ≤ 1
  allocated : ∀ id, 0 < w.owners id → id ∈ w.heap.boxes
  live : ∀ id, .box id ∈ w.reached → id ∈ w.collector.entries
  clean : ∀ id, id ∈ w.cleared.flatten ∨ id.address ∈ w.collector.free id.kind →
    w.heap.boxes.lookup id = some (Box.fresh id.kind)

variable {w w' : World} {heap : Heap} {id : BoxId} {n m : Node}

theorem World.Accessible.of_reached (hn : n ∈ w.reached) : w.Accessible n := fun _ hbox => by
  obtain ⟨s, rfl, hpath⟩ := hbox
  obtain ⟨s', hs', hpath'⟩ := hn
  exact ⟨s', hs', hpath'.trans hpath⟩

theorem World.Accessible.step (hn : w.Accessible n) (hedge : Refers w.heap n m) : w.Accessible m :=
  fun id hbox => by
  obtain ⟨s, rfl, hpath⟩ := hbox
  exact hn id ⟨n, rfl, .head hedge hpath⟩

theorem World.Accessible.reached (hn : w.Accessible (.box id)) : .box id ∈ w.reached :=
  hn id (subset_reached rfl)

theorem World.Accessible.of_start (hn : n ∈ starts w.collector w.roots) : w.Accessible n :=
  World.Accessible.of_reached (subset_reached hn)

/-- A step by which a node only comes to refer to what is accessible, new ones apart, makes no box
    reachable but the new ones. -/
theorem reached_of_step (New : Node → Prop) (hid : .box id ∈ w'.reached)
    (hstarts : ∀ n ∈ starts w'.collector w'.roots, w.Accessible n ∨ New n)
    (hedges : ∀ n m, w.Accessible n → Refers w'.heap n m → w.Accessible m ∨ New m)
    (hnew : ∀ n m, New n → ¬ Refers w'.heap n m) : .box id ∈ w.reached ∨ New (.box id) := by
  have hsub : w'.reached ⊆ {n | w.Accessible n ∨ New n} := reached_subset hstarts fun n hn m hedge => by
    rcases hn with hn | hn
    · exact hedges n m hn hedge
    · exact absurd hedge (hnew n m hn)
  exact (hsub hid).imp_left World.Accessible.reached

theorem reached_of_write (hid : .box id ∈ w'.reached) (hstarts : ∀ n ∈ starts w'.collector w'.roots,
      w.Accessible n)
    (hedges : ∀ n m, w.Accessible n → Refers w'.heap n m → w.Accessible m) : .box id ∈ w.reached := by
  have hreached : .box id ∈ w.reached ∨ False :=
    reached_of_step (fun _ => False) hid (fun n hn => .inl (hstarts n hn))
    (fun n m hn hedge => .inl (hedges n m hn hedge)) fun _ _ hnew => hnew.elim
  exact hreached.resolve_right not_false

theorem refers_boxes {boxes : AList fun id : BoxId => Box id.kind}
    (hedge : Refers { heap with boxes := boxes } n m) :
    (∃ id, n = .box id ∧ boxes.lookup id ≠ heap.boxes.lookup id) ∨ Refers heap n m := by
  cases n with
  | box id =>
    by_cases hsame : boxes.lookup id = heap.boxes.lookup id
    · rw [Refers, hsame] at hedge
      exact .inr hedge
    · exact .inl ⟨id, rfl, hsame⟩
  | task a => exact .inr hedge
  | program a => exact .inr hedge
  | statics a => exact .inr hedge

theorem refers_insert {box : Box id.kind}
    (hedge : Refers { heap with boxes := heap.boxes.insert id box } n m) :
    n = .box id ∧ boxRefers id.kind box m ∨ Refers heap n m := by
  rcases refers_boxes hedge with ⟨id', rfl, hne⟩ | hedge
  · by_cases heq : id' = id
    · subst heq
      obtain ⟨box', hlookup, hrefers⟩ := hedge
      rw [AList.lookup_insert] at hlookup
      cases hlookup
      exact .inl ⟨rfl, hrefers⟩
    · exact absurd (AList.lookup_insert_ne heq) hne
  · exact .inr hedge

theorem not_boxRefers_fresh {kind : Kind} : ¬ boxRefers kind (Box.fresh kind) m := by
  rintro (⟨v, hv, -⟩ | ⟨p, hp, -⟩)
  · cases kind with
    | list => nomatch hv
    | map =>
      obtain ⟨entry, hentry, -⟩ := hv
      nomatch hentry
    | object =>
      cases hv with
      | field hv => nomatch hv
      | extraField hv => nomatch hv
      | atomicRef hv => nomatch hv
      | item hchannel _ => nomatch hchannel
      | pendingSend hchannel _ => nomatch hchannel
      | pendingSendTask hchannel _ => nomatch hchannel
      | pendingReceiveTask hchannel _ => nomatch hchannel
    | closure =>
      obtain ⟨name, hname⟩ := hv
      nomatch hname
  · cases kind <;> nomatch hp

theorem lookup_reset (heap : Heap) (boxes : List BoxId) (id : BoxId) :
    (heap.reset boxes).boxes.lookup id =
      if id ∈ boxes then (heap.boxes.lookup id).map fun _ =>
      Box.fresh id.kind else heap.boxes.lookup id := by
  induction boxes generalizing heap with
  | nil => rfl
  | cons first boxes ih =>
    rw [Heap.reset]
    split
    · next box hlookup =>
      rw [ih, resetBox_eq_fresh]
      by_cases heq : id = first
      · subst heq
        simp [AList.lookup_insert, hlookup]
      · simp [AList.lookup_insert_ne heq, List.mem_cons, heq]
    · next hlookup =>
      rw [ih]
      by_cases heq : id = first
      · subst heq
        simp [hlookup]
      · simp [List.mem_cons, heq]

theorem reset_boxes (heap : Heap) (boxes : List BoxId) :
    heap.reset boxes = { heap with boxes := (heap.reset boxes).boxes } := by
  induction boxes generalizing heap with
  | nil => rfl
  | cons first boxes ih =>
    rw [Heap.reset]
    split
    · exact (ih _).trans rfl
    · exact ih _

theorem reached_of_unreached (hid : .box id ∈ w'.reached)
    (hcollector : starts w'.collector w'.roots ⊆ starts w.collector w.roots)
    {boxes : AList fun id : BoxId => Box id.kind} (hheap : w'.heap = { w.heap with boxes := boxes })
    (hsame : ∀ id, .box id ∈ w.reached → boxes.lookup id = w.heap.boxes.lookup id) :
      .box id ∈ w.reached := by
  refine reached_of_write hid (fun n hn => .of_start (hcollector hn)) fun n m hn hedge => ?_
  rw [hheap] at hedge
  rcases refers_boxes hedge with ⟨id', rfl, hne⟩ | hedge
  · exact absurd (hsame id' hn.reached) hne
  · exact hn.step hedge

theorem Inv.not_reached (h : Inv w) (hid : id ∉ w.collector.entries) : .box id ∉ w.reached :=
  fun hreached =>
  hid (h.live id hreached)

theorem Inv.notMem_entries (h : Inv w)
    (hid : id ∈ w.detached.flatten ∨ id ∈ w.cleared.flatten ∨ id.address ∈ w.collector.free id.kind) :
    id ∉ w.collector.entries := fun hentry => by
  have honce := h.once id
  have hentries := List.count_pos_iff.mpr hentry
  unfold World.owners at honce
  rcases hid with hid | hid | hid
  · have hdetached := List.count_pos_iff.mpr hid
    omega
  · have hcleared := List.count_pos_iff.mpr hid
    omega
  · have hfree := List.count_pos_iff.mpr hid
    omega

theorem named_append_handle {roots : GCRoots} (hn : n ∈ (roots.append { values := [handle id] }).nodes) :
    n ∈ roots.nodes ∨ n = .box id := by
  rw [GCRoots.nodes, GCRoots.append, named_append] at hn
  refine hn.imp_right fun hn => ?_
  simp only [named, List.mem_singleton, List.not_mem_nil, false_and, exists_false, or_false,
    exists_eq_left] at hn
  exact (Option.some.inj hn).symm

theorem Inv.reuse (h : Inv w) {kind : Kind} {a : Address} {rest : List Address}
    (hfree : w.collector.free kind = a :: rest) (address : Address) : Inv (w.make kind address) := by
  have hmake : w.make kind address =
      { w with
        collector :=
          { w.collector with
            entries := w.collector.entries ++ [⟨kind, a⟩]
            free := Function.update w.collector.free kind rest
            totalReused := w.collector.totalReused + 1
            allocationsSinceCollection := w.collector.allocationsSinceCollection + 1
            totalAllocations := w.collector.totalAllocations + 1 }
        roots := w.roots.append { values := [handle ⟨kind, a⟩] } } := by
    rw [World.make, TracingGC.makeGC]
    simp only [hfree]
  rw [hmake]
  have hclean : w.heap.boxes.lookup ⟨kind, a⟩ = some (Box.fresh kind) :=
    h.clean ⟨kind, a⟩ (.inr (by rw [hfree]; exact List.mem_cons_self))
  have hsub (k : Kind) : Function.update w.collector.free kind rest k ⊆ w.collector.free k := by
    by_cases hk : k = kind
    · subst hk
      rw [Function.update_self, hfree]
      exact List.subset_cons_self a rest
    · rw [Function.update_of_ne hk]
      exact List.Subset.refl _
  have howners (id : BoxId) : World.owners { w with
      collector :=
        { w.collector with
          entries := w.collector.entries ++ [⟨kind, a⟩]
          free := Function.update w.collector.free kind rest } } id = w.owners id := by
    obtain ⟨k, b⟩ := id
    simp only [World.owners, List.count_append, List.count_singleton, beq_iff_eq, BoxId.mk.injEq]
    by_cases hk : k = kind
    · subst hk
      rw [Function.update_self, hfree, List.count_cons]
      simp only [true_and, beq_iff_eq]
      omega
    · rw [Function.update_of_ne hk, if_neg fun heq => hk heq.1.symm]
      rfl
  refine ⟨fun id => (howners id).trans_le (h.once id), fun id hid =>
    h.allocated id (hid.trans_eq (howners id)), fun id hid => ?_, fun id hid =>
    h.clean id (hid.imp_right fun hmem => hsub id.kind hmem)⟩
  have hreached : .box id ∈ w.reached ∨ Node.box id = .box ⟨kind, a⟩ := by
    refine reached_of_step (· = .box ⟨kind, a⟩) hid (fun n hn => ?_)
      (fun n m hn hedge => .inl (hn.step hedge)) fun n m hn hedge => ?_
    · rcases hn with hn | ⟨id', hentry, hprotected, rfl⟩
      · exact (named_append_handle hn).imp_left fun hn => .of_start (.inl hn)
      · rcases List.mem_append.mp hentry with hentry | hentry
        · exact .inl (.of_start (.inr ⟨id', hentry, hprotected, rfl⟩))
        · exact .inr (congrArg Node.box (List.mem_singleton.mp hentry))
    · subst hn
      obtain ⟨box, hlookup, hrefers⟩ := hedge
      rw [hclean] at hlookup
      cases hlookup
      exact not_boxRefers_fresh hrefers
  rcases hreached with hreached | heq
  · exact List.mem_append_left _ (h.live id hreached)
  · cases heq
    exact List.mem_append_right _ (List.mem_singleton_self _)

theorem Inv.allocate (h : Inv w) {kind : Kind} {address : Address} (hfree : w.collector.free kind = [])
    (hnew : (⟨kind, address⟩ : BoxId) ∉ w.heap.boxes) : Inv (w.make kind address) := by
  have hmake : w.make kind address =
      { w with
        collector :=
          { w.collector with
            entries := w.collector.entries ++ [⟨kind, address⟩]
            allocationsSinceCollection := w.collector.allocationsSinceCollection + 1
            totalAllocations := w.collector.totalAllocations + 1 }
        heap := { w.heap with boxes := w.heap.boxes.insert ⟨kind, address⟩ (Box.fresh kind) }
        roots := w.roots.append { values := [handle ⟨kind, address⟩] } } := by
    rw [World.make, TracingGC.makeGC]
    simp only [hfree]
  rw [hmake]
  have hunowned : w.owners ⟨kind, address⟩ = 0 := by
    by_contra hne
    exact hnew (h.allocated _ (Nat.pos_of_ne_zero hne))
  have howners (id : BoxId) : World.owners { w with
      collector := { w.collector with entries := w.collector.entries ++ [⟨kind, address⟩] } } id =
      w.owners id + if (⟨kind, address⟩ : BoxId) = id then 1 else 0 := by
    simp only [World.owners, List.count_append, List.count_singleton, beq_iff_eq]
    omega
  have hne {id : BoxId} (hid : id ∈ w.heap.boxes) : id ≠ ⟨kind, address⟩ := fun heq => hnew (heq ▸ hid)
  refine ⟨fun id => ?_, fun id hid => ?_, fun id hid => ?_, fun id hid => ?_⟩
  · refine (howners id).trans_le ?_
    have honce := h.once id
    split
    · next heq =>
      subst heq
      omega
    · exact honce
  · by_cases heq : id = ⟨kind, address⟩
    · exact (AList.mem_insert _).mpr (.inl heq)
    · refine (AList.mem_insert _).mpr (.inr (h.allocated id ?_))
      have hpos := hid.trans_eq (howners id)
      rwa [if_neg fun h => heq h.symm] at hpos
  · have hreached : .box id ∈ w.reached ∨ Node.box id = .box ⟨kind, address⟩ := by
      refine reached_of_step (· = .box ⟨kind, address⟩) hid (fun n hn => ?_)
        (fun n m hn hedge => .inl ?_) fun n m hn hedge => ?_
      · rcases hn with hn | ⟨id', hentry, hprotected, rfl⟩
        · exact (named_append_handle hn).imp_left fun hn => .of_start (.inl hn)
        · rcases List.mem_append.mp hentry with hentry | hentry
          · exact .inl (.of_start (.inr ⟨id', hentry, hprotected, rfl⟩))
          · exact .inr (congrArg Node.box (List.mem_singleton.mp hentry))
      · rcases refers_insert hedge with ⟨-, hrefers⟩ | hedge
        · exact absurd hrefers not_boxRefers_fresh
        · exact hn.step hedge
      · subst hn
        obtain ⟨box, hlookup, hrefers⟩ := hedge
        rw [AList.lookup_insert] at hlookup
        cases hlookup
        exact not_boxRefers_fresh hrefers
    rcases hreached with hreached | heq
    · exact List.mem_append_left _ (h.live id hreached)
    · cases heq
      exact List.mem_append_right _ (List.mem_singleton_self _)
  · have hlookup := h.clean id hid
    exact (AList.lookup_insert_ne (hne (AList.lookup_isSome.mp (by rw [hlookup]; rfl)))).trans hlookup

theorem Inv.make (h : Inv w) {kind : Kind} {address : Address}
    (hnew : (⟨kind, address⟩ : BoxId) ∉ w.heap.boxes) :
    Inv (w.make kind address) := by
  cases hfree : w.collector.free kind with
  | nil => exact h.allocate hfree hnew
  | cons a rest => exact h.reuse hfree address

theorem Inv.write (h : Inv w) {box : Box id.kind} (hid : .box id ∈ w.reached)
    (hbox : ∀ n, boxRefers id.kind box n → w.Accessible n) :
    Inv { w with heap := { w.heap with boxes := w.heap.boxes.insert id box } } := by
  refine ⟨h.once, fun id' hid' => (AList.mem_insert _).mpr (.inr (h.allocated id' hid')),
    fun id' hid' => h.live id' ?_, fun id' hid' => ?_⟩
  · refine reached_of_write hid' (fun n hn => .of_start hn) fun n m hn hedge => ?_
    rcases refers_insert hedge with ⟨-, hrefers⟩ | hedge
    · exact hbox m hrefers
    · exact hn.step hedge
  · have hne : id' ≠ id := fun heq => h.notMem_entries (heq ▸ .inr hid') (h.live id hid)
    exact (AList.lookup_insert_ne hne).trans (h.clean id' hid')

/-- The mutators write to tasks, programs and static storages, or change their roots. -/
theorem Inv.mutate (h : Inv w) {heap : Heap} {roots : GCRoots} (hboxes : heap.boxes = w.heap.boxes)
    (hroots : ∀ n ∈ roots.nodes, w.Accessible n)
    (hedges : ∀ n m, w.Accessible n → Refers heap n m → w.Accessible m) :
    Inv { w with heap := heap, roots := roots } := by
  refine ⟨h.once, fun id hid => ?_, fun id hid =>
    h.live id (reached_of_write hid (fun n hn => ?_) hedges), fun id hid => ?_⟩
  · rw [hboxes]
    exact h.allocated id hid
  · rcases hn with hn | hn
    · exact hroots n hn
    · exact .of_start (.inr hn)
  · rw [hboxes]
    exact h.clean id hid

theorem Inv.protection (h : Inv w) (gc : TracingGC) (hentries : gc.entries = w.collector.entries)
    (hfree : gc.free = w.collector.free)
    (hprotected : ∀ id ∈ gc.protectedRoots, id ∈ w.collector.protectedRoots ∨ .box id ∈ w.reached) :
    Inv { w with collector := gc } := by
  have howners (id : BoxId) : World.owners { w with collector := gc } id = w.owners id := by
    rw [World.owners, hentries, hfree, World.owners]
  refine ⟨fun id => (howners id).trans_le (h.once id), fun id hid =>
    h.allocated id (hid.trans_eq (howners id)), fun id hid => ?_, fun id hid => h.clean id (hfree ▸ hid)⟩
  rw [hentries]
  refine h.live id (reached_of_write hid (fun n hn => ?_) fun n m hn hedge => hn.step hedge)
  rcases hn with hn | ⟨id', hentry, hid', rfl⟩
  · exact .of_start (.inl hn)
  · rcases hprotected id' hid' with hold | hreached
    · exact .of_start (.inr ⟨id', hentries ▸ hentry, hold, rfl⟩)
    · exact .of_reached hreached

theorem protect_protectedRoots {gc : TracingGC} {id' : BoxId} (hid : id' ∈ (gc.protect id).protectedRoots) :
    id' ∈ gc.protectedRoots ∨ id' = id := ((AList.mem_insert _).mp hid).symm

theorem unprotect_protectedRoots {gc : TracingGC} {id' : BoxId}
    (hid : id' ∈ (gc.unprotect id).protectedRoots) :
    id' ∈ gc.protectedRoots := by
  unfold TracingGC.unprotect at hid
  split at hid
  · exact hid
  · next count hlookup =>
    split at hid
    · exact (AList.mem_erase.mp hid).2
    · rcases (AList.mem_insert _).mp hid with rfl | hid
      · exact AList.lookup_isSome.mp (by rw [hlookup]; rfl)
      · exact hid

theorem unprotect_eq (gc : TracingGC) (id : BoxId) :
    (gc.unprotect id).entries = gc.entries ∧ (gc.unprotect id).free = gc.free := by
  unfold TracingGC.unprotect
  split
  · exact ⟨rfl, rfl⟩
  · split
    · exact ⟨rfl, rfl⟩
    · exact ⟨rfl, rfl⟩

theorem count_filter_add (p : BoxId → Prop) [DecidablePred p] (boxes : List BoxId) (id : BoxId) :
    (boxes.filter fun id => p id).count id + (boxes.filter fun id => ¬ p id).count id =
      boxes.count id := by
  by_cases hp : p id
  · have hnone : (boxes.filter fun id => ¬ p id).count id = 0 :=
      List.count_eq_zero.mpr fun hmem => of_decide_eq_true (List.mem_filter.mp hmem).2 hp
    rw [List.count_filter (p := fun id => decide (p id)) (decide_eq_true hp), hnone, Nat.add_zero]
  · have hnone : (boxes.filter fun id => p id).count id = 0 :=
      List.count_eq_zero.mpr fun hmem => hp (of_decide_eq_true (List.mem_filter.mp hmem).2)
    rw [List.count_filter (p := fun id => decide ¬p id) (decide_eq_true hp), hnone, Nat.zero_add]

/-- A collection only takes away boxes that are not reached. -/
theorem Inv.collect (h : Inv w) :
    Inv { w with
      collector := (w.collector.collect w.heap w.roots).1
      detached := w.detached ++ [(w.collector.collect w.heap w.roots).2.retired] } := by
  have howners (id : BoxId) : World.owners { w with
      collector := (w.collector.collect w.heap w.roots).1
      detached := w.detached ++ [(w.collector.collect w.heap w.roots).2.retired] } id = w.owners id := by
    have hcount := count_filter_add (fun id => .box id ∈ (w.collector.marker w.heap w.roots).marked)
      w.collector.entries id
    simp only [World.owners, TracingGC.collect, List.flatten_append, List.flatten_singleton,
      List.count_append]
    omega
  refine ⟨fun id => (howners id).trans_le (h.once id), fun id hid =>
    h.allocated id (hid.trans_eq (howners id)), fun id hid => ?_, h.clean⟩
  have hreached : .box id ∈ w.reached := by
    refine reached_of_write hid (fun n hn => ?_) fun n m hn hedge => hn.step hedge
    rcases hn with hn | ⟨id', hentry, hprotected, rfl⟩
    · exact .of_start (.inl hn)
    · exact .of_start (.inr ⟨id', ((w.collector.mem_collect_iff w.heap w.roots id').2.mp hentry).1,
        hprotected, rfl⟩)
  exact (w.collector.mem_collect_iff w.heap w.roots id).2.mpr ⟨h.live id hreached, hreached⟩

theorem Inv.reset (h : Inv w) {before after : List (List BoxId)} {boxes : List BoxId}
    (hdetached : w.detached = before ++ boxes :: after) :
    Inv { w with
      heap := w.heap.reset boxes
      detached := before ++ after
      cleared := w.cleared ++ [boxes] } := by
  have howners (id : BoxId) : World.owners
      { w with heap := w.heap.reset boxes, detached := before ++ after, cleared := w.cleared ++ [boxes] } id =
        w.owners id := by
    simp only [World.owners, hdetached, List.flatten_append, List.flatten_cons, List.flatten_nil,
      List.append_nil, List.count_append]
    omega
  have hmem {id : BoxId} (hid : id ∈ boxes) : id ∈ w.detached.flatten :=
    List.mem_flatten_of_mem (by rw [hdetached]; exact List.mem_append_right _ List.mem_cons_self) hid
  have hallocated {id : BoxId} (hid : id ∈ w.heap.boxes) : id ∈ (w.heap.reset boxes).boxes := by
    have hsome := AList.lookup_isSome.mpr hid
    refine AList.lookup_isSome.mp ?_
    rw [lookup_reset]
    split
    · rwa [Option.isSome_map]
    · exact hsome
  refine ⟨fun id => (howners id).trans_le (h.once id), fun id hid =>
    hallocated (h.allocated id (hid.trans_eq (howners id))), fun id hid => h.live id ?_, fun id hid => ?_⟩
  · refine reached_of_unreached hid (Set.Subset.refl _) (reset_boxes w.heap boxes) fun id' hid' => ?_
    have hnot : id' ∉ boxes := fun hid'' => h.notMem_entries (.inl (hmem hid'')) (h.live id' hid')
    rw [lookup_reset, if_neg hnot]
  · change (w.heap.reset boxes).boxes.lookup id = _
    rw [lookup_reset]
    split
    · next hbox =>
      have hpos : 0 < w.owners id := by
        have hcount := List.count_pos_iff.mpr (hmem hbox)
        unfold World.owners
        omega
      obtain ⟨box, hlookup⟩ := Option.isSome_iff_exists.mp (AList.lookup_isSome.mpr (h.allocated id hpos))
      rw [hlookup]
      rfl
    · next hbox =>
      refine h.clean id (hid.imp_left fun hid => ?_)
      rw [List.flatten_append, List.flatten_singleton] at hid
      exact (List.mem_append.mp hid).resolve_right hbox

theorem Inv.pool (h : Inv w) {before after : List (List BoxId)} {boxes : List BoxId}
    (hcleared : w.cleared = before ++ (id :: boxes) :: after) :
    Inv { w with
      collector :=
        { w.collector with
          free := Function.update w.collector.free id.kind (id.address :: w.collector.free id.kind) }
      cleared := before ++ boxes :: after } := by
  have howners (id' : BoxId) : World.owners { w with
      collector :=
        { w.collector with
          free := Function.update w.collector.free id.kind (id.address :: w.collector.free id.kind) }
      cleared := before ++ boxes :: after } id' = w.owners id' := by
    obtain ⟨kind, address⟩ := id
    obtain ⟨k, b⟩ := id'
    simp only [World.owners, hcleared, List.flatten_append, List.flatten_cons, List.count_append,
      List.count_cons, beq_iff_eq, BoxId.mk.injEq, List.cons_append]
    by_cases hk : k = kind
    · subst hk
      rw [Function.update_self, List.count_cons]
      simp only [true_and, beq_iff_eq]
      omega
    · rw [Function.update_of_ne hk, if_neg fun heq => hk heq.1.symm]
      rfl
  refine ⟨fun id => (howners id).trans_le (h.once id), fun id hid =>
    h.allocated id (hid.trans_eq (howners id)), fun id' hid =>
    h.live id' (reached_of_write hid (fun n hn => .of_start hn) fun n m hn hedge => hn.step hedge),
    fun id' hid => h.clean id' ?_⟩
  have hflatten {id' : BoxId} (hid' : id' ∈ (before ++ boxes :: after).flatten) :
      id' ∈ w.cleared.flatten := by
    rw [hcleared]
    simp only [List.flatten_append, List.flatten_cons, List.mem_append, List.mem_cons] at hid' ⊢
    tauto
  rcases hid with hid | hid
  · exact .inl (hflatten hid)
  · change id'.address ∈ Function.update w.collector.free id.kind _ id'.kind at hid
    by_cases hk : id'.kind = id.kind
    · rw [hk, Function.update_self] at hid
      rcases List.mem_cons.mp hid with haddress | hid
      · have heq : id' = id := by
          cases id
          cases id'
          simp_all
        refine .inl ?_
        rw [heq, hcleared]
        simp
      · exact .inr (hk ▸ hid)
    · rw [Function.update_of_ne hk] at hid
      exact .inr hid

/-- A box is destroyed: its free list is full. -/
theorem Inv.destroy (h : Inv w) {before after : List (List BoxId)} {boxes : List BoxId}
    (hcleared : w.cleared = before ++ (id :: boxes) :: after) :
    Inv { w with
      heap := { w.heap with boxes := w.heap.boxes.erase id }
      cleared := before ++ boxes :: after } := by
  have howners (id' : BoxId) : World.owners { w with
      heap := { w.heap with boxes := w.heap.boxes.erase id }, cleared := before ++ boxes :: after } id' +
      (if id = id' then 1 else 0) = w.owners id' := by
    simp only [World.owners, hcleared, List.flatten_append, List.flatten_cons, List.count_append,
      List.count_cons, beq_iff_eq, List.cons_append]
    omega
  have hmem : id ∈ w.cleared.flatten := by
    rw [hcleared]
    simp
  have hne {id' : BoxId} (hpos : 0 < World.owners { w with
      heap := { w.heap with boxes := w.heap.boxes.erase id }, cleared := before ++ boxes :: after }
        id') : id' ≠ id := fun heq => by
    have hcount := howners id'
    rw [if_pos heq.symm] at hcount
    have honce := h.once id'
    omega
  refine ⟨fun id' => ?_, fun id' hid => AList.mem_erase.mpr ⟨hne hid, h.allocated id' ?_⟩,
    fun id' hid => h.live id' ?_, fun id' hid => ?_⟩
  · have hcount := howners id'
    have honce := h.once id'
    omega
  · have hcount := howners id'
    omega
  · refine reached_of_unreached hid (Set.Subset.refl _) rfl fun id'' hid'' =>
      AList.lookup_erase_ne fun heq => ?_
    exact h.notMem_entries (.inr (.inl hmem)) (heq ▸ h.live id'' hid'')
  · have hpos : 0 < World.owners { w with
        heap :=
          { w.heap with boxes := w.heap.boxes.erase id }, cleared := before ++ boxes :: after } id' := by
      unfold World.owners
      rcases hid with hid | hid
      · have hcount := List.count_pos_iff.mpr hid
        omega
      · have hcount := List.count_pos_iff.mpr hid
        omega
    refine (AList.lookup_erase_ne (hne hpos)).trans (h.clean id' (hid.imp_left fun hid => ?_))
    rw [hcleared]
    change id' ∈ (before ++ boxes :: after).flatten at hid
    simp only [List.flatten_append, List.flatten_cons, List.mem_append, List.mem_cons] at hid ⊢
    tauto

theorem Inv.handOff {boxes : List BoxId} {before after : List (List BoxId)} (h : Inv w)
    (hcleared : w.cleared = before ++ boxes :: after) :
    Inv { w with
      collector := (w.collector.handOff w.heap boxes).1
      heap := (w.collector.handOff w.heap boxes).2
      cleared := before ++ after } := by
  induction boxes generalizing w with
  | nil =>
    have hflatten : w.cleared.flatten = (before ++ after).flatten := by
      rw [hcleared]
      simp
    refine ⟨fun id => ?_, fun id hid => h.allocated id ?_, h.live, fun id hid =>
      h.clean id (hflatten ▸ hid)⟩
    · have honce := h.once id
      rwa [World.owners, hflatten] at honce
    · rwa [World.owners, hflatten]
  | cons id boxes ih =>
    rw [TracingGC.handOff]
    split
    · exact ih (h.pool hcleared) rfl
    · exact ih (h.destroy hcleared) rfl

theorem lookup_handOff (gc : TracingGC) (heap : Heap) {boxes : List BoxId} (hid : id ∉ boxes) :
    (gc.handOff heap boxes).2.boxes.lookup id = heap.boxes.lookup id ∧
      (gc.handOff heap boxes).1.entries = gc.entries := by
  induction boxes generalizing gc heap with
  | nil => exact ⟨rfl, rfl⟩
  | cons first boxes ih =>
    obtain ⟨hne, hid⟩ := not_or.mp fun hor => hid (List.mem_cons.mpr hor)
    rw [TracingGC.handOff]
    split
    · exact ih _ heap hid
    · obtain ⟨hlookup, hentries⟩ := ih gc { heap with boxes := heap.boxes.erase first } hid
      exact ⟨hlookup.trans (AList.lookup_erase_ne hne), hentries⟩

theorem Inv.step {a : Action} (h : Inv w) (hstep : Step w a w') : Inv w' := by
  cases hstep with
  | make hnew => exact h.make hnew
  | write hid hbox => exact h.write hid hbox
  | @writeTask a task htask =>
    refine h.mutate rfl (fun n hn => .of_start (.inl hn)) fun n m hn hedge => ?_
    cases n with
    | task b =>
      by_cases heq : b = a
      · obtain ⟨task', hlookup, hrefers⟩ := hedge
        rw [heq, AList.lookup_insert] at hlookup
        cases hlookup
        exact htask m hrefers
      · rw [Refers, AList.lookup_insert_ne heq] at hedge
        exact hn.step hedge
    | box id => exact hn.step hedge
    | program b => exact hn.step hedge
    | statics b => exact hn.step hedge
  | @writeProgram a chunk hchunk =>
    refine h.mutate rfl (fun n hn => .of_start (.inl hn)) fun n m hn hedge => ?_
    cases n with
    | program b =>
      by_cases heq : b = a
      · obtain ⟨chunk', hlookup, hrefers⟩ := hedge
        rw [heq, AList.lookup_insert] at hlookup
        cases hlookup
        exact hchunk m hrefers
      · rw [Refers, AList.lookup_insert_ne heq] at hedge
        exact hn.step hedge
    | box id => exact hn.step hedge
    | task b => exact hn.step hedge
    | statics b => exact hn.step hedge
  | @writeStatics a fields hfields =>
    refine h.mutate rfl (fun n hn => .of_start (.inl hn)) fun n m hn hedge => ?_
    cases n with
    | statics b =>
      by_cases heq : b = a
      · obtain ⟨fields', hlookup, hrefers⟩ := hedge
        rw [heq, AList.lookup_insert] at hlookup
        cases hlookup
        exact hfields m hrefers
      · rw [Refers, AList.lookup_insert_ne heq] at hedge
        exact hn.step hedge
    | box id => exact hn.step hedge
    | task b => exact hn.step hedge
    | program b => exact hn.step hedge
  | setRoots hroots => exact h.mutate rfl hroots fun n m hn hedge => hn.step hedge
  | @protect id hid =>
    refine h.protection (w.collector.protect id) rfl rfl fun id' hid' => ?_
    rcases protect_protectedRoots hid' with hold | rfl
    · exact .inl hold
    · exact .inr hid
  | unprotect =>
    exact h.protection _ (unprotect_eq _ _).1 (unprotect_eq _ _).2 fun id' hid' =>
      .inl (unprotect_protectedRoots hid')
  | collect => exact h.collect
  | reset hdetached => exact h.reset hdetached
  | handOff hcleared => exact h.handOff hcleared

theorem Inv.initial (hinit : Initial w) : Inv w := by
  subst hinit
  refine ⟨fun id => Nat.zero_le _, fun id hid => absurd hid (Nat.lt_irrefl 0), fun id hid => ?_,
    fun id hid => ?_⟩
  · obtain ⟨s, hs, -⟩ := hid
    rcases hs with (⟨v, hv, -⟩ | ⟨p, hp, -⟩) | ⟨id', hentry, -⟩
    · nomatch hv
    · nomatch hp
    · nomatch hentry
  · rcases hid with hid | hid
    · nomatch hid
    · nomatch hid

/-- What the collector does keeps every box that is reached as it is. -/
theorem Inv.collector_keeps (h : Inv w) {a : Action} (hstep : Step w a w') (ha : a.isCollectors = true)
    (hid : .box id ∈ w.reached) : id ∈ w'.collector.entries ∧
      w'.heap.boxes.lookup id = w.heap.boxes.lookup id := by
  have hentry := h.live id hid
  cases hstep with
  | collect => exact ⟨(w.collector.mem_collect_iff w.heap w.roots id).2.mpr ⟨hentry, hid⟩, rfl⟩
  | @reset before after boxes hdetached =>
    have hnot : id ∉ boxes := fun hbox => by
      refine h.notMem_entries (.inl (List.mem_flatten_of_mem ?_ hbox)) hentry
      rw [hdetached]
      exact List.mem_append_right _ List.mem_cons_self
    exact ⟨hentry, by rw [lookup_reset, if_neg hnot]⟩
  | @handOff before after boxes hcleared =>
    have hnot : id ∉ boxes := fun hbox => by
      refine h.notMem_entries (.inr (.inl (List.mem_flatten_of_mem ?_ hbox))) hentry
      rw [hcleared]
      exact List.mem_append_right _ List.mem_cons_self
    obtain ⟨hlookup, hentries⟩ := lookup_handOff w.collector w.heap hnot
    exact ⟨hentries ▸ hentry, hlookup⟩
  | _ => cases ha

/-- What is handed out is like a fresh box, and nobody has it. -/
theorem Inv.made_fresh (h : Inv w) {kind : Kind} {address : Address}
    (hnew : (⟨kind, address⟩ : BoxId) ∉ w.heap.boxes) :
    let made := w.collector.makeGC w.heap kind address
    made.2.2.kind = kind ∧ made.2.1.boxes.lookup made.2.2 = some (Box.fresh made.2.2.kind) ∧
      made.2.2 ∉ w.collector.entries ∧ .box made.2.2 ∉ w.reached := by
  unfold TracingGC.makeGC
  split
  · next a rest hfree =>
    have hmem : a ∈ w.collector.free kind := by
      rw [hfree]
      exact List.mem_cons_self
    have hnot : (⟨kind, a⟩ : BoxId) ∉ w.collector.entries := h.notMem_entries (.inr (.inr hmem))
    exact ⟨rfl, h.clean ⟨kind, a⟩ (.inr hmem), hnot, h.not_reached hnot⟩
  · have hnot : (⟨kind, address⟩ : BoxId) ∉ w.collector.entries := fun hentry => by
      refine hnew (h.allocated _ ?_)
      have hcount := List.count_pos_iff.mpr hentry
      unfold World.owners
      omega
    exact ⟨rfl, AList.lookup_insert _, hnot, h.not_reached hnot⟩

/-- The collector retires exactly the boxes that are not reached, it never touches one that is, and
    what it hands out again is like a fresh box that nobody has. -/
theorem never_recycles_live :
    (∀ (gc : TracingGC) (heap : Heap) (roots : GCRoots) (id : BoxId),
      (id ∈ (gc.collect heap roots).2.retired ↔ id ∈ gc.entries ∧
        .box id ∉ Reached (Refers heap) (starts gc roots)) ∧
        (id ∈ (gc.collect heap roots).1.entries ↔ id ∈ gc.entries ∧
        .box id ∈ Reached (Refers heap) (starts gc roots))) ∧
    (∀ (w : World) (past : List (World × Action)), Run Initial Step w past →
      (∀ id, .box id ∈ w.reached → id ∈ w.collector.entries) ∧
      (∀ a w', Step w a w' → a.isCollectors = true → ∀ id, .box id ∈ w.reached →
        id ∈ w'.collector.entries ∧ w'.heap.boxes.lookup id = w.heap.boxes.lookup id) ∧
      ∀ kind address, (⟨kind, address⟩ : BoxId) ∉ w.heap.boxes →
        let made := w.collector.makeGC w.heap kind address
        made.2.2.kind = kind ∧ made.2.1.boxes.lookup made.2.2 = some (Box.fresh made.2.2.kind) ∧
          made.2.2 ∉ w.collector.entries ∧ .box made.2.2 ∉ w.reached) := by
  refine ⟨fun gc heap roots id => gc.mem_collect_iff heap roots id, fun w past hrun => ?_⟩
  have hinv : Inv w :=
    hrun.invariant_of_all Inv (fun _ hinit => .initial hinit) fun _ _ _ h hstep => h.step hstep
  exact ⟨hinv.live, fun a w' hstep ha id hid => hinv.collector_keeps hstep ha hid,
    fun kind address hnew => hinv.made_fresh hnew⟩

/-- A list that is dropped is collected and handed out again. -/
theorem never_recycles_live_reused : ∃ (w : World) (past : List (World × Action)),
    Run Initial Step w past ∧ (w.collector.makeGC w.heap .list 1).2.2 = ⟨.list, 0⟩ ∧
    .box (w.collector.makeGC w.heap .list 1).2.2 ∉ w.reached := by
  let w₂ : World := { World.make {} .list 0 with roots := {} }
  have hretired : (w₂.collector.collect w₂.heap {}).2.retired = [⟨.list, 0⟩] := by
    simp [w₂, World.make, TracingGC.makeGC, TracingGC.collect, TracingGC.marker,
      TracingGC.protectedValues, Marker.trace]
  have h₀ : Run Initial Step ({} : World) [] := .start rfl
  have h₁ := h₀.step (@Step.make _ .list 0 (AList.notMem_empty _))
  have h₂ : Run Initial Step w₂ _ :=
    h₁.step (@Step.setRoots _ {} fun n hn => by simp [GCRoots.nodes, named] at hn)
  have h₃ := h₂.step .collect
  have h₄ := h₃.step (@Step.reset _ [] [] _ rfl)
  have h₅ := h₄.step (@Step.handOff _ [] [] _ rfl)
  let last := (w₂.collector.collect w₂.heap {}).1.handOff (w₂.heap.reset [⟨.list, 0⟩]) [⟨.list, 0⟩]
  have hnew : (⟨.list, 1⟩ : BoxId) ∉ last.2.boxes := by decide
  have hreused : (last.1.makeGC last.2 .list 1).2.2 = ⟨.list, 0⟩ := rfl
  simp only [last, ← hretired] at hnew hreused
  exact ⟨_, _, h₅, hreused, ((never_recycles_live.2 _ _ h₅).2.2 .list 1 hnew).2.2.2⟩
end zl.vm.gc
