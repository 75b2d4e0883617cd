import Mathlib
import Zl.Vm.Gc.Heap

open zl.graph zl.vm.task zl.vm.statics zl.transition

namespace zl.vm.gc

/-- What a handle or a pointer leads to. -/
inductive Node where
  | box (id : BoxId)
  | task (a : Address)
  | program (a : Address)
  | statics (a : Address)
  deriving DecidableEq

/-- What a value refers to, if it is managed. -/
def identity : Value → Option Node
  | .box kind (some a) => some (.box ⟨kind, a⟩)
  | .task (some a) => some (.task a)
  | _ => none

/-- The places of an object where a value is held. The tasks of pending operations are held, too. -/
inductive ObjectBox.Holds (box : ObjectBox) : Value → Prop
  | field {v : Value} (hv : v ∈ box.fields) : Holds box v
  | extraField {name : String} {v : Value} (hv : v ∈ box.extraFields.lookup name) : Holds box v
  | atomicRef {v : Value} (hv : box.atomicRefState = some v) : Holds box v
  | item {channel : ChannelState} {v : Value} (hchannel : box.channelState = some channel)
      (hv : v ∈ channel.items) : Holds box v
  | pendingSend {channel : ChannelState} {pending : PendingSend}
      (hchannel : box.channelState = some channel)
      (hpending : pending ∈ channel.pendingSends) : Holds box pending.value
  | pendingSendTask {channel : ChannelState} {pending : PendingSend}
      (hchannel : box.channelState = some channel)
      (hpending : pending ∈ channel.pendingSends) : Holds box (.task pending.task)
  | pendingReceiveTask {channel : ChannelState} {task : Option Address}
      (hchannel : box.channelState = some channel)
      (hpending : task ∈ channel.pendingReceives) : Holds box (.task task)

def Box.Holds : (kind : Kind) → Box kind → Value → Prop
  | .list, box, v => v ∈ ListBox.items box
  | .map, box, v => ∃ entry ∈ MapBox.entries box, v = entry.1 ∨ v = entry.2
  | .object, box, v => ObjectBox.Holds box v
  | .closure, box, v => ∃ name, (name, v) ∈ ClosureBox.captured box

/-- The program of a closure. -/
def Box.program : (kind : Kind) → Box kind → Option Address
  | .closure, box => ClosureBox.chunk box
  | .list, _ | .map, _ | .object, _ => none

/-- A task holds its result, the values of its operation and its error. Its children it only knows
    weakly. -/
inductive TaskHolds (task : Task) : Value → Prop
  | result {v : Value} (hv : task.result = some v) : TaskHolds task v
  | operationRoot {v : Value} (hv : v ∈ task.operationRoots) : TaskHolds task v
  | error {failure : StoredException} (hfailure : task.error = some failure) :
      TaskHolds task (.box .object failure.managed)

/-- A static storage holds the values and the failures of its fields. -/
inductive StaticsHold (fields : List (String × Option StaticField)) : Value → Prop
  | value {name : String} {field : StaticField} (hfield : (name, some field) ∈ fields) :
      StaticsHold fields field.value
  | failure {name : String} {field : StaticField} {failure : StoredException}
      (hfield : (name, some field) ∈ fields)
      (hfailure : field.failure = some failure) : StaticsHold fields (.box .object failure.managed)

def boxRefers (kind : Kind) (box : Box kind) (m : Node) : Prop :=
  (∃ v, box.Holds kind v ∧ identity v = some m) ∨ ∃ p, box.program kind = some p ∧ m = .program p

def taskRefers (task : Task) (m : Node) : Prop := ∃ v, TaskHolds task v ∧ identity v = some m

def programRefers (chunk : Chunk) (m : Node) : Prop :=
  (∃ v ∈ chunk.constants, identity v = some m) ∨ ∃ s, chunk.staticStorage = some s ∧ m = .statics s

def staticsRefer (fields : List (String × Option StaticField)) (m : Node) : Prop :=
  ∃ v, StaticsHold fields v ∧ identity v = some m

/-- A managed reference of the heap. -/
def Refers (heap : Heap) : Node → Node → Prop
  | .box id, m => ∃ box, heap.boxes.lookup id = some box ∧ boxRefers id.kind box m
  | .task a, m => ∃ task, heap.tasks.lookup a = some task ∧ taskRefers task m
  | .program a, m => ∃ chunk, heap.programs.lookup a = some chunk ∧ programRefers chunk m
  | .statics a, m => ∃ fields, heap.statics.lookup a = some fields ∧ staticsRefer fields m

structure GCRoots where
  values : List Value := []
  programs : List (Option Address) := []

/-- What a list of values and a list of programs name. -/
def named (values : List Value) (programs : List (Option Address)) : Set Node :=
  {n | (∃ v ∈ values, identity v = some n) ∨ ∃ p, some p ∈ programs ∧ n = .program p}

def GCRoots.nodes (roots : GCRoots) : Set Node := named roots.values roots.programs

structure Marker where
  marked : Finset Node := ∅
  programs : Finset Address := ∅
  statics : Finset Address := ∅

def staticRoots (fields : List (String × Option StaticField)) : List Value :=
  fields.flatMap fun entry =>
    match entry.2 with
    | some field => field.value :: (field.failure.map StoredException.appendGCRoots).getD []
    | none => []

namespace Marker

/-- A program that is visited for the first time: its constants, and its static storage unless another
    program has led to it. -/
def visit (m : Marker) (heap : Heap) (p : Address) : Marker × List Value :=
  let m := { m with programs := insert p m.programs }
  match heap.programs.lookup p with
  | none => (m, [])
  | some chunk =>
    match chunk.staticStorage with
    | none => (m, chunk.constants)
    | some s =>
      if s ∈ m.statics then (m, chunk.constants)
      else
        ({ m with statics := insert s m.statics },
          chunk.constants ++ ((heap.statics.lookup s).map staticRoots).getD [])

/-- Everything visited so far. -/
def nodes (m : Marker) : Set Node :=
  {n | n ∈ m.marked ∨ (∃ p ∈ m.programs, n = .program p) ∨ ∃ s ∈ m.statics, n = .statics s}

/-- How much of the heap is left to visit. -/
def unvisited (m : Marker) (heap : Heap) : Nat :=
  ((heap.boxes.keys.map Node.box ++ heap.tasks.keys.map Node.task).toFinset \ m.marked).card +
    (heap.programs.keys.toFinset \ m.programs).card

end Marker

section
variable {A : Type} [DecidableEq A] {all seen : Finset A} {a : A}

theorem card_sdiff_insert_le : (all \ insert a seen).card ≤ (all \ seen).card :=
  Finset.card_le_card (Finset.sdiff_subset_sdiff (Finset.Subset.refl _) (Finset.subset_insert a seen))

theorem card_sdiff_insert_lt (ha : a ∈ all) (hnew : a ∉ seen) :
    (all \ insert a seen).card < (all \ seen).card := by
  refine Finset.card_lt_card ⟨Finset.sdiff_subset_sdiff (Finset.Subset.refl _)
    (Finset.subset_insert a seen), fun hsub => ?_⟩
  have hmem := hsub (Finset.mem_sdiff.mpr ⟨ha, hnew⟩)
  exact (Finset.mem_sdiff.mp hmem).2 (Finset.mem_insert_self a seen)

end

theorem appendValueChildren_eq_nil {heap : Heap} {v : Value} {n : Node} (hn : identity v = some n)
    (hout : n ∉ (heap.boxes.keys.map Node.box ++ heap.tasks.keys.map Node.task).toFinset) :
    appendValueChildren heap v = ([], []) := by
  rw [List.mem_toFinset, List.mem_append, not_or] at hout
  unfold identity at hn
  split at hn
  · next kind a =>
    cases hn
    have hnone : heap.boxes.lookup ⟨kind, a⟩ = none :=
      AList.lookup_eq_none.mpr fun hmem => hout.1 (List.mem_map_of_mem (AList.mem_keys.mp hmem))
    rw [appendValueChildren, hnone]
    rfl
  · next a =>
    cases hn
    have hnone : heap.tasks.lookup a = none :=
      AList.lookup_eq_none.mpr fun hmem => hout.2 (List.mem_map_of_mem (AList.mem_keys.mp hmem))
    rw [appendValueChildren, hnone]
    rfl
  · cases hn

theorem Marker.visit_fst (m : Marker) (heap : Heap) (p : Address) :
    (m.visit heap p).1.marked = m.marked ∧ (m.visit heap p).1.programs = insert p m.programs := by
  unfold Marker.visit
  dsimp only
  split
  · exact ⟨rfl, rfl⟩
  · split
    · exact ⟨rfl, rfl⟩
    · split
      · exact ⟨rfl, rfl⟩
      · exact ⟨rfl, rfl⟩

theorem Marker.visit_snd_eq_nil {m : Marker} {heap : Heap} {p : Address}
    (hout : p ∉ heap.programs.keys.toFinset) :
    (m.visit heap p).2 = [] := by
  have hnone : heap.programs.lookup p = none :=
    AList.lookup_eq_none.mpr fun hmem => hout (List.mem_toFinset.mpr (AList.mem_keys.mp hmem))
  rw [Marker.visit, hnone]

/-- The marking loop. The work lists are taken from their backs, which are the heads here. -/
def Marker.trace (heap : Heap) (m : Marker) (work : List Value) (programs : List (Option Address)) :
    Marker :=
  match work, programs with
  | value :: work, programs =>
    match _hvalue : identity value with
    | none => trace heap m work programs
    | some id =>
      if _hnew : id ∈ m.marked then trace heap m work programs
      else
        let children := appendValueChildren heap value
        trace heap { m with marked := insert id m.marked } (children.1.reverse ++ work)
          ((children.2.map some).reverse ++ programs)
  | [], none :: programs => trace heap m [] programs
  | [], some p :: programs =>
    if _hnew : p ∈ m.programs then trace heap m [] programs
    else trace heap (m.visit heap p).1 (m.visit heap p).2.reverse programs
  | [], [] => m
termination_by (m.unvisited heap, work.length + programs.length)
decreasing_by
  · exact Prod.Lex.right _ (by simp)
  · exact Prod.Lex.right _ (by simp)
  · by_cases hin : id ∈ (heap.boxes.keys.map Node.box ++ heap.tasks.keys.map Node.task).toFinset
    · exact Prod.Lex.left _ _ (Nat.add_lt_add_right (card_sdiff_insert_lt hin _hnew) _)
    · refine Prod.Lex.right' _ (Nat.add_le_add_right card_sdiff_insert_le _) ?_
      rw [appendValueChildren_eq_nil _hvalue hin]
      simp
  · exact Prod.Lex.right _ (by simp)
  · exact Prod.Lex.right _ (by simp)
  · obtain ⟨hmarked, hprograms⟩ := m.visit_fst heap p
    rw [Marker.unvisited, hmarked, hprograms]
    by_cases hin : p ∈ heap.programs.keys.toFinset
    · exact Prod.Lex.left _ _ (Nat.add_lt_add_left (card_sdiff_insert_lt hin _hnew) _)
    · refine Prod.Lex.right' _ (Nat.add_le_add_left card_sdiff_insert_le _) ?_
      rw [Marker.visit_snd_eq_nil hin]
      simp

section
variable {heap : Heap} {m : Marker} {start : Set Node}
variable {programs : List (Option Address)} {v : Value} {n : Node} {work : List Value}

theorem named_nil : named [] [] = ∅ := by
  ext n
  simp [named]

theorem named_cons_of_none (hv : identity v = none) :
    named (v :: work) programs = named work programs := by
  ext n
  simp [named, hv]

theorem named_cons (hv : identity v = some n) :
    named (v :: work) programs = insert n (named work programs) := by
  ext n'
  simp [named, hv, or_assoc, eq_comm]

theorem named_append (work work' : List Value) (programs programs' : List (Option Address)) :
    named (work ++ work') (programs ++ programs') = named work programs ∪ named work' programs' := by
  ext n
  simp only [named, List.mem_append, Set.mem_ofPred_eq, Set.mem_union, or_and_right, exists_or]
  exact or_or_or_comm

theorem named_reverse (work : List Value) (programs : List (Option Address)) :
    named work.reverse programs.reverse = named work programs := by
  ext n
  simp [named]

theorem named_program (p : Address) (programs : List (Option Address)) :
    named [] (some p :: programs) = insert (.program p) (named [] programs) := by
  ext n
  simp [named, or_and_right, exists_or]

theorem mem_identity_map_task {a : Option Address} (hn : identity v = some n) :
    v ∈ (a.map fun t => Value.task (some t)).toList ↔ v = .task a := by
  cases a with
  | none =>
    simp only [Option.map_none, Option.toList_none, List.not_mem_nil, false_iff]
    rintro rfl
    cases hn
  | some a => simp

theorem mem_managed {failure : StoredException} (hn : identity v = some n) :
    v ∈ failure.appendGCRoots ↔ v = .box .object failure.managed := by
  unfold StoredException.appendGCRoots
  cases failure.managed with
  | none =>
    simp only [List.not_mem_nil, false_iff]
    rintro rfl
    cases hn
  | some a => simp

theorem mem_objectChildren_iff {box : ObjectBox} (hn : identity v = some n) :
    v ∈ (boxChildren .object box).1 ↔ box.Holds v := by
  have hchildren : (boxChildren .object box).1 = box.fields ++
      box.extraFields.entries.map Sigma.snd ++ box.atomicRefState.toList ++
        (box.channelState.map channelChildren).getD [] := by
    rw [← objectFieldForEach_eq]
    rfl
  rw [hchildren]
  simp only [List.mem_append, or_assoc]
  constructor
  · rintro (hv | hv | hv | hv)
    · exact .field hv
    · obtain ⟨⟨name, _⟩, hentry, rfl⟩ := List.mem_map.mp hv
      exact .extraField (AList.mem_lookup_iff.mpr hentry)
    · exact .atomicRef (Option.mem_toList.mp hv)
    · cases hchannel : box.channelState with
      | none =>
        rw [hchannel] at hv
        nomatch hv
      | some channel =>
        rw [hchannel] at hv
        simp only [Option.map_some, Option.getD_some, channelChildren, List.mem_append,
          List.mem_flatMap, List.mem_cons, mem_identity_map_task hn] at hv
        rcases hv with (hv | ⟨pending, hpending, rfl | rfl⟩) | ⟨task, htask, rfl⟩
        · exact .item hchannel hv
        · exact .pendingSend hchannel hpending
        · exact .pendingSendTask hchannel hpending
        · exact .pendingReceiveTask hchannel htask
  · intro hholds
    cases hholds with
    | field hv => exact .inl hv
    | extraField hv => exact .inr (.inl (List.mem_map_of_mem (AList.mem_lookup_iff.mp hv)))
    | atomicRef hv => exact .inr (.inr (.inl (Option.mem_toList.mpr hv)))
    | item hchannel hv =>
      rw [hchannel]
      exact .inr (.inr (.inr (List.mem_append_left _ (List.mem_append_left _ hv))))
    | pendingSend hchannel hpending =>
      rw [hchannel]
      refine .inr (.inr (.inr (List.mem_append_left _ (List.mem_append_right _ ?_))))
      exact List.mem_flatMap.mpr ⟨_, hpending, List.mem_cons_self⟩
    | pendingSendTask hchannel hpending =>
      rw [hchannel]
      refine .inr (.inr (.inr (List.mem_append_left _ (List.mem_append_right _ ?_))))
      exact List.mem_flatMap.mpr ⟨_, hpending,
        List.mem_cons_of_mem _ ((mem_identity_map_task hn).mpr rfl)⟩
    | pendingReceiveTask hchannel hpending =>
      rw [hchannel]
      refine .inr (.inr (.inr (List.mem_append_right _ ?_)))
      exact List.mem_flatMap.mpr ⟨_, hpending, (mem_identity_map_task hn).mpr rfl⟩

theorem mem_taskGCRoots_iff {task : Task} (hn : identity v = some n) :
    v ∈ taskGCRoots task ↔ TaskHolds task v := by
  rw [taskGCRoots, List.mem_append, List.mem_append]
  constructor
  · rintro ((hv | hv) | hv)
    · exact .result (Option.mem_toList.mp hv)
    · exact .operationRoot hv
    · cases herror : task.error with
      | none =>
        rw [herror] at hv
        nomatch hv
      | some failure =>
        rw [herror] at hv
        rw [(mem_managed hn).mp hv]
        exact .error herror
  · intro hholds
    cases hholds with
    | result hv => exact .inl (.inl (Option.mem_toList.mpr hv))
    | operationRoot hv => exact .inl (.inr hv)
    | error hfailure =>
      rw [hfailure]
      exact .inr ((mem_managed hn).mpr rfl)

theorem mem_staticRoots_iff {fields : List (String × Option StaticField)}
    (hn : identity v = some n) : v ∈ staticRoots fields ↔ StaticsHold fields v := by
  rw [staticRoots, List.mem_flatMap]
  constructor
  · rintro ⟨⟨name, entry⟩, hentry, hv⟩
    cases entry with
    | none => nomatch hv
    | some field =>
      rcases List.mem_cons.mp hv with rfl | hv
      · exact .value hentry
      · cases hfailure : field.failure with
        | none =>
          rw [hfailure] at hv
          nomatch hv
        | some failure =>
          rw [hfailure] at hv
          rw [(mem_managed hn).mp hv]
          exact .failure hentry hfailure
  · intro hholds
    cases hholds with
    | value hfield => exact ⟨_, hfield, List.mem_cons_self⟩
    | failure hfield hfailure =>
      refine ⟨_, hfield, List.mem_cons_of_mem _ ?_⟩
      rw [hfailure]
      exact (mem_managed hn).mpr rfl

theorem named_boxChildren (kind : Kind) (box : Box kind) :
    named (boxChildren kind box).1 ((boxChildren kind box).2.map some) = {n | boxRefers kind box n} := by
  ext n
  have hprogram : (∃ p, some p ∈ (boxChildren kind box).2.map some ∧ n = .program p) ↔
      ∃ p, box.program kind = some p ∧ n = .program p := by
    refine exists_congr fun p => and_congr_left fun _ => ?_
    cases kind <;> simp [boxChildren, Box.program]
  have hvalue (v : Value) (hn : identity v = some n) : v ∈ (boxChildren kind box).1 ↔
      box.Holds kind v := by
    cases kind with
    | list => exact Iff.rfl
    | map => simp [boxChildren, Box.Holds]
    | object => exact mem_objectChildren_iff hn
    | closure => simp [boxChildren, Box.Holds]
  refine or_congr (exists_congr fun v => ?_) hprogram
  exact and_congr_left fun hn => hvalue v hn

theorem named_children (hn : identity v = some n) :
    named (appendValueChildren heap v).1 ((appendValueChildren heap v).2.map some) =
      {w | Refers heap n w} := by
  unfold identity at hn
  split at hn
  · next kind a =>
    cases hn
    rw [appendValueChildren]
    cases hlookup : heap.boxes.lookup ⟨kind, a⟩ with
    | none => simp [named, Refers, hlookup]
    | some box =>
      refine (named_boxChildren kind box).trans ?_
      simp [Refers, hlookup]
  · next a =>
    cases hn
    rw [appendValueChildren]
    cases hlookup : heap.tasks.lookup a with
    | none => simp [named, Refers, hlookup]
    | some task =>
      ext w
      simp only [Option.map_some, Option.getD_some, List.map_nil, named, List.not_mem_nil,
        false_and, exists_false, or_false, Set.mem_ofPred_eq, Refers, hlookup, Option.some.injEq,
        exists_eq_left', taskRefers]
      exact exists_congr fun v => and_congr_left fun hw => mem_taskGCRoots_iff hw
  · cases hn

theorem named_staticRoots (fields : List (String × Option StaticField)) :
    named (staticRoots fields) [] = {w | staticsRefer fields w} := by
  ext w
  simp only [named, List.not_mem_nil, false_and, exists_false, or_false, Set.mem_ofPred_eq, staticsRefer]
  exact exists_congr fun v => and_congr_left fun hw => mem_staticRoots_iff hw

theorem Marker.nodes_insert : ({ m with marked := insert n m.marked } : Marker).nodes =
    insert n m.nodes := by
  ext w
  simp only [Marker.nodes, Finset.mem_insert, Set.mem_ofPred_eq, Set.mem_insert_iff, or_assoc]

theorem Marker.nodes_program {p : Address} :
    ({ m with programs := insert p m.programs } : Marker).nodes = insert (.program p) m.nodes := by
  ext w
  simp only [Marker.nodes, Finset.mem_insert, Set.mem_ofPred_eq, Set.mem_insert_iff, or_and_right,
    exists_or, exists_eq_left]
  exact (or_congr_right or_assoc).trans or_left_comm

theorem Marker.nodes_statics {s : Address} :
    ({ m with statics := insert s m.statics } : Marker).nodes = insert (.statics s) m.nodes := by
  ext w
  simp only [Marker.nodes, Finset.mem_insert, Set.mem_ofPred_eq, Set.mem_insert_iff, or_and_right,
    exists_or, exists_eq_left]
  exact (or_congr_right or_left_comm).trans or_left_comm

theorem Marker.marking_visit {p : Address}
    (h : Marking (Refers heap) start m.nodes (named [] (some p :: programs))) :
    Marking (Refers heap) start (m.visit heap p).1.nodes (named (m.visit heap p).2.reverse programs) := by
  have hrest (values : List Value) : named values.reverse programs = named values [] ∪
      named [] programs := by
    rw [← named_append, List.append_nil, List.nil_append, ← named_reverse values.reverse,
      List.reverse_reverse]
    ext n
    simp [named]
  have hmarked := (h.congr (named_program p programs)).mark
  rw [← Marker.nodes_program] at hmarked
  rw [hrest]
  unfold Marker.visit
  dsimp only
  split
  · next hlookup =>
    refine hmarked.congr ?_
    simp [Refers, hlookup, named_nil]
  · next chunk hlookup =>
    split
    · next hstorage =>
      refine hmarked.congr ?_
      simp [Refers, hlookup, programRefers, hstorage, named]
    · next s hstorage =>
      have hwork : {w | Refers heap (.program p) w} ∪ named [] programs =
          insert (.statics s) (named chunk.constants [] ∪ named [] programs) := by
        ext w
        simp [Refers, hlookup, programRefers, hstorage, named, or_assoc, or_left_comm]
      have hstorages := hmarked.congr hwork
      split
      · next hseen => exact hstorages.skip (.inr (.inr ⟨s, hseen, rfl⟩))
      · have hstatics := hstorages.mark
        rw [← Marker.nodes_statics] at hstatics
        refine hstatics.congr ?_
        have hfields : {w | Refers heap (.statics s) w} =
            named (((heap.statics.lookup s).map staticRoots).getD []) [] := by
          cases hlookup : heap.statics.lookup s with
          | none => simp [Refers, hlookup, named]
          | some fields =>
            refine Eq.trans ?_ (named_staticRoots fields).symm
            simp [Refers, hlookup]
        have happend :=
          named_append chunk.constants (((heap.statics.lookup s).map staticRoots).getD []) [] []
        rw [List.append_nil] at happend
        rw [happend, hfields, Set.union_left_comm, Set.union_assoc]

/-- When the loop ends, everything on its way has been marked and followed. -/
theorem Marker.marking_trace (h : Marking (Refers heap) start m.nodes (named work programs)) :
    Marking (Refers heap) start (m.trace heap work programs).nodes ∅ := by
  fun_induction Marker.trace heap m work programs with
  | case1 m programs value work hvalue ih => exact ih (h.congr (named_cons_of_none hvalue))
  | case2 m programs value work id hvalue hold ih =>
      exact ih ((h.congr (named_cons hvalue)).skip (.inl hold))
  | case3 m programs value work id hvalue hnew children ih =>
    refine ih ?_
    rw [Marker.nodes_insert, named_append, named_reverse, named_children hvalue]
    exact (h.congr (named_cons hvalue)).mark
  | case4 m programs ih =>
    refine ih (h.congr ?_)
    ext n
    simp [named]
  | case5 m p programs hold ih =>
      exact ih ((h.congr (named_program p programs)).skip (.inr (.inl ⟨p, hold, rfl⟩)))
  | case6 m p programs hnew ih => exact ih (Marker.marking_visit h)
  | case7 m => exact h.congr named_nil

end

def kFreeListCap : Nat := 8192

def kMinimumAllocationThreshold : Nat := 128

def maxSize : Nat := 2 ^ 64 - 1

/-- The collector: the boxes it owns, the free list of each kind with its back first, and how often
    each box is protected. -/
structure TracingGC where
  entries : List BoxId := []
  free : Kind → List Address := fun _ => []
  protectedRoots : AList (fun _ : BoxId => Nat) := ∅
  allocationsSinceCollection : Nat := 0
  allocationThreshold : Nat := kMinimumAllocationThreshold
  totalAllocations : Nat := 0
  totalReused : Nat := 0
  totalCollections : Nat := 0
  peakTracked : Nat := 0

structure Stats where
  tracked : Nat := 0
  reachable : Nat := 0
  unreachable : Nat := 0
  reclaimed : Nat := 0
  deferred : Nat := 0

structure Collection where
  stats : Stats
  retired : List BoxId

def GCRoots.append (roots other : GCRoots) : GCRoots :=
  { values := roots.values ++ other.values, programs := roots.programs ++ other.programs }

def handle (id : BoxId) : Value := .box id.kind (some id.address)

namespace TracingGC
variable (gc : TracingGC)

/-- The allocation of a box of one kind: the last one of the free list, or a new one, for which the
    allocator picks the address. -/
def makeGC (heap : Heap) (kind : Kind) (address : Address) : TracingGC × Heap × BoxId :=
  let counted (gc : TracingGC) (id : BoxId) : TracingGC :=
    { gc with
      entries := gc.entries ++ [id]
      allocationsSinceCollection := gc.allocationsSinceCollection + 1
      totalAllocations := gc.totalAllocations + 1 }
  match gc.free kind with
  | box :: rest =>
    (counted
      { gc with
        free := Function.update gc.free kind rest
        totalReused := gc.totalReused + 1 } ⟨kind, box⟩, heap, ⟨kind, box⟩)
  | [] => (counted gc ⟨kind, address⟩,
      { heap with boxes := heap.boxes.insert ⟨kind, address⟩ (Box.fresh kind) }, ⟨kind, address⟩)

def protect (id : BoxId) : TracingGC :=
  { gc with protectedRoots := gc.protectedRoots.insert id ((gc.protectedRoots.lookup id).getD 0 + 1) }

def unprotect (id : BoxId) : TracingGC :=
  match gc.protectedRoots.lookup id with
  | none => gc
  | some count =>
    if count - 1 = 0 then { gc with protectedRoots := gc.protectedRoots.erase id }
    else { gc with protectedRoots := gc.protectedRoots.insert id (count - 1) }

/-- The protected boxes that the registry knows, as roots. -/
def protectedValues : List Value := (gc.protectedRoots.keys.filter (· ∈ gc.entries)).map handle

def marker (heap : Heap) (roots : GCRoots) : Marker :=
  (Marker.trace heap {} roots.values roots.programs).trace heap gc.protectedValues []

/-- Mark and sweep. The boxes that are not marked leave the registry. -/
def collect (heap : Heap) (roots : GCRoots) : TracingGC × Collection :=
  let marker := gc.marker heap roots
  let survivors := gc.entries.filter fun id => .box id ∈ marker.marked
  let retired := gc.entries.filter fun id => .box id ∉ marker.marked
  let liveHeapBudget := if survivors.length > maxSize / 2 then maxSize else survivors.length * 2
  ({ gc with
      entries := survivors
      allocationThreshold := max kMinimumAllocationThreshold liveHeapBudget
      allocationsSinceCollection := 0
      totalCollections := gc.totalCollections + 1
      peakTracked := max gc.peakTracked survivors.length },
    { stats := { tracked := survivors.length, reachable := survivors.length, unreachable := retired.length,
                 reclaimed := retired.length, deferred := 0 }
      retired := retired })

def shouldCollect : Bool := gc.allocationsSinceCollection ≥ gc.allocationThreshold

end TracingGC

/-- The second loop of `reclaim`: a box goes to the free list of its kind, or is destroyed when that
    is full. -/
def TracingGC.handOff (gc : TracingGC) (heap : Heap) : List BoxId → TracingGC × Heap
  | [] => (gc, heap)
  | id :: retired =>
    if (gc.free id.kind).length < kFreeListCap then
      handOff { gc with free := Function.update gc.free id.kind (id.address :: gc.free id.kind) }
        heap retired
    else handOff gc { heap with boxes := heap.boxes.erase id } retired

/-- The first loop of `reclaim`. -/
def Heap.reset (heap : Heap) : List BoxId → Heap
  | [] => heap
  | id :: retired =>
    match heap.boxes.lookup id with
    | some box => reset { heap with boxes := heap.boxes.insert id (resetBox id.kind box) } retired
    | none => reset heap retired

/-- Where a collection starts from. -/
def starts (gc : TracingGC) (roots : GCRoots) : Set Node :=
  roots.nodes ∪ {n | ∃ id ∈ gc.entries, id ∈ gc.protectedRoots ∧ n = .box id}

theorem named_protectedValues (gc : TracingGC) :
    named gc.protectedValues [] = {n | ∃ id ∈ gc.entries, id ∈ gc.protectedRoots ∧ n = .box id} := by
  ext n
  simp only [named, TracingGC.protectedValues, List.not_mem_nil, false_and, exists_false, or_false,
    Set.mem_ofPred_eq]
  constructor
  · rintro ⟨_, hv, hn⟩
    obtain ⟨id, hid, rfl⟩ := List.mem_map.mp hv
    obtain ⟨hprotected, hentry⟩ := List.mem_filter.mp hid
    exact ⟨id, by simpa using hentry, AList.mem_keys.mpr hprotected, (Option.some.inj hn).symm⟩
  · rintro ⟨id, hentry, hprotected, rfl⟩
    refine ⟨handle id, List.mem_map_of_mem
      (List.mem_filter.mpr ⟨AList.mem_keys.mp hprotected, by simpa using hentry⟩), rfl⟩

/-- The boxes marked are those reached from the roots and the protected boxes. -/
theorem TracingGC.mem_marker_iff (gc : TracingGC) (heap : Heap) (roots : GCRoots) (id : BoxId) :
    .box id ∈ (gc.marker heap roots).marked ↔ .box id ∈ Reached (Refers heap) (starts gc roots) := by
  have hempty : ({} : Marker).nodes = ∅ := by
    ext n
    simp [Marker.nodes]
  have hfirst : Marking (Refers heap) roots.nodes ({} : Marker).nodes
      (named roots.values roots.programs) := by
    rw [hempty]
    exact .begin
  have hsecond :=
    Marker.marking_trace ((Marker.marking_trace hfirst).resume (named gc.protectedValues []))
  have hnodes := hsecond.marked_eq
  rw [named_protectedValues] at hnodes
  have hmem : .box id ∈ (gc.marker heap roots).nodes ↔ .box id ∈ (gc.marker heap roots).marked := by
    simp [Marker.nodes]
  rw [← hmem]
  exact Set.ext_iff.mp hnodes (.box id)

/-- What leaves the registry is what is not reached, what stays is the rest. -/
theorem TracingGC.mem_collect_iff (gc : TracingGC) (heap : Heap) (roots : GCRoots) (id : BoxId) :
    (id ∈ (gc.collect heap roots).2.retired ↔
      id ∈ gc.entries ∧ .box id ∉ Reached (Refers heap) (starts gc roots)) ∧
    (id ∈ (gc.collect heap roots).1.entries ↔
      id ∈ gc.entries ∧ .box id ∈ Reached (Refers heap) (starts gc roots)) := by
  rw [← gc.mem_marker_iff heap roots id]
  simp [TracingGC.collect, List.mem_filter]

end zl.vm.gc
