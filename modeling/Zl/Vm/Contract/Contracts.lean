import Zl.Transition.Run
import Zl.Vm.Contract.GuardedWrite

open zl.transition

namespace zl.vm.contract

inductive Action (R O : Type) where
  | boundary (checks : List (BoundaryCheck R O)) (commits : Bool)
  | listEdit (list : R) (edit : ListEdit R O)
  | mapSet (map : R) (key value : Value R O)
  | mapRemove (map : R) (key : Value R O)

theorem mem_setEntry {R O : Type} {valuesEqual : Value R O → Value R O → Bool} {key value : Value R O}
    {entries : List (Value R O × Value R O)} {e : Value R O × Value R O}
    (h : e ∈ setEntry valuesEqual key value entries) :
    ((∃ old ∈ entries, old.1 = e.1) ∨ e.1 = key) ∧ ((∃ old ∈ entries, old.2 = e.2) ∨ e.2 = value) := by
  induction entries with
  | nil =>
    obtain rfl := List.mem_singleton.mp h
    exact ⟨.inr rfl, .inr rfl⟩
  | cons entry entries ih =>
    rw [setEntry] at h
    split at h
    · rcases List.mem_cons.mp h with rfl | h
      · exact ⟨.inl ⟨entry, List.mem_cons_self, rfl⟩, .inr rfl⟩
      · exact ⟨.inl ⟨e, List.mem_cons_of_mem _ h, rfl⟩, .inl ⟨e, List.mem_cons_of_mem _ h, rfl⟩⟩
    · rcases List.mem_cons.mp h with rfl | h
      · exact ⟨.inl ⟨e, List.mem_cons_self, rfl⟩, .inl ⟨e, List.mem_cons_self, rfl⟩⟩
      · obtain ⟨hkey, hvalue⟩ := ih h
        exact ⟨hkey.imp_left fun ⟨old, hold, heq⟩ => ⟨old, List.mem_cons_of_mem _ hold, heq⟩,
          hvalue.imp_left fun ⟨old, hold, heq⟩ => ⟨old, List.mem_cons_of_mem _ hold, heq⟩⟩

section
variable {R O : Type} [DecidableEq R] (chunk : Chunk O)
variable {heap' : Heap R O} {valuesEqual : Value R O → Value R O → Bool} {fuel : Nat}
  {items items' : List (Value R O)} {list : R}

/-- One transaction. How values compare may depend on objects, so that it is open in each step. -/
inductive Step : Heap R O → Action R O → Heap R O → Prop
  | boundary {heap heap' : Heap R O} {checks : List (BoundaryCheck R O)} {commits : Bool} {fuel : Nat}
      (h : checkBoundary chunk heap fuel checks commits = some heap') :
        Step heap (.boundary checks commits) heap'
  | listEdit {heap heap' : Heap R O} {list : R} {edit : ListEdit R O} {fuel : Nat}
      {valuesEqual : Value R O → Value R O → Bool} {items : List (Value R O)}
      (hcontents : (heap list).contents = .list items)
      (h : editList chunk valuesEqual heap fuel list items edit = some heap') :
        Step heap (.listEdit list edit) heap'
  | mapSet {heap heap' : Heap R O} {map : R} {key value : Value R O} {fuel : Nat}
      {valuesEqual : Value R O → Value R O → Bool} {entries : List (Value R O × Value R O)}
      (hcontents : (heap map).contents = .map entries)
      (h : collMapSet chunk valuesEqual heap fuel map entries key value = some heap') :
      Step heap (.mapSet map key value) heap'
  | mapRemove {heap : Heap R O} {map : R} {key : Value R O} {valuesEqual : Value R O → Value R O → Bool}
      {entries : List (Value R O × Value R O)} (hcontents : (heap map).contents = .map entries) :
      Step heap (.mapRemove map key) (collMapRemove valuesEqual heap map entries key)

def ListEdit.inserted : ListEdit R O → Option (Value R O)
  | .push value | .set _ value | .setAdd value => some value
  | .pop | .dequeue | .setRemove _ => none

/-- The size the guard of an edit is given for the inserted value. -/
def ListEdit.sizeGuarded (items : List (Value R O)) : ListEdit R O → Nat
  | .push _ => items.length + 1
  | _ => items.length

/-- Checking what is written proposes no new contract for the container it is written to. -/
def KeepsOwnContract (heap : Heap R O) : Action R O → Prop
  | .listEdit list edit => ∀ value items fuel plan, edit.inserted = some value →
      (heap list).contents = .list items →
      listWrite chunk heap fuel [] list (some value) (edit.sizeGuarded items) = .matched plan →
      proposed heap plan list = committed heap list
  | .mapSet map key value => ∀ fuel plan, mapWrite chunk heap fuel [] map key value = .matched plan →
      proposed heap plan map = committed heap map
  | .boundary _ _ | .mapRemove _ _ => True

/-- Nothing is committed yet; containers may hold anything, also each other. -/
def Uncommitted (heap : Heap R O) : Prop := ∀ r, committed heap r = none

variable {chunk} {heap : Heap R O}

theorem listWrite_none {plan plan' : Plan R} {resultingSize : Nat}
    (h : listWrite chunk heap fuel plan list none resultingSize = .matched plan') :
    plan' = plan := by
  unfold listWrite at h
  split at h
  · exact (Verdict.matched.inj h).symm
  · split at h
    · nomatch h
    · exact (Verdict.matched.inj h).symm

theorem contractsHold_setList {plan : Plan R}
    (hplanned : Planned chunk heap noneOpened (proposed heap plan))
    (hcontents : (heap list).contents = .list items)
    (hkeeps : proposed heap plan list = committed heap list)
    (hsize : ∀ c size, committed heap list = some c → c.fixedSize = some size → items'.length = size)
    (hitems : ∀ v ∈ items', v ∈ items ∨ ∀ c, committed heap list = some c →
      Assignable chunk (mapRef heap) (proposed heap plan) v (c.arguments.getD 0 unknownType)) :
    ContractsHold chunk (commit (setContents heap list (.list items')) plan) := by
  refine contractsHold_commit_setContents hplanned ?_ ?_ fun c hc p hp => ?_
  · rw [hcontents]
    rfl
  · rw [hkeeps]
    exact hsize
  · obtain ⟨v, hv, rfl⟩ := List.mem_map.mp hp
    rcases hitems v hv with hold | hnew
    · have hholds := (hplanned.holds list c hc).resolve_right id
      rw [Holds, hcontents] at hholds
      exact hholds _ (List.mem_map_of_mem hold)
    · exact hnew c (hkeeps ▸ hc)

theorem contractsHold_setMap {plan : Plan R} {map : R} {entries entries' : List (Value R O × Value R O)}
    (hplanned : Planned chunk heap noneOpened (proposed heap plan))
    (hcontents : (heap map).contents = .map entries)
    (hkeys : ∀ e ∈ entries', (∃ old ∈ entries, old.1 = e.1) ∨ ∀ c, proposed heap plan map = some c →
      Assignable chunk (mapRef heap) (proposed heap plan) e.1 (c.arguments.getD 0 unknownType))
    (hvalues : ∀ e ∈ entries', (∃ old ∈ entries, old.2 = e.2) ∨ ∀ c, proposed heap plan map = some c →
      Assignable chunk (mapRef heap) (proposed heap plan) e.2 (c.arguments.getD 1 unknownType)) :
    ContractsHold chunk (commit (setContents heap map (.map entries')) plan) := by
  refine contractsHold_commit_setContents hplanned ?_ ?_ fun c hc p hp => ?_
  · rw [hcontents]
    rfl
  · intro c size hc hs
    have hlist := ((hplanned.shaped map c hc).size size hs).1
    rw [hcontents] at hlist
    nomatch hlist
  · obtain ⟨e, he, hp⟩ := List.mem_flatMap.mp hp
    have hholds := (hplanned.holds map c hc).resolve_right id
    rw [Holds, hcontents] at hholds
    rcases List.mem_cons.mp hp with rfl | hp
    · rcases hkeys e he with ⟨old, hold, heq⟩ | hnew
      · rw [← heq]
        exact hholds _ (List.mem_flatMap.mpr ⟨old, hold, List.mem_cons_self⟩)
      · exact hnew c hc
    · obtain rfl := List.mem_singleton.mp hp
      rcases hvalues e he with ⟨old, hold, heq⟩ | hnew
      · rw [← heq]
        exact hholds _ (List.mem_flatMap.mpr ⟨old, hold, List.mem_cons_of_mem _ List.mem_cons_self⟩)
      · exact hnew c hc

theorem guardedListWrite_contractsHold {inserted : Option (Value R O)}
    (hholds : ContractsHold chunk heap) (hcontents : (heap list).contents = .list items)
    (hkeeps : ∀ value plan, inserted = some value → listWrite chunk heap fuel [] list
      (some value) items'.length = .matched plan → proposed heap plan list = committed heap list)
    (hitems : ∀ v ∈ items', v ∈ items ∨ inserted = some v)
    (h : guardedListWrite chunk heap fuel list inserted items' = some heap') :
    ContractsHold chunk heap' := by
  unfold guardedListWrite afterGuard at h
  split at h
  · nomatch h
  · exact Option.some.inj h ▸ hholds
  · next plan hguard =>
    obtain rfl := Option.some.inj h
    obtain ⟨houtcome, hwritten⟩ := listWrite_outcome hholds.planned hguard
    have hkeeps : proposed heap plan list = committed heap list := by
      cases inserted with
      | none =>
        rw [listWrite_none hguard]
        rfl
      | some value => exact hkeeps value plan rfl hguard
    refine contractsHold_setList houtcome.planned hcontents hkeeps (fun c size hc hs => ?_) fun v hv => ?_
    · exact (hwritten c hc).1 size hs
    · exact (hitems v hv).imp_right fun hinserted c hc => (hwritten c hc).2 v hinserted

theorem guardedListWrite_removal (hholds : ContractsHold chunk heap)
    (hcontents : (heap list).contents = .list items) (hsublist : items'.Sublist items)
    (h : guardedListWrite chunk heap fuel list none items' = some heap') :
    ContractsHold chunk heap' :=
  guardedListWrite_contractsHold hholds hcontents (fun _ _ hsome => absurd hsome (by simp))
    (fun _ hv => .inl (hsublist.subset hv)) h

theorem collSetAdd_contractsHold {set : R} {items : List (Value R O)} {value : Value R O}
    (hholds : ContractsHold chunk heap) (hcontents : (heap set).contents = .list items)
    (hkeeps : ∀ plan, listWrite chunk heap fuel [] set (some value) items.length = .matched plan →
      proposed heap plan set = committed heap set)
    (h : collSetAdd chunk valuesEqual heap fuel set items value = some heap') :
    ContractsHold chunk heap' := by
  unfold collSetAdd at h
  split at h
  · next plan hguard =>
    obtain ⟨houtcome, hwritten⟩ := listWrite_outcome hholds.planned hguard
    have hkeeps := hkeeps plan hguard
    split at h
    · exact Option.some.inj h ▸ contractsHold_commit houtcome.planned
    · unfold afterGuard at h
      split at h
      · nomatch h
      · exact Option.some.inj h ▸ hholds
      · next plan' hgrows =>
        obtain rfl := Option.some.inj h
        obtain rfl := listWrite_none hgrows
        obtain ⟨-, hresulting⟩ := listWrite_outcome houtcome.planned hgrows
        rw [hkeeps] at hresulting
        refine contractsHold_setList houtcome.planned hcontents hkeeps (fun c size hc hs => ?_)
          fun v hv => ?_
        · rw [List.length_append, List.length_singleton]
          exact (hresulting c hc).1 size hs
        · refine (List.mem_append.mp hv).imp_right fun hv c hc => (hwritten c hc).2 v ?_
          rw [List.mem_singleton.mp hv]
          rfl
  · exact Option.some.inj h ▸ hholds
  · nomatch h

theorem editList_contractsHold {items : List (Value R O)} {edit : ListEdit R O}
    (hholds : ContractsHold chunk heap) (hcontents : (heap list).contents = .list items)
    (hkeeps : KeepsOwnContract chunk heap (.listEdit list edit))
    (h : editList chunk valuesEqual heap fuel list items edit = some heap') :
    ContractsHold chunk heap' := by
  have hkeeps : ∀ value plan, edit.inserted = some value →
      listWrite chunk heap fuel [] list (some value) (edit.sizeGuarded items) = .matched plan →
      proposed heap plan list = committed heap list :=
    fun value plan hvalue hguard => hkeeps value items fuel plan hvalue hcontents hguard
  cases edit with
  | push value =>
    have hguard : ∀ written plan, some value = some written →
        listWrite chunk heap fuel [] list (some written) (items ++ [value]).length = .matched plan →
        proposed heap plan list = committed heap list := by
      rw [List.length_append, List.length_singleton]
      exact hkeeps
    refine guardedListWrite_contractsHold hholds hcontents hguard (fun v hv => ?_) h
    exact (List.mem_append.mp hv).imp_right fun hv => congrArg some (List.mem_singleton.mp hv).symm
  | pop =>
    rw [editList, collPop] at h
    split at h
    · exact Option.some.inj h ▸ hholds
    · exact guardedListWrite_removal hholds hcontents (List.dropLast_sublist items) h
  | dequeue =>
    rw [editList, queueDequeue] at h
    split at h
    · exact Option.some.inj h ▸ hholds
    · exact guardedListWrite_removal hholds hcontents (List.tail_sublist items) h
  | set index value =>
    rw [editList, collSet] at h
    split at h
    · have hguard : ∀ written plan, some value = some written →
          listWrite chunk heap fuel [] list (some written) (items.set index value).length =
          .matched plan → proposed heap plan list = committed heap list := by
        rw [List.length_set]
        exact hkeeps
      refine guardedListWrite_contractsHold hholds hcontents hguard (fun v hv => ?_) h
      exact (List.mem_or_eq_of_mem_set hv).imp_right fun heq => congrArg some heq.symm
    · exact Option.some.inj h ▸ hholds
  | setAdd value => exact collSetAdd_contractsHold hholds hcontents (fun plan => hkeeps value plan rfl) h
  | setRemove value =>
    rw [editList, collSetRemove] at h
    split at h
    · exact guardedListWrite_removal hholds hcontents List.eraseP_sublist h
    · exact Option.some.inj h ▸ hholds

theorem collMapSet_contractsHold {map : R} {entries : List (Value R O × Value R O)}
    {key value : Value R O} (hholds : ContractsHold chunk heap)
    (hcontents : (heap map).contents = .map entries)
    (hkeeps : KeepsOwnContract chunk heap (.mapSet map key value))
    (h : collMapSet chunk valuesEqual heap fuel map entries key value = some heap') :
    ContractsHold chunk heap' := by
  unfold collMapSet afterGuard at h
  split at h
  · nomatch h
  · exact Option.some.inj h ▸ hholds
  · next plan hguard =>
    obtain rfl := Option.some.inj h
    obtain ⟨houtcome, hwritten⟩ := mapWrite_outcome hholds.planned hguard
    have hkeeps : proposed heap plan map = committed heap map := hkeeps fuel plan hguard
    refine contractsHold_setMap houtcome.planned hcontents (fun e he => ?_) fun e he => ?_
    · refine (mem_setEntry he).1.imp_right fun hkey c hc => ?_
      rw [hkey]
      exact (hwritten c (hkeeps.symm.trans hc)).1
    · refine (mem_setEntry he).2.imp_right fun hvalue c hc => ?_
      rw [hvalue]
      exact (hwritten c (hkeeps.symm.trans hc)).2

theorem step_contractsHold {action : Action R O} (hholds : ContractsHold chunk heap)
    (hkeeps : KeepsOwnContract chunk heap action) (hstep : Step chunk heap action heap') :
    ContractsHold chunk heap' := by
  cases hstep with
  | boundary h => exact checkBoundary_contractsHold hholds h
  | listEdit hcontents h => exact editList_contractsHold hholds hcontents hkeeps h
  | mapSet hcontents h => exact collMapSet_contractsHold hholds hcontents hkeeps h
  | mapRemove hcontents =>
    refine contractsHold_setMap hholds.planned hcontents (fun e he => .inl ?_) fun e he => .inl ?_
    · exact ⟨e, List.mem_of_mem_eraseP he, rfl⟩
    · exact ⟨e, List.mem_of_mem_eraseP he, rfl⟩

theorem matchesType_leaf {plan plan' : Plan R} {value : Value R O} {type : TypeName} {mode : Mode}
    (hleaf : ∀ r, value ≠ .container r)
    (h : matchesType chunk heap fuel plan value type mode = .matched plan') :
    plan' = plan := by
  induction fuel generalizing type with
  | zero => cases h
  | succ fuel ih =>
    cases type with
    | union members =>
      obtain ⟨m, -, hmatch⟩ := exists_firstMatch h
      exact ih hmatch
    | named name args fixedSize =>
      rw [matchesType] at h
      split at h
      · cases value with
        | container r => exact absurd rfl (hleaf r)
        | _ => cases h
      · split at h
        · exact (Verdict.matched.inj h).symm
        · cases h

theorem keepsOwnContract_of_leaf {edit : ListEdit R O} (hleaf : ∀ r, edit.inserted ≠ some (.container r)) :
    KeepsOwnContract chunk heap (.listEdit list edit) := by
  intro value items fuel plan hvalue _ hguard
  have hplan : plan = [] := by
    unfold listWrite at hguard
    split at hguard
    · exact (Verdict.matched.inj hguard).symm
    · split at hguard
      · nomatch hguard
      · exact matchesType_leaf (fun r heq => hleaf r (heq ▸ hvalue)) (matchesType_of_require hguard)
  rw [hplan]
  rfl

/-- In a run whose writes all leave the contract of the container written to as it is, the
    committed contracts hold in every state, and a check that fails there changes nothing that
    is published. -/
theorem run_contractsHold {past : List (Heap R O × Action R O)}
    (hrun : Run Uncommitted (Step chunk) heap past) (hkeeps : ∀ p ∈ past, KeepsOwnContract chunk p.1 p.2) :
    ContractsHold chunk heap ∧ ∀ fuel plan plan' value typeName mode,
      check chunk heap fuel plan value typeName mode = some (false, plan') →
        commit heap plan' = commit heap plan := by
  constructor
  · refine hrun.invariant (ContractsHold chunk) (KeepsOwnContract chunk) (fun heap hnone r c hc => ?_)
      (fun heap action heap' hholds hkeeps hstep => step_contractsHold hholds hkeeps hstep) hkeeps
    have := hnone r
    rw [committed, hc] at this
    nomatch this
  · intro fuel plan plan' value typeName mode h
    rw [check_failed h]

end

/-- No classes and no enumerations. -/
def emptyChunk : Chunk Empty := ⟨fun _ => none, nofun⟩

/-- The list 0 of two nil elements, and the list 1 that holds the list 0. -/
def nestedLists : Heap (Fin 2) Empty
  | 0 => ⟨none, .list [.nil, .nil]⟩
  | 1 => ⟨none, .list [.container 0]⟩

def pushAfterBoundary (typeName : String) (list : Fin 2) (items : List (Value (Fin 2) Empty))
    (value : Value (Fin 2) Empty) : Option (Heap (Fin 2) Empty) :=
  (checkBoundary emptyChunk nestedLists 9 [⟨.container list, typeName.toList, .assignment⟩]
    true).bind fun heap =>
    collPush emptyChunk heap 9 list items value

theorem run_pushAfterBoundary {typeName : String} {list : Fin 2} {items : List (Value (Fin 2) Empty)}
    {value : Value (Fin 2) Empty} {heap : Heap (Fin 2) Empty}
    (hcontents : (nestedLists list).contents = .list items)
    (h : pushAfterBoundary typeName list items value = some heap) :
    ∃ middle, Run Uncommitted (Step emptyChunk) heap
      [(middle, .listEdit list (.push value)),
        (nestedLists, .boundary [⟨.container list, typeName.toList, .assignment⟩] true)] := by
  obtain ⟨middle, hboundary, hpush⟩ := Option.bind_eq_some_iff.mp h
  have hmiddle : (middle list).contents = .list items := by
    obtain ⟨⟨found, plan⟩, -, rfl⟩ := Option.map_eq_some_iff.mp hboundary
    exact (commit_contents ..).trans hcontents
  have hinit : Uncommitted nestedLists := by
    intro r
    match r with
    | 0 => rfl
    | 1 => rfl
  have hedit : editList emptyChunk (fun _ _ => false) middle 9 list items (.push value) =
    some heap := hpush
  exact ⟨middle, .step (.step (.start hinit) (.boundary hboundary)) (.listEdit hmiddle hedit)⟩

theorem pushNil_contractsHold : ∃ heap : Heap (Fin 2) Empty, ContractsHold emptyChunk heap ∧
    ((heap 1).storageType.isSome, logicalSize (heap 1).contents) = (true, 2) := by
  have hpushed : (pushAfterBoundary "list<list<unknown>>" 1 [.container 0] .nil).map
      (fun heap => ((heap 1).storageType.isSome, logicalSize (heap 1).contents)) = some (true, 2) := by
    decide +kernel
  obtain ⟨heap, hheap, hsize⟩ := Option.map_eq_some_iff.mp hpushed
  obtain ⟨middle, hrun⟩ := run_pushAfterBoundary rfl hheap
  refine ⟨heap, (run_contractsHold hrun ?_).1, hsize⟩
  rw [List.forall_mem_cons, List.forall_mem_singleton]
  exact ⟨keepsOwnContract_of_leaf fun r hr => (nomatch hr : False), trivial⟩

/-- A list of lists of arrays of two takes a list that holds it: the check of the pushed list
    commits the first list to the size two while it gets a third element. -/
theorem push_outgrows_array : ∃ (heap : Heap (Fin 2) Empty) (past : _),
    Run Uncommitted (Step emptyChunk) heap past ∧
    ((heap 0).storageType.bind (·.fixedSize), logicalSize (heap 0).contents) = (some 2, 3) ∧
    ¬ ContractsHold emptyChunk heap := by
  have hpushed : (pushAfterBoundary "list<list<array[2]<unknown>>>" 0 [.nil, .nil] (.container 1)).map
      (fun heap => ((heap 0).storageType.bind (·.fixedSize), logicalSize (heap 0).contents)) =
        some (some 2, 3) := by
    decide +kernel
  obtain ⟨heap, hheap, hsize⟩ := Option.map_eq_some_iff.mp hpushed
  obtain ⟨middle, hrun⟩ := run_pushAfterBoundary rfl hheap
  refine ⟨heap, _, hrun, hsize, fun hholds => ?_⟩
  obtain ⟨hfixed, hthree⟩ := Prod.mk.inj hsize
  obtain ⟨c, hc, hfixed⟩ := Option.bind_eq_some_iff.mp hfixed
  have htwo := ((hholds 0 c hc).1.size 2 hfixed).2
  omega

end zl.vm.contract
