import Zl.Stdlib.List.Sort

open zl.program zl.program.Program zl.vm.native

namespace zl.stdlib.list

variable {T W : Type} {s t : Store T W} {this : ListId} {less : Callback T W (T × T) Bool}

theorem Holding.items {held : T} {rest front passed : List T}
    (h : Holding less this s held rest front passed t) :
    t.items this = holding held rest front passed := by
  cases h with
  | start hitems => rw [hitems]; rfl
  | movedUp => exact Store.items_setItems _ _
  | placed => simp [holding]
  | placedFirst => simp [holding]

theorem Holding.perm {held : T} {rest front passed : List T}
    (h : Holding less this s held rest front passed t) :
    (front.reverse ++ held :: passed ++ rest).Perm (s.items this) := by
  induction h with
  | start hitems => rw [hitems]; exact List.Perm.refl _
  | movedUp _ _ ih =>
    refine List.Perm.trans ?_ ih
    simp only [List.reverse_cons, List.append_assoc, List.cons_append, List.nil_append]
    exact List.Perm.append_left _ (List.Perm.swap _ _ _)
  | placed _ _ ih => simpa using ih
  | placedFirst _ ih => simpa using ih

/-- The list is as it was exactly if nothing has moved up, or the held item is what moved last. -/
theorem Holding.items_perm_iff {held : T} {rest front passed : List T}
    (h : Holding less this s held rest front passed t) :
    (t.items this).Perm (s.items this) ↔ passed.headD held = held := by
  rw [h.items, ← h.perm.congr_right, holding, List.append_assoc, List.append_assoc,
    List.perm_append_left_iff, ← Multiset.coe_eq_coe, List.cons_append, List.cons_append,
    ← Multiset.cons_coe, ← Multiset.cons_coe, Multiset.cons_inj_left]

/-- Of each comparison that the sort comes to and that raises: nothing has moved up yet, or the item
    that moved last is the one that is held. -/
def RaisesWhole (less : Callback T W (T × T) Bool) (this : ListId) (s : Store T W) : Prop :=
  ∀ held x rest front passed t, Holding less this s held rest (x :: front) passed t →
    (∃ e, (less t (held, x)).1 = .error e) → passed.headD held = held

/-- The algorithms of a list that are given code. -/
inductive Algorithm (T W : Type) where
  | sort (less : Callback T W (T × T) Bool)
  | removeWhere (predicate : Callback T W T Bool)
  | filter (predicate : Callback T W T Bool)
  | distinct (equal : T → T → Except Fault Bool)
  | forEach (action : Callback T W T Unit)
  | transform (f : Callback T W T T)
  | reduce (combine : Callback T W (T × T) T) (start : T)
  | takeWhile (predicate : Callback T W T Bool)
  | dropWhile (predicate : Callback T W T Bool)

/-- What a call leaves out: its result. -/
def discard {A : Type} (p : Code T W A) : Code T W Unit := do
  let _ ← p

def Algorithm.run (this : ListId) : Algorithm T W → Code T W Unit
  | .sort less => list.sort this less
  | .removeWhere predicate => discard (list.removeWhere this predicate)
  | .filter predicate => discard (list.filter this predicate)
  | .distinct equal => discard (list.distinct equal this)
  | .forEach action => list.forEach this action
  | .transform f => discard (list.transform this f)
  | .reduce combine start => discard (list.reduce this combine start)
  | .takeWhile predicate => discard (list.takeWhile this predicate)
  | .dropWhile predicate => discard (list.dropWhile this predicate)

/-- The algorithm ends, and if it raises the list has the items it had, each as often as before. -/
def KeepsItems (p : Code T W Unit) (this : ListId) (s : Store T W) : Prop :=
  Spec p s (fun _ _ => True) fun _ s' => (s'.items this).Perm (s.items this)

/-- From this state the code ends, returned or raised, with the lists of the method as they were. -/
def LeavesItems {A : Type} (s : Store T W) (this : ListId) (p : Code T W A) (t : Store T W) : Prop :=
  Spec p t (fun _ t' => Leaves s t' this (s.items this)) fun _ t' => Leaves s t' this (s.items this)

section
variable {A B : Type} {p : Code T W A}

theorem LeavesItems.bind {f : A → Code T W B} (h : LeavesItems s this p t)
    (hf : ∀ a t', Leaves s t' this (s.items this) → LeavesItems s this (f a) t') :
    LeavesItems s this (p >>= f) t :=
  Spec.bind (h.mono hf fun _ _ h => h)

theorem leavesItems_pure (h : Leaves s t this (s.items this)) (a : A) :
    LeavesItems s this (pure a) t :=
  (ends_pure a t).spec h

theorem leavesItems_call (h : Leaves s t this (s.items this)) (f : Callback T W B A) (b : B) :
    LeavesItems s this (call f b) t := by
  have hends := ends_call (s := t) f b
  have hleaves := h.setWorld (f t b).2
  match hanswer : (f t b).1 with
  | .ok a =>
    rw [hanswer] at hends
    exact hends.spec hleaves
  | .error e =>
    rw [hanswer] at hends
    exact hends.spec_error hleaves

theorem leavesItems_push (h : Leaves s t this (s.items this)) (hthis : this < s.next) (x : T) :
    LeavesItems s this (push s.next x) t :=
  (ends_push x).spec (h.setItems_new hthis (le_refl _) _)

theorem leavesItems_newList {f : ListId → Code T W B}
    (hf : LeavesItems s this (f s.next) (s.allocate [])) : LeavesItems s this (newList >>= f) s :=
  ends_newList.spec_bind hf

theorem LeavesItems.discard (h : LeavesItems s this p s) : KeepsItems (discard p) this s := by
  refine Spec.bind (h.mono (fun _ t _ => (ends_pure () t).spec trivial) fun _ t h => ?_)
  rw [h.this_items]

/-- A loop over the items, if its rounds leave the list alone. -/
theorem leavesItems_forLoop {body : Int → A → Code T W A} (ht : Leaves s t this (s.items this))
    (hbody : ∀ (k : Nat) (x : T) (a : A) (t : Store T W), Leaves s t this (s.items this) →
      Ends (get this k) t (.ok x) t → LeavesItems s this (body k a) t) (a : A) :
    LeavesItems s this (do forLoop 0 (← length this) body a) t := by
  refine ends_length.spec_bind ?_
  rw [ht.this_items]
  refine spec_forLoop (n := (s.items this).length) (by simp) (fun _ _ t => Leaves s t this (s.items this))
    (fun k a t hk h => ?_) ht
  rw [zero_add]
  refine hbody k (s.items this)[k] a t h (ends_get rfl ?_)
  rw [h.this_items, List.getElem?_eq_getElem hk]

/-- The condition of `takeWhile` and `dropWhile`. -/
theorem leavesItems_holdsAt {predicate : Callback T W T Bool} {i : Int} (hi : 0 ≤ i)
    (ht : Leaves s t this (s.items this)) :
    Spec (holdsAt this predicate i) t
      (fun more t' => Leaves s t' this (s.items this) ∧ (more = true → i < (s.items this).length))
      fun _ t' => Leaves s t' this (s.items this) := by
  obtain ⟨k, rfl⟩ := Int.eq_ofNat_of_zero_le hi
  refine ends_length.spec_bind ?_
  rw [ht.this_items]
  split
  next hlt =>
    have hk : k < (s.items this).length := by omega
    have hget : Ends (get this (k : Int)) t (.ok (s.items this)[k]) t := by
      refine ends_get rfl ?_
      rw [ht.this_items, List.getElem?_eq_getElem hk]
    refine hget.spec_bind ?_
    exact (leavesItems_call ht predicate _).mono (fun _ _ h => ⟨h, fun _ => hlt⟩) fun _ _ h => h
  next => exact (ends_pure false t).spec ⟨ht, fun h => by cases h⟩

/-- The loop of `takeWhile` and `dropWhile`. -/
theorem leavesItems_whileHolds {predicate : Callback T W T Bool} {body : Int → Code T W Int}
    (ht : Leaves s t this (s.items this))
    (hbody : ∀ (k : Nat) (x : T) (t : Store T W), Leaves s t this (s.items this) →
      Ends (get this k) t (.ok x) t →
      ∃ t', Ends (body k) t (.ok ((k : Int) + 1)) t' ∧ Leaves s t' this (s.items this)) :
    LeavesItems s this (whileLoop (holdsAt this predicate) body 0) t := by
  refine (spec_whileLoop (fun i t => 0 ≤ i ∧ Leaves s t this (s.items this))
    (fun i _ => ((s.items this).length - i).toNat) (fun i t h => ?_) ⟨le_refl _, ht⟩)
  refine (leavesItems_holdsAt h.1 h.2).mono (fun more t' h' => ⟨fun hmore => ?_, fun _ => h'.1⟩)
    fun _ _ h => h
  obtain ⟨k, rfl⟩ := Int.eq_ofNat_of_zero_le h.1
  have hlt := h'.2 hmore
  have hk : k < (s.items this).length := by omega
  have hget : Ends (get this (k : Int)) t' (.ok (s.items this)[k]) t' := by
    refine ends_get rfl ?_
    rw [h'.1.this_items, List.getElem?_eq_getElem hk]
  obtain ⟨t'', hends, hleaves⟩ := hbody k (s.items this)[k] t' h'.1 hget
  exact hends.spec ⟨⟨by omega, hleaves⟩, by omega⟩

end

theorem leavesItems_filter (hthis : this < s.next) (predicate : Callback T W T Bool) :
    LeavesItems s this (filter this predicate) s := by
  refine leavesItems_newList ((leavesItems_forLoop (leaves_allocate hthis []) ?_ ()).bind
    fun _ _ h => leavesItems_pure h _)
  intro k x _ t h hget
  refine hget.spec_bind ((leavesItems_call h predicate x).bind fun keep t' h' => ?_)
  cases keep with
  | true => exact leavesItems_push h' hthis x
  | false => exact leavesItems_pure h' ()

theorem leavesItems_distinct (hthis : this < s.next) (equal : T → T → Except Fault Bool) :
    LeavesItems s this (distinct equal this) s := by
  obtain ⟨kept, hends, -⟩ := @ends_distinct _ _ _ _ equal hthis
  have hleaves := leaves_allocate hthis kept
  cases hkept : (s.items this).foldlM (keepNew equal) [] with
  | ok l =>
    rw [hkept] at hends
    exact hends.spec hleaves
  | error e =>
    rw [hkept] at hends
    exact hends.spec_error hleaves

theorem leavesItems_forEach (action : Callback T W T Unit) :
    LeavesItems s this (forEach this action) s := by
  refine leavesItems_forLoop .self ?_ ()
  intro k x _ t h hget
  exact hget.spec_bind (leavesItems_call h action x)

theorem leavesItems_transform (hthis : this < s.next) (f : Callback T W T T) :
    LeavesItems s this (transform this f) s := by
  refine leavesItems_newList ((leavesItems_forLoop (leaves_allocate hthis []) ?_ ()).bind
    fun _ _ h => leavesItems_pure h _)
  intro k x _ t h hget
  exact hget.spec_bind ((leavesItems_call h f x).bind fun y _ h' => leavesItems_push h' hthis y)

theorem leavesItems_reduce (combine : Callback T W (T × T) T) (start : T) :
    LeavesItems s this (reduce this combine start) s := by
  refine leavesItems_forLoop .self ?_ start
  intro k x result t h hget
  exact hget.spec_bind (leavesItems_call h combine (result, x))

theorem leavesItems_takeWhile (hthis : this < s.next) (predicate : Callback T W T Bool) :
    LeavesItems s this (takeWhile this predicate) s := by
  refine leavesItems_newList ((leavesItems_whileHolds (leaves_allocate hthis []) ?_).bind
    fun _ _ h => leavesItems_pure h _)
  intro k x t h hget
  exact ⟨_, hget.bind ((ends_push x).bind (ends_pure _ _)), h.setItems_new hthis (le_refl _) _⟩

theorem leavesItems_slice {t : Store T W} (hthis : this < s.next) (h : Leaves s t this (s.items this))
    (start stop : Int) : LeavesItems s this (slice this start stop) t := by
  by_cases houtside : start < 0 ∨ stop < start ∨ stop > (t.items this).length
  · exact (ends_slice_error houtside).spec_error h
  · obtain ⟨i, rfl⟩ := Int.eq_ofNat_of_zero_le (show 0 ≤ start by omega)
    obtain ⟨j, rfl⟩ := Int.eq_ofNat_of_zero_le (show 0 ≤ stop by omega)
    have hnext : this < t.next := Nat.lt_of_lt_of_le hthis h.next_le
    have hleaves := h.trans (leaves_allocate hnext (((t.items this).take j).drop i))
    rw [h.this_items] at hleaves
    exact (ends_slice hnext (by omega) (by omega)).spec (by rwa [h.this_items])

theorem leavesItems_dropWhile (hthis : this < s.next) (predicate : Callback T W T Bool) :
    LeavesItems s this (dropWhile this predicate) s := by
  refine (leavesItems_whileHolds .self fun k x t h _ => ⟨t, ends_pure _ _, h⟩).bind fun start t h => ?_
  exact ends_length.spec_bind (leavesItems_slice hthis h start _)

theorem keepsItems_removeWhere (hthis : this < s.next) (predicate : Callback T W T Bool) :
    KeepsItems (discard (removeWhere this predicate)) this s := by
  refine Spec.bind ((spec_removeWhere predicate hthis).mono
    (fun _ t _ => (ends_pure () t).spec trivial) fun _ t h => ?_)
  rw [h.1.this_items]

theorem keepsItems_sort_iff : KeepsItems (sort this less) this s ↔ RaisesWhole less this s := by
  have hends := ends_sort s this less
  constructor
  · intro h held x rest front passed t hholding hraises
    obtain ⟨e, hanswer⟩ := hraises
    rw [hholding.sortEnd_eq, resume_raised _ _ hanswer] at hends
    obtain ⟨r, s', hends', hpost⟩ := h
    obtain ⟨rfl, rfl⟩ := hends.unique hends'
    exact hholding.items_perm_iff.mp hpost
  · intro h
    match hend : sortEnd less this s with
    | .done s' =>
      rw [hend] at hends
      exact hends.spec trivial
    | .raised e held passed s' =>
      rw [hend] at hends
      obtain ⟨x, rest, front, t, hholding, hanswer, rfl⟩ := sortEnd_raised hend
      have hheld := h held x rest front passed t hholding ⟨e, hanswer⟩
      exact hends.spec_error (hholding.items_perm_iff.mpr hheld)

theorem LeavesItems.keepsItems {p : Code T W Unit} (h : LeavesItems s this p s) : KeepsItems p this s :=
  h.mono (fun _ _ _ => trivial) fun _ t h => by rw [h.this_items]

/-- The comparisons that raise find the list whole. Only a sort takes items out. -/
def Algorithm.RaisesWhole (this : ListId) (s : Store T W) : Algorithm T W → Prop
  | .sort less => list.RaisesWhole less this s
  | _ => True

/-- An algorithm that raises has lost nothing from the list exactly if it is not a sort whose
    comparator raises once another item than the held one moved up for it last. -/
theorem keepsItems_iff (algorithm : Algorithm T W) (hthis : this < s.next) :
    KeepsItems (algorithm.run this) this s ↔ algorithm.RaisesWhole this s := by
  cases algorithm with
  | sort less => exact keepsItems_sort_iff
  | removeWhere predicate => exact iff_of_true (keepsItems_removeWhere hthis predicate) trivial
  | filter predicate => exact iff_of_true (leavesItems_filter hthis predicate).discard trivial
  | distinct equal => exact iff_of_true (leavesItems_distinct hthis equal).discard trivial
  | forEach action => exact iff_of_true (leavesItems_forEach action).keepsItems trivial
  | transform f => exact iff_of_true (leavesItems_transform hthis f).discard trivial
  | reduce combine start => exact iff_of_true (leavesItems_reduce combine start).discard trivial
  | takeWhile predicate => exact iff_of_true (leavesItems_takeWhile hthis predicate).discard trivial
  | dropWhile predicate => exact iff_of_true (leavesItems_dropWhile hthis predicate).discard trivial

/-- The forEach of a list whose third item the code does not take. -/
theorem keepsItems_forEach_oneList : KeepsItems
    ((Algorithm.forEach fun _ x => if x = 3 then (.error ⟨"Exception", "three"⟩, ()) else (.ok (), ())).run 0)
    0 oneList :=
  (keepsItems_iff (.forEach _) Nat.zero_lt_one).mpr trivial

/-- A comparator that does not take 2 and 1. -/
def unrankedLess : Callback Int Unit (Int × Int) Bool := fun _ p =>
  if p = (2, 1) then (.error ⟨"Exception", "unranked"⟩, ()) else (.ok (p.1 < p.2), ())

def unsortedList : Store Int Unit := { items := fun _ => [1, 3, 2], next := 1, world := () }

/-- The comparator raises while 2 is held and 3 has moved up for it: the list is left with two 3s. -/
theorem sort_loses_item : ¬KeepsItems ((Algorithm.sort unrankedLess).run 0) 0 unsortedList := by
  rintro ⟨r, s', hends, hpost⟩
  obtain ⟨rfl, rfl⟩ := (ends_sort unsortedList 0 unrankedLess).unique hends
  have hperm : ([1, 3, 3] : List Int).Perm [1, 3, 2] := hpost
  exact absurd hperm (by decide)

end zl.stdlib.list
