import Zl.Stdlib.List.Edits
import Zl.Vm.DeepRecords

open zl.program zl.program.Program zl.vm.native

namespace zl.stdlib.list

variable {T W : Type} {s : Store T W} {this other : ListId} {l : List T}

theorem ends_append {source target : ListId} {index : Int} {k : Nat} {x : T} (hindex : index = k)
    (hx : (s.items source)[k]? = some x) :
    Ends (do push target (← get source index)) s (.ok ()) (s.setItems target (s.items target ++ [x])) :=
  (ends_get hindex hx).bind (ends_push x)

theorem ends_appendAll (source target : ListId) :
    Ends (forLoop 0 ((s.items source).length : Int) (fun i _ => do push target (← get source i)) ()) s
      (.ok ()) (s.setItems target (s.items target ++ s.items source)) := by
  have hround : ∀ k < (s.items source).length,
      Ends (do push target (← get source (0 + (k : Int))))
        (s.setItems target (s.items target ++ (s.items source).take k)) (.ok ())
        (s.setItems target (s.items target ++ (s.items source).take (k + 1))) := by
    intro k hk
    have hitem : ((s.setItems target (s.items target ++ (s.items source).take k)).items source)[k]? =
        some (s.items source)[k] := by
      by_cases hsame : source = target
      · subst hsame
        rw [Store.items_setItems, List.getElem?_append_left hk, List.getElem?_eq_getElem hk]
      · rw [Store.items_setItems_of_ne hsame, List.getElem?_eq_getElem hk]
    have happend := @ends_append _ _ _ source target _ _ _ (zero_add (k : Int)) hitem
    rwa [Store.items_setItems, Store.setItems_setItems, List.append_assoc,
      ← List.take_succ_eq_append_getElem hk] at happend
  have hstop : (((s.items source).length : Int) - 0).toNat = (s.items source).length := by simp
  have hloop : Ends
      (forLoop 0 ((s.items source).length : Int) (fun i _ => do push target (← get source i)) ())
      (s.setItems target (s.items target ++ (s.items source).take 0)) (.ok ())
      (s.setItems target (s.items target ++ (s.items source).take (s.items source).length)) :=
    ends_forLoop hstop (fun _ => ())
      (fun k => s.setItems target (s.items target ++ (s.items source).take k)) hround
  rwa [List.take_zero, List.append_nil, Store.setItems_eq_self rfl, List.take_length] at hloop

theorem ends_extend : Ends (extend this other) s (.ok ())
    (s.setItems this (s.items this ++ s.items other)) :=
  ends_length.bind (ends_appendAll other this)

theorem ends_copy (hthis : this < s.next) :
    Ends (copy this) s (.ok s.next) (s.allocate (s.items this)) := by
  have hloop := ends_appendAll (s := s.allocate []) this s.next
  rw [Store.items_allocate_next, List.nil_append, Store.setItems_allocate,
    Store.items_allocate_of_ne (Nat.ne_of_lt hthis)] at hloop
  have hlength := @ends_length _ _ (s.allocate []) this
  rw [Store.items_allocate_of_ne (Nat.ne_of_lt hthis)] at hlength
  exact ends_newList.bind (hlength.bind (hloop.bind (ends_pure _ _)))

theorem ends_concat (hthis : this < s.next) (hother : other < s.next) :
    Ends (concat this other) s (.ok s.next) (s.allocate (s.items this ++ s.items other)) := by
  have hextend := @ends_extend _ _ (s.allocate (s.items this)) s.next other
  rw [Store.items_allocate_next, Store.setItems_allocate,
    Store.items_allocate_of_ne (Nat.ne_of_lt hother)] at hextend
  exact (ends_copy hthis).bind (hextend.bind (ends_pure _ _))

theorem ends_slice_error {start stop : Int} (h : start < 0 ∨ stop < start ∨ stop > (s.items this).length) :
    Ends (slice this start stop) s (.error ⟨"Exception", "List.slice bounds out of range"⟩) s := by
  refine ends_length.bind ?_
  rw [if_pos h]
  exact ends_exception _

theorem ends_slice {i j : Nat} (hthis : this < s.next) (hij : i ≤ j) (hj : j ≤ (s.items this).length) :
    Ends (slice this i j) s (.ok s.next) (s.allocate (((s.items this).take j).drop i)) := by
  have hlength : (((s.items this).take j).drop i).length = j - i := by
    rw [List.length_drop, List.length_take, min_eq_left hj]
  have hround : ∀ k < j - i, Ends (whileRound (fun n => return n < (j : Int))
      (fun n => do
        push s.next (← get this n)
        return n + 1) ((i + k : Nat) : Int))
      (s.allocate ((((s.items this).take j).drop i).take k)) (.ok (.next ((i + (k + 1) : Nat) : Int)))
      (s.allocate ((((s.items this).take j).drop i).take (k + 1))) := by
    intro k hk
    have hitem : ((s.allocate ((((s.items this).take j).drop i).take k)).items this)[i + k]? =
        some (((s.items this).take j).drop i)[k] := by
      rw [Store.items_allocate_of_ne (Nat.ne_of_lt hthis), List.getElem_drop, List.getElem_take,
        List.getElem?_eq_getElem (by omega)]
    have hpush := @ends_push _ _ (s.allocate ((((s.items this).take j).drop i).take k)) s.next
      (((s.items this).take j).drop i)[k]
    rw [Store.items_allocate_next, Store.setItems_allocate,
      ← List.take_succ_eq_append_getElem (by omega)] at hpush
    have hnext : ((i + (k + 1) : Nat) : Int) = ((i + k : Nat) : Int) + 1 := by omega
    rw [hnext]
    exact ends_whileRound (ends_decide (decide_eq_true (by omega)))
      ((ends_get rfl hitem).bind (hpush.bind (ends_pure _ _)))
  have hlast : WhileEnds (fun n => return n < (j : Int))
      (fun n => do
        push s.next (← get this n)
        return n + 1) ((i + (j - i) : Nat) : Int)
      (s.allocate ((((s.items this).take j).drop i).take (j - i)))
      (.ok ((i + (j - i) : Nat) : Int)) (s.allocate ((((s.items this).take j).drop i).take (j - i))) :=
    .leave (ends_decide (decide_eq_false (by omega)))
  have hloop := LoopEnds.of_rounds (fun k => ((i + k : Nat) : Int))
    (fun k => s.allocate ((((s.items this).take j).drop i).take k)) hround hlast
  rw [← hlength, List.take_length, List.take_zero] at hloop
  refine ends_length.bind ?_
  rw [if_neg (by omega)]
  exact ends_newList.bind (hloop.ends.bind (ends_pure _ _))

theorem ends_take_error {count : Int} (h : count < 0) :
    Ends (take this count) s (.error ⟨"Exception", "List.take count must be non-negative"⟩) s := by
  unfold take
  rw [if_pos h]
  exact ends_exception _

theorem ends_take {count : Int} (hthis : this < s.next) (h : ¬count < 0) :
    Ends (take this count) s (.ok s.next) (s.allocate ((s.items this).take count.toNat)) := by
  unfold take
  rw [if_neg h]
  refine ends_length.bind ?_
  have hcount : (if count > (s.items this).length then ((s.items this).length : Int) else count) =
      (min count.toNat (s.items this).length : Nat) := by
    split <;> omega
  have hslice := ends_slice hthis (Nat.zero_le (min count.toNat (s.items this).length))
    (Nat.min_le_right _ _)
  rw [List.drop_zero, ← List.take_eq_take_min] at hslice
  rw [hcount]
  exact hslice

theorem ends_drop_error {count : Int} (h : count < 0) :
    Ends (drop this count) s (.error ⟨"Exception", "List.drop count must be non-negative"⟩) s := by
  unfold drop
  rw [if_pos h]
  exact ends_exception _

theorem ends_drop {count : Int} (hthis : this < s.next) (h : ¬count < 0) :
    Ends (drop this count) s (.ok s.next) (s.allocate ((s.items this).drop count.toNat)) := by
  unfold drop
  rw [if_neg h]
  refine ends_length.bind (ends_length.bind ?_)
  have hcount : (if count > (s.items this).length then ((s.items this).length : Int) else count) =
      (min count.toNat (s.items this).length : Nat) := by
    split <;> omega
  have hdrop : (s.items this).drop (min count.toNat (s.items this).length) =
      (s.items this).drop count.toNat := by
    rcases le_total count.toNat (s.items this).length with hle | hle
    · rw [min_eq_left hle]
    · rw [min_eq_right hle, List.drop_length, List.drop_eq_nil_of_le hle]
  have hslice := ends_slice hthis (Nat.min_le_right count.toNat (s.items this).length) (le_refl _)
  rw [List.take_length, hdrop] at hslice
  rw [hcount]
  exact hslice

/-- The items of two lists are equal, place by place, as far as both go. -/
def agree (equal : T → T → Except Fault Bool) (l m : List T) : Except Fault Bool :=
  (firstPlace (fun p => (equal p.1 p.2).map not) (l.zip m)).map Option.isNone

theorem ends_agree {equal : T → T → Except Fault Bool} {offset : Nat} (place : Int → Int)
    (hplace : ∀ k : Nat, place k = (offset + k : Nat))
    (hfits : offset + (s.items other).length ≤ (s.items this).length) :
    Ends (do
      let found ← forRange 0 ((s.items other).length : Int) (fun i _ => do
        if !(← answer (equal (← get this (place i)) (← get other i))) then return .leave false
        else return .next ()) ()
      match found with
      | .leave result => return result
      | .next _ => return true) s (agree equal ((s.items this).drop offset) (s.items other)) s := by
  have hlength : (s.items other).length = (((s.items this).drop offset).zip (s.items other)).length := by
    rw [List.length_zip, List.length_drop]
    omega
  rw [hlength]
  refine ends_search (((s.items this).drop offset).zip (s.items other))
    (fun p => (equal p.1 p.2).map not) (fun _ => false) _ Option.isNone ?_
    (fun _ => ends_pure _ _) (ends_pure _ _)
  rintro k ⟨x, y⟩ hxy
  obtain ⟨hx, hy⟩ := List.getElem?_zip_eq_some.mp hxy
  rw [List.getElem?_drop] at hx
  exact (ends_get (hplace k) hx).bind ((ends_get rfl hy).bind (ends_unless _ _ _ _))

theorem ends_startsWith {equal : T → T → Except Fault Bool} : Ends (startsWith equal this other) s
    (if (s.items other).length ≤ (s.items this).length then agree equal (s.items this) (s.items other)
      else .ok false) s := by
  refine ends_length.bind (ends_length.bind ?_)
  by_cases hlength : (s.items other).length ≤ (s.items this).length
  · have hfits : 0 + (s.items other).length ≤ (s.items this).length := by omega
    have hagree := @ends_agree _ _ s this other equal _ (fun i => i) (fun k => by rw [Nat.zero_add]) hfits
    rw [if_neg (by omega), if_pos hlength]
    exact ends_length.bind hagree
  · rw [if_pos (by omega), if_neg hlength]
    exact ends_pure _ _

theorem ends_endsWith {equal : T → T → Except Fault Bool} : Ends (endsWith equal this other) s
    (if (s.items other).length ≤ (s.items this).length then
      agree equal ((s.items this).drop ((s.items this).length - (s.items other).length)) (s.items other)
      else .ok false) s := by
  refine ends_length.bind (ends_length.bind ?_)
  change Ends (if ((s.items this).length : Int) - (s.items other).length < 0 then _ else _) _ _ _
  by_cases hlength : (s.items other).length ≤ (s.items this).length
  · have hfits : ((s.items this).length - (s.items other).length) + (s.items other).length ≤
        (s.items this).length := by omega
    have hagree := @ends_agree _ _ s this other equal _
      (fun i => ((s.items this).length : Int) - (s.items other).length + i) (fun k => by omega) hfits
    rw [if_neg (by omega), if_pos hlength]
    exact ends_length.bind hagree
  · rw [if_pos (by omega), if_neg hlength]
    exact ends_pure _ _

/-- An item goes behind those that are kept if none of them is equal to it. -/
def keepNew (equal : T → T → Except Fault Bool) (kept : List T) (item : T) : Except Fault (List T) :=
  (firstPlace (equal · item) kept).map fun place => if place.isSome then kept else kept ++ [item]

theorem ends_keepNew {equal : T → T → Except Fault Bool} (kept : List T) (item : T) :
    Ends (do if !(← contains equal s.next item) then push s.next item else return) (s.allocate kept)
      ((keepNew equal kept item).map fun _ => ())
      (s.allocate ((keepNew equal kept item).toOption.getD kept)) := by
  have hcontains := @ends_contains _ _ (s.allocate kept) s.next equal item
  rw [Store.items_allocate_next] at hcontains
  unfold keepNew
  match firstPlace (equal · item) kept, hcontains with
  | .error e, hcontains => exact hcontains.bind_error
  | .ok (some k), hcontains => exact hcontains.bind (ends_pure () _)
  | .ok none, hcontains =>
    have hpush := @ends_push _ _ (s.allocate kept) s.next item
    rw [Store.items_allocate_next, Store.setItems_allocate] at hpush
    exact hcontains.bind hpush

/-- `distinct` makes a list of the items that are new where they stand, unless a comparison raises. -/
theorem ends_distinct {equal : T → T → Except Fault Bool} (hthis : this < s.next) :
    ∃ kept, Ends (distinct equal this) s
        (((s.items this).foldlM (keepNew equal) []).map fun _ => s.next) (s.allocate kept) ∧
      ∀ l, (s.items this).foldlM (keepNew equal) [] = .ok l → kept = l := by
  have hstop : (((s.items this).length : Int) - 0).toNat = (s.items this).length := by simp
  have hround : ∀ (k : Nat) (b : Unit) (t : Store T W), k < (s.items this).length →
      (∃ kept, ((s.items this).take k).foldlM (keepNew equal) [] = .ok kept ∧ t = s.allocate kept) →
      Spec (do
        let item ← get this (0 + (k : Int))
        if !(← contains equal s.next item) then push s.next item else return) t
        (fun _ t' => ∃ kept, ((s.items this).take (k + 1)).foldlM (keepNew equal) [] = .ok kept ∧
          t' = s.allocate kept)
        (fun e t' => (s.items this).foldlM (keepNew equal) [] = .error e ∧
          ∃ kept, t' = s.allocate kept) := by
    rintro k - t hk ⟨kept, hkept, rfl⟩
    have hitem : ((s.allocate kept).items this)[k]? = some (s.items this)[k] := by
      rw [Store.items_allocate_of_ne (Nat.ne_of_lt hthis), List.getElem?_eq_getElem hk]
    have hkeep := @ends_keepNew _ _ s equal kept (s.items this)[k]
    refine (ends_get (zero_add _) hitem).spec_bind ?_
    cases hnew : keepNew equal kept (s.items this)[k] with
    | ok kept' =>
      rw [hnew] at hkeep
      refine hkeep.spec ⟨kept', ?_, rfl⟩
      rw [List.take_succ_eq_append_getElem hk, List.foldlM_append, hkept]
      change List.foldlM (keepNew equal) kept [(s.items this)[k]] = _
      rw [List.foldlM_cons, hnew]
      rfl
    | error e =>
      rw [hnew] at hkeep
      refine hkeep.spec_error ⟨?_, kept, rfl⟩
      rw [← List.take_append_drop k (s.items this), List.drop_eq_getElem_cons hk, List.foldlM_append, hkept]
      change List.foldlM (keepNew equal) kept ((s.items this)[k] :: _) = _
      rw [List.foldlM_cons, hnew]
      rfl
  have hloop : Spec (forLoop 0 ((s.items this).length : Int) (fun i _ => do
      let item ← get this i
      if !(← contains equal s.next item) then push s.next item else return) ()) (s.allocate []) _ _ :=
    spec_forLoop hstop (fun k _ t => ∃ kept, ((s.items this).take k).foldlM (keepNew equal) [] = .ok kept ∧
      t = s.allocate kept) hround ⟨[], rfl, rfl⟩
  obtain ⟨r, s', hloop, hpost⟩ := hloop
  have hlength := @ends_length _ _ (s.allocate []) this
  rw [Store.items_allocate_of_ne (Nat.ne_of_lt hthis)] at hlength
  cases r with
  | ok _ =>
    obtain ⟨kept, hkept, rfl⟩ := hpost
    rw [List.take_length] at hkept
    rw [hkept]
    exact ⟨kept, ends_newList.bind (hlength.bind (hloop.bind (ends_pure _ _))),
      fun l hl => Except.ok.inj hl⟩
  | error e =>
    obtain ⟨herror, kept, rfl⟩ := hpost
    rw [herror]
    exact ⟨kept, ends_newList.bind (hlength.bind hloop.bind_error), nofun⟩

theorem ends_clear : Ends (clear this : Code T W Unit) s (.ok ()) (s.setItems this []) := by
  generalize hitems : s.items this = l
  have hloop : WhileEnds (fun _ => do return (← length this) > 0) (fun _ => do let _ ← pop this) () s
      (.ok ()) (s.setItems this []) := by
    induction l using List.reverseRecOn generalizing s with
    | nil =>
      rw [Store.setItems_eq_self hitems]
      exact .leave (ends_test (decide_eq_false (by simp [hitems])))
    | append_singleton l x ih =>
      have hcondition : Ends (do return (← length this) > 0 : Code T W Bool) s (.ok true) s :=
        ends_test (decide_eq_true (by simp [hitems]))
      have hrest := @ih (s.setItems this l) (Store.items_setItems _ _)
      rw [Store.setItems_setItems] at hrest
      exact .next hcondition ((ends_pop hitems).bind (ends_pure _ _)) hrest
  exact hloop.ends

/-- A method on `this` left these items in it, and the other lists there were as they were. -/
structure Leaves (s s' : Store T W) (this : ListId) (items : List T) : Prop where
  this_items : s'.items this = items
  other_items : ∀ id < s.next, id ≠ this → s'.items id = s.items id
  next_le : s.next ≤ s'.next

theorem Leaves.self : Leaves s s this (s.items this) := ⟨rfl, fun _ _ _ => rfl, le_refl _⟩

theorem Leaves.trans {s' s'' : Store T W} {l' : List T} (h : Leaves s s' this l)
    (h' : Leaves s' s'' this l') : Leaves s s'' this l' :=
  ⟨h'.this_items, fun id hid hne => (h'.other_items id (Nat.lt_of_lt_of_le hid h.next_le) hne).trans
    (h.other_items id hid hne), h.next_le.trans h'.next_le⟩

theorem leaves_setItems (l : List T) : Leaves s (s.setItems this l) this l :=
  ⟨Store.items_setItems _ _, fun _ _ hne => Store.items_setItems_of_ne hne _, le_refl _⟩

theorem leaves_allocate (hthis : this < s.next) (l : List T) :
    Leaves s (s.allocate l) this (s.items this) :=
  ⟨Store.items_allocate_of_ne (Nat.ne_of_lt hthis) _,
    fun _ hid _ => Store.items_allocate_of_ne (Nat.ne_of_lt hid) _, Nat.le_succ _⟩

theorem Leaves.setWorld {s' : Store T W} (h : Leaves s s' this l) (world : W) :
    Leaves s (s'.setWorld world) this l := ⟨h.this_items, h.other_items, h.next_le⟩

theorem Leaves.setItems_new {s' : Store T W} (h : Leaves s s' this l) (hthis : this < s.next)
    {id : ListId} (hid : s.next ≤ id) (l' : List T) : Leaves s (s'.setItems id l') this l := by
  refine ⟨?_, ?_, h.next_le⟩
  · rw [Store.items_setItems_of_ne (Nat.ne_of_lt (Nat.lt_of_lt_of_le hthis hid)), h.this_items]
  · intro other hother hne
    rw [Store.items_setItems_of_ne (Nat.ne_of_lt (Nat.lt_of_lt_of_le hother hid)),
      h.other_items other hother hne]

theorem Leaves.setItems_this {s' : Store T W} (h : Leaves s s' this l) (l' : List T) :
    Leaves s (s'.setItems this l') this l' :=
  ⟨Store.items_setItems _ _, fun id hid hne => by
    rw [Store.items_setItems_of_ne hne, h.other_items id hid hne], h.next_le⟩

theorem ends_call {A B : Type} (f : Callback T W A B) (a : A) :
    Ends (call f a) s (f s a).1 (s.setWorld (f s a).2) :=
  ends_step _ _

/-- What `removeWhere` does to the items: those that a test, of the world and an item, lets stay. -/
def sift (test : W → T → Except Fault Bool × W) : List T → W → Except Fault (List T) × W
  | [], world => (.ok [], world)
  | x :: l, world =>
    match (test world x).1 with
    | .error e => (.error e, (test world x).2)
    | .ok true => sift test l (test world x).2
    | .ok false => ((sift test l (test world x).2).1.map (x :: ·), (sift test l (test world x).2).2)

/-- The predicate looks at no lists but those there are in `s`, and answers as the test does. -/
def Tests (predicate : Callback T W T Bool) (s : Store T W) (test : W → T → Except Fault Bool × W) : Prop :=
  ∀ t x, (∀ id < s.next, t.items id = s.items id) → predicate t x = test t.world x

theorem sift_sublist {test : W → T → Except Fault Bool × W} {world : W} {kept : List T}
    (h : (sift test l world).1 = .ok kept) : kept.Sublist l := by
  induction l generalizing world kept with
  | nil =>
    obtain rfl := Except.ok.inj h
    exact List.Sublist.refl _
  | cons x l ih =>
    rw [sift] at h
    split at h
    · cases h
    · exact (ih h).cons x
    · cases hrest : (sift test l (test world x).2).1 with
      | error e =>
        rw [hrest] at h
        cases h
      | ok rest =>
        rw [hrest] at h
        obtain rfl := Except.ok.inj h
        exact (ih hrest).cons_cons x

theorem Leaves.items {t : Store T W} (h : Leaves s t this (s.items this)) :
    ∀ id < s.next, t.items id = s.items id := by
  intro id hid
  by_cases hsame : id = this
  · rw [hsame, h.this_items]
  · exact h.other_items id hid hsame

/-- What the loop of `removeWhere` has kept, and how many it counted, of the items before place `k`. -/
structure Sifted (predicate : Callback T W T Bool) (s : Store T W) (this : ListId) (k : Nat)
    (removed : Int) (t : Store T W) : Prop where
  leaves : Leaves s t this (s.items this)
  count : removed + (t.items s.next).length = k
  rest : ∀ test, Tests predicate s test → sift test (s.items this) s.world =
    ((sift test ((s.items this).drop k) t.world).1.map (t.items s.next ++ ·),
      (sift test ((s.items this).drop k) t.world).2)

/-- The list is as it was, and the predicate raised, as its test does. -/
def RaisedBy (predicate : Callback T W T Bool) (s : Store T W) (this : ListId) (e : Fault)
    (t : Store T W) : Prop :=
  Leaves s t this (s.items this) ∧ (∃ t x, (predicate t x).1 = .error e) ∧
    ∀ test, Tests predicate s test → (sift test (s.items this) s.world).1 = .error e

theorem Sifted.round {predicate : Callback T W T Bool} {k : Nat} {removed : Int} {t : Store T W}
    (h : Sifted predicate s this k removed t) (hthis : this < s.next) (hk : k < (s.items this).length) :
    Spec (do
      let item ← get this (0 + (k : Int))
      if ← call predicate item then return removed + 1
      else
        push s.next item
        return removed) t (Sifted predicate s this (k + 1)) (RaisedBy predicate s this) := by
  have hget : Ends (get this (0 + (k : Int))) t (.ok (s.items this)[k]) t := by
    refine ends_get (zero_add _) ?_
    rw [h.leaves.this_items, List.getElem?_eq_getElem hk]
  have hcall := ends_call (s := t) predicate (s.items this)[k]
  have hleaves := h.leaves.setWorld (predicate t (s.items this)[k]).2
  have hcount := h.count
  have hrest : ∀ test, Tests predicate s test → sift test (s.items this) s.world =
      ((sift test ((s.items this)[k] :: (s.items this).drop (k + 1)) t.world).1.map (t.items s.next ++ ·),
        (sift test ((s.items this)[k] :: (s.items this).drop (k + 1)) t.world).2) := by
    rw [← List.drop_eq_getElem_cons hk]
    exact h.rest
  have htest : ∀ test, Tests predicate s test →
      test t.world (s.items this)[k] = predicate t (s.items this)[k] :=
    fun test htest => (htest t _ h.leaves.items).symm
  refine hget.spec_bind ?_
  match hanswer : (predicate t (s.items this)[k]).1 with
  | .error e =>
    rw [hanswer] at hcall
    refine hcall.bind_error.spec_error ⟨hleaves, ⟨_, _, hanswer⟩, fun test htests => ?_⟩
    rw [hrest test htests, sift, htest test htests, hanswer]
    rfl
  | .ok true =>
    rw [hanswer] at hcall
    refine hcall.spec_bind ((ends_pure (removed + 1) _).spec ⟨hleaves, ?_, fun test htests => ?_⟩)
    · change removed + 1 + ((t.items s.next).length : Int) = _
      omega
    · rw [hrest test htests, sift, htest test htests, hanswer]
      rfl
  | .ok false =>
    rw [hanswer] at hcall
    refine hcall.spec_bind (((ends_push _).bind (ends_pure removed _)).spec
      ⟨hleaves.setItems_new hthis (le_refl _) _, ?_, fun test htests => ?_⟩)
    · rw [Store.items_setItems, List.length_append, List.length_singleton]
      change removed + (((t.items s.next).length + 1 : Nat) : Int) = _
      omega
    · rw [hrest test htests, sift, htest test htests, hanswer, Store.items_setItems]
      dsimp only [Store.setItems, Store.setWorld]
      cases (sift test ((s.items this).drop (k + 1)) (predicate t (s.items this)[k]).2).1 with
      | error e => rfl
      | ok kept => simp [Except.map]

/-- `removeWhere` raises what its predicate raises, and then the list is as it was. -/
theorem spec_removeWhere (predicate : Callback T W T Bool) (hthis : this < s.next) :
    Spec (removeWhere this predicate) s
      (fun removed t => ∃ kept : List T, Leaves s t this kept ∧
        removed = ((s.items this).length - kept.length : Int) ∧
        ∀ test, Tests predicate s test → (sift test (s.items this) s.world).1 = .ok kept)
      (RaisedBy predicate s this) := by
  have hstop : (((s.items this).length : Int) - 0).toNat = (s.items this).length := by simp
  have hstart : Sifted predicate s this 0 0 (s.allocate []) := by
    refine ⟨leaves_allocate hthis [], by simp, fun test _ => ?_⟩
    rw [Store.items_allocate_next, List.drop_zero]
    change sift test (s.items this) s.world = ((sift test (s.items this) s.world).1.map ([] ++ ·), _)
    cases hsift : (sift test (s.items this) s.world).1 with
    | error e => exact Prod.ext hsift rfl
    | ok kept => exact Prod.ext hsift rfl
  have hlength := @ends_length _ _ (s.allocate []) this
  rw [Store.items_allocate_of_ne (Nat.ne_of_lt hthis)] at hlength
  refine ends_newList.spec_bind (hlength.spec_bind (Spec.bind ?_))
  refine (spec_forLoop hstop (Sifted predicate s this) (fun k b t hk h => h.round hthis hk)
    hstart).mono ?_ fun _ _ h => h
  intro removed t h
  have hcount := h.count
  have hsift : ∀ test, Tests predicate s test → (sift test (s.items this) s.world).1 =
      .ok (t.items s.next) := by
    intro test htests
    rw [h.rest test htests, List.drop_length]
    simp [sift, Except.map]
  split
  next hzero =>
    refine (ends_pure _ _).spec ⟨s.items this, h.leaves, by omega, fun test htests => ?_⟩
    rw [hsift test htests, Except.ok.injEq]
    exact (sift_sublist (hsift test htests)).eq_of_length (by omega)
  next =>
    have hne : this ≠ s.next := Nat.ne_of_lt hthis
    have hextend := @ends_extend _ _ (t.setItems this []) this s.next
    rw [Store.items_setItems, List.nil_append, Store.setItems_setItems,
      Store.items_setItems_of_ne hne.symm] at hextend
    exact (ends_clear.bind (hextend.bind (ends_pure removed _))).spec
      ⟨t.items s.next, h.leaves.setItems_this _, by omega, hsift⟩

/-- What a method returns, with a list as an id (`L` is `ListId`) or as its items. -/
inductive Reply (L T : Type) where
  | none
  | item (x : T)
  | bool (b : Bool)
  | int (n : Int)
  | newList (l : L)

inductive Edit (T W : Type) where
  | insert (index : Int) (item : T)
  | removeAt (index : Int)
  | removeRange (start stop : Int)
  | remove (item : T)
  | removeAll (item : T)
  | removeWhere (predicate : Callback T W T Bool)
  | swap (first second : Int)
  | reverse
  | slice (start stop : Int)
  | take (count : Int)
  | drop (count : Int)
  | extend (other : ListId)
  | concat (other : ListId)
  | distinct
  | startsWith (other : ListId)
  | endsWith (other : ListId)

namespace Edit
variable (equal : T → T → Except Fault Bool)

/-- The other list of the edit is one that there is, and its predicate looks at no other. -/
def Known (s : Store T W) : Edit T W → Prop
  | .extend other | .concat other | .startsWith other | .endsWith other => other < s.next
  | .removeWhere predicate => Tests predicate s fun world => predicate (s.setWorld world)
  | _ => True

def run (this : ListId) : Edit T W → Code T W (Reply ListId T)
  | .insert index item => do
    list.insert this index item
    return .none
  | .removeAt index => return .item (← list.removeAt this index)
  | .removeRange start stop => do
    list.removeRange this start stop
    return .none
  | .remove item => return .bool (← list.remove equal this item)
  | .removeAll item => return .int (← list.removeAll equal this item)
  | .removeWhere predicate => return .int (← list.removeWhere this predicate)
  | .swap first second => do
    list.swap this first second
    return .none
  | .reverse => do
    list.reverse this
    return .none
  | .slice start stop => return .newList (← list.slice this start stop)
  | .take count => return .newList (← list.take this count)
  | .drop count => return .newList (← list.drop this count)
  | .extend other => do
    list.extend this other
    return .none
  | .concat other => return .newList (← list.concat this other)
  | .distinct => return .newList (← list.distinct equal this)
  | .startsWith other => return .bool (← list.startsWith equal this other)
  | .endsWith other => return .bool (← list.endsWith equal this other)

/-- An edit of `l`, unless the indices are out of the range that the edit names. -/
def within (l : List T) (outside : Prop) [Decidable outside] (message : String)
    (done : Reply (List T) T × List T) : Except Fault (Reply (List T) T) × List T :=
  if outside then (.error ⟨"Exception", message⟩, l) else (.ok done.1, done.2)

/-- The edit on the sequence `l`: what it returns or raises, and the sequence it leaves. -/
def onSequence (s : Store T W) (l : List T) : Edit T W → Except Fault (Reply (List T) T) × List T
  | .insert index item => within l (index < 0 ∨ index > l.length) "List.insert index out of range"
      (.none, l.insertIdx index.toNat item)
  | .removeAt index =>
    if h : 0 ≤ index ∧ index.toNat < l.length then
      (.ok (.item (l.get ⟨index.toNat, h.2⟩)), l.eraseIdx index.toNat)
    else (.error ⟨"Exception", "List.removeAt index out of range"⟩, l)
  | .removeRange start stop => within l (start < 0 ∨ stop < start ∨ stop > l.length)
      "List.removeRange bounds out of range" (.none, l.take start.toNat ++ l.drop stop.toNat)
  | .remove item =>
    match firstPlace (equal · item) l with
    | .ok (some k) => (.ok (.bool true), l.eraseIdx k)
    | .ok none => (.ok (.bool false), l)
    | .error e => (.error e, l)
  | .removeAll item => ((sweep (equal · item) l).1.map .int, (sweep (equal · item) l).2)
  | .removeWhere predicate =>
    match (sift (fun world => predicate (s.setWorld world)) l s.world).1 with
    | .ok kept => (.ok (.int (l.length - kept.length)), kept)
    | .error e => (.error e, l)
  | .swap first second =>
    if h : (0 ≤ first ∧ first.toNat < l.length) ∧ (0 ≤ second ∧ second.toNat < l.length) then
      (.ok .none, (l.set first.toNat (l.get ⟨second.toNat, h.2.2⟩)).set second.toNat
        (l.get ⟨first.toNat, h.1.2⟩))
    else (.error ⟨"Exception", "List.swap index out of range"⟩, l)
  | .reverse => (.ok .none, l.reverse)
  | .slice start stop => within l (start < 0 ∨ stop < start ∨ stop > l.length)
      "List.slice bounds out of range" (.newList ((l.take stop.toNat).drop start.toNat), l)
  | .take count => within l (count < 0) "List.take count must be non-negative"
      (.newList (l.take count.toNat), l)
  | .drop count => within l (count < 0) "List.drop count must be non-negative"
      (.newList (l.drop count.toNat), l)
  | .extend other => (.ok .none, l ++ s.items other)
  | .concat other => (.ok (.newList (l ++ s.items other)), l)
  | .distinct => ((l.foldlM (keepNew equal) []).map .newList, l)
  | .startsWith other => ((if (s.items other).length ≤ l.length then agree equal l (s.items other)
      else .ok false).map .bool, l)
  | .endsWith other => ((if (s.items other).length ≤ l.length then
      agree equal (l.drop (l.length - (s.items other).length)) (s.items other)
      else .ok false).map .bool, l)

theorem within_error {outside : Prop} [Decidable outside] {message : String}
    {done : Reply (List T) T × List T} {e : Fault} (h : (within l outside message done).1 = .error e) :
    (within l outside message done).2 = l := by
  unfold within at h ⊢
  split at h
  next houtside => rw [if_pos houtside]
  next => cases h

/-- The edits that leave the sequence as it was when they raise: all but `removeAll`, which has
    taken out the equal items before the one at which a comparison raises. -/
theorem onSequence_error {s : Store T W} {edit : Edit T W} {e : Fault}
    (h : (edit.onSequence equal s l).1 = .error e) (hedit : ∀ item, edit ≠ .removeAll item) :
    (edit.onSequence equal s l).2 = l := by
  cases edit with
  | removeAll item => exact absurd rfl (hedit item)
  | insert | removeRange | slice | take | drop => exact within_error h
  | removeAt index =>
    rw [onSequence] at h ⊢
    split at h
    next => cases h
    next houtside => rw [dif_neg houtside]
  | swap first second =>
    rw [onSequence] at h ⊢
    split at h
    next => cases h
    next houtside => rw [dif_neg houtside]
  | remove item =>
    rw [onSequence] at h ⊢
    match firstPlace (equal · item) l, h with
    | .error e, _ => rfl
  | removeWhere predicate =>
    rw [onSequence] at h ⊢
    match (sift (fun world => predicate (s.setWorld world)) l s.world).1, h with
    | .error e, _ => rfl
  | reverse | extend => cases h
  | concat | distinct | startsWith | endsWith => rfl

end Edit

/-- A reply of the program stands for a reply about sequences: a list it returns is a new one. -/
def Stands (s s' : Store T W) : Reply ListId T → Reply (List T) T → Prop
  | .none, .none => True
  | .item x, .item y => x = y
  | .bool b, .bool c => b = c
  | .int n, .int m => n = m
  | .newList id, .newList l => s.next ≤ id ∧ id < s'.next ∧ s'.items id = l
  | _, _ => False

/-- A run does to the list what the edit does to the sequence: it raises the same fault or returns the
    same reply, and leaves the same items. -/
def Does (s : Store T W) (this : ListId) (p : Code T W (Reply ListId T))
    (done : Except Fault (Reply (List T) T) × List T) : Prop :=
  ∃ r s', Ends p s r s' ∧ Leaves s s' this done.2 ∧
    match done.1 with
    | .error fault => r = .error fault
    | .ok reply => ∃ result, r = .ok result ∧ Stands s s' result reply

theorem does_error {p : Code T W (Reply ListId T)} {fault : Fault} {s' : Store T W}
    (h : Ends p s (.error fault) s') (hleaves : Leaves s s' this l) : Does s this p (.error fault, l) :=
  ⟨_, _, h, hleaves, rfl⟩

theorem does_ok {p : Code T W (Reply ListId T)} {s' : Store T W} {result : Reply ListId T}
    {reply : Reply (List T) T} (h : Ends p s (.ok result) s') (hstands : Stands s s' result reply)
    (hleaves : Leaves s s' this l) : Does s this p (.ok reply, l) :=
  ⟨_, _, h, hleaves, _, rfl, hstands⟩

/-- A method whose result, or exception, is the edit's. -/
theorem does_map {A : Type} {p : Code T W A} {s' : Store T W} {r : Except Fault A} (h : Ends p s r s')
    (result : A → Reply ListId T) (reply : A → Reply (List T) T)
    (hstands : ∀ a, Stands s s' (result a) (reply a)) (hleaves : Leaves s s' this l) :
    Does s this (do return result (← p)) (r.map reply, l) := by
  cases r with
  | error e => exact does_error h.bind_error hleaves
  | ok a => exact does_ok (h.bind (ends_pure _ _)) (hstands a) hleaves

theorem does_allocate {p : Code T W (Reply ListId T)} (hthis : this < s.next)
    (h : Ends p s (.ok (.newList s.next)) (s.allocate l)) :
    Does s this p (.ok (.newList l), s.items this) :=
  does_ok h ⟨le_refl _, Nat.lt_succ_self _, Store.items_allocate_next _⟩ (leaves_allocate hthis _)

theorem insertIdx_length (a b : List T) (x : T) : (a ++ b).insertIdx a.length x = a ++ x :: b := by
  induction a with
  | nil => rfl
  | cons y a ih => exact congrArg (y :: ·) ih

theorem does_within {done : Reply (List T) T × List T} {outside : Prop} [Decidable outside]
    {message : String} {p : Code T W (Reply ListId T)}
    (hout : outside → Ends p s (.error ⟨"Exception", message⟩) s)
    (hin : ¬outside → Does s this p (.ok done.1, done.2)) :
    Does s this p (Edit.within (s.items this) outside message done) := by
  unfold Edit.within
  split
  next h => exact does_error (hout h) .self
  next h => exact hin h

/-- One list, of three numbers. -/
def oneList : Store Int Unit := { items := fun _ => [1, 2, 3], next := 1, world := () }

/-- What the machine throws, as the program catches it. -/
def thrown : Except vm.value.VmError Bool → Except Fault Bool
  | .ok equal => .ok equal
  | .error (.runtime message) => .error { message }
  | .error (.arithmetic message) => .error ⟨"ArithmeticError", message⟩

theorem thrown_error (e : vm.value.VmError) : ∃ fault, thrown (.error e) = .error fault := by
  cases e with
  | runtime message => exact ⟨_, rfl⟩
  | arithmetic message => exact ⟨_, rfl⟩

/-- The equality of the machine on the deep records. -/
def recordsEqual (a b : vm.gc.Value) : Except Fault Bool :=
  thrown (vm.value.valuesEqual vm.value.deepMemory a b)

/-- Two records that are nested too deep to be compared. -/
def recordList : Store vm.gc.Value Unit :=
  { items := fun _ => [.box .object (some 502), .box .object (some 0)], next := 1, world := () }

theorem sweep_pair {p : T → Except Fault Bool} {x y : T} {e : Fault} (hx : p x = .ok true)
    (hy : p y = .error e) : sweep p [x, y] = (.error e, [y]) := by
  simp [sweep, hx, hy, Except.map]

end zl.stdlib.list
