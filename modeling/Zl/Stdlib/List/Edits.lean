import Zl.Stdlib.List.Methods

open zl.program zl.program.Program zl.vm.native

namespace zl.stdlib.list

variable {T W A B : Type} {s : Store T W} {this other : ListId} {l : List T}

namespace Store

@[simp] theorem items_setItems (id : ListId) (l : List T) : (s.setItems id l).items id = l := if_pos rfl

theorem items_setItems_of_ne {id id' : ListId} (h : id' ≠ id) (l : List T) :
    (s.setItems id l).items id' = s.items id' := if_neg h

@[simp] theorem setItems_setItems (id : ListId) (l l' : List T) :
    (s.setItems id l).setItems id l' = s.setItems id l' := by
  simp only [setItems, Store.mk.injEq, and_true]
  funext other
  split <;> rfl

theorem setItems_eq_self {id : ListId} (h : s.items id = l) : s.setItems id l = s := by
  cases s
  simp only [setItems, Store.mk.injEq, and_true]
  funext other
  split
  next heq => rw [heq, ← h]
  · rfl

@[simp] theorem items_allocate_next (l : List T) : (s.allocate l).items s.next = l := if_pos rfl

theorem items_allocate_of_ne {id : ListId} (h : id ≠ s.next) (l : List T) :
    (s.allocate l).items id = s.items id := if_neg h

theorem setItems_allocate (l l' : List T) : (s.allocate l).setItems s.next l' = s.allocate l' := by
  simp only [allocate, setItems, Store.mk.injEq, and_true]
  funext other
  split <;> rfl

end Store

theorem ends_length : Ends (length this : Code T W Int) s (.ok ((s.items this).length : Int)) s :=
  ends_step _ _

theorem ends_push (item : T) :
    Ends (push this item) s (.ok ()) (s.setItems this (s.items this ++ [item])) :=
  ends_step _ _

theorem ends_newList : Ends (newList : Code T W ListId) s (.ok s.next) (s.allocate []) := ends_step _ _

theorem ends_get {index : Int} {i : Nat} {x : T} (hindex : index = i) (hx : (s.items this)[i]? = some x) :
    Ends (get this index) s (.ok x) s := by
  obtain ⟨hi, hx⟩ := List.getElem?_eq_some_iff.mp hx
  have htoNat : index.toNat = i := by omega
  refine ends_step_of_eq ?_
  rw [dif_pos (by omega)]
  simp only [htoNat, List.get_eq_getElem, hx]

theorem ends_put {index : Int} {i : Nat} (hindex : index = i) (hi : i < (s.items this).length) (x : T) :
    Ends (put this index x) s (.ok ()) (s.setItems this ((s.items this).set i x)) := by
  have htoNat : index.toNat = i := by omega
  refine ends_step_of_eq ?_
  rw [if_pos (by omega), htoNat]

theorem ends_isEmpty : Ends (isEmpty this : Code T W Bool) s (.ok (s.items this).isEmpty) s := by
  refine ends_length.bind ?_
  have hempty : (((s.items this).length : Int) == 0) = (s.items this).isEmpty := by
    cases s.items this with
    | nil => rfl
    | cons x l => exact beq_false_of_ne (by rw [List.length_cons]; omega)
  rw [hempty]
  exact ends_pure _ _

theorem ends_pop {x : T} (h : s.items this = l ++ [x]) :
    Ends (pop this) s (.ok x) (s.setItems this l) := by
  have hempty : (s.items this).isEmpty = false := by simp [h]
  refine (hempty ▸ ends_isEmpty).bind ?_
  exact ends_step_of_eq (by simp [h])

theorem ends_last {x : T} (h : s.items this = l ++ [x]) : Ends (last this) s (.ok x) s := by
  have hempty : (s.items this).isEmpty = false := by simp [h]
  refine (hempty ▸ ends_isEmpty).bind (ends_length.bind ?_)
  exact ends_get (i := l.length) (by simp [h]) (by simp [h])

theorem ends_test {test : Int → Prop} [DecidablePred test] {b : Bool}
    (h : decide (test (s.items this).length) = b) :
    Ends (do return test (← length this) : Code T W Bool) s (.ok b) s := by
  refine ends_length.bind ?_
  rw [h]
  exact ends_pure _ _

theorem ends_decide {p : Prop} [Decidable p] {b : Bool} (h : decide p = b) :
    Ends (return p : Code T W Bool) s (.ok b) s := by
  rw [h]
  exact ends_pure _ _

theorem ends_move {target source : Int} {i j : Nat} {x : T} (htarget : target = i) (hsource : source = j)
    (hx : (s.items this)[j]? = some x) (hi : i < (s.items this).length) (locals : A) :
    Ends (do
      put this target (← get this source)
      return locals) s (.ok locals) (s.setItems this ((s.items this).set i x)) :=
  (ends_get hsource hx).bind ((ends_put htarget hi x).bind (ends_pure _ _))

/-- The items behind `gone` come down by its length, over it. -/
theorem whileEnds_shift {removed : Int} (a gone b : List T) (hgone : removed = gone.length)
    (h : s.items this = a ++ gone ++ b) :
    ∃ (left : List T) (i : Int), removed = left.length ∧
      WhileEnds (fun i => do return i + removed < (← length this))
        (fun i => do
          put this i (← get this (i + removed))
          return i + 1) (a.length : Int) s (.ok i) (s.setItems this (a ++ b ++ left)) := by
  induction b generalizing s a gone with
  | nil =>
    refine ⟨gone, a.length, hgone, ?_⟩
    rw [Store.setItems_eq_self (by simp [h])]
    exact .leave (ends_test (by simp [h, hgone]))
  | cons y b ih =>
    have hset : (a ++ gone ++ y :: b).set a.length y = (a ++ [y]) ++ (gone ++ [y]).tail ++ b := by
      cases gone <;> simp
    have hcondition : Ends (do return (a.length : Int) + removed < (← length this) : Code T W Bool) s
        (.ok true) s := by
      refine ends_test (decide_eq_true ?_)
      simp only [h, List.length_append, List.length_cons, hgone]
      omega
    have hbody : Ends (do
        put this (a.length : Int) (← get this ((a.length : Int) + removed))
        return (a.length : Int) + 1) s (.ok ((a ++ [y]).length : Int))
        (s.setItems this ((a ++ [y]) ++ (gone ++ [y]).tail ++ b)) := by
      have hmove := ends_move (Eq.refl (a.length : Int))
        (show (a.length : Int) + removed = (a.length + gone.length : Nat) by omega)
        (show (s.items this)[a.length + gone.length]? = some y by simp [h]) (by simp [h])
        ((a.length : Int) + 1)
      rw [h, hset] at hmove
      simpa using hmove
    obtain ⟨left, i, hleft, hloop⟩ := @ih (s.setItems this ((a ++ [y]) ++ (gone ++ [y]).tail ++ b))
      (a ++ [y]) (gone ++ [y]).tail (by simp [hgone]) (Store.items_setItems _ _)
    refine ⟨left, i, hleft, .next hcondition hbody ?_⟩
    simpa using hloop

theorem whileEnds_pop (a gone : List T) (h : s.items this = a ++ gone) :
    WhileEnds (fun remaining => return remaining > 0) (fun remaining => do
        let _ ← pop this
        return remaining - 1) (gone.length : Int) s (.ok 0) (s.setItems this a) := by
  induction gone using List.reverseRecOn generalizing s with
  | nil =>
    rw [Store.setItems_eq_self (by simp [h])]
    exact .leave (ends_pure _ _)
  | append_singleton gone y ih =>
    have hcondition : Ends (return ((gone ++ [y]).length : Int) > 0 : Code T W Bool) s (.ok true) s := by
      refine ends_decide (decide_eq_true ?_)
      rw [List.length_append, List.length_singleton]
      omega
    have hbody : Ends (do
        let _ ← pop this
        return ((gone ++ [y]).length : Int) - 1) s (.ok (gone.length : Int))
        (s.setItems this (a ++ gone)) := by
      have hlast : s.items this = (a ++ gone) ++ [y] := by rw [h, List.append_assoc]
      refine (ends_pop hlast).bind ?_
      simpa using ends_pure (gone.length : Int) _
    have hloop := @ih (s.setItems this (a ++ gone)) (Store.items_setItems _ _)
    exact .next hcondition hbody (by simpa using hloop)

/-- The items of `b` go up by one place, over the one behind them. -/
theorem whileEnds_raise (a b c : List T) (y : T) (h : s.items this = a ++ b ++ y :: c) :
    ∃ x : T, WhileEnds (fun i => return i > (a.length : Int)) (fun i => do
        put this i (← get this (i - 1))
        return i - 1) ((a ++ b).length : Int) s (.ok (a.length : Int))
      (s.setItems this (a ++ x :: (b ++ c))) := by
  induction b using List.reverseRecOn generalizing s y c with
  | nil =>
    refine ⟨y, ?_⟩
    rw [Store.setItems_eq_self (by simpa using h), List.append_nil]
    refine .leave ?_
    simpa using ends_pure false s
  | append_singleton b z ih =>
    have hcondition : Ends (return ((a ++ (b ++ [z])).length : Int) > (a.length : Int) : Code T W Bool)
        s (.ok true) s := by
      refine ends_decide (decide_eq_true ?_)
      simp only [List.length_append, List.length_singleton]
      omega
    have hset : (s.items this).set (a ++ (b ++ [z])).length z = a ++ b ++ z :: (z :: c) := by
      rw [h, List.set_append_right _ _ (le_refl _)]
      simp
    have hbody : Ends (do
        put this ((a ++ (b ++ [z])).length : Int) (← get this (((a ++ (b ++ [z])).length : Int) - 1))
        return ((a ++ (b ++ [z])).length : Int) - 1) s (.ok ((a ++ b).length : Int))
        (s.setItems this (a ++ b ++ z :: (z :: c))) := by
      have hindex : ((a ++ (b ++ [z])).length : Int) - 1 = ((a ++ b).length : Nat) := by
        simp only [List.length_append, List.length_singleton]
        omega
      have hmove := ends_move (Eq.refl ((a ++ (b ++ [z])).length : Int)) (Eq.refl ((a ++ b).length : Int))
        (show (s.items this)[(a ++ b).length]? = some z by simp [h]) (by simp [h])
        ((a ++ b).length : Int)
      rw [hset] at hmove
      rwa [hindex]
    obtain ⟨x, hloop⟩ := @ih (s.setItems this (a ++ b ++ z :: (z :: c))) (z :: c) z
      (Store.items_setItems _ _)
    refine ⟨x, .next hcondition hbody ?_⟩
    simpa using hloop

theorem ends_exception (message : String) :
    Ends (exception message : Code T W A) s (.error ⟨"Exception", message⟩) s :=
  ends_raise _ _

theorem ends_removeAt_error {index : Int} (h : index < 0 ∨ index ≥ (s.items this).length) :
    Ends (removeAt this index) s (.error ⟨"Exception", "List.removeAt index out of range"⟩) s := by
  refine ends_length.bind ?_
  rw [if_pos h]
  exact ends_exception _

theorem ends_removeAt (a b : List T) (x : T) (h : s.items this = a ++ x :: b) :
    Ends (removeAt this (a.length : Int)) s (.ok x) (s.setItems this (a ++ b)) := by
  have hone : (1 : Int) = [x].length := rfl
  obtain ⟨left, i, hleft, hloop⟩ := whileEnds_shift a [x] b hone (by simpa using h)
  obtain ⟨y, rfl⟩ := List.length_eq_one_iff.mp (Int.ofNat.inj hleft.symm)
  have hget : Ends (get this (a.length : Int)) s (.ok x) s := ends_get rfl (by simp [h])
  have hpop := ends_pop (Store.items_setItems (s := s) this (a ++ b ++ [y]))
  rw [Store.setItems_setItems] at hpop
  refine ends_length.bind ?_
  rw [if_neg (by simp [h])]
  exact hget.bind (hloop.ends.bind (hpop.bind (ends_pure _ _)))

theorem ends_removeRange_error {start stop : Int}
    (h : start < 0 ∨ stop < start ∨ stop > (s.items this).length) :
    Ends (removeRange this start stop) s
      (.error ⟨"Exception", "List.removeRange bounds out of range"⟩) s := by
  refine ends_length.bind ?_
  rw [if_pos h]
  exact ends_exception _

theorem ends_removeRange (a gone b : List T) (h : s.items this = a ++ gone ++ b) :
    Ends (removeRange this (a.length : Int) ((a ++ gone).length : Int)) s (.ok ())
      (s.setItems this (a ++ b)) := by
  have hremoved : ((a ++ gone).length : Int) - a.length = gone.length := by simp
  obtain ⟨left, i, hleft, hloop⟩ := whileEnds_shift a gone b hremoved h
  have hpop := whileEnds_pop (a ++ b) left (Store.items_setItems (s := s) this _)
  rw [Store.setItems_setItems, ← hleft] at hpop
  refine ends_length.bind ?_
  rw [if_neg (by simp [h])]
  exact hloop.ends.bind (hpop.ends.bind (ends_pure _ _))

theorem ends_insert_error {index : Int} {item : T} (h : index < 0 ∨ index > (s.items this).length) :
    Ends (insert this index item) s (.error ⟨"Exception", "List.insert index out of range"⟩) s := by
  refine ends_length.bind ?_
  rw [if_pos h]
  exact ends_exception _

theorem ends_insert (a b : List T) (item : T) (h : s.items this = a ++ b) :
    Ends (insert this (a.length : Int) item) s (.ok ()) (s.setItems this (a ++ item :: b)) := by
  refine ends_length.bind ?_
  rw [if_neg (by simp [h])]
  rcases List.eq_nil_or_concat b with rfl | ⟨b, y, rfl⟩
  · rw [if_pos (by simp [h])]
    simpa [h] using @ends_push _ _ s this item
  · have hlist : s.items this = (a ++ b) ++ [y] := by simp [h]
    have hpushed : (s.setItems this (s.items this ++ [y])).items this = a ++ (b ++ [y]) ++ y :: [] := by
      simp [h]
    obtain ⟨x, hloop⟩ := whileEnds_raise a (b ++ [y]) [] y hpushed
    have hsize : (((s.setItems this (s.items this ++ [y])).items this).length : Int) - 1 =
        (a ++ (b ++ [y])).length := by
      simp [h]
      omega
    have hput : Ends (put this (a.length : Int) item) (s.setItems this (a ++ x :: (b ++ [y]))) (.ok ())
        (s.setItems this (a ++ item :: (b ++ [y]))) := by
      have hput := @ends_put _ _ (s.setItems this (a ++ x :: (b ++ [y]))) this _ _
        (Eq.refl (a.length : Int)) (by simp) item
      simpa using hput
    rw [if_neg (by simp [h]; omega)]
    refine (ends_last hlist).bind ((ends_push y).bind (ends_length.bind ?_))
    rw [hsize]
    refine hloop.ends.bind ?_
    simpa using hput

/-- What a search returns: a place, or -1. -/
def placeOf (found : Option Nat) : Int :=
  match found with
  | some i => i
  | none => -1

section
variable {equal : T → T → Except Fault Bool}

theorem ends_indexOf (item : T) :
    Ends (indexOf equal this item) s ((firstPlace (equal · item) (s.items this)).map placeOf) s := by
  refine ends_length.bind (ends_search (s.items this) (equal · item) (fun k => (k : Int)) _ placeOf ?_
    (fun _ => ends_pure _ _) (ends_pure _ _))
  exact fun k x hx => (ends_get rfl hx).bind (ends_if _ _ _ _)

theorem ends_contains (item : T) : Ends (contains equal this item) s
    ((firstPlace (equal · item) (s.items this)).map Option.isSome) s := by
  refine ends_length.bind (ends_search (s.items this) (equal · item) (fun _ => true) _ Option.isSome ?_
    (fun _ => ends_pure _ _) (ends_pure _ _))
  exact fun k x hx => (ends_get rfl hx).bind (ends_if _ _ _ _)

/-- What `remove` does to the items: the first that is equal goes. -/
theorem ends_remove (item : T) :
    Ends (remove equal this item) s ((firstPlace (equal · item) (s.items this)).map Option.isSome)
      (match firstPlace (equal · item) (s.items this) with
        | .ok (some k) => s.setItems this ((s.items this).eraseIdx k)
        | _ => s) := by
  have hindex := @ends_indexOf _ _ s this equal item
  rcases firstPlace_cases (equal · item) (s.items this) with ⟨-, hplace⟩ | ⟨a, x, b, hlist, -, hx⟩
  · rw [hplace] at hindex ⊢
    exact hindex.bind (ends_pure false s)
  · rcases hx with ⟨-, hplace⟩ | ⟨e, -, hplace⟩
    · rw [hplace] at hindex ⊢
      have herase : (s.items this).eraseIdx a.length = a ++ b := by
        rw [hlist, List.eraseIdx_append_of_length_le (le_refl _), Nat.sub_self]
        rfl
      refine hindex.bind ?_
      change Ends (if ((a.length : Nat) : Int) < 0 then _ else _) _ _
        (s.setItems this ((s.items this).eraseIdx a.length))
      rw [if_neg (by omega), herase]
      exact (ends_removeAt a b x hlist).bind (ends_pure true _)
    · rw [hplace] at hindex ⊢
      exact hindex.bind_error

/-- What `removeAll` does to the items: the number of those that went, and the others. If a comparison
    raises, the items behind it are left. -/
def sweep (p : T → Except Fault Bool) : List T → Except Fault Int × List T
  | [] => (.ok 0, [])
  | x :: l =>
    match p x with
    | .ok true => ((sweep p l).1.map (· + 1), (sweep p l).2)
    | .ok false => ((sweep p l).1, x :: (sweep p l).2)
    | .error e => (.error e, x :: l)

theorem sweep_append {p : T → Except Fault Bool} {a : List T} (ha : ∀ y ∈ a, p y = .ok false)
    (b : List T) : sweep p (a ++ b) = ((sweep p b).1, a ++ (sweep p b).2) := by
  induction a with
  | nil => rfl
  | cons y a ih =>
    rw [List.cons_append, sweep, ha y List.mem_cons_self, ih fun z hz => ha z (List.mem_cons_of_mem _ hz)]
    rfl

theorem sweep_error {p : T → Except Fault Bool} {e : Fault} (h : firstPlace p l = .error e) :
    sweep p l = (.error e, l) := by
  rcases firstPlace_cases p l with ⟨-, hplace⟩ | ⟨a, x, b, rfl, ha, hx⟩
  · rw [hplace] at h
    cases h
  · rcases hx with ⟨-, hplace⟩ | ⟨e', hx, hplace⟩
    · rw [hplace] at h
      cases h
    · obtain rfl := Except.error.inj (hplace.symm.trans h)
      rw [sweep_append ha, sweep, hx]

theorem whileEnds_removeAll (item : T) (removed : Int) {place : Option Nat}
    (hplace : firstPlace (equal · item) (s.items this) = .ok place) :
    WhileEnds (fun locals => return locals.2 ≥ 0) (fun locals => do
        let (removed, index) := locals
        let _ ← removeAt this index
        return (removed + 1, ← indexOf equal this item)) (removed, placeOf place) s
      ((sweep (equal · item) (s.items this)).1.map fun count => (removed + count, -1))
      (s.setItems this (sweep (equal · item) (s.items this)).2) := by
  induction hlength : (s.items this).length using Nat.strong_induction_on generalizing s removed place with
  | _ n ih =>
    rcases firstPlace_cases (equal · item) (s.items this) with ⟨hnone, hfirst⟩ | ⟨a, x, b, hlist, ha, hx⟩
    · obtain rfl := Except.ok.inj (hfirst.symm.trans hplace)
      have hsweep := sweep_append hnone []
      rw [List.append_nil] at hsweep
      rw [hsweep]
      simp only [sweep, List.append_nil, Except.map, add_zero, Store.setItems_eq_self]
      exact .leave (ends_pure false s)
    · rcases hx with ⟨hx, hfirst⟩ | ⟨e, hx, hfirst⟩
      · obtain rfl := Except.ok.inj (hfirst.symm.trans hplace)
        have hcondition : Ends (return placeOf (some a.length) ≥ 0 : Code T W Bool) s (.ok true) s :=
          ends_decide (decide_eq_true (Int.natCast_nonneg _))
        have hsweep : sweep (equal · item) (s.items this) =
            ((sweep (equal · item) b).1.map (· + 1), a ++ (sweep (equal · item) b).2) := by
          rw [hlist, sweep_append ha, sweep, hx]
        have hremove := ends_removeAt a b x hlist
        have hindex := @ends_indexOf _ _ (s.setItems this (a ++ b)) this equal item
        rw [Store.items_setItems] at hindex
        rw [hsweep]
        cases hnext : firstPlace (equal · item) (a ++ b) with
        | error e =>
          rw [hnext] at hindex
          have hrest : sweep (equal · item) b = (.error e, b) := by
            have hall := sweep_error hnext
            rw [sweep_append ha] at hall
            obtain ⟨hresult, hleft⟩ := Prod.mk.inj hall
            exact Prod.ext hresult (List.append_cancel_left hleft)
          rw [hrest]
          exact .body_error hcondition (hremove.bind hindex.bind_error)
        | ok place =>
          rw [hnext] at hindex
          have hrest := @ih (a ++ b).length (by rw [← hlength, hlist]; simp)
            (s.setItems this (a ++ b)) (removed + 1) place (by rwa [Store.items_setItems])
            (by rw [Store.items_setItems])
          rw [Store.items_setItems, sweep_append ha, Store.setItems_setItems] at hrest
          refine .next hcondition (hremove.bind (hindex.bind (ends_pure _ _))) ?_
          convert hrest using 1
          cases (sweep (equal · item) b).1 with
          | error e => rfl
          | ok count =>
            refine congrArg (fun n => Except.ok (n, -1)) ?_
            change removed + (count + 1) = removed + 1 + count
            omega
      · rw [hfirst] at hplace
        cases hplace

theorem ends_removeAll (item : T) :
    Ends (removeAll equal this item) s (sweep (equal · item) (s.items this)).1
      (s.setItems this (sweep (equal · item) (s.items this)).2) := by
  have hindex := @ends_indexOf _ _ s this equal item
  cases hplace : firstPlace (equal · item) (s.items this) with
  | error e =>
    rw [hplace] at hindex
    have hsweep : sweep (equal · item) (s.items this) = (.error e, s.items this) :=
      sweep_error hplace
    rw [hsweep, Store.setItems_eq_self rfl]
    exact hindex.bind_error
  | ok place =>
    rw [hplace] at hindex
    refine hindex.bind ?_
    have hloop := whileEnds_removeAll (W := W) item 0 hplace
    cases hsweep : (sweep (equal · item) (s.items this)).1 with
    | error e =>
      rw [hsweep] at hloop
      exact hloop.ends.bind_error
    | ok count =>
      rw [hsweep] at hloop
      refine hloop.ends.bind ?_
      simpa using ends_pure count (s.setItems this (sweep (equal · item) (s.items this)).2)

end

theorem ends_swap_error {first second : Int} (h : first < 0 ∨ second < 0 ∨
    first ≥ (s.items this).length ∨ second ≥ (s.items this).length) :
    Ends (swap this first second) s (.error ⟨"Exception", "List.swap index out of range"⟩) s := by
  refine ends_length.bind ?_
  rw [if_pos h]
  exact ends_exception _

theorem ends_swap {i j : Nat} {x y : T} (hi : (s.items this)[i]? = some x)
    (hj : (s.items this)[j]? = some y) :
    Ends (swap this i j) s (.ok ()) (s.setItems this (((s.items this).set i y).set j x)) := by
  obtain ⟨hi', hx⟩ := List.getElem?_eq_some_iff.mp hi
  obtain ⟨hj', hy⟩ := List.getElem?_eq_some_iff.mp hj
  refine ends_length.bind ?_
  rw [if_neg (by omega)]
  by_cases heq : (i : Int) = j
  · obtain rfl : i = j := by omega
    obtain rfl : x = y := hx.symm.trans hy
    rw [if_pos rfl, List.set_set, ← hx, List.set_getElem_self, Store.setItems_eq_self rfl]
    exact ends_pure _ _
  · rw [if_neg heq]
    have hput : Ends (put this (j : Int) x) (s.setItems this ((s.items this).set i y)) (.ok ())
        (s.setItems this (((s.items this).set i y).set j x)) := by
      have hput := ends_put (s := s.setItems this ((s.items this).set i y)) (Eq.refl (j : Int))
        (show j < ((s.setItems this ((s.items this).set i y)).items this).length by simpa using hj') x
      simpa using hput
    exact (ends_get rfl hi).bind ((ends_get rfl hj).bind ((ends_put rfl hi' y).bind hput))

theorem whileEnds_reverse (a m c : List T) (h : s.items this = a ++ m ++ c) :
    ∃ ends : Int × Int, WhileEnds (fun ends => return ends.1 < ends.2) (fun ends => do
        let (left, right) := ends
        let x ← get this left
        put this left (← get this right)
        put this right x
        return (left + 1, right - 1)) ((a.length : Int), ((a ++ m).length : Int) - 1) s (.ok ends)
      (s.setItems this (a ++ m.reverse ++ c)) := by
  induction m using List.bidirectionalRec generalizing s a c with
  | nil =>
    refine ⟨((a.length : Int), ((a ++ []).length : Int) - 1), ?_⟩
    rw [Store.setItems_eq_self (by simpa using h)]
    exact .leave (ends_decide (decide_eq_false (by rw [List.append_nil]; omega)))
  | singleton x =>
    refine ⟨((a.length : Int), ((a ++ [x]).length : Int) - 1), ?_⟩
    rw [Store.setItems_eq_self (by simpa using h)]
    exact .leave (ends_decide (by simp))
  | cons_append x m y ih =>
    have hcondition : Ends (return (a.length : Int) < ((a ++ x :: (m ++ [y])).length : Int) - 1 :
        Code T W Bool) s (.ok true) s := by
      refine ends_decide (decide_eq_true ?_)
      simp only [List.length_append, List.length_cons, List.length_nil]
      omega
    have hright : ((a ++ x :: (m ++ [y])).length : Int) - 1 = (a.length + m.length + 1 : Nat) := by
      simp only [List.length_append, List.length_cons, List.length_nil]
      omega
    have hset : ((s.items this).set a.length y).set (a.length + m.length + 1) x =
        (a ++ [y]) ++ m ++ (x :: c) := by
      rw [h, List.append_assoc, List.set_append_right _ _ (le_refl _), Nat.sub_self, add_assoc,
        List.set_append_right _ _ (Nat.le_add_right _ _), Nat.add_sub_cancel_left]
      simp
    have hput : Ends (put this ((a.length + m.length + 1 : Nat) : Int) x)
        (s.setItems this ((s.items this).set a.length y)) (.ok ())
        (s.setItems this ((a ++ [y]) ++ m ++ (x :: c))) := by
      have hput := @ends_put T W (s.setItems this ((s.items this).set a.length y)) this
        ((a.length + m.length + 1 : Nat) : Int) _ rfl (by simp [h]; omega) x
      simpa only [Store.items_setItems, Store.setItems_setItems, hset] using hput
    obtain ⟨ends, hloop⟩ := @ih (s.setItems this ((a ++ [y]) ++ m ++ (x :: c))) (a ++ [y]) (x :: c)
      (Store.items_setItems _ _)
    have hleft : Ends (get this (a.length : Int)) s (.ok x) s := ends_get rfl (by simp [h])
    have hlast : Ends (get this ((a.length + m.length + 1 : Nat) : Int)) s (.ok y) s :=
      ends_get rfl (by simp [h, add_assoc])
    have hnext : ((a.length : Int) + 1, ((a.length + m.length + 1 : Nat) : Int) - 1) =
        (((a ++ [y]).length : Int), ((a ++ [y] ++ m).length : Int) - 1) := by
      simp only [List.length_append, List.length_singleton, Prod.mk.injEq]
      omega
    have hresult : a ++ [y] ++ m.reverse ++ x :: c = a ++ (x :: (m ++ [y])).reverse ++ c := by simp
    rw [Store.setItems_setItems, ← hnext, hresult] at hloop
    refine ⟨ends, .next hcondition ?_ hloop⟩
    rw [hright]
    exact hleft.bind (hlast.bind ((ends_put rfl (by simp [h]) y).bind (hput.bind (ends_pure _ _))))

theorem ends_reverse : Ends (reverse this) s (.ok ()) (s.setItems this (s.items this).reverse) := by
  obtain ⟨ends, hloop⟩ := @whileEnds_reverse T W s this [] (s.items this) [] (by simp)
  refine ends_length.bind (hloop.ends.bind ?_)
  simpa using ends_pure () _

end zl.stdlib.list
