import Zl.Stdlib.List.EditRefinement

open zl.program zl.program.Program zl.vm.native

namespace zl.stdlib.list

variable {T W : Type} {s t : Store T W} {this : ListId} {less : Callback T W (T × T) Bool}

/-- How an insertion or a sort ends. If a comparison raised, the item that was held and the items
    that had moved up for it. -/
inductive SortEnd (T W : Type) where
  | done (s : Store T W)
  | raised (e : Fault) (held : T) (passed : List T) (s : Store T W)

namespace SortEnd

def store : SortEnd T W → Store T W
  | .done s => s
  | .raised _ _ _ s => s

def result : SortEnd T W → Except Fault Unit
  | .done _ => .ok ()
  | .raised e _ _ _ => .error e

end SortEnd

/-- The list while `held` is out of it: the items before its place, last first, those that moved up,
    and the rest. The place still has what was last in it. -/
def holding (held : T) (rest front passed : List T) : List T :=
  front.reverse ++ passed.headD held :: passed ++ rest

/-- One item's insertion among the items before it, which are compared from the last. -/
def insertHeld (less : Callback T W (T × T) Bool) (this : ListId) (held : T) (rest : List T) :
    List T → List T → Store T W → SortEnd T W
  | [], passed, s => .done (s.setItems this (held :: passed ++ rest))
  | x :: front, passed, s =>
    let compared := s.setWorld (less s (held, x)).2
    match (less s (held, x)).1 with
    | .ok true =>
      insertHeld less this held rest front (x :: passed)
        (compared.setItems this (holding held rest front (x :: passed)))
    | .ok false => .done (compared.setItems this ((x :: front).reverse ++ held :: passed ++ rest))
    | .error e => .raised e held passed compared

/-- The insertions of the items from place `i` on. -/
def insertAll (less : Callback T W (T × T) Bool) (this : ListId) :
    Nat → List T → Store T W → SortEnd T W
  | _, [], s => .done s
  | i, held :: rest, s =>
    match insertHeld less this held rest ((s.items this).take i).reverse [] s with
    | .done s => insertAll less this (i + 1) rest s
    | .raised e held passed s => .raised e held passed s

def sortEnd (less : Callback T W (T × T) Bool) (this : ListId) (s : Store T W) : SortEnd T W :=
  insertAll less this 1 (s.items this).tail s

theorem whileEnds_insertHeld (held : T) (rest front passed : List T)
    (h : s.items this = holding held rest front passed) :
    ∃ (r : Except Fault Int) (s' : Store T W),
      WhileEnds (fun j => do if j ≥ 0 then call less (held, ← get this j) else return false)
        (fun j => do
          put this (j + 1) (← get this j)
          return j - 1) ((front.length : Int) - 1) s r s' ∧
      match insertHeld less this held rest front passed s with
      | .done s'' => ∃ j : Int, r = .ok j ∧ Ends (put this (j + 1) held) s' (.ok ()) s''
      | .raised e _ _ s'' => r = .error e ∧ s' = s'' := by
  induction front generalizing s passed with
  | nil =>
    refine ⟨.ok (((([] : List T).length : Nat) : Int) - 1), s, .leave ?_, _, rfl, ?_⟩
    · rw [if_neg (by simp)]
      exact ends_pure _ _
    · have hput := @ends_put _ _ s this _ 0 (show (-1 : Int) + 1 = ((0 : Nat) : Int) by rfl)
        (by simp [h, holding]) held
      simpa [h, holding] using hput
  | cons x front ih =>
    have hj : (((x :: front).length : Nat) : Int) - 1 = (front.length : Int) := by
      rw [List.length_cons]
      omega
    have hitem : (s.items this)[front.length]? = some x := by simp [h, holding]
    have hcompare : Ends (do
        if (front.length : Int) ≥ 0 then call less (held, ← get this (front.length : Int))
        else return false) s (less s (held, x)).1 (s.setWorld (less s (held, x)).2) := by
      rw [if_pos (Int.natCast_nonneg _)]
      exact (ends_get rfl hitem).bind (ends_call less (held, x))
    rw [hj]
    unfold insertHeld
    match hanswer : (less s (held, x)).1 with
    | .error e =>
      rw [hanswer] at hcompare
      exact ⟨_, _, .condition_error hcompare, rfl, rfl⟩
    | .ok false =>
      rw [hanswer] at hcompare
      refine ⟨_, _, .leave hcompare, _, rfl, ?_⟩
      have hput := @ends_put T W (s.setWorld (less s (held, x)).2) this ((front.length : Int) + 1)
        (front.length + 1) rfl (by simp [Store.setWorld, h, holding]) held
      simpa [Store.setWorld, h, holding] using hput
    | .ok true =>
      rw [hanswer] at hcompare
      have hset : (s.items this).set (front.length + 1) x = holding held rest front (x :: passed) := by
        rw [h, holding, List.append_assoc, List.set_append_right _ _ (by simp)]
        simp [holding]
      have hmove := @ends_move T W Int (s.setWorld (less s (held, x)).2) this
        ((front.length : Int) + 1) (front.length : Int) (front.length + 1) front.length x rfl rfl hitem
        (by simp [Store.setWorld, h, holding]) ((front.length : Int) - 1)
      obtain ⟨r, s', hloop, hpost⟩ := @ih ((s.setWorld (less s (held, x)).2).setItems this
        (holding held rest front (x :: passed))) (x :: passed) (Store.items_setItems _ _)
      refine ⟨r, s', .next hcompare ?_ hloop, hpost⟩
      rw [← hset]
      exact hmove

/-- What a round of the outer loop does. -/
theorem ends_insertRound {i : Nat} {held : T} {rest : List T}
    (hitems : s.items this = (s.items this).take i ++ held :: rest) (hi : i ≤ (s.items this).length) :
    Ends (do
      let current ← get this (i : Int)
      let j ← whileLoop
        (fun j => do if j ≥ 0 then call less (current, ← get this j) else return false)
        (fun j => do
          put this (j + 1) (← get this j)
          return j - 1) ((i : Int) - 1)
      put this (j + 1) current
      return (i : Int) + 1) s
      ((insertHeld less this held rest ((s.items this).take i).reverse [] s).result.map
        fun _ => ((i + 1 : Nat) : Int))
      (insertHeld less this held rest ((s.items this).take i).reverse [] s).store := by
  have hlength : ((s.items this).take i).reverse.length = i := by simp [hi]
  have hget : Ends (get this (i : Int)) s (.ok held) s := by
    refine ends_get rfl ?_
    rw [hitems, List.getElem?_append_right (by simp [hi])]
    simp [hi]
  obtain ⟨r, s', hloop, hpost⟩ := @whileEnds_insertHeld _ _ s this less held rest
    ((s.items this).take i).reverse [] (by simpa [holding] using hitems)
  rw [hlength] at hloop
  refine hget.bind ?_
  match hend : insertHeld less this held rest ((s.items this).take i).reverse [] s, hpost with
  | .done s'', hpost =>
    obtain ⟨j, rfl, hput⟩ := hpost
    exact hloop.ends.bind (hput.bind (ends_pure _ _))
  | .raised e _ _ s'', hpost =>
    obtain ⟨rfl, rfl⟩ := hpost
    exact hloop.ends.bind_error

/-- The comparator answers by a relation of the items. -/
def Answers (less : Callback T W (T × T) Bool) (lt : T → T → Bool) : Prop :=
  ∀ s p, (less s p).1 = .ok (lt p.1 p.2)

/-- An inserted item stands between those it was not compared with or is not less than, and those it
    is less than. -/
theorem insertHeld_done {held : T} {rest front passed : List T} {s' : Store T W}
    (h : insertHeld less this held rest front passed s = .done s') :
    ∃ before after, front.reverse = before ++ after ∧
      s'.items this = before ++ held :: after ++ passed ++ rest ∧
      ∀ lt, Answers less lt → (∀ y ∈ after, lt held y = true) ∧ ∀ x ∈ before.getLast?, lt held x = false := by
  induction front generalizing passed s with
  | nil =>
    cases h
    exact ⟨[], [], rfl, by simp, by simp⟩
  | cons x front ih =>
    unfold insertHeld at h
    match hanswer : (less s (held, x)).1 with
    | .ok true =>
      rw [hanswer] at h
      obtain ⟨before, after, hfront, hitems, hless⟩ := ih h
      refine ⟨before, after ++ [x], by simp [hfront], by simp [hitems], fun lt hlt => ?_⟩
      obtain ⟨hafter, hbefore⟩ := hless lt hlt
      rw [hlt] at hanswer
      refine ⟨fun y hy => ?_, hbefore⟩
      rcases List.mem_append.mp hy with hy | hy
      · exact hafter y hy
      · rw [List.mem_singleton.mp hy]
        exact Except.ok.inj hanswer
    | .ok false =>
      rw [hanswer] at h
      cases h
      refine ⟨(x :: front).reverse, [], by simp, by simp, fun lt hlt => ⟨by simp, fun y hy => ?_⟩⟩
      rw [hlt] at hanswer
      obtain rfl : x = y := by simpa using hy
      exact Except.ok.inj hanswer
    | .error e =>
      rw [hanswer] at h
      cases h

/-- An insertion at place `i`, in the list cut there. -/
theorem insertHeld_cut {i : Nat} {held : T} {rest : List T} {s' : Store T W}
    (hrest : (s.items this).drop i = held :: rest)
    (h : insertHeld less this held rest ((s.items this).take i).reverse [] s = .done s') :
    ∃ before after, (s.items this).take i = before ++ after ∧
      (s'.items this).take (i + 1) = before ++ held :: after ∧ (s'.items this).drop (i + 1) = rest ∧
      ∀ lt, Answers less lt → (∀ y ∈ after, lt held y = true) ∧ ∀ x ∈ before.getLast?, lt held x = false := by
  obtain ⟨before, after, hfront, hitems, hless⟩ := insertHeld_done h
  rw [List.reverse_reverse] at hfront
  rw [List.append_nil] at hitems
  have hlt : i < (s.items this).length := by
    by_contra hge
    rw [List.drop_eq_nil_of_le (Nat.le_of_not_lt hge)] at hrest
    cases hrest
  have hcount : (before ++ held :: after).length = i + 1 := by
    have hlength := congrArg List.length hfront
    rw [List.length_take_of_le hlt.le, List.length_append] at hlength
    rw [List.length_append, List.length_cons]
    omega
  refine ⟨before, after, hfront, ?_, ?_, hless⟩
  · rw [hitems, ← hcount, List.take_left]
  · rw [hitems, ← hcount, List.drop_left]

theorem whileEnds_insertAll {i : Nat} {rest : List T} (hrest : (s.items this).drop i = rest) :
    ∃ r : Except Fault Int,
      WhileEnds (fun i => do return i < (← length this))
        (fun i => do
          let current ← get this i
          let j ← whileLoop
            (fun j => do if j ≥ 0 then call less (current, ← get this j) else return false)
            (fun j => do
              put this (j + 1) (← get this j)
              return j - 1) (i - 1)
          put this (j + 1) current
          return i + 1) (i : Int) s r (insertAll less this i rest s).store ∧
      r.map (fun _ => ()) = (insertAll less this i rest s).result := by
  induction rest generalizing s i with
  | nil =>
    have hle := List.drop_eq_nil_iff.mp hrest
    exact ⟨.ok i, .leave (ends_test (decide_eq_false (by omega))), rfl⟩
  | cons held rest ih =>
    have hlt : i < (s.items this).length := by
      by_contra hge
      rw [List.drop_eq_nil_of_le (Nat.le_of_not_lt hge)] at hrest
      cases hrest
    have hitems : s.items this = (s.items this).take i ++ held :: rest := by
      rw [← hrest, List.take_append_drop]
    have hcondition : Ends (do return (i : Int) < (← length this) : Code T W Bool) s (.ok true) s :=
      ends_test (decide_eq_true (by omega))
    have hround := @ends_insertRound _ _ s this less _ _ _ hitems hlt.le
    unfold insertAll
    match hend : insertHeld less this held rest ((s.items this).take i).reverse [] s with
    | .raised e c passed s' =>
      rw [hend] at hround
      exact ⟨.error e, .body_error hcondition hround, rfl⟩
    | .done s' =>
      rw [hend] at hround
      obtain ⟨-, -, -, -, hdrop, -⟩ := insertHeld_cut hrest hend
      obtain ⟨r, hloop, hresult⟩ := ih hdrop
      exact ⟨r, .next hcondition hround hloop, hresult⟩

/-- The method ends as the insertions do. -/
theorem ends_sort (s : Store T W) (this : ListId) (less : Callback T W (T × T) Bool) :
    Ends (sort this less) s (sortEnd less this s).result (sortEnd less this s).store := by
  obtain ⟨r, hloop, hresult⟩ := @whileEnds_insertAll _ _ s this less 1 _ List.drop_one
  unfold sortEnd
  rw [← hresult]
  cases r with
  | ok i => exact hloop.ends.bind (ends_pure _ _)
  | error e => exact hloop.ends.bind_error

theorem insertHeld_leaves (held : T) (rest front passed : List T) :
    Leaves s (insertHeld less this held rest front passed s).store this
      ((insertHeld less this held rest front passed s).store.items this) := by
  induction front generalizing passed s with
  | nil => exact ⟨rfl, fun _ _ hne => Store.items_setItems_of_ne hne _, le_refl _⟩
  | cons x front ih =>
    unfold insertHeld
    match (less s (held, x)).1 with
    | .error e => exact ⟨rfl, fun _ _ _ => rfl, le_refl _⟩
    | .ok false => exact ⟨rfl, fun _ _ hne => Store.items_setItems_of_ne hne _, le_refl _⟩
    | .ok true =>
      have hrest := @ih ((s.setWorld (less s (held, x)).2).setItems this
        (holding held rest front (x :: passed))) (x :: passed)
      refine ⟨rfl, fun id hid hne => ?_, hrest.next_le⟩
      exact (hrest.other_items id hid hne).trans (Store.items_setItems_of_ne hne _)

theorem insertAll_leaves (i : Nat) (rest : List T) :
    Leaves s (insertAll less this i rest s).store this ((insertAll less this i rest s).store.items this) := by
  induction rest generalizing i s with
  | nil => exact .self
  | cons held rest ih =>
    have hfirst := @insertHeld_leaves _ _ s this less held rest
      ((s.items this).take i).reverse []
    unfold insertAll
    match hend : insertHeld less this held rest ((s.items this).take i).reverse [] s with
    | .raised e c passed s' =>
      rw [hend] at hfirst
      exact hfirst
    | .done s' =>
      rw [hend] at hfirst
      exact hfirst.trans (ih (i + 1))

/-- Sorting permutes the items, whatever the comparator answers. -/
theorem insertAll_perm {i : Nat} {rest : List T} (hrest : (s.items this).drop i = rest)
    {s' : Store T W} (h : insertAll less this i rest s = .done s') :
    (s'.items this).Perm (s.items this) := by
  induction rest generalizing i s with
  | nil =>
    cases h
    exact List.Perm.refl _
  | cons held rest ih =>
    unfold insertAll at h
    match hend : insertHeld less this held rest ((s.items this).take i).reverse [] s with
    | .raised e c passed t =>
      rw [hend] at h
      cases h
    | .done t =>
      rw [hend] at h
      obtain ⟨before, after, htake, htake', hdrop, -⟩ := insertHeld_cut hrest hend
      have hitems : (t.items this).Perm (s.items this) := by
        rw [← List.take_append_drop (i + 1) (t.items this), ← List.take_append_drop i (s.items this),
          htake, htake', hdrop, hrest, List.append_assoc, List.append_assoc]
        exact List.Perm.append_left before List.perm_middle.symm
      exact (ih hdrop h).trans hitems

section
variable {lt : T → T → Bool}

/-- In order: no later item is less than an earlier one. -/
def Ordered (lt : T → T → Bool) (l : List T) : Prop := l.Pairwise fun a b => lt b a = false

/-- Neither is less than the other. -/
def tied (lt : T → T → Bool) (x y : T) : Bool := !lt x y && !lt y x

variable [IsStrictWeakOrder T (fun a b => lt a b = true)]

theorem lt_trans' {x y z : T} (hxy : lt x y = true) (hyz : lt y z = true) : lt x z = true :=
  IsTrans.trans (r := fun a b => lt a b = true) x y z hxy hyz

theorem lt_asymm' {x y : T} (hxy : lt x y = true) : lt y x = false := by
  by_contra hyx
  exact Std.Irrefl.irrefl (r := fun a b => lt a b = true) x (lt_trans' hxy (by simpa using hyx))

theorem tied_trans {x y z : T} (hxy : tied lt x y = true) (hyz : tied lt y z = true) :
    tied lt x z = true := by
  have htrans := @IsStrictWeakOrder.incomp_trans _ (fun a b => lt a b = true) _ x y z
  simp only [tied, Bool.and_eq_true, Bool.not_eq_true', Bool.not_eq_true] at hxy hyz htrans ⊢
  exact htrans hxy hyz

/-- What is not less than something that is not less than a third is not less than the third. -/
theorem not_lt_trans {x y z : T} (hxy : lt x y = false) (hyz : lt y z = false) : lt x z = false := by
  by_contra hxz
  rw [Bool.not_eq_false] at hxz
  have hyx : lt y x = false := by
    by_contra hyx
    rw [lt_trans' (by simpa using hyx) hxz] at hyz
    cases hyz
  have hzy : lt z y = false := by
    by_contra hzy
    rw [lt_trans' hxz (by simpa using hzy)] at hxy
    cases hxy
  have hxyTied : tied lt x y = true := by simp [tied, hxy, hyx]
  have hyzTied : tied lt y z = true := by simp [tied, hyz, hzy]
  have htied := tied_trans hxyTied hyzTied
  simp [tied, hxz] at htied

theorem ordered_insert {before after : List T} {held : T} (h : Ordered lt (before ++ after))
    (hafter : ∀ y ∈ after, lt held y = true) (hbefore : ∀ x ∈ before.getLast?, lt held x = false) :
    Ordered lt (before ++ held :: after) := by
  obtain ⟨hfirst, hlast, hcross⟩ := List.pairwise_append.mp h
  refine List.pairwise_append.mpr ⟨hfirst, List.pairwise_cons.mpr ⟨fun y hy => lt_asymm' (hafter y hy),
    hlast⟩, fun a ha b hb => ?_⟩
  rcases List.mem_cons.mp hb with rfl | hb
  · rcases List.eq_nil_or_concat before with rfl | ⟨front, z, rfl⟩
    · cases ha
    · have hz : lt b z = false := hbefore z (by simp)
      rw [List.concat_eq_append] at ha hfirst
      rcases List.mem_append.mp ha with ha | ha
      · exact not_lt_trans hz ((List.pairwise_append.mp hfirst).2.2 a ha z (by simp))
      · rw [List.mem_singleton.mp ha]
        exact hz
  · exact hcross a ha b hb

theorem filter_tied_insert {before after rest : List T} {held : T}
    (hafter : ∀ y ∈ after, lt held y = true) (x : T) :
    (before ++ held :: after ++ rest).filter (tied lt x) =
      (before ++ after ++ held :: rest).filter (tied lt x) := by
  simp only [List.append_assoc, List.cons_append, List.filter_append, List.filter_cons]
  by_cases hheld : tied lt x held = true
  · have hnone : after.filter (tied lt x) = [] := by
      refine List.filter_eq_nil_iff.mpr fun y hy hxy => ?_
      have hswap : tied lt held x = true := by simpa [tied, and_comm] using hheld
      have htied := tied_trans hswap hxy
      simp [tied, hafter y hy] at htied
    simp [hnone]
  · simp [hheld]

/-- The items before place `i` in order, the insertions of the rest put all in order, and keep what is
    tied in the order it had. -/
theorem insertAll_ordered (hanswers : Answers less lt) {i : Nat} {rest : List T}
    (hrest : (s.items this).drop i = rest) (hordered : Ordered lt ((s.items this).take i))
    {s' : Store T W} (h : insertAll less this i rest s = .done s') :
    Ordered lt (s'.items this) ∧
      ∀ x, (s'.items this).filter (tied lt x) = (s.items this).filter (tied lt x) := by
  induction rest generalizing i s with
  | nil =>
    cases h
    rw [List.take_of_length_le (List.drop_eq_nil_iff.mp hrest)] at hordered
    exact ⟨hordered, fun _ => rfl⟩
  | cons held rest ih =>
    unfold insertAll at h
    match hend : insertHeld less this held rest ((s.items this).take i).reverse [] s with
    | .raised e c passed t =>
      rw [hend] at h
      cases h
    | .done t =>
      rw [hend] at h
      obtain ⟨before, after, htake, htake', hdrop, hless⟩ := insertHeld_cut hrest hend
      obtain ⟨hafter, hbefore⟩ := hless lt hanswers
      rw [htake] at hordered
      obtain ⟨hsorted, hstable⟩ := ih hdrop (by
        rw [htake']
        exact ordered_insert hordered hafter hbefore) h
      refine ⟨hsorted, fun x => (hstable x).trans ?_⟩
      rw [← List.take_append_drop (i + 1) (t.items this), ← List.take_append_drop i (s.items this),
        htake, htake', hdrop, hrest]
      exact filter_tied_insert hafter x

end

/-- The comparator does not look at the lists. -/
def Blind (less : Callback T W (T × T) Bool) : Prop :=
  ∀ s t p, s.world = t.world → less s p = less t p

/-- Two sorts that end alike, with the same items in the lists they sort. -/
structure Alike (this other : ListId) (a b : SortEnd T W) : Prop where
  result : a.result = b.result
  world : a.store.world = b.store.world
  items : a.store.items this = b.store.items other

theorem insertHeld_alike (hblind : Blind less) {other : ListId} {t : Store T W}
    (hworld : s.world = t.world) (hitems : s.items this = t.items other)
    (held : T) (rest front passed : List T) :
    Alike this other (insertHeld less this held rest front passed s)
      (insertHeld less other held rest front passed t) := by
  induction front generalizing passed s t with
  | nil => exact ⟨rfl, hworld, by simp [insertHeld, SortEnd.store]⟩
  | cons x front ih =>
    have hless := hblind s t (held, x) hworld
    unfold insertHeld
    rw [← hless]
    match (less s (held, x)).1 with
    | .error e => exact ⟨rfl, rfl, hitems⟩
    | .ok false => exact ⟨rfl, rfl, by simp [SortEnd.store]⟩
    | .ok true =>
      refine @ih ((s.setWorld (less s (held, x)).2).setItems this (holding held rest front (x :: passed)))
        ((t.setWorld (less s (held, x)).2).setItems other (holding held rest front (x :: passed))) rfl ?_ _
      rw [Store.items_setItems, Store.items_setItems]

theorem insertAll_alike (hblind : Blind less) {other : ListId} {t : Store T W}
    (hworld : s.world = t.world) (hitems : s.items this = t.items other) (i : Nat) (rest : List T) :
    Alike this other (insertAll less this i rest s) (insertAll less other i rest t) := by
  induction rest generalizing i s t with
  | nil => exact ⟨rfl, hworld, hitems⟩
  | cons held rest ih =>
    have hfirst := insertHeld_alike hblind hworld hitems held rest ((s.items this).take i).reverse []
    unfold insertAll
    rw [← hitems]
    match insertHeld less this held rest ((s.items this).take i).reverse [] s,
      insertHeld less other held rest ((s.items this).take i).reverse [] t, hfirst with
    | .done s', .done t', hfirst => exact ih hfirst.world hfirst.items _
    | .raised .., .raised .., hfirst => exact ⟨hfirst.result, hfirst.world, hfirst.items⟩
    | .done .., .raised .., hfirst => cases hfirst.result
    | .raised .., .done .., hfirst => cases hfirst.result

/-- A permutation of the items, and for a comparator that answers by a strict weak order, one in order
    that keeps what is tied in the order it had. -/
def SortedFrom (less : Callback T W (T × T) Bool) (before after : List T) : Prop :=
  after.Perm before ∧
    ∀ lt : T → T → Bool, IsStrictWeakOrder T (fun a b => lt a b = true) → Answers less lt →
      Ordered lt after ∧ ∀ x, after.filter (tied lt x) = before.filter (tied lt x)

theorem sortedFrom_of_done {s' : Store T W} (h : sortEnd less this s = .done s') :
    SortedFrom less (s.items this) (s'.items this) := by
  refine ⟨insertAll_perm List.drop_one h, fun lt hlt hanswers => ?_⟩
  refine insertAll_ordered hanswers List.drop_one ?_ h
  cases s.items this with
  | nil => exact List.Pairwise.nil
  | cons x l => exact List.pairwise_singleton _ _

/-- The sort of `s` comes to hold an item out of the list, with the items before it that are still to
    be compared, last first, and those that have moved up for it. -/
inductive Holding (less : Callback T W (T × T) Bool) (this : ListId) (s : Store T W) :
    T → List T → List T → List T → Store T W → Prop where
  | start {x held : T} {rest : List T} : s.items this = x :: held :: rest →
      Holding less this s held rest [x] [] s
  | movedUp {held x : T} {rest front passed : List T} {t : Store T W} :
      Holding less this s held rest (x :: front) passed t → (less t (held, x)).1 = .ok true →
      Holding less this s held rest front (x :: passed)
        ((t.setWorld (less t (held, x)).2).setItems this (holding held rest front (x :: passed)))
  | placed {held x next : T} {rest front passed : List T} {t : Store T W} :
      Holding less this s held (next :: rest) (x :: front) passed t →
      (less t (held, x)).1 = .ok false →
      Holding less this s next rest (passed.reverse ++ held :: x :: front) []
        ((t.setWorld (less t (held, x)).2).setItems this
          ((x :: front).reverse ++ held :: passed ++ next :: rest))
  | placedFirst {held next : T} {rest passed : List T} {t : Store T W} :
      Holding less this s held (next :: rest) [] passed t →
      Holding less this s next rest (passed.reverse ++ [held]) []
        (t.setItems this (held :: passed ++ next :: rest))

/-- The rest of the sort from an insertion that has come this far. -/
def resume (less : Callback T W (T × T) Bool) (this : ListId) (held : T) (rest front passed : List T)
    (t : Store T W) : SortEnd T W :=
  match insertHeld less this held rest front passed t with
  | .done t => insertAll less this (front.length + passed.length + 1) rest t
  | .raised e held passed t => .raised e held passed t

theorem resume_movedUp {held x : T} {front : List T} (rest passed : List T)
    (hanswer : (less t (held, x)).1 = .ok true) :
    resume less this held rest (x :: front) passed t =
      resume less this held rest front (x :: passed)
        ((t.setWorld (less t (held, x)).2).setItems this (holding held rest front (x :: passed))) := by
  have hlength : (x :: front).length + passed.length + 1 = front.length + (x :: passed).length + 1 := by
    simp only [List.length_cons]
    omega
  unfold resume
  rw [insertHeld, hanswer, hlength]

theorem insertAll_next {before : List T} (next : T) (rest : List T)
    (hitems : t.items this = before.reverse ++ next :: rest) :
    insertAll less this before.length (next :: rest) t = resume less this next rest before [] t := by
  unfold insertAll resume
  have htake : (t.items this).take before.length = before.reverse := by
    rw [hitems, ← List.length_reverse, List.take_left]
  rw [htake, List.reverse_reverse]
  rfl

theorem resume_placed {held x : T} {front passed : List T} (next : T) (rest : List T)
    (hanswer : (less t (held, x)).1 = .ok false) :
    resume less this held (next :: rest) (x :: front) passed t =
      resume less this next rest (passed.reverse ++ held :: x :: front) []
        ((t.setWorld (less t (held, x)).2).setItems this
          ((x :: front).reverse ++ held :: passed ++ next :: rest)) := by
  rw [← insertAll_next next rest (by simp)]
  unfold resume
  rw [insertHeld, hanswer]
  have hlength : (x :: front).length + passed.length + 1 =
      (passed.reverse ++ held :: x :: front).length := by
    simp only [List.length_append, List.length_reverse, List.length_cons]
    omega
  rw [hlength]

theorem resume_placedFirst {held : T} {passed : List T} (next : T) (rest : List T) :
    resume less this held (next :: rest) [] passed t =
      resume less this next rest (passed.reverse ++ [held]) []
        (t.setItems this (held :: passed ++ next :: rest)) := by
  rw [← insertAll_next next rest (by simp)]
  unfold resume
  rw [insertHeld]
  have hlength : ([] : List T).length + passed.length + 1 = (passed.reverse ++ [held]).length := by simp
  rw [hlength]

/-- A sort goes on from each of the insertions it comes to. -/
theorem Holding.sortEnd_eq {held : T} {rest front passed : List T}
    (h : Holding less this s held rest front passed t) :
    sortEnd less this s = resume less this held rest front passed t := by
  induction h with
  | start hitems =>
    unfold sortEnd
    rw [hitems]
    exact @insertAll_next _ _ _ _ _ [_] _ _ hitems
  | movedUp _ hanswer ih => rw [ih, resume_movedUp _ _ hanswer]
  | placed _ hanswer ih => rw [ih, resume_placed _ _ hanswer]
  | placedFirst _ ih => rw [ih, resume_placedFirst]

theorem resume_raised {held x : T} {front : List T} {e : Fault} (rest passed : List T)
    (hanswer : (less t (held, x)).1 = .error e) :
    resume less this held rest (x :: front) passed t =
      .raised e held passed (t.setWorld (less t (held, x)).2) := by
  unfold resume
  rw [insertHeld, hanswer]

/-- A sort that raises does so at one of the comparisons that it comes to. -/
theorem Holding.of_raised {held c : T} {rest front passed moved : List T} {e : Fault} {t' : Store T W}
    (h : Holding less this s held rest front passed t)
    (hend : resume less this held rest front passed t = .raised e c moved t') :
    ∃ x rest' front' t'', Holding less this s c rest' (x :: front') moved t'' ∧
      (less t'' (c, x)).1 = .error e ∧ t' = t''.setWorld (less t'' (c, x)).2 := by
  -- an outer induction on the items still to be inserted, an inner one on those still to be compared
  induction rest generalizing held front passed t with
  | nil =>
    induction front generalizing passed t with
    | nil => cases hend
    | cons x front ih =>
      match hanswer : (less t (held, x)).1 with
      | .ok true => exact ih (h.movedUp hanswer) (by rwa [resume_movedUp _ _ hanswer] at hend)
      | .ok false =>
        unfold resume at hend
        rw [insertHeld, hanswer] at hend
        cases hend
      | .error e' =>
        rw [resume_raised _ _ hanswer] at hend
        cases hend
        exact ⟨x, _, front, t, h, hanswer, rfl⟩
  | cons next rest ihrest =>
    induction front generalizing passed t with
    | nil => exact ihrest h.placedFirst (by rwa [resume_placedFirst] at hend)
    | cons x front ih =>
      match hanswer : (less t (held, x)).1 with
      | .ok true => exact ih (h.movedUp hanswer) (by rwa [resume_movedUp _ _ hanswer] at hend)
      | .ok false => exact ihrest (h.placed hanswer) (by rwa [resume_placed _ _ hanswer] at hend)
      | .error e' =>
        rw [resume_raised _ _ hanswer] at hend
        cases hend
        exact ⟨x, _, front, t, h, hanswer, rfl⟩

theorem sortEnd_raised {e : Fault} {held : T} {passed : List T} {t' : Store T W}
    (hend : sortEnd less this s = .raised e held passed t') :
    ∃ x rest front t, Holding less this s held rest (x :: front) passed t ∧
      (less t (held, x)).1 = .error e ∧ t' = t.setWorld (less t (held, x)).2 := by
  match hitems : s.items this with
  | [] =>
    unfold sortEnd at hend
    rw [hitems] at hend
    cases hend
  | [x] =>
    unfold sortEnd at hend
    rw [hitems] at hend
    cases hend
  | x :: first :: rest =>
    have hstart : Holding less this s first rest [x] [] s := .start hitems
    exact hstart.of_raised (hstart.sortEnd_eq.symm.trans hend)

/-- The sort of `s` raised at one of the comparisons that it came to, and has changed nothing since. -/
def RaisedAt (less : Callback T W (T × T) Bool) (this : ListId) (s : Store T W) (e : Fault)
    (s' : Store T W) : Prop :=
  ∃ held x rest front passed t, Holding less this s held rest (x :: front) passed t ∧
    (less t (held, x)).1 = .error e ∧ s' = t.setWorld (less t (held, x)).2

theorem spec_sort (s : Store T W) (this : ListId) (less : Callback T W (T × T) Bool) :
    Spec (sort this less) s
      (fun _ s' => Leaves s s' this (s'.items this) ∧ SortedFrom less (s.items this) (s'.items this))
      (fun e s' => Leaves s s' this (s'.items this) ∧ RaisedAt less this s e s') := by
  have hends := ends_sort s this less
  have hleaves := @insertAll_leaves _ _ s this less 1 (s.items this).tail
  match hend : sortEnd less this s with
  | .done s' =>
    rw [hend] at hends
    rw [← sortEnd, hend] at hleaves
    exact hends.spec ⟨hleaves, sortedFrom_of_done hend⟩
  | .raised e c passed s' =>
    rw [hend] at hends
    rw [← sortEnd, hend] at hleaves
    obtain ⟨x, rest, front, t, hholding, hraised⟩ := sortEnd_raised hend
    exact hends.spec_error ⟨hleaves, c, x, rest, front, passed, t, hholding, hraised⟩

theorem leaves_of_copy (hthis : this < s.next) {l items : List T} {s' : Store T W}
    (h : Leaves (s.allocate l) s' s.next items) : Leaves s s' this (s.items this) := by
  have hother : ∀ id < s.next, s'.items id = s.items id := by
    intro id hid
    rw [h.other_items id (Nat.lt_succ_of_lt hid) (Nat.ne_of_lt hid),
      Store.items_allocate_of_ne (Nat.ne_of_lt hid)]
  exact ⟨hother this hthis, fun id hid _ => hother id hid, (Nat.le_succ _).trans h.next_le⟩

theorem spec_sorted (hthis : this < s.next) (less : Callback T W (T × T) Bool) :
    Spec (sorted this less) s
      (fun id s' => Leaves s s' this (s.items this) ∧ s.next ≤ id ∧
        SortedFrom less (s.items this) (s'.items id))
      (fun e s' => Leaves s s' this (s.items this) ∧
        RaisedAt less s.next (s.allocate (s.items this)) e s') := by
  refine (ends_copy hthis).spec_bind (Spec.bind ?_)
  refine (spec_sort (s.allocate (s.items this)) s.next less).mono (fun _ s' h => ?_)
    fun _ s' h => ⟨leaves_of_copy hthis h.1, h.2⟩
  have hsorted := h.2
  rw [Store.items_allocate_next] at hsorted
  exact (ends_pure s.next _).spec ⟨leaves_of_copy hthis h.1, le_refl _, hsorted⟩

/-- `sort` ends, with a stable sort of the list, or at a comparison that raises; so does `sorted`,
    on a new list, and with a comparator that does not look at the lists the two come to the
    same. -/
theorem sort_stable (s : Store T W) (this : ListId) (less : Callback T W (T × T) Bool)
    (hthis : this < s.next) :
    Spec (sort this less) s
      (fun _ s' => Leaves s s' this (s'.items this) ∧ SortedFrom less (s.items this) (s'.items this))
      (fun e s' => Leaves s s' this (s'.items this) ∧ RaisedAt less this s e s') ∧
    Spec (sorted this less) s
      (fun id s' => Leaves s s' this (s.items this) ∧ s.next ≤ id ∧
        SortedFrom less (s.items this) (s'.items id))
      (fun e s' => Leaves s s' this (s.items this) ∧
        RaisedAt less s.next (s.allocate (s.items this)) e s') ∧
    (Blind less → ∃ r s₁ s₂, Ends (sort this less) s r s₁ ∧
      Ends (sorted this less) s (r.map fun _ => s.next) s₂ ∧ s₂.items s.next = s₁.items this) := by
  refine ⟨spec_sort s this less, spec_sorted hthis less, fun hblind => ?_⟩
  have hsort := ends_sort s this less
  have hcopy := ends_sort (s.allocate (s.items this)) s.next less
  have halike : Alike this s.next (sortEnd less this s)
      (sortEnd less s.next (s.allocate (s.items this))) := by
    unfold sortEnd
    rw [Store.items_allocate_next]
    have hcopied := (Store.items_allocate_next (s := s) (s.items this)).symm
    exact @insertAll_alike T W s this less hblind s.next (s.allocate (s.items this)) rfl hcopied 1 _
  refine ⟨_, _, _, hsort, ?_, halike.items.symm⟩
  rw [halike.result]
  cases hresult : (sortEnd less s.next (s.allocate (s.items this))).result with
  | ok _ =>
    rw [hresult] at hcopy
    exact (ends_copy hthis).bind (hcopy.bind (ends_pure _ _))
  | error e =>
    rw [hresult] at hcopy
    exact (ends_copy hthis).bind hcopy.bind_error

theorem sort_stable_oneList : ∃ r s₁ s₂,
    Ends (sort 0 fun _ p => (.ok (p.1 < p.2), ())) oneList r s₁ ∧
      Ends (sorted 0 fun _ p => (.ok (p.1 < p.2), ())) oneList (r.map fun _ => 1) s₂ ∧
      s₂.items 1 = s₁.items 0 :=
  (sort_stable oneList 0 (fun _ p => (.ok (p.1 < p.2), ())) Nat.zero_lt_one).2.2 fun _ _ _ _ => rfl

/-- Numbers in order while the first list is as it was, and in the other order once it is not. -/
def whileUnsorted : Callback Int Unit (Int × Int) Bool := fun s p =>
  (.ok (if s.items 0 = [2, 1, 3] then p.1 < p.2 else p.2 < p.1), ())

def mixedList : Store Int Unit := { items := fun _ => [2, 1, 3], next := 1, world := () }

/-- The comparator sees the list that `sort` changes and `sorted` leaves alone. -/
theorem sorted_differs : ∃ s₁ s₂, Ends (sort 0 whileUnsorted) mixedList (.ok ()) s₁ ∧
    Ends (sorted 0 whileUnsorted) mixedList (.ok 1) s₂ ∧ s₁.items 0 = [3, 1, 2] ∧ s₂.items 1 = [1, 2, 3] := by
  have hsort := ends_sort mixedList 0 whileUnsorted
  have hcopy := ends_sort (mixedList.allocate [2, 1, 3]) 1 whileUnsorted
  exact ⟨_, _, hsort, (ends_copy Nat.zero_lt_one).bind (hcopy.bind (ends_pure _ _)), rfl, rfl⟩

end zl.stdlib.list
