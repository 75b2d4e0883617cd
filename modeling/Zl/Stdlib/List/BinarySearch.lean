import Zl.Stdlib.List.Sort

open zl.program zl.program.Program zl.vm.native

namespace zl.stdlib.list

variable {T W : Type} {s t : Store T W} {this : ListId} {less : Callback T W (T × T) Bool}
  {equal : T → T → Except Fault Bool} {item : T}

/-- The middle of the places from `low` to `high`. -/
def middle (low high : Int) : Int := low + (high - low).tdiv 2

theorem middle_bounds {low high : Int} (h : low ≤ high) : low ≤ middle low high ∧ middle low high ≤ high := by
  unfold middle
  rw [Int.tdiv_eq_ediv_of_nonneg (by omega)]
  omega

/-- The half in which bisection looks for a place. -/
def half (place : Nat) (bounds : Int × Int) : Int × Int :=
  if middle bounds.1 bounds.2 < place then (middle bounds.1 bounds.2 + 1, bounds.2)
  else (bounds.1, middle bounds.1 bounds.2 - 1)

section
variable (place : Nat) (l : List T) (p : T → Except Fault Bool)

/-- The item in the middle of the places has this answer. -/
def Probes (answer : Except Fault Bool) (bounds : Int × Int) : Prop :=
  bounds.1 ≤ bounds.2 ∧ ∃ x ∈ l[(middle bounds.1 bounds.2).toNat]?, p x = answer

/-- Bisection towards a place goes on from places that are left to their half. -/
def Halves (bounds bounds' : Int × Int) : Prop :=
  Probes l p (.ok false) bounds ∧ half place bounds = bounds'

/-- Bisection towards a place comes to a middle at which an item has this answer. -/
def Meets (answer : Except Fault Bool) (bounds : Int × Int) : Prop :=
  ∃ bounds', Relation.ReflTransGen (Halves place l p) bounds bounds' ∧ Probes l p answer bounds'

end

section
variable {place : Nat} {l : List T} {p : T → Except Fault Bool} {answer answer' : Except Fault Bool}
  {bounds : Int × Int}

theorem Probes.unique (h : Probes l p answer bounds) (h' : Probes l p answer' bounds) :
    answer = answer' := by
  obtain ⟨-, x, hx, rfl⟩ := h
  obtain ⟨-, y, hy, rfl⟩ := h'
  rw [Option.mem_def.mp hx] at hy
  rw [Option.some.inj hy]

theorem not_meets_of_lt (h : bounds.2 < bounds.1) : ¬Meets place l p answer bounds := by
  rintro ⟨bounds', hpath, hprobes⟩
  rcases hpath.cases_head with rfl | ⟨next, hnext, -⟩
  · exact absurd hprobes.1 (by omega)
  · exact absurd hnext.1.1 (by omega)

theorem meets_half_iff (hanswer : answer ≠ .ok false) (hprobes : Probes l p (.ok false) bounds) :
    Meets place l p answer (half place bounds) ↔ Meets place l p answer bounds := by
  constructor
  · rintro ⟨bounds', hpath, h⟩
    exact ⟨bounds', hpath.head ⟨hprobes, rfl⟩, h⟩
  · rintro ⟨bounds', hpath, h⟩
    rcases hpath.cases_head with rfl | ⟨next, ⟨-, rfl⟩, hpath⟩
    · exact absurd (h.unique hprobes) hanswer
    · exact ⟨bounds', hpath, h⟩

/-- Bisection comes to no other answer than the one it meets. -/
theorem Meets.unique (h : Meets place l p answer bounds) (h' : Meets place l p answer' bounds)
    (hanswer : answer ≠ .ok false) (hanswer' : answer' ≠ .ok false) : answer = answer' := by
  obtain ⟨last, hpath, hlast⟩ := h
  induction hpath using Relation.ReflTransGen.head_induction_on with
  | refl =>
    obtain ⟨last', hpath', hlast'⟩ := h'
    rcases hpath'.cases_head with rfl | ⟨next, hnext, -⟩
    · exact hlast.unique hlast'
    · exact absurd (hlast.unique hnext.1) hanswer
  | head hstep _ ih =>
    obtain ⟨hprobes, rfl⟩ := hstep
    exact ih ((meets_half_iff hanswer' hprobes).mpr h')

end

/-- The place of the first item that is not less than this one. -/
def placeFor (lt : T → T → Bool) (item : T) (l : List T) : Nat := l.findIdx fun x => !lt x item

theorem lt_placeFor_iff {lt : T → T → Bool} [IsStrictWeakOrder T (fun a b => lt a b = true)] {l : List T}
    (hordered : Ordered lt l) {k : Nat} (hk : k < l.length) :
    k < placeFor lt item l ↔ lt l[k] item = true := by
  constructor
  · intro h
    simpa using List.not_of_lt_findIdx h
  · intro hless
    by_contra hge
    have hplace : placeFor lt item l < l.length := by omega
    have hnot : (!lt l[placeFor lt item l] item) = true := List.findIdx_getElem (w := hplace)
    rw [Bool.not_eq_true'] at hnot
    rcases Nat.eq_or_lt_of_le (Nat.le_of_not_lt hge) with heq | hlt
    · simp only [heq] at hnot
      rw [hless] at hnot
      cases hnot
    · have hlater := List.pairwise_iff_getElem.mp hordered _ _ hplace hk hlt
      rw [not_lt_trans hlater hnot] at hless
      cases hless

/-- The place of an item equal to this one, or -1 if there is none. -/
def Finds (equal : T → T → Except Fault Bool) (item : T) (l : List T) (r : Int) : Prop :=
  (∃ (k : Nat) (x : T), r = k ∧ l[k]? = some x ∧ equal x item = .ok true) ∨
    r = -1 ∧ ∀ x ∈ l, equal x item ≠ .ok true

/-- What the search returns: a place of an equal item if bisection meets one, and -1 if it meets neither
    one nor an exception. -/
def Searched (equal : T → T → Except Fault Bool) (item : T) (l : List T) (place : Nat) (r : Int) : Prop :=
  (∃ (k : Nat) (x : T), r = k ∧ l[k]? = some x ∧ equal x item = .ok true) ∧
      Meets place l (equal · item) (.ok true) (0, (l.length : Int) - 1) ∨
    r = -1 ∧ ∀ answer ≠ .ok false, ¬Meets place l (equal · item) answer (0, (l.length : Int) - 1)

theorem spec_binarySearch {lt : T → T → Bool} [IsStrictWeakOrder T (fun a b => lt a b = true)]
    (hanswers : Answers less lt) (hordered : Ordered lt (s.items this)) :
    Spec (binarySearch this equal item less) s
      (fun r s' => Leaves s s' this (s.items this) ∧
        Searched equal item (s.items this) (placeFor lt item (s.items this)) r)
      (fun e _ => Meets (placeFor lt item (s.items this)) (s.items this) (equal · item) (.error e)
        (0, ((s.items this).length : Int) - 1)) := by
  refine ends_length.spec_bind ?_
  refine spec_loop (fun bounds t => Leaves s t this (s.items this) ∧ 0 ≤ bounds.1 ∧
      bounds.2 < (s.items this).length ∧ ∀ answer ≠ .ok false,
        (Meets (placeFor lt item (s.items this)) (s.items this) (equal · item) answer bounds ↔
          Meets (placeFor lt item (s.items this)) (s.items this) (equal · item) answer
            (0, ((s.items this).length : Int) - 1)))
    (fun bounds _ => (bounds.2 - bounds.1 + 1).toNat) ?_
    ⟨.self, le_refl _, by simp, fun _ _ => Iff.rfl⟩
  rintro ⟨low, high⟩ t ⟨hleaves, hlow, hhigh, hmeets⟩
  dsimp only at hlow hhigh ⊢
  split
  next hle =>
    have hbounds := middle_bounds hle
    have hk : (middle low high).toNat < (s.items this).length := by omega
    have hmiddle : middle low high = ((middle low high).toNat : Nat) := by omega
    have hprobe : (s.items this)[(middle low high).toNat]? = some (s.items this)[(middle low high).toNat] :=
      List.getElem?_eq_getElem hk
    have hget : Ends (get this (low + (high - low).tdiv 2)) t
        (.ok (s.items this)[(middle low high).toNat]) t :=
      ends_get hmiddle (by rw [hleaves.this_items, hprobe])
    have hequal : Ends (answer (equal (s.items this)[(middle low high).toNat] item)) t
        (equal (s.items this)[(middle low high).toNat] item) t :=
      ends_answer _ _
    have hprobes : Probes (s.items this) (equal · item)
        (equal (s.items this)[(middle low high).toNat] item) (low, high) :=
      ⟨hle, _, hprobe, rfl⟩
    refine hget.spec_bind ?_
    match hanswer : equal (s.items this)[(middle low high).toNat] item with
    | .error e =>
      rw [hanswer] at hequal hprobes
      have hraised := (hmeets (.error e) (by simp)).mp ⟨_, .refl, hprobes⟩
      exact hequal.bind_error.spec_error hraised
    | .ok true =>
      rw [hanswer] at hequal hprobes
      have hfound := (hmeets (.ok true) (by simp)).mp ⟨_, .refl, hprobes⟩
      refine hequal.spec_bind ((ends_pure (Round.leave (middle low high)) t).spec
        ⟨hleaves, .inl ⟨?_, hfound⟩⟩)
      exact ⟨_, _, hmiddle, hprobe, hanswer⟩
    | .ok false =>
      rw [hanswer] at hequal hprobes
      have hhalf := fun answer (hne : answer ≠ .ok false) =>
        Iff.trans (meets_half_iff hne hprobes) (hmeets answer hne)
      have hcall := ends_call (s := t) less ((s.items this)[(middle low high).toNat], item)
      rw [hanswers] at hcall
      refine hequal.spec_bind (hcall.spec_bind ?_)
      have hplace := @lt_placeFor_iff _ item _ _ _ hordered _ hk
      split
      next hless =>
        have hlt : middle low high < (placeFor lt item (s.items this) : Int) := by
          have := hplace.mpr hless
          omega
        rw [half, if_pos hlt] at hhalf
        refine (ends_pure _ _).spec ⟨⟨hleaves.setWorld _, ?_, hhigh, hhalf⟩, ?_⟩
        · change 0 ≤ middle low high + 1
          omega
        · change (high - (middle low high + 1) + 1).toNat < _
          omega
      next hless =>
        have hge : ¬middle low high < (placeFor lt item (s.items this) : Int) := by
          intro hlt
          exact hless (hplace.mp (by omega))
        rw [half, if_neg hge] at hhalf
        refine (ends_pure _ _).spec ⟨⟨hleaves.setWorld _, hlow, ?_, hhalf⟩, ?_⟩
        · change middle low high - 1 < _
          omega
        · change (middle low high - 1 - low + 1).toNat < _
          omega
  next hlt =>
    have hpassed : high < low := by omega
    exact (ends_pure _ t).spec ⟨hleaves, .inr ⟨rfl, fun answer hne h =>
      not_meets_of_lt hpassed ((hmeets answer hne).mpr h)⟩⟩

/-- Where bisection towards the first item that is not less than this one comes to: an equal item, if
    there is one, and no exception, if there is none. -/
def MeetsEqual (equal : T → T → Except Fault Bool) (lt : T → T → Bool) (item : T) (l : List T) : Prop :=
  ((∃ x ∈ l, equal x item = .ok true) →
    Meets (placeFor lt item l) l (equal · item) (.ok true) (0, (l.length : Int) - 1)) ∧
  ((∀ x ∈ l, equal x item ≠ .ok true) →
    ∀ e, ¬Meets (placeFor lt item l) l (equal · item) (.error e) (0, (l.length : Int) - 1))

/-- A search ends at an equal item, at -1 or in what `==` raised, and it is exact if and only if
    bisection towards the first item that is not less comes to an equal one where there is any,
    and else to no item at which `==` raises. -/
theorem binarySearch_exact_iff {lt : T → T → Bool} (hlt : IsStrictWeakOrder T (fun a b => lt a b = true))
    (hanswers : Answers less lt) (hordered : Ordered lt (s.items this)) :
    Spec (binarySearch this equal item less) s
        (fun r _ => r = -1 ∨
          ∃ (k : Nat) (x : T), r = k ∧ (s.items this)[k]? = some x ∧ equal x item = .ok true)
        (fun e _ => ∃ x ∈ s.items this, equal x item = .error e) ∧
      (Spec (binarySearch this equal item less) s (fun r _ => Finds equal item (s.items this) r)
          (fun _ _ => False) ↔ MeetsEqual equal lt item (s.items this)) := by
  have hsearch := @spec_binarySearch _ _ s this less equal item lt _ hanswers hordered
  refine ⟨hsearch.mono (fun r _ h => ?_) fun e _ h => ?_, fun hexact => ?_, fun hmeets => ?_⟩
  · rcases h.2 with ⟨hfound, -⟩ | ⟨hnone, -⟩
    · exact .inr hfound
    · exact .inl hnone
  · obtain ⟨bounds, -, -, x, hx, hraised⟩ := h
    exact ⟨x, List.mem_of_getElem? hx, hraised⟩
  · obtain ⟨r, s', hends, hpost⟩ := hexact
    obtain ⟨r', s'', hends', hpost'⟩ := hsearch
    obtain ⟨rfl, rfl⟩ := hends.unique hends'
    cases r with
    | error e => exact hpost.elim
    | ok r =>
      rcases hpost'.2 with ⟨⟨k, x, -, hx, hequal⟩, hmeets⟩ | ⟨hnone, hnot⟩
      · exact ⟨fun _ => hmeets, fun habsent => absurd hequal (habsent x (List.mem_of_getElem? hx))⟩
      · refine ⟨fun ⟨x, hx, hequal⟩ => ?_, fun _ e => hnot _ nofun⟩
        rcases hpost with ⟨k, _, hk, -⟩ | ⟨-, habsent⟩
        · omega
        · exact absurd hequal (habsent x hx)
  · obtain ⟨r, s', hends, hpost⟩ := hsearch
    refine ⟨r, s', hends, ?_⟩
    cases r with
    | error e =>
      by_cases hpresent : ∃ x ∈ s.items this, equal x item = .ok true
      · have heq := (hmeets.1 hpresent).unique hpost (by simp) (by simp)
        cases heq
      · exact hmeets.2 (fun x hx hequal => hpresent ⟨x, hx, hequal⟩) e hpost
    | ok r =>
      rcases hpost.2 with ⟨hfound, -⟩ | ⟨hnone, hnot⟩
      · exact .inl hfound
      · exact .inr ⟨hnone, fun x hx hequal =>
        hnot (.ok true) (by simp) (hmeets.1 ⟨x, hx, hequal⟩)⟩

/-- Where the tied items are the equal ones, the search is exact. -/
theorem meetsEqual_of_tied {lt : T → T → Bool} [IsStrictWeakOrder T (fun a b => lt a b = true)] {l : List T}
    (hordered : Ordered lt l) (hequal : ∀ x ∈ l, equal x item = .ok (tied lt x item)) :
    MeetsEqual equal lt item l := by
  refine ⟨fun ⟨x, hx, hfound⟩ => ?_, fun _ e ⟨bounds, _, _, x, hx, hraised⟩ => ?_⟩
  · rw [hequal x hx, Except.ok.injEq] at hfound
    obtain ⟨k, hk, rfl⟩ := List.mem_iff_getElem.mp hx
    have hnot := fun {i} (hi : i < l.length) => (@lt_placeFor_iff _ item _ _ _ hordered _ hi).not
    simp only [tied, Bool.and_eq_true, Bool.not_eq_true'] at hfound
    have hle : placeFor lt item l ≤ k := Nat.le_of_not_lt ((hnot hk).mpr (by simp [hfound.1]))
    have hplace : placeFor lt item l < l.length := Nat.lt_of_le_of_lt hle hk
    -- the item at that place is tied with this one, as one behind it is
    have hlast : lt item l[placeFor lt item l] = false := by
      rcases Nat.eq_or_lt_of_le hle with heq | hlt
      · simpa only [heq] using hfound.2
      · exact not_lt_trans hfound.2 (List.pairwise_iff_getElem.mp hordered _ _ hplace hk hlt)
    have hmeets : ∀ (n : Nat) (bounds : Int × Int), (bounds.2 - bounds.1).toNat = n → 0 ≤ bounds.1 →
        bounds.2 < l.length → bounds.1 ≤ placeFor lt item l → placeFor lt item l ≤ bounds.2 →
        Meets (placeFor lt item l) l (equal · item) (.ok true) bounds := by
      intro n
      induction n using Nat.strong_induction_on with
      | _ n ih =>
        rintro ⟨low, high⟩ rfl hlow hhigh hbefore hbehind
        dsimp only at hlow hhigh hbefore hbehind ih
        have hbounds := middle_bounds (hbefore.trans hbehind)
        have hmid : (middle low high).toNat < l.length := by omega
        have hprobes : Probes l (equal · item) (.ok (tied lt l[(middle low high).toNat] item))
            (low, high) :=
          ⟨hbefore.trans hbehind, _, List.getElem?_eq_getElem hmid, hequal _ (List.getElem_mem hmid)⟩
        cases htied : tied lt l[(middle low high).toNat] item with
        | true => exact ⟨_, .refl, htied ▸ hprobes⟩
        | false =>
          rw [htied] at hprobes
          have htrue : (.ok true : Except Fault Bool) ≠ .ok false := by simp
          refine (meets_half_iff htrue hprobes).mp ?_
          have hside := @lt_placeFor_iff _ item _ _ _ hordered _ hmid
          unfold half
          split
          next hlt =>
            dsimp only at hlt
            exact ih _ (by dsimp only; omega) _ rfl (by dsimp only; omega) hhigh
              (by dsimp only; omega) hbehind
          next hge =>
            dsimp only at hge
            have hne : (middle low high).toNat ≠ placeFor lt item l := by
              intro heq
              have hless := hside.not.mp (by omega)
              simp only [heq] at htied hless
              simp [tied, hlast, hless] at htied
            exact ih _ (by dsimp only; omega) _ rfl hlow (by dsimp only; omega) hbefore
              (by dsimp only; omega)
    exact hmeets _ _ rfl (le_refl _) (by dsimp only; omega) (by dsimp only; omega) (by dsimp only; omega)
  · have hmem := List.mem_of_getElem? hx
    have hanswer := (hequal x hmem).symm.trans hraised
    cases hanswer

/-- Words by their lengths. -/
def shorter (a b : String) : Bool := a.length < b.length

instance : IsStrictWeakOrder String (fun a b => shorter a b = true) where
  irrefl a h := by simp [shorter] at h
  trans a b c hab hbc := by
    simp only [shorter, decide_eq_true_eq] at hab hbc ⊢
    exact hab.trans hbc
  incomp_trans a b c hab hbc := by
    simp only [shorter, decide_eq_true_eq] at hab hbc ⊢
    omega

def words (items : List String) : Store String Unit := { items := fun _ => items, next := 1, world := () }

def sameWord (a b : String) : Except Fault Bool := .ok (a == b)

def shorterWord : Callback String Unit (String × String) Bool := fun _ p => (.ok (shorter p.1 p.2), ())

/-- The first of three words of one length, and the one word behind them. -/
theorem binarySearch_exact_word :
    Spec (binarySearch 0 sameWord "a" shorterWord) (words ["a", "b", "c", "dd"])
        (fun r _ => Finds sameWord "a" ["a", "b", "c", "dd"] r) (fun _ _ => False) ∧
      Spec (binarySearch 0 sameWord "dd" shorterWord) (words ["a", "b", "c", "dd"])
        (fun r _ => Finds sameWord "dd" ["a", "b", "c", "dd"] r) (fun _ _ => False) := by
  have hordered : Ordered shorter ["a", "b", "c", "dd"] := by unfold Ordered; decide
  have hprobes {item x : String} {bounds : Int × Int} {b : Bool} (hle : bounds.1 ≤ bounds.2)
      (hx : ["a", "b", "c", "dd"][(middle bounds.1 bounds.2).toNat]? = some x) (hb : (x == item) = b) :
      Probes ["a", "b", "c", "dd"] (sameWord · item) (.ok b) bounds :=
    ⟨hle, x, hx, congrArg Except.ok hb⟩
  constructor
  · refine (binarySearch_exact_iff inferInstance (fun _ _ => rfl) hordered).2.mpr
      ⟨fun _ => ⟨(0, 0), .single ⟨hprobes (by decide) rfl (by decide), by decide⟩,
        hprobes (by decide) rfl (by decide)⟩, fun habsent => ?_⟩
    exact absurd rfl (habsent "a" (by decide))
  · refine (binarySearch_exact_iff inferInstance (fun _ _ => rfl) hordered).2.mpr
      ⟨fun _ => ⟨(3, 3), .tail (.single ⟨hprobes (by decide) rfl (by decide), rfl⟩)
        ⟨hprobes (by decide) rfl (by decide), by decide⟩, hprobes (by decide) rfl (by decide)⟩,
        fun habsent => ?_⟩
    exact absurd rfl (habsent "dd" (by decide))

/-- Of two words of one length only the first is found. -/
theorem binarySearch_misses_word :
    ¬Spec (binarySearch 0 sameWord "b" shorterWord) (words ["a", "b"])
      (fun r _ => Finds sameWord "b" ["a", "b"] r) (fun _ _ => False) := by
  rintro ⟨r, s', ⟨n, hn⟩, hpost⟩
  have hresult : binarySearch 0 sameWord "b" shorterWord (n + 2) (words ["a", "b"]) =
      some (.ok (-1), words ["a", "b"]) := rfl
  obtain ⟨rfl, -⟩ := Prod.mk.inj (Option.some.inj (hresult.symm.trans (hn (n + 2) (Nat.le_add_right n 2))))
  rcases hpost with ⟨k, _, hk, -⟩ | ⟨-, habsent⟩
  · omega
  · exact habsent "b" (by decide) rfl

end zl.stdlib.list
