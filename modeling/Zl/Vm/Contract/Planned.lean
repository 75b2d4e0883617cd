import Zl.Vm.Contract.Assignable

namespace zl.vm.contract

theorem mergeArguments_spec {wanteds args result : List TypeName}
    (h : mergeArguments wanteds args = some result) :
    result.length = wanteds.length ∧ (∀ t ∈ result, t ∈ wanteds ∨ t ∈ args) ∧
      (∀ (i : Nat) t, wanteds[i]? = some t → unconstrained t = true ∨ result[i]? = some t) ∧
      ∀ (i : Nat) arg, args[i]? = some arg → unconstrained arg = true ∨ result[i]? = some arg := by
  induction args generalizing wanteds result with
  | nil =>
    obtain rfl : wanteds = result := by cases wanteds <;> exact Option.some.inj h
    exact ⟨rfl, fun t ht => .inl ht, fun i t ht => .inr ht, nofun⟩
  | cons arg args ih =>
    cases wanteds with
    | nil => nomatch h
    | cons wanted wanteds =>
      rw [mergeArguments] at h
      split at h
      · next hfree =>
        obtain ⟨merged, hmerged, rfl⟩ := Option.map_eq_some_iff.mp h
        obtain ⟨hlength, hmem, hwanted, harg⟩ := ih hmerged
        refine ⟨congrArg (· + 1) hlength, fun t ht => ?_, fun i t ht => ?_, fun i a ha => ?_⟩
        · rcases List.mem_cons.mp ht with rfl | ht
          · exact .inl List.mem_cons_self
          · exact (hmem t ht).imp (List.mem_cons_of_mem _) (List.mem_cons_of_mem _)
        · cases i with
          | zero => exact .inr ht
          | succ i => exact hwanted i t ht
        · cases i with
          | zero => exact .inl (Option.some.inj ha ▸ hfree)
          | succ i => exact harg i a ha
      · next hconstrained =>
        split at h
        · nomatch h
        · next hagree =>
          obtain ⟨merged, hmerged, rfl⟩ := Option.map_eq_some_iff.mp h
          obtain ⟨hlength, hmem, hwanted, harg⟩ := ih hmerged
          have hagree : unconstrained wanted = true ∨ wanted = arg := by
            rw [← typeNamesEqual_iff]
            simpa only [Bool.and_eq_true, Bool.not_eq_true', not_and_or, Bool.not_eq_false] using hagree
          refine ⟨congrArg (· + 1) hlength, fun t ht => ?_, fun i t ht => ?_, fun i a ha => ?_⟩
          · rcases List.mem_cons.mp ht with rfl | ht
            · exact .inr List.mem_cons_self
            · exact (hmem t ht).imp (List.mem_cons_of_mem _) (List.mem_cons_of_mem _)
          · cases i with
            | zero =>
              obtain rfl : wanted = t := Option.some.inj ht
              exact hagree.imp_right fun heq => congrArg some heq.symm
            | succ i => exact hwanted i t ht
          · cases i with
            | zero => exact .inr ha
            | succ i => exact harg i a ha

theorem mergeSize_spec {wanted fixedSize merged : Option Nat} {size : Nat}
    (h : mergeSize wanted size fixedSize = some merged) :
    (∀ n, wanted = some n → merged = some n) ∧ (∀ n, fixedSize = some n → merged = some n ∧ size = n) ∧
      (merged = wanted ∨ merged = fixedSize) := by
  cases fixedSize with
  | none =>
    obtain rfl := Option.some.inj h
    exact ⟨fun n hn => hn, fun n hn => (by cases hn), .inl rfl⟩
  | some n =>
    rw [mergeSize] at h
    split at h
    · cases h
    · next hagree =>
      split at h
      · cases h
      · next hsize =>
        obtain rfl := Option.some.inj h
        have hn : size = n := not_not.mp hsize
        refine ⟨?_, fun k hk => ⟨hk, ?_⟩, .inr rfl⟩
        · rintro k rfl
          have hk : k = n := by simpa using hagree
          rw [hk]
        · rw [hn]
          exact Option.some.inj hk

section
variable {R O : Type} {contents : Contents R O} {prior : Option NativeContainerType}
  {wanted : NativeContainerType}
  {args : List TypeName} {fixedSize : Option Nat}

/-- What every contract of a container with these contents is like. -/
structure Shaped (contents : Contents R O) (c : NativeContainerType) : Prop where
  arity : c.arguments.length = arityOf (isMap contents)
  wellFormed : ∀ t ∈ c.arguments, WellFormed t
  size : ∀ size, c.fixedSize = some size → isMap contents = false ∧ logicalSize contents = size

theorem wellFormed_unknownType : WellFormed unknownType :=
  .named ⟨by decide, List.all_eq_true.mp rfl, by decide⟩ (fun n hn => by cases hn)
    (List.forall_mem_nil _)

theorem arityOf_pos (map : Bool) : 0 < arityOf map := by
  cases map <;> decide

/-- The merged contract asks for all that the contract in force and the type ask for. -/
theorem wantedContract_spec (hprior : ∀ c, prior = some c → Shaped contents c)
    (hargs : ∀ t ∈ args, WellFormed t) (hsize : ∀ size, fixedSize = some size → isMap contents = false)
    (h : wantedContract prior contents args fixedSize = some wanted) :
    Shaped contents wanted ∧ Narrowed prior (some wanted) ∧ Compatible (some wanted) args fixedSize := by
  obtain ⟨arguments, harguments, h⟩ := Option.bind_eq_some_iff.mp h
  obtain ⟨merged, hmerged, rfl⟩ := Option.map_eq_some_iff.mp h
  obtain ⟨hlength, hmem, hwanted, harg⟩ := mergeArguments_spec harguments
  obtain ⟨hkept, hasked, hfrom⟩ := mergeSize_spec hmerged
  have hcompatible : Compatible (some ⟨arguments, merged⟩) args fixedSize := by
    refine ⟨fun i arg hi => ?_, fun size hs => ⟨_, rfl, (hasked size hs).1⟩⟩
    rcases harg i arg hi with hfree | hi'
    · exact .inl (.of_unconstrained hfree)
    · exact .inr ⟨_, arg, rfl, hi', .refl arg⟩
  cases prior with
  | none =>
    have hdefault : ∀ t ∈ List.replicate (arityOf (isMap contents)) unknownType, WellFormed t := by
      intro t ht
      rw [List.eq_of_mem_replicate ht]
      exact wellFormed_unknownType
    refine ⟨⟨?_, fun t ht => (hmem t ht).elim (hdefault t) (hargs t), fun size hs => ?_⟩, nofun,
      hcompatible⟩
    · rw [hlength]
      exact List.length_replicate
    · rcases hfrom with rfl | rfl
      · nomatch hs
      · exact ⟨hsize size hs, (hasked size hs).2⟩
  | some c =>
    have hshaped := hprior c rfl
    have hne : c.arguments.isEmpty = false := by
      rw [List.isEmpty_eq_false_iff, ← List.length_pos_iff, hshaped.arity]
      exact arityOf_pos _
    change mergeArguments (if c.arguments.isEmpty then _ else c.arguments) args = _ at harguments
    rw [hne] at harguments
    obtain ⟨hlength, hmem, hwanted, -⟩ := mergeArguments_spec harguments
    refine ⟨⟨hlength.trans hshaped.arity, fun t ht => (hmem t ht).elim (hshaped.wellFormed t) (hargs t),
      fun size hs => ?_⟩, ?_, hcompatible⟩
    · rcases hfrom with rfl | rfl
      · exact hshaped.size size hs
      · exact ⟨hsize size hs, (hasked size hs).2⟩
    · rintro _ ⟨⟩
      exact ⟨_, rfl, hwanted, hkept⟩

theorem Compatible.of_settled (h : Compatible (some wanted) args fixedSize)
    (hsettled : settled wanted prior = true) :
    Compatible prior args fixedSize := by
  cases prior with
  | some c =>
    have heq : c = wanted := by
      rw [settled, sameContract, Bool.and_eq_true, decide_eq_true_iff, typeNamesEqualAll_iff] at hsettled
      cases c
      cases wanted
      exact NativeContainerType.mk.injEq .. ▸ ⟨hsettled.2, hsettled.1⟩
    rwa [heq]
  | none =>
    rw [settled, Bool.and_eq_true, Option.isNone_iff_eq_none, List.all_eq_true] at hsettled
    refine ⟨fun i arg hi => ?_, fun size hs => ?_⟩
    · rcases h.arguments i arg hi with hfree | ⟨c, argument, hc, hargument, hsame⟩
      · exact .inl hfree
      · obtain rfl := Option.some.inj hc
        exact .inl (.of_sameType hsame (hsettled.2 argument (List.mem_of_getElem? hargument)))
    · obtain ⟨c, hc, hcsize⟩ := h.size size hs
      obtain rfl := Option.some.inj hc
      rw [hsettled.1] at hcsize
      cases hcsize

end

section
variable {R O : Type} [DecidableEq R]

theorem proposed_cons_self (heap : Heap R O) (plan : Plan R) (r : R) (c : NativeContainerType) :
    proposed heap ((r, c) :: plan) r = some c := by
  simp [proposed]

theorem proposed_cons_of_ne (heap : Heap R O) (plan : Plan R) {r r' : R} (hne : r' ≠ r)
    (c : NativeContainerType) :
    proposed heap ((r, c) :: plan) r' = proposed heap plan r' := by
  simp [proposed, hne.symm]

end

section
variable {R O : Type} (chunk : Chunk O) (heap : Heap R O)

def mapRef (r : R) : Bool := isMap (heap r).contents

/-- What a container holds is assignable to the arguments of a contract. -/
def Holds (view : R → Option NativeContainerType) (r : R) (c : NativeContainerType) : Prop :=
  ∀ p ∈ expectations c.arguments (heap r).contents, Assignable chunk (mapRef heap) view p.1 p.2

/-- Every contract in force fits its container, whose elements have been found assignable
    unless they are still being checked. -/
structure Planned (opened : R → NativeContainerType → Prop)
    (view : R → Option NativeContainerType) : Prop where
  shaped : ∀ r c, view r = some c → Shaped (heap r).contents c
  holds : ∀ r c, view r = some c → Holds chunk heap view r c ∨ opened r c

variable {chunk heap}

theorem Holds.narrowed {view view' : R → Option NativeContainerType} {r : R} {c : NativeContainerType}
    (h : Holds chunk heap view r c) (hnarrowed : ∀ r, Narrowed (view r) (view' r)) :
    Holds chunk heap view' r c :=
  fun p hp => (h p hp).narrowed hnarrowed

theorem getD_of_wellFormed {arguments : List TypeName} (h : ∀ t ∈ arguments, WellFormed t) (i : Nat) :
    WellFormed (arguments.getD i unknownType) := by
  rw [List.getD_eq_getElem?_getD]
  cases hi : arguments[i]? with
  | none => exact wellFormed_unknownType
  | some t => exact h t (List.mem_of_getElem? hi)

theorem wellFormed_of_mem_expectations {contents : Contents R O} {arguments : List TypeName}
    (h : ∀ t ∈ arguments, WellFormed t) : ∀ p ∈ expectations arguments contents, WellFormed p.2 := by
  intro p hp
  cases contents with
  | list items =>
    obtain ⟨item, -, rfl⟩ := List.mem_map.mp hp
    exact getD_of_wellFormed h 0
  | map entries =>
    obtain ⟨entry, -, hp⟩ := List.mem_flatMap.mp hp
    rcases List.mem_cons.mp hp with rfl | hp
    · exact getD_of_wellFormed h 0
    · obtain rfl := List.mem_singleton.mp hp
      exact getD_of_wellFormed h 1

end

section
variable {R O : Type} [DecidableEq R] (chunk : Chunk O) (heap : Heap R O)

/-- What a check does to the plan and what it finds out about some values. -/
structure Outcome (opened : R → NativeContainerType → Prop) (plan plan' : Plan R)
    (found : List (Value R O × TypeName)) : Prop where
  planned : Planned chunk heap opened (proposed heap plan')
  narrowed : ∀ r, Narrowed (proposed heap plan r) (proposed heap plan' r)
  assignable : ∀ p ∈ found, Assignable chunk (mapRef heap) (proposed heap plan') p.1 p.2

/-- Matching a value finds out that it is assignable. -/
def FindsAssignable (matchesItem : Plan R → Value R O → TypeName → Verdict R) : Prop :=
  ∀ opened plan plan' value type, WellFormed type → Planned chunk heap opened (proposed heap plan) →
    matchesItem plan value type = .matched plan' → Outcome chunk heap opened plan plan' [(value, type)]

variable {chunk heap} {opened : R → NativeContainerType → Prop} {plan plan' : Plan R}

theorem Outcome.refl (hplanned : Planned chunk heap opened (proposed heap plan)) :
    Outcome chunk heap opened plan plan [] :=
  ⟨hplanned, fun _ => .refl _, nofun⟩

theorem Outcome.trans {plan'' : Plan R} {found found' : List (Value R O × TypeName)}
    (h : Outcome chunk heap opened plan plan' found) (h' : Outcome chunk heap opened plan' plan'' found') :
    Outcome chunk heap opened plan plan'' (found ++ found') := by
  refine ⟨h'.planned, fun r => (h.narrowed r).trans (h'.narrowed r), fun p hp => ?_⟩
  rcases List.mem_append.mp hp with hp | hp
  · exact (h.assignable p hp).narrowed h'.narrowed
  · exact h'.assignable p hp

theorem allItems_outcome {matchesItem : Plan R → Value R O → TypeName → Verdict R}
    (hmatches : FindsAssignable chunk heap matchesItem) {items : List (Value R O × TypeName)}
    (hitems : ∀ p ∈ items, WellFormed p.2) (hplanned : Planned chunk heap opened (proposed heap plan))
    (h : allItems matchesItem plan items = .matched plan') :
    Outcome chunk heap opened plan plan' items := by
  induction items generalizing plan with
  | nil =>
    obtain rfl := Verdict.matched.inj h
    exact .refl hplanned
  | cons item items ih =>
    obtain ⟨hitem, hitems⟩ := List.forall_mem_cons.mp hitems
    rw [allItems] at h
    split at h
    · next middle hmiddle =>
      have hfirst := hmatches opened plan middle item.1 item.2 hitem hplanned hmiddle
      exact hfirst.trans (ih hitems hfirst.planned h)
    · next hnot => exact absurd h (hnot plan')

/-- A proposed contract is open until the elements are checked against it. -/
theorem Planned.propose (hplanned : Planned chunk heap opened (proposed heap plan)) {r : R}
    {wanted : NativeContainerType} (hshaped : Shaped (heap r).contents wanted)
    (hnarrowed : ∀ r', Narrowed (proposed heap plan r') (proposed heap ((r, wanted) :: plan) r')) :
    Planned chunk heap (fun r' c => opened r' c ∨ r' = r ∧ c = wanted)
      (proposed heap ((r, wanted) :: plan)) := by
  constructor
  · intro r' c hc
    by_cases heq : r' = r
    · subst heq
      rw [proposed_cons_self] at hc
      exact Option.some.inj hc ▸ hshaped
    · rw [proposed_cons_of_ne _ _ heq] at hc
      exact hplanned.shaped r' c hc
  · intro r' c hc
    by_cases heq : r' = r
    · subst heq
      rw [proposed_cons_self] at hc
      exact .inr (.inr ⟨rfl, (Option.some.inj hc).symm⟩)
    · rw [proposed_cons_of_ne _ _ heq] at hc
      exact (hplanned.holds r' c hc).imp (fun h => h.narrowed hnarrowed) .inl

/-- Proposing a contract and checking every element against it settles the container. -/
theorem container_outcome {matchesItem : Plan R → Value R O → TypeName → Verdict R}
    (hmatches : FindsAssignable chunk heap matchesItem) {name : String} {args : List TypeName}
    {fixedSize : Option Nat} {value : Value R O} (hname : isContainerName name = true)
    (hwf : WellFormed (.named name args fixedSize))
    (hplanned : Planned chunk heap opened (proposed heap plan))
    (h : container heap matchesItem plan name args fixedSize value = .matched plan') :
    Outcome chunk heap opened plan plan' [(value, .named name args fixedSize)] := by
  obtain ⟨hsize, hargs⟩ : (∀ size, fixedSize = some size → name = "array" ∧ size < 2 ^ 64) ∧
      ∀ t ∈ args, WellFormed t := by
    cases hwf with
    | named _ hsize hargs => exact ⟨hsize, hargs⟩
  cases value with
  | container r =>
    rw [container] at h
    split at h
    · nomatch h
    next hkind =>
    rw [bne_iff_ne, ne_eq, not_not] at hkind
    split at h
    · nomatch h
    next harity =>
    have harity : args = [] ∨ args.length = arityOf (mapRef heap r) := by
      rw [Bool.and_eq_true, not_and_or, Bool.not_eq_true, Bool.not_eq_false', List.isEmpty_iff,
        decide_eq_true_iff, not_not] at harity
      exact harity
    have hlist : ∀ size, fixedSize = some size → isMap (heap r).contents = false := by
      intro size hs
      rw [hkind, (hsize size hs).1]
      rfl
    split at h
    · nomatch h
    next wanted hwanted =>
    obtain ⟨hshaped, hprior, hcompatible⟩ :=
      wantedContract_spec (fun c hc => hplanned.shaped r c hc) hargs hlist hwanted
    split at h
    · next hsettled =>
      obtain rfl := Verdict.matched.inj h
      refine ⟨hplanned, fun _ => .refl _, List.forall_mem_singleton.mpr ?_⟩
      exact .container hname hkind harity (hcompatible.of_settled hsettled)
    · have hnarrowed : ∀ r', Narrowed (proposed heap plan r')
          (proposed heap ((r, wanted) :: plan) r') := by
        intro r'
        by_cases heq : r' = r
        · subst heq
          rwa [proposed_cons_self]
        · rw [proposed_cons_of_ne _ _ heq]
          exact .refl _
      have hitems := allItems_outcome hmatches (wellFormed_of_mem_expectations hshaped.wellFormed)
        (hplanned.propose hshaped hnarrowed) h
      refine ⟨⟨hitems.planned.shaped, fun r' c hc => ?_⟩, fun r' =>
        (hnarrowed r').trans (hitems.narrowed r'), List.forall_mem_singleton.mpr ?_⟩
      · rcases hitems.planned.holds r' c hc with hholds | hopened | ⟨rfl, rfl⟩
        · exact .inl hholds
        · exact .inr hopened
        · exact .inl hitems.assignable
      · have hcommitted := hitems.narrowed r
        rw [proposed_cons_self] at hcommitted
        exact .container hname hkind harity (hcompatible.narrowed hcommitted)
  | _ => nomatch h

end

end zl.vm.contract
