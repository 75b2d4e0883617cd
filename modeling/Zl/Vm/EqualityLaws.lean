import Mathlib
import Zl.Vm.ValueEquivalence

open zl.graph.coinduction zl.vm.gc zl.collections

namespace zl.vm.value

section
variable {memory : Memory} {a b c : gc.Value} {x y z : Option Address} {S T : Address × Address → Prop}

theorem sameClass_symm {a b : ObjectBox} (h : sameClass a b = true) : sameClass b a = true := by
  obtain ⟨ha, hb, heq⟩ := sameClass_iff.mp h
  exact sameClass_iff.mpr ⟨hb, ha, heq.symm⟩

theorem sameClass_trans {a b c : ObjectBox} (hab : sameClass a b = true)
    (hbc : sameClass b c = true) : sameClass a c = true := by
  obtain ⟨ha, hb, heq⟩ := sameClass_iff.mp hab
  obtain ⟨-, hc, heq'⟩ := sameClass_iff.mp hbc
  exact sameClass_iff.mpr ⟨ha, hc, heq.trans heq'⟩

theorem ValuesSame.mono (hST : ∀ pair, S pair → T pair) (h : ValuesSame memory S a b) :
    ValuesSame memory T a b := by
  rcases h with ⟨x, y, rfl, rfl, rfl | ⟨p, q, rfl, rfl, hclass, hS⟩⟩ | h
  · exact .inl ⟨x, x, rfl, rfl, .inl rfl⟩
  · exact .inl ⟨_, _, rfl, rfl, .inr ⟨p, q, rfl, rfl, hclass, hST _ hS⟩⟩
  · exact .inr h

/-- The pairs of a relation, the other way round. -/
def converse (S : Address × Address → Prop) : Address × Address → Prop := fun pair => S pair.swap

theorem ValuesSame.symm (h : ValuesSame memory S a b) : ValuesSame memory (converse S) b a := by
  rcases h with ⟨x, y, rfl, rfl, rfl | ⟨p, q, rfl, rfl, hclass, hS⟩⟩ | ⟨hnot, heq⟩
  · exact .inl ⟨x, x, rfl, rfl, .inl rfl⟩
  · exact .inl ⟨_, _, rfl, rfl, .inr ⟨q, p, rfl, rfl, sameClass_symm hclass, hS⟩⟩
  · exact .inr ⟨fun ⟨x, y, hb, ha⟩ => hnot ⟨y, x, ha, hb⟩, plainValuesEqual_symm heq⟩

/-- Where every name of one record is a name of another with as many fields, they have the same names. -/
theorem exists_field_of_count {p q : ObjectBox} (hcount : fieldCount p = fieldCount q)
    (hnames : ∀ field ∈ namedFields p, ∃ v, q.objectFieldLookup field.1 = some v)
    {field : String × gc.Value} (hfield : field ∈ namedFields q) : ∃ v, (field.1, v) ∈ namedFields p := by
  have hsubset : (namedFields p).map Prod.fst ⊆ (namedFields q).map Prod.fst := by
    intro name hname
    obtain ⟨field, hfield, rfl⟩ := List.mem_map.mp hname
    obtain ⟨v, hv⟩ := hnames field hfield
    exact List.mem_map.mpr ⟨(field.1, v), objectFieldLookup_eq_some_iff.mp hv, rfl⟩
  have hperm : ((namedFields p).map Prod.fst).Perm ((namedFields q).map Prod.fst) := by
    refine ((nodup_fieldNames p).subperm hsubset).perm_of_length_le ?_
    rw [List.length_map, List.length_map, length_namedFields, length_namedFields, hcount]
  obtain ⟨field', hfield', heq⟩ := List.mem_map.mp (hperm.mem_iff.mpr (List.mem_map_of_mem hfield))
  exact ⟨field'.2, heq ▸ hfield'⟩

theorem Bisimulation.symm (h : Bisimulation memory S) : Bisimulation memory (converse S) where
  count p q hS := (h.count q p hS).symm
  fields p q hS field hfield := by
    have hnames : ∀ field ∈ namedFields (objectAt memory.heap q), ∃ v,
        (objectAt memory.heap p).objectFieldLookup field.1 = some v := by
      intro field hfield
      obtain ⟨v, hv, -⟩ := h.fields q p hS field hfield
      exact ⟨v, hv⟩
    obtain ⟨v, hv⟩ := exists_field_of_count (h.count q p hS) hnames hfield
    obtain ⟨v', hv', hsame⟩ := h.fields q p hS _ hv
    have heq : v' = field.2 :=
      Option.some.inj (hv'.symm.trans (objectFieldLookup_eq_some_iff.mpr hfield))
    exact ⟨v, objectFieldLookup_eq_some_iff.mpr hv, heq ▸ hsame.symm⟩

theorem Same.symm (h : Same memory a b) : Same memory b a := by
  obtain ⟨S, hS, hsame⟩ := same_iff.mp h
  exact same_iff.mpr ⟨converse S, hS.symm, hsame.symm⟩

/-- Two relations, one after the other. Either may also stay where it is, as the comparison of one
    record with itself is no pair. -/
def compose (S T : Address × Address → Prop) : Address × Address → Prop :=
  fun pair => S pair ∨ T pair ∨ ∃ q, S (pair.1, q) ∧ T (q, pair.2)

theorem ValuesSame.trans (hab : ValuesSame memory S a b) (hbc : ValuesSame memory T b c) :
    ValuesSame memory (compose S T) a c := by
  rcases hab with ⟨x, y, rfl, rfl, hxy⟩ | ⟨hnot, heq⟩
  · rcases hbc with ⟨y', z, hy, rfl, hyz⟩ | ⟨hnot, heq⟩
    · cases hy
      rcases hxy with rfl | ⟨p, q, rfl, rfl, hclass, hS⟩
      · exact ValuesSame.mono (fun _ h => .inr (.inl h)) (.inl ⟨x, z, rfl, rfl, hyz⟩)
      · rcases hyz with rfl | ⟨q', r, hq, rfl, hclass', hT⟩
        · exact .inl ⟨_, _, rfl, rfl, .inr ⟨p, q, rfl, rfl, hclass, .inl hS⟩⟩
        · cases hq
          exact .inl ⟨_, _, rfl, rfl, .inr ⟨p, r, rfl, rfl, sameClass_trans hclass hclass',
            .inr (.inr ⟨q, hS, hT⟩)⟩⟩
    · -- an object equals only objects
      have hkind := plainValuesEqual_eq_true_iff.mp heq
      rcases hkind with ⟨hb, -⟩ | ⟨r, r', hb, -⟩ | ⟨-, -, rfl⟩
      · nomatch hb
      · nomatch hb
      · exact absurd ⟨y, y, rfl, rfl⟩ hnot
  · have hb : ∀ y, b ≠ .box .object y := by
      rintro y rfl
      rcases plainValuesEqual_eq_true_iff.mp heq with ⟨-, hb, -⟩ | ⟨r, r', -, hb, -⟩ | ⟨-, -, rfl⟩
      · nomatch hb
      · nomatch hb
      · exact hnot ⟨y, y, rfl, rfl⟩
    have hbc := hbc.resolve_left fun ⟨y, z, h, _⟩ => hb y h
    have heq' := plainValuesEqual_trans heq hbc.2
    refine .inr ⟨?_, heq'⟩
    rintro ⟨x, z, rfl, rfl⟩
    rcases plainValuesEqual_eq_true_iff.mp heq with ⟨ha, -⟩ | ⟨r, r', ha, -⟩ | ⟨-, -, rfl⟩
    · nomatch ha
    · nomatch ha
    · exact hb x rfl

theorem Bisimulation.trans (hS : Bisimulation memory S)
    (hT : Bisimulation memory T) : Bisimulation memory (compose S T) where
  count p r h := by
    rcases h with h | h | ⟨q, hpq, hqr⟩
    · exact hS.count p r h
    · exact hT.count p r h
    · exact (hS.count p q hpq).trans (hT.count q r hqr)
  fields p r h field hfield := by
    rcases h with h | h | ⟨q, hpq, hqr⟩
    · obtain ⟨v, hv, hsame⟩ := hS.fields p r h field hfield
      exact ⟨v, hv, hsame.mono fun _ h => .inl h⟩
    · obtain ⟨v, hv, hsame⟩ := hT.fields p r h field hfield
      exact ⟨v, hv, hsame.mono fun _ h => .inr (.inl h)⟩
    · obtain ⟨v, hv, hsame⟩ := hS.fields p q hpq field hfield
      obtain ⟨v', hv', hsame'⟩ := hT.fields q r hqr _ (objectFieldLookup_eq_some_iff.mp hv)
      exact ⟨v', hv', hsame.trans hsame'⟩

theorem Same.trans (hab : Same memory a b) (hbc : Same memory b c) : Same memory a c := by
  obtain ⟨S, hS, hab⟩ := same_iff.mp hab
  obtain ⟨T, hT, hbc⟩ := same_iff.mp hbc
  exact same_iff.mpr ⟨compose S T, hS.trans hT, hab.trans hbc⟩

end

section
variable {memory : Memory} {a b c : gc.Value} {answer : Except VmError Bool}

theorem valuesEqual_eq (a b : gc.Value) : valuesEqual memory a b =
    ((valueGoal memory a b).check (visit (recordGoals memory) nestingError maximumRoom) []).map
    Prod.fst := by
  unfold valuesEqual valueGoal
  split
  next p q =>
    split
    · rw [recordValuesEqual_eq]
    next hrecords =>
      have hclass : sameClass (objectAt memory.heap p) (objectAt memory.heap q) = false := by
        rw [sameClass, Bool.eq_false_iff.mpr hrecords, Bool.false_and]
      dsimp only [handleGoal]
      by_cases heq : p = q
      · rw [if_pos heq, decide_eq_true heq]
        rfl
      · rw [if_neg heq, decide_eq_false heq, hclass]
        rfl
  next hnot =>
    split
    next x y =>
      have hplain : plainValuesEqual memory (.box .object x) (.box .object y) = .ok (decide (x = y)) := by
        rw [@plainValuesEqual_other memory (.box .object x) (.box .object y) (fun h => (by cases h.1))
          fun _ _ h => (by cases h)]
        simp
      rw [hplain]
      cases x with
      | none => cases y <;> rfl
      | some p =>
        cases y with
        | none => rfl
        | some q => exact absurd rfl (hnot p q rfl)
    next => cases plainValuesEqual memory a b <;> rfl

/-- Values that are found equal are the same. -/
theorem same_of_valuesEqual (h : valuesEqual memory a b = .ok true) : Same memory a b := by
  rw [valuesEqual_eq] at h
  cases hgoal : valueGoal memory a b with
  | now answer =>
    rw [hgoal] at h
    refine ⟨fun _ => False, nofun, ?_⟩
    rw [hgoal]
    cases answer with
    | error e => nomatch h
    | ok holds => exact congrArg Except.ok (Except.ok.inj h)
  | later node =>
    rw [hgoal] at h
    rw [Goal.check] at h
    cases hvisit : visit (recordGoals memory) nestingError maximumRoom node [] with
    | error e =>
      rw [hvisit] at h
      nomatch h
    | ok result =>
    obtain ⟨holds, seen⟩ := result
    rw [hvisit] at h
    cases Except.ok.inj h
    obtain ⟨hclosed, hnode, -⟩ := closed_of_visit hvisit
    exact ⟨(· ∈ seen), hclosed, hgoal ▸ hnode⟩

/-- Values that are the same are never found different. -/
theorem valuesEqual_of_same (h : Same memory a b) : valuesEqual memory a b = .ok true ∨
    valuesEqual memory a b = .error nestingError := by
  obtain ⟨S, hclosed, hgoal⟩ := h
  rw [valuesEqual_eq]
  cases hcase : valueGoal memory a b with
  | now answer =>
    rw [hcase] at hgoal
    rw [Goal.HoldsIn] at hgoal
    exact .inl (by rw [hgoal]; rfl)
  | later node =>
    rw [hcase] at hgoal
    rcases @visit_complete _ _ _ _ nestingError _ _ _ _ hclosed hgoal with ⟨seen, hvisit⟩ | hdeep
    · exact .inl (by rw [Goal.check, hvisit]; rfl)
    · exact .inr (by rw [Goal.check, hdeep]; rfl)

/-- The view of a native struct whose owner is gone. -/
def isExpiredView (memory : Memory) : gc.Value → Bool
  | .native r => match memory.natives r with
    | .structView _ _ _ valid => !valid
    | _ => false
  | _ => false

theorem nativeValuesEqual_ne_nestingError {a b : NativeValue} :
    nativeValuesEqual a b ≠ .error nestingError := by
  cases a <;> cases b <;> simp [nativeValuesEqual]
  split
  · exact (by intro h; cases h)
  · simp [nestingError]

theorem plainValuesEqual_ne_nestingError : plainValuesEqual memory a b ≠ .error nestingError := by
  by_cases hnumeric : isNumericValue a = true ∧ isNumericValue b = true
  · rw [plainValuesEqual_numeric hnumeric.1 hnumeric.2]
    exact nofun
  · by_cases hnative : ∃ r r', a = .native r ∧ b = .native r'
    · obtain ⟨r, r', rfl, rfl⟩ := hnative
      exact nativeValuesEqual_ne_nestingError
    · rw [plainValuesEqual_other hnumeric fun r r' ha hb => hnative ⟨r, r', ha, hb⟩]
      exact nofun

theorem valuesEqual_self (hnan : isNaNValue a = false) (hview : isExpiredView memory a = false) :
    valuesEqual memory a a = .ok true := by
  have hplain (hobject : ∀ p, a ≠ .box .object (some p)) (h : plainValuesEqual memory a a = .ok true) :
      valuesEqual memory a a = .ok true := by
    unfold valuesEqual
    split
    · exact absurd rfl (hobject _)
    · exact h
  by_cases hnumeric : isNumericValue a = true
  · refine hplain (fun p ha => ?_) ?_
    · rw [ha] at hnumeric
      nomatch hnumeric
    · rw [plainValuesEqual_numeric hnumeric hnumeric, hnan]
      simp
  · by_cases hnative : ∃ r, a = .native r
    · obtain ⟨r, rfl⟩ := hnative
      refine hplain nofun ?_
      rw [plainValuesEqual_native]
      unfold isExpiredView at hview
      cases hr : memory.natives r <;> simp_all [nativeValuesEqual]
    · by_cases hobject : ∃ p, a = .box .object (some p)
      · obtain ⟨p, rfl⟩ := hobject
        rw [valuesEqual_eq]
        simp [valueGoal, handleGoal, Goal.check, Except.map]
      · refine hplain (fun p ha => hobject ⟨p, ha⟩) ?_
        rw [plainValuesEqual_other (fun h => hnumeric h.1) fun r _ ha _ => hnative ⟨r, ha⟩]
        simp

theorem now_ne_nestingError : valueGoal memory a b ≠ .now (.error nestingError) := by
  unfold valueGoal
  split
  next x y =>
    unfold handleGoal
    split
    · split
      · exact nofun
      · split <;> exact nofun
    · exact nofun
  next => exact fun h => plainValuesEqual_ne_nestingError (Goal.now.inj h)

/-- A comparison fails on records that are too deep and on the view of a struct whose owner is gone,
    in no other way. -/
theorem valuesEqual_error {e : VmError} (h : valuesEqual memory a b = .error e) :
    e = nestingError ∨ e = .runtime "native struct view is not valid or owner is destroyed" := by
  have hplain {v w : gc.Value} {e : VmError} (h : plainValuesEqual memory v w = .error e) :
      e = .runtime "native struct view is not valid or owner is destroyed" := by
    by_cases hnumeric : isNumericValue v = true ∧ isNumericValue w = true
    · rw [plainValuesEqual_numeric hnumeric.1 hnumeric.2] at h
      nomatch h
    · by_cases hnative : ∃ r r', v = .native r ∧ w = .native r'
      · obtain ⟨r, r', rfl, rfl⟩ := hnative
        rw [plainValuesEqual_native] at h
        unfold nativeValuesEqual at h
        split at h
        case h_3 =>
          split at h
          · nomatch h
          · exact (Except.error.inj h).symm
        all_goals nomatch h
      · rw [plainValuesEqual_other hnumeric fun r r' hv hw => hnative ⟨r, r', hv, hw⟩] at h
        nomatch h
  have hgoal {v w : gc.Value} {e : VmError} (h : valueGoal memory v w = .now (.error e)) :
      e = .runtime "native struct view is not valid or owner is destroyed" := by
    unfold valueGoal at h
    split at h
    · unfold handleGoal at h
      split at h
      · split at h
        · nomatch h
        · split at h <;> nomatch h
      · nomatch h
    · exact hplain (Goal.now.inj h)
  have hrecord : ∀ pair e, .now (.error e) ∈ recordGoals memory pair → e = nestingError ∨
      e = .runtime "native struct view is not valid or owner is destroyed" := by
    intro pair e hmem
    unfold recordGoals at hmem
    dsimp only at hmem
    split at hmem
    · nomatch List.mem_singleton.mp hmem
    · obtain ⟨field, -, hfield⟩ := List.mem_map.mp hmem
      unfold fieldGoal at hfield
      split at hfield
      · nomatch hfield
      · exact .inr (hgoal hfield)
  rw [valuesEqual_eq] at h
  cases hvalue : valueGoal memory a b with
  | now answer =>
    rw [hvalue] at h
    cases answer with
    | ok holds => nomatch h
    | error failure =>
      cases h
      exact .inr (hgoal hvalue)
  | later pair =>
    rw [hvalue, Goal.check] at h
    cases hvisit : visit (recordGoals memory) nestingError maximumRoom pair [] with
    | ok result =>
      rw [hvisit] at h
      nomatch h
    | error failure =>
      rw [hvisit] at h
      cases h
      exact visit_error (.inl rfl) hrecord hvisit

theorem isRecord_of_later {p q : Address} (h : valueGoal memory a b = .later (p, q)) :
    isRecord (objectAt memory.heap p) = true ∧ isRecord (objectAt memory.heap q) = true := by
  unfold valueGoal at h
  split at h
  next x y =>
    unfold handleGoal at h
    split at h
    · split at h
      · nomatch h
      · split at h
        · nomatch h
        next hclass =>
          cases Goal.later.inj h
          have hclass := sameClass_iff.mp (by simpa using hclass)
          exact ⟨hclass.1, hclass.2.1⟩
    · nomatch h
  next => nomatch h

theorem valuesEqual_ne_nestingError (records : Finset Address)
    (hrecords : ∀ p, isRecord (objectAt memory.heap p) = true → p ∈ records)
    (hfew : records.card * records.card ≤ kMaxValueNestingDepth) :
    valuesEqual memory a b ≠ .error nestingError := by
  have hfield : ∀ pair : Address × Address, ∀ g ∈ recordGoals memory pair,
      g ≠ .now (.error nestingError) ∧ ∀ p q, g = .later (p, q) → (p, q) ∈ records ×ˢ records := by
    intro pair g hg
    unfold recordGoals at hg
    dsimp only at hg
    split at hg
    · rw [List.mem_singleton.mp hg]
      exact ⟨nofun, nofun⟩
    · obtain ⟨field, -, rfl⟩ := List.mem_map.mp hg
      unfold fieldGoal
      split
      · exact ⟨nofun, nofun⟩
      · exact ⟨now_ne_nestingError, fun p q h => Finset.mem_product.mpr
          ⟨hrecords p (isRecord_of_later h).1, hrecords q (isRecord_of_later h).2⟩⟩
  have hunseen : unseen (records ×ˢ records) [] < maximumRoom := by
    refine Nat.lt_succ_of_le (le_trans (Finset.card_filter_le _ _) ?_)
    rwa [Finset.card_product]
  rw [valuesEqual_eq]
  intro herror
  cases hgoal : valueGoal memory a b with
  | now answer =>
    rw [hgoal] at herror
    cases answer with
    | error e =>
      cases herror
      exact now_ne_nestingError hgoal
    | ok holds => nomatch herror
  | later node =>
    obtain ⟨p, q⟩ := node
    rw [hgoal, Goal.check] at herror
    have hne : visit (recordGoals memory) nestingError maximumRoom (p, q) [] ≠ .error nestingError :=
      visit_ne_tooDeep (fun n _ hmem => (hfield n _ hmem).1 rfl)
        (fun n _ m hm => (hfield n _ hm).2 m.1 m.2 rfl)
        (Finset.mem_product.mpr ⟨hrecords p (isRecord_of_later hgoal).1,
          hrecords q (isRecord_of_later hgoal).2⟩) hunseen
    cases hvisit : visit (recordGoals memory) nestingError maximumRoom (p, q) [] with
    | error e =>
      rw [hvisit] at herror
      exact hne (hvisit.trans (congrArg Except.error (Except.error.inj herror)))
    | ok result =>
      rw [hvisit] at herror
      nomatch herror

end

/-- Equality is an equivalence, except that it may give up on records that are too deep and on native
    views whose owner is gone. Numbers are compared by their exact values. -/
theorem valuesEqual_laws (memory : Memory) :
    (∀ a, isNaNValue a = false → isExpiredView memory a = false → valuesEqual memory a a = .ok true) ∧
    (∀ a b, valuesEqual memory a b = .ok true → valuesEqual memory b a = .ok true ∨
      valuesEqual memory b a = .error nestingError) ∧
      (∀ a b c, valuesEqual memory a b = .ok true → valuesEqual memory b c = .ok true →
      valuesEqual memory a c = .ok true ∨ valuesEqual memory a c = .error nestingError) ∧
      (∀ a b, isNumericValue a = true → isNumericValue b = true →
      valuesEqual memory a b = .ok (!isNaNValue a && !isNaNValue b &&
      decide (exactUnits a = exactUnits b))) ∧ ∀ records : Finset Address,
      (∀ p, isRecord (objectAt memory.heap p) = true → p ∈ records) →
      records.card * records.card ≤ kMaxValueNestingDepth →
      ∀ a b, valuesEqual memory a b ≠ .error nestingError := by
  refine ⟨fun a hnan hview => valuesEqual_self hnan hview, ?_, ?_, ?_, ?_⟩
  · intro a b hab
    exact valuesEqual_of_same ((same_of_valuesEqual hab).symm)
  · intro a b c hab hbc
    exact valuesEqual_of_same ((same_of_valuesEqual hab).trans (same_of_valuesEqual hbc))
  · intro a b ha hb
    rw [← @plainValuesEqual_numeric memory a b ha hb]
    unfold valuesEqual
    split
    · nomatch ha
    · rfl
  · exact fun records hrecords hfew a b => valuesEqual_ne_nestingError records hrecords hfew

end zl.vm.value
