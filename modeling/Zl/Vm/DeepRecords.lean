import Zl.Vm.EqualityLaws

open zl.graph.coinduction zl.vm.gc zl.collections

namespace zl.vm.value

/-- Two classes named alike, which declare their fields in different orders. -/
def linkType (skipFirst : Bool) : RuntimeTypeInfo where
  name := "Link"
  isDataType := true
  fields := if skipFirst then [{ name := "skip" }, { name := "next" }] else [{ name := "next" },
    { name := "skip" }]

def linkRecord (skipFirst : Bool) (next skip : Option Address) : ObjectBox where
  className := "Link"
  runtimeType := some (linkType skipFirst)
  fields :=
    if skipFirst then [.box .object skip, .box .object next] else [.box .object next, .box .object skip]
  fields_le := by cases skipFirst <;> exact Nat.le_refl 2

/-- A chain of 502 records from 0 on, its like with the fields in the other order from 502 on, and from
    1004 on another first half of the first chain. The first record of each chain also leads to the
    second half. -/
def deepRecord (a : Nat) : ObjectBox :=
  if a < 502 then linkRecord false (if a < 501 then some (a + 1) else none)
    (if a = 0 then some 251 else none)
  else if a < 1004 then linkRecord true (if a < 1003 then some (a + 1) else none)
    (if a = 502 then some 753 else none)
  else linkRecord true (some (if a < 1254 then a + 1 else 251)) (if a = 1004 then some 251 else none)

/-- Objects at the first addresses. -/
def tabulate (count : Nat) (record : Nat → ObjectBox) : AList (fun id : BoxId => Box id.kind) where
  entries := (List.range count).map fun a => ⟨⟨.object, a⟩, record a⟩
  nodupKeys := by
    rw [List.NodupKeys, List.keys, List.map_map]
    exact List.nodup_range.map fun a b h => congrArg BoxId.address h

theorem objectAt_tabulate {count : Nat} {record : Nat → ObjectBox} {heap : Heap}
    (hheap : heap.boxes = tabulate count record)
    (a : Nat) : objectAt heap a = if a < count then record a else {} := by
  rw [objectAt, boxAt, hheap]
  split
  next ha =>
    have hentry : (⟨⟨.object, a⟩, record a⟩ : Σ id : BoxId, Box id.kind) ∈
        (tabulate count record).entries :=
      List.mem_map.mpr ⟨a, List.mem_range.mpr ha, rfl⟩
    rw [AList.mem_lookup_iff.mpr hentry]
    rfl
  next ha =>
    have hnone : (tabulate count record).lookup ⟨.object, a⟩ = none := by
      rw [AList.lookup_eq_none]
      intro hmem
      obtain ⟨entry, hentry, heq⟩ := List.mem_map.mp (AList.mem_keys.mp hmem)
      obtain ⟨b, hb, rfl⟩ := List.mem_map.mp hentry
      have hb' : b = a := congrArg BoxId.address heq
      exact ha (hb' ▸ List.mem_range.mp hb)
    rw [hnone]
    rfl

/-- The memory also has a view whose owner is gone. -/
def deepMemory : Memory where
  heap := { boxes := tabulate 1255 deepRecord }
  natives _ := .structView 0 8 8 false

theorem objectAt_deepMemory {a : Nat} (ha : a < 1255) : objectAt deepMemory.heap a = deepRecord a := by
  rw [objectAt_tabulate rfl, if_pos ha]

section
variable {p q : Nat}

theorem sameClass_deepMemory (hp : p < 1255) (hq : q < 1255) :
    sameClass (objectAt deepMemory.heap p) (objectAt deepMemory.heap q) = true := by
  have hrecord {a : Nat} (ha : a < 1255) :
      isRecord (objectAt deepMemory.heap a) = true ∧ (objectAt deepMemory.heap a).className = "Link" := by
    rw [objectAt_deepMemory ha, deepRecord]
    split
    · exact ⟨rfl, rfl⟩
    · split <;> exact ⟨rfl, rfl⟩
  exact sameClass_iff.mpr ⟨(hrecord hp).1, (hrecord hq).1, (hrecord hp).2.trans (hrecord hq).2.symm⟩

theorem handleGoal_deepMemory (hp : p < 1255) (hq : q < 1255) (hne : p ≠ q) :
    handleGoal deepMemory (some p) (some q) = .later (p, q) := by
  rw [handleGoal, if_neg hne, sameClass_deepMemory hp hq]
  rfl

theorem handleGoal_self (handle : Option Address) :
    handleGoal deepMemory handle handle = .now (.ok true) := by
  cases handle with
  | none => rfl
  | some a => exact if_pos rfl

theorem recordGoals_link {o o' : Bool} {next skip next' skip' : Option Address}
    (hp : deepRecord p = linkRecord o next skip)
    (hq : deepRecord q = linkRecord o' next' skip') (hlt : p < 1255) (hlt' : q < 1255) :
    recordGoals deepMemory (p, q) =
      if o then [handleGoal deepMemory skip skip', handleGoal deepMemory next next']
      else [handleGoal deepMemory next next', handleGoal deepMemory skip skip'] := by
  rw [recordGoals]
  dsimp only
  rw [objectAt_deepMemory hlt, objectAt_deepMemory hlt', hp, hq]
  cases o <;> cases o' <;> rfl

theorem valuesEqual_deepMemory (hp : p < 1255) (hq : q < 1255) :
    valuesEqual deepMemory (.box .object (some p)) (.box .object (some q)) =
      if p = q then .ok true else (visit (recordGoals deepMemory) nestingError maximumRoom
        (p, q) []).map Prod.fst := by
  rw [valuesEqual_eq, valueGoal]
  by_cases heq : p = q
  · rw [heq, handleGoal_self, if_pos rfl]
    rfl
  · rw [handleGoal_deepMemory hp hq heq, if_neg heq, Goal.check]

end

/-- Where the first record of a chain of pairs leads to the second half before it leads on, neither
    half is too deep. -/
theorem visit_halves {chain : Nat → Address × Address}
    (hstart : recordGoals deepMemory (chain 0) = [.later (chain 251), .later (chain 1)])
    (hnext : ∀ i, 0 < i → i < 501 → ∀ g ∈ recordGoals deepMemory (chain i), g = .now (.ok true) ∨
      g = .later (chain (i + 1)))
    (hlast : ∀ g ∈ recordGoals deepMemory (chain 501), g = .now (.ok true)) :
    ∃ seen, visit (recordGoals deepMemory) nestingError maximumRoom (chain 0) [] = .ok (true, seen) := by
  obtain ⟨second, hsecond, -, hmet⟩ :=
    @visit_along VmError _ _ _ nestingError 500 [chain 0] chain [] 251 501
    (fun j hj hlt => hnext j (by omega) hlt) (.inr hlast) (by omega) (by omega) (List.nil_subset _)
  obtain ⟨first, hfirst, -⟩ := @visit_along VmError _ _ _ nestingError 500 second chain [chain 251] 1 251
    (fun j hj hlt => hnext j (by omega) (by omega)) (.inl List.mem_cons_self) (by omega) (by omega)
    (List.cons_subset.mpr ⟨hmet, List.nil_subset _⟩)
  refine ⟨first, ?_⟩
  rw [maximumRoom, kMaxValueNestingDepth, visit, if_neg List.not_mem_nil, hstart]
  exact all_cons_eq_true.mpr ⟨second, hsecond, all_cons_eq_true.mpr ⟨first, hfirst, rfl⟩⟩

section
variable {i : Nat}

theorem deepRecord_low (h : i < 502) :
    deepRecord i = linkRecord false (if i < 501 then some (i + 1) else none)
      (if i = 0 then some 251 else none) := if_pos h

theorem deepRecord_middle (h : i < 502) :
    deepRecord (502 + i) = linkRecord true (if i < 501 then some (502 + (i + 1)) else none)
      (if i = 0 then some 753 else none) := by
  rw [deepRecord, if_neg (by omega), if_pos (by omega)]
  simp only [show 502 + i < 1003 ↔ i < 501 by omega, show 502 + i = 502 ↔ i = 0 by omega, Nat.add_assoc]

theorem deepRecord_high (h : i < 251) :
    deepRecord (1004 + i) = linkRecord true (some (if i < 250 then 1004 + (i + 1) else 251))
      (if i = 0 then some 251 else none) := by
  rw [deepRecord, if_neg (by omega), if_neg (by omega)]
  simp only [show 1004 + i < 1254 ↔
    i < 250 by omega, show 1004 + i = 1004 ↔ i = 0 by omega, Nat.add_assoc]

/-- The first chain has no shorter way to compare: it leads on before it skips. -/
theorem low_middle : valuesEqual deepMemory (.box .object (some 0)) (.box .object (some 502)) =
    .error nestingError := by
  have hchain : visit (recordGoals deepMemory) nestingError maximumRoom (0, 502) [] =
      .error nestingError := by
    refine @visit_chain _ _ _ _ nestingError 501 [] (fun i => (i, 502 + i)) 501 0
      (fun i hi => ?_) ?_ le_rfl nofun
    · rw [recordGoals_link (deepRecord_low (by omega)) (deepRecord_middle (by omega)) (by omega)
        (by omega), if_neg Bool.false_ne_true, if_pos hi, if_pos hi,
        handleGoal_deepMemory (by omega) (by omega) (by omega)]
      exact ⟨_, rfl⟩
    · exact fun i j _ _ h => congrArg Prod.fst h
  rw [valuesEqual_deepMemory (by omega) (by omega), if_neg (by omega), hchain]
  rfl

/-- The other way round the second halves are compared first. -/
theorem middle_low : valuesEqual deepMemory (.box .object (some 502)) (.box .object (some 0)) =
    .ok true := by
  have hgoals {i : Nat} (hi : i < 502) :=
    recordGoals_link (deepRecord_middle hi) (deepRecord_low hi) (by omega) (by omega)
  obtain ⟨seen, hseen⟩ := @visit_halves (fun i => (502 + i, i)) (by
      refine (hgoals (by omega)).trans ?_
      simp [handleGoal_deepMemory]) (by
      intro i hpos hlt g hg
      rw [hgoals (by omega), if_pos rfl, if_neg (by omega), if_neg (by omega), if_pos hlt,
        if_pos hlt, handleGoal_self, handleGoal_deepMemory (by omega) (by omega) (by omega)] at hg
      simpa using hg) (by
      intro g hg
      rw [hgoals (by omega)] at hg
      simpa [handleGoal_self] using hg)
  rw [valuesEqual_deepMemory (by omega) (by omega), if_neg (by omega), hseen]
  rfl

/-- The second chain and the other first half of the first one. -/
theorem high_middle : valuesEqual deepMemory (.box .object (some 1004)) (.box .object (some 502)) =
    .ok true := by
  have hhigh {i : Nat} (hi : i < 251) :=
    recordGoals_link (deepRecord_high hi) (@deepRecord_middle i (by omega)) (by omega) (by omega)
  have hlow {i : Nat} (hi : i < 502) :=
    recordGoals_link (deepRecord_low hi) (deepRecord_middle hi) (by omega) (by omega)
  obtain ⟨seen, hseen⟩ := @visit_halves (fun i => (if i < 251 then 1004 + i else i, 502 + i)) (by
      refine (hhigh (by omega)).trans ?_
      simp [handleGoal_deepMemory]) (by
      intro i hpos hlt g hg
      by_cases hhalf : i < 251
      · rw [if_pos hhalf, hhigh hhalf, if_pos rfl, if_neg (by omega), if_neg (by omega), if_pos hlt,
          handleGoal_self, handleGoal_deepMemory (by split <;> omega) (by omega)
          (by split <;> omega)] at hg
        have hnext : (if i + 1 < 251 then 1004 + (i + 1) else i + 1) = if i < 250 then 1004 +
            (i + 1) else 251 := by
          split <;> split <;> omega
        rw [hnext]
        simpa using hg
      · rw [if_neg hhalf, hlow (by omega), if_neg Bool.false_ne_true, if_pos hlt, if_pos hlt,
          if_neg (by omega), if_neg (by omega), handleGoal_self,
          handleGoal_deepMemory (by omega) (by omega) (by omega)] at hg
        rw [if_neg (by omega)]
        simpa [or_comm] using hg) (by
      intro g hg
      rw [if_neg (by omega), hlow (by omega)] at hg
      simpa [handleGoal_self] using hg)
  rw [valuesEqual_deepMemory (by omega) (by omega), if_neg (by omega)]
  exact congrArg (Except.map Prod.fst) hseen

/-- The two first halves meet in the same second half. -/
theorem low_high : valuesEqual deepMemory (.box .object (some 0)) (.box .object (some 1004)) =
    .ok true := by
  have hgoals {i : Nat} (hi : i < 251) :=
    recordGoals_link (@deepRecord_low i (by omega)) (deepRecord_high hi) (by omega) (by omega)
  obtain ⟨seen, hseen, -⟩ := @visit_along VmError _ _ (recordGoals deepMemory) nestingError 501 []
    (fun i => (i, 1004 + i)) [] 0 250
    (by
      intro i _ hlt g hg
      rw [hgoals (by omega), if_neg Bool.false_ne_true, if_pos (by omega), if_pos hlt, handleGoal_self,
        handleGoal_deepMemory (by omega) (by omega) (by omega)] at hg
      simpa [or_comm] using hg)
    (.inr (by
      intro g hg
      rw [hgoals (by omega), if_neg Bool.false_ne_true] at hg
      simpa [handleGoal_self] using hg)) (by omega) (by omega) (List.nil_subset _)
  rw [valuesEqual_deepMemory (by omega) (by omega), if_neg (by omega), maximumRoom, kMaxValueNestingDepth]
  exact congrArg (Except.map Prod.fst) hseen

end

theorem valuesEqual_laws_deepMemory :
    valuesEqual deepMemory (.box .object (some 0)) (.box .object (some 502)) = .ok true ∨
      valuesEqual deepMemory (.box .object (some 0)) (.box .object (some 502)) = .error nestingError :=
  (valuesEqual_laws deepMemory).2.1 _ _ middle_low

/-- Neither law of an equivalence holds without exception. -/
theorem valuesEqual_not_equivalence :
    (¬∀ a, isNaNValue a = false → valuesEqual deepMemory a a = .ok true) ∧
    (¬∀ a b, valuesEqual deepMemory a b = .ok true → valuesEqual deepMemory b a = .ok true) ∧
    ¬∀ a b c, valuesEqual deepMemory a b = .ok true → valuesEqual deepMemory b c = .ok true →
    valuesEqual deepMemory a c = .ok true := by
  refine ⟨fun hrefl => ?_, fun hsymm => ?_, fun htrans => ?_⟩
  · have hview : valuesEqual deepMemory (.native 0) (.native 0) = .ok true := hrefl _ rfl
    nomatch hview
  · exact nomatch low_middle.symm.trans (hsymm _ _ middle_low)
  · exact nomatch low_middle.symm.trans (htrans _ _ _ low_high high_middle)

end zl.vm.value
