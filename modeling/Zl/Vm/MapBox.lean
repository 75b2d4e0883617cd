import Zl.Vm.EqualityLaws

open zl.vm.gc zl.collections.association

namespace zl.vm.value

/-- A key that is there already keeps its first position. -/
def emplace (index : List (List UInt8 × Nat)) (key : List UInt8) (pos : Nat) : List (List UInt8 × Nat) :=
  if (index.lookup key).isSome then index else (key, pos) :: index

/-- The index with the position of a key, if it is a string. -/
def noteKey (index : List (List UInt8 × Nat)) (key : gc.Value) (pos : Nat) : List (List UInt8 × Nat) :=
  match key with
  | .string held => emplace index held pos
  | _ => index

def stringKeyPositions (entries : List (gc.Value × gc.Value)) : List (List UInt8 × Nat) :=
  entries.zipIdx.foldl (fun index entry => noteKey index entry.1.1 entry.2) []

section
variable (memory : Memory)

/-- The position of a key: by the index for a string in a map of some size, which is built if there
    is none. -/
def findEntryLocked (box : MapBox) (key : gc.Value) : Except VmError (Option Nat) × MapBox :=
  let scan := findFirst (valuesEqual memory) box.entries key
  match key with
  | .string needle =>
    if 8 ≤ box.entries.length then
      let box := if box.stringKeyIndexValid then box
        else { box with stringKeyIndex := stringKeyPositions box.entries, stringKeyIndexValid := true }
      let found := do
        let pos ← box.stringKeyIndex.lookup needle
        let entry ← box.entries[pos]?
        return (pos, entry.1)
      match found with
      | some (pos, entryKey) => ((valuesEqual memory entryKey key).map fun equal =>
          if equal then some pos else none, box)
      | none => (.ok none, box)
    else (scan, box)
  | _ => (scan, box)

def findEntry (box : MapBox) (key : gc.Value) : Except VmError (Option Nat) × MapBox :=
  findEntryLocked memory box key

def tryGetEntry (box : MapBox) (key : gc.Value) : Except VmError (Option gc.Value) × MapBox :=
  let (found, box) := findEntryLocked memory box key
  (found.map fun pos => pos.bind fun pos => (box.entries[pos]?).map Prod.snd, box)

def noteAppendedKeyLocked (box : MapBox) (key : gc.Value) : MapBox :=
  if box.stringKeyIndexValid then
    { box with stringKeyIndex := noteKey box.stringKeyIndex key (box.entries.length - 1) }
  else box

def setEntry (box : MapBox) (key value : gc.Value) : Except VmError Unit × MapBox :=
  let (found, box) := findEntryLocked memory box key
  match found with
  | .error e => (.error e, box)
  | .ok (some pos) => (.ok (), { box with entries := setAt box.entries pos value })
  | .ok none => (.ok (), noteAppendedKeyLocked { box with entries := box.entries ++ [(key, value)] } key)

def invalidateKeyIndexLocked (box : MapBox) : MapBox :=
  { box with stringKeyIndexValid := false, stringKeyIndex := [] }

def removeEntry (box : MapBox) (key : gc.Value) : Except VmError Bool × MapBox :=
  let (found, box) := findEntryLocked memory box key
  match found with
  | .error e => (.error e, box)
  | .ok none => (.ok false, box)
  | .ok (some pos) => (.ok true,
      invalidateKeyIndexLocked { box with entries := box.entries.eraseIdx pos })

end

/-- The operations of a map, and what they answer. -/
inductive MapOperation where
  | findEntry (key : gc.Value)
  | tryGetEntry (key : gc.Value)
  | setEntry (key value : gc.Value)
  | removeEntry (key : gc.Value)

inductive MapAnswer where
  | position (pos : Option Nat)
  | held (value : Option gc.Value)
  | done
  | removed (found : Bool)

def perform (memory : Memory) (box : MapBox) : MapOperation → Except VmError MapAnswer × MapBox
  | .findEntry key => (findEntry memory box key).map (·.map .position) id
  | .tryGetEntry key => (tryGetEntry memory box key).map (·.map .held) id
  | .setEntry key value => (setEntry memory box key value).map (·.map fun _ => .done) id
  | .removeEntry key => (removeEntry memory box key).map (·.map .removed) id

/-- What a map stands for: an association list, with all keys that were ever appended to it. -/
structure Association where
  entries : List (gc.Value × gc.Value) := []
  appended : List gc.Value := []

/-- The operations of an association list. Each scans it for the key. -/
def Association.perform (memory : Memory) (l : Association) (operation : MapOperation) :
    Except VmError MapAnswer × Association :=
  let find := findFirst (valuesEqual memory) l.entries
  match operation with
  | .findEntry key => ((find key).map .position, l)
  | .tryGetEntry key => ((find key).map fun pos =>
      .held (pos.bind fun pos => (l.entries[pos]?).map Prod.snd), l)
  | .setEntry key value =>
    match find key with
    | .error e => (.error e, l)
    | .ok (some pos) => (.ok .done, { l with entries := setAt l.entries pos value })
    | .ok none => (.ok .done, { entries := l.entries ++ [(key, value)], appended := l.appended ++ [key] })
  | .removeEntry key =>
    match find key with
    | .error e => (.error e, l)
    | .ok none => (.ok (.removed false), l)
    | .ok (some pos) => (.ok (.removed true), { l with entries := l.entries.eraseIdx pos })

/-- Operations one after the other, with all that they answer. The heap may change between them. -/
def performAll {S : Type} (perform : Memory → S → MapOperation → Except VmError MapAnswer × S) :
    S → List (Memory × MapOperation) → List (Except VmError MapAnswer) × S
  | s, [] => ([], s)
  | s, (memory, operation) :: calls =>
    let (answer, s) := perform memory s operation
    let (answers, s) := performAll perform s calls
    (answer :: answers, s)

/-- A string is the key of one entry at most. -/
def StringsOnce (entries : List (gc.Value × gc.Value)) : Prop :=
  (entries.map Prod.fst).Pairwise fun a b => ∀ held, a = .string held → b ≠ .string held

/-- A valid index leads to the first entry with a key. -/
def IndexFirst (box : MapBox) : Prop :=
  box.stringKeyIndexValid = true → ∀ needle,
    box.stringKeyIndex.lookup needle = (box.entries.map Prod.fst).findIdx? (· = .string needle)

section
variable {memory : Memory} {box : MapBox} {key : gc.Value} {entries : List (gc.Value × gc.Value)}
  {index : List (List UInt8 × Nat)}
variable {l : Association}

theorem valuesEqual_string (v : gc.Value) (needle : List UInt8) :
    valuesEqual memory v (.string needle) = .ok (decide (v = .string needle)) := by
  have hplain : valuesEqual memory v (.string needle) = plainValuesEqual memory v (.string needle) := by
    unfold valuesEqual
    split
    next heq => nomatch heq
    next => rfl
  rw [hplain, plainValuesEqual_other (fun h => Bool.noConfusion h.2) fun _ _ _ h =>
    gc.Value.noConfusion h]

theorem lookup_emplace (held needle : List UInt8) (pos : Nat) :
    (emplace index held pos).lookup needle = (index.lookup needle).or
    (if needle = held then some pos else none) := by
  unfold emplace
  split
  next hsome =>
    split
    next heq =>
      obtain ⟨first, hfirst⟩ := Option.isSome_iff_exists.mp hsome
      rw [heq, hfirst]
      rfl
    next => rw [Option.or_none]
  next hnone =>
    rw [List.lookup_cons]
    by_cases heq : needle = held
    · rw [heq, beq_self_eq_true, if_pos rfl, Option.not_isSome_iff_eq_none.mp hnone]
      rfl
    · rw [beq_false_of_ne heq, if_neg heq, Option.or_none]

theorem lookup_noteKey {keys : List gc.Value}
    (h : ∀ needle, index.lookup needle = keys.findIdx? (· = .string needle)) (key : gc.Value)
    (needle : List UInt8) : (noteKey index key keys.length).lookup needle = (keys ++ [key]).findIdx?
    (· = .string needle) := by
  rw [List.findIdx?_append, ← h, List.findIdx?_singleton]
  unfold noteKey
  split
  next held =>
    rw [lookup_emplace]
    congr 1
    by_cases heq : needle = held
    · simp [heq]
    · simp [heq, Ne.symm heq]
  next hother =>
    have hne : key ≠ .string needle := fun heq => hother needle heq
    simp [hne]

theorem lookup_stringKeyPositions (entries : List (gc.Value × gc.Value)) (needle : List UInt8) :
    (stringKeyPositions entries).lookup needle = (entries.map Prod.fst).findIdx?
    (· = .string needle) := by
  induction entries using List.reverseRecOn generalizing needle with
  | nil => rfl
  | append_singleton entries entry ih =>
    have hfold : stringKeyPositions (entries ++ [entry]) =
        noteKey (stringKeyPositions entries) entry.1 (entries.map Prod.fst).length := by
      rw [stringKeyPositions, List.zipIdx_append, List.foldl_append, List.length_map]
      simp [stringKeyPositions]
    rw [hfold, lookup_noteKey ih, List.map_append, List.map_singleton]

/-- The position of a key is what a scan finds, and only the index of the map changes. -/
theorem findEntryLocked_eq (memory : Memory) (h : IndexFirst box) (key : gc.Value) : ∃ box',
    findEntryLocked memory box key =
    (findFirst (valuesEqual memory) box.entries key, box') ∧ box'.entries = box.entries ∧
      IndexFirst box' := by
  have hscan (needle : List UInt8) : findFirst (valuesEqual memory) box.entries (.string needle) =
      .ok ((box.entries.map Prod.fst).findIdx? (· = .string needle)) :=
    findFirst_of_test fun entry _ => valuesEqual_string entry.1 needle
  unfold findEntryLocked
  split
  next needle =>
    split
    · obtain ⟨indexed, hindexed, hentries, hfirst, hvalid⟩ : ∃ indexed : MapBox,
          (if box.stringKeyIndexValid then box
            else { box with
              stringKeyIndex := stringKeyPositions box.entries
              stringKeyIndexValid := true }) = indexed ∧
          indexed.entries = box.entries ∧ IndexFirst indexed ∧ indexed.stringKeyIndexValid = true := by
        split
        next hvalid => exact ⟨box, rfl, rfl, h, hvalid⟩
        next => exact ⟨_, rfl, rfl, fun _ => lookup_stringKeyPositions box.entries, rfl⟩
      simp only [hindexed]
      rw [hfirst hvalid needle, hentries, hscan]
      cases hpos : (box.entries.map Prod.fst).findIdx? (· = .string needle) with
      | none => exact ⟨indexed, rfl, hentries, hfirst⟩
      | some pos =>
        obtain ⟨hlt, hkey, -⟩ := List.findIdx?_eq_some_iff_getElem.mp hpos
        rw [List.length_map] at hlt
        rw [List.getElem_map, decide_eq_true_iff] at hkey
        refine ⟨indexed, ?_, hentries, hfirst⟩
        rw [Option.bind_eq_bind, Option.bind_some, List.getElem?_eq_getElem hlt,
          Option.bind_eq_bind, Option.bind_some]
        simp only [hkey, valuesEqual_string, decide_true, Option.pure_def]
        rfl
    · exact ⟨box, rfl, rfl, h⟩
  next => exact ⟨box, rfl, rfl, h⟩

@[simp]
theorem entries_noteAppendedKeyLocked (box : MapBox) (key : gc.Value) :
    (noteAppendedKeyLocked box key).entries = box.entries := by
  unfold noteAppendedKeyLocked
  split <;> rfl

theorem IndexFirst.append (h : IndexFirst box) (key value : gc.Value) :
    IndexFirst (noteAppendedKeyLocked { box with entries := box.entries ++ [(key, value)] } key) := by
  intro hvalid needle
  rw [entries_noteAppendedKeyLocked, List.map_append, List.map_singleton]
  unfold noteAppendedKeyLocked at hvalid ⊢
  by_cases hindexed : box.stringKeyIndexValid = true
  · rw [if_pos hindexed]
    have hlast : (box.entries ++ [(key, value)]).length - 1 = (box.entries.map Prod.fst).length := by simp
    simp only [hlast]
    exact lookup_noteKey (h hindexed) key needle
  · rw [if_neg hindexed] at hvalid
    exact absurd hvalid hindexed

/-- A map and an association list with the same entries answer alike, and have the same entries
    afterwards. -/
theorem perform_refines (memory : Memory) (hfirst : IndexFirst box)
    (hentries : box.entries = l.entries) (operation : MapOperation) :
    (perform memory box operation).1 = (l.perform memory operation).1 ∧
    (perform memory box operation).2.entries = (l.perform memory operation).2.entries ∧
    IndexFirst (perform memory box operation).2 := by
  cases operation with
  | findEntry key =>
    obtain ⟨box', hfind, hsame, hfirst'⟩ := findEntryLocked_eq memory hfirst key
    simp only [perform, findEntry, Association.perform, hfind, Prod.map, id, ← hentries]
    exact ⟨trivial, hsame, hfirst'⟩
  | tryGetEntry key =>
    obtain ⟨box', hfind, hsame, hfirst'⟩ := findEntryLocked_eq memory hfirst key
    simp only [perform, tryGetEntry, Association.perform, hfind, Prod.map, id, ← hentries, hsame]
    refine ⟨?_, trivial, hfirst'⟩
    cases findFirst (valuesEqual memory) box.entries key <;> rfl
  | setEntry key value =>
    obtain ⟨box', hfind, hsame, hfirst'⟩ := findEntryLocked_eq memory hfirst key
    simp only [perform, setEntry, Association.perform, hfind, Prod.map, id, ← hentries]
    cases findFirst (valuesEqual memory) box.entries key with
    | error e => exact ⟨rfl, hsame.trans hentries, hfirst'⟩
    | ok found =>
      cases found with
      | some pos =>
        refine ⟨rfl, congrArg (setAt · pos value) hsame, fun hvalid needle => ?_⟩
        exact (hfirst' hvalid needle).trans (congrArg _ keys_setAt.symm)
      | none =>
        exact ⟨rfl, (entries_noteAppendedKeyLocked ..).trans (congrArg (· ++ [(key, value)]) hsame),
          hfirst'.append key value⟩
  | removeEntry key =>
    obtain ⟨box', hfind, hsame, hfirst'⟩ := findEntryLocked_eq memory hfirst key
    simp only [perform, removeEntry, Association.perform, hfind, Prod.map, id, ← hentries]
    cases findFirst (valuesEqual memory) box.entries key with
    | error e => exact ⟨rfl, hsame.trans hentries, hfirst'⟩
    | ok found =>
      cases found with
      | none => exact ⟨rfl, hsame.trans hentries, hfirst'⟩
      | some pos => exact ⟨rfl, congrArg (·.eraseIdx pos) hsame, fun hvalid => nomatch hvalid⟩

theorem performAll_refines {l : Association} (hfirst : IndexFirst box) (hentries : box.entries = l.entries)
    (calls : List (Memory × MapOperation)) :
    (performAll perform box calls).1 = (performAll Association.perform l calls).1 ∧
    (performAll perform box calls).2.entries = (performAll Association.perform l calls).2.entries ∧
    IndexFirst (performAll perform box calls).2 := by
  induction calls generalizing box l with
  | nil => exact ⟨rfl, hentries, hfirst⟩
  | cons call calls ih =>
    obtain ⟨hanswer, hentries', hfirst'⟩ := perform_refines call.1 hfirst hentries call.2
    obtain ⟨hanswers, hlast, hindex⟩ := ih hfirst' hentries'
    exact ⟨congrArg₂ List.cons hanswer hanswers, hlast, hindex⟩

/-- The keys of an association list stay where they are, lose one, or get a new one at the end. -/
theorem Association.perform_cases (memory : Memory) (l : Association) (operation : MapOperation) :
    let l' := (l.perform memory operation).2
    (l'.entries.map Prod.fst = l.entries.map Prod.fst ∧ l'.appended = l.appended) ∨
    (∃ pos, l'.entries = l.entries.eraseIdx pos ∧ l'.appended = l.appended) ∨
    ∃ key value, findFirst (valuesEqual memory) l.entries key = .ok none ∧
      l' = { entries := l.entries ++ [(key, value)], appended := l.appended ++ [key] } := by
  cases operation with
  | findEntry key => exact .inl ⟨rfl, rfl⟩
  | tryGetEntry key => exact .inl ⟨rfl, rfl⟩
  | setEntry key value =>
    simp only [Association.perform]
    cases hfind : findFirst (valuesEqual memory) l.entries key with
    | error e => exact .inl ⟨rfl, rfl⟩
    | ok found =>
      cases found with
      | some pos => exact .inl ⟨keys_setAt, rfl⟩
      | none => exact .inr (.inr ⟨key, value, hfind, rfl⟩)
  | removeEntry key =>
    simp only [Association.perform]
    cases findFirst (valuesEqual memory) l.entries key with
    | error e => exact .inl ⟨rfl, rfl⟩
    | ok found =>
      cases found with
      | none => exact .inl ⟨rfl, rfl⟩
      | some pos => exact .inr (.inl ⟨pos, rfl, rfl⟩)

/-- The keys are in the order in which they were appended, and no string is there twice. -/
theorem Association.perform_ordered (memory : Memory)
    (hordered : (l.entries.map Prod.fst).Sublist l.appended) (honce : StringsOnce l.entries)
    (operation : MapOperation) :
    ((l.perform memory operation).2.entries.map Prod.fst).Sublist
    (l.perform memory operation).2.appended ∧ StringsOnce (l.perform memory operation).2.entries := by
  obtain ⟨hkeys, happended⟩ | ⟨pos, hentries, happended⟩ | ⟨key, value, hfind, hentries⟩ :=
    l.perform_cases memory operation
  · rw [StringsOnce, hkeys, happended]
    exact ⟨hordered, honce⟩
  · rw [hentries, happended]
    have hfewer := (List.eraseIdx_sublist l.entries pos).map Prod.fst
    exact ⟨hfewer.trans hordered, honce.sublist hfewer⟩
  · rw [hentries, StringsOnce, List.map_append, List.map_singleton, List.pairwise_append]
    refine ⟨hordered.append (.refl _), honce, List.pairwise_singleton _ _,
      fun a ha b hb held heq hsame => ?_⟩
    obtain ⟨entry, hentry, rfl⟩ := List.mem_map.mp ha
    rw [List.mem_singleton.mp hb] at hsame
    have hdiffer := findFirst_eq_none_iff.mp hfind entry hentry
    simp only at hsame
    rw [hsame, valuesEqual_string, heq, decide_eq_true rfl] at hdiffer
    nomatch hdiffer

theorem Association.performAll_ordered (hordered : (l.entries.map Prod.fst).Sublist l.appended)
    (honce : StringsOnce l.entries) (calls : List (Memory × MapOperation)) :
    ((performAll Association.perform l calls).2.entries.map Prod.fst).Sublist
    (performAll Association.perform l calls).2.appended ∧
    StringsOnce (performAll Association.perform l calls).2.entries := by
  induction calls generalizing l with
  | nil => exact ⟨hordered, honce⟩
  | cons call calls ih =>
    obtain ⟨hordered', honce'⟩ := Association.perform_ordered call.1 hordered honce call.2
    exact ih hordered' honce'

theorem Association.perform_distinct (hdistinct : Distinct (valuesEqual memory) l.entries)
    (operation : MapOperation) :
    Distinct (valuesEqual memory) (l.perform memory operation).2.entries := by
  obtain ⟨hkeys, -⟩ | ⟨pos, hentries, -⟩ | ⟨key, value, hfind, hentries⟩ :=
    l.perform_cases memory operation
  · rw [Distinct, hkeys]
    exact hdistinct
  · rw [hentries]
    exact hdistinct.eraseIdx
  · rw [hentries]
    exact hdistinct.append hfind

/-- While the heap stays as it is, no two entries have equal keys. -/
theorem Association.performAll_distinct {calls : List (Memory × MapOperation)}
    (hdistinct : Distinct (valuesEqual memory) l.entries) (hmemory : ∀ call ∈ calls, call.1 = memory) :
    Distinct (valuesEqual memory) (performAll Association.perform l calls).2.entries := by
  induction calls generalizing l with
  | nil => exact hdistinct
  | cons call calls ih =>
    obtain ⟨hcall, hcalls⟩ := List.forall_mem_cons.mp hmemory
    exact ih (hcall ▸ Association.perform_distinct (hcall ▸ hdistinct) call.2) hcalls

theorem ne_of_distinct (hdistinct : Distinct (valuesEqual memory) entries)
    {i j : Nat} {a b : gc.Value × gc.Value} (hne : i ≠ j) (ha : entries[i]? = some a)
    (hb : entries[j]? = some b) :
    valuesEqual memory a.1 b.1 ≠ .ok true := by
  have hordered {i j : Nat} {a b : gc.Value × gc.Value} (hlt : i < j) (ha : entries[i]? = some a)
    (hb : entries[j]? = some b) :
      valuesEqual memory a.1 b.1 = .ok false := by
    obtain ⟨hi, rfl⟩ := List.getElem?_eq_some_iff.mp ha
    obtain ⟨hj, rfl⟩ := List.getElem?_eq_some_iff.mp hb
    have hpair :=
      List.pairwise_iff_getElem.mp hdistinct i j (by rwa [List.length_map]) (by rwa [List.length_map]) hlt
    rwa [List.getElem_map, List.getElem_map] at hpair
  intro hequal
  obtain hlt | hlt := Nat.lt_or_gt_of_ne hne
  · rw [hordered hlt ha hb] at hequal
    nomatch hequal
  · have hback := hordered hlt hb ha
    obtain htrue | hnested := valuesEqual_of_same ((same_of_valuesEqual hequal).symm)
    · rw [htrue] at hback
      nomatch hback
    · rw [hnested] at hback
      nomatch hback

theorem StringsOnce.findIdx?_eq_some_iff (h : StringsOnce entries) (needle : List UInt8) (pos : Nat) :
    (entries.map Prod.fst).findIdx? (· = .string needle) = some pos ↔
      ∃ value, entries[pos]? = some (.string needle, value) := by
  rw [List.findIdx?_eq_some_iff_getElem]
  constructor
  · rintro ⟨hlt, hkey, -⟩
    rw [List.length_map] at hlt
    rw [List.getElem_map, decide_eq_true_iff] at hkey
    exact ⟨entries[pos].2, (List.getElem?_eq_getElem hlt).trans (congrArg some (Prod.ext hkey rfl))⟩
  · rintro ⟨value, hentry⟩
    obtain ⟨hlt, hat⟩ := List.getElem?_eq_some_iff.mp hentry
    refine ⟨by rwa [List.length_map], by rw [List.getElem_map, hat, decide_eq_true_iff],
    fun earlier hearlier hsame => ?_⟩
    have hpair := List.pairwise_iff_getElem.mp h earlier pos (by rw [List.length_map]; omega)
      (by rwa [List.length_map]) hearlier
    rw [decide_eq_true_iff] at hsame
    exact hpair needle hsame (by rw [List.getElem_map, hat])

/-- A map is an association list in the order of insertion: it answers what a scan answers, no key is
    there twice, and the index leads to each string where it is. -/
theorem mapBox_refines_association (calls : List (Memory × MapOperation)) :
    let box := (performAll perform {} calls).2
    (performAll perform {} calls).1 = (performAll Association.perform {} calls).1 ∧
    box.entries = (performAll Association.perform {} calls).2.entries ∧
    (box.entries.map Prod.fst).Sublist (performAll Association.perform {} calls).2.appended ∧
    (∀ memory, (∀ call ∈ calls, call.1 = memory) → Distinct (valuesEqual memory) box.entries ∧
      ∀ (i j : Nat) (a b : gc.Value × gc.Value), i ≠ j → box.entries[i]? = some a →
        box.entries[j]? = some b → valuesEqual memory a.1 b.1 ≠ .ok true) ∧
    (box.stringKeyIndexValid = true → ∀ needle pos,
      box.stringKeyIndex.lookup needle = some pos ↔
      ∃ value, box.entries[pos]? = some (.string needle, value)) := by
  obtain ⟨hanswers, hentries, hfirst⟩ :=
    @performAll_refines {} {} (fun hvalid => nomatch hvalid) rfl calls
  obtain ⟨hordered, honce⟩ := Association.performAll_ordered (l := {}) (.refl _) .nil calls
  refine ⟨hanswers, hentries, hentries ▸ hordered, fun memory hmemory => ?_, fun hvalid needle pos => ?_⟩
  · have hdistinct : Distinct (valuesEqual memory) (performAll perform {} calls).2.entries := by
      rw [hentries]
      exact Association.performAll_distinct (l := {}) List.Pairwise.nil hmemory
    exact ⟨hdistinct, fun i j a b hne ha hb => ne_of_distinct hdistinct hne ha hb⟩
  · rw [hfirst hvalid needle]
    rw [← hentries] at honce
    exact honce.findIdx?_eq_some_iff needle pos

end

end zl.vm.value
