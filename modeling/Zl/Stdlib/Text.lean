import Zl.Program.Loops
import Zl.Vm.Native.Search

open zl.program zl.program.Program zl.vm.native zl.vm.native.strings

namespace zl.stdlib.text

/-- Code that works on strings: it may raise. -/
abbrev Code := Program Unit Failure

def run {A : Type} (r : Except Failure A) : Code A := step fun s => (r, s)

def length (value : Bytes) : Int := utf8Length value

def substring (value : Bytes) (start length : Int) : Except Failure Bytes :=
  utf8Substring value start length

def indexOf (value needle : Bytes) : Except Failure Int :=
  let bytePos := strIndexOf value needle
  if bytePos < 0 then .ok (-1) else utf8IndexFromByte value bytePos

def lastIndexOf (value needle : Bytes) : Except Failure Int :=
  let bytePos := strLastIndexOf value needle
  if bytePos < 0 then .ok (-1) else utf8IndexFromByte value bytePos

def indexOfFrom (value needle : Bytes) (start : Int) : Except Failure Int := do
  let byteStart ← utf8ByteIndex value start
  let bytePos := strIndexOfFrom value needle byteStart
  if bytePos < 0 then return -1 else utf8IndexFromByte value bytePos

def count (value needle : Bytes) : Code Int :=
  if strLength needle = 0 then return 0
  else loop (fun locals => do
    let (result, start) := locals
    if start ≤ strLength value - strLength needle then
      let remaining ← run (strSubstring value start (strLength value))
      let found := strIndexOf remaining needle
      if found < 0 then return .leave result
      else return .next (result + 1, start + found + strLength needle)
    else return .leave result) ((0 : Int), (0 : Int))

def indicesOf (value needle : Bytes) : Code (List Int) :=
  if utf8Length needle = 0 then return []
  else
    let needleLen := utf8Length needle
    loop (fun locals => do
      let (result, start) := locals
      if start ≤ utf8Length value - needleLen then
        let found ← run (indexOfFrom value needle start)
        if found < 0 then return .leave result
        else return .next (result ++ [found], found + needleLen)
      else return .leave result) (([] : List Int), (0 : Int))

variable {cs ds : List Char} {i k : Nat}

/-- What a search reports: the extreme one of the places, or -1 if there is none. -/
def Reports (extreme : Set Nat → Nat → Prop) (places : Set Nat) (r : Int) : Prop :=
  (∃ i : Nat, r = i ∧ extreme places i) ∨ r = -1 ∧ places = ∅

theorem indexOf_encode (cs ds : List Char) :
    ∃ r, indexOf (encode cs) (encode ds) = .ok r ∧ Reports IsLeast {i | Occurs cs ds i} r := by
  unfold indexOf strIndexOf
  match hfind : find (encode cs) (encode ds) 0 with
  | none =>
    refine ⟨-1, rfl, .inr ⟨rfl, Set.eq_empty_iff_forall_notMem.mpr fun i hi => ?_⟩⟩
    exact find_eq_none hfind (offset cs i) (Nat.zero_le _) ((occurs_encode_iff hi.1).mpr hi)
  | some b =>
    obtain ⟨i, rfl, hleast⟩ := isLeast_of_encode (k := 0) (Nat.zero_le _) (find_eq_some hfind)
    refine ⟨i, ?_, .inl ⟨i, rfl, by simpa using hleast⟩⟩
    exact (if_neg (Int.natCast_nonneg _).not_gt).trans (utf8IndexFromByte_offset hleast.1.2.1)

theorem lastIndexOf_encode (cs ds : List Char) :
    ∃ r, lastIndexOf (encode cs) (encode ds) = .ok r ∧ Reports IsGreatest {i | Occurs cs ds i} r := by
  unfold lastIndexOf strLastIndexOf
  match hfind : rfind (encode cs) (encode ds) with
  | none =>
    refine ⟨-1, rfl, .inr ⟨rfl, Set.eq_empty_iff_forall_notMem.mpr fun i hi => ?_⟩⟩
    exact rfind_eq_none hfind (offset cs i) ((occurs_encode_iff hi.1).mpr hi)
  | some b =>
    obtain ⟨i, rfl, hgreatest⟩ := isGreatest_of_encode (rfind_eq_some hfind)
    refine ⟨i, ?_, .inl ⟨i, rfl, hgreatest⟩⟩
    exact (if_neg (Int.natCast_nonneg _).not_gt).trans (utf8IndexFromByte_offset hgreatest.1.1)

theorem indexOfFrom_encode (cs ds : List Char) {k : Nat} (hk : k ≤ cs.length) :
    ∃ r, indexOfFrom (encode cs) (encode ds) k = .ok r ∧
      Reports IsLeast {i | k ≤ i ∧ Occurs cs ds i} r := by
  have hfrom : strIndexOfFrom (encode cs) (encode ds) (offset cs k : Nat) =
      position (find (encode cs) (encode ds) (offset cs k)) := by
    have hle := offset_le_length cs k
    unfold strIndexOfFrom
    rw [if_neg (Int.natCast_nonneg _).not_gt]
    dsimp only
    rw [Int.toNat_natCast, if_neg (Nat.not_lt.mpr hle)]
  have hstart : indexOfFrom (encode cs) (encode ds) k =
      if position (find (encode cs) (encode ds) (offset cs k)) < 0 then .ok (-1)
      else utf8IndexFromByte (encode cs) (position (find (encode cs) (encode ds) (offset cs k))) := by
    unfold indexOfFrom
    rw [utf8ByteIndex_encode hk, ← hfrom]
    rfl
  rw [hstart]
  match hfind : find (encode cs) (encode ds) (offset cs k) with
  | none =>
    refine ⟨-1, rfl, .inr ⟨rfl, Set.eq_empty_iff_forall_notMem.mpr fun i hi => ?_⟩⟩
    exact find_eq_none hfind (offset cs i) (offset_le_offset hi.1 hi.2.1)
      ((occurs_encode_iff hi.2.1).mpr hi.2)
  | some b =>
    obtain ⟨i, rfl, hleast⟩ := isLeast_of_encode hk (find_eq_some hfind)
    refine ⟨i, ?_, .inl ⟨i, rfl, hleast⟩⟩
    exact (if_neg (Int.natCast_nonneg _).not_gt).trans (utf8IndexFromByte_offset hleast.1.2.1)

theorem indexOfFrom_error (cs ds : List Char) {start : Int} (h : start < 0 ∨ (cs.length : Int) < start) :
    indexOfFrom (encode cs) (encode ds) start = .error (.indexError
      s!"String.utf8ByteIndex: index {start} out of bounds (size {cs.length})") := by
  unfold indexOfFrom utf8ByteIndex
  rw [utf8LengthOf_encode, if_pos h]
  rfl

theorem ends_run {A : Type} {r : Except Failure A} {a : A} (h : r = .ok a) :
    Ends (run r) () (.ok a) () := by
  rw [h]
  exact ends_step _ _

/-- The scan has come to scalar value `k` and found these. -/
structure Scanned (cs ds : List Char) (found : List Nat) (k : Nat) : Prop where
  le_length : k ≤ cs.length
  leftmost : ∀ rest, Leftmost cs ds k rest → Leftmost cs ds 0 (found ++ rest)

theorem scanned_nil : Scanned cs ds [] 0 := ⟨Nat.zero_le _, fun _ h => h⟩

theorem Scanned.next {found : List Nat} (h : Scanned cs ds found k)
    (hleast : IsLeast {i | k ≤ i ∧ Occurs cs ds i} i) : Scanned cs ds (found ++ [i]) (i + ds.length) := by
  refine ⟨hleast.1.2.length_le, fun rest hrest => ?_⟩
  rw [List.append_assoc]
  exact h.leftmost _ (.next hleast hrest)

theorem Scanned.done {found : List Nat} (h : Scanned cs ds found k)
    (hnone : ∀ i, k ≤ i → ¬Occurs cs ds i) : Leftmost cs ds 0 found := by
  simpa using h.leftmost [] (.none hnone)

theorem spec_indicesOf (hds : ds ≠ []) : Spec (indicesOf (encode cs) (encode ds)) ()
    (fun r _ => ∃ found : List Nat, r = found.map (fun i : Nat => (i : Int)) ∧ Leftmost cs ds 0 found)
    (fun _ _ => False) := by
  have hlength : utf8Length (encode ds) = ds.length := congrArg _ (utf8LengthOf_encode ds)
  have hvalue : utf8Length (encode cs) = cs.length := congrArg _ (utf8LengthOf_encode cs)
  have hpos := List.length_pos_iff.mpr hds
  unfold indicesOf
  rw [if_neg (by omega)]
  refine spec_loop (fun locals _ => ∃ (found : List Nat) (k : Nat),
    locals = (found.map (fun i : Nat => (i : Int)), (k : Int)) ∧ Scanned cs ds found k)
    (fun locals _ => (cs.length - locals.2).toNat) ?_ ⟨[], 0, rfl, scanned_nil⟩
  rintro _ _ ⟨found, k, rfl, hscanned⟩
  dsimp only
  rw [hlength, hvalue]
  split
  next hroom =>
    obtain ⟨r, hr, hreports⟩ := indexOfFrom_encode cs ds hscanned.le_length
    refine (ends_run hr).spec_bind ?_
    rcases hreports with ⟨i, rfl, hleast⟩ | ⟨rfl, hnone⟩
    · rw [if_neg (Int.natCast_nonneg _).not_gt]
      have hnext := hscanned.next hleast
      have hki := hleast.1.1
      have hend := hnext.le_length
      refine (ends_pure _ _).spec ⟨⟨found ++ [i], i + ds.length, ?_, hnext⟩, ?_⟩
      · simp
      · dsimp only
        omega
    · refine (ends_pure _ _).spec ⟨found, rfl, hscanned.done fun i hki hi => ?_⟩
      exact Set.eq_empty_iff_forall_notMem.mp hnone i ⟨hki, hi⟩
  next hroom =>
    refine (ends_pure _ _).spec ⟨found, rfl, hscanned.done fun i hki hi => ?_⟩
    have hend := hi.length_le
    omega

theorem strSubstring_offset (cs : List Char) (k : Nat) :
    strSubstring (encode cs) (offset cs k : Nat) (strLength (encode cs)) = .ok (encode (cs.drop k)) := by
  have hle := offset_le_length cs k
  unfold strSubstring strLength
  rw [if_neg (by omega), Int.toNat_natCast, drop_offset, List.take_of_length_le]
  rw [← drop_offset, List.length_drop]
  omega

theorem spec_count (hds : ds ≠ []) : Spec (count (encode cs) (encode ds)) ()
    (fun r _ => ∃ found : List Nat, r = (found.length : Int) ∧ Leftmost cs ds 0 found)
    (fun _ _ => False) := by
  have hpos : 0 < (encode ds).length := List.length_pos_iff.mpr (encode_eq_nil_iff.not.mpr hds)
  unfold count
  rw [if_neg (by unfold strLength; omega)]
  refine spec_loop (fun locals _ => ∃ (found : List Nat) (k : Nat),
    locals = ((found.length : Int), (offset cs k : Int)) ∧ Scanned cs ds found k)
    (fun locals _ => (strLength (encode cs) - locals.2).toNat) ?_
    ⟨[], 0, rfl, scanned_nil⟩
  rintro _ _ ⟨found, k, rfl, hscanned⟩
  have hk := hscanned.le_length
  dsimp only
  split
  next hroom =>
    refine (ends_run (strSubstring_offset cs k)).spec_bind ?_
    unfold strIndexOf
    match hfind : find (encode (cs.drop k)) (encode ds) 0 with
    | none =>
      refine (ends_pure _ _).spec ⟨found, rfl, hscanned.done fun i hki hi => ?_⟩
      obtain ⟨m, rfl⟩ := Nat.exists_eq_add_of_le hki
      have hdrop := (occurs_drop hk).mpr hi
      exact find_eq_none hfind _ (Nat.zero_le _) ((occurs_encode_iff hdrop.1).mpr hdrop)
    | some b =>
      obtain ⟨i, rfl, hleast⟩ := isLeast_of_encode (k := 0) (Nat.zero_le _) (find_eq_some hfind)
      have hleast' := isLeast_drop hk (by simpa using hleast)
      have hnext := hscanned.next hleast'
      have hoffset := offset_occurs hleast'.1.2
      rw [offset_add cs k i] at hoffset
      have hend := offset_le_length cs (k + i + ds.length)
      change Spec (if ((offset (cs.drop k) i : Nat) : Int) < 0 then _ else _) _ _ _
      rw [if_neg (Int.natCast_nonneg _).not_gt]
      refine (ends_pure _ _).spec ⟨⟨found ++ [k + i], k + i + ds.length, ?_, hnext⟩, ?_⟩
      · rw [hoffset, List.length_append, List.length_singleton]
        simp [strLength]
      · simp only [strLength, position_some]
        omega
  next hroom =>
    refine (ends_pure _ _).spec ⟨found, rfl, hscanned.done fun i hki hi => ?_⟩
    have hend := ((occurs_encode_iff hi.1).mpr hi).length_le
    have hoffset := offset_le_offset hki hi.1
    unfold strLength at hroom
    omega

/-- The searches report scalar indices: the least, the greatest and the least from a start in the
    string on, and all that do not overlap from the left, as many as are counted. -/
theorem searches_scalars (cs ds : List Char) :
    (∃ r, indexOf (encode cs) (encode ds) = .ok r ∧ Reports IsLeast {i | Occurs cs ds i} r) ∧
    (∃ r, lastIndexOf (encode cs) (encode ds) = .ok r ∧ Reports IsGreatest {i | Occurs cs ds i} r) ∧
    (∀ start : Int, if 0 ≤ start ∧ start ≤ cs.length then
      ∃ r, indexOfFrom (encode cs) (encode ds) start = .ok r ∧
        Reports IsLeast {i | start ≤ i ∧ Occurs cs ds i} r
      else ∃ message, indexOfFrom (encode cs) (encode ds) start = .error (.indexError message)) ∧
    (ds ≠ [] → ∃ found : List Nat,
      Ends (indicesOf (encode cs) (encode ds)) () (.ok (found.map fun i : Nat => (i : Int))) () ∧
      Ends (count (encode cs) (encode ds)) () (.ok (found.length : Int)) () ∧
      Leftmost cs ds 0 found ∧ found.Pairwise (fun i j => i + ds.length ≤ j)) ∧
    ∀ i, Occurs cs ds i →
      substring (encode cs) i (i + length (encode ds)) = .ok (encode ds) := by
  refine ⟨indexOf_encode cs ds, lastIndexOf_encode cs ds, fun start => ?_, fun hds => ?_, fun i hi => ?_⟩
  · split
    next hstart =>
      obtain ⟨k, rfl⟩ := Int.eq_ofNat_of_zero_le hstart.1
      simpa using indexOfFrom_encode cs ds (k := k) (by omega)
    next hstart => exact ⟨_, indexOfFrom_error cs ds (by omega)⟩
  · obtain ⟨r, s, hends, hpost⟩ := @spec_indicesOf cs _ hds
    obtain ⟨r', s', hends', hpost'⟩ := @spec_count cs _ hds
    match r, r', hpost, hpost' with
    | .ok _, .ok _, ⟨found, rfl, hfound⟩, ⟨found', rfl, hfound'⟩ =>
      obtain rfl := hfound.unique hfound'
      exact ⟨found, hends, hends', hfound, hfound.apart.1⟩
  · have hsubstring := utf8Substring_encode hi
    unfold substring length utf8Length
    rwa [utf8LengthOf_encode, ← Nat.cast_add]

/-- A repeated letter of two bytes among others. -/
theorem searches_scalars_accents : ∃ found : List Nat,
    Ends (indicesOf (encode ['h', 'é', 'l', 'é']) (encode ['é'])) ()
    (.ok (found.map fun i : Nat => (i : Int))) () ∧
    Ends (count (encode ['h', 'é', 'l', 'é']) (encode ['é'])) () (.ok (found.length : Int)) () ∧
    Leftmost ['h', 'é', 'l', 'é'] ['é'] 0 found ∧ found.Pairwise (fun i j => i + ['é'].length ≤ j) :=
  (searches_scalars ['h', 'é', 'l', 'é'] ['é']).2.2.2.1 (List.cons_ne_nil _ _)

/-- A start behind the string is not answered with -1 but refused. -/
theorem indexOfFrom_behind : ¬∃ r, indexOfFrom (encode ['a']) (encode ['a']) 2 = .ok r ∧
    Reports IsLeast {i | 2 ≤ i ∧ Occurs ['a'] ['a'] i} r := by
  rintro ⟨r, hr, -⟩
  rw [indexOfFrom_error ['a'] ['a'] (.inr (by decide))] at hr
  cases hr

end zl.stdlib.text
