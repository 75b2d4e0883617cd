import Zl.Vm.Native.Utf8

namespace zl.vm.native.strings

section
variable {α : Type} {l needle : List α} {i j k : Nat}

/-- A list stands in another one from a place on. -/
def Occurs (l needle : List α) (i : Nat) : Prop := i ≤ l.length ∧ needle <+: l.drop i

theorem Occurs.length_le (h : Occurs l needle i) : i + needle.length ≤ l.length := by
  have hlength := h.2.length_le
  rw [List.length_drop] at hlength
  have hi := h.1
  omega

theorem occurs_drop (hk : k ≤ l.length) : Occurs (l.drop k) needle i ↔ Occurs l needle (k + i) := by
  rw [Occurs, Occurs, List.drop_drop, List.length_drop]
  refine and_congr_left fun _ => ?_
  omega

theorem isLeast_drop (hk : k ≤ l.length) (h : IsLeast {j | Occurs (l.drop k) needle j} i) :
    IsLeast {j | k ≤ j ∧ Occurs l needle j} (k + i) := by
  refine ⟨⟨Nat.le_add_right _ _, (occurs_drop hk).mp h.1⟩, fun j hj => ?_⟩
  obtain ⟨m, rfl⟩ := Nat.exists_eq_add_of_le hj.1
  exact Nat.add_le_add_left (h.2 ((occurs_drop hk).mpr hj.2)) k

/-- The leftmost occurrences that do not overlap, from a place on. -/
inductive Leftmost (l needle : List α) : Nat → List Nat → Prop where
  | none {k : Nat} : (∀ i, k ≤ i → ¬Occurs l needle i) → Leftmost l needle k []
  | next {k i : Nat} {rest : List Nat} : IsLeast {j | k ≤ j ∧ Occurs l needle j} i →
      Leftmost l needle (i + needle.length) rest → Leftmost l needle k (i :: rest)

theorem Leftmost.le {found : List Nat} (h : Leftmost l needle k found) (hi : i ∈ found) : k ≤ i := by
  induction h with
  | none => cases hi
  | next hleast _ ih =>
    rcases List.mem_cons.mp hi with rfl | hi
    · exact hleast.1.1
    · exact Nat.le_trans hleast.1.1 (Nat.le_trans (Nat.le_add_right _ _) (ih hi))

theorem Leftmost.unique {found found' : List Nat} (h : Leftmost l needle k found)
    (h' : Leftmost l needle k found') : found = found' := by
  induction h generalizing found' with
  | none hnone =>
    cases h' with
    | none => rfl
    | next hleast => exact absurd hleast.1.2 (hnone _ hleast.1.1)
  | next hleast _ ih =>
    cases h' with
    | none hnone => exact absurd hleast.1.2 (hnone _ hleast.1.1)
    | next hleast' hrest' =>
      obtain rfl := hleast.unique hleast'
      rw [ih hrest']

/-- The positions found are in order and apart, and each is an occurrence. -/
theorem Leftmost.apart {found : List Nat} (h : Leftmost l needle k found) :
    found.Pairwise (fun i j => i + needle.length ≤ j) ∧ ∀ i ∈ found, Occurs l needle i := by
  induction h with
  | none => exact ⟨List.Pairwise.nil, fun _ h => nomatch h⟩
  | next hleast hrest ih =>
    refine ⟨List.pairwise_cons.mpr ⟨fun _ => hrest.le, ih.1⟩, fun i hi => ?_⟩
    rcases List.mem_cons.mp hi with rfl | hi
    · exact hleast.1.2
    · exact ih.2 i hi

end

/-- A byte that starts no character. -/
def Tail (u : UInt8) : Prop := u &&& 0xC0 = 0x80

theorem tail_tailByte {x : Nat} (hx : x < 64) : Tail (tailByte x) := (tailByte_bits hx).1

theorem not_tail_ofNat {n : Nat} (hn : n < 256) (hlead : n < 0x80 ∨ 0xc0 ≤ n) : ¬Tail (UInt8.ofNat n) := by
  intro h
  have hbounds := (tailByte_toUInt8 n hn).1.mp h
  omega

theorem utf8EncodeChar_lead (c : Char) :
    ∃ u tail, String.utf8EncodeChar c = u :: tail ∧ ¬Tail u ∧ ∀ v ∈ tail, Tail v := by
  have hrange := scalar_range c
  have htail : ∀ x, Tail (tailByte (x % 64)) := fun x => tail_tailByte (Nat.mod_lt _ (by decide))
  rw [utf8EncodeChar_eq]
  split
  · exact ⟨_, [], rfl, not_tail_ofNat (by omega) (by omega), by simp⟩
  split
  · exact ⟨_, [_], rfl, not_tail_ofNat (by omega) (by omega), by simp [htail]⟩
  split
  · exact ⟨_, [_, _], rfl, not_tail_ofNat (by omega) (by omega), by simp [htail]⟩
  · exact ⟨_, [_, _, _], rfl, not_tail_ofNat (by omega) (by omega), by simp [htail]⟩

variable {cs ds : List Char} {i j k b : Nat}

/-- A well-formed string, from its scalar values. -/
def encode (cs : List Char) : Bytes := cs.flatMap String.utf8EncodeChar

@[simp] theorem encode_nil : encode [] = [] := rfl

@[simp] theorem encode_cons (c : Char) (cs : List Char) :
    encode (c :: cs) = String.utf8EncodeChar c ++ encode cs := rfl

@[simp] theorem encode_append (cs ds : List Char) : encode (cs ++ ds) = encode cs ++ encode ds :=
  List.flatMap_append

theorem encode_eq_nil_iff : encode cs = [] ↔ cs = [] := by
  cases cs with
  | nil => simp
  | cons c cs => simp [String.utf8EncodeChar_ne_nil]

theorem encode_prefix_iff : encode ds <+: encode cs ↔ ds <+: cs := by
  induction ds generalizing cs with
  | nil => simp
  | cons d ds ih =>
    cases cs with
    | nil => simp [String.utf8EncodeChar_ne_nil]
    | cons c cs =>
      constructor
      · rintro ⟨rest, hrest⟩
        rw [encode_cons, encode_cons, List.append_assoc] at hrest
        -- what a walk takes first is both encodings
        have hd : utf8Next (encode (c :: cs)) 0 = _ :=
          utf8Next_scalar (c := d) (by rw [List.drop_zero, encode_cons, ← hrest])
        have hc : utf8Next (encode (c :: cs)) 0 = _ :=
          utf8Next_scalar (c := c) (by rw [List.drop_zero, encode_cons])
        have hcode : d.toNat = c.toNat := congrArg Utf8Char.cp (hd.symm.trans hc)
        obtain rfl : d = c := Char.toNat_inj.mp hcode
        rw [List.append_cancel_left_eq] at hrest
        exact List.cons_prefix_cons.mpr ⟨rfl, ih.mp ⟨rest, hrest⟩⟩
      · intro h
        obtain ⟨rfl, hrest⟩ := List.cons_prefix_cons.mp h
        rw [encode_cons, encode_cons, List.prefix_append_right_inj]
        exact ih.mpr hrest

/-- The byte at which a scalar value starts. -/
def offset (cs : List Char) (i : Nat) : Nat := (encode (cs.take i)).length

theorem drop_offset (cs : List Char) (i : Nat) : (encode cs).drop (offset cs i) = encode (cs.drop i) := by
  rw [← List.take_append_drop i cs, encode_append, List.take_append_drop]
  exact List.drop_left

theorem offset_length (cs : List Char) : offset cs cs.length = (encode cs).length := by
  rw [offset, List.take_length]

theorem offset_le_length (cs : List Char) (i : Nat) : offset cs i ≤ (encode cs).length := by
  rw [← List.take_append_drop i cs, encode_append, List.length_append, List.take_append_drop]
  exact Nat.le_add_right _ _

theorem offset_add (cs : List Char) (i j : Nat) :
    offset cs (i + j) = offset cs i + offset (cs.drop i) j := by
  rw [offset, List.take_add, encode_append, List.length_append]
  rfl

theorem offset_lt_offset (hij : i < j) (hj : j ≤ cs.length) : offset cs i < offset cs j := by
  obtain ⟨n, rfl⟩ : ∃ n, j = i + (n + 1) := ⟨j - i - 1, by omega⟩
  rw [offset_add]
  refine Nat.lt_add_of_pos_right (List.length_pos_iff.mpr ?_)
  rw [Ne, encode_eq_nil_iff, List.take_eq_nil_iff, List.drop_eq_nil_iff]
  omega

theorem offset_le_offset (hij : i ≤ j) (hj : j ≤ cs.length) : offset cs i ≤ offset cs j := by
  rcases Nat.eq_or_lt_of_le hij with rfl | hlt
  · exact Nat.le_refl _
  · exact Nat.le_of_lt (offset_lt_offset hlt hj)

theorem exists_offset {u : UInt8} {rest : Bytes} (h : (encode cs).drop b = u :: rest) (hu : ¬Tail u) :
    ∃ i ≤ cs.length, b = offset cs i := by
  induction cs generalizing b with
  | nil => simp at h
  | cons c cs ih =>
    obtain ⟨v, tail, hc, -, htail⟩ := utf8EncodeChar_lead c
    by_cases hlong : (String.utf8EncodeChar c).length ≤ b
    · obtain ⟨n, rfl⟩ := Nat.exists_eq_add_of_le hlong
      rw [encode_cons, ← List.drop_drop, List.drop_left] at h
      obtain ⟨i, hi, rfl⟩ := ih h
      refine ⟨i + 1, Nat.succ_le_succ hi, ?_⟩
      simp only [offset, List.take_succ_cons, encode_cons, List.length_append]
    · cases b with
      | zero => exact ⟨0, Nat.zero_le _, rfl⟩
      | succ b =>
        rw [hc, List.length_cons] at hlong
        rw [encode_cons, hc, List.cons_append, List.drop_succ_cons,
          List.drop_append_of_le_length (by omega)] at h
        have hmem : u ∈ tail.drop b := by
          cases hdrop : tail.drop b with
          | nil =>
            rw [List.drop_eq_nil_iff] at hdrop
            omega
          | cons w ws =>
            rw [hdrop, List.cons_append] at h
            rw [(List.cons.inj h).1]
            exact List.mem_cons_self
        exact absurd (htail u (List.mem_of_mem_drop hmem)) hu

theorem occurs_iff_offset (hi : i ≤ cs.length) :
    encode ds <+: (encode cs).drop (offset cs i) ↔ Occurs cs ds i := by
  rw [drop_offset, encode_prefix_iff, Occurs, and_iff_right hi]

theorem exists_occurs (hds : ds ≠ []) (h : encode ds <+: (encode cs).drop b) :
    ∃ i, b = offset cs i ∧ Occurs cs ds i := by
  obtain ⟨rest, hrest⟩ := h
  cases ds with
  | nil => exact absurd rfl hds
  | cons d ds =>
    obtain ⟨u, tail, hd, hu, -⟩ := utf8EncodeChar_lead d
    have hdrop := hrest.symm
    rw [encode_cons, hd, List.cons_append, List.cons_append] at hdrop
    obtain ⟨i, hi, rfl⟩ := exists_offset hdrop hu
    exact ⟨i, rfl, (occurs_iff_offset hi).mp ⟨rest, hrest⟩⟩

section
variable {s text : Bytes} {pos found : Nat}

/-- `String.rfind`: where a text stands in a string for the last time. -/
def rfind (s text : Bytes) : Option Nat :=
  (List.range (s.length + 1)).reverse.find? fun i => text.isPrefixOf (s.drop i)

/-- A position as the natives return it, -1 for none. -/
def position : Option Nat → Int
  | some pos => pos
  | none => -1

@[simp] theorem position_some (pos : Nat) : position (some pos) = pos := rfl

def strLength (s : Bytes) : Int := s.length

def strIndexOf (s needle : Bytes) : Int := position (find s needle 0)

def strLastIndexOf (s needle : Bytes) : Int := position (rfind s needle)

def strIndexOfFrom (s needle : Bytes) (start : Int) : Int :=
  let start := if start < 0 then 0 else start
  if s.length < start.toNat then -1 else position (find s needle start.toNat)

def strSubstring (s : Bytes) (start stop : Int) : Except Failure Bytes :=
  if start < 0 ∨ stop < start ∨ s.length < stop.toNat then
    .error (.runtimeError
      s!"String.substring: invalid range [{start}, {stop}) for a string of length {s.length}")
  else .ok ((s.drop start.toNat).take (stop - start).toNat)

theorem find_eq_some (h : find s text pos = some found) :
    IsLeast {b | pos ≤ b ∧ Occurs s text b} found := by
  obtain ⟨hstarts, -, hbefore⟩ := List.find?_range'_eq_some.mp h
  have hbounds := find_bounds h
  refine ⟨⟨hbounds.1, by omega, by simpa using hstarts⟩, fun b ⟨hb, hoccurs⟩ => ?_⟩
  by_contra hlt
  have hnot := hbefore b hb (by omega)
  rw [List.isPrefixOf_iff_prefix.mpr hoccurs.2] at hnot
  cases hnot

theorem find_eq_none (h : find s text pos = none) (b : Nat) (hb : pos ≤ b) : ¬Occurs s text b := by
  intro hoccurs
  have hnot := List.find?_eq_none.mp h b (by
    rw [List.mem_range'_1]
    have hlength := hoccurs.1
    omega)
  simp [hoccurs.2] at hnot

theorem rfind_eq_some (h : rfind s text = some found) : IsGreatest {b | Occurs s text b} found := by
  obtain ⟨hstarts, front, back, hrange, hfront⟩ := List.find?_eq_some_iff_append.mp h
  have hmem : found ∈ List.range (s.length + 1) :=
    List.mem_reverse.mp (List.mem_of_find?_eq_some h)
  rw [List.mem_range] at hmem
  refine ⟨⟨by omega, by simpa using hstarts⟩, fun b hoccurs => ?_⟩
  by_contra hgt
  have hmem' : b ∈ (List.range (s.length + 1)).reverse := by
    rw [List.mem_reverse, List.mem_range]
    have hlength := hoccurs.1
    omega
  have hsorted : (List.range (s.length + 1)).reverse.Pairwise (· > ·) := by
    rw [List.pairwise_reverse]
    exact List.pairwise_lt_range
  rw [hrange] at hmem' hsorted
  rcases List.mem_append.mp hmem' with hmem' | hmem'
  · have hnot := hfront b hmem'
    rw [List.isPrefixOf_iff_prefix.mpr hoccurs.2] at hnot
    cases hnot
  · have hback := (List.pairwise_append.mp hsorted).2.1
    rcases List.mem_cons.mp hmem' with rfl | hmem'
    · omega
    · have hlt := (List.pairwise_cons.mp hback).1 b hmem'
      omega

theorem rfind_eq_none (h : rfind s text = none) (b : Nat) : ¬Occurs s text b := by
  intro hoccurs
  have hnot := List.find?_eq_none.mp h b (by
    rw [List.mem_reverse, List.mem_range]
    have hlength := hoccurs.1
    omega)
  simp [hoccurs.2] at hnot

end

theorem occurs_encode_iff (hi : i ≤ cs.length) :
    Occurs (encode cs) (encode ds) (offset cs i) ↔ Occurs cs ds i := by
  rw [← occurs_iff_offset hi, Occurs, and_iff_right (offset_le_length cs i)]

theorem isLeast_of_encode (hk : k ≤ cs.length)
    (h : IsLeast {b | offset cs k ≤ b ∧ Occurs (encode cs) (encode ds) b} b) :
    ∃ i, b = offset cs i ∧ IsLeast {i | k ≤ i ∧ Occurs cs ds i} i := by
  obtain ⟨⟨hpos, hoccurs⟩, hleast⟩ := h
  by_cases hds : ds = []
  · -- the empty text stands where the search starts
    subst hds
    refine ⟨k, Nat.le_antisymm (hleast ⟨Nat.le_refl _, offset_le_length cs k, List.nil_prefix⟩) hpos,
      ⟨Nat.le_refl _, hk, List.nil_prefix⟩, fun j hj => hj.1⟩
  · obtain ⟨i, rfl, hi⟩ := exists_occurs hds hoccurs.2
    refine ⟨i, rfl, ⟨?_, hi⟩, fun j hj => ?_⟩
    · by_contra hlt
      have := offset_lt_offset (Nat.lt_of_not_le hlt) hk
      omega
    · by_contra hlt
      have hle := hleast ⟨offset_le_offset hj.1 hj.2.1, (occurs_encode_iff hj.2.1).mpr hj.2⟩
      have := offset_lt_offset (Nat.lt_of_not_le hlt) hi.1
      omega

theorem isGreatest_of_encode (h : IsGreatest {b | Occurs (encode cs) (encode ds) b} b) :
    ∃ i, b = offset cs i ∧ IsGreatest {i | Occurs cs ds i} i := by
  obtain ⟨hoccurs, hgreatest⟩ := h
  by_cases hds : ds = []
  · -- the empty text stands at the end
    subst hds
    refine ⟨cs.length, Nat.le_antisymm ?_ ?_, ⟨Nat.le_refl _, List.nil_prefix⟩, fun j hj => hj.1⟩
    · rw [offset_length]
      exact hoccurs.1
    · rw [offset_length]
      exact hgreatest ⟨Nat.le_refl _, List.nil_prefix⟩
  · obtain ⟨i, rfl, hi⟩ := exists_occurs hds hoccurs.2
    refine ⟨i, rfl, hi, fun j hj => ?_⟩
    by_contra hlt
    have hle := hgreatest ((occurs_encode_iff hj.1).mpr hj)
    have := offset_lt_offset (Nat.lt_of_not_le hlt) hj.1
    omega

theorem offset_occurs (h : Occurs cs ds i) :
    offset cs (i + ds.length) = offset cs i + (encode ds).length := by
  obtain ⟨rest, hrest⟩ := h.2
  have htake : offset (cs.drop i) ds.length = (encode ds).length := by
    rw [offset, ← hrest, List.take_left]
  rw [offset_add, htake]

theorem utf8Walk_encode (cs : List Char) : utf8Walk (encode cs) 0 = cs.map String.utf8EncodeChar :=
  utf8Walk_scalars rfl

theorem utf8LengthOf_encode (cs : List Char) : utf8LengthOf (encode cs) = cs.length := by
  rw [utf8LengthOf_eq, utf8Walk_encode, List.length_map]

theorem flatten_take_walk (cs : List Char) (i : Nat) :
    ((utf8Walk (encode cs) 0).take i).flatten = encode (cs.take i) := by
  rw [utf8Walk_encode, ← List.map_take, encode, List.flatMap_def]

theorem utf8ByteIndex_encode (hi : i ≤ cs.length) :
    utf8ByteIndex (encode cs) i = .ok (offset cs i : Nat) := by
  rw [utf8ByteIndex_eq (by rw [utf8LengthOf_encode]; exact hi), flatten_take_walk]
  rfl

theorem utf8IndexFromByte_offset (hi : i ≤ cs.length) :
    utf8IndexFromByte (encode cs) (offset cs i : Nat) = .ok i := by
  obtain ⟨b, hb, hindex⟩ := utf8IndexFromByte_utf8ByteIndex (s := encode cs) (k := i)
    (by rw [utf8LengthOf_encode]; exact hi)
  rw [utf8ByteIndex_encode hi] at hb
  cases hb
  exact hindex

theorem utf8Substring_encode (h : Occurs cs ds i) :
    utf8Substring (encode cs) i ((i + ds.length : Nat) : Int) = .ok (encode ds) := by
  obtain ⟨rest, hrest⟩ := h.2
  rw [utf8Substring_eq (Nat.le_add_right _ _) (by rw [utf8LengthOf_encode]; exact h.length_le),
    utf8Walk_encode, List.drop_take, Nat.add_sub_cancel_left, ← List.map_drop, ← List.map_take, ← hrest,
    List.take_left, encode, List.flatMap_def]

end zl.vm.native.strings
