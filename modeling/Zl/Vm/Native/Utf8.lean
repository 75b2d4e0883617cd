import Mathlib
import Zl.Vm.Native.Strings

namespace zl.vm.native.strings

variable {s rest : Bytes} {i k cp need : Nat} {u : UInt8} {c : Char}

/-- The continuation byte of six bits. -/
def tailByte (x : Nat) : UInt8 := UInt8.ofNat (x + 0x80)

theorem leadByte_toUInt8 : ∀ n < 256, leadByte n.toUInt8 =
    if n < 0xc0 then none else if n < 0xe0 then some (2, n - 0xc0)
    else if n < 0xf0 then some (3, n - 0xe0) else if n < 0xf8 then some (4, n - 0xf0) else none := by
  decide +kernel

theorem leadByte_two {x : Nat} (hx : x < 32) : leadByte (UInt8.ofNat (x + 0xc0)) = some (2, x) := by
  have h := leadByte_toUInt8 (x + 0xc0) (by omega)
  rwa [if_neg (by omega), if_pos (by omega), Nat.add_sub_cancel] at h

theorem leadByte_three {x : Nat} (hx : x < 16) : leadByte (UInt8.ofNat (x + 0xe0)) = some (3, x) := by
  have h := leadByte_toUInt8 (x + 0xe0) (by omega)
  rwa [if_neg (by omega), if_neg (by omega), if_pos (by omega), Nat.add_sub_cancel] at h

theorem leadByte_four {x : Nat} (hx : x < 8) : leadByte (UInt8.ofNat (x + 0xf0)) = some (4, x) := by
  have h := leadByte_toUInt8 (x + 0xf0) (by omega)
  rwa [if_neg (by omega), if_neg (by omega), if_neg (by omega), if_pos (by omega),
    Nat.add_sub_cancel] at h

theorem leadByte_eq_some (h : leadByte u = some (need, cp)) :
    0x80 ≤ u ∧ ((need = 2 ∧ cp < 32 ∧ u = UInt8.ofNat (cp + 0xc0)) ∨
      (need = 3 ∧ cp < 16 ∧ u = UInt8.ofNat (cp + 0xe0)) ∨
      (need = 4 ∧ cp < 8 ∧ u = UInt8.ofNat (cp + 0xf0))) := by
  obtain ⟨n, hn, rfl⟩ : ∃ n < 256, u = UInt8.ofNat n := ⟨u.toNat, u.toNat_lt, UInt8.ofNat_toNat.symm⟩
  have hbyte : 0xc0 ≤ n → 0x80 ≤ UInt8.ofNat n := fun hge => by
    rw [UInt8.le_iff_toNat_le, UInt8.toNat_ofNat_of_lt' hn]
    exact Nat.le_trans (by decide) hge
  have htable := (leadByte_toUInt8 n hn).symm.trans h
  split at htable
  · cases htable
  · next hlow =>
    refine ⟨hbyte (Nat.not_lt.mp hlow), ?_⟩
    split at htable
    · next htwo =>
      cases htable
      exact .inl ⟨rfl, by omega, by rw [Nat.sub_add_cancel (by omega)]⟩
    split at htable
    · next hthree =>
      cases htable
      exact .inr (.inl ⟨rfl, by omega, by rw [Nat.sub_add_cancel (by omega)]⟩)
    split at htable
    · next hfour =>
      cases htable
      exact .inr (.inr ⟨rfl, by omega, by rw [Nat.sub_add_cancel (by omega)]⟩)
    · cases htable

theorem tailByte_toUInt8 : ∀ n < 256, (n.toUInt8 &&& 0xC0 = 0x80 ↔ 0x80 ≤ n ∧ n < 0xc0) ∧
    (n.toUInt8 &&& 0x3F).toNat = n % 64 := by
  decide +kernel

theorem tailByte_bits {x : Nat} (hx : x < 64) :
    tailByte x &&& 0xC0 = 0x80 ∧ (tailByte x &&& 0x3F).toNat = x := by
  obtain ⟨hmark, hbits⟩ := tailByte_toUInt8 (x + 0x80) (by omega)
  refine ⟨hmark.mpr ⟨by omega, by omega⟩, hbits.trans ?_⟩
  omega

theorem eq_tailByte (h : u &&& 0xC0 = 0x80) : (u &&& 0x3F).toNat < 64 ∧
    u = tailByte (u &&& 0x3F).toNat := by
  obtain ⟨n, hn, rfl⟩ : ∃ n < 256, u = n.toUInt8 := ⟨u.toNat, u.toNat_lt, UInt8.ofNat_toNat.symm⟩
  obtain ⟨hmark, hbits⟩ := tailByte_toUInt8 n hn
  obtain ⟨hlow, hhigh⟩ := hmark.mp h
  rw [hbits]
  refine ⟨Nat.mod_lt _ (by decide), ?_⟩
  rw [tailByte, show n % 64 + 0x80 = n by omega]

theorem continuations_cons {x : Nat} (hx : x < 64) :
    continuations (tailByte x :: rest) cp = continuations rest (cp * 64 + x) := by
  obtain ⟨hmark, hbits⟩ := tailByte_bits hx
  rw [continuations, if_neg (by simpa using hmark), hbits, ← Nat.shiftLeft_add_eq_or_of_lt (i := 6) hx,
    Nat.shiftLeft_eq]

theorem continuations_cons_eq_some {r : Nat} (h : continuations (u :: rest) cp = some r) :
    ∃ x < 64, u = tailByte x ∧ continuations rest (cp * 64 + x) = some r := by
  have hmark : u &&& 0xC0 = 0x80 := by
    by_contra hnot
    rw [continuations, if_pos hnot] at h
    cases h
  obtain ⟨hlt, hu⟩ := eq_tailByte hmark
  refine ⟨_, hlt, hu, ?_⟩
  rw [hu] at h
  rwa [continuations_cons hlt] at h

theorem utf8Next_cons (h : s.drop i = u :: rest) : utf8Next s i =
    if u < 0x80 then ⟨[u], u.toNat, i + 1⟩
    else match leadByte u with
      | none => ⟨[u], u.toNat, i + 1⟩
      | some (need, cp) =>
        if rest.length + 1 < need then ⟨[u], u.toNat, i + 1⟩
        else match continuations (rest.take (need - 1)) cp with
          | none => ⟨[u], u.toNat, i + 1⟩
          | some cp =>
            if notScalar need cp then ⟨[u], u.toNat, i + 1⟩ else ⟨(u :: rest).take need, cp,
              i + need⟩ := by
  have hget : s.getD i 0 = u := by
    have hhead := congrArg List.head? h
    rw [List.head?_drop] at hhead
    simp [hhead]
  have hlength : s.length = i + (rest.length + 1) := by
    have hlength := congrArg List.length h
    rw [List.length_drop, List.length_cons] at hlength
    omega
  have hrest : s.drop (i + 1) = rest := by
    rw [← List.drop_drop, h]
    rfl
  have hone : oneByte s i = ⟨[u], u.toNat, i + 1⟩ := by
    rw [oneByte, h, hget]
    rfl
  have hshort : ∀ need, s.length < i + need ↔ rest.length + 1 < need := by omega
  have hnext := utf8Next.eq_def s i
  simp only [hget, hone, hrest, h, hshort] at hnext
  exact hnext

theorem utf8Next_ascii (h : s.drop i = u :: rest) (hascii : u < 0x80) :
    utf8Next s i = ⟨[u], u.toNat, i + 1⟩ := by
  rw [utf8Next_cons h, if_pos hascii]

theorem utf8Next_multibyte {tail : Bytes} {x : Nat} (h : s.drop i = u :: (tail ++ rest))
    (hlead : leadByte u = some (tail.length + 1, x)) (hcont : continuations tail x = some cp)
    (hscalar : notScalar (tail.length + 1) cp = false) :
    utf8Next s i = ⟨u :: tail, cp, i + (tail.length + 1)⟩ := by
  have hlong : ¬ (tail ++ rest).length + 1 < tail.length + 1 := by simp
  rw [utf8Next_cons h, if_neg (UInt8.not_lt.mpr (leadByte_eq_some hlead).1), hlead]
  dsimp only
  rw [if_neg hlong, Nat.add_sub_cancel, List.take_left, hcont]
  simp [hscalar]

theorem utf8EncodeChar_eq (c : Char) : String.utf8EncodeChar c =
    if c.toNat ≤ 0x7f then [UInt8.ofNat c.toNat]
    else if c.toNat ≤ 0x7ff then [UInt8.ofNat (c.toNat / 64 + 0xc0), tailByte (c.toNat % 64)]
    else if c.toNat ≤ 0xffff then
      [UInt8.ofNat (c.toNat / 4096 + 0xe0), tailByte (c.toNat / 64 % 64), tailByte (c.toNat % 64)]
    else [UInt8.ofNat (c.toNat / 262144 + 0xf0), tailByte (c.toNat / 4096 % 64),
      tailByte (c.toNat / 64 % 64), tailByte (c.toNat % 64)] := by
  have hrange : c.toNat < 0x110000 := by
    have h := c.valid
    simp only [UInt32.isValidChar, Nat.isValidChar] at h
    unfold Char.toNat
    omega
  change (if c.toNat ≤ 0x7f then [UInt8.ofNat c.toNat]
    else if c.toNat ≤ 0x7ff then [UInt8.ofNat (c.toNat / 64 % 32 + 0xc0), tailByte (c.toNat % 64)]
    else if c.toNat ≤ 0xffff then
      [UInt8.ofNat (c.toNat / 4096 % 16 + 0xe0), tailByte (c.toNat / 64 % 64), tailByte (c.toNat % 64)]
    else [UInt8.ofNat (c.toNat / 262144 % 8 + 0xf0), tailByte (c.toNat / 4096 % 64),
      tailByte (c.toNat / 64 % 64), tailByte (c.toNat % 64)]) = _
  split
  · rfl
  split
  · rw [Nat.mod_eq_of_lt (b := 32) (by omega)]
  split
  · rw [Nat.mod_eq_of_lt (b := 16) (by omega)]
  · rw [Nat.mod_eq_of_lt (b := 8) (by omega)]

theorem scalar_range (c : Char) : c.toNat ≤ 0x10ffff ∧ (c.toNat < 0xd800 ∨ 0xdfff < c.toNat) := by
  have h := c.valid
  simp only [UInt32.isValidChar, Nat.isValidChar] at h
  unfold Char.toNat
  omega

theorem notScalar_eq_false (hmin : (if need = 2 then 0x80 else if need =
      3 then 0x800 else 0x10000) ≤ c.toNat) :
    notScalar need c.toNat = false := by
  have hrange := scalar_range c
  simp only [notScalar, decide_eq_false_iff_not]
  omega

/-- The walk takes the encoding of a scalar value as one character. -/
theorem utf8Next_scalar (h : s.drop i = String.utf8EncodeChar c ++ rest) :
    utf8Next s i = ⟨String.utf8EncodeChar c, c.toNat, i + (String.utf8EncodeChar c).length⟩ := by
  have hrange := scalar_range c
  rw [utf8EncodeChar_eq] at h ⊢
  split at h
  · next hone =>
    have hsmall : (UInt8.ofNat c.toNat).toNat = c.toNat := by
      rw [UInt8.toNat_ofNat', Nat.mod_eq_of_lt (by omega)]
    have hascii : UInt8.ofNat c.toNat < 0x80 := by
      rw [UInt8.lt_iff_toNat_lt, hsmall]
      exact Nat.lt_succ_of_le hone
    rw [utf8Next_ascii h hascii, if_pos hone, hsmall]
    rfl
  split at h
  · next hone htwo =>
    have hvalue : c.toNat / 64 * 64 + c.toNat % 64 = c.toNat := by omega
    rw [if_neg hone, if_pos htwo]
    apply utf8Next_multibyte h (leadByte_two (by omega)) _ (notScalar_eq_false (by simp; omega))
    rw [continuations_cons (by omega), hvalue, continuations]
  split at h
  · next hone htwo hthree =>
    have hvalue : (c.toNat / 4096 * 64 + c.toNat / 64 % 64) * 64 + c.toNat % 64 = c.toNat := by omega
    rw [if_neg hone, if_neg htwo, if_pos hthree]
    apply utf8Next_multibyte h (leadByte_three (by omega)) _ (notScalar_eq_false (by simp; omega))
    rw [continuations_cons (by omega), continuations_cons (by omega), hvalue, continuations]
  · next hone htwo hthree =>
    have hvalue : ((c.toNat / 262144 * 64 + c.toNat / 4096 % 64) * 64 + c.toNat / 64 % 64) * 64 +
      c.toNat % 64 = c.toNat := by omega
    rw [if_neg hone, if_neg htwo, if_neg hthree]
    apply utf8Next_multibyte h (leadByte_four (by omega)) _ (notScalar_eq_false (by simp; omega))
    rw [continuations_cons (by omega), continuations_cons (by omega), continuations_cons (by omega),
      hvalue, continuations]

/-- A sequence that passes the checks is the encoding of a scalar value: none that is too long for its
    value, of a surrogate or beyond the last code point passes. -/
theorem scalar_of_multibyte {tail : Bytes} {x : Nat} (hlead : leadByte u = some (tail.length + 1, x))
    (hcont : continuations tail x = some cp) (hscalar : notScalar (tail.length + 1) cp = false) :
    ∃ c : Char, String.utf8EncodeChar c = u :: tail := by
  simp only [notScalar, decide_eq_false_iff_not] at hscalar
  have hvalid : cp.isValidChar := by
    unfold Nat.isValidChar
    omega
  refine ⟨Char.ofNat cp, ?_⟩
  have hcp : (Char.ofNat cp).toNat = cp := by
    rw [Char.ofNat, dif_pos hvalid]
    rfl
  rw [utf8EncodeChar_eq, hcp]
  rcases (leadByte_eq_some hlead).2 with ⟨hneed, hx, rfl⟩ | ⟨hneed, hx, rfl⟩ | ⟨hneed, hx, rfl⟩
  · obtain ⟨a, rfl⟩ := List.length_eq_one_iff.mp (Nat.succ.inj hneed)
    obtain ⟨y, hy, rfl, hy'⟩ := continuations_cons_eq_some hcont
    cases hy'
    simp at hscalar
    rw [if_neg (by omega), if_pos (by omega), show (x * 64 + y) / 64 = x by omega,
      show (x * 64 + y) % 64 = y by omega]
  · obtain ⟨a, b, rfl⟩ := List.length_eq_two.mp (Nat.succ.inj hneed)
    obtain ⟨y, hy, rfl, hy'⟩ := continuations_cons_eq_some hcont
    obtain ⟨z, hz, rfl, hz'⟩ := continuations_cons_eq_some hy'
    cases hz'
    simp at hscalar
    rw [if_neg (by omega), if_neg (by omega), if_pos (by omega),
      show ((x * 64 + y) * 64 + z) / 4096 = x by omega,
      show ((x * 64 + y) * 64 + z) / 64 % 64 = y by omega,
      show ((x * 64 + y) * 64 + z) % 64 = z by omega]
  · obtain ⟨a, b, c, rfl⟩ := List.length_eq_three.mp (Nat.succ.inj hneed)
    obtain ⟨y, hy, rfl, hy'⟩ := continuations_cons_eq_some hcont
    obtain ⟨z, hz, rfl, hz'⟩ := continuations_cons_eq_some hy'
    obtain ⟨w, hw, rfl, hw'⟩ := continuations_cons_eq_some hz'
    cases hw'
    simp at hscalar
    rw [if_neg (by omega), if_neg (by omega), if_neg (by omega),
      show (((x * 64 + y) * 64 + z) * 64 + w) / 262144 = x by omega,
      show (((x * 64 + y) * 64 + z) * 64 + w) / 4096 % 64 = y by omega,
      show (((x * 64 + y) * 64 + z) * 64 + w) / 64 % 64 = z by omega,
      show (((x * 64 + y) * 64 + z) * 64 + w) % 64 = w by omega]

/-- What the walk takes as one character is the encoding of a scalar value or a single byte. -/
theorem utf8Next_scalar_or_byte (h : s.drop i = u :: rest) :
    (∃ c, String.utf8EncodeChar c <+: u :: rest) ∨ utf8Next s i = ⟨[u], u.toNat, i + 1⟩ := by
  rw [utf8Next_cons h]
  split
  · exact .inr rfl
  split
  · exact .inr rfl
  next need x hlead =>
    split
    · exact .inr rfl
    next hlong =>
      split
      · exact .inr rfl
      next cp hcont =>
        split
        · exact .inr rfl
        next hscalar =>
          have hneed : (rest.take (need - 1)).length + 1 = need := by
            have := leadByte_pos hlead
            rw [List.length_take]
            omega
          rw [← hneed] at hlead hscalar
          obtain ⟨c, hc⟩ := scalar_of_multibyte hlead hcont (by simpa using hscalar)
          refine .inl ⟨c, ?_⟩
          rw [hc]
          exact List.cons_prefix_cons.mpr ⟨rfl, List.take_prefix _ _⟩

theorem utf8Next_byte (hi : i < s.length) (h : ∀ c, ¬ String.utf8EncodeChar c <+: s.drop i) :
    utf8Next s i = ⟨[s[i]], s[i].toNat, i + 1⟩ := by
  have hdrop := List.drop_eq_getElem_cons hi
  rcases utf8Next_scalar_or_byte hdrop with ⟨c, hc⟩ | hbyte
  · exact absurd (hdrop ▸ hc) (h c)
  · exact hbyte

theorem utf8Next_take (hi : i < s.length) : (utf8Next s i).bytes ++
    s.drop (utf8Next s i).next = s.drop i ∧ (utf8Next s i).next = i + (utf8Next s i).bytes.length := by
  by_cases h : ∃ c, String.utf8EncodeChar c <+: s.drop i
  · obtain ⟨c, rest, hrest⟩ := h
    rw [utf8Next_scalar hrest.symm, ← List.drop_drop, ← hrest, List.drop_left]
    exact ⟨rfl, rfl⟩
  · rw [utf8Next_byte hi (not_exists.mp h)]
    exact ⟨(List.drop_eq_getElem_cons hi).symm, rfl⟩

theorem utf8Walk_flatten (s : Bytes) (i : Nat) : (utf8Walk s i).flatten = s.drop i := by
  fun_induction utf8Walk with
  | case1 i hi ih => rw [List.flatten_cons, ih, (utf8Next_take hi).1]
  | case2 i hi => rw [List.flatten_nil, List.drop_eq_nil_of_le (by omega)]

theorem utf8Walk_of_lt (hi : i < s.length) :
    utf8Walk s i = (utf8Next s i).bytes :: utf8Walk s (utf8Next s i).next := by
  rw [utf8Walk, if_pos hi]

theorem utf8Walk_of_le (hi : s.length ≤ i) : utf8Walk s i = [] := by
  rw [utf8Walk, if_neg (Nat.not_lt.mpr hi)]

theorem utf8LengthFrom_eq (s : Bytes) (i n : Nat) : utf8LengthFrom s i n = n + (utf8Walk s i).length := by
  fun_induction utf8LengthFrom with
  | case1 i n hi ih =>
    rw [ih, utf8Walk_of_lt hi, List.length_cons]
    omega
  | case2 i n hi => rw [utf8Walk_of_le (Nat.not_lt.mp hi), List.length_nil, Nat.add_zero]

theorem utf8LengthOf_eq (s : Bytes) : utf8LengthOf s = (utf8Walk s 0).length := by
  rw [utf8LengthOf, utf8LengthFrom_eq, Nat.zero_add]

theorem utf8SubstringFrom_eq (s : Bytes) (start stop i idx : Nat) (out : Bytes) :
    utf8SubstringFrom s start stop i idx out =
      out ++ (((utf8Walk s i).take (stop - idx)).drop (start - idx)).flatten := by
  fun_induction utf8SubstringFrom with
  | case1 i idx out hi ih =>
    obtain ⟨k, hk⟩ : ∃ k, stop - idx = k + 1 := ⟨stop - idx - 1, by omega⟩
    rw [utf8Walk_of_lt hi.1, hk, List.take_succ_cons]
    rw [dite_eq_ite, show stop - (idx + 1) = k by omega] at ih
    rw [ih]
    by_cases hstart : start ≤ idx
    · rw [if_pos hstart, show start - idx = 0 by omega, show start - (idx + 1) = 0 by omega,
        List.drop_zero, List.drop_zero, List.flatten_cons, List.append_assoc]
    · obtain ⟨m, hm⟩ : ∃ m, start - idx = m + 1 := ⟨start - idx - 1, by omega⟩
      rw [if_neg hstart, hm, List.drop_succ_cons, show start - (idx + 1) = m by omega]
  | case2 i idx out hi =>
    rcases Nat.lt_or_ge i s.length with hlt | hge
    · rw [show stop - idx = 0 by omega]
      simp
    · rw [utf8Walk_of_le hge]
      simp

theorem utf8ByteIndexFrom_eq (s : Bytes) (index i idx : Nat) (hindex : idx ≤ index)
    (hlt : index < idx + (utf8Walk s i).length) :
    utf8ByteIndexFrom s index i idx = i + ((utf8Walk s i).take (index - idx)).flatten.length := by
  fun_induction utf8ByteIndexFrom with
  | case1 i hi => simp
  | case2 i idx hi hne ih =>
    rw [utf8Walk_of_lt hi] at hlt ⊢
    obtain ⟨k, hk⟩ : ∃ k, index - idx = k + 1 := ⟨index - idx - 1, by omega⟩
    rw [List.length_cons] at hlt
    rw [ih (by omega) (by omega), hk, List.take_succ_cons, List.flatten_cons, List.length_append,
      show index - (idx + 1) = k by omega, (utf8Next_take hi).2, Nat.add_assoc]
  | case3 i idx hi =>
    rw [utf8Walk_of_le (Nat.not_lt.mp hi)] at hlt
    simp only [List.length_nil] at hlt
    omega

theorem utf8IndexFrom_eq (s : Bytes) (k i idx : Nat) (hk : k ≤ (utf8Walk s i).length) :
    utf8IndexFrom s (i + ((utf8Walk s i).take k).flatten.length) i idx = idx + k := by
  induction k generalizing i idx with
  | zero =>
    rw [utf8IndexFrom, if_neg (by simp)]
    rfl
  | succ k ih =>
    have hi : i < s.length := by
      by_contra hnot
      rw [utf8Walk_of_le (Nat.not_lt.mp hnot), List.length_nil] at hk
      omega
    rw [utf8Walk_of_lt hi, List.length_cons] at hk
    have hnext := (utf8Next_take hi).2
    have hgt := utf8Next_gt s i
    rw [utf8Walk_of_lt hi, List.take_succ_cons, List.flatten_cons, List.length_append,
      ← Nat.add_assoc, ← hnext, utf8IndexFrom, if_pos (by omega), ih _ _ (by omega)]
    omega

/-- A string of scalar values. -/
def WellFormed (s : Bytes) : Prop := ∃ cs : List Char, s = cs.flatMap String.utf8EncodeChar

theorem utf8Walk_scalars {cs : List Char} (h : s.drop i = cs.flatMap String.utf8EncodeChar) :
    utf8Walk s i = cs.map String.utf8EncodeChar := by
  induction cs generalizing i with
  | nil => exact utf8Walk_of_le (List.drop_eq_nil_iff.mp h)
  | cons c cs ih =>
    rw [List.flatMap_cons] at h
    have hi : i < s.length := by
      have hlength := congrArg List.length h
      have hpos := List.length_pos_iff.mpr (String.utf8EncodeChar_ne_nil (c := c))
      rw [List.length_drop, List.length_append] at hlength
      omega
    rw [utf8Walk_of_lt hi, utf8Next_scalar h, List.map_cons, ih]
    rw [← List.drop_drop, h, List.drop_left]

theorem utf8Reverse_scalars (cs : List Char) :
    utf8Reverse (cs.flatMap String.utf8EncodeChar) = cs.reverse.flatMap String.utf8EncodeChar := by
  rw [utf8Reverse, @utf8Walk_scalars _ _ cs rfl, ← List.map_reverse, List.flatMap_def]

/-- Reversing a well-formed string twice gives it back. -/
theorem utf8Reverse_reverse (h : WellFormed s) : utf8Reverse (utf8Reverse s) = s := by
  obtain ⟨cs, rfl⟩ := h
  rw [utf8Reverse_scalars, utf8Reverse_scalars, List.reverse_reverse]

theorem utf8Substring_eq {start stop : Nat} (hle : start ≤ stop) (hstop : stop ≤ utf8LengthOf s) :
    utf8Substring s start stop = .ok (((utf8Walk s 0).take stop).drop start).flatten := by
  rw [utf8Substring]
  rw [if_neg (by omega), Int.toNat_natCast, Int.toNat_natCast, utf8SubstringFrom_eq]
  simp

theorem utf8Substring_append {a b c : Nat} (hab : a ≤ b) (hbc : b ≤ c) (hc : c ≤ utf8LengthOf s) :
    ∃ front back, utf8Substring s a b = .ok front ∧ utf8Substring s b c = .ok back ∧
      utf8Substring s a c = .ok (front ++ back) := by
  refine ⟨_, _, utf8Substring_eq hab (Nat.le_trans hbc hc), utf8Substring_eq hbc hc, ?_⟩
  have hlength : ((utf8Walk s 0).take b).length = b := by
    rw [List.length_take, ← utf8LengthOf_eq]
    omega
  have hsplit := List.take_append_drop b ((utf8Walk s 0).take c)
  rw [List.take_take, Nat.min_eq_left hbc] at hsplit
  rw [utf8Substring_eq (Nat.le_trans hab hbc) hc, ← List.flatten_append, ← hsplit,
    List.drop_append_of_le_length (by omega), List.drop_append_of_le_length (by omega),
    List.drop_of_length_le (Nat.le_of_eq hlength), List.nil_append]

theorem utf8ByteIndex_eq (hk : k ≤ utf8LengthOf s) :
    utf8ByteIndex s k = .ok (((utf8Walk s 0).take k).flatten.length : Nat) := by
  have hlength := utf8LengthOf_eq s
  rw [utf8ByteIndex]
  rw [if_neg (by omega)]
  by_cases hlast : k = utf8LengthOf s
  · rw [if_pos (by omega), hlast, hlength, List.take_length, utf8Walk_flatten, List.drop_zero]
  · rw [if_neg (by omega), Int.toNat_natCast,
      utf8ByteIndexFrom_eq s k 0 0 (Nat.zero_le k) (by omega), Nat.zero_add, Nat.sub_zero]

theorem utf8IndexFromByte_utf8ByteIndex (hk : k ≤ utf8LengthOf s) :
    ∃ b, utf8ByteIndex s k = .ok b ∧ utf8IndexFromByte s b = .ok k := by
  refine ⟨_, utf8ByteIndex_eq hk, ?_⟩
  have hle : ((utf8Walk s 0).take k).flatten.length ≤ s.length := by
    have h := congrArg List.length (utf8Walk_flatten s 0)
    rw [← List.take_append_drop k (utf8Walk s 0), List.flatten_append, List.length_append,
      List.drop_zero] at h
    omega
  have hindex := utf8IndexFrom_eq s k 0 0 (by rw [← utf8LengthOf_eq]; exact hk)
  rw [Nat.zero_add, Nat.zero_add] at hindex
  rw [utf8IndexFromByte, if_neg (by omega), Int.toNat_natCast, hindex]

theorem utf8AtFrom_eq (s : Bytes) (fnName : String) (index i n : Nat) (hindex : n ≤ index)
    (hlt : index < n + (utf8Walk s i).length) :
    Utf8Char.bytes <$> utf8AtFrom s index fnName i n = .ok ((utf8Walk s i).getD (index - n) []) := by
  fun_induction utf8AtFrom with
  | case1 i n hi heq =>
    rw [utf8Walk_of_lt hi, show index - n = 0 by omega]
    rfl
  | case2 i n hi hne ih =>
    rw [utf8Walk_of_lt hi] at hlt ⊢
    rw [List.length_cons] at hlt
    rw [ih (by omega) (by omega), show index - n = index - (n + 1) + 1 by omega, List.getD_cons_succ]
  | case3 i n hi =>
    rw [utf8Walk_of_le (Nat.not_lt.mp hi), List.length_nil] at hlt
    omega

theorem utf8CharAt_eq (hk : k < (utf8Walk s 0).length) : utf8CharAt s k = .ok (utf8Walk s 0)[k] := by
  rw [utf8CharAt, utf8At, if_neg (by omega), utf8AtFrom_eq s _ k 0 0 (Nat.zero_le k) (by omega),
    Nat.sub_zero, List.getD_eq_getElem?_getD, List.getElem?_eq_getElem hk, Option.getD_some]

theorem utf8CodePointAt_scalar (c : Char) : utf8CodePointAt (String.utf8EncodeChar c) 0 =
    .ok c.toNat := by
  have hpos := List.length_pos_iff.mpr (String.utf8EncodeChar_ne_nil (c := c))
  have hnext :=
    @utf8Next_scalar (String.utf8EncodeChar c) [] 0 c (List.append_nil _).symm
  rw [utf8CodePointAt, utf8At, if_neg (by omega), utf8AtFrom, if_pos hpos, if_pos (by rfl), hnext]
  rfl

theorem or_toUInt8 {x : Nat} (a k : Nat) (hx : x < 2 ^ k) :
    (a <<< k ||| x).toUInt8 = UInt8.ofNat (x + a <<< k) := by
  rw [← Nat.shiftLeft_add_eq_or_of_lt hx, Nat.add_comm]

theorem utf8Encode_toNat (c : Char) : utf8Encode c.toNat = String.utf8EncodeChar c := by
  have hrange := scalar_range c
  have hor : ∀ x < 64, (0x80 ||| x).toUInt8 = tailByte x := fun x => or_toUInt8 2 6
  have htwo : ∀ x < 32, (0xC0 ||| x).toUInt8 = UInt8.ofNat (x + 0xc0) := fun x => or_toUInt8 6 5
  have hthree : ∀ x < 16, (0xE0 ||| x).toUInt8 = UInt8.ofNat (x + 0xe0) := fun x => or_toUInt8 14 4
  have hfour : ∀ x < 8, (0xF0 ||| x).toUInt8 = UInt8.ofNat (x + 0xf0) := fun x => or_toUInt8 30 3
  have hmask : ∀ x : Nat, x &&& 0x3F = x % 64 := fun x => Nat.and_two_pow_sub_one_eq_mod x 6
  rw [utf8EncodeChar_eq, utf8Encode]
  simp only [Nat.shiftRight_eq_div_pow, hmask, Nat.reducePow]
  split
  · rfl
  split
  · rw [htwo _ (by omega), hor _ (by omega)]
  split
  · rw [hthree _ (by omega), hor _ (by omega), hor _ (by omega)]
  · rw [hfour _ (by omega), hor _ (by omega), hor _ (by omega), hor _ (by omega)]

theorem utf8FromCodePoint_scalar (c : Char) :
    utf8FromCodePoint c.toNat = .ok (String.utf8EncodeChar c) := by
  have hrange := scalar_range c
  rw [utf8FromCodePoint, if_neg (by omega), Int.toNat_natCast, utf8Encode_toNat]

/-- The natives that index a string by its characters agree on what these are, whatever bytes the
    string holds, and a character of more than one byte is the encoding of a scalar value. -/
theorem utf8_indexing (s : Bytes) :
    (utf8Walk s 0).flatten = s ∧
    (∀ i (hi : i < s.length),
      (∀ c, String.utf8EncodeChar c <+: s.drop i →
        utf8Next s i = ⟨String.utf8EncodeChar c, c.toNat, i + (String.utf8EncodeChar c).length⟩) ∧
      ((∀ c, ¬ String.utf8EncodeChar c <+: s.drop i) → utf8Next s i = ⟨[s[i]], s[i].toNat, i + 1⟩) ∧
      ((utf8Next s i).bytes.length ≠ 1 →
        ∃ c, (utf8Next s i).bytes = String.utf8EncodeChar c ∧ (utf8Next s i).cp = c.toNat)) ∧
    (∀ a b c : Int, 0 ≤ a → a ≤ b → b ≤ c → c ≤ utf8Length s →
      ∃ front back, utf8Substring s a b = .ok front ∧ utf8Substring s b c = .ok back ∧
        utf8Substring s a c = .ok (front ++ back)) ∧
    (∀ k : Int, 0 ≤ k → k ≤ utf8Length s → ∃ b, utf8ByteIndex s k = .ok b ∧
      utf8IndexFromByte s b = .ok k) ∧
      (strSplit s [] = utf8Walk s 0 ∧ utf8Length s = (utf8Walk s 0).length ∧
      ∀ k (hk : k < (utf8Walk s 0).length), utf8CharAt s k = .ok (utf8Walk s 0)[k]) ∧
      (WellFormed s → utf8Reverse (utf8Reverse s) = s) ∧ ∀ c : Char,
      utf8FromCodePoint c.toNat = .ok (String.utf8EncodeChar c) ∧
      utf8CodePointAt (String.utf8EncodeChar c) 0 = .ok c.toNat ∧
      utf8Walk (String.utf8EncodeChar c) 0 = [String.utf8EncodeChar c] := by
  have hlength := utf8LengthOf_eq s
  refine ⟨utf8Walk_flatten s 0, fun i hi => ⟨?_, utf8Next_byte hi, ?_⟩, ?_, ?_,
    ⟨by simp [strSplit], ?_, ?_⟩, utf8Reverse_reverse, fun c =>
    ⟨utf8FromCodePoint_scalar c, utf8CodePointAt_scalar c, ?_⟩⟩
  · rintro c ⟨rest, hrest⟩
    exact utf8Next_scalar hrest.symm
  · intro hlong
    by_cases h : ∃ c, String.utf8EncodeChar c <+: s.drop i
    · obtain ⟨c, rest, hrest⟩ := h
      rw [utf8Next_scalar hrest.symm]
      exact ⟨c, rfl, rfl⟩
    · rw [utf8Next_byte hi (not_exists.mp h)] at hlong
      exact absurd rfl hlong
  · intro a b c ha hab hbc hc
    obtain ⟨a, rfl⟩ := Int.eq_ofNat_of_zero_le ha
    obtain ⟨b, rfl⟩ := Int.eq_ofNat_of_zero_le (Int.le_trans ha hab)
    obtain ⟨c, rfl⟩ := Int.eq_ofNat_of_zero_le (Int.le_trans (Int.le_trans ha hab) hbc)
    exact utf8Substring_append (Int.ofNat_le.mp hab) (Int.ofNat_le.mp hbc) (Int.ofNat_le.mp hc)
  · intro k hk hle
    obtain ⟨k, rfl⟩ := Int.eq_ofNat_of_zero_le hk
    exact utf8IndexFromByte_utf8ByteIndex (Int.ofNat_le.mp hle)
  · exact congrArg Int.ofNat hlength
  · exact fun k hk => utf8CharAt_eq hk
  · exact @utf8Walk_scalars _ _ [c] (by simp)

end zl.vm.native.strings
