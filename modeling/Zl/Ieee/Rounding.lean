import Zl.Ieee.Binary64

namespace zl.ieee

/-- The magnitude nearest to a quotient of units, of two that are equally near the even one. What is
    nearer to the next power of two than to the last finite number is infinite. -/
def roundCode (num den : Nat) : Nat :=
  let lower := floorCode (num / den)
  if infinityCode ≤ lower then infinityCode
  else
    let middle := (units lower + units (lower + 1)) * den
    if 2 * num < middle then lower
    else if middle < 2 * num then lower + 1
    else if lower % 2 = 0 then lower else lower + 1

namespace Binary64

/-- The double of an exact result. -/
def round (negative : Bool) (num den : Nat) : Binary64 := ofCode negative (roundCode num den)

/-- `static_cast<double>` of an integer. -/
def ofInt (n : Int) : Binary64 := round (n < 0) (n.natAbs * unit) 1

/-- `static_cast` to an integer, which truncates. -/
def toInt (x : Binary64) : Int := x.exact.tdiv unit

/-- `std::floor` and `std::ceil`. -/
def floor (x : Binary64) : Binary64 :=
  if x.isFinite then round x.signbit ((x.exact / unit).natAbs * unit) 1 else x

def ceil (x : Binary64) : Binary64 :=
  if x.isFinite then round x.signbit ((-x.exact / unit).natAbs * unit) 1 else x

end Binary64

section
variable {num den num' den' code k : Nat}

/-- When the rounded magnitude reaches a given one: from the middle below it on, and from there
    itself if the given one is even. -/
theorem le_roundCode_iff (hden : 0 < den) (hk : k + 1 ≤ infinityCode) : k + 1 ≤ roundCode num den ↔
    (units k + units (k + 1)) * den < 2 * num ∨ (units k + units (k + 1)) * den = 2 * num ∧
    (k + 1) % 2 = 0 := by
  obtain ⟨hlow, hhigh⟩ := units_floorCode (num / den)
  rw [Nat.le_div_iff_mul_le hden] at hlow
  rw [Nat.div_lt_iff_lt_mul hden] at hhigh
  unfold roundCode
  generalize floorCode (num / den) = lower at hlow hhigh
  have hcode : ∀ a ≤ lower, units a * den ≤ num := fun a ha =>
    (Nat.mul_le_mul_right den (units_strictMono.monotone ha)).trans hlow
  have hcode' : ∀ a, lower < a → num < units a * den := fun a ha =>
    hhigh.trans_le (Nat.mul_le_mul_right den (units_strictMono.monotone ha))
  have hstep : units k * den < units (k + 1) * den :=
    Nat.mul_lt_mul_of_pos_right (units_lt_units_succ k) hden
  rw [Nat.add_mul]
  rcases Nat.lt_trichotomy k lower with hlt | rfl | hgt
  · -- the magnitude is below the quotient
    have h := hcode (k + 1) hlt
    simp only
    refine iff_of_true ?_ (.inl (by omega))
    split
    · exact hk
    · split
      · exact hlt
      · split <;> (try split) <;> omega
  · -- the quotient is between the magnitude and the one before it
    simp only [if_neg (Nat.not_le.mpr (Nat.lt_of_succ_le hk)), Nat.add_mul]
    split
    · omega
    · split
      · omega
      · split <;> omega
  · -- the magnitude is above the next one
    have h := hcode' k hgt
    have h' := hcode' (k + 1) (by omega)
    refine iff_of_false ?_ (by omega)
    simp only [if_neg (show ¬infinityCode ≤ lower by omega)]
    split
    · omega
    · split
      · omega
      · split <;> omega

theorem roundCode_le (num den : Nat) : roundCode num den ≤ infinityCode := by
  unfold roundCode
  simp only
  split
  · rfl
  · split
    · omega
    · split
      · omega
      · split <;> omega

theorem roundCode_mono (hden : 0 < den) (hden' : 0 < den') (h : num * den' ≤ num' * den) :
    roundCode num den ≤ roundCode num' den' := by
  cases hcode : roundCode num den with
  | zero => exact Nat.zero_le _
  | succ k =>
    have hk : k + 1 ≤ infinityCode := hcode ▸ roundCode_le num den
    refine (le_roundCode_iff hden' hk).mpr ?_
    rcases (le_roundCode_iff hden hk).mp hcode.ge with hlt | ⟨heq, heven⟩
    · refine .inl (Nat.lt_of_mul_lt_mul_right (a := den) ?_)
      calc (units k + units (k + 1)) * den' * den = (units k + units (k + 1)) * den * den' :=
        Nat.mul_right_comm ..
        _ < 2 * num * den' := Nat.mul_lt_mul_of_pos_right hlt hden'
        _ ≤ 2 * num' * den := by rw [Nat.mul_assoc, Nat.mul_assoc]; exact Nat.mul_le_mul_left 2 h
    · refine (Nat.lt_or_eq_of_le (Nat.le_of_mul_le_mul_right (?_ : _ * den ≤ _ * den) hden)).imp id
        (⟨·, heven⟩)
      calc (units k + units (k + 1)) * den' * den = (units k + units (k + 1)) * den * den' :=
        Nat.mul_right_comm ..
        _ = 2 * num * den' := by rw [heq]
        _ ≤ 2 * num' * den := by rw [Nat.mul_assoc, Nat.mul_assoc]; exact Nat.mul_le_mul_left 2 h

theorem roundCode_of_eq (hden : 0 < den) (hcode : code ≤ infinityCode) (h : num = units code * den) :
    roundCode num den = code := by
  have hdiv : num / den = units code := by rw [h, Nat.mul_div_cancel _ hden]
  have hstep : units code * den < units (code + 1) * den :=
    Nat.mul_lt_mul_of_pos_right (units_lt_units_succ code) hden
  unfold roundCode
  simp only [hdiv, floorCode_units]
  split
  · omega
  · rw [if_pos]
    rw [Nat.add_mul]
    omega

theorem exists_code_eq {q s : Nat} (hq : q < 2 ^ 53) (hs : s ≤ 2045) : ∃ code ≤ infinityCode,
    units code = q * 2 ^ s := by
  obtain ⟨code, hcode⟩ := exists_units_eq hq s
  obtain ⟨t, ht⟩ : ∃ t, t = 2046 := ⟨2046, rfl⟩
  refine ⟨code, units_strictMono.le_iff_le.mp ?_, hcode⟩
  rw [hcode, units_infinityCode ht]
  calc q * 2 ^ s ≤ 2 ^ 52 * 2 * 2 ^ s := Nat.mul_le_mul_right _ hq.le
    _ = 2 ^ 52 * 2 ^ (s + 1) := by rw [pow_succ' 2 s, ← Nat.mul_assoc]
    _ ≤ 2 ^ 52 * 2 ^ t := Nat.mul_le_mul_left _ (Nat.pow_le_pow_right two_pos (by omega))

/-- An integer next to a magnitude is a magnitude: from 2 ^ 52 on all magnitudes are integers. -/
theorem exists_code_of_near {n : Nat} (hcode : code ≤ infinityCode) (hlow : units code < n * unit + unit)
    (hhigh : n * unit < units code + unit) : ∃ c ≤ infinityCode, units c = n * unit := by
  obtain ⟨t, ht⟩ : ∃ t, t = 1074 := ⟨1074, rfl⟩
  by_cases hsmall : code < t * 2 ^ 52 + 2 ^ 52
  · have hbound : units code ≤ 2 ^ 52 * unit := by
      rw [unit_eq ht, ← units_normal le_rfl (by omega)]
      exact units_strictMono.monotone hsmall.le
    have hn : n < 2 ^ 52 + 1 := by
      refine Nat.lt_of_mul_lt_mul_right (a := unit) ?_
      rw [Nat.add_mul, Nat.one_mul]
      omega
    rw [unit_eq ht]
    exact exists_code_eq (by omega) (by omega)
  · obtain ⟨s, q, hq, hq', rfl⟩ := exists_normal (show 2 ^ 52 ≤ code by omega)
    obtain ⟨r, rfl⟩ : ∃ r, s = r + t := ⟨s - t, by omega⟩
    have hunits : units ((r + t) * 2 ^ 52 + q) = q * 2 ^ r * unit := by
      rw [units_normal hq hq', Nat.pow_add, ← Nat.mul_assoc, unit_eq ht]
    rw [hunits, ← Nat.succ_mul] at hlow hhigh
    have := Nat.lt_of_mul_lt_mul_right hlow
    have := Nat.lt_of_mul_lt_mul_right hhigh
    exact ⟨_, hcode, hunits.trans (congrArg (· * unit) (by omega))⟩

end

namespace Binary64
variable {x y : Binary64} {n m : Int} {negative : Bool} {num den : Nat}

theorem roundCode_lt (num den : Nat) : roundCode num den < 2 ^ 63 :=
  (roundCode_le num den).trans_lt (by decide)

@[simp]
theorem signbit_round : (round negative num den).signbit = negative :=
  signbit_ofCode (roundCode_lt num den)

@[simp]
theorem magnitude_round : (round negative num den).magnitude = roundCode num den :=
  magnitude_ofCode (roundCode_lt num den)

@[simp]
theorem isNaN_round : (round negative num den).isNaN = false := by
  rw [isNaN, magnitude_round]
  exact decide_eq_false (Nat.not_lt.mpr (roundCode_le num den))

/-- No magnitude is nearer to the quotient than the one it is rounded to. -/
theorem roundCode_nearest {d : Nat} (hden : 0 < den) (hcode : roundCode num den < infinityCode) :
    ((units (roundCode num den) : Int) * den - num).natAbs ≤ ((units d : Int) * den - num).natAbs := by
  have hmono : ∀ {a b : Nat}, a ≤ b → units a * den ≤ units b * den := fun h =>
    Nat.mul_le_mul_right den (units_strictMono.monotone h)
  have hmiddle := fun k hk => @le_roundCode_iff num den k hden hk
  simp only [Nat.add_mul] at hmiddle
  simp only [← Int.natCast_mul]
  rcases Nat.lt_trichotomy d (roundCode num den) with hlt | rfl | hgt
  · -- the quotient is not below the middle to the magnitude before
    obtain ⟨k, hk⟩ : ∃ k, roundCode num den = k + 1 := ⟨roundCode num den - 1, by omega⟩
    have hreached := (hmiddle k (by omega)).mp (by omega)
    have hbelow := @hmono d k (by omega)
    have hstep := @hmono k (k + 1) (Nat.le_succ k)
    rw [hk]
    omega
  · exact le_refl _
  · -- nor above the middle to the next
    have hreached := mt (hmiddle (roundCode num den) hcode).mpr (by omega)
    have hstep := @hmono (roundCode num den) (roundCode num den + 1) (Nat.le_succ _)
    have habove := @hmono (roundCode num den + 1) d hgt
    omega

/-- No double is nearer to the number than the one it is rounded to. -/
theorem round_nearest (y : Binary64) (hden : 0 < den) (hfinite : (round false num den).isFinite = true) :
    ((round false num den).exact * den - num).natAbs ≤ (y.exact * den - num).natAbs := by
  have hexact : (round false num den).exact = units (roundCode num den) := by
    rw [exact, signbit_round, magnitude_round, if_neg Bool.false_ne_true]
  have hcode : roundCode num den < infinityCode := by simpa [isFinite] using hfinite
  rw [hexact]
  by_cases hsign : y.signbit = true
  · -- zero is nearer than a negative number
    have hzero := @roundCode_nearest num den 0 hden hcode
    have hy : y.exact * den ≤ 0 :=
      Int.mul_nonpos_of_nonpos_of_nonneg (exact_nonpos hsign) (Int.natCast_nonneg _)
    rw [show (units 0 : Int) = 0 from rfl, Int.zero_mul] at hzero
    omega
  · rw [exact, if_neg hsign]
    exact roundCode_nearest hden hcode

theorem isNaN_floor (h : x.isNaN = false) : x.floor.isNaN = false := by
  unfold floor
  split
  · exact isNaN_round
  · exact h

theorem isNaN_ceil (h : x.isNaN = false) : x.ceil.isNaN = false := by
  unfold ceil
  split
  · exact isNaN_round
  · exact h

theorem round_exact (hden : 0 < den) (hnan : x.isNaN = false) (h : num = units x.magnitude * den) :
    round x.signbit num den = x := by
  rw [round, roundCode_of_eq hden (magnitude_le_of_not_isNaN hnan) h, ofCode_signbit_magnitude]

theorem isNaN_ofInt (n : Int) : (ofInt n).isNaN = false := isNaN_round

theorem exact_ofInt_of_nonneg (h : 0 ≤ n) : (ofInt n).exact = units (roundCode (n.natAbs * unit) 1) := by
  simp [ofInt, exact, Int.not_lt.mpr h]

theorem exact_ofInt_of_neg (h : n < 0) : (ofInt n).exact = -units (roundCode (n.natAbs * unit) 1) := by
  simp [ofInt, exact, h]

theorem exact_ofInt_mono (h : n ≤ m) : (ofInt n).exact ≤ (ofInt m).exact := by
  have hmono {a b : Nat} (hab : a ≤ b) :
      units (roundCode (a * unit) 1) ≤ units (roundCode (b * unit) 1) :=
    units_strictMono.monotone (roundCode_mono Nat.one_pos Nat.one_pos
      (Nat.mul_le_mul_right 1 (Nat.mul_le_mul_right unit hab)))
  rcases Int.lt_or_le n 0 with hn | hn
  · rw [exact_ofInt_of_neg hn]
    rcases Int.lt_or_le m 0 with hm | hm
    · rw [exact_ofInt_of_neg hm]
      have := hmono (show m.natAbs ≤ n.natAbs by omega)
      omega
    · rw [exact_ofInt_of_nonneg hm]
      omega
  · rw [exact_ofInt_of_nonneg hn, exact_ofInt_of_nonneg (hn.trans h)]
    exact Int.ofNat_le.mpr (hmono (by omega))

/-- An integer that is a magnitude is converted exactly. -/
theorem exact_ofInt_of_units {code : Nat} (hcode : code ≤ infinityCode) (h : units code = n.natAbs * unit) :
    (ofInt n).exact = n * unit := by
  have hround : roundCode (n.natAbs * unit) 1 = code :=
    roundCode_of_eq Nat.one_pos hcode (by rw [h, Nat.mul_one])
  have hcast : ((n.natAbs * unit : Nat) : Int) = n.natAbs * unit := Int.natCast_mul _ _
  rcases Int.lt_or_le n 0 with hn | hn
  · rw [exact_ofInt_of_neg hn, hround, h, hcast, Int.ofNat_natAbs_of_nonpos hn.le, Int.neg_mul,
      Int.neg_neg]
  · rw [exact_ofInt_of_nonneg hn, hround, h, hcast, Int.natAbs_of_nonneg hn]

/-- An integer of 53 bits and zeros after them is converted exactly. -/
theorem exact_ofInt_of_eq {q r : Nat} (hq : q < 2 ^ 53) (hr : r ≤ 900) (h : n.natAbs = q * 2 ^ r) :
    (ofInt n).exact = n * unit := by
  obtain ⟨t, ht⟩ : ∃ t, t = 1074 := ⟨1074, rfl⟩
  obtain ⟨code, hcode, hunits⟩ := exists_code_eq hq (show r + t ≤ 2045 by omega)
  exact exact_ofInt_of_units hcode (by rw [hunits, h, unit_eq ht, Nat.pow_add, Nat.mul_assoc])

theorem exact_ofInt_zero : (ofInt 0).exact = 0 := by
  rw [exact_ofInt_of_eq (q := 0) (r := 0) (by omega) (by omega) rfl, Int.zero_mul]

theorem exact_ofInt_neg (n : Int) : (ofInt (-n)).exact = -(ofInt n).exact := by
  rcases Int.lt_trichotomy n 0 with hneg | rfl | hpos
  · rw [exact_ofInt_of_neg hneg, exact_ofInt_of_nonneg (by omega), Int.natAbs_neg, Int.neg_neg]
  · rw [Int.neg_zero, exact_ofInt_zero, Int.neg_zero]
  · rw [exact_ofInt_of_nonneg hpos.le, exact_ofInt_of_neg (by omega), Int.natAbs_neg]

theorem isFinite_of_bounds (h : x.exact.natAbs < 2 ^ 64 * unit) :
    x.isFinite = true := by
  obtain ⟨t, ht⟩ : ∃ t, t = 1074 := ⟨1074, rfl⟩
  obtain ⟨code, hcode, hunits⟩ := exists_code_eq (show 1 < 2 ^ 53 by omega) (show 64 + t ≤ 2045 by omega)
  rw [Nat.one_mul, Nat.pow_add, ← unit_eq ht] at hunits
  rw [natAbs_exact, ← hunits, units_strictMono.lt_iff_lt] at h
  exact decide_eq_true (h.trans_le hcode)

/-- Rounding to an integer next to a finite double, on the same side of zero, gives that integer. -/
theorem exact_round_near (hfinite : x.isFinite = true) (hlow : x.exact < n * unit + unit)
    (hhigh : n * unit < x.exact + unit)
    (hsign : if x.signbit then n ≤ 0 else 0 ≤ n) : (round x.signbit (n.natAbs * unit) 1).exact =
      n * unit := by
  have hcode : x.magnitude ≤ infinityCode := Nat.le_of_lt (of_decide_eq_true hfinite)
  have hround {c : Nat} (hc : c ≤ infinityCode) (hunits : units c = n.natAbs * unit) :
      roundCode (n.natAbs * unit) 1 = c := roundCode_of_eq Nat.one_pos hc (by rw [hunits, Nat.mul_one])
  unfold exact at hlow hhigh ⊢
  rw [signbit_round, magnitude_round]
  cases hnegative : x.signbit with
  | true =>
    simp only [hnegative, if_true] at hlow hhigh hsign ⊢
    have hcast : ((n.natAbs * unit : Nat) : Int) = -(n * unit) := by
      rw [Int.natCast_mul, Int.ofNat_natAbs_of_nonpos hsign, Int.neg_mul]
    obtain ⟨c, hc, hunits⟩ := exists_code_of_near hcode (n := n.natAbs) (by omega) (by omega)
    rw [hround hc hunits, hunits, hcast, Int.neg_neg]
  | false =>
    simp only [hnegative, Bool.false_eq_true, if_false] at hlow hhigh hsign ⊢
    have hcast : ((n.natAbs * unit : Nat) : Int) = n * unit := by
      rw [Int.natCast_mul, Int.natAbs_of_nonneg hsign]
    obtain ⟨c, hc, hunits⟩ := exists_code_of_near hcode (n := n.natAbs) (by omega) (by omega)
    rw [hround hc hunits, hunits, hcast]

theorem exact_floor (h : x.isFinite = true) : x.floor.exact = x.exact / unit * unit := by
  have hlow := Int.ediv_mul_le x.exact unit_pos'.ne'
  have hhigh := Int.lt_ediv_add_one_mul_self x.exact unit_pos'
  rw [Int.add_mul, Int.one_mul] at hhigh
  rw [floor, if_pos h]
  refine exact_round_near h hhigh (by have := unit_pos'; omega) ?_
  cases hsign : x.signbit with
  | true => exact Int.ediv_nonpos_of_nonpos_of_neg (exact_nonpos hsign) unit_pos'
  | false => exact Int.ediv_nonneg (exact_nonneg hsign) unit_pos'.le

theorem exact_ceil (h : x.isFinite = true) : x.ceil.exact = -(-x.exact / unit) * unit := by
  have hlow := Int.ediv_mul_le (-x.exact) unit_pos'.ne'
  have hhigh := Int.lt_ediv_add_one_mul_self (-x.exact) unit_pos'
  rw [Int.add_mul, Int.one_mul] at hhigh
  rw [ceil, if_pos h, ← Int.natAbs_neg]
  refine exact_round_near h (by rw [Int.neg_mul]; omega)
    (by rw [Int.neg_mul]; have := unit_pos'; omega) ?_
  cases hsign : x.signbit with
  | true =>
    exact Int.neg_nonpos_of_nonneg
      (Int.ediv_nonneg (Int.neg_nonneg_of_nonpos (exact_nonpos hsign)) unit_pos'.le)
  | false =>
    exact Int.neg_nonneg_of_nonpos
      (Int.ediv_nonpos_of_nonpos_of_neg (Int.neg_nonpos_of_nonneg (exact_nonneg hsign)) unit_pos')

end Binary64

end zl.ieee
