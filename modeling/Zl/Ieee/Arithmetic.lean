import Mathlib
import Zl.Ieee.Rounding

namespace zl.ieee

/-- So many units, as a number. From the infinities on it is infinite. -/
noncomputable def extended (e : Int) : EReal :=
  if (units infinityCode : Int) ≤ e then ⊤ else if e ≤
    -units infinityCode then ⊥ else ((e / unit : ℝ) : EReal)

theorem extended_lt_extended_iff {e e' : Int} (he : e.natAbs ≤ units infinityCode)
    (he' : e'.natAbs ≤ units infinityCode) :
    extended e < extended e' ↔ e < e' := by
  have hunit : (0 : ℝ) < unit := Nat.cast_pos.mpr unit_pos
  have hfinite : ((e / unit : ℝ) : EReal) < ((e' / unit : ℝ) : EReal) ↔ e < e' := by
    rw [EReal.coe_lt_coe_iff, div_lt_div_iff_of_pos_right hunit, Int.cast_lt]
  unfold extended
  split
  next h => exact iff_of_false not_top_lt (by omega)
  next h =>
    split
    next h' =>
      split
      next => exact iff_of_true bot_lt_top (by omega)
      next =>
        split
        · exact iff_of_false (lt_irrefl _) (by omega)
        · exact iff_of_true (EReal.bot_lt_coe _) (by omega)
    next h' =>
      split
      next => exact iff_of_true (EReal.coe_lt_top _) (by omega)
      next =>
        split
        · exact iff_of_false not_lt_bot (by omega)
        · exact hfinite

theorem natAbs_mul_unit_lt {n : Int} (h : n.natAbs < 2 ^ 64) :
    (n * unit).natAbs < units infinityCode := by
  obtain ⟨t, ht⟩ : ∃ t, t = 1074 := ⟨1074, rfl⟩
  obtain ⟨code, hcode, hunits⟩ := exists_code_eq (show 1 < 2 ^ 53 by omega) (show 64 + t ≤ 2045 by omega)
  rw [Nat.one_mul, Nat.pow_add, ← unit_eq ht] at hunits
  have hle : units code ≤ units infinityCode := units_strictMono.monotone hcode
  rw [Int.natAbs_mul, Int.natAbs_natCast]
  have := Nat.mul_lt_mul_of_pos_right h unit_pos
  omega

theorem extended_int {n : Int} (h : n.natAbs < 2 ^ 64) : extended (n * unit) = ((n : ℝ) : EReal) := by
  have hunit : (unit : ℝ) ≠ 0 := Nat.cast_ne_zero.mpr unit_pos.ne'
  have := natAbs_mul_unit_lt h
  rw [extended, if_neg (by omega), if_neg (by omega), Int.cast_mul, Int.cast_natCast,
    mul_div_cancel_right₀ _ hunit]

namespace Binary64
variable {x : Binary64}

/-- The number that a double stands for. A NaN stands for none. -/
noncomputable def toEReal (x : Binary64) : EReal :=
  if x.isInf then if x.signbit then ⊥ else ⊤ else ((x.exact / unit : ℝ) : EReal)

theorem natAbs_exact_le (h : x.isNaN = false) : x.exact.natAbs ≤ units infinityCode := by
  rw [natAbs_exact]
  exact units_strictMono.monotone (magnitude_le_of_not_isNaN h)

theorem toEReal_eq (h : x.isNaN = false) : x.toEReal = extended x.exact := by
  have hnat := natAbs_exact x
  have hpos : 0 < units infinityCode := units_strictMono (show 0 < infinityCode by decide)
  unfold toEReal extended
  split
  next hinf =>
    have hinf : x.magnitude = infinityCode := of_decide_eq_true hinf
    rw [hinf] at hnat
    cases hsign : x.signbit with
    | true =>
      have := exact_nonpos hsign
      rw [if_pos rfl, if_neg (by omega), if_pos (by omega)]
    | false =>
      have := exact_nonneg hsign
      rw [if_neg Bool.false_ne_true, if_pos (by omega)]
  next hinf =>
    have hfinite : x.magnitude < infinityCode :=
      lt_of_le_of_ne (magnitude_le_of_not_isNaN h) fun heq => hinf (decide_eq_true heq)
    have := units_strictMono hfinite
    rw [if_neg (by omega), if_neg (by omega)]

end Binary64

namespace Binary64

/-- The NaN that an operation makes. The format leaves its bits open. -/
def nan : Binary64 := ofCode false (infinityCode + 2 ^ 51)

def infinity (negative : Bool) : Binary64 := ofCode negative infinityCode

def isZero (x : Binary64) : Bool := x.magnitude = 0

/-- How many units the magnitude is. -/
def size (x : Binary64) : Nat := units x.magnitude

/-- Negation flips the sign bit, also that of a NaN. -/
def neg (x : Binary64) : Binary64 := ofCode (!x.signbit) x.magnitude

/-- Two zeros of different signs, and numbers that cancel out, add up to the positive zero. -/
def add (x y : Binary64) : Binary64 :=
  if x.isNaN || y.isNaN then nan
  else if x.isInf then if y.isInf && x.signbit != y.signbit then nan else x
  else if y.isInf then y
  else
    let sum := x.exact + y.exact
    if sum = 0 then ofCode (x.signbit && y.signbit) 0 else round (sum < 0) sum.natAbs 1

def sub (x y : Binary64) : Binary64 := add x y.neg

def mul (x y : Binary64) : Binary64 :=
  let negative := x.signbit ^^ y.signbit
  if x.isNaN || y.isNaN then nan
  else if x.isInf || y.isInf then if x.isZero || y.isZero then nan else infinity negative
  else round negative (x.size * y.size) unit

def div (x y : Binary64) : Binary64 :=
  let negative := x.signbit ^^ y.signbit
  if x.isNaN || y.isNaN then nan
  else if x.isInf then if y.isInf then nan else infinity negative
  else if y.isInf then ofCode negative 0
  else if y.isZero then if x.isZero then nan else infinity negative
  else round negative (x.size * unit) y.size

/-- `std::fmod`: the remainder of the truncated quotient, with the sign of the dividend. -/
def fmod (x y : Binary64) : Binary64 :=
  if x.isNaN || y.isNaN || x.isInf || y.isZero then nan
  else if y.isInf then x
  else round x.signbit (x.size % y.size) 1

def one : Binary64 := ofInt 1

def zero : Binary64 := ofInt 0

variable {x y : Binary64}

theorem isNaN_of_isFinite (h : x.isFinite = true) : x.isNaN = false := (isFinite_iff.mp h).1

theorem isInf_of_isFinite (h : x.isFinite = true) : x.isInf = false := (isFinite_iff.mp h).2

theorem magnitude_neg (x : Binary64) : x.neg.magnitude = x.magnitude := magnitude_ofCode x.magnitude_lt

theorem signbit_neg (x : Binary64) : x.neg.signbit = !x.signbit := signbit_ofCode x.magnitude_lt

theorem neg_neg (x : Binary64) : x.neg.neg = x :=
  ext_code (by rw [signbit_neg, signbit_neg, Bool.not_not]) (by rw [magnitude_neg, magnitude_neg])

theorem isNaN_neg (x : Binary64) : x.neg.isNaN = x.isNaN := by
  rw [isNaN, isNaN, magnitude_neg]

theorem exact_neg (x : Binary64) : x.neg.exact = -x.exact := by
  rw [exact, exact, signbit_neg, magnitude_neg]
  cases x.signbit with
  | true => exact (Int.neg_neg _).symm
  | false => rfl

theorem exact_ofInt_le {n : Int} (hnan : x.isNaN = false) (h : n * unit ≤ x.exact) :
    (ofInt n).exact ≤ x.exact := by
  have hunit := unit_pos'
  have hnat := natAbs_exact x
  have hmagnitude : roundCode (units x.magnitude) 1 = x.magnitude :=
    roundCode_of_eq Nat.one_pos (magnitude_le_of_not_isNaN hnan) (Nat.mul_one _).symm
  have hcast : ((n.natAbs * unit : Nat) : Int) = |n| * unit := by rw [Int.natCast_mul, Int.natCast_natAbs]
  rcases Int.lt_or_le n 0 with hn | hn
  · rw [exact_ofInt_of_neg hn]
    rcases Int.lt_or_le x.exact 0 with hx | hx
    · rw [abs_of_neg hn, Int.neg_mul] at hcast
      have hle : units x.magnitude ≤ n.natAbs * unit := by omega
      have hround := roundCode_mono Nat.one_pos Nat.one_pos (Nat.mul_le_mul_right 1 hle)
      rw [hmagnitude] at hround
      have := units_strictMono.monotone hround
      omega
    · omega
  · rw [exact_ofInt_of_nonneg hn]
    have hpos : 0 ≤ n * (unit : Int) := Int.mul_nonneg hn hunit.le
    rw [abs_of_nonneg hn] at hcast
    have hle : n.natAbs * unit ≤ units x.magnitude := by omega
    have hround := roundCode_mono Nat.one_pos Nat.one_pos (Nat.mul_le_mul_right 1 hle)
    rw [hmagnitude] at hround
    have := units_strictMono.monotone hround
    omega

theorem le_exact_ofInt {n : Int} (hnan : x.isNaN = false) (h : x.exact ≤ n * unit) :
    x.exact ≤ (ofInt n).exact := by
  have hneg :=
    @exact_ofInt_le x.neg (-n) ((isNaN_neg x).trans hnan) (by rw [exact_neg, Int.neg_mul]; omega)
  rw [exact_ofInt_neg, exact_neg] at hneg
  omega

theorem exact_one : one.exact = unit := by
  rw [one, exact_ofInt_of_eq (q := 1) (r := 0) (by omega) (by omega) rfl, Int.one_mul]

theorem signbit_one : one.signbit = false := signbit_round

theorem isNaN_one : one.isNaN = false := isNaN_round

theorem size_one : one.size = unit := by
  rw [size, ← natAbs_exact, exact_one, Int.natAbs_natCast]

theorem isFinite_one : one.isFinite = true := by
  refine isFinite_of_bounds ?_
  rw [exact_one, Int.natAbs_natCast]
  have := unit_pos
  omega

theorem isZero_one : one.isZero = false := by
  rw [isZero]
  refine decide_eq_false fun hzero => ?_
  have := exact_eq_zero_iff.mpr hzero
  rw [exact_one] at this
  exact unit_pos'.ne' this

theorem mul_one (h : x.isFinite = true) : x.mul one = x := by
  unfold mul
  simp only [isNaN_of_isFinite h, isNaN_one, isInf_of_isFinite h, isInf_of_isFinite isFinite_one,
    signbit_one, size_one, Bool.or_self, Bool.false_eq_true, if_false, Bool.xor_false]
  exact round_exact unit_pos (isNaN_of_isFinite h) rfl

theorem mul_comm (x y : Binary64) : x.mul y = y.mul x := by
  unfold mul
  rw [Bool.or_comm, @Bool.or_comm x.isInf, @Bool.or_comm x.isZero, Nat.mul_comm, Bool.xor_comm]

theorem one_mul (h : x.isFinite = true) : one.mul x = x := by
  rw [mul_comm, mul_one h]

theorem div_one (h : x.isFinite = true) : x.div one = x := by
  unfold div
  simp only [isNaN_of_isFinite h, isNaN_one, isInf_of_isFinite h, isInf_of_isFinite isFinite_one,
    isZero_one, signbit_one, size_one, Bool.or_self, Bool.false_eq_true, if_false, Bool.xor_false]
  exact round_exact unit_pos (isNaN_of_isFinite h) rfl

theorem sub_zero (h : x.isFinite = true) (hy : y.isZero = true) (hsign : x.isZero = true →
      x.signbit = true → y.signbit = false) :
    x.sub y = x := by
  have hmagnitude : y.neg.magnitude = 0 := (magnitude_neg y).trans (of_decide_eq_true hy)
  have hexact : y.neg.exact = 0 := exact_eq_zero_iff.mpr hmagnitude
  have hfinite : y.neg.isFinite = true := by
    rw [isFinite, hmagnitude]
    rfl
  unfold sub add
  simp only [isNaN_of_isFinite h, isNaN_of_isFinite hfinite, isInf_of_isFinite h,
    isInf_of_isFinite hfinite, Bool.or_self, Bool.false_eq_true, if_false, hexact, Int.add_zero]
  split
  next hzero =>
    have hx : x.magnitude = 0 := exact_eq_zero_iff.mp hzero
    refine ext_code ?_ ?_
    · rw [signbit_ofCode (by omega), signbit_neg]
      cases hs : x.signbit with
      | true => rw [hsign (decide_eq_true hx) hs]; rfl
      | false => rfl
    · rw [magnitude_ofCode (by omega), hx]
  next hzero =>
    have hsignbit : decide (x.exact < 0) = x.signbit := by
      cases hs : x.signbit with
      | true =>
        have := exact_nonpos hs
        exact decide_eq_true (by omega)
      | false =>
        have := exact_nonneg hs
        exact decide_eq_false (by omega)
    rw [hsignbit, natAbs_exact]
    exact round_exact Nat.one_pos (isNaN_of_isFinite h) (Nat.mul_one _).symm

theorem isFinite_eq_false (h : x.isFinite = false) : x.isNaN = true ∨ x.isInf = true := by
  by_contra hnot
  rw [not_or, Bool.not_eq_true, Bool.not_eq_true] at hnot
  rw [isFinite_iff.mpr hnot] at h
  nomatch h

theorem isFinite_nan : nan.isFinite = false := by decide +kernel

theorem isFinite_infinity (negative : Bool) : (infinity negative).isFinite = false := by
  rw [infinity, isFinite, magnitude_ofCode (by decide +kernel)]
  exact decide_eq_false (lt_irrefl _)

theorem isFinite_mul_one (h : x.isFinite = false) : (x.mul one).isFinite = false := by
  unfold mul
  rcases hnan : x.isNaN with _ | _
  · have hinf := (isFinite_eq_false h).resolve_left (by simp [hnan])
    have hzero : x.isZero = false := by
      have hmagnitude : x.magnitude = infinityCode := of_decide_eq_true hinf
      rw [isZero, hmagnitude]
      decide
    simp [hinf, hzero, isNaN_one, isZero_one, isFinite_infinity]
  · simp [isFinite_nan]

theorem isFinite_div_one (h : x.isFinite = false) : (x.div one).isFinite = false := by
  unfold div
  rcases hnan : x.isNaN with _ | _
  · have hinf := (isFinite_eq_false h).resolve_left (by simp [hnan])
    simp [hinf, isNaN_one, isInf_of_isFinite isFinite_one, isFinite_infinity]
  · simp [isFinite_nan]

theorem isFinite_sub_zero (h : x.isFinite = false) (hy : y.isZero = true) :
    (x.sub y).isFinite = false := by
  have hfinite : y.neg.isFinite = true := by
    rw [isFinite, (magnitude_neg y).trans (of_decide_eq_true hy)]
    rfl
  unfold sub add
  rcases hnan : x.isNaN with _ | _
  · have hinf := (isFinite_eq_false h).resolve_left (by simp [hnan])
    simp [hinf, isNaN_of_isFinite hfinite, isInf_of_isFinite hfinite, h]
  · simp [isFinite_nan]

theorem sub_negative_zeros (hx : x.isZero = true) (hy : y.isZero = true) (hx' : x.signbit = true)
    (hy' : y.signbit = true) :
    x.sub y ≠ x := by
  have hmagnitude : y.neg.magnitude = 0 := (magnitude_neg y).trans (of_decide_eq_true hy)
  have hfinite : y.neg.isFinite = true := by
    rw [isFinite, hmagnitude]
    rfl
  have hfinite' : x.isFinite = true := by
    rw [isFinite, of_decide_eq_true hx]
    rfl
  have hsub : x.sub y = ofCode false 0 := by
    unfold sub add
    simp only [isNaN_of_isFinite hfinite, isNaN_of_isFinite hfinite', isInf_of_isFinite hfinite,
      isInf_of_isFinite hfinite', Bool.or_self, Bool.false_eq_true, if_false]
    rw [exact_eq_zero_iff.mpr (of_decide_eq_true hx), exact_eq_zero_iff.mpr hmagnitude,
      if_pos (Int.add_zero 0), signbit_neg, hx', hy']
    rfl
  intro heq
  rw [hsub] at heq
  have hsign := congrArg signbit heq
  rw [signbit_ofCode (by omega), hx'] at hsign
  cases hsign

theorem eq_one_of_beq (h : x.beq one = true) : x = one := by
  obtain ⟨-, -, hexact⟩ := beq_iff.mp h
  have hunit := unit_pos'
  rw [exact_one] at hexact
  have hsign : x.signbit = false := by
    cases hs : x.signbit with
    | true =>
      have := exact_nonpos hs
      omega
    | false => rfl
  refine ext_code (hsign.trans signbit_one.symm) (units_inj.mp ?_)
  rw [← natAbs_exact, ← natAbs_exact, hexact, exact_one]

theorem isZero_of_beq (h : x.beq zero = true) : x.isZero = true := by
  obtain ⟨-, -, hexact⟩ := beq_iff.mp h
  rw [zero, exact_ofInt_zero] at hexact
  exact decide_eq_true (exact_eq_zero_iff.mp hexact)

theorem isFinite_round_of_le {negative : Bool} {num den : Nat} (hden : 0 < den)
    (hx : x.isFinite = true) (h : num ≤ x.size * den) :
    (round negative num den).isFinite = true := by
  have hcode : roundCode x.size 1 = x.magnitude :=
    roundCode_of_eq Nat.one_pos (of_decide_eq_true hx).le (Nat.mul_one _).symm
  have hle := roundCode_mono hden Nat.one_pos (show num * 1 ≤ x.size * den by rwa [Nat.mul_one])
  rw [isFinite, magnitude_round]
  exact decide_eq_true (hle.trans_lt (hcode ▸ of_decide_eq_true hx))

theorem isFinite_ofCode_zero (negative : Bool) : (ofCode negative 0).isFinite = true := by
  rw [isFinite, magnitude_ofCode (by omega)]
  rfl

theorem isFinite_add_zero (hx : x.isFinite = true) (hy : y.isFinite = true) (hzero : y.exact = 0) :
    (x.add y).isFinite = true := by
  unfold add
  simp only [isNaN_of_isFinite hx, isNaN_of_isFinite hy, isInf_of_isFinite hx, isInf_of_isFinite hy,
    Bool.or_self, Bool.false_eq_true, if_false, hzero, Int.add_zero]
  split
  · exact isFinite_ofCode_zero _
  · exact isFinite_round_of_le Nat.one_pos hx (by rw [natAbs_exact, Nat.mul_one, size])

theorem isFinite_zero_add (hx : x.isFinite = true) (hy : y.isFinite = true) (hzero : x.exact = 0) :
    (x.add y).isFinite = true := by
  unfold add
  simp only [isNaN_of_isFinite hx, isNaN_of_isFinite hy, isInf_of_isFinite hx, isInf_of_isFinite hy,
    Bool.or_self, Bool.false_eq_true, if_false, hzero, Int.zero_add]
  split
  · exact isFinite_ofCode_zero _
  · exact isFinite_round_of_le Nat.one_pos hy (by rw [natAbs_exact, Nat.mul_one, size])

theorem isFinite_neg (h : x.isFinite = true) : x.neg.isFinite = true := by
  rw [isFinite, magnitude_neg]
  exact h

theorem isFinite_mul_of_size_le (hx : x.isFinite = true) (hy : y.isFinite = true)
    (h : y.size ≤ unit) : (x.mul y).isFinite = true := by
  unfold mul
  simp only [isNaN_of_isFinite hx, isNaN_of_isFinite hy, isInf_of_isFinite hx, isInf_of_isFinite hy,
    Bool.or_self, Bool.false_eq_true, if_false]
  exact isFinite_round_of_le unit_pos hx (Nat.mul_le_mul_left _ h)

theorem isFinite_div_of_le_size (hx : x.isFinite = true) (hy : y.isFinite = true)
    (h : unit ≤ y.size) : (x.div y).isFinite = true := by
  have hpos : 0 < y.size := unit_pos.trans_le h
  have hzero : y.isZero = false := by
    refine decide_eq_false fun hmagnitude => ?_
    have hsize : y.size = 0 := by
      rw [size, hmagnitude]
      rfl
    omega
  unfold div
  simp only [isNaN_of_isFinite hx, isNaN_of_isFinite hy, isInf_of_isFinite hx, isInf_of_isFinite hy,
    hzero, Bool.or_self, Bool.false_eq_true, if_false]
  exact isFinite_round_of_le hpos hx (Nat.mul_le_mul_left _ h)

theorem isFinite_ofInt {n : Int} (hlow : -2 ^ 63 ≤ n) (hhigh : n ≤ 2 ^ 63) :
    (ofInt n).isFinite = true := by
  have hmin : (ofInt (-2 ^ 63)).exact = -2 ^ 63 * unit :=
    exact_ofInt_of_eq (q := 1) (r := 63) (by omega) (by omega) rfl
  have hmax : (ofInt (2 ^ 63)).exact = 2 ^ 63 * unit :=
    exact_ofInt_of_eq (q := 1) (r := 63) (by omega) (by omega) rfl
  have hle := exact_ofInt_mono hlow
  have hge := exact_ofInt_mono hhigh
  have hunit := unit_pos'
  exact isFinite_of_bounds (by omega)

theorem unit_le_size_ofInt {n : Int} (h : n ≠ 0) : unit ≤ (ofInt n).size := by
  have hone := exact_one
  have hneg : (ofInt (-1)).exact = -unit := by rw [exact_ofInt_neg, ← one, hone]
  rw [size, ← natAbs_exact]
  rcases Int.lt_or_gt_of_ne h with hlt | hgt
  · have := exact_ofInt_mono (show n ≤ -1 by omega)
    omega
  · have := exact_ofInt_mono (show 1 ≤ n by omega)
    rw [← one] at this
    omega

end Binary64

end zl.ieee
