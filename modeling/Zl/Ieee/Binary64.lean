import Mathlib.Tactic.Ring

namespace zl.ieee

/-- A double, by its bit pattern. -/
@[ext]
structure Binary64 where
  bits : BitVec 64
  deriving DecidableEq

/-- The magnitudes are numbered by their bit patterns. In units of the least of them, 2 ^ -1074, this
    is the number that a magnitude stands for. -/
def units (code : Nat) : Nat :=
  if code < 2 ^ 52 then code else (2 ^ 52 + code % 2 ^ 52) * 2 ^ (code / 2 ^ 52 - 1)

/-- The magnitude of the infinities. It counts as the power of two after the finite numbers. -/
def infinityCode : Nat := 2047 * 2 ^ 52

/-- How many units are one. -/
@[irreducible]
def unit : Nat := 2 ^ 1074

/-- The last magnitude that is at most so many units. -/
def floorCode (n : Nat) : Nat :=
  if n < 2 ^ 53 then n else (n.log2 - 52) * 2 ^ 52 + n / 2 ^ (n.log2 - 52)

namespace Binary64

def ofBits (n : Nat) : Binary64 := ⟨BitVec.ofNat 64 n⟩

def toBits (x : Binary64) : Nat := x.bits.toNat

def signbit (x : Binary64) : Bool := 2 ^ 63 ≤ x.toBits

def magnitude (x : Binary64) : Nat := x.toBits % 2 ^ 63

def isNaN (x : Binary64) : Bool := infinityCode < x.magnitude

def isInf (x : Binary64) : Bool := x.magnitude = infinityCode

def isFinite (x : Binary64) : Bool := x.magnitude < infinityCode

/-- The double of a sign and a magnitude. -/
def ofCode (negative : Bool) (code : Nat) : Binary64 := ofBits ((if negative then 2 ^ 63 else 0) + code)

/-- The number a double stands for, in units. -/
def exact (x : Binary64) : Int := if x.signbit then -units x.magnitude else units x.magnitude

/-- `<`, `<=` and `==`, of which a NaN has none. -/
def lt (x y : Binary64) : Bool := !x.isNaN && !y.isNaN && decide (x.exact < y.exact)

def le (x y : Binary64) : Bool := !x.isNaN && !y.isNaN && decide (x.exact ≤ y.exact)

def beq (x y : Binary64) : Bool := !x.isNaN && !y.isNaN && decide (x.exact = y.exact)

end Binary64

section
variable {code n q s : Nat}

theorem units_of_lt (h : code < 2 ^ 53) : units code = code := by
  unfold units
  split
  · rfl
  · rw [show code / 2 ^ 52 - 1 = 0 by omega]
    omega

theorem units_normal (hq : 2 ^ 52 ≤ q) (hq' : q < 2 ^ 53) : units (s * 2 ^ 52 + q) = q * 2 ^ s := by
  unfold units
  rw [if_neg (by omega), show 2 ^ 52 + (s * 2 ^ 52 + q) % 2 ^ 52 = q by omega,
    show (s * 2 ^ 52 + q) / 2 ^ 52 - 1 = s by omega]

theorem units_normal_succ (hq : 2 ^ 52 ≤ q) (hq' : q < 2 ^ 53) :
    units (s * 2 ^ 52 + q + 1) = (q + 1) * 2 ^ s := by
  by_cases hcarry : q + 1 < 2 ^ 53
  · rw [Nat.add_assoc]
    exact units_normal (by omega) hcarry
  · -- all 53 bits are set, so the next magnitude has the next exponent
    have hq : q + 1 = 2 ^ 52 * 2 := by omega
    rw [show s * 2 ^ 52 + q + 1 = (s + 1) * 2 ^ 52 +
      2 ^ 52 by omega, units_normal le_rfl (by omega), hq, pow_succ' 2 s, Nat.mul_assoc]

theorem exists_normal (h : 2 ^ 52 ≤ code) : ∃ s q, 2 ^ 52 ≤ q ∧ q < 2 ^ 53 ∧ code = s * 2 ^ 52 + q :=
  ⟨code / 2 ^ 52 - 1, 2 ^ 52 + code % 2 ^ 52, by omega, by omega, by omega⟩

theorem units_lt_units_succ (code : Nat) : units code < units (code + 1) := by
  by_cases hsmall : code < 2 ^ 52
  · rw [units_of_lt (by omega), units_of_lt (by omega)]
    exact Nat.lt_succ_self code
  · obtain ⟨s, q, hq, hq', rfl⟩ := exists_normal (Nat.not_lt.mp hsmall)
    rw [units_normal hq hq', units_normal_succ hq hq']
    exact Nat.mul_lt_mul_of_pos_right (Nat.lt_succ_self q) (Nat.two_pow_pos s)

theorem units_strictMono : StrictMono units := strictMono_nat_of_lt_succ units_lt_units_succ

theorem units_inj {c d : Nat} : units c = units d ↔ c = d := units_strictMono.injective.eq_iff

theorem unit_pos : 0 < unit := by
  unfold unit
  exact pow_pos two_pos 1074

theorem unit_pos' : (0 : Int) < unit := Int.natCast_pos.mpr unit_pos

theorem units_floorCode (n : Nat) : units (floorCode n) ≤ n ∧ n < units (floorCode n + 1) := by
  unfold floorCode
  split
  next h => exact ⟨(units_of_lt h).le, (units_of_lt h).symm.le.trans_lt (units_lt_units_succ n)⟩
  next h =>
    have hn : n ≠ 0 := by omega
    have hlog : 52 < n.log2 := (Nat.le_log2 hn).mpr (by omega)
    obtain ⟨s, hs⟩ : ∃ s, n.log2 = s + 52 := ⟨n.log2 - 52, by omega⟩
    have hpos : 0 < 2 ^ s := Nat.two_pow_pos s
    have hq : 2 ^ 52 ≤ n / 2 ^ s := by
      rw [Nat.le_div_iff_mul_le hpos, ← Nat.pow_add, Nat.add_comm, ← hs]
      exact Nat.log2_self_le hn
    have hq' : n / 2 ^ s < 2 ^ 53 := by
      rw [Nat.div_lt_iff_lt_mul hpos, ← Nat.pow_add, show 53 + s = n.log2 + 1 by omega]
      exact Nat.lt_log2_self
    rw [hs, Nat.add_sub_cancel, units_normal hq hq', units_normal_succ hq hq']
    exact ⟨Nat.div_mul_le_self n _, Nat.lt_mul_of_div_lt (Nat.lt_succ_self _) hpos⟩

/-- `floorCode` is the lower adjoint of `units`. -/
theorem le_floorCode_iff : code ≤ floorCode n ↔ units code ≤ n := by
  obtain ⟨hlow, hhigh⟩ := units_floorCode n
  constructor
  · exact fun h => (units_strictMono.monotone h).trans hlow
  · intro h
    exact Nat.lt_succ_iff.mp (units_strictMono.lt_iff_lt.mp (h.trans_lt hhigh))

theorem floorCode_units (code : Nat) : floorCode (units code) = code := by
  obtain ⟨hlow, -⟩ := units_floorCode (units code)
  exact Nat.le_antisymm (units_strictMono.le_iff_le.mp hlow) (le_floorCode_iff.mpr le_rfl)

theorem exists_units_eq (hq : q < 2 ^ 53) (s : Nat) : ∃ code, units code = q * 2 ^ s := by
  induction s with
  | zero => exact ⟨q, by rw [units_of_lt hq, Nat.pow_zero, Nat.mul_one]⟩
  | succ s ih =>
    obtain ⟨code, hcode⟩ := ih
    rw [pow_succ 2 s, ← Nat.mul_assoc, ← hcode]
    by_cases hsmall : code < 2 ^ 52
    · exact ⟨code * 2, by rw [units_of_lt (by omega), units_of_lt (by omega)]⟩
    · obtain ⟨t, p, hp, hp', rfl⟩ := exists_normal (Nat.not_lt.mp hsmall)
      refine ⟨(t + 1) * 2 ^ 52 + p, ?_⟩
      rw [units_normal hp hp', units_normal hp hp', pow_succ 2 t, Nat.mul_assoc]

theorem units_infinityCode (hs : s = 2046) : units infinityCode = 2 ^ 52 * 2 ^ s := by
  rw [← units_normal le_rfl (by omega), hs]
  rfl

theorem unit_eq (hs : s = 1074) : unit = 2 ^ s := by
  unfold unit
  exact congrArg (2 ^ ·) hs.symm

end

namespace Binary64
variable {x y z : Binary64} {negative : Bool} {code : Nat}

theorem toBits_lt (x : Binary64) : x.toBits < 2 ^ 64 := x.bits.isLt

theorem ofBits_toBits (x : Binary64) : ofBits x.toBits = x := by
  ext1
  exact (BitVec.ofNat_toNat 64 x.bits).trans (BitVec.setWidth_eq x.bits)

theorem toBits_ofBits {n : Nat} (h : n < 2 ^ 64) : (ofBits n).toBits = n := by
  rw [toBits, ofBits, BitVec.toNat_ofNat, Nat.mod_eq_of_lt h]

theorem magnitude_lt (x : Binary64) : x.magnitude < 2 ^ 63 := Nat.mod_lt _ (by omega)

theorem toBits_ofCode (h : code < 2 ^ 63) :
    (ofCode negative code).toBits = (if negative then 2 ^ 63 else 0) + code :=
  toBits_ofBits (by split <;> omega)

@[simp]
theorem signbit_ofCode (h : code < 2 ^ 63) : (ofCode negative code).signbit = negative := by
  rw [signbit, toBits_ofCode h]
  cases negative with
  | true => simp
  | false => simpa using h

@[simp]
theorem magnitude_ofCode (h : code < 2 ^ 63) : (ofCode negative code).magnitude = code := by
  rw [magnitude, toBits_ofCode h]
  split <;> omega

theorem ofCode_signbit_magnitude (x : Binary64) : ofCode x.signbit x.magnitude = x := by
  have hlt := x.toBits_lt
  rw [ofCode, signbit, magnitude, ← x.ofBits_toBits]
  congr 1
  rw [x.ofBits_toBits]
  split <;> simp_all
  omega

theorem ext_code (hsign : x.signbit = y.signbit) (hmagnitude : x.magnitude = y.magnitude) : x = y := by
  rw [← ofCode_signbit_magnitude x, hsign, hmagnitude, ofCode_signbit_magnitude]

theorem isFinite_iff : x.isFinite = true ↔ x.isNaN = false ∧ x.isInf = false := by
  unfold isFinite isNaN isInf
  simp only [decide_eq_true_eq, decide_eq_false_iff_not]
  omega

theorem magnitude_le_of_not_isNaN (h : x.isNaN = false) : x.magnitude ≤ infinityCode :=
  Nat.not_lt.mp (of_decide_eq_false h)

theorem exact_nonpos (h : x.signbit = true) : x.exact ≤ 0 := by
  simp [exact, h]

theorem exact_nonneg (h : x.signbit = false) : 0 ≤ x.exact := by
  simp [exact, h]

theorem exact_eq_zero_iff : x.exact = 0 ↔ x.magnitude = 0 := by
  have hzero : units x.magnitude = 0 ↔ x.magnitude = 0 := by
    rw [show (0 : Nat) = units 0 from rfl, units_inj]
    rfl
  unfold exact
  split <;> omega

theorem natAbs_exact (x : Binary64) : x.exact.natAbs = units x.magnitude := by
  unfold exact
  split <;> omega

theorem lt_iff : x.lt y = true ↔ x.isNaN = false ∧ y.isNaN = false ∧ x.exact < y.exact := by
  simp [lt, and_assoc]

theorem le_iff : x.le y = true ↔ x.isNaN = false ∧ y.isNaN = false ∧ x.exact ≤ y.exact := by
  simp [le, and_assoc]

theorem beq_iff : x.beq y = true ↔ x.isNaN = false ∧ y.isNaN = false ∧ x.exact = y.exact := by
  simp [beq, and_assoc]

end Binary64

end zl.ieee
