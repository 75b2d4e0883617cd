import Zl.Ieee.Rounding
import Zl.Vm.Gc.Heap

open zl.ieee

namespace zl.vm.value

/-- What an operation of the machine throws: an exception of the machine itself, or an
    `ArithmeticError` that the program can name. -/
inductive VmError where
  | runtime (message : String)
  | arithmetic (message : String)
  deriving DecidableEq, Repr

def isNumericValue : gc.Value → Bool
  | .int _ | .double _ => true
  | _ => false

def toDouble : gc.Value → Except VmError Binary64
  | .int held => .ok (.ofInt held.toInt)
  | .double bits => .ok (.ofBits bits)
  | _ => .error (.runtime "expected a number")

def toInt64Strict : gc.Value → Except VmError Int64
  | .int held => .ok held
  | _ => .error (.runtime "expected a whole number, got a decimal or non-number")

/-- The int64 that a double of its range is truncated to. -/
def truncated (d : Binary64) : Int64 := Int64.ofInt d.toInt

def compareIntAndDouble (i : Int64) (d : Binary64) : Int :=
  let zero := Binary64.ofInt 0
  if d.isNaN then 2
  else if zero.lt d then
    let int64MaxExclusive := Binary64.ofInt (2 ^ 63)
    if int64MaxExclusive.le d then -1
    else
      let lower := d.floor
      let lowerInt := truncated lower
      if i < lowerInt then -1 else if lowerInt < i then 1 else if lower.beq d then 0 else -1
  else if d.lt zero then
    let int64Min := Binary64.ofInt (-2 ^ 63)
    if d.lt int64Min then 1
    else
      let upper := d.ceil
      let upperInt := truncated upper
      if i < upperInt then -1 else if upperInt < i then 1 else if upper.beq d then 0 else 1
  else if i = 0 then 0 else if i < 0 then -1 else 1

/-- `(a > b) - (a < b)`. -/
def orderOf (greater less : Bool) : Int := greater.toInt - less.toInt

def compareNumbers : gc.Value → gc.Value → Except VmError Int
  | .int a, .int b => .ok (orderOf (b < a) (a < b))
  | .int a, .double b => .ok (compareIntAndDouble a (.ofBits b))
  | .double a, .int b => .ok (-compareIntAndDouble b (.ofBits a))
  | .double a, .double b => .ok (orderOf ((Binary64.ofBits b).lt (.ofBits a))
      ((Binary64.ofBits a).lt (.ofBits b)))
  | _, _ => .error (.runtime "expected numeric values")

def compareNumericValues (a b : gc.Value) : Except VmError Int :=
  if !isNumericValue a || !isNumericValue b then .error
    (.runtime "expected numeric values") else compareNumbers a b

def isNaNValue : gc.Value → Bool
  | .double bits => (Binary64.ofBits bits).isNaN
  | _ => false

/-- The number that a value stands for, in the units of the least double. -/
def exactUnits : gc.Value → Int
  | .int held => held.toInt * unit
  | .double bits => (Binary64.ofBits bits).exact
  | _ => 0

section
variable {i : Int64} {d : Binary64}

theorem sign_of_floor (i e : Int) : Int.sign (i * unit - e) =
    if i < e / unit then -1 else if e / unit < i then 1 else if e / unit * unit = e then 0 else -1 := by
  have hle : i ≤ e / unit ↔ i * unit ≤ e := Int.le_ediv_iff_mul_le unit_pos'
  have hfloor : e / unit * unit ≤ e := Int.ediv_mul_le e unit_pos'.ne'
  have hlt : i < e / unit → i * unit < e := fun h =>
    (Int.mul_lt_mul_of_pos_right h unit_pos').trans_le hfloor
  split
  next h => exact Int.sign_eq_neg_one_of_neg (by have := hlt h; omega)
  next h =>
    split
    next h' => exact Int.sign_eq_one_of_pos (by omega)
    next h' =>
      obtain rfl : i = e / unit := by omega
      split
      next heq => rw [heq, Int.sub_self]; rfl
      next heq => exact Int.sign_eq_neg_one_of_neg (by omega)

theorem sign_of_ceil (i e : Int) : Int.sign (i * unit - e) =
    if i < -(-e / unit) then -1 else if -(-e / unit) < i then 1 else if -(-e / unit) * unit =
    e then 0 else 1 := by
  have h := sign_of_floor (-i) (-e)
  rw [show -i * unit - -e = -(i * unit - e) by rw [Int.neg_mul]; omega, Int.sign_neg] at h
  have hneg : -(-e / unit) * unit = e ↔ -e / unit * unit = -e := by rw [Int.neg_mul]; omega
  rcases Int.lt_trichotomy i (-(-e / unit)) with hlt | heq | hgt
  · rw [if_neg (by omega), if_pos (by omega)] at h
    rw [if_pos hlt]
    omega
  · rw [if_neg (by omega), if_neg (by omega)] at h
    rw [if_neg (by omega), if_neg (by omega), if_congr hneg rfl rfl]
    split at h
    next hexact => rw [if_pos hexact]; omega
    next hexact => rw [if_neg hexact]; omega
  · rw [if_pos (by omega)] at h
    rw [if_neg (by omega), if_pos hgt]
    omega

theorem toInt_truncated {n : Int} (hexact : d.exact = n * unit) (hlow : -2 ^ 63 ≤ n) (hhigh : n < 2 ^ 63) :
    (truncated d).toInt = n := by
  rw [truncated, Binary64.toInt, hexact, Int.mul_tdiv_cancel _ unit_pos'.ne',
    Int64.toInt_ofInt_of_le hlow hhigh]

/-- An integer and a double are compared exactly. -/
theorem compareIntAndDouble_eq (hnan : d.isNaN = false) :
    compareIntAndDouble i d = Int.sign (i.toInt * unit - d.exact) := by
  have hlow := i.le_toInt
  have hhigh := i.toInt_lt
  have hmax : (Binary64.ofInt (2 ^ 63)).exact = 2 ^ 63 * unit :=
    Binary64.exact_ofInt_of_eq (q := 1) (r := 63) (by omega) (by omega) rfl
  have hmin : (Binary64.ofInt (-2 ^ 63)).exact = -2 ^ 63 * unit :=
    Binary64.exact_ofInt_of_eq (q := 1) (r := 63) (by omega) (by omega) rfl
  have hlt {n : Int} : (Binary64.ofInt n).lt d = true ↔ (Binary64.ofInt n).exact < d.exact := by
    simp [Binary64.lt_iff, Binary64.isNaN_ofInt, hnan]
  have hlt' {n : Int} : d.lt (Binary64.ofInt n) = true ↔ d.exact < (Binary64.ofInt n).exact := by
    simp [Binary64.lt_iff, Binary64.isNaN_ofInt, hnan]
  have hle {n : Int} : (Binary64.ofInt n).le d = true ↔ (Binary64.ofInt n).exact ≤ d.exact := by
    simp [Binary64.le_iff, Binary64.isNaN_ofInt, hnan]
  unfold compareIntAndDouble
  simp only [hnan, Bool.false_eq_true, if_false, hlt, hlt', hle, hmax, hmin, Binary64.exact_ofInt_zero]
  have hexact {r : Binary64} {n : Int} (hr : r.isNaN = false) (h : r.exact = n * unit)
    (hn : -2 ^ 63 ≤ n) (hn' : n < 2 ^ 63) :
      ((i < truncated r ↔ i.toInt < n) ∧ (truncated r < i ↔ n < i.toInt)) ∧
        (r.beq d = true ↔ n * unit = d.exact) := by
    rw [Int64.lt_iff_toInt_lt, Int64.lt_iff_toInt_lt, toInt_truncated h hn hn', Binary64.beq_iff, h]
    simp [hr, hnan]
  split
  next hpos =>
    split
    next hge =>
      have := Int.mul_lt_mul_of_pos_right hhigh unit_pos'
      exact (Int.sign_eq_neg_one_of_neg (by omega)).symm
    next hge =>
      have hfinite : d.isFinite = true := Binary64.isFinite_of_bounds (by omega)
      obtain ⟨⟨h₁, h₂⟩, h₃⟩ := hexact (Binary64.isNaN_floor hnan) (Binary64.exact_floor hfinite)
        ((show -2 ^ 63 ≤ (0 : Int) by omega).trans (Int.ediv_nonneg (by omega) unit_pos'.le))
        (Int.ediv_lt_of_lt_mul unit_pos' (by omega))
      rw [sign_of_floor]
      simp only [h₁, h₂, h₃]
  next hpos =>
    split
    next hneg =>
      split
      next hlt =>
        have := Int.mul_le_mul_of_nonneg_right hlow unit_pos'.le
        exact (Int.sign_eq_one_of_pos (by omega)).symm
      next hge =>
        have hfinite : d.isFinite = true := Binary64.isFinite_of_bounds (by omega)
        obtain ⟨⟨h₁, h₂⟩, h₃⟩ := hexact (Binary64.isNaN_ceil hnan) (Binary64.exact_ceil hfinite)
          (by have := Int.ediv_le_of_le_mul unit_pos' (show -d.exact ≤ 2 ^ 63 * unit by omega); omega)
          (by have := Int.ediv_nonneg (show 0 ≤ -d.exact by omega) unit_pos'.le; omega)
        rw [sign_of_ceil]
        simp only [h₁, h₂, h₃]
    next hneg =>
      have hzero : i = 0 ↔ i.toInt = 0 := Int64.toInt_inj.symm
      rw [show d.exact = 0 by omega, Int.sub_zero, Int.sign_mul, Int.sign_eq_one_of_pos unit_pos',
        Int.mul_one]
      simp only [hzero, Int64.lt_iff_toInt_lt, Int64.toInt_zero]
      split
      next h => rw [h]; rfl
      next h =>
        split
        next h' => exact (Int.sign_eq_neg_one_of_neg h').symm
        next h' => exact (Int.sign_eq_one_of_pos (by omega)).symm

theorem orderOf_eq {a b : Int} {greater less : Bool} (hgreater : greater = true ↔ b < a)
    (hless : less = true ↔ a < b) :
    orderOf greater less = Int.sign (a - b) := by
  unfold orderOf
  rcases Int.lt_trichotomy a b with h | rfl | h
  · have hnot : greater = false := Bool.eq_false_iff.mpr fun hg => by
      have := hgreater.mp hg
      omega
    rw [Int.sign_eq_neg_one_of_neg (by omega), hless.mpr h, hnot]
    rfl
  · have hnot : greater = false := Bool.eq_false_iff.mpr fun hg => Int.lt_irrefl a (hgreater.mp hg)
    have hnot' : less = false := Bool.eq_false_iff.mpr fun hl => Int.lt_irrefl a (hless.mp hl)
    rw [Int.sub_self, hnot, hnot']
    rfl
  · have hnot : less = false := Bool.eq_false_iff.mpr fun hl => by
      have := hless.mp hl
      omega
    rw [Int.sign_eq_one_of_pos (by omega), hgreater.mpr h, hnot]
    rfl

/-- Two numbers are compared exactly. -/
theorem compareNumbers_eq {a b : gc.Value} (ha : isNumericValue a = true) (hb : isNumericValue b = true)
    (hnan : isNaNValue a = false) (hnan' : isNaNValue b = false) :
    compareNumbers a b = .ok (Int.sign (exactUnits a - exactUnits b)) := by
  cases a with
  | int a =>
    cases b with
    | int b =>
      rw [compareNumbers, orderOf_eq (a := a.toInt) (b := b.toInt)]
      · rw [exactUnits, exactUnits, ← Int.sub_mul, Int.sign_mul, Int.sign_eq_one_of_pos unit_pos',
          Int.mul_one]
      · rw [decide_eq_true_iff, Int64.lt_iff_toInt_lt]
      · rw [decide_eq_true_iff, Int64.lt_iff_toInt_lt]
    | double b => rw [compareNumbers, compareIntAndDouble_eq hnan', exactUnits, exactUnits]
    | _ => nomatch hb
  | double a =>
    cases b with
    | int b => rw [compareNumbers, compareIntAndDouble_eq hnan, ← Int.sign_neg, Int.neg_sub,
        exactUnits, exactUnits]
    | double b =>
      rw [isNaNValue] at hnan hnan'
      rw [compareNumbers, orderOf_eq (a := (Binary64.ofBits a).exact) (b := (Binary64.ofBits b).exact)]
      · rfl
      · simp [Binary64.lt_iff, hnan, hnan']
      · simp [Binary64.lt_iff, hnan, hnan']
    | _ => nomatch hb
  | _ => nomatch ha

end

end zl.vm.value
