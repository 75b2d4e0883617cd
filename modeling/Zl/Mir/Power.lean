import Zl.Mir.FoldingAgreement

open zl.vm zl.vm.value

namespace zl.mir

theorem representable_eq_some {n : Int} {r : Int64} : representable n = some r ↔ r.toInt = n := by
  constructor
  · intro h
    unfold representable at h
    split at h
    next hrange =>
      rw [← Option.some.inj h]
      exact Int64.toInt_ofInt_of_le hrange.1 hrange.2
    next => nomatch h
  · rintro rfl
    rw [representable, if_pos ⟨r.le_toInt, r.toInt_lt⟩, Int64.ofInt_toInt]

theorem representable_eq_none {n : Int} : representable n = none ↔ n < -2 ^ 63 ∨ 2 ^ 63 ≤ n := by
  unfold representable
  split
  next h => exact iff_of_false nofun (not_or.mpr ⟨not_lt.mpr h.1, not_le.mpr h.2⟩)
  next h =>
    rw [not_and_or, not_le, not_lt] at h
    exact iff_of_true rfl h

theorem representable_mul_of_none {n m : Int} (h : representable n = none) (hm : 0 < m) :
    representable (n * m) = none := by
  rw [representable_eq_none] at h ⊢
  have hone : 1 ≤ m := hm
  rcases h with h | h
  · left
    nlinarith
  · right
    nlinarith

/-- The square of no integer is exactly the first power that is out of range. -/
theorem lt_mul_self_of_none {f : Int} (h : representable (f * f) = none) : 2 ^ 63 < f * f := by
  rw [representable_eq_none] at h
  have hle : 2 ^ 63 ≤ f * f := h.resolve_left (by nlinarith [mul_self_nonneg f])
  refine lt_of_le_of_ne hle fun heq => ?_
  have habs : |f| * |f| = 2 ^ 63 := by rw [abs_mul_abs_self, ← heq]
  have hnonneg := abs_nonneg f
  by_cases hroot : |f| ≤ 3037000499
  · nlinarith
  · nlinarith

theorem representable_square_mul {r f : Int} {n : Nat} (hr : r ≠ 0) (hn : n ≠ 0)
    (h : representable (f * f) = none) :
    representable (r * (f * f) ^ n) = none := by
  have hlt := lt_mul_self_of_none h
  have hpow : f * f ≤ (f * f) ^ n := le_self_pow₀ (by linarith) hn
  rw [representable_eq_none]
  rcases lt_or_gt_of_ne hr with hneg | hpos
  · left
    nlinarith
  · right
    nlinarith

/-- The loop multiplies up the exact power, as long as a result of zero comes from a factor of zero. -/
theorem powChecked_exact (n : Nat) (result factor : Int64) (hzero : result.toInt = 0 → factor.toInt = 0) :
    powChecked result factor n = representable (result.toInt * factor.toInt ^ n) := by
  induction n using Nat.strong_induction_on generalizing result factor with
  | _ n ih =>
    rw [powChecked]
    split
    next hn => rw [hn, pow_zero, mul_one, representable_eq_some.mpr rfl]
    next hn =>
      -- the power that is left once the lowest bit is multiplied up
      have hsplit : result.toInt * factor.toInt ^ n =
          (if n % 2 = 1 then result.toInt * factor.toInt else result.toInt) *
          (factor.toInt * factor.toInt) ^ (n / 2) := by
        rw [← sq, ← pow_mul]
        split
        next hodd => rw [mul_assoc, ← pow_succ', show 2 * (n / 2) + 1 = n by omega]
        next heven => rw [show 2 * (n / 2) = n by omega]
      have hrest (held : Int64) (hheld : held.toInt = if n % 2 =
        1 then result.toInt * factor.toInt else result.toInt) :
          (if n / 2 = 0 then some held
          else do powChecked held (← mulChecked factor factor) (n / 2)) =
            representable (result.toInt * factor.toInt ^ n) := by
        rw [hsplit, ← hheld]
        split
        next hlast => rw [hlast, pow_zero, mul_one, representable_eq_some.mpr rfl]
        next hmore =>
          have hheldZero : held.toInt = 0 → factor.toInt = 0 := by
            rw [hheld]
            split
            · exact fun h => (mul_eq_zero.mp h).elim hzero id
            · exact hzero
          cases hsquare : mulChecked factor factor with
          | none =>
            have hne : held.toInt ≠ 0 := fun h => by
              have hlt := lt_mul_self_of_none hsquare
              rw [hheldZero h] at hlt
              exact absurd hlt (by decide)
            exact (representable_square_mul hne hmore hsquare).symm
          | some square =>
            have hvalue : square.toInt = factor.toInt * factor.toInt := representable_eq_some.mp hsquare
            have hsquareZero : held.toInt = 0 → square.toInt = 0 :=
              fun h => by rw [hvalue, hheldZero h, mul_zero]
            rw [← hvalue]
            exact ih (n / 2) (by omega) held square hsquareZero
      by_cases hodd : n % 2 = 1
      · rw [if_pos hodd]
        cases hproduct : mulChecked result factor with
        | none =>
          have hne : factor.toInt ≠ 0 := fun h => by
            rw [mulChecked, h, mul_zero] at hproduct
            exact absurd hproduct (by decide)
          rw [hsplit, if_pos hodd]
          exact (representable_mul_of_none hproduct (pow_pos (mul_self_pos.mpr hne) _)).symm
        | some held => exact hrest held ((representable_eq_some.mp hproduct).trans (if_pos hodd).symm)
      · rw [if_neg hodd]
        exact hrest result (if_neg hodd).symm

theorem powChecked_one (base : Int64) (exponent : Nat) :
    powChecked 1 base exponent = representable (base.toInt ^ exponent) := by
  rw [powChecked_exact _ 1 base fun hone => absurd hone (by decide)]
  exact congrArg representable (one_mul _)

theorem binaryArith_pow (library : Library) (base exponent : Int64) (h : 0 ≤ exponent) :
    binaryArith library .Pow (.int base) (.int exponent) =
      match representable (base.toInt ^ exponent.toInt.toNat) with
      | some r => .ok (.int r)
      | none => .error (.arithmetic "integer overflow in exponentiation") := by
  rw [← powChecked_one, powChecked_eq]
  exact if_pos h

/-- Both powers are the exact one where it fits in 64 bits, and refused where it does not. -/
theorem pow_exact (library : Library) (base exponent : Int64) (h : 0 ≤ exponent) :
    let exact := base.toInt ^ exponent.toInt.toNat
    (∀ r, powChecked 1 base exponent.toInt.toNat = some r ↔ r.toInt = exact) ∧
      (∀ v, binaryArith library .Pow (.int base) (.int exponent) = .ok v ↔ ∃ r : Int64, v = .int r ∧
      r.toInt = exact) ∧ ((∀ r : Int64, r.toInt ≠ exact) →
      powChecked 1 base exponent.toInt.toNat = none ∧
      binaryArith library .Pow (.int base) (.int exponent) =
      .error (.arithmetic "integer overflow in exponentiation")) := by
  intro exact
  rw [powChecked_one, binaryArith_pow library base exponent h]
  refine ⟨fun r => representable_eq_some, fun v => ?_, fun hout => ?_⟩
  · cases hexact : representable exact with
    | none =>
      refine iff_of_false (by intro h; cases h) ?_
      rintro ⟨r, -, hr⟩
      cases hexact.symm.trans (representable_eq_some.mpr hr)
    | some r =>
      constructor
      · rintro hv
        exact ⟨r, (Except.ok.inj hv).symm, representable_eq_some.mp hexact⟩
      · rintro ⟨s, rfl, hs⟩
        rw [Option.some.inj (hexact.symm.trans (representable_eq_some.mpr hs))]
  · cases hexact : representable exact with
    | none => exact ⟨rfl, rfl⟩
    | some r => exact absurd (representable_eq_some.mp hexact) (hout r)

/-- The least integer is a power of -2. -/
theorem pow_exact_minValue :
    binaryArith foldLibrary .Pow (.int (-2)) (.int 63) = .ok (.int Int64.minValue) :=
  ((pow_exact foldLibrary (-2) 63 (by decide)).2.1 _).mpr ⟨_, rfl, by decide⟩

end zl.mir
