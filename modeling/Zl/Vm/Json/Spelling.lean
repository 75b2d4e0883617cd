import Zl.Vm.Json.Accepted
import Zl.Vm.Json.Encode

namespace zl.vm.json

theorem digitsValue_append (ds es : Bytes) :
    digitsValue (ds ++ es) = es.foldl (fun value d => value * 10 + (d.toNat - 48)) (digitsValue ds) := by
  rw [digitsValue, List.foldl_append, digitsValue]

theorem digitsValue_zeros (ds : Bytes) (k : Nat) : digitsValue (ds ++ List.replicate k zero) =
    digitsValue ds * 10 ^ k := by
  induction k with
  | zero => rw [List.replicate_zero, List.append_nil, Nat.pow_zero, Nat.mul_one]
  | succ k ih =>
    rw [List.replicate_succ', ← List.append_assoc, digitsValue_append, ih]
    exact (Nat.add_zero _).trans (Nat.mul_assoc _ _ _)

theorem digit_lt (d : UInt8) (h : isDigit d = true) : d.toNat - 48 < 10 := by
  simp only [isDigit, Bool.and_eq_true, decide_eq_true_eq, UInt8.le_iff_toNat_le] at h
  have hle : d.toNat ≤ 57 := h.2
  omega

theorem digitsValue_lt {ds : Bytes} (hds : ∀ d ∈ ds, isDigit d = true) :
    digitsValue ds < 10 ^ ds.length := by
  induction ds using List.reverseRecOn with
  | nil => exact Nat.one_pos
  | append_singleton ds d ih =>
    have hrest := ih fun d hd => hds d (List.mem_append_left _ hd)
    have hd := digit_lt d (hds d List.mem_concat_self)
    rw [digitsValue_append, List.length_append, List.length_singleton, Nat.pow_succ]
    simp only [List.foldl_cons, List.foldl_nil]
    omega

theorem digits_zeros {ds : Bytes} (hds : Digits ds) (k : Nat) : Digits (ds ++ List.replicate k zero) := by
  refine ⟨List.append_ne_nil_of_left_ne_nil hds.1 _, fun d hd => ?_⟩
  rcases List.mem_append.mp hd with hd | hd
  · exact hds.2 d hd
  · rw [List.eq_of_mem_replicate hd]
    rfl

theorem digitChar_digit {d : Nat} (hd : d < 10) : (Nat.digitChar d).toUInt8 = UInt8.ofNat (48 + d) :=
  (by decide : ∀ d : Fin 10, (Nat.digitChar d).toUInt8 = UInt8.ofNat (48 + d)) ⟨d, hd⟩

theorem decimal_of_lt {n : Nat} (hn : n < 10) : decimal n = [UInt8.ofNat (48 + n)] := by
  rw [decimal, Nat.toDigits_of_lt_base hn, List.map_singleton, digitChar_digit hn]

theorem decimal_of_le {n : Nat} (hn : 10 ≤ n) :
    decimal n = decimal (n / 10) ++ [UInt8.ofNat (48 + n % 10)] := by
  rw [decimal, Nat.toDigits_of_base_le (by decide) hn, List.map_append, List.map_singleton,
    digitChar_digit (Nat.mod_lt n (by decide)), decimal]

theorem toNat_digit {d : Nat} (hd : d < 10) : (UInt8.ofNat (48 + d)).toNat = 48 + d := by
  rw [UInt8.toNat_ofNat']
  omega

theorem isDigit_digit {d : Nat} (hd : d < 10) : isDigit (UInt8.ofNat (48 + d)) = true :=
  (by decide : ∀ d : Fin 10, isDigit (UInt8.ofNat (48 + d)) = true) ⟨d, hd⟩

theorem decimal_digits (n : Nat) : Digits (decimal n) := by
  induction n using Nat.strong_induction_on with
  | _ n ih =>
    rcases Nat.lt_or_ge n 10 with hn | hn
    · rw [decimal_of_lt hn]
      exact ⟨List.cons_ne_nil _ _, fun d hd => List.mem_singleton.mp hd ▸ isDigit_digit hn⟩
    · obtain ⟨-, hdigits⟩ := ih (n / 10) (by omega)
      rw [decimal_of_le hn]
      refine ⟨List.append_ne_nil_of_right_ne_nil _ (List.cons_ne_nil _ _), fun d hd => ?_⟩
      rcases List.mem_append.mp hd with hd | hd
      · exact hdigits d hd
      · exact List.mem_singleton.mp hd ▸ isDigit_digit (Nat.mod_lt n (by decide))

theorem digitsValue_decimal (n : Nat) : digitsValue (decimal n) = n := by
  induction n using Nat.strong_induction_on with
  | _ n ih =>
    rcases Nat.lt_or_ge n 10 with hn | hn
    · rw [decimal_of_lt hn]
      simp only [digitsValue, List.foldl_cons, List.foldl_nil, toNat_digit hn]
      omega
    · rw [decimal_of_le hn, digitsValue_append, ih (n / 10) (by omega)]
      simp only [List.foldl_cons, List.foldl_nil, toNat_digit (Nat.mod_lt n (show 0 < 10 by decide))]
      omega

theorem decimal_head {n : Nat} (hn : 0 < n) : (decimal n).head? ≠ some zero := by
  induction n using Nat.strong_induction_on with
  | _ n ih =>
    rcases Nat.lt_or_ge n 10 with hlt | hge
    · rw [decimal_of_lt hlt]
      intro heq
      have hnat := congrArg UInt8.toNat (Option.some.inj heq)
      rw [toNat_digit hlt] at hnat
      have hzero : zero.toNat = 48 := rfl
      omega
    · rw [decimal_of_le hge, List.head?_append_of_ne_nil _ (decimal_digits _).1]
      exact ih (n / 10) (by omega) (by omega)

theorem decimal_int (n : Nat) : decimal n = [zero] ∨ Digits (decimal n) ∧
    (decimal n).head? ≠ some zero := by
  rcases Nat.eq_zero_or_pos n with rfl | hn
  · exact .inl rfl
  · exact .inr ⟨decimal_digits n, decimal_head hn⟩

section
variable {stod : Bytes → Option Nat} {unique : Prop}

/-- `std::stoll` reads what an optional sign and a run of digits say. -/
theorem stoll_eq {sgn int : Bytes} {n : Int64} (hint : Digits int)
    (hn : sgn = [] ∧ n.toInt = digitsValue int ∨ sgn = [minus] ∧ n.toInt = -(digitsValue int : Int)) :
    stoll (sgn ++ int) = some n := by
  have hrange : -2 ^ 63 ≤ n.toInt ∧ n.toInt < 2 ^ 63 := ⟨n.le_toInt, n.toInt_lt⟩
  obtain ⟨hne, hdigits⟩ := hint
  cases int with
  | nil => exact absurd rfl hne
  | cons c int =>
    have hc : c ≠ minus := by
      rintro rfl
      exact absurd (hdigits minus List.mem_cons_self) (by decide)
    rcases hn with ⟨rfl, hvalue⟩ | ⟨rfl, hvalue⟩
    · simp only [stoll, List.nil_append, if_neg hc]
      rw [← hvalue, if_pos hrange, Int64.ofInt_toInt]
    · simp only [stoll, List.cons_append, List.nil_append, if_true]
      rw [← hvalue, if_pos hrange, Int64.ofInt_toInt]

theorem spells_whole {k : Nat} {r : Bytes} {n : Int64} (sgn int : Bytes)
    (hint : Digits int ∧ (int = [zero] ∨ int.head? ≠ some zero))
    (hn : sgn = [] ∧ n.toInt = digitsValue int ∨ sgn = [minus] ∧ n.toInt = -(digitsValue int : Int))
    (hr : Follow [] [] r) :
    Spells stod unique k (sgn ++ int ++ r) (.int n) r := by
  have hsgn : sgn = [] ∨ sgn = [minus] := hn.imp And.left And.left
  have htext : NumberText sgn int [] [] := by
    refine ⟨hsgn, ?_, .inl rfl, .inl rfl⟩
    exact hint.2.imp_right fun hhead => ⟨hint.1, hhead⟩
  have hvalue : numberValue stod sgn int [] [] = some (.int n) := by
    rw [numberValue, if_neg (by simp), List.append_nil, List.append_nil, stoll_eq hint.1 hn]
    rfl
  have hspells : Spells stod unique k (sgn ++ int ++ [] ++ [] ++ r) (.int n) r := .number htext hvalue hr
  rwa [List.append_nil, List.append_nil] at hspells

theorem spells_int {k : Nat} {n : Int64} {r : Bytes} (hr : Follow [] [] r) :
    Spells stod unique k (stdToString n.toInt ++ r) (.int n) r := by
  have hint : Digits (decimal n.toInt.natAbs) ∧
      (decimal n.toInt.natAbs = [zero] ∨ (decimal n.toInt.natAbs).head? ≠ some zero) :=
    ⟨decimal_digits _, (decimal_int _).imp_right And.right⟩
  rw [stdToString]
  split
  · next hneg =>
    refine spells_whole [minus] (decimal n.toInt.natAbs) hint (.inr ⟨rfl, ?_⟩) hr
    rw [digitsValue_decimal]
    omega
  · next hpos =>
    refine spells_whole [] (decimal n.toInt.natAbs) hint (.inl ⟨rfl, ?_⟩) hr
    rw [digitsValue_decimal]
    omega

end

/-- The text is in scientific form, as in `1.5e+00`. -/
def Scientific (text : Bytes) : Prop :=
  ∃ d frac exponent, isDigit d = true ∧ d ≠ zero ∧ (∀ c ∈ frac, isDigit c = true) ∧
    (text = d :: exponentMark :: exponent ∨ text = d :: dot :: (frac ++ exponentMark :: exponent))

/-- What the library promises about printing a finite double other than zero: both ways give the
    scientific form, and 17 digits are enough. -/
structure StandardLibrary.Prints (lib : StandardLibrary) (bits : Nat) : Prop where
  toChars_scientific : ∀ text, lib.toChars (fabs bits) = some text → Scientific text
  snprintf_scientific : ∀ precision ≤ 16, ∃ text, lib.snprintf precision (fabs bits) = some text ∧
    Scientific text
  strtod_snprintf : ∀ text, lib.snprintf 16 (fabs bits) = some text → lib.strtod text = fabs bits

/-- The shortest spelling is read back, too. -/
structure StandardLibrary.Conforms (lib : StandardLibrary) (bits : Nat) : Prop extends lib.Prints bits where
  stod_spelling : lib.stod (doubleToShortestString lib bits) = some bits

/-- Digits that do not start with zero. -/
def Significant (digits : Bytes) : Prop := Digits digits ∧ digits.head? ≠ some zero

theorem isDigit_ne (c : UInt8) (h : isDigit c = true) : c ≠ exponentMark ∧ c ≠ dot := by
  have hmark : exponentMark = 101 := rfl
  have hdot : dot = 46 := rfl
  grind [isDigit]

theorem scientificParts_single {d : UInt8} (hd : isDigit d = true) (exponent : Bytes) :
    scientificParts (d :: exponentMark :: exponent) = some ([d], strtol exponent) := by
  obtain ⟨hmark, hdot⟩ := isDigit_ne d hd
  simp [scientificParts, hmark, hdot]

theorem scientificParts_fractional {d : UInt8} {frac : Bytes} (hd : isDigit d = true)
    (hfrac : ∀ c ∈ frac, isDigit c = true) (exponent : Bytes) :
    scientificParts (d :: dot :: (frac ++ exponentMark :: exponent)) = some (d :: frac, strtol exponent) := by
  obtain ⟨hmark, hdot⟩ := isDigit_ne d hd
  have hbefore : ∀ c ∈ d :: dot :: frac, (decide (c ≠ exponentMark)) = true := by
    simp only [List.mem_cons, decide_eq_true_eq]
    rintro c (rfl | rfl | hc)
    · exact hmark
    · decide
    · exact (isDigit_ne c (hfrac c hc)).1
  have htake : (d :: dot :: (frac ++ exponentMark :: exponent)).takeWhile (· ≠ exponentMark) =
      d :: dot :: frac := by
    rw [← List.cons_append, ← List.cons_append, List.takeWhile_append_of_pos hbefore]
    simp
  have hdrop : (d :: dot :: (frac ++ exponentMark :: exponent)).dropWhile (· ≠ exponentMark) =
      exponentMark :: exponent := by
    rw [← List.cons_append, ← List.cons_append, List.dropWhile_append_of_pos hbefore]
    simp
  have hfilter : (d :: dot :: frac).filter (· ≠ dot) = d :: frac := by
    have hall : frac.filter (· ≠ dot) = frac :=
      List.filter_eq_self.mpr fun c hc => decide_eq_true (isDigit_ne c (hfrac c hc)).2
    simp only [List.filter_cons, hall, decide_eq_true hdot, ne_eq, not_true_eq_false,
      decide_false, if_true, Bool.false_eq_true, if_false]
  rw [scientificParts, hdrop]
  simp only
  rw [htake, hfilter]

theorem scientificParts_of_scientific {text : Bytes} (h : Scientific text) :
    ∃ parts, scientificParts text = some parts ∧ Significant parts.1 := by
  obtain ⟨d, frac, exponent, hd, hzero, hfrac, htext⟩ := h
  have hsignificant (frac : Bytes) (hfrac : ∀ c ∈ frac, isDigit c = true) : Significant (d :: frac) :=
    ⟨⟨List.cons_ne_nil _ _, List.forall_mem_cons.mpr ⟨hd, hfrac⟩⟩, fun heq => hzero (Option.some.inj heq)⟩
  rcases htext with rfl | rfl
  · exact ⟨_, scientificParts_single hd exponent, hsignificant [] nofun⟩
  · exact ⟨_, scientificParts_fractional hd hfrac exponent, hsignificant frac hfrac⟩

section
variable {lib : StandardLibrary} {bits : Nat}

/-- One of the precisions is enough, and the digits are those of a text that reads back. -/
theorem digitsOfPrecision_ok (h : lib.Prints bits) {precisions : List Nat}
    (hprecisions : ∀ precision ∈ precisions, precision ≤ 17) (hmax : 17 ∈ precisions) :
    ∃ text parts, digitsOfPrecision lib (fabs bits) precisions = some parts ∧ Scientific text ∧
      scientificParts text = some parts ∧ lib.strtod text = fabs bits := by
  induction precisions with
  | nil => nomatch hmax
  | cons precision rest ih =>
    obtain ⟨hprecision, hrest⟩ := List.forall_mem_cons.mp hprecisions
    obtain ⟨text, htext, hscientific⟩ := h.snprintf_scientific (precision - 1) (by omega)
    rw [digitsOfPrecision, htext]
    dsimp only
    split
    · next hdiffers =>
      refine ih hrest
        ((List.mem_cons.mp hmax).resolve_left fun heq => hdiffers (h.strtod_snprintf text ?_))
      rw [← heq] at htext
      exact htext
    · next hreads =>
      obtain ⟨parts, hparts, -⟩ := scientificParts_of_scientific hscientific
      exact ⟨text, parts, hparts, hscientific, hparts, not_not.mp hreads⟩

/-- The digits are those of a text in scientific form that reads back. -/
theorem shortestDigits_text (h : lib.Prints bits) :
    ∃ text parts, shortestDigits lib bits = some parts ∧ Scientific text ∧
      scientificParts text = some parts ∧ lib.strtod text = fabs bits := by
  rw [shortestDigits]
  split
  · next parts hparts =>
    obtain ⟨text, htext, hfilter⟩ := Option.bind_eq_some_iff.mp hparts
    obtain ⟨hsome, hreads⟩ := Option.filter_eq_some_iff.mp hfilter
    exact ⟨text, parts, rfl, h.toChars_scientific text htext, hsome, of_decide_eq_true hreads⟩
  · exact digitsOfPrecision_ok h (by decide) (by decide)

theorem shortestDigits_ok (h : lib.Conforms bits) :
    ∃ parts, shortestDigits lib bits = some parts ∧ Significant parts.1 := by
  obtain ⟨text, parts, hshortest, hscientific, hparts, -⟩ := shortestDigits_text h.toPrints
  obtain ⟨parts', hparts', hsignificant⟩ := scientificParts_of_scientific hscientific
  rw [hparts] at hparts'
  cases hparts'
  exact ⟨parts, hshortest, hsignificant⟩

theorem digitsErase_prefix (digits : Bytes) : digitsErase digits <+: digits := by
  rw [digitsErase]
  split
  · exact List.take_prefix _ _
  · exact List.rdropWhile_prefix _ _

theorem significant_digitsErase {digits : Bytes} (h : Significant digits) :
    Significant (digitsErase digits) := by
  obtain ⟨⟨hne, hdigits⟩, hzero⟩ := h
  have hne' : digitsErase digits ≠ [] := by
    rw [digitsErase]
    split
    · exact fun heq => hne ((List.take_eq_nil_iff.mp heq).resolve_left (by decide))
    · next hnot => exact fun heq => hnot heq
  obtain ⟨rest, hrest⟩ := digitsErase_prefix digits
  rw [← hrest] at hdigits hzero
  rw [List.head?_append_of_ne_nil _ hne'] at hzero
  exact ⟨⟨hne', fun d hd => hdigits d (List.mem_append_left _ hd)⟩, hzero⟩

end

/-- The number is spelled without a decimal point and without an exponent. -/
def WholeForm (digits : Bytes) (exponent : Int) : Prop :=
  0 ≤ exponent ∧ exponent < 17 ∧ (digits.length : Int) ≤ exponent + 1

instance (digits : Bytes) (exponent : Int) : Decidable (WholeForm digits exponent) :=
  inferInstanceAs (Decidable (_ ∧ _))

theorem spelling_whole {digits : Bytes} {exponent : Int} (h : WholeForm digits exponent) :
    spelling digits exponent = digits ++ List.replicate (exponent.toNat + 1 - digits.length) zero := by
  obtain ⟨hnonneg, hlt, hlength⟩ := h
  rw [spelling]
  dsimp only
  rw [if_pos (by omega), if_neg (by omega), if_pos (by omega)]
  congr 2
  omega

theorem spelling_fractional {digits : Bytes} {exponent : Int} (hdigits : Significant digits)
    (h : ¬ WholeForm digits exponent) :
    ∃ int frac exp, spelling digits exponent = int ++ frac ++ exp ∧
      (∀ sgn, sgn = [] ∨ sgn = [minus] → NumberText sgn int frac exp) ∧ (frac ≠ [] ∨ exp ≠ []) := by
  obtain ⟨⟨hne, hall⟩, hhead⟩ := hdigits
  rw [spelling]
  dsimp only
  split
  · next hfixed =>
    split
    · next hsmall =>
      refine ⟨[zero], dot :: (List.replicate (-(exponent + 1)).toNat zero ++ digits),
        [], by simp, fun sgn hsgn => ?_, .inl (by simp)⟩
      refine ⟨hsgn, .inl rfl, .inr ⟨_, ⟨List.append_ne_nil_of_right_ne_nil _ hne, fun d hd => ?_⟩,
        rfl⟩, .inl rfl⟩
      rcases List.mem_append.mp hd with hd | hd
      · rw [List.eq_of_mem_replicate hd]
        rfl
      · exact hall d hd
    · next hlarge =>
      rw [if_neg fun hle => h ⟨by omega, by omega, by omega⟩]
      have hshort : (exponent + 1).toNat < digits.length := by
        by_contra hle
        exact h ⟨by omega, by omega, by omega⟩
      refine ⟨digits.take (exponent + 1).toNat,
        dot :: digits.drop (exponent + 1).toNat, [], by simp, fun sgn hsgn => ?_, .inl (by simp)⟩
      refine ⟨hsgn, .inr ⟨⟨?_, fun d hd => hall d (List.mem_of_mem_take hd)⟩, ?_⟩,
        .inr ⟨_, ⟨?_, fun d hd => ?_⟩, rfl⟩, .inl rfl⟩
      · exact fun heq => (List.take_eq_nil_iff.mp heq).elim (by omega) hne
      · cases digits with
        | nil => exact absurd rfl hne
        | cons d digits =>
          obtain ⟨k, hk⟩ : ∃ k, (exponent + 1).toNat = k + 1 := ⟨(exponent + 1).toNat - 1, by omega⟩
          rw [hk]
          exact hhead
      · exact fun heq => absurd (List.drop_eq_nil_iff.mp heq) (by omega)
      · exact hall d (List.mem_of_mem_drop hd)
  · next hscientific =>
    have hexp (sgn : UInt8) (hsgn : sgn = plus ∨ sgn = minus) (k : Nat) :
        ∃ mark sgn' ds, isExponentMark mark = true ∧ (sgn' = [] ∨ sgn' = [plus] ∨ sgn' = [minus]) ∧
          Digits ds ∧ exponentMark :: sgn :: ((if k < 10 then [zero] else []) ++ decimal k) =
          mark :: (sgn' ++ ds) := by
      refine ⟨exponentMark, [sgn], _, rfl,
        .inr (hsgn.imp (congrArg (· :: [])) (congrArg (· :: []))), ⟨?_, fun d hd => ?_⟩, rfl⟩
      · exact List.append_ne_nil_of_right_ne_nil _ (decimal_digits k).1
      · rcases List.mem_append.mp hd with hd | hd
        · split at hd
          · rw [List.mem_singleton.mp hd]
            rfl
          · nomatch hd
        · exact (decimal_digits k).2 d hd
    have hsign : (if exponent + 1 - 1 < 0 then minus else plus) = plus ∨
        (if exponent + 1 - 1 < 0 then minus else plus) = minus := by
      split
      · exact .inr rfl
      · exact .inl rfl
    cases digits with
    | nil => exact absurd rfl hne
    | cons d digits =>
      have hint : Digits [d] ∧ [d].head? ≠ some zero :=
        ⟨⟨List.cons_ne_nil _ _, List.forall_mem_singleton.mpr (hall d List.mem_cons_self)⟩, hhead⟩
      cases digits with
      | nil =>
        exact ⟨[d], [], _, rfl, fun sgn hsgn => ⟨hsgn, .inr hint, .inl rfl, .inr (hexp _ hsign _)⟩,
          .inr (List.cons_ne_nil _ _)⟩
      | cons e digits =>
        have hfrac : Digits (e :: digits) :=
          ⟨List.cons_ne_nil _ _, fun c hc => hall c (List.mem_cons_of_mem _ hc)⟩
        exact ⟨[d], dot :: e :: digits, _, rfl, fun sgn hsgn =>
          ⟨hsgn, .inr hint, .inr ⟨_, hfrac, rfl⟩, .inr (hexp _ hsign _)⟩, .inr (List.cons_ne_nil _ _)⟩

section
variable (lib : StandardLibrary) (bits : Nat)

/-- The number that a double is spelled as, if without a decimal point and without an exponent. -/
def wholeSpelling : Option Nat :=
  if fabs bits = 0 then some 0
  else
    match shortestDigits lib bits with
    | none => none
    | some (digits, exponent) =>
      let digits := digitsErase digits
      if WholeForm digits exponent then some
        (digitsValue digits * 10 ^ (exponent.toNat + 1 - digits.length)) else none

/-- What the spelling of a double is read as. -/
def readDouble : Decoded :=
  match wholeSpelling lib bits with
  | some magnitude => .int (Int64.ofInt (if signbit bits then -magnitude else magnitude))
  | none => .double bits

variable {lib bits}

/-- The spelling of a whole number has at most 17 digits. -/
theorem wholeForm_lt {digits : Bytes} {exponent : Int} (hdigits : Digits digits)
    (h : WholeForm digits exponent) :
    digitsValue digits * 10 ^ (exponent.toNat + 1 - digits.length) < 10 ^ 17 := by
  obtain ⟨hnonneg, hlt, hlength⟩ := h
  have hvalue := digitsValue_lt (digits_zeros hdigits (exponent.toNat + 1 - digits.length)).2
  rw [digitsValue_zeros, List.length_append, List.length_replicate] at hvalue
  exact Nat.lt_of_lt_of_le hvalue (Nat.pow_le_pow_right (by decide) (by omega))

theorem toInt_ofInt_of_lt {negative : Bool} {magnitude : Nat} (h : magnitude < 10 ^ 17) :
    (Int64.ofInt (if negative then -magnitude else magnitude)).toInt =
      if negative then -(magnitude : Int) else magnitude := by
  apply Int64.toInt_ofInt_of_le <;> split <;> omega

theorem Follow.of_plain {frac exp r : Bytes} (h : Follow [] [] r) : Follow frac exp r := fun c hc =>
  ⟨(h c hc).1, fun _ _ => (h c hc).2.1 rfl rfl, fun _ => (h c hc).2.2 rfl⟩

theorem spells_double {unique : Prop} {k : Nat} {r : Bytes} (h : fabs bits ≠ 0 → lib.Conforms bits)
    (hr : Follow [] [] r) :
    Spells lib.stod unique k (doubleToShortestString lib bits ++ r) (readDouble lib bits) r := by
  rw [readDouble, wholeSpelling]
  by_cases hzero : fabs bits = 0
  · have hint : Digits [zero] ∧ ([zero] = [zero] ∨ [zero].head? ≠ some zero) :=
      ⟨⟨List.cons_ne_nil _ _, List.forall_mem_singleton.mpr rfl⟩, .inl rfl⟩
    rw [doubleToShortestString, if_pos hzero, if_pos hzero]
    dsimp only
    cases signbit bits with
    | true => exact spells_whole [minus] [zero] hint (.inr ⟨rfl, rfl⟩) hr
    | false => exact spells_whole [] [zero] hint (.inl ⟨rfl, rfl⟩) hr
  · obtain ⟨⟨digits, exponent⟩, hshortest, hsignificant⟩ := shortestDigits_ok (h hzero)
    have hdigits := significant_digitsErase hsignificant
    have hstod := (h hzero).stod_spelling
    have hspelled : doubleToShortestString lib bits =
        (if signbit bits then [minus] else []) ++ spelling (digitsErase digits) exponent := by
      rw [doubleToShortestString, if_neg hzero, hshortest]
      cases signbit bits <;> rfl
    rw [if_neg hzero, hshortest]
    dsimp only
    by_cases hform : WholeForm (digitsErase digits) exponent
    · rw [if_pos hform, hspelled, spelling_whole hform]
      have hint := digits_zeros hdigits.1 (exponent.toNat + 1 - (digitsErase digits).length)
      have hhead : (digitsErase digits ++
          List.replicate (exponent.toNat + 1 - (digitsErase digits).length) zero).head? ≠ some zero := by
        rw [List.head?_append_of_ne_nil _ hdigits.1.1]
        exact hdigits.2
      refine spells_whole _ _ ⟨hint, .inr hhead⟩ ?_ hr
      rw [digitsValue_zeros, toInt_ofInt_of_lt (wholeForm_lt hdigits.1 hform)]
      cases signbit bits with
      | true => exact .inr ⟨rfl, rfl⟩
      | false => exact .inl ⟨rfl, rfl⟩
    · obtain ⟨int, frac, exp, heq, htext, hsome⟩ := spelling_fractional hdigits hform
      rw [heq] at hspelled
      have htext' :=
        htext (if signbit bits then [minus] else []) (by cases signbit bits; exacts [.inl rfl, .inr rfl])
      rw [if_neg hform, hspelled]
      have hvalue : numberValue lib.stod (if signbit bits then [minus] else []) int frac exp =
          some (.double bits) := by
        rw [numberValue, if_pos hsome]
        rw [← List.append_assoc, ← List.append_assoc] at hspelled
        rw [← hspelled, hstod]
        rfl
      have hfollow : Follow frac exp r := hr.of_plain
      rw [← List.append_assoc, ← List.append_assoc]
      exact .number htext' hvalue hfollow

end

end zl.vm.json
