import Zl.Vm.Json.Spelling

namespace zl.vm.json

/-- A decimal numeral in front of its exponent. -/
def mantissa (text : Bytes) : Bytes := text.takeWhile (· ≠ exponentMark)

def exponentOf (text : Bytes) : Int :=
  match text.dropWhile (· ≠ exponentMark) with
  | [] => 0
  | _ :: exponent => strtol exponent

/-- The digits of a numeral before and behind its decimal point. -/
def wholePart (text : Bytes) : Bytes := (mantissa text).takeWhile (· ≠ dot)

def fraction (text : Bytes) : Bytes := ((mantissa text).dropWhile (· ≠ dot)).drop 1

def magnitudeValue (text : Bytes) : ℚ :=
  digitsValue (wholePart text ++ fraction text) * 10 ^ (exponentOf text - (fraction text).length)

/-- The rational number that a decimal numeral denotes. -/
def numeralValue : Bytes → ℚ
  | [] => 0
  | c :: text => if c = minus then -magnitudeValue text else magnitudeValue (c :: text)

section
variable {m int frac e ds : Bytes}

theorem takeWhile_ne (mark : UInt8) (h : ∀ c ∈ m, c ≠ mark) : m.takeWhile (· ≠ mark) = m :=
  List.takeWhile_eq_self_iff.mpr (by simpa using h)

theorem takeWhile_ne_append (mark : UInt8) (h : ∀ c ∈ m, c ≠ mark) :
    (m ++ mark :: e).takeWhile (· ≠ mark) = m := by
  rw [List.takeWhile_append_of_pos (by simpa using h)]
  simp

theorem dropWhile_ne (mark : UInt8) (h : ∀ c ∈ m, c ≠ mark) : m.dropWhile (· ≠ mark) = [] :=
  List.dropWhile_eq_nil_iff.mpr (by simpa using h)

theorem dropWhile_ne_append (mark : UInt8) (h : ∀ c ∈ m, c ≠ mark) :
    (m ++ mark :: e).dropWhile (· ≠ mark) = mark :: e := by
  rw [List.dropWhile_append_of_pos (by simpa using h)]
  simp

theorem digits_ne_exponentMark (h : ∀ c ∈ ds, isDigit c = true) : ∀ c ∈ ds, c ≠ exponentMark :=
  fun c hc => (isDigit_ne c (h c hc)).1

theorem digits_ne_dot (h : ∀ c ∈ ds, isDigit c = true) : ∀ c ∈ ds, c ≠ dot :=
  fun c hc => (isDigit_ne c (h c hc)).2

theorem fractional_ne_exponentMark (hint : ∀ c ∈ int, isDigit c = true)
    (hfrac : ∀ c ∈ frac, isDigit c = true) :
    ∀ c ∈ int ++ dot :: frac, c ≠ exponentMark := by
  intro c hc
  rcases List.mem_append.mp hc with hc | hc
  · exact digits_ne_exponentMark hint c hc
  · rcases List.mem_cons.mp hc with rfl | hc
    · decide
    · exact digits_ne_exponentMark hfrac c hc

theorem mantissa_plain (h : ∀ c ∈ m, c ≠ exponentMark) : mantissa m = m ∧ exponentOf m = 0 := by
  rw [mantissa, exponentOf, takeWhile_ne exponentMark h, dropWhile_ne exponentMark h]
  exact ⟨rfl, rfl⟩

theorem mantissa_scientific (h : ∀ c ∈ m, c ≠ exponentMark) :
    mantissa (m ++ exponentMark :: e) = m ∧ exponentOf (m ++ exponentMark :: e) = strtol e := by
  rw [mantissa, exponentOf, takeWhile_ne_append exponentMark h, dropWhile_ne_append exponentMark h]
  exact ⟨rfl, rfl⟩

theorem fraction_whole {text : Bytes} (hmantissa : mantissa text = ds) (h : ∀ c ∈ ds, isDigit c = true) :
    wholePart text = ds ∧ fraction text = [] := by
  rw [wholePart, fraction, hmantissa, takeWhile_ne dot (digits_ne_dot h),
    dropWhile_ne dot (digits_ne_dot h)]
  exact ⟨rfl, rfl⟩

theorem fraction_fractional {text : Bytes} (hmantissa : mantissa text = int ++ dot :: frac)
    (hint : ∀ c ∈ int, isDigit c = true) : wholePart text = int ∧ fraction text = frac := by
  rw [wholePart, fraction, hmantissa, takeWhile_ne_append dot (digits_ne_dot hint),
    dropWhile_ne_append dot (digits_ne_dot hint)]
  exact ⟨rfl, rfl⟩

theorem digitsValue_cons_zero : digitsValue (zero :: ds) = digitsValue ds := rfl

theorem digitsValue_zeros_append (k : Nat) : digitsValue (List.replicate k zero ++ ds) =
    digitsValue ds := by
  induction k with
  | zero => rfl
  | succ k ih => rw [List.replicate_succ, List.cons_append, digitsValue_cons_zero, ih]

theorem strtol_minus (h : ∀ c ∈ ds, isDigit c = true) :
    strtol (minus :: ds) = -(digitsValue ds : Int) := by
  have hsign : sign (fun c => c = plus || c = minus) (minus :: ds) = ([minus], ds) := rfl
  simp only [strtol, hsign, List.takeWhile_eq_self_iff.mpr h, if_true]

theorem strtol_plus (h : ∀ c ∈ ds, isDigit c = true) : strtol (plus :: ds) = digitsValue ds := by
  have hsign : sign (fun c => c = plus || c = minus) (plus :: ds) = ([plus], ds) := rfl
  have hne : ¬ [plus] = [minus] := by decide
  simp only [strtol, hsign, List.takeWhile_eq_self_iff.mpr h, if_neg hne]

theorem strtol_exponent (exponent : Int) :
    strtol ((if exponent < 0 then minus else plus) ::
      ((if exponent.natAbs < 10 then [zero] else []) ++ decimal exponent.natAbs)) = exponent := by
  have hdigits : ∀ c ∈ (if exponent.natAbs < 10 then [zero] else []) ++ decimal exponent.natAbs,
      isDigit c = true := by
    intro c hc
    rcases List.mem_append.mp hc with hc | hc
    · split at hc
      · rw [List.mem_singleton.mp hc]
        rfl
      · cases hc
    · exact (decimal_digits _).2 c hc
  have hvalue : digitsValue ((if exponent.natAbs < 10 then [zero] else []) ++ decimal exponent.natAbs) =
      exponent.natAbs := by
    split
    · rw [List.singleton_append, digitsValue_cons_zero, digitsValue_decimal]
    · rw [List.nil_append, digitsValue_decimal]
  split
  · rw [strtol_minus hdigits, hvalue]
    omega
  · rw [strtol_plus hdigits, hvalue]
    omega

theorem magnitudeValue_whole (h : ∀ c ∈ ds, isDigit c = true) : magnitudeValue ds = digitsValue ds := by
  obtain ⟨hmantissa, hexponent⟩ := mantissa_plain (digits_ne_exponentMark h)
  obtain ⟨hwhole, hfrac⟩ := fraction_whole hmantissa h
  rw [magnitudeValue, hwhole, hfrac, hexponent]
  simp

end

section
variable {digits : Bytes} {exponent : Int}

/-- The parts of a spelling: the digits before and behind the decimal point, and the exponent. -/
structure Layout (text whole frac : Bytes) (exponent : Int) : Prop where
  whole_eq : wholePart text = whole
  fraction_eq : fraction text = frac
  exponent_eq : exponentOf text = exponent

theorem Layout.value {text whole frac : Bytes} (h : Layout text whole frac exponent) :
    magnitudeValue text = digitsValue (whole ++ frac) * 10 ^ (exponent - frac.length) := by
  rw [magnitudeValue, h.whole_eq, h.fraction_eq, h.exponent_eq]

/-- The number that digits and an exponent stand for, with the decimal point behind the first digit. -/
def shifted (digits : Bytes) (exponent : Int) : ℚ :=
  digitsValue digits * 10 ^ (exponent + 1 - digits.length)

/-- Behind the decimal point of a text, where there is one, the last digit is the last of the digits. -/
def EndsWith (digits text : Bytes) : Prop :=
  fraction text = [] ∧ dot ∉ text ∨ (fraction text).getLast? = digits.getLast?

theorem layout_plain (whole frac : Bytes) (hwhole : ∀ c ∈ whole, isDigit c = true)
    (hfrac : ∀ c ∈ frac, isDigit c = true) :
    Layout (whole ++ dot :: frac) whole frac 0 ∧ exponentMark ∉ whole ++ dot :: frac := by
  have hmark := fractional_ne_exponentMark hwhole hfrac
  obtain ⟨hmantissa, hexponent⟩ := mantissa_plain hmark
  obtain ⟨hwhole', hfrac'⟩ := fraction_fractional hmantissa hwhole
  exact ⟨⟨hwhole', hfrac', hexponent⟩, fun h => hmark _ h rfl⟩

/-- In fixed form the digits stand around the decimal point, filled up with zeros on either side. -/
theorem spelling_fixed (hpoint : -4 < exponent + 1 ∧ exponent + 1 ≤ 17) (h : Significant digits) :
    magnitudeValue (spelling digits exponent) = shifted digits exponent ∧
      exponentMark ∉ spelling digits exponent ∧ EndsWith digits (spelling digits exponent) := by
  obtain ⟨⟨hne, hall⟩, hhead⟩ := h
  have hzeros : ∀ k, ∀ c ∈ List.replicate k zero, isDigit c = true := by
    intro k c hc
    rw [List.eq_of_mem_replicate hc]
    rfl
  rw [spelling]
  dsimp only
  rw [if_pos hpoint, shifted]
  split
  · next hsmall =>
    have hfrac : ∀ c ∈ List.replicate (-(exponent + 1)).toNat zero ++ digits, isDigit c = true := by
      intro c hc
      exact (List.mem_append.mp hc).elim (hzeros _ c) (hall c)
    obtain ⟨hlayout, hmark⟩ := layout_plain [zero] _ (by simp; rfl) hfrac
    refine ⟨?_, hmark, .inr ?_⟩
    · refine hlayout.value.trans ?_
      rw [List.singleton_append, digitsValue_cons_zero, digitsValue_zeros_append]
      congr 2
      simp only [List.length_append, List.length_replicate]
      omega
    · refine (congrArg List.getLast? hlayout.fraction_eq).trans ?_
      exact List.getLast?_append_of_ne_nil _ hne
  split
  · next hlarge =>
    have hdigits := (digits_zeros ⟨hne, hall⟩ ((exponent + 1).toNat - digits.length)).2
    have hmark := digits_ne_exponentMark hdigits
    obtain ⟨hmantissa, hexponent⟩ := mantissa_plain hmark
    obtain ⟨hwhole, hfrac⟩ := fraction_whole hmantissa hdigits
    have hlayout : Layout _ _ _ _ := ⟨hwhole, hfrac, hexponent⟩
    refine ⟨?_, fun h => hmark _ h rfl, .inl ⟨hfrac, fun h => digits_ne_dot hdigits _ h rfl⟩⟩
    rw [hlayout.value, List.append_nil, digitsValue_zeros, Nat.cast_mul, Nat.cast_pow, mul_assoc,
      List.length_nil, Nat.cast_zero, sub_zero, zpow_zero, mul_one, ← zpow_natCast]
    congr 2
    omega
  · next hlarge =>
    have hlength : (digits.take (exponent + 1).toNat).length = (exponent + 1).toNat := by
      rw [List.length_take]
      omega
    have hdrop : digits.drop (exponent + 1).toNat ≠ [] := fun h => by
      have := List.drop_eq_nil_iff.mp h
      omega
    obtain ⟨hlayout, hmark⟩ := layout_plain (digits.take (exponent + 1).toNat)
      (digits.drop (exponent + 1).toNat) (fun c hc => hall c (List.mem_of_mem_take hc))
      (fun c hc => hall c (List.mem_of_mem_drop hc))
    refine ⟨?_, hmark, .inr ?_⟩
    · rw [hlayout.value, List.take_append_drop, List.length_drop]
      congr 2
      omega
    · rw [hlayout.fraction_eq]
      conv_rhs => rw [← List.take_append_drop (exponent + 1).toNat digits]
      exact (List.getLast?_append_of_ne_nil _ hdrop).symm

theorem spelling_scientific (hpoint : ¬ (-4 < exponent + 1 ∧ exponent + 1 ≤ 17)) (h : Significant digits) :
    magnitudeValue (spelling digits exponent) = shifted digits exponent ∧
      exponentMark ∈ spelling digits exponent ∧ EndsWith digits (spelling digits exponent) ∧
      (mantissa (spelling digits exponent)).getLast? = digits.getLast? := by
  obtain ⟨⟨hne, hall⟩, hhead⟩ := h
  have hstrtol := strtol_exponent exponent
  have hnodot : dot ∉ exponentMark :: (if exponent < 0 then minus else plus) ::
      ((if exponent.natAbs < 10 then [zero] else []) ++ decimal exponent.natAbs) := by
    have hdecimal : dot ∉ decimal exponent.natAbs := fun h => digits_ne_dot (decimal_digits _).2 _ h rfl
    have hmark : dot ≠ exponentMark := by decide
    have hsign : dot ≠ if exponent < 0 then minus else plus := by
      split <;> decide
    have hpad : dot ∉ if exponent.natAbs < 10 then [zero] else [] := by
      split <;> decide
    simp [hdecimal, hmark, hsign, hpad]
  rw [spelling]
  dsimp only
  rw [if_neg hpoint, Int.add_sub_cancel, shifted]
  generalize (if exponent < 0 then minus else plus) ::
    ((if exponent.natAbs < 10 then [zero] else []) ++ decimal exponent.natAbs) = text at hstrtol hnodot ⊢
  cases digits with
  | nil => exact absurd rfl hne
  | cons d more =>
    cases more with
    | nil =>
      obtain ⟨hmantissa, hexponent⟩ := mantissa_scientific (e := text) (digits_ne_exponentMark hall)
      obtain ⟨hwhole, hfrac⟩ := fraction_whole hmantissa hall
      have hlayout : Layout _ _ _ _ := ⟨hwhole, hfrac, hexponent.trans hstrtol⟩
      rw [if_neg (by simp)]
      refine ⟨?_, by simp, .inl ⟨hfrac, ?_⟩, congrArg List.getLast? hmantissa⟩
      · rw [hlayout.value]
        simp
      · intro h
        rcases List.mem_append.mp h with h | h
        · exact digits_ne_dot hall _ h rfl
        · exact hnodot h
    | cons d' more =>
      have hwhole : ∀ c ∈ [d], isDigit c = true := fun c hc => hall c (by simp_all)
      have hfrac : ∀ c ∈ d' :: more, isDigit c = true := fun c hc => hall c (List.mem_cons_of_mem _ hc)
      obtain ⟨hmantissa, hexponent⟩ :=
        mantissa_scientific (e := text) (fractional_ne_exponentMark hwhole hfrac)
      obtain ⟨hwhole', hfrac'⟩ := fraction_fractional hmantissa hwhole
      have hlayout : Layout _ _ _ _ := ⟨hwhole', hfrac', hexponent.trans hstrtol⟩
      rw [if_pos (by simp), List.take_succ_cons, List.take_zero, List.drop_succ_cons, List.drop_zero]
      refine ⟨?_, by simp, .inr ?_, ?_⟩
      · rw [hlayout.value]
        simp only [List.length_cons, List.singleton_append]
        congr 2
        omega
      · rw [hfrac']
        rfl
      · rw [hmantissa]
        simp

theorem digitsErase_eq (h : Significant digits) :
    (∃ k, digits = digitsErase digits ++ List.replicate k zero) ∧
      (digitsErase digits).getLast? ≠ some zero := by
  obtain ⟨⟨hne, hall⟩, hhead⟩ := h
  have herase : digitsErase digits = digits.rdropWhile (· = zero) := by
    rw [digitsErase]
    split
    · next hnil =>
      have hzeros := List.rdropWhile_eq_nil_iff.mp hnil
      cases digits with
      | nil => exact absurd rfl hne
      | cons d more =>
        have hd : d = zero := by simpa using hzeros d List.mem_cons_self
        exact absurd (congrArg some hd) hhead
    · rfl
  have hsplit := List.rdropWhile_append_rtakeWhile (p := (· = zero)) (l := digits)
  have hzeros := List.eq_replicate_of_mem (a := zero) (l := digits.rtakeWhile (· = zero)) fun d hd => by
    simpa using List.mem_rtakeWhile_imp hd
  rw [herase]
  refine ⟨⟨_, by rw [← hzeros]; exact hsplit.symm⟩, fun hlast => ?_⟩
  have hne' : digits.rdropWhile (· = zero) ≠ [] := fun h => by
    rw [h] at hlast
    cases hlast
  rw [List.getLast?_eq_some_getLast hne'] at hlast
  have heq := Option.some.inj hlast
  have hnot := List.rdropWhile_last_not (· = zero) digits hne'
  simp [heq] at hnot

theorem shifted_digitsErase (h : Significant digits) (exponent : Int) :
    shifted (digitsErase digits) exponent = shifted digits exponent := by
  obtain ⟨⟨k, hk⟩, -⟩ := digitsErase_eq h
  conv_rhs => rw [hk]
  rw [shifted, shifted, digitsValue_zeros, List.length_append, List.length_replicate, Nat.cast_mul,
    Nat.cast_pow, mul_assoc, ← zpow_natCast, Nat.cast_ofNat, ← zpow_add₀ (by norm_num)]
  congr 2
  push_cast
  ring

theorem foldl_digits_pos {start : Nat} (hstart : 0 < start) (ds : Bytes) :
    0 < ds.foldl (fun value d => value * 10 + (d.toNat - 48)) start := by
  induction ds generalizing start with
  | nil => exact hstart
  | cons d ds ih =>
    have hnext : 0 < start * 10 + (d.toNat - 48) := by omega
    exact ih hnext

theorem digit_pos (d : UInt8) (h : isDigit d = true) (hne : d ≠ zero) : 0 < d.toNat - 48 := by
  simp only [isDigit, Bool.and_eq_true, decide_eq_true_eq, UInt8.le_iff_toNat_le] at h
  have hge : 48 ≤ d.toNat := h.1
  have hne' : d.toNat ≠ 48 := fun heq => hne (UInt8.toNat_inj.mp heq)
  omega

theorem shifted_pos (h : Significant digits) (exponent : Int) : 0 < shifted digits exponent := by
  obtain ⟨⟨hne, hall⟩, hhead⟩ := h
  have hpos : 0 < digitsValue digits := by
    cases digits with
    | nil => exact absurd rfl hne
    | cons d more =>
      have hd := digit_pos d (hall d List.mem_cons_self) fun h => hhead (congrArg some h)
      exact foldl_digits_pos (by simpa using hd) more
  have hcast : (0 : ℚ) < digitsValue digits := Nat.cast_pos.mpr hpos
  exact mul_pos hcast (zpow_pos (by norm_num) _)

theorem spelling_head (h : Significant digits) (exponent : Int) :
    (spelling digits exponent).head? ≠ some minus := by
  have hfirst : ∀ {ds more : Bytes}, Digits ds → (ds ++ more).head? ≠ some minus := by
    intro ds more hds hhead
    rw [List.head?_append_of_ne_nil _ hds.1] at hhead
    have hdigit := hds.2 _ (List.mem_of_head? hhead)
    exact absurd hdigit (by decide)
  by_cases hform : WholeForm digits exponent
  · rw [spelling_whole hform]
    exact hfirst h.1
  · obtain ⟨int, frac, exp, heq, htext, -⟩ := spelling_fractional h hform
    rw [heq, List.append_assoc]
    rcases (htext [] (.inl rfl)).int_eq with rfl | ⟨hint, -⟩
    · exact fun h => absurd (Option.some.inj h) (by decide)
    · exact hfirst hint

end

section
variable {lib : StandardLibrary} {bits bits' : Nat} {digits : Bytes} {exponent : Int}

theorem numeralValue_minus (text : Bytes) : numeralValue (minus :: text) = -magnitudeValue text := by
  rw [numeralValue, if_pos rfl]

theorem mantissa_minus (text : Bytes) : mantissa (minus :: text) = minus :: mantissa text := rfl

theorem fraction_minus (text : Bytes) : fraction (minus :: text) = fraction text := rfl

theorem numeralValue_unsigned {text : Bytes} (h : text.head? ≠ some minus) :
    numeralValue text = magnitudeValue text := by
  cases text with
  | nil => simp [numeralValue, magnitudeValue, wholePart, fraction, mantissa, digitsValue]
  | cons c text => rw [numeralValue, if_neg fun hc => h (congrArg some hc)]

theorem doubleToShortestString_eq (hnonzero : fabs bits ≠ 0)
    (hshortest : shortestDigits lib bits = some (digits, exponent)) : doubleToShortestString lib bits =
      if signbit bits then minus :: spelling (digitsErase digits) exponent
      else spelling (digitsErase digits) exponent := by
  rw [doubleToShortestString, if_neg hnonzero, hshortest]

theorem numeralValue_spelled (hnonzero : fabs bits ≠ 0)
    (hshortest : shortestDigits lib bits = some (digits, exponent)) (hdigits : Significant digits) :
    numeralValue (doubleToShortestString lib bits) =
      if signbit bits then -shifted digits exponent else shifted digits exponent := by
  have herased := significant_digitsErase hdigits
  have hmagnitude : magnitudeValue (spelling (digitsErase digits) exponent) =
      shifted digits exponent := by
    rw [← shifted_digitsErase hdigits]
    by_cases hpoint : -4 < exponent + 1 ∧ exponent + 1 ≤ 17
    · exact (spelling_fixed hpoint herased).1
    · exact (spelling_scientific hpoint herased).1
  rw [doubleToShortestString_eq hnonzero hshortest]
  split
  · rw [numeralValue_minus, hmagnitude]
  · rw [numeralValue_unsigned (spelling_head herased exponent), hmagnitude]

/-- The form of a text: fixed or scientific, and no zero that could be left out at its end. -/
theorem form_spelled (hnonzero : fabs bits ≠ 0)
    (hshortest : shortestDigits lib bits = some (digits, exponent)) (hdigits : Significant digits) :
    (exponentMark ∉ doubleToShortestString lib bits ↔ -3 ≤ exponent + 1 ∧ exponent + 1 ≤ 17) ∧
      (fraction (doubleToShortestString lib bits)).getLast? ≠ some zero ∧
      (dot ∈ doubleToShortestString lib bits → fraction (doubleToShortestString lib bits) ≠ []) ∧
      (exponentMark ∈ doubleToShortestString lib bits →
        (mantissa (doubleToShortestString lib bits)).getLast? ≠ some zero) := by
  have herased := significant_digitsErase hdigits
  have hlast := (digitsErase_eq hdigits).2
  have hsome : (digitsErase digits).getLast? ≠ none :=
    fun h => herased.1.1 (List.getLast?_eq_none_iff.mp h)
  have hform : (exponentMark ∉ spelling (digitsErase digits) exponent ↔ -3 ≤ exponent + 1 ∧
      exponent + 1 ≤ 17) ∧ EndsWith (digitsErase digits) (spelling (digitsErase digits) exponent) ∧
      (exponentMark ∈ spelling (digitsErase digits) exponent →
      (mantissa (spelling (digitsErase digits) exponent)).getLast? = (digitsErase digits).getLast?) := by
    by_cases hpoint : -4 < exponent + 1 ∧ exponent + 1 ≤ 17
    · obtain ⟨-, hmark, hend⟩ := spelling_fixed hpoint herased
      exact ⟨⟨fun _ => by omega, fun _ => hmark⟩, hend, fun h => absurd h hmark⟩
    · obtain ⟨-, hmark, hend, hmantissa⟩ := spelling_scientific hpoint herased
      exact ⟨⟨fun h => absurd hmark h, fun h => by omega⟩, hend, fun _ => hmantissa⟩
  rw [doubleToShortestString_eq hnonzero hshortest]
  generalize spelling (digitsErase digits) exponent = text at hform ⊢
  obtain ⟨hfixed, hend, hscientific⟩ := hform
  have hfraction : (fraction text).getLast? ≠ some zero := by
    rcases hend with ⟨hnil, -⟩ | hend
    · simp [hnil]
    · rwa [hend]
  have hdot : dot ∈ text → fraction text ≠ [] := by
    rcases hend with ⟨-, hnot⟩ | hend
    · exact fun h => absurd h hnot
    · intro _ hnil
      rw [hnil] at hend
      exact hsome hend.symm
  split
  · have hmark : exponentMark ∈ minus :: text ↔ exponentMark ∈ text :=
      List.mem_cons.trans (or_iff_right (by decide))
    have hdot' : dot ∈ minus :: text ↔ dot ∈ text := List.mem_cons.trans (or_iff_right (by decide))
    rw [hmark, hdot', fraction_minus, mantissa_minus]
    refine ⟨hfixed, hfraction, hdot, fun h => ?_⟩
    rw [List.getLast?_cons, hscientific h]
    cases hd : (digitsErase digits).getLast? with
    | none => exact absurd hd hsome
    | some d => rwa [hd] at hlast
  · exact ⟨hfixed, hfraction, hdot, fun h => hscientific h ▸ hlast⟩

/-- `strtod` depends on nothing but the number that a text denotes. -/
def StandardLibrary.ReadsValue (lib : StandardLibrary) : Prop :=
  ∀ text text', Scientific text → Scientific text' → numeralValue text = numeralValue text' →
    lib.strtod text = lib.strtod text'

theorem numeralValue_scientific {text : Bytes} (h : Scientific text)
    (hparts : scientificParts text = some (digits, exponent)) :
    numeralValue text = shifted digits exponent := by
  obtain ⟨d, frac, e, hd, hzero, hfrac, htext⟩ := h
  have hunsigned : ∀ more, (d :: more).head? ≠ some minus := by
    intro more hhead
    rw [Option.some.inj hhead] at hd
    exact absurd hd (by decide)
  have hsingle : ∀ c ∈ [d], isDigit c = true := by simpa using hd
  rcases htext with rfl | rfl
  · rw [scientificParts_single hd e] at hparts
    cases hparts
    obtain ⟨hmantissa, hexponent⟩ := mantissa_scientific (e := e) (digits_ne_exponentMark hsingle)
    obtain ⟨hwhole, hfrac'⟩ := fraction_whole hmantissa hsingle
    have hlayout : Layout _ _ _ _ := ⟨hwhole, hfrac', hexponent⟩
    rw [numeralValue_unsigned (hunsigned _)]
    refine hlayout.value.trans ?_
    simp [shifted]
  · rw [scientificParts_fractional hd hfrac e] at hparts
    cases hparts
    obtain ⟨hmantissa, hexponent⟩ :=
      mantissa_scientific (e := e) (fractional_ne_exponentMark hsingle hfrac)
    obtain ⟨hwhole, hfrac'⟩ := fraction_fractional hmantissa hsingle
    have hlayout : Layout _ _ _ _ := ⟨hwhole, hfrac', hexponent⟩
    rw [numeralValue_unsigned (hunsigned _)]
    have hvalue := hlayout.value
    rw [List.append_assoc, List.singleton_append, List.cons_append] at hvalue
    rw [hvalue, shifted, List.singleton_append, List.length_cons]
    congr 2
    push_cast
    ring

theorem bits_eq (hbits : bits < 2 ^ 64) (hbits' : bits' < 2 ^ 64)
    (hsign : signbit bits = signbit bits') (habs : fabs bits = fabs bits') : bits = bits' := by
  unfold signbit at hsign
  unfold fabs at habs
  simp only [decide_eq_decide] at hsign
  omega

theorem numeralValue_zero (h : fabs bits = 0) : numeralValue (doubleToShortestString lib bits) = 0 := by
  have hzero : magnitudeValue [zero] = 0 := by
    rw [magnitudeValue_whole (List.forall_mem_singleton.mpr rfl)]
    rfl
  rw [doubleToShortestString, if_pos h]
  split
  · rw [numeralValue_minus, hzero, neg_zero]
  · rw [numeralValue_unsigned (by decide), hzero]

/-- A double other than zero is spelled as a number that reads back, with its sign. -/
theorem spelled_reads (hnonzero : fabs bits ≠ 0) (h : lib.Prints bits) :
    ∃ text, Scientific text ∧ lib.strtod text = fabs bits ∧ 0 < numeralValue text ∧
      numeralValue (doubleToShortestString lib bits) =
        if signbit bits then -numeralValue text else numeralValue text := by
  obtain ⟨text, ⟨digits, exponent⟩, hshortest, hscientific, hparts, hreads⟩ := shortestDigits_text h
  obtain ⟨parts, hparts', hsignificant⟩ := scientificParts_of_scientific hscientific
  rw [hparts] at hparts'
  cases hparts'
  have hvalue := numeralValue_scientific hscientific hparts
  refine ⟨text, hscientific, hreads, ?_, ?_⟩
  · rw [hvalue]
    exact shifted_pos hsignificant exponent
  · rw [hvalue]
    exact numeralValue_spelled hnonzero hshortest hsignificant

/-- The spelling tells doubles apart, the two zeros too. -/
theorem doubleToShortestString_injective (hreads : lib.ReadsValue) (h : fabs bits ≠ 0 → lib.Prints bits)
    (h' : fabs bits' ≠ 0 → lib.Prints bits') (hbits : bits < 2 ^ 64) (hbits' : bits' < 2 ^ 64)
    (heq : doubleToShortestString lib bits = doubleToShortestString lib bits') : bits = bits' := by
  by_cases hzero : fabs bits = 0
  · by_cases hzero' : fabs bits' = 0
    · apply bits_eq hbits hbits' _ (hzero.trans hzero'.symm)
      rw [doubleToShortestString, doubleToShortestString, if_pos hzero, if_pos hzero'] at heq
      revert heq
      cases signbit bits <;> cases signbit bits' <;> decide
    · obtain ⟨text, -, -, hpos, hvalue⟩ := spelled_reads hzero' (h' hzero')
      rw [← heq, numeralValue_zero hzero] at hvalue
      split at hvalue <;> linarith
  · obtain ⟨text, hscientific, hstrtod, hpos, hvalue⟩ := spelled_reads hzero (h hzero)
    by_cases hzero' : fabs bits' = 0
    · rw [heq, numeralValue_zero hzero'] at hvalue
      split at hvalue <;> linarith
    · obtain ⟨text', hscientific', hstrtod', hpos', hvalue'⟩ := spelled_reads hzero' (h' hzero')
      rw [heq, hvalue'] at hvalue
      have hsame : signbit bits = signbit bits' ∧ numeralValue text = numeralValue text' := by
        revert hvalue
        cases signbit bits <;> cases signbit bits' <;>
          simp only [if_true, if_false, Bool.false_eq_true, true_and] <;> intro hvalue
        · exact hvalue.symm
        · exfalso
          linarith
        · exfalso
          linarith
        · linarith
      apply bits_eq hbits hbits' hsame.1
      rw [← hstrtod, ← hstrtod', hreads text text' hscientific hscientific' hsame.2]

/-- Every layout of digits and exponent denotes them exactly, in fixed form where the point lies in
    its range and without a zero to spare, so that two doubles are never spelled alike. -/
theorem decimal_layout (lib : StandardLibrary) :
    (∀ bits digits exponent, fabs bits ≠ 0 → shortestDigits lib bits = some (digits, exponent) →
      Significant digits →
        let text := doubleToShortestString lib bits
        numeralValue text = (if signbit bits then -shifted digits exponent else shifted digits exponent) ∧
          (exponentMark ∉ text ↔ -3 ≤ exponent + 1 ∧ exponent + 1 ≤ 17) ∧
          (fraction text).getLast? ≠ some zero ∧ (dot ∈ text → fraction text ≠ []) ∧
          (exponentMark ∈ text → (mantissa text).getLast? ≠ some zero)) ∧
    (lib.ReadsValue → ∀ bits bits', bits < 2 ^ 64 → bits' < 2 ^ 64 → (fabs bits ≠ 0 → lib.Prints bits) →
      (fabs bits' ≠ 0 → lib.Prints bits') → bits ≠ bits' →
        doubleToShortestString lib bits ≠ doubleToShortestString lib bits') :=
  ⟨fun _ _ _ hnonzero hshortest hdigits =>
      ⟨numeralValue_spelled hnonzero hshortest hdigits, form_spelled hnonzero hshortest hdigits⟩,
    fun hreads _ _ hbits hbits' h h' hne heq =>
      hne (doubleToShortestString_injective hreads h h' hbits hbits' heq)⟩

end

/-- The bits of 1 and of 2. -/
def oneBits : Nat := 0x3FF0000000000000

def twoBits : Nat := 0x4000000000000000

/-- What one of the two doubles is printed as, with so many digits behind the decimal point. -/
def printed (precision bits : Nat) : Bytes :=
  let digit : UInt8 := if bits = oneBits then 49 else 50
  let exponent := exponentMark :: [plus, zero, zero]
  if precision = 0 then digit :: exponent else digit :: dot :: (List.replicate precision zero ++ exponent)

def readBack (text : Bytes) : Nat :=
  if numeralValue text = 1 then oneBits else if numeralValue text = 2 then twoBits else 0

/-- A library that knows two doubles. -/
def oneTwo : StandardLibrary where
  toChars bits := if bits = oneBits ∨ bits = twoBits then some (printed 0 bits) else none
  snprintf precision bits :=
    if bits = oneBits ∨ bits = twoBits then some (printed precision bits) else none
  strtod := readBack
  stod text := some (readBack text)
  longForm _ := []

theorem scientific_printed (precision bits : Nat) : Scientific (printed precision bits) := by
  have hdigit : ∀ one : Prop, ∀ [Decidable one], isDigit (if one then 49 else 50) = true ∧
      (if one then 49 else 50) ≠ zero := by
    intro one _
    split <;> decide
  obtain ⟨hdigit, hzero⟩ := hdigit (bits = oneBits)
  refine ⟨_, List.replicate precision zero, [plus, zero, zero], hdigit, hzero, fun c hc => ?_, ?_⟩
  · rw [List.eq_of_mem_replicate hc]
    rfl
  · unfold printed
    dsimp only
    split
    · exact .inl rfl
    · exact .inr rfl

theorem oneTwo_prints {bits : Nat} (h : bits = oneBits ∨ bits = twoBits) : oneTwo.Prints bits := by
  have habs : fabs bits = bits := by
    rcases h with rfl | rfl <;> decide
  rw [← habs] at h
  refine ⟨fun text htext => ?_, fun precision _ => ⟨_, if_pos h, scientific_printed _ _⟩,
    fun text htext => ?_⟩
  · cases (if_pos h).symm.trans htext
    exact scientific_printed _ _
  · cases (if_pos h).symm.trans htext
    rcases h with h | h <;> rw [h] <;> decide +kernel

/-- One is spelled as what the digit 1 stands for, and not as two is. -/
theorem decimal_layout_one_two :
    numeralValue (doubleToShortestString oneTwo oneBits) = shifted [49] 0 ∧
      doubleToShortestString oneTwo oneBits ≠ doubleToShortestString oneTwo twoBits := by
  obtain ⟨hform, hdistinct⟩ := decimal_layout oneTwo
  constructor
  · exact (hform oneBits [49] 0 (by decide) (by decide +kernel)
      ⟨⟨List.cons_ne_nil _ _, List.forall_mem_singleton.mpr rfl⟩, by decide⟩).1
  · refine hdistinct (fun text text' _ _ heq => ?_) oneBits twoBits (by decide) (by decide)
      (fun _ => oneTwo_prints (.inl rfl)) (fun _ => oneTwo_prints (.inr rfl)) (by decide)
    change readBack text = readBack text'
    rw [readBack, readBack, heq]

end zl.vm.json
