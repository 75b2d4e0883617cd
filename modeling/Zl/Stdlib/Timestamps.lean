import Mathlib
import Zl.Stdlib.Calendar

open zl.gregorian zl.vm.native.time

namespace zl.stdlib.time

theorem timeIsLeapYear_iff (y : Int) : timeIsLeapYear y = true ↔ IsLeap y := by
  simp only [timeIsLeapYear, IsLeap, ← Int.dvd_iff_tmod_eq_zero, Int.dvd_iff_emod_eq_zero, ne_eq,
    Bool.or_eq_true, Bool.and_eq_true, decide_eq_true_eq]
  omega

namespace Calendar

theorem daysInMonth_eq (y m : Int) : daysInMonth y m = monthLength y m := by
  simp only [daysInMonth, monthLength, timeIsLeapYear_iff]

theorem checked_eq_error {n : Int} (operation : String) (h : ¬IsInt64 n) :
    checked n operation = .error (.raised (.arithmetic ("integer overflow in " ++ operation))) := if_neg h

theorem tmod_bounds (a : Int) {b : Int} (hb : 0 < b) :
    0 ≤ a ∧ 0 ≤ a.tmod b ∧ a.tmod b < b ∨ a ≤ 0 ∧ -b < a.tmod b ∧ a.tmod b ≤ 0 := by
  rcases Int.le_total 0 a with ha | ha
  · exact .inl ⟨ha, Int.tmod_nonneg b ha, Int.tmod_lt_of_pos a hb⟩
  · have hneg := Int.tmod_nonneg b (Int.neg_nonneg_of_nonpos ha)
    have hlt := Int.tmod_lt_of_pos (-a) hb
    rw [Int.neg_tmod] at hneg hlt
    exact .inr ⟨ha, by omega, by omega⟩

theorem monthsLater_eq {d : Date} (hyear : IsInt d.year) (k : Int) :
    monthsLater d.year d.month k =
      if IsInt64 (d.monthIndex + k) then .ok ((d.addMonths k).year, (d.addMonths k).month)
      else .error (.raised (.arithmetic "integer overflow in addition")) := by
  have hm := d.month_mem
  have hindex : d.year * 12 + (d.month - 1) + k = d.monthIndex + k := by
    rw [Date.monthIndex, Int.mul_comm]
  simp only [IsInt] at hyear
  rw [monthsLater, mul_eq (by omega) (by omega), ok_bind, sub_eq (by omega) (by omega), ok_bind,
    add_eq (by omega) (by omega), ok_bind, add, hindex]
  simp only [Date.addMonths]
  obtain ⟨total, htotal⟩ : ∃ total, total = d.monthIndex + k := ⟨_, rfl⟩
  rw [← htotal]
  split_ifs with hint
  · have hchecked : checked total "addition" = .ok total := if_pos hint
    simp only [IsInt64] at hint
    have hquotient := Int.mul_tdiv_add_tmod total 12
    have hremainder := tmod_bounds total (b := 12) (by decide)
    have hmod : mod total 12 = .ok (total.tmod 12) := rfl
    rw [hchecked, ok_bind, div_tdiv (by omega) (by omega) (by decide), ok_bind, hmod, ok_bind,
      add_eq (by omega) (by omega), ok_bind]
    split_ifs with hnegative
    · rw [add_eq (by omega) (by omega), ok_bind, sub_eq (by omega) (by omega), ok_bind]
      refine congrArg Except.ok (Prod.ext ?_ ?_) <;> simp only <;> omega
    · refine congrArg Except.ok (Prod.ext ?_ ?_) <;> simp only <;> omega
  · exact congrArg (· >>= _) (checked_eq_error _ hint)

theorem dayNumber_bounds {d : Date} (h : IsInt (d.year - 1900)) :
    -2 ^ 41 ≤ d.dayNumber ∧ d.dayNumber ≤ 2 ^ 41 := by
  have hd := d.day_mem
  have hlength := monthLength_bounds d.year d.month
  have hmonth := daysBeforeMonth_add_le d.month_mem (y := d.year)
  have hnonneg := daysBeforeMonth_nonneg d.year d.month
  have hyear : yearLength d.year ≤ 366 := by
    rw [yearLength]
    split_ifs <;> decide
  simp only [IsInt] at h
  simp only [Date.dayNumber, daysBeforeYear]
  omega

section
variable {offset : Int}

theorem timeFromParts_undefined {d : Date} {hour minute second : Int} (hyear : ¬IsInt d.year)
    (htm : IsInt (d.year - 1900)) :
    timeFromParts offset d.year d.month d.day hour minute second = .error .undefined := by
  have hwrapped : ¬IsInt (toInt d.year - 1900) := by
    simp only [IsInt] at hyear htm ⊢
    rw [toInt, Int.bmod_def]
    split_ifs <;> omega
  rw [timeFromParts, intResult, if_neg hwrapped]
  rfl

theorem dayNumber_eq {t : Int} (h : Representable offset t) (hyear : IsInt (dateAt offset t).year) :
    dayNumber offset t = .ok (dateAt offset t).dayNumber := by
  obtain ⟨hmonth, hday, -⟩ := timeComponents_eq h
  have hbounds := dayNumber_bounds h.2
  rw [dayNumber, timeYear_eq h, intResult, if_pos hyear, ok_bind, hmonth, ok_bind, hday, ok_bind]
  exact civilToDays_eq (by omega) (by omega)

/-- Where a year has no room in an `int`, its month and its day are not read either. -/
theorem dayNumber_undefined {t : Int} (h : Representable offset t) (hyear : ¬IsInt (dateAt offset t).year) :
    dayNumber offset t = .error .undefined := by
  rw [dayNumber, timeYear_eq h, intResult, if_neg hyear]
  rfl

theorem dateAt_addDays (t n : Int) :
    (dateAt offset (t + 86400 * n)).dayNumber = (dateAt offset t).dayNumber + n ∧
      secondAt offset (t + 86400 * n) = secondAt offset t := by
  simp only [dateAt, secondAt, Date.dayNumber_ofDayNumber]
  omega

theorem civilInstant_dateAt (t : Int) : civilInstant offset (dateAt offset t) (secondAt offset t) = t :=
  instant_eq t

/-- What `addDays` does, for a day in the range of the C library. -/
theorem addDays_eq {t n : Int} (h : Representable offset t) (hyear : IsInt (dateAt offset t).year)
    (hlater : Representable offset (t + 86400 * n)) :
    addDays offset t n =
      if IsInt (dateAt offset (t + 86400 * n)).year then
        if t + 86400 * n ≠ -1 then .ok (t + 86400 * n) else .error notRepresentable
      else .error .undefined := by
  obtain ⟨-, -, hhour, hminute, hsecond⟩ := timeComponents_eq h
  obtain ⟨hnumber, hsame⟩ : _ = (dateAt offset t).dayNumber + n ∧ _ := dateAt_addDays t n
  have hbounds := dayNumber_bounds h.2
  have hbounds' := dayNumber_bounds hlater.2
  rw [addDays, dayNumber_eq h hyear, ok_bind, add_eq (by omega) (by omega), ok_bind, hhour, ok_bind,
    hminute, ok_bind, hsecond, ok_bind, fromDayNumber, ← hnumber,
    civilFromDays_eq (by omega) (by omega), ok_bind, Date.ofDayNumber_dayNumber, ← hsame]
  dsimp only
  split_ifs with hfits hepoch
  · rw [timeFromParts_eq (secondAt_bounds _) hfits hlater.2, civilInstant_dateAt,
      if_pos ⟨hlater.1, hepoch⟩]
  · rw [timeFromParts_eq (secondAt_bounds _) hfits hlater.2, civilInstant_dateAt,
      if_neg fun hboth => hepoch hboth.2]
  · exact timeFromParts_undefined hfits hlater.2

theorem addDays_undefined {t : Int} (n : Int) (h : Representable offset t)
    (hyear : ¬IsInt (dateAt offset t).year) : addDays offset t n = .error .undefined := by
  rw [addDays, dayNumber_undefined h hyear]
  rfl

/-- `fromParts` with the components of a timestamp. -/
def fromOwnParts (offset t : Int) : Except Fault Int := do
  timeFromParts offset (← timeYear offset t) (← timeMonth offset t) (← timeDay offset t)
    (← timeHour offset t) (← timeMinute offset t) (← timeSecond offset t)

theorem fromOwnParts_eq {t : Int} (h : Representable offset t) :
    fromOwnParts offset t =
      if IsInt (dateAt offset t).year then if t ≠ -1 then .ok t else .error notRepresentable
      else .error .undefined := by
  obtain ⟨hmonth, hday, hhour, hminute, hsecond⟩ := timeComponents_eq h
  rw [fromOwnParts, timeYear_eq h, intResult]
  split_ifs with hyear hepoch
  · rw [ok_bind, hmonth, ok_bind, hday, ok_bind, hhour, ok_bind, hminute, ok_bind, hsecond, ok_bind,
      timeFromParts_eq (secondAt_bounds t) hyear h.2, civilInstant_dateAt, if_pos ⟨h.1, hepoch⟩]
  · rw [ok_bind, hmonth, ok_bind, hday, ok_bind, hhour, ok_bind, hminute, ok_bind, hsecond, ok_bind,
      timeFromParts_eq (secondAt_bounds t) hyear h.2, civilInstant_dateAt, if_neg fun hboth =>
      hepoch hboth.2]
  · rfl

/-- What `timeFromParts` returns is a timestamp in the range of the C library. -/
theorem representable_timeFromParts {year month day hour minute second t : Int}
    (h : timeFromParts offset year month day hour minute second = .ok t) : Representable offset t ∧
      t ≠ -1 := by
  rw [timeFromParts, intResult] at h
  split_ifs at h with hyear
  · rw [ok_bind, intResult] at h
    split_ifs at h with hmonth
    · rw [ok_bind] at h
      dsimp only at h
      split_ifs at h with hfailed
      rw [mktime] at h hfailed
      split_ifs at h hfailed with hrep
      · rw [Except.ok.injEq] at h
        exact ⟨h ▸ hrep, h ▸ hfailed⟩
      · exact absurd rfl hfailed
    · cases h
  · cases h

/-- What `addMonths` does to a timestamp in the range of the C library. -/
theorem addMonths_eq {t : Int} (k : Int) (h : Representable offset t)
    (hyear : IsInt (dateAt offset t).year) :
    addMonths offset t k =
      if IsInt64 ((dateAt offset t).monthIndex + k) then
        timeFromParts offset ((dateAt offset t).addMonths k).year ((dateAt offset t).addMonths k).month
          ((dateAt offset t).addMonths k).day (secondAt offset t / 3600) (secondAt offset t % 3600 / 60)
          (secondAt offset t % 60)
      else .error (.raised (.arithmetic "integer overflow in addition")) := by
  obtain ⟨hmonth, hday, hhour, hminute, hsecond⟩ := timeComponents_eq h
  rw [addMonths, timeYear_eq h, intResult, if_pos hyear, ok_bind, hmonth, ok_bind, monthsLater_eq hyear]
  split_ifs with hint
  · rw [ok_bind]
    dsimp only
    have hclamped : (if (dateAt offset t).day > daysInMonth ((dateAt offset t).addMonths k).year
        ((dateAt offset t).addMonths k).month then daysInMonth ((dateAt offset t).addMonths k).year
        ((dateAt offset t).addMonths k).month else (dateAt offset t).day) =
        ((dateAt offset t).addMonths k).day := by
      simp only [daysInMonth_eq, Date.addMonths]
      omega
    rw [hday, ok_bind, hclamped, hhour, ok_bind, hminute, ok_bind, hsecond, ok_bind]
  · rfl

/-- Joining the parts of a second of a day gives its timestamp exactly where the C library has room. -/
theorem timeFromParts_eq_ok_iff {d : Date} {s : Int} (hs : 0 ≤ s ∧ s < 86400) :
    timeFromParts offset d.year d.month d.day (s / 3600) (s % 3600 / 60) (s % 60) =
        .ok (civilInstant offset d s) ↔
      IsInt d.year ∧ Representable offset (civilInstant offset d s) ∧ civilInstant offset d s ≠ -1 := by
  constructor
  · intro hjoin
    obtain ⟨hrep, hepoch⟩ := representable_timeFromParts hjoin
    refine ⟨?_, hrep, hepoch⟩
    by_contra hyear
    rw [timeFromParts_undefined hyear ((representable_civilInstant hs).mp hrep).2] at hjoin
    nomatch hjoin
  · rintro ⟨hyear, hrep, hepoch⟩
    rw [timeFromParts_eq hs hyear ((representable_civilInstant hs).mp hrep).2, if_pos ⟨hrep.1, hepoch⟩]

end

/-- The number of a day, and the number of days since the start of its era, are integers of the
    language. -/
def HasNumber (d : Date) : Prop := IsInt64 d.dayNumber ∧ IsInt64 (d.dayNumber + 719468)

/-- The timestamp that lies some months later, at the same time of the day. -/
def monthsAfter (offset t k : Int) : Int :=
  civilInstant offset ((dateAt offset t).addMonths k) (secondAt offset t)

theorem addMonths_eq_ok_iff {offset t : Int} (k : Int) (h : Representable offset t)
    (hyear : IsInt (dateAt offset t).year) :
    addMonths offset t k = .ok (monthsAfter offset t k) ↔
      IsInt ((dateAt offset t).addMonths k).year ∧ Representable offset (monthsAfter offset t k) ∧
        monthsAfter offset t k ≠ -1 := by
  have hs : 0 ≤ secondAt offset t ∧ secondAt offset t < 86400 := secondAt_bounds t
  have hiff : timeFromParts offset _ _ _ _ _ _ = _ ↔ _ :=
    timeFromParts_eq_ok_iff (d := (dateAt offset t).addMonths k) hs
  rw [addMonths_eq k h hyear, monthsAfter, ← hiff]
  split_ifs with hint
  · rfl
  · -- A number of months that overflows lies in no year of the C library.
    rw [hiff]
    refine iff_of_false (by simp) fun hfits => hint ?_
    have hlater := hfits.1
    simp only [IsInt, Date.addMonths] at hlater
    exact ⟨by omega, by omega⟩

/-- Day numbers and dates correspond one to one and in order, wherever the formulas stay within 64 bits.
    `addMonths` moves a date that the library represents exactly if the library represents where it
    comes to, and that is not the second before 1970. -/
theorem civil_calendar_exact (offset : Int) :
    (∀ n, IsInt64 n → IsInt64 (n + 719468) →
      ∃ d : Date, civilFromDays n = .ok (d.year, d.month, d.day) ∧
        civilToDays d.year d.month d.day = .ok n) ∧
    (∀ d e : Date, HasNumber d → HasNumber e →
      ∃ n k, civilToDays d.year d.month d.day = .ok n ∧ civilToDays e.year e.month e.day = .ok k ∧
        (n < k ↔ d.Before e) ∧ (e = d.next → k = n + 1)) ∧
    ∀ t k, Representable offset t → IsInt (dateAt offset t).year →
      (addMonths offset t k = .ok (monthsAfter offset t k) ↔
        IsInt ((dateAt offset t).addMonths k).year ∧ Representable offset (monthsAfter offset t k) ∧
          monthsAfter offset t k ≠ -1) := by
  refine ⟨fun n hlow hhigh => ?_, fun d e hd he => ?_, fun t k h hyear =>
    addMonths_eq_ok_iff k h hyear⟩
  · refine ⟨Date.ofDayNumber n, civilFromDays_eq hlow.1 hhigh.2, ?_⟩
    rw [civilToDays_eq (by simpa using hlow.1) (by simpa using hhigh.2), Date.dayNumber_ofDayNumber]
  · refine ⟨d.dayNumber, e.dayNumber, civilToDays_eq hd.1.1 hd.2.2, civilToDays_eq he.1.1 he.2.2,
      Date.dayNumber_lt_iff, ?_⟩
    rintro rfl
    exact d.dayNumber_next

/-- The last second of January 1970, moved back by a month, has the timestamp that reports an error. -/
theorem addMonths_before_epoch :
    ¬∀ t k, Representable 0 t → IsInt (dateAt 0 t).year → addMonths 0 t k = .ok (monthsAfter 0 t k) := by
  intro hexact
  have hfailed : addMonths 0 2678399 (-1) = .error notRepresentable := by decide
  have hmoved := hexact 2678399 (-1) (by decide) (by decide)
  rw [hfailed] at hmoved
  nomatch hmoved

theorem addMonths_leap_day : addMonths 0 951782400 12 = .ok (monthsAfter 0 951782400 12) :=
  ((civil_calendar_exact 0).2.2 951782400 12 (by decide) (by decide)).mpr (by decide)

/-- Every component has room in its field of a `tm`. -/
def FitsTm (year month day hour minute second : Int) : Prop :=
  IsInt (year - 1900) ∧ IsInt (month - 1) ∧ IsInt day ∧ IsInt hour ∧ IsInt minute ∧ IsInt second

/-- The `tm` that the casts of `timeFromParts` leave. -/
def castParts (year month day hour minute second : Int) : Tm :=
  { year := toInt year - 1900, mon := toInt month - 1, mday := toInt day, hour := toInt hour
    min := toInt minute, sec := toInt second }

instance (year month day hour minute second : Int) :
    Decidable (FitsTm year month day hour minute second) := inferInstanceAs (Decidable (_ ∧ _))

theorem addDays_back_iff {offset t n : Int} (h : Representable offset t)
    (hlater : Representable offset (t + 86400 * n)) :
    (do addDays offset (← addDays offset t n) (-n)) = Except.ok t ↔
      (IsInt (dateAt offset t).year ∧ t ≠ -1) ∧
        IsInt (dateAt offset (t + 86400 * n)).year ∧ t + 86400 * n ≠ -1 := by
  by_cases hyear : IsInt (dateAt offset t).year
  · have hback : t + 86400 * n + 86400 * -n = t := by omega
    rw [addDays_eq h hyear hlater]
    split_ifs with hyear' hepoch
    · rw [ok_bind, addDays_eq hlater hyear' (by rwa [hback]), hback, if_pos hyear]
      split_ifs with hfirst <;> simp [hyear, hyear', hepoch, hfirst]
    · exact iff_of_false (fun hfailed => nomatch hfailed) fun hfits => hepoch hfits.2.2
    · exact iff_of_false (fun hfailed => nomatch hfailed) fun hfits => hyear' hfits.2.1
  · rw [addDays_undefined n h hyear]
    exact iff_of_false (fun hfailed => nomatch hfailed) fun hfits => hyear hfits.1.1

theorem timeFromParts_raised_iff (offset year month day hour minute second : Int) :
    (∃ error, timeFromParts offset year month day hour minute second = .error (.raised error)) ↔
      IsInt (toInt year - 1900) ∧ IsInt (toInt month - 1) ∧
        (¬Representable offset (instantOf offset (castParts year month day hour minute second)) ∨
          instantOf offset (castParts year month day hour minute second) = -1) := by
  rw [timeFromParts, intResult, intResult]
  by_cases hyear : IsInt (toInt year - 1900)
  · by_cases hmonth : IsInt (toInt month - 1)
    · rw [if_pos hyear, if_pos hmonth, ok_bind, ok_bind]
      change (∃ error, (if mktime offset (castParts year month day hour minute second) = -1 then _ else
        Except.ok _) = Except.error (Fault.raised error)) ↔ _
      rw [mktime]
      by_cases hrep : Representable offset
        (instantOf offset (castParts year month day hour minute second))
      · by_cases hepoch : instantOf offset (castParts year month day hour minute second) = -1 <;>
          simp [hyear, hmonth, hrep, hepoch, notRepresentable]
      · simp [hyear, hmonth, hrep, notRepresentable]
    · rw [if_pos hyear, if_neg hmonth]
      exact iff_of_false (fun hraised => hraised.elim fun _ hfailed => by cases hfailed)
        fun hfits => hmonth hfits.2.1
  · rw [if_neg hyear]
    exact iff_of_false (fun hraised => hraised.elim fun _ hfailed => by cases hfailed)
      fun hfits => hyear hfits.1

/-- A timestamp survives being taken apart and put together if its year is a C integer and it is not -1,
    and days are added and taken away if this holds before and after. Components that do not fit raise
    unless their conversion to C integers makes others of them. -/
theorem timestamps_survive_iff (offset : Int) :
    (∀ t, Representable offset t →
      (fromOwnParts offset t = .ok t ↔ IsInt (dateAt offset t).year ∧ t ≠ -1)) ∧
    (∀ t n, Representable offset t → Representable offset (t + 86400 * n) →
      ((do addDays offset (← addDays offset t n) (-n)) = Except.ok t ↔
        (IsInt (dateAt offset t).year ∧ t ≠ -1) ∧
          IsInt (dateAt offset (t + 86400 * n)).year ∧ t + 86400 * n ≠ -1)) ∧
    ∀ year month day hour minute second, ¬FitsTm year month day hour minute second →
      ((∃ error, timeFromParts offset year month day hour minute second = .error (.raised error)) ↔
        IsInt (toInt year - 1900) ∧ IsInt (toInt month - 1) ∧
          (¬Representable offset (instantOf offset (castParts year month day hour minute second)) ∨
            instantOf offset (castParts year month day hour minute second) = -1)) := by
  refine ⟨fun t h => ?_, fun t n h hlater => ?_, fun year month day hour minute second _ => ?_⟩
  · rw [fromOwnParts_eq h]
    split_ifs with hyear hepoch
    · simp [hyear, hepoch]
    · exact iff_of_false (fun hfailed => nomatch hfailed) fun hfits => hepoch hfits.2
    · exact iff_of_false (fun hfailed => nomatch hfailed) fun hfits => hyear hfits.1
  · exact addDays_back_iff h hlater
  · exact timeFromParts_raised_iff offset year month day hour minute second

theorem timestamps_lost :
    ¬(∀ t, Representable 0 t → fromOwnParts 0 t = .ok t) ∧
      ¬∀ year month day hour minute second, ¬FitsTm year month day hour minute second →
        ∃ error, timeFromParts 0 year month day hour minute second = .error (.raised error) := by
  refine ⟨fun hsurvives => ?_, fun hrejected => ?_⟩
  · have hfailed : fromOwnParts 0 (-1) = .error notRepresentable := by decide
    have hsame := hsurvives (-1) (by decide)
    rw [hfailed] at hsame
    nomatch hsame
  · have hwrapped : timeFromParts 0 (2 ^ 32 + 1970) 1 1 0 0 0 = .ok 0 := by decide
    obtain ⟨error, hraised⟩ := hrejected (2 ^ 32 + 1970) 1 1 0 0 0 (by decide)
    rw [hwrapped] at hraised
    nomatch hraised

theorem timestamps_survive_utc : fromOwnParts 0 86400 = .ok 86400 ∧
    (do addDays 0 (← addDays 0 86400 31) (-31)) = Except.ok 86400 :=
  ⟨((timestamps_survive_iff 0).1 86400 (by decide)).mpr (by decide),
    ((timestamps_survive_iff 0).2.1 86400 31 (by decide) (by decide)).mpr (by decide)⟩

end Calendar

end zl.stdlib.time
