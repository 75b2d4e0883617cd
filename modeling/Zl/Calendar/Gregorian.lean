import Mathlib.Tactic.IntervalCases

namespace zl.gregorian

def IsLeap (y : Int) : Prop := y % 4 = 0 ∧ (y % 100 ≠ 0 ∨ y % 400 = 0)

instance : DecidablePred IsLeap := fun _ => inferInstanceAs (Decidable (_ ∧ (_ ∨ _)))

def monthLength (y m : Int) : Int :=
  if m = 2 then if IsLeap y then 29 else 28
  else if m = 4 ∨ m = 6 ∨ m = 9 ∨ m = 11 then 30
  else 31

def yearLength (y : Int) : Int := if IsLeap y then 366 else 365

/-- A day of the proleptic Gregorian calendar. -/
@[ext]
structure Date where
  year : Int
  month : Int
  day : Int
  month_mem : 1 ≤ month ∧ month ≤ 12
  day_mem : 1 ≤ day ∧ day ≤ monthLength year month
  deriving DecidableEq

namespace Date

/-- The calendar order: by year, then by month, then by day. -/
def Before (d e : Date) : Prop :=
  d.year < e.year ∨ d.year = e.year ∧ (d.month < e.month ∨ d.month = e.month ∧ d.day < e.day)

theorem eq_or_before (d e : Date) : d = e ∨ d.Before e ∨ e.Before d := by
  simp only [Before, Date.ext_iff]
  omega

/-- The day after a date. -/
def next (d : Date) : Date :=
  if hday : d.day < monthLength d.year d.month then
    { d with day := d.day + 1, day_mem := ⟨by have := d.day_mem; omega, hday⟩ }
  else if hmonth : d.month < 12 then
    { year := d.year, month := d.month + 1, day := 1
      month_mem := ⟨by have := d.month_mem; omega, hmonth⟩
      day_mem := ⟨Int.le_refl 1, by simp only [monthLength]; split_ifs <;> decide⟩ }
  else
    { year := d.year + 1, month := 1, day := 1
      month_mem := by decide
      day_mem := ⟨Int.le_refl 1, by simp [monthLength]⟩ }

end Date

/-- The days from the first of January of year 1 to that of year `y`. -/
def daysBeforeYear (y : Int) : Int := 365 * (y - 1) + (y - 1) / 4 - (y - 1) / 100 + (y - 1) / 400

theorem daysBeforeYear_succ (y : Int) : daysBeforeYear (y + 1) = daysBeforeYear y + yearLength y := by
  simp only [daysBeforeYear, yearLength]
  split_ifs with hleap <;> simp only [IsLeap] at hleap <;> omega

theorem daysBeforeYear_le {y z : Int} (hlt : y < z) : daysBeforeYear y + yearLength y ≤ daysBeforeYear z := by
  simp only [daysBeforeYear, yearLength]
  split_ifs with hleap <;> simp only [IsLeap] at hleap <;> omega

def daysBeforeMonth (y m : Int) : Int :=
  ((List.range (m - 1).toNat).map fun k : Nat => monthLength y (k + 1)).sum

theorem daysBeforeMonth_eq {y m : Int} (hm : 1 ≤ m ∧ m ≤ 12) :
    daysBeforeMonth y m = (367 * m - 362) / 12 - if m ≤ 2 then 0 else if IsLeap y then 1 else 2 := by
  obtain ⟨hlow, hhigh⟩ := hm
  interval_cases m <;> simp [daysBeforeMonth, List.range_succ, monthLength] <;> split <;> rfl

theorem daysBeforeMonth_succ {y m : Int} (hm : 1 ≤ m) :
    daysBeforeMonth y (m + 1) = daysBeforeMonth y m + monthLength y m := by
  have hsucc : (m + 1 - 1).toNat = (m - 1).toNat + 1 := by omega
  have hindex : (((m - 1).toNat : Nat) : Int) + 1 = m := by omega
  rw [daysBeforeMonth, hsucc, List.range_succ, List.map_append, List.sum_append, daysBeforeMonth,
    List.map_singleton, List.sum_singleton, hindex]

theorem monthLength_bounds (y m : Int) : 28 ≤ monthLength y m ∧ monthLength y m ≤ 31 := by
  simp only [monthLength]
  split_ifs <;> decide

theorem daysBeforeMonth_nonneg (y m : Int) : 0 ≤ daysBeforeMonth y m := by
  rw [daysBeforeMonth]
  induction (m - 1).toNat with
  | zero => simp
  | succ k ih =>
    have hlength := monthLength_bounds y (k + 1)
    simp only [List.range_succ, List.map_append, List.sum_append, List.map_cons, List.map_nil,
      List.sum_singleton]
    omega

theorem daysBeforeMonth_add_le {y m : Int} (hm : 1 ≤ m ∧ m ≤ 12) :
    daysBeforeMonth y m + monthLength y m ≤ yearLength y := by
  rw [daysBeforeMonth_eq hm]
  obtain ⟨hlow, hhigh⟩ := hm
  by_cases hleap : IsLeap y <;> simp only [yearLength, monthLength, hleap, if_true, if_false] <;>
    interval_cases m <;> decide

theorem daysBeforeMonth_lt {y m l : Int} (hm : 1 ≤ m) (hlt : m < l) (hl : l ≤ 12) :
    daysBeforeMonth y m + monthLength y m ≤ daysBeforeMonth y l := by
  rw [← daysBeforeMonth_succ hm, daysBeforeMonth_eq ⟨by omega, by omega⟩,
    daysBeforeMonth_eq ⟨by omega, hl⟩]
  split_ifs <;> omega

theorem daysBeforeMonth_december (y : Int) :
    daysBeforeMonth y 12 + monthLength y 12 = yearLength y := by
  rw [daysBeforeMonth_eq (by decide)]
  by_cases hleap : IsLeap y <;> simp [yearLength, monthLength, hleap]

namespace Date

def dayNumber (d : Date) : Int :=
  daysBeforeYear d.year + daysBeforeMonth d.year d.month + (d.day - 1) - 719162

theorem dayNumber_lt {d e : Date} (h : d.Before e) : d.dayNumber < e.dayNumber := by
  have hd := d.day_mem
  have he := e.day_mem
  simp only [dayNumber]
  rcases h with hyear | ⟨hyear, hmonth | ⟨hmonth, hday⟩⟩
  · have hyears := daysBeforeYear_le hyear
    have hmonths := daysBeforeMonth_add_le d.month_mem (y := d.year)
    have hnonneg := daysBeforeMonth_nonneg e.year e.month
    omega
  · have hmonths := daysBeforeMonth_lt d.month_mem.1 hmonth e.month_mem.2 (y := d.year)
    rw [← hyear]
    omega
  · rw [← hyear, ← hmonth]
    omega

theorem dayNumber_injective {d e : Date} (h : d.dayNumber = e.dayNumber) : d = e := by
  rcases d.eq_or_before e with heq | hlt | hlt
  · exact heq
  · exact absurd h (dayNumber_lt hlt).ne
  · exact absurd h.symm (dayNumber_lt hlt).ne

theorem dayNumber_lt_iff {d e : Date} : d.dayNumber < e.dayNumber ↔ d.Before e := by
  refine ⟨fun h => ?_, dayNumber_lt⟩
  rcases d.eq_or_before e with rfl | hlt | hlt
  · exact absurd h (lt_irrefl _)
  · exact hlt
  · exact absurd h (dayNumber_lt hlt).not_gt

theorem dayNumber_next (d : Date) : d.next.dayNumber = d.dayNumber + 1 := by
  have hd := d.day_mem
  have hm := d.month_mem
  simp only [next]
  split_ifs with hday hmonth
  · simp only [dayNumber]
    omega
  · simp only [dayNumber, daysBeforeMonth_succ hm.1]
    omega
  · have hlast : d.month = 12 := by omega
    have hlength := daysBeforeMonth_december d.year
    have hfirst : daysBeforeMonth (d.year + 1) 1 = 0 := rfl
    simp only [dayNumber, daysBeforeYear_succ, hfirst]
    rw [hlast] at hd hday ⊢
    omega

end Date

/-- Day `n` of the 400 years lies in century `c`, in group `q` of it and there in year `p`. -/
theorem cycle_bounds {n c q p : Int} (hn : 0 ≤ n ∧ n ≤ 146096) (hc : c = min (n / 36524) 3)
    (hq : q = (n - 36524 * c) / 1461) (hp : p = min ((n - 36524 * c - 1461 * q) / 365) 3) :
    (0 ≤ c ∧ c ≤ 3) ∧ (0 ≤ q ∧ q ≤ 24) ∧ (0 ≤ p ∧ p ≤ 3) ∧
      (0 ≤ n - 36524 * c - 1461 * q - 365 * p) ∧
      (n - 36524 * c - 1461 * q - 365 * p ≤ 364 ∨
        n - 36524 * c - 1461 * q - 365 * p = 365 ∧ p = 3 ∧ (q ≤ 23 ∨ c = 3)) := by
  have hcentury : 0 ≤ n - 36524 * c ∧ (n - 36524 * c ≤ 36523 ∨ n - 36524 * c = 36524 ∧ c = 3) := by
    omega
  exact ⟨by omega, by omega, by omega, by omega, by omega⟩

theorem daysBeforeYear_cycle {e c q p : Int} (hc : 0 ≤ c ∧ c ≤ 3) (hq : 0 ≤ q ∧ q ≤ 24)
    (hp : 0 ≤ p ∧ p ≤ 3) :
    daysBeforeYear (400 * e + 100 * c + 4 * q + p + 1) =
      146097 * e + 36524 * c + 1461 * q + 365 * p ∧
      (IsLeap (400 * e + 100 * c + 4 * q + p + 1) ↔ p = 3 ∧ (q ≤ 23 ∨ c = 3)) := by
  simp only [daysBeforeYear, IsLeap]
  omega

/-- The year that day `n` lies in, counted from the first of January of year 1. -/
def yearOf (n : Int) : Int :=
  let e := n / 146097
  let c := min (n % 146097 / 36524) 3
  let q := (n % 146097 - 36524 * c) / 1461
  400 * e + 100 * c + 4 * q + min ((n % 146097 - 36524 * c - 1461 * q) / 365) 3 + 1

theorem yearOf_spec (n : Int) :
    daysBeforeYear (yearOf n) ≤ n ∧ n < daysBeforeYear (yearOf n) + yearLength (yearOf n) := by
  simp only [yearOf]
  obtain ⟨e, he⟩ : ∃ e, e = n / 146097 := ⟨_, rfl⟩
  obtain ⟨c, hc⟩ : ∃ c, c = min (n % 146097 / 36524) 3 := ⟨_, rfl⟩
  obtain ⟨q, hq⟩ : ∃ q, q = (n % 146097 - 36524 * c) / 1461 := ⟨_, rfl⟩
  obtain ⟨p, hp⟩ : ∃ p, p = min ((n % 146097 - 36524 * c - 1461 * q) / 365) 3 := ⟨_, rfl⟩
  rw [← he, ← hc, ← hq, ← hp]
  obtain ⟨hc', hq', hp', hlow, hhigh⟩ := cycle_bounds (by omega) hc hq hp
  obtain ⟨hbefore, hleap⟩ := daysBeforeYear_cycle (e := e) hc' hq' hp'
  rw [hbefore, yearLength]
  split_ifs with h <;> rw [hleap] at h <;> omega

/-- The month that day `r` of year `y` lies in. -/
def monthOf (y r : Int) : Nat := Nat.findGreatest (fun m => daysBeforeMonth y m ≤ r) 12

theorem monthOf_spec {y r : Int} (hr : 0 ≤ r ∧ r < yearLength y) :
    (1 ≤ monthOf y r ∧ monthOf y r ≤ 12) ∧ daysBeforeMonth y (monthOf y r) ≤ r ∧
      r < daysBeforeMonth y (monthOf y r) + monthLength y (monthOf y r) := by
  have hfirst : daysBeforeMonth y ((1 : Nat) : Int) ≤ r := hr.1
  have hlow : 1 ≤ monthOf y r := Nat.le_findGreatest (by decide) hfirst
  have hhigh : monthOf y r ≤ 12 := Nat.findGreatest_le 12
  refine ⟨⟨hlow, hhigh⟩, Nat.findGreatest_spec (P := fun m : Nat => daysBeforeMonth y m ≤ r) (by decide)
    hfirst, ?_⟩
  by_cases hlast : monthOf y r = 12
  · have hyear := daysBeforeMonth_december y
    simp only [hlast, Nat.cast_ofNat]
    omega
  · rw [← daysBeforeMonth_succ (by omega)]
    have hnext := Nat.findGreatest_is_greatest (n := 12) (k := monthOf y r + 1) (Nat.lt_succ_self _)
      (by omega)
    simpa using hnext

namespace Date

/-- The date of a day number. -/
def ofDayNumber (n : Int) : Date :=
  let year := yearOf (n + 719162)
  let r := n + 719162 - daysBeforeYear year
  have hr : 0 ≤ r ∧ r < yearLength year := by
    have hyear := yearOf_spec (n + 719162)
    exact ⟨Int.sub_nonneg_of_le hyear.1, Int.sub_left_lt_of_lt_add hyear.2⟩
  { year := year, month := monthOf year r, day := r - daysBeforeMonth year (monthOf year r) + 1
    month_mem := by have := monthOf_spec hr; omega
    day_mem := by have := monthOf_spec hr; omega }

@[simp]
theorem dayNumber_ofDayNumber (n : Int) : (ofDayNumber n).dayNumber = n := by
  simp only [dayNumber, ofDayNumber]
  omega

@[simp]
theorem ofDayNumber_dayNumber (d : Date) : ofDayNumber d.dayNumber = d :=
  dayNumber_injective (dayNumber_ofDayNumber _)

/-- The months that passed before the one a date lies in. -/
def monthIndex (d : Date) : Int := 12 * d.year + (d.month - 1)

/-- The date in the month that lies `k` months later, on the same day unless this month is shorter. -/
def addMonths (d : Date) (k : Int) : Date :=
  let year := (d.monthIndex + k) / 12
  let month := (d.monthIndex + k) % 12 + 1
  { year := year, month := month, day := min d.day (monthLength year month)
    month_mem := by omega
    day_mem := by have := d.day_mem; have := monthLength_bounds year month; omega }

end Date

end zl.gregorian
