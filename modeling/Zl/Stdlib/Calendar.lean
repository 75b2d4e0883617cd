import Zl.Vm.Native.CivilTime

open zl.gregorian zl.vm.native.time

namespace zl.stdlib.time

def checked (n : Int) (operation : String) : Except Fault Int :=
  if IsInt64 n then .ok n else .error (.raised (.arithmetic ("integer overflow in " ++ operation)))

def add (a b : Int) : Except Fault Int := checked (a + b) "addition"

def sub (a b : Int) : Except Fault Int := checked (a - b) "subtraction"

def mul (a b : Int) : Except Fault Int := checked (a * b) "multiplication"

def div (a b : Int) : Except Fault Int :=
  if b = 0 then .error (.raised (.arithmetic "division by zero")) else checked (a.tdiv b) "division"

def mod (a b : Int) : Except Fault Int :=
  if b = 0 then .error (.raised (.arithmetic "modulo by zero")) else .ok (a.tmod b)

theorem add_eq {a b : Int} (hlow : -2 ^ 63 ≤ a + b) (hhigh : a + b < 2 ^ 63) : add a b = .ok (a + b) :=
  if_pos ⟨hlow, hhigh⟩

theorem sub_eq {a b : Int} (hlow : -2 ^ 63 ≤ a - b) (hhigh : a - b < 2 ^ 63) : sub a b = .ok (a - b) :=
  if_pos ⟨hlow, hhigh⟩

theorem mul_eq {a b : Int} (hlow : -2 ^ 63 ≤ a * b) (hhigh : a * b < 2 ^ 63) : mul a b = .ok (a * b) :=
  if_pos ⟨hlow, hhigh⟩

theorem div_tdiv {a b : Int} (hlow : -2 ^ 63 ≤ a) (hhigh : a < 2 ^ 63) (hb : 0 < b) :
    div a b = .ok (a.tdiv b) := by
  have hle := Int.natAbs_tdiv_le_natAbs a b
  have hsign : a ≤ 0 → a.tdiv b ≤ 0 := fun ha => by
    have hneg := Int.tdiv_nonneg (Int.neg_nonneg_of_nonpos ha) hb.le
    rwa [Int.neg_tdiv, Int.neg_nonneg] at hneg
  rw [div, if_neg hb.ne']
  exact if_pos ⟨by omega, by omega⟩

theorem div_eq {a b : Int} (ha : 0 ≤ a) (hhigh : a < 2 ^ 63) (hb : 0 < b) : div a b = .ok (a / b) := by
  rw [div_tdiv (by omega) hhigh hb, Int.tdiv_eq_ediv_of_nonneg ha]

theorem mod_eq {a b : Int} (ha : 0 ≤ a) (hb : 0 < b) : mod a b = .ok (a % b) := by
  rw [mod, if_neg hb.ne', Int.tmod_eq_emod_of_nonneg ha]

theorem tdiv_below {a b : Int} (ha : a < 0) (hb : 0 < b) : (a - (b - 1)).tdiv b = a / b := by
  have hdiv := Int.mul_ediv_add_emod a b
  have hlow := Int.emod_nonneg a hb.ne'
  have hhigh := Int.emod_lt_of_pos a hb
  have hq : a / b < 0 := Int.ediv_neg_of_neg_of_pos ha hb
  have hneg : a - (b - 1) = -((b - 1 - a % b) + b * -(a / b)) := by rw [Int.mul_neg]; omega
  have hnonneg : 0 ≤ b * -(a / b) := Int.mul_nonneg hb.le (by omega)
  rw [hneg, Int.neg_tdiv, Int.tdiv_eq_ediv_of_nonneg (by omega), Int.add_mul_ediv_left _ _ hb.ne',
    Int.ediv_eq_zero_of_lt (by omega) (by omega)]
  omega

-- Not by `rfl` alone: as a definitional rule it makes the kernel unfold the rest of a chain again.
theorem ok_bind {α β : Type} (a : α) (f : α → Except Fault β) : (Except.ok a >>= f) = f a :=
  Eq.trans rfl rfl

/-- A chain of operations is evaluated from its front: what follows is left alone. -/
@[congr]
theorem bind_congr_front {α β : Type} {x x' : Except Fault α} (f : α → Except Fault β) (h : x = x') :
    (x >>= f) = (x' >>= f) := by
  rw [h]

namespace Calendar

/-- The cycle of `length` units that `a` lies in: the quotient, and below zero that of `a - below`. -/
def eraOf (a length below : Int) : Except Fault Int := do
  let era ← div a length
  if a < 0 then div (← sub a below) length else return era

def civilToDays (year month day : Int) : Except Fault Int := do
  let y ← if month ≤ 2 then sub year 1 else .ok year
  let era ← eraOf y 400 399
  let yoe ← sub y (← mul era 400)
  let mp ← mod (← add month 9) 12
  let doy ← sub (← add (← div (← add (← mul 153 mp) 2) 5) day) 1
  let doe ← add (← sub (← add (← mul yoe 365) (← div yoe 4)) (← div yoe 100)) doy
  sub (← add (← mul era 146097) doe) 719468

/-- The part of `fromDayNumber` that computes a date: the year, the month and the day. -/
def civilFromDays (dayNumber : Int) : Except Fault (Int × Int × Int) := do
  let z ← add dayNumber 719468
  let era ← eraOf z 146097 146096
  let doe ← sub z (← mul era 146097)
  let yoe ← div (← sub (← add (← sub doe (← div doe 1460)) (← div doe 36524)) (← div doe 146096)) 365
  let y ← add yoe (← mul era 400)
  let doy ← sub doe (← sub (← add (← mul 365 yoe) (← div yoe 4)) (← div yoe 100))
  let mp ← div (← add (← mul 5 doy) 2) 153
  let d ← add (← sub doy (← div (← add (← mul 153 mp) 2) 5)) 1
  let m ← add mp 3
  let m ← if 10 ≤ mp then sub mp 9 else .ok m
  let y ← if m ≤ 2 then add y 1 else .ok y
  return (y, m, d)

def daysInMonth (year month : Int) : Int :=
  if month = 2 then if timeIsLeapYear year then 29 else 28
  else if month = 4 ∨ month = 6 ∨ month = 9 ∨ month = 11 then 30
  else 31

section
variable (offset : Int)

def fromDayNumber (dayNumber hour minute second : Int) : Except Fault Int := do
  let (y, m, d) ← civilFromDays dayNumber
  timeFromParts offset y m d hour minute second

def dayNumber (timestamp : Int) : Except Fault Int := do
  civilToDays (← timeYear offset timestamp) (← timeMonth offset timestamp) (← timeDay offset timestamp)

def addDays (timestamp days : Int) : Except Fault Int := do
  fromDayNumber offset (← add (← dayNumber offset timestamp) days) (← timeHour offset timestamp)
    (← timeMinute offset timestamp) (← timeSecond offset timestamp)

/-- The year and the month that `addMonths` computes. -/
def monthsLater (year month months : Int) : Except Fault (Int × Int) := do
  let total ← add (← add (← mul year 12) (← sub month 1)) months
  let later ← div total 12
  let laterMonth ← add (← mod total 12) 1
  if laterMonth < 1 then
    let laterMonth ← add laterMonth 12
    return (← sub later 1, laterMonth)
  else return (later, laterMonth)

def addMonths (timestamp months : Int) : Except Fault Int := do
  let (year, month) ← monthsLater (← timeYear offset timestamp) (← timeMonth offset timestamp) months
  let day ← timeDay offset timestamp
  let limit := daysInMonth year month
  let day := if day > limit then limit else day
  timeFromParts offset year month day (← timeHour offset timestamp) (← timeMinute offset timestamp)
    (← timeSecond offset timestamp)

end

theorem eraOf_eq {a b c : Int} (hc : c = b - 1) (hlow : -2 ^ 63 ≤ a - c) (hhigh : a < 2 ^ 63) (hb : 0 < b) :
    eraOf a b c = .ok (a / b) := by
  rw [eraOf, div_tdiv (by omega) hhigh hb, ok_bind]
  split_ifs with ha
  · rw [sub_eq (by omega) (by omega), ok_bind, div_tdiv hlow (by omega) hb, hc, tdiv_below ha hb]
  · rw [Int.tdiv_eq_ediv_of_nonneg (by omega)]
    rfl

/-- The year that begins in March. -/
def marchYear (d : Date) : Int := if d.month ≤ 2 then d.year - 1 else d.year

theorem dayNumber_eq_marchYear (d : Date) :
    d.dayNumber = marchYear d / 400 * 146097 + (marchYear d % 400 * 365 + marchYear d % 400 / 4 -
      marchYear d % 400 / 100 + ((153 * ((d.month + 9) % 12) + 2) / 5 + d.day - 1)) - 719468 := by
  have hm := d.month_mem
  rw [Date.dayNumber, daysBeforeMonth_eq hm, daysBeforeYear, marchYear]
  by_cases hfirst : d.month ≤ 2
  · simp only [hfirst, if_true]
    omega
  · simp only [hfirst, if_false]
    split_ifs with hleap <;> simp only [IsLeap] at hleap <;> omega

/-- Within the integers of the language `civilToDays` gives the number of every day. -/
theorem civilToDays_eq {d : Date} (hlow : -2 ^ 63 ≤ d.dayNumber) (hhigh : d.dayNumber + 719468 < 2 ^ 63) :
    civilToDays d.year d.month d.day = .ok d.dayNumber := by
  have hm := d.month_mem
  have hd := d.day_mem
  have hlength := monthLength_bounds d.year d.month
  have hnumber := dayNumber_eq_marchYear d
  obtain ⟨e, he⟩ : ∃ e, e = marchYear d / 400 := ⟨_, rfl⟩
  obtain ⟨y, hy⟩ : ∃ y, y = marchYear d % 400 := ⟨_, rfl⟩
  rw [← he, ← hy] at hnumber
  have hrest : marchYear d - e * 400 = y := by omega
  generalize d.dayNumber = n at *
  rw [marchYear] at *
  rw [civilToDays]
  split_ifs at * with hfirst <;>
    simp (disch := omega) only [sub_eq, ok_bind, eraOf_eq, ← he, mul_eq, hrest, add_eq,
      mod_eq, div_eq] <;>
    rw [hnumber]

/-- The year of a 400-year cycle out of the days of the cycle that passed, and the day of this year. -/
theorem yearOfEra_spec {n y r e : Int} (hn : 0 ≤ n ∧ n ≤ 146096)
    (hy : y = (n - n / 1460 + n / 36524 - n / 146096) / 365) (hr : r = n - (365 * y + y / 4 - y / 100)) :
    (0 ≤ y ∧ y ≤ 399) ∧ (0 ≤ r ∧ r ≤ 365) ∧ (r = 365 → IsLeap (y + e * 400 + 1)) := by
  obtain ⟨c, hc⟩ : ∃ c, c = min (n / 36524) 3 := ⟨_, rfl⟩
  obtain ⟨q, hq⟩ : ∃ q, q = (n - 36524 * c) / 1461 := ⟨_, rfl⟩
  obtain ⟨p, hp⟩ : ∃ p, p = min ((n - 36524 * c - 1461 * q) / 365) 3 := ⟨_, rfl⟩
  obtain ⟨hc', hq', hp', hlow, hhigh⟩ := cycle_bounds hn hc hq hp
  obtain ⟨s, hs⟩ : ∃ s, s = n - 36524 * c - 1461 * q - 365 * p := ⟨_, rfl⟩
  rw [← hs] at hlow hhigh
  have hyear : y = 100 * c + 4 * q + p := by
    clear hr hq hp
    -- On the last day of the cycle every quotient is one too large.
    by_cases hlast : n = 146096
    · omega
    · have hcentury : n / 36524 = c := by omega
      have hcycle : n / 146096 = 0 := by omega
      have hfour : n / 1460 = 25 * c + q + (24 * c + q + 365 * p + s) / 1460 := by omega
      omega
  clear hy hc hq hp
  have hday : r = s := by omega
  obtain ⟨-, hleap⟩ := daysBeforeYear_cycle (e := e) hc' hq' hp'
  have hsame : y + e * 400 + 1 = 400 * e + 100 * c + 4 * q + p + 1 := by omega
  exact ⟨by omega, by omega, fun hlast => by rw [hsame, hleap]; omega⟩

/-- The day of a year that begins in March, in the months that `civilFromDays` counts from March on. -/
theorem exists_marchDate {y r m : Int} (hr : 0 ≤ r ∧ r ≤ 365) (hleap : r = 365 → IsLeap (y + 1))
    (hm : m = (5 * r + 2) / 153) :
    ∃ d : Date, marchYear d = y ∧ d.day = r - (153 * m + 2) / 5 + 1 ∧ (d.month + 9) % 12 = m ∧
      (m < 10 ∧ d.month = m + 3 ∧ d.year = y ∨ 10 ≤ m ∧ d.month = m - 9 ∧ d.year = y + 1) := by
  by_cases hlate : 10 ≤ m
  · have hday : r - (153 * m + 2) / 5 + 1 ≤ monthLength (y + 1) (m - 9) := by
      simp only [monthLength]
      split_ifs with hfeb hyear
      · omega
      · have hne : r ≠ 365 := fun h => hyear (hleap h)
        omega
      · omega
      · omega
    refine ⟨⟨y + 1, m - 9, r - (153 * m + 2) / 5 + 1, by omega, by omega, hday⟩, ?_,
      rfl, by simp only; omega, .inr ⟨hlate, rfl, rfl⟩⟩
    rw [marchYear, if_pos (by simp only; omega)]
    exact Int.add_sub_cancel y 1
  · have hday : r - (153 * m + 2) / 5 + 1 ≤ monthLength y (m + 3) := by
      rw [monthLength, if_neg (by omega)]
      split_ifs <;> omega
    refine ⟨⟨y, m + 3, r - (153 * m + 2) / 5 + 1, by omega, by omega, hday⟩, ?_, rfl, by simp only; omega,
      .inl ⟨by omega, rfl, rfl⟩⟩
    rw [marchYear, if_neg (by simp only; omega)]

/-- The operations of `civilFromDays`, none of which raises. -/
theorem civilFromDays_run {n e doe y r m : Int} (hlow : -2 ^ 63 ≤ n) (hhigh : n + 719468 < 2 ^ 63)
    (he : e = (n + 719468) / 146097) (hdoe : n + 719468 - e * 146097 = doe)
    (hy : y = (doe - doe / 1460 + doe / 36524 - doe / 146096) / 365)
    (hr : r = doe - (365 * y + y / 4 - y / 100)) (hm : m = (5 * r + 2) / 153)
    (hyears : 0 ≤ y ∧ y ≤ 399) (hdays : 0 ≤ r ∧ r ≤ 365) :
    civilFromDays n = .ok (if 10 ≤ m then y + e * 400 + 1 else y + e * 400,
      if 10 ≤ m then m - 9 else m + 3, r - (153 * m + 2) / 5 + 1) := by
  rw [civilFromDays]
  simp (disch := omega) only [sub_eq, ok_bind, eraOf_eq, ← he, mul_eq, hdoe, add_eq, div_eq,
    ← hy, ← hr, ← hm]
  by_cases hlate : 10 ≤ m
  · simp only [hlate, if_true]
    rw [if_pos (by omega)]
    rfl
  · simp only [hlate, if_false]
    rw [if_neg (by omega)]
    rfl

/-- The date that `fromDayNumber` computes. -/
theorem civilFromDays_eq {n : Int} (hlow : -2 ^ 63 ≤ n) (hhigh : n + 719468 < 2 ^ 63) :
    civilFromDays n = .ok ((Date.ofDayNumber n).year, (Date.ofDayNumber n).month,
      (Date.ofDayNumber n).day) := by
  obtain ⟨e, he⟩ : ∃ e, e = (n + 719468) / 146097 := ⟨_, rfl⟩
  obtain ⟨doe, hdoe⟩ : ∃ doe, n + 719468 - e * 146097 = doe := ⟨_, rfl⟩
  have hbounds : 0 ≤ doe ∧ doe ≤ 146096 := by omega
  obtain ⟨y, hy⟩ : ∃ y, y = (doe - doe / 1460 + doe / 36524 - doe / 146096) / 365 := ⟨_, rfl⟩
  obtain ⟨r, hr⟩ : ∃ r, r = doe - (365 * y + y / 4 - y / 100) := ⟨_, rfl⟩
  obtain ⟨m, hm⟩ : ∃ m, m = (5 * r + 2) / 153 := ⟨_, rfl⟩
  obtain ⟨hyears, hdays, hleap⟩ := yearOfEra_spec hbounds hy hr (e := e)
  obtain ⟨d, hmarch, hday, hmonth, hdate⟩ := exists_marchDate hdays hleap hm
  have hnumber : d.dayNumber = n := by
    have hcycle : (y + e * 400) / 400 = e ∧ (y + e * 400) % 400 = y := by omega
    rw [dayNumber_eq_marchYear, hmarch, hmonth, hday, hcycle.1, hcycle.2]
    omega
  rw [civilFromDays_run hlow hhigh he hdoe hy hr hm hyears hdays, ← hnumber,
    Date.ofDayNumber_dayNumber, hday]
  rcases hdate with ⟨hlate, hmonth, hyear⟩ | ⟨hlate, hmonth, hyear⟩
  · rw [if_neg (by omega), if_neg (by omega), hmonth, hyear]
  · rw [if_pos hlate, if_pos hlate, hmonth, hyear]

end Calendar

end zl.stdlib.time
