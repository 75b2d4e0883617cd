import Zl.Calendar.Gregorian
import Zl.Vm.Numeric

open zl.gregorian zl.vm.value

namespace zl.vm.native.time

/-- Why a function has no result: it raised, or the behaviour of the C++ code is not defined. -/
inductive Fault where
  | raised (error : VmError)
  | undefined
  deriving DecidableEq

/-- The range of a C++ `int`. -/
def IsInt (n : Int) : Prop := -2 ^ 31 ≤ n ∧ n < 2 ^ 31

instance : DecidablePred IsInt := fun _ => inferInstanceAs (Decidable (_ ∧ _))

def IsInt64 (n : Int) : Prop := -2 ^ 63 ≤ n ∧ n < 2 ^ 63

instance : DecidablePred IsInt64 := fun _ => inferInstanceAs (Decidable (_ ∧ _))

/-- The result of `int` arithmetic. -/
def intResult (n : Int) : Except Fault Int := if IsInt n then .ok n else .error .undefined

/-- `static_cast<int>`. -/
def toInt (n : Int) : Int := n.bmod (2 ^ 32)

theorem toInt_eq {n : Int} (h : IsInt n) : toInt n = n := by
  simp only [IsInt] at h
  exact Int.bmod_eq_of_le (by omega) (by omega)

/-- `struct tm`, its fields for the weekday and the day of the year apart. -/
structure Tm where
  year : Int
  mon : Int
  mday : Int
  hour : Int
  min : Int
  sec : Int
  deriving DecidableEq

section
-- The local time is `offset` seconds ahead of UTC.
variable (offset : Int)

def dateAt (t : Int) : Date := .ofDayNumber ((t + offset) / 86400)

def secondAt (t : Int) : Int := (t + offset) % 86400

/-- The broken-down time, where its year has room in a `tm`. -/
def localtime (t : Int) : Option Tm :=
  if IsInt ((dateAt offset t).year - 1900) then
    some { year := (dateAt offset t).year - 1900, mon := (dateAt offset t).month - 1
           mday := (dateAt offset t).day, hour := secondAt offset t / 3600
           min := secondAt offset t % 3600 / 60, sec := secondAt offset t % 60 }
  else none

/-- The first day of the month that a `tm` counts from. -/
def firstOfMonth (tm : Tm) : Date :=
  { year := (12 * (tm.year + 1900) + tm.mon) / 12, month := (12 * (tm.year + 1900) + tm.mon) % 12 + 1
    day := 1
    month_mem := by omega
    day_mem := ⟨Int.le_refl 1, by
      have := monthLength_bounds ((12 * (tm.year + 1900) + tm.mon) / 12)
        ((12 * (tm.year + 1900) + tm.mon) % 12 + 1)
      omega⟩ }

/-- The timestamp that a `tm` stands for, whatever the size of its fields. -/
def instantOf (tm : Tm) : Int :=
  ((firstOfMonth tm).dayNumber + (tm.mday - 1)) * 86400 + tm.hour * 3600 + tm.min * 60 + tm.sec - offset

/-- A timestamp whose civil year has room in a `tm`. -/
def Representable (t : Int) : Prop := IsInt64 t ∧ IsInt ((dateAt offset t).year - 1900)

instance : DecidablePred (Representable offset) := fun _ => inferInstanceAs (Decidable (_ ∧ _))

/-- `mktime` in a zone without daylight saving. -/
def mktime (tm : Tm) : Int := if Representable offset (instantOf offset tm) then instantOf offset tm else -1

def toLocalTm (t : Int) : Except Fault Tm :=
  match localtime offset t with
  | some tm => .ok tm
  | none => .error .undefined

/-- The natives that read one component of a timestamp. -/
def timeComponent (read : Tm → Int) (t : Int) : Except Fault Int := do
  intResult (read (← toLocalTm offset t))

def timeYear : Int → Except Fault Int := timeComponent offset fun tm => tm.year + 1900

def timeMonth : Int → Except Fault Int := timeComponent offset fun tm => tm.mon + 1

def timeDay : Int → Except Fault Int := timeComponent offset Tm.mday

def timeHour : Int → Except Fault Int := timeComponent offset Tm.hour

def timeMinute : Int → Except Fault Int := timeComponent offset Tm.min

def timeSecond : Int → Except Fault Int := timeComponent offset Tm.sec

def notRepresentable : Fault :=
  .raised (.runtime "Time.fromParts: the given date/time is not representable")

def timeFromParts (year month day hour minute second : Int) : Except Fault Int := do
  let tmYear ← intResult (toInt year - 1900)
  let tmMon ← intResult (toInt month - 1)
  let result := mktime offset { year := tmYear, mon := tmMon, mday := toInt day, hour := toInt hour
                                min := toInt minute, sec := toInt second }
  if result = -1 then .error notRepresentable else .ok result

end

def timeIsLeapYear (year : Int) : Bool :=
  (year.tmod 4 = 0 && year.tmod 100 ≠ 0) || year.tmod 400 = 0

section
variable {offset : Int}
variable {t : Int} {d : Date} {s : Int}

theorem instant_eq (t : Int) : (dateAt offset t).dayNumber * 86400 + secondAt offset t - offset = t := by
  simp only [dateAt, secondAt, Date.dayNumber_ofDayNumber]
  omega

theorem dateAt_eq (hs : 0 ≤ s ∧ s < 86400) :
    dateAt offset (d.dayNumber * 86400 + s - offset) = d ∧
      secondAt offset (d.dayNumber * 86400 + s - offset) = s := by
  have hday : (d.dayNumber * 86400 + s - offset + offset) / 86400 = d.dayNumber := by omega
  refine ⟨?_, by simp only [secondAt]; omega⟩
  rw [dateAt, hday, Date.ofDayNumber_dayNumber]

/-- The `tm` of a day and a time of it. -/
def tmOf (d : Date) (s : Int) : Tm :=
  { year := d.year - 1900, mon := d.month - 1, mday := d.day, hour := s / 3600, min := s % 3600 / 60
    sec := s % 60 }

theorem dayNumber_firstOfMonth (d : Date) (s : Int) :
    (firstOfMonth (tmOf d s)).dayNumber + (d.day - 1) = d.dayNumber := by
  have hm := d.month_mem
  have hyear : (12 * (d.year - 1900 + 1900) + (d.month - 1)) / 12 = d.year := by omega
  have hmonth : (12 * (d.year - 1900 + 1900) + (d.month - 1)) % 12 + 1 = d.month := by omega
  simp only [Date.dayNumber, firstOfMonth, tmOf, hyear, hmonth]
  omega

theorem instantOf_tmOf (d : Date) (s : Int) :
    instantOf offset (tmOf d s) = d.dayNumber * 86400 + s - offset := by
  have hday := dayNumber_firstOfMonth d s
  have hmday : (tmOf d s).mday = d.day := rfl
  have htime : (tmOf d s).hour * 3600 + (tmOf d s).min * 60 + (tmOf d s).sec = s := by
    simp only [tmOf]
    omega
  rw [instantOf, hmday, hday]
  omega

theorem localtime_eq (h : Representable offset t) :
    localtime offset t = some (tmOf (dateAt offset t) (secondAt offset t)) := if_pos h.2

theorem timeYear_eq (h : Representable offset t) :
    timeYear offset t = intResult (dateAt offset t).year := by
  rw [timeYear, timeComponent, toLocalTm, localtime_eq h]
  change intResult (_ - 1900 + 1900) = _
  rw [Int.sub_add_cancel]

theorem timeComponent_eq {read : Tm → Int} (h : Representable offset t)
    (hread : IsInt (read (tmOf (dateAt offset t) (secondAt offset t)))) :
    timeComponent offset read t = .ok (read (tmOf (dateAt offset t) (secondAt offset t))) := by
  rw [timeComponent, toLocalTm, localtime_eq h]
  exact if_pos hread

theorem secondAt_bounds (t : Int) : 0 ≤ secondAt offset t ∧ secondAt offset t < 86400 := by
  simp only [secondAt]
  omega

/-- The components of a timestamp other than its year always have room in an `int`. -/
theorem timeComponents_eq (h : Representable offset t) :
    timeMonth offset t = .ok (dateAt offset t).month ∧ timeDay offset t = .ok (dateAt offset t).day ∧
      timeHour offset t = .ok (secondAt offset t / 3600) ∧
      timeMinute offset t = .ok (secondAt offset t % 3600 / 60) ∧
      timeSecond offset t = .ok (secondAt offset t % 60) := by
  have hm := (dateAt offset t).month_mem
  have hd := (dateAt offset t).day_mem
  have hlength := monthLength_bounds (dateAt offset t).year (dateAt offset t).month
  have hs : 0 ≤ secondAt offset t ∧ secondAt offset t < 86400 := secondAt_bounds t
  refine ⟨?_, ?_, ?_, ?_, ?_⟩
  · rw [timeMonth, timeComponent_eq h (by simp only [tmOf, IsInt]; omega), tmOf, Int.sub_add_cancel]
  · exact timeComponent_eq h (by simp only [tmOf, IsInt]; omega)
  · exact timeComponent_eq h (by simp only [tmOf, IsInt]; omega)
  · exact timeComponent_eq h (by simp only [tmOf, IsInt]; omega)
  · exact timeComponent_eq h (by simp only [tmOf, IsInt]; omega)

/-- The timestamp of a second of a day. -/
def civilInstant (offset : Int) (d : Date) (s : Int) : Int := d.dayNumber * 86400 + s - offset

theorem representable_civilInstant (hs : 0 ≤ s ∧ s < 86400) :
    Representable offset (civilInstant offset d s) ↔
      IsInt64 (civilInstant offset d s) ∧ IsInt (d.year - 1900) := by
  rw [Representable, civilInstant, (dateAt_eq hs).1]

/-- `timeFromParts` with the parts of a second of a day, in a year that C arithmetic has room for. -/
theorem timeFromParts_eq (hs : 0 ≤ s ∧ s < 86400) (hyear : IsInt d.year) (htm : IsInt (d.year - 1900)) :
    timeFromParts offset d.year d.month d.day (s / 3600) (s % 3600 / 60) (s % 60) =
      if IsInt64 (civilInstant offset d s) ∧ civilInstant offset d s ≠ -1 then
        .ok (civilInstant offset d s)
      else .error notRepresentable := by
  have hm := d.month_mem
  have hd := d.day_mem
  have hlength := monthLength_bounds d.year d.month
  have hint : ∀ n, 0 ≤ n → n < 86400 → IsInt n := fun n hlow hhigh => ⟨by omega, by omega⟩
  rw [timeFromParts, toInt_eq hyear, toInt_eq (hint d.month (by omega) (by omega)),
    toInt_eq (hint d.day (by omega) (by omega)), toInt_eq (hint (s / 3600) (by omega) (by omega)),
    toInt_eq (hint (s % 3600 / 60) (by omega) (by omega)), toInt_eq (hint (s % 60) (by omega) (by omega)),
    intResult, if_pos htm, intResult, if_pos (hint (d.month - 1) (by omega) (by omega))]
  change (if mktime offset (tmOf d s) = -1 then _ else Except.ok (mktime offset (tmOf d s))) = _
  rw [mktime, instantOf_tmOf, ← civilInstant]
  have hiff : Representable offset (civilInstant offset d s) ↔ _ := representable_civilInstant hs
  by_cases hint64 : IsInt64 (civilInstant offset d s)
  · rw [if_pos (hiff.mpr ⟨hint64, htm⟩)]
    by_cases hepoch : civilInstant offset d s = -1 <;> simp [hepoch, hint64]
  · rw [if_neg fun h => hint64 (hiff.mp h).1, if_pos rfl, if_neg fun h => hint64 h.1]

end

end zl.vm.native.time
