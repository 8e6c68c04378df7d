import Mathlib.Tactic.IntervalCases
import Vsql.Values.SqlType

/-!
# Datetimes

A datetime is a Gregorian date and a time of day, with the displacement of its
time zone in minutes.  It is stored and sorted as `i64`, which joins the fields
as if every month had 31 days, and compared in UTC as `utcMicros`.  Without a
time zone both are the order of the fields.
-/

namespace Vsql

def secondPeriod : Int := 1000000
def minutePeriod : Int := 60 * secondPeriod
def hourPeriod : Int := 60 * minutePeriod
def dayPeriod : Int := 24 * hourPeriod
def monthPeriod : Int := 31 * dayPeriod
def yearPeriod : Int := 12 * monthPeriod

def isLeapYear (year : Int) : Bool :=
  year % 4 == 0 && (year % 100 != 0 || year % 400 == 0)

def daysInMonth (month year : Int) : Int :=
  if month = 2 then if isLeapYear year then 29 else 28
  else if month = 4 ∨ month = 6 ∨ month = 9 ∨ month = 11 then 30
  else 31

/-- The fields of a time that has been normalized. -/
structure DateTime where
  year : Int
  month : Int
  day : Int
  hour : Int
  minute : Int
  second : Int
  nanosecond : Int
  deriving DecidableEq, Repr

namespace DateTime

structure Valid (t : DateTime) : Prop where
  year : 1 ≤ t.year ∧ t.year ≤ 10000
  month : 1 ≤ t.month ∧ t.month ≤ 12
  day : 1 ≤ t.day ∧ t.day ≤ daysInMonth t.month t.year
  hour : 0 ≤ t.hour ∧ t.hour < 24
  minute : 0 ≤ t.minute ∧ t.minute < 60
  second : 0 ≤ t.second ∧ t.second < 60
  nanosecond : 0 ≤ t.nanosecond ∧ t.nanosecond < 1000000000

instance (t : DateTime) : Decidable t.Valid :=
  decidable_of_iff
    ((1 ≤ t.year ∧ t.year ≤ 10000) ∧ (1 ≤ t.month ∧ t.month ≤ 12) ∧
      (1 ≤ t.day ∧ t.day ≤ daysInMonth t.month t.year) ∧
      (0 ≤ t.hour ∧ t.hour < 24) ∧ (0 ≤ t.minute ∧ t.minute < 60) ∧
      (0 ≤ t.second ∧ t.second < 60) ∧ 0 ≤ t.nanosecond ∧ t.nanosecond < 1000000000)
    ⟨fun ⟨h1, h2, h3, h4, h5, h6, h7⟩ => ⟨h1, h2, h3, h4, h5, h6, h7⟩,
      fun ⟨h1, h2, h3, h4, h5, h6, h7⟩ => ⟨h1, h2, h3, h4, h5, h6, h7⟩⟩

/-- The days since 1970-01-01 of a date of the Gregorian calendar. -/
def daysFromUnixEpoch (year month day : Int) : Int :=
  let y := if month ≤ 2 then year - 1 else year
  let era := y / 400
  let yearOfTheEra := y - era * 400
  let dayOfYear := (153 * (month + if month > 2 then -3 else 9) + 2) / 5 + day - 1
  let dayOfTheEra := yearOfTheEra * 365 + yearOfTheEra / 4 - yearOfTheEra / 100 +
    dayOfYear
  era * 146097 + dayOfTheEra - 719468

def unix (t : DateTime) : Int :=
  daysFromUnixEpoch t.year t.month t.day * 86400 + t.hour * 3600 + t.minute * 60 +
    t.second

def timeI64 (t : DateTime) : Int :=
  t.hour * hourPeriod + t.minute * minutePeriod + t.second * secondPeriod +
    t.nanosecond / 1000

def dateI64 (t : DateTime) : Int :=
  t.year * yearPeriod + t.month * monthPeriod + t.day * dayPeriod

def i64 (t : DateTime) : Int := t.dateI64 + t.timeI64

/-- The microseconds since 1970-01-01 00:00:00 in the time zone of the time. -/
def micros (t : DateTime) : Int := t.unix * 1000000 + t.nanosecond / 1000

/-! ## The calendar keeps the order of the fields -/

/-- The days before the month, in a year that starts in March. -/
private def monthStart (month : Int) : Int :=
  (153 * (month + if month > 2 then -3 else 9) + 2) / 5

private def marchYear (year month : Int) : Int :=
  if month ≤ 2 then year - 1 else year

private theorem daysFromUnixEpoch_eq (year month day : Int) :
    daysFromUnixEpoch year month day =
      365 * marchYear year month + marchYear year month / 4 -
        marchYear year month / 100 + marchYear year month / 400 +
        monthStart month + day - 719469 := by
  simp only [daysFromUnixEpoch, marchYear, monthStart]
  omega

private theorem isLeapYear_iff (year : Int) :
    isLeapYear year = true ↔ year % 4 = 0 ∧ (year % 100 ≠ 0 ∨ year % 400 = 0) := by
  simp [isLeapYear]

/-- A day of a month comes before the months that follow. -/
private theorem monthStart_lt {month month' day year : Int}
    (hm : 1 ≤ month ∧ month ≤ 12) (hm' : 1 ≤ month' ∧ month' ≤ 12)
    (hd : day ≤ daysInMonth month year)
    (hlt : (month + if month > 2 then -3 else 9) < month' + if month' > 2 then -3 else 9) :
    monthStart month + day ≤ monthStart month' := by
  have hmonth : month ≠ 2 := by
    rintro rfl
    split at hlt <;> omega
  have hday : day ≤ if month = 4 ∨ month = 6 ∨ month = 9 ∨ month = 11 then 30 else 31 := by
    rw [daysInMonth, if_neg hmonth] at hd
    exact hd
  simp only [monthStart]
  obtain ⟨h1, h2⟩ := hm
  interval_cases month <;> simp at hlt hday ⊢ <;> omega

/-- A year from March to February has 366 days before a leap year's March. -/
private theorem monthStart_add_day_le {month day year : Int}
    (hm : 1 ≤ month ∧ month ≤ 12) (hd : day ≤ daysInMonth month year) :
    monthStart month + day ≤
      if isLeapYear (marchYear year month + 1) then 366 else 365 := by
  by_cases hfeb : month = 2
  · subst hfeb
    have hyear : marchYear year 2 + 1 = year := by
      simp only [marchYear]
      omega
    have hstart : monthStart 2 = 337 := rfl
    rw [hyear, hstart]
    rw [daysInMonth, if_pos rfl] at hd
    split at hd
    · next hleap =>
        rw [if_pos hleap]
        omega
    · next hleap =>
        rw [if_neg hleap]
        omega
  · have hnext : (month + if month > 2 then -3 else 9) < 11 →
        monthStart month + day ≤ monthStart 2 :=
      @monthStart_lt month 2 day year hm (by omega) hd
    simp only [daysInMonth, hfeb, if_false] at hd
    by_cases hlate : (month + if month > 2 then -3 else 9) < 11
    · have := hnext (by simpa using hlate)
      simp only [monthStart] at this ⊢
      split <;> omega
    · exfalso
      split at hlate <;> omega

private theorem yearStart_lt {y y' : Int} (h : y < y') :
    365 * y + y / 4 - y / 100 + y / 400 +
        (if isLeapYear (y + 1) then 366 else 365) ≤
      365 * y' + y' / 4 - y' / 100 + y' / 400 := by
  by_cases hleap : isLeapYear (y + 1) = true
  · rw [if_pos hleap]
    rw [isLeapYear_iff] at hleap
    omega
  · rw [if_neg hleap]
    omega

theorem daysFromUnixEpoch_lt {year month day year' month' day' : Int}
    (hm : 1 ≤ month ∧ month ≤ 12) (hm' : 1 ≤ month' ∧ month' ≤ 12)
    (hd : 1 ≤ day ∧ day ≤ daysInMonth month year) (hd' : 1 ≤ day')
    (hlt : year < year' ∨
      year = year' ∧ (month < month' ∨ month = month' ∧ day < day')) :
    daysFromUnixEpoch year month day < daysFromUnixEpoch year' month' day' := by
  rw [daysFromUnixEpoch_eq, daysFromUnixEpoch_eq]
  have hstart : 0 ≤ monthStart month' := by
    simp only [monthStart]
    split <;> omega
  have hlast := monthStart_add_day_le hm hd.2
  obtain hyear | hyear | ⟨hyear, hmonth⟩ : marchYear year month < marchYear year' month' ∨
      marchYear year month = marchYear year' month' ∧
        (month + if month > 2 then -3 else 9) < (month' + if month' > 2 then -3 else 9) ∨
      marchYear year month = marchYear year' month' ∧ month = month' ∧ day < day' := by
    simp only [marchYear]
    split <;> split <;> omega
  · have := yearStart_lt hyear
    omega
  · have := monthStart_lt hm hm' hd.2 hyear.2
    omega
  · obtain ⟨rfl, hday⟩ := hmonth
    omega

/-! ## Both integers are in the order of the fields -/

theorem timeI64_eq (t : DateTime) :
    t.timeI64 = (t.hour * 3600 + t.minute * 60 + t.second) * 1000000 +
      t.nanosecond / 1000 := by
  simp only [timeI64, hourPeriod, minutePeriod, secondPeriod]
  omega

theorem Valid.timeI64_bounds {t : DateTime} (h : t.Valid) :
    0 ≤ t.timeI64 ∧ t.timeI64 < dayPeriod := by
  have hh := h.hour
  have hm := h.minute
  have hs := h.second
  have hn := h.nanosecond
  rw [timeI64_eq]
  simp only [dayPeriod, hourPeriod, minutePeriod, secondPeriod]
  omega

theorem micros_eq (t : DateTime) :
    t.micros = daysFromUnixEpoch t.year t.month t.day * dayPeriod + t.timeI64 := by
  rw [timeI64_eq]
  simp only [micros, unix, dayPeriod, hourPeriod, minutePeriod, secondPeriod]
  omega

theorem Valid.day_le {t : DateTime} (h : t.Valid) : t.day ≤ 31 := by
  have hd := h.day.2
  rw [daysInMonth] at hd
  split at hd
  · split at hd <;> omega
  · split at hd <;> omega

theorem micros_lt_of_i64_lt {t u : DateTime} (ht : t.Valid) (hu : u.Valid)
    (h : t.i64 < u.i64) : t.micros < u.micros := by
  have htb := ht.timeI64_bounds
  have hub := hu.timeI64_bounds
  have htd := ht.day_le
  have hud := hu.day_le
  have htm := ht.month
  have hum := hu.month
  have htd' := ht.day.1
  have hud' := hu.day.1
  rw [micros_eq, micros_eq]
  simp only [i64, dateI64, yearPeriod, monthPeriod] at h
  generalize hp : dayPeriod = p at *
  have hpval : p = 86400000000 := by
    rw [← hp]
    rfl
  obtain hdate | ⟨hy, hm, hd⟩ : (t.year < u.year ∨ t.year = u.year ∧
      (t.month < u.month ∨ t.month = u.month ∧ t.day < u.day)) ∨
      t.year = u.year ∧ t.month = u.month ∧ t.day = u.day := by
    subst hpval
    omega
  · have := daysFromUnixEpoch_lt ht.month hu.month ht.day hu.day.1 hdate
    subst hpval
    omega
  · rw [hy, hm, hd] at h ⊢
    omega

theorem micros_eq_of_i64_eq {t u : DateTime} (ht : t.Valid) (hu : u.Valid)
    (h : t.i64 = u.i64) : t.micros = u.micros := by
  have htb := ht.timeI64_bounds
  have hub := hu.timeI64_bounds
  have htd := ht.day_le
  have hud := hu.day_le
  have htm := ht.month
  have hum := hu.month
  have htd' := ht.day.1
  have hud' := hu.day.1
  rw [micros_eq, micros_eq]
  simp only [i64, dateI64, yearPeriod, monthPeriod] at h
  generalize hp : dayPeriod = p at *
  have hpval : p = 86400000000 := by
    rw [← hp]
    rfl
  have hfields : t.year = u.year ∧ t.month = u.month ∧ t.day = u.day ∧
      t.timeI64 = u.timeI64 := by
    subst hpval
    omega
  rw [hfields.1, hfields.2.1, hfields.2.2.1, hfields.2.2.2]

/-- The order of `i64` is the order of the instants in one time zone. -/
theorem i64_lt_iff {t u : DateTime} (ht : t.Valid) (hu : u.Valid) :
    t.i64 < u.i64 ↔ t.micros < u.micros := by
  constructor
  · exact micros_lt_of_i64_lt ht hu
  · intro h
    obtain hlt | heq | hgt := lt_trichotomy t.i64 u.i64
    · exact hlt
    · have := micros_eq_of_i64_eq ht hu heq
      omega
    · have := micros_lt_of_i64_lt hu ht hgt
      omega

theorem Valid.i64_bounds {t : DateTime} (h : t.Valid) :
    -2 ^ 63 ≤ t.i64 ∧ t.i64 < 2 ^ 63 := by
  have htime := h.timeI64_bounds
  have hday := h.day_le
  have hday' := h.day.1
  have hmonth := h.month
  have hyear := h.year
  simp only [i64, dateI64, yearPeriod, monthPeriod]
  simp only [dayPeriod, hourPeriod, minutePeriod, secondPeriod] at htime ⊢
  omega

theorem Valid.micros_bounds {t : DateTime} (h : t.Valid) :
    -2 ^ 60 ≤ t.micros ∧ t.micros ≤ 2 ^ 60 := by
  have htime := h.timeI64_bounds
  have hday := h.day_le
  have hday' := h.day.1
  have hmonth := h.month
  have hyear := h.year
  rw [micros_eq]
  simp only [daysFromUnixEpoch]
  simp only [dayPeriod, hourPeriod, minutePeriod, secondPeriod] at htime ⊢
  split <;> split <;> omega

end DateTime

/-! ## Datetimes with a time zone -/

/-- An `i16`, in minutes. -/
abbrev TimeZone := { z : Int // -2 ^ 15 ≤ z ∧ z < 2 ^ 15 }

structure Time where
  typ : DataType
  timeZone : TimeZone
  t : DateTime
  valid : t.Valid
  deriving DecidableEq

namespace Time

def i64 (t : Time) : Int := t.t.i64

/-- The microseconds since 1970-01-01 00:00:00 UTC, of a time in the time zone. -/
def utcMicros (t : Time) (timeZone : TimeZone) : Int :=
  let micros := t.t.micros - timeZone.1 * 60000000
  if t.typ.typ = .timeWithTimeZone ∨ t.typ.typ = .timeWithoutTimeZone then
    let day := 86400000000
    (micros.tmod day + day).tmod day
  else micros

theorem tmod_add_tmod (x : Int) {day : Int} (hday : 0 < day) :
    (x.tmod day + day).tmod day = x % day := by
  have hlow : -day < x.tmod day := Int.lt_tmod_of_pos x hday
  rw [Int.tmod_eq_emod_of_nonneg (by omega), Int.add_emod_right]
  have hdecomp : x = day * x.tdiv day + x.tmod day := (Int.mul_tdiv_add_tmod x day).symm
  conv_rhs => rw [hdecomp]
  rw [Int.mul_add_emod_self_left]

theorem utcMicros_eq (t : Time) (timeZone : TimeZone) :
    t.utcMicros timeZone =
      if t.typ.typ.isTime then (t.t.micros - timeZone.1 * 60000000) % 86400000000
      else t.t.micros - timeZone.1 * 60000000 := by
  have hmod := tmod_add_tmod (t.t.micros - timeZone.1 * 60000000)
    (show (0 : Int) < 86400000000 by omega)
  unfold utcMicros
  cases htyp : t.typ.typ <;> simp [SqlType.isTime, hmod]

theorem i64_bounds (t : Time) : -2 ^ 63 ≤ t.i64 ∧ t.i64 < 2 ^ 63 :=
  t.valid.i64_bounds

theorem utcMicros_bounds (t : Time) (timeZone : TimeZone) :
    -2 ^ 63 ≤ t.utcMicros timeZone ∧ t.utcMicros timeZone < 2 ^ 63 := by
  have hmicros := t.valid.micros_bounds
  have hzone := timeZone.2
  rw [utcMicros_eq]
  split <;> omega

end Time

end Vsql
