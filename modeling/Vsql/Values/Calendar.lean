import Mathlib.Tactic.IntervalCases
import Vsql.Values.Time

/-!
# Dates from days

The date that a number of days after 1970-01-01 is.  The years of the calculation start
in March, so that the day that only a leap year has is the last one.
-/

namespace Vsql

open DateTime

/-- The year of an era of 400 years that one of its days is in. -/
def yearOfEra (dayOfTheEra : Int) : Int :=
  (dayOfTheEra - dayOfTheEra / 1460 + dayOfTheEra / 36524 - dayOfTheEra / 146096) / 365

def dateFromDays (days : Int) : Int × Int × Int :=
  let z := days + 719468
  let era := z / 146097
  let dayOfTheEra := z - era * 146097
  let year := yearOfEra dayOfTheEra
  let dayOfYear := dayOfTheEra - (365 * year + year / 4 - year / 100)
  let mp := (5 * dayOfYear + 2) / 153
  let month := if mp < 10 then mp + 3 else mp - 9
  (year + era * 400 + (if month ≤ 2 then 1 else 0), month,
    dayOfYear - (153 * mp + 2) / 5 + 1)

/-- `time.unix_nanosecond`. -/
def unixNanosecond (unix nanosecond : Int) : DateTime :=
  let (year, month, day) := dateFromDays (unix / 86400)
  let seconds := unix % 86400
  ⟨year, month, day, seconds / 3600, seconds / 60 % 60, seconds % 60, nanosecond⟩

/-- Fields outside of their range overflow into the next one. -/
def newLenientTime (t : DateTime) : DateTime := unixNanosecond t.unix t.nanosecond

/-- The fields that were joined in an `i64`, which may overflow. -/
def componentsOfI64 (ts : Int) : DateTime :=
  let year := ts.tdiv yearPeriod
  let ts := ts - year * yearPeriod
  let month := ts.tdiv monthPeriod
  let ts := ts - month * monthPeriod
  let day := ts.tdiv dayPeriod
  let ts := ts - day * dayPeriod
  let hour := ts.tdiv hourPeriod
  let ts := ts - hour * hourPeriod
  let minute := ts.tdiv minutePeriod
  let ts := ts - minute * minutePeriod
  let second := ts.tdiv secondPeriod
  let ts := ts - second * secondPeriod
  ⟨year, month, day, hour, minute, second, ts * 1000⟩

/-! ## The date of the days of a date -/

theorem yearOfEra_eq {y dayOfYear : Int} (hy : 0 ≤ y ∧ y < 400)
    (hday : 0 ≤ dayOfYear ∧ dayOfYear ≤ 365)
    (hleap : dayOfYear = 365 → (y + 1) % 4 = 0 ∧ ((y + 1) % 100 ≠ 0 ∨ y = 399)) :
    yearOfEra (y * 365 + y / 4 - y / 100 + dayOfYear) = y := by
  obtain ⟨b, r, hr, rfl⟩ : ∃ b r : Int, (0 ≤ r ∧ r < 100) ∧ y = 100 * b + r :=
    ⟨y / 100, y % 100, by omega, by omega⟩
  obtain ⟨s, u, hu, rfl⟩ : ∃ s u : Int, (0 ≤ u ∧ u < 4) ∧ r = 4 * s + u :=
    ⟨r / 4, r % 4, by omega, by omega⟩
  have hb : 0 ≤ b ∧ b < 4 := by omega
  have hfour : (100 * b + (4 * s + u)) / 4 = 25 * b + s := by omega
  have hhundred : (100 * b + (4 * s + u)) / 100 = b := by omega
  have hdays : (100 * b + (4 * s + u)) * 365 + (25 * b + s) - b + dayOfYear =
      36524 * b + (1461 * s + 365 * u + dayOfYear) := by omega
  rw [hfour, hhundred, hdays]
  unfold yearOfEra
  have hleapDay : dayOfYear = 365 → u = 3 ∧ (s = 24 → b = 3) := by omega
  by_cases hlast : 1461 * s + 365 * u + dayOfYear = 36524
  · -- The last day of an era is the leap day of its last year.
    have hera : b = 3 ∧ s = 24 ∧ u = 3 ∧ dayOfYear = 365 := by omega
    obtain ⟨rfl, rfl, rfl, rfl⟩ := hera
    decide
  · have hcentury : (36524 * b + (1461 * s + 365 * u + dayOfYear)) / 36524 = b := by omega
    have hera : (36524 * b + (1461 * s + 365 * u + dayOfYear)) / 146096 = 0 := by omega
    rw [hcentury, hera]
    by_cases hlate : 1460 ≤ 24 * b + s + 365 * u + dayOfYear
    · have hcycle : (36524 * b + (1461 * s + 365 * u + dayOfYear)) / 1460 =
          25 * b + s + 1 := by omega
      rw [hcycle]
      omega
    · have hcycle : (36524 * b + (1461 * s + 365 * u + dayOfYear)) / 1460 = 25 * b + s := by
        omega
      rw [hcycle]
      omega

/-- The day of a year that starts in March. -/
private def dayOfMarchYear (mp day : Int) : Int := (153 * mp + 2) / 5 + day - 1

private def marchMonth (month : Int) : Int := month + if month > 2 then -3 else 9

theorem dayOfMarchYear_bounds {year month day : Int} (hmonth : 1 ≤ month ∧ month ≤ 12)
    (hday : 1 ≤ day ∧ day ≤ daysInMonth month year) :
    (0 ≤ dayOfMarchYear (marchMonth month) day ∧ dayOfMarchYear (marchMonth month) day ≤ 365) ∧
      (5 * dayOfMarchYear (marchMonth month) day + 2) / 153 = marchMonth month ∧
      (dayOfMarchYear (marchMonth month) day = 365 → month = 2 ∧ isLeapYear year) := by
  obtain ⟨hlow, hhigh⟩ := hmonth
  unfold dayOfMarchYear marchMonth
  unfold daysInMonth at hday
  interval_cases month <;> simp at hday ⊢
  case «2» =>
    split at hday
    · simp [*]
      omega
    · omega
  all_goals omega

theorem month_of_marchMonth {month : Int} (hmonth : 1 ≤ month ∧ month ≤ 12) :
    (if marchMonth month < 10 then marchMonth month + 3 else marchMonth month - 9) = month := by
  unfold marchMonth
  split <;> split <;> omega

theorem dateFromDays_daysFromUnixEpoch {year month day : Int}
    (hmonth : 1 ≤ month ∧ month ≤ 12) (hday : 1 ≤ day ∧ day ≤ daysInMonth month year) :
    dateFromDays (daysFromUnixEpoch year month day) = (year, month, day) := by
  obtain ⟨hrange, hmp, hleap⟩ := dayOfMarchYear_bounds hmonth hday
  have hmonthBack := month_of_marchMonth hmonth
  let y := if month ≤ 2 then year - 1 else year
  have hy : y = if month ≤ 2 then year - 1 else year := rfl
  let m := dayOfMarchYear (marchMonth month) day
  have hm : m = (153 * marchMonth month + 2) / 5 + day - 1 := rfl
  have hdays : daysFromUnixEpoch year month day + 719468 =
      y / 400 * 146097 + (y % 400 * 365 + y % 400 / 4 - y % 400 / 100 + m) := by
    have hmod : y - y / 400 * 400 = y % 400 := by omega
    simp only [daysFromUnixEpoch, ← hy, hmod]
    simp only [m, dayOfMarchYear, marchMonth]
    omega
  have hyear : 0 ≤ y % 400 ∧ y % 400 < 400 := by omega
  have hleapYear : m = 365 → (y % 400 + 1) % 4 = 0 ∧
      ((y % 400 + 1) % 100 ≠ 0 ∨ y % 400 = 399) := by
    intro h
    obtain ⟨hfebruary, hleap⟩ := hleap h
    simp only [isLeapYear, Bool.and_eq_true, Bool.or_eq_true, beq_iff_eq, bne_iff_ne] at hleap
    rw [if_pos (by omega)] at hy
    omega
  have hera : (y / 400 * 146097 + (y % 400 * 365 + y % 400 / 4 - y % 400 / 100 + m)) / 146097 =
      y / 400 := by
    have hm' := hleapYear
    change 0 ≤ m ∧ m ≤ 365 at hrange
    omega
  have hofEra := yearOfEra_eq hyear hrange hleapYear
  unfold dateFromDays
  simp only [hdays, hera]
  have hdayOfEra : y / 400 * 146097 + (y % 400 * 365 + y % 400 / 4 - y % 400 / 100 + m) -
      y / 400 * 146097 = y % 400 * 365 + y % 400 / 4 - y % 400 / 100 + m := by omega
  have hdayOfYear : y % 400 * 365 + y % 400 / 4 - y % 400 / 100 + m -
      (365 * (y % 400) + y % 400 / 4 - y % 400 / 100) = m := by omega
  simp only [hdayOfEra, m, hofEra] at hdayOfYear ⊢
  simp only [hdayOfYear, hmp, hmonthBack, Prod.mk.injEq, true_and]
  constructor
  · split at hy <;> simp only [*, if_true, if_false] <;> omega
  · simp only [dayOfMarchYear]
    omega

theorem unixNanosecond_unix {t : DateTime} (h : t.Valid) (nanosecond : Int) :
    unixNanosecond t.unix nanosecond = { t with nanosecond } := by
  obtain ⟨-, hmonth, hday, hhour, hminute, hsecond, -⟩ := h
  have hdays : t.unix / 86400 = daysFromUnixEpoch t.year t.month t.day := by
    unfold DateTime.unix
    omega
  have hseconds : t.unix % 86400 = t.hour * 3600 + t.minute * 60 + t.second := by
    unfold DateTime.unix
    omega
  simp only [unixNanosecond, hdays, hseconds, dateFromDays_daysFromUnixEpoch hmonth hday,
    DateTime.mk.injEq, true_and, and_true]
  omega

/-! ## The fields of an `i64` -/

theorem tdiv_period {q r p : Int} (hq : 0 ≤ q) (hr : 0 ≤ r ∧ r < p) : (q * p + r).tdiv p = q := by
  have hp : 0 < p := by omega
  have hqp : 0 ≤ q * p := Int.mul_nonneg hq hp.le
  rw [Int.tdiv_eq_ediv_of_nonneg (by omega), Int.add_comm, Int.add_mul_ediv_right _ _ hp.ne',
    Int.ediv_eq_zero_of_lt hr.1 hr.2, Int.zero_add]

/-- Every month has 31 days here, so the last day of a month and the last month of a
year overflow. -/
def overflowed (t : DateTime) : DateTime :=
  let month := if t.day = 31 then t.month + 1 else t.month
  ⟨if 12 ≤ month then t.year + 1 else t.year, if 12 ≤ month then month - 12 else month,
    if t.day = 31 then 0 else t.day, t.hour, t.minute, t.second, t.nanosecond / 1000 * 1000⟩

theorem componentsOfI64_i64 {t : DateTime} (h : t.Valid) :
    componentsOfI64 t.i64 = overflowed t := by
  have hdayLe := h.day_le
  obtain ⟨hyear, hmonth, hday, hhour, hminute, hsecond, hnano⟩ := h
  have hi64 : t.i64 = (overflowed t).year * yearPeriod + ((overflowed t).month * monthPeriod +
      ((overflowed t).day * dayPeriod + (t.hour * hourPeriod + (t.minute * minutePeriod +
        (t.second * secondPeriod + t.nanosecond / 1000))))) := by
    simp only [DateTime.i64, DateTime.dateI64, DateTime.timeI64, overflowed, yearPeriod,
      monthPeriod, dayPeriod, hourPeriod, minutePeriod, secondPeriod]
    split <;> split <;> omega
  have hfields : 0 ≤ (overflowed t).year ∧ (0 ≤ (overflowed t).month ∧ (overflowed t).month < 12) ∧
      0 ≤ (overflowed t).day ∧ (overflowed t).day < 31 := by
    simp only [overflowed]
    split <;> split <;> omega
  obtain ⟨hyear', hmonth', hday'⟩ := hfields
  generalize hmicros : t.nanosecond / 1000 = micros at hi64
  have hmicrosBound : 0 ≤ micros ∧ micros < 1000000 := by omega
  simp only [yearPeriod, monthPeriod, dayPeriod, hourPeriod, minutePeriod, secondPeriod] at hi64
  simp only [componentsOfI64, yearPeriod, monthPeriod, dayPeriod, hourPeriod, minutePeriod,
    secondPeriod]
  rw [hi64, tdiv_period hyear' (by omega), add_sub_cancel_left,
    tdiv_period hmonth'.1 (by omega), add_sub_cancel_left,
    tdiv_period hday'.1 (by omega), add_sub_cancel_left,
    tdiv_period hhour.1 (by omega), add_sub_cancel_left,
    tdiv_period hminute.1 (by omega), add_sub_cancel_left,
    tdiv_period hsecond.1 (by omega), add_sub_cancel_left]
  simp only [overflowed, hmicros]

theorem daysFromUnixEpoch_overflowed {t : DateTime} (h : t.Valid) :
    daysFromUnixEpoch (overflowed t).year (overflowed t).month (overflowed t).day =
      daysFromUnixEpoch t.year t.month t.day := by
  obtain ⟨-, ⟨hlow, hhigh⟩, hday, -⟩ := h
  obtain ⟨year, month, day, hour, minute, second, nanosecond⟩ := t
  simp only [daysInMonth, overflowed] at *
  by_cases hlast : day = 31
  · simp only [hlast, if_true, daysFromUnixEpoch] at hday ⊢
    interval_cases month <;> simp at hday ⊢
    all_goals omega
  · simp only [hlast, if_false, daysFromUnixEpoch]
    interval_cases month <;> simp

theorem newLenientTime_componentsOfI64 {t : DateTime} (h : t.Valid) :
    newLenientTime (componentsOfI64 t.i64) =
      { t with nanosecond := t.nanosecond / 1000 * 1000 } := by
  have hunix : (overflowed t).unix = t.unix := by
    unfold DateTime.unix
    rw [daysFromUnixEpoch_overflowed h]
    rfl
  rw [componentsOfI64_i64 h, newLenientTime, hunix, unixNanosecond_unix h]
  rfl

end Vsql
