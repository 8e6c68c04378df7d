import Vsql.Values.TimeText

/-!
# Reading what was printed

A datetime that was read from a text is in a row what it was before, and it is read again
from its literal.  Only what a leap second goes over into cannot always be written.
-/

namespace Vsql

open Foundation Foundation.Reader Rows

def DateTime.onDate (t : DateTime) (year month day : Int) : DateTime :=
  ⟨year, month, day, t.hour, t.minute, t.second, t.nanosecond⟩

namespace Time

/-- What every datetime has that was read from a text. -/
structure Printable (t : Time) : Prop where
  typ : t.typ = { typ := t.typ.typ, size := t.typ.size }
  size : t.typ.size ≤ 6
  nanosecond : t.t.nanosecond.toNat % 10 ^ (9 - t.typ.size) = 0
  timeZone : -840 ≤ t.timeZone.1 ∧ t.timeZone.1 ≤ 840
  noTimeZone : t.typ.typ.hasTimeZone = false → t.timeZone.1 = 0

def fraction (t : Time) : Text :=
  if t.typ.size = 0 then [] else (padded 6 (t.t.nanosecond / 1000).toNat).take t.typ.size

def zone (t : Time) : Option (Bool × Nat × Nat) :=
  if t.typ.typ.hasTimeZone then
    some (decide (t.timeZone.1 < 0), t.timeZone.1.natAbs / 60, t.timeZone.1.natAbs % 60)
  else none

/-- The fields that are printed, with the date as it is in the text. -/
def timestampText (t : Time) (year month day : Nat) : TimestampText where
  year := year
  month := month
  day := day
  separator := ' '
  hour := t.t.hour.toNat
  minute := t.t.minute.toNat
  second := t.t.second.toNat
  fraction := t.fraction
  zone := t.zone

variable {t : Time}

theorem strTimeZone_eq : t.strTimeZone true true = TimestampText.zoneText t.zone := by
  unfold strTimeZone zone
  cases htyp : t.typ.typ.hasTimeZone with
  | false => rfl
  | true =>
      have hsign : (if t.timeZone.1 ≥ 0 then '+' else '-') =
          if decide (t.timeZone.1 < 0) then '-' else '+' := by
        split <;> simp <;> omega
      simp only [Bool.and_self, if_true, TimestampText.zoneText, hsign]
      simp

theorem micros_lt (t : Time) : (t.t.nanosecond / 1000).toNat < 10 ^ 6 := by
  have hnano := t.valid.nanosecond
  omega

theorem length_fraction (h : t.typ.size ≤ 6) : t.fraction.length = t.typ.size := by
  have hlength := length_padded (show 0 < 6 by decide) t.micros_lt
  unfold fraction
  split_ifs with hzero
  · exact hzero.symm
  · rw [List.length_take, hlength, Nat.min_eq_left h]

theorem strFractionalSeconds_eq (h : t.typ.size ≤ 6) :
    t.strFractionalSeconds t.typ.size = TimestampText.fractionText t.fraction := by
  have hlength := length_fraction h
  unfold strFractionalSeconds
  split_ifs with hzero
  · rw [fraction, if_pos hzero]
    rfl
  · rw [fractionText_of_ne (List.ne_nil_of_length_pos (by omega)), fraction, if_neg hzero]

theorem strFullTime_eq (h : t.Printable) (year month day : Nat) :
    t.strFullTime t.typ.size true true =
      (t.timestampText year month day).timeText ++ TimestampText.zoneText t.zone := by
  rw [strFullTime, strTimeZone_eq, strFractionalSeconds_eq h.size]
  rfl

theorem fits_timestampText (h : t.Printable) {year month day : Nat} (hyear : year ≤ 9999)
    (hmonth : month ≤ 12) (hday : day ≤ 31) : (t.timestampText year month day).Fits := by
  obtain ⟨-, -, -, hhour, hminute, hsecond, -⟩ := t.valid
  have hzone := h.timeZone
  refine ⟨by simp only [timestampText]; omega, by simp only [timestampText]; omega,
    by simp only [timestampText]; omega, rfl, by simp only [timestampText]; omega,
    by simp only [timestampText]; omega, by simp only [timestampText]; omega, ⟨?_, ?_⟩, ?_⟩
  · change Digits t.fraction
    unfold fraction
    split_ifs
    · simp [Digits]
    · exact fun c hc => digits_padded _ _ c (List.mem_of_mem_take hc)
  · exact (length_fraction h.size).trans_le h.size
  · intro z hz
    simp only [timestampText, zone] at hz
    split_ifs at hz
    · cases hz
      simp only
      omega
    · cases hz

theorem nanosecond_timestampText (h : t.Printable) (year month day : Nat) :
    ((t.timestampText year month day).nanosecond : Int) = t.t.nanosecond := by
  have hnano := t.valid.nanosecond
  have hlength := length_fraction h.size
  obtain ⟨v, hv⟩ := Nat.dvd_of_mod_eq_zero h.nanosecond
  have hpow : 10 ^ (9 - t.typ.size) = 1000 * 10 ^ (6 - t.typ.size) := by
    have hsize := h.size
    rw [show 9 - t.typ.size = 3 + (6 - t.typ.size) by omega, Nat.pow_add]
  have hpos : 0 < 10 ^ (6 - t.typ.size) := by positivity
  have hmicros : (t.t.nanosecond / 1000).toNat = 10 ^ (6 - t.typ.size) * v := by
    rw [hpow, Nat.mul_assoc] at hv
    omega
  have hvalue : Nat.ofDigitChars 10 t.fraction 0 = v := by
    unfold fraction
    split_ifs with hzero
    · rw [hzero] at hv
      rw [Nat.ofDigitChars_nil]
      omega
    · rw [take_padded (by decide) t.micros_lt, hmicros, Nat.mul_div_cancel_left _ hpos]
  simp only [TimestampText.nanosecond, timestampText, Nat.ofDigitChars_append,
    Nat.ofDigitChars_replicate_zero, hvalue, hlength]
  omega

theorem minutes_zone (h : t.Printable) : TimestampText.minutes t.zone = t.timeZone.1 := by
  have hnone := h.noTimeZone
  unfold zone
  cases htyp : t.typ.typ.hasTimeZone with
  | false => exact (hnone htyp).symm
  | true =>
      simp only [if_true, TimestampText.minutes]
      split_ifs with hneg
      · have hneg := of_decide_eq_true hneg
        omega
      · have hneg := of_decide_eq_false (Bool.eq_false_of_not_eq_true hneg)
        omega

def timestampType (t : Time) : DataType where
  typ := if t.typ.typ.hasTimeZone then .timestampWithTimeZone else .timestampWithoutTimeZone
  size := t.typ.size

theorem typ_timestampText (h : t.typ.size ≤ 6) (year month day : Nat) :
    (t.timestampText year month day).typ = t.timestampType := by
  unfold TimestampText.typ timestampText timestampType zone
  rw [length_fraction h]
  cases htyp : t.typ.typ.hasTimeZone <;> simp

theorem newTimestampFromString_timestampText (h : t.Printable) {year month day : Nat}
    (hyear : 1 ≤ year ∧ year ≤ 9999) (hmonth : 1 ≤ month ∧ month ≤ 12)
    (hday : 1 ≤ day ∧ (day : Int) ≤ daysInMonth month year) {u : Time} :
    newTimestampFromString (t.timestampText year month day).text = .ok u ↔
      u.typ = t.timestampType ∧ u.timeZone = t.timeZone ∧ u.t = t.t.onDate year month day := by
  have hvalid := t.valid
  have hle : daysInMonth month year ≤ 31 := by
    unfold daysInMonth
    split_ifs <;> omega
  have hfits := fits_timestampText h hyear.2 hmonth.2 (by omega : day ≤ 31)
  have hrange : (t.timestampText year month day).InRange := by
    have hzone := h.timeZone
    refine ⟨⟨hyear, hmonth, hday, ?_, ?_, ?_⟩, ?_⟩
    · have := hvalid.hour
      simp only [timestampText]
      omega
    · have := hvalid.minute
      simp only [timestampText]
      omega
    · have := hvalid.second
      simp only [timestampText]
      omega
    · intro z hz
      simp only [timestampText, Time.zone] at hz
      split_ifs at hz
      · cases hz
        simp only
        omega
      · cases hz
  have hcomponents : (t.timestampText year month day).components =
      t.t.onDate year month day := by
    obtain ⟨-, -, -, hhour, hminute, hsecond, -⟩ := hvalid
    have hnano := nanosecond_timestampText h year month day
    rw [TimestampText.components, hnano]
    simp only [timestampText, DateTime.onDate, Int.toNat_of_nonneg hhour.1,
      Int.toNat_of_nonneg hminute.1, Int.toNat_of_nonneg hsecond.1]
  have hnew : (t.timestampText year month day).components.carried =
      t.t.onDate year month day := by
    rw [hcomponents]
    have hsecond := hvalid.second
    exact DateTime.carried_of_le (by simp only [DateTime.onDate]; omega)
  have htyp := typ_timestampText h.size year month day
  rw [TimestampText.newTimestampFromString_text_eq_ok hfits]
  constructor
  · rintro ⟨-, hu⟩
    exact ⟨hu.typ.trans htyp, Subtype.ext (hu.timeZone.trans (minutes_zone h)),
      hu.t.trans hnew⟩
  · rintro ⟨hu, htimeZone, ht⟩
    exact ⟨hrange, hu.trans htyp.symm, by rw [htimeZone]; exact (minutes_zone h).symm,
      ht.trans hnew.symm⟩

theorem printable_of_denotes {w : TimestampText} (hw : w.Fits) (hrange : w.InRange)
    (h : w.Denotes t) : t.Printable := by
  obtain ⟨htyp, hzone, ht⟩ := h
  have hsize : t.typ.size = w.fraction.length := by rw [htyp]; rfl
  refine ⟨by rw [htyp]; rfl, hsize.trans_le hw.fraction.2, ?_, ?_, ?_⟩
  · have hnano : t.t.nanosecond = w.nanosecond := by rw [ht, DateTime.nanosecond_carried]; rfl
    rw [hnano, hsize, Int.toNat_natCast, TimestampText.nanosecond, Nat.ofDigitChars_append,
      Nat.ofDigitChars_replicate_zero]
    exact Nat.mul_mod_right _ _
  · rw [hzone]
    have hz := hrange.zone
    unfold TimestampText.minutes
    split
    · omega
    · next isNegative hours mins heq =>
        have := hz _ heq
        split_ifs <;> simp only at this ⊢ <;> omega
  · rw [hzone, htyp]
    intro hno
    cases hzone : w.zone with
    | none => rfl
    | some z =>
        rw [TimestampText.typ, hzone] at hno
        cases hno

theorem strFullTimestamp_eq (h : t.Printable) :
    t.strFullTimestamp t.typ.size true true =
      (t.timestampText t.t.year.toNat t.t.month.toNat t.t.day.toNat).text := by
  rw [strFullTimestamp, strFullTime_eq h t.t.year.toNat t.t.month.toNat t.t.day.toNat]
  simp [TimestampText.text, TimestampText.localText, timestampText, strDate,
    TimestampText.dateText, TimestampText.timeText, TimestampText.secondsText]

/-- The character after a year of four digits. -/
theorem getElem?_text {w : TimestampText} (hw : w.Fits) : w.text[4]? = some '-' := by
  have hlength := length_padded four_pos hw.year
  have htext : w.text = padded 4 w.year ++ '-' :: (padded 2 w.month ++ '-' :: padded 2 w.day ++
      w.separator :: w.timeText ++ TimestampText.zoneText w.zone) := by
    simp [TimestampText.text, TimestampText.localText, TimestampText.dateText]
  rw [htext, List.getElem?_append_right hlength.le, hlength]
  rfl

/-- A timestamp that was read is read again from what is printed, unless its seconds went
over into the year 10000. -/
theorem newTimestampFromString_strFullTimestamp {s : Text}
    (h : newTimestampFromString s = .ok t) :
    newTimestampFromString (t.strFullTimestamp t.typ.size true true) = .ok t ↔
      t.t.year ≤ 9999 := by
  obtain ⟨w, hw, hrange, rfl, hdenotes⟩ := newTimestampFromString_eq_ok.mp h
  have hprintable := printable_of_denotes hw hrange hdenotes
  obtain ⟨hyear, hmonth, hday, -⟩ := t.valid
  constructor
  · intro hread
    obtain ⟨w', hw', -, htext, -⟩ := newTimestampFromString_eq_ok.mp hread
    by_contra hlate
    have hten : t.t.year.toNat = 10000 := by omega
    have hminus := getElem?_text hw'
    have hyears : padded 4 10000 = ['1', '0', '0', '0', '0'] := by decide
    rw [← htext, strFullTimestamp, strDate, hten, hyears] at hminus
    simp at hminus
  · intro hlast
    rw [strFullTimestamp_eq hprintable,
      newTimestampFromString_timestampText hprintable (by omega) (by omega)]
    · refine ⟨?_, rfl, ?_⟩
      · rw [hdenotes.typ, timestampType, hdenotes.typ, TimestampText.typ]
        cases w.zone <;> rfl
      · simp [DateTime.onDate, Int.toNat_of_nonneg (show 0 ≤ t.t.year by omega),
          Int.toNat_of_nonneg (show 0 ≤ t.t.month by omega),
          Int.toNat_of_nonneg (show 0 ≤ t.t.day by omega)]
    · rw [Int.toNat_of_nonneg (by omega), Int.toNat_of_nonneg (by omega),
        Int.toNat_of_nonneg (by omega)]
      omega

/-! ## Times and dates -/

/-- The type of a time that was read with the date of a timestamp. -/
def timeType (typ : DataType) : DataType :=
  { typ with
    typ := if typ.typ = .timestampWithTimeZone then .timeWithTimeZone else .timeWithoutTimeZone }

theorem newTimeFromString_eq_ok {s : Text} : newTimeFromString s = .ok t ↔
    ∃ u, newTimestampFromString ("1970-01-01 ".toList ++ s) = .ok u ∧
      t = { u with typ := timeType u.typ } := by
  unfold newTimeFromString
  cases newTimestampFromString ("1970-01-01 ".toList ++ s) with
  | error failure => cases failure <;> simp
  | ok u => simp [timeType, eq_comm]

theorem newDateFromString_eq_ok {s : Text} : newDateFromString s = .ok t ↔
    ∃ u, newTimestampFromString (s ++ " 00:00:00".toList) = .ok u ∧
      t = { u with typ := { u.typ with typ := .date } } := by
  unfold newDateFromString
  cases newTimestampFromString (s ++ " 00:00:00".toList) with
  | error failure => cases failure <;> simp
  | ok u => simp [eq_comm]

theorem dummyDate_text (h : t.Printable) :
    "1970-01-01 ".toList ++ t.strFullTime t.typ.size true true =
      (t.timestampText 1970 1 1).text := by
  have hdate : (t.timestampText 1970 1 1).dateText ++ [' '] = "1970-01-01 ".toList := by
    simp only [TimestampText.dateText, timestampText]
    decide
  rw [strFullTime_eq h 1970 1 1, ← hdate, TimestampText.text, TimestampText.localText]
  simp [timestampText]

theorem hasTimeZone_timeType {w : TimestampText} (h : w.Denotes t) :
    (timeType t.typ).typ.hasTimeZone = t.typ.typ.hasTimeZone := by
  rw [h.typ, TimestampText.typ]
  cases w.zone <;> rfl

theorem Printable.withTimeType {w : TimestampText} (hdenotes : w.Denotes t) (h : t.Printable) :
    Printable { t with typ := timeType t.typ } := by
  obtain ⟨htyp, hsize, hnano, htimeZone, hnone⟩ := h
  refine ⟨?_, hsize, hnano, htimeZone, fun hno => hnone (hasTimeZone_timeType hdenotes ▸ hno)⟩
  rw [timeType, htyp]

/-- A time that was read is read again from what is printed, unless its seconds went over into
the next day. -/
theorem newTimeFromString_strFullTime {s : Text} (h : newTimeFromString s = .ok t) :
    newTimeFromString (t.strFullTime t.typ.size true true) = .ok t ↔
      t.t.year = 1970 ∧ t.t.month = 1 ∧ t.t.day = 1 := by
  obtain ⟨u, hu, rfl⟩ := newTimeFromString_eq_ok.mp h
  obtain ⟨w, hw, hrange, -, hdenotes⟩ := newTimestampFromString_eq_ok.mp hu
  have hprintable := (printable_of_denotes hw hrange hdenotes).withTimeType hdenotes
  have hback : timeType (timestampType { u with typ := timeType u.typ }) = timeType u.typ := by
    simp only [timestampType, timeType, hdenotes.typ, TimestampText.typ]
    cases w.zone <;> rfl
  rw [newTimeFromString_eq_ok, dummyDate_text hprintable]
  simp only [newTimestampFromString_timestampText hprintable (show 1 ≤ 1970 ∧ 1970 ≤ 9999 by decide)
    (show 1 ≤ 1 ∧ 1 ≤ 12 by decide) (show 1 ≤ 1 ∧ (1 : Int) ≤ daysInMonth 1 1970 by decide)]
  constructor
  · rintro ⟨u', ⟨-, -, ht⟩, heq⟩
    have hsame : u.t = u'.t := (Time.mk.inj heq).2.2
    rw [hsame, ht]
    exact ⟨rfl, rfl, rfl⟩
  · rintro ⟨hyear, hmonth, hday⟩
    refine ⟨⟨timestampType { u with typ := timeType u.typ }, u.timeZone, u.t, u.valid⟩,
      ⟨rfl, rfl, ?_⟩, ?_⟩
    · change u.t = u.t.onDate (1970 : Nat) (1 : Nat) (1 : Nat)
      calc u.t = u.t.onDate u.t.year u.t.month u.t.day := rfl
        _ = u.t.onDate (1970 : Nat) (1 : Nat) (1 : Nat) := by rw [hyear, hmonth, hday]; rfl
    · rw [hback]

theorem seconds_zero {w : TimestampText} (hw : w.Fits) (h : w.timeText = "00:00:00".toList) :
    w.hour = 0 ∧ w.minute = 0 ∧ w.second = 0 := by
  have hsplit := TimestampText.splitOn_timeText hw
  have hlength : ∀ {x}, x < 100 → (padded 2 x).length = 2 := length_padded two_pos
  have hzeros : "00:00:00".toList.splitOn ':' = [padded 2 0, padded 2 0, padded 2 0] := by decide
  have hvalue : ∀ {x}, padded 2 0 = padded 2 x → x = 0 := by
    intro x heq
    have hvalues := congrArg (fun s => Nat.ofDigitChars 10 s 0) heq
    simpa only [ofDigitChars_padded, eq_comm] using hvalues
  rw [h, hzeros] at hsplit
  simp only [List.cons.injEq, and_true] at hsplit
  obtain ⟨hhour, hminute, hsecond⟩ := hsplit
  have hprefix := congrArg (List.take 2) hsecond
  rw [List.take_left' (hlength hw.second)] at hprefix
  exact ⟨hvalue hhour, hvalue hminute, hvalue hprefix⟩

theorem not_expectsTimeZone (s : Text) : expectsTimeZone (s ++ " 00:00:00".toList) = false := by
  have hchar := TimestampText.getD_length_sub s (show 6 ≤ " 00:00:00".toList.length by decide) ' '
  have hcolon : " 00:00:00".toList.getD (" 00:00:00".toList.length - 6) ' ' = ':' := by decide
  rw [expectsTimeZone, hchar, hcolon]
  simp

theorem length_timeText {w : TimestampText} (hw : w.Fits) {s : Text}
    (h : s ++ " 00:00:00".toList = (w.dateText ++ [w.separator]) ++ w.timeText) :
    w.timeText.length = 8 := by
  have hlong := TimestampText.le_length_timeText hw
  by_contra hne
  have hspace := TimestampText.getD_length_sub s (show 9 ≤ " 00:00:00".toList.length by decide) ':'
  have hlt : w.timeText.length - 9 < w.timeText.length := by omega
  rw [h, TimestampText.getD_length_sub _ (show 9 ≤ w.timeText.length by omega),
    List.getD_eq_getElem _ _ hlt] at hspace
  have hmem := TimestampText.of_mem_timeText hw (List.getElem_mem hlt)
  rw [hspace] at hmem
  exact absurd hmem (by decide)

/-- Before the time is the date. -/
theorem parts_of_text {w : TimestampText} (hw : w.Fits) {s : Text}
    (h : s ++ " 00:00:00".toList = w.text) :
    w.zone = none ∧ w.fraction = [] ∧ w.timeText = "00:00:00".toList := by
  have hzone : w.zone = none := by
    have hno := TimestampText.expectsTimeZone_text hw
    rwa [← h, not_expectsTimeZone, eq_comm, Option.isSome_eq_false_iff, Option.isNone_iff_eq_none]
      at hno
  have hparts : s ++ " 00:00:00".toList = (w.dateText ++ [w.separator]) ++ w.timeText := by
    rw [h, TimestampText.text_eq_of_none hzone, TimestampText.localText, List.append_assoc]
    rfl
  have hlength := length_timeText hw hparts
  have htime : w.timeText = "00:00:00".toList := by
    have hsplit : s ++ " 00:00:00".toList = (s ++ [' ']) ++ "00:00:00".toList := by simp
    exact (List.append_inj_right' (hsplit.symm.trans hparts) hlength.symm).symm
  refine ⟨hzone, ?_, htime⟩
  have hseconds : w.secondsText.length = 8 := by
    have hpadded : ∀ {x}, x < 100 → (padded 2 x).length = 2 := length_padded two_pos
    simp only [TimestampText.secondsText, List.length_append, List.length_cons, hpadded hw.hour,
      hpadded hw.minute, hpadded hw.second]
  by_contra hne
  rw [TimestampText.timeText, List.length_append, fractionText_of_ne hne, List.length_cons,
    hseconds] at hlength
  omega

/-- A date that was read is read again from what is printed. -/
theorem newDateFromString_strDate {s : Text} (h : newDateFromString s = .ok t) :
    newDateFromString t.strDate = .ok t := by
  obtain ⟨u, hu, rfl⟩ := newDateFromString_eq_ok.mp h
  obtain ⟨w, hw, hrange, htext, htyp, -, ht⟩ := newTimestampFromString_eq_ok.mp hu
  obtain ⟨hzone, hfraction, htime⟩ := parts_of_text hw htext
  obtain ⟨hhour, hminute, hsecond⟩ := seconds_zero hw htime
  have hsame : u.t = w.components := by
    rw [ht]
    exact DateTime.carried_of_le (by simp only [TimestampText.components, hsecond]; decide)
  have hfull : u.strDate ++ " 00:00:00".toList = u.strFullTimestamp u.typ.size true true := by
    have hsize : u.typ.size = 0 := by rw [htyp, TimestampText.typ, hfraction]; rfl
    have hnoZone : u.typ.typ.hasTimeZone = false := by rw [htyp, TimestampText.typ, hzone]; rfl
    have hzeros : u.strTime = "00:00:00".toList := by
      simp only [strTime, hsame, TimestampText.components, hhour, hminute, hsecond]
      decide
    rw [strFullTimestamp, strFullTime, hsize, hzeros, strTimeZone, hnoZone]
    simp [strFractionalSeconds]
  refine newDateFromString_eq_ok.mpr ⟨u, ?_, rfl⟩
  change newTimestampFromString (u.strDate ++ _) = _
  rw [hfull, newTimestampFromString_strFullTimestamp hu, hsame]
  have hyear := hrange.year
  simp only [TimestampText.components]
  omega

/-! ## Every datetime that is read -/

theorem storedTime_eq (h : t.Printable) : storedTime t.typ t = t := by
  have hzone : (if t.typ.typ.hasTimeZone then t.timeZone else ⟨0, zero_timeZone⟩) = t.timeZone := by
    split_ifs with hno
    · rfl
    · exact Subtype.ext (h.noTimeZone (Bool.eq_false_of_not_eq_true hno)).symm
  have hnano : t.t.nanosecond / 1000 * 1000 = t.t.nanosecond := by
    have hbounds := t.valid.nanosecond
    have hsize := h.size
    have hdvd : (10 : Nat) ^ 3 ∣ 10 ^ (9 - t.typ.size) := Nat.pow_dvd_pow 10 (by omega)
    have hmod := hdvd.trans (Nat.dvd_of_mod_eq_zero h.nanosecond)
    omega
  unfold storedTime
  simp only [hzone, hnano]

theorem reads_timeBytes (h : t.Printable) : Reads (newTimeFromBytes t.typ) (timeBytes t) t := by
  have hread := reads_newTimeFromBytes (show t.typ.typ = t.typ.typ from rfl)
  rwa [storedTime_eq h] at hread

theorem printable_of_newTimestampFromString {s : Text} (h : newTimestampFromString s = .ok t) :
    t.Printable := by
  obtain ⟨w, hw, hrange, -, hdenotes⟩ := newTimestampFromString_eq_ok.mp h
  exact printable_of_denotes hw hrange hdenotes

theorem printable_of_newTimeFromString {s : Text} (h : newTimeFromString s = .ok t) :
    t.Printable := by
  obtain ⟨u, hu, rfl⟩ := newTimeFromString_eq_ok.mp h
  obtain ⟨w, hw, hrange, -, hdenotes⟩ := newTimestampFromString_eq_ok.mp hu
  exact (printable_of_denotes hw hrange hdenotes).withTimeType hdenotes

theorem printable_of_newDateFromString {s : Text} (h : newDateFromString s = .ok t) :
    t.Printable := by
  obtain ⟨u, hu, rfl⟩ := newDateFromString_eq_ok.mp h
  obtain ⟨w, hw, hrange, htext, hdenotes⟩ := newTimestampFromString_eq_ok.mp hu
  obtain ⟨htyp, hsize, hnano, htimeZone, -⟩ := printable_of_denotes hw hrange hdenotes
  have hzone : w.zone = none := (parts_of_text hw htext).1
  refine ⟨?_, hsize, hnano, htimeZone, fun _ => ?_⟩
  · rw [htyp]
  · rw [hdenotes.timeZone, hzone]
    rfl

/-! ## Literals -/

theorem unquote_timestamp {s : Text} (h : newTimestampFromString s = .ok t) :
    unquoteDatetimeLiteral t.strLiteral "TIMESTAMP".toList =
      t.strFullTimestamp t.typ.size true true := by
  obtain ⟨w, -, -, -, hdenotes⟩ := newTimestampFromString_eq_ok.mp h
  have hliteral : t.strLiteral = "TIMESTAMP".toList ++ " '".toList ++
      t.strFullTimestamp t.typ.size true true ++ ['\''] := by
    have htyp : t.typ.typ = w.typ.typ := by rw [hdenotes.typ]
    unfold strLiteral
    rw [htyp, TimestampText.typ]
    cases w.zone <;> rfl
  rw [hliteral, unquoteDatetimeLiteral_literal (by decide)]

theorem unquote_time {s : Text} (h : newTimeFromString s = .ok t) :
    unquoteDatetimeLiteral t.strLiteral "TIME".toList =
      t.strFullTime t.typ.size true true := by
  obtain ⟨u, -, rfl⟩ := newTimeFromString_eq_ok.mp h
  have hliteral : ({ u with typ := timeType u.typ } : Time).strLiteral =
      "TIME".toList ++ " '".toList ++
        ({ u with typ := timeType u.typ } : Time).strFullTime u.typ.size true true ++ ['\''] := by
    unfold strLiteral timeType
    split_ifs <;> rfl
  rw [hliteral, unquoteDatetimeLiteral_literal (by decide)]
  rfl

theorem unquote_date {s : Text} (h : newDateFromString s = .ok t) :
    unquoteDatetimeLiteral t.strLiteral "DATE".toList = t.strDate := by
  obtain ⟨u, -, rfl⟩ := newDateFromString_eq_ok.mp h
  exact @unquoteDatetimeLiteral_literal "DATE".toList (by decide) _

end Time

/-- A datetime that was read from a text is the same after it was stored in a row, and it is
read again from its literal unless a leap second went over into what has no literal. -/
theorem datetimes_read_back (s : Text) (t : Time) :
    (newTimestampFromString s = .ok t →
      Reads (newTimeFromBytes t.typ) (timeBytes t) t ∧
        (newTimestampFromString (unquoteDatetimeLiteral t.strLiteral "TIMESTAMP".toList) = .ok t ↔
          t.t.year ≤ 9999)) ∧
    (newTimeFromString s = .ok t →
      Reads (newTimeFromBytes t.typ) (timeBytes t) t ∧
        (newTimeFromString (unquoteDatetimeLiteral t.strLiteral "TIME".toList) = .ok t ↔
          t.t.year = 1970 ∧ t.t.month = 1 ∧ t.t.day = 1)) ∧
    (newDateFromString s = .ok t →
      Reads (newTimeFromBytes t.typ) (timeBytes t) t ∧
        newDateFromString (unquoteDatetimeLiteral t.strLiteral "DATE".toList) = .ok t) := by
  refine ⟨fun h => ⟨?_, ?_⟩, fun h => ⟨?_, ?_⟩, fun h => ⟨?_, ?_⟩⟩
  · exact Time.reads_timeBytes (Time.printable_of_newTimestampFromString h)
  · rw [Time.unquote_timestamp h]
    exact Time.newTimestampFromString_strFullTimestamp h
  · exact Time.reads_timeBytes (Time.printable_of_newTimeFromString h)
  · rw [Time.unquote_time h]
    exact Time.newTimeFromString_strFullTime h
  · exact Time.reads_timeBytes (Time.printable_of_newDateFromString h)
  · rw [Time.unquote_date h]
    exact Time.newDateFromString_strDate h

theorem datetimes_read_back_leapSecond :
    ∃ t, newTimeFromString "23:59:60.5-00:30".toList = .ok t ∧
      newTimeFromString (unquoteDatetimeLiteral t.strLiteral "TIME".toList) ≠ .ok t := by
  have hread : (newTimeFromString "23:59:60.5-00:30".toList).toOption.map (fun t => t.t.day) =
      some 2 := by decide +kernel
  cases ht : newTimeFromString "23:59:60.5-00:30".toList with
  | error failure =>
      rw [ht] at hread
      cases hread
  | ok t =>
      rw [ht] at hread
      refine ⟨t, rfl, fun hback => ?_⟩
      have hday := (((datetimes_read_back "23:59:60.5-00:30".toList t).2.1 ht).2.mp hback).2.2
      have htwo : t.t.day = 2 := Option.some.inj hread
      omega

end Vsql
