import Vsql.Lexer
import Vsql.Values.PaddedNumber

/-!
# Datetimes as text

A datetime literal is read field by field, after its form was checked.  The seconds go up to
61, and what is beyond the last second of a minute goes over into the next one.
-/

namespace Vsql

open Foundation Rows

/-! ## Reading -/

/-- The parts of the patterns. -/
inductive Atom where
  | digits (n : Nat)
  | space
  | sign
  | char (c : Char)

def isSpace (c : Char) : Bool := c == ' ' || c == '\t' || c == '\n'

def isSign (c : Char) : Bool := c == '-' || c == '+'

/-- What is left of a text that starts with the atom.  The pattern has more kinds of white
space than `fields`, which these are the ones of. -/
def Atom.strip : Atom → Text → Option Text
  | .digits n, s =>
      if (s.take n).length = n ∧ (s.take n).all Char.isDigit then some (s.drop n) else none
  | .space, c :: s => if isSpace c then some s else none
  | .sign, c :: s => if isSign c then some s else none
  | .char d, c :: s => if c = d then some s else none
  | _, [] => none

/-- `\d{4}\-\d{2}\-\d{2}` -/
def unquotedDateString : List Atom := [.digits 4, .char '-', .digits 2, .char '-', .digits 2]

/-- `\d{2}:\d{2}:\d{2}` -/
def unquotedSecondsString : List Atom := [.digits 2, .char ':', .digits 2, .char ':', .digits 2]

/-- `[-+]\d{2}:\d{2}` -/
def unquotedTimeZoneString : List Atom := [.sign, .digits 2, .char ':', .digits 2]

def stripAtoms (atoms : List Atom) (s : Text) : Option Text :=
  atoms.foldlM (fun s atom => atom.strip s) s

/-- `(\.\d{1,6})?` -/
def stripFraction : Text → Text
  | '.' :: s =>
      let digits := min 6 (s.takeWhile Char.isDigit).length
      if digits = 0 then '.' :: s else s.drop digits
  | s => s

def matchesTimestamp (withTimeZone : Bool) (s : Text) : Bool :=
  match stripAtoms (unquotedDateString ++ .space :: unquotedSecondsString) s with
  | none => false
  | some rest =>
      stripAtoms (if withTimeZone then unquotedTimeZoneString else [])
        (stripFraction rest) = some []

/-- `s.fields()` -/
def fieldsOf (s : Text) : List Text := (s.splitOnP isSpace).filter (· ≠ [])

/-- The components of a datetime before they overflow. -/
def parseTimestampComponents (s : Text) : Option DateTime :=
  match fieldsOf s with
  | [date, time] =>
      match date.splitOn '-', time.splitOn ':' with
      | [year, month, day], [hour, minute, seconds] =>
          let year := textInt year
          let month := textInt month
          let day := textInt day
          if year < 1 ∨ year > 9999 ∨ month < 1 ∨ month > 12 ∨ day < 1 ∨
              day > daysInMonth month year then none
          else
            let hour := textInt hour
            let minute := textInt minute
            let secondsAndFraction := seconds.splitOn '.'
            let second := textInt (secondsAndFraction.headD [])
            if hour > 23 ∨ minute > 59 ∨ second > 61 then none
            else
              let nanosecond :=
                match secondsAndFraction with
                | _ :: fraction :: _ =>
                    textInt (fraction ++ List.replicate (9 - fraction.length) '0')
                | _ => 0
              some (newLenientTime ⟨year, month, day, hour, minute, second, nanosecond⟩)
      | _, _ => none
  | _ => none

theorem timeZone_bounds {z : Int} (h : -840 ≤ z ∧ z ≤ 840) : -2 ^ 15 ≤ z ∧ z < 2 ^ 15 := by
  omega

def checkTimeZone (z : Int) : Option TimeZone :=
  if h : -840 ≤ z ∧ z ≤ 840 then some ⟨z, timeZone_bounds h⟩ else none

/-- The time zone at the end of a timestamp. -/
def parseTimeZone (s : Text) : Option TimeZone :=
  let hours := textInt ((s.drop (s.length - 5)).take 2)
  let minutes := textInt (s.drop (s.length - 2))
  let timeZone := hours * 60 + minutes
  let timeZone := if s.getD (s.length - 6) ' ' = '-' then -timeZone else timeZone
  if minutes > 59 then none else checkTimeZone timeZone

def expectsTimeZone (s : Text) : Bool :=
  6 < s.length && (s.getD (s.length - 6) ' ' == '+' || s.getD (s.length - 6) ' ' == '-')

/-- The number of digits after the point. -/
def precisionOf (s : Text) : Nat := s.length - s.idxOf '.' - 1

def newTimestampFromString (s : Text) : Except Failure Time :=
  let invalid := sqlstate42601 s!"TIMESTAMP '{s.str}' is not valid"
  if matchesTimestamp (expectsTimeZone s) s = false then .error invalid
  else
    match if expectsTimeZone s then parseTimeZone s else some ⟨0, zero_timeZone⟩ with
    | none => .error invalid
    | some timeZone =>
        let toParse := if expectsTimeZone s then s.take (s.length - 6) else s
        let typ : DataType :=
          { typ := if expectsTimeZone s then .timestampWithTimeZone else .timestampWithoutTimeZone
            size := if '.' ∈ toParse then precisionOf toParse else 0 }
        match parseTimestampComponents toParse with
        | none => .error invalid
        | some t =>
            if h : t.Valid then .ok ⟨typ, timeZone, t, h⟩
            else .error (.panic "year out of range")

def newTimeFromString (s : Text) : Except Failure Time :=
  match newTimestampFromString ("1970-01-01 ".toList ++ s) with
  | .error (.error _ _) => .error (sqlstate42601 s!"TIME '{s.str}' is not valid")
  | .error failure => .error failure
  | .ok t =>
      .ok { t with
        typ := { t.typ with
          typ := if t.typ.typ = .timestampWithTimeZone then .timeWithTimeZone
            else .timeWithoutTimeZone } }

def newDateFromString (s : Text) : Except Failure Time :=
  match newTimestampFromString (s ++ " 00:00:00".toList) with
  | .error (.error _ _) => .error (sqlstate42601 s!"DATE '{s.str}' is not valid")
  | .error failure => .error failure
  | .ok t => .ok { t with typ := { t.typ with typ := .date } }

example : (newTimestampFromString "2022-06-30 12:34:60.25-05:30".toList).toOption.map (fun t =>
    (t.t, t.timeZone.1, t.typ.size)) =
      some (⟨2022, 6, 30, 12, 35, 0, 250000000⟩, -330, 2) := by
  decide +kernel

/-! ## Printing -/

namespace Time

def strDate (t : Time) : Text :=
  padded 4 t.t.year.toNat ++ '-' :: padded 2 t.t.month.toNat ++ '-' :: padded 2 t.t.day.toNat

def strTime (t : Time) : Text :=
  padded 2 t.t.hour.toNat ++ ':' :: padded 2 t.t.minute.toNat ++ ':' :: padded 2 t.t.second.toNat

def strFractionalSeconds (t : Time) (prec : Nat) : Text :=
  if prec = 0 then [] else '.' :: (padded 6 (t.t.nanosecond / 1000).toNat).take prec

def strTimeZone (t : Time) (allowTimeZone sqlFormatting : Bool) : Text :=
  if allowTimeZone && t.typ.typ.hasTimeZone then
    (if t.timeZone.1 ≥ 0 then '+' else '-') :: padded 2 (t.timeZone.1.natAbs / 60) ++
      (if sqlFormatting then [':'] else []) ++ padded 2 (t.timeZone.1.natAbs % 60)
  else []

def strFullTime (t : Time) (prec : Nat) (allowTimeZone sqlFormatting : Bool) : Text :=
  t.strTime ++ t.strFractionalSeconds prec ++ t.strTimeZone allowTimeZone sqlFormatting

def strFullTimestamp (t : Time) (prec : Nat) (allowTimeZone sqlFormatting : Bool) : Text :=
  t.strDate ++ (if sqlFormatting then ' ' else 'T') ::
    t.strFullTime prec allowTimeZone sqlFormatting

def str (t : Time) : Text :=
  match t.typ.typ with
  | .timestampWithTimeZone | .timestampWithoutTimeZone => t.strFullTimestamp t.typ.size true false
  | .timeWithTimeZone | .timeWithoutTimeZone => t.strFullTime t.typ.size true false
  | .date => t.strDate
  | _ => []

def strLiteral (t : Time) : Text :=
  match t.typ.typ with
  | .timestampWithTimeZone | .timestampWithoutTimeZone =>
      "TIMESTAMP '".toList ++ t.strFullTimestamp t.typ.size true true ++ ['\'']
  | .timeWithTimeZone | .timeWithoutTimeZone =>
      "TIME '".toList ++ t.strFullTime t.typ.size true true ++ ['\'']
  | .date => "DATE '".toList ++ t.strDate ++ ['\'']
  | _ => []

end Time

/-- What is between the quotes of a literal of this kind, or the whole text. -/
def unquoteDatetimeLiteral (s keyword : Text) : Text :=
  if s.length < keyword.length ∨ Text.toUpper (s.take keyword.length) ≠ keyword then s
  else
    let quoted := (s.drop keyword.length).dropWhile Lexer.isWhiteSpace
    if quoted.length < 2 ∨ quoted.head? ≠ some '\'' ∨ quoted.getLast? ≠ some '\'' then s
    else (quoted.drop 1).dropLast

theorem unquoteDatetimeLiteral_literal {keyword : Text} (h : Text.toUpper keyword = keyword)
    (text : Text) :
    unquoteDatetimeLiteral (keyword ++ " '".toList ++ text ++ ['\'']) keyword = text := by
  have hdrop : (keyword ++ " '".toList ++ text ++ ['\'']).drop keyword.length =
      ' ' :: '\'' :: (text ++ ['\'']) := by simp
  have htake : (keyword ++ " '".toList ++ text ++ ['\'']).take keyword.length = keyword := by simp
  have hblank : (' ' :: '\'' :: (text ++ ['\''])).dropWhile Lexer.isWhiteSpace =
      '\'' :: (text ++ ['\'']) := rfl
  unfold unquoteDatetimeLiteral
  rw [htake, hdrop, h, hblank, if_neg (by simp)]
  simp [List.getLast?_cons]

/-! ## Seconds that overflow -/

namespace DateTime

def nextDay (t : DateTime) : DateTime :=
  if t.day < daysInMonth t.month t.year then { t with day := t.day + 1 }
  else if t.month < 12 then { t with month := t.month + 1, day := 1 }
  else { t with year := t.year + 1, month := 1, day := 1 }

/-- A second after the last one of a minute is one of the next minute. -/
def carried (t : DateTime) : DateTime :=
  if t.second ≤ 59 then t
  else if t.minute < 59 then { t with minute := t.minute + 1, second := t.second - 60 }
  else if t.hour < 23 then { t with hour := t.hour + 1, minute := 0, second := t.second - 60 }
  else { t.nextDay with hour := 0, minute := 0, second := t.second - 60 }

theorem carried_of_le {t : DateTime} (h : t.second ≤ 59) : t.carried = t := if_pos h

@[simp] theorem nanosecond_carried (t : DateTime) : t.carried.nanosecond = t.nanosecond := by
  unfold carried nextDay
  split_ifs <;> rfl

end DateTime

theorem monthLength {month year : Int} (hmonth : 1 ≤ month ∧ month ≤ 11) (hne : month ≠ 2) :
    (153 * (month + 1 + if month + 1 > 2 then -3 else 9) + 2) / 5 =
      (153 * (month + if month > 2 then -3 else 9) + 2) / 5 + daysInMonth month year := by
  obtain ⟨hlow, hhigh⟩ := hmonth
  interval_cases month
  case «2» => exact absurd rfl hne
  all_goals rfl

/-- The first day of March comes after the last one of February. -/
theorem daysFromUnixEpoch_march (year : Int) :
    DateTime.daysFromUnixEpoch year 3 1 =
      DateTime.daysFromUnixEpoch year 2 (daysInMonth 2 year) + 1 := by
  have hleap : isLeapYear year = true ↔
      year % 4 = 0 ∧ (year % 100 ≠ 0 ∨ year % 400 = 0) := by simp [isLeapYear]
  cases hyears : isLeapYear year with
  | false =>
      have hnot := mt hleap.mpr (by simp [hyears])
      simp only [daysInMonth, hyears, DateTime.daysFromUnixEpoch]
      norm_num
      omega
  | true =>
      have hyes := hleap.mp hyears
      simp only [daysInMonth, hyears, DateTime.daysFromUnixEpoch]
      norm_num
      omega

theorem daysFromUnixEpoch_nextMonth {month year : Int} (hmonth : 1 ≤ month ∧ month ≤ 11) :
    DateTime.daysFromUnixEpoch year (month + 1) 1 =
      DateTime.daysFromUnixEpoch year month (daysInMonth month year) + 1 := by
  by_cases hfebruary : month = 2
  · subst hfebruary
    exact daysFromUnixEpoch_march year
  · have hlength := @monthLength month year hmonth hfebruary
    have hsame : (if month + 1 ≤ 2 then year - 1 else year) =
        if month ≤ 2 then year - 1 else year := if_congr (by omega) rfl rfl
    unfold DateTime.daysFromUnixEpoch
    rw [hlength, hsame]
    generalize (153 * (month + if month > 2 then -3 else 9) + 2) / 5 = start
    generalize (if month ≤ 2 then year - 1 else year) = y
    simp only
    omega

theorem daysFromUnixEpoch_nextYear (year : Int) :
    DateTime.daysFromUnixEpoch (year + 1) 1 1 = DateTime.daysFromUnixEpoch year 12 31 + 1 := by
  simp only [DateTime.daysFromUnixEpoch]
  norm_num
  omega

/-- The next day is a day of the calendar, and one day later. -/
theorem nextDay_valid {t : DateTime} (hyear : 1 ≤ t.year ∧ t.year ≤ 9999)
    (hmonth : 1 ≤ t.month ∧ t.month ≤ 12)
    (hday : 1 ≤ t.day ∧ t.day ≤ daysInMonth t.month t.year) :
    (1 ≤ t.nextDay.year ∧ t.nextDay.year ≤ 10000) ∧
      (1 ≤ t.nextDay.month ∧ t.nextDay.month ≤ 12) ∧
      (1 ≤ t.nextDay.day ∧ t.nextDay.day ≤ daysInMonth t.nextDay.month t.nextDay.year) ∧
      DateTime.daysFromUnixEpoch t.nextDay.year t.nextDay.month t.nextDay.day =
        DateTime.daysFromUnixEpoch t.year t.month t.day + 1 := by
  obtain ⟨year, month, day, hour, minute, second, nanosecond⟩ := t
  simp only at hyear hmonth hday
  by_cases hlast : day < daysInMonth month year
  · simp only [DateTime.nextDay, if_pos hlast]
    refine ⟨by omega, hmonth, by omega, ?_⟩
    simp only [DateTime.daysFromUnixEpoch]
    omega
  · have hday : day = daysInMonth month year := by omega
    simp only [DateTime.nextDay, if_neg hlast]
    by_cases hdecember : month = 12
    · subst hdecember
      rw [if_neg (by decide)]
      refine ⟨by simp only; omega, by simp only; omega, by simp [daysInMonth], ?_⟩
      rw [hday]
      exact daysFromUnixEpoch_nextYear year
    · rw [if_pos (by omega)]
      refine ⟨by simp only; omega, by simp only; omega, ⟨le_rfl, ?_⟩, ?_⟩
      · simp only
        unfold daysInMonth
        split_ifs <;> omega
      · rw [hday]
        exact daysFromUnixEpoch_nextMonth (by omega)

/-- Every second up to 61 is one of a valid time, at the same instant. -/
theorem carried_valid {t : DateTime} (hyear : 1 ≤ t.year ∧ t.year ≤ 9999)
    (hmonth : 1 ≤ t.month ∧ t.month ≤ 12)
    (hday : 1 ≤ t.day ∧ t.day ≤ daysInMonth t.month t.year) (hhour : 0 ≤ t.hour ∧ t.hour ≤ 23)
    (hminute : 0 ≤ t.minute ∧ t.minute ≤ 59) (hsecond : 0 ≤ t.second ∧ t.second ≤ 61)
    (hnano : 0 ≤ t.nanosecond ∧ t.nanosecond < 1000000000) :
    t.carried.Valid ∧ t.unix = t.carried.unix := by
  have hnext := nextDay_valid hyear hmonth hday
  have hnano' : t.nextDay.nanosecond = t.nanosecond := by
    unfold DateTime.nextDay
    split_ifs <;> rfl
  unfold DateTime.carried
  split_ifs with hsmall hlate hlast
  · exact ⟨⟨by omega, hmonth, hday, by omega, by omega, by omega, hnano⟩, rfl⟩
  · refine ⟨⟨by simp only; omega, hmonth, hday, ?_, ?_, ?_, hnano⟩, ?_⟩ <;>
      simp only [DateTime.unix] <;> omega
  · refine ⟨⟨by simp only; omega, hmonth, hday, ?_, ?_, ?_, hnano⟩, ?_⟩ <;>
      simp only [DateTime.unix] <;> omega
  · obtain ⟨hyear', hmonth', hday', hdays⟩ := hnext
    refine ⟨⟨hyear', hmonth', hday', ?_, ?_, ?_, hnano' ▸ hnano⟩, ?_⟩ <;>
      simp only [DateTime.unix, hdays] <;> omega

/-- What the code computes is the carry. -/
theorem newLenientTime_eq {t : DateTime} (h : t.carried.Valid ∧ t.unix = t.carried.unix) :
    newLenientTime t = t.carried := by
  rw [newLenientTime, h.2, unixNanosecond_unix h.1, ← t.nanosecond_carried]

/-! ## What is written in a timestamp -/

structure TimestampText where
  year : Nat
  month : Nat
  day : Nat
  separator : Char
  hour : Nat
  minute : Nat
  second : Nat
  fraction : Text
  /-- Whether it is behind UTC, and the hours and minutes. -/
  zone : Option (Bool × Nat × Nat)

namespace TimestampText

def dateText (w : TimestampText) : Text :=
  padded 4 w.year ++ '-' :: padded 2 w.month ++ '-' :: padded 2 w.day

def secondsText (w : TimestampText) : Text :=
  padded 2 w.hour ++ ':' :: padded 2 w.minute ++ ':' :: padded 2 w.second

def fractionText : Text → Text
  | [] => []
  | digits => '.' :: digits

def zoneText : Option (Bool × Nat × Nat) → Text
  | none => []
  | some (isNegative, hours, minutes) =>
      (if isNegative then '-' else '+') :: padded 2 hours ++ ':' :: padded 2 minutes

def timeText (w : TimestampText) : Text := w.secondsText ++ fractionText w.fraction

def localText (w : TimestampText) : Text := w.dateText ++ w.separator :: w.timeText

def text (w : TimestampText) : Text := w.localText ++ zoneText w.zone

/-- The fields are as wide as the pattern has them. -/
structure Fits (w : TimestampText) : Prop where
  year : w.year < 10000
  month : w.month < 100
  day : w.day < 100
  separator : isSpace w.separator
  hour : w.hour < 100
  minute : w.minute < 100
  second : w.second < 100
  fraction : Digits w.fraction ∧ w.fraction.length ≤ 6
  zone : ∀ z ∈ w.zone, z.2.1 < 100 ∧ z.2.2 < 100

end TimestampText

/-! ## The pattern -/

/-- The texts of an atom. -/
def Atom.Accepts : Atom → Text → Prop
  | .digits n, s => s.length = n ∧ Digits s
  | .space, s => ∃ c, isSpace c ∧ s = [c]
  | .sign, s => ∃ c, isSign c ∧ s = [c]
  | .char c, s => s = [c]

theorem Atom.strip_eq_some {atom : Atom} {s rest : Text} :
    atom.strip s = some rest ↔ ∃ u, atom.Accepts u ∧ s = u ++ rest := by
  cases atom with
  | digits n =>
      simp only [strip, Accepts]
      constructor
      · intro h
        split at h
        · next hdigits =>
            cases h
            refine ⟨s.take n, ⟨hdigits.1, ?_⟩, (List.take_append_drop n s).symm⟩
            exact List.all_eq_true.mp hdigits.2
        · cases h
      · rintro ⟨u, ⟨rfl, hu⟩, rfl⟩
        rw [List.take_left, List.drop_left, if_pos ⟨rfl, List.all_eq_true.mpr hu⟩]
  | space => cases s <;> simp [strip, Accepts]
  | sign => cases s <;> simp [strip, Accepts]
  | char c =>
      cases s with
      | nil => simp [strip, Accepts]
      | cons d s => simp [strip, Accepts, eq_comm]

theorem stripAtoms_cons_eq_some {atom : Atom} {atoms : List Atom} {s rest : Text} :
    stripAtoms (atom :: atoms) s = some rest ↔
      ∃ u v, atom.Accepts u ∧ s = u ++ v ∧ stripAtoms atoms v = some rest := by
  unfold stripAtoms
  rw [List.foldlM_cons]
  change (atom.strip s).bind _ = some rest ↔ _
  rw [Option.bind_eq_some_iff]
  simp only [Atom.strip_eq_some]
  constructor
  · rintro ⟨v, ⟨u, hu, rfl⟩, hv⟩
    exact ⟨u, v, hu, rfl, hv⟩
  · rintro ⟨u, v, hu, rfl, hv⟩
    exact ⟨v, ⟨u, hu, rfl⟩, hv⟩

theorem stripAtoms_nil_eq_some {s rest : Text} : stripAtoms [] s = some rest ↔ s = rest := by
  simp [stripAtoms]

theorem accepts_digits_iff {n : Nat} (hn : 0 < n) {s : Text} :
    (Atom.digits n).Accepts s ↔ ∃ x < 10 ^ n, s = padded n x := by
  constructor
  · rintro ⟨rfl, hs⟩
    exact ⟨Nat.ofDigitChars 10 s 0, ofDigitChars_lt hs,
      (padded_ofDigitChars hs (List.length_pos_iff.mp hn)).symm⟩
  · rintro ⟨x, hx, rfl⟩
    exact ⟨length_padded hn hx, digits_padded n x⟩

theorem fractionText_of_ne {digits : Text} (h : digits ≠ []) :
    TimestampText.fractionText digits = '.' :: digits := by
  cases digits with
  | nil => exact absurd rfl h
  | cons d digits => rfl

theorem stripFraction_fractionText {digits rest : Text} (h : Digits digits)
    (hlength : digits.length ≤ 6) (hrest : ∀ c ∈ rest.head?, c.isDigit = false ∧ c ≠ '.') :
    stripFraction (TimestampText.fractionText digits ++ rest) = rest := by
  have hstop : rest.takeWhile Char.isDigit = [] := by
    cases rest with
    | nil => rfl
    | cons c rest => simp [(hrest c rfl).1]
  cases digits with
  | nil =>
      cases rest with
      | nil => rfl
      | cons c rest =>
          have hc : c ≠ '.' := (hrest c rfl).2
          simp [TimestampText.fractionText, stripFraction, hc]
  | cons d digits =>
      have htake : ((d :: digits) ++ rest).takeWhile Char.isDigit = d :: digits := by
        rw [List.takeWhile_append_of_pos h, hstop, List.append_nil]
      simp only [TimestampText.fractionText, List.cons_append, stripFraction] at htake ⊢
      rw [htake, Nat.min_eq_right hlength, if_neg (by simp)]
      simp

theorem exists_stripFraction (s : Text) : ∃ digits, Digits digits ∧ digits.length ≤ 6 ∧
    s = TimestampText.fractionText digits ++ stripFraction s := by
  cases s with
  | nil => exact ⟨[], by simp [Digits], by simp, rfl⟩
  | cons c s =>
      by_cases hc : c = '.'
      · subst hc
        let n := min 6 (s.takeWhile Char.isDigit).length
        have hstrip : stripFraction ('.' :: s) = if n = 0 then '.' :: s else s.drop n := rfl
        rw [hstrip]
        split_ifs with hzero
        · exact ⟨[], by simp [Digits], by simp, rfl⟩
        · have htake : s.take n = (s.takeWhile Char.isDigit).take n := by
            conv_lhs => rw [← List.takeWhile_append_dropWhile (p := Char.isDigit) (l := s)]
            exact List.take_append_of_le_length (min_le_right _ _)
          have hdigits : Digits (s.take n) := by
            intro d hd
            rw [htake] at hd
            exact List.mem_takeWhile_imp (List.mem_of_mem_take hd)
          have hlength : (s.take n).length = n := by
            rw [htake, List.length_take]
            omega
          refine ⟨s.take n, hdigits, by omega, ?_⟩
          rw [fractionText_of_ne (List.ne_nil_of_length_pos (by omega)), List.cons_append,
            List.take_append_drop]
      · refine ⟨[], by simp [Digits], by simp, ?_⟩
        simp [TimestampText.fractionText, stripFraction, hc]

theorem stripAtoms_append_eq_some {atoms atoms' : List Atom} {s rest : Text} :
    stripAtoms (atoms ++ atoms') s = some rest ↔
      ∃ v, stripAtoms atoms s = some v ∧ stripAtoms atoms' v = some rest := by
  unfold stripAtoms
  rw [List.foldlM_append]
  exact Option.bind_eq_some_iff

theorem four_pos : 0 < 4 := by decide

theorem stripAtoms_date {s rest : Text} : stripAtoms unquotedDateString s = some rest ↔
    ∃ year < 10000, ∃ month < 100, ∃ day < 100,
      s = padded 4 year ++ '-' :: padded 2 month ++ '-' :: padded 2 day ++ rest := by
  simp only [unquotedDateString, stripAtoms_cons_eq_some, stripAtoms_nil_eq_some,
    Atom.Accepts.eq_4, accepts_digits_iff four_pos, accepts_digits_iff two_pos, Nat.reducePow]
  constructor
  · rintro ⟨_, _, ⟨year, hyear, rfl⟩, rfl, _, _, rfl, rfl, _, _, ⟨month, hmonth, rfl⟩, rfl, _, _,
      rfl, rfl, _, _, ⟨day, hday, rfl⟩, rfl, rfl⟩
    exact ⟨year, hyear, month, hmonth, day, hday, by simp⟩
  · rintro ⟨year, hyear, month, hmonth, day, hday, rfl⟩
    refine ⟨padded 4 year, '-' :: (padded 2 month ++ '-' :: (padded 2 day ++ rest)),
      ⟨year, hyear, rfl⟩, by simp, ['-'], _, rfl, rfl, padded 2 month, _, ⟨month, hmonth, rfl⟩, rfl,
      ['-'], _, rfl, rfl, padded 2 day, rest, ⟨day, hday, rfl⟩, rfl, rfl⟩

theorem stripAtoms_seconds {s rest : Text} : stripAtoms unquotedSecondsString s = some rest ↔
    ∃ hour < 100, ∃ minute < 100, ∃ second < 100,
      s = padded 2 hour ++ ':' :: padded 2 minute ++ ':' :: padded 2 second ++ rest := by
  simp only [unquotedSecondsString, stripAtoms_cons_eq_some, stripAtoms_nil_eq_some,
    Atom.Accepts.eq_4, accepts_digits_iff two_pos, Nat.reducePow]
  constructor
  · rintro ⟨_, _, ⟨hour, hhour, rfl⟩, rfl, _, _, rfl, rfl, _, _, ⟨minute, hminute, rfl⟩, rfl, _, _,
      rfl, rfl, _, _, ⟨second, hsecond, rfl⟩, rfl, rfl⟩
    exact ⟨hour, hhour, minute, hminute, second, hsecond, by simp⟩
  · rintro ⟨hour, hhour, minute, hminute, second, hsecond, rfl⟩
    refine ⟨padded 2 hour, ':' :: (padded 2 minute ++ ':' :: (padded 2 second ++ rest)),
      ⟨hour, hhour, rfl⟩, by simp, [':'], _, rfl, rfl, padded 2 minute, _, ⟨minute, hminute, rfl⟩,
      rfl, [':'], _, rfl, rfl, padded 2 second, rest, ⟨second, hsecond, rfl⟩, rfl, rfl⟩

theorem isSign_iff {c : Char} :
    isSign c = true ↔ ∃ isNegative : Bool, c = if isNegative then '-' else '+' := by
  simp [isSign, or_comm]

theorem stripAtoms_zone {s rest : Text} : stripAtoms unquotedTimeZoneString s = some rest ↔
    ∃ z : Bool × Nat × Nat, (z.2.1 < 100 ∧ z.2.2 < 100) ∧
      s = TimestampText.zoneText (some z) ++ rest := by
  simp only [unquotedTimeZoneString, stripAtoms_cons_eq_some, stripAtoms_nil_eq_some,
    Atom.Accepts.eq_3, Atom.Accepts.eq_4, accepts_digits_iff two_pos, isSign_iff,
    Nat.reducePow]
  constructor
  · rintro ⟨_, _, ⟨_, ⟨isNegative, rfl⟩, rfl⟩, rfl, _, _, ⟨hours, hhours, rfl⟩, rfl, _, _, rfl, rfl,
      _, _, ⟨minutes, hminutes, rfl⟩, rfl, rfl⟩
    exact ⟨⟨isNegative, hours, minutes⟩, ⟨hhours, hminutes⟩, by simp [TimestampText.zoneText]⟩
  · rintro ⟨⟨isNegative, hours, minutes⟩, ⟨hhours, hminutes⟩, rfl⟩
    exact ⟨_, _, ⟨_, ⟨isNegative, rfl⟩, rfl⟩, by simp [TimestampText.zoneText], _, _,
      ⟨hours, hhours, rfl⟩, rfl, _, _, rfl, rfl, _, _, ⟨minutes, hminutes, rfl⟩, rfl, rfl⟩

theorem zoneText_head? (zone : Option (Bool × Nat × Nat)) :
    ∀ c ∈ (TimestampText.zoneText zone).head?, c.isDigit = false ∧ c ≠ '.' := by
  intro c hc
  cases zone with
  | none => cases hc
  | some z =>
      cases hc
      split <;> decide

/-- The pattern accepts the texts of the fields that fit it. -/
theorem matchesTimestamp_iff {withTimeZone : Bool} {s : Text} :
    matchesTimestamp withTimeZone s = true ↔
      ∃ w : TimestampText, w.Fits ∧ w.zone.isSome = withTimeZone ∧ s = w.text := by
  unfold matchesTimestamp
  constructor
  · intro h
    split at h
    · cases h
    · next rest hrest =>
        obtain ⟨v, hdate, hv⟩ := stripAtoms_append_eq_some.mp hrest
        obtain ⟨year, hyear, month, hmonth, day, hday, rfl⟩ := stripAtoms_date.mp hdate
        obtain ⟨_, v, ⟨separator, hseparator, rfl⟩, rfl, hseconds⟩ := stripAtoms_cons_eq_some.mp hv
        obtain ⟨hour, hhour, minute, hminute, second, hsecond, rfl⟩ :=
          stripAtoms_seconds.mp hseconds
        obtain ⟨fraction, hdigits, hlength, hfraction⟩ := exists_stripFraction rest
        obtain ⟨zone, hsome, hfits, hzone⟩ : ∃ zone : Option (Bool × Nat × Nat),
            zone.isSome = withTimeZone ∧ (∀ z ∈ zone, z.2.1 < 100 ∧ z.2.2 < 100) ∧
              stripFraction rest = TimestampText.zoneText zone := by
          cases withTimeZone with
          | false =>
              exact ⟨none, rfl, by simp, by simpa [stripAtoms, TimestampText.zoneText] using h⟩
          | true =>
              obtain ⟨z, hz, htext⟩ := stripAtoms_zone.mp (of_decide_eq_true h)
              exact ⟨some z, rfl, by simpa using hz, by rw [htext, List.append_nil]⟩
        refine ⟨⟨year, month, day, separator, hour, minute, second, fraction, zone⟩,
          ⟨hyear, hmonth, hday, hseparator, hhour, hminute, hsecond, ⟨hdigits, hlength⟩, hfits⟩,
          hsome, ?_⟩
        rw [hfraction, hzone]
        simp [TimestampText.text, TimestampText.localText, TimestampText.dateText,
          TimestampText.timeText, TimestampText.secondsText]
  · rintro ⟨w, hw, rfl, rfl⟩
    have hstrip : stripAtoms (unquotedDateString ++ .space :: unquotedSecondsString) w.text =
        some (TimestampText.fractionText w.fraction ++ TimestampText.zoneText w.zone) := by
      refine stripAtoms_append_eq_some.mpr ⟨_, stripAtoms_date.mpr ⟨w.year, hw.year, w.month,
        hw.month, w.day, hw.day, ?_⟩, stripAtoms_cons_eq_some.mpr ⟨[w.separator], _,
          ⟨w.separator, hw.separator, rfl⟩, rfl, stripAtoms_seconds.mpr ⟨w.hour, hw.hour, w.minute,
            hw.minute, w.second, hw.second, rfl⟩⟩⟩
      simp [TimestampText.text, TimestampText.localText, TimestampText.dateText,
        TimestampText.timeText, TimestampText.secondsText]
    rw [hstrip]
    simp only
    rw [stripFraction_fractionText hw.fraction.1 hw.fraction.2 (zoneText_head? w.zone)]
    cases hzone : w.zone with
    | none => rfl
    | some z =>
        have hfits := hw.zone z hzone
        exact decide_eq_true (stripAtoms_zone.mpr ⟨z, hfits, by simp⟩)

/-! ## The fields of a timestamp -/

theorem textInt_of_digits {s : Text} (h : Digits s) :
    textInt s = (Nat.ofDigitChars 10 s 0 : Nat) := by
  have htake : s.takeWhile Char.isDigit = s := List.takeWhile_eq_self_iff.mpr h
  unfold textInt
  split
  · exact absurd (h '-' (by simp)) (by decide)
  · exact absurd (h '+' (by simp)) (by decide)
  · rw [htake]

theorem textInt_padded (width n : Nat) : textInt (padded width n) = n := by
  rw [textInt_of_digits (digits_padded width n), ofDigitChars_padded]

namespace TimestampText

def nanosecond (w : TimestampText) : Nat :=
  Nat.ofDigitChars 10 (w.fraction ++ List.replicate (9 - w.fraction.length) '0') 0

def components (w : TimestampText) : DateTime :=
  ⟨w.year, w.month, w.day, w.hour, w.minute, w.second, w.nanosecond⟩

def minutes : Option (Bool × Nat × Nat) → Int
  | none => 0
  | some (isNegative, hours, minutes) =>
      if isNegative then -((hours * 60 + minutes : Nat) : Int) else (hours * 60 + minutes : Nat)

/-- The values that a date and a time of day can have. -/
structure LocalInRange (w : TimestampText) : Prop where
  year : 1 ≤ w.year ∧ w.year ≤ 9999
  month : 1 ≤ w.month ∧ w.month ≤ 12
  day : 1 ≤ w.day ∧ (w.day : Int) ≤ daysInMonth w.month w.year
  hour : w.hour ≤ 23
  minute : w.minute ≤ 59
  second : w.second ≤ 61

structure InRange (w : TimestampText) : Prop extends LocalInRange w where
  zone : ∀ z ∈ w.zone, z.2.2 ≤ 59 ∧ z.2.1 * 60 + z.2.2 ≤ 840

variable {w : TimestampText}

theorem isSpace_eq_false {c : Char} (h : c.isDigit ∨ c = '-' ∨ c = ':' ∨ c = '.') :
    isSpace c = false := by
  cases hspace : isSpace c with
  | false => rfl
  | true =>
      simp only [isSpace, Bool.or_eq_true, beq_iff_eq] at hspace
      obtain (rfl | rfl) | rfl := hspace <;> revert h <;> decide

theorem not_mem_padded {n m : Nat} {c : Char} (hc : c.isDigit = false) : c ∉ padded n m :=
  (digits_padded n m).not_mem hc

theorem of_mem_padded {n m : Nat} {c : Char} (h : c ∈ padded n m) : c.isDigit :=
  digits_padded n m c h

theorem of_mem_dateText {c : Char} (h : c ∈ w.dateText) : c.isDigit ∨ c = '-' := by
  simp only [dateText, List.mem_append, List.mem_cons] at h
  obtain (h | rfl | h) | rfl | h := h
  · exact .inl (of_mem_padded h)
  · exact .inr rfl
  · exact .inl (of_mem_padded h)
  · exact .inr rfl
  · exact .inl (of_mem_padded h)

theorem of_mem_fractionText {digits : Text} (hdigits : Digits digits) {c : Char}
    (h : c ∈ fractionText digits) : c.isDigit ∨ c = '.' := by
  cases digits with
  | nil => cases h
  | cons d digits =>
      rw [fractionText_of_ne (List.cons_ne_nil d digits)] at h
      obtain rfl | h := List.mem_cons.mp h
      · exact .inr rfl
      · exact .inl (hdigits c h)

theorem of_mem_timeText (hw : w.Fits) {c : Char} (h : c ∈ w.timeText) :
    c.isDigit ∨ c = ':' ∨ c = '.' := by
  simp only [timeText, secondsText, List.mem_append, List.mem_cons] at h
  obtain ((h | rfl | h) | rfl | h) | h := h
  · exact .inl (of_mem_padded h)
  · exact .inr (.inl rfl)
  · exact .inl (of_mem_padded h)
  · exact .inr (.inl rfl)
  · exact .inl (of_mem_padded h)
  · exact (of_mem_fractionText hw.fraction.1 h).imp_right .inr

theorem dateText_ne : w.dateText ≠ [] := by simp [dateText]

theorem timeText_ne : w.timeText ≠ [] := by simp [timeText, secondsText]

theorem fieldsOf_localText (hw : w.Fits) : fieldsOf w.localText = [w.dateText, w.timeText] := by
  have hdate : ∀ c ∈ w.dateText, isSpace c = false := fun c hmem =>
    isSpace_eq_false ((of_mem_dateText hmem).imp_right .inl)
  have htime : ∀ c ∈ w.timeText, isSpace c = false := fun c hmem =>
    isSpace_eq_false ((of_mem_timeText hw hmem).imp_right .inr)
  rw [fieldsOf, localText, List.splitOnP_append_cons_of_forall_mem hdate _ hw.separator,
    List.splitOnP_eq_singleton htime]
  simp [dateText_ne, timeText_ne]

theorem splitOn_dateText :
    w.dateText.splitOn '-' = [padded 4 w.year, padded 2 w.month, padded 2 w.day] := by
  have hminus : ∀ {n m}, '-' ∉ padded n m := not_mem_padded (by decide)
  rw [dateText, List.append_assoc, List.cons_append,
    List.splitOn_append_cons_self_of_not_mem hminus,
    List.splitOn_append_cons_self_of_not_mem hminus, List.splitOn_eq_singleton hminus]

theorem splitOn_timeText (hw : w.Fits) :
    w.timeText.splitOn ':' =
      [padded 2 w.hour, padded 2 w.minute, padded 2 w.second ++ fractionText w.fraction] := by
  have hcolon : ∀ {n m}, ':' ∉ padded n m := not_mem_padded (by decide)
  have hlast : ':' ∉ padded 2 w.second ++ fractionText w.fraction := by
    rw [List.mem_append]
    rintro (h | h)
    · exact hcolon h
    · obtain h | h := of_mem_fractionText hw.fraction.1 h <;> revert h <;> decide
  have htext : w.timeText = padded 2 w.hour ++ ':' :: (padded 2 w.minute ++ ':' ::
      (padded 2 w.second ++ fractionText w.fraction)) := by
    simp [timeText, secondsText]
  rw [htext, List.splitOn_append_cons_self_of_not_mem hcolon,
    List.splitOn_append_cons_self_of_not_mem hcolon, List.splitOn_eq_singleton hlast]

/-- The seconds and the fraction, which may be missing. -/
theorem splitOn_second (hw : w.Fits) :
    (padded 2 w.second ++ fractionText w.fraction).splitOn '.' =
      padded 2 w.second :: if w.fraction = [] then [] else [w.fraction] := by
  have hpoint : '.' ∉ padded 2 w.second := not_mem_padded (by decide)
  have hdigits := hw.fraction.1
  cases hfraction : w.fraction with
  | nil => simp [fractionText, List.splitOn_eq_singleton hpoint]
  | cons d digits =>
      rw [hfraction] at hdigits
      rw [fractionText_of_ne (List.cons_ne_nil d digits),
        List.splitOn_append_cons_self_of_not_mem hpoint,
        List.splitOn_eq_singleton (hdigits.not_mem (by decide)), if_neg (List.cons_ne_nil d digits)]

instance (w : TimestampText) : Decidable w.LocalInRange :=
  decidable_of_iff ((1 ≤ w.year ∧ w.year ≤ 9999) ∧ (1 ≤ w.month ∧ w.month ≤ 12) ∧
      (1 ≤ w.day ∧ (w.day : Int) ≤ daysInMonth w.month w.year) ∧ w.hour ≤ 23 ∧ w.minute ≤ 59 ∧
      w.second ≤ 61)
    ⟨fun ⟨h1, h2, h3, h4, h5, h6⟩ => ⟨h1, h2, h3, h4, h5, h6⟩,
      fun ⟨h1, h2, h3, h4, h5, h6⟩ => ⟨h1, h2, h3, h4, h5, h6⟩⟩

theorem digits_nanosecond (hw : w.Fits) :
    Digits (w.fraction ++ List.replicate (9 - w.fraction.length) '0') :=
  digits_append.mpr ⟨hw.fraction.1, digits_replicate_zero _⟩

theorem nanosecond_of_nil (h : w.fraction = []) : w.nanosecond = 0 := by
  rw [nanosecond, h]
  decide

/-- The components of the text of the fields are the fields. -/
theorem parseTimestampComponents_localText (hw : w.Fits) :
    parseTimestampComponents w.localText =
      if w.LocalInRange then some (newLenientTime w.components) else none := by
  unfold parseTimestampComponents
  rw [fieldsOf_localText hw]
  simp only [splitOn_dateText, splitOn_timeText hw, splitOn_second hw, textInt_padded,
    List.headD_cons]
  by_cases hdate : (1 ≤ w.year ∧ w.year ≤ 9999) ∧ (1 ≤ w.month ∧ w.month ≤ 12) ∧
      1 ≤ w.day ∧ (w.day : Int) ≤ daysInMonth w.month w.year
  · rw [if_neg (by omega)]
    by_cases htime : w.hour ≤ 23 ∧ w.minute ≤ 59 ∧ w.second ≤ 61
    · have hrange : w.LocalInRange :=
        ⟨hdate.1, hdate.2.1, hdate.2.2, htime.1, htime.2.1, htime.2.2⟩
      rw [if_neg (by omega), if_pos hrange]
      by_cases hfraction : w.fraction = []
      · rw [if_pos hfraction, components, nanosecond_of_nil hfraction]
        rfl
      · rw [if_neg hfraction]
        simp only [textInt_of_digits (digits_nanosecond hw)]
        rfl
    · rw [if_pos (by omega), if_neg]
      exact fun h => htime ⟨h.hour, h.minute, h.second⟩
  · rw [if_pos (by omega), if_neg]
    exact fun h => hdate ⟨h.year, h.month, h.day⟩

/-! ## The time zone -/

theorem le_length_timeText (hw : w.Fits) : 8 ≤ w.timeText.length := by
  have hlength : ∀ {x}, x < 100 → (padded 2 x).length = 2 := length_padded two_pos
  simp only [timeText, secondsText, List.length_append, List.length_cons, hlength hw.hour,
    hlength hw.minute, hlength hw.second]
  omega

theorem length_zoneText {z : Bool × Nat × Nat} (hz : z.2.1 < 100 ∧ z.2.2 < 100) :
    (zoneText (some z)).length = 6 := by
  have hlength : ∀ {x}, x < 100 → (padded 2 x).length = 2 := length_padded two_pos
  simp only [zoneText, List.length_append, List.length_cons, hlength hz.1, hlength hz.2]

theorem getD_length_sub (s : Text) {t : Text} {n : Nat} (h : n ≤ t.length) (c : Char) :
    (s ++ t).getD ((s ++ t).length - n) c = t.getD (t.length - n) c := by
  have hle : s.length ≤ (s ++ t).length - n := by
    rw [List.length_append]
    omega
  rw [List.getD_append_right _ _ _ _ hle]
  congr 1
  rw [List.length_append]
  omega

theorem drop_length_sub (s : Text) {t : Text} {n : Nat} (h : n ≤ t.length) :
    (s ++ t).drop ((s ++ t).length - n) = t.drop (t.length - n) := by
  have hindex : (s ++ t).length - n = s.length + (t.length - n) := by
    rw [List.length_append]
    omega
  rw [hindex]
  simp [List.drop_append]

theorem text_eq_of_none (h : w.zone = none) : w.text = w.localText := by
  rw [text, h, zoneText, List.append_nil]

theorem text_eq_of_some {z : Bool × Nat × Nat} (h : w.zone = some z) :
    w.text = w.localText ++ zoneText (some z) := by
  rw [text, h]

theorem expectsTimeZone_text (hw : w.Fits) : expectsTimeZone w.text = w.zone.isSome := by
  cases hzone : w.zone with
  | none =>
      have hlength := le_length_timeText hw
      have htext : w.text = (w.dateText ++ [w.separator]) ++ w.timeText := by
        rw [text_eq_of_none hzone, localText, List.append_assoc]
        rfl
      have hchar :=
        getD_length_sub (w.dateText ++ [w.separator]) (show 6 ≤ w.timeText.length by omega)
        ' '
      have hlt : w.timeText.length - 6 < w.timeText.length := by omega
      rw [← htext, List.getD_eq_getElem _ _ hlt] at hchar
      have hmem := of_mem_timeText hw (List.getElem_mem hlt)
      rw [← hchar] at hmem
      unfold expectsTimeZone
      generalize w.text.getD (w.text.length - 6) ' ' = c at hmem
      have hsign : (c == '+') = false ∧ (c == '-') = false := by
        constructor
        · rw [beq_eq_false_iff_ne]
          rintro rfl
          revert hmem
          decide
        · rw [beq_eq_false_iff_ne]
          rintro rfl
          revert hmem
          decide
      rw [hsign.1, hsign.2]
      simp
  | some z =>
      have hlength := length_zoneText (hw.zone z hzone)
      have hchar := getD_length_sub w.localText hlength.ge ' '
      have hlong : 6 < w.text.length := by
        have htime := le_length_timeText hw
        rw [text_eq_of_some hzone, localText]
        simp only [List.length_append, List.length_cons]
        omega
      rw [← text_eq_of_some hzone, hlength] at hchar
      rw [expectsTimeZone, hchar, decide_eq_true hlong]
      cases z.1 <;> simp [zoneText]

theorem take_text {z : Bool × Nat × Nat} (hw : w.Fits) (hzone : w.zone = some z) :
    w.text.take (w.text.length - 6) = w.localText := by
  have hlength := length_zoneText (hw.zone z hzone)
  rw [text_eq_of_some hzone, List.length_append, hlength, Nat.add_sub_cancel, List.take_left]

theorem checkTimeZone_eq (z : Int) :
    (checkTimeZone z).map Subtype.val = if -840 ≤ z ∧ z ≤ 840 then some z else none := by
  unfold checkTimeZone
  split_ifs <;> rfl

theorem parseTimeZone_text {z : Bool × Nat × Nat} (hw : w.Fits) (hzone : w.zone = some z) :
    (parseTimeZone w.text).map Subtype.val =
      if z.2.2 ≤ 59 ∧ z.2.1 * 60 + z.2.2 ≤ 840 then some (minutes w.zone) else none := by
  obtain ⟨isNegative, hours, mins⟩ := z
  have hfits := hw.zone _ hzone
  have hlength := length_zoneText hfits
  have hpadded : ∀ {x}, x < 100 → (padded 2 x).length = 2 := length_padded two_pos
  have htext := text_eq_of_some hzone
  have hsign : w.text.getD (w.text.length - 6) ' ' = if isNegative then '-' else '+' := by
    rw [htext, getD_length_sub w.localText hlength.ge, hlength]
    rfl
  have hhours : (w.text.drop (w.text.length - 5)).take 2 = padded 2 hours := by
    rw [htext, drop_length_sub w.localText (by omega), hlength, zoneText, List.cons_append,
      List.drop_succ_cons, List.drop_zero, List.take_left' (hpadded hfits.1)]
  have hminutes : w.text.drop (w.text.length - 2) = padded 2 mins := by
    have hprefix : zoneText (some (isNegative, hours, mins)) =
        ((if isNegative then '-' else '+') :: padded 2 hours ++ [':']) ++ padded 2 mins := by
      simp [zoneText]
    rw [htext, hprefix, ← List.append_assoc, drop_length_sub _ (hpadded hfits.2).ge,
      hpadded hfits.2, Nat.sub_self, List.drop_zero]
  unfold parseTimeZone
  simp only [hsign, hhours, hminutes, textInt_padded]
  rw [hzone]
  have hzone' : (if (if isNegative then '-' else '+') = '-' then
      -((hours : Int) * 60 + mins) else (hours : Int) * 60 + mins) =
        minutes (some (isNegative, hours, mins)) := by
    cases isNegative <;> simp [minutes]
  have hbounds : -840 ≤ minutes (some (isNegative, hours, mins)) ∧
      minutes (some (isNegative, hours, mins)) ≤ 840 ↔ hours * 60 + mins ≤ 840 := by
    unfold minutes
    cases isNegative <;> simp <;> omega
  simp only [hzone']
  by_cases hmins : mins ≤ 59
  · rw [if_neg (by omega)]
    by_cases hrange : hours * 60 + mins ≤ 840
    · rw [checkTimeZone_eq, if_pos (hbounds.mpr hrange), if_pos ⟨hmins, hrange⟩]
    · rw [checkTimeZone_eq, if_neg (mt hbounds.mp hrange), if_neg (fun h => hrange h.2)]
  · rw [if_pos (by omega), if_neg (fun h => hmins h.1)]
    rfl

/-! ## The precision -/

theorem localText_eq : w.localText =
    (w.dateText ++ w.separator :: w.secondsText) ++ fractionText w.fraction := by
  simp [localText, timeText]

theorem not_mem_whole (hw : w.Fits) : '.' ∉ w.dateText ++ w.separator :: w.secondsText := by
  have hpoint : ∀ {n m}, '.' ∉ padded n m := not_mem_padded (by decide)
  have hseparator : '.' ≠ w.separator := by
    intro h
    have hspace := hw.separator
    rw [← h] at hspace
    exact absurd hspace (by decide)
  simp [dateText, secondsText, hpoint, hseparator]

theorem precision_localText (hw : w.Fits) :
    (if '.' ∈ w.localText then precisionOf w.localText else 0) = w.fraction.length := by
  have hwhole := not_mem_whole hw
  by_cases h : w.fraction = []
  · rw [localText_eq, h, fractionText, List.append_nil, if_neg hwhole]
    rfl
  · have hmem : '.' ∈ (w.dateText ++ w.separator :: w.secondsText) ++ '.' :: w.fraction := by simp
    rw [localText_eq, fractionText_of_ne h, if_pos hmem, precisionOf,
      List.idxOf_append_of_notMem hwhole, List.idxOf_cons_self, List.length_append,
      List.length_cons]
    omega

theorem nanosecond_bounds (hw : w.Fits) : w.nanosecond < 1000000000 := by
  have hlt := ofDigitChars_lt (digits_nanosecond hw)
  have hlength : (w.fraction ++ List.replicate (9 - w.fraction.length) '0').length = 9 := by
    have hle := hw.fraction.2
    rw [List.length_append, List.length_replicate]
    omega
  rwa [hlength] at hlt

/-! ## The value of a timestamp -/

def typ (w : TimestampText) : DataType where
  typ := if w.zone.isSome then .timestampWithTimeZone else .timestampWithoutTimeZone
  size := w.fraction.length

theorem carried_components (hw : w.Fits) (h : w.LocalInRange) :
    w.components.carried.Valid ∧ w.components.unix = w.components.carried.unix := by
  obtain ⟨hyear, hmonth, hday, hhour, hminute, hsecond⟩ := h
  have hnano := nanosecond_bounds hw
  apply carried_valid <;> simp only [components] <;> omega

/-- What the text denotes. -/
structure Denotes (w : TimestampText) (t : Time) : Prop where
  typ : t.typ = w.typ
  timeZone : t.timeZone.1 = minutes w.zone
  t : t.t = w.components.carried

/-- The time zone that is read from the text. -/
theorem zone_text (hw : w.Fits) (hrange : ∀ z ∈ w.zone, z.2.2 ≤ 59 ∧ z.2.1 * 60 + z.2.2 ≤ 840) :
    ∃ timeZone : TimeZone, timeZone.1 = minutes w.zone ∧
      (if expectsTimeZone w.text then parseTimeZone w.text else some ⟨0, zero_timeZone⟩) =
        some timeZone := by
  rw [expectsTimeZone_text hw]
  cases hzone : w.zone with
  | none => exact ⟨⟨0, zero_timeZone⟩, rfl, rfl⟩
  | some z =>
      have hparse := parseTimeZone_text hw hzone
      rw [if_pos (hrange z hzone), Option.map_eq_some_iff] at hparse
      obtain ⟨timeZone, hsome, hval⟩ := hparse
      exact ⟨timeZone, by rw [hval, hzone], by rw [Option.isSome_some, if_pos rfl, hsome]⟩

theorem zone_text_none (hw : w.Fits)
    (hrange : ¬∀ z ∈ w.zone, z.2.2 ≤ 59 ∧ z.2.1 * 60 + z.2.2 ≤ 840) :
    (if expectsTimeZone w.text then parseTimeZone w.text else some ⟨0, zero_timeZone⟩) = none := by
  rw [expectsTimeZone_text hw]
  cases hzone : w.zone with
  | none => exact absurd (by simp [hzone]) hrange
  | some z =>
      have hparse := parseTimeZone_text hw hzone
      rw [if_neg (by simpa [hzone] using hrange), Option.map_eq_none_iff] at hparse
      rw [Option.isSome_some, if_pos rfl, hparse]

theorem toParse_text (hw : w.Fits) :
    (if expectsTimeZone w.text then w.text.take (w.text.length - 6) else w.text) = w.localText := by
  rw [expectsTimeZone_text hw]
  cases hzone : w.zone with
  | none => exact text_eq_of_none hzone
  | some z => exact take_text hw hzone

/-- The result for a text of the pattern. -/
theorem newTimestampFromString_text (hw : w.Fits) :
    (w.InRange → ∃ t, newTimestampFromString w.text = .ok t ∧ w.Denotes t) ∧
      (¬w.InRange → newTimestampFromString w.text =
        .error (sqlstate42601 s!"TIMESTAMP '{w.text.str}' is not valid")) := by
  have hmatch : matchesTimestamp (expectsTimeZone w.text) w.text = true :=
    matchesTimestamp_iff.mpr ⟨w, hw, (expectsTimeZone_text hw).symm, rfl⟩
  unfold newTimestampFromString
  simp only [hmatch, toParse_text hw, precision_localText hw,
    parseTimestampComponents_localText hw]
  by_cases hzone : ∀ z ∈ w.zone, z.2.2 ≤ 59 ∧ z.2.1 * 60 + z.2.2 ≤ 840
  · obtain ⟨timeZone, hval, hsome⟩ := zone_text hw hzone
    rw [hsome]
    by_cases hrange : w.LocalInRange
    · have hcarried := carried_components hw hrange
      simp only [if_pos hrange, newLenientTime_eq hcarried, dif_pos hcarried.1]
      refine ⟨fun _ => ⟨_, rfl, ?_, hval, rfl⟩, fun hnot => absurd ⟨hrange, hzone⟩ hnot⟩
      rw [expectsTimeZone_text hw]
      rfl
    · simp only [if_neg hrange]
      exact ⟨fun h => absurd h.toLocalInRange hrange, fun _ => rfl⟩
  · rw [zone_text_none hw hzone]
    exact ⟨fun h => absurd h.zone hzone, fun _ => rfl⟩

theorem Denotes.unique {t u : Time} (ht : w.Denotes t) (hu : w.Denotes u) : t = u := by
  obtain ⟨typ, timeZone, t, hvalid⟩ := t
  obtain ⟨typ', timeZone', t', hvalid'⟩ := u
  obtain rfl : typ = typ' := ht.typ.trans hu.typ.symm
  obtain rfl : timeZone = timeZone' := Subtype.ext (ht.timeZone.trans hu.timeZone.symm)
  obtain rfl : t = t' := ht.t.trans hu.t.symm
  rfl

theorem newTimestampFromString_text_eq_ok (hw : w.Fits) {t : Time} :
    newTimestampFromString w.text = .ok t ↔ w.InRange ∧ w.Denotes t := by
  obtain ⟨hread, herror⟩ := newTimestampFromString_text hw
  by_cases hrange : w.InRange
  · obtain ⟨u, hu, hdenotes⟩ := hread hrange
    rw [hu]
    constructor
    · rintro h
      cases h
      exact ⟨hrange, hdenotes⟩
    · rintro ⟨-, ht⟩
      rw [ht.unique hdenotes]
  · rw [herror hrange]
    exact iff_of_false nofun fun h => hrange h.1

end TimestampText

theorem newTimestampFromString_eq_ok {s : Text} {t : Time} :
    newTimestampFromString s = .ok t ↔
      ∃ w : TimestampText, w.Fits ∧ w.InRange ∧ s = w.text ∧ w.Denotes t := by
  constructor
  · intro h
    cases hmatch : matchesTimestamp (expectsTimeZone s) s with
    | false =>
        simp only [newTimestampFromString, hmatch] at h
        cases h
    | true =>
        obtain ⟨w, hw, -, rfl⟩ := matchesTimestamp_iff.mp hmatch
        obtain ⟨hrange, hdenotes⟩ := (TimestampText.newTimestampFromString_text_eq_ok hw).mp h
        exact ⟨w, hw, hrange, rfl, hdenotes⟩
  · rintro ⟨w, hw, hrange, rfl, hdenotes⟩
    exact (TimestampText.newTimestampFromString_text_eq_ok hw).mpr ⟨hrange, hdenotes⟩

/-- A timestamp is read from the texts whose fields fit the pattern and are in range, and
every other text is not valid. -/
theorem timestamp_of_text :
    (∀ w : TimestampText, w.Fits → w.InRange →
      ∃ t, newTimestampFromString w.text = .ok t ∧ w.Denotes t) ∧
    ∀ s : Text, (∀ w : TimestampText, w.Fits → w.InRange → s ≠ w.text) →
      newTimestampFromString s =
        .error (sqlstate42601 s!"TIMESTAMP '{s.str}' is not valid") := by
  refine ⟨fun w hw => (TimestampText.newTimestampFromString_text hw).1, fun s hother => ?_⟩
  cases hmatch : matchesTimestamp (expectsTimeZone s) s with
  | false =>
      unfold newTimestampFromString
      rw [hmatch, if_pos rfl]
  | true =>
      obtain ⟨w, hw, -, rfl⟩ := matchesTimestamp_iff.mp hmatch
      exact (TimestampText.newTimestampFromString_text hw).2 fun hrange =>
        hother w hw hrange rfl

/-- `2016-12-31 23:59:60.25-05:30` -/
def leapSecondText : TimestampText where
  year := 2016
  month := 12
  day := 31
  separator := ' '
  hour := 23
  minute := 59
  second := 60
  fraction := ['2', '5']
  zone := some (true, 5, 30)

/-- The leap second is the first one of the next year. -/
theorem timestamp_of_text_leapSecond :
    ∃ t, newTimestampFromString "2016-12-31 23:59:60.25-05:30".toList = .ok t ∧
      t.t = ⟨2017, 1, 1, 0, 0, 0, 250000000⟩ ∧ t.timeZone.1 = -330 := by
  have hfits : leapSecondText.Fits := by
    refine ⟨by decide, by decide, by decide, by decide, by decide, by decide, by decide,
      ⟨by simp [Digits, leapSecondText], by decide⟩, ?_⟩
    rintro z ⟨rfl⟩
    decide
  have hrange : leapSecondText.InRange := by
    refine ⟨⟨by decide, by decide, by decide, by decide, by decide, by decide⟩, ?_⟩
    rintro z ⟨rfl⟩
    decide
  obtain ⟨t, ht, hdenotes⟩ := timestamp_of_text.1 leapSecondText hfits hrange
  have htext : leapSecondText.text = "2016-12-31 23:59:60.25-05:30".toList := by decide +kernel
  rw [htext] at ht
  refine ⟨t, ht, hdenotes.t.trans ?_, hdenotes.timeZone⟩
  decide +kernel

end Vsql
