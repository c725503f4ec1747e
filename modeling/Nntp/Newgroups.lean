import Mathlib.Tactic.IntervalCases
import Mathlib.Tactic.Linarith
import Mathlib.Tactic.Ring
import Nntp.Exchange
import Nntp.Proto.Encoding

/-!
# The date of `NEWGROUPS`

The client writes an instant as the digits of its date and time, and the server makes seconds since 1970 of
them again, with a day count of its own. Here the days are counted from the calendar, year by year and month by
month, and `daysFromCivil` agrees with that.
-/

namespace Nntp

open Nntp.Lib Nntp.Proto Nntp.TestServer

/-! ## Days by the calendar -/

/-- The days of the first `months` months of a year. -/
def daysOfMonths (year : Int) (months : Nat) : Nat :=
  ((List.range months).map fun k => daysInMonth year (k + 1)).sum

/-- The days of the first `years` years since 1970. -/
def daysOfYears (years : Nat) : Nat := ((List.range years).map fun k : Nat => daysOfMonths (1970 + k) 12).sum

/-- How many days came after 1970-01-01 up to a date. -/
def daysSince1970 (year : Int) (month day : Nat) : Nat :=
  daysOfYears (year - 1970).toNat + daysOfMonths year (month - 1) + (day - 1)

/-- The seconds since the epoch. -/
def unixSeconds (t : UtcTime) : Nat :=
  daysSince1970 t.year t.month t.day * 86400 + t.hour * 3600 + t.minute * 60 + t.second

example : daysSince1970 2000 3 1 = 11017 := by decide

theorem daysOfYears_succ (years : Nat) :
    daysOfYears (years + 1) = daysOfYears years + daysOfMonths (1970 + years) 12 := by
  unfold daysOfYears
  rw [List.range_succ, List.map_append, List.sum_append]
  simp

/-- The leap year rule, as a difference of quotients. -/
theorem daysInMonth_february (year : Int) :
    (daysInMonth year 2 : Int) =
      28 + (year / 4 - (year - 1) / 4) - (year / 100 - (year - 1) / 100) + (year / 400 - (year - 1) / 400) := by
  have h4 : year / 4 - (year - 1) / 4 = if year % 4 = 0 then 1 else 0 := by split <;> omega
  have h100 : year / 100 - (year - 1) / 100 = if year % 100 = 0 then 1 else 0 := by split <;> omega
  have h400 : year / 400 - (year - 1) / 400 = if year % 400 = 0 then 1 else 0 := by split <;> omega
  have hleap : isLeapYear year = true ↔ year % 4 = 0 ∧ (year % 100 ≠ 0 ∨ year % 400 = 0) := by
    simp [isLeapYear]
  have hdays : daysInMonth year 2 = if year % 4 = 0 ∧ (year % 100 ≠ 0 ∨ year % 400 = 0) then 29 else 28 := by
    unfold daysInMonth
    rw [if_pos rfl]
    exact if_congr hleap rfl rfl
  rw [h4, h100, h400, hdays]
  split_ifs <;> omega

/-- The days of the months in front of a month, with those of February. -/
theorem daysOfMonths_eq (year : Int) {months : Nat} (h : months ≤ 12) :
    daysOfMonths year months =
      if months < 2 then 31 * months else (153 * (months - 2) + 2) / 5 + 31 + daysInMonth year 2 := by
  unfold daysOfMonths
  interval_cases months <;> simp [List.range_succ, daysInMonth] <;> omega

/-- The days up to a new year, counted as the server counts them: in years that begin in March. -/
theorem daysOfYears_eq (years : Nat) :
    (daysOfYears years : Int) =
      365 * (1969 + years) + (1969 + years) / 4 - (1969 + years) / 100 + (1969 + years) / 400 + 306 - 719468 := by
  induction years with
  | zero => rfl
  | succ years ih =>
      have hmonths := daysOfMonths_eq (1970 + years) (Nat.le_refl 12)
      have hfebruary := daysInMonth_february (1970 + years)
      have hnext : (1969 + (years + 1) : Int) = 1970 + years := by ring
      have hpast : (1970 + years : Int) - 1 = 1969 + years := by ring
      rw [if_neg (by decide)] at hmonths
      rw [hpast] at hfebruary
      rw [daysOfYears_succ, hmonths]
      push_cast
      rw [hnext]
      linarith only [ih, hfebruary]

/-! ## Days by the era -/

/-- The days of whole years, from the era and the year of the era. -/
theorem era_eq {year : Int} (h : 0 ≤ year) :
    let era := (if 0 ≤ year then year else year - 399).tdiv 400
    let yearOfEra := year - era * 400
    era * 146097 + (yearOfEra * 365 + yearOfEra.tdiv 4 - yearOfEra.tdiv 100) =
      365 * year + year / 4 - year / 100 + year / 400 := by
  intro era yearOfEra
  have hera : era = year / 400 := by
    show (if 0 ≤ year then year else year - 399).tdiv 400 = _
    rw [if_pos h, Int.tdiv_eq_ediv_of_nonneg h]
  have hwhole : year = era * 400 + yearOfEra := by omega
  have hnonneg : 0 ≤ yearOfEra ∧ yearOfEra < 400 := by omega
  have h4 : (era * 400 + yearOfEra) / 4 = era * 100 + yearOfEra / 4 := by omega
  have h100 : (era * 400 + yearOfEra) / 100 = era * 4 + yearOfEra / 100 := by omega
  rw [Int.tdiv_eq_ediv_of_nonneg hnonneg.1, Int.tdiv_eq_ediv_of_nonneg hnonneg.1, ← hera]
  clear_value era yearOfEra
  rw [hwhole, h4, h100]
  ring

/-- A date early in the year counts as one at the end of the year before. -/
theorem daysFromCivil_early {year : Int} {month : Nat} (day : Nat) (hyear : 1 ≤ year) (hmonth : month ≤ 2) :
    daysFromCivil year month day =
      365 * (year - 1) + (year - 1) / 4 - (year - 1) / 100 + (year - 1) / 400 +
        ((153 * ((month : Int) + 9) + 2) / 5 + day - 1) - 719468 := by
  have hera := @era_eq (year - 1) (by omega)
  have hlate : ¬ 2 < (month : Int) := by omega
  have hshift : 0 ≤ 153 * ((month : Int) + 9) + 2 := by omega
  unfold daysFromCivil
  dsimp only at hera ⊢
  rw [if_pos hmonth, if_neg hlate, Int.tdiv_eq_ediv_of_nonneg hshift, ← hera]
  ring

theorem daysFromCivil_late {year : Int} {month : Nat} (day : Nat) (hyear : 0 ≤ year) (hmonth : ¬ month ≤ 2) :
    daysFromCivil year month day =
      365 * year + year / 4 - year / 100 + year / 400 + ((153 * ((month : Int) - 3) + 2) / 5 + day - 1) - 719468 := by
  have hera := era_eq hyear
  have hlate : 2 < (month : Int) := by omega
  have hshift : 0 ≤ 153 * ((month : Int) - 3) + 2 := by omega
  unfold daysFromCivil
  dsimp only at hera ⊢
  rw [if_neg hmonth, if_pos hlate, Int.tdiv_eq_ediv_of_nonneg hshift, ← hera]
  ring

/-- The days of the months since March. -/
theorem days_since_march {months : Nat} (h : 2 ≤ months) :
    (153 * ((months + 1 : Nat) - 3 : Int) + 2) / 5 = ((153 * (months - 2) + 2) / 5 : Nat) := by omega

/-- **The server's day count is the calendar's**, from 1970 on. -/
theorem daysFromCivil_eq {year : Int} {month day : Nat} (hyear : 1970 ≤ year) (hmonth : 1 ≤ month ∧ month ≤ 12)
    (hday : 1 ≤ day) : daysFromCivil year month day = daysSince1970 year month day := by
  obtain ⟨years, rfl⟩ : ∃ years : Nat, year = 1970 + years := ⟨(year - 1970).toNat, by omega⟩
  obtain ⟨months, rfl⟩ := Nat.exists_eq_add_of_le' hmonth.1
  obtain ⟨days, rfl⟩ := Nat.exists_eq_add_of_le' hday
  have hyears : ((1970 + years : Int) - 1970).toNat = years := by omega
  have hpast : (1970 + years : Int) - 1 = 1969 + years := by omega
  have hmonths := daysOfMonths_eq (1970 + years) (show months ≤ 12 by omega)
  have hbefore := daysOfYears_eq years
  unfold daysSince1970
  rw [hyears, Nat.add_sub_cancel, Nat.add_sub_cancel]
  -- January and February come at the end of the year before
  by_cases hearly : months + 1 ≤ 2
  · have hshift : (153 * ((months + 1 : Nat) + 9 : Int) + 2) / 5 = 306 + 31 * months := by omega
    rw [if_pos (by omega)] at hmonths
    rw [daysFromCivil_early (days + 1) (by omega) hearly, hmonths, hshift, hpast]
    push_cast
    linarith only [hbefore]
  · have hfebruary := daysInMonth_february (1970 + years)
    rw [if_neg (by omega)] at hmonths
    rw [hpast] at hfebruary
    rw [daysFromCivil_late (days + 1) (by omega) hearly, hmonths, days_since_march (by omega)]
    push_cast
    linarith only [hbefore, hfebruary]

/-! ## Reading the digits -/

/-- A piece of a text, with digits in front of it. -/
theorem textBetween_digits {before between : Str} {low high : Nat} (hbefore : ∀ c ∈ before, isAsciiDigit c = true)
    (hbetween : ∀ c ∈ between, isAsciiDigit c = true) (rest : Str) (hlow : before.length = low)
    (hhigh : before.length + between.length = high) :
    textBetween (before ++ between ++ rest) low high = some between := by
  have hboth : ∀ c ∈ before ++ between, isAsciiDigit c = true := by
    intro c hc
    rcases List.mem_append.mp hc with hc | hc
    · exact hbefore c hc
    · exact hbetween c hc
  have hcut := cutText_digits hboth rest
  rw [List.length_append, hhigh] at hcut
  unfold textBetween
  rw [hcut, Option.bind_eq_bind, Option.bind_some]
  dsimp only
  rw [← hlow, cutText_digits hbefore between]
  rfl

theorem parseYear_padded {year : Nat} {rest : Str} (h : year < 10000) (hrest : ∀ c ∈ rest, isAsciiDigit c = true)
    (hlen : rest.length = 4) : parseYear (padded 4 year ++ rest) = some ((year : Int), rest) := by
  obtain ⟨ylen, ydigits, -⟩ := padded_spec (by decide : 0 < 4) (show year < 10 ^ 4 from h)
  have hcut := cutText_digits ydigits rest
  rw [ylen] at hcut
  unfold parseYear
  rw [utf8Len_append, utf8Len_digits ydigits, utf8Len_digits hrest, ylen, hlen, if_pos (by decide), hcut,
    Option.bind_eq_bind, Option.bind_some]
  dsimp only
  rw [parseI32_padded (by decide) h (h.trans (by decide))]
  rfl

/-- The pieces of a time of day. -/
theorem textBetween_time {hour minute second : Nat} (hhour : hour < 100) (hminute : minute < 100)
    (hsecond : second < 100) :
    let time := padded 2 hour ++ padded 2 minute ++ padded 2 second
    textBetween time 0 2 = some (padded 2 hour) ∧ textBetween time 2 4 = some (padded 2 minute) ∧
      textBetween time 4 6 = some (padded 2 second) := by
  obtain ⟨hourLen, hourDigits, -⟩ := padded_spec (by decide : 0 < 2) (show hour < 10 ^ 2 from hhour)
  obtain ⟨minuteLen, minuteDigits, -⟩ := padded_spec (by decide : 0 < 2) (show minute < 10 ^ 2 from hminute)
  obtain ⟨secondLen, secondDigits, -⟩ := padded_spec (by decide : 0 < 2) (show second < 10 ^ 2 from hsecond)
  have hboth : ∀ c ∈ padded 2 hour ++ padded 2 minute, isAsciiDigit c = true := fun c hc =>
    (List.mem_append.mp hc).elim (hourDigits c) (minuteDigits c)
  have hnone : ∀ c ∈ ([] : Str), isAsciiDigit c = true := fun _ h => absurd h List.not_mem_nil
  have hfirst := textBetween_digits hnone hourDigits (padded 2 minute ++ padded 2 second) rfl
    (show [].length + (padded 2 hour).length = 2 by rw [hourLen]; rfl)
  have hmiddle := textBetween_digits hourDigits minuteDigits (padded 2 second) hourLen
    (show _ = 4 by rw [hourLen, minuteLen])
  have hlast := textBetween_digits hboth secondDigits [] (show _ = 4 by rw [List.length_append, hourLen, minuteLen])
    (show _ = 6 by rw [List.length_append, hourLen, minuteLen, secondLen])
  rw [List.nil_append, ← List.append_assoc] at hfirst
  rw [List.append_nil] at hlast
  exact ⟨hfirst, hmiddle, hlast⟩

/-- The date, when every part of it is read and in range. -/
theorem parseNewgroupsDate_of_parts {date time rest monthText dayText hourText minuteText secondText : Str} {year : Int}
    {month day hour minute second : Nat} (hyear : parseYear date = some (year, rest))
    (hsplit : cutText rest 2 = some (monthText, dayText)) (hmonth : parseU32 monthText = some month)
    (hday : parseU32 dayText = some day) (hhours : textBetween time 0 2 = some hourText)
    (hhour : parseU32 hourText = some hour) (hminutes : textBetween time 2 4 = some minuteText)
    (hminute : parseU32 minuteText = some minute) (hseconds : textBetween time 4 6 = some secondText)
    (hsecond : parseU32 secondText = some second) (hdate : (1 ≤ month ∧ month ≤ 12) ∧ 1 ≤ day ∧ day ≤ 31)
    (hclock : hour ≤ 23 ∧ minute ≤ 59 ∧ second ≤ 60) (zone : List Str) :
    parseNewgroupsDate (date :: time :: zone) = some (UInt64.ofNat
      (daysFromCivil year month day * 86400 + hour * 3600 + minute * 60 + second).toNat) := by
  unfold parseNewgroupsDate
  rw [List.getElem?_cons_zero, Option.bind_eq_bind, Option.bind_some, List.getElem?_cons_succ, List.getElem?_cons_zero,
    Option.bind_eq_bind, Option.bind_some, hyear, Option.bind_eq_bind, Option.bind_some]
  dsimp only
  rw [hsplit, Option.bind_eq_bind, Option.bind_some]
  dsimp only
  rw [hmonth, hday, hhours, hminutes, hseconds]
  simp only [Option.bind_some, hhour, hminute, hsecond]
  rw [if_neg (by omega), if_neg (by omega)]
  rfl

/-- **The server reads the digits of an instant as its seconds.** -/
theorem parseNewgroupsDate_display {since : UtcTime} (hreal : since.isReal = true)
    (hyear : 1970 ≤ since.year ∧ since.year ≤ 9999) (zone : List Str) :
    parseNewgroupsDate ((displayYear since.year ++ padded 2 since.month ++ padded 2 since.day) ::
      (padded 2 since.hour ++ padded 2 since.minute ++ padded 2 since.second) :: zone) =
        some (UInt64.ofNat (unixSeconds since)) := by
  obtain ⟨hmonth, hday, hhour, hminute, hsecond⟩ := isReal_bounds hreal
  have hwhole : (since.year.toNat : Int) = since.year := by omega
  have hdigits : displayYear since.year = padded 4 since.year.toNat := by
    unfold displayYear
    rw [if_pos ⟨by omega, hyear.2⟩]
  -- the date
  obtain ⟨monthLen, monthDigits, -⟩ := padded_spec (by decide : 0 < 2) (show since.month < 10 ^ 2 by omega)
  obtain ⟨dayLen, dayDigits, -⟩ := padded_spec (by decide : 0 < 2) (show since.day < 10 ^ 2 by omega)
  have hdate : ∀ c ∈ padded 2 since.month ++ padded 2 since.day, isAsciiDigit c = true := fun c hc =>
    (List.mem_append.mp hc).elim (monthDigits c) (dayDigits c)
  have hparsed := parseYear_padded (show since.year.toNat < 10000 by omega) hdate
    (by rw [List.length_append, monthLen, dayLen])
  have hsplit := cutText_digits monthDigits (padded 2 since.day)
  rw [monthLen] at hsplit
  rw [hwhole, ← List.append_assoc, ← hdigits] at hparsed
  -- the time of day
  obtain ⟨hhours, hminutes, hseconds⟩ := textBetween_time (show since.hour < 100 by omega)
    (show since.minute < 100 by omega) (show since.second < 100 by omega)
  have hread : ∀ {n : Nat}, n < 100 → parseU32 (padded 2 n) = some n := fun h =>
    parseU32_padded (by decide) h (h.trans (by decide))
  have hdays := daysFromCivil_eq hyear.1 hmonth hday.1
  rw [parseNewgroupsDate_of_parts hparsed hsplit (hread (by omega)) (hread (by omega)) hhours (hread (by omega))
    hminutes (hread (by omega)) hseconds (hread (by omega)) ⟨hmonth, hday⟩ (by omega), hdays]
  unfold unixSeconds
  rfl

/-! ## Over the wire -/

theorem UtcTime.inRange {since : UtcTime} (hreal : since.isReal = true) (hyear : 0 ≤ since.year ∧ since.year ≤ 9999) :
    since.InRange := by
  obtain ⟨hmonth, hday, hhour, hminute, hsecond⟩ := isReal_bounds hreal
  exact ⟨hyear, hmonth.2, hday.2, hhour, hminute, hsecond.le⟩

/-- The words of the command. -/
theorem words_newGroups {since : UtcTime} (h : since.InRange) :
    StatusLine.splitAsciiWhitespace (Command.newGroups since).line =
      ["NEWGROUPS".toList, displayYear since.year ++ padded 2 since.month ++ padded 2 since.day,
        padded 2 since.hour ++ padded 2 since.minute ++ padded 2 since.second, "GMT".toList] := by
  have hpadded : ∀ {width n}, 0 < width → n < 10 ^ width →
      padded width n ≠ [] ∧ ∀ c ∈ padded width n, isAsciiGraphic c = true := by
    intro width n hpos hn
    exact ⟨padded_ne_nil hpos hn, fun c hc => isAsciiGraphic_of_isAsciiDigit ((padded_spec hpos hn).2.1 c hc)⟩
  have htwo : ∀ {n}, n ≤ 60 → padded 2 n ≠ [] ∧ ∀ c ∈ padded 2 n, isAsciiGraphic c = true := fun hn =>
    hpadded (by decide) (Nat.lt_of_le_of_lt hn (by decide))
  obtain ⟨hyear, hdigits⟩ : displayYear since.year ≠ [] ∧ ∀ c ∈ displayYear since.year, isAsciiGraphic c = true := by
    have hyear := h.year
    unfold displayYear
    rw [if_pos hyear]
    exact hpadded (by decide) (by omega)
  have hdate : ∀ c ∈ displayYear since.year ++ padded 2 since.month ++ padded 2 since.day,
      isAsciiGraphic c = true := by
    simpa [or_imp, forall_and] using
      ⟨hdigits, (htwo (h.month.trans (by decide))).2, (htwo (h.day.trans (by decide))).2⟩
  have htime : ∀ c ∈ padded 2 since.hour ++ padded 2 since.minute ++ padded 2 since.second,
      isAsciiGraphic c = true := by
    simpa [or_imp, forall_and] using
      ⟨(htwo (h.hour.le.trans (by decide))).2, (htwo h.minute.le).2, (htwo h.second).2⟩
  have hline : (Command.newGroups since).line = "NEWGROUPS".toList ++ ' ' ::
      (displayYear since.year ++ padded 2 since.month ++ padded 2 since.day ++ ' ' ::
        (padded 2 since.hour ++ padded 2 since.minute ++ padded 2 since.second ++ ' ' :: ("GMT".toList ++ []))) := by
    show "NEWGROUPS ".toList ++ since.display ++ " GMT".toList = _
    have hverb : "NEWGROUPS ".toList = "NEWGROUPS".toList ++ [' '] := by decide
    have hzone : " GMT".toList = ' ' :: ("GMT".toList ++ []) := by decide
    unfold UtcTime.display
    rw [hverb, hzone]
    simp only [List.append_assoc, List.cons_append, List.nil_append]
  have hdate' : displayYear since.year ++ padded 2 since.month ++ padded 2 since.day ≠ [] := by simp [hyear]
  have htime' : padded 2 since.hour ++ padded 2 since.minute ++ padded 2 since.second ≠ [] := by
    simp [(htwo h.second).1]
  rw [hline]
  generalize displayYear since.year ++ padded 2 since.month ++ padded 2 since.day = date at *
  generalize padded 2 since.hour ++ padded 2 since.minute ++ padded 2 since.second = time at *
  have hverb : ∀ rest, StatusLine.splitAsciiWhitespace ("NEWGROUPS".toList ++ ' ' :: rest) =
      "NEWGROUPS".toList :: StatusLine.splitAsciiWhitespace rest := by
    intro rest
    rw [splitAsciiWhitespace_word (by decide) (forall_of_all (by decide)) (by simp), splitAsciiWhitespace_blank]
  have hzone : StatusLine.splitAsciiWhitespace ("GMT".toList ++ []) = ["GMT".toList] := by decide
  rw [hverb, splitAsciiWhitespace_word hdate' hdate (by simp), splitAsciiWhitespace_blank,
    splitAsciiWhitespace_word htime' htime (by simp), splitAsciiWhitespace_blank, hzone]

theorem daysOfMonths_le (year : Int) (months : Nat) : daysOfMonths year months ≤ 31 * months := by
  induction months with
  | zero => exact Nat.le_refl _
  | succ months ih =>
      have hmonth : daysInMonth year (months + 1) ≤ 31 := by
        unfold daysInMonth
        grind
      unfold daysOfMonths at ih ⊢
      rw [List.range_succ, List.map_append, List.sum_append, List.map_singleton, List.sum_singleton]
      omega

theorem daysOfYears_le (years : Nat) : daysOfYears years ≤ 372 * years := by
  induction years with
  | zero => exact Nat.le_refl _
  | succ years ih =>
      have hyear := daysOfMonths_le (1970 + years) 12
      rw [daysOfYears_succ]
      omega

/-- The seconds of an instant up to the year 9999 fit a word. -/
theorem unixSeconds_lt {since : UtcTime} (h : since.InRange) : unixSeconds since < 18446744073709551616 := by
  have hyears := daysOfYears_le (since.year - 1970).toNat
  have hmonths := daysOfMonths_le since.year (since.month - 1)
  obtain ⟨⟨-, hyear⟩, hmonth, hday, hhour, hminute, hsecond⟩ := h
  have hdays : daysSince1970 since.year since.month since.day ≤ 4000000 := by
    unfold daysSince1970
    omega
  have hbound : unixSeconds since < 400000000000 := by
    unfold unixSeconds
    omega
  exact hbound.trans (by decide)

/-- **`NEWGROUPS` carries an instant exactly**: the server reads its seconds out of the client's line. -/
theorem newGroups_exact {since : UtcTime} (hreal : since.isReal = true)
    (hyear : 1970 ≤ since.year ∧ since.year ≤ 9999) :
    daysFromCivil since.year since.month since.day = daysSince1970 since.year since.month since.day ∧
      ∃ octets seconds, (Command.newGroups since).toWire = .ok octets ∧
        parseNewgroupsDate (StatusLine.splitAsciiWhitespace (fromUtf8Lossy (trimEol octets))).tail = some seconds ∧
        seconds.toNat = unixSeconds since := by
  have hrange := UtcTime.inRange hreal ⟨by omega, hyear.2⟩
  refine ⟨?_, _, UInt64.ofNat (unixSeconds since), Command.finish_of_fits (Command.fits_line hrange), ?_, ?_⟩
  · obtain ⟨hmonth, hday, -⟩ := isReal_bounds hreal
    exact daysFromCivil_eq hyear.1 hmonth hday.1
  · have hcrlf : ∀ line : Bytes, trimEol (line ++ [0x0D, 0x0A]) = line := by
      intro line
      have hline := trimEol_crlf line
      rwa [List.append_assoc] at hline
    rw [hcrlf, fromUtf8Lossy_asBytes, words_newGroups hrange]
    exact parseNewgroupsDate_display hreal hyear _
  · exact UInt64.toNat_ofNat_of_lt' (unixSeconds_lt hrange)

/-- Leap day of 2000, shortly before midnight. -/
theorem newGroups_exact_leapDay :
    let since : UtcTime := ⟨2000, 2, 29, 23, 59, 58⟩
    daysFromCivil 2000 2 29 = daysSince1970 2000 2 29 ∧ unixSeconds since = 951868798 ∧
      ∃ octets seconds, (Command.newGroups since).toWire = .ok octets ∧
        parseNewgroupsDate (StatusLine.splitAsciiWhitespace (fromUtf8Lossy (trimEol octets))).tail = some seconds ∧
        seconds.toNat = unixSeconds since := by
  intro since
  obtain ⟨hdays, hseconds⟩ := @newGroups_exact since (by decide) ⟨by decide, by decide⟩
  exact ⟨hdays, by decide, hseconds⟩

end Nntp
