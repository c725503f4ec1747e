import Nntp.Proto.Date

/-!
# The Date header

`parse_date` of `date.rs`: comments are taken out, the rest is cut into tokens, and each field is read from the
token in its place. `ReadsAs` says what the tokens of a date have to be like.

What of `chrono` is used stands beside it: which fields make a day and a time of day, which offsets there are,
and that the instant has to be one in UTC too.
-/

namespace Nntp.Proto

def isAsciiAlphabetic (c : Char) : Bool :=
  (0x41 ≤ c.toNat && c.toNat ≤ 0x5A) || (0x61 ≤ c.toNat && c.toNat ≤ 0x7A)

theorem isAsciiGraphic_of_isAsciiAlphabetic {c : Char} (h : isAsciiAlphabetic c = true) : isAsciiGraphic c = true := by
  unfold isAsciiAlphabetic at h
  unfold isAsciiGraphic
  grind

/-- A `NaiveDateTime`: the reading of a clock, wherever it stands. -/
abbrev NaiveDateTime := UtcTime

/-- A `DateTime<FixedOffset>`: the reading of a clock and how many seconds east of UTC it stands. -/
structure ZonedTime where
  naive : NaiveDateTime
  offset : Int
  deriving DecidableEq, Repr

namespace Date

/-! ## Fields of `chrono` -/

/-- The years of a `NaiveDate`. -/
def minYear : Int := -262143

def maxYear : Int := 262142

/-- `NaiveDate::from_ymd_opt` and `and_hms_opt`. -/
def naiveDateTime (year : Int) (month day hour minute second : Nat) : Option NaiveDateTime :=
  let naive : NaiveDateTime := { year, month, day, hour, minute, second }
  if minYear ≤ year ∧ year ≤ maxYear ∧ naive.isReal = true then some naive else none

/-- `FixedOffset::east_opt`. -/
def eastOpt (seconds : Int) : Option Int := if -86400 < seconds ∧ seconds < 86400 then some seconds else none

/-- The day in UTC is a `NaiveDate`. -/
def utcInRange (naive : NaiveDateTime) (offset : Int) : Bool :=
  let seconds : Int := naive.hour * 3600 + naive.minute * 60 + naive.second - offset
  !(naive.year == minYear && naive.month == 1 && naive.day == 1 && decide (seconds < 0)) &&
    !(naive.year == maxYear && naive.month == 12 && naive.day == 31 && decide (86400 ≤ seconds))

/-- `from_local_datetime`, where it has a `single` answer. -/
def fromLocal (naive : NaiveDateTime) (offset : Int) : Option ZonedTime :=
  if utcInRange naive offset then some { naive, offset } else none

theorem naiveDateTime_eq_some {year : Int} {month day hour minute second : Nat} {naive : NaiveDateTime} :
    naiveDateTime year month day hour minute second = some naive ↔
      naive = ⟨year, month, day, hour, minute, second⟩ ∧ (minYear ≤ naive.year ∧ naive.year ≤ maxYear) ∧
        naive.isReal = true := by
  unfold naiveDateTime
  dsimp only
  constructor
  · intro h
    split_ifs at h with hreal
    cases h
    exact ⟨rfl, ⟨hreal.1, hreal.2.1⟩, hreal.2.2⟩
  · rintro ⟨rfl, hyears, hreal⟩
    exact if_pos ⟨hyears.1, hyears.2, hreal⟩

theorem eastOpt_eq_some {seconds offset : Int} :
    eastOpt seconds = some offset ↔ offset = seconds ∧ -86400 < offset ∧ offset < 86400 := by
  unfold eastOpt
  constructor
  · intro h
    split_ifs at h with hrange
    cases h
    exact ⟨rfl, hrange⟩
  · rintro ⟨rfl, hrange⟩
    exact if_pos hrange

theorem fromLocal_eq_some {naive : NaiveDateTime} {offset : Int} {date : ZonedTime} :
    fromLocal naive offset = some date ↔ date = ⟨naive, offset⟩ ∧ utcInRange date.naive date.offset = true := by
  unfold fromLocal
  constructor
  · intro h
    split_ifs at h with hutc
    cases h
    exact ⟨rfl, hutc⟩
  · rintro ⟨rfl, hutc⟩
    exact if_pos hutc

/-! ## Tokens -/

/-- What is left of a text that begins inside `depth` comments. -/
def stripCommentsFrom : Nat → Str → Str
  | _, [] => []
  | depth, ch :: value =>
      if ch = '(' then stripCommentsFrom (depth + 1) value
      else if ch = ')' then stripCommentsFrom (depth - 1) value
      else if depth = 0 then ch :: stripCommentsFrom depth value
      else stripCommentsFrom depth value

/-- Removes comments, which may nest. -/
def stripComments (value : Str) : Str := stripCommentsFrom 0 value

def isSeparator (c : Char) : Bool := isWhitespace c || c == ','

/-- The tokens of a date, without the day of the week in front of them. -/
def dateTokens (value : Str) : List Str :=
  let tokens := words isSeparator (stripComments value)
  if (tokens.head?.bind List.head?).any isAsciiAlphabetic then tokens.tail else tokens

theorem pieces_whole {s : Str} {sep : Char} (h : sep ∉ s) : pieces (· == sep) s = [s] :=
  pieces_of_none (beq_of_not_mem h)

/-- The pieces of a text: the first, in front of a separator. -/
theorem pieces_first {s : Str} {sep : Char} (h : sep ∉ s) (rest : Str) :
    pieces (· == sep) (s ++ sep :: rest) = s :: pieces (· == sep) rest := by
  have hsplit := @pieces_append Char (· == sep) sep (beq_self_eq_true sep) s rest
  rw [hsplit, pieces_whole h]
  rfl

/-! ## Fields -/

def months : List Str :=
  ["jan", "feb", "mar", "apr", "may", "jun", "jul", "aug", "sep", "oct", "nov", "dec"].map String.toList

/-- The first three letters of a month decide. -/
def parseMonth (token : Str) : Option Nat := do
  let (front, _) ← cutText token 3
  let index ← months.idxOf? (toAsciiLowercase front)
  pure (index + 1)

def parseYear (token : Str) : Option Int := do
  let year ← parseI32 token
  if utf8Len token = 1 ∨ utf8Len token = 2 then
    -- two digits are a year between 1950 and 2049
    pure (if year < 50 then 2000 + year else 1900 + year)
  else if utf8Len token = 3 then pure (1900 + year)
  else pure year

def parseTime (token : Str) : Option (Nat × Nat × Nat) :=
  match pieces (· == ':') token with
  | [hour, minute] => do
      let hour ← parseU32 hour
      let minute ← parseU32 minute
      pure (hour, minute, 0)
  | [hour, minute, second] => do
      let hour ← parseU32 hour
      let minute ← parseU32 minute
      let second ← parseU32 second
      -- a leap second is one that no calendar type accepts
      pure (hour, minute, min second 59)
  | _ => none

def parseNumericZone (digits : Str) (sign : Int) : Option Int :=
  let digits := digits.filter (· != ':')
  if utf8Len digits ≠ 4 ∨ digits.all isAsciiDigit = false then none
  else do
    let (hours, minutes) ← cutText digits 2
    let hours ← parseI32 hours
    let minutes ← parseI32 minutes
    if 59 < minutes then none else pure (sign * (hours * 3600 + minutes * 60))

/-- The hours of the zones with a name. -/
def zoneHours : List (Str × Int) :=
  [("UT", 0), ("UTC", 0), ("GMT", 0), ("Z", 0), ("EST", -5), ("EDT", -4), ("CST", -6), ("CDT", -5),
    ("MST", -7), ("MDT", -6), ("PST", -8), ("PDT", -7)].map fun zone => (zone.1.toList, zone.2)

/-- Parses a time zone into an offset in seconds east of UTC. -/
def parseZone (token : Str) : Option Int :=
  match stripPrefix ['+'] token, stripPrefix ['-'] token with
  | some digits, _ => parseNumericZone digits 1
  | none, some digits => parseNumericZone digits (-1)
  | none, none =>
      let name := token.map toAsciiUpper
      match zoneHours.lookup name with
      | some hours => some (hours * 3600)
      | none => if utf8Len name = 1 ∧ name.all (·.toNat < 0x80) then some 0 else none

/-- The date that the tokens describe. -/
def readTokens (tokens : List Str) : Option ZonedTime := do
  let day ← parseU32 (← tokens[0]?)
  let month ← parseMonth (← tokens[1]?)
  let year ← parseYear (← tokens[2]?)
  let (hour, minute, second) ← match tokens[3]? with
    | some time => parseTime time
    | none => some (0, 0, 0)
  let offset ← match tokens[4]? with
    | some zone => parseZone zone
    | none => some 0
  let naive ← naiveDateTime year month day hour minute second
  let offset ← eastOpt offset
  fromLocal naive offset

/-- Parses a `Date` header value into a date-time with its original UTC offset. -/
def parseDate (value : Str) : Except ProtoError ZonedTime :=
  match readTokens (dateTokens value) with
  | some date => .ok date
  | none => .error (.invalidDate (trim value))

example : parseDate "Wed, 17 Sep 2026 08:09 -0700 (PDT (really))".toList =
    .ok ⟨⟨2026, 9, 17, 8, 9, 0⟩, -25200⟩ := by decide +kernel

/-! ## What a date has to be like -/

/-- The time of day of a date, midnight if it has none. -/
def timeOf : Option Str → Option (Nat × Nat × Nat)
  | some time => parseTime time
  | none => some (0, 0, 0)

/-- The offset of a date, none of them for one without a zone. -/
def offsetOf : Option Str → Option Int
  | some zone => parseZone zone
  | none => some 0

/-- The tokens are those of a date: every field is read, and they are those of a real instant. -/
structure ReadsAs (tokens : List Str) (date : ZonedTime) : Prop where
  day : tokens[0]?.bind parseU32 = some date.naive.day
  month : tokens[1]?.bind parseMonth = some date.naive.month
  year : tokens[2]?.bind parseYear = some date.naive.year
  time : timeOf tokens[3]? = some (date.naive.hour, date.naive.minute, date.naive.second)
  zone : offsetOf tokens[4]? = some date.offset
  years : minYear ≤ date.naive.year ∧ date.naive.year ≤ maxYear
  real : date.naive.isReal = true
  offset : -86400 < date.offset ∧ date.offset < 86400
  utc : utcInRange date.naive date.offset = true

/-- **What the tokens are read as.** -/
theorem readTokens_eq_some {tokens : List Str} {date : ZonedTime} :
    readTokens tokens = some date ↔ ReadsAs tokens date := by
  have hread : readTokens tokens = (do
      let day ← tokens[0]?.bind parseU32
      let month ← tokens[1]?.bind parseMonth
      let year ← tokens[2]?.bind parseYear
      let time ← timeOf tokens[3]?
      let offset ← offsetOf tokens[4]?
      let naive ← naiveDateTime year month day time.1 time.2.1 time.2.2
      let offset ← eastOpt offset
      fromLocal naive offset) := by
    unfold readTokens timeOf offsetOf
    simp only [Option.bind_eq_bind, Option.bind_assoc]
    cases tokens[3]? <;> cases tokens[4]? <;> rfl
  have hfields : readTokens tokens = some date ↔ ∃ day, tokens[0]?.bind parseU32 = some day ∧
      ∃ month, tokens[1]?.bind parseMonth = some month ∧ ∃ year, tokens[2]?.bind parseYear = some year ∧
      ∃ time, timeOf tokens[3]? = some time ∧ ∃ offset, offsetOf tokens[4]? = some offset ∧
      ∃ naive, naiveDateTime year month day time.1 time.2.1 time.2.2 = some naive ∧
      ∃ east, eastOpt offset = some east ∧ fromLocal naive east = some date := by
    rw [hread]
    generalize tokens[0]?.bind parseU32 = day
    generalize tokens[1]?.bind parseMonth = month
    generalize tokens[2]?.bind parseYear = year
    simp only [Option.bind_eq_bind, Option.bind_eq_some_iff]
  rw [hfields]
  constructor
  · rintro ⟨day, hday, month, hmonth, year, hyear, time, htime, offset, hzone, naive, hnaive, east, heast, hlocal⟩
    obtain ⟨rfl, hyears, hreal⟩ := naiveDateTime_eq_some.mp hnaive
    obtain ⟨rfl, hoffset⟩ := eastOpt_eq_some.mp heast
    obtain ⟨rfl, hutc⟩ := fromLocal_eq_some.mp hlocal
    exact ⟨hday, hmonth, hyear, htime, hzone, hyears, hreal, hoffset, hutc⟩
  · rintro ⟨hday, hmonth, hyear, htime, hzone, hyears, hreal, hoffset, hutc⟩
    exact ⟨_, hday, _, hmonth, _, hyear, _, htime, _, hzone, date.naive,
      naiveDateTime_eq_some.mpr ⟨rfl, hyears, hreal⟩, date.offset, eastOpt_eq_some.mpr ⟨rfl, hoffset⟩,
      fromLocal_eq_some.mpr ⟨rfl, hutc⟩⟩

/-- **When a header is a date**, and which. -/
theorem parseDate_eq_ok {value : Str} {date : ZonedTime} :
    parseDate value = .ok date ↔ ReadsAs (dateTokens value) date := by
  rw [← readTokens_eq_some]
  unfold parseDate
  cases readTokens (dateTokens value) <;> simp

/-- Everything else is refused, as it came. -/
theorem parseDate_eq_error {value : Str} (h : ∀ date, ¬ ReadsAs (dateTokens value) date) :
    parseDate value = .error (.invalidDate (trim value)) := by
  unfold parseDate
  cases hread : readTokens (dateTokens value) with
  | none => rfl
  | some date => exact absurd (readTokens_eq_some.mp hread) (h date)

end Date

end Nntp.Proto
