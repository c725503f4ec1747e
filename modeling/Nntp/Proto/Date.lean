import Nntp.Proto.Text

/-!
# The server's clock

Of `date.rs` the timestamp a server answers to `DATE`, and of `command.rs` how `NEWGROUPS` writes one. A
`DateTime<Utc>` is kept as its fields, to the second.
-/

namespace Nntp.Proto

/-- A `DateTime<Utc>`. -/
structure UtcTime where
  year : Int
  month : Nat
  day : Nat
  hour : Nat
  minute : Nat
  second : Nat
  deriving DecidableEq, Repr

def isLeapYear (year : Int) : Bool :=
  year % 4 == 0 && (year % 100 != 0 || year % 400 == 0)

/-- The number of days of a month, none for a number that is no month. -/
def daysInMonth (year : Int) (month : Nat) : Nat :=
  if month = 2 then if isLeapYear year then 29 else 28
  else if month = 4 ∨ month = 6 ∨ month = 9 ∨ month = 11 then 30
  else if 1 ≤ month ∧ month ≤ 12 then 31
  else 0

/-- What `from_ymd_opt` and `and_hms_opt` accept. -/
def UtcTime.isReal (t : UtcTime) : Bool :=
  decide (1 ≤ t.day) && decide (t.day ≤ daysInMonth t.year t.month) && decide (t.hour < 24) &&
    decide (t.minute < 60) && decide (t.second < 60)

/-- The ranges of the fields of a real instant. -/
theorem isReal_bounds {since : UtcTime} (hreal : since.isReal = true) :
    (1 ≤ since.month ∧ since.month ≤ 12) ∧ (1 ≤ since.day ∧ since.day ≤ 31) ∧ since.hour < 24 ∧
      since.minute < 60 ∧ since.second < 60 := by
  simp only [UtcTime.isReal, Bool.and_eq_true, decide_eq_true_eq] at hreal
  obtain ⟨⟨⟨⟨hday, hmonth⟩, hhour⟩, hminute⟩, hsecond⟩ := hreal
  refine ⟨?_, ⟨hday, ?_⟩, hhour, hminute, hsecond⟩
  · unfold daysInMonth at hmonth
    grind
  · unfold daysInMonth at hmonth
    grind

/-- Parses the `111` response to `DATE`: fourteen digits that describe a real instant. -/
def parseServerDate (value : Str) : Except ProtoError UtcTime :=
  let digits := trim value
  if digits.length = 14 ∧ digits.all isAsciiDigit then
    let number := fun start stop => digitsValue ((digits.take stop).drop start)
    let time : UtcTime :=
      { year := number 0 4, month := number 4 6, day := number 6 8, hour := number 8 10,
        minute := number 10 12, second := number 12 14 }
    if time.isReal then .ok time else .error (.invalidDate digits)
  else .error (.invalidDate digits)

/-- A number with leading zeros up to `width` digits. -/
def padded (width n : Nat) : Str := List.replicate (width - (display n).length) '0' ++ display n

theorem digitsValue_replicate_zero (k : Nat) (s : Str) :
    digitsValue (List.replicate k '0' ++ s) = digitsValue s := by
  induction k with
  | zero => rfl
  | succ k ih =>
      rw [List.replicate_succ, List.cons_append]
      exact ih

/-- A padded number is so many digits, and reads back. -/
theorem padded_spec {width n : Nat} (hpos : 0 < width) (h : n < 10 ^ width) :
    (padded width n).length = width ∧ (∀ c ∈ padded width n, isAsciiDigit c = true) ∧
      digitsValue (padded width n) = n := by
  have hlen : (display n).length ≤ width := (Nat.length_toDigits_le_iff (by decide) hpos).mpr h
  refine ⟨?_, fun c hc => ?_, ?_⟩
  · unfold padded
    rw [List.length_append, List.length_replicate]
    omega
  · rcases List.mem_append.mp hc with hc | hc
    · rw [List.eq_of_mem_replicate hc]
      decide
    · exact (display_spec n).2.1 c hc
  · exact (digitsValue_replicate_zero _ _).trans (display_spec n).2.2

/-- What `parse::<u32>` makes of digits. -/
theorem parseU32_of_digits {s : Str} (hne : s ≠ []) (hdigits : ∀ c ∈ s, isAsciiDigit c = true) :
    parseU32 s = if digitsValue s < 4294967296 then some (digitsValue s) else none := by
  unfold parseU32
  rw [parseU64_of_digits hne hdigits]
  by_cases hword : digitsValue s < 18446744073709551616
  · have hback : (UInt64.ofNat (digitsValue s)).toNat = digitsValue s := UInt64.toNat_ofNat_of_lt' hword
    rw [if_pos hword, Option.map_some, hback, Option.filter_some]
    simp
  · have hlarge : ¬ digitsValue s < 4294967296 := fun h => hword (h.trans (by decide))
    rw [if_neg hword, if_neg hlarge]
    rfl

/-- What `parse::<i32>` makes of digits: they have no sign. -/
theorem parseI32_of_digits {s : Str} (hne : s ≠ []) (hdigits : ∀ c ∈ s, isAsciiDigit c = true) :
    parseI32 s = if digitsValue s < 2147483648 then some (digitsValue s : Int) else none := by
  have hminus : stripPrefix ['-'] s = none := stripPrefix_of_digits (by decide) hdigits
  unfold parseI32
  rw [hminus]
  dsimp only
  rw [parseU64_of_digits hne hdigits]
  by_cases hword : digitsValue s < 18446744073709551616
  · have hback : (UInt64.ofNat (digitsValue s)).toNat = digitsValue s := UInt64.toNat_ofNat_of_lt' hword
    have hrange : (digitsValue s : Int) < 2147483648 ↔ digitsValue s < 2147483648 := by omega
    rw [if_pos hword, Option.map_some, hback, Option.filter_some]
    simp [hrange]
  · have hlarge : ¬ digitsValue s < 2147483648 := fun h => hword (h.trans (by decide))
    rw [if_neg hword, if_neg hlarge]
    rfl

section Padded

variable {width n : Nat} (hpos : 0 < width) (h : n < 10 ^ width)
include hpos h

theorem padded_ne_nil : padded width n ≠ [] :=
  List.ne_nil_of_length_pos ((padded_spec hpos h).1.symm ▸ hpos)

theorem parseU32_padded (hsmall : n < 4294967296) : parseU32 (padded width n) = some n := by
  obtain ⟨-, hdigits, hvalue⟩ := padded_spec hpos h
  rw [parseU32_of_digits (padded_ne_nil hpos h) hdigits, hvalue, if_pos hsmall]

theorem parseI32_padded (hsmall : n < 2147483648) : parseI32 (padded width n) = some (n : Int) := by
  obtain ⟨-, hdigits, hvalue⟩ := padded_spec hpos h
  rw [parseI32_of_digits (padded_ne_nil hpos h) hdigits, hvalue, if_pos hsmall]

end Padded

/-- `%Y`: four digits, and a sign for a year that needs one. -/
def displayYear (year : Int) : Str :=
  if 0 ≤ year ∧ year ≤ 9999 then padded 4 year.toNat
  else (if year < 0 then '-' else '+') :: padded 4 year.natAbs

/-- `%Y%m%d %H%M%S`. -/
def UtcTime.display (t : UtcTime) : Str :=
  displayYear t.year ++ padded 2 t.month ++ padded 2 t.day ++ ' ' ::
    (padded 2 t.hour ++ padded 2 t.minute ++ padded 2 t.second)

end Nntp.Proto
