import Nntp.Proto.DateHeader

/-!
# Dates that are no date

`parse_date` says that it refuses what is no real instant. Most of that the calendar does, once all fields are
read. But the seconds are cut down to 59 before it sees them, for the sake of the leap second, so every number of
seconds passes; and of the zones with one letter it only asks that they are one octet.
-/

namespace Nntp.Proto.Date

/-! ## What should be read -/

/-- A time of day that there is, and what it is read as. -/
inductive IsTime : Str → Nat → Nat → Nat → Prop where
  | short {hour minute : Str} {h m : Nat} (hhour : parseU32 hour = some h) (hminute : parseU32 minute = some m)
      (hh : h ≤ 23) (hm : m ≤ 59) : IsTime (hour ++ ':' :: minute) h m 0
  | full {hour minute second : Str} {h m s : Nat} (hhour : parseU32 hour = some h) (hminute : parseU32 minute = some m)
      (hsecond : parseU32 second = some s) (hh : h ≤ 23) (hm : m ≤ 59) (hs : s ≤ 60) :
      IsTime (hour ++ ':' :: (minute ++ ':' :: second)) h m (min s 59)

/-- A name, a letter, or a sign with hours and minutes. -/
inductive IsZone : Str → Prop where
  | named {token : Str} (hname : token.map toAsciiUpper ∈ zoneHours.map Prod.fst) : IsZone token
  | letter {c : Char} (hletter : isAsciiAlphabetic c = true) : IsZone [c]
  | numeric {sign : Char} {digits hours minutes : Str} (hsign : sign = '+' ∨ sign = '-')
      (hdigits : digits.filter (· != ':') = hours ++ minutes) (hall : ∀ c ∈ hours ++ minutes, isAsciiDigit c = true)
      (hhours : hours.length = 2) (hminutes : minutes.length = 2) (hlimit : digitsValue minutes ≤ 59) :
      IsZone (sign :: digits)

/-- Only the date of a real instant is read from a header, and a time that is none is an error. -/
structure OnlyReal (value : Str) : Prop where
  time : ∀ date, parseDate value = .ok date → ∀ time ∈ (dateTokens value)[3]?,
    IsTime time date.naive.hour date.naive.minute date.naive.second
  day : ∀ date, parseDate value = .ok date →
    (dateTokens value)[0]?.bind parseU32 = some date.naive.day ∧ 1 ≤ date.naive.day ∧
      date.naive.day ≤ daysInMonth date.naive.year date.naive.month
  zone : ∀ date, parseDate value = .ok date → ∀ zone ∈ (dateTokens value)[4]?, IsZone zone
  other : ∀ time ∈ (dateTokens value)[3]?, (∀ h m s, ¬ IsTime time h m s) →
    parseDate value = .error (.invalidDate (trim value))

/-! ## What is read too -/

/-- A time of more than 60 seconds. -/
def LateSecond (time : Str) : Prop :=
  ∃ hour minute second s, pieces (· == ':') time = [hour, minute, second] ∧ parseU32 second = some s ∧ 60 < s

/-- One character of ASCII that is no letter. -/
def OddZone (zone : Str) : Prop := ∃ c : Char, zone = [c] ∧ c.toNat < 0x80 ∧ isAsciiAlphabetic c = false

/-- A first piece is everything, or a separator and the further pieces come behind it. -/
theorem pieces_eq_cons {s piece : Str} {rest : List Str} {sep : Char} (h : pieces (· == sep) s = piece :: rest) :
    (rest = [] ∧ s = piece) ∨ ∃ t, s = piece ++ sep :: t ∧ pieces (· == sep) t = rest := by
  by_cases hmem : sep ∈ s
  · obtain ⟨front, back, rfl, hfront⟩ := List.eq_append_cons_of_mem hmem
    rw [pieces_first hfront] at h
    obtain ⟨rfl, rfl⟩ := List.cons.inj h
    exact Or.inr ⟨back, rfl, rfl⟩
  · rw [pieces_whole hmem] at h
    obtain ⟨rfl, rfl⟩ := List.cons.inj h
    exact Or.inl ⟨rfl, rfl⟩

/-- Two pieces are two texts with one separator between them. -/
theorem pieces_eq_pair {s front back : Str} {sep : Char} (h : pieces (· == sep) s = [front, back]) :
    s = front ++ sep :: back := by
  rcases pieces_eq_cons h with ⟨hnil, -⟩ | ⟨t, rfl, ht⟩
  · cases hnil
  · rcases pieces_eq_cons ht with ⟨-, rfl⟩ | ⟨u, -, hu⟩
    · rfl
    · cases hu

/-- **What a time is read as**, if it has at most 60 seconds. -/
theorem isTime_of_parseTime {time : Str} {h m s : Nat} (hread : parseTime time = some (h, m, s)) (hh : h ≤ 23)
    (hm : m ≤ 59) (hlate : ¬ LateSecond time) : IsTime time h m s := by
  unfold parseTime at hread
  split at hread
  · next hour minute hpieces =>
      simp only [Option.bind_eq_bind, Option.bind_eq_some_iff, Option.pure_def] at hread
      obtain ⟨_, hhour, _, hminute, hvalue⟩ := hread
      cases hvalue
      rw [pieces_eq_pair hpieces]
      exact .short hhour hminute hh hm
  · next hour minute second hpieces =>
      simp only [Option.bind_eq_bind, Option.bind_eq_some_iff, Option.pure_def] at hread
      obtain ⟨_, hhour, _, hminute, seconds, hsecond, hvalue⟩ := hread
      cases hvalue
      rcases pieces_eq_cons hpieces with ⟨hnil, -⟩ | ⟨t, rfl, ht⟩
      · cases hnil
      · rw [pieces_eq_pair ht]
        refine .full hhour hminute hsecond hh hm (Nat.not_lt.mp fun hs => hlate ?_)
        exact ⟨hour, minute, second, seconds, hpieces, hsecond, hs⟩
  · cases hread

/-- A number is digits, or digits behind a plus sign. -/
theorem parseU32_chars {s : Str} {n : Nat} (h : parseU32 s = some n) : ∀ c ∈ s, isAsciiDigit c = true ∨ c = '+' := by
  intro c hc
  unfold parseU32 parseU64 at h
  dsimp only at h
  split_ifs at h with hdigits
  · have hall := List.all_eq_true.mp hdigits.2.1
    cases hplus : stripPrefix ['+'] s with
    | none =>
        rw [hplus] at hall
        exact Or.inl (hall c hc)
    | some tail =>
        rw [hplus] at hall
        rw [stripPrefix_eq_some.mp hplus] at hc
        rcases List.mem_cons.mp hc with rfl | hc
        · exact Or.inr rfl
        · exact Or.inl (hall c hc)
  · cases h

theorem parseU32_no_colon {s : Str} {n : Nat} (h : parseU32 s = some n) : ':' ∉ s := fun hc =>
  (parseU32_chars h ':' hc).elim (by decide) (by decide)

/-- A time that there is has no more than 60 seconds. -/
theorem IsTime.not_lateSecond {time : Str} {h m s : Nat} (htime : IsTime time h m s) : ¬ LateSecond time := by
  rintro ⟨hour', minute', second', seconds, hpieces, hseconds, hlate⟩
  cases htime with
  | short hhour hminute _ _ =>
      rw [pieces_first (parseU32_no_colon hhour), pieces_whole (parseU32_no_colon hminute)] at hpieces
      cases hpieces
  | full hhour hminute hsecond _ _ hs =>
      rw [pieces_first (parseU32_no_colon hhour), pieces_first (parseU32_no_colon hminute),
        pieces_whole (parseU32_no_colon hsecond)] at hpieces
      cases hpieces
      cases hsecond.symm.trans hseconds
      omega

/-- Hours and minutes behind a sign. -/
theorem isZone_numeric {sign : Char} {digits : Str} {east offset : Int} (hsign : sign = '+' ∨ sign = '-')
    (hread : parseNumericZone digits east = some offset) : IsZone (sign :: digits) := by
  unfold parseNumericZone at hread
  dsimp only at hread
  split_ifs at hread with hshape
  rw [not_or, not_not, Bool.not_eq_false] at hshape
  have hall := List.all_eq_true.mp hshape.2
  -- the four octets are digits, so they are four characters too
  have hlen := (utf8Len_digits hall).symm.trans hshape.1
  obtain ⟨hours, minutes, hkept, hhours, hminutes⟩ : ∃ hours minutes, digits.filter (· != ':') = hours ++ minutes ∧
      hours.length = 2 ∧ minutes.length = 2 := by
    refine ⟨_, _, (List.take_append_drop 2 _).symm, ?_, ?_⟩
    · rw [List.length_take, hlen]
      rfl
    · rw [List.length_drop, hlen]
  rw [hkept] at hall hread
  have hminuteDigits : ∀ c ∈ minutes, isAsciiDigit c = true := fun c hc => hall c (List.mem_append_right _ hc)
  have hcut := cutText_digits (fun c hc => hall c (List.mem_append_left _ hc)) minutes
  rw [hhours] at hcut
  rw [hcut, Option.bind_eq_bind, Option.bind_some] at hread
  simp only [Option.bind_eq_bind, Option.bind_eq_some_iff] at hread
  obtain ⟨_, -, m, hm, hlimit⟩ := hread
  rw [parseI32_of_digits (List.ne_nil_of_length_pos (by omega)) hminuteDigits] at hm
  split_ifs at hm
  split_ifs at hlimit with hless
  cases hm
  exact .numeric hsign hkept hall hhours hminutes (by omega)

/-- A text of one octet is one character. -/
theorem single_of_utf8Len {s : Str} (h : utf8Len (s.map toAsciiUpper) = 1) : ∃ c, s = [c] := by
  match s with
  | [] => cases h
  | [c] => exact ⟨c, rfl⟩
  | c :: d :: s =>
      rw [List.map_cons, List.map_cons, utf8Len_cons, utf8Len_cons] at h
      have := (toAsciiUpper c).utf8Size_pos
      have := (toAsciiUpper d).utf8Size_pos
      omega

theorem of_toAsciiUpper {c : Char} (h : (toAsciiUpper c).toNat < 0x80) : c.toNat < 0x80 := by
  unfold toAsciiUpper at h
  split at h
  · next hlower => omega
  · exact h

/-- **What a zone is read as**, if one character is a letter. -/
theorem isZone_of_parseZone {zone : Str} {offset : Int} (hread : parseZone zone = some offset)
    (hodd : ¬ OddZone zone) : IsZone zone := by
  unfold parseZone at hread
  cases hplus : stripPrefix ['+'] zone with
  | some digits =>
      rw [hplus] at hread
      rw [stripPrefix_eq_some.mp hplus]
      exact isZone_numeric (Or.inl rfl) hread
  | none =>
      cases hminus : stripPrefix ['-'] zone with
      | some digits =>
          rw [hplus, hminus] at hread
          rw [stripPrefix_eq_some.mp hminus]
          exact isZone_numeric (Or.inr rfl) hread
      | none =>
          rw [hplus, hminus] at hread
          dsimp only at hread
          cases hlookup : zoneHours.lookup (zone.map toAsciiUpper) with
          | some hours =>
              obtain ⟨before, after, hnames, -⟩ := List.lookup_eq_some_iff.mp hlookup
              have hmem : (zone.map toAsciiUpper, hours) ∈ zoneHours := by
                rw [hnames]
                exact List.mem_append_right _ List.mem_cons_self
              exact .named (List.mem_map_of_mem hmem)
          | none =>
              rw [hlookup] at hread
              split_ifs at hread with hone
              obtain ⟨c, rfl⟩ := single_of_utf8Len hone.1
              have hascii := List.all_eq_true.mp hone.2 (toAsciiUpper c) (List.mem_map_of_mem List.mem_cons_self)
              -- one octet is all that is asked for: a letter is as good as any other character
              cases hletter : isAsciiAlphabetic c with
              | true => exact .letter hletter
              | false =>
                  refine absurd ⟨c, rfl, ?_, hletter⟩ hodd
                  exact of_toAsciiUpper (of_decide_eq_true hascii)

theorem IsZone.not_oddZone {zone : Str} (h : IsZone zone) : ¬ OddZone zone := by
  rintro ⟨c, rfl, -, hletter⟩
  cases h with
  | named hname =>
      -- `Z` is the only name that short
      have hz : toAsciiUpper c = 'Z' := by simpa [zoneHours] using hname
      unfold toAsciiUpper at hz
      split at hz
      · next hlower =>
          unfold isAsciiAlphabetic at hletter
          grind
      · rw [hz] at hletter
        cases hletter
  | letter hletter' =>
      rw [hletter] at hletter'
      cases hletter'
  | numeric _ hdigits _ hhours hminutes _ =>
      have hlen := congrArg List.length hdigits
      rw [List.length_append, hhours, hminutes] at hlen
      cases hlen

/-- A header with a slip in it that is read all the same. -/
theorem not_onlyReal {value : Str} {date : ZonedTime} (hread : ReadsAs (dateTokens value) date)
    (hslip : (∃ time ∈ (dateTokens value)[3]?, LateSecond time) ∨ ∃ zone ∈ (dateTokens value)[4]?, OddZone zone) :
    ¬ OnlyReal value := by
  intro h
  have hok := parseDate_eq_ok.mpr hread
  rcases hslip with ⟨time, htime, hlate⟩ | ⟨zone, hzone, hodd⟩
  · exact (h.time date hok time htime).not_lateSecond hlate
  · exact (h.zone date hok zone hzone).not_oddZone hodd

/-- **When only a real date is read**: a header with a real date is one without more than 60 seconds, and without
a zone of one character that is no letter. -/
theorem onlyReal_iff (value : Str) :
    OnlyReal value ↔ ((∃ date, ReadsAs (dateTokens value) date) →
      (∀ time ∈ (dateTokens value)[3]?, ¬ LateSecond time) ∧ ∀ zone ∈ (dateTokens value)[4]?, ¬ OddZone zone) := by
  constructor
  · rintro h ⟨date, hread⟩
    refine ⟨fun time htime hlate => ?_, fun zone hzone hodd => ?_⟩
    · exact not_onlyReal hread (Or.inl ⟨time, htime, hlate⟩) h
    · exact not_onlyReal hread (Or.inr ⟨zone, hzone, hodd⟩) h
  · intro h
    have htime : ∀ date, ReadsAs (dateTokens value) date → ∀ time ∈ (dateTokens value)[3]?,
        IsTime time date.naive.hour date.naive.minute date.naive.second := by
      intro date hread time htime
      obtain ⟨-, -, hhour, hminute, -⟩ := isReal_bounds hread.real
      have hparsed := hread.time
      rw [htime] at hparsed
      exact isTime_of_parseTime hparsed (Nat.le_of_lt_succ hhour) (Nat.le_of_lt_succ hminute)
        ((h ⟨date, hread⟩).1 time htime)
    refine ⟨fun date hok => htime date (parseDate_eq_ok.mp hok), fun date hok => ?_, fun date hok zone hzone => ?_,
      fun time hmem hnone => ?_⟩
    · have hread := parseDate_eq_ok.mp hok
      have hreal := hread.real
      simp only [UtcTime.isReal, Bool.and_eq_true, decide_eq_true_eq] at hreal
      exact ⟨hread.day, hreal.1.1.1.1, hreal.1.1.1.2⟩
    · have hread := parseDate_eq_ok.mp hok
      have hparsed := hread.zone
      rw [hzone] at hparsed
      exact isZone_of_parseZone hparsed ((h ⟨date, hread⟩).2 zone hzone)
    · exact parseDate_eq_error fun date hread => hnone _ _ _ (htime date hread time hmem)

/-- 75 seconds, and a zone that is a digit. -/
theorem onlyReal_slips :
    ¬ OnlyReal "17 Sep 2026 12:00:75 +0000".toList ∧ ¬ OnlyReal "17 Sep 2026 12:00:00 5".toList := by
  have hlate : ReadsAs (dateTokens "17 Sep 2026 12:00:75 +0000".toList) ⟨⟨2026, 9, 17, 12, 0, 59⟩, 0⟩ :=
    parseDate_eq_ok.mp (by decide +kernel)
  have hodd : ReadsAs (dateTokens "17 Sep 2026 12:00:00 5".toList) ⟨⟨2026, 9, 17, 12, 0, 0⟩, 0⟩ :=
    parseDate_eq_ok.mp (by decide +kernel)
  refine ⟨not_onlyReal hlate (Or.inl ⟨"12:00:75".toList, by decide +kernel, ?_⟩),
    not_onlyReal hodd (Or.inr ⟨"5".toList, by decide +kernel, ?_⟩)⟩
  · exact ⟨"12".toList, "00".toList, "75".toList, 75, by decide +kernel, by decide +kernel, by decide⟩
  · exact ⟨'5', rfl, by decide, by decide⟩

end Nntp.Proto.Date
