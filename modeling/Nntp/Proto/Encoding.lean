import Nntp.Proto.Command
import Nntp.Proto.Sending

/-!
# Commands that can be sent

`finish` is the only thing that can refuse a command line. What it lets through is one line of at most 512
octets. And it lets through every command that is made of values their own parsers accept: their bounds, with
the verbs, add up to less than that.
-/

namespace Nntp.Proto

/-! ## Texts that fit -/

/-- A text of at most so many octets without an ASCII control character. -/
structure Fits (limit : Nat) (s : Str) : Prop where
  size : utf8Len s ≤ limit
  plain : ∀ c ∈ s, 0x20 ≤ c.toNat ∧ c.toNat ≠ 0x7F

namespace Fits

variable {limit more : Nat} {s t : Str}

theorem nil : Fits 0 [] := ⟨Nat.le_refl _, List.forall_mem_nil _⟩

theorem mono (h : Fits limit s) (hle : limit ≤ more) : Fits more s := ⟨h.size.trans hle, h.plain⟩

theorem append (hs : Fits limit s) (ht : Fits more t) : Fits (limit + more) (s ++ t) where
  size := by
    rw [utf8Len_append]
    exact Nat.add_le_add hs.size ht.size
  plain := List.forall_mem_append.mpr ⟨hs.plain, ht.plain⟩

/-- A text with a blank before it. -/
theorem blank (h : Fits limit s) : Fits (1 + limit) (' ' :: s) :=
  append (s := [' ']) ⟨by decide, forall_of_all (by decide)⟩ h

/-- Graphic characters are one octet each. -/
theorem of_graphic (h : ∀ c ∈ s, isAsciiGraphic c = true) (hlen : s.length ≤ limit) : Fits limit s where
  size := by
    refine le_trans (Nat.le_of_eq ?_) hlen
    clear hlen
    induction s with
    | nil => rfl
    | cons c s ih =>
        obtain ⟨hc, hs⟩ := List.forall_mem_cons.mp h
        rw [utf8Len_cons, ih hs, utf8Size_of_graphic hc, List.length_cons, Nat.add_comm]
  plain := by
    intro c hc
    have hgraphic := h c hc
    unfold isAsciiGraphic at hgraphic
    simp only [Bool.and_eq_true, decide_eq_true_eq] at hgraphic
    omega

theorem of_digits (h : ∀ c ∈ s, isAsciiDigit c = true) (hlen : s.length ≤ limit) : Fits limit s := by
  exact of_graphic (fun c hc => isAsciiGraphic_of_isAsciiDigit (h c hc)) hlen

end Fits

/-- A number of at most so many digits. -/
theorem fits_display {n digits : Nat} (hpos : 0 < digits) (h : n < 10 ^ digits) : Fits digits (display n) :=
  .of_digits (display_spec n).2.1 ((Nat.length_toDigits_le_iff (by decide) hpos).mpr h)

theorem fits_number (n : UInt64) : Fits 20 (display n.toNat) :=
  fits_display (by decide) (n.toNat_lt.trans (by decide))

theorem fits_padded {n width : Nat} (hpos : 0 < width) (h : n < 10 ^ width) : Fits width (padded width n) := by
  obtain ⟨hlen, hdigits, -⟩ := padded_spec hpos h
  exact .of_digits hdigits hlen.le

/-! ## Arguments -/

theorem fits_groupName (name : GroupName) : Fits 480 name.asStr := by
  have h := name.wellFormed
  unfold GroupName.isWellFormed at h
  simp only [Bool.and_eq_true, decide_eq_true_eq, List.all_eq_true] at h
  exact ⟨h.1.2, (Fits.of_graphic (fun c hc => (h.2 c hc).1) (Nat.le_refl _)).plain⟩

theorem fits_wildmat (pattern : Wildmat) : Fits 400 pattern.asStr := by
  obtain ⟨⟨_, hsize⟩, hgraphic⟩ := Wildmat.wellFormed_iff.mp pattern.wellFormed
  exact ⟨hsize, (Fits.of_graphic (List.all_eq_true.mp hgraphic) (Nat.le_refl _)).plain⟩

theorem eq_of_stripSuffix {p : Char} {s rest : Str} (h : stripSuffix [p] s = some rest) :
    s = rest ++ [p] := by
  obtain ⟨reversed, hreversed, rfl⟩ := Option.map_eq_some_iff.mp h
  have := stripPrefix_eq_some.mp hreversed
  rw [← List.reverse_inj, List.reverse_append, List.reverse_reverse]
  exact this

theorem fits_messageId (id : MessageId) : Fits 250 id.asStr := by
  have h := id.wellFormed
  unfold MessageId.isWellFormed at h
  simp only [Bool.and_eq_true, decide_eq_true_eq] at h
  refine ⟨h.1, fun c hc => ?_⟩
  cases hbetween : MessageId.between id.asStr with
  | none => rw [hbetween] at h; cases h.2
  | some inner =>
      rw [hbetween] at h
      obtain ⟨afterOpen, hopen, hclose⟩ := Option.bind_eq_some_iff.mp hbetween
      rw [stripPrefix_eq_some.mp hopen, List.singleton_append, eq_of_stripSuffix hclose] at hc
      simp only [List.mem_cons, List.mem_append, List.not_mem_nil, or_false] at hc
      rcases hc with rfl | hc | rfl
      · decide
      · have hinner := h.2
        simp only [Bool.and_eq_true, Bool.not_eq_true', List.any_eq_false, Bool.or_eq_true,
          not_or] at hinner
        have hcontrol := (hinner.2 c hc).1.1.2
        unfold isControl at hcontrol
        simp only [Bool.or_eq_true, Bool.and_eq_true, decide_eq_true_eq] at hcontrol
        omega
      · decide

theorem fits_range (range : Range) : Fits 41 range.toArgument := by
  cases range with
  | single n => exact (fits_number n).mono (by decide)
  | between low high =>
      have hdash : Fits 1 ['-'] := ⟨by decide, forall_of_all (by decide)⟩
      have := (fits_number low).append (hdash.append (fits_number high))
      exact this.mono (by decide)
  | upwards low =>
      have hdash : Fits 1 ['-'] := ⟨by decide, forall_of_all (by decide)⟩
      exact ((fits_number low).append hdash).mono (by decide)

/-- A verb and an argument that may be missing. -/
theorem fits_withOptionalArg {verb : String} {arg : Option Str} {limit size : Nat}
    (hverb : Fits size verb.toList) (harg : ∀ s ∈ arg, Fits limit s) :
    Fits (size + (1 + limit)) (Command.withOptionalArg verb arg) := by
  refine hverb.append ?_
  cases arg with
  | none => exact Fits.nil.mono (Nat.zero_le _)
  | some s => exact (harg s rfl).blank

theorem fits_articleSpec (spec : ArticleSpec) : ∀ s ∈ spec.toArgument, Fits 250 s := by
  intro s hs
  cases spec with
  | messageId id => cases hs; exact fits_messageId id
  | number n => cases hs; exact (fits_number n).mono (by decide)
  | current => cases hs

theorem fits_rangeOrId (target : RangeOrId) : ∀ s ∈ target.toArgument, Fits 250 s := by
  intro s hs
  cases target with
  | range r => cases hs; exact (fits_range r).mono (by decide)
  | messageId id => cases hs; exact fits_messageId id
  | current => cases hs

/-- The ranges of the fields of a `DateTime<Utc>` with a year of four digits. A leap second is second 60. -/
structure UtcTime.InRange (time : UtcTime) : Prop where
  year : 0 ≤ time.year ∧ time.year ≤ 9999
  month : time.month ≤ 12
  day : time.day ≤ 31
  hour : time.hour < 24
  minute : time.minute < 60
  second : time.second ≤ 60

theorem fits_utcTime {time : UtcTime} (h : time.InRange) : Fits 15 time.display := by
  have hdigits : Fits 4 (displayYear time.year) := by
    have hyear := h.year
    unfold displayYear
    rw [if_pos hyear]
    exact fits_padded (by decide) (by omega)
  have htwo : ∀ n, n ≤ 60 → Fits 2 (padded 2 n) := fun n hn => fits_padded (by decide) (by omega)
  have hdate := (hdigits.append (htwo time.month (h.month.trans (by decide)))).append
    (htwo time.day (h.day.trans (by decide)))
  have hclock := ((htwo time.hour (h.hour.le.trans (by decide))).append (htwo time.minute h.minute.le)).append
    (htwo time.second h.second)
  exact hdate.append hclock.blank

/-! ## Commands -/

namespace Command

/-- The commands whose arguments have all passed a parser of their own. -/
def IsValidated : Command → Prop
  | group _ => True
  | listGroup _ range => range = none
  | article _ => True
  | head _ => True
  | body _ => True
  | stat _ => True
  | «over» _ => True
  | xover _ => True
  | newGroups since => since.InRange
  | list _ => True
  | _ => False

theorem fits_keyword (keyword : ListKeyword) : Fits 12 keyword.keyword.toList := by
  cases keyword with
  | active pattern => exact (⟨by decide, forall_of_all (by decide)⟩ : Fits 12 "ACTIVE".toList)
  | activeTimes pattern => exact (⟨by decide, forall_of_all (by decide)⟩ : Fits 12 "ACTIVE.TIMES".toList)
  | newsgroups pattern => exact (⟨by decide, forall_of_all (by decide)⟩ : Fits 12 "NEWSGROUPS".toList)
  | overviewFmt => exact (⟨by decide, forall_of_all (by decide)⟩ : Fits 12 "OVERVIEW.FMT".toList)
  | headers => exact (⟨by decide, forall_of_all (by decide)⟩ : Fits 12 "HEADERS".toList)

/-- Their lines fit. -/
theorem fits_line {command : Command} (h : command.IsValidated) : Fits 510 command.line := by
  cases command with
  | group name =>
      have hverb : Fits 6 "GROUP ".toList := ⟨by decide, forall_of_all (by decide)⟩
      exact (hverb.append (fits_groupName name)).mono (by decide)
  | listGroup name range =>
      cases h
      cases name with
      | none => exact ⟨by decide, forall_of_all (by decide)⟩
      | some name =>
          have hverb : Fits 9 "LISTGROUP".toList := ⟨by decide, forall_of_all (by decide)⟩
          have hargument : Fits 480 (name.asStr ++ []) := by simpa using fits_groupName name
          have hall : ∀ s ∈ some (name.asStr ++ []), Fits 480 s := by
            intro s hs
            cases hs
            exact hargument
          exact (fits_withOptionalArg hverb hall).mono (by decide)
  | article spec =>
      have hverb : Fits 7 "ARTICLE".toList := ⟨by decide, forall_of_all (by decide)⟩
      exact (fits_withOptionalArg hverb (fits_articleSpec spec)).mono (by decide)
  | head spec =>
      have hverb : Fits 4 "HEAD".toList := ⟨by decide, forall_of_all (by decide)⟩
      exact (fits_withOptionalArg hverb (fits_articleSpec spec)).mono (by decide)
  | body spec =>
      have hverb : Fits 4 "BODY".toList := ⟨by decide, forall_of_all (by decide)⟩
      exact (fits_withOptionalArg hverb (fits_articleSpec spec)).mono (by decide)
  | stat spec =>
      have hverb : Fits 4 "STAT".toList := ⟨by decide, forall_of_all (by decide)⟩
      exact (fits_withOptionalArg hverb (fits_articleSpec spec)).mono (by decide)
  | «over» target =>
      have hverb : Fits 4 "OVER".toList := ⟨by decide, forall_of_all (by decide)⟩
      exact (fits_withOptionalArg hverb (fits_rangeOrId target)).mono (by decide)
  | xover range =>
      have hverb : Fits 5 "XOVER".toList := ⟨by decide, forall_of_all (by decide)⟩
      have hargument : ∀ s ∈ some range.toArgument, Fits 41 s := by
        intro s hs
        cases hs
        exact fits_range range
      exact (fits_withOptionalArg hverb hargument).mono (by decide)
  | newGroups since =>
      have hverb : Fits 10 "NEWGROUPS ".toList := ⟨by decide, forall_of_all (by decide)⟩
      have hzone : Fits 4 " GMT".toList := ⟨by decide, forall_of_all (by decide)⟩
      exact ((hverb.append (fits_utcTime h)).append hzone).mono (by decide)
  | list keyword =>
      have hverb : Fits 4 "LIST".toList := ⟨by decide, forall_of_all (by decide)⟩
      have hpattern : ∀ s ∈ keyword.wildmat.map (·.asStr), Fits 400 s := by
        intro s hs
        obtain ⟨pattern, _, rfl⟩ := Option.map_eq_some_iff.mp hs
        exact fits_wildmat pattern
      have hargument := fits_withOptionalArg (fits_keyword keyword) hpattern
      have hall : ∀ s ∈ some (withOptionalArg keyword.keyword (keyword.wildmat.map (·.asStr))),
          Fits (12 + (1 + 400)) s := by
        intro s hs
        cases hs
        exact hargument
      exact (fits_withOptionalArg hverb hall).mono (by decide)
  | _ => exact h.elim

theorem length_asBytes (s : Str) : (asBytes s).length = utf8Len s := by
  induction s with
  | nil => rfl
  | cons c s ih =>
      rw [utf8Len_cons, ← ih, ← String.length_utf8EncodeChar]
      exact List.length_append

/-- A line that fits is sent. -/
theorem finish_of_fits {command : Command} {line : Str} (h : Fits 510 line) :
    command.finish line = .ok (asBytes line ++ [0x0D, 0x0A]) := by
  have hcontrol : (asBytes line).any isAsciiControl = false := by
    rw [List.any_eq_false]
    intro b hb hcontrol
    obtain ⟨c, hc, hbyte⟩ := List.mem_flatMap.mp hb
    have hplain := h.plain c hc
    unfold isAsciiControl at hcontrol
    simp only [Bool.or_eq_true, decide_eq_true_eq, beq_iff_eq, UInt8.lt_iff_toNat_lt,
      ← UInt8.toNat_inj] at hcontrol
    have hval := utf8EncodeChar_ascii hbyte (by rcases hcontrol with h | h <;> simp at h <;> omega)
    rcases hcontrol with hlow | hdel
    · simp at hlow
      omega
    · simp at hdel
      omega
  have hsize := h.size
  unfold finish
  rw [hcontrol, if_neg (by simp), if_neg (by unfold maxCommandLen; omega)]

/-- What is sent is a line within the limit. -/
theorem toWire_line {command : Command} {bytes : Bytes} (h : command.toWire = .ok bytes) :
    bytes.length ≤ maxCommandLen ∧
      ∃ line, bytes = line ++ [0x0D, 0x0A] ∧ ∀ b ∈ line, isAsciiControl b = false := by
  unfold toWire finish at h
  split_ifs at h with hcontrol hlong
  cases h
  rw [Bool.not_eq_true, List.any_eq_false] at hcontrol
  refine ⟨?_, _, rfl, fun b hb => Bool.eq_false_iff.mpr (hcontrol b hb)⟩
  rw [List.length_append, length_asBytes]
  exact Nat.not_lt.mp hlong

/-- **Encoding is safe, and total on validated arguments.** -/
theorem toWire_spec (command : Command) :
    (∀ bytes, command.toWire = .ok bytes → bytes.length ≤ 512 ∧
        ∃ line, bytes = line ++ [0x0D, 0x0A] ∧ ∀ b ∈ line, isAsciiControl b = false) ∧
      (command.IsValidated → ∃ bytes, command.toWire = .ok bytes) :=
  ⟨fun _ h => toWire_line h, fun h => ⟨_, finish_of_fits (fits_line h)⟩⟩

/-- A group is selected by one line. -/
theorem toWire_spec_group :
    (Command.group ⟨"misc.test".toList, by decide⟩).toWire =
        .ok (asBytes "GROUP misc.test".toList ++ [0x0D, 0x0A]) ∧
      (asBytes "GROUP misc.test".toList ++ [0x0D, 0x0A]).length ≤ 512 ∧
      ∃ bytes, (Command.group ⟨"misc.test".toList, by decide⟩).toWire = .ok bytes := by
  have hwire : (Command.group ⟨"misc.test".toList, by decide⟩).toWire =
      .ok (asBytes "GROUP misc.test".toList ++ [0x0D, 0x0A]) := rfl
  exact ⟨hwire, ((toWire_spec _).1 _ hwire).1, (toWire_spec _).2 trivial⟩

end Command

end Nntp.Proto
