import Nntp.Proto.DateHeader

/-!
# Dates as they are written

A date can be written in many ways: with or without the day of the week and the seconds, in small and capital
letters, with any white space and comments between the tokens. `Rendering` is all of them, and `parseDate` reads
each back as the date it is of.

Comments and white space vanish in two steps, one that takes the comments out and one that cuts at what is left.
`Spaced` is a text of which the two leave exactly the tokens.
-/

namespace Nntp.Proto.Date

/-! ## White space and comments -/

/-- The inside of a comment: comments in it are balanced. -/
inductive Comment : Str → Prop where
  | nil : Comment []
  | char {c : Char} {s : Str} (hopen : c ≠ '(') (hclose : c ≠ ')') (hquote : c ≠ '\\') (rest : Comment s) :
      Comment (c :: s)
  | nested {inner s : Str} (inside : Comment inner) (rest : Comment s) : Comment ('(' :: (inner ++ ')' :: s))

/-- White space and comments, if any. -/
inductive Cfws : Str → Prop where
  | nil : Cfws []
  | white {c : Char} {s : Str} (hwhite : isWhitespace c = true) (rest : Cfws s) : Cfws (c :: s)
  | comment {inner s : Str} (inside : Comment inner) (rest : Cfws s) : Cfws ('(' :: (inner ++ ')' :: s))

/-- One or more white space characters, with comments among them. -/
def Gap (s : Str) : Prop :=
  ∃ before c after, Cfws before ∧ isWhitespace c = true ∧ Cfws after ∧ s = before ++ c :: after

/-- `strip_comments` turns `s` into `kept`, wherever it stands outside of comments. -/
def Strips (s kept : Str) : Prop := ∀ rest, stripCommentsFrom 0 (s ++ rest) = kept ++ stripCommentsFrom 0 rest

theorem Strips.append {s t kept kept' : Str} (hs : Strips s kept) (ht : Strips t kept') :
    Strips (s ++ t) (kept ++ kept') := by
  intro rest
  rw [List.append_assoc, hs, ht, List.append_assoc]

/-- A text without parentheses stays. -/
theorem strips_self {s : Str} (h : ∀ c ∈ s, c ≠ '(' ∧ c ≠ ')') : Strips s s := by
  intro rest
  induction s with
  | nil => rfl
  | cons c s ih =>
      obtain ⟨hopen, hclose⟩ := h c List.mem_cons_self
      rw [List.cons_append, stripCommentsFrom, if_neg hopen, if_neg hclose, if_pos rfl,
        ih fun d hd => h d (List.mem_cons_of_mem _ hd)]
      rfl

/-- The inside of a comment goes, and the depth is the same behind it. -/
theorem stripCommentsFrom_comment {inner : Str} (h : Comment inner) :
    ∀ depth rest, stripCommentsFrom (depth + 1) (inner ++ rest) = stripCommentsFrom (depth + 1) rest := by
  induction h with
  | nil => exact fun _ _ => rfl
  | @char c s hopen hclose _ _ ih =>
      intro depth rest
      rw [List.cons_append, stripCommentsFrom, if_neg hopen, if_neg hclose, if_neg (Nat.succ_ne_zero depth)]
      exact ih depth rest
  | @nested inner s _ _ ihinner ih =>
      intro depth rest
      rw [List.cons_append, stripCommentsFrom, if_pos rfl, List.append_assoc, ihinner, List.cons_append,
        stripCommentsFrom, if_neg (by decide), if_pos rfl]
      exact ih depth rest

theorem strips_comment {inner : Str} (h : Comment inner) : Strips ('(' :: (inner ++ [')'])) [] := by
  intro rest
  rw [List.cons_append, stripCommentsFrom, if_pos rfl, List.append_assoc, stripCommentsFrom_comment h,
    List.singleton_append, stripCommentsFrom, if_neg (by decide), if_pos rfl]
  rfl

theorem isWhitespace_ne_paren {c : Char} (h : isWhitespace c = true) : c ≠ '(' ∧ c ≠ ')' := by
  constructor
  · rintro rfl
    cases h
  · rintro rfl
    cases h

/-- Of white space and comments the white space is left. -/
theorem Cfws.strips {s : Str} (h : Cfws s) : ∃ kept, Strips s kept ∧ ∀ c ∈ kept, isWhitespace c = true := by
  induction h with
  | nil => exact ⟨[], fun _ => rfl, fun _ hc => absurd hc List.not_mem_nil⟩
  | @white c s hwhite _ ih =>
      obtain ⟨kept, hstrips, hkept⟩ := ih
      have hone : Strips [c] [c] := strips_self (by simpa using isWhitespace_ne_paren hwhite)
      exact ⟨c :: kept, hone.append hstrips, by simpa [hwhite] using hkept⟩
  | @comment inner s inside _ ih =>
      obtain ⟨kept, hstrips, hkept⟩ := ih
      refine ⟨kept, ?_, hkept⟩
      have hboth := (strips_comment inside).append hstrips
      rwa [List.cons_append, List.append_assoc] at hboth

/-- A text that keeps two tokens apart. -/
def Parts (s : Str) : Prop := ∃ kept, Strips s kept ∧ kept ≠ [] ∧ ∀ c ∈ kept, isSeparator c = true

theorem isSeparator_of_isWhitespace {c : Char} (h : isWhitespace c = true) : isSeparator c = true := by
  unfold isSeparator
  rw [h]
  rfl

/-- A separator between white space and comments parts. -/
theorem parts_around {before after : Str} {sep : Char} (hbefore : Cfws before) (hafter : Cfws after)
    (hparen : sep ≠ '(' ∧ sep ≠ ')') (hsep : isSeparator sep = true) : Parts (before ++ sep :: after) := by
  obtain ⟨front, hfront, hfrontWhite⟩ := hbefore.strips
  obtain ⟨back, hback, hbackWhite⟩ := hafter.strips
  have hone : Strips [sep] [sep] := strips_self (by simpa using hparen)
  refine ⟨front ++ ([sep] ++ back), hfront.append (hone.append hback), by simp, ?_⟩
  intro c hc
  rcases List.mem_append.mp hc with hc | hc
  · exact isSeparator_of_isWhitespace (hfrontWhite c hc)
  · rcases List.mem_append.mp hc with hc | hc
    · rw [List.mem_singleton.mp hc]
      exact hsep
    · exact isSeparator_of_isWhitespace (hbackWhite c hc)

theorem Gap.parts {s : Str} (h : Gap s) : Parts s := by
  obtain ⟨before, c, after, hbefore, hwhite, hafter, rfl⟩ := h
  exact parts_around hbefore hafter (isWhitespace_ne_paren hwhite) (isSeparator_of_isWhitespace hwhite)

/-! ## Tokens -/

/-- A text that stays in one piece. -/
structure Token (s : Str) : Prop where
  ne_nil : s ≠ []
  parens : ∀ c ∈ s, c ≠ '(' ∧ c ≠ ')'
  whole : ∀ c ∈ s, isSeparator c = false

/-- Letters, digits and the punctuation of times and zones. -/
theorem Token.of_chars {s : Str} (hne : s ≠ [])
    (h : ∀ c ∈ s, isAsciiAlphabetic c = true ∨ isAsciiDigit c = true ∨ c ∈ [':', '+', '-']) : Token s := by
  have hgraphic : ∀ c ∈ s, isAsciiGraphic c = true := by
    intro c hc
    rcases h c hc with halpha | hdigit | hmark
    · exact isAsciiGraphic_of_isAsciiAlphabetic halpha
    · exact isAsciiGraphic_of_isAsciiDigit hdigit
    · exact List.all_eq_true.mp (by decide : [':', '+', '-'].all isAsciiGraphic = true) c hmark
  have hnot : ∀ d, isAsciiAlphabetic d = false → isAsciiDigit d = false → d ∉ [':', '+', '-'] → ∀ c ∈ s, c ≠ d := by
    rintro d halpha hdigit hmark c hc rfl
    rcases h c hc with h | h | h
    · exact Bool.false_ne_true (halpha.symm.trans h)
    · exact Bool.false_ne_true (hdigit.symm.trans h)
    · exact hmark h
  refine ⟨hne, fun c hc => ⟨?_, ?_⟩, fun c hc => ?_⟩
  · exact hnot '(' (by decide) (by decide) (by decide) c hc
  · exact hnot ')' (by decide) (by decide) (by decide) c hc
  · unfold isSeparator
    rw [isWhitespace_of_isAsciiGraphic (hgraphic c hc), Bool.false_or, beq_eq_false_iff_ne]
    exact hnot ',' (by decide) (by decide) (by decide) c hc

/-- Tokens as they are written one after the other, behind white space and comments or not. -/
inductive Spaced : List Str → Str → Prop where
  | nil {trail : Str} (htrail : Cfws trail) : Spaced [] trail
  | last {token trail : Str} (htoken : Token token) (htrail : Cfws trail) : Spaced [token] (token ++ trail)
  | cons {token gap s : Str} {tokens : List Str} (htoken : Token token) (hgap : Parts gap) (rest : Spaced tokens s) :
      Spaced (token :: tokens) (token ++ (gap ++ s))

/-- **The tokens are what is read of them.** -/
theorem Spaced.words_eq {tokens : List Str} {s : Str} (h : Spaced tokens s) :
    words isSeparator (stripComments s) = tokens := by
  have hrest : ∀ {trail : Str}, Cfws trail → ∃ kept, stripComments trail = kept ∧ ∀ c ∈ kept, isSeparator c = true := by
    intro trail htrail
    obtain ⟨kept, hstrips, hkept⟩ := htrail.strips
    have hall := hstrips []
    rw [List.append_nil] at hall
    refine ⟨kept, ?_, fun c hc => isSeparator_of_isWhitespace (hkept c hc)⟩
    rw [stripComments, hall, stripCommentsFrom, List.append_nil]
  induction h with
  | nil htrail =>
      obtain ⟨kept, heq, hkept⟩ := hrest htrail
      have := words_separators hkept []
      rwa [heq, ← List.append_nil kept]
  | @last token trail htoken htrail =>
      obtain ⟨kept, heq, hkept⟩ := hrest htrail
      have hnone := words_separators hkept []
      rw [List.append_nil] at hnone
      have hsplit : stripComments (token ++ trail) = token ++ kept := by
        rw [← heq]
        exact strips_self htoken.parens trail
      rw [hsplit, words_word htoken.ne_nil htoken.whole, hnone]
      · rfl
      · exact fun c hc => hkept c (List.mem_of_head? hc)
  | @cons token gap s tokens htoken hgap _ ih =>
      obtain ⟨kept, hstrips, hne, hkept⟩ := hgap
      have hsplit : stripComments (token ++ (gap ++ s)) = token ++ (kept ++ stripComments s) := by
        unfold stripComments
        rw [strips_self htoken.parens, hstrips]
      rw [hsplit, words_word htoken.ne_nil htoken.whole, words_separators hkept, ih]
      intro c hc
      obtain ⟨sep, back, rfl⟩ := List.exists_cons_of_ne_nil hne
      cases hc
      exact hkept c List.mem_cons_self

/-! ## Fields -/

def dayNames : List String := ["Mon", "Tue", "Wed", "Thu", "Fri", "Sat", "Sun"]

def monthNames : List String :=
  ["Jan", "Feb", "Mar", "Apr", "May", "Jun", "Jul", "Aug", "Sep", "Oct", "Nov", "Dec"]

/-- A name in letters of either case. -/
def Spells (s : Str) (name : String) : Prop := toAsciiLowercase s = toAsciiLowercase name.toList

/-- The day of the week, with a comma or without, and what comes after it; or nothing. -/
inductive WritesDayOfWeek : Str → Prop where
  | absent : WritesDayOfWeek []
  | spaced {s gap : Str} {name : String} (hname : name ∈ dayNames) (hspells : Spells s name) (hgap : Gap gap) :
      WritesDayOfWeek (s ++ gap)
  | comma {s before after : Str} {name : String} (hname : name ∈ dayNames) (hspells : Spells s name)
      (hbefore : Cfws before) (hafter : Cfws after) : WritesDayOfWeek (s ++ (before ++ ',' :: after))

/-- One digit or two. -/
def WritesDay (day : Nat) (s : Str) : Prop := s = display day ∨ s = padded 2 day

def WritesMonth (month : Nat) (s : Str) : Prop := ∃ name ∈ monthNames[month - 1]?, Spells s name

/-- Hours, minutes and seconds of two digits, where no seconds need not be written. -/
inductive WritesTime (t : NaiveDateTime) : Str → Prop where
  | full : WritesTime t (padded 2 t.hour ++ ':' :: (padded 2 t.minute ++ ':' :: padded 2 t.second))
  | short (hsecond : t.second = 0) : WritesTime t (padded 2 t.hour ++ ':' :: padded 2 t.minute)

/-- A sign, two digits of hours and two of minutes. -/
inductive WritesZone : Int → Str → Prop where
  | east (minutes : Nat) : WritesZone (60 * minutes) ('+' :: (padded 2 (minutes / 60) ++ padded 2 (minutes % 60)))
  | west (minutes : Nat) : WritesZone (-(60 * minutes)) ('-' :: (padded 2 (minutes / 60) ++ padded 2 (minutes % 60)))

/-- One way to write a date. -/
structure Rendering (date : ZonedTime) where
  lead : Str
  dayOfWeek : Str
  day : Str
  gap₁ : Str
  month : Str
  gap₂ : Str
  gap₃ : Str
  time : Str
  gap₄ : Str
  zone : Str
  trail : Str
  hlead : Cfws lead
  hdayOfWeek : WritesDayOfWeek dayOfWeek
  hday : WritesDay date.naive.day day
  hgap₁ : Gap gap₁
  hmonth : WritesMonth date.naive.month month
  hgap₂ : Gap gap₂
  hgap₃ : Gap gap₃
  htime : WritesTime date.naive time
  hgap₄ : Gap gap₄
  hzone : WritesZone date.offset zone
  htrail : Cfws trail

/-- The whole text; the year has four digits. -/
def Rendering.text {date : ZonedTime} (r : Rendering date) : Str :=
  r.lead ++ (r.dayOfWeek ++ (r.day ++ (r.gap₁ ++ (r.month ++ (r.gap₂ ++ (padded 4 date.naive.year.toNat ++
    (r.gap₃ ++ (r.time ++ (r.gap₄ ++ (r.zone ++ r.trail))))))))))

/-! ## Reading the fields -/

theorem toAsciiLower_alphabetic {c : Char} (h : isAsciiAlphabetic (toAsciiLower c) = true) :
    isAsciiAlphabetic c = true := by
  unfold toAsciiLower at h
  split at h
  · next hupper =>
      unfold isAsciiAlphabetic
      grind
  · exact h

/-- Names are spelled with letters. -/
theorem Spells.alphabetic {s : Str} {name : String} (h : Spells s name)
    (hname : ∀ c ∈ toAsciiLowercase name.toList, isAsciiAlphabetic c = true) : ∀ c ∈ s, isAsciiAlphabetic c = true := by
  intro c hc
  refine toAsciiLower_alphabetic (hname _ ?_)
  rw [← h]
  exact List.mem_map_of_mem hc

theorem Spells.length_eq {s : Str} {name : String} (h : Spells s name) : s.length = name.toList.length := by
  have := congrArg List.length h
  simpa [toAsciiLowercase] using this

theorem Token.of_digits {s : Str} (hne : s ≠ []) (h : ∀ c ∈ s, isAsciiDigit c = true) : Token s :=
  .of_chars hne fun c hc => Or.inr (Or.inl (h c hc))

theorem token_padded {width n : Nat} (hpos : 0 < width) (h : n < 10 ^ width) : Token (padded width n) :=
  .of_digits (padded_ne_nil hpos h) (padded_spec hpos h).2.1

theorem WritesDay.spec {day : Nat} {s : Str} (h : WritesDay day s) (hday : day ≤ 31) :
    Token s ∧ (∀ c ∈ s, isAsciiDigit c = true) ∧ parseU32 s = some day := by
  rcases h with rfl | rfl
  · obtain ⟨hne, hdigits, hvalue⟩ := display_spec day
    refine ⟨.of_digits hne hdigits, hdigits, ?_⟩
    rw [parseU32_of_digits hne hdigits, hvalue, if_pos (by omega)]
  · have htwo : day < 10 ^ 2 := by omega
    exact ⟨token_padded (by decide) htwo, (padded_spec (by decide) htwo).2.1,
      parseU32_padded (by decide) htwo (by omega)⟩

theorem WritesMonth.spec {month : Nat} {s : Str} (h : WritesMonth month s) (hmonth : 1 ≤ month) :
    Token s ∧ parseMonth s = some month := by
  obtain ⟨name, hname, hspells⟩ := h
  have hlt : month - 1 < 12 := by
    have := (List.getElem?_eq_some_iff.mp hname).1
    simpa [monthNames] using this
  obtain ⟨halpha, hlength, hindex⟩ : (∀ c ∈ toAsciiLowercase name.toList, isAsciiAlphabetic c = true) ∧
      name.toList.length = 3 ∧ months.idxOf? (toAsciiLowercase name.toList) = some (month - 1) := by
    have hall : ∀ k < 12, ∀ name ∈ monthNames[k]?, ((toAsciiLowercase name.toList).all isAsciiAlphabetic = true) ∧
        name.toList.length = 3 ∧ months.idxOf? (toAsciiLowercase name.toList) = some k := by decide
    obtain ⟨halpha, hrest⟩ := hall (month - 1) hlt name hname
    exact ⟨List.all_eq_true.mp halpha, hrest⟩
  have hletters := hspells.alphabetic halpha
  have hlen : s.length = 3 := hspells.length_eq.trans hlength
  have hne : s ≠ [] := List.ne_nil_of_length_pos (by omega)
  refine ⟨.of_chars hne fun c hc => Or.inl (hletters c hc), ?_⟩
  have hcut := cutText_graphic (fun c hc => isAsciiGraphic_of_isAsciiAlphabetic (hletters c hc)) []
  rw [hlen, List.append_nil] at hcut
  have hback : month - 1 + 1 = month := by omega
  unfold parseMonth
  rw [hcut, Option.bind_eq_bind, Option.bind_some]
  dsimp only
  rw [hspells, hindex, Option.bind_eq_bind, Option.bind_some, hback]
  rfl

theorem year_spec {year : Int} (hyear : 0 ≤ year ∧ year ≤ 9999) :
    Token (padded 4 year.toNat) ∧ parseYear (padded 4 year.toNat) = some year := by
  have hfour : year.toNat < 10 ^ 4 := by omega
  have hwhole : (year.toNat : Int) = year := by omega
  obtain ⟨hlen, hdigits, -⟩ := padded_spec (by decide) hfour
  have hsize : utf8Len (padded 4 year.toNat) = 4 := (utf8Len_digits hdigits).trans hlen
  refine ⟨token_padded (by decide) hfour, ?_⟩
  unfold parseYear
  rw [parseI32_padded (by decide) hfour (by omega), hwhole, hsize]
  rfl

theorem colon_not_mem {s : Str} (h : ∀ c ∈ s, isAsciiDigit c = true) : ':' ∉ s :=
  fun hc => absurd (h ':' hc) (by decide)

theorem WritesTime.spec {t : NaiveDateTime} {s : Str} (h : WritesTime t s) (hhour : t.hour < 24)
    (hminute : t.minute < 60) (hsecond : t.second < 60) : Token s ∧ parseTime s = some (t.hour, t.minute, t.second) := by
  have hread : ∀ {n : Nat}, n < 60 → parseU32 (padded 2 n) = some n ∧ ∀ c ∈ padded 2 n, isAsciiDigit c = true :=
    fun hn => ⟨parseU32_padded (by decide) (Nat.lt_trans hn (by decide)) (Nat.lt_trans hn (by decide)),
      (padded_spec (by decide) (Nat.lt_trans hn (by decide))).2.1⟩
  obtain ⟨hhours, hourDigits⟩ := hread (show t.hour < 60 by omega)
  obtain ⟨hminutes, minuteDigits⟩ := hread hminute
  obtain ⟨hseconds, secondDigits⟩ := hread hsecond
  cases h with
  | full =>
      refine ⟨.of_chars (by simp) fun c hc => ?_, ?_⟩
      · simp only [List.mem_append, List.mem_cons] at hc
        grind
      · unfold parseTime
        rw [pieces_first (colon_not_mem hourDigits), pieces_first (colon_not_mem minuteDigits),
          pieces_whole (colon_not_mem secondDigits)]
        dsimp only
        rw [hhours, hminutes, hseconds]
        simp only [Option.bind_eq_bind, Option.bind_some, Option.pure_def, Nat.min_eq_left (Nat.le_of_lt_succ hsecond)]
  | short hzero =>
      refine ⟨.of_chars (by simp) fun c hc => ?_, ?_⟩
      · simp only [List.mem_append, List.mem_cons] at hc
        grind
      · unfold parseTime
        rw [pieces_first (colon_not_mem hourDigits), pieces_whole (colon_not_mem minuteDigits)]
        dsimp only
        rw [hhours, hminutes, hzero]
        rfl

/-- Four digits behind a sign are hours and minutes. -/
theorem parseNumericZone_padded {minutes : Nat} (h : minutes < 1440) (sign : Int) :
    parseNumericZone (padded 2 (minutes / 60) ++ padded 2 (minutes % 60)) sign = some (sign * (60 * minutes)) := by
  obtain ⟨hourLen, hourDigits, -⟩ := padded_spec (by decide : 0 < 2) (show minutes / 60 < 10 ^ 2 by omega)
  obtain ⟨minuteLen, minuteDigits, -⟩ := padded_spec (by decide : 0 < 2) (show minutes % 60 < 10 ^ 2 by omega)
  have hdigits : ∀ c ∈ padded 2 (minutes / 60) ++ padded 2 (minutes % 60), isAsciiDigit c = true := fun c hc =>
    (List.mem_append.mp hc).elim (hourDigits c) (minuteDigits c)
  have hkeep : (padded 2 (minutes / 60) ++ padded 2 (minutes % 60)).filter (· != ':') =
      padded 2 (minutes / 60) ++ padded 2 (minutes % 60) := by
    refine List.filter_eq_self.mpr fun c hc => ?_
    rw [bne_iff_ne]
    rintro rfl
    exact absurd (hdigits ':' hc) (by decide)
  have hsize : utf8Len (padded 2 (minutes / 60) ++ padded 2 (minutes % 60)) = 4 := by
    rw [utf8Len_digits hdigits, List.length_append, hourLen, minuteLen]
  have hall : (padded 2 (minutes / 60) ++ padded 2 (minutes % 60)).all isAsciiDigit = true :=
    List.all_eq_true.mpr hdigits
  have hcut := cutText_digits hourDigits (padded 2 (minutes % 60))
  rw [hourLen] at hcut
  have hhours := parseI32_padded (by decide : 0 < 2) (show minutes / 60 < 10 ^ 2 by omega) (by omega)
  have hminutes := parseI32_padded (by decide : 0 < 2) (show minutes % 60 < 10 ^ 2 by omega) (by omega)
  have hless : ¬ 59 < ((minutes % 60 : Nat) : Int) := by omega
  have hsum : ((minutes / 60 : Nat) : Int) * 3600 + ((minutes % 60 : Nat) : Int) * 60 = 60 * minutes := by omega
  unfold parseNumericZone
  dsimp only
  rw [hkeep, if_neg (by simp [hsize, hall]), hcut, Option.bind_eq_bind, Option.bind_some]
  dsimp only
  rw [hhours, hminutes]
  simp only [Option.bind_eq_bind, Option.bind_some, if_neg hless, hsum]
  rfl

theorem WritesZone.spec {offset : Int} {s : Str} (h : WritesZone offset s)
    (hoffset : -86400 < offset ∧ offset < 86400) : Token s ∧ parseZone s = some offset := by
  have htoken : ∀ {minutes : Nat}, minutes < 1440 → ∀ sign ∈ ['+', '-'],
      Token (sign :: (padded 2 (minutes / 60) ++ padded 2 (minutes % 60))) := by
    intro minutes hlt sign hsign
    have hhours := (padded_spec (by decide : 0 < 2) (show minutes / 60 < 10 ^ 2 by omega)).2.1
    have hminutes := (padded_spec (by decide : 0 < 2) (show minutes % 60 < 10 ^ 2 by omega)).2.1
    refine .of_chars (by simp) fun c hc => ?_
    rcases List.mem_cons.mp hc with rfl | hc
    · exact Or.inr (Or.inr (List.mem_cons_of_mem _ hsign))
    · exact Or.inr (Or.inl ((List.mem_append.mp hc).elim (hhours c) (hminutes c)))
  cases h with
  | east minutes =>
      refine ⟨htoken (by omega) '+' (by decide), ?_⟩
      show parseNumericZone _ 1 = _
      rw [parseNumericZone_padded (by omega), Int.one_mul]
  | west minutes =>
      refine ⟨htoken (by omega) '-' (by decide), ?_⟩
      show parseNumericZone _ (-1) = _
      rw [parseNumericZone_padded (by omega), Int.neg_one_mul]

/-! ## Reading the whole -/

/-- White space and comments in front do not matter. -/
theorem words_lead {lead : Str} (h : Cfws lead) (s : Str) :
    words isSeparator (stripComments (lead ++ s)) = words isSeparator (stripComments s) := by
  obtain ⟨kept, hstrips, hkept⟩ := h.strips
  unfold stripComments
  rw [hstrips]
  exact words_separators (fun c hc => isSeparator_of_isWhitespace (hkept c hc)) _

/-- A day of the week is a token of letters, with something behind it. -/
theorem dayOfWeek_spec {name : String} {s : Str} (hname : name ∈ dayNames) (hspells : Spells s name) :
    Token s ∧ s.head?.any isAsciiAlphabetic = true := by
  have hall : ∀ name ∈ dayNames,
      (toAsciiLowercase name.toList).all isAsciiAlphabetic = true ∧ name.toList.length = 3 := by decide
  obtain ⟨halpha, hlength⟩ := hall name hname
  have hletters := hspells.alphabetic (List.all_eq_true.mp halpha)
  have hlen := hspells.length_eq.trans hlength
  cases s with
  | nil => cases hlen
  | cons c s =>
      exact ⟨.of_chars (List.cons_ne_nil c s) fun d hd => Or.inl (hletters d hd), hletters c List.mem_cons_self⟩

/-- The tokens that are left when the day of the week has been taken away. -/
theorem dateTokens_spaced {lead dayOfWeek s day : Str} {tokens : List Str} (hlead : Cfws lead)
    (hdayOfWeek : WritesDayOfWeek dayOfWeek) (hday : ∀ c ∈ day, isAsciiDigit c = true) (h : Spaced (day :: tokens) s) :
    dateTokens (lead ++ (dayOfWeek ++ s)) = day :: tokens := by
  have hnamed : ∀ {name : Str}, Spaced (name :: day :: tokens) (dayOfWeek ++ s) →
      name.head?.any isAsciiAlphabetic = true → dateTokens (lead ++ (dayOfWeek ++ s)) = day :: tokens := by
    intro name hspaced halpha
    unfold dateTokens
    rw [words_lead hlead, hspaced.words_eq]
    exact if_pos halpha
  cases hdayOfWeek with
  | absent =>
      -- what is first is the day, and it is not taken for a day of the week
      have hnot : ¬ day.head?.any isAsciiAlphabetic = true := by
        intro halpha
        cases day with
        | nil => cases halpha
        | cons c day =>
            have hdigit := hday c List.mem_cons_self
            have hletter : isAsciiAlphabetic c = true := halpha
            unfold isAsciiDigit at hdigit
            unfold isAsciiAlphabetic at hletter
            grind
      unfold dateTokens
      rw [List.nil_append, words_lead hlead, h.words_eq]
      exact if_neg hnot
  | spaced hname hspells hgap =>
      obtain ⟨htoken, halpha⟩ := dayOfWeek_spec hname hspells
      refine hnamed ?_ halpha
      rw [List.append_assoc]
      exact .cons htoken hgap.parts h
  | comma hname hspells hbefore hafter =>
      obtain ⟨htoken, halpha⟩ := dayOfWeek_spec hname hspells
      refine hnamed ?_ halpha
      rw [List.append_assoc]
      exact .cons htoken (parts_around hbefore hafter (by decide) (by decide)) h

/-- **A date is read back** from every way to write it. -/
theorem parseDate_text {date : ZonedTime} (hreal : date.naive.isReal = true)
    (hyear : 0 ≤ date.naive.year ∧ date.naive.year ≤ 9999) (hoffset : -86400 < date.offset ∧ date.offset < 86400)
    (r : Rendering date) : parseDate r.text = .ok date := by
  obtain ⟨hmonths, hdays, hhours, hminutes, hseconds⟩ := isReal_bounds hreal
  obtain ⟨hday, hdigits, hreadDay⟩ := r.hday.spec hdays.2
  obtain ⟨hmonth, hreadMonth⟩ := r.hmonth.spec hmonths.1
  obtain ⟨hyears, hreadYear⟩ := year_spec hyear
  obtain ⟨htime, hreadTime⟩ := r.htime.spec hhours hminutes hseconds
  obtain ⟨hzone, hreadZone⟩ := r.hzone.spec hoffset
  have hspaced := Spaced.cons hday r.hgap₁.parts (.cons hmonth r.hgap₂.parts
    (.cons hyears r.hgap₃.parts (.cons htime r.hgap₄.parts (.last hzone r.htrail))))
  have htokens : dateTokens r.text = [r.day, r.month, padded 4 date.naive.year.toNat, r.time, r.zone] :=
    dateTokens_spaced r.hlead r.hdayOfWeek hdigits hspaced
  rw [parseDate_eq_ok, htokens]
  -- the year is far from where the calendar ends
  have hutc : utcInRange date.naive date.offset = true := by
    have hlow : (date.naive.year == minYear) = false := by
      rw [beq_eq_false_iff_ne]
      unfold minYear
      omega
    have hhigh : (date.naive.year == maxYear) = false := by
      rw [beq_eq_false_iff_ne]
      unfold maxYear
      omega
    unfold utcInRange
    simp [hlow, hhigh]
  exact {
    day := hreadDay
    month := hreadMonth
    year := hreadYear
    time := hreadTime
    zone := hreadZone
    years := by unfold minYear maxYear; omega
    real := hreal
    offset := hoffset
    utc := hutc }

theorem Comment.append_chars {s t : Str} (h : ∀ c ∈ s, c ≠ '(' ∧ c ≠ ')' ∧ c ≠ '\\') (ht : Comment t) :
    Comment (s ++ t) := by
  induction s with
  | nil => exact ht
  | cons c s ih =>
      obtain ⟨hopen, hclose, hquote⟩ := h c List.mem_cons_self
      exact .char hopen hclose hquote (ih fun d hd => h d (List.mem_cons_of_mem _ hd))

theorem gap_blank : Gap [' '] := ⟨[], ' ', [], .nil, rfl, .nil, rfl⟩

/-- A date with the day of the week, without seconds, and with comments one in the other. -/
def commented : Rendering ⟨⟨2026, 9, 17, 8, 9, 0⟩, -25200⟩ where
  lead := []
  dayOfWeek := "Thu, ".toList
  day := "17".toList
  gap₁ := [' ']
  month := "SEP".toList
  gap₂ := [' ']
  gap₃ := [' ']
  time := "08:09".toList
  gap₄ := [' ']
  zone := "-0700".toList
  trail := " (PDT (really))".toList
  hlead := .nil
  hdayOfWeek := @WritesDayOfWeek.comma "Thu".toList [] [' '] "Thu" (by decide) rfl .nil (.white rfl .nil)
  hday := .inl rfl
  hgap₁ := gap_blank
  hmonth := ⟨"Sep", rfl, (by decide : toAsciiLowercase "SEP".toList = toAsciiLowercase "Sep".toList)⟩
  hgap₂ := gap_blank
  hgap₃ := gap_blank
  htime := .short rfl
  hgap₄ := gap_blank
  hzone := .west 420
  htrail := by
    have hplain : ∀ s : Str, (s.all fun c => decide (c ≠ '(' ∧ c ≠ ')' ∧ c ≠ '\\')) = true →
        ∀ c ∈ s, c ≠ '(' ∧ c ≠ ')' ∧ c ≠ '\\' := fun _ h => forall_of_all h
    have hinner : Comment ("really".toList ++ []) := .append_chars (hplain _ (by decide)) .nil
    have houter : Comment ("PDT ".toList ++ '(' :: ("really".toList ++ [] ++ ')' :: [])) :=
      .append_chars (hplain _ (by decide)) (.nested hinner .nil)
    exact .white rfl (.comment houter .nil)

theorem parseDate_text_commented :
    commented.text = "Thu, 17 SEP 2026 08:09 -0700 (PDT (really))".toList ∧
      parseDate commented.text = .ok ⟨⟨2026, 9, 17, 8, 9, 0⟩, -25200⟩ :=
  ⟨by decide, parseDate_text (by decide) ⟨by decide, by decide⟩ ⟨by decide, by decide⟩ commented⟩

end Nntp.Proto.Date
