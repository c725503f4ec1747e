import Nntp.Posting
import Nntp.Proto.Showing
import Nntp.Tui.App

/-!
# From the editor to the pane

What is shown of an article that was written here: the text that was typed, whatever it was encoded as on its way.
-/

namespace Nntp

open Nntp.Proto Nntp.Tui

/-! ## Lines joined and split -/

/-- Lines as one text, with CRLF between them. -/
def joinCrlf (lines : List Str) : Str := joinWith ['\r', '\n'] lines

theorem rejoin_asBytes (lines : List Str) : BodyPart.rejoin (lines.map asBytes) = asBytes (joinCrlf lines) := by
  induction lines with
  | nil => rfl
  | cons line lines ih =>
      cases lines with
      | nil => rfl
      | cons next rest =>
          have hcrlf : asBytes ['\r', '\n'] = [0x0D, 0x0A] := by decide
          simp only [joinCrlf, joinWith, asBytes_append, hcrlf]
          rw [← joinCrlf, ← ih]
          rfl

/-- A line without a CR comes through. -/
theorem crlfToLf_append {line : Str} (h : '\r' ∉ line) (rest : Str) :
    Draft.crlfToLf (line ++ rest) = line ++ Draft.crlfToLf rest := by
  induction line with
  | nil => rfl
  | cons c cs ih =>
      simp only [List.mem_cons, not_or] at h
      rw [List.cons_append, Draft.crlfToLf, ih h.2]
      · rfl
      · rintro tail rfl
        exact absurd rfl h.1

theorem crlfToLf_joinCrlf {lines : List Str} (h : ∀ line ∈ lines, '\r' ∉ line) :
    Draft.crlfToLf (joinCrlf lines) = joinLines lines := by
  induction lines with
  | nil => rfl
  | cons line lines ih =>
      obtain ⟨hline, hlines⟩ := List.forall_mem_cons.mp h
      cases lines with
      | nil => simpa [joinCrlf, joinWith, Draft.crlfToLf] using crlfToLf_append hline []
      | cons next rest =>
          have hjoin : joinCrlf (line :: next :: rest) = line ++ '\r' :: '\n' :: joinCrlf (next :: rest) := by
            simp [joinCrlf, joinWith]
          rw [hjoin, crlfToLf_append hline, Draft.crlfToLf, ih hlines, joinLines_cons_cons]

/-- The first character stays, unless it is half of a line break. -/
theorem head?_crlfToLf (c : Char) (rest : Str) :
    (Draft.crlfToLf (c :: rest)).head? = some c ∨ (Draft.crlfToLf (c :: rest)).head? = some '\n' := by
  by_cases hbreak : ∃ tail, c = '\r' ∧ rest = '\n' :: tail
  · obtain ⟨tail, rfl, rfl⟩ := hbreak
    exact Or.inr rfl
  · rw [Draft.crlfToLf]
    · exact Or.inl rfl
    · intro tail hc hrest
      exact hbreak ⟨tail, hc, hrest⟩

theorem withoutMark_of_head? {s : Str} (h : s.head? ≠ some (Char.ofNat 0xFEFF)) : withoutMark s = s := by
  cases s with
  | nil => rfl
  | cons c rest => exact if_neg (by simpa using h)

/-- A byte order mark is no line break. -/
theorem crlfToLf_withoutMark (s : Str) : Draft.crlfToLf (withoutMark s) = withoutMark (Draft.crlfToLf s) := by
  cases s with
  | nil => rfl
  | cons c rest =>
      by_cases hmark : c = Char.ofNat 0xFEFF
      · have hsame : Draft.crlfToLf (c :: rest) = c :: Draft.crlfToLf rest :=
          @crlfToLf_append [c] (by rw [hmark]; decide) rest
        rw [hsame, withoutMark, withoutMark, if_pos hmark, if_pos hmark]
      · have hhead : (Draft.crlfToLf (c :: rest)).head? ≠ some (Char.ofNat 0xFEFF) := by
          rcases head?_crlfToLf c rest with heq | heq
          · simpa [heq] using hmark
          · rw [heq]
            decide
        rw [withoutMark_of_head? hhead, withoutMark_of_head? (by simpa using hmark)]

/-- Lines that are joined are read again, unless the last one is empty. -/
theorem lines_joinLines {texts : List Str} (h : ∀ text ∈ texts, '\n' ∉ text ∧ '\r' ∉ text)
    (hlast : texts.getLast? ≠ some []) : lines (joinLines texts) = texts := by
  induction texts with
  | nil => rfl
  | cons text texts ih =>
      obtain ⟨⟨hfeed, hreturn⟩, hrest⟩ := List.forall_mem_cons.mp h
      cases texts with
      | nil =>
          have hne : text ≠ [] := by simpa using hlast
          rw [joinLines_singleton]
          unfold lines
          rw [splitAll_of_none (beq_of_not_mem hfeed)]
          simp [linesOf, hne]
      | cons next rest =>
          have hlater := ih hrest (by simpa using hlast)
          unfold lines at hlater ⊢
          rw [joinLines_cons_cons, splitAll_append (beq_of_not_mem hfeed) (beq_self_eq_true '\n')]
          dsimp only at hlater ⊢
          rw [linesOf, stripSuffix_of_not_mem hreturn, hlater]
          rfl

/-! ## What was typed -/

namespace Proto.Draft

/-- The lines of the body as they were typed, without the empty ones at the end. -/
def typedLines (d : Draft) : List Str := (textLines d.body).rdropWhile List.isEmpty

/-- The body as it is shown. -/
def shownText (d : Draft) : Str := joinLines d.typedLines

variable {d : Draft}

theorem bodyLines_eq (d : Draft) : d.bodyLines = d.typedLines.map asBytes := by
  have hempty : (fun line : Str => (asBytes line).isEmpty) = List.isEmpty := by
    funext line
    rw [Bool.eq_iff_iff, List.isEmpty_iff, List.isEmpty_iff, asBytes_eq_nil]
  have hmap : ∀ lines : List Str, (lines.map asBytes).rdropWhile List.isEmpty =
      (lines.rdropWhile List.isEmpty).map asBytes := by
    intro lines
    rw [List.rdropWhile, List.rdropWhile, ← List.map_reverse, List.dropWhile_map, ← List.map_reverse]
    rw [← hempty]
    rfl
  exact hmap _

theorem typedLines_plain (hcr : '\r' ∉ d.body) : ∀ line ∈ d.typedLines, '\n' ∉ line ∧ '\r' ∉ line := by
  intro line hline
  have hpiece := (List.rdropWhile_prefix _ _).subset hline
  exact ⟨fun hmem => absurd (splitAll_subset hpiece _ hmem).2 (by decide),
    fun hmem => hcr (splitAll_subset hpiece _ hmem).1⟩

/-- There is no empty line at the end. -/
theorem typedLines_last (d : Draft) : d.typedLines.getLast? ≠ some [] := by
  intro hlast
  have hne : d.typedLines ≠ [] := by
    rintro hnil
    rw [hnil] at hlast
    cases hlast
  have hkept := List.rdropWhile_last_not List.isEmpty (textLines d.body) hne
  rw [List.getLast?_eq_some_getLast hne] at hlast
  rw [show (List.rdropWhile List.isEmpty (textLines d.body)).getLast hne = [] from Option.some.inj hlast] at hkept
  exact hkept rfl

end Proto.Draft

/-! ## The fields that say how it is encoded -/

/-- The headers that decide how the body of an article is shown. -/
def mimeNames : List String := ["Content-Type", "Content-Transfer-Encoding", "Content-Disposition"]

section Fields

variable {base64 : Bytes → Str} {codecs : Codecs} {d : Draft} {article : ReceivedArticle}

/-- A field is looked up by the name and the value alone. -/
theorem get_of_fields {headers : Headers} {fields : List (Str × Bytes)}
    (h : headers.entries.map (fun field => (field.1.asStr, field.2)) = fields) (name : String) :
    headers.get name = (fields.find? fun field => eqIgnoreAsciiCase field.1 name.toList).map (·.2) := by
  rw [← h, List.find?_map, Option.map_map]
  rfl

/-- A header that is added to the draft where it is sent. -/
def added (d : Draft) (name : String) : Option Str :=
  (d.mimeFields.find? fun field => eqIgnoreAsciiCase field.1 name.toList).map (·.2)

/-- A header that the draft does not have is one that was added to it, or none. -/
theorem get_added (h : Carries base64 d article) {name : String} (hnone : d.header name.toList = none) :
    article.headers.get name = (added d name).map asBytes := by
  have hmissing : d.headers.find? (fun field => eqIgnoreAsciiCase field.1 name.toList) = none := by
    simpa [Draft.header] using hnone
  rw [get_of_fields h.fields, Draft.sentFields, List.find?_append, List.find?_map, List.find?_map]
  show (((d.headers.find? fun field => eqIgnoreAsciiCase field.1 name.toList).map _).or
    ((d.mimeFields.find? fun field => eqIgnoreAsciiCase field.1 name.toList).map _)).map _ = _
  rw [hmissing, Option.map_none, Option.none_or, Option.map_map, added, Option.map_map]
  rfl

/-- What is added to a draft that has none of it: nothing to a text in ASCII, else the charset and the encoding. -/
theorem added_mimeNames (hnone : ∀ name ∈ mimeNames, d.header name.toList = none) :
    mimeNames.map (added d) =
      if strIsAscii d.body then [none, none, none]
      else [some "text/plain; charset=utf-8".toList, some "8bit".toList, none] := by
  unfold added Draft.mimeFields
  split
  · rfl
  · have htype : d.header "Content-Type".toList = none := hnone _ (by decide)
    have hencoding : d.header "Content-Transfer-Encoding".toList = none := hnone _ (by decide)
    rw [List.filter_cons, List.filter_cons, List.filter_cons, List.filter_nil]
    dsimp only
    rw [htype, hencoding]
    cases (d.header "MIME-Version".toList).isNone <;> decide

/-- **How an article that was written here says it is to be read**: as text that is not encoded, in UTF-8 if it is not
ASCII, and not to be saved. -/
theorem withoutSplitting_written (h : Carries base64 d article) (hnone : ∀ name ∈ mimeNames, d.header name.toList = none)
    (lines : List Bytes) : BodyPart.withoutSplitting codecs article.headers lines =
      { headers := article.headers
        contentType :=
          { ContentType.default with
            params := if strIsAscii d.body then [] else [("charset".toList, "utf-8".toList)] }
        encoding := .none
        disposition := none
        lines
        parts := [] } := by
  have hget : ∀ name ∈ mimeNames, article.headers.get name = (added d name).map asBytes :=
    fun name hmem => get_added h (hnone name hmem)
  have hdecoded : ∀ value ∈ ["text/plain; charset=utf-8".toList, "8bit".toList],
      codecs.decoded (asBytes value) = value := by
    intro value hvalue
    have hplain : ∀ value ∈ ["text/plain; charset=utf-8".toList, "8bit".toList],
        IsPlain (asBytes value) ∧ collapseWhitespace value = value := by decide +kernel
    obtain ⟨hplain, hcollapsed⟩ := hplain value hvalue
    rw [codecs.decoded_plain hplain]
    simp only [Codecs.decode8bitLossy, fromUtf8_asBytes, Option.getD_some, hcollapsed]
  have hadded := added_mimeNames hnone
  unfold BodyPart.withoutSplitting Headers.getDecoded
  rw [hget _ (by decide), hget _ (by decide), hget _ (by decide)]
  cases hascii : strIsAscii d.body with
  | true =>
      rw [hascii] at hadded
      obtain ⟨htype, hadded⟩ := List.cons.inj hadded
      obtain ⟨hencoding, hadded⟩ := List.cons.inj hadded
      rw [htype, hencoding, (List.cons.inj hadded).1]
      rfl
  | false =>
      rw [hascii] at hadded
      obtain ⟨htype, hadded⟩ := List.cons.inj hadded
      obtain ⟨hencoding, hadded⟩ := List.cons.inj hadded
      rw [htype, hencoding, (List.cons.inj hadded).1]
      simp only [Option.map_some, hdecoded _ List.mem_cons_self, hdecoded _ (List.mem_cons_of_mem _ List.mem_cons_self)]
      rfl

end Fields

/-! ## The text in the pane -/

/-- An article as the reader looks into it. -/
def prepared (codecs : Codecs) (article : ReceivedArticle) : Article where
  number := article.number
  subject := article.subject codecs
  author := article.author codecs
  followupTo := article.headers.getDecoded codecs "Followup-To"
  newsgroups := article.headers.getDecoded codecs "Newsgroups"
  displayText := lines (article.displayText codecs)
  attachments := article.attachments codecs
  messageId := article.messageId codecs
  references := article.references codecs

section Pane

variable {base64 : Bytes → Str} {codecs : Codecs} {d : Draft} {article : ReceivedArticle} {decode : Bytes → Str}

/-- A text in ASCII begins with no byte order mark. -/
theorem withoutMark_ascii (hascii : strIsAscii d.body = true) : withoutMark d.shownText = d.shownText := by
  refine withoutMark_of_head? fun hmark => ?_
  rcases mem_joinWith (List.mem_of_mem_head? hmark) with hbreak | ⟨line, hline, hmem⟩
  · exact absurd hbreak (by decide)
  · have hbody := (splitAll_subset ((List.rdropWhile_prefix _ _).subset hline) _ hmem).1
    exact absurd (of_decide_eq_true (List.all_eq_true.mp hascii _ hbody)) (by decide)

/-- **The text of an article that was written here** is the text that was typed. -/
theorem text_written (hlabel : codecs.forLabel "utf-8".toList = some decode)
    (hdecode : ∀ s, decode (asBytes s) = withoutMark s) (hcr : '\r' ∉ d.body) (h : Carries base64 d article)
    (hnone : ∀ name ∈ mimeNames, d.header name.toList = none) :
    (BodyPart.withoutSplitting codecs article.headers article.body).text codecs = withoutMark d.shownText := by
  have hoctets : BodyPart.rejoin article.body = asBytes (joinCrlf d.typedLines) := by
    rw [h.body, Draft.bodyLines_eq, rejoin_asBytes]
  have hjoined : Draft.crlfToLf (joinCrlf d.typedLines) = d.shownText :=
    crlfToLf_joinCrlf fun line hline => (Draft.typedLines_plain hcr line hline).2
  rw [withoutSplitting_written h hnone]
  unfold BodyPart.text BodyPart.textOf BodyPart.decoded ContentType.charset
  dsimp only
  rw [hoctets]
  cases hascii : strIsAscii d.body with
  | true =>
      show Draft.crlfToLf (codecs.decode8bitLossy (asBytes (joinCrlf d.typedLines))) = _
      rw [Codecs.decode8bitLossy, fromUtf8_asBytes, Option.getD_some, hjoined, withoutMark_ascii hascii]
  | false =>
      show Draft.crlfToLf (codecs.decodeWithCharset (asBytes (joinCrlf d.typedLines)) "utf-8".toList) = _
      have hutf8 : trimMatches '"' (trim (splitAll (· == '*') "utf-8".toList).1) = "utf-8".toList := by decide
      unfold Codecs.decodeWithCharset
      dsimp only
      rw [hutf8, hlabel]
      dsimp only
      rw [hdecode, crlfToLf_withoutMark, hjoined]

/-- **What is typed is what is shown**: an article that was written here shows its text, which is only changed where it
mentions armour or begins with a byte order mark, and lists nothing beside it. -/
theorem shown_as_typed (hlabel : codecs.forLabel "utf-8".toList = some decode)
    (hdecode : ∀ s, decode (asBytes s) = withoutMark s) (hcr : '\r' ∉ d.body) (h : Carries base64 d article)
    (hnone : ∀ name ∈ mimeNames, d.header name.toList = none) :
    article.displayText codecs = withoutClearsign (withoutMark d.shownText) ∧ article.attachments codecs = [] ∧
      (¬ MentionsArmour d.shownText → d.shownText.head? ≠ some (Char.ofNat 0xFEFF) →
        (ArticleView.new (prepared codecs article)).body = d.typedLines) := by
  have htext := text_written hlabel hdecode hcr h hnone
  have hwritten : BodyPart.withoutSplitting codecs article.headers article.body = _ :=
    withoutSplitting_written h hnone article.body
  generalize hpart : BodyPart.withoutSplitting codecs article.headers article.body = part at htext hwritten
  have hsingle : (article.contentType codecs).isMultipart = false := by
    have htype : article.contentType codecs = part.contentType := by rw [← hpart]; rfl
    rw [htype, hwritten]
    rfl
  have hdisplayable : part.isDisplayable codecs = true := by
    rw [hwritten]
    rfl
  have hflowed : part.declares "format" "flowed" = false := by
    rw [hwritten]
    cases strIsAscii d.body <;> rfl
  obtain ⟨hdisplay, hattached⟩ := displayText_whole hsingle
  rw [bodyPart_whole hsingle, hpart, hdisplayable] at hdisplay hattached
  have hshown : article.displayText codecs = withoutClearsign (withoutMark d.shownText) := by
    rw [hdisplay, if_pos rfl, ReceivedArticle.shownOf, hflowed, htext]
    rfl
  refine ⟨hshown, hattached, fun harmour hmark => ?_⟩
  have hsame : article.displayText codecs = d.shownText := by
    rw [hshown, withoutMark_of_head? hmark, withoutClearsign, stripClearsign_eq_none.mpr harmour, Option.getD_none]
  have hlines : lines (article.displayText codecs) = d.typedLines := by
    rw [hsame]
    exact lines_joinLines (Draft.typedLines_plain hcr) d.typedLines_last
  simp [ArticleView.new, prepared, hlines, hattached]

end Pane

/-! ### A text that is not ASCII -/

/-- What is written in the editor, with an empty line at the end. -/
def typedText : Str := "From: a@b\nSubject: c\nNewsgroups: misc.test\n\nZoë\n\n.dot\n\n".toList

theorem shown_as_typed_accented : ∃ sent, (Draft.parse typedText).toLines base64Standard = .ok sent ∧
    (ArticleView.new (prepared utf8Codecs (ReceivedArticle.fromBlock sent))).body =
      ["Zoë".toList, [], ".dot".toList] := by
  have hfits : ((Draft.parse typedText).toLines base64Standard).toOption.isSome = true := by decide +kernel
  cases hsent : (Draft.parse typedText).toLines base64Standard with
  | error e =>
      rw [hsent] at hfits
      cases hfits
  | ok sent =>
      refine ⟨sent, rfl, ?_⟩
      obtain ⟨-, hfields, hmalformed, hbody⟩ := Draft.toLines_article isBase64_standard hsent
      have htyped : (Draft.parse typedText).typedLines = ["Zoë".toList, [], ".dot".toList] := by decide +kernel
      have hlabel : utf8Codecs.forLabel "utf-8".toList = some decodeUtf8 := rfl
      obtain ⟨-, -, hshown⟩ := shown_as_typed hlabel decodeUtf8_asBytes (Draft.parse_clean typedText).2
        ⟨hfields, hmalformed, hbody⟩ (by decide +kernel)
      rw [hshown ?_ (by decide +kernel), htyped]
      rintro ⟨before, after, htext, -⟩
      have hmem : 'P' ∈ before ++ clearsignBegin ++ after :=
        List.mem_append_left _ (List.mem_append_right _ (by decide))
      rw [← htext] at hmem
      exact absurd hmem (by decide +kernel)

end Nntp
