import Nntp.Framing
import Nntp.Proto.Separator
import Nntp.Tui.Keys

/-!
# From the editor to the reader

What is written comes through: the template an editor opens on is read back as the draft it was made from,
and the article that the server takes off the wire has the fields and the body of the draft that was sent.
-/

namespace Nntp

open Nntp.Proto Nntp.Client Nntp.TestServer Nntp.Tui

/-! ## The template -/

theorem normaliseNewlines_of_noCr {s : Str} (h : '\r' ∉ s) : Draft.normaliseNewlines s = s := by
  induction s with
  | nil => rfl
  | cons c cs ih =>
      rw [Draft.normaliseNewlines, ih fun hcs => h (List.mem_cons_of_mem _ hcs)]
      · rintro rest rfl
        exact fun _ => h List.mem_cons_self
      · rintro rfl
        exact h List.mem_cons_self

/-- Lines, each ended, in front of an empty line. -/
theorem splitAll_lines {lines : List Str} (h : ∀ line ∈ lines, '\n' ∉ line) (body : Str) :
    (splitAll (· == '\n') (lines.flatMap (· ++ ['\n']) ++ '\n' :: body)).1 ::
      (splitAll (· == '\n') (lines.flatMap (· ++ ['\n']) ++ '\n' :: body)).2 =
      lines ++ [] :: (splitAll (· == '\n') body).1 :: (splitAll (· == '\n') body).2 := by
  induction lines with
  | nil => rfl
  | cons line lines ih =>
      have hnot : ∀ c ∈ line, (c == '\n') = false := beq_of_not_mem (h line List.mem_cons_self)
      rw [List.flatMap_cons, List.append_assoc, List.append_assoc, List.singleton_append,
        splitAll_append hnot (beq_self_eq_true '\n')]
      exact congrArg (line :: ·) (ih fun l hl => h l (List.mem_cons_of_mem _ hl))

/-- A line that begins a header field. -/
structure StartsField (line : Str) : Prop where
  solid : (trim line).isEmpty = false
  flush : line.head? ≠ some ' ' ∧ line.head? ≠ some '\t'

/-- Lines that begin a field each are not unfolded. -/
theorem unfoldLines_fields {lines rest : List Str} (h : ∀ line ∈ lines, StartsField line) :
    ∀ unfolded, Draft.unfoldLines unfolded (lines ++ [] :: rest) = unfolded ++ lines := by
  induction lines with
  | nil =>
      intro unfolded
      rw [List.append_nil, List.nil_append, Draft.unfoldLines]
      rfl
  | cons line lines ih =>
      intro unfolded
      obtain ⟨hsolid, hspace, htab⟩ := h line List.mem_cons_self
      have hflush : ¬ ((line.head? = some ' ' ∨ line.head? = some '\t') ∧ unfolded ≠ []) := by
        rintro ⟨hblank | hblank, _⟩
        · exact hspace hblank
        · exact htab hblank
      rw [List.cons_append, Draft.unfoldLines, if_neg (by simp [hsolid]), if_neg hflush,
        ih fun l hl => h l (List.mem_cons_of_mem _ hl), List.append_assoc, List.singleton_append]

/-- The body begins behind the first empty line. -/
theorem afterBlankLine_lines {line : Str} {lines : List Str}
    (h : ∀ l ∈ line :: lines, l ≠ [] ∧ '\n' ∉ l) (body : Str) :
    Draft.afterBlankLine ((line :: lines).flatMap (· ++ ['\n']) ++ '\n' :: body) = body := by
  induction lines generalizing line with
  | nil =>
      rw [List.flatMap_singleton, List.append_assoc, List.singleton_append,
        Draft.afterBlankLine_append (h line List.mem_cons_self).2]
      rfl
  | cons next lines ih =>
      have hrest := ih fun l hl => h l (List.mem_cons_of_mem _ hl)
      obtain ⟨hne, hlf⟩ := h next (by simp)
      obtain ⟨c, cs, rfl⟩ := List.exists_cons_of_ne_nil hne
      have hc : c ≠ '\n' := by
        rintro rfl
        exact hlf List.mem_cons_self
      rw [List.flatMap_cons, List.append_assoc, List.append_assoc, List.singleton_append,
        Draft.afterBlankLine_append (h line List.mem_cons_self).2]
      rw [List.flatMap_cons, List.append_assoc, List.cons_append] at hrest ⊢
      rw [Draft.afterBlankLine, hrest]
      intro rest _ heq
      exact hc (List.cons.inj heq).1

/-- A header field that can stand in a template. -/
structure PlainField (field : Str × Str) : Prop where
  name : isHeaderName field.1 = true
  noLf : '\n' ∉ field.2
  noCr : '\r' ∉ field.2
  trimmed : trim field.2 = field.2

/-- **A template is read back as its draft.** -/
theorem parse_templateFor {d : Draft} (hne : d.headers ≠ [])
    (hfields : ∀ field ∈ d.headers, PlainField field) (hbody : '\r' ∉ d.body) :
    Draft.parse (templateFor d) = d := by
  let line (field : Str × Str) : Str := field.1 ++ ": ".toList ++ field.2
  have htemplate : templateFor d = (d.headers.map line).flatMap (· ++ ['\n']) ++ '\n' :: d.body := by
    rw [List.flatMap_map]
    rfl
  have hchars : ∀ field ∈ d.headers, ∀ c ∈ line field, c ≠ '\n' ∧ c ≠ '\r' := by
    intro field hfield c hc
    obtain ⟨hname, hlf, hcr, _⟩ := hfields field hfield
    rcases List.mem_append.mp hc with hc | hc
    · rcases List.mem_append.mp hc with hc | hc
      · have hlow := ((isHeaderName_spec hname).2 c hc).1
        constructor <;> rintro rfl <;> exact absurd hlow (by decide)
      · have : ∀ c ∈ ": ".toList, c ≠ '\n' ∧ c ≠ '\r' := forall_of_all (by decide)
        exact this c hc
    · constructor
      · rintro rfl
        exact hlf hc
      · rintro rfl
        exact hcr hc
  have hstart : ∀ field ∈ d.headers, ∃ c cs, line field = c :: cs ∧ isWhitespace c = false := by
    intro field hfield
    obtain ⟨hnonempty, hgraphic⟩ := isHeaderName_spec (hfields field hfield).name
    obtain ⟨c, cs, hcons⟩ := List.exists_cons_of_ne_nil hnonempty
    refine ⟨c, cs ++ ": ".toList ++ field.2, ?_, ?_⟩
    · show field.1 ++ ": ".toList ++ field.2 = _
      rw [hcons]
      rfl
    · exact isWhitespace_graphic (hgraphic c (hcons ▸ List.mem_cons_self))
  have hlines : ∀ l ∈ d.headers.map line, l ≠ [] ∧ '\n' ∉ l := by
    intro l hl
    obtain ⟨field, hfield, rfl⟩ := List.mem_map.mp hl
    obtain ⟨c, cs, hcons, _⟩ := hstart field hfield
    exact ⟨hcons ▸ List.cons_ne_nil c cs, fun hlf => (hchars field hfield _ hlf).1 rfl⟩
  have hcr : '\r' ∉ templateFor d := by
    rw [htemplate]
    intro hmem
    rcases List.mem_append.mp hmem with hmem | hmem
    · obtain ⟨l, hl, hmem⟩ := List.mem_flatMap.mp hmem
      obtain ⟨field, hfield, rfl⟩ := List.mem_map.mp hl
      rcases List.mem_append.mp hmem with hmem | hmem
      · exact (hchars field hfield _ hmem).2 rfl
      · exact absurd hmem (by decide)
    · rcases List.mem_cons.mp hmem with heq | hmem
      · exact absurd heq (by decide)
      · exact hbody hmem
  have hsolid : ∀ l ∈ d.headers.map line, StartsField l := by
    intro l hl
    obtain ⟨field, hfield, rfl⟩ := List.mem_map.mp hl
    obtain ⟨c, cs, hcons, hblank⟩ := hstart field hfield
    rw [hcons]
    refine ⟨?_, ?_, ?_⟩
    · have hmem := mem_trim (List.mem_cons_self (a := c) (l := cs)) hblank
      cases htrim : trim (c :: cs) with
      | nil =>
          rw [htrim] at hmem
          cases hmem
      | cons _ _ => rfl
    all_goals
      rintro ⟨⟩
      cases hblank
  have hsplit : ∀ field ∈ d.headers, splitOnce (· == ':') (line field) =
      some (field.1, ' ' :: field.2) := by
    intro field hfield
    have hcolon : ∀ c ∈ field.1, (c == ':') = false := fun c hc =>
      beq_eq_false_iff_ne.mpr ((isHeaderName_spec (hfields field hfield).name).2 c hc).2.2
    have := splitOnce_append hcolon (beq_self_eq_true ':') (' ' :: field.2)
    rw [← this]
    show splitOnce _ (field.1 ++ ": ".toList ++ field.2) = _
    rw [List.append_assoc]
    rfl
  unfold Draft.parse
  rw [normaliseNewlines_of_noCr hcr, htemplate]
  dsimp only
  rw [splitAll_lines fun l hl => (hlines l hl).2, unfoldLines_fields hsolid, List.nil_append, List.map_map]
  show ({ headers := _, body := _ } : Draft) = { headers := d.headers, body := d.body }
  congr 1
  · conv => rhs; rw [← List.map_id d.headers]
    refine List.map_congr_left fun field hfield => ?_
    have hname : trim field.1 = field.1 := trim_of_no_whitespace fun c hc =>
      isWhitespace_graphic ((isHeaderName_spec (hfields field hfield).name).2 c hc)
    have hvalue : trim (' ' :: field.2) = field.2 := by
      rw [trim, trimStart, List.dropWhile_cons_of_pos (by decide)]
      exact (hfields field hfield).trimmed
    rw [Function.comp_apply, hsplit field hfield]
    exact Prod.ext hname hvalue
  · obtain ⟨field, fields, hcons⟩ := List.exists_cons_of_ne_nil hne
    rw [hcons] at hlines ⊢
    exact afterBlankLine_lines hlines d.body

/-! ## The wire -/

/-- The article holds what the draft says: its header fields in order, each with the value
`encode_header_value` made of it, after them the MIME headers, and the lines of its body. -/
structure Carries (base64 : Bytes → Str) (d : Draft) (article : ReceivedArticle) : Prop where
  fields : article.headers.entries.map (fun field => (field.1.asStr, field.2)) = d.sentFields base64
  malformed : article.headers.malformed = []
  body : article.body = d.bodyLines

/-- **A written article survives the whole posting path**, from the template to the article that is read. -/
theorem writtenArticle_survives {base64 : Bytes → Str}
    (hbase64 : ∀ bytes, ∀ c ∈ base64 bytes, isBase64 c = true) :
    (∀ d : Draft, d.headers ≠ [] → (∀ field ∈ d.headers, PlainField field) → '\r' ∉ d.body →
      Draft.parse (templateFor d) = d) ∧
    ∀ (text : Str) (lines : List Bytes), (Draft.parse text).toLines base64 = .ok lines →
      (∀ rest, readArticle (Connection.wireBlock lines ++ rest) = (lines, rest)) ∧
      DataBlock.parse (Connection.wireBlock lines) = lines ∧
      Carries base64 (Draft.parse text)
        (ReceivedArticle.fromBlock (DataBlock.parse (Connection.wireBlock lines))) := by
  refine ⟨fun d hne hfields hbody => parse_templateFor hne hfields hbody, fun text lines h => ?_⟩
  obtain ⟨hlf, hfields, hmalformed, hbody⟩ := Draft.toLines_article hbase64 h
  have hparse : DataBlock.parse (Connection.wireBlock lines) = lines := parse_stuffed hlf
  refine ⟨readArticle_wireBlock hlf, hparse, ?_⟩
  rw [hparse]
  exact ⟨hfields, hmalformed, hbody⟩

/-! ### An article that is not ASCII -/

/-- A digit of the standard base64 alphabet. -/
def base64Digit (n : Nat) : Char :=
  "ABCDEFGHIJKLMNOPQRSTUVWXYZabcdefghijklmnopqrstuvwxyz0123456789+/".toList.getD n '='

/-- Standard base64, with padding. -/
def base64Standard : Bytes → Str
  | a :: b :: c :: rest =>
      let n := a.toNat * 65536 + b.toNat * 256 + c.toNat
      base64Digit (n / 262144) :: base64Digit (n / 4096 % 64) :: base64Digit (n / 64 % 64) ::
        base64Digit (n % 64) :: base64Standard rest
  | [a, b] =>
      let n := a.toNat * 1024 + b.toNat * 4
      [base64Digit (n / 4096), base64Digit (n / 64 % 64), base64Digit (n % 64), '=']
  | [a] => [base64Digit (a.toNat / 4), base64Digit (a.toNat % 4 * 16), '=', '=']
  | [] => []

theorem isBase64_digit (n : Nat) : isBase64 (base64Digit n) = true := by
  unfold base64Digit
  rw [List.getD_eq_getElem?_getD]
  have hall : ∀ c ∈ "ABCDEFGHIJKLMNOPQRSTUVWXYZabcdefghijklmnopqrstuvwxyz0123456789+/".toList,
      isBase64 c = true := forall_of_all (by decide)
  cases hget : "ABCDEFGHIJKLMNOPQRSTUVWXYZabcdefghijklmnopqrstuvwxyz0123456789+/".toList[n]? with
  | none => rfl
  | some c => exact hall c (List.mem_of_getElem? hget)

theorem isBase64_standard (bytes : Bytes) : ∀ c ∈ base64Standard bytes, isBase64 c = true := by
  induction bytes using base64Standard.induct with
  | case1 a b c rest ih => simpa [base64Standard, isBase64_digit] using ih
  | case2 a b => simp [base64Standard, isBase64_digit]; decide
  | case3 a => simp [base64Standard, isBase64_digit]; decide
  | case4 => simp [base64Standard]

/-- An article with a name and a body that are not ASCII, the body beginning with an empty line and a line
that looks like a header. -/
def accentedDraft : Draft where
  headers := [("From".toList, "Zoë <z@x>".toList), ("Newsgroups".toList, "misc.test".toList),
    ("Subject".toList, "a: b".toList)]
  body := "\nX-Not: a header\n.dot é\n\n".toList

theorem writtenArticle_survives_accented :
    Draft.parse (templateFor accentedDraft) = accentedDraft ∧
      ∃ lines, accentedDraft.toLines base64Standard = .ok lines ∧
        Carries base64Standard accentedDraft
          (ReceivedArticle.fromBlock (DataBlock.parse (Connection.wireBlock lines))) := by
  obtain ⟨htemplate, hwire⟩ := writtenArticle_survives isBase64_standard
  have hparse := htemplate accentedDraft (by decide) (fun field hfield => ?_) (by decide)
  · have hlines : ∃ lines, accentedDraft.toLines base64Standard = .ok lines := by
      unfold Draft.toLines
      rw [if_pos (by decide +kernel)]
      exact ⟨_, rfl⟩
    obtain ⟨lines, hlines⟩ := hlines
    refine ⟨hparse, lines, hlines, ?_⟩
    have hcarries := (hwire (templateFor accentedDraft) lines (by rw [hparse]; exact hlines)).2.2
    rw [hparse] at hcarries
    exact hcarries
  · have hall : ∀ field ∈ accentedDraft.headers, isHeaderName field.1 = true ∧ '\n' ∉ field.2 ∧
        '\r' ∉ field.2 ∧ trim field.2 = field.2 := by decide +kernel
    obtain ⟨hname, hlf, hcr, htrim⟩ := hall field hfield
    exact ⟨hname, hlf, hcr, htrim⟩

end Nntp
