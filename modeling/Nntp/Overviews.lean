import Nntp.Proto.Body
import Nntp.Proto.Overview
import Nntp.TestServer.Session

/-!
# Overview lines, from the server to the client

`Article::overview_line` writes the line that `OverviewRecord::parse` reads, in the layout the server announces.
The values stand between tabs. The server takes them from the head with a reader of its own, which leaves a tab
inside a value where it is, so a header that is folded with a tab moves everything behind it by a field.
-/

namespace Nntp.Proto

/-! ## The layout -/

/-- The eight fields the server announces. -/
def OverviewFmt.announced : OverviewFmt where
  fields :=
    [{ name := "Subject".toList, full := false, metadata := false },
      { name := "From".toList, full := false, metadata := false },
      { name := "Date".toList, full := false, metadata := false },
      { name := "Message-ID".toList, full := false, metadata := false },
      { name := "References".toList, full := false, metadata := false },
      { name := "bytes".toList, full := false, metadata := true },
      { name := "lines".toList, full := false, metadata := true },
      { name := "Xref".toList, full := true, metadata := false }]

/-- The lines the server sends of its layout. -/
theorem OverviewFmt.parse_layout (decoders : Decoders) :
    OverviewFmt.parse decoders
        (["Subject:", "From:", "Date:", "Message-ID:", "References:", ":bytes", ":lines", "Xref:full"].map
          fun line => asBytes line.toList) =
      .announced := by
  unfold OverviewFmt.parse
  simp only [List.filterMap_map, Function.comp_def, decode8bitLossy_asBytes]
  rfl

namespace OverviewRecord

variable (decoders : Decoders)

theorem setFields_announced (number : UInt64) (a b c d e f g h : Bytes) :
    setFields decoders .announced (bare number) 0 [a, b, c, d, e, f, g, h] =
      { number
        subject := trim (decoders.decodeHeaderValue a)
        from_ := trim (decoders.decodeHeaderValue b)
        dateRaw := trim (decode8bitLossy decoders c)
        date := decoders.parseDate (trim (decode8bitLossy decoders c))
        messageId := (MessageId.parse (decode8bitLossy decoders d)).toOption
        references := MessageId.parseList (decode8bitLossy decoders e)
        bytes := parseCount decoders f
        lines := parseCount decoders g
        extra := [("Xref".toList, trim (decoders.decodeHeaderValue (stripFullPrefix h "Xref".toList)))] } := by
  rfl

/-- Only what is behind the seventh field adds to the further ones. -/
theorem length_extra_setField (record : OverviewRecord) (index : Nat) (raw : Bytes) :
    (setField decoders .announced record index raw).extra.length =
      record.extra.length + if 7 ≤ index then 1 else 0 := by
  match index with
  | 0 => rfl
  | 1 => rfl
  | 2 => rfl
  | 3 => rfl
  | 4 => rfl
  | 5 => rfl
  | 6 => rfl
  | 7 => exact List.length_append
  | n + 8 =>
      rw [if_pos (by omega)]
      exact List.length_append

theorem length_extra_setFields (record : OverviewRecord) (index : Nat) (parts : List Bytes) :
    (setFields decoders .announced record index parts).extra.length =
      record.extra.length + (parts.length - (7 - index)) := by
  induction parts generalizing record index with
  | nil => simp [setFields]
  | cons raw parts ih =>
      rw [setFields, ih, length_extra_setField, List.length_cons]
      split <;> omega

theorem parseCount_display (n : Nat) :
    parseCount decoders (asBytes (display n)) =
      if n < 18446744073709551616 then some (UInt64.ofNat n) else none := by
  unfold parseCount
  rw [decode8bitLossy_asBytes, trim_display, parseU64_displayed]

end OverviewRecord

end Nntp.Proto

namespace Nntp.TestServer

open Nntp.Proto

namespace Article

/-! ## A header as the server reads it -/

/-- Whether a line continues the field in front of it. -/
def continues (line : Bytes) : Bool := line.head?.any isBlank

/-- What is behind the colon of a line that begins the field. -/
def startsField (name : Str) (line : Bytes) : Option Bytes :=
  if continues line then none
  else
    (splitOnce (· == 0x3A) line).bind fun parts =>
      if eqIgnoreCaseBytes parts.1 (asBytes name) then some parts.2 else none

/-- A field of the head with its lines joined: the first one without the blanks around what it says, and
those that continue it as they stand. -/
def joined (name : Str) : List Bytes → Bytes
  | [] => []
  | line :: lines =>
      match startsField name line with
      | some value => trimBlanks value ++ (lines.takeWhile continues).flatten
      | none => joined name lines

theorem headerLoop_some (name : Str) (lines : List Bytes) (value : Bytes) :
    headerLoop name lines (some value) =
      some (value ++ (lines.takeWhile continues).flatten) := by
  induction lines generalizing value with
  | nil => simp [headerLoop]
  | cons line lines ih =>
      unfold headerLoop
      change (if continues line then _ else _) = _
      by_cases hblank : continues line = true
      · rw [if_pos hblank, Option.map_some, ih, List.takeWhile_cons_of_pos hblank, List.flatten_cons,
          List.append_assoc]
      · rw [if_neg hblank, List.takeWhile_cons_of_neg hblank, List.flatten_nil, List.append_nil]

/-- **The loop takes the joined lines** of the first field of the name. -/
theorem headerLoop_none (name : Str) (lines : List Bytes) :
    (headerLoop name lines none).getD [] = joined name lines := by
  induction lines with
  | nil => rfl
  | cons line lines ih =>
      unfold headerLoop joined startsField
      change Option.getD (if continues line then _ else _) [] = _
      by_cases hblank : continues line = true
      · rw [if_pos hblank, if_pos hblank]
        exact ih
      · rw [if_neg hblank, if_neg hblank]
        cases hsplit : splitOnce (· == (0x3A : UInt8)) line with
        | none => exact ih
        | some parts =>
            dsimp only [Option.bind_some]
            split
            · rw [headerLoop_some, Option.getD_some]
            · exact ih

theorem headerValue_eq_joined (article : Article) (name : Str) :
    (article.headerValue name).getD [] = joined name article.head :=
  headerLoop_none name article.head

/-! ## The line and the record -/

/-- The values of the line, which stand behind the number and a tab each. -/
def overviewValues (article : Article) (number : UInt64) (group : Str) : List Bytes :=
  [joined "Subject".toList article.head, joined "From".toList article.head, joined "Date".toList article.head,
    asBytes article.messageId, joined "References".toList article.head, asBytes (display article.byteLen),
    asBytes (display article.lineCount),
    asBytes ("Xref: test.invalid ".toList ++ group ++ ':' :: display number.toNat)]

theorem overviewLine_eq (article : Article) (number : UInt64) (group : Str) :
    article.overviewLine number group =
      asBytes (display number.toNat) ++ (article.overviewValues number group).flatMap (0x09 :: ·) := by
  unfold overviewLine overviewValues
  simp only [headerValue_eq_joined, List.flatMap_cons, List.flatMap_nil, List.append_assoc, List.append_nil,
    List.cons_append, List.nil_append]

theorem pieces_length_tab {value : Bytes} :
    (pieces (· == (0x09 : UInt8)) value).length = 1 ↔ (0x09 : UInt8) ∉ value := by
  rw [pieces_length_eq_one]
  refine ⟨fun h hmem => absurd (h _ hmem) (by decide), fun h b hb => ?_⟩
  rw [beq_eq_false_iff_ne]
  rintro rfl
  exact h hb

theorem pieces_tabFree {value : Bytes} (h : (0x09 : UInt8) ∉ value) :
    pieces (· == (0x09 : UInt8)) value = [value] :=
  pieces_of_none (pieces_length_eq_one.mp (pieces_length_tab.mpr h))

theorem tab_not_mem_display (n : Nat) : (0x09 : UInt8) ∉ asBytes (display n) := by
  rw [mem_asBytes_ascii (c := '\t') rfl (by decide)]
  intro hmem
  exact absurd ((display_spec n).2.1 _ hmem) (by decide)

/-- The line is read as all the pieces of its values, in order. -/
theorem parse_overviewLine (decoders : Decoders) (article : Article) (number : UInt64) (group : Str)
    (fmt : OverviewFmt) :
    OverviewRecord.parse decoders (article.overviewLine number group) fmt =
      .ok (OverviewRecord.setFields decoders fmt (.bare number) 0
        ((article.overviewValues number group).flatMap (pieces (· == 0x09)))) := by
  have hnumber : pieces (· == (0x09 : UInt8)) (asBytes (display number.toNat)) =
      [asBytes (display number.toNat)] :=
    pieces_tabFree (tab_not_mem_display _)
  have hpieces : pieces (· == (0x09 : UInt8)) (article.overviewLine number group) =
      asBytes (display number.toNat) :: (article.overviewValues number group).flatMap (pieces (· == 0x09)) := by
    rw [overviewLine_eq, pieces_flatMap (p := (· == (0x09 : UInt8))) (beq_self_eq_true _), hnumber,
      List.singleton_append]
  obtain ⟨hfirst, hrest⟩ := List.cons.inj hpieces
  unfold OverviewRecord.parse
  simp only [hfirst, hrest, decode8bitLossy_asBytes, trim_display, parseU64_display]

/-- What the client's header parser reads as the value of a header of the article. -/
def own (article : Article) (name : String) : Bytes :=
  ((Headers.parseLines article.head).get name).getD []

/-- The record says of the article what its own headers say. -/
structure Describes (decoders : Decoders) (article : Article) (number : UInt64) (record : OverviewRecord) :
    Prop where
  number : record.number = number
  subject : record.subject = trim (decoders.decodeHeaderValue (article.own "Subject"))
  from_ : record.from_ = trim (decoders.decodeHeaderValue (article.own "From"))
  dateRaw : record.dateRaw = trim (decode8bitLossy decoders (article.own "Date"))
  messageId : record.messageId =
    (MessageId.parse (decode8bitLossy decoders (article.own "Message-ID"))).toOption
  references : record.references = MessageId.parseList (decode8bitLossy decoders (article.own "References"))
  bytes : record.bytes.map UInt64.toNat = some article.byteLen
  lines : record.lines.map UInt64.toNat = some article.lineCount

/-- No value of the line has a tab in it. -/
structure TabFree (article : Article) (group : Str) : Prop where
  headers : ∀ name ∈ ["Subject", "From", "Date", "References"],
    (0x09 : UInt8) ∉ joined name.toList article.head
  messageId : (0x09 : UInt8) ∉ asBytes article.messageId
  group : (0x09 : UInt8) ∉ asBytes group

/-- The lines of the five headers come to the same, joined as they stand and read by the client. -/
structure ReadAlike (decoders : Decoders) (article : Article) : Prop where
  subject : trim (decoders.decodeHeaderValue (joined "Subject".toList article.head)) =
    trim (decoders.decodeHeaderValue (article.own "Subject"))
  from_ : trim (decoders.decodeHeaderValue (joined "From".toList article.head)) =
    trim (decoders.decodeHeaderValue (article.own "From"))
  date : trim (decode8bitLossy decoders (joined "Date".toList article.head)) =
    trim (decode8bitLossy decoders (article.own "Date"))
  messageId : (MessageId.parse article.messageId).toOption =
    (MessageId.parse (decode8bitLossy decoders (article.own "Message-ID"))).toOption
  references : MessageId.parseList (decode8bitLossy decoders (joined "References".toList article.head)) =
    MessageId.parseList (decode8bitLossy decoders (article.own "References"))

/-- As many pieces as values: each value is one. -/
theorem forall_one_piece {values : List Bytes}
    (h : (values.flatMap (pieces (· == (0x09 : UInt8)))).length ≤ values.length) :
    ∀ value ∈ values, (0x09 : UInt8) ∉ value := by
  have hpos : ∀ value : Bytes, 1 ≤ (pieces (· == (0x09 : UInt8)) value).length := fun value =>
    Nat.succ_le_succ (Nat.zero_le _)
  have hmany : ∀ values : List Bytes,
      values.length ≤ (values.flatMap (pieces (· == (0x09 : UInt8)))).length := by
    intro values
    induction values with
    | nil => exact Nat.zero_le _
    | cons value values ih =>
        have := hpos value
        rw [List.flatMap_cons, List.length_append, List.length_cons]
        omega
  induction values with
  | nil => exact fun _ hmem => absurd hmem List.not_mem_nil
  | cons value values ih =>
      rw [List.flatMap_cons, List.length_append, List.length_cons] at h
      have hfirst := hpos value
      have hrest := hmany values
      intro v hv
      rcases List.mem_cons.mp hv with rfl | hv
      · exact pieces_length_tab.mp (by omega)
      · exact ih (by omega) v hv

/-- The values that are no number are what has to be free of tabs. -/
theorem tabFree_iff (article : Article) (number : UInt64) (group : Str) :
    (∀ value ∈ article.overviewValues number group, (0x09 : UInt8) ∉ value) ↔ TabFree article group := by
  have hxref : (0x09 : UInt8) ∉ asBytes ("Xref: test.invalid ".toList ++ group ++ ':' :: display number.toNat) ↔
      (0x09 : UInt8) ∉ asBytes group := by
    have hfixed : (0x09 : UInt8) ∉ asBytes "Xref: test.invalid ".toList := by decide
    have hcolon : (0x09 : UInt8) ∉ asBytes [':'] := by decide
    have hdisplay := tab_not_mem_display number.toNat
    rw [← List.singleton_append, asBytes_append, asBytes_append, asBytes_append]
    simp only [List.mem_append, hfixed, hcolon, hdisplay, false_or, or_false]
  have hbytes := tab_not_mem_display article.byteLen
  have hlines := tab_not_mem_display article.lineCount
  unfold overviewValues
  simp only [List.forall_mem_cons, hxref, hbytes, hlines, not_false_eq_true, true_and]
  constructor
  · rintro ⟨hsubject, hfrom, hdate, hid, hreferences, hgroup, -⟩
    refine ⟨?_, hid, hgroup⟩
    simp only [List.forall_mem_cons]
    exact ⟨hsubject, hfrom, hdate, hreferences, List.forall_mem_nil _⟩
  · rintro ⟨hheaders, hid, hgroup⟩
    simp only [List.forall_mem_cons] at hheaders
    obtain ⟨hsubject, hfrom, hdate, hreferences, -⟩ := hheaders
    exact ⟨hsubject, hfrom, hdate, hid, hreferences, hgroup, List.forall_mem_nil _⟩

/-- Without a tab each value lands in its own field. -/
theorem parse_tabFree (decoders : Decoders) {article : Article} {group : Str} (h : TabFree article group)
    (number : UInt64) :
    OverviewRecord.parse decoders (article.overviewLine number group) .announced =
      .ok (OverviewRecord.setFields decoders .announced (.bare number) 0
        (article.overviewValues number group)) := by
  have hall := (tabFree_iff article number group).mpr h
  have hpieces : ∀ values : List Bytes, (∀ value ∈ values, (0x09 : UInt8) ∉ value) →
      values.flatMap (pieces (· == 0x09)) = values := by
    intro values
    induction values with
    | nil => exact fun _ => rfl
    | cons value values ih =>
        intro hvalues
        rw [List.flatMap_cons, pieces_tabFree (hvalues value List.mem_cons_self),
          ih fun v hv => hvalues v (List.mem_cons_of_mem _ hv), List.singleton_append]
  rw [parse_overviewLine, hpieces _ hall]

/-- A count that is read back is in range. -/
theorem count_eq {n m : Nat} :
    (if n < 18446744073709551616 then some (UInt64.ofNat n) else none).map UInt64.toNat = some m ↔
      n < 18446744073709551616 ∧ n = m := by
  split
  · next hlt =>
      rw [Option.map_some, UInt64.toNat_ofNat', Nat.mod_eq_of_lt hlt]
      simp [hlt]
  · next hge => simp [hge]

theorem lineCount_lt_byteLen (article : Article) : article.lineCount < article.byteLen := by
  have hbody : ∀ lines : List Bytes, lines.length ≤ (lines.map fun line => line.length + 2).sum := by
    intro lines
    induction lines with
    | nil => exact Nat.le_refl _
    | cons line lines ih =>
        rw [List.map_cons, List.sum_cons, List.length_cons]
        omega
  have := hbody article.body
  unfold lineCount byteLen
  omega

/-! ## Heads that are written as fields -/

theorem continues_fold {line : Bytes} (h : line.head? = some 0x20 ∨ line.head? = some 0x09) :
    continues line = true := by
  rcases h with h | h <;> simp [continues, h, isBlank]

theorem continues_name (name : HeaderName) (rest : Bytes) :
    continues (asBytes name.asStr ++ rest) = false := by
  obtain ⟨hspace, htab, -⟩ := head_name name rest
  unfold continues
  cases hhead : (asBytes name.asStr ++ rest).head? with
  | none => rfl
  | some b =>
      rw [hhead] at hspace htab
      simp only [Option.any_some, isBlank, Bool.or_eq_false_iff, beq_eq_false_iff_ne]
      exact ⟨fun h => hspace (congrArg some h), fun h => htab (congrArg some h)⟩

/-- The line a field begins on, asked for a field. -/
theorem startsField_line (name : Str) (field : HeaderName) (rest : Bytes) :
    startsField name (asBytes field.asStr ++ 0x3A :: rest) =
      if eqIgnoreCaseBytes (asBytes field.asStr) (asBytes name) then some rest else none := by
  have hcolon : ∀ b ∈ asBytes field.asStr, (b == (0x3A : UInt8)) = false := by
    intro b hb
    rw [beq_eq_false_iff_ne]
    rintro rfl
    have hmem := (mem_asBytes_ascii (c := ':') rfl (by decide)).mp hb
    exact ((isHeaderName_spec field.wellFormed).2 _ hmem).2.2 rfl
  unfold startsField
  rw [continues_name, if_neg (by decide), splitOnce_append hcolon (beq_self_eq_true _), Option.bind_some]

theorem toAsciiLower_octet {c : Char} (hc : c.toNat < 0x80) :
    (toAsciiLower c).toNat < 0x80 ∧
      toAsciiLowerByte (UInt8.ofNat c.toNat) = UInt8.ofNat (toAsciiLower c).toNat := by
  have hall : ∀ n : Fin 0x80, (toAsciiLower (Char.ofNat n)).toNat < 0x80 ∧
      toAsciiLowerByte (UInt8.ofNat n) = UInt8.ofNat (toAsciiLower (Char.ofNat n)).toNat := by
    decide +kernel
  have := hall ⟨c.toNat, hc⟩
  rwa [Char.ofNat_toNat] at this

theorem lower_asBytes {s : Str} (hs : ∀ c ∈ s, c.toNat < 0x80) :
    (asBytes s).map toAsciiLowerByte = asBytes (s.map toAsciiLower) := by
  have hlower : ∀ c ∈ s.map toAsciiLower, c.toNat < 0x80 := by
    intro c hc
    obtain ⟨d, hd, rfl⟩ := List.mem_map.mp hc
    exact (toAsciiLower_octet (hs d hd)).1
  rw [asBytes_ascii hs, asBytes_ascii hlower, List.map_map, List.map_map]
  exact List.map_congr_left fun c hc => (toAsciiLower_octet (hs c hc)).2

/-- Names are compared octet by octet as they are character by character. -/
theorem eqIgnoreCaseBytes_name {s t : Str} (hs : ∀ c ∈ s, c.toNat < 0x80) (ht : ∀ c ∈ t, c.toNat < 0x80) :
    eqIgnoreCaseBytes (asBytes s) (asBytes t) = eqIgnoreAsciiCase s t := by
  unfold eqIgnoreCaseBytes eqIgnoreAsciiCase
  rw [lower_asBytes hs, lower_asBytes ht, Bool.eq_iff_iff, beq_iff_eq, beq_iff_eq, asBytes_inj]

/-- No blanks stand where a line of the field ends. -/
def Tidy (field : HeaderField) : Prop :=
  field.folds ≠ [] →
    (∀ b ∈ field.first.getLast?, isBlank b = false) ∧ (∀ b ∈ field.folds.flatten.getLast?, isBlank b = false)

theorem rdropWhile_edge {α : Type} {p : α → Bool} {s : List α} (h : ∀ c ∈ s.getLast?, p c = false) :
    s.rdropWhile p = s := by
  rw [List.rdropWhile_eq_self_iff]
  intro hne hp
  have := h _ (List.getLast?_eq_some_getLast hne)
  rw [this] at hp
  cases hp

theorem value_tidy {field : HeaderField} (h : Tidy field) :
    field.value = trimBlanks field.first ++ field.folds.flatten := by
  unfold HeaderField.value trimBlanks
  by_cases hfolds : field.folds = []
  · rw [hfolds, List.flatten_nil, List.append_nil, List.append_nil]
  · obtain ⟨hfirst, hlast⟩ := h hfolds
    have hfront : (field.first.dropWhile isBlank).rdropWhile isBlank = field.first.dropWhile isBlank := by
      refine rdropWhile_edge fun b hb => hfirst b ?_
      obtain ⟨front, hsuffix⟩ := List.dropWhile_suffix (l := field.first) isBlank
      have hne : field.first.dropWhile isBlank ≠ [] := by
        intro hnil
        rw [hnil] at hb
        cases hb
      rw [← hsuffix, List.getLast?_append_of_ne_nil _ hne]
      exact hb
    rw [hfront]
    refine rdropWhile_edge fun b hb => hlast b ?_
    have hne : field.folds.flatten ≠ [] := by
      obtain ⟨line, lines, hcons⟩ := List.exists_cons_of_ne_nil hfolds
      have hline := field.folded line (hcons ▸ List.mem_cons_self)
      rw [hcons, List.flatten_cons]
      intro hnil
      rw [(List.append_eq_nil_iff.mp hnil).1] at hline
      rcases hline with h | h <;> cases h
    rwa [List.getLast?_append_of_ne_nil _ hne] at hb

/-- Behind the lines that continue a field comes no further one of it. -/
theorem takeWhile_continues (field : HeaderField) (fields : List HeaderField) :
    (field.folds ++ fields.flatMap HeaderField.asLines).takeWhile continues = field.folds := by
  rw [List.takeWhile_append_of_pos fun line hline => continues_fold (field.folded line hline)]
  cases fields with
  | nil => simp
  | cons next fields =>
      have hstop := continues_name next.name (0x3A :: next.first)
      rw [List.flatMap_cons, HeaderField.asLines, List.cons_append, List.takeWhile_cons_of_neg (by simp [hstop]),
        List.append_nil]

theorem joined_folds {name : Str} {folds : List Bytes} (h : ∀ line ∈ folds, continues line = true)
    (lines : List Bytes) : joined name (folds ++ lines) = joined name lines := by
  induction folds with
  | nil => rfl
  | cons line folds ih =>
      have hnone : startsField name line = none := if_pos (h line List.mem_cons_self)
      rw [List.cons_append, joined, hnone]
      exact ih fun l hl => h l (List.mem_cons_of_mem _ hl)

/-- **A head written as fields** is read as the first field of the name. -/
theorem joined_written {name : Str} (hname : ∀ c ∈ name, c.toNat < 0x80) (fields : List HeaderField) :
    joined name (fields.flatMap HeaderField.asLines) =
      ((fields.find? fun field => eqIgnoreAsciiCase field.name.asStr name).map fun field =>
        trimBlanks field.first ++ field.folds.flatten).getD [] := by
  induction fields with
  | nil => rfl
  | cons field fields ih =>
      have hascii : ∀ c ∈ field.name.asStr, c.toNat < 0x80 := fun c hc =>
        ((isHeaderName_spec field.name.wellFormed).2 c hc).2.1
      rw [List.flatMap_cons, HeaderField.asLines, List.cons_append, joined, startsField_line,
        eqIgnoreCaseBytes_name hascii hname, List.find?_cons]
      cases hname : eqIgnoreAsciiCase field.name.asStr name with
      | true =>
          rw [if_pos rfl]
          dsimp only
          rw [takeWhile_continues]
          rfl
      | false =>
          rw [if_neg (by decide)]
          dsimp only
          rw [joined_folds fun line hline => continues_fold (field.folded line hline), ih]

/-- **Both sides read a header alike** where the head is written as fields with no blanks at the ends of lines. -/
theorem own_written {article : Article} {fields : List HeaderField}
    (hhead : article.head = fields.flatMap HeaderField.asLines) (htidy : ∀ field ∈ fields, Tidy field)
    {name : String} (hname : ∀ c ∈ name.toList, c.toNat < 0x80) :
    article.own name = joined name.toList article.head := by
  unfold own
  rw [hhead, parseLines_written, joined_written hname]
  unfold Headers.get
  rw [List.find?_map, Option.map_map]
  show ((fields.find? fun field => eqIgnoreAsciiCase field.name.asStr name.toList).map HeaderField.value).getD [] = _
  cases hfind : fields.find? fun field => eqIgnoreAsciiCase field.name.asStr name.toList with
  | none => rfl
  | some field => exact value_tidy (htidy field (List.mem_of_find?_eq_some hfind))

/-! ## The two sides agree -/

/-- The client reads out of the server's line what the article says of itself, each value in its own field: the
one further field is the last of the layout. -/
def Agrees (decoders : Decoders) (article : Article) (number : UInt64) (group : Str) (fmt : OverviewFmt) : Prop :=
  ∃ record, OverviewRecord.parse decoders (article.overviewLine number group) fmt = .ok record ∧
    Describes decoders article number record ∧ record.extra.map (·.1) = ["Xref".toList]

/-- With a tab in a value there is a field too many. -/
theorem tabFree_of_agrees {decoders : Decoders} {article : Article} {number : UInt64} {group : Str}
    (h : Agrees decoders article number group .announced) : TabFree article group := by
  obtain ⟨record, hparse, -, hfurther⟩ := h
  rw [parse_overviewLine] at hparse
  have hrecord := Except.ok.inj hparse
  have hextra : record.extra.length = 1 := by
    have := congrArg List.length hfurther
    rwa [List.length_map] at this
  have hcount := OverviewRecord.length_extra_setFields decoders (.bare number) 0
    ((article.overviewValues number group).flatMap (pieces (· == 0x09)))
  rw [hrecord, hextra] at hcount
  refine (tabFree_iff article number group).mp (forall_one_piece ?_)
  have hnone : (OverviewRecord.bare number).extra.length = 0 := rfl
  have height : (article.overviewValues number group).length = 8 := rfl
  omega

/-- Without a tab, what the record says is what the server's reader made of the head. -/
theorem describes_announced (decoders : Decoders) (article : Article) (number : UInt64) (group : Str) :
    Describes decoders article number (OverviewRecord.setFields decoders .announced (.bare number) 0
        (article.overviewValues number group)) ↔
      ReadAlike decoders article ∧ article.byteLen < 18446744073709551616 := by
  unfold overviewValues
  rw [OverviewRecord.setFields_announced]
  have hlines := lineCount_lt_byteLen article
  constructor
  · rintro ⟨-, hsubject, hfrom, hdate, hid, hreferences, hbytes, -⟩
    rw [decode8bitLossy_asBytes] at hid
    rw [OverviewRecord.parseCount_display, count_eq] at hbytes
    exact ⟨⟨hsubject, hfrom, hdate, hid, hreferences⟩, hbytes.1⟩
  · rintro ⟨⟨hsubject, hfrom, hdate, hid, hreferences⟩, hbytes⟩
    refine ⟨rfl, hsubject, hfrom, hdate, ?_, hreferences, ?_, ?_⟩
    · rw [decode8bitLossy_asBytes]
      exact hid
    · rw [OverviewRecord.parseCount_display, count_eq]
      exact ⟨hbytes, rfl⟩
    · show (OverviewRecord.parseCount decoders (asBytes (display article.lineCount))).map UInt64.toNat = _
      rw [OverviewRecord.parseCount_display, count_eq]
      exact ⟨hlines.trans hbytes, rfl⟩

/-- The layout is announced in one way, if at all. -/
theorem block_announced {session : Session} {block : List Bytes}
    (h : (session.list ["OVERVIEW.FMT".toList]).block = some block) :
    block = ["Subject:", "From:", "Date:", "Message-ID:", "References:", ":bytes", ":lines", "Xref:full"].map
      fun line => asBytes line.toList := by
  have hreply : session.list ["OVERVIEW.FMT".toList] =
      if session.config.quirks.noOverviewFmt then .plain 503 "overview format not available"
      else
        .listing 215 "overview format follows".toList
          (["Subject:", "From:", "Date:", "Message-ID:", "References:", ":bytes", ":lines", "Xref:full"].map
            fun line => asBytes line.toList) := rfl
  rw [hreply] at h
  split at h
  · cases h
  · exact (Option.some.inj h).symm

/-- An article with two references, the second on a line of its own behind `blank`. -/
def threaded (blank : UInt8) : Article where
  messageId := "<c@x.y>".toList
  head :=
    ["From: a".toList, "Subject: s".toList, "Date: d".toList, "Message-ID: <c@x.y>".toList,
      "References: <a@x.y>".toList].map asBytes ++ [blank :: asBytes "<b@x.y>".toList]
  body := [asBytes "text".toList]

/-- Decoders that take every value for UTF-8 without encoded words. -/
def plainDecoders : Decoders where
  windows1252 := fun bytes => bytes.map asciiChar
  decodeHeaderValue := fromUtf8Lossy
  parseDate := fun _ => none

/-- The head of that article as fields. -/
def threadedFields : List HeaderField :=
  [⟨⟨"From".toList, rfl⟩, asBytes " a".toList, [], HeaderField.folded_nil⟩,
    ⟨⟨"Subject".toList, rfl⟩, asBytes " s".toList, [], HeaderField.folded_nil⟩,
    ⟨⟨"Date".toList, rfl⟩, asBytes " d".toList, [], HeaderField.folded_nil⟩,
    ⟨⟨"Message-ID".toList, rfl⟩, asBytes " <c@x.y>".toList, [], HeaderField.folded_nil⟩,
    ⟨⟨"References".toList, rfl⟩, asBytes " <a@x.y>".toList, [asBytes " <b@x.y>".toList], by simp; decide⟩]

end Article

end Nntp.TestServer
