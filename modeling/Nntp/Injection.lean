import Nntp.Framing
import Nntp.Proto.Separator

/-!
# One line each

Whether the lines of a draft are lines on the wire. The name of a header is checked and the value is not: an
ASCII value goes out as it is, line endings and all. In the body, CRs are taken off the ends of the lines and
left where they are inside of one.
-/

namespace Nntp

open Nntp.Lib Nntp.Proto Nntp.Client

/-- The octets between the line feeds of a piece of wire. -/
def wireLines (octets : Bytes) : List Bytes :=
  (splitAll (· == (0x0A : UInt8)) octets).1 :: (splitAll (· == (0x0A : UInt8)) octets).2

/-- A line feed more is a line more. -/
theorem wireLines_append {line : Bytes} (h : (0x0A : UInt8) ∉ line) (rest : Bytes) :
    wireLines (line ++ 0x0A :: rest) = line :: wireLines rest := by
  have hnot : ∀ b ∈ line, (b == (0x0A : UInt8)) = false := by
    intro b hb
    rw [beq_eq_false_iff_ne]
    rintro rfl
    exact h hb
  unfold wireLines
  rw [splitAll_append hnot (beq_self_eq_true _)]

/-- The lines on the wire of lines that are one line each. -/
theorem wireLines_wireBlock {lines : List Bytes} (h : ∀ line ∈ lines, (0x0A : UInt8) ∉ line) :
    wireLines (Connection.wireBlock lines) =
      lines.map (fun line => stuff line ++ [0x0D]) ++ [[0x2E, 0x0D], []] := by
  unfold Connection.wireBlock
  induction lines with
  | nil => rfl
  | cons line lines ih =>
      obtain ⟨hline, hlines⟩ := List.forall_mem_cons.mp h
      have hnot : (0x0A : UInt8) ∉ stuff line ++ [0x0D] := by
        intro hmem
        rcases List.mem_append.mp hmem with hmem | hmem
        · exact not_mem_stuff hline hmem
        · cases List.mem_singleton.mp hmem
      have hoctets : (line :: lines).flatMap (fun line => stuff line ++ [0x0D, 0x0A]) ++ [0x2E, 0x0D, 0x0A] =
          (stuff line ++ [0x0D]) ++ 0x0A ::
            (lines.flatMap (fun line => stuff line ++ [0x0D, 0x0A]) ++ [0x2E, 0x0D, 0x0A]) := by
        simp
      rw [hoctets, wireLines_append hnot, ih hlines]
      rfl

namespace Proto.Draft

variable {base64 : Bytes → Str} {d : Draft} {lines : List Bytes}

/-- The header lines of what is sent: the fields of the draft, and the MIME fields that were added. -/
def headerLines (base64 : Bytes → Str) (d : Draft) : List Bytes :=
  d.headers.map (fun field => fieldLine field.1 (encodeHeaderValue base64 field.2)) ++
    d.mimeFields.map fun field => fieldLine field.1 field.2

/-- No line of the article is more than one line, every header line is a field of the draft or one that was
added, and of the lines that are written the last one, and no other, ends the article. -/
structure InjectionFree (base64 : Bytes → Str) (d : Draft) (lines : List Bytes) : Prop where
  oneLine : ∀ line ∈ lines, (0x0D : UInt8) ∉ line ∧ (0x0A : UInt8) ∉ line
  fields : lines.takeWhile (fun line => !line.isEmpty) = d.headerLines base64
  terminator : ∃ front, wireLines (Connection.wireBlock lines) = front ++ [[0x2E, 0x0D], []] ∧
    ∀ line ∈ front, isTerminator (Connection.popCr line) = false

/-- Every value that goes out as it is is one line, and no CR stands inside of a line of the body. -/
structure OneLineEach (d : Draft) : Prop where
  values : ∀ field ∈ d.headers, strIsAscii field.2 = true → '\n' ∉ field.2 ∧ '\r' ∉ field.2
  body : ∀ line ∈ textLines d.body, '\r' ∉ line.rdropWhile (· == '\r')

/-! ## Characters and octets -/

/-- An ASCII character of a text is an octet of its encoding, and no other character is. -/
theorem mem_asBytes_iff {c : Char} (hc : c.toNat < 0x80) (s : Str) :
    UInt8.ofNat c.toNat ∈ asBytes s ↔ c ∈ s := by
  have hval : (UInt8.ofNat c.toNat).toNat = c.toNat := by
    rw [UInt8.toNat_ofNat']
    omega
  constructor
  · intro h
    obtain ⟨d, hd, hb⟩ := List.mem_flatMap.mp h
    have hsame : d.toNat = c.toNat := by
      rw [utf8EncodeChar_ascii hb (by omega), hval]
    exact Char.toNat_inj.mp hsame ▸ hd
  · intro h
    refine List.mem_flatMap.mpr ⟨c, h, ?_⟩
    have hone := asBytes_ascii (s := [c]) fun d hd => List.mem_singleton.mp hd ▸ hc
    have : String.utf8EncodeChar c = [UInt8.ofNat c.toNat] := by simpa [asBytes] using hone
    rw [this]
    exact List.mem_singleton_self _

/-- Neither a CR nor an LF among the characters, or among the octets. -/
theorem asBytes_oneLine_iff (s : Str) :
    ((0x0D : UInt8) ∉ asBytes s ∧ (0x0A : UInt8) ∉ asBytes s) ↔ '\r' ∉ s ∧ '\n' ∉ s := by
  have hcr := mem_asBytes_iff (c := '\r') (by decide) s
  have hlf := mem_asBytes_iff (c := '\n') (by decide) s
  exact and_congr (not_congr hcr) (not_congr hlf)

/-! ## The lines of the body -/

theorem rdropWhile_cons_congr {p : Char → Bool} {c : Char} {s t : Str}
    (h : s.rdropWhile p = t.rdropWhile p) : (c :: s).rdropWhile p = (c :: t).rdropWhile p := by
  have hcons : ∀ s : Str, (c :: s).rdropWhile p =
      if s.rdropWhile p = [] then [c].rdropWhile p else c :: s.rdropWhile p := by
    intro s
    split
    · next hnil =>
        rw [List.rdropWhile_eq_nil_iff] at hnil
        unfold List.rdropWhile
        rw [List.reverse_cons, List.dropWhile_append_of_pos (by simpa using hnil)]
        rfl
    · next hne => exact @rdropWhile_append _ p [c] _ hne
  rw [hcons s, hcons t, h]

/-- Taking the CRs off the ends of the lines comes to the same, whether those in front of an LF are gone or
not. -/
theorem map_textLines_crlfToLf (s : Str) :
    (textLines (crlfToLf s)).map (fun line => line.rdropWhile (· == '\r')) =
      (textLines s).map fun line => line.rdropWhile (· == '\r') := by
  have hboth : ∀ s : Str,
      (splitAll (· == '\n') (crlfToLf s)).1.rdropWhile (· == '\r') =
        (splitAll (· == '\n') s).1.rdropWhile (· == '\r') ∧
      (splitAll (· == '\n') (crlfToLf s)).2.map (fun line => line.rdropWhile (· == '\r')) =
        (splitAll (· == '\n') s).2.map fun line => line.rdropWhile (· == '\r') := by
    intro s
    induction s using crlfToLf.induct with
    | case1 rest ih =>
        refine ⟨rfl, ?_⟩
        show List.map _ (_ :: _) = List.map _ (_ :: _)
        rw [List.map_cons, List.map_cons, ih.1, ih.2]
    | case2 c rest hnot ih =>
        rw [crlfToLf]
        · unfold splitAll
          split
          · simp [ih.1, ih.2]
          · exact ⟨rdropWhile_cons_congr ih.1, ih.2⟩
        · exact hnot
    | case3 => simp [crlfToLf]
  unfold textLines
  rw [List.map_cons, List.map_cons, (hboth s).1, (hboth s).2]

theorem sentBody_eq (d : Draft) : d.sentBody =
    ((textLines d.body).map fun line => asBytes (line.rdropWhile (· == '\r'))).rdropWhile List.isEmpty := by
  have h := congrArg (List.map asBytes) (map_textLines_crlfToLf d.body)
  rw [List.map_map, List.map_map] at h
  show ((textLines (crlfToLf d.body)).map _).rdropWhile _ = _
  exact congrArg (List.rdropWhile List.isEmpty) h

theorem fieldLine_ne_nil (name value : Str) : fieldLine name value ≠ [] := by
  unfold fieldLine
  rw [Ne, asBytes_eq_nil]
  simp

/-! ## The lines of the article -/

/-- **When the lines of a draft are lines on the wire.** -/
theorem toLines_injectionFree_iff (hbase64 : ∀ bytes, ∀ c ∈ base64 bytes, isBase64 c = true)
    (h : d.toLines base64 = .ok lines) : d.InjectionFree base64 lines ↔ d.OneLineEach := by
  obtain ⟨hproblems, hlines⟩ := toLines_shape h
  have hnames := (isHeaderName_of_problems hproblems).1
  have hname : ∀ {name value : Str}, isHeaderName name = true →
      ('\r' ∉ name ++ ": ".toList ++ value ∧ '\n' ∉ name ++ ": ".toList ++ value ↔
        '\r' ∉ value ∧ '\n' ∉ value) := by
    intro name value hname
    have hgraphic : '\r' ∉ name ∧ '\n' ∉ name := by
      constructor <;> intro hmem <;> exact absurd ((isHeaderName_spec hname).2 _ hmem).1 (by decide)
    simp [hgraphic.1, hgraphic.2]
  constructor
  · intro hfree
    refine ⟨fun field hfield hascii => ?_, fun line hline hcr => ?_⟩
    · have hmem : fieldLine field.1 (encodeHeaderValue base64 field.2) ∈ lines := by
        rw [hlines]
        exact List.mem_append_left _ (List.mem_append_left _ (List.mem_map.mpr ⟨field, hfield, rfl⟩))
      have hone := hfree.oneLine _ hmem
      rw [encodeHeaderValue, if_pos hascii, fieldLine, asBytes_oneLine_iff, hname (hnames field hfield)] at hone
      exact hone.symm
    · -- a line with a CR inside of it is not empty, and stays
      have hsent : asBytes (line.rdropWhile (· == '\r')) ∈ d.sentBody := by
        rw [sentBody_eq]
        refine mem_rdropWhile (List.mem_map.mpr ⟨line, hline, rfl⟩) ?_
        rw [Bool.eq_false_iff, Ne, List.isEmpty_iff, asBytes_eq_nil]
        exact List.ne_nil_of_mem hcr
      have hmem : asBytes (line.rdropWhile (· == '\r')) ∈ lines := by
        rw [hlines]
        exact List.mem_append_right _ (List.mem_cons_of_mem _ hsent)
      have hone := hfree.oneLine _ hmem
      rw [asBytes_oneLine_iff] at hone
      exact hone.1 hcr
  · intro heach
    have hone : ∀ line ∈ lines, (0x0D : UInt8) ∉ line ∧ (0x0A : UInt8) ∉ line := by
      rw [hlines]
      refine List.forall_mem_append.mpr ⟨List.forall_mem_append.mpr ⟨?_, ?_⟩, ?_⟩
      · intro line hline
        obtain ⟨field, hfield, rfl⟩ := List.mem_map.mp hline
        rw [fieldLine, asBytes_oneLine_iff, hname (hnames field hfield)]
        cases hascii : strIsAscii field.2 with
        | true =>
            rw [encodeHeaderValue, if_pos hascii]
            exact (heach.values field hfield hascii).symm
        | false =>
            have hchars := encodeHeaderValue_chars hbase64 hascii
            exact ⟨fun hmem => absurd (hchars _ hmem).1 (by decide),
              fun hmem => absurd (hchars _ hmem).1 (by decide)⟩
      · intro line hline
        obtain ⟨field, hfield, rfl⟩ := List.mem_map.mp hline
        obtain ⟨hheader, htext⟩ := mimeFields_plain hfield
        rw [fieldLine, asBytes_oneLine_iff, hname hheader]
        exact ⟨htext.noCr, htext.noLf⟩
      · refine List.forall_mem_cons.mpr ⟨by simp, fun line hline => ?_⟩
        rw [sentBody_eq] at hline
        obtain ⟨piece, hpiece, rfl⟩ := List.mem_map.mp ((List.rdropWhile_prefix _ _).subset hline)
        rw [asBytes_oneLine_iff]
        refine ⟨heach.body piece hpiece, fun hlf => ?_⟩
        exact lf_not_mem_textLines hpiece ((List.rdropWhile_prefix _ _).subset hlf)
    refine ⟨hone, ?_, _, wireLines_wireBlock fun line hline => (hone line hline).2, fun line hline => ?_⟩
    · have hfields : ∀ line ∈ d.headerLines base64, (!line.isEmpty) = true := by
        intro line hline
        rcases List.mem_append.mp hline with hline | hline
        · obtain ⟨field, _, rfl⟩ := List.mem_map.mp hline
          simpa using fieldLine_ne_nil _ _
        · obtain ⟨field, _, rfl⟩ := List.mem_map.mp hline
          simpa using fieldLine_ne_nil _ _
      rw [hlines]
      show (d.headerLines base64 ++ [] :: d.sentBody).takeWhile _ = _
      rw [List.takeWhile_append_of_pos hfields]
      simp
    · obtain ⟨line, _, rfl⟩ := List.mem_map.mp hline
      rw [popCr_append]
      exact isTerminator_stuff line

/-- A draft whose subject is three lines: the second one ends the article. -/
def forged : Draft where
  headers := [("From".toList, "a@b".toList), ("Newsgroups".toList, "m.t".toList),
    ("Subject".toList, "s\r\n.\r\nQUIT".toList)]
  body := "text".toList


/-- The encoder in the examples: it writes no octet at all. -/
def noBase64 : Bytes → Str := fun _ => []

/-- **A forged article**: the draft has no problem, its subject goes out as three lines, and the article ends
behind the second one. -/
theorem forged_not_injectionFree :
    ∃ lines, forged.toLines noBase64 = .ok lines ∧ ¬ forged.InjectionFree noBase64 lines ∧
      ((wireLines (Connection.wireBlock lines)).filter fun line =>
        isTerminator (Connection.popCr line)).length = 2 := by
  refine ⟨_, rfl, fun hfree => ?_, by decide +kernel⟩
  have hone := hfree.oneLine
  revert hone
  decide +kernel

/-- A draft that is one line each. -/
def plainDraft : Draft where
  headers := [("From".toList, "a@b".toList), ("Newsgroups".toList, "m.t".toList),
    ("Subject".toList, "s".toList)]
  body := "text".toList

theorem toLines_injectionFree_plain :
    ∃ lines, plainDraft.toLines noBase64 = .ok lines ∧
      (plainDraft.InjectionFree noBase64 lines ↔ plainDraft.OneLineEach) :=
  ⟨_, rfl, toLines_injectionFree_iff (fun _ c hc => absurd hc List.not_mem_nil) rfl⟩

end Proto.Draft
end Nntp
