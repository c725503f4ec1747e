import Nntp.Proto.Headers

/-!
# A draft as the lines of a data block

`Draft::to_lines`, and that the article a reader gets out of these lines is the draft: the header fields in
their order, and the lines of the body.
-/

namespace Nntp.Proto

/-! ## Lines out of a draft -/

/-- `Display` of a problem. -/
def Problem.display : Problem → Str
  | .missingHeader name => name ++ " is missing".toList
  | .malformedHeader line => "not a header line: ".toList ++ line
  | .invalidHeaderName name => "not a header name: ".toList ++ name
  | .serverOwnedHeader name => name ++ " is set by the server, not by the poster".toList
  | .noNewsgroups => "Newsgroups names no group".toList
  | .emptyBody => "the article has no body".toList

/-- `{name}: {value}`. -/
def fieldLine (name value : Str) : Bytes := asBytes (name ++ ": ".toList ++ value)

/-- Pops the empty lines at the end, but not the last line there is. -/
def popEmpty : List Bytes → List Bytes
  | [] => []
  | line :: lines => line :: lines.rdropWhile List.isEmpty

namespace Draft

/-- The MIME headers a body that is not ASCII needs, as far as the draft lacks them. -/
def mimeFields (d : Draft) : List (Str × Str) :=
  if strIsAscii d.body then []
  else
    [("MIME-Version".toList, "1.0".toList),
      ("Content-Type".toList, "text/plain; charset=utf-8".toList),
      ("Content-Transfer-Encoding".toList, "8bit".toList)].filter fun field =>
        (d.header field.1).isNone

/-- The article as the lines of a data block. -/
def toLines (base64 : Bytes → Str) (d : Draft) : Except ProtoError (List Bytes) :=
  if d.problems.isEmpty then
    let body := splitAll (· == '\n') (crlfToLf d.body)
    .ok (popEmpty (d.headers.map (fun field => fieldLine field.1 (encodeHeaderValue base64 field.2)) ++
      d.mimeFields.map (fun field => fieldLine field.1 field.2) ++
      [] :: (body.1 :: body.2).map fun line => asBytes (line.rdropWhile (· == '\r'))))
  else .error (.unpostableDraft (joinWith "; ".toList (d.problems.map Problem.display)))

/-- The header fields of the article that is sent. -/
def sentFields (base64 : Bytes → Str) (d : Draft) : List (Str × Bytes) :=
  d.headers.map (fun field => (field.1, asBytes (encodeHeaderValue base64 field.2))) ++
    d.mimeFields.map fun field => (field.1, asBytes field.2)

/-- The lines of the body, without the empty ones at the end. -/
def bodyLines (d : Draft) : List Bytes :=
  let body := splitAll (· == '\n') d.body
  ((body.1 :: body.2).map asBytes).rdropWhile List.isEmpty

/-- The lines of the body as they are sent, whatever CRs there are. -/
def sentBody (d : Draft) : List Bytes :=
  let body := splitAll (· == '\n') (crlfToLf d.body)
  ((body.1 :: body.2).map fun line => asBytes (line.rdropWhile (· == '\r'))).rdropWhile List.isEmpty

end Draft

/-! ## Header lines, read back -/

/-- The octets of a text that can stand in a header line. -/
theorem FieldText.bytes {text : Str} (h : FieldText text) :
    (asBytes text).dropWhile isBlank = asBytes text ∧
      (asBytes text).rdropWhile isBlank = asBytes text := by
  have hblank : ∀ c ∈ text, c ≠ ' ' ∧ c ≠ '\t' → isBlank (UInt8.ofNat c.toNat) = false := by
    intro c hc hne
    have hlt := h.ascii c hc
    simp only [isBlank, Bool.or_eq_false_iff, beq_eq_false_iff_ne]
    exact ⟨fun heq => hne.1 (byte_ofNat_inj hlt (d := ' ') (by decide) heq),
      fun heq => hne.2 (byte_ofNat_inj hlt (d := '\t') (by decide) heq)⟩
  rw [asBytes_ascii h.ascii]
  constructor
  · cases htext : text with
    | nil => rfl
    | cons c cs =>
        have hc := hblank c (htext ▸ List.mem_cons_self) (h.head c (by rw [htext]; rfl))
        rw [List.map_cons, List.dropWhile_cons_of_neg]
        simpa using hc
  · rcases List.eq_nil_or_concat text with htext | ⟨cs, c, htext⟩
    · rw [htext]
      rfl
    · have hc := hblank c (by simp [htext]) (h.last c (by simp [htext]))
      rw [htext, List.map_concat, List.concat_eq_append, List.rdropWhile_concat_neg]
      simpa using hc

/-- A header line with its field on it, and no further line. -/
def HeaderField.single (name : HeaderName) (text : Str) : HeaderField where
  name := name
  first := 0x20 :: asBytes text
  folds := []
  folded := HeaderField.folded_nil

theorem single_lines (name : HeaderName) (text : Str) :
    (HeaderField.single name text).asLines = [fieldLine name.asStr text] := by
  rw [fieldLine, asBytes_append, asBytes_append, List.append_assoc]
  rfl

theorem single_value (name : HeaderName) {text : Str} (h : FieldText text) :
    (HeaderField.single name text).value = asBytes text := by
  show List.rdropWhile isBlank (List.dropWhile isBlank (0x20 :: asBytes text) ++ []) = asBytes text
  rw [List.append_nil, List.dropWhile_cons_of_pos (by decide), h.bytes.1, h.bytes.2]

/-- **Header lines are read as the fields they were written from.** -/
theorem parseLines_fields {fields : List (HeaderName × Str)} (h : ∀ field ∈ fields, FieldText field.2) :
    Headers.parseLines (fields.map fun field => fieldLine field.1.asStr field.2) =
      { entries := fields.map fun field => (field.1, asBytes field.2), malformed := [] } := by
  have hlines : (fields.map fun field => fieldLine field.1.asStr field.2) =
      (fields.map fun field => HeaderField.single field.1 field.2).flatMap HeaderField.asLines := by
    rw [List.flatMap_map, ← List.flatMap_singleton' (fields.map _), List.flatMap_map]
    exact List.flatMap_congr fun field _ => (single_lines field.1 field.2).symm
  rw [hlines, parseLines_written, List.map_map]
  congr 1
  refine List.map_congr_left fun field hfield => ?_
  exact congrArg (Prod.mk field.1) (single_value field.1 (h field hfield))

/-! ## What a draft that was parsed looks like -/

/-- A character that is in none of the pieces' text. -/
theorem splitAll_subset {p : Char → Bool} {s piece : Str}
    (h : piece ∈ (splitAll p s).1 :: (splitAll p s).2) :
    ∀ c ∈ piece, c ∈ s ∧ p c = false := by
  induction s generalizing piece with
  | nil =>
      intro c hc
      rw [List.mem_singleton.mp h] at hc
      cases hc
  | cons d ds ih =>
      unfold splitAll at h
      intro c hc
      by_cases hd : p d = true
      · rw [if_pos hd] at h
        rcases List.mem_cons.mp h with rfl | h
        · cases hc
        · exact (ih h c hc).imp_left (List.mem_cons_of_mem _)
      · rw [if_neg hd] at h
        rcases List.mem_cons.mp h with rfl | h
        · rcases List.mem_cons.mp hc with rfl | hc
          · exact ⟨List.mem_cons_self, Bool.eq_false_iff.mpr hd⟩
          · exact (ih List.mem_cons_self c hc).imp_left (List.mem_cons_of_mem _)
        · exact (ih (List.mem_cons_of_mem _ h) c hc).imp_left (List.mem_cons_of_mem _)

namespace Draft

theorem normaliseNewlines_noCr (text : Str) : '\r' ∉ normaliseNewlines text := by
  induction text using normaliseNewlines.induct with
  | case1 rest ih => simp [normaliseNewlines, ih]
  | case2 rest hnot ih => simp [normaliseNewlines, ih]
  | case3 c rest hnot hnot' ih =>
      have hc : c ≠ '\r' := fun heq => hnot' heq
      rw [normaliseNewlines]
      · simp [ih, Ne.symm hc]
      · exact hnot
      · exact hnot'
  | case4 => simp [normaliseNewlines]

theorem afterBlankLine_suffix (text : Str) : afterBlankLine text <:+ text := by
  induction text using afterBlankLine.induct with
  | case1 rest => exact ⟨['\n', '\n'], by simp [afterBlankLine]⟩
  | case2 c rest hnot ih =>
      rw [afterBlankLine]
      · exact ih.trans (List.suffix_cons _ _)
      · exact hnot
  | case3 => exact List.suffix_refl _

/-- Unfolding adds spaces only. -/
theorem unfoldLines_chars {P : Char → Prop} (hspace : P ' ') {lines unfolded : List Str}
    (hlines : ∀ line ∈ lines, ∀ c ∈ line, P c) (hunfolded : ∀ line ∈ unfolded, ∀ c ∈ line, P c) :
    ∀ line ∈ unfoldLines unfolded lines, ∀ c ∈ line, P c := by
  induction lines generalizing unfolded with
  | nil => exact hunfolded
  | cons line lines ih =>
      obtain ⟨hline, hlines⟩ := List.forall_mem_cons.mp hlines
      unfold unfoldLines
      split_ifs
      · exact hunfolded
      · refine ih hlines fun l hl => ?_
        rcases List.mem_append.mp hl with hl | hl
        · exact hunfolded l (List.dropLast_subset _ hl)
        · rw [List.mem_singleton.mp hl]
          intro c hc
          rcases List.mem_append.mp hc with hc | hc
          · cases hlast : unfolded.getLast? with
            | none =>
                rw [hlast] at hc
                cases hc
            | some last =>
                rw [hlast] at hc
                exact hunfolded last (List.mem_of_getLast? hlast) c hc
          · rcases List.mem_cons.mp hc with rfl | hc
            · exact hspace
            · exact hline c (mem_of_mem_trim hc)
      · refine ih hlines fun l hl => ?_
        rcases List.mem_append.mp hl with hl | hl
        · exact hunfolded l hl
        · rw [List.mem_singleton.mp hl]
          exact hline

/-- **A parsed draft is clean**: the value of a header is one trimmed line, and there is no CR in the body. -/
theorem parse_clean (text : Str) :
    (∀ field ∈ (parse text).headers, field.1 ≠ [] →
      trim field.2 = field.2 ∧ '\n' ∉ field.2 ∧ '\r' ∉ field.2) ∧ '\r' ∉ (parse text).body := by
  have hcr := normaliseNewlines_noCr text
  refine ⟨fun field hfield hne => ?_, fun hmem => hcr ((afterBlankLine_suffix _).subset hmem)⟩
  obtain ⟨line, hline, rfl⟩ := List.mem_map.mp hfield
  have hclean : ∀ c ∈ line, c ≠ '\n' ∧ c ≠ '\r' := by
    refine unfoldLines_chars (by decide) (fun l hl c hc => ?_) (fun l hl => absurd hl List.not_mem_nil)
      line hline
    obtain ⟨hmem, hlf⟩ := splitAll_subset hl c hc
    exact ⟨beq_eq_false_iff_ne.mp hlf, fun heq => hcr (heq ▸ hmem)⟩
  cases hsplit : splitOnce (· == ':') line with
  | none =>
      rw [hsplit] at hne
      exact absurd rfl hne
  | some parts =>
      obtain ⟨_, _, hparts, _⟩ := splitOnce_eq_some hsplit
      have hvalue : ∀ c ∈ trim parts.2, c ≠ '\n' ∧ c ≠ '\r' := by
        intro c hc
        refine hclean c ?_
        rw [hparts]
        exact List.mem_append_right _ (List.mem_cons_of_mem _ (mem_of_mem_trim hc))
      exact ⟨trim_trim _, fun h => (hvalue _ h).1 rfl, fun h => (hvalue _ h).2 rfl⟩

/-- In a draft without problems every name is a header name. -/
theorem isHeaderName_of_problems {d : Draft} (h : d.problems = []) :
    (∀ field ∈ d.headers, isHeaderName field.1 = true) ∧ trim d.body ≠ [] := by
  simp only [problems, List.append_eq_nil_iff, List.flatMap_eq_nil_iff] at h
  obtain ⟨⟨⟨hheaders, _⟩, _⟩, hbody⟩ := h
  refine ⟨fun field hfield => ?_, fun hempty => ?_⟩
  · have hfield := hheaders field hfield
    unfold headerProblems at hfield
    split_ifs at hfield with _ hname
    all_goals simpa using hname
  · rw [hempty] at hbody
    cases hbody

end Draft

/-! ## The article that arrives -/

theorem lf_not_mem_asBytes {s : Str} (h : '\n' ∉ s) : (0x0A : UInt8) ∉ asBytes s := fun hmem =>
  h ((mem_asBytes_ascii (c := '\n') rfl (by decide)).mp hmem)

theorem asBytes_eq_nil {s : Str} : asBytes s = [] ↔ s = [] := by
  cases s with
  | nil => simp [asBytes]
  | cons c cs => simp [asBytes]

/-- What is not a separator stays in some piece. -/
theorem mem_splitAll {p : Char → Bool} {s : Str} {c : Char} (hc : c ∈ s) (hp : p c = false) :
    ∃ piece ∈ (splitAll p s).1 :: (splitAll p s).2, c ∈ piece := by
  induction s with
  | nil => cases hc
  | cons d ds ih =>
      unfold splitAll
      rcases List.mem_cons.mp hc with rfl | hc
      · rw [if_neg (by simp [hp])]
        exact ⟨_, List.mem_cons_self, List.mem_cons_self⟩
      · obtain ⟨piece, hpiece, hmem⟩ := ih hc
        split
        · exact ⟨piece, List.mem_cons_of_mem _ hpiece, hmem⟩
        · rcases List.mem_cons.mp hpiece with rfl | hpiece
          · exact ⟨_, List.mem_cons_self, List.mem_cons_of_mem _ hmem⟩
          · exact ⟨piece, List.mem_cons_of_mem _ hpiece, hmem⟩

theorem rdropWhile_append {α : Type} {p : α → Bool} {xs ys : List α} (h : ys.rdropWhile p ≠ []) :
    (xs ++ ys).rdropWhile p = xs ++ ys.rdropWhile p := by
  unfold List.rdropWhile at h ⊢
  have hne : ys.reverse.dropWhile p ≠ [] := fun heq => h (by rw [heq]; rfl)
  rw [List.reverse_append, List.dropWhile_append, if_neg (by simpa using hne), List.reverse_append,
    List.reverse_reverse]

theorem popEmpty_append {head body : List Bytes} (hhead : head ≠ [])
    (hbody : body.rdropWhile List.isEmpty ≠ []) :
    popEmpty (head ++ body) = head ++ body.rdropWhile List.isEmpty := by
  obtain ⟨line, rest, rfl⟩ := List.exists_cons_of_ne_nil hhead
  show line :: (rest ++ body).rdropWhile List.isEmpty = _
  rw [rdropWhile_append hbody]
  rfl

theorem crlfToLf_of_noCr {s : Str} (h : '\r' ∉ s) : Draft.crlfToLf s = s := by
  induction s with
  | nil => rfl
  | cons c cs ih =>
      rw [Draft.crlfToLf, ih fun hcs => h (List.mem_cons_of_mem _ hcs)]
      rintro rest rfl
      exact fun _ => h List.mem_cons_self

namespace Draft

variable {base64 : Bytes → Str} {text : Str} {lines : List Bytes}

theorem mem_crlfToLf {s : Str} {c : Char} (hc : c ∈ s) (hcr : c ≠ '\r') : c ∈ crlfToLf s := by
  induction s using crlfToLf.induct with
  | case1 rest ih =>
      rcases List.mem_cons.mp hc with rfl | hc
      · exact absurd rfl hcr
      · rcases List.mem_cons.mp hc with rfl | hc
        · exact List.mem_cons_self
        · exact List.mem_cons_of_mem _ (ih hc)
  | case2 d rest hnot ih =>
      rw [crlfToLf]
      · rcases List.mem_cons.mp hc with rfl | hc
        · exact List.mem_cons_self
        · exact List.mem_cons_of_mem _ (ih hc)
      · exact hnot
  | case3 => cases hc

theorem mem_rdropWhile {α : Type} {p : α → Bool} {l : List α} {a : α} (ha : a ∈ l) (hp : p a = false) :
    a ∈ l.rdropWhile p := by
  induction l using List.reverseRecOn with
  | nil => cases ha
  | append_singleton l b ih =>
      rw [List.rdropWhile_concat]
      split
      · next hb =>
          rcases List.mem_append.mp ha with ha | ha
          · exact ih ha
          · rw [List.mem_singleton.mp ha, hb] at hp
            cases hp
      · exact ha

/-- A body with something in it is sent as lines with something in them. -/
theorem sentBody_ne_nil {d : Draft} (h : trim d.body ≠ []) : d.sentBody ≠ [] := by
  obtain ⟨c, cs, hcons⟩ := List.exists_cons_of_ne_nil h
  have hhead : (trim d.body).head? = some c := by rw [hcons]; rfl
  have hblank := (head?_trim hhead).2
  have hne : ∀ e : Char, isWhitespace e = true → (c == e) = false := by
    intro e he
    rw [beq_eq_false_iff_ne]
    rintro rfl
    rw [he] at hblank
    cases hblank
  have hbody : c ∈ crlfToLf d.body :=
    mem_crlfToLf (mem_of_mem_trim (List.mem_of_head? hhead)) (beq_eq_false_iff_ne.mp (hne '\r' rfl))
  obtain ⟨piece, hpiece, hmem⟩ := @mem_splitAll (· == '\n') _ c hbody (hne '\n' rfl)
  intro hnil
  have hempty := List.rdropWhile_eq_nil_iff.mp hnil _ (List.mem_map.mpr ⟨piece, hpiece, rfl⟩)
  have hkept := @mem_rdropWhile _ (· == '\r') _ c hmem (hne '\r' rfl)
  rw [asBytes_eq_nil.mp (List.isEmpty_iff.mp hempty)] at hkept
  cases hkept

/-- **The header lines, an empty line, and the lines of the body.** -/
theorem toLines_shape {d : Draft} (h : d.toLines base64 = .ok lines) :
    d.problems = [] ∧ lines =
      (d.headers.map (fun field => fieldLine field.1 (encodeHeaderValue base64 field.2)) ++
        d.mimeFields.map fun field => fieldLine field.1 field.2) ++ [] :: d.sentBody := by
  unfold toLines at h
  split at h
  · next hnone =>
      have hproblems : d.problems = [] := List.isEmpty_iff.mp hnone
      refine ⟨hproblems, ?_⟩
      rw [← Except.ok.inj h, List.append_cons, List.append_cons _ [] d.sentBody]
      exact popEmpty_append (by simp) (sentBody_ne_nil (isHeaderName_of_problems hproblems).2)
  · cases h

/-- A body without CR is sent as it is. -/
theorem toLines_eq {d : Draft} (hcr : '\r' ∉ d.body) (h : d.toLines base64 = .ok lines) :
    d.problems = [] ∧ lines =
      (d.headers.map (fun field => fieldLine field.1 (encodeHeaderValue base64 field.2)) ++
        d.mimeFields.map fun field => fieldLine field.1 field.2) ++ [] :: d.bodyLines := by
  have hpieces : ∀ piece ∈ (splitAll (· == '\n') d.body).1 :: (splitAll (· == '\n') d.body).2,
      asBytes (piece.rdropWhile (· == '\r')) = asBytes piece := by
    intro piece hpiece
    refine congrArg asBytes (List.rdropWhile_eq_self_iff.mpr fun hne heq => ?_)
    have hlast := (splitAll_subset hpiece _ (List.getLast_mem hne)).1
    rw [eq_of_beq heq] at hlast
    exact hcr hlast
  have hbody : d.sentBody = d.bodyLines := by
    unfold sentBody bodyLines
    dsimp only
    rw [crlfToLf_of_noCr hcr, List.map_congr_left hpieces]
  rw [← hbody]
  exact toLines_shape h

theorem mimeFields_plain {d : Draft} {field : Str × Str} (h : field ∈ d.mimeFields) :
    isHeaderName field.1 = true ∧ FieldText field.2 := by
  unfold mimeFields at h
  split at h
  · cases h
  · have hmem := (List.mem_filter.mp h).1
    simp only [List.mem_cons, List.not_mem_nil, or_false] at hmem
    rcases hmem with rfl | rfl | rfl <;>
      exact ⟨by decide, ⟨forall_of_all (by decide), by decide, by decide, by simp, by simp⟩⟩

/-- Fields whose names are header names, as such. -/
theorem exists_fields {fields : List (Str × Str)} (h : ∀ field ∈ fields, isHeaderName field.1 = true) :
    ∃ named : List (HeaderName × Str), named.map (fun field => (field.1.asStr, field.2)) = fields := by
  induction fields with
  | nil => exact ⟨[], rfl⟩
  | cons field fields ih =>
      obtain ⟨named, hnamed⟩ := ih fun f hf => h f (List.mem_cons_of_mem _ hf)
      exact ⟨(⟨field.1, h field List.mem_cons_self⟩, field.2) :: named, by rw [List.map_cons, hnamed]⟩

/-- **The article that is read from the lines of a draft is the draft**, and the lines can be sent. -/
theorem toLines_article (hbase64 : ∀ bytes, ∀ c ∈ base64 bytes, isBase64 c = true)
    (h : (parse text).toLines base64 = .ok lines) :
    (∀ line ∈ lines, (0x0A : UInt8) ∉ line) ∧
      (ReceivedArticle.fromBlock lines).headers.entries.map (fun field => (field.1.asStr, field.2)) =
        (parse text).sentFields base64 ∧
      (ReceivedArticle.fromBlock lines).headers.malformed = [] ∧
      (ReceivedArticle.fromBlock lines).body = (parse text).bodyLines := by
  obtain ⟨hclean, hcr⟩ := parse_clean text
  generalize parse text = d at h hclean hcr ⊢
  obtain ⟨hproblems, rfl⟩ := toLines_eq hcr h
  have hnames := (isHeaderName_of_problems hproblems).1
  obtain ⟨fields, hfields⟩ : ∃ fields : List (HeaderName × Str),
      fields.map (fun field => (field.1.asStr, field.2)) =
        d.headers.map (fun field => (field.1, encodeHeaderValue base64 field.2)) ++ d.mimeFields := by
    refine exists_fields fun field hfield => ?_
    rcases List.mem_append.mp hfield with hfield | hfield
    · obtain ⟨field, hmem, rfl⟩ := List.mem_map.mp hfield
      exact hnames field hmem
    · exact (mimeFields_plain hfield).1
  have htext : ∀ field ∈ fields, FieldText field.2 := by
    intro field hfield
    have hmem : (field.1.asStr, field.2) ∈ d.headers.map (fun field =>
        (field.1, encodeHeaderValue base64 field.2)) ++ d.mimeFields :=
      hfields ▸ List.mem_map.mpr ⟨field, hfield, rfl⟩
    rcases List.mem_append.mp hmem with hmem | hmem
    · obtain ⟨source, hsource, heq⟩ := List.mem_map.mp hmem
      obtain ⟨htrim, hlf, hcr⟩ := hclean source hsource (isHeaderName_spec (hnames source hsource)).1
      have hvalue : encodeHeaderValue base64 source.2 = field.2 := (Prod.mk.inj heq).2
      exact hvalue ▸ encodeHeaderValue_fieldText hbase64 hlf hcr htrim
    · exact (mimeFields_plain hmem).2
  have hhead : d.headers.map (fun field => fieldLine field.1 (encodeHeaderValue base64 field.2)) ++
      d.mimeFields.map (fun field => fieldLine field.1 field.2) =
        fields.map fun field => fieldLine field.1.asStr field.2 := by
    have := congrArg (List.map fun field : Str × Str => fieldLine field.1 field.2) hfields
    rw [List.map_append, List.map_map, List.map_map] at this
    exact this.symm
  rw [hhead]
  have hsplit : DataBlock.splitHeadBody ((fields.map fun field => fieldLine field.1.asStr field.2) ++
      [] :: d.bodyLines) = (fields.map fun field => fieldLine field.1.asStr field.2, d.bodyLines) := by
    refine splitHeadBody_append (fun line hline => ?_) _
    obtain ⟨field, _, rfl⟩ := List.mem_map.mp hline
    have hmem : fieldLine field.1.asStr field.2 ∈ (HeaderField.single field.1 field.2).asLines := by
      rw [single_lines]
      exact List.mem_singleton_self _
    exact asLines_ne_nil hmem
  unfold ReceivedArticle.fromBlock
  rw [hsplit, parseLines_fields htext]
  refine ⟨fun line hline => ?_, ?_, rfl, rfl⟩
  · rcases List.mem_append.mp hline with hline | hline
    · obtain ⟨field, hfield, rfl⟩ := List.mem_map.mp hline
      refine lf_not_mem_asBytes fun hlf => ?_
      rcases List.mem_append.mp hlf with hlf | hlf
      · rcases List.mem_append.mp hlf with hlf | hlf
        · exact absurd ((isHeaderName_spec field.1.wellFormed).2 _ hlf).1 (by decide)
        · exact absurd hlf (by decide)
      · exact (htext field hfield).noLf hlf
    · rcases List.mem_cons.mp hline with rfl | hline
      · exact List.not_mem_nil
      · obtain ⟨piece, hpiece, rfl⟩ := List.mem_map.mp ((List.rdropWhile_prefix _ _).subset hline)
        exact lf_not_mem_asBytes fun hlf => absurd (splitAll_subset hpiece _ hlf).2 (by decide)
  · have := congrArg (List.map fun field : Str × Str => (field.1, asBytes field.2)) hfields
    rw [List.map_append, List.map_map, List.map_map] at this
    rw [List.map_map]
    exact this

end Draft

end Nntp.Proto
