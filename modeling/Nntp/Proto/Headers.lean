import Nntp.Proto.Block
import Nntp.Proto.Mime

/-!
# Articles as received

`headers.rs`, and of `block.rs` and `article.rs` how a block is split into lines, a header block and a body.
-/

namespace Nntp.Proto

/-- A header field name, without the colon. -/
structure HeaderName where
  asStr : Str
  wellFormed : isHeaderName asStr = true
  deriving DecidableEq

/-- Validates and wraps a field name. -/
def HeaderName.parse (value : Str) : Except ProtoError HeaderName :=
  if h : isHeaderName value = true then .ok ⟨value, h⟩ else .error (.invalidHeaderName value)

/-- The header block of an article, in the order the fields arrived. -/
structure Headers where
  entries : List (HeaderName × Bytes) := []
  /-- lines that are neither a field nor a continuation -/
  malformed : List Bytes := []
  deriving DecidableEq

/-- Space or tab. -/
def isBlank (b : UInt8) : Bool := b == 0x20 || b == 0x09

/-- Splits `name: value`, rejecting a name that is not valid. -/
def splitField (line : Bytes) : Option (HeaderName × Bytes) := do
  let (rawName, value) ← splitOnce (· == 0x3A) line
  let name ← (HeaderName.parse (trim (← fromUtf8 rawName))).toOption
  return (name, value.dropWhile isBlank)

namespace Headers

/-- One line of a header block. -/
def readLine (headers : Headers) (line : Bytes) : Headers :=
  if line.head? = some 0x20 ∨ line.head? = some 0x09 then
    match headers.entries.getLast? with
    | some (name, value) =>
        { headers with entries := headers.entries.dropLast ++ [(name, value ++ line)] }
    | none => { headers with malformed := headers.malformed ++ [line] }
  else
    match splitField line with
    | some field => { headers with entries := headers.entries ++ [field] }
    | none => { headers with malformed := headers.malformed ++ [line] }

/-- Parses a header block. An empty line ends it, and white space from folding is not part of a value. -/
def parseLines (lines : List Bytes) : Headers :=
  let headers := (lines.takeWhile fun line => !line.isEmpty).foldl readLine {}
  { headers with entries := headers.entries.map fun field => (field.1, field.2.rdropWhile isBlank) }

end Headers

/-- Splits a buffer into lines on LF, discarding a preceding CR. Behind the last LF there is a line only if
there is an octet. -/
def splitLines (block : Bytes) : List Bytes :=
  let pieces := splitAll (· == 0x0A) block
  let all := pieces.1 :: pieces.2
  let whole := if all.getLast? = some [] then all.dropLast else all
  whole.map fun line => (stripSuffix [0x0D] line).getD line

namespace DataBlock

/-- Parses a whole block from a buffer, up to the terminator line. -/
def parse (block : Bytes) : List Bytes :=
  ((splitLines block).takeWhile fun line => !isTerminator line).map unstuff

/-- Splits the block at the first empty line into a header part and a body part. -/
def splitHeadBody (lines : List Bytes) : List Bytes × List Bytes :=
  match lines.findIdx? List.isEmpty with
  | some index => (lines.take index, lines.drop (index + 1))
  | none => (lines, [])

end DataBlock

/-- An article as received: what `Article` of `article.rs` holds. -/
structure ReceivedArticle where
  number : Option UInt64 := none
  headers : Headers
  body : List Bytes
  deriving DecidableEq

/-- Builds an article from an `ARTICLE` data block. -/
def ReceivedArticle.fromBlock (block : List Bytes) : ReceivedArticle where
  headers := Headers.parseLines (DataBlock.splitHeadBody block).1
  body := (DataBlock.splitHeadBody block).2

/-- Builds an article from a `HEAD` data block. -/
def ReceivedArticle.fromHeadBlock (block : List Bytes) : ReceivedArticle where
  headers := Headers.parseLines block
  body := []

/-! ## Header blocks that were written -/

theorem asBytes_append (s t : Str) : asBytes (s ++ t) = asBytes s ++ asBytes t :=
  List.flatMap_append

theorem byte_ofNat_inj {c d : Char} (hc : c.toNat < 0x80) (hd : d.toNat < 0x80)
    (h : UInt8.ofNat c.toNat = UInt8.ofNat d.toNat) : c = d := by
  have h := congrArg UInt8.toNat h
  rw [UInt8.toNat_ofNat', UInt8.toNat_ofNat'] at h
  exact Char.toNat_inj.mp (by omega)

/-- What stands in a header name. -/
theorem isHeaderName_spec {name : Str} (h : isHeaderName name = true) :
    name ≠ [] ∧ ∀ c ∈ name, 0x21 ≤ c.toNat ∧ c.toNat < 0x80 ∧ c ≠ ':' := by
  obtain ⟨hne, hall⟩ := Bool.and_eq_true_iff.mp h
  refine ⟨by simpa using hne, fun c hc => ?_⟩
  have hc := List.all_eq_true.mp hall c hc
  simp only [isAsciiGraphic, Bool.and_eq_true, decide_eq_true_eq, bne_iff_ne] at hc
  exact ⟨hc.1.1, Nat.lt_succ_of_le (Nat.le_succ_of_le hc.1.2), hc.2⟩

theorem isWhitespace_graphic {c : Char} (h : 0x21 ≤ c.toNat ∧ c.toNat < 0x80 ∧ c ≠ ':') :
    isWhitespace c = false := by
  obtain ⟨h1, h2, _⟩ := h
  simp only [isWhitespace, Bool.or_eq_false_iff, Bool.and_eq_false_iff, decide_eq_false_iff_not,
    beq_eq_false_iff_ne]
  omega

/-- A header field as it is written: on one line, or folded over more. -/
structure HeaderField where
  name : HeaderName
  /-- what is behind the colon on its first line -/
  first : Bytes
  /-- its further lines -/
  folds : List Bytes
  folded : ∀ line ∈ folds, line.head? = some 0x20 ∨ line.head? = some 0x09

namespace HeaderField

/-- A field on one line. -/
theorem folded_nil : ∀ line ∈ ([] : List Bytes), line.head? = some 0x20 ∨ line.head? = some 0x09 :=
  List.forall_mem_nil _

/-- The lines the field is written on. -/
def asLines (field : HeaderField) : List Bytes :=
  (asBytes field.name.asStr ++ 0x3A :: field.first) :: field.folds

/-- The value with folding undone, without the blanks in front of it and behind it. -/
def value (field : HeaderField) : Bytes :=
  (field.first.dropWhile isBlank ++ field.folds.flatten).rdropWhile isBlank

end HeaderField

/-- A line of the form `name: value` is read as that field. -/
theorem splitField_line (name : HeaderName) (rest : Bytes) :
    splitField (asBytes name.asStr ++ 0x3A :: rest) = some (name, rest.dropWhile isBlank) := by
  obtain ⟨_, hname⟩ := isHeaderName_spec name.wellFormed
  have hascii : ∀ c ∈ name.asStr, c.toNat < 0x80 := fun c hc => (hname c hc).2.1
  have hcolon : ∀ b ∈ asBytes name.asStr, (b == (0x3A : UInt8)) = false := by
    intro b hb
    rw [asBytes_ascii hascii] at hb
    obtain ⟨c, hc, rfl⟩ := List.mem_map.mp hb
    rw [beq_eq_false_iff_ne]
    exact fun heq => (hname c hc).2.2 (byte_ofNat_inj (hascii c hc) (d := ':') (by decide) heq)
  have htrim : trim name.asStr = name.asStr :=
    trim_of_no_whitespace fun c hc => isWhitespace_graphic (hname c hc)
  have hparse : HeaderName.parse name.asStr = .ok name := by
    unfold HeaderName.parse
    rw [dif_pos name.wellFormed]
  unfold splitField
  rw [splitOnce_append hcolon (beq_self_eq_true _)]
  simp only [Option.bind_eq_bind, Option.bind_some, fromUtf8_ascii (isAscii_asBytes hascii),
    map_asciiChar_asBytes hascii, htrim, hparse, Except.toOption]
  rfl

/-- Nothing in front of a header name could make its line a continuation. -/
theorem head_name (name : HeaderName) (rest : Bytes) :
    (asBytes name.asStr ++ rest).head? ≠ some 0x20 ∧ (asBytes name.asStr ++ rest).head? ≠ some 0x09 ∧
      asBytes name.asStr ++ rest ≠ [] := by
  obtain ⟨hne, hname⟩ := isHeaderName_spec name.wellFormed
  obtain ⟨c, cs, hcons⟩ := List.exists_cons_of_ne_nil hne
  obtain ⟨hlow, hhigh, _⟩ := hname c (hcons ▸ List.mem_cons_self)
  have hval : (UInt8.ofNat c.toNat).toNat = c.toNat := by
    rw [UInt8.toNat_ofNat']
    omega
  have hhead : (asBytes name.asStr ++ rest).head? = some (UInt8.ofNat c.toNat) := by
    rw [asBytes_ascii fun d hd => (hname d hd).2.1, hcons]
    rfl
  rw [hhead]
  refine ⟨fun heq => ?_, fun heq => ?_, fun hnil => ?_⟩
  · rw [Option.some.inj heq] at hval
    have : (0x20 : UInt8).toNat = 32 := rfl
    omega
  · rw [Option.some.inj heq] at hval
    have : (0x09 : UInt8).toNat = 9 := rfl
    omega
  · rw [hnil] at hhead
    cases hhead

theorem readLine_fold (headers : Headers) (name : HeaderName) (value line : Bytes)
    (h : line.head? = some 0x20 ∨ line.head? = some 0x09) :
    Headers.readLine { headers with entries := headers.entries ++ [(name, value)] } line =
      { headers with entries := headers.entries ++ [(name, value ++ line)] } := by
  unfold Headers.readLine
  rw [if_pos h]
  simp

/-- The lines of one field add that field, up to the blanks at its end. -/
theorem foldl_readLine_field (headers : Headers) (field : HeaderField) :
    field.asLines.foldl Headers.readLine headers =
      { headers with entries := headers.entries ++
          [(field.name, field.first.dropWhile isBlank ++ field.folds.flatten)] } := by
  have hfolds : ∀ (folds : List Bytes) (value : Bytes),
      (∀ line ∈ folds, line.head? = some 0x20 ∨ line.head? = some 0x09) →
      folds.foldl Headers.readLine
          { headers with entries := headers.entries ++ [(field.name, value)] } =
        { headers with entries := headers.entries ++ [(field.name, value ++ folds.flatten)] } := by
    intro folds
    induction folds with
    | nil => simp
    | cons line folds ih =>
        intro value hall
        rw [List.foldl_cons, readLine_fold headers field.name value line (hall line List.mem_cons_self),
          ih _ fun l hl => hall l (List.mem_cons_of_mem _ hl)]
        simp
  obtain ⟨hspace, htab, -⟩ := head_name field.name (0x3A :: field.first)
  have hfirst : Headers.readLine headers (asBytes field.name.asStr ++ 0x3A :: field.first) =
      { headers with entries := headers.entries ++ [(field.name, field.first.dropWhile isBlank)] } := by
    unfold Headers.readLine
    rw [if_neg (not_or.mpr ⟨hspace, htab⟩), splitField_line]
  unfold HeaderField.asLines
  rw [List.foldl_cons, hfirst, hfolds field.folds _ field.folded]

theorem asLines_ne_nil {field : HeaderField} {line : Bytes} (h : line ∈ field.asLines) : line ≠ [] := by
  rcases List.mem_cons.mp h with rfl | h
  · exact (head_name field.name _).2.2
  · rintro rfl
    rcases field.folded [] h with h | h <;> cases h

/-- **A header block is read as the fields it was written from**, with folding undone. -/
theorem parseLines_written (fields : List HeaderField) :
    Headers.parseLines (fields.flatMap HeaderField.asLines) =
      { entries := fields.map fun field => (field.name, field.value), malformed := [] } := by
  have hread : ∀ headers : Headers,
      (fields.flatMap HeaderField.asLines).foldl Headers.readLine headers =
        { headers with entries := headers.entries ++ fields.map fun field =>
            (field.name, field.first.dropWhile isBlank ++ field.folds.flatten) } := by
    induction fields with
    | nil => simp
    | cons field fields ih =>
        intro headers
        rw [List.flatMap_cons, List.foldl_append, foldl_readLine_field, ih]
        simp
  have hwhile : (fields.flatMap HeaderField.asLines).takeWhile (fun line => !line.isEmpty) =
      fields.flatMap HeaderField.asLines := by
    refine List.takeWhile_eq_self_iff.mpr fun line hline => ?_
    obtain ⟨field, _, hline⟩ := List.mem_flatMap.mp hline
    simpa using asLines_ne_nil hline
  unfold Headers.parseLines
  rw [hwhile, hread {}]
  simp only [List.nil_append, List.map_map]
  rfl

/-! ## Blocks that were sent -/

theorem splitLines_crlf {lines : List Bytes} (h : ∀ line ∈ lines, (0x0A : UInt8) ∉ line) :
    splitLines (lines.flatMap fun line => line ++ [0x0D, 0x0A]) = lines := by
  have hsplit : splitAll (· == (0x0A : UInt8)) (lines.flatMap fun line => line ++ [0x0D, 0x0A]) =
      match lines with
      | [] => ([], [])
      | line :: rest => (line ++ [0x0D], rest.map (· ++ [0x0D]) ++ [[]]) := by
    induction lines with
    | nil => rfl
    | cons line lines ih =>
        have hnot : ∀ b ∈ line ++ [0x0D], (b == (0x0A : UInt8)) = false := by
          intro b hb
          rcases List.mem_append.mp hb with hb | hb
          · rw [beq_eq_false_iff_ne]
            rintro rfl
            exact h line List.mem_cons_self hb
          · rw [List.mem_singleton.mp hb]
            decide
        have hline : line ++ [0x0D, 0x0A] = (line ++ [0x0D]) ++ [0x0A] := by simp
        rw [List.flatMap_cons, hline, List.append_assoc, List.singleton_append,
          splitAll_append hnot (beq_self_eq_true _), ih fun l hl => h l (List.mem_cons_of_mem _ hl)]
        cases lines <;> rfl
  have hstrip : ∀ line : Bytes, (stripSuffix [0x0D] (line ++ [0x0D])).getD (line ++ [0x0D]) = line := by
    intro line
    simp [stripSuffix, stripPrefix]
  unfold splitLines
  rw [hsplit]
  cases lines with
  | nil => rfl
  | cons line lines =>
      dsimp only
      have hlast : ((line ++ [0x0D]) :: (lines.map (· ++ [0x0D]) ++ [[]])).getLast? = some [] := by
        rw [← List.cons_append, List.getLast?_concat]
      rw [if_pos hlast, ← List.cons_append, List.dropLast_concat, List.map_cons, List.map_map, hstrip]
      refine congrArg (line :: ·) ?_
      conv => rhs; rw [← List.map_id lines]
      exact List.map_congr_left fun l _ => hstrip l

/-- **A block that is sent is read as it was**, whatever its lines begin with. -/
theorem parse_stuffed {lines : List Bytes} (h : ∀ line ∈ lines, (0x0A : UInt8) ∉ line) :
    DataBlock.parse ((lines.flatMap fun line => stuff line ++ [0x0D, 0x0A]) ++ [0x2E, 0x0D, 0x0A]) =
      lines := by
  have hall : (lines.flatMap fun line => stuff line ++ [0x0D, 0x0A]) ++ [0x2E, 0x0D, 0x0A] =
      (lines.map stuff ++ [[0x2E]]).flatMap fun line => line ++ [0x0D, 0x0A] := by
    rw [List.flatMap_append, List.flatMap_map]
    rfl
  unfold DataBlock.parse
  rw [hall, splitLines_crlf]
  · rw [List.takeWhile_append_of_pos]
    · simp [isTerminator, unstuff_stuff, Function.comp_def]
    · intro line hline
      obtain ⟨line, _, rfl⟩ := List.mem_map.mp hline
      rw [isTerminator_stuff]
      rfl
  · intro line hline
    rcases List.mem_append.mp hline with hline | hline
    · obtain ⟨line, hmem, rfl⟩ := List.mem_map.mp hline
      intro hlf
      rcases mem_stuff hlf with hdot | hlf
      · cases hdot
      · exact h line hmem hlf
    · rw [List.mem_singleton.mp hline]
      decide

/-- The head and the body around the first empty line. -/
theorem splitHeadBody_append {head : List Bytes} (h : ∀ line ∈ head, line ≠ []) (body : List Bytes) :
    DataBlock.splitHeadBody (head ++ [] :: body) = (head, body) := by
  have hidx : (head ++ [] :: body).findIdx? List.isEmpty = some head.length := by
    rw [List.findIdx?_append, List.findIdx?_eq_none_iff.mpr]
    · simp [List.findIdx?_cons]
    · intro line hline
      simpa using h line hline
  unfold DataBlock.splitHeadBody
  rw [hidx]
  simp

end Nntp.Proto
