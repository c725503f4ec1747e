import Nntp.Proto.Headers

/-!
# Header values as text

`decode_header_value` of `mime.rs` and `HeaderValue::decoded` of `headers.rs`: RFC 2047 encoded words are
expanded, and runs of white space become one blank. Character sets and base64 are other crates' business.
A value without `=?` has no encoded word and is decoded as it stands.
-/

namespace Nntp.Proto

/-- What other crates decode. -/
structure Codecs where
  /-- `encoding_rs::WINDOWS_1252.decode`. -/
  windows1252 : Bytes → Str
  /-- `encoding_rs::Encoding::for_label`, and what the encoding then decodes to. -/
  forLabel : Str → Option (Bytes → Str)
  /-- `BASE64_LENIENT.decode(..).ok()`. -/
  base64Lenient : Bytes → Option Bytes
  /-- `BASE64_STANDARD.decode(..).ok()`. -/
  base64Standard : Bytes → Option Bytes
  /-- `parse_date(..).ok()`. -/
  parseDate : Str → Option DateTime

/-- `u8::is_ascii_whitespace`. -/
def isAsciiWhitespace (b : UInt8) : Bool :=
  b == 0x20 || b == 0x09 || b == 0x0A || b == 0x0C || b == 0x0D

/-- `str::trim_matches` with one character. -/
def trimMatches (c : Char) (s : Str) : Str := (s.dropWhile (· == c)).rdropWhile (· == c)

/-- Where `needle` first is in `haystack`. -/
def findSubsequence (needle : Bytes) : Bytes → Option Nat
  | [] => none
  | b :: rest =>
      if needle.isPrefixOf (b :: rest) then some 0 else (findSubsequence needle rest).map (· + 1)

def hexValue (b : UInt8) : Option UInt8 :=
  if 0x30 ≤ b ∧ b ≤ 0x39 then some (b - 0x30)
  else if 0x61 ≤ b ∧ b ≤ 0x66 then some (b - 0x61 + 10)
  else if 0x41 ≤ b ∧ b ≤ 0x46 then some (b - 0x41 + 10)
  else none

/-- RFC 2047 "Q" encoding. A malformed escape is kept as it is. -/
def decodeQ : Bytes → Bytes
  | [] => []
  | 0x5F :: rest => 0x20 :: decodeQ rest
  | [0x3D, hi] => [0x3D, hi]
  | 0x3D :: hi :: lo :: rest =>
      match hexValue hi, hexValue lo with
      | some h, some l => (h * 16 + l) :: decodeQ rest
      | _, _ => 0x3D :: hi :: lo :: decodeQ rest
  | b :: rest => b :: decodeQ rest

/-- A run of a header value. -/
inductive Piece where
  | encoded (text : Str)
  | literal (raw : Bytes)
  deriving DecidableEq

namespace Piece

def isEncoded : Piece → Bool
  | encoded _ => true
  | literal _ => false

end Piece

namespace Codecs

variable (codecs : Codecs)

/-- `decode_8bit_lossy`. -/
def decode8bitLossy (bytes : Bytes) : Str := (fromUtf8 bytes).getD (codecs.windows1252 bytes)

/-- Decodes bytes labelled with a charset. An RFC 2231 language suffix is ignored. -/
def decodeWithCharset (bytes : Bytes) (label : Str) : Str :=
  let label := trimMatches '"' (trim (splitAll (· == '*') label).1)
  match codecs.forLabel label with
  | some decode => decode bytes
  | none => codecs.decode8bitLossy bytes

/-- RFC 2047 "B" encoding. -/
def decodeB (input : Bytes) : Option Bytes := codecs.base64Lenient input <|> codecs.base64Standard input

/-- One `=?charset?encoding?text?=` at the start of `input`: its text, and how many octets it has. -/
def parseEncodedWord (input : Bytes) : Option (Str × Nat) := do
  let afterPrefix ← stripPrefix [0x3D, 0x3F] input
  let (charset, afterCharset) ← splitOnce (· == 0x3F) afterPrefix
  if charset.isEmpty || charset.any isAsciiWhitespace then none
  else
    match afterCharset with
    | encoding :: 0x3F :: encodedTextStart =>
        let textLen ← findSubsequence [0x3F, 0x3D] encodedTextStart
        let encodedText := encodedTextStart.take textLen
        if encodedText.any isAsciiWhitespace then none
        else
          let raw ←
            if encoding = 0x71 ∨ encoding = 0x51 then some (decodeQ encodedText)
            else if encoding = 0x62 ∨ encoding = 0x42 then codecs.decodeB encodedText
            else none
          let label ← fromUtf8 charset
          return (codecs.decodeWithCharset raw label, 2 + charset.length + 1 + 1 + 1 + textLen + 2)
    | _ => none

/-- The literal run that ends here, if there is one. -/
def flush (run : Bytes) : List Piece := if run.isEmpty then [] else [.literal run]

/-- The loop of `split_encoded_words`: the literal run so far, and how many octets of an encoded word are
still to be passed over. -/
def splitFrom (run : Bytes) : Nat → Bytes → List Piece
  | _, [] => flush run
  | skip + 1, _ :: rest => splitFrom run skip rest
  | 0, b :: rest =>
      match codecs.parseEncodedWord (b :: rest) with
      | some (decoded, consumed) => flush run ++ .encoded decoded :: splitFrom [] (consumed - 1) rest
      | none => splitFrom (run ++ [b]) 0 rest

/-- Splits a header value into literal runs and decoded encoded words. -/
def splitEncodedWords (bytes : Bytes) : List Piece := codecs.splitFrom [] 0 bytes

/-- White space only, which is dropped between two encoded words. -/
def isBlankRun (raw : Bytes) : Bool :=
  !raw.isEmpty && raw.all fun b => b == 0x20 || b == 0x09 || b == 0x0D || b == 0x0A

/-- Whether the literal at `index` sits between two encoded words. -/
def betweenEncodedWords (pieces : List Piece) (index : Nat) : Bool :=
  (decide (0 < index) && pieces[index - 1]?.any Piece.isEncoded) && pieces[index + 1]?.any Piece.isEncoded

/-- Decodes a header field value, expanding any RFC 2047 encoded words. -/
def decodeHeaderValue (bytes : Bytes) : Str :=
  let pieces := codecs.splitEncodedWords bytes
  pieces.zipIdx.flatMap fun p =>
    match p.1 with
    | .encoded text => text
    | .literal raw =>
        if isBlankRun raw && betweenEncodedWords pieces p.2 then [] else codecs.decode8bitLossy raw

/-- The decoders an overview is read with. -/
def decoders : Decoders where
  windows1252 := codecs.windows1252
  decodeHeaderValue := codecs.decodeHeaderValue
  parseDate := codecs.parseDate

end Codecs

/-- The loop of `collapse_whitespace`: whether there is output yet, and whether a blank is due. -/
def collapseFrom : Bool → Bool → Str → Str
  | _, _, [] => []
  | started, pending, c :: rest =>
      if isWhitespace c then collapseFrom started started rest
      else if pending then ' ' :: c :: collapseFrom true false rest
      else c :: collapseFrom true false rest

def collapseWhitespace (text : Str) : Str := collapseFrom false false text

/-- `HeaderValue::decoded`. -/
def Codecs.decoded (codecs : Codecs) (value : Bytes) : Str :=
  collapseWhitespace (codecs.decodeHeaderValue value)

/-! ## Values without an encoded word -/

/-- Nothing in the value begins like an encoded word. -/
def IsPlain (value : Bytes) : Prop := ¬ [0x3D, 0x3F] <:+: value

instance (value : Bytes) : Decidable (IsPlain value) := inferInstanceAs (Decidable (¬ _))

namespace Codecs

variable (codecs : Codecs)

/-- No encoded word begins anywhere in the value: the value is one literal run. -/
theorem splitFrom_none {value : Bytes} (h : ∀ front rest, front ++ rest = value → codecs.parseEncodedWord rest = none)
    (run : Bytes) : codecs.splitFrom run 0 value = flush (run ++ value) := by
  induction value generalizing run with
  | nil =>
      rw [List.append_nil]
      rfl
  | cons b rest ih =>
      have hrest : ∀ front tail, front ++ tail = rest → codecs.parseEncodedWord tail = none := by
        intro front tail heq
        exact h (b :: front) tail (by rw [List.cons_append, heq])
      unfold splitFrom
      rw [h [] (b :: rest) rfl]
      dsimp only
      rw [ih hrest, List.append_assoc, List.singleton_append]

theorem splitFrom_plain {value : Bytes} (h : IsPlain value) (run : Bytes) :
    codecs.splitFrom run 0 value = flush (run ++ value) := by
  refine codecs.splitFrom_none (fun front rest heq => ?_) run
  have hstrip : stripPrefix [0x3D, 0x3F] rest = none := by
    by_contra hsome
    obtain ⟨tail, htail⟩ := Option.ne_none_iff_exists'.mp hsome
    exact h ⟨front, tail, by rw [List.append_assoc, ← stripPrefix_eq_some.mp htail, heq]⟩
  unfold parseEncodedWord
  rw [hstrip]
  rfl

/-- A value that is one literal run is decoded as it stands. -/
theorem decodeHeaderValue_flush {value : Bytes} (h : codecs.splitEncodedWords value = flush value) :
    codecs.decodeHeaderValue value = codecs.decode8bitLossy value := by
  unfold decodeHeaderValue
  rw [h]
  cases value with
  | nil => simp [flush, decode8bitLossy, fromUtf8, utf8Chunks]
  | cons b rest => simp [flush, betweenEncodedWords]

/-- **A plain value** is decoded as it stands. -/
theorem decodeHeaderValue_plain {value : Bytes} (h : IsPlain value) :
    codecs.decodeHeaderValue value = codecs.decode8bitLossy value :=
  codecs.decodeHeaderValue_flush (codecs.splitFrom_plain h [])

theorem decoded_plain {value : Bytes} (h : IsPlain value) :
    codecs.decoded value = collapseWhitespace (codecs.decode8bitLossy value) := by
  unfold decoded
  rw [codecs.decodeHeaderValue_plain h]

end Codecs

/-! ## White space -/

/-- A run of white space, which may be empty. -/
def IsSpace (s : Str) : Prop := ∀ c ∈ s, isWhitespace c = true

theorem IsSpace.append {s t : Str} (hs : IsSpace s) (ht : IsSpace t) : IsSpace (s ++ t) := by
  intro c hc
  exact (List.mem_append.mp hc).elim (hs c) (ht c)

theorem isSpace_blank : IsSpace [' '] := by
  intro c hc
  rw [List.mem_singleton.mp hc]
  rfl

/-- White space around a text that has none at its edges is what trimming takes away. -/
theorem trim_around {x s y : Str} (hx : IsSpace x) (hy : IsSpace y)
    (hfirst : ∀ c ∈ s.head?, isWhitespace c = false) (hlast : ∀ c ∈ s.getLast?, isWhitespace c = false) :
    trim (x ++ s ++ y) = s := by
  have hall : ∀ {z : Str}, IsSpace z → ∀ t, trimStart (z ++ t) = trimStart t := by
    intro z hz t
    unfold trimStart
    rw [List.dropWhile_append_of_pos hz]
  have hend : ∀ t, trimEnd (t ++ y) = trimEnd t := by
    intro t
    have hback : IsSpace y.reverse := fun c hc => hy c (List.mem_reverse.mp hc)
    unfold trimEnd List.rdropWhile
    rw [List.reverse_append, List.dropWhile_append_of_pos hback]
  have hmid : trimEnd (trimStart (s ++ y)) = s := by
    cases s with
    | nil =>
        have hnone : trimStart y = [] := by
          have := hall hy []
          rwa [List.append_nil] at this
        rw [List.nil_append, hnone]
        rfl
    | cons c cs =>
        have hc : isWhitespace c = false := hfirst c rfl
        have hkeep : trimStart (c :: cs ++ y) = c :: cs ++ y := by
          simp [trimStart, hc]
        rw [hkeep, hend]
        have := trim_of_edges hfirst hlast
        unfold trim at this
        rwa [show trimStart (c :: cs) = c :: cs by simp [trimStart, hc]] at this
  unfold trim
  rw [List.append_assoc, hall hx]
  exact hmid

section Collapse

variable {c : Char} (started pending : Bool)

theorem collapseFrom_space (hc : isWhitespace c = true) (s : Str) :
    collapseFrom started pending (c :: s) = collapseFrom started started s := by
  rw [collapseFrom, if_pos hc]

theorem collapseFrom_char (hc : isWhitespace c = false) (s : Str) :
    collapseFrom started pending (c :: s) =
      (if pending then [' '] else []) ++ c :: collapseFrom true false s := by
  rw [collapseFrom, if_neg (Bool.eq_false_iff.mp hc)]
  cases pending <;> rfl

theorem isSpace_due : IsSpace (if pending then [' '] else []) := by
  cases pending with
  | false => exact fun _ h => (by cases h)
  | true => exact isSpace_blank

/-- A text is what is left of it after trimming, with white space around it. -/
theorem trim_split (s : Str) : ∃ x y, IsSpace x ∧ IsSpace y ∧ s = x ++ trim s ++ y := by
  refine ⟨s.takeWhile isWhitespace, (trimStart s).rtakeWhile isWhitespace, ?_, ?_, ?_⟩
  · intro c hc
    exact List.mem_takeWhile_imp hc
  · intro c hc
    exact List.mem_rtakeWhile_imp hc
  · have hback : trim s ++ (trimStart s).rtakeWhile isWhitespace = trimStart s :=
      List.rdropWhile_append_rtakeWhile
    rw [List.append_assoc, hback]
    exact List.takeWhile_append_dropWhile.symm

/-- More white space around a text is trimmed away with the rest. -/
theorem trim_more {x y : Str} (hx : IsSpace x) (hy : IsSpace y) (s : Str) : trim (x ++ s ++ y) = trim s := by
  obtain ⟨x', y', hx', hy', hs⟩ := trim_split s
  have hfirst : ∀ c ∈ (trim s).head?, isWhitespace c = false := fun _ hc => (head?_trim hc).2
  have hlast : ∀ c ∈ (trim s).getLast?, isWhitespace c = false := fun _ hc => getLast?_trim hc
  have hall : x ++ s ++ y = (x ++ x') ++ trim s ++ (y' ++ y) := by
    conv_lhs => rw [hs]
    simp only [List.append_assoc]
  rw [hall, trim_around (hx.append hx') (hy'.append hy) hfirst hlast]

/-- A text with something else than white space in it is trimmed on both sides of that. -/
theorem trim_append_cons {c : Char} (hc : isWhitespace c = false) (s t : Str) :
    trim (s ++ c :: t) = trimStart s ++ c :: trimEnd t := by
  have hstart : trimStart (s ++ c :: t) = trimStart s ++ c :: t := by
    unfold trimStart
    rw [List.dropWhile_append]
    split
    · next hempty => simp [List.isEmpty_iff.mp hempty, hc]
    · rfl
  rw [trim, hstart]
  unfold trimEnd List.rdropWhile
  rw [List.reverse_append, List.reverse_cons, List.append_assoc, List.dropWhile_append]
  split
  · next hempty => simp [List.isEmpty_iff.mp hempty, hc]
  · simp

theorem trim_trimStart (s : Str) : trim (trimStart s) = trim s := by
  have hs : s = s.takeWhile isWhitespace ++ trimStart s ++ [] := by
    rw [List.append_nil]
    exact List.takeWhile_append_dropWhile.symm
  conv_rhs => rw [hs]
  exact (trim_more (fun _ hc => List.mem_takeWhile_imp hc) (fun _ hc => absurd hc List.not_mem_nil) _).symm

theorem trim_trimEnd (s : Str) : trim (trimEnd s) = trim s := by
  have hs : s = [] ++ trimEnd s ++ s.rtakeWhile isWhitespace :=
    (List.rdropWhile_append_rtakeWhile).symm
  conv_rhs => rw [hs]
  exact (trim_more (fun _ hc => absurd hc List.not_mem_nil) (fun _ hc => List.mem_rtakeWhile_imp hc) _).symm

/-- What follows output is the collapsed rest, behind a blank if there was white space. -/
theorem collapseFrom_started (s : Str) :
    ∃ x, IsSpace x ∧ collapseFrom true pending s = x ++ collapseWhitespace s := by
  unfold collapseWhitespace
  induction s generalizing pending with
  | nil => exact ⟨[], fun _ h => (by cases h), rfl⟩
  | cons c rest ih =>
      cases hc : isWhitespace c with
      | true =>
          rw [collapseFrom_space _ _ hc, collapseFrom_space _ _ hc]
          exact ih true
      | false =>
          rw [collapseFrom_char _ _ hc, collapseFrom_char _ _ hc]
          exact ⟨_, isSpace_due pending, rfl⟩

/-- A character that is not white space divides the output as it divides the text. -/
theorem collapseFrom_append (hc : isWhitespace c = false) (s t : Str) :
    ∃ y, IsSpace y ∧ collapseFrom started pending (s ++ c :: t) =
      collapseFrom started pending s ++ y ++ c :: collapseFrom true false t := by
  induction s generalizing started pending with
  | nil =>
      rw [List.nil_append, collapseFrom_char _ _ hc]
      exact ⟨_, isSpace_due pending, rfl⟩
  | cons d rest ih =>
      rw [List.cons_append]
      cases hd : isWhitespace d with
      | true =>
          rw [collapseFrom_space _ _ hd, collapseFrom_space _ _ hd]
          exact ih started started
      | false =>
          obtain ⟨y, hy, heq⟩ := ih true false
          rw [collapseFrom_char _ _ hd, collapseFrom_char _ _ hd, heq]
          exact ⟨y, hy, by simp⟩

variable {started pending}

theorem mem_collapseFrom {s : Str} (h : c ∈ collapseFrom started pending s) : c ∈ s ∨ c = ' ' := by
  induction s generalizing started pending with
  | nil => cases h
  | cons d rest ih =>
      cases hd : isWhitespace d with
      | true =>
          rw [collapseFrom_space _ _ hd] at h
          exact (ih h).imp_left (List.mem_cons_of_mem d)
      | false =>
          rw [collapseFrom_char _ _ hd] at h
          rcases List.mem_append.mp h with h | h
          · split at h
            · exact Or.inr (List.mem_singleton.mp h)
            · cases h
          · rcases List.mem_cons.mp h with rfl | h
            · exact Or.inl List.mem_cons_self
            · exact (ih h).imp_left (List.mem_cons_of_mem d)

theorem collapseFrom_first {s : Str} (h : (collapseFrom false false s).head? = some c) :
    isWhitespace c = false := by
  induction s with
  | nil => cases h
  | cons d rest ih =>
      cases hd : isWhitespace d with
      | true =>
          rw [collapseFrom_space _ _ hd] at h
          exact ih h
      | false =>
          rw [collapseFrom_char _ _ hd] at h
          cases h
          exact hd

theorem collapseFrom_last {s : Str} (h : (collapseFrom started pending s).getLast? = some c) :
    isWhitespace c = false := by
  induction s generalizing started pending with
  | nil => cases h
  | cons d rest ih =>
      cases hd : isWhitespace d with
      | true =>
          rw [collapseFrom_space _ _ hd] at h
          exact ih h
      | false =>
          rw [collapseFrom_char _ _ hd, List.getLast?_append_of_ne_nil _ (List.cons_ne_nil _ _)] at h
          cases hrest : collapseFrom true false rest with
          | nil =>
              rw [hrest] at h
              cases h
              exact hd
          | cons e es =>
              rw [hrest, List.getLast?_cons_cons, ← hrest] at h
              exact ih h

end Collapse

/-- `piece` is `s` up to white space: collapsed, with white space around it. -/
def Loose (piece s : Str) : Prop :=
  ∃ x y, IsSpace x ∧ IsSpace y ∧ piece = x ++ collapseWhitespace s ++ y

namespace Loose

variable {piece s t : Str} {c : Char}

theorem collapsed (s : Str) : Loose (collapseWhitespace s) s :=
  ⟨[], [], fun _ h => (by cases h), fun _ h => (by cases h), by simp⟩

theorem trim_eq (h : Loose piece s) : trim piece = collapseWhitespace s := by
  obtain ⟨x, y, hx, hy, rfl⟩ := h
  exact trim_around hx hy (fun _ hc => collapseFrom_first hc) (fun _ hc => collapseFrom_last hc)

theorem not_mem (h : Loose piece s) (hc : isWhitespace c = false) (hs : c ∉ s) : c ∉ piece := by
  obtain ⟨x, y, hx, hy, rfl⟩ := h
  intro hmem
  have hspace : ∀ z, IsSpace z → c ∉ z := by
    intro z hz hmem
    rw [hz c hmem] at hc
    cases hc
  rcases List.mem_append.mp hmem with hmem | hmem
  · rcases List.mem_append.mp hmem with hmem | hmem
    · exact hspace x hx hmem
    · rcases mem_collapseFrom hmem with hmem | rfl
      · exact hs hmem
      · cases hc
  · exact hspace y hy hmem

/-- **A piece is divided where the text is**, and both parts are the same up to white space. -/
theorem divide (hc : isWhitespace c = false) (h : Loose piece (s ++ c :: t)) :
    ∃ left right, piece = left ++ c :: right ∧ Loose left s ∧ Loose right t := by
  obtain ⟨x, y, hx, hy, rfl⟩ := h
  obtain ⟨mid, hmid, heq⟩ := collapseFrom_append false false hc s t
  obtain ⟨lead, hlead, hrest⟩ := collapseFrom_started false t
  refine ⟨x ++ collapseWhitespace s ++ mid, lead ++ collapseWhitespace t ++ y, ?_, ⟨x, mid, hx, hmid, rfl⟩,
    ⟨lead, y, hlead, hy, rfl⟩⟩
  rw [show collapseWhitespace (s ++ c :: t) = _ from heq, hrest]
  simp [collapseWhitespace]

end Loose

end Nntp.Proto
