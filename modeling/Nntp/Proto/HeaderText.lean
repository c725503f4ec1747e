import Mathlib.Data.List.Chain
import Nntp.Lib.Base64
import Nntp.Proto.EncodedWord
import Nntp.Proto.Mime

/-!
# Header values, out and back in

`encode_header_value` is documented as the mirror of `decode_header_value`. The decoder is characterised from
both ends: `parseEncodedWord_spelled` and `exists_spelled` say what it takes for an encoded word, `render` says
what becomes of the pieces. The encoder's words are a division of the value (`wordChunks_division`), of which
there is one.

A value does not survive in two cases. Text that is ASCII goes out as it is, also where it imitates an encoded
word; and a word that begins with U+FEFF loses it, since a charset decoder takes it for a byte order mark.
-/

namespace Nntp.Proto

/-! ## What an encoded word is -/

/-- `=?charset?encoding?text?=`. -/
def spelled (charset : Bytes) (encoding : UInt8) (text : Bytes) : Bytes :=
  [0x3D, 0x3F] ++ charset ++ [0x3F, encoding, 0x3F] ++ text ++ [0x3F, 0x3D]

/-- What the encoded text stands for, by the letter of its encoding. -/
def Codecs.payload (codecs : Codecs) (encoding : UInt8) (text : Bytes) : Option Bytes :=
  if encoding = 0x71 ∨ encoding = 0x51 then some (decodeQ text)
  else if encoding = 0x62 ∨ encoding = 0x42 then codecs.decodeB text
  else none

theorem Codecs.payload_bind (codecs : Codecs) (encoding : UInt8) (text : Bytes) {β : Type} (k : Bytes → Option β) :
    (codecs.payload encoding text >>= k) =
      if encoding = 0x71 ∨ encoding = 0x51 then some (decodeQ text) >>= k
      else if encoding = 0x62 ∨ encoding = 0x42 then codecs.decodeB text >>= k
      else none >>= k := by
  unfold payload
  split
  · rfl
  · split <;> rfl

/-- The parts of an encoded word that is expanded, and what they stand for. -/
structure WordParts (codecs : Codecs) (charset : Bytes) (encoding : UInt8) (text : Bytes) (label : Str)
    (raw : Bytes) : Prop where
  charset_ne_nil : charset ≠ []
  charset_mark : ∀ b ∈ charset, b ≠ 0x3F
  charset_space : ∀ b ∈ charset, isAsciiWhitespace b = false
  charset_label : fromUtf8 charset = some label
  text_space : ∀ b ∈ text, isAsciiWhitespace b = false
  text_ends : ¬ [0x3F, 0x3D] <:+: text ++ [0x3F]
  payload : codecs.payload encoding text = some raw

/-! ### Its end -/

theorem not_mark_infix_cons {b : UInt8} {text : Bytes} :
    ¬ [0x3F, 0x3D] <:+: b :: text ↔ ¬ (b = 0x3F ∧ text.head? = some 0x3D) ∧ ¬ [0x3F, 0x3D] <:+: text := by
  have hhere : [0x3F, 0x3D] <+: b :: text ↔ b = 0x3F ∧ text.head? = some 0x3D := by
    cases text with
    | nil => simp
    | cons c text =>
        rw [List.cons_prefix_cons, List.cons_prefix_cons, List.head?_cons, Option.some.injEq]
        constructor
        · rintro ⟨rfl, rfl, _⟩
          exact ⟨rfl, rfl⟩
        · rintro ⟨rfl, rfl⟩
          exact ⟨rfl, rfl, List.nil_prefix⟩
  rw [List.infix_cons_iff, not_or, hhere]

theorem not_mark_infix {text : Bytes} (h : 0x3F ∉ text) : ¬ [0x3F, 0x3D] <:+: text ++ [0x3F] := by
  induction text with
  | nil => decide
  | cons b text ih =>
      obtain ⟨hb, htext⟩ := not_or.mp (List.mem_cons.not.mp h)
      exact not_mark_infix_cons.mpr ⟨fun hmark => hb hmark.1.symm, ih htext⟩

theorem findSubsequence_mark {text : Bytes} (h : ¬ [0x3F, 0x3D] <:+: text ++ [0x3F]) (rest : Bytes) :
    findSubsequence [0x3F, 0x3D] (text ++ 0x3F :: 0x3D :: rest) = some text.length := by
  induction text with
  | nil => rfl
  | cons b text ih =>
      obtain ⟨hhere, hrest⟩ := not_mark_infix_cons.mp h
      have hnot : ¬ ([0x3F, 0x3D] : Bytes).isPrefixOf (b :: (text ++ 0x3F :: 0x3D :: rest)) = true := by
        cases text with
        | nil => simp
        | cons c text =>
            rw [List.isPrefixOf_iff_prefix, List.cons_append, List.cons_prefix_cons, List.cons_prefix_cons]
            rintro ⟨rfl, rfl, _⟩
            exact hhere ⟨rfl, rfl⟩
      rw [List.cons_append, findSubsequence, if_neg hnot, ih hrest]
      rfl

theorem exists_mark {s : Bytes} {n : Nat} (h : findSubsequence [0x3F, 0x3D] s = some n) :
    ∃ text rest, text.length = n ∧ s = text ++ 0x3F :: 0x3D :: rest ∧ ¬ [0x3F, 0x3D] <:+: text ++ [0x3F] := by
  induction s generalizing n with
  | nil => cases h
  | cons b s ih =>
      rw [findSubsequence] at h
      by_cases hprefix : ([0x3F, 0x3D] : Bytes).isPrefixOf (b :: s) = true
      · rw [if_pos hprefix] at h
        cases h
        obtain ⟨rest, hrest⟩ := List.isPrefixOf_iff_prefix.mp hprefix
        exact ⟨[], rest, rfl, hrest.symm, by decide⟩
      · rw [if_neg hprefix] at h
        obtain ⟨n, hn, rfl⟩ := Option.map_eq_some_iff.mp h
        obtain ⟨text, rest, rfl, rfl, hends⟩ := ih hn
        refine ⟨b :: text, rest, rfl, rfl, not_mark_infix_cons.mpr ⟨?_, hends⟩⟩
        rintro ⟨rfl, hhead⟩
        apply hprefix
        cases text with
        | nil => cases hhead
        | cons c text =>
            cases hhead
            simp

/-! ### Its parts -/

section Parse

variable {codecs : Codecs} {charset text raw : Bytes} {encoding : UInt8} {label : Str}

theorem length_spelled :
    (spelled charset encoding text).length = 2 + charset.length + 1 + 1 + 1 + text.length + 2 := by
  simp [spelled]
  omega

/-- **An encoded word is found where it begins.** -/
theorem WordParts.parse (parts : WordParts codecs charset encoding text label raw) (rest : Bytes) :
    codecs.parseEncodedWord (spelled charset encoding text ++ rest) =
      some (codecs.decodeWithCharset raw label, (spelled charset encoding text).length) := by
  have hspelled : spelled charset encoding text ++ rest =
      0x3D :: 0x3F :: (charset ++ 0x3F :: encoding :: 0x3F :: (text ++ 0x3F :: 0x3D :: rest)) := by
    simp [spelled]
  have hcharset : splitOnce (· == 0x3F) (charset ++ 0x3F :: encoding :: 0x3F :: (text ++ 0x3F :: 0x3D :: rest)) =
      some (charset, encoding :: 0x3F :: (text ++ 0x3F :: 0x3D :: rest)) :=
    splitOnce_append (fun b hb => beq_eq_false_iff_ne.mpr (parts.charset_mark b hb)) rfl _
  have hname : (charset.isEmpty || charset.any isAsciiWhitespace) = false := by
    have hany : charset.any isAsciiWhitespace = false :=
      List.any_eq_false.mpr fun b hb => Bool.eq_false_iff.mp (parts.charset_space b hb)
    have hempty : charset.isEmpty = false := List.isEmpty_eq_false_iff.mpr parts.charset_ne_nil
    rw [hany, hempty]
    rfl
  have htext : text.any isAsciiWhitespace = false :=
    List.any_eq_false.mpr fun b hb => Bool.eq_false_iff.mp (parts.text_space b hb)
  unfold Codecs.parseEncodedWord
  rw [hspelled]
  simp only [stripPrefix, if_true, Option.bind_eq_bind, Option.bind_some, hcharset, hname, Bool.false_eq_true,
    if_false, findSubsequence_mark parts.text_ends, List.take_left, htext, parts.charset_label, length_spelled]
  have hpayload := codecs.payload_bind encoding text fun raw =>
    some (codecs.decodeWithCharset raw label, 2 + charset.length + 1 + 1 + 1 + text.length + 2)
  rw [parts.payload] at hpayload
  exact hpayload.symm

/-- **What is found is an encoded word.** -/
theorem exists_spelled {input : Bytes} {decoded : Str} {consumed : Nat}
    (h : codecs.parseEncodedWord input = some (decoded, consumed)) :
    ∃ charset encoding text label raw rest, WordParts codecs charset encoding text label raw ∧
      input = spelled charset encoding text ++ rest ∧ consumed = (spelled charset encoding text).length ∧
        decoded = codecs.decodeWithCharset raw label := by
  unfold Codecs.parseEncodedWord at h
  obtain ⟨afterPrefix, hprefix, hafter⟩ := Option.bind_eq_some_iff.mp h
  obtain ⟨⟨charset, afterCharset⟩, hcharset, hword⟩ := Option.bind_eq_some_iff.mp hafter
  obtain ⟨sep, hsep, rfl, hmark⟩ := splitOnce_eq_some hcharset
  obtain rfl := beq_iff_eq.mp hsep
  clear h hafter
  dsimp only at hword
  split at hword
  · cases hword
  · next hname =>
    split at hword
    · next encoding start =>
      obtain ⟨textLen, htextLen, htext⟩ := Option.bind_eq_some_iff.mp hword
      obtain ⟨text, rest, rfl, rfl, hends⟩ := exists_mark htextLen
      rw [List.take_left] at htext
      split at htext
      · cases htext
      · next hspace =>
        rw [← Codecs.payload_bind] at htext
        obtain ⟨raw, hraw, hlabelled⟩ := Option.bind_eq_some_iff.mp htext
        obtain ⟨label, hlabel, hdecoded⟩ := Option.bind_eq_some_iff.mp hlabelled
        cases hdecoded
        simp only [Bool.or_eq_true, not_or, List.isEmpty_iff, List.any_eq_true, not_exists, not_and,
          Bool.not_eq_true] at hname hspace
        refine ⟨charset, encoding, text, label, raw, rest, ⟨hname.1, ?_, hname.2, hlabel, hspace, hends, hraw⟩,
          ?_, length_spelled.symm, rfl⟩
        · exact fun b hb => beq_eq_false_iff_ne.mp (hmark b hb)
        · rw [stripPrefix_eq_some.mp hprefix]
          simp [spelled]
    · cases hword

end Parse

/-! ## What becomes of the pieces -/

namespace Codecs

variable (codecs : Codecs)

/-- The text of the pieces, where `after` says whether an encoded word came last. -/
def renderFrom : Bool → List Piece → Str
  | _, [] => []
  | _, .encoded text :: rest => text ++ renderFrom true rest
  | after, .literal raw :: rest =>
      (if isBlankRun raw && (after && rest.head?.any Piece.isEncoded) then [] else codecs.decode8bitLossy raw) ++
        renderFrom false rest

theorem betweenEncodedWords_append (front rest : List Piece) (piece : Piece) :
    betweenEncodedWords (front ++ piece :: rest) front.length =
      (front.getLast?.any Piece.isEncoded && rest.head?.any Piece.isEncoded) := by
  have hbefore : (decide (0 < front.length) && (front ++ piece :: rest)[front.length - 1]?.any Piece.isEncoded) =
      front.getLast?.any Piece.isEncoded := by
    cases front with
    | nil => rfl
    | cons first front =>
        rw [List.getElem?_append_left (by simp), List.getLast?_eq_getElem?]
        simp
  have hafter : (front ++ piece :: rest)[front.length + 1]? = rest.head? := by
    rw [List.getElem?_append_right (by omega)]
    simp [List.head?_eq_getElem?]
  unfold betweenEncodedWords
  rw [hbefore, hafter]

/-- The pieces already rendered, `front`, stay in the list that `betweenEncodedWords` looks into. -/
theorem flatMap_zipIdx {pieces : List Piece} {text : Piece × Nat → Str}
    (hencoded : ∀ decoded index, text (.encoded decoded, index) = decoded)
    (hliteral : ∀ raw index, text (.literal raw, index) =
      if isBlankRun raw && betweenEncodedWords pieces index then [] else codecs.decode8bitLossy raw)
    (front rest : List Piece) (hsplit : pieces = front ++ rest) :
    (rest.zipIdx front.length).flatMap text = codecs.renderFrom (front.getLast?.any Piece.isEncoded) rest := by
  induction rest generalizing front with
  | nil => rfl
  | cons piece rest ih =>
      have htail := ih (front ++ [piece]) (by rw [hsplit, List.append_assoc, List.singleton_append])
      rw [List.length_append, List.length_singleton, List.getLast?_concat, Option.any_some] at htail
      rw [List.zipIdx_cons, List.flatMap_cons, htail]
      cases piece with
      | encoded decoded =>
          rw [hencoded]
          rfl
      | literal raw =>
          rw [hliteral, hsplit, betweenEncodedWords_append]
          rfl

theorem decodeHeaderValue_eq (value : Bytes) :
    codecs.decodeHeaderValue value = codecs.renderFrom false (codecs.splitEncodedWords value) :=
  codecs.flatMap_zipIdx (fun _ _ => rfl) (fun _ _ => rfl) [] _ rfl

/-! ## The scan -/

theorem splitFrom_skip (run front rest : Bytes) :
    codecs.splitFrom run front.length (front ++ rest) = codecs.splitFrom run 0 rest := by
  induction front with
  | nil => rfl
  | cons b front ih => exact ih

variable {codecs}

/-- Octets at which no encoded word begins go into the literal run. -/
theorem splitFrom_front {front rest : Bytes}
    (h : ∀ a b, front = a ++ b → b ≠ [] → codecs.parseEncodedWord (b ++ rest) = none) (run : Bytes) :
    codecs.splitFrom run 0 (front ++ rest) = codecs.splitFrom (run ++ front) 0 rest := by
  induction front generalizing run with
  | nil => rw [List.nil_append, List.append_nil]
  | cons b front ih =>
      have hnone := h [] (b :: front) rfl (List.cons_ne_nil _ _)
      have hfront : ∀ a d, front = a ++ d → d ≠ [] → codecs.parseEncodedWord (d ++ rest) = none := by
        intro a d hsplit hne
        exact h (b :: a) d (by rw [hsplit, List.cons_append]) hne
      rw [List.cons_append] at hnone ⊢
      rw [splitFrom, hnone]
      dsimp only
      rw [ih hfront, List.append_assoc, List.singleton_append]

/-- An encoded word ends the literal run before it. -/
theorem splitFrom_word {charset text raw : Bytes} {encoding : UInt8} {label : Str}
    (parts : WordParts codecs charset encoding text label raw) (run rest : Bytes) :
    codecs.splitFrom run 0 (spelled charset encoding text ++ rest) =
      flush run ++ .encoded (codecs.decodeWithCharset raw label) :: codecs.splitFrom [] 0 rest := by
  have hparse := parts.parse rest
  have hskip := codecs.splitFrom_skip [] (spelled charset encoding text).tail rest
  cases hword : spelled charset encoding text with
  | nil => cases hword
  | cons b word =>
      rw [hword] at hparse hskip
      rw [List.cons_append] at hparse ⊢
      rw [splitFrom, hparse]
      dsimp only
      rw [List.tail_cons] at hskip
      rw [List.length_cons, Nat.add_sub_cancel, hskip]

end Codecs

/-! ## The words of a value -/

/-- The value is divided into words, none of which has room for the character that begins the next. -/
structure Division (value : Str) (words : List Str) : Prop where
  whole : words.flatten = value
  ne_nil : ∀ word ∈ words, word ≠ []
  short : ∀ word ∈ words, (asBytes word).length ≤ bytesPerWord
  full : words.IsChain fun word next => ∀ c ∈ next.head?, bytesPerWord < (asBytes (word ++ [c])).length

namespace Division

variable {value word next more : Str} {words others : List Str}

theorem tail (h : Division value (word :: words)) : Division words.flatten words :=
  ⟨rfl, fun w hw => h.ne_nil w (List.mem_cons_of_mem _ hw), fun w hw => h.short w (List.mem_cons_of_mem _ hw),
    h.full.tail⟩

/-- A first word does not go on in another division. -/
theorem no_more {rest : Str} (h : Division value (word :: words)) (hmore : words.flatten = more ++ rest)
    (hshort : (asBytes (word ++ more)).length ≤ bytesPerWord) : more = [] := by
  cases more with
  | nil => rfl
  | cons c more =>
      cases words with
      | nil => cases hmore
      | cons next words =>
          have hnext := h.ne_nil next (by simp)
          have hfull := (List.isChain_cons_cons.mp h.full).1
          cases next with
          | nil => exact absurd rfl hnext
          | cons d next =>
              obtain ⟨rfl, _⟩ := List.cons_eq_cons.mp hmore
              have hlong := hfull d rfl
              have hmiddle : asBytes (word ++ d :: more) = asBytes (word ++ [d]) ++ asBytes more := by
                rw [← asBytes_append, List.append_assoc, List.singleton_append]
              rw [hmiddle, List.length_append] at hshort
              omega

/-- **There is one division.** -/
theorem unique (h : Division value words) (h' : Division value others) : words = others := by
  induction words generalizing value others with
  | nil =>
      obtain rfl : [] = value := h.whole
      cases others with
      | nil => rfl
      | cons next others => exact absurd (List.append_eq_nil_iff.mp h'.whole).1 (h'.ne_nil next (by simp))
  | cons word words ih =>
      cases others with
      | nil =>
          have hempty : word ++ words.flatten = [] := h.whole.trans h'.whole.symm
          exact absurd (List.append_eq_nil_iff.mp hempty).1 (h.ne_nil word (by simp))
      | cons next others =>
          have hwhole : word ++ words.flatten = next ++ others.flatten := h.whole.trans h'.whole.symm
          have hsame : word = next := by
            rcases List.append_eq_append_iff.mp hwhole with ⟨more, rfl, hmore⟩ | ⟨more, rfl, hmore⟩
            · rw [h.no_more hmore (h'.short _ (by simp)), List.append_nil]
            · rw [h'.no_more hmore (h.short _ (by simp)), List.append_nil]
          subst hsame
          have hrest := List.append_cancel_left hwhole
          rw [ih h.tail (hrest ▸ h'.tail)]

/-- A character for which there is room goes into the last word. -/
theorem extend {c : Char} (h : Division value (words ++ [word]))
    (hroom : (asBytes (word ++ [c])).length ≤ bytesPerWord) : Division (value ++ [c]) (words ++ [word ++ [c]]) := by
  have hword := h.ne_nil word (by simp)
  obtain ⟨hfront, _, hjoin⟩ := List.isChain_append.mp h.full
  constructor
  · rw [← h.whole]
    simp
  · intro w hw
    rcases List.mem_append.mp hw with hw | hw
    · exact h.ne_nil w (List.mem_append_left _ hw)
    · rw [List.mem_singleton.mp hw]
      simp
  · intro w hw
    rcases List.mem_append.mp hw with hw | hw
    · exact h.short w (List.mem_append_left _ hw)
    · rwa [List.mem_singleton.mp hw]
  · refine List.isChain_append.mpr ⟨hfront, List.isChain_singleton _, ?_⟩
    intro w hw next hnext
    obtain rfl : word ++ [c] = next := Option.some.inj hnext
    rw [List.head?_append_of_ne_nil _ hword]
    exact hjoin w hw word rfl

/-- A character for which there is none begins a new one. -/
theorem append {c : Char} (h : Division value (words ++ [word]))
    (hfull : bytesPerWord < (asBytes (word ++ [c])).length) (hchar : (asBytes [c]).length ≤ bytesPerWord) :
    Division (value ++ [c]) (words ++ [word] ++ [[c]]) := by
  constructor
  · rw [← h.whole]
    simp
  · intro w hw
    rcases List.mem_append.mp hw with hw | hw
    · exact h.ne_nil w hw
    · rw [List.mem_singleton.mp hw]
      simp
  · intro w hw
    rcases List.mem_append.mp hw with hw | hw
    · exact h.short w hw
    · rwa [List.mem_singleton.mp hw]
  · refine List.isChain_append.mpr ⟨h.full, List.isChain_singleton _, ?_⟩
    intro w hw next hnext d hd
    rw [List.getLast?_concat] at hw
    cases hw
    cases hnext
    cases hd
    exact hfull

end Division

theorem length_utf8EncodeChar (c : Char) : (String.utf8EncodeChar c).length ≤ 4 := by
  rw [String.length_utf8EncodeChar]
  exact c.utf8Size_le_four

/-- What the loop of `encode_header_value` has after a part of the value. -/
theorem foldl_wordStep (value : Str) :
    ∃ words last, value.foldl wordStep ([], []) = (words.map asBytes, asBytes last) ∧
      (value = [] ∧ words = [] ∧ last = [] ∨ Division value (words ++ [last])) := by
  induction value using List.reverseRecOn with
  | nil => exact ⟨[], [], rfl, Or.inl ⟨rfl, rfl, rfl⟩⟩
  | append_singleton value c ih =>
      obtain ⟨words, last, hfold, hdivision⟩ := ih
      have hsize := length_utf8EncodeChar c
      have hchar : asBytes [c] = String.utf8EncodeChar c := by simp [asBytes]
      have hlen : (asBytes (last ++ [c])).length = (asBytes last).length + (String.utf8EncodeChar c).length := by
        rw [asBytes_append, hchar, List.length_append]
      rw [List.foldl_append, hfold, List.foldl_cons, List.foldl_nil]
      unfold wordStep
      dsimp only
      rw [← hlen]
      by_cases hroom : (asBytes (last ++ [c])).length ≤ bytesPerWord
      · rw [if_neg (Nat.not_lt.mpr hroom), ← hchar, ← asBytes_append]
        refine ⟨words, last ++ [c], rfl, Or.inr ?_⟩
        rcases hdivision with ⟨rfl, rfl, rfl⟩ | hdivision
        · exact ⟨by simp, by simp, by simpa using hroom, List.isChain_singleton _⟩
        · exact hdivision.extend hroom
      · have hfull := Nat.lt_of_not_le hroom
        rw [if_pos hfull, ← hchar]
        refine ⟨words ++ [last], [c], by simp, Or.inr ?_⟩
        rcases hdivision with ⟨rfl, rfl, rfl⟩ | hdivision
        · -- the first character always has room
          rw [hlen] at hfull
          simp only [asBytes, List.flatMap_nil, List.length_nil, bytesPerWord] at hfull
          omega
        · refine hdivision.append hfull ?_
          rw [hchar]
          exact Nat.le_trans hsize (by decide)

/-- **The encoder's words are the division of the value.** -/
theorem wordChunks_division (value : Str) :
    ∃ words, Division value words ∧ wordChunks value = words.map asBytes := by
  obtain ⟨words, last, hfold, hdivision⟩ := foldl_wordStep value
  unfold wordChunks
  rw [hfold]
  rcases hdivision with ⟨rfl, rfl, rfl⟩ | hdivision
  · exact ⟨[], ⟨rfl, by simp, by simp, List.isChain_nil⟩, rfl⟩
  · have hlast : (asBytes last).isEmpty = false := by
      cases last with
      | nil => exact absurd rfl (hdivision.ne_nil [] (by simp))
      | cons c last =>
          rw [asBytes, List.flatMap_cons]
          simp
    refine ⟨words ++ [last], hdivision, ?_⟩
    dsimp only
    rw [hlast]
    simp

/-! ## How long the text is -/

theorem utf8Chunks_length (bytes : Bytes) : (utf8Chunks bytes).length ≤ bytes.length := by
  fun_induction utf8Chunks bytes with
  | case1 => exact Nat.le_refl _
  | case2 b rest ih =>
      have hrest := readChar_length b rest
      simp only [List.length_cons]
      omega

theorem fromUtf8_length {bytes : Bytes} {s : Str} (h : fromUtf8 bytes = some s) : s.length ≤ bytes.length := by
  rw [fromUtf8_eq_some.mp h]
  clear h
  induction s with
  | nil => exact Nat.le_refl 0
  | cons c s ih =>
      have hone : 0 < (String.utf8EncodeChar c).length := by
        rw [String.length_utf8EncodeChar]
        exact c.utf8Size_pos
      show s.length + 1 ≤ (String.utf8EncodeChar c ++ asBytes s).length
      rw [List.length_append]
      omega

theorem decodeQ_length (text : Bytes) : (decodeQ text).length ≤ text.length := by
  fun_induction decodeQ text with
  | case1 | case3 => exact Nat.le_refl _
  | _ =>
      simp only [List.length_cons] at *
      omega

/-- The value without one byte order mark at its start. -/
def withoutMark : Str → Str
  | [] => []
  | c :: rest => if c = Char.ofNat 0xFEFF then rest else c :: rest

/-- What the other crates are documented to do: base64 encodes and decodes, and does not lengthen in decoding; a
charset decoder makes at most one character of an octet, and the one for UTF-8 takes a byte order mark off. -/
structure Conforms (base64 : Bytes → Str) (codecs : Codecs) : Prop where
  alphabet : ∀ bytes, ∀ c ∈ base64 bytes, isBase64 c = true
  decoded : ∀ bytes, codecs.base64Lenient (asBytes (base64 bytes)) = some bytes
  lenient_length : ∀ {input bytes}, codecs.base64Lenient input = some bytes → bytes.length ≤ input.length
  standard_length : ∀ {input bytes}, codecs.base64Standard input = some bytes → bytes.length ≤ input.length
  utf8 : ∃ decode, codecs.forLabel "UTF-8".toList = some decode ∧ ∀ s, decode (asBytes s) = withoutMark s
  charset_length : ∀ {label decode}, codecs.forLabel label = some decode →
    ∀ bytes, (decode bytes).length ≤ bytes.length
  windows1252_length : ∀ bytes, (codecs.windows1252 bytes).length ≤ bytes.length

namespace Conforms

variable {base64 : Bytes → Str} {codecs : Codecs} (conforms : Conforms base64 codecs)

include conforms

theorem decode8bitLossy_length (bytes : Bytes) : (codecs.decode8bitLossy bytes).length ≤ bytes.length := by
  unfold Codecs.decode8bitLossy
  cases hutf8 : fromUtf8 bytes with
  | none => exact conforms.windows1252_length bytes
  | some s => exact fromUtf8_length hutf8

theorem payload_length {encoding : UInt8} {text raw : Bytes} (h : codecs.payload encoding text = some raw) :
    raw.length ≤ text.length := by
  unfold Codecs.payload at h
  split at h
  · cases h
    exact decodeQ_length text
  · split at h
    · unfold Codecs.decodeB at h
      rw [Option.orElse_eq_orElse, Option.orElse_eq_or] at h
      rcases Option.or_eq_some_iff.mp h with h | ⟨_, h⟩
      · exact conforms.lenient_length h
      · exact conforms.standard_length h
    · cases h

/-- Text shrinks where it is taken for an encoded word. -/
theorem word_length {charset text raw : Bytes} {encoding : UInt8} {label : Str}
    (parts : WordParts codecs charset encoding text label raw) :
    (codecs.decodeWithCharset raw label).length < (spelled charset encoding text).length := by
  have hraw : (codecs.decodeWithCharset raw label).length ≤ raw.length := by
    unfold Codecs.decodeWithCharset
    dsimp only
    cases hlabel : codecs.forLabel (trimMatches '"' (trim (splitAll (· == '*') label).1)) with
    | none => exact conforms.decode8bitLossy_length raw
    | some decode => exact conforms.charset_length hlabel raw
  have hpayload := conforms.payload_length parts.payload
  rw [length_spelled]
  omega

end Conforms

/-- How many characters a piece can become. -/
def Piece.size : Piece → Nat
  | .encoded text => text.length
  | .literal raw => raw.length

def textSize : List Piece → Nat
  | [] => 0
  | piece :: rest => piece.size + textSize rest

@[simp] theorem textSize_append (pieces more : List Piece) :
    textSize (pieces ++ more) = textSize pieces + textSize more := by
  induction pieces with
  | nil => simp [textSize]
  | cons piece pieces ih => simp [textSize, ih, Nat.add_assoc]

@[simp] theorem textSize_cons (piece : Piece) (pieces : List Piece) :
    textSize (piece :: pieces) = piece.size + textSize pieces := rfl

@[simp] theorem textSize_flush (run : Bytes) : textSize (Codecs.flush run) = run.length := by
  cases run <;> simp [Codecs.flush, textSize, Piece.size]

namespace Conforms

variable {base64 : Bytes → Str} {codecs : Codecs} (conforms : Conforms base64 codecs)

include conforms

theorem renderFrom_length (after : Bool) (pieces : List Piece) :
    (codecs.renderFrom after pieces).length ≤ textSize pieces := by
  induction pieces generalizing after with
  | nil => exact Nat.zero_le _
  | cons piece rest ih =>
      rw [textSize_cons]
      cases piece with
      | encoded text =>
          rw [Codecs.renderFrom, List.length_append]
          exact Nat.add_le_add_left (ih true) _
      | literal raw =>
          rw [Codecs.renderFrom, List.length_append]
          refine Nat.add_le_add ?_ (ih false)
          split
          · exact Nat.zero_le _
          · exact conforms.decode8bitLossy_length raw

theorem splitFrom_size (run : Bytes) (skip : Nat) (rest : Bytes) :
    textSize (codecs.splitFrom run skip rest) ≤ run.length + (rest.length - skip) := by
  fun_induction codecs.splitFrom run skip rest with
  | case1 run skip => simp
  | case2 run skip b rest ih =>
      rw [List.length_cons, Nat.add_sub_add_right]
      exact ih
  | case3 run b rest decoded consumed hparse ih =>
      obtain ⟨charset, encoding, text, label, raw, tail, parts, hinput, rfl, rfl⟩ := exists_spelled hparse
      have hword := conforms.word_length parts
      have hlength := congrArg List.length hinput
      simp only [List.length_append, List.length_cons] at hlength
      simp only [textSize_append, textSize_cons, textSize_flush, Piece.size, List.length_cons, List.length_nil] at ih ⊢
      omega
  | case4 run b rest hparse ih =>
      simp only [List.length_append, List.length_cons, List.length_nil] at ih ⊢
      omega

end Conforms

/-! ## There and back -/

/-- An octet string that is expanded as an encoded word. -/
def Codecs.IsEncodedWord (codecs : Codecs) (word : Bytes) : Prop :=
  ∃ charset encoding text label raw, WordParts codecs charset encoding text label raw ∧
    word = spelled charset encoding text

/-- What a value must not have in it: text that is ASCII, an encoded word; other text, a word that begins with
U+FEFF. -/
def Survives (codecs : Codecs) (value : Str) : Prop :=
  if strIsAscii value then ∀ word, codecs.IsEncodedWord word → ¬ word <:+: asBytes value
  else ∀ words, Division value words → ∀ word ∈ words, word.head? ≠ some (Char.ofNat 0xFEFF)

section Ascii

variable {codecs : Codecs} {value : Bytes}

theorem parseEncodedWord_none (h : ∀ word, codecs.IsEncodedWord word → ¬ word <:+: value) {front rest : Bytes}
    (hsplit : front ++ rest = value) : codecs.parseEncodedWord rest = none := by
  by_contra hsome
  obtain ⟨⟨decoded, consumed⟩, hparse⟩ := Option.ne_none_iff_exists'.mp hsome
  obtain ⟨charset, encoding, text, label, raw, tail, parts, rfl, -, -⟩ := exists_spelled hparse
  exact h _ ⟨charset, encoding, text, label, raw, parts, rfl⟩ ⟨front, tail, by rw [List.append_assoc, hsplit]⟩

/-- The first place where an encoded word begins. -/
theorem exists_first {word : Bytes} (hword : codecs.IsEncodedWord word) (h : word <:+: value) :
    ∃ front charset encoding text label raw rest, WordParts codecs charset encoding text label raw ∧
      value = front ++ (spelled charset encoding text ++ rest) ∧
        ∀ a b, front = a ++ b → b ≠ [] →
          codecs.parseEncodedWord (b ++ (spelled charset encoding text ++ rest)) = none := by
  induction value with
  | nil =>
      obtain ⟨charset, encoding, text, label, raw, parts, rfl⟩ := hword
      cases List.infix_nil.mp h
  | cons c value ih =>
      cases hparse : codecs.parseEncodedWord (c :: value) with
      | some found =>
          obtain ⟨charset, encoding, text, label, raw, rest, parts, hvalue, -, -⟩ := exists_spelled hparse
          refine ⟨[], charset, encoding, text, label, raw, rest, parts, hvalue, fun a b hsplit hne => ?_⟩
          exact absurd (List.append_eq_nil_iff.mp hsplit.symm).2 hne
      | none =>
          have htail : word <:+: value := by
            rcases List.infix_cons_iff.mp h with ⟨rest, hrest⟩ | h
            · obtain ⟨charset, encoding, text, label, raw, parts, rfl⟩ := hword
              rw [← hrest, parts.parse rest] at hparse
              cases hparse
            · exact h
          obtain ⟨front, charset, encoding, text, label, raw, rest, parts, rfl, hfirst⟩ := ih htail
          refine ⟨c :: front, charset, encoding, text, label, raw, rest, parts, rfl, fun a b hsplit hne => ?_⟩
          cases a with
          | nil =>
              obtain rfl : c :: front = b := hsplit
              exact hparse
          | cons d a => exact hfirst a b (List.cons_eq_cons.mp hsplit).2 hne

end Ascii

theorem withoutMark_length (s : Str) : (withoutMark s).length ≤ s.length := by
  cases s with
  | nil => exact Nat.le_refl _
  | cons c rest =>
      rw [withoutMark]
      split
      · exact Nat.le_succ _
      · exact Nat.le_refl _

theorem withoutMark_of_head {s : Str} (h : s.head? ≠ some (Char.ofNat 0xFEFF)) : withoutMark s = s := by
  cases s with
  | nil => rfl
  | cons c rest =>
      have hc : c ≠ Char.ofNat 0xFEFF := fun hc => h (congrArg some hc)
      rw [withoutMark, if_neg hc]

/-- Words keep their text, unless one of them begins with a mark. -/
theorem flatten_withoutMark {words : List Str} :
    (words.map withoutMark).flatten = words.flatten ↔
      ∀ word ∈ words, word.head? ≠ some (Char.ofNat 0xFEFF) := by
  have hle : ∀ words : List Str, (words.map withoutMark).flatten.length ≤ words.flatten.length := by
    intro words
    induction words with
    | nil => exact Nat.le_refl _
    | cons word words ih =>
        have hword := withoutMark_length word
        simp only [List.map_cons, List.flatten_cons, List.length_append]
        omega
  induction words with
  | nil => simp
  | cons word words ih =>
      rw [List.map_cons, List.flatten_cons, List.flatten_cons, List.forall_mem_cons]
      refine ⟨fun h => ?_, fun ⟨hword, hwords⟩ => by rw [withoutMark_of_head hword, ih.mpr hwords]⟩
      have hhead : word.head? ≠ some (Char.ofNat 0xFEFF) := by
        intro hhead
        have hlength := congrArg List.length h
        have hrest := hle words
        cases word with
        | nil => cases hhead
        | cons c rest =>
            rw [withoutMark, if_pos (Option.some.inj hhead)] at hlength
            simp only [List.length_append, List.length_cons] at hlength
            omega
      rw [withoutMark_of_head hhead] at h
      exact ⟨hhead, ih.mp (List.append_cancel_left h)⟩

namespace Conforms

variable {base64 : Bytes → Str} {codecs : Codecs} (conforms : Conforms base64 codecs)

include conforms

/-- **A value in ASCII** comes back if no encoded word is found in it. -/
theorem decodeHeaderValue_ascii {value : Str} (hascii : ∀ c ∈ value, c.toNat < 0x80) :
    codecs.decodeHeaderValue (asBytes value) = value ↔
      ∀ word, codecs.IsEncodedWord word → ¬ word <:+: asBytes value := by
  refine ⟨fun h word hword hinfix => ?_, fun h => ?_⟩
  · obtain ⟨front, charset, encoding, text, label, raw, rest, parts, hvalue, hfirst⟩ := exists_first hword hinfix
    have hpieces : codecs.splitEncodedWords (asBytes value) =
        Codecs.flush front ++ .encoded (codecs.decodeWithCharset raw label) :: codecs.splitFrom [] 0 rest := by
      unfold Codecs.splitEncodedWords
      rw [hvalue, Codecs.splitFrom_front hfirst, Codecs.splitFrom_word parts, List.nil_append]
    have hsize := conforms.renderFrom_length false (codecs.splitEncodedWords (asBytes value))
    have hrest := conforms.splitFrom_size [] 0 rest
    have hshrinks := conforms.word_length parts
    have hoctets : (asBytes value).length = value.length := by
      rw [asBytes_ascii hascii, List.length_map]
    rw [← Codecs.decodeHeaderValue_eq, h, ← hoctets, hpieces, hvalue] at hsize
    simp only [textSize_append, textSize_cons, textSize_flush, Piece.size, List.length_append] at hsize
    rw [List.length_nil] at hrest
    omega
  · rw [codecs.decodeHeaderValue_flush (codecs.splitFrom_none (fun _ _ => parseEncodedWord_none h) [])]
    unfold Codecs.decode8bitLossy
    rw [fromUtf8_asBytes]
    rfl

/-- The encoder's words are encoded words. -/
theorem wordParts (chunk : Bytes) :
    WordParts codecs (asBytes "UTF-8".toList) 0x42 (asBytes (base64 chunk)) "UTF-8".toList chunk := by
  have hascii : ∀ c ∈ base64 chunk, 0x20 < c.toNat ∧ c.toNat < 0x80 :=
    fun c hc => isBase64_ascii (conforms.alphabet chunk c hc)
  have hmark : (0x3F : UInt8) ∉ asBytes (base64 chunk) := by
    rw [@mem_asBytes_ascii _ '?' 0x3F rfl (by decide)]
    intro hmem
    have := conforms.alphabet chunk '?' hmem
    revert this
    decide
  constructor
  · decide
  · exact forall_of_all (by decide)
  · exact forall_of_all (by decide)
  · exact fromUtf8_asBytes _
  · intro b hb
    rw [asBytes_ascii fun c hc => (hascii c hc).2] at hb
    obtain ⟨c, hc, rfl⟩ := List.mem_map.mp hb
    obtain ⟨hlow, hhigh⟩ := hascii c hc
    unfold isAsciiWhitespace
    simp only [Bool.or_eq_false_iff, beq_eq_false_iff_ne, ne_eq, ← UInt8.toNat_inj,
      toNat_octet (show c.toNat < 256 by omega)]
    simp
    omega
  · exact not_mark_infix hmark
  · unfold Codecs.payload Codecs.decodeB
    rw [conforms.decoded]
    rfl

theorem decodeWithCharset_utf8 (s : Str) :
    codecs.decodeWithCharset (asBytes s) "UTF-8".toList = withoutMark s := by
  obtain ⟨decode, hdecode, hmark⟩ := conforms.utf8
  have hlabel : trimMatches '"' (trim (splitAll (· == '*') "UTF-8".toList).1) = "UTF-8".toList := by decide
  unfold Codecs.decodeWithCharset
  dsimp only
  rw [hlabel, hdecode]
  exact hmark s

omit conforms in
theorem asBytes_encodedWord (chunk : Bytes) : asBytes (encodedWord base64 chunk) =
    spelled (asBytes "UTF-8".toList) 0x42 (asBytes (base64 chunk)) := by
  unfold encodedWord
  rw [asBytes_append, asBytes_append]
  rfl

/-- The words as they stand in a header line, divided by blanks. -/
theorem splitFrom_words (word : Str) (words : List Str) (run : Bytes) :
    codecs.splitFrom run 0
        (asBytes (joinWith [' '] ((word :: words).map fun word => encodedWord base64 (asBytes word)))) =
      Codecs.flush run ++ ((word :: words).map fun word => .encoded (withoutMark word)).intersperse
        (.literal [0x20]) := by
  have hword : ∀ (word : Str) (run rest : Bytes),
      codecs.splitFrom run 0 (asBytes (encodedWord base64 (asBytes word)) ++ rest) =
        Codecs.flush run ++ .encoded (withoutMark word) :: codecs.splitFrom [] 0 rest := by
    intro word run rest
    rw [asBytes_encodedWord, Codecs.splitFrom_word (conforms.wordParts (asBytes word)),
      conforms.decodeWithCharset_utf8]
  induction words generalizing word run with
  | nil =>
      have := hword word run []
      rwa [List.append_nil] at this
  | cons next words ih =>
      have hblank : ∀ rest, codecs.splitFrom [] 0 (0x20 :: rest) = codecs.splitFrom [0x20] 0 rest := fun _ => rfl
      have hjoin : asBytes (joinWith [' '] ((word :: next :: words).map fun word => encodedWord base64 (asBytes word))) =
          asBytes (encodedWord base64 (asBytes word)) ++ 0x20 ::
            asBytes (joinWith [' '] ((next :: words).map fun word => encodedWord base64 (asBytes word))) := by
        rw [List.map_cons, List.map_cons, joinWith, asBytes_append, asBytes_append, List.append_assoc]
        · rfl
        · exact List.cons_ne_nil _ _
      rw [hjoin, hword, hblank, ih]
      rfl

omit conforms in
/-- The blanks between encoded words go away. -/
theorem renderFrom_words (after : Bool) (texts : List Str) :
    codecs.renderFrom after ((texts.map Piece.encoded).intersperse (.literal [0x20])) = texts.flatten := by
  induction texts generalizing after with
  | nil => rfl
  | cons text texts ih =>
      cases texts with
      | nil => rfl
      | cons next texts =>
          have hhead : ((next :: texts).map Piece.encoded).intersperse (.literal [0x20]) =
              .encoded next :: (((next :: texts).map Piece.encoded).intersperse (.literal [0x20])).tail := by
            cases texts <;> rfl
          have hrest := ih false
          rw [List.map_cons, List.map_cons, List.intersperse_cons_cons, ← List.map_cons, Codecs.renderFrom, Codecs.renderFrom,
            hrest, hhead]
          rfl

/-- **A value in encoded words** comes back without the marks its words begin with. -/
theorem decodeHeaderValue_words {words : List Str} :
    codecs.decodeHeaderValue
        (asBytes (joinWith [' '] (words.map fun word => encodedWord base64 (asBytes word)))) =
      (words.map withoutMark).flatten := by
  rw [Codecs.decodeHeaderValue_eq]
  unfold Codecs.splitEncodedWords
  cases words with
  | nil => rfl
  | cons word words =>
      have hrender := @renderFrom_words codecs false ((word :: words).map withoutMark)
      rw [List.map_map] at hrender
      rw [conforms.splitFrom_words]
      exact hrender

end Conforms

/-- **What goes out comes back in exactly when nothing in it is taken for markup.** -/
theorem decodeHeaderValue_encodeHeaderValue_iff {base64 : Bytes → Str} {codecs : Codecs}
    (conforms : Conforms base64 codecs) (value : Str) :
    codecs.decodeHeaderValue (asBytes (encodeHeaderValue base64 value)) = value ↔ Survives codecs value := by
  unfold encodeHeaderValue Survives
  cases hascii : strIsAscii value with
  | true =>
      rw [if_pos rfl, if_pos rfl]
      exact conforms.decodeHeaderValue_ascii fun c hc => of_decide_eq_true (List.all_eq_true.mp hascii c hc)
  | false =>
      obtain ⟨words, hdivision, hchunks⟩ := wordChunks_division value
      have hdecoded := @Conforms.decodeHeaderValue_words base64 codecs conforms words
      rw [if_neg Bool.false_ne_true, if_neg Bool.false_ne_true, hchunks, List.map_map]
      refine (Eq.congr_left hdecoded).trans ?_
      refine (Eq.congr_right hdivision.whole.symm).trans (flatten_withoutMark.trans ⟨fun h others hothers => ?_, ?_⟩)
      · rwa [← hdivision.unique hothers]
      · exact fun h => h words hdivision

/-! ## Text that looks like markup -/

/-- A decoder for UTF-8 that takes a byte order mark off. -/
def decodeUtf8 (bytes : Bytes) : Str := fromUtf8Lossy ((stripPrefix [0xEF, 0xBB, 0xBF] bytes).getD bytes)

/-- Codecs for UTF-8 alone. -/
def utf8Codecs : Codecs where
  windows1252 bytes := bytes.map asciiChar
  forLabel label := if eqIgnoreAsciiCase label "utf-8".toList then some decodeUtf8 else none
  base64Lenient input := Lib.Base64.decode (input.map asciiChar)
  base64Standard input :=
    (Lib.Base64.decode (input.map asciiChar)).filter fun bytes => Lib.Base64.encode bytes == input.map asciiChar
  parseDate _ := none

theorem isBase64_digit {v : Nat} (h : v < 64) : isBase64 (Lib.Base64.digit v) = true := by
  have hall : ∀ v : Fin 64, isBase64 (Lib.Base64.digit v) = true := by decide +kernel
  exact hall ⟨v, h⟩

theorem isBase64_encode (bytes : Bytes) : ∀ c ∈ Lib.Base64.encode bytes, isBase64 c = true := by
  intro c hc
  rcases Lib.Base64.mem_encode hc with rfl | ⟨v, hv, rfl⟩
  · decide
  · exact isBase64_digit hv

theorem fromUtf8Lossy_length (bytes : Bytes) : (fromUtf8Lossy bytes).length ≤ bytes.length := by
  unfold fromUtf8Lossy
  rw [List.length_map]
  exact utf8Chunks_length bytes

theorem decodeUtf8_length (bytes : Bytes) : (decodeUtf8 bytes).length ≤ bytes.length := by
  have hstripped : ((stripPrefix [0xEF, 0xBB, 0xBF] bytes).getD bytes).length ≤ bytes.length := by
    cases hstrip : stripPrefix [0xEF, 0xBB, 0xBF] bytes with
    | none => exact Nat.le_refl _
    | some rest =>
        rw [stripPrefix_eq_some.mp hstrip, List.length_append]
        exact Nat.le_add_left _ _
  exact Nat.le_trans (fromUtf8Lossy_length _) hstripped

theorem decodeUtf8_asBytes (s : Str) : decodeUtf8 (asBytes s) = withoutMark s := by
  have hmark : asBytes [Char.ofNat 0xFEFF] = [0xEF, 0xBB, 0xBF] := by decide
  unfold decodeUtf8
  rw [← hmark]
  cases s with
  | nil =>
      rw [hmark]
      exact fromUtf8Lossy_asBytes []
  | cons c rest =>
      have hwhole : asBytes (c :: rest) = asBytes [c] ++ asBytes rest := by
        rw [← asBytes_append, List.singleton_append]
      rw [withoutMark]
      by_cases hc : c = Char.ofNat 0xFEFF
      · subst hc
        rw [if_pos rfl, stripPrefix_eq_some.mpr hwhole, Option.getD_some, fromUtf8Lossy_asBytes]
      · have hnone : stripPrefix (asBytes [Char.ofNat 0xFEFF]) (asBytes (c :: rest)) = none := by
          by_contra hsome
          obtain ⟨tail, htail⟩ := Option.ne_none_iff_exists'.mp hsome
          have hchunks := congrArg utf8Chunks (stripPrefix_eq_some.mp htail)
          rw [utf8Chunks_asBytes, asBytes, List.flatMap_cons, List.flatMap_nil, List.append_nil, utf8Chunks_char,
            List.map_cons] at hchunks
          exact hc (Option.some.inj (List.cons_eq_cons.mp hchunks).1)
        rw [if_neg hc, hnone, Option.getD_none, fromUtf8Lossy_asBytes]

theorem utf8Codecs_conforms : Conforms Lib.Base64.encode utf8Codecs := by
  constructor
  · exact isBase64_encode
  · intro bytes
    show Lib.Base64.decode ((asBytes (Lib.Base64.encode bytes)).map asciiChar) = some bytes
    rw [map_asciiChar_asBytes fun c hc => (isBase64_ascii (isBase64_encode bytes c hc)).2]
    exact Lib.Base64.decode_encode bytes
  · intro input bytes h
    have := Lib.Base64.decode_length h
    rwa [List.length_map] at this
  · intro input bytes h
    have := Lib.Base64.decode_length (Option.filter_eq_some_iff.mp h).1
    rwa [List.length_map] at this
  · have hlabel : utf8Codecs.forLabel "UTF-8".toList = some decodeUtf8 := by
      show (if eqIgnoreAsciiCase "UTF-8".toList "utf-8".toList then some decodeUtf8 else none) = _
      rw [if_pos (by decide)]
    exact ⟨decodeUtf8, hlabel, decodeUtf8_asBytes⟩
  · intro label decode h bytes
    have hdecode : (if eqIgnoreAsciiCase label "utf-8".toList then some decodeUtf8 else none) = some decode := h
    split at hdecode
    · cases hdecode
      exact decodeUtf8_length bytes
    · cases hdecode
  · intro bytes
    show (bytes.map asciiChar).length ≤ bytes.length
    rw [List.length_map]

/-- **Text that imitates an encoded word is expanded, and a mark at the start of a word is lost.** -/
theorem imitation_expanded : Conforms Lib.Base64.encode utf8Codecs ∧
    utf8Codecs.decodeHeaderValue (asBytes (encodeHeaderValue Lib.Base64.encode "=?UTF-8?Q?x?=".toList)) = "x".toList ∧
    utf8Codecs.decodeHeaderValue
      (asBytes (encodeHeaderValue Lib.Base64.encode [Char.ofNat 0xFEFF, 'é'])) = "é".toList := by
  refine ⟨utf8Codecs_conforms, ?_, ?_⟩
  · decide +kernel
  · decide +kernel

/-- An accent comes through. -/
theorem accent_survives :
    utf8Codecs.decodeHeaderValue (asBytes (encodeHeaderValue Lib.Base64.encode "é".toList)) = "é".toList := by
  refine (decodeHeaderValue_encodeHeaderValue_iff utf8Codecs_conforms _).mpr ?_
  unfold Survives
  rw [if_neg (by decide)]
  intro words hdivision word hword hhead
  have hmem : Char.ofNat 0xFEFF ∈ "é".toList := by
    rw [← hdivision.whole]
    exact List.mem_flatten.mpr ⟨word, hword, List.mem_of_mem_head? hhead⟩
  revert hmem
  decide

/-! ## What the words look like -/

/-- A base64 encoder that pads, and its decoder. -/
structure Base64Codec (encode : Bytes → Str) (decode : Str → Option Bytes) : Prop where
  alphabet : ∀ bytes, ∀ c ∈ encode bytes, isBase64 c = true
  length : ∀ bytes, (encode bytes).length = (bytes.length + 2) / 3 * 4
  decoded : ∀ bytes, decode (encode bytes) = some bytes

/-- An encoded word as RFC 2047 has it, for the text it stands for. -/
structure LegalWord (decode : Str → Option Bytes) (word text : Str) : Prop where
  form : ∃ payload, word = "=?UTF-8?B?".toList ++ payload ++ "?=".toList ∧ decode payload = some (asBytes text)
  ne_nil : text ≠ []
  length : (asBytes word).length ≤ 75
  graphic : ∀ c ∈ word, 0x20 < c.toNat ∧ c.toNat < 0x7F

theorem isBase64_graphic {c : Char} (h : isBase64 c = true) : 0x20 < c.toNat ∧ c.toNat < 0x7F := by
  obtain ⟨hlow, hhigh⟩ := isBase64_ascii h
  have hdel : c ≠ Char.ofNat 0x7F := by
    rintro rfl
    revert h
    decide
  have hne : c.toNat ≠ 0x7F := fun heq => hdel (Char.toNat_inj.mp heq)
  omega

namespace Base64Codec

variable {base64 : Bytes → Str} {decode : Str → Option Bytes} (codec : Base64Codec base64 decode)

include codec

/-- A word with room for its text is a legal one. -/
theorem legalWord {text : Str} (hne : text ≠ []) (hshort : (asBytes text).length ≤ bytesPerWord) :
    LegalWord decode (encodedWord base64 (asBytes text)) text := by
  have hprefix : ∀ c ∈ "=?UTF-8?B?".toList, 0x20 < c.toNat ∧ c.toNat < 0x7F := forall_of_all (by decide)
  have hsuffix : ∀ c ∈ "?=".toList, 0x20 < c.toNat ∧ c.toNat < 0x7F := forall_of_all (by decide)
  have hgraphic : ∀ c ∈ encodedWord base64 (asBytes text), 0x20 < c.toNat ∧ c.toNat < 0x7F := by
    intro c hc
    rcases List.mem_append.mp hc with hc | hc
    · rcases List.mem_append.mp hc with hc | hc
      · exact hprefix c hc
      · exact isBase64_graphic (codec.alphabet _ c hc)
    · exact hsuffix c hc
  refine ⟨⟨_, rfl, codec.decoded _⟩, hne, ?_, hgraphic⟩
  -- 45 octets are 60 characters, and the markers are 12
  have hlength : (encodedWord base64 (asBytes text)).length = 10 + ((asBytes text).length + 2) / 3 * 4 + 2 := by
    unfold encodedWord
    rw [List.length_append, List.length_append, codec.length]
    rfl
  rw [asBytes_ascii fun c hc => Nat.lt_succ_of_lt (hgraphic c hc).2, List.length_map, hlength]
  unfold bytesPerWord at hshort
  omega

/-- **What is encoded is legal**: words of at most 75 octets between single spaces, each of them for some whole
characters, and together for the value. -/
theorem encodeHeaderValue_legal {value : Str} (h : strIsAscii value = false) :
    (∀ c ∈ encodeHeaderValue base64 value, 0x20 ≤ c.toNat ∧ c.toNat < 0x7F) ∧
      ∃ words texts, encodeHeaderValue base64 value = joinWith [' '] words ∧
        List.Forall₂ (LegalWord decode) words texts ∧ texts.flatMap asBytes = asBytes value := by
  obtain ⟨texts, hdivision, hchunks⟩ := wordChunks_division value
  have hwords : List.Forall₂ (LegalWord decode) (texts.map fun text => encodedWord base64 (asBytes text)) texts := by
    rw [List.forall₂_map_left_iff]
    apply List.forall₂_same.mpr
    intro text htext
    exact codec.legalWord (hdivision.ne_nil text htext) (hdivision.short text htext)
  have hjoin : encodeHeaderValue base64 value =
      joinWith [' '] (texts.map fun text => encodedWord base64 (asBytes text)) := by
    unfold encodeHeaderValue
    rw [if_neg (by simp [h]), hchunks, List.map_map]
    rfl
  refine ⟨fun c hc => ?_, _, texts, hjoin, hwords, ?_⟩
  · rw [hjoin] at hc
    rcases mem_joinWith hc with hc | ⟨word, hword, hc⟩
    · rw [List.mem_singleton.mp hc]
      decide
    · obtain ⟨text, htext, rfl⟩ := List.mem_map.mp hword
      have hlegal := codec.legalWord (hdivision.ne_nil text htext) (hdivision.short text htext)
      exact (hlegal.graphic c hc).imp_left Nat.le_of_lt
  · rw [← hdivision.whole, List.flatten_eq_flatMap]
    exact List.flatMap_assoc.symm

end Base64Codec

theorem base64_codec : Base64Codec Lib.Base64.encode Lib.Base64.decode :=
  ⟨isBase64_encode, Lib.Base64.length_encode, Lib.Base64.decode_encode⟩

theorem encodeHeaderValue_legal_accent :
    (∀ c ∈ encodeHeaderValue Lib.Base64.encode "é".toList, 0x20 ≤ c.toNat ∧ c.toNat < 0x7F) ∧
      ∃ words texts, encodeHeaderValue Lib.Base64.encode "é".toList = joinWith [' '] words ∧
        List.Forall₂ (LegalWord Lib.Base64.decode) words texts ∧ texts.flatMap asBytes = asBytes "é".toList :=
  base64_codec.encodeHeaderValue_legal (by decide)

end Nntp.Proto
