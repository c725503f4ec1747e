import Nntp.Proto.Post
import Nntp.Proto.Utf8

/-!
# Header values on their way out

`encode_header_value` of `mime.rs`: a value that is not ASCII becomes RFC 2047 encoded words. The base64
encoder belongs to another crate and is a parameter; what is used of it is that its output is written in the
base64 alphabet.
-/

namespace Nntp.Proto

/-- `str::is_ascii`. -/
def strIsAscii (s : Str) : Bool := s.all fun c => decide (c.toNat < 0x80)

/-- A character of the standard base64 alphabet, or its padding. -/
def isBase64 (c : Char) : Bool :=
  c.isAlphanum || c == '+' || c == '/' || c == '='

/-- How many octets of the value go into one encoded word. -/
def bytesPerWord : Nat := 45

/-- One more character: into the word at hand, or into a new one. -/
def wordStep (acc : List Bytes × Bytes) (c : Char) : List Bytes × Bytes :=
  let encoded := String.utf8EncodeChar c
  if acc.2.length + encoded.length > bytesPerWord then (acc.1 ++ [acc.2], encoded)
  else (acc.1, acc.2 ++ encoded)

/-- The octets of each word, split on character boundaries. -/
def wordChunks (value : Str) : List Bytes :=
  let (words, chunk) := value.foldl wordStep ([], [])
  if chunk.isEmpty then words else words ++ [chunk]

/-- Encodes a header field value as RFC 2047 encoded words, if it needs it at all. -/
def encodeHeaderValue (base64 : Bytes → Str) (value : Str) : Str :=
  if strIsAscii value then value
  else
    joinWith [' '] ((wordChunks value).map fun chunk =>
      "=?UTF-8?B?".toList ++ base64 chunk ++ "?=".toList)

/-! ## What comes out -/

theorem isAlphanum_ascii {c : Char} (h : c.isAlphanum = true) : 0x20 < c.toNat ∧ c.toNat < 0x80 := by
  have hranges : ((decide (c.val ≥ 'A'.val ∧ c.val ≤ 'Z'.val) ||
      decide (c.val ≥ 'a'.val) && decide (c.val ≤ 'z'.val)) ||
        decide (c.val ≥ '0'.val) && decide (c.val ≤ '9'.val)) = true := h
  simp only [Bool.or_eq_true, Bool.and_eq_true, decide_eq_true_eq, ge_iff_le, UInt32.le_iff_toNat_le] at hranges
  rcases hranges with (⟨hlow, hhigh⟩ | ⟨hlow, hhigh⟩) | ⟨hlow, hhigh⟩
  all_goals exact ⟨Nat.lt_of_lt_of_le (by decide) hlow, Nat.lt_of_le_of_lt hhigh (by decide)⟩

theorem isBase64_ascii {c : Char} (h : isBase64 c = true) : 0x20 < c.toNat ∧ c.toNat < 0x80 := by
  simp only [isBase64, Bool.or_eq_true, beq_iff_eq] at h
  rcases h with ((h | rfl) | rfl) | rfl
  · exact isAlphanum_ascii h
  all_goals decide

theorem mem_joinWith {separator : Str} {pieces : List Str} {c : Char}
    (h : c ∈ joinWith separator pieces) : c ∈ separator ∨ ∃ s ∈ pieces, c ∈ s := by
  induction pieces with
  | nil => cases h
  | cons s rest ih =>
      cases rest with
      | nil => exact Or.inr ⟨s, List.mem_cons_self, h⟩
      | cons next rest =>
          have h : c ∈ s ++ separator ++ joinWith separator (next :: rest) := h
          rcases List.mem_append.mp h with h | h
          · rcases List.mem_append.mp h with h | h
            · exact Or.inr ⟨s, List.mem_cons_self, h⟩
            · exact Or.inl h
          · refine (ih h).imp_right ?_
            rintro ⟨t, ht, hc⟩
            exact ⟨t, List.mem_cons_of_mem _ ht, hc⟩

/-- What begins every piece begins the whole, and what ends every piece ends it. -/
theorem joinWith_edges {separator piece : Str} {pieces : List Str} {first last : Char}
    (h : ∀ s ∈ piece :: pieces, s.head? = some first ∧ s.getLast? = some last) :
    (joinWith separator (piece :: pieces)).head? = some first ∧
      (joinWith separator (piece :: pieces)).getLast? = some last := by
  obtain ⟨hfirst, hlast⟩ := h piece List.mem_cons_self
  induction pieces generalizing piece with
  | nil => exact ⟨hfirst, hlast⟩
  | cons next rest ih =>
      obtain ⟨hfirst', hlast'⟩ := h next (by simp)
      obtain ⟨_, hrest⟩ := ih (fun s hs => h s (List.mem_cons_of_mem _ hs)) hfirst' hlast'
      have hjoin : joinWith separator (piece :: next :: rest) =
          piece ++ (separator ++ joinWith separator (next :: rest)) := by
        rw [← List.append_assoc]
        rfl
      rw [hjoin, List.head?_append, hfirst, List.getLast?_append, List.getLast?_append, hrest]
      exact ⟨rfl, rfl⟩

/-- What can stand in a header line as a value: ASCII without a line ending, and without a space or a tab at
either end. -/
structure FieldText (text : Str) : Prop where
  ascii : ∀ c ∈ text, c.toNat < 0x80
  noLf : '\n' ∉ text
  noCr : '\r' ∉ text
  head : ∀ c ∈ text.head?, c ≠ ' ' ∧ c ≠ '\t'
  last : ∀ c ∈ text.getLast?, c ≠ ' ' ∧ c ≠ '\t'

/-- One encoded word. -/
def encodedWord (base64 : Bytes → Str) (chunk : Bytes) : Str :=
  "=?UTF-8?B?".toList ++ base64 chunk ++ "?=".toList

section Words

variable {base64 : Bytes → Str} (hbase64 : ∀ bytes, ∀ c ∈ base64 bytes, isBase64 c = true)

include hbase64

theorem encodedWord_chars (chunk : Bytes) :
    ∀ c ∈ encodedWord base64 chunk, 0x20 < c.toNat ∧ c.toNat < 0x80 := by
  have hfirst : ∀ c ∈ "=?UTF-8?B?".toList, 0x20 < c.toNat ∧ c.toNat < 0x80 := forall_of_all (by decide)
  have hlast : ∀ c ∈ "?=".toList, 0x20 < c.toNat ∧ c.toNat < 0x80 := forall_of_all (by decide)
  intro c hc
  rcases List.mem_append.mp hc with hc | hc
  · rcases List.mem_append.mp hc with hc | hc
    · exact hfirst c hc
    · exact isBase64_ascii (hbase64 chunk c hc)
  · exact hlast c hc

/-- A value that is not ASCII goes out as printable ASCII. -/
theorem encodeHeaderValue_chars {value : Str} (h : strIsAscii value = false) :
    ∀ c ∈ encodeHeaderValue base64 value, 0x20 ≤ c.toNat ∧ c.toNat < 0x80 := by
  intro c hc
  unfold encodeHeaderValue at hc
  rw [if_neg (by simp [h])] at hc
  rcases mem_joinWith hc with hc | ⟨s, hs, hc⟩
  · rw [List.mem_singleton.mp hc]
    decide
  · obtain ⟨chunk, _, rfl⟩ := List.mem_map.mp hs
    exact (encodedWord_chars hbase64 chunk c hc).imp_left Nat.le_of_lt

omit hbase64 in
theorem encodedWord_edges (chunk : Bytes) : (encodedWord base64 chunk).head? = some '=' ∧
    (encodedWord base64 chunk).getLast? = some '=' := by
  unfold encodedWord
  constructor
  · simp
  · rw [List.getLast?_append_of_ne_nil _ (by simp)]
    simp

omit hbase64 in
/-- Encoded words begin and end alike. -/
theorem encodeHeaderValue_edges {value : Str} (h : strIsAscii value = false) :
    ∀ c, c ∈ (encodeHeaderValue base64 value).head? ∨ c ∈ (encodeHeaderValue base64 value).getLast? →
      c = '=' := by
  have hshape : encodeHeaderValue base64 value =
      joinWith [' '] ((wordChunks value).map (encodedWord base64)) := by
    unfold encodeHeaderValue encodedWord
    rw [if_neg (by simp [h])]
  have hwords : ∀ s ∈ (wordChunks value).map (encodedWord base64),
      s.head? = some '=' ∧ s.getLast? = some '=' := by
    intro s hs
    obtain ⟨chunk, _, rfl⟩ := List.mem_map.mp hs
    exact encodedWord_edges chunk
  rw [hshape]
  generalize (wordChunks value).map (encodedWord base64) = words at hwords ⊢
  intro c hc
  cases words with
  | nil => simp [joinWith] at hc
  | cons word words =>
      obtain ⟨hfirst, hlast⟩ := @joinWith_edges [' '] word words '=' '=' hwords
      rw [hfirst, hlast, or_self] at hc
      exact (Option.mem_some_iff.mp hc).symm

/-- **An encoded value can stand in a header line**, if the value is one trimmed line. -/
theorem encodeHeaderValue_fieldText {value : Str} (hlf : '\n' ∉ value)
    (hcr : '\r' ∉ value) (htrim : trim value = value) :
    FieldText (encodeHeaderValue base64 value) := by
  cases hascii : strIsAscii value with
  | true =>
      have hsame : encodeHeaderValue base64 value = value := if_pos hascii
      have hblank : ∀ c : Char, isWhitespace c = false → c ≠ ' ' ∧ c ≠ '\t' := by
        intro c hc
        constructor <;> rintro rfl <;> cases hc
      rw [hsame]
      refine ⟨fun c hc => ?_, hlf, hcr, fun c hc => ?_, fun c hc => ?_⟩
      · exact of_decide_eq_true (List.all_eq_true.mp hascii c hc)
      · exact hblank c (head?_trim (htrim.symm ▸ hc)).2
      · exact hblank c (getLast?_trim (htrim.symm ▸ hc))
  | false =>
      have hchars := encodeHeaderValue_chars hbase64 hascii
      have hedges := @encodeHeaderValue_edges base64 value hascii
      refine ⟨fun c hc => (hchars c hc).2, fun hc => ?_, fun hc => ?_, fun c hc => ?_, fun c hc => ?_⟩
      · exact absurd (hchars _ hc).1 (by decide)
      · exact absurd (hchars _ hc).1 (by decide)
      · rw [hedges c (Or.inl hc)]
        decide
      · rw [hedges c (Or.inr hc)]
        decide

end Words

end Nntp.Proto
