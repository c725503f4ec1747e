import Nntp.Proto.Text

/-!
# Octets as text

`core::str::from_utf8` and `String::from_utf8_lossy`: well-formed UTF-8 read character by character,
and an ill-formed stretch read as one replacement character for each maximal part that could have
begun a character.

`decode_8bit_lossy` of `mime.rs` is here too. What it falls back to belongs to another crate and is
kept, with the other decoders this model does not look into, in a `Decoders`.
-/

namespace Nntp.Proto

def isContinuation (b : UInt8) : Bool := 0x80 ≤ b && b ≤ 0xBF

/-- The continuation octets still to come, each with the range it must lie in, by the first octet. -/
def continuations (b : UInt8) : Option (List (UInt8 × UInt8)) :=
  if 0xC2 ≤ b ∧ b ≤ 0xDF then some [(0x80, 0xBF)]
  else if b = 0xE0 then some [(0xA0, 0xBF), (0x80, 0xBF)]
  else if b = 0xED then some [(0x80, 0x9F), (0x80, 0xBF)]
  else if 0xE1 ≤ b ∧ b ≤ 0xEF then some [(0x80, 0xBF), (0x80, 0xBF)]
  else if b = 0xF0 then some [(0x90, 0xBF), (0x80, 0xBF), (0x80, 0xBF)]
  else if b = 0xF4 then some [(0x80, 0x8F), (0x80, 0xBF), (0x80, 0xBF)]
  else if 0xF1 ≤ b ∧ b ≤ 0xF3 then some [(0x80, 0xBF), (0x80, 0xBF), (0x80, 0xBF)]
  else none

/-- The bits the first octet of a sequence contributes. -/
def leadBits (b : UInt8) : Nat :=
  if b < 0xE0 then b.toNat - 0xC0 else if b < 0xF0 then b.toNat - 0xE0 else b.toNat - 0xF0

/-- Reads continuation octets: the character they complete, or none where one is not what it must
be, and what is left after the octets that were. -/
def readContinuations : List (UInt8 × UInt8) → Nat → Bytes → Option Char × Bytes
  | [], bits, rest => (some (Char.ofNat bits), rest)
  | _ :: _, _, [] => (none, [])
  | (low, high) :: ranges, bits, b :: rest =>
      if low ≤ b ∧ b ≤ high then readContinuations ranges (bits * 64 + (b.toNat - 0x80)) rest
      else (none, b :: rest)

/-- One character, or one ill-formed part, and the octets after it. -/
def readChar (b : UInt8) (rest : Bytes) : Option Char × Bytes :=
  if b < 0x80 then (some (Char.ofNat b.toNat), rest)
  else
    match continuations b with
    | none => (none, rest)
    | some ranges => readContinuations ranges (leadBits b) rest

theorem readContinuations_length (ranges : List (UInt8 × UInt8)) (bits : Nat) (rest : Bytes) :
    (readContinuations ranges bits rest).2.length ≤ rest.length := by
  induction ranges generalizing bits rest with
  | nil => exact Nat.le_refl _
  | cons range ranges ih =>
      cases rest with
      | nil => exact Nat.le_refl _
      | cons b rest =>
          unfold readContinuations
          split
          · exact (ih _ rest).trans (Nat.le_succ _)
          · exact Nat.le_refl _

theorem readChar_length (b : UInt8) (rest : Bytes) :
    (readChar b rest).2.length ≤ rest.length := by
  unfold readChar
  split
  · exact Nat.le_refl _
  · split
    · exact Nat.le_refl _
    · exact readContinuations_length _ _ _

/-- The characters and the ill-formed parts of a byte slice, in order. -/
def utf8Chunks : Bytes → List (Option Char)
  | [] => []
  | b :: rest => (readChar b rest).1 :: utf8Chunks (readChar b rest).2
termination_by bytes => bytes.length
decreasing_by exact Nat.lt_succ_of_le (readChar_length b rest)

/-- `core::str::from_utf8(..).ok()`. -/
def fromUtf8 (bytes : Bytes) : Option Str := (utf8Chunks bytes).mapM id

/-- `String::from_utf8_lossy`. -/
def fromUtf8Lossy (bytes : Bytes) : Str :=
  (utf8Chunks bytes).map fun c => c.getD (Char.ofNat 0xFFFD)

/-- A `DateTime<FixedOffset>`. -/
structure DateTime where
  unixSeconds : Int
  offsetMinutes : Int
  deriving DecidableEq, Repr

/-- The decoders the model does not look into. -/
structure Decoders where
  /-- `encoding_rs::WINDOWS_1252.decode`. -/
  windows1252 : Bytes → Str
  /-- `decode_header_value`: text with RFC 2047 encoded words decoded. -/
  decodeHeaderValue : Bytes → Str
  /-- `parse_date(..).ok()`. -/
  parseDate : Str → Option DateTime

/-- Decodes bytes of unknown encoding: UTF-8 if valid, otherwise Windows-1252. -/
def decode8bitLossy (decoders : Decoders) (bytes : Bytes) : Str :=
  (fromUtf8 bytes).getD (decoders.windows1252 bytes)

/-! ## Plain ASCII stands for itself -/

/-- The character an ASCII octet stands for. -/
def asciiChar (b : UInt8) : Char := Char.ofNat b.toNat

def IsAscii (bytes : Bytes) : Prop := ∀ b ∈ bytes, b < 0x80

theorem utf8Chunks_ascii_append {bytes : Bytes} (h : IsAscii bytes) (rest : Bytes) :
    utf8Chunks (bytes ++ rest) = bytes.map (fun b => some (asciiChar b)) ++ utf8Chunks rest := by
  induction bytes with
  | nil => rfl
  | cons b bytes ih =>
      have hb : b < 0x80 := h b (by simp)
      rw [List.cons_append, utf8Chunks]
      simp only [readChar, hb, ↓reduceIte, List.map_cons, List.cons_append,
        ih fun x hx => h x (by simp [hx])]
      rfl

theorem utf8Chunks_ascii {bytes : Bytes} (h : IsAscii bytes) :
    utf8Chunks bytes = bytes.map fun b => some (asciiChar b) := by
  have := utf8Chunks_ascii_append h []
  rwa [List.append_nil, utf8Chunks, List.append_nil] at this

theorem fromUtf8_ascii {bytes : Bytes} (h : IsAscii bytes) :
    fromUtf8 bytes = some (bytes.map asciiChar) := by
  rw [fromUtf8, utf8Chunks_ascii h]
  clear h
  induction bytes with
  | nil => rfl
  | cons b bytes ih => simp_all [List.mapM_cons]

theorem fromUtf8Lossy_ascii {bytes : Bytes} (h : IsAscii bytes) :
    fromUtf8Lossy bytes = bytes.map asciiChar := by
  simp [fromUtf8Lossy, utf8Chunks_ascii h]

/-- A character below `0x80` is one octet. -/
theorem asBytes_ascii {s : Str} (h : ∀ c ∈ s, c.toNat < 0x80) :
    asBytes s = s.map fun c => UInt8.ofNat c.toNat := by
  induction s with
  | nil => rfl
  | cons c cs ih =>
      have hc : c.toNat < 0x80 := h c (by simp)
      have hval : c.toNat ≤ 127 := Nat.le_of_lt_succ hc
      rw [asBytes, List.flatMap_cons]
      show String.utf8EncodeChar c ++ asBytes cs = _
      rw [ih fun x hx => h x (by simp [hx])]
      simp [String.utf8EncodeChar, hval]

/-- An octet below `0x80` is a character of its own. -/
theorem utf8EncodeChar_ascii {c : Char} {b : UInt8} (h : b ∈ String.utf8EncodeChar c)
    (hb : b.toNat < 0x80) : c.toNat = b.toNat := by
  have hval : c.val.toNat = c.toNat := rfl
  unfold String.utf8EncodeChar at h
  simp only [hval] at h
  split_ifs at h with h1 h2 h3
  · rw [List.mem_singleton.mp h, UInt8.toNat_ofNat']
    omega
  all_goals
    simp only [List.mem_cons, List.not_mem_nil, or_false] at h
    rcases h with rfl | rfl | h
    all_goals try rcases h with rfl | rfl
    all_goals
      rw [UInt8.toNat_ofNat'] at hb
      omega

/-- An ASCII character is in a text exactly if its octet is in what is written. -/
theorem mem_asBytes_ascii {s : Str} {c : Char} {b : UInt8} (hval : b.toNat = c.toNat) (hc : c.toNat < 0x80) :
    b ∈ asBytes s ↔ c ∈ s := by
  refine ⟨fun h => ?_, fun h => List.mem_flatMap.mpr ⟨c, h, ?_⟩⟩
  · obtain ⟨d, hd, hb⟩ := List.mem_flatMap.mp h
    have hsame : d.toNat = c.toNat := (utf8EncodeChar_ascii hb (hval ▸ hc)).trans hval
    exact Char.toNat_inj.mp hsame ▸ hd
  · have hle : c.toNat ≤ 0x7F := Nat.le_of_lt_succ hc
    have hone : String.utf8EncodeChar c = [UInt8.ofNat c.toNat] := if_pos hle
    rw [hone, ← hval, UInt8.ofNat_toNat]
    exact List.mem_cons_self

theorem isAscii_asBytes {s : Str} (h : ∀ c ∈ s, c.toNat < 0x80) : IsAscii (asBytes s) := by
  rw [asBytes_ascii h]
  intro b hb
  obtain ⟨c, hc, rfl⟩ := List.mem_map.mp hb
  have := h c hc
  rw [UInt8.lt_iff_toNat_lt, UInt8.toNat_ofNat']
  show c.toNat % 256 < 128
  omega

/-- ASCII text survives being written and read. -/
theorem map_asciiChar_asBytes {s : Str} (h : ∀ c ∈ s, c.toNat < 0x80) :
    (asBytes s).map asciiChar = s := by
  rw [asBytes_ascii h, List.map_map]
  conv => rhs; rw [← List.map_id s]
  refine List.map_congr_left fun c hc => ?_
  have hlt := h c hc
  have : (UInt8.ofNat c.toNat).toNat = c.toNat := by
    rw [UInt8.toNat_ofNat']
    omega
  show Char.ofNat (UInt8.ofNat c.toNat).toNat = c
  rw [this, Char.ofNat_toNat]

/-! ## ASCII characters of a text -/

/-- Continuation octets add to the bits. -/
theorem readContinuations_ge {ranges : List (UInt8 × UInt8)} {bits : Nat} {bytes rest : Bytes} {c : Char}
    (h : readContinuations ranges bits bytes = (some c, rest)) :
    ∃ n, c = Char.ofNat n ∧ bits * 64 ^ ranges.length ≤ n := by
  induction ranges generalizing bits bytes with
  | nil =>
      cases h
      exact ⟨bits, rfl, by simp⟩
  | cons range ranges ih =>
      cases bytes with
      | nil => cases h
      | cons b bytes =>
          unfold readContinuations at h
          split at h
          · obtain ⟨n, hc, hn⟩ := ih h
            refine ⟨n, hc, le_trans ?_ hn⟩
            rw [List.length_cons, Nat.pow_succ', ← Nat.mul_assoc]
            exact Nat.mul_le_mul_right _ (Nat.le_add_right _ _)
          · cases h

/-- The least that a first octet and the continuation behind it can come to is more than seven bits. -/
theorem continuations_ge (b : UInt8) :
    (continuations b).all (fun ranges => ranges.head?.any fun range =>
      decide (0x80 ≤ (leadBits b * 64 + (range.1.toNat - 0x80)) * 64 ^ ranges.tail.length)) = true := by
  have hall : ∀ n : Fin 256, (continuations (UInt8.ofFin n)).all (fun ranges => ranges.head?.any fun range =>
      decide (0x80 ≤ (leadBits (UInt8.ofFin n) * 64 + (range.1.toNat - 0x80)) * 64 ^ ranges.tail.length)) =
        true := by
    decide +kernel
  exact hall b.toFin

/-- A sequence of several octets is no ASCII character. -/
theorem readContinuations_lead {b : UInt8} {ranges : List (UInt8 × UInt8)} {bytes rest : Bytes} {c : Char}
    (hlead : continuations b = some ranges)
    (h : readContinuations ranges (leadBits b) bytes = (some c, rest)) :
    ∃ n, c = Char.ofNat n ∧ 0x80 ≤ n := by
  have hge := continuations_ge b
  rw [hlead, Option.all_some] at hge
  cases ranges with
  | nil => cases hge
  | cons range ranges =>
      cases bytes with
      | nil => cases h
      | cons first bytes =>
          unfold readContinuations at h
          split at h
          · next hfirst =>
              obtain ⟨n, hc, hn⟩ := readContinuations_ge h
              refine ⟨n, hc, le_trans (of_decide_eq_true hge) (le_trans ?_ hn)⟩
              have : range.1.toNat ≤ first.toNat := hfirst.1
              exact Nat.mul_le_mul_right _ (by simp; omega)
          · cases h

theorem readContinuations_suffix (ranges : List (UInt8 × UInt8)) (bits : Nat) (bytes : Bytes) :
    (readContinuations ranges bits bytes).2 <:+ bytes := by
  induction ranges generalizing bits bytes with
  | nil => exact List.suffix_rfl
  | cons range ranges ih =>
      cases bytes with
      | nil => exact List.suffix_rfl
      | cons b bytes =>
          unfold readContinuations
          split
          · exact (ih _ bytes).trans (List.suffix_cons b bytes)
          · exact List.suffix_rfl

/-- An ASCII character is read from its own octet only. -/
theorem readChar_ascii {b : UInt8} {bytes rest : Bytes} {c : Char} (hc : c.toNat < 0x80) (hzero : c.toNat ≠ 0)
    (h : readChar b bytes = (some c, rest)) : b.toNat = c.toNat := by
  have hof : ∀ n, c = Char.ofNat n → n = c.toNat := by
    intro n hn
    by_cases hvalid : n.isValidChar
    · have hchar : Char.ofNat n = Char.ofNatAux n hvalid := dif_pos hvalid
      rw [hn, hchar]
      rfl
    · have hchar : Char.ofNat n = { val := 0, valid := Or.inl (by decide) } := dif_neg hvalid
      rw [hn, hchar] at hzero
      exact absurd rfl hzero
  unfold readChar at h
  split at h
  · cases h
    exact hof _ rfl
  · split at h
    · cases h
    · next ranges hlead =>
        obtain ⟨n, hn, hge⟩ := readContinuations_lead hlead h
        have := hof n hn
        omega

theorem readChar_suffix (b : UInt8) (bytes : Bytes) : (readChar b bytes).2 <:+ bytes := by
  unfold readChar
  split
  · exact List.suffix_rfl
  · split
    · exact List.suffix_rfl
    · exact readContinuations_suffix _ _ _

/-- **An ASCII character of a text that was read from octets is one of the octets.** -/
theorem mem_of_mem_fromUtf8Lossy {bytes : Bytes} {c : Char} (hc : c.toNat < 0x80) (hzero : c.toNat ≠ 0)
    (h : c ∈ fromUtf8Lossy bytes) : UInt8.ofNat c.toNat ∈ bytes := by
  unfold fromUtf8Lossy at h
  induction bytes using utf8Chunks.induct with
  | case1 =>
      rw [utf8Chunks] at h
      cases h
  | case2 b rest ih =>
      rw [utf8Chunks, List.map_cons] at h
      rcases List.mem_cons.mp h with hfirst | hlater
      · rcases hread : readChar b rest with ⟨_ | c', rest'⟩
        · rw [hread] at hfirst
          have hreplaced : c = Char.ofNat 0xFFFD := hfirst
          exact absurd hc (hreplaced ▸ by decide)
        · rw [hread] at hfirst
          have hchar : c = c' := hfirst
          subst hchar
          rw [← readChar_ascii hc hzero hread, UInt8.ofNat_toNat]
          exact List.mem_cons_self
      · exact List.mem_cons_of_mem _ ((readChar_suffix b rest).subset (ih hlater))

/-! ## Text that was written -/

section Encoded

variable {n : Nat} (rest : Bytes)

theorem toNat_octet {x : Nat} (h : x < 256) : (UInt8.ofNat x).toNat = x := by
  rw [UInt8.toNat_ofNat']
  omega

/-- A continuation octet that is in its range. -/
theorem readContinuations_octet {low high : UInt8} {x : Nat} (hlow : low.toNat ≤ x) (hhigh : x ≤ high.toNat)
    (hx : 0x80 ≤ x) (ranges : List (UInt8 × UInt8)) (bits : Nat) :
    readContinuations ((low, high) :: ranges) bits (UInt8.ofNat x :: rest) =
      readContinuations ranges (bits * 64 + (x - 0x80)) rest := by
  have hval : (UInt8.ofNat x).toNat = x := toNat_octet (Nat.lt_of_le_of_lt hhigh high.toNat_lt)
  rw [readContinuations, if_pos, hval]
  rw [UInt8.le_iff_toNat_le, UInt8.le_iff_toNat_le, hval]
  exact ⟨hlow, hhigh⟩

/-- The first octet of two, three or four. -/
theorem continuations_octet {x : Nat} (h : x < 256) : continuations (UInt8.ofNat x) =
    if 0xC2 ≤ x ∧ x ≤ 0xDF then some [(0x80, 0xBF)]
    else if x = 0xE0 then some [(0xA0, 0xBF), (0x80, 0xBF)]
    else if x = 0xED then some [(0x80, 0x9F), (0x80, 0xBF)]
    else if 0xE1 ≤ x ∧ x ≤ 0xEF then some [(0x80, 0xBF), (0x80, 0xBF)]
    else if x = 0xF0 then some [(0x90, 0xBF), (0x80, 0xBF), (0x80, 0xBF)]
    else if x = 0xF4 then some [(0x80, 0x8F), (0x80, 0xBF), (0x80, 0xBF)]
    else if 0xF1 ≤ x ∧ x ≤ 0xF3 then some [(0x80, 0xBF), (0x80, 0xBF), (0x80, 0xBF)]
    else none := by
  have heq : ∀ y : UInt8, (UInt8.ofNat x = y) = (x = y.toNat) := by
    intro y
    rw [← UInt8.toNat_inj, toNat_octet h]
  unfold continuations
  simp only [UInt8.le_iff_toNat_le, toNat_octet h, heq]
  rfl

theorem leadBits_octet {x : Nat} (h : x < 256) : leadBits (UInt8.ofNat x) =
    if x < 0xE0 then x - 0xC0 else if x < 0xF0 then x - 0xE0 else x - 0xF0 := by
  unfold leadBits
  simp only [UInt8.lt_iff_toNat_lt, toNat_octet h]
  rfl

theorem readChar_octet {x : Nat} (hlow : 0x80 ≤ x) (h : x < 256) {ranges : List (UInt8 × UInt8)}
    (hranges : continuations (UInt8.ofNat x) = some ranges) (rest : Bytes) :
    readChar (UInt8.ofNat x) rest = readContinuations ranges (leadBits (UInt8.ofNat x)) rest := by
  unfold readChar
  rw [if_neg, hranges]
  rw [UInt8.lt_iff_toNat_lt, toNat_octet h]
  exact Nat.not_lt.mpr hlow

theorem readChar_two (hlow : 0x80 ≤ n) (hhigh : n ≤ 0x7FF) :
    readChar (UInt8.ofNat (n / 64 % 32 + 0xC0)) (UInt8.ofNat (n % 64 + 0x80) :: rest) =
      (some (Char.ofNat n), rest) := by
  have hranges : continuations (UInt8.ofNat (n / 64 % 32 + 0xC0)) = some [(0x80, 0xBF)] := by
    rw [continuations_octet (by omega), if_pos (by omega)]
  have hlast : n % 64 + 0x80 ≤ (0xBF : UInt8).toNat := by
    show _ ≤ 191
    omega
  have hbits : (n / 64 % 32 + 0xC0 - 0xC0) * 64 + (n % 64 + 0x80 - 0x80) = n := by omega
  rw [readChar_octet (by omega) (by omega) hranges, leadBits_octet (by omega), if_pos (by omega),
    readContinuations_octet rest (Nat.le_add_left 0x80 _) hlast (Nat.le_add_left 0x80 _), hbits]
  rfl

theorem readChar_three (hlow : 0x800 ≤ n) (hhigh : n ≤ 0xFFFF) (hvalid : n < 0xD800 ∨ 0xDFFF < n) :
    readChar (UInt8.ofNat (n / 4096 % 16 + 0xE0))
        (UInt8.ofNat (n / 64 % 64 + 0x80) :: UInt8.ofNat (n % 64 + 0x80) :: rest) =
      (some (Char.ofNat n), rest) := by
  have hlast : n % 64 + 0x80 ≤ (0xBF : UInt8).toNat := by
    show _ ≤ 191
    omega
  have hbits : ((n / 4096 % 16 + 0xE0 - 0xE0) * 64 + (n / 64 % 64 + 0x80 - 0x80)) * 64 +
      (n % 64 + 0x80 - 0x80) = n := by omega
  have hlead : leadBits (UInt8.ofNat (n / 4096 % 16 + 0xE0)) = n / 4096 % 16 + 0xE0 - 0xE0 := by
    rw [leadBits_octet (by omega), if_neg (by omega), if_pos (by omega)]
  -- the second octet has a range of its own behind the smallest first octet, and before the surrogates
  obtain ⟨low, high, hranges, hfirst, hsecond⟩ : ∃ low high : UInt8,
      continuations (UInt8.ofNat (n / 4096 % 16 + 0xE0)) = some [(low, high), (0x80, 0xBF)] ∧
        low.toNat ≤ n / 64 % 64 + 0x80 ∧ n / 64 % 64 + 0x80 ≤ high.toNat := by
    rw [continuations_octet (by omega), if_neg (by omega)]
    split
    · refine ⟨0xA0, 0xBF, rfl, ?_, ?_⟩
      · show 160 ≤ _
        omega
      · show _ ≤ 191
        omega
    · split
      · refine ⟨0x80, 0x9F, rfl, Nat.le_add_left 0x80 _, ?_⟩
        show _ ≤ 159
        omega
      · rw [if_pos (by omega)]
        refine ⟨0x80, 0xBF, rfl, Nat.le_add_left 0x80 _, ?_⟩
        show _ ≤ 191
        omega
  rw [readChar_octet (by omega) (by omega) hranges, hlead,
    readContinuations_octet _ hfirst hsecond (Nat.le_add_left 0x80 _),
    readContinuations_octet rest (Nat.le_add_left 0x80 _) hlast (Nat.le_add_left 0x80 _), hbits]
  rfl

theorem readChar_four (hlow : 0x10000 ≤ n) (hhigh : n < 0x110000) :
    readChar (UInt8.ofNat (n / 262144 % 8 + 0xF0))
        (UInt8.ofNat (n / 4096 % 64 + 0x80) :: UInt8.ofNat (n / 64 % 64 + 0x80) ::
          UInt8.ofNat (n % 64 + 0x80) :: rest) =
      (some (Char.ofNat n), rest) := by
  have hlast : n % 64 + 0x80 ≤ (0xBF : UInt8).toNat := by
    show _ ≤ 191
    omega
  have hthird : n / 64 % 64 + 0x80 ≤ (0xBF : UInt8).toNat := by
    show _ ≤ 191
    omega
  have hbits : (((n / 262144 % 8 + 0xF0 - 0xF0) * 64 + (n / 4096 % 64 + 0x80 - 0x80)) * 64 +
      (n / 64 % 64 + 0x80 - 0x80)) * 64 + (n % 64 + 0x80 - 0x80) = n := by omega
  have hlead : leadBits (UInt8.ofNat (n / 262144 % 8 + 0xF0)) = n / 262144 % 8 + 0xF0 - 0xF0 := by
    rw [leadBits_octet (by omega), if_neg (by omega), if_neg (by omega)]
  obtain ⟨low, high, hranges, hfirst, hsecond⟩ : ∃ low high : UInt8,
      continuations (UInt8.ofNat (n / 262144 % 8 + 0xF0)) =
          some [(low, high), (0x80, 0xBF), (0x80, 0xBF)] ∧
        low.toNat ≤ n / 4096 % 64 + 0x80 ∧ n / 4096 % 64 + 0x80 ≤ high.toNat := by
    rw [continuations_octet (by omega), if_neg (by omega), if_neg (by omega), if_neg (by omega),
      if_neg (by omega)]
    split
    · refine ⟨0x90, 0xBF, rfl, ?_, ?_⟩
      · show 144 ≤ _
        omega
      · show _ ≤ 191
        omega
    · split
      · refine ⟨0x80, 0x8F, rfl, Nat.le_add_left 0x80 _, ?_⟩
        show _ ≤ 143
        omega
      · rw [if_pos (by omega)]
        refine ⟨0x80, 0xBF, rfl, Nat.le_add_left 0x80 _, ?_⟩
        show _ ≤ 191
        omega
  rw [readChar_octet (by omega) (by omega) hranges, hlead,
    readContinuations_octet _ hfirst hsecond (Nat.le_add_left 0x80 _),
    readContinuations_octet _ (Nat.le_add_left 0x80 _) hthird (Nat.le_add_left 0x80 _),
    readContinuations_octet rest (Nat.le_add_left 0x80 _) hlast (Nat.le_add_left 0x80 _), hbits]
  rfl

end Encoded

theorem utf8Chunks_char (c : Char) (rest : Bytes) :
    utf8Chunks (String.utf8EncodeChar c ++ rest) = some c :: utf8Chunks rest := by
  have hvalid : c.toNat < 0xD800 ∨ (0xDFFF < c.toNat ∧ c.toNat < 0x110000) := c.valid
  have hself : some (Char.ofNat c.toNat) = some c := congrArg some (Char.ofNat_toNat c)
  have hread : ∃ b bytes, String.utf8EncodeChar c = b :: bytes ∧
      readChar b (bytes ++ rest) = (some c, rest) := by
    rw [← hself]
    by_cases hone : c.toNat ≤ 0x7F
    · refine ⟨_, [], if_pos hone, ?_⟩
      have hval : (UInt8.ofNat c.toNat).toNat = c.toNat := toNat_octet (by omega)
      have hlt : UInt8.ofNat c.toNat < 0x80 := by
        rw [UInt8.lt_iff_toNat_lt, hval]
        exact Nat.lt_succ_of_le hone
      show readChar (UInt8.ofNat c.toNat) rest = _
      rw [readChar, if_pos hlt, hval]
    · by_cases htwo : c.toNat ≤ 0x7FF
      · have hlow : 0x80 ≤ c.toNat := Nat.lt_of_not_le hone
        exact ⟨_, _, (if_neg hone).trans (if_pos htwo), readChar_two (n := c.toNat) rest hlow htwo⟩
      · by_cases hthree : c.toNat ≤ 0xFFFF
        · have hlow : 0x800 ≤ c.toNat := Nat.lt_of_not_le htwo
          have hsurrogate : c.toNat < 0xD800 ∨ 0xDFFF < c.toNat := hvalid.imp_right And.left
          exact ⟨_, _, (if_neg hone).trans ((if_neg htwo).trans (if_pos hthree)),
            readChar_three (n := c.toNat) rest hlow hthree hsurrogate⟩
        · have hlow : 0x10000 ≤ c.toNat := Nat.lt_of_not_le hthree
          have hhigh : c.toNat < 0x110000 := by omega
          exact ⟨_, _, (if_neg hone).trans ((if_neg htwo).trans (if_neg hthree)),
            readChar_four (n := c.toNat) rest hlow hhigh⟩
  obtain ⟨b, bytes, hbytes, hread⟩ := hread
  rw [hbytes, List.cons_append, utf8Chunks, hread]

theorem utf8Chunks_asBytes (s : Str) : utf8Chunks (asBytes s) = s.map some := by
  induction s with
  | nil => rw [asBytes, List.flatMap_nil, utf8Chunks, List.map_nil]
  | cons c cs ih =>
      rw [asBytes, List.flatMap_cons, utf8Chunks_char]
      exact congrArg (some c :: ·) ih

theorem fromUtf8Lossy_asBytes (s : Str) : fromUtf8Lossy (asBytes s) = s := by
  unfold fromUtf8Lossy
  rw [utf8Chunks_asBytes, List.map_map]
  exact List.map_id s

/-- **Text survives being written and read.** -/
theorem fromUtf8_asBytes (s : Str) : fromUtf8 (asBytes s) = some s := by
  unfold fromUtf8
  rw [utf8Chunks_asBytes]
  induction s with
  | nil => rfl
  | cons c cs ih =>
      rw [List.map_cons, List.mapM_cons, ih]
      rfl

theorem decode8bitLossy_asBytes (decoders : Decoders) (s : Str) : decode8bitLossy decoders (asBytes s) = s := by
  unfold decode8bitLossy
  rw [fromUtf8_asBytes]
  rfl

theorem asBytes_inj {s t : Str} : asBytes s = asBytes t ↔ s = t := by
  refine ⟨fun h => Option.some.inj ?_, congrArg asBytes⟩
  rw [← fromUtf8_asBytes s, h, fromUtf8_asBytes]

/-! ## Octets that are text -/

section Read

variable {b : UInt8} {c : Char} {rest tail : Bytes}

theorem toNat_ofNat_valid {n : Nat} (h : n < 0xD800 ∨ (0xDFFF < n ∧ n < 0x110000)) : (Char.ofNat n).toNat = n := by
  have hchar : Char.ofNat n = Char.ofNatAux n h := dif_pos h
  rw [hchar]
  rfl

/-- The octets that complete a character, each in its range. -/
theorem readContinuations_some {ranges : List (UInt8 × UInt8)} {bits : Nat} {bytes : Bytes}
    (h : readContinuations ranges bits bytes = (some c, tail)) :
    ∃ octets, bytes = octets ++ tail ∧
      List.Forall₂ (fun octet range => range.1.toNat ≤ octet.toNat ∧ octet.toNat ≤ range.2.toNat) octets ranges ∧
      c = Char.ofNat (octets.foldl (fun n octet => n * 64 + (octet.toNat - 0x80)) bits) := by
  induction ranges generalizing bits bytes with
  | nil =>
      cases h
      exact ⟨[], rfl, .nil, rfl⟩
  | cons range ranges ih =>
      cases bytes with
      | nil => cases h
      | cons octet bytes =>
          rw [readContinuations] at h
          by_cases hrange : range.1 ≤ octet ∧ octet ≤ range.2
          · rw [if_pos hrange] at h
            obtain ⟨octets, rfl, hranges, hc⟩ := ih h
            have hbounds := And.imp UInt8.le_iff_toNat_le.mp UInt8.le_iff_toNat_le.mp hrange
            exact ⟨octet :: octets, rfl, .cons hbounds hranges, by rw [hc, List.foldl_cons]⟩
          · rw [if_neg hrange] at h
            cases h

/-- The ranges behind a first octet: one, two, or three, of which the first excludes what has a shorter form, what
is a surrogate and what is no character. -/
theorem continuations_cases {ranges : List (UInt8 × UInt8)} (h : continuations b = some ranges) :
    (0xC2 ≤ b.toNat ∧ b.toNat ≤ 0xDF ∧ ranges = [(0x80, 0xBF)]) ∨
      (∃ low high, ranges = [(low, high), (0x80, 0xBF)] ∧ 0xE0 ≤ b.toNat ∧ b.toNat ≤ 0xEF ∧
        0x80 ≤ low.toNat ∧ high.toNat ≤ 0xBF ∧ (b.toNat = 0xE0 → 0xA0 ≤ low.toNat) ∧
        (b.toNat = 0xED → high.toNat ≤ 0x9F)) ∨
      ∃ low high, ranges = [(low, high), (0x80, 0xBF), (0x80, 0xBF)] ∧ 0xF0 ≤ b.toNat ∧ b.toNat ≤ 0xF4 ∧
        0x80 ≤ low.toNat ∧ high.toNat ≤ 0xBF ∧ (b.toNat = 0xF0 → 0x90 ≤ low.toNat) ∧
        (b.toNat = 0xF4 → high.toNat ≤ 0x8F) := by
  have hlt := b.toNat_lt
  rw [← UInt8.ofNat_toNat (x := b), continuations_octet hlt] at h
  generalize b.toNat = x at h ⊢
  split_ifs at h with h1 h2 h3 h4 h5 h6 h7
  · cases h
    exact Or.inl ⟨h1.1, h1.2, rfl⟩
  · cases h
    refine Or.inr (Or.inl ⟨_, _, rfl, ?_⟩)
    simp
    omega
  · cases h
    refine Or.inr (Or.inl ⟨_, _, rfl, ?_⟩)
    simp
    omega
  · cases h
    refine Or.inr (Or.inl ⟨_, _, rfl, ?_⟩)
    simp
    omega
  · cases h
    refine Or.inr (Or.inr ⟨_, _, rfl, ?_⟩)
    simp
    omega
  · cases h
    refine Or.inr (Or.inr ⟨_, _, rfl, ?_⟩)
    simp
    omega
  · cases h
    refine Or.inr (Or.inr ⟨_, _, rfl, ?_⟩)
    simp
    omega

theorem encode_two {n : Nat} (hlow : 0x80 ≤ n) (hhigh : n ≤ 0x7FF) : String.utf8EncodeChar (Char.ofNat n) =
    [UInt8.ofNat (n / 64 % 32 + 0xC0), UInt8.ofNat (n % 64 + 0x80)] := by
  have hval : (Char.ofNat n).val.toNat = n := toNat_ofNat_valid (by omega)
  unfold String.utf8EncodeChar
  simp only [hval]
  rw [if_neg (by omega), if_pos (by omega)]

theorem encode_three {n : Nat} (hlow : 0x800 ≤ n) (hhigh : n ≤ 0xFFFF) (hvalid : n < 0xD800 ∨ 0xDFFF < n) :
    String.utf8EncodeChar (Char.ofNat n) =
      [UInt8.ofNat (n / 4096 % 16 + 0xE0), UInt8.ofNat (n / 64 % 64 + 0x80), UInt8.ofNat (n % 64 + 0x80)] := by
  have hval : (Char.ofNat n).val.toNat = n := toNat_ofNat_valid (by omega)
  unfold String.utf8EncodeChar
  simp only [hval]
  rw [if_neg (by omega), if_neg (by omega), if_pos (by omega)]

theorem encode_four {n : Nat} (hlow : 0x10000 ≤ n) (hhigh : n < 0x110000) : String.utf8EncodeChar (Char.ofNat n) =
    [UInt8.ofNat (n / 262144 % 8 + 0xF0), UInt8.ofNat (n / 4096 % 64 + 0x80), UInt8.ofNat (n / 64 % 64 + 0x80),
      UInt8.ofNat (n % 64 + 0x80)] := by
  have hval : (Char.ofNat n).val.toNat = n := toNat_ofNat_valid (by omega)
  unfold String.utf8EncodeChar
  simp only [hval]
  rw [if_neg (by omega), if_neg (by omega), if_neg (by omega)]

theorem ofNat_eq_octet {b : UInt8} {n : Nat} (h : n = b.toNat) : UInt8.ofNat n = b := by
  rw [h, UInt8.ofNat_toNat]

/-- **A character is read from its own octets only.** -/
theorem readChar_some (h : readChar b rest = (some c, tail)) : b :: rest = String.utf8EncodeChar c ++ tail := by
  have hlt := b.toNat_lt
  unfold readChar at h
  by_cases hone : b < 0x80
  · rw [if_pos hone] at h
    cases h
    have hascii : b.toNat < 0x80 := hone
    have hval : (Char.ofNat b.toNat).toNat = b.toNat := toNat_ofNat_valid (by omega)
    have hencode : String.utf8EncodeChar (Char.ofNat b.toNat) = [UInt8.ofNat (Char.ofNat b.toNat).toNat] :=
      if_pos (show (Char.ofNat b.toNat).toNat ≤ 0x7F by omega)
    rw [hencode, hval, UInt8.ofNat_toNat]
    rfl
  · rw [if_neg hone] at h
    cases hranges : continuations b with
    | none =>
        rw [hranges] at h
        cases h
    | some ranges =>
        rw [hranges] at h
        obtain ⟨octets, rfl, hall, rfl⟩ := readContinuations_some h
        have hlead := leadBits_octet hlt
        rw [UInt8.ofNat_toNat] at hlead
        have hbf : (0xBF : UInt8).toNat = 0xBF := rfl
        have h80 : (0x80 : UInt8).toNat = 0x80 := rfl
        rcases continuations_cases hranges with ⟨hlow, hhigh, rfl⟩ | ⟨low, high, rfl, hbounds⟩ | ⟨low, high, rfl, hbounds⟩
        · obtain _ | ⟨hx, _ | _⟩ := hall
          rename_i x
          rw [if_pos (by omega)] at hlead
          dsimp only [List.foldl_cons, List.foldl_nil] at hx ⊢
          rw [hlead, encode_two (by omega) (by omega), ofNat_eq_octet (b := b) (by omega),
            ofNat_eq_octet (b := x) (by omega)]
          rfl
        · obtain _ | ⟨hx, _ | ⟨hy, _ | _⟩⟩ := hall
          rename_i x y
          rw [if_neg (by omega), if_pos (by omega)] at hlead
          dsimp only [List.foldl_cons, List.foldl_nil] at hx hy ⊢
          rw [hlead, encode_three (by omega) (by omega) (by omega), ofNat_eq_octet (b := b) (by omega),
            ofNat_eq_octet (b := x) (by omega), ofNat_eq_octet (b := y) (by omega)]
          rfl
        · obtain _ | ⟨hx, _ | ⟨hy, _ | ⟨hz, _ | _⟩⟩⟩ := hall
          rename_i x y z
          rw [if_neg (by omega), if_neg (by omega)] at hlead
          dsimp only [List.foldl_cons, List.foldl_nil] at hx hy hz ⊢
          rw [hlead, encode_four (by omega) (by omega), ofNat_eq_octet (b := b) (by omega),
            ofNat_eq_octet (b := x) (by omega), ofNat_eq_octet (b := y) (by omega), ofNat_eq_octet (b := z) (by omega)]
          rfl

/-- **Octets are text** if and only if they are what the text is written as. -/
theorem fromUtf8_eq_some {bytes : Bytes} {s : Str} : fromUtf8 bytes = some s ↔ bytes = asBytes s := by
  refine ⟨fun h => ?_, fun h => by rw [h, fromUtf8_asBytes]⟩
  unfold fromUtf8 at h
  induction hlength : bytes.length using Nat.strongRecOn generalizing bytes s with
  | ind length ih =>
      cases bytes with
      | nil =>
          rw [utf8Chunks] at h
          cases h
          rfl
      | cons b rest =>
          rw [utf8Chunks, List.mapM_cons] at h
          obtain ⟨c, hread, h⟩ := Option.bind_eq_some_iff.mp h
          obtain ⟨text, htext, h⟩ := Option.bind_eq_some_iff.mp h
          cases h
          have hshort := readChar_length b rest
          have hchar : readChar b rest = (some c, (readChar b rest).2) := Prod.ext hread rfl
          rw [readChar_some hchar, ih _ (by rw [← hlength, List.length_cons]; omega) htext rfl]
          rfl

end Read
end Nntp.Proto
