import Nntp.Proto.EncodedWord
import Nntp.Tui.Newsrc

/-!
# The syntax of ranges

What `ReadSet::parse` reads, said without the parser. `IsNumber` and `IsPiece` are the pieces it
understands, with white space wherever it is allowed; `parse_spec` is the set it arrives at and the pieces it
hands back. A piece whose bounds are both zero is understood and marks nothing.
-/

namespace Nntp.Tui.ReadSet

open Nntp.Proto

/-! ## Numbers and pieces -/

/-- A `u64` as `str::parse` takes it: digits, a plus sign before them or not. -/
inductive IsU64 : Str → UInt64 → Prop
  | digits {digits : Str} {n : UInt64} (hne : digits ≠ []) (hdigits : ∀ c ∈ digits, isAsciiDigit c = true)
      (hvalue : digitsValue digits = n.toNat) : IsU64 digits n
  | plus {digits : Str} {n : UInt64} (hne : digits ≠ []) (hdigits : ∀ c ∈ digits, isAsciiDigit c = true)
      (hvalue : digitsValue digits = n.toNat) : IsU64 ('+' :: digits) n

/-- A number of a piece, with white space around it. -/
inductive IsNumber : Str → UInt64 → Prop
  | spaced {before text after : Str} {n : UInt64} (hbefore : IsSpace before) (h : IsU64 text n)
      (hafter : IsSpace after) : IsNumber (before ++ text ++ after) n

/-- A piece between commas with the bounds it names: `n` or `a-b`. -/
inductive IsPiece : Str → UInt64 × UInt64 → Prop
  | number {text : Str} {n : UInt64} (h : IsNumber text n) : IsPiece text (n, n)
  | range {low high : Str} {a b : UInt64} (hlow : IsNumber low a) (hhigh : IsNumber high b) :
      IsPiece (low ++ '-' :: high) (a, b)

/-- The digits of a number have the value that is parsed. -/
theorem parseU64_digits {digits : Str} {n : UInt64} (hne : digits ≠ [])
    (hdigits : ∀ c ∈ digits, isAsciiDigit c = true) (hvalue : digitsValue digits = n.toNat) {s : Str}
    (hs : (stripPrefix ['+'] s).getD s = digits) : parseU64 s = some n := by
  have hall : digits.all isAsciiDigit = true := List.all_eq_true.mpr hdigits
  have hlt : digitsValue digits < 18446744073709551616 := hvalue ▸ n.toNat_lt
  unfold parseU64
  dsimp only
  rw [hs, if_pos ⟨hne, hall, hlt⟩, hvalue, UInt64.ofNat_toNat]

theorem parseU64_iff {s : Str} {n : UInt64} : parseU64 s = some n ↔ IsU64 s n := by
  constructor
  · intro h
    unfold parseU64 at h
    dsimp only at h
    split at h
    · next hgood =>
        obtain ⟨hne, hall, hlt⟩ := hgood
        have hvalue : digitsValue ((stripPrefix ['+'] s).getD s) = n.toNat := by
          rw [← Option.some.inj h, UInt64.toNat_ofNat_of_lt' hlt]
        cases hplus : stripPrefix ['+'] s with
        | none =>
            rw [hplus] at hne hall hvalue
            exact .digits hne (List.all_eq_true.mp hall) hvalue
        | some digits =>
            rw [hplus] at hne hall hvalue
            rw [stripPrefix_eq_some.mp hplus]
            exact .plus hne (List.all_eq_true.mp hall) hvalue
    · cases h
  · rintro (⟨hne, hdigits, hvalue⟩ | ⟨hne, hdigits, hvalue⟩)
    · refine parseU64_digits hne hdigits hvalue ?_
      cases s with
      | nil => rfl
      | cons c cs =>
          -- a digit is no plus sign
          have hc : '+' ≠ c := by
            rintro rfl
            exact absurd (hdigits '+' List.mem_cons_self) (by decide)
          simp [stripPrefix, hc]
    · exact parseU64_digits hne hdigits hvalue (by simp [stripPrefix])

theorem IsU64.chars {s : Str} {n : UInt64} (h : IsU64 s n) {c : Char} (hc : c ∈ s) :
    isAsciiDigit c = true ∨ c = '+' := by
  cases h with
  | digits _ hdigits _ => exact Or.inl (hdigits c hc)
  | plus _ hdigits _ =>
      rcases List.mem_cons.mp hc with rfl | hc
      · exact Or.inr rfl
      · exact Or.inl (hdigits c hc)

theorem IsU64.solid {s : Str} {n : UInt64} (h : IsU64 s n) {c : Char} (hc : c ∈ s) :
    isWhitespace c = false := by
  rcases h.chars hc with hdigit | rfl
  · exact isWhitespace_of_isAsciiGraphic (isAsciiGraphic_of_isAsciiDigit hdigit)
  · decide

theorem isNumber_iff {s : Str} {n : UInt64} : IsNumber s n ↔ parseU64 (trim s) = some n := by
  constructor
  · rintro ⟨hbefore, h, hafter⟩
    have htrim := trim_around hbefore hafter (fun c hc => h.solid (List.mem_of_mem_head? hc))
      fun c hc => h.solid (List.mem_of_mem_getLast? hc)
    rw [htrim]
    exact parseU64_iff.mpr h
  · intro h
    obtain ⟨x, y, hx, hy, hs⟩ := trim_split s
    rw [hs]
    exact .spaced hx (parseU64_iff.mp h) hy

theorem IsNumber.dash {s : Str} {n : UInt64} (h : IsNumber s n) : '-' ∉ s := by
  obtain ⟨hbefore, h, hafter⟩ := h
  intro hmem
  rcases List.mem_append.mp hmem with hmem | hmem
  · rcases List.mem_append.mp hmem with hmem | hmem
    · exact absurd (hbefore _ hmem) (by decide)
    · rcases h.chars hmem with hdigit | hplus
      · exact absurd hdigit (by decide)
      · cases hplus
  · exact absurd (hafter _ hmem) (by decide)

/-- **The pieces that are understood** are numbers and ranges. -/
theorem isPiece_iff {piece : Str} {r : UInt64 × UInt64} : IsPiece piece r ↔ parsePiece (trim piece) = some r := by
  constructor
  · rintro (h | ⟨hlow, hhigh⟩)
    · have hdash : '-' ∉ trim piece := fun hmem => h.dash (mem_of_mem_trim hmem)
      unfold parsePiece
      rw [splitOnce_of_none (beq_of_not_mem hdash)]
      dsimp only
      rw [trim_trim, isNumber_iff.mp h]
      rfl
    · next low high a b =>
      have hdash : '-' ∉ trimStart low := fun hmem => hlow.dash ((List.dropWhile_sublist _).subset hmem)
      have hparsed := isNumber_iff.mp hhigh
      rw [trim_append_cons (by decide)]
      unfold parsePiece
      rw [splitOnce_append (beq_of_not_mem hdash) (beq_self_eq_true '-')]
      dsimp only
      rw [trim_trimStart, trim_trimEnd, isNumber_iff.mp hlow, Option.bind_some, if_neg, hparsed]
      · rfl
      · intro hempty
        rw [List.isEmpty_iff.mp hempty] at hparsed
        cases hparsed
  · intro h
    obtain ⟨x, y, hx, hy, hpiece⟩ := trim_split piece
    unfold parsePiece at h
    split at h
    · obtain ⟨n, hn, rfl⟩ := Option.map_eq_some_iff.mp h
      rw [trim_trim] at hn
      exact .number (isNumber_iff.mpr hn)
    · next low high hsplit =>
        obtain ⟨a, ha, h⟩ := Option.bind_eq_some_iff.mp h
        split at h
        · cases h
        · obtain ⟨b, hb, rfl⟩ := Option.map_eq_some_iff.mp h
          obtain ⟨sep, hsep, hparts, -⟩ := splitOnce_eq_some hsplit
          have hdash : sep = '-' := by simpa using hsep
          -- the white space around the piece is white space around its two numbers
          have hlow : IsNumber (x ++ low) a := by
            rw [isNumber_iff, ← List.append_nil (x ++ low),
              trim_more hx (fun _ hc => absurd hc List.not_mem_nil)]
            exact ha
          have hhigh : IsNumber (high ++ y) b := by
            rw [isNumber_iff, ← List.nil_append high,
              trim_more (fun _ hc => absurd hc List.not_mem_nil) hy]
            exact hb
          have hwhole : piece = (x ++ low) ++ '-' :: (high ++ y) := by
            rw [hpiece, hparts, hdash]
            simp only [List.append_assoc, List.cons_append]
          rw [hwhole]
          exact .range hlow hhigh

/-! ## A whole text -/

/-- A piece with nothing but white space in it. -/
def Blank (piece : Str) : Prop := IsSpace piece

/-- A piece that is a number or a range. -/
def Understood (piece : Str) : Prop := ∃ r, IsPiece piece r

instance : DecidablePred Blank := fun piece => inferInstanceAs (Decidable (∀ c ∈ piece, isWhitespace c = true))

theorem understood_iff {piece : Str} : Understood piece ↔ (parsePiece (trim piece)).isSome = true := by
  rw [Option.isSome_iff_exists]
  exact exists_congr fun _ => isPiece_iff

instance : DecidablePred Understood := fun _ => decidable_of_iff _ understood_iff.symm

/-- The pieces that are handed back. -/
def malformed (pieces : List Str) : List Str :=
  (pieces.filter fun piece => ¬ Blank piece ∧ ¬ Understood piece).map trim

theorem blank_iff {piece : Str} : Blank piece ↔ trim piece = [] := by
  constructor
  · intro h
    have htrim := trim_more h (fun _ hc => absurd hc List.not_mem_nil) []
    rw [List.append_nil, List.append_nil] at htrim
    rw [htrim]
    rfl
  · intro h
    obtain ⟨x, y, hx, hy, hs⟩ := trim_split piece
    rw [h, List.append_nil] at hs
    rw [hs]
    exact hx.append hy

/-- One piece is skipped, put in or handed back. -/
theorem addPiece_eq (acc : ReadSet × List Str) (piece : Str) :
    addPiece acc piece =
      (acc.1.insertRanges (parsePiece (trim piece)).toList, acc.2 ++ malformed [piece]) := by
  unfold addPiece malformed
  dsimp only
  by_cases hblank : trim piece = []
  · have hnone : parsePiece [] = none := rfl
    simp [hblank, hnone, blank_iff.mpr hblank, insertRanges]
  · rw [if_neg (by simpa using hblank)]
    cases hparse : parsePiece (trim piece) with
    | none =>
        have hnot : ¬ Understood piece := by
          rw [understood_iff, hparse]
          exact Bool.false_ne_true
        simp [insertRanges, hnot, blank_iff, hblank]
    | some r =>
        have hyes : Understood piece := by
          rw [understood_iff, hparse]
          rfl
        simp [insertRanges, hyes]

/-- The loop over the pieces. -/
theorem foldl_addPiece (pieces : List Str) (acc : ReadSet × List Str) :
    pieces.foldl addPiece acc =
      (acc.1.insertRanges (pieces.flatMap fun piece => (parsePiece (trim piece)).toList),
        acc.2 ++ malformed pieces) := by
  induction pieces generalizing acc with
  | nil => simp [insertRanges, malformed]
  | cons piece pieces ih =>
      have hmalformed : malformed (piece :: pieces) = malformed [piece] ++ malformed pieces := by
        unfold malformed
        rw [← List.singleton_append, List.filter_append, List.map_append]
      rw [List.foldl_cons, addPiece_eq, ih, List.flatMap_cons, hmalformed, List.append_assoc]
      simp [insertRanges, List.foldl_append]

/-- What a text is read as: the numbers of the pieces that are understood, and the other pieces. -/
theorem parse_spec (text : Str) :
    Valid (parse text).1 ∧
      (∀ n, n ∈ (parse text).1.numbers ↔ ∃ piece ∈ pieces (· == ',') text, ∃ r, IsPiece piece r ∧
        max (min r.1 r.2) 1 ≤ n ∧ n ≤ max r.1 r.2) ∧
      (parse text).2 = malformed (pieces (· == ',') text) := by
  have hparse : parse text = _ := foldl_addPiece (pieces (· == ',') text) (.new, [])
  obtain ⟨hvalid, hmem⟩ := insertRanges_spec new_valid
    ((pieces (· == ',') text).flatMap fun piece => (parsePiece (trim piece)).toList)
  rw [hparse]
  refine ⟨hvalid, fun n => ?_, List.nil_append _⟩
  rw [hmem n, numbers_new, Set.mem_empty_iff_false, false_or]
  simp only [List.mem_flatMap, Option.mem_toList, Option.mem_def, ← isPiece_iff, max_le_iff]
  constructor
  · rintro ⟨r, ⟨piece, hpiece, hr⟩, hlow, hhigh, hpos⟩
    exact ⟨piece, hpiece, r, hr, ⟨hlow, hpos⟩, hhigh⟩
  · rintro ⟨piece, hpiece, r, hr, ⟨hlow, hpos⟩, hhigh⟩
    exact ⟨r, ⟨piece, hpiece, hr⟩, hlow, hhigh, hpos⟩

/-- A set that is printed is read back, the empty set among them. -/
theorem Valid.parse_toText {s : ReadSet} (h : Valid s) : parse s.toText = (s, []) := by
  by_cases hne : s.ranges = []
  · obtain ⟨ranges⟩ := s
    simp only at hne
    subst hne
    rfl
  · have hcomma : ∀ piece ∈ s.ranges.map rangeText, ',' ∉ piece := by
      intro piece hpiece
      obtain ⟨r, _, rfl⟩ := List.mem_map.mp hpiece
      exact comma_not_mem_rangeText r
    obtain ⟨first, rest, hranges⟩ := List.exists_cons_of_ne_nil hne
    have hfold := foldl_addPiece_rangeText s.ranges .new []
    rw [insertRanges_ranges h] at hfold
    unfold parse toText
    rw [hranges, List.map_cons] at hcomma hfold ⊢
    rw [splitAll_joinWith hcomma]
    exact hfold

/-- **The range syntax reads back, and what cannot be read is handed back.** -/
theorem range_syntax :
    (∀ s : ReadSet, Valid s → parse s.toText = (s, [])) ∧
      ∀ text : Str, Valid (parse text).1 ∧
        (∀ n, n ∈ (parse text).1.numbers ↔ ∃ piece ∈ pieces (· == ',') text, ∃ r, IsPiece piece r ∧
          max (min r.1 r.2) 1 ≤ n ∧ n ≤ max r.1 r.2) ∧
        (parse text).2 = malformed (pieces (· == ',') text) :=
  ⟨fun _ h => h.parse_toText, parse_spec⟩

theorem range_syntax_maximum :
    parse (ReadSet.mk [(1, 5), (7, Lib.u64Max)]).toText = (⟨[(1, 5), (7, Lib.u64Max)]⟩, []) := by
  apply range_syntax.1
  exact ⟨by simp, by simp [Lib.le_u64Max], by simp [Apart]⟩

/-- A zero is not read as a one where it is the whole piece: no number is marked. -/
theorem zero_marks_nothing : ¬ ∀ text : Str, ∀ n, n ∈ (parse text).1.numbers ↔
    ∃ piece ∈ pieces (· == ',') text, ∃ r, IsPiece piece r ∧
      min (max r.1 1) (max r.2 1) ≤ n ∧ n ≤ max (max r.1 1) (max r.2 1) := by
  intro hall
  have hzero : IsPiece ['0'] (0, 0) := isPiece_iff.mpr (by decide +kernel)
  have hone : (1 : UInt64) ∈ (parse ['0']).1.numbers :=
    (hall ['0'] 1).mpr ⟨['0'], by simp [pieces, splitAll], (0, 0), hzero, by decide, by decide⟩
  obtain ⟨r, hr, -⟩ := hone
  have hempty : (parse ['0']).1.ranges = [] := by decide +kernel
  rw [hempty] at hr
  cases hr

end Nntp.Tui.ReadSet
