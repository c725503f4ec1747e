import Nntp.Proto.Group
import Nntp.Proto.Post
import Nntp.Proto.Utf8
import Nntp.Tui.ReadStore

/-!
# The read-state file

`readstate/store.rs` and `readstate/set.rs`: how a store is written, one line for each group with something
read in it, and how it is read back. The name of a group ends at the first colon, and a line that begins
with a hash is a comment; names with a colon and names that begin with a hash are accepted all the same.
-/

namespace Nntp.Tui

open Nntp.Proto

/-! ## Sets of ranges -/

namespace ReadSet

/-- One range as it is written. -/
def rangeText (r : UInt64 × UInt64) : Str :=
  if r.1 = r.2 then display r.1.toNat else display r.1.toNat ++ '-' :: display r.2.toNat

/-- `Display`: the set in `.newsrc` syntax. -/
def toText (s : ReadSet) : Str := joinWith [','] (s.ranges.map rangeText)

/-- One piece between commas: a number or a range. A range without an upper end is not one. -/
def parsePiece (piece : Str) : Option (UInt64 × UInt64) :=
  match splitOnce (· == '-') piece with
  | none => (parseU64 (trim piece)).map fun number => (number, number)
  | some (low, high) =>
      (parseU64 (trim low)).bind fun low =>
        if (trim high).isEmpty then none else (parseU64 (trim high)).map fun high => (low, high)

/-- The loop of `parse`: the ranges so far, and the pieces that are none. -/
def addPiece (acc : ReadSet × List Str) (piece : Str) : ReadSet × List Str :=
  let piece := trim piece
  if piece.isEmpty then acc
  else
    match parsePiece piece with
    | some (low, high) => (acc.1.insertRange low high, acc.2)
    | none => (acc.1, acc.2 ++ [piece])

/-- Reads a set, with the pieces that could not be read. -/
def parse (text : Str) : ReadSet × List Str :=
  let pieces := splitAll (· == ',') text
  (pieces.1 :: pieces.2).foldl addPiece (.new, [])

/-- `for &(low, high) in ranges: insert_range(low, high)`. -/
def insertRanges (s : ReadSet) (ranges : List (UInt64 × UInt64)) : ReadSet :=
  ranges.foldl (fun s r => s.insertRange r.1 r.2) s

/-! ### Text of ranges -/

theorem rangeText_chars {r : UInt64 × UInt64} {c : Char} (h : c ∈ rangeText r) :
    isAsciiDigit c = true ∨ c = '-' := by
  have hdigits : ∀ n : UInt64, c ∈ display n.toNat → isAsciiDigit c = true :=
    fun n => (display_spec n.toNat).2.1 c
  unfold rangeText at h
  split at h
  · exact Or.inl (hdigits _ h)
  · rcases List.mem_append.mp h with h | h
    · exact Or.inl (hdigits _ h)
    · rcases List.mem_cons.mp h with h | h
      · exact Or.inr h
      · exact Or.inl (hdigits _ h)

theorem isAsciiGraphic_rangeText {r : UInt64 × UInt64} {c : Char} (h : c ∈ rangeText r) :
    isAsciiGraphic c = true := by
  rcases rangeText_chars h with h | rfl
  · exact isAsciiGraphic_of_isAsciiDigit h
  · decide

theorem rangeText_ne_nil (r : UInt64 × UInt64) : rangeText r ≠ [] := by
  unfold rangeText
  split
  · exact (display_spec _).1
  · simp

theorem comma_not_mem_rangeText (r : UInt64 × UInt64) : ',' ∉ rangeText r := by
  intro h
  rcases rangeText_chars h with h | h
  · exact absurd h (by decide)
  · cases h

theorem trim_rangeText (r : UInt64 × UInt64) : trim (rangeText r) = rangeText r :=
  trim_of_no_whitespace fun _ hc => isWhitespace_of_isAsciiGraphic (isAsciiGraphic_rangeText hc)

/-- **A range reads back.** -/
theorem parsePiece_rangeText (r : UInt64 × UInt64) : parsePiece (rangeText r) = some r := by
  have hdash : ∀ n : UInt64, ∀ c ∈ display n.toNat, (c == '-') = false := fun n =>
    beq_of_not_mem fun hmem => absurd ((display_spec n.toNat).2.1 _ hmem) (by decide)
  obtain ⟨low, high⟩ := r
  by_cases heq : low = high
  · subst heq
    have htext : rangeText (low, low) = display low.toNat := if_pos rfl
    rw [htext]
    unfold parsePiece
    rw [splitOnce_of_none (hdash low)]
    dsimp only
    rw [trim_display, parseU64_display]
    rfl
  · have htext : rangeText (low, high) = display low.toNat ++ '-' :: display high.toNat := if_neg heq
    rw [htext]
    unfold parsePiece
    rw [splitOnce_append (hdash low) (beq_self_eq_true '-')]
    dsimp only
    rw [trim_display, trim_display, parseU64_display, parseU64_display, Option.bind_some, if_neg]
    · rfl
    · rw [List.isEmpty_iff]
      exact (display_spec high.toNat).1

/-- A number has no colon in it. -/
theorem parseU64_colon {s : Str} (h : ':' ∈ s) : parseU64 s = none := by
  unfold parseU64
  dsimp only
  rw [if_neg]
  rintro ⟨_, hdigits, _⟩
  have hmem : ':' ∈ (stripPrefix ['+'] s).getD s := by
    cases s with
    | nil => cases h
    | cons c cs =>
        unfold stripPrefix
        split
        · next heq =>
            rw [← heq] at h
            rcases List.mem_cons.mp h with h | h
            · cases h
            · exact h
        · exact h
  exact absurd (List.all_eq_true.mp hdigits _ hmem) (by decide)

/-- Nor has a range. -/
theorem parsePiece_colon {piece : Str} (h : ':' ∈ piece) : parsePiece piece = none := by
  have htrim : ∀ {s : Str}, ':' ∈ s → parseU64 (trim s) = none :=
    fun hs => parseU64_colon (mem_trim hs (by decide))
  unfold parsePiece
  cases hsplit : splitOnce (· == '-') piece with
  | none =>
      dsimp only
      rw [htrim h]
      rfl
  | some parts =>
      obtain ⟨low, high⟩ := parts
      dsimp only
      obtain ⟨sep, hsep, rfl, _⟩ := splitOnce_eq_some hsplit
      rcases List.mem_append.mp h with h | h
      · rw [htrim h]
        rfl
      · rcases List.mem_cons.mp h with rfl | h
        · cases hsep
        · rw [htrim h]
          cases parseU64 (trim low) <;> simp

/-- The pieces that cannot be read stay. -/
theorem foldl_addPiece_malformed (pieces : List Str) (acc : ReadSet × List Str) :
    acc.2 <+: (pieces.foldl addPiece acc).2 := by
  induction pieces generalizing acc with
  | nil => exact List.prefix_rfl
  | cons piece pieces ih =>
      refine List.IsPrefix.trans ?_ (ih (addPiece acc piece))
      unfold addPiece
      dsimp only
      split
      · exact List.prefix_rfl
      · split
        · exact List.prefix_rfl
        · exact List.prefix_append _ _

/-- A text with a colon before its first comma is not read without complaint. -/
theorem parse_colon {before after : Str} (hbefore : ',' ∉ before) (h : ':' ∈ before)
    (hafter : after = [] ∨ ∃ rest, after = ',' :: rest) : (parse (before ++ after)).2 ≠ [] := by
  have hnot : ∀ c ∈ before, (c == ',') = false := beq_of_not_mem hbefore
  have hfirst : (splitAll (· == ',') (before ++ after)).1 = before := by
    rcases hafter with rfl | ⟨rest, rfl⟩
    · rw [List.append_nil, splitAll_of_none hnot]
    · rw [splitAll_append hnot (beq_self_eq_true ',')]
  have hpiece : addPiece (.new, []) before = (.new, [trim before]) := by
    have hmem : ':' ∈ trim before := mem_trim h (by decide)
    unfold addPiece
    dsimp only
    rw [if_neg, parsePiece_colon hmem]
    · rfl
    · rw [List.isEmpty_iff]
      exact List.ne_nil_of_mem hmem
  unfold parse
  dsimp only
  rw [hfirst, List.foldl_cons, hpiece]
  intro hempty
  have hprefix := foldl_addPiece_malformed (splitAll (· == ',') (before ++ after)).2
    (.new, [trim before])
  rw [hempty] at hprefix
  cases List.prefix_nil.mp hprefix

/-- The pieces of a set that was written are its ranges. -/
theorem foldl_addPiece_rangeText (ranges : List (UInt64 × UInt64)) (s : ReadSet) (bad : List Str) :
    (ranges.map rangeText).foldl addPiece (s, bad) = (s.insertRanges ranges, bad) := by
  induction ranges generalizing s with
  | nil => rfl
  | cons r ranges ih =>
      have hpiece : addPiece (s, bad) (rangeText r) = (s.insertRange r.1 r.2, bad) := by
        unfold addPiece
        dsimp only
        rw [trim_rangeText, if_neg, parsePiece_rangeText]
        rw [List.isEmpty_iff]
        exact rangeText_ne_nil r
      rw [List.map_cons, List.foldl_cons, hpiece, ih]
      rfl

/-- Ranges that are put in one after the other, their bounds in either order. -/
theorem insertRanges_spec {s : ReadSet} (h : Valid s) (ranges : List (UInt64 × UInt64)) :
    Valid (s.insertRanges ranges) ∧ ∀ n, n ∈ (s.insertRanges ranges).numbers ↔
      n ∈ s.numbers ∨ ∃ r ∈ ranges, min r.1 r.2 ≤ n ∧ n ≤ max r.1 r.2 ∧ 1 ≤ n := by
  induction ranges generalizing s with
  | nil => exact ⟨h, fun n => by simp [insertRanges]⟩
  | cons r ranges ih =>
      obtain ⟨hvalid, hmem⟩ := insertRange_spec h r.1 r.2
      obtain ⟨hvalid', hmem'⟩ := ih hvalid
      refine ⟨hvalid', fun n => ?_⟩
      have hn : n ∈ (s.insertRanges (r :: ranges)).numbers ↔ _ := hmem' n
      rw [hn, hmem n, or_assoc]
      simp only [List.exists_mem_cons_iff]

/-- **A set is built again from its ranges.** -/
theorem insertRanges_ranges {s : ReadSet} (h : Valid s) : ReadSet.new.insertRanges s.ranges = s := by
  obtain ⟨hvalid, hmem⟩ := insertRanges_spec new_valid s.ranges
  refine hvalid.ext h (Set.ext fun n => ?_)
  rw [hmem n, numbers_new, Set.mem_empty_iff_false, false_or]
  constructor
  · rintro ⟨r, hr, hlow, hhigh, -⟩
    rw [min_eq_left (h.upright r hr)] at hlow
    rw [max_eq_right (h.upright r hr)] at hhigh
    exact ⟨r, hr, hlow, hhigh⟩
  · rintro ⟨r, hr, hlow, hhigh⟩
    exact ⟨r, hr, min_le_of_left_le hlow, le_max_of_le_right hhigh, (h.positive r hr).trans hlow⟩

/-- **A set that is written and read is the set it was**, whatever white space comes before it. -/
theorem parse_toText {s : ReadSet} (h : Valid s) (hne : s.ranges ≠ []) :
    parse (' ' :: s.toText) = (s, []) := by
  obtain ⟨first, rest, hranges⟩ := List.exists_cons_of_ne_nil hne
  have hcomma : ∀ piece ∈ (' ' :: rangeText first) :: rest.map rangeText, ',' ∉ piece := by
    intro piece hpiece
    rcases List.mem_cons.mp hpiece with rfl | hpiece
    · simpa using comma_not_mem_rangeText first
    · obtain ⟨r, _, rfl⟩ := List.mem_map.mp hpiece
      exact comma_not_mem_rangeText r
  have htext : ' ' :: s.toText = joinWith [','] ((' ' :: rangeText first) :: rest.map rangeText) := by
    unfold toText
    rw [hranges]
    cases rest <;> rfl
  have hspace : ∀ acc, addPiece acc (' ' :: rangeText first) = addPiece acc (rangeText first) := by
    intro acc
    have htrim : trim (' ' :: rangeText first) = trim (rangeText first) := by
      simp [trim, trimStart, isWhitespace]
    unfold addPiece
    rw [htrim]
  unfold parse
  rw [htext, splitAll_joinWith hcomma]
  dsimp only
  rw [List.foldl_cons, hspace]
  have hfold := foldl_addPiece_rangeText s.ranges .new []
  rw [insertRanges_ranges h, hranges] at hfold
  exact hfold

theorem isAsciiGraphic_toText {s : ReadSet} {c : Char} (h : c ∈ s.toText) :
    isAsciiGraphic c = true := by
  unfold toText at h
  generalize s.ranges = ranges at h
  induction ranges with
  | nil => cases h
  | cons r ranges ih =>
      cases ranges with
      | nil => exact isAsciiGraphic_rangeText h
      | cons next rest =>
          have hsplit : c ∈ rangeText r ++ [','] ++ joinWith [','] ((next :: rest).map rangeText) := h
          rcases List.mem_append.mp hsplit with h | h
          · rcases List.mem_append.mp h with h | h
            · exact isAsciiGraphic_rangeText h
            · rw [List.mem_singleton.mp h]
              decide
          · exact ih h

/-- A set that is not empty begins with its first range. -/
theorem toText_cons {s : ReadSet} {r : UInt64 × UInt64} {rest : List (UInt64 × UInt64)}
    (h : s.ranges = r :: rest) :
    ∃ after, s.toText = rangeText r ++ after ∧ (after = [] ∨ ∃ more, after = ',' :: more) := by
  unfold toText
  rw [h]
  cases rest with
  | nil => exact ⟨[], (List.append_nil _).symm, Or.inl rfl⟩
  | cons next rest =>
      refine ⟨',' :: joinWith [','] ((next :: rest).map rangeText), ?_, Or.inr ⟨_, rfl⟩⟩
      show rangeText r ++ [','] ++ joinWith [','] ((next :: rest).map rangeText) = _
      rw [List.append_assoc, List.singleton_append]

theorem toText_ne_nil {s : ReadSet} (h : s.ranges ≠ []) : s.toText ≠ [] := by
  obtain ⟨r, rest, hranges⟩ := List.exists_cons_of_ne_nil h
  obtain ⟨after, htext, _⟩ := toText_cons hranges
  rw [htext]
  exact List.append_ne_nil_of_left_ne_nil (rangeText_ne_nil r) after

end ReadSet

/-! ## The file -/

/-- `MAX_STORE_BYTES`. -/
def maxStoreBytes : Nat := 8 * 1024 * 1024

/-- The line of one group, without its end. -/
def Entry.line (group : Str) (entry : Entry) : Str :=
  group ++ (if entry.subscribed then ':' else '!') :: ' ' :: entry.read.toText

namespace ReadStore

/-- Something wrong with a store file that was recovered from. -/
inductive Problem where
  | unreadable (reason : Str)
  | tooLarge (size : Nat)
  /-- the number of the line, from 1 on -/
  | malformedLine (line : Nat)
  | malformedRanges (group : Str) (pieces : List Str)
  deriving DecidableEq, Repr

/-- What there is at the path of a store. -/
inductive StoreFile where
  | missing
  /-- its metadata cannot be read -/
  | inaccessible (reason : Str)
  /-- its contents cannot be read -/
  | unreadable (size : Nat) (reason : Str)
  | contents (bytes : Bytes)

/-- Renders the store in `.newsrc` syntax. A subscribed group with nothing read is left out. -/
def toNewsrc (store : ReadStore) : Str :=
  store.groups.flatMap fun e =>
    if e.2.read.isEmpty && e.2.subscribed then [] else e.2.line e.1 ++ ['\n']

/-- Splits a line into group, subscription flag and range list, at the first colon or exclamation mark. -/
def splitLine (line : Str) : Option (Str × Bool × Str) :=
  let separates (c : Char) : Bool := c == ':' || c == '!'
  let group := trim (line.takeWhile fun c => !separates c)
  match line.dropWhile fun c => !separates c with
  | [] => none
  | separator :: rest => if group.isEmpty then none else some (group, separator == ':', rest)

/-- `entry(group).or_default()`, with more ranges and perhaps subscribed. -/
def mergeEntry (store : ReadStore) (group : Str) (read : ReadSet) (subscribed : Bool) : ReadStore :=
  let known := (store.entry? group).isSome
  { store with
    groups := modifyEntry (fun e =>
      { read := e.read.insertRanges read.ranges
        subscribed := known && e.subscribed || subscribed }) group store.groups }

/-- The loop of `load`, for one line and its index. -/
def loadLine (acc : ReadStore × List Problem) (line : Str × Nat) : ReadStore × List Problem :=
  let text := trim line.1
  if text.isEmpty || text.head? == some '#' then acc
  else
    match splitLine text with
    | none => (acc.1, acc.2 ++ [.malformedLine (line.2 + 1)])
    | some (group, subscribed, ranges) =>
        let parsed := ReadSet.parse ranges
        (acc.1.mergeEntry group parsed.1 subscribed,
          if parsed.2.isEmpty then acc.2 else acc.2 ++ [.malformedRanges group parsed.2])

def loadText (text : Str) : ReadStore × List Problem := (lines text).zipIdx.foldl loadLine ({}, [])

/-- Loads a store, recovering from anything wrong with the file. -/
def load : StoreFile → ReadStore × List Problem
  | .missing => ({}, [])
  | .inaccessible reason => ({}, [.unreadable reason])
  | .unreadable size reason =>
      if maxStoreBytes < size then ({}, [.tooLarge size]) else ({}, [.unreadable reason])
  | .contents bytes =>
      if maxStoreBytes < bytes.length then ({}, [.tooLarge bytes.length])
      else loadText (fromUtf8Lossy bytes)

/-! ## Stores that come about -/

/-- One change to a store. A set that is put in whole is a valid one. -/
inductive Change where
  | markRead (group : GroupName) (number : UInt64)
  | markRangeRead (group : GroupName) (low high : UInt64)
  | markUnread (group : GroupName) (number : UInt64)
  | setRead (group : GroupName) (read : ReadSet) (valid : read.Valid)
  | forgetExpired (group : GroupName) (low : UInt64)

def apply (store : ReadStore) : Change → ReadStore
  | .markRead group number => store.markRead group.asStr number
  | .markRangeRead group low high => store.markRangeRead group.asStr low high
  | .markUnread group number => store.markUnread group.asStr number
  | .setRead group read _ => store.setRead group.asStr read
  | .forgetExpired group low => store.forgetExpired group.asStr low

/-- The names are in order and well-formed, the sets valid, and everything is subscribed. -/
structure Kept (store : ReadStore) : Prop where
  sorted : Sorted store.groups
  entries : ∀ e ∈ store.groups, GroupName.isWellFormed e.1 = true ∧ e.2.read.Valid ∧
    e.2.subscribed = true

variable {store : ReadStore}

theorem Kept.modify (h : Kept store) {f : Entry → Entry} {group : GroupName} {dirty : Bool}
    (hf : ∀ e : Entry, e.read.Valid → e.subscribed = true →
      (f e).read.Valid ∧ (f e).subscribed = true) :
    Kept { groups := modifyEntry f group.asStr store.groups, dirty } := by
  refine ⟨modifyEntry_sorted h.sorted, fun e he => ?_⟩
  rcases mem_modifyEntry he with he | ⟨entry, hentry, rfl⟩
  · exact h.entries e he
  · refine ⟨group.wellFormed, ?_⟩
    rcases hentry with rfl | hmem
    · exact hf {} ReadSet.new_valid rfl
    · exact hf entry (h.entries _ hmem).2.1 (h.entries _ hmem).2.2

/-- Every change keeps the store in order. -/
theorem Kept.apply (h : Kept store) (change : Change) : Kept (store.apply change) := by
  cases change with
  | markRead group number =>
      exact h.modify fun e he hsub => ⟨(ReadSet.insertRange_spec he number number).1, hsub⟩
  | markRangeRead group low high =>
      exact h.modify fun e he hsub => ⟨(ReadSet.insertRange_spec he low high).1, hsub⟩
  | markUnread group number =>
      refine h.modify fun e he hsub => ⟨?_, hsub⟩
      show (e.read.remove number).Valid
      rw [ReadSet.remove_eq_removeRange he]
      exact (ReadSet.removeRange_spec he number number).1
  | setRead group read valid => exact h.modify fun e _ hsub => ⟨valid, hsub⟩
  | forgetExpired group low =>
      show Kept (store.forgetExpired group.asStr low)
      unfold forgetExpired
      split
      · exact h
      · cases hentry : store.entry? group.asStr with
        | none => exact h
        | some before =>
            have hvalid : before.read.Valid := by
              obtain ⟨e, he, rfl⟩ := Option.map_eq_some_iff.mp hentry
              exact (h.entries e (List.mem_of_find?_eq_some he)).2.1
            exact h.modify fun e _ hsub => ⟨(ReadSet.removeRange_spec hvalid 1 (low - 1)).1, hsub⟩

theorem kept_of_changes (changes : List Change) : Kept (changes.foldl apply {}) := by
  have hfold : ∀ store, Kept store → Kept (changes.foldl apply store) := by
    induction changes with
    | nil => exact fun store h => h
    | cons change changes ih => exact fun store h => ih _ (h.apply change)
  exact hfold {} ⟨List.Pairwise.nil, fun e he => absurd he List.not_mem_nil⟩

/-! ## Lines -/

section Lines

variable {group : Str} {entry : Entry} {acc : ReadStore × List Problem} {i : Nat}

/-- The characters of a name that is accepted. -/
theorem wellFormed_chars (h : GroupName.isWellFormed group = true) :
    group ≠ [] ∧ ∀ c ∈ group, isAsciiGraphic c = true ∧ c ≠ '!' ∧ c ≠ ',' := by
  unfold GroupName.isWellFormed at h
  rw [Bool.and_eq_true, Bool.and_eq_true] at h
  obtain ⟨⟨hne, _⟩, hall⟩ := h
  refine ⟨by simpa using hne, fun c hc => ?_⟩
  have hchar := List.all_eq_true.mp hall c hc
  grind

theorem line_eq (hsub : entry.subscribed = true) :
    entry.line group = group ++ ':' :: ' ' :: entry.read.toText := by
  unfold Entry.line
  rw [if_pos hsub]

theorem line_chars (hname : GroupName.isWellFormed group = true) (hsub : entry.subscribed = true)
    {c : Char} (h : c ∈ entry.line group) : isAsciiGraphic c = true ∨ c = ' ' := by
  rw [line_eq hsub] at h
  rcases List.mem_append.mp h with h | h
  · exact Or.inl ((wellFormed_chars hname).2 c h).1
  · rcases List.mem_cons.mp h with rfl | h
    · exact Or.inl (by decide)
    · rcases List.mem_cons.mp h with h | h
      · exact Or.inr h
      · exact Or.inl (ReadSet.isAsciiGraphic_toText h)

/-- Nothing is trimmed off the line of a group. -/
theorem trim_line (hname : GroupName.isWellFormed group = true) (hsub : entry.subscribed = true)
    (hne : entry.read.ranges ≠ []) : trim (entry.line group) = entry.line group := by
  obtain ⟨hgroup, hchars⟩ := wellFormed_chars hname
  rw [line_eq hsub]
  apply trim_of_edges
  · intro c hc
    obtain ⟨first, rest, rfl⟩ := List.exists_cons_of_ne_nil hgroup
    cases hc
    exact isWhitespace_of_isAsciiGraphic (hchars _ List.mem_cons_self).1
  · intro c hc
    have hlast : entry.read.toText.getLast? = some c := by
      have htext := ReadSet.toText_ne_nil hne
      rw [List.getLast?_append, List.getLast?_cons_of_ne_nil (by simp),
        List.getLast?_cons_of_ne_nil htext] at hc
      cases hl : entry.read.toText.getLast? with
      | none => exact absurd (List.getLast?_eq_none_iff.mp hl) htext
      | some d =>
          rw [hl] at hc
          exact hc
    exact isWhitespace_of_isAsciiGraphic
      (ReadSet.isAsciiGraphic_toText (List.mem_of_getLast? hlast))

/-- A line is split where its first separator is. -/
theorem splitLine_append {before : Str} (after : Str) (h : ∀ c ∈ before, c ≠ ':' ∧ c ≠ '!') :
    splitLine (before ++ ':' :: after) =
      if (trim before).isEmpty then none else some (trim before, true, after) := by
  have hnot : ∀ c ∈ before, (!(c == ':' || c == '!')) = true := by
    intro c hc
    obtain ⟨hcolon, hbang⟩ := h c hc
    simp [hcolon, hbang]
  unfold splitLine
  dsimp only
  rw [List.takeWhile_append_of_pos hnot, List.dropWhile_append_of_pos hnot,
    List.takeWhile_cons_of_neg (by decide), List.dropWhile_cons_of_neg (by decide), List.append_nil]
  rfl

/-- A name whose line reads back: no colon, and no hash at the front. -/
def Plain (group : Str) : Prop := ':' ∉ group ∧ group.head? ≠ some '#'

/-- What a line that is not a comment does. -/
theorem loadLine_line (hname : GroupName.isWellFormed group = true) (hsub : entry.subscribed = true)
    (hne : entry.read.ranges ≠ []) (hhash : group.head? ≠ some '#') :
    loadLine acc (entry.line group, i) =
      match splitLine (entry.line group) with
      | none => (acc.1, acc.2 ++ [.malformedLine (i + 1)])
      | some (name, subscribed, ranges) =>
          (acc.1.mergeEntry name (ReadSet.parse ranges).1 subscribed,
            if (ReadSet.parse ranges).2.isEmpty then acc.2
            else acc.2 ++ [.malformedRanges name (ReadSet.parse ranges).2]) := by
  obtain ⟨hgroup, _⟩ := wellFormed_chars hname
  unfold loadLine
  dsimp only
  rw [trim_line hname hsub hne, if_neg]
  rw [line_eq hsub]
  obtain ⟨first, rest, rfl⟩ := List.exists_cons_of_ne_nil hgroup
  simpa using hhash

/-- **A line with a plain name is read as it was meant.** -/
theorem loadLine_plain (hname : GroupName.isWellFormed group = true) (hsub : entry.subscribed = true)
    (hvalid : entry.read.Valid) (hne : entry.read.ranges ≠ []) (hplain : Plain group) :
    loadLine acc (entry.line group, i) = (acc.1.mergeEntry group entry.read true, acc.2) := by
  obtain ⟨hgroup, hchars⟩ := wellFormed_chars hname
  have htrim : trim group = group :=
    trim_of_no_whitespace fun c hc => isWhitespace_of_isAsciiGraphic (hchars c hc).1
  have hsplit : splitLine (entry.line group) = some (group, true, ' ' :: entry.read.toText) := by
    rw [line_eq hsub, splitLine_append, htrim, if_neg (by simpa using hgroup)]
    intro c hc
    refine ⟨?_, (hchars c hc).2.1⟩
    rintro rfl
    exact hplain.1 hc
  rw [loadLine_line hname hsub hne hplain.2, hsplit]
  dsimp only
  rw [ReadSet.parse_toText hvalid hne]
  rfl

/-- **A line with a colon in its name is not read without complaint.** -/
theorem loadLine_colon (hname : GroupName.isWellFormed group = true) (hsub : entry.subscribed = true)
    (hne : entry.read.ranges ≠ []) (hhash : group.head? ≠ some '#') (hcolon : ':' ∈ group) :
    (loadLine acc (entry.line group, i)).2 ≠ [] := by
  obtain ⟨_, hchars⟩ := wellFormed_chars hname
  obtain ⟨before, after, rfl, hbefore⟩ := List.eq_append_cons_of_mem hcolon
  obtain ⟨r, rest, hranges⟩ := List.exists_cons_of_ne_nil hne
  obtain ⟨more, htext, hmore⟩ := ReadSet.toText_cons hranges
  have hline : entry.line (before ++ ':' :: after) =
      before ++ ':' :: ((after ++ ':' :: ' ' :: ReadSet.rangeText r) ++ more) := by
    rw [line_eq hsub, htext]
    simp
  have hseparates : ∀ c ∈ before, c ≠ ':' ∧ c ≠ '!' := by
    intro c hc
    refine ⟨?_, (hchars c (List.mem_append_left _ hc)).2.1⟩
    rintro rfl
    exact hbefore hc
  have hcomma : ',' ∉ after ++ ':' :: ' ' :: ReadSet.rangeText r := by
    intro hmem
    rcases List.mem_append.mp hmem with hmem | hmem
    · exact (hchars _ (List.mem_append_right _ (List.mem_cons_of_mem _ hmem))).2.2 rfl
    · simp [ReadSet.comma_not_mem_rangeText] at hmem
  have hbad := ReadSet.parse_colon hcomma (by simp) hmore
  rw [loadLine_line hname hsub hne hhash, hline, splitLine_append _ hseparates]
  split
  · exact List.append_ne_nil_of_right_ne_nil _ (List.cons_ne_nil _ _)
  · next heq =>
      split at heq
      · cases heq
      · cases heq
        rw [if_neg (by simpa using hbad)]
        exact List.append_ne_nil_of_right_ne_nil _ (List.cons_ne_nil _ _)

end Lines

/-! ## Whatever is in the file -/

section Whatever

variable {acc : ReadStore × List Problem} {line : Str × Nat}

/-- A problem is not forgotten. -/
theorem loadLine_problems (acc : ReadStore × List Problem) (line : Str × Nat) :
    acc.2 <+: (loadLine acc line).2 := by
  unfold loadLine
  dsimp only
  split
  · exact List.prefix_rfl
  · split
    · exact List.prefix_append _ _
    · dsimp only
      split
      · exact List.prefix_rfl
      · exact List.prefix_append _ _

/-- No name that is read begins with a hash. -/
theorem loadLine_hash (h : ∀ e ∈ acc.1.groups, e.1.head? ≠ some '#') :
    ∀ e ∈ (loadLine acc line).1.groups, e.1.head? ≠ some '#' := by
  unfold loadLine
  dsimp only
  split
  · exact h
  · next hskip =>
      split
      · exact h
      · next group subscribed ranges hsplit =>
          intro e he
          rcases mem_modifyEntry he with he | ⟨_, _, rfl⟩
          · exact h e he
          · intro hhash
            apply hskip
            unfold splitLine at hsplit
            dsimp only at hsplit
            split at hsplit
            · cases hsplit
            · split at hsplit
              · cases hsplit
              · cases hsplit
                -- the name begins where the line does
                obtain ⟨hstart, _⟩ := head?_trim hhash
                generalize htext : trim line.1 = text at hstart ⊢
                cases text with
                | nil => cases hstart
                | cons c cs =>
                    have hc : isWhitespace c = false :=
                      (head?_trim (show (trim line.1).head? = some c by rw [htext]; rfl)).2
                    rw [List.takeWhile_cons] at hstart
                    split at hstart
                    · unfold trimStart at hstart
                      rw [List.dropWhile_cons_of_neg (by simp [hc])] at hstart
                      simpa using Option.some.inj hstart
                    · cases hstart

theorem foldl_loadLine_problems (texts : List (Str × Nat)) (acc : ReadStore × List Problem) :
    acc.2 <+: (texts.foldl loadLine acc).2 := by
  induction texts generalizing acc with
  | nil => exact List.prefix_rfl
  | cons text texts ih => exact (loadLine_problems acc text).trans (ih _)

theorem foldl_loadLine_hash {texts : List (Str × Nat)}
    (h : ∀ e ∈ acc.1.groups, e.1.head? ≠ some '#') :
    ∀ e ∈ (texts.foldl loadLine acc).1.groups, e.1.head? ≠ some '#' := by
  induction texts generalizing acc with
  | nil => exact h
  | cons text texts ih => exact ih (loadLine_hash h)

end Whatever

/-! ## The round trip -/

/-- The groups that are written. -/
def written (store : ReadStore) : List (Str × Entry) :=
  store.groups.filter fun e => !e.2.read.isEmpty

theorem Kept.mem_written (h : Kept store) {e : Str × Entry} (he : e ∈ store.written) :
    GroupName.isWellFormed e.1 = true ∧ e.2.read.Valid ∧ e.2.subscribed = true ∧
      e.2.read.ranges ≠ [] := by
  obtain ⟨hmem, hne⟩ := List.mem_filter.mp he
  obtain ⟨hname, hvalid, hsub⟩ := h.entries e hmem
  refine ⟨hname, hvalid, hsub, ?_⟩
  intro hempty
  rw [ReadSet.isEmpty, hempty] at hne
  cases hne

theorem Kept.toNewsrc (h : Kept store) :
    store.toNewsrc = (store.written.map fun e => e.2.line e.1).flatMap fun text => text ++ ['\n'] := by
  unfold ReadStore.toNewsrc written
  have hentries := h.entries
  generalize store.groups = groups at hentries ⊢
  induction groups with
  | nil => rfl
  | cons e groups ih =>
      have hsub := (hentries e List.mem_cons_self).2.2
      rw [List.flatMap_cons, ih fun d hd => hentries d (List.mem_cons_of_mem _ hd), List.filter_cons]
      cases hread : e.2.read.isEmpty <;> simp [hsub]

theorem Kept.lines_toNewsrc (h : Kept store) :
    lines store.toNewsrc = store.written.map fun e => e.2.line e.1 := by
  rw [h.toNewsrc]
  refine lines_flatMap fun text htext => ?_
  obtain ⟨e, he, rfl⟩ := List.mem_map.mp htext
  obtain ⟨hname, _, hsub, _⟩ := h.mem_written he
  constructor
  · intro hmem
    rcases line_chars hname hsub hmem with hmem | hmem <;> exact absurd hmem (by decide)
  · intro hmem
    rcases line_chars hname hsub hmem with hmem | hmem <;> exact absurd hmem (by decide)

/-- A file that is not too large is read line by line. -/
theorem Kept.load (h : Kept store) (hsize : (asBytes store.toNewsrc).length ≤ maxStoreBytes) :
    load (.contents (asBytes store.toNewsrc)) = loadText store.toNewsrc := by
  have hascii : ∀ c ∈ store.toNewsrc, c.toNat < 0x80 := by
    intro c hc
    rw [h.toNewsrc] at hc
    obtain ⟨text, htext, hc⟩ := List.mem_flatMap.mp hc
    obtain ⟨e, he, rfl⟩ := List.mem_map.mp htext
    obtain ⟨hname, _, hsub, _⟩ := h.mem_written he
    rcases List.mem_append.mp hc with hc | hc
    · rcases line_chars hname hsub hc with hc | rfl
      · unfold isAsciiGraphic at hc
        grind
      · decide
    · rw [List.mem_singleton.mp hc]
      decide
  unfold ReadStore.load
  dsimp only
  rw [if_neg (Nat.not_lt.mpr hsize), fromUtf8Lossy_ascii (isAscii_asBytes hascii),
    map_asciiChar_asBytes hascii]

/-- What is looked up in a store is what its entry has. -/
theorem readSet_of_mem (h : Sorted store.groups) {e : Str × Entry} (he : e ∈ store.groups) :
    store.readSet e.1 = e.2.read := by
  unfold readSet entry?
  generalize store.groups = groups at h he
  induction groups with
  | nil => cases he
  | cons first rest ih =>
      obtain ⟨hfirst, hrest⟩ := List.pairwise_cons.mp h
      rcases List.mem_cons.mp he with rfl | he
      · simp
      · have hne : first.1 ≠ e.1 := fun heq => lt_irrefl e.1 (heq ▸ hfirst e he)
        rw [List.find?_cons_of_neg (by simpa using hne)]
        exact ih hrest he

/-- A store is lossless if its file is read without complaint, and to the same sets. -/
def Lossless (store : ReadStore) : Prop :=
  let loaded := load (.contents (asBytes store.toNewsrc))
  loaded.2 = [] ∧ ∀ group : Str, loaded.1.readSet group = store.readSet group

/-- Every group with something read in it has a plain name. -/
def Writable (store : ReadStore) : Prop :=
  ∀ e ∈ store.groups, e.2.read.isEmpty = false → Plain e.1

/-- Merging an entry is looked up as its ranges put into what was there. -/
theorem readSet_mergeEntry {group : Str} {read : ReadSet} {subscribed : Bool}
    (h : Sorted store.groups) (name : Str) :
    (store.mergeEntry group read subscribed).readSet name =
      if name = group then (store.readSet group).insertRanges read.ranges else store.readSet name := by
  unfold readSet entry? mergeEntry
  dsimp only
  split
  · next heq =>
      rw [heq, find?_modifyEntry_self h]
      cases store.groups.find? fun e => e.1 = group <;> rfl
  · next hne => rw [find?_modifyEntry_of_ne hne]

/-- The entries, read one after the other. -/
theorem readSet_foldl (store : ReadStore) {entries : List (Str × Entry)} (h : Sorted store.groups)
    (hentries : Sorted entries) (name : Str) :
    (entries.foldl (fun store e => store.mergeEntry e.1 e.2.read true) store).readSet name =
      match entries.find? fun e => e.1 = name with
      | some e => (store.readSet name).insertRanges e.2.read.ranges
      | none => store.readSet name := by
  induction entries generalizing store with
  | nil => rfl
  | cons first rest ih =>
      obtain ⟨hfirst, hrest⟩ := List.pairwise_cons.mp hentries
      rw [List.foldl_cons, ih _ (modifyEntry_sorted h) hrest, readSet_mergeEntry h]
      by_cases heq : first.1 = name
      · have hnone : rest.find? (fun e => e.1 = name) = none := by
          refine List.find?_eq_none.mpr fun e he hsame => ?_
          have hsame : e.1 = name := by simpa using hsame
          exact lt_irrefl name (by simpa [heq, hsame] using hfirst e he)
        rw [hnone, List.find?_cons_of_pos (by simpa using heq), if_pos heq.symm, heq]
      · rw [List.find?_cons_of_neg (by simpa using heq), if_neg (fun hname => heq hname.symm)]

/-- With plain names, every line is read as it was meant. -/
theorem Kept.loadText (h : Kept store) (hplain : ∀ e ∈ store.written, Plain e.1) :
    loadText store.toNewsrc =
      (store.written.foldl (fun store e => store.mergeEntry e.1 e.2.read true) {}, []) := by
  have hfold : ∀ (entries : List (Str × Entry)) (n : Nat) (acc : ReadStore × List Problem),
      entries ⊆ store.written → ((entries.map fun e => e.2.line e.1).zipIdx n).foldl loadLine acc =
        (entries.foldl (fun store e => store.mergeEntry e.1 e.2.read true) acc.1, acc.2) := by
    intro entries
    induction entries with
    | nil => exact fun _ _ _ => rfl
    | cons e entries ih =>
        intro n acc hsub
        have he := hsub List.mem_cons_self
        obtain ⟨hname, hvalid, hsubscribed, hne⟩ := h.mem_written he
        rw [List.map_cons, List.zipIdx_cons, List.foldl_cons,
          loadLine_plain hname hsubscribed hvalid hne (hplain e he),
          ih _ _ fun d hd => hsub (List.mem_cons_of_mem _ hd)]
        rfl
  unfold ReadStore.loadText
  rw [h.lines_toNewsrc]
  exact hfold store.written 0 ({}, []) (List.Subset.refl _)

theorem Kept.sorted_written (h : Kept store) : Sorted store.written := h.sorted.filter _

/-- **Plain names lose nothing.** -/
theorem Kept.lossless (h : Kept store) (hsize : (asBytes store.toNewsrc).length ≤ maxStoreBytes)
    (hwritable : Writable store) : Lossless store := by
  have hplain : ∀ e ∈ store.written, Plain e.1 := by
    intro e he
    obtain ⟨hmem, hne⟩ := List.mem_filter.mp he
    exact hwritable e hmem (by simpa using hne)
  unfold Lossless
  rw [h.load hsize, h.loadText hplain]
  refine ⟨rfl, fun group => ?_⟩
  dsimp only
  rw [readSet_foldl {} (List.Pairwise.nil : Sorted []) h.sorted_written]
  cases hfind : store.written.find? fun e => e.1 = group with
  | some e =>
      have he := List.mem_of_find?_eq_some hfind
      have hname : e.1 = group := by simpa using List.find?_some hfind
      rw [← hname, readSet_of_mem h.sorted (List.mem_of_mem_filter he)]
      exact ReadSet.insertRanges_ranges (h.mem_written he).2.1
  | none =>
      -- a group that is not written has nothing read in it
      show ReadSet.new = store.readSet group
      cases hentry : store.groups.find? fun e => e.1 = group with
      | none =>
          unfold readSet entry?
          rw [hentry]
          rfl
      | some e =>
          have he := List.mem_of_find?_eq_some hentry
          have hname : e.1 = group := by simpa using List.find?_some hentry
          rw [← hname, readSet_of_mem h.sorted he]
          have hempty : e.2.read.isEmpty = true := by
            by_contra hne
            have hwritten : e ∈ store.written := List.mem_filter.mpr ⟨he, by simpa using hne⟩
            exact List.find?_eq_none.mp hfind e hwritten (by simpa using hname)
          cases hread : e.2.read with
          | mk ranges =>
              rw [hread] at hempty
              have hranges : ranges = [] := List.isEmpty_iff.mp hempty
              rw [hranges]
              rfl

/-- **A name that is not plain loses something**: a name with a colon is reported, and a line that begins
with a hash is skipped. -/
theorem Kept.writable (h : Kept store) (hsize : (asBytes store.toNewsrc).length ≤ maxStoreBytes)
    (hlossless : Lossless store) : Writable store := by
  unfold Lossless at hlossless
  rw [h.load hsize] at hlossless
  obtain ⟨hproblems, hsame⟩ := hlossless
  unfold ReadStore.loadText at hproblems hsame
  rw [h.lines_toNewsrc] at hproblems hsame
  intro e he hne
  have hwritten : e ∈ store.written := List.mem_filter.mpr ⟨he, by simpa using hne⟩
  obtain ⟨hname, hvalid, hsub, hranges⟩ := h.mem_written hwritten
  have hhash : e.1.head? ≠ some '#' := by
    intro hhash
    have hnone : ReadStore.entry?
        ((store.written.map fun e => e.2.line e.1).zipIdx.foldl loadLine ({}, [])).1 e.1 = none := by
      unfold entry?
      rw [Option.map_eq_none_iff, List.find?_eq_none]
      intro d hd heq
      have hdname : d.1 = e.1 := by simpa using heq
      exact foldl_loadLine_hash (fun _ hd => absurd hd List.not_mem_nil) d hd (hdname ▸ hhash)
    have hread := hsame e.1
    rw [readSet_of_mem h.sorted he] at hread
    unfold readSet at hread
    rw [hnone] at hread
    rw [← hread] at hne
    cases hne
  refine ⟨fun hcolon => ?_, hhash⟩
  -- the line of this group has left a problem behind
  obtain ⟨before, after, hsplit⟩ := List.append_of_mem hwritten
  rw [hsplit, List.map_append, List.map_cons, List.zipIdx_append, List.zipIdx_cons, List.foldl_append,
    List.foldl_cons] at hproblems
  have hprefix := foldl_loadLine_problems
    ((after.map fun e => e.2.line e.1).zipIdx ((before.map fun e => e.2.line e.1).length + 1))
    (loadLine (((before.map fun e => e.2.line e.1).zipIdx).foldl loadLine ({}, []))
      (e.2.line e.1, (before.map fun e => e.2.line e.1).length))
  rw [Nat.zero_add] at hproblems
  rw [hproblems] at hprefix
  exact loadLine_colon hname hsub hranges hhash hcolon (List.prefix_nil.mp hprefix)

/-- **Reading what was written loses nothing if and only if** every group with something read in it has a
name without a colon, and without a hash at the front. -/
theorem lossless_iff_writable (changes : List Change)
    (hsize : (asBytes (changes.foldl apply {}).toNewsrc).length ≤ maxStoreBytes) :
    Lossless (changes.foldl apply {}) ↔ Writable (changes.foldl apply {}) :=
  ⟨(kept_of_changes changes).writable hsize, (kept_of_changes changes).lossless hsize⟩

/-! ### A name with a colon -/

def plainName : GroupName := .miscTest

def colonName : GroupName where
  asStr := "misc:test".toList
  wellFormed := by decide

theorem lossless_plainName : Lossless (apply {} (.markRead plainName 5)) :=
  (lossless_iff_writable [.markRead plainName 5] (by decide +kernel)).mpr (by
    intro e he _
    have heq : e = (plainName.asStr, { read := ⟨[(5, 5)]⟩ }) := by
      have hgroups : (apply {} (.markRead plainName 5)).groups =
          [(plainName.asStr, { read := ⟨[(5, 5)]⟩ })] := by decide +kernel
      exact List.mem_singleton.mp (hgroups ▸ he)
    rw [heq]
    exact ⟨by decide, by decide⟩)

/-- The group is read as `misc`, and its range as garbage. -/
theorem colonName_loses : ¬ ∀ changes : List Change,
    (asBytes (changes.foldl apply {}).toNewsrc).length < maxStoreBytes →
      Lossless (changes.foldl apply {}) := by
  intro hall
  have hsize : (asBytes (apply {} (.markRead colonName 5)).toNewsrc).length < maxStoreBytes := by
    decide +kernel
  have hproblems := (hall [.markRead colonName 5] hsize).1
  have hkept : Kept (apply {} (.markRead colonName 5)) := kept_of_changes [.markRead colonName 5]
  have hload := hkept.load (Nat.le_of_lt hsize)
  have heval : (loadText (apply {} (.markRead colonName 5)).toNewsrc).2 =
      [.malformedRanges "misc".toList ["test: 5".toList]] := by decide +kernel
  rw [← hload] at heval
  cases heval.symm.trans hproblems

end ReadStore

end Nntp.Tui
