import Mathlib.Data.List.DropRight
import Mathlib.Data.List.Infix
import Mathlib.Data.String.Basic

/-!
# Text and octets

Rust's `str` is a list of characters here and a byte slice a list of octets. Below are the methods of
both that the crates use, under the standard library's names, and `ProtoError`, which every parser of
`nntp-proto` returns.
-/

namespace Nntp.Proto

abbrev Str := List Char
abbrev Bytes := List UInt8

instance : LawfulBEq Str := inferInstance

/-! ## Characters -/

/-- `char::is_whitespace`: the Unicode property `White_Space`. -/
def isWhitespace (c : Char) : Bool :=
  let n := c.toNat
  (9 ≤ n && n ≤ 13) || n == 0x20 || n == 0x85 || n == 0xA0 || n == 0x1680 ||
    (0x2000 ≤ n && n ≤ 0x200A) || n == 0x2028 || n == 0x2029 || n == 0x202F || n == 0x205F ||
    n == 0x3000

/-- `char::is_control`: the Unicode category `Cc`. -/
def isControl (c : Char) : Bool :=
  let n := c.toNat
  n ≤ 0x1F || (0x7F ≤ n && n ≤ 0x9F)

/-- `char::is_ascii_graphic`. -/
def isAsciiGraphic (c : Char) : Bool := 0x21 ≤ c.toNat && c.toNat ≤ 0x7E

def isAsciiDigit (c : Char) : Bool := 0x30 ≤ c.toNat && c.toNat ≤ 0x39

def toAsciiLower (c : Char) : Char :=
  if 0x41 ≤ c.toNat ∧ c.toNat ≤ 0x5A then Char.ofNat (c.toNat + 0x20) else c

def toAsciiUpper (c : Char) : Char :=
  if 0x61 ≤ c.toNat ∧ c.toNat ≤ 0x7A then Char.ofNat (c.toNat - 0x20) else c

def toAsciiLowerByte (b : UInt8) : UInt8 := if 0x41 ≤ b ∧ b ≤ 0x5A then b + 0x20 else b

/-! ## Strings -/

/-- `str::as_bytes`: the UTF-8 form. -/
def asBytes (s : Str) : Bytes := s.flatMap String.utf8EncodeChar

/-- `str::len`: the length in octets of the UTF-8 form. -/
def utf8Len (s : Str) : Nat := (s.map fun c => c.utf8Size).foldl (· + ·) 0

def trimStart (s : Str) : Str := s.dropWhile isWhitespace

def trimEnd (s : Str) : Str := s.rdropWhile isWhitespace

def trim (s : Str) : Str := trimEnd (trimStart s)

/-- Byte-wise order, which is the order of the code points. -/
def strLe : Str → Str → Bool
  | [], _ => true
  | _ :: _, [] => false
  | a :: s, b :: t => if a = b then strLe s t else decide (a.toNat < b.toNat)

/-- Which is the order of lists. -/
theorem strLe_iff {s t : Str} : strLe s t = true ↔ s ≤ t := by
  rw [← not_lt]
  induction s generalizing t with
  | nil => simp [strLe]
  | cons a s ih =>
      cases t with
      | nil => simp [strLe]
      | cons b t =>
          rw [List.cons_lt_cons_iff, not_or, not_and, not_lt]
          unfold strLe
          split
          · next h => simp [h, ih]
          · next h =>
              rw [decide_eq_true_eq]
              constructor
              · intro hlt
                exact ⟨le_of_lt (show a < b from hlt), fun heq => absurd heq.symm h⟩
              · rintro ⟨hle, -⟩
                exact show a < b from lt_of_le_of_ne hle h

/-- `contains` of a text. -/
def containsText (s part : Str) : Bool := decide (part <:+: s)

def eqIgnoreAsciiCase (s t : Str) : Bool := s.map toAsciiLower == t.map toAsciiLower

def toAsciiLowercase (s : Str) : Str := s.map toAsciiLower

/-- `strip_prefix`. -/
def stripPrefix {α : Type} [DecidableEq α] : List α → List α → Option (List α)
  | [], s => some s
  | _ :: _, [] => none
  | p :: ps, c :: cs => if p = c then stripPrefix ps cs else none

/-- `strip_suffix`. -/
def stripSuffix {α : Type} [DecidableEq α] (suffix s : List α) : Option (List α) :=
  (stripPrefix suffix.reverse s.reverse).map List.reverse

/-- `split_once` at the first character that `p` picks. -/
def splitOnce {α : Type} (p : α → Bool) : List α → Option (List α × List α)
  | [] => none
  | c :: cs => if p c then some ([], cs) else (splitOnce p cs).map fun r => (c :: r.1, r.2)

/-- `split`: the first piece, and the further ones. -/
def splitAll {α : Type} (p : α → Bool) : List α → List α × List (List α)
  | [] => ([], [])
  | c :: cs =>
      let r := splitAll p cs
      if p c then ([], r.1 :: r.2) else (c :: r.1, r.2)

/-- The text before and after an octet, if a character begins there. -/
def cutText : Str → Nat → Option (Str × Str)
  | s, 0 => some ([], s)
  | [], _ + 1 => none
  | c :: s, n + 1 =>
      if c.utf8Size ≤ n + 1 then
        (cutText s (n + 1 - c.utf8Size)).map fun parts => (c :: parts.1, parts.2)
      else none

/-- The pieces between line feeds as lines: a carriage return before a line feed is not part of the line,
and after the last line feed there is a line only if there is text. -/
def linesOf : Str → List Str → List Str
  | last, [] => if last.isEmpty then [] else [last]
  | line, next :: rest => (stripSuffix ['\r'] line).getD line :: linesOf next rest

/-- `str::lines`. -/
def lines (s : Str) : List Str :=
  let pieces := splitAll (· == '\n') s
  linesOf pieces.1 pieces.2

@[simp] theorem utf8Len_nil : utf8Len [] = 0 := rfl

@[simp] theorem utf8Len_cons (c : Char) (s : Str) : utf8Len (c :: s) = c.utf8Size + utf8Len s := by
  have hfold : ∀ (sizes : List Nat) (n : Nat),
      sizes.foldl (· + ·) n = n + sizes.foldl (· + ·) 0 := by
    intro sizes
    induction sizes with
    | nil => exact fun n => rfl
    | cons size sizes ih =>
        intro n
        rw [List.foldl_cons, List.foldl_cons, ih, ih (0 + size)]
        omega
  unfold utf8Len
  rw [List.map_cons, List.foldl_cons, hfold, Nat.zero_add]

@[simp] theorem utf8Len_append (s t : Str) : utf8Len (s ++ t) = utf8Len s + utf8Len t := by
  induction s with
  | nil => simp
  | cons c cs ih =>
      rw [List.cons_append, utf8Len_cons, utf8Len_cons, ih]
      omega

theorem splitOnce_length {α : Type} {p : α → Bool} {s a b : List α}
    (h : splitOnce p s = some (a, b)) : a.length + b.length + 1 = s.length := by
  induction s generalizing a with
  | nil => cases h
  | cons c cs ih =>
      unfold splitOnce at h
      split at h
      · obtain ⟨rfl, rfl⟩ := Prod.mk.inj (Option.some.inj h)
        simp
      · obtain ⟨⟨a', b'⟩, hr, heq⟩ := Option.map_eq_some_iff.mp h
        simp only [Prod.mk.injEq] at heq
        obtain ⟨rfl, rfl⟩ := heq
        have := ih hr
        simp only [List.length_cons]
        omega

theorem splitOnce_of_none {α : Type} {p : α → Bool} {s : List α} (h : ∀ c ∈ s, p c = false) :
    splitOnce p s = none := by
  induction s with
  | nil => rfl
  | cons c cs ih => simp [splitOnce, ih fun x hx => h x (by simp [hx]), h c (by simp)]

theorem splitOnce_append {α : Type} {p : α → Bool} {s : List α} (h : ∀ c ∈ s, p c = false)
    {sep : α} (hsep : p sep = true) (t : List α) : splitOnce p (s ++ sep :: t) = some (s, t) := by
  induction s with
  | nil => simp [splitOnce, hsep]
  | cons c cs ih => simp [splitOnce, ih fun x hx => h x (by simp [hx]), h c (by simp)]

/-- What is split is put together again around the character it was split at. -/
theorem splitOnce_eq_some {α : Type} {p : α → Bool} {s a b : List α}
    (h : splitOnce p s = some (a, b)) :
    ∃ sep, p sep = true ∧ s = a ++ sep :: b ∧ ∀ c ∈ a, p c = false := by
  induction s generalizing a with
  | nil => cases h
  | cons c cs ih =>
      unfold splitOnce at h
      split at h
      · next hc =>
          cases h
          exact ⟨c, hc, rfl, fun _ hmem => absurd hmem List.not_mem_nil⟩
      · next hc =>
          obtain ⟨⟨a', b'⟩, hr, heq⟩ := Option.map_eq_some_iff.mp h
          cases heq
          obtain ⟨sep, hsep, rfl, hnot⟩ := ih hr
          refine ⟨sep, hsep, rfl, fun x hx => ?_⟩
          rcases List.mem_cons.mp hx with rfl | hx
          · exact Bool.eq_false_iff.mpr hc
          · exact hnot x hx

/-- A text without a separator is one piece: the form in which the lemmas about `split` ask for it. -/
theorem beq_of_not_mem {c : Char} {s : Str} (h : c ∉ s) : ∀ d ∈ s, (d == c) = false := by
  intro d hd
  rw [beq_eq_false_iff_ne]
  rintro rfl
  exact h hd

theorem splitAll_of_none {α : Type} {p : α → Bool} {s : List α} (h : ∀ c ∈ s, p c = false) :
    splitAll p s = (s, []) := by
  induction s with
  | nil => rfl
  | cons c cs ih =>
      have hc : p c = false := h c (by simp)
      simp [splitAll, ih fun x hx => h x (by simp [hx]), hc]

theorem splitAll_append {α : Type} {p : α → Bool} {s : List α} (h : ∀ c ∈ s, p c = false)
    {sep : α} (hsep : p sep = true) (t : List α) :
    splitAll p (s ++ sep :: t) = (s, (splitAll p t).1 :: (splitAll p t).2) := by
  induction s with
  | nil => simp [splitAll, hsep]
  | cons c cs ih =>
      have hc : p c = false := h c (by simp)
      simp [splitAll, ih fun x hx => h x (by simp [hx]), hc]

/-- All the pieces of a split. -/
def pieces {α : Type} (p : α → Bool) (s : List α) : List (List α) := (splitAll p s).1 :: (splitAll p s).2

theorem pieces_of_none {α : Type} {p : α → Bool} {s : List α} (h : ∀ c ∈ s, p c = false) : pieces p s = [s] := by
  unfold pieces
  rw [splitAll_of_none h]

/-- A separator ends one run of pieces and begins another. -/
theorem pieces_append {α : Type} {p : α → Bool} {sep : α} (hsep : p sep = true) (s t : List α) :
    pieces p (s ++ sep :: t) = pieces p s ++ pieces p t := by
  unfold pieces
  induction s with
  | nil => simp [splitAll, hsep]
  | cons c cs ih =>
      rw [List.cons_append, List.cons.injEq] at ih
      rw [List.cons_append, splitAll, splitAll, ih.1, ih.2]
      by_cases hc : p c = true <;> simp [hc]

theorem pieces_flatMap {α : Type} {p : α → Bool} {sep : α} (hsep : p sep = true) (s : List α)
    (texts : List (List α)) :
    pieces p (s ++ texts.flatMap (sep :: ·)) = pieces p s ++ texts.flatMap (pieces p) := by
  induction texts generalizing s with
  | nil => simp
  | cons text texts ih => rw [List.flatMap_cons, List.cons_append, pieces_append hsep, ih, List.flatMap_cons]

/-- Only a text without a separator is one piece. -/
theorem pieces_length_eq_one {α : Type} {p : α → Bool} {s : List α} :
    (pieces p s).length = 1 ↔ ∀ c ∈ s, p c = false := by
  refine ⟨fun h c hc => ?_, fun h => by rw [pieces_of_none h, List.length_singleton]⟩
  by_contra hsep
  obtain ⟨front, back, rfl⟩ := List.append_of_mem hc
  rw [pieces_append (Bool.of_not_eq_false hsep), List.length_append] at h
  simp only [pieces, List.length_cons] at h
  omega

/-- The pieces that are not empty. -/
def words {α : Type} (p : α → Bool) (s : List α) : List (List α) := (pieces p s).filter fun piece => !piece.isEmpty

@[simp] theorem words_nil {α : Type} {p : α → Bool} : words p [] = [] := rfl

theorem words_separators {α : Type} {p : α → Bool} {gap : List α} (h : ∀ c ∈ gap, p c = true) (s : List α) :
    words p (gap ++ s) = words p s := by
  induction gap with
  | nil => rfl
  | cons c gap ih =>
      have hc := h c List.mem_cons_self
      rw [← ih fun d hd => h d (List.mem_cons_of_mem _ hd)]
      have hsplit := pieces_append hc [] (gap ++ s)
      unfold words
      rw [List.cons_append, ← List.nil_append (c :: (gap ++ s)), hsplit]
      rfl

/-- A word, where a separator or the end follows it. -/
theorem words_word {α : Type} {p : α → Bool} {word rest : List α} (hne : word ≠ []) (hword : ∀ c ∈ word, p c = false)
    (hrest : ∀ c ∈ rest.head?, p c = true) : words p (word ++ rest) = word :: words p rest := by
  have hone : [word].filter (fun piece => !piece.isEmpty) = [word] := by simpa using hne
  cases rest with
  | nil =>
      unfold words
      rw [List.append_nil, pieces_of_none hword, hone]
      rfl
  | cons sep rest =>
      have hsep := hrest sep rfl
      have hskip := words_separators (by simpa using hsep : ∀ c ∈ [sep], p c = true) rest
      rw [List.singleton_append] at hskip
      rw [hskip]
      unfold words
      rw [pieces_append hsep, pieces_of_none hword, List.filter_append, hone]
      rfl

theorem stripPrefix_eq_some {α : Type} [DecidableEq α] {pre s tail : List α} :
    stripPrefix pre s = some tail ↔ s = pre ++ tail := by
  induction pre generalizing s with
  | nil => simp [stripPrefix, eq_comm]
  | cons p ps ih =>
      cases s with
      | nil => simp [stripPrefix]
      | cons c cs =>
          unfold stripPrefix
          split
          · next heq =>
              subst heq
              simp [ih]
          · next hne => simp [Ne.symm hne]

theorem stripSuffix_of_not_mem {c : Char} {s : Str} (h : c ∉ s) : stripSuffix [c] s = none := by
  unfold stripSuffix
  rw [List.reverse_singleton]
  cases hrev : s.reverse with
  | nil => rfl
  | cons d ds =>
      have hd : d ∈ s := List.mem_reverse.mp (hrev ▸ List.mem_cons_self)
      have hne : c ≠ d := by
        rintro rfl
        exact h hd
      simp [stripPrefix, hne]

/-- Lines that are written with a line feed after each are the lines that are read. -/
theorem lines_flatMap {texts : List Str} (h : ∀ text ∈ texts, '\n' ∉ text ∧ '\r' ∉ text) :
    lines (texts.flatMap fun text => text ++ ['\n']) = texts := by
  induction texts with
  | nil => rfl
  | cons text texts ih =>
      obtain ⟨hfeed, hreturn⟩ := h text List.mem_cons_self
      unfold lines at ih ⊢
      rw [List.flatMap_cons, List.append_assoc, List.singleton_append,
        splitAll_append (beq_of_not_mem hfeed) (beq_self_eq_true '\n')]
      dsimp only at ih ⊢
      rw [linesOf, stripSuffix_of_not_mem hreturn, ih fun t ht => h t (List.mem_cons_of_mem _ ht)]
      rfl

/-- What is left after trimming does not begin with white space. -/
theorem head?_trim {s : Str} {c : Char} (h : (trim s).head? = some c) :
    (trimStart s).head? = some c ∧ isWhitespace c = false := by
  have hprefix : trim s <+: trimStart s := List.rdropWhile_prefix _ _
  have hstart : (trimStart s).head? = some c := by
    obtain ⟨rest, hrest⟩ := hprefix
    rw [← hrest]
    cases htrim : trim s with
    | nil =>
        rw [htrim] at h
        cases h
    | cons d ds =>
        rw [htrim] at h
        exact h
  refine ⟨hstart, ?_⟩
  have hnot := List.head?_dropWhile_not isWhitespace s
  unfold trimStart at hstart
  rw [hstart] at hnot
  simpa using hnot

/-- Nor does it end with white space. -/
theorem getLast?_trim {s : Str} {c : Char} (h : (trim s).getLast? = some c) : isWhitespace c = false := by
  have hnot := List.head?_dropWhile_not isWhitespace (trimStart s).reverse
  unfold trim trimEnd List.rdropWhile at h
  rw [List.getLast?_reverse] at h
  rw [h] at hnot
  simpa using hnot

theorem trimStart_length_le (s : Str) : (trimStart s).length ≤ s.length :=
  (List.dropWhile_suffix isWhitespace).length_le

theorem trim_of_no_whitespace {s : Str} (h : ∀ c ∈ s, isWhitespace c = false) : trim s = s := by
  have hstart : trimStart s = s := by
    cases s with
    | nil => rfl
    | cons c cs =>
        have hc : isWhitespace c = false := h c (by simp)
        simp [trimStart, hc]
  rw [trim, hstart]
  rcases List.eq_nil_or_concat s with rfl | ⟨cs, c, rfl⟩
  · rfl
  · have hc : isWhitespace c = false := h c (by simp)
    simp [trimEnd, hc]

/-- Nothing is trimmed off a text that begins and ends with something else than white space. -/
theorem trim_of_edges {s : Str} (hfirst : ∀ c ∈ s.head?, isWhitespace c = false)
    (hlast : ∀ c ∈ s.getLast?, isWhitespace c = false) : trim s = s := by
  have hstart : trimStart s = s := by
    cases s with
    | nil => rfl
    | cons c cs => simp [trimStart, hfirst c rfl]
  rw [trim, hstart]
  rcases List.eq_nil_or_concat s with rfl | ⟨cs, c, rfl⟩
  · rfl
  · have hc : isWhitespace c = false := hlast c (by simp)
    simp [trimEnd, hc]

/-- Trimming takes away white space only. -/
theorem mem_trim {s : Str} {c : Char} (hmem : c ∈ s) (hc : isWhitespace c = false) : c ∈ trim s := by
  have hdrop : ∀ {s : Str}, c ∈ s → c ∈ s.dropWhile isWhitespace := by
    intro s hmem
    rw [← List.takeWhile_append_dropWhile (p := isWhitespace) (l := s)] at hmem
    rcases List.mem_append.mp hmem with hmem | hmem
    · exact absurd (List.mem_takeWhile_imp hmem) (by simp [hc])
    · exact hmem
  exact List.mem_reverse.mpr (hdrop (List.mem_reverse.mpr (hdrop hmem)))

theorem mem_of_mem_trim {s : Str} {c : Char} (h : c ∈ trim s) : c ∈ s :=
  (List.dropWhile_sublist _).subset ((List.rdropWhile_prefix _ _).subset h)

theorem trim_trim (s : Str) : trim (trim s) = trim s :=
  trim_of_edges (fun _ hc => (head?_trim hc).2) fun _ hc => getLast?_trim hc

/-- What is to hold of each member of a list is decided one by one. -/
theorem forall_of_all {α : Type} {p : α → Prop} [DecidablePred p] {s : List α}
    (h : (s.all fun c => decide (p c)) = true) : ∀ c ∈ s, p c :=
  fun c hc => of_decide_eq_true (List.all_eq_true.mp h c hc)

theorem isAsciiGraphic_of_isAsciiDigit {c : Char} (h : isAsciiDigit c = true) : isAsciiGraphic c = true := by
  unfold isAsciiDigit at h
  unfold isAsciiGraphic
  grind

theorem isWhitespace_of_isAsciiGraphic {c : Char} (h : isAsciiGraphic c = true) :
    isWhitespace c = false := by
  unfold isAsciiGraphic at h
  unfold isWhitespace
  grind

theorem utf8Size_of_graphic {c : Char} (h : isAsciiGraphic c = true) : c.utf8Size = 1 := by
  unfold isAsciiGraphic at h
  simp only [Bool.and_eq_true, decide_eq_true_eq] at h
  have hval : c.val ≤ 0x7F := by
    rw [UInt32.le_iff_toNat_le]
    exact h.2.trans (by decide)
  simp [Char.utf8Size, hval]

theorem utf8Len_graphic {s : Str} (h : ∀ c ∈ s, isAsciiGraphic c = true) : utf8Len s = s.length := by
  induction s with
  | nil => rfl
  | cons c s ih =>
      rw [utf8Len_cons, utf8Size_of_graphic (h c List.mem_cons_self), ih fun c hc => h c (List.mem_cons_of_mem _ hc),
        List.length_cons, Nat.add_comm]

theorem cutText_graphic {s : Str} (h : ∀ c ∈ s, isAsciiGraphic c = true) (rest : Str) :
    cutText (s ++ rest) s.length = some (s, rest) := by
  induction s with
  | nil =>
      unfold cutText
      rfl
  | cons c s ih =>
      rw [List.cons_append, List.length_cons, cutText, utf8Size_of_graphic (h c List.mem_cons_self), if_pos (by omega),
        Nat.add_sub_cancel, ih fun c hc => h c (List.mem_cons_of_mem _ hc)]
      rfl

theorem utf8Len_digits {digits : Str} (h : ∀ c ∈ digits, isAsciiDigit c = true) : utf8Len digits = digits.length :=
  utf8Len_graphic fun c hc => isAsciiGraphic_of_isAsciiDigit (h c hc)

theorem cutText_digits {digits : Str} (h : ∀ c ∈ digits, isAsciiDigit c = true) (rest : Str) :
    cutText (digits ++ rest) digits.length = some (digits, rest) :=
  cutText_graphic (fun c hc => isAsciiGraphic_of_isAsciiDigit (h c hc)) rest

/-! ## Numbers -/

/-- The value of a run of decimal digits. -/
def digitsValue (s : Str) : Nat := s.foldl (fun n c => 10 * n + (c.toNat - 0x30)) 0

/-- `str::parse::<u64>`: an optional plus sign, then digits, within range. -/
def parseU64 (s : Str) : Option UInt64 :=
  let digits := (stripPrefix ['+'] s).getD s
  if digits ≠ [] ∧ digits.all isAsciiDigit ∧ digitsValue digits < 18446744073709551616 then
    some (UInt64.ofNat (digitsValue digits))
  else none

/-- `parse::<u32>`. -/
def parseU32 (s : Str) : Option Nat := ((parseU64 s).map (·.toNat)).filter (· < 4294967296)

/-- `parse::<i32>`. -/
def parseI32 (s : Str) : Option Int :=
  match stripPrefix ['-'] s with
  | some digits =>
      if digits ≠ [] ∧ digits.all isAsciiDigit ∧ digitsValue digits ≤ 2147483648 then
        some (-(digitsValue digits))
      else none
  | none => ((parseU64 s).map fun n => (n.toNat : Int)).filter (· < 2147483648)

/-- `Display` of an unsigned integer. -/
def display (n : Nat) : Str := Nat.toDigits 10 n

theorem isAsciiDigit_digitChar {d : Nat} (h : d < 10) :
    isAsciiDigit (Nat.digitChar d) = true ∧ (Nat.digitChar d).toNat - 0x30 = d := by
  have : d = 0 ∨ d = 1 ∨ d = 2 ∨ d = 3 ∨ d = 4 ∨ d = 5 ∨ d = 6 ∨ d = 7 ∨ d = 8 ∨ d = 9 := by omega
  rcases this with rfl | rfl | rfl | rfl | rfl | rfl | rfl | rfl | rfl | rfl <;> decide

theorem digitsValue_append (s : Str) (c : Char) :
    digitsValue (s ++ [c]) = 10 * digitsValue s + (c.toNat - 0x30) := by
  simp [digitsValue, List.foldl_append]

/-- What is displayed is digits, and reads back. -/
theorem display_spec (n : Nat) :
    display n ≠ [] ∧ (∀ c ∈ display n, isAsciiDigit c = true) ∧ digitsValue (display n) = n := by
  induction n using Nat.strongRecOn with
  | ind n ih =>
      by_cases hn : n < 10
      · obtain ⟨h1, h2⟩ := isAsciiDigit_digitChar hn
        rw [display, Nat.toDigits_of_lt_base hn]
        refine ⟨by simp, by simpa using h1, by simpa [digitsValue] using h2⟩
      · have hlast : n % 10 < 10 := Nat.mod_lt n (by decide)
        obtain ⟨h1, h2⟩ := isAsciiDigit_digitChar hlast
        obtain ⟨-, ih1, ih2⟩ := ih (n / 10) (by omega)
        have hsplit : display n = display (n / 10) ++ [Nat.digitChar (n % 10)] := by
          rw [display, display]
          exact Nat.toDigits_of_base_le (by decide) (by omega)
        rw [hsplit]
        refine ⟨by simp, ?_, ?_⟩
        · intro c hc
          rcases List.mem_append.mp hc with hc | hc
          · exact ih1 c hc
          · rw [List.mem_singleton.mp hc]
            exact h1
        · rw [digitsValue_append, ih2, h2]
          omega

theorem trim_display (n : Nat) : trim (display n) = display n := by
  refine trim_of_no_whitespace fun c hc => ?_
  have hdigit := (display_spec n).2.1 c hc
  simp only [isAsciiDigit, Bool.and_eq_true, decide_eq_true_eq] at hdigit
  simp only [isWhitespace, Bool.or_eq_false_iff, Bool.and_eq_false_iff, decide_eq_false_iff_not,
    beq_eq_false_iff_ne]
  omega

/-- Digits have no sign before them. -/
theorem stripPrefix_of_digits {s : Str} {sign : Char} (hsign : isAsciiDigit sign = false)
    (hdigits : ∀ c ∈ s, isAsciiDigit c = true) : stripPrefix [sign] s = none := by
  cases s with
  | nil => rfl
  | cons c cs =>
      have hc : isAsciiDigit c = true := hdigits c List.mem_cons_self
      have : sign ≠ c := by
        rintro rfl
        rw [hc] at hsign
        cases hsign
      simp [stripPrefix, this]

/-- What `parse::<u64>` makes of digits. -/
theorem parseU64_of_digits {s : Str} (hne : s ≠ []) (hdigits : ∀ c ∈ s, isAsciiDigit c = true) :
    parseU64 s =
      if digitsValue s < 18446744073709551616 then some (UInt64.ofNat (digitsValue s)) else none := by
  have hplus : stripPrefix ['+'] s = none := stripPrefix_of_digits (by decide) hdigits
  have hall : s.all isAsciiDigit = true := List.all_eq_true.mpr hdigits
  simp only [parseU64, hplus, Option.getD_none, hne, hall, ne_eq, not_false_eq_true, true_and]

/-- A number that is displayed is read back, if it is in range. -/
theorem parseU64_displayed (n : Nat) :
    parseU64 (display n) = if n < 18446744073709551616 then some (UInt64.ofNat n) else none := by
  obtain ⟨hne, hdigits, hvalue⟩ := display_spec n
  rw [parseU64_of_digits hne hdigits, hvalue]

theorem parseU64_display (n : UInt64) : parseU64 (display n.toNat) = some n := by
  rw [parseU64_displayed, if_pos n.toNat_lt, UInt64.ofNat_toNat]

/-! ## Errors -/

/-- Errors of the protocol layer. -/
inductive ProtoError where
  | malformedStatusLine (line : Str)
  | missingField (context field : Str)
  | invalidNumber (context value : Str)
  | illegalCommandArgument (command : Str)
  | unpostableDraft (problems : Str)
  | commandTooLong (command : Str) (len : Nat)
  | invalidMessageId (value : Str)
  | invalidGroupName (value : Str)
  | invalidHeaderName (value : Str)
  | invalidWildmat (value : Str)
  | invalidDate (value : Str)
  deriving DecidableEq, Repr

end Nntp.Proto
