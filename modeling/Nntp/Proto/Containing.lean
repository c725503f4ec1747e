import Nntp.Proto.Group
import Nntp.Proto.Matching

/-!
# Searching for a text

`Wildmat::containing` puts a text between two stars. What the pattern selects is said first for every
pattern, by what its comma-separated pieces derive (`Selects`). The stars make a substring search of a text
without operators; a star, a question mark or a comma in the text is an operator like any other, and no
group name contains one.
-/

namespace Nntp.Proto

open Nntp.Lib Glob

/-! ## What a pattern selects -/

/-- A piece that keeps the names it derives. -/
def KeepsName (item name : Str) : Prop := item.head? ≠ some '!' ∧ Derives (item.map globOf) name

/-- A piece with an exclamation mark excludes the names it derives. -/
def ExcludesName (item name : Str) : Prop := ∃ rest, item = '!' :: rest ∧ Derives (rest.map globOf) name

/-- Some piece keeps the name, and no piece behind it excludes it. -/
def Selects (items : List Str) (name : Str) : Prop :=
  ∃ (i : Nat) (item : Str), items[i]? = some item ∧ KeepsName item name ∧
    ∀ j > i, ∀ later, items[j]? = some later → ¬ ExcludesName later name

theorem stripPrefix_bang (item : Str) :
    (∃ rest, item = '!' :: rest ∧ stripPrefix ['!'] item = some rest) ∨
      (item.head? ≠ some '!' ∧ stripPrefix ['!'] item = none) := by
  cases item with
  | nil => exact Or.inr ⟨by simp, rfl⟩
  | cons c rest =>
      by_cases hc : c = '!'
      · subst hc
        exact Or.inl ⟨rest, rfl, rfl⟩
      · refine Or.inr ⟨by simpa using hc, ?_⟩
        simp [stripPrefix, Ne.symm hc]

theorem verdict_true {item name : Str} : verdict name item = some true ↔ KeepsName item name := by
  unfold verdict KeepsName
  rcases stripPrefix_bang item with ⟨rest, rfl, hstrip⟩ | ⟨hhead, hstrip⟩
  · rw [hstrip]
    simp
  · rw [hstrip]
    have hmatches : matchesOne item name = true ↔ Derives (item.map globOf) name :=
      matchLoop_iff item name 0 0 none 0 (Nat.le_refl 0) .nothing
    simp [hhead, hmatches]

theorem verdict_false {item name : Str} : verdict name item = some false ↔ ExcludesName item name := by
  unfold verdict ExcludesName
  rcases stripPrefix_bang item with ⟨rest, rfl, hstrip⟩ | ⟨hhead, hstrip⟩
  · rw [hstrip]
    have hmatches : matchesOne rest name = true ↔ Derives (rest.map globOf) name :=
      matchLoop_iff rest name 0 0 none 0 (Nat.le_refl 0) .nothing
    simp [hmatches]
  · rw [hstrip]
    constructor
    · intro h
      simp at h
    · rintro ⟨rest, rfl, -⟩
      exact absurd rfl hhead

/-- **What `matches` decides.** -/
theorem matchesText_iff_selects (pattern name : Str) :
    matchesText pattern name = true ↔ Selects (subPatterns pattern) name := by
  rw [matchesText_iff, ruling, ← not_iff_not, ← ne_eq, lastSome_ne_true_iff]
  simp only [List.getElem?_map, Option.map_eq_some_iff, verdict_true, verdict_false]
  unfold Selects
  constructor
  · rintro hall ⟨i, item, hitem, hkeeps, hafter⟩
    obtain ⟨j, hj, later, hlater, hexcludes⟩ := hall i ⟨item, hitem, hkeeps⟩
    exact hafter j hj later hlater hexcludes
  · rintro hnone i ⟨item, hitem, hkeeps⟩
    by_contra hno
    refine hnone ⟨i, item, hitem, hkeeps, fun j hj later hlater hexcludes => ?_⟩
    exact hno ⟨j, hj, later, hlater, hexcludes⟩

/-! ## A text between two stars -/

/-- The characters of a pattern that do not stand for themselves. -/
def isOperator (c : Char) : Bool := c == '*' || c == '?' || c == ','

/-- The text of the pattern of `Wildmat::containing`. -/
def starred (text : Str) : Str := '*' :: text ++ ['*']

theorem containing_asStr {text : Str} {w : Wildmat} (h : Wildmat.containing text = .ok w) :
    w.asStr = starred text := by
  unfold Wildmat.containing Wildmat.parse at h
  split at h
  · cases h
    rfl
  · cases h

theorem map_globOf_starred (text : Str) :
    (starred text).map globOf = .run :: (text.map globOf ++ [.run]) := by
  simp [starred, globOf_star]

/-- Without a comma there is one piece. -/
theorem selects_starred {text : Str} (h : ',' ∉ text) (name : Str) :
    Selects (subPatterns (starred text)) name ↔ Derives (.run :: (text.map globOf ++ [.run])) name := by
  have hcomma : ∀ c ∈ starred text, (c == ',') = false := by
    apply beq_of_not_mem
    simpa [starred] using h
  have hpieces : subPatterns (starred text) = [starred text] := by
    unfold subPatterns
    rw [splitAll_of_none hcomma]
  rw [hpieces, ← map_globOf_starred]
  constructor
  · rintro ⟨i, item, hitem, hkeeps, -⟩
    rw [List.mem_singleton.mp (List.mem_of_getElem? hitem)] at hkeeps
    exact hkeeps.2
  · intro h
    refine ⟨0, starred text, rfl, ⟨by simp [starred], h⟩, fun j hj later hlater => ?_⟩
    rw [List.getElem?_eq_none (Nat.succ_le_of_lt hj)] at hlater
    cases hlater

/-- Nothing but operators stands for something else than itself. -/
theorem map_globOf_plain {text : Str} (h : ∀ c ∈ text, isOperator c = false) :
    text.map globOf = text.map .letter := by
  apply List.map_congr_left
  intro c hc
  have := h c hc
  unfold isOperator at this
  unfold globOf
  grind

theorem matches_plain {text : Str} (h : ∀ c ∈ text, isOperator c = false) (name : Str) :
    Selects (subPatterns (starred text)) name ↔ text <:+: name := by
  have hcomma : ',' ∉ text := fun hmem => absurd (h _ hmem) (by decide)
  rw [selects_starred hcomma, map_globOf_plain h, derives_infix]

/-! ## Group names -/

/-- What a group name has no character of. -/
theorem GroupName.plain (name : GroupName) {c : Char} (hc : c ∈ name.asStr) :
    isAsciiGraphic c = true ∧ c ≠ '*' ∧ c ≠ '?' ∧ c ≠ ',' ∧ c ≠ '!' ∧ c ≠ '\\' := by
  have hwell := name.wellFormed
  unfold GroupName.isWellFormed at hwell
  rw [Bool.and_eq_true, List.all_eq_true] at hwell
  have := hwell.2 c hc
  grind

/-- No group name contains an operator. -/
theorem not_infix_of_operator {text : Str} {c : Char} (hc : c ∈ text) (hop : isOperator c = true)
    (name : GroupName) : ¬ text <:+: name.asStr := by
  intro hwithin
  have hplain := name.plain (hwithin.subset hc)
  unfold isOperator at hop
  grind

/-- A text with every star left out and every question mark filled in. -/
def filled (text : Str) : Str :=
  text.flatMap fun c => if c = '*' then [] else if c = '?' then ['a'] else [c]

theorem derives_filled (text : Str) : Derives (text.map globOf) (filled text) := by
  induction text with
  | nil => exact .nil
  | cons c text ih =>
      have hfirst : Derives [globOf c] (if c = '*' then [] else if c = '?' then ['a'] else [c]) := by
        unfold globOf
        split
        · exact .run [] .nil
        · split
          · exact .one 'a' .nil
          · exact .letter c .nil
      exact hfirst.append ih

theorem mem_filled {text : Str} {c : Char} (h : c ∈ filled text) : c = 'a' ∨ (c ∈ text ∧ c ≠ '*' ∧ c ≠ '?') := by
  obtain ⟨d, hd, hc⟩ := List.mem_flatMap.mp h
  split at hc
  · cases hc
  · next hstar =>
      split at hc
      · exact Or.inl (List.mem_singleton.mp hc)
      · next hone =>
          rw [List.mem_singleton.mp hc]
          exact Or.inr ⟨hd, hstar, hone⟩

theorem utf8Len_filled (text : Str) : utf8Len (filled text) ≤ utf8Len text := by
  induction text with
  | nil => exact Nat.le_refl 0
  | cons c text ih =>
      have hfirst : utf8Len (if c = '*' then [] else if c = '?' then ['a'] else [c]) ≤ c.utf8Size := by
        split
        · exact Nat.zero_le _
        · split
          · next hone =>
              rw [hone]
              decide
          · simp
      have hsplit : filled (c :: text) =
          (if c = '*' then [] else if c = '?' then ['a'] else [c]) ++ filled text := List.flatMap_cons
      rw [hsplit, utf8Len_append, utf8Len_cons]
      exact Nat.add_le_add hfirst ih

/-- The filled text is found in a group name, if it has nothing in it that a group name cannot have. -/
theorem exists_filled {text : Str} (hlen : utf8Len text < maxGroupNameLen)
    (hgraphic : text.all isAsciiGraphic = true) (hcomma : ',' ∉ text) (hbang : '!' ∉ text)
    (hslash : '\\' ∉ text) : ∃ name : GroupName, name.asStr = 'a' :: filled text := by
  have hshort : utf8Len ('a' :: filled text) ≤ maxGroupNameLen := by
    rw [utf8Len_cons, utf8Size_of_graphic (by decide)]
    have := utf8Len_filled text
    omega
  have hall : ∀ c ∈ 'a' :: filled text, isAsciiGraphic c = true ∧
      (c == '*' || c == '?' || c == ',' || c == '!' || c == '\\') = false := by
    intro c hc
    have hcases : c = 'a' ∨ (c ∈ text ∧ c ≠ '*' ∧ c ≠ '?') := by
      rcases List.mem_cons.mp hc with hc | hc
      · exact Or.inl hc
      · exact mem_filled hc
    rcases hcases with rfl | ⟨hmem, hstar, hone⟩
    · decide
    · refine ⟨List.all_eq_true.mp hgraphic c hmem, ?_⟩
      simp only [Bool.or_eq_false_iff, beq_eq_false_iff_ne]
      refine ⟨⟨⟨⟨hstar, hone⟩, ?_⟩, ?_⟩, ?_⟩
      · exact fun heq => hcomma (heq ▸ hmem)
      · exact fun heq => hbang (heq ▸ hmem)
      · exact fun heq => hslash (heq ▸ hmem)
  refine ⟨⟨'a' :: filled text, ?_⟩, rfl⟩
  unfold GroupName.isWellFormed
  rw [Bool.and_eq_true, Bool.and_eq_true, List.all_eq_true]
  refine ⟨⟨rfl, decide_eq_true hshort⟩, fun c hc => ?_⟩
  obtain ⟨hc, hother⟩ := hall c hc
  rw [hc, hother]
  rfl

/-! ## The search -/

section Search

variable {text : Str} {w : Wildmat}

/-- What an accepted text is. -/
theorem containing_ok (h : Wildmat.containing text = .ok w) :
    utf8Len text < maxGroupNameLen ∧ text.all isAsciiGraphic = true := by
  have hwell := Wildmat.wellFormed_iff.mp (containing_asStr h ▸ w.wellFormed)
  obtain ⟨⟨-, hlen⟩, hgraphic⟩ := hwell
  constructor
  · have hsplit : utf8Len (starred text) = utf8Len text + 2 := by
      simp [starred, utf8Size_of_graphic (show isAsciiGraphic '*' = true from rfl)]
      omega
    rw [hsplit] at hlen
    exact Nat.lt_of_lt_of_le (Nat.lt_of_lt_of_le (Nat.lt_add_of_pos_right (by decide)) hlen) (by decide)
  · simp only [starred, List.cons_append, List.all_cons, List.all_append, Bool.and_eq_true] at hgraphic
    exact hgraphic.2.1

/-- A text with a star or a question mark, but without a comma, finds a name that does not contain it,
unless some other character of it is in no group name. -/
theorem finds_filled (h : Wildmat.containing text = .ok w) (hcomma : ',' ∉ text) (hbang : '!' ∉ text)
    (hslash : '\\' ∉ text) : ∃ name : GroupName, Selects (subPatterns (starred text)) name.asStr := by
  obtain ⟨hlen, hgraphic⟩ := containing_ok h
  obtain ⟨name, hname⟩ := exists_filled hlen hgraphic hcomma hbang hslash
  refine ⟨name, (selects_starred hcomma _).mpr ?_⟩
  have hrun : Derives (text.map globOf ++ [.run]) (filled text ++ []) :=
    (derives_filled text).append (.run [] .nil)
  rw [List.append_nil] at hrun
  rw [hname]
  exact .run ['a'] hrun

/-- A text with a character of its own that is in no group name finds nothing. -/
theorem finds_nothing (hcomma : ',' ∉ text) {c : Char} (hc : c ∈ text) (hspecial : c = '!' ∨ c = '\\')
    (name : GroupName) : ¬ Selects (subPatterns (starred text)) name.asStr := by
  rw [selects_starred hcomma]
  intro hderives
  have hletter : globOf c = .letter c := by
    rcases hspecial with rfl | rfl <;> rfl
  have hmem : .letter c ∈ Glob.run :: (text.map globOf ++ [.run]) := by
    apply List.mem_cons_of_mem
    apply List.mem_append_left
    exact hletter ▸ List.mem_map_of_mem hc
  have hplain := name.plain (hderives.mem_of_letter hmem)
  grind

/-- **When a search finds the names that contain the text.** For one name: if the text has no operator, or
its pattern does not select the name. For every name, of a text without a comma: if it has no star and no
question mark, or has a character that no group name has. -/
theorem containing_finds_iff (h : Wildmat.containing text = .ok w) :
    (∀ name : GroupName, (w.matchesName name.asStr = true ↔ text <:+: name.asStr) ↔
        ((∀ c ∈ text, isOperator c = false) ∨ ¬ Selects (subPatterns (starred text)) name.asStr)) ∧
      (',' ∉ text → ((∀ name : GroupName, w.matchesName name.asStr = true ↔ text <:+: name.asStr) ↔
        (('*' ∉ text ∧ '?' ∉ text) ∨ '!' ∈ text ∨ '\\' ∈ text))) := by
  have hone : ∀ name : GroupName, (w.matchesName name.asStr = true ↔ text <:+: name.asStr) ↔
      ((∀ c ∈ text, isOperator c = false) ∨ ¬ Selects (subPatterns (starred text)) name.asStr) := by
    intro name
    unfold Wildmat.matchesName
    rw [containing_asStr h, matchesText_iff_selects]
    by_cases hplain : ∀ c ∈ text, isOperator c = false
    · exact iff_of_true (matches_plain hplain name.asStr) (Or.inl hplain)
    · have hnot : ¬ text <:+: name.asStr := by
        obtain ⟨c, hc⟩ := Classical.not_forall.mp hplain
        obtain ⟨hc, hop⟩ := Classical.not_imp.mp hc
        exact not_infix_of_operator hc (Bool.of_not_eq_false hop) name
      rw [iff_false_right hnot, or_iff_right hplain]
  refine ⟨hone, fun hcomma => ?_⟩
  simp only [hone]
  have hplain : (∀ c ∈ text, isOperator c = false) ↔ '*' ∉ text ∧ '?' ∉ text := by
    constructor
    · intro hall
      exact ⟨fun hmem => absurd (hall _ hmem) (by decide), fun hmem => absurd (hall _ hmem) (by decide)⟩
    · rintro ⟨hstar, hquestion⟩ c hc
      unfold isOperator
      grind
  constructor
  · intro hall
    by_contra hnone
    obtain ⟨hops, hother⟩ := not_or.mp hnone
    obtain ⟨hbang, hslash⟩ := not_or.mp hother
    obtain ⟨name, hselects⟩ := finds_filled h hcomma hbang hslash
    rcases hall name with hnoop | hnot
    · exact hops (hplain.mp hnoop)
    · exact hnot hselects
  · rintro (hops | hbang | hslash) name
    · exact Or.inl (hplain.mpr hops)
    · exact Or.inr (finds_nothing hcomma hbang (Or.inl rfl) name)
    · exact Or.inr (finds_nothing hcomma hslash (Or.inr rfl) name)

end Search

/-! ### A hierarchy typed into the search box -/

def langAda : GroupName where
  asStr := "comp.lang.ada".toList
  wellFormed := by decide

theorem containing_lang :
    matchesText "*lang*".toList langAda.asStr = true ↔ "lang".toList <:+: langAda.asStr := by
  have hok : Wildmat.containing "lang".toList = .ok ⟨"*lang*".toList, by decide⟩ := by decide
  exact ((containing_finds_iff hok).1 langAda).mpr (Or.inl (forall_of_all (by decide)))

/-- `comp.*` finds a group whose name does not contain it. -/
theorem containing_star : ¬ ∀ (text : Str) (w : Wildmat) (name : GroupName),
    Wildmat.containing text = .ok w → (w.matchesName name.asStr = true ↔ text <:+: name.asStr) := by
  intro hall
  have hiff := hall "comp.*".toList ⟨"*comp.**".toList, by decide⟩ langAda (by decide)
  have hmatches : Wildmat.matchesName ⟨"*comp.**".toList, by decide⟩ langAda.asStr = true := by decide +kernel
  exact not_infix_of_operator (c := '*') (by decide) rfl langAda (hiff.mp hmatches)

end Nntp.Proto
