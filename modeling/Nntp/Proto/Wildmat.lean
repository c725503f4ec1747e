import Nntp.Lib.LastSome
import Nntp.Proto.Text

/-!
# Wildmat patterns

`Wildmat` of `command.rs`: a comma-separated list of sub-patterns, of which the last that matches
decides.
-/

namespace Nntp.Proto

open Nntp.Lib

/-- The longest pattern that may be sent. -/
def Wildmat.maxLen : Nat := 400

/-- What `Wildmat::parse` requires: not empty, not too long, printable US-ASCII only. -/
def Wildmat.isWellFormed (pattern : Str) : Bool :=
  !pattern.isEmpty && decide (utf8Len pattern ≤ Wildmat.maxLen) && pattern.all isAsciiGraphic

/-- A wildmat pattern, used to narrow `LIST` output. -/
structure Wildmat where
  asStr : Str
  wellFormed : Wildmat.isWellFormed asStr = true
  deriving DecidableEq, Repr

/-- Passing a `*` or a character brings the end of the pattern nearer. -/
theorem matchWork_advance {len p n resume total : Nat} (hp : p < len) (hresume : resume ≤ n) :
    (total - n) * (len + 1) + (len - (p + 1)) < (total - resume) * (len + 1) + (len - p) := by
  have := Nat.mul_le_mul_right (len + 1) (show total - n ≤ total - resume by omega)
  omega

/-- Giving a `*` one more character brings the end of the name nearer. -/
theorem matchWork_retry {len p q resume total : Nat} (hresume : resume < total) :
    (total - (resume + 1)) * (len + 1) + (len - q) < (total - resume) * (len + 1) + (len - p) := by
  have hsplit : total - resume = (total - (resume + 1)) + 1 := by omega
  rw [hsplit, Nat.succ_mul]
  omega

/-- The loop of `matches_one`: `p` and `n` are the positions in the pattern and the name, `star` the
last `*` passed and `resume` the position it takes characters up to. -/
def matchLoop (pattern name : Str) (p n : Nat) (star : Option Nat) (resume : Nat)
    (hresume : resume ≤ n) : Bool :=
  if _hn : n < name.length then
    match _hp : pattern[p]? with
    | some c =>
        if c = '*' then matchLoop pattern name (p + 1) n (some p) n (Nat.le_refl n)
        else if c = '?' ∨ some c = name[n]? then
          matchLoop pattern name (p + 1) (n + 1) star resume (Nat.le_succ_of_le hresume)
        else
          match star with
          | some index =>
              matchLoop pattern name (index + 1) (resume + 1) star (resume + 1) (Nat.le_refl _)
          | none => false
    | none =>
        match star with
        | some index =>
            matchLoop pattern name (index + 1) (resume + 1) star (resume + 1) (Nat.le_refl _)
        | none => false
  else
    -- trailing stars may match nothing at all
    ((pattern.drop p).dropWhile (· == '*')).isEmpty
termination_by (name.length - resume) * (pattern.length + 1) + (pattern.length - p)
decreasing_by
  · exact matchWork_advance (List.getElem?_eq_some_iff.mp _hp).1 hresume
  · exact matchWork_advance (List.getElem?_eq_some_iff.mp _hp).1 (Nat.le_refl resume)
  · exact matchWork_retry (Nat.lt_of_le_of_lt hresume _hn)
  · exact matchWork_retry (Nat.lt_of_le_of_lt hresume _hn)

/-- Matches one `*`/`?` sub-pattern against a name. -/
def matchesOne (pattern name : Str) : Bool := matchLoop pattern name 0 0 none 0 (Nat.le_refl 0)

/-- The sub-patterns of a pattern. -/
def subPatterns (pattern : Str) : List Str :=
  let pieces := splitAll (· == ',') pattern
  pieces.1 :: pieces.2

/-- What one sub-pattern says about a name: kept, excluded, or nothing. -/
def verdict (name item : Str) : Option Bool :=
  match stripPrefix ['!'] item with
  | some rest => if matchesOne rest name then some false else none
  | none => if matchesOne item name then some true else none

/-- The loop of `Wildmat::matches` over the text of a pattern. -/
def matchesText (pattern name : Str) : Bool :=
  (subPatterns pattern).foldl (fun matched item => (verdict name item).getD matched) false

/-- The text of several patterns in one. -/
def joinText (patterns : List Str) : Str := (patterns.intersperse [',']).flatten

namespace Wildmat

/-- Validates and wraps a pattern. -/
def parse (pattern : Str) : Except ProtoError Wildmat :=
  if h : isWellFormed pattern = true then .ok ⟨pattern, h⟩ else .error (.invalidWildmat pattern)

/-- A pattern matching any name containing `text`. -/
def containing (text : Str) : Except ProtoError Wildmat := parse ('*' :: text ++ ['*'])

/-- Joins patterns into one, in comma-separated form; no patterns make no pattern. -/
def join (patterns : List Wildmat) : Except ProtoError (Option Wildmat) :=
  if patterns.isEmpty then .ok none else (parse (joinText (patterns.map asStr))).map some

/-- Whether `name` matches this pattern: the last sub-pattern that matches decides. -/
def matchesName (w : Wildmat) (name : Str) : Bool := matchesText w.asStr name

end Wildmat

/-! ## The last sub-pattern that matches decides -/

/-- What the sub-patterns of one pattern say about a name, taken together. -/
def ruling (name pattern : Str) : Option Bool := lastSome ((subPatterns pattern).map (verdict name))

theorem matchesText_iff (pattern name : Str) :
    matchesText pattern name = true ↔ ruling name pattern = some true := by
  have hfold : ∀ (items : List Str) (matched : Bool),
      items.foldl (fun matched item => (verdict name item).getD matched) matched =
        (lastSome (items.map (verdict name))).getD matched := by
    intro items
    induction items with
    | nil => exact fun _ => rfl
    | cons item items ih =>
        intro matched
        rw [List.foldl_cons, ih, List.map_cons, lastSome_cons]
        cases lastSome (items.map (verdict name)) <;> rfl
  unfold matchesText ruling
  rw [hfold]
  cases lastSome ((subPatterns pattern).map (verdict name)) with
  | none => simp
  | some b => simp

theorem subPatterns_append (s t : Str) :
    subPatterns (s ++ ',' :: t) = subPatterns s ++ subPatterns t := by
  induction s with
  | nil => simp [subPatterns, splitAll]
  | cons c cs ih =>
      simp only [subPatterns, List.cons_append, List.cons.injEq] at ih
      obtain ⟨ih1, ih2⟩ := ih
      by_cases hc : c = ','
      · simp [subPatterns, splitAll, hc, ih1, ih2]
      · have : (c == ',') = false := by simpa using hc
        simp [subPatterns, splitAll, this, ih1, ih2]

/-- The sub-patterns of several patterns joined are theirs, in order. -/
theorem subPatterns_joinText {patterns : List Str} (hne : patterns ≠ []) :
    subPatterns (joinText patterns) = patterns.flatMap subPatterns := by
  induction patterns with
  | nil => exact absurd rfl hne
  | cons p ps ih =>
      cases ps with
      | nil => simp [joinText]
      | cons q qs =>
          have hjoin : joinText (p :: q :: qs) = p ++ ',' :: joinText (q :: qs) := by
            simp [joinText]
          rw [hjoin, subPatterns_append, ih (by simp)]
          rfl

/-- Joined patterns rule as the last of them that rules. -/
theorem ruling_joinText (name : Str) {patterns : List Str} (hne : patterns ≠ []) :
    ruling name (joinText patterns) = lastSome (patterns.map (ruling name)) := by
  unfold ruling
  rw [subPatterns_joinText hne, List.map_flatMap, lastSome_flatMap]

/-! ## Joining -/

/-- The length of several texts joined with commas. -/
def joinedLen : List Nat → Nat
  | [] => 0
  | [len] => len
  | len :: lens => len + 1 + joinedLen lens

theorem joinedLen_append {lens : List Nat} (hne : lens ≠ []) (len : Nat) :
    joinedLen (lens ++ [len]) = joinedLen lens + (len + 1) := by
  induction lens with
  | nil => exact absurd rfl hne
  | cons n ns ih =>
      cases ns with
      | nil =>
          show n + 1 + len = n + (len + 1)
          omega
      | cons m ms =>
          have := ih (by simp)
          show n + 1 + joinedLen (m :: ms ++ [len]) = n + 1 + joinedLen (m :: ms) + (len + 1)
          omega

theorem utf8Len_joinText (patterns : List Str) :
    utf8Len (joinText patterns) = joinedLen (patterns.map utf8Len) := by
  induction patterns with
  | nil => rfl
  | cons p ps ih =>
      cases ps with
      | nil => simp [joinText, joinedLen]
      | cons q qs =>
          have hjoin : joinText (p :: q :: qs) = p ++ ',' :: joinText (q :: qs) := by
            simp [joinText]
          rw [hjoin, utf8Len_append, utf8Len_cons, ih, utf8Size_of_graphic (by decide)]
          show _ = utf8Len p + 1 + joinedLen ((q :: qs).map utf8Len)
          omega

theorem all_joinText {patterns : List Str} (h : ∀ p ∈ patterns, p.all isAsciiGraphic = true) :
    (joinText patterns).all isAsciiGraphic = true := by
  induction patterns with
  | nil => rfl
  | cons p ps ih =>
      have hp := h p (by simp)
      cases ps with
      | nil => simpa [joinText] using hp
      | cons q qs =>
          have hjoin : joinText (p :: q :: qs) = p ++ ',' :: joinText (q :: qs) := by
            simp [joinText]
          have hrest := ih fun r hr => h r (by simp [hr])
          rw [hjoin, List.all_append, List.all_cons, hp, hrest]
          rfl

namespace Wildmat

theorem wellFormed_iff {pattern : Str} : isWellFormed pattern = true ↔
    (pattern ≠ [] ∧ utf8Len pattern ≤ maxLen) ∧ pattern.all isAsciiGraphic = true := by
  simp [isWellFormed]

/-- Patterns whose text fits are joined. -/
theorem join_of_fits {patterns : List Wildmat} (hne : patterns ≠ [])
    (hfits : joinedLen (patterns.map fun w => utf8Len w.asStr) ≤ maxLen) :
    ∃ w, join patterns = .ok (some w) ∧ w.asStr = joinText (patterns.map asStr) := by
  have hwell : isWellFormed (joinText (patterns.map asStr)) = true := by
    refine wellFormed_iff.mpr ⟨⟨?_, ?_⟩, all_joinText ?_⟩
    · obtain ⟨p, ps, rfl⟩ := List.exists_cons_of_ne_nil hne
      have hp := (wellFormed_iff.mp p.wellFormed).1.1
      cases ps with
      | nil => simpa [joinText] using hp
      | cons q qs => simp [joinText]
    · rw [utf8Len_joinText, List.map_map]
      exact hfits
    · intro s hs
      obtain ⟨w, -, rfl⟩ := List.mem_map.mp hs
      exact (wellFormed_iff.mp w.wellFormed).2
  refine ⟨⟨joinText (patterns.map asStr), hwell⟩, ?_, rfl⟩
  unfold join parse
  rw [if_neg (by simpa using hne), dif_pos hwell]
  rfl

end Wildmat

end Nntp.Proto
