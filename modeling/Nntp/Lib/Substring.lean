import Mathlib.Data.List.DropRight
import Mathlib.Data.List.Infix

/-!
# Substrings

The first occurrence of a pattern in a list, with what stands before and after it, and trimming at the end.
-/

namespace Nntp.Lib

variable {α : Type*}

/-- Trimming at the end stops at what is not trimmed. -/
theorem rdropWhile_behind {p : α → Bool} {s : List α} (h : ∀ c ∈ s.getLast?, p c = false) (t : List α) :
    (s ++ t).rdropWhile p = s ++ t.rdropWhile p := by
  induction t using List.reverseRecOn with
  | nil =>
      rw [List.append_nil, List.rdropWhile_nil, List.append_nil, List.rdropWhile_eq_self_iff]
      intro hne htrimmed
      rw [h _ (List.getLast?_eq_some_getLast hne)] at htrimmed
      cases htrimmed
  | append_singleton t c ih =>
      rw [← List.append_assoc, List.rdropWhile_concat, List.rdropWhile_concat, ih]
      cases hc : p c <;> simp

/-- What has no separator ends before it. -/
theorem prefix_of_separated {pattern s t : List α} {sep : α} (hsep : sep ∉ pattern)
    (h : pattern <+: s ++ sep :: t) : pattern <+: s := by
  by_cases hlength : pattern.length ≤ s.length
  · exact List.prefix_of_prefix_length_le h (List.prefix_append _ _) hlength
  · have hlonger : s ++ [sep] <+: s ++ sep :: t := ⟨t, by simp⟩
    have hinside : s ++ [sep] <+: pattern :=
      List.prefix_of_prefix_length_le hlonger h (by rw [List.length_append, List.length_singleton]; omega)
    exact absurd (hinside.subset (by simp)) hsep

variable [DecidableEq α]

/-- `split_once` with a pattern: what stands before its first occurrence, and what stands after it. -/
def splitAround (pattern : List α) : List α → Option (List α × List α)
  | [] => if pattern = [] then some ([], []) else none
  | c :: cs =>
      if pattern <+: c :: cs then some ([], (c :: cs).drop pattern.length)
      else (splitAround pattern cs).map fun r => (c :: r.1, r.2)

section First

variable {pattern s t front rest : List α} {c : α}

theorem splitAround_here (pattern rest : List α) : splitAround pattern (pattern ++ rest) = some ([], rest) := by
  cases hs : pattern ++ rest with
  | nil =>
      obtain ⟨rfl, rfl⟩ := List.append_eq_nil_iff.mp hs
      rfl
  | cons c cs =>
      have hprefix : pattern <+: c :: cs := ⟨rest, hs⟩
      rw [splitAround, if_pos hprefix, ← hs, List.drop_left]

theorem splitAround_skip (h : ¬ pattern <+: c :: s) :
    splitAround pattern (c :: s) = (splitAround pattern s).map fun r => (c :: r.1, r.2) := by
  rw [splitAround, if_neg h]

/-- Nothing is found where the pattern does not occur, and only there. -/
theorem splitAround_eq_none : splitAround pattern s = none ↔ ¬ pattern <:+: s := by
  induction s with
  | nil =>
      rw [splitAround, List.infix_nil]
      by_cases h : pattern = [] <;> simp [h]
  | cons c s ih =>
      rw [List.infix_cons_iff, not_or, ← ih]
      by_cases h : pattern <+: c :: s
      · simp [splitAround, h]
      · simp [splitAround_skip h, h]

theorem splitAround_eq_some (h : splitAround pattern s = some (front, rest)) : s = front ++ pattern ++ rest := by
  induction s generalizing front with
  | nil =>
      rw [splitAround] at h
      by_cases hnil : pattern = []
      · rw [if_pos hnil] at h
        cases h
        simp [hnil]
      · rw [if_neg hnil] at h
        cases h
  | cons c s ih =>
      by_cases hprefix : pattern <+: c :: s
      · obtain ⟨more, hmore⟩ := hprefix
        rw [← hmore, splitAround_here] at h
        cases h
        exact hmore.symm
      · rw [splitAround_skip hprefix] at h
        obtain ⟨⟨before, after⟩, hlater, heq⟩ := Option.map_eq_some_iff.mp h
        cases heq
        rw [ih hlater]
        rfl

/-- What is found in a list is found in a longer one. -/
theorem splitAround_append (h : splitAround pattern s = some (front, rest)) (t : List α) :
    splitAround pattern (s ++ t) = some (front, rest ++ t) := by
  induction s generalizing front with
  | nil =>
      rw [splitAround] at h
      by_cases hnil : pattern = []
      · rw [if_pos hnil] at h
        cases h
        rw [hnil]
        exact splitAround_here [] t
      · rw [if_neg hnil] at h
        cases h
  | cons c s ih =>
      by_cases hprefix : pattern <+: c :: s
      · obtain ⟨more, hmore⟩ := hprefix
        rw [← hmore, splitAround_here] at h
        cases h
        rw [← hmore, List.append_assoc, splitAround_here]
      · rw [splitAround_skip hprefix] at h
        obtain ⟨⟨before, after⟩, hlater, heq⟩ := Option.map_eq_some_iff.mp h
        cases heq
        -- the pattern is not longer than what it is found in
        have hlength : pattern.length ≤ (c :: s).length := by
          rw [splitAround_eq_some hlater]
          simp only [List.length_append, List.length_cons]
          omega
        have hskip : ¬ pattern <+: c :: (s ++ t) := fun hlonger =>
          hprefix (List.prefix_of_prefix_length_le hlonger (List.prefix_append _ _) hlength)
        rw [List.cons_append, splitAround_skip hskip, ih hlater]
        rfl

/-- The search passes over what cannot begin an occurrence. -/
theorem splitAround_skip_all (hpattern : pattern ≠ []) (h : ∀ c ∈ s, pattern.head? ≠ some c) (t : List α) :
    splitAround pattern (s ++ t) = (splitAround pattern t).map fun r => (s ++ r.1, r.2) := by
  induction s with
  | nil => simp
  | cons c s ih =>
      have hskip : ¬ pattern <+: c :: (s ++ t) := by
        intro hprefix
        obtain ⟨first, more, rfl⟩ := List.exists_cons_of_ne_nil hpattern
        obtain ⟨rfl, -⟩ := List.cons_prefix_cons.mp hprefix
        exact h first List.mem_cons_self rfl
      rw [List.cons_append, splitAround_skip hskip, ih fun d hd => h d (List.mem_cons_of_mem _ hd)]
      simp [Function.comp_def]

/-- An occurrence is not in front of the first one. -/
theorem splitAround_first {before after : List α} (h : splitAround pattern (before ++ pattern ++ after) = some (front, rest)) :
    after <:+ rest := by
  induction before generalizing front with
  | nil =>
      rw [List.nil_append, splitAround_here] at h
      cases h
      exact List.suffix_refl _
  | cons c before ih =>
      have hwhole : c :: before ++ pattern ++ after = c :: (before ++ pattern ++ after) := by simp
      rw [hwhole] at h
      by_cases hprefix : pattern <+: c :: (before ++ pattern ++ after)
      · obtain ⟨more, hmore⟩ := hprefix
        rw [← hmore, splitAround_here] at h
        cases h
        -- both end the list, and `after` is the shorter one
        have hlength := congrArg List.length hmore
        simp only [List.length_append, List.length_cons] at hlength
        have hafter : after <:+ pattern ++ rest := by
          rw [hmore]
          exact ⟨c :: (before ++ pattern), by simp⟩
        exact List.suffix_of_suffix_length_le hafter (List.suffix_append _ _) (by omega)
      · rw [splitAround_skip hprefix] at h
        obtain ⟨⟨earlier, later⟩, hfound, heq⟩ := Option.map_eq_some_iff.mp h
        cases heq
        exact ih hfound

/-- Nothing is found across a separator that the pattern does not have. -/
theorem splitAround_separated {sep : α} (hpattern : pattern ≠ []) (hsep : sep ∉ pattern) (h : ¬ pattern <:+: s)
    (t : List α) :
    splitAround pattern (s ++ sep :: t) = (splitAround pattern t).map fun r => (s ++ sep :: r.1, r.2) := by
  induction s with
  | nil =>
      have hfirst : ∀ c ∈ [sep], pattern.head? ≠ some c := by
        intro c hc hhead
        rw [List.mem_singleton.mp hc] at hhead
        exact hsep (List.mem_of_mem_head? hhead)
      exact splitAround_skip_all hpattern hfirst t
  | cons c s ih =>
      rw [List.infix_cons_iff, not_or] at h
      have hskip : ¬ pattern <+: c :: (s ++ sep :: t) := fun hlonger =>
        h.1 (prefix_of_separated (s := c :: s) hsep hlonger)
      rw [List.cons_append, splitAround_skip hskip, ih h.2]
      simp [Function.comp_def]

end First

end Nntp.Lib
