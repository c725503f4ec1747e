import Nntp.Lib.Glob
import Nntp.Proto.Wildmat

/-!
# What a sub-pattern matches

`matches_one` walks a pattern and a name with one point to go back to: behind the last `*`. That is as good
as trying every way to divide the name among the stars.
-/

namespace Nntp.Proto

open Nntp.Lib Glob

/-- What a character of a sub-pattern stands for. -/
def globOf (c : Char) : Glob Char :=
  if c = '*' then .run else if c = '?' then .one else .letter c

theorem globOf_star : globOf '*' = .run := if_pos rfl

theorem globOf_eq_run {c : Char} : globOf c = .run ↔ c = '*' := by
  unfold globOf
  grind

theorem fits_globOf {c d : Char} (hc : c ≠ '*') : Glob.Fits (globOf c) d ↔ c = '?' ∨ c = d := by
  unfold globOf
  rw [if_neg hc]
  constructor
  · intro h
    split at h
    · next hone => exact Or.inl hone
    · cases h
      exact Or.inr rfl
  · intro h
    split
    · exact .one d
    · next hone =>
        rw [← h.resolve_left hone]
        exact .letter c

/-- Where the loop is, `rest` and `left` being what is still to come of the pattern and of the name: what
the last star was followed by and what it has left over have been matched to each other. -/
inductive Behind (globs : List (Glob Char)) (name : Str) (rest : List (Glob Char)) (left : Str) :
    Option Nat → Nat → Prop where
  | nothing {resume : Nat} : Behind globs name rest left none resume
  | star {index resume : Nat} {segment : List (Glob Char)} {matched : Str}
      (hstar : globs.drop index = .run :: (segment ++ rest)) (hname : name.drop resume = matched ++ left)
      (hfits : List.Forall₂ Glob.Fits segment matched) : Behind globs name rest left (some index) resume

/-- What the loop decides: whether the pattern from the last star on derives the name from where that star
takes characters up to. -/
def Sought (globs : List (Glob Char)) (name : Str) (rest : List (Glob Char)) (left : Str) :
    Option Nat → Nat → Prop
  | none, _ => Derives rest left
  | some index, resume => Derives (globs.drop index) (name.drop resume)

section Loop

variable {globs rest : List (Glob Char)} {name left : Str} {star : Option Nat} {resume p n : Nat}
  {g : Glob Char} {c : Char}

/-- Another star is passed. -/
theorem Behind.pass (h : Behind globs name (.run :: rest) left star resume)
    (hp : globs.drop p = .run :: rest) (hn : name.drop n = left) :
    Behind globs name rest left (some p) n ∧
      (Sought globs name rest left (some p) n ↔ Sought globs name (.run :: rest) left star resume) := by
  refine ⟨@Behind.star globs name rest left p n [] [] hp hn .nil, ?_⟩
  show Derives (globs.drop p) (name.drop n) ↔ _
  rw [hp, hn]
  cases h with
  | nothing => exact Iff.rfl
  | star hstar hname hfits =>
      show _ ↔ Derives (globs.drop _) (name.drop _)
      rw [hstar, hname, derives_forget hfits]

/-- One more character is matched. -/
theorem Behind.advance (h : Behind globs name (g :: rest) (c :: left) star resume) (hfits : Glob.Fits g c) :
    Behind globs name rest left star resume ∧
      (Sought globs name rest left star resume ↔ Sought globs name (g :: rest) (c :: left) star resume) := by
  cases h with
  | nothing => exact ⟨.nothing, (derives_fits hfits).symm⟩
  | star hstar hname hsegment =>
      refine ⟨.star ?_ ?_ (List.rel_append hsegment (.cons hfits .nil)), Iff.rfl⟩
      · rw [List.append_assoc]
        exact hstar
      · rw [List.append_assoc]
        exact hname

/-- Nothing fits here: the last star is given one more character. -/
theorem Behind.retry {index : Nat} (h : Behind globs name rest (c :: left) (some index) resume)
    (hfails : ¬ Derives rest (c :: left)) :
    Behind globs name (globs.drop (index + 1)) (name.drop (resume + 1)) (some index) (resume + 1) ∧
      (Sought globs name (globs.drop (index + 1)) (name.drop (resume + 1)) (some index) (resume + 1) ↔
        Sought globs name rest (c :: left) (some index) resume) := by
  cases h with
  | @star _ _ segment matched hstar hname hfits =>
      have htail : globs.drop (index + 1) = segment ++ rest := by
        rw [← List.tail_drop, hstar]
        rfl
      obtain ⟨a, v, hmatched⟩ : ∃ a v, matched ++ c :: left = a :: v :=
        List.exists_cons_of_ne_nil (List.append_ne_nil_of_right_ne_nil _ (List.cons_ne_nil _ _))
      have hnext : name.drop (resume + 1) = v := by
        rw [← List.tail_drop, hname, hmatched]
        rfl
      refine ⟨@Behind.star _ _ _ _ index _ [] [] (by rw [htail]; exact hstar) rfl .nil, ?_⟩
      show Derives (globs.drop index) (name.drop (resume + 1)) ↔ Derives (globs.drop index) (name.drop resume)
      rw [hstar, hname, hnext]
      exact (derives_retry hfits hmatched hfails).symm

/-- The name is used up. -/
theorem Behind.finish (h : Behind globs name rest [] star resume) :
    Sought globs name rest [] star resume ↔ Derives rest [] := by
  cases h with
  | nothing => exact Iff.rfl
  | star hstar hname hfits =>
      show Derives (globs.drop _) (name.drop _) ↔ _
      rw [hstar, hname, List.append_nil]
      exact derives_finish hfits

end Loop

/-- The stars at the end. -/
theorem trailing_stars (pattern : Str) :
    (pattern.dropWhile (· == '*')).isEmpty = true ↔ Derives (pattern.map globOf) [] := by
  rw [derives_empty, List.isEmpty_iff, List.dropWhile_eq_nil_iff, List.forall_mem_map]
  simp only [globOf_eq_run, beq_iff_eq]

theorem drop_of_getElem? {α : Type} {xs : List α} {i : Nat} {x : α} (h : xs[i]? = some x) :
    xs.drop i = x :: xs.drop (i + 1) := by
  obtain ⟨hlt, rfl⟩ := List.getElem?_eq_some_iff.mp h
  exact List.drop_eq_getElem_cons hlt

/-- **The loop** finds out what is sought. -/
theorem matchLoop_iff (pattern name : Str) (p n : Nat) (star : Option Nat) (resume : Nat)
    (hresume : resume ≤ n)
    (h : Behind (pattern.map globOf) name ((pattern.drop p).map globOf) (name.drop n) star resume) :
    matchLoop pattern name p n star resume hresume = true ↔
      Sought (pattern.map globOf) name ((pattern.drop p).map globOf) (name.drop n) star resume := by
  have hrest : ∀ i, (pattern.map globOf).drop i = (pattern.drop i).map globOf := fun i => List.map_drop.symm
  fun_induction matchLoop pattern name p n star resume hresume with
  | case1 p n star resume _ _ hp ih =>
      have hcons : (pattern.drop p).map globOf = .run :: (pattern.drop (p + 1)).map globOf := by
        rw [drop_of_getElem? hp, List.map_cons, globOf_star]
      rw [hcons] at h ⊢
      obtain ⟨hnext, hsame⟩ := h.pass ((hrest p).trans hcons) rfl
      exact (ih hnext).trans hsame
  | case2 p n star resume _ hn c hp hstar hfits ih =>
      rw [List.getElem?_eq_getElem hn, Option.some.injEq] at hfits
      rw [drop_of_getElem? hp, List.map_cons, List.drop_eq_getElem_cons hn] at h ⊢
      obtain ⟨hnext, hsame⟩ := h.advance ((fits_globOf hstar).mpr hfits)
      exact (ih hnext).trans hsame
  | case3 p n resume _ hn c hp hstar hmiss index ih =>
      rw [List.getElem?_eq_getElem hn, Option.some.injEq] at hmiss
      rw [List.drop_eq_getElem_cons hn] at h ⊢
      obtain ⟨hnext, hsame⟩ := h.retry (by
        rw [drop_of_getElem? hp, List.map_cons]
        exact not_derives (mt globOf_eq_run.mp hstar) (mt (fits_globOf hstar).mp hmiss))
      rw [hrest] at hnext hsame
      exact (ih hnext).trans hsame
  | case4 p n resume _ hn c hp hstar hmiss =>
      rw [List.getElem?_eq_getElem hn, Option.some.injEq] at hmiss
      refine iff_of_false Bool.false_ne_true ?_
      show ¬ Derives _ _
      rw [drop_of_getElem? hp, List.map_cons, List.drop_eq_getElem_cons hn]
      exact not_derives (mt globOf_eq_run.mp hstar) (mt (fits_globOf hstar).mp hmiss)
  | case5 p n resume _ hn hp index ih =>
      rw [List.drop_eq_getElem_cons hn] at h ⊢
      obtain ⟨hnext, hsame⟩ := h.retry (by
        rw [List.drop_eq_nil_of_le (List.getElem?_eq_none_iff.mp hp), List.map_nil, derives_nil]
        exact List.cons_ne_nil _ _)
      rw [hrest] at hnext hsame
      exact (ih hnext).trans hsame
  | case6 p n resume _ hn hp =>
      refine iff_of_false Bool.false_ne_true ?_
      show ¬ Derives _ _
      rw [List.drop_eq_nil_of_le (List.getElem?_eq_none_iff.mp hp), List.map_nil, derives_nil,
        List.drop_eq_getElem_cons hn]
      exact List.cons_ne_nil _ _
  | case7 p n star resume _ hn =>
      rw [List.drop_eq_nil_of_le (Nat.not_lt.mp hn)] at h ⊢
      rw [trailing_stars]
      exact h.finish.symm

/-- **A sub-pattern matches a name exactly when it derives it**: a star derives any run of characters, a
question mark one character, and any other character itself. -/
theorem matchesOne_iff (pattern name : Str) :
    matchesOne pattern name = true ↔ Derives (pattern.map globOf) name :=
  matchLoop_iff pattern name 0 0 none 0 (Nat.le_refl 0) .nothing

end Nntp.Proto
