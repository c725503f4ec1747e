import Mathlib.Data.List.Forall2

/-!
# Globs

Patterns with wildcards, and what they derive. The last part is what lets a matcher keep a single point to
go back to: behind a wildcard that takes any run, whatever was matched before need not be tried again.
-/

namespace Nntp.Lib

/-- One position of a pattern. -/
inductive Glob (α : Type) where
  /-- any run, including none -/
  | run
  /-- exactly one letter, whichever it is -/
  | one
  | letter (a : α)
  deriving DecidableEq, Repr

namespace Glob

variable {α : Type} {g : Glob α} {P S : List (Glob α)} {a : α} {u v w : List α}

/-- **What a pattern derives**: what its positions derive, in order. -/
inductive Derives : List (Glob α) → List α → Prop where
  | nil : Derives [] []
  | run (u : List α) {P : List (Glob α)} {w : List α} (h : Derives P w) : Derives (.run :: P) (u ++ w)
  | one (a : α) {P : List (Glob α)} {w : List α} (h : Derives P w) : Derives (.one :: P) (a :: w)
  | letter (a : α) {P : List (Glob α)} {w : List α} (h : Derives P w) :
      Derives (.letter a :: P) (a :: w)

/-- A position that derives one letter, and this letter is one that it derives. -/
inductive Fits : Glob α → α → Prop where
  | one (a : α) : Fits .one a
  | letter (a : α) : Fits (.letter a) a

theorem Fits.ne_run (h : Fits g a) : g ≠ .run := by
  rintro rfl
  cases h

/-! ## One position -/

theorem derives_nil : Derives [] w ↔ w = [] := by
  constructor
  · intro h
    cases h
    rfl
  · rintro rfl
    exact .nil

theorem derives_run : Derives (.run :: P) w ↔ ∃ u v, w = u ++ v ∧ Derives P v := by
  constructor
  · intro h
    cases h with
    | run u h => exact ⟨u, _, rfl, h⟩
  · rintro ⟨u, v, rfl, h⟩
    exact .run u h

/-- A position that derives single letters derives the first one. -/
theorem derives_cons (hg : g ≠ .run) : Derives (g :: P) w ↔ ∃ a v, w = a :: v ∧ Fits g a ∧ Derives P v := by
  constructor
  · intro h
    cases h with
    | run u h => exact absurd rfl hg
    | one a h => exact ⟨a, _, rfl, .one a, h⟩
    | letter a h => exact ⟨a, _, rfl, .letter a, h⟩
  · rintro ⟨a, v, rfl, hfits, h⟩
    cases hfits with
    | one => exact .one a h
    | letter => exact .letter a h

theorem derives_fits (h : Fits g a) : Derives (g :: P) (a :: w) ↔ Derives P w := by
  rw [derives_cons h.ne_run]
  constructor
  · rintro ⟨b, v, heq, -, hv⟩
    cases heq
    exact hv
  · exact fun hw => ⟨a, w, rfl, h, hw⟩

theorem not_derives (hg : g ≠ .run) (h : ¬ Fits g a) : ¬ Derives (g :: P) (a :: w) := by
  rw [derives_cons hg]
  rintro ⟨b, v, heq, hfits, -⟩
  cases heq
  exact h hfits

/-! ## Runs -/

/-- A run may take more. -/
theorem Derives.absorb (h : Derives (.run :: P) w) (u : List α) : Derives (.run :: P) (u ++ w) := by
  obtain ⟨u', v, rfl, hv⟩ := derives_run.mp h
  exact derives_run.mpr ⟨u ++ u', v, (List.append_assoc ..).symm, hv⟩

/-- A run takes nothing, or the first letter at least. -/
theorem derives_run_cons : Derives (.run :: P) (a :: w) ↔ Derives P (a :: w) ∨ Derives (.run :: P) w := by
  constructor
  · intro h
    obtain ⟨u, v, heq, hv⟩ := derives_run.mp h
    cases u with
    | nil =>
        rw [List.nil_append] at heq
        exact Or.inl (heq ▸ hv)
    | cons b u =>
        cases heq
        exact Or.inr (derives_run.mpr ⟨u, v, rfl, hv⟩)
  · rintro (h | h)
    · exact derives_run.mpr ⟨[], _, rfl, h⟩
    · exact h.absorb [a]

/-- The end is derived by runs alone. -/
theorem derives_empty : Derives P [] ↔ ∀ g ∈ P, g = .run := by
  induction P with
  | nil => exact iff_of_true .nil (fun _ h => absurd h List.not_mem_nil)
  | cons g P ih =>
      rw [List.forall_mem_cons, ← ih]
      constructor
      · intro h
        by_cases hg : g = .run
        · subst hg
          obtain ⟨u, v, heq, hv⟩ := derives_run.mp h
          obtain ⟨-, rfl⟩ := List.append_eq_nil_iff.mp heq.symm
          exact ⟨rfl, hv⟩
        · obtain ⟨a, v, heq, -⟩ := (derives_cons hg).mp h
          cases heq
      · rintro ⟨rfl, h⟩
        exact .run [] h

/-! ## Letters -/

/-- One pattern after the other derives one word after the other. -/
theorem Derives.append {Q : List (Glob α)} (h : Derives P v) (hQ : Derives Q w) : Derives (P ++ Q) (v ++ w) := by
  induction h with
  | nil => exact hQ
  | run u _ ih =>
      rw [List.append_assoc]
      exact .run u ih
  | one a _ ih => exact .one a ih
  | letter a _ ih => exact .letter a ih

/-- A letter of the pattern is in every word. -/
theorem Derives.mem_of_letter (h : Derives P w) (ha : .letter a ∈ P) : a ∈ w := by
  induction h with
  | nil => cases ha
  | run u _ ih =>
      apply List.mem_append_right
      exact ih (List.mem_of_ne_of_mem (by simp) ha)
  | one b _ ih =>
      apply List.mem_cons_of_mem
      exact ih (List.mem_of_ne_of_mem (by simp) ha)
  | letter b _ ih =>
      rcases List.mem_cons.mp ha with hb | ha
      · cases hb
        exact List.mem_cons_self
      · exact List.mem_cons_of_mem _ (ih ha)

theorem derives_letters : Derives (u.map .letter ++ P) w ↔ ∃ v, w = u ++ v ∧ Derives P v := by
  induction u generalizing w with
  | nil => simp
  | cons a u ih =>
      rw [List.map_cons, List.cons_append, derives_cons (by simp)]
      constructor
      · rintro ⟨b, v, rfl, hfits, hv⟩
        cases hfits
        obtain ⟨back, rfl, hback⟩ := ih.mp hv
        exact ⟨back, rfl, hback⟩
      · rintro ⟨v, rfl, hv⟩
        exact ⟨a, u ++ v, rfl, .letter a, ih.mpr ⟨v, rfl, hv⟩⟩

/-- **Letters between two runs** are a word to be found inside. -/
theorem derives_infix : Derives (.run :: (u.map .letter ++ [.run])) w ↔ u <:+: w := by
  rw [derives_run]
  constructor
  · rintro ⟨front, v, rfl, hv⟩
    obtain ⟨back, rfl, -⟩ := derives_letters.mp hv
    exact ⟨front, back, List.append_assoc ..⟩
  · rintro ⟨front, back, rfl⟩
    refine ⟨front, u ++ back, List.append_assoc .., derives_letters.mpr ⟨back, rfl, ?_⟩⟩
    exact derives_run.mpr ⟨back, [], (List.append_nil _).symm, .nil⟩

/-! ## Segments

A segment is a stretch of a pattern without a run. It derives words of one length only, so where it ends
is known. -/

section Segment

variable (h : List.Forall₂ Fits S u)
include h

theorem derives_segment : Derives (S ++ P) (u ++ w) ↔ Derives P w := by
  induction h with
  | nil => rfl
  | cons hfits _ ih =>
      rw [List.cons_append, List.cons_append, derives_fits hfits]
      exact ih

/-- What a segment and the rest derive is as long as the segment at least, and the rest comes after it. -/
theorem Derives.after_segment (hv : Derives (S ++ P) v) :
    ∃ front back, v = front ++ back ∧ front.length = u.length ∧ Derives P back := by
  induction h generalizing v with
  | nil => exact ⟨[], v, rfl, rfl, hv⟩
  | cons hfits _ ih =>
      obtain ⟨a, v, rfl, -, hrest⟩ := (derives_cons hfits.ne_run).mp hv
      obtain ⟨front, back, rfl, hlen, hback⟩ := ih hrest
      exact ⟨a :: front, back, rfl, congrArg Nat.succ hlen, hback⟩

/-- **An earlier run is forgotten**: behind the next one it has nothing to offer. -/
theorem derives_forget : Derives (.run :: (S ++ .run :: P)) (u ++ w) ↔ Derives (.run :: P) w := by
  constructor
  · intro hd
    obtain ⟨skipped, v, heq, hv⟩ := derives_run.mp hd
    obtain ⟨front, back, rfl, hlen, hback⟩ := hv.after_segment h
    -- what is left begins no earlier than the rest of the word
    have hdrop : w = ((skipped ++ front).drop u.length) ++ back := by
      have hle : u.length ≤ (skipped ++ front).length := by
        rw [List.length_append, hlen]
        exact Nat.le_add_left ..
      rw [← List.drop_append_of_le_length hle, List.append_assoc, ← heq, List.drop_left]
    rw [hdrop]
    exact hback.absorb _
  · intro hd
    exact .run [] ((derives_segment h).mpr hd)

/-- **Going back**: where the rest does not fit behind the segment, the run takes one letter more. -/
theorem derives_retry (hu : u ++ w = a :: v) (hfails : ¬ Derives P w) :
    Derives (.run :: (S ++ P)) (u ++ w) ↔ Derives (.run :: (S ++ P)) v := by
  rw [hu, derives_run_cons, ← hu, derives_segment h]
  exact or_iff_right hfails

/-- At the end of the word the run has nothing left to take. -/
theorem derives_finish : Derives (.run :: (S ++ P)) u ↔ Derives P [] := by
  constructor
  · intro hd
    obtain ⟨skipped, v, heq, hv⟩ := derives_run.mp hd
    obtain ⟨front, back, rfl, hlen, hback⟩ := hv.after_segment h
    have hnone : back = [] := by
      have := congrArg List.length heq
      rw [List.length_append, List.length_append, hlen] at this
      exact List.length_eq_zero_iff.mp (by omega)
    rw [← hnone]
    exact hback
  · intro hd
    have := (derives_segment (P := P) (w := []) h).mpr hd
    rw [List.append_nil] at this
    exact .run [] this

end Segment

end Glob

end Nntp.Lib
