import Mathlib.Data.List.Basic

/-!
# The last verdict decides

A list of rules is read in order, each rule gives a verdict or none, and the last verdict given
counts. `lastSome` is that reading; it composes over concatenation, so a list of lists of rules can
be read one list at a time.

What does *not* compose is reading parts of the list separately and accepting when any part accepts:
a rejection in a later part no longer reaches back. `lastSome_ne_true_iff` says what each part has
to contain for that.
-/

namespace Nntp.Lib

variable {α β : Type}

/-- The last verdict given. -/
def lastSome (verdicts : List (Option β)) : Option β :=
  verdicts.foldl (fun found verdict => verdict.or found) none

theorem foldl_or (verdicts : List (Option β)) (found : Option β) :
    verdicts.foldl (fun found verdict => verdict.or found) found = (lastSome verdicts).or found := by
  induction verdicts generalizing found with
  | nil => rfl
  | cons verdict verdicts ih =>
      unfold lastSome
      rw [List.foldl_cons, List.foldl_cons, ih, ih (verdict.or none), Option.or_none,
        Option.or_assoc]

@[simp] theorem lastSome_nil : lastSome ([] : List (Option β)) = none := rfl

@[simp] theorem lastSome_append (as bs : List (Option β)) :
    lastSome (as ++ bs) = (lastSome bs).or (lastSome as) := by
  show (as ++ bs).foldl _ none = _
  rw [List.foldl_append]
  exact foldl_or bs _

@[simp] theorem lastSome_singleton (verdict : Option β) : lastSome [verdict] = verdict :=
  Option.or_none

theorem lastSome_cons (verdict : Option β) (verdicts : List (Option β)) :
    lastSome (verdict :: verdicts) = (lastSome verdicts).or verdict := by
  rw [← List.singleton_append, lastSome_append, lastSome_singleton]

/-- Reading a list of lists of rules, one list at a time. -/
theorem lastSome_flatMap (f : α → List (Option β)) (xs : List α) :
    lastSome (xs.flatMap f) = lastSome (xs.map fun x => lastSome (f x)) := by
  induction xs with
  | nil => rfl
  | cons x xs ih => rw [List.flatMap_cons, lastSome_append, ih, List.map_cons, lastSome_cons]

theorem lastSome_eq_none_iff {verdicts : List (Option β)} :
    lastSome verdicts = none ↔ ∀ v ∈ verdicts, v = none := by
  induction verdicts with
  | nil => simp
  | cons verdict verdicts ih =>
      rw [lastSome_cons, Option.or_eq_none_iff, ih, List.forall_mem_cons]
      exact and_comm

/-- The verdict that counts is given by a rule after which no rule gives one. -/
theorem lastSome_eq_some_iff {verdicts : List (Option β)} {b : β} :
    lastSome verdicts = some b ↔
      ∃ i : Nat, verdicts[i]? = some (some b) ∧ ∀ j > i, ∀ v, verdicts[j]? = some v → v = none := by
  induction verdicts with
  | nil => simp
  | cons verdict verdicts ih =>
      rw [lastSome_cons]
      constructor
      · intro h
        cases hrest : lastSome verdicts with
        | some c =>
            rw [hrest, Option.some_or] at h
            obtain ⟨i, hi, hlast⟩ := ih.mp (hrest.trans h)
            refine ⟨i + 1, by simpa using hi, fun j hj v hv => ?_⟩
            obtain ⟨j, rfl⟩ : ∃ k, j = k + 1 := ⟨j - 1, by omega⟩
            exact hlast j (by omega) v (by simpa using hv)
        | none =>
            rw [hrest, Option.none_or] at h
            refine ⟨0, by simp [h], fun j hj v hv => ?_⟩
            obtain ⟨j, rfl⟩ : ∃ k, j = k + 1 := ⟨j - 1, by omega⟩
            rw [List.getElem?_cons_succ] at hv
            exact lastSome_eq_none_iff.mp hrest v (List.mem_of_getElem? hv)
      · rintro ⟨i, hi, hlast⟩
        cases i with
        | zero =>
            have hrest : lastSome verdicts = none := by
              refine lastSome_eq_none_iff.mpr fun v hv => ?_
              obtain ⟨j, hj⟩ := List.mem_iff_getElem?.mp hv
              exact hlast (j + 1) (Nat.succ_pos j) v (by simpa using hj)
            rw [hrest, Option.none_or]
            simpa using hi
        | succ i =>
            have hrest : lastSome verdicts = some b := by
              refine ih.mpr ⟨i, by simpa using hi, fun j hj v hv => ?_⟩
              exact hlast (j + 1) (by omega) v (by simpa using hv)
            rw [hrest, Option.some_or]

/-- The rules do not accept exactly when each accepting rule is followed by a rejecting one. -/
theorem lastSome_ne_true_iff {verdicts : List (Option Bool)} :
    lastSome verdicts ≠ some true ↔
      ∀ i : Nat, verdicts[i]? = some (some true) → ∃ j > i, verdicts[j]? = some (some false) := by
  constructor
  · intro h i hi
    cases hlast : lastSome verdicts with
    | none =>
        have := lastSome_eq_none_iff.mp hlast _ (List.mem_of_getElem? hi)
        cases this
    | some b =>
        obtain ⟨j, hj, hafter⟩ := lastSome_eq_some_iff.mp hlast
        cases b with
        | true => exact absurd hlast h
        | false =>
            refine ⟨j, ?_, hj⟩
            rcases Nat.lt_trichotomy j i with hlt | heq | hgt
            · cases hafter i hlt _ hi
            · rw [heq, hi] at hj
              cases hj
            · exact hgt
  · intro h hlast
    obtain ⟨i, hi, hafter⟩ := lastSome_eq_some_iff.mp hlast
    obtain ⟨j, hj, hfalse⟩ := h i hi
    cases hafter j hj _ hfalse

end Nntp.Lib
