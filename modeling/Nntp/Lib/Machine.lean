import Mathlib.Data.Option.Basic

/-!
# Machines

A machine is a step function on states: an action is one choice of the environment, and not every
action can be taken in every state. `run` takes a sequence of actions. `Meets` is a condition on every
step of a run, and `invariant_run` is the induction over runs.
-/

namespace Nntp.Lib

variable {S A : Type} (step : S → A → Option S)

/-- The state a sequence of actions leads to, if each of them can be taken. -/
def run : S → List A → Option S
  | s, [] => some s
  | s, a :: actions => (step s a).bind fun s' => run s' actions

/-- Every step of the run meets `ok`, a condition on the action and the state it is taken in. -/
def Meets (ok : S → A → Prop) : S → List A → Prop
  | _, [] => True
  | s, a :: actions => ok s a ∧ ∀ s', step s a = some s' → Meets ok s' actions

theorem run_cons {s s' : S} {a : A} {actions : List A} (h : run step s (a :: actions) = some s') :
    ∃ mid, step s a = some mid ∧ run step mid actions = some s' := by
  obtain ⟨mid, hstep, hrest⟩ := Option.bind_eq_some_iff.mp h
  exact ⟨mid, hstep, hrest⟩

theorem run_append (s : S) (actions more : List A) :
    run step s (actions ++ more) = (run step s actions).bind fun mid => run step mid more := by
  induction actions generalizing s with
  | nil => rfl
  | cons a actions ih =>
      rw [List.cons_append, run, run]
      cases step s a with
      | none => rfl
      | some mid => exact ih mid

/-- **The induction over runs**: what every permitted step preserves holds at the end of the run. -/
theorem invariant_run {ok : S → A → Prop} {P : S → Prop}
    (h : ∀ s a s', ok s a → step s a = some s' → P s → P s') {s s' : S} {actions : List A}
    (hs : P s) (hok : Meets step ok s actions) (hrun : run step s actions = some s') : P s' := by
  induction actions generalizing s with
  | nil =>
      cases hrun
      exact hs
  | cons a actions ih =>
      obtain ⟨mid, hstep, hrest⟩ := run_cons step hrun
      exact ih (h s a mid hok.1 hstep hs) (hok.2 mid hstep) hrest

/-- Where a step keeps `P` exactly when it is permitted, a run keeps `P` throughout exactly when all its
steps are. -/
theorem throughout_iff {ok : S → A → Prop} {P : S → Prop} (htotal : ∀ s a, ∃ s', step s a = some s')
    (h : ∀ s a s', P s → step s a = some s' → (P s' ↔ ok s a)) {s : S} (hs : P s) (actions : List A) :
    (∀ front s', front <+: actions → run step s front = some s' → P s') ↔ Meets step ok s actions := by
  induction actions generalizing s with
  | nil =>
      refine ⟨fun _ => trivial, fun _ front s' hfront hrun => ?_⟩
      obtain rfl := List.prefix_nil.mp hfront
      cases hrun
      exact hs
  | cons a actions ih =>
      obtain ⟨mid, hmid⟩ := htotal s a
      constructor
      · intro hall
        have hP : P mid := hall [a] mid ⟨actions, rfl⟩ (by rw [run, hmid]; rfl)
        refine ⟨(h s a mid hs hmid).mp hP, fun mid' hmid' => ?_⟩
        cases hmid.symm.trans hmid'
        refine (ih hP).mp fun front s' hfront hrun => hall (a :: front) s' ?_ ?_
        · exact List.cons_prefix_cons.mpr ⟨rfl, hfront⟩
        · rw [run, hmid]
          exact hrun
      · rintro ⟨hok, hrest⟩ front s' hfront hrun
        have hP : P mid := (h s a mid hs hmid).mpr hok
        cases front with
        | nil =>
            cases hrun
            exact hs
        | cons b front =>
            obtain ⟨rfl, hbelow⟩ := List.cons_prefix_cons.mp hfront
            obtain ⟨mid', hmid', hrun⟩ := run_cons step hrun
            cases hmid.symm.trans hmid'
            exact (ih hP).mpr (hrest mid hmid) front s' hbelow hrun

/-- A condition that every step meets. -/
theorem meets_of_forall {ok : S → A → Prop} (h : ∀ s a, ok s a) (s : S) (actions : List A) :
    Meets step ok s actions := by
  induction actions generalizing s with
  | nil => exact trivial
  | cons a actions ih => exact ⟨h s a, fun s' _ => ih s'⟩

/-- A condition on the actions alone, that each of them meets. -/
theorem meets_of_mem {ok : A → Prop} {actions : List A} (h : ∀ a ∈ actions, ok a) (s : S) :
    Meets step (fun _ a => ok a) s actions := by
  induction actions generalizing s with
  | nil => exact trivial
  | cons a actions ih =>
      obtain ⟨ha, hrest⟩ := List.forall_mem_cons.mp h
      exact ⟨ha, fun s' _ => ih hrest s'⟩

/-- Two conditions that are met are met together. -/
theorem Meets.and {ok ok' : S → A → Prop} {s : S} {actions : List A} (h : Meets step ok s actions)
    (h' : Meets step ok' s actions) : Meets step (fun s a => ok s a ∧ ok' s a) s actions := by
  induction actions generalizing s with
  | nil => exact trivial
  | cons a actions ih => exact ⟨⟨h.1, h'.1⟩, fun mid hmid => ih (h.2 mid hmid) (h'.2 mid hmid)⟩

/-- A condition that can be tested step by step can be tested on a run. -/
instance Meets.decidable {ok : S → A → Prop} [∀ s a, Decidable (ok s a)] :
    ∀ (s : S) (actions : List A), Decidable (Meets step ok s actions)
  | _, [] => isTrue trivial
  | s, a :: actions =>
      match h : step s a with
      | none =>
          decidable_of_iff (ok s a)
            ⟨fun hok => ⟨hok, fun s' hs => by rw [h] at hs; cases hs⟩, fun hmeets => hmeets.1⟩
      | some mid =>
          have : Decidable (Meets step ok mid actions) := Meets.decidable mid actions
          decidable_of_iff (ok s a ∧ Meets step ok mid actions)
            ⟨fun hok => ⟨hok.1, fun s' hs => by rw [h] at hs; cases hs; exact hok.2⟩,
              fun hmeets => ⟨hmeets.1, hmeets.2 mid h⟩⟩

end Nntp.Lib
