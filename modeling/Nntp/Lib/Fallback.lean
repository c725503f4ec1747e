import Nntp.Lib.Machine

/-!
# One of two spellings

Two commands do the same, and a peer may know both, one or neither. The preferred one is tried unless there
is a reason not to, the fallback where the peer refuses to know the preferred one, and what worked is
remembered. The machine below is that memory alone: a step is one call, with the attempts it made and how
they were answered.
-/

namespace Nntp.Lib.Fallback

/-- What is remembered of a peer. -/
inductive Remembered where
  | unknown
  | preferred
  | fallback
  | unavailable
  deriving DecidableEq, Repr

/-- Which of the two commands an attempt is made with. -/
inductive Choice where
  | preferred
  | fallback
  deriving DecidableEq, Repr

/-- How an attempt is answered. No answer is among the other ones. -/
inductive Answer where
  | works
  | unsupported
  | other
  deriving DecidableEq, Repr

abbrev Attempt := Choice × Answer

namespace Remembered

/-- What is assumed for a call. The peer may have said whether it knows the preferred command. -/
def resolve (advertised : Option Bool) : Remembered → Remembered
  | unknown =>
      match advertised with
      | some true => preferred
      | some false => fallback
      | none => unknown
  | remembered => remembered

/-- The command that is tried first. -/
def first : Remembered → Option Choice
  | unknown => some .preferred
  | preferred => some .preferred
  | fallback => some .fallback
  | unavailable => none

/-- What an answer changes. -/
def learn (remembered : Remembered) : Attempt → Remembered
  | (.preferred, .works) => preferred
  | (.preferred, .unsupported) => fallback
  | (.fallback, .works) => fallback
  | (.fallback, .unsupported) => unavailable
  | (_, .other) => remembered

/-- The preferred command is out of the question. -/
def Settled (remembered : Remembered) : Prop := remembered = fallback ∨ remembered = unavailable

end Remembered

open Remembered

/-- The attempts a call may make: the fallback is tried in the same call only where the preferred command is
not known. A call may always end early. -/
def permitted (style : Remembered) : List Attempt → Bool
  | [] => true
  | [(choice, _)] => style.first == some choice
  | [(.preferred, .unsupported), (.fallback, _)] => style.first == some .preferred
  | _ => false

/-- One call: what the peer had said, and the attempts. -/
structure Call where
  advertised : Option Bool
  attempts : List Attempt

/-- What a call leaves, if it may be made. -/
def step (remembered : Remembered) (call : Call) : Option Remembered :=
  if permitted (remembered.resolve call.advertised) call.attempts then
    some (call.attempts.foldl learn remembered)
  else none

theorem step_cases {remembered after : Remembered} {call : Call}
    (h : step remembered call = some after) :
    permitted (remembered.resolve call.advertised) call.attempts = true ∧
      after = call.attempts.foldl learn remembered := by
  unfold step at h
  split at h
  · next hpermitted =>
      cases h
      exact ⟨hpermitted, rfl⟩
  · cases h

/-- The shapes of what a call tries. -/
theorem permitted_cases {style : Remembered} {attempts : List Attempt}
    (h : permitted style attempts = true) :
    attempts = [] ∨
      (∃ answer, attempts = [(.preferred, answer)] ∧ style.first = some .preferred) ∨
      (∃ answer, attempts = [(.fallback, answer)] ∧ style.first = some .fallback) ∨
      ∃ answer, attempts = [(.preferred, .unsupported), (.fallback, answer)] ∧
        style.first = some .preferred := by
  unfold permitted at h
  split at h
  · exact Or.inl rfl
  · next choice answer =>
      cases choice with
      | preferred => exact Or.inr (Or.inl ⟨answer, rfl, beq_iff_eq.mp h⟩)
      | fallback => exact Or.inr (Or.inr (Or.inl ⟨answer, rfl, beq_iff_eq.mp h⟩))
  · next answer => exact Or.inr (Or.inr (Or.inr ⟨answer, rfl, beq_iff_eq.mp h⟩))
  · cases h

/-! ## The laws of a call -/

section Laws

variable {remembered after : Remembered} {advertised : Option Bool} {attempts : List Attempt}

theorem length_le_two (h : permitted (remembered.resolve advertised) attempts = true) :
    attempts.length ≤ 2 := by
  rcases permitted_cases h with rfl | ⟨_, rfl, _⟩ | ⟨_, rfl, _⟩ | ⟨_, rfl, _⟩ <;> simp

theorem first_of_settled (hsettled : remembered.Settled) :
    (remembered.resolve advertised).first ≠ some .preferred := by
  rcases hsettled with rfl | rfl <;> simp [resolve, first]

/-- Where the fallback is remembered, it is what is tried. -/
theorem not_preferred_of_settled (h : permitted (remembered.resolve advertised) attempts = true)
    (hsettled : remembered.Settled) (answer : Answer) : (Choice.preferred, answer) ∉ attempts := by
  rcases permitted_cases h with rfl | ⟨_, _, hfirst⟩ | ⟨_, rfl, _⟩ | ⟨_, _, hfirst⟩
  · simp
  · exact absurd hfirst (first_of_settled hsettled)
  · simp
  · exact absurd hfirst (first_of_settled hsettled)

theorem silent_of_unavailable (h : permitted (remembered.resolve advertised) attempts = true)
    (hremembered : remembered = .unavailable) : attempts = [] := by
  subst hremembered
  rcases permitted_cases h with rfl | ⟨_, _, hfirst⟩ | ⟨_, _, hfirst⟩ | ⟨_, _, hfirst⟩
  · rfl
  all_goals cases hfirst

/-- Answers that say nothing about the commands change nothing. -/
theorem unchanged (h : ∀ choice answer, (choice, answer) ∈ attempts → answer = .other) :
    attempts.foldl learn remembered = remembered := by
  induction attempts with
  | nil => rfl
  | cons attempt attempts ih =>
      have hother : attempt.2 = .other := h attempt.1 attempt.2 List.mem_cons_self
      have hlearn : remembered.learn attempt = remembered := by
        obtain ⟨choice, answer⟩ := attempt
        cases hother
        cases choice <;> rfl
      rw [List.foldl_cons, hlearn]
      exact ih fun choice answer hmem => h choice answer (List.mem_cons_of_mem _ hmem)

/-- What there is to say for the fallback: it is what is remembered, or the peer does not advertise the
preferred command, or that was refused just now. -/
theorem reason_of_fallback {answer : Answer}
    (h : permitted (remembered.resolve advertised) attempts = true)
    (hmem : (Choice.fallback, answer) ∈ attempts) :
    remembered.Settled ∨ advertised = some false ∨
      (Choice.preferred, Answer.unsupported) ∈ attempts := by
  rcases permitted_cases h with rfl | ⟨_, rfl, _⟩ | ⟨_, rfl, hfirst⟩ | ⟨_, rfl, _⟩
  · cases hmem
  · simp at hmem
  · cases remembered with
    | unknown =>
        match advertised with
        | none => cases hfirst
        | some true => cases hfirst
        | some false => exact Or.inr (Or.inl rfl)
    | preferred => cases hfirst
    | fallback => exact Or.inl (Or.inl rfl)
    | unavailable => cases hfirst
  · simp

/-- Where the fallback comes to be remembered, there is a reason for it. -/
theorem reason_of_settled (h : permitted (remembered.resolve advertised) attempts = true)
    (hsettled : (attempts.foldl learn remembered).Settled) :
    remembered.Settled ∨ advertised = some false ∨
      (Choice.preferred, Answer.unsupported) ∈ attempts := by
  by_cases hfallback : ∃ answer, (Choice.fallback, answer) ∈ attempts
  · exact reason_of_fallback h hfallback.choose_spec
  · rcases permitted_cases h with rfl | ⟨answer, rfl, _⟩ | ⟨answer, rfl, _⟩ | ⟨answer, rfl, _⟩
    · exact Or.inl hsettled
    · cases answer with
      | works => rcases hsettled with h | h <;> cases h
      | unsupported => simp
      | other => exact Or.inl hsettled
    · exact absurd ⟨answer, by simp⟩ hfallback
    · exact absurd ⟨answer, by simp⟩ hfallback

/-- The preferred command is never taken up again. -/
theorem settled_of_settled (h : permitted (remembered.resolve advertised) attempts = true)
    (hsettled : remembered.Settled) : (attempts.foldl learn remembered).Settled := by
  rcases permitted_cases h with rfl | ⟨_, _, hfirst⟩ | ⟨answer, rfl, _⟩ | ⟨_, _, hfirst⟩
  · exact hsettled
  · exact absurd hfirst (first_of_settled hsettled)
  · cases answer with
    | works => exact Or.inl rfl
    | unsupported => exact Or.inr rfl
    | other => exact hsettled
  · exact absurd hfirst (first_of_settled hsettled)

end Laws

/-! ## Runs of calls -/

theorem settled_run {remembered after : Remembered} {calls : List Call}
    (h : run step remembered calls = some after) (hsettled : remembered.Settled) : after.Settled := by
  induction calls generalizing remembered with
  | nil =>
      cases h
      exact hsettled
  | cons call calls ih =>
      obtain ⟨mid, hstep, hrest⟩ := run_cons step h
      obtain ⟨hpermitted, rfl⟩ := step_cases hstep
      exact ih hrest (settled_of_settled hpermitted hsettled)

theorem unavailable_run {after : Remembered} {calls : List Call}
    (h : run step .unavailable calls = some after) : after = .unavailable := by
  induction calls with
  | nil =>
      cases h
      rfl
  | cons call calls ih =>
      obtain ⟨mid, hstep, hrest⟩ := run_cons step h
      obtain ⟨hpermitted, rfl⟩ := step_cases hstep
      rw [silent_of_unavailable hpermitted rfl] at hrest
      exact ih hrest

/-- **Why the fallback is remembered**: a call of the run was made to a peer that does not advertise the
preferred command, or the peer refused it in one. -/
theorem reason_run {remembered after : Remembered} {calls : List Call}
    (h : run step remembered calls = some after) (hnew : ¬ remembered.Settled)
    (hsettled : after.Settled) :
    ∃ call ∈ calls, call.advertised = some false ∨
      (Choice.preferred, Answer.unsupported) ∈ call.attempts := by
  induction calls generalizing remembered with
  | nil =>
      cases h
      exact absurd hsettled hnew
  | cons call calls ih =>
      obtain ⟨mid, hstep, hrest⟩ := run_cons step h
      by_cases hmid : mid.Settled
      · obtain ⟨hpermitted, rfl⟩ := step_cases hstep
        rcases reason_of_settled hpermitted hmid with hs | hreason
        · exact absurd hs hnew
        · exact ⟨call, List.mem_cons_self, hreason⟩
      · obtain ⟨call', hmem, hreason⟩ := ih hrest hmid
        exact ⟨call', List.mem_cons_of_mem _ hmem, hreason⟩

end Nntp.Lib.Fallback
