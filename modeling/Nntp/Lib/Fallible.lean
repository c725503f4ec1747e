import Mathlib.Data.List.Infix

/-!
# Computations that can fail

`ExceptT ε (StateM s)`: a state is threaded through, and a failure keeps the state it happened in.
`exec` runs a computation from a state. The rules below run it one bind at a time.
-/

namespace Nntp.Lib

/-- A computation on a state `s` that ends in a value or in a failure. -/
abbrev Fallible (ε s : Type) := ExceptT ε (StateM s)

namespace Fallible

variable {ε s α β : Type}

/-- The outcome of a computation, and the state it leaves. -/
def exec (x : Fallible ε s α) (st : s) : Except ε α × s := (ExceptT.run x).run st

/-- The computation that `f` describes. -/
def ofExec (f : s → Except ε α × s) : Fallible ε s α := ExceptT.mk (StateT.mk f)

/-- Runs a computation and drops its outcome, failure included. -/
def ignoring (x : Fallible ε s α) : Fallible ε s Unit := ofExec fun st => (.ok (), (x.exec st).2)

@[simp] theorem exec_ofExec (f : s → Except ε α × s) (st : s) : (ofExec f).exec st = f st := rfl

@[simp] theorem exec_ignoring (x : Fallible ε s α) (st : s) :
    (ignoring x).exec st = (.ok (), (x.exec st).2) := rfl

@[simp] theorem exec_pure (a : α) (st : s) : (pure a : Fallible ε s α).exec st = (.ok a, st) := rfl

@[simp] theorem exec_throw (e : ε) (st : s) :
    (throw e : Fallible ε s α).exec st = (.error e, st) := rfl

@[simp] theorem exec_get (st : s) : (get : Fallible ε s s).exec st = (.ok st, st) := rfl

@[simp] theorem exec_modify (f : s → s) (st : s) :
    (modify f : Fallible ε s PUnit).exec st = (.ok ⟨⟩, f st) := rfl

theorem exec_bind (x : Fallible ε s α) (f : α → Fallible ε s β) (st : s) :
    (x >>= f).exec st = match x.exec st with
      | (.ok a, st') => (f a).exec st'
      | (.error e, st') => (.error e, st') := by
  show (match x.exec st with
    | (r, st') => (ExceptT.bindCont f r).run st') = _
  rcases x.exec st with ⟨_ | _, st'⟩ <;> rfl

theorem exec_bind_ok {x : Fallible ε s α} {f : α → Fallible ε s β} {st st' : s} {a : α}
    (h : x.exec st = (.ok a, st')) : (x >>= f).exec st = (f a).exec st' := by
  rw [exec_bind, h]

theorem exec_bind_error {x : Fallible ε s α} {f : α → Fallible ε s β} {st st' : s} {e : ε}
    (h : x.exec st = (.error e, st')) : (x >>= f).exec st = (.error e, st') := by
  rw [exec_bind, h]

/-- Making something of a result changes nothing. -/
theorem exec_bind_pure (x : Fallible ε s α) (f : α → β) (st : s) :
    ((x >>= fun a => (pure (f a) : Fallible ε s β)).exec st).2 = (x.exec st).2 := by
  rw [exec_bind]
  rcases x.exec st with ⟨_ | _, _⟩ <;> rfl

/-- What the outcome of a bind says about its two halves. -/
theorem exec_bind_cases {x : Fallible ε s α} {f : α → Fallible ε s β} {st st' : s} {r : Except ε β}
    (h : (x >>= f).exec st = (r, st')) :
    (∃ a mid, x.exec st = (.ok a, mid) ∧ (f a).exec mid = (r, st')) ∨
      (∃ e, x.exec st = (.error e, st') ∧ r = .error e) := by
  rw [exec_bind] at h
  rcases hx : x.exec st with ⟨_ | a, mid⟩
  · rw [hx] at h
    cases h
    exact Or.inr ⟨_, rfl, rfl⟩
  · rw [hx] at h
    exact Or.inl ⟨a, mid, rfl, h⟩

/-- What both halves of a bind do to the state, the bind does. -/
theorem exec_bind_relates {R : s → s → Prop} (htrans : ∀ {st mid st'}, R st mid → R mid st' → R st st')
    {x : Fallible ε s α} {f : α → Fallible ε s β} (hx : ∀ st, R st (x.exec st).2)
    (hf : ∀ a st, R st ((f a).exec st).2) (st : s) : R st ((x >>= f).exec st).2 := by
  have hfirst := hx st
  rw [exec_bind]
  rcases hexec : x.exec st with ⟨_ | a, mid⟩
  · rw [hexec] at hfirst
    exact hfirst
  · rw [hexec] at hfirst
    exact htrans hfirst (hf a mid)

/-- What the two halves of a bind leave alone, the bind leaves alone. -/
theorem exec_bind_keeps {γ : Type} (view : s → γ) {x : Fallible ε s α} {f : α → Fallible ε s β}
    (hx : ∀ st, view (x.exec st).2 = view st) (hf : ∀ a st, view ((f a).exec st).2 = view st)
    (st : s) : view ((x >>= f).exec st).2 = view st :=
  exec_bind_relates (R := fun before after => view after = view before) (fun h h' => h'.trans h) hx hf st

/-- A list that is part of the state is only added to. -/
def Grows {γ : Type} (view : s → List γ) (x : Fallible ε s α) : Prop := ∀ st, view st <+: view (x.exec st).2

theorem Grows.bind {γ : Type} {view : s → List γ} {x : Fallible ε s α} {f : α → Fallible ε s β}
    (hx : Grows view x) (hf : ∀ a, Grows view (f a)) : Grows view (x >>= f) :=
  exec_bind_relates (R := fun before after => view before <+: view after) (fun h h' => h.trans h') hx hf

theorem Grows.of_eq {γ : Type} {view : s → List γ} {x : Fallible ε s α} (h : ∀ st, view (x.exec st).2 = view st) :
    Grows view x := by
  intro st
  rw [h]

/-- **A computation decides a condition**: where it holds there is a good result, and where it does not there is
none. -/
def Decides (x : Fallible ε s α) (st : s) (condition : Prop) (good : α → s → Prop) : Prop :=
  (condition ∧ ∃ a after, x.exec st = (.ok a, after) ∧ good a after) ∨
    (¬ condition ∧ ∃ e after, x.exec st = (.error e, after))

namespace Decides

variable {x : Fallible ε s α} {f : α → Fallible ε s β} {st : s} {condition : Prop} {good good' : α → s → Prop}

theorem of_ok {a : α} {after : s} (h : x.exec st = (.ok a, after)) (hcondition : condition) (hgood : good a after) :
    Decides x st condition good :=
  Or.inl ⟨hcondition, a, after, h, hgood⟩

theorem of_error {e : ε} {after : s} (h : x.exec st = (.error e, after)) (hcondition : ¬ condition) :
    Decides x st condition good :=
  Or.inr ⟨hcondition, e, after, h⟩

/-- What runs like something that decides a condition decides it. -/
theorem of_exec {y : Fallible ε s α} {st' : s} (h : x.exec st = y.exec st') (hy : Decides y st' condition good) :
    Decides x st condition good := by
  unfold Decides at hy ⊢
  rwa [h]

theorem congr {condition' : Prop} (h : Decides x st condition good) (hiff : condition ↔ condition') :
    Decides x st condition' good := by
  rwa [propext hiff] at h

theorem mono (h : Decides x st condition good) (hgood : ∀ a after, good a after → good' a after) :
    Decides x st condition good' := by
  rcases h with ⟨hcondition, a, after, hexec, hafter⟩ | hfails
  · exact Or.inl ⟨hcondition, a, after, hexec, hgood a after hafter⟩
  · exact Or.inr hfails

/-- **The rule of sequence**: a bind decides the conditions of both halves. -/
theorem bind {rest : Prop} {result : β → s → Prop} (h : Decides x st condition good)
    (hf : ∀ a mid, condition → good a mid → Decides (f a) mid rest result) :
    Decides (x >>= f) st (condition ∧ rest) result := by
  rcases h with ⟨hcondition, a, mid, hexec, hgood⟩ | ⟨hcondition, e, after, hexec⟩
  · rcases hf a mid hcondition hgood with ⟨hrest, b, after, hafter, hresult⟩ | ⟨hrest, e, after, hafter⟩
    · exact of_ok ((exec_bind_ok hexec).trans hafter) ⟨hcondition, hrest⟩ hresult
    · exact of_error ((exec_bind_ok hexec).trans hafter) fun hboth => hrest hboth.2
  · exact of_error (exec_bind_error hexec) fun hboth => hcondition hboth.1

/-- A second half that does not fail leaves the condition as it is. -/
theorem bind_ok {result : β → s → Prop} (h : Decides x st condition good)
    (hf : ∀ a mid, condition → good a mid → ∃ b after, (f a).exec mid = (.ok b, after) ∧ result b after) :
    Decides (x >>= f) st condition result := by
  rcases h with ⟨hcondition, a, mid, hexec, hgood⟩ | ⟨hcondition, e, after, hexec⟩
  · obtain ⟨b, after, hafter, hresult⟩ := hf a mid hcondition hgood
    exact of_ok ((exec_bind_ok hexec).trans hafter) hcondition hresult
  · exact of_error (exec_bind_error hexec) hcondition

end Decides

/-! ## Invariants -/

/-- What holds before a computation holds after it, whether it fails or not. -/
def Keeps (I : s → Prop) (x : Fallible ε s α) : Prop := ∀ st, I st → I (x.exec st).2

namespace Keeps

variable {I : s → Prop} {x : Fallible ε s α}

theorem pure (a : α) : Keeps I (pure a : Fallible ε s α) := fun _ h => h

theorem throw (e : ε) : Keeps I (throw e : Fallible ε s α) := fun _ h => h

theorem modify {f : s → s} (hf : ∀ st, I st → I (f st)) : Keeps I (modify f : Fallible ε s PUnit) := hf

theorem bind {f : α → Fallible ε s β} (hx : Keeps I x) (hf : ∀ a, Keeps I (f a)) : Keeps I (x >>= f) := by
  intro st h
  have hfirst := hx st h
  rw [exec_bind]
  rcases hexec : x.exec st with ⟨_ | a, mid⟩
  · rw [hexec] at hfirst
    exact hfirst
  · rw [hexec] at hfirst
    exact hf a mid hfirst

/-- What is looked at is a state in which the invariant holds. -/
theorem get_bind {f : s → Fallible ε s β} (hf : ∀ st, I st → I ((f st).exec st).2) :
    Keeps I (get >>= f) :=
  hf

theorem ignoring (hx : Keeps I x) : Keeps I (ignoring x) := hx

end Keeps

/-! ## Two runs -/

/-- **Two runs from related states** end in the same way, and in related states. -/
def Respects (R : s → s → Prop) (x : Fallible ε s α) : Prop :=
  ∀ st st', R st st' → (x.exec st).1 = (x.exec st').1 ∧ R (x.exec st).2 (x.exec st').2

namespace Respects

variable {R : s → s → Prop} {x : Fallible ε s α}

theorem pure (a : α) : Respects R (pure a : Fallible ε s α) := fun _ _ h => ⟨rfl, h⟩

theorem throw (e : ε) : Respects R (throw e : Fallible ε s α) := fun _ _ h => ⟨rfl, h⟩

theorem modify {f : s → s} (hf : ∀ st st', R st st' → R (f st) (f st')) :
    Respects R (modify f : Fallible ε s PUnit) :=
  fun _ _ h => ⟨rfl, hf _ _ h⟩

theorem bind {f : α → Fallible ε s β} (hx : Respects R x) (hf : ∀ a, Respects R (f a)) :
    Respects R (x >>= f) := by
  intro st st' h
  obtain ⟨hsame, hmid⟩ := hx st st' h
  rw [exec_bind, exec_bind]
  rcases hfirst : x.exec st with ⟨r, mid⟩
  rcases hsecond : x.exec st' with ⟨r', mid'⟩
  rw [hfirst, hsecond] at hsame hmid
  dsimp only at hsame hmid
  cases hsame
  cases r with
  | error e => exact ⟨rfl, hmid⟩
  | ok a => exact hf a mid mid' hmid

/-- Of the state only what related states share may be looked at. -/
theorem get_bind {γ : Type} (view : s → γ) (hview : ∀ st st', R st st' → view st = view st')
    {f : γ → Fallible ε s β} (hf : ∀ seen, Respects R (f seen)) :
    Respects R (get >>= fun st => f (view st)) := by
  intro st st' h
  rw [exec_bind_ok (exec_get st), exec_bind_ok (exec_get st'), hview st st' h]
  exact hf _ st st' h

end Respects

end Fallible

end Nntp.Lib
