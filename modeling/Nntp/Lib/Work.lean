import Mathlib.Logic.Basic

/-!
# Programs that send events and ask questions

A program sends events, asks questions whose answers come from outside, and ends with a result. `wp` is
the weakest precondition of a program against an observer of its events: the observer is in some stage,
every event must take it to another, and the result must fit the last one. Only answers that `ok` allows
are considered. `exec` runs a program with a handler that answers from a state.
-/

namespace Nntp.Lib

/-- A program over the events `E` and the questions `Op`. -/
inductive Work (E Op : Type) (Answer : Op → Type) (α : Type) where
  | done (a : α)
  | send (event : E) (rest : Work E Op Answer α)
  | ask (op : Op) (rest : Answer op → Work E Op Answer α)

namespace Work

variable {E Op : Type} {Answer : Op → Type} {α β Q S ε : Type}

/-- One program after another. -/
def andThen : Work E Op Answer α → (α → Work E Op Answer β) → Work E Op Answer β
  | done a, f => f a
  | send event rest, f => send event (rest.andThen f)
  | ask op rest, f => ask op fun r => (rest r).andThen f

instance : Monad (Work E Op Answer) where
  pure := done
  bind := andThen

/-! ## What an observer sees -/

/-- **The weakest precondition.** From stage `q`, whatever the answers, every event is one the observer
takes, and the program ends in a stage and with a result that fit together. -/
def wp (ok : (op : Op) → Answer op → Prop) (next : Q → E → Option Q) (post : Q → α → Prop) :
    Q → Work E Op Answer α → Prop
  | q, done a => post q a
  | q, send event rest => ∃ q', next q event = some q' ∧ wp ok next post q' rest
  | q, ask op rest => ∀ r, ok op r → wp ok next post q (rest r)

section Rules

variable {ok : (op : Op) → Answer op → Prop} {next : Q → E → Option Q} {post post' : Q → α → Prop}

theorem wp_mono {q : Q} {w : Work E Op Answer α} (h : wp ok next post q w)
    (hpost : ∀ q a, post q a → post' q a) : wp ok next post' q w := by
  induction w generalizing q with
  | done a => exact hpost q a h
  | send event rest ih =>
      obtain ⟨q', hnext, hrest⟩ := h
      exact ⟨q', hnext, ih hrest⟩
  | ask op rest ih => exact fun r hr => ih r (h r hr)

theorem wp_bind {postβ : Q → β → Prop} {q : Q} {w : Work E Op Answer α}
    {f : α → Work E Op Answer β}
    (h : wp ok next (fun q a => wp ok next postβ q (f a)) q w) : wp ok next postβ q (w >>= f) := by
  show wp ok next postβ q (w.andThen f)
  induction w generalizing q with
  | done a => exact h
  | send event rest ih =>
      obtain ⟨q', hnext, hrest⟩ := h
      exact ⟨q', hnext, ih hrest⟩
  | ask op rest ih => exact fun r hr => ih r (h r hr)

/-- The rule of sequence for programs that may fail: a failure is passed on. -/
theorem wp_bind_except {postβ : Q → Except ε β → Prop} {q : Q}
    {x : ExceptT ε (Work E Op Answer) α} {f : α → ExceptT ε (Work E Op Answer) β}
    (h : wp ok next (fun q r => match r with
      | .ok a => wp ok next postβ q (f a).run
      | .error e => postβ q (.error e)) q x.run) :
    wp ok next postβ q (x >>= f).run := by
  show wp ok next postβ q (x.run >>= ExceptT.bindCont f)
  refine wp_bind (wp_mono h ?_)
  intro q r hr
  cases r with
  | ok a => exact hr
  | error e => exact hr

end Rules

/-! ## What is true of the events -/

/-- **Safety against a partner**: the questions go to a partner with a state of its own, which decides what
it may answer and where that takes it. Whatever it answers, every event fits the state it is sent in, and
the program ends where its result fits. -/
def safe (answer : S → (op : Op) → Answer op → Option S) (tell : S → E → Prop) (post : S → α → Prop) :
    S → Work E Op Answer α → Prop
  | s, done a => post s a
  | s, send event rest => tell s event ∧ safe answer tell post s rest
  | s, ask op rest => ∀ r s', answer s op r = some s' → safe answer tell post s' (rest r)

section Safe

variable {answer : S → (op : Op) → Answer op → Option S} {tell : S → E → Prop}
  {post post' : S → α → Prop}

theorem safe_mono {s : S} {w : Work E Op Answer α} (h : safe answer tell post s w)
    (hpost : ∀ s a, post s a → post' s a) : safe answer tell post' s w := by
  induction w generalizing s with
  | done a => exact hpost s a h
  | send event rest ih => exact ⟨h.1, ih h.2⟩
  | ask op rest ih => exact fun r s' hr => ih r (h r s' hr)

theorem safe_bind {postβ : S → β → Prop} {s : S} {w : Work E Op Answer α}
    {f : α → Work E Op Answer β}
    (h : safe answer tell (fun s a => safe answer tell postβ s (f a)) s w) :
    safe answer tell postβ s (w >>= f) := by
  show safe answer tell postβ s (w.andThen f)
  induction w generalizing s with
  | done a => exact h
  | send event rest ih => exact ⟨h.1, ih h.2⟩
  | ask op rest ih => exact fun r s' hr => ih r (h r s' hr)

/-- The rule of sequence for programs that may fail. -/
theorem safe_bind_except {postβ : S → Except ε β → Prop} {s : S}
    {x : ExceptT ε (Work E Op Answer) α} {f : α → ExceptT ε (Work E Op Answer) β}
    (h : safe answer tell (fun s r => match r with
      | .ok a => safe answer tell postβ s (f a).run
      | .error e => postβ s (.error e)) s x.run) :
    safe answer tell postβ s (x >>= f).run := by
  show safe answer tell postβ s (x.run >>= ExceptT.bindCont f)
  refine safe_bind (safe_mono h ?_)
  intro s r hr
  cases r with
  | ok a => exact hr
  | error e => exact hr

end Safe

/-! ## Running a program -/

/-- Runs a program with a handler: its result, the state it leaves, and the events it sends. -/
def exec (handle : (op : Op) → S → Answer op × S) : Work E Op Answer α → S → α × S × List E
  | done a, s => (a, s, [])
  | send event rest, s =>
      let r := rest.exec handle s
      (r.1, r.2.1, event :: r.2.2)
  | ask op rest, s => (rest (handle op s).1).exec handle (handle op s).2

theorem exec_bind (handle : (op : Op) → S → Answer op × S) (w : Work E Op Answer α)
    (f : α → Work E Op Answer β) (s : S) :
    (w >>= f).exec handle s =
      let r := w.exec handle s
      let r' := (f r.1).exec handle r.2.1
      (r'.1, r'.2.1, r.2.2 ++ r'.2.2) := by
  show (w.andThen f).exec handle s = _
  induction w generalizing s with
  | done a => rfl
  | send event rest ih =>
      simp only [andThen, exec, ih s]
      rfl
  | ask op rest ih => exact ih _ _

section Fallible

variable {handle : (op : Op) → S → Answer op × S} {x : ExceptT ε (Work E Op Answer) α}
  {f : α → ExceptT ε (Work E Op Answer) β} {s mid : S} {events : List E}

/-- A program that may fail goes on with the result of its first half. -/
theorem exec_bind_ok {a : α} (h : x.run.exec handle s = (.ok a, mid, events)) :
    (x >>= f).run.exec handle s =
      let r := (f a).run.exec handle mid
      (r.1, r.2.1, events ++ r.2.2) := by
  show (x.run >>= ExceptT.bindCont f).exec handle s = _
  rw [exec_bind, h]
  rfl

/-- A failure of the first half is the end of it. -/
theorem exec_bind_error {e : ε} (h : x.run.exec handle s = (.error e, mid, events)) :
    (x >>= f).run.exec handle s = (.error e, mid, events) := by
  show (x.run >>= ExceptT.bindCont f).exec handle s = _
  rw [exec_bind, h]
  show ((.error e : Except ε β), mid, events ++ []) = _
  rw [List.append_nil]

/-- **A program decides a condition**: where it holds the run has a good result, and where it does not the run
fails. -/
def Decides (handle : (op : Op) → S → Answer op × S) (x : ExceptT ε (Work E Op Answer) α) (s : S)
    (condition : Prop) (good : α → S → List E → Prop) : Prop :=
  (condition ∧ ∃ a after events, x.run.exec handle s = (.ok a, after, events) ∧ good a after events) ∨
    (¬ condition ∧ ∃ e after events, x.run.exec handle s = (.error e, after, events))

namespace Decides

variable {condition : Prop} {good good' : α → S → List E → Prop}

theorem of_ok {a : α} {after : S} (h : x.run.exec handle s = (.ok a, after, events)) (hcondition : condition)
    (hgood : good a after events) : Decides handle x s condition good :=
  Or.inl ⟨hcondition, a, after, events, h, hgood⟩

theorem congr {condition' : Prop} (h : Decides handle x s condition good) (hiff : condition ↔ condition') :
    Decides handle x s condition' good := by
  rwa [propext hiff] at h

theorem mono (h : Decides handle x s condition good)
    (hgood : ∀ a after events, good a after events → good' a after events) :
    Decides handle x s condition good' := by
  rcases h with ⟨hcondition, a, after, events, hexec, hafter⟩ | hfails
  · exact Or.inl ⟨hcondition, a, after, events, hexec, hgood a after events hafter⟩
  · exact Or.inr hfails

/-- **The rule of sequence**: a bind decides the conditions of both halves. -/
theorem bind {rest : Prop} {result : β → S → List E → Prop} (h : Decides handle x s condition good)
    (hf : ∀ a mid events, condition → good a mid events →
      Decides handle (f a) mid rest fun b after more => result b after (events ++ more)) :
    Decides handle (x >>= f) s (condition ∧ rest) result := by
  rcases h with ⟨hcondition, a, mid, events, hexec, hgood⟩ | ⟨hcondition, e, after, events, hexec⟩
  · rcases hf a mid events hcondition hgood with
      ⟨hrest, b, after, more, hafter, hresult⟩ | ⟨hrest, e, after, more, hafter⟩
    · refine Or.inl ⟨⟨hcondition, hrest⟩, b, after, events ++ more, ?_, hresult⟩
      rw [exec_bind_ok hexec, hafter]
    · refine Or.inr ⟨fun hboth => hrest hboth.2, e, after, events ++ more, ?_⟩
      rw [exec_bind_ok hexec, hafter]
  · exact Or.inr ⟨fun hboth => hcondition hboth.1, e, after, events, exec_bind_error hexec⟩

/-- A first half that does not fail leaves the condition to the second. -/
theorem ok_bind {result : β → S → List E → Prop} {a : α} (h : x.run.exec handle s = (.ok a, mid, events))
    (hf : Decides handle (f a) mid condition fun b after more => result b after (events ++ more)) :
    Decides handle (x >>= f) s condition result := by
  have hfirst : Decides handle x s True fun b after more => b = a ∧ after = mid ∧ more = events :=
    of_ok h trivial ⟨rfl, rfl, rfl⟩
  refine (hfirst.bind ?_).congr (iff_of_eq (true_and condition))
  rintro b after more - ⟨rfl, rfl, rfl⟩
  exact hf

end Decides

/-! ## What is seen of a run -/

/-- **A program comes to a result**, and of the events that it sends, these are the ones that are looked at. -/
def Comes (handle : (op : Op) → S → Answer op × S) (looks : E → Bool) (x : ExceptT ε (Work E Op Answer) α) (s : S)
    (a : α) (after : S) (seen : List E) : Prop :=
  ∃ events, x.run.exec handle s = (.ok a, after, events) ∧ events.filter looks = seen

namespace Comes

variable {looks : E → Bool} {a : α} {after : S} {seen more : List E}

theorem of_exec (h : x.run.exec handle s = (.ok a, after, events)) :
    Comes handle looks x s a after (events.filter looks) :=
  ⟨events, h, rfl⟩

/-- **The rule of sequence**: what is seen of both halves. -/
theorem bind {b : β} (h : Comes handle looks x s a mid seen) (hf : Comes handle looks (f a) mid b after more) :
    Comes handle looks (x >>= f) s b after (seen ++ more) := by
  obtain ⟨events, hexec, rfl⟩ := h
  obtain ⟨events', hexec', rfl⟩ := hf
  refine ⟨events ++ events', ?_, List.filter_append events events'⟩
  rw [exec_bind_ok hexec, hexec']

/-- A first half of which nothing is seen. -/
theorem silent_bind {b : β} (h : Comes handle looks x s a mid []) (hf : Comes handle looks (f a) mid b after more) :
    Comes handle looks (x >>= f) s b after more :=
  h.bind hf

end Comes

/-- **A program fails**, and of the events that it sends, these are the ones that are looked at. -/
def Fails (handle : (op : Op) → S → Answer op × S) (looks : E → Bool) (x : ExceptT ε (Work E Op Answer) α) (s : S)
    (e : ε) (after : S) (seen : List E) : Prop :=
  ∃ events, x.run.exec handle s = (.error e, after, events) ∧ events.filter looks = seen

namespace Fails

variable {looks : E → Bool} {a : α} {e : ε} {after : S} {seen more : List E}

theorem bind (h : Fails handle looks x s e after seen) (f : α → ExceptT ε (Work E Op Answer) β) :
    Fails handle looks (x >>= f) s e after seen := by
  obtain ⟨events, hexec, hseen⟩ := h
  exact ⟨events, exec_bind_error hexec, hseen⟩

/-- A failure of the second half. -/
theorem behind (h : Comes handle looks x s a mid seen) (hf : Fails handle looks (f a) mid e after more) :
    Fails handle looks (x >>= f) s e after (seen ++ more) := by
  obtain ⟨events, hexec, rfl⟩ := h
  obtain ⟨events', hexec', rfl⟩ := hf
  refine ⟨events ++ events', ?_, List.filter_append events events'⟩
  rw [exec_bind_ok hexec, hexec']

end Fails

end Fallible

/-- The stage an observer reaches over some events. -/
def observe (next : Q → E → Option Q) : Q → List E → Option Q
  | q, [] => some q
  | q, event :: events => (next q event).bind fun q' => observe next q' events

theorem observe_append (next : Q → E → Option Q) (q : Q) (events more : List E) :
    observe next q (events ++ more) =
      (observe next q events).bind fun q' => observe next q' more := by
  induction events generalizing q with
  | nil => rfl
  | cons event events ih =>
      show (next q event).bind _ = Option.bind ((next q event).bind _) _
      cases next q event with
      | none => rfl
      | some mid => exact ih mid

/-- **The precondition is enough**: an observer takes all events of a run, and ends where the result
fits. -/
theorem wp_exec {next : Q → E → Option Q} {post : Q → α → Prop}
    {ok : (op : Op) → Answer op → Prop} (handle : (op : Op) → S → Answer op × S)
    (hok : ∀ op s, ok op (handle op s).1) {w : Work E Op Answer α} {q : Q}
    (h : wp ok next post q w) (s : S) :
    ∃ q', observe next q (w.exec handle s).2.2 = some q' ∧ post q' (w.exec handle s).1 := by
  induction w generalizing q s with
  | done a => exact ⟨q, rfl, h⟩
  | send event rest ih =>
      obtain ⟨mid, hnext, hrest⟩ := h
      obtain ⟨q', hobs, hpost⟩ := ih hrest s
      refine ⟨q', ?_, hpost⟩
      show (next q event).bind _ = _
      rw [hnext]
      exact hobs
  | ask op rest ih => exact ih _ (h _ (hok op s)) _

end Work

end Nntp.Lib
