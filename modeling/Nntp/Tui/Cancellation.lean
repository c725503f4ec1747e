import Nntp.Tui.Delivery

/-!
# Cancellation

The interface raises the flag, the worker's reads look at it, and the worker clears it after each request.
A request should be cancelled only if Esc was pressed after it had been issued. What decides that is
whether, when Esc raises the flag, there is a request the worker has not dealt with yet: the count of
outstanding requests, which the interface goes by, lags behind the worker.
-/

namespace Nntp.Tui

open Nntp.Lib Nntp.Proto Nntp.Client

namespace System

variable {env : Environment} {s s' : System} {a : Action} {i : Nat} {event : Event}

/-! ## What the steps of the interface do to the flag -/

theorem Sent.cancel {requests : List Request} (h : Sent requests s s') :
    s'.app.cancel = s.app.cancel := by
  rcases h.ledger with hledger | hledger
  · exact congrArg Ledger.cancel hledger
  · exact congrArg Ledger.cancel hledger

theorem apply_cancel (i : Nat) (event : Event) : (s.apply i event).app.cancel = s.app.cancel := by
  have harrive := congrArg Ledger.cancel (arrive_ledger (s := s) i event)
  rw [(s.app.ledger.onEvent_frame event).1] at harrive
  exact (foldl_send _ (s.arrive i event)).cancel.trans harrive

theorem settle_cancel (drawn : Option (Nat × Nat)) : (s.settle drawn).app.cancel = s.app.cancel := by
  unfold settle
  cases drawn with
  | none => dsimp only [Option.map_none, Option.getD_none]; split <;> rfl
  | some heights => dsimp only [Option.map_some, Option.getD_some, App.setPaneHeights]; split <;> rfl

theorem takeCompose_cancel : s.takeCompose.app.cancel = s.app.cancel := by
  unfold takeCompose
  split <;> rfl

theorem press_cancel (key : Key) :
    (s.press env key).app.cancel = (s.app.onKey env.lowercase key).1.cancel :=
  takeCompose_cancel.trans (foldl_send _ (s.strike env key)).cancel

theorem session_cancel (request : ComposeRequest) (stamp : Nat) (outcome : EditorOutcome) :
    (s.session env request stamp outcome).app.cancel = s.app.cancel := by
  have hcomposed : ∀ (s : System) composed,
      (s.composed request composed).app.cancel = s.app.cancel := by
    intro s composed
    cases composed with
    | edited text path =>
        have hsubmitted := submit_submitted s text path
        have hledger := ledger_onComposed s.app (some (text, path))
        change ((s.app.onComposed (some (text, path))).2.toList.foldl send
          (s.submit text path)).app.cancel = _
        generalize s.submit text path = submitted at hsubmitted ⊢
        generalize s.app.onComposed (some (text, path)) = composed at hsubmitted hledger ⊢
        rw [(foldl_send _ submitted).cancel, hsubmitted.app]
        rcases hledger with ⟨h, _⟩ | ⟨_, _, _, h, _⟩
        · exact congrArg Ledger.cancel h
        · exact congrArg Ledger.cancel h
    | abandoned => rfl
    | failed => rfl
  exact hcomposed _ _

theorem apply_escapes (i : Nat) (event : Event) : (s.apply i event).escapes = s.escapes :=
  (foldl_send _ (s.arrive i event)).escapes.trans (arrive_escapes i event)

theorem session_escapes (request : ComposeRequest) (stamp : Nat) (outcome : EditorOutcome) :
    (s.session env request stamp outcome).escapes = s.escapes := by
  have hcomposed : ∀ (s : System) composed, (s.composed request composed).escapes = s.escapes := by
    intro s composed
    cases composed with
    | edited text path => exact (foldl_send _ (s.submit text path)).escapes
    | abandoned => rfl
    | failed => rfl
  exact hcomposed _ _

theorem press_escapes (key : Key) : (s.press env key).escapes =
    if key.code = .esc then s.requests.sent.length :: s.escapes else s.escapes := by
  have htake : ∀ s : System, s.takeCompose.escapes = s.escapes := by
    intro s
    unfold takeCompose
    split <;> rfl
  exact (htake _).trans (foldl_send _ (s.strike env key)).escapes

/-! ## The invariant -/

/-- Esc was pressed after request `i` had been issued. -/
def EscapedAfter (s : System) (i : Nat) : Prop := ∃ n ∈ s.escapes, i < n

/-- **A cancellation does not leak**: a request is reported cancelled only if Esc was pressed after it
had been issued. -/
def CancelledInTime (s : System) : Prop :=
  ∀ i context, (i, Event.cancelled context) ∈ s.events.sent → s.EscapedAfter i

/-- Esc raises the flag only while the worker has something to do. -/
def EscapesInTime (s : System) (a : Action) : Prop :=
  ∀ key, a = .key key → s.app.cancels key → s.finished < s.requests.sent.length

instance (s : System) : (a : Action) → Decidable (EscapesInTime s a)
  | .key key =>
      decidable_of_iff (s.app.cancels key → s.finished < s.requests.sent.length)
        ⟨fun h _ hkey => by cases hkey; exact h, fun h => h key rfl⟩
  | .receive | .idle _ | .tick | .composed .. | .take | .emit | .test | .answer _ | .finish =>
      isTrue fun _ hkey => by cases hkey

/-- What the flag stands for: as long as it is up, or was seen up by the command under way, Esc was
pressed after the first request not dealt with had been issued. -/
structure FlagInvariant (s : System) : Prop where
  flag : s.app.cancel = true → s.EscapedAfter s.finished
  seen : ∀ work, s.worker = .busy work true → s.EscapedAfter s.finished
  /-- before that the work goes on without a cancellation -/
  work : ∀ work seen, s.worker = .busy work seen → s.EscapedAfter s.finished ∨
    ∃ request q, Work.wp (Allowed false) (advance false request) (fun q _ => q.Ended) q work
  safe : s.CancelledInTime

theorem finished_of_busy {work : WorkerTask Unit} {seen : Bool} (h : s.worker = .busy work seen) :
    s.finished = s.current := by
  unfold finished
  rw [h]

theorem Interface.finished (h : Interface s s') : s'.finished = s.finished := by
  unfold System.finished current
  rw [h.worker, h.taken]

theorem EscapedAfter.mono (h : s.EscapedAfter i) (hsub : ∀ n ∈ s.escapes, n ∈ s'.escapes) :
    s'.EscapedAfter i := by
  obtain ⟨n, hn, hlt⟩ := h
  exact ⟨n, hsub n hn, hlt⟩

theorem FlagInvariant.interface (h : FlagInvariant s) (hs : Interface s s')
    (hsub : ∀ n ∈ s.escapes, n ∈ s'.escapes)
    (hflag : s'.app.cancel = true → s.app.cancel = true ∨ s'.EscapedAfter s.finished) :
    FlagInvariant s' := by
  refine ⟨?_, ?_, ?_, ?_⟩
  · intro hcancel
    rw [hs.finished]
    rcases hflag hcancel with hcancel | hescaped
    · exact (h.flag hcancel).mono hsub
    · exact hescaped
  · intro work hwork
    rw [hs.worker] at hwork
    rw [hs.finished]
    exact (h.seen work hwork).mono hsub
  · intro work seen hwork
    rw [hs.worker] at hwork
    rw [hs.finished]
    exact (h.work work seen hwork).imp (fun hescaped => hescaped.mono hsub) id
  · intro i context hmem
    rw [hs.events] at hmem
    exact (h.safe i context hmem).mono hsub

/-- Of all that a key can do, only Esc raises the flag. -/
theorem onKey_cancel {lowercase : Str → Str} {app : App} {key : Key}
    (h : (app.onKey lowercase key).1.cancel = true) : app.cancel = true ∨ app.cancels key := by
  have hkey := ledger_onKey lowercase app key
  have hkeeps : ∀ l : Ledger, (app.onKey lowercase key).1.ledger = l → l.cancel = app.cancel →
      app.cancel = true := by
    intro l hl hcancel
    rw [← hcancel, ← hl]
    exact h
  generalize (app.onKey lowercase key).2 = requests at hkey
  cases hkey with
  | cancel hcancels _ => exact Or.inr hcancels
  | screen hl => exact Or.inl (hkeeps _ hl rfl)
  | quit hl => exact Or.inl (hkeeps _ hl rfl)
  | groups _ hl => exact Or.inl (hkeeps _ hl rfl)
  | article _ _ _ _ hl => exact Or.inl (hkeeps _ hl rfl)
  | clear _ _ _ hl => exact Or.inl (hkeeps _ hl rfl)
  | enter _ _ _ hl => exact Or.inl (hkeeps _ hl rfl)
  | reload _ _ hl => exact Or.inl (hkeeps _ hl rfl)
  | compose _ hl => exact Or.inl (hkeeps _ hl rfl)

/-- Esc that raises the flag in time is pressed after the first request not dealt with was issued. -/
theorem FlagInvariant.key (h : FlagInvariant s) {key : Key} (hok : EscapesInTime s (.key key)) :
    FlagInvariant (s.press env key) := by
  refine h.interface (press_interface key) ?_ ?_
  · intro n hn
    rw [press_escapes]
    split
    · exact List.mem_cons_of_mem _ hn
    · exact hn
  · intro hcancel
    rw [press_cancel] at hcancel
    rcases onKey_cancel hcancel with hup | hcancels
    · exact Or.inl hup
    · refine Or.inr ⟨s.requests.sent.length, ?_, hok key rfl hcancels⟩
      rw [press_escapes, if_pos hcancels.2.2.1]
      exact List.mem_cons_self

/-- A request is taken: it is the first one not dealt with. -/
theorem FlagInvariant.take (h : FlagInvariant s) (hworker : s.worker = .idle) (request : Request) :
    FlagInvariant (s.takeRequest env request) := by
  have hflag : s.app.cancel = true → s.EscapedAfter s.requests.received := by
    have hflag := h.flag
    unfold finished at hflag
    rw [hworker] at hflag
    exact hflag
  unfold takeRequest
  split
  · refine ⟨hflag, ?_, ?_, ?_⟩
    · intro work hwork
      cases hwork
    · intro work seen hwork
      cases hwork
    · intro i context hmem
      rcases List.mem_append.mp hmem with hmem | hmem
      · exact h.safe i context hmem
      · cases List.mem_singleton.mp hmem
  · next hne =>
      refine ⟨hflag, ?_, ?_, h.safe⟩
      · intro work hwork
        cases hwork
      · intro work seen hwork
        cases hwork
        exact Or.inr ⟨request, .waiting, dispatch_follows false env.worker hne⟩

/-- With the flag down no stage takes a cancellation. -/
theorem advance_cancelled (request : Request) (q : Stage) (context : Str) :
    advance false request q (.cancelled context) = none := by
  cases q <;> rfl

theorem FlagInvariant.emit (h : FlagInvariant s) {rest : WorkerTask Unit} {seen : Bool}
    (hworker : s.worker = .busy (.send event rest) seen) :
    FlagInvariant
      { s with events := s.events.send (s.current, event), worker := .busy rest seen } := by
  have hfinished := finished_of_busy hworker
  refine ⟨?_, ?_, ?_, ?_⟩
  · intro hcancel
    have hescaped := h.flag hcancel
    rw [hfinished] at hescaped
    exact hescaped
  · intro work hwork
    cases hwork
    have hescaped := h.seen _ hworker
    rw [hfinished] at hescaped
    exact hescaped
  · intro work seen' hwork
    cases hwork
    have hrest := h.work _ _ hworker
    rw [hfinished] at hrest
    rcases hrest with hescaped | ⟨request, q, q', _, hrest⟩
    · exact Or.inl hescaped
    · exact Or.inr ⟨request, q', hrest⟩
  · intro i context hmem
    rcases List.mem_append.mp hmem with hmem | hmem
    · exact h.safe i context hmem
    · cases List.mem_singleton.mp hmem
      have hrest := h.work _ _ hworker
      rw [hfinished] at hrest
      rcases hrest with hescaped | ⟨request, q, q', hnext, _⟩
      · exact hescaped
      · rw [advance_cancelled] at hnext
        cases hnext

theorem FlagInvariant.test (h : FlagInvariant s) {c : ClientCommand}
    {rest : ClientOp.Answer (.command c) → WorkerTask Unit} {seen : Bool}
    (hworker : s.worker = .busy (.ask (.command c) rest) seen) :
    FlagInvariant { s with worker := .busy (.ask (.command c) rest) s.app.cancel } := by
  have hfinished := finished_of_busy hworker
  have hflag := h.flag
  rw [hfinished] at hflag
  refine ⟨hflag, ?_, ?_, h.safe⟩
  · intro work hwork
    exact hflag (WorkerState.busy.inj hwork).2
  · intro work seen' hwork
    cases hwork
    have hrest := h.work _ _ hworker
    rw [hfinished] at hrest
    exact hrest

/-- An answer is a cancelled read only if the flag was seen up, and then Esc was pressed in time. -/
theorem FlagInvariant.answer (h : FlagInvariant s) {op : ClientOp}
    {reply : (op : ClientOp) → op.Answer} {rest : op.Answer → WorkerTask Unit} {seen : Bool}
    (hworker : s.worker = .busy (.ask op rest) seen)
    (hseen : Cancelled op (reply op) = true → seen = true) :
    FlagInvariant { s with worker := .busy (rest (reply op)) false } := by
  have hfinished := finished_of_busy hworker
  have hflag := h.flag
  rw [hfinished] at hflag
  refine ⟨hflag, ?_, ?_, h.safe⟩
  · intro work hwork
    cases hwork
  · intro work seen' hwork
    cases hwork
    have hrest := h.work _ _ hworker
    rw [hfinished] at hrest
    rcases hrest with hescaped | ⟨request, q, hrest⟩
    · exact Or.inl hescaped
    · cases seen with
      | true =>
          have hescaped := h.seen _ hworker
          rw [hfinished] at hescaped
          exact Or.inl hescaped
      | false =>
          refine Or.inr ⟨request, q, hrest _ ?_⟩
          cases op with
          | query k => trivial
          | command c =>
              intro e he hcancelled
              apply absurd (hseen ?_) Bool.false_ne_true
              unfold Cancelled
              rw [he]
              exact hcancelled

theorem FlagInvariant.finish (h : FlagInvariant s) :
    FlagInvariant { s with worker := .idle, app := { s.app with cancel := false } } := by
  refine ⟨?_, ?_, ?_, h.safe⟩
  · intro hcancel
    cases hcancel
  · intro work hwork
    cases hwork
  · intro work seen hwork
    cases hwork

theorem FlagInvariant.step (h : FlagInvariant s) (hok : EscapesInTime s a)
    (hs : Happens env s a s') : FlagInvariant s' := by
  cases hs with
  | receive _ _ =>
      refine h.interface (apply_interface _ _) ?_ ?_
      · rw [apply_escapes]
        exact fun _ hn => hn
      · rw [apply_cancel]
        exact Or.inl
  | idle _ _ =>
      refine h.interface (settle_interface _) (fun _ hn => hn) ?_
      rw [settle_cancel]
      exact Or.inl
  | key _ => exact h.key hok
  | tick _ => exact h.interface tick_interface (fun _ hn => hn) Or.inl
  | composed _ =>
      refine h.interface (session_interface _ _ _) ?_ ?_
      · rw [session_escapes]
        exact fun _ hn => hn
      · rw [session_cancel]
        exact Or.inl
  | take hworker _ => exact h.take hworker _
  | emit hworker => exact h.emit hworker
  | test hworker => exact h.test hworker
  | answer hworker hseen => exact h.answer hworker hseen
  | finish _ => exact h.finish

theorem start_flagInvariant (config : UiConfig) (read : ReadStore) (subscriptions : List Wildmat)
    (postFrom : Option Str) (files : Files) :
    FlagInvariant (start config read subscriptions postFrom files) := by
  refine ⟨?_, ?_, ?_, ?_⟩
  · intro hcancel
    cases hcancel
  · intro work hwork
    cases hwork
  · intro work seen hwork
    cases hwork
  · intro i context hmem
    cases hmem

/-- **Cancellations do not leak in runs where Esc is in time**: if it raises the flag only while the
worker has a request to deal with, every request reported cancelled was issued before a press of Esc. -/
theorem cancelledInTime_of_escapesInTime (env : Environment) (config : UiConfig) (read : ReadStore)
    (subscriptions : List Wildmat) (postFrom : Option Str) (files : Files) (actions : List Action)
    (s : System)
    (hrun : run (step env) (start config read subscriptions postFrom files) actions = some s)
    (hok : Meets (step env) EscapesInTime (start config read subscriptions postFrom files) actions) :
    CancelledInTime s := by
  have hinv : FlagInvariant s := invariant_run (step env)
    (fun _ _ _ hok hs hinv => FlagInvariant.step hinv hok (step_happens hs))
    (start_flagInvariant config read subscriptions postFrom files) hok hrun
  exact hinv.safe

/-! ### Two presses of Esc -/

/-- A server without groups. -/
def noGroups : (op : ClientOp) → op.Answer
  | .query .isConnected => true
  | .query .discard => ()
  | .query .selectedGroup => none
  | .command (.listGroups _) => .ok []
  | .command (.listGroupDescriptions _) => .ok []
  | .command _ => .error .timeout

/-- A read that was cancelled. -/
def interrupted : (op : ClientOp) → op.Answer
  | .query .isConnected => true
  | .query .discard => ()
  | .query .selectedGroup => none
  | .command _ => .error (.cancelled "a data block")

/-- A reader that shows no article without being asked. -/
def plainConfig : UiConfig where
  unreadOnly := false
  threaded := false
  initialArticles := 10
  markReadOnOpen := true

def plainEnvironment : Environment where
  lowercase := id
  worker := { authority := [], overviewChunk := 10 }
  process := 1

def plainStart : System := start plainConfig {} [] none fun _ => none

/-- The group list is asked for, and Esc is pressed while it arrives. -/
def escWhileListing : List Action :=
  [.idle none, .take, .emit, .answer noGroups, .key { code := .esc }, .test, .answer interrupted,
    .answer noGroups, .emit]

/-- The group list has arrived, but the interface has not taken it yet when Esc is pressed. The next
request is another one for the group list. -/
def escAfterListing : List Action :=
  [.idle none, .take, .emit, .answer noGroups, .answer noGroups, .answer noGroups, .answer noGroups,
    .emit, .finish, .key { code := .esc }, .receive, .receive, .idle none,
    .key { code := .char 'r' }, .take, .emit, .answer noGroups, .test, .answer interrupted,
    .answer noGroups, .emit]

/-- Whether request `i` has been reported cancelled. -/
def reportsCancelled (s : System) (i : Nat) : Bool :=
  (s.eventsOf i).any fun event => event = .cancelled "fetching the group list".toList

theorem cancelledInTime_escWhileListing :
    ∃ s, run (step plainEnvironment) plainStart escWhileListing = some s ∧
      s.reportsCancelled 0 = true ∧ CancelledInTime s := by
  have heval : (run (step plainEnvironment) plainStart escWhileListing).map
      (fun s => s.reportsCancelled 0) = some true := by decide +kernel
  obtain ⟨s, hrun, hreports⟩ := Option.map_eq_some_iff.mp heval
  exact ⟨s, hrun, hreports, cancelledInTime_of_escapesInTime plainEnvironment plainConfig {} [] none
    (fun _ => none) escWhileListing s hrun (by decide +kernel)⟩

/-- Pressed after the worker was done and before the interface knew it, Esc cancels the request that
comes next. -/
theorem escAfterListing_leaks : ¬ ∀ (env : Environment) (config : UiConfig) (read : ReadStore)
    (subscriptions : List Wildmat) (postFrom : Option Str) (files : Files) (actions : List Action)
    (s : System), run (step env) (start config read subscriptions postFrom files) actions = some s →
      CancelledInTime s := by
  intro hall
  have heval : (run (step plainEnvironment) plainStart escAfterListing).map
      (fun s => (s.reportsCancelled 1, s.escapes)) = some (true, [1]) := by decide +kernel
  obtain ⟨s, hrun, hs⟩ := Option.map_eq_some_iff.mp heval
  obtain ⟨hreports, hescapes⟩ := Prod.mk.inj hs
  obtain ⟨event, hmem, hevent⟩ := List.any_eq_true.mp hreports
  rw [of_decide_eq_true hevent, mem_eventsOf] at hmem
  obtain ⟨n, hn, hlt⟩ := hall _ _ _ _ _ _ _ s hrun 1 _ hmem
  rw [hescapes, List.mem_singleton] at hn
  omega

end System

end Nntp.Tui
