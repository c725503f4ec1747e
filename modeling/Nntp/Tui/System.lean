import Nntp.Lib.Channel
import Nntp.Lib.Machine
import Nntp.Tui.Compose
import Nntp.Tui.Ledger

/-!
# The reader: interface, worker and what is between them

The loop of `tui/mod.rs` on one side, the worker thread on the other, a channel each way and the flag that
both see. A step is one thing either side does, so a sequence of actions is one interleaving. What the
client answers the worker, what the editor does and when anything happens is for the action to say.
-/

namespace Nntp.Tui

open Nntp.Lib Nntp.Proto Nntp.Client

/-- What a reader is started with. -/
structure Environment where
  /-- `str::to_lowercase` -/
  lowercase : Str → Str
  worker : Worker
  /-- the process id -/
  process : Nat

/-- Where the render loop is. -/
inductive Phase where
  /-- taking events from the worker -/
  | draining
  /-- waiting for the terminal -/
  | polling
  /-- in the user's editor -/
  | composing (request : ComposeRequest)
  | ended
  deriving DecidableEq

/-- What the worker thread is doing. -/
inductive WorkerState where
  | idle
  /-- handling a request: what is left to do, and whether the flag was up when the command under way last
  looked at it -/
  | busy (work : WorkerTask Unit) (seen : Bool)
  | stopped

instance : (worker : WorkerState) → Decidable (worker = .stopped)
  | .stopped => isTrue rfl
  | .idle | .busy .. => isFalse fun h => by cases h

/-- A draft that was edited, and the request that posts it if it was fit to be sent. -/
structure Edited where
  path : Path
  text : Str
  request : Option Nat
  deriving DecidableEq, Repr

/-- The whole reader. Requests are named by their position on the channel, and every event carries the
position of the request it belongs to. -/
structure System where
  app : App
  phase : Phase := .draining
  requests : Channel Request := {}
  events : Channel (Nat × Event) := {}
  worker : WorkerState := .idle
  files : Files
  /-- the drafts edited so far -/
  drafts : List Edited := []
  /-- the drafts discarded so far, each with the request whose answer discarded it -/
  discards : List (Path × Nat) := []
  /-- the number of requests issued at each press of Esc -/
  escapes : List Nat := []

/-- One thing that happens. -/
inductive Action where
  /-- the loop takes an event -/
  | receive
  /-- the loop finds no event, and may draw -/
  | idle (drawn : Option (Nat × Nat))
  | key (key : Key)
  /-- nothing from the terminal, or nothing that matters -/
  | tick
  /-- the editor is done -/
  | composed (stamp : Nat) (outcome : EditorOutcome)
  /-- the worker takes a request -/
  | take
  /-- the worker sends an event -/
  | emit
  /-- the command under way looks at the flag -/
  | test
  /-- the client answers -/
  | answer (reply : (op : ClientOp) → op.Answer)
  /-- the worker is done with a request and clears the flag -/
  | finish

namespace System

variable (env : Environment) (s : System)

/-- The position of the request the worker has taken last. -/
def current : Nat := s.requests.received - 1

/-- The number of requests dealt with, the flag cleared after each. -/
def finished : Nat :=
  match s.worker with
  | .idle => s.requests.received
  | _ => s.current

/-! ## The interface -/

/-- `send`: hands a request to the worker, or notes that there is none. -/
def send (request : Request) : System :=
  match s.worker with
  | .stopped =>
      if request = .shutdown then s else { s with app := (s.app.onEvent .disconnected).app }
  | _ => { s with requests := s.requests.send request }

/-- `compose::discard`, on an event that belongs to request `i`. -/
def discard (i : Nat) : Option Path → System
  | none => s
  | some path =>
      { s with files := s.files.remove path, discards := (path, i) :: s.discards }

/-- An event that belongs to request `i` is taken and applied. -/
def arrive (i : Nat) (event : Event) : System :=
  let r := s.app.onEvent event
  ({ s with app := r.app, events := s.events.receive }).discard i r.discarded

/-- An event is applied, and the requests it leads to are sent. -/
def apply (i : Nat) (event : Event) : System :=
  (s.app.onEvent event).requests.foldl send (s.arrive i event)

/-- Nothing is left to take: the loop draws, and ends or turns to the terminal. -/
def settle (drawn : Option (Nat × Nat)) : System :=
  let app :=
    match s.worker with
    | .stopped => (s.app.onEvent .stopped).app
    | _ => s.app
  let app := (drawn.map fun h => app.setPaneHeights h.1 h.2).getD app
  { s with app := app, phase := if app.shouldQuit then .ended else .polling }

/-- A key press is applied; a press of Esc is remembered. -/
def strike (key : Key) : System :=
  let escapes := if key.code = .esc then s.requests.sent.length :: s.escapes else s.escapes
  { s with app := (s.app.onKey env.lowercase key).1, escapes := escapes }

/-- The loop goes to the editor if there is something to compose. -/
def takeCompose : System :=
  match s.app.compose with
  | some request => { s with app := { s.app with compose := none }, phase := .composing request }
  | none => { s with phase := .draining }

/-- A key press is applied, and the requests it leads to are sent. -/
def press (key : Key) : System :=
  ((s.app.onKey env.lowercase key).2.foldl send (s.strike env key)).takeCompose

/-- A draft that was edited is handed to the interface. -/
def submit (text : Str) (path : Path) : System :=
  let r := s.app.onComposed (some (text, path))
  let edited := { path, text, request := r.2.map fun _ => s.requests.sent.length }
  { s with app := r.1, drafts := edited :: s.drafts }

/-- What the loop does with what came back from the editor. -/
def composed (request : ComposeRequest) : Composed → System
  | .edited text path =>
      (s.app.onComposed (some (text, path))).2.toList.foldl send (s.submit text path)
  | .abandoned => { s with app := (s.app.onComposed none).1.note (.abandoned request.what) }
  | .failed => { s with app := (s.app.onComposed none).1.note .couldNotCompose }

/-- The editor at work on a draft. A draft it failed on is a draft as well. -/
def edit (request : ComposeRequest) (stamp : Nat) (outcome : EditorOutcome) : Composed × System :=
  let path := draftPath stamp env.process
  let r := Tui.compose s.files path request.template outcome
  let drafts :=
    match outcome with
    | .failed left => { path, text := left, request := none } :: s.drafts
    | _ => s.drafts
  (r.1, { s with files := r.2, drafts := drafts, phase := .draining })

/-- A composing session. -/
def session (request : ComposeRequest) (stamp : Nat) (outcome : EditorOutcome) : System :=
  let r := s.edit env request stamp outcome
  r.2.composed request r.1

/-! ## The worker -/

/-- The worker takes a request and starts on it, or stops. -/
def takeRequest (request : Request) : System :=
  if request = .shutdown then
    { s with
      requests := s.requests.receive
      events := s.events.send (s.requests.received, .stopped)
      worker := .stopped }
  else
    { s with requests := s.requests.receive, worker := .busy (dispatch env.worker request) false }

/-- A cancelled read is an answer only if the flag was seen up. -/
def Cancelled (op : ClientOp) (r : op.Answer) : Bool :=
  match op, r with
  | .command _, .error e => e.isCancelled
  | _, _ => false

end System

/-- **One step of the reader.** -/
def System.step (env : Environment) (s : System) : Action → Option System
  | .receive =>
      match s.phase, s.events.next with
      | .draining, some (i, event) => some (s.apply i event)
      | _, _ => none
  | .idle drawn =>
      if s.phase = .draining ∧ s.events.isDrained then some (s.settle drawn) else none
  | .key key => if s.phase = .polling then some (s.press env key) else none
  | .tick => if s.phase = .polling then some { s with phase := .draining } else none
  | .composed stamp outcome =>
      match s.phase with
      | .composing request => some (s.session env request stamp outcome)
      | _ => none
  | .take =>
      match s.worker, s.requests.next with
      | .idle, some request => some (s.takeRequest env request)
      | _, _ => none
  | .emit =>
      match s.worker with
      | .busy (.send event rest) seen =>
          some { s with events := s.events.send (s.current, event), worker := .busy rest seen }
      | _ => none
  | .test =>
      match s.worker with
      | .busy (.ask (.command c) rest) _ =>
          some { s with worker := .busy (.ask (.command c) rest) s.app.cancel }
      | _ => none
  | .answer reply =>
      match s.worker with
      | .busy (.ask op rest) seen =>
          if System.Cancelled op (reply op) → seen then
            some { s with worker := .busy (rest (reply op)) false }
          else none
      | _ => none
  | .finish =>
      match s.worker with
      | .busy (.done ()) _ =>
          some { s with worker := .idle, app := { s.app with cancel := false } }
      | _ => none

/-- A reader that has just been started: the group list is requested. -/
def System.start (config : UiConfig) (read : ReadStore) (subscriptions : List Wildmat)
    (postFrom : Option Str) (files : Files) : System :=
  let r := { App.new config read with subscriptions, postFrom }.initialRequests
  r.2.foldl System.send { app := r.1, files := files }

/-- A state some run leads to. -/
def System.Reachable (env : Environment) (s : System) : Prop :=
  ∃ config read subscriptions postFrom files actions,
    run (System.step env) (.start config read subscriptions postFrom files) actions = some s

namespace System

variable {env : Environment} {s s' s'' : System} {a : Action}

/-! ## What a step can be -/

/-- **What a step can be**, with everything that is known before it. -/
inductive Happens (env : Environment) (s : System) : Action → System → Prop where
  | receive {i : Nat} {event : Event} (hphase : s.phase = .draining)
      (hnext : s.events.next = some (i, event)) : Happens env s .receive (s.apply i event)
  | idle {drawn : Option (Nat × Nat)} (hphase : s.phase = .draining)
      (hdrained : s.events.isDrained = true) : Happens env s (.idle drawn) (s.settle drawn)
  | key {key : Key} (hphase : s.phase = .polling) : Happens env s (.key key) (s.press env key)
  | tick (hphase : s.phase = .polling) : Happens env s .tick { s with phase := .draining }
  | composed {request : ComposeRequest} {stamp : Nat} {outcome : EditorOutcome}
      (hphase : s.phase = .composing request) :
      Happens env s (.composed stamp outcome) (s.session env request stamp outcome)
  | take {request : Request} (hworker : s.worker = .idle) (hnext : s.requests.next = some request) :
      Happens env s .take (s.takeRequest env request)
  | emit {event : Event} {rest : WorkerTask Unit} {seen : Bool}
      (hworker : s.worker = .busy (.send event rest) seen) :
      Happens env s .emit
        { s with events := s.events.send (s.current, event), worker := .busy rest seen }
  | test {c : ClientCommand} {rest : ClientOp.Answer (.command c) → WorkerTask Unit} {seen : Bool}
      (hworker : s.worker = .busy (.ask (.command c) rest) seen) :
      Happens env s .test { s with worker := .busy (.ask (.command c) rest) s.app.cancel }
  | answer {op : ClientOp} {reply : (op : ClientOp) → op.Answer}
      {rest : op.Answer → WorkerTask Unit} {seen : Bool}
      (hworker : s.worker = .busy (.ask op rest) seen)
      (hseen : Cancelled op (reply op) = true → seen = true) :
      Happens env s (.answer reply) { s with worker := .busy (rest (reply op)) false }
  | finish {seen : Bool} (hworker : s.worker = .busy (.done ()) seen) :
      Happens env s .finish { s with worker := .idle, app := { s.app with cancel := false } }

theorem step_happens (h : step env s a = some s') : Happens env s a s' := by
  cases a with
  | receive =>
      simp only [step] at h
      split at h
      · next hphase hnext =>
          cases h
          exact .receive hphase hnext
      · cases h
  | idle drawn =>
      simp only [step] at h
      split at h
      · next hidle =>
          cases h
          exact .idle hidle.1 hidle.2
      · cases h
  | key key =>
      simp only [step] at h
      split at h
      · next hphase =>
          cases h
          exact .key hphase
      · cases h
  | tick =>
      simp only [step] at h
      split at h
      · next hphase =>
          cases h
          exact .tick hphase
      · cases h
  | composed stamp outcome =>
      simp only [step] at h
      split at h
      · next hphase =>
          cases h
          exact .composed hphase
      · cases h
  | take =>
      simp only [step] at h
      split at h
      · next hworker hnext =>
          cases h
          exact .take hworker hnext
      · cases h
  | emit =>
      simp only [step] at h
      split at h
      · next hworker =>
          cases h
          exact .emit hworker
      · cases h
  | test =>
      simp only [step] at h
      split at h
      · next hworker =>
          cases h
          exact .test hworker
      · cases h
  | answer reply =>
      simp only [step] at h
      split at h
      · next hworker =>
          split at h
          · next hseen =>
              cases h
              exact .answer hworker hseen
          · cases h
      · cases h
  | finish =>
      simp only [step] at h
      split at h
      · next hworker =>
          cases h
          exact .finish hworker
      · cases h

/-- The induction over the states a reader can reach. -/
theorem Reachable.invariant {P : System → Prop}
    (hstart : ∀ config read subscriptions postFrom files,
      P (start config read subscriptions postFrom files))
    (hstep : ∀ s a s', Happens env s a s' → P s → P s') (h : Reachable env s) : P s := by
  obtain ⟨config, read, subscriptions, postFrom, files, actions, hrun⟩ := h
  have hmeets : Meets (step env) (fun _ _ => True)
      (start config read subscriptions postFrom files) actions :=
    meets_of_forall _ (fun _ _ => trivial) _ _
  exact invariant_run (step env) (fun s a s' _ h => hstep s a s' (step_happens h)) (hstart ..)
    hmeets hrun

/-! ## What the interface leaves alone -/

/-- A step of the interface: it may issue requests and take events, and leaves the worker alone. -/
structure Interface (s s' : System) : Prop where
  worker : s'.worker = s.worker
  taken : s'.requests.received = s.requests.received
  issued : s.requests.sent <+: s'.requests.sent
  events : s'.events.sent = s.events.sent

theorem Interface.refl : Interface s s := ⟨rfl, rfl, List.prefix_rfl, rfl⟩

theorem Interface.trans (h : Interface s s') (h' : Interface s' s'') : Interface s s'' :=
  ⟨h'.worker.trans h.worker, h'.taken.trans h.taken, h.issued.trans h'.issued,
    h'.events.trans h.events⟩

/-- A request keeps its position. -/
theorem Interface.keeps (h : Interface s s') {i : Nat} {request : Request}
    (hi : s.requests.sent[i]? = some request) : s'.requests.sent[i]? = some request := by
  obtain ⟨more, hmore⟩ := h.issued
  rw [← hmore, List.getElem?_append_left (List.getElem?_eq_some_iff.mp hi).1]
  exact hi

/-- What handing over some requests does: they are on the channel, or the worker has gone and the
interface may be told that it is disconnected. -/
structure Sent (requests : List Request) (s s' : System) : Prop where
  frame : s' = { s with app := s'.app, requests := s'.requests }
  taken : s'.requests.received = s.requests.received
  running : s.worker ≠ .stopped →
    s'.app = s.app ∧ s'.requests.sent = s.requests.sent ++ requests
  stopped : s.worker = .stopped → s'.requests.sent = s.requests.sent ∧
    (s'.app.ledger = s.app.ledger ∨
      s'.app.ledger = { s.app.ledger with inflight := 0, posting := none })

theorem send_sent (s : System) (request : Request) : Sent [request] s (s.send request) := by
  unfold send
  split
  · next hworker =>
      split
      · exact ⟨rfl, rfl, fun h => absurd hworker h, fun _ => ⟨rfl, Or.inl rfl⟩⟩
      · exact ⟨rfl, rfl, fun h => absurd hworker h,
          fun _ => ⟨rfl, Or.inr (s.app.ledger_onEvent .disconnected).1⟩⟩
  · next hworker => exact ⟨rfl, rfl, fun _ => ⟨rfl, rfl⟩, fun h => absurd h hworker⟩

section

variable {requests : List Request} (h : Sent requests s s')
include h

theorem Sent.worker : s'.worker = s.worker := by rw [h.frame]

theorem Sent.events : s'.events = s.events := by rw [h.frame]

theorem Sent.files : s'.files = s.files := by rw [h.frame]

theorem Sent.drafts : s'.drafts = s.drafts := by rw [h.frame]

theorem Sent.discards : s'.discards = s.discards := by rw [h.frame]

theorem Sent.escapes : s'.escapes = s.escapes := by rw [h.frame]

end

theorem Sent.trans {requests more : List Request} (h : Sent requests s s') (h' : Sent more s' s'') :
    Sent (requests ++ more) s s'' := by
  refine ⟨?_, h'.taken.trans h.taken, ?_, ?_⟩
  · rw [h'.frame, h.frame]
  · intro hworker
    obtain ⟨happ, hsent⟩ := h.running hworker
    obtain ⟨happ', hsent'⟩ := h'.running (by rw [h.worker]; exact hworker)
    exact ⟨happ'.trans happ, by rw [hsent', hsent, List.append_assoc]⟩
  · intro hworker
    obtain ⟨hsent, hledger⟩ := h.stopped hworker
    obtain ⟨hsent', hledger'⟩ := h'.stopped (h.worker.trans hworker)
    refine ⟨hsent'.trans hsent, ?_⟩
    rcases hledger with hledger | hledger
    · rw [hledger] at hledger'
      exact hledger'
    · rw [hledger] at hledger'
      exact Or.inr (hledger'.elim id id)

theorem foldl_send (requests : List Request) (s : System) :
    Sent requests s (requests.foldl send s) := by
  induction requests generalizing s with
  | nil =>
      exact ⟨rfl, rfl, fun _ => ⟨rfl, (List.append_nil _).symm⟩, fun _ => ⟨rfl, Or.inl rfl⟩⟩
  | cons request requests ih => exact (send_sent s request).trans (ih _)

/-- However it went, only the count of requests and the draft being posted may have changed. -/
theorem Sent.ledger {requests : List Request} (h : Sent requests s s') :
    s'.app.ledger = s.app.ledger ∨
      s'.app.ledger = { s.app.ledger with inflight := 0, posting := none } := by
  rcases Classical.em (s.worker = .stopped) with hworker | hworker
  · exact (h.stopped hworker).2
  · rw [(h.running hworker).1]
    exact Or.inl rfl

theorem Sent.interface {requests : List Request} (h : Sent requests s s') : Interface s s' := by
  refine ⟨h.worker, h.taken, ?_, by rw [h.frame]⟩
  rcases Classical.em (s.worker = .stopped) with hworker | hworker
  · exact (h.stopped hworker).1 ▸ List.prefix_rfl
  · rw [(h.running hworker).2]
    exact List.prefix_append _ _

section

variable (i : Nat) (path : Option Path) (event : Event)

@[simp] theorem discard_app : (s.discard i path).app = s.app := by cases path <;> rfl

@[simp] theorem discard_requests : (s.discard i path).requests = s.requests := by cases path <;> rfl

@[simp] theorem discard_events : (s.discard i path).events = s.events := by cases path <;> rfl

@[simp] theorem discard_worker : (s.discard i path).worker = s.worker := by cases path <;> rfl

@[simp] theorem discard_drafts : (s.discard i path).drafts = s.drafts := by cases path <;> rfl

@[simp] theorem discard_escapes : (s.discard i path).escapes = s.escapes := by cases path <;> rfl

theorem arrive_ledger : (s.arrive i event).app.ledger = s.app.ledger.onEvent event := by
  unfold arrive
  rw [discard_app]
  exact (s.app.ledger_onEvent event).1

theorem arrive_worker : (s.arrive i event).worker = s.worker := discard_worker ..

theorem arrive_requests : (s.arrive i event).requests = s.requests := discard_requests ..

theorem arrive_drafts : (s.arrive i event).drafts = s.drafts := discard_drafts ..

theorem arrive_escapes : (s.arrive i event).escapes = s.escapes := discard_escapes ..

theorem arrive_events : (s.arrive i event).events = s.events.receive := discard_events ..

end

theorem arrive_interface (i : Nat) (event : Event) : Interface s (s.arrive i event) := by
  refine ⟨arrive_worker .., ?_, ?_, ?_⟩
  · rw [arrive_requests]
  · exact arrive_requests i event ▸ List.prefix_rfl
  · rw [arrive_events]
    rfl

theorem apply_interface (i : Nat) (event : Event) : Interface s (s.apply i event) :=
  (arrive_interface i event).trans (foldl_send _ _).interface

theorem strike_interface (key : Key) : Interface s (s.strike env key) :=
  ⟨rfl, rfl, List.prefix_rfl, rfl⟩

theorem takeCompose_interface : Interface s s.takeCompose := by
  unfold takeCompose
  split
  · exact ⟨rfl, rfl, List.prefix_rfl, rfl⟩
  · exact ⟨rfl, rfl, List.prefix_rfl, rfl⟩

theorem press_interface (key : Key) : Interface s (s.press env key) :=
  ((strike_interface key).trans (foldl_send _ _).interface).trans takeCompose_interface

theorem edit_interface (request : ComposeRequest) (stamp : Nat) (outcome : EditorOutcome) :
    Interface s (s.edit env request stamp outcome).2 :=
  ⟨rfl, rfl, List.prefix_rfl, rfl⟩

/-- What the interface makes of a draft that is handed in, with the rest as it was. -/
structure Submitted (text : Str) (path : Path) (composed : App × Option Request) (s s' : System) :
    Prop where
  app : s'.app = composed.1
  drafts : s'.drafts =
    { path, text, request := composed.2.map fun _ => s.requests.sent.length } :: s.drafts
  requests : s'.requests = s.requests
  events : s'.events = s.events
  worker : s'.worker = s.worker
  files : s'.files = s.files
  phase : s'.phase = s.phase

theorem submit_submitted (s : System) (text : Str) (path : Path) :
    Submitted text path (s.app.onComposed (some (text, path))) s (s.submit text path) := by
  unfold submit
  generalize s.app.onComposed (some (text, path)) = composed
  exact ⟨rfl, rfl, rfl, rfl, rfl, rfl, rfl⟩

theorem submit_interface (text : Str) (path : Path) : Interface s (s.submit text path) :=
  ⟨rfl, rfl, List.prefix_rfl, rfl⟩

theorem composed_interface (request : ComposeRequest) (composed : Composed) :
    Interface s (s.composed request composed) := by
  cases composed with
  | edited text path => exact (submit_interface text path).trans (foldl_send _ _).interface
  | abandoned => exact ⟨rfl, rfl, List.prefix_rfl, rfl⟩
  | failed => exact ⟨rfl, rfl, List.prefix_rfl, rfl⟩

theorem session_interface (request : ComposeRequest) (stamp : Nat) (outcome : EditorOutcome) :
    Interface s (s.session env request stamp outcome) :=
  (edit_interface request stamp outcome).trans (composed_interface request _)

theorem settle_interface (drawn : Option (Nat × Nat)) : Interface s (s.settle drawn) :=
  ⟨rfl, rfl, List.prefix_rfl, rfl⟩

theorem tick_interface : Interface s { s with phase := .draining } :=
  ⟨rfl, rfl, List.prefix_rfl, rfl⟩

end System

end Nntp.Tui
