import Mathlib.Data.Finset.Card
import Mathlib.Data.Finset.Range
import Nntp.Tui.Cancellation

/-!
# Outstanding requests

The interface counts the requests it is waiting for, and Esc goes by that count. It is right as long as
the connection, or the worker, is given up only when nothing else is waited for: then the count is set to
nought, whatever is queued.
-/

namespace Nntp.Tui

open Nntp.Lib Nntp.Proto Nntp.Client

namespace System

variable {env : Environment} {s s' : System} {a : Action} {i : Nat} {event : Event}
  {request : Request}

/-- Whether the final answer to request `i` has been taken. -/
def isAnswered (s : System) (i : Nat) : Bool := s.arrived.any fun e => e.1 = i && e.2.isFinal

/-- The requests that were issued and whose final answer has not been taken. A request to stop is not
answered. -/
def unanswered (s : System) : Finset Nat :=
  (Finset.range s.requests.sent.length).filter fun i =>
    s.requests.sent[i]? ≠ some .shutdown ∧ s.isAnswered i = false

/-- **The count is exact**, and Esc goes by it: outside the filter and the overlays it raises the flag
exactly while some request is unanswered. -/
structure CountsExactly (s : System) : Prop where
  inflight : s.app.inflight = s.unanswered.card
  escape : ∀ lowercase key, s.app.editingFilter = false → s.app.overlay = .none → key.code = .esc →
    ((s.app.onKey lowercase key).1.cancel = true ↔ s.app.cancel = true ∨ s.unanswered.Nonempty)

/-- An event of request `i` that ends the count comes when nothing else is waited for. A posting that
leads to a fetch does so too once the worker has stopped. -/
def EndsWhenDone (s : System) (i : Nat) : Event → Prop
  | .disconnected => s.unanswered = ∅
  | .stopped => s.unanswered = ∅
  | .posted _ => s.worker = .stopped → s.app.ledger.reloads.isSome = true → s.unanswered ⊆ {i}
  | _ => True

/-- The connection is reported lost, and the worker found to have stopped, only when nothing else is
waited for. -/
def GivesUpWhenDone (s : System) : Action → Prop
  | .receive => ∀ e ∈ s.events.next, s.EndsWhenDone e.1 e.2
  | .idle _ => s.worker = .stopped → s.unanswered = ∅
  | _ => True

instance (s : System) (i : Nat) (event : Event) : Decidable (s.EndsWhenDone i event) := by
  cases event <;> unfold EndsWhenDone <;> infer_instance

instance (s : System) (a : Action) : Decidable (GivesUpWhenDone s a) := by
  cases a <;> unfold GivesUpWhenDone <;> infer_instance

theorem mem_unanswered : i ∈ s.unanswered ↔ i < s.requests.sent.length ∧
    s.requests.sent[i]? ≠ some .shutdown ∧ s.isAnswered i = false := by
  unfold unanswered
  rw [Finset.mem_filter, Finset.mem_range]

theorem isAnswered_iff : s.isAnswered i = true ↔ ∃ event, (i, event) ∈ s.arrived ∧
    event.isFinal = true := by
  unfold isAnswered
  rw [List.any_eq_true]
  constructor
  · rintro ⟨⟨j, event⟩, hmem, he⟩
    obtain ⟨hj, hfinal⟩ := Bool.and_eq_true_iff.mp he
    cases of_decide_eq_true hj
    exact ⟨event, hmem, hfinal⟩
  · rintro ⟨event, hmem, hfinal⟩
    exact ⟨(i, event), hmem, Bool.and_eq_true_iff.mpr ⟨decide_eq_true rfl, hfinal⟩⟩

/-! ## What changes the unanswered requests -/

theorem unanswered_congr (hsent : s'.requests.sent = s.requests.sent)
    (harrived : s'.arrived = s.arrived) : s'.unanswered = s.unanswered := by
  unfold unanswered isAnswered
  rw [hsent, harrived]

/-- Only requests the worker has taken are answered. -/
theorem lt_of_isAnswered (h : Delivery s) (hi : s.isAnswered i = true) :
    i < s.requests.received := by
  obtain ⟨event, hmem, _⟩ := isAnswered_iff.mp hi
  exact h.tags _ (arrived_subset _ hmem)

/-- A request that is issued is waited for, unless it is the one to stop. -/
theorem card_issue (h : Delivery s) (hsent : s'.requests.sent = s.requests.sent ++ [request])
    (harrived : s'.arrived = s.arrived) : s'.unanswered.card =
      s.unanswered.card + if request = .shutdown then 0 else 1 := by
  have hanswered : ∀ i, s'.isAnswered i = s.isAnswered i := by
    intro i
    unfold isAnswered
    rw [harrived]
  have hnew : s.isAnswered s.requests.sent.length = false := by
    rw [Bool.eq_false_iff]
    exact fun hi => absurd (lt_of_isAnswered h hi) (Nat.not_lt.mpr h.taken)
  have hmem : ∀ i, i ∈ s'.unanswered ↔
      i ∈ s.unanswered ∨ i = s.requests.sent.length ∧ request ≠ .shutdown := by
    intro i
    rw [mem_unanswered, mem_unanswered, hanswered, hsent, List.length_append, List.length_singleton,
      Nat.lt_succ_iff_lt_or_eq]
    rcases Nat.lt_trichotomy i s.requests.sent.length with hlt | rfl | hgt
    · rw [List.getElem?_append_left hlt]
      grind
    · rw [List.getElem?_concat_length]
      grind
    · grind
  split
  · next hshutdown =>
      have hsame : s'.unanswered = s.unanswered := by
        ext i
        rw [hmem]
        exact or_iff_left fun hi => hi.2 hshutdown
      rw [hsame, Nat.add_zero]
  · next hne =>
      have hinsert : s'.unanswered = insert s.requests.sent.length s.unanswered := by
        ext i
        rw [hmem, Finset.mem_insert, or_comm]
        exact or_congr (and_iff_left hne) Iff.rfl
      rw [hinsert, Finset.card_insert_of_notMem]
      exact fun hi => absurd (mem_unanswered.mp hi).1 (Nat.lt_irrefl _)

/-- **An event is a final answer to a request that was waited for**, or answers nothing. -/
theorem unanswered_arrive (h : Sound s) (hnext : s.events.next = some (i, event)) (s' : System)
    (hsent : s'.requests.sent = s.requests.sent) (hevents : s'.events = s.events.receive) :
    if event.isFinal then i ∈ s.unanswered ∧ s'.unanswered = s.unanswered.erase i
    else s'.unanswered = s.unanswered := by
  have harrived := arrived_receive hnext hevents
  have hanswered : ∀ j, s'.isAnswered j = (s.isAnswered j || (decide (i = j) && event.isFinal)) := by
    intro j
    unfold isAnswered
    rw [harrived, List.any_append, List.any_cons, List.any_nil, Bool.or_false]
  split
  · next hfinal =>
      refine ⟨?_, ?_⟩
      · have hi : i < s.requests.received := h.delivery.tags _ (Channel.mem_of_next hnext)
        have hlt := Nat.lt_of_lt_of_le hi h.delivery.taken
        have hne : s.requests.sent[i]? ≠ some .shutdown := by
          intro hshutdown
          have hstopped : event = .stopped := h.tail.stops _ (Channel.mem_of_next hnext) hshutdown
          rw [hstopped] at hfinal
          cases hfinal
        refine mem_unanswered.mpr ⟨hlt, hne, ?_⟩
        rw [Bool.eq_false_iff]
        intro hbefore
        obtain ⟨q, q', hq, hq'⟩ := h.delivery.next hnext (List.getElem?_eq_getElem hlt)
          (by rw [List.getElem?_eq_getElem hlt] at hne; exact fun heq => hne (by rw [heq]))
        obtain ⟨earlier, hmem, hearlier⟩ := isAnswered_iff.mp hbefore
        have hended := (observe_final (Or.inl rfl) hq).mpr ⟨earlier, mem_arrivedOf.mpr hmem, hearlier⟩
        obtain ⟨hlost, _⟩ := advance_ended hended hq'
        rw [hlost] at hfinal
        cases hfinal
      · ext j
        rw [Finset.mem_erase, mem_unanswered, mem_unanswered, hanswered, hsent, hfinal]
        grind
  · next hfinal =>
      ext j
      rw [mem_unanswered, mem_unanswered, hanswered, hsent, Bool.eq_false_iff.mpr hfinal,
        Bool.and_false, Bool.or_false]

/-! ## What changes the count -/

/-- At most one request is issued, and it is counted unless it is the one to stop. -/
def Issues (before after : Nat) (requests : List Request) : Prop :=
  requests = [] ∧ after = before ∨
    ∃ request, requests = [request] ∧ after = before + if request = .shutdown then 0 else 1

theorem onKey_issues {lowercase : Str → Str} {app : App} {key : Key} {after : Ledger}
    {requests : List Request} (h : KeyOutcome lowercase app key after requests) :
    Issues app.inflight after.inflight requests := by
  cases h with
  | screen h | cancel _ h | clear _ _ _ h | compose _ h =>
      rw [h]
      exact Or.inl ⟨rfl, rfl⟩
  | quit h =>
      rw [h]
      exact Or.inr ⟨_, rfl, rfl⟩
  | groups _ h | article _ _ _ _ h | enter _ _ _ h | reload _ _ h =>
      rw [h]
      exact Or.inr ⟨_, rfl, rfl⟩

theorem onComposed_issues (app : App) (composed : Option (Str × Path)) :
    Issues app.inflight (app.onComposed composed).1.inflight
      (app.onComposed composed).2.toList := by
  rcases ledger_onComposed app composed with ⟨h, hnone⟩ | ⟨_, _, _, h, hsome⟩
  · rw [hnone]
    exact Or.inl ⟨rfl, congrArg Ledger.inflight h⟩
  · rw [hsome]
    exact Or.inr ⟨_, rfl, congrArg Ledger.inflight h⟩

/-- A final answer is counted off, and the fetch it may lead to is counted. -/
theorem onEvent_issues (l : Ledger) (event : Event) (hlost : event ≠ .disconnected)
    (hstopped : event ≠ .stopped) :
    Issues (if event.isFinal then l.inflight - 1 else l.inflight) (l.onEvent event).inflight
      (l.requests event) := by
  cases event with
  | overviewChunk group token records skipped =>
      refine Or.inl ⟨rfl, ?_⟩
      unfold Ledger.onEvent
      dsimp only
      split <;> rfl
  | overviewComplete group token =>
      refine Or.inl ⟨rfl, ?_⟩
      unfold Ledger.onEvent
      dsimp only
      split <;> rfl
  | posted text =>
      unfold Ledger.onEvent Ledger.requests
      cases l.reloads with
      | none => exact Or.inl ⟨rfl, rfl⟩
      | some group => exact Or.inr ⟨_, rfl, rfl⟩
  | disconnected => exact absurd rfl hlost
  | stopped => exact absurd rfl hstopped
  | _ => exact Or.inl ⟨rfl, rfl⟩

/-- Handing over what was counted keeps the count. -/
theorem count_sent {mid : System} {requests : List Request} (hmid : Delivery mid)
    (hsent : Sent requests mid s') (hworker : mid.worker ≠ .stopped)
    (hissues : Issues mid.unanswered.card mid.app.inflight requests) :
    s'.app.inflight = s'.unanswered.card := by
  obtain ⟨happ, hrequests⟩ := hsent.running hworker
  have harrived : s'.arrived = mid.arrived := by
    unfold arrived
    rw [hsent.events]
  rw [happ]
  rcases hissues with ⟨rfl, hcount⟩ | ⟨request, rfl, hcount⟩
  · rw [hcount, unanswered_congr (hrequests.trans (List.append_nil _)) harrived]
  · rw [hcount, card_issue hmid hrequests harrived]

/-- Only an accepted posting leads to a request. -/
theorem posted_of_mem_requests {l : Ledger} (h : request ∈ l.requests event) :
    ∃ text, event = .posted text ∧ l.reloads.isSome = true := by
  cases event with
  | posted text =>
      obtain ⟨group, hgroup, _⟩ := Option.map_eq_some_iff.mp (Option.mem_toList.mp h)
      exact ⟨text, rfl, Option.isSome_of_eq_some hgroup⟩
  | _ => cases h

/-- A request that finds no worker ends the count. -/
theorem send_gone (hworker : s.worker = .stopped) (hne : request ≠ .shutdown) :
    (s.send request).app.inflight = 0 := by
  unfold send
  rw [hworker]
  dsimp only
  rw [if_neg hne]
  exact congrArg Ledger.inflight (s.app.ledger_onEvent .disconnected).1

theorem count_apply (h : Sound s) (hcount : s.app.inflight = s.unanswered.card)
    (hok : GivesUpWhenDone s .receive) (hnext : s.events.next = some (i, event)) :
    (s.apply i event).app.inflight = (s.apply i event).unanswered.card := by
  have hledger : (s.arrive i event).app.inflight = (s.app.ledger.onEvent event).inflight :=
    congrArg Ledger.inflight (arrive_ledger i event)
  have hrequests := (s.app.ledger_onEvent event).2.1
  have hsent := foldl_send (s.app.onEvent event).requests (s.arrive i event)
  have hmid : Delivery (s.arrive i event) := h.delivery.interface (arrive_interface i event)
  have harrive := unanswered_arrive h hnext (s.arrive i event) (by rw [arrive_requests])
    (arrive_events i event)
  have hok : s.EndsWhenDone i event := hok _ hnext
  by_cases hgone : event = .disconnected ∨ event = .stopped
  · -- everything was answered, and stays so
    have hempty : s.unanswered = ∅ := by
      rcases hgone with rfl | rfl
      · exact hok
      · exact hok
    have hnone : (s.app.onEvent event).requests = [] := by
      rcases hgone with rfl | rfl
      · exact hrequests
      · exact hrequests
    have hzero : (s.arrive i event).app.inflight = 0 := by
      rcases hgone with rfl | rfl
      · exact hledger
      · exact hledger
    have hsame : (s.arrive i event).unanswered = s.unanswered := by
      rcases hgone with rfl | rfl
      · exact harrive
      · exact harrive
    unfold apply
    rw [hnone, List.foldl_nil, hzero, hsame, hempty, Finset.card_empty]
  · have hissues := onEvent_issues s.app.ledger event (fun h => hgone (Or.inl h))
      fun h => hgone (Or.inr h)
    have hcard : (if event.isFinal then s.app.ledger.inflight - 1 else s.app.ledger.inflight) =
        (s.arrive i event).unanswered.card := by
      show (if _ then s.app.inflight - 1 else s.app.inflight) = _
      rw [hcount]
      split at harrive
      · next hfinal =>
          rw [if_pos hfinal, harrive.2, Finset.card_erase_of_mem harrive.1]
      · next hfinal => rw [if_neg hfinal, harrive]
    rw [hcard, ← hledger, ← hrequests] at hissues
    by_cases hworker : s.worker = .stopped
    · rcases hissues with ⟨hnone, hzero⟩ | ⟨request, hone, _⟩
      · unfold apply
        rw [hnone, List.foldl_nil]
        exact hzero
      · have hmem : request ∈ s.app.ledger.requests event := by
          rw [← hrequests, hone]
          exact List.mem_singleton_self _
        obtain ⟨text, rfl, hreloads⟩ := posted_of_mem_requests hmem
        have hne : request ≠ .shutdown :=
          fun heq => shutdown_not_mem_requests _ _ (heq ▸ hmem)
        have hunanswered : (s.apply i (.posted text)).unanswered = ∅ := by
          have hlast : s.unanswered.erase i = ∅ := by
            rw [Finset.erase_eq_empty_iff, Finset.subset_singleton_iff.symm]
            exact hok hworker hreloads
          rw [unanswered_congr (s := s.arrive i (.posted text)) ?_ ?_, harrive.2, hlast]
          · exact (hsent.stopped ((arrive_worker ..).trans hworker)).1
          · unfold arrived
            rw [show (s.apply i (.posted text)).events = _ from hsent.events]
        rw [hunanswered, Finset.card_empty]
        unfold apply
        rw [hone]
        exact send_gone ((arrive_worker ..).trans hworker) hne
    · exact count_sent hmid hsent (by rw [arrive_worker]; exact hworker) hissues

theorem count_press (h : Sound s) (hcount : s.app.inflight = s.unanswered.card) {key : Key}
    (hphase : s.phase = .polling) :
    (s.press env key).app.inflight = (s.press env key).unanswered.card := by
  have hsent := foldl_send (s.app.onKey env.lowercase key).2 (s.strike env key)
  have hissues := onKey_issues (ledger_onKey env.lowercase s.app key)
  have hsame : (s.strike env key).unanswered = s.unanswered := rfl
  rw [hcount, ← hsame] at hissues
  have hcount := count_sent (h.delivery.interface (strike_interface key)) hsent
    (h.quits.running (Or.inl hphase)).2.2 hissues
  have htake : ∀ s : System, s.takeCompose.app.inflight = s.app.inflight ∧
      s.takeCompose.unanswered = s.unanswered := by
    intro s
    unfold takeCompose
    split <;> exact ⟨rfl, rfl⟩
  unfold press
  rw [(htake _).1, (htake _).2]
  exact hcount

theorem count_session (h : Sound s) (hcount : s.app.inflight = s.unanswered.card)
    {request : ComposeRequest} (stamp : Nat) (outcome : EditorOutcome)
    (hphase : s.phase = .composing request) : (s.session env request stamp outcome).app.inflight =
      (s.session env request stamp outcome).unanswered.card := by
  have hworker := (h.quits.running (Or.inr ⟨request, hphase⟩)).2.2
  have hedit : Interface s (s.edit env request stamp outcome).2 := edit_interface request stamp outcome
  have hcomposed : ∀ c, ((s.edit env request stamp outcome).2.composed request c).app.inflight =
      ((s.edit env request stamp outcome).2.composed request c).unanswered.card := by
    intro c
    cases c with
    | edited text path =>
        have hissues := onComposed_issues s.app (some (text, path))
        rw [hcount] at hissues
        have hdelivery := h.delivery.interface (hedit.trans (submit_interface text path))
        exact count_sent hdelivery (foldl_send _ _) hworker hissues
    | abandoned => exact hcount
    | failed => exact hcount
  exact hcomposed _

theorem count_settle (hcount : s.app.inflight = s.unanswered.card) (drawn : Option (Nat × Nat))
    (hok : GivesUpWhenDone s (.idle drawn)) :
    (s.settle drawn).app.inflight = (s.settle drawn).unanswered.card := by
  have hdrawn : ∀ app : App, ((drawn.map fun h => app.setPaneHeights h.1 h.2).getD app).inflight =
      app.inflight := by
    intro app
    cases drawn <;> rfl
  have hsame : (s.settle drawn).unanswered = s.unanswered := rfl
  rw [hsame]
  unfold settle
  split
  · next hworker =>
      rw [hok hworker]
      exact hdrawn _
  · exact (hdrawn s.app).trans hcount

/-- What the worker does changes neither the count nor what is waited for. -/
theorem count_worker (hcount : s.app.inflight = s.unanswered.card)
    (hinflight : s'.app.inflight = s.app.inflight) (hsent : s'.requests.sent = s.requests.sent)
    (harrived : s'.arrived = s.arrived) : s'.app.inflight = s'.unanswered.card := by
  rw [hinflight, unanswered_congr hsent harrived]
  exact hcount

theorem count_step (h : Sound s) (hcount : s.app.inflight = s.unanswered.card)
    (hok : GivesUpWhenDone s a) (hs : Happens env s a s') :
    s'.app.inflight = s'.unanswered.card := by
  cases hs with
  | receive _ hnext => exact count_apply h hcount hok hnext
  | idle _ _ => exact count_settle hcount _ hok
  | key hphase => exact count_press h hcount hphase
  | tick _ => exact hcount
  | composed hphase => exact count_session h hcount _ _ hphase
  | take _ _ =>
      unfold takeRequest
      split
      · exact count_worker hcount rfl rfl (Channel.taken_send h.tail.taken _)
      · exact hcount
  | emit _ => exact count_worker hcount rfl rfl (Channel.taken_send h.tail.taken _)
  | test _ | answer _ _ | finish _ => exact hcount

/-- Esc outside the filter and the overlays goes by the count. -/
theorem escape_iff (hcount : s.app.inflight = s.unanswered.card) (lowercase : Str → Str) (key : Key)
    (hfilter : s.app.editingFilter = false) (hoverlay : s.app.overlay = .none)
    (hkey : key.code = .esc) :
    (s.app.onKey lowercase key).1.cancel = true ↔ s.app.cancel = true ∨ s.unanswered.Nonempty := by
  have hcode : ¬(key.control = true ∧ key.code = .char 'c') := by
    intro h
    rw [hkey] at h
    cases h.2
  have hescape : (s.app.onKey lowercase key).1 = s.app.escape := by
    unfold App.onKey App.paneKey
    rw [if_neg (by rw [hfilter]; exact Bool.false_ne_true), if_neg hcode,
      if_neg (not_not.mpr hoverlay), hkey]
  rw [hescape, ← Finset.card_pos, ← hcount]
  unfold App.escape App.requestCancellation
  split
  · next hpos =>
      rw [if_neg (Nat.ne_of_gt hpos)]
      exact iff_of_true rfl (Or.inr hpos)
  · next hzero =>
      refine Iff.trans ?_ (or_iff_left hzero).symm
      split <;> exact Iff.rfl

theorem start_count (config : UiConfig) (read : ReadStore) (subscriptions : List Wildmat)
    (postFrom : Option Str) (files : Files) :
    (start config read subscriptions postFrom files).app.inflight =
      (start config read subscriptions postFrom files).unanswered.card := rfl

/-- **The count of outstanding requests is exact** in every run in which the connection is reported
lost, and the worker found to have stopped, only when nothing else is waited for. -/
theorem countsExactly_of_givesUpWhenDone (env : Environment) (config : UiConfig) (read : ReadStore)
    (subscriptions : List Wildmat) (postFrom : Option Str) (files : Files) (actions : List Action)
    (s : System)
    (hrun : run (step env) (start config read subscriptions postFrom files) actions = some s)
    (hok : Meets (step env) GivesUpWhenDone (start config read subscriptions postFrom files)
      actions) : CountsExactly s := by
  have hinv : Sound s ∧ s.app.inflight = s.unanswered.card :=
    invariant_run (P := fun s => Sound s ∧ s.app.inflight = s.unanswered.card) (step env)
      (fun _ _ _ hok hs hinv =>
        ⟨hinv.1.step (step_happens hs), count_step hinv.1 hinv.2 hok (step_happens hs)⟩)
      ⟨start_sound .., start_count ..⟩ hok hrun
  exact ⟨hinv.2, escape_iff hinv.2⟩

/-! ### A connection that is lost -/

/-- A server that does not answer. -/
def silent : (op : ClientOp) → op.Answer
  | .query .isConnected => true
  | .query .discard => ()
  | .query .selectedGroup => none
  | .command _ => .error .timeout

/-- The worker loses the connection over the request it has taken. -/
def losesConnection : List Action :=
  [.take, .emit, .answer silent, .answer silent, .emit, .answer silent, .emit, .finish]

/-- The group list is asked for, and the connection is lost. -/
def lostWhileListing : List Action :=
  .idle none :: .tick :: losesConnection ++ [.receive, .receive, .receive]

/-- The same, with the group list asked for once more in between. -/
def lostBeforeListing : List Action :=
  .idle none :: .key { code := .char 'r' } :: losesConnection ++ [.receive, .receive, .receive]

theorem countsExactly_lostWhileListing :
    ∃ s, run (step plainEnvironment) plainStart lostWhileListing = some s ∧
      s.events.received = 3 ∧ CountsExactly s := by
  have heval : (run (step plainEnvironment) plainStart lostWhileListing).map
      (fun s => s.events.received) = some 3 := by decide +kernel
  obtain ⟨s, hrun, hreceived⟩ := Option.map_eq_some_iff.mp heval
  exact ⟨s, hrun, hreceived, countsExactly_of_givesUpWhenDone plainEnvironment plainConfig {} []
    none (fun _ => none) lostWhileListing s hrun (by decide +kernel)⟩

/-- The second request is still queued when the loss of the connection ends the count. -/
theorem lostBeforeListing_miscounts : ¬ ∀ (env : Environment) (config : UiConfig)
    (read : ReadStore) (subscriptions : List Wildmat) (postFrom : Option Str) (files : Files)
    (actions : List Action) (s : System),
    run (step env) (start config read subscriptions postFrom files) actions = some s →
      CountsExactly s := by
  intro hall
  have heval : (run (step plainEnvironment) plainStart lostBeforeListing).map
      (fun s => (s.app.inflight, s.unanswered)) = some (0, {1}) := by decide +kernel
  obtain ⟨s, hrun, hs⟩ := Option.map_eq_some_iff.mp heval
  obtain ⟨hinflight, hunanswered⟩ := Prod.mk.inj hs
  have hcount := (hall _ _ _ _ _ _ _ s hrun).inflight
  rw [hinflight, hunanswered, Finset.card_singleton] at hcount
  cases hcount

end System

end Nntp.Tui
