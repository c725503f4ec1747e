import Nntp.Tui.System

/-!
# What arrives

Every event belongs to a request the worker has taken, the events come in the order of the requests, and
those of one request follow its protocol. This is an invariant of the reader, and it is what the
interface can rely on when it takes an event.
-/

namespace Nntp.Tui

open Nntp.Lib Nntp.Proto Nntp.Client

namespace System

variable {env : Environment} {s s' : System} {a : Action} {i : Nat} {event : Event}
  {request : Request}

/-- The events sent for request `i`, in order. -/
def eventsOf (s : System) (i : Nat) : List Event :=
  (s.events.sent.filter fun e => e.1 = i).map (·.2)

/-- What is left to do for request `i` takes its protocol from stage `q` to an end. -/
def Left (s : System) (i : Nat) (request : Request) (q : Stage) : Prop :=
  match s.worker with
  | .busy work _ =>
      if i = s.current then
        Work.wp (Allowed true) (advance true request) (fun q _ => q.Ended) q work
      else q.Ended
  | _ => q.Ended

/-- The stage request `i` is in. -/
def At (s : System) (i : Nat) (request : Request) (q : Stage) : Prop :=
  Work.observe (advance true request) .waiting (s.eventsOf i) = some q

/-- **The invariant of the channels.** -/
structure Delivery (s : System) : Prop where
  taken : s.requests.received ≤ s.requests.sent.length
  /-- a busy worker is busy with the request it took last -/
  busy : ∀ work seen, s.worker = .busy work seen → 0 < s.requests.received ∧
    ∃ request, s.requests.sent[s.current]? = some request ∧ request ≠ .shutdown
  tags : ∀ e ∈ s.events.sent, e.1 < s.requests.received
  ordered : s.events.sent.Pairwise fun d e => d.1 ≤ e.1
  follows : ∀ i request, i < s.requests.received → s.requests.sent[i]? = some request →
    request ≠ .shutdown → ∃ q, s.At i request q ∧ s.Left i request q

theorem left_busy {work : WorkerTask Unit} {seen : Bool} {q : Stage}
    (h : s.worker = .busy work seen) : s.Left i request q ↔
      if i = s.current then
        Work.wp (Allowed true) (advance true request) (fun q _ => q.Ended) q work
      else q.Ended := by
  unfold Left
  rw [h]

/-! ## The events of one request -/

theorem eventsOf_eq_nil (h : ∀ e ∈ s.events.sent, e.1 < i) : s.eventsOf i = [] := by
  unfold eventsOf
  rw [List.filter_eq_nil_iff.mpr]
  · rfl
  · intro e he hi
    exact absurd (of_decide_eq_true hi) (Nat.ne_of_lt (h e he))

/-- Sending an event for request `j` adds it to the events of `j` alone. -/
theorem eventsOf_send {j : Nat} (h : s'.events.sent = s.events.sent ++ [(j, event)]) :
    s'.eventsOf i = s.eventsOf i ++ if j = i then [event] else [] := by
  unfold eventsOf
  rw [h, List.filter_append, List.map_append]
  by_cases hj : j = i
  · rw [if_pos hj, List.filter_cons_of_pos (by simpa using hj)]
    rfl
  · rw [if_neg hj, List.filter_cons_of_neg (by simpa using hj)]
    rfl

theorem mem_eventsOf : event ∈ s.eventsOf i ↔ (i, event) ∈ s.events.sent := by
  unfold eventsOf
  constructor
  · intro h
    obtain ⟨e, he, rfl⟩ := List.mem_map.mp h
    obtain ⟨hmem, htag⟩ := List.mem_filter.mp he
    rw [← of_decide_eq_true htag]
    exact hmem
  · intro h
    exact List.mem_map.mpr ⟨(i, event), List.mem_filter.mpr ⟨h, decide_eq_true rfl⟩, rfl⟩

/-! ## The invariant -/

theorem prefix_getElem? {α : Type} {xs ys : List α} (h : xs <+: ys) {i : Nat} (hi : i < xs.length) :
    ys[i]? = xs[i]? := by
  obtain ⟨zs, rfl⟩ := h
  exact List.getElem?_append_left hi

theorem Delivery.interface (h : Delivery s) (hs : Interface s s') : Delivery s' := by
  have hcurrent : s'.current = s.current := by
    unfold current
    rw [hs.taken]
  have hget : ∀ i, i < s.requests.received → s'.requests.sent[i]? = s.requests.sent[i]? :=
    fun i hi => prefix_getElem? hs.issued (Nat.lt_of_lt_of_le hi h.taken)
  have hevents : ∀ i, s'.eventsOf i = s.eventsOf i := by
    intro i
    unfold eventsOf
    rw [hs.events]
  refine ⟨?_, ?_, ?_, ?_, ?_⟩
  · rw [hs.taken]
    exact h.taken.trans hs.issued.length_le
  · intro work seen hwork
    rw [hs.worker] at hwork
    obtain ⟨hpos, request, hrequest, hne⟩ := h.busy work seen hwork
    rw [hs.taken, hcurrent]
    refine ⟨hpos, request, ?_, hne⟩
    rw [hget s.current (Nat.sub_lt hpos Nat.one_pos)]
    exact hrequest
  · rw [hs.events, hs.taken]
    exact h.tags
  · rw [hs.events]
    exact h.ordered
  · intro i request hi hrequest hne
    rw [hs.taken] at hi
    rw [hget i hi] at hrequest
    obtain ⟨q, hat, hleft⟩ := h.follows i request hi hrequest hne
    refine ⟨q, ?_, ?_⟩
    · unfold At
      rw [hevents]
      exact hat
    · unfold Left at hleft ⊢
      rw [hs.worker, hcurrent]
      exact hleft

/-- With the worker idle every request taken has been dealt with. -/
theorem Delivery.ended (h : Delivery s) (hworker : ∀ work seen, s.worker ≠ .busy work seen)
    (hi : i < s.requests.received) (hrequest : s.requests.sent[i]? = some request)
    (hne : request ≠ .shutdown) : ∃ q, s.At i request q ∧ q.Ended := by
  obtain ⟨q, hat, hleft⟩ := h.follows i request hi hrequest hne
  refine ⟨q, hat, ?_⟩
  unfold Left at hleft
  split at hleft
  · next work seen hwork => exact absurd hwork (hworker work seen)
  · exact hleft

theorem Delivery.take (h : Delivery s) (hworker : s.worker = .idle)
    (hnext : s.requests.next = some request) : Delivery (s.takeRequest env request) := by
  have hlt := Channel.lt_of_next hnext
  have hidle : ∀ work seen, s.worker ≠ .busy work seen := by
    intro work seen hwork
    rw [hworker] at hwork
    cases hwork
  have hold : ∀ i r, i < s.requests.received + 1 → s.requests.sent[i]? = some r →
      r ≠ .shutdown → r ≠ request ∨ i ≠ s.requests.received → i < s.requests.received := by
    intro i r hi hr _ hor
    rcases Nat.lt_or_eq_of_le (Nat.le_of_lt_succ hi) with hi | rfl
    · exact hi
    · rcases hor with hor | hor
      · rw [show s.requests.sent[s.requests.received]? = some request from hnext] at hr
        exact absurd (Option.some.inj hr).symm hor
      · exact absurd rfl hor
  unfold takeRequest
  show Delivery (if request = .shutdown then _ else _)
  split
  · next hshutdown =>
      refine ⟨hlt, ?_, ?_, ?_, ?_⟩
      · intro work seen hwork
        cases hwork
      · intro e he
        rcases List.mem_append.mp he with he | he
        · exact Nat.lt_succ_of_lt (h.tags e he)
        · rw [List.mem_singleton.mp he]
          exact Nat.lt_succ_self _
      · refine List.pairwise_append.mpr ⟨h.ordered, List.pairwise_singleton _ _, ?_⟩
        intro d hd e he
        rw [List.mem_singleton.mp he]
        exact Nat.le_of_lt (h.tags d hd)
      · intro i r hi hr hne
        have hi' := hold i r hi hr hne (Or.inl fun heq => hne (heq.trans hshutdown))
        obtain ⟨q, hat, hq⟩ := h.ended hidle hi' hr hne
        refine ⟨q, ?_, hq⟩
        unfold At
        rw [eventsOf_send (s := s) (j := s.requests.received) rfl, if_neg (Nat.ne_of_gt hi'),
          List.append_nil]
        exact hat
  · next hne =>
      refine ⟨hlt, ?_, ?_, h.ordered, ?_⟩
      · intro work seen _
        exact ⟨Nat.succ_pos _, request, hnext, hne⟩
      · exact fun e he => Nat.lt_succ_of_lt (h.tags e he)
      · intro i r hi hr hr'
        by_cases heq : i = s.requests.received
        · subst heq
          have hr : s.requests.next = some r := hr
          rw [hnext] at hr
          cases hr
          refine ⟨.waiting, ?_, ?_⟩
          · show Work.observe _ _ (s.eventsOf _) = _
            rw [eventsOf_eq_nil h.tags]
            rfl
          · exact (if_pos rfl).mpr (dispatch_follows true env.worker hne)
        · have hi' := hold i r hi hr hr' (Or.inr heq)
          obtain ⟨q, hat, hq⟩ := h.ended hidle hi' hr hr'
          exact ⟨q, hat, (if_neg heq).mpr hq⟩

/-- Work that goes on without an event: the rest is still by the protocol. -/
theorem Delivery.work (h : Delivery s) {work work' : WorkerTask Unit} {seen seen' : Bool}
    (hworker : s.worker = .busy work seen)
    (hrest : ∀ request q,
      Work.wp (Allowed true) (advance true request) (fun q (_ : Unit) => q.Ended) q work →
      Work.wp (Allowed true) (advance true request) (fun q (_ : Unit) => q.Ended) q work') :
    Delivery { s with worker := .busy work' seen' } := by
  refine ⟨h.taken, fun _ _ _ => h.busy work seen hworker, h.tags, h.ordered, ?_⟩
  intro i request hi hrequest hne
  obtain ⟨q, hat, hleft⟩ := h.follows i request hi hrequest hne
  refine ⟨q, hat, ?_⟩
  have hleft := (left_busy hworker).mp hleft
  show if i = s.current then _ else _
  by_cases hcurrent : i = s.current
  · rw [if_pos hcurrent] at hleft ⊢
    exact hrest request q hleft
  · rw [if_neg hcurrent] at hleft ⊢
    exact hleft

theorem Delivery.emit (h : Delivery s) {rest : WorkerTask Unit} {seen : Bool}
    (hworker : s.worker = .busy (.send event rest) seen) :
    Delivery { s with events := s.events.send (s.current, event), worker := .busy rest seen } := by
  obtain ⟨hpos, hcurrent⟩ := h.busy _ _ hworker
  have hlt : s.current < s.requests.received := Nat.sub_lt hpos Nat.one_pos
  refine ⟨h.taken, fun _ _ _ => ⟨hpos, hcurrent⟩, ?_, ?_, ?_⟩
  · intro e he
    rcases List.mem_append.mp he with he | he
    · exact h.tags e he
    · rw [List.mem_singleton.mp he]
      exact hlt
  · refine List.pairwise_append.mpr ⟨h.ordered, List.pairwise_singleton _ _, ?_⟩
    intro d hd e he
    rw [List.mem_singleton.mp he]
    exact Nat.le_sub_one_of_lt (h.tags d hd)
  · intro i request hi hrequest hne
    obtain ⟨q, hat, hleft⟩ := h.follows i request hi hrequest hne
    have hleft := (left_busy hworker).mp hleft
    by_cases hcur : i = s.current
    · obtain ⟨q', hnext, hrest⟩ := (if_pos hcur).mp hleft
      refine ⟨q', ?_, (if_pos hcur).mpr hrest⟩
      unfold At
      rw [eventsOf_send (s := s) rfl, if_pos hcur.symm, Work.observe_append, show
        Work.observe (advance true request) .waiting (s.eventsOf i) = some q from hat]
      show (advance true request q event).bind _ = _
      rw [hnext]
      rfl
    · refine ⟨q, ?_, (if_neg hcur).mpr ((if_neg hcur).mp hleft)⟩
      unfold At
      rw [eventsOf_send (s := s) rfl, if_neg (Ne.symm hcur), List.append_nil]
      exact hat

theorem Delivery.finish (h : Delivery s) {seen : Bool} (hworker : s.worker = .busy (.done ()) seen) :
    Delivery { s with worker := .idle, app := { s.app with cancel := false } } := by
  refine ⟨h.taken, ?_, h.tags, h.ordered, ?_⟩
  · intro work seen hwork
    cases hwork
  · intro i request hi hrequest hne
    obtain ⟨q, hat, hleft⟩ := h.follows i request hi hrequest hne
    refine ⟨q, hat, ?_⟩
    have hleft := (left_busy hworker).mp hleft
    show q.Ended
    split at hleft
    · exact hleft
    · exact hleft

theorem Delivery.step (h : Delivery s) (hs : Happens env s a s') : Delivery s' := by
  cases hs with
  | receive _ _ => exact h.interface (apply_interface _ _)
  | idle _ _ => exact h.interface (settle_interface _)
  | key _ => exact h.interface (press_interface _)
  | tick _ => exact h.interface tick_interface
  | composed _ => exact h.interface (session_interface _ _ _)
  | take hworker hnext => exact h.take hworker hnext
  | emit hworker => exact h.emit hworker
  | test hworker => exact h.work hworker fun _ _ hrest => hrest
  | answer hworker _ =>
      refine h.work hworker fun request q hrest => hrest _ ?_
      cases ‹ClientOp› with
      | query k => trivial
      | command c => exact fun e _ _ => rfl
  | finish hworker => exact h.finish hworker

theorem start_delivery (config : UiConfig) (read : ReadStore) (subscriptions : List Wildmat)
    (postFrom : Option Str) (files : Files) :
    Delivery (start config read subscriptions postFrom files) := by
  refine ⟨Nat.zero_le _, ?_, ?_, List.Pairwise.nil, ?_⟩
  · intro work seen hwork
    cases hwork
  · intro e he
    cases he
  · intro i request hi
    exact absurd hi (Nat.not_lt_zero i)

/-! ## What is taken -/

/-- The events the interface has taken, each with its request. -/
def arrived (s : System) : List (Nat × Event) := s.events.taken

/-- The events of request `i` the interface has taken. -/
def arrivedOf (s : System) (i : Nat) : List Event :=
  (s.arrived.filter fun e => e.1 = i).map (·.2)

theorem arrived_subset : ∀ e ∈ s.arrived, e ∈ s.events.sent :=
  fun _ he => List.mem_of_mem_take he

theorem mem_arrivedOf : event ∈ s.arrivedOf i ↔ (i, event) ∈ s.arrived := by
  unfold arrivedOf
  constructor
  · intro h
    obtain ⟨e, he, rfl⟩ := List.mem_map.mp h
    obtain ⟨hmem, htag⟩ := List.mem_filter.mp he
    rw [← of_decide_eq_true htag]
    exact hmem
  · intro h
    exact List.mem_map.mpr ⟨(i, event), List.mem_filter.mpr ⟨h, decide_eq_true rfl⟩, rfl⟩

/-- An event that is taken joins those taken before it. -/
theorem arrived_receive (hnext : s.events.next = some (i, event))
    (h : s'.events = s.events.receive) : s'.arrived = s.arrived ++ [(i, event)] := by
  unfold arrived
  rw [h]
  exact Channel.taken_receive hnext

/-- An event is taken after all that was sent for its request before it. -/
theorem eventsOf_next (hnext : s.events.next = some (i, event)) :
    ∃ rest, s.eventsOf i = s.arrivedOf i ++ event :: rest := by
  have hsplit : s.events.sent =
      s.arrived ++ (i, event) :: s.events.sent.drop (s.events.received + 1) :=
    Channel.sent_of_next hnext
  generalize s.events.sent.drop (s.events.received + 1) = rest at hsplit
  refine ⟨(rest.filter fun e => e.1 = i).map (·.2), ?_⟩
  unfold eventsOf arrivedOf
  rw [hsplit, List.filter_append, List.map_append,
    List.filter_cons_of_pos (by exact decide_eq_true rfl)]
  rfl

/-- **The next event fits** the protocol of its request. -/
theorem Delivery.next (h : Delivery s) (hnext : s.events.next = some (i, event))
    (hrequest : s.requests.sent[i]? = some request) (hne : request ≠ .shutdown) :
    ∃ q q', Work.observe (advance true request) .waiting (s.arrivedOf i) = some q ∧
      advance true request q event = some q' := by
  have hi : i < s.requests.received := h.tags _ (Channel.mem_of_next hnext)
  obtain ⟨last, hat, _⟩ := h.follows i request hi hrequest hne
  obtain ⟨rest, hevents⟩ := eventsOf_next hnext
  unfold At at hat
  rw [hevents, Work.observe_append] at hat
  obtain ⟨q, hq, hrest⟩ := Option.bind_eq_some_iff.mp hat
  obtain ⟨q', hq', _⟩ := Option.bind_eq_some_iff.mp hrest
  exact ⟨q, q', hq, hq'⟩

theorem apply_events (i : Nat) (event : Event) : (s.apply i event).events = s.events.receive :=
  (foldl_send _ (s.arrive i event)).events.trans (arrive_events i event)

theorem press_events (key : Key) : (s.press env key).events = s.events := by
  have htake : ∀ s : System, s.takeCompose.events = s.events := by
    intro s
    unfold takeCompose
    split <;> rfl
  exact (htake _).trans (foldl_send _ (s.strike env key)).events

theorem session_events (request : ComposeRequest) (stamp : Nat) (outcome : EditorOutcome) :
    (s.session env request stamp outcome).events = s.events := by
  have hcomposed : ∀ (s : System) composed, (s.composed request composed).events = s.events := by
    intro s composed
    cases composed with
    | edited text path => exact (foldl_send _ (s.submit text path)).events
    | abandoned => rfl
    | failed => rfl
  exact hcomposed _ _

/-- How far the interface has come, and what the worker says last. -/
structure Tail (s : System) : Prop where
  taken : s.events.received ≤ s.events.sent.length
  stops : ∀ e ∈ s.events.sent, s.requests.sent[e.1]? = some .shutdown → e.2 = .stopped

theorem Tail.interface (h : Tail s) (hdelivery : Delivery s) (hs : Interface s s')
    (htaken : s'.events.received ≤ s.events.sent.length) : Tail s' := by
  refine ⟨by rw [hs.events]; exact htaken, ?_⟩
  intro e he hshutdown
  rw [hs.events] at he
  rw [prefix_getElem? hs.issued (Nat.lt_of_lt_of_le (hdelivery.tags e he) hdelivery.taken)]
    at hshutdown
  exact h.stops e he hshutdown

theorem Tail.step (h : Tail s) (hdelivery : Delivery s) (hs : Happens env s a s') : Tail s' := by
  cases hs with
  | receive _ hnext =>
      refine h.interface hdelivery (apply_interface _ _) ?_
      rw [apply_events]
      exact Channel.lt_of_next hnext
  | idle _ _ => exact h.interface hdelivery (settle_interface _) h.taken
  | key _ =>
      refine h.interface hdelivery (press_interface _) ?_
      rw [press_events]
      exact h.taken
  | tick _ => exact h.interface hdelivery tick_interface h.taken
  | composed _ =>
      refine h.interface hdelivery (session_interface _ _ _) ?_
      rw [session_events]
      exact h.taken
  | take _ hnext =>
      unfold takeRequest
      split
      · refine ⟨?_, ?_⟩
        · rw [Channel.send_sent, List.length_append]
          exact Nat.le_add_right_of_le h.taken
        · intro e he hshutdown
          rcases List.mem_append.mp he with he | he
          · exact h.stops e he hshutdown
          · rw [List.mem_singleton.mp he]
      · exact ⟨h.taken, h.stops⟩
  | emit hworker =>
      refine ⟨?_, ?_⟩
      · rw [Channel.send_sent, List.length_append]
        exact Nat.le_add_right_of_le h.taken
      · intro e he hshutdown
        rcases List.mem_append.mp he with he | he
        · exact h.stops e he hshutdown
        · rw [List.mem_singleton.mp he] at hshutdown
          obtain ⟨_, request, hrequest, hne⟩ := hdelivery.busy _ _ hworker
          exact absurd (Option.some.inj (hrequest.symm.trans hshutdown)) hne
  | test _ | answer _ _ | finish _ => exact ⟨h.taken, h.stops⟩

theorem start_tail (config : UiConfig) (read : ReadStore) (subscriptions : List Wildmat)
    (postFrom : Option Str) (files : Files) :
    Tail (start config read subscriptions postFrom files) := by
  refine ⟨Nat.le_refl _, ?_⟩
  intro e he
  cases he

/-! ## The end -/

/-- A reader that has asked the worker to stop takes no more keys and writes no more drafts. -/
structure Quits (s : System) : Prop where
  compose : s.app.compose = none
  quit : .shutdown ∈ s.requests.sent → s.app.shouldQuit = true
  phase : s.app.shouldQuit = true → s.phase = .draining ∨ s.phase = .ended
  stopped : s.worker = .stopped → .shutdown ∈ s.requests.sent

/-- With keys still to come the worker has not stopped. -/
theorem Quits.running (h : Quits s) (hphase : s.phase = .polling ∨ ∃ request, s.phase = .composing request) :
    s.app.shouldQuit = false ∧ .shutdown ∉ s.requests.sent ∧ s.worker ≠ .stopped := by
  have hquit : s.app.shouldQuit = false := by
    rw [Bool.eq_false_iff]
    intro hquit
    rcases h.phase hquit with hd | he
    · rcases hphase with hp | ⟨_, hp⟩ <;> (rw [hd] at hp; cases hp)
    · rcases hphase with hp | ⟨_, hp⟩ <;> (rw [he] at hp; cases hp)
  have hshutdown : .shutdown ∉ s.requests.sent := by
    intro hmem
    rw [h.quit hmem] at hquit
    cases hquit
  exact ⟨hquit, hshutdown, fun hworker => hshutdown (h.stopped hworker)⟩

theorem Sent.mem {requests : List Request} (h : Sent requests s s') (hmem : request ∈ s'.requests.sent) :
    request ∈ s.requests.sent ∨ request ∈ requests := by
  rcases Classical.em (s.worker = .stopped) with hworker | hworker
  · rw [(h.stopped hworker).1] at hmem
    exact Or.inl hmem
  · rw [(h.running hworker).2] at hmem
    exact List.mem_append.mp hmem

theorem Sent.keeps {requests : List Request} (h : Sent requests s s') :
    s'.app.compose = s.app.compose ∧ s'.app.shouldQuit = s.app.shouldQuit := by
  rcases h.ledger with hledger | hledger
  · exact ⟨congrArg Ledger.compose hledger, congrArg Ledger.shouldQuit hledger⟩
  · exact ⟨congrArg Ledger.compose hledger, congrArg Ledger.shouldQuit hledger⟩

theorem Sent.phase {requests : List Request} (h : Sent requests s s') : s'.phase = s.phase := by
  rw [h.frame]

/-- An event leads to no request to stop. -/
theorem shutdown_not_mem_requests (l : Ledger) (event : Event) : .shutdown ∉ l.requests event := by
  cases event with
  | posted text =>
      intro hmem
      obtain ⟨group, _, h⟩ := Option.map_eq_some_iff.mp (Option.mem_toList.mp hmem)
      cases h
  | _ => exact List.not_mem_nil

theorem Quits.apply (h : Quits s) (i : Nat) (event : Event) (hphase : s.phase = .draining) :
    Quits (s.apply i event) := by
  have hsent := foldl_send (s.app.onEvent event).requests (s.arrive i event)
  have hledger := arrive_ledger (s := s) i event
  obtain ⟨_, hcompose, hquit, _⟩ := s.app.ledger.onEvent_frame event
  have hcompose : (s.arrive i event).app.compose = s.app.compose :=
    (congrArg Ledger.compose hledger).trans hcompose
  have hquit : (s.arrive i event).app.shouldQuit = s.app.shouldQuit :=
    (congrArg Ledger.shouldQuit hledger).trans hquit
  have hphase' : (s.apply i event).phase = .draining := by
    refine hsent.phase.trans ?_
    unfold arrive discard
    dsimp only
    split <;> exact hphase
  refine ⟨hsent.keeps.1.trans (hcompose.trans h.compose), ?_, fun _ => Or.inl hphase', ?_⟩
  · intro hmem
    rcases hsent.mem hmem with hmem | hmem
    · rw [arrive_requests] at hmem
      exact hsent.keeps.2.trans (hquit.trans (h.quit hmem))
    · rw [(s.app.ledger_onEvent event).2.1] at hmem
      exact absurd hmem (shutdown_not_mem_requests _ _)
  · intro hworker
    have hworker' : s.worker = .stopped :=
      (arrive_worker i event).symm.trans (hsent.worker.symm.trans hworker)
    have hmem := h.stopped hworker'
    rw [← arrive_requests (s := s) i event] at hmem
    exact hsent.interface.issued.subset hmem

theorem takeCompose_compose : s.takeCompose.app.compose = none := by
  unfold takeCompose
  split
  · rfl
  · next h => exact h

theorem takeCompose_shouldQuit : s.takeCompose.app.shouldQuit = s.app.shouldQuit := by
  unfold takeCompose
  split <;> rfl

theorem takeCompose_phase (h : s.app.compose = none) : s.takeCompose.phase = .draining := by
  unfold takeCompose
  rw [h]

theorem Quits.press (h : Quits s) {key : Key} (hphase : s.phase = .polling) :
    Quits (s.press env key) := by
  obtain ⟨hquit, hshutdown, hworker⟩ := h.running (Or.inl hphase)
  have hsent := foldl_send (s.app.onKey env.lowercase key).2 (s.strike env key)
  have hquits := (ledger_onKey env.lowercase s.app key).quits hquit h.compose
  have hkeeps : (s.press env key).app.shouldQuit = (s.app.onKey env.lowercase key).1.shouldQuit :=
    takeCompose_shouldQuit.trans hsent.keeps.2
  refine ⟨takeCompose_compose, ?_, ?_, ?_⟩
  · intro hmem
    rw [hkeeps]
    have hmem : .shutdown ∈ ((s.app.onKey env.lowercase key).2.foldl send
        (s.strike env key)).requests.sent := by
      unfold System.press takeCompose at hmem
      split at hmem
      · exact hmem
      · exact hmem
    rcases hquits with ⟨_, hnone⟩ | ⟨htrue, _⟩
    · rcases hsent.mem hmem with hmem | hmem
      · exact absurd hmem hshutdown
      · exact absurd hmem hnone
    · exact htrue
  · intro htrue
    rw [hkeeps] at htrue
    rcases hquits with ⟨hfalse, _⟩ | ⟨_, hnone⟩
    · cases htrue.symm.trans hfalse
    · exact Or.inl (takeCompose_phase (hsent.keeps.1.trans hnone))
  · intro hstopped
    rw [(press_interface key).worker] at hstopped
    exact absurd hstopped hworker

theorem Quits.settle (h : Quits s) (drawn : Option (Nat × Nat)) : Quits (s.settle drawn) := by
  have hkeeps : (s.settle drawn).app.compose = s.app.compose ∧
      (s.settle drawn).app.shouldQuit = s.app.shouldQuit := by
    unfold System.settle
    dsimp only
    cases drawn with
    | none => split <;> exact ⟨rfl, rfl⟩
    | some heights => split <;> exact ⟨rfl, rfl⟩
  refine ⟨hkeeps.1.trans h.compose, fun hmem => hkeeps.2.trans (h.quit hmem), ?_, h.stopped⟩
  intro hquit
  exact Or.inr (if_pos hquit)

theorem Quits.submit (h : Quits s) (hdraining : s.phase = .draining)
    (hrunning : .shutdown ∉ s.requests.sent ∧ s.worker ≠ .stopped) (text : Str) (path : Path) :
    Quits ((s.app.onComposed (some (text, path))).2.toList.foldl send (s.submit text path)) := by
  have hsubmitted := submit_submitted s text path
  have hledger := ledger_onComposed s.app (some (text, path))
  generalize s.submit text path = submitted at hsubmitted ⊢
  generalize s.app.onComposed (some (text, path)) = composed at hsubmitted hledger ⊢
  have hsent := foldl_send composed.2.toList submitted
  have hkeeps : submitted.app.compose = s.app.compose ∧ submitted.app.shouldQuit = s.app.shouldQuit ∧
      .shutdown ∉ composed.2.toList := by
    rw [hsubmitted.app]
    rcases hledger with ⟨hl, hnone⟩ | ⟨_, _, _, hl, hsome⟩
    · rw [hnone]
      exact ⟨congrArg Ledger.compose hl, congrArg Ledger.shouldQuit hl, List.not_mem_nil⟩
    · rw [hsome]
      refine ⟨congrArg Ledger.compose hl, congrArg Ledger.shouldQuit hl, ?_⟩
      intro hmem
      cases List.mem_singleton.mp hmem
  refine ⟨hsent.keeps.1.trans (hkeeps.1.trans h.compose), ?_,
    fun _ => Or.inl (hsent.phase.trans (hsubmitted.phase.trans hdraining)), ?_⟩
  · intro hmem
    rcases hsent.mem hmem with hmem | hmem
    · rw [hsubmitted.requests] at hmem
      exact absurd hmem hrunning.1
    · exact absurd hmem hkeeps.2.2
  · intro hstopped
    rw [hsent.worker, hsubmitted.worker] at hstopped
    exact absurd hstopped hrunning.2

theorem Quits.session (h : Quits s) {request : ComposeRequest} (stamp : Nat)
    (outcome : EditorOutcome) (hphase : s.phase = .composing request) :
    Quits (s.session env request stamp outcome) := by
  obtain ⟨hquit, hshutdown, hworker⟩ := h.running (Or.inr ⟨request, hphase⟩)
  have hedit : Quits (s.edit env request stamp outcome).2 :=
    ⟨h.compose, h.quit, fun _ => Or.inl rfl, h.stopped⟩
  have hcomposed : ∀ c, Quits ((s.edit env request stamp outcome).2.composed request c) := by
    intro c
    cases c with
    | edited text path => exact hedit.submit rfl ⟨hshutdown, hworker⟩ text path
    | abandoned => exact ⟨h.compose, h.quit, fun _ => Or.inl rfl, h.stopped⟩
    | failed => exact ⟨h.compose, h.quit, fun _ => Or.inl rfl, h.stopped⟩
  exact hcomposed _

theorem Quits.take (h : Quits s) {request : Request} (hnext : s.requests.next = some request) : Quits (s.takeRequest env request) := by
  unfold takeRequest
  split
  · next hshutdown =>
      refine ⟨h.compose, h.quit, h.phase, fun _ => ?_⟩
      have hmem : request ∈ s.requests.sent := Channel.mem_of_next hnext
      rw [← hshutdown]
      exact hmem
  · refine ⟨h.compose, h.quit, h.phase, ?_⟩
    intro hstopped
    cases hstopped

theorem Quits.step (h : Quits s) (hs : Happens env s a s') : Quits s' := by
  cases hs with
  | receive hphase _ => exact h.apply _ _ hphase
  | idle _ _ => exact h.settle _
  | key hphase => exact h.press hphase
  | tick _ => exact ⟨h.compose, h.quit, fun _ => Or.inl rfl, h.stopped⟩
  | composed hphase => exact h.session _ _ hphase
  | take _ hnext => exact h.take hnext
  | emit _ | test _ | answer _ _ | finish _ =>
      refine ⟨h.compose, h.quit, h.phase, ?_⟩
      intro hstopped
      cases hstopped

theorem start_quits (config : UiConfig) (read : ReadStore) (subscriptions : List Wildmat)
    (postFrom : Option Str) (files : Files) :
    Quits (start config read subscriptions postFrom files) := by
  refine ⟨rfl, ?_, ?_, ?_⟩
  · intro hmem
    cases List.mem_singleton.mp hmem
  · intro hquit
    cases hquit
  · intro hstopped
    cases hstopped

/-! ## All of it -/

/-- **What holds of every reachable reader**: events come in the order of the requests and by their
protocols. -/
structure Sound (s : System) : Prop where
  delivery : Delivery s
  tail : Tail s
  quits : Quits s

theorem Sound.step (h : Sound s) (hs : Happens env s a s') : Sound s' :=
  ⟨h.delivery.step hs, h.tail.step h.delivery hs, h.quits.step hs⟩

/-- An event belongs to a request, and comes where the protocol of the request has it. -/
theorem Sound.next (h : Sound s) (hnext : s.events.next = some (i, event)) :
    ∃ request, s.requests.sent[i]? = some request ∧ (event = .stopped ∨
      ∃ q q', Work.observe (advance true request) .waiting (s.arrivedOf i) = some q ∧
        advance true request q event = some q') := by
  have hlt := Nat.lt_of_lt_of_le (h.delivery.tags _ (Channel.mem_of_next hnext)) h.delivery.taken
  refine ⟨_, List.getElem?_eq_getElem hlt, ?_⟩
  by_cases hshutdown : s.requests.sent[i] = .shutdown
  · exact Or.inl (h.tail.stops _ (Channel.mem_of_next hnext)
      (by rw [List.getElem?_eq_getElem hlt, hshutdown]))
  · exact Or.inr (h.delivery.next hnext (List.getElem?_eq_getElem hlt) hshutdown)

theorem start_sound (config : UiConfig) (read : ReadStore) (subscriptions : List Wildmat)
    (postFrom : Option Str) (files : Files) :
    Sound (start config read subscriptions postFrom files) :=
  ⟨start_delivery .., start_tail .., start_quits ..⟩

/-- **Every reachable reader is sound.** -/
theorem Reachable.sound (h : Reachable env s) : Sound s :=
  h.invariant start_sound fun _ _ _ hs hinv => hinv.step hs

end System

end Nntp.Tui
