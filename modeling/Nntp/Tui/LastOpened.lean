import Nntp.Tui.Completion
import Nntp.Tui.Filing
import Nntp.Tui.Listing
import Nntp.Tui.Outstanding

/-!
# The group opened last

Enter on a group empties the list and asks for its records. What comes then for earlier requests is still
taken, and an article that was posted to the group still on screen makes the interface open that one again,
behind the group just entered. As long as this does not happen, the group entered is the one on screen when
all requests are answered, with what was fetched of it.
-/

namespace Nntp.Tui

open Nntp.Lib Nntp.Proto Nntp.Client

/-! ## What fetches deliver -/

/-- The records that come with an event. -/
def Event.records : Event → List OverviewRecord
  | .overviewChunk _ _ records _ => records
  | _ => []

/-- What some events make of an empty list. -/
def assembled (events : List Event) : List OverviewRecord :=
  events.foldl (fun held event => Ledger.absorb held event.records) []

@[simp] theorem assembled_nil : assembled [] = [] := rfl

theorem assembled_append (events : List Event) (event : Event) :
    assembled (events ++ [event]) = Ledger.absorb (assembled events) event.records := by
  unfold assembled
  rw [List.foldl_append]
  rfl

/-- **What is delivered for a number** is the record that came last. -/
theorem find?_assembled (events : List Event) (number : UInt64) :
    (assembled events).find? (fun r => decide (r.number = number)) =
      (events.reverse.flatMap Event.records).find? fun r => decide (r.number = number) := by
  induction events using List.reverseRecOn with
  | nil => rfl
  | append_singleton events event ih =>
      rw [assembled_append, find?_absorb, List.find?_append, ih, List.reverse_append, List.flatMap_append,
        List.find?_append]
      simp

namespace System

variable {env : Environment} {holdings : Holdings} {s s' : System} {a : Action} {i j : Nat} {event : Event}
  {request : Request} {group : GroupName} {first last : Nat} {closed : List Nat}

/-- Request `i` opens `group`. -/
def ListsGroup (s : System) (group : GroupName) (i : Nat) : Prop :=
  ∃ count token, s.requests.sent[i]? = some (.openGroup group count token)

theorem ListsGroup.mono (h : s.ListsGroup group i) (hsent : s.requests.sent <+: s'.requests.sent) :
    s'.ListsGroup group i := by
  obtain ⟨count, token, hi⟩ := h
  refine ⟨count, token, ?_⟩
  rw [prefix_getElem? hsent (List.getElem?_eq_some_iff.mp hi).1]
  exact hi

theorem ListsGroup.lt_length (h : s.ListsGroup group i) : i < s.requests.sent.length := by
  obtain ⟨count, token, hi⟩ := h
  exact (List.getElem?_eq_some_iff.mp hi).1

/-- An event that is taken joins the events of its request. -/
theorem arrivedOf_receive (hnext : s.events.next = some (i, event)) (hevents : s'.events = s.events.receive) :
    s'.arrivedOf j = s.arrivedOf j ++ if i = j then [event] else [] := by
  unfold arrivedOf
  rw [arrived_receive hnext hevents, List.filter_append, List.map_append]
  by_cases h : i = j
  · simp [h]
  · simp [h]

/-- Everything taken so far belongs to the request of the next event or to an earlier one. -/
theorem Delivery.le_next (h : Delivery s) (hnext : s.events.next = some (i, event)) :
    ∀ e ∈ s.arrived, e.1 ≤ i := by
  have hordered := h.ordered
  rw [Channel.sent_of_next hnext] at hordered
  intro e he
  exact (List.pairwise_append.mp hordered).2.2 e he _ List.mem_cons_self

/-- Nothing has come of a request that has not been sent. -/
theorem Delivery.arrivedOf_unsent (h : Delivery s) : s.arrivedOf s.requests.sent.length = [] := by
  refine List.eq_nil_iff_forall_not_mem.mpr fun e he => ?_
  have hless := h.tags _ (arrived_subset _ (mem_arrivedOf.mp he))
  exact absurd hless (Nat.not_lt.mpr h.taken)

/-- What was sent is what was taken, and more. -/
theorem eventsOf_taken (s : System) (i : Nat) : ∃ rest : List (Nat × Event),
    s.events.sent = s.arrived ++ rest ∧
      s.eventsOf i = s.arrivedOf i ++ (rest.filter fun e => e.1 = i).map (·.2) := by
  refine ⟨s.events.sent.drop s.events.received, (List.take_append_drop _ _).symm, ?_⟩
  unfold eventsOf arrivedOf arrived Channel.taken
  rw [← List.map_append, ← List.filter_append, List.take_append_drop]

/-- When an event of a later request has been taken, there is nothing more to come. -/
theorem Delivery.eventsOf_of_later (h : Delivery s) (hlater : ∃ e ∈ s.arrived, i < e.1) :
    s.eventsOf i = s.arrivedOf i := by
  obtain ⟨rest, hsent, hevents⟩ := eventsOf_taken s i
  obtain ⟨e, he, hlt⟩ := hlater
  have hordered := h.ordered
  rw [hsent] at hordered
  rw [hevents, List.filter_eq_nil_iff.mpr]
  · simp
  · intro e' he' hi
    have hle := (List.pairwise_append.mp hordered).2.2 e he e' he'
    rw [of_decide_eq_true hi] at hle
    exact absurd hlt (Nat.not_lt.mpr hle)

end System

/-! ## Opening a group with success -/

/-- Without a failure a group is opened, then its records come, and then there is nothing more. -/
theorem observe_opening {group : GroupName} {count : UInt64} {token : FetchToken} {events : List Event}
    {q : Stage} (h : Work.observe (advance true (.openGroup group count token)) .waiting events = some q)
    (hok : ∀ event ∈ events, event.isFailure = false) :
    q = .waiting ∨ (q = .opened ∨ q = .answered) ∧ ∃ summary, .groupOpened summary ∈ events := by
  induction events using List.reverseRecOn generalizing q with
  | nil =>
      cases h
      exact Or.inl rfl
  | append_singleton events event ih =>
      rw [Work.observe_append] at h
      obtain ⟨mid, hmid, hlast⟩ := Option.bind_eq_some_iff.mp h
      obtain ⟨q', hq', hnil⟩ := Option.bind_eq_some_iff.mp hlast
      cases hnil
      have hevent : event.isFailure = false := hok event (List.mem_append_right _ (List.mem_singleton_self _))
      rcases ih hmid fun e he => hok e (List.mem_append_left _ he) with rfl | ⟨rfl | rfl, summary, hopened⟩
      · cases event with
        | progress | connected =>
            cases hq'
            exact Or.inl rfl
        | groupOpened summary =>
            cases hq'
            exact Or.inr ⟨Or.inl rfl, summary, List.mem_append_right _ (List.mem_singleton_self _)⟩
        | failed | cancelled => cases hevent
        | groups rows scope filtered => simp [advance] at hq'
        | _ => cases hq'
      · refine Or.inr ⟨?_, summary, List.mem_append_left _ hopened⟩
        cases event with
        | progress | connected =>
            cases hq'
            exact Or.inl rfl
        | overviewChunk | overviewComplete =>
            simp only [advance] at hq'
            split at hq'
            · cases hq'
              simp
            · cases hq'
        | failed | cancelled => cases hevent
        | _ => cases hq'
      · cases event <;> cases hq'

/-- The group and the token that records are for. -/
def Event.listing : Event → Option (GroupName × FetchToken)
  | .overviewChunk group token _ _ => some (group, token)
  | .overviewComplete group token => some (group, token)
  | _ => none

/-- Records come for a request with their token, and if it opens a group when that is open. -/
theorem advance_listing {request : Request} {q q' : Stage} {event : Event} {group : GroupName}
    {token : FetchToken} (h : advance true request q event = some q')
    (hlisting : event.listing = some (group, token)) : request.token = some token ∧
      ∀ name count t, request = .openGroup name count t → q = .opened ∧ group = name ∧ token = t := by
  cases event with
  | overviewChunk g t records skipped | overviewComplete g t =>
      cases hlisting
      cases q <;> cases request <;> simp only [advance, reduceCtorEq, Option.ite_none_right_eq_some] at h
      all_goals
        obtain ⟨⟨rfl, rfl⟩, _⟩ := h
        refine ⟨rfl, ?_⟩
        rintro _ _ _ ⟨⟩
        try exact ⟨rfl, rfl, rfl⟩
  | _ => cases hlisting

namespace System

variable {env : Environment} {holdings : Holdings} {s s' : System} {a : Action} {i j : Nat} {event : Event}
  {request : Request} {group : GroupName} {first last : Nat} {closed : List Nat}

/-! ## The fetches of the group -/

/-- **The fetches of a group since request `first`**: those that are closed, and the last one, which is the one
that is wanted. -/
structure Tracks (group : GroupName) (first : Nat) (closed : List Nat) (last : Nat) (s : System) : Prop where
  wanted : ∃ count, s.requests.sent[last]? = some (.openGroup group count s.app.nextToken)
  since : ∀ i ∈ closed ++ [last], first ≤ i ∧ s.ListsGroup group i
  ordered : (closed ++ [last]).Pairwise (· < ·)
  /-- nothing of these is still to come -/
  past : ∀ i ∈ closed, ∃ e ∈ s.arrived, i < e.1
  good : ∀ event ∈ s.arrivedOf last, event.isFailure = false
  token : s.app.overviewToken = some s.app.nextToken ∨ s.isAnswered last = true
  group : ∀ summary, .groupOpened summary ∈ s.arrivedOf last → s.app.group.map (·.name) = some group
  articles : s.app.articles = assembled ((closed ++ [last]).flatMap s.arrivedOf)

namespace Tracks

/-- What leaves the list and the events alone. -/
theorem same (h : Tracks group first closed last s) (happ : s'.app.group = s.app.group ∧
    s'.app.articles = s.app.articles ∧ s'.app.nextToken = s.app.nextToken ∧
    s'.app.overviewToken = s.app.overviewToken) (hsent : s.requests.sent <+: s'.requests.sent)
    (harrived : s'.arrived = s.arrived) : Tracks group first closed last s' := by
  obtain ⟨hgroup, harticles, hnextToken, htoken⟩ := happ
  have hof : s'.arrivedOf = s.arrivedOf := by
    funext i
    unfold arrivedOf
    rw [harrived]
  have hanswered : s'.isAnswered last = s.isAnswered last := by
    unfold isAnswered
    rw [harrived]
  obtain ⟨count, hwanted⟩ := h.wanted
  refine ⟨⟨count, ?_⟩, ?_, h.ordered, ?_, ?_, ?_, ?_, ?_⟩
  · rw [hnextToken, prefix_getElem? hsent (List.getElem?_eq_some_iff.mp hwanted).1]
    exact hwanted
  · exact fun i hi => ⟨(h.since i hi).1, (h.since i hi).2.mono hsent⟩
  · rw [harrived]
    exact h.past
  · rw [hof]
    exact h.good
  · rw [htoken, hnextToken, hanswered]
    exact h.token
  · rw [hof, hgroup]
    exact h.group
  · rw [hof, harticles]
    exact h.articles

/-- No request with a token comes after the last fetch. -/
theorem le_last (h : Tracks group first closed last s) (hfiling : Filing s) {token : FetchToken}
    (hi : s.requests.sent[i]? = some request) (htoken : request.token = some token) : i ≤ last := by
  obtain ⟨count, hwanted⟩ := h.wanted
  by_contra hlt
  have hless := (hfiling.tokens last _ _ hwanted rfl).2 i request token hi htoken (Nat.lt_of_not_le hlt)
  exact absurd (hfiling.tokens i request token hi htoken).1 (Nat.not_le_of_lt hless)

/-- The token that is current is that of the last fetch alone. -/
theorem eq_last (h : Tracks group first closed last s) (hfiling : Filing s)
    (hi : s.requests.sent[i]? = some request) (htoken : request.token = some s.app.nextToken) : i = last := by
  obtain ⟨count, hwanted⟩ := h.wanted
  refine Nat.le_antisymm (h.le_last hfiling hi htoken) ?_
  by_contra hlt
  have hless := (hfiling.tokens i request _ hi htoken).2 last _ _ hwanted rfl (Nat.lt_of_not_le hlt)
  exact absurd hless (Nat.lt_irrefl _)

/-- **Records are accepted if and only if they are of the last fetch.** -/
theorem accepts_iff (h : Tracks group first closed last s) (hsound : Sound s) (hfiling : Filing s)
    (hnext : s.events.next = some (i, event)) {name : GroupName} {token : FetchToken}
    (hlisting : event.listing = some (name, token)) : s.app.ledger.Accepts name token ↔ i = last := by
  obtain ⟨request, hrequest, hstopped | ⟨q, q', hq, hq'⟩⟩ := hsound.next hnext
  · rw [hstopped] at hlisting
    cases hlisting
  obtain ⟨htoken, hopens⟩ := advance_listing hq' hlisting
  constructor
  · rintro ⟨hcurrent, _⟩
    apply h.eq_last hfiling hrequest
    rw [htoken, hfiling.current token hcurrent]
  · rintro rfl
    obtain ⟨count, hwanted⟩ := h.wanted
    cases hrequest.symm.trans hwanted
    obtain ⟨rfl, rfl, rfl⟩ := hopens _ _ _ rfl
    rcases observe_opening hq h.good with hwaiting | ⟨_, summary, hopened⟩
    · cases hwaiting
    · refine ⟨h.token.resolve_right fun hanswered => ?_, h.group summary hopened⟩
      obtain ⟨final, hfinal, hisFinal⟩ := isAnswered_iff.mp hanswered
      have hended := (observe_final (Or.inl rfl) hq).mpr ⟨final, mem_arrivedOf.mpr hfinal, hisFinal⟩
      exact hended (Or.inr rfl)

/-- What is closed is not taken from again. -/
theorem not_over (h : Tracks group first closed last s) (hdelivery : Delivery s)
    (hnext : s.events.next = some (i, event)) : i ∉ closed := by
  intro hi
  obtain ⟨e, he, hlt⟩ := h.past i hi
  exact absurd hlt (Nat.not_lt.mpr (hdelivery.le_next hnext e he))

/-- The events of the fetches after one more was taken. -/
theorem flatMap_arrivedOf (h : Tracks group first closed last s) (hdelivery : Delivery s)
    (hnext : s.events.next = some (i, event)) (hevents : s'.events = s.events.receive) :
    closed.flatMap s'.arrivedOf = closed.flatMap s.arrivedOf ∧
      (closed ++ [last]).flatMap s'.arrivedOf =
        (closed ++ [last]).flatMap s.arrivedOf ++ if i = last then [event] else [] := by
  have hover : closed.flatMap s'.arrivedOf = closed.flatMap s.arrivedOf := by
    apply List.flatMap_congr
    intro j hj
    have hne : i ≠ j := fun heq => h.not_over hdelivery hnext (heq ▸ hj)
    rw [arrivedOf_receive hnext hevents, if_neg hne, List.append_nil]
  refine ⟨hover, ?_⟩
  rw [List.flatMap_append, List.flatMap_append, hover]
  simp [arrivedOf_receive hnext hevents]

/-- **An event is taken** and no fetch is begun. -/
theorem take (h : Tracks group first closed last s) (hdelivery : Delivery s)
    (hnext : s.events.next = some (i, event)) (hgood : event.isFailure = false)
    (hrequests : s'.requests = s.requests) (hevents : s'.events = s.events.receive)
    (hnextToken : s'.app.nextToken = s.app.nextToken)
    (htoken : s'.app.overviewToken = s.app.overviewToken ∨ i = last ∧ event.isFinal = true)
    (hgroup : ∀ summary, .groupOpened summary ∈ s'.arrivedOf last →
      s'.app.group.map (·.name) = some group)
    (harticles : s'.app.articles =
      if i = last then Ledger.absorb s.app.articles event.records else s.app.articles) :
    Tracks group first closed last s' := by
  have harrived := arrived_receive hnext hevents
  have hmore : ∀ j, s.isAnswered j = true → s'.isAnswered j = true := by
    intro j hj
    obtain ⟨final, hmem, hfinal⟩ := isAnswered_iff.mp hj
    exact isAnswered_iff.mpr ⟨final, harrived ▸ List.mem_append_left _ hmem, hfinal⟩
  refine ⟨?_, ?_, h.ordered, ?_, ?_, ?_, hgroup, ?_⟩
  · rw [hrequests, hnextToken]
    exact h.wanted
  · unfold ListsGroup
    rw [hrequests]
    exact h.since
  · intro j hj
    obtain ⟨e, he, hlt⟩ := h.past j hj
    exact ⟨e, harrived ▸ List.mem_append_left _ he, hlt⟩
  · rw [arrivedOf_receive hnext hevents]
    intro e he
    rcases List.mem_append.mp he with he | he
    · exact h.good e he
    · split at he
      · rw [List.mem_singleton.mp he]
        exact hgood
      · cases he
  · rw [hnextToken]
    rcases htoken with htoken | ⟨rfl, hfinal⟩
    · rw [htoken]
      exact h.token.imp_right (hmore last)
    · apply Or.inr
      exact isAnswered_iff.mpr ⟨event, harrived ▸ List.mem_append_right _ (List.mem_singleton_self _), hfinal⟩
  · rw [harticles, (h.flatMap_arrivedOf hdelivery hnext hevents).2, h.articles]
    split
    · rw [assembled_append]
    · rw [List.append_nil]

/-- The group is on screen if it has been opened, unless this event says otherwise. -/
theorem group_receive (h : Tracks group first closed last s) (hnext : s.events.next = some (i, event))
    (hevents : s'.events = s.events.receive) (hother : ∀ summary, event ≠ .groupOpened summary)
    (hgroup : s'.app.group = s.app.group) (summary : GroupSummary)
    (hopened : .groupOpened summary ∈ s'.arrivedOf last) : s'.app.group.map (·.name) = some group := by
  rw [hgroup]
  rw [arrivedOf_receive hnext hevents] at hopened
  rcases List.mem_append.mp hopened with hopened | hopened
  · exact h.group summary hopened
  · split at hopened
    · exact absurd (List.mem_singleton.mp hopened).symm (hother summary)
    · cases hopened

/-- **A group is open**: this group, or one that was asked for before its last fetch. -/
theorem opened (h : Tracks group first closed last s) (hsound : Sound s) (hfiling : Filing s)
    {summary : GroupSummary} (hnext : s.events.next = some (i, .groupOpened summary))
    (htrue : ∀ request, s.requests.sent[i]? = some request →
      Truthful holdings request (.groupOpened summary)) :
    Tracks group first closed last (s.arrive i (.groupOpened summary)) := by
  have hevents := arrive_events (s := s) i (.groupOpened summary)
  have hl := s.arrive_ledger i (.groupOpened summary)
  obtain ⟨name, ⟨count, token, hrequest⟩, _⟩ := opening_next hsound hnext
  obtain ⟨lastCount, hwanted⟩ := h.wanted
  refine h.take hsound.delivery hnext rfl (arrive_requests ..) hevents (congrArg Ledger.nextToken hl)
    (Or.inl (congrArg Ledger.overviewToken hl)) ?_ ?_
  · intro earlier hopened
    have hgroup : (s.arrive i (.groupOpened summary)).app.group = some summary := congrArg Ledger.group hl
    rw [hgroup]
    have hi : i = last := by
      refine Nat.le_antisymm (h.le_last hfiling hrequest rfl) ?_
      rw [arrivedOf_receive hnext hevents] at hopened
      rcases List.mem_append.mp hopened with hopened | hopened
      · exact hsound.delivery.le_next hnext _ (mem_arrivedOf.mp hopened)
      · split at hopened
        · next heq => exact Nat.le_of_eq heq.symm
        · cases hopened
    rw [hi] at htrue
    exact congrArg some (htrue _ hwanted _ _ _ rfl)
  · rw [show (s.arrive i (.groupOpened summary)).app.articles = s.app.articles from
      congrArg Ledger.articles hl]
    split <;> rfl

/-- **Every event** that begins no fetch. -/
theorem arrive (h : Tracks group first closed last s) (hsound : Sound s) (hfiling : Filing s)
    (hnext : s.events.next = some (i, event)) (hgood : event.isFailure = false)
    (htrue : ∀ request, s.requests.sent[i]? = some request → Truthful holdings request event)
    (hreloads : event.isPosted = true → s.app.ledger.reloads = none) :
    Tracks group first closed last (s.arrive i event) := by
  have hevents := arrive_events (s := s) i event
  have hl := s.arrive_ledger i event
  have hbare : ∀ l : Ledger, s.app.ledger.onEvent event = l → (∀ summary, event ≠ .groupOpened summary) →
      l.group = s.app.group → l.nextToken = s.app.nextToken →
      (l.overviewToken = s.app.overviewToken ∨ i = last ∧ event.isFinal = true) →
      (l.articles = if i = last then Ledger.absorb s.app.articles event.records else s.app.articles) →
      Tracks group first closed last (s.arrive i event) := by
    rintro l rfl hother hgroup hnextToken htoken harticles
    refine h.take hsound.delivery hnext hgood (arrive_requests ..) hevents
      ((congrArg Ledger.nextToken hl).trans hnextToken) ?_
      (h.group_receive hnext hevents hother ((congrArg Ledger.group hl).trans hgroup))
      ((congrArg Ledger.articles hl).trans harticles)
    exact htoken.imp_left (congrArg Ledger.overviewToken hl).trans
  have hsame : Ledger.absorb s.app.articles [] = s.app.articles := rfl
  cases event with
  | groupOpened summary => exact h.opened hsound hfiling hnext htrue
  | overviewChunk name token records skipped =>
      have haccepts := h.accepts_iff hsound hfiling hnext rfl
      by_cases hi : i = last
      · exact hbare _ (if_pos (haccepts.mpr hi)) (by simp) rfl rfl (Or.inl rfl) (if_pos hi).symm
      · exact hbare _ (if_neg (mt haccepts.mp hi)) (by simp) rfl rfl (Or.inl rfl) (if_neg hi).symm
  | overviewComplete name token =>
      have haccepts := h.accepts_iff hsound hfiling hnext rfl
      by_cases hi : i = last
      · exact hbare _ (if_pos (haccepts.mpr hi)) (by simp) rfl rfl (Or.inr ⟨hi, rfl⟩) (if_pos hi).symm
      · exact hbare _ (if_neg (mt haccepts.mp hi)) (by simp) rfl rfl (Or.inl rfl) (if_neg hi).symm
  | posted text =>
      have hnone : ¬ s.app.ledger.reloads.isSome = true := by rw [hreloads rfl]; simp
      exact hbare _ (if_neg hnone) (by simp) rfl rfl (Or.inl rfl) (ite_self _).symm
  | _ => exact hbare _ rfl (by simp) rfl rfl (Or.inl rfl) (ite_self _).symm

/-- **A fetch is begun** behind those that are closed. -/
theorem begun {count : UInt64}
    (hsent : s'.requests.sent = s.requests.sent ++ [.openGroup group count s'.app.nextToken])
    (htoken : s'.app.overviewToken = some s'.app.nextToken) (hnew : s'.arrivedOf s.requests.sent.length = [])
    (hfirst : first ≤ s.requests.sent.length) (hsince : ∀ i ∈ closed, first ≤ i ∧ s.ListsGroup group i)
    (hordered : closed.Pairwise (· < ·)) (hpast : ∀ i ∈ closed, ∃ e ∈ s'.arrived, i < e.1)
    (harticles : s'.app.articles = assembled (closed.flatMap s'.arrivedOf)) :
    Tracks group first closed s.requests.sent.length s' := by
  have hprefix : s.requests.sent <+: s'.requests.sent := ⟨_, hsent.symm⟩
  have hwanted : s'.requests.sent[s.requests.sent.length]? = some (.openGroup group count s'.app.nextToken) := by
    rw [hsent, List.getElem?_concat_length]
  refine ⟨⟨count, hwanted⟩, ?_, ?_, hpast, ?_, Or.inl htoken, ?_, ?_⟩
  · intro i hi
    rcases List.mem_append.mp hi with hi | hi
    · exact ⟨(hsince i hi).1, (hsince i hi).2.mono hprefix⟩
    · rw [List.mem_singleton.mp hi]
      exact ⟨hfirst, count, _, hwanted⟩
  · refine List.pairwise_append.mpr ⟨hordered, List.pairwise_singleton _ _, fun i hi k hk => ?_⟩
    rw [List.mem_singleton.mp hk]
    exact (hsince i hi).2.lt_length
  · rw [hnew]
    exact List.forall_mem_nil _
  · rw [hnew]
    exact fun _ hmem => absurd hmem List.not_mem_nil
  · rw [harticles, List.flatMap_append, List.flatMap_singleton, hnew, List.append_nil]

/-- **A fetch is begun anew** behind an article that was posted to the group: the last one is closed, or nothing
of it has come and nothing of it will be accepted. -/
theorem reload (h : Tracks group first closed last s) (hsound : Sound s) {text : Str}
    (hnext : s.events.next = some (i, .posted text)) (hreloads : s.app.ledger.reloads = some group)
    (hworker : s.worker ≠ .stopped) :
    ∃ closed' last', Tracks group first closed' last' (s.apply i (.posted text)) := by
  have hdelivery := hsound.delivery
  have hl := s.arrive_ledger i (.posted text)
  rw [show s.app.ledger.onEvent (.posted text) = _ from if_pos (by rw [hreloads]; rfl)] at hl
  have hlisted : (s.app.onEvent (.posted text)).requests =
      [.openGroup group s.app.initialArticles (s.app.nextToken + 1)] := by
    rw [(s.app.ledger_onEvent _).2.1]
    show (s.app.ledger.reloads.map _).toList = _
    rw [hreloads]
    rfl
  have hrun := (foldl_send (s.app.onEvent (.posted text)).requests (s.arrive i (.posted text))).running
    ((arrive_worker i _).trans_ne hworker)
  have hevents := apply_events (s := s) i (.posted text)
  change (s.apply i (.posted text)).app = _ ∧ (s.apply i (.posted text)).requests.sent = _ at hrun
  generalize s.apply i (.posted text) = s' at hrun hevents ⊢
  obtain ⟨happ, hsent⟩ := hrun
  rw [← happ] at hl
  have harticles : s'.app.articles = s.app.articles := congrArg Ledger.articles hl
  have hnextToken : s'.app.nextToken = s.app.nextToken + 1 := congrArg Ledger.nextToken hl
  have htoken : s'.app.overviewToken = some (s.app.nextToken + 1) := congrArg Ledger.overviewToken hl
  rw [arrive_requests, hlisted, ← hnextToken] at hsent
  rw [← hnextToken] at htoken
  have harrived := arrived_receive hnext hevents
  have hfirst : first ≤ s.requests.sent.length :=
    (h.since last (by simp)).1.trans (Nat.le_of_lt (h.since last (by simp)).2.lt_length)
  have hnew : s'.arrivedOf s.requests.sent.length = [] := by
    have hsentBefore := Nat.lt_of_lt_of_le (hdelivery.tags _ (Channel.mem_of_next hnext)) hdelivery.taken
    rw [arrivedOf_receive hnext hevents, hdelivery.arrivedOf_unsent, if_neg (Nat.ne_of_lt hsentBefore),
      List.append_nil]
  -- the article was posted with a request of its own
  have hi : i ≠ last := by
    rintro rfl
    obtain ⟨count, hwanted⟩ := h.wanted
    obtain ⟨request, hrequest, hstopped | ⟨q, q', _, hq'⟩⟩ := hsound.next hnext
    · cases hstopped
    · cases hrequest.symm.trans hwanted
      cases q <;> cases hq'
  have hpast : ∀ j ∈ closed, ∃ e ∈ s'.arrived, j < e.1 := by
    intro j hj
    obtain ⟨e, he, hle⟩ := h.past j hj
    exact ⟨e, harrived ▸ List.mem_append_left _ he, hle⟩
  obtain ⟨hover, hall⟩ := h.flatMap_arrivedOf hdelivery hnext hevents
  rw [if_neg hi, List.append_nil] at hall
  by_cases hnothing : s.arrivedOf last = []
  · refine ⟨closed, _, begun hsent htoken hnew hfirst (fun j hj => h.since j (List.mem_append_left _ hj))
      (List.pairwise_append.mp h.ordered).1 hpast ?_⟩
    rw [harticles, hover, h.articles, List.flatMap_append, List.flatMap_singleton, hnothing, List.append_nil]
  · refine ⟨closed ++ [last], _, begun hsent htoken hnew hfirst h.since h.ordered ?_ ?_⟩
    · intro j hj
      rcases List.mem_append.mp hj with hj | hj
      · exact hpast j hj
      · rw [List.mem_singleton.mp hj]
        refine ⟨_, harrived ▸ List.mem_append_right _ (List.mem_singleton_self _), ?_⟩
        obtain ⟨e, he⟩ := List.exists_mem_of_ne_nil _ hnothing
        exact Nat.lt_of_le_of_ne (hdelivery.le_next hnext _ (mem_arrivedOf.mp he)) (Ne.symm hi)
    · rw [harticles, hall, h.articles]

/-- Handing over requests to a worker that is there. -/
theorem sent (h : Tracks group first closed last s) {requests : List Request} (hsent : Sent requests s s')
    (hworker : s.worker ≠ .stopped) : Tracks group first closed last s' := by
  obtain ⟨happ, hrequests⟩ := hsent.running hworker
  refine h.same ?_ ⟨requests, hrequests.symm⟩ ?_
  · rw [happ]
    exact ⟨rfl, rfl, rfl, rfl⟩
  · unfold arrived
    rw [hsent.events]

/-- **A key press** that enters no group and asks for no overview. -/
theorem press (h : Tracks group first closed last s) (hworker : s.worker ≠ .stopped) {key : Key}
    (hentered : s.app.entered env.lowercase key = none)
    (hlists : ∀ request ∈ (s.app.onKey env.lowercase key).2, request.token = none) :
    Tracks group first closed last (s.press env key) := by
  have hkey := ledger_onKey env.lowercase s.app key
  have hless : ∀ l : Ledger, (s.app.onKey env.lowercase key).1.ledger = l → l.group = s.app.group →
      l.articles = s.app.articles → l.nextToken = s.app.nextToken → l.overviewToken = s.app.overviewToken →
      Tracks group first closed last (s.strike env key) := by
    rintro l rfl hgroup harticles hnextToken htoken
    exact h.same ⟨hgroup, harticles, hnextToken, htoken⟩ List.prefix_rfl rfl
  have hstrike : Tracks group first closed last (s.strike env key) := by
    generalize (s.app.onKey env.lowercase key).2 = requests at hkey hlists
    cases hkey with
    | screen hl | cancel _ hl | quit hl | groups _ hl | article _ _ _ _ hl | compose _ hl =>
        exact hless _ hl rfl rfl rfl rfl
    | clear _ hthis _ _ | enter _ hthis _ _ => cases hentered.symm.trans hthis
    | reload name range hl =>
        have hnone := hlists _ (List.mem_singleton_self _)
        cases hnone
  have hsent := hstrike.sent (foldl_send (s.app.onKey env.lowercase key).2 _) hworker
  unfold System.press takeCompose
  split
  · exact hsent.same ⟨rfl, rfl, rfl, rfl⟩ List.prefix_rfl rfl
  · exact hsent.same ⟨rfl, rfl, rfl, rfl⟩ List.prefix_rfl rfl

/-- What comes back from the editor asks for no overview. -/
theorem submit (h : Tracks group first closed last s) (hworker : s.worker ≠ .stopped) (text : Str) (path : Path) :
    Tracks group first closed last
      ((s.app.onComposed (some (text, path))).2.toList.foldl System.send (s.submit text path)) := by
  have hledger := ledger_onComposed s.app (some (text, path))
  have hsubmitted := submit_submitted s text path
  generalize s.submit text path = after at hsubmitted ⊢
  generalize s.app.onComposed (some (text, path)) = r at hsubmitted hledger ⊢
  have hsubmit : Tracks group first closed last after := by
    refine h.same ?_ (by rw [hsubmitted.requests]) (by unfold arrived; rw [hsubmitted.events])
    rw [hsubmitted.app]
    rcases hledger with ⟨hl, _⟩ | ⟨_, _, _, hl, _⟩
    · exact ⟨congrArg Ledger.group hl, congrArg Ledger.articles hl, congrArg Ledger.nextToken hl,
        congrArg Ledger.overviewToken hl⟩
    · exact ⟨congrArg Ledger.group hl, congrArg Ledger.articles hl, congrArg Ledger.nextToken hl,
        congrArg Ledger.overviewToken hl⟩
  exact hsubmit.sent (foldl_send _ _) (hsubmitted.worker.trans_ne hworker)

theorem session (h : Tracks group first closed last s) (hworker : s.worker ≠ .stopped) (composing : ComposeRequest)
    (stamp : Nat) (outcome : EditorOutcome) :
    Tracks group first closed last (s.session env composing stamp outcome) := by
  have hedit : Tracks group first closed last (s.edit env composing stamp outcome).2 :=
    h.same ⟨rfl, rfl, rfl, rfl⟩ List.prefix_rfl rfl
  unfold System.session
  cases hcomposed : (s.edit env composing stamp outcome).1 with
  | edited text path =>
      dsimp only
      rw [hcomposed]
      exact hedit.submit hworker text path
  | abandoned | failed =>
      dsimp only
      rw [hcomposed]
      exact hedit.same ⟨rfl, rfl, rfl, rfl⟩ List.prefix_rfl rfl

/-- **An event** that is not a failure and reopens no other group. -/
theorem receive (h : Tracks group first closed last s) (hsound : Sound s) (hfiling : Filing s)
    (hworker : s.worker ≠ .stopped) (hnext : s.events.next = some (i, event)) (hgood : event.isFailure = false)
    (htrue : ∀ request, s.requests.sent[i]? = some request → Truthful holdings request event)
    (hreloads : event.isPosted = true → ∀ name ∈ s.app.ledger.reloads, name = group) :
    ∃ closed' last', Tracks group first closed' last' (s.apply i event) := by
  by_cases hbegins : event.isPosted = true ∧ s.app.ledger.reloads ≠ none
  · obtain ⟨hposted, hsome⟩ := hbegins
    obtain ⟨name, hname⟩ := Option.ne_none_iff_exists'.mp hsome
    cases event with
    | posted text =>
        rw [hreloads rfl name hname] at hname
        exact h.reload hsound hnext hname hworker
    | _ => cases hposted
  · have harrive := h.arrive hsound hfiling hnext hgood htrue fun hposted =>
      not_not.mp fun hsome => hbegins ⟨hposted, hsome⟩
    exact ⟨closed, last, harrive.sent (foldl_send _ _) ((arrive_worker i event).trans_ne hworker)⟩

end Tracks

/-! ## Runs behind an Enter -/

/-- The user enters no further group and asks for no overview, and what is answered is answered with success. -/
def Undisturbed (env : Environment) (s : System) : Action → Prop
  | .key key => s.app.entered env.lowercase key = none ∧
      ∀ request ∈ (s.app.onKey env.lowercase key).2, request.token = none
  | .receive => ∀ e ∈ s.events.next, e.2.isFailure = false
  | _ => True

/-- When the answer to a posting is taken, the article did not go to the group on screen, or that is `group`. -/
def ReloadsOnly (group : GroupName) (s : System) : Action → Prop
  | .receive => ∀ e ∈ s.events.next, e.2.isPosted = true → ∀ name ∈ s.app.ledger.reloads, name = group
  | _ => True

instance (env : Environment) (s : System) : ∀ a, Decidable (Undisturbed env s a)
  | .key key => decidable_of_iff ((s.app.entered env.lowercase key).isNone = true ∧
      ∀ request ∈ (s.app.onKey env.lowercase key).2, request.token = none)
        (and_congr_left' Option.isNone_iff_eq_none)
  | .receive => inferInstanceAs (Decidable (∀ e ∈ s.events.next, e.2.isFailure = false))
  | .idle _ | .tick | .composed _ _ | .take | .emit | .test | .answer _ | .finish => isTrue trivial

instance (group : GroupName) (s : System) : ∀ a, Decidable (ReloadsOnly group s a)
  | .receive => inferInstanceAs (Decidable (∀ e ∈ s.events.next, e.2.isPosted = true →
      ∀ name ∈ s.app.ledger.reloads, name = group))
  | .key _ | .idle _ | .tick | .composed _ _ | .take | .emit | .test | .answer _ | .finish => isTrue trivial

/-- The worker is there, and the fetches of the group are known. -/
def Follows (group : GroupName) (first : Nat) (s : System) : Prop :=
  s.worker = .stopped ∨ ∃ closed last, Tracks group first closed last s

/-- A worker that has stopped has stopped for good. -/
theorem stopped_step (h : s.worker = .stopped) (hs : Happens env s a s') : s'.worker = .stopped := by
  cases hs with
  | receive _ _ => exact (apply_interface _ _).worker.trans h
  | idle _ _ => exact (settle_interface _).worker.trans h
  | key _ => exact (press_interface _).worker.trans h
  | tick _ => exact h
  | composed _ => exact (session_interface _ _ _).worker.trans h
  | take hworker _ | emit hworker | test hworker | answer hworker _ | finish hworker =>
      cases h.symm.trans hworker

/-- **Every step** that is no other listing and reopens no other group. -/
theorem Follows.step (h : Follows group first s) (hsound : Sound s) (hfiling : Filing s)
    (hs : Happens env s a s')
    (htrue : ∀ (i : Nat) event request, s.events.next = some (i, event) →
      s.requests.sent[i]? = some request → Truthful holdings request event)
    (hquiet : Undisturbed env s a) (hreloads : ReloadsOnly group s a) : Follows group first s' := by
  by_cases hworker : s.worker = .stopped
  · exact Or.inl (stopped_step hworker hs)
  obtain ⟨closed, last, h⟩ := h.resolve_left hworker
  right
  cases hs with
  | receive _ hnext =>
      exact h.receive hsound hfiling hworker hnext (hquiet _ hnext) (fun _ hrequest => htrue _ _ _ hnext hrequest)
        (hreloads _ hnext)
  | @idle drawn _ _ =>
      refine ⟨closed, last, h.same ?_ List.prefix_rfl rfl⟩
      unfold System.settle
      cases s.worker <;> cases drawn <;> exact ⟨rfl, rfl, rfl, rfl⟩
  | key _ => exact ⟨closed, last, h.press hworker hquiet.1 hquiet.2⟩
  | tick _ => exact ⟨closed, last, h.same ⟨rfl, rfl, rfl, rfl⟩ List.prefix_rfl rfl⟩
  | composed _ => exact ⟨closed, last, h.session hworker _ _ _⟩
  | take _ _ =>
      refine ⟨closed, last, ?_⟩
      unfold System.takeRequest
      split
      · exact h.same ⟨rfl, rfl, rfl, rfl⟩ List.prefix_rfl (Channel.taken_send hsound.tail.taken _)
      · exact h.same ⟨rfl, rfl, rfl, rfl⟩ List.prefix_rfl rfl
  | emit _ =>
      exact ⟨closed, last, h.same ⟨rfl, rfl, rfl, rfl⟩ List.prefix_rfl (Channel.taken_send hsound.tail.taken _)⟩
  | test _ => exact ⟨closed, last, h.same ⟨rfl, rfl, rfl, rfl⟩ List.prefix_rfl rfl⟩
  | answer _ _ => exact ⟨closed, last, h.same ⟨rfl, rfl, rfl, rfl⟩ List.prefix_rfl rfl⟩
  | finish _ => exact ⟨closed, last, h.same ⟨rfl, rfl, rfl, rfl⟩ List.prefix_rfl rfl⟩

/-- **Enter on a group** begins the first of its fetches. -/
theorem enter_tracks (hsound : Sound s) (hphase : s.phase = .polling) {key : Key} {row : GroupRow}
    (hentered : s.app.entered env.lowercase key = some row) (hnonempty : row.isEmpty = false) :
    Tracks row.name s.requests.sent.length [] s.requests.sent.length (s.press env key) := by
  have hworker := (hsound.quits.running (Or.inl hphase)).2.2
  have hkey := App.onKey_entered hentered
  have henter : (s.app.enterGroup row).1.ledger = { s.app.ledger with articles := [] }.beginFetch ∧
      (s.app.enterGroup row).2 = [.openGroup row.name s.app.initialArticles (s.app.nextToken + 1)] := by
    unfold App.enterGroup
    rw [hnonempty]
    exact ⟨rfl, rfl⟩
  have hl : (s.strike env key).app.ledger = _ := (congrArg (·.1.ledger) hkey).trans henter.1
  have hrun := (foldl_send (s.app.onKey env.lowercase key).2 (s.strike env key)).running hworker
  have hevents := (foldl_send (s.app.onKey env.lowercase key).2 (s.strike env key)).events
  have hbegun : Tracks row.name s.requests.sent.length [] s.requests.sent.length
      ((s.app.onKey env.lowercase key).2.foldl send (s.strike env key)) := by
    generalize (s.app.onKey env.lowercase key).2.foldl send (s.strike env key) = s' at hrun hevents ⊢
    obtain ⟨happ, hsent⟩ := hrun
    rw [congrArg (·.2) hkey, henter.2] at hsent
    have hsent : s'.requests.sent = s.requests.sent ++
        [.openGroup row.name s.app.initialArticles (s.app.nextToken + 1)] := hsent
    rw [← happ] at hl
    have hnextToken : s'.app.nextToken = s.app.nextToken + 1 := congrArg Ledger.nextToken hl
    have hnew : s'.arrivedOf s.requests.sent.length = [] := by
      unfold arrivedOf arrived
      rw [hevents]
      exact hsound.delivery.arrivedOf_unsent
    rw [← hnextToken] at hsent
    refine Tracks.begun hsent ?_ hnew (Nat.le_refl _) (List.forall_mem_nil _) .nil (List.forall_mem_nil _)
      (congrArg Ledger.articles hl)
    rw [hnextToken]
    exact congrArg Ledger.overviewToken hl
  unfold System.press takeCompose
  split
  · exact hbegun.same ⟨rfl, rfl, rfl, rfl⟩ List.prefix_rfl rfl
  · exact hbegun.same ⟨rfl, rfl, rfl, rfl⟩ List.prefix_rfl rfl

/-! ## When all is answered -/

/-- Every request has its final answer. -/
def AllAnswered (s : System) : Prop := ∀ i < s.requests.sent.length, s.isAnswered i = true

instance (s : System) : Decidable s.AllAnswered := inferInstanceAs (Decidable (∀ _ < _, _))

/-- **`group` is on screen**, with exactly what its fetches delivered: the one begun with request `first`, or
one that was begun for the group since and took its place or went on from it, up to the last there is. -/
structure ShowsGroup (group : GroupName) (first : Nat) (s : System) : Prop where
  onScreen : s.app.group.map (·.name) = some group
  articles : ∃ fetches : List Nat, fetches.Pairwise (· < ·) ∧
    (∀ i ∈ fetches, first ≤ i ∧ s.ListsGroup group i) ∧
    (∃ last ∈ fetches, ∀ (i : Nat) request, s.requests.sent[i]? = some request → request.token ≠ none →
      i ≤ last) ∧
    s.app.articles = assembled (fetches.flatMap s.eventsOf)

/-- If the group was listed once only, what is on screen is what that delivered. -/
theorem ShowsGroup.single (h : ShowsGroup group first s)
    (hsingle : ∀ i, first ≤ i → s.ListsGroup group i → i = first) :
    s.app.articles = assembled (s.eventsOf first) := by
  obtain ⟨fetches, hordered, hsince, ⟨last, hlast, _⟩, harticles⟩ := h.articles
  have hall : ∀ i ∈ fetches, i = first := fun i hi => hsingle i (hsince i hi).1 (hsince i hi).2
  have hfetches : fetches = [first] := by
    cases fetches with
    | nil => cases hlast
    | cons i rest =>
        rw [hall i List.mem_cons_self]
        cases rest with
        | nil => rfl
        | cons j rest =>
            have hlt := (List.pairwise_cons.mp hordered).1 j List.mem_cons_self
            rw [hall i List.mem_cons_self, hall j (by simp)] at hlt
            exact absurd hlt (Nat.lt_irrefl _)
  rw [harticles, hfetches, List.flatMap_singleton]

/-- **The last fetch is answered**: the group was opened, and all its records have been taken. -/
theorem Tracks.answered (h : Tracks group first closed last s) (hsound : Sound s)
    (hanswered : s.isAnswered last = true) :
    (∃ summary, .groupOpened summary ∈ s.arrivedOf last) ∧ s.eventsOf last = s.arrivedOf last := by
  obtain ⟨count, hwanted⟩ := h.wanted
  obtain ⟨final, hfinal, hisFinal⟩ := isAnswered_iff.mp hanswered
  have htaken : last < s.requests.received := hsound.delivery.tags _ (arrived_subset _ hfinal)
  obtain ⟨q, hat, _⟩ := hsound.delivery.follows last _ htaken hwanted fun heq => by cases heq
  obtain ⟨rest, _, hevents⟩ := eventsOf_taken s last
  unfold At at hat
  rw [hevents, Work.observe_append] at hat
  obtain ⟨mid, hmid, hrest⟩ := Option.bind_eq_some_iff.mp hat
  have hended := (observe_final (Or.inl rfl) hmid).mpr ⟨final, mem_arrivedOf.mpr hfinal, hisFinal⟩
  rcases observe_opening hmid h.good with rfl | ⟨rfl | rfl, hopened⟩
  · exact absurd (Or.inl rfl) hended
  · exact absurd (Or.inr rfl) hended
  · refine ⟨hopened, ?_⟩
    rw [hevents]
    -- nothing follows the end of the records
    cases hmore : (rest.filter fun e => e.1 = last).map (·.2) with
    | nil => rw [List.append_nil]
    | cons event events =>
        rw [hmore] at hrest
        obtain ⟨next, hnext, _⟩ := Option.bind_eq_some_iff.mp hrest
        cases event <;> cases hnext

theorem Tracks.shows (h : Tracks group first closed last s) (hsound : Sound s) (hfiling : Filing s)
    (hanswered : s.isAnswered last = true) : ShowsGroup group first s := by
  obtain ⟨⟨summary, hopened⟩, hlast⟩ := h.answered hsound hanswered
  refine ⟨h.group summary hopened, closed ++ [last], h.ordered, h.since, ⟨last, by simp, ?_⟩, ?_⟩
  · intro i request hi htoken
    obtain ⟨token, htoken⟩ := Option.ne_none_iff_exists'.mp htoken
    exact h.le_last hfiling hi htoken
  · rw [h.articles]
    congr 1
    apply List.flatMap_congr
    intro i hi
    rcases List.mem_append.mp hi with hi | hi
    · exact (hsound.delivery.eventsOf_of_later (h.past i hi)).symm
    · rw [List.mem_singleton.mp hi]
      exact hlast.symm

/-- With all requests answered the worker has not stopped. -/
theorem AllAnswered.running (h : s.AllAnswered) (hsound : Sound s) : s.worker ≠ .stopped := by
  intro hstopped
  obtain ⟨i, hi⟩ := List.mem_iff_getElem?.mp (hsound.quits.stopped hstopped)
  obtain ⟨event, hmem, hfinal⟩ := isAnswered_iff.mp (h i (List.getElem?_eq_some_iff.mp hi).1)
  have hevent : event = .stopped := hsound.tail.stops _ (arrived_subset _ hmem) hi
  rw [hevent] at hfinal
  cases hfinal

end System

namespace Linked

open System

variable {env : Environment} {holdings : Holdings} {l l' opened : Linked} {a : Action} {group : GroupName}
  {first : Nat}

/-- Every step of the reader, as long as none lists or reopens another group. -/
theorem follows_step (hs : l.step env holdings a = some l') (hquiet : Undisturbed env l.system a)
    (hreloads : ReloadsOnly group l.system a) (h : Kept holdings l ∧ Follows group first l.system) :
    Kept holdings l' ∧ Follows group first l'.system := by
  obtain ⟨hkept, hfollows⟩ := h
  refine ⟨hkept.step hs, ?_⟩
  obtain ⟨hsound, hhonest, hfiling⟩ := hkept
  exact hfollows.step hsound hfiling (step_advances hs).happens hhonest.told hquiet hreloads

/-- The fetches of a group that is entered are known from then on. -/
theorem follows_enter (hkept : Kept holdings l) {key : Key} {row : GroupRow}
    (hentered : l.system.app.entered env.lowercase key = some row) (hnonempty : row.isEmpty = false)
    (hopen : l.step env holdings (.key key) = some opened) :
    Follows row.name l.system.requests.sent.length opened.system := by
  right
  have hs := (step_advances hopen).happens
  generalize opened.system = system at hs ⊢
  cases hs with
  | key hphase => exact ⟨[], _, enter_tracks hkept.1 hphase hentered hnonempty⟩

/-- **The group opened last is the one on screen** when all requests are answered, if no answer to a posting
finds the article posted to another group that is still on screen. -/
theorem lastOpened_shown (env : Environment) (holdings : Holdings) (config : UiConfig) (read : ReadStore)
    (subscriptions : List Wildmat) (postFrom : Option Str) (files : Files) (before after : List Action)
    (key : Key) (row : GroupRow) (l opened l' : Linked)
    (hbefore : run (step env holdings) (start config read subscriptions postFrom files) before = some l)
    (hentered : l.system.app.entered env.lowercase key = some row) (hnonempty : row.isEmpty = false)
    (hopen : l.step env holdings (.key key) = some opened)
    (hafter : run (step env holdings) opened after = some l')
    (hquiet : Meets (step env holdings) (fun l a => Undisturbed env l.system a) opened after)
    (hreloads : Meets (step env holdings) (fun l a => ReloadsOnly row.name l.system a) opened after)
    (hanswered : l'.system.AllAnswered) :
    l'.system.ShowsGroup row.name l.system.requests.sent.length := by
  have hkept : Kept holdings l := kept_run env config read subscriptions postFrom files before hbefore
  obtain ⟨⟨hsound, _, hfiling⟩, hfollows⟩ : Kept holdings l' ∧
      Follows row.name l.system.requests.sent.length l'.system := by
    refine invariant_run (step env holdings) (fun _ _ _ hok hs h => follows_step hs hok.1 hok.2 h)
      ⟨hkept.step hopen, follows_enter hkept hentered hnonempty hopen⟩ (hquiet.and _ hreloads) hafter
  obtain ⟨closed, last, htracks⟩ := hfollows.resolve_left (hanswered.running hsound)
  obtain ⟨count, hwanted⟩ := htracks.wanted
  exact htracks.shows hsound hfiling (hanswered last (List.getElem?_eq_some_iff.mp hwanted).1)

/-! ### Two groups -/

def altTest : GroupName where
  asStr := "alt.test".toList
  wellFormed := by decide

/-- A server that lists `group`, and `records` in whatever is selected. -/
def lists (group : GroupName) (records : List OverviewRecord) (connected : Bool) (selected : Option GroupName) :
    (op : ClientOp) → op.Answer
  | .command (.listGroups _) => .ok [{ name := group, high := 1, low := 1, status := .permitted }]
  | .command (.selectGroup name) => .ok { name, estimatedCount := 1, low := 1, high := 1 }
  | .command (.overviewStreaming _ _) => .ok (records.map some)
  | .command .connect => .ok ([], false)
  | .query .isConnected => connected
  | .query .selectedGroup => selected
  | op => oneGroup op

/-- There is one article in every group. -/
def oneEach : Holdings where
  listed _ record := decide (record.number = 1)
  stored _ article := decide (article.number = some 1)

def posterStart : Linked := start plainConfig {} [] (some "a@example.com".toList) fun _ => none

/-- The list with `group` in it is fetched over a connection that has to be made. -/
def listsFirst (group : GroupName) : List Action :=
  let connecting := .answer (lists group [] false none)
  let listing := .answer (lists group [] true none)
  [.idle none, .take, .emit, connecting, .emit, listing, .emit, listing, listing, listing, .emit, .finish,
    .tick, .receive, .receive, .receive, .receive, .idle none]

/-- The list is fetched again, with another group in it. -/
def listsAgain (selected group : GroupName) : List Action :=
  let listing := .answer (lists group [] true (some selected))
  [.idle none, .key { code := .left }, .idle none, .key { code := .char 'r' }, .take, .emit, listing, listing,
    listing, listing, .emit, .finish, .receive, .receive]

/-- The worker opens `group`, and all that comes of it is taken. -/
def opens (selected : Option GroupName) (group : GroupName) (records : List OverviewRecord) : List Action :=
  let selecting := .answer (lists group records true selected)
  let opened := .answer (lists group records true (some group))
  [.take, .emit, selecting, selecting, .emit, opened, opened, opened, opened, .emit, .emit, .finish,
    .receive, .receive, .receive, .receive]

/-- The worker posts an article, and all that comes of it is taken. -/
def posted (selected : GroupName) : List Action :=
  let posting := .answer (lists selected [] true (some selected))
  [.take, .emit, posting, posting, .emit, .finish, .receive, .receive]

/-- The group entered is opened, an article is posted to it, and it is opened again behind that. -/
def postsInside : List Action :=
  opens none altTest [.bare 1] ++ writes 1 "one" ++ posted altTest ++ opens (some altTest) altTest []

theorem lastOpened_shown_posted : ∃ l opened l',
    run (step plainEnvironment oneEach) posterStart (listsFirst altTest) = some l ∧
    l.step plainEnvironment oneEach (.key { code := .enter }) = some opened ∧
    run (step plainEnvironment oneEach) opened postsInside = some l' ∧
    l'.system.requests.sent.length = 4 ∧ l'.system.ShowsGroup altTest 1 := by
  have heval : ((run (step plainEnvironment oneEach) posterStart (listsFirst altTest)).any fun l =>
      (l.system.app.entered id { code := .enter }).any fun row =>
      (l.step plainEnvironment oneEach (.key { code := .enter })).any fun opened =>
      (run (step plainEnvironment oneEach) opened postsInside).any fun l' =>
      decide (l.system.requests.sent.length = 1 ∧ row.name = altTest ∧ row.isEmpty = false ∧
        Meets (step plainEnvironment oneEach) (fun l a => Undisturbed plainEnvironment l.system a) opened
          postsInside ∧
        Meets (step plainEnvironment oneEach) (fun l a => ReloadsOnly row.name l.system a) opened postsInside ∧
        l'.system.requests.sent.length = 4 ∧ l'.system.AllAnswered)) = true := by decide +kernel
  obtain ⟨l, hl, heval⟩ := (Option.any_eq_true _ _).mp heval
  obtain ⟨row, hrow, heval⟩ := (Option.any_eq_true _ _).mp heval
  obtain ⟨opened, hopened, heval⟩ := (Option.any_eq_true _ _).mp heval
  obtain ⟨l', hl', heval⟩ := (Option.any_eq_true _ _).mp heval
  obtain ⟨hone, hname, hnonempty, hquiet, hreloads, hfour, hanswered⟩ := of_decide_eq_true heval
  refine ⟨l, opened, l', hl, hopened, hl', hfour, ?_⟩
  rw [← hname, ← hone]
  exact lastOpened_shown _ _ _ _ _ _ _ _ _ _ row l opened l' hl hrow hnonempty hopened hl' hquiet hreloads
    hanswered

/-- A group is opened, another one is listed, and an article is posted to the first. -/
def postsBehind : List Action :=
  listsFirst altTest ++ [.key { code := .enter }] ++ opens none altTest [.bare 1] ++
    listsAgain altTest miscTest ++ writes 1 "one" ++ [.idle none]

/-- The acceptance is taken, then what comes of the group entered, and then what comes of the first again. -/
def comesBack : List Action :=
  posted altTest ++ opens (some altTest) miscTest [.bare 1] ++ opens (some miscTest) altTest [.bare 1]

/-- The acceptance of an article reopens the group that the user has left for another. -/
theorem lastOpened_reopens : ¬ ∀ (env : Environment) (holdings : Holdings) (config : UiConfig)
    (read : ReadStore) (subscriptions : List Wildmat) (postFrom : Option Str) (files : Files)
    (before after : List Action) (key : Key) (row : GroupRow) (l opened l' : Linked),
    run (step env holdings) (start config read subscriptions postFrom files) before = some l →
    l.system.app.entered env.lowercase key = some row → row.isEmpty = false →
    l.step env holdings (.key key) = some opened → run (step env holdings) opened after = some l' →
    Meets (step env holdings) (fun l a => Undisturbed env l.system a) opened after →
    l'.system.AllAnswered → l'.system.ShowsGroup row.name l.system.requests.sent.length := by
  intro hall
  have heval : ((run (step plainEnvironment oneEach) posterStart postsBehind).any fun l =>
      (l.system.app.entered id { code := .enter }).any fun row =>
      (l.step plainEnvironment oneEach (.key { code := .enter })).any fun opened =>
      (run (step plainEnvironment oneEach) opened comesBack).any fun l' =>
      decide (row.name = miscTest ∧ row.isEmpty = false ∧
        Meets (step plainEnvironment oneEach) (fun l a => Undisturbed plainEnvironment l.system a) opened
          comesBack ∧
        l'.system.AllAnswered ∧ l'.system.app.group.map (·.name) = some altTest)) = true := by decide +kernel
  obtain ⟨l, hl, heval⟩ := (Option.any_eq_true _ _).mp heval
  obtain ⟨row, hrow, heval⟩ := (Option.any_eq_true _ _).mp heval
  obtain ⟨opened, hopened, heval⟩ := (Option.any_eq_true _ _).mp heval
  obtain ⟨l', hl', heval⟩ := (Option.any_eq_true _ _).mp heval
  obtain ⟨hname, hnonempty, hquiet, hanswered, halt⟩ := of_decide_eq_true heval
  have hshown := (hall _ _ _ _ _ _ _ _ _ _ row l opened l' hl hrow hnonempty hopened hl' hquiet hanswered).onScreen
  rw [halt, hname] at hshown
  exact absurd (Option.some.inj hshown) (by decide)

end Linked

end Nntp.Tui
