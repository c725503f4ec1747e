import Nntp.Tui.Link
import Nntp.Tui.Drafts

/-!
# Records and read marks by group

Which group is on screen changes when `GroupOpened` arrives, and which fetch is wanted when a request is
issued. In between the article list is empty. This is why what is on screen, and what is marked read, is
always of the group on screen: the events come in the order of the requests, and a token is never used
again.
-/

namespace Nntp.Tui

open Nntp.Lib Nntp.Proto Nntp.Client

/-! ## The reader with its connection -/

/-- The reader, and the connection behind its worker. -/
structure Linked where
  system : System
  link : Link := {}

/-- **One step of the reader with its connection**: the client answers as the connection permits. -/
def Linked.step (env : Environment) (holdings : Holdings) (l : Linked) (a : Action) : Option Linked :=
  match a, l.system.worker with
  | .answer reply, .busy (.ask op _) _ =>
      (l.link.answer holdings op (reply op)).bind fun link =>
        (l.system.step env a).map fun system => { system, link }
  | _, _ => (l.system.step env a).map fun system => { l with system }

def Linked.start (config : UiConfig) (read : ReadStore) (subscriptions : List Wildmat)
    (postFrom : Option Str) (files : Files) : Linked where
  system := .start config read subscriptions postFrom files

/-- The fetch a request is for. -/
def Request.token : Request → Option FetchToken
  | .openGroup _ _ token => some token
  | .loadOverview _ _ token => some token
  | _ => none

namespace System

variable {env : Environment} {holdings : Holdings} {s s' : System} {a : Action} {i j k : Nat}
  {event : Event} {request : Request} {requests : List Request}

/-! ## What is still to come -/

/-- Nothing of a later request has been taken, and of request `i` itself no event of this kind. -/
def Awaits (kind : Event → Bool) (s : System) (i : Nat) : Prop :=
  ∀ e ∈ s.arrived, e.1 ≤ i ∧ (e.1 = i → kind e.2 = false)

def isOpened : Event → Bool
  | .groupOpened _ => true
  | _ => false

def isArticle : Event → Bool
  | .article _ => true
  | _ => false

/-- Request `i` opens `group`, and that it is open is still to come. -/
def Opening (s : System) (i : Nat) (group : GroupName) : Prop :=
  (∃ count token, s.requests.sent[i]? = some (.openGroup group count token)) ∧ s.Awaits isOpened i

/-- Request `i` fetches an article of `group`, which is still to come. -/
def Fetching (s : System) (i : Nat) (group : GroupName) : Prop :=
  (∃ spec, s.requests.sent[i]? = some (.loadArticle (some group) spec)) ∧ s.Awaits isArticle i

/-- **What is on screen is of the group on screen.** -/
structure Filing (s : System) : Prop where
  /-- articles are asked for by number, in a group -/
  specs : ∀ (i : Nat) group spec, s.requests.sent[i]? = some (.loadArticle group spec) →
    ∃ name number, group = some name ∧ spec = .number number
  /-- every fetch has a token of its own, later ones greater ones -/
  tokens : ∀ (i : Nat) request token, s.requests.sent[i]? = some request → request.token = some token →
    token ≤ s.app.nextToken ∧ ∀ (j : Nat) later token', s.requests.sent[j]? = some later →
      later.token = some token' → i < j → token < token'
  /-- the fetch on screen is the last one -/
  current : ∀ token, s.app.overviewToken = some token → token = s.app.nextToken
  /-- with articles on screen, no other group is still to be opened -/
  opening : s.app.articles ≠ [] → ∃ summary, s.app.group = some summary ∧
    ∀ i group, s.Opening i group → group = summary.name
  /-- an article that is still to come is of the group on screen, and no other group is opened before it
  comes -/
  fetching : ∀ i group, s.Fetching i group → ∃ summary, s.app.group = some summary ∧
    summary.name = group ∧ ∀ j group', j < i → s.Opening j group' → group' = group
  records : ∀ record ∈ s.app.articles, ∃ summary, s.app.group = some summary ∧
    ∃ i token chunk skipped, (i, .overviewChunk summary.name token chunk skipped) ∈ s.arrived ∧
      record ∈ chunk

/-! ## Events and what is awaited -/

theorem awaits_receive {kind : Event → Bool} (hnext : s.events.next = some (i, event))
    (hevents : s'.events = s.events.receive) :
    Awaits kind s' j ↔ Awaits kind s j ∧ i ≤ j ∧ (i = j → kind event = false) := by
  unfold Awaits
  rw [arrived_receive hnext hevents]
  constructor
  · intro h
    exact ⟨fun e he => h e (List.mem_append_left _ he),
      h (i, event) (List.mem_append_right _ (List.mem_singleton_self _))⟩
  · rintro ⟨h, hlast⟩ e he
    rcases List.mem_append.mp he with he | he
    · exact h e he
    · rw [List.mem_singleton.mp he]
      exact hlast

/-- Nothing leads back to the first stage. -/
theorem advance_waiting {q : Stage} (h : advance true request q event = some .waiting) :
    q = .waiting ∧ isOpened event = false ∧ event.isFinal = false := by
  unfold advance at h
  split at h
  case h_1 | h_3 => exact ⟨rfl, rfl, rfl⟩
  case h_2 | h_4 | h_13 | h_14 | h_15 | h_18 => cases h
  all_goals split at h
  all_goals try (split at h)
  all_goals first
    | (cases h; exact ⟨rfl, rfl, rfl⟩)
    | cases h

/-- Before its group is open, and before its final answer, neither has come for a request. -/
theorem observe_waiting {events : List Event} {q : Stage}
    (h : Work.observe (advance true request) .waiting events = some q) (hq : q = .waiting) :
    ∀ event ∈ events, isOpened event = false ∧ event.isFinal = false := by
  induction events using List.reverseRecOn generalizing q with
  | nil => exact fun event hmem => absurd hmem List.not_mem_nil
  | append_singleton events last ih =>
      rw [Work.observe_append] at h
      obtain ⟨mid, hmid, hlast⟩ := Option.bind_eq_some_iff.mp h
      obtain ⟨q', hq', hnil⟩ := Option.bind_eq_some_iff.mp hlast
      cases hnil
      rw [hq] at hq'
      obtain ⟨hwaiting, hthis⟩ := advance_waiting hq'
      intro event hmem
      rcases List.mem_append.mp hmem with hmem | hmem
      · exact ih hmid hwaiting event hmem
      · rw [List.mem_singleton.mp hmem]
        exact hthis

/-- The next event is awaited if nothing of its kind has come for its request. -/
theorem awaits_next {kind : Event → Bool} (h : Sound s) (hnext : s.events.next = some (i, event))
    (hwaiting : ∀ event ∈ s.arrivedOf i, kind event = false) : Awaits kind s i := by
  intro e he
  refine ⟨?_, ?_⟩
  · have hordered := h.delivery.ordered
    rw [Channel.sent_of_next hnext] at hordered
    exact (List.pairwise_append.mp hordered).2.2 e he _ List.mem_cons_self
  · rintro rfl
    exact hwaiting _ (mem_arrivedOf.mpr he)

/-- `GroupOpened` comes when its request opens the group. -/
theorem opening_next (h : Sound s) {summary : GroupSummary}
    (hnext : s.events.next = some (i, .groupOpened summary)) : ∃ group, s.Opening i group := by
  obtain ⟨request, hrequest, hstopped | ⟨q, q', hq, hq'⟩⟩ := h.next hnext
  · cases hstopped
  · cases q with
    | waiting =>
        cases request with
        | openGroup group count token =>
            exact ⟨group, ⟨count, token, hrequest⟩,
              awaits_next h hnext fun e he => (observe_waiting hq rfl e he).1⟩
        | _ => cases hq'
    | _ => cases hq'

/-- `Article` comes when its request fetches it. -/
theorem fetching_next (h : Sound s) (hfiling : Filing s) {article : Article}
    (hnext : s.events.next = some (i, .article article)) : ∃ group number,
      s.requests.sent[i]? = some (.loadArticle (some group) (.number number)) ∧ s.Fetching i group := by
  obtain ⟨request, hrequest, hstopped | ⟨q, q', hq, hq'⟩⟩ := h.next hnext
  · cases hstopped
  · cases q with
    | waiting =>
        cases request with
        | loadArticle group spec =>
            obtain ⟨name, number, rfl, rfl⟩ := hfiling.specs i group spec hrequest
            refine ⟨name, number, hrequest, ⟨_, hrequest⟩, awaits_next h hnext fun e he => ?_⟩
            have hfinal := (observe_waiting hq rfl e he).2
            cases e with
            | article article => cases hfinal
            | _ => rfl
        | _ => cases hq'
    | _ => cases hq'

/-- A chunk comes for a request that lists its group with its token. -/
theorem listing_next (h : Sound s) {group : GroupName} {token : FetchToken}
    {records : List OverviewRecord} {skipped : Nat}
    (hnext : s.events.next = some (i, .overviewChunk group token records skipped)) :
    ∃ request, s.requests.sent[i]? = some request ∧ request.token = some token ∧
      ∀ g count t, request = .openGroup g count t → g = group := by
  obtain ⟨request, hrequest, hstopped | ⟨q, q', _, hq'⟩⟩ := h.next hnext
  · cases hstopped
  · refine ⟨request, hrequest, ?_⟩
    cases q with
    | waiting =>
        cases request with
        | loadOverview g range t =>
            have hq' : (if group = g ∧ token = t then some Stage.waiting else none) = some q' := hq'
            split at hq'
            · next heq =>
                rw [heq.2]
                exact ⟨rfl, fun _ _ _ hother => by cases hother⟩
            · cases hq'
        | _ => cases hq'
    | opened =>
        cases request with
        | openGroup g count t =>
            have hq' : (if group = g ∧ token = t then some Stage.opened else none) = some q' := hq'
            split at hq'
            · next heq =>
                rw [heq.2]
                refine ⟨rfl, fun _ _ _ hsame => ?_⟩
                cases hsame
                exact heq.1.symm
            · cases hq'
        | _ => cases hq'
    | _ => cases hq'

/-! ## Steps that keep everything filed -/

/-- Nothing new is awaited, the list stays or is emptied, and the fetch on screen is the last one. -/
theorem Filing.less (h : Filing s) (hsent : s'.requests.sent = s.requests.sent)
    (hopening : ∀ i group, s'.Opening i group → s.Opening i group)
    (hfetching : ∀ i group, s'.Fetching i group → s.Fetching i group)
    (harrived : s.arrived ⊆ s'.arrived) (hgroup : s'.app.group = s.app.group)
    (harticles : s'.app.articles = s.app.articles ∨ s'.app.articles = [])
    (hnext : s.app.nextToken ≤ s'.app.nextToken)
    (hcurrent : ∀ token, s'.app.overviewToken = some token → token = s'.app.nextToken) : Filing s' := by
  refine ⟨?_, ?_, hcurrent, ?_, ?_, ?_⟩
  · rw [hsent]
    exact h.specs
  · rw [hsent]
    intro i request token hi htoken
    obtain ⟨hle, hlater⟩ := h.tokens i request token hi htoken
    exact ⟨hle.trans hnext, hlater⟩
  · intro hne
    rw [hgroup]
    obtain ⟨summary, hsummary, hall⟩ := h.opening (by
      rcases harticles with heq | heq
      · rw [← heq]
        exact hne
      · exact absurd heq hne)
    exact ⟨summary, hsummary, fun i group hi => hall i group (hopening i group hi)⟩
  · intro i group hi
    rw [hgroup]
    obtain ⟨summary, hsummary, hname, hbefore⟩ := h.fetching i group (hfetching i group hi)
    exact ⟨summary, hsummary, hname, fun j g hj hopen => hbefore j g hj (hopening j g hopen)⟩
  · intro record hmem
    rw [hgroup]
    rcases harticles with heq | heq
    · rw [heq] at hmem
      obtain ⟨summary, hsummary, i, token, chunk, skipped, hchunk, hrecord⟩ := h.records record hmem
      exact ⟨summary, hsummary, i, token, chunk, skipped, harrived hchunk, hrecord⟩
    · rw [heq] at hmem
      cases hmem

/-- What the interface asks for: a fetch with a new token, of the group on screen if there are articles, or
an article on screen. -/
structure Issuable (s : System) (request : Request) : Prop where
  token : ∀ token, request.token = some token → token ≤ s.app.nextToken ∧
    ∀ (i : Nat) earlier t, s.requests.sent[i]? = some earlier → earlier.token = some t → t < token
  opens : ∀ group count token, request = .openGroup group count token → s.app.articles ≠ [] →
    ∃ summary, s.app.group = some summary ∧ group = summary.name
  fetches : ∀ group spec, request = .loadArticle group spec → s.app.articles ≠ [] ∧
    ∃ summary number, s.app.group = some summary ∧ group = some summary.name ∧ spec = .number number

/-- One more request. -/
theorem Filing.issue (h : Filing s) (hissuable : Issuable s request)
    (hsent : s'.requests.sent = s.requests.sent ++ [request]) (hevents : s'.events = s.events)
    (happ : s'.app = s.app) : Filing s' := by
  obtain ⟨htoken, hopens, hfetches⟩ := hissuable
  have harrived : s'.arrived = s.arrived := by
    unfold arrived
    rw [hevents]
  have hget : ∀ (i : Nat) r, s'.requests.sent[i]? = some r →
      s.requests.sent[i]? = some r ∨ i = s.requests.sent.length ∧ r = request := by
    intro i r hi
    have hchannel : (s.requests.send request).sent[i]? = some r := by
      rw [Channel.send_sent, ← hsent]
      exact hi
    exact Channel.send_cases hchannel
  have hopening : ∀ i group, s'.Opening i group → s.Opening i group ∨
      i = s.requests.sent.length ∧ ∃ count token, request = .openGroup group count token := by
    rintro i group ⟨⟨count, token, hi⟩, hawaits⟩
    unfold Awaits at hawaits
    rw [harrived] at hawaits
    rcases hget i _ hi with hi | ⟨rfl, heq⟩
    · exact Or.inl ⟨⟨count, token, hi⟩, hawaits⟩
    · exact Or.inr ⟨rfl, count, token, heq.symm⟩
  refine ⟨?_, ?_, ?_, ?_, ?_, ?_⟩
  · intro i group spec hi
    rcases hget i _ hi with hi | ⟨_, heq⟩
    · exact h.specs i group spec hi
    · obtain ⟨_, summary, number, _, hname, hspec⟩ := hfetches group spec heq.symm
      exact ⟨summary.name, number, hname, hspec⟩
  · rw [happ]
    intro i r token hi hr
    rcases hget i r hi with hi | ⟨rfl, rfl⟩
    · obtain ⟨hle, hlater⟩ := h.tokens i r token hi hr
      refine ⟨hle, fun j later token' hj hl hij => ?_⟩
      rcases hget j later hj with hj | ⟨_, rfl⟩
      · exact hlater j later token' hj hl hij
      · exact (htoken token' hl).2 i r token hi hr
    · refine ⟨(htoken token hr).1, fun j later token' hj hl hij => ?_⟩
      rcases hget j later hj with hj | ⟨rfl, _⟩
      · exact absurd (List.getElem?_eq_some_iff.mp hj).1 (Nat.not_lt.mpr (Nat.le_of_lt hij))
      · exact absurd hij (Nat.lt_irrefl _)
  · rw [happ]
    exact h.current
  · rw [happ]
    intro hne
    obtain ⟨summary, hsummary, hall⟩ := h.opening hne
    refine ⟨summary, hsummary, fun i group hi => ?_⟩
    rcases hopening i group hi with hi | ⟨_, count, token, heq⟩
    · exact hall i group hi
    · obtain ⟨summary', hsummary', hname⟩ := hopens group count token heq hne
      cases hsummary.symm.trans hsummary'
      exact hname
  · rw [happ]
    rintro i group ⟨⟨spec, hi⟩, hawaits⟩
    unfold Awaits at hawaits
    rw [harrived] at hawaits
    rcases hget i _ hi with hi | ⟨rfl, heq⟩
    · obtain ⟨summary, hsummary, hname, hbefore⟩ := h.fetching i group ⟨⟨spec, hi⟩, hawaits⟩
      refine ⟨summary, hsummary, hname, fun j g hj hopen => ?_⟩
      rcases hopening j g hopen with hopen | ⟨rfl, _⟩
      · exact hbefore j g hj hopen
      · exact absurd (List.getElem?_eq_some_iff.mp hi).1 (Nat.not_lt.mpr (Nat.le_of_lt hj))
    · obtain ⟨hne, summary, number, hsummary, hname, _⟩ := hfetches _ spec heq.symm
      obtain ⟨summary', hsummary', hall⟩ := h.opening hne
      cases hsummary.symm.trans hsummary'
      refine ⟨summary, hsummary, (Option.some.inj hname).symm, fun j g hj hopen => ?_⟩
      rcases hopening j g hopen with hopen | ⟨rfl, _⟩
      · exact (hall j g hopen).trans (Option.some.inj hname).symm
      · exact absurd hj (Nat.lt_irrefl _)
  · rw [happ, harrived]
    exact h.records

/-- Handing over at most one request. -/
theorem Filing.sent (h : Filing s) (hsent : Sent requests s s') (hone : requests.length ≤ 1)
    (hissuable : ∀ request ∈ requests, Issuable s request) : Filing s' := by
  have harrived : s'.arrived = s.arrived := by
    unfold arrived
    rw [hsent.events]
  have hledger : s'.app.group = s.app.group ∧ s'.app.articles = s.app.articles ∧
      s'.app.nextToken = s.app.nextToken ∧ s'.app.overviewToken = s.app.overviewToken := by
    rcases hsent.ledger with hl | hl
    · exact ⟨congrArg Ledger.group hl, congrArg Ledger.articles hl, congrArg Ledger.nextToken hl,
        congrArg Ledger.overviewToken hl⟩
    · exact ⟨congrArg Ledger.group hl, congrArg Ledger.articles hl, congrArg Ledger.nextToken hl,
        congrArg Ledger.overviewToken hl⟩
  have hsame : s'.requests.sent = s.requests.sent → Filing s' := by
    intro hrequests
    refine h.less hrequests ?_ ?_ ?_ hledger.1 (Or.inl hledger.2.1) (Nat.le_of_eq hledger.2.2.1.symm) ?_
    · unfold Opening Awaits
      rw [hrequests, harrived]
      exact fun _ _ hi => hi
    · unfold Fetching Awaits
      rw [hrequests, harrived]
      exact fun _ _ hi => hi
    · rw [harrived]
      exact List.Subset.refl _
    · rw [hledger.2.2.1, hledger.2.2.2]
      exact h.current
  rcases Classical.em (s.worker = .stopped) with hworker | hworker
  · exact hsame (hsent.stopped hworker).1
  · obtain ⟨happ, hrequests⟩ := hsent.running hworker
    cases requests with
    | nil => exact hsame (hrequests.trans (List.append_nil _))
    | cons request rest =>
        cases rest with
        | nil =>
            exact h.issue (hissuable request (List.mem_singleton_self _)) hrequests hsent.events happ
        | cons _ _ => exact absurd hone (by simp)

/-- With the tokens counted up, the new one is greater than all that were given out. -/
theorem Filing.fresh (h : Filing s) (hsent : s'.requests.sent = s.requests.sent)
    (hnext : s'.app.nextToken = s.app.nextToken + 1) {token : FetchToken}
    (htoken : token = s.app.nextToken + 1) : token ≤ s'.app.nextToken ∧
      ∀ (i : Nat) earlier t, s'.requests.sent[i]? = some earlier → earlier.token = some t →
        t < token := by
  rw [hnext, htoken, hsent]
  exact ⟨Nat.le_refl _, fun i earlier t hi ht => Nat.lt_succ_of_le (h.tokens i earlier t hi ht).1⟩

/-- **A key press** leaves everything filed, and what it asks for may be asked for. -/
theorem Filing.strike (h : Filing s) (key : Key) : Filing (s.strike env key) ∧
    (s.app.onKey env.lowercase key).2.length ≤ 1 ∧
    ∀ request ∈ (s.app.onKey env.lowercase key).2, Issuable (s.strike env key) request := by
  have hkey := ledger_onKey env.lowercase s.app key
  have hless : ∀ l : Ledger, (s.app.onKey env.lowercase key).1.ledger = l → l.group = s.app.group →
      (l.articles = s.app.articles ∨ l.articles = []) → s.app.nextToken ≤ l.nextToken →
      (∀ token, l.overviewToken = some token → token = l.nextToken) → Filing (s.strike env key) := by
    rintro l rfl hgroup harticles hnext hcurrent
    exact h.less rfl (fun _ _ hi => hi) (fun _ _ hi => hi) (List.Subset.refl _) hgroup harticles hnext
      hcurrent
  have hlast : ∀ token : FetchToken, some (s.app.nextToken + 1) = some token →
      token = s.app.nextToken + 1 := fun token heq => (Option.some.inj heq).symm
  generalize hrequests : (s.app.onKey env.lowercase key).2 = requests at hkey
  cases hkey with
  | screen hl | cancel _ hl | compose _ hl =>
      refine ⟨hless _ hl rfl (Or.inl rfl) (Nat.le_refl _) h.current, by simp, ?_⟩
      exact fun request hmem => absurd hmem List.not_mem_nil
  | quit hl | groups _ hl =>
      refine ⟨hless _ hl rfl (Or.inl rfl) (Nat.le_refl _) h.current, by simp, ?_⟩
      intro request hmem
      rw [List.mem_singleton.mp hmem]
      exact ⟨fun _ ht => (by cases ht), fun _ _ _ heq => (by cases heq),
        fun _ _ heq => (by cases heq)⟩
  | article summary record hgroup hheld hl =>
      refine ⟨hless _ hl rfl (Or.inl rfl) (Nat.le_refl _) h.current, by simp, ?_⟩
      intro request hmem
      rw [List.mem_singleton.mp hmem]
      refine ⟨fun _ ht => (by cases ht), fun _ _ _ heq => (by cases heq), ?_⟩
      intro group spec heq
      cases heq
      have harticles : (s.strike env key).app.articles = s.app.articles := congrArg Ledger.articles hl
      have hgroup' : (s.strike env key).app.group = s.app.group := congrArg Ledger.group hl
      rw [harticles, hgroup']
      exact ⟨List.ne_nil_of_mem hheld, summary, record.number, hgroup, rfl, rfl⟩
  | clear group _ _ hl =>
      refine ⟨hless _ hl rfl (Or.inr rfl) (Nat.le_refl _) h.current, by simp, ?_⟩
      exact fun request hmem => absurd hmem List.not_mem_nil
  | enter group _ _ hl =>
      refine ⟨hless _ hl rfl (Or.inr rfl) (Nat.le_succ _) hlast, by simp, ?_⟩
      intro request hmem
      rw [List.mem_singleton.mp hmem]
      have hempty : (s.strike env key).app.articles = [] := congrArg Ledger.articles hl
      refine ⟨?_, fun _ _ _ _ hne => absurd hempty hne, fun _ _ heq => (by cases heq)⟩
      intro token ht
      have hnext : (s.strike env key).app.nextToken = s.app.nextToken + 1 := congrArg Ledger.nextToken hl
      exact h.fresh (show (s.strike env key).requests.sent = _ from rfl) hnext (Option.some.inj ht).symm
  | reload group range hl =>
      refine ⟨hless _ hl rfl (Or.inl rfl) (Nat.le_succ _) hlast, by simp, ?_⟩
      intro request hmem
      rw [List.mem_singleton.mp hmem]
      refine ⟨?_, fun _ _ _ heq => (by cases heq), fun _ _ heq => (by cases heq)⟩
      intro token ht
      have hnext : (s.strike env key).app.nextToken = s.app.nextToken + 1 := congrArg Ledger.nextToken hl
      exact h.fresh (show (s.strike env key).requests.sent = _ from rfl) hnext (Option.some.inj ht).symm

theorem Filing.press (h : Filing s) (key : Key) : Filing (s.press env key) := by
  obtain ⟨hstrike, hone, hissuable⟩ : Filing (s.strike env key) ∧ _ ∧ _ := h.strike key
  have hsent := hstrike.sent (foldl_send _ _) hone hissuable
  unfold System.press takeCompose
  split
  · exact hsent.less rfl (fun _ _ hi => hi) (fun _ _ hi => hi) (List.Subset.refl _) rfl (Or.inl rfl)
      (Nat.le_refl _) hsent.current
  · exact hsent.less rfl (fun _ _ hi => hi) (fun _ _ hi => hi) (List.Subset.refl _) rfl (Or.inl rfl)
      (Nat.le_refl _) hsent.current

/-- Awaiting something after an event means that it was awaited before, and that it was not this event. -/
theorem opening_arrive {group : GroupName} (hnext : s.events.next = some (i, event))
    (h : (s.arrive i event).Opening j group) :
    s.Opening j group ∧ i ≤ j ∧ (i = j → isOpened event = false) := by
  obtain ⟨⟨count, token, hrequest⟩, hawaits⟩ := h
  rw [arrive_requests] at hrequest
  obtain ⟨hbefore, hlater⟩ := (awaits_receive hnext (arrive_events i event)).mp hawaits
  exact ⟨⟨⟨count, token, hrequest⟩, hbefore⟩, hlater⟩

theorem fetching_arrive {group : GroupName} (hnext : s.events.next = some (i, event))
    (h : (s.arrive i event).Fetching j group) : s.Fetching j group ∧ i ≤ j := by
  obtain ⟨⟨spec, hrequest⟩, hawaits⟩ := h
  rw [arrive_requests] at hrequest
  obtain ⟨hbefore, hlater, _⟩ := (awaits_receive hnext (arrive_events i event)).mp hawaits
  exact ⟨⟨⟨spec, hrequest⟩, hbefore⟩, hlater⟩

/-- **A group is open**: articles on screen are of that group already, and so is an article that is still
to come. -/
theorem Filing.opened (h : Filing s) (hsound : Sound s) {summary : GroupSummary}
    (hnext : s.events.next = some (i, .groupOpened summary))
    (htrue : ∀ request, s.requests.sent[i]? = some request →
      Truthful holdings request (.groupOpened summary)) : Filing (s.arrive i (.groupOpened summary)) := by
  obtain ⟨group, hopening⟩ := opening_next hsound hnext
  obtain ⟨⟨count, token, hrequest⟩, _⟩ := id hopening
  have hname : summary.name = group := htrue _ hrequest _ _ _ rfl
  have hl := s.arrive_ledger i (.groupOpened summary)
  have hgroup : (s.arrive i (.groupOpened summary)).app.group = some summary :=
    congrArg Ledger.group hl
  have harticles : (s.arrive i (.groupOpened summary)).app.articles = s.app.articles :=
    congrArg Ledger.articles hl
  have hnextToken : (s.arrive i (.groupOpened summary)).app.nextToken = s.app.nextToken :=
    congrArg Ledger.nextToken hl
  have htoken : (s.arrive i (.groupOpened summary)).app.overviewToken = s.app.overviewToken :=
    congrArg Ledger.overviewToken hl
  have hsame : ∀ shown, s.app.group = some shown →
      (∀ j g, s.Opening j g → g = shown.name) → shown.name = summary.name := by
    intro shown _ hall
    exact ((hall i group hopening).symm).trans hname.symm
  refine ⟨?_, ?_, ?_, ?_, ?_, ?_⟩
  · rw [arrive_requests]
    exact h.specs
  · rw [arrive_requests, hnextToken]
    exact h.tokens
  · rw [htoken, hnextToken]
    exact h.current
  · rw [harticles, hgroup]
    intro hne
    obtain ⟨shown, hshown, hall⟩ := h.opening hne
    refine ⟨summary, rfl, fun j g hj => ?_⟩
    rw [← hsame shown hshown hall]
    exact hall j g (opening_arrive hnext hj).1
  · rw [hgroup]
    intro j g hj
    obtain ⟨hfetching, hle⟩ := fetching_arrive hnext hj
    obtain ⟨⟨spec, hfetch⟩, _⟩ := id hfetching
    have hlt : i < j := by
      refine Nat.lt_of_le_of_ne hle ?_
      rintro rfl
      cases hrequest.symm.trans hfetch
    obtain ⟨_, _, _, hbefore⟩ := h.fetching j g hfetching
    refine ⟨summary, rfl, hname.trans (hbefore i group hlt hopening), fun k g' hk hopen => ?_⟩
    exact hbefore k g' hk (opening_arrive hnext hopen).1
  · rw [harticles, hgroup]
    intro record hmem
    obtain ⟨shown, hshown, hall⟩ := h.opening (List.ne_nil_of_mem hmem)
    obtain ⟨shown', hshown', k, token, chunk, skipped, hchunk, hrecord⟩ := h.records record hmem
    cases hshown.symm.trans hshown'
    refine ⟨summary, rfl, k, token, chunk, skipped, ?_, hrecord⟩
    rw [← hsame shown hshown hall, arrived_receive hnext (arrive_events i _)]
    exact List.mem_append_left _ hchunk

/-- **A chunk is accepted**: it is of the last fetch, so nothing issued later opens a group. -/
theorem Filing.chunk (h : Filing s) (hsound : Sound s) {group : GroupName} {token : FetchToken}
    {records : List OverviewRecord} {skipped : Nat}
    (hnext : s.events.next = some (i, .overviewChunk group token records skipped))
    (haccepts : s.app.ledger.Accepts group token) :
    Filing (s.arrive i (.overviewChunk group token records skipped)) := by
  obtain ⟨htoken, hgroup⟩ := haccepts
  obtain ⟨summary, hsummary, hname⟩ := Option.map_eq_some_iff.mp hgroup
  obtain ⟨request, hrequest, hrequestToken, hopens⟩ := listing_next hsound hnext
  have hlast : token = s.app.nextToken := h.current token htoken
  have hl := s.arrive_ledger i (.overviewChunk group token records skipped)
  unfold Ledger.onEvent at hl
  dsimp only at hl
  rw [if_pos ⟨htoken, hgroup⟩] at hl
  generalize hs' : s.arrive i (.overviewChunk group token records skipped) = s' at hl ⊢
  have hsent : s'.requests.sent = s.requests.sent := by rw [← hs', arrive_requests]
  have hgroup' : s'.app.group = s.app.group := congrArg Ledger.group hl
  have harticles : s'.app.articles = Ledger.absorb s.app.articles records :=
    congrArg Ledger.articles hl
  have hnextToken : s'.app.nextToken = s.app.nextToken := congrArg Ledger.nextToken hl
  have htoken' : s'.app.overviewToken = s.app.overviewToken := congrArg Ledger.overviewToken hl
  have harrived : s'.arrived = s.arrived ++ [(i, .overviewChunk group token records skipped)] := by
    rw [← hs']
    exact arrived_receive hnext (arrive_events i _)
  refine ⟨?_, ?_, ?_, ?_, ?_, ?_⟩
  · rw [hsent]
    exact h.specs
  · rw [hsent, hnextToken]
    exact h.tokens
  · rw [htoken', hnextToken]
    exact h.current
  · rw [hgroup']
    refine fun _ => ⟨summary, hsummary, fun j g hj => ?_⟩
    rw [← hs'] at hj
    obtain ⟨⟨⟨count, token', hopen⟩, _⟩, hle, _⟩ := opening_arrive hnext hj
    rcases Nat.lt_or_eq_of_le hle with hlt | rfl
    · have hless := (h.tokens i request token hrequest hrequestToken).2 j _ token' hopen rfl hlt
      rw [hlast] at hless
      exact absurd (h.tokens j _ token' hopen rfl).1 (Nat.not_le_of_lt hless)
    · cases hrequest.symm.trans hopen
      exact (hopens _ _ _ rfl).trans hname.symm
  · rw [hgroup']
    intro j g hj
    rw [← hs'] at hj
    obtain ⟨shown, hshown, hfetched, hbefore⟩ := h.fetching j g (fetching_arrive hnext hj).1
    refine ⟨shown, hshown, hfetched, fun k g' hk hopen => hbefore k g' hk ?_⟩
    rw [← hs'] at hopen
    exact (opening_arrive hnext hopen).1
  · rw [harticles, hgroup', harrived]
    intro record hmem
    rcases Ledger.mem_of_mem_absorb hmem with hmem | hmem
    · refine ⟨summary, hsummary, i, token, records, skipped, List.mem_append_right _ ?_, hmem⟩
      rw [hname]
      exact List.mem_singleton_self _
    · obtain ⟨shown, hshown, k, t, chunk, n, hchunk, hrecord⟩ := h.records record hmem
      exact ⟨shown, hshown, k, t, chunk, n, List.mem_append_left _ hchunk, hrecord⟩

/-- **Every event** leaves everything filed. -/
theorem Filing.arrive (h : Filing s) (hsound : Sound s) (hnext : s.events.next = some (i, event))
    (htrue : ∀ request, s.requests.sent[i]? = some request → Truthful holdings request event) :
    Filing (s.arrive i event) := by
  have hless : ∀ l : Ledger, s.app.ledger.onEvent event = l → l.group = s.app.group →
      l.articles = s.app.articles → s.app.nextToken ≤ l.nextToken →
      (∀ token, l.overviewToken = some token → token = l.nextToken) → Filing (s.arrive i event) := by
    rintro l rfl hgroup harticles hnextToken hcurrent
    have hl := s.arrive_ledger i event
    refine h.less (by rw [arrive_requests]) (fun _ _ hj => (opening_arrive hnext hj).1)
      (fun _ _ hj => (fetching_arrive hnext hj).1) ?_ ((congrArg Ledger.group hl).trans hgroup)
      (Or.inl ((congrArg Ledger.articles hl).trans harticles))
      (hnextToken.trans_eq (congrArg Ledger.nextToken hl).symm) ?_
    · rw [arrived_receive hnext (arrive_events i event)]
      exact List.subset_append_left _ _
    · have hnextToken' : (s.arrive i event).app.nextToken = _ := congrArg Ledger.nextToken hl
      have htoken : (s.arrive i event).app.overviewToken = _ := congrArg Ledger.overviewToken hl
      rw [hnextToken', htoken]
      exact hcurrent
  cases event with
  | groupOpened summary => exact h.opened hsound hnext htrue
  | overviewChunk group token records skipped =>
      by_cases haccepts : s.app.ledger.Accepts group token
      · exact h.chunk hsound hnext haccepts
      · exact hless _ (if_neg haccepts) rfl rfl (Nat.le_refl _) h.current
  | overviewComplete group token =>
      by_cases haccepts : s.app.ledger.Accepts group token
      · exact hless _ (if_pos haccepts) rfl rfl (Nat.le_refl _) fun _ heq => by cases heq
      · exact hless _ (if_neg haccepts) rfl rfl (Nat.le_refl _) h.current
  | posted text =>
      by_cases hreloads : s.app.ledger.reloads.isSome
      · exact hless _ (if_pos hreloads) rfl rfl (Nat.le_succ _) fun _ heq =>
          (Option.some.inj heq).symm
      · exact hless _ (if_neg hreloads) rfl rfl (Nat.le_refl _) h.current
  | _ => exact hless _ rfl rfl rfl (Nat.le_refl _) h.current

theorem Filing.apply (h : Filing s) (hsound : Sound s) (hnext : s.events.next = some (i, event))
    (htrue : ∀ request, s.requests.sent[i]? = some request → Truthful holdings request event) :
    Filing (s.apply i event) := by
  have harrive := h.arrive hsound hnext htrue
  unfold System.apply
  rw [(s.app.ledger_onEvent event).2.1]
  have hl := s.arrive_ledger i event
  cases event with
  | posted text =>
      have hlisted : s.app.ledger.requests (.posted text) = (s.app.ledger.reloads.map fun group =>
        .openGroup group s.app.initialArticles (s.app.nextToken + 1)).toList := rfl
      rw [hlisted]
      cases hreloads : s.app.ledger.reloads with
      | none =>
          exact harrive.sent (foldl_send _ _) (Nat.zero_le _) fun _ hmem => absurd hmem List.not_mem_nil
      | some group =>
          refine harrive.sent (foldl_send _ _) (Nat.le_refl _) fun request hmem => ?_
          have hl' : (s.arrive i (.posted text)).app.ledger =
              { s.app.ledger.answered with posting := none, postingGroups := [] }.beginFetch := by
            rw [hl]
            exact if_pos (by rw [hreloads]; rfl)
          have hnextToken : (s.arrive i (.posted text)).app.nextToken = s.app.nextToken + 1 :=
            congrArg Ledger.nextToken hl'
          have hgroup : (s.arrive i (.posted text)).app.group = s.app.group := congrArg Ledger.group hl'
          rw [List.mem_singleton.mp hmem]
          refine ⟨?_, ?_, fun _ _ heq => (by cases heq)⟩
          · intro token htoken
            exact h.fresh (by rw [arrive_requests]) hnextToken (Option.some.inj htoken).symm
          · rintro g count token heq _
            cases heq
            obtain ⟨summary, hsummary, _, hname⟩ := postedTo_eq_some.mp hreloads
            exact ⟨summary, hgroup.trans hsummary, hname⟩
  | _ => exact harrive

theorem Filing.settle (h : Filing s) (drawn : Option (Nat × Nat)) : Filing (s.settle drawn) := by
  have hl : (s.settle drawn).app.group = s.app.group ∧
      (s.settle drawn).app.articles = s.app.articles ∧
      (s.settle drawn).app.nextToken = s.app.nextToken ∧
      (s.settle drawn).app.overviewToken = s.app.overviewToken := by
    unfold System.settle
    cases s.worker <;> cases drawn <;> exact ⟨rfl, rfl, rfl, rfl⟩
  obtain ⟨hgroup, harticles, hnextToken, htoken⟩ := hl
  refine h.less rfl (fun _ _ hi => hi) (fun _ _ hi => hi) (List.Subset.refl _) hgroup (Or.inl harticles)
    (Nat.le_of_eq hnextToken.symm) ?_
  rw [hnextToken, htoken]
  exact h.current

/-- What leaves the channels to the interface and what is on screen alone. -/
theorem Filing.same (h : Filing s) (happ : s'.app.group = s.app.group ∧
    s'.app.articles = s.app.articles ∧ s'.app.nextToken = s.app.nextToken ∧
    s'.app.overviewToken = s.app.overviewToken) (hsent : s'.requests.sent = s.requests.sent)
    (harrived : s'.arrived = s.arrived) : Filing s' := by
  obtain ⟨hgroup, harticles, hnextToken, htoken⟩ := happ
  refine h.less hsent ?_ ?_ ?_ hgroup (Or.inl harticles) (Nat.le_of_eq hnextToken.symm) ?_
  · unfold Opening Awaits
    rw [hsent, harrived]
    exact fun _ _ hi => hi
  · unfold Fetching Awaits
    rw [hsent, harrived]
    exact fun _ _ hi => hi
  · rw [harrived]
    exact List.Subset.refl _
  · rw [hnextToken, htoken]
    exact h.current

/-- What comes back from the editor is not a fetch. -/
theorem Filing.submit (h : Filing s) (text : Str) (path : Path) :
    Filing ((s.app.onComposed (some (text, path))).2.toList.foldl System.send (s.submit text path)) := by
  have hledger := ledger_onComposed s.app (some (text, path))
  have hsubmitted := submit_submitted s text path
  generalize s.submit text path = after at hsubmitted ⊢
  generalize s.app.onComposed (some (text, path)) = r at hsubmitted hledger ⊢
  have hrest : Filing after := by
    refine h.same ?_ (by rw [hsubmitted.requests]) (by unfold arrived; rw [hsubmitted.events])
    rw [hsubmitted.app]
    rcases hledger with ⟨hl, _⟩ | ⟨_, _, _, hl, _⟩
    · exact ⟨congrArg Ledger.group hl, congrArg Ledger.articles hl, congrArg Ledger.nextToken hl,
        congrArg Ledger.overviewToken hl⟩
    · exact ⟨congrArg Ledger.group hl, congrArg Ledger.articles hl, congrArg Ledger.nextToken hl,
        congrArg Ledger.overviewToken hl⟩
  refine hrest.sent (foldl_send _ _) ?_ ?_
  · cases r.2 <;> simp
  · intro request hmem
    rcases hledger with ⟨_, hrequest⟩ | ⟨_, _, _, _, hrequest⟩
    · rw [hrequest] at hmem
      cases hmem
    · rw [hrequest] at hmem
      rw [List.mem_singleton.mp hmem]
      exact ⟨fun _ ht => (by cases ht), fun _ _ _ heq => (by cases heq),
        fun _ _ heq => (by cases heq)⟩

theorem Filing.session (h : Filing s) (request : ComposeRequest) (stamp : Nat)
    (outcome : EditorOutcome) : Filing (s.session env request stamp outcome) := by
  have hedit : Filing (s.edit env request stamp outcome).2 := h.same ⟨rfl, rfl, rfl, rfl⟩ rfl rfl
  unfold System.session
  cases hcomposed : (s.edit env request stamp outcome).1 with
  | edited text path =>
      dsimp only
      rw [hcomposed]
      exact hedit.submit text path
  | abandoned | failed =>
      dsimp only
      rw [hcomposed]
      exact hedit.same ⟨rfl, rfl, rfl, rfl⟩ rfl rfl

/-- **Every step** leaves everything filed, if the next event is true. -/
theorem Filing.step (h : Filing s) (hsound : Sound s) (hs : Happens env s a s')
    (htrue : ∀ (i : Nat) event request, s.events.next = some (i, event) →
      s.requests.sent[i]? = some request → Truthful holdings request event) : Filing s' := by
  cases hs with
  | receive _ hnext => exact h.apply hsound hnext fun request hrequest => htrue _ _ _ hnext hrequest
  | idle _ _ => exact h.settle _
  | key _ => exact h.press _
  | tick _ => exact h.same ⟨rfl, rfl, rfl, rfl⟩ rfl rfl
  | composed _ => exact h.session _ _ _
  | take _ _ =>
      unfold System.takeRequest
      split
      · refine h.same ⟨rfl, rfl, rfl, rfl⟩ rfl ?_
        exact Channel.taken_send hsound.tail.taken _
      · exact h.same ⟨rfl, rfl, rfl, rfl⟩ rfl rfl
  | emit _ => exact h.same ⟨rfl, rfl, rfl, rfl⟩ rfl (Channel.taken_send hsound.tail.taken _)
  | test _ => exact h.same ⟨rfl, rfl, rfl, rfl⟩ rfl rfl
  | answer _ _ => exact h.same ⟨rfl, rfl, rfl, rfl⟩ rfl rfl
  | finish _ => exact h.same ⟨rfl, rfl, rfl, rfl⟩ rfl rfl

theorem start_filing (config : UiConfig) (read : ReadStore) (subscriptions : List Wildmat)
    (postFrom : Option Str) (files : Files) :
    Filing (start config read subscriptions postFrom files) := by
  have hsent : (start config read subscriptions postFrom files).requests.sent =
      [.loadGroups (.subscribed subscriptions)] := rfl
  have honly : ∀ (i : Nat) request, (start config read subscriptions postFrom files).requests.sent[i]? =
      some request → request = .loadGroups (.subscribed subscriptions) := by
    intro i request hi
    rw [hsent] at hi
    exact List.mem_singleton.mp (List.mem_of_getElem? hi)
  refine ⟨?_, ?_, fun _ heq => (by cases heq), fun hne => absurd rfl hne, ?_, ?_⟩
  · intro i group spec hi
    cases honly i _ hi
  · intro i request token hi htoken
    rw [honly i _ hi] at htoken
    cases htoken
  · rintro i group ⟨⟨spec, hi⟩, _⟩
    cases honly i _ hi
  · intro record hmem
    cases hmem

/-- **Nothing is filed under the wrong group.** -/
structure FiledRight (holdings : Holdings) (s : System) : Prop where
  /-- a record on screen came in a chunk of the group on screen, and the group lists it -/
  records : ∀ record ∈ s.app.articles, ∃ summary, s.app.group = some summary ∧
    holdings.listed summary.name record = true ∧ ∃ i token chunk skipped,
      (i, .overviewChunk summary.name token chunk skipped) ∈ s.arrived ∧ record ∈ chunk
  /-- the next article is marked read in the group it was fetched from, if at all -/
  marks : ∀ i article, s.events.next = some (i, .article article) → ∃ name number,
    s.requests.sent[i]? = some (.loadArticle (some name) (.number number)) ∧
      holdings.stored name article = true ∧
      ((s.app.onEvent (.article article)).app.read = s.app.read ∨
        (s.app.onEvent (.article article)).app.read = s.app.read.markRead name.asStr number)

/-- An article is marked read in the group on screen. -/
theorem onArticle_read (app : App) (article : Article) :
    (app.onEvent (.article article)).app.read = app.read ∨ ∃ summary number,
      app.group = some summary ∧ article.number = some number ∧
        (app.onEvent (.article article)).app.read = app.read.markRead summary.name.asStr number := by
  show (app.onArticle article).read = app.read ∨ ∃ summary number, _ ∧ _ ∧
    (app.onArticle article).read = _
  unfold App.onArticle
  dsimp only
  split
  · next number summary _ hnumber hgroup =>
      exact Or.inr ⟨summary, number, hgroup, hnumber, rfl⟩
  · exact Or.inl rfl

end System

namespace Linked

open System

variable {env : Environment} {holdings : Holdings} {l l' : Linked} {a : Action}

/-! ## True events -/

/-- **Every event sent is true**, and what is left to do for the request under way sends no other. -/
structure Honest (holdings : Holdings) (l : Linked) : Prop where
  events : ∀ e ∈ l.system.events.sent, ∃ request, l.system.requests.sent[e.1]? = some request ∧
    Truthful holdings request e.2
  busy : ∀ work seen, l.system.worker = .busy work seen → ∃ request,
    l.system.requests.sent[l.system.current]? = some request ∧
      Work.safe (Link.answer holdings) (fun _ event => Truthful holdings request event)
        (fun link _ => link.lost = false) l.link work
  idle : l.system.worker = .idle → l.link.lost = false

/-- What a step can be: the client answers, and the connection goes along, or it stays as it is. -/
inductive Advances (env : Environment) (holdings : Holdings) (l : Linked) : Action → Linked → Prop where
  | answer {op : ClientOp} {reply : (op : ClientOp) → op.Answer} {rest : op.Answer → WorkerTask Unit}
      {seen : Bool} {link : Link} {system : System} (hworker : l.system.worker = .busy (.ask op rest) seen)
      (hlink : l.link.answer holdings op (reply op) = some link)
      (hs : Happens env l.system (.answer reply) system) :
      Advances env holdings l (.answer reply) { system, link }
  | other {a : Action} {system : System} (hanswer : ∀ reply, a ≠ .answer reply)
      (hs : Happens env l.system a system) : Advances env holdings l a { l with system }

theorem step_advances (h : l.step env holdings a = some l') : Advances env holdings l a l' := by
  unfold step at h
  split at h
  · next reply op rest seen hworker =>
      obtain ⟨link, hlink, hsystem⟩ := Option.bind_eq_some_iff.mp h
      obtain ⟨system, hs, rfl⟩ := Option.map_eq_some_iff.mp hsystem
      exact .answer hworker hlink (System.step_happens hs)
  · next hother =>
      obtain ⟨system, hs, rfl⟩ := Option.map_eq_some_iff.mp h
      refine .other ?_ (System.step_happens hs)
      rintro reply rfl
      cases System.step_happens hs with
      | answer hworker _ => exact hother reply _ _ _ rfl hworker

theorem Advances.happens (h : Advances env holdings l a l') :
    Happens env l.system a l'.system := by
  cases h with
  | answer _ _ hs => exact hs
  | other _ hs => exact hs

theorem Honest.interface (h : Honest holdings l) {system : System} (hs : Interface l.system system) : Honest holdings { l with system } := by
  refine ⟨?_, ?_, ?_⟩
  · intro e he
    rw [hs.events] at he
    obtain ⟨request, hrequest, htrue⟩ := h.events e he
    exact ⟨request, hs.keeps hrequest, htrue⟩
  · intro work seen hworker
    rw [hs.worker] at hworker
    obtain ⟨request, hrequest, hsafe⟩ := h.busy work seen hworker
    have hcurrent : system.current = l.system.current := by
      unfold current
      rw [hs.taken]
    refine ⟨request, ?_, hsafe⟩
    rw [hcurrent]
    exact hs.keeps hrequest
  · intro hworker
    rw [hs.worker] at hworker
    exact h.idle hworker

/-- The worker goes on with the request it is busy with, and sends at most one event, a true one. -/
theorem Honest.work (h : Honest holdings l) {work : WorkerTask Unit} {seen : Bool} {request : Request}
    (events : List Event) {link : Link} {system : System} (hworker : system.worker = .busy work seen)
    (hrequest : l.system.requests.sent[l.system.current]? = some request)
    (hsafe : Work.safe (Link.answer holdings) (fun _ event => Truthful holdings request event)
      (fun link _ => link.lost = false) link work)
    (hrequests : system.requests = l.system.requests)
    (hevents : system.events.sent = l.system.events.sent ++ events.map fun e => (l.system.current, e))
    (htrue : ∀ event ∈ events, Truthful holdings request event) : Honest holdings { system, link } := by
  refine ⟨?_, ?_, ?_⟩
  · intro e he
    rw [hevents] at he
    rw [hrequests]
    rcases List.mem_append.mp he with he | he
    · exact h.events e he
    · obtain ⟨event, hmem, rfl⟩ := List.mem_map.mp he
      exact ⟨request, hrequest, htrue event hmem⟩
  · intro work' seen' hworker'
    cases hworker.symm.trans hworker'
    refine ⟨request, ?_, hsafe⟩
    have hcurrent : system.current = l.system.current := by
      unfold current
      rw [hrequests]
    show system.requests.sent[system.current]? = _
    rw [hcurrent, hrequests]
    exact hrequest
  · intro hidle
    cases hworker.symm.trans hidle

/-- The worker takes a request: from a connection that is not lost it sends true events only. -/
theorem Honest.take (h : Honest holdings l) {request : Request} (hworker : l.system.worker = .idle)
    (hnext : l.system.requests.next = some request) :
    Honest holdings { l with system := l.system.takeRequest env request } := by
  unfold System.takeRequest
  split
  · refine ⟨?_, fun _ _ hbusy => (by cases hbusy), fun hidle => (by cases hidle)⟩
    intro e he
    rcases List.mem_append.mp he with he | he
    · exact h.events e he
    · rw [List.mem_singleton.mp he]
      exact ⟨request, hnext, trivial⟩
  · refine ⟨h.events, ?_, fun hidle => (by cases hidle)⟩
    intro work seen hbusy
    cases hbusy
    exact ⟨request, hnext, dispatch_tells holdings env.worker request (h.idle hworker)⟩

theorem Honest.step (h : Honest holdings l) (ha : Advances env holdings l a l') :
    Honest holdings l' := by
  cases ha with
  | answer hworker hlink hs =>
      cases hs with
      | answer hworker' _ =>
          cases hworker.symm.trans hworker'
          obtain ⟨request, hrequest, hsafe⟩ := h.busy _ _ hworker
          exact h.work [] rfl hrequest (hsafe _ _ hlink) rfl (List.append_nil _).symm
            fun _ hmem => absurd hmem List.not_mem_nil
  | other hanswer hs =>
      cases hs with
      | receive _ _ => exact h.interface (apply_interface _ _)
      | idle _ _ => exact h.interface (settle_interface _)
      | key _ => exact h.interface (press_interface _)
      | tick _ => exact h.interface tick_interface
      | composed _ => exact h.interface (session_interface _ _ _)
      | take hworker hnext => exact h.take hworker hnext
      | @emit event rest seen hworker =>
          obtain ⟨request, hrequest, htrue, hsafe⟩ := h.busy _ _ hworker
          refine h.work [event] rfl hrequest hsafe rfl rfl fun e hmem => ?_
          rw [List.mem_singleton.mp hmem]
          exact htrue
      | test hworker =>
          obtain ⟨request, hrequest, hsafe⟩ := h.busy _ _ hworker
          exact h.work [] rfl hrequest hsafe rfl (List.append_nil _).symm
            fun _ hmem => absurd hmem List.not_mem_nil
      | answer _ _ => exact absurd rfl (hanswer _)
      | finish hworker =>
          obtain ⟨request, hrequest, hsafe⟩ := h.busy _ _ hworker
          exact ⟨h.events, fun _ _ hbusy => (by cases hbusy), fun _ => hsafe⟩

theorem start_honest (config : UiConfig) (read : ReadStore) (subscriptions : List Wildmat)
    (postFrom : Option Str) (files : Files) :
    Honest holdings (start config read subscriptions postFrom files) := by
  refine ⟨?_, ?_, fun _ => rfl⟩
  · intro e he
    cases he
  · intro work seen hbusy
    cases hbusy

/-- What is filed is filed right, as the events are true. -/
theorem Honest.filed (h : Honest holdings l) (hsound : Sound l.system) (hfiling : Filing l.system) :
    FiledRight holdings l.system := by
  refine ⟨?_, ?_⟩
  · intro record hmem
    obtain ⟨summary, hsummary, i, token, chunk, skipped, hchunk, hrecord⟩ := hfiling.records record hmem
    obtain ⟨_, _, hlisted⟩ := h.events _ (arrived_subset _ hchunk)
    exact ⟨summary, hsummary, hlisted record hrecord, i, token, chunk, skipped, hchunk, hrecord⟩
  · intro i article hnext
    obtain ⟨name, number, hrequest, hfetching⟩ := fetching_next hsound hfiling hnext
    obtain ⟨request, hrequest', htrue⟩ := h.events _ (Channel.mem_of_next hnext)
    cases hrequest.symm.trans hrequest'
    obtain ⟨hstored, hnumber⟩ := htrue name number rfl
    refine ⟨name, number, hrequest, hstored, ?_⟩
    rcases onArticle_read l.system.app article with hread | ⟨summary, marked, hgroup, hmarked, hread⟩
    · exact Or.inl hread
    · obtain ⟨shown, hshown, hname, _⟩ := hfiling.fetching i name hfetching
      cases hgroup.symm.trans hshown
      cases hmarked.symm.trans hnumber
      rw [hname] at hread
      exact Or.inr hread

/-- What is taken next is true. -/
theorem Honest.told (h : Honest holdings l) (i : Nat) (event : Event) (request : Request)
    (hnext : l.system.events.next = some (i, event)) (hrequest : l.system.requests.sent[i]? = some request) :
    Truthful holdings request event := by
  obtain ⟨request', hrequest', htrue⟩ := h.events _ (Channel.mem_of_next hnext)
  cases hrequest.symm.trans hrequest'
  exact htrue

/-- What holds in every run of the reader with such a server. -/
def Kept (holdings : Holdings) (l : Linked) : Prop := Sound l.system ∧ Honest holdings l ∧ Filing l.system

theorem Kept.step (h : Kept holdings l) (hs : l.step env holdings a = some l') : Kept holdings l' := by
  obtain ⟨hsound, hhonest, hfiling⟩ := h
  have ha := step_advances hs
  exact ⟨hsound.step ha.happens, hhonest.step ha, hfiling.step hsound ha.happens hhonest.told⟩

theorem kept_run (env : Environment) (config : UiConfig) (read : ReadStore) (subscriptions : List Wildmat)
    (postFrom : Option Str) (files : Files) (actions : List Action)
    (hrun : run (step env holdings) (start config read subscriptions postFrom files) actions = some l) :
    Kept holdings l :=
  invariant_run (step env holdings) (fun _ _ _ _ hs h => Kept.step h hs)
    ⟨start_sound .., start_honest .., start_filing ..⟩ (meets_of_forall _ (fun _ _ => trivial) _ _) hrun

/-- **No record and no read mark is ever under the wrong group**, in any run of the reader with a server
that opens the group it is asked for and returns the article it is asked for. -/
theorem filedRight (env : Environment) (holdings : Holdings) (config : UiConfig) (read : ReadStore)
    (subscriptions : List Wildmat) (postFrom : Option Str) (files : Files) (actions : List Action)
    (l : Linked)
    (hrun : run (step env holdings) (start config read subscriptions postFrom files) actions = some l) :
    FiledRight holdings l.system := by
  obtain ⟨hsound, hhonest, hfiling⟩ := kept_run env config read subscriptions postFrom files actions hrun
  exact hhonest.filed hsound hfiling

/-! ### An article is opened -/

/-- A server with one article, over a connection that is up or not. -/
def oneArticle (connected : Bool) (group : Option GroupName) : (op : ClientOp) → op.Answer
  | .query .isConnected => connected
  | .query .discard => ()
  | .query .selectedGroup => group
  | .command .connect => .ok ([], false)
  | .command (.overviewStreaming _ _) => .ok [some (.bare 1)]
  | .command (.article _) => .ok {
      number := some 1, subject := [], author := [], followupTo := none, newsgroups := none
      displayText := [], attachments := [], messageId := none, references := [] }
  | .command c => oneGroup (.command c)

/-- The article is in the one group there is. -/
def inMiscTest : Holdings where
  listed group record := decide (group = miscTest ∧ record.number = 1)
  stored group article := decide (group = miscTest ∧ article.number = some 1)

/-- The group list is fetched, the group in it is opened, and then the article in that. -/
def opensArticle : List Action :=
  let first := .answer (oneArticle false none)
  let listing := .answer (oneArticle true none)
  let opened := .answer (oneArticle true (some miscTest))
  [.idle none, .take, .emit, first, .emit, listing, .emit, listing, listing, listing, .emit, .finish,
    .tick, .receive, .receive, .receive, .receive, .idle none, .key { code := .enter }, .take, .emit,
    listing, listing, .emit, opened, opened, opened, opened, .emit, .emit, .finish, .receive, .receive,
    .receive, .receive, .idle none, .key { code := .enter }, .take, opened, opened, .emit, opened, opened,
    .emit, .finish, .receive]

theorem filedRight_opensArticle : ∃ l,
    run (step plainEnvironment inMiscTest) (start plainConfig {} [] none fun _ => none) opensArticle =
        some l ∧
      l.system.app.articles = [.bare 1] ∧ (∃ article, l.system.events.next = some (2, .article article)) ∧
      FiledRight inMiscTest l.system := by
  have heval : (run (step plainEnvironment inMiscTest) (start plainConfig {} [] none fun _ => none)
      opensArticle).map (fun l => (l.system.app.articles, l.system.events.next.map fun e =>
        (e.1, isArticle e.2))) = some ([.bare 1], some (2, true)) := by decide +kernel
  obtain ⟨l, hrun, hl⟩ := Option.map_eq_some_iff.mp heval
  obtain ⟨harticles, hnext⟩ := Prod.mk.inj hl
  obtain ⟨⟨i, event⟩, hnext, he⟩ := Option.map_eq_some_iff.mp hnext
  obtain ⟨rfl, hevent⟩ := Prod.mk.inj he
  refine ⟨l, hrun, harticles, ?_, filedRight _ _ _ _ _ _ _ _ l hrun⟩
  cases event with
  | article article => exact ⟨article, hnext⟩
  | _ => cases hevent

end Linked

end Nntp.Tui
