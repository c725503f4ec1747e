import Nntp.Tui.Notes
import Nntp.Tui.Outstanding

/-!
# Drafts

An article that is being posted is a file among the drafts, and the interface keeps the path of the one
it posted last. That path is what goes when a posting is accepted, and what is named when something
fails; whose answer it was is not looked at.
-/

namespace Nntp.Tui

open Nntp.Lib Nntp.Proto Nntp.Client

namespace System

variable {env : Environment} {s s' : System} {a : Action} {i j : Nat} {event : Event}
  {request : Request} {requests : List Request} {d : Edited}

/-! ## Which draft is which -/

/-- No article was posted after request `i`. -/
def NoLaterPost (s : System) (i : Nat) : Prop :=
  ∀ request ∈ s.requests.sent.drop (i + 1), request.isPost = false

/-- Request `i` posts an article, and it is the last one that does. -/
def LastPost (s : System) (i : Nat) : Prop :=
  (∃ draft, s.requests.sent[i]? = some (.post draft)) ∧ s.NoLaterPost i

/-- The acceptance of the article written in this draft has been taken. -/
def isAccepted (s : System) (d : Edited) : Bool :=
  s.arrived.any fun e => decide (d.request = some e.1) && e.2.isPosted

instance (s : System) (i : Nat) : Decidable (s.NoLaterPost i) :=
  inferInstanceAs (Decidable (∀ request ∈ _, _))

/-- **What the interface knows about drafts**, whatever happens: the draft it has the path of is the one
it posted last, and that posting is unanswered. -/
structure Posting (s : System) : Prop where
  posts : ∀ d ∈ s.drafts, ∀ i, d.request = some i →
    s.requests.sent[i]? = some (.post (Draft.parse d.text))
  posting : ∀ path, s.app.posting = some path → ∃ d ∈ s.drafts, d.path = path ∧
    ∃ i, d.request = some i ∧ s.LastPost i ∧ s.isAnswered i = false

theorem NoLaterPost.issue (h : s.NoLaterPost i) (hi : i < s.requests.sent.length)
    (hsent : s'.requests.sent = s.requests.sent ++ requests)
    (hrequests : ∀ request ∈ requests, request.isPost = false) : s'.NoLaterPost i := by
  intro request hmem
  rw [hsent, List.drop_append_of_le_length hi] at hmem
  rcases List.mem_append.mp hmem with hmem | hmem
  · exact h request hmem
  · exact hrequests request hmem

/-- There is one last posting. -/
theorem LastPost.unique (hi : s.LastPost i) {draft : Draft}
    (hj : s.requests.sent[j]? = some (.post draft)) (hlast : s.NoLaterPost j) : i = j := by
  obtain ⟨⟨draft', hpost⟩, hlast'⟩ := hi
  have hlt : ∀ {m n : Nat} {draft : Draft}, m < n → s.NoLaterPost m →
      s.requests.sent[n]? ≠ some (.post draft) := by
    intro m n draft hmn hlast hn
    have hmem : Request.post draft ∈ s.requests.sent.drop (m + 1) := by
      refine List.mem_of_getElem? (i := n - (m + 1)) ?_
      rw [List.getElem?_drop, Nat.add_sub_cancel' hmn]
      exact hn
    cases hlast _ hmem
  rcases Nat.lt_trichotomy i j with h | h | h
  · exact absurd hj (hlt h hlast')
  · exact h
  · exact absurd hpost (hlt h hlast)

/-! ## What a composing session does -/

/-- What can come of a composing session whose draft has path `path`. -/
inductive Composing (s : System) (path : Path) (outcome : EditorOutcome) (s' : System) : Prop where
  /-- there is no draft -/
  | nothing (hdrafts : s'.drafts = s.drafts)
      (hfiles : ∀ p, p ≠ path ∨ outcome = .unwritten → s'.files p = s.files p)
      (hposting : s'.app.posting = s.app.posting) (hsent : s'.requests.sent = s.requests.sent)
  /-- a draft is left that is not sent -/
  | kept (text : Str) (hwritten : outcome ≠ .unwritten)
      (hdrafts : s'.drafts = { path, text, request := none } :: s.drafts)
      (hfiles : s'.files = s.files.write path text) (hposting : s'.app.posting = s.app.posting)
      (hsent : s'.requests.sent = s.requests.sent)
  | posted (text : Str) (hwritten : outcome ≠ .unwritten)
      (hdrafts : s'.drafts = { path, text, request := some s.requests.sent.length } :: s.drafts)
      (hfiles : s'.files = s.files.write path text) (hposting : s'.app.posting = some path)
      (hsent : s'.requests.sent = s.requests.sent ++ [.post (Draft.parse text)])

/-- A draft that came back edited is sent, or kept. -/
theorem submit_composing {outcome : EditorOutcome} {text : Str} {path : Path}
    (hwritten : outcome ≠ .unwritten) (hworker : s'.worker ≠ .stopped) (happ : s'.app = s.app)
    (hrequests : s'.requests = s.requests) (hdrafts : s'.drafts = s.drafts)
    (hfiles : s'.files = s.files.write path text) :
    Composing s path outcome
      ((s'.app.onComposed (some (text, path))).2.toList.foldl send (s'.submit text path)) := by
  have hledger := ledger_onComposed s'.app (some (text, path))
  have hsubmitted := submit_submitted s' text path
  generalize s'.submit text path = submitted at hsubmitted ⊢
  generalize s'.app.onComposed (some (text, path)) = composed at hsubmitted hledger ⊢
  have hsent := foldl_send composed.2.toList submitted
  obtain ⟨hafter, hissued⟩ := hsent.running (hsubmitted.worker.trans_ne hworker)
  rw [hsubmitted.requests, hrequests] at hissued
  have hwrites := hsent.files.trans (hsubmitted.files.trans hfiles)
  rcases hledger with ⟨hl, hnone⟩ | ⟨_, _, heq, hl, hsome⟩
  · refine .kept text hwritten ?_ hwrites ?_ ?_
    · rw [hsent.drafts, hsubmitted.drafts, hdrafts, hnone]
      rfl
    · rw [hafter, hsubmitted.app, ← happ]
      exact congrArg Ledger.posting hl
    · rw [hissued, hnone]
      exact List.append_nil _
  · obtain ⟨rfl, rfl⟩ := Prod.mk.inj (Option.some.inj heq)
    refine .posted text hwritten ?_ hwrites ?_ ?_
    · rw [hsent.drafts, hsubmitted.drafts, hdrafts, hrequests, hsome]
      rfl
    · rw [hafter, hsubmitted.app]
      exact congrArg Ledger.posting hl
    · rw [hissued, hsome]
      rfl

theorem session_composing (h : Quits s) {request : ComposeRequest} (stamp : Nat)
    (outcome : EditorOutcome) (hphase : s.phase = .composing request) :
    Composing s (draftPath stamp env.process) outcome (s.session env request stamp outcome) := by
  have hworker := (h.running (Or.inr ⟨request, hphase⟩)).2.2
  cases outcome with
  | unwritten => exact .nothing rfl (fun _ _ => rfl) rfl rfl
  | failed left => exact .kept left (fun heq => by cases heq) rfl rfl rfl rfl
  | exited text =>
      by_cases hsame : trim text = trim request.template
      · have hcompose : Tui.compose s.files (draftPath stamp env.process) request.template
            (.exited text) = (.abandoned,
              (s.files.write (draftPath stamp env.process) text).remove
                (draftPath stamp env.process)) := if_pos hsame
        unfold session edit
        dsimp only
        rw [hcompose]
        refine .nothing rfl ?_ rfl rfl
        intro p hp
        have hne : p ≠ draftPath stamp env.process := hp.resolve_right fun heq => by cases heq
        show Function.update (Function.update _ _ _) _ _ p = _
        rw [Function.update_of_ne hne, Function.update_of_ne hne]
      · have hcompose : Tui.compose s.files (draftPath stamp env.process) request.template
            (.exited text) = (.edited text (draftPath stamp env.process),
              s.files.write (draftPath stamp env.process) text) := if_neg hsame
        unfold session edit
        dsimp only
        rw [hcompose]
        exact submit_composing (fun heq => by cases heq) hworker rfl rfl rfl rfl

/-! ## The draft that is being posted -/

theorem isPost_of_outcome {lowercase : Str → Str} {app : App} {key : Key} {after : Ledger}
    (h : KeyOutcome lowercase app key after requests) :
    after.posting = app.posting ∧ ∀ request ∈ requests, request.isPost = false := by
  cases h with
  | screen h | cancel _ h | clear _ _ _ h | compose _ h =>
      rw [h]
      exact ⟨rfl, fun _ hmem => absurd hmem List.not_mem_nil⟩
  | quit h | groups _ h | article _ _ _ _ h | enter _ _ _ h | reload _ _ h =>
      rw [h]
      refine ⟨rfl, ?_⟩
      intro request hmem
      rw [List.mem_singleton.mp hmem]
      rfl

/-- A step that posts nothing and keeps the drafts. -/
theorem Posting.keep (h : Posting s) (requests : List Request) (hdrafts : s'.drafts = s.drafts)
    (hsent : s'.requests.sent = s.requests.sent ++ requests)
    (hrequests : ∀ request ∈ requests, request.isPost = false)
    (hanswered : ∀ i, s'.app.posting ≠ none → s.LastPost i → s.isAnswered i = false →
      s'.isAnswered i = false)
    (hposting : s'.app.posting = s.app.posting ∨ s'.app.posting = none) : Posting s' := by
  have hkeeps : ∀ (i : Nat) request, s.requests.sent[i]? = some request →
      i < s.requests.sent.length ∧ s'.requests.sent[i]? = some request := by
    intro i request hi
    have hlt := (List.getElem?_eq_some_iff.mp hi).1
    rw [hsent, List.getElem?_append_left hlt]
    exact ⟨hlt, hi⟩
  refine ⟨?_, ?_⟩
  · intro d hd i hi
    rw [hdrafts] at hd
    exact (hkeeps _ _ (h.posts d hd i hi)).2
  · intro path hpath
    have hold : s.app.posting = some path := by
      rcases hposting with heq | heq
      · rw [← heq]
        exact hpath
      · rw [heq] at hpath
        cases hpath
    obtain ⟨d, hd, hdpath, i, hi, hlast, hfree⟩ := h.posting path hold
    obtain ⟨⟨draft, hdraft⟩, hlater⟩ := hlast
    obtain ⟨hlt, hdraft'⟩ := hkeeps _ _ hdraft
    refine ⟨d, hdrafts ▸ hd, hdpath, i, hi, ⟨⟨draft, hdraft'⟩, hlater.issue hlt hsent hrequests⟩, ?_⟩
    exact hanswered i (by rw [hpath]; exact Option.some_ne_none _) ⟨⟨draft, hdraft⟩, hlater⟩ hfree

theorem isAnswered_congr (h : s'.arrived = s.arrived) (i : Nat) :
    s'.isAnswered i = s.isAnswered i := by
  unfold isAnswered
  rw [h]

theorem isAnswered_arrive (hnext : s.events.next = some (i, event))
    (hevents : s'.events = s.events.receive) (j : Nat) :
    s'.isAnswered j = (s.isAnswered j || (decide (i = j) && event.isFinal)) := by
  unfold isAnswered
  rw [arrived_receive hnext hevents, List.any_append, List.any_cons, List.any_nil, Bool.or_false]

/-- The final answer to a posting, whichever it is, clears the path. -/
theorem posting_of_final {draft : Draft} {q q' : Stage} (l : Ledger)
    (h : advance true (.post draft) q event = some q') (hfinal : event.isFinal = true) :
    (l.onEvent event).posting = none := by
  cases event with
  | posted text =>
      unfold Ledger.onEvent
      dsimp only
      split <;> rfl
  | cancelled context => rfl
  | failed context error => rfl
  | groups rows scope filteredLocally => cases q <;> cases h
  | overviewComplete group token => cases q <;> cases h
  | article article => cases q <;> cases h
  | _ => cases hfinal

theorem onEvent_posting (l : Ledger) (event : Event) :
    (l.onEvent event).posting = l.posting ∨ (l.onEvent event).posting = none := by
  cases event with
  | overviewChunk group token records skipped =>
      unfold Ledger.onEvent
      dsimp only
      split <;> exact Or.inl rfl
  | overviewComplete group token =>
      unfold Ledger.onEvent
      dsimp only
      split <;> exact Or.inl rfl
  | posted text =>
      unfold Ledger.onEvent
      dsimp only
      split <;> exact Or.inr rfl
  | cancelled context => exact Or.inr rfl
  | failed context error => exact Or.inr rfl
  | disconnected => exact Or.inr rfl
  | _ => exact Or.inl rfl

/-- No event leads to a posting. -/
theorem isPost_of_mem_requests {l : Ledger} (h : request ∈ l.requests event) :
    request.isPost = false := by
  cases event with
  | posted text =>
      obtain ⟨group, _, rfl⟩ := Option.map_eq_some_iff.mp (Option.mem_toList.mp h)
      rfl
  | _ => cases h

theorem Posting.sent (h : Posting s) (hsent : Sent requests s s')
    (hrequests : ∀ request ∈ requests, request.isPost = false) : Posting s' := by
  have hposting : s'.app.posting = s.app.posting ∨ s'.app.posting = none := by
    rcases hsent.ledger with hl | hl
    · exact Or.inl (congrArg Ledger.posting hl)
    · exact Or.inr (congrArg Ledger.posting hl)
  have hanswered : ∀ i, s'.isAnswered i = s.isAnswered i := by
    apply isAnswered_congr
    unfold arrived
    rw [hsent.events]
  rcases Classical.em (s.worker = .stopped) with hworker | hworker
  · refine h.keep [] hsent.drafts ?_ ?_ ?_ hposting
    · rw [(hsent.stopped hworker).1, List.append_nil]
    · exact fun _ hmem => absurd hmem List.not_mem_nil
    · exact fun i _ _ hfree => (hanswered i).trans hfree
  · exact h.keep requests hsent.drafts (hsent.running hworker).2 hrequests
      (fun i _ _ hfree => (hanswered i).trans hfree) hposting

theorem Posting.apply (h : Posting s) (hsound : Sound s) (hnext : s.events.next = some (i, event)) :
    Posting (s.apply i event) := by
  have hledger : (s.arrive i event).app.posting = (s.app.ledger.onEvent event).posting :=
    congrArg Ledger.posting (arrive_ledger i event)
  have hmid : Posting (s.arrive i event) := by
    refine h.keep [] (arrive_drafts i event) ?_ ?_ ?_ ?_
    · rw [arrive_requests, List.append_nil]
    · exact fun _ hmem => absurd hmem List.not_mem_nil
    · intro j hset hlast hfree
      rw [isAnswered_arrive hnext (arrive_events i event), hfree, Bool.false_or,
        Bool.eq_false_iff]
      intro hthis
      obtain ⟨hij, hfinal⟩ := Bool.and_eq_true_iff.mp hthis
      cases of_decide_eq_true hij
      obtain ⟨draft, hdraft⟩ := hlast.1
      obtain ⟨q, q', _, hq'⟩ := hsound.delivery.next hnext hdraft (fun heq => by cases heq)
      exact hset (hledger.trans (posting_of_final _ hq' hfinal))
    · rw [hledger]
      exact onEvent_posting s.app.ledger event
  refine hmid.sent (foldl_send _ _) ?_
  rw [(s.app.ledger_onEvent event).2.1]
  exact fun _ hmem => isPost_of_mem_requests hmem

theorem Posting.press (h : Posting s) (key : Key) : Posting (s.press env key) := by
  obtain ⟨hposting, hrequests⟩ := isPost_of_outcome (ledger_onKey env.lowercase s.app key)
  have hstrike : Posting (s.strike env key) := by
    refine h.keep [] rfl (List.append_nil _).symm ?_ ?_ (Or.inl hposting)
    · exact fun _ hmem => absurd hmem List.not_mem_nil
    · exact fun _ _ _ hfree => hfree
  have hsent := hstrike.sent (foldl_send _ _) hrequests
  unfold System.press takeCompose
  split
  · exact ⟨hsent.posts, hsent.posting⟩
  · exact ⟨hsent.posts, hsent.posting⟩

theorem Posting.session (h : Posting s) (hsound : Sound s) {request : ComposeRequest} (stamp : Nat)
    (outcome : EditorOutcome) (hphase : s.phase = .composing request) :
    Posting (s.session env request stamp outcome) := by
  have hanswered : ∀ i, (s.session env request stamp outcome).isAnswered i = s.isAnswered i := by
    apply isAnswered_congr
    unfold arrived
    rw [session_events]
  have hcases : Composing s (draftPath stamp env.process) outcome
      (s.session env request stamp outcome) := session_composing hsound.quits stamp outcome hphase
  cases hcases with
  | nothing hdrafts _ hposting hsent =>
      refine h.keep [] hdrafts ?_ ?_ ?_ (Or.inl hposting)
      · rw [hsent, List.append_nil]
      · exact fun _ hmem => absurd hmem List.not_mem_nil
      · exact fun i _ _ hfree => (hanswered i).trans hfree
  | kept text _ hdrafts _ hposting hsent =>
      refine ⟨?_, ?_⟩
      · intro d hd i hi
        rw [hsent]
        rw [hdrafts] at hd
        rcases List.mem_cons.mp hd with rfl | hd
        · cases hi
        · exact h.posts d hd i hi
      · intro path hpath
        rw [hposting] at hpath
        obtain ⟨d, hd, hdpath, i, hi, ⟨hpost, hlater⟩, hfree⟩ := h.posting path hpath
        refine ⟨d, ?_, hdpath, i, hi, ⟨?_, ?_⟩, (hanswered i).trans hfree⟩
        · rw [hdrafts]
          exact List.mem_cons_of_mem _ hd
        · rw [hsent]
          exact hpost
        · unfold NoLaterPost
          rw [hsent]
          exact hlater
  | posted text _ hdrafts _ hposting hsent =>
      have hnew : (s.session env request stamp outcome).requests.sent[s.requests.sent.length]? =
          some (.post (Draft.parse text)) := by
        rw [hsent, List.getElem?_concat_length]
      refine ⟨?_, ?_⟩
      · intro d hd i hi
        rw [hdrafts] at hd
        rcases List.mem_cons.mp hd with rfl | hd
        · cases hi
          exact hnew
        · have hold := h.posts d hd i hi
          rw [hsent, List.getElem?_append_left (List.getElem?_eq_some_iff.mp hold).1]
          exact hold
      · intro path hpath
        rw [hposting] at hpath
        cases hpath
        refine ⟨_, by rw [hdrafts]; exact List.mem_cons_self, rfl, _, rfl, ⟨⟨_, hnew⟩, ?_⟩, ?_⟩
        · intro r hr
          rw [hsent, List.drop_eq_nil_of_le (by simp)] at hr
          cases hr
        · rw [hanswered, Bool.eq_false_iff]
          exact fun hi => absurd (lt_of_isAnswered hsound.delivery hi)
            (Nat.not_lt.mpr hsound.delivery.taken)

/-- What the worker does leaves the drafts alone. -/
theorem Posting.worker (h : Posting s) (hdrafts : s'.drafts = s.drafts)
    (hsent : s'.requests.sent = s.requests.sent) (hposting : s'.app.posting = s.app.posting)
    (harrived : s'.arrived = s.arrived) : Posting s' := by
  refine h.keep [] hdrafts ?_ ?_ ?_ (Or.inl hposting)
  · rw [hsent, List.append_nil]
  · exact fun _ hmem => absurd hmem List.not_mem_nil
  · exact fun i _ _ hfree => (isAnswered_congr harrived i).trans hfree

theorem settle_posting (drawn : Option (Nat × Nat)) :
    (s.settle drawn).app.posting = s.app.posting := by
  unfold settle
  dsimp only
  cases drawn with
  | none => split <;> rfl
  | some heights => split <;> rfl

theorem Posting.step (h : Posting s) (hsound : Sound s) (hs : Happens env s a s') : Posting s' := by
  cases hs with
  | receive _ hnext => exact h.apply hsound hnext
  | idle _ _ => exact h.worker rfl rfl (settle_posting _) rfl
  | key _ => exact h.press _
  | tick _ => exact h.worker rfl rfl rfl rfl
  | composed hphase => exact h.session hsound _ _ hphase
  | take _ _ =>
      unfold takeRequest
      split
      · exact h.worker rfl rfl rfl (Channel.taken_send hsound.tail.taken _)
      · exact h.worker rfl rfl rfl rfl
  | emit _ => exact h.worker rfl rfl rfl (Channel.taken_send hsound.tail.taken _)
  | test _ => exact h.worker rfl rfl rfl rfl
  | answer _ _ => exact h.worker rfl rfl rfl rfl
  | finish _ => exact h.worker rfl rfl rfl rfl

theorem start_posting (config : UiConfig) (read : ReadStore) (subscriptions : List Wildmat)
    (postFrom : Option Str) (files : Files) :
    Posting (start config read subscriptions postFrom files) := by
  refine ⟨?_, ?_⟩
  · intro d hd
    cases hd
  · intro path hpath
    cases hpath

/-! ## Drafts are safe -/

/-- **Drafts are safe**: a draft is discarded on the acceptance of the article made from it, and until
then its file has its text. -/
structure DraftSafe (s : System) : Prop where
  discarded : ∀ e ∈ s.discards, ∃ d ∈ s.drafts, d.path = e.1 ∧ d.request = some e.2 ∧
    s.requests.sent[e.2]? = some (.post (Draft.parse d.text)) ∧ ∃ text, (e.2, .posted text) ∈ s.arrived
  kept : ∀ d ∈ s.drafts, s.isAccepted d = false → s.files d.path = some d.text

/-- An acceptance that discards a draft answers the posting that was made last, and the file of a new
draft is not that of one whose acceptance is still to come. -/
def PostsApart (env : Environment) (s : System) : Action → Prop
  | .receive => ∀ e ∈ s.events.next, e.2.isPosted = true → s.app.posting ≠ none → s.NoLaterPost e.1
  | .composed stamp outcome => outcome ≠ .unwritten →
      ∀ d ∈ s.drafts, d.path = draftPath stamp env.process → s.isAccepted d = true
  | _ => True

instance (env : Environment) (s : System) : (a : Action) → Decidable (PostsApart env s a)
  | .receive => inferInstanceAs (Decidable (∀ e ∈ s.events.next, e.2.isPosted = true →
      s.app.posting ≠ none → s.NoLaterPost e.1))
  | .composed stamp outcome => inferInstanceAs (Decidable (outcome ≠ .unwritten →
      ∀ d ∈ s.drafts, d.path = draftPath stamp env.process → s.isAccepted d = true))
  | .idle _ | .key _ | .tick | .take | .emit | .test | .answer _ | .finish => isTrue trivial

/-- What keeps drafts safe: those whose acceptance is still to come are files of their own. -/
structure DraftInvariant (s : System) : Prop where
  discarded : ∀ e ∈ s.discards, ∃ d ∈ s.drafts, d.path = e.1 ∧ d.request = some e.2 ∧
    ∃ text, (e.2, .posted text) ∈ s.arrived
  kept : ∀ d ∈ s.drafts, s.isAccepted d = false → s.files d.path = some d.text
  apart : ∀ d ∈ s.drafts, ∀ d' ∈ s.drafts, s.isAccepted d = false → s.isAccepted d' = false →
    d.path = d'.path → d = d'

theorem isAccepted_iff : s.isAccepted d = true ↔
    ∃ i text, d.request = some i ∧ (i, .posted text) ∈ s.arrived := by
  unfold isAccepted
  rw [List.any_eq_true]
  constructor
  · rintro ⟨⟨i, event⟩, hmem, he⟩
    obtain ⟨hi, hposted⟩ := Bool.and_eq_true_iff.mp he
    cases event with
    | posted text => exact ⟨i, text, of_decide_eq_true hi, hmem⟩
    | _ => cases hposted
  · rintro ⟨i, text, hi, hmem⟩
    exact ⟨(i, .posted text), hmem, Bool.and_eq_true_iff.mpr ⟨decide_eq_true hi, rfl⟩⟩

/-- What was accepted stays accepted. -/
theorem isAccepted_mono (h : s.arrived ⊆ s'.arrived) (hd : s'.isAccepted d = false) :
    s.isAccepted d = false := by
  rw [Bool.eq_false_iff] at hd ⊢
  intro haccepted
  obtain ⟨i, text, hi, hmem⟩ := isAccepted_iff.mp haccepted
  exact hd (isAccepted_iff.mpr ⟨i, text, hi, h hmem⟩)

theorem DraftInvariant.keep (h : DraftInvariant s) (hdrafts : s'.drafts = s.drafts)
    (hdiscards : s'.discards = s.discards) (harrived : s.arrived ⊆ s'.arrived)
    (hfiles : ∀ d ∈ s.drafts, s'.isAccepted d = false → s'.files d.path = s.files d.path) :
    DraftInvariant s' := by
  refine ⟨?_, ?_, ?_⟩
  · intro e he
    rw [hdiscards] at he
    obtain ⟨d, hd, hpath, hrequest, text, hmem⟩ := h.discarded e he
    exact ⟨d, hdrafts ▸ hd, hpath, hrequest, text, harrived hmem⟩
  · intro d hd hfree
    rw [hdrafts] at hd
    rw [hfiles d hd hfree]
    exact h.kept d hd (isAccepted_mono harrived hfree)
  · rw [hdrafts]
    intro d hd d' hd' hfree hfree'
    exact h.apart d hd d' hd' (isAccepted_mono harrived hfree) (isAccepted_mono harrived hfree')

/-- A new draft in a file of its own. -/
theorem DraftInvariant.write (h : DraftInvariant s) (hdrafts : s'.drafts = d :: s.drafts)
    (hdiscards : s'.discards = s.discards) (harrived : s'.arrived = s.arrived)
    (hfiles : s'.files = s.files.write d.path d.text)
    (hapart : ∀ d' ∈ s.drafts, s.isAccepted d' = false → d'.path ≠ d.path) : DraftInvariant s' := by
  have haccepted : ∀ d, s'.isAccepted d = s.isAccepted d := by
    intro d
    unfold isAccepted
    rw [harrived]
  refine ⟨?_, ?_, ?_⟩
  · intro e he
    rw [hdiscards] at he
    obtain ⟨d', hd', hrest⟩ := h.discarded e he
    rw [hdrafts, harrived]
    exact ⟨d', List.mem_cons_of_mem _ hd', hrest⟩
  · intro d' hd' hfree
    rw [haccepted] at hfree
    rw [hdrafts] at hd'
    rw [hfiles]
    rcases List.mem_cons.mp hd' with rfl | hd'
    · exact Function.update_self ..
    · exact (Function.update_of_ne (hapart d' hd' hfree) ..).trans (h.kept d' hd' hfree)
  · rw [hdrafts]
    intro x hx y hy hfree hfree' hpath
    rw [haccepted] at hfree hfree'
    rcases List.mem_cons.mp hx with rfl | hold
    · rcases List.mem_cons.mp hy with rfl | hold'
      · rfl
      · exact absurd hpath.symm (hapart y hold' hfree')
    · rcases List.mem_cons.mp hy with rfl | hold'
      · exact absurd hpath (hapart x hold hfree)
      · exact h.apart x hold y hold' hfree hfree' hpath

/-- Only a posting is accepted. -/
theorem post_of_posted {q q' : Stage} {text : Str}
    (h : advance true request q (.posted text) = some q') : ∃ draft, request = .post draft := by
  cases q with
  | waiting =>
      cases request with
      | post draft => exact ⟨draft, rfl⟩
      | _ => cases h
  | _ => cases h

theorem DraftInvariant.arrive (h : DraftInvariant s) (hsound : Sound s) (hposting : Posting s)
    (hnext : s.events.next = some (i, event)) (hok : PostsApart env s .receive) :
    DraftInvariant (s.arrive i event) := by
  have harrived : (s.arrive i event).arrived = s.arrived ++ [(i, event)] :=
    arrived_receive hnext (arrive_events i event)
  have hsub : s.arrived ⊆ (s.arrive i event).arrived := by
    rw [harrived]
    exact List.subset_append_left _ _
  have hdiscarded := (s.app.ledger_onEvent event).2.2
  cases hd : (s.app.onEvent event).discarded with
  | none =>
      have hnothing : (s.arrive i event).discards = s.discards ∧
          (s.arrive i event).files = s.files := by
        unfold System.arrive
        dsimp only
        rw [hd]
        exact ⟨rfl, rfl⟩
      exact h.keep (arrive_drafts i event) hnothing.1 hsub fun _ _ _ => by rw [hnothing.2]
  | some path =>
      -- an acceptance, of the article the interface posted last
      have hgone : (s.arrive i event).discards = (path, i) :: s.discards ∧
          (s.arrive i event).files = s.files.remove path := by
        unfold System.arrive
        dsimp only
        rw [hd]
        exact ⟨rfl, rfl⟩
      rw [hd] at hdiscarded
      obtain ⟨text, rfl⟩ : ∃ text, event = .posted text := by
        cases event with
        | posted text => exact ⟨text, rfl⟩
        | _ => cases hdiscarded
      have hpath : s.app.posting = some path := hdiscarded.symm
      obtain ⟨d, hmem, hdpath, j, hj, hlast, hfree⟩ := hposting.posting path hpath
      obtain ⟨request, hrequest, hstopped | ⟨q, q', _, hq'⟩⟩ := hsound.next hnext
      · cases hstopped
      · obtain ⟨draft, rfl⟩ := post_of_posted hq'
        have hji : j = i := hlast.unique hrequest
          (hok _ hnext rfl (by rw [hpath]; exact Option.some_ne_none _))
        subst hji
        have hnow : (s.arrive j (.posted text)).isAccepted d = true := by
          refine isAccepted_iff.mpr ⟨j, text, hj, ?_⟩
          rw [harrived]
          exact List.mem_append_right _ (List.mem_singleton_self _)
        have hbefore : s.isAccepted d = false := by
          rw [Bool.eq_false_iff]
          intro haccepted
          obtain ⟨k, text', hk, hmem'⟩ := isAccepted_iff.mp haccepted
          cases hj.symm.trans hk
          rw [isAnswered_iff.mpr ⟨_, hmem', rfl⟩] at hfree
          cases hfree
        have hrest : DraftInvariant { s.arrive j (.posted text) with discards := s.discards } := by
          refine h.keep (arrive_drafts _ _) rfl hsub ?_
          intro d' hd' hfree'
          have hother : d'.path ≠ path := by
            intro heq
            cases h.apart d hmem d' hd' hbefore (isAccepted_mono hsub hfree') (hdpath.trans heq.symm)
            exact absurd (hnow.symm.trans hfree') Bool.true_eq_false.mp
          show (s.arrive j (.posted text)).files d'.path = _
          rw [hgone.2]
          exact Function.update_of_ne hother ..
        refine ⟨?_, hrest.kept, hrest.apart⟩
        intro e he
        rw [hgone.1] at he
        rcases List.mem_cons.mp he with rfl | he
        · refine ⟨d, by rw [arrive_drafts]; exact hmem, hdpath, hj, text, ?_⟩
          rw [harrived]
          exact List.mem_append_right _ (List.mem_singleton_self _)
        · exact hrest.discarded e he

/-- A step that leaves all drafts and what has arrived alone. -/
theorem DraftInvariant.same (h : DraftInvariant s) (hdrafts : s'.drafts = s.drafts)
    (hdiscards : s'.discards = s.discards) (harrived : s'.arrived = s.arrived)
    (hfiles : s'.files = s.files) : DraftInvariant s' :=
  h.keep hdrafts hdiscards (by rw [harrived]; exact List.Subset.refl _) fun _ _ _ => by rw [hfiles]

theorem DraftInvariant.sent (h : DraftInvariant s) (hsent : Sent requests s s') :
    DraftInvariant s' := by
  refine h.same hsent.drafts hsent.discards ?_ hsent.files
  unfold arrived
  rw [hsent.events]

theorem DraftInvariant.press (h : DraftInvariant s) (key : Key) :
    DraftInvariant (s.press env key) := by
  have hstrike : DraftInvariant (s.strike env key) := h.same rfl rfl rfl rfl
  have hsent := hstrike.sent (foldl_send (s.app.onKey env.lowercase key).2 _)
  unfold System.press takeCompose
  split
  · exact hsent.same rfl rfl rfl rfl
  · exact hsent.same rfl rfl rfl rfl

theorem session_discards (request : ComposeRequest) (stamp : Nat) (outcome : EditorOutcome) :
    (s.session env request stamp outcome).discards = s.discards := by
  have hcomposed : ∀ (s : System) composed, (s.composed request composed).discards = s.discards := by
    intro s composed
    cases composed with
    | edited text path => exact (foldl_send _ (s.submit text path)).discards
    | abandoned => rfl
    | failed => rfl
  exact hcomposed _ _

theorem DraftInvariant.session (h : DraftInvariant s) (hsound : Sound s) {request : ComposeRequest}
    (stamp : Nat) (outcome : EditorOutcome) (hphase : s.phase = .composing request)
    (hok : PostsApart env s (.composed stamp outcome)) :
    DraftInvariant (s.session env request stamp outcome) := by
  have harrived : (s.session env request stamp outcome).arrived = s.arrived := by
    unfold arrived
    rw [session_events]
  have hdiscards : (s.session env request stamp outcome).discards = s.discards :=
    session_discards request stamp outcome
  have hapart : outcome ≠ .unwritten → ∀ d ∈ s.drafts, s.isAccepted d = false →
      d.path ≠ draftPath stamp env.process := by
    intro hwritten d hd hfree hpath
    rw [hok hwritten d hd hpath] at hfree
    cases hfree
  have hcases : Composing s (draftPath stamp env.process) outcome
      (s.session env request stamp outcome) := session_composing hsound.quits stamp outcome hphase
  cases hcases with
  | nothing hdrafts hfiles _ _ =>
      refine h.keep hdrafts hdiscards (by rw [harrived]; exact List.Subset.refl _) ?_
      intro d hd hfree
      apply hfiles
      by_cases hwritten : outcome = .unwritten
      · exact Or.inr hwritten
      · exact Or.inl (hapart hwritten d hd
          (isAccepted_mono (by rw [harrived]; exact List.Subset.refl _) hfree))
  | kept text hwritten hdrafts hfiles _ _ =>
      exact h.write hdrafts hdiscards harrived hfiles (hapart hwritten)
  | posted text hwritten hdrafts hfiles _ _ =>
      exact h.write hdrafts hdiscards harrived hfiles (hapart hwritten)

theorem DraftInvariant.step (h : DraftInvariant s) (hsound : Sound s) (hposting : Posting s)
    (hok : PostsApart env s a) (hs : Happens env s a s') : DraftInvariant s' := by
  cases hs with
  | receive _ hnext => exact (h.arrive hsound hposting hnext hok).sent (foldl_send _ _)
  | idle _ _ => exact h.same rfl rfl rfl rfl
  | key _ => exact h.press _
  | tick _ => exact h.same rfl rfl rfl rfl
  | composed hphase => exact h.session hsound _ _ hphase hok
  | take _ _ =>
      unfold takeRequest
      split
      · exact h.same rfl rfl (Channel.taken_send hsound.tail.taken _) rfl
      · exact h.same rfl rfl rfl rfl
  | emit _ => exact h.same rfl rfl (Channel.taken_send hsound.tail.taken _) rfl
  | test _ => exact h.same rfl rfl rfl rfl
  | answer _ _ => exact h.same rfl rfl rfl rfl
  | finish _ => exact h.same rfl rfl rfl rfl

theorem start_drafts (config : UiConfig) (read : ReadStore) (subscriptions : List Wildmat)
    (postFrom : Option Str) (files : Files) :
    DraftInvariant (start config read subscriptions postFrom files) := by
  refine ⟨?_, ?_, ?_⟩
  · intro e he
    cases he
  · intro d hd
    cases hd
  · intro d hd
    cases hd

/-- **Drafts are safe** in every run in which an acceptance that discards a draft answers the last
posting, and no draft is written in the file of another one. -/
theorem draftSafe_of_postsApart (env : Environment) (config : UiConfig) (read : ReadStore)
    (subscriptions : List Wildmat) (postFrom : Option Str) (files : Files) (actions : List Action)
    (s : System)
    (hrun : run (step env) (start config read subscriptions postFrom files) actions = some s)
    (hok : Meets (step env) (PostsApart env) (start config read subscriptions postFrom files)
      actions) : DraftSafe s := by
  have hinv : Sound s ∧ Posting s ∧ DraftInvariant s :=
    invariant_run (P := fun s => Sound s ∧ Posting s ∧ DraftInvariant s) (step env)
      (fun _ _ _ hok hs ⟨hsound, hposting, hdrafts⟩ =>
        ⟨hsound.step (step_happens hs), hposting.step hsound (step_happens hs),
          hdrafts.step hsound hposting hok (step_happens hs)⟩)
      ⟨start_sound .., start_posting .., start_drafts ..⟩ hok hrun
  obtain ⟨_, hposting, hdrafts⟩ := hinv
  refine ⟨?_, hdrafts.kept⟩
  intro e he
  obtain ⟨d, hd, hpath, hrequest, harrived⟩ := hdrafts.discarded e he
  exact ⟨d, hd, hpath, hrequest, hposting.posts d hd _ hrequest, harrived⟩

/-! ### Two articles at once -/

def miscTest : GroupName := .miscTest

/-- A server with one group and nothing to list in it. -/
def oneGroup : (op : ClientOp) → op.Answer
  | .query .isConnected => true
  | .query .discard => ()
  | .query .selectedGroup => some miscTest
  | .command (.listGroups _) => .ok [{ name := miscTest, high := 1, low := 1, status := .permitted }]
  | .command (.listGroupDescriptions _) => .ok []
  | .command (.selectGroup _) => .ok { name := miscTest, estimatedCount := 1, low := 1, high := 1 }
  | .command .overviewFormat => .ok .standard
  | .command (.overviewStreaming _ _) => .ok []
  | .command (.post _) => .ok "received".toList
  | .command _ => .error .timeout

/-- The group list is fetched and the group in it is opened. -/
def opensGroup : List Action :=
  [.idle none, .take, .emit, .answer oneGroup, .answer oneGroup, .answer oneGroup, .answer oneGroup,
    .emit, .finish, .tick, .receive, .receive, .idle none, .key { code := .enter }, .take, .emit,
    .answer oneGroup, .answer oneGroup, .emit, .answer oneGroup, .answer oneGroup, .answer oneGroup,
    .answer oneGroup, .emit, .emit, .finish, .receive, .receive, .receive, .receive]

def article (subject : String) : Str :=
  ("From: a@example.com\nNewsgroups: alt.test\nSubject: " ++ subject ++ "\n\nText.\n").toList

/-- An article is written and handed in. -/
def writes (stamp : Nat) (subject : String) : List Action :=
  [.idle none, .key { code := .char 'w' }, .composed stamp (.exited (article subject))]

/-- The worker posts an article, and the acceptance is taken. -/
def posts : List Action :=
  [.take, .emit, .answer oneGroup, .answer oneGroup, .emit, .finish, .receive, .receive]

def readerStart : System := start plainConfig {} [] (some "a@example.com".toList) fun _ => none

theorem draftSafe_writes : ∃ s,
    run (step plainEnvironment) readerStart (opensGroup ++ writes 1 "one" ++ posts) = some s ∧
      s.discards.length = 1 ∧ DraftSafe s := by
  have heval : (run (step plainEnvironment) readerStart (opensGroup ++ writes 1 "one" ++ posts)).map
      (fun s => s.discards.length) = some 1 := by decide +kernel
  obtain ⟨s, hrun, hdiscards⟩ := Option.map_eq_some_iff.mp heval
  exact ⟨s, hrun, hdiscards, draftSafe_of_postsApart plainEnvironment plainConfig {} []
    (some "a@example.com".toList) (fun _ => none) _ s hrun (by decide +kernel)⟩

/-- The acceptance of the first article discards the draft of the second. -/
theorem writes_twice_loses : ¬ ∀ (env : Environment) (config : UiConfig) (read : ReadStore)
    (subscriptions : List Wildmat) (postFrom : Option Str) (files : Files) (actions : List Action)
    (s : System), run (step env) (start config read subscriptions postFrom files) actions = some s →
      DraftSafe s := by
  intro hall
  have heval : (run (step plainEnvironment) readerStart
      (opensGroup ++ writes 1 "one" ++ writes 2 "two" ++ posts)).map
      (fun s => s.drafts.any fun d => !s.isAccepted d && (s.files d.path).isNone) = some true := by
    decide +kernel
  obtain ⟨s, hrun, hlost⟩ := Option.map_eq_some_iff.mp heval
  obtain ⟨d, hd, hboth⟩ := List.any_eq_true.mp hlost
  obtain ⟨hfree, hnone⟩ := Bool.and_eq_true_iff.mp hboth
  have hkept := (hall _ _ _ _ _ _ _ s hrun).kept d hd (Bool.not_eq_true' _ ▸ hfree)
  rw [hkept] at hnone
  cases hnone

/-! ## What is said about drafts -/

/-- **What is said is true**: the article whose draft is named was offered in a request that failed or
was cancelled, and it is not accepted after all. -/
def NotesTrue (s : System) : Prop :=
  ∀ path, .unsent path ∈ s.app.messages → ∃ d ∈ s.drafts, d.path = path ∧ ∃ i, d.request = some i ∧
    s.requests.sent[i]? = some (.post (Draft.parse d.text)) ∧
    (∃ event, (i, event) ∈ s.arrived ∧ event.isFailure = true) ∧
    ∀ text, (i, .posted text) ∉ s.events.sent

/-- While an article is being posted, what fails is the posting that was made last, and the connection is
not reported lost. -/
def FailuresApart (s : System) : Action → Prop
  | .receive => ∀ e ∈ s.events.next, s.app.posting ≠ none →
      (e.2.isFailure = true → s.LastPost e.1) ∧ e.2 ≠ .disconnected
  | _ => True

instance (s : System) (i : Nat) : Decidable (s.LastPost i) :=
  decidable_of_iff ((∃ request ∈ s.requests.sent[i]?, request.isPost = true) ∧ s.NoLaterPost i) <| by
    refine and_congr_left fun _ => ⟨?_, ?_⟩
    · rintro ⟨request, hmem, hpost⟩
      cases request with
      | post draft => exact ⟨draft, hmem⟩
      | _ => cases hpost
    · rintro ⟨draft, hdraft⟩
      exact ⟨_, hdraft, rfl⟩

instance (s : System) : (a : Action) → Decidable (FailuresApart s a)
  | .receive => inferInstanceAs (Decidable (∀ e ∈ s.events.next, s.app.posting ≠ none →
      (e.2.isFailure = true → s.LastPost e.1) ∧ e.2 ≠ .disconnected))
  | .idle _ | .key _ | .tick | .composed _ _ | .take | .emit | .test | .answer _ | .finish => isTrue trivial

/-- What is said about drafts, without what follows from the order of the events. -/
def Noted (s : System) : Prop :=
  ∀ path, .unsent path ∈ s.app.messages → ∃ d ∈ s.drafts, d.path = path ∧ ∃ i, d.request = some i ∧
    ∃ event, (i, event) ∈ s.arrived ∧ event.isFailure = true

theorem Noted.keep (h : Noted s) (hdrafts : s.drafts ⊆ s'.drafts) (harrived : s.arrived ⊆ s'.arrived)
    (hmessages : ∀ path, .unsent path ∈ s'.app.messages → .unsent path ∈ s.app.messages) :
    Noted s' := by
  intro path hpath
  obtain ⟨d, hd, hdpath, i, hi, event, hmem, hfailure⟩ := h path (hmessages path hpath)
  exact ⟨d, hdrafts hd, hdpath, i, hi, event, harrived hmem, hfailure⟩

/-- Handing over requests says nothing about drafts as long as the worker is there, or no article is
being posted. -/
theorem foldl_send_unsent {path : Path} (requests : List Request) (s : System)
    (hposting : s.worker = .stopped → s.app.posting = none)
    (h : .unsent path ∈ (requests.foldl send s).app.messages) : .unsent path ∈ s.app.messages := by
  induction requests generalizing s with
  | nil => exact h
  | cons request requests ih =>
      have hsent := send_sent s request
      have hnext : (s.send request).worker = .stopped → (s.send request).app.posting = none := by
        intro hworker
        have hnone := hposting (hsent.worker.symm.trans hworker)
        rcases hsent.ledger with hl | hl
        · exact (congrArg Ledger.posting hl).trans hnone
        · exact congrArg Ledger.posting hl
      have hmem := ih _ hnext h
      unfold send at hmem
      split at hmem
      · next hworker =>
          split at hmem
          · exact hmem
          · rcases App.onEvent_unsent _ hmem with hold | ⟨hset, _⟩
            · exact hold
            · rw [hposting hworker] at hset
              cases hset
      · exact hmem

theorem Noted.arrive (h : Noted s) (hposting : Posting s)
    (hnext : s.events.next = some (i, event)) (hok : FailuresApart s .receive) :
    Noted (s.arrive i event) := by
  have harrived : (s.arrive i event).arrived = s.arrived ++ [(i, event)] :=
    arrived_receive hnext (arrive_events i event)
  have hmessages : (s.arrive i event).app.messages = (s.app.onEvent event).app.messages := by
    unfold System.arrive
    rw [discard_app]
  intro path hpath
  rw [hmessages] at hpath
  rw [arrive_drafts, harrived]
  rcases App.onEvent_unsent event hpath with hold | ⟨hset, hfailure⟩
  · obtain ⟨d, hd, hdpath, j, hj, e, hmem, he⟩ := h path hold
    exact ⟨d, hd, hdpath, j, hj, e, List.mem_append_left _ hmem, he⟩
  · obtain ⟨hlast, hlost⟩ := hok _ hnext (by rw [hset]; exact Option.some_ne_none _)
    have hfailure := hfailure.resolve_right hlost
    obtain ⟨⟨draft, hdraft⟩, hlater⟩ := hlast hfailure
    obtain ⟨d, hd, hdpath, j, hj, hjlast, _⟩ := hposting.posting path hset
    cases hjlast.unique hdraft hlater
    exact ⟨d, hd, hdpath, _, hj, event, List.mem_append_right _ (List.mem_singleton_self _), hfailure⟩

theorem Noted.apply (h : Noted s) (hquits : Quits s) (hposting : Posting s)
    (hnext : s.events.next = some (i, event)) (hok : FailuresApart s .receive) :
    Noted (s.apply i event) := by
  have hsent := foldl_send (s.app.onEvent event).requests (s.arrive i event)
  have harrive := h.arrive hposting hnext hok
  refine harrive.keep (by rw [show (s.apply i event).drafts = _ from hsent.drafts]; exact List.Subset.refl _)
    ?_ ?_
  · unfold arrived
    rw [show (s.apply i event).events = _ from hsent.events]
    exact List.Subset.refl _
  · intro path hpath
    by_cases hnone : (s.app.onEvent event).requests = []
    · unfold System.apply at hpath
      rw [hnone] at hpath
      exact hpath
    · -- only an acceptance leads to a request, and then no article is being posted
      refine foldl_send_unsent _ _ (fun _ => ?_) hpath
      obtain ⟨request, hmem⟩ := List.exists_mem_of_ne_nil _ hnone
      rw [(s.app.ledger_onEvent event).2.1] at hmem
      obtain ⟨text, rfl, _⟩ := posted_of_mem_requests hmem
      refine (congrArg Ledger.posting (arrive_ledger i (.posted text))).trans ?_
      unfold Ledger.onEvent
      dsimp only
      split <;> rfl

theorem Noted.press (h : Noted s) (hquits : Quits s) {key : Key} (hphase : s.phase = .polling) :
    Noted (s.press env key) := by
  have hworker := (hquits.running (Or.inl hphase)).2.2
  have hsent := foldl_send (s.app.onKey env.lowercase key).2 (s.strike env key)
  have hmessages : (s.press env key).app.messages = (s.app.onKey env.lowercase key).1.messages := by
    have htake : ∀ s : System, s.takeCompose.app.messages = s.app.messages := by
      intro s
      unfold takeCompose
      split <;> rfl
    refine (htake _).trans ?_
    rw [(hsent.running hworker).1]
    rfl
  refine h.keep ?_ ?_ ?_
  · have htake : ∀ s : System, s.takeCompose.drafts = s.drafts := by
      intro s
      unfold takeCompose
      split <;> rfl
    unfold System.press
    rw [htake, hsent.drafts]
    exact List.Subset.refl _
  · unfold arrived
    rw [press_events]
    exact List.Subset.refl _
  · intro path hpath
    rw [hmessages] at hpath
    exact (App.onKey_quiet env.lowercase s.app key).unsent hpath

theorem composed_unsent (hworker : s.worker ≠ .stopped) (request : ComposeRequest) (c : Composed)
    {path : Path} (h : .unsent path ∈ (s.composed request c).app.messages) :
    .unsent path ∈ s.app.messages := by
  cases c with
  | edited text draft =>
      have hunsent : .unsent path ∈ (s.app.onComposed (some (text, draft))).1.messages →
          .unsent path ∈ s.app.messages := App.onComposed_unsent _
      have hsubmitted := submit_submitted s text draft
      have h : .unsent path ∈ ((s.app.onComposed (some (text, draft))).2.toList.foldl send
        (s.submit text draft)).app.messages := h
      generalize s.submit text draft = submitted at hsubmitted h
      generalize s.app.onComposed (some (text, draft)) = composed at hunsent hsubmitted h
      have hold : .unsent path ∈ submitted.app.messages :=
        foldl_send_unsent _ _ (fun hstopped => absurd (hsubmitted.worker.symm.trans hstopped) hworker) h
      rw [hsubmitted.app] at hold
      exact hunsent hold
  | abandoned =>
      rcases List.mem_cons.mp (List.mem_of_mem_take h) with heq | hmem
      · cases heq
      · exact hmem
  | failed =>
      rcases List.mem_cons.mp (List.mem_of_mem_take h) with heq | hmem
      · cases heq
      · exact hmem

theorem Noted.session (h : Noted s) (hquits : Quits s) {request : ComposeRequest} (stamp : Nat)
    (outcome : EditorOutcome) (hphase : s.phase = .composing request) :
    Noted (s.session env request stamp outcome) := by
  have hworker := (hquits.running (Or.inr ⟨request, hphase⟩)).2.2
  have hunsent : ∀ path, .unsent path ∈ (s.session env request stamp outcome).app.messages →
      .unsent path ∈ s.app.messages := by
    intro path hpath
    have hedit : (s.edit env request stamp outcome).2.app = s.app := rfl
    rw [← hedit]
    exact composed_unsent (s := (s.edit env request stamp outcome).2) hworker request _ hpath
  refine h.keep ?_ ?_ hunsent
  · have hcases : Composing s (draftPath stamp env.process) outcome
        (s.session env request stamp outcome) := session_composing hquits stamp outcome hphase
    cases hcases with
    | nothing hdrafts _ _ _ =>
        rw [hdrafts]
        exact List.Subset.refl _
    | kept text _ hdrafts _ _ _ =>
        rw [hdrafts]
        exact List.subset_cons_self _ _
    | posted text _ hdrafts _ _ _ =>
        rw [hdrafts]
        exact List.subset_cons_self _ _
  · unfold arrived
    rw [session_events]
    exact List.Subset.refl _

theorem settle_unsent {path : Path} (drawn : Option (Nat × Nat))
    (h : .unsent path ∈ (s.settle drawn).app.messages) : .unsent path ∈ s.app.messages := by
  have hdrawn : ∀ app : App, ((drawn.map fun h => app.setPaneHeights h.1 h.2).getD app).messages =
      app.messages := by
    intro app
    cases drawn <;> rfl
  unfold settle at h
  dsimp only at h
  rw [hdrawn] at h
  split at h
  · exact (App.onEvent_quiet .stopped rfl (fun heq => by cases heq)).unsent h
  · exact h

theorem Noted.step (h : Noted s) (hsound : Sound s) (hposting : Posting s)
    (hok : FailuresApart s a) (hs : Happens env s a s') : Noted s' := by
  have hrefl := List.Subset.refl s.drafts
  cases hs with
  | receive _ hnext => exact h.apply hsound.quits hposting hnext hok
  | idle _ _ => exact h.keep hrefl (List.Subset.refl _) fun _ => settle_unsent _
  | key hphase => exact h.press hsound.quits hphase
  | tick _ => exact h
  | composed hphase => exact h.session hsound.quits _ _ hphase
  | take _ _ =>
      unfold takeRequest
      split
      · refine h.keep hrefl ?_ fun _ hmem => hmem
        unfold arrived
        rw [Channel.taken_send hsound.tail.taken]
        exact List.Subset.refl _
      · exact h
  | emit _ =>
      refine h.keep hrefl ?_ fun _ hmem => hmem
      unfold arrived
      rw [Channel.taken_send hsound.tail.taken]
      exact List.Subset.refl _
  | test _ | answer _ _ | finish _ => exact h

/-- A request has one final answer. -/
theorem Delivery.final_unique (h : Delivery s) {event' : Event} (hmem : (i, event) ∈ s.events.sent)
    (hmem' : (i, event') ∈ s.events.sent) (hfinal : event.isFinal = true)
    (hfinal' : event'.isFinal = true) (hne : s.requests.sent[i]? ≠ some .shutdown) :
    event = event' := by
  have hi := h.tags _ hmem
  have hlt := Nat.lt_of_lt_of_le hi h.taken
  rw [List.getElem?_eq_getElem hlt] at hne
  obtain ⟨q, hat, _⟩ := h.follows i _ hi (List.getElem?_eq_getElem hlt) (fun heq => hne (by rw [heq]))
  exact observe_unique (Or.inl rfl) hat (mem_eventsOf.mpr hmem) (mem_eventsOf.mpr hmem') hfinal hfinal'

/-- **A posting failure is reported only for a posting that failed**, in every run in which, while an
article is being posted, nothing else fails and the connection is not reported lost. -/
theorem notesTrue_of_failuresApart (env : Environment) (config : UiConfig) (read : ReadStore)
    (subscriptions : List Wildmat) (postFrom : Option Str) (files : Files) (actions : List Action)
    (s : System)
    (hrun : run (step env) (start config read subscriptions postFrom files) actions = some s)
    (hok : Meets (step env) FailuresApart (start config read subscriptions postFrom files)
      actions) : NotesTrue s := by
  have hinv : Sound s ∧ Posting s ∧ Noted s :=
    invariant_run (P := fun s => Sound s ∧ Posting s ∧ Noted s) (step env)
      (fun _ _ _ hok hs ⟨hsound, hposting, hnoted⟩ =>
        ⟨hsound.step (step_happens hs), hposting.step hsound (step_happens hs),
          hnoted.step hsound hposting hok (step_happens hs)⟩)
      ⟨start_sound .., start_posting .., fun path hpath => by cases hpath⟩ hok hrun
  obtain ⟨hsound, hposting, hnoted⟩ := hinv
  intro path hpath
  obtain ⟨d, hd, hdpath, i, hi, event, hmem, hfailure⟩ := hnoted path hpath
  have hpost := hposting.posts d hd i hi
  refine ⟨d, hd, hdpath, i, hi, hpost, ⟨event, hmem, hfailure⟩, ?_⟩
  intro text hposted
  have hfinal : event.isFinal = true := by
    cases event <;> first | rfl | cases hfailure
  have heq := hsound.delivery.final_unique (arrived_subset _ hmem) hposted hfinal rfl
    (by rw [hpost]; intro heq; cases heq)
  rw [heq] at hfailure
  cases hfailure

/-! ### Another request fails -/

/-- The overview is asked for again, and an article written before the worker gets to it. -/
def failsBeforePost : List Action :=
  opensGroup ++ [.idle none, .key { code := .char 'r' }] ++ writes 1 "one" ++
    [.take, .answer silent, .answer silent, .answer silent, .answer silent, .emit, .answer silent, .emit,
      .finish, .receive, .receive]

/-- An article is posted, and the connection lost over it. -/
def failsOnPost : List Action :=
  opensGroup ++ writes 1 "one" ++
    [.take, .emit, .answer silent, .answer silent, .emit, .answer silent, .emit, .finish, .receive,
      .receive, .receive]

theorem notesTrue_failsOnPost : ∃ s,
    run (step plainEnvironment) readerStart failsOnPost = some s ∧
      .unsent (draftPath 1 1) ∈ s.app.messages ∧ NotesTrue s := by
  have heval : (run (step plainEnvironment) readerStart failsOnPost).map
      (fun s => decide (Note.unsent (draftPath 1 1) ∈ s.app.messages)) = some true := by
    decide +kernel
  obtain ⟨s, hrun, hmem⟩ := Option.map_eq_some_iff.mp heval
  exact ⟨s, hrun, of_decide_eq_true hmem, notesTrue_of_failuresApart plainEnvironment plainConfig {} []
    (some "a@example.com".toList) (fun _ => none) _ s hrun (by decide +kernel)⟩

/-- The article is said to be unsent because the overview could not be fetched, and then it is
accepted. -/
theorem failsBeforePost_misreports : ¬ ∀ (env : Environment) (config : UiConfig) (read : ReadStore)
    (subscriptions : List Wildmat) (postFrom : Option Str) (files : Files) (actions : List Action)
    (s : System), run (step env) (start config read subscriptions postFrom files) actions = some s →
      NotesTrue s := by
  intro hall
  have heval : (run (step plainEnvironment) readerStart (failsBeforePost ++ posts)).map
      (fun s => (decide (Note.unsent (draftPath 1 1) ∈ s.app.messages), s.drafts.map (·.request),
        decide ((3, Event.posted "received".toList) ∈ s.events.sent))) =
      some (true, [some 3], true) := by decide +kernel
  obtain ⟨s, hrun, hs⟩ := Option.map_eq_some_iff.mp heval
  obtain ⟨hmem, hs⟩ := Prod.mk.inj hs
  obtain ⟨hdrafts, hposted⟩ := Prod.mk.inj hs
  obtain ⟨d, hd, _, i, hi, _, _, hnever⟩ := hall _ _ _ _ _ _ _ s hrun _ (of_decide_eq_true hmem)
  have hrequest : d.request ∈ s.drafts.map (·.request) := List.mem_map_of_mem hd
  rw [hdrafts, List.mem_singleton, hi] at hrequest
  cases hrequest
  exact hnever _ (of_decide_eq_true hposted)

end System

end Nntp.Tui
