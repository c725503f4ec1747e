import Nntp.Tui.Worker

/-!
# What a request is answered with

The events of one request follow a protocol: progress, then what the request asked for, or one failure.
`advance` is that protocol as an observer, and `dispatch_follows` says that every task obeys it whatever
the client answers. A cancellation is reported only if some answer was one.
-/

namespace Nntp.Tui

open Nntp.Lib Nntp.Proto Nntp.Client

/-- How far the events of a request have come. -/
inductive Stage where
  /-- nothing of what was asked for has arrived, or some records of an overview -/
  | waiting
  /-- the group is open, its records are arriving -/
  | opened
  | answered
  | cancelled
  | failed
  /-- the failure took the connection with it -/
  | lost
  deriving DecidableEq, Repr

/-- Whether the request is still being worked on. -/
def Stage.Running (q : Stage) : Prop := q = .waiting ∨ q = .opened

/-- **The protocol of a request**: where an event takes it, if the event may come there. A cancellation
may come only if `cancellable`. -/
def advance (cancellable : Bool) (request : Request) : Stage → Event → Option Stage
  | .waiting, .progress _ => some .waiting
  | .opened, .progress _ => some .opened
  | .waiting, .connected .. => some .waiting
  | .opened, .connected .. => some .opened
  | .waiting, .groups _ scope _ => if request = .loadGroups scope then some .answered else none
  | .waiting, .groupOpened _ =>
      match request with
      | .openGroup .. => some .opened
      | _ => none
  | .opened, .overviewChunk group token _ _ =>
      match request with
      | .openGroup g _ t => if group = g ∧ token = t then some .opened else none
      | _ => none
  | .opened, .overviewComplete group token =>
      match request with
      | .openGroup g _ t => if group = g ∧ token = t then some .answered else none
      | _ => none
  | .waiting, .overviewChunk group token _ _ =>
      match request with
      | .loadOverview g _ t => if group = g ∧ token = t then some .waiting else none
      | _ => none
  | .waiting, .overviewComplete group token =>
      match request with
      | .loadOverview g _ t => if group = g ∧ token = t then some .answered else none
      | _ => none
  | .waiting, .article _ =>
      match request with
      | .loadArticle .. => some .answered
      | _ => none
  | .waiting, .posted _ =>
      match request with
      | .post _ => some .answered
      | _ => none
  | .waiting, .failed .. => some .failed
  | .opened, .failed .. => some .failed
  | .failed, .disconnected => some .lost
  | .waiting, .cancelled _ => if cancellable then some .cancelled else none
  | .opened, .cancelled _ => if cancellable then some .cancelled else none
  | _, _ => none

/-- Whether a request has been dealt with. -/
def Stage.Ended (q : Stage) : Prop := ¬ q.Running

theorem answered_ended : Stage.answered.Ended := by rintro (h | h) <;> cases h

theorem cancelled_ended : Stage.cancelled.Ended := by rintro (h | h) <;> cases h

theorem failed_ended : Stage.failed.Ended := by rintro (h | h) <;> cases h

theorem lost_ended : Stage.lost.Ended := by rintro (h | h) <;> cases h

/-- The final answer to a request; a lost connection may be reported after it. -/
def Event.isFinal : Event → Bool
  | groups .. => true
  | overviewComplete .. => true
  | article _ => true
  | posted _ => true
  | failed .. => true
  | cancelled _ => true
  | _ => false

/-- The answers that are considered: with `cancellable` down, none of them is a cancelled read. -/
def Allowed (cancellable : Bool) : (op : ClientOp) → op.Answer → Prop
  | .query _, _ => True
  | .command _, r => ∀ e, r = .error e → e.isCancelled = true → cancellable = true

/-! ## Tasks -/

/-- From stage `q` a task obeys the protocol; if it succeeds it does so in a stage and with a result
that fit, and if it fails it does so while the request is still being worked on. -/
def Obeys {α : Type} (cancellable : Bool) (request : Request) (good : Stage → α → Prop) (q : Stage)
    (t : Task α) : Prop :=
  Work.wp (Allowed cancellable) (advance cancellable request)
    (fun q r => match r with
      | .ok a => good q a
      | .error e => q.Running ∧ (e.isCancelled = true → cancellable = true)) q t.run

section Rules

variable {α β : Type} {cancellable : Bool} {request : Request} {q : Stage}
  {good : Stage → α → Prop}

theorem Obeys.bind {good : Stage → β → Prop} {x : Task α} {f : α → Task β}
    (h : Obeys cancellable request (fun q a => Obeys cancellable request good q (f a)) q x) :
    Obeys cancellable request good q (x >>= f) := by
  refine Work.wp_bind_except (Work.wp_mono h ?_)
  intro q r hr
  cases r with
  | ok a => exact hr
  | error e => exact hr

theorem Obeys.pure {a : α} (h : good q a) : Obeys cancellable request good q (pure a : Task α) := h

theorem Obeys.throw {e : ClientError} (hq : q.Running)
    (he : e.isCancelled = true → cancellable = true) :
    Obeys cancellable request good q (throw e : Task α) := ⟨hq, he⟩

theorem Obeys.send {event : Event} {q' : Stage} {good : Stage → Unit → Prop}
    (h : advance cancellable request q event = some q') (hgood : good q' ()) :
    Obeys cancellable request good q (send event) := ⟨q', h, hgood⟩

/-- Progress is welcome as long as the request is being worked on. -/
theorem Obeys.progress {message : Str} {good : Stage → Unit → Prop} (hq : q.Running)
    (hgood : good q ()) : Obeys cancellable request good q (Tui.send (.progress message)) := by
  rcases hq with rfl | rfl
  · exact Obeys.send rfl hgood
  · exact Obeys.send rfl hgood

/-- A command that fails ends the task while the request is being worked on. -/
theorem Obeys.command {c : ClientCommand} {good : Stage → c.Value → Prop} (hq : q.Running)
    (hgood : ∀ v, good q v) : Obeys cancellable request good q (Tui.command c) := by
  intro r hr
  cases r with
  | ok v => exact hgood v
  | error e => exact ⟨hq, hr e rfl⟩

theorem Obeys.attempt {c : ClientCommand} {good : Stage → Except ClientError c.Value → Prop}
    (hok : ∀ v, good q (.ok v))
    (herror : ∀ e, (e.isCancelled = true → cancellable = true) → good q (.error e)) :
    Obeys cancellable request good q (Tui.attempt c) := by
  intro r hr
  cases r with
  | ok v => exact hok v
  | error e => exact herror e (hr e rfl)

theorem Obeys.query {k : ClientQuery} {good : Stage → k.Value → Prop} (hgood : ∀ v, good q v) :
    Obeys cancellable request good q (Tui.query k) := fun r _ => hgood r

/-- A connection that has to be made first is announced, and nothing else. -/
theorem Obeys.client {w : Worker} {good : Stage → Unit → Prop} (hq : q.Running)
    (hgood : good q ()) : Obeys cancellable request good q (Tui.client w) := by
  apply Obeys.bind
  apply Obeys.query
  intro connected
  cases connected with
  | true => exact hgood
  | false =>
      apply Obeys.bind
      apply Obeys.progress hq
      apply Obeys.bind
      apply Obeys.command hq
      intro v
      rcases hq with rfl | rfl
      · exact Obeys.send rfl hgood
      · exact Obeys.send rfl hgood

end Rules

/-! ## The tasks of the worker -/

section Tasks

variable {cancellable : Bool} {request : Request} {q : Stage} {w : Worker}

theorem listAllAndFilter_obeys {patterns : List Wildmat} {good : Stage → List ActiveEntry → Prop}
    (hq : q.Running) (hgood : ∀ v, good q v) :
    Obeys cancellable request good q (listAllAndFilter w patterns) := by
  apply Obeys.bind
  apply Obeys.progress hq
  apply Obeys.bind
  apply Obeys.client hq
  apply Obeys.bind
  apply Obeys.command hq
  intro all
  exact Obeys.pure (hgood _)

theorem listBatches_obeys {patterns : List Wildmat} {batches : List (Option Wildmat)}
    {active : List ActiveEntry} {good : Stage → List ActiveEntry × Bool → Prop}
    (hq : q.Running) (hgood : ∀ v, good q v) :
    Obeys cancellable request good q (listBatches w patterns batches active) := by
  induction batches generalizing active with
  | nil => exact Obeys.pure (hgood _)
  | cons batch batches ih =>
      apply Obeys.bind
      apply Obeys.client hq
      apply Obeys.bind
      apply Obeys.attempt
      · intro entries
        exact ih
      · intro error herror
        show Obeys _ _ _ _ (if _ then _ else throw error)
        split
        · apply Obeys.bind
          apply listAllAndFilter_obeys hq
          intro active
          exact Obeys.pure (hgood _)
        · exact Obeys.throw hq herror

theorem describeBatches_obeys {batches : List (Option Wildmat)}
    {descriptions : List (GroupName × Str)} {good : Stage → List (GroupName × Str) → Prop}
    (hq : q.Running) (hgood : ∀ v, good q v) :
    Obeys cancellable request good q (describeBatches w batches descriptions) := by
  induction batches generalizing descriptions with
  | nil => exact Obeys.pure (hgood _)
  | cons batch batches ih =>
      apply Obeys.bind
      apply Obeys.client hq
      apply Obeys.bind
      apply Obeys.attempt
      · intro entries
        exact ih
      · intro error herror
        show Obeys _ _ _ _ (if _ then throw error else _)
        split
        · exact Obeys.throw hq herror
        · exact ih

theorem loadGroups_obeys (scope : GroupScope) :
    Obeys cancellable (.loadGroups scope) (fun q _ => q = .answered) .waiting
      (loadGroups w scope) := by
  have hq : Stage.waiting.Running := Or.inl rfl
  apply Obeys.bind
  apply Obeys.progress hq
  apply Obeys.bind
  apply listBatches_obeys hq
  intro listed
  apply Obeys.bind
  apply describeBatches_obeys hq
  intro descriptions
  exact Obeys.send (if_pos rfl) rfl

/-- The stage in which the records of an overview arrive. -/
def Request.listing : Request → Option (Stage × GroupName × FetchToken)
  | .openGroup group _ token => some (.opened, group, token)
  | .loadOverview group _ token => some (.waiting, group, token)
  | _ => none

theorem listing_running {group : GroupName} {token : FetchToken}
    (h : request.listing = some (q, group, token)) : q.Running := by
  cases request <;> cases h
  · exact Or.inr rfl
  · exact Or.inl rfl

theorem advance_chunk {group : GroupName} {token : FetchToken}
    (h : request.listing = some (q, group, token)) (records : List OverviewRecord)
    (skipped : Nat) :
    advance cancellable request q (.overviewChunk group token records skipped) = some q := by
  cases request <;> cases h
  · exact if_pos ⟨rfl, rfl⟩
  · exact if_pos ⟨rfl, rfl⟩

theorem advance_complete {group : GroupName} {token : FetchToken}
    (h : request.listing = some (q, group, token)) :
    advance cancellable request q (.overviewComplete group token) = some .answered := by
  cases request <;> cases h
  · exact if_pos ⟨rfl, rfl⟩
  · exact if_pos ⟨rfl, rfl⟩

theorem fetchChunks_obeys {group : GroupName} {token : FetchToken}
    (h : request.listing = some (q, group, token)) {fmt : OverviewFmt} {total : Nat}
    {chunks : List Range} {good : Stage → Unit → Prop} (hgood : good q ()) :
    Obeys cancellable request good q (fetchChunks w group token fmt total chunks) := by
  have hq := listing_running h
  induction chunks with
  | nil => exact Obeys.pure hgood
  | cons chunk chunks ih =>
      have hrest : Obeys cancellable request good q (do
          client w
          let lines ← command (.overviewStreaming chunk fmt)
          let records := (lines.filterMap id).mergeSort fun a b => decide (a.number ≤ b.number)
          send (.overviewChunk group token records (lines.countP Option.isNone))
          fetchChunks w group token fmt total chunks) := by
        apply Obeys.bind
        apply Obeys.client hq
        apply Obeys.bind
        apply Obeys.command hq
        intro lines
        apply Obeys.bind
        exact Obeys.send (advance_chunk h _ _) ih
      show Obeys _ _ _ _ (if 1 < total then _ else _)
      split
      · apply Obeys.bind
        exact Obeys.progress hq hrest
      · exact hrest

theorem fetchOverview_obeys {group : GroupName} {token : FetchToken}
    (h : request.listing = some (q, group, token)) (range : Range) :
    Obeys cancellable request (fun q _ => q = .answered) q (fetchOverview w group range token) := by
  have hq := listing_running h
  apply Obeys.bind
  apply Obeys.client hq
  apply Obeys.bind
  apply Obeys.command hq
  intro fmt
  apply Obeys.bind
  apply fetchChunks_obeys h
  exact Obeys.send (advance_complete h) rfl

theorem openGroup_obeys (group : GroupName) (count : UInt64) (token : FetchToken) :
    Obeys cancellable (.openGroup group count token) (fun q _ => q = .answered) .waiting
      (openGroup w group count token) := by
  have hq : Stage.waiting.Running := Or.inl rfl
  apply Obeys.bind
  apply Obeys.progress hq
  apply Obeys.bind
  apply Obeys.client hq
  apply Obeys.bind
  apply Obeys.command hq
  intro summary
  apply Obeys.bind
  apply Obeys.send rfl
  cases summary.range with
  | none => exact Obeys.send (if_pos ⟨rfl, rfl⟩) rfl
  | some range => exact fetchOverview_obeys rfl _

theorem ensureSelected_obeys {group : GroupName} {good : Stage → Unit → Prop} (hq : q.Running)
    (hgood : good q ()) : Obeys cancellable request good q (ensureSelected w group) := by
  apply Obeys.bind
  apply Obeys.client hq
  apply Obeys.bind
  apply Obeys.query
  intro selected
  show Obeys _ _ _ _ (if selected ≠ some group then _ else _)
  split
  · apply Obeys.bind
    apply Obeys.client hq
    apply Obeys.bind
    apply Obeys.command hq
    intro summary
    exact Obeys.pure hgood
  · exact Obeys.pure hgood

theorem loadOverview_obeys (group : GroupName) (range : Range) (token : FetchToken) :
    Obeys cancellable (.loadOverview group range token) (fun q _ => q = .answered) .waiting
      (loadOverview w group range token) := by
  apply Obeys.bind
  apply ensureSelected_obeys (Or.inl rfl)
  exact fetchOverview_obeys rfl range

theorem loadArticle_obeys (group : Option GroupName) (spec : ArticleSpec) :
    Obeys cancellable (.loadArticle group spec) (fun q _ => q = .answered) .waiting
      (loadArticle w group spec) := by
  have hq : Stage.waiting.Running := Or.inl rfl
  have hrest : Obeys cancellable (.loadArticle group spec) (fun q _ => q = .answered) .waiting (do
      send (.progress "fetching the article…".toList)
      client w
      let article ← command (.article spec)
      send (.article article)) := by
    apply Obeys.bind
    apply Obeys.progress hq
    apply Obeys.bind
    apply Obeys.client hq
    apply Obeys.bind
    apply Obeys.command hq
    intro article
    exact Obeys.send rfl rfl
  cases group with
  | none => exact hrest
  | some group =>
      apply Obeys.bind
      exact ensureSelected_obeys hq hrest

theorem post_obeys (draft : Draft) :
    Obeys cancellable (.post draft) (fun q _ => q = .answered) .waiting (post w draft) := by
  have hq : Stage.waiting.Running := Or.inl rfl
  apply Obeys.bind
  apply Obeys.progress hq
  apply Obeys.bind
  apply Obeys.client hq
  apply Obeys.bind
  apply Obeys.command hq
  intro text
  exact Obeys.send rfl rfl

theorem perform_obeys (h : request ≠ .shutdown) :
    Obeys cancellable request (fun q _ => q = .answered) .waiting (perform w request) := by
  cases request with
  | loadGroups scope => exact loadGroups_obeys scope
  | openGroup group count token => exact openGroup_obeys group count token
  | loadOverview group range token => exact loadOverview_obeys group range token
  | loadArticle group spec => exact loadArticle_obeys group spec
  | post draft => exact post_obeys draft
  | shutdown => exact absurd rfl h

theorem report_follows {e : ClientError} (hq : q.Running)
    (he : e.isCancelled = true → cancellable = true) :
    Work.wp (Allowed cancellable) (advance cancellable request) (fun q _ => q.Ended) q
      (report request e) := by
  unfold report
  split
  · next hcancel =>
      intro _ _
      rcases hq with rfl | rfl
      · exact ⟨.cancelled, if_pos (he hcancel), cancelled_ended⟩
      · exact ⟨.cancelled, if_pos (he hcancel), cancelled_ended⟩
  · have hrest : Work.wp (Allowed cancellable) (advance cancellable request)
        (fun q (_ : Unit) => q.Ended) .failed
        (if e.isConnectionFatal then .ask (.query .discard) fun _ => .send .disconnected (.done ())
          else .done ()) := by
      split
      · exact fun _ _ => ⟨.lost, rfl, lost_ended⟩
      · exact failed_ended
    rcases hq with rfl | rfl
    · exact ⟨.failed, rfl, hrest⟩
    · exact ⟨.failed, rfl, hrest⟩

/-- **Every request is answered by the protocol**, whatever the client answers, and none is cancelled
unless some answer was a cancelled read. -/
theorem dispatch_follows (cancellable : Bool) (w : Worker) (h : request ≠ .shutdown) :
    Work.wp (Allowed cancellable) (advance cancellable request) (fun q _ => q.Ended) .waiting
      (dispatch w request) := by
  apply Work.wp_bind
  refine Work.wp_mono (perform_obeys h) ?_
  intro q r hr
  cases r with
  | ok a =>
      rw [hr]
      exact answered_ended
  | error e => exact report_follows hr.1 hr.2

end Tasks

/-! ## The final answer -/

section Final

variable {cancellable : Bool} {request : Request} {q q' : Stage} {event : Event}

/-- After the final answer nothing is left to say but that the connection is lost. -/
theorem advance_ended (hq : q.Ended) (h : advance cancellable request q event = some q') :
    event = .disconnected ∧ q' = .lost := by
  cases q with
  | waiting => exact absurd (Or.inl rfl) hq
  | opened => exact absurd (Or.inr rfl) hq
  | failed =>
      cases event with
      | disconnected => exact ⟨rfl, (Option.some.inj h).symm⟩
      | _ => cases h
  | answered => cases event <;> cases h
  | cancelled => cases event <;> cases h
  | lost => cases event <;> cases h

/-- A request is dealt with once its final answer has come, and not before. -/
theorem advance_running (hq : q.Running) (h : advance cancellable request q event = some q') :
    q'.Ended ↔ event.isFinal = true := by
  have hwaiting : ¬ Stage.waiting.Ended := fun h => h (Or.inl rfl)
  have hopened : ¬ Stage.opened.Ended := fun h => h (Or.inr rfl)
  unfold advance at h
  split at h
  -- one case for each line of the protocol, first those without a condition
  case h_1 | h_3 => cases h; exact iff_of_false hwaiting Bool.false_ne_true
  case h_2 | h_4 => cases h; exact iff_of_false hopened Bool.false_ne_true
  case h_13 | h_14 => cases h; exact iff_of_true failed_ended rfl
  case h_15 => exact absurd hq failed_ended
  case h_18 => cases h
  all_goals split at h
  all_goals try (split at h)
  all_goals cases h
  all_goals first
    | exact iff_of_true answered_ended rfl
    | exact iff_of_true cancelled_ended rfl
    | exact iff_of_false hwaiting Bool.false_ne_true
    | exact iff_of_false hopened Bool.false_ne_true

/-- What comes after the final answer. -/
theorem observe_ended {events : List Event} (hq : q.Ended)
    (h : Work.observe (advance cancellable request) q events = some q') :
    q'.Ended ∧ ∀ event ∈ events, event = .disconnected := by
  induction events generalizing q with
  | nil =>
      cases h
      exact ⟨hq, fun _ hmem => absurd hmem List.not_mem_nil⟩
  | cons event events ih =>
      obtain ⟨mid, hnext, hrest⟩ := Option.bind_eq_some_iff.mp h
      obtain ⟨rfl, rfl⟩ := advance_ended hq hnext
      obtain ⟨hended, hevents⟩ := ih lost_ended hrest
      refine ⟨hended, ?_⟩
      intro e he
      rcases List.mem_cons.mp he with rfl | he
      · rfl
      · exact hevents e he

/-- A request has been dealt with exactly when a final answer is among its events. -/
theorem observe_final {events : List Event} (hq : q.Running)
    (h : Work.observe (advance cancellable request) q events = some q') :
    q'.Ended ↔ ∃ event ∈ events, event.isFinal = true := by
  induction events generalizing q with
  | nil =>
      cases h
      refine ⟨fun hended => absurd hq hended, ?_⟩
      rintro ⟨_, hmem, _⟩
      cases hmem
  | cons event events ih =>
      obtain ⟨mid, hnext, hrest⟩ := Option.bind_eq_some_iff.mp h
      have hmid := advance_running hq hnext
      rw [List.exists_mem_cons_iff]
      by_cases hended : mid.Ended
      · exact ⟨fun _ => Or.inl (hmid.mp hended), fun _ => (observe_ended hended hrest).1⟩
      · rw [ih (not_not.mp hended) hrest]
        refine ⟨Or.inr, ?_⟩
        rintro (hfinal | hfinal)
        · exact absurd (hmid.mpr hfinal) hended
        · exact hfinal

/-- A request has one final answer. -/
theorem observe_unique {events : List Event} {event' : Event} (hq : q.Running)
    (h : Work.observe (advance cancellable request) q events = some q') (hmem : event ∈ events)
    (hmem' : event' ∈ events) (hfinal : event.isFinal = true) (hfinal' : event'.isFinal = true) :
    event = event' := by
  induction events generalizing q with
  | nil => cases hmem
  | cons first events ih =>
      obtain ⟨mid, hnext, hrest⟩ := Option.bind_eq_some_iff.mp h
      have hmid := advance_running hq hnext
      -- after a final answer there is no other, so the two are before it or both at it
      by_cases hended : mid.Ended
      · have hlost := (observe_ended hended hrest).2
        have hfirst : ∀ e ∈ first :: events, e.isFinal = true → e = first := by
          intro e he hfinal
          rcases List.mem_cons.mp he with rfl | he
          · rfl
          · rw [hlost e he] at hfinal
            cases hfinal
        exact (hfirst _ hmem hfinal).trans (hfirst _ hmem' hfinal').symm
      · have hnot : ∀ e, e.isFinal = true → e ≠ first := by
          rintro e hfinal rfl
          exact hended (hmid.mpr hfinal)
        have hin := (List.mem_cons.mp hmem).resolve_left (hnot _ hfinal)
        have hin' := (List.mem_cons.mp hmem').resolve_left (hnot _ hfinal')
        exact ih (not_not.mp hended) hrest hin hin'

end Final

end Nntp.Tui
