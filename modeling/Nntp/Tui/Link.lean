import Nntp.Tui.Replies

/-!
# The connection behind the worker

What the client answers is not arbitrary: it is connected or not, a group is selected on its connection or
none, and what it fetches comes from that group. With a server that selects the group it is asked for and
returns the article it is asked for, the events of a request are true: the records and the article are from
the group the request names.
-/

namespace Nntp.Tui

open Nntp.Lib Nntp.Proto Nntp.Client

/-- What a server has, as far as it can be told from a single record or article. -/
structure Holdings where
  /-- the record is from the overview of the group -/
  listed : GroupName → OverviewRecord → Bool
  /-- the article is from the group -/
  stored : GroupName → Article → Bool

/-- The state of the worker's connection. -/
structure Link where
  connected : Bool := false
  selected : Option GroupName := none
  /-- a command has failed in a way that ends the connection -/
  lost : Bool := false
  deriving DecidableEq, Repr

namespace Link

/-- Whether a command that succeeded may have this result. -/
def permits (holdings : Holdings) (link : Link) : (c : ClientCommand) → c.Value → Bool
  -- a `211` response names the group that was asked for
  | .selectGroup group, summary => decide (summary.name = group)
  | .overviewStreaming _ _, lines =>
      link.selected.all fun group => (lines.filterMap id).all fun record => holdings.listed group record
  -- a `220` response carries the number that was asked for
  | .article spec, article =>
      (link.selected.all fun group => holdings.stored group article) &&
        match spec with
        | .number n => decide (article.number = some n)
        | _ => true
  | _, _ => true

/-- The connection after a command that succeeded. -/
def after (link : Link) : ClientCommand → Link
  | .connect => { connected := true }
  | .selectGroup group => { link with selected := some group }
  | _ => link

/-- **What the client may answer**, and where that takes the connection. A refusal changes nothing; once a
failure has ended the connection nothing is known of what comes over it. -/
def answer (holdings : Holdings) (link : Link) : (op : ClientOp) → op.Answer → Option Link
  | .query .isConnected, connected => if connected = link.connected then some link else none
  | .query .discard, _ => some {}
  | .query .selectedGroup, group => if group = link.selected then some link else none
  | .command c, .ok v =>
      if link.lost then some link
      else if link.permits holdings c v then some (link.after c) else none
  | .command _, .error e => some (if e.isConnectionFatal then { link with lost := true } else link)

/-- The connection is up and nothing has gone wrong on it. -/
def Up (link : Link) : Prop := link.connected = true ∧ link.lost = false

end Link

/-- **Whether an event is true** of the request it belongs to. -/
def Truthful (holdings : Holdings) (request : Request) : Event → Prop
  | .groupOpened summary => ∀ group count token, request = .openGroup group count token →
      summary.name = group
  | .overviewChunk group _ records _ => ∀ record ∈ records, holdings.listed group record = true
  | .article article => ∀ group n, request = .loadArticle (some group) (.number n) →
      holdings.stored group article = true ∧ article.number = some n
  | _ => True

/-- From connection `link` all events of a task are true. If it succeeds the connection and the result fit,
and if it fails over the loss of the connection, its error says so. -/
def Tells {α : Type} (holdings : Holdings) (request : Request) (good : Link → α → Prop) (link : Link)
    (t : Task α) : Prop :=
  Work.safe (Link.answer holdings) (fun _ event => Truthful holdings request event)
    (fun link r => match r with
      | .ok a => good link a
      | .error e => link.lost = true → e.isConnectionFatal = true) link t.run

section Rules

variable {α β : Type} {holdings : Holdings} {request : Request} {link : Link}
  {good : Link → α → Prop}

theorem Tells.bind {good : Link → β → Prop} {x : Task α} {f : α → Task β}
    (h : Tells holdings request (fun link a => Tells holdings request good link (f a)) link x) :
    Tells holdings request good link (x >>= f) := by
  refine Work.safe_bind_except (Work.safe_mono h ?_)
  intro link r hr
  cases r with
  | ok a => exact hr
  | error e => exact hr

theorem Tells.pure {a : α} (h : good link a) : Tells holdings request good link (pure a : Task α) := h

theorem Tells.throw {e : ClientError} (h : link.lost = true → e.isConnectionFatal = true) :
    Tells holdings request good link (throw e : Task α) := h

theorem Tells.send {event : Event} {good : Link → Unit → Prop} (h : Truthful holdings request event)
    (hgood : good link ()) : Tells holdings request good link (send event) := ⟨h, hgood⟩

theorem Tells.attempt {c : ClientCommand} {good : Link → Except ClientError c.Value → Prop}
    (hup : link.lost = false)
    (hok : ∀ v, link.permits holdings c v = true → good (link.after c) (.ok v))
    (hrefused : ∀ e, e.isConnectionFatal = false → good link (.error e))
    (hfatal : ∀ e, e.isConnectionFatal = true → good { link with lost := true } (.error e)) :
    Tells holdings request good link (Tui.attempt c) := by
  intro r link' hr
  cases r with
  | ok v =>
      have hr : (if link.lost then some link
        else if link.permits holdings c v then some (link.after c) else none) = some link' := hr
      rw [hup, if_neg Bool.false_ne_true] at hr
      split at hr
      · next hpermits =>
          cases hr
          exact hok v hpermits
      · cases hr
  | error e =>
      have hr : some (if e.isConnectionFatal then { link with lost := true } else link) = some link' := hr
      cases hr
      by_cases he : e.isConnectionFatal = true
      · rw [if_pos he]
        exact hfatal e he
      · rw [if_neg he]
        exact hrefused e (Bool.eq_false_iff.mpr he)

theorem Tells.command {c : ClientCommand} {good : Link → c.Value → Prop} (hup : link.lost = false)
    (hgood : ∀ v, link.permits holdings c v = true → good (link.after c) v) :
    Tells holdings request good link (Tui.command c) := by
  have hattempt : Tells holdings request (fun link r => match r with
      | .ok v => good link v
      | .error e => link.lost = true → e.isConnectionFatal = true) link (Tui.attempt c) :=
    Tells.attempt hup hgood (fun e _ hlost => by rw [hup] at hlost; cases hlost) fun e he _ => he
  intro r link' hr
  have hend := hattempt r link' hr
  cases r with
  | ok v => exact hend
  | error e => exact hend

theorem Tells.query {k : ClientQuery} {good : Link → k.Value → Prop}
    (hgood : ∀ v link', link.answer holdings (.query k) v = some link' → good link' v) :
    Tells holdings request good link (Tui.query k) := fun r link' hr => hgood r link' hr

/-- A connection that is up is used as it is, and otherwise there is a new one. -/
theorem Tells.client {w : Worker} {good : Link → Unit → Prop} (hlost : link.lost = false)
    (hgood : good (if link.connected then link else { connected := true }) ()) :
    Tells holdings request good link (Tui.client w) := by
  apply Tells.bind
  apply Tells.query
  intro connected link' hr
  have hr : (if connected = link.connected then some link else none) = some link' := hr
  split at hr
  · next heq =>
      cases hr
      rw [← heq] at hgood
      cases connected with
      | true => exact hgood
      | false =>
          apply Tells.bind
          refine Tells.send (by trivial) ?_
          apply Tells.bind
          apply Tells.command hlost
          intro v _
          exact Tells.send (by trivial) hgood
  · cases hr

/-- On a connection that is up nothing changes. -/
theorem Tells.client_up {w : Worker} {good : Link → Unit → Prop} (hup : link.Up)
    (hgood : good link ()) : Tells holdings request good link (Tui.client w) := by
  refine Tells.client hup.2 ?_
  rw [if_pos hup.1]
  exact hgood

/-- Afterwards the connection is up. -/
theorem Tells.client_then {w : Worker} {good : Link → Unit → Prop} (hlost : link.lost = false)
    (hgood : ∀ link : Link, link.Up → good link ()) :
    Tells holdings request good link (Tui.client w) := by
  refine Tells.client hlost (hgood _ ?_)
  split
  · next hconnected => exact ⟨hconnected, hlost⟩
  · exact ⟨rfl, rfl⟩

end Rules

/-! ## The tasks of the worker -/

section Tasks

variable {holdings : Holdings} {request : Request} {link : Link} {w : Worker}

theorem listAllAndFilter_tells {patterns : List Wildmat} (hlost : link.lost = false) :
    Tells holdings request (fun link _ => link.lost = false) link (listAllAndFilter w patterns) := by
  apply Tells.bind
  refine Tells.send (by trivial) ?_
  apply Tells.bind
  refine Tells.client_then hlost fun link hup => ?_
  apply Tells.bind
  refine Tells.command hup.2 fun all _ => ?_
  exact Tells.pure hup.2

theorem listBatches_tells {patterns : List Wildmat} {batches : List (Option Wildmat)}
    {active : List ActiveEntry} (hlost : link.lost = false) :
    Tells holdings request (fun link _ => link.lost = false) link
      (listBatches w patterns batches active) := by
  induction batches generalizing link active with
  | nil => exact Tells.pure hlost
  | cons batch batches ih =>
      apply Tells.bind
      refine Tells.client_then hlost fun link hup => ?_
      apply Tells.bind
      refine Tells.attempt hup.2 ?_ ?_ ?_
      · exact fun entries _ => ih hup.2
      · intro e he
        show Tells _ _ _ _ (if _ then _ else throw e)
        split
        · apply Tells.bind
          refine Work.safe_mono (listAllAndFilter_tells hup.2) ?_
          intro link r hr
          cases r with
          | ok active => exact Tells.pure hr
          | error e => exact hr
        · exact Tells.throw fun hlost => by rw [hup.2] at hlost; cases hlost
      · intro e he
        show Tells _ _ _ _ (if _ then _ else throw e)
        rw [if_neg (by rw [he, Bool.not_true, Bool.and_false, Bool.false_and]; exact Bool.false_ne_true)]
        exact Tells.throw fun _ => he

theorem describeBatches_tells {batches : List (Option Wildmat)}
    {descriptions : List (GroupName × Str)} (hlost : link.lost = false) :
    Tells holdings request (fun link _ => link.lost = false) link
      (describeBatches w batches descriptions) := by
  induction batches generalizing link descriptions with
  | nil => exact Tells.pure hlost
  | cons batch batches ih =>
      apply Tells.bind
      refine Tells.client_then hlost fun link hup => ?_
      apply Tells.bind
      refine Tells.attempt hup.2 ?_ ?_ ?_
      · exact fun entries _ => ih hup.2
      · intro e he
        show Tells _ _ _ _ (if _ then throw e else _)
        rw [if_neg (Bool.eq_false_iff.mp he)]
        exact ih hup.2
      · intro e he
        show Tells _ _ _ _ (if _ then throw e else _)
        rw [if_pos he]
        exact Tells.throw fun _ => he

theorem Tells.mono {α : Type} {good good' : Link → α → Prop} {t : Task α}
    (h : Tells holdings request good link t) (hgood : ∀ link a, good link a → good' link a) :
    Tells holdings request good' link t := by
  refine Work.safe_mono h ?_
  intro link r hr
  cases r with
  | ok a => exact hgood link a hr
  | error e => exact hr

theorem loadGroups_tells (scope : GroupScope) (hlost : link.lost = false) :
    Tells holdings request (fun link _ => link.lost = false) link (loadGroups w scope) := by
  apply Tells.bind
  refine Tells.send (by trivial) ?_
  apply Tells.bind
  refine (listBatches_tells hlost).mono fun link listed hlost => ?_
  apply Tells.bind
  refine (describeBatches_tells hlost).mono fun link descriptions hlost => ?_
  exact Tells.send (by trivial) hlost

/-- The chunks of a group that is selected hold its records. -/
theorem fetchChunks_tells {group : GroupName} {token : FetchToken} {fmt : OverviewFmt} {total : Nat}
    {chunks : List Range} {good : Link → Unit → Prop} (hup : link.Up)
    (hselected : link.selected = some group) (hgood : good link ()) :
    Tells holdings request good link (fetchChunks w group token fmt total chunks) := by
  induction chunks with
  | nil => exact Tells.pure hgood
  | cons chunk chunks ih =>
      have hrest : Tells holdings request good link (do
          client w
          let lines ← command (.overviewStreaming chunk fmt)
          let records := (lines.filterMap id).mergeSort fun a b => decide (a.number ≤ b.number)
          send (.overviewChunk group token records (lines.countP Option.isNone))
          fetchChunks w group token fmt total chunks) := by
        apply Tells.bind
        refine Tells.client_up hup ?_
        apply Tells.bind
        refine Tells.command hup.2 fun lines hpermits => ?_
        have hlisted : ∀ record ∈ lines.filterMap id, holdings.listed group record = true := by
          unfold Link.permits at hpermits
          rw [hselected] at hpermits
          exact List.all_eq_true.mp hpermits
        apply Tells.bind
        refine Tells.send (fun record hmem => hlisted record ?_) ih
        exact (List.mergeSort_perm _ _).mem_iff.mp hmem
      show Tells _ _ _ _ (if 1 < total then _ else _)
      split
      · apply Tells.bind
        exact Tells.send (by trivial) hrest
      · exact hrest

theorem fetchOverview_tells {group : GroupName} {range : Range} {token : FetchToken} (hup : link.Up)
    (hselected : link.selected = some group) :
    Tells holdings request (fun link _ => link.lost = false) link
      (fetchOverview w group range token) := by
  apply Tells.bind
  refine Tells.client_up hup ?_
  apply Tells.bind
  refine Tells.command hup.2 fun fmt _ => ?_
  apply Tells.bind
  refine fetchChunks_tells hup hselected ?_
  exact Tells.send (by trivial) hup.2

theorem openGroup_tells (group : GroupName) (count : UInt64) (token : FetchToken)
    (hlost : link.lost = false) :
    Tells holdings (.openGroup group count token) (fun link _ => link.lost = false) link
      (openGroup w group count token) := by
  apply Tells.bind
  refine Tells.send (by trivial) ?_
  apply Tells.bind
  refine Tells.client_then hlost fun link hup => ?_
  apply Tells.bind
  refine Tells.command hup.2 fun summary hpermits => ?_
  have hname : summary.name = group := of_decide_eq_true hpermits
  apply Tells.bind
  refine Tells.send ?_ ?_
  · intro g c t heq
    cases heq
    exact hname
  · cases summary.range with
    | none => exact Tells.send (by trivial) hup.2
    | some range => exact fetchOverview_tells hup rfl

/-- Afterwards the connection is up and the group is selected on it. -/
theorem ensureSelected_tells {group : GroupName} {good : Link → Unit → Prop}
    (hlost : link.lost = false)
    (hgood : ∀ link : Link, link.Up → link.selected = some group → good link ()) :
    Tells holdings request good link (ensureSelected w group) := by
  apply Tells.bind
  refine Tells.client_then hlost fun link hup => ?_
  apply Tells.bind
  refine Tells.query fun selected link' hr => ?_
  have hr : (if selected = link.selected then some link else none) = some link' := hr
  split at hr
  · next heq =>
      cases hr
      show Tells _ _ _ _ (if selected ≠ some group then _ else _)
      split
      · apply Tells.bind
        refine Tells.client_up hup ?_
        apply Tells.bind
        refine Tells.command hup.2 fun summary _ => ?_
        exact Tells.pure (hgood _ hup rfl)
      · next hsame =>
          exact Tells.pure (hgood link hup (heq.symm.trans (not_not.mp hsame)))
  · cases hr

theorem loadOverview_tells (group : GroupName) (range : Range) (token : FetchToken)
    (hlost : link.lost = false) :
    Tells holdings request (fun link _ => link.lost = false) link
      (loadOverview w group range token) := by
  apply Tells.bind
  exact ensureSelected_tells hlost fun link hup hselected => fetchOverview_tells hup hselected

theorem loadArticle_tells (group : Option GroupName) (spec : ArticleSpec) (hlost : link.lost = false) :
    Tells holdings (.loadArticle group spec) (fun link _ => link.lost = false) link
      (loadArticle w group spec) := by
  have hrest : ∀ link : Link, link.lost = false → (∀ g, group = some g → link.Up ∧ link.selected = some g) →
      Tells holdings (.loadArticle group spec) (fun link _ => link.lost = false) link (do
        send (.progress "fetching the article…".toList)
        client w
        let article ← command (.article spec)
        send (.article article)) := by
    intro link hlost hselected
    apply Tells.bind
    refine Tells.send (by trivial) ?_
    apply Tells.bind
    have hthen : ∀ link : Link, link.lost = false → (∀ g, group = some g → link.selected = some g) →
        Tells holdings (.loadArticle group spec) (fun link _ => link.lost = false) link (do
          let article ← command (.article spec)
          send (.article article)) := by
      intro link hlost hselected
      apply Tells.bind
      refine Tells.command hlost fun article hpermits => Tells.send ?_ hlost
      rintro g n heq
      cases heq
      obtain ⟨hstored, hnumber⟩ := Bool.and_eq_true_iff.mp hpermits
      rw [hselected g rfl] at hstored
      exact ⟨hstored, of_decide_eq_true hnumber⟩
    refine Tells.client hlost ?_
    split
    · exact hthen link hlost fun g hg => (hselected g hg).2
    · next hdown => exact hthen _ rfl fun g hg => absurd (hselected g hg).1.1 hdown
  cases group with
  | none => exact hrest link hlost fun g heq => by cases heq
  | some group =>
      apply Tells.bind
      refine ensureSelected_tells hlost fun link hup hselected => hrest link hup.2 ?_
      rintro g heq
      cases heq
      exact ⟨hup, hselected⟩

theorem post_tells (draft : Draft) (hlost : link.lost = false) :
    Tells holdings request (fun link _ => link.lost = false) link (post w draft) := by
  apply Tells.bind
  refine Tells.send (by trivial) ?_
  apply Tells.bind
  refine Tells.client_then hlost fun link hup => ?_
  apply Tells.bind
  refine Tells.command hup.2 fun text _ => ?_
  exact Tells.send (by trivial) hup.2

theorem perform_tells (hlost : link.lost = false) :
    Tells holdings request (fun link _ => link.lost = false) link (perform w request) := by
  cases request with
  | loadGroups scope => exact loadGroups_tells scope hlost
  | openGroup group count token => exact openGroup_tells group count token hlost
  | loadOverview group range token => exact loadOverview_tells group range token hlost
  | loadArticle group spec => exact loadArticle_tells group spec hlost
  | post draft => exact post_tells draft hlost
  | shutdown => exact Tells.pure hlost

/-- **All events of a request are true**, and the connection is given up if it was lost. -/
theorem dispatch_tells (holdings : Holdings) (w : Worker) (request : Request)
    (hlost : link.lost = false) :
    Work.safe (Link.answer holdings) (fun _ event => Truthful holdings request event)
      (fun link _ => link.lost = false) link (dispatch w request) := by
  apply Work.safe_bind
  refine Work.safe_mono (perform_tells hlost) ?_
  intro link r hr
  cases r with
  | ok a => exact hr
  | error e =>
      show Work.safe _ _ _ _ (report request e)
      unfold report
      split
      · intro _ link' hdiscard
        cases hdiscard
        exact ⟨trivial, rfl⟩
      · refine ⟨trivial, ?_⟩
        split
        · intro _ link' hdiscard
          cases hdiscard
          exact ⟨trivial, rfl⟩
        · next hfatal => exact Bool.eq_false_iff.mpr fun hlost => hfatal (hr hlost)

end Tasks

end Nntp.Tui
