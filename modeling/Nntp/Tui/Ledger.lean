import Nntp.Tui.Keys
import Nntp.Tui.Replies

/-!
# The ledger

Most of the interface is about what is on screen. What decides which fetch, which draft and which request
an answer belongs to is a small part of it, the ledger. It is a machine of its own: an event acts on the
ledger alone (`ledger_onEvent`), and a key press is one of a few ledger steps (`ledger_onKey`).
-/

namespace Nntp.Tui

open Nntp.Lib Nntp.Proto Nntp.Client

/-- What the interface knows about requests under way. -/
structure Ledger where
  group : Option GroupSummary
  articles : List OverviewRecord
  overviewToken : Option FetchToken
  nextToken : Nat
  postingGroups : List Str
  posting : Option Path
  inflight : Nat
  cancel : Bool
  compose : Option ComposeRequest
  shouldQuit : Bool
  initialArticles : UInt64

/-- The ledger of an interface. -/
def App.ledger (app : App) : Ledger where
  group := app.group
  articles := app.articles
  overviewToken := app.overviewToken
  nextToken := app.nextToken
  postingGroups := app.postingGroups
  posting := app.posting
  inflight := app.inflight
  cancel := app.cancel
  compose := app.compose
  shouldQuit := app.shouldQuit
  initialArticles := app.initialArticles

/-- The name of the group on screen if it is among the groups an article went to. -/
def postedTo (group : Option GroupSummary) (groups : List Str) : Option GroupName :=
  match group with
  | none => none
  | some summary => if summary.name.asStr ∈ groups then some summary.name else none

theorem postedTo_eq_some {group : Option GroupSummary} {groups : List Str} {name : GroupName} :
    postedTo group groups = some name ↔
      ∃ summary, group = some summary ∧ summary.name.asStr ∈ groups ∧ name = summary.name := by
  unfold postedTo
  cases group with
  | none => simp
  | some summary => simp [eq_comm]

namespace Ledger

/-! ## Events -/

def answered (l : Ledger) : Ledger := { l with inflight := l.inflight - 1 }

/-- One more request, for a fetch of its own. -/
def beginFetch (l : Ledger) : Ledger :=
  { l with
    inflight := l.inflight + 1
    nextToken := l.nextToken + 1
    overviewToken := some (l.nextToken + 1) }

/-- The fetch on screen is the one with this token, of this group. -/
def Accepts (l : Ledger) (group : GroupName) (token : FetchToken) : Prop :=
  l.overviewToken = some token ∧ l.group.map (·.name) = some group

instance (l : Ledger) (group : GroupName) (token : FetchToken) : Decidable (l.Accepts group token) :=
  inferInstanceAs (Decidable (_ ∧ _))

/-- The records held once more have arrived. -/
def absorb (held records : List OverviewRecord) : List OverviewRecord :=
  if records.isEmpty then held else mergeOverview records held

/-- Nothing is made up in the merge. -/
theorem mem_of_mem_absorb {held records : List OverviewRecord} {record : OverviewRecord}
    (h : record ∈ absorb held records) : record ∈ records ∨ record ∈ held := by
  have hmerged : record ∈ dedupByKey (·.number)
      ((records ++ held).mergeSort fun a b => decide (a.number ≤ b.number)) →
        record ∈ records ∨ record ∈ held := by
    intro hmem
    exact List.mem_append.mp ((List.mergeSort_perm _ _).mem_iff.mp ((dedupByKey_sublist _ _).subset hmem))
  unfold absorb at h
  split at h
  · exact Or.inr h
  · unfold mergeOverview at h
    dsimp only at h
    split at h
    · exact Or.inl h
    · split at h
      · exact List.mem_append.mp h
      · exact hmerged h
    · exact hmerged h

/-- The group that is fetched again when an article has been posted: the one on screen, if the article
went there. -/
def reloads (l : Ledger) : Option GroupName := postedTo l.group l.postingGroups

/-- What an event does to the ledger. -/
def onEvent (l : Ledger) : Event → Ledger
  | .connected .. => l
  | .groups .. => l.answered
  | .groupOpened summary => { l with group := some summary }
  | .overviewChunk group token records _ =>
      if l.Accepts group token then { l with articles := absorb l.articles records } else l
  | .overviewComplete group token =>
      if l.Accepts group token then { l.answered with overviewToken := none } else l.answered
  | .article _ => l.answered
  | .posted _ =>
      let after := { l.answered with posting := none, postingGroups := [] }
      if l.reloads.isSome then after.beginFetch else after
  | .progress _ => l
  | .cancelled _ => { l.answered with posting := none }
  | .failed .. => { l.answered with posting := none }
  | .disconnected => { l with inflight := 0, posting := none }
  | .stopped => { l with inflight := 0 }

/-- What no event touches: the flag, the composing session, whether to quit. -/
theorem onEvent_frame (l : Ledger) (event : Event) : (l.onEvent event).cancel = l.cancel ∧
    (l.onEvent event).compose = l.compose ∧ (l.onEvent event).shouldQuit = l.shouldQuit ∧
    (l.onEvent event).initialArticles = l.initialArticles := by
  cases event with
  | overviewChunk group token records skipped =>
      unfold onEvent
      dsimp only
      split <;> exact ⟨rfl, rfl, rfl, rfl⟩
  | overviewComplete group token =>
      unfold onEvent
      dsimp only
      split <;> exact ⟨rfl, rfl, rfl, rfl⟩
  | posted text =>
      unfold onEvent
      dsimp only
      split <;> exact ⟨rfl, rfl, rfl, rfl⟩
  | _ => exact ⟨rfl, rfl, rfl, rfl⟩

/-- The requests an event leads to: only an accepted posting leads to one. -/
def requests (l : Ledger) : Event → List Request
  | .posted _ =>
      (l.reloads.map fun group => .openGroup group l.initialArticles (l.nextToken + 1)).toList
  | _ => []

/-- The draft an event discards. -/
def discarded (l : Ledger) : Event → Option Path
  | .posted _ => l.posting
  | _ => none

end Ledger

namespace App

theorem ledger_absorbOverview (app : App) (records : List OverviewRecord) :
    (app.absorbOverview records).ledger =
      { app.ledger with articles := Ledger.absorb app.articles records } := by
  unfold absorbOverview Ledger.absorb
  split
  · rfl
  · rfl

theorem ledger_reportUnsentDraft (app : App) :
    app.reportUnsentDraft.ledger = { app.ledger with posting := none } := by
  unfold reportUnsentDraft
  split
  · rfl
  · next h =>
      show app.ledger = _
      rw [← h]
      rfl

theorem acceptsOverview_iff (app : App) (group : GroupName) (token : FetchToken) :
    app.acceptsOverview group token = true ↔ app.ledger.Accepts group token := by
  unfold acceptsOverview Ledger.Accepts
  rw [Bool.and_eq_true, decide_eq_true_eq, decide_eq_true_eq]
  rfl

theorem ledger_onOverviewChunk (app : App) (group : GroupName) (token : FetchToken)
    (records : List OverviewRecord) (skipped : Nat) :
    (app.onOverviewChunk group token records skipped).ledger =
      app.ledger.onEvent (.overviewChunk group token records skipped) := by
  show _ = if app.ledger.Accepts group token then _ else app.ledger
  unfold onOverviewChunk
  by_cases h : app.ledger.Accepts group token
  · rw [if_pos h, if_pos ((acceptsOverview_iff ..).mpr h)]
    exact ledger_absorbOverview _ records
  · rw [if_neg h, if_neg (mt (acceptsOverview_iff ..).mp h)]

theorem ledger_onOverviewComplete (app : App) (group : GroupName) (token : FetchToken) :
    (app.onOverviewComplete group token).ledger =
      app.ledger.onEvent (.overviewComplete group token) := by
  have haccepts : app.answered.acceptsOverview group token = true ↔ app.ledger.Accepts group token :=
    acceptsOverview_iff app group token
  show _ = if app.ledger.Accepts group token then _ else app.ledger.answered
  unfold onOverviewComplete
  by_cases h : app.ledger.Accepts group token
  · rw [if_pos h, if_pos (haccepts.mpr h)]
    split <;> rfl
  · rw [if_neg h, if_neg (mt haccepts.mp h)]
    split <;> rfl

theorem refreshAfterPosting_eq (app : App) (groups : List Str) :
    app.refreshAfterPosting groups = (postedTo app.group groups).map fun group =>
      ({ app with inflight := app.inflight + 1 }.beginOverviewFetch,
        .openGroup group app.initialArticles (app.nextToken + 1)) := by
  unfold refreshAfterPosting postedTo
  cases app.group with
  | none => rfl
  | some summary =>
      show (if _ then _ else _) = Option.map _ (if _ then _ else _)
      split <;> rfl

theorem ledger_onPosted (app : App) (text : Str) :
    (app.onPosted text).app.ledger = app.ledger.onEvent (.posted text) ∧
      (app.onPosted text).requests = app.ledger.requests (.posted text) ∧
      (app.onPosted text).discarded = app.ledger.discarded (.posted text) := by
  have hreloads : postedTo (app.accepted text).group app.postingGroups = app.ledger.reloads := rfl
  unfold onPosted Ledger.onEvent Ledger.requests Ledger.discarded
  rw [refreshAfterPosting_eq, hreloads]
  cases app.ledger.reloads with
  | none => exact ⟨rfl, rfl, rfl⟩
  | some group => exact ⟨rfl, rfl, rfl⟩

/-- **An event acts on the ledger alone**, and so do the requests and the discarded draft it leads to. -/
theorem ledger_onEvent (app : App) (event : Event) :
    (app.onEvent event).app.ledger = app.ledger.onEvent event ∧
      (app.onEvent event).requests = app.ledger.requests event ∧
      (app.onEvent event).discarded = app.ledger.discarded event := by
  cases event with
  | connected server greeting encrypted => exact ⟨rfl, rfl, rfl⟩
  | groups rows scope filteredLocally => cases filteredLocally <;> exact ⟨rfl, rfl, rfl⟩
  | groupOpened summary => exact ⟨rfl, rfl, rfl⟩
  | overviewChunk group token records skipped =>
      exact ⟨ledger_onOverviewChunk app group token records skipped, rfl, rfl⟩
  | overviewComplete group token => exact ⟨ledger_onOverviewComplete app group token, rfl, rfl⟩
  | article article => exact ⟨rfl, rfl, rfl⟩
  | posted text => exact ledger_onPosted app text
  | progress message => exact ⟨rfl, rfl, rfl⟩
  | cancelled context => exact ⟨ledger_reportUnsentDraft app.answered, rfl, rfl⟩
  | failed context error =>
      exact ⟨ledger_reportUnsentDraft (app.answered.note (.failed context error)), rfl, rfl⟩
  | disconnected => exact ⟨ledger_reportUnsentDraft _, rfl, rfl⟩
  | stopped => exact ⟨rfl, rfl, rfl⟩

end App

/-! ## Keys -/

/-- The group that is entered by a key press: Enter in the group pane, with nothing in between. -/
def App.entered (lowercase : Str → Str) (app : App) (key : Key) : Option GroupRow :=
  if app.editingFilter = false ∧ app.overlay = .none ∧ key.code = .enter ∧ app.focus = .groups then
    app.selectedGroup lowercase
  else none

/-- Whether a key press asks the worker to abandon what it is reading: Esc, with nothing in between,
while something is outstanding. -/
def App.cancels (app : App) (key : Key) : Prop :=
  app.editingFilter = false ∧ app.overlay = .none ∧ key.code = .esc ∧ 0 < app.inflight

instance (app : App) (key : Key) : Decidable (app.cancels key) :=
  inferInstanceAs (Decidable (_ ∧ _ ∧ _ ∧ _))

/-- What a key press can be to the ledger. -/
inductive KeyOutcome (lowercase : Str → Str) (app : App) (key : Key) (after : Ledger) :
    List Request → Prop where
  /-- it changes what is on screen and nothing else -/
  | screen (h : after = app.ledger) : KeyOutcome lowercase app key after []
  | cancel (hcancels : app.cancels key) (h : after = { app.ledger with cancel := true }) :
      KeyOutcome lowercase app key after []
  | quit (h : after = { app.ledger with shouldQuit := true }) :
      KeyOutcome lowercase app key after [.shutdown]
  | groups (scope : GroupScope) (h : after = { app.ledger with inflight := app.inflight + 1 }) :
      KeyOutcome lowercase app key after [.loadGroups scope]
  /-- the article under the cursor -/
  | article (summary : GroupSummary) (record : OverviewRecord) (hgroup : app.group = some summary)
      (hheld : record ∈ app.articles) (h : after = { app.ledger with inflight := app.inflight + 1 }) :
      KeyOutcome lowercase app key after [.loadArticle (some summary.name) (.number record.number)]
  /-- Enter on an empty group -/
  | clear (group : GroupRow) (hentered : app.entered lowercase key = some group)
      (hempty : group.isEmpty = true)
      (h : after = { app.ledger with articles := [] }) : KeyOutcome lowercase app key after []
  | enter (group : GroupRow) (hentered : app.entered lowercase key = some group)
      (hempty : group.isEmpty = false)
      (h : after = { app.ledger with articles := [] }.beginFetch) :
      KeyOutcome lowercase app key after
        [.openGroup group.name app.initialArticles (app.nextToken + 1)]
  | reload (group : GroupName) (range : Range) (h : after = app.ledger.beginFetch) :
      KeyOutcome lowercase app key after [.loadOverview group range (app.nextToken + 1)]
  | compose (request : ComposeRequest) (h : after = { app.ledger with compose := some request }) :
      KeyOutcome lowercase app key after []

namespace App

variable {lowercase : Str → Str} {app : App} {key : Key}

theorem ledger_moveCursor (delta : Int) : (app.moveCursor lowercase delta).ledger = app.ledger := by
  unfold moveCursor
  split <;> rfl

theorem ledger_moveToStart : app.moveToStart.ledger = app.ledger := by
  unfold moveToStart
  split <;> rfl

theorem ledger_moveToEnd : (app.moveToEnd lowercase).ledger = app.ledger := by
  unfold moveToEnd
  split <;> rfl

theorem ledger_filterKey : (app.filterKey lowercase key).ledger = app.ledger := by
  unfold filterKey
  split <;> rfl

theorem ledger_overlayKey : (app.overlayKey key).ledger = app.ledger := by
  unfold overlayKey
  split <;> rfl

theorem ledger_toggleFoldUnderCursor : app.toggleFoldUnderCursor.ledger = app.ledger := by
  unfold toggleFoldUnderCursor
  split
  · rfl
  · split
    · rfl
    · split
      · rfl
      · split <;> rfl

theorem ledger_toggleReadUnderCursor : app.toggleReadUnderCursor.ledger = app.ledger := by
  unfold toggleReadUnderCursor
  split <;> rfl

theorem ledger_catchUp : app.catchUp.ledger = app.ledger := by
  unfold catchUp
  split
  · rfl
  · split <;> rfl

theorem ledger_postingIdentity {after : App} {sender : Option Str}
    (h : app.postingIdentity = (after, sender)) : after.ledger = app.ledger := by
  unfold postingIdentity at h
  split at h
  · cases h
    rfl
  · cases h
    rfl

/-- Starting an article, or a follow-up, leaves at most a composing session behind. -/
def Composes (app after : App) : Prop :=
  after.ledger = app.ledger ∨ ∃ request, after.ledger = { app.ledger with compose := some request }

theorem startArticle_composes : app.Composes app.startArticle := by
  unfold startArticle
  split
  · next h => exact Or.inl (ledger_postingIdentity h)
  · next h _ => exact Or.inl (ledger_postingIdentity h)
  · next h _ => exact Or.inr ⟨_, by rw [← ledger_postingIdentity h]; rfl⟩

theorem startFollowUp_composes : app.Composes app.startFollowUp := by
  unfold startFollowUp
  split
  · next h => exact Or.inl (ledger_postingIdentity h)
  · next h _ => exact Or.inl (ledger_postingIdentity h)
  · next h _ =>
      have hidentity := ledger_postingIdentity h
      split
      · exact Or.inl hidentity
      · show app.Composes (if _ then _ else _)
        split
        · exact Or.inl hidentity
        · exact Or.inr ⟨_, by rw [← hidentity]; rfl⟩

end App

/-! ### The outcomes of the bindings -/

namespace KeyOutcome

variable {lowercase : Str → Str} {app : App} {key : Key}

theorem of_composes {after : App} (h : app.Composes after) :
    KeyOutcome lowercase app key after.ledger [] := by
  rcases h with h | ⟨request, h⟩
  · exact .screen h
  · exact .compose request h

theorem of_searchGroups :
    KeyOutcome lowercase app key app.searchGroups.1.ledger app.searchGroups.2 := by
  unfold App.searchGroups
  show KeyOutcome _ _ _ (if _ then _ else _ : App × List Request).1.ledger
    (if _ then _ else _ : App × List Request).2
  split
  · exact .groups _ rfl
  · split
    · exact .groups _ rfl
    · exact .screen rfl

theorem of_escape (hfilter : app.editingFilter = false) (hoverlay : app.overlay = .none)
    (hkey : key.code = .esc) : KeyOutcome lowercase app key app.escape.ledger [] := by
  unfold App.escape
  split
  · next h =>
      refine .cancel ⟨hfilter, hoverlay, hkey, h⟩ ?_
      unfold App.requestCancellation
      rw [if_neg (Nat.pos_iff_ne_zero.mp h)]
      rfl
  · split <;> exact .screen rfl

/-- Loading the article under the cursor, which may have moved. -/
theorem of_loadSelectedArticle {moved : App} (h : moved.ledger = app.ledger) :
    KeyOutcome lowercase app key moved.loadSelectedArticle.1.ledger moved.loadSelectedArticle.2 := by
  have hinflight : moved.inflight = app.inflight := congrArg Ledger.inflight h
  unfold App.loadSelectedArticle
  split
  · next record summary hrecord hgroup =>
      obtain ⟨index, _, hindex⟩ := Option.bind_eq_some_iff.mp hrecord
      have harticles : moved.articles = app.articles := congrArg Ledger.articles h
      have hheld : record ∈ moved.articles := List.mem_of_getElem? hindex
      rw [harticles] at hheld
      refine .article summary record ((congrArg Ledger.group h).symm.trans hgroup) hheld ?_
      rw [← h, ← hinflight]
      rfl
  · exact .screen h

theorem of_stepArticle (delta : Int) :
    KeyOutcome lowercase app key (app.stepArticle delta).1.ledger (app.stepArticle delta).2 := by
  unfold App.stepArticle
  show KeyOutcome _ _ _ (if _ then _ else _ : App × List Request).1.ledger
    (if _ then _ else _ : App × List Request).2
  split
  · exact .screen rfl
  · exact of_loadSelectedArticle rfl

theorem of_refresh : KeyOutcome lowercase app key app.refresh.1.ledger app.refresh.2 := by
  unfold App.refresh
  split
  · exact .groups _ rfl
  · unfold App.reloadOverview
    split
    · exact .screen rfl
    · exact .reload _ _ rfl
  · exact .screen rfl

theorem of_enterGroup {group : GroupRow} (h : app.entered lowercase key = some group) :
    KeyOutcome lowercase app key (app.enterGroup group).1.ledger (app.enterGroup group).2 := by
  unfold App.enterGroup
  show KeyOutcome _ _ _ (if _ then _ else _ : App × List Request).1.ledger
    (if _ then _ else _ : App × List Request).2
  split
  · next hempty => exact .clear group h hempty rfl
  · next hempty => exact .enter group h (Bool.eq_false_iff.mpr hempty) rfl

theorem of_activate (hentered : app.focus = .groups → app.entered lowercase key = app.selectedGroup lowercase) :
    KeyOutcome lowercase app key (app.activate lowercase).1.ledger (app.activate lowercase).2 := by
  unfold App.activate
  split
  · next hfocus =>
      split
      · next group hgroup => exact of_enterGroup ((hentered hfocus).trans hgroup)
      · exact .screen rfl
  · exact of_loadSelectedArticle rfl
  · exact .screen rfl

theorem of_charKey (c : Char) (control : Bool) :
    KeyOutcome lowercase app key (app.charKey lowercase c control).1.ledger
      (app.charKey lowercase c control).2 := by
  unfold App.charKey
  split
  case h_1 => exact .quit rfl
  case h_7 => exact of_refresh
  case h_8 | h_9 => exact .screen (App.ledger_moveCursor _)
  case h_10 =>
    refine .screen ?_
    split
    · exact App.ledger_moveCursor _
    · rfl
  case h_11 => exact .screen App.ledger_moveToStart
  case h_12 => exact .screen App.ledger_moveToEnd
  case h_13 | h_14 => exact of_stepArticle _
  case h_15 =>
    refine .screen ?_
    split
    · exact App.ledger_moveCursor _
    · rfl
  case h_16 => exact .screen App.ledger_toggleReadUnderCursor
  case h_17 => exact .screen App.ledger_catchUp
  case h_19 => exact .screen App.ledger_toggleFoldUnderCursor
  case h_20 => exact of_composes App.startArticle_composes
  case h_21 => exact of_composes App.startFollowUp_composes
  case h_22 => exact of_searchGroups
  all_goals exact .screen rfl

end KeyOutcome

open KeyOutcome in
theorem ledger_paneKey {lowercase : Str → Str} {app : App} {key : Key}
    (hfilter : app.editingFilter = false) (hoverlay : app.overlay = .none) :
    KeyOutcome lowercase app key (app.paneKey lowercase key).1.ledger (app.paneKey lowercase key).2 := by
  refine App.paneKey_cases (P := fun r => KeyOutcome lowercase app key r.1.ledger r.2) (fun c => of_charKey c _)
    (.screen rfl) (fun _ => .screen rfl) (of_escape hfilter hoverlay) (fun hkey => ?_)
    (fun delta => .screen (App.ledger_moveCursor delta)) (.screen App.ledger_moveToStart)
    (.screen App.ledger_moveToEnd) (.screen rfl)
  apply of_activate
  intro hfocus
  exact if_pos ⟨hfilter, hoverlay, hkey, hfocus⟩

/-- **A key press is one of a few ledger steps.** -/
theorem ledger_onKey (lowercase : Str → Str) (app : App) (key : Key) :
    KeyOutcome lowercase app key (app.onKey lowercase key).1.ledger (app.onKey lowercase key).2 := by
  unfold App.onKey
  split
  · exact .screen App.ledger_filterKey
  · next hfilter =>
      split
      · exact .quit rfl
      · split
        · exact .screen App.ledger_overlayKey
        · next hoverlay =>
            exact ledger_paneKey (Bool.eq_false_iff.mpr hfilter) (not_not.mp hoverlay)

/-- The only key that quits is one that asks the worker to stop, and it starts no draft. -/
theorem KeyOutcome.quits {lowercase : Str → Str} {app : App} {key : Key} {after : Ledger}
    {requests : List Request} (h : KeyOutcome lowercase app key after requests)
    (hquit : app.shouldQuit = false) (hcompose : app.compose = none) :
    (after.shouldQuit = false ∧ .shutdown ∉ requests) ∨
      (after.shouldQuit = true ∧ after.compose = none) := by
  cases h with
  | quit h =>
      rw [h]
      exact Or.inr ⟨rfl, hcompose⟩
  | screen h | cancel _ h | clear _ _ _ h | compose _ h =>
      rw [h]
      exact Or.inl ⟨hquit, List.not_mem_nil⟩
  | groups _ h | article _ _ _ _ h | enter _ _ _ h | reload _ _ h =>
      rw [h]
      refine Or.inl ⟨hquit, ?_⟩
      intro hmem
      cases List.mem_singleton.mp hmem

/-! ## Drafts -/

theorem ledger_reportProblems (app : App) (problems : List Problem) (path : Path) :
    (app.reportProblems problems path).ledger = app.ledger := by
  show (problems.foldl _ app).ledger = app.ledger
  induction problems generalizing app with
  | nil => rfl
  | cons problem problems ih => exact ih (app.note (.draftProblem problem))

/-- **What comes back from the editor** is posted, or leaves the ledger alone. -/
theorem ledger_onComposed (app : App) (composed : Option (Str × Path)) :
    ((app.onComposed composed).1.ledger = app.ledger ∧ (app.onComposed composed).2 = none) ∨
      ∃ text path, composed = some (text, path) ∧
        (app.onComposed composed).1.ledger = { app.ledger with
          posting := some path, postingGroups := (Draft.parse text).newsgroups
          inflight := app.inflight + 1 } ∧
        (app.onComposed composed).2 = some (.post (Draft.parse text)) := by
  unfold App.onComposed
  cases composed with
  | none => exact Or.inl ⟨rfl, rfl⟩
  | some edited =>
      obtain ⟨text, path⟩ := edited
      dsimp only
      split
      · exact Or.inr ⟨text, path, rfl, rfl, rfl⟩
      · exact Or.inl ⟨ledger_reportProblems app _ path, rfl⟩

end Nntp.Tui
