import Nntp.Tui.Ledger

/-!
# Notes about unsent drafts

When a request fails and an article is being posted, a note says that the article was not posted and
where its draft is. Nothing else leads to such a note.
-/

namespace Nntp.Tui

open Nntp.Lib Nntp.Proto Nntp.Client

namespace Request

def isPost : Request → Bool
  | post _ => true
  | _ => false

end Request

namespace Event

def isPosted : Event → Bool
  | posted _ => true
  | _ => false

/-- A request that did not get its answer. -/
def isFailure : Event → Bool
  | failed .. => true
  | cancelled _ => true
  | _ => false

end Event

namespace App

variable {lowercase : Str → Str} {app after : App} {key : Key} {path : Path}

/-- Nothing is said about a draft that was not sent: the messages stay, or one about something else is
added. -/
def Quiet (app after : App) : Prop :=
  after.messages = app.messages ∨
    ∃ message, (∀ path, message ≠ .unsent path) ∧ after.messages = (app.note message).messages

theorem Quiet.unsent (h : app.Quiet after) (hmem : .unsent path ∈ after.messages) :
    .unsent path ∈ app.messages := by
  rcases h with h | ⟨message, hother, h⟩
  · rw [← h]
    exact hmem
  · rw [h] at hmem
    rcases List.mem_cons.mp (List.mem_of_mem_take hmem) with heq | hmem
    · exact absurd heq.symm (hother path)
    · exact hmem

/-! ## Keys -/

theorem filterKey_quiet : app.Quiet (app.filterKey lowercase key) := by
  unfold filterKey
  split <;> exact Or.inl rfl

theorem overlayKey_quiet : app.Quiet (app.overlayKey key) := by
  unfold overlayKey
  split <;> exact Or.inl rfl

theorem moveCursor_quiet (delta : Int) : app.Quiet (app.moveCursor lowercase delta) := by
  unfold moveCursor
  split <;> exact Or.inl rfl

theorem moveToStart_quiet : app.Quiet app.moveToStart := by
  unfold moveToStart
  split <;> exact Or.inl rfl

theorem moveToEnd_quiet : app.Quiet (app.moveToEnd lowercase) := by
  unfold moveToEnd
  split <;> exact Or.inl rfl

theorem toggleFoldUnderCursor_quiet : app.Quiet app.toggleFoldUnderCursor := by
  unfold toggleFoldUnderCursor
  grind [Quiet, clampArticleCursor, toggleFold]

theorem toggleReadUnderCursor_quiet : app.Quiet app.toggleReadUnderCursor := by
  unfold toggleReadUnderCursor
  split <;> exact Or.inl rfl

theorem catchUp_quiet : app.Quiet app.catchUp := by
  unfold catchUp
  grind [Quiet, clampArticleCursor]

theorem escape_quiet : app.Quiet app.escape := by
  unfold escape requestCancellation
  grind [Quiet]

theorem searchGroups_quiet : app.Quiet app.searchGroups.1 := by
  unfold searchGroups
  grind [Quiet]

theorem stepArticle_quiet (delta : Int) : app.Quiet (app.stepArticle delta).1 := by
  unfold stepArticle
  grind [Quiet, loadSelectedArticle]

theorem refresh_quiet : app.Quiet app.refresh.1 := by
  unfold refresh reloadOverview
  grind [Quiet, beginOverviewFetch]

theorem activate_quiet : app.Quiet (app.activate lowercase).1 := by
  unfold activate enterGroup
  grind [Quiet, beginOverviewFetch, clearArticles, loadSelectedArticle, scrollBody]

theorem postingIdentity_quiet {sender : Option Str} (h : app.postingIdentity = (after, sender)) :
    app.Quiet after ∧ (sender ≠ none → after = app) := by
  unfold postingIdentity at h
  split at h
  · cases h
    exact ⟨Or.inl rfl, fun _ => rfl⟩
  · cases h
    exact ⟨Or.inr ⟨.noIdentity, (fun _ heq => by cases heq), rfl⟩, fun hne => absurd rfl hne⟩

theorem startArticle_quiet : app.Quiet app.startArticle := by
  unfold startArticle
  split
  · next h => exact (postingIdentity_quiet h).1
  · next h _ => exact (postingIdentity_quiet h).1
  · next h _ => exact (postingIdentity_quiet h).1

theorem startFollowUp_quiet : app.Quiet app.startFollowUp := by
  unfold startFollowUp
  split
  · next h => exact (postingIdentity_quiet h).1
  · next h _ => exact (postingIdentity_quiet h).1
  · next h _ =>
      cases (postingIdentity_quiet h).2 (Option.some_ne_none _)
      split
      · exact Or.inr ⟨.repliesByMail, (fun _ heq => by cases heq), rfl⟩
      · show app.Quiet (if _ then _ else _)
        split <;> exact Or.inl rfl

theorem charKey_quiet (c : Char) (control : Bool) :
    app.Quiet (app.charKey lowercase c control).1 := by
  unfold charKey
  split
  case h_7 => exact refresh_quiet
  case h_8 | h_9 => exact moveCursor_quiet _
  case h_10 =>
    cases control
    · exact Or.inl rfl
    · exact moveCursor_quiet _
  case h_11 => exact moveToStart_quiet
  case h_12 => exact moveToEnd_quiet
  case h_13 | h_14 => exact stepArticle_quiet _
  case h_15 =>
    cases control
    · exact Or.inl rfl
    · exact moveCursor_quiet _
  case h_16 => exact toggleReadUnderCursor_quiet
  case h_17 => exact catchUp_quiet
  case h_19 => exact toggleFoldUnderCursor_quiet
  case h_20 => exact startArticle_quiet
  case h_21 => exact startFollowUp_quiet
  case h_22 => exact searchGroups_quiet
  all_goals exact Or.inl rfl

/-- No key says that a draft was not sent. -/
theorem onKey_quiet (lowercase : Str → Str) (app : App) (key : Key) :
    app.Quiet (app.onKey lowercase key).1 := by
  unfold onKey
  split
  · exact filterKey_quiet
  · split
    · exact Or.inl rfl
    · split
      · exact overlayKey_quiet
      · exact paneKey_cases (P := fun r => app.Quiet r.1) (fun c => charKey_quiet c _) (Or.inl rfl)
          (fun _ => Or.inl rfl) (fun _ => escape_quiet) (fun _ => activate_quiet)
          (fun delta => moveCursor_quiet delta) moveToStart_quiet moveToEnd_quiet (Or.inl rfl)

/-! ## Events -/

theorem reportUnsentDraft_unsent (h : .unsent path ∈ app.reportUnsentDraft.messages) :
    .unsent path ∈ app.messages ∨ app.posting = some path := by
  unfold reportUnsentDraft at h
  split at h
  · next posting hposting =>
      rcases List.mem_cons.mp (List.mem_of_mem_take h) with heq | hmem
      · cases heq
        exact Or.inr hposting
      · exact Or.inl hmem
  · exact Or.inl h

theorem onPosted_quiet (text : Str) : app.Quiet (app.onPosted text).app := by
  have haccepted : app.Quiet (app.accepted text) :=
    Or.inr ⟨.posted text, (fun _ heq => by cases heq), rfl⟩
  unfold onPosted
  rw [refreshAfterPosting_eq]
  split
  · next h =>
      obtain ⟨group, _, heq⟩ := Option.map_eq_some_iff.mp h
      cases heq
      exact haccepted
  · exact haccepted

theorem onEvent_quiet (event : Event) (hfailure : event.isFailure = false)
    (hlost : event ≠ .disconnected) : app.Quiet (app.onEvent event).app := by
  cases event with
  | connected server greeting encrypted =>
      exact Or.inr ⟨.connected greeting, (fun _ heq => by cases heq), rfl⟩
  | groups rows scope filteredLocally =>
      cases filteredLocally with
      | false => exact Or.inl rfl
      | true => exact Or.inr ⟨.filteredHere, (fun _ heq => by cases heq), rfl⟩
  | groupOpened summary => exact Or.inl rfl
  | overviewChunk group token records skipped =>
      show app.Quiet (app.onOverviewChunk group token records skipped)
      unfold onOverviewChunk
      split
      · left
        show (absorbOverview _ records).messages = _
        unfold absorbOverview
        split <;> rfl
      · exact Or.inl rfl
  | overviewComplete group token =>
      show app.Quiet (app.onOverviewComplete group token)
      unfold onOverviewComplete
      dsimp only
      split
      · split
        · exact Or.inr ⟨.unparsable _ _, (fun _ heq => by cases heq), rfl⟩
        · exact Or.inl rfl
      · split
        · exact Or.inr ⟨.overtaken _, (fun _ heq => by cases heq), rfl⟩
        · exact Or.inr ⟨.movedOn _, (fun _ heq => by cases heq), rfl⟩
  | article article => exact Or.inl rfl
  | posted text => exact onPosted_quiet text
  | progress message => exact Or.inl rfl
  | stopped => exact Or.inr ⟨.stopped, (fun _ heq => by cases heq), rfl⟩
  | cancelled context => cases hfailure
  | failed context error => cases hfailure
  | disconnected => exact absurd rfl hlost

/-- A draft is said to be unsent when something fails, and only the one that is being posted. -/
theorem onEvent_unsent (event : Event) (h : .unsent path ∈ (app.onEvent event).app.messages) :
    .unsent path ∈ app.messages ∨
      app.posting = some path ∧ (event.isFailure = true ∨ event = .disconnected) := by
  by_cases hfailure : event.isFailure = true ∨ event = .disconnected
  · have hreported : .unsent path ∈ app.messages ∨ app.posting = some path := by
      cases event with
      | cancelled context =>
          rcases List.mem_cons.mp (List.mem_of_mem_take h) with heq | hmem
          · cases heq
          · have hreported := reportUnsentDraft_unsent hmem
            exact hreported
      | failed context error =>
          refine (reportUnsentDraft_unsent h).imp_left fun hmem => ?_
          rcases List.mem_cons.mp (List.mem_of_mem_take hmem) with heq | hmem
          · cases heq
          · exact hmem
      | disconnected =>
          refine (reportUnsentDraft_unsent h).imp_left fun hmem => ?_
          rcases List.mem_cons.mp (List.mem_of_mem_take hmem) with heq | hmem
          · cases heq
          · exact hmem
      | _ => exact absurd hfailure (by rintro (hf | hf) <;> cases hf)
    exact hreported.imp_right fun hposting => ⟨hposting, hfailure⟩
  · obtain ⟨hnot, hlost⟩ := not_or.mp hfailure
    exact Or.inl ((onEvent_quiet event (Bool.eq_false_iff.mpr hnot) hlost).unsent h)

/-- A draft that is handed in is not said to be unsent. -/
theorem onComposed_unsent (composed : Option (Str × Path))
    (h : .unsent path ∈ (app.onComposed composed).1.messages) : .unsent path ∈ app.messages := by
  have hproblems : ∀ (problems : List Problem) (app : App),
      .unsent path ∈ (problems.foldl (fun app problem => app.note (.draftProblem problem)) app).messages →
      .unsent path ∈ app.messages := by
    intro problems
    induction problems with
    | nil => exact fun _ h => h
    | cons problem problems ih =>
        intro app h
        rcases List.mem_cons.mp (List.mem_of_mem_take (ih _ h)) with heq | hmem
        · cases heq
        · exact hmem
  unfold onComposed at h
  cases composed with
  | none => exact h
  | some edited =>
      dsimp only at h
      split at h
      · exact h
      · rcases List.mem_cons.mp (List.mem_of_mem_take h) with heq | hmem
        · cases heq
        · exact hproblems _ _ hmem

end App

end Nntp.Tui
