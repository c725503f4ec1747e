import Nntp.Fetching
import Nntp.Retrieval
import Nntp.Tui.Assembly

/-!
# Opening a group

Enter on a group, and what comes of it: the interface asks, the worker has its client select the group at the server
and fetch the overview chunk by chunk, and the events come back to the interface. The list on screen is then what the
server stores.
-/

namespace Nntp.Tui

open Nntp.Lib Nntp.Proto Nntp.Client

/-! ## What the interface makes of the events -/

/-- The interface after some events. -/
def App.observe (app : App) (events : List Event) : App :=
  events.foldl (fun app event => (app.onEvent event).app) app

/-- Whether an event says more than how far the worker is. -/
def Event.tells : Event → Bool
  | .progress _ => false
  | _ => true

namespace App

variable {app : App} {group : GroupName} {token : FetchToken}

theorem observe_append (app : App) (events more : List Event) :
    app.observe (events ++ more) = (app.observe events).observe more :=
  List.foldl_append

/-- How far the worker is makes no difference. -/
theorem observe_telling (app : App) (events : List Event) :
    app.observe events = app.observe (events.filter Event.tells) := by
  induction events generalizing app with
  | nil => rfl
  | cons event events ih =>
      cases event with
      | progress message => exact ih app
      | _ => exact ih _

theorem ledger_observe (app : App) (events : List Event) :
    (app.observe events).ledger = events.foldl Ledger.onEvent app.ledger := by
  induction events generalizing app with
  | nil => rfl
  | cons event events ih =>
      rw [List.foldl_cons, ← (ledger_onEvent app event).1]
      exact ih _

/-- The threads stay those of the records. -/
theorem current_observe {events : List Event} (h : app.listing.Current) : (app.observe events).listing.Current := by
  induction events generalizing app with
  | nil => exact h
  | cons event events ih =>
      have heffect : ListEffect id app _ (.event event) := onEvent_effect event
      exact ih (heffect.current h)

theorem observe_chunks (app : App) (chunks : List (List OverviewRecord)) :
    app.observe (chunks.map fun records => .overviewChunk group token records 0) =
      app.deliver group token (chunks.map fun records => (records, 0)) := by
  unfold observe deliver
  rw [List.foldl_map, List.foldl_map]

/-- Chunks that are taken change nothing but the records. -/
theorem ledger_deliver (chunks : List (List OverviewRecord × Nat)) (h : app.ledger.Accepts group token) :
    (app.deliver group token chunks).ledger =
      { app.ledger with articles := (app.deliver group token chunks).articles } := by
  induction chunks generalizing app with
  | nil => rfl
  | cons chunk chunks ih =>
      have hledger : (app.onEvent (.overviewChunk group token chunk.1 chunk.2)).app.ledger =
          { app.ledger with articles := Ledger.absorb app.articles chunk.1 } :=
        (ledger_onEvent app _).1.trans (if_pos h)
      rw [deliver_cons, ih (by rw [hledger]; exact h), hledger]

/-- No event folds anything, or changes what is left out. -/
theorem onEvent_folds (app : App) (event : Event) :
    (app.onEvent event).app.collapsed = app.collapsed ∧ (app.onEvent event).app.unreadOnly = app.unreadOnly := by
  have hunsent (app : App) : app.reportUnsentDraft.collapsed = app.collapsed ∧
      app.reportUnsentDraft.unreadOnly = app.unreadOnly := by
    unfold reportUnsentDraft
    split <;> exact ⟨rfl, rfl⟩
  cases event with
  | connected _ _ _ | groupOpened _ | progress _ | article _ | stopped => exact ⟨rfl, rfl⟩
  | groups rows scope filteredLocally => cases filteredLocally <;> exact ⟨rfl, rfl⟩
  | overviewChunk group token records skipped =>
      show (app.onOverviewChunk group token records skipped).collapsed = _ ∧
        (app.onOverviewChunk group token records skipped).unreadOnly = _
      unfold onOverviewChunk absorbOverview
      split
      · dsimp only
        split <;> exact ⟨rfl, rfl⟩
      · exact ⟨rfl, rfl⟩
  | overviewComplete group token =>
      show (app.onOverviewComplete group token).collapsed = _ ∧ (app.onOverviewComplete group token).unreadOnly = _
      unfold onOverviewComplete
      dsimp only
      split
      · split <;> exact ⟨rfl, rfl⟩
      · split <;> exact ⟨rfl, rfl⟩
  | posted text =>
      show (app.onPosted text).app.collapsed = _ ∧ (app.onPosted text).app.unreadOnly = _
      unfold onPosted refreshAfterPosting
      split
      · next hrefresh =>
          split at hrefresh
          · cases hrefresh
          · split at hrefresh <;> cases hrefresh
            exact ⟨rfl, rfl⟩
      · exact ⟨rfl, rfl⟩
  | cancelled context => exact hunsent app.answered
  | failed context error => exact hunsent (app.answered.note (.failed context error))
  | disconnected => exact hunsent ({ app with inflight := 0 }.note .disconnected)

theorem observe_folds (app : App) (events : List Event) :
    (app.observe events).collapsed = app.collapsed ∧ (app.observe events).unreadOnly = app.unreadOnly := by
  induction events generalizing app with
  | nil => exact ⟨rfl, rfl⟩
  | cons event events ih =>
      obtain ⟨hcollapsed, hunread⟩ := onEvent_folds app event
      exact ⟨(ih _).1.trans hcollapsed, (ih _).2.trans hunread⟩

/-- The article cursor is on the last row, or at the top of a list without rows. -/
def AtLast (app : App) : Prop := app.articleCursor = app.visibleArticles.length - 1

theorem atLast_empty (hempty : app.articles = []) (hcursor : app.articleCursor = 0) : app.AtLast := by
  have hnone : app.visibleArticles = [] := by
    refine List.eq_nil_iff_forall_not_mem.mpr fun index hindex => ?_
    have hlt := lt_of_mem_visibleArticles hindex
    rw [hempty] at hlt
    exact absurd hlt (Nat.not_lt_zero _)
  unfold AtLast
  rw [hcursor, hnone]
  rfl

theorem AtLast.of_sameList {after : App} (h : app.AtLast) (hsame : SameList app after) : after.AtLast := by
  unfold AtLast
  rw [hsame.cursor, visibleArticles_congr hsame.listing hsame.passes]
  exact h

theorem atLast_at {row : Nat} (h : row = app.visibleArticles.length - 1) : { app with articleCursor := row }.AtLast := by
  unfold AtLast
  rw [visibleArticles_at]
  exact h

/-- **Records that arrive leave the cursor on the newest article.** -/
theorem AtLast.onEvent_chunk (h : app.AtLast) (records : List OverviewRecord) (skipped : Nat) :
    (app.onEvent (.overviewChunk group token records skipped)).app.AtLast := by
  show (app.onOverviewChunk group token records skipped).AtLast
  unfold onOverviewChunk
  split
  · let counted := { app with overviewSkipped := app.overviewSkipped + skipped }
    have hcounted : counted.AtLast := h.of_sameList ⟨rfl, rfl, rfl⟩
    have habsorbed : (counted.absorbOverview records).AtLast := by
      unfold absorbOverview
      split
      · exact hcounted
      · dsimp only
        have hpinned : counted.visibleArticles.length ≤ counted.articleCursor + 1 := by
          rw [hcounted]
          omega
        exact atLast_at (if_pos hpinned)
    exact habsorbed.of_sameList ⟨rfl, rfl, rfl⟩
  · exact h

theorem AtLast.observe_fetched (h : app.AtLast) (chunks : List (List OverviewRecord)) :
    (app.observe ((chunks.map fun records => .overviewChunk group token records 0) ++
      [.overviewComplete group token])).AtLast := by
  rw [observe_append]
  refine AtLast.of_sameList ?_ (onOverviewComplete_sameList group token)
  induction chunks generalizing app with
  | nil => exact h
  | cons chunk chunks ih => exact ih (h.onEvent_chunk chunk 0)

/-- **A fetch into an empty list** fills it with the records of the chunks, in order, and ends. -/
theorem observe_fetched {chunks : List (List OverviewRecord)} {records : List OverviewRecord}
    (haccepts : app.ledger.Accepts group token) (hempty : app.articles = [])
    (hchunks : ∀ chunk ∈ chunks, Ascending chunk) (hrecords : Ascending records)
    (hperm : chunks.flatten.Perm records) :
    (app.observe ((chunks.map fun records => .overviewChunk group token records 0) ++
        [.overviewComplete group token])).ledger =
      { app.ledger.answered with articles := records, overviewToken := none } := by
  have hflat : (chunks.map fun records => (records, 0)).flatMap (·.1) = chunks.flatten := by
    rw [List.flatMap_map]
    exact List.flatMap_id
  have htaken : app.acceptsOverview group token = true := (app.acceptsOverview_iff group token).mpr haccepts
  obtain ⟨hascending, hmem⟩ := deliver_articles (chunks.map fun records => (records, 0)) htaken
    (by rw [hempty]; exact List.Pairwise.nil)
    (List.forall_mem_map.mpr hchunks)
    (by rw [hempty, hflat]; exact (hperm.map _).nodup_iff.mpr hrecords.nodup)
  have harticles : (app.deliver group token (chunks.map fun records => (records, 0))).articles = records := by
    have hsame := (List.perm_ext_iff_of_nodup hascending.nodup.of_map hrecords.nodup.of_map).mpr fun r => by
      rw [hmem, hempty, hflat, hperm.mem_iff]
      simp
    rw [hascending.eq_mergeSort hsame, ← hrecords.eq_mergeSort (List.Perm.refl records)]
  rw [observe_append, observe_chunks, ledger_observe, ledger_deliver _ haccepts, harticles]
  exact if_pos haccepts

end App

end Nntp.Tui

namespace Nntp

open Nntp.Lib Nntp.Proto Nntp.Client Nntp.TestServer

/-! ## What the worker does -/

/-- A task comes to a result, and tells this. -/
abbrev Comes {α : Type} (around : Surroundings) (task : Tui.Task α) (held : Option (Client Loop)) (a : α)
    (after : Option (Client Loop)) (told : List Tui.Event) : Prop :=
  Work.Comes (answerFor around) Tui.Event.tells task held a after told

section Tasks

variable {limits : Limits} {config : ServerConfig} {group : TestServer.Group} {c : Client Loop}
  (around : Surroundings) (w : Tui.Worker) (name : GroupName) (token : Tui.FetchToken)

theorem comes_send (event : Tui.Event) (held : Option (Client Loop)) :
    Comes around (Tui.send event) held () held ([event].filter Tui.Event.tells) := .of_exec (run_send around event held)

theorem comes_client : Comes around (Tui.client w) (some c) () (some c) [] := .of_exec (run_client around w)

/-- What the client does not fail at, the worker does not fail at. -/
theorem comes_command {cmd : Tui.ClientCommand} {α : Type} {x : ClientM Loop α} {value : α → cmd.Value} {a : α}
    {c' : Client Loop} (hperform : performFor around cmd (some c) = withClient x value (some c))
    (h : x.exec c = (.ok a, c')) : Comes around (Tui.command cmd) (some c) (value a) (some c') [] := by
  refine ⟨[], ?_, rfl⟩
  show ((performFor around cmd (some c)).1, (performFor around cmd (some c)).2, []) = _
  rw [hperform]
  show ((x.exec c).1.map value, some (x.exec c).2, []) = _
  rw [h]
  rfl

/-- A request that does not fail. -/
theorem exec_dispatch {request : Tui.Request} {held after : Option (Client Loop)} {told : List Tui.Event}
    (h : Comes around (Tui.perform w request) held () after told) :
    ∃ events, (Tui.dispatch w request).exec (answerFor around) held = ((), after, events) ∧
      events.filter Tui.Event.tells = told := by
  obtain ⟨events, hexec, htold⟩ := h
  refine ⟨events, ?_, htold⟩
  unfold Tui.dispatch
  rw [Work.exec_bind, hexec]
  show ((), after, events ++ []) = _
  rw [List.append_nil]

/-! ### Fetching -/

/-- The records of a chunk. -/
def recordsOfPart (decoders : Decoders) (fmt : OverviewFmt) (group : TestServer.Group) (part : Range) :
    List OverviewRecord :=
  (articlesIn group part).map (recordOf decoders fmt group)

theorem ascending_recordsOfPart (decoders : Decoders) (fmt : OverviewFmt) (group : TestServer.Group) (part : Range) :
    Tui.Ascending (recordsOfPart decoders fmt group part) := by
  refine List.pairwise_map.mpr ((group.articles.sorted.filter _).imp fun hlt => ?_)
  rw [recordOf, recordOf, OverviewRecord.setFields_number, OverviewRecord.setFields_number]
  exact hlt

/-- Plain commands leave the group of the client alone. -/
theorem group_kept {α : Type} {x : ClientM Loop α} (h : Client.Orderly (fun cmd => isPlain cmd = true) Unselecting false x)
    (c : Client Loop) : (x.exec c).2.group = c.group :=
  h.related (R := fun c c' => c'.group = c.group) (fun _ => rfl) (fun h h' => h'.trans h)
    (fun _ c hchange => (hchange c).2) (fun _ _ => rfl) (fun _ _ _ => rfl) (fun _ _ => rfl) c

/-- What is sent of a chunk that was fetched: its records as they are, since they are in order. -/
theorem fetchChunks_comes (fmt : OverviewFmt) (total : Nat) {parts : List Range}
    (hparts : ∀ part ∈ parts, ∃ first last, part = .between first last) (h : Browsing limits config group c)
    (hasks : Asks limits config c) (hlisted : ∀ part ∈ parts, Listed limits config group part) :
    ∃ c', Comes around (Tui.fetchChunks w name token fmt total parts) (some c) () (some c')
        (parts.map fun part => .overviewChunk name token (recordsOfPart around.decoders fmt group part) 0) ∧
      Browsing limits config group c' ∧ c'.group = c.group := by
  induction parts generalizing c with
  | nil => exact ⟨c, ⟨[], rfl, rfl⟩, h, rfl⟩
  | cons part parts ih =>
      obtain ⟨⟨first, last, rfl⟩, hrest⟩ := List.forall_mem_cons.mp hparts
      obtain ⟨hpart, hlisted⟩ := List.forall_mem_cons.mp hlisted
      rcases h.overviewStreaming around.decoders fmt first last with
        ⟨-, results, mid, hexec, rfl, hmid, hasks⟩ | ⟨hnot, -⟩
      · obtain ⟨c', hcomes, hbrowsing, hheld⟩ := ih hrest hmid hasks hlisted
        have hkept : mid.group = c.group := by
          have horderly : Client.Orderly (fun cmd => isPlain cmd = true) Unselecting false
              (Client.overviewStreaming around.decoders (.between first last) fmt : ClientM Loop _) := by
            refine Client.orderly_overviewStreaming around.decoders ?_ ?_ (fun _ _ => ⟨rfl, rfl⟩) fmt
            · rfl
            · rfl
          have hkept := group_kept horderly c
          rw [hexec] at hkept
          exact hkept
        refine ⟨c', ?_, hbrowsing, hheld.trans hkept⟩
        have hrecords : ((((articlesIn group (.between first last)).map fun entry =>
              (.ok (recordOf around.decoders fmt group entry) : Except Str OverviewRecord)).map Except.toOption).filterMap
                id).mergeSort (fun a b => decide (a.number ≤ b.number)) =
            recordsOfPart around.decoders fmt group (.between first last) := by
          rw [filterMap_toOption_ok]
          exact ((ascending_recordsOfPart around.decoders fmt group _).eq_mergeSort (List.Perm.refl _)).symm
        have hskipped : (((articlesIn group (.between first last)).map fun entry =>
              (.ok (recordOf around.decoders fmt group entry) : Except Str OverviewRecord)).map Except.toOption).countP
                Option.isNone = 0 := by
          rw [List.map_map, List.countP_eq_zero]
          exact List.forall_mem_map.mpr fun entry _ => Bool.false_ne_true
        have hchunk : Comes around (do
            Tui.client w
            let lines ← Tui.command (.overviewStreaming (.between first last) fmt)
            let records := (lines.filterMap id).mergeSort fun a b => decide (a.number ≤ b.number)
            Tui.send (.overviewChunk name token records (lines.countP Option.isNone))
            Tui.fetchChunks w name token fmt total parts) (some c) () (some c')
            ((Range.between first last :: parts).map fun part =>
              .overviewChunk name token (recordsOfPart around.decoders fmt group part) 0) := by
          refine (comes_client around w).silent_bind ((comes_command around rfl hexec).silent_bind ?_)
          dsimp only
          rw [hrecords, hskipped]
          exact (comes_send around _ _).bind hcomes
        show Comes around (if 1 < total then _ else _) _ _ _ _
        split
        · exact (comes_send around (.progress _) _).silent_bind hchunk
        · exact hchunk
      · exact absurd ⟨hasks, hpart⟩ hnot

/-- **A range that is fetchable is fetched**: its chunks come newest first, and then the word that it is complete. -/
theorem fetchOverview_comes (h : Browsing limits config group c) {low high : UInt64} (hrange : low ≤ high)
    (hfetchable : Fetchable limits config group c (.between low high) w.overviewChunk) :
    ∃ c', Comes around (Tui.fetchOverview w name (.between low high) token) (some c) () (some c')
        ((((Range.between low high).chunks w.overviewChunk).reverse.map fun part => .overviewChunk name token
          (recordsOfPart around.decoders (layoutOf around.decoders config c) group part) 0) ++
            [.overviewComplete name token]) ∧
      Browsing limits config group c' ∧ c'.group = c.group := by
  have htiles := Range.tiles_chunks w.overviewChunk hrange
  rcases h.overviewFormat around.decoders with ⟨-, fmt, mid, hexec, rfl, hmid, hstyle⟩ | ⟨hnot, -⟩
  · have hkept := group_kept (Client.orderly_overviewFormat permits_plain around.decoders) c
    rw [hexec] at hkept
    obtain ⟨c', hcomes, hafter, hheld⟩ := fetchChunks_comes around w name token (layoutOf around.decoders config c)
      ((Range.between low high).chunks w.overviewChunk).length
      (fun part hpart => htiles.between part (List.mem_reverse.mp hpart)) hmid (hfetchable.asks.of_style hstyle)
      (fun part hpart => hfetchable.listed part (List.mem_reverse.mp hpart))
    refine ⟨c', ?_, hafter, hheld.trans hkept⟩
    refine (comes_client around w).silent_bind ((comes_command around rfl hexec).silent_bind ?_)
    exact hcomes.bind (comes_send around _ _)
  · exact absurd hfetchable.layout hnot

/-! ### Selecting and fetching -/

/-- The range that is fetched of a group that is opened: the newest `count` numbers, if there are any. -/
def newestRange (group : TestServer.Group) (name : GroupName) (count : UInt64) : Option Range :=
  (summaryOf group name).range.map fun bounds => .ofBounds (Tui.newestFrom bounds.1 bounds.2 count) bounds.2

/-- What opening a group needs: the server has it, and its answers are within the client's limits. -/
structure Opens (limits : Limits) (config : ServerConfig) (c : Client Loop) (name : GroupName)
    (group : TestServer.Group) (count chunk : UInt64) : Prop where
  level : Level limits config none c
  admitted : c.connection.stream.session.needsAuth = false
  found : c.connection.stream.session.corpus.find name.asStr = some group
  selection : Reply.Within limits config (selectionReply group)
  fetchable : ∀ range ∈ newestRange group name count, Fetchable limits config group c range chunk

theorem range_between {group : TestServer.Group} (count : UInt64) {low high : UInt64}
    (h : (summaryOf group name).range = some (low, high)) :
    Tui.newestFrom low high count ≤ high ∧
      newestRange group name count = some (.between (Tui.newestFrom low high count) high) := by
  have hle : low ≤ high := by
    unfold GroupSummary.range at h
    split at h
    · cases h
    · next hfilled =>
        cases h
        simp only [GroupSummary.isEmpty, Bool.or_eq_true, decide_eq_true_eq, not_or] at hfilled
        exact not_lt.mp hfilled.2
  have hnewest : Tui.newestFrom low high count ≤ high := by
    refine max_le ?_ hle
    rw [UInt64.le_iff_toNat_le, toNat_saturatingSub]
    exact Nat.sub_le _ _
  refine ⟨hnewest, ?_⟩
  unfold newestRange
  rw [h]
  show some (Range.ofBounds _ _) = _
  rw [Range.ofBounds_of_le hnewest]

/-- The chunks of an opened group, newest first. -/
def chunksOf (decoders : Decoders) (fmt : OverviewFmt) (group : TestServer.Group) (range : Option Range)
    (chunk : UInt64) : List (List OverviewRecord) :=
  (range.toList.flatMap fun range => (range.chunks chunk).reverse).map (recordsOfPart decoders fmt group)

/-- **A group that can be opened is opened**: the worker tells of the selection, then of the chunks, and then that
these were all. -/
theorem openGroup_comes {count : UInt64} (h : Opens limits config c name group count w.overviewChunk) :
    ∃ c', Comes around (Tui.openGroup w name count token) (some c) () (some c')
        (.groupOpened (summaryOf group name) ::
          ((chunksOf around.decoders (layoutOf around.decoders config c) group (newestRange group name count)
            w.overviewChunk).map (fun records => .overviewChunk name token records 0) ++
              [.overviewComplete name token])) ∧
      Browsing limits config group c' ∧ c'.group = some (summaryOf group name) := by
  obtain ⟨mid, hexec, hlevel, hsession, hheld, hfmt, hstyle⟩ := h.level.enter h.admitted h.found h.selection
  have hbrowsing : Browsing limits config group mid := by
    refine ⟨hlevel, ?_, ?_⟩
    · rw [hsession]
      exact selectedGroup_enters h.found
    · rw [hsession]
      exact h.admitted
  have hselected {c' : Client Loop} {told : List Tui.Event}
      (hrest : Comes around ((summaryOf group name).range.elim (Tui.send (.overviewComplete name token)) fun bounds =>
        Tui.fetchOverview w name (Range.ofBounds (Tui.newestFrom bounds.1 bounds.2 count) bounds.2) token)
        (some mid) () (some c') told) :
      Comes around (Tui.openGroup w name count token) (some c) () (some c')
        (.groupOpened (summaryOf group name) :: told) := by
    refine (comes_send around (.progress _) _).silent_bind ((comes_client around w).silent_bind ?_)
    refine (comes_command around rfl hexec).silent_bind ((comes_send around (.groupOpened _) _).bind ?_)
    rw [id_eq]
    cases hrange : (summaryOf group name).range with
    | none =>
        rw [hrange] at hrest
        exact hrest
    | some bounds =>
        rw [hrange] at hrest
        exact hrest
  cases hrange : (summaryOf group name).range with
  | none =>
      have hnone : newestRange group name count = none := by
        unfold newestRange
        rw [hrange]
        rfl
      rw [hnone]
      refine ⟨mid, hselected ?_, hbrowsing, hheld⟩
      rw [hrange, Option.elim_none]
      exact comes_send around _ _
  | some bounds =>
      obtain ⟨low, high⟩ := bounds
      obtain ⟨hle, hnewest⟩ := range_between name count hrange
      have hfetchable := h.fetchable _ hnewest
      have hmid : Fetchable limits config group mid (.between (Tui.newestFrom low high count) high) w.overviewChunk :=
        ⟨fun hnone => hfetchable.layout (hfmt ▸ hnone), hfetchable.asks.of_style hstyle, hfetchable.listed⟩
      have hlayout : layoutOf around.decoders config mid = layoutOf around.decoders config c := by
        unfold layoutOf
        rw [hfmt]
      obtain ⟨c', hcomes, hafter, hkept⟩ := fetchOverview_comes around w name token hbrowsing hle hmid
      rw [hlayout] at hcomes
      refine ⟨c', hselected ?_, hafter, hkept.trans hheld⟩
      rw [hrange, hnewest, Option.elim_some]
      unfold chunksOf
      rw [Range.ofBounds_of_le hle, Option.toList_some, List.flatMap_singleton, List.map_map]
      exact hcomes

end Tasks

/-! ## Enter on a group -/

/-- The articles that an opened group shows. -/
def newest (group : TestServer.Group) (name : GroupName) (count : UInt64) : List (UInt64 × TestServer.Article) :=
  (newestRange group name count).toList.flatMap (articlesIn group)

section Enter

variable {limits : Limits} {config : ServerConfig} {group : TestServer.Group} {c : Client Loop}
  (around : Surroundings) (w : Tui.Worker) {name : GroupName}

/-- The records of an opened group, in the order of their numbers. -/
def newestRecords (decoders : Decoders) (fmt : OverviewFmt) (group : TestServer.Group) (name : GroupName)
    (count : UInt64) : List OverviewRecord :=
  (newest group name count).map (recordOf decoders fmt group)

/-- The chunks together are the records, each once. -/
theorem chunksOf_spec (decoders : Decoders) (fmt : OverviewFmt) (count chunk : UInt64) :
    (∀ records ∈ chunksOf decoders fmt group (newestRange group name count) chunk, Tui.Ascending records) ∧
      Tui.Ascending (newestRecords decoders fmt group name count) ∧
      (chunksOf decoders fmt group (newestRange group name count) chunk).flatten.Perm
        (newestRecords decoders fmt group name count) := by
  refine ⟨List.forall_mem_map.mpr fun part _ => ascending_recordsOfPart decoders fmt group part, ?_⟩
  unfold newestRecords newest chunksOf
  cases hrange : (summaryOf group name).range with
  | none =>
      have hnone : newestRange group name count = none := by
        unfold newestRange
        rw [hrange]
        rfl
      rw [hnone]
      exact ⟨List.Pairwise.nil, List.Perm.refl _⟩
  | some bounds =>
      obtain ⟨low, high⟩ := bounds
      obtain ⟨hle, hnewest⟩ := range_between name count hrange
      have htiles := Range.tiles_chunks chunk hle
      rw [hnewest, Option.toList_some, List.flatMap_singleton, List.flatMap_singleton]
      refine ⟨ascending_recordsOfPart decoders fmt group _, ?_⟩
      have hflat : ((((Range.between (Tui.newestFrom low high count) high).chunks chunk).reverse.map
          (recordsOfPart decoders fmt group)).flatten) =
          (((Range.between (Tui.newestFrom low high count) high).chunks chunk).reverse.flatMap (articlesIn group)).map
            (recordOf decoders fmt group) := by
        rw [← List.flatMap_def, List.map_flatMap]
        rfl
      rw [hflat]
      -- the chunks come newest first
      exact (((List.reverse_perm _).flatMap_right (articlesIn group)).trans
        (htiles.perm_filter Prod.fst group.articles.entries)).map _

/-- The list that a group is entered with is empty, and no request under way is for it. -/
theorem enterGroup_filled (app : Tui.App) {row : Tui.GroupRow} (hfilled : row.isEmpty = false) :
    (app.enterGroup row).2 = [.openGroup row.name app.initialArticles (app.nextToken + 1)] ∧
      (app.enterGroup row).1.ledger = { app.ledger.beginFetch with articles := [] } ∧
      (app.enterGroup row).1.listing = app.listing.cleared ∧ (app.enterGroup row).1.unreadOnly = app.unreadOnly ∧
      (app.enterGroup row).1.articleCursor = 0 := by
  unfold Tui.App.enterGroup
  dsimp only
  rw [if_neg (by rw [hfilled]; exact Bool.false_ne_true)]
  exact ⟨rfl, rfl, rfl, rfl, rfl⟩

end Enter

/-! ### A group with a gap -/

namespace Shelf

/-- What a new client knows of the server's commands. -/
theorem style_withOptions {σ : Type} {connection : Connection σ} {encrypted : Bool} {c : Client σ} [Peer σ]
    (h : Client.withOptions connection encrypted = .ok c) : c.overviewStyle = .unknown ∧ c.capabilities = {} := by
  unfold Client.withOptions at h
  split at h
  · cases h
  · split at h
    · cases h
    · cases h
      exact ⟨rfl, rfl⟩

/-- The group as it was listed. -/
def miscRow : Tui.GroupRow where
  name := Client.miscTest
  low := 1
  high := 3
  status := .permitted
  description := none

/-- An interface with the group under the cursor. -/
def listed : Tui.App := { Tui.App.new Tui.Watched.quietConfig {} with groups := [miscRow] }

/-- A worker that asks for two numbers at a time. -/
def byTwo : Tui.Worker := Fetching.worker 2

/-- The layout of an overview is short. -/
theorem layout_within : Reply.Within .default {} (formatReply {}) := by
  have hlayout : (formatReply {}).block = some layoutLines := rfl
  rw [within_of_block hlayout]
  exact ⟨by decide, ⟨by decide, by decide, by decide, by decide⟩⟩

theorem miscTest_opens {c : Client Loop} (h : Client.withOptions (accepted corpus {} .default) true = .ok c)
    (hlevel : Level .default {} none c) (hadmitted : c.connection.stream.session.needsAuth = false)
    (hgroups : c.connection.stream.session.corpus.groups = corpus.groups) :
    Opens .default {} c Client.miscTest miscTest listed.initialArticles byTwo.overviewChunk := by
  obtain ⟨hstyle, hcapabilities⟩ := style_withOptions h
  have hrange : newestRange miscTest Client.miscTest listed.initialArticles = some (.between 1 3) := by decide +kernel
  have hchunks : (Range.between 1 3).chunks 2 = [.between 1 2, .between 3 3] := by decide +kernel
  refine ⟨hlevel, hadmitted, find_miscTest hgroups, by decide +kernel, fun range hmem => ?_⟩
  rw [hrange] at hmem
  cases hmem
  refine ⟨fun _ => layout_within, ⟨?_, fun _ hrefuses => by cases hrefuses⟩, ?_⟩
  · unfold Client.resolveOverviewStyle
    rw [hstyle, hcapabilities]
    decide
  · show ∀ part ∈ (Range.between 1 3).chunks 2, Listed .default {} miscTest part
    rw [hchunks]
    have hparts : ∀ part ∈ [Range.between 1 2, Range.between 3 3], articlesIn miscTest part ≠ [] ∧
        Reply.Within .default {} (overviewReply miscTest part) := by
      decide +kernel
    exact hparts

end Shelf

end Nntp
