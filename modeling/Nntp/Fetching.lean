import Nntp.OverviewExchange
import Nntp.Conversation
import Nntp.Tui.Replies

/-!
# Fetching in chunks

The worker with its client at the server: a range is fetched chunk by chunk, newest first. Where every chunk has an
article in it, the records that are sent on are those of the whole range; a chunk without one fails the fetch, though
the range has articles.
-/

namespace Nntp

open Nntp.Lib Nntp.Proto Nntp.Client Nntp.TestServer

/-! ## The worker's client -/

/-- The worker's client does something. -/
def withClient {α β : Type} (x : ClientM Loop α) (value : α → β) :
    Option (Client Loop) → Except ClientError β × Option (Client Loop)
  | none => (.error (.connectionClosed (some "a connection that vanished")), none)
  | some c => ((x.exec c).1.map value, some (x.exec c).2)

/-- What the worker's surroundings bring in: what a connection comes to, and what is decoded. -/
structure Surroundings where
  dial : Except ClientError (Client Loop)
  decoders : Decoders
  base64 : Bytes → Str
  /-- an article, as the reader sees it -/
  decoded : ReceivedArticle → Proto.Article

/-- What the worker has its client do. -/
def performFor (around : Surroundings) : (cmd : Tui.ClientCommand) → Option (Client Loop) →
    Except ClientError cmd.Value × Option (Client Loop)
  | .connect, held =>
      match around.dial with
      | .ok c => (.ok (c.greeting.text, c.encrypted), some c)
      | .error e => (.error e, held)
  | .selectGroup group, held => withClient (Client.selectGroup group) id held
  | .listGroups pattern, held => withClient (Client.listGroups around.decoders pattern) (·.entries) held
  | .listGroupDescriptions pattern, held =>
      withClient (Client.listGroupDescriptions around.decoders pattern)
        (fun result => result.entries.map fun entry => (entry.name, entry.description)) held
  | .overviewFormat, held => withClient (Client.overviewFormat around.decoders) id held
  | .overviewStreaming range fmt, held =>
      withClient (Client.overviewStreaming around.decoders range fmt) (·.map Except.toOption) held
  | .article spec, held => withClient (Client.article spec) around.decoded held
  | .post draft, held => withClient (Client.post around.base64 draft) id held

/-- What the worker's questions come to. -/
def answerFor (around : Surroundings) : (op : Tui.ClientOp) → Option (Client Loop) →
    op.Answer × Option (Client Loop)
  | .query .isConnected, held => (held.isSome, held)
  | .query .discard, _ => ((), none)
  | .query .selectedGroup, held => ((held.bind (·.group)).map (·.name), held)
  | .command cmd, held => performFor around cmd held

/-- The run of a task: its outcome, the client it leaves, and the events it sends. -/
def runTask {α : Type} (around : Surroundings) (task : Tui.Task α) (held : Option (Client Loop)) :
    Except ClientError α × Option (Client Loop) × List Tui.Event :=
  task.run.exec (answerFor around) held

section Tasks

variable {limits : Limits} {config : ServerConfig} {group : TestServer.Group} {c : Client Loop}
  (around : Surroundings) (w : Tui.Worker) (name : GroupName) (token : Tui.FetchToken)

/-- What the client decides, the worker's command decides. -/
theorem decides_command {cmd : Tui.ClientCommand} {α : Type} {x : ClientM Loop α} {value : α → cmd.Value}
    (hperform : performFor around cmd (some c) = withClient x value (some c)) {condition : Prop}
    {good : α → Client Loop → Prop} (h : Fallible.Decides x c condition good) :
    Work.Decides (answerFor around) (Tui.command cmd) (some c) condition fun v after events =>
      events = [] ∧ ∃ a c', v = value a ∧ after = some c' ∧ good a c' := by
  have hrun : (Tui.command cmd).run.exec (answerFor around) (some c) =
      ((x.exec c).1.map value, some (x.exec c).2, []) := by
    show ((performFor around cmd (some c)).1, (performFor around cmd (some c)).2, []) = _
    rw [hperform]
    rfl
  rcases h with ⟨hcondition, a, c', hexec, hgood⟩ | ⟨hcondition, e, c', hexec⟩
  · rw [hexec] at hrun
    exact .of_ok hrun hcondition ⟨rfl, a, c', rfl, rfl, hgood⟩
  · rw [hexec] at hrun
    exact Or.inr ⟨hcondition, e, some c', [], hrun⟩

/-- A client that is there is not connected again. -/
theorem run_client : (Tui.client w).run.exec (answerFor around) (some c) = (.ok (), some c, []) := rfl

theorem run_send (event : Tui.Event) (held : Option (Client Loop)) :
    (Tui.send event).run.exec (answerFor around) held = (.ok (), held, [event]) := rfl

/-! ## What is sent -/

/-- The records an event brings. -/
def recordsOf : Tui.Event → List OverviewRecord
  | .overviewChunk _ _ records _ => records
  | _ => []

/-- The records of the articles in some ranges. -/
def recordsIn (decoders : Decoders) (fmt : OverviewFmt) (group : TestServer.Group) (parts : List Range) :
    List OverviewRecord :=
  (parts.flatMap (articlesIn group)).map (recordOf decoders fmt group)

theorem filterMap_toOption_ok {ε α β : Type} (f : α → β) (entries : List α) :
    ((entries.map fun e => (.ok (f e) : Except ε β)).map Except.toOption).filterMap id = entries.map f := by
  rw [List.map_map, List.filterMap_map]
  exact congrFun List.filterMap_eq_map entries

/-- The loop over the chunks fetches each of them, or fails at the first that is not handed over. -/
theorem fetchChunks_decides (fmt : OverviewFmt) (total : Nat) {parts : List Range}
    (hparts : ∀ part ∈ parts, ∃ first last, part = .between first last) (h : Browsing limits config group c) :
    Work.Decides (answerFor around) (Tui.fetchChunks w name token fmt total parts) (some c)
      (∀ part ∈ parts, Asks limits config c ∧ Listed limits config group part) fun _ _ events =>
        (events.flatMap recordsOf).Perm (recordsIn around.decoders fmt group parts) := by
  induction parts generalizing c with
  | nil =>
      have hrun : (Tui.fetchChunks w name token fmt total []).run.exec (answerFor around) (some c) =
          (.ok (), some c, []) := rfl
      exact .of_ok hrun (fun _ hpart => absurd hpart List.not_mem_nil) (List.Perm.refl [])
  | cons part parts ih =>
      obtain ⟨⟨first, last, rfl⟩, hrest⟩ := List.forall_mem_cons.mp hparts
      have hchunk : Work.Decides (answerFor around) (do
          Tui.client w
          let lines ← Tui.command (.overviewStreaming (.between first last) fmt)
          let records := (lines.filterMap id).mergeSort fun a b => decide (a.number ≤ b.number)
          Tui.send (.overviewChunk name token records (lines.countP Option.isNone))
          Tui.fetchChunks w name token fmt total parts) (some c)
          (∀ part ∈ Range.between first last :: parts, Asks limits config c ∧ Listed limits config group part)
          fun _ _ events =>
            (events.flatMap recordsOf).Perm
              (recordsIn around.decoders fmt group (.between first last :: parts)) := by
        refine .ok_bind (run_client around w) ?_
        rw [List.forall_mem_cons]
        refine (decides_command around rfl (h.overviewStreaming around.decoders fmt first last)).bind ?_
        rintro lines mid events ⟨hasks, -⟩ ⟨rfl, results, c', rfl, rfl, rfl, hc, hasks'⟩
        refine .ok_bind (run_send around _ _) ?_
        have hasked : ∀ part, Asks limits config c' ∧ Listed limits config group part ↔
            Asks limits config c ∧ Listed limits config group part :=
          fun part => and_congr_left' (iff_of_true hasks' hasks)
        refine ((ih hrest hc).congr (forall₂_congr fun part _ => hasked part)).mono ?_
        intro _ after more hmore
        unfold recordsIn
        rw [List.flatMap_cons, List.map_append]
        rw [filterMap_toOption_ok]
        have hsorted := List.mergeSort_perm ((articlesIn group (.between first last)).map
          (recordOf around.decoders fmt group)) fun a b => decide (a.number ≤ b.number)
        exact hsorted.append hmore
      show Work.Decides _ (if 1 < total then _ else _) _ _ _
      split
      · exact .ok_bind (run_send around _ _) hchunk
      · exact hchunk

/-- What the fetch of a range needs: an article in every chunk, and answers within the client's limits to a client
that has a command to ask with. -/
structure Fetchable (limits : Limits) (config : ServerConfig) (group : TestServer.Group) (c : Client Loop)
    (range : Range) (chunk : UInt64) : Prop where
  layout : c.overviewFmt = none → Reply.Within limits config (formatReply config)
  asks : Asks limits config c
  listed : ∀ part ∈ range.chunks chunk, Listed limits config group part

/-- **A fetch is whole**: it ends with the word that it is complete, and the records it brings are those of the
articles in the range, each once. -/
structure FetchedWhole (decoders : Decoders) (fmt : OverviewFmt) (group : TestServer.Group) (name : GroupName)
    (token : Tui.FetchToken) (range : Range) (events : List Tui.Event) : Prop where
  complete : events.getLast? = some (.overviewComplete name token)
  records : (events.flatMap recordsOf).Perm ((articlesIn group range).map (recordOf decoders fmt group))
  once : ((events.flatMap recordsOf).map (·.number)).Nodup

/-- The records of a range have its numbers, each once. -/
theorem nodup_records (decoders : Decoders) (fmt : OverviewFmt) (group : TestServer.Group) (range : Range) :
    (((articlesIn group range).map (recordOf decoders fmt group)).map (·.number)).Nodup := by
  have hnumber : (·.number) ∘ recordOf decoders fmt group = Prod.fst := by
    funext entry
    exact OverviewRecord.setFields_number ..
  rw [List.map_map, hnumber]
  exact List.pairwise_map.mpr ((group.articles.sorted.filter _).imp fun hlt => ne_of_lt hlt)

/-- The worker fetches a range that is fetchable, and fails at one that is not. -/
theorem fetchOverview_decides (h : Browsing limits config group c) {low high : UInt64} (hrange : low ≤ high) :
    Work.Decides (answerFor around) (Tui.fetchOverview w name (.between low high) token) (some c)
      (Fetchable limits config group c (.between low high) w.overviewChunk) fun _ _ events =>
        FetchedWhole around.decoders (layoutOf around.decoders config c) group name token (.between low high) events := by
  have htiles := Range.tiles_chunks w.overviewChunk hrange
  have hparts : ∀ part ∈ ((Range.between low high).chunks w.overviewChunk).reverse,
      ∃ first last, part = .between first last :=
    fun part hpart => htiles.between part (List.mem_reverse.mp hpart)
  have hcondition : Fetchable limits config group c (.between low high) w.overviewChunk ↔
      (c.overviewFmt = none → Reply.Within limits config (formatReply config)) ∧
        ∀ part ∈ ((Range.between low high).chunks w.overviewChunk).reverse,
          Asks limits config c ∧ Listed limits config group part := by
    obtain ⟨first, hfirst⟩ := List.exists_mem_of_ne_nil _ htiles.ne_nil
    simp only [List.mem_reverse]
    exact ⟨fun hall => ⟨hall.layout, fun part hpart => ⟨hall.asks, hall.listed part hpart⟩⟩,
      fun hall => ⟨hall.1, (hall.2 first hfirst).1, fun part hpart => (hall.2 part hpart).2⟩⟩
  rw [hcondition]
  refine .ok_bind (run_client around w) ?_
  refine (decides_command around rfl (h.overviewFormat around.decoders)).bind ?_
  rintro fmt mid events - ⟨rfl, -, c', rfl, rfl, rfl, hc, hstyle⟩
  have hasked : ∀ part, Asks limits config c' ∧ Listed limits config group part ↔
      Asks limits config c ∧ Listed limits config group part :=
    fun part => and_congr_left' ⟨fun hasks => hasks.of_style hstyle.symm, fun hasks => hasks.of_style hstyle⟩
  have hchunks := (fetchChunks_decides around w name token (layoutOf around.decoders config c)
    ((Range.between low high).chunks w.overviewChunk).length hparts hc).congr
      (forall₂_congr fun part _ => hasked part)
  refine (hchunks.bind ?_).congr (iff_of_eq (and_true _))
  intro _ held events _ hevents
  refine .of_ok (run_send around (.overviewComplete name token) held) trivial ?_
  have hrecords : ((events ++ [Tui.Event.overviewComplete name token]).flatMap recordsOf).Perm
      ((articlesIn group (.between low high)).map
        (recordOf around.decoders (layoutOf around.decoders config c) group)) := by
    rw [List.flatMap_append, List.flatMap_singleton]
    show (events.flatMap recordsOf ++ []).Perm _
    rw [List.append_nil]
    -- the chunks come newest first, and together they are the range
    have hchunks := ((List.reverse_perm _).flatMap_right (articlesIn group)).trans
      (htiles.perm_filter Prod.fst group.articles.entries)
    exact hevents.trans (hchunks.map _)
  exact ⟨List.getLast?_concat, hrecords, (hrecords.map _).nodup_iff.mpr (nodup_records ..)⟩

/-- A fetch that fails does not say that it is complete. -/
theorem fetchOverview_failed {range : Range} {held after : Option (Client Loop)} {e : ClientError}
    {events : List Tui.Event}
    (h : (Tui.fetchOverview w name range token).run.exec (answerFor around) held = (.error e, after, events)) :
    events.getLast? ≠ some (.overviewComplete name token) := by
  have hallowed : ∀ op held, Tui.Allowed true op (answerFor around op held).1 := by
    intro op held
    cases op with
    | query q => trivial
    | command cmd => exact fun _ _ _ => rfl
  have hobeys : Tui.Obeys true (.loadOverview name range token) (fun q _ => q = .answered) .waiting
      (Tui.fetchOverview w name range token) := Tui.fetchOverview_obeys rfl range
  obtain ⟨q, hobserved, hrunning⟩ := Work.wp_exec (answerFor around) hallowed hobeys held
  rw [h] at hobserved hrunning
  intro hlast
  obtain ⟨before, rfl⟩ := List.getLast?_eq_some_iff.mp hlast
  rw [Work.observe_append] at hobserved
  obtain ⟨mid, -, hend⟩ := Option.bind_eq_some_iff.mp hobserved
  cases mid with
  | waiting =>
      rw [Work.observe, Tui.advance_complete rfl] at hend
      cases hend
      exact Tui.answered_ended hrunning.1
  | _ => cases hend

/-- **A range is fetched whole exactly when it is fetchable.** -/
theorem fetchOverview_whole_iff (h : Browsing limits config group c) {low high : UInt64} (hrange : low ≤ high) :
    FetchedWhole around.decoders (layoutOf around.decoders config c) group name token (.between low high)
        (runTask around (Tui.fetchOverview w name (.between low high) token) (some c)).2.2 ↔
      Fetchable limits config group c (.between low high) w.overviewChunk := by
  unfold runTask
  rcases fetchOverview_decides around w name token h hrange with
    ⟨hfetchable, ⟨⟩, after, events, hexec, hwhole⟩ | ⟨hnot, e, after, events, hexec⟩
  · rw [hexec]
    exact iff_of_true hwhole hfetchable
  · rw [hexec]
    exact iff_of_false (fun hwhole => fetchOverview_failed around w name token hexec hwhole.complete) hnot

end Tasks

/-! ### A group with a gap -/

namespace Fetching

theorem gap_sorted : [((1 : UInt64), ({ messageId := "<1@a>".toList } : TestServer.Article)),
    (3, { messageId := "<3@a>".toList })].Pairwise fun a b => a.1 < b.1 := by
  decide

/-- A group whose second article is gone. -/
def gap : TestServer.Group where
  name := "misc.test".toList
  articles := ⟨_, gap_sorted⟩

def gapped : Corpus where
  groups := [gap]

theorem gapped_unbroken : gapped.Unbroken := by
  intro group hgroup
  obtain rfl := List.mem_singleton.mp hgroup
  refine ⟨by decide, List.not_mem_nil, fun entry hentry => ?_⟩
  have hid : ∀ entry ∈ gap.articles.entries, '\n' ∉ entry.2.messageId ∧ entry.2.head = [] ∧ entry.2.body = [] := by
    decide
  obtain ⟨hid, hhead, hbody⟩ := hid entry hentry
  refine ⟨hid, ?_, ?_⟩
  · rw [hhead]
    exact fun _ hline => absurd hline List.not_mem_nil
  · rw [hbody]
    exact fun _ hline => absurd hline List.not_mem_nil

def around : Surroundings where
  dial := .error .timeout
  decoders := Client.plainDecoders
  base64 _ := []
  decoded _ := {
    number := none, subject := [], author := [], followupTo := none, newsgroups := none, displayText := [],
    attachments := [], messageId := none, references := [] }

/-- The client of a worker that has opened the group. -/
def opened : Option (Client Loop) :=
  (Client.withOptions (accepted gapped {} .default) true).toOption.map fun start =>
    Client.performAll Client.plainDecoders (fun _ => []) start [.selectGroup Client.miscTest]

/-- A worker that asks for this many numbers at a time. -/
def worker (chunk : UInt64) : Tui.Worker where
  authority := "test.invalid".toList
  overviewChunk := chunk

/-- A fetch of the numbers from 1 to 3. -/
def fetched (chunk : UInt64) (c : Client Loop) : Except ClientError Unit × Option (Client Loop) × List Tui.Event :=
  runTask around (Tui.fetchOverview (worker chunk) Client.miscTest (.between 1 3) 7) (some c)

/-- The worker's client has the group selected. -/
theorem opened_browsing : ∃ c, opened = some c ∧ Browsing .default {} gap c ∧ c.overviewStyle = .unknown := by
  have hopened : opened.map (fun c => (c.connection.stream.replied.all Lockstep.isShort, c.connection.stream.phase,
      c.connection.stream.session.selectedGroup, c.connection.stream.session.needsAuth, c.overviewStyle)) =
      some (true, .command, some gap, false, .unknown) := by
    decide +kernel
  obtain ⟨c, hc, hfields⟩ := Option.map_eq_some_iff.mp hopened
  obtain ⟨start, hstart, hperformed⟩ := Option.map_eq_some_iff.mp hc
  simp only [Prod.mk.injEq] at hfields
  obtain ⟨hshort, hphase, hselected, hadmitted, hstyle⟩ := hfields
  have hedited : ∀ operation ∈ [Operation.selectGroup Client.miscTest], Operation.Edited operation := by
    intro operation hmem
    rw [List.mem_singleton.mp hmem]
    trivial
  have hstart : Client.withOptions (accepted gapped {} .default) true = .ok start := by
    cases hresult : Client.withOptions (accepted gapped {} .default) true with
    | error e =>
        rw [hresult] at hstart
        cases hstart
    | ok start =>
        rw [hresult] at hstart
        cases hstart
        rfl
  have hbase64 : ∀ bytes, ∀ c ∈ (fun _ : Bytes => ([] : Str)) bytes, isBase64 c = true :=
    fun _ _ hmem => absurd hmem List.not_mem_nil
  have hfits : Fits .default {} (Client.performAll Client.plainDecoders (fun _ => []) start
      [.selectGroup Client.miscTest]) := by
    rw [hperformed]
    exact fun reply hreply => Lockstep.within_of_isShort (List.all_eq_true.mp hshort reply hreply)
  have hstep := (inStep_withOptions gapped_unbroken Lockstep.steady_default hstart).performAll
    Client.plainDecoders hbase64 hedited hfits
  rw [hperformed] at hstep
  refine ⟨c, hc, ⟨?_, hselected, hadmitted⟩, hstyle⟩
  rcases hstep.settled with hlevel | hended
  · exact hlevel
  · rw [hended.phase] at hphase
    cases hphase

/-- The answers of this server are within the limits. -/
theorem listed_gap {range : Range} (hlines : overviewLines gap range ≠ [])
    (hstatus : (statusHead {} (overviewReply gap range)).length ≤ Limits.default.maxLineLen)
    (hline : ∀ line ∈ overviewLines gap range, (stuff line ++ [0x0D]).length ≤ Limits.default.maxLineLen)
    (hcount : (overviewLines gap range).length ≤ Limits.default.maxBlockLines)
    (hoctets : stuffedLen (overviewLines gap range) ≤ Limits.default.maxBlockBytes) :
    Listed .default {} gap range :=
  (listed_iff range hlines).mpr ⟨hstatus, ⟨hline, by decide, hcount, hoctets⟩⟩

/-- **With two numbers in a chunk** every chunk has an article, and the fetch is whole. -/
theorem gap_whole : ∃ c, opened = some c ∧
    FetchedWhole Client.plainDecoders (layoutOf Client.plainDecoders {} c) gap Client.miscTest 7 (.between 1 3)
      (fetched 2 c).2.2 := by
  obtain ⟨c, hc, hbrowsing, hstyle⟩ := opened_browsing
  refine ⟨c, hc, (fetchOverview_whole_iff around (worker 2) Client.miscTest 7 hbrowsing (by decide)).mpr ?_⟩
  have hchunks : (Range.between 1 3).chunks 2 = [.between 1 2, .between 3 3] := by decide +kernel
  have hlayout : (formatReply {}).block = some layoutLines := rfl
  refine ⟨fun _ => ?_, ⟨?_, fun _ hrefuses => by cases hrefuses⟩, ?_⟩
  · rw [within_of_block hlayout]
    exact ⟨by decide, ⟨by decide, by decide, by decide, by decide⟩⟩
  · unfold Client.resolveOverviewStyle
    rw [hstyle]
    dsimp only
    split_ifs <;> decide
  · show ∀ part ∈ (Range.between 1 3).chunks 2, _
    rw [hchunks]
    intro part hpart
    rcases List.mem_cons.mp hpart with rfl | hpart
    · exact listed_gap (by decide +kernel) (by decide +kernel) (by decide +kernel) (by decide +kernel) (by decide +kernel)
    · rw [List.mem_singleton.mp hpart]
      exact listed_gap (by decide +kernel) (by decide +kernel) (by decide +kernel) (by decide +kernel) (by decide +kernel)

/-- **With one number in a chunk** the second has no article, and the fetch fails there. -/
theorem gap_fails : gapped.Unbroken ∧ gap.watermarks = (1, 3) ∧
    (articlesIn gap (.between 1 3)).map Prod.fst = [1, 3] ∧
    ∃ c, opened = some c ∧
      (fetched 1 c).1 = .error (.noSuchArticle "no articles in that range".toList) ∧
      ((fetched 1 c).2.2.flatMap recordsOf).map (·.number) = [3] ∧
      ¬ FetchedWhole Client.plainDecoders (layoutOf Client.plainDecoders {} c) gap Client.miscTest 7 (.between 1 3)
        (fetched 1 c).2.2 := by
  have hrun : opened.map (fun c => ((fetched 1 c).1, ((fetched 1 c).2.2.flatMap recordsOf).map (·.number),
      decide ((fetched 1 c).2.2.getLast? = some (.overviewComplete Client.miscTest 7)))) =
      some (.error (.noSuchArticle "no articles in that range".toList), [3], false) := by
    decide +kernel
  obtain ⟨c, hc, hfields⟩ := Option.map_eq_some_iff.mp hrun
  simp only [Prod.mk.injEq] at hfields
  obtain ⟨hresult, hnumbers, hcomplete⟩ := hfields
  refine ⟨gapped_unbroken, by decide, by decide, c, hc, hresult, hnumbers, fun hwhole => ?_⟩
  exact of_decide_eq_false hcomplete hwhole.complete

end Fetching

end Nntp
