import Nntp.Opening
import Nntp.Shown
import Nntp.Tui.Stepping

/-!
# Opening an article

An article is chosen in the list, and what comes of it: the worker selects the group if its client is in another, and
fetches the article. What is on screen is what the server stores under the number, and the number is marked as read.
-/

namespace Nntp

open Nntp.Lib Nntp.Proto Nntp.Client Nntp.TestServer

/-! ## What the worker does -/

/-- The client is to be in a group: both ends agree on the one it is in, and the server has the one that is asked for. -/
structure Reaches (limits : Limits) (config : ServerConfig) (c : Client Loop) (name : GroupName)
    (group : TestServer.Group) : Prop where
  level : Level limits config none c
  agrees : Agrees c
  admitted : c.connection.stream.session.needsAuth = false
  found : c.connection.stream.session.corpus.find name.asStr = some group
  selection : c.group.map (·.name) ≠ some name → Reply.Within limits config (selectionReply group)

section Tasks

variable {limits : Limits} {config : ServerConfig} {group : TestServer.Group} {c : Client Loop}
  (around : Surroundings) (w : Tui.Worker) {name : GroupName}

/-- **A group is selected unless it is the selected one.** -/
theorem ensureSelected_comes (h : Reaches limits config c name group) :
    ∃ c', Comes around (Tui.ensureSelected w name) (some c) () (some c') [] ∧ Reading limits config group c' := by
  have hquery : Comes around (Tui.query .selectedGroup) (some c) (c.group.map (·.name)) (some c) [] := ⟨[], rfl, rfl⟩
  by_cases hheld : c.group.map (·.name) = some name
  · refine ⟨c, (comes_client around w).silent_bind (hquery.silent_bind ?_), h.level, ?_, h.admitted, ?_⟩
    · show Comes around (if c.group.map (·.name) ≠ some name then _ else _) _ _ _ _
      rw [if_neg (not_not.mpr hheld)]
      exact ⟨[], rfl, rfl⟩
    · obtain ⟨summary, hsummary, rfl⟩ := Option.map_eq_some_iff.mp hheld
      have hagrees := h.agrees
      unfold Agrees at hagrees
      unfold Session.selectedGroup
      rw [← hagrees, hsummary]
      exact h.found
    · obtain ⟨summary, hsummary, -⟩ := Option.map_eq_some_iff.mp hheld
      rw [hsummary]
      rfl
  · obtain ⟨c', hexec, hlevel, hsession, hgroup, -⟩ := h.level.enter h.admitted h.found (h.selection hheld)
    refine ⟨c', (comes_client around w).silent_bind (hquery.silent_bind ?_), hlevel, ?_, ?_, ?_⟩
    · show Comes around (if c.group.map (·.name) ≠ some name then _ else _) _ _ _ _
      rw [if_pos hheld]
      exact (comes_client around w).silent_bind ((comes_command around rfl hexec).silent_bind ⟨[], rfl, rfl⟩)
    · rw [hsession]
      exact selectedGroup_enters h.found
    · rw [hsession]
      exact h.admitted
    · rw [hgroup]
      rfl

/-- What a client that cannot be asked is told. -/
theorem fails_command {cmd : Tui.ClientCommand} {α : Type} {x : ClientM Loop α} {value : α → cmd.Value}
    {e : ClientError} {c' : Client Loop} (hperform : performFor around cmd (some c) = withClient x value (some c))
    (h : x.exec c = (.error e, c')) :
    Work.Fails (answerFor around) Tui.Event.tells (Tui.command cmd) (some c) e (some c') [] := by
  refine ⟨[], ?_, rfl⟩
  show ((performFor around cmd (some c)).1, (performFor around cmd (some c)).2, []) = _
  rw [hperform]
  show ((x.exec c).1.map value, some (x.exec c).2, []) = _
  rw [h]
  rfl

/-- A failure that the connection survives is told, and nothing else. -/
theorem exec_dispatch_failed {request : Tui.Request} {held after : Option (Client Loop)} {told : List Tui.Event}
    {e : ClientError} (h : Work.Fails (answerFor around) Tui.Event.tells (Tui.perform w request) held e after told)
    (hcancelled : e.isCancelled = false) (hfatal : e.isConnectionFatal = false) :
    ∃ events, (Tui.dispatch w request).exec (answerFor around) held = ((), after, events) ∧
      events.filter Tui.Event.tells = told ++ [.failed (Tui.describe request) e] := by
  obtain ⟨events, hexec, rfl⟩ := h
  refine ⟨events ++ [.failed (Tui.describe request) e], ?_, List.filter_append ..⟩
  unfold Tui.dispatch
  rw [Work.exec_bind, hexec]
  have hreport : (Tui.report request e).exec (answerFor around) after =
      ((), after, [.failed (Tui.describe request) e]) := by
    unfold Tui.report
    rw [hcancelled, hfatal]
    rfl
  show (((Tui.report request e).exec (answerFor around) after).1, _, _) = _
  rw [hreport]

/-- What the client gets of an article that is stored. -/
def receivedOf (number : UInt64) (article : TestServer.Article) : ReceivedArticle :=
  ⟨numberOf number, Headers.parseLines article.head, article.body⟩

/-- A session that moves stays in its group. -/
theorem movedTo_stays (session : Session) (number : UInt64) :
    (movedTo (counted session) number).selectedGroup = session.selectedGroup ∧
      (movedTo (counted session) number).needsAuth = session.needsAuth := by
  unfold movedTo
  split <;> exact ⟨rfl, rfl⟩

/-- **An article that is stored is fetched**, from whatever group the client was in. -/
theorem loadArticle_comes (h : Reaches limits config c name group) {number : UInt64} {article : TestServer.Article}
    (hstored : group.articleByNumber number = some article) (hplain : Article.Plain article)
    (hwithin : Reply.Within limits config (Session.articleReply .article number article)) :
    ∃ c', Comes around (Tui.loadArticle w (some name) (.number number)) (some c) () (some c')
        [.article (around.decoded (receivedOf number article))] ∧ Reading limits config group c' := by
  obtain ⟨mid, hensured, hreading⟩ := ensureSelected_comes around w h
  have hnamed : named mid.connection.stream.session group (.number number) = some (number, article) := by
    rw [named, hstored]
    rfl
  obtain ⟨c', hexec, hrests⟩ := hreading.wholeArticle hnamed hplain hwithin
  obtain ⟨hselected, hadmitted⟩ := movedTo_stays mid.connection.stream.session number
  refine ⟨c', ?_, hrests.reading hreading ?_ ?_⟩
  · refine hensured.silent_bind ((comes_send around (.progress _) _).silent_bind ?_)
    refine (comes_client around w).silent_bind ((comes_command around rfl hexec).silent_bind ?_)
    exact comes_send around (.article _) _
  · exact hselected.trans hreading.selected
  · exact hadmitted.trans hreading.admitted

/-- An article that is not stored is not fetched, and the failure is no loss of the connection. -/
theorem loadArticle_fails (h : Reaches limits config c name group) {number : UInt64}
    (hmissing : group.articleByNumber number = none)
    (hwithin : Reply.Within limits config (.plain 423 "no such article")) :
    ∃ text c', Work.Fails (answerFor around) Tui.Event.tells (Tui.loadArticle w (some name) (.number number)) (some c)
        (.noSuchArticle text) (some c') [] ∧ Reading limits config group c' := by
  obtain ⟨mid, hensured, hreading⟩ := ensureSelected_comes around w h
  have hnamed : named mid.connection.stream.session group (.number number) = none := by
    rw [named, hmissing]
    rfl
  obtain ⟨⟨text, c', hexec, hrests⟩, -⟩ := hreading.missing hnamed hwithin
  refine ⟨text, c', ?_, hrests.reading hreading ?_ ?_⟩
  · refine Work.Fails.behind hensured (Work.Fails.behind (comes_send around (.progress _) _) ?_)
    exact Work.Fails.behind (comes_client around w) ((fails_command around rfl hexec).bind _)
  · exact hreading.selected
  · exact hreading.admitted

end Tasks

/-! ## Enter on an article -/

namespace Tui

variable {app : App} {summary : GroupSummary} {record : OverviewRecord}

theorem loadSelectedArticle_selected (hselected : app.selectedArticle = some record) (hgroup : app.group = some summary) :
    app.loadSelectedArticle = ({ app with inflight := app.inflight + 1 },
      [.loadArticle (some summary.name) (.number record.number)]) := by
  unfold App.loadSelectedArticle
  rw [hselected, hgroup]

/-- **What is read once an article has come**: what was read before, and the article, if it has a number. -/
theorem isUnread_onArticle (hgroup : app.group = some summary) (hsorted : ReadStore.Sorted app.read.groups)
    (hvalid : (app.read.readSet summary.name.asStr).Valid) {article : Proto.Article} {number : UInt64}
    (hnumber : article.number = numberOf number) (n : UInt64) :
    (app.onArticle article).isUnread n =
      (app.isUnread n && !(app.markReadOnOpen && number != 0 && n == number)) := by
  have hafter : (app.onArticle article).isUnread n =
      !((app.onArticle article).read.readSet summary.name.asStr).contains n := by
    have hsame : (app.onArticle article).group = some summary := hgroup
    unfold App.isUnread
    rw [hsame]
  have hbefore : app.isUnread n = !(app.read.readSet summary.name.asStr).contains n := by
    unfold App.isUnread
    rw [hgroup]
  rw [hafter, hbefore]
  by_cases hzero : number = 0
  · have hnone : article.number = none := by
      rw [hnumber, hzero]
      rfl
    rcases app.read_onArticle article with ⟨number, _, -, hsome, -⟩ | ⟨hread, -⟩
    · rw [hnone] at hsome
      cases hsome
    · rw [hread, hzero]
      simp
  · have hsome : article.number = some number := by
      rw [hnumber]
      simp [numberOf, hzero]
    rcases app.read_onArticle article with ⟨number', summary', hopen, hnumber', hgroup', hread⟩ | ⟨hread, hnever⟩
    · rw [hsome] at hnumber'
      rw [hgroup] at hgroup'
      cases hnumber'
      cases hgroup'
      have hcounts : (number != 0) = true := bne_iff_ne.mpr hzero
      rw [hread, ReadStore.readSet_markRead hsorted, ReadSet.contains_insert hvalid hzero, hopen, hcounts]
      simp
    · have hoff : app.markReadOnOpen = false := by
        cases hopen : app.markReadOnOpen with
        | false => rfl
        | true => exact absurd hgroup (hnever number summary hopen hsome)
      rw [hread, hoff]
      simp

/-- A failure is on top of the messages, or under the word of a draft that was not sent. -/
theorem failed_noted (app : App) (context : Str) (error : ClientError) :
    Note.failed context error ∈ (app.onEvent (.failed context error)).app.messages := by
  show Note.failed context error ∈ (app.answered.note (.failed context error)).reportUnsentDraft.messages
  unfold App.reportUnsentDraft
  split
  · exact List.mem_cons_of_mem _ List.mem_cons_self
  · exact List.mem_cons_self

/-- A failure leaves the panes and the marks as they are. -/
theorem onEvent_failed (app : App) (context : Str) (error : ClientError) :
    (app.onEvent (.failed context error)).app.listing = app.listing ∧
      (app.onEvent (.failed context error)).app.article = app.article ∧
      (app.onEvent (.failed context error)).app.read = app.read := by
  show (app.answered.note (.failed context error)).reportUnsentDraft.listing = _ ∧
    (app.answered.note (.failed context error)).reportUnsentDraft.article = _ ∧
      (app.answered.note (.failed context error)).reportUnsentDraft.read = _
  unfold App.reportUnsentDraft
  split <;> exact ⟨rfl, rfl, rfl⟩

end Tui

section Chosen

variable {limits : Limits} {config : ServerConfig} {group : TestServer.Group} {c : Client Loop} {codecs : Codecs}
  {around : Surroundings} (w : Tui.Worker) {app : Tui.App} {summary : GroupSummary} {record : OverviewRecord}

/-- **The article that is chosen is the one that is shown**: the pane has what the server stores under the number, and
from then on that number counts as read and no other. Where nothing is stored any more, the pane stays as it is, and
the messages say so. -/
theorem article_shown (hselected : app.selectedArticle = some record) (hgroup : app.group = some summary)
    (hsorted : Tui.ReadStore.Sorted app.read.groups) (hvalid : (app.read.readSet summary.name.asStr).Valid)
    (hdecoded : around.decoded = prepared codecs) (h : Reaches limits config c summary.name group)
    (hplain : ∀ article ∈ group.articleByNumber record.number, Article.Plain article)
    (hwithin : ∀ article ∈ group.articleByNumber record.number,
      Reply.Within limits config (Session.articleReply .article record.number article))
    (hmissing : Reply.Within limits config (.plain 423 "no such article")) :
    ∃ asked request events c', app.loadSelectedArticle = (asked, [request]) ∧
      (Tui.dispatch w request).exec (answerFor around) (some c) = ((), some c', events) ∧
      Reading limits config group c' ∧ (asked.observe events).listing = app.listing ∧
      match group.articleByNumber record.number with
      | some article =>
          (asked.observe events).ledger = app.ledger ∧
            (asked.observe events).article =
              some (Tui.ArticleView.new (prepared codecs (receivedOf record.number article))) ∧
            (asked.observe events).focus = .body ∧ (asked.observe events).bodyScroll = 0 ∧
            ∀ n, (asked.observe events).isUnread n =
              (app.isUnread n && !(app.markReadOnOpen && record.number != 0 && n == record.number))
      | none =>
          (asked.observe events).ledger = { app.ledger with posting := none } ∧
            (asked.observe events).article = app.article ∧ (asked.observe events).read = app.read ∧
            ∃ text, .failed (Tui.describe request) (.noSuchArticle text) ∈ (asked.observe events).messages := by
  have hrequest := Tui.loadSelectedArticle_selected hselected hgroup
  let asked : Tui.App := { app with inflight := app.inflight + 1 }
  cases hstored : group.articleByNumber record.number with
  | some article =>
      obtain ⟨c', hcomes, hreading⟩ :=
        loadArticle_comes around w h hstored (hplain article hstored) (hwithin article hstored)
      rw [hdecoded] at hcomes
      obtain ⟨events, hexec, htold⟩ := exec_dispatch around w
        (show Comes around (Tui.perform w (.loadArticle (some summary.name) (.number record.number))) _ _ _ _ from hcomes)
      have hobserved : asked.observe events =
          asked.onArticle (prepared codecs (receivedOf record.number article)) := by
        rw [Tui.App.observe_telling, htold]
        rfl
      refine ⟨asked, _, events, c', hrequest, hexec, hreading, ?_, ?_⟩
      · rw [hobserved]
        rfl
      · rw [hobserved]
        refine ⟨?_, rfl, rfl, rfl, fun n => ?_⟩
        · have hledger := (Tui.App.ledger_onEvent asked (.article (prepared codecs (receivedOf record.number article)))).1
          exact hledger
        · exact Tui.isUnread_onArticle hgroup hsorted hvalid rfl n
  | none =>
      obtain ⟨text, c', hfails, hreading⟩ := loadArticle_fails around w h hstored hmissing
      obtain ⟨events, hexec, htold⟩ := exec_dispatch_failed around w
        (show Work.Fails (answerFor around) Tui.Event.tells
          (Tui.perform w (.loadArticle (some summary.name) (.number record.number))) _ _ _ _ from hfails) rfl rfl
      have hobserved : asked.observe events = (asked.onEvent (.failed
          (Tui.describe (.loadArticle (some summary.name) (.number record.number))) (.noSuchArticle text))).app := by
        rw [Tui.App.observe_telling, htold]
        rfl
      obtain ⟨hlisting, harticle, hread⟩ := Tui.onEvent_failed asked
        (Tui.describe (.loadArticle (some summary.name) (.number record.number))) (.noSuchArticle text)
      refine ⟨asked, _, events, c', hrequest, hexec, hreading, ?_, ?_⟩
      · rw [hobserved, hlisting]
        rfl
      · rw [hobserved]
        refine ⟨?_, harticle, hread, text, Tui.failed_noted ..⟩
        rw [(Tui.App.ledger_onEvent asked _).1]
        rfl

end Chosen

/-! ### A short article -/

namespace Shelf

/-- A new client can reach the group. -/
theorem miscTest_reaches : ∃ c, Client.withOptions (accepted corpus {} .default) true = .ok c ∧
    Reaches .default {} c Client.miscTest miscTest := by
  obtain ⟨c, hc, hlevel, hadmitted, hgroups⟩ := start_level
  have hagrees := (inStep_withOptions corpus_unbroken Lockstep.steady_default hc).agrees
  exact ⟨c, hc, hlevel, hagrees, hadmitted, find_miscTest hgroups, fun _ => by decide +kernel⟩

/-- An interface with the first article of the group under the cursor. -/
def choosing : Tui.App :=
  { listed with group := some (summaryOf miscTest Client.miscTest), articles := [Tui.Watched.bareRecord 1] }

/-- What decodes the articles. -/
def decoding : Surroundings := { Fetching.around with decoded := prepared utf8Codecs }

/-- **The article is shown**, and counts as read. -/
theorem article_shown_misc : ∃ c asked request events c',
    Client.withOptions (accepted corpus {} .default) true = .ok c ∧
    choosing.loadSelectedArticle = (asked, [request]) ∧
    (Tui.dispatch byTwo request).exec (answerFor decoding) (some c) = ((), some c', events) ∧
    (asked.observe events).article.map (fun view => (view.number, view.subject, view.body)) =
      some (some 1, "a".toList, [".".toList]) ∧
    (asked.observe events).isUnread 1 = false ∧ (asked.observe events).isUnread 3 = true := by
  obtain ⟨c, hc, hreaches⟩ := miscTest_reaches
  have hstored : miscTest.articleByNumber (Tui.Watched.bareRecord 1).number = some first := by decide +kernel
  obtain ⟨asked, request, events, c', hrequest, hexec, -, -, hshown⟩ := article_shown byTwo
    (show choosing.selectedArticle = some (Tui.Watched.bareRecord 1) by decide +kernel)
    (show choosing.group = some (summaryOf miscTest Client.miscTest) from rfl) List.Pairwise.nil Tui.ReadSet.new_valid
    (show decoding.decoded = prepared utf8Codecs from rfl) hreaches
    (fun article harticle => by
      rw [hstored] at harticle
      cases harticle
      exact plain_articles.1)
    (fun article harticle => by
      rw [hstored] at harticle
      cases harticle
      decide +kernel)
    (by decide +kernel)
  rw [hstored] at hshown
  obtain ⟨-, harticle, -, -, hunread⟩ := hshown
  refine ⟨c, asked, request, events, c', hc, hrequest, hexec, ?_, ?_, ?_⟩
  · rw [harticle]
    decide +kernel
  · rw [hunread]
    decide +kernel
  · rw [hunread]
    decide +kernel

end Shelf

end Nntp
