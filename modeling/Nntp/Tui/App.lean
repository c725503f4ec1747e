import Nntp.Proto.Thread.Tree
import Nntp.Tui.Protocol
import Nntp.Tui.ReadStore

/-!
# The interface state machine

`app.rs`: the state, what it shows, and what an event from the worker does to it. Keys are in `Keys`.
Left out is what only the renderer reads: the status and error lines, the connection's description, the
spinner, the overlay's scroll position and the formatted date of an article. Notes for the message pane
say what they are about instead of carrying the text made from it.
-/

namespace Nntp.Tui

open Nntp.Lib Nntp.Proto Nntp.Client

abbrev Path := Str

/-- Which pane has focus. -/
inductive Pane where
  | groups
  | articles
  | body
  deriving DecidableEq, Repr

namespace Pane

/-- The pane to the right, wrapping. -/
def next : Pane → Pane
  | groups => articles
  | articles => body
  | body => groups

/-- The pane to the left, wrapping. -/
def previous : Pane → Pane
  | groups => body
  | articles => groups
  | body => articles

end Pane

/-- What is on screen instead of the normal layout. -/
inductive Overlay where
  | none
  | help
  | messages
  deriving DecidableEq, Repr

/-- An article prepared for display. -/
structure ArticleView where
  number : Option UInt64
  subject : Str
  author : Str
  body : List Str
  messageId : Option MessageId
  references : List MessageId
  /-- where a follow-up should go -/
  followupGroups : List Str
  followupToPoster : Bool
  deriving DecidableEq, Repr

/-- Prepares an article for display. -/
def ArticleView.new (article : Article) : ArticleView :=
  let followupToPoster := article.followupTo.any fun value =>
    eqIgnoreAsciiCase (trim value) "poster".toList
  let groupsHeader := if followupToPoster then none else article.followupTo <|> article.newsgroups
  { number := article.number
    subject := article.subject
    author := article.author
    -- an article that is nothing but an attachment is not a blank pane
    body :=
      if article.displayText.isEmpty ∧ !article.attachments.isEmpty then
        ["(no text in this article)".toList]
      else article.displayText
    messageId := article.messageId
    references := article.references
    followupGroups := groupList (groupsHeader.getD [])
    followupToPoster }

/-- An article the user has asked to write: the text the editor opens with. -/
structure ComposeRequest where
  template : Str
  what : Str
  deriving DecidableEq, Repr

/-- One line of the article pane. -/
structure ArticleRow where
  /-- index into the articles -/
  index : Nat
  depth : Nat := 0
  /-- replies folded away under this row -/
  hidden : Nat := 0
  hasReplies : Bool := false
  collapsed : Bool := false
  deriving DecidableEq, Repr

/-- A message for the message pane. -/
inductive Note where
  | connected (greeting : Str)
  | filteredHere
  | unparsable (group : GroupName) (count : Nat)
  /-- a reload was overtaken by a newer one -/
  | overtaken (group : GroupName)
  /-- an overview reply arrived after the user had moved on -/
  | movedOn (group : GroupName)
  | posted (text : Str)
  | cancelled (context : Str)
  | failed (context : Str) (error : ClientError)
  | disconnected
  | stopped
  /-- the article was not posted; the draft is at this path -/
  | unsent (path : Path)
  | repliesByMail
  | noIdentity
  | draftProblem (problem : Problem)
  | draftAt (path : Path)
  | abandoned (what : Str)
  | couldNotCompose
  deriving DecidableEq, Repr

/-- How many messages to keep for the message pane. -/
def logCapacity : Nat := 200

/-- The whole interface state. -/
structure App where
  focus : Pane := .groups
  overlay : Overlay := .none
  groups : List GroupRow := []
  /-- index into the visible groups -/
  groupCursor : Nat := 0
  filter : Str := []
  editingFilter : Bool := false
  subscriptions : List Wildmat := []
  groupScope : GroupScope := .everything
  /-- the selected group, once the server has confirmed it -/
  group : Option GroupSummary := none
  articles : List OverviewRecord := []
  /-- index into the visible articles -/
  articleCursor : Nat := 0
  unreadOnly : Bool
  threaded : Bool
  /-- the threads the articles fall into, kept up to date with them -/
  threads : List ThreadNode := []
  collapsed : List UInt64 := []
  /-- the fetch whose records the article list is showing -/
  overviewToken : Option FetchToken := none
  nextToken : Nat := 0
  overviewChunks : Nat := 0
  overviewSkipped : Nat := 0
  read : ReadStore := {}
  article : Option ArticleView := none
  bodyScroll : Nat := 0
  messages : List Note := []
  compose : Option ComposeRequest := none
  /-- the groups the article being posted is addressed to -/
  postingGroups : List Str := []
  /-- the draft file behind the article currently being posted -/
  posting : Option Path := none
  /-- who articles are posted as -/
  postFrom : Option Str := none
  /-- how many requests are outstanding -/
  inflight : Nat := 0
  /-- the flag shared with the worker -/
  cancel : Bool := false
  shouldQuit : Bool := false
  initialArticles : UInt64
  markReadOnOpen : Bool
  listHeight : Nat := 20
  bodyHeight : Nat := 20

/-- What the configuration says about the interface. -/
structure UiConfig where
  unreadOnly : Bool
  threaded : Bool
  initialArticles : UInt64
  markReadOnOpen : Bool
  deriving DecidableEq, Repr

namespace App

/-- A fresh interface. -/
def new (config : UiConfig) (read : ReadStore) : App where
  unreadOnly := config.unreadOnly
  threaded := config.threaded
  initialArticles := config.initialArticles
  markReadOnOpen := config.markReadOnOpen
  read := read

/-- The request to send when the interface starts. -/
def initialRequests (app : App) : App × List Request :=
  let scope := GroupScope.subscribed app.subscriptions
  ({ app with inflight := app.inflight + 1, groupScope := scope }, [.loadGroups scope])

/-! ## What is on screen -/

/-- Indices into the groups that pass the filter, in order. -/
def visibleGroups (lowercase : Str → Str) (app : App) : List Nat :=
  if app.filter = [] then List.range app.groups.length
  else
    let needle := lowercase app.filter
    (app.groups.zipIdx.filter fun g =>
      containsText (lowercase g.1.name.asStr) needle ||
        g.1.description.any fun text => containsText (lowercase text) needle).map (·.2)

/-- The group under the cursor. -/
def selectedGroup (lowercase : Str → Str) (app : App) : Option GroupRow :=
  (app.visibleGroups lowercase)[app.groupCursor]?.bind fun index => app.groups[index]?

/-- Whether article `number` in the selected group is unread. -/
def isUnread (app : App) (number : UInt64) : Bool :=
  match app.group with
  | some summary => !(app.read.readSet summary.name.asStr).contains number
  | none => true

/-- Whether the unread filter lets an article through. -/
def passes (app : App) (number : UInt64) : Bool := !app.unreadOnly || app.isUnread number

/-- The article of a node if it is drawn. -/
def drawn (app : App) (article : Option Nat) : Option (Nat × UInt64) :=
  (article.bind fun index => app.articles[index]?.map fun record => (index, record.number)).filter
    fun a => app.passes a.2

mutual

/-- Flattens one thread into rows, depth first. A fold only applies to a row that is drawn. -/
def pushRows (app : App) : ThreadNode → Nat → List ArticleRow
  | .mk article children, depth =>
      match app.drawn article with
      | some (index, number) =>
          let collapsed := app.collapsed.contains number
          { index, depth, collapsed
            hidden := if collapsed then ThreadNode.lenAll children else 0
            hasReplies := !children.isEmpty } ::
            (if collapsed then [] else pushRowsAll app children (depth + 1))
      | none => pushRowsAll app children (depth + 1)

def pushRowsAll (app : App) : List ThreadNode → Nat → List ArticleRow
  | [], _ => []
  | node :: nodes, depth => pushRows app node depth ++ pushRowsAll app nodes depth

end

/-- The article list as rows to draw, in order. -/
def articleRows (app : App) : List ArticleRow :=
  if app.threaded then app.pushRowsAll app.threads 0
  else (app.articles.zipIdx.filter fun a => app.passes a.1.number).map fun a => { index := a.2 }

/-- Indices into the articles that the article list shows, in order. -/
def visibleArticles (app : App) : List Nat := app.articleRows.map (·.index)

/-- The overview record under the cursor. -/
def selectedArticle (app : App) : Option OverviewRecord :=
  app.visibleArticles[app.articleCursor]?.bind fun index => app.articles[index]?

/-- Which row an article number is on, if it is on one. -/
def rowOf (app : App) (number : UInt64) : Option Nat :=
  app.visibleArticles.findIdx? fun index =>
    app.articles[index]?.any fun record => record.number = number

/-- Rebuilds the threads from the records on display. -/
def rebuildThreads (app : App) : App :=
  { app with threads := if app.threaded then (thread app.articles).getD [] else [] }

/-- Brings the article cursor back inside the visible list. -/
def clampArticleCursor (app : App) : App :=
  { app with articleCursor := min app.articleCursor (app.visibleArticles.length - 1) }

/-- Records a message. -/
def note (app : App) (message : Note) : App :=
  { app with messages := (message :: app.messages).take logCapacity }

/-! ## Overviews -/

/-- Starts a new overview fetch; `nextToken` is then the token that identifies it. -/
def beginOverviewFetch (app : App) : App :=
  let token := app.nextToken + 1
  { app with
    nextToken := token, overviewToken := some token, overviewChunks := 0, overviewSkipped := 0 }

/-- Whether records from this fetch are still wanted. -/
def acceptsOverview (app : App) (group : GroupName) (token : FetchToken) : Bool :=
  decide (app.overviewToken = some token) && decide (app.group.map (·.name) = some group)

end App

/-- The records held after some more have arrived. -/
def mergeOverview (records held : List OverviewRecord) : List OverviewRecord :=
  let merged := dedupByKey (·.number)
    ((records ++ held).mergeSort fun a b => decide (a.number ≤ b.number))
  match held.head?, records.getLast? with
  | none, _ => records
  -- chunks arrive newest first, so each is older than everything held
  | some oldestHeld, some newestArriving =>
      if newestArriving.number < oldestHeld.number then records ++ held else merged
  | some _, none => merged

namespace App

/-- Merges a chunk of overview records into the list on display. A cursor on the newest article stays
on the newest, one the user has moved stays on its article. -/
def absorbOverview (app : App) (records : List OverviewRecord) : App :=
  if records.isEmpty then app
  else
    let pinnedToNewest := app.visibleArticles.length ≤ app.articleCursor + 1
    let anchor := app.selectedArticle.map (·.number)
    let app := { app with articles := mergeOverview records app.articles }.rebuildThreads
    let last := app.visibleArticles.length - 1
    { app with
      articleCursor :=
        if pinnedToNewest then last
        else (anchor.bind app.rowOf).getD (min app.articleCursor last) }

/-! ## Events from the worker -/

/-- Says where the draft is, when a posting did not go through. The file is left alone. -/
def reportUnsentDraft (app : App) : App :=
  match app.posting with
  | some path => { app with posting := none }.note (.unsent path)
  | none => app

/-- One request fewer is outstanding. -/
def answered (app : App) : App := { app with inflight := app.inflight - 1 }

/-- Refetches the group on screen when an article has just been posted to it. -/
def refreshAfterPosting (app : App) (groups : List Str) : Option (App × Request) :=
  match app.group with
  | none => none
  | some summary =>
      if summary.name.asStr ∈ groups then
        let app := { app with inflight := app.inflight + 1 }.beginOverviewFetch
        some (app, .openGroup summary.name app.initialArticles app.nextToken)
      else none

end App

/-- What an event leads to: the new state, the requests it produced, and the draft that is discarded. -/
structure Reaction where
  app : App
  requests : List Request := []
  discarded : Option Path := none

namespace App

/-- `Event::OverviewChunk`. A chunk of a superseded fetch is dropped. -/
def onOverviewChunk (app : App) (group : GroupName) (token : FetchToken)
    (records : List OverviewRecord) (skipped : Nat) : App :=
  if app.acceptsOverview group token then
    let app := { app with overviewSkipped := app.overviewSkipped + skipped }.absorbOverview records
    { app with
      -- only the first records take the focus
      focus := if app.overviewChunks = 0 then .articles else app.focus
      overviewChunks := app.overviewChunks + 1 }
  else app

/-- `Event::OverviewComplete`. -/
def onOverviewComplete (app : App) (group : GroupName) (token : FetchToken) : App :=
  let app := app.answered
  if app.acceptsOverview group token then
    let app := if 0 < app.overviewSkipped then app.note (.unparsable group app.overviewSkipped) else app
    { app with focus := .articles, overviewToken := none }
  else if app.group.map (·.name) = some group then app.note (.overtaken group)
  else app.note (.movedOn group)

/-- `Event::Article`. Opening an article is what makes it read, unless that is switched off. -/
def onArticle (app : App) (article : Article) : App :=
  let app := app.answered
  let view := ArticleView.new article
  let read :=
    match app.markReadOnOpen, view.number, app.group with
    | true, some number, some summary => app.read.markRead summary.name.asStr number
    | _, _, _ => app.read
  { app with read := read, article := some view, bodyScroll := 0, focus := .body }

/-- What an accepted posting leaves behind. -/
def accepted (app : App) (text : Str) : App :=
  { app.answered with posting := none, postingGroups := [] }.note (.posted text)

/-- `Event::Posted`. The draft goes, and the group on screen is fetched again if the article went
there. -/
def onPosted (app : App) (text : Str) : Reaction :=
  match (app.accepted text).refreshAfterPosting app.postingGroups with
  | some (after, request) => { app := after, requests := [request], discarded := app.posting }
  | none => { app := app.accepted text, discarded := app.posting }

/-- Applies an event from the worker. -/
def onEvent (app : App) : Event → Reaction
  | .connected _ greeting _ => { app := app.note (.connected greeting) }
  | .groups rows scope filteredLocally =>
      let app := app.answered
      let app := if filteredLocally then app.note .filteredHere else app
      { app := { app with groups := rows, groupScope := scope, groupCursor := 0 } }
  | .groupOpened summary =>
      { app := { app with
          read := app.read.forgetExpired summary.name.asStr summary.low, group := some summary } }
  | .overviewChunk group token records skipped =>
      { app := app.onOverviewChunk group token records skipped }
  | .overviewComplete group token => { app := app.onOverviewComplete group token }
  | .article article => { app := app.onArticle article }
  | .posted text => app.onPosted text
  | .progress _ => { app }
  | .cancelled context =>
      { app := app.answered.reportUnsentDraft.note (.cancelled context) }
  | .failed context error =>
      { app := (app.answered.note (.failed context error)).reportUnsentDraft }
  | .disconnected => { app := ({ app with inflight := 0 }.note .disconnected).reportUnsentDraft }
  | .stopped => { app := { app with inflight := 0 }.note .stopped }

/-! ## Drafts that come back from the editor -/

/-- Says what is wrong with a draft, and where it is. -/
def reportProblems (app : App) (problems : List Problem) (path : Path) : App :=
  (problems.foldl (fun app problem => app.note (.draftProblem problem)) app).note (.draftAt path)

/-- Applies whatever came back from the editor. A draft with problems is not sent, and its file
stays. -/
def onComposed (app : App) : Option (Str × Path) → App × Option Request
  | none => (app, none)
  | some (text, path) =>
      let draft := Draft.parse text
      match draft.problems with
      | [] =>
          ({ app with
              posting := some path, postingGroups := draft.newsgroups
              inflight := app.inflight + 1 },
            some (.post draft))
      | problem :: problems => (app.reportProblems (problem :: problems) path, none)

/-- Records the size of the panes, so page keys move by a screenful. -/
def setPaneHeights (app : App) (list body : Nat) : App :=
  { app with listHeight := max list 1, bodyHeight := max body 1 }

end App

end Nntp.Tui
