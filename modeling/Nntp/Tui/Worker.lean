import Mathlib.Data.List.Sort
import Nntp.Lib.Work
import Nntp.Lib.U64
import Nntp.Lib.Slice
import Nntp.Tui.Protocol
import Nntp.Tui.Subscriptions

/-!
# The network worker

`worker.rs`: what the worker does for one request. A task is a program that sends events and has the
client do things; whatever the client answers may come back, a failure too, and a cancelled read is one of
the failures.
-/

namespace Nntp.Tui

open Nntp.Lib Nntp.Proto Nntp.Client

/-! ## The client, as the worker uses it -/

/-- What the worker looks up in its own state. -/
inductive ClientQuery where
  /-- `self.client.is_some()` -/
  | isConnected
  /-- `self.client = None` -/
  | discard
  /-- the name of the selected group -/
  | selectedGroup
  deriving DecidableEq, Repr

@[reducible] def ClientQuery.Value : ClientQuery → Type
  | isConnected => Bool
  | discard => Unit
  | selectedGroup => Option GroupName

/-- What the worker has its client do. -/
inductive ClientCommand where
  /-- `session::connect`: the greeting, and whether the link is encrypted -/
  | connect
  | selectGroup (group : GroupName)
  /-- the entries of `LIST ACTIVE` that parse -/
  | listGroups (pattern : Option Wildmat)
  | listGroupDescriptions (pattern : Option Wildmat)
  | overviewFormat
  /-- the lines of an overview, those that do not parse as `none` -/
  | overviewStreaming (range : Range) (fmt : OverviewFmt)
  | article (spec : ArticleSpec)
  | post (draft : Draft)
  deriving DecidableEq, Repr

@[reducible] def ClientCommand.Value : ClientCommand → Type
  | connect => Str × Bool
  | selectGroup _ => GroupSummary
  | listGroups _ => List ActiveEntry
  | listGroupDescriptions _ => List (GroupName × Str)
  | overviewFormat => OverviewFmt
  | overviewStreaming _ _ => List (Option OverviewRecord)
  | article _ => Article
  | post _ => Str

/-- The worker's side of its client. -/
inductive ClientOp where
  | query (q : ClientQuery)
  | command (c : ClientCommand)
  deriving DecidableEq, Repr

/-- A command may fail. -/
@[reducible] def ClientOp.Answer : ClientOp → Type
  | query q => q.Value
  | command c => Except ClientError c.Value

/-- What a worker does for a request. -/
abbrev WorkerTask := Work Event ClientOp ClientOp.Answer

/-- A part of it that may fail. -/
abbrev Task := ExceptT ClientError WorkerTask

/-- Sends an event. -/
def send (event : Event) : Task Unit := ExceptT.mk (.send event (.done (.ok ())))

def query (q : ClientQuery) : Task q.Value := ExceptT.mk (.ask (.query q) fun r => .done (.ok r))

def command (c : ClientCommand) : Task c.Value := ExceptT.mk (.ask (.command c) .done)

/-- A command with its failure as a value. -/
def attempt (c : ClientCommand) : Task (Except ClientError c.Value) :=
  ExceptT.mk (.ask (.command c) fun r => .done (.ok r))

/-- What a worker is started with. -/
structure Worker where
  /-- `target.authority()` -/
  authority : Str
  overviewChunk : UInt64
  deriving DecidableEq, Repr

/-- `Worker::client`: connects if there is no connection. -/
def client (w : Worker) : Task Unit := do
  unless ← query .isConnected do
    send (.progress ("connecting to ".toList ++ w.authority ++ "…".toList))
    let (greeting, encrypted) ← command .connect
    send (.connected w.authority greeting encrypted)

/-! ## The group list -/

/-- Fetches the whole catalogue and applies the patterns here. -/
def listAllAndFilter (w : Worker) (patterns : List Wildmat) : Task (List ActiveEntry) := do
  send (.progress "the server will not narrow the list; fetching all of it…".toList)
  client w
  let all ← command (.listGroups none)
  pure (filterLocally patterns all)

/-- The loop of `load_groups` over the batches: the groups, and whether they were filtered here. -/
def listBatches (w : Worker) (patterns : List Wildmat) :
    List (Option Wildmat) → List ActiveEntry → Task (List ActiveEntry × Bool)
  | [], active => pure (active, false)
  | batch :: batches, active => do
      client w
      match ← attempt (.listGroups batch) with
      | .ok entries => listBatches w patterns batches (active ++ entries)
      | .error error =>
          if batch.isSome && !error.isConnectionFatal && !error.isCancelled then
            let active ← listAllAndFilter w patterns
            pure (active, true)
          else throw error

/-- The loop of `load_groups` over the batches of descriptions. -/
def describeBatches (w : Worker) : List (Option Wildmat) → List (GroupName × Str) →
    Task (List (GroupName × Str))
  | [], descriptions => pure descriptions
  | batch :: batches, descriptions => do
      client w
      match ← attempt (.listGroupDescriptions batch) with
      | .ok entries => describeBatches w batches (descriptions ++ entries)
      | .error error =>
          -- a refusal leaves the list without descriptions, a lost connection fails it
          if error.isConnectionFatal then throw error else describeBatches w batches descriptions

/-- The description the last entry for a group gives. -/
def descriptionOf (descriptions : List (GroupName × Str)) (name : GroupName) : Option Str :=
  (descriptions.reverse.find? fun entry => entry.1 = name).map (·.2)

def loadGroups (w : Worker) (scope : GroupScope) : Task Unit := do
  send (.progress ("fetching ".toList ++ scope.describe ++ "…".toList))
  let batches := batchPatterns scope.patterns
  let (active, filteredLocally) ← listBatches w scope.patterns batches []
  let active := dedupByKey (·.name) (active.mergeSort fun a b => strLe a.name.asStr b.name.asStr)
  let descriptions ← describeBatches w (if filteredLocally then [none] else batches) []
  let rows := active.map fun entry =>
    ({ name := entry.name, low := entry.low, high := entry.high, status := entry.status
       description := descriptionOf descriptions entry.name } : GroupRow)
  send (.groups rows scope filteredLocally)

/-! ## One group -/

/-- `{group}: fetching {number} of {total}…`. -/
def chunkProgress (group : GroupName) (number total : Nat) : Str :=
  group.asStr ++ ": fetching ".toList ++ display number ++ " of ".toList ++ display total ++
    "…".toList

/-- The loop of `fetch_overview` over the chunks, newest first. -/
def fetchChunks (w : Worker) (group : GroupName) (token : FetchToken) (fmt : OverviewFmt)
    (total : Nat) : List Range → Task Unit
  | [] => pure ()
  | chunk :: chunks => do
      if 1 < total then send (.progress (chunkProgress group (total - chunks.length) total))
      client w
      let lines ← command (.overviewStreaming chunk fmt)
      let records := (lines.filterMap id).mergeSort fun a b => decide (a.number ≤ b.number)
      send (.overviewChunk group token records (lines.countP Option.isNone))
      fetchChunks w group token fmt total chunks

/-- Fetches a range in chunks, sending each one as it arrives. -/
def fetchOverview (w : Worker) (group : GroupName) (range : Range) (token : FetchToken) :
    Task Unit := do
  let chunks := range.chunks w.overviewChunk
  client w
  let fmt ← command .overviewFormat
  fetchChunks w group token fmt chunks.length chunks.reverse
  send (.overviewComplete group token)

/-- The first of the newest `count` numbers up to `high`, not below `low`. -/
def newestFrom (low high count : UInt64) : UInt64 :=
  max (saturatingSub high (saturatingSub count 1)) low

def openGroup (w : Worker) (group : GroupName) (count : UInt64) (token : FetchToken) :
    Task Unit := do
  send (.progress ("selecting ".toList ++ group.asStr ++ "…".toList))
  client w
  let summary ← command (.selectGroup group)
  send (.groupOpened summary)
  match summary.range with
  | none => send (.overviewComplete group token)
  | some (low, high) =>
      fetchOverview w group (Range.ofBounds (newestFrom low high count) high) token

/-- Selects a group unless it is the selected one already. -/
def ensureSelected (w : Worker) (group : GroupName) : Task Unit := do
  client w
  let selected ← query .selectedGroup
  if selected ≠ some group then
    client w
    let _ ← command (.selectGroup group)

def loadOverview (w : Worker) (group : GroupName) (range : Range) (token : FetchToken) :
    Task Unit := do
  ensureSelected w group
  fetchOverview w group range token

/-! ## One article -/

def loadArticle (w : Worker) (group : Option GroupName) (spec : ArticleSpec) : Task Unit := do
  match group with
  | some group => ensureSelected w group
  | none => pure ()
  send (.progress "fetching the article…".toList)
  client w
  let article ← command (.article spec)
  send (.article article)

def post (w : Worker) (draft : Draft) : Task Unit := do
  send (.progress "offering the article…".toList)
  client w
  let text ← command (.post draft)
  send (.posted text)

/-! ## Requests -/

def perform (w : Worker) : Request → Task Unit
  | .loadGroups scope => loadGroups w scope
  | .openGroup group count token => openGroup w group count token
  | .loadOverview group range token => loadOverview w group range token
  | .loadArticle group spec => loadArticle w group spec
  | .post draft => post w draft
  | .shutdown => pure ()

/-- How a failed request is reported. -/
def report (request : Request) (error : ClientError) : WorkerTask Unit :=
  if error.isCancelled then
    -- the connection stopped in the middle of a response, so it goes
    .ask (.query .discard) fun _ => .send (.cancelled (describe request)) (.done ())
  else
    .send (.failed (describe request) error)
      (if error.isConnectionFatal then .ask (.query .discard) fun _ => .send .disconnected (.done ())
       else .done ())

/-- `Worker::dispatch`. -/
def dispatch (w : Worker) (request : Request) : WorkerTask Unit := do
  match ← (perform w request).run with
  | .ok () => pure ()
  | .error error => report request error

end Nntp.Tui
