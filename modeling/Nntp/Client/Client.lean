import Nntp.Client.Synchronisation
import Nntp.Proto.Replies
import Nntp.Proto.Sending

/-!
# The conversation

`client.rs`: one operation for each NNTP command, with the session state they depend on. A client also
keeps, for the proofs about it, what it has heard so far: every status line it took, with the command it
took it for the answer to and the data block it read behind it.
-/

namespace Nntp.Client

open Nntp.Lib Nntp.Proto

/-- The server's opening banner. -/
structure Greeting where
  code : Nat
  text : Str
  postingAllowed : Bool
  deriving DecidableEq, Repr

/-- Which overview command this server understands. -/
inductive OverviewStyle where
  | unknown
  | «over»
  | xover
  | unavailable
  deriving DecidableEq, Repr

/-- Which spelling of "one header across a range" this server answers. -/
inductive HeaderStyle where
  | unknown
  | hdr
  | xhdr
  | unavailable
  deriving DecidableEq, Repr

/-- An article's identity as reported by a status line: `223 number message-id`. -/
structure ArticleId where
  number : Option UInt64
  messageId : Option MessageId
  deriving DecidableEq, Repr

def ArticleId.parse (line : StatusLine) : ArticleId where
  number := (line.args[0]?.bind parseU64).filter (· != 0)
  messageId := line.args[1]?.bind fun raw => (MessageId.parse raw).toOption

/-- A response as it was taken. -/
structure Exchange where
  /-- what it answers -/
  command : Command
  /-- the octets that were written for it: the command, or the article that `POST` announced -/
  sent : Bytes
  line : StatusLine
  /-- the lines of the data block that was read behind the status line -/
  block : Option (List Bytes)

/-- A blocking NNTP client. -/
structure Client (σ : Type) where
  connection : Connection σ
  greeting : Greeting
  capabilities : Capabilities := {}
  encrypted : Bool
  authenticated : Bool := false
  group : Option GroupSummary := none
  overviewFmt : Option OverviewFmt := none
  overviewStyle : OverviewStyle := .unknown
  headerStyle : HeaderStyle := .unknown
  /-- the responses so far, oldest first -/
  heard : List Exchange := []

/-- What an operation of the client is. -/
abbrev ClientM (σ : Type) := Fallible ClientError (Client σ)

namespace Client

variable {σ : Type}

/-- Reads the greeting of a new connection. -/
def withOptions (connection : Connection σ) (encrypted : Bool) : Except ClientError (Client σ) :=
  match Connection.readStatus.exec connection with
  | (.error error, _) => .error error
  | (.ok line, connection) =>
      if isErrorCode line.code then .error (.server "greeting" line.code line.text)
      else
        .ok
          { connection
            greeting := { code := line.code, text := line.text, postingAllowed := line.code == 200 }
            encrypted }

/-! ## The connection under the client -/

/-- A use of the connection. -/
def onConnection {α : Type} (x : Conn σ α) : ClientM σ α := .ofExec fun c =>
  let (result, connection) := x.exec c.connection
  (result, { c with connection })

/-- Notes a status line. -/
def note (exchange : Exchange) : ClientM σ Unit :=
  modify fun c => { c with heard := c.heard ++ [exchange] }

/-- Notes the block behind the last status line. -/
def noteBlock (lines : List Bytes) : ClientM σ Unit :=
  modify fun c => { c with
    heard := c.heard.dropLast ++
      (c.heard.getLast?.map fun exchange => { exchange with block := some lines }).toList }

/-- An error of the protocol layer as one of the client. -/
def liftProto {α : Type} : Except ProtoError α → ClientM σ α
  | .ok a => pure a
  | .error error => throw (.proto error)

/-- Reads the data block behind the last status line. -/
def readBlock : ClientM σ (List Bytes) := do
  let lines ← onConnection Connection.readBlockStreaming
  noteBlock lines
  pure lines

/-- Passes a status line with the expected code. -/
def requireBlock (name : String) (line : StatusLine) (expected : Nat) : ClientM σ Unit :=
  if line.code = expected then pure () else throw (.fromStatus name line)

/-- Whether a code says that the server does not know the command. -/
def verbUnsupported (code : Nat) : Bool := code == 500 || code == 503

section Operations

variable [Peer σ]

/-- Sends a command and reads its status line. -/
def command (command : Command) : ClientM σ StatusLine := do
  let line ← onConnection (Connection.command command)
  note { command, sent := command.toWire.toOption.getD [], line, block := none }
  pure line

/-- Sends the article that `POST` announced, and reads the status line it gets. -/
def sendArticle (lines : List Bytes) : ClientM σ StatusLine := do
  let line ← onConnection (do
    Connection.sendBlock lines
    Connection.readStatus)
  note { command := .post, sent := Connection.wireBlock lines, line, block := none }
  pure line

variable (decoders : Decoders)

/-! ## Negotiation -/

def setCapabilities (capabilities : Capabilities) : ClientM σ Capabilities := do
  modify fun c => { c with capabilities }
  pure capabilities

/-- Issues `CAPABILITIES` and stores the result. A server that rejects the command has none. -/
def refreshCapabilities : ClientM σ Capabilities := do
  let line ← command (.capabilities none)
  if line.code = 101 then
    let block ← readBlock
    setCapabilities (Capabilities.parse decoders block)
  else if isErrorCode line.code then setCapabilities {}
  else throw (.unexpectedResponse "CAPABILITIES" "101" line.code line.text)

def setPostingAllowed (allowed : Bool) : ClientM σ Unit :=
  modify fun c => { c with greeting := { c.greeting with postingAllowed := allowed } }

/-- Issues `MODE READER`. -/
def enterReaderMode : ClientM σ Unit := do
  let line ← command .modeReader
  if line.code = 200 then setPostingAllowed true
  else if line.code = 201 then setPostingAllowed false
  -- a server without the command is a reader server already
  else if line.code = 500 ∨ line.code = 501 ∨ line.code = 503 then pure ()
  else if isErrorCode line.code then throw (.fromStatus "MODE READER" line)
  else pure ()

/-- The opening negotiation. -/
def handshake : ClientM σ Unit := do
  let _ ← refreshCapabilities decoders
  let c ← get
  if c.capabilities.needsModeReader || c.capabilities.isEmpty then
    enterReaderMode
    let _ ← refreshCapabilities decoders
    pure ()
  else pure ()

def setAuthenticated : ClientM σ Unit := modify fun c => { c with authenticated := true }

/-- `authenticate` up to its last step: whether a password was sent and accepted. -/
def login (username : Str) (password : Option Str) (allowPlaintext : Bool) : ClientM σ Bool := do
  let c ← get
  if !c.encrypted && !allowPlaintext then throw .plaintextAuthenticationRefused
  else
    let line ← command (.authInfoUser username)
    if line.code = 281 then
      setAuthenticated
      pure false
    else if line.code = 381 then
      match password with
      | none =>
          throw (.authenticationRejected
            "the server asked for a password and none was supplied".toList)
      | some password =>
          let line ← command (.authInfoPass password)
          if line.code = 281 then
            setAuthenticated
            pure true
          else throw (.fromStatus "AUTHINFO PASS" line)
    else throw (.fromStatus "AUTHINFO USER" line)

/-- Authenticates with `AUTHINFO USER` and `AUTHINFO PASS`. The capability list may change once
authenticated; what becomes of asking for it is dropped. -/
def authenticate (username : Str) (password : Option Str) (allowPlaintext : Bool) :
    ClientM σ Unit := do
  let changed ← login username password allowPlaintext
  if changed then Fallible.ignoring (refreshCapabilities decoders) else pure ()

/-! ## Groups -/

/-- Selects a group. -/
def selectGroup (group : GroupName) : ClientM σ GroupSummary := do
  let line ← command (.group group)
  if line.code = 211 then
    let summary ← liftProto (GroupSummary.parse line (some group))
    modify fun c => { c with group := some summary }
    pure summary
  else
    throw (match ClientError.fromStatus "GROUP" line with
      -- the requested name, never one out of the text
      | .noSuchGroup _ text => .noSuchGroup group.asStr text
      | other => other)

/-- Lists groups: what `on_entry` is handed. -/
def listGroupsStreaming (pattern : Option Wildmat) : ClientM σ (List (Except Str ActiveEntry)) := do
  let line ← command (.list (.active pattern))
  requireBlock "LIST ACTIVE" line 215
  let block ← readBlock
  pure (block.map fun raw => (ActiveEntry.parse decoders raw).mapError fun _ => fromUtf8Lossy raw)

def listGroups (pattern : Option Wildmat) : ClientM σ (ListResult ActiveEntry) := do
  let results ← listGroupsStreaming decoders pattern
  pure (.collect results)

def listGroupDescriptions (pattern : Option Wildmat) : ClientM σ (ListResult NewsgroupEntry) := do
  let line ← command (.list (.newsgroups pattern))
  requireBlock "LIST NEWSGROUPS" line 215
  let block ← readBlock
  pure (.collect (block.map fun raw =>
    (NewsgroupEntry.parse decoders raw).mapError fun _ => fromUtf8Lossy raw))

/-- `CommandNotSupported` where the server does not know the command, as its own error. -/
def unlessUnsupported (name : String) (line : StatusLine) : ClientError :=
  if verbUnsupported line.code then .commandNotSupported name else .fromStatus name line

/-- When each group was created, and by whom. -/
def groupCreationTimes (pattern : Option Wildmat) : ClientM σ (ListResult ActiveTimesEntry) := do
  let line ← command (.list (.activeTimes pattern))
  if line.code = 215 then
    let block ← readBlock
    pure (.collect (block.map fun raw =>
      (ActiveTimesEntry.parse decoders raw).mapError fun _ => fromUtf8Lossy raw))
  else throw (unlessUnsupported "LIST ACTIVE.TIMES" line)

/-- Which header fields `HDR` will accept. -/
def availableHeaderFields : ClientM σ (List Str) := do
  let line ← command (.list .headers)
  if line.code = 215 then
    let block ← readBlock
    pure ((block.map fun raw => trim (fromUtf8Lossy raw)).filter fun field => !field.isEmpty)
  else throw (unlessUnsupported "LIST HEADERS" line)

/-- Groups created since a moment in time. -/
def newGroups (since : UtcTime) : ClientM σ (ListResult ActiveEntry) := do
  let line ← command (.newGroups since)
  if line.code = 231 then
    let block ← readBlock
    pure (.collect (block.map fun raw =>
      (ActiveEntry.parse decoders raw).mapError fun _ => fromUtf8Lossy raw))
  else throw (.fromStatus "NEWGROUPS" line)

/-- The article numbers a group actually holds. Selects the group. -/
def articleNumbers (group : Option GroupName) (range : Option Range) :
    ClientM σ (GroupSummary × List UInt64) := do
  let c ← get
  if group.isNone && c.group.isNone then throw (.noGroupSelected "LISTGROUP")
  else
    let line ← command (.listGroup group range)
    if line.code = 211 then
      let summary ← liftProto (GroupSummary.parse line group)
      let block ← readBlock
      modify fun c => { c with group := some summary }
      -- a line that is not a number is skipped
      pure (summary, block.filterMap fun raw => (fromUtf8 raw).bind fun text => parseU64 (trim text))
    else if line.code = 411 then
      throw (.noSuchGroup ((group.map (·.asStr)).getD "the selected group".toList) line.text)
    else throw (.fromStatus "LISTGROUP" line)

/-! ## Overviews -/

def cacheFormat (fmt : OverviewFmt) : ClientM σ OverviewFmt := do
  modify fun c => { c with overviewFmt := some fmt }
  pure fmt

/-- The overview field layout, cached for the session. -/
def overviewFormat : ClientM σ OverviewFmt := do
  let c ← get
  match c.overviewFmt with
  | some fmt => pure fmt
  | none =>
      let line ← command (.list .overviewFmt)
      if line.code = 215 then
        let block ← readBlock
        cacheFormat (OverviewFmt.parse decoders block)
      else cacheFormat .standard

/-- Decides which overview command to use, from the advertised capabilities. -/
def resolveOverviewStyle (c : Client σ) : OverviewStyle :=
  match c.overviewStyle with
  | .unknown =>
      if c.capabilities.hasOver then .over
      else if !c.capabilities.isEmpty then .xover
      else .unknown
  | other => other

def setOverviewStyle (style : OverviewStyle) : ClientM σ Unit :=
  modify fun c => { c with overviewStyle := style }

/-- What `on_record` is handed for the block behind an overview's status line. -/
def readOverview (fmt : OverviewFmt) : ClientM σ (List (Except Str OverviewRecord)) := do
  let block ← readBlock
  pure (block.map fun raw =>
    (OverviewRecord.parse decoders raw fmt).mapError fun _ => fromUtf8Lossy raw)

/-- `overview_streaming` where the style is `XOVER`. -/
def overviewXover (range : Range) (fmt : OverviewFmt) :
    ClientM σ (List (Except Str OverviewRecord)) := do
  let line ← command (.xover range)
  if line.code = 224 then
    setOverviewStyle .xover
    readOverview decoders fmt
  else if verbUnsupported line.code then
    setOverviewStyle .unavailable
    throw (.fromStatus "XOVER" line)
  else throw (.fromStatus "XOVER" line)

/-- Fetches overview records: what `on_record` is handed. -/
def overviewStreaming (range : Range) (fmt : OverviewFmt) :
    ClientM σ (List (Except Str OverviewRecord)) := do
  let c ← get
  match c.resolveOverviewStyle with
  | .xover => overviewXover decoders range fmt
  | .unavailable => throw (.commandNotSupported "OVER")
  | .over | .unknown =>
      let line ← command (.over (.range range))
      if line.code = 224 then
        setOverviewStyle .over
        readOverview decoders fmt
      else if verbUnsupported line.code then
        setOverviewStyle .xover
        -- the call is made again, and finds this style
        overviewXover decoders range fmt
      else throw (.fromStatus "OVER" line)

def overview (range : Range) : ClientM σ (ListResult OverviewRecord) := do
  let c ← get
  if c.group.isNone then throw (.noGroupSelected "OVER")
  else
    let fmt ← overviewFormat decoders
    let results ← overviewStreaming decoders range fmt
    pure (.collect results)

/-! ## Header fields -/

/-- Which of the two commands `header_field_streaming` sends. -/
def resolveHeaderStyle (c : Client σ) : HeaderStyle :=
  match c.headerStyle with
  | .unknown =>
      if c.capabilities.hasHdr then .hdr
      else if !c.capabilities.isEmpty then .xhdr
      else .unknown
  | other => other

def setHeaderStyle (style : HeaderStyle) : ClientM σ Unit :=
  modify fun c => { c with headerStyle := style }

def readHeaderEntries : ClientM σ (List (Except Str HeaderEntry)) := do
  let block ← readBlock
  pure (block.map fun raw =>
    match HeaderEntry.parse decoders raw with
    | some entry => .ok entry
    | none => .error (fromUtf8Lossy raw))

/-- `header_field_streaming` where the style is `XHDR`. -/
def headerFieldXhdr (field : HeaderName) (target : RangeOrId) :
    ClientM σ (List (Except Str HeaderEntry)) := do
  let line ← command (.xhdr field target)
  if line.code = 225 ∨ line.code = 221 then
    setHeaderStyle .xhdr
    readHeaderEntries decoders
  else if verbUnsupported line.code then
    setHeaderStyle .unavailable
    throw (.fromStatus "XHDR" line)
  else throw (.fromStatus "XHDR" line)

/-- Whether a target names articles of the selected group. -/
def targetNeedsGroup : RangeOrId → Bool
  | .messageId _ => false
  | .range _ => true
  | .current => true

/-- Fetches one header field across a range: what `on_entry` is handed. -/
def headerFieldStreaming (field : HeaderName) (target : RangeOrId) :
    ClientM σ (List (Except Str HeaderEntry)) := do
  let c ← get
  if targetNeedsGroup target && c.group.isNone then throw (.noGroupSelected "HDR")
  else
    match c.resolveHeaderStyle with
    | .xhdr => headerFieldXhdr decoders field target
    | .unavailable => throw (.commandNotSupported "HDR")
    | .hdr | .unknown =>
        let line ← command (.hdr field target)
        if line.code = 225 ∨ line.code = 221 then
          setHeaderStyle .hdr
          readHeaderEntries decoders
        else if verbUnsupported line.code then
          setHeaderStyle .xhdr
          headerFieldXhdr decoders field target
        else throw (.fromStatus "HDR" line)

def headerField (field : HeaderName) (target : RangeOrId) : ClientM σ (ListResult HeaderEntry) := do
  let results ← headerFieldStreaming decoders field target
  pure (.collect results)

/-! ## Articles -/

/-- Sends a command that returns a status line naming an article, then its block. -/
def fetchBlock (name : String) (spec : ArticleSpec) (cmd : Command) (expected : Nat) :
    ClientM σ (ArticleId × List Bytes) := do
  let c ← get
  if spec.needsSelectedGroup && c.group.isNone then throw (.noGroupSelected name)
  else
    let line ← command cmd
    if line.code = expected then
      let block ← readBlock
      pure (ArticleId.parse line, block)
    else throw (.fromStatus name line)

def article (spec : ArticleSpec) : ClientM σ ReceivedArticle := do
  let (id, block) ← fetchBlock "ARTICLE" spec (.article spec) 220
  pure { ReceivedArticle.fromBlock block with number := id.number }

def head (spec : ArticleSpec) : ClientM σ ReceivedArticle := do
  let (id, block) ← fetchBlock "HEAD" spec (.head spec) 221
  pure { ReceivedArticle.fromHeadBlock block with number := id.number }

def body (spec : ArticleSpec) : ClientM σ (List Bytes) := do
  let (_, block) ← fetchBlock "BODY" spec (.body spec) 222
  pure block

/-- A command whose response is a status line that names an article. -/
def identify (name : String) (needsGroup : Bool) (cmd : Command) : ClientM σ ArticleId := do
  let c ← get
  if needsGroup && c.group.isNone then throw (.noGroupSelected name)
  else
    let line ← command cmd
    if line.code = 223 then pure (ArticleId.parse line) else throw (.fromStatus name line)

/-- Checks whether an article exists. -/
def stat (spec : ArticleSpec) : ClientM σ ArticleId :=
  identify "STAT" spec.needsSelectedGroup (.stat spec)

/-- Steps to the next article in the selected group. -/
def nextArticle : ClientM σ ArticleId := identify "NEXT" true .next

def previousArticle : ClientM σ ArticleId := identify "LAST" true .last

/-! ## Others -/

/-- Asks the server for its clock. -/
def serverDate : ClientM σ UtcTime := do
  let line ← command .date
  if line.code = 111 then
    let raw ← liftProto (line.arg 0 "DATE response" "timestamp")
    liftProto (parseServerDate raw)
  else throw (.fromStatus "DATE" line)

/-- Fetches the server's help text. -/
def help : ClientM σ Str := do
  let line ← command .help
  if line.code = 100 then
    let block ← readBlock
    pure (joinWith ['\n'] (block.map (decode8bitLossy decoders)))
  else throw (.fromStatus "HELP" line)

/-- Whether this connection can post at all, and why not if it cannot. -/
def checkCanPost (c : Client σ) : Except ClientError Unit :=
  if !c.greeting.postingAllowed then
    .error (.postingNotAllowed "the server greeted with 201, posting prohibited".toList)
  else if !c.capabilities.isEmpty && !c.capabilities.hasPost then
    .error (.postingNotAllowed "the server does not advertise POST".toList)
  else .ok ()

/-- Posts an article: the command, and the article only once the server has asked for it. -/
def post (base64 : Bytes → Str) (draft : Draft) : ClientM σ Str := do
  let c ← get
  match c.checkCanPost with
  | .error error => throw error
  | .ok () =>
      let lines ← liftProto (draft.toLines base64)
      let line ← command .post
      if line.code = 340 then
        let line ← sendArticle lines
        if line.code = 240 then pure line.text
        else if line.code = 440 ∨ line.code = 441 then throw (.postingRejected line.code line.text)
        else throw (.fromStatus "POST" line)
      else if line.code = 440 then throw (.postingNotAllowed line.text)
      else throw (.fromStatus "POST" line)

/-- Sends `QUIT`. A server that closes the socket without answering is not an error. -/
def quit : ClientM σ Unit := .ofExec fun c =>
  match (command .quit).exec c with
  | (.ok _, c) => (.ok (), c)
  | (.error (.connectionClosed _), c) => (.ok (), c)
  | (.error error, c) => (.error error, c)

end Operations

end Client
end Nntp.Client
