import Nntp.Proto.Post
import Nntp.Proto.Response
import Nntp.Proto.Wildmat
import Nntp.TestServer.Corpus
import Nntp.TestServer.Wire

/-!
# One session of the test server

`session.rs`: the commands, what each of them is answered with, and the loop around them. An answer is a
status line and perhaps the lines of a data block; writing it is a step of its own.
-/

namespace Nntp.TestServer

open Nntp.Lib Nntp.Proto

/-- Whether the session continues after a command. -/
inductive Flow where
  | continue
  | close
  | upgradeToTls
  | readArticle
  deriving DecidableEq, Repr

/-- What a command is answered with. -/
structure Reply where
  code : Nat
  text : Str
  block : Option (List Bytes) := none
  deriving DecidableEq, Repr

/-- A status line with a fixed text. -/
def Reply.plain (code : Nat) (text : String) : Reply := { code, text := text.toList }

/-- A status line and a data block. -/
def Reply.listing (code : Nat) (text : Str) (lines : List Bytes) : Reply :=
  { code, text, block := some lines }

/-- The commands `dispatch` knows. -/
inductive Verb where
  | quit
  | capabilities
  | mode
  | authinfo
  | date
  | help
  | starttls
  | group
  | listgroup
  | list
  | article
  | head
  | body
  | stat
  | «over»
  | xover
  | hdr
  | xhdr
  | newgroups
  | post
  | next
  | last
  deriving DecidableEq, Repr

namespace Verb

def all : List Verb :=
  [quit, capabilities, mode, authinfo, date, help, starttls, group, listgroup, list, article, head, body,
    stat, «over», xover, hdr, xhdr, newgroups, post, next, last]

def name : Verb → String
  | quit => "QUIT"
  | capabilities => "CAPABILITIES"
  | mode => "MODE"
  | authinfo => "AUTHINFO"
  | date => "DATE"
  | help => "HELP"
  | starttls => "STARTTLS"
  | group => "GROUP"
  | listgroup => "LISTGROUP"
  | list => "LIST"
  | article => "ARTICLE"
  | head => "HEAD"
  | body => "BODY"
  | stat => "STAT"
  | «over» => "OVER"
  | xover => "XOVER"
  | hdr => "HDR"
  | xhdr => "XHDR"
  | newgroups => "NEWGROUPS"
  | post => "POST"
  | next => "NEXT"
  | last => "LAST"

/-- The command of this name, which is in capitals. -/
def parse (verb : Str) : Option Verb := all.find? fun v => v.name.toList == verb

/-- The commands that are answered before a login. -/
def servedUnauthenticated : Verb → Bool
  | quit => true
  | capabilities => true
  | mode => true
  | authinfo => true
  | date => true
  | help => true
  | starttls => true
  | _ => false

end Verb

/-! ## Arguments -/

/-- `parse_range`: `n`, `low-high` or `low-`. -/
def parseRange (arg : Str) : Option (UInt64 × Option UInt64) :=
  match splitOnce (· == '-') arg with
  | none => (parseU64 arg).map fun n => (n, some n)
  | some (low, []) => (parseU64 low).map fun low => (low, none)
  | some (low, high) => do
      let low ← parseU64 low
      let high ← parseU64 high
      pure (low, some high)

/-- Days since 1970-01-01 for a civil date. -/
def daysFromCivil (year : Int) (month day : Nat) : Int :=
  let year := if month ≤ 2 then year - 1 else year
  let era := (if 0 ≤ year then year else year - 399).tdiv 400
  let yearOfEra := year - era * 400
  let month : Int := month
  let dayOfYear := (153 * (if 2 < month then month - 3 else month + 9) + 2).tdiv 5 + day - 1
  let dayOfEra := yearOfEra * 365 + yearOfEra.tdiv 4 - yearOfEra.tdiv 100 + dayOfYear
  era * 146097 + dayOfEra - 719468

/-- The year of a date of eight or six digits, and what comes after it. -/
def parseYear (date : Str) : Option (Int × Str) :=
  if utf8Len date = 8 then do
    let (year, rest) ← cutText date 4
    pure (← parseI32 year, rest)
  else if utf8Len date = 6 then do
    let (two, rest) ← cutText date 2
    let two ← parseI32 two
    pure (if 70 ≤ two then 1900 + two else 2000 + two, rest)
  else none

/-- `get(low..high)` of a text. -/
def textBetween (s : Str) (low high : Nat) : Option Str := do
  let (before, _) ← cutText s high
  let (_, between) ← cutText before low
  pure between

/-- `yyyymmdd hhmmss [GMT]` as seconds since the epoch. -/
def parseNewgroupsDate (args : List Str) : Option UInt64 := do
  let date ← args[0]?
  let time ← args[1]?
  let (year, rest) ← parseYear date
  let (month, day) ← cutText rest 2
  let month ← parseU32 month
  let day ← parseU32 day
  let hour ← parseU32 (← textBetween time 0 2)
  let minute ← parseU32 (← textBetween time 2 4)
  let second ← parseU32 (← textBetween time 4 6)
  if ¬ (1 ≤ month ∧ month ≤ 12) ∨ ¬ (1 ≤ day ∧ day ≤ 31) then none
  else if 23 < hour ∨ 59 < minute ∨ 60 < second then none
  else
    let seconds := daysFromCivil year month day * 86400 + hour * 3600 + minute * 60 + second
    pure (UInt64.ofNat seconds.toNat)

/-! ## Posted articles -/

/-- An article a client posted, as the server received it. -/
structure PostedArticle where
  lines : List Bytes
  deriving DecidableEq, Repr

namespace PostedArticle

def head (article : PostedArticle) : List Bytes := article.lines.takeWhile fun line => !line.isEmpty

def body (article : PostedArticle) : List Bytes :=
  (article.lines.dropWhile fun line => !line.isEmpty).drop 1

/-- A header value, ignoring case. -/
def header (article : PostedArticle) (name : String) : Option Str :=
  let start := toAsciiLowercase name.toList ++ [':']
  (article.head.find? fun line => start.isPrefixOf (toAsciiLowercase (fromUtf8Lossy line))).map fun line =>
    ((splitOnce (· == ':') (fromUtf8Lossy line)).map fun parts => trim parts.2).getD []

/-- The groups an article is addressed to. -/
def newsgroups (article : PostedArticle) : List Str :=
  groupList ((article.header "Newsgroups").getD [])

/-- The first of the required headers that is missing or empty. -/
def missing (article : PostedArticle) : Option String :=
  ["From", "Newsgroups", "Subject"].find? fun required =>
    ((article.header required).map fun value => (trim value).isEmpty).getD true

end PostedArticle

/-! ## Sessions -/

/-- A single client session. -/
structure Session where
  corpus : Corpus
  config : ServerConfig
  state : State
  postbox : Option (List PostedArticle) := none
  /-- `std::process::id()` -/
  processId : Nat := 0

namespace Session

/-- A session of a server with this corpus and configuration. -/
def new (corpus : Corpus) (config : ServerConfig) : Session where
  corpus := corpus
  config := config
  state :=
    { truncateNextBlock := config.quirks.truncateNextBlock
      readerMode := config.capabilities != .transit }

/-- The greeting. -/
def greet (session : Session) : Reply × Flow :=
  match session.config.greeting with
  | .postingAllowed =>
      ({ code := 200, text := session.config.serverName ++ " ready, posting allowed".toList }, .continue)
  | .noPosting =>
      ({ code := 201, text := session.config.serverName ++ " ready, posting prohibited".toList }, .continue)
  | .refuse code text => ({ code, text }, .close)

def needsAuth (session : Session) : Bool := session.config.requireAuth && !session.state.authenticated

/-- The selected group. -/
def selectedGroup (session : Session) : Option Group :=
  session.state.currentGroup.bind session.corpus.find

def notRecognised : Reply := .plain 500 "command not recognised"

def noNewsgroupSelected : Reply := .plain 412 "no newsgroup selected"

def noArticleSelected : Reply := .plain 420 "no article selected"

/-! ### Negotiation -/

/-- The lines of the capability list. -/
def capabilityLines (session : Session) : List String :=
  let config := session.config
  ["VERSION 2"] ++
    (match config.capabilities with
      | .modern => ["READER", "OVER MSGID", "HDR"]
      | .noOver => ["READER"]
      | .transit => if session.state.readerMode then ["READER", "OVER MSGID"] else ["IHAVE", "MODE-READER"]
      | .legacy => []) ++
    ["LIST ACTIVE ACTIVE.TIMES NEWSGROUPS OVERVIEW.FMT"] ++
    (if config.greeting ≠ .noPosting ∧ config.capabilities ≠ .transit then ["POST"] else []) ++
    (if config.starttls && !session.state.encrypted then ["STARTTLS"] else []) ++
    (if config.credentials.isSome then ["AUTHINFO USER"] else []) ++
    ["IMPLEMENTATION nntp-testserver 0.2.0"]

def capabilities (session : Session) : Reply :=
  if session.config.capabilities = .legacy then notRecognised
  else
    .listing 101 "capability list follows".toList
      (session.capabilityLines.map fun line => asBytes line.toList)

def mode (session : Session) (args : List Str) : Session × Reply :=
  if !args.head?.any (eqIgnoreAsciiCase · "READER".toList) then
    (session, .plain 501 "MODE READER is the only mode supported")
  else if session.config.capabilities = .legacy then (session, notRecognised)
  else
    ({ session with state := { session.state with readerMode := true } },
      if session.config.greeting = .noPosting then .plain 201 "reader mode, posting prohibited"
      else .plain 200 "reader mode, posting allowed")

/-- `AUTHINFO PASS`. -/
def authinfoPass (session : Session) (credentials : Credentials) (password : Str) : Session × Reply :=
  match session.state.pendingUser with
  | none => (session, .plain 482 "AUTHINFO USER required first")
  | some user =>
      if user = credentials.username ∧ password = credentials.password then
        ({ session with state := { session.state with authenticated := true } },
          .plain 281 "authentication accepted")
      else
        ({ session with state := { session.state with pendingUser := none } },
          .plain 481 "authentication rejected")

def authinfo (session : Session) (args : List Str) : Session × Reply :=
  match session.config.credentials with
  | none => (session, .plain 502 "authentication is not available")
  | some credentials =>
      let keyword := args.head?.map (·.map toAsciiUpper)
      if keyword = some "USER".toList then
        ({ session with state := { session.state with pendingUser := some (args[1]?.getD []) } },
          .plain 381 "password required")
      else if keyword = some "PASS".toList then session.authinfoPass credentials (args[1]?.getD [])
      else (session, .plain 501 "AUTHINFO USER or AUTHINFO PASS")

/-- A fixed clock. -/
def date : Reply := .plain 111 "20260917080910"

def help (session : Session) : Reply :=
  .listing 100 "help text follows".toList
    (if session.config.quirks.overlongHelpLine then [List.replicate 200000 0x78]
    else
      ["ARTICLE BODY CAPABILITIES DATE GROUP HEAD HELP",
        "LIST LISTGROUP MODE NEXT LAST OVER QUIT STAT XOVER"].map fun line => asBytes line.toList)

def starttls (session : Session) : Reply × Flow :=
  if !session.config.starttls then (notRecognised, .continue)
  else if session.state.encrypted then (.plain 502 "TLS is already active", .continue)
  else if session.state.authenticated then
    (.plain 502 "STARTTLS is not permitted after authentication", .continue)
  else (.plain 382 "continue with TLS negotiation", .upgradeToTls)

/-! ### Groups -/

/-- The text of a `211`: the count, the watermarks and the name. -/
def selectionText (group : Group) (name : Str) : Str :=
  joinWith [' '] [display group.articles.len.toNat, display group.watermarks.1.toNat,
    display group.watermarks.2.toNat, name]

def group (session : Session) (args : List Str) : Session × Reply :=
  match args.head? with
  | none => (session, .plain 501 "GROUP needs a newsgroup name")
  | some name =>
      match session.corpus.find name with
      | none => (session, .plain 411 "No such newsgroup")
      | some group =>
          ({ session with
            state := { session.state with currentGroup := some group.name, currentArticle := group.low } },
            { code := 211, text := selectionText group group.name })

def listgroup (session : Session) (args : List Str) : Session × Reply :=
  match args.head?.or session.state.currentGroup with
  | none => (session, noNewsgroupSelected)
  | some name =>
      match session.corpus.find name with
      | none => (session, .plain 411 "No such newsgroup")
      | some group =>
          ({ session with state := { session.state with currentGroup := some name } },
            .listing 211 (selectionText group name)
              (group.articles.keys.map fun number => asBytes (display number.toNat)))

/-- One line of `LIST ACTIVE` and `NEWGROUPS`. -/
def activeLine (group : Group) : Bytes :=
  asBytes (joinWith [' '] [group.name, display group.watermarks.2.toNat,
    display group.watermarks.1.toNat, group.posting.flag])

/-- `LIST` with a keyword, over the groups whose names are kept. -/
def listKeyword (session : Session) (keyword : Str) (keeps : Str → Bool) : Reply :=
  let groups := session.corpus.groups.filter fun group => keeps group.name
  if keyword = "ACTIVE".toList then
    .listing 215 "list of newsgroups follows".toList (groups.map activeLine)
  else if keyword = "NEWSGROUPS".toList then
    .listing 215 "descriptions follow".toList
      (groups.map fun group => asBytes group.name ++ 0x09 :: asBytes group.description)
  else if keyword = "ACTIVE.TIMES".toList then
    .listing 215 "creation times follow".toList
      (groups.map fun group => asBytes (joinWith [' ']
        [group.name, display group.created.toNat, "tester@test.invalid".toList]))
  else if keyword = "OVERVIEW.FMT".toList then
    if session.config.quirks.noOverviewFmt then .plain 503 "overview format not available"
    else
      .listing 215 "overview format follows".toList
        (["Subject:", "From:", "Date:", "Message-ID:", "References:", ":bytes", ":lines", "Xref:full"].map
          fun line => asBytes line.toList)
  else if keyword = "HEADERS".toList then
    .listing 215 "field list follows".toList [asBytes [':']]
  else { code := 501, text := "LIST ".toList ++ keyword ++ " is not supported".toList }

def list (session : Session) (args : List Str) : Reply :=
  let keyword := (args.head?.map (·.map toAsciiUpper)).getD "ACTIVE".toList
  let takesPattern := keyword = "ACTIVE".toList ∨ keyword = "NEWSGROUPS".toList ∨
    keyword = "ACTIVE.TIMES".toList
  match if takesPattern then args[1]? else none with
  | none => session.listKeyword keyword fun _ => true
  | some argument =>
      if session.config.quirks.noListWildmat then .plain 501 "LIST does not take a pattern here"
      else
        match Wildmat.parse argument with
        | .ok pattern => session.listKeyword keyword pattern.matchesName
        | .error _ => .plain 501 "invalid wildmat"

def newgroups (session : Session) (args : List Str) : Reply :=
  match parseNewgroupsDate args with
  | none => .plain 501 "NEWGROUPS needs yyyymmdd hhmmss [GMT]"
  | some since =>
      .listing 231 "list of new newsgroups follows".toList
        ((session.corpus.groups.filter fun group => decide (since ≤ group.created)).map activeLine)

/-! ### Articles -/

/-- The first argument, if it is a message-id. -/
def messageIdArgument (arg : Option Str) : Option Str := arg.filter fun arg => arg.head? == some '<'

/-- The number of the article a command names, none for a message-id. -/
def articleNumber (session : Session) (args : List Str) : Except Reply (Option UInt64) :=
  match args.head? with
  | some arg =>
      if arg.head? = some '<' then .ok none
      else
        match parseU64 arg with
        | some number => .ok (some number)
        | none => .error (.plain 501 "bad article number")
  | none =>
      match session.state.currentArticle with
      | some number => .ok (some number)
      | none => .error noArticleSelected

/-- The article a command names, if there is one. -/
def findArticle (session : Session) (args : List Str) : Except Reply (Option (UInt64 × Article)) := do
  match ← session.articleNumber args with
  | none => pure ((args.head?.bind session.corpus.findById).map fun found => (0, found.2.2))
  | some number =>
      match session.selectedGroup with
      | none => throw noNewsgroupSelected
      | some group => pure ((group.articleByNumber number).map fun article => (number, article))

/-- What an article is sent as. -/
def articleReply (verb : Verb) (number : UInt64) (article : Article) : Reply :=
  let name := display number.toNat ++ ' ' :: article.messageId
  match verb with
  | .stat => { code := 223, text := name }
  | .head => .listing 221 (name ++ " head follows".toList) article.head
  | .body => .listing 222 (name ++ " body follows".toList) article.body
  | _ => .listing 220 (name ++ " article follows".toList) (article.head ++ [] :: article.body)

/-- `ARTICLE`, `HEAD`, `BODY` and `STAT`. -/
def fetch (session : Session) (verb : Verb) (args : List Str) : Session × Reply :=
  match session.findArticle args with
  | .error reply => (session, reply)
  | .ok none =>
      (session, .plain (if (messageIdArgument args.head?).isSome then 430 else 423) "no such article")
  | .ok (some (number, article)) =>
      (if number ≠ 0 then
        { session with state := { session.state with currentArticle := some number } }
      else session, articleReply verb number article)

/-- The articles of a group with numbers in a range. -/
def articlesBetween (group : Group) (low high : UInt64) : List (UInt64 × Article) :=
  group.articles.entries.filter fun entry => decide (low ≤ entry.1) && decide (entry.1 ≤ high)

/-- The range of an overview. -/
def overRange (session : Session) (group : Group) (args : List Str) : Except Reply (UInt64 × UInt64) :=
  match args.head? with
  | none =>
      match session.state.currentArticle with
      | some number => .ok (number, number)
      | none => .error noArticleSelected
  | some arg =>
      match parseRange arg with
      | none => .error (.plain 501 "bad range")
      | some (low, none) =>
          if session.config.quirks.rejectOpenEndedRanges then
            .error (.plain 501 "open-ended ranges are not supported")
          else .ok (low, group.high.getD low)
      | some (low, some high) => .ok (low, high)

def overFollows (lines : List Bytes) : Reply :=
  .listing 224 "overview information follows".toList lines

/-- `OVER` and `XOVER`. -/
def «over» (session : Session) (verb : Verb) (args : List Str) : Reply :=
  if verb = .over ∧ session.config.quirks.overAdvertisedButMissing then notRecognised
  else if verb = .over ∧ session.config.capabilities = .noOver then notRecognised
  else
    match messageIdArgument args.head? with
    | some id =>
        match session.corpus.findById id with
        | none => .plain 430 "no such article"
        | some (group, number, article) => overFollows [article.overviewLine number group.name]
    | none =>
        match session.selectedGroup with
        | none => noNewsgroupSelected
        | some group =>
            match session.overRange group args with
            | .error reply => reply
            | .ok (low, high) =>
                let lines := (articlesBetween group low high).map fun entry =>
                  entry.2.overviewLine entry.1 group.name
                if lines = [] then .plain 423 "no articles in that range" else overFollows lines

/-- One `HDR` line: the article number, and the field's value if the article has it. -/
def headerLine (number : UInt64) (article : Article) (field : Str) : Bytes :=
  asBytes (display number.toNat) ++ ((article.headerValue field).map fun value => 0x20 :: value).getD []

/-- The success code for a header listing, which differs between the two spellings. -/
def headersFollowCode (verb : Verb) : Nat := if verb.name.toList.head? = some 'X' then 221 else 225

def headersFollow (verb : Verb) (field : Str) (lines : List Bytes) : Reply :=
  .listing (headersFollowCode verb) (field ++ " header follows".toList) lines

/-- The range of a header listing. -/
def hdrRange (session : Session) (args : List Str) : Except Reply (UInt64 × Option UInt64) :=
  match args[1]? with
  | none =>
      match session.state.currentArticle with
      | some number => .ok (number, some number)
      | none => .error noArticleSelected
  | some spec =>
      match parseRange spec with
      | some range => .ok range
      | none => .error (.plain 501 "bad range")

/-- `HDR` and `XHDR`. -/
def hdr (session : Session) (verb : Verb) (args : List Str) : Reply :=
  if verb = .hdr ∧ session.config.capabilities = .noOver then notRecognised
  else
    match args.head? with
    | none => .plain 501 "HDR needs a header name"
    | some field =>
        match messageIdArgument args[1]? with
        | some id =>
            match session.corpus.findById id with
            | none => .plain 430 "no such article"
            | some (_, _, article) => headersFollow verb field [headerLine 0 article field]
        | none =>
            match session.selectedGroup with
            | none => noNewsgroupSelected
            | some group =>
                match session.hdrRange args with
                | .error reply => reply
                | .ok (low, high) =>
                    headersFollow verb field
                      ((articlesBetween group low (high.getD u64Max)).map fun entry =>
                        headerLine entry.1 entry.2 field)

/-- `NEXT` and `LAST`. -/
def step (session : Session) (verb : Verb) : Session × Reply :=
  match session.selectedGroup with
  | none => (session, noNewsgroupSelected)
  | some group =>
      match session.state.currentArticle with
      | none => (session, noArticleSelected)
      | some current =>
          let next :=
            if verb = .next then
              group.articles.entries.find? fun entry => decide (current + 1 ≤ entry.1)
            else (group.articles.entries.filter fun entry => decide (entry.1 < current)).getLast?
          match next with
          | some (number, article) =>
              ({ session with state := { session.state with currentArticle := some number } },
                { code := 223, text := display number.toNat ++ ' ' :: article.messageId })
          | none =>
              (session, if verb = .next then .plain 421 "no next article" else .plain 422 "no previous article")

/-! ### Posting -/

/-- `POST`: the first half of the exchange. -/
def post (session : Session) : Reply × Flow :=
  if session.config.greeting = .noPosting then (.plain 440 "posting not permitted", .continue)
  else (.plain 340 "send the article; end with a lone .", .readArticle)

/-- The id of a posted article: its own, or one the server assigns. -/
def assignedId (session : Session) (article : PostedArticle) : Str :=
  (article.header "Message-ID").getD
    ('<' :: display session.state.commandsServed ++ '.' :: display session.processId ++
      "@test.invalid>".toList)

/-- The second half: what the client sent, and whether it is taken. -/
def acceptArticle (session : Session) (lines : List Bytes) : Session × Reply :=
  let article : PostedArticle := { lines }
  match session.config.quirks.refusePost with
  | some reason => (session, { code := 441, text := reason })
  | none =>
      match article.missing with
      | some required => (session, .plain 441 ("missing " ++ required ++ " header"))
      | none =>
          let messageId := session.assignedId article
          let stored : Article := { messageId, head := article.head, body := article.body }
          let (corpus, filed) := Corpus.inject stored article.newsgroups session.corpus
          if filed.isEmpty then ({ session with corpus }, .plain 441 "no such newsgroup here")
          else
            ({ session with corpus, postbox := session.postbox.map (· ++ [article]) },
              { code := 240, text := "article received ".toList ++ messageId })

/-! ### Dispatch -/

/-- A command that is known and may be given. -/
def perform (session : Session) (verb : Verb) (args : List Str) : Session × Reply × Flow :=
  let stays (reply : Reply) := (session, reply, Flow.continue)
  let goesOn (result : Session × Reply) := (result.1, result.2, Flow.continue)
  match verb with
  | .quit => (session, .plain 205 "closing connection", .close)
  | .capabilities => stays session.capabilities
  | .mode => goesOn (session.mode args)
  | .authinfo => goesOn (session.authinfo args)
  | .date => stays date
  | .help => stays session.help
  | .starttls => (session, session.starttls)
  | .group => goesOn (session.group args)
  | .listgroup => goesOn (session.listgroup args)
  | .list => stays (session.list args)
  | .article => goesOn (session.fetch .article args)
  | .head => goesOn (session.fetch .head args)
  | .body => goesOn (session.fetch .body args)
  | .stat => goesOn (session.fetch .stat args)
  | .over => stays (session.over .over args)
  | .xover => stays (session.over .xover args)
  | .hdr => stays (session.hdr .hdr args)
  | .xhdr => stays (session.hdr .xhdr args)
  | .newgroups => stays (session.newgroups args)
  | .post => (session, session.post)
  | .next => goesOn (session.step .next)
  | .last => goesOn (session.step .last)

/-- What a command line is answered with. -/
def answer (session : Session) (text : Str) : Session × Reply × Flow :=
  let tokens := StatusLine.splitAsciiWhitespace text
  let verb := (tokens.headD []).map toAsciiUpper
  let authenticate := (session, Reply.plain 480 "authentication required", Flow.continue)
  if verb = [] then (session, .plain 500 "empty command", .continue)
  else
    match Verb.parse verb with
    | some known =>
        if session.needsAuth && !known.servedUnauthenticated then authenticate
        else session.perform known tokens.tail
    | none =>
        if session.needsAuth then authenticate
        else
          (session, { code := 500, text := "command ".toList ++ verb ++ " not recognised".toList }, .continue)

/-- The answer to a command line, none where the connection is closed without one. -/
def dispatch (session : Session) (line : Bytes) : Session × Option Reply × Flow :=
  let served := session.state.commandsServed + 1
  let session := { session with state := { session.state with commandsServed := served } }
  if session.config.quirks.closeAfterCommands.any (· < served) then (session, none, .close)
  else
    let (session, reply, flow) := session.answer (fromUtf8Lossy line)
    (session, some reply, flow)

/-- Writes an answer. -/
def write (session : Session) (reply : Reply) : Session × Bytes :=
  let status := statusLine session.config reply.code reply.text
  match reply.block with
  | none => (session, status)
  | some lines =>
      let (state, octets) := block session.config session.state lines
      ({ session with state }, status ++ octets)

/-- Handles one command line. -/
def handle (session : Session) (line : Bytes) : Session × Flow × Bytes :=
  let (session, reply, flow) := session.dispatch line
  let (session, octets) := (reply.map session.write).getD (session, [])
  (session, if session.state.closeRequested then .close else flow, octets)

/-! ## Looking an article up -/

section

variable {session : Session}

/-- **What `find_article` comes to**: an error of one of its two parts, or what the corpus or the selected group
has under the id or the number. -/
theorem findArticle_cases (session : Session) (args : List Str) :
    (∃ reply, session.articleNumber args = .error reply ∧ session.findArticle args = .error reply) ∨
    session.findArticle args =
      .ok ((args.head?.bind session.corpus.findById).map fun found => (0, found.2.2)) ∨
    session.findArticle args = .error noNewsgroupSelected ∨
    ∃ number group, session.selectedGroup = some group ∧
      session.findArticle args = .ok ((group.articleByNumber number).map fun article => (number, article)) := by
  unfold findArticle
  cases session.articleNumber args with
  | error reply => exact Or.inl ⟨reply, rfl, rfl⟩
  | ok number? =>
      cases number? with
      | none => exact Or.inr (Or.inl rfl)
      | some number =>
          cases hgroup : session.selectedGroup with
          | none => exact Or.inr (Or.inr (Or.inl rfl))
          | some group => exact Or.inr (Or.inr (Or.inr ⟨number, group, rfl, rfl⟩))

/-- An article that is found is one of the corpus, under number 0, or one of the selected group under its own. -/
theorem findArticle_found {args : List Str} {number : UInt64} {article : Article}
    (h : session.findArticle args = .ok (some (number, article))) :
    (number = 0 ∧ ∃ id found, session.corpus.findById id = some found ∧ found.2.2 = article) ∨
    ∃ group, session.selectedGroup = some group ∧ group.articleByNumber number = some article := by
  rcases session.findArticle_cases args with ⟨_, _, heq⟩ | heq | heq | ⟨n, group, hgroup, heq⟩ <;> rw [h] at heq
  · cases heq
  · obtain ⟨found, hfound, hpair⟩ := Option.map_eq_some_iff.mp (Except.ok.inj heq).symm
    obtain ⟨id, _, hbyId⟩ := Option.bind_eq_some_iff.mp hfound
    cases hpair
    exact Or.inl ⟨rfl, id, found, hbyId, rfl⟩
  · cases heq
  · obtain ⟨_, harticle, hpair⟩ := Option.map_eq_some_iff.mp (Except.ok.inj heq).symm
    cases hpair
    exact Or.inr ⟨group, hgroup, harticle⟩

end

end Session

end Nntp.TestServer
