import Nntp.Proto.Post
import Nntp.Proto.Spec
import Nntp.Proto.Response
import Nntp.Proto.Wildmat
import Nntp.Client.Error

/-!
# The messages between the interface and the worker

`protocol.rs`, the vocabulary of the two channels. A failure carries its error instead of the text made
from it.
-/

namespace Nntp.Proto

/-- The watermarks of a group that holds articles. -/
def GroupSummary.range (s : GroupSummary) : Option (UInt64 × UInt64) :=
  if s.isEmpty then none else some (s.low, s.high)

/-- A fetched article as far as the reader looks into it: its headers and its text, decoded. -/
structure Article where
  number : Option UInt64
  subject : Str
  author : Str
  followupTo : Option Str
  newsgroups : Option Str
  displayText : List Str
  attachments : List Str
  messageId : Option MessageId
  references : List MessageId
  deriving DecidableEq, Repr

end Nntp.Proto

namespace Nntp.Tui

open Nntp.Proto Nntp.Client

/-- Identifies one overview fetch, so its results can be told from another's. -/
abbrev FetchToken := Nat

/-- Which groups to ask the server for. -/
inductive GroupScope where
  | subscribed (patterns : List Wildmat)
  | search (pattern : Wildmat)
  deriving DecidableEq, Repr

namespace GroupScope

/-- Everything the server carries. -/
def everything : GroupScope := subscribed []

/-- The patterns to send, in order. -/
def patterns : GroupScope → List Wildmat
  | subscribed patterns => patterns
  | search pattern => [pattern]

/-- What this fetch is asking for, as a noun phrase. -/
def describe : GroupScope → Str
  | subscribed [] => "the group list".toList
  | subscribed (_ :: _) => "the subscribed groups".toList
  | search pattern => "groups matching ".toList ++ pattern.asStr

end GroupScope

/-- Something the user interface wants done. -/
inductive Request where
  | loadGroups (scope : GroupScope)
  | openGroup (group : GroupName) (count : UInt64) (token : FetchToken)
  | loadOverview (group : GroupName) (range : Range) (token : FetchToken)
  | loadArticle (group : Option GroupName) (spec : ArticleSpec)
  | post (draft : Draft)
  | shutdown
  deriving DecidableEq, Repr

/-- What a request is called in a message. -/
def describe : Request → Str
  | .loadGroups scope => "fetching ".toList ++ scope.describe
  | .openGroup group _ _ => "opening ".toList ++ group.asStr
  | .loadOverview group range _ => "listing ".toList ++ group.asStr ++ ' ' :: range.toArgument
  | .loadArticle _ (.number n) => "fetching article ".toList ++ display n.toNat
  | .loadArticle _ (.messageId id) => "fetching ".toList ++ id.asStr
  | .loadArticle _ .current => "fetching the current article".toList
  | .post draft => "posting to ".toList ++ joinWith ", ".toList draft.newsgroups
  | .shutdown => "shutting down".toList

/-- A group as the interface shows it. -/
structure GroupRow where
  name : GroupName
  low : UInt64
  high : UInt64
  status : PostingStatus
  description : Option Str
  deriving DecidableEq, Repr

/-- An upper bound on the number of articles. -/
def GroupRow.articleBound (row : GroupRow) : UInt64 :=
  if row.low ≤ row.high ∧ 0 < row.high then row.high - row.low + 1 else 0

def GroupRow.isEmpty (row : GroupRow) : Bool := row.articleBound == 0

/-- Something that happened, for the user interface to react to. -/
inductive Event where
  | connected (server greeting : Str) (encrypted : Bool)
  | groups (rows : List GroupRow) (scope : GroupScope) (filteredLocally : Bool)
  | groupOpened (summary : GroupSummary)
  | overviewChunk (group : GroupName) (token : FetchToken) (records : List OverviewRecord)
      (skipped : Nat)
  | overviewComplete (group : GroupName) (token : FetchToken)
  | article (article : Article)
  | posted (text : Str)
  | progress (message : Str)
  | cancelled (context : Str)
  | failed (context : Str) (error : ClientError)
  | disconnected
  | stopped
  deriving DecidableEq, Repr

end Nntp.Tui
