import Nntp.Proto.Spec
import Nntp.Proto.Wildmat
import Nntp.Proto.Group
import Nntp.Proto.Headers
import Nntp.Proto.Date

/-!
# Commands

`command.rs`: the typed form of what a client sends, and its encoding. Every command line is checked
in one place, `finish`, before it is written.
-/

namespace Nntp.Proto

/-- The maximum length of a command line in octets, including the terminating CRLF. -/
def maxCommandLen : Nat := 512

/-- Which `LIST` variant to send. -/
inductive ListKeyword where
  | active (pattern : Option Wildmat)
  | activeTimes (pattern : Option Wildmat)
  | newsgroups (pattern : Option Wildmat)
  | overviewFmt
  | headers
  deriving DecidableEq, Repr

namespace ListKeyword

def keyword : ListKeyword → String
  | active _ => "ACTIVE"
  | activeTimes _ => "ACTIVE.TIMES"
  | newsgroups _ => "NEWSGROUPS"
  | overviewFmt => "OVERVIEW.FMT"
  | headers => "HEADERS"

def wildmat : ListKeyword → Option Wildmat
  | active w => w
  | activeTimes w => w
  | newsgroups w => w
  | overviewFmt => none
  | headers => none

end ListKeyword

/-- The commands of a reading and posting session. -/
inductive Command where
  | capabilities (keyword : Option Str)
  | modeReader
  | quit
  | startTls
  | authInfoUser (user : Str)
  | authInfoPass (pass : Str)
  | group (name : GroupName)
  | listGroup (group : Option GroupName) (range : Option Range)
  | last
  | next
  | article (spec : ArticleSpec)
  | head (spec : ArticleSpec)
  | body (spec : ArticleSpec)
  | stat (spec : ArticleSpec)
  | date
  | help
  | newGroups (since : UtcTime)
  | list (keyword : ListKeyword)
  | «over» (target : RangeOrId)
  | xover (range : Range)
  | hdr (field : HeaderName) (target : RangeOrId)
  | post
  | xhdr (field : HeaderName) (target : RangeOrId)
  deriving DecidableEq

namespace Command

/-- The command verb, for error messages. -/
def name : Command → String
  | capabilities _ => "CAPABILITIES"
  | modeReader => "MODE READER"
  | quit => "QUIT"
  | startTls => "STARTTLS"
  | authInfoUser _ => "AUTHINFO USER"
  | authInfoPass _ => "AUTHINFO PASS"
  | group _ => "GROUP"
  | listGroup _ _ => "LISTGROUP"
  | last => "LAST"
  | next => "NEXT"
  | article _ => "ARTICLE"
  | head _ => "HEAD"
  | body _ => "BODY"
  | stat _ => "STAT"
  | date => "DATE"
  | help => "HELP"
  | newGroups _ => "NEWGROUPS"
  | list _ => "LIST"
  | «over» _ => "OVER"
  | xover _ => "XOVER"
  | hdr _ _ => "HDR"
  | post => "POST"
  | xhdr _ _ => "XHDR"

/-- Whether a successful response to this command is followed by a data block. -/
def expectsDataBlock : Command → Bool
  | capabilities _ => true
  | listGroup _ _ => true
  | article _ => true
  | head _ => true
  | body _ => true
  | help => true
  | newGroups _ => true
  | list _ => true
  | «over» _ => true
  | xover _ => true
  | hdr _ _ => true
  | xhdr _ _ => true
  | modeReader => false
  | quit => false
  | startTls => false
  | authInfoUser _ => false
  | authInfoPass _ => false
  | group _ => false
  | last => false
  | next => false
  | stat _ => false
  -- the client sends the block
  | post => false
  | date => false

/-- `push_with_optional_arg` on a fresh line. -/
def withOptionalArg (verb : String) (arg : Option Str) : Str :=
  verb.toList ++ (arg.map fun arg => ' ' :: arg).getD []

/-- `push_field_command` on a fresh line. -/
def fieldCommand (verb : String) (field : HeaderName) (target : RangeOrId) : Str :=
  verb.toList ++ ' ' :: field.asStr ++ (target.toArgument.map fun arg => ' ' :: arg).getD []

/-- The line that is assembled before it is checked. -/
def line : Command → Str
  | capabilities keyword => withOptionalArg "CAPABILITIES" keyword
  | modeReader => "MODE READER".toList
  | quit => "QUIT".toList
  | startTls => "STARTTLS".toList
  | authInfoUser user => "AUTHINFO USER ".toList ++ user
  | authInfoPass pass => "AUTHINFO PASS ".toList ++ pass
  | group name => "GROUP ".toList ++ name.asStr
  | listGroup none _ => "LISTGROUP".toList
  | listGroup (some name) range =>
      -- a range without a group is not valid syntax
      withOptionalArg "LISTGROUP" (some (name.asStr ++ (range.map fun r => ' ' :: r.toArgument).getD []))
  | last => "LAST".toList
  | next => "NEXT".toList
  | article spec => withOptionalArg "ARTICLE" spec.toArgument
  | head spec => withOptionalArg "HEAD" spec.toArgument
  | body spec => withOptionalArg "BODY" spec.toArgument
  | stat spec => withOptionalArg "STAT" spec.toArgument
  | date => "DATE".toList
  | help => "HELP".toList
  | newGroups since => "NEWGROUPS ".toList ++ since.display ++ " GMT".toList
  | list keyword =>
      withOptionalArg "LIST" (some (withOptionalArg keyword.keyword (keyword.wildmat.map (·.asStr))))
  | «over» target => withOptionalArg "OVER" target.toArgument
  | xover range => withOptionalArg "XOVER" (some range.toArgument)
  | hdr field target => fieldCommand "HDR" field target
  | post => "POST".toList
  | xhdr field target => fieldCommand "XHDR" field target

def isAsciiControl (b : UInt8) : Bool := b < 0x20 || b == 0x7F

/-- Validates an assembled command line and appends CRLF. -/
def finish (command : Command) (line : Str) : Except ProtoError Bytes :=
  if (asBytes line).any isAsciiControl then .error (.illegalCommandArgument command.name.toList)
  else if maxCommandLen < utf8Len line + 2 then
    .error (.commandTooLong command.name.toList (utf8Len line + 2))
  else .ok (asBytes line ++ [0x0D, 0x0A])

/-- Encodes the command, terminated by CRLF. -/
def toWire (command : Command) : Except ProtoError Bytes := command.finish command.line

end Command

end Nntp.Proto
