import Nntp.Proto.Text

/-!
# Newsgroup names

`GroupName` of `group.rs`, and the lines of `LIST ACTIVE`.
-/

namespace Nntp.Proto

/-- The longest group name accepted. -/
def maxGroupNameLen : Nat := 480

/-- What `GroupName::parse` requires: printable US-ASCII without wildmat metacharacters. -/
def GroupName.isWellFormed (value : Str) : Bool :=
  !value.isEmpty && decide (utf8Len value ≤ maxGroupNameLen) &&
    value.all fun c => isAsciiGraphic c &&
      !(c == '*' || c == '?' || c == ',' || c == '!' || c == '\\')

/-- A newsgroup name. -/
structure GroupName where
  asStr : Str
  wellFormed : GroupName.isWellFormed asStr = true
  deriving DecidableEq, Repr

/-- Validates and wraps a group name. -/
def GroupName.parse (value : Str) : Except ProtoError GroupName :=
  if h : isWellFormed value = true then .ok ⟨value, h⟩ else .error (.invalidGroupName value)

/-- The group that examples are about. -/
def GroupName.miscTest : GroupName where
  asStr := "misc.test".toList
  wellFormed := by decide

/-- Whether a group accepts postings, as `LIST ACTIVE` flags it. -/
inductive PostingStatus where
  | permitted
  | prohibited
  | moderated
  | junked
  | disabled
  | aliasFor (target : Str)
  | other (flag : Str)
  deriving DecidableEq, Repr

/-- Interprets the status field of a `LIST ACTIVE` line. -/
def PostingStatus.parse (raw : Str) : PostingStatus :=
  if raw = ['y'] then permitted
  else if raw = ['n'] then prohibited
  else if raw = ['m'] then moderated
  else if raw = ['j'] then junked
  else if raw = ['x'] then disabled
  else
    match stripPrefix ['='] raw with
    | some target => aliasFor target
    | none => other raw

/-- One line of `LIST ACTIVE`: `group high low status`. -/
structure ActiveEntry where
  name : GroupName
  high : UInt64
  low : UInt64
  status : PostingStatus
  deriving DecidableEq, Repr

end Nntp.Proto
