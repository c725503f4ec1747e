import Nntp.Proto.Text

/-!
# Message identifiers

`message_id.rs`. A `MessageId` carries the proof of what `MessageId::parse` checks, so one can always
be written into a command line.
-/

namespace Nntp.Proto

/-- The maximum length of a message-id, in octets, including the angle brackets. -/
def maxMessageIdLen : Nat := 250

/-- What lies between the angle brackets of `text`. -/
def MessageId.between (text : Str) : Option Str :=
  (stripPrefix ['<'] text).bind (stripSuffix ['>'])

/-- What `MessageId::parse` requires of the trimmed value. -/
def MessageId.isWellFormed (text : Str) : Bool :=
  decide (utf8Len text ≤ maxMessageIdLen) &&
    match MessageId.between text with
    | none => false
    | some inner =>
        !inner.isEmpty &&
          !inner.any fun c => isWhitespace c || isControl c || c == '<' || c == '>'

/-- A message identifier, including its angle brackets. -/
structure MessageId where
  asStr : Str
  wellFormed : MessageId.isWellFormed asStr = true
  deriving DecidableEq, Repr

namespace MessageId

/-- Validates and wraps a message-id, trimming surrounding whitespace. -/
def parse (value : Str) : Except ProtoError MessageId :=
  let trimmed := trim value
  if h : isWellFormed trimmed = true then .ok ⟨trimmed, h⟩
  else .error (.invalidMessageId trimmed)

/-- The message-id without its angle brackets. -/
def inner (id : MessageId) : Str := (between id.asStr).getD id.asStr

/-- Every message-id in a `References`-style header value; unparseable fragments are skipped. -/
def parseList (value : Str) : List MessageId :=
  match _hopen : splitOnce (· == '<') value with
  | none => []
  | some (_, afterOpen) =>
      match _hclose : splitOnce (· == '>') afterOpen with
      | none => []
      | some (candidate, rest) =>
          match parse ('<' :: candidate ++ ['>']) with
          | .ok id => id :: parseList rest
          | .error _ => parseList rest
termination_by value.length
decreasing_by
  all_goals
    have h1 := splitOnce_length _hopen
    have h2 := splitOnce_length _hclose
    omega

end MessageId

end Nntp.Proto
