import Nntp.Proto.Date
import Nntp.Proto.Overview
import Nntp.Proto.Response

/-!
# The lines of a response

What data blocks carry besides articles and overviews: `capabilities.rs`, the `LIST` family of `list.rs` and
the entries of `hdr.rs`.
-/

namespace Nntp.Proto

/-! ## Capabilities -/

/-- One advertised capability. -/
structure Capability where
  label : Str
  args : List Str
  deriving DecidableEq, Repr

/-- The parsed capability list. -/
structure Capabilities where
  entries : List Capability := []
  deriving DecidableEq, Repr

namespace Capabilities

/-- Parses the data block returned by `CAPABILITIES`. Unknown labels are kept. -/
def parse (decoders : Decoders) (block : List Bytes) : Capabilities where
  entries := block.filterMap fun line =>
    match StatusLine.splitAsciiWhitespace (decode8bitLossy decoders line) with
    | [] => none
    | label :: args => some { label, args }

def isEmpty (c : Capabilities) : Bool := c.entries.isEmpty

/-- Looks up a capability by label, case-insensitively. -/
def get (c : Capabilities) (label : String) : Option Capability :=
  c.entries.find? fun entry => eqIgnoreAsciiCase entry.label label.toList

def supports (c : Capabilities) (label : String) : Bool := (c.get label).isSome

def hasReader (c : Capabilities) : Bool := c.supports "READER"

/-- Whether `MODE READER` is likely to be needed. -/
def needsModeReader (c : Capabilities) : Bool := c.supports "MODE-READER" && !c.hasReader

def hasPost (c : Capabilities) : Bool := c.supports "POST"

def hasOver (c : Capabilities) : Bool := c.supports "OVER"

def hasHdr (c : Capabilities) : Bool := c.supports "HDR"

def hasStarttls (c : Capabilities) : Bool := c.supports "STARTTLS"

end Capabilities

/-! ## `LIST` -/

/-- What was understood of a block, and what was not. -/
structure ListResult (α : Type) where
  entries : List α
  skipped : List Str
  deriving DecidableEq, Repr

/-- The entries of a block, and the lines that are none. -/
def ListResult.collect {α : Type} (results : List (Except Str α)) : ListResult α where
  entries := results.filterMap Except.toOption
  skipped := results.filterMap fun r => match r with
    | .ok _ => none
    | .error line => some line

/-- `next_field` on the fields that are left. -/
def nextField (context field : String) : List Str → Except ProtoError (Str × List Str)
  | [] => .error (.missingField context.toList field.toList)
  | raw :: fields => .ok (raw, fields)

/-- `parse_u64` of `list.rs`. -/
def parseNumber (context field : String) (raw : Str) : Except ProtoError UInt64 :=
  match parseU64 raw with
  | some n => .ok n
  | none => .error (.invalidNumber context.toList (field.toList ++ '=' :: raw))

/-- One line of `LIST ACTIVE`: `high` comes before `low`. -/
def ActiveEntry.parse (decoders : Decoders) (line : Bytes) : Except ProtoError ActiveEntry := do
  let context := "LIST ACTIVE line"
  let fields := StatusLine.splitAsciiWhitespace (decode8bitLossy decoders line)
  let (rawName, fields) ← nextField context "group" fields
  let name ← GroupName.parse rawName
  let (rawHigh, fields) ← nextField context "high" fields
  let high ← parseNumber context "high" rawHigh
  let (rawLow, fields) ← nextField context "low" fields
  let low ← parseNumber context "low" rawLow
  let (rawStatus, _) ← nextField context "status" fields
  pure { name, high, low, status := PostingStatus.parse rawStatus }

/-- One line of `LIST NEWSGROUPS`. -/
structure NewsgroupEntry where
  name : GroupName
  description : Str
  deriving DecidableEq, Repr

/-- Any run of white space ends the name. -/
def NewsgroupEntry.parse (decoders : Decoders) (line : Bytes) : Except ProtoError NewsgroupEntry :=
  let trimmed := trimStart (decode8bitLossy decoders line)
  let rawName := trimmed.takeWhile fun c => !isWhitespace c
  if rawName.isEmpty then .error (.missingField "LIST NEWSGROUPS line".toList "group".toList)
  else do
    let name ← GroupName.parse rawName
    pure { name, description := trim (trimmed.drop rawName.length) }

/-- One line of `LIST ACTIVE.TIMES`. -/
structure ActiveTimesEntry where
  name : GroupName
  /-- in seconds since 1970, none for a time that cannot be represented -/
  created : Option UInt64
  creator : Str
  deriving DecidableEq, Repr

/-- The last second of the calendar that `DateTime::from_timestamp` knows. -/
def maxTimestamp : UInt64 := 8210266876799

def ActiveTimesEntry.parse (decoders : Decoders) (line : Bytes) :
    Except ProtoError ActiveTimesEntry := do
  let context := "LIST ACTIVE.TIMES line"
  let fields := StatusLine.splitAsciiWhitespace (decode8bitLossy decoders line)
  let (rawName, fields) ← nextField context "group" fields
  let name ← GroupName.parse rawName
  let (rawSeconds, fields) ← nextField context "created" fields
  let seconds ← parseNumber context "created" rawSeconds
  pure
    { name
      created := if seconds ≤ maxTimestamp then some seconds else none
      creator := (fields.intersperse [' ']).flatten }

/-! ## `HDR` -/

/-- One article's value for the requested header. -/
structure HeaderEntry where
  number : UInt64
  value : Str
  deriving DecidableEq, Repr

/-- One line of an `HDR` response: only the first space separates. -/
def HeaderEntry.parse (decoders : Decoders) (line : Bytes) : Option HeaderEntry := do
  let line := stripEol line
  let (rawNumber, rest) := (splitOnce (· == 0x20) line).getD (line, [])
  let number ← parseU64 (← fromUtf8 rawNumber)
  pure { number, value := decoders.decodeHeaderValue rest }

end Nntp.Proto
