import Nntp.Proto.Group
import Nntp.Proto.Utf8

/-!
# Status lines

`response.rs`: the line that begins every response. Also `GroupSummary` of `group.rs`, which is read
from one.
-/

namespace Nntp.Proto

/-- A parsed status line. -/
structure StatusLine where
  code : Nat
  text : Str
  deriving DecidableEq, Repr

/-- Removes a single trailing CRLF or LF. -/
def stripEol (line : Bytes) : Bytes :=
  let line := (stripSuffix [0x0A] line).getD line
  (stripSuffix [0x0D] line).getD line

def isDigitByte (b : UInt8) : Bool := 0x30 ≤ b && b ≤ 0x39

/-- The value of the three digits. -/
def codeValue (digits : Bytes) : Nat := digits.foldl (fun acc d => acc * 10 + (d.toNat - 0x30)) 0

namespace StatusLine

/-- Parses a status line: three digits, then nothing, or a blank and text. -/
def parse (line : Bytes) : Except ProtoError StatusLine :=
  let line := stripEol line
  let malformed := ProtoError.malformedStatusLine (fromUtf8Lossy line)
  if line.length < 3 then .error malformed
  else if (line.take 3).all isDigitByte then
    let code := codeValue (line.take 3)
    match line.drop 3 with
    | [] => .ok ⟨code, []⟩
    | b :: tail =>
        if b = 0x20 ∨ b = 0x09 then .ok ⟨code, fromUtf8Lossy tail⟩ else .error malformed
  else .error malformed

/-- `split_ascii_whitespace`. -/
def splitAsciiWhitespace (text : Str) : List Str :=
  let pieces := splitAll (fun c => c == ' ' || c == '\t' || c == '\n' || c == '\r' ||
    c.toNat == 0x0C) text
  (pieces.1 :: pieces.2).filter fun piece => !piece.isEmpty

/-- The whitespace-separated tokens of the text. -/
def args (line : StatusLine) : List Str := splitAsciiWhitespace line.text

/-- The `n`th token. -/
def arg (line : StatusLine) (n : Nat) (context field : String) : Except ProtoError Str :=
  match line.args[n]? with
  | some raw => .ok raw
  | none => .error (.missingField context.toList field.toList)

/-- The `n`th token as a `u64`. -/
def argU64 (line : StatusLine) (n : Nat) (context field : String) : Except ProtoError UInt64 := do
  let raw ← line.arg n context field
  match parseU64 raw with
  | some value => pure value
  | none => throw (.invalidNumber context.toList raw)

end StatusLine

/-- Whether a response code reports a failure (4xx or 5xx). -/
def isErrorCode (code : Nat) : Bool := decide (400 ≤ code) && decide (code ≤ 599)

/-- Whether a response with this code is followed by a data block whatever the command was. -/
def alwaysHasDataBlock (code : Nat) : Bool :=
  code == 100 || code == 101 || code == 215 || code == 220 || code == 221 || code == 222 ||
    code == 224 || code == 225 || code == 230 || code == 231

/-- The estimated article counts returned when a group is selected. -/
structure GroupSummary where
  name : GroupName
  estimatedCount : UInt64
  low : UInt64
  high : UInt64
  deriving DecidableEq, Repr

namespace GroupSummary

/-- Parses a `211` status line. A server may leave the name out. -/
def parse (line : StatusLine) (fallbackName : Option GroupName) :
    Except ProtoError GroupSummary := do
  let context := "GROUP response"
  let estimatedCount ← line.argU64 0 context "count"
  let low ← line.argU64 1 context "low"
  let high ← line.argU64 2 context "high"
  let name ← match line.args[3]? with
    | some raw => GroupName.parse raw
    | none =>
        match fallbackName with
        | some name => pure name
        | none => throw (.missingField context.toList "group".toList)
  pure { name, estimatedCount, low, high }

/-- Whether the group holds no articles. -/
def isEmpty (s : GroupSummary) : Bool :=
  s.estimatedCount == 0 || s.high == 0 || decide (s.high < s.low)

end GroupSummary

end Nntp.Proto
