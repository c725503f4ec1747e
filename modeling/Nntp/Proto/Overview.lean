import Nntp.Proto.MessageId
import Nntp.Proto.Utf8

/-!
# Overview records

`overview.rs`: the lines of an `OVER` or `XOVER` response, read with the field layout that
`LIST OVERVIEW.FMT` describes.
-/

namespace Nntp.Proto

/-- One field described by `LIST OVERVIEW.FMT`. -/
structure OverviewField where
  /-- The field name without its trailing colon or `:full` suffix. -/
  name : Str
  /-- Whether the value on the wire includes the header name and colon. -/
  full : Bool
  /-- Whether this is server metadata rather than a header field. -/
  metadata : Bool
  deriving DecidableEq, Repr

namespace OverviewField

/-- One line of `LIST OVERVIEW.FMT`. -/
def parse (line : Str) : Option OverviewField :=
  let text := trim line
  if text.isEmpty then none
  else
    match stripPrefix [':'] text with
    | some name => some { name := toAsciiLowercase name, full := false, metadata := true }
    | none =>
        match stripSuffix ":full".toList text with
        | some name => some { name, full := true, metadata := false }
        | none =>
            some { name := (stripSuffix [':'] text).getD text, full := false, metadata := false }

/-- Whether this field is the given standard field, compared case-insensitively. -/
def is (field : OverviewField) (name : String) : Bool := eqIgnoreAsciiCase field.name name.toList

end OverviewField

/-- The field layout of `OVER` responses. -/
structure OverviewFmt where
  fields : List OverviewField
  deriving DecidableEq, Repr

/-- The seven fields every `OVER` response starts with, after the article number. -/
def standardFields : List String :=
  ["Subject:", "From:", "Date:", "Message-ID:", "References:", ":bytes", ":lines"]

namespace OverviewFmt

/-- The layout every server must support. -/
def standard : OverviewFmt := ⟨standardFields.filterMap fun name => OverviewField.parse name.toList⟩

/-- Parses the lines of a `LIST OVERVIEW.FMT` data block. A leading article number field is dropped,
and an empty layout is the standard one. -/
def parse (decoders : Decoders) (block : List Bytes) : OverviewFmt :=
  let fields := block.filterMap fun line => OverviewField.parse (decode8bitLossy decoders line)
  let fields :=
    if fields.head?.any fun field => field.is "number" || field.is "article" then fields.tail
    else fields
  if fields.isEmpty then standard else ⟨fields⟩

/-- The field at `index`, past the article number. -/
def nameAt (fmt : OverviewFmt) (index : Nat) : Option OverviewField := fmt.fields[index]?

end OverviewFmt

/-- One article's overview data. -/
structure OverviewRecord where
  number : UInt64
  subject : Str
  from_ : Str
  dateRaw : Str
  date : Option DateTime
  messageId : Option MessageId
  references : List MessageId
  bytes : Option UInt64
  lines : Option UInt64
  extra : List (Str × Str)
  deriving DecidableEq, Repr

namespace OverviewRecord

/-- A record with every field after the number empty. -/
def bare (number : UInt64) : OverviewRecord where
  number := number
  subject := []
  from_ := []
  dateRaw := []
  date := none
  messageId := none
  references := []
  bytes := none
  lines := none
  extra := []

end OverviewRecord

/-- Removes a `Name: ` prefix from a `:full` overview field. The blank is optional. -/
def stripFullPrefix (raw : Bytes) (name : Str) : Bytes :=
  let prefixLen := utf8Len name + 1
  if raw.length < prefixLen then raw
  else
    match stripSuffix (asBytes [':']) (raw.take prefixLen) with
    | none => raw
    | some candidate =>
        if candidate.map toAsciiLowerByte = (asBytes name).map toAsciiLowerByte then
          match raw.drop prefixLen with
          | 0x20 :: tail => tail
          | 0x09 :: tail => tail
          | rest => rest
        else raw

namespace OverviewRecord

variable (decoders : Decoders)

def parseCount (raw : Bytes) : Option UInt64 := parseU64 (trim (decode8bitLossy decoders raw))

/-- Stores the field at `index` where the layout says it belongs. -/
def setField (fmt : OverviewFmt) (record : OverviewRecord) (index : Nat) (raw : Bytes) :
    OverviewRecord :=
  let text := fun raw => trim (decoders.decodeHeaderValue raw)
  match fmt.nameAt index with
  | none =>
      { record with
        extra := record.extra ++ [("field-".toList ++ display (index + 1), text raw)] }
  | some field =>
      let raw := if field.full then stripFullPrefix raw field.name else raw
      if field.is "subject" then { record with subject := text raw }
      else if field.is "from" then { record with from_ := text raw }
      else if field.is "date" then
        let dateRaw := trim (decode8bitLossy decoders raw)
        { record with dateRaw, date := decoders.parseDate dateRaw }
      else if field.is "message-id" then
        { record with messageId := (MessageId.parse (decode8bitLossy decoders raw)).toOption }
      else if field.is "references" then
        { record with references := MessageId.parseList (decode8bitLossy decoders raw) }
      else if field.is "bytes" then { record with bytes := parseCount decoders raw }
      else if field.is "lines" then { record with lines := parseCount decoders raw }
      else { record with extra := record.extra ++ [(field.name, text raw)] }

/-- The loop of `OverviewRecord::parse` over the fields after the number. -/
def setFields (fmt : OverviewFmt) : OverviewRecord → Nat → List Bytes → OverviewRecord
  | record, _, [] => record
  | record, index, raw :: parts =>
      setFields fmt (setField decoders fmt record index raw) (index + 1) parts

/-- Parses one overview line. -/
def parse (line : Bytes) (fmt : OverviewFmt) : Except ProtoError OverviewRecord :=
  let parts := splitAll (· == 0x09) line
  let rawNumber := decode8bitLossy decoders parts.1
  match parseU64 (trim rawNumber) with
  | none => .error (.invalidNumber "OVER line".toList rawNumber)
  | some number => .ok (setFields decoders fmt (bare number) 0 parts.2)

/-- Parses a whole data block: the records, and the lines that are none. -/
def parseBlock (block : List Bytes) (fmt : OverviewFmt) : List OverviewRecord × List Str :=
  block.foldl (fun result line =>
    if line.isEmpty then result
    else
      match parse decoders line fmt with
      | .ok record => (result.1 ++ [record], result.2)
      | .error _ => (result.1, result.2 ++ [decode8bitLossy decoders line])) ([], [])

@[simp] theorem setField_number (fmt : OverviewFmt) (record : OverviewRecord) (index : Nat)
    (raw : Bytes) : (setField decoders fmt record index raw).number = record.number := by
  unfold setField
  cases fmt.nameAt index with
  | none => rfl
  | some field =>
      dsimp only
      split_ifs <;> rfl

@[simp] theorem setFields_number (fmt : OverviewFmt) (record : OverviewRecord) (index : Nat)
    (parts : List Bytes) : (setFields decoders fmt record index parts).number = record.number := by
  induction parts generalizing record index with
  | nil => rfl
  | cons raw parts ih => rw [setFields, ih, setField_number]

end OverviewRecord

end Nntp.Proto
