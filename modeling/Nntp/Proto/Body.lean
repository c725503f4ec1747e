import Nntp.Proto.EncodedWord

/-!
# MIME bodies

`body.rs`, and `ContentType` and `TransferEncoding` of `article.rs`: the tree of parts an article consists of.
What is shown of a tree, and how its text is decoded, is left out.
-/

namespace Nntp.Proto

/-- How deep a nested multipart tree is walked. -/
def maxDepthOfParts : Nat := 8

/-- How many parts are split out of one container. -/
def maxParts : Nat := 256

/-- Parses the `; name=value` parameters. A piece with no `=` is skipped. -/
def parseParams (pieces : List Str) : List (Str × Str) :=
  pieces.filterMap fun piece =>
    (splitOnce (· == '=') piece).map fun p =>
      (toAsciiLowercase (trim p.1), trimMatches '"' (trim p.2))

/-- A parsed `Content-Type` header. -/
structure ContentType where
  type_ : Str
  subtype : Str
  params : List (Str × Str)
  deriving DecidableEq

namespace ContentType

/-- Parses a `Content-Type` value. A value without a `/` is a type with an empty subtype. -/
def parse (value : Str) : ContentType :=
  let parts := splitAll (· == ';') value
  let full := toAsciiLowercase (trim parts.1)
  match splitOnce (· == '/') full with
  | some (type_, subtype) =>
      { type_ := trim type_, subtype := trim subtype, params := parseParams parts.2 }
  | none => { type_ := full, subtype := [], params := parseParams parts.2 }

/-- The default assumed when there is no `Content-Type` header. -/
def default : ContentType := { type_ := "text".toList, subtype := "plain".toList, params := [] }

/-- A parameter's value, by lowercased name. -/
def param (type : ContentType) (name : String) : Option Str :=
  (type.params.find? fun p => p.1 = name.toList).map (·.2)

def boundary (type : ContentType) : Option Str := type.param "boundary"

def isMultipart (type : ContentType) : Bool := type.type_ = "multipart".toList

end ContentType

/-- How a body was encoded for transport. -/
inductive TransferEncoding where
  | none
  | quotedPrintable
  | base64
  | unknown
  deriving DecidableEq

/-- Interprets a `Content-Transfer-Encoding` value. -/
def TransferEncoding.parse (value : Str) : TransferEncoding :=
  let text := toAsciiLowercase (trim value)
  if text = [] ∨ text = "7bit".toList ∨ text = "8bit".toList ∨ text = "binary".toList then .none
  else if text = "quoted-printable".toList then .quotedPrintable
  else if text = "base64".toList then .base64
  else .unknown

/-- What a part's `Content-Disposition` says it is for. -/
inductive DispositionKind where
  | inline_
  | attachment
  | other
  deriving DecidableEq

structure Disposition where
  kind : DispositionKind
  params : List (Str × Str)
  deriving DecidableEq

def Disposition.parse (value : Str) : Disposition :=
  let pieces := splitAll (· == ';') value
  let text := toAsciiLowercase (trim pieces.1)
  { kind :=
      if text = [] ∨ text = "inline".toList then .inline_
      else if text = "attachment".toList then .attachment
      else .other
    params := parseParams pieces.2 }

/-- The first value for `name`, compared case-insensitively. -/
def Headers.get (headers : Headers) (name : String) : Option Bytes :=
  (headers.entries.find? fun field => eqIgnoreAsciiCase field.1.asStr name.toList).map (·.2)

/-- `Headers::get_decoded`. -/
def Headers.getDecoded (codecs : Codecs) (headers : Headers) (name : String) : Option Str :=
  (headers.get name).map codecs.decoded

/-- One MIME part: its headers, its own body lines, and any parts nested inside it. -/
structure BodyPart where
  headers : Headers
  contentType : ContentType
  encoding : TransferEncoding
  disposition : Option Disposition
  /-- the raw lines of the body; of a container everything between its delimiters -/
  lines : List Bytes
  parts : List BodyPart

/-- Builds a part from headers and body, without recursing. -/
def BodyPart.withoutSplitting (codecs : Codecs) (headers : Headers) (lines : List Bytes) : BodyPart where
  headers := headers
  contentType :=
    ((headers.getDecoded codecs "Content-Type").map ContentType.parse).getD .default
  encoding :=
    ((headers.getDecoded codecs "Content-Transfer-Encoding").map TransferEncoding.parse).getD .none
  disposition := (headers.getDecoded codecs "Content-Disposition").map Disposition.parse
  lines := lines
  parts := []

/-- A line without the blanks at its end. -/
def trimTrailingSpace (line : Bytes) : Bytes := line.rdropWhile isBlank

/-- The loop of `split_on_boundary`: the parts so far, and the one being collected. -/
def splitParts (delimiter close : Bytes) (chunks : List (List Bytes)) (current : Option (List Bytes)) :
    List Bytes → List (List Bytes)
  | [] => chunks ++ current.toList
  | line :: rest =>
      let trimmed := trimTrailingSpace line
      if trimmed = close then chunks ++ current.toList
      else if trimmed = delimiter then
        let chunks := chunks ++ current.toList
        if maxParts ≤ chunks.length then chunks
        else splitParts delimiter close chunks (some []) rest
      else splitParts delimiter close chunks (current.map (· ++ [line])) rest

/-- Splits multipart lines into one chunk per part. -/
def splitOnBoundary (lines : List Bytes) (boundary : Str) : List (List Bytes) :=
  let delimiter := asBytes ("--".toList ++ boundary)
  let close := asBytes ("--".toList ++ boundary ++ "--".toList)
  splitParts delimiter close [] none lines

/-- Splits a part's lines into its headers and its body, at the first empty line. Without one the whole is
body. -/
def splitPartHeaders (lines : List Bytes) : Headers × List Bytes :=
  match lines.findIdx? List.isEmpty with
  | some index => (Headers.parseLines (lines.take index), lines.drop (index + 1))
  | none => ({}, lines)

namespace BodyPart

/-- Splits a part's lines into nested parts, if it is a multipart container. `levels` is how many more may
be nested, `MAX_DEPTH - depth`. -/
def split (codecs : Codecs) : Nat → BodyPart → BodyPart
  | 0, part => part
  | levels + 1, part =>
      if part.contentType.isMultipart then
        match part.contentType.boundary with
        | none => part
        | some boundary =>
            if boundary.isEmpty then part
            else
              let children := (splitOnBoundary part.lines boundary).map fun chunk =>
                let child := splitPartHeaders chunk
                split codecs levels (withoutSplitting codecs child.1 child.2)
              { part with parts := part.parts ++ children }
      else part

/-- Builds the root part from an article's headers and body. -/
def fromArticle (codecs : Codecs) (headers : Headers) (body : List Bytes) : BodyPart :=
  split codecs maxDepthOfParts (withoutSplitting codecs headers body)

end BodyPart

end Nntp.Proto
