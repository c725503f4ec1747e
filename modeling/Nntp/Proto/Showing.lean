import Nntp.Proto.Clearsign
import Nntp.Proto.Display
import Nntp.Proto.Flowed
import Nntp.Proto.HeaderText
import Nntp.Proto.QuotedPrintable
import Nntp.Proto.Sending

/-!
# What is shown of an article

`text` and `summary` of `body.rs`, and what `article.rs` makes of a whole article: the text a reader is shown, the
attachments, and the fields that are looked into.
-/

namespace Nntp.Proto

/-! ## A part -/

/-- The declared charset, if any. -/
def ContentType.charset (type : ContentType) : Option Str := type.param "charset"

/-- Decodes a base64 body, ignoring the line breaks the encoder inserted. -/
def Codecs.decodeBase64 (codecs : Codecs) (bytes : Bytes) : Option Bytes :=
  codecs.decodeB (bytes.filter fun b => !isAsciiWhitespace b)

namespace BodyPart

/-- Rejoins lines with CRLF, as they arrived on the wire. -/
def rejoin : List Bytes → Bytes
  | [] => []
  | [line] => line
  | line :: lines => line ++ [0x0D, 0x0A] ++ rejoin lines

/-- The octets of a body, with the encoding for transport undone. What cannot be decoded stays as it is. -/
def decoded (codecs : Codecs) (encoding : TransferEncoding) (lines : List Bytes) : Bytes :=
  let raw := rejoin lines
  match encoding with
  | .none | .unknown => raw
  | .quotedPrintable => decodeQuotedPrintable raw
  | .base64 => (codecs.decodeBase64 raw).getD raw

/-- A body as displayable text: decoded, then read in the declared charset. -/
def textOf (codecs : Codecs) (encoding : TransferEncoding) (type : ContentType) (lines : List Bytes) : Str :=
  let octets := decoded codecs encoding lines
  let text :=
    match type.charset with
    | some charset => codecs.decodeWithCharset octets charset
    | none => codecs.decode8bitLossy octets
  Draft.crlfToLf text

/-- This part's body as displayable text. -/
def text (codecs : Codecs) (part : BodyPart) : Str := textOf codecs part.encoding part.contentType part.lines

/-- The size of this part's body as it arrived, in octets. -/
def encodedSize (part : BodyPart) : Nat := part.lines.foldl (fun octets line => octets + (line.length + 2)) 0 - 2

/-- A short description of this part: type, name and size. -/
def summary (codecs : Codecs) (part : BodyPart) : Str :=
  let kind :=
    if part.contentType.subtype.isEmpty then part.contentType.type_
    else part.contentType.type_ ++ '/' :: part.contentType.subtype
  let size := display part.encodedSize
  match part.filename codecs with
  | some name => kind ++ " — ".toList ++ name ++ " (".toList ++ size ++ " octets)".toList
  | none => kind ++ " (".toList ++ size ++ " octets)".toList

mutual

/-- Whether this part, or anything inside it, carries a detached signature. -/
def isSigned : BodyPart → Bool
  | part@⟨_, _, _, _, _, parts⟩ => part.isSignature || isSignedAny parts

def isSignedAny : List BodyPart → Bool
  | [] => false
  | part :: parts => isSigned part || isSignedAny parts

end

/-- Whether a parameter of the content type has this value, whatever the case of its letters. -/
def declares (part : BodyPart) (name value : String) : Bool :=
  (part.contentType.param name).any fun declared => eqIgnoreAsciiCase declared value.toList

end BodyPart

/-! ## An article -/

namespace ReceivedArticle

variable (codecs : Codecs) (article : ReceivedArticle)

/-- The decoded `Subject`, or an empty string. -/
def subject : Str := (article.headers.getDecoded codecs "Subject").getD []

/-- The decoded `From`, or an empty string. -/
def author : Str := (article.headers.getDecoded codecs "From").getD []

/-- The `Message-ID`, if present and well-formed. -/
def messageId : Option MessageId :=
  (article.headers.getDecoded codecs "Message-ID").bind fun value => (MessageId.parse value).toOption

/-- The `References` chain, oldest first, or else the ids of `In-Reply-To`. -/
def references : List MessageId :=
  let listed (name : String) : List MessageId :=
    ((article.headers.get name).map fun value => MessageId.parseList (codecs.decodeHeaderValue value)).getD []
  if (listed "References").isEmpty then listed "In-Reply-To" else listed "References"

/-- The parsed `Content-Type`, defaulting to `text/plain`. -/
def contentType : ContentType :=
  ((article.headers.getDecoded codecs "Content-Type").map ContentType.parse).getD .default

/-- The declared `Content-Transfer-Encoding`. -/
def transferEncoding : TransferEncoding :=
  ((article.headers.getDecoded codecs "Content-Transfer-Encoding").map TransferEncoding.parse).getD .none

/-- The MIME part tree of this article, with the article itself as the root. -/
def bodyPart : BodyPart := .fromArticle codecs article.headers article.body

/-- The body as displayable text, ignoring MIME structure. -/
def bodyText : Str :=
  BodyPart.textOf codecs (article.transferEncoding codecs) (article.contentType codecs) article.body

/-- The text of a part as it is shown: with `format=flowed` applied, and without armour. -/
def shownOf (part : BodyPart) : Str :=
  let text := part.text codecs
  let text := if part.declares "format" "flowed" then unflow text (part.declares "delsp" "yes") else text
  withoutClearsign text

/-- The text a reader should show. An article that carries no text has none. -/
def displayText : Str := (((article.bodyPart codecs).displayPart codecs).map fun ref => shownOf codecs ref.part).getD []

/-- The parts a reader is not showing. -/
def attachments : List Str := ((article.bodyPart codecs).otherParts codecs).map fun ref => ref.part.summary codecs

/-- Whether the article carries a signature, detached or as inline armour. -/
def isSigned : Bool :=
  (article.bodyPart codecs).isSigned || article.body.any fun line => (asBytes clearsignBegin).isPrefixOf line

end ReceivedArticle

/-! ## An article without parts -/

section Whole

variable {codecs : Codecs} {article : ReceivedArticle}

/-- An article that is no container is one part. -/
theorem bodyPart_whole (h : (article.contentType codecs).isMultipart = false) :
    article.bodyPart codecs = .withoutSplitting codecs article.headers article.body :=
  split_other h maxDepthOfParts

/-- The body text is the text of the only part. -/
theorem bodyText_whole (h : (article.contentType codecs).isMultipart = false) :
    (article.bodyPart codecs).text codecs = article.bodyText codecs := by
  rw [bodyPart_whole h]
  rfl

/-- **An article without parts** is shown as its text, if it is text and not to be saved, and otherwise not at all; the
other parts are then none, or the article itself unless it is a signature. -/
theorem displayText_whole (h : (article.contentType codecs).isMultipart = false) :
    article.displayText codecs =
        (if (article.bodyPart codecs).isDisplayable codecs then
          ReceivedArticle.shownOf codecs (article.bodyPart codecs) else []) ∧
      article.attachments codecs =
        (if (article.bodyPart codecs).isDisplayable codecs || (article.bodyPart codecs).isSignature then []
          else [(article.bodyPart codecs).summary codecs]) := by
  have hwhole : (article.bodyPart codecs).isMultipart = false := by
    rw [bodyPart_whole h]
    exact h
  generalize hpart : article.bodyPart codecs = part at hwhole ⊢
  have hshown : part.displayPart codecs = if part.isDisplayable codecs then some ⟨[], part⟩ else none := by
    simp [BodyPart.displayPart, BodyPart.displayPartAt_eq, hwhole]
  have hleaves : ∀ shown, BodyPart.collectLeaves shown [] part = if shown = some [] then [] else [⟨[], part⟩] :=
    fun shown => BodyPart.collectLeaves_whole shown [] (by simp [BodyPart.isDivided, hwhole])
  refine ⟨?_, ?_⟩
  · simp only [ReceivedArticle.displayText, hpart, hshown]
    split <;> rfl
  · simp only [ReceivedArticle.attachments, hpart, BodyPart.otherParts, hshown, hleaves]
    cases part.isDisplayable codecs <;> cases hsignature : part.isSignature <;> simp [hsignature]

end Whole

end Nntp.Proto
