import Nntp.Proto.MessageId
import Nntp.Proto.Thread.Tree

/-!
# Articles on their way out

`post.rs`: a draft read out of the text an editor produced, what is wrong with it, and the draft that
follows up to an article. The lines it is sent as are in `Sending`.
-/

namespace Nntp.Proto

/-- Headers the posting agent must not set, because the server sets them. -/
def serverOwned : List Str := ["path".toList, "xref".toList, "lines".toList, "bytes".toList]

/-- Headers an article cannot be posted without. -/
def requiredHeaders : List Str := ["from".toList, "newsgroups".toList, "subject".toList]

/-- What is wrong with a draft. -/
inductive Problem where
  | missingHeader (name : Str)
  | malformedHeader (line : Str)
  | invalidHeaderName (name : Str)
  | serverOwnedHeader (name : Str)
  | noNewsgroups
  | emptyBody
  deriving DecidableEq, Repr

/-- An article being composed. -/
structure Draft where
  headers : List (Str × Str) := []
  body : Str := []
  deriving DecidableEq, Repr

/-- The conventional spelling of a header name this module requires. -/
def canonical (lowercase : Str) : Str :=
  if lowercase = "from".toList then "From".toList
  else if lowercase = "newsgroups".toList then "Newsgroups".toList
  else if lowercase = "subject".toList then "Subject".toList
  else "a required header".toList

/-- `HeaderName::parse` as a test. -/
def isHeaderName (name : Str) : Bool :=
  !name.isEmpty && name.all fun c => isAsciiGraphic c && c != ':'

/-- `split(',')`, each piece trimmed, the empty ones dropped. -/
def groupList (value : Str) : List Str :=
  let pieces := splitAll (· == ',') value
  ((pieces.1 :: pieces.2).map trim).filter fun group => !group.isEmpty

/-- `join`. -/
def joinWith (separator : Str) : List Str → Str
  | [] => []
  | [s] => s
  | s :: rest => s ++ separator ++ joinWith separator rest

/-- What is joined with a separator that is in none of the pieces can be split again. -/
theorem splitAll_joinWith {separator : Char} {piece : Str} {pieces : List Str}
    (h : ∀ s ∈ piece :: pieces, separator ∉ s) :
    splitAll (· == separator) (joinWith [separator] (piece :: pieces)) = (piece, pieces) := by
  have hnot : ∀ s ∈ piece :: pieces, ∀ c ∈ s, (c == separator) = false := fun s hs =>
    beq_of_not_mem (h s hs)
  induction pieces generalizing piece with
  | nil => exact splitAll_of_none (hnot piece List.mem_cons_self)
  | cons next rest ih =>
      have hrest := ih (fun s hs => h s (List.mem_cons_of_mem _ hs))
        (fun s hs => hnot s (List.mem_cons_of_mem _ hs))
      show splitAll _ (piece ++ [separator] ++ joinWith [separator] (next :: rest)) = _
      rw [List.append_assoc, List.singleton_append,
        splitAll_append (hnot piece List.mem_cons_self) (beq_self_eq_true separator), hrest]

namespace Draft

/-- CRLF, LF and a stray CR, all as LF. -/
def normaliseNewlines : Str → Str
  | '\r' :: '\n' :: rest => '\n' :: normaliseNewlines rest
  | '\r' :: rest => '\n' :: normaliseNewlines rest
  | c :: rest => c :: normaliseNewlines rest
  | [] => []

/-- `replace("\r\n", "\n")`. -/
def crlfToLf : Str → Str
  | '\r' :: '\n' :: rest => '\n' :: crlfToLf rest
  | c :: rest => c :: crlfToLf rest
  | [] => []

/-- The loop of `parse` over the lines: the header lines, unfolded. -/
def unfoldLines (unfolded : List Str) : List Str → List Str
  | [] => unfolded
  | line :: lines =>
      if (trim line).isEmpty then unfolded
      else if (line.head? = some ' ' ∨ line.head? = some '\t') ∧ unfolded ≠ [] then
        -- a continuation line belongs to the header above it
        unfoldLines (unfolded.dropLast ++ [unfolded.getLast?.getD [] ++ ' ' :: trim line]) lines
      else unfoldLines (unfolded ++ [line]) lines

/-- What comes after the first empty line. -/
def afterBlankLine : Str → Str
  | '\n' :: '\n' :: rest => rest
  | _ :: rest => afterBlankLine rest
  | [] => []

/-- Reads a draft out of the text an editor produced. A line that is not a header is kept under an
empty name. -/
def parse (text : Str) : Draft :=
  let text := normaliseNewlines text
  let lines := splitAll (· == '\n') text
  { headers := (unfoldLines [] (lines.1 :: lines.2)).map fun line =>
      match splitOnce (· == ':') line with
      | some (name, value) => (trim name, trim value)
      | none => ([], line)
    body := afterBlankLine text }

/-- The value of a header, ignoring case. -/
def header (d : Draft) (name : Str) : Option Str :=
  (d.headers.find? fun field => eqIgnoreAsciiCase field.1 name).map (·.2)

/-- Sets a header, replacing the first existing one of that name. -/
def setHeader (d : Draft) (name value : Str) : Draft :=
  match d.headers.findIdx? fun field => eqIgnoreAsciiCase field.1 name with
  | some i => { d with headers := d.headers.modify i fun field => (field.1, value) }
  | none => { d with headers := d.headers ++ [(name, value)] }

/-- The groups this article is addressed to. -/
def newsgroups (d : Draft) : List Str := groupList ((d.header "Newsgroups".toList).getD [])

/-- What is wrong with one header field. -/
def headerProblems (field : Str × Str) : List Problem :=
  if field.1.isEmpty then [.malformedHeader field.2]
  else if !isHeaderName field.1 then [.invalidHeaderName field.1]
  else if serverOwned.any (eqIgnoreAsciiCase field.1) then [.serverOwnedHeader field.1]
  else []

/-- Everything wrong with the draft. Empty means it can be sent. -/
def problems (d : Draft) : List Problem :=
  let present (required : Str) := (d.header required).any fun value => !(trim value).isEmpty
  d.headers.flatMap headerProblems ++
    (requiredHeaders.filter fun required => !present required).map
      (fun required => .missingHeader (canonical required)) ++
    (if (d.header "Newsgroups".toList).isSome ∧ d.newsgroups = [] then [.noNewsgroups] else []) ++
    (if (trim d.body).isEmpty then [.emptyBody] else [])

end Draft

/-- What a follow-up needs to know about the article it answers. -/
structure FollowUp where
  messageId : Option MessageId
  references : List MessageId
  subject : Str
  author : Str
  newsgroups : List Str
  body : Str

/-- One line of a quoted body. -/
def quoteLine (line : Str) : Str :=
  if line.head? = some '>' then '>' :: line ++ ['\n']
  else if line = [] then ['>', '\n']
  else '>' :: ' ' :: line ++ ['\n']

/-- Quotes a body under an attribution line, without the signature. -/
def quote (author body : Str) : Str :=
  let attribution := if (trim author).isEmpty then [] else trim author ++ " wrote:\n".toList
  let lines := splitAll (· == '\n') (Draft.crlfToLf body)
  let kept := (lines.1 :: lines.2).takeWhile fun line => line != "-- ".toList
  attribution ++ kept.flatMap quoteLine ++ ['\n']

/-- A draft that follows up to an article. -/
def Draft.followUp (parent : FollowUp) (sender : Str) : Draft :=
  let subject := trim parent.subject
  let subject := if (normaliseSubject subject).2 then subject else "Re: ".toList ++ subject
  let references := parent.references.map (·.asStr) ++ (parent.messageId.map (·.asStr)).toList
  let draft := ((({} : Draft).setHeader "From".toList sender).setHeader "Newsgroups".toList
    (joinWith [','] parent.newsgroups)).setHeader "Subject".toList subject
  let draft := if references.isEmpty then draft
    else draft.setHeader "References".toList (joinWith [' '] references)
  { draft with body := quote parent.author parent.body }

end Nntp.Proto
