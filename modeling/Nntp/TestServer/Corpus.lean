import Mathlib.Algebra.GroupWithZero.Nat
import Nntp.Lib.U64
import Nntp.Proto.Headers

/-!
# What the test server serves

`corpus.rs`: groups of numbered articles, stored as raw lines. The articles of a group are a `BTreeMap`,
which is a list sorted by number here.
-/

namespace Nntp.TestServer

open Nntp.Proto

/-- One stored article. -/
structure Article where
  messageId : Str
  /-- header lines, without terminators and before dot-stuffing -/
  head : List Bytes := []
  body : List Bytes := []
  deriving DecidableEq, Repr

namespace Article

/-- `eq_ignore_ascii_case` of octets. -/
def eqIgnoreCaseBytes (a b : Bytes) : Bool := a.map toAsciiLowerByte == b.map toAsciiLowerByte

/-- `trim`: spaces and tabs at both ends. -/
def trimBlanks (bytes : Bytes) : Bytes := (bytes.dropWhile isBlank).rdropWhile isBlank

/-- The loop of `header_value`. -/
def headerLoop (name : Str) : List Bytes → Option Bytes → Option Bytes
  | [], found => found
  | line :: lines, found =>
      if line.head?.any isBlank then headerLoop name lines (found.map (· ++ line))
      else
        match found with
        | some value => some value
        | none =>
            match splitOnce (· == 0x3A) line with
            | none => headerLoop name lines none
            | some (field, value) =>
                if eqIgnoreCaseBytes field (asBytes name) then
                  headerLoop name lines (some (trimBlanks value))
                else headerLoop name lines none

/-- The first value of a header, with its continuation lines. -/
def headerValue (article : Article) (name : Str) : Option Bytes := headerLoop name article.head none

/-- The size in octets, counting CRLF terminators and the line between head and body. -/
def byteLen (article : Article) : Nat :=
  (article.head.map fun line => line.length + 2).sum + 2 +
    (article.body.map fun line => line.length + 2).sum

def lineCount (article : Article) : Nat := article.body.length

/-- The overview line, in the standard eight-field layout. -/
def overviewLine (article : Article) (number : UInt64) (group : Str) : Bytes :=
  let field := fun (name : String) => (article.headerValue name.toList).getD []
  asBytes (display number.toNat) ++
    [field "Subject", field "From", field "Date", asBytes article.messageId, field "References",
      asBytes (display article.byteLen), asBytes (display article.lineCount)].flatMap (0x09 :: ·) ++
    0x09 :: asBytes ("Xref: test.invalid ".toList ++ group ++ ':' :: display number.toNat)

end Article

/-- Articles by number. -/
structure ArticleMap where
  entries : List (UInt64 × Article) := []
  sorted : entries.Pairwise fun a b => a.1 < b.1 := by exact List.Pairwise.nil
  deriving DecidableEq

namespace ArticleMap

/-- `insert` into a sorted list. -/
def insertEntry (number : UInt64) (article : Article) :
    List (UInt64 × Article) → List (UInt64 × Article)
  | [] => [(number, article)]
  | entry :: entries =>
      if number < entry.1 then (number, article) :: entry :: entries
      else if number = entry.1 then (number, article) :: entries
      else entry :: insertEntry number article entries

theorem mem_insertEntry {number : UInt64} {article : Article} {entries : List (UInt64 × Article)}
    {e : UInt64 × Article} (h : e ∈ insertEntry number article entries) :
    e = (number, article) ∨ e ∈ entries := by
  induction entries with
  | nil => exact Or.inl (List.mem_singleton.mp h)
  | cons entry entries ih =>
      unfold insertEntry at h
      split_ifs at h
      · exact List.mem_cons.mp h
      · exact (List.mem_cons.mp h).imp_right (List.mem_cons_of_mem _)
      · rcases List.mem_cons.mp h with rfl | h
        · exact Or.inr List.mem_cons_self
        · exact (ih h).imp_right (List.mem_cons_of_mem _)

theorem sorted_insertEntry (number : UInt64) (article : Article) {entries : List (UInt64 × Article)}
    (h : entries.Pairwise fun a b => a.1 < b.1) :
    (insertEntry number article entries).Pairwise fun a b => a.1 < b.1 := by
  induction entries with
  | nil => exact List.pairwise_singleton ..
  | cons entry entries ih =>
      obtain ⟨hfirst, hrest⟩ := List.pairwise_cons.mp h
      unfold insertEntry
      split_ifs with hlt heq
      · refine List.pairwise_cons.mpr ⟨fun e he => ?_, h⟩
        rcases List.mem_cons.mp he with rfl | he
        · exact hlt
        · exact hlt.trans (hfirst e he)
      · refine List.pairwise_cons.mpr ⟨fun e he => ?_, hrest⟩
        rw [heq]
        exact hfirst e he
      · refine List.pairwise_cons.mpr ⟨fun e he => ?_, ih hrest⟩
        rcases mem_insertEntry he with rfl | he
        · exact lt_of_le_of_ne (not_lt.mp hlt) fun h => heq h.symm
        · exact hfirst e he

def insert (articles : ArticleMap) (number : UInt64) (article : Article) : ArticleMap where
  entries := insertEntry number article articles.entries
  sorted := sorted_insertEntry number article articles.sorted

def get (articles : ArticleMap) (number : UInt64) : Option Article :=
  (articles.entries.find? fun entry => entry.1 == number).map (·.2)

def keys (articles : ArticleMap) : List UInt64 := articles.entries.map (·.1)

/-- `len`, which is a `usize`. -/
def len (articles : ArticleMap) : UInt64 := UInt64.ofNat articles.entries.length

end ArticleMap

/-- Whether a group accepts postings. -/
inductive Posting where
  | permitted
  | prohibited
  | moderated
  deriving DecidableEq, Repr

/-- The flag character used on the wire. -/
def Posting.flag : Posting → Str
  | permitted => ['y']
  | prohibited => ['n']
  | moderated => ['m']

/-- One newsgroup. -/
structure Group where
  name : Str
  description : Str := []
  posting : Posting := .permitted
  created : UInt64 := 1000000000
  articles : ArticleMap := {}
  deriving DecidableEq

namespace Group

def low (group : Group) : Option UInt64 := group.articles.keys.head?

def high (group : Group) : Option UInt64 := group.articles.keys.getLast?

/-- The watermarks, `1` and `0` for an empty group. -/
def watermarks (group : Group) : UInt64 × UInt64 :=
  match group.low, group.high with
  | some low, some high => (low, high)
  | _, _ => (1, 0)

/-- The number the next article gets. -/
def nextNumber (group : Group) : UInt64 := (group.high.map (· + 1)).getD 1

def articleByNumber (group : Group) (number : UInt64) : Option Article := group.articles.get number

def articleById (group : Group) (messageId : Str) : Option (UInt64 × Article) :=
  group.articles.entries.find? fun entry => eqIgnoreAsciiCase entry.2.messageId messageId

end Group

/-- Everything a test server serves. -/
structure Corpus where
  groups : List Group := []

namespace Corpus

/-- Looks up a group by name. -/
def find (corpus : Corpus) (name : Str) : Option Group :=
  corpus.groups.find? fun group => group.name == name

/-- Changes the first group of this name. -/
def modifyGroup (name : Str) (f : Group → Group) : List Group → List Group
  | [] => []
  | group :: groups =>
      if group.name == name then f group :: groups else group :: modifyGroup name f groups

/-- Files an article a client posted: the groups it landed in, with the number each gave it. -/
def inject (article : Article) : List Str → Corpus → Corpus × List (Str × UInt64)
  | [], corpus => (corpus, [])
  | name :: names, corpus =>
      match corpus.find name with
      | none => inject article names corpus
      | some group =>
          let number := group.nextNumber
          let (corpus, filed) := inject article names
            ⟨modifyGroup name (fun group => { group with
              articles := group.articles.insert number article }) corpus.groups⟩
          (corpus, (name, number) :: filed)

/-- Looks up an article by message-id across every group. -/
def findById (corpus : Corpus) (messageId : Str) : Option (Group × UInt64 × Article) :=
  corpus.groups.findSome? fun group =>
    (group.articleById messageId).map fun entry => (group, entry.1, entry.2)

end Corpus

end Nntp.TestServer
