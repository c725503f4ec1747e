import Nntp.Contents

/-!
# The articles behind the numbers

A client with a group selected fetches articles by number, by id and where it stands, steps through the group with
`NEXT` and `LAST`, and asks for the numbers. What it is handed is what the corpus stores, and both ends stay where
the answer says.
-/

namespace Nntp

open Nntp.Lib Nntp.Proto Nntp.Client Nntp.TestServer

/-! ## What a spec names -/

/-- The article that a spec names, with its number, which is 0 where it is named by its id. -/
def named (session : Session) (group : TestServer.Group) : ArticleSpec → Option (UInt64 × TestServer.Article)
  | .messageId id => (session.corpus.findById id.asStr).map fun found => (0, found.2.2)
  | .number n => (group.articleByNumber n).map fun article => (n, article)
  | .current =>
      session.state.currentArticle.bind fun n => (group.articleByNumber n).map fun article => (n, article)

/-- A session that stands at an article, if it has a number. -/
def movedTo (session : Session) (number : UInt64) : Session :=
  if number ≠ 0 then { session with state := { session.state with currentArticle := some number } } else session

/-- An article whose lines can be told apart: none is broken, and the blank line ends the head. -/
structure Article.Plain (article : TestServer.Article) : Prop where
  id : '\r' ∉ article.messageId
  filled : ∀ line ∈ article.head, line ≠ []
  head : ∀ line ∈ article.head, PlainLine line
  body : ∀ line ∈ article.body, PlainLine line

/-! ## Words -/

/-- What stands in a word. -/
structure IsWord (word : Str) : Prop where
  filled : word ≠ []
  whole : ∀ c ∈ word, (c == ' ' || c == '\t' || c == '\n' || c == '\r' || c.toNat == 0x0C) = false

theorem isWord_of_plain {word : Str} (hne : word ≠ []) (h : ∀ c ∈ word, isWhitespace c = false) : IsWord word := by
  refine ⟨hne, fun c hc => ?_⟩
  have hplain := h c hc
  simp only [Bool.or_eq_false_iff, beq_eq_false_iff_ne]
  refine ⟨⟨⟨⟨?_, ?_⟩, ?_⟩, ?_⟩, ?_⟩
  · rintro rfl
    cases hplain
  · rintro rfl
    cases hplain
  · rintro rfl
    cases hplain
  · rintro rfl
    cases hplain
  · intro hfeed
    unfold isWhitespace at hplain
    rw [hfeed] at hplain
    cases hplain

theorem isWord_of_graphic {word : Str} (h : word ≠ [] ∧ ∀ c ∈ word, isAsciiGraphic c = true) : IsWord word :=
  isWord_of_plain h.1 fun c hc => isWhitespace_of_isAsciiGraphic (h.2 c hc)

/-- A message-id is a word between brackets. -/
theorem isWord_messageId (id : MessageId) : IsWord id.asStr ∧ id.asStr.head? = some '<' := by
  have h := id.wellFormed
  unfold MessageId.isWellFormed at h
  simp only [Bool.and_eq_true, decide_eq_true_eq] at h
  cases hbetween : MessageId.between id.asStr with
  | none =>
      rw [hbetween] at h
      cases h.2
  | some inner =>
      rw [hbetween] at h
      obtain ⟨afterOpen, hopen, hclose⟩ := Option.bind_eq_some_iff.mp hbetween
      have hid : id.asStr = '<' :: (inner ++ ['>']) := by
        rw [stripPrefix_eq_some.mp hopen, List.singleton_append, eq_of_stripSuffix hclose]
      have hinner := h.2
      simp only [Bool.and_eq_true, Bool.not_eq_true', List.any_eq_false, Bool.or_eq_true, not_or] at hinner
      rw [hid]
      refine ⟨isWord_of_plain (List.cons_ne_nil _ _) fun c hc => ?_, rfl⟩
      simp only [List.mem_cons, List.mem_append, List.not_mem_nil, or_false] at hc
      rcases hc with rfl | hc | rfl
      · decide
      · exact Bool.not_eq_true _ ▸ (hinner.2 c hc).1.1.1
      · decide

theorem words_spec (verb : Verb) (spec : ArticleSpec) :
    StatusLine.splitAsciiWhitespace (Command.withOptionalArg verb.name spec.toArgument) =
      verb.name.toList :: spec.toArgument.toList := by
  obtain ⟨hne, hname⟩ := isAsciiGraphic_verb verb
  have hargument : ∀ arg ∈ spec.toArgument, IsWord arg := by
    intro arg harg
    cases spec with
    | messageId id =>
        cases harg
        exact (isWord_messageId id).1
    | number n =>
        cases harg
        exact isWord_of_graphic (word_display _)
    | current => cases harg
  unfold Command.withOptionalArg
  cases hspec : spec.toArgument with
  | none => exact splitAsciiWhitespace_word hne hname (by simp)
  | some arg =>
      obtain ⟨hfilled, hwhole⟩ := hargument arg hspec
      have hword := @words_word _ _ arg [] hfilled hwhole (by simp)
      rw [List.append_nil] at hword
      rw [Option.map_some, Option.getD_some, splitAsciiWhitespace_word hne hname (by simp), splitAsciiWhitespace_blank]
      exact congrArg (verb.name.toList :: ·) hword

section Server

variable {session : Session} {group : TestServer.Group}

/-! ## What the server answers -/

/-- The answer where a spec names no article. -/
def missingReply (session : Session) : ArticleSpec → Reply
  | .messageId _ => .plain 430 "no such article"
  | .number _ => .plain 423 "no such article"
  | .current =>
      match session.state.currentArticle with
      | none => Session.noArticleSelected
      | some _ => .plain 423 "no such article"

/-- The number that an argument starts with is no bracket. -/
theorem head?_display (n : Nat) : (display n).head? ≠ some '<' := by
  obtain ⟨c, cs, heq⟩ := List.exists_cons_of_ne_nil (display_spec n).1
  have hdigit := (display_spec n).2.1 c (heq ▸ List.mem_cons_self)
  rw [heq]
  rintro hbracket
  cases hbracket
  cases hdigit

/-- **A spec fetches the article it names**, and moves the session there. -/
theorem fetch_named (hselected : session.selectedGroup = some group) (verb : Verb) (spec : ArticleSpec) :
    session.fetch verb spec.toArgument.toList =
      match named session group spec with
      | some (number, article) => (movedTo session number, Session.articleReply verb number article)
      | none => (session, missingReply session spec) := by
  cases spec with
  | messageId id =>
      have hbracket := (isWord_messageId id).2
      have hfind : session.findArticle [id.asStr] =
          .ok ((session.corpus.findById id.asStr).map fun found => (0, found.2.2)) := by
        have hnumber : session.articleNumber [id.asStr] = .ok none := if_pos hbracket
        unfold Session.findArticle
        rw [hnumber]
        rfl
      have hnamed : named session group (.messageId id) =
          (session.corpus.findById id.asStr).map fun found => (0, found.2.2) := rfl
      have hargument : (Session.messageIdArgument (some id.asStr)).isSome = true := by
        unfold Session.messageIdArgument
        rw [Option.filter_some, hbracket]
        rfl
      show session.fetch verb [id.asStr] = _
      unfold Session.fetch
      rw [hfind, hnamed]
      cases session.corpus.findById id.asStr with
      | none =>
          show (session, Reply.plain (if (Session.messageIdArgument (some id.asStr)).isSome then 430 else 423) _) = _
          rw [if_pos hargument]
          rfl
      | some found => rfl
  | number n =>
      have hnumber : session.articleNumber [display n.toNat] = .ok (some n) := by
        unfold Session.articleNumber
        dsimp only [List.head?_cons]
        rw [if_neg (head?_display _), parseU64_display]
      have hfind : session.findArticle [display n.toNat] =
          .ok ((group.articleByNumber n).map fun article => (n, article)) := by
        simp [Session.findArticle, hnumber, hselected, bind, Except.bind, pure, Except.pure]
      have hnamed : named session group (.number n) =
          (group.articleByNumber n).map fun article => (n, article) := rfl
      have hargument : (Session.messageIdArgument (some (display n.toNat))).isSome ≠ true := by
        unfold Session.messageIdArgument
        rw [Option.filter_some, if_neg]
        · exact Bool.false_ne_true
        · simpa using head?_display n.toNat
      show session.fetch verb [display n.toNat] = _
      unfold Session.fetch
      rw [hfind, hnamed]
      cases group.articleByNumber n with
      | none =>
          show (session, Reply.plain (if (Session.messageIdArgument (some (display n.toNat))).isSome then 430 else 423)
            _) = _
          rw [if_neg hargument]
          rfl
      | some article => rfl
  | current =>
      show session.fetch verb [] = _
      unfold Session.fetch named missingReply Session.findArticle Session.articleNumber
      cases hcurrent : session.state.currentArticle with
      | none => simp [bind, Except.bind]
      | some n =>
          simp only [List.head?_nil, hselected, bind, Except.bind, Option.bind_some, pure, Except.pure]
          cases group.articleByNumber n with
          | none => rfl
          | some article => rfl

/-- The commands that name an article. -/
def fetches : Verb → Bool
  | .article | .head | .body | .stat => true
  | _ => false

theorem answerTo_fetch (hadmitted : session.needsAuth = false) (hselected : session.selectedGroup = some group)
    {verb : Verb} (hverb : fetches verb = true) {spec : ArticleSpec} {cmd : Command}
    (hline : cmd.line = Command.withOptionalArg verb.name spec.toArgument) :
    answerTo session cmd =
      match named session group spec with
      | some (number, article) => (movedTo (counted session) number, Session.articleReply verb number article, .continue)
      | none => (counted session, missingReply session spec, .continue) := by
  have hwords : StatusLine.splitAsciiWhitespace cmd.line = verb.name.toList :: spec.toArgument.toList := by
    rw [hline, words_spec]
  have hselected : (counted session).selectedGroup = some group := hselected
  have hperform : (counted session).perform verb spec.toArgument.toList =
      (((counted session).fetch verb spec.toArgument.toList).1,
        ((counted session).fetch verb spec.toArgument.toList).2, .continue) := by
    cases verb with
    | article => rfl
    | head => rfl
    | body => rfl
    | stat => rfl
    | _ => cases hverb
  have hsame : named (counted session) group spec = named session group spec := by cases spec <;> rfl
  rw [answerTo_words hadmitted hwords, hperform, fetch_named hselected, hsame]
  cases named session group spec with
  | none => rfl
  | some found => rfl

end Server

/-! ## What the client is handed -/

/-- A client at rest that has a group selected, as the server has. -/
structure Reading (limits : Limits) (config : ServerConfig) (group : TestServer.Group) (c : Client Loop) : Prop where
  level : Level limits config none c
  selected : c.connection.stream.session.selectedGroup = some group
  admitted : c.connection.stream.session.needsAuth = false
  held : c.group.isSome = true

/-- The number of an article, as a status line gives it. -/
def numberOf (number : UInt64) : Option UInt64 := (some number).filter (· != 0)

/-- The id of an article, as a status line gives it. -/
def idOf (article : TestServer.Article) : Option MessageId :=
  (StatusLine.splitAsciiWhitespace article.messageId)[0]?.bind fun raw => (MessageId.parse raw).toOption

section Client

variable {limits : Limits} {config : ServerConfig} {group : TestServer.Group} {c : Client Loop}

theorem Reading.needs (h : Reading limits config group c) (spec : ArticleSpec) :
    (spec.needsSelectedGroup && c.group.isNone) = false := by
  rw [Option.isNone_eq_false_iff.mpr h.held, Bool.and_false]

/-- A text that begins with a number. -/
theorem parse_articleId {line : StatusLine} {number : UInt64} {rest : Str}
    (h : line.text = display number.toNat ++ ' ' :: rest) :
    ArticleId.parse line = ⟨numberOf number,
      (StatusLine.splitAsciiWhitespace rest)[0]?.bind fun raw => (MessageId.parse raw).toOption⟩ := by
  have hargs : line.args = display number.toNat :: StatusLine.splitAsciiWhitespace rest := by
    unfold StatusLine.args
    rw [h, splitAsciiWhitespace_word (word_display _).1 (word_display _).2 (by simp), splitAsciiWhitespace_blank]
  unfold ArticleId.parse
  rw [hargs]
  simp only [List.getElem?_cons_zero, List.getElem?_cons_succ, Option.bind_some, parseU64_display]
  rfl

/-- The answer to a command that names an article which is there. -/
theorem Reading.fetched (h : Reading limits config group c) {verb : Verb} (hverb : fetches verb = true)
    {spec : ArticleSpec} {cmd : Command} (hline : cmd.line = Command.withOptionalArg verb.name spec.toArgument)
    {number : UInt64} {article : TestServer.Article}
    (hnamed : named c.connection.stream.session group spec = some (number, article)) :
    answerTo c.connection.stream.session cmd = (movedTo (counted c.connection.stream.session) number,
      Session.articleReply verb number article, .continue) := by
  rw [answerTo_fetch h.admitted h.selected hverb hline, hnamed]

/-- The answer to a command that names none. -/
theorem Reading.missed (h : Reading limits config group c) {verb : Verb} (hverb : fetches verb = true)
    {spec : ArticleSpec} {cmd : Command} (hline : cmd.line = Command.withOptionalArg verb.name spec.toArgument)
    (hnamed : named c.connection.stream.session group spec = none) :
    answerTo c.connection.stream.session cmd =
      (counted c.connection.stream.session, missingReply c.connection.stream.session spec, .continue) := by
  rw [answerTo_fetch h.admitted h.selected hverb hline, hnamed]

/-- **The block of an article** is fetched, and its number read. -/
theorem Reading.fetchBlock (h : Reading limits config group c) {verb : Verb} (hverb : fetches verb = true)
    {spec : ArticleSpec} {cmd : Command} {sent : Bytes} (hwire : cmd.toWire = .ok sent)
    (hline : cmd.line = Command.withOptionalArg verb.name spec.toArgument) {number : UInt64}
    {article : TestServer.Article} (hnamed : named c.connection.stream.session group spec = some (number, article))
    (hwithin : Reply.Within limits config (Session.articleReply verb number article)) {lines : List Bytes}
    (hblock : (Session.articleReply verb number article).block = some lines)
    (hplain : ∀ line ∈ lines, PlainLine line) (name : String) {code : Nat}
    (hcode : (Session.articleReply verb number article).code = code) {rest : Str}
    (htext : (Session.articleReply verb number article).text = display number.toNat ++ ' ' :: rest)
    (hlast : (Session.articleReply verb number article).text.getLast? ≠ some '\r') :
    ∃ id c', (Client.fetchBlock name spec cmd code).exec c = (.ok (id, lines), c') ∧ id.number = numberOf number ∧
      Rests limits config c c' (movedTo (counted c.connection.stream.session) number) := by
  obtain ⟨line, mid, c', hexec, hline', htext', hread, hrests⟩ :=
    h.level.askBlock hwire (h.fetched hverb hline hnamed) hwithin hblock hplain
  refine ⟨ArticleId.parse line, c', ?_, ?_, hrests⟩
  · unfold Client.fetchBlock
    refine (Fallible.exec_bind_ok (Fallible.exec_get c)).trans ?_
    rw [h.needs spec, if_neg Bool.false_ne_true]
    refine (Fallible.exec_bind_ok hexec).trans ?_
    rw [if_pos (hline'.trans hcode)]
    exact Fallible.exec_bind_ok hread
  · rw [parse_articleId ((htext' hlast).trans htext)]

/-- What is missing is missing under one of three codes, without a block. -/
theorem missingReply_code (session : Session) (spec : ArticleSpec) :
    (missingReply session spec).block = none ∧ ((missingReply session spec).code = 420 ∨
      (missingReply session spec).code = 423 ∨ (missingReply session spec).code = 430) := by
  cases spec with
  | messageId id => exact ⟨rfl, Or.inr (Or.inr rfl)⟩
  | number n => exact ⟨rfl, Or.inr (Or.inl rfl)⟩
  | current =>
      unfold missingReply
      dsimp only
      split
      · exact ⟨rfl, Or.inl rfl⟩
      · exact ⟨rfl, Or.inr (Or.inl rfl)⟩

/-- **A command that names nothing** is answered so, and nothing changes. -/
theorem Reading.askMissing (h : Reading limits config group c) {verb : Verb} (hverb : fetches verb = true)
    {spec : ArticleSpec} {cmd : Command} {sent : Bytes} (hwire : cmd.toWire = .ok sent)
    (hline : cmd.line = Command.withOptionalArg verb.name spec.toArgument)
    (hnamed : named c.connection.stream.session group spec = none)
    (hwithin : Reply.Within limits config (missingReply c.connection.stream.session spec)) (name : String) :
    ∃ line text c', (Client.command cmd).exec c = (.ok line, c') ∧ (∀ code, 220 ≤ code → code ≤ 223 → line.code ≠ code) ∧
      ClientError.fromStatus name line = .noSuchArticle text ∧
      Rests limits config c c' (counted c.connection.stream.session) := by
  obtain ⟨hnone, hcode⟩ := missingReply_code c.connection.stream.session spec
  obtain ⟨line, c', hexec, hline', -, hrests⟩ := h.level.askStatus hwire (h.missed hverb hline hnamed) hwithin hnone
  rw [← hline'] at hcode
  refine ⟨line, if line.text.isEmpty then name.toList else line.text, c', hexec, fun code hlow hhigh => by omega, ?_,
    hrests⟩
  unfold ClientError.fromStatus
  rcases hcode with hcode | hcode | hcode <;> rw [hcode] <;> rfl

theorem Reading.fetchBlock_missing (h : Reading limits config group c) {verb : Verb} (hverb : fetches verb = true)
    {spec : ArticleSpec} {cmd : Command} {sent : Bytes} (hwire : cmd.toWire = .ok sent)
    (hline : cmd.line = Command.withOptionalArg verb.name spec.toArgument)
    (hnamed : named c.connection.stream.session group spec = none)
    (hwithin : Reply.Within limits config (missingReply c.connection.stream.session spec)) (name : String) {code : Nat}
    (hcode : 220 ≤ code ∧ code ≤ 223) :
    ∃ text c', (Client.fetchBlock name spec cmd code).exec c = (.error (.noSuchArticle text), c') ∧
      Rests limits config c c' (counted c.connection.stream.session) := by
  obtain ⟨line, text, c', hexec, hother, herror, hrests⟩ := h.askMissing hverb hwire hline hnamed hwithin name
  refine ⟨text, c', ?_, hrests⟩
  unfold Client.fetchBlock
  refine (Fallible.exec_bind_ok (Fallible.exec_get c)).trans ?_
  rw [h.needs spec, if_neg Bool.false_ne_true]
  refine (Fallible.exec_bind_ok hexec).trans ?_
  rw [if_neg (hother code hcode.1 hcode.2), herror]
  rfl

/-- What a call comes to, and where it leaves both ends. -/
def Yields {α : Type} (limits : Limits) (config : ServerConfig) (c : Client Loop) (x : ClientM Loop α) (a : α)
    (after : Session) : Prop :=
  ∃ c', x.exec c = (.ok a, c') ∧ Rests limits config c c' after

/-- A call for an article that is not there. -/
def Misses {α : Type} (limits : Limits) (config : ServerConfig) (c : Client Loop) (x : ClientM Loop α) : Prop :=
  ∃ text c', x.exec c = (.error (.noSuchArticle text), c') ∧
    Rests limits config c c' (counted c.connection.stream.session)

theorem wire_spec (spec : ArticleSpec) :
    (∃ sent, (Command.article spec).toWire = .ok sent) ∧ (∃ sent, (Command.head spec).toWire = .ok sent) ∧
      (∃ sent, (Command.body spec).toWire = .ok sent) ∧ ∃ sent, (Command.stat spec).toWire = .ok sent :=
  ⟨wire_validated trivial, wire_validated trivial, wire_validated trivial, wire_validated trivial⟩

/-- A text that ends with a word of its own does not end with a carriage return. -/
theorem getLast?_follows (front : Str) {back : Str} (hne : back ≠ []) (hback : back.getLast? ≠ some '\r') :
    (front ++ back).getLast? ≠ some '\r' := by
  rw [List.getLast?_append_of_ne_nil _ hne]
  exact hback

theorem Yields.map {α β : Type} {x : ClientM Loop α} {f : α → β} {a : α} {after : Session}
    (h : Yields limits config c x a after) :
    Yields limits config c (do let a ← x; pure (f a)) (f a) after := by
  obtain ⟨c', hexec, hrests⟩ := h
  exact ⟨c', Fallible.exec_bind_ok hexec, hrests⟩

theorem Misses.map {α β : Type} {x : ClientM Loop α} {f : α → β} (h : Misses limits config c x) :
    Misses limits config c (do let a ← x; pure (f a)) := by
  obtain ⟨text, c', hexec, hrests⟩ := h
  exact ⟨text, c', Fallible.exec_bind_error hexec, hrests⟩

/-- **A status line that names an article** is read as its number and its id. -/
theorem Reading.identified (h : Reading limits config group c) {cmd : Command} {sent : Bytes}
    (hwire : cmd.toWire = .ok sent) {number : UInt64} {article : TestServer.Article} {after : Session}
    (hanswer : answerTo c.connection.stream.session cmd = (after, Session.articleReply .stat number article, .continue))
    (hid : '\r' ∉ article.messageId) (hwithin : Reply.Within limits config (Session.articleReply .stat number article))
    (name : String) (needsGroup : Bool) :
    Yields limits config c (Client.identify name needsGroup cmd) ⟨numberOf number, idOf article⟩ after := by
  have hlast : (Session.articleReply .stat number article).text.getLast? ≠ some '\r' := by
    intro hlast
    rcases List.mem_append.mp (List.mem_of_getLast? hlast) with hdigit | hrest
    · exact absurd ((display_spec _).2.1 _ hdigit) (by decide)
    · rcases List.mem_cons.mp hrest with heq | hmem
      · cases heq
      · exact hid hmem
  obtain ⟨line, c', hexec, hcode, htext, hrests⟩ := h.level.askStatus hwire hanswer hwithin rfl
  have hcode : line.code = 223 := hcode
  refine ⟨c', ?_, hrests⟩
  unfold Client.identify
  refine (Fallible.exec_bind_ok (Fallible.exec_get c)).trans ?_
  rw [Option.isNone_eq_false_iff.mpr h.held, Bool.and_false, if_neg Bool.false_ne_true]
  refine (Fallible.exec_bind_ok hexec).trans ?_
  rw [if_pos hcode, parse_articleId (htext hlast)]
  rfl

theorem Reading.statOf (h : Reading limits config group c) {spec : ArticleSpec} {number : UInt64}
    {article : TestServer.Article} (hnamed : named c.connection.stream.session group spec = some (number, article))
    (hid : '\r' ∉ article.messageId) (hwithin : Reply.Within limits config (Session.articleReply .stat number article)) :
    Yields limits config c (Client.stat spec) ⟨numberOf number, idOf article⟩
      (movedTo (counted c.connection.stream.session) number) := by
  obtain ⟨-, -, -, ⟨sent, hwire⟩⟩ := wire_spec spec
  exact h.identified hwire
    (h.fetched (show fetches .stat = true from rfl) (show (Command.stat spec).line = _ from rfl) hnamed) hid hwithin
    "STAT" spec.needsSelectedGroup

section Stored

variable {spec : ArticleSpec} {number : UInt64} {article : TestServer.Article}
variable (h : Reading limits config group c)
  (hnamed : named c.connection.stream.session group spec = some (number, article))
  (hplain : Article.Plain article)

include h hnamed hplain

theorem Reading.wholeArticle (hwithin : Reply.Within limits config (Session.articleReply .article number article)) :
    Yields limits config c (Client.article spec)
    ⟨numberOf number, Headers.parseLines article.head, article.body⟩
    (movedTo (counted c.connection.stream.session) number) := by
  obtain ⟨⟨sent, hwire⟩, -⟩ := wire_spec spec
  have hlines : ∀ line ∈ article.head ++ [] :: article.body, PlainLine line := by
    intro line hline
    rcases List.mem_append.mp hline with hline | hline
    · exact hplain.head line hline
    · rcases List.mem_cons.mp hline with rfl | hline
      · exact ⟨List.not_mem_nil, nofun⟩
      · exact hplain.body line hline
  obtain ⟨id, c', hexec, hnumber, hrests⟩ := h.fetchBlock rfl hwire rfl hnamed hwithin rfl hlines
    "ARTICLE" rfl (List.append_assoc (display number.toNat) _ _) (getLast?_follows _ (by decide) (by decide))
  refine ⟨c', (Fallible.exec_bind_ok hexec).trans ?_, hrests⟩
  show (Except.ok { ReceivedArticle.fromBlock (article.head ++ [] :: article.body) with number := id.number }, c') = _
  unfold ReceivedArticle.fromBlock
  rw [splitHeadBody_append hplain.filled, hnumber]

theorem Reading.head (hwithin : Reply.Within limits config (Session.articleReply .head number article)) :
    Yields limits config c (Client.head spec) ⟨numberOf number, Headers.parseLines article.head, []⟩
      (movedTo (counted c.connection.stream.session) number) := by
  obtain ⟨-, ⟨sent, hwire⟩, -⟩ := wire_spec spec
  obtain ⟨id, c', hexec, hnumber, hrests⟩ := h.fetchBlock rfl hwire rfl hnamed hwithin rfl hplain.head
    "HEAD" rfl (List.append_assoc (display number.toNat) _ _) (getLast?_follows _ (by decide) (by decide))
  refine ⟨c', (Fallible.exec_bind_ok hexec).trans ?_, hrests⟩
  rw [← hnumber]
  rfl

theorem Reading.body (hwithin : Reply.Within limits config (Session.articleReply .body number article)) :
    Yields limits config c (Client.body spec) article.body (movedTo (counted c.connection.stream.session) number) := by
  obtain ⟨-, -, ⟨sent, hwire⟩, -⟩ := wire_spec spec
  obtain ⟨id, c', hexec, -, hrests⟩ := h.fetchBlock rfl hwire rfl hnamed hwithin rfl hplain.body
    "BODY" rfl (List.append_assoc (display number.toNat) _ _) (getLast?_follows _ (by decide) (by decide))
  exact ⟨c', Fallible.exec_bind_ok hexec, hrests⟩

theorem Reading.stat (hwithin : Reply.Within limits config (Session.articleReply .stat number article)) :
    Yields limits config c (Client.stat spec) ⟨numberOf number, idOf article⟩
      (movedTo (counted c.connection.stream.session) number) :=
  h.statOf hnamed hplain.id hwithin

end Stored

section Missing

variable {spec : ArticleSpec} (h : Reading limits config group c)
  (hnamed : named c.connection.stream.session group spec = none)
  (hwithin : Reply.Within limits config (missingReply c.connection.stream.session spec))

include h hnamed hwithin

theorem Reading.missing : Misses limits config c (Client.article spec) ∧ Misses limits config c (Client.head spec) ∧
    Misses limits config c (Client.body spec) ∧ Misses limits config c (Client.stat spec) := by
  obtain ⟨⟨_, hwireArticle⟩, ⟨_, hwireHead⟩, ⟨_, hwireBody⟩, ⟨_, hwireStat⟩⟩ := wire_spec spec
  refine ⟨?_, ?_, ?_, ?_⟩
  · exact .map (h.fetchBlock_missing (show fetches .article = true from rfl) hwireArticle rfl hnamed hwithin "ARTICLE"
      (by decide))
  · exact .map (h.fetchBlock_missing (show fetches .head = true from rfl) hwireHead rfl hnamed hwithin "HEAD"
      (by decide))
  · exact .map (h.fetchBlock_missing (show fetches .body = true from rfl) hwireBody rfl hnamed hwithin "BODY"
      (by decide))
  · obtain ⟨line, text, c', hexec, hother, herror, hrests⟩ :=
      h.askMissing (show fetches .stat = true from rfl) hwireStat rfl hnamed hwithin "STAT"
    refine ⟨text, c', ?_, hrests⟩
    unfold Client.stat Client.identify
    refine (Fallible.exec_bind_ok (Fallible.exec_get c)).trans ?_
    rw [h.needs spec, if_neg Bool.false_ne_true]
    refine (Fallible.exec_bind_ok hexec).trans ?_
    rw [if_neg (hother 223 (by decide) (by decide)), herror]
    rfl

end Missing

/-- A session that stands at an article of a number. -/
def standingAt (session : Session) (number : UInt64) : Session :=
  { session with state := { session.state with currentArticle := some number } }

/-- What a status line says of an article. -/
def articleId (entry : UInt64 × TestServer.Article) : ArticleId := ⟨numberOf entry.1, idOf entry.2⟩

/-- A client whose session stands at an article of the group, with these before it and these behind it. -/
structure Standing (limits : Limits) (config : ServerConfig) (group : TestServer.Group) (c : Client Loop)
    (before : List (UInt64 × TestServer.Article)) (entry : UInt64 × TestServer.Article)
    (after : List (UInt64 × TestServer.Article)) : Prop where
  reading : Reading limits config group c
  current : c.connection.stream.session.state.currentArticle = some entry.1
  entries : group.articles.entries = before ++ entry :: after

/-- What `NEXT` and `LAST` need of a group: numbers that can be counted on, ids in one piece, and status lines
within the client's limits. -/
structure Steppable (limits : Limits) (config : ServerConfig) (group : TestServer.Group) : Prop where
  room : ∀ entry ∈ group.articles.entries, entry.1 < u64Max
  ids : ∀ entry ∈ group.articles.entries, '\r' ∉ entry.2.messageId
  within : ∀ entry ∈ group.articles.entries,
    Reply.Within limits config (Session.articleReply .stat entry.1 entry.2)
  noNext : Reply.Within limits config (.plain 421 "no next article")
  noPrevious : Reply.Within limits config (.plain 422 "no previous article")

section Sides

variable {before after : List (UInt64 × TestServer.Article)} {entry : UInt64 × TestServer.Article}

/-- The first number above an entry is that of the next one. -/
theorem find?_above (hsorted : (before ++ entry :: after).Pairwise fun a b => a.1 < b.1) (hroom : entry.1 < u64Max) :
    (before ++ entry :: after).find? (fun other => decide (entry.1 + 1 ≤ other.1)) = after.head? := by
  obtain ⟨-, htail, hbelow⟩ := List.pairwise_append.mp hsorted
  obtain ⟨habove, -⟩ := List.pairwise_cons.mp htail
  have hsucc : ∀ n : UInt64, entry.1 + 1 ≤ n ↔ entry.1 < n := by
    intro n
    rw [UInt64.le_iff_toNat_le, UInt64.lt_iff_toNat_lt, UInt64.toNat_add]
    have hmax := UInt64.lt_iff_toNat_lt.mp hroom
    have htop : u64Max.toNat = 18446744073709551615 := rfl
    have hone : (1 : UInt64).toNat = 1 := rfl
    omega
  rw [List.find?_append, List.find?_eq_none.mpr fun other hother => ?_, Option.none_or, List.find?_cons_of_neg]
  · cases after with
    | nil => rfl
    | cons next rest =>
        rw [List.find?_cons_of_pos (by simpa [hsucc] using habove next List.mem_cons_self)]
        rfl
  · simp [hsucc]
  · have hlt := hbelow other hother entry List.mem_cons_self
    simpa [hsucc] using le_of_lt hlt

/-- The last number below an entry is that of the one before it. -/
theorem getLast?_below (hsorted : (before ++ entry :: after).Pairwise fun a b => a.1 < b.1) :
    ((before ++ entry :: after).filter fun other => decide (other.1 < entry.1)).getLast? = before.getLast? := by
  obtain ⟨-, htail, hbelow⟩ := List.pairwise_append.mp hsorted
  obtain ⟨habove, -⟩ := List.pairwise_cons.mp htail
  have hkept : before.filter (fun other => decide (other.1 < entry.1)) = before :=
    List.filter_eq_self.mpr fun other hother => decide_eq_true (hbelow other hother entry List.mem_cons_self)
  have hdropped : (entry :: after).filter (fun other => decide (other.1 < entry.1)) = [] := by
    refine List.filter_eq_nil_iff.mpr fun other hother => ?_
    rcases List.mem_cons.mp hother with rfl | hother
    · simp
    · simpa using le_of_lt (habove other hother)
  rw [List.filter_append, hkept, hdropped, List.append_nil]

end Sides

theorem Rests.reading {c' : Client Loop} {after : Session} (hrests : Rests limits config c c' after)
    (h : Reading limits config group c) (hselected : after.selectedGroup = some group)
    (hadmitted : after.needsAuth = false) : Reading limits config group c' where
  level := hrests.level
  selected := by rw [hrests.session]; exact hselected
  admitted := by rw [hrests.session]; exact hadmitted
  held := by rw [hrests.group]; exact h.held

section Steps

variable {before after : List (UInt64 × TestServer.Article)} {entry other : UInt64 × TestServer.Article}

/-- What a step is answered with where there is an article. -/
theorem Standing.identified (h : Standing limits config group c before entry after) {cmd : Command} {sent : Bytes}
    (hwire : cmd.toWire = .ok sent) (hmem : other ∈ group.articles.entries) (hgroup : Steppable limits config group)
    (hanswer : answerTo c.connection.stream.session cmd = (standingAt (counted c.connection.stream.session) other.1,
      Session.articleReply .stat other.1 other.2, .continue)) (name : String) :
    ∃ c', (Client.identify name true cmd).exec c = (.ok (articleId other), c') ∧ Reading limits config group c' ∧
      c'.connection.stream.session.state.currentArticle = some other.1 := by
  obtain ⟨c', hexec, hrests⟩ :=
    h.reading.identified hwire hanswer (hgroup.ids other hmem) (hgroup.within other hmem) name true
  exact ⟨c', hexec, hrests.reading h.reading h.reading.selected h.reading.admitted, by rw [hrests.session]; rfl⟩

/-- A step that is refused leaves everything as it is. -/
theorem Standing.refused (h : Standing limits config group c before entry after) {cmd : Command} {sent : Bytes}
    (hwire : cmd.toWire = .ok sent) {code : Nat} {text : String} (hwithin : Reply.Within limits config (.plain code text))
    (hanswer : answerTo c.connection.stream.session cmd =
      (counted c.connection.stream.session, .plain code text, .continue))
    (name : String) (hcode : code = 421 ∨ code = 422) :
    ∃ heard c', (Client.identify name true cmd).exec c = (.error (.server name code heard), c') ∧
      Standing limits config group c' before entry after := by
  obtain ⟨line, c', hexec, hline, -, hrests⟩ := h.reading.level.askStatus hwire hanswer hwithin rfl
  have hline : line.code = code := hline
  refine ⟨line.text, c', ?_, hrests.reading h.reading h.reading.selected h.reading.admitted,
    by rw [hrests.session]; exact h.current, h.entries⟩
  unfold Client.identify
  refine (Fallible.exec_bind_ok (Fallible.exec_get c)).trans ?_
  rw [Option.isNone_eq_false_iff.mpr h.reading.held, Bool.and_false, if_neg Bool.false_ne_true]
  refine (Fallible.exec_bind_ok hexec).trans ?_
  rw [if_neg (by omega)]
  show (Except.error (ClientError.fromStatus name line), c') = _
  unfold ClientError.fromStatus
  rcases hcode with rfl | rfl <;> rw [hline] <;> rfl

theorem answerTo_next {session : Session} (hadmitted : session.needsAuth = false) :
    answerTo session .next = (((counted session).step .next).1, ((counted session).step .next).2, .continue) := by
  have hwords : StatusLine.splitAsciiWhitespace Command.next.line = Verb.next.name.toList :: [] := by decide
  rw [answerTo_words hadmitted hwords]
  rfl

theorem answerTo_last {session : Session} (hadmitted : session.needsAuth = false) :
    answerTo session .last = (((counted session).step .last).1, ((counted session).step .last).2, .continue) := by
  have hwords : StatusLine.splitAsciiWhitespace Command.last.line = Verb.last.name.toList :: [] := by decide
  rw [answerTo_words hadmitted hwords]
  rfl

/-- What the server makes of `NEXT`. -/
theorem Standing.step_next (h : Standing limits config group c before entry after)
    (hgroup : Steppable limits config group) :
    (counted c.connection.stream.session).step .next =
      match after.head? with
      | some other => (standingAt (counted c.connection.stream.session) other.1,
          Session.articleReply .stat other.1 other.2)
      | none => (counted c.connection.stream.session, .plain 421 "no next article") := by
  have hselected : (counted c.connection.stream.session).selectedGroup = some group := h.reading.selected
  have hcurrent : (counted c.connection.stream.session).state.currentArticle = some entry.1 := h.current
  have hroom := hgroup.room entry (by rw [h.entries]; simp)
  unfold Session.step
  rw [hselected]
  dsimp only
  rw [hcurrent]
  dsimp only
  rw [if_pos rfl, h.entries, find?_above (h.entries ▸ group.articles.sorted) hroom]
  cases after with
  | nil => rfl
  | cons other rest => rfl

/-- What the server makes of `LAST`. -/
theorem Standing.step_last (h : Standing limits config group c before entry after) :
    (counted c.connection.stream.session).step .last =
      match before.getLast? with
      | some other => (standingAt (counted c.connection.stream.session) other.1,
          Session.articleReply .stat other.1 other.2)
      | none => (counted c.connection.stream.session, .plain 422 "no previous article") := by
  have hselected : (counted c.connection.stream.session).selectedGroup = some group := h.reading.selected
  have hcurrent : (counted c.connection.stream.session).state.currentArticle = some entry.1 := h.current
  unfold Session.step
  rw [hselected]
  dsimp only
  rw [hcurrent]
  dsimp only
  rw [if_neg (by decide), h.entries, getLast?_below (h.entries ▸ group.articles.sorted)]
  cases before.getLast? with
  | none => rfl
  | some other => rfl

/-- **`NEXT` goes on to the next article.** -/
theorem Standing.next (h : Standing limits config group c before entry (other :: after))
    (hgroup : Steppable limits config group) :
    ∃ c', (Client.nextArticle : ClientM Loop _).exec c = (.ok (articleId other), c') ∧
      Standing limits config group c' (before ++ [entry]) other after := by
  have hanswer := answerTo_next h.reading.admitted
  rw [h.step_next hgroup] at hanswer
  obtain ⟨c', hexec, hreading, hcurrent⟩ := h.identified rfl (by rw [h.entries]; simp) hgroup hanswer "NEXT"
  exact ⟨c', hexec, hreading, hcurrent, by rw [h.entries]; simp⟩

/-- At the end `NEXT` is refused. -/
theorem Standing.next_end (h : Standing limits config group c before entry [])
    (hgroup : Steppable limits config group) :
    ∃ text c', (Client.nextArticle : ClientM Loop _).exec c = (.error (.server "NEXT" 421 text), c') ∧
      Standing limits config group c' before entry [] := by
  have hanswer := answerTo_next h.reading.admitted
  rw [h.step_next hgroup] at hanswer
  exact h.refused rfl hgroup.noNext hanswer "NEXT" (Or.inl rfl)

/-- **`LAST` goes back to the one before.** -/
theorem Standing.last (h : Standing limits config group c (before ++ [other]) entry after)
    (hgroup : Steppable limits config group) :
    ∃ c', (Client.previousArticle : ClientM Loop _).exec c = (.ok (articleId other), c') ∧
      Standing limits config group c' before other (entry :: after) := by
  have hanswer := answerTo_last h.reading.admitted
  rw [h.step_last, List.getLast?_concat] at hanswer
  obtain ⟨c', hexec, hreading, hcurrent⟩ := h.identified rfl (by rw [h.entries]; simp) hgroup hanswer "LAST"
  exact ⟨c', hexec, hreading, hcurrent, by rw [h.entries]; simp⟩

/-- At the beginning `LAST` is refused. -/
theorem Standing.last_end (h : Standing limits config group c [] entry after)
    (hgroup : Steppable limits config group) :
    ∃ text c', (Client.previousArticle : ClientM Loop _).exec c = (.error (.server "LAST" 422 text), c') ∧
      Standing limits config group c' [] entry after := by
  have hanswer := answerTo_last h.reading.admitted
  rw [h.step_last] at hanswer
  exact h.refused rfl hgroup.noPrevious hanswer "LAST" (Or.inr rfl)

end Steps

/-! ### Whole groups -/

/-- A step that is taken so many times: what it named. -/
def walkBy {σ : Type} (step : ClientM σ ArticleId) : Nat → ClientM σ (List ArticleId)
  | 0 => pure []
  | n + 1 => do
      let id ← step
      let ids ← walkBy step n
      pure (id :: ids)

theorem walkBy_succ {step : ClientM Loop ArticleId} {n : Nat} {id : ArticleId} {ids : List ArticleId}
    {mid c' : Client Loop} (hstep : step.exec c = (.ok id, mid)) (hrest : (walkBy step n).exec mid = (.ok ids, c')) :
    (walkBy step (n + 1)).exec c = (.ok (id :: ids), c') :=
  (Fallible.exec_bind_ok hstep).trans (Fallible.exec_bind_ok hrest)

theorem Standing.walk_next {before after : List (UInt64 × TestServer.Article)} {entry : UInt64 × TestServer.Article}
    (h : Standing limits config group c before entry after) (hgroup : Steppable limits config group) :
    ∃ c' reached passed, (walkBy Client.nextArticle after.length : ClientM Loop _).exec c =
        (.ok (after.map articleId), c') ∧
      before ++ entry :: after = passed ++ [reached] ∧ Standing limits config group c' passed reached [] := by
  induction after generalizing c before entry with
  | nil => exact ⟨c, entry, before, rfl, rfl, h⟩
  | cons other after ih =>
      obtain ⟨mid, hexec, hmid⟩ := h.next hgroup
      obtain ⟨c', reached, passed, hwalk, heq, hstanding⟩ := ih hmid
      exact ⟨c', reached, passed, walkBy_succ hexec hwalk, by rw [← heq]; simp, hstanding⟩

theorem Standing.walk_last {before after : List (UInt64 × TestServer.Article)} {entry : UInt64 × TestServer.Article}
    (h : Standing limits config group c before entry after) (hgroup : Steppable limits config group) :
    ∃ c' reached behind, (walkBy Client.previousArticle before.length : ClientM Loop _).exec c =
        (.ok (before.reverse.map articleId), c') ∧
      before ++ entry :: after = reached :: behind ∧ Standing limits config group c' [] reached behind := by
  induction before using List.reverseRecOn generalizing c entry after with
  | nil => exact ⟨c, entry, after, rfl, rfl, h⟩
  | append_singleton before other ih =>
      obtain ⟨mid, hexec, hmid⟩ := h.last hgroup
      obtain ⟨c', reached, behind, hwalk, heq, hstanding⟩ := ih hmid
      refine ⟨c', reached, behind, ?_, by rw [← heq]; simp, hstanding⟩
      rw [List.length_append, List.length_singleton, List.reverse_append]
      exact walkBy_succ hexec hwalk

/-! ### From the selection on -/

/-- The answer to a selection. -/
def selectionReply (group : TestServer.Group) : Reply := { code := 211, text := Session.selectionText group group.name }

/-- A session in a group, at its first article. -/
def enters (session : Session) (group : TestServer.Group) : Session :=
  { session with state := { session.state with currentGroup := some group.name, currentArticle := group.low } }

theorem selectedGroup_enters {session : Session} {name : Str} (hfind : session.corpus.find name = some group) :
    (enters (counted session) group).selectedGroup = some group := by
  show session.corpus.find group.name = some group
  rw [(Corpus.mem_of_find hfind).2]
  exact hfind

theorem answerTo_group {session : Session} (hadmitted : session.needsAuth = false) {name : GroupName}
    (hfind : session.corpus.find name.asStr = some group) :
    answerTo session (.group name) = (enters (counted session) group, selectionReply group, .continue) := by
  have hname := isAsciiGraphic_of_wellFormed name.wellFormed
  have hwords : StatusLine.splitAsciiWhitespace (Command.group name).line = Verb.group.name.toList :: [name.asStr] := by
    have hjoin : (Command.group name).line = joinWith [' '] ["GROUP".toList, name.asStr] := by
      show "GROUP ".toList ++ name.asStr = _
      simp [joinWith]
    rw [hjoin, words_joinWith fun word hword => ?_]
    · rfl
    · simp only [List.mem_cons, List.not_mem_nil, or_false] at hword
      rcases hword with rfl | rfl
      · exact word_literal "GROUP" (by decide)
      · exact hname
  rw [answerTo_words hadmitted hwords]
  show (((counted session).group [name.asStr]).1, ((counted session).group [name.asStr]).2, Flow.continue) = _
  have hfind : (counted session).corpus.find name.asStr = some group := hfind
  unfold Session.group
  dsimp only [List.head?_cons]
  rw [hfind]
  rfl

/-- What a client is told of a group that it selects. -/
def summaryOf (group : TestServer.Group) (name : GroupName) : GroupSummary :=
  ⟨name, group.articles.len, group.watermarks.1, group.watermarks.2⟩

/-- **A group is selected** at both ends, and what the client knows of the server's commands stays. -/
theorem Level.enter (h : Level limits config none c) (hadmitted : c.connection.stream.session.needsAuth = false)
    {name : GroupName} (hfind : c.connection.stream.session.corpus.find name.asStr = some group)
    (hwithin : Reply.Within limits config (selectionReply group)) :
    ∃ c', (Client.selectGroup name).exec c = (.ok (summaryOf group name), c') ∧ Level limits config none c' ∧
      c'.connection.stream.session = enters (counted c.connection.stream.session) group ∧
      c'.group = some (summaryOf group name) ∧ c'.overviewFmt = c.overviewFmt ∧
      c'.resolveOverviewStyle = c.resolveOverviewStyle := by
  obtain ⟨hmem, hname⟩ := Corpus.mem_of_find hfind
  have hgood := h.idle.served.corpus group hmem
  obtain ⟨sent, hwire⟩ := wire_validated (show (Command.group name).IsValidated from trivial)
  obtain ⟨line, mid, hexec, hcode, htext, hrests⟩ :=
    h.askStatus hwire (answerTo_group hadmitted hfind) hwithin rfl
  have hcode : line.code = 211 := hcode
  have hsame : (⟨group.name, hgood.name⟩ : GroupName) = name := by
    cases name
    cases hname
    rfl
  have hparse := parse_selectionText hgood (htext (getLast?_selectionText hgood)) (some name)
  rw [hsame] at hparse
  obtain ⟨-, hmid⟩ := Client.exec_command_ok hexec
  refine ⟨{ mid with group := some (summaryOf group name) }, ?_, hrests.level.of_connection rfl, hrests.session, rfl, ?_, ?_⟩
  · unfold Client.selectGroup
    refine (Fallible.exec_bind_ok hexec).trans ?_
    rw [if_pos hcode, hparse]
    rfl
  · rw [hmid]
  · rw [hmid]
    rfl

/-- **A selected group is stood in at its first article.** -/
theorem Level.select (h : Level limits config none c) (hadmitted : c.connection.stream.session.needsAuth = false)
    {name : GroupName} (hfind : c.connection.stream.session.corpus.find name.asStr = some group)
    (hwithin : Reply.Within limits config (selectionReply group)) {first : UInt64 × TestServer.Article}
    {rest : List (UInt64 × TestServer.Article)} (hentries : group.articles.entries = first :: rest) :
    ∃ summary c', (Client.selectGroup name).exec c = (.ok summary, c') ∧ summary.high = group.watermarks.2 ∧
      Standing limits config group c' [] first rest := by
  obtain ⟨c', hexec, hlevel, hsession, hheld, -⟩ := h.enter hadmitted hfind hwithin
  refine ⟨_, c', hexec, rfl, ⟨hlevel, ?_, ?_, by rw [hheld]; rfl⟩, ?_, hentries⟩
  · rw [hsession]
    exact selectedGroup_enters hfind
  · rw [hsession]
    exact hadmitted
  · rw [hsession]
    show group.articles.keys.head? = some first.1
    unfold ArticleMap.keys
    rw [hentries]
    rfl

/-- The answer to `LISTGROUP`. -/
def numbersReply (group : TestServer.Group) : Reply :=
  .listing 211 (Session.selectionText group group.name)
    (group.articles.keys.map fun number => asBytes (display number.toNat))

/-- A session in a group, where it stood before. -/
def turnsTo (session : Session) (group : TestServer.Group) : Session :=
  { session with state := { session.state with currentGroup := some group.name } }

theorem answerTo_listgroup {session : Session} (hadmitted : session.needsAuth = false) {name : GroupName}
    (hfind : session.corpus.find name.asStr = some group) :
    answerTo session (.listGroup (some name) none) = (turnsTo (counted session) group, numbersReply group, .continue) := by
  have hname := (Corpus.mem_of_find hfind).2
  have hwords : StatusLine.splitAsciiWhitespace (Command.listGroup (some name) none).line =
      Verb.listgroup.name.toList :: [name.asStr] := by
    have hjoin : (Command.listGroup (some name) none).line = joinWith [' '] ["LISTGROUP".toList, name.asStr] := by
      show Command.withOptionalArg "LISTGROUP" (some (name.asStr ++ [])) = _
      simp [Command.withOptionalArg, joinWith]
    rw [hjoin, words_joinWith fun word hword => ?_]
    · rfl
    · simp only [List.mem_cons, List.not_mem_nil, or_false] at hword
      rcases hword with rfl | rfl
      · exact word_literal "LISTGROUP" (by decide)
      · exact isAsciiGraphic_of_wellFormed name.wellFormed
  rw [answerTo_words hadmitted hwords]
  show (((counted session).listgroup [name.asStr]).1, ((counted session).listgroup [name.asStr]).2, Flow.continue) = _
  have hfind : (counted session).corpus.find name.asStr = some group := hfind
  unfold Session.listgroup turnsTo numbersReply
  dsimp only [List.head?_cons, Option.some_or]
  rw [hfind, hname]

/-- The numbers that are read are those that were written. -/
theorem numbers_read (numbers : List UInt64) :
    (numbers.map fun number => asBytes (display number.toNat)).filterMap
      (fun raw => (fromUtf8 raw).bind fun text => parseU64 (trim text)) = numbers := by
  rw [List.filterMap_map]
  have hread : ∀ number : UInt64, ((fun raw => (fromUtf8 raw).bind fun text => parseU64 (trim text)) ∘
      fun number : UInt64 => asBytes (display number.toNat)) number = some number := by
    intro number
    simp only [Function.comp_apply, fromUtf8_asBytes, Option.bind_some, trim_display, parseU64_display]
  rw [List.filterMap_congr (fun number _ => hread number), List.filterMap_some]

/-- A number is one of the keys exactly if there is an article under it. -/
theorem articleByNumber_isSome {n : UInt64} : (group.articleByNumber n).isSome = true ↔ n ∈ group.articles.keys := by
  unfold TestServer.Group.articleByNumber ArticleMap.get ArticleMap.keys
  rw [Option.isSome_map, List.find?_isSome]
  simp only [beq_iff_eq, List.mem_map]

theorem numbers_plain (numbers : List UInt64) :
    ∀ line ∈ numbers.map fun number => asBytes (display number.toNat), PlainLine line := by
  intro line hline
  obtain ⟨number, -, rfl⟩ := List.mem_map.mp hline
  have hplain := @plain_words [display number.toNat] fun word hword => by
    rw [List.mem_singleton.mp hword]
    exact word_display _
  simpa [joinWith] using hplain

theorem mem_of_articleByNumber {n : UInt64} {article : TestServer.Article}
    (h : group.articleByNumber n = some article) : (n, article) ∈ group.articles.entries := by
  unfold TestServer.Group.articleByNumber ArticleMap.get at h
  obtain ⟨entry, hfind, rfl⟩ := Option.map_eq_some_iff.mp h
  have hnumber : entry.1 = n := by simpa using List.find?_some hfind
  exact hnumber ▸ List.mem_of_find?_eq_some hfind

/-- **What `LISTGROUP` lists is what is there**: the numbers are those of the group, and behind it `STAT` finds an
article under each of them and under no other number. -/
theorem numbers_listed (h : Level limits config none c) (hadmitted : c.connection.stream.session.needsAuth = false)
    {name : GroupName} (hfind : c.connection.stream.session.corpus.find name.asStr = some group)
    (hwithin : Reply.Within limits config (numbersReply group))
    (hgroup : Steppable limits config group) (hmissing : Reply.Within limits config (.plain 423 "no such article")) :
    ∃ summary c', (Client.articleNumbers (some name) none).exec c = (.ok (summary, group.articles.keys), c') ∧
      summary.name.asStr = name.asStr ∧ ∀ n,
        match group.articleByNumber n with
        | some article => n ∈ group.articles.keys ∧ ∃ after,
            Yields limits config c' (Client.stat (.number n)) ⟨numberOf n, idOf article⟩ after
        | none => n ∉ group.articles.keys ∧ Misses limits config c' (Client.stat (.number n)) := by
  obtain ⟨hmem, hname⟩ := Corpus.mem_of_find hfind
  have hgood := h.idle.served.corpus group hmem
  obtain ⟨sent, hwire⟩ := wire_validated (show (Command.listGroup (some name) none).IsValidated from rfl)
  obtain ⟨line, mid, after, hexec, hcode, htext, hread, hrests⟩ :=
    h.askBlock hwire (answerTo_listgroup hadmitted hfind) hwithin rfl (numbers_plain _)
  have hcode : line.code = 211 := hcode
  obtain ⟨summary, hparse, hsummary⟩ := parse_selection hgood (htext (getLast?_selectionText hgood)) (some name)
  have hselected : (turnsTo (counted c.connection.stream.session) group).selectedGroup = some group := by
    show c.connection.stream.session.corpus.find group.name = some group
    rw [hname]
    exact hfind
  have hreading : Reading limits config group { after with group := some summary } := by
    refine ⟨hrests.level.of_connection rfl, ?_, ?_, rfl⟩
    · show after.connection.stream.session.selectedGroup = _
      rw [hrests.session]
      exact hselected
    · show after.connection.stream.session.needsAuth = _
      rw [hrests.session]
      exact hadmitted
  refine ⟨summary, { after with group := some summary }, ?_, hsummary.trans hname, fun n => ?_⟩
  · unfold Client.articleNumbers
    refine (Fallible.exec_bind_ok (Fallible.exec_get c)).trans ?_
    refine (Fallible.exec_bind_ok hexec).trans ?_
    rw [if_pos hcode, hparse]
    have hsame : (Client.liftProto (.ok summary) : ClientM Loop _).exec mid = (.ok summary, mid) := rfl
    refine (Fallible.exec_bind_ok hsame).trans ((Fallible.exec_bind_ok hread).trans ?_)
    rw [numbers_read]
    rfl
  · have hnamed : named after.connection.stream.session group (.number n) =
        (group.articleByNumber n).map fun article => (n, article) := rfl
    cases hstored : group.articleByNumber n with
    | none =>
        refine ⟨fun hkey => ?_, ?_⟩
        · rw [← articleByNumber_isSome, hstored] at hkey
          cases hkey
        · exact (hreading.missing (hnamed.trans (by rw [hstored]; rfl)) hmissing).2.2.2
    | some article =>
        have hentry : (n, article) ∈ group.articles.entries := mem_of_articleByNumber hstored
        exact ⟨articleByNumber_isSome.mp (by rw [hstored]; rfl), _,
          hreading.statOf (hnamed.trans (by rw [hstored]; rfl)) (hgroup.ids _ hentry)
          (hgroup.within _ hentry)⟩

end Client

/-! ### The articles of the small server -/

namespace Shelf

theorem find_miscTest {c : Client Loop} (hgroups : c.connection.stream.session.corpus.groups = corpus.groups) :
    c.connection.stream.session.corpus.find Client.miscTest.asStr = some miscTest := by
  unfold Corpus.find
  rw [hgroups]
  rfl

theorem miscTest_steppable : Steppable .default {} miscTest where
  room := by decide
  ids := by decide
  within := by decide +kernel
  noNext := by decide +kernel
  noPrevious := by decide +kernel

theorem plain_articles : Article.Plain first ∧ Article.Plain third := by
  have hlines : ∀ article ∈ [first, third], '\r' ∉ article.messageId ∧ (∀ line ∈ article.head, line ≠ []) ∧
      (∀ line ∈ article.head, PlainLine line) ∧ ∀ line ∈ article.body, PlainLine line := by
    decide +kernel
  refine ⟨?_, ?_⟩
  · obtain ⟨hid, hfilled, hhead, hbody⟩ := hlines first (by simp)
    exact ⟨hid, hfilled, hhead, hbody⟩
  · obtain ⟨hid, hfilled, hhead, hbody⟩ := hlines third (by simp)
    exact ⟨hid, hfilled, hhead, hbody⟩

/-- **The numbers of the group** are 1 and 3, and there is no article 2. -/
theorem numbers_listed_misc : ∃ start summary c, Client.withOptions (accepted corpus {} .default) true = .ok start ∧
    (Client.articleNumbers (some Client.miscTest) none).exec start = (.ok (summary, [1, 3]), c) ∧
    Misses .default {} c (Client.stat (.number 2)) := by
  obtain ⟨start, hstart, hlevel, hadmitted, hgroups⟩ := start_level
  obtain ⟨summary, c, hlisted, -, hstat⟩ := numbers_listed hlevel hadmitted (find_miscTest hgroups)
    (by decide +kernel) miscTest_steppable (by decide +kernel)
  exact ⟨start, summary, c, hstart, hlisted, (hstat 2).2⟩

end Shelf

end Nntp
