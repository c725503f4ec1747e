import Nntp.OverviewExchange
import Nntp.Conversation

/-!
# What the client sees of the server

A client at rest asks, and the answer is within its limits: what it is handed is what the corpus holds. The groups
that `LIST` shows, the numbers that `LISTGROUP` shows, and the articles behind the numbers and the ids.
-/

namespace Nntp

open Nntp.Lib Nntp.Proto Nntp.Client Nntp.TestServer

/-! ## Asking -/

/-- The client is at rest again, and this is what has become of the session. -/
structure Rests (limits : Limits) (config : ServerConfig) (c c' : Client Loop) (after : Session) : Prop where
  level : Level limits config none c'
  session : c'.connection.stream.session = after
  group : c'.group = c.group

instance (line : Bytes) : Decidable (PlainLine line) :=
  decidable_of_iff (0x0A ∉ line ∧ line.getLast? ≠ some 0x0D)
    ⟨fun ⟨hlf, hcr⟩ => ⟨hlf, hcr⟩, fun h => ⟨h.noLf, h.noCr⟩⟩

instance (limits : Limits) (config : ServerConfig) (lines : List Bytes) :
    Decidable (ReadsWithin limits config lines) :=
  decidable_of_iff
    ((∀ line ∈ lines, (stuff line ++ config.carriageReturn).length ≤ limits.maxLineLen) ∧
      (0x2E :: config.carriageReturn).length ≤ limits.maxLineLen ∧ lines.length ≤ limits.maxBlockLines ∧
      stuffedLen lines ≤ limits.maxBlockBytes)
    ⟨fun ⟨hline, hlast, hcount, hoctets⟩ => ⟨hline, hlast, hcount, hoctets⟩,
      fun h => ⟨h.line, h.last, h.count, h.octets⟩⟩

instance (limits : Limits) (config : ServerConfig) (reply : Reply) : Decidable (Reply.Within limits config reply) :=
  decidable_of_iff ((statusHead config reply).length ≤ limits.maxLineLen ∧
    ∀ lines ∈ reply.block, ReadsWithin limits config lines)
    ⟨fun ⟨hstatus, hblock⟩ => ⟨hstatus, hblock⟩, fun h => ⟨h.status, h.block⟩⟩

/-- A command that holds valid arguments is sent. -/
theorem wire_validated {cmd : Command} (h : cmd.IsValidated) : ∃ sent, cmd.toWire = .ok sent :=
  ⟨_, Command.finish_of_fits (Command.fits_line h)⟩

section Asking

variable {limits : Limits} {config : ServerConfig} {c : Client Loop}

/-- **A command that goes on is answered** by what the session answers. -/
theorem Level.ask (h : Level limits config none c) {cmd : Command} {sent : Bytes} (hwire : cmd.toWire = .ok sent)
    {after : Session} {reply : Reply} (hanswer : answerTo c.connection.stream.session cmd = (after, reply, .continue))
    (hwithin : Reply.Within limits config reply) :
    ∃ line c', (Client.command cmd).exec c = (.ok line, c') ∧ line.code = reply.code ∧
      (reply.text.getLast? ≠ some '\r' → line.text = reply.text) ∧ Level limits config reply.block c' ∧
      c'.connection.stream.session = after ∧ c'.group = c.group := by
  have hfits : (statusHead c.connection.stream.session.config
      (answerTo c.connection.stream.session cmd).2.1).length ≤ c.connection.limits.maxLineLen := by
    rw [hanswer, h.settings, h.bounds]
    exact hwithin.status
  obtain ⟨line, connection, hexec, hx⟩ := exec_command h.usable h.idle h.upcoming hwire hfits
  have hsession : connection.stream.session = after := by
    have hpair := hx.answer
    rw [hanswer] at hpair
    exact (Prod.mk.inj hpair).1.symm
  rw [hanswer] at hx
  refine ⟨line, _, exec_command_ok hexec, hx.code, hx.text, ?_, hsession, rfl⟩
  rcases h.exchanged hx hwithin with ⟨-, hafter⟩ | ⟨hphase, -⟩ | ⟨-, hended⟩
  · exact hafter
  · cases hphase
  · cases hx.phase.symm.trans hended.phase

/-- An answer without a block leaves the client at rest. -/
theorem Level.askStatus (h : Level limits config none c) {cmd : Command} {sent : Bytes} (hwire : cmd.toWire = .ok sent)
    {after : Session} {reply : Reply} (hanswer : answerTo c.connection.stream.session cmd = (after, reply, .continue))
    (hwithin : Reply.Within limits config reply) (hnone : reply.block = none) :
    ∃ line c', (Client.command cmd).exec c = (.ok line, c') ∧ line.code = reply.code ∧
      (reply.text.getLast? ≠ some '\r' → line.text = reply.text) ∧ Rests limits config c c' after := by
  obtain ⟨line, c', hexec, hcode, htext, hlevel, hsession, hgroup⟩ := h.ask hwire hanswer hwithin
  rw [hnone] at hlevel
  exact ⟨line, c', hexec, hcode, htext, hlevel, hsession, hgroup⟩

/-- **A block is handed over line by line.** -/
theorem Level.takeBlock {lines : List Bytes} (h : Level limits config (some lines) c)
    (hplain : ∀ line ∈ lines, PlainLine line) :
    ∃ c', (Client.readBlock : ClientM Loop _).exec c = (.ok lines, c') ∧
      Rests limits config c c' c.connection.stream.session := by
  obtain ⟨connection, hread, hstream, hafter⟩ := h.readBlock
  rw [handedOver_wireLines config hplain] at hread hafter
  refine ⟨_, hread, hafter, ?_, rfl⟩
  show connection.stream.session = _
  rw [hstream]

/-- An answer with a block: the status line, and then the block. -/
theorem Level.askBlock (h : Level limits config none c) {cmd : Command} {sent : Bytes} (hwire : cmd.toWire = .ok sent)
    {after : Session} {reply : Reply} (hanswer : answerTo c.connection.stream.session cmd = (after, reply, .continue))
    (hwithin : Reply.Within limits config reply) {lines : List Bytes} (hblock : reply.block = some lines)
    (hplain : ∀ line ∈ lines, PlainLine line) :
    ∃ line mid c', (Client.command cmd).exec c = (.ok line, mid) ∧ line.code = reply.code ∧
      (reply.text.getLast? ≠ some '\r' → line.text = reply.text) ∧
      (Client.readBlock : ClientM Loop _).exec mid = (.ok lines, c') ∧ Rests limits config c c' after := by
  obtain ⟨line, mid, hexec, hcode, htext, hlevel, hsession, hgroup⟩ := h.ask hwire hanswer hwithin
  rw [hblock] at hlevel
  obtain ⟨c', hread, hrests⟩ := hlevel.takeBlock hplain
  exact ⟨line, mid, c', hexec, hcode, htext, hread, hrests.level, hrests.session.trans hsession,
    hrests.group.trans hgroup⟩

end Asking

/-! ## Words -/

/-- Words with blanks between them. -/
theorem words_joinWith {words : List Str} (h : ∀ word ∈ words, word ≠ [] ∧ ∀ c ∈ word, isAsciiGraphic c = true) :
    StatusLine.splitAsciiWhitespace (joinWith [' '] words) = words := by
  induction words with
  | nil => rfl
  | cons word words ih =>
      obtain ⟨⟨hne, hgraphic⟩, hwords⟩ := List.forall_mem_cons.mp h
      have hlast : StatusLine.splitAsciiWhitespace (word ++ []) = word :: StatusLine.splitAsciiWhitespace [] :=
        splitAsciiWhitespace_word hne hgraphic (by simp)
      cases words with
      | nil =>
          rw [List.append_nil] at hlast
          exact hlast
      | cons next words =>
          have hjoin : joinWith [' '] (word :: next :: words) = word ++ ' ' :: joinWith [' '] (next :: words) := by
            simp [joinWith]
          rw [hjoin, splitAsciiWhitespace_word hne hgraphic (by simp), splitAsciiWhitespace_blank, ih hwords]

theorem word_display (n : Nat) : display n ≠ [] ∧ ∀ c ∈ display n, isAsciiGraphic c = true :=
  ⟨(display_spec n).1, isAsciiGraphic_display n⟩

theorem word_literal (s : String) (h : (!s.toList.isEmpty && s.toList.all isAsciiGraphic) = true) :
    s.toList ≠ [] ∧ ∀ c ∈ s.toList, isAsciiGraphic c = true := by
  obtain ⟨hne, hall⟩ := Bool.and_eq_true_iff.mp h
  refine ⟨fun hnil => ?_, List.all_eq_true.mp hall⟩
  rw [hnil] at hne
  cases hne

/-- Words make a line that is not broken. -/
theorem plain_words {words : List Str} (h : ∀ word ∈ words, word ≠ [] ∧ ∀ c ∈ word, isAsciiGraphic c = true) :
    PlainLine (asBytes (joinWith [' '] words)) := by
  have hmem : ∀ c ∈ joinWith [' '] words, c = ' ' ∨ isAsciiGraphic c = true := by
    induction words with
    | nil => exact fun c hc => absurd hc List.not_mem_nil
    | cons word words ih =>
        obtain ⟨⟨-, hgraphic⟩, hwords⟩ := List.forall_mem_cons.mp h
        cases words with
        | nil => exact fun c hc => Or.inr (hgraphic c hc)
        | cons next words =>
            intro c hc
            rcases List.mem_append.mp (show c ∈ word ++ [' '] ++ joinWith [' '] (next :: words) from hc) with hc | hc
            · rcases List.mem_append.mp hc with hc | hc
              · exact Or.inr (hgraphic c hc)
              · exact Or.inl (List.mem_singleton.mp hc)
            · exact ih hwords c hc
  refine ⟨noLf_asBytes.mpr fun hlf => ?_, getLast?_asBytes_cr fun hcr => ?_⟩
  · rcases hmem _ hlf with heq | hgraphic
    · cases heq
    · exact absurd hgraphic (by decide)
  · rcases hmem _ (List.mem_of_getLast? hcr) with heq | hgraphic
    · cases heq
    · exact absurd hgraphic (by decide)

/-! ## The groups -/

/-- Whether a pattern shows a group; without one all are shown. -/
def shownBy (pattern : Option Wildmat) (group : TestServer.Group) : Bool :=
  pattern.all fun w => w.matchesName group.name

/-- The server takes a pattern, if one is sent. -/
def TakesPattern (config : ServerConfig) (pattern : Option Wildmat) : Prop :=
  pattern = none ∨ config.quirks.noListWildmat = false

section Lists

variable {session : Session}

theorem words_list (keyword : ListKeyword) :
    StatusLine.splitAsciiWhitespace (Command.list keyword).line =
      Verb.list.name.toList :: keyword.keyword.toList :: keyword.wildmat.toList.map (·.asStr) := by
  have hkeyword : keyword.keyword.toList ≠ [] ∧ ∀ c ∈ keyword.keyword.toList, isAsciiGraphic c = true := by
    cases keyword with
    | active w => exact word_literal "ACTIVE" (by decide)
    | activeTimes w => exact word_literal "ACTIVE.TIMES" (by decide)
    | newsgroups w => exact word_literal "NEWSGROUPS" (by decide)
    | overviewFmt => exact word_literal "OVERVIEW.FMT" (by decide)
    | headers => exact word_literal "HEADERS" (by decide)
  have hwords : ∀ word ∈ Verb.list.name.toList :: keyword.keyword.toList :: keyword.wildmat.toList.map (·.asStr),
      word ≠ [] ∧ ∀ c ∈ word, isAsciiGraphic c = true := by
    refine List.forall_mem_cons.mpr ⟨isAsciiGraphic_verb .list, List.forall_mem_cons.mpr ⟨hkeyword, ?_⟩⟩
    intro word hword
    obtain ⟨w, -, rfl⟩ := List.mem_map.mp hword
    obtain ⟨⟨hne, -⟩, hall⟩ := Wildmat.wellFormed_iff.mp w.wellFormed
    exact ⟨hne, List.all_eq_true.mp hall⟩
  have hline : (Command.list keyword).line =
      joinWith [' '] (Verb.list.name.toList :: keyword.keyword.toList :: keyword.wildmat.toList.map (·.asStr)) := by
    show Command.withOptionalArg "LIST" _ = _
    unfold Command.withOptionalArg
    cases keyword.wildmat with
    | none =>
        simp only [Option.map_none, Option.getD_none, Option.map_some, Option.getD_some, Option.toList_none,
          List.map_nil, joinWith, List.append_nil, List.append_assoc, List.singleton_append]
        rfl
    | some w =>
        simp only [Option.map_some, Option.getD_some, Option.toList_some, List.map_cons, List.map_nil, joinWith,
          List.append_assoc, List.singleton_append]
        rfl
  rw [hline, words_joinWith hwords]

/-- What `LIST` with a keyword and a pattern is answered with. -/
theorem answerTo_list (hadmitted : session.needsAuth = false) {keyword : ListKeyword}
    (hkeyword : keyword.keyword = "ACTIVE" ∨ keyword.keyword = "NEWSGROUPS" ∨ keyword.keyword = "ACTIVE.TIMES")
    (htakes : TakesPattern session.config keyword.wildmat) :
    answerTo session (.list keyword) = (counted session,
      session.listKeyword keyword.keyword.toList (fun name => keyword.wildmat.all fun w => w.matchesName name),
      .continue) := by
  rw [answerTo_words hadmitted (words_list keyword)]
  show (counted session, session.list _, Flow.continue) = _
  have hupper : ((keyword.keyword.toList :: keyword.wildmat.toList.map (·.asStr)).head?.map
      (·.map toAsciiUpper)).getD "ACTIVE".toList = keyword.keyword.toList := by
    show keyword.keyword.toList.map toAsciiUpper = keyword.keyword.toList
    rcases hkeyword with hname | hname | hname <;> rw [hname] <;> decide
  unfold Session.list
  dsimp only
  rw [hupper, if_pos (by rcases hkeyword with hname | hname | hname <;> rw [hname] <;> decide)]
  cases hpattern : keyword.wildmat with
  | none => rfl
  | some w =>
      have hallowed : session.config.quirks.noListWildmat = false :=
        htakes.resolve_left (by rw [hpattern]; exact nofun)
      have hparse : Wildmat.parse w.asStr = .ok w := dif_pos w.wellFormed
      simp only [Option.toList_some, List.map_cons, List.map_nil, List.getElem?_cons_succ, List.getElem?_cons_zero,
        hallowed, hparse, Bool.false_eq_true, if_false, Option.all_some]

end Lists

/-! ### Lines -/

/-- The words of a group with a valid name. -/
theorem word_name {group : TestServer.Group} (h : group.Unbroken) :
    group.name ≠ [] ∧ ∀ c ∈ group.name, isAsciiGraphic c = true := isAsciiGraphic_of_wellFormed h.name

theorem word_flag (posting : Posting) : posting.flag ≠ [] ∧ ∀ c ∈ posting.flag, isAsciiGraphic c = true := by
  cases posting <;> exact ⟨by decide, forall_of_all (by decide)⟩

/-- What `LIST ACTIVE` says of a group: its name, the watermarks, high and low, and whether it may be posted to. -/
def activeOf (group : TestServer.Group) : Str × UInt64 × UInt64 × PostingStatus :=
  (group.name, group.watermarks.2, group.watermarks.1,
    match group.posting with
    | .permitted => .permitted
    | .prohibited => .prohibited
    | .moderated => .moderated)

/-- What an entry says. -/
def activeFields (entry : ActiveEntry) : Str × UInt64 × UInt64 × PostingStatus :=
  (entry.name.asStr, entry.high, entry.low, entry.status)

theorem words_active {group : TestServer.Group} (h : group.Unbroken) :
    ∀ word ∈ [group.name, display group.watermarks.2.toNat, display group.watermarks.1.toNat, group.posting.flag],
      word ≠ [] ∧ ∀ c ∈ word, isAsciiGraphic c = true := by
  simp only [List.mem_cons, List.not_mem_nil, or_false]
  rintro word (rfl | rfl | rfl | rfl)
  · exact word_name h
  · exact word_display _
  · exact word_display _
  · exact word_flag _

variable (decoders : Decoders)

/-- **A line of `LIST ACTIVE` says what it was made of.** -/
theorem parse_activeLine {group : TestServer.Group} (h : group.Unbroken) :
    ∃ entry, ActiveEntry.parse decoders (Session.activeLine group) = .ok entry ∧
      activeFields entry = activeOf group := by
  have hname : GroupName.parse group.name = .ok ⟨group.name, h.name⟩ := dif_pos h.name
  have hwords : StatusLine.splitAsciiWhitespace (decode8bitLossy decoders (Session.activeLine group)) =
      [group.name, display group.watermarks.2.toNat, display group.watermarks.1.toNat, group.posting.flag] := by
    rw [Session.activeLine, decode8bitLossy_asBytes, words_joinWith (words_active h)]
  refine ⟨⟨⟨group.name, h.name⟩, group.watermarks.2, group.watermarks.1, PostingStatus.parse group.posting.flag⟩, ?_, ?_⟩
  · unfold ActiveEntry.parse
    dsimp only
    rw [hwords]
    simp only [nextField, parseNumber, parseU64_display, hname, bind, Except.bind, pure, Except.pure]
  · unfold activeFields activeOf
    cases group.posting <;> rfl

/-- What `LIST NEWSGROUPS` says of a group. -/
def describedOf (group : TestServer.Group) : Str × Str := (group.name, trim group.description)

theorem parse_newsgroupLine {group : TestServer.Group} (h : group.Unbroken) :
    ∃ entry, NewsgroupEntry.parse decoders (asBytes group.name ++ 0x09 :: asBytes group.description) = .ok entry ∧
      (entry.name.asStr, entry.description) = describedOf group := by
  obtain ⟨hne, hgraphic⟩ := word_name h
  have hname : GroupName.parse group.name = .ok ⟨group.name, h.name⟩ := dif_pos h.name
  have hplain : ∀ c ∈ group.name, isWhitespace c = false :=
    fun c hc => isWhitespace_of_isAsciiGraphic (hgraphic c hc)
  have htext : asBytes group.name ++ 0x09 :: asBytes group.description =
      asBytes (group.name ++ '\t' :: group.description) := by
    rw [asBytes_append]
    rfl
  have hstart : trimStart (group.name ++ '\t' :: group.description) = group.name ++ '\t' :: group.description := by
    obtain ⟨c, cs, heq⟩ := List.exists_cons_of_ne_nil hne
    have hc : isWhitespace c = false := hplain c (by rw [heq]; exact List.mem_cons_self)
    unfold trimStart
    rw [heq, List.cons_append, List.dropWhile_cons, hc, if_neg Bool.false_ne_true]
  have hword : (group.name ++ '\t' :: group.description).takeWhile (fun c => !isWhitespace c) = group.name := by
    rw [List.takeWhile_append_of_pos (fun c hc => by rw [hplain c hc]; rfl)]
    simp [isWhitespace]
  have htrim : trim ('\t' :: group.description) = trim group.description := by
    unfold trim trimStart
    rw [List.dropWhile_cons, if_pos (by decide)]
  refine ⟨⟨⟨group.name, h.name⟩, trim group.description⟩, ?_, rfl⟩
  unfold NewsgroupEntry.parse
  rw [htext, decode8bitLossy_asBytes]
  dsimp only
  rw [hstart, hword, if_neg (by simpa using hne), hname, List.drop_left, htrim]
  rfl

/-- What `LIST ACTIVE.TIMES` says of a group: when it was made, if the calendar goes so far, and by whom. -/
def timesOf (group : TestServer.Group) : Str × Option UInt64 × Str :=
  (group.name, if group.created ≤ maxTimestamp then some group.created else none, "tester@test.invalid".toList)

/-- The words of a line of `LIST ACTIVE.TIMES`. -/
def timesWords (group : TestServer.Group) : List Str :=
  [group.name, display group.created.toNat, "tester@test.invalid".toList]

theorem words_times {group : TestServer.Group} (h : group.Unbroken) :
    ∀ word ∈ timesWords group, word ≠ [] ∧ ∀ c ∈ word, isAsciiGraphic c = true := by
  unfold timesWords
  simp only [List.mem_cons, List.not_mem_nil, or_false]
  rintro word (rfl | rfl | rfl)
  · exact word_name h
  · exact word_display _
  · exact word_literal "tester@test.invalid" (by decide)

theorem parse_timesLine {group : TestServer.Group} (h : group.Unbroken) :
    ∃ entry, ActiveTimesEntry.parse decoders (asBytes (joinWith [' '] (timesWords group))) = .ok entry ∧
      (entry.name.asStr, entry.created, entry.creator) = timesOf group := by
  have hname : GroupName.parse group.name = .ok ⟨group.name, h.name⟩ := dif_pos h.name
  have hwords : StatusLine.splitAsciiWhitespace
      (decode8bitLossy decoders (asBytes (joinWith [' '] (timesWords group)))) = timesWords group := by
    rw [decode8bitLossy_asBytes, words_joinWith (words_times h)]
  refine ⟨⟨⟨group.name, h.name⟩, if group.created ≤ maxTimestamp then some group.created else none,
    "tester@test.invalid".toList⟩, ?_, rfl⟩
  unfold ActiveTimesEntry.parse
  dsimp only
  rw [hwords]
  unfold timesWords
  simp only [nextField, parseNumber, parseU64_display, hname, bind, Except.bind, pure, Except.pure]
  rfl

/-! ### Lists -/

/-- Where every line is understood, what is understood is what the lines were made of. -/
theorem collect_understood {α β γ : Type} {parse : Bytes → Except ProtoError β} {fields : β → γ} {shown : α → γ}
    (toLine : α → Bytes) {xs : List α} (h : ∀ x ∈ xs, ∃ entry, parse (toLine x) = .ok entry ∧ fields entry = shown x) :
    (ListResult.collect ((xs.map toLine).map fun raw => (parse raw).mapError fun _ => fromUtf8Lossy raw)).skipped = [] ∧
      (ListResult.collect ((xs.map toLine).map fun raw =>
        (parse raw).mapError fun _ => fromUtf8Lossy raw)).entries.map fields = xs.map shown := by
  unfold ListResult.collect
  induction xs with
  | nil => exact ⟨rfl, rfl⟩
  | cons x xs ih =>
      obtain ⟨⟨entry, hx, hfields⟩, hxs⟩ := List.forall_mem_cons.mp h
      obtain ⟨hskipped, hentries⟩ := ih hxs
      dsimp only at hskipped hentries ⊢
      have hentry : (parse (toLine x)).mapError (fun _ => fromUtf8Lossy (toLine x)) = .ok entry := by
        rw [hx]
        rfl
      rw [List.map_cons, List.map_cons, List.map_cons, hentry, List.filterMap_cons, List.filterMap_cons]
      exact ⟨hskipped, by rw [← hfields, ← hentries]; rfl⟩

/-- What a call that lists groups shows. -/
def Shows {β γ : Type} (limits : Limits) (config : ServerConfig) (c : Client Loop) (x : ClientM Loop (ListResult β))
    (fields : β → γ) (shown : List γ) : Prop :=
  ∃ result c', x.exec c = (.ok result, c') ∧ result.skipped = [] ∧ result.entries.map fields = shown ∧
    Rests limits config c c' (counted c.connection.stream.session)

section Shown

variable {limits : Limits} {config : ServerConfig} {c : Client Loop}

/-- The answer to `LIST` with a keyword, as the client takes it. -/
theorem Level.askList (h : Level limits config none c) (hadmitted : c.connection.stream.session.needsAuth = false)
    {keyword : ListKeyword}
    (hkeyword : keyword.keyword = "ACTIVE" ∨ keyword.keyword = "NEWSGROUPS" ∨ keyword.keyword = "ACTIVE.TIMES")
    (htakes : TakesPattern config keyword.wildmat) {text : Str} {lines : List Bytes}
    (hreply : c.connection.stream.session.listKeyword keyword.keyword.toList
      (fun name => keyword.wildmat.all fun w => w.matchesName name) = .listing 215 text lines)
    (hwithin : Reply.Within limits config (.listing 215 text lines)) (hplain : ∀ line ∈ lines, PlainLine line) :
    ∃ line mid c', (Client.command (.list keyword)).exec c = (.ok line, mid) ∧ line.code = 215 ∧
      (Client.readBlock : ClientM Loop _).exec mid = (.ok lines, c') ∧
      Rests limits config c c' (counted c.connection.stream.session) := by
  obtain ⟨sent, hwire⟩ := wire_validated (show (Command.list keyword).IsValidated from trivial)
  have hanswer := answerTo_list hadmitted hkeyword (by rw [h.settings]; exact htakes)
  rw [hreply] at hanswer
  obtain ⟨line, mid, c', hexec, hcode, -, hread, hrests⟩ := h.askBlock hwire hanswer hwithin rfl hplain
  exact ⟨line, mid, c', hexec, hcode, hread, hrests⟩

/-- What `LIST` with one of the keywords is answered with is within the client's limits. -/
def ListsWithin (limits : Limits) (config : ServerConfig) (session : Session) (pattern : Option Wildmat) : Prop :=
  ∀ keyword ∈ ["ACTIVE", "NEWSGROUPS", "ACTIVE.TIMES"],
    Reply.Within limits config
      (session.listKeyword keyword.toList fun name => pattern.all fun w => w.matchesName name)

/-- The keywords' own lines. -/
theorem listKeyword_lines (session : Session) (pattern : Option Wildmat) :
    session.listKeyword "ACTIVE".toList (fun name => pattern.all fun w => w.matchesName name) =
        .listing 215 "list of newsgroups follows".toList
          ((session.corpus.groups.filter (shownBy pattern)).map Session.activeLine) ∧
      session.listKeyword "NEWSGROUPS".toList (fun name => pattern.all fun w => w.matchesName name) =
        .listing 215 "descriptions follow".toList
          ((session.corpus.groups.filter (shownBy pattern)).map fun group =>
            asBytes group.name ++ 0x09 :: asBytes group.description) ∧
      session.listKeyword "ACTIVE.TIMES".toList (fun name => pattern.all fun w => w.matchesName name) =
        .listing 215 "creation times follow".toList
          ((session.corpus.groups.filter (shownBy pattern)).map fun group =>
            asBytes (joinWith [' '] (timesWords group))) := by
  unfold Session.listKeyword
  dsimp only
  refine ⟨?_, ?_, ?_⟩
  · rw [if_pos rfl]
    rfl
  · rw [if_neg (by decide), if_pos rfl]
    rfl
  · rw [if_neg (by decide), if_neg (by decide), if_pos rfl]
    rfl

theorem plain_newsgroupLine {group : TestServer.Group} (h : group.Unbroken) (hcr : '\r' ∉ group.description) :
    PlainLine (asBytes group.name ++ 0x09 :: asBytes group.description) := by
  have htext : asBytes group.name ++ 0x09 :: asBytes group.description =
      asBytes (group.name ++ '\t' :: group.description) := by
    rw [asBytes_append]
    rfl
  rw [htext]
  refine ⟨noLf_asBytes.mpr ?_, getLast?_asBytes_cr fun hlast => ?_⟩
  · simp only [List.mem_append, List.mem_cons, not_or]
    exact ⟨h.lf_not_mem_name, by decide, h.description⟩
  · rcases List.mem_append.mp (List.mem_of_getLast? hlast) with hmem | hmem
    · exact absurd ((word_name h).2 _ hmem) (by decide)
    · rcases List.mem_cons.mp hmem with heq | hmem
      · cases heq
      · exact hcr hmem

section Kinds

variable (h : Level limits config none c) (hadmitted : c.connection.stream.session.needsAuth = false)
  {pattern : Option Wildmat} (htakes : TakesPattern config pattern)

include h hadmitted htakes

/-- What `LIST ACTIVE` shows. -/
theorem Level.showsActive (hwithin : Reply.Within limits config (c.connection.stream.session.listKeyword
      "ACTIVE".toList fun name => pattern.all fun w => w.matchesName name)) :
    Shows limits config c (Client.listGroups decoders pattern) activeFields
      ((c.connection.stream.session.corpus.groups.filter (shownBy pattern)).map activeOf) := by
  obtain ⟨hactive, -, -⟩ := listKeyword_lines c.connection.stream.session pattern
  have hgood : ∀ group ∈ c.connection.stream.session.corpus.groups.filter (shownBy pattern), group.Unbroken :=
    fun group hgroup => h.idle.served.corpus group (List.mem_filter.mp hgroup).1
  rw [hactive] at hwithin
  obtain ⟨line, mid, c', hexec, hcode, hread, hrests⟩ := h.askList hadmitted
    (show (ListKeyword.active pattern).keyword = "ACTIVE" ∨ _ ∨ _ from Or.inl rfl) htakes hactive hwithin
    (List.forall_mem_map.mpr fun group hgroup => plain_words (words_active (hgood group hgroup)))
  obtain ⟨hskipped, hentries⟩ := collect_understood Session.activeLine
    fun group hgroup => parse_activeLine decoders (hgood group hgroup)
  refine ⟨_, c', ?_, hskipped, hentries, hrests⟩
  unfold Client.listGroups Client.listGroupsStreaming
  refine Fallible.exec_bind_ok ((Fallible.exec_bind_ok hexec).trans ?_)
  unfold Client.requireBlock
  rw [if_pos hcode]
  exact (Fallible.exec_bind_ok rfl).trans (Fallible.exec_bind_ok hread)

/-- What `LIST NEWSGROUPS` shows. -/
theorem Level.showsDescribed (hwithin : Reply.Within limits config (c.connection.stream.session.listKeyword
      "NEWSGROUPS".toList fun name => pattern.all fun w => w.matchesName name))
    (hdescriptions : ∀ group ∈ c.connection.stream.session.corpus.groups, '\r' ∉ group.description) :
    Shows limits config c (Client.listGroupDescriptions decoders pattern)
      (fun entry => (entry.name.asStr, entry.description))
      ((c.connection.stream.session.corpus.groups.filter (shownBy pattern)).map describedOf) := by
  obtain ⟨-, hnewsgroups, -⟩ := listKeyword_lines c.connection.stream.session pattern
  have hgood : ∀ group ∈ c.connection.stream.session.corpus.groups.filter (shownBy pattern), group.Unbroken :=
    fun group hgroup => h.idle.served.corpus group (List.mem_filter.mp hgroup).1
  rw [hnewsgroups] at hwithin
  obtain ⟨line, mid, c', hexec, hcode, hread, hrests⟩ := h.askList hadmitted
    (show (ListKeyword.newsgroups pattern).keyword = "ACTIVE" ∨ _ ∨ _ from Or.inr (Or.inl rfl)) htakes hnewsgroups
    hwithin (List.forall_mem_map.mpr fun group hgroup =>
      plain_newsgroupLine (hgood group hgroup) (hdescriptions group (List.mem_filter.mp hgroup).1))
  obtain ⟨hskipped, hentries⟩ := collect_understood _
    fun group hgroup => parse_newsgroupLine decoders (hgood group hgroup)
  refine ⟨_, c', ?_, hskipped, hentries, hrests⟩
  unfold Client.listGroupDescriptions
  refine (Fallible.exec_bind_ok hexec).trans ?_
  unfold Client.requireBlock
  rw [if_pos hcode]
  exact (Fallible.exec_bind_ok rfl).trans (Fallible.exec_bind_ok hread)

/-- What `LIST ACTIVE.TIMES` shows. -/
theorem Level.showsTimes (hwithin : Reply.Within limits config (c.connection.stream.session.listKeyword
      "ACTIVE.TIMES".toList fun name => pattern.all fun w => w.matchesName name)) :
    Shows limits config c (Client.groupCreationTimes decoders pattern)
      (fun entry => (entry.name.asStr, entry.created, entry.creator))
      ((c.connection.stream.session.corpus.groups.filter (shownBy pattern)).map timesOf) := by
  obtain ⟨-, -, htimes⟩ := listKeyword_lines c.connection.stream.session pattern
  have hgood : ∀ group ∈ c.connection.stream.session.corpus.groups.filter (shownBy pattern), group.Unbroken :=
    fun group hgroup => h.idle.served.corpus group (List.mem_filter.mp hgroup).1
  rw [htimes] at hwithin
  obtain ⟨line, mid, c', hexec, hcode, hread, hrests⟩ := h.askList hadmitted
    (show (ListKeyword.activeTimes pattern).keyword = "ACTIVE" ∨ _ ∨ _ from Or.inr (Or.inr rfl)) htakes htimes
    hwithin (List.forall_mem_map.mpr fun group hgroup => plain_words (words_times (hgood group hgroup)))
  obtain ⟨hskipped, hentries⟩ := collect_understood _
    fun group hgroup => parse_timesLine decoders (hgood group hgroup)
  refine ⟨_, c', ?_, hskipped, hentries, hrests⟩
  unfold Client.groupCreationTimes
  refine (Fallible.exec_bind_ok hexec).trans ?_
  rw [if_pos hcode]
  exact Fallible.exec_bind_ok hread

end Kinds

/-- **What `LIST` shows is what the corpus holds**: every group that the pattern matches, each once and in the order
of the corpus, with its watermarks, its flag, its description and its age, and no line that is not understood. -/
theorem lists_show_corpus (h : Level limits config none c)
    (hadmitted : c.connection.stream.session.needsAuth = false) {pattern : Option Wildmat}
    (htakes : TakesPattern config pattern)
    (hwithin : ListsWithin limits config c.connection.stream.session pattern)
    (hdescriptions : ∀ group ∈ c.connection.stream.session.corpus.groups, '\r' ∉ group.description) :
    Shows limits config c (Client.listGroups decoders pattern) activeFields
        ((c.connection.stream.session.corpus.groups.filter (shownBy pattern)).map activeOf) ∧
      Shows limits config c (Client.listGroupDescriptions decoders pattern)
        (fun entry => (entry.name.asStr, entry.description))
        ((c.connection.stream.session.corpus.groups.filter (shownBy pattern)).map describedOf) ∧
      Shows limits config c (Client.groupCreationTimes decoders pattern)
        (fun entry => (entry.name.asStr, entry.created, entry.creator))
        ((c.connection.stream.session.corpus.groups.filter (shownBy pattern)).map timesOf) :=
  ⟨h.showsActive decoders hadmitted htakes (hwithin "ACTIVE" (by simp)),
    h.showsDescribed decoders hadmitted htakes (hwithin "NEWSGROUPS" (by simp)) hdescriptions,
    h.showsTimes decoders hadmitted htakes (hwithin "ACTIVE.TIMES" (by simp))⟩

end Shown

/-! ### A small server -/

namespace Shelf

def first : TestServer.Article where
  messageId := "<1@a>".toList
  head := [asBytes "Subject: a".toList]
  body := [asBytes ".".toList]

def third : TestServer.Article where
  messageId := "<3@a>".toList
  head := [asBytes "Subject: c".toList]
  body := []

theorem sorted : [((1 : UInt64), first), (3, third)].Pairwise fun a b => a.1 < b.1 := by
  decide

/-- A group whose second article is gone. -/
def miscTest : TestServer.Group where
  name := "misc.test".toList
  description := "Tests".toList
  articles := ⟨_, sorted⟩

def altTest : TestServer.Group where
  name := "alt.test".toList
  posting := .moderated
  articles := ⟨[], Session.nothing_sorted⟩

def corpus : Corpus where
  groups := [miscTest, altTest]

theorem corpus_unbroken : corpus.Unbroken := by
  have hgroups : ∀ group ∈ corpus.groups, GroupName.isWellFormed group.name = true ∧ '\n' ∉ group.description ∧
      ∀ entry ∈ group.articles.entries, '\n' ∉ entry.2.messageId ∧ (∀ line ∈ entry.2.head, 0x0A ∉ line) ∧
        ∀ line ∈ entry.2.body, 0x0A ∉ line := by
    decide +kernel
  intro group hgroup
  obtain ⟨hname, hdescription, harticles⟩ := hgroups group hgroup
  exact ⟨hname, hdescription, fun entry hentry => ⟨(harticles entry hentry).1, (harticles entry hentry).2.1,
    (harticles entry hentry).2.2⟩⟩

/-- A new client at this server is at rest. -/
theorem start_level : ∃ c, Client.withOptions (accepted corpus {} .default) true = .ok c ∧ Level .default {} none c ∧
    c.connection.stream.session.needsAuth = false ∧ c.connection.stream.session.corpus.groups = corpus.groups := by
  have hstart : (Client.withOptions (accepted corpus {} .default) true).toOption.map (fun c =>
      (c.connection.stream.phase, c.connection.stream.session.needsAuth,
        c.connection.stream.session.corpus.groups)) = some (.command, false, corpus.groups) := by
    decide +kernel
  cases hresult : Client.withOptions (accepted corpus {} .default) true with
  | error e =>
      rw [hresult] at hstart
      cases hstart
  | ok c =>
      rw [hresult] at hstart
      simp only [Except.toOption, Option.map_some, Option.some.injEq, Prod.mk.injEq] at hstart
      obtain ⟨hphase, hadmitted, hgroups⟩ := hstart
      refine ⟨c, rfl, ?_, hadmitted, hgroups⟩
      rcases (inStep_withOptions corpus_unbroken Lockstep.steady_default hresult).settled with hlevel | hended
      · exact hlevel
      · rw [hended.phase] at hphase
        cases hphase

/-- The pattern `misc.*`. -/
def miscGroups : Wildmat := ⟨"misc.*".toList, by decide⟩

/-- **A client that asks for `misc.*`** is shown one of the two groups. -/
theorem lists_show_misc : ∃ c, Client.withOptions (accepted corpus {} .default) true = .ok c ∧
    Shows .default {} c (Client.listGroups Client.plainDecoders (some miscGroups)) activeFields
        [("misc.test".toList, 3, 1, .permitted)] ∧
      Shows .default {} c (Client.listGroupDescriptions Client.plainDecoders (some miscGroups))
        (fun entry => (entry.name.asStr, entry.description)) [("misc.test".toList, "Tests".toList)] := by
  obtain ⟨c, hc, hlevel, hadmitted, hgroups⟩ := start_level
  have hlists : ListsWithin .default {} c.connection.stream.session (some miscGroups) := by
    intro keyword hkeyword
    have hwithin : ∀ keyword ∈ ["ACTIVE", "NEWSGROUPS", "ACTIVE.TIMES"], Reply.Within .default {}
        ((Session.new corpus {}).listKeyword keyword.toList fun name => (some miscGroups).all fun w => w.matchesName name) := by
      decide +kernel
    have hsame : ∀ keyword keeps, c.connection.stream.session.listKeyword keyword keeps =
        (Session.new corpus {}).listKeyword keyword keeps := by
      intro keyword keeps
      unfold Session.listKeyword
      rw [hgroups, hlevel.settings]
      rfl
    rw [hsame]
    exact hwithin keyword hkeyword
  have hkept : corpus.groups.filter (shownBy (some miscGroups)) = [miscTest] := by decide +kernel
  obtain ⟨hactive, hdescriptions, -⟩ := lists_show_corpus Client.plainDecoders hlevel hadmitted
    (show TakesPattern {} (some miscGroups) from Or.inr rfl) hlists (by rw [hgroups]; decide)
  rw [hgroups, hkept] at hactive hdescriptions
  exact ⟨c, hc, hactive, hdescriptions⟩

end Shelf

end Nntp
