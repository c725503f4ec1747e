import Nntp.Lockstep
import Nntp.Overviews
import Nntp.Proto.Encoding

/-!
# Overviews over a connection

The answers of a session to `OVER`, `XOVER` and `LIST OVERVIEW.FMT`, and what a client with the group selected is
handed for them: the records of the articles in the range, or an error where there is none.
-/

namespace Nntp

open Nntp.Lib Nntp.Proto Nntp.Client Nntp.TestServer

/-! ## What the server answers -/

/-- The articles of a group in a range. -/
def articlesIn (group : Group) (range : Range) : List (UInt64 × Article) :=
  group.articles.entries.filter fun entry => range.contains entry.1

/-- The lines of an overview. -/
def overviewLines (group : Group) (range : Range) : List Bytes :=
  (articlesIn group range).map fun entry => entry.2.overviewLine entry.1 group.name

/-- The answer to a command for an overview that is known. -/
def overviewReply (group : Group) (range : Range) : Reply :=
  if overviewLines group range = [] then .plain 423 "no articles in that range"
  else Session.overFollows (overviewLines group range)

/-- The server takes `OVER` for no command. -/
def refusesOver (config : ServerConfig) : Bool :=
  config.quirks.overAdvertisedButMissing || config.capabilities == .noOver

section Answers

variable {session : Session}

/-- A command with these words. -/
theorem answerTo_words (hadmitted : session.needsAuth = false) {cmd : Command} {verb : Verb} {args : List Str}
    (hwords : StatusLine.splitAsciiWhitespace cmd.line = verb.name.toList :: args) :
    answerTo session cmd = (counted session).perform verb args := by
  have hcounted : (counted session).needsAuth = false := hadmitted
  unfold answerTo
  rw [answer_words hwords, hcounted, Bool.false_and, if_neg Bool.false_ne_true]

theorem parseRange_between (low high : UInt64) :
    parseRange (Range.between low high).toArgument = some (low, some high) := by
  have hdash : ∀ c ∈ display low.toNat, (c == '-') = false := by
    intro c hc
    have hdigit := (display_spec low.toNat).2.1 c hc
    rw [beq_eq_false_iff_ne]
    rintro rfl
    cases hdigit
  obtain ⟨c, cs, hhigh⟩ := List.exists_cons_of_ne_nil (display_spec high.toNat).1
  unfold parseRange Range.toArgument
  rw [splitOnce_append hdash rfl, hhigh]
  dsimp only
  rw [← hhigh, parseU64_display, parseU64_display]
  rfl

theorem isAsciiGraphic_between (low high : UInt64) :
    ∀ c ∈ (Range.between low high).toArgument, isAsciiGraphic c = true := by
  intro c hc
  rcases List.mem_append.mp hc with hc | hc
  · exact isAsciiGraphic_display _ c hc
  · rcases List.mem_cons.mp hc with rfl | hc
    · rfl
    · exact isAsciiGraphic_display _ c hc

/-- The words of a command for a range. -/
theorem words_between {name : Str} (hne : name ≠ []) (hname : ∀ c ∈ name, isAsciiGraphic c = true)
    (low high : UInt64) :
    StatusLine.splitAsciiWhitespace (name ++ ' ' :: (Range.between low high).toArgument) =
      [name, (Range.between low high).toArgument] := by
  have hrange : (Range.between low high).toArgument ≠ [] := by
    unfold Range.toArgument
    simp
  have hword : StatusLine.splitAsciiWhitespace ((Range.between low high).toArgument ++ []) =
      (Range.between low high).toArgument :: StatusLine.splitAsciiWhitespace [] :=
    splitAsciiWhitespace_word hrange (isAsciiGraphic_between low high) (by simp)
  rw [List.append_nil] at hword
  rw [splitAsciiWhitespace_word hne hname (by simp), splitAsciiWhitespace_blank, hword]
  rfl

variable {group : Group} (hselected : session.selectedGroup = some group) (hadmitted : session.needsAuth = false)
include hselected

/-- The overview of a range, where the command is known. -/
theorem over_between {verb : Verb} (hknown : verb = .over → refusesOver session.config = false) (low high : UInt64) :
    session.over verb [(Range.between low high).toArgument] = overviewReply group (.between low high) := by
  have hlisted : ¬ (verb = .over ∧ session.config.quirks.overAdvertisedButMissing = true) := by
    rintro ⟨hover, hmissing⟩
    have hrefuses := hknown hover
    unfold refusesOver at hrefuses
    rw [hmissing] at hrefuses
    cases hrefuses
  have hprofile : ¬ (verb = .over ∧ session.config.capabilities = .noOver) := by
    rintro ⟨hover, hnone⟩
    have hrefuses := hknown hover
    unfold refusesOver at hrefuses
    rw [hnone, Bool.or_eq_false_iff] at hrefuses
    cases hrefuses.2
  have hnumber : Session.messageIdArgument (some (Range.between low high).toArgument) = none := by
    obtain ⟨c, cs, hlow⟩ := List.exists_cons_of_ne_nil (display_spec low.toNat).1
    have hdigit := (display_spec low.toNat).2.1 c (hlow ▸ List.mem_cons_self)
    have hno : c ≠ '<' := by
      rintro rfl
      cases hdigit
    unfold Session.messageIdArgument Range.toArgument
    simp [hlow, hno]
  have hrange : session.overRange group [(Range.between low high).toArgument] = .ok (low, high) := by
    unfold Session.overRange
    dsimp only [List.head?_cons]
    rw [parseRange_between]
  unfold Session.over
  rw [if_neg hlisted, if_neg hprofile]
  dsimp only [List.head?_cons]
  rw [hnumber, hselected]
  dsimp only
  rw [hrange]
  rfl

include hadmitted

theorem answerTo_xover (low high : UInt64) :
    answerTo session (.xover (.between low high)) =
      (counted session, overviewReply group (.between low high), .continue) := by
  have hwords : StatusLine.splitAsciiWhitespace (Command.xover (.between low high)).line =
      Verb.xover.name.toList :: [(Range.between low high).toArgument] :=
    words_between (isAsciiGraphic_verb .xover).1 (isAsciiGraphic_verb .xover).2 low high
  have hselected : (counted session).selectedGroup = some group := hselected
  rw [answerTo_words hadmitted hwords]
  show (counted session, (counted session).over .xover _, Flow.continue) = _
  rw [over_between hselected (fun hover => by cases hover)]

theorem answerTo_over (low high : UInt64) :
    answerTo session (.over (.range (.between low high))) =
      (counted session,
        if refusesOver session.config then Session.notRecognised else overviewReply group (.between low high),
        .continue) := by
  have hwords : StatusLine.splitAsciiWhitespace (Command.over (.range (.between low high))).line =
      Verb.over.name.toList :: [(Range.between low high).toArgument] :=
    words_between (isAsciiGraphic_verb .over).1 (isAsciiGraphic_verb .over).2 low high
  have hselected : (counted session).selectedGroup = some group := hselected
  rw [answerTo_words hadmitted hwords]
  show (counted session, (counted session).over .over _, Flow.continue) = _
  cases hrefuses : refusesOver session.config with
  | false => rw [over_between hselected (fun _ => hrefuses), if_neg Bool.false_ne_true]
  | true =>
      have hrefused : (counted session).over .over [(Range.between low high).toArgument] = Session.notRecognised := by
        unfold Session.over
        rcases Bool.or_eq_true_iff.mp hrefuses with hmissing | hnone
        · exact if_pos ⟨rfl, hmissing⟩
        · split
          · rfl
          · exact if_pos ⟨rfl, eq_of_beq hnone⟩
      rw [hrefused]
      rfl

omit hselected in
theorem answerTo_overviewFmt :
    answerTo session (.list .overviewFmt) =
      (counted session, session.list ["OVERVIEW.FMT".toList], .continue) := by
  have hwords : StatusLine.splitAsciiWhitespace (Command.list .overviewFmt).line =
      Verb.list.name.toList :: ["OVERVIEW.FMT".toList] := by
    decide
  rw [answerTo_words hadmitted hwords]
  rfl

end Answers

/-- The lines of the layout. -/
def layoutLines : List Bytes :=
  ["Subject:", "From:", "Date:", "Message-ID:", "References:", ":bytes", ":lines", "Xref:full"].map
    fun line => asBytes line.toList

/-- The answer to `LIST OVERVIEW.FMT`. -/
def formatReply (config : ServerConfig) : Reply :=
  if config.quirks.noOverviewFmt then .plain 503 "overview format not available"
  else .listing 215 "overview format follows".toList layoutLines

theorem list_overviewFmt (session : Session) :
    session.list ["OVERVIEW.FMT".toList] = formatReply session.config := by
  have hkeyword : ((["OVERVIEW.FMT".toList].head?.map (·.map toAsciiUpper)).getD "ACTIVE".toList) =
      "OVERVIEW.FMT".toList := by
    decide
  unfold Session.list
  dsimp only
  rw [hkeyword, if_neg (by decide)]
  dsimp only
  unfold Session.listKeyword formatReply
  rw [if_neg (by decide), if_neg (by decide), if_neg (by decide), if_pos rfl]
  rfl

/-! ## A client with a group -/

/-- A client at rest, with a group selected that the server serves it. -/
structure Browsing (limits : Limits) (config : ServerConfig) (group : TestServer.Group) (c : Client Loop) : Prop where
  level : Level limits config none c
  selected : c.connection.stream.session.selectedGroup = some group
  admitted : c.connection.stream.session.needsAuth = false

/-- A block of these lines is still to be read. -/
structure Owing (limits : Limits) (config : ServerConfig) (group : TestServer.Group) (lines : List Bytes)
    (c : Client Loop) : Prop where
  idle : Idle c.connection.stream
  settings : c.connection.stream.session.config = config
  usable : c.connection.desynchronised = false
  bounds : c.connection.limits = limits
  cancel : Uncancelled c.connection
  upcoming : c.connection.upcoming = (owed config (some lines)).map .item
  plain : ∀ line ∈ lines, PlainLine line
  selected : c.connection.stream.session.selectedGroup = some group
  admitted : c.connection.stream.session.needsAuth = false

section Client

variable {limits : Limits} {config : ServerConfig} {group : TestServer.Group} {c c' : Client Loop}

theorem Browsing.of_connection (h : Browsing limits config group c) (hconn : c'.connection = c.connection) :
    Browsing limits config group c' := by
  obtain ⟨hlevel, hselected, hadmitted⟩ := h
  rw [← hconn] at hselected hadmitted
  exact ⟨hlevel.of_connection hconn, hselected, hadmitted⟩

theorem Owing.of_connection {lines : List Bytes} (h : Owing limits config group lines c)
    (hconn : c'.connection = c.connection) : Owing limits config group lines c' := by
  obtain ⟨h1, h2, h3, h4, h5, h6, h7, h8, h9⟩ := h
  rw [← hconn] at h1 h2 h3 h4 h5 h6 h8 h9
  exact ⟨h1, h2, h3, h4, h5, h6, h7, h8, h9⟩

/-- The group is one of the corpus. -/
theorem Browsing.unbroken (h : Browsing limits config group c) : group.Unbroken := by
  obtain ⟨name, -, hfind⟩ := Option.bind_eq_some_iff.mp h.selected
  exact h.level.idle.served.corpus group (Corpus.mem_of_find hfind).1

/-- A block that is read is within the limits. -/
theorem Owing.within {lines block : List Bytes} (h : Owing limits config group lines c) {connection : Connection Loop}
    (hread : (Connection.readBlockStreaming : Conn Loop _).exec c.connection = (.ok block, connection)) :
    ReadsWithin limits config lines := by
  obtain ⟨⟨raw, last, tail, hraw, hnot, hshort, hterm, -, hup⟩, -, -⟩ := Connection.readBlock_ok h.usable hread
  rw [h.bounds] at hraw hshort
  rw [h.upcoming, owed, List.map_append] at hup
  exact readsWithin_of_read h.plain hraw hnot hshort hterm hup

/-- **The block is read** if it is within the limits, and else the connection is given up. -/
theorem Owing.readBlock {lines : List Bytes} (h : Owing limits config group lines c) :
    Fallible.Decides (Client.readBlock : ClientM Loop _) c (ReadsWithin limits config lines) fun block after =>
      block = lines ∧ Browsing limits config group after ∧ after.overviewStyle = c.overviewStyle ∧
        after.resolveOverviewStyle = c.resolveOverviewStyle := by
  by_cases hwithin : ReadsWithin limits config lines
  · have hlevel : Level limits config (some lines) c := {
      idle := h.idle
      settings := h.settings
      usable := h.usable
      bounds := h.bounds
      cancel := h.cancel
      upcoming := h.upcoming
      lines := fun _ hsome line hline => by cases hsome; exact (h.plain line hline).noLf
      within := fun _ hsome => by cases hsome; exact hwithin }
    obtain ⟨connection, hread, hstream, hafter⟩ := hlevel.readBlock
    rw [handedOver_wireLines config h.plain] at hread hafter
    refine .of_ok hread hwithin ⟨rfl, ⟨hafter, ?_, ?_⟩, rfl, rfl⟩
    · show connection.stream.session.selectedGroup = _
      rw [hstream]
      exact h.selected
    · show connection.stream.session.needsAuth = _
      rw [hstream]
      exact h.admitted
  · rcases hread : (Client.readBlock : ClientM Loop _).exec c with ⟨e | block, after⟩
    · exact .of_error hread hwithin
    · exact absurd (h.within (Client.exec_readBlock_ok hread)) hwithin

/-- **A command** of one whose answer is known is answered by it, if the status line is not too long. -/
theorem Browsing.command (h : Browsing limits config group c) {cmd : Command} (hvalid : cmd.IsValidated) {reply : Reply}
    (hanswer : answerTo c.connection.stream.session cmd = (counted c.connection.stream.session, reply, .continue)) :
    Fallible.Decides (Client.command cmd) c ((statusHead config reply).length ≤ limits.maxLineLen) fun line after =>
      ∃ connection, after = heardOf c connection cmd line ∧
        Exchanged c.connection connection cmd line reply .continue := by
  have hwire : cmd.toWire = .ok _ := Command.finish_of_fits (Command.fits_line hvalid)
  by_cases hstatus : (statusHead config reply).length ≤ limits.maxLineLen
  · have hfits : (statusHead c.connection.stream.session.config
        (answerTo c.connection.stream.session cmd).2.1).length ≤ c.connection.limits.maxLineLen := by
      rw [hanswer, h.level.settings, h.level.bounds]
      exact hstatus
    obtain ⟨line, connection, hexec, hx⟩ := exec_command h.level.usable h.level.idle h.level.upcoming hwire hfits
    rw [hanswer] at hx
    exact .of_ok (exec_command_ok hexec) hstatus ⟨connection, rfl, hx⟩
  · rcases hexec : (Connection.command cmd).exec c.connection with ⟨e | line, connection⟩
    · exact .of_error (exec_command_error hexec) hstatus
    · have hfits := fits_of_command h.level.usable h.level.idle h.level.upcoming hexec
      rw [hanswer, h.level.settings, h.level.bounds] at hfits
      exact absurd hfits hstatus

section Behind

variable {connection : Connection Loop} {cmd : Command} {line : StatusLine} {reply : Reply}

/-- The session behind a command that only counts. -/
theorem Exchanged.session (hx : Exchanged c.connection connection cmd line reply .continue)
    (hanswer : answerTo c.connection.stream.session cmd = (counted c.connection.stream.session, reply, .continue)) :
    connection.stream.session = counted c.connection.stream.session :=
  (Prod.mk.inj (hx.answer.symm.trans hanswer)).1

/-- An answer without a block leaves the client at rest. -/
theorem Browsing.behind (h : Browsing limits config group c)
    (hx : Exchanged c.connection connection cmd line reply .continue)
    (hanswer : answerTo c.connection.stream.session cmd = (counted c.connection.stream.session, reply, .continue))
    (hstatus : (statusHead config reply).length ≤ limits.maxLineLen) (hnone : reply.block = none) :
    Browsing limits config group (heardOf c connection cmd line) := by
  have hsession := hx.session hanswer
  refine ⟨?_, ?_, ?_⟩
  · rcases h.level.exchanged hx ⟨hstatus, fun lines hlines => by rw [hnone] at hlines; cases hlines⟩ with
      ⟨-, hafter⟩ | ⟨hphase, -⟩ | ⟨-, hended⟩
    · rw [hnone] at hafter
      exact hafter
    · cases hphase
    · exact absurd (hx.phase.symm.trans hended.phase) (by decide)
  · show connection.stream.session.selectedGroup = _
    rw [hsession]
    exact h.selected
  · show connection.stream.session.needsAuth = _
    rw [hsession]
    exact h.admitted

/-- An answer with a block leaves it to be read. -/
theorem Browsing.owing (h : Browsing limits config group c)
    (hx : Exchanged c.connection connection cmd line reply .continue)
    (hanswer : answerTo c.connection.stream.session cmd = (counted c.connection.stream.session, reply, .continue))
    {lines : List Bytes} (hblock : reply.block = some lines) (hplain : ∀ line ∈ lines, PlainLine line) :
    Owing limits config group lines (heardOf c connection cmd line) := by
  have hsession := hx.session hanswer
  exact {
    idle := ⟨h.level.idle.served.of_kept hx.answered.kept, hx.phase, hx.input⟩
    settings := hx.answered.kept.config.trans h.level.settings
    usable := hx.usable
    bounds := hx.limits.trans h.level.bounds
    cancel := h.level.cancel.of_eq hx.cancel
    upcoming := by
      show connection.upcoming = _
      rw [hx.owed, hblock, h.level.settings]
    plain := hplain
    selected := by
      show connection.stream.session.selectedGroup = _
      rw [hsession]
      exact h.selected
    admitted := by
      show connection.stream.session.needsAuth = _
      rw [hsession]
      exact h.admitted }

end Behind

/-! ## What an answer comes to -/

/-- An answer without a block is within the limits if its status line is. -/
theorem within_of_status {reply : Reply} (hnone : reply.block = none) :
    Reply.Within limits config reply ↔ (statusHead config reply).length ≤ limits.maxLineLen := by
  refine ⟨Reply.Within.status, fun hstatus => ⟨hstatus, fun lines hlines => ?_⟩⟩
  rw [hnone] at hlines
  cases hlines

/-- An answer with a block is within the limits if its status line and its block are. -/
theorem within_of_block {reply : Reply} {lines : List Bytes} (hblock : reply.block = some lines) :
    Reply.Within limits config reply ↔
      (statusHead config reply).length ≤ limits.maxLineLen ∧ ReadsWithin limits config lines := by
  refine ⟨fun h => ⟨h.status, h.block lines hblock⟩, fun h => ⟨h.1, fun lines' hlines => ?_⟩⟩
  rw [hblock] at hlines
  cases hlines
  exact h.2

/-! ## The layout -/

/-- No line of the layout is broken. -/
theorem plain_layout : ∀ line ∈ layoutLines, PlainLine line := by
  refine List.forall_mem_map.mpr fun text htext => ?_
  have hplain : ∀ text ∈ ["Subject:", "From:", "Date:", "Message-ID:", "References:", ":bytes", ":lines",
      "Xref:full"], '\n' ∉ text.toList ∧ text.toList.getLast? ≠ some '\r' := by
    decide
  exact ⟨noLf_asBytes.mpr (hplain text htext).1, getLast?_asBytes_cr (hplain text htext).2⟩

/-- The layout the client reads overviews in: the one it knows, or else the server's, or the standard one. -/
def layoutOf (decoders : Decoders) (config : ServerConfig) (c : Client Loop) : OverviewFmt :=
  c.overviewFmt.getD
    (if config.quirks.noOverviewFmt then .standard else OverviewFmt.parse decoders layoutLines)

/-- **The layout is asked for** unless it is known. -/
theorem Browsing.overviewFormat (h : Browsing limits config group c) (decoders : Decoders) :
    Fallible.Decides (Client.overviewFormat decoders) c
      (c.overviewFmt = none → Reply.Within limits config (formatReply config)) fun fmt after =>
        fmt = layoutOf decoders config c ∧ Browsing limits config group after ∧
          after.resolveOverviewStyle = c.resolveOverviewStyle := by
  have hanswer : answerTo c.connection.stream.session (.list .overviewFmt) =
      (counted c.connection.stream.session, formatReply config, .continue) := by
    rw [answerTo_overviewFmt h.admitted, list_overviewFmt, h.level.settings]
  have hvalid : (Command.list .overviewFmt).IsValidated := trivial
  have hasked : Fallible.Decides (Client.command (.list .overviewFmt) >>= fun line =>
      if line.code = 215 then do
        let block ← Client.readBlock
        Client.cacheFormat (OverviewFmt.parse decoders block)
      else Client.cacheFormat .standard) c (Reply.Within limits config (formatReply config)) fun fmt after =>
        fmt = (if config.quirks.noOverviewFmt then .standard else OverviewFmt.parse decoders layoutLines) ∧
          Browsing limits config group after ∧ after.resolveOverviewStyle = c.resolveOverviewStyle := by
    cases hquirk : config.quirks.noOverviewFmt with
    | true =>
        have hreply : formatReply config = .plain 503 "overview format not available" := if_pos hquirk
        have hnone : (formatReply config).block = none := by
          rw [hreply]
          rfl
        have hcode : (formatReply config).code ≠ 215 := by
          rw [hreply]
          decide
        rw [within_of_status hnone]
        refine (h.command hvalid hanswer).bind_ok ?_
        rintro line mid hstatus ⟨connection, rfl, hx⟩
        rw [if_neg fun hline => hcode (hx.code.symm.trans hline)]
        exact ⟨_, _, rfl, rfl, (h.behind hx hanswer hstatus hnone).of_connection rfl, rfl⟩
    | false =>
        have hblock : (formatReply config).block = some layoutLines := by
          unfold formatReply
          rw [hquirk]
          rfl
        have hcode : (formatReply config).code = 215 := by
          unfold formatReply
          rw [hquirk]
          rfl
        rw [within_of_block hblock]
        refine (h.command hvalid hanswer).bind ?_
        rintro line mid - ⟨connection, rfl, hx⟩
        rw [if_pos (hx.code.trans hcode)]
        refine (h.owing hx hanswer hblock plain_layout).readBlock.bind_ok ?_
        rintro block after - ⟨rfl, hafter, -, hstyle⟩
        exact ⟨_, _, rfl, rfl, hafter.of_connection rfl, hstyle⟩
  refine .of_exec (Fallible.exec_bind_ok (Fallible.exec_get c)) ?_
  cases hfmt : c.overviewFmt with
  | some fmt =>
      have hlayout : fmt = layoutOf decoders config c := by
        unfold layoutOf
        rw [hfmt]
        rfl
      exact .of_ok rfl (fun hnone => by cases hnone) ⟨hlayout, h, rfl⟩
  | none =>
      have hlayout : layoutOf decoders config c =
          if config.quirks.noOverviewFmt then .standard else OverviewFmt.parse decoders layoutLines := by
        unfold layoutOf
        rw [hfmt]
        rfl
      rw [hlayout]
      exact hasked.congr ⟨fun hwithin _ => hwithin, fun hwithin => hwithin rfl⟩

/-! ## One range -/

/-- The record of an article, read in a layout. -/
def recordOf (decoders : Decoders) (fmt : OverviewFmt) (group : TestServer.Group) (entry : UInt64 × Article) :
    OverviewRecord :=
  OverviewRecord.setFields decoders fmt (.bare entry.1) 0
    ((entry.2.overviewValues entry.1 group.name).flatMap (pieces (· == 0x09)))

theorem parse_overviewLines (decoders : Decoders) (fmt : OverviewFmt) (group : TestServer.Group) (range : Range) :
    (overviewLines group range).map (fun raw =>
        (OverviewRecord.parse decoders raw fmt).mapError fun _ => fromUtf8Lossy raw) =
      (articlesIn group range).map fun entry => .ok (recordOf decoders fmt group entry) := by
  unfold overviewLines
  rw [List.map_map]
  refine List.map_congr_left fun entry _ => ?_
  show Except.mapError _ (OverviewRecord.parse decoders (entry.2.overviewLine entry.1 group.name) fmt) = _
  rw [Article.parse_overviewLine]
  rfl

/-- No line of an overview is broken. -/
theorem plain_overviewLines (h : group.Unbroken) (range : Range) :
    ∀ line ∈ overviewLines group range, PlainLine line := by
  intro line hline
  obtain ⟨entry, hentry, rfl⟩ := List.mem_map.mp hline
  refine ⟨(h.articles entry (List.mem_of_mem_filter hentry)).overviewLine entry.1 h.lf_not_mem_name, ?_⟩
  obtain ⟨hne, hdigits, -⟩ := display_spec entry.1.toNat
  have htext : ("Xref: test.invalid ".toList ++ group.name ++ ':' :: display entry.1.toNat).getLast? ≠ some '\r' := by
    intro hlast
    rw [List.append_cons, List.getLast?_append_of_ne_nil _ hne] at hlast
    cases hdigits _ (List.mem_of_getLast? hlast)
  have hbytes : asBytes ("Xref: test.invalid ".toList ++ group.name ++ ':' :: display entry.1.toNat) ≠ [] := by
    rw [Ne, asBytes_eq_nil]
    simp
  intro hlast
  unfold Article.overviewLine at hlast
  rw [List.append_cons, List.getLast?_append_of_ne_nil _ hbytes] at hlast
  exact getLast?_asBytes_cr htext hlast

/-- The overview of a range can be handed over: there is an article in it, and the answer is within the limits. -/
def Listed (limits : Limits) (config : ServerConfig) (group : TestServer.Group) (range : Range) : Prop :=
  articlesIn group range ≠ [] ∧ Reply.Within limits config (overviewReply group range)

/-- The client has a command for overviews, or finds one that the server knows. -/
structure Asks (limits : Limits) (config : ServerConfig) (c : Client Loop) : Prop where
  known : c.resolveOverviewStyle ≠ .unavailable
  refusal : c.resolveOverviewStyle ≠ .xover → refusesOver config = true →
    Reply.Within limits config Session.notRecognised

theorem Asks.of_style (h : Asks limits config c) (hstyle : c'.resolveOverviewStyle = c.resolveOverviewStyle) :
    Asks limits config c' := by
  obtain ⟨hknown, hrefusal⟩ := h
  rw [← hstyle] at hknown hrefusal
  exact ⟨hknown, hrefusal⟩

theorem asks_of_xover (hstyle : c.overviewStyle = .xover) : Asks limits config c := by
  have hresolved : c.resolveOverviewStyle = .xover := by
    unfold Client.resolveOverviewStyle
    rw [hstyle]
  refine ⟨?_, fun hnot => absurd hresolved hnot⟩
  rw [hresolved]
  decide

theorem asks_of_over (hstyle : c.overviewStyle = .over) (hknown : refusesOver config = false) :
    Asks limits config c := by
  have hresolved : c.resolveOverviewStyle = .over := by
    unfold Client.resolveOverviewStyle
    rw [hstyle]
  refine ⟨?_, fun _ hrefuses => ?_⟩
  · rw [hresolved]
    decide
  · rw [hknown] at hrefuses
    cases hrefuses

theorem listed_iff (range : Range) (hlines : overviewLines group range ≠ []) :
    Listed limits config group range ↔ (statusHead config (overviewReply group range)).length ≤ limits.maxLineLen ∧
      ReadsWithin limits config (overviewLines group range) := by
  have hblock : (overviewReply group range).block = some (overviewLines group range) := by
    unfold overviewReply
    rw [if_neg hlines]
    rfl
  unfold Listed
  rw [within_of_block hblock]
  exact and_iff_right fun hnone => hlines (List.map_eq_nil_iff.mpr hnone)

/-- **A command for the overview of a range**, with what the client does with the answers it can get. -/
theorem Browsing.overview_answered (h : Browsing limits config group c) (decoders : Decoders) (fmt : OverviewFmt)
    {cmd : Command} (hvalid : cmd.IsValidated) {range : Range}
    (hanswer : answerTo c.connection.stream.session cmd =
      (counted c.connection.stream.session, overviewReply group range, .continue))
    (style : OverviewStyle) {f : StatusLine → ClientM Loop (List (Except Str OverviewRecord))}
    (hfollows : ∀ line, line.code = 224 →
      f line = (Client.setOverviewStyle style >>= fun _ => Client.readOverview decoders fmt))
    (hempty : ∀ line, line.code = 423 → ∃ e, f line = throw e) :
    Fallible.Decides (Client.command cmd >>= f) c (Listed limits config group range) fun results after =>
      results = (articlesIn group range).map (fun entry => .ok (recordOf decoders fmt group entry)) ∧
        Browsing limits config group after ∧ after.overviewStyle = style := by
  by_cases hlines : overviewLines group range = []
  · have hcode : (overviewReply group range).code = 423 := by
      unfold overviewReply
      rw [if_pos hlines]
      rfl
    have hfails : ¬ Listed limits config group range := fun hlisted => hlisted.1 (List.map_eq_nil_iff.mp hlines)
    refine ((h.command hvalid hanswer).bind (fun line mid _ hmid => ?_)).congr
      (iff_of_false And.right hfails)
    obtain ⟨connection, rfl, hx⟩ := hmid
    obtain ⟨e, hthrow⟩ := hempty line (hx.code.trans hcode)
    exact .of_error (by rw [hthrow]; rfl) id
  · have hreply : overviewReply group range = Session.overFollows (overviewLines group range) := if_neg hlines
    have hblock : (overviewReply group range).block = some (overviewLines group range) := by
      rw [hreply]
      rfl
    have hcode : (overviewReply group range).code = 224 := by
      rw [hreply]
      rfl
    refine ((h.command hvalid hanswer).bind ?_).congr (listed_iff range hlines).symm
    rintro line mid - ⟨connection, rfl, hx⟩
    have howing := h.owing hx hanswer hblock (plain_overviewLines h.unbroken range)
    have hstyled : Owing limits config group (overviewLines group range)
        { heardOf c connection cmd line with overviewStyle := style } := howing.of_connection rfl
    have hset : (Client.setOverviewStyle style).exec (heardOf c connection cmd line) =
        (.ok (), { heardOf c connection cmd line with overviewStyle := style }) := rfl
    rw [hfollows line (hx.code.trans hcode)]
    refine .of_exec (Fallible.exec_bind_ok hset) (hstyled.readBlock.bind_ok ?_)
    rintro block after - ⟨rfl, hafter, hstyle, -⟩
    exact ⟨_, after, rfl, parse_overviewLines decoders fmt group range, hafter, hstyle⟩

/-- `XOVER` for a range. -/
theorem Browsing.overviewXover (h : Browsing limits config group c) (decoders : Decoders) (fmt : OverviewFmt)
    (low high : UInt64) :
    Fallible.Decides (Client.overviewXover decoders (.between low high) fmt) c
      (Listed limits config group (.between low high)) fun results after =>
        results = (articlesIn group (.between low high)).map (fun entry => .ok (recordOf decoders fmt group entry)) ∧
          Browsing limits config group after ∧ after.overviewStyle = .xover := by
  have hvalid : (Command.xover (.between low high)).IsValidated := trivial
  refine h.overview_answered decoders fmt hvalid (answerTo_xover h.selected h.admitted low high) .xover ?_ ?_
  · intro line hcode
    exact if_pos hcode
  · intro line hcode
    refine ⟨.fromStatus "XOVER" line, ?_⟩
    rw [if_neg (by rw [hcode]; decide), if_neg (by rw [hcode]; decide)]

/-- **The overview of a range** is handed over where the client has a command for it and the server an article in the
range. -/
theorem Browsing.overviewStreaming (h : Browsing limits config group c) (decoders : Decoders) (fmt : OverviewFmt)
    (low high : UInt64) :
    Fallible.Decides (Client.overviewStreaming decoders (.between low high) fmt) c
      (Asks limits config c ∧ Listed limits config group (.between low high)) fun results after =>
        results = (articlesIn group (.between low high)).map (fun entry => .ok (recordOf decoders fmt group entry)) ∧
          Browsing limits config group after ∧ Asks limits config after := by
  have hvalid : (Command.over (.range (.between low high))).IsValidated := trivial
  have hanswer := answerTo_over h.selected h.admitted low high
  rw [h.level.settings] at hanswer
  -- `OVER` is asked where nothing better is known, and `XOVER` behind it where the server does not know `OVER`
  have hover (hnot : c.resolveOverviewStyle ≠ .xover) (hknown : c.resolveOverviewStyle ≠ .unavailable) :
      Fallible.Decides (Client.command (.over (.range (.between low high))) >>= fun line =>
        if line.code = 224 then do
          Client.setOverviewStyle .over
          Client.readOverview decoders fmt
        else if Client.verbUnsupported line.code then do
          Client.setOverviewStyle .xover
          Client.overviewXover decoders (.between low high) fmt
        else throw (ClientError.fromStatus "OVER" line)) c
        (Asks limits config c ∧ Listed limits config group (.between low high)) fun results after =>
          results = (articlesIn group (.between low high)).map (fun entry => .ok (recordOf decoders fmt group entry)) ∧
            Browsing limits config group after ∧ Asks limits config after := by
    cases hrefuses : refusesOver config with
    | false =>
        rw [hrefuses, if_neg Bool.false_ne_true] at hanswer
        have hasks : Asks limits config c := ⟨hknown, fun _ hrefused => by rw [hrefuses] at hrefused; cases hrefused⟩
        refine ((h.overview_answered decoders fmt hvalid hanswer .over ?_ ?_).congr (and_iff_right hasks).symm).mono ?_
        · exact fun line hcode => if_pos hcode
        · intro line hcode
          refine ⟨.fromStatus "OVER" line, ?_⟩
          rw [if_neg (by rw [hcode]; decide), if_neg (by rw [hcode]; decide)]
        · exact fun results after hafter => ⟨hafter.1, hafter.2.1, asks_of_over hafter.2.2 hrefuses⟩
    | true =>
        rw [hrefuses, if_pos rfl] at hanswer
        have hnone : Session.notRecognised.block = none := rfl
        have hasks : (statusHead config Session.notRecognised).length ≤ limits.maxLineLen ↔ Asks limits config c := by
          rw [← within_of_status hnone]
          exact ⟨fun hwithin => ⟨hknown, fun _ _ => hwithin⟩, fun hasks => hasks.refusal hnot hrefuses⟩
        refine ((h.command hvalid hanswer).bind ?_).congr (and_congr_left' hasks)
        rintro line mid hstatus ⟨connection, rfl, hx⟩
        have hcode : line.code = 500 := hx.code
        have hnext : Browsing limits config group
            { heardOf c connection (.over (.range (.between low high))) line with overviewStyle := .xover } :=
          (h.behind hx hanswer hstatus hnone).of_connection rfl
        have hset : (Client.setOverviewStyle .xover).exec
            (heardOf c connection (.over (.range (.between low high))) line) =
            (.ok (), { heardOf c connection (.over (.range (.between low high))) line with overviewStyle := .xover }) :=
          rfl
        rw [if_neg (by rw [hcode]; decide), if_pos (by rw [hcode]; decide)]
        refine .of_exec (Fallible.exec_bind_ok hset) ((hnext.overviewXover decoders fmt low high).mono ?_)
        exact fun results after hafter => ⟨hafter.1, hafter.2.1, asks_of_xover hafter.2.2⟩
  refine .of_exec (Fallible.exec_bind_ok (Fallible.exec_get c)) ?_
  cases hstyle : c.resolveOverviewStyle with
  | unknown => exact hover (by rw [hstyle]; decide) (by rw [hstyle]; decide)
  | «over» => exact hover (by rw [hstyle]; decide) (by rw [hstyle]; decide)
  | xover =>
      have hasks : Asks limits config c := ⟨by rw [hstyle]; decide, fun hnot => absurd hstyle hnot⟩
      refine ((h.overviewXover decoders fmt low high).congr (and_iff_right hasks).symm).mono ?_
      exact fun results after hafter => ⟨hafter.1, hafter.2.1, asks_of_xover hafter.2.2⟩
  | unavailable => exact .of_error rfl fun hboth => hboth.1.known hstyle

end Client

end Nntp
