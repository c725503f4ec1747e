import Nntp.Client.Operation
import Nntp.Framing
import Nntp.TestServer.Answers
import Nntp.TestServer.Loop

/-!
# One command and its answer

A command of the client at the loop around a session: which command the session takes it for, what the loop writes
and where that leaves it, and what the client has taken when it has read the status line, and the block.
-/

namespace Nntp

open Nntp.Lib Nntp.Proto Nntp.Client Nntp.TestServer

/-! ## What a line is taken for -/

/-- The first word of a command. -/
def verbOf : Command → Verb
  | .capabilities _ => .capabilities
  | .modeReader => .mode
  | .quit => .quit
  | .startTls => .starttls
  | .authInfoUser _ => .authinfo
  | .authInfoPass _ => .authinfo
  | .group _ => .group
  | .listGroup _ _ => .listgroup
  | .last => .last
  | .next => .next
  | .article _ => .article
  | .head _ => .head
  | .body _ => .body
  | .stat _ => .stat
  | .date => .date
  | .help => .help
  | .newGroups _ => .newgroups
  | .list _ => .list
  | .over _ => .over
  | .xover _ => .xover
  | .hdr _ _ => .hdr
  | .post => .post
  | .xhdr _ _ => .xhdr

theorem line_verbOf (cmd : Command) :
    ∃ rest, cmd.line = (verbOf cmd).name.toList ++ rest ∧ ∀ c ∈ rest.head?, c = ' ' := by
  have hoptional : ∀ (verb : String) (arg : Option Str), ∃ rest,
      Command.withOptionalArg verb arg = verb.toList ++ rest ∧ ∀ c ∈ rest.head?, c = ' ' := by
    intro verb arg
    refine ⟨_, rfl, ?_⟩
    cases arg <;> simp
  have hspelled : ∀ {front word more : Str} (arg : Str), front = word ++ ' ' :: more → ∃ rest,
      front ++ arg = word ++ rest ∧ ∀ c ∈ rest.head?, c = ' ' := by
    rintro front word more arg rfl
    exact ⟨' ' :: more ++ arg, by simp, by simp⟩
  have hfield : ∀ (verb : String) (field : HeaderName) (target : RangeOrId), ∃ rest,
      Command.fieldCommand verb field target = verb.toList ++ rest ∧ ∀ c ∈ rest.head?, c = ' ' := by
    intro verb field target
    exact ⟨_, List.append_assoc .., by simp⟩
  cases cmd with
  | listGroup group range =>
      cases group with
      | none => exact ⟨[], by rw [List.append_nil]; rfl, by simp⟩
      | some group => exact hoptional "LISTGROUP" _
  | capabilities keyword => exact hoptional "CAPABILITIES" keyword
  | article spec => exact hoptional "ARTICLE" _
  | head spec => exact hoptional "HEAD" _
  | body spec => exact hoptional "BODY" _
  | stat spec => exact hoptional "STAT" _
  | list keyword => exact hoptional "LIST" _
  | «over» target => exact hoptional "OVER" _
  | xover range => exact hoptional "XOVER" _
  | hdr field target => exact hfield "HDR" field target
  | xhdr field target => exact hfield "XHDR" field target
  | modeReader => exact ⟨" READER".toList, by decide, by simp⟩
  | authInfoUser user =>
      exact hspelled user (by decide : "AUTHINFO USER ".toList = "AUTHINFO".toList ++ ' ' :: "USER ".toList)
  | authInfoPass pass =>
      exact hspelled pass (by decide : "AUTHINFO PASS ".toList = "AUTHINFO".toList ++ ' ' :: "PASS ".toList)
  | group name => exact hspelled name.asStr (by decide : "GROUP ".toList = "GROUP".toList ++ [' '])
  | newGroups since =>
      have hline : (Command.newGroups since).line = "NEWGROUPS ".toList ++ (since.display ++ " GMT".toList) :=
        List.append_assoc ..
      rw [hline]
      exact hspelled _ (by decide : "NEWGROUPS ".toList = "NEWGROUPS".toList ++ [' '])
  | _ => exact ⟨[], by rw [List.append_nil]; rfl, by simp⟩

theorem isAsciiGraphic_verb (verb : Verb) :
    verb.name.toList ≠ [] ∧ ∀ c ∈ verb.name.toList, isAsciiGraphic c = true := by
  cases verb <;> exact ⟨by decide, forall_of_all (by decide)⟩

theorem parse_name (verb : Verb) : Verb.parse (verb.name.toList.map toAsciiUpper) = some verb := by
  cases verb <;> decide

/-- The words of a text: the first, where a blank or the end follows it. -/
theorem splitAsciiWhitespace_word {word rest : Str} (hne : word ≠ []) (hword : ∀ c ∈ word, isAsciiGraphic c = true)
    (hrest : ∀ c ∈ rest.head?, c = ' ') :
    StatusLine.splitAsciiWhitespace (word ++ rest) = word :: StatusLine.splitAsciiWhitespace rest := by
  have hnone : ∀ c ∈ word, (c == ' ' || c == '\t' || c == '\n' || c == '\r' || c.toNat == 0x0C) = false := by
    intro c hc
    have hgraphic := hword c hc
    simp only [Bool.or_eq_false_iff, beq_eq_false_iff_ne]
    refine ⟨⟨⟨⟨?_, ?_⟩, ?_⟩, ?_⟩, ?_⟩
    · rintro rfl
      cases hgraphic
    · rintro rfl
      cases hgraphic
    · rintro rfl
      cases hgraphic
    · rintro rfl
      cases hgraphic
    · intro hfeed
      unfold isAsciiGraphic at hgraphic
      rw [hfeed] at hgraphic
      cases hgraphic
  refine words_word hne hnone fun c hc => ?_
  rw [hrest c hc]
  rfl

theorem isAsciiGraphic_display (n : Nat) : ∀ c ∈ display n, isAsciiGraphic c = true :=
  fun c hc => isAsciiGraphic_of_isAsciiDigit ((display_spec n).2.1 c hc)

theorem splitAsciiWhitespace_blank (text : Str) :
    StatusLine.splitAsciiWhitespace (' ' :: text) = StatusLine.splitAsciiWhitespace text := by
  refine @words_separators _ _ [' '] (fun c hc => ?_) text
  rw [List.mem_singleton.mp hc]
  rfl

/-- The words of a text have nothing that the text has not. -/
theorem mem_splitAsciiWhitespace {text word : Str} (h : word ∈ StatusLine.splitAsciiWhitespace text) :
    word ⊆ text := by
  intro c hc
  exact (splitAll_subset (List.mem_filter.mp h).1 c hc).1

/-! ## What the session answers -/

/-- A configuration that neither breaks answers off nor has a text of two lines. -/
structure Steady (config : ServerConfig) : Prop where
  closing : config.quirks.closeAfterCommands = none
  truncating : config.quirks.truncateNextBlock = false
  refusePost : ∀ text ∈ config.quirks.refusePost, '\n' ∉ text
  serverName : '\n' ∉ config.serverName
  greeting : ∀ code text, config.greeting = .refuse code text → '\n' ∉ text

/-- A session that goes on answering whole. -/
structure Served (session : Session) : Prop where
  corpus : session.corpus.Unbroken
  steady : Steady session.config
  whole : session.state.truncateNextBlock = false
  stays : session.state.closeRequested = false

theorem Served.of_kept {session after : Session} (h : Served session) (hkept : session.Kept after) : Served after where
  corpus := by
    rw [hkept.corpus]
    exact h.corpus
  steady := by
    rw [hkept.config]
    exact h.steady
  whole := hkept.truncateNextBlock.trans h.whole
  stays := hkept.closeRequested.trans h.stays

/-- How the loop goes on behind an answer: with an article if it asked for one, and with no block if it ends. -/
structure GoesOn (verb : Verb) (reply : Reply) (flow : Flow) : Prop where
  article : flow.phase = .article ↔ verb = .post ∧ reply.code = 340
  ended : flow.phase = .ended → reply.block = none

namespace GoesOn

variable {verb : Verb} {reply : Reply}

theorem waits (h : ¬ (verb = .post ∧ reply.code = 340)) : GoesOn verb reply .continue where
  article := iff_of_false (fun hphase => by cases hphase) h
  ended := fun hphase => by cases hphase

theorem other (h : verb ≠ .post) : GoesOn verb reply .continue := waits fun hpost => h hpost.1

end GoesOn

section Answers

variable {session : Session}

theorem goesOn_perform (verb : Verb) (args : List Str) :
    GoesOn verb (session.perform verb args).2.1 (session.perform verb args).2.2 := by
  cases verb with
  | quit => exact ⟨iff_of_false (fun hphase => by cases hphase) fun hpost => absurd hpost.1 (by decide), fun _ => rfl⟩
  | starttls =>
      show GoesOn .starttls session.starttls.1 session.starttls.2
      unfold Session.starttls
      split_ifs
      · exact .other (by decide)
      · exact .other (by decide)
      · exact .other (by decide)
      · exact ⟨iff_of_false (fun hphase => by cases hphase) fun hpost => absurd hpost.1 (by decide), fun _ => rfl⟩
  | post =>
      show GoesOn .post session.post.1 session.post.2
      unfold Session.post
      split
      · exact .waits (by decide)
      · exact ⟨iff_of_true rfl ⟨rfl, rfl⟩, fun hphase => by cases hphase⟩
  | _ => exact .other (by decide)

/-- What is answered to a text whose first word is a verb. -/
theorem answer_words {text : Str} {verb : Verb} {args : List Str}
    (hwords : StatusLine.splitAsciiWhitespace text = verb.name.toList :: args) :
    session.answer text =
      if session.needsAuth && !verb.servedUnauthenticated then
        (session, .plain 480 "authentication required", .continue)
      else session.perform verb args := by
  have hparse : Verb.parse (((verb.name.toList :: args).headD []).map toAsciiUpper) = some verb := parse_name verb
  have hupper : ((verb.name.toList :: args).headD []).map toAsciiUpper ≠ [] := by
    intro hnil
    rw [hnil] at hparse
    cases hparse
  unfold Session.answer
  rw [hwords, if_neg hupper, hparse]
  rfl

/-- **A command is taken for what it is**, and answered as it should be. -/
theorem answer_command (h : session.corpus.Unbroken) {cmd : Command} (hlf : '\n' ∉ cmd.line) :
    session.Answered (verbOf cmd) (session.answer cmd.line).1 (session.answer cmd.line).2.1 ∧
      GoesOn (verbOf cmd) (session.answer cmd.line).2.1 (session.answer cmd.line).2.2 := by
  obtain ⟨rest, hline, hrest⟩ := line_verbOf cmd
  obtain ⟨hne, hname⟩ := isAsciiGraphic_verb (verbOf cmd)
  have hwords : StatusLine.splitAsciiWhitespace cmd.line =
      (verbOf cmd).name.toList :: StatusLine.splitAsciiWhitespace rest := by
    rw [hline]
    exact splitAsciiWhitespace_word hne hname hrest
  have hargs : ∀ arg ∈ StatusLine.splitAsciiWhitespace rest, '\n' ∉ arg := by
    intro arg harg hmem
    apply hlf
    rw [hline]
    exact List.mem_append_right _ (mem_splitAsciiWhitespace harg hmem)
  rw [answer_words hwords]
  split_ifs
  · exact ⟨.failure (Reply.failure_plain (by decide)), .waits fun hpost => absurd hpost.2 (show ¬ 480 = 340 by decide)⟩
  · exact ⟨Session.answered_perform h _ hargs, goesOn_perform _ _⟩

/-- A session that has counted one more command. -/
def counted (session : Session) : Session :=
  { session with state := { session.state with commandsServed := session.state.commandsServed + 1 } }

/-- What a session makes of a command: itself behind it, the answer, and how the loop goes on. -/
def answerTo (session : Session) (cmd : Command) : Session × Reply × Flow := (counted session).answer cmd.line

theorem dispatch_command (h : Served session) {cmd : Command} (hlf : '\n' ∉ cmd.line) :
    session.dispatch (asBytes cmd.line) =
        ((answerTo session cmd).1, some (answerTo session cmd).2.1, (answerTo session cmd).2.2) ∧
      session.Answered (verbOf cmd) (answerTo session cmd).1 (answerTo session cmd).2.1 ∧
      GoesOn (verbOf cmd) (answerTo session cmd).2.1 (answerTo session cmd).2.2 := by
  obtain ⟨hanswered, hgoes⟩ := @answer_command (counted session) h.corpus cmd hlf
  refine ⟨?_, ?_, hgoes⟩
  · unfold Session.dispatch
    dsimp only
    rw [h.steady.closing, Option.any_none, if_neg Bool.false_ne_true, fromUtf8Lossy_asBytes]
    rfl
  · exact {
      kept := ⟨hanswered.kept.corpus, hanswered.kept.config, hanswered.kept.truncateNextBlock,
        hanswered.kept.closeRequested⟩
      unbroken := hanswered.unbroken
      block := hanswered.block
      selection := hanswered.selection
      unselected := hanswered.unselected }

/-- The octets of a block. -/
def owed (config : ServerConfig) : Option (List Bytes) → Bytes
  | none => []
  | some lines =>
      Connection.rawLines (lines.map (wireLine config)) ++ (0x2E :: config.carriageReturn) ++ [0x0A]

theorem write_reply (h : Served session) (reply : Reply) :
    session.write reply =
      (session, statusLine session.config reply.code reply.text ++ owed session.config reply.block) := by
  unfold Session.write
  cases reply.block with
  | none => simp [owed]
  | some lines =>
      have hstate : (block session.config session.state lines).1 = session.state := by
        unfold block
        rw [h.whole]
        rfl
      dsimp only
      rw [hstate, block_eq session.config h.whole]
      rfl

end Answers

/-! ## What the loop does with a command -/

/-- A loop that has taken everything and waits for a command. -/
structure Idle (loop : Loop) : Prop where
  served : Served loop.session
  phase : loop.phase = .command
  input : loop.input = []

/-- The octets of an answer. -/
def Reply.octets (config : ServerConfig) (reply : Reply) : Bytes :=
  statusLine config reply.code reply.text ++ owed config reply.block

theorem wire_command {cmd : Command} {sent : Bytes} (h : cmd.toWire = .ok sent) :
    '\n' ∉ cmd.line ∧ sent = asBytes cmd.line ++ [0x0D] ++ [0x0A] := by
  unfold Command.toWire Command.finish at h
  split_ifs at h with hcontrol hlong
  refine ⟨fun hmem => hcontrol ?_, ?_⟩
  · exact List.any_eq_true.mpr ⟨0x0A, (mem_asBytes_ascii (c := '\n') rfl (by decide)).mpr hmem, rfl⟩
  · rw [← Except.ok.inj h, List.append_assoc]
    rfl

/-- Nothing is left to do for a loop whose input is taken. -/
theorem turn_taken {loop : Loop} (h : loop.input = []) : loop.turn = none := by
  unfold Loop.turn
  rw [h]
  cases loop.phase <;> rfl

/-- What takes one turn is taken. -/
theorem receive_turn {loop after : Loop} {sent octets : Bytes}
    (h : Loop.turn { loop with input := loop.input ++ sent } = some (after, octets)) (hinput : after.input = []) :
    loop.receive sent = (after, octets) := by
  have hdone : ∀ fuel : Nat, Loop.run fuel after = (after, []) := by
    intro fuel
    cases fuel with
    | zero => rfl
    | succ fuel =>
        unfold Loop.run
        rw [turn_taken hinput]
  unfold Loop.receive Loop.run
  rw [h]
  dsimp only
  rw [hdone, List.append_nil]

theorem handle_served {session after : Session} {line : Bytes} {reply : Reply} {flow : Flow}
    (hdispatch : session.dispatch line = (after, some reply, flow)) (h : Served after) :
    session.handle line = (after, flow, Reply.octets after.config reply) := by
  unfold Session.handle
  rw [hdispatch]
  simp only [Option.map_some, Option.getD_some, write_reply h, h.stays, Bool.false_eq_true, if_false]
  rfl

/-- A loop behind a command. -/
def Loop.behind (loop : Loop) (cmd : Command) : Loop where
  session := (answerTo loop.session cmd).1
  phase := (answerTo loop.session cmd).2.2.phase
  replied := loop.replied ++ [(answerTo loop.session cmd).2.1]

/-- **A command gets one answer.** -/
theorem receive_command {loop : Loop} (h : Idle loop) {cmd : Command} {sent : Bytes} (hwire : cmd.toWire = .ok sent) :
    loop.receive sent =
        (Loop.behind loop cmd, Reply.octets loop.session.config (answerTo loop.session cmd).2.1) ∧
      loop.session.Answered (verbOf cmd) (answerTo loop.session cmd).1 (answerTo loop.session cmd).2.1 ∧
      GoesOn (verbOf cmd) (answerTo loop.session cmd).2.1 (answerTo loop.session cmd).2.2 := by
  obtain ⟨hlf, rfl⟩ := wire_command hwire
  obtain ⟨hdispatch, hanswered, hgoes⟩ := dispatch_command h.served hlf
  refine ⟨receive_turn ?_ rfl, hanswered, hgoes⟩
  have hline : (0x0A : UInt8) ∉ asBytes cmd.line ++ [0x0D] := by
    rw [List.mem_append, mem_asBytes_ascii (c := '\n') rfl (by decide)]
    rintro (hmem | hmem)
    · exact hlf hmem
    · cases List.mem_singleton.mp hmem
  have hcut : cutAt 0x0A (loop.input ++ (asBytes cmd.line ++ [0x0D] ++ [0x0A])) =
      some (asBytes cmd.line ++ [0x0D], []) := by
    rw [h.input]
    exact cutAt_append hline []
  unfold Loop.turn
  dsimp only
  rw [h.phase]
  dsimp only
  rw [hcut, Option.map_some, Loop.command, trimEol_crlf]
  dsimp only
  rw [handle_served hdispatch (h.served.of_kept hanswered.kept), hdispatch, hanswered.kept.config]
  rfl

/-! ## What the loop does with an article -/

/-- A loop that waits for the article behind a `POST`. -/
structure Expecting (loop : Loop) : Prop where
  served : Served loop.session
  phase : loop.phase = .article
  input : loop.input = []

theorem takeArticle_wireBlock {lines : List Bytes} (h : ∀ line ∈ lines, NoLf line) {fuel : Nat}
    (hfuel : lines.length < fuel) : takeArticle fuel (Connection.wireBlock lines) = some (lines, []) := by
  unfold Connection.wireBlock
  induction lines generalizing fuel with
  | nil =>
      obtain ⟨fuel, rfl⟩ := Nat.exists_eq_succ_of_ne_zero (Nat.ne_of_gt hfuel)
      rfl
  | cons line lines ih =>
      obtain ⟨fuel, rfl⟩ := Nat.exists_eq_succ_of_ne_zero (Nat.ne_of_gt (Nat.zero_lt_of_lt hfuel))
      obtain ⟨hline, hlines⟩ := List.forall_mem_cons.mp h
      have hwire : ((line :: lines).flatMap fun line => stuff line ++ [0x0D, 0x0A]) ++ [0x2E, 0x0D, 0x0A] =
          (stuff line ++ [0x0D]) ++ 0x0A ::
            ((lines.flatMap fun line => stuff line ++ [0x0D, 0x0A]) ++ [0x2E, 0x0D, 0x0A]) := by
        simp
      rw [hwire, takeArticle, cutAt_append (not_mem_stuff_cr hline)]
      simp only [Option.bind_eq_bind, Option.bind_some, trimEol_crlf, if_neg (stuff_ne_dot line),
        ih hlines (Nat.lt_of_succ_lt_succ hfuel), stripPrefix_stuff]
      rfl

/-- An ASCII character that is in no line of an article is in none of its header values. -/
theorem not_mem_header {c : Char} (hascii : c.toNat < 0x80) (hzero : c.toNat ≠ 0) {lines : List Bytes}
    (h : ∀ line ∈ lines, UInt8.ofNat c.toNat ∉ line) {name : String} {value : Str}
    (hvalue : PostedArticle.header { lines } name = some value) : c ∉ value := by
  intro hmem
  unfold PostedArticle.header at hvalue
  obtain ⟨line, hline, rfl⟩ := Option.map_eq_some_iff.mp hvalue
  have hhead := (List.takeWhile_prefix _).subset (List.mem_of_find?_eq_some hline)
  rcases hsplit : splitOnce (· == ':') (fromUtf8Lossy line) with _ | ⟨field, text⟩
  · rw [hsplit] at hmem
    cases hmem
  · rw [hsplit] at hmem
    obtain ⟨colon, -, hparts, -⟩ := splitOnce_eq_some hsplit
    have hwhole : c ∈ fromUtf8Lossy line := by
      rw [hparts]
      exact List.mem_append_right _ (List.mem_cons_of_mem _ (mem_of_mem_trim hmem))
    exact h line hhead (mem_of_mem_fromUtf8Lossy hascii hzero hwhole)

/-- A line break that is in no line of an article is not in the id it is given. -/
theorem not_mem_assignedId {c : Char} (hc : c = '\n' ∨ c = '\r') (session : Session) {lines : List Bytes}
    (h : ∀ line ∈ lines, UInt8.ofNat c.toNat ∉ line) : c ∉ session.assignedId { lines } := by
  unfold Session.assignedId
  cases hid : PostedArticle.header { lines } "Message-ID" with
  | some id => rcases hc with rfl | rfl <;> exact not_mem_header (by decide) (by decide) h hid
  | none =>
      intro hmem
      have hdisplay : ∀ n, c ∉ display n := by
        intro n hdigit
        have := (display_spec n).2.1 c hdigit
        rcases hc with rfl | rfl <;> cases this
      have hplain : c ≠ '<' ∧ c ≠ '.' ∧ c ∉ "@test.invalid>".toList := by
        rcases hc with rfl | rfl <;> decide
      rcases List.mem_append.mp (show c ∈ _ ++ "@test.invalid>".toList from hmem) with hmem | hmem
      · rcases List.mem_append.mp hmem with hmem | hmem
        · rcases List.mem_cons.mp hmem with hmem | hmem
          · exact hplain.1 hmem
          · exact hdisplay _ hmem
        · rcases List.mem_cons.mp hmem with hmem | hmem
          · exact hplain.2.1 hmem
          · exact hdisplay _ hmem
      · exact hplain.2.2 hmem

/-- What becomes of an article: it is filed or refused, in one line. -/
structure Accepts (session after : Session) (reply : Reply) : Prop where
  served : Served after
  config : after.config = session.config
  state : after.state = session.state
  unbroken : reply.Unbroken
  block : reply.block = none

theorem accepts_article {session : Session} (h : Served session) {lines : List Bytes}
    (hlines : ∀ line ∈ lines, NoLf line) :
    Accepts session (session.acceptArticle lines).1 (session.acceptArticle lines).2 := by
  have hid := not_mem_assignedId (Or.inl rfl) session hlines
  have hstored : Article.Unbroken
      { messageId := session.assignedId { lines }
        head := PostedArticle.head { lines }
        body := PostedArticle.body { lines } } := by
    refine ⟨hid, fun line hline => ?_, fun line hline => ?_⟩
    · exact hlines line ((List.takeWhile_prefix _).subset hline)
    · exact hlines line ((List.dropWhile_suffix _).subset (List.mem_of_mem_drop hline))
  have hcorpus := @Corpus.Unbroken.inject _ _ hstored (PostedArticle.newsgroups { lines }) h.corpus
  unfold Session.acceptArticle
  dsimp only
  split
  · next reason hreason =>
      exact ⟨h, rfl, rfl, .status (h.steady.refusePost reason hreason) (by decide) (by decide), rfl⟩
  · split
    · next required hmissing =>
        have hrequired := List.mem_of_find?_eq_some hmissing
        refine ⟨h, rfl, rfl, .status ?_ (by decide) (by decide), rfl⟩
        simp only [List.mem_cons, List.not_mem_nil, or_false] at hrequired
        rcases hrequired with rfl | rfl | rfl <;> decide
    · split
      · exact ⟨⟨hcorpus, h.steady, h.whole, h.stays⟩, rfl, rfl, .status (by decide) (by decide) (by decide), rfl⟩
      · refine ⟨⟨hcorpus, h.steady, h.whole, h.stays⟩, rfl, rfl, .status ?_ (by decide) (by decide), rfl⟩
        simp [hid]

theorem length_wireBlock (lines : List Bytes) : lines.length < (Connection.wireBlock lines).length := by
  unfold Connection.wireBlock
  induction lines with
  | nil => decide
  | cons line lines ih =>
      rw [List.flatMap_cons, List.append_assoc, List.length_append, List.length_append]
      simp only [List.length_cons, List.length_nil]
      omega

/-- What the loop makes of an article that it waits for. -/
theorem receive_expected {loop : Loop} (h : Expecting loop) {lines : List Bytes}
    (hlines : ∀ line ∈ lines, NoLf line) : loop.receive (Connection.wireBlock lines) =
      ({ session := (loop.session.acceptArticle lines).1, input := [], phase := .command,
         replied := loop.replied ++ [(loop.session.acceptArticle lines).2] },
        Reply.octets loop.session.config (loop.session.acceptArticle lines).2) := by
  have haccepts := accepts_article h.served hlines
  refine receive_turn ?_ rfl
  have hinput : loop.input ++ Connection.wireBlock lines = Connection.wireBlock lines := by
    rw [h.input, List.nil_append]
  have hfuel : lines.length < (Connection.wireBlock lines).length + 1 := Nat.lt_succ_of_lt (length_wireBlock lines)
  rw [hinput]
  unfold Loop.turn
  dsimp only
  rw [h.phase]
  dsimp only
  rw [takeArticle_wireBlock hlines hfuel, Option.map_some, Loop.article]
  dsimp only
  rw [write_reply haccepts.served, haccepts.config]
  rfl

/-- **An article gets one answer.** -/
theorem receive_article {loop : Loop} (h : Expecting loop) {lines : List Bytes}
    (hlines : ∀ line ∈ lines, NoLf line) : ∃ after reply, loop.receive (Connection.wireBlock lines) =
        ({ session := after, input := [], phase := .command, replied := loop.replied ++ [reply] },
          Reply.octets loop.session.config reply) ∧ Accepts loop.session after reply :=
  ⟨_, _, receive_expected h hlines, accepts_article h.served hlines⟩

/-! ## What the client reads -/

theorem display_three {code : Nat} (hlow : 100 ≤ code) (hhigh : code < 1000) :
    display code = [Nat.digitChar (code / 100), Nat.digitChar (code / 10 % 10), Nat.digitChar (code % 10)] := by
  have hten : (10 : Nat) ≤ code := by omega
  have hhundred : (10 : Nat) ≤ code / 10 := by omega
  have hdiv : code / 10 / 10 = code / 100 := by omega
  unfold display
  rw [Nat.toDigits_of_base_le (by decide) hten, Nat.toDigits_of_base_le (by decide) hhundred, hdiv,
    Nat.toDigits_of_lt_base (by omega)]
  rfl

/-- The octet of a digit. -/
theorem asBytes_digitChar {d : Nat} (h : d < 10) :
    String.utf8EncodeChar (Nat.digitChar d) = [UInt8.ofNat (0x30 + d)] := by
  have hd : d = 0 ∨ d = 1 ∨ d = 2 ∨ d = 3 ∨ d = 4 ∨ d = 5 ∨ d = 6 ∨ d = 7 ∨ d = 8 ∨ d = 9 := by omega
  rcases hd with rfl | rfl | rfl | rfl | rfl | rfl | rfl | rfl | rfl | rfl <;> decide

theorem isDigitByte_ofNat {d : Nat} (h : d < 10) :
    isDigitByte (UInt8.ofNat (0x30 + d)) = true ∧ (UInt8.ofNat (0x30 + d)).toNat - 0x30 = d := by
  have hd : d = 0 ∨ d = 1 ∨ d = 2 ∨ d = 3 ∨ d = 4 ∨ d = 5 ∨ d = 6 ∨ d = 7 ∨ d = 8 ∨ d = 9 := by omega
  rcases hd with rfl | rfl | rfl | rfl | rfl | rfl | rfl | rfl | rfl | rfl <;> decide

/-- A code of three digits. -/
theorem asBytes_code {code : Nat} (hlow : 100 ≤ code) (hhigh : code < 1000) :
    ∃ a b c : UInt8, asBytes (display code) = [a, b, c] ∧ [a, b, c].all isDigitByte = true ∧
      codeValue [a, b, c] = code := by
  obtain ⟨ha, hva⟩ := @isDigitByte_ofNat (code / 100) (by omega)
  obtain ⟨hb, hvb⟩ := @isDigitByte_ofNat (code / 10 % 10) (by omega)
  obtain ⟨hc, hvc⟩ := @isDigitByte_ofNat (code % 10) (by omega)
  refine ⟨UInt8.ofNat (0x30 + code / 100), UInt8.ofNat (0x30 + code / 10 % 10), UInt8.ofNat (0x30 + code % 10),
    ?_, ?_, ?_⟩
  · rw [display_three hlow hhigh]
    simp only [asBytes, List.flatMap_cons, List.flatMap_nil, asBytes_digitChar (show code / 100 < 10 by omega),
      asBytes_digitChar (show code / 10 % 10 < 10 by omega), asBytes_digitChar (show code % 10 < 10 by omega)]
    rfl
  · simp only [List.all_cons, List.all_nil, ha, hb, hc, Bool.and_self]
  · simp only [codeValue, List.foldl_cons, List.foldl_nil, hva, hvb, hvc]
    omega

/-- A carriage return is taken off behind what is none. -/
theorem popCr_behind (front : Bytes) {b : UInt8} (hb : b ≠ 0x0D) (tail : Bytes) :
    Connection.popCr (front ++ b :: tail) = front ++ b :: Connection.popCr tail := by
  unfold Connection.popCr
  cases tail with
  | nil => simp [hb]
  | cons d tail =>
      rw [List.getLast?_append_of_ne_nil _ (List.cons_ne_nil _ _), List.getLast?_cons_cons]
      split
      · rw [List.dropLast_append_of_ne_nil (List.cons_ne_nil _ _), List.dropLast_cons_of_ne_nil (List.cons_ne_nil _ _)]
      · rfl

theorem stripSuffix_getD (b : UInt8) (line : Bytes) :
    (stripSuffix [b] line).getD line = if line.getLast? = some b then line.dropLast else line := by
  rcases List.eq_nil_or_concat line with rfl | ⟨front, last, rfl⟩
  · rfl
  · by_cases hlast : b = last
    · simp [stripSuffix, stripPrefix, hlast]
    · simp [stripSuffix, stripPrefix, hlast, Ne.symm hlast]

theorem stripEol_eq_popCr {line : Bytes} (h : NoLf line) : stripEol line = Connection.popCr line := by
  unfold stripEol
  rw [stripSuffix_getD 0x0A, if_neg fun hlast => h (List.mem_of_getLast? hlast)]
  exact stripSuffix_getD 0x0D line

/-- The last octet of a text is a carriage return only where its last character is. -/
theorem getLast?_asBytes_cr {text : Str} (h : text.getLast? ≠ some '\r') : (asBytes text).getLast? ≠ some 0x0D := by
  rcases List.eq_nil_or_concat text with rfl | ⟨front, last, rfl⟩
  · intro hlast
    cases hlast
  · have hne : String.utf8EncodeChar last ≠ [] :=
      List.ne_nil_of_length_pos (by rw [String.length_utf8EncodeChar]; exact last.utf8Size_pos)
    intro hlast
    rw [List.concat_eq_append, asBytes_append, List.getLast?_append_of_ne_nil _ (by simpa [asBytes] using hne)] at hlast
    have hmem : (0x0D : UInt8) ∈ String.utf8EncodeChar last := by
      simpa [asBytes] using List.mem_of_getLast? hlast
    have hcode := utf8EncodeChar_ascii hmem (by decide)
    apply h
    rw [List.concat_eq_append, List.getLast?_append_of_ne_nil _ (List.cons_ne_nil _ _)]
    exact congrArg some (Char.toNat_inj.mp hcode)

theorem noLf_popCr {line : Bytes} (h : NoLf line) : NoLf (Connection.popCr line) := by
  unfold Connection.popCr
  split
  · exact h.of_subset fun _ hmem => List.mem_of_mem_dropLast hmem
  · exact h

theorem noLf_carriageReturn (config : ServerConfig) : NoLf config.carriageReturn := by
  rcases carriageReturn_cases config with hcr | hcr <;> rw [hcr] <;> simp

/-- A status line without its LF. -/
def statusHead (config : ServerConfig) (reply : Reply) : Bytes :=
  asBytes (display reply.code ++ ' ' :: reply.text) ++ config.carriageReturn

theorem noLf_statusHead (config : ServerConfig) {reply : Reply} (h : '\n' ∉ reply.text) :
    NoLf (statusHead config reply) := by
  refine noLf_append.mpr ⟨?_, noLf_carriageReturn config⟩
  simp [h]

theorem statusLine_eq (config : ServerConfig) (reply : Reply) :
    statusLine config reply.code reply.text = statusHead config reply ++ [0x0A] := by
  unfold statusLine statusHead
  rw [config.terminator_eq, List.append_assoc]

theorem octets_eq (config : ServerConfig) (reply : Reply) :
    Reply.octets config reply = statusHead config reply ++ 0x0A :: owed config reply.block := by
  unfold Reply.octets
  rw [statusLine_eq, List.append_assoc]
  rfl

/-- What the client reads of a status line. -/
theorem parse_statusHead (config : ServerConfig) {reply : Reply} (h : reply.Unbroken) :
    ∃ line, StatusLine.parse (Connection.popCr (statusHead config reply)) = .ok line ∧ line.code = reply.code ∧
      (reply.text.getLast? ≠ some '\r' → line.text = reply.text) := by
  obtain ⟨a, b, c, hdigits, hall, hvalue⟩ := asBytes_code h.low h.high
  have hraw : statusHead config reply = [a, b, c] ++ 0x20 :: (asBytes reply.text ++ config.carriageReturn) := by
    rw [statusHead, asBytes_append, hdigits, List.append_assoc]
    rfl
  refine ⟨⟨reply.code, fromUtf8Lossy
    (Connection.popCr (Connection.popCr (asBytes reply.text ++ config.carriageReturn)))⟩, ?_, rfl, fun hlast => ?_⟩
  · unfold StatusLine.parse
    rw [stripEol_eq_popCr (noLf_popCr (noLf_statusHead config h.text)), hraw, popCr_behind _ (by decide),
      popCr_behind _ (by decide)]
    have hcode : (([a, b, c] ++ 0x20 ::
        Connection.popCr (Connection.popCr (asBytes reply.text ++ config.carriageReturn))).take 3).all isDigitByte =
        true := hall
    dsimp only
    rw [if_neg (by simp), if_pos hcode]
    show Except.ok (StatusLine.mk (codeValue [a, b, c]) _) = _
    rw [hvalue]
  · have hcr := getLast?_asBytes_cr hlast
    have hkept : Connection.popCr (asBytes reply.text) = asBytes reply.text := if_neg hcr
    have htaken : Connection.popCr (asBytes reply.text ++ config.carriageReturn) = asBytes reply.text := by
      rcases carriageReturn_cases config with hnone | hsome
      · rw [hnone, List.append_nil, hkept]
      · rw [hsome, popCr_append]
    show fromUtf8Lossy _ = _
    rw [htaken, hkept, fromUtf8Lossy_asBytes]

/-- The client's limits, applied to an answer. -/
structure Reply.Within (limits : Limits) (config : ServerConfig) (reply : Reply) : Prop where
  status : (statusHead config reply).length ≤ limits.maxLineLen
  block : ∀ lines ∈ reply.block, ReadsWithin limits config lines

/-- An answer whose status line is within the limits brings it, and then its block. -/
theorem brings_status {limits : Limits} {config : ServerConfig} {reply : Reply} (h : reply.Unbroken)
    (hfits : (statusHead config reply).length ≤ limits.maxLineLen) : ∃ line,
    Connection.BringsStatus limits line ((Reply.octets config reply).map .item)
      ((owed config reply.block).map .item) ∧
    line.code = reply.code ∧ (reply.text.getLast? ≠ some '\r' → line.text = reply.text) := by
  obtain ⟨line, hparse, hcode, htext⟩ := parse_statusHead config h
  refine ⟨line, ⟨statusHead config reply, noLf_statusHead config h.text, hfits, hparse, ?_⟩, hcode, htext⟩
  rw [octets_eq, List.map_append, List.map_cons]

/-- The other end behind a command. -/
theorem command_stream {c : Connection Loop} {cmd : Command} {sent : Bytes} (husable : c.desynchronised = false)
    (hwire : cmd.toWire = .ok sent) :
    ((Connection.command cmd).exec c).2.stream = (c.stream.receive sent).1 := by
  have hsend : (Connection.send cmd).exec c = (.ok (), ((Connection.write sent : Conn Loop Unit).exec c).2) := by
    rw [Connection.send, Fallible.exec_bind_ok (Connection.exec_ensureSynchronised husable), hwire]
    rfl
  rw [Connection.command, Fallible.exec_bind_ok hsend, Connection.onlyReads_readStatus.stream,
    Connection.exec_write]
  rfl

/-- **What a command and its answer come to.** -/
structure Exchanged (c c' : Connection Loop) (cmd : Command) (line : StatusLine) (reply : Reply) (flow : Flow) :
    Prop where
  answer : answerTo c.stream.session cmd = (c'.stream.session, reply, flow)
  answered : c.stream.session.Answered (verbOf cmd) c'.stream.session reply
  goesOn : GoesOn (verbOf cmd) reply flow
  phase : c'.stream.phase = flow.phase
  input : c'.stream.input = []
  replied : c'.stream.replied = c.stream.replied ++ [reply]
  usable : c'.desynchronised = false
  limits : c'.limits = c.limits
  cancel : c'.cancel = c.cancel
  owed : c'.upcoming = (owed c.stream.session.config reply.block).map .item
  code : line.code = reply.code
  text : reply.text.getLast? ≠ some '\r' → line.text = reply.text

section Commands

variable {c : Connection Loop} {cmd : Command} {sent : Bytes}

/-- What the stream brings behind a command. -/
theorem upcoming_command (hidle : Idle c.stream) (hquiet : c.upcoming = []) (hwire : cmd.toWire = .ok sent) :
    c.upcoming ++ events (Connection.feed c.stream [sent]).2 =
      (Reply.octets c.stream.session.config (answerTo c.stream.session cmd).2.1).map .item := by
  have hfeed : (Connection.feed c.stream [sent]).2 = held (c.stream.receive sent).2 [] ++ [] := rfl
  rw [hquiet, hfeed, (receive_command hidle hwire).1, List.append_nil, events_held]
  simp

theorem exec_command (husable : c.desynchronised = false) (hidle : Idle c.stream) (hquiet : c.upcoming = [])
    (hwire : cmd.toWire = .ok sent)
    (hfits : (statusHead c.stream.session.config (answerTo c.stream.session cmd).2.1).length ≤ c.limits.maxLineLen) :
    ∃ line c', (Connection.command cmd).exec c = (.ok line, c') ∧
      Exchanged c c' cmd line (answerTo c.stream.session cmd).2.1 (answerTo c.stream.session cmd).2.2 := by
  obtain ⟨hreceive, hanswered, hgoes⟩ := receive_command hidle hwire
  obtain ⟨line, hbrings, hcode, htext⟩ := brings_status hanswered.unbroken hfits
  rw [← upcoming_command hidle hquiet hwire] at hbrings
  obtain ⟨c', hexec, hreplied, htail⟩ := Connection.exec_command_of_brings husable hwire rfl hbrings
  have hstream : c'.stream = Loop.behind c.stream cmd := by
    rw [hreplied.2]
    show (c.stream.receive sent).1 = _
    rw [hreceive]
  have hsession : c'.stream.session = (answerTo c.stream.session cmd).1 := congrArg Loop.session hstream
  refine ⟨line, c', hexec, ?_⟩
  exact {
    answer := by rw [hsession]
    answered := by
      rw [hsession]
      exact hanswered
    goesOn := hgoes
    phase := congrArg Loop.phase hstream
    input := congrArg Loop.input hstream
    replied := congrArg Loop.replied hstream
    usable := by
      rw [hreplied.2]
      exact husable
    limits := by rw [hreplied.2]
    cancel := by rw [hreplied.2]
    owed := htail
    code := hcode
    text := htext }

/-- A command whose status line is not too long. -/
theorem fits_of_command (husable : c.desynchronised = false) (hidle : Idle c.stream) (hquiet : c.upcoming = [])
    {line : StatusLine} {c' : Connection Loop} (h : (Connection.command cmd).exec c = (.ok line, c')) :
    (statusHead c.stream.session.config (answerTo c.stream.session cmd).2.1).length ≤ c.limits.maxLineLen := by
  obtain ⟨sent, hwire, -, -, head, hnot, hlength, -, hup⟩ := Connection.command_ok husable h
  have hunbroken := (receive_command hidle hwire).2.1.unbroken
  rw [upcoming_command hidle hquiet hwire, octets_eq, List.map_append, List.map_cons] at hup
  rw [(items_cut (noLf_statusHead _ hunbroken.text) hnot hup).1]
  exact hlength

end Commands

/-- A command that cannot be encoded changes nothing. -/
theorem exec_command_illegal {c : Connection Loop} (husable : c.desynchronised = false) {cmd : Command}
    {error : ProtoError} (hwire : cmd.toWire = .error error) :
    (Connection.command cmd).exec c = (.error (.proto error), c) := by
  have hsend : (Connection.send cmd).exec c = (.error (.proto error), c) := by
    rw [Connection.send, Fallible.exec_bind_ok (Connection.exec_ensureSynchronised husable), hwire]
    rfl
  rw [Connection.command, Fallible.exec_bind_error hsend]

theorem noLf_wireLine (config : ServerConfig) {line : Bytes} (h : NoLf line) : NoLf (wireLine config line) :=
  noLf_append.mpr ⟨not_mem_stuff h, noLf_carriageReturn config⟩

/-- No line of a block is taken for its end, also where a bare CR ends it. -/
theorem isTerminator_wireLine (config : ServerConfig) (line : Bytes) :
    isTerminator (Connection.popCr (wireLine config line)) = false := by
  unfold wireLine
  rcases carriageReturn_cases config with hcr | hcr
  · rw [hcr, List.append_nil]
    refine Bool.eq_false_iff.mpr fun hterm => ?_
    have hdot : Connection.popCr (stuff line) = [0x2E] := eq_of_beq hterm
    unfold Connection.popCr at hdot
    split at hdot
    · next hlast =>
        have hwhole := List.dropLast_append_getLast? _ hlast
        rw [hdot] at hwhole
        cases stuff_dot hwhole.symm
    · exact stuff_ne_dot line hdot
  · rw [hcr, popCr_append]
    exact isTerminator_stuff line

theorem length_popCr_wireLine (config : ServerConfig) (line : Bytes) :
    (Connection.popCr (wireLine config line)).length ≤ (stuff line).length := by
  unfold wireLine
  rcases carriageReturn_cases config with hcr | hcr
  · rw [hcr, List.append_nil]
    unfold Connection.popCr
    split
    · rw [List.length_dropLast]
      exact Nat.sub_le _ _
    · exact Nat.le_refl _
  · rw [hcr, popCr_append]

theorem contentLen_le (config : ServerConfig) (lines : List Bytes) :
    Connection.contentLen (lines.map (wireLine config)) ≤ stuffedLen lines := by
  induction lines with
  | nil => exact Nat.le_refl 0
  | cons line lines ih =>
      show (Connection.popCr (wireLine config line)).length + _ ≤ (stuff line).length + _
      exact Nat.add_le_add (length_popCr_wireLine config line) ih

theorem blockLines_within {limits : Limits} {config : ServerConfig} {lines : List Bytes}
    (hlines : ∀ line ∈ lines, NoLf line) (h : ReadsWithin limits config lines) :
    Connection.BlockLines limits 0 limits.maxBlockLines (lines.map (wireLine config)) where
  noLf := List.forall_mem_map.mpr fun line hline => noLf_wireLine config (hlines line hline)
  short := List.forall_mem_map.mpr h.line
  content := List.forall_mem_map.mpr fun line _ => isTerminator_wireLine config line
  count := by
    rw [List.length_map]
    exact h.count
  octets := by
    rw [Nat.zero_add]
    exact (contentLen_le config lines).trans h.octets

/-- The flag is never raised, if there is one. -/
def Uncancelled (c : Connection Loop) : Prop := ∀ seen ∈ c.cancel.getD [], seen = false

namespace Uncancelled

variable {c c' : Connection Loop}

theorem unflagged (h : Uncancelled c) (tests : Nat) : c.Unflagged tests :=
  fun seen hseen => h seen (List.mem_of_mem_take hseen)

theorem of_eq (h : Uncancelled c) (hcancel : c'.cancel = c.cancel) : Uncancelled c' := by
  unfold Uncancelled
  rw [hcancel]
  exact h

theorem advanced (h : Uncancelled c) {tests : Nat} (hadv : c.Advanced c' tests) : Uncancelled c' := by
  unfold Uncancelled at h ⊢
  rw [hadv.cancel]
  cases hflag : c.cancel with
  | none => exact fun seen hseen => absurd hseen List.not_mem_nil
  | some observations =>
      rw [hflag] at h
      exact fun seen hseen => h seen (List.mem_of_mem_drop hseen)

end Uncancelled

/-- **The block that is owed is read**, and nothing is left. -/
theorem exec_readBlock {c : Connection Loop} (husable : c.desynchronised = false) (hcancel : Uncancelled c)
    {config : ServerConfig} {lines : List Bytes} (hlines : ∀ line ∈ lines, NoLf line)
    (hwithin : ReadsWithin c.limits config lines) (hup : c.upcoming = (owed config (some lines)).map .item) :
    ∃ c', (Connection.readBlockStreaming : Conn Loop _).exec c =
        (.ok (Connection.handedOver (lines.map (wireLine config))), c') ∧
      c'.upcoming = [] ∧ c'.stream = c.stream ∧ c'.limits = c.limits ∧ c'.desynchronised = false ∧
      Uncancelled c' := by
  have hwire : c.upcoming = (Connection.rawLines (lines.map (wireLine config)) ++ 0x2E :: config.carriageReturn).map
      .item ++ .item 0x0A :: [] := by
    rw [hup, owed, List.map_append]
    rfl
  obtain ⟨c', hread, htail, hadv⟩ := Connection.exec_blockLoop_of_block husable
    (hcancel.unflagged _) (blockLines_within hlines hwithin) (not_mem_terminator config)
    hwithin.last (by rw [popCr_terminator]; rfl) hwire []
  rw [List.nil_append] at hread
  refine ⟨c', hread, htail, hadv.stream, hadv.limits, hadv.desynchronised.trans husable,
    hcancel.advanced hadv⟩

/-- **What an article and its answer come to.** -/
structure Delivered (c c' : Connection Loop) (reply : Reply) : Prop where
  accepts : Accepts c.stream.session c'.stream.session reply
  phase : c'.stream.phase = .command
  input : c'.stream.input = []
  replied : c'.stream.replied = c.stream.replied ++ [reply]
  usable : c'.desynchronised = false
  limits : c'.limits = c.limits
  cancel : c'.cancel = c.cancel
  quiet : c'.upcoming = []

/-- **An article is sent and its answer read.** -/
theorem exec_delivered {c : Connection Loop} (husable : c.desynchronised = false) (hexpecting : Expecting c.stream)
    (hquiet : c.upcoming = []) {lines : List Bytes} (hlines : ∀ line ∈ lines, NoLf line)
    (hfits : ∀ reply ∈ ((do Connection.sendBlock lines; Connection.readStatus : Conn Loop _).exec c).2.stream.replied,
      Reply.Within c.limits c.stream.session.config reply) :
    ∃ line c', (do Connection.sendBlock lines; Connection.readStatus : Conn Loop _).exec c = (.ok line, c') ∧
      line.code = (c.stream.session.acceptArticle lines).2.code ∧
      c'.stream.session = (c.stream.session.acceptArticle lines).1 ∧
      Delivered c c' (c.stream.session.acceptArticle lines).2 := by
  have hreceive := receive_expected hexpecting hlines
  have haccepts := accepts_article hexpecting.served hlines
  generalize hreply : (c.stream.session.acceptArticle lines).2 = reply at *
  have hsend : (Connection.sendBlock lines).exec c =
      (.ok (), ((Connection.write (Connection.wireBlock lines) : Conn Loop Unit).exec c).2) := by
    rw [Connection.sendBlock, Fallible.exec_bind_ok (Connection.exec_ensureSynchronised husable)]
    rfl
  have hfeed : Connection.feed c.stream [Connection.wireBlock lines] =
      ((c.stream.receive (Connection.wireBlock lines)).1, held (Reply.octets c.stream.session.config reply) []) := by
    show ((c.stream.receive _).1, held (c.stream.receive _).2 [] ++ []) = _
    rw [hreceive, List.append_nil]
  rw [Fallible.exec_bind_ok hsend, Connection.onlyReads_readStatus.stream, Connection.exec_write, hfeed,
    hreceive] at hfits
  obtain ⟨line, hbrings, hcode, -⟩ := brings_status haccepts.unbroken
    (hfits reply (List.mem_append_right _ List.mem_cons_self)).status
  have hupcoming : ((Connection.write (Connection.wireBlock lines) : Conn Loop Unit).exec c).2.upcoming =
      (Reply.octets c.stream.session.config reply).map .item := by
    rw [Connection.upcoming_write, hquiet, hfeed, events_held]
    simp
  have hlimits : ((Connection.write (Connection.wireBlock lines) : Conn Loop Unit).exec c).2.limits = c.limits := by
    rw [Connection.exec_write]
  rw [← hupcoming, ← hlimits] at hbrings
  obtain ⟨buffer, reads, hread, htail⟩ := Connection.exec_readStatus_of_brings
    (by rw [Connection.exec_write]; exact husable) hbrings
  refine ⟨line, _, (Fallible.exec_bind_ok hsend).trans hread, hcode, ?_, ?_⟩
  · rw [Connection.exec_write, hfeed, hreceive]
  · rw [haccepts.block] at htail
    rw [Connection.exec_write, hfeed, hreceive]
    exact {
      accepts := haccepts
      phase := rfl
      input := rfl
      replied := rfl
      usable := husable
      limits := rfl
      cancel := rfl
      quiet := htail }

theorem exec_article {c : Connection Loop} (husable : c.desynchronised = false) (hexpecting : Expecting c.stream)
    (hquiet : c.upcoming = []) {lines : List Bytes} (hlines : ∀ line ∈ lines, NoLf line)
    (hfits : ∀ reply ∈ ((do Connection.sendBlock lines; Connection.readStatus : Conn Loop _).exec c).2.stream.replied,
      Reply.Within c.limits c.stream.session.config reply) :
    ∃ line c' reply, (do Connection.sendBlock lines; Connection.readStatus : Conn Loop _).exec c = (.ok line, c') ∧
      Delivered c c' reply := by
  obtain ⟨line, c', hexec, -, -, hdelivered⟩ := exec_delivered husable hexpecting hquiet hlines hfits
  exact ⟨line, c', _, hexec, hdelivered⟩

end Nntp
