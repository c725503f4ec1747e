import Nntp.Client.Operation
import Nntp.Lib.Fallback

/-!
# The overview and header commands that work

`OVER` and `XOVER` do the same, and so do `HDR` and `XHDR`: what the client remembers of each pair is the
memory of `Nntp.Lib.Fallback`. A call of `overview_streaming` or `header_field_streaming` is one step of it, and
nothing else that a client does is any.
-/

namespace Nntp.Client

open Nntp.Lib Nntp.Lib.Fallback Nntp.Proto

/-- A pair of commands, as the client keeps track of it. -/
structure Pair where
  /-- what is remembered of it, among the styles of the client -/
  remembered : OverviewStyle → HeaderStyle → Remembered
  /-- the capability that announces the preferred command -/
  advertised : Capabilities → Bool
  /-- which of the two a command is -/
  choice : Command → Option Choice
  works : Nat → Bool

def OverviewStyle.remembered : OverviewStyle → Remembered
  | unknown => .unknown
  | «over» => .preferred
  | xover => .fallback
  | unavailable => .unavailable

def HeaderStyle.remembered : HeaderStyle → Remembered
  | unknown => .unknown
  | hdr => .preferred
  | xhdr => .fallback
  | unavailable => .unavailable

namespace Pair

/-- `OVER` and `XOVER`. -/
def overview : Pair where
  remembered style _ := style.remembered
  advertised := Capabilities.hasOver
  choice
    | .over _ => some .preferred
    | .xover _ => some .fallback
    | _ => none
  works code := code == 224

/-- `HDR` and `XHDR`. -/
def header : Pair where
  remembered _ style := style.remembered
  advertised := Capabilities.hasHdr
  choice
    | .hdr _ _ => some .preferred
    | .xhdr _ _ => some .fallback
    | _ => none
  works code := code == 225 || code == 221

/-- A pair of the client. -/
def IsKnown (pair : Pair) : Prop := pair = overview ∨ pair = header

/-- What a code says about the command it answers. -/
def answer (pair : Pair) (code : Nat) : Answer :=
  if pair.works code then .works else if Client.verbUnsupported code then .unsupported else .other

/-- What a status line changes. The answer to any other command changes nothing. -/
def learn (pair : Pair) (remembered : Remembered) (answered : Command × StatusLine) : Remembered :=
  match pair.choice answered.1 with
  | some choice => remembered.learn (choice, pair.answer answered.2.code)
  | none => remembered

/-- The two commands of one call. -/
structure Spelling (pair : Pair) where
  command : Choice → Command
  choice_command : ∀ choice, pair.choice (command choice) = some choice

/-- The two ways to ask for the overview of a range. -/
def overviewOf (range : Range) : Spelling overview where
  command
    | .preferred => .over (.range range)
    | .fallback => .xover range
  choice_command choice := by cases choice <;> rfl

/-- The two ways to ask for a header field. -/
def headerOf (field : HeaderName) (target : RangeOrId) : Spelling header where
  command
    | .preferred => .hdr field target
    | .fallback => .xhdr field target
  choice_command choice := by cases choice <;> rfl

/-- A line that answers another command, or says nothing about the command, changes nothing. -/
theorem learn_of_other {pair : Pair} {remembered : Remembered} {answered : Command × StatusLine}
    (h : pair.choice answered.1 ≠ none → pair.answer answered.2.code = .other) :
    pair.learn remembered answered = remembered := by
  unfold learn
  cases hchoice : pair.choice answered.1 with
  | none => rfl
  | some choice =>
      simp only [h (by simp [hchoice])]
      cases choice <;> rfl

theorem foldl_learn_of_other {pair : Pair} {remembered : Remembered}
    {answers : List (Command × StatusLine)}
    (h : ∀ answered ∈ answers, pair.choice answered.1 ≠ none → pair.answer answered.2.code = .other) :
    answers.foldl pair.learn remembered = remembered := by
  induction answers with
  | nil => rfl
  | cons answered answers ih =>
      rw [List.foldl_cons, learn_of_other (h answered List.mem_cons_self)]
      exact ih fun other hother => h other (List.mem_cons_of_mem _ hother)

/-- Only one answer leaves nothing to try. -/
theorem refused_of_foldl {pair : Pair} {remembered : Remembered} {answers : List (Command × StatusLine)}
    (hbefore : remembered ≠ .unavailable)
    (hafter : answers.foldl pair.learn remembered = .unavailable) :
    ∃ answered ∈ answers, pair.choice answered.1 = some .fallback ∧
      pair.answer answered.2.code = .unsupported := by
  induction answers generalizing remembered with
  | nil => exact absurd hafter hbefore
  | cons answered answers ih =>
      by_cases hlearned : pair.learn remembered answered = .unavailable
      · refine ⟨answered, List.mem_cons_self, ?_⟩
        unfold learn at hlearned
        cases hchoice : pair.choice answered.1 with
        | none =>
            rw [hchoice] at hlearned
            exact absurd hlearned hbefore
        | some choice =>
            rw [hchoice] at hlearned
            cases hanswer : pair.answer answered.2.code <;> cases choice <;>
              simp_all [Remembered.learn]
      · obtain ⟨other, hmem, hother⟩ := ih hlearned hafter
        exact ⟨other, List.mem_cons_of_mem _ hmem, hother⟩

theorem unsupported_of_answer {pair : Pair} {code : Nat} (h : pair.answer code = .unsupported) :
    Client.verbUnsupported code = true := by
  unfold answer at h
  split_ifs at h with _ hcode
  exact hcode

end Pair

namespace Client

variable {σ : Type}

/-- What is remembered of a pair. -/
def remembers (c : Client σ) (pair : Pair) : Remembered := pair.remembered c.overviewStyle c.headerStyle

/-- What the capability list says about the preferred command. An empty one says nothing. -/
def listed (c : Client σ) (pair : Pair) : Option Bool :=
  if pair.advertised c.capabilities then some true
  else if !c.capabilities.isEmpty then some false
  else none

/-- The status lines that were taken so far, each with the command it answers. -/
def answers (c : Client σ) : List (Command × StatusLine) := c.heard.map fun e => (e.command, e.line)

/-- The status lines taken since. -/
def answersSince (c c' : Client σ) : List (Command × StatusLine) := c'.answers.drop c.answers.length

/-- What was written since: a command each, or an article. -/
def writtenSince (c c' : Client σ) : List Bytes :=
  c'.connection.written.drop c.connection.written.length

theorem resolveOverviewStyle_remembered (c : Client σ) :
    c.resolveOverviewStyle.remembered = (c.remembers .overview).resolve (c.listed .overview) := by
  unfold resolveOverviewStyle remembers listed Pair.overview
  cases c.overviewStyle with
  | unknown =>
      dsimp only
      split_ifs <;> rfl
  | _ => rfl

theorem resolveHeaderStyle_remembered (c : Client σ) :
    c.resolveHeaderStyle.remembered = (c.remembers .header).resolve (c.listed .header) := by
  unfold resolveHeaderStyle remembers listed Pair.header
  cases c.headerStyle with
  | unknown =>
      dsimp only
      split_ifs <;> rfl
  | _ => rfl

/-! ## What a call makes of its attempts -/

/-- The attempts of a call: what was written for them, how they were answered, and what is remembered. -/
structure Made {pair : Pair} (spelling : pair.Spelling) (c c' : Client σ) (attempts : List Attempt) :
    Prop where
  remembered : c'.remembers pair = attempts.foldl Remembered.learn (c.remembers pair)
  written : ∃ sent, c'.connection.written = c.connection.written ++ sent ∧
    sent.map Except.ok = attempts.map fun attempt => (spelling.command attempt.1).toWire
  answered : ∃ new, c'.answers = c.answers ++ new ∧
    c'.remembers pair = new.foldl pair.learn (c.remembers pair) ∧
    ∀ attempt ∈ attempts, attempt.2 ≠ .other →
      ∃ line, (spelling.command attempt.1, line) ∈ new ∧ pair.answer line.code = attempt.2

namespace Made

variable {pair : Pair} {spelling : pair.Spelling} {c mid c' : Client σ} {attempts more : List Attempt}

theorem nil (hremembered : c'.remembers pair = c.remembers pair)
    (hwritten : c'.connection.written = c.connection.written) (hanswers : c'.answers = c.answers) :
    Made spelling c c' [] where
  remembered := hremembered
  written := ⟨[], by simp [hwritten], rfl⟩
  answered := ⟨[], by simp [hanswers], hremembered, by simp⟩

theorem append (h : Made spelling c mid attempts) (h' : Made spelling mid c' more) :
    Made spelling c c' (attempts ++ more) where
  remembered := by rw [h'.remembered, h.remembered, List.foldl_append]
  written := by
    obtain ⟨sent, hsent, hwire⟩ := h.written
    obtain ⟨sent', hsent', hwire'⟩ := h'.written
    refine ⟨sent ++ sent', by rw [hsent', hsent, List.append_assoc], ?_⟩
    rw [List.map_append, List.map_append, hwire, hwire']
  answered := by
    obtain ⟨new, hnew, hlearned, hall⟩ := h.answered
    obtain ⟨new', hnew', hlearned', hall'⟩ := h'.answered
    refine ⟨new ++ new', by rw [hnew', hnew, List.append_assoc], ?_, fun attempt hmem hother => ?_⟩
    · rw [hlearned', hlearned, List.foldl_append]
    · rcases List.mem_append.mp hmem with hmem | hmem
      · obtain ⟨line, hline, hcode⟩ := hall attempt hmem hother
        exact ⟨line, List.mem_append_left _ hline, hcode⟩
      · obtain ⟨line, hline, hcode⟩ := hall' attempt hmem hother
        exact ⟨line, List.mem_append_right _ hline, hcode⟩

/-- A command was written, and no answer to it read. -/
theorem unanswered {choice : Choice} {sent : Bytes}
    (hwire : (spelling.command choice).toWire = .ok sent) (hremembered : c'.remembers pair = c.remembers pair)
    (hwritten : c'.connection.written = c.connection.written ++ [sent])
    (hanswers : c'.answers = c.answers) : Made spelling c c' [(choice, .other)] where
  remembered := by
    rw [hremembered]
    cases choice <;> rfl
  written := ⟨[sent], hwritten, by simp [hwire]⟩
  answered := ⟨[], by simp [hanswers], hremembered, by simp⟩

/-- A command was written and answered. -/
theorem one {choice : Choice} {line : StatusLine} {sent : Bytes}
    (hwire : (spelling.command choice).toWire = .ok sent)
    (hremembered : c'.remembers pair = (c.remembers pair).learn (choice, pair.answer line.code))
    (hwritten : c'.connection.written = c.connection.written ++ [sent])
    (hanswers : c'.answers = c.answers ++ [(spelling.command choice, line)]) :
    Made spelling c c' [(choice, pair.answer line.code)] where
  remembered := hremembered
  written := ⟨[sent], hwritten, by simp [hwire]⟩
  answered := by
    refine ⟨[(spelling.command choice, line)], hanswers, ?_, fun attempt hmem _ => ⟨line, ?_⟩⟩
    · simp [Pair.learn, spelling.choice_command, hremembered]
    · cases List.mem_singleton.mp hmem
      exact ⟨List.mem_singleton_self _, rfl⟩

end Made

/-! ## One attempt -/

theorem answers_noteBlock (c : Client σ) (lines : List Bytes) :
    ((noteBlock lines).exec c).2.answers = c.answers := by
  show (c.heard.dropLast ++ _).map _ = c.heard.map _
  rcases List.eq_nil_or_concat c.heard with hnil | ⟨heard, e, hcons⟩
  · simp [hnil]
  · simp [hcons]

section Perform

variable [Peer σ] {α : Type}

/-- Reading a block leaves alone everything but the connection, where nothing is written. -/
theorem exec_readBlock_frame (c : Client σ) :
    ((readBlock : ClientM σ _).exec c).2.answers = c.answers ∧
      ((readBlock : ClientM σ _).exec c).2.connection.written = c.connection.written ∧
      ∀ pair : Pair, ((readBlock : ClientM σ _).exec c).2.remembers pair = c.remembers pair := by
  have hwritten := (Connection.onlyReads_readBlock (σ := σ)).written c.connection
  rw [readBlock, Fallible.exec_bind, onConnection_exec]
  rcases hread : Connection.readBlockStreaming.exec c.connection with ⟨e | lines, connection⟩
  · rw [hread] at hwritten
    exact ⟨rfl, hwritten, fun _ => rfl⟩
  · rw [hread] at hwritten
    exact ⟨answers_noteBlock { c with connection } lines, hwritten, fun _ => rfl⟩

/-- What becomes of a command: it is not written, or not answered, or it is answered. -/
theorem exec_command_cases {cmd : Command} {c c' : Client σ} {r : Except ClientError StatusLine}
    (h : (command cmd).exec c = (r, c')) :
    (∃ e, r = .error e ∧ c' = { c with connection := c'.connection } ∧
        (c'.connection.written = c.connection.written ∨
          ∃ sent, cmd.toWire = .ok sent ∧
            c'.connection.written = c.connection.written ++ [sent])) ∨
      ∃ line sent, r = .ok line ∧ cmd.toWire = .ok sent ∧ c' = { c with
          connection := c'.connection
          heard := c.heard ++ [⟨cmd, sent, line, none⟩] } ∧
        c'.connection.written = c.connection.written ++ [sent] := by
  have hrefused : c.connection.desynchronised = true →
      (Connection.command cmd).exec c.connection =
        (.error Connection.lostSynchronisation, c.connection) := by
    intro hsync
    have herr : (Connection.ensureSynchronised : Conn σ Unit).exec c.connection =
        (.error Connection.lostSynchronisation, c.connection) := by
      rw [Connection.ensureSynchronised, Fallible.exec_bind, Fallible.exec_get]
      simp [hsync]
    rw [Connection.command, Connection.send,
      Fallible.exec_bind_error (Fallible.exec_bind_error herr)]
  have hwritten : ∀ {r c'}, (Connection.command cmd).exec c.connection = (r, c') →
      c'.written = c.connection.written ∨
        ∃ sent, cmd.toWire = .ok sent ∧ c'.written = c.connection.written ++ [sent] := by
    intro r c' hexec
    cases hsync : c.connection.desynchronised with
    | true =>
        rw [hrefused hsync] at hexec
        cases hexec
        exact Or.inl rfl
    | false =>
        cases hwire : cmd.toWire with
        | error e =>
            rw [Connection.command, Connection.send, Fallible.exec_bind, Fallible.exec_bind_ok
              (Connection.exec_ensureSynchronised hsync), hwire] at hexec
            cases hexec
            exact Or.inl rfl
        | ok sent =>
            have := Connection.command_written hsync hwire
            rw [hexec] at this
            exact Or.inr ⟨sent, rfl, this⟩
  rcases Fallible.exec_bind_cases h with ⟨line, mid, hx, hnote⟩ | ⟨e, herr, rfl⟩
  · rw [onConnection_exec] at hx
    obtain ⟨hresult, hmid⟩ := Prod.mk.inj hx
    cases hmid
    cases hnote
    have hsync : c.connection.desynchronised = false := by
      by_contra hlost
      rw [hrefused (by simpa using hlost)] at hresult
      cases hresult
    obtain ⟨sent, hwire, hanswered, _⟩ := Connection.command_ok hsync (Prod.ext hresult rfl)
    refine Or.inr ⟨line, sent, rfl, hwire, ?_, hanswered.written⟩
    rw [hwire]
    rfl
  · rw [onConnection_exec] at herr
    obtain ⟨hresult, hafter⟩ := Prod.mk.inj herr
    cases hafter
    exact Or.inl ⟨e, rfl, rfl, hwritten (Prod.ext hresult rfl)⟩

/-- A call from the first status line on: the block where the command works, and a note of the refusal where
the server does not know it. -/
def attempt (name : String) (cmd : Command) (works : Nat → Bool) (read : ClientM σ α)
    (refused : Client σ → Client σ) (rest : StatusLine → ClientM σ α) : ClientM σ α := do
  let line ← command cmd
  if works line.code then read
  else if verbUnsupported line.code then
    modify refused
    rest line
  else throw (.fromStatus name line)

/-- **What an attempt comes to**: the call is over with it, or the command was refused and the rest of the
call begins. -/
theorem exec_attempt_cases {pair : Pair} {spelling : pair.Spelling} {choice : Choice} {name : String}
    {read : ClientM σ α} {refused : Client σ → Client σ} {rest : StatusLine → ClientM σ α}
    (hread : ∀ c, (read.exec c).2.answers = c.answers ∧
      (read.exec c).2.connection.written = c.connection.written ∧
      (read.exec c).2.remembers pair = (c.remembers pair).learn (choice, .works))
    (hrefused : ∀ c, (refused c).answers = c.answers ∧ (refused c).connection = c.connection ∧
      (refused c).remembers pair = (c.remembers pair).learn (choice, .unsupported))
    {c c' : Client σ} {r : Except ClientError α}
    (h : (attempt name (spelling.command choice) pair.works read refused rest).exec c = (r, c')) :
    (∃ attempts, Made spelling c c' attempts ∧
        (attempts = [] ∨ ∃ answer, attempts = [(choice, answer)])) ∨
      ∃ line mid, Made spelling c mid [(choice, .unsupported)] ∧ (rest line).exec mid = (r, c') := by
  rcases Fallible.exec_bind_cases h with ⟨line, mid, hcommand, hrest⟩ | ⟨e, herr, rfl⟩
  · rcases exec_command_cases hcommand with ⟨_, hr, _⟩ | ⟨line', sent, hr, hwire, hmid, hwritten⟩
    · cases hr
    · cases hr
      have hanswers : mid.answers = c.answers ++ [(spelling.command choice, line)] := by
        rw [hmid]
        simp [answers]
      have hremembers : mid.remembers pair = c.remembers pair := by
        rw [hmid]
        rfl
      have hanswer : pair.answer line.code = if pair.works line.code then .works
          else if verbUnsupported line.code then .unsupported else .other := rfl
      split_ifs at hrest with hworks hunsupported
      · obtain ⟨hsame, hsame', hlearned⟩ := hread mid
        rw [hrest] at hsame hsame' hlearned
        rw [if_pos hworks] at hanswer
        refine Or.inl ⟨_, .one hwire ?_ (hsame'.trans hwritten) (hsame.trans hanswers), Or.inr ⟨_, rfl⟩⟩
        rw [hanswer, hlearned, hremembers]
      · obtain ⟨hsame, hsame', hlearned⟩ := hrefused mid
        rw [if_neg hworks, if_pos hunsupported] at hanswer
        refine Or.inr ⟨line, refused mid, ?_, hrest⟩
        rw [← hanswer]
        refine .one hwire ?_ ?_ (hsame.trans hanswers)
        · rw [hanswer, hlearned, hremembers]
        · rw [hsame']
          exact hwritten
      · cases hrest
        rw [if_neg hworks, if_neg hunsupported] at hanswer
        refine Or.inl ⟨_, .one hwire ?_ hwritten hanswers, Or.inr ⟨_, rfl⟩⟩
        rw [hanswer, hremembers]
        cases choice <;> rfl
  · rcases exec_command_cases herr with ⟨e', hr, hc', hwritten⟩ | ⟨_, _, hr, _⟩
    · have hanswers : c'.answers = c.answers := by
        rw [hc']
        rfl
      have hremembers : c'.remembers pair = c.remembers pair := by
        rw [hc']
        rfl
      rcases hwritten with hwritten | ⟨sent, hwire, hwritten⟩
      · exact Or.inl ⟨[], .nil hremembers hwritten hanswers, Or.inl rfl⟩
      · exact Or.inl ⟨_, .unanswered hwire hremembers hwritten hanswers, Or.inr ⟨_, rfl⟩⟩
    · cases hr

/-- A call whose style is the fallback. -/
theorem made_of_fallback {pair : Pair} (spelling : pair.Spelling) {name : String} {read : ClientM σ α}
    {refused : Client σ → Client σ} {error : StatusLine → ClientError}
    (hread : ∀ c, (read.exec c).2.answers = c.answers ∧
      (read.exec c).2.connection.written = c.connection.written ∧
      (read.exec c).2.remembers pair = (c.remembers pair).learn (.fallback, .works))
    (hrefused : ∀ c, (refused c).answers = c.answers ∧ (refused c).connection = c.connection ∧
      (refused c).remembers pair = (c.remembers pair).learn (.fallback, .unsupported))
    {c c' : Client σ} {r : Except ClientError α}
    (h : (attempt name (spelling.command .fallback) pair.works read refused fun line => throw (error line)).exec c =
      (r, c')) :
    ∃ attempts, Made spelling c c' attempts ∧
      (attempts = [] ∨ ∃ answer, attempts = [(.fallback, answer)]) := by
  rcases exec_attempt_cases hread hrefused h with hmade | ⟨line, mid, hmade, hrest⟩
  · exact hmade
  · cases hrest
    exact ⟨_, hmade, Or.inr ⟨_, rfl⟩⟩

/-- A call whose style is the preferred command, with the fallback behind it. -/
theorem made_of_preferred {pair : Pair} (spelling : pair.Spelling) {name : String}
    {read rest : ClientM σ α} {refused : Client σ → Client σ}
    (hread : ∀ c, (read.exec c).2.answers = c.answers ∧
      (read.exec c).2.connection.written = c.connection.written ∧
      (read.exec c).2.remembers pair = (c.remembers pair).learn (.preferred, .works))
    (hrefused : ∀ c, (refused c).answers = c.answers ∧ (refused c).connection = c.connection ∧
      (refused c).remembers pair = (c.remembers pair).learn (.preferred, .unsupported))
    (hrest : ∀ {c c' : Client σ} {r}, rest.exec c = (r, c') → ∃ attempts, Made spelling c c' attempts ∧
      (attempts = [] ∨ ∃ answer, attempts = [(.fallback, answer)]))
    {style : Remembered} (hstyle : style.first = some .preferred)
    {c c' : Client σ} {r : Except ClientError α}
    (h : (attempt name (spelling.command .preferred) pair.works read refused fun _ => rest).exec c = (r, c')) :
    ∃ attempts, Made spelling c c' attempts ∧ permitted style attempts = true := by
  rcases exec_attempt_cases hread hrefused h with ⟨attempts, hmade, hone⟩ | ⟨line, mid, hmade, hlater⟩
  · refine ⟨attempts, hmade, ?_⟩
    rcases hone with rfl | ⟨answer, rfl⟩
    · rfl
    · simp [permitted, hstyle]
  · obtain ⟨attempts, hmade', hone⟩ := hrest hlater
    refine ⟨_, hmade.append hmade', ?_⟩
    rcases hone with rfl | ⟨answer, rfl⟩
    · simp [permitted, hstyle]
    · simp [permitted, hstyle]

/-- **A call goes by the style**: the preferred command with the fallback behind it, the fallback alone, or
neither. -/
theorem made_of_style {pair : Pair} (spelling : pair.Spelling) {name : String} {call read rest : ClientM σ α}
    {refused : Client σ → Client σ} {error : ClientError}
    (hread : ∀ c, (read.exec c).2.answers = c.answers ∧
      (read.exec c).2.connection.written = c.connection.written ∧
      (read.exec c).2.remembers pair = (c.remembers pair).learn (.preferred, .works))
    (hrefused : ∀ c, (refused c).answers = c.answers ∧ (refused c).connection = c.connection ∧
      (refused c).remembers pair = (c.remembers pair).learn (.preferred, .unsupported))
    (hrest : ∀ {c c' : Client σ} {r}, rest.exec c = (r, c') → ∃ attempts, Made spelling c c' attempts ∧
      (attempts = [] ∨ ∃ answer, attempts = [(.fallback, answer)]))
    {style : Remembered} {c c' : Client σ} {r : Except ClientError α}
    (hpreferred : style.first = some .preferred → call.exec c =
      (attempt name (spelling.command .preferred) pair.works read refused fun _ => rest).exec c)
    (hfallback : style.first = some .fallback → call.exec c = rest.exec c)
    (hneither : style.first = none → call.exec c = (.error error, c)) (h : call.exec c = (r, c')) :
    ∃ attempts, Made spelling c c' attempts ∧ permitted style attempts = true := by
  cases hfirst : style.first with
  | none =>
      rw [hneither hfirst] at h
      cases h
      exact ⟨[], .nil rfl rfl rfl, rfl⟩
  | some choice =>
      cases choice with
      | preferred =>
          rw [hpreferred hfirst] at h
          exact made_of_preferred spelling hread hrefused hrest hfirst h
      | fallback =>
          rw [hfallback hfirst] at h
          obtain ⟨attempts, hmade, hone⟩ := hrest h
          refine ⟨attempts, hmade, ?_⟩
          rcases hone with rfl | ⟨answer, rfl⟩
          · rfl
          · simp [permitted, hfirst]

variable (decoders : Decoders)

/-! ## The two calls -/

theorem exec_modify_readBlock (change : Client σ → Client σ) (f : List Bytes → α) (c : Client σ)
    (hchange : (change c).answers = c.answers ∧ (change c).connection = c.connection) (pair : Pair) :
    (((modify change : ClientM σ PUnit) >>= fun _ => readBlock >>= fun block =>
        (pure (f block) : ClientM σ α)).exec c).2.answers = c.answers ∧
      (((modify change : ClientM σ PUnit) >>= fun _ => readBlock >>= fun block =>
        (pure (f block) : ClientM σ α)).exec c).2.connection.written = c.connection.written ∧
      (((modify change : ClientM σ PUnit) >>= fun _ => readBlock >>= fun block =>
        (pure (f block) : ClientM σ α)).exec c).2.remembers pair = (change c).remembers pair := by
  obtain ⟨hanswers, hwritten, hremembers⟩ := exec_readBlock_frame (change c)
  have hsame : (((modify change : ClientM σ PUnit) >>= fun _ => readBlock >>= fun block =>
      (pure (f block) : ClientM σ α)).exec c).2 = ((readBlock : ClientM σ _).exec (change c)).2 := by
    rw [Fallible.exec_bind_ok (Fallible.exec_modify change c), Fallible.exec_bind]
    rcases (readBlock : ClientM σ _).exec (change c) with ⟨_ | _, _⟩ <;> rfl
  rw [hsame, hanswers, hwritten, hremembers pair, hchange.1, hchange.2]
  exact ⟨rfl, rfl, rfl⟩

theorem overviewXover_made {range : Range} {fmt : OverviewFmt} {c c' : Client σ}
    {r : Except ClientError (List (Except Str OverviewRecord))}
    (h : (overviewXover decoders range fmt).exec c = (r, c')) :
    ∃ attempts, Made (Pair.overviewOf range) c c' attempts ∧
      (attempts = [] ∨ ∃ answer, attempts = [(.fallback, answer)]) := by
  have hshape : (overviewXover decoders range fmt : ClientM σ _) =
      attempt "XOVER" ((Pair.overviewOf range).command .fallback) Pair.overview.works
        (setOverviewStyle .xover >>= fun _ => readOverview decoders fmt)
        (fun c => { c with overviewStyle := .unavailable })
        fun line => throw (.fromStatus "XOVER" line) := by
    simp [overviewXover, attempt, Pair.overview, setOverviewStyle, Pair.overviewOf]
  rw [hshape] at h
  refine made_of_fallback (Pair.overviewOf range) (fun c => ?_) ?_ h
  · exact exec_modify_readBlock (fun c : Client σ => { c with overviewStyle := .xover }) _ c ⟨rfl, rfl⟩ .overview
  · exact fun c => ⟨rfl, rfl, rfl⟩

/-- **A call for an overview is one step of the memory.** -/
theorem overviewStreaming_made {range : Range} {fmt : OverviewFmt} {c c' : Client σ}
    {r : Except ClientError (List (Except Str OverviewRecord))}
    (h : (overviewStreaming decoders range fmt).exec c = (r, c')) :
    ∃ attempts, Made (Pair.overviewOf range) c c' attempts ∧
      permitted ((c.remembers .overview).resolve (c.listed .overview)) attempts = true := by
  have hpreferred : c.resolveOverviewStyle.remembered.first = some .preferred →
      (overviewStreaming decoders range fmt : ClientM σ _).exec c =
        (attempt "OVER" ((Pair.overviewOf range).command .preferred) Pair.overview.works
          (setOverviewStyle .over >>= fun _ => readOverview decoders fmt)
          (fun c => { c with overviewStyle := .xover }) fun _ => overviewXover decoders range fmt).exec c := by
    intro hfirst
    rw [overviewStreaming, Fallible.exec_bind_ok (Fallible.exec_get c)]
    cases hstyle : c.resolveOverviewStyle <;> rw [hstyle] at hfirst
    case xover | unavailable => cases hfirst
    all_goals simp [attempt, Pair.overview, setOverviewStyle, Pair.overviewOf]
  have hfallback : c.resolveOverviewStyle.remembered.first = some .fallback →
      (overviewStreaming decoders range fmt : ClientM σ _).exec c = (overviewXover decoders range fmt).exec c := by
    intro hfirst
    rw [overviewStreaming, Fallible.exec_bind_ok (Fallible.exec_get c)]
    cases hstyle : c.resolveOverviewStyle with
    | xover => rfl
    | unknown | «over» | unavailable =>
        rw [hstyle] at hfirst
        cases hfirst
  have hneither : c.resolveOverviewStyle.remembered.first = none →
      (overviewStreaming decoders range fmt : ClientM σ _).exec c = (.error (.commandNotSupported "OVER"), c) := by
    intro hfirst
    rw [overviewStreaming, Fallible.exec_bind_ok (Fallible.exec_get c)]
    cases hstyle : c.resolveOverviewStyle with
    | unavailable => rfl
    | unknown | «over» | xover =>
        rw [hstyle] at hfirst
        cases hfirst
  rw [← resolveOverviewStyle_remembered]
  refine made_of_style (Pair.overviewOf range) (fun c => ?_) ?_ (fun h => overviewXover_made decoders h)
    hpreferred hfallback hneither h
  · exact exec_modify_readBlock (fun c : Client σ => { c with overviewStyle := .over }) _ c ⟨rfl, rfl⟩ .overview
  · exact fun c => ⟨rfl, rfl, rfl⟩

theorem headerFieldXhdr_made {field : HeaderName} {target : RangeOrId} {c c' : Client σ}
    {r : Except ClientError (List (Except Str HeaderEntry))}
    (h : (headerFieldXhdr decoders field target).exec c = (r, c')) :
    ∃ attempts, Made (Pair.headerOf field target) c c' attempts ∧
      (attempts = [] ∨ ∃ answer, attempts = [(.fallback, answer)]) := by
  have hshape : (headerFieldXhdr decoders field target : ClientM σ _) =
      attempt "XHDR" ((Pair.headerOf field target).command .fallback) Pair.header.works
        (setHeaderStyle .xhdr >>= fun _ => readHeaderEntries decoders)
        (fun c => { c with headerStyle := .unavailable })
        fun line => throw (.fromStatus "XHDR" line) := by
    simp [headerFieldXhdr, attempt, Pair.header, setHeaderStyle, Pair.headerOf]
  rw [hshape] at h
  refine made_of_fallback (Pair.headerOf field target) (fun c => ?_) ?_ h
  · exact exec_modify_readBlock (fun c : Client σ => { c with headerStyle := .xhdr }) _ c ⟨rfl, rfl⟩ .header
  · exact fun c => ⟨rfl, rfl, rfl⟩

/-- **A call for a header field is one step of the memory**, or none where no group is selected. -/
theorem headerFieldStreaming_made {field : HeaderName} {target : RangeOrId} {c c' : Client σ}
    {r : Except ClientError (List (Except Str HeaderEntry))}
    (h : (headerFieldStreaming decoders field target).exec c = (r, c')) :
    ∃ attempts, Made (Pair.headerOf field target) c c' attempts ∧
      permitted ((c.remembers .header).resolve (c.listed .header)) attempts = true := by
  by_cases hgroup : (targetNeedsGroup target && c.group.isNone) = true
  · rw [headerFieldStreaming, Fallible.exec_bind_ok (Fallible.exec_get c), if_pos hgroup] at h
    cases h
    exact ⟨[], .nil rfl rfl rfl, rfl⟩
  have hpreferred : c.resolveHeaderStyle.remembered.first = some .preferred →
      (headerFieldStreaming decoders field target : ClientM σ _).exec c =
        (attempt "HDR" ((Pair.headerOf field target).command .preferred) Pair.header.works
          (setHeaderStyle .hdr >>= fun _ => readHeaderEntries decoders)
          (fun c => { c with headerStyle := .xhdr }) fun _ => headerFieldXhdr decoders field target).exec c := by
    intro hfirst
    rw [headerFieldStreaming, Fallible.exec_bind_ok (Fallible.exec_get c), if_neg hgroup]
    cases hstyle : c.resolveHeaderStyle <;> rw [hstyle] at hfirst
    case xhdr | unavailable => cases hfirst
    all_goals simp [attempt, Pair.header, setHeaderStyle, Pair.headerOf]
  have hfallback : c.resolveHeaderStyle.remembered.first = some .fallback →
      (headerFieldStreaming decoders field target : ClientM σ _).exec c =
        (headerFieldXhdr decoders field target).exec c := by
    intro hfirst
    rw [headerFieldStreaming, Fallible.exec_bind_ok (Fallible.exec_get c), if_neg hgroup]
    cases hstyle : c.resolveHeaderStyle with
    | xhdr => rfl
    | unknown | hdr | unavailable =>
        rw [hstyle] at hfirst
        cases hfirst
  have hneither : c.resolveHeaderStyle.remembered.first = none →
      (headerFieldStreaming decoders field target : ClientM σ _).exec c =
        (.error (.commandNotSupported "HDR"), c) := by
    intro hfirst
    rw [headerFieldStreaming, Fallible.exec_bind_ok (Fallible.exec_get c), if_neg hgroup]
    cases hstyle : c.resolveHeaderStyle with
    | unavailable => rfl
    | unknown | hdr | xhdr =>
        rw [hstyle] at hfirst
        cases hfirst
  rw [← resolveHeaderStyle_remembered]
  refine made_of_style (Pair.headerOf field target) (fun c => ?_) ?_ (fun h => headerFieldXhdr_made decoders h)
    hpreferred hfallback hneither h
  · exact exec_modify_readBlock (fun c : Client σ => { c with headerStyle := .hdr }) _ c ⟨rfl, rfl⟩ .header
  · exact fun c => ⟨rfl, rfl, rfl⟩

/-! ## Everything else -/

/-- What is none of the pair's does nothing to what is remembered of it. -/
def Aside (pair : Pair) (c c' : Client σ) : Prop :=
  c'.remembers pair = c.remembers pair ∧
    ∃ new, c'.answers = c.answers ++ new ∧ ∀ answered ∈ new, pair.choice answered.1 = none

namespace Aside

variable {pair : Pair} {c mid c' : Client σ}

theorem of_eq (hremembers : c'.remembers pair = c.remembers pair) (hanswers : c'.answers = c.answers) :
    Aside pair c c' :=
  ⟨hremembers, [], by simp [hanswers], by simp⟩

theorem trans (h : Aside pair c mid) (h' : Aside pair mid c') : Aside pair c c' := by
  obtain ⟨hsame, new, hnew, hnone⟩ := h
  obtain ⟨hsame', new', hnew', hnone'⟩ := h'
  refine ⟨hsame'.trans hsame, new ++ new', ?_, List.forall_mem_append.mpr ⟨hnone, hnone'⟩⟩
  rw [hnew', hnew, List.append_assoc]

/-- An operation that sends other commands and changes nothing of what is remembered. -/
theorem of_orderly {x : ClientM σ α} (h : Orderly (fun cmd => pair.choice cmd = none)
    (fun change => ∀ c, Aside pair c (change c)) false x) (c : Client σ) :
    Aside pair c (x.exec c).2 := by
  refine Orderly.related (fun c => of_eq rfl rfl) trans (fun f c hf => hf c) (fun c _ => of_eq rfl rfl)
    (fun c exchange hnone => ⟨rfl, [(exchange.command, exchange.line)], ?_, ?_⟩)
    (fun c lines => of_eq rfl (answers_noteBlock c lines)) h c
  · simp [answers]
  · simpa using hnone

end Aside

theorem permits_aside {pair : Pair} (hpair : pair.IsKnown) :
    Permits (fun cmd => pair.choice cmd = none) fun change : Client σ → Client σ =>
      ∀ c, Aside pair c (change c) where
  command cmd hcmd := by
    rcases hpair with rfl | rfl <;> cases cmd <;> first | rfl | cases hcmd
  capabilities _ _ := .of_eq rfl rfl
  postingAllowed _ _ := .of_eq rfl rfl
  authenticated _ := .of_eq rfl rfl
  overviewFmt _ _ := .of_eq rfl rfl

theorem aside_authenticate {pair : Pair} (hpair : pair.IsKnown) (username : Str) (password : Option Str)
    (allowPlaintext : Bool) (c : Client σ) :
    Aside pair c ((authenticate decoders username password allowPlaintext).exec c).2 := by
  have hlogin := Aside.of_orderly
    (orderly_login (permits_aside hpair) username password allowPlaintext) c
  rw [authenticate, Fallible.exec_bind]
  rcases hexec : (login username password allowPlaintext).exec c with ⟨e | changed, mid⟩
  · rw [hexec] at hlogin
    exact hlogin
  · rw [hexec] at hlogin
    cases changed with
    | false => exact hlogin
    | true =>
        have hrefresh := Aside.of_orderly
          (orderly_refreshCapabilities (permits_aside hpair) decoders) mid
        exact hlogin.trans hrefresh

/-- The format of overviews has nothing to do with the capabilities. -/
theorem overviewFormat_capabilities (c : Client σ) :
    ((overviewFormat decoders).exec c).2.capabilities = c.capabilities := by
  have hcommand : ∀ c : Client σ, ((command (.list .overviewFmt)).exec c).2.capabilities =
      c.capabilities := by
    intro c
    rcases exec_command_cases (Prod.mk.eta.symm : (command (.list .overviewFmt)).exec c = _) with
      ⟨_, _, hc', _⟩ | ⟨_, _, _, _, hc', _⟩
    · rw [hc']
    · rw [hc']
  have hread : ∀ c : Client σ, ((readBlock : ClientM σ _).exec c).2.capabilities = c.capabilities := by
    intro c
    rw [readBlock, Fallible.exec_bind, onConnection_exec]
    rcases Connection.readBlockStreaming.exec c.connection with ⟨_ | _, _⟩ <;> rfl
  rw [overviewFormat, Fallible.exec_bind_ok (Fallible.exec_get c)]
  cases c.overviewFmt with
  | some fmt => rfl
  | none =>
      refine Fallible.exec_bind_keeps capabilities hcommand (fun line c => ?_) c
      split
      · exact Fallible.exec_bind_keeps capabilities hread (fun _ _ => rfl) c
      · rfl

/-! ## Operations as steps of the memory -/

/-- One step of the memory of a pair, as it shows in the client. -/
structure Stepped (pair : Pair) (c c' : Client σ) (call : Call) : Prop where
  step : Fallback.step (c.remembers pair) call = some (c'.remembers pair)
  listed : call.advertised = c.listed pair
  answered : ∃ new, c'.answers = c.answers ++ new ∧
    c'.remembers pair = new.foldl pair.learn (c.remembers pair) ∧
    ∀ attempt ∈ call.attempts, attempt.2 ≠ .other → ∃ cmd line, (cmd, line) ∈ new ∧
      pair.choice cmd = some attempt.1 ∧ pair.answer line.code = attempt.2

omit [Peer σ] in
theorem Aside.stepped {pair : Pair} {c c' : Client σ} (h : Aside pair c c') :
    Stepped pair c c' ⟨c.listed pair, []⟩ := by
  obtain ⟨hsame, new, hnew, hnone⟩ := h
  refine ⟨?_, rfl, new, hnew, ?_, by simp⟩
  · rw [hsame]
    rfl
  · rw [hsame, Pair.foldl_learn_of_other]
    exact fun answered hmem hchoice => absurd (hnone answered hmem) hchoice

omit [Peer σ] in
theorem Made.stepped {pair : Pair} {spelling : pair.Spelling} {c c' : Client σ} {attempts : List Attempt}
    (h : Made spelling c c' attempts)
    (hpermitted : permitted ((c.remembers pair).resolve (c.listed pair)) attempts = true) :
    Stepped pair c c' ⟨c.listed pair, attempts⟩ := by
  obtain ⟨new, hnew, hlearned, hall⟩ := h.answered
  refine ⟨?_, rfl, new, hnew, hlearned, fun attempt hmem hother => ?_⟩
  · unfold Fallback.step
    rw [if_pos hpermitted, h.remembered]
  · obtain ⟨line, hline, hcode⟩ := hall attempt hmem hother
    exact ⟨_, line, hline, spelling.choice_command _, hcode⟩

omit [Peer σ] in
/-- What happens before a call of the pair may be told with the call. -/
theorem Stepped.after_aside {pair : Pair} {c mid c' : Client σ} {call : Call} (h : Aside pair c mid)
    (hlisted : mid.listed pair = c.listed pair) (h' : Stepped pair mid c' call) :
    Stepped pair c c' call := by
  obtain ⟨hsame, new, hnew, hnone⟩ := h
  obtain ⟨new', hnew', hlearned, hall⟩ := h'.answered
  refine ⟨?_, h'.listed.trans hlisted, new ++ new', by rw [hnew', hnew, List.append_assoc], ?_, ?_⟩
  · rw [← hsame]
    exact h'.step
  · have hnothing : new.foldl pair.learn (c.remembers pair) = c.remembers pair :=
      Pair.foldl_learn_of_other fun answered hmem hchoice => absurd (hnone answered hmem) hchoice
    rw [List.foldl_append, hnothing, ← hsame]
    exact hlearned
  · intro attempt hmem hother
    obtain ⟨cmd, line, hline, hrest⟩ := hall attempt hmem hother
    exact ⟨cmd, line, List.mem_append_right _ hline, hrest⟩

theorem stepped_overviewStreaming (range : Range) (fmt : OverviewFmt) (c : Client σ) :
    ∃ call, Stepped .overview c ((overviewStreaming decoders range fmt).exec c).2 call := by
  obtain ⟨attempts, hmade, hpermitted⟩ :=
    overviewStreaming_made decoders (Prod.mk.eta.symm : (overviewStreaming decoders range fmt).exec c = _)
  exact ⟨_, hmade.stepped hpermitted⟩

theorem stepped_overview (range : Range) (c : Client σ) :
    ∃ call, Stepped .overview c ((overview decoders range).exec c).2 call := by
  rw [overview, Fallible.exec_bind_ok (Fallible.exec_get c)]
  split
  · exact ⟨_, (Aside.of_eq rfl rfl).stepped⟩
  · have hformat : Aside .overview c ((overviewFormat decoders).exec c).2 :=
      .of_orderly (orderly_overviewFormat (permits_aside (Or.inl rfl)) decoders) c
    have hcapabilities := overviewFormat_capabilities decoders c
    rw [Fallible.exec_bind]
    rcases hexec : (overviewFormat decoders).exec c with ⟨e | fmt, mid⟩
    · rw [hexec] at hformat
      exact ⟨_, hformat.stepped⟩
    · rw [hexec] at hformat hcapabilities
      obtain ⟨call, hcall⟩ := stepped_overviewStreaming decoders range fmt mid
      refine ⟨call, ?_⟩
      show Stepped .overview c ((overviewStreaming decoders range fmt >>= fun results =>
        pure (ListResult.collect results)).exec mid).2 call
      rw [Fallible.exec_bind_pure]
      refine hcall.after_aside hformat ?_
      unfold listed
      rw [show mid.capabilities = c.capabilities from hcapabilities]

theorem stepped_headerFieldStreaming (field : HeaderName) (target : RangeOrId) (c : Client σ) :
    ∃ call, Stepped .header c ((headerFieldStreaming decoders field target).exec c).2 call := by
  obtain ⟨attempts, hmade, hpermitted⟩ := headerFieldStreaming_made decoders
    (Prod.mk.eta.symm : (headerFieldStreaming decoders field target).exec c = _)
  exact ⟨_, hmade.stepped hpermitted⟩

/-- **Every operation is one step of the memory of either pair.** -/
theorem stepped_perform (base64 : Bytes → Str) {pair : Pair} (hpair : pair.IsKnown)
    (operation : Operation) (c : Client σ) :
    ∃ call, Stepped pair c ((operation.perform decoders base64).exec c).2 call := by
  have haside : Operation.Allowed (σ := σ) (fun cmd => pair.choice cmd = none)
      (fun change => ∀ c, Aside pair c (change c)) operation →
      ∃ call, Stepped pair c ((operation.perform decoders base64).exec c).2 call := fun hallowed =>
    ⟨_, (Aside.of_orderly
      (orderly_perform decoders base64 (permits_aside hpair) hallowed) c).stepped⟩
  have hgroup : ∀ group, pair.choice (.group group) = none := by rcases hpair with rfl | rfl <;> exact fun _ => rfl
  have hlist : ∀ group range, pair.choice (.listGroup group range) = none := by
    rcases hpair with rfl | rfl <;> exact fun _ _ => rfl
  have hpost : pair.choice .post = none := by rcases hpair with rfl | rfl <;> rfl
  cases operation with
  | authenticate username password allow =>
      exact ⟨_, (aside_authenticate decoders hpair username password allow c).stepped⟩
  | selectGroup group => exact haside ⟨hgroup group, fun _ _ => .of_eq rfl rfl⟩
  | articleNumbers group range => exact haside ⟨hlist group range, fun _ _ => .of_eq rfl rfl⟩
  | post draft => exact haside hpost
  | overview range =>
      rcases hpair with rfl | rfl
      · rw [Operation.perform, exec_performed]
        exact stepped_overview decoders range c
      · exact haside ⟨rfl, rfl, fun _ _ => .of_eq rfl rfl⟩
  | overviewStreaming range fmt =>
      rcases hpair with rfl | rfl
      · rw [Operation.perform, exec_performed]
        exact stepped_overviewStreaming decoders range fmt c
      · exact haside ⟨rfl, rfl, fun _ _ => .of_eq rfl rfl⟩
  | headerField field target =>
      rcases hpair with rfl | rfl
      · exact haside ⟨rfl, rfl, fun _ _ => .of_eq rfl rfl⟩
      · rw [Operation.perform, exec_performed, headerField, Fallible.exec_bind_pure]
        exact stepped_headerFieldStreaming decoders field target c
  | headerFieldStreaming field target =>
      rcases hpair with rfl | rfl
      · exact haside ⟨rfl, rfl, fun _ _ => .of_eq rfl rfl⟩
      · rw [Operation.perform, exec_performed]
        exact stepped_headerFieldStreaming decoders field target c
  | _ => exact haside trivial

/-! ## Sessions -/

/-- What one operation teaches: each status line that answers a command of the pair changes what is
remembered as the memory says, and nothing else does. -/
structure Learns (pair : Pair) (c c' : Client σ) : Prop where
  learned : c'.remembers pair = (c.answersSince c').foldl pair.learn (c.remembers pair)
  unchanged : (∀ answered ∈ c.answersSince c', pair.choice answered.1 ≠ none →
    pair.answer answered.2.code = .other) → c'.remembers pair = c.remembers pair
  refused : c.remembers pair ≠ .unavailable → c'.remembers pair = .unavailable →
    ∃ answered ∈ c.answersSince c', pair.choice answered.1 = some .fallback ∧
      verbUnsupported answered.2.code = true

/-- The laws of a call behind a session that went through the clients of `earlier`, the one before the call
among them. `tried` are the commands that were sent. -/
structure LawfulCall {pair : Pair} (spelling : pair.Spelling) (earlier : Client σ → Prop)
    (c c' : Client σ) (tried : List Choice) : Prop where
  sent : (c.writtenSince c').map Except.ok = tried.map fun choice => (spelling.command choice).toWire
  atMostTwo : tried.length ≤ 2
  settled : (∃ e, earlier e ∧ e.remembers pair = .fallback) → .preferred ∉ tried
  silent : (∃ e, earlier e ∧ e.remembers pair = .unavailable) → tried = []
  reason : .fallback ∈ tried →
    (∃ answered ∈ c'.answers, pair.choice answered.1 = some .preferred ∧
      verbUnsupported answered.2.code = true) ∨
    ∃ e, earlier e ∧ pair.advertised e.capabilities = false ∧ e.capabilities.isEmpty = false

omit [Peer σ] in
theorem omitted_of_listed {pair : Pair} {c : Client σ} (h : c.listed pair = some false) :
    pair.advertised c.capabilities = false ∧ c.capabilities.isEmpty = false := by
  unfold listed at h
  cases hhas : pair.advertised c.capabilities with
  | true => simp [hhas] at h
  | false =>
      cases hempty : c.capabilities.isEmpty with
      | true => simp [hhas, hempty] at h
      | false => exact ⟨rfl, rfl⟩

omit [Peer σ] in
theorem Stepped.learns {pair : Pair} {c c' : Client σ} {call : Call} (h : Stepped pair c c' call) :
    Learns pair c c' := by
  obtain ⟨new, hnew, hlearned, _⟩ := h.answered
  have hsince : c.answersSince c' = new := by
    unfold answersSince
    rw [hnew, List.drop_left]
  refine ⟨by rw [hsince, hlearned], fun hother => ?_, fun hbefore hafter => ?_⟩
  · rw [hsince] at hother
    rw [hlearned]
    exact Pair.foldl_learn_of_other hother
  · rw [hlearned] at hafter
    obtain ⟨answered, hmem, hchoice, hanswer⟩ := Pair.refused_of_foldl hbefore hafter
    exact ⟨answered, hsince ▸ hmem, hchoice, Pair.unsupported_of_answer hanswer⟩

variable (base64 : Bytes → Str)

/-- **A session is a run of the memory**, and each step of the run is explained by the session: the list
that the server sent, and the answers that were taken. -/
theorem performAll_run {pair : Pair} (hpair : pair.IsKnown) (start : Client σ) (session : List Operation) :
    ∃ calls, run Fallback.step (start.remembers pair) calls =
        some ((performAll decoders base64 start session).remembers pair) ∧
      ∀ call ∈ calls,
        (call.advertised = some false → ∃ earlier, earlier <+: session ∧
          (performAll decoders base64 start earlier).listed pair = some false) ∧
        ((Choice.preferred, Answer.unsupported) ∈ call.attempts →
          ∃ answered ∈ (performAll decoders base64 start session).answers,
            pair.choice answered.1 = some .preferred ∧ pair.answer answered.2.code = .unsupported) := by
  induction session using List.reverseRecOn with
  | nil => exact ⟨[], rfl, by simp⟩
  | append_singleton session operation ih =>
      obtain ⟨calls, hrun, hall⟩ := ih
      obtain ⟨call, hstep⟩ := stepped_perform decoders base64 hpair operation
        (performAll decoders base64 start session)
      obtain ⟨new, hnew, _, hanswered⟩ := hstep.answered
      have hlast : performAll decoders base64 start (session ++ [operation]) =
          ((operation.perform decoders base64).exec (performAll decoders base64 start session)).2 :=
        performAll_append decoders base64 start session [operation]
      rw [hlast, hnew]
      refine ⟨calls ++ [call], ?_, fun call' hmem => ?_⟩
      · rw [run_append, hrun]
        simp [run, hstep.step]
      · rcases List.mem_append.mp hmem with hmem | hmem
        · obtain ⟨hadvertised, hrefused⟩ := hall call' hmem
          refine ⟨fun h => ?_, fun h => ?_⟩
          · obtain ⟨earlier, hprefix, hlisted⟩ := hadvertised h
            exact ⟨earlier, hprefix.trans (List.prefix_append _ _), hlisted⟩
          · obtain ⟨answered, hin, hrest⟩ := hrefused h
            exact ⟨answered, List.mem_append_left _ hin, hrest⟩
        · cases List.mem_singleton.mp hmem
          refine ⟨fun h => ⟨session, List.prefix_append _ _, ?_⟩, fun h => ?_⟩
          · rw [← hstep.listed, h]
          · obtain ⟨cmd, line, hin, hchoice, hcode⟩ := hanswered _ h (by simp)
            exact ⟨(cmd, line), List.mem_append_right _ hin, hchoice, hcode⟩

/-- The clients that a session goes through. -/
def PassedThrough (start : Client σ) (session : List Operation) (c : Client σ) : Prop :=
  ∃ earlier, earlier <+: session ∧ c = performAll decoders base64 start earlier

/-- What was remembered of the fallback is not forgotten. -/
theorem settled_of_passedThrough {pair : Pair} (hpair : pair.IsKnown) {start e : Client σ}
    {session : List Operation} (h : PassedThrough decoders base64 start session e)
    (hsettled : (e.remembers pair).Settled) :
    ((performAll decoders base64 start session).remembers pair).Settled := by
  obtain ⟨earlier, ⟨rest, rfl⟩, rfl⟩ := h
  obtain ⟨calls, hrun, _⟩ := performAll_run decoders base64 hpair
    (performAll decoders base64 start earlier) rest
  rw [performAll_append]
  exact settled_run hrun hsettled

theorem unavailable_of_passedThrough {pair : Pair} (hpair : pair.IsKnown) {start e : Client σ}
    {session : List Operation} (h : PassedThrough decoders base64 start session e)
    (hunavailable : e.remembers pair = .unavailable) :
    (performAll decoders base64 start session).remembers pair = .unavailable := by
  obtain ⟨earlier, ⟨rest, rfl⟩, rfl⟩ := h
  obtain ⟨calls, hrun, _⟩ := performAll_run decoders base64 hpair
    (performAll decoders base64 start earlier) rest
  rw [performAll_append]
  rw [hunavailable] at hrun
  exact unavailable_run hrun

/-- A call behind a session keeps the laws. -/
theorem Made.lawful {pair : Pair} (hpair : pair.IsKnown) {spelling : pair.Spelling} {start c' : Client σ}
    {session : List Operation} {attempts : List Attempt} (hnew : start.remembers pair = .unknown)
    (hmade : Made spelling (performAll decoders base64 start session) c' attempts)
    (hpermitted : permitted (((performAll decoders base64 start session).remembers pair).resolve
      ((performAll decoders base64 start session).listed pair)) attempts = true) :
    LawfulCall spelling (PassedThrough decoders base64 start session)
      (performAll decoders base64 start session) c' (attempts.map Prod.fst) := by
  obtain ⟨sent, hsent, hwire⟩ := hmade.written
  obtain ⟨new, hnewer, _, hanswered⟩ := hmade.answered
  refine ⟨?_, ?_, ?_, ?_, ?_⟩
  · unfold writtenSince
    rw [hsent, List.drop_left, hwire, List.map_map]
    rfl
  · rw [List.length_map]
    exact length_le_two hpermitted
  · rintro ⟨e, hpassed, hfallback⟩ hmem
    have hsettled := settled_of_passedThrough decoders base64 hpair hpassed (Or.inl hfallback)
    obtain ⟨⟨choice, answer⟩, hattempt, hchoice⟩ := List.mem_map.mp hmem
    cases hchoice
    exact not_preferred_of_settled hpermitted hsettled answer hattempt
  · rintro ⟨e, hpassed, hunavailable⟩
    have hnone := unavailable_of_passedThrough decoders base64 hpair hpassed hunavailable
    rw [silent_of_unavailable hpermitted hnone]
    rfl
  · intro hmem
    obtain ⟨⟨choice, answer⟩, hattempt, hchoice⟩ := List.mem_map.mp hmem
    cases hchoice
    rw [hnewer]
    rcases reason_of_fallback hpermitted hattempt with hsettled | hlisted | hrefused
    · -- it was remembered, so some call before this one had the reason
      obtain ⟨calls, hrun, hall⟩ := performAll_run decoders base64 hpair start session
      obtain ⟨call, hcall, hreason⟩ := reason_run hrun
        (by rw [hnew]; rintro (h | h) <;> cases h) hsettled
      obtain ⟨hadvertised, hrefused⟩ := hall call hcall
      rcases hreason with hfalse | hunsupported
      · obtain ⟨earlier, hprefix, hlisted⟩ := hadvertised hfalse
        exact Or.inr ⟨_, ⟨earlier, hprefix, rfl⟩, omitted_of_listed hlisted⟩
      · obtain ⟨answered, hin, hchoice, hcode⟩ := hrefused hunsupported
        exact Or.inl ⟨answered, List.mem_append_left _ hin, hchoice, Pair.unsupported_of_answer hcode⟩
    · exact Or.inr ⟨_, ⟨session, List.prefix_refl _, rfl⟩, omitted_of_listed hlisted⟩
    · obtain ⟨line, hin, hcode⟩ := hanswered _ hrefused (by simp)
      exact Or.inl ⟨_, List.mem_append_right _ hin, spelling.choice_command _,
        Pair.unsupported_of_answer hcode⟩

/-- The laws of a session: what any operation teaches behind it, and what a call sends. -/
structure Lawful (start : Client σ) (session : List Operation) : Prop where
  learns : ∀ (operation : Operation) (pair : Pair), pair.IsKnown →
    Learns pair (performAll decoders base64 start session)
      (performAll decoders base64 start (session ++ [operation]))
  overview : ∀ (range : Range) (fmt : OverviewFmt), ∃ tried, LawfulCall (Pair.overviewOf range)
    (PassedThrough decoders base64 start session) (performAll decoders base64 start session)
    ((overviewStreaming decoders range fmt).exec (performAll decoders base64 start session)).2 tried
  header : ∀ (field : HeaderName) (target : RangeOrId), ∃ tried, LawfulCall (Pair.headerOf field target)
    (PassedThrough decoders base64 start session) (performAll decoders base64 start session)
    ((headerFieldStreaming decoders field target).exec (performAll decoders base64 start session)).2
    tried

/-- **What works is remembered, and nothing else is.** In every session of a new client, what is remembered
of either pair changes only as the status lines say that answer its commands, and every call sends at most
two commands, none of them against what was learned before. -/
theorem remembers_what_works {connection : Connection σ} {encrypted : Bool} {start : Client σ}
    (hstart : withOptions connection encrypted = .ok start) (session : List Operation) :
    Lawful decoders base64 start session := by
  have hnew : start.overviewStyle = .unknown ∧ start.headerStyle = .unknown := by
    unfold withOptions at hstart
    split at hstart
    · cases hstart
    · split_ifs at hstart
      cases hstart
      exact ⟨rfl, rfl⟩
  refine ⟨fun operation pair hpair => ?_, fun range fmt => ?_, fun field target => ?_⟩
  · rw [performAll_append]
    obtain ⟨call, hstep⟩ := stepped_perform decoders base64 hpair operation
      (performAll decoders base64 start session)
    exact hstep.learns
  · obtain ⟨attempts, hmade, hpermitted⟩ := overviewStreaming_made decoders
      (Prod.mk.eta.symm : (overviewStreaming decoders range fmt).exec
        (performAll decoders base64 start session) = _)
    refine ⟨_, hmade.lawful decoders base64 (Or.inl rfl) ?_ hpermitted⟩
    show start.overviewStyle.remembered = .unknown
    rw [hnew.1]
    rfl
  · obtain ⟨attempts, hmade, hpermitted⟩ := headerFieldStreaming_made decoders
      (Prod.mk.eta.symm : (headerFieldStreaming decoders field target).exec
        (performAll decoders base64 start session) = _)
    refine ⟨_, hmade.lawful decoders base64 (Or.inr rfl) ?_ hpermitted⟩
    show start.headerStyle.remembered = .unknown
    rw [hnew.2]
    rfl

end Perform

/-- A session with a server that refuses `OVER` and `XOVER`. -/
theorem remembers_what_works_refused :
    ∃ start, withOptions (scripted (asBytes "200 hello\r\n500 what?\r\n500 what?\r\n".toList)).connection
        true = .ok start ∧
      Lawful plainDecoders (fun _ => []) start [.overviewStreaming (.single 1) .standard] := by
  have hok : (withOptions (scripted (asBytes
      "200 hello\r\n500 what?\r\n500 what?\r\n".toList)).connection true).isOk = true := by
    decide +kernel
  cases hstart : withOptions (scripted (asBytes
      "200 hello\r\n500 what?\r\n500 what?\r\n".toList)).connection true with
  | error e =>
      rw [hstart] at hok
      cases hok
  | ok start => exact ⟨start, rfl, remembers_what_works plainDecoders (fun _ => []) hstart _⟩

end Client
end Nntp.Client
