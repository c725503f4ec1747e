import Nntp.Exchange

/-!
# The client and the server in lockstep

A client whose connection ends in the loop around a session: between its operations both wait for a command, nothing
that was sent is left to be read, and both have the same group selected.
-/

namespace Nntp

open Nntp.Lib Nntp.Proto Nntp.Client Nntp.TestServer

/-! ## The answers given -/

theorem turn_replied {loop : Loop} {after : Loop × Bytes} (h : loop.turn = some after) :
    loop.replied <+: after.1.replied := by
  unfold Loop.turn at h
  split at h
  · obtain ⟨cut, -, rfl⟩ := Option.map_eq_some_iff.mp h
    exact List.prefix_append _ _
  · obtain ⟨taken, -, rfl⟩ := Option.map_eq_some_iff.mp h
    exact List.prefix_append _ _
  · cases h

theorem receive_replied (loop : Loop) (octets : Bytes) : loop.replied <+: (loop.receive octets).1.replied := by
  have hrun : ∀ (fuel : Nat) (loop : Loop), loop.replied <+: (Loop.run fuel loop).1.replied := by
    intro fuel
    induction fuel with
    | zero => exact fun loop => List.prefix_refl _
    | succ fuel ih =>
        intro loop
        unfold Loop.run
        cases hturn : loop.turn with
        | none => exact List.prefix_refl _
        | some after => exact (turn_replied hturn).trans (ih after.1)
  exact hrun _ { loop with input := loop.input ++ octets }

/-- The answers that the other end of a connection has given. -/
def repliedTo (c : Connection Loop) : List Reply := c.stream.replied

/-- The answers given are kept. -/
abbrev Keeps {α : Type} (x : ClientM Loop α) : Prop := Fallible.Grows (fun c : Client Loop => repliedTo c.connection) x

namespace Keeps

variable {α β : Type}

theorem modify {f : Client Loop → Client Loop} (h : ∀ c, (f c).connection = c.connection) :
    Keeps (modify f : ClientM Loop PUnit) :=
  .of_eq fun c => congrArg repliedTo (h c)

theorem onConnection {x : Conn Loop α} (h : Fallible.Grows repliedTo x) : Keeps (Client.onConnection x) :=
  fun c => h c.connection

theorem of_onlyReads {x : Conn Loop α} (h : Connection.OnlyReads x) : Fallible.Grows repliedTo x :=
  .of_eq fun c => congrArg Loop.replied (h.stream c)

/-- What is written may be answered. -/
theorem write (bytes : Bytes) : Fallible.Grows repliedTo (Connection.write bytes : Conn Loop Unit) := by
  intro c
  unfold repliedTo
  rw [Connection.exec_write]
  exact receive_replied c.stream bytes

theorem readBlock : Keeps (Client.readBlock : ClientM Loop _) := by
  have hnote : ∀ lines, Keeps (Client.noteBlock lines : ClientM Loop Unit) := fun lines => .of_eq fun c => rfl
  refine (onConnection (of_onlyReads Connection.onlyReads_readBlock)).bind fun lines => (hnote lines).bind fun _ => ?_
  exact .of_eq fun c => rfl

/-- Something is sent, and a status line read. -/
theorem exchange {x : Conn Loop Unit} (h : Fallible.Grows repliedTo x) (exchange : StatusLine → Exchange) : Keeps (do
      let line ← Client.onConnection (x >>= fun _ => Connection.readStatus)
      Client.note (exchange line)
      pure line) := by
  have hnote : ∀ line, Keeps (Client.note (exchange line) : ClientM Loop Unit) := fun line => .of_eq fun c => rfl
  refine (onConnection (h.bind fun _ => of_onlyReads Connection.onlyReads_readStatus)).bind fun line => ?_
  exact (hnote line).bind fun _ => .of_eq fun c => rfl

theorem command (cmd : Command) : Keeps (Client.command cmd : ClientM Loop _) := by
  refine exchange ((of_onlyReads Connection.onlyReads_ensureSynchronised).bind fun _ => ?_) _
  cases cmd.toWire with
  | ok sent => exact write sent
  | error e => exact .of_eq fun c => rfl

theorem sendArticle (lines : List Bytes) : Keeps (Client.sendArticle lines : ClientM Loop _) :=
  exchange ((of_onlyReads Connection.onlyReads_ensureSynchronised).bind fun _ => write _) _

/-- **What is orderly keeps the answers.** -/
theorem of_orderly {K : Command → Prop} {M : (Client Loop → Client Loop) → Prop}
    (hM : ∀ f, M f → ∀ c, (f c).connection = c.connection) {pending : Bool} {x : ClientM Loop α}
    (h : Client.Orderly K M pending x) : Keeps x := by
  induction h with
  | pure a => exact .of_eq fun c => rfl
  | throw e => exact .of_eq fun c => rfl
  | fatal hcmd he => exact .of_eq fun c => rfl
  | get hf ih => exact fun c => ih c c
  | change hchange hf ih => exact (modify (hM _ hchange)).bind fun _ => ih
  | block hf ih => exact readBlock.bind ih
  | command hcmd hf ih => exact (command _).bind ih
  | sendArticle hpost hf ih => exact (sendArticle _).bind ih
  | bind hx hf ihx ihf => exact Fallible.Grows.bind ihx ihf

end Keeps

/-! ## Both ends at rest -/

/-- The client stands behind a status line: what the stream still brings is the block, and the server waits for a
command. -/
structure Level (limits : Limits) (config : ServerConfig) (block : Option (List Bytes)) (c : Client Loop) : Prop where
  idle : Idle c.connection.stream
  settings : c.connection.stream.session.config = config
  usable : c.connection.desynchronised = false
  bounds : c.connection.limits = limits
  cancel : Uncancelled c.connection
  upcoming : c.connection.upcoming = (owed config block).map .item
  lines : ∀ lines ∈ block, ∀ line ∈ lines, NoLf line
  within : ∀ lines ∈ block, ReadsWithin limits config lines

/-- The server has closed the connection, and everything it sent is read. -/
structure Ended (c : Client Loop) : Prop where
  phase : c.connection.stream.phase = .ended
  quiet : c.connection.upcoming = []

/-- Nothing is left to read. -/
def Settled (limits : Limits) (config : ServerConfig) (c : Client Loop) : Prop :=
  Level limits config none c ∨ Ended c

/-- **Both ends have the same group selected.** -/
def Agrees (c : Client Loop) : Prop :=
  c.group.map (·.name.asStr) = c.connection.stream.session.state.currentGroup

/-- All the answers given are within the client's limits. -/
def Fits (limits : Limits) (config : ServerConfig) (c : Client Loop) : Prop :=
  ∀ reply ∈ repliedTo c.connection, Reply.Within limits config reply

section Moves

variable {limits : Limits} {config : ServerConfig} {c c' : Client Loop}

theorem Fits.before {α : Type} {x : ClientM Loop α} (hx : Keeps x) (h : Fits limits config (x.exec c).2) :
    Fits limits config c :=
  fun reply hreply => h reply ((hx c).subset hreply)

/-- What the first half of a bind was answered is within the limits if all of it is. -/
theorem Fits.first {α β : Type} {x : ClientM Loop α} {f : α → ClientM Loop β} (hf : ∀ a, Keeps (f a))
    (h : Fits limits config ((x >>= f).exec c).2) : Fits limits config (x.exec c).2 := by
  rcases hexec : x.exec c with ⟨e | a, mid⟩
  · rw [Fallible.exec_bind_error hexec] at h
    exact h
  · rw [Fallible.exec_bind_ok hexec] at h
    exact h.before (hf a)

theorem Settled.quiet (h : Settled limits config c) : c.connection.upcoming = [] := by
  rcases h with h | h
  · exact h.upcoming
  · exact h.quiet

/-- What a level client keeps when only what it remembers changes. -/
theorem Level.of_connection {block : Option (List Bytes)} (h : Level limits config block c)
    (hconn : c'.connection = c.connection) : Level limits config block c' := by
  obtain ⟨h1, h2, h3, h4, h5, h6, h7, h8⟩ := h
  rw [← hconn] at h1 h2 h3 h4 h5 h6
  exact ⟨h1, h2, h3, h4, h5, h6, h7, h8⟩

theorem Settled.of_connection (h : Settled limits config c) (hconn : c'.connection = c.connection) :
    Settled limits config c' := by
  rcases h with h | h
  · exact Or.inl (h.of_connection hconn)
  · exact Or.inr ⟨by rw [hconn]; exact h.phase, by rw [hconn]; exact h.quiet⟩

/-- The client behind the status line of a command. -/
def heardOf (c : Client Loop) (connection : Connection Loop) (cmd : Command) (line : StatusLine) : Client Loop :=
  { c with connection, heard := c.heard ++ [⟨cmd, cmd.toWire.toOption.getD [], line, none⟩] }

/-- Where a command and its answer leave the client. -/
theorem Level.exchanged {cmd : Command} {line : StatusLine} {reply : Reply} {flow : Flow}
    {connection : Connection Loop} (h : Level limits config none c)
    (hx : Exchanged c.connection connection cmd line reply flow) (hwithin : Reply.Within limits config reply) :
    (flow.phase = .command ∧ Level limits config reply.block (heardOf c connection cmd line)) ∨
      (flow.phase = .article ∧ verbOf cmd = .post ∧ reply.code = 340) ∨
      (reply.block = none ∧ Ended (heardOf c connection cmd line)) := by
  have hserved := h.idle.served.of_kept hx.answered.kept
  cases hphase : flow.phase with
  | command =>
      refine Or.inl ⟨rfl, ⟨hserved, hx.phase.trans hphase, hx.input⟩, ?_, hx.usable, hx.limits.trans h.bounds,
        h.cancel.of_eq hx.cancel, ?_, hx.answered.unbroken.block, hwithin.block⟩
      · exact hx.answered.kept.config.trans h.settings
      · rw [← h.settings]
        exact hx.owed
  | article =>
      obtain ⟨hpost, hcode⟩ := hx.goesOn.article.mp hphase
      exact Or.inr (Or.inl ⟨rfl, hpost, hcode⟩)
  | ended =>
      have hnone := hx.goesOn.ended hphase
      refine Or.inr (Or.inr ⟨hnone, hx.phase.trans hphase, ?_⟩)
      show connection.upcoming = []
      rw [hx.owed, hnone]
      rfl

/-- A use of the connection, as the client makes it. -/
theorem exec_command_error {cmd : Command} {e : ClientError} {connection : Connection Loop}
    (h : (Connection.command cmd).exec c.connection = (.error e, connection)) :
    (Client.command cmd).exec c = (.error e, { c with connection }) := by
  have hfail : (Client.onConnection (Connection.command cmd)).exec c = (.error e, { c with connection }) := by
    rw [Client.onConnection_exec, h]
  exact Fallible.exec_bind_error hfail

theorem exec_command_ok {cmd : Command} {line : StatusLine} {connection : Connection Loop}
    (h : (Connection.command cmd).exec c.connection = (.ok line, connection)) :
    (Client.command cmd).exec c = (.ok line, heardOf c connection cmd line) := by
  have htaken : (Client.onConnection (Connection.command cmd)).exec c = (.ok line, { c with connection }) := by
    rw [Client.onConnection_exec, h]
  exact Fallible.exec_bind_ok htaken

/-- The connection behind a command, whatever comes of it. -/
theorem connection_command (cmd : Command) :
    ((Client.command cmd).exec c).2.connection = ((Connection.command cmd).exec c.connection).2 := by
  rcases hexec : (Connection.command cmd).exec c.connection with ⟨e | line, connection⟩
  · rw [exec_command_error hexec]
  · rw [exec_command_ok hexec]
    rfl

/-- **A command of a level client**: it cannot be encoded, and nothing happens, or it is answered. -/
theorem Level.command (h : Level limits config none c) (cmd : Command)
    (hfits : Fits limits config ((Client.command cmd).exec c).2) :
    (∃ e, (Client.command cmd).exec c = (.error e, c)) ∨ ∃ line connection reply flow,
      (Client.command cmd).exec c = (.ok line, heardOf c connection cmd line) ∧
      Exchanged c.connection connection cmd line reply flow := by
  cases hwire : cmd.toWire with
  | error e => exact Or.inl ⟨_, exec_command_error (exec_command_illegal h.usable hwire)⟩
  | ok sent =>
      have hanswer : (answerTo c.connection.stream.session cmd).2.1 ∈
          repliedTo ((Client.command cmd).exec c).2.connection := by
        unfold repliedTo
        rw [connection_command, command_stream h.usable hwire, (receive_command h.idle hwire).1]
        exact List.mem_append_right _ List.mem_cons_self
      have hstatus := (hfits _ hanswer).status
      rw [← h.bounds, ← h.settings] at hstatus
      obtain ⟨line, connection, hexec, hx⟩ := exec_command h.usable h.idle h.upcoming hwire hstatus
      exact Or.inr ⟨line, connection, _, _, exec_command_ok hexec, hx⟩

/-- **The block behind a status line is read**, and then nothing is left. -/
theorem Level.readBlock {lines : List Bytes} (h : Level limits config (some lines) c) :
    ∃ connection, (Client.readBlock : ClientM Loop _).exec c =
        (.ok (Connection.handedOver (lines.map (wireLine config))),
          ((Client.noteBlock (Connection.handedOver (lines.map (wireLine config)))).exec { c with connection }).2) ∧
      connection.stream = c.connection.stream ∧
      Level limits config none ((Client.noteBlock (Connection.handedOver (lines.map (wireLine config)))).exec
        { c with connection }).2 := by
  obtain ⟨connection, hread, hquiet, hstream, hlimits, husable, hcancel⟩ :=
    exec_readBlock h.usable h.cancel (h.lines lines rfl) (h.bounds ▸ h.within lines rfl) h.upcoming
  have htaken : (Client.onConnection Connection.readBlockStreaming : ClientM Loop _).exec c =
      (.ok (Connection.handedOver (lines.map (wireLine config))), { c with connection }) := by
    rw [Client.onConnection_exec, hread]
  refine ⟨connection, Fallible.exec_bind_ok htaken, hstream, ?_⟩
  exact {
    idle := by
      show Idle connection.stream
      rw [hstream]
      exact h.idle
    settings := by
      show connection.stream.session.config = config
      rw [hstream]
      exact h.settings
    usable := husable
    bounds := hlimits.trans h.bounds
    cancel := hcancel
    upcoming := hquiet
    lines := fun _ hnone => by cases hnone
    within := fun _ hnone => by cases hnone }

/-- A loop that has ended takes what comes and answers nothing. -/
theorem receive_ended {loop : Loop} (h : loop.phase = .ended) (octets : Bytes) :
    loop.receive octets = ({ loop with input := loop.input ++ octets }, []) := by
  have hturn : Loop.turn { loop with input := loop.input ++ octets } = none := by
    unfold Loop.turn
    dsimp only
    rw [h]
  unfold Loop.receive Loop.run
  rw [hturn]

theorem reads_of_events_nil {reads : Reads} (h : events reads = []) : reads = [] := by
  cases reads with
  | nil => rfl
  | cons read reads =>
      cases read with
      | err kind => cases h
      | data available =>
          cases available with
          | nil => cases h
          | cons b rest => cases h

/-- Where nothing comes no status line is read, and then nothing comes either. -/
theorem readStatus_quiet {connection : Connection Loop} (hquiet : connection.upcoming = []) :
    ∃ e after, (Connection.readStatus : Conn Loop _).exec connection = (.error e, after) ∧
      after.stream = connection.stream ∧ after.upcoming = [] := by
  have hstream := Connection.onlyReads_readStatus.stream connection
  cases hsync : connection.desynchronised with
  | true =>
      have hread := Connection.exec_readLine_lost hsync "a status line"
      exact ⟨_, connection, Fallible.exec_bind_error hread, rfl, hquiet⟩
  | false =>
      have hread := Connection.exec_readLine hsync "a status line"
      rw [reads_of_events_nil hquiet] at hread
      exact ⟨_, _, Fallible.exec_bind_error hread, rfl, rfl⟩

/-- A server that has closed the connection answers nothing. -/
theorem Ended.command (h : Ended c) (cmd : Command) :
    ∃ e connection, (Client.command cmd).exec c = (.error e, { c with connection }) ∧
      connection.stream.session = c.connection.stream.session ∧ Ended { c with connection } := by
  cases hsync : c.connection.desynchronised with
  | true =>
      have hsend : (Connection.send cmd).exec c.connection = (.error Connection.lostSynchronisation, c.connection) := by
        apply Fallible.exec_bind_error
        simp [Connection.ensureSynchronised, Fallible.exec_bind, hsync]
      exact ⟨_, c.connection, exec_command_error (Fallible.exec_bind_error hsend), rfl, h⟩
  | false =>
      cases hwire : cmd.toWire with
      | error e => exact ⟨_, c.connection, exec_command_error (exec_command_illegal hsync hwire), rfl, h⟩
      | ok sent =>
          have hsend : (Connection.send cmd).exec c.connection =
              (.ok (), ((Connection.write sent : Conn Loop Unit).exec c.connection).2) := by
            rw [Connection.send, Fallible.exec_bind_ok (Connection.exec_ensureSynchronised hsync), hwire]
            rfl
          have hfeed : Connection.feed c.connection.stream [sent] =
              ({ c.connection.stream with input := c.connection.stream.input ++ sent }, []) := by
            show ((c.connection.stream.receive sent).1, held (c.connection.stream.receive sent).2 [] ++ []) = _
            rw [receive_ended h.phase]
            rfl
          have hquiet : ((Connection.write sent : Conn Loop Unit).exec c.connection).2.upcoming = [] := by
            rw [Connection.upcoming_write, h.quiet, hfeed]
            rfl
          obtain ⟨e, after, hread, hstream, hafter⟩ := readStatus_quiet hquiet
          rw [Connection.exec_write, hfeed] at hstream
          refine ⟨e, after, exec_command_error ((Fallible.exec_bind_ok hsend).trans hread), ?_, ?_, hafter⟩
          · rw [hstream]
          · show after.stream.phase = _
            rw [hstream]
            exact h.phase

end Moves

/-! ## The operations that select nothing -/

/-- Commands that neither select a group nor announce an article. -/
def isPlain : Command → Bool
  | .group _ => false
  | .listGroup _ _ => false
  | .post => false
  | _ => true

theorem selects_of_isPlain {cmd : Command} (h : isPlain cmd = true) :
    (verbOf cmd).selects = false ∧ verbOf cmd ≠ .post := by
  cases cmd with
  | group name => cases h
  | listGroup group range => cases h
  | post => cases h
  | _ => exact ⟨rfl, fun hpost => by cases hpost⟩

/-- The client reads a block exactly where the server sends one. -/
theorem readsBlock_eq (cmd : Command) (code : Nat) : readsBlock cmd code = (verbOf cmd).sendsBlock code := by
  cases cmd <;> simp [readsBlock, Command.expectsDataBlock, successCode, verbOf, Verb.sendsBlock]

/-- Both ends are at rest again, with the groups they had selected. -/
structure Calm (limits : Limits) (config : ServerConfig) (c c' : Client Loop) : Prop where
  settled : Settled limits config c'
  group : c'.group = c.group
  current : c'.connection.stream.session.state.currentGroup = c.connection.stream.session.state.currentGroup

section Calm

variable {limits : Limits} {config : ServerConfig} {c mid c' : Client Loop}

theorem Calm.refl (h : Settled limits config c) : Calm limits config c c := ⟨h, rfl, rfl⟩

theorem Calm.behind (h : Calm limits config mid c') (hgroup : mid.group = c.group)
    (hcurrent : mid.connection.stream.session.state.currentGroup = c.connection.stream.session.state.currentGroup) :
    Calm limits config c c' :=
  ⟨h.settled, h.group.trans hgroup, h.current.trans hcurrent⟩

theorem Calm.trans (h : Calm limits config c mid) (h' : Calm limits config mid c') : Calm limits config c c' :=
  h'.behind h.group h.current

theorem Calm.agrees (h : Calm limits config c c') (hagrees : Agrees c) : Agrees c' := by
  unfold Agrees
  rw [h.group, h.current]
  exact hagrees

/-- What is to be there: a block if one is pending, else nothing. -/
def Ready (limits : Limits) (config : ServerConfig) (pending : Bool) (c : Client Loop) : Prop :=
  match pending with
  | true => ∃ lines, Level limits config (some lines) c
  | false => Settled limits config c

theorem Ready.of_connection {pending : Bool} (h : Ready limits config pending c)
    (hconn : c'.connection = c.connection) : Ready limits config pending c' := by
  cases pending with
  | true =>
      obtain ⟨lines, hlevel⟩ := h
      exact ⟨lines, hlevel.of_connection hconn⟩
  | false => exact Settled.of_connection h hconn

theorem Level.ready {block : Option (List Bytes)} (h : Level limits config block c) :
    Ready limits config block.isSome c := by
  cases block with
  | none => exact Or.inl h
  | some lines => exact ⟨lines, h⟩

/-- A plain command, and what is done with its status line. -/
theorem calm_command {α : Type} {cmd : Command} (hplain : isPlain cmd = true) {f : StatusLine → ClientM Loop α}
    (hkeeps : ∀ line, Keeps (f line))
    (hf : ∀ line c, Ready limits config (readsBlock cmd line.code) c → Fits limits config ((f line).exec c).2 →
      Calm limits config c ((f line).exec c).2)
    (hready : Settled limits config c) (hfits : Fits limits config ((Client.command cmd >>= f).exec c).2) :
    Calm limits config c ((Client.command cmd >>= f).exec c).2 := by
  rcases hready with hlevel | hended
  · rcases hlevel.command cmd (hfits.first hkeeps) with ⟨e, hexec⟩ | ⟨line, connection, reply, flow, hexec, hx⟩
    · rw [Fallible.exec_bind_error hexec]
      exact .refl (Or.inl hlevel)
    · rw [Fallible.exec_bind_ok hexec] at hfits ⊢
      obtain ⟨hselects, hpost⟩ := selects_of_isPlain hplain
      have hwithin : Reply.Within limits config reply := by
        apply hfits.before (hkeeps line) reply
        show reply ∈ connection.stream.replied
        rw [hx.replied]
        exact List.mem_append_right _ List.mem_cons_self
      have hready : Ready limits config (readsBlock cmd line.code) (heardOf c connection cmd line) := by
        rw [readsBlock_eq, hx.code, ← hx.answered.block]
        rcases hlevel.exchanged hx hwithin with ⟨-, hafter⟩ | ⟨-, hverb, -⟩ | ⟨hnone, hafter⟩
        · exact hafter.ready
        · exact absurd hverb hpost
        · rw [hnone]
          exact Or.inr hafter
      exact (hf line _ hready hfits).behind rfl (hx.answered.unselected (by rw [hselects]; rfl))
  · obtain ⟨e, connection, hexec, hsession, hafter⟩ := hended.command cmd
    rw [Fallible.exec_bind_error hexec]
    exact ⟨Or.inr hafter, rfl, by rw [hsession]⟩

/-- **An operation of plain commands** leaves both ends at rest, with the groups they had selected. -/
theorem calm_of_orderly {K : Command → Prop} {M : (Client Loop → Client Loop) → Prop}
    (hK : ∀ cmd, K cmd → isPlain cmd = true)
    (hM : ∀ f, M f → ∀ c, (f c).connection = c.connection ∧ (f c).group = c.group) {pending : Bool} {α : Type}
    {x : ClientM Loop α} (h : Client.Orderly K M pending x) (c : Client Loop) (hready : Ready limits config pending c)
    (hfits : Fits limits config (x.exec c).2) : Calm limits config c (x.exec c).2 := by
  have hkeeps : ∀ {pending : Bool} {α : Type} {x : ClientM Loop α}, Client.Orderly K M pending x → Keeps x :=
    fun hx => .of_orderly (fun f hf c => (hM f hf c).1) hx
  induction h generalizing c with
  | pure a => exact .refl hready
  | throw e => exact .refl hready
  | fatal hcmd he => cases hK _ hcmd
  | get hf ih => exact ih c c hready hfits
  | change hchange hf ih =>
      obtain ⟨hconn, hgroup⟩ := hM _ hchange c
      refine (ih _ (hready.of_connection hconn) hfits).behind hgroup ?_
      rw [hconn]
  | block hf ih =>
      obtain ⟨lines, hlevel⟩ := hready
      obtain ⟨connection, hread, hstream, hafter⟩ := hlevel.readBlock
      rw [Fallible.exec_bind_ok hread] at hfits ⊢
      refine (ih _ _ (Or.inl hafter) hfits).behind rfl ?_
      show connection.stream.session.state.currentGroup = _
      rw [hstream]
  | command hcmd hf ih =>
      exact calm_command (hK _ hcmd) (fun line => hkeeps (hf line)) (fun line c hready hfits => ih line c hready hfits)
        hready hfits
  | sendArticle hpost hf ih => cases hK _ hpost
  | @bind _ _ x f hx hf ihx ihf =>
      have hfirst := ihx c hready (hfits.first fun a => hkeeps (hf a))
      rcases hexec : x.exec c with ⟨e | a, mid⟩
      · rw [Fallible.exec_bind_error hexec]
        rwa [hexec] at hfirst
      · rw [hexec] at hfirst
        rw [Fallible.exec_bind_ok hexec] at hfits ⊢
        exact hfirst.trans (ihf a mid hfirst.settled hfits)

end Calm

end Nntp
