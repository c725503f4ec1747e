import Nntp.Client.Client

/-!
# Where a call leaves the stream

What the client takes for responses, against the octets the server sent: a call that goes on to use the
connection should stand right behind a whole response to everything it sent. `Took` says that it does.
`Careful` is the rule every operation keeps: it reads a block exactly behind the codes its command is known
for. What that leaves open is a block under any other code.
-/

namespace Nntp.Client

open Nntp.Lib Nntp.Proto

/-! ## Errors of the connection -/

namespace Connection

variable {σ : Type}

/-- A use of the connection that fails only where the connection is to be given up. -/
def OnlyFatal {α : Type} (x : Conn σ α) : Prop :=
  ∀ c e c', x.exec c = (.error e, c') → e.isConnectionFatal = true

namespace OnlyFatal

variable {α β : Type}

theorem throw {e : ClientError} (h : e.isConnectionFatal = true) :
    OnlyFatal (throw e : Conn σ α) := by
  intro c e' c' hexec
  cases hexec
  exact h

theorem bind {x : Conn σ α} {f : α → Conn σ β} (hx : OnlyFatal x) (hf : ∀ a, OnlyFatal (f a)) :
    OnlyFatal (x >>= f) := by
  intro c e c' h
  rcases Fallible.exec_bind_cases h with ⟨a, mid, _, hrest⟩ | ⟨e', herr, he⟩
  · exact hf a mid e c' hrest
  · cases he
    exact hx c _ c' herr

end OnlyFatal

/-- A computation that only reads: it leaves alone what was written and who is at the other end, fails
only where the connection is to be given up, and marks the connection only if it fails. -/
structure OnlyReads {α : Type} (x : Conn σ α) : Prop where
  onlyFatal : OnlyFatal x
  stream : ∀ c, (x.exec c).2.stream = c.stream
  written : ∀ c, (x.exec c).2.written = c.written
  limits : ∀ c, (x.exec c).2.limits = c.limits
  marked : ∀ c a c', x.exec c = (.ok a, c') → c'.desynchronised = c.desynchronised

namespace OnlyReads

variable {α β : Type}

theorem pure (a : α) : OnlyReads (Pure.pure a : Conn σ α) where
  onlyFatal := fun c e c' h => by cases h
  stream _ := rfl
  written _ := rfl
  limits _ := rfl
  marked := fun c a c' h => by cases h; rfl

theorem throw {e : ClientError} (h : e.isConnectionFatal = true) :
    OnlyReads (throw e : Conn σ α) where
  onlyFatal := .throw h
  stream _ := rfl
  written _ := rfl
  limits _ := rfl
  marked := fun c a c' h => by cases h

theorem desynchronise {e : ClientError} (h : e.isConnectionFatal = true) :
    OnlyReads (Connection.desynchronise e : Conn σ α) where
  onlyFatal := fun c e' c' hexec => by cases hexec; exact h
  stream _ := rfl
  written _ := rfl
  limits _ := rfl
  marked := fun c a c' h => by cases h

theorem get : OnlyReads (MonadState.get : Conn σ (Connection σ)) where
  onlyFatal := fun c e c' h => by cases h
  stream _ := rfl
  written _ := rfl
  limits _ := rfl
  marked := fun c a c' h => by cases h; rfl

theorem bind {x : Conn σ α} {f : α → Conn σ β} (hx : OnlyReads x) (hf : ∀ a, OnlyReads (f a)) :
    OnlyReads (x >>= f) := by
  refine ⟨hx.onlyFatal.bind fun a => (hf a).onlyFatal,
    Fallible.exec_bind_keeps Connection.stream hx.stream fun a => (hf a).stream,
    Fallible.exec_bind_keeps Connection.written hx.written fun a => (hf a).written,
    Fallible.exec_bind_keeps Connection.limits hx.limits fun a => (hf a).limits, fun c b c' h => ?_⟩
  · rcases Fallible.exec_bind_cases h with ⟨a, mid, hmid, hrest⟩ | ⟨_, _, hr⟩
    · exact ((hf a).marked mid b c' hrest).trans (hx.marked c a mid hmid)
    · cases hr

end OnlyReads

theorem fromIo_fatal (kind : IoErrorKind) : (ClientError.fromIo kind).isConnectionFatal = true := by
  cases kind <;> rfl

theorem onlyReads_ensureSynchronised : OnlyReads (ensureSynchronised : Conn σ Unit) := by
  refine OnlyReads.get.bind fun c => ?_
  split
  · exact .throw rfl
  · exact .pure _

theorem onlyReads_readToLf : OnlyReads (readToLf : Conn σ LineEnd) where
  onlyFatal := fun c e c' h => by cases h
  stream _ := rfl
  written _ := rfl
  limits _ := rfl
  marked := fun c a c' h => by cases h; rfl

theorem onlyReads_readLine (context : String) : OnlyReads (readLine context : Conn σ Bytes) := by
  refine onlyReads_ensureSynchronised.bind fun _ => OnlyReads.get.bind fun c => ?_
  refine onlyReads_readToLf.bind fun ended => ?_
  cases ended with
  | line bytes =>
      dsimp only
      split
      · exact .desynchronise rfl
      · exact .pure _
  | failed kind => exact .throw (fromIo_fatal kind)
  | closed => exact .desynchronise rfl
  | tooLong => exact .desynchronise rfl

theorem onlyReads_readStatus : OnlyReads (readStatus : Conn σ StatusLine) := by
  refine (onlyReads_readLine _).bind fun line => ?_
  split
  · exact .pure _
  · exact .throw rfl

theorem onlyReads_isCancelled : OnlyReads (isCancelled : Conn σ Bool) where
  onlyFatal := fun c e c' h => by cases h
  stream _ := rfl
  written _ := rfl
  limits _ := rfl
  marked := fun c a c' h => by cases h; rfl

theorem onlyReads_blockLine : OnlyReads (blockLine : Conn σ (Option Bytes)) := by
  refine onlyReads_isCancelled.bind fun flag => ?_
  split
  · exact .desynchronise rfl
  · exact (onlyReads_readLine _).bind fun line => .pure _

theorem onlyReads_blockLoop (remaining : Nat) (onLine : List Bytes) (bytes : Nat) :
    OnlyReads (blockLoop onLine bytes remaining : Conn σ (List Bytes)) := by
  induction remaining generalizing onLine bytes with
  | zero =>
      refine onlyReads_blockLine.bind fun line? => ?_
      cases line? with
      | none => exact .pure _
      | some line => exact OnlyReads.get.bind fun c => .desynchronise rfl
  | succ remaining ih =>
      refine onlyReads_blockLine.bind fun line? => ?_
      cases line? with
      | none => exact .pure _
      | some line =>
          refine OnlyReads.get.bind fun c => ?_
          dsimp only
          split
          · exact OnlyReads.get.bind fun c => .desynchronise rfl
          · exact ih _ _

theorem onlyReads_readBlock : OnlyReads (readBlockStreaming : Conn σ (List Bytes)) :=
  OnlyReads.get.bind fun _ => onlyReads_blockLoop _ _ _

section Write

variable [Peer σ]

theorem onlyFatal_write (bytes : Bytes) : OnlyFatal (write bytes : Conn σ Unit) := by
  intro c e c' h
  cases hr : (Peer.react c.stream bytes).1 with
  | ok u => simp [write, hr, Except.mapError] at h
  | error kind =>
      simp only [write, Fallible.exec_ofExec, hr, Except.mapError, Prod.mk.injEq,
        Except.error.injEq] at h
      rw [← h.1]
      exact fromIo_fatal kind

theorem onlyFatal_sendBlock (lines : List Bytes) : OnlyFatal (sendBlock lines : Conn σ Unit) :=
  onlyReads_ensureSynchronised.onlyFatal.bind fun _ => onlyFatal_write _

theorem onlyFatal_command (cmd : Command) : OnlyFatal (Connection.command cmd : Conn σ StatusLine) := by
  refine OnlyFatal.bind (onlyReads_ensureSynchronised.onlyFatal.bind fun _ => ?_)
    fun _ => onlyReads_readStatus.onlyFatal
  split
  · exact onlyFatal_write _
  · exact .throw rfl

end Write

/-! ## Octets of a response -/

/-- A status line, its line ending included. -/
def IsStatus (line : StatusLine) (octets : Bytes) : Prop :=
  ∃ head : Bytes, octets = head ++ [0x0A] ∧ (0x0A : UInt8) ∉ head ∧
    StatusLine.parse (popCr head) = .ok line

/-- A data block, its terminator included, as the lines it hands over. -/
def IsBlock (block : List Bytes) (octets : Bytes) : Prop :=
  ∃ (lines : List Bytes) (last : Bytes), octets = rawLines lines ++ last ++ [0x0A] ∧
    block = handedOver lines ∧
    (∀ line ∈ lines, (0x0A : UInt8) ∉ line ∧ isTerminator (popCr line) = false) ∧
    (0x0A : UInt8) ∉ last ∧ isTerminator (popCr last) = true

/-- The events bring a status line within the limits, and go on with `tail`. -/
def BringsStatus (limits : Limits) (line : StatusLine) (events tail : List (Event UInt8 IoErrorKind)) :
    Prop :=
  ∃ head : Bytes, (0x0A : UInt8) ∉ head ∧ head.length ≤ limits.maxLineLen ∧
    StatusLine.parse (popCr head) = .ok line ∧ events = head.map .item ++ .item 0x0A :: tail

/-- The events bring a whole data block within the limits, and no test of the flag sees it raised while the
block is read. -/
def BringsBlock (c : Connection σ) (events : List (Event UInt8 IoErrorKind)) : Prop :=
  ∃ (lines : List Bytes) (last : Bytes) (tail : List (Event UInt8 IoErrorKind)),
    BlockLines c.limits 0 c.limits.maxBlockLines lines ∧ (0x0A : UInt8) ∉ last ∧
    last.length ≤ c.limits.maxLineLen ∧ isTerminator (popCr last) = true ∧
    c.Unflagged (lines.length + 1) ∧
    events = (rawLines lines ++ last).map .item ++ .item 0x0A :: tail

/-- A status line that was read, and where it leaves the stream. -/
theorem readStatus_ok {c c' : Connection σ} {line : StatusLine} (hsync : c.desynchronised = false)
    (h : (readStatus : Conn σ _).exec c = (.ok line, c')) :
    BringsStatus c.limits line c.upcoming c'.upcoming ∧
      c' = { c with buffer := c'.buffer, reads := c'.reads } := by
  rcases Fallible.exec_bind_cases h with ⟨raw, mid, hread, hparse⟩ | ⟨_, _, hr⟩
  · rcases readLine_cases hsync hread with ⟨head, hraw, hnot, hlen, hup, hmid⟩ | ⟨_, hr, _⟩ |
      ⟨_, _, hr, _⟩
    · cases hraw
      cases hp : StatusLine.parse (popCr head) with
      | error e => rw [hp] at hparse; cases hparse
      | ok status =>
          rw [hp] at hparse
          cases hparse
          exact ⟨⟨head, hnot, hlen, hp, hup⟩, hmid⟩
    · cases hr
    · cases hr
  · cases hr

/-- A status line that the stream brings is read. -/
theorem exec_readStatus_of_brings {c : Connection σ} {line : StatusLine}
    {tail : List (Event UInt8 IoErrorKind)} (hsync : c.desynchronised = false)
    (h : BringsStatus c.limits line c.upcoming tail) :
    ∃ buffer reads, (readStatus : Conn σ _).exec c = (.ok line, { c with buffer, reads }) ∧
      events (held buffer reads) = tail := by
  obtain ⟨head, hnot, hlen, hparse, hup⟩ := h
  obtain ⟨buffer, reads, hread, hheld⟩ := exec_readLine_of_line hsync hnot hlen hup "a status line"
  refine ⟨buffer, reads, ?_, hheld⟩
  rw [readStatus, Fallible.exec_bind_ok hread, hparse]
  rfl

theorem BringsStatus.octets {limits : Limits} {line : StatusLine}
    {upcoming tail : List (Event UInt8 IoErrorKind)} (h : BringsStatus limits line upcoming tail) :
    ∃ octets, IsStatus line octets ∧ upcoming = octets.map .item ++ tail := by
  obtain ⟨head, hnot, _, hparse, hup⟩ := h
  exact ⟨head ++ [0x0A], ⟨head, rfl, hnot, hparse⟩, by simpa using hup⟩

/-- A data block that was read, and where it leaves the stream. -/
theorem readBlock_ok {c c' : Connection σ} {block : List Bytes} (hsync : c.desynchronised = false)
    (h : (readBlockStreaming : Conn σ _).exec c = (.ok block, c')) :
    c.BringsBlock c.upcoming ∧ c'.desynchronised = false ∧
      ∃ octets, IsBlock block octets ∧ c.upcoming = octets.map .item ++ c'.upcoming := by
  have hloop : (blockLoop [] 0 c.limits.maxBlockLines).exec c = (.ok block, c') := h
  rcases blockLoop_cases hsync (Nat.zero_le _) hloop with
    ⟨lines, last, hr, hlines, hlf, hshort, hlast, hflag, hup⟩ | ⟨_, hr, _⟩ | ⟨_, _, _, hr, _⟩
  · cases hr
    refine ⟨⟨lines, last, c'.upcoming, hlines, hlf, hshort, hlast, hflag, hup⟩,
      (onlyReads_readBlock.marked c _ c' h).trans hsync, rawLines lines ++ last ++ [0x0A],
      ⟨lines, last, rfl, rfl, ?_, hlf, hlast⟩, ?_⟩
    · exact fun line hline => ⟨hlines.noLf line hline, hlines.content line hline⟩
    · simpa using hup
  · cases hr
  · cases hr

/-- A data block that the stream brings is read. -/
theorem exec_readBlock_of_brings {c : Connection σ} (hsync : c.desynchronised = false)
    (h : c.BringsBlock c.upcoming) :
    ∃ block c', (readBlockStreaming : Conn σ _).exec c = (.ok block, c') := by
  obtain ⟨lines, last, tail, hlines, hlf, hshort, hlast, hflag, hup⟩ := h
  obtain ⟨c', hread, _⟩ := exec_blockLoop_of_block hsync hflag hlines hlf hshort hlast hup []
  exact ⟨_, c', hread⟩

/-! ## Writing -/

section Feed

variable [Peer σ]

/-- What the other end answers to some writes: where they leave it, and the reads they bring. -/
def feed (stream : σ) : List Bytes → σ × Reads
  | [] => (stream, [])
  | bytes :: writes =>
      let answer := (Peer.react stream bytes).2
      let later := feed answer.1 writes
      (later.1, answer.2 ++ later.2)

theorem feed_append (stream : σ) (writes more : List Bytes) :
    feed stream (writes ++ more) =
      ((feed (feed stream writes).1 more).1, (feed stream writes).2 ++ (feed (feed stream writes).1 more).2) := by
  induction writes generalizing stream with
  | nil => rfl
  | cons bytes writes ih =>
      rw [List.cons_append, feed, feed, ih]
      simp [List.append_assoc]

/-- What a write leaves, whether it succeeds or not. -/
theorem exec_write (c : Connection σ) (bytes : Bytes) :
    ((write bytes : Conn σ Unit).exec c).2 =
      { c with
        stream := (feed c.stream [bytes]).1
        reads := c.reads ++ (feed c.stream [bytes]).2
        written := c.written ++ [bytes] } := by
  simp [write, feed]

theorem upcoming_write (c : Connection σ) (bytes : Bytes) :
    ((write bytes : Conn σ Unit).exec c).2.upcoming =
      c.upcoming ++ events (feed c.stream [bytes]).2 := by
  rw [exec_write]
  simp [upcoming, pending, events_append, List.append_assoc]

/-- Some octets were sent and a status line was read: what that says of the connection. -/
structure Answered (c c' : Connection σ) (sent : Bytes) (line : StatusLine) : Prop where
  usable : c'.desynchronised = false
  limits : c'.limits = c.limits
  written : c'.written = c.written ++ [sent]
  stream : c'.stream = (feed c.stream [sent]).1
  octets : ∃ octets, IsStatus line octets ∧
    c.upcoming ++ events (feed c.stream [sent]).2 = octets.map .item ++ c'.upcoming

/-- A write and the status line behind it. -/
theorem answered_of_readStatus {c c' : Connection σ} {sent : Bytes} {line : StatusLine}
    (hsync : c.desynchronised = false)
    (h : (readStatus : Conn σ _).exec ((write sent : Conn σ Unit).exec c).2 = (.ok line, c')) :
    Answered c c' sent line := by
  have hmid := exec_write c sent
  have hread := onlyReads_readStatus (σ := σ)
  obtain ⟨hbrings, hc'⟩ := readStatus_ok (by rw [hmid]; exact hsync) h
  obtain ⟨octets, hstatus, hup⟩ := hbrings.octets
  have husable : c'.desynchronised = false := by
    rw [hc', hmid]
    exact hsync
  rw [upcoming_write] at hup
  refine ⟨husable, ?_, ?_, ?_, octets, hstatus, hup⟩
  · have := hread.limits ((write sent : Conn σ Unit).exec c).2
    rw [h, hmid] at this
    exact this
  · have := hread.written ((write sent : Conn σ Unit).exec c).2
    rw [h, hmid] at this
    exact this
  · have := hread.stream ((write sent : Conn σ Unit).exec c).2
    rw [h, hmid] at this
    exact this

/-- The connection behind a write that was taken and the reading of a status line. -/
def Replied (c c' : Connection σ) (sent : Bytes) : Prop :=
  (Peer.react c.stream sent).1 = .ok () ∧
    c' = { c with
      stream := (feed c.stream [sent]).1
      written := c.written ++ [sent]
      buffer := c'.buffer
      reads := c'.reads }

/-- The flag and the limits are what they were. -/
theorem Replied.bringsBlock {c c' : Connection σ} {sent : Bytes} (h : Replied c c' sent)
    (events : List (Event UInt8 IoErrorKind)) : c'.BringsBlock events ↔ c.BringsBlock events := by
  rw [h.2]
  exact Iff.rfl

/-- A command that can be encoded is handed to the stream, whatever becomes of it. -/
theorem command_written {c : Connection σ} {cmd : Command} {sent : Bytes}
    (hsync : c.desynchronised = false) (hwire : cmd.toWire = .ok sent) :
    ((Connection.command cmd).exec c).2.written = c.written ++ [sent] := by
  have hsend : (Connection.send cmd).exec c = (write sent : Conn σ Unit).exec c := by
    rw [send, Fallible.exec_bind_ok (exec_ensureSynchronised hsync), hwire]
  have hwritten : ((write sent : Conn σ Unit).exec c).2.written = c.written ++ [sent] := by
    rw [exec_write]
  rw [Connection.command, Fallible.exec_bind, hsend]
  rcases hexec : (write sent : Conn σ Unit).exec c with ⟨_ | _, mid⟩
  · rw [hexec] at hwritten
    exact hwritten
  · rw [hexec] at hwritten
    exact (onlyReads_readStatus.written mid).trans hwritten

/-- **A command that gets a status line** was encoded and taken, and the stream brings the line. -/
theorem command_ok {c c' : Connection σ} {cmd : Command} {line : StatusLine}
    (hsync : c.desynchronised = false) (h : (Connection.command cmd).exec c = (.ok line, c')) :
    ∃ sent, cmd.toWire = .ok sent ∧ Answered c c' sent line ∧ Replied c c' sent ∧
      BringsStatus c.limits line (c.upcoming ++ events (feed c.stream [sent]).2) c'.upcoming := by
  rcases Fallible.exec_bind_cases h with ⟨_, mid, hsend, hread⟩ | ⟨_, _, hr⟩
  · rw [send, Fallible.exec_bind_ok (exec_ensureSynchronised hsync)] at hsend
    cases hwire : cmd.toWire with
    | error e =>
        rw [hwire] at hsend
        cases hsend
    | ok sent =>
        rw [hwire] at hsend
        have hmid : mid = ((write sent : Conn σ Unit).exec c).2 := (congrArg Prod.snd hsend).symm
        have htaken : (Peer.react c.stream sent).1 = .ok () := by
          have hresult := congrArg Prod.fst hsend
          simp only [write, Fallible.exec_ofExec] at hresult
          cases hreact : (Peer.react c.stream sent).1 with
          | ok u => rfl
          | error kind => simp [hreact, Except.mapError] at hresult
        rw [hmid] at hread
        refine ⟨sent, rfl, answered_of_readStatus hsync hread, ⟨htaken, ?_⟩, ?_⟩
        · have hc' := (readStatus_ok (by rw [exec_write]; exact hsync) hread).2
          rw [hc', exec_write]
        · have hbrings := (readStatus_ok (by rw [exec_write]; exact hsync) hread).1
          rw [upcoming_write, exec_write] at hbrings
          exact hbrings
  · cases hr

/-- A command that is encoded and taken gets the status line that the stream brings. -/
theorem exec_command_of_brings {c : Connection σ} {cmd : Command} {sent : Bytes} {line : StatusLine}
    {tail : List (Event UInt8 IoErrorKind)} (hsync : c.desynchronised = false)
    (hwire : cmd.toWire = .ok sent) (htaken : (Peer.react c.stream sent).1 = .ok ())
    (h : BringsStatus c.limits line (c.upcoming ++ events (feed c.stream [sent]).2) tail) :
    ∃ c', (Connection.command cmd).exec c = (.ok line, c') ∧ Replied c c' sent ∧ c'.upcoming = tail := by
  have hsend : (Connection.send cmd).exec c = (.ok (), ((write sent : Conn σ Unit).exec c).2) := by
    rw [send, Fallible.exec_bind_ok (exec_ensureSynchronised hsync), hwire]
    simp [write, htaken, Except.mapError]
  rw [← upcoming_write] at h
  obtain ⟨buffer, reads, hread, htail⟩ := exec_readStatus_of_brings
    (c := ((write sent : Conn σ Unit).exec c).2) (by rw [exec_write]; exact hsync)
    (by rw [exec_write] at h ⊢; exact h)
  refine ⟨_, (Fallible.exec_bind_ok hsend).trans hread, ⟨htaken, ?_⟩, htail⟩
  rw [exec_write]

end Feed

end Connection

/-! ## Announced blocks -/

/-- The code of a command whose response announces a block under it. -/
def successCode : Command → Nat
  | .capabilities _ => 101
  | .listGroup _ _ => 211
  | .article _ => 220
  | .head _ => 221
  | .body _ => 222
  | .help => 100
  | .newGroups _ => 231
  | .list _ => 215
  | .over _ => 224
  | .xover _ => 224
  | .hdr _ _ => 225
  | .xhdr _ _ => 221
  | .modeReader => 200
  | .quit => 205
  | .startTls => 382
  | .authInfoUser _ => 281
  | .authInfoPass _ => 281
  | .group _ => 211
  | .last => 223
  | .next => 223
  | .stat _ => 223
  | .post => 240
  | .date => 111

/-- A data block follows the status line: its code always carries one, or is the success code of a command
that expects one. -/
def announcesBlock (command : Command) (code : Nat) : Bool :=
  alwaysHasDataBlock code || (command.expectsDataBlock && code == successCode command)

/-- The codes behind which the operations of the client read a block. -/
def readsBlock (command : Command) (code : Nat) : Bool :=
  command.expectsDataBlock &&
    match command with
    | .hdr _ _ => code == 225 || code == 221
    | .xhdr _ _ => code == 225 || code == 221
    | command => code == successCode command

/-- A block is read only where one is announced. -/
theorem announcesBlock_of_readsBlock {command : Command} {code : Nat}
    (h : readsBlock command code = true) : announcesBlock command code = true := by
  unfold readsBlock at h
  unfold announcesBlock
  rw [Bool.and_eq_true] at h
  rw [h.1]
  have hcode := h.2
  split at hcode
  · rcases (Bool.or_eq_true _ _).mp hcode with hc | hc <;> rw [beq_iff_eq.mp hc] <;> rfl
  · rcases (Bool.or_eq_true _ _).mp hcode with hc | hc <;> rw [beq_iff_eq.mp hc] <;> rfl
  · rw [hcode, Bool.true_and, Bool.or_true]

/-! ## Responses as they were taken -/

namespace Exchange

/-- The octets of a response: its status line, and the block that was read behind it. -/
def Spans (e : Exchange) (octets : Bytes) : Prop :=
  match e.block with
  | none => Connection.IsStatus e.line octets
  | some block => ∃ status rest, octets = status ++ rest ∧ Connection.IsStatus e.line status ∧
      Connection.IsBlock block rest

/-- The block behind a status line was read exactly if the client reads one there. -/
def Regular (e : Exchange) : Prop := e.block.isSome = readsBlock e.command e.line.code

end Exchange

namespace Client

variable {σ : Type} [Peer σ] {α β : Type}

/-- **The client has taken these responses since**: one to everything it sent, and the stream stands right
behind the last of them. -/
structure Took (c c' : Client σ) (exchanges : List Exchange) : Prop where
  heard : c'.heard = c.heard ++ exchanges
  usable : c'.connection.desynchronised = false
  limits : c'.connection.limits = c.connection.limits
  written : c'.connection.written = c.connection.written ++ exchanges.map (·.sent)
  stream : c'.connection.stream = (Connection.feed c.connection.stream (exchanges.map (·.sent))).1
  octets : ∃ pieces, List.Forall₂ Exchange.Spans exchanges pieces ∧
    c.connection.upcoming ++
        events (Connection.feed c.connection.stream (exchanges.map (·.sent))).2 =
      pieces.flatten.map .item ++ c'.connection.upcoming

namespace Took

theorem refl {c c' : Client σ} (husable : c.connection.desynchronised = false)
    (hconn : c'.connection = c.connection) (hheard : c'.heard = c.heard) : Took c c' [] where
  heard := by simp [hheard]
  usable := by rw [hconn, husable]
  limits := by rw [hconn]
  written := by simp [hconn]
  stream := by simp [hconn, Connection.feed]
  octets := ⟨[], .nil, by simp [hconn, Connection.feed]⟩

theorem trans {c mid c' : Client σ} {exchanges more : List Exchange} (h : Took c mid exchanges)
    (h' : Took mid c' more) : Took c c' (exchanges ++ more) where
  heard := by rw [h'.heard, h.heard, List.append_assoc]
  usable := h'.usable
  limits := h'.limits.trans h.limits
  written := by rw [h'.written, h.written, List.map_append, List.append_assoc]
  stream := by rw [h'.stream, h.stream, List.map_append, Connection.feed_append]
  octets := by
    obtain ⟨pieces, hspans, hup⟩ := h.octets
    obtain ⟨pieces', hspans', hup'⟩ := h'.octets
    refine ⟨pieces ++ pieces', List.rel_append hspans hspans', ?_⟩
    rw [List.map_append, Connection.feed_append, events_append, ← List.append_assoc, hup,
      List.append_assoc, ← h.stream, hup', List.flatten_append, List.map_append, List.append_assoc]

/-- The responses that were taken are those that were noted. -/
theorem unique {c c' : Client σ} {exchanges : List Exchange} (h : Took c c' exchanges) :
    c'.heard.drop c.heard.length = exchanges := by
  rw [h.heard, List.drop_left]

/-- A status line was taken. -/
theorem answered {c c' : Client σ} {e : Exchange} (hblock : e.block = none)
    (hanswered : Connection.Answered c.connection c'.connection e.sent e.line)
    (hheard : c'.heard = c.heard ++ [e]) : Took c c' [e] where
  heard := hheard
  usable := hanswered.usable
  limits := hanswered.limits
  written := hanswered.written
  stream := hanswered.stream
  octets := by
    obtain ⟨octets, hstatus, hup⟩ := hanswered.octets
    refine ⟨[octets], .cons ?_ .nil, by simpa using hup⟩
    unfold Exchange.Spans
    rw [hblock]
    exact hstatus

/-- The block behind the status line was read too. -/
theorem block {c mid c' : Client σ} {e : Exchange} {block : List Bytes} {connection : Connection σ}
    (h : Took c mid [e]) (hblock : e.block = none)
    (hread : Connection.readBlockStreaming.exec mid.connection = (.ok block, connection))
    (hconn : c'.connection = connection)
    (hheard : c'.heard = c.heard ++ [{ e with block := some block }]) :
    Took c c' [{ e with block := some block }] := by
  have hreads := Connection.onlyReads_readBlock (σ := σ)
  obtain ⟨_, husable, rest, hrest, hup'⟩ := Connection.readBlock_ok h.usable hread
  have hlimits := hreads.limits mid.connection
  have hwritten := hreads.written mid.connection
  have hstream := hreads.stream mid.connection
  rw [hread] at hlimits hwritten hstream
  obtain ⟨pieces, hspans, hup⟩ := h.octets
  obtain ⟨status, _, hstatus, hnil, rfl⟩ := List.forall₂_cons_left_iff.mp hspans
  cases List.forall₂_nil_left_iff.mp hnil
  unfold Exchange.Spans at hstatus
  rw [hblock] at hstatus
  refine ⟨hheard, ?_, ?_, ?_, ?_, [status ++ rest], .cons ⟨status, rest, rfl, hstatus, hrest⟩ .nil, ?_⟩
  · rw [hconn, husable]
  · rw [hconn]
    exact hlimits.trans h.limits
  · rw [hconn]
    exact hwritten.trans h.written
  · rw [hconn]
    exact hstream.trans h.stream
  · rw [hconn]
    rw [hup'] at hup
    simpa using hup

end Took

/-! ## Careful operations -/

/-- The outcome is no reason to give the connection up. -/
def NonFatal (r : Except ClientError α) : Prop := ∀ e, r = .error e → e.isConnectionFatal = false

/-- An operation that gives a reason to give the connection up, or stands behind whole responses, each read
with its block exactly if the client reads one there. -/
def Careful (x : ClientM σ α) : Prop :=
  ∀ c r c', c.connection.desynchronised = false → x.exec c = (r, c') → NonFatal r →
    ∃ exchanges, Took c c' exchanges ∧ ∀ e ∈ exchanges, e.Regular

/-- The rest of an operation, when a status line was taken and no block behind it. -/
def CarefulAfter (cmd : Command) (line : StatusLine) (x : ClientM σ α) : Prop :=
  ∀ sent c mid r c', Took c mid [⟨cmd, sent, line, none⟩] → x.exec mid = (r, c') → NonFatal r →
    ∃ exchanges, Took c c' exchanges ∧ ∀ e ∈ exchanges, e.Regular

/-- A change of the client that is none of its connection. -/
structure Local (f : Client σ → Client σ) : Prop where
  connection : ∀ c, (f c).connection = c.connection
  heard : ∀ c, (f c).heard = c.heard

theorem onConnection_exec (x : Conn σ α) (c : Client σ) :
    (onConnection x).exec c = ((x.exec c.connection).1, { c with connection := (x.exec c.connection).2 }) :=
  rfl

namespace Careful

theorem pure (a : α) : Careful (Pure.pure a : ClientM σ α) := by
  intro c r c' husable h _
  cases h
  exact ⟨[], .refl husable rfl rfl, List.forall_mem_nil _⟩

theorem throw (e : ClientError) : Careful (throw e : ClientM σ α) := by
  intro c r c' husable h _
  cases h
  exact ⟨[], .refl husable rfl rfl, List.forall_mem_nil _⟩

theorem throw_bind (e : ClientError) (f : β → ClientM σ α) :
    Careful ((MonadExcept.throw e : ClientM σ β) >>= f) := by
  intro c r c' husable h _
  cases h
  exact ⟨[], .refl husable rfl rfl, List.forall_mem_nil _⟩

theorem get : Careful (MonadState.get : ClientM σ (Client σ)) := by
  intro c r c' husable h _
  cases h
  exact ⟨[], .refl husable rfl rfl, List.forall_mem_nil _⟩

theorem modify {f : Client σ → Client σ} (hf : Local f) : Careful (modify f : ClientM σ PUnit) := by
  intro c r c' husable h _
  cases h
  exact ⟨[], .refl husable (hf.connection c) (hf.heard c), List.forall_mem_nil _⟩

theorem liftProto (a : Except ProtoError α) : Careful (Client.liftProto a : ClientM σ α) := by
  cases a with
  | ok a => exact .pure a
  | error e => exact .throw _

theorem bind {x : ClientM σ α} {f : α → ClientM σ β} (hx : Careful x) (hf : ∀ a, Careful (f a)) :
    Careful (x >>= f) := by
  intro c r c' husable h hr
  rcases Fallible.exec_bind_cases h with ⟨a, mid, hmid, hrest⟩ | ⟨e, herr, rfl⟩
  · obtain ⟨exchanges, htook, hreg⟩ := hx c _ mid husable hmid fun e he => by cases he
    obtain ⟨more, htook', hreg'⟩ := hf a mid r c' htook.usable hrest hr
    exact ⟨exchanges ++ more, htook.trans htook', List.forall_mem_append.mpr ⟨hreg, hreg'⟩⟩
  · exact hx c _ c' husable herr fun e' he => by cases he; exact hr e rfl

/-- Something is sent and a status line read, and something done with the line. -/
theorem exchange {x : Conn σ StatusLine} {cmd : Command} {sent : Bytes} {f : StatusLine → ClientM σ β}
    (hfatal : Connection.OnlyFatal x)
    (hok : ∀ c line c', c.desynchronised = false → x.exec c = (.ok line, c') →
      Connection.Answered c c' sent line)
    (hf : ∀ line, CarefulAfter cmd line (f line)) :
    Careful ((onConnection x >>= fun line => note ⟨cmd, sent, line, none⟩ >>= fun _ =>
      (Pure.pure line : ClientM σ StatusLine)) >>= f) := by
  intro c r c' husable h hr
  rcases hx : x.exec c.connection with ⟨e | line, connection⟩
  · -- a failure here is a reason to give the connection up
    have hfail : (onConnection x).exec c = (.error e, { c with connection }) := by
      rw [onConnection_exec, hx]
    rw [Fallible.exec_bind_error (Fallible.exec_bind_error hfail)] at h
    cases h
    have := hfatal _ _ _ hx
    rw [hr e rfl] at this
    cases this
  · have htaken : (onConnection x).exec c = (.ok line, { c with connection }) := by
      rw [onConnection_exec, hx]
    have hnoted : (onConnection x >>= fun line => note ⟨cmd, sent, line, none⟩ >>= fun _ =>
        (Pure.pure line : ClientM σ StatusLine)).exec c =
        (.ok line, { c with connection, heard := c.heard ++ [⟨cmd, sent, line, none⟩] }) :=
      Fallible.exec_bind_ok htaken
    rw [Fallible.exec_bind_ok hnoted] at h
    exact hf line sent c _ r c' (Took.answered rfl (hok _ _ _ husable hx) rfl) h hr

/-- A command, and what is done with its status line. -/
theorem command {cmd : Command} {f : StatusLine → ClientM σ β}
    (hf : ∀ line, CarefulAfter cmd line (f line)) : Careful (Client.command cmd >>= f) := by
  refine .exchange (Connection.onlyFatal_command cmd) (fun c line c' husable h => ?_) hf
  obtain ⟨sent, hwire, hanswered, _⟩ := Connection.command_ok husable h
  rw [hwire]
  exact hanswered

/-- The article that `POST` announced, and what is done with the status line it gets. -/
theorem sendArticle {lines : List Bytes} {f : StatusLine → ClientM σ β}
    (hf : ∀ line, CarefulAfter .post line (f line)) : Careful (Client.sendArticle lines >>= f) := by
  refine .exchange ?_ (fun c line c' husable h => ?_) hf
  · exact (Connection.onlyFatal_sendBlock lines).bind fun _ => Connection.onlyReads_readStatus.onlyFatal
  · rcases Fallible.exec_bind_cases h with ⟨_, mid, hsend, hread⟩ | ⟨_, _, hline⟩
    · rw [Connection.sendBlock, Fallible.exec_bind_ok (Connection.exec_ensureSynchronised husable)] at hsend
      refine Connection.answered_of_readStatus husable ?_
      rw [hsend]
      exact hread
    · cases hline

end Careful

namespace CarefulAfter

variable {cmd : Command} {line : StatusLine}

/-- No block is read there, and none was. -/
theorem none {x : ClientM σ α} (hreads : readsBlock cmd line.code = false) (hx : Careful x) :
    CarefulAfter cmd line x := by
  intro sent c mid r c' htook h hr
  obtain ⟨more, htook', hreg⟩ := hx mid r c' htook.usable h hr
  refine ⟨_ :: more, htook.trans htook', List.forall_mem_cons.mpr ⟨?_, hreg⟩⟩
  exact hreads.symm

/-- The block is read. -/
theorem block {f : List Bytes → ClientM σ α} (hreads : readsBlock cmd line.code = true)
    (hf : ∀ lines, Careful (f lines)) : CarefulAfter cmd line (readBlock >>= f) := by
  intro sent c mid r c' htook h hr
  rcases Fallible.exec_bind_cases h with ⟨lines, after, hread, hrest⟩ | ⟨e, herr, rfl⟩
  · rw [readBlock, Fallible.exec_bind, onConnection_exec] at hread
    rcases hblock : Connection.readBlockStreaming.exec mid.connection with ⟨_ | block, connection⟩
    · rw [hblock] at hread
      cases hread
    · rw [hblock] at hread
      obtain ⟨hlines, hafter⟩ := Prod.mk.inj hread
      cases hlines
      have hconn : after.connection = connection := by rw [← hafter]
      have hheard : after.heard = c.heard ++ [⟨cmd, sent, line, some lines⟩] := by
        rw [← hafter]
        simp [htook.heard]
      have hnoted : Took c after [⟨cmd, sent, line, some lines⟩] :=
        htook.block rfl hblock hconn hheard
      obtain ⟨more, htook', hreg⟩ := hf lines after r c' hnoted.usable hrest hr
      refine ⟨_ :: more, hnoted.trans htook', List.forall_mem_cons.mpr ⟨?_, hreg⟩⟩
      exact hreads.symm
  · rw [readBlock, Fallible.exec_bind, onConnection_exec] at herr
    rcases hblock : Connection.readBlockStreaming.exec mid.connection with ⟨e' | block, connection⟩
    · rw [hblock] at herr
      cases herr
      have := Connection.onlyReads_readBlock.onlyFatal _ _ _ hblock
      rw [hr e rfl] at this
      cases this
    · rw [hblock] at herr
      cases herr

/-- The operation gives the connection up. -/
theorem fatal {e : ClientError} (he : e.isConnectionFatal = true) :
    CarefulAfter cmd line (throw e : ClientM σ α) := by
  intro sent c mid r c' _ h hr
  cases h
  rw [hr e rfl] at he
  cases he

theorem modify {f : Client σ → Client σ} {g : PUnit → ClientM σ α} (hf : Local f)
    (hg : CarefulAfter cmd line (g ⟨⟩)) : CarefulAfter cmd line (modify f >>= g) := by
  intro sent c mid r c' htook h hr
  have hmid : Took mid (f mid) [] := .refl htook.usable (hf.connection mid) (hf.heard mid)
  exact hg sent c (f mid) r c' (htook.trans hmid) h hr

theorem liftProto {a : Except ProtoError α} {f : α → ClientM σ β}
    (hf : ∀ a, CarefulAfter cmd line (f a)) : CarefulAfter cmd line (Client.liftProto a >>= f) := by
  cases a with
  | ok a => exact hf a
  | error e => exact fatal rfl

theorem require {name : String} {expected : Nat} {f : Unit → ClientM σ α}
    (hok : line.code = expected → CarefulAfter cmd line (f ()))
    (hreads : line.code ≠ expected → readsBlock cmd line.code = false) :
    CarefulAfter cmd line (requireBlock name line expected >>= f) := by
  unfold requireBlock
  split
  · next h => exact hok h
  · next h => exact none (hreads h) (.throw_bind _ f)

end CarefulAfter

end Client

end Nntp.Client
