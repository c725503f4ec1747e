import Nntp.Lib.Fallible
import Nntp.Lib.Stream
import Nntp.Proto.Block
import Nntp.Proto.Command
import Nntp.Client.Error

/-!
# Framing

`connection.rs`: a byte stream turned into status lines and data blocks. A connection holds the octets
it has buffered and the outcomes of the reads to come, in order: the data of each, or the error it
fails with. No data is the end of the stream. The peer is a parameter: a write is handed to it, and
what it answers is added to the reads to come.
-/

namespace Nntp.Client

open Nntp.Lib Nntp.Proto

/-! ## The stream -/

/-- Limits on response sizes. -/
structure Limits where
  /-- The largest single response line, in octets, excluding its CRLF. -/
  maxLineLen : Nat
  /-- The largest multi-line block, in octets of line content. -/
  maxBlockBytes : Nat
  /-- The largest number of lines in a multi-line block. -/
  maxBlockLines : Nat
  deriving DecidableEq, Repr

/-- 64 KiB per line, 32 MiB and 4 000 000 lines per block. -/
def Limits.default : Limits where
  maxLineLen := 64 * 1024
  maxBlockBytes := 32 * 1024 * 1024
  maxBlockLines := 4000000

/-- What the reads of a socket yield. -/
abbrev Reads := List (ReadOutcome UInt8 IoErrorKind)

/-- The other end of a socket. A write may fail, and makes reads available. -/
class Peer (σ : Type) where
  react : σ → Bytes → Except IoErrorKind Unit × σ × Reads

/-- A peer that takes everything and answers nothing. -/
instance : Peer Unit where
  react _ _ := (.ok (), (), [])

/-- A framed connection. -/
structure Connection (σ : Type) where
  stream : σ
  /-- what the `BufReader` holds and nobody has consumed -/
  buffer : Bytes
  /-- what the reads of the stream will return -/
  reads : Reads
  /-- what has been handed to `write_all` -/
  written : List Bytes
  limits : Limits
  /-- the stream position is no longer known -/
  desynchronised : Bool
  /-- what the tests of the flag will see, if a flag was given; after them it is down -/
  cancel : Option (List Bool)
  deriving Repr

/-- A computation on a connection, as `Result` of the client's errors. -/
abbrev Conn (σ : Type) := Fallible ClientError (Connection σ)

namespace Connection

variable {σ : Type}

/-- What successive calls of `fill_buf` return: the buffer while it holds anything, then the reads. -/
def pending (c : Connection σ) : Reads := held c.buffer c.reads

/-- What the stream still brings, however it is cut into reads. -/
def upcoming (c : Connection σ) : List (Event UInt8 IoErrorKind) := events c.pending

/-- The octets not yet consumed, in the buffer and beyond it. -/
def unread (c : Connection σ) : Bytes := itemsOf c.upcoming

/-! ## Lines -/

/-- How the loop of `read_line` ends. -/
inductive LineEnd where
  | line (bytes : Bytes)
  | failed (kind : IoErrorKind)
  | closed
  | tooLong
  deriving DecidableEq, Repr

/-- The loop of `read_line`, over what `fill_buf` returns: how it ends, and the buffer and the reads
it leaves. -/
def lineLoop (limit : Nat) (line : Bytes) : Reads → LineEnd × Bytes × Reads
  | [] => (.closed, [], [])
  | .err kind :: reads => (.failed kind, [], reads)
  | .data available :: reads =>
      if available = [] then (.closed, [], reads)
      else
        match cutAt 0x0A available with
        | some (head, rest) => (.line (line ++ head), rest, reads)
        | none =>
            let line := line ++ available
            if limit < line.length then (.tooLong, [], reads) else lineLoop limit line reads

/-- Strips the CR of a CRLF. -/
def popCr (line : Bytes) : Bytes := if line.getLast? = some 0x0D then line.dropLast else line

def lostSynchronisation : ClientError :=
  .connectionClosed (some "a connection that lost protocol synchronisation")

def ensureSynchronised : Conn σ Unit := do
  if (← get).desynchronised then throw lostSynchronisation

/-- Records that the stream position is lost, and fails. -/
def desynchronise {α : Type} (error : ClientError) : Conn σ α := do
  modify fun c => { c with desynchronised := true }
  throw error

/-- Runs the loop of `read_line` on the stream. -/
def readToLf : Conn σ LineEnd := .ofExec fun c =>
  let (ended, buffer, reads) := lineLoop c.limits.maxLineLen [] c.pending
  (.ok ended, { c with buffer, reads })

/-- Reads one line, stripping its terminator and enforcing the length limit. -/
def readLine (context : String) : Conn σ Bytes := do
  ensureSynchronised
  let limit := (← get).limits.maxLineLen
  match ← readToLf with
  | .failed kind => throw (.fromIo kind)
  | .closed => desynchronise (.connectionClosed (some context))
  | .tooLong => desynchronise (.lineTooLong limit)
  | .line line =>
      if limit < line.length then desynchronise (.lineTooLong limit) else pure (popCr line)

/-- Reads a status line. -/
def readStatus : Conn σ StatusLine := do
  let line ← readLine "a status line"
  match StatusLine.parse line with
  | .ok status => pure status
  | .error error => throw (.proto error)

/-! ### What the loop of `read_line` does to the stream -/

/-- One turn of the loop on a read that hands over octets. -/
theorem lineLoop_data (limit : Nat) (line : Bytes) {available : Bytes} (hne : available ≠ [])
    (reads : Reads) :
    lineLoop limit line (.data available :: reads) =
      match cutAt 0x0A available with
      | some (head, rest) => (.line (line ++ head), rest, reads)
      | none => if limit < (line ++ available).length then (.tooLong, [], reads)
          else lineLoop limit (line ++ available) reads :=
  if_neg hne

/-- **A line within the limit arrives whole, in whatever pieces, and what follows it is left.** -/
theorem lineLoop_of_line {limit : Nat} {head : Bytes} {tail : List (Event UInt8 IoErrorKind)}
    (hhead : (0x0A : UInt8) ∉ head) {reads : Reads} (line : Bytes)
    (hlimit : line.length + head.length ≤ limit)
    (h : events reads = head.map .item ++ .item 0x0A :: tail) :
    ∃ buffer reads', lineLoop limit line reads = (.line (line ++ head), buffer, reads') ∧
      events (held buffer reads') = tail := by
  induction reads generalizing head line with
  | nil => cases head <;> cases h
  | cons read reads ih =>
      cases read with
      | err kind => cases head <;> cases h
      | data available =>
          cases hav : available with
          | nil => rw [hav] at h; cases head <;> cases h
          | cons b bs =>
              have hne : available ≠ [] := by rw [hav]; exact List.cons_ne_nil b bs
              rw [← hav, lineLoop_data limit line hne]
              rw [events_data hne] at h
              cases hcut : cutAt 0x0A available with
              | some p =>
                  obtain ⟨hnot, heq⟩ := of_cutAt hcut
                  rw [heq, List.map_append, List.append_assoc] at h
                  obtain ⟨rfl, hrest⟩ := items_cut hnot hhead h
                  exact ⟨p.2, reads, rfl, (events_held p.2 reads).trans hrest⟩
              | none =>
                  -- the whole piece stands before the line ending
                  have hnot := not_mem_of_cutAt hcut
                  obtain ⟨head', rfl, hreads⟩ := items_before (item_ne_of_not_mem hnot) h
                  rw [List.length_append] at hlimit
                  have hlen : ¬ limit < (line ++ available).length := by
                    rw [List.length_append]; omega
                  obtain ⟨buffer, reads', hloop, hheld⟩ := ih
                    (fun hmem => hhead (List.mem_append_right _ hmem)) (line ++ available)
                    (by rw [List.length_append]; omega) hreads
                  refine ⟨buffer, reads', ?_, hheld⟩
                  simp only [hlen, if_false, hloop, List.append_assoc]

/-- A failure behind a part of a line comes back as such, and the part is gone. -/
theorem lineLoop_of_failure {limit : Nat} {part : Bytes} {kind : IoErrorKind}
    {tail : List (Event UInt8 IoErrorKind)} (hpart : (0x0A : UInt8) ∉ part) {reads : Reads}
    (line : Bytes) (hlimit : line.length + part.length ≤ limit)
    (h : events reads = part.map .item ++ .failed kind :: tail) :
    ∃ reads', lineLoop limit line reads = (.failed kind, [], reads') ∧ events reads' = tail := by
  induction reads generalizing part line with
  | nil => cases part <;> cases h
  | cons read reads ih =>
      cases read with
      | err k =>
          cases part with
          | nil =>
              cases h
              exact ⟨reads, rfl, rfl⟩
          | cons b bs => cases h
      | data available =>
          cases hav : available with
          | nil => rw [hav] at h; cases part <;> cases h
          | cons b bs =>
              have hne : available ≠ [] := by rw [hav]; exact List.cons_ne_nil b bs
              rw [← hav, lineLoop_data limit line hne]
              rw [events_data hne] at h
              have hitem : ∀ x ∈ available, Event.failed kind ≠ .item x := by
                intro x _ heq
                cases heq
              obtain ⟨part', rfl, hreads⟩ := items_before hitem h
              have hnot : (0x0A : UInt8) ∉ available := fun hm => hpart (List.mem_append_left _ hm)
              rw [List.length_append] at hlimit
              have hlen : (line ++ available).length + part'.length ≤ limit := by
                rw [List.length_append]; omega
              obtain ⟨reads', hloop, hevents⟩ :=
                ih (fun hm => hpart (List.mem_append_right _ hm)) _ hlen hreads
              refine ⟨reads', ?_, hevents⟩
              simp only [cutAt_of_not_mem hnot, hloop]
              rw [if_neg (by omega)]

/-- What the stream brought when a line was read. -/
theorem of_lineLoop_line {limit : Nat} {bytes buffer : Bytes} {reads reads' : Reads} {line : Bytes}
    (h : lineLoop limit line reads = (.line bytes, buffer, reads')) :
    ∃ head : Bytes, bytes = line ++ head ∧ (0x0A : UInt8) ∉ head ∧
      events reads = head.map .item ++ .item 0x0A :: events (held buffer reads') := by
  induction reads generalizing line with
  | nil => cases h
  | cons read reads ih =>
      cases read with
      | err k => cases h
      | data available =>
          cases hav : available with
          | nil => rw [hav] at h; cases h
          | cons b bs =>
              have hne : available ≠ [] := by rw [hav]; exact List.cons_ne_nil b bs
              rw [lineLoop_data limit line hne] at h
              rw [← hav, events_data hne]
              cases hcut : cutAt 0x0A available with
              | some p =>
                  rw [hcut] at h
                  cases h
                  obtain ⟨hnot, heq⟩ := of_cutAt hcut
                  refine ⟨p.1, rfl, hnot, ?_⟩
                  rw [heq, List.map_append, List.append_assoc, events_held]
                  rfl
              | none =>
                  simp only [hcut] at h
                  split at h
                  · cases h
                  · obtain ⟨head, rfl, hnot, hevents⟩ := ih h
                    refine ⟨available ++ head, List.append_assoc .., ?_, ?_⟩
                    · intro hm
                      exact (List.mem_append.mp hm).elim (not_mem_of_cutAt hcut) hnot
                    · rw [hevents, List.map_append, List.append_assoc]

/-- What the stream brought when the reading of a line failed. -/
theorem of_lineLoop_failed {limit : Nat} {kind : IoErrorKind} {buffer : Bytes}
    {reads reads' : Reads} {line : Bytes} (hline : line.length ≤ limit)
    (h : lineLoop limit line reads = (.failed kind, buffer, reads')) :
    ∃ part : Bytes, (0x0A : UInt8) ∉ part ∧ line.length + part.length ≤ limit ∧
      events reads = part.map .item ++ .failed kind :: events (held buffer reads') := by
  induction reads generalizing line with
  | nil => cases h
  | cons read reads ih =>
      cases read with
      | err k =>
          cases h
          exact ⟨[], List.not_mem_nil, hline, rfl⟩
      | data available =>
          cases hav : available with
          | nil => rw [hav] at h; cases h
          | cons b bs =>
              have hne : available ≠ [] := by rw [hav]; exact List.cons_ne_nil b bs
              rw [lineLoop_data limit line hne] at h
              rw [← hav, events_data hne]
              cases hcut : cutAt 0x0A available with
              | some p => rw [hcut] at h; cases h
              | none =>
                  simp only [hcut] at h
                  split at h
                  · cases h
                  · next hlen =>
                      obtain ⟨part, hnot, hlimit, hevents⟩ := ih (by omega) h
                      refine ⟨available ++ part, ?_, ?_, ?_⟩
                      · intro hm
                        exact (List.mem_append.mp hm).elim (not_mem_of_cutAt hcut) hnot
                      · rw [List.length_append] at hlimit ⊢
                        omega
                      · rw [hevents, List.map_append, List.append_assoc]

/-! ### What reading a line does to the connection -/

/-- A connection that lost its place reads nothing. -/
theorem exec_readLine_lost {c : Connection σ} (h : c.desynchronised = true) (context : String) :
    (readLine context).exec c = (.error lostSynchronisation, c) := by
  apply Fallible.exec_bind_error
  simp [ensureSynchronised, Fallible.exec_bind, h]

theorem exec_readLine {c : Connection σ} (h : c.desynchronised = false) (context : String) :
    (readLine context).exec c =
      match lineLoop c.limits.maxLineLen [] c.pending with
      | (.failed kind, buffer, reads) => (.error (.fromIo kind), { c with buffer, reads })
      | (.closed, buffer, reads) =>
          (.error (.connectionClosed (some context)),
            { c with buffer, reads, desynchronised := true })
      | (.tooLong, buffer, reads) =>
          (.error (.lineTooLong c.limits.maxLineLen),
            { c with buffer, reads, desynchronised := true })
      | (.line line, buffer, reads) =>
          if c.limits.maxLineLen < line.length then
            (.error (.lineTooLong c.limits.maxLineLen),
              { c with buffer, reads, desynchronised := true })
          else (.ok (popCr line), { c with buffer, reads }) := by
  simp only [readLine, ensureSynchronised, Fallible.exec_bind, Fallible.exec_get, h, readToLf,
    Fallible.exec_ofExec, Bool.false_eq_true, if_false, Fallible.exec_pure]
  rcases lineLoop c.limits.maxLineLen [] c.pending with ⟨_ | _ | _ | _, buffer, reads⟩
  · simp only
    split <;> rfl
  · rfl
  · rfl
  · rfl

/-- **A line within the limit is read, and the stream goes on right behind its line ending.** -/
theorem exec_readLine_of_line {c : Connection σ} (hsync : c.desynchronised = false)
    {head : Bytes} {tail : List (Event UInt8 IoErrorKind)} (hhead : (0x0A : UInt8) ∉ head)
    (hlimit : head.length ≤ c.limits.maxLineLen)
    (h : c.upcoming = head.map .item ++ .item 0x0A :: tail) (context : String) :
    ∃ buffer reads, (readLine context).exec c = (.ok (popCr head), { c with buffer, reads }) ∧
      events (held buffer reads) = tail := by
  obtain ⟨buffer, reads, hloop, hheld⟩ :=
    lineLoop_of_line hhead [] (by simpa using hlimit) h
  refine ⟨buffer, reads, ?_, hheld⟩
  rw [exec_readLine hsync, hloop]
  exact if_neg (by simpa using hlimit)

/-- A failure behind a part of a line is reported, and the connection is not marked. -/
theorem exec_readLine_of_failure {c : Connection σ} (hsync : c.desynchronised = false)
    {part : Bytes} {kind : IoErrorKind} {tail : List (Event UInt8 IoErrorKind)}
    (hpart : (0x0A : UInt8) ∉ part) (hlimit : part.length ≤ c.limits.maxLineLen)
    (h : c.upcoming = part.map .item ++ .failed kind :: tail) (context : String) :
    ∃ reads, (readLine context).exec c =
        (.error (.fromIo kind), { c with buffer := [], reads }) ∧ events reads = tail := by
  obtain ⟨reads, hloop, hevents⟩ :=
    lineLoop_of_failure hpart [] (by simpa using hlimit) h
  refine ⟨reads, ?_, hevents⟩
  rw [exec_readLine hsync, hloop]

/-- **All that reading a line can do**: read one, lose the place and say so, or fail where it is. -/
theorem readLine_cases {c c' : Connection σ} {context : String} {r : Except ClientError Bytes}
    (hsync : c.desynchronised = false) (h : (readLine context).exec c = (r, c')) :
    (∃ head : Bytes, r = .ok (popCr head) ∧ (0x0A : UInt8) ∉ head ∧
        head.length ≤ c.limits.maxLineLen ∧
        c.upcoming = head.map .item ++ .item 0x0A :: c'.upcoming ∧
        c' = { c with buffer := c'.buffer, reads := c'.reads }) ∨
      (∃ e, r = .error e ∧ c'.desynchronised = true) ∨
      (∃ (part : Bytes) (kind : IoErrorKind), r = .error (.fromIo kind) ∧ (0x0A : UInt8) ∉ part ∧
        part.length ≤ c.limits.maxLineLen ∧
        c.upcoming = part.map .item ++ .failed kind :: c'.upcoming ∧
        c'.desynchronised = false) := by
  rw [exec_readLine hsync] at h
  rcases hloop : lineLoop c.limits.maxLineLen [] c.pending with ⟨line | kind | _ | _, buffer, reads⟩
  · obtain ⟨head, hline, hnot, hevents⟩ := of_lineLoop_line hloop
    rw [List.nil_append] at hline
    rw [hloop] at h
    simp only at h
    split at h
    · cases h
      exact Or.inr (Or.inl ⟨_, rfl, rfl⟩)
    · next hlen =>
        cases h
        rw [hline] at hlen ⊢
        exact Or.inl ⟨head, rfl, hnot, by omega, hevents, rfl⟩
  · obtain ⟨part, hnot, hlimit, hevents⟩ := of_lineLoop_failed (Nat.zero_le _) hloop
    rw [hloop] at h
    cases h
    exact Or.inr (Or.inr ⟨part, kind, rfl, hnot, by simpa using hlimit, hevents, hsync⟩)
  · rw [hloop] at h
    cases h
    exact Or.inr (Or.inl ⟨_, rfl, rfl⟩)
  · rw [hloop] at h
    cases h
    exact Or.inr (Or.inl ⟨_, rfl, rfl⟩)

/-! ## Writing -/

section Write

variable [Peer σ]

/-- `write_all` and `flush` on the stream. -/
def write (bytes : Bytes) : Conn σ Unit := .ofExec fun c =>
  let (result, stream, more) := Peer.react c.stream bytes
  (result.mapError ClientError.fromIo,
    { c with stream, reads := c.reads ++ more, written := c.written ++ [bytes] })

/-- Sends a command. -/
def send (command : Command) : Conn σ Unit := do
  ensureSynchronised
  match command.toWire with
  | .ok bytes => write bytes
  | .error error => throw (.proto error)

/-- A data block as `send_block` writes it. -/
def wireBlock (lines : List Bytes) : Bytes :=
  (lines.flatMap fun line => stuff line ++ [0x0D, 0x0A]) ++ [0x2E, 0x0D, 0x0A]

/-- Sends a data block: the lines, dot-stuffed, then the terminator. -/
def sendBlock (lines : List Bytes) : Conn σ Unit := do
  ensureSynchronised
  write (wireBlock lines)

/-- Sends a command and reads its status line. -/
def command (command : Command) : Conn σ StatusLine := do
  send command
  readStatus

end Write

/-! ## Data blocks -/

/-- What the next test of the cancel flag sees. -/
def flag (c : Connection σ) : Bool := (c.cancel.getD []).headD false

/-- The connection after a test of the cancel flag. -/
def afterTest (c : Connection σ) : Connection σ := { c with cancel := c.cancel.map List.tail }

/-- Tests the cancel flag, if there is one. -/
def isCancelled : Conn σ Bool := .ofExec fun c => (.ok c.flag, c.afterTest)

/-- The next line of a data block, or nothing at its terminator. -/
def blockLine : Conn σ (Option Bytes) := do
  -- before the read rather than after it: a raised flag does not buy another line
  if ← isCancelled then desynchronise (.cancelled "a data block")
  else
    let line ← readLine "a data block"
    pure (if isTerminator line then none else some line)

def tooManyLines {α : Type} : Conn σ α := do
  desynchronise (.blockTooLarge "block line count" (← get).limits.maxBlockLines)

def tooManyOctets {α : Type} : Conn σ α := do
  desynchronise (.blockTooLarge "block size in octets" (← get).limits.maxBlockBytes)

/-- The loop of `read_block_streaming`: the lines handed to `on_line`. `remaining` is
`max_block_lines` less the number of lines read so far, `bytes` their octets. -/
def blockLoop (onLine : List Bytes) (bytes : Nat) : Nat → Conn σ (List Bytes)
  | 0 => do
      match ← blockLine with
      | none => pure onLine
      | some _ => tooManyLines
  | remaining + 1 => do
      match ← blockLine with
      | none => pure onLine
      | some line =>
          let limit := (← get).limits.maxBlockBytes
          if limit < bytes + line.length then tooManyOctets
          else blockLoop (onLine ++ [unstuff line]) (bytes + line.length) remaining

/-- Reads a data block: the lines `on_line` is handed, in order. -/
def readBlockStreaming : Conn σ (List Bytes) := do
  blockLoop [] 0 (← get).limits.maxBlockLines

theorem exec_blockLine (c : Connection σ) :
    blockLine.exec c =
      if c.flag then
        (.error (.cancelled "a data block"), { c.afterTest with desynchronised := true })
      else
        match (readLine "a data block").exec c.afterTest with
        | (.ok line, c') => (.ok (if isTerminator line then none else some line), c')
        | (.error e, c') => (.error e, c') := by
  rw [blockLine, Fallible.exec_bind]
  show (if c.flag then desynchronise (.cancelled "a data block") else _ : Conn σ _).exec c.afterTest = _
  split
  · rfl
  · rw [Fallible.exec_bind]
    rcases (readLine "a data block").exec c.afterTest with ⟨_ | _, c'⟩ <;> rfl

/-- A line of a block that is not its terminator is handed over, unless it passes a limit. -/
theorem exec_blockLine_of_line {c : Connection σ} (hsync : c.desynchronised = false)
    (hflag : c.flag = false) {head : Bytes} {tail : List (Event UInt8 IoErrorKind)}
    (hhead : (0x0A : UInt8) ∉ head) (hlimit : head.length ≤ c.limits.maxLineLen)
    (h : c.upcoming = head.map .item ++ .item 0x0A :: tail) :
    ∃ buffer reads, blockLine.exec c =
        (.ok (if isTerminator (popCr head) then none else some (popCr head)),
          { c.afterTest with buffer, reads }) ∧ events (held buffer reads) = tail := by
  obtain ⟨buffer, reads, hread, hrest⟩ :=
    exec_readLine_of_line (c := c.afterTest) hsync hhead hlimit h "a data block"
  refine ⟨buffer, reads, ?_, hrest⟩
  rw [exec_blockLine, hflag, hread]
  rfl

theorem exec_blockLine_of_failure {c : Connection σ} (hsync : c.desynchronised = false)
    (hflag : c.flag = false) {part : Bytes} {kind : IoErrorKind}
    {tail : List (Event UInt8 IoErrorKind)} (hpart : (0x0A : UInt8) ∉ part)
    (hlimit : part.length ≤ c.limits.maxLineLen)
    (h : c.upcoming = part.map .item ++ .failed kind :: tail) :
    ∃ reads, blockLine.exec c =
        (.error (.fromIo kind), { c.afterTest with buffer := [], reads }) ∧ events reads = tail := by
  obtain ⟨reads, hread, hrest⟩ :=
    exec_readLine_of_failure (c := c.afterTest) hsync hpart hlimit h "a data block"
  refine ⟨reads, ?_, hrest⟩
  rw [exec_blockLine, hflag, hread]
  rfl

/-- All that asking for a line of a block can do. -/
theorem blockLine_cases {c c' : Connection σ} {r : Except ClientError (Option Bytes)}
    (hsync : c.desynchronised = false) (h : blockLine.exec c = (r, c')) :
    (∃ head : Bytes, r = .ok (if isTerminator (popCr head) then none else some (popCr head)) ∧
        (0x0A : UInt8) ∉ head ∧ head.length ≤ c.limits.maxLineLen ∧
        c.upcoming = head.map .item ++ .item 0x0A :: c'.upcoming ∧ c.flag = false ∧
        c' = { c.afterTest with buffer := c'.buffer, reads := c'.reads }) ∨
      (∃ e, r = .error e ∧ c'.desynchronised = true) ∨
      (∃ (part : Bytes) (kind : IoErrorKind), r = .error (.fromIo kind) ∧ (0x0A : UInt8) ∉ part ∧
        part.length ≤ c.limits.maxLineLen ∧
        c.upcoming = part.map .item ++ .failed kind :: c'.upcoming ∧ c.flag = false) := by
  rw [exec_blockLine] at h
  split at h
  · cases h
    exact Or.inr (Or.inl ⟨_, rfl, rfl⟩)
  · next hflag =>
      rw [Bool.not_eq_true] at hflag
      rcases hread : (readLine "a data block").exec c.afterTest with ⟨res, mid⟩
      rw [hread] at h
      rcases readLine_cases (c := c.afterTest) hsync hread with
        ⟨head, rfl, hnot, hlen, hup, hmid⟩ | ⟨e, rfl, hlost⟩ | ⟨part, kind, rfl, hnot, hlen, hup, _⟩
      · cases h
        exact Or.inl ⟨head, rfl, hnot, hlen, hup, hflag, hmid⟩
      · cases h
        exact Or.inr (Or.inl ⟨e, rfl, hlost⟩)
      · cases h
        exact Or.inr (Or.inr ⟨part, kind, rfl, hnot, hlen, hup, hflag⟩)

/-! ### One turn of the block loop -/

section BlockLoop

variable {c c' : Connection σ} {onLine : List Bytes} {bytes : Nat}

theorem exec_blockLoop_done (h : blockLine.exec c = (.ok none, c')) (remaining : Nat) :
    (blockLoop onLine bytes remaining).exec c = (.ok onLine, c') := by
  cases remaining with
  | zero => exact Fallible.exec_bind_ok h
  | succ n => exact Fallible.exec_bind_ok h

theorem exec_blockLoop_error {e : ClientError} (h : blockLine.exec c = (.error e, c'))
    (remaining : Nat) : (blockLoop onLine bytes remaining).exec c = (.error e, c') := by
  cases remaining with
  | zero => exact Fallible.exec_bind_error h
  | succ n => exact Fallible.exec_bind_error h

theorem exec_blockLoop_line {line : Bytes} (h : blockLine.exec c = (.ok (some line), c'))
    (hbytes : bytes + line.length ≤ c'.limits.maxBlockBytes) (remaining : Nat) :
    (blockLoop onLine bytes (remaining + 1)).exec c =
      (blockLoop (onLine ++ [unstuff line]) (bytes + line.length) remaining).exec c' := by
  rw [blockLoop, Fallible.exec_bind_ok h]
  show Fallible.exec (if c'.limits.maxBlockBytes < bytes + line.length then _ else _) c' = _
  rw [if_neg (Nat.not_lt.mpr hbytes)]

/-- A line too many, or octets too many, end the block and the connection. -/
theorem exec_blockLoop_overrun {line : Bytes} {remaining : Nat}
    (h : blockLine.exec c = (.ok (some line), c'))
    (hover : remaining = 0 ∨ c'.limits.maxBlockBytes < bytes + line.length) :
    ∃ e, (blockLoop onLine bytes remaining).exec c =
      (.error e, { c' with desynchronised := true }) := by
  cases remaining with
  | zero => exact ⟨_, Fallible.exec_bind_ok h⟩
  | succ n =>
      have hbytes := hover.resolve_left (Nat.succ_ne_zero n)
      refine ⟨.blockTooLarge "block size in octets" c'.limits.maxBlockBytes, ?_⟩
      rw [blockLoop, Fallible.exec_bind_ok h]
      show Fallible.exec (if c'.limits.maxBlockBytes < bytes + line.length then _ else _) c' = _
      rw [if_pos hbytes]
      rfl

end BlockLoop

end Connection
end Nntp.Client
