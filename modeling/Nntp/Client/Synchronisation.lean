import Nntp.Client.DataBlock

/-!
# Connections that lost their place

`ensure_synchronised` refuses every use of a connection whose stream position is not known. What it
cannot see is a position that was lost without anybody saying so: a read that fails behind a part of a
line leaves the flag down. This module says which calls do that, and that there are no others.
-/

namespace Nntp.Client

open Nntp.Lib Nntp.Proto

namespace Connection

variable {σ : Type}

/-! ## Later calls -/

/-- The calls a connection takes. -/
inductive Call where
  | send (command : Command)
  | sendBlock (lines : List Bytes)
  | readStatus
  | command (command : Command)
  | readBlock

theorem exec_ensureSynchronised_lost {c : Connection σ} (h : c.desynchronised = true) :
    (ensureSynchronised : Conn σ Unit).exec c = (.error lostSynchronisation, c) := by
  simp [ensureSynchronised, Fallible.exec_bind, h]

theorem exec_ensureSynchronised {c : Connection σ} (h : c.desynchronised = false) :
    (ensureSynchronised : Conn σ Unit).exec c = (.ok (), c) := by
  simp [ensureSynchronised, Fallible.exec_bind, h]

/-- Nothing is read from a connection marked as lost. -/
theorem readStatus_lost {c : Connection σ} (h : c.desynchronised = true) :
    (readStatus : Conn σ _).exec c = (.error lostSynchronisation, c) :=
  Fallible.exec_bind_error (exec_readLine_lost h _)

theorem exec_blockLine_lost {c : Connection σ} (h : c.desynchronised = true) :
    ∃ e, (blockLine : Conn σ _).exec c = (.error e, c.afterTest) := by
  rw [exec_blockLine]
  split
  · exact ⟨_, congrArg (Prod.mk _) (by unfold afterTest; rw [h])⟩
  · rw [exec_readLine_lost (show c.afterTest.desynchronised = true from h)]
    exact ⟨_, rfl⟩

section Calls

variable [Peer σ]

def Call.perform : Call → Conn σ Unit
  | .send cmd => Connection.send cmd
  | .sendBlock lines => Connection.sendBlock lines
  | .readStatus => do let _ ← Connection.readStatus
  | .command cmd => do let _ ← Connection.command cmd
  | .readBlock => do let _ ← readBlockStreaming

/-- A sequence of calls: what each returns, and the connection they leave. -/
def performAll : List Call → Connection σ → List (Except ClientError Unit) × Connection σ
  | [], c => ([], c)
  | call :: calls, c =>
      let (result, c) := call.perform.exec c
      let (results, c) := performAll calls c
      (result :: results, c)

/-- **The connection is finished**: whatever is called, every call fails, nothing is written and none
of the remaining octets is taken for the start of a response. -/
def Finished (c : Connection σ) : Prop :=
  ∀ calls : List Call, (∀ r ∈ (performAll calls c).1, ∃ e, r = .error e) ∧
    (performAll calls c).2.written = c.written ∧ (performAll calls c).2.unread = c.unread

/-- A call on a connection marked as lost fails, and changes nothing but the flag's observations. -/
theorem perform_of_lost {c : Connection σ} (h : c.desynchronised = true) (call : Call) :
    ∃ e c', call.perform.exec c = (.error e, c') ∧ (c' = c ∨ c' = c.afterTest) := by
  have hensure := exec_ensureSynchronised_lost h
  cases call with
  | send command => exact ⟨_, c, Fallible.exec_bind_error hensure, Or.inl rfl⟩
  | sendBlock lines => exact ⟨_, c, Fallible.exec_bind_error hensure, Or.inl rfl⟩
  | readStatus =>
      exact ⟨_, c, Fallible.exec_bind_error (readStatus_lost h), Or.inl rfl⟩
  | command command =>
      refine ⟨lostSynchronisation, c, Fallible.exec_bind_error ?_, Or.inl rfl⟩
      exact Fallible.exec_bind_error (Fallible.exec_bind_error hensure)
  | readBlock =>
      obtain ⟨e, hline⟩ := exec_blockLine_lost h
      refine ⟨e, c.afterTest, Fallible.exec_bind_error ?_, Or.inr rfl⟩
      -- the flag is tested before the synchronisation
      show (blockLoop [] 0 c.limits.maxBlockLines).exec c = _
      cases c.limits.maxBlockLines with
      | zero => exact Fallible.exec_bind_error hline
      | succ n => exact Fallible.exec_bind_error hline

/-- **A connection marked as lost is finished.** -/
theorem finished_of_lost {c : Connection σ} (h : c.desynchronised = true) : c.Finished := by
  intro calls
  induction calls generalizing c with
  | nil => exact ⟨fun r hr => (List.not_mem_nil hr).elim, rfl, rfl⟩
  | cons call calls ih =>
      obtain ⟨e, c', hcall, hc'⟩ := perform_of_lost h call
      have hlost : c'.desynchronised = true := by rcases hc' with rfl | rfl <;> exact h
      have hwritten : c'.written = c.written := by rcases hc' with rfl | rfl <;> rfl
      have hunread : c'.unread = c.unread := by rcases hc' with rfl | rfl <;> rfl
      obtain ⟨hfail, hw, hu⟩ := ih hlost
      rw [performAll, hcall]
      refine ⟨?_, hw.trans hwritten, hu.trans hunread⟩
      intro r hr
      rcases List.mem_cons.mp hr with rfl | hr
      · exact ⟨e, rfl⟩
      · exact hfail r hr

/-- A connection that is not marked takes a command and writes it. -/
theorem lost_of_finished {c : Connection σ} (h : c.Finished) : c.desynchronised = true := by
  cases hlost : c.desynchronised with
  | true => rfl
  | false =>
      have hwire : Command.quit.toWire = .ok (asBytes "QUIT".toList ++ [0x0D, 0x0A]) := by rfl
      have hsend : (Connection.send .quit).exec c =
          (Connection.write (asBytes "QUIT".toList ++ [0x0D, 0x0A])).exec c := by
        rw [Connection.send, Fallible.exec_bind_ok (exec_ensureSynchronised hlost), hwire]
      have hwritten := (h [.send .quit]).2.1
      simp only [performAll, Call.perform, hsend] at hwritten
      have hlen := congrArg List.length hwritten
      simp [Connection.write] at hlen

theorem finished_iff (c : Connection σ) : c.Finished ↔ c.desynchronised = true :=
  ⟨lost_of_finished, finished_of_lost⟩

end Calls

/-! ## Interrupted reads -/

/-- Part of a line no longer than the limit is on its way, and then a read fails. -/
def InterruptedLine (c : Connection σ) : Prop :=
  c.desynchronised = false ∧
    ∃ (part : Bytes) (kind : IoErrorKind) (tail : List (Event UInt8 IoErrorKind)),
      part ≠ [] ∧ (0x0A : UInt8) ∉ part ∧ part.length ≤ c.limits.maxLineLen ∧
      c.upcoming = part.map .item ++ .failed kind :: tail

/-- Lines of a block that pass the limits are on their way, then part of one more, and then a read
fails. No test of the flag sees it raised. -/
def InterruptedBlock (c : Connection σ) : Prop :=
  c.desynchronised = false ∧
    ∃ (lines : List Bytes) (part : Bytes) (kind : IoErrorKind)
      (tail : List (Event UInt8 IoErrorKind)),
      rawLines lines ++ part ≠ [] ∧ BlockLines c.limits 0 c.limits.maxBlockLines lines ∧
      (0x0A : UInt8) ∉ part ∧ part.length ≤ c.limits.maxLineLen ∧
      c.Unflagged (lines.length + 1) ∧
      c.upcoming = (rawLines lines ++ part).map .item ++ .failed kind :: tail

/-! ## The call that is interrupted -/

/-- The call left `c'` behind a part of what `c` was about to read. -/
def Consumed (part : Bytes) (c c' : Connection σ) : Prop := c.unread = part ++ c'.unread

/-- A whole status line as the limits allow it, with its LF. -/
def WholeLine (c : Connection σ) (part : Bytes) : Prop :=
  ∃ line : Bytes, part = line ++ [0x0A] ∧ (0x0A : UInt8) ∉ line ∧ line.length ≤ c.limits.maxLineLen

theorem consumed_of_upcoming {c c' : Connection σ} {part : Bytes} {kind : IoErrorKind}
    (h : c.upcoming = part.map .item ++ .failed kind :: c'.upcoming) : Consumed part c c' := by
  show itemsOf c.upcoming = _
  rw [h, itemsOf_append]
  rfl

theorem consumed_unique {c c' : Connection σ} {part part' : Bytes} (h : Consumed part c c')
    (h' : Consumed part' c c') : part = part' :=
  List.append_cancel_right (h.symm.trans h')

/-- A status line that fails where nobody notices. -/
theorem readStatus_error_cases {c c' : Connection σ} {e : ClientError}
    (hsync : c.desynchronised = false) (h : (readStatus : Conn σ _).exec c = (.error e, c'))
    (hlost : c'.desynchronised = false) :
    (∃ (part : Bytes) (kind : IoErrorKind), (0x0A : UInt8) ∉ part ∧
        part.length ≤ c.limits.maxLineLen ∧
        c.upcoming = part.map .item ++ .failed kind :: c'.upcoming) ∨
      (∃ part, c.WholeLine part ∧ Consumed part c c') := by
  rcases Fallible.exec_bind_cases h with ⟨line, mid, hread, hparse⟩ | ⟨e', hread, _⟩
  · -- the line was read, so it is its parsing that failed
    have hmid : mid = c' := by
      cases hp : StatusLine.parse line with
      | ok status => rw [hp] at hparse; cases hparse
      | error error => rw [hp] at hparse; cases hparse; rfl
    subst hmid
    rcases readLine_cases hsync hread with ⟨head, _, hnot, hlen, hup, _⟩ | ⟨_, hr, _⟩ |
      ⟨_, _, hr, _⟩
    · refine Or.inr ⟨head ++ [0x0A], ⟨head, rfl, hnot, hlen⟩, ?_⟩
      show itemsOf c.upcoming = _
      rw [hup, itemsOf_append, List.append_assoc]
      rfl
    · cases hr
    · cases hr
  · rcases readLine_cases hsync hread with ⟨_, hr, _⟩ | ⟨_, _, hflag⟩ |
      ⟨part, kind, _, hnot, hlen, hup, _⟩
    · cases hr
    · rw [hlost] at hflag
      cases hflag
    · exact Or.inl ⟨part, kind, hnot, hlen, hup⟩

/-! ## The place is kept, or the connection is finished -/

section Safety

variable [Peer σ]

/-- A failing `read_status` that consumed part of a status line leaves a finished connection. -/
def StatusSafe (c : Connection σ) : Prop :=
  ∀ (e : ClientError) (c' : Connection σ) (part : Bytes), readStatus.exec c = (.error e, c') →
    part ≠ [] → ¬ c.WholeLine part → Consumed part c c' → c'.Finished

/-- A failing `read_block_streaming` that consumed part of a data block leaves a finished
connection. -/
def BlockSafe (c : Connection σ) : Prop :=
  ∀ (e : ClientError) (c' : Connection σ) (part : Bytes), readBlockStreaming.exec c = (.error e, c') →
    part ≠ [] → Consumed part c c' → c'.Finished

theorem statusSafe_iff (c : Connection σ) : c.StatusSafe ↔ ¬ c.InterruptedLine := by
  constructor
  · rintro hsafe ⟨hsync, part, kind, tail, hne, hnot, hlen, hup⟩
    obtain ⟨reads, hread, hevents⟩ :=
      exec_readLine_of_failure hsync hnot hlen hup "a status line"
    have hstatus : (readStatus : Conn σ _).exec c = (.error (.fromIo kind), _) :=
      Fallible.exec_bind_error hread
    have hwhole : ¬ c.WholeLine part := by
      rintro ⟨line, rfl, _, _⟩
      exact hnot (List.mem_append_right line List.mem_cons_self)
    have hconsumed : Consumed part c { c with buffer := [], reads } := by
      have htail : upcoming { c with buffer := [], reads } = tail := hevents
      rw [← htail] at hup
      exact consumed_of_upcoming hup
    have hlost := (finished_iff _).mp (hsafe _ _ part hstatus hne hwhole hconsumed)
    rw [hsync] at hlost
    cases hlost
  · intro hnot e c' part h hne hwhole hconsumed
    rw [finished_iff]
    cases hsync : c.desynchronised with
    | true =>
        rw [readStatus_lost hsync] at h
        cases h
        exact hsync
    | false =>
        cases hlost : c'.desynchronised with
        | true => rfl
        | false =>
            rcases readStatus_error_cases hsync h hlost with ⟨part', kind, hno, hlen, hup⟩ |
              ⟨part', hpart', hcons'⟩
            · have heq := consumed_unique hconsumed (consumed_of_upcoming hup)
              subst heq
              exact absurd ⟨hsync, part, kind, _, hne, hno, hlen, hup⟩ hnot
            · rw [consumed_unique hconsumed hcons'] at hwhole
              exact absurd hpart' hwhole

theorem blockSafe_iff (c : Connection σ) : c.BlockSafe ↔ ¬ c.InterruptedBlock := by
  constructor
  · rintro hsafe ⟨hsync, lines, part, kind, tail, hne, hlines, hlf, hshort, hflag, hup⟩
    obtain ⟨c', hblock, htail, hadv⟩ :=
      exec_blockLoop_of_failure hsync hflag hlines hlf hshort hup []
    have hconsumed : Consumed (rawLines lines ++ part) c c' := by
      rw [← htail] at hup
      exact consumed_of_upcoming hup
    have hfinished := (finished_iff _).mp (hsafe _ c' _ hblock hne hconsumed)
    rw [hadv.desynchronised, hsync] at hfinished
    cases hfinished
  · intro hnot e c' part h hne hconsumed
    rw [finished_iff]
    have hloop : (blockLoop [] 0 c.limits.maxBlockLines).exec c = (.error e, c') := h
    cases hsync : c.desynchronised with
    | true =>
        obtain ⟨e', hline⟩ := exec_blockLine_lost hsync
        rw [exec_blockLoop_error hline] at hloop
        cases hloop
        exact hsync
    | false =>
        cases hlost : c'.desynchronised with
        | true => rfl
        | false =>
            rcases blockLoop_cases hsync (Nat.zero_le _) hloop with ⟨_, _, hr, _⟩ |
              ⟨_, _, hmark⟩ | ⟨lines, part', kind, _, hlines, hlf, hshort, hflag, hup⟩
            · cases hr
            · rw [hlost] at hmark
              cases hmark
            · have heq := consumed_unique hconsumed (consumed_of_upcoming hup)
              rw [heq] at hne
              exact absurd ⟨hsync, lines, part', kind, _, hne, hlines, hlf, hshort, hflag, hup⟩ hnot

/-- **A connection that lost its place is never used again, unless a read fails behind part of a line
or of a block.** Both ways of failing leave the flag down; nothing else does. -/
theorem lostPlace_finished_iff (c : Connection σ) :
    (c.StatusSafe ↔ ¬ c.InterruptedLine) ∧ (c.BlockSafe ↔ ¬ c.InterruptedBlock) :=
  ⟨statusSafe_iff c, blockSafe_iff c⟩

end Safety

/-- The server's `211 500 1 500 misc.test`, with the read timing out behind its code. -/
def cutStatus : Connection Unit where
  stream := ()
  buffer := []
  reads := [.data (asBytes "211 ".toList), .err .timedOut,
    .data (asBytes "500 1 500 misc.test\r\n".toList)]
  written := []
  limits := .default
  desynchronised := false
  cancel := none

/-- After the timeout the connection reads the rest of the line as a response `500`. -/
theorem cutStatus_not_safe :
    (readStatus.exec cutStatus).1 = .error .timeout ∧
      (readStatus.exec (readStatus.exec cutStatus).2).1 =
        .ok ⟨500, "1 500 misc.test".toList⟩ ∧ ¬ cutStatus.StatusSafe := by
  refine ⟨rfl, by decide +kernel, ?_⟩
  rw [statusSafe_iff, not_not]
  exact ⟨rfl, asBytes "211 ".toList, .timedOut, _, by decide, by decide, by decide, rfl⟩

end Connection
end Nntp.Client
