import Nntp.Client.Connection

/-!
# Framing does not depend on the reads

How the octets of a stream are cut into reads is up to the network. Here `lineLoop` is shown to end as a
reader does that takes one octet at a time (`octetLoop`), and from that whole runs of `read_status` and
`read_block_streaming` are the same over one stream, however it arrives.
-/

namespace Nntp.Client

open Nntp.Lib Nntp.Proto

namespace Connection

variable {σ : Type}

/-! ## Octet by octet -/

/-- A reader that takes one octet at a time: how its line ends, and what it leaves of the stream. -/
def octetLoop (limit : Nat) (line : Bytes) :
    List (Event UInt8 IoErrorKind) → LineEnd × List (Event UInt8 IoErrorKind)
  | [] => (.closed, [])
  | .stop :: rest => (.closed, rest)
  | .failed kind :: rest => (.failed kind, rest)
  | .item b :: rest =>
      if b = 0x0A then (.line line, rest)
      else if limit < line.length + 1 then (.tooLong, rest)
      else octetLoop limit (line ++ [b]) rest

section Octets

variable {limit : Nat}

theorem octetLoop_items {piece : Bytes} (hnot : (0x0A : UInt8) ∉ piece) {line : Bytes}
    (hlimit : line.length + piece.length ≤ limit) (rest : List (Event UInt8 IoErrorKind)) :
    octetLoop limit line (piece.map .item ++ rest) = octetLoop limit (line ++ piece) rest := by
  induction piece generalizing line with
  | nil => simp
  | cons b piece ih =>
      have hb : (0x0A : UInt8) ≠ b := List.ne_of_not_mem_cons hnot
      have hpiece : (0x0A : UInt8) ∉ piece := List.not_mem_of_not_mem_cons hnot
      rw [List.length_cons] at hlimit
      have hwithin : ¬ limit < line.length + 1 := by omega
      rw [List.map_cons, List.cons_append, octetLoop, if_neg (Ne.symm hb), if_neg hwithin,
        ih hpiece (by rw [List.length_append, List.length_singleton]; omega)]
      simp

/-- A piece without a line ending that goes over the limit is too long, and so is what it begins. -/
theorem octetLoop_overrun {piece : Bytes} (hnot : (0x0A : UInt8) ∉ piece) {line : Bytes}
    (hline : line.length ≤ limit) (hover : limit < line.length + piece.length)
    (rest : List (Event UInt8 IoErrorKind)) :
    (octetLoop limit line (piece.map .item ++ rest)).1 = .tooLong := by
  induction piece generalizing line with
  | nil => exact absurd hover (Nat.not_lt.mpr hline)
  | cons b piece ih =>
      have hb : (0x0A : UInt8) ≠ b := List.ne_of_not_mem_cons hnot
      have hpiece : (0x0A : UInt8) ∉ piece := List.not_mem_of_not_mem_cons hnot
      rw [List.length_cons] at hover
      rw [List.map_cons, List.cons_append, octetLoop, if_neg (Ne.symm hb)]
      split
      · rfl
      · next hwithin =>
          apply ih hpiece
          · rw [List.length_append, List.length_singleton]
            omega
          · rw [List.length_append, List.length_singleton]
            omega

/-- The end of a line, with the test that `read_line` makes behind its loop. -/
def LineEnd.within (limit : Nat) : LineEnd → LineEnd
  | .line bytes => if limit < bytes.length then .tooLong else .line bytes
  | ended => ended

/-- Whether the place in the stream is still known. -/
def LineEnd.keepsPlace : LineEnd → Bool
  | .line _ => true
  | .failed _ => true
  | .closed => false
  | .tooLong => false

/-- The loop of the code and the reader of single octets end in the same way, and leave the same. -/
structure Matches (limit : Nat) (coded : LineEnd × Bytes × Reads)
    (octets : LineEnd × List (Event UInt8 IoErrorKind)) : Prop where
  ended : coded.1.within limit = octets.1
  left : octets.1.keepsPlace = true → events (held coded.2.1 coded.2.2) = octets.2

/-- **The sizes of the reads do not matter** to the loop of `read_line`. -/
theorem lineLoop_matches (reads : Reads) {line : Bytes} (hline : line.length ≤ limit) :
    Matches limit (lineLoop limit line reads) (octetLoop limit line (events reads)) := by
  induction reads generalizing line with
  | nil => exact ⟨rfl, fun h => nomatch h⟩
  | cons read reads ih =>
      cases read with
      | err kind => exact ⟨rfl, fun _ => rfl⟩
      | data available =>
          by_cases hempty : available = []
          · rw [hempty]
            exact ⟨rfl, fun h => nomatch h⟩
          · rw [lineLoop_data limit line hempty, events_data hempty]
            cases hcut : cutAt 0x0A available with
            | some p =>
                obtain ⟨hnot, heq⟩ := of_cutAt hcut
                rw [heq, List.map_append, List.append_assoc]
                by_cases hover : limit < line.length + p.1.length
                · -- the limit is passed before the line ending, which the code sees only behind it
                  have hlong := octetLoop_overrun hnot hline hover
                    ((0x0A :: p.2).map .item ++ events reads)
                  refine ⟨?_, fun h => ?_⟩
                  · rw [hlong]
                    apply if_pos
                    rwa [List.length_append]
                  · rw [hlong] at h
                    cases h
                · rw [octetLoop_items hnot (Nat.not_lt.mp hover)]
                  refine ⟨?_, fun _ => events_held p.2 reads⟩
                  apply if_neg
                  rwa [List.length_append]
            | none =>
                have hnot := not_mem_of_cutAt hcut
                dsimp only
                by_cases hover : limit < line.length + available.length
                · have hlong := octetLoop_overrun hnot hline hover (events reads)
                  rw [if_pos (by rwa [List.length_append])]
                  refine ⟨hlong.symm, fun h => ?_⟩
                  rw [hlong] at h
                  cases h
                · rw [if_neg (by rwa [List.length_append]), octetLoop_items hnot (Nat.not_lt.mp hover)]
                  apply ih
                  rw [List.length_append]
                  exact Nat.not_lt.mp hover

end Octets

/-! ## Reading over one stream -/

/-- Two connections to which the same stream is still to come, however it is cut into reads. -/
structure SameStream (c d : Connection σ) : Prop where
  limits : c.limits = d.limits
  cancel : c.cancel = d.cancel
  desynchronised : c.desynchronised = d.desynchronised
  /-- a connection that lost its place reads no further -/
  upcoming : c.desynchronised = false → c.upcoming = d.upcoming

/-- What `read_line` makes of the end of its line. -/
def lineResult (limit : Nat) (context : String) : LineEnd → Except ClientError Bytes
  | .line line => .ok (popCr line)
  | .failed kind => .error (.fromIo kind)
  | .closed => .error (.connectionClosed (some context))
  | .tooLong => .error (.lineTooLong limit)

/-- **A line is read as one octet after the other would be.** -/
theorem exec_readLine_octets {c : Connection σ} (hsync : c.desynchronised = false) (context : String) :
    ∃ buffer reads,
      (readLine context).exec c =
          (lineResult c.limits.maxLineLen context (octetLoop c.limits.maxLineLen [] c.upcoming).1,
            { c with
              buffer, reads
              desynchronised := !(octetLoop c.limits.maxLineLen [] c.upcoming).1.keepsPlace }) ∧
        ((octetLoop c.limits.maxLineLen [] c.upcoming).1.keepsPlace = true →
          events (held buffer reads) = (octetLoop c.limits.maxLineLen [] c.upcoming).2) := by
  have hmatches : Matches c.limits.maxLineLen (lineLoop c.limits.maxLineLen [] c.pending)
      (octetLoop c.limits.maxLineLen [] (events c.pending)) :=
    lineLoop_matches c.pending (Nat.zero_le _)
  unfold upcoming
  rw [exec_readLine hsync]
  rcases hloop : lineLoop c.limits.maxLineLen [] c.pending with ⟨ended, buffer, reads⟩
  rw [hloop] at hmatches
  refine ⟨buffer, reads, ?_, hmatches.left⟩
  rw [← hmatches.ended]
  cases ended with
  | line bytes =>
      dsimp only [LineEnd.within]
      split
      · rfl
      · simp [lineResult, LineEnd.keepsPlace, ← hsync]
  | failed kind => simp [LineEnd.within, lineResult, LineEnd.keepsPlace, ← hsync]
  | closed => rfl
  | tooLong => rfl

theorem respects_readLine (context : String) :
    Fallible.Respects SameStream (readLine context : Conn σ Bytes) := by
  intro c d h
  cases hsync : c.desynchronised with
  | true =>
      rw [exec_readLine_lost hsync, exec_readLine_lost (h.desynchronised ▸ hsync)]
      exact ⟨rfl, h⟩
  | false =>
      obtain ⟨buffer, reads, hread, hleft⟩ := exec_readLine_octets hsync context
      obtain ⟨buffer', reads', hread', hleft'⟩ :=
        exec_readLine_octets (c := d) (h.desynchronised ▸ hsync) context
      rw [hread, hread']
      rw [← h.limits, ← h.upcoming hsync] at hleft' ⊢
      refine ⟨rfl, rfl, h.cancel, rfl, fun hkeeps => ?_⟩
      have hplace : (octetLoop c.limits.maxLineLen [] c.upcoming).1.keepsPlace = true := by
        simpa using hkeeps
      exact (hleft hplace).trans (hleft' hplace).symm

theorem respects_readStatus : Fallible.Respects SameStream (readStatus : Conn σ StatusLine) := by
  apply (respects_readLine _).bind
  intro line
  cases StatusLine.parse line with
  | ok status => exact Fallible.Respects.pure status
  | error error => exact Fallible.Respects.throw _

theorem respects_desynchronise {α : Type} (error : ClientError) :
    Fallible.Respects SameStream (desynchronise error : Conn σ α) := by
  apply Fallible.Respects.bind
  · apply Fallible.Respects.modify
    intro c d h
    exact ⟨h.limits, h.cancel, rfl, fun hkeeps => nomatch hkeeps⟩
  · intro _
    exact Fallible.Respects.throw error

theorem respects_isCancelled : Fallible.Respects SameStream (isCancelled : Conn σ Bool) := by
  intro c d h
  have hflag : c.flag = d.flag := by rw [flag, flag, h.cancel]
  exact ⟨congrArg (Except.ok (ε := ClientError)) hflag, h.limits, congrArg (Option.map List.tail) h.cancel,
    h.desynchronised, h.upcoming⟩

theorem respects_blockLine : Fallible.Respects SameStream (blockLine : Conn σ (Option Bytes)) := by
  apply respects_isCancelled.bind
  intro raised
  cases raised with
  | true => exact respects_desynchronise _
  | false => exact (respects_readLine _).bind fun line => Fallible.Respects.pure _

/-- What is done with a limit, where related connections have the same ones. -/
theorem respects_limits {α : Type} {f : Limits → Conn σ α}
    (hf : ∀ limits, Fallible.Respects SameStream (f limits)) :
    Fallible.Respects SameStream (get >>= fun c => f c.limits) :=
  Fallible.Respects.get_bind limits (fun _ _ h => h.limits) hf

theorem respects_tooManyLines {α : Type} : Fallible.Respects SameStream (tooManyLines : Conn σ α) :=
  respects_limits fun limits => respects_desynchronise (.blockTooLarge "block line count" limits.maxBlockLines)

theorem respects_tooManyOctets {α : Type} : Fallible.Respects SameStream (tooManyOctets : Conn σ α) :=
  respects_limits fun limits =>
    respects_desynchronise (.blockTooLarge "block size in octets" limits.maxBlockBytes)

/-! ## Handing lines over -/

/-- A computation on a connection and on the lines that `on_line` was handed, which stay handed over when it
fails. -/
abbrev Handing (σ : Type) := Fallible ClientError (Connection σ × List Bytes)

/-- What hands over nothing. -/
def handing {α : Type} (x : Conn σ α) : Handing σ α := .ofExec fun s =>
  let (result, c) := x.exec s.1
  (result, (c, s.2))

@[simp] theorem exec_handing {α : Type} (x : Conn σ α) (s : Connection σ × List Bytes) :
    (handing x).exec s = ((x.exec s.1).1, ((x.exec s.1).2, s.2)) := rfl

/-- Hands a line over. -/
def onLine (line : Bytes) : Handing σ Unit := modify fun s => (s.1, s.2 ++ [line])

@[simp] theorem exec_onLine (line : Bytes) (s : Connection σ × List Bytes) :
    (onLine line).exec s = (.ok (), (s.1, s.2 ++ [line])) := rfl

/-- The loop of `read_block_streaming` with what it returns and hands over: `lines` and `bytes` were read so
far, and `remaining` is `max_block_lines` less `lines`. -/
def streamingLoop (lines bytes : Nat) : Nat → Handing σ Nat
  | 0 => do
      match ← handing blockLine with
      | none => pure lines
      | some _ => handing tooManyLines
  | remaining + 1 => do
      match ← handing blockLine with
      | none => pure lines
      | some line =>
          let limit := (← get).1.limits.maxBlockBytes
          if limit < bytes + line.length then handing tooManyOctets
          else
            onLine (unstuff line)
            streamingLoop (lines + 1) (bytes + line.length) remaining

/-- `read_block_streaming`: the number of lines read, each handed over as it arrives. -/
def readBlockHanding : Handing σ Nat := do
  streamingLoop 0 0 (← get).1.limits.maxBlockLines

/-- The same stream to come, and the same lines handed over. -/
def SameHanded (s t : Connection σ × List Bytes) : Prop := SameStream s.1 t.1 ∧ s.2 = t.2

theorem respects_handing {α : Type} {x : Conn σ α} (h : Fallible.Respects SameStream x) :
    Fallible.Respects SameHanded (handing x) := by
  intro s t hst
  obtain ⟨hresult, hstream⟩ := h s.1 t.1 hst.1
  exact ⟨hresult, hstream, hst.2⟩

theorem respects_onLine (line : Bytes) : Fallible.Respects SameHanded (onLine line : Handing σ Unit) := by
  apply Fallible.Respects.modify
  intro s t h
  exact ⟨h.1, congrArg (· ++ [line]) h.2⟩

theorem respects_handed_limits {α : Type} {f : Limits → Handing σ α}
    (hf : ∀ limits, Fallible.Respects SameHanded (f limits)) :
    Fallible.Respects SameHanded (get >>= fun s => f s.1.limits) :=
  Fallible.Respects.get_bind (fun s => s.1.limits) (fun _ _ h => h.1.limits) hf

theorem respects_streamingLoop (lines bytes remaining : Nat) :
    Fallible.Respects SameHanded (streamingLoop lines bytes remaining : Handing σ Nat) := by
  induction remaining generalizing lines bytes with
  | zero =>
      apply (respects_handing respects_blockLine).bind
      intro line?
      cases line? with
      | none => exact Fallible.Respects.pure lines
      | some line => exact respects_handing respects_tooManyLines
  | succ remaining ih =>
      apply (respects_handing respects_blockLine).bind
      intro line?
      cases line? with
      | none => exact Fallible.Respects.pure lines
      | some line =>
          apply respects_handed_limits (f := fun limits =>
            if limits.maxBlockBytes < bytes + line.length then handing tooManyOctets
            else do
              onLine (unstuff line)
              streamingLoop (lines + 1) (bytes + line.length) remaining)
          intro limits
          split
          · exact respects_handing respects_tooManyOctets
          · exact (respects_onLine _).bind fun _ => ih _ _

theorem respects_readBlockHanding : Fallible.Respects SameHanded (readBlockHanding : Handing σ Nat) :=
  respects_handed_limits fun limits => respects_streamingLoop 0 0 limits.maxBlockLines

/-- **The lines handed over are those of the block**, and the number returned is how many there are. -/
theorem exec_blockLoop_handing (lines bytes remaining : Nat) (s : Connection σ × List Bytes) :
    (blockLoop s.2 bytes remaining).exec s.1 =
        (((streamingLoop lines bytes remaining).exec s).1.map
            fun _ => ((streamingLoop lines bytes remaining).exec s).2.2,
          ((streamingLoop lines bytes remaining).exec s).2.1) ∧
      ∀ n, ((streamingLoop lines bytes remaining).exec s).1 = .ok n →
        n + s.2.length = lines + ((streamingLoop lines bytes remaining).exec s).2.2.length := by
  induction remaining generalizing lines bytes s with
  | zero =>
      rw [blockLoop, streamingLoop, Fallible.exec_bind, Fallible.exec_bind, exec_handing]
      rcases blockLine.exec s.1 with ⟨error | _ | line, c⟩
      · exact ⟨rfl, fun n h => by cases h⟩
      · exact ⟨rfl, fun n h => by cases h; rfl⟩
      · exact ⟨rfl, fun n h => by cases h⟩
  | succ remaining ih =>
      rw [blockLoop, streamingLoop, Fallible.exec_bind, Fallible.exec_bind, exec_handing]
      rcases blockLine.exec s.1 with ⟨error | _ | line, c⟩
      · exact ⟨rfl, fun n h => by cases h⟩
      · exact ⟨rfl, fun n h => by cases h; rfl⟩
      · dsimp only
        rw [Fallible.exec_bind_ok (Fallible.exec_get c), Fallible.exec_bind_ok (Fallible.exec_get (c, s.2))]
        dsimp only
        by_cases hover : c.limits.maxBlockBytes < bytes + line.length
        · rw [if_pos hover, if_pos hover]
          exact ⟨rfl, fun n h => by cases h⟩
        · -- the line is handed over, and counted, before the loop goes on
          rw [if_neg hover, if_neg hover, Fallible.exec_bind_ok (exec_onLine _ (c, s.2))]
          obtain ⟨hrest, hcount⟩ := ih (lines + 1) (bytes + line.length) (c, s.2 ++ [unstuff line])
          refine ⟨hrest, fun n h => ?_⟩
          have hlater := hcount n h
          rw [List.length_append, List.length_singleton] at hlater
          dsimp only
          omega

/-- Reading a block is reading it with its lines handed over. -/
theorem exec_readBlockStreaming (c : Connection σ) :
    readBlockStreaming.exec c =
        ((readBlockHanding.exec (c, [])).1.map fun _ => (readBlockHanding.exec (c, [])).2.2,
          (readBlockHanding.exec (c, [])).2.1) ∧
      ∀ n, (readBlockHanding.exec (c, [])).1 = .ok n → n = (readBlockHanding.exec (c, [])).2.2.length := by
  have hloop := exec_blockLoop_handing 0 0 c.limits.maxBlockLines (c, [])
  have hstart : readBlockHanding.exec (c, []) = (streamingLoop 0 0 c.limits.maxBlockLines).exec (c, []) := rfl
  rw [hstart]
  refine ⟨hloop.1, fun n h => ?_⟩
  simpa using hloop.2 n h

/-! ## Runs of calls -/

/-- What a caller asks of a connection. -/
inductive ReadCall where
  | readStatus
  | readBlockStreaming
  deriving DecidableEq, Repr

/-- What comes back: a result, and of a block also the lines that `on_line` was handed. -/
inductive Answer where
  | status (result : Except ClientError StatusLine)
  | block (result : Except ClientError Nat) (handed : List Bytes)

def ReadCall.perform (c : Connection σ) : ReadCall → Answer × Connection σ
  | .readStatus =>
      let (result, c') := Connection.readStatus.exec c
      (.status result, c')
  | .readBlockStreaming =>
      let (result, c', handed) := readBlockHanding.exec (c, [])
      (.block result handed, c')

/-- Performs some calls, one after the other. -/
def runCalls (c : Connection σ) : List ReadCall → List Answer × Connection σ
  | [] => ([], c)
  | call :: calls =>
      let (answer, c') := call.perform c
      let (answers, last) := runCalls c' calls
      (answer :: answers, last)

/-- **One call** over one stream has one answer. -/
theorem SameStream.perform {c d : Connection σ} (h : SameStream c d) (call : ReadCall) :
    (call.perform c).1 = (call.perform d).1 ∧ SameStream (call.perform c).2 (call.perform d).2 := by
  cases call with
  | readStatus =>
      obtain ⟨hresult, hstream⟩ := respects_readStatus c d h
      exact ⟨congrArg Answer.status hresult, hstream⟩
  | readBlockStreaming =>
      obtain ⟨hresult, hstream, hhanded⟩ := respects_readBlockHanding (c, []) (d, []) ⟨h, rfl⟩
      exact ⟨congrArg₂ Answer.block hresult hhanded, hstream⟩

/-- **A run of calls** over one stream has the same answers. -/
theorem SameStream.runCalls {c d : Connection σ} (h : SameStream c d) (calls : List ReadCall) :
    (runCalls c calls).1 = (runCalls d calls).1 ∧ SameStream (runCalls c calls).2 (runCalls d calls).2 := by
  induction calls generalizing c d with
  | nil => exact ⟨rfl, h⟩
  | cons call calls ih =>
      obtain ⟨hanswer, hmid⟩ := h.perform call
      obtain ⟨hanswers, hlast⟩ := ih hmid
      exact ⟨congrArg₂ List.cons hanswer hanswers, hlast⟩

/-- A new connection on a stream that brings some octets in pieces, and then ends. -/
def withLimits (stream : σ) (limits : Limits) (pieces : List Bytes) : Connection σ where
  stream
  buffer := []
  reads := pieces.map .data
  written := []
  limits
  desynchronised := false
  cancel := none

/-- **Framing does not depend on segmentation**: whatever the calls, the pieces in which the octets of a stream
arrive change neither the answers nor whether the connection is still in its place. -/
theorem runCalls_segmentation (stream : σ) (limits : Limits) {pieces pieces' : List Bytes}
    (hpieces : ∀ piece ∈ pieces, piece ≠ []) (hpieces' : ∀ piece ∈ pieces', piece ≠ [])
    (hsame : pieces.flatten = pieces'.flatten) (calls : List ReadCall) :
    (runCalls (withLimits stream limits pieces) calls).1 =
        (runCalls (withLimits stream limits pieces') calls).1 ∧
      (runCalls (withLimits stream limits pieces) calls).2.desynchronised =
        (runCalls (withLimits stream limits pieces') calls).2.desynchronised := by
  have hstream : SameStream (withLimits stream limits pieces) (withLimits stream limits pieces') := by
    refine ⟨rfl, rfl, rfl, fun _ => ?_⟩
    show events (pieces.map .data) = events (pieces'.map .data)
    rw [events_pieces hpieces, events_pieces hpieces', hsame]
  obtain ⟨hanswers, hlast⟩ := hstream.runCalls calls
  exact ⟨hanswers, hlast.desynchronised⟩

/-- A greeting and a block, whole and with cuts at the line endings and inside of them. -/
theorem runCalls_segmentation_cut :
    (runCalls (withLimits () .default [asBytes "200 hi\r\n..a\r\n.\r\n".toList])
          [.readStatus, .readBlockStreaming]).1 =
        (runCalls (withLimits () .default (["200 h", "i\r", "\n.", ".a\r\n", ".\r\n"].map (asBytes ·.toList)))
          [.readStatus, .readBlockStreaming]).1 ∧
      (runCalls (withLimits () .default [asBytes "200 hi\r\n..a\r\n.\r\n".toList])
          [.readStatus, .readBlockStreaming]).2.desynchronised =
        (runCalls (withLimits () .default (["200 h", "i\r", "\n.", ".a\r\n", ".\r\n"].map (asBytes ·.toList)))
          [.readStatus, .readBlockStreaming]).2.desynchronised :=
  runCalls_segmentation () .default (by decide) (by decide) (by decide) [.readStatus, .readBlockStreaming]

end Connection
end Nntp.Client
