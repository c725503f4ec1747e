import Nntp.Client.Alignment
import Nntp.TestServer.Loop

/-!
# A session over a socket

`Session::run`, `run_duplex` and `resume_duplex`, with the reader that is between them and the stream: command
lines and articles are read out of a stream that comes in pieces and may fail. What they come to is what `Loop`
says of the octets, however these are cut into reads. What is written is taken to arrive.
-/

namespace Nntp.TestServer

open Nntp.Lib Nntp.Proto Nntp.Client

/-! ## The reader -/

/-- `read_until(b'\n')` over what `fill_buf` returns: the line or the failure, and the buffer and the reads it
leaves. -/
def readUntil (line : Bytes) : Reads → Except IoErrorKind Bytes × Bytes × Reads
  | [] => (.ok line, [], [])
  | .err kind :: reads => (.error kind, [], reads)
  | .data available :: reads =>
      if available = [] then (.ok line, [], reads)
      else
        match cutAt 0x0A available with
        | some (head, rest) => (.ok (line ++ head ++ [0x0A]), rest, reads)
        | none => readUntil (line ++ available) reads

theorem readUntil_data (line : Bytes) {available : Bytes} (hne : available ≠ []) (reads : Reads) :
    readUntil line (.data available :: reads) =
      match cutAt 0x0A available with
      | some (head, rest) => (.ok (line ++ head ++ [0x0A]), rest, reads)
      | none => readUntil (line ++ available) reads :=
  if_neg hne

/-- Every octet of a line that is read was one of the stream's. -/
theorem length_readUntil {line read buffer : Bytes} {pending reads : Reads}
    (h : readUntil line pending = (.ok read, buffer, reads)) :
    read.length + (events (held buffer reads)).length ≤ line.length + (events pending).length := by
  induction pending generalizing line with
  | nil =>
      cases h
      simp
  | cons outcome pending ih =>
      cases outcome with
      | err kind => cases h
      | data available =>
          by_cases havailable : available = []
          · rw [readUntil, if_pos havailable] at h
            cases h
            rw [havailable]
            show read.length + (events reads).length ≤ read.length + (events reads).length.succ
            omega
          · rw [readUntil_data line havailable] at h
            rw [events_data havailable]
            cases hcut : cutAt 0x0A available with
            | some cut =>
                rw [hcut] at h
                cases h
                rw [(of_cutAt hcut).2]
                simp
                omega
            | none =>
                rw [hcut] at h
                have := ih h
                simp only [List.length_append, List.length_map] at this ⊢
                omega

theorem readUntil_shorter {read buffer : Bytes} {pending reads : Reads}
    (h : readUntil [] pending = (.ok read, buffer, reads)) (hne : read ≠ []) :
    (events (held buffer reads)).length < (events pending).length := by
  have hlen := length_readUntil h
  have hpos := List.length_pos_of_ne_nil hne
  rw [List.length_nil] at hlen
  omega

/-- A line that the stream brings is read, and what follows it is left. -/
theorem readUntil_line {head : Bytes} (hhead : (0x0A : UInt8) ∉ head)
    {tail : List (Event UInt8 IoErrorKind)} {pending : Reads} (line : Bytes)
    (h : events pending = head.map .item ++ .item 0x0A :: tail) :
    ∃ buffer reads, readUntil line pending = (.ok (line ++ head ++ [0x0A]), buffer, reads) ∧
      events (held buffer reads) = tail := by
  induction pending generalizing head line with
  | nil => cases head <;> cases h
  | cons outcome pending ih =>
      cases outcome with
      | err kind => cases head <;> cases h
      | data available =>
          by_cases havailable : available = []
          · rw [havailable] at h
            cases head <;> cases h
          · rw [readUntil_data line havailable]
            rw [events_data havailable] at h
            cases hcut : cutAt 0x0A available with
            | some cut =>
                obtain ⟨hnot, heq⟩ := of_cutAt hcut
                rw [heq, List.map_append, List.append_assoc] at h
                obtain ⟨rfl, hrest⟩ := items_cut hnot hhead h
                exact ⟨cut.2, pending, rfl, (events_held cut.2 pending).trans hrest⟩
            | none =>
                -- the whole piece stands before the line ending
                obtain ⟨head', rfl, hpending⟩ := items_before (item_ne_of_not_mem (not_mem_of_cutAt hcut)) h
                obtain ⟨buffer, reads, hread, hheld⟩ :=
                  ih (fun hmem => hhead (List.mem_append_right _ hmem)) (line ++ available) hpending
                refine ⟨buffer, reads, ?_, hheld⟩
                simp only [hread, List.append_assoc]

/-- At the end of the stream a part of a line is a line. -/
theorem readUntil_end {part : Bytes} (hpart : (0x0A : UInt8) ∉ part) {pending : Reads} (line : Bytes)
    (h : events pending = part.map .item) : readUntil line pending = (.ok (line ++ part), [], []) := by
  induction pending generalizing part line with
  | nil =>
      obtain rfl : part = [] := List.map_eq_nil_iff.mp h.symm
      rw [readUntil, List.append_nil]
  | cons outcome pending ih =>
      cases outcome with
      | err kind => cases part <;> cases h
      | data available =>
          by_cases havailable : available = []
          · rw [havailable] at h
            cases part <;> cases h
          · rw [events_data havailable] at h
            obtain ⟨front, back, rfl, hfront, hback⟩ := List.append_eq_map_iff.mp h
            obtain rfl : available = front :=
              List.map_injective_iff.mpr (fun _ _ heq => Event.item.inj heq) hfront.symm
            have hnot : (0x0A : UInt8) ∉ available := fun hmem => hpart (List.mem_append_left _ hmem)
            rw [readUntil_data line havailable, cutAt_of_not_mem hnot]
            dsimp only
            rw [ih (fun hmem => hpart (List.mem_append_right _ hmem)) (line ++ available) hback.symm,
              List.append_assoc]

/-- A failure comes back as such, and a part of a line before it is gone. -/
theorem readUntil_failure {part : Bytes} (hpart : (0x0A : UInt8) ∉ part) {kind : IoErrorKind}
    {tail : List (Event UInt8 IoErrorKind)} {pending : Reads} (line : Bytes)
    (h : events pending = part.map .item ++ .failed kind :: tail) :
    ∃ buffer reads, readUntil line pending = (.error kind, buffer, reads) := by
  induction pending generalizing part line with
  | nil => cases part <;> cases h
  | cons outcome pending ih =>
      cases outcome with
      | err k =>
          cases part with
          | nil =>
              cases h
              exact ⟨[], pending, rfl⟩
          | cons b bs => cases h
      | data available =>
          by_cases havailable : available = []
          · rw [havailable] at h
            cases part <;> cases h
          · rw [events_data havailable] at h
            obtain ⟨part', rfl, hpending⟩ := items_before (fun x _ heq => by cases heq) h
            have hnot : (0x0A : UInt8) ∉ available := fun hmem => hpart (List.mem_append_left _ hmem)
            rw [readUntil_data line havailable, cutAt_of_not_mem hnot]
            exact ih (fun hmem => hpart (List.mem_append_right _ hmem)) _ hpending

/-- `read_article`: lines up to a lone dot, or to the end of the stream, unstuffed. -/
def readPosted (pending : Reads) : Except IoErrorKind (List Bytes) × Bytes × Reads :=
  match h : readUntil [] pending with
  | (.error kind, buffer, reads) => (.error kind, buffer, reads)
  | (.ok line, buffer, reads) =>
      if hline : line = [] then (.ok [], buffer, reads)
      else
        let content := trimEol line
        if content = [0x2E] then (.ok [], buffer, reads)
        else
          match readPosted (held buffer reads) with
          | (.error kind, buffer, reads) => (.error kind, buffer, reads)
          | (.ok lines, buffer, reads) => (.ok ((stripPrefix [0x2E] content).getD content :: lines), buffer, reads)
termination_by (events pending).length
decreasing_by exact readUntil_shorter h hline

section ReadPosted

variable {pending reads : Reads} {line buffer : Bytes} {kind : IoErrorKind}

theorem readPosted_error (h : readUntil [] pending = (.error kind, buffer, reads)) :
    readPosted pending = (.error kind, buffer, reads) := by
  rw [readPosted]
  split
  · next heq =>
      rw [h] at heq
      cases heq
      rfl
  · next heq =>
      rw [h] at heq
      cases heq

/-- An article ends with the stream, or with a lone dot. -/
theorem readPosted_end (h : readUntil [] pending = (.ok line, buffer, reads))
    (hend : line = [] ∨ trimEol line = [0x2E]) : readPosted pending = (.ok [], buffer, reads) := by
  rw [readPosted]
  split
  · next heq =>
      rw [h] at heq
      cases heq
  · next heq =>
      rw [h] at heq
      cases heq
      split
      · rfl
      · next hne => exact if_pos (hend.resolve_left hne)

theorem readPosted_line (h : readUntil [] pending = (.ok line, buffer, reads)) (hne : line ≠ [])
    (hdot : trimEol line ≠ [0x2E]) :
    readPosted pending =
      match readPosted (held buffer reads) with
      | (.error kind, buffer, reads) => (.error kind, buffer, reads)
      | (.ok lines, buffer, reads) =>
          (.ok ((stripPrefix [0x2E] (trimEol line)).getD (trimEol line) :: lines), buffer, reads) := by
  conv_lhs => rw [readPosted]
  split
  · next heq =>
      rw [h] at heq
      cases heq
  · next heq =>
      rw [h] at heq
      cases heq
      rw [dif_neg hne, if_neg hdot]

theorem length_readPosted {lines : List Bytes} (h : readPosted pending = (.ok lines, buffer, reads)) :
    (events (held buffer reads)).length ≤ (events pending).length := by
  generalize hsize : (events pending).length = size
  induction size using Nat.strong_induction_on generalizing pending lines with
  | h size ih =>
      rcases hread : readUntil [] pending with ⟨_ | line, buffer', reads'⟩
      · rw [readPosted_error hread] at h
        cases h
      · have hlen := length_readUntil hread
        rw [List.length_nil] at hlen
        by_cases hend : line = [] ∨ trimEol line = [0x2E]
        · rw [readPosted_end hread hend] at h
          cases h
          omega
        · rw [not_or] at hend
          rw [readPosted_line hread hend.1 hend.2] at h
          have hshorter := readUntil_shorter hread hend.1
          split at h
          · cases h
          · next lines' _ _ hrest =>
              cases h
              have := ih _ (by omega) hrest rfl
              omega

/-- **A whole article is read**, whatever the reads, and what follows it is left. -/
theorem readPosted_of_takeArticle {fuel : Nat} {input : Bytes} {taken : List Bytes × Bytes}
    (h : takeArticle fuel input = some taken) {tail : List (Event UInt8 IoErrorKind)}
    (hinput : events pending = input.map .item ++ tail) :
    ∃ buffer reads, readPosted pending = (.ok taken.1, buffer, reads) ∧
      events (held buffer reads) = taken.2.map .item ++ tail := by
  induction fuel generalizing input taken pending with
  | zero => cases h
  | succ fuel ih =>
      obtain ⟨⟨head, rest⟩, hcut, h⟩ := Option.bind_eq_some_iff.mp h
      obtain ⟨hnot, heq⟩ := of_cutAt hcut
      have hevents : events pending = head.map .item ++ .item 0x0A :: (rest.map .item ++ tail) := by
        rw [hinput, heq]
        simp
      obtain ⟨buffer, reads, hread, hheld⟩ := readUntil_line hnot [] hevents
      have hne : ([] ++ head ++ [0x0A] : Bytes) ≠ [] := by simp
      dsimp only at h
      split at h
      · next hdot =>
          cases h
          exact ⟨buffer, reads, readPosted_end hread (Or.inr hdot), hheld⟩
      · next hdot =>
          obtain ⟨⟨lines, rest'⟩, htaken, h⟩ := Option.bind_eq_some_iff.mp h
          cases h
          obtain ⟨buffer', reads', hposted, hleft⟩ := ih htaken hheld
          refine ⟨buffer', reads', ?_, hleft⟩
          rw [readPosted_line hread hne hdot, hposted]
          rfl

/-- An article that is not complete is none behind its first line either. -/
theorem takeArticle_rest {fuel : Nat} {input : Bytes} {cut : Bytes × Bytes} (hcut : cutAt 0x0A input = some cut)
    (h : takeArticle (fuel + 1) input = none) :
    trimEol (cut.1 ++ [0x0A]) ≠ [0x2E] ∧ takeArticle fuel cut.2 = none := by
  rw [takeArticle, hcut] at h
  by_cases hdot : trimEol (cut.1 ++ [0x0A]) = [0x2E]
  · simp [hdot] at h
  · cases hrest : takeArticle fuel cut.2 with
    | none => exact ⟨hdot, rfl⟩
    | some taken => simp [hdot, hrest] at h

/-- An article that the end of the stream cuts off ends there. -/
theorem readPosted_cutOff {fuel : Nat} {input : Bytes} (hfuel : input.length < fuel)
    (h : takeArticle fuel input = none) (hinput : events pending = input.map .item) :
    readPosted pending = (.ok (readArticle input).1, [], []) := by
  induction fuel generalizing input pending with
  | zero => omega
  | succ fuel ih =>
      cases hcut : cutAt 0x0A input with
      | none =>
          have hread := readUntil_end (not_mem_of_cutAt hcut) [] hinput
          have hpart : readUntilLf input = (input, []) := by simp [readUntilLf, hcut]
          rw [List.nil_append] at hread
          rw [readArticle, hpart]
          by_cases hnil : input = []
          · rw [dif_pos hnil, readPosted_end hread (Or.inl hnil)]
          · rw [dif_neg hnil]
            dsimp only
            split
            · next hdot => rw [readPosted_end hread (Or.inr hdot)]
            · next hdot =>
                have hempty : readUntil [] (held ([] : Bytes) []) = (.ok [], [], []) := rfl
                rw [readPosted_line hread hnil hdot, readPosted_end hempty (Or.inl rfl), readArticle]
                rfl
      | some cut =>
          obtain ⟨hnot, heq⟩ := of_cutAt hcut
          have hevents : events pending = cut.1.map .item ++ .item 0x0A :: cut.2.map .item := by
            rw [hinput, heq]
            simp
          obtain ⟨buffer, reads, hread, hheld⟩ := readUntil_line hnot [] hevents
          have hne : ([] ++ cut.1 ++ [0x0A] : Bytes) ≠ [] := by simp
          have hwhole : readUntilLf input = (cut.1 ++ [0x0A], cut.2) := by simp [readUntilLf, hcut]
          have hshorter : cut.2.length < input.length := by
            rw [heq]
            simp
            omega
          obtain ⟨hdot, hrest⟩ := takeArticle_rest hcut h
          rw [readArticle, hwhole, dif_neg (by simp), readPosted_line hread hne hdot, ih (by omega) hrest hheld]
          dsimp only
          rw [if_neg hdot]
          rfl

/-- A failure in an article comes back as such. -/
theorem readPosted_failure {fuel : Nat} {input : Bytes} (hfuel : input.length < fuel)
    (h : takeArticle fuel input = none) {tail : List (Event UInt8 IoErrorKind)}
    (hinput : events pending = input.map .item ++ .failed kind :: tail) :
    ∃ buffer reads, readPosted pending = (.error kind, buffer, reads) := by
  induction fuel generalizing input pending with
  | zero => omega
  | succ fuel ih =>
      cases hcut : cutAt 0x0A input with
      | none =>
          obtain ⟨buffer, reads, hread⟩ := readUntil_failure (not_mem_of_cutAt hcut) [] hinput
          exact ⟨buffer, reads, readPosted_error hread⟩
      | some cut =>
          obtain ⟨hnot, heq⟩ := of_cutAt hcut
          have hevents : events pending =
              cut.1.map .item ++ .item 0x0A :: (cut.2.map .item ++ .failed kind :: tail) := by
            rw [hinput, heq]
            simp
          obtain ⟨buffer, reads, hread, hheld⟩ := readUntil_line hnot [] hevents
          have hne : ([] ++ cut.1 ++ [0x0A] : Bytes) ≠ [] := by simp
          have hshorter : cut.2.length < input.length := by
            rw [heq]
            simp
            omega
          obtain ⟨hdot, hrest⟩ := takeArticle_rest hcut h
          obtain ⟨buffer', reads', hposted⟩ := ih (by omega) hrest hheld
          refine ⟨buffer', reads', ?_⟩
          rw [readPosted_line hread hne hdot, hposted]

end ReadPosted

/-! ## The session -/

/-- Why a session stopped. -/
inductive Outcome where
  | closed
  | upgradeToTls
  deriving DecidableEq, Repr

/-- Why it could not go on. -/
inductive SessionError where
  | io (kind : IoErrorKind)
  | dataAfterStarttls
  deriving DecidableEq, Repr

/-- A session that is over: how it ended, what it wrote, and what is left in the reader and behind it. -/
structure Ran where
  result : Except SessionError Outcome
  session : Session
  written : Bytes
  buffer : Bytes
  reads : Reads

/-- What was written before. -/
def Ran.behind (octets : Bytes) (ran : Ran) : Ran := { ran with written := octets ++ ran.written }

/-- One turn of the command loop: the session goes on, or it is over. -/
inductive Turn where
  | more (session : Session) (written : Bytes) (pending : Reads)
  | ended (ran : Ran)

namespace Session

/-- One turn of the command loop of `run` and of `command_loop_duplex`, which differ in what they do with
octets that the reader has already taken behind a `STARTTLS`. -/
def turn (onUpgrade : Bytes → Except SessionError Outcome) (session : Session) (pending : Reads) : Turn :=
  match readUntil [] pending with
  | (.error kind, buffer, reads) => .ended ⟨.error (.io kind), session, [], buffer, reads⟩
  | (.ok line, buffer, reads) =>
      if line = [] then .ended ⟨.ok .closed, session, [], buffer, reads⟩
      else
        let (session, flow, octets) := session.handle (trimEol line)
        match flow with
        | .continue => .more session octets (held buffer reads)
        | .close => .ended ⟨.ok .closed, session, octets, buffer, reads⟩
        | .upgradeToTls => .ended ⟨onUpgrade buffer, session, octets, buffer, reads⟩
        | .readArticle =>
            match readPosted (held buffer reads) with
            | (.error kind, buffer, reads) => .ended ⟨.error (.io kind), session, octets, buffer, reads⟩
            | (.ok lines, buffer, reads) =>
                let (session, reply) := session.acceptArticle lines
                let (session, answer) := session.write reply
                .more session (octets ++ answer) (held buffer reads)

section Turns

variable {onUpgrade : Bytes → Except SessionError Outcome} {session after : Session} {pending reads : Reads}
variable {line buffer octets : Bytes}

theorem turn_end (hread : readUntil [] pending = (.ok [], buffer, reads)) :
    session.turn onUpgrade pending = .ended ⟨.ok .closed, session, [], buffer, reads⟩ := by
  rw [turn, hread]
  exact if_pos rfl

theorem turn_failure {kind : IoErrorKind} (hread : readUntil [] pending = (.error kind, buffer, reads)) :
    session.turn onUpgrade pending = .ended ⟨.error (.io kind), session, [], buffer, reads⟩ := by
  rw [turn, hread]

variable (hread : readUntil [] pending = (.ok line, buffer, reads)) (hne : line ≠ [])

include hread hne

theorem turn_continue (h : session.handle (trimEol line) = (after, .continue, octets)) :
    session.turn onUpgrade pending = .more after octets (held buffer reads) := by
  rw [turn, hread]
  dsimp only
  rw [if_neg hne, h]

theorem turn_close (h : session.handle (trimEol line) = (after, .close, octets)) :
    session.turn onUpgrade pending = .ended ⟨.ok .closed, after, octets, buffer, reads⟩ := by
  rw [turn, hread]
  dsimp only
  rw [if_neg hne, h]

theorem turn_upgrade (h : session.handle (trimEol line) = (after, .upgradeToTls, octets)) :
    session.turn onUpgrade pending = .ended ⟨onUpgrade buffer, after, octets, buffer, reads⟩ := by
  rw [turn, hread]
  dsimp only
  rw [if_neg hne, h]

theorem turn_article (h : session.handle (trimEol line) = (after, .readArticle, octets)) {lines : List Bytes}
    {buffer' : Bytes} {reads' : Reads} (hposted : readPosted (held buffer reads) = (.ok lines, buffer', reads')) :
    session.turn onUpgrade pending = .more ((after.acceptArticle lines).1.write (after.acceptArticle lines).2).1
      (octets ++ ((after.acceptArticle lines).1.write (after.acceptArticle lines).2).2) (held buffer' reads') := by
  rw [turn, hread]
  dsimp only
  rw [if_neg hne, h]
  dsimp only
  rw [hposted]

theorem turn_article_failure (h : session.handle (trimEol line) = (after, .readArticle, octets))
    {kind : IoErrorKind} {buffer' : Bytes} {reads' : Reads}
    (hposted : readPosted (held buffer reads) = (.error kind, buffer', reads')) :
    session.turn onUpgrade pending = .ended ⟨.error (.io kind), after, octets, buffer', reads'⟩ := by
  rw [turn, hread]
  dsimp only
  rw [if_neg hne, h]
  dsimp only
  rw [hposted]

end Turns

theorem turn_shorter {onUpgrade : Bytes → Except SessionError Outcome} {session after : Session}
    {pending rest : Reads} {written : Bytes} (h : session.turn onUpgrade pending = .more after written rest) :
    (events rest).length < (events pending).length := by
  unfold turn at h
  split at h
  · cases h
  · next line buffer reads hread =>
      split at h
      · cases h
      · next hne =>
          have hshorter := readUntil_shorter hread hne
          dsimp only at h
          split at h
          · cases h
            exact hshorter
          · cases h
          · cases h
          · split at h
            · cases h
            · next lines buffer' reads' hposted =>
                have := length_readPosted hposted
                cases h
                omega

/-- The command loop, to the end of the session. -/
def commandLoop (onUpgrade : Bytes → Except SessionError Outcome) (session : Session) (pending : Reads) : Ran :=
  match h : session.turn onUpgrade pending with
  | .ended ran => ran
  | .more session written rest => (commandLoop onUpgrade session rest).behind written
termination_by (events pending).length
decreasing_by exact turn_shorter h

/-- The session is over behind the greeting, or its commands follow. -/
def greeted (session : Session) (reads : Reads) (commands : Ran) : Ran :=
  let (reply, flow) := session.greet
  let octets := statusLine session.config reply.code reply.text
  if flow = .close then ⟨.ok .closed, session, octets, [], reads⟩ else commands.behind octets

/-- `run`: over separate halves, where nobody looks at what the reader holds. -/
def run (session : Session) (reads : Reads) : Ran :=
  session.greeted reads (session.commandLoop (fun _ => .ok .upgradeToTls) reads)

/-- The commands over a single stream. Octets behind a `STARTTLS` that the reader has taken would be lost. -/
def commandLoopDuplex (session : Session) (reads : Reads) : Ran :=
  session.commandLoop
    (fun buffer => if buffer.isEmpty then .ok .upgradeToTls else .error .dataAfterStarttls) reads

/-- `run_duplex`: over a single stream. -/
def runDuplex (session : Session) (reads : Reads) : Ran :=
  session.greeted reads (session.commandLoopDuplex reads)

/-- `resume_duplex`: the commands without a greeting, over a stream that is encrypted now. -/
def resumeDuplex (session : Session) (reads : Reads) : Ran := session.commandLoopDuplex reads

/-! ## Octets -/

section Loops

variable {onUpgrade : Bytes → Except SessionError Outcome}

theorem commandLoop_over {session : Session} {pending : Reads} {ran : Ran}
    (h : session.turn onUpgrade pending = .ended ran) : session.commandLoop onUpgrade pending = ran := by
  rw [commandLoop]
  split
  · next heq =>
      rw [h] at heq
      cases heq
      rfl
  · next heq =>
      rw [h] at heq
      cases heq

theorem commandLoop_more {session after : Session} {pending rest : Reads} {written : Bytes}
    (h : session.turn onUpgrade pending = .more after written rest) :
    session.commandLoop onUpgrade pending = (after.commandLoop onUpgrade rest).behind written := by
  conv_lhs => rw [commandLoop]
  split
  · next heq =>
      rw [h] at heq
      cases heq
  · next heq =>
      rw [h] at heq
      cases heq
      rfl

end Loops

end Session

namespace Loop

theorem run_none {loop : Loop} (h : loop.turn = none) (fuel : Nat) : run fuel loop = (loop, []) := by
  cases fuel with
  | zero => rfl
  | succ fuel => rw [run, h]

theorem run_some {loop : Loop} {after : Loop × Bytes} (h : loop.turn = some after) (fuel : Nat) :
    run (fuel + 1) loop = ((run fuel after.1).1, after.2 ++ (run fuel after.1).2) := by
  rw [run, h]

/-- Where there is fuel enough, more makes no difference. -/
theorem run_fuel {fuel fuel' : Nat} {loop : Loop} (hfuel : loop.input.length < fuel)
    (hfuel' : loop.input.length < fuel') : run fuel loop = run fuel' loop := by
  induction fuel generalizing loop fuel' with
  | zero => omega
  | succ fuel ih =>
      obtain ⟨fuel', rfl⟩ : ∃ n, fuel' = n + 1 := ⟨fuel' - 1, by omega⟩
      cases hturn : loop.turn with
      | none => rw [run_none hturn, run_none hturn]
      | some after =>
          have hshorter := turn_shorter hturn
          have hsame : run fuel after.1 = run fuel' after.1 := ih (by omega) (by omega)
          rw [run_some hturn, run_some hturn, hsame]

/-- The turns of a loop until it has to wait. -/
def drain (loop : Loop) : Loop × Bytes := run (loop.input.length + 1) loop

theorem drain_none {loop : Loop} (h : loop.turn = none) : loop.drain = (loop, []) := run_none h _

theorem drain_some {loop : Loop} {after : Loop × Bytes} (h : loop.turn = some after) :
    loop.drain = (after.1.drain.1, after.2 ++ after.1.drain.2) := by
  have hshorter := turn_shorter h
  unfold drain
  rw [run_some h, run_fuel (show after.1.input.length < loop.input.length from hshorter) (Nat.lt_succ_self _)]

theorem turn_ended {loop : Loop} (h : loop.phase = .ended) : loop.turn = none := by
  unfold turn
  rw [h]

/-- A loop that more has come in for. -/
def fed (loop : Loop) (more : Bytes) : Loop := { loop with input := loop.input ++ more }

theorem receive_eq (loop : Loop) (octets : Bytes) : loop.receive octets = (loop.fed octets).drain := by
  unfold receive drain fed
  rw [List.length_append]

end Loop

/-- What the end of the stream makes of what a loop was waiting for: a part of a line is a line, and a part of an
article is an article. -/
def Loop.close (loop : Loop) : Loop × Bytes :=
  match loop.phase with
  | .command => if loop.input = [] then (loop, []) else loop.command loop.input []
  | .article => loop.article (readArticle loop.input).1 []
  | .ended => (loop, [])

/-- A line that is closed may ask for an article, which has none then. -/
def Loop.finish (loop : Loop) : Loop × Bytes :=
  let (closed, octets) := loop.close
  let (last, more) := closed.close
  (last, octets ++ more)

/-- What the stream brings before it ends or fails. -/
def Brings (pending : Reads) (input : Bytes) : Option IoErrorKind → Prop
  | none => events pending = input.map .item
  | some kind => ∃ tail, events pending = input.map .item ++ .failed kind :: tail

theorem Brings.tail {pending : Reads} {input : Bytes} {failure : Option IoErrorKind}
    (h : Brings pending input failure) :
    ∃ tail : List (Event UInt8 IoErrorKind), events pending = input.map .item ++ tail ∧
      ∀ reads input', events reads = input'.map .item ++ tail → Brings reads input' failure := by
  cases failure with
  | none => exact ⟨[], by rw [List.append_nil]; exact h, fun reads input' h' => by rw [List.append_nil] at h'; exact h'⟩
  | some kind =>
      obtain ⟨tail, h⟩ := h
      exact ⟨.failed kind :: tail, h, fun reads input' h' => ⟨tail, h'⟩⟩

/-- How a session that was run ends, where its loop stands so and answered that: what the loop has not taken is left
to be read. -/
def Ends (ran : Ran) (loop : Loop) (octets : Bytes) (failure : Option IoErrorKind) : Prop :=
  match loop.phase, failure with
  | .ended, _ =>
      ran.session = loop.session ∧ ran.written = octets ∧ Brings (held ran.buffer ran.reads) loop.input failure
  | _, none =>
      ran.session = loop.finish.1.session ∧ ran.written = octets ++ loop.finish.2 ∧ held ran.buffer ran.reads = []
  | _, some kind => ran.result = .error (.io kind) ∧ ran.session = loop.session ∧ ran.written = octets

theorem Ends.behind {ran : Ran} {loop : Loop} {octets : Bytes} {failure : Option IoErrorKind}
    (h : Ends ran loop octets failure) (before : Bytes) : Ends (ran.behind before) loop (before ++ octets) failure := by
  unfold Ends at h ⊢
  split at h
  · exact ⟨h.1, congrArg (before ++ ·) h.2.1, h.2.2⟩
  · refine ⟨h.1, ?_, h.2.2⟩
    rw [List.append_assoc, ← h.2.1]
    rfl
  · exact ⟨h.1, h.2.1, congrArg (before ++ ·) h.2.2⟩

section Refines

variable {onUpgrade : Bytes → Except SessionError Outcome}

/-- At the end of the stream a session is over. -/
theorem commandLoop_nil (session : Session) :
    session.commandLoop onUpgrade (held [] []) = ⟨.ok .closed, session, [], [], []⟩ :=
  Session.commandLoop_over rfl

/-- A loop that has taken a line. -/
theorem Loop.command_eq (loop : Loop) {line : Bytes} (rest : Bytes) {octets : Bytes} {after : Session} {flow : Flow}
    (h : loop.session.handle (trimEol line) = (after, flow, octets)) :
    ∃ replied, loop.command line rest = ({ session := after, input := rest, phase := flow.phase, replied }, octets) := by
  refine ⟨loop.replied ++ (loop.session.dispatch (trimEol line)).2.1.toList, ?_⟩
  rw [Loop.command, h]

/-- The last line of a stream that ends without a line ending. -/
theorem ends_lastLine {session : Session} {pending : Reads} {input : Bytes} (replied : List Reply)
    (hnot : (0x0A : UInt8) ∉ input) (h : events pending = input.map .item) :
    Ends (session.commandLoop onUpgrade pending) { session, input, replied } [] none := by
  have hread := readUntil_end hnot [] h
  rw [List.nil_append] at hread
  unfold Ends Loop.finish
  dsimp only
  by_cases hnil : input = []
  · subst hnil
    rw [Session.commandLoop_over (Session.turn_end hread)]
    exact ⟨rfl, rfl, rfl⟩
  · rcases hhandle : session.handle (trimEol input) with ⟨after, flow, octets⟩
    obtain ⟨replied', hcommand⟩ := Loop.command_eq { session, input, replied } [] hhandle
    have hclose : Loop.close { session, input, replied } =
        ({ session := after, input := [], phase := flow.phase, replied := replied' }, octets) := by
      rw [← hcommand]
      exact if_neg hnil
    rw [hclose]
    cases flow with
    | «continue» =>
        rw [Session.commandLoop_more (Session.turn_continue hread hnil hhandle), commandLoop_nil]
        exact ⟨rfl, rfl, rfl⟩
    | close =>
        rw [Session.commandLoop_over (Session.turn_close hread hnil hhandle)]
        exact ⟨rfl, by simp [Loop.close, Flow.phase], rfl⟩
    | upgradeToTls =>
        rw [Session.commandLoop_over (Session.turn_upgrade hread hnil hhandle)]
        exact ⟨rfl, by simp [Loop.close, Flow.phase], rfl⟩
    | readArticle =>
        have hposted : readPosted (held ([] : Bytes) []) = (.ok [], [], []) :=
          readPosted_end (show readUntil [] (held [] []) = (.ok [], [], []) from rfl) (Or.inl rfl)
        have harticle : readArticle [] = ([], []) := by
          rw [readArticle]
          rfl
        rw [Session.commandLoop_more (Session.turn_article hread hnil hhandle hposted), commandLoop_nil]
        simp only [Loop.close, Flow.phase, harticle, Loop.article]
        exact ⟨rfl, by simp [Ran.behind], rfl⟩

/-- **The command loop does what its octets say**: where the reads bring the input of a loop, the session ends as
the loop does when it has taken it. -/
theorem ends_commandLoop {session : Session} {pending : Reads} {input : Bytes} {failure : Option IoErrorKind}
    (h : Brings pending input failure) (replied : List Reply) :
    Ends (session.commandLoop onUpgrade pending) (Loop.drain { session, input, replied }).1
      (Loop.drain { session, input, replied }).2 failure := by
  generalize hsize : input.length = size
  induction size using Nat.strong_induction_on generalizing session pending input replied with
  | h size ih =>
      cases hcut : cutAt 0x0A input with
      | none =>
          have hnot := not_mem_of_cutAt hcut
          have hwaits : Loop.turn { session, input, replied } = none := by simp [Loop.turn, hcut]
          rw [Loop.drain_none hwaits]
          cases failure with
          | none => exact ends_lastLine replied hnot h
          | some kind =>
              obtain ⟨tail, htail⟩ := h
              obtain ⟨buffer, reads, hread⟩ := readUntil_failure hnot [] htail
              rw [Session.commandLoop_over (Session.turn_failure hread)]
              exact ⟨rfl, rfl, rfl⟩
      | some cut =>
          obtain ⟨head, rest⟩ := cut
          obtain ⟨hnot, hinput⟩ := of_cutAt hcut
          have hshorter : rest.length < input.length := by
            rw [hinput]
            simp
            omega
          obtain ⟨tail, hevents, hback⟩ := h.tail
          have hline : events pending = head.map .item ++ .item 0x0A :: (rest.map .item ++ tail) := by
            rw [hevents, hinput]
            simp
          obtain ⟨buffer, reads, hread, hheld⟩ := readUntil_line hnot [] hline
          rw [List.nil_append] at hread
          have hne : head ++ [0x0A] ≠ [] := by simp
          have hrest : Brings (held buffer reads) rest failure := hback _ _ hheld
          rcases hhandle : session.handle (trimEol (head ++ [0x0A])) with ⟨after, flow, octets⟩
          obtain ⟨replied', hcommand⟩ := Loop.command_eq { session, input, replied } rest hhandle
          have hturn : Loop.turn { session, input, replied } =
              some ({ session := after, input := rest, phase := flow.phase, replied := replied' }, octets) := by
            rw [← hcommand]
            simp [Loop.turn, hcut]
          rw [Loop.drain_some hturn]
          dsimp only
          cases flow with
          | «continue» =>
              rw [Session.commandLoop_more (Session.turn_continue hread hne hhandle)]
              exact (ih rest.length (by omega) hrest replied' rfl).behind octets
          | close =>
              rw [Session.commandLoop_over (Session.turn_close hread hne hhandle),
                Loop.drain_none (Loop.turn_ended rfl)]
              exact ⟨rfl, (List.append_nil octets).symm, hrest⟩
          | upgradeToTls =>
              rw [Session.commandLoop_over (Session.turn_upgrade hread hne hhandle),
                Loop.drain_none (Loop.turn_ended rfl)]
              exact ⟨rfl, (List.append_nil octets).symm, hrest⟩
          | readArticle =>
              cases harticle : takeArticle (rest.length + 1) rest with
              | some taken =>
                  obtain ⟨buffer', reads', hposted, hleft⟩ := readPosted_of_takeArticle harticle hheld
                  have htaken : Loop.turn
                      { session := after, input := rest, phase := Flow.readArticle.phase, replied := replied' } =
                      some (Loop.article
                        { session := after, input := rest, phase := Flow.readArticle.phase, replied := replied' }
                        taken.1 taken.2) := by
                    simp [Loop.turn, Flow.phase, harticle]
                  have hless := takeArticle_shorter harticle
                  rw [Session.commandLoop_more (Session.turn_article hread hne hhandle hposted),
                    Loop.drain_some htaken]
                  dsimp only [Loop.article]
                  rw [← List.append_assoc]
                  exact (ih taken.2.length (by omega) (hback _ _ hleft) _ rfl).behind _
              | none =>
                  have hwaits : Loop.turn
                      { session := after, input := rest, phase := Flow.readArticle.phase, replied := replied' } =
                      none := by
                    simp [Loop.turn, Flow.phase, harticle]
                  rw [Loop.drain_none hwaits]
                  cases failure with
                  | none =>
                      have hposted := readPosted_cutOff (Nat.lt_succ_self _) harticle hrest
                      rw [Session.commandLoop_more (Session.turn_article hread hne hhandle hposted),
                        commandLoop_nil]
                      refine ⟨rfl, ?_, rfl⟩
                      simp [Ran.behind, Loop.finish, Loop.close, Loop.article, Flow.phase]
                  | some kind =>
                      obtain ⟨tail', htail⟩ := hrest
                      obtain ⟨buffer', reads', hposted⟩ := readPosted_failure (Nat.lt_succ_self _) harticle htail
                      rw [Session.commandLoop_over (Session.turn_article_failure hread hne hhandle hposted)]
                      exact ⟨rfl, rfl, (List.append_nil octets).symm⟩

end Refines

/-! ## What comes in pieces -/

/-- A complete article is what stands before the rest, whatever the rest. -/
theorem takeArticle_front {fuel : Nat} {input : Bytes} {taken : List Bytes × Bytes}
    (h : takeArticle fuel input = some taken) :
    ∃ front, input = front ++ taken.2 ∧ ∀ (rest : Bytes) (fuel' : Nat), front.length ≤ fuel' →
      takeArticle fuel' (front ++ rest) = some (taken.1, rest) := by
  induction fuel generalizing input taken with
  | zero => cases h
  | succ fuel ih =>
      obtain ⟨⟨head, rest⟩, hcut, hbody⟩ := Option.bind_eq_some_iff.mp h
      obtain ⟨hnot, rfl⟩ := of_cutAt hcut
      have hline : ∀ (front more : Bytes) (fuel' : Nat), (head ++ 0x0A :: front).length ≤ fuel' →
          ∃ n, fuel' = n + 1 ∧ front.length ≤ n ∧
            cutAt 0x0A (head ++ 0x0A :: front ++ more) = some (head, front ++ more) := by
        intro front more fuel' hfuel
        rw [List.length_append, List.length_cons] at hfuel
        refine ⟨fuel' - 1, by omega, by omega, ?_⟩
        rw [List.append_assoc, List.cons_append, cutAt_append hnot]
      dsimp only [bind, Option.bind] at hbody
      split at hbody
      · next hdot =>
          cases hbody
          refine ⟨head ++ [0x0A], by simp, fun more fuel' hfuel => ?_⟩
          obtain ⟨n, rfl, -, hcut'⟩ := hline [] more fuel' hfuel
          rw [takeArticle, hcut']
          exact if_pos hdot
      · next hdot =>
          cases hrest : takeArticle fuel rest with
          | none =>
              rw [hrest] at hbody
              cases hbody
          | some taken' =>
              rw [hrest] at hbody
              cases hbody
              obtain ⟨front, hfront, htake⟩ := ih hrest
              refine ⟨head ++ 0x0A :: front, by simp [hfront], fun more fuel' hfuel => ?_⟩
              obtain ⟨n, rfl, hn, hcut'⟩ := hline front more fuel' hfuel
              rw [takeArticle, hcut']
              dsimp only [bind, Option.bind]
              rw [if_neg hdot, htake more n hn]
              rfl

namespace Loop

/-- **A turn takes what stands before the rest**, whatever the rest. -/
theorem turn_front {loop : Loop} {after : Loop × Bytes} (h : loop.turn = some after) :
    ∃ front, loop.input = front ++ after.1.input ∧
      ∀ rest, turn { loop with input := front ++ rest } = some ({ after.1 with input := rest }, after.2) := by
  unfold turn at h ⊢
  cases hphase : loop.phase with
  | command =>
      rw [hphase] at h
      obtain ⟨⟨head, rest⟩, hcut, rfl⟩ := Option.map_eq_some_iff.mp h
      obtain ⟨hnot, heq⟩ := of_cutAt hcut
      refine ⟨head ++ [0x0A], by rw [heq]; simp [command], fun more => ?_⟩
      dsimp only
      rw [List.append_assoc, List.singleton_append, cutAt_append hnot]
      rfl
  | article =>
      rw [hphase] at h
      obtain ⟨taken, htaken, rfl⟩ := Option.map_eq_some_iff.mp h
      obtain ⟨front, hfront, htake⟩ := takeArticle_front htaken
      refine ⟨front, hfront, fun more => ?_⟩
      dsimp only
      rw [htake more _ (by rw [List.length_append]; omega)]
      rfl
  | ended =>
      rw [hphase] at h
      cases h

theorem turn_fed {loop : Loop} {after : Loop × Bytes} (h : loop.turn = some after) (more : Bytes) :
    (loop.fed more).turn = some (after.1.fed more, after.2) := by
  obtain ⟨front, hfront, hturn⟩ := turn_front h
  have hfed : loop.fed more = { loop with input := front ++ (after.1.input ++ more) } := by
    rw [← List.append_assoc, ← hfront]
    rfl
  rw [hfed, hturn]
  rfl

/-- **A loop that has ended took what stands before the rest**, whatever the rest. -/
theorem drain_front (loop : Loop) :
    ∃ used, loop.input = used ++ loop.drain.1.input ∧ (loop.drain.1.phase = .ended →
      ∀ rest, drain { loop with input := used ++ rest } = ({ loop.drain.1 with input := rest }, loop.drain.2)) := by
  generalize hsize : loop.input.length = size
  induction size using Nat.strong_induction_on generalizing loop with
  | h size ih =>
      cases hturn : loop.turn with
      | none =>
          rw [drain_none hturn]
          exact ⟨[], rfl, fun hended rest => drain_none (turn_ended hended)⟩
      | some after =>
          have hshorter := turn_shorter hturn
          obtain ⟨used, hused, hdrain⟩ := ih after.1.input.length (by omega) after.1 rfl
          obtain ⟨front, hfront, hfronts⟩ := turn_front hturn
          rw [drain_some hturn]
          refine ⟨front ++ used, ?_, fun hended rest => ?_⟩
          · dsimp only
            rw [hfront, hused, List.append_assoc]
          · rw [List.append_assoc, drain_some (hfronts _)]
            dsimp only
            rw [hdrain hended rest]

/-- What a loop does that more has come in for is what it does before and what it does then. -/
theorem drain_fed (loop : Loop) (more : Bytes) :
    (loop.fed more).drain =
      ((loop.drain.1.fed more).drain.1, loop.drain.2 ++ (loop.drain.1.fed more).drain.2) := by
  generalize hsize : loop.input.length = size
  induction size using Nat.strong_induction_on generalizing loop with
  | h size ih =>
      cases hturn : loop.turn with
      | none =>
          rw [drain_none hturn]
          rfl
      | some after =>
          have hshorter := turn_shorter hturn
          rw [drain_some hturn, drain_some (turn_fed hturn more)]
          dsimp only
          rw [ih after.1.input.length (by omega) after.1 rfl, List.append_assoc]

/-- **What comes in pieces comes to the same.** -/
theorem receive_append (loop : Loop) (octets more : Bytes) :
    loop.receive (octets ++ more) =
      (((loop.receive octets).1.receive more).1, (loop.receive octets).2 ++ ((loop.receive octets).1.receive more).2) := by
  have hfed : loop.fed (octets ++ more) = (loop.fed octets).fed more := by
    unfold fed
    simp
  rw [receive_eq, receive_eq, receive_eq, hfed, drain_fed]

/-- The other end of a connection that writes piece by piece. -/
theorem feed_loop {loop : Loop} (hrest : loop.turn = none) (writes : List Bytes) :
    (Connection.feed loop writes).1 = (loop.receive writes.flatten).1 ∧
      events (Connection.feed loop writes).2 = (loop.receive writes.flatten).2.map .item := by
  induction writes generalizing loop with
  | nil =>
      have hnone : loop.receive [] = (loop, []) := by
        rw [receive_eq, fed, List.append_nil]
        exact drain_none hrest
      rw [List.flatten_nil, hnone]
      exact ⟨rfl, rfl⟩
  | cons octets writes ih =>
      have hafter : (loop.receive octets).1.turn = none := by
        refine turn_run ?_
        simp
      obtain ⟨hloop, hevents⟩ := ih hafter
      rw [List.flatten_cons, receive_append]
      refine ⟨hloop, ?_⟩
      rw [List.map_append, ← hevents, Connection.feed]
      show events (held (loop.receive octets).2 [] ++ (Connection.feed (loop.receive octets).1 writes).2) = _
      rw [events_append, events_held, events_nil, List.append_nil]

end Loop

/-! ## Whole sessions -/

/-- How a session over a single stream ends where one over separate halves ends so: not with an upgrade that would
lose what the reader holds. -/
def Ran.checked (ran : Ran) : Except SessionError Outcome :=
  match ran.result with
  | .ok .upgradeToTls => if ran.buffer.isEmpty then .ok .upgradeToTls else .error .dataAfterStarttls
  | other => other

theorem commandLoopDuplex_eq (session : Session) (pending : Reads) :
    session.commandLoopDuplex pending =
      { session.commandLoop (fun _ => .ok .upgradeToTls) pending with
        result := (session.commandLoop (fun _ => .ok .upgradeToTls) pending).checked } := by
  generalize hsize : (events pending).length = size
  induction size using Nat.strong_induction_on generalizing session pending with
  | h size ih =>
      unfold Session.commandLoopDuplex at ih ⊢
      rcases hread : readUntil [] pending with ⟨kind | line, buffer, reads⟩
      · rw [Session.commandLoop_over (Session.turn_failure hread),
          Session.commandLoop_over (Session.turn_failure hread)]
        rfl
      · by_cases hne : line = []
        · subst hne
          rw [Session.commandLoop_over (Session.turn_end hread), Session.commandLoop_over (Session.turn_end hread)]
          rfl
        · have hshorter := readUntil_shorter hread hne
          rcases hhandle : session.handle (trimEol line) with ⟨after, flow, octets⟩
          cases flow with
          | «continue» =>
              rw [Session.commandLoop_more (Session.turn_continue hread hne hhandle),
                Session.commandLoop_more (Session.turn_continue hread hne hhandle),
                ih _ (by omega) after (held buffer reads) rfl]
              rfl
          | close =>
              rw [Session.commandLoop_over (Session.turn_close hread hne hhandle),
                Session.commandLoop_over (Session.turn_close hread hne hhandle)]
              rfl
          | upgradeToTls =>
              rw [Session.commandLoop_over (Session.turn_upgrade hread hne hhandle),
                Session.commandLoop_over (Session.turn_upgrade hread hne hhandle)]
              rfl
          | readArticle =>
              rcases hposted : readPosted (held buffer reads) with ⟨kind | lines, buffer', reads'⟩
              · rw [Session.commandLoop_over (Session.turn_article_failure hread hne hhandle hposted),
                  Session.commandLoop_over (Session.turn_article_failure hread hne hhandle hposted)]
                rfl
              · have hless := length_readPosted hposted
                rw [Session.commandLoop_more (Session.turn_article hread hne hhandle hposted),
                  Session.commandLoop_more (Session.turn_article hread hne hhandle hposted),
                  ih _ (by omega) _ (held buffer' reads') rfl]
                rfl

/-- A greeted session ends as its commands do, behind the greeting. -/
theorem ends_greeted {session : Session} {reads : Reads} {failure : Option IoErrorKind} {input : Bytes}
    {commands : Ran} (hreads : Brings reads input failure)
    (h : Ends commands (Loop.drain { session, input, replied := [session.greet.1] }).1
      (Loop.drain { session, input, replied := [session.greet.1] }).2 failure) :
    Ends (session.greeted reads commands) ((Loop.start session).1.receive input).1
      ((Loop.start session).2 ++ ((Loop.start session).1.receive input).2) failure := by
  rw [Loop.receive_eq]
  rcases hgreet : session.greet with ⟨reply, flow⟩
  have hstart : Loop.start session = ({ session, phase := flow.phase, replied := [reply] },
      statusLine session.config reply.code reply.text) := by
    rw [Loop.start, hgreet]
  rw [hgreet] at h
  rw [hstart, Session.greeted, hgreet]
  by_cases hclose : flow = .close
  · subst hclose
    dsimp only
    rw [if_pos rfl, Loop.drain_none (Loop.turn_ended rfl)]
    exact ⟨rfl, (List.append_nil _).symm, hreads⟩
  · have hflow : flow = .continue := by
      unfold Session.greet at hgreet
      split at hgreet
      · cases hgreet
        rfl
      · cases hgreet
        rfl
      · cases hgreet
        exact absurd rfl hclose
    subst hflow
    dsimp only
    rw [if_neg hclose]
    exact h.behind _

/-- A server without groups. -/
def bareServer : Session := Session.new {} {}

/-- The server is asked for the time, and told to close. -/
def farewell : List Bytes := ["DATE\r\n", "QUIT\r\n"].map fun line => asBytes line.toList

/-- How that arrives: no piece is a line. -/
def farewellPieces : Reads := ["DA", "TE\r\nQU", "IT\r\n"].map fun piece => .data (asBytes piece.toList)

end Nntp.TestServer
