import Nntp.Client.Connection
import Nntp.TestServer.Session

/-!
# The loop around a session

`Session::run`: command lines are read and handled one by one, and behind the answer to `POST` an article.
What has arrived and is not a whole line, or a whole article, waits for more. A loop is the other end of a
client's connection; for the proofs it keeps the answers it gave.
-/

namespace Nntp.TestServer

open Nntp.Lib Nntp.Proto Nntp.Client

/-- `read_article` on input that may still be growing: nothing until the lone dot is there. -/
def takeArticle : Nat → Bytes → Option (List Bytes × Bytes)
  | 0, _ => none
  | fuel + 1, input => do
      let (head, rest) ← cutAt 0x0A input
      let content := trimEol (head ++ [0x0A])
      if content = [0x2E] then pure ([], rest)
      else
        let (lines, rest) ← takeArticle fuel rest
        pure ((stripPrefix [0x2E] content).getD content :: lines, rest)

/-- A whole article is taken as `read_article` reads it. -/
theorem readArticle_of_takeArticle {fuel : Nat} {input : Bytes} {taken : List Bytes × Bytes}
    (h : takeArticle fuel input = some taken) : readArticle input = taken := by
  induction fuel generalizing input taken with
  | zero => cases h
  | succ fuel ih =>
      obtain ⟨⟨head, rest⟩, hcut, h⟩ := Option.bind_eq_some_iff.mp h
      have hread : readUntilLf input = (head ++ [0x0A], rest) := by simp [readUntilLf, hcut]
      rw [readArticle, hread, dif_neg (by simp)]
      dsimp only at h ⊢
      split at h
      · next hdot =>
          rw [if_pos hdot]
          exact Option.some.inj h
      · next hdot =>
          obtain ⟨⟨lines, rest'⟩, htaken, h⟩ := Option.bind_eq_some_iff.mp h
          rw [if_neg hdot, ih htaken]
          exact Option.some.inj h

theorem takeArticle_shorter {fuel : Nat} {input : Bytes} {taken : List Bytes × Bytes}
    (h : takeArticle fuel input = some taken) : taken.2.length < input.length := by
  induction fuel generalizing input taken with
  | zero => cases h
  | succ fuel ih =>
      obtain ⟨⟨head, rest⟩, hcut, h⟩ := Option.bind_eq_some_iff.mp h
      have hlen : rest.length < input.length := by
        rw [(of_cutAt hcut).2]
        simp only [List.length_append, List.length_cons]
        omega
      dsimp only at h
      split at h
      · cases h
        exact hlen
      · obtain ⟨⟨lines, rest'⟩, htaken, h⟩ := Option.bind_eq_some_iff.mp h
        cases h
        exact (ih htaken).trans hlen

/-- What the loop waits for. -/
inductive Phase where
  | command
  | article
  | ended
  deriving DecidableEq, Repr

/-- What comes after a command. -/
def Flow.phase : Flow → Phase
  | .continue => .command
  | .readArticle => .article
  | .close => .ended
  -- the handshake and the phase behind it are not the loop's
  | .upgradeToTls => .ended

/-- A session and its loop. -/
structure Loop where
  session : Session
  /-- what has arrived and not been taken -/
  input : Bytes := []
  phase : Phase := .command
  /-- the answers given, oldest first -/
  replied : List Reply := []

namespace Loop

/-- A line is handled. -/
def command (loop : Loop) (line rest : Bytes) : Loop × Bytes :=
  let (session, flow, octets) := loop.session.handle (trimEol line)
  ({ session, input := rest, phase := flow.phase
     replied := loop.replied ++ (loop.session.dispatch (trimEol line)).2.1.toList }, octets)

/-- An article is handled. -/
def article (loop : Loop) (lines : List Bytes) (rest : Bytes) : Loop × Bytes :=
  let (session, reply) := loop.session.acceptArticle lines
  let (session, octets) := session.write reply
  ({ session, input := rest, phase := .command, replied := loop.replied ++ [reply] }, octets)

/-- One turn of the loop, if what it waits for has arrived. -/
def turn (loop : Loop) : Option (Loop × Bytes) :=
  match loop.phase with
  | .command => (cutAt 0x0A loop.input).map fun cut => loop.command (cut.1 ++ [0x0A]) cut.2
  | .article =>
      (takeArticle (loop.input.length + 1) loop.input).map fun taken => loop.article taken.1 taken.2
  | .ended => none

/-- The turns of the loop until it has to wait. -/
def run : Nat → Loop → Loop × Bytes
  | 0, loop => (loop, [])
  | fuel + 1, loop =>
      match loop.turn with
      | none => (loop, [])
      | some (loop, octets) => ((run fuel loop).1, octets ++ (run fuel loop).2)

theorem turn_shorter {loop : Loop} {after : Loop × Bytes} (h : loop.turn = some after) :
    after.1.input.length < loop.input.length := by
  unfold turn at h
  split at h
  · obtain ⟨⟨head, rest⟩, hcut, rfl⟩ := Option.map_eq_some_iff.mp h
    rw [(of_cutAt hcut).2]
    simp only [command, List.length_append, List.length_cons]
    omega
  · obtain ⟨taken, htaken, rfl⟩ := Option.map_eq_some_iff.mp h
    exact takeArticle_shorter htaken
  · cases h

/-- Every octet of the input can be worth a turn; after that many the loop waits. -/
theorem turn_run {fuel : Nat} {loop : Loop} (h : loop.input.length < fuel) :
    (run fuel loop).1.turn = none := by
  induction fuel generalizing loop with
  | zero => omega
  | succ fuel ih =>
      unfold run
      cases hturn : loop.turn with
      | none => exact hturn
      | some after =>
          have hshorter := turn_shorter hturn
          exact ih (by omega)

/-- What comes in is taken as far as it goes. -/
def receive (loop : Loop) (octets : Bytes) : Loop × Bytes :=
  run (loop.input.length + octets.length + 1) { loop with input := loop.input ++ octets }

instance : Peer Loop where
  react loop octets := (.ok (), (loop.receive octets).1, held (loop.receive octets).2 [])

/-- The loop behind a new session, and its greeting. -/
def start (session : Session) : Loop × Bytes :=
  let (reply, flow) := session.greet
  ({ session, phase := flow.phase, replied := [reply] },
    statusLine session.config reply.code reply.text)

end Loop

end Nntp.TestServer
