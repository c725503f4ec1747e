import Nntp.Lib.Stream
import Nntp.Proto.Block
import Nntp.TestServer.Config

/-!
# What the test server writes and reads

The output helpers of `session.rs` and its `read_article`: status lines, data blocks, and the data
block a client posts.
-/

namespace Nntp.TestServer

open Nntp.Lib Nntp.Proto

/-- Per-connection state. -/
structure State where
  authenticated : Bool := false
  pendingUser : Option Str := none
  readerMode : Bool := false
  currentGroup : Option Str := none
  currentArticle : Option UInt64 := none
  commandsServed : Nat := 0
  truncateNextBlock : Bool := false
  encrypted : Bool := false
  /-- a quirk has left the stream in a state the session cannot continue from -/
  closeRequested : Bool := false
  deriving DecidableEq, Repr

/-! ## Writing -/

/-- A status line. -/
def statusLine (config : ServerConfig) (code : Nat) (text : Str) : Bytes :=
  asBytes (display code ++ ' ' :: text) ++ config.terminator

/-- One line of a data block, dot-stuffed. -/
def blockLine (config : ServerConfig) (line : Bytes) : Bytes :=
  (if line.head? = some 0x2E then [0x2E] else []) ++ line ++ config.terminator

/-- Writes a data block. Truncated, it stops behind its first line and asks for the connection to be
closed. -/
def block (config : ServerConfig) (state : State) (lines : List Bytes) : State × Bytes :=
  if state.truncateNextBlock then
    ({ state with truncateNextBlock := false, closeRequested := true },
      (lines.take 1).flatMap (blockLine config))
  else (state, lines.flatMap (blockLine config) ++ 0x2E :: config.terminator)

/-! ## Reading -/

/-- `trim_eol`. -/
def trimEol (line : Bytes) : Bytes :=
  let line := (stripSuffix [0x0A] line).getD line
  (stripSuffix [0x0D] line).getD line

/-- `read_until(b'\n')`: a line with its LF, if one came, and what is left. -/
def readUntilLf (input : Bytes) : Bytes × Bytes :=
  match cutAt 0x0A input with
  | some (head, rest) => (head ++ [0x0A], rest)
  | none => (input, [])

theorem length_readUntilLf {input : Bytes} (h : (readUntilLf input).1 ≠ []) :
    (readUntilLf input).2.length < input.length := by
  unfold readUntilLf at h ⊢
  split at h
  · next head rest hcut =>
      rw [(of_cutAt hcut).2]
      simp only [List.length_append, List.length_cons]
      omega
  · exact List.length_pos_of_ne_nil h

/-- Reads a data block a client is sending: lines until a lone dot, unstuffed. A block without its
terminator ends with the input. -/
def readArticle (input : Bytes) : List Bytes × Bytes :=
  if h : (readUntilLf input).1 = [] then ([], input)
  else
    let content := trimEol (readUntilLf input).1
    if content = [0x2E] then ([], (readUntilLf input).2)
    else
      let later := readArticle (readUntilLf input).2
      ((stripPrefix [0x2E] content).getD content :: later.1, later.2)
termination_by input.length
decreasing_by exact length_readUntilLf h

end Nntp.TestServer
