import Nntp.Proto.Text

/-!
# How the test server behaves

`config.rs`: the configuration of the server under `nntp-testserver`, and the misbehaviour it can be
asked for. `line_delay` and `idle_timeout` only change when something happens, not what, and are left out.
-/

namespace Nntp.TestServer

open Nntp.Proto

/-- What the server sends as its opening banner. -/
inductive GreetingMode where
  | postingAllowed
  | noPosting
  | refuse (code : Nat) (text : Str)
  deriving DecidableEq, Repr

/-- Which capability list the server advertises. -/
inductive CapabilityProfile where
  | modern
  | noOver
  | transit
  | legacy
  deriving DecidableEq, Repr

/-- Deliberate misbehaviour. -/
structure Quirks where
  noOverviewFmt : Bool := false
  rejectOpenEndedRanges : Bool := false
  refusePost : Option Str := none
  closeAfterCommands : Option Nat := none
  truncateNextBlock : Bool := false
  overlongHelpLine : Bool := false
  bareLf : Bool := false
  overAdvertisedButMissing : Bool := false
  noListWildmat : Bool := false
  deriving DecidableEq, Repr

structure Credentials where
  username : Str
  password : Str
  deriving DecidableEq, Repr

structure ServerConfig where
  greeting : GreetingMode := .postingAllowed
  capabilities : CapabilityProfile := .modern
  credentials : Option Credentials := none
  requireAuth : Bool := false
  quirks : Quirks := {}
  /-- the server name used in the greeting -/
  serverName : Str := "test.invalid".toList
  starttls : Bool := false
  deriving DecidableEq, Repr

/-- The CR of the line terminator, if the configuration sends one. -/
def ServerConfig.carriageReturn (config : ServerConfig) : Bytes :=
  if config.quirks.bareLf then [] else [0x0D]

/-- The line terminator this configuration uses. -/
def ServerConfig.terminator (config : ServerConfig) : Bytes :=
  if config.quirks.bareLf then [0x0A] else [0x0D, 0x0A]

theorem ServerConfig.terminator_eq (config : ServerConfig) :
    config.terminator = config.carriageReturn ++ [0x0A] := by
  unfold terminator carriageReturn
  split <;> rfl

end Nntp.TestServer
