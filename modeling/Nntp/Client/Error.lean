import Nntp.Proto.Response

/-!
# Client errors

`error.rs`: what can go wrong while talking to a server, which of it ends the connection, and what a
failure code of a status line stands for.
-/

namespace Nntp.Client

open Nntp.Proto

/-- The kinds of `io::Error` the client tells apart. -/
inductive IoErrorKind where
  | timedOut
  | wouldBlock
  | unexpectedEof
  | other
  deriving DecidableEq, Repr

/-- Anything that can go wrong while talking to a news server. -/
inductive ClientError where
  | io (kind : IoErrorKind)
  | cancelled (what : String)
  | connectionClosed (context : Option String)
  | timeout
  | proto (error : ProtoError)
  | lineTooLong (limit : Nat)
  | blockTooLarge (what : String) (limit : Nat)
  | unexpectedResponse (command expected : String) (code : Nat) (text : Str)
  | authenticationRequired (text : Str)
  | authenticationRejected (text : Str)
  | plaintextAuthenticationRefused
  | noSuchGroup (group text : Str)
  | noGroupSelected (command : String)
  | noSuchArticle (what : Str)
  | postingNotAllowed (reason : Str)
  | postingRejected (code : Nat) (text : Str)
  | commandNotSupported (command : String)
  | server (command : String) (code : Nat) (text : Str)
  | tls (text : Str)
  | featureNotCompiled (what : String)
  deriving DecidableEq, Repr

namespace ClientError

/-- Wraps an IO error, distinguishing a timeout from a real failure. -/
def fromIo : IoErrorKind → ClientError
  | .timedOut => timeout
  | .wouldBlock => timeout
  | .unexpectedEof => connectionClosed none
  | .other => io .other

/-- The error for a failure status line. -/
def fromStatus (command : String) (line : StatusLine) : ClientError :=
  match line.code with
  | 480 => authenticationRequired line.text
  | 481 => authenticationRejected line.text
  | 482 => authenticationRejected line.text
  -- the caller knows which group it asked for
  | 411 => noSuchGroup [] line.text
  | 412 => noGroupSelected command
  | 420 => noSuchArticle (if line.text.isEmpty then command.toList else line.text)
  | 423 => noSuchArticle (if line.text.isEmpty then command.toList else line.text)
  | 430 => noSuchArticle (if line.text.isEmpty then command.toList else line.text)
  | 500 => commandNotSupported command
  | 503 => commandNotSupported command
  | code => server command code line.text

/-- Whether the connection is unusable and must be re-established. -/
def isConnectionFatal : ClientError → Bool
  | io _ => true
  | connectionClosed _ => true
  | timeout => true
  | proto _ => true
  | lineTooLong _ => true
  | blockTooLarge _ _ => true
  | cancelled _ => true
  | tls _ => true
  | unexpectedResponse .. => false
  | authenticationRequired _ => false
  | authenticationRejected _ => false
  | plaintextAuthenticationRefused => false
  | noSuchGroup .. => false
  | noGroupSelected _ => false
  | noSuchArticle _ => false
  | commandNotSupported _ => false
  | server .. => false
  | postingNotAllowed _ => false
  | postingRejected .. => false
  | featureNotCompiled _ => false

/-- Whether this is the caller's own cancellation coming back. -/
def isCancelled : ClientError → Bool
  | cancelled _ => true
  | _ => false

/-- Whether the caller should obtain credentials and try again. -/
def needsAuthentication : ClientError → Bool
  | authenticationRequired _ => true
  | _ => false

/-- A cancellation ends the connection. -/
theorem isConnectionFatal_of_isCancelled {e : ClientError} (h : e.isCancelled = true) :
    e.isConnectionFatal = true := by
  cases e <;> first | rfl | cases h

end ClientError

end Nntp.Client
