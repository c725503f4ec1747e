import Mathlib.Logic.Function.Basic
import Nntp.Tui.App

/-!
# Drafts on disk

`compose.rs`: writing an article in the user's editor. A draft is a file in the drafts directory, named
here by its name in it. What the editor does to the file is not determined by the program.
-/

namespace Nntp.Tui

open Nntp.Proto

/-- The drafts directory: the text in each file there is. -/
abbrev Files := Path → Option Str

/-- `fs::write` of a draft. -/
def Files.write (files : Files) (path : Path) (text : Str) : Files :=
  Function.update files path (some text)

/-- `fs::remove_file` of a draft. -/
def Files.remove (files : Files) (path : Path) : Files := Function.update files path none

/-- A path for a new draft, made of the clock in seconds and the process id. -/
def draftPath (stamp process : Nat) : Path :=
  "draft-".toList ++ display stamp ++ '-' :: display process ++ ".article".toList

/-- What happened between the template and the text read back. -/
inductive EditorOutcome where
  /-- there is no drafts directory, or the file could not be created -/
  | unwritten
  /-- the file could not be written in full or read back, or the editor failed; what it holds now -/
  | failed (left : Str)
  /-- the editor left this text in the file -/
  | exited (text : Str)
  deriving DecidableEq, Repr

/-- What comes back from a composing session. -/
inductive Composed where
  | edited (text : Str) (path : Path)
  | abandoned
  | failed
  deriving DecidableEq, Repr

/-- `compose::compose`: writes the template, lets the editor at it, and reads back what was written. A
template left as it was is how a post is abandoned, and its file goes. -/
def compose (files : Files) (path : Path) (template : Str) : EditorOutcome → Composed × Files
  | .unwritten => (.failed, files)
  | .failed left => (.failed, files.write path left)
  | .exited text =>
      let files := files.write path text
      if trim text = trim template then (.abandoned, files.remove path)
      else (.edited text path, files)

end Nntp.Tui
