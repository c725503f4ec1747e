import Nntp.Proto.Text

/-!
# Data blocks

`block.rs`: the lines of a multi-line response, dot-stuffed and ended by a line with a single dot.
-/

namespace Nntp.Proto

/-- Whether a line, its line ending removed, terminates a data block. -/
def isTerminator (line : Bytes) : Bool := line == [0x2E]

/-- Removes the dot-stuffing from a received line. -/
def unstuff : Bytes → Bytes
  | [] => []
  | b :: rest => if b = 0x2E then rest else b :: rest

/-- Adds dot-stuffing to a line that is about to be sent. -/
def stuff (line : Bytes) : Bytes := if line.head? = some 0x2E then 0x2E :: line else line

theorem unstuff_stuff (line : Bytes) : unstuff (stuff line) = line := by
  unfold stuff
  split
  · rfl
  · next h =>
      cases line with
      | nil => rfl
      | cons b rest =>
          have hb : b ≠ 0x2E := fun heq => h (by rw [heq]; rfl)
          simp [unstuff, hb]

/-- A stuffed line is never taken for the terminator. -/
theorem isTerminator_stuff (line : Bytes) : isTerminator (stuff line) = false := by
  unfold stuff isTerminator
  split
  · next h =>
      cases line with
      | nil => cases h
      | cons b rest => simp
  · next h =>
      cases line with
      | nil => rfl
      | cons b rest =>
          have hb : b ≠ 0x2E := fun heq => h (by rw [heq]; rfl)
          simp [hb]

theorem mem_stuff {line : Bytes} {b : UInt8} (h : b ∈ stuff line) : b = 0x2E ∨ b ∈ line := by
  unfold stuff at h
  split at h
  · exact List.mem_cons.mp h
  · exact Or.inr h

theorem getLast?_stuff (line : Bytes) (h : line ≠ []) : (stuff line).getLast? = line.getLast? := by
  unfold stuff
  split
  · obtain ⟨b, rest, rfl⟩ := List.exists_cons_of_ne_nil h
    exact List.getLast?_cons_cons
  · rfl

end Nntp.Proto
