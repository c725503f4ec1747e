import Mathlib.Data.List.Basic

/-!
# Channels

A first-in-first-out channel that remembers everything sent on it. What is still to be received is what
was sent after the first `received` messages, so a message can be named by its position.
-/

namespace Nntp.Lib

/-- A channel with its history. -/
structure Channel (α : Type) where
  sent : List α := []
  received : Nat := 0
  deriving DecidableEq, Repr

namespace Channel

variable {α : Type} {c : Channel α} {a b : α} {i : Nat}

/-- Puts a message at the end. -/
def send (c : Channel α) (a : α) : Channel α := { c with sent := c.sent ++ [a] }

/-- The message to be received next. -/
def next (c : Channel α) : Option α := c.sent[c.received]?

/-- The channel after that message was received. -/
def receive (c : Channel α) : Channel α := { c with received := c.received + 1 }

/-- Nothing more can be received. -/
def isDrained (c : Channel α) : Bool := c.sent.length ≤ c.received

/-- What has been received, in order. -/
def taken (c : Channel α) : List α := c.sent.take c.received

@[simp] theorem send_sent (c : Channel α) (a : α) : (c.send a).sent = c.sent ++ [a] := rfl

@[simp] theorem send_received (c : Channel α) (a : α) : (c.send a).received = c.received := rfl

@[simp] theorem receive_sent (c : Channel α) : c.receive.sent = c.sent := rfl

@[simp] theorem receive_received (c : Channel α) : c.receive.received = c.received + 1 := rfl

theorem lt_of_next (h : c.next = some a) : c.received < c.sent.length :=
  (List.getElem?_eq_some_iff.mp h).1

theorem mem_of_next (h : c.next = some a) : a ∈ c.sent := List.mem_of_getElem? h

theorem taken_receive (h : c.next = some a) : c.receive.taken = c.taken ++ [a] := by
  unfold taken
  rw [receive_sent, receive_received, List.take_add_one, show c.sent[c.received]? = some a from h]
  rfl

theorem taken_send (h : c.received ≤ c.sent.length) (a : α) : (c.send a).taken = c.taken :=
  List.take_append_of_le_length h

/-- The next message comes after everything received and before everything else. -/
theorem sent_of_next (h : c.next = some a) :
    c.sent = c.taken ++ a :: c.sent.drop (c.received + 1) := by
  obtain ⟨hlt, rfl⟩ := List.getElem?_eq_some_iff.mp h
  unfold taken
  rw [List.getElem_cons_drop, List.take_append_drop]

/-- What is at a position was there before, or has just been sent. -/
theorem send_cases (h : (c.send a).sent[i]? = some b) :
    c.sent[i]? = some b ∨ i = c.sent.length ∧ b = a := by
  obtain ⟨hlt, _⟩ := List.getElem?_eq_some_iff.mp h
  rw [send_sent, List.length_append, List.length_singleton] at hlt
  rcases Nat.lt_or_eq_of_le (Nat.le_of_lt_succ hlt) with hlt | rfl
  · rw [send_sent, List.getElem?_append_left hlt] at h
    exact Or.inl h
  · rw [send_sent, List.getElem?_concat_length] at h
    exact Or.inr ⟨rfl, (Option.some.inj h).symm⟩

end Channel

end Nntp.Lib
