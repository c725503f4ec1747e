import Mathlib.Data.List.Basic

/-!
# Streams that arrive in pieces

A stream is read in pieces whose sizes nobody controls, and any read may fail. `events` is what the
reads bring whatever their sizes: items, failures, the end. `cutAt` finds the first delimiter in a
piece.
-/

namespace Nntp.Lib

variable {α ε : Type}

/-! ## The first delimiter -/

section Cut

variable [DecidableEq α]

/-- What stands before the first `d`, and what stands after it. -/
def cutAt (d : α) : List α → Option (List α × List α)
  | [] => none
  | x :: xs => if x = d then some ([], xs) else (cutAt d xs).map fun p => (x :: p.1, p.2)

theorem cutAt_append {d : α} {head : List α} (h : d ∉ head) (rest : List α) :
    cutAt d (head ++ d :: rest) = some (head, rest) := by
  induction head with
  | nil => simp [cutAt]
  | cons x xs ih =>
      have hx : x ≠ d := fun heq => h (heq ▸ List.mem_cons_self)
      simp [cutAt, hx, ih fun hmem => h (List.mem_cons_of_mem x hmem)]

theorem cutAt_of_not_mem {d : α} {xs : List α} (h : d ∉ xs) : cutAt d xs = none := by
  induction xs with
  | nil => rfl
  | cons x xs ih =>
      have hx : x ≠ d := fun heq => h (heq ▸ List.mem_cons_self)
      simp [cutAt, hx, ih fun hmem => h (List.mem_cons_of_mem x hmem)]

/-- Where there is no cut, there is no delimiter. -/
theorem not_mem_of_cutAt {d : α} {xs : List α} (h : cutAt d xs = none) : d ∉ xs := by
  intro hmem
  obtain ⟨head, rest, rfl, hnot⟩ := List.eq_append_cons_of_mem hmem
  rw [cutAt_append hnot] at h
  cases h

theorem of_cutAt {d : α} {xs head rest : List α} (h : cutAt d xs = some (head, rest)) :
    d ∉ head ∧ xs = head ++ d :: rest := by
  have hmem : d ∈ xs := by
    apply Classical.byContradiction
    intro hnot
    rw [cutAt_of_not_mem hnot] at h
    cases h
  obtain ⟨head', rest', rfl, hnot⟩ := List.eq_append_cons_of_mem hmem
  rw [cutAt_append hnot] at h
  cases h
  exact ⟨hnot, rfl⟩

end Cut

/-! ## Reads -/

/-- What one read of a stream yields: items, none of them at its end, or a failure. -/
inductive ReadOutcome (α ε : Type) where
  | data (items : List α)
  | err (error : ε)
  deriving DecidableEq, Repr

/-- What a stream brings, whatever the sizes of the reads. -/
inductive Event (α ε : Type) where
  | item (x : α)
  | failed (error : ε)
  | stop
  deriving DecidableEq, Repr

/-- The events a read brings. -/
def ReadOutcome.events : ReadOutcome α ε → List (Event α ε)
  | data [] => [.stop]
  | data (x :: xs) => (x :: xs).map .item
  | err e => [.failed e]

/-- **The events of a sequence of reads.** How the items are cut into reads is forgotten. -/
def events (reads : List (ReadOutcome α ε)) : List (Event α ε) := reads.flatMap ReadOutcome.events

@[simp] theorem events_nil : events ([] : List (ReadOutcome α ε)) = [] := rfl

@[simp] theorem events_err (e : ε) (reads : List (ReadOutcome α ε)) :
    events (.err e :: reads) = .failed e :: events reads := rfl

theorem events_append (reads more : List (ReadOutcome α ε)) :
    events (reads ++ more) = events reads ++ events more := List.flatMap_append

theorem events_data {xs : List α} (h : xs ≠ []) (reads : List (ReadOutcome α ε)) :
    events (.data xs :: reads) = xs.map .item ++ events reads := by
  obtain ⟨x, xs, rfl⟩ := List.exists_cons_of_ne_nil h
  rfl

/-- Pieces that are read one after the other bring what they bring together. -/
theorem events_pieces {pieces : List (List α)} (h : ∀ piece ∈ pieces, piece ≠ []) :
    events (pieces.map ReadOutcome.data) = (pieces.flatten.map .item : List (Event α ε)) := by
  induction pieces with
  | nil => rfl
  | cons piece pieces ih =>
      obtain ⟨hpiece, hpieces⟩ := List.forall_mem_cons.mp h
      rw [List.map_cons, events_data hpiece, ih hpieces, List.flatten_cons, List.map_append]

/-- What is held back of an earlier read comes before the other reads. -/
def held (buffer : List α) (reads : List (ReadOutcome α ε)) : List (ReadOutcome α ε) :=
  if buffer = [] then reads else .data buffer :: reads

@[simp] theorem events_held (buffer : List α) (reads : List (ReadOutcome α ε)) :
    events (held buffer reads) = buffer.map .item ++ events reads := by
  unfold held
  split
  · next h => rw [h]; rfl
  · next h => exact events_data h reads

/-- The items among some events. -/
def itemsOf : List (Event α ε) → List α
  | [] => []
  | .item x :: rest => x :: itemsOf rest
  | .failed _ :: rest => itemsOf rest
  | .stop :: rest => itemsOf rest

theorem itemsOf_append (xs : List α) (rest : List (Event α ε)) :
    itemsOf (xs.map .item ++ rest) = xs ++ itemsOf rest := by
  induction xs with
  | nil => rfl
  | cons x xs ih => exact congrArg (x :: ·) ih

/-- What a read hands over is the first of the items that come before an event it does not hold. -/
theorem items_before {e : Event α ε} {xs ys : List α} {rest tail : List (Event α ε)}
    (he : ∀ x ∈ xs, e ≠ .item x) (h : xs.map .item ++ rest = ys.map .item ++ e :: tail) :
    ∃ zs, ys = xs ++ zs ∧ rest = zs.map .item ++ e :: tail := by
  induction xs generalizing ys with
  | nil => exact ⟨ys, rfl, h⟩
  | cons x xs ih =>
      cases ys with
      | nil =>
          have hx : Event.item x = e := (List.cons.inj h).1
          exact absurd hx.symm (he x List.mem_cons_self)
      | cons y ys =>
          have hxy : Event.item x = .item y := (List.cons.inj h).1
          cases hxy
          have htail := (List.cons.inj h).2
          obtain ⟨zs, rfl, hrest⟩ := ih (fun x hx => he x (List.mem_cons_of_mem _ hx)) htail
          exact ⟨zs, rfl, hrest⟩

theorem item_ne_of_not_mem {d : α} {xs : List α} (h : d ∉ xs) :
    ∀ x ∈ xs, (Event.item d : Event α ε) ≠ .item x := by
  intro x hx heq
  cases heq
  exact h hx

/-- The first delimiter is where the events say it is. -/
theorem items_cut {d : α} {xs ys : List α} {rest tail : List (Event α ε)} (hxs : d ∉ xs)
    (hys : d ∉ ys) (h : xs.map .item ++ .item d :: rest = ys.map .item ++ .item d :: tail) :
    xs = ys ∧ rest = tail := by
  obtain ⟨zs, rfl, hrest⟩ := items_before (item_ne_of_not_mem hxs) h
  cases zs with
  | nil => exact ⟨(List.append_nil xs).symm, (List.cons.inj hrest).2⟩
  | cons z zs =>
      have hz : Event.item d = (.item z : Event α ε) := (List.cons.inj hrest).1
      cases hz
      exact absurd (List.mem_append_right xs List.mem_cons_self) hys

end Nntp.Lib
