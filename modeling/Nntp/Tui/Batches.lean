import Nntp.Tui.Subscriptions

/-!
# What the batches carry

`batch_patterns` drops a batch whose patterns could not be joined. It never has to: the loop keeps the
joined text within the bound (`Batched`), so that every batch is a wildmat, and what was put into the
batches and what is still being collected are together the patterns gone through so far.
-/

namespace Nntp.Tui

open Nntp.Proto

/-- The comma-separated pieces of several patterns. -/
def patternPieces (patterns : List Wildmat) : List Str := patterns.flatMap fun w => subPatterns w.asStr

/-- The comma-separated pieces of several batches; a batch without a pattern has none. -/
def batchPieces (batches : List (Option Wildmat)) : List Str := patternPieces (batches.flatMap Option.toList)

@[simp] theorem patternPieces_append (ps qs : List Wildmat) :
    patternPieces (ps ++ qs) = patternPieces ps ++ patternPieces qs := List.flatMap_append

@[simp] theorem batchPieces_append (bs cs : List (Option Wildmat)) :
    batchPieces (bs ++ cs) = batchPieces bs ++ batchPieces cs := by
  simp [batchPieces]

/-- The state of the loop when it has gone through the patterns `seen`. -/
structure Batched (seen : List Wildmat) (b : Batching) : Prop where
  length : b.length = joinedLen (entryLens b.current)
  fits : b.length ≤ Wildmat.maxLen
  spelled : ∀ batch ∈ b.batches, batch.isSome = true
  carried : batchPieces b.batches ++ patternPieces b.current = patternPieces seen

theorem Batched.start : Batched [] ⟨[], [], 0⟩ where
  length := rfl
  fits := Nat.zero_le _
  spelled := nofun
  carried := rfl

/-- What is collected makes a batch with the pieces of all of it. -/
theorem joined_pieces {current : List Wildmat} (hne : current ≠ [])
    (hfits : joinedLen (entryLens current) ≤ Wildmat.maxLen) :
    (joined current).isSome = true ∧ batchPieces [joined current] = patternPieces current := by
  obtain ⟨w, hjoined, htext⟩ := joined_eq hne hfits
  rw [hjoined]
  refine ⟨rfl, ?_⟩
  have hpieces : batchPieces [some w] = subPatterns w.asStr := by simp [batchPieces, patternPieces]
  rw [hpieces, htext, subPatterns_joinText (by simpa using hne), List.flatMap_map]
  rfl

section Adding

variable {seen : List Wildmat} {b : Batching} {pattern : Wildmat}

/-- The first pattern of a batch fits by itself. -/
theorem fits_alone (pattern : Wildmat) : utf8Len pattern.asStr ≤ Wildmat.maxLen :=
  (Wildmat.wellFormed_iff.mp pattern.wellFormed).1.2

/-- The pattern goes with what is collected. -/
theorem Batched.append (h : Batched seen b) {length : Nat}
    (hlength : length = joinedLen (entryLens (b.current ++ [pattern]))) (hfits : length ≤ Wildmat.maxLen) :
    Batched (seen ++ [pattern]) ⟨b.batches, b.current ++ [pattern], length⟩ where
  length := hlength
  fits := hfits
  spelled := h.spelled
  carried := by
    show batchPieces b.batches ++ patternPieces (b.current ++ [pattern]) = _
    rw [patternPieces_append, patternPieces_append, ← h.carried, List.append_assoc]

/-- What is collected is closed, and nothing is collected any more. -/
theorem Batched.close (h : Batched seen b) (hne : b.current ≠ []) :
    Batched seen ⟨b.batches ++ [joined b.current], [], 0⟩ := by
  obtain ⟨hspelled, hpieces⟩ := joined_pieces hne (h.length ▸ h.fits)
  refine ⟨rfl, Nat.zero_le _, ?_, ?_⟩
  · intro batch hbatch
    rcases List.mem_append.mp hbatch with hbatch | hbatch
    · exact h.spelled batch hbatch
    · rw [List.mem_singleton.mp hbatch]
      exact hspelled
  · show batchPieces (b.batches ++ [joined b.current]) ++ [] = _
    rw [List.append_nil, batchPieces_append, hpieces, h.carried]

/-- **The loop adds one pattern.** -/
theorem Batched.add (h : Batched seen b) (pattern : Wildmat) : Batched (seen ++ [pattern]) (b.add pattern) := by
  by_cases hne : b.current = []
  · have hadd : b.add pattern = ⟨b.batches, b.current ++ [pattern], b.length + utf8Len pattern.asStr⟩ := by
      simp [Batching.add, hne]
    have hzero : b.length = 0 := by
      rw [h.length, hne]
      rfl
    rw [hadd]
    apply h.append
    · simp [hzero, hne, entryLens, joinedLen]
    · rw [hzero, Nat.zero_add]
      exact fits_alone pattern
  · have hempty : b.current.isEmpty = false := by simpa using hne
    by_cases hover : Wildmat.maxLen < b.length + (utf8Len pattern.asStr + 1)
    · -- the pattern is the first of the next batch
      have hadd : b.add pattern =
          ⟨b.batches ++ [joined b.current], [] ++ [pattern], utf8Len pattern.asStr⟩ := by
        simp [Batching.add, hempty, hover]
      rw [hadd]
      apply (h.close hne).append
      · rfl
      · exact fits_alone pattern
    · have hadd : b.add pattern =
          ⟨b.batches, b.current ++ [pattern], b.length + (utf8Len pattern.asStr + 1)⟩ := by
        simp [Batching.add, hempty, hover]
      rw [hadd]
      apply h.append
      · rw [entryLens, List.map_append, List.map_singleton, joinedLen_append (by simpa using hne), h.length]
        rfl
      · exact Nat.not_lt.mp hover

end Adding

/-- The loop over all patterns. -/
theorem Batched.foldl (patterns : List Wildmat) {seen : List Wildmat} {b : Batching} (h : Batched seen b) :
    Batched (seen ++ patterns) (patterns.foldl Batching.add b) := by
  induction patterns generalizing seen b with
  | nil => simpa using h
  | cons pattern patterns ih =>
      have hrest := ih (h.add pattern)
      rwa [List.append_assoc, List.singleton_append] at hrest

/-- A pattern has at least one piece. -/
theorem patternPieces_ne_nil {patterns : List Wildmat} (hne : patterns ≠ []) : patternPieces patterns ≠ [] := by
  obtain ⟨w, ws, rfl⟩ := List.exists_cons_of_ne_nil hne
  simp [patternPieces, subPatterns]

/-- **Every pattern is sent once, in order, and every command fits.** Each batch is a wildmat, none is
missing, and the pieces of all of them are the pieces of the patterns. -/
theorem batchPatterns_carries (patterns : List Wildmat) :
    (∀ w, some w ∈ batchPatterns patterns →
        Wildmat.parse w.asStr = .ok w ∧ utf8Len w.asStr ≤ Wildmat.maxLen) ∧
      (patterns ≠ [] → none ∉ batchPatterns patterns) ∧
      batchPieces (batchPatterns patterns) = patternPieces patterns := by
  refine ⟨fun w _ => ⟨dif_pos w.wellFormed, fits_alone w⟩, ?_⟩
  by_cases hne : patterns = []
  · subst hne
    exact ⟨fun h => absurd rfl h, rfl⟩
  -- what is left over at the end of the loop is one more batch
  have hloop : Batched patterns (patterns.foldl Batching.add ⟨[], [], 0⟩) := Batched.start.foldl patterns
  obtain ⟨batches, hbatches, hspelled, hcarried⟩ : ∃ batches,
      (let b := patterns.foldl Batching.add ⟨[], [], 0⟩
        if b.current.isEmpty then b.batches else b.batches ++ [joined b.current]) = batches ∧
      (∀ batch ∈ batches, batch.isSome = true) ∧ batchPieces batches = patternPieces patterns := by
    refine ⟨_, rfl, ?_⟩
    dsimp only
    split
    · next hempty =>
        have hcarried := hloop.carried
        rw [List.isEmpty_iff.mp hempty] at hcarried
        exact ⟨hloop.spelled, by simpa [patternPieces] using hcarried⟩
    · next hfull =>
        have hclosed := hloop.close (by simpa using hfull)
        exact ⟨hclosed.spelled, by simpa [patternPieces] using hclosed.carried⟩
  have hbatches' : batches ≠ [] := by
    rintro rfl
    exact patternPieces_ne_nil hne hcarried.symm
  have hresult : batchPatterns patterns = batches := by
    unfold batchPatterns
    rw [if_neg (by simpa using hne)]
    dsimp only at hbatches ⊢
    rw [hbatches, List.filter_eq_self.mpr hspelled, if_neg (by simpa using hbatches')]
  rw [hresult]
  refine ⟨fun _ hnone => ?_, hcarried⟩
  exact absurd (hspelled none hnone) (by simp)

/-- Two patterns that do not fit into one command. -/
theorem batchPatterns_carries_split : none ∉ batchPatterns splitApart :=
  (batchPatterns_carries splitApart).2.1 (List.cons_ne_nil _ _)

end Nntp.Tui
