import Mathlib.Data.List.Perm.Basic
import Nntp.Lib.U64
import Nntp.Proto.MessageId

/-!
# Naming articles

`spec.rs`: how commands name one article or a range of article numbers.
-/

namespace Nntp.Proto

open Nntp.Lib

/-- How an article is named in a command. -/
inductive ArticleSpec where
  | messageId (id : MessageId)
  | number (n : UInt64)
  | current
  deriving DecidableEq, Repr

/-- The command argument for this spec. -/
def ArticleSpec.toArgument : ArticleSpec → Option Str
  | .messageId id => some id.asStr
  | .number n => some (display n.toNat)
  | .current => none

/-- Whether this spec requires a group to have been selected first. -/
def ArticleSpec.needsSelectedGroup : ArticleSpec → Bool
  | .messageId _ => false
  | .number _ => true
  | .current => true

/-- A range of article numbers. `upwards` is the source's `From`. -/
inductive Range where
  | single (n : UInt64)
  | between (low high : UInt64)
  | upwards (low : UInt64)
  deriving DecidableEq, Repr

namespace Range

/-- An inclusive range, normalising a reversed pair. -/
def ofBounds (low high : UInt64) : Range :=
  if low ≤ high then .between low high else .between high low

def toArgument : Range → Str
  | single n => display n.toNat
  | between low high => display low.toNat ++ '-' :: display high.toNat
  | upwards low => display low.toNat ++ ['-']

/-- Whether `number` falls inside the range. -/
def contains (number : UInt64) : Range → Bool
  | single n => number == n
  | between low high => decide (low ≤ number) && decide (number ≤ high)
  | upwards low => decide (low ≤ number)

/-- The loop of `chunks`. -/
def chunksFrom (chunk high start : UInt64) : List Range :=
  let stop := min (saturatingAdd start (chunk - 1)) high
  if high ≤ stop then [ofBounds start stop]
  else ofBounds start stop :: chunksFrom chunk high (stop + 1)
termination_by high.toNat - start.toNat
decreasing_by
  rename_i hstop
  have hlt : stop < high := not_le.mp hstop
  have hstart : start ≤ stop := by
    refine le_min (le_saturatingAdd _ _) ?_
    by_contra hhigh
    have h1 : stop = high := min_eq_right ((not_le.mp hhigh).le.trans (le_saturatingAdd _ _))
    exact absurd (h1 ▸ hlt) (lt_irrefl high)
  have hsucc : (stop + 1).toNat = stop.toNat + 1 := toNat_succ hlt
  rw [UInt64.lt_iff_toNat_lt] at hlt
  rw [UInt64.le_iff_toNat_le] at hstart
  show high.toNat - (stop + 1).toNat < high.toNat - start.toNat
  omega

/-- Splits the range into chunks of at most `chunk` numbers each. -/
def chunks (chunk : UInt64) : Range → List Range
  | single n => [single n]
  | upwards low => [upwards low]
  | between low high =>
      if chunk = 0 then [ofBounds low high] else chunksFrom chunk high low

/-! ## What the chunks hold -/

/-- The ranges follow on one another, from the first number to the last. -/
inductive Tiles (high : UInt64) : UInt64 → List Range → Prop
  | last {start : UInt64} (h : start ≤ high) : Tiles high start [between start high]
  | more {start stop : UInt64} {parts : List Range} (hstart : start ≤ stop) (hstop : stop < high)
      (hparts : Tiles high (stop + 1) parts) : Tiles high start (between start stop :: parts)

theorem ofBounds_of_le {low high : UInt64} (h : low ≤ high) : ofBounds low high = between low high := if_pos h

theorem tiles_chunksFrom (chunk : UInt64) {high start : UInt64} (h : start ≤ high) :
    Tiles high start (chunksFrom chunk high start) := by
  fun_induction chunksFrom chunk high start with
  | case1 start stop hlast =>
      have hstop : stop = high := le_antisymm (min_le_right _ _) hlast
      rw [hstop, ofBounds_of_le h]
      exact .last h
  | case2 start stop hmore ih =>
      have hstop : stop < high := not_le.mp hmore
      have hstart : start ≤ stop := le_min (le_saturatingAdd _ _) h
      rw [ofBounds_of_le hstart]
      exact .more hstart hstop (ih ((succ_le_iff hstop).mpr hstop))

/-- **The chunks of a range** follow on one another. -/
theorem tiles_chunks (chunk : UInt64) {low high : UInt64} (h : low ≤ high) :
    Tiles high low ((between low high).chunks chunk) := by
  show Tiles high low (if chunk = 0 then _ else _)
  split
  · rw [ofBounds_of_le h]
    exact .last h
  · exact tiles_chunksFrom chunk h

theorem contains_between {low high n : UInt64} : (between low high).contains n = true ↔ low ≤ n ∧ n ≤ high := by
  unfold contains
  rw [Bool.and_eq_true, decide_eq_true_eq, decide_eq_true_eq]

namespace Tiles

variable {start high : UInt64} {parts : List Range}

theorem ne_nil (h : Tiles high start parts) : parts ≠ [] := by
  cases h <;> exact List.cons_ne_nil _ _

/-- Every part has a first number and a last. -/
theorem between (h : Tiles high start parts) : ∀ part ∈ parts, ∃ first last, part = .between first last := by
  induction h with
  | last h => exact fun part hpart => ⟨_, _, List.mem_singleton.mp hpart⟩
  | more hstart hstop hparts ih =>
      intro part hpart
      rcases List.mem_cons.mp hpart with rfl | hpart
      · exact ⟨_, _, rfl⟩
      · exact ih part hpart

/-- **Every number of the whole is in one of the parts, and in one only.** -/
theorem perm_filter {α : Type} (number : α → UInt64) (entries : List α) (h : Tiles high start parts) :
    (parts.flatMap fun part => entries.filter fun e => part.contains (number e)).Perm
      (entries.filter fun e => (Range.between start high).contains (number e)) := by
  induction h with
  | last h => rw [List.flatMap_singleton]
  | @more start stop parts hstart hstop hparts ih =>
      have hsplit := List.filter_append_perm (fun e => decide (number e ≤ stop))
        (entries.filter fun e => (Range.between start high).contains (number e))
      rw [List.filter_filter, List.filter_filter] at hsplit
      have hfirst : ∀ e ∈ entries, (decide (number e ≤ stop) && (Range.between start high).contains (number e)) =
          (Range.between start stop).contains (number e) := by
        intro e _
        rw [Bool.eq_iff_iff, Bool.and_eq_true, decide_eq_true_eq, contains_between, contains_between]
        exact ⟨fun ⟨hle, hge, _⟩ => ⟨hge, hle⟩, fun ⟨hge, hle⟩ => ⟨hle, hge, hle.trans hstop.le⟩⟩
      have hrest : ∀ e ∈ entries, (!decide (number e ≤ stop) && (Range.between start high).contains (number e)) =
          (Range.between (stop + 1) high).contains (number e) := by
        intro e _
        rw [Bool.eq_iff_iff, Bool.and_eq_true, Bool.not_eq_true', decide_eq_false_iff_not, contains_between,
          contains_between, not_le, succ_le_iff hstop]
        exact ⟨fun ⟨hlt, _, hle⟩ => ⟨hlt, hle⟩, fun ⟨hlt, hle⟩ => ⟨hlt, hstart.trans hlt.le, hle⟩⟩
      rw [List.filter_congr hfirst, List.filter_congr hrest] at hsplit
      rw [List.flatMap_cons]
      exact (ih.append_left _).trans hsplit

end Tiles

end Range

/-- The argument to `OVER`: a range of numbers or a single message-id. -/
inductive RangeOrId where
  | range (r : Range)
  | messageId (id : MessageId)
  | current
  deriving DecidableEq, Repr

def RangeOrId.toArgument : RangeOrId → Option Str
  | .range r => some r.toArgument
  | .messageId id => some id.asStr
  | .current => none

end Nntp.Proto
