import Nntp.Lib.Counting
import Nntp.Proto.Spec

/-!
# Splitting a range

`Range::chunks` of `spec.rs`: the parts of a range follow on one another, none is larger than it may be, and
on the way to them nothing overflows, wherever the range ends.
-/

namespace Nntp.Proto

open Nntp.Lib

namespace Range

variable {chunk low high start : UInt64}

/-- How many article numbers the range spans, none if it is unbounded. -/
def count : Range → Option UInt64
  | single _ => some 1
  | between low high => some (high - low + 1)
  | upwards _ => none

/-- The loop of `chunks` in at most so many rounds, with every operator checked. -/
def chunksChecked (chunk high : UInt64) : Nat → UInt64 → Option (List Range)
  | 0, _ => none
  | rounds + 1, start => do
      let more ← checkedSub chunk 1
      let stop := min (saturatingAdd start more) high
      if high ≤ stop then some [ofBounds start stop]
      else
        let next ← checkedAdd stop 1
        let rest ← chunksChecked chunk high rounds next
        some (ofBounds start stop :: rest)

/-- The last number of a round is not before its first. -/
theorem le_stop (more : UInt64) (h : start ≤ high) : start ≤ min (saturatingAdd start more) high :=
  le_min (le_saturatingAdd _ _) h

/-- **No operator of the loop overflows**, and it ends within as many rounds as there are numbers. -/
theorem chunksChecked_eq (hchunk : 1 ≤ chunk) (rounds : Nat) (h : start ≤ high)
    (hrounds : high.toNat - start.toNat < rounds) :
    chunksChecked chunk high rounds start = some (chunksFrom chunk high start) := by
  induction rounds generalizing start with
  | zero => exact absurd hrounds (Nat.not_lt_zero _)
  | succ rounds ih =>
      have hstop := le_stop (chunk - 1) h
      unfold chunksChecked chunksFrom
      rw [(checkedSub_eq hchunk).1]
      simp only [Option.bind_eq_bind, Option.bind_some]
      by_cases hlast : high ≤ min (saturatingAdd start (chunk - 1)) high
      · rw [if_pos hlast, if_pos hlast]
      · -- a round that is not the last ends below `high`, so there is a number to go on with
        have hmore : _ < high := not_le.mp hlast
        have hnext := toNat_succ hmore
        have hafter := (succ_le_iff hmore).mpr hmore
        have hadd := checkedAdd_one_of_lt hmore
        have hrest : high.toNat - (min (saturatingAdd start (chunk - 1)) high + 1).toNat < rounds := by
          rw [UInt64.lt_iff_toNat_lt] at hmore
          rw [UInt64.le_iff_toNat_le] at hstop
          rw [hnext]
          omega
        rw [if_neg hlast, if_neg hlast, hadd, Option.bind_some, ih hafter hrest]
        rfl

/-- **How large a part is.** -/
theorem size_chunksFrom (hchunk : 1 ≤ chunk) (h : start ≤ high) {first last : UInt64}
    (hpart : between first last ∈ chunksFrom chunk high start) : last.toNat - first.toNat + 1 ≤ chunk.toNat := by
  have hround : ∀ start : UInt64,
      (min (saturatingAdd start (chunk - 1)) high).toNat - start.toNat + 1 ≤ chunk.toNat := by
    intro start
    have hle : min (saturatingAdd start (chunk - 1)) high ≤ saturatingAdd start (chunk - 1) := min_le_left _ _
    have hone : 1 ≤ chunk.toNat := UInt64.le_iff_toNat_le.mp hchunk
    rw [UInt64.le_iff_toNat_le, toNat_saturatingAdd, UInt64.toNat_sub_of_le _ _ hchunk, UInt64.toNat_one] at hle
    omega
  fun_induction chunksFrom chunk high start with
  | case1 start stop hlast =>
      rw [List.mem_singleton, ofBounds_of_le (le_stop _ h)] at hpart
      cases hpart
      exact hround _
  | case2 start stop hmore ih =>
      have hstop : stop < high := not_le.mp hmore
      rw [List.mem_cons, ofBounds_of_le (le_stop _ h)] at hpart
      rcases hpart with hpart | hpart
      · cases hpart
        exact hround _
      · exact ih ((succ_le_iff hstop).mpr hstop) hpart

/-! ## An exact partition -/

/-- The numbers from `low` to `high`, in parts that are given by their first number and their last. -/
structure Partition (chunk low high : UInt64) (parts : List (UInt64 × UInt64)) : Prop where
  first : parts.head?.map (·.1) = some low
  last : parts.getLast?.map (·.2) = some high
  consecutive : parts.IsChain fun a b => b.1.toNat = a.2.toNat + 1
  ascending : parts.Pairwise fun a b => a.2 < b.1
  spans : ∀ part ∈ parts, part.1 ≤ part.2 ∧ part.2.toNat - part.1.toNat + 1 ≤ chunk.toNat
  covers : ∀ n, (∃ part ∈ parts, part.1 ≤ n ∧ n ≤ part.2) ↔ low ≤ n ∧ n ≤ high

/-- All numbers in one part. -/
theorem Partition.single (h : low ≤ high) (hsize : high.toNat - low.toNat + 1 ≤ chunk.toNat) :
    Partition chunk low high [(low, high)] where
  first := rfl
  last := rfl
  consecutive := .singleton _
  ascending := List.pairwise_singleton _ _
  spans part hpart := by
    rw [List.mem_singleton.mp hpart]
    exact ⟨h, hsize⟩
  covers n := by simp

/-- One part in front of the others. -/
theorem Partition.cons {stop : UInt64} {parts : List (UInt64 × UInt64)} (h : Partition chunk (stop + 1) high parts)
    (hlow : low ≤ stop) (hstop : stop < high) (hsize : stop.toNat - low.toNat + 1 ≤ chunk.toNat) :
    Partition chunk low high ((low, stop) :: parts) := by
  obtain ⟨part, parts, rfl⟩ : ∃ part rest, parts = part :: rest :=
    List.exists_cons_of_ne_nil fun hnil => by
      have hfirst := h.first
      rw [hnil] at hfirst
      cases hfirst
  have hnext : part.1 = stop + 1 := Option.some.inj h.first
  have hbelow : ∀ p ∈ part :: parts, stop < p.1 := by
    intro p hp
    have hcovered := (h.covers p.1).mp ⟨p, hp, le_refl _, (h.spans p hp).1⟩
    exact (succ_le_iff hstop).mp hcovered.1
  refine ⟨rfl, h.last, .cons_cons ?_ h.consecutive, List.pairwise_cons.mpr ⟨hbelow, h.ascending⟩, ?_, ?_⟩
  · rw [hnext, toNat_succ hstop]
  · intro p hp
    rcases List.mem_cons.mp hp with rfl | hp
    · exact ⟨hlow, hsize⟩
    · exact h.spans p hp
  · intro n
    have hrest := h.covers n
    rw [succ_le_iff hstop] at hrest
    constructor
    · rintro ⟨p, hp, hge, hle⟩
      rcases List.mem_cons.mp hp with rfl | hp
      · exact ⟨hge, hle.trans hstop.le⟩
      · obtain ⟨hlt, hhigh⟩ := hrest.mp ⟨p, hp, hge, hle⟩
        exact ⟨hlow.trans hlt.le, hhigh⟩
    · rintro ⟨hge, hle⟩
      rcases le_or_gt n stop with hn | hn
      · exact ⟨_, List.mem_cons_self, hge, hn⟩
      · obtain ⟨p, hp, hin⟩ := hrest.mpr ⟨hn, hle⟩
        exact ⟨p, List.mem_cons_of_mem _ hp, hin⟩

/-- Ranges that follow on one another and are not too large are a partition. -/
theorem Tiles.partition {parts : List Range} (h : Tiles high start parts)
    (hsize : ∀ first last : UInt64, Range.between first last ∈ parts → last.toNat - first.toNat + 1 ≤ chunk.toNat) :
    ∃ bounds, parts = bounds.map (fun b => .between b.1 b.2) ∧ Partition chunk start high bounds := by
  induction h with
  | last h => exact ⟨[(_, high)], rfl, .single h (hsize _ _ List.mem_cons_self)⟩
  | more hstart hstop hparts ih =>
      obtain ⟨bounds, rfl, hbounds⟩ := ih fun first last hpart => hsize first last (List.mem_cons_of_mem _ hpart)
      exact ⟨(_, _) :: bounds, rfl, hbounds.cons hstart hstop (hsize _ _ List.mem_cons_self)⟩

/-- Every part lies between the first number of all and the last. -/
theorem Tiles.within {parts : List Range} (h : Tiles high start parts) : ∀ part ∈ parts,
    ∃ first last, part = .between first last ∧ start ≤ first ∧ first ≤ last ∧ last ≤ high := by
  induction h with
  | last h =>
      intro part hpart
      exact ⟨_, _, List.mem_singleton.mp hpart, le_refl _, h, le_refl _⟩
  | more hstart hstop hparts ih =>
      intro part hpart
      rcases List.mem_cons.mp hpart with rfl | hpart
      · exact ⟨_, _, rfl, le_refl _, hstart, hstop.le⟩
      · obtain ⟨first, last, rfl, hfirst, hin, hlast⟩ := ih part hpart
        exact ⟨first, last, rfl, hstart.trans ((succ_le_iff hstop).mp hfirst).le, hin, hlast⟩

/-- **Splitting a range is an exact partition**, and no step of it overflows. -/
theorem chunks_partition (low high chunk : UInt64) (h : low ≤ high) (hchunk : 1 ≤ chunk) :
    (∃ bounds, (between low high).chunks chunk = bounds.map (fun b => .between b.1 b.2) ∧
      Partition chunk low high bounds) ∧
    chunksChecked chunk high (high.toNat - low.toNat + 1) low = some ((between low high).chunks chunk) := by
  have hne : chunk ≠ 0 := by
    rintro rfl
    exact absurd hchunk (by decide)
  have hloop : (between low high).chunks chunk = chunksFrom chunk high low := if_neg hne
  rw [hloop]
  refine ⟨(tiles_chunksFrom chunk h).partition fun first last hpart => ?_, ?_⟩
  · exact size_chunksFrom hchunk h hpart
  · exact chunksChecked_eq hchunk _ h (Nat.lt_succ_self _)

theorem chunks_partition_top : (∃ bounds, (between 18446744073709551613 18446744073709551615).chunks 2 =
      bounds.map (fun b => .between b.1 b.2) ∧
      Partition 2 18446744073709551613 18446744073709551615 bounds) ∧
    chunksChecked 2 18446744073709551615 3 18446744073709551613 =
      some ((between 18446744073709551613 18446744073709551615).chunks 2) :=
  chunks_partition _ _ _ (by decide) (by decide)

end Range

end Nntp.Proto
