import Nntp.Lib.Counting
import Nntp.Tui.ReadSet

/-!
# Counting what has been read

`count`, `read_in` and `unread_in` of `readstate/set.rs` add up `u64` sizes. For a valid set they are the
sizes of sets of numbers (`counts_exact`), and no operation on the way leaves the range of `u64`: the same
functions with every operation checked (`checkedCount`, `checkedReadIn`, `checkedUnreadIn`) return the same
values.
-/

namespace Nntp.Tui.ReadSet

open Nntp.Lib

/-! ## With overflow checks -/

/-- `high - low + 1`. -/
def checkedSize (low high : UInt64) : Option UInt64 := do checkedAdd (← checkedSub high low) 1

def checkedCount (s : ReadSet) : Option UInt64 :=
  checkedSum (s.ranges.map fun r => checkedSize r.1 r.2)

def checkedReadIn (s : ReadSet) (low high : UInt64) : Option UInt64 :=
  if high = 0 ∨ high < low then some 0
  else
    let low := max low 1
    checkedSum (s.ranges.filterMap fun r =>
      let start := max r.1 low
      let stop := min r.2 high
      if start ≤ stop then some (checkedSize start stop) else none)

def checkedUnreadIn (s : ReadSet) (low high : UInt64) : Option UInt64 :=
  if high = 0 ∨ high < low then some 0
  else do
    let low := max low 1
    let span ← checkedSize low high
    let read ← s.checkedReadIn low high
    some (saturatingSub span read)

/-! ## Sizes -/

/-- The size of an interval that does not start at `0` fits. -/
theorem checkedSize_eq {low high : UInt64} (hpos : 1 ≤ low) (hle : low ≤ high) :
    checkedSize low high = some (high - low + 1) ∧
      (high - low + 1).toNat = (Set.Icc low high).ncard := by
  obtain ⟨hsub, hsubNat⟩ := checkedSub_eq hle
  have hlow : 1 ≤ low.toNat := UInt64.le_iff_toNat_le.mp hpos
  have hlt := high.toNat_lt
  rw [UInt64.le_iff_toNat_le] at hle
  have hfits : (high - low).toNat + (1 : UInt64).toNat < UInt64.size := by
    rw [hsubNat, UInt64.toNat_one, UInt64.size]
    omega
  obtain ⟨hadd, haddNat⟩ := checkedAdd_eq hfits
  constructor
  · simp [checkedSize, hsub, hadd]
  · rw [haddNat, hsubNat, UInt64.toNat_one, ncard_Icc]
    omega

/-- How many numbers each interval covers. -/
def sizes (rs : List (UInt64 × UInt64)) : List UInt64 := rs.map fun r => r.2 - r.1 + 1

/-- **The sizes of canonical intervals above `0` add up to the size of what they cover**, without an
overflow. -/
theorem checkedSum_sizes {rs : List (UInt64 × UInt64)} (h : Intervals.Canonical rs)
    (hpos : ∀ r ∈ rs, 1 ≤ r.1) :
    checkedSum (rs.map fun r => checkedSize r.1 r.2) =
        some ((sizes rs).foldl (· + ·) 0) ∧
      ((sizes rs).foldl (· + ·) 0).toNat = (Intervals.members rs).ncard := by
  have hchecked : rs.map (fun r => checkedSize r.1 r.2) = (sizes rs).map some := by
    rw [sizes, List.map_map]
    apply List.map_congr_left
    intro r hr
    exact (checkedSize_eq (hpos r hr) (h.inhabited r hr)).1
  have hsizes : ((sizes rs).map UInt64.toNat).sum = (Intervals.members rs).ncard := by
    rw [h.ncard_members, sizes, List.map_map]
    apply congrArg List.sum
    apply List.map_congr_left
    intro r hr
    exact (checkedSize_eq (hpos r hr) (h.inhabited r hr)).2
  have hfits : ((sizes rs).map UInt64.toNat).sum < UInt64.size := by
    rw [hsizes]
    apply ncard_lt_size
    rintro n ⟨r, hr, hrn, -⟩
    exact (hpos r hr).trans hrn
  rw [hchecked, ← hsizes]
  exact checkedSum_eq hfits

/-! ## The window -/

section Window

variable {s : ReadSet} {low high : UInt64}

/-- What the window of the source's guard leaves. -/
theorem window_le (hwindow : ¬ (high = 0 ∨ high < low)) : max low 1 ≤ high := by
  obtain ⟨hzero, hlow⟩ := not_or.mp hwindow
  apply max_le (not_lt.mp hlow)
  rw [UInt64.le_iff_toNat_le, UInt64.toNat_one]
  exact Nat.one_le_iff_ne_zero.mpr fun h => hzero (UInt64.toNat_inj.mp h)

theorem window_empty (hwindow : high = 0 ∨ high < low) : Set.Icc (max low 1) high = ∅ := by
  apply Set.Icc_eq_empty
  intro hle
  obtain ⟨hlow, hone⟩ := max_le_iff.mp hle
  rcases hwindow with rfl | hlt
  · exact absurd hone (by decide)
  · exact absurd hlt (not_lt.mpr hlow)

theorem Valid.count (h : Valid s) :
    s.checkedCount = some s.count ∧ s.count.toNat = s.numbers.ncard :=
  checkedSum_sizes h.canonical h.positive

/-- The intervals that `read_in` adds up are the set's, cut down to the window. -/
theorem Valid.readIn (h : Valid s) (low high : UInt64) :
    s.checkedReadIn low high = some (s.readIn low high) ∧
      (s.readIn low high).toNat = (s.numbers ∩ Set.Icc (max low 1) high).ncard := by
  by_cases hwindow : high = 0 ∨ high < low
  · rw [window_empty hwindow]
    simp [checkedReadIn, ReadSet.readIn, hwindow]
  · have hpos : ∀ r ∈ Intervals.clamp (max low 1) high s.ranges, 1 ≤ r.1 := by
      intro r hr
      obtain ⟨_, -, rfl, -⟩ := Intervals.mem_clamp.mp hr
      exact (le_max_right low 1).trans (le_max_right _ _)
    have hsum := checkedSum_sizes (h.canonical.clamp (max low 1) high) hpos
    rw [Intervals.members_clamp] at hsum
    simp only [sizes, Intervals.clamp, List.map_filterMap, Option.map_if] at hsum
    simp only [checkedReadIn, ReadSet.readIn, if_neg hwindow]
    exact hsum

theorem Valid.unreadIn (h : Valid s) (low high : UInt64) :
    s.checkedUnreadIn low high = some (s.unreadIn low high) ∧
      (s.unreadIn low high).toNat = (Set.Icc (max low 1) high \ s.numbers).ncard := by
  by_cases hwindow : high = 0 ∨ high < low
  · rw [window_empty hwindow]
    simp [checkedUnreadIn, ReadSet.unreadIn, hwindow]
  · have hle := window_le hwindow
    obtain ⟨hsize, hspan⟩ := checkedSize_eq (le_max_right low 1) hle
    obtain ⟨hread, hcount⟩ := h.readIn (max low 1) high
    rw [max_eq_left (le_max_right low 1)] at hcount
    constructor
    · simp [checkedUnreadIn, ReadSet.unreadIn, hwindow, hsize, hread]
    · -- what is read in the window is part of it, so that nothing saturates
      simp only [ReadSet.unreadIn, if_neg hwindow]
      have hsplit := Set.ncard_inter_add_ncard_sdiff_eq_ncard (Set.Icc (max low 1) high) s.numbers
      rw [Set.inter_comm] at hsplit
      rw [toNat_saturatingSub, hspan, hcount]
      omega

/-- **The counts are exact, and nothing in them overflows.** -/
theorem counts_exact (h : Valid s) (low high : UInt64) :
    s.count.toNat = s.numbers.ncard ∧
      (s.readIn low high).toNat = (s.numbers ∩ Set.Icc (max low 1) high).ncard ∧
      (s.unreadIn low high).toNat = (Set.Icc (max low 1) high \ s.numbers).ncard ∧
      (s.readIn low high).toNat + (s.unreadIn low high).toNat = (Set.Icc (max low 1) high).ncard ∧
      s.checkedCount = some s.count ∧ s.checkedReadIn low high = some (s.readIn low high) ∧
      s.checkedUnreadIn low high = some (s.unreadIn low high) := by
  obtain ⟨hcount, hmembers⟩ := h.count
  obtain ⟨hread, hin⟩ := h.readIn low high
  obtain ⟨hunread, hout⟩ := h.unreadIn low high
  have hsum : (s.readIn low high).toNat + (s.unreadIn low high).toNat = (Set.Icc (max low 1) high).ncard := by
    rw [hin, hout, Set.inter_comm, Set.ncard_inter_add_ncard_sdiff_eq_ncard]
  exact ⟨hmembers, hin, hout, hsum, hcount, hread, hunread⟩

end Window

/-- Everything read, up to the largest number there is. -/
theorem counts_exact_all : (ReadSet.mk [(1, u64Max)]).count.toNat = (ReadSet.mk [(1, u64Max)]).numbers.ncard ∧
    ((ReadSet.mk [(1, u64Max)]).readIn 0 u64Max).toNat = 18446744073709551615 := by
  have hvalid : Valid ⟨[(1, u64Max)]⟩ := ⟨by simp, by simp [le_u64Max], List.pairwise_singleton _ _⟩
  exact ⟨(counts_exact hvalid 0 u64Max).1, by decide⟩

end Nntp.Tui.ReadSet
