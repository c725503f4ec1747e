import Nntp.Proto.Chunks
import Nntp.Proto.Replies
import Nntp.Tui.Keys
import Nntp.Tui.ReadCounts
import Nntp.Tui.Worker

/-!
# Counting between watermarks

The same `high - low + 1` is in `list.rs`, `protocol.rs` and `spec.rs`. It fits but for one pair of
watermarks: from `0`, which is no article number, to `u64::MAX`. A group may come with that pair, but the
ranges that are fetched never reach so far down.
-/

namespace Nntp.Proto

open Nntp.Lib

/-- The number of articles the watermarks imply. -/
def ActiveEntry.estimatedCount (entry : ActiveEntry) : UInt64 :=
  if entry.low ≤ entry.high ∧ 0 < entry.high then entry.high - entry.low + 1 else 0

end Nntp.Proto

namespace Nntp.Tui

open Nntp.Lib Nntp.Proto ReadSet

/-! ## The difference plus one -/

/-- The article numbers between two watermarks. There is no article `0`. -/
def articleNumbers (low high : UInt64) : Set UInt64 := { n | 0 < n ∧ low ≤ n ∧ n ≤ high }

/-- A count between watermarks **is safe**: where it is computed nothing overflows, and no article number is
left out. -/
structure SafeCount (low high : UInt64) (computed : Prop) (count : UInt64) : Prop where
  fits : computed → checkedSize low high = some count
  bounds : (articleNumbers low high).ncard ≤ count.toNat

variable {low high : UInt64}

theorem checkedSize_eq_some_iff (h : low ≤ high) {count : UInt64} :
    checkedSize low high = some count ↔ high.toNat - low.toNat + 1 = count.toNat := by
  obtain ⟨hsub, hsubNat⟩ := checkedSub_eq h
  unfold checkedSize
  rw [hsub]
  show checkedAdd (high - low) 1 = some count ↔ _
  rw [checkedAdd_eq_some_iff, hsubNat, UInt64.toNat_one]

/-- **When the span fits**: always but from `0` to `u64::MAX`. -/
theorem checkedSize_iff (h : low ≤ high) :
    checkedSize low high = some (high - low + 1) ↔ ¬ (low = 0 ∧ high = u64Max) := by
  have hmax : u64Max.toNat = 18446744073709551615 := rfl
  have hhigh := high.toNat_lt
  rw [checkedSize_eq_some_iff h, UInt64.toNat_add, (checkedSub_eq h).2, UInt64.toNat_one,
    ← UInt64.toNat_inj, ← UInt64.toNat_inj, hmax, UInt64.toNat_zero]
  rw [UInt64.le_iff_toNat_le] at h
  omega

theorem ncard_articleNumbers (low high : UInt64) :
    (articleNumbers low high).ncard = high.toNat + 1 - max low.toNat 1 := by
  have heq : articleNumbers low high = Set.Icc (max low 1) high := by
    ext n
    have hpos : 0 < n ↔ 1 ≤ n := by
      rw [UInt64.lt_iff_toNat_lt, UInt64.le_iff_toNat_le]
      rfl
    rw [articleNumbers, Set.mem_setOf_eq, Set.mem_Icc, max_le_iff, hpos]
    tauto
  rw [heq, ncard_Icc]
  have hmax : (max low 1).toNat = max low.toNat 1 := by
    rcases le_total low 1 with h | h
    · have hle : low.toNat ≤ 1 := UInt64.le_iff_toNat_le.mp h
      rw [max_eq_right h, max_eq_right hle, UInt64.toNat_one]
    · have hle : 1 ≤ low.toNat := UInt64.le_iff_toNat_le.mp h
      rw [max_eq_left h, max_eq_left hle]
  rw [hmax]

/-- A span that fits leaves out no article number. -/
theorem ncard_le_of_checkedSize (h : low ≤ high) {count : UInt64} (hsize : checkedSize low high = some count) :
    (articleNumbers low high).ncard ≤ count.toNat := by
  rw [ncard_articleNumbers, ← (checkedSize_eq_some_iff h).mp hsize]
  omega

/-- **When the guarded count is safe**, as `estimated_count` and `article_bound` compute it. -/
theorem safeCount_iff (low high : UInt64) :
    SafeCount low high (low ≤ high ∧ 0 < high) (if low ≤ high ∧ 0 < high then high - low + 1 else 0) ↔
      ¬ (low = 0 ∧ high = u64Max) := by
  by_cases hguard : low ≤ high ∧ 0 < high
  · rw [if_pos hguard, ← checkedSize_iff hguard.1]
    exact ⟨fun h => h.fits hguard, fun h => ⟨fun _ => h, ncard_le_of_checkedSize hguard.1 h⟩⟩
  · rw [if_neg hguard]
    refine iff_of_true ⟨fun h => absurd h hguard, ?_⟩ ?_
    · rw [ncard_articleNumbers]
      rw [UInt64.le_iff_toNat_le, UInt64.lt_iff_toNat_lt, UInt64.toNat_zero] at hguard
      omega
    · rintro ⟨rfl, rfl⟩
      exact hguard (by decide)

/-! ## The ranges of the reader -/

/-- The ranges that are built from the watermarks of a group that is open. -/
inductive Built (summary : GroupSummary) : Range → Prop
  /-- the newest articles, as many as are asked for -/
  | newest {low high : UInt64} (hrange : summary.range = some (low, high)) (count : UInt64) :
      Built summary (.ofBounds (newestFrom low high count) high)
  /-- the newest articles that `doctor` probes with -/
  | probe {low high : UInt64} (hrange : summary.range = some (low, high)) :
      Built summary (.ofBounds (max (saturatingSub high 4) low) high)
  /-- a part of such a range -/
  | chunk {range part : Range} (hrange : Built summary range) (chunk : UInt64)
      (hpart : part ∈ range.chunks chunk) : Built summary part

/-- The request that fetches a group again is for such a range. -/
theorem reloadOverview_built (app : App) (summary : GroupSummary) {name : GroupName} {range : Range}
    {token : FetchToken} (h : .loadOverview name range token ∈ (app.reloadOverview summary).2) :
    Built summary range := by
  unfold App.reloadOverview at h
  cases hrange : summary.range with
  | none =>
      rw [hrange] at h
      cases h
  | some bounds =>
      rw [hrange] at h
      cases List.mem_singleton.mp h
      exact .newest hrange app.initialArticles

/-- A range that ends at `high` and does not reach down to `0`, or does not end at the last number. -/
def Fits (range : Range) : Prop :=
  ∃ first last, range = .between first last ∧ first ≤ last ∧ ¬ (first = 0 ∧ last = u64Max)

/-- Fewer than all numbers back from `u64::MAX` do not reach `0`. -/
theorem fits_newest (low high count : UInt64) (h : low ≤ high) :
    Fits (.ofBounds (newestFrom low high count) high) := by
  have hle : newestFrom low high count ≤ high := by
    refine max_le ?_ h
    rw [UInt64.le_iff_toNat_le, toNat_saturatingSub]
    omega
  refine ⟨_, _, Range.ofBounds_of_le hle, hle, ?_⟩
  rintro ⟨hfirst, rfl⟩
  have hzero : saturatingSub u64Max (saturatingSub count 1) ≤ 0 := hfirst ▸ le_max_left _ _
  rw [UInt64.le_iff_toNat_le, toNat_saturatingSub, toNat_saturatingSub] at hzero
  have hmax : u64Max.toNat = 18446744073709551615 := rfl
  have hcount := count.toNat_lt
  rw [hmax, UInt64.toNat_one, UInt64.toNat_zero] at hzero
  omega

/-- A part of a range that fits. -/
theorem Fits.chunk {range part : Range} (h : Fits range) (chunk : UInt64) (hpart : part ∈ range.chunks chunk) :
    Fits part := by
  obtain ⟨first, last, rfl, hle, hfits⟩ := h
  obtain ⟨start, stop, rfl, hstart, hin, hstop⟩ := (Range.tiles_chunks chunk hle).within part hpart
  refine ⟨start, stop, rfl, hin, ?_⟩
  rintro ⟨rfl, rfl⟩
  have hlow : first ≤ 0 := hstart
  have hzero : first.toNat ≤ 0 := UInt64.le_iff_toNat_le.mp hlow
  exact hfits ⟨UInt64.toNat_inj.mp (Nat.le_zero.mp hzero), le_antisymm (le_u64Max _) hstop⟩

theorem GroupSummary.le_of_range {summary : GroupSummary} (h : summary.range = some (low, high)) : low ≤ high := by
  unfold GroupSummary.range at h
  obtain ⟨hsome, hbounds⟩ := Option.ite_none_left_eq_some.mp h
  cases hbounds
  unfold GroupSummary.isEmpty at hsome
  simp only [Bool.or_eq_true, decide_eq_true_eq, not_or] at hsome
  exact not_lt.mp hsome.2

theorem Built.fits {summary : GroupSummary} {range : Range} (h : Built summary range) : Fits range := by
  induction h with
  | newest hrange count => exact fits_newest _ _ count (GroupSummary.le_of_range hrange)
  | probe hrange => exact fits_newest _ _ 5 (GroupSummary.le_of_range hrange)
  | chunk _ chunk hpart ih => exact ih.chunk chunk hpart

/-- **Counting between watermarks is safe** for every line of a group list but one from `0` to `u64::MAX`,
and for every range that is built from the watermarks of a group. -/
theorem watermarks_safe_iff (decoders : Decoders) (line : Bytes) :
    (∀ (entry : ActiveEntry) (description : Option Str), ActiveEntry.parse decoders line = .ok entry →
      let row : GroupRow :=
        { name := entry.name, low := entry.low, high := entry.high, status := entry.status, description }
      (SafeCount entry.low entry.high (entry.low ≤ entry.high ∧ 0 < entry.high) entry.estimatedCount ∧
        SafeCount row.low row.high (row.low ≤ row.high ∧ 0 < row.high) row.articleBound ↔
        ¬ (entry.low = 0 ∧ entry.high = u64Max))) ∧
    ∀ (summary : GroupSummary) (range : Range), Built summary range →
      ∃ first last count, range = .between first last ∧ range.count = some count ∧
        SafeCount first last True count := by
  refine ⟨fun entry description _ => ?_, fun summary range h => ?_⟩
  · have hcount := safeCount_iff entry.low entry.high
    exact ⟨fun h => hcount.mp h.1, fun h => ⟨hcount.mpr h, hcount.mpr h⟩⟩
  · obtain ⟨first, last, rfl, hle, hfits⟩ := h.fits
    -- a range is counted without a guard
    have hsize := (checkedSize_iff hle).mpr hfits
    exact ⟨first, last, _, rfl, rfl, fun _ => hsize, ncard_le_of_checkedSize hle hsize⟩

/-- What the decoders make of plain text. -/
def plainText : Decoders where
  windows1252 bytes := bytes.map asciiChar
  decodeHeaderValue bytes := bytes.map asciiChar
  parseDate _ := none

/-- A group with articles 1 to 3, of which the last two are fetched. -/
theorem watermarks_safe_three :
    SafeCount 1 3 ((1 : UInt64) ≤ 3 ∧ (0 : UInt64) < 3) 3 ∧
      ∃ first last count, Range.between 2 3 = .between first last ∧ (Range.between 2 3).count = some count ∧
        SafeCount first last True count := by
  have hall := watermarks_safe_iff plainText (asBytes "misc.test 3 1 y".toList)
  have hentry := hall.1 { name := .miscTest, high := 3, low := 1, status := .permitted } none (by decide +kernel)
  let summary : GroupSummary := { name := .miscTest, estimatedCount := 3, low := 1, high := 3 }
  have hbuilt : Built summary (.between 2 3) := @Built.newest summary 1 3 rfl 2
  exact ⟨(hentry.mpr (by decide)).1, hall.2 summary _ hbuilt⟩

/-- From `0` to `u64::MAX` there is one number more than a `u64` can hold. -/
theorem watermarks_overflow : ¬ ∀ (decoders : Decoders) (line : Bytes) (entry : ActiveEntry),
    ActiveEntry.parse decoders line = .ok entry →
      SafeCount entry.low entry.high (entry.low ≤ entry.high ∧ 0 < entry.high) entry.estimatedCount := by
  intro hall
  have hparse : ActiveEntry.parse plainText (asBytes "misc.test 18446744073709551615 0 y".toList) =
      .ok { name := .miscTest, high := u64Max, low := 0, status := .permitted } := by decide +kernel
  exact (safeCount_iff 0 u64Max).mp (hall _ _ _ hparse) ⟨rfl, rfl⟩

end Nntp.Tui
