import Mathlib.Data.Set.Card
import Mathlib.Order.Interval.Set.Nat
import Nntp.Lib.Intervals
import Nntp.Lib.U64

/-!
# Counting what intervals cover

The size of a union of intervals is the sum of the sizes when the list is canonical, because its intervals
are disjoint (`Canonical.ncard_members`), and cutting the list down to a window keeps it canonical
(`Canonical.clamp`). The sizes themselves are added up in `u64` here: `checkedAdd`, `checkedSub` and
`checkedSum` are the operations of a build that checks for overflow, and give `none` where it would stop.
-/

namespace Nntp.Lib

namespace Intervals

variable {α : Type*} [LinearOrder α]

/-- The intervals of a list, cut down to a window; those outside it are dropped. -/
def clamp (low high : α) (rs : List (α × α)) : List (α × α) :=
  rs.filterMap fun r => if max r.1 low ≤ min r.2 high then some (max r.1 low, min r.2 high) else none

/-- An interval of the cut list lies in the interval it was cut from. -/
theorem mem_clamp {low high : α} {rs : List (α × α)} {p : α × α} :
    p ∈ clamp low high rs ↔ ∃ r ∈ rs, p = (max r.1 low, min r.2 high) ∧ p.1 ≤ p.2 := by
  simp only [clamp, List.mem_filterMap, Option.ite_none_right_eq_some, Option.some.injEq]
  constructor
  · rintro ⟨r, hr, hle, rfl⟩
    exact ⟨r, hr, rfl, hle⟩
  · rintro ⟨r, hr, rfl, hle⟩
    exact ⟨r, hr, hle, rfl⟩

theorem members_clamp (low high : α) (rs : List (α × α)) :
    members (clamp low high rs) = members rs ∩ Set.Icc low high := by
  ext n
  simp only [mem_members, mem_clamp, Set.mem_inter_iff, Set.mem_Icc]
  constructor
  · rintro ⟨p, ⟨r, hr, rfl, -⟩, hlow, hhigh⟩
    obtain ⟨hr1, hlow⟩ := max_le_iff.mp hlow
    obtain ⟨hr2, hhigh⟩ := le_min_iff.mp hhigh
    exact ⟨⟨r, hr, hr1, hr2⟩, hlow, hhigh⟩
  · rintro ⟨⟨r, hr, hr1, hr2⟩, hlow, hhigh⟩
    have hleft : max r.1 low ≤ n := max_le hr1 hlow
    have hright : n ≤ min r.2 high := le_min hr2 hhigh
    exact ⟨_, ⟨r, hr, rfl, hleft.trans hright⟩, hleft, hright⟩

/-- What is cut from two intervals with a gap between them has the gap between it too. -/
theorem Canonical.clamp {rs : List (α × α)} (h : Canonical rs) (low high : α) :
    Canonical (clamp low high rs) := by
  refine ⟨?_, ?_⟩
  · intro p hp
    obtain ⟨r, -, -, hle⟩ := mem_clamp.mp hp
    exact hle
  · refine h.gaps.filterMap _ ?_
    rintro r s ⟨m, hrm, hms⟩ p hp q hq
    obtain ⟨-, hp⟩ := Option.ite_none_right_eq_some.mp hp
    obtain ⟨-, hq⟩ := Option.ite_none_right_eq_some.mp hq
    cases hp
    cases hq
    exact ⟨m, (min_le_left _ _).trans_lt hrm, hms.trans_le (le_max_left _ _)⟩

/-- **The intervals of a canonical list are counted one by one.** -/
theorem Canonical.ncard_members [Finite α] {rs : List (α × α)} (h : Canonical rs) :
    (members rs).ncard = (rs.map fun r => (Set.Icc r.1 r.2).ncard).sum := by
  induction rs with
  | nil => simp
  | cons r rs ih =>
      have hdisjoint : Disjoint (Set.Icc r.1 r.2) (members rs) := by
        rw [Set.disjoint_left]
        intro n hn htail
        -- what the tail covers lies beyond the head
        exact absurd hn.2 (not_le.mpr ((h.mem_tail_iff n).mp htail).2)
      rw [members_cons, Set.ncard_union_eq hdisjoint, ih h.tail, List.map_cons, List.sum_cons]

end Intervals

/-! ## Intervals of `u64` -/

instance instFiniteUInt64 : Finite UInt64 := by
  apply Finite.of_injective UInt64.toFin
  intro a b h
  exact UInt64.toFin_inj.mp h

theorem ncard_Icc (a b : UInt64) : (Set.Icc a b).ncard = b.toNat + 1 - a.toNat := by
  have himage : UInt64.toNat '' Set.Icc a b = Set.Icc a.toNat b.toNat := by
    ext n
    constructor
    · rintro ⟨m, ⟨ha, hb⟩, rfl⟩
      exact ⟨UInt64.le_iff_toNat_le.mp ha, UInt64.le_iff_toNat_le.mp hb⟩
    · rintro ⟨ha, hb⟩
      have hn : (UInt64.ofNat n).toNat = n := UInt64.toNat_ofNat_of_lt' (hb.trans_lt b.toNat_lt)
      refine ⟨UInt64.ofNat n, ⟨?_, ?_⟩, hn⟩
      · rwa [UInt64.le_iff_toNat_le, hn]
      · rwa [UInt64.le_iff_toNat_le, hn]
  have hinjective : Function.Injective UInt64.toNat := fun _ _ h => UInt64.toNat_inj.mp h
  rw [← Set.ncard_image_of_injective _ hinjective, himage, Set.ncard_Icc_nat]

/-- A set of positive numbers is smaller than the numbers there are. -/
theorem ncard_lt_size {A : Set UInt64} (h : ∀ n ∈ A, 1 ≤ n) : A.ncard < UInt64.size := by
  have hsub : A ⊆ Set.Icc 1 u64Max := fun n hn => ⟨h n hn, le_u64Max n⟩
  have hle := Set.ncard_le_ncard hsub
  rw [ncard_Icc] at hle
  exact Nat.lt_of_le_of_lt hle (by decide)

/-! ## Checked arithmetic -/

/-- `a + b`, if it fits. -/
def checkedAdd (a b : UInt64) : Option UInt64 :=
  if a.toNat + b.toNat < UInt64.size then some (a + b) else none

/-- `a - b`, if it is not negative. -/
def checkedSub (a b : UInt64) : Option UInt64 := if b ≤ a then some (a - b) else none

/-- `sum()`: the numbers added to `0` one after the other, each sum checked. -/
def checkedSum (ns : List (Option UInt64)) : Option UInt64 :=
  ns.foldl (fun total n => do checkedAdd (← total) (← n)) (some 0)

theorem checkedAdd_eq {a b : UInt64} (h : a.toNat + b.toNat < UInt64.size) :
    checkedAdd a b = some (a + b) ∧ (a + b).toNat = a.toNat + b.toNat :=
  ⟨if_pos h, by rw [UInt64.toNat_add, Nat.mod_eq_of_lt h]⟩

theorem checkedSub_eq {a b : UInt64} (h : b ≤ a) :
    checkedSub a b = some (a - b) ∧ (a - b).toNat = a.toNat - b.toNat :=
  ⟨if_pos h, UInt64.toNat_sub_of_le _ _ h⟩

theorem checkedAdd_eq_some_iff {a b c : UInt64} : checkedAdd a b = some c ↔ a.toNat + b.toNat = c.toNat := by
  unfold checkedAdd
  rw [Option.ite_none_right_eq_some, Option.some.injEq, ← UInt64.toNat_inj, UInt64.toNat_add]
  constructor
  · rintro ⟨hfits, heq⟩
    rw [← heq, Nat.mod_eq_of_lt hfits]
  · intro heq
    rw [heq]
    exact ⟨c.toNat_lt, Nat.mod_eq_of_lt c.toNat_lt⟩

/-- There is a number behind one that is not the last. -/
theorem checkedAdd_one_of_lt {n high : UInt64} (h : n < high) : checkedAdd n 1 = some (n + 1) :=
  checkedAdd_eq_some_iff.mpr (toNat_succ h).symm

/-- Numbers whose sum fits: no step of the addition overflows, and the total is the sum. -/
theorem foldl_checkedAdd (ns : List UInt64) : ∀ total : UInt64,
    total.toNat + (ns.map UInt64.toNat).sum < UInt64.size →
    (ns.map some).foldl (fun total n => do checkedAdd (← total) (← n)) (some total) =
        some (ns.foldl (· + ·) total) ∧
      (ns.foldl (· + ·) total).toNat = total.toNat + (ns.map UInt64.toNat).sum := by
  induction ns with
  | nil =>
      intro total _
      exact ⟨rfl, rfl⟩
  | cons n ns ih =>
      intro total h
      rw [List.map_cons, List.sum_cons, ← Nat.add_assoc] at h
      obtain ⟨hadd, hnat⟩ := checkedAdd_eq (Nat.lt_of_le_of_lt (Nat.le_add_right _ _) h)
      obtain ⟨hfold, htotal⟩ := ih (total + n) (hnat ▸ h)
      constructor
      · rw [List.map_cons, List.foldl_cons, List.foldl_cons, ← hfold]
        simp [hadd]
      · rw [List.foldl_cons, htotal, hnat, List.map_cons, List.sum_cons, Nat.add_assoc]

theorem checkedSum_eq {ns : List UInt64} (h : (ns.map UInt64.toNat).sum < UInt64.size) :
    checkedSum (ns.map some) = some (ns.foldl (· + ·) 0) ∧
      (ns.foldl (· + ·) 0).toNat = (ns.map UInt64.toNat).sum := by
  have h0 : (0 : UInt64).toNat + (ns.map UInt64.toNat).sum < UInt64.size := by
    rwa [UInt64.toNat_zero, Nat.zero_add]
  obtain ⟨hsum, htotal⟩ := foldl_checkedAdd ns 0 h0
  rw [UInt64.toNat_zero, Nat.zero_add] at htotal
  exact ⟨hsum, htotal⟩

end Nntp.Lib
