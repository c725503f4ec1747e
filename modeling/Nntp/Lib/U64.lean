import Mathlib.Order.Lattice

/-!
# `u64` as a linear order

Article numbers, watermarks and counters are `u64` in the source and `UInt64` here. Core gives
`UInt64` its order relation piecemeal; the bundled `LinearOrder` is what the order-generic modules
of this library ask for. `min` and `max` are the ones `UInt64` already has, so nothing changes
meaning by importing this file.
-/

namespace Nntp.Lib

instance instLinearOrderUInt64 : LinearOrder UInt64 where
  le_refl := UInt64.le_refl
  le_trans := fun _ _ _ => UInt64.le_trans
  le_antisymm := fun _ _ => UInt64.le_antisymm
  le_total := UInt64.le_total
  lt_iff_le_not_ge := by intro a b; grind
  toDecidableLE := inferInstance
  toDecidableEq := inferInstance
  toDecidableLT := inferInstance
  min_def := fun _ _ => rfl
  max_def := fun _ _ => rfl

/-! ## The next number -/

/-- The number behind one that is not the last. -/
theorem toNat_succ {n high : UInt64} (h : n < high) : (n + 1).toNat = n.toNat + 1 := by
  rw [UInt64.lt_iff_toNat_lt] at h
  have := high.toNat_lt
  rw [UInt64.toNat_add, UInt64.toNat_one]
  omega

theorem succ_le_iff {n m high : UInt64} (h : n < high) : n + 1 ≤ m ↔ n < m := by
  rw [UInt64.le_iff_toNat_le, UInt64.lt_iff_toNat_lt, toNat_succ h]
  rfl

/-! ## Saturating arithmetic

`u64::saturating_add` and `u64::saturating_sub`, by the values they return. -/

/-- `u64::MAX`. -/
def u64Max : UInt64 := 18446744073709551615

theorem le_u64Max (n : UInt64) : n ≤ u64Max := by
  rw [UInt64.le_iff_toNat_le]
  exact Nat.le_of_lt_succ n.toNat_lt

/-- `a.saturating_add(b)`: the sum, or `u64::MAX` where it does not fit. -/
def saturatingAdd (a b : UInt64) : UInt64 :=
  if a + b < a then u64Max else a + b

/-- `a.saturating_sub(b)`: the difference, or `0` where it would be negative. -/
def saturatingSub (a b : UInt64) : UInt64 :=
  if a < b then 0 else a - b

theorem toNat_saturatingAdd (a b : UInt64) :
    (saturatingAdd a b).toNat = min (a.toNat + b.toNat) 18446744073709551615 := by
  have ha := a.toNat_lt
  have hb := b.toNat_lt
  have hmax : u64Max.toNat = 18446744073709551615 := rfl
  unfold saturatingAdd
  split
  · next h =>
      rw [UInt64.lt_iff_toNat_lt, UInt64.toNat_add] at h
      rw [hmax]
      omega
  · next h =>
      rw [UInt64.lt_iff_toNat_lt, UInt64.toNat_add] at h
      rw [UInt64.toNat_add]
      omega

theorem le_saturatingAdd (a b : UInt64) : a ≤ saturatingAdd a b := by
  rw [UInt64.le_iff_toNat_le, toNat_saturatingAdd]
  have := a.toNat_lt
  omega

theorem toNat_saturatingSub (a b : UInt64) :
    (saturatingSub a b).toNat = a.toNat - b.toNat := by
  unfold saturatingSub
  split
  · next h =>
      rw [UInt64.lt_iff_toNat_lt] at h
      rw [UInt64.toNat_zero]
      omega
  · next h =>
      rw [UInt64.lt_iff_toNat_lt] at h
      rw [UInt64.toNat_sub_of_le _ _ (UInt64.le_iff_toNat_le.mpr (by omega))]

end Nntp.Lib
