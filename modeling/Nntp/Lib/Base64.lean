import Mathlib.Data.Option.Basic

/-!
# Base64

The standard alphabet. The encoder pads; the decoder takes padded and unpadded input, and does not look at
the bits behind the last octet. `decode_encode` is the round trip, `decode_length` says that decoding does not
lengthen.
-/

namespace Nntp.Lib.Base64

/-- The character for six bits. -/
def digit (v : Nat) : Char :=
  if v < 26 then Char.ofNat (v + 65)
  else if v < 52 then Char.ofNat (v + 71)
  else if v < 62 then Char.ofNat (v - 4)
  else if v = 62 then '+'
  else '/'

/-- The six bits of a character. -/
def value (c : Char) : Option Nat :=
  if 65 ≤ c.toNat ∧ c.toNat ≤ 90 then some (c.toNat - 65)
  else if 97 ≤ c.toNat ∧ c.toNat ≤ 122 then some (c.toNat - 71)
  else if 48 ≤ c.toNat ∧ c.toNat ≤ 57 then some (c.toNat + 4)
  else if c = '+' then some 62
  else if c = '/' then some 63
  else none

def encode : List UInt8 → List Char
  | [] => []
  | [a] => [digit (a.toNat / 4), digit (a.toNat % 4 * 16), '=', '=']
  | [a, b] =>
      [digit (a.toNat / 4), digit (a.toNat % 4 * 16 + b.toNat / 16), digit (b.toNat % 16 * 4), '=']
  | a :: b :: c :: rest =>
      digit (a.toNat / 4) :: digit (a.toNat % 4 * 16 + b.toNat / 16) ::
        digit (b.toNat % 16 * 4 + c.toNat / 64) :: digit (c.toNat % 64) :: encode rest

/-- The first octet of a group. -/
def first (w x : Char) : Option UInt8 := do
  let w ← value w
  let x ← value x
  return UInt8.ofNat (w * 4 + x / 16)

/-- The second octet of a group. -/
def second (x y : Char) : Option UInt8 := do
  let x ← value x
  let y ← value y
  return UInt8.ofNat (x % 16 * 16 + y / 4)

/-- The third octet of a group. -/
def third (y z : Char) : Option UInt8 := do
  let y ← value y
  let z ← value z
  return UInt8.ofNat (y % 4 * 64 + z)

def decode : List Char → Option (List UInt8)
  | [] => some []
  | [w, x] | [w, x, '='] | [w, x, '=', '='] => do return [← first w x]
  | [w, x, y] | [w, x, y, '='] => do return [← first w x, ← second x y]
  | w :: x :: y :: z :: rest => do return (← first w x) :: (← second x y) :: (← third y z) :: (← decode rest)
  | [_] => none

/-! ## The round trip -/

theorem value_digit {v : Nat} (h : v < 64) : value (digit v) = some v := by
  have hall : ∀ v : Fin 64, value (digit v) = some v.val := by decide +kernel
  exact hall ⟨v, h⟩

theorem digit_ne {v : Nat} (h : v < 64) : digit v ≠ '=' := by
  have hall : ∀ v : Fin 64, digit v ≠ '=' := by decide +kernel
  exact hall ⟨v, h⟩

section Octets

variable (a b c : UInt8)

theorem first_digits {low : Nat} (h : low < 16) :
    first (digit (a.toNat / 4)) (digit (a.toNat % 4 * 16 + low)) = some a := by
  have ha := a.toNat_lt
  unfold first
  rw [value_digit (by omega), value_digit (by omega)]
  show some (UInt8.ofNat _) = some a
  rw [show a.toNat / 4 * 4 + (a.toNat % 4 * 16 + low) / 16 = a.toNat by omega, UInt8.ofNat_toNat]

theorem second_digits {high low : Nat} (hhigh : high < 4) (h : low < 4) :
    second (digit (high * 16 + b.toNat / 16)) (digit (b.toNat % 16 * 4 + low)) = some b := by
  have hb := b.toNat_lt
  unfold second
  rw [value_digit (by omega), value_digit (by omega)]
  show some (UInt8.ofNat _) = some b
  rw [show (high * 16 + b.toNat / 16) % 16 * 16 + (b.toNat % 16 * 4 + low) / 4 = b.toNat by omega,
    UInt8.ofNat_toNat]

theorem third_digits {high : Nat} (hhigh : high < 16) :
    third (digit (high * 4 + c.toNat / 64)) (digit (c.toNat % 64)) = some c := by
  have hc := c.toNat_lt
  unfold third
  rw [value_digit (by omega), value_digit (by omega)]
  show some (UInt8.ofNat _) = some c
  rw [show (high * 4 + c.toNat / 64) % 4 * 64 + c.toNat % 64 = c.toNat by omega, UInt8.ofNat_toNat]

end Octets

/-- **What is encoded is decoded.** -/
theorem decode_encode (bytes : List UInt8) : decode (encode bytes) = some bytes := by
  fun_induction encode bytes with
  | case1 => rfl
  | case2 a =>
      have hfirst := first_digits a (show 0 < 16 by decide)
      rw [Nat.add_zero] at hfirst
      simp [decode, hfirst]
  | case3 a b =>
      have ha := a.toNat_lt
      have hb := b.toNat_lt
      have hfirst := first_digits a (show b.toNat / 16 < 16 by omega)
      have hsecond := second_digits b (show a.toNat % 4 < 4 by omega) (show 0 < 4 by decide)
      rw [Nat.add_zero] at hsecond
      have hne : digit (b.toNat % 16 * 4) ≠ '=' := digit_ne (by omega)
      rw [decode, hfirst, hsecond]
      · rfl
      · exact hne
  | case4 a b c rest ih =>
      have ha := a.toNat_lt
      have hb := b.toNat_lt
      have hc := c.toNat_lt
      have hfirst := first_digits a (show b.toNat / 16 < 16 by omega)
      have hsecond := second_digits b (show a.toNat % 4 < 4 by omega) (show c.toNat / 64 < 4 by omega)
      have hthird := third_digits c (show b.toNat % 16 < 16 by omega)
      have hne : digit (c.toNat % 64) ≠ '=' := digit_ne (by omega)
      simp [decode, hne, hfirst, hsecond, hthird, ih]

/-- Four characters for every three octets begun. -/
theorem length_encode (bytes : List UInt8) : (encode bytes).length = (bytes.length + 2) / 3 * 4 := by
  fun_induction encode bytes with
  | case1 | case2 | case3 => simp
  | case4 a b c rest ih =>
      simp only [List.length_cons, ih]
      omega

/-- The characters of the output. -/
theorem mem_encode {bytes : List UInt8} {c : Char} (h : c ∈ encode bytes) :
    c = '=' ∨ ∃ v < 64, c = digit v := by
  fun_induction encode bytes with
  | case1 => cases h
  | case2 a =>
      have ha := a.toNat_lt
      simp only [List.mem_cons, List.not_mem_nil, or_false, or_self] at h
      rcases h with rfl | rfl | rfl
      · exact Or.inr ⟨_, by omega, rfl⟩
      · exact Or.inr ⟨_, by omega, rfl⟩
      · exact Or.inl rfl
  | case3 a b =>
      have ha := a.toNat_lt
      have hb := b.toNat_lt
      simp only [List.mem_cons, List.not_mem_nil, or_false] at h
      rcases h with rfl | rfl | rfl | rfl
      · exact Or.inr ⟨_, by omega, rfl⟩
      · exact Or.inr ⟨_, by omega, rfl⟩
      · exact Or.inr ⟨_, by omega, rfl⟩
      · exact Or.inl rfl
  | case4 a b c' rest ih =>
      have ha := a.toNat_lt
      have hb := b.toNat_lt
      have hc := c'.toNat_lt
      simp only [List.mem_cons] at h
      rcases h with rfl | rfl | rfl | rfl | h
      · exact Or.inr ⟨_, by omega, rfl⟩
      · exact Or.inr ⟨_, by omega, rfl⟩
      · exact Or.inr ⟨_, by omega, rfl⟩
      · exact Or.inr ⟨_, by omega, rfl⟩
      · exact ih h

/-- Decoding does not lengthen. -/
theorem decode_length {s : List Char} {bytes : List UInt8} (h : decode s = some bytes) :
    bytes.length ≤ s.length := by
  fun_induction decode s generalizing bytes with
  | case1 =>
      cases h
      exact Nat.le_refl _
  | case2 w x | case3 w x | case4 w x =>
      obtain ⟨a, _, h⟩ := Option.bind_eq_some_iff.mp h
      cases h
      simp
  | case5 w x y | case6 w x y =>
      obtain ⟨a, _, h⟩ := Option.bind_eq_some_iff.mp h
      obtain ⟨b, _, h⟩ := Option.bind_eq_some_iff.mp h
      cases h
      simp
  | case7 w x y z rest _ _ ih =>
      obtain ⟨a, _, h⟩ := Option.bind_eq_some_iff.mp h
      obtain ⟨b, _, h⟩ := Option.bind_eq_some_iff.mp h
      obtain ⟨c, _, h⟩ := Option.bind_eq_some_iff.mp h
      obtain ⟨more, hmore, h⟩ := Option.bind_eq_some_iff.mp h
      cases h
      have := ih hmore
      simp only [List.length_cons]
      omega
  | case8 => cases h

end Nntp.Lib.Base64
