import Mathlib

/-!
# Byte-packed bit sets

Bit `b` is bit `b % 8` of byte `b / 8`. Setting and clearing go through the masks
`1 << (b % 8)` and its complement; both change the bit they name and no other,
and a bitmap is determined by its bits.
-/
namespace PointerOS.Bitmap

abbrev Bits := ℕ → UInt8

def mask (b : ℕ) : UInt8 := 1 <<< UInt8.ofNat (b % 8)

def setBit (m : Bits) (b : ℕ) : Bits := Function.update m (b / 8) (m (b / 8) ||| mask b)

def clrBit (m : Bits) (b : ℕ) : Bits := Function.update m (b / 8) (m (b / 8) &&& ~~~ mask b)

def testBit (m : Bits) (b : ℕ) : Bool := m (b / 8) &&& mask b != 0

lemma mask_toNat (b : ℕ) : (mask b).toNat = 2 ^ (b % 8) := by
  have hb : b % 8 < 8 := Nat.mod_lt _ (by omega)
  have hpow : 2 ^ (b % 8) < 2 ^ 8 := Nat.pow_lt_pow_right (by omega) hb
  simp only [mask, UInt8.toNat_shiftLeft, UInt8.toNat_ofNat', UInt8.toNat_one, Nat.one_shiftLeft]
  rw [Nat.mod_eq_of_lt (show b % 8 < 2 ^ 8 by omega), Nat.mod_mod, Nat.mod_eq_of_lt hpow]

theorem testBit_eq (m : Bits) (b : ℕ) : testBit m b = (m (b / 8)).toNat.testBit (b % 8) := by
  have hand : (m (b / 8) &&& mask b).toNat = ((m (b / 8)).toNat.testBit (b % 8)).toNat * 2 ^ (b % 8) := by
    rw [UInt8.toNat_and, mask_toNat, Nat.and_two_pow]
  rw [testBit]
  cases h : (m (b / 8)).toNat.testBit (b % 8) with
  | false =>
    rw [h] at hand
    have h0 : m (b / 8) &&& mask b = 0 := UInt8.toNat_inj.mp (by simpa using hand)
    simp [h0]
  | true =>
    rw [h] at hand
    have h0 : m (b / 8) &&& mask b ≠ 0 := by
      intro he
      rw [he] at hand
      have hpos := Nat.two_pow_pos (b % 8)
      simp only [UInt8.toNat_zero, Bool.toNat_true, one_mul] at hand
      omega
    simpa using h0

/-- Two bits of one byte are told apart by their remainders. -/
lemma eq_of_div_mod {a b : ℕ} (hd : a / 8 = b / 8) (hm : a % 8 = b % 8) : a = b := by omega

theorem testBit_setBit (m : Bits) (a b : ℕ) : testBit (setBit m a) b = (decide (b = a) || testBit m b) := by
  rw [testBit_eq, testBit_eq, setBit]
  by_cases hd : b / 8 = a / 8
  · rw [hd, Function.update_self, UInt8.toNat_or, Nat.testBit_or, mask_toNat, Nat.testBit_two_pow]
    have he : a % 8 = b % 8 ↔ b = a := ⟨fun hm => eq_of_div_mod hd hm.symm, fun h => by rw [h]⟩
    simp only [he, Bool.or_comm]
  · have hne : b ≠ a := fun h => hd (by rw [h])
    rw [Function.update_of_ne hd]
    simp [hne]

theorem testBit_clrBit (m : Bits) (a b : ℕ) : testBit (clrBit m a) b = (!decide (b = a) && testBit m b) := by
  rw [testBit_eq, testBit_eq, clrBit]
  by_cases hd : b / 8 = a / 8
  · have hnot : (~~~ mask a).toNat.testBit (b % 8) = !decide (b = a) := by
      have hb : b % 8 < 8 := Nat.mod_lt _ (by omega)
      have he : a % 8 = b % 8 ↔ b = a := ⟨fun hm => eq_of_div_mod hd hm.symm, fun h => by rw [h]⟩
      have hlt : 2 ^ (a % 8) < 2 ^ 8 := Nat.pow_lt_pow_right (by omega) (Nat.mod_lt _ (by omega))
      have hval : (~~~ mask a).toNat = 2 ^ 8 - (2 ^ (a % 8) + 1) := by
        rw [UInt8.toNat_not, mask_toNat, UInt8.size]
        omega
      rw [hval, Nat.testBit_two_pow_sub_succ hlt, Nat.testBit_two_pow]
      simp [hb, he]
    rw [hd, Function.update_self, UInt8.toNat_and, Nat.testBit_and, hnot, Bool.and_comm]
  · have hne : b ≠ a := fun h => hd (by rw [h])
    rw [Function.update_of_ne hd]
    simp [hne]

/-- Bytes with the same bits are equal. -/
theorem byte_eq {m m' : Bits} {i : ℕ} (h : ∀ j < 8, testBit m (8 * i + j) = testBit m' (8 * i + j)) : m i = m' i := by
  refine UInt8.toNat_inj.mp (Nat.eq_of_testBit_eq fun j => ?_)
  by_cases hj : j < 8
  · have hb := h j hj
    rw [testBit_eq, testBit_eq, show (8 * i + j) / 8 = i by omega, show (8 * i + j) % 8 = j by omega] at hb
    exact hb
  · have hlt : ∀ x : UInt8, x.toNat < 2 ^ j := fun x =>
      lt_of_lt_of_le x.toNat_lt (Nat.pow_le_pow_right (by omega) (by omega))
    rw [Nat.testBit_lt_two_pow (hlt _), Nat.testBit_lt_two_pow (hlt _)]

/-- Bitmaps with the same bits are equal. -/
theorem ext {m m' : Bits} (h : ∀ b, testBit m b = testBit m' b) : m = m' :=
  funext fun i => byte_eq fun j _ => h (8 * i + j)

end PointerOS.Bitmap
