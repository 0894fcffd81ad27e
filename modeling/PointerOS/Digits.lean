import Mathlib

/-!
# The text of a number

The digits of a number as bytes, most significant digit first, and a loop that takes them off at the low
end and stacks them up.
-/
namespace PointerOS.Digits

/-- The text of a number in a base up to 16. -/
def text (base n : ℕ) : List UInt8 := (Nat.toDigits base n).map Char.toUInt8

/-- The text of an integer. -/
def signedText (base : ℕ) (i : ℤ) : List UInt8 :=
  if i < 0 then '-'.toUInt8 :: text base i.natAbs else text base i.natAbs

/-- `"0123456789abcdef"[d]` -/
def digit (d : ℕ) : UInt8 := ("0123456789abcdef".toList.map Char.toUInt8).getD d 0

/-- The digits that the loop has to take off; none for zero. -/
def taken (base n : ℕ) : List UInt8 := if n = 0 then [] else text base n

variable {base n k d : ℕ}

theorem digit_eq (hd : d < 16) : digit d = (Nat.digitChar d).toUInt8 := by
  interval_cases d <;> rfl

theorem text_zero (base : ℕ) : text base 0 = ['0'.toUInt8] := by
  rw [text, Nat.toDigits_zero]
  rfl

theorem length_text_le_iff (hb : 1 < base) (hk : 0 < k) : (text base n).length ≤ k ↔ n < base ^ k := by
  rw [text, List.length_map]
  exact Nat.length_toDigits_le_iff hb hk

/-- A larger number does not have a shorter text. -/
theorem length_text_lt (hb : 1 < base) {m : ℕ} (hk : 0 < k) (hm : m < base ^ k) (hn : base ^ k ≤ n) :
    (text base m).length < (text base n).length := by
  have h1 := (length_text_le_iff hb hk).mpr hm
  have h2 := mt (length_text_le_iff hb hk).mp (Nat.not_lt.mpr hn)
  omega

/-- The last digit behind the others. -/
theorem taken_eq (hb : 1 < base) (hn : n ≠ 0) :
    taken base n = taken base (n / base) ++ [(Nat.digitChar (n % base)).toUInt8] := by
  rw [taken, if_neg hn, text, Nat.toDigits_eq_if hb]
  split_ifs with hlt
  · rw [taken, if_pos (Nat.div_eq_of_lt hlt), Nat.mod_eq_of_lt hlt]
    rfl
  · have hdiv : n / base ≠ 0 := by
      rw [Nat.div_ne_zero_iff]
      omega
    rw [taken, if_neg hdiv, List.map_append]
    rfl

/-- The digits are none of the bytes that are no digits. -/
theorem notMem_text (hb : 1 < base) (hb' : base ≤ 16) {c : UInt8}
    (hc : ∀ d < 16, (Nat.digitChar d).toUInt8 ≠ c) : c ∉ text base n := by
  induction n using Nat.strong_induction_on with
  | _ n ih =>
    rw [text, Nat.toDigits_eq_if hb]
    split_ifs with hlt
    · rw [List.map_singleton, List.mem_singleton]
      exact fun he => hc n (by omega) he.symm
    · rw [List.map_append, List.mem_append, not_or]
      refine ⟨ih (n / base) (Nat.div_lt_self (by omega) hb), ?_⟩
      rw [List.map_singleton, List.mem_singleton]
      exact fun he => hc (n % base) ((Nat.mod_lt n (by omega)).trans_le hb') he.symm

theorem percent_notMem_text (hb : 1 < base) (hb' : base ≤ 16) : '%'.toUInt8 ∉ text base n := by
  refine notMem_text hb hb' fun d hd => ?_
  interval_cases d <;> decide

end PointerOS.Digits
