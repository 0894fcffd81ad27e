import PointerOS.Pmm

/-!
# Page loops with an `int` counter

`for (int i = 0; i < size; i += PAGE_SIZE_4KB)` with a 64-bit `size`: the counter is
widened for the comparison, so a loop that brings it past `2 ^ 31` ends there.
-/
namespace PointerOS

/-- The value of a 32-bit `int` after an operation that wraps. -/
def wrapInt (x : ℤ) : ℤ := (x + 2 ^ 31) % 2 ^ 32 - 2 ^ 31

/-- The value of an `int` as a `uint32_t`. -/
def intToU32 (x : ℤ) : ℕ := (x % 2 ^ 32).toNat

/-- The loop from the counter `i` on. The counter has `2 ^ 20` values, so a loop that is not
over after that many rounds never ends. -/
def intLoopFrom {α : Type*} (size : ℕ) (body : ℤ → α → α) : ℕ → ℤ → α → α
  | 0, _, s => s
  | n + 1, i, s =>
    if intToU64 i < size then intLoopFrom size body n (wrapInt (i + 4096)) (body i s) else s

def intLoop {α : Type*} (size : ℕ) (body : ℤ → α → α) (s : α) : α :=
  intLoopFrom size body (2 ^ 20 + 1) 0 s

/-- The number of rounds of a loop over `size` bytes. -/
def intRounds (size : ℕ) : ℕ := min ((size + 4095) / 4096) (2 ^ 19)

theorem intToU64_natCast {n : ℕ} (h : n < 2 ^ 64) : intToU64 (n : ℤ) = n := by
  simp only [intToU64]
  omega

theorem intToU32_natCast {n : ℕ} (h : n < 2 ^ 32) : intToU32 (n : ℤ) = n := by
  simp only [intToU32]
  omega

theorem intLoopFrom_eq {α : Type*} {size : ℕ} (hs : size ≤ 2 ^ 64 - 2 ^ 31) (body : ℤ → α → α)
    (k j fuel : ℕ) (s : α) (hk : k + j = intRounds size) (hf : k < fuel) :
    intLoopFrom size body fuel (wrapInt (4096 * j : ℕ)) s =
      (List.range' j k).foldl (fun s j => body (4096 * j : ℕ) s) s := by
  have hr : intRounds size ≤ 2 ^ 19 := Nat.min_le_right ..
  induction k generalizing j fuel s with
  | zero =>
    obtain ⟨fuel, rfl⟩ : ∃ f, fuel = f + 1 := ⟨fuel - 1, by omega⟩
    rw [intLoopFrom, if_neg]
    · rfl
    · -- the counter is past the size, or has wrapped
      simp only [intRounds] at hk hr
      simp only [intToU64, wrapInt]
      omega
  | succ k ih =>
    obtain ⟨fuel, rfl⟩ : ∃ f, fuel = f + 1 := ⟨fuel - 1, by omega⟩
    have hj : 4096 * j < size ∧ j < 2 ^ 19 := by
      simp only [intRounds] at hk
      omega
    have hwrap : wrapInt (4096 * j : ℕ) = (4096 * j : ℕ) := by
      simp only [wrapInt]
      omega
    have hnext : ((4096 * j : ℕ) : ℤ) + 4096 = ((4096 * (j + 1) : ℕ) : ℤ) := by
      push_cast
      ring
    rw [intLoopFrom, hwrap, if_pos (by rw [intToU64_natCast (by omega)]; exact hj.1), hnext,
      ih (j + 1) fuel _ (by omega) (by omega), List.range'_succ, List.foldl_cons]

/-- A page loop visits the offsets `0, 4096, …` in order. -/
theorem intLoop_eq {α : Type*} {size : ℕ} (hs : size ≤ 2 ^ 64 - 2 ^ 31) (body : ℤ → α → α) (s : α) :
    intLoop size body s =
      (List.range (intRounds size)).foldl (fun s j => body (4096 * j : ℕ) s) s := by
  have hr : intRounds size ≤ 2 ^ 19 := Nat.min_le_right ..
  have h := intLoopFrom_eq hs body (intRounds size) 0 (2 ^ 20 + 1) s (by omega) (by omega)
  rw [List.range_eq_range', ← h]
  rfl

end PointerOS
