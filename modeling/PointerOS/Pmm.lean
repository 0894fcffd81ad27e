import PointerOS.Bitmap

/-!
# The physical page allocator

One bit for each frame, set while the frame is in use. The allocators scan the
bitmap from frame 0; `pmm_alloc_page` computes addresses in 64 bits,
`pmm_alloc_pages` in `int`. The lock of `pmm_alloc_page` makes a call one step.
-/
namespace PointerOS
open Bitmap

/-- The globals of `pmm.c`. The bytes behind the bitmap are whatever memory holds. -/
structure Pmm where
  bitmap : Bits
  totalPages : ℕ

/-- The value of an `int` converted to 64 bits without sign. -/
def intToU64 (x : ℤ) : ℕ := (x % 2 ^ 64).toNat

/-- An `int` result, given without wrap-around, as the 64 bits it is widened to. -/
def signExtend32 (x : ℕ) : ℕ :=
  if x % 2 ^ 32 < 2 ^ 31 then x % 2 ^ 32 else x % 2 ^ 32 + (2 ^ 64 - 2 ^ 32)

namespace Pmm

def used (s : Pmm) (bit : ℕ) : Bool := testBit s.bitmap bit

/-- The scan of `pmm_alloc_page` from frame `i`, with `n` frames to go. -/
def pmmAllocPageFrom (s : Pmm) : ℕ → ℕ → ℕ × Pmm
  | 0, _ => (0, s)
  | n + 1, i =>
    if s.used i = false then (i * 4096 % 2 ^ 64, { s with bitmap := setBit s.bitmap i })
    else pmmAllocPageFrom s n (i + 1)

def pmmAllocPage (s : Pmm) : ℕ × Pmm := s.pmmAllocPageFrom s.totalPages 0

/-- The inner loop of `pmm_alloc_pages`: the first `j` from the given one on, below
`count`, with frame `i + j` in use. -/
def firstUsed (s : Pmm) (i count : ℕ) : ℕ → ℕ → Option ℕ
  | 0, _ => none
  | n + 1, j => if j < count then if s.used (i + j) then some j else firstUsed s i count n (j + 1) else none

def setRange (m : Bits) (i : ℕ) : ℕ → Bits
  | 0 => m
  | n + 1 => setBit (setRange m i n) (i + n)

/-- The scan of `pmm_alloc_pages` from `i`. From `2 ^ 31` on the `int` is negative
and, compared as an unsigned number, past `total_pages`. -/
def pmmAllocPagesFrom (s : Pmm) (count : ℕ) : ℕ → ℕ → ℕ × Pmm
  | 0, _ => (0, s)
  | n + 1, i =>
    if i ≤ s.totalPages ∧ i < 2 ^ 31 then
      if s.used i then pmmAllocPagesFrom s count n (i + 1)
      else match s.firstUsed i count count 1 with
        | some j => pmmAllocPagesFrom s count n (i + j + 1)
        | none => (signExtend32 (i * 4096), { s with bitmap := setRange s.bitmap i count })
    else (0, s)

def pmmAllocPages (s : Pmm) (pagesCount : ℤ) : ℕ × Pmm :=
  if pagesCount = 0 then (0, s)
  else if s.totalPages < intToU64 pagesCount then (0, s)
  else s.pmmAllocPagesFrom (intToU64 pagesCount) (s.totalPages + 1) 0

def pmmFreePage (s : Pmm) (paddr : ℕ) : Pmm :=
  let bit := paddr / 4096
  if s.totalPages ≤ bit then s
  else if s.used bit = false then s
  else { s with bitmap := clrBit s.bitmap bit }

/-- The scan finds the lowest free frame, or there is none. -/
theorem pmmAllocPageFrom_spec (s : Pmm) (n i : ℕ) :
    (s.pmmAllocPageFrom n i = (0, s) ∧ ∀ k, i ≤ k → k < i + n → s.used k = true) ∨
    ∃ k, i ≤ k ∧ k < i + n ∧ s.used k = false ∧ (∀ l, i ≤ l → l < k → s.used l = true) ∧
      s.pmmAllocPageFrom n i = (k * 4096 % 2 ^ 64, { s with bitmap := setBit s.bitmap k }) := by
  induction n generalizing i with
  | zero => exact Or.inl ⟨rfl, by intro k h1 h2; omega⟩
  | succ n ih =>
    rw [pmmAllocPageFrom]
    by_cases hi : s.used i = false
    · rw [if_pos hi]
      exact Or.inr ⟨i, le_rfl, by omega, hi, by intro l h1 h2; omega, rfl⟩
    · rw [if_neg hi]
      have hset : s.used i = true := by simpa using hi
      have hstep : ∀ k, i ≤ k → k = i ∨ i + 1 ≤ k := by omega
      rcases ih (i + 1) with ⟨hr, hall⟩ | ⟨k, h1, h2, hk, hlow, hr⟩
      · refine Or.inl ⟨hr, fun k hik hkn => ?_⟩
        rcases hstep k hik with rfl | hik'
        · exact hset
        · exact hall k hik' (by omega)
      · refine Or.inr ⟨k, by omega, by omega, hk, fun l hil hlk => ?_, hr⟩
        rcases hstep l hil with rfl | hil'
        · exact hset
        · exact hlow l hil' hlk

theorem pmmAllocPage_spec (s : Pmm) :
    (s.pmmAllocPage = (0, s) ∧ ∀ k < s.totalPages, s.used k = true) ∨
    ∃ k < s.totalPages, s.used k = false ∧ (∀ l < k, s.used l = true) ∧
      s.pmmAllocPage = (k * 4096 % 2 ^ 64, { s with bitmap := setBit s.bitmap k }) := by
  rcases s.pmmAllocPageFrom_spec s.totalPages 0 with ⟨hr, hall⟩ | ⟨k, _, hk, hfree, hlow, hr⟩
  · exact Or.inl ⟨hr, fun k hk => hall k (Nat.zero_le k) (by omega)⟩
  · exact Or.inr ⟨k, by omega, hfree, fun l hl => hlow l (Nat.zero_le l) hl, hr⟩

lemma used_setBit (s : Pmm) (a b : ℕ) :
    testBit (setBit s.bitmap a) b = (decide (b = a) || s.used b) := testBit_setBit _ _ _

lemma testBit_setRange (m : Bits) (i n b : ℕ) :
    testBit (setRange m i n) b = (decide (i ≤ b ∧ b < i + n) || testBit m b) := by
  induction n with
  | zero =>
    simp [setRange]
  | succ n ih =>
    have hb : (i ≤ b ∧ b < i + (n + 1)) ↔ b = i + n ∨ (i ≤ b ∧ b < i + n) := by omega
    rw [setRange, testBit_setBit, ih]
    simp only [hb, Bool.decide_or, Bool.or_assoc]

lemma firstUsed_eq_none (s : Pmm) (i count n j : ℕ) (hn : count ≤ n + j) :
    s.firstUsed i count n j = none ↔ ∀ l, j ≤ l → l < count → s.used (i + l) = false := by
  induction n generalizing j with
  | zero => exact ⟨fun _ l h1 h2 => by omega, fun _ => rfl⟩
  | succ n ih =>
    rw [firstUsed]
    split_ifs with hj hu
    · simp only [false_iff, not_forall]
      exact ⟨j, le_rfl, hj, by simp [hu]⟩
    · rw [ih (j + 1) (by omega)]
      constructor
      · intro h l hjl hlc
        rcases Nat.eq_or_lt_of_le hjl with rfl | hlt
        · simpa using hu
        · exact h l hlt hlc
      · exact fun h l hjl hlc => h l (by omega) hlc
    · exact ⟨fun _ l h1 h2 => by omega, fun _ => rfl⟩

/-- What the scan of `pmm_alloc_pages` hands out was free. -/
theorem pmmAllocPagesFrom_spec (s : Pmm) (count n i : ℕ) :
    s.pmmAllocPagesFrom count n i = (0, s) ∨
    ∃ k, k ≤ s.totalPages ∧ k < 2 ^ 31 ∧ (∀ j < count, s.used (k + j) = false) ∧
      s.pmmAllocPagesFrom count n i =
        (signExtend32 (k * 4096), { s with bitmap := setRange s.bitmap k count }) := by
  induction n generalizing i with
  | zero => exact Or.inl rfl
  | succ n ih =>
    rw [pmmAllocPagesFrom]
    by_cases hi : i ≤ s.totalPages ∧ i < 2 ^ 31
    · rw [if_pos hi]
      by_cases hu : s.used i = true
      · rw [if_pos hu]
        exact ih (i + 1)
      · rw [if_neg hu]
        cases hf : s.firstUsed i count count 1 with
        | some j => exact ih (i + j + 1)
        | none =>
          rw [firstUsed_eq_none s i count count 1 (by omega)] at hf
          refine Or.inr ⟨i, hi.1, hi.2, fun j hj => ?_, rfl⟩
          rcases Nat.eq_zero_or_pos j with rfl | hpos
          · simpa using hu
          · exact hf j hpos hj
    · rw [if_neg hi]
      exact Or.inl rfl

theorem pmmAllocPages_spec (s : Pmm) (hT : s.totalPages < 2 ^ 52) {pagesCount : ℤ}
    (hlo : -2 ^ 31 ≤ pagesCount) (hhi : pagesCount < 2 ^ 31) :
    s.pmmAllocPages pagesCount = (0, s) ∨
    ∃ k n : ℕ, pagesCount = n ∧ 0 < n ∧ n ≤ s.totalPages ∧ k ≤ s.totalPages ∧ k < 2 ^ 31 ∧
      (∀ j < n, s.used (k + j) = false) ∧
      s.pmmAllocPages pagesCount =
        (signExtend32 (k * 4096), { s with bitmap := setRange s.bitmap k n }) := by
  rw [pmmAllocPages]
  split_ifs with h0 hbig
  · exact Or.inl rfl
  · exact Or.inl rfl
  · have hn : ((intToU64 pagesCount : ℕ) : ℤ) = pagesCount := by
      simp only [intToU64] at hbig ⊢
      omega
    have hpos : 0 < intToU64 pagesCount := by omega
    rcases s.pmmAllocPagesFrom_spec (intToU64 pagesCount) (s.totalPages + 1) 0 with hr | ⟨k, hk, hk', hfree, hr⟩
    · exact Or.inl hr
    · exact Or.inr ⟨k, intToU64 pagesCount, hn.symm, hpos, by omega, hk, hk', hfree, hr⟩

/-- A free run is found once every frame before it is in use. -/
theorem pmmAllocPages_finds (s : Pmm) {k n : ℕ} (hn : 0 < n) (hnT : n ≤ s.totalPages) (hn' : n < 2 ^ 31)
    (hk : k ≤ s.totalPages) (hk' : k < 2 ^ 31) (hlow : ∀ l < k, s.used l = true)
    (hfree : ∀ j < n, s.used (k + j) = false) :
    (s.pmmAllocPages n).1 = signExtend32 (k * 4096) := by
  have hconv : intToU64 (n : ℤ) = n := by
    simp only [intToU64]
    omega
  have hscan : ∀ t i, i ≤ k → k < i + t →
      (s.pmmAllocPagesFrom n t i).1 = signExtend32 (k * 4096) := by
    intro t
    induction t with
    | zero => intro i h1 h2; omega
    | succ t ih =>
      intro i hik hkt
      rw [pmmAllocPagesFrom, if_pos ⟨by omega, by omega⟩]
      rcases Nat.eq_or_lt_of_le hik with rfl | hlt
      · have hu : s.used i = false := by simpa using hfree 0 hn
        have hnone : s.firstUsed i n n 1 = none :=
          (firstUsed_eq_none s i n n 1 (by omega)).mpr fun l _ hl => hfree l hl
        rw [if_neg (by simp [hu]), hnone]
      · rw [if_pos (hlow i hlt)]
        exact ih (i + 1) hlt (by omega)
  rw [pmmAllocPages, if_neg (by omega), hconv, if_neg (by omega)]
  exact hscan (s.totalPages + 1) 0 (Nat.zero_le k) (by omega)

end Pmm

/-! ## Runs -/

/-- Runs from `s₀`; the list holds the addresses returned and not freed since. -/
inductive PmmRun (s₀ : Pmm) : Pmm → List ℕ → Prop
  | init : PmmRun s₀ s₀ []
  | alloc {s : Pmm} {live : List ℕ} (run : PmmRun s₀ s live) :
      PmmRun s₀ s.pmmAllocPage.2 (if s.pmmAllocPage.1 = 0 then live else s.pmmAllocPage.1 :: live)
  | free {s : Pmm} {live : List ℕ} {p : ℕ} (run : PmmRun s₀ s live) (hp : p ∈ live) :
      PmmRun s₀ (s.pmmFreePage p) (live.erase p)

/-- The live frames are distinct, were free at the start, and are all that the
bitmap has gained. -/
structure FrameOwnership (s₀ s : Pmm) (live : List ℕ) : Prop where
  totalPages : s.totalPages = s₀.totalPages
  nodup : live.Nodup
  frame : ∀ p ∈ live, ∃ k < s₀.totalPages, p = k * 4096 ∧ s₀.used k = false
  bits : ∀ b, s.used b = (s₀.used b || decide (b * 4096 ∈ live))

namespace FrameOwnership

variable {s₀ s : Pmm} {live : List ℕ}

theorem alloc (h0 : s₀.used 0 = true) (hT : s₀.totalPages < 2 ^ 52) (own : FrameOwnership s₀ s live) :
    FrameOwnership s₀ s.pmmAllocPage.2
      (if s.pmmAllocPage.1 = 0 then live else s.pmmAllocPage.1 :: live) := by
  rcases s.pmmAllocPage_spec with ⟨hr, _⟩ | ⟨k, hk, hfree, _, hr⟩
  · rw [hr, if_pos rfl]
    exact own
  · have hbit := own.bits k
    rw [hfree] at hbit
    obtain ⟨hk0, hkl⟩ : s₀.used k = false ∧ k * 4096 ∉ live := by
      simpa using hbit.symm
    rw [own.totalPages] at hk
    have hne : k ≠ 0 := by
      rintro rfl
      rw [h0] at hk0
      cases hk0
    rw [hr, Nat.mod_eq_of_lt (show k * 4096 < 2 ^ 64 by omega), if_neg (show k * 4096 ≠ 0 by omega)]
    refine ⟨own.totalPages, List.nodup_cons.mpr ⟨hkl, own.nodup⟩, ?_, fun b => ?_⟩
    · rintro p (_ | ⟨_, hp⟩)
      · exact ⟨k, hk, rfl, hk0⟩
      · exact own.frame p hp
    · have hb : b * 4096 = k * 4096 ↔ b = k := by omega
      have hold := own.bits b
      simp only [Pmm.used] at hold ⊢
      rw [testBit_setBit, hold]
      simp only [List.mem_cons, hb, Bool.decide_or]
      exact Bool.or_left_comm _ _ _

theorem free {p : ℕ} (own : FrameOwnership s₀ s live) (hp : p ∈ live) :
    FrameOwnership s₀ (s.pmmFreePage p) (live.erase p) := by
  obtain ⟨k, hk, rfl, hk0⟩ := own.frame p hp
  have hused : s.used k = true := by
    rw [own.bits k]
    simp [hp]
  have hfree : s.pmmFreePage (k * 4096) = { s with bitmap := clrBit s.bitmap k } := by
    simp only [Pmm.pmmFreePage, Nat.mul_div_cancel k (show 0 < 4096 by omega)]
    rw [if_neg (by rw [own.totalPages]; omega), if_neg (by simp [hused])]
  rw [hfree]
  refine ⟨own.totalPages, own.nodup.erase _, fun q hq => own.frame q (List.mem_of_mem_erase hq),
    fun b => ?_⟩
  have hb : b * 4096 = k * 4096 ↔ b = k := by omega
  have hold := own.bits b
  simp only [Pmm.used] at hold ⊢
  rw [testBit_clrBit, hold]
  simp only [own.nodup.mem_erase_iff, ne_eq, hb]
  by_cases hbk : b = k
  · subst hbk
    simpa [Pmm.used] using hk0
  · simp [hbk]

end FrameOwnership

theorem PmmRun.ownership {s₀ s : Pmm} {live : List ℕ} (h0 : s₀.used 0 = true)
    (hT : s₀.totalPages < 2 ^ 52) (run : PmmRun s₀ s live) : FrameOwnership s₀ s live := by
  induction run with
  | init => exact ⟨rfl, List.nodup_nil, by simp, fun b => by simp⟩
  | alloc _ ih => exact ih.alloc h0 hT
  | free _ hp ih => exact ih.free hp

/-- Frame 0 stands for failure and is never free, so a zero result means that no
frame is. -/
theorem frame_ownership {s₀ s : Pmm} {live : List ℕ} (h0 : s₀.used 0 = true)
    (hT : s₀.totalPages < 2 ^ 52) (run : PmmRun s₀ s live) :
    FrameOwnership s₀ s live ∧
      (s.pmmAllocPage.1 = 0 ↔ ∀ k < s.totalPages, s.used k = true) ∧
      (live = [] → s.bitmap = s₀.bitmap) := by
  have own := run.ownership h0 hT
  refine ⟨own, ?_, ?_⟩
  · rcases s.pmmAllocPage_spec with ⟨hr, hall⟩ | ⟨k, hk, hfree, _, hr⟩
    · exact ⟨fun _ => hall, fun _ => by rw [hr]⟩
    · have hk0 : s.used 0 = true := by rw [own.bits 0, h0, Bool.true_or]
      have hne : k ≠ 0 := by
        rintro rfl
        rw [hk0] at hfree
        cases hfree
      have hlt := own.totalPages ▸ hk
      rw [hr, Nat.mod_eq_of_lt (show k * 4096 < 2 ^ 64 by omega)]
      constructor
      · intro hz
        omega
      · intro hall
        rw [hall k hk] at hfree
        cases hfree
  · rintro rfl
    refine ext fun b => ?_
    simpa [Pmm.used] using own.bits b

/-- Frame 0 in use, frames 1 to 9 free. -/
def tenFrames : Pmm := ⟨fun i => if i = 0 then 1 else 0, 10⟩

theorem frame_ownership_alloc_free :
    FrameOwnership tenFrames (tenFrames.pmmAllocPage.2.pmmAllocPage.2.pmmFreePage 4096) [8192] := by
  have run : PmmRun tenFrames tenFrames.pmmAllocPage.2.pmmAllocPage.2 [8192, 4096] :=
    PmmRun.alloc (PmmRun.alloc PmmRun.init)
  exact (frame_ownership (by decide) (by decide) (PmmRun.free run (p := 4096) (by decide))).1

end PointerOS
