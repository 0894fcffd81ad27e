import PointerOS.Pmm

/-!
# Runs of frames

What the scan of `pmm_alloc_pages` finds: the first run of clear bits of the given length that starts
no later than `total_pages`. The bits behind the bitmap are scanned as well, and the address of the
run is computed in `int`.
-/
namespace PointerOS
open Bitmap

namespace Pmm
variable {s : Pmm} {i count n f k : ℕ}

/-- The frames from `f` on are free. -/
def Clear (s : Pmm) (f count : ℕ) : Prop := ∀ j < count, s.used (f + j) = false

/-- The first run among those that the scan gets to. -/
structure FirstRun (s : Pmm) (f count : ℕ) : Prop where
  reached : f ≤ s.totalPages ∧ f < 2 ^ 31
  clear : s.Clear f count
  first : ∀ g < f, ¬s.Clear g count

theorem firstUsed_some {j l : ℕ} (h : s.firstUsed i count n j = some l) :
    j ≤ l ∧ l < count ∧ s.used (i + l) = true := by
  induction n generalizing j with
  | zero => exact nomatch h
  | succ n ih =>
    rw [firstUsed] at h
    split_ifs at h with hj hu
    · obtain rfl := Option.some.inj h
      exact ⟨le_rfl, hj, hu⟩
    · obtain ⟨h1, h2, h3⟩ := ih h
      exact ⟨by omega, h2, h3⟩

/-- A used frame is in every run that starts behind `i` and has not ended before. -/
theorem not_clear_of_used {l : ℕ} (hu : s.used l = true) (hf : f ≤ l) (hl : l < f + count) : ¬s.Clear f count := by
  intro hc
  have hfree := hc (l - f) (by omega)
  rw [show f + (l - f) = l by omega, hu] at hfree
  exact nomatch hfree

/-- The scan takes the first run from `i` on. -/
theorem pmmAllocPagesFrom_first (hcount : 0 < count) (hn : s.totalPages + 1 ≤ n + i) :
    (s.pmmAllocPagesFrom count n i = (0, s) ∧
      ∀ f, i ≤ f → f ≤ s.totalPages → f < 2 ^ 31 → ¬s.Clear f count) ∨
    ∃ f, i ≤ f ∧ f ≤ s.totalPages ∧ f < 2 ^ 31 ∧ s.Clear f count ∧ (∀ g, i ≤ g → g < f → ¬s.Clear g count) ∧
      s.pmmAllocPagesFrom count n i = (signExtend32 (f * 4096), { s with bitmap := setRange s.bitmap f count }) := by
  induction n generalizing i with
  | zero => exact .inl ⟨rfl, fun f hif hf => by omega⟩
  | succ n ih =>
    rw [pmmAllocPagesFrom]
    by_cases hi : i ≤ s.totalPages ∧ i < 2 ^ 31
    · rw [if_pos hi]
      -- no run starts before `m`, where the scan goes on
      have hskip : ∀ m, i < m → (∀ g, i ≤ g → g < m → ¬s.Clear g count) →
          (s.pmmAllocPagesFrom count n m = (0, s) ∧
            ∀ f, i ≤ f → f ≤ s.totalPages → f < 2 ^ 31 → ¬s.Clear f count) ∨
          ∃ f, i ≤ f ∧ f ≤ s.totalPages ∧ f < 2 ^ 31 ∧ s.Clear f count ∧ (∀ g, i ≤ g → g < f → ¬s.Clear g count) ∧
            s.pmmAllocPagesFrom count n m = (signExtend32 (f * 4096), { s with bitmap := setRange s.bitmap f count }) := by
        intro m him hnone
        rcases ih (i := m) (by omega) with ⟨hr, hall⟩ | ⟨f, h1, h2, h3, h4, h5, hr⟩
        · refine .inl ⟨hr, fun f hif hf hf' => ?_⟩
          by_cases hfm : f < m
          · exact hnone f hif hfm
          · exact hall f (by omega) hf hf'
        · refine .inr ⟨f, by omega, h2, h3, h4, fun g hig hgf => ?_, hr⟩
          by_cases hgm : g < m
          · exact hnone g hig hgm
          · exact h5 g (by omega) hgf
      by_cases hu : s.used i = true
      · rw [if_pos hu]
        refine hskip (i + 1) (by omega) fun g hig hg => ?_
        exact not_clear_of_used hu (by omega) (by omega)
      · rw [if_neg hu]
        cases hfirst : s.firstUsed i count count 1 with
        | some j =>
          obtain ⟨h1, h2, h3⟩ := firstUsed_some hfirst
          refine hskip (i + j + 1) (by omega) fun g hig hg => ?_
          exact not_clear_of_used h3 (by omega) (by omega)
        | none =>
          have hfree := (firstUsed_eq_none s i count count 1 (by omega)).mp hfirst
          refine .inr ⟨i, le_rfl, hi.1, hi.2, fun j hj => ?_, fun g hig hgi => by omega, rfl⟩
          rcases Nat.eq_zero_or_pos j with rfl | hpos
          · simpa using hu
          · exact hfree j hpos hj
    · rw [if_neg hi]
      exact .inl ⟨rfl, fun f hif hf hf' => absurd ⟨by omega, by omega⟩ hi⟩

theorem pmmAllocPages_first {count : ℤ} (h0 : count ≠ 0) (hle : intToU64 count ≤ s.totalPages)
    (hpos : 0 < intToU64 count) :
    (s.pmmAllocPages count = (0, s) ∧ ∀ f, ¬s.FirstRun f (intToU64 count)) ∨
    ∃ f, s.FirstRun f (intToU64 count) ∧
      s.pmmAllocPages count = (signExtend32 (f * 4096), { s with bitmap := setRange s.bitmap f (intToU64 count) }) := by
  rw [pmmAllocPages, if_neg h0, if_neg (not_lt.mpr hle)]
  rcases pmmAllocPagesFrom_first (s := s) hpos (n := s.totalPages + 1) (i := 0) (by omega) with
    ⟨hr, hall⟩ | ⟨f, -, h2, h3, h4, h5, hr⟩
  · exact .inl ⟨hr, fun f hf => hall f (Nat.zero_le f) hf.reached.1 hf.reached.2 hf.clear⟩
  · exact .inr ⟨f, ⟨⟨h2, h3⟩, h4, fun g hg => h5 g (Nat.zero_le g) hg⟩, hr⟩

theorem used_setRange (s : Pmm) (f count b : ℕ) :
    Pmm.used { s with bitmap := setRange s.bitmap f count } b = (decide (f ≤ b ∧ b < f + count) || s.used b) :=
  testBit_setRange ..

/-! ## Soundness -/

/-- Nothing happened and the result is 0, or the result is the address of a run below `total_pages`
that was free and is now in use, and nothing else has changed. -/
def AllocSound (s : Pmm) (count : ℤ) : Prop :=
  ((s.pmmAllocPages count).1 = 0 ∧ ∀ b, (s.pmmAllocPages count).2.used b = s.used b) ∨
    ∃ f, (s.pmmAllocPages count).1 = f * 4096 ∧ f + intToU64 count ≤ s.totalPages ∧ s.Clear f (intToU64 count) ∧
      ∀ b, (s.pmmAllocPages count).2.used b = (decide (f ≤ b ∧ b < f + intToU64 count) || s.used b)

/-- The first run ends below `total_pages`, and its address fits into an `int`. -/
def FirstRunFits (s : Pmm) (count : ℤ) : Prop :=
  intToU64 count = 0 ∨ s.totalPages < intToU64 count ∨
    ∀ f, s.FirstRun f (intToU64 count) → f + intToU64 count ≤ s.totalPages ∧ f < 2 ^ 19

/-- Two runs of the same length that make the same bits are the same run. -/
theorem run_eq {g : ℕ} (hcount : 0 < count) (hf : s.Clear f count) (hg : s.Clear g count)
    (h : ∀ b, (decide (f ≤ b ∧ b < f + count) || s.used b) = (decide (g ≤ b ∧ b < g + count) || s.used b)) : f = g := by
  have hfirst : g ≤ f ∧ f < g + count := by
    have hb := h f
    rw [show s.used f = false by simpa using hf 0 hcount] at hb
    simpa [hcount] using hb
  have hfirst' : f ≤ g ∧ g < f + count := by
    have hb := h g
    rw [show s.used g = false by simpa using hg 0 hcount] at hb
    simpa [hcount] using hb
  omega

theorem signExtend32_page (hf : f < 2 ^ 31) : signExtend32 (f * 4096) = f * 4096 ↔ f < 2 ^ 19 := by
  unfold signExtend32
  split_ifs <;> omega

/-- A call is sound exactly when the first run fits. -/
theorem pmm_alloc_pages_sound_iff (s : Pmm) {count : ℤ} (hlo : -2 ^ 31 ≤ count) (hhi : count < 2 ^ 31) :
    s.AllocSound count ↔ s.FirstRunFits count := by
  by_cases hc : count = 0
  · refine iff_of_true (.inl ?_) (.inl (by rw [hc]; rfl))
    rw [pmmAllocPages, if_pos hc]
    exact ⟨rfl, fun _ => rfl⟩
  have h0 : intToU64 count ≠ 0 := by
    unfold intToU64
    omega
  by_cases ht : s.totalPages < intToU64 count
  · refine iff_of_true (.inl ?_) (.inr (.inl ht))
    rw [pmmAllocPages, if_neg hc, if_pos ht]
    exact ⟨rfl, fun _ => rfl⟩
  have hpos : 0 < intToU64 count := Nat.pos_of_ne_zero h0
  unfold AllocSound FirstRunFits
  rcases pmmAllocPages_first hc (not_lt.mp ht) hpos with ⟨hr, hnone⟩ | ⟨f, hf, hr⟩
  · rw [hr]
    exact iff_of_true (.inl ⟨rfl, fun _ => rfl⟩) (.inr (.inr fun f hf => absurd hf (hnone f)))
  · rw [hr]
    simp only [used_setRange]
    constructor
    · rintro (⟨-, hsame⟩ | ⟨g, hresult, hend, hclear, hbits⟩)
      · have hb := hsame f
        rw [show s.used f = false by simpa using hf.clear 0 hpos] at hb
        simp [hpos] at hb
      · obtain rfl := run_eq hpos hf.clear hclear hbits
        refine .inr (.inr fun f' hf' => ?_)
        have heq : f' = f := by
          by_contra hne
          rcases lt_or_gt_of_ne hne with hlt | hgt
          · exact hf.first f' hlt hf'.clear
          · exact hf'.first f hgt hf.clear
        rw [heq]
        exact ⟨hend, (signExtend32_page hf.reached.2).mp hresult⟩
    · rintro (h | h | h)
      · exact absurd h h0
      · exact absurd h ht
      · obtain ⟨hend, hlow⟩ := h f hf
        exact .inr ⟨f, (signExtend32_page hf.reached.2).mpr hlow, hend, hf.clear, fun _ => rfl⟩

theorem pmm_alloc_pages_sound_iff_ten : tenFrames.AllocSound 2 := by
  refine (pmm_alloc_pages_sound_iff tenFrames (by decide) (by decide)).mpr (.inr (.inr fun f hf => ?_))
  have h1 : tenFrames.Clear 1 2 := by
    unfold Clear
    decide
  have hle : f ≤ 1 := not_lt.mp fun hlt => hf.first 1 hlt h1
  exact ⟨by simp only [tenFrames, intToU64]; omega, by omega⟩

/-- With every frame in use, a clear bit behind the bitmap is handed out. -/
theorem pmm_alloc_pages_unsound : ¬AllocSound ⟨fun _ => 1, 1⟩ 1 := by
  have hrun : (pmmAllocPages ⟨fun _ => 1, 1⟩ 1).1 = 4096 := by decide
  rintro (⟨hzero, -⟩ | ⟨f, hresult, hend, -⟩)
  · exact absurd (hrun.symm.trans hzero) (by decide)
  · have hone : f + 1 ≤ 1 := hend
    omega

/-! ## The lowest run -/

/-- A run below `total_pages` is found, and the lowest one is marked. -/
theorem pmm_alloc_pages_lowest (s : Pmm) {count : ℕ} (htotal : s.totalPages < 2 ^ 31) (hpos : 1 ≤ count)
    (hle : count ≤ s.totalPages) (hrun : ∃ f, f + count ≤ s.totalPages ∧ s.Clear f count) :
    ∃ f, f + count ≤ s.totalPages ∧ s.Clear f count ∧ (∀ g, g + count ≤ s.totalPages → s.Clear g count → f ≤ g) ∧
      ∀ b, (s.pmmAllocPages count).2.used b = (decide (f ≤ b ∧ b < f + count) || s.used b) := by
  have hconv : intToU64 (count : ℤ) = count := by
    unfold intToU64
    omega
  have hreach : ∀ f, f + count ≤ s.totalPages → s.Clear f count → ∃ g ≤ f, s.FirstRun g count := by
    intro f hend hclear
    classical
    obtain ⟨g, hg, hmin⟩ := Nat.findX (p := fun g => s.Clear g count) ⟨f, hclear⟩
    have hgf : g ≤ f := not_lt.mp fun hlt => hmin f hlt hclear
    exact ⟨g, hgf, ⟨by omega, by omega⟩, hg, hmin⟩
  rcases @pmmAllocPages_first s count (by omega) (by omega) (by omega) with ⟨-, hnone⟩ | ⟨f, hf, hr⟩
  · obtain ⟨f, hend, hclear⟩ := hrun
    obtain ⟨g, -, hg⟩ := hreach f hend hclear
    rw [hconv] at hnone
    exact absurd hg (hnone g)
  · rw [hconv] at hf hr
    have hlow : ∀ g, g + count ≤ s.totalPages → s.Clear g count → f ≤ g := fun g _ hg =>
      not_lt.mp fun hlt => hf.first g hlt hg
    obtain ⟨g, hend, hclear⟩ := hrun
    have hfg := hlow g hend hclear
    refine ⟨f, by omega, hf.clear, hlow, fun b => ?_⟩
    rw [hr]
    exact used_setRange ..

theorem pmm_alloc_pages_lowest_ten : ∃ f, f + 2 ≤ 10 ∧ tenFrames.Clear f 2 ∧
    (∀ g, g + 2 ≤ 10 → tenFrames.Clear g 2 → f ≤ g) ∧
      ∀ b, (tenFrames.pmmAllocPages (2 : ℕ)).2.used b = (decide (f ≤ b ∧ b < f + 2) || tenFrames.used b) :=
  pmm_alloc_pages_lowest tenFrames (by decide) (by decide) (by decide) ⟨1, by decide, by unfold Clear; decide⟩

end Pmm
end PointerOS
