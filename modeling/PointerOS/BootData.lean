import PointerOS.InitPmm

/-!
# The boot data after `init_PMM`

The boot block and the modules are read after the allocators are in use, but
`init_PMM` reserves nothing beyond the kernel image and the bitmap. Whether the
allocators hand out a frame of the boot data is decided by the memory map alone:
every free frame is handed out by some sequence of calls.
-/
namespace PointerOS
open ByteMemory Bitmap

/-- The states reached from `s₀` by allocations. -/
inductive AllocRun (s₀ : Pmm) : Pmm → Prop
  | init : AllocRun s₀ s₀
  | page {s : Pmm} (run : AllocRun s₀ s) : AllocRun s₀ s.pmmAllocPage.2
  | pages {s : Pmm} {pagesCount : ℤ} (run : AllocRun s₀ s) (hlo : -2 ^ 31 ≤ pagesCount)
      (hhi : pagesCount < 2 ^ 31) : AllocRun s₀ (s.pmmAllocPages pagesCount).2

/-- No sequence of allocations from `s₀` returns a page that meets `D`. -/
def NeverReturns (s₀ : Pmm) (D : Set ℕ) : Prop :=
  ∀ s, AllocRun s₀ s →
    (s.pmmAllocPage.1 ≠ 0 → Disjoint (bytes s.pmmAllocPage.1 4096) D) ∧
    ∀ pagesCount : ℤ, -2 ^ 31 ≤ pagesCount → pagesCount < 2 ^ 31 → (s.pmmAllocPages pagesCount).1 ≠ 0 →
      Disjoint (bytes (s.pmmAllocPages pagesCount).1 (pagesCount.toNat * 4096)) D

/-- No free frame meets `D`, nor does a run of free frames at the address that the
`int` product of `pmm_alloc_pages` gives it. -/
def FreeFramesAvoid (b : BootState) (totalPages : ℕ) (D : Set ℕ) : Prop :=
  (∀ f, 0 < f → f < totalPages → FreeFrame b totalPages f → Disjoint (bytes (f * 4096) 4096) D) ∧
  ∀ f n, 0 < n → n ≤ totalPages → n < 2 ^ 31 → f ≤ totalPages → f < 2 ^ 31 →
    (∀ j < n, FreeFrame b totalPages (f + j)) → signExtend32 (f * 4096) ≠ 0 →
    Disjoint (bytes (signExtend32 (f * 4096)) (n * 4096)) D

/-- Allocations only take frames. -/
theorem AllocRun.free {s₀ s : Pmm} (hT : s₀.totalPages < 2 ^ 52) (run : AllocRun s₀ s) :
    s.totalPages = s₀.totalPages ∧ ∀ f, s.used f = false → s₀.used f = false := by
  induction run with
  | init => exact ⟨rfl, fun _ hf => hf⟩
  | @page s _ ih =>
    rcases s.pmmAllocPage_spec with ⟨hr, _⟩ | ⟨k, _, _, _, hr⟩
    · rw [hr]
      exact ih
    · rw [hr]
      refine ⟨ih.1, fun f hf => ih.2 f ?_⟩
      simp only [Pmm.used, testBit_setBit, Bool.or_eq_false_iff] at hf ⊢
      exact hf.2
  | @pages s count _ hlo hhi ih =>
    rcases s.pmmAllocPages_spec (ih.1 ▸ hT) hlo hhi with hr | ⟨k, n, _, _, _, _, _, _, hr⟩
    · rw [hr]
      exact ih
    · rw [hr]
      refine ⟨ih.1, fun f hf => ih.2 f ?_⟩
      simp only [Pmm.used, Pmm.testBit_setRange, Bool.or_eq_false_iff] at hf ⊢
      exact hf.2

/-- Taking pages one by one uses up exactly the frames below a given one. -/
theorem AllocRun.fill_below (s₀ : Pmm) (f : ℕ) (hf : f ≤ s₀.totalPages) :
    ∃ s, AllocRun s₀ s ∧ s.totalPages = s₀.totalPages ∧ (∀ l < f, s.used l = true) ∧
      ∀ l, f ≤ l → s.used l = s₀.used l := by
  induction f with
  | zero => exact ⟨s₀, AllocRun.init, rfl, by intro l hl; omega, fun _ _ => rfl⟩
  | succ f ih =>
    obtain ⟨s, run, hT, hlow, hhigh⟩ := ih (by omega)
    have hstep : ∀ l < f + 1, l < f ∨ l = f := by omega
    by_cases hu : s.used f = true
    · refine ⟨s, run, hT, fun l hl => ?_, fun l hl => hhigh l (by omega)⟩
      rcases hstep l hl with hl | rfl
      · exact hlow l hl
      · exact hu
    · have hu' : s.used f = false := by simpa using hu
      rcases s.pmmAllocPage_spec with ⟨_, hall⟩ | ⟨k, _, hk, hlowk, hr⟩
      · rw [hall f (by omega)] at hu'
        cases hu'
      · obtain rfl : k = f := by
          rcases lt_trichotomy k f with hlt | heq | hlt
          · rw [hlow k hlt] at hk
            cases hk
          · exact heq
          · rw [hlowk f hlt] at hu'
            cases hu'
        refine ⟨s.pmmAllocPage.2, run.page, by rw [hr]; exact hT, fun l hl => ?_, fun l hl => ?_⟩
        · rw [hr]
          change testBit (setBit s.bitmap k) l = true
          rw [s.used_setBit]
          rcases hstep l hl with hl | rfl
          · rw [hlow l hl, Bool.or_true]
          · simp
        · rw [hr]
          change testBit (setBit s.bitmap k) l = _
          rw [s.used_setBit, hhigh l (by omega)]
          simp [show l ≠ k by omega]

theorem neverReturns_iff {b : BootState} {s₀ : Pmm} (hT : s₀.totalPages < 2 ^ 52)
    (hfree : ∀ f, s₀.used f = false ↔ FreeFrame b s₀.totalPages f) (D : Set ℕ) :
    NeverReturns s₀ D ↔ FreeFramesAvoid b s₀.totalPages D := by
  constructor
  · intro hnever
    refine ⟨fun f h0 hf hff => ?_, fun f n h0 hn hn' hf hf' hff hne => ?_⟩
    · obtain ⟨s, run, hTs, hlow, hhigh⟩ := AllocRun.fill_below s₀ f hf.le
      have hu : s.used f = false := by rw [hhigh f le_rfl, hfree]; exact hff
      have hret : s.pmmAllocPage.1 = f * 4096 := by
        rcases s.pmmAllocPage_spec with ⟨_, hall⟩ | ⟨k, _, hk, hlowk, hr⟩
        · rw [hall f (by omega)] at hu
          cases hu
        · obtain rfl : k = f := by
            rcases lt_trichotomy k f with hlt | heq | hlt
            · rw [hlow k hlt] at hk
              cases hk
            · exact heq
            · rw [hlowk f hlt] at hu
              cases hu
          rw [hr]
          exact Nat.mod_eq_of_lt (by omega)
      have hd := (hnever s run).1
      rw [hret] at hd
      exact hd (by omega)
    · obtain ⟨s, run, hTs, hlow, hhigh⟩ := AllocRun.fill_below s₀ f hf
      have hret := s.pmmAllocPages_finds h0 (by omega) hn' (by omega) hf' hlow (fun j hj => by
        rw [hhigh (f + j) (by omega), hfree]
        exact hff j hj)
      have hd := (hnever s run).2 n (by omega) (by omega)
      rw [hret, Int.toNat_natCast] at hd
      exact hd hne
  · rintro ⟨hpage, hpages⟩ s run
    obtain ⟨hTs, hmono⟩ := run.free hT
    refine ⟨fun hne => ?_, fun count hlo hhi hne => ?_⟩
    · rcases s.pmmAllocPage_spec with ⟨hr, _⟩ | ⟨k, hk, hu, _, hr⟩
      · rw [hr] at hne
        exact absurd rfl hne
      · rw [hr, Nat.mod_eq_of_lt (show k * 4096 < 2 ^ 64 by omega)] at hne ⊢
        exact hpage k (by omega) (by omega) ((hfree k).mp (hmono k hu))
    · rcases s.pmmAllocPages_spec (hTs ▸ hT) hlo hhi with hr | ⟨k, n, rfl, h0, hn, hk, hk', hu, hr⟩
      · rw [hr] at hne
        exact absurd rfl hne
      · rw [hr] at hne ⊢
        rw [Int.toNat_natCast]
        exact hpages k n h0 (by omega) (by omega) (by omega) hk'
          (fun j hj => (hfree _).mp (hmono _ (hu j hj))) hne

lemma MmapEntry.stop_lt (e : MmapEntry) : e.stop < 2 ^ 64 := Nat.mod_lt _ (by norm_num)

/-- The boot data stay out of the allocators' hands exactly when the memory map
offers no frame of them outside the kernel image and the bitmap. -/
theorem boot_data_reserved_iff {b : BootState} {s : Pmm} (h : initPMM b = some s) :
    NeverReturns s b.info.data ↔
      ∀ top, HighestEnd b top → FreeFramesAvoid b (top / 4096) b.info.data := by
  obtain ⟨top, htop, hT, hfree⟩ := initPMM_spec h
  have hlt : top < 2 ^ 64 := by
    rcases htop.2 with rfl | ⟨e, _, _, rfl⟩
    · norm_num
    · exact e.stop_lt
  have huniq : ∀ top', HighestEnd b top' → top' = top := by
    intro top' h'
    refine le_antisymm ?_ ?_
    · rcases h'.2 with rfl | ⟨e, he, hav, rfl⟩
      · exact Nat.zero_le _
      · exact htop.1 e he hav
    · rcases htop.2 with rfl | ⟨e, he, hav, rfl⟩
      · exact Nat.zero_le _
      · exact h'.1 e he hav
  rw [← hT] at hfree
  rw [neverReturns_iff (by omega) hfree b.info.data, hT]
  constructor
  · intro hav top' h'
    rw [huniq top' h']
    exact hav
  · exact fun hall => hall top htop

/-- A block at `0x9000` with the memory map `[0, 0x9FC00)`, `[1 MB, 1 MB + 128 KB)` and
a module in frame `0x102`, two frames behind the start of the kernel. -/
def ramdiskBoot : BootState where
  info :=
    let tag := kernelOffset + 0x9008
    let m : Memory := store32 (fun _ => 0) (kernelOffset + 0x9000) 104
    let m := store32 (store32 (store32 m tag 6) (tag + 4) 64) (tag + 8) 24
    let m := store32 (store64 (store64 m (tag + 16) 0) (tag + 24) 0x9FC00) (tag + 32) 1
    let m := store32 (store64 (store64 m (tag + 40) 0x100000) (tag + 48) 0x20000) (tag + 56) 1
    let m := store32 (store32 m (tag + 64) 3) (tag + 68) 24
    let m := store32 (store32 m (tag + 72) 0x102000) (tag + 76) 0x103000
    ⟨m, 0x9000⟩
  kernelStart := kernelOffset + 0x100000
  kernelEnd := kernelOffset + 0x101000
  behindKernel := fun _ => 0

lemma ramdiskBoot_first_page :
    (initPMM ramdiskBoot).map (fun s => s.pmmAllocPage.1) = some 0x102000 := by decide +kernel

lemma ramdiskBoot_module : 0x102000 ∈ ramdiskBoot.info.data := by
  have hend : tagType ramdiskBoot.info.mem (nextTag ramdiskBoot.info.mem
      (nextTag ramdiskBoot.info.mem ramdiskBoot.info.firstTag)) = multibootTagTypeEnd := by decide +kernel
  refine Or.inr ⟨kernelOffset + 0x9008 + 64, ⟨[kernelOffset + 0x9008, kernelOffset + 0x9008 + 64],
    ⟨?_, ?_, ?_, ?_, hend⟩, by simp⟩, ?_⟩
  all_goals decide +kernel

/-- The first page handed out is the module. -/
theorem boot_module_handed_out :
    ∃ s, initPMM ramdiskBoot = some s ∧ ¬ NeverReturns s ramdiskBoot.info.data := by
  obtain ⟨s, hs, hp⟩ := Option.map_eq_some_iff.mp ramdiskBoot_first_page
  refine ⟨s, hs, fun hnever => ?_⟩
  have hd := (hnever s AllocRun.init).1
  rw [hp] at hd
  exact Set.disjoint_left.mp (hd (by norm_num)) (by norm_num [bytes]) ramdiskBoot_module

theorem boot_data_reserved_iff_ramdisk :
    ¬ ∀ top, HighestEnd ramdiskBoot top → FreeFramesAvoid ramdiskBoot (top / 4096) ramdiskBoot.info.data := by
  obtain ⟨s, hs, hp⟩ := Option.map_eq_some_iff.mp ramdiskBoot_first_page
  intro hall
  have hd := ((boot_data_reserved_iff hs).mpr hall s AllocRun.init).1
  rw [hp] at hd
  exact Set.disjoint_left.mp (hd (by norm_num)) (by norm_num [bytes]) ramdiskBoot_module

end PointerOS
