import PointerOS.DirectMap

/-!
# When the direct map is made

`pmm_alloc_page` hands out the free frames in their order. So the tables that `init_VMM` makes lie in the
first free frames, and the direct map is made when as many of these lie in the first 128 MB as tables are
needed, and the boot block and the bitmap lie there too.
-/
namespace PointerOS
open ByteMemory Tables

/-! ## The frames in the order of the allocator -/

section Order
variable {s : Pmm} {N n : ℕ}

/-- The number of free frames below the frame `f`. -/
def Pmm.freeBelow (s : Pmm) (f : ℕ) : ℕ := Nat.count (fun f => s.used f = false) f

theorem Pmm.freeBelow_injective {f g : ℕ} (hf : s.used f = false) (hg : s.used g = false)
    (h : s.freeBelow f = s.freeBelow g) : f = g :=
  Nat.count_injective (p := fun f => s.used f = false) hf hg h

theorem Pmm.freeBelow_lt {f g : ℕ} (hf : s.used f = false) (h : f < g) : s.freeBelow f < s.freeBelow g :=
  Nat.count_strict_mono (p := fun f => s.used f = false) hf h

theorem Pmm.freeBelow_mono {f g : ℕ} (h : f ≤ g) : s.freeBelow f ≤ s.freeBelow g :=
  Nat.count_monotone (fun f => s.used f = false) h

/-- Below a frame with more than `n` free ones below, one has `n` free ones below. -/
theorem Pmm.exists_freeBelow {g : ℕ} (h : n < s.freeBelow g) : ∃ f < g, s.used f = false ∧ s.freeBelow f = n := by
  have hcard : ∀ hf : (Set.ofPred fun f => s.used f = false).Finite, n < hf.toFinset.card :=
    fun hf => h.trans_le (Nat.count_le_card hf g)
  exact ⟨_, Nat.nth_lt_of_lt_count h, Nat.nth_mem n hcard, Nat.count_nth hcard⟩

/-- The frames free after `n` calls are those with `n` free ones below or more, and a call takes the one with
exactly `n`. -/
theorem stateAfter_order (htotal : s.totalPages ≤ 2 ^ 40) (hnz : ∀ m < n, frameAt Pmm.pmmAllocPage s m ≠ 0) :
    (stateAfter Pmm.pmmAllocPage s n).totalPages = s.totalPages ∧
    (∀ f, (stateAfter Pmm.pmmAllocPage s n).used f = false ↔ s.used f = false ∧ n ≤ s.freeBelow f) ∧
    ∀ m < n, ∃ k < s.totalPages, frameAt Pmm.pmmAllocPage s m = k * 4096 ∧ s.used k = false ∧ s.freeBelow k = m := by
  induction n with
  | zero => exact ⟨rfl, fun f => ⟨fun h => ⟨h, Nat.zero_le _⟩, fun h => h.1⟩, fun m hm => absurd hm (Nat.not_lt_zero m)⟩
  | succ n ih =>
    obtain ⟨hT, hused, hall⟩ := ih fun m hm => hnz m (hm.trans n.lt_succ_self)
    rcases (stateAfter Pmm.pmmAllocPage s n).pmmAllocPage_spec with ⟨heq, -⟩ | ⟨k, hk, hfree, hlow, heq⟩
    · exact absurd (congrArg Prod.fst heq) (hnz n n.lt_succ_self)
    · rw [hT] at hk
      obtain ⟨hkfree, hkn⟩ := (hused k).mp hfree
      have hcount : s.freeBelow k = n := by
        refine (Nat.eq_or_lt_of_le hkn).elim Eq.symm fun hlt => ?_
        obtain ⟨l, hl, hlfree, hln⟩ := Pmm.exists_freeBelow hlt
        have := (hused l).mpr ⟨hlfree, hln.ge⟩
        rw [hlow l hl] at this
        cases this
      have hframe : frameAt Pmm.pmmAllocPage s n = k * 4096 :=
        (congrArg Prod.fst heq).trans (Nat.mod_eq_of_lt (by omega))
      have hstate : stateAfter Pmm.pmmAllocPage s (n + 1) =
          ⟨Bitmap.setBit (stateAfter Pmm.pmmAllocPage s n).bitmap k, (stateAfter Pmm.pmmAllocPage s n).totalPages⟩ :=
        congrArg Prod.snd heq
      refine ⟨hstate ▸ hT, fun f => ?_, fun m hm => ?_⟩
      · have hbit : (stateAfter Pmm.pmmAllocPage s (n + 1)).used f =
            (decide (f = k) || (stateAfter Pmm.pmmAllocPage s n).used f) := by
          rw [hstate]
          exact Pmm.used_setBit ..
        rw [hbit, Bool.or_eq_false_iff, decide_eq_false_iff_not, hused f]
        constructor
        · rintro ⟨hfk, hf, hfn⟩
          exact ⟨hf, lt_of_le_of_ne hfn fun he => hfk (Pmm.freeBelow_injective hf hkfree (by omega))⟩
        · rintro ⟨hf, hfn⟩
          exact ⟨fun hfk => by subst hfk; omega, hf, by omega⟩
      · rcases Nat.lt_succ_iff_lt_or_eq.mp hm with hm | rfl
        · exact hall m hm
        · exact ⟨k, hk, hframe, hkfree, hcount⟩

/-- The first `N` frames lie below an address when it has `N` free frames below. -/
theorem frames_below_iff (htotal : s.totalPages ≤ 2 ^ 40) (hnz : ∀ n < N, frameAt Pmm.pmmAllocPage s n ≠ 0) (f : ℕ) :
    (∀ n < N, frameAt Pmm.pmmAllocPage s n < f * 4096) ↔ N ≤ s.freeBelow f := by
  obtain ⟨-, -, hall⟩ := stateAfter_order htotal hnz
  constructor
  · intro hlow
    cases N with
    | zero => exact Nat.zero_le _
    | succ n =>
      obtain ⟨k, -, hk, hfree, hcount⟩ := hall n n.lt_succ_self
      have hkf : k < f := by
        have := hlow n n.lt_succ_self
        omega
      exact hcount ▸ Pmm.freeBelow_lt hfree hkf
  · intro hN n hn
    obtain ⟨k, -, hk, -, hcount⟩ := hall n hn
    have hkf : k < f := by
      by_contra hle
      have := Pmm.freeBelow_mono (s := s) (not_lt.mp hle)
      omega
    omega

/-- Frame 0 in use and enough free frames: no call fails. -/
theorem frames_ne_zero (htotal : s.totalPages ≤ 2 ^ 40) (h0 : s.used 0 = true) (hN : N ≤ s.freeBelow s.totalPages) :
    ∀ n < N, frameAt Pmm.pmmAllocPage s n ≠ 0 := by
  intro n
  induction n using Nat.strong_induction_on with
  | h n ih =>
    intro hn
    obtain ⟨hT, hused, -⟩ := stateAfter_order htotal fun m hm => ih m hm (hm.trans hn)
    rcases (stateAfter Pmm.pmmAllocPage s n).pmmAllocPage_spec with ⟨-, hnone⟩ | ⟨k, hk, hfree, -, heq⟩
    · obtain ⟨f, hf, hfree, hcount⟩ := Pmm.exists_freeBelow (hn.trans_le hN)
      have := (hused f).mpr ⟨hfree, hcount.ge⟩
      rw [hnone f (hT ▸ hf)] at this
      cases this
    · intro hz
      have hk0 : k * 4096 % 2 ^ 64 = 0 := (congrArg Prod.fst heq).symm.trans hz
      obtain rfl : k = 0 := by
        rw [hT] at hk
        omega
      rw [((hused 0).mp hfree).1] at h0
      cases h0

end Order

/-! ## The run of `vmm_init_direct_mapping` -/

section Run
variable {σ : Type*} {alloc : σ → ℕ × σ} {old : Vm σ} {cr3 pdpt pd maxAddr : ℕ}

/-- The tables on the way to a page of 2 MB, and the PML4, are all the tables. -/
theorem tables_below_iff (f : ℕ → ℕ) (m : ℕ) :
    (f 0 < m ∧ ∀ j < directRounds maxAddr, f (pdptNo (j / 2 ^ 18)) < m ∧ f (pdNo (j / 512)) < m) ↔
      ∀ n < directCalls maxAddr, f n < m := by
  have hrounds : directRounds maxAddr = (maxAddr + (2 ^ 21 - 1)) / 2 ^ 21 := rfl
  have hcalls : directCalls maxAddr = 1 + (maxAddr + (2 ^ 39 - 1)) / 2 ^ 39 + (maxAddr + (2 ^ 30 - 1)) / 2 ^ 30 := rfl
  constructor
  · rintro ⟨hroot, hall⟩ n hn
    cases n with
    | zero => exact hroot
    | succ n =>
      -- the calls go by 513: a table of 512 GB and its tables of 1 GB
      obtain ⟨a, r, hr, rfl⟩ : ∃ a r, r < 513 ∧ n = 513 * a + r := ⟨n / 513, n % 513, by omega, by omega⟩
      cases r with
      | zero =>
        have h := (hall (a * 2 ^ 18) (by omega)).1
        rwa [Nat.mul_div_cancel _ (by decide), show pdptNo a = 513 * a + 0 + 1 by unfold pdptNo; omega] at h
      | succ r =>
        have h := (hall ((512 * a + r) * 512) (by omega)).2
        rwa [Nat.mul_div_cancel _ (by decide), show pdNo (512 * a + r) = 513 * a + (r + 1) + 1 by unfold pdNo; omega] at h
  · intro hall
    refine ⟨hall 0 (by omega), fun j hj => ⟨hall _ ?_, hall _ ?_⟩⟩
    · unfold pdptNo
      omega
    · unfold pdNo
      omega

/-- The function returns when the kernel sees all tables, and makes them all. -/
theorem seenDirectMapping_spec (old : Vm σ) (hf : FramesFresh alloc old.tables {cr3} old.pmm (directCalls maxAddr))
    (hb : BootTables old.tables cr3 pdpt pd) (hcr3 : cr3 < 2 ^ 27) (hmax : maxAddr ≤ 2 ^ 46) :
    (∀ r, Vm.seenDirectMapping alloc cr3 old maxAddr = some r → r.1 = frameAt alloc old.pmm 0 ∧
      DirectTables alloc old cr3 ((directRounds maxAddr + (2 ^ 18 - 1)) / 2 ^ 18) ((directRounds maxAddr + 511) / 512)
        (directRounds maxAddr) r.2) ∧
    ((∃ r, Vm.seenDirectMapping alloc cr3 old maxAddr = some r) ↔
      ∀ n < directCalls maxAddr, frameAt alloc old.pmm n < 2 ^ 27) := by
  have hcalls : 0 < directCalls maxAddr := by
    unfold directCalls
    omega
  have hrounds : directRounds maxAddr < 2 ^ 43 + 1 := by
    unfold directRounds pageSize2MB
    omega
  have hstart := DirectTables.start hf hcalls
  obtain ⟨hmade, hiff⟩ := hstart.seenPagesFrom hf hb hmax (Nat.zero_add _) hrounds
  rw [Nat.zero_mul] at hmade hiff
  have hroot : Vm.seenRoot alloc cr3 old =
      if frameAt alloc old.pmm 0 < 2 ^ 27 then some (old.directRoot alloc cr3) else none := by
    unfold Vm.seenRoot
    refine if_congr ?_ rfl rfl
    rw [hb.sees_iff (hcr3.trans (by decide)), and_iff_left hcr3]
    exact hb.sees_iff (hf.isFrame hcalls).1.2
  rw [← tables_below_iff (frameAt alloc old.pmm), Vm.seenDirectMapping, hroot]
  by_cases hlow : frameAt alloc old.pmm 0 < 2 ^ 27
  · rw [if_pos hlow, Option.bind_some]
    constructor
    · intro r hr
      obtain ⟨vm, hvm, rfl⟩ := Option.map_eq_some_iff.mp hr
      exact ⟨rfl, hmade vm hvm⟩
    · rw [and_iff_right hlow]
      refine Iff.trans ?_ (hiff.trans ⟨fun h j hj => h j (Nat.zero_le j) hj, fun h j _ hj => h j hj⟩)
      constructor
      · rintro ⟨r, hr⟩
        obtain ⟨vm, hvm, -⟩ := Option.map_eq_some_iff.mp hr
        exact ⟨vm, hvm⟩
      · rintro ⟨vm, hvm⟩
        exact ⟨_, congrArg (Option.map _) hvm⟩
  · rw [if_neg hlow, Option.bind_none]
    constructor
    · intro r hr
      cases hr
    · refine ⟨fun hr => ?_, fun h => absurd h.1 hlow⟩
      obtain ⟨r, hr⟩ := hr
      cases hr

end Run

/-! ## The whole of `init_PMM` and `init_VMM` -/

theorem vmmMaxAddr_highest {b : BootInfo} {maxAddr : ℕ} (h : vmmMaxAddr b = some maxAddr) :
    HighestOf b (fun _ => True) maxAddr :=
  endPass_highest (p := fun _ => True) h

theorem vmmMaxAddr_ends {b : BootInfo} {ts : List ℕ} {limit : ℕ} (h : EndsBelow b ts limit) :
    ∃ maxAddr, vmmMaxAddr b = some maxAddr :=
  endPass_ends h fun _ => True

/-- `pmm_alloc_page` returns fresh frames and never 0 while `init_VMM` runs. -/
def PmmFresh (b : BootState) (T : Tables) (cr3 : ℕ) : Prop :=
  ∀ s maxAddr, initPMM b = some s → vmmMaxAddr b.info = some maxAddr →
    FramesFresh Pmm.pmmAllocPage T {cr3} s (directCalls maxAddr) ∧
    ∀ n < directCalls maxAddr, frameAt Pmm.pmmAllocPage s n ≠ 0

/-- `init_PMM` and `init_VMM` return, every frame is mapped, and the kernel image stays mapped. -/
def DirectMapMade (b : BootState) (T : Tables) (cr3 : ℕ) : Prop :=
  ∃ s pml4 vm, InitMemory b T cr3 s pml4 vm ∧
    (∀ f < s.totalPages, vm.tables.walk pml4 (directOffset + f * 4096) = some ⟨f * 4096, true, false⟩) ∧
    ∀ i, i.val = 511 → vm.tables pml4 i = T cr3 i

/-- The boot block and the bitmap are seen, and as many free frames lie in the first 128 MB as `init_VMM` takes. -/
def TablesFit (b : BootState) (totalPages maxAddr : ℕ) : Prop :=
  BootSeen b totalPages ∧ directCalls maxAddr ≤ Set.ncard {f | f < 2 ^ 15 ∧ FreeFrame b totalPages f}

section Whole
variable {b : BootState} {T : Tables} {cr3 pdpt pd top totalPages maxAddr : ℕ}

theorem Pmm.freeBelow_eq {s : Pmm} {P : ℕ → Prop} (h : ∀ f, s.used f = false ↔ P f) (m : ℕ) :
    s.freeBelow m = Set.ncard {f | f < m ∧ P f} := by
  rw [Pmm.freeBelow, Nat.count_eq_card_filter_range, ← Set.ncard_coe_finset]
  refine congrArg Set.ncard (Set.ext fun f => ?_)
  rw [Finset.mem_coe, Finset.mem_filter, Finset.mem_range, h]
  rfl

/-- What the window shows the tables of `boot.s` show. -/
theorem BootSeen.bitmapSeen (h : BootSeen b totalPages) (hboot : BootTables T cr3 pdpt pd) :
    BitmapSeen b T cr3 totalPages := by
  have hoff : kernelOffset = 2 ^ 64 - 2 ^ 31 := rfl
  intro i hi
  obtain ⟨hlow, hhigh⟩ := h.bitmap i hi
  have haddr : (b.kernelEnd + i + 2 ^ 64 - kernelOffset) % 2 ^ 64 = b.kernelEnd + i - kernelOffset := by omega
  rw [haddr, hboot.sees_iff (by omega)]
  omega

/-- For a boot map below 64 TB, the direct map is made exactly when the block and the bitmap are seen and the first
128 MB have room. -/
theorem direct_map_made_iff {ts : List ℕ} (hmap : EndsBelow b.info ts (2 ^ 46))
    (hk : kernelOffset ≤ b.kernelEnd ∧ b.kernelEnd < 2 ^ 64) (hboot : BootTables T cr3 pdpt pd)
    (hcr3 : cr3 < 2 ^ 27) (hfresh : PmmFresh b T cr3) (htop : HighestEnd b top)
    (hmax : HighestOf b.info (fun _ => True) maxAddr) :
    DirectMapMade b T cr3 ↔ TablesFit b (top / 4096) maxAddr := by
  by_cases hblock : BootSeen b (top / 4096)
  swap
  · -- `init_PMM` does not return
    refine iff_of_false ?_ fun hfit => hblock hfit.1
    rintro ⟨s, _, _, ⟨hs, -⟩, -⟩
    obtain ⟨top', htop', hT, -⟩ := initPMM_spec hs
    have hseen := initPMM_seen hmap hs
    rw [hT, HighestOf.unique htop' htop] at hseen
    exact hblock hseen
  obtain ⟨s, hs⟩ := initPMM_ends hmap hk fun top' htop' => HighestOf.unique htop' htop ▸ hblock
  obtain ⟨top', htop', hT, hfree⟩ := initPMM_spec hs
  obtain rfl : top' = top := HighestOf.unique htop' htop
  obtain ⟨maxAddr', hrun⟩ := vmmMaxAddr_ends hmap
  obtain rfl : maxAddr' = maxAddr := (vmmMaxAddr_highest hrun).unique hmax
  obtain ⟨hframes, hnz⟩ := hfresh s maxAddr' hs hrun
  have htop_le : top' ≤ maxAddr' := by
    rcases htop.2 with rfl | ⟨e, he, -, rfl⟩
    · exact Nat.zero_le _
    · exact hmax.1 e he trivial
  have hmax_le := hmap.highest_le hmax
  have hseen := hblock.bitmapSeen hboot
  obtain ⟨hmade, hiff⟩ := seenDirectMapping_spec ⟨T, s⟩ hframes hboot hcr3 hmax_le
  have hroom : (∀ n < directCalls maxAddr', frameAt Pmm.pmmAllocPage s n < 2 ^ 27) ↔
      directCalls maxAddr' ≤ Set.ncard {f | f < 2 ^ 15 ∧ FreeFrame b (top' / 4096) f} := by
    rw [← Pmm.freeBelow_eq hfree]
    exact frames_below_iff (by omega) hnz (2 ^ 15)
  rw [TablesFit, and_iff_right hblock, ← hroom, ← hiff]
  constructor
  · rintro ⟨s', pml4, vm, ⟨hs', -, m, hm, hvm⟩, -⟩
    obtain rfl := Option.some.inj (hs'.symm.trans hs)
    obtain rfl := Option.some.inj (hm.symm.trans hrun)
    exact ⟨_, hvm⟩
  · rintro ⟨⟨pml4, vm⟩, hvm⟩
    obtain ⟨rfl, htables⟩ := hmade _ hvm
    refine ⟨s, _, vm, ⟨hs, hT ▸ hseen, maxAddr', hrun, hvm⟩, fun f hf => ?_, fun i hi => ?_⟩
    · refine htables.walk hframes ?_ ?_ ?_
      · unfold directRounds directCalls pageSize2MB
        omega
      · unfold directRounds pageSize2MB
        omega
      · unfold directRounds pageSize2MB
        omega
    · obtain rfl : i = 511 := Fin.ext hi
      exact (htables.root 511).trans (if_pos rfl)

/-- The frames are fresh when no boot table lies in a free one. -/
theorem framesFresh_of_used {s : Pmm} {N : ℕ} (hboot : BootTables T cr3 pdpt pd) (htotal : s.totalPages ≤ 2 ^ 40)
    (hused : s.used (cr3 / 4096) = true ∧ s.used (pdpt / 4096) = true ∧ s.used (pd / 4096) = true)
    (hnz : ∀ n < N, frameAt Pmm.pmmAllocPage s n ≠ 0) : FramesFresh Pmm.pmmAllocPage T {cr3} s N := by
  obtain ⟨-, -, hall⟩ := stateAfter_order htotal hnz
  refine ⟨?_, fun g hg => ?_⟩
  · rw [framesTaken_eq]
    refine List.Nodup.map_on (fun m hm n hn heq => ?_) List.nodup_range
    obtain ⟨k, -, hk, -, hkm⟩ := hall m (List.mem_range.mp hm)
    obtain ⟨l, -, hl, -, hln⟩ := hall n (List.mem_range.mp hn)
    have hkl : k = l := by omega
    rw [← hkm, ← hln, hkl]
  · rw [framesTaken_eq] at hg
    obtain ⟨n, hn, rfl⟩ := List.mem_map.mp hg
    obtain ⟨k, hkT, hk, hfree, -⟩ := hall n (List.mem_range.mp hn)
    rw [hk]
    refine ⟨⟨by omega, by omega⟩, ?_⟩
    rintro r rfl p - hp
    have hdiv : k * 4096 / 4096 = k := Nat.mul_div_cancel k (by decide)
    rcases hboot.reach_cases hp with ⟨-, heq⟩ | ⟨-, heq⟩ | ⟨-, heq⟩ <;> rw [← heq, hdiv, hfree] at hused
    · cases hused.1
    · cases hused.2.1
    · cases hused.2.2

end Whole

/-! ## Two boot maps -/

/-- A boot block at `0x9000` with 3 pages available at 1 MB, of which the kernel has the first, and 3 more
from `start` on. -/
def splitBoot (start : ℕ) : BootState where
  info :=
    let tag := kernelOffset + 0x9008
    let m : Memory := store32 (fun _ => 0) (kernelOffset + 0x9000) 80
    let m := store32 (store32 (store32 m tag 6) (tag + 4) 64) (tag + 8) 24
    let m := store32 (store64 (store64 m (tag + 16) 0x100000) (tag + 24) 0x3000) (tag + 32) 1
    let m := store32 (store64 (store64 m (tag + 40) start) (tag + 48) 0x3000) (tag + 56) 1
    ⟨m, 0x9000⟩
  kernelStart := kernelOffset + 0x100000
  kernelEnd := kernelOffset + 0x101000
  behindKernel := fun _ => 0xFF

section Split
variable {start : ℕ}

theorem splitBoot_tags (h : start = 0x200000 ∨ start = 0x8000000) :
    TagList (splitBoot start).info.mem (splitBoot start).info.firstTag [kernelOffset + 0x9008] ∧
    tagType (splitBoot start).info.mem (kernelOffset + 0x9008) = multibootTagTypeMmap ∧
    mmapEntries (splitBoot start).info.mem (kernelOffset + 0x9008) =
      some [⟨0x100000, 0x3000, 1⟩, ⟨start, 0x3000, 1⟩] := by
  have hend : tagType (splitBoot start).info.mem (nextTag (splitBoot start).info.mem
      (splitBoot start).info.firstTag) = multibootTagTypeEnd := by
    rcases h with rfl | rfl <;> decide +kernel
  refine ⟨⟨?_, ?_, hend⟩, ?_, ?_⟩
  all_goals rcases h with rfl | rfl <;> decide +kernel

theorem splitBoot_entry (h : start = 0x200000 ∨ start = 0x8000000) (e : MmapEntry) :
    (splitBoot start).info.IsEntry e ↔ e = ⟨0x100000, 0x3000, 1⟩ ∨ e = ⟨start, 0x3000, 1⟩ := by
  obtain ⟨htags, htype, hes⟩ := splitBoot_tags h
  rw [← List.mem_pair]
  constructor
  · rintro ⟨t, ⟨ts, hts, ht⟩, -, es, hes', he⟩
    obtain rfl := hts.unique htags
    obtain rfl := List.mem_singleton.mp ht
    exact Option.some.inj (hes'.symm.trans hes) ▸ he
  · exact fun he => ⟨_, ⟨_, htags, List.mem_singleton_self _⟩, htype, _, hes, he⟩

theorem splitBoot_ends (h : start = 0x200000 ∨ start = 0x8000000) :
    EndsBelow (splitBoot start).info [kernelOffset + 0x9008] (2 ^ 46) := by
  refine ⟨(splitBoot_tags h).1, fun t ht _ => ?_, fun e he => ?_⟩
  · obtain rfl := List.mem_singleton.mp ht
    rcases h with rfl | rfl <;> decide +kernel
  · rcases (splitBoot_entry h e).mp he with rfl | rfl
    · decide
    · rcases h with rfl | rfl <;> decide

theorem splitBoot_highest (h : start = 0x200000 ∨ start = 0x8000000) {p : MmapEntry → Prop}
    (hp : ∀ e : MmapEntry, e.type = multibootMemoryAvailable → p e) : HighestOf (splitBoot start).info p (start + 0x3000) := by
  have hstop : MmapEntry.stop ⟨start, 0x3000, 1⟩ = start + 0x3000 := by
    rcases h with rfl | rfl <;> decide
  refine ⟨fun e he _ => ?_, .inr ⟨_, (splitBoot_entry h _).mpr (.inr rfl), hp _ rfl, hstop⟩⟩
  rcases (splitBoot_entry h e).mp he with rfl | rfl
  · have : MmapEntry.stop ⟨0x100000, 0x3000, 1⟩ = 0x103000 := by decide
    omega
  · exact hstop.le

lemma visited_pages {a stop f : ℕ} : Visited (a * 4096) stop f ↔ a ≤ f ∧ f * 4096 < stop := by
  unfold Visited
  constructor
  · rintro ⟨k, hk, rfl⟩
    omega
  · rintro ⟨haf, hlt⟩
    have hf : a * 4096 + 4096 * (f - a) = f * 4096 := by omega
    exact ⟨f - a, hf.trans_lt hlt, by omega⟩

theorem splitBoot_offered (h : start = 0x200000 ∨ start = 0x8000000) (f : ℕ) : OfferedFrame (splitBoot start) f ↔
    0x100 ≤ f ∧ f < 0x103 ∨ start / 4096 ≤ f ∧ f < start / 4096 + 3 := by
  have hlow : Visited 0x100000 (MmapEntry.stop ⟨0x100000, 0x3000, 1⟩) f ↔ 0x100 ≤ f ∧ f < 0x103 := by
    have hs : MmapEntry.stop ⟨0x100000, 0x3000, 1⟩ = 0x103000 := by decide
    rw [show 0x100000 = 0x100 * 4096 from rfl, hs, visited_pages]
    omega
  have hhigh : Visited start (MmapEntry.stop ⟨start, 0x3000, 1⟩) f ↔ start / 4096 ≤ f ∧ f < start / 4096 + 3 := by
    have hs : MmapEntry.stop ⟨start, 0x3000, 1⟩ = start + 0x3000 ∧ start / 4096 * 4096 = start := by
      rcases h with rfl | rfl <;> decide
    nth_rewrite 1 [← hs.2]
    rw [hs.1, visited_pages]
    omega
  rw [← hlow, ← hhigh]
  constructor
  · rintro ⟨e, he, -, -, hv⟩
    rcases (splitBoot_entry h e).mp he with rfl | rfl
    · exact .inl hv
    · exact .inr hv
  · rintro (hv | hv)
    · exact ⟨_, (splitBoot_entry h _).mpr (.inl rfl), rfl, by decide, hv⟩
    · exact ⟨_, (splitBoot_entry h _).mpr (.inr rfl), rfl, by rcases h with rfl | rfl <;> decide, hv⟩

theorem splitBoot_kernel (h : start = 0x200000 ∨ start = 0x8000000) (f : ℕ) :
    Visited (physKernelStart (splitBoot start)) (physKernelEnd (splitBoot start) ((start + 0x3000) / 4096)) f ↔
      0x100 ≤ f ∧ f < if start = 0x200000 then 0x102 else 0x103 := by
  have hs : physKernelStart (splitBoot start) = 0x100 * 4096 := by
    change (kernelOffset + 0x100000 + 2 ^ 64 - kernelOffset) % 2 ^ 64 = 0x100 * 4096
    decide
  rw [hs, visited_pages]
  rcases h with rfl | rfl
  · have he : physKernelEnd (splitBoot 0x200000) ((0x200000 + 0x3000) / 4096) = 0x101041 := by decide
    rw [he, if_pos rfl]
    omega
  · have he : physKernelEnd (splitBoot 0x8000000) ((0x8000000 + 0x3000) / 4096) = 0x102001 := by decide
    rw [he, if_neg (by decide)]
    omega

theorem splitBoot_free (h : start = 0x200000 ∨ start = 0x8000000) (f : ℕ) :
    FreeFrame (splitBoot start) ((start + 0x3000) / 4096) f ↔
      start = 0x200000 ∧ f = 0x102 ∨ start / 4096 ≤ f ∧ f < start / 4096 + 3 := by
  have hones : Bitmap.testBit (splitBoot start).behindKernel f = true := testBit_ones f
  rw [FreeFrame, splitBoot_kernel h, splitBoot_offered h, hones]
  rcases h with rfl | rfl <;> simp <;> omega

theorem splitBoot_fresh (h : start = 0x200000 ∨ start = 0x8000000) :
    PmmFresh (splitBoot start) bootTables 0x1000 := by
  intro s maxAddr hs hmax
  obtain ⟨top, htop, hT, hfree⟩ := initPMM_spec hs
  obtain rfl : top = start + 0x3000 := HighestOf.unique htop (splitBoot_highest h fun _ he => he)
  obtain rfl : maxAddr = start + 0x3000 := (vmmMaxAddr_highest hmax).unique (splitBoot_highest h fun _ _ => trivial)
  have hused : ∀ f < 0x100, s.used f = true := by
    intro f hf
    rw [← Bool.not_eq_false, hfree, splitBoot_free h]
    rcases h with rfl | rfl <;> omega
  have hfree' : ∀ f, start / 4096 ≤ f → f < start / 4096 + 3 → s.used f = false :=
    fun f h1 h2 => (hfree f).mpr ((splitBoot_free h f).mpr (.inr ⟨h1, h2⟩))
  have hcalls : directCalls (start + 0x3000) = 3 := by
    rcases h with rfl | rfl <;> decide
  have htotal : s.totalPages ≤ 2 ^ 40 := by omega
  have hcount : 3 ≤ s.freeBelow s.totalPages := by
    have hstep : ∀ f, start / 4096 ≤ f → f < start / 4096 + 3 → s.freeBelow f < s.freeBelow (f + 1) :=
      fun f h1 h2 => Pmm.freeBelow_lt (hfree' f h1 h2) (Nat.lt_add_one f)
    have h0 := hstep (start / 4096) (by omega) (by omega)
    have h1 := hstep (start / 4096 + 1) (by omega) (by omega)
    have h2 := hstep (start / 4096 + 1 + 1) (by omega) (by omega)
    rw [hT, show (start + 0x3000) / 4096 = start / 4096 + 1 + 1 + 1 by omega]
    omega
  rw [hcalls]
  have hnz := frames_ne_zero htotal (hused 0 (by decide)) hcount
  have hboot := And.intro (hused 1 (by decide)) (And.intro (hused 2 (by decide)) (hused 3 (by decide)))
  exact ⟨framesFresh_of_used bootTables_boot htotal hboot hnz, hnz⟩

theorem splitBoot_returns (h : start = 0x200000 ∨ start = 0x8000000) : ∃ s, initPMM (splitBoot start) = some s := by
  refine Option.isSome_iff_exists.mp ?_
  rcases h with rfl | rfl <;> decide +kernel

/-- With no free memory in the first 128 MB, the first new table is out of reach. -/
theorem direct_map_out_of_reach :
    EndsBelow (splitBoot 0x8000000).info [kernelOffset + 0x9008] (2 ^ 46) ∧ BootTables bootTables 0x1000 0x2000 0x3000 ∧
      (∃ s, initPMM (splitBoot 0x8000000) = some s) ∧ PmmFresh (splitBoot 0x8000000) bootTables 0x1000 ∧
      ¬DirectMapMade (splitBoot 0x8000000) bootTables 0x1000 := by
  refine ⟨splitBoot_ends (.inr rfl), bootTables_boot, splitBoot_returns (.inr rfl), splitBoot_fresh (.inr rfl), ?_⟩
  rintro ⟨s, pml4, vm, ⟨hs, -, maxAddr, hmax, hvm⟩, -⟩
  obtain ⟨hframes, hnz⟩ := splitBoot_fresh (.inr rfl) s maxAddr hs hmax
  obtain ⟨top, htop, hT, hfree⟩ := initPMM_spec hs
  obtain rfl : top = 0x8000000 + 0x3000 := HighestOf.unique htop (splitBoot_highest (.inr rfl) fun _ he => he)
  obtain rfl : maxAddr = 0x8000000 + 0x3000 :=
    (vmmMaxAddr_highest hmax).unique (splitBoot_highest (.inr rfl) fun _ _ => trivial)
  have hlow : frameAt Pmm.pmmAllocPage s 0 < 2 ^ 27 := (seenDirectMapping_spec ⟨bootTables, s⟩ hframes
    bootTables_boot (by decide) (by decide)).2.mp ⟨_, hvm⟩ 0 (by decide)
  obtain ⟨-, -, hall⟩ := stateAfter_order (by omega) hnz
  obtain ⟨k, -, hk, hkfree, -⟩ := hall 0 (by decide)
  have := (splitBoot_free (.inr rfl) k).mp ((hfree k).mp hkfree)
  omega

theorem direct_map_made_two_entries : DirectMapMade (splitBoot 0x200000) bootTables 0x1000 := by
  have h : 0x200000 = 0x200000 ∨ 0x200000 = 0x8000000 := .inl rfl
  refine (direct_map_made_iff (splitBoot_ends h) (by decide) bootTables_boot (by decide) (splitBoot_fresh h)
    (splitBoot_highest h fun _ he => he) (splitBoot_highest h fun _ _ => trivial)).mpr ⟨?_, ?_⟩
  · obtain ⟨s, hs⟩ := splitBoot_returns h
    obtain ⟨top, htop, hT, -⟩ := initPMM_spec hs
    have hseen := initPMM_seen (splitBoot_ends h) hs
    rwa [hT, HighestOf.unique htop (splitBoot_highest h fun _ he => he)] at hseen
  · have hsub : ↑({0x200, 0x201, 0x202} : Finset ℕ) ⊆
        {f | f < 2 ^ 15 ∧ FreeFrame (splitBoot 0x200000) ((0x200000 + 0x3000) / 4096) f} := by
      intro f hf
      have hf : f = 0x200 ∨ f = 0x201 ∨ f = 0x202 := by simpa using hf
      exact ⟨by omega, (splitBoot_free h f).mpr (by omega)⟩
    have hle := Set.ncard_le_ncard hsub ((Set.finite_Iio (2 ^ 15)).subset fun f hf => hf.1)
    rwa [Set.ncard_coe_finset] at hle

end Split

end PointerOS
