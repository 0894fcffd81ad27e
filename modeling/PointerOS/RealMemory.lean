import PointerOS.InitPmm

/-!
# Which frames `init_PMM` frees

The second pass frees a page for every step of 4096 from the address of an entry,
the last pass takes a page for every step from the start of the kernel, and
`total_pages` rounds down. Whole pages of memory come out of this when the ends
of the entries and of the kernel fall on pages. `MapFits` says what has to hold
at the ends that do not.
-/
namespace PointerOS
open ByteMemory Bitmap

/-- The bytes of an entry, in exact arithmetic. -/
def MmapEntry.Holds (e : MmapEntry) (a : ℕ) : Prop := e.addr ≤ a ∧ a < e.addr + e.len

namespace BootInfo

def Available (i : BootInfo) (a : ℕ) : Prop := ∃ e, i.IsEntry e ∧ e.type = multibootMemoryAvailable ∧ e.Holds a

/-- A byte of an entry of another type. -/
def Other (i : BootInfo) (a : ℕ) : Prop := ∃ e, i.IsEntry e ∧ e.type ≠ multibootMemoryAvailable ∧ e.Holds a

end BootInfo

/-- Frame `f` is available memory throughout, outside the kernel image and the bitmap. -/
structure RealFrame (b : BootState) (totalPages f : ℕ) : Prop where
  available : ∀ a, a / 4096 = f → b.info.Available a
  pure : ∀ a, a / 4096 = f → ¬b.info.Other a
  unused : ∀ a, a / 4096 = f → ¬(physKernelStart b ≤ a ∧ a < physKernelEnd b totalPages)

/-- Whatever memory holds behind the kernel: the frames left free are real, and
no byte behind the bitmap is written. -/
def FreesRealMemory (b : BootState) : Prop :=
  ∀ behind s, initPMM { b with behindKernel := behind } = some s →
    (∀ f < s.totalPages, s.used f = false → RealFrame b s.totalPages f) ∧
    ∀ i, bitmapSize s.totalPages ≤ i → s.bitmap i = behind i

/-- An entry that the second pass goes through. -/
structure Offered (b : BootState) (e : MmapEntry) : Prop where
  entry : b.info.IsEntry e
  available : e.type = multibootMemoryAvailable
  high : 0x100000 ≤ e.addr
  nonempty : e.addr < e.stop

/-- A frame below `total_pages` that the last pass does not take. -/
def Claimable (b : BootState) (totalPages f : ℕ) : Prop :=
  f < totalPages ∧ ¬Visited (physKernelStart b) (physKernelEnd b totalPages) f

structure MapFits (b : BootState) (totalPages : ℕ) : Prop where
  /-- What lies before an entry in its first page is available. -/
  first : ∀ e, Offered b e → Claimable b totalPages (e.addr / 4096) →
    ∀ a, a / 4096 = e.addr / 4096 → a < e.addr → b.info.Available a
  /-- What lies behind an entry in its last page is available. -/
  last : ∀ e, Offered b e → Claimable b totalPages (lastVisited e.addr e.stop) →
    ∀ a, a / 4096 = lastVisited e.addr e.stop → e.stop ≤ a → b.info.Available a
  /-- No entry of another type reaches into a page of the entry. -/
  other : ∀ e, Offered b e → ∀ a, e.addr / 4096 ≤ a / 4096 → a / 4096 ≤ lastVisited e.addr e.stop →
    Claimable b totalPages (a / 4096) → ¬b.info.Other a
  /-- The page in which the bitmap ends is no page of an entry, or is taken. -/
  kernel : physKernelStart b < physKernelEnd b totalPages →
    Claimable b totalPages ((physKernelEnd b totalPages - 1) / 4096) → ∀ e, Offered b e →
      ¬(e.addr / 4096 ≤ (physKernelEnd b totalPages - 1) / 4096 ∧
        (physKernelEnd b totalPages - 1) / 4096 ≤ lastVisited e.addr e.stop)
  /-- The bitmap has a bit for the last page of every entry and of the kernel. -/
  room : ∀ e, Offered b e → lastVisited e.addr e.stop < 8 * bitmapSize totalPages
  kernelRoom : physKernelStart b < physKernelEnd b totalPages →
    lastVisited (physKernelStart b) (physKernelEnd b totalPages) < 8 * bitmapSize totalPages

/-! ## The frames of a pass -/

/-- A byte in a page that the pass over its range does not visit is in the last page. -/
lemma last_of_not_visited {start stop a : ℕ} (hlo : start ≤ a) (hhi : a < stop)
    (h : ¬Visited start stop (a / 4096)) : (stop - 1) / 4096 = a / 4096 := by
  rw [visited_iff (by omega)] at h
  unfold lastVisited at h
  omega

lemma Offered.stop_eq {b : BootState} {e : MmapEntry} (h : Offered b e) : e.stop = e.addr + e.len := by
  obtain ⟨t, -, -, es, hes, he⟩ := h.entry
  have haddr := mmapEntry_addr_lt hes he
  have hlen : e.len < 2 ^ 64 := by
    rw [mmapEntries] at hes
    split_ifs at hes
    obtain rfl := Option.some.inj hes
    obtain ⟨i, -, rfl⟩ := List.mem_map.mp he
    exact load64_lt _ _
  have hne := h.nonempty
  unfold MmapEntry.stop at hne ⊢
  omega

lemma offeredFrame_iff {b : BootState} {f : ℕ} :
    OfferedFrame b f ↔ ∃ e, Offered b e ∧ e.addr / 4096 ≤ f ∧ f ≤ lastVisited e.addr e.stop := by
  constructor
  · rintro ⟨e, he, hav, hhigh, hv⟩
    exact ⟨e, ⟨he, hav, hhigh, hv.lt⟩, (visited_iff hv.lt).mp hv⟩
  · rintro ⟨e, he, hf⟩
    exact ⟨e, he.entry, he.available, he.high, (visited_iff he.nonempty).mpr hf⟩

/-! ## The passes end whatever the bits are -/

lemma forFrames_returns {op : Bits → ℕ → Bits} {stop n start : ℕ} {m r : Bits}
    (h : forFrames op stop n start m = some r) (m' : Bits) : ∃ r', forFrames op stop n start m' = some r' := by
  induction n generalizing start m m' with
  | zero => cases h
  | succ n ih =>
    rw [forFrames] at h ⊢
    split_ifs at h ⊢
    · exact ih h _
    · exact ⟨m', rfl⟩

lemma foldlM_returns {σ α : Type*} {g : σ → α → Option σ}
    (hg : ∀ {m x r}, g m x = some r → ∀ m', ∃ r', g m' x = some r') (xs : List α) {m r : σ}
    (h : xs.foldlM g m = some r) (m' : σ) : ∃ r', xs.foldlM g m' = some r' := by
  induction xs generalizing m m' with
  | nil => exact ⟨m', rfl⟩
  | cons x xs ih =>
    rw [List.foldlM_cons] at h ⊢
    obtain ⟨m₁, h₁, h₂⟩ := Option.bind_eq_some_iff.mp h
    obtain ⟨m₁', h₁'⟩ := hg h₁ m'
    obtain ⟨r', hr'⟩ := ih h₂ m₁'
    exact ⟨r', by rw [h₁']; exact hr'⟩

lemma forTags_returns {σ : Type*} {mem : Memory} {g : σ → ℕ → Option σ}
    (hg : ∀ {m t r}, g m t = some r → ∀ m', ∃ r', g m' t = some r') {n tag : ℕ} {m r : σ}
    (h : forTags mem g n tag m = some r) (m' : σ) : ∃ r', forTags mem g n tag m' = some r' := by
  induction n generalizing tag m m' with
  | zero => cases h
  | succ n ih =>
    rw [forTags] at h ⊢
    split_ifs at h ⊢
    · exact ⟨m', rfl⟩
    · obtain ⟨m₁, h₁, h₂⟩ := Option.bind_eq_some_iff.mp h
      obtain ⟨m₁', h₁'⟩ := hg h₁ m'
      obtain ⟨r', hr'⟩ := ih h₂ m₁'
      exact ⟨r', by rw [h₁']; exact hr'⟩

lemma clearEntry_returns {m r : Bits} {e : MmapEntry} (h : clearEntry m e = some r) (m' : Bits) :
    ∃ r', clearEntry m' e = some r' := by
  rw [clearEntry] at h ⊢
  split_ifs at h ⊢
  · exact forFrames_returns h m'
  · exact ⟨m', rfl⟩

lemma clearPass_returns {mem : Memory} {m r : Bits} {t : ℕ} (h : clearPass mem m t = some r) (m' : Bits) :
    ∃ r', clearPass mem m' t = some r' := by
  rw [clearPass] at h ⊢
  split_ifs at h ⊢
  · obtain ⟨es, hes, hfold⟩ := Option.bind_eq_some_iff.mp h
    obtain ⟨r', hr'⟩ := foldlM_returns (g := clearEntry) clearEntry_returns es hfold m'
    exact ⟨r', by rw [hes]; exact hr'⟩
  · exact ⟨m', rfl⟩

/-- `init_PMM` returns with other memory behind the kernel too. -/
theorem initPMM_returns {b : BootState} {s : Pmm} (h : initPMM b = some s) (behind : Bits) :
    ∃ s', initPMM { b with behindKernel := behind } = some s' := by
  rw [initPMM] at h ⊢
  obtain ⟨top, htop, h⟩ := Option.bind_eq_some_iff.mp h
  dsimp only at h
  split_ifs at h with hblock
  obtain ⟨m₁, hm₁, h⟩ := Option.bind_eq_some_iff.mp h
  obtain ⟨m₂, hm₂, -⟩ := Option.map_eq_some_iff.mp h
  obtain ⟨m₁', hm₁'⟩ := forTags_returns (g := clearPass b.info.mem) clearPass_returns hm₁
    (fill behind 0 (bitmapSize (top / 4096)) 0xFF)
  obtain ⟨m₂', hm₂'⟩ := forFrames_returns hm₂ m₁'
  refine ⟨⟨m₂', top / 4096⟩, ?_⟩
  rw [htop, Option.bind_some]
  dsimp only
  have hblock' : bootSeen { b with behindKernel := behind } (top / 4096) = true := hblock
  rw [if_pos hblock', hm₁', Option.bind_some]
  exact congrArg _ hm₂'

/-! ## What is free, and what is written -/

section Outcome
variable {b : BootState} {s : Pmm} {top : ℕ}

/-- The outcome of `init_PMM` on the boot block with some memory behind the kernel. -/
theorem initPMM_behind {behind : Bits} (htop : HighestEnd b top)
    (h : initPMM { b with behindKernel := behind } = some s) :
    s.totalPages = top / 4096 ∧ ∀ f, s.used f = false ↔
      ¬Visited (physKernelStart b) (physKernelEnd b (top / 4096)) f ∧
        (OfferedFrame b f ∨ 8 * bitmapSize (top / 4096) ≤ f ∧ testBit behind f = false) := by
  obtain ⟨top', htop', hT, hfree⟩ := initPMM_spec h
  obtain rfl : top' = top := HighestOf.unique htop' htop
  exact ⟨hT, hfree⟩

lemma lt_bits {f n : ℕ} (h : f < n) : f < 8 * bitmapSize n := by
  unfold bitmapSize
  omega

theorem MapFits.realFrame (fits : MapFits b (top / 4096)) {f : ℕ}
    (hf : Claimable b (top / 4096) f) (ho : OfferedFrame b f) : RealFrame b (top / 4096) f := by
  obtain ⟨e, he, hlo, hhi⟩ := offeredFrame_iff.mp ho
  have hstop := he.stop_eq
  have hne := he.nonempty
  refine ⟨fun a ha => ?_, fun a ha => ?_, fun a ha hin => ?_⟩
  · by_cases hbefore : a < e.addr
    · have hfirst : e.addr / 4096 = f := by omega
      exact fits.first e he (hfirst ▸ hf) a (ha.trans hfirst.symm) hbefore
    by_cases hbehind : e.stop ≤ a
    · have hlast : lastVisited e.addr e.stop = f := by
        unfold lastVisited at hhi ⊢
        omega
      exact fits.last e he (hlast ▸ hf) a (ha.trans hlast.symm) hbehind
    · exact ⟨e, he.entry, he.available, by omega, by omega⟩
  · subst ha
    exact fits.other e he a hlo hhi hf
  · have hend := last_of_not_visited hin.1 hin.2 (ha ▸ hf.2)
    rw [ha] at hend
    subst hend
    exact fits.kernel (lt_of_le_of_lt hin.1 hin.2) hf e he ⟨hlo, hhi⟩

theorem MapFits.frees (fits : MapFits b (top / 4096)) (htop : HighestEnd b top) : FreesRealMemory b := by
  intro behind s h
  obtain ⟨hT, hfree⟩ := initPMM_behind htop h
  rw [hT]
  refine ⟨fun f hf hu => ?_, fun i hi => byte_eq fun j _ => ?_⟩
  · obtain ⟨hv, ho⟩ := (hfree f).mp hu
    have hlt := lt_bits hf
    exact fits.realFrame ⟨hf, hv⟩ (ho.resolve_right fun hb => by omega)
  · have hbit : 8 * bitmapSize (top / 4096) ≤ 8 * i + j := by omega
    have hnv : ¬Visited (physKernelStart b) (physKernelEnd b (top / 4096)) (8 * i + j) := fun hv => by
      have hroom := fits.kernelRoom hv.lt
      have hle := ((visited_iff hv.lt).mp hv).2
      omega
    have hno : ¬OfferedFrame b (8 * i + j) := fun ho => by
      obtain ⟨e, he, -, hle⟩ := offeredFrame_iff.mp ho
      have hroom := fits.room e he
      omega
    have hiff : testBit s.bitmap (8 * i + j) = false ↔ testBit behind (8 * i + j) = false := by
      rw [show testBit s.bitmap (8 * i + j) = s.used (8 * i + j) from rfl, hfree]
      simp only [hnv, hno, hbit, not_false_eq_true, true_and, false_or]
    cases hs : testBit s.bitmap (8 * i + j) with
    | false => exact (hiff.mp hs).symm
    | true =>
      cases hb : testBit behind (8 * i + j) with
      | false => exact absurd (hiff.mpr hb) (by rw [hs]; exact nofun)
      | true => rfl

/-- A frame behind the bitmap that a pass visits is written. -/
theorem FreesRealMemory.not_visited (hreal : FreesRealMemory b) (htop : HighestEnd b top)
    (h : initPMM b = some s) {f : ℕ} (hf : 8 * bitmapSize (top / 4096) ≤ f) :
    ¬Visited (physKernelStart b) (physKernelEnd b (top / 4096)) f ∧ ¬OfferedFrame b f := by
  have hkeep : ∀ behind : Bits, ∃ s' : Pmm, (∀ f, s'.used f = false ↔
      ¬Visited (physKernelStart b) (physKernelEnd b (top / 4096)) f ∧
        (OfferedFrame b f ∨ 8 * bitmapSize (top / 4096) ≤ f ∧ testBit behind f = false)) ∧
      s'.used f = testBit behind f := by
    intro behind
    obtain ⟨s', hs'⟩ := initPMM_returns h behind
    obtain ⟨hT, hfree⟩ := initPMM_behind htop hs'
    have hbyte := (hreal behind s' hs').2 (f / 8) (by rw [hT]; omega)
    refine ⟨s', hfree, ?_⟩
    change testBit s'.bitmap f = _
    rw [testBit_eq, testBit_eq, hbyte]
  have hnv : ¬Visited (physKernelStart b) (physKernelEnd b (top / 4096)) f := by
    obtain ⟨s', hfree, hsame⟩ := hkeep fun _ => 0
    have h0 : testBit (fun _ => 0) f = false := by simp [testBit]
    exact ((hfree f).mp (hsame.trans h0)).1
  refine ⟨hnv, fun ho => ?_⟩
  obtain ⟨s', hfree, hsame⟩ := hkeep fun _ => 0xFF
  rw [(hfree f).mpr ⟨hnv, .inl ho⟩, testBit_ones] at hsame
  cases hsame

theorem FreesRealMemory.fits (hreal : FreesRealMemory b) (htop : HighestEnd b top) (h : initPMM b = some s) :
    MapFits b (top / 4096) := by
  obtain ⟨hT, hfree⟩ := @initPMM_behind b s top b.behindKernel htop h
  have hframe : ∀ {e f}, Offered b e → e.addr / 4096 ≤ f → f ≤ lastVisited e.addr e.stop →
      Claimable b (top / 4096) f → RealFrame b (top / 4096) f := by
    intro e f he hlo hhi hf
    have hr := (hreal b.behindKernel s h).1 f (hT ▸ hf.1) ((hfree f).mpr ⟨hf.2, .inl (offeredFrame_iff.mpr
      ⟨e, he, hlo, hhi⟩)⟩)
    rwa [hT] at hr
  have hle : ∀ e : MmapEntry, e.addr / 4096 ≤ lastVisited e.addr e.stop := fun e => Nat.le_add_right ..
  refine ⟨fun e he hf a ha _ => ?_, fun e he hf a ha _ => ?_, fun e he a hlo hhi hf => ?_, fun hlt hf e he hin => ?_,
    fun e he => ?_, fun hlt => ?_⟩
  · exact (hframe he le_rfl (hle e) hf).available a ha
  · exact (hframe he (hle e) le_rfl hf).available a ha
  · exact (hframe he hlo hhi hf).pure a rfl
  · exact (hframe he hin.1 hin.2 hf).unused _ rfl ⟨by omega, by omega⟩
  · by_contra hroom
    exact (hreal.not_visited htop h (not_lt.mp hroom)).2 (offeredFrame_iff.mpr ⟨e, he, hle e, le_rfl⟩)
  · by_contra hroom
    exact (hreal.not_visited htop h (not_lt.mp hroom)).1 ((visited_iff hlt).mpr ⟨Nat.le_add_right .., le_rfl⟩)

end Outcome

/-- Only whole frames of available memory are left free, and only the bitmap is written, exactly when the memory map
fits the pages. -/
theorem init_PMM_frees_real_memory_iff {b : BootState} {s : Pmm} (h : initPMM b = some s) :
    FreesRealMemory b ↔ ∀ top, HighestEnd b top → MapFits b (top / 4096) := by
  constructor
  · exact fun hreal top htop => hreal.fits htop h
  · intro hall
    obtain ⟨top, htop, -⟩ := initPMM_spec h
    exact (hall top htop).frees htop

/-- A boot block at `0x9000` with one available entry of `len` bytes from 1 MB on, and the
kernel in its first page. -/
def oneEntryBoot (len : ℕ) : BootState where
  info :=
    let tag := kernelOffset + 0x9008
    let m : Memory := store32 (fun _ => 0) (kernelOffset + 0x9000) 56
    let m := store32 (store32 (store32 m tag 6) (tag + 4) 40) (tag + 8) 24
    let m := store32 (store64 (store64 m (tag + 16) 0x100000) (tag + 24) len) (tag + 32) 1
    ⟨m, 0x9000⟩
  kernelStart := kernelOffset + 0x100000
  kernelEnd := kernelOffset + 0x101000
  behindKernel := fun _ => 0xFF

lemma oneEntryBoot_tags : TagList (oneEntryBoot 0x20000).info.mem (oneEntryBoot 0x20000).info.firstTag
    [kernelOffset + 0x9008] := by
  have hend : tagType (oneEntryBoot 0x20000).info.mem (nextTag (oneEntryBoot 0x20000).info.mem
      (oneEntryBoot 0x20000).info.firstTag) = multibootTagTypeEnd := by decide +kernel
  refine ⟨?_, ?_, hend⟩
  all_goals decide +kernel

lemma oneEntryBoot_list : mmapEntries (oneEntryBoot 0x20000).info.mem (kernelOffset + 0x9008) =
    some [⟨0x100000, 0x20000, 1⟩] := by decide +kernel

lemma oneEntryBoot_entry {e : MmapEntry} (h : (oneEntryBoot 0x20000).info.IsEntry e) : e = ⟨0x100000, 0x20000, 1⟩ := by
  obtain ⟨t, ⟨ts, hts, ht⟩, -, es, hes, he⟩ := h
  obtain rfl := hts.unique oneEntryBoot_tags
  obtain rfl := List.mem_singleton.mp ht
  obtain rfl := Option.some.inj (hes.symm.trans oneEntryBoot_list)
  exact List.mem_singleton.mp he

theorem oneEntryBoot_fits : MapFits (oneEntryBoot 0x20000) 0x120 := by
  have hkernel : physKernelStart (oneEntryBoot 0x20000) = 0x100000 ∧
      physKernelEnd (oneEntryBoot 0x20000) 0x120 = 0x101024 := by decide
  have hlast : lastVisited 0x100000 (MmapEntry.stop ⟨0x100000, 0x20000, 1⟩) = 0x11F := by decide
  have hbits : bitmapSize 0x120 = 36 := by decide
  refine ⟨fun e he _ a ha hlt => ?_, fun e he _ a ha hle => ?_, fun e _ a _ _ _ ho => ?_, fun hlt hf e _ _ => ?_,
    fun e he => ?_, fun _ => ?_⟩
  · obtain rfl := oneEntryBoot_entry he.entry
    dsimp only at ha hlt
    omega
  · obtain rfl := oneEntryBoot_entry he.entry
    have hstop : MmapEntry.stop ⟨0x100000, 0x20000, 1⟩ = 0x120000 := by decide
    rw [hstop] at hle
    rw [hlast] at ha
    omega
  · obtain ⟨x, hx, hne, -⟩ := ho
    obtain rfl := oneEntryBoot_entry hx
    exact hne rfl
  · refine hf.2 ((visited_iff hlt).mpr ?_)
    rw [hkernel.1, hkernel.2]
    decide
  · obtain rfl := oneEntryBoot_entry he.entry
    rw [hlast, hbits]
    decide
  · rw [hkernel.1, hkernel.2, hbits]
    decide

theorem init_PMM_frees_real_memory_iff_one_entry : FreesRealMemory (oneEntryBoot 0x20000) := by
  obtain ⟨s, hs⟩ : ∃ s, initPMM (oneEntryBoot 0x20000) = some s := by
    refine Option.isSome_iff_exists.mp ?_
    decide +kernel
  refine (init_PMM_frees_real_memory_iff hs).mpr fun top htop => ?_
  have hstop : top = 0x120000 := by
    rcases htop.2 with rfl | ⟨e, he, -, rfl⟩
    · have hentry : (oneEntryBoot 0x20000).info.IsEntry ⟨0x100000, 0x20000, 1⟩ :=
        ⟨_, ⟨_, oneEntryBoot_tags, List.mem_singleton_self _⟩, by decide +kernel, _, oneEntryBoot_list,
          List.mem_singleton_self _⟩
      exact absurd (htop.1 _ hentry rfl) (by decide)
    · rw [oneEntryBoot_entry he]
      decide
  rw [hstop]
  exact oneEntryBoot_fits

/-- An entry that ends inside a page behind the bitmap's last bit: the byte behind the bitmap is
written. -/
theorem init_PMM_writes_behind_bitmap : ¬FreesRealMemory (oneEntryBoot 0x20800) := by
  intro hreal
  have hrun : (initPMM (oneEntryBoot 0x20800)).map (fun s => (s.totalPages, s.bitmap 36)) = some (0x120, 0xFE) := by
    decide +kernel
  obtain ⟨s, hs, hp⟩ := Option.map_eq_some_iff.mp hrun
  obtain ⟨hT, hbyte⟩ := Prod.mk.inj hp
  have hkeep := (hreal _ s hs).2 36 (by rw [hT]; decide)
  rw [hbyte] at hkeep
  exact absurd hkeep (by decide)

end PointerOS
