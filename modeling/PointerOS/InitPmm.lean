import PointerOS.BootBlock

/-!
# `init_PMM`

The first pass over the memory map finds the highest available address, the
bitmap is filled with ones, the second pass clears the frames of the available
entries from 1 MB on, and last the frames of the kernel image and of the bitmap
are set again. `FreeFrame` states the outcome on the boot block alone.
-/
namespace PointerOS
open ByteMemory Bitmap

/-- `for (addr = start; addr < stop; addr += PAGE_SIZE_4KB) op(addr / PAGE_SIZE_4KB)`.
When `addr` wraps the loop never ends, and `2 ^ 53` turns are enough to tell. -/
def forFrames (op : Bits → ℕ → Bits) (stop : ℕ) : ℕ → ℕ → Bits → Option Bits
  | 0, _, _ => none
  | n + 1, addr, m =>
    if addr < stop then forFrames op stop n ((addr + 4096) % 2 ^ 64) (op m (addr / 4096)) else some m

def frameTurns : ℕ := 2 ^ 53

/-- The body of the first pass. -/
def highestPass (mem : Memory) (maxAddr tag : ℕ) : Option ℕ :=
  if tagType mem tag = multibootTagTypeMmap then
    (mmapEntries mem tag).map fun es => es.foldl (fun maxAddr e =>
      if e.type = multibootMemoryAvailable then if maxAddr < e.stop then e.stop else maxAddr
      else maxAddr) maxAddr
  else some maxAddr

def clearEntry (m : Bits) (e : MmapEntry) : Option Bits :=
  if e.type = multibootMemoryAvailable ∧ 0x100000 ≤ e.addr then forFrames clrBit e.stop frameTurns e.addr m
  else some m

/-- The body of the second pass. -/
def clearPass (mem : Memory) (m : Bits) (tag : ℕ) : Option Bits :=
  if tagType mem tag = multibootTagTypeMmap then (mmapEntries mem tag).bind fun es => es.foldlM clearEntry m
  else some m

/-- It is `none` where a loop never ends, and where the block or the bitmap is not seen, or the block lies under
the bitmap. -/
def initPMM (b : BootState) : Option Pmm :=
  (forTags b.info.mem (highestPass b.info.mem) tagTurns b.info.firstTag 0).bind fun maxAddr =>
  let totalPages := maxAddr / 4096
  if bootSeen b totalPages then
    let m := fill b.behindKernel 0 (bitmapSize totalPages) 0xFF
    (forTags b.info.mem (clearPass b.info.mem) tagTurns b.info.firstTag m).bind fun m =>
    (forFrames setBit (physKernelEnd b totalPages) frameTurns (physKernelStart b) m).map fun m =>
    ⟨m, totalPages⟩
  else none

/-! ## What `init_PMM` leaves free -/

/-- The highest end of an available entry, or 0. -/
def HighestEnd (b : BootState) (top : ℕ) : Prop :=
  (∀ e, b.info.IsEntry e → e.type = multibootMemoryAvailable → e.stop ≤ top) ∧
  (top = 0 ∨ ∃ e, b.info.IsEntry e ∧ e.type = multibootMemoryAvailable ∧ e.stop = top)

/-- A frame outside the kernel image and the bitmap that the memory map offers, or
that lies behind the bitmap where memory happens to hold a zero bit. -/
def FreeFrame (b : BootState) (totalPages f : ℕ) : Prop :=
  ¬ Visited (physKernelStart b) (physKernelEnd b totalPages) f ∧
  (OfferedFrame b f ∨ 8 * bitmapSize totalPages ≤ f ∧ testBit b.behindKernel f = false)

/-- A page loop that ends writes the frames it visits. -/
theorem forFrames_bits {op : Bits → ℕ → Bits} {v : Bool}
    (hop : ∀ m a b, testBit (op m a) b = if b = a then v else testBit m b) {stop : ℕ} (n start : ℕ)
    {m m' : Bits} (hstart : start < 2 ^ 64)
    (h : forFrames op stop n start m = some m') (f : ℕ) :
    (Visited start stop f → testBit m' f = v) ∧ (¬ Visited start stop f → testBit m' f = testBit m f) := by
  -- the last address below `2 ^ 64` with the offset of `start` ends the loop
  have hwrap : stop ≤ 2 ^ 64 - 4096 + start % 4096 := by
    by_contra hcon
    have hloop : ∀ n a m, a < 2 ^ 64 → a % 4096 = start % 4096 → forFrames op stop n a m = none := by
      intro n
      induction n with
      | zero => intro a m _ _; rfl
      | succ n ih =>
        intro a m ha hmod
        rw [forFrames, if_pos (by omega)]
        exact ih _ _ (Nat.mod_lt _ (by norm_num)) (by omega)
    rw [hloop n start m hstart rfl] at h
    cases h
  induction n generalizing start m with
  | zero => cases h
  | succ n ih =>
    rw [forFrames] at h
    split_ifs at h with hlt
    · have hnext : (start + 4096) % 2 ^ 64 = start + 4096 := Nat.mod_eq_of_lt (by omega)
      rw [hnext] at h
      have hvis : Visited start stop f ↔ f = start / 4096 ∨ Visited (start + 4096) stop f := by
        constructor
        · rintro ⟨k, hk, rfl⟩
          cases k with
          | zero => exact Or.inl (by simp)
          | succ k => exact Or.inr ⟨k, by omega, by rw [show start + 4096 + 4096 * k = start + 4096 * (k + 1) by ring]⟩
        · rintro (rfl | ⟨k, hk, rfl⟩)
          · exact ⟨0, by omega, by simp⟩
          · exact ⟨k + 1, by omega, by rw [show start + 4096 + 4096 * k = start + 4096 * (k + 1) by ring]⟩
      obtain ⟨h1, h2⟩ := ih (start + 4096) (by omega) h (by omega)
      rw [hvis]
      by_cases hv : Visited (start + 4096) stop f
      · exact ⟨fun _ => h1 hv, fun hn => absurd (Or.inr hv) hn⟩
      · rw [h2 hv, hop]
        constructor
        · rintro (hf | hf)
          · rw [if_pos hf]
          · exact absurd hf hv
        · intro hn
          rw [if_neg (fun hf => hn (Or.inl hf))]
    · obtain rfl := Option.some.inj h
      refine ⟨?_, fun _ => rfl⟩
      rintro ⟨k, hk, _⟩
      omega

/-- Steps that each clear some bits clear their union. -/
theorem foldlM_bits {α : Type*} {g : Bits → α → Option Bits} {P : α → ℕ → Prop}
    (hg : ∀ m x m', g m x = some m' → ∀ f, testBit m' f = true ↔ testBit m f = true ∧ ¬ P x f)
    (xs : List α) {m m' : Bits} (h : xs.foldlM g m = some m') (f : ℕ) :
    testBit m' f = true ↔ testBit m f = true ∧ ¬ ∃ x ∈ xs, P x f := by
  induction xs generalizing m with
  | nil =>
    obtain rfl := Option.some.inj h
    simp
  | cons x xs ih =>
    rw [List.foldlM_cons] at h
    obtain ⟨m₁, h₁, h₂⟩ := Option.bind_eq_some_iff.mp h
    rw [ih h₂, hg m x m₁ h₁]
    simp only [List.mem_cons, exists_eq_or_imp, not_or, and_assoc]

lemma clrBit_bits (m : Bits) (a b : ℕ) : testBit (clrBit m a) b = if b = a then false else testBit m b := by
  rw [testBit_clrBit]
  by_cases hb : b = a <;> simp [hb]

lemma setBit_bits (m : Bits) (a b : ℕ) : testBit (setBit m a) b = if b = a then true else testBit m b := by
  rw [testBit_setBit]
  by_cases hb : b = a <;> simp [hb]

lemma mmapEntry_addr_lt {mem : Memory} {t : ℕ} {es : List MmapEntry} (h : mmapEntries mem t = some es)
    {e : MmapEntry} (he : e ∈ es) : e.addr < 2 ^ 64 := by
  rw [mmapEntries] at h
  split_ifs at h
  obtain rfl := Option.some.inj h
  obtain ⟨i, _, rfl⟩ := List.mem_map.mp he
  exact load64_lt _ _

/-! ## The two passes -/

section Ends
variable (p : MmapEntry → Prop) [DecidablePred p]

/-- A pass that finds the highest end of the entries with `p`. -/
def endPass (mem : Memory) (maxAddr tag : ℕ) : Option ℕ :=
  if tagType mem tag = multibootTagTypeMmap then
    (mmapEntries mem tag).map fun es => es.foldl (fun maxAddr e =>
      if p e then if maxAddr < e.stop then e.stop else maxAddr else maxAddr) maxAddr
  else some maxAddr

variable {p}

lemma highest_entries (es : List MmapEntry) (top : ℕ) :
    ∃ r, es.foldl (fun maxAddr e => if p e then if maxAddr < e.stop then e.stop else maxAddr else maxAddr) top = r ∧
      top ≤ r ∧ (∀ e ∈ es, p e → e.stop ≤ r) ∧ (r = top ∨ ∃ e ∈ es, p e ∧ e.stop = r) := by
  induction es generalizing top with
  | nil => exact ⟨top, rfl, le_rfl, by simp, Or.inl rfl⟩
  | cons e es ih =>
    rw [List.foldl_cons]
    obtain ⟨r, hr, hle, hall, hex⟩ := ih (if p e then if top < e.stop then e.stop else top else top)
    refine ⟨r, hr, ?_, ?_, ?_⟩
    · split_ifs at hle <;> omega
    · rintro x (_ | ⟨_, hx⟩) hav
      · rw [if_pos hav] at hle
        split_ifs at hle <;> omega
      · exact hall x hx hav
    · rcases hex with hex | ⟨x, hx, hav, hxs⟩
      · split_ifs at hex with hav hlt
        · exact Or.inr ⟨e, by simp, hav, hex.symm⟩
        · exact Or.inl hex
        · exact Or.inl hex
      · exact Or.inr ⟨x, by simp [hx], hav, hxs⟩

/-- An entry of one of the tags `ts`. -/
def EntryOf (mem : Memory) (ts : List ℕ) (e : MmapEntry) : Prop :=
  ∃ t ∈ ts, tagType mem t = multibootTagTypeMmap ∧ ∃ es, mmapEntries mem t = some es ∧ e ∈ es

theorem isEntry_iff {b : BootInfo} {ts : List ℕ} (hts : TagList b.mem b.firstTag ts) {e : MmapEntry} :
    b.IsEntry e ↔ EntryOf b.mem ts e := by
  constructor
  · rintro ⟨t, ⟨us, hus, htu⟩, hrest⟩
    obtain rfl := hts.unique hus
    exact ⟨t, htu, hrest⟩
  · rintro ⟨t, ht, hrest⟩
    exact ⟨t, ⟨ts, hts, ht⟩, hrest⟩

theorem endPass_spec {mem : Memory} (ts : List ℕ) {top r : ℕ} (h : ts.foldlM (endPass p mem) top = some r) :
    top ≤ r ∧ (∀ e, EntryOf mem ts e → p e → e.stop ≤ r) ∧ (r = top ∨ ∃ e, EntryOf mem ts e ∧ p e ∧ e.stop = r) := by
  induction ts generalizing top with
  | nil =>
    obtain rfl := Option.some.inj h
    refine ⟨le_rfl, ?_, Or.inl rfl⟩
    rintro e ⟨t, ht, _⟩
    cases ht
  | cons t ts ih =>
    rw [List.foldlM_cons] at h
    obtain ⟨mid, hmid, hrest⟩ := Option.bind_eq_some_iff.mp h
    obtain ⟨hle, hall, hex⟩ := ih hrest
    have hmore : ∀ e, EntryOf mem ts e → EntryOf mem (t :: ts) e := by
      rintro e ⟨u, hu, hrest⟩
      exact ⟨u, by simp [hu], hrest⟩
    rw [endPass] at hmid
    by_cases ht : tagType mem t = multibootTagTypeMmap
    · rw [if_pos ht] at hmid
      obtain ⟨es, hes, hfold⟩ := Option.map_eq_some_iff.mp hmid
      obtain ⟨q, hq, hle', hall', hex'⟩ := highest_entries (p := p) es top
      obtain rfl : q = mid := hq.symm.trans hfold
      refine ⟨hle'.trans hle, ?_, ?_⟩
      · rintro e ⟨u, hu, hut, us, hus, heu⟩ hav
        rcases List.mem_cons.mp hu with rfl | hu
        · obtain rfl := Option.some.inj (hes.symm.trans hus)
          exact (hall' e heu hav).trans hle
        · exact hall e ⟨u, hu, hut, us, hus, heu⟩ hav
      · rcases hex with rfl | ⟨e, he, hav, hst⟩
        · rcases hex' with rfl | ⟨e, he, hav, hst⟩
          · exact Or.inl rfl
          · exact Or.inr ⟨e, ⟨t, by simp, ht, es, hes, he⟩, hav, hst⟩
        · exact Or.inr ⟨e, hmore e he, hav, hst⟩
    · rw [if_neg ht] at hmid
      obtain rfl := Option.some.inj hmid
      refine ⟨hle, ?_, hex.imp_right fun ⟨e, he, hrest⟩ => ⟨e, hmore e he, hrest⟩⟩
      rintro e ⟨u, hu, hut, hrest⟩ hav
      rcases List.mem_cons.mp hu with rfl | hu
      · exact absurd hut ht
      · exact hall e ⟨u, hu, hut, hrest⟩ hav

end Ends

lemma clearEntry_bits {m m' : Bits} {e : MmapEntry} (haddr : e.addr < 2 ^ 64)
    (h : clearEntry m e = some m') (f : ℕ) :
    testBit m' f = true ↔ testBit m f = true ∧
      ¬ (e.type = multibootMemoryAvailable ∧ 0x100000 ≤ e.addr ∧ Visited e.addr e.stop f) := by
  rw [clearEntry] at h
  split_ifs at h with hav
  · obtain ⟨h1, h2⟩ := forFrames_bits clrBit_bits frameTurns e.addr haddr h f
    by_cases hv : Visited e.addr e.stop f
    · simp [h1 hv, hav.1, hav.2, hv]
    · simp [h2 hv, hv]
  · obtain rfl := Option.some.inj h
    have hno : ¬ (e.type = multibootMemoryAvailable ∧ 0x100000 ≤ e.addr ∧ Visited e.addr e.stop f) :=
      fun hc => hav ⟨hc.1, hc.2.1⟩
    simp [hno]

/-- The second pass clears the frames the tags offer. -/
theorem clearPass_bits {mem : Memory} (ts : List ℕ) {m m' : Bits}
    (h : ts.foldlM (clearPass mem) m = some m') (f : ℕ) :
    testBit m' f = true ↔ testBit m f = true ∧ ¬ ∃ e, EntryOf mem ts e ∧
      e.type = multibootMemoryAvailable ∧ 0x100000 ≤ e.addr ∧ Visited e.addr e.stop f := by
  let P : ℕ → ℕ → Prop := fun t f => tagType mem t = multibootTagTypeMmap ∧ ∃ es,
    mmapEntries mem t = some es ∧ ∃ e ∈ es, e.type = multibootMemoryAvailable ∧ 0x100000 ≤ e.addr ∧
      Visited e.addr e.stop f
  have hstep : ∀ m t m', clearPass mem m t = some m' → ∀ f,
      testBit m' f = true ↔ testBit m f = true ∧ ¬ P t f := by
    intro m t m' hc f
    rw [clearPass] at hc
    split_ifs at hc with ht
    · obtain ⟨es, hes, hfold⟩ := Option.bind_eq_some_iff.mp hc
      have hP : P t f ↔ ∃ e ∈ es, e.addr < 2 ^ 64 ∧ e.type = multibootMemoryAvailable ∧
          0x100000 ≤ e.addr ∧ Visited e.addr e.stop f := by
        constructor
        · rintro ⟨_, us, hus, e, he, hrest⟩
          obtain rfl := Option.some.inj (hes.symm.trans hus)
          exact ⟨e, he, mmapEntry_addr_lt hes he, hrest⟩
        · rintro ⟨e, he, _, hrest⟩
          exact ⟨ht, es, hes, e, he, hrest⟩
      rw [hP]
      have haddr : ∀ e ∈ es, e.addr < 2 ^ 64 := fun e he => mmapEntry_addr_lt hes he
      clear hes hP hc
      induction es generalizing m with
      | nil =>
        obtain rfl := Option.some.inj hfold
        simp
      | cons e es ih =>
        rw [List.foldlM_cons] at hfold
        obtain ⟨m₁, h₁, h₂⟩ := Option.bind_eq_some_iff.mp hfold
        have he := haddr e (by simp)
        have hrest := ih m₁ h₂ (fun x hx => haddr x (by simp [hx]))
        refine Iff.trans hrest ?_
        rw [clearEntry_bits he h₁]
        simp only [List.mem_cons, exists_eq_or_imp, not_or, and_assoc, he, true_and]
    · obtain rfl := Option.some.inj hc
      have hP : ¬ P t f := fun hc => ht hc.1
      simp [hP]
  rw [foldlM_bits hstep ts h f]
  have hiff : (∃ t ∈ ts, P t f) ↔ ∃ e, EntryOf mem ts e ∧ e.type = multibootMemoryAvailable ∧
      0x100000 ≤ e.addr ∧ Visited e.addr e.stop f := by
    constructor
    · rintro ⟨t, ht, htt, es, hes, e, he, hrest⟩
      exact ⟨e, ⟨t, ht, htt, es, hes, he⟩, hrest⟩
    · rintro ⟨e, ⟨t, ht, htt, es, hes, he⟩, hrest⟩
      exact ⟨t, ht, htt, es, hes, e, he, hrest⟩
  rw [hiff]

lemma testBit_fill (m : Bits) (n f : ℕ) : testBit (fill m 0 n 0xFF) f = (decide (f < 8 * n) || testBit m f) := by
  rw [testBit_eq, testBit_eq, fill]
  by_cases hf : f < 8 * n
  · rw [if_pos ⟨Nat.zero_le _, by omega⟩]
    have h255 : (0xFF : UInt8).toNat = 2 ^ 8 - 1 := rfl
    rw [h255, Nat.testBit_two_pow_sub_one]
    simp [hf, Nat.mod_lt]
  · rw [if_neg (by omega)]
    simp [hf]

lemma testBit_ones (f : ℕ) : testBit (fun _ => 0xFF) f = true := by
  rw [testBit_eq, show (0xFF : UInt8).toNat = 2 ^ 8 - 1 from rfl, Nat.testBit_two_pow_sub_one]
  simp [Nat.mod_lt]

/-- When `init_PMM` returns, `total_pages` and the free frames are what the boot
block says. -/
theorem initPMM_spec {b : BootState} {s : Pmm} (h : initPMM b = some s) :
    ∃ top, HighestEnd b top ∧ s.totalPages = top / 4096 ∧
      ∀ f, s.used f = false ↔ FreeFrame b (top / 4096) f := by
  rw [initPMM] at h
  obtain ⟨top, htop, h⟩ := Option.bind_eq_some_iff.mp h
  dsimp only at h
  split_ifs at h
  obtain ⟨m₁, hm₁, h⟩ := Option.bind_eq_some_iff.mp h
  obtain ⟨m₂, hm₂, rfl⟩ := Option.map_eq_some_iff.mp h
  obtain ⟨ts, hts, hfold⟩ := forTags_eq_foldlM _ _ htop
  obtain ⟨us, hus, hclear⟩ := forTags_eq_foldlM _ _ hm₁
  obtain rfl := hts.unique hus
  have hentry : ∀ e, b.info.IsEntry e ↔ EntryOf b.info.mem ts e := fun _ => isEntry_iff hts
  have hfold' : ts.foldlM (endPass (fun e => e.type = multibootMemoryAvailable) b.info.mem) 0 = some top := hfold
  obtain ⟨_, hall, hex⟩ := endPass_spec ts hfold'
  refine ⟨top, ⟨fun e he => hall e ((hentry e).mp he), ?_⟩, rfl, fun f => ?_⟩
  · exact hex.imp_right fun ⟨e, he, hrest⟩ => ⟨e, (hentry e).mpr he, hrest⟩
  · have hbits := clearPass_bits ts hclear f
    have hoffer : OfferedFrame b f ↔ ∃ e, EntryOf b.info.mem ts e ∧ e.type = multibootMemoryAvailable ∧
        0x100000 ≤ e.addr ∧ Visited e.addr e.stop f := by
      simp only [OfferedFrame, hentry]
    obtain ⟨hin, hout⟩ := forFrames_bits setBit_bits frameTurns (physKernelStart b)
      (Nat.mod_lt _ (by norm_num)) hm₂ f
    rw [← hoffer, testBit_fill] at hbits
    change testBit m₂ f = false ↔ _
    rw [FreeFrame]
    by_cases hv : Visited (physKernelStart b) (physKernelEnd b (top / 4096)) f
    · simp [hin hv, hv]
    · rw [hout hv, ← Bool.not_eq_true, hbits]
      by_cases ho : OfferedFrame b f
      · simp [hv, ho]
      · simp [hv, ho]

/-! ## When `init_PMM` returns -/

/-- A list of tags with memory maps that can be read, whose entries end at `limit` or before. -/
structure EndsBelow (b : BootInfo) (ts : List ℕ) (limit : ℕ) : Prop where
  tags : TagList b.mem b.firstTag ts
  sized : ∀ t ∈ ts, tagType b.mem t = multibootTagTypeMmap → load32 b.mem (t + 8) ≠ 0
  ends : ∀ e, b.IsEntry e → e.addr + e.len ≤ limit

theorem EndsBelow.entries {b : BootInfo} {ts : List ℕ} {limit t : ℕ} (h : EndsBelow b ts limit) (ht : t ∈ ts)
    (hm : tagType b.mem t = multibootTagTypeMmap) : ∃ es, mmapEntries b.mem t = some es ∧ ∀ e ∈ es, b.IsEntry e := by
  have hes : mmapEntries b.mem t = some _ := if_neg (h.sized t ht hm)
  exact ⟨_, hes, fun e he => ⟨t, ⟨ts, h.tags, ht⟩, hm, _, hes, he⟩⟩

theorem endPass_ends {b : BootInfo} {ts : List ℕ} {limit : ℕ} (h : EndsBelow b ts limit) (p : MmapEntry → Prop)
    [DecidablePred p] : ∃ r, forTags b.mem (endPass p b.mem) tagTurns b.firstTag 0 = some r := by
  refine forTags_ends 0 h.tags h.tags.length_lt fun st t ht => ?_
  rw [endPass]
  split_ifs with hm
  · obtain ⟨es, hes, -⟩ := h.entries ht hm
    exact ⟨_, congrArg (Option.map _) hes⟩
  · exact ⟨st, rfl⟩

/-- The highest end of the entries with `p`, or 0. -/
def HighestOf (b : BootInfo) (p : MmapEntry → Prop) (top : ℕ) : Prop :=
  (∀ e, b.IsEntry e → p e → e.stop ≤ top) ∧ (top = 0 ∨ ∃ e, b.IsEntry e ∧ p e ∧ e.stop = top)

theorem HighestOf.unique {b : BootInfo} {p : MmapEntry → Prop} {top top' : ℕ} (h : HighestOf b p top)
    (h' : HighestOf b p top') : top = top' := by
  have hle : ∀ {x y}, HighestOf b p x → HighestOf b p y → x ≤ y := by
    intro x y hx hy
    rcases hx.2 with rfl | ⟨e, he, hpe, rfl⟩
    · exact Nat.zero_le _
    · exact hy.1 e he hpe
  exact le_antisymm (hle h h') (hle h' h)

theorem EndsBelow.highest_le {b : BootInfo} {ts : List ℕ} {limit top : ℕ} {p : MmapEntry → Prop}
    (h : EndsBelow b ts limit) (htop : HighestOf b p top) : top ≤ limit := by
  rcases htop.2 with rfl | ⟨e, he, -, rfl⟩
  · exact Nat.zero_le _
  · exact (Nat.mod_le _ _).trans (h.ends e he)

theorem endPass_highest {b : BootInfo} {r : ℕ} {p : MmapEntry → Prop} [DecidablePred p]
    (hr : forTags b.mem (endPass p b.mem) tagTurns b.firstTag 0 = some r) : HighestOf b p r := by
  obtain ⟨us, hus, hfold⟩ := forTags_eq_foldlM _ _ hr
  obtain ⟨-, hall, hex⟩ := endPass_spec us hfold
  refine ⟨fun e he => hall e ((isEntry_iff hus).mp he), ?_⟩
  exact hex.imp_right fun ⟨e, he, hrest⟩ => ⟨e, (isEntry_iff hus).mpr he, hrest⟩

theorem forFrames_endsFrom (op : Bits → ℕ → Bits) {stop : ℕ} (hstop : stop + 4096 ≤ 2 ^ 64) (n start : ℕ) (m : Bits)
    (hn : stop ≤ start + 4096 * n) : ∃ m', forFrames op stop (n + 1) start m = some m' := by
  induction n generalizing start m with
  | zero => exact ⟨m, if_neg (by omega)⟩
  | succ n ih =>
    rw [forFrames]
    split_ifs with hlt
    · rw [Nat.mod_eq_of_lt (by omega)]
      exact ih _ _ (by omega)
    · exact ⟨m, rfl⟩

theorem forFrames_ends (op : Bits → ℕ → Bits) {stop : ℕ} (hstop : stop ≤ 2 ^ 63) (start : ℕ) (m : Bits) :
    ∃ m', forFrames op stop frameTurns start m = some m' := by
  have hturns : frameTurns = 2 ^ 53 - 1 + 1 := rfl
  rw [hturns]
  exact forFrames_endsFrom op (by omega) _ _ _ (by omega)

/-- `init_PMM` returns when the entries end at 64 TB or below, the kernel lies in the last 2 GB, and the block
and the bitmap are seen. -/
theorem initPMM_ends {b : BootState} {ts : List ℕ} (h : EndsBelow b.info ts (2 ^ 46))
    (hk : kernelOffset ≤ b.kernelEnd ∧ b.kernelEnd < 2 ^ 64)
    (hseen : ∀ top, HighestEnd b top → BootSeen b (top / 4096)) : ∃ s, initPMM b = some s := by
  obtain ⟨top, htop⟩ := endPass_ends h fun e => e.type = multibootMemoryAvailable
  have hlow := h.highest_le (endPass_highest htop)
  have hblock : bootSeen b (top / 4096) = true :=
    (bootSeen_iff h.tags fun _ ht hm => (h.entries ht hm).imp fun _ hes => hes.1).mpr
      (hseen top (endPass_highest htop))
  have htop : forTags b.info.mem (highestPass b.info.mem) tagTurns b.info.firstTag 0 = some top := htop
  obtain ⟨m, hm⟩ : ∃ m, forTags b.info.mem (clearPass b.info.mem) tagTurns b.info.firstTag
      (fill b.behindKernel 0 (bitmapSize (top / 4096)) 0xFF) = some m := by
    refine forTags_ends _ h.tags h.tags.length_lt fun m t ht => ?_
    rw [clearPass]
    split_ifs with hmap
    · obtain ⟨es, hes, hentry⟩ := h.entries ht hmap
      rw [hes, Option.bind_some]
      clear hes
      induction es generalizing m with
      | nil => exact ⟨m, rfl⟩
      | cons e es ih =>
        have hend := h.ends e (hentry e List.mem_cons_self)
        obtain ⟨m₁, hm₁⟩ : ∃ m₁, clearEntry m e = some m₁ := by
          rw [clearEntry]
          split_ifs
          · exact forFrames_ends _ ((Nat.mod_le _ _).trans (by omega)) _ _
          · exact ⟨m, rfl⟩
        rw [List.foldlM_cons, hm₁]
        exact ih m₁ fun e he => hentry e (List.mem_cons_of_mem _ he)
    · exact ⟨m, rfl⟩
  have hend : physKernelEnd b (top / 4096) ≤ 2 ^ 63 := by
    unfold physKernelEnd bitmapSize
    unfold kernelOffset at hk ⊢
    omega
  obtain ⟨m', hm'⟩ := forFrames_ends setBit hend (physKernelStart b) m
  refine ⟨⟨m', top / 4096⟩, ?_⟩
  rw [initPMM, htop, Option.bind_some]
  dsimp only
  rw [if_pos hblock, hm, Option.bind_some, hm']
  rfl

/-- Where `init_PMM` returns, the block and the bitmap are seen. -/
theorem initPMM_seen {b : BootState} {ts : List ℕ} {s : Pmm} {limit : ℕ} (hb : EndsBelow b.info ts limit)
    (h : initPMM b = some s) : BootSeen b s.totalPages := by
  rw [initPMM] at h
  obtain ⟨top, -, h⟩ := Option.bind_eq_some_iff.mp h
  dsimp only at h
  split_ifs at h with hblock
  obtain ⟨m₁, -, h⟩ := Option.bind_eq_some_iff.mp h
  obtain ⟨m₂, -, rfl⟩ := Option.map_eq_some_iff.mp h
  exact (bootSeen_iff hb.tags fun _ ht hm => (hb.entries ht hm).imp fun _ hes => hes.1).mp hblock

end PointerOS
