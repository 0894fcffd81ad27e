import PointerOS.BootInfo
import PointerOS.Pmm

/-!
# The boot block and the bitmap where `init_PMM` finds them

`boot.s` shows the first 128 MB of memory at `kernelOffset`, and nothing else. The loops over the tags
read the block through this window, and once more after `init_PMM` has begun to write the bitmap, which
lies in the window too. A tag or a byte of the bitmap that lies further up gives a page fault, and a tag
under the bitmap is overwritten before it is read again.
-/
namespace PointerOS
open ByteMemory Bitmap

/-- The boot block, the linker's symbols and the bytes behind `kernel_end`. The bitmap is an array of
its own. -/
structure BootState where
  info : BootInfo
  kernelStart : ℕ
  kernelEnd : ℕ
  behindKernel : Bits

/-- `entries[i].addr + entries[i].len` -/
def MmapEntry.stop (e : MmapEntry) : ℕ := (e.addr + e.len) % 2 ^ 64

def bitmapSize (totalPages : ℕ) : ℕ := (totalPages + 7) / 8

def physKernelStart (b : BootState) : ℕ := (b.kernelStart + 2 ^ 64 - kernelOffset) % 2 ^ 64

def physKernelEnd (b : BootState) (totalPages : ℕ) : ℕ :=
  (b.kernelEnd + bitmapSize totalPages + 2 ^ 64 - kernelOffset) % 2 ^ 64

/-! ## Frames -/

/-- The frames a page loop visits. -/
def Visited (start stop f : ℕ) : Prop := ∃ k, start + 4096 * k < stop ∧ f = (start + 4096 * k) / 4096

/-- The last page that a pass over the bytes from `start` up to `stop` visits. -/
def lastVisited (start stop : ℕ) : ℕ := start / 4096 + (stop - 1 - start) / 4096

lemma visited_iff {start stop f : ℕ} (h : start < stop) :
    Visited start stop f ↔ start / 4096 ≤ f ∧ f ≤ lastVisited start stop := by
  unfold Visited lastVisited
  constructor
  · rintro ⟨k, hk, rfl⟩
    omega
  · rintro ⟨h1, h2⟩
    exact ⟨f - start / 4096, by omega, by omega⟩

lemma Visited.lt {start stop f : ℕ} (h : Visited start stop f) : start < stop := by
  obtain ⟨k, hk, -⟩ := h
  omega

/-- A frame that the memory map offers: it is visited in an available entry from 1 MB on. -/
def OfferedFrame (b : BootState) (f : ℕ) : Prop :=
  ∃ e, b.info.IsEntry e ∧ e.type = multibootMemoryAvailable ∧ 0x100000 ≤ e.addr ∧ Visited e.addr e.stop f

/-- The bytes of the bitmap that `init_PMM` writes: it fills those of the frames below `total_pages`, and then
writes the bits of the frames that its page loops visit. -/
def BitmapByte (b : BootState) (totalPages i : ℕ) : Prop :=
  i < bitmapSize totalPages ∨ ∃ f, i = f / 8 ∧
    (OfferedFrame b f ∨ Visited (physKernelStart b) (physKernelEnd b totalPages) f)

/-! ## What is read -/

/-- The end of what the loops read of a tag: the type and the size, and the entries of a memory map. -/
def tagEnd (mem : Memory) (tag : ℕ) : ℕ :=
  if tagType mem tag = multibootTagTypeMmap then
    tag + 16 + 24 * ((tagSize mem tag + 2 ^ 64 - 16) % 2 ^ 64 / load32 mem (tag + 8))
  else tag + 8

namespace BootInfo

/-- A byte that the loops read: of a tag, or of a type that ends the list. -/
def Reads (b : BootInfo) (a : ℕ) : Prop :=
  a ∈ Set.Ico b.firstTag (b.firstTag + 4) ∨
    ∃ t, b.IsTag t ∧ (a ∈ Set.Ico t (tagEnd b.mem t) ∨ a ∈ Set.Ico (nextTag b.mem t) (nextTag b.mem t + 4))

end BootInfo

/-- The loops read the block and write the bitmap through the window, and find no byte of the block written
by `init_PMM`. -/
structure BootSeen (b : BootState) (totalPages : ℕ) : Prop where
  window : ∀ a, b.info.Reads a → kernelOffset ≤ a ∧ a < kernelOffset + 2 ^ 27
  bitmap : ∀ i, BitmapByte b totalPages i → kernelOffset ≤ b.kernelEnd + i ∧ b.kernelEnd + i < kernelOffset + 2 ^ 27
  apart : ∀ a, b.info.Reads a → ∀ i, BitmapByte b totalPages i → a ≠ b.kernelEnd + i

/-! ## The ranges -/

/-- The ranges of bytes that are read, each with its first byte and the one behind its last. -/
def readPass (mem : Memory) (spans : List (ℕ × ℕ)) (tag : ℕ) : List (ℕ × ℕ) :=
  (tag, tagEnd mem tag) :: (nextTag mem tag, nextTag mem tag + 4) :: spans

def entriesPass (mem : Memory) (es : List MmapEntry) (tag : ℕ) : Option (List MmapEntry) :=
  if tagType mem tag = multibootTagTypeMmap then (mmapEntries mem tag).map (es ++ ·) else some es

namespace BootInfo

def readSpans (b : BootInfo) : Option (List (ℕ × ℕ)) :=
  forTags b.mem (fun spans tag => some (readPass b.mem spans tag)) tagTurns b.firstTag [(b.firstTag, b.firstTag + 4)]

/-- The entries of all memory maps. -/
def entries (b : BootInfo) : Option (List MmapEntry) := forTags b.mem (entriesPass b.mem) tagTurns b.firstTag []

end BootInfo

/-- The bytes of the bits of the frames that a page loop visits. -/
def frameBytes (start stop : ℕ) : ℕ × ℕ :=
  if start < stop then (start / 4096 / 8, lastVisited start stop / 8 + 1) else (0, 0)

def bitmapSpans (b : BootState) (totalPages : ℕ) (es : List MmapEntry) : List (ℕ × ℕ) :=
  (0, bitmapSize totalPages) :: frameBytes (physKernelStart b) (physKernelEnd b totalPages) ::
    (es.filter fun e => e.type = multibootMemoryAvailable ∧ 0x100000 ≤ e.addr).map fun e => frameBytes e.addr e.stop

/-- `BootSeen`, evaluated on the ranges. -/
def bootSeen (b : BootState) (totalPages : ℕ) : Bool :=
  (b.info.readSpans.bind fun reads => b.info.entries.map fun es =>
    ((bitmapSpans b totalPages es).all fun w =>
      decide (w.1 < w.2 → kernelOffset ≤ b.kernelEnd + w.1 ∧ b.kernelEnd + w.2 ≤ kernelOffset + 2 ^ 27)) &&
    reads.all fun r => decide (kernelOffset ≤ r.1 ∧ r.2 ≤ kernelOffset + 2 ^ 27) &&
      (bitmapSpans b totalPages es).all fun w =>
        decide (min r.2 (b.kernelEnd + w.2) ≤ max r.1 (b.kernelEnd + w.1))) = some true

section Spans
variable {b : BootInfo} {ts : List ℕ}

theorem BootInfo.isTag_iff (hts : TagList b.mem b.firstTag ts) {t : ℕ} : b.IsTag t ↔ t ∈ ts := by
  constructor
  · rintro ⟨us, hus, ht⟩
    exact hts.unique hus ▸ ht
  · exact fun ht => ⟨ts, hts, ht⟩

theorem tag_lt_tagEnd (mem : Memory) (t : ℕ) : t < tagEnd mem t := by
  unfold tagEnd
  split_ifs <;> omega

theorem mem_foldl_readPass (mem : Memory) (ts : List ℕ) (spans : List (ℕ × ℕ)) (r : ℕ × ℕ) :
    r ∈ ts.foldl (readPass mem) spans ↔
      r ∈ spans ∨ ∃ t ∈ ts, r = (t, tagEnd mem t) ∨ r = (nextTag mem t, nextTag mem t + 4) := by
  induction ts generalizing spans with
  | nil => simp
  | cons t ts ih =>
    rw [List.foldl_cons, ih]
    simp only [readPass, List.mem_cons, exists_eq_or_imp]
    grind

theorem BootInfo.readSpans_eq (hts : TagList b.mem b.firstTag ts) :
    b.readSpans = some (ts.foldl (readPass b.mem) [(b.firstTag, b.firstTag + 4)]) :=
  forTags_some (readPass b.mem) _ hts hts.length_lt

/-- The bytes in the ranges are those that are read. -/
theorem BootInfo.readSpans_spec (hts : TagList b.mem b.firstTag ts) {reads : List (ℕ × ℕ)}
    (h : b.readSpans = some reads) :
    (∀ r ∈ reads, r.1 < r.2) ∧ ∀ a, b.Reads a ↔ ∃ r ∈ reads, a ∈ Set.Ico r.1 r.2 := by
  obtain rfl := Option.some.inj ((b.readSpans_eq hts).symm.trans h)
  refine ⟨fun r hr => ?_, fun a => ?_⟩
  · rcases (mem_foldl_readPass ..).mp hr with hr | ⟨t, -, rfl | rfl⟩
    · rw [List.mem_singleton.mp hr]
      exact Nat.lt_add_of_pos_right (by decide)
    · exact tag_lt_tagEnd _ t
    · exact Nat.lt_add_of_pos_right (by decide)
  · simp only [BootInfo.Reads, mem_foldl_readPass, List.mem_singleton, BootInfo.isTag_iff hts]
    constructor
    · rintro (ha | ⟨t, ht, ha | ha⟩)
      · exact ⟨_, .inl rfl, ha⟩
      · exact ⟨_, .inr ⟨t, ht, .inl rfl⟩, ha⟩
      · exact ⟨_, .inr ⟨t, ht, .inr rfl⟩, ha⟩
    · rintro ⟨r, rfl | ⟨t, ht, rfl | rfl⟩, ha⟩
      · exact .inl ha
      · exact .inr ⟨t, ht, .inl ha⟩
      · exact .inr ⟨t, ht, .inr ha⟩

theorem foldlM_entriesPass {mem : Memory} (ts : List ℕ) {es es' : List MmapEntry}
    (h : ts.foldlM (entriesPass mem) es = some es') (e : MmapEntry) :
    e ∈ es' ↔ e ∈ es ∨ ∃ t ∈ ts, tagType mem t = multibootTagTypeMmap ∧ ∃ l, mmapEntries mem t = some l ∧ e ∈ l := by
  induction ts generalizing es with
  | nil =>
    obtain rfl := Option.some.inj h
    simp
  | cons t ts ih =>
    rw [List.foldlM_cons] at h
    obtain ⟨mid, hmid, hrest⟩ := Option.bind_eq_some_iff.mp h
    rw [ih hrest]
    rw [entriesPass] at hmid
    by_cases ht : tagType mem t = multibootTagTypeMmap
    · rw [if_pos ht] at hmid
      obtain ⟨l, hl, rfl⟩ := Option.map_eq_some_iff.mp hmid
      simp [ht, hl, or_assoc]
    · rw [if_neg ht] at hmid
      obtain rfl := Option.some.inj hmid
      simp [ht]

theorem BootInfo.mem_entries_iff (hts : TagList b.mem b.firstTag ts) {es : List MmapEntry} (h : b.entries = some es)
    (e : MmapEntry) : e ∈ es ↔ b.IsEntry e := by
  obtain ⟨us, hus, hfold⟩ := forTags_eq_foldlM _ _ h
  obtain rfl := hts.unique hus
  rw [foldlM_entriesPass ts hfold e]
  simp only [BootInfo.IsEntry, BootInfo.isTag_iff hts, List.not_mem_nil, false_or]

/-- The entries are found when those of every memory map are. -/
theorem BootInfo.entries_ends (hts : TagList b.mem b.firstTag ts)
    (hmap : ∀ t ∈ ts, tagType b.mem t = multibootTagTypeMmap → ∃ l, mmapEntries b.mem t = some l) :
    ∃ es, b.entries = some es := by
  refine forTags_ends _ hts hts.length_lt fun es t ht => ?_
  rw [entriesPass]
  split_ifs with hm
  · obtain ⟨l, hl⟩ := hmap t ht hm
    exact ⟨_, congrArg (Option.map _) hl⟩
  · exact ⟨es, rfl⟩

end Spans

section Seen
variable {b : BootState} {totalPages : ℕ} {ts : List ℕ}

lemma mem_frameBytes {start stop i : ℕ} :
    i ∈ Set.Ico (frameBytes start stop).1 (frameBytes start stop).2 ↔ ∃ f, i = f / 8 ∧ Visited start stop f := by
  unfold frameBytes
  split_ifs with h
  · simp only [visited_iff h, Set.mem_Ico]
    constructor
    · rintro ⟨h1, h2⟩
      have hle : start / 4096 ≤ lastVisited start stop := Nat.le_add_right ..
      by_cases hi : i = start / 4096 / 8
      · exact ⟨start / 4096, hi, le_rfl, hle⟩
      · exact ⟨8 * i, by omega, by omega, by omega⟩
    · rintro ⟨f, rfl, h1, h2⟩
      omega
  · exact iff_of_false (fun hi => absurd hi.2 (Nat.not_lt_zero i)) fun ⟨_, _, hv⟩ => h hv.lt

theorem mem_bitmapSpans (hts : TagList b.info.mem b.info.firstTag ts) {es : List MmapEntry}
    (h : b.info.entries = some es) (i : ℕ) :
    (∃ w ∈ bitmapSpans b totalPages es, i ∈ Set.Ico w.1 w.2) ↔ BitmapByte b totalPages i := by
  have hfill : i ∈ Set.Ico 0 (bitmapSize totalPages) ↔ i < bitmapSize totalPages := by simp
  simp only [bitmapSpans, List.mem_cons, exists_eq_or_imp, List.mem_map, List.mem_filter, decide_eq_true_eq,
    exists_exists_and_eq_and, BootInfo.mem_entries_iff hts h, mem_frameBytes, hfill, BitmapByte, OfferedFrame]
  refine or_congr_right ⟨?_, ?_⟩
  · rintro (⟨f, rfl, hv⟩ | ⟨e, ⟨he, hav, hlo⟩, f, rfl, hv⟩)
    · exact ⟨f, rfl, .inr hv⟩
    · exact ⟨f, rfl, .inl ⟨e, he, hav, hlo, hv⟩⟩
  · rintro ⟨f, rfl, ⟨e, he, hav, hlo, hv⟩ | hv⟩
    · exact .inr ⟨e, ⟨he, hav, hlo⟩, f, rfl, hv⟩
    · exact .inl ⟨f, rfl, hv⟩

/-- The two ranges have no byte in common. -/
lemma min_le_max_iff {r w : ℕ × ℕ} {k : ℕ} :
    min r.2 (k + w.2) ≤ max r.1 (k + w.1) ↔ ∀ a ∈ Set.Ico r.1 r.2, ∀ i ∈ Set.Ico w.1 w.2, a ≠ k + i := by
  constructor
  · rintro h a ⟨ha, ha'⟩ i ⟨hi, hi'⟩ rfl
    omega
  · intro h
    by_contra hmeet
    obtain ⟨a, ha⟩ : ∃ a, a = max r.1 (k + w.1) := ⟨_, rfl⟩
    exact h a ⟨by omega, by omega⟩ (a - k) ⟨by omega, by omega⟩ (by omega)

theorem bootSeen_iff (hts : TagList b.info.mem b.info.firstTag ts)
    (hmap : ∀ t ∈ ts, tagType b.info.mem t = multibootTagTypeMmap → ∃ l, mmapEntries b.info.mem t = some l) :
    bootSeen b totalPages = true ↔ BootSeen b totalPages := by
  obtain ⟨es, hes⟩ := BootInfo.entries_ends hts hmap
  obtain ⟨reads, hreads⟩ : ∃ reads, b.info.readSpans = some reads := ⟨_, BootInfo.readSpans_eq hts⟩
  obtain ⟨hlt, hbytes⟩ := BootInfo.readSpans_spec hts hreads
  simp only [bootSeen, hreads, hes, Option.bind_some, Option.map_some, Option.some.injEq, decide_eq_true_eq,
    List.all_eq_true, Bool.and_eq_true, min_le_max_iff]
  constructor
  · rintro ⟨hbits, h⟩
    refine ⟨fun a ha => ?_, fun i hi => ?_, fun a ha i hi => ?_⟩
    · obtain ⟨r, hr, ha⟩ := (hbytes a).mp ha
      obtain ⟨hlow, hhigh⟩ := (h r hr).1
      exact ⟨hlow.trans ha.1, ha.2.trans_le hhigh⟩
    · obtain ⟨w, hw, hi, hi'⟩ := (mem_bitmapSpans hts hes i).mpr hi
      have hw := hbits w hw (hi.trans_lt hi')
      omega
    · obtain ⟨r, hr, ha⟩ := (hbytes a).mp ha
      obtain ⟨w, hw, hi⟩ := (mem_bitmapSpans hts hes i).mpr hi
      exact (h r hr).2 w hw a ha i hi
  · refine fun h => ⟨fun w hw hlt => ?_, fun r hr => ?_⟩
    · have hfirst := h.bitmap w.1 ((mem_bitmapSpans hts hes _).mp ⟨w, hw, le_rfl, hlt⟩)
      have hlast := h.bitmap (w.2 - 1) ((mem_bitmapSpans hts hes _).mp ⟨w, hw, by omega, by omega⟩)
      omega
    have hbyte : ∀ a ∈ Set.Ico r.1 r.2, b.info.Reads a := fun a ha => (hbytes a).mpr ⟨r, hr, ha⟩
    refine ⟨⟨(h.window r.1 (hbyte _ ⟨le_rfl, hlt r hr⟩)).1, ?_⟩, fun w hw a ha i hi => ?_⟩
    · have hr' := hlt r hr
      have hlast := (h.window (r.2 - 1) (hbyte _ ⟨by omega, by omega⟩)).2
      omega
    · exact h.apart a (hbyte a ha) i ((mem_bitmapSpans hts hes i).mp ⟨w, hw, hi⟩)

end Seen

end PointerOS
