import PointerOS.BootInfo
import PointerOS.MappingLaw
import PointerOS.VmallocNodes

/-!
# The framebuffer window

`init_LFB` takes the address of the framebuffer from the loader's tag into 32 bits, maps it at
`lfbAddr` in pages of 2 MB, and makes the back buffer with `vmalloc`.
-/
namespace PointerOS
open ByteMemory Tables FrameSource

def lfbAddr : ℕ := 0xFFFFFFFFC0000000

abbrev multibootTagTypeFramebuffer : ℕ := 8

def framebufferAddr (mem : Memory) (tag : ℕ) : ℕ := load64 mem (tag + 8)
def framebufferPitch (mem : Memory) (tag : ℕ) : ℕ := load32 mem (tag + 16)
def framebufferWidth (mem : Memory) (tag : ℕ) : ℕ := load32 mem (tag + 20)
def framebufferHeight (mem : Memory) (tag : ℕ) : ℕ := load32 mem (tag + 24)

/-- The part of `framebuffer_t` that comes from the tag. -/
structure LfbFields where
  paddr : ℕ
  width : ℕ
  height : ℕ
  pitch : ℕ
  size : ℕ

def lfbFields (mem : Memory) (tag : ℕ) : LfbFields where
  paddr := framebufferAddr mem tag % 2 ^ 32
  width := framebufferWidth mem tag
  height := framebufferHeight mem tag
  pitch := framebufferPitch mem tag
  size := framebufferPitch mem tag * framebufferHeight mem tag % 2 ^ 32

/-- The body of the loop over the tags. -/
def lfbOfTag (mem : Memory) (lfb : LfbFields) (tag : ℕ) : LfbFields :=
  if tagType mem tag = multibootTagTypeFramebuffer then lfbFields mem tag else lfb

/-- `lfb` is zero before the call. -/
def lfbOfTags (b : BootInfo) : Option LfbFields :=
  forTags b.mem (fun lfb tag => some (lfbOfTag b.mem lfb tag)) tagTurns b.firstTag ⟨0, 0, 0, 0, 0⟩

namespace Vm
variable {σ : Type*} (alloc : σ → ℕ × σ)

/-- One round of the loop that maps the framebuffer, with the counter `size`. -/
def lfbPage (lfb : LfbFields) (cr3 : ℕ) (size : ℤ) (vm : Vm σ) : Vm σ :=
  vm.vmmMapPage alloc cr3 ((lfb.paddr + intToU32 size) % 2 ^ 32) ((intToU64 size + lfbAddr) % 2 ^ 64) pageSize2MB
    (pteWritable ||| pteWcHuge)

/-- The loop from the counter `size` on. The counter has `2 ^ 11` values, so a loop that is not over
after that many rounds never ends. -/
def lfbPagesFrom (lfb : LfbFields) (cr3 : ℕ) : ℕ → ℤ → Vm σ → Vm σ
  | 0, _, vm => vm
  | n + 1, size, vm =>
    if intToU32 size < lfb.size then lfbPagesFrom lfb cr3 n (wrapInt (size + pageSize2MB)) (lfbPage alloc lfb cr3 size vm)
    else vm

def lfbPages (lfb : LfbFields) (cr3 : ℕ) (vm : Vm σ) : Vm σ := lfbPagesFrom alloc lfb cr3 (2 ^ 11 + 1) 0 vm

/-- The frames that the rounds of the loop need are fresh. -/
def LfbSupply (lfb : LfbFields) (cr3 : ℕ) : ℕ → ℤ → Vm σ → Prop
  | 0, _, _ => True
  | n + 1, size, vm => intToU32 size < lfb.size →
    FramesFresh alloc vm.tables {cr3} vm.pmm (tablesMissing vm.tables ((intToU64 size + lfbAddr) % 2 ^ 64) 2 3 cr3) ∧
      LfbSupply lfb cr3 n (wrapInt (size + pageSize2MB)) (lfbPage alloc lfb cr3 size vm)

end Vm

/-- `info` is what `kmalloc` returned for the record of the back buffer; `lfb.buffer` is returned beside
the fields. -/
def VmRecords.initLFB (s : VmRecords) (b : BootInfo) (cr3 info : ℕ) : Option (LfbFields × ℕ × VmRecords) :=
  (lfbOfTags b).bind fun lfb =>
    ({ s with vm := s.vm.lfbPages take lfb cr3 }.vmalloc cr3 info lfb.size).map fun (buffer, s) => (lfb, buffer, s)

/-! ## The tag -/

section Tag
variable {mem : Memory} {t : ℕ} {before after : List ℕ}

/-- The last framebuffer tag counts. -/
theorem foldl_lfbOfTag (lfb : LfbFields) (ht : tagType mem t = multibootTagTypeFramebuffer)
    (hafter : ∀ u ∈ after, tagType mem u ≠ multibootTagTypeFramebuffer) :
    (before ++ t :: after).foldl (lfbOfTag mem) lfb = lfbFields mem t := by
  have hrest : ∀ l : List ℕ, (∀ u ∈ l, tagType mem u ≠ multibootTagTypeFramebuffer) →
      ∀ lfb, l.foldl (lfbOfTag mem) lfb = lfb := by
    intro l hl
    induction l with
    | nil => exact fun _ => rfl
    | cons u l ih =>
      intro lfb
      rw [List.foldl_cons, lfbOfTag, if_neg (hl u List.mem_cons_self)]
      exact ih (fun u hu => hl u (List.mem_cons_of_mem _ hu)) lfb
  rw [List.foldl_append, List.foldl_cons, hrest after hafter, lfbOfTag, if_pos ht]

end Tag

/-! ## The loop -/

section Loop
variable {σ : Type*} {alloc : σ → ℕ × σ} {vm : Vm σ} {r : ℕ} {lfb : LfbFields}

/-- The entry of the page of 2 MB with the number `j`. -/
def lfbEntry (lfb : LfbFields) (j : ℕ) : ℕ :=
  (lfb.paddr + j * pageSize2MB) % 2 ^ 32 ||| (ptePresent ||| ptePageSize ||| (pteWritable ||| pteWcHuge))

/-- Offsets in the window lie in the same page when they do so from its start. -/
theorem lfb_samePage {j off : ℕ} (hj : j < 2 ^ 9) (hoff : off < 2 ^ 30) :
    SamePage pageSize2MB (j * pageSize2MB + lfbAddr) (lfbAddr + off) ↔ off / pageSize2MB = j := by
  have hstart : lfbAddr % 2 ^ 48 = 2 ^ 48 - 2 ^ 30 := rfl
  unfold SamePage pageSize2MB
  generalize lfbAddr = start at hstart ⊢
  omega

theorem lfb_offset {j : ℕ} (hj : j < 2 ^ 9) : j * pageSize2MB < 2 ^ 30 ∧ j * pageSize2MB % 4096 = 0 := by
  unfold pageSize2MB
  omega

theorem wrapInt_next {j : ℕ} (hj : j < 2 ^ 9) :
    wrapInt ((j * pageSize2MB : ℕ) + pageSize2MB) = ((j + 1) * pageSize2MB : ℕ) := by
  unfold wrapInt pageSize2MB
  omega

/-- A round gives the page `j` of the window its entry, and leaves the others. -/
theorem lfbPage_spec (h : PageTree vm.tables r) (hp : lfb.paddr % 4096 = 0) {j : ℕ} (hj : j < 2 ^ 9)
    (hf : FramesFresh alloc vm.tables {r} vm.pmm
      (tablesMissing vm.tables ((intToU64 (j * pageSize2MB : ℕ) + lfbAddr) % 2 ^ 64) 2 3 r)) :
    PageTree (vm.lfbPage alloc lfb r (j * pageSize2MB : ℕ)).tables r ∧ ∀ off < 2 ^ 30,
      (vm.lfbPage alloc lfb r (j * pageSize2MB : ℕ)).tables.walk r (lfbAddr + off) =
        if off / pageSize2MB = j then some (leaf (lfbEntry lfb j) (lfbAddr + off) 1)
        else vm.tables.walk r (lfbAddr + off) := by
  obtain ⟨hlt, hmod⟩ := lfb_offset hj
  have hlfb : lfbAddr + 2 ^ 30 = 2 ^ 64 := rfl
  have hcount : intToU64 (j * pageSize2MB : ℕ) = j * pageSize2MB := intToU64_natCast (by omega)
  have hv : (j * pageSize2MB + lfbAddr) % 2 ^ 64 = j * pageSize2MB + lfbAddr := Nat.mod_eq_of_lt (by omega)
  rw [hcount, hv] at hf
  unfold Vm.lfbPage
  rw [hcount, intToU32_natCast (by omega), hv]
  have hpa : (lfb.paddr + j * pageSize2MB) % 2 ^ 32 % 4096 = 0 := by omega
  have hnot : pageSize2MB ≠ pageSize4KB := by decide
  obtain ⟨-, hmaps, htree⟩ := h.map (pteWritable ||| pteWcHuge) hpa
    (fun h4 : pageSize2MB = pageSize4KB => absurd h4 hnot) hf
  have hm := hmaps rfl
  refine ⟨htree, fun off hoff => ?_⟩
  split_ifs with hpage
  · exact hm.page _ (samePage_iff_take.2.mp ((lfb_samePage hj hoff).mpr hpage))
  · exact hm.other _ fun ht => hpage ((lfb_samePage hj hoff).mp (samePage_iff_take.2.mpr ht))

/-- The loop maps the pages below the size, in order. -/
theorem lfbPagesFrom_spec (h : PageTree vm.tables r) (hp : lfb.paddr % 4096 = 0) (hs : lfb.size < 2 ^ 30) {k j n : ℕ}
    (hk : j + k = (lfb.size + (pageSize2MB - 1)) / pageSize2MB) (hn : k < n)
    (hf : Vm.LfbSupply alloc lfb r n (j * pageSize2MB : ℕ) vm) :
    PageTree (vm.lfbPagesFrom alloc lfb r n (j * pageSize2MB : ℕ)).tables r ∧ ∀ off < 2 ^ 30,
      (vm.lfbPagesFrom alloc lfb r n (j * pageSize2MB : ℕ)).tables.walk r (lfbAddr + off) =
        if j ≤ off / pageSize2MB ∧ off / pageSize2MB < j + k then
          some (leaf (lfbEntry lfb (off / pageSize2MB)) (lfbAddr + off) 1)
        else vm.tables.walk r (lfbAddr + off) := by
  induction k generalizing j n vm with
  | zero =>
    obtain ⟨n, rfl⟩ := Nat.exists_eq_add_of_lt hn
    have hend : lfb.size ≤ j * pageSize2MB ∧ j * pageSize2MB < 2 ^ 31 := by
      unfold pageSize2MB at hk ⊢
      omega
    rw [Nat.zero_add, Vm.lfbPagesFrom, if_neg (by rw [intToU32_natCast (by omega)]; omega)]
    exact ⟨h, fun off _ => by rw [if_neg (by omega)]⟩
  | succ k ih =>
    obtain ⟨n, rfl⟩ : ∃ m, n = m + 1 := ⟨n - 1, by omega⟩
    have hj : j < 2 ^ 9 ∧ j * pageSize2MB < lfb.size := by
      unfold pageSize2MB at hk ⊢
      omega
    have hlt : intToU32 (j * pageSize2MB : ℕ) < lfb.size := by
      rw [intToU32_natCast (by omega)]
      exact hj.2
    obtain ⟨hfresh, hrest⟩ := hf hlt
    obtain ⟨htree, hwalk⟩ := lfbPage_spec h hp hj.1 hfresh
    rw [wrapInt_next hj.1] at hrest
    obtain ⟨htree', hwalk'⟩ := ih htree (by omega) (by omega) hrest
    rw [Vm.lfbPagesFrom, if_pos hlt, wrapInt_next hj.1]
    refine ⟨htree', fun off hoff => ?_⟩
    rw [hwalk' off hoff, hwalk off hoff]
    by_cases hoj : off / pageSize2MB = j
    · rw [if_neg (by omega), if_pos hoj, if_pos (by omega), hoj]
    · rw [if_neg hoj]
      exact if_congr (by omega) rfl rfl

end Loop

/-! ## The back buffer -/

/-- The pages lie in no large page, and the frames for their tables are fresh. -/
def NewPagesSupply (cr3 flags : ℕ) : List ℕ → Vm FrameSource → Prop
  | [], _ => True
  | v :: l, vm => ¬InHugePage vm.tables cr3 v ∧
      FramesFresh take vm.tables {cr3} (take vm.pmm).2 (tablesMissing vm.tables v 3 3 cr3) ∧
      NewPagesSupply cr3 flags l (vm.mapNewPage cr3 v flags)

section Buffer
variable {vm : Vm FrameSource} {cr3 flags w size base info : ℕ} {s s' : VmRecords}

theorem take_aligned (s : FrameSource) : (take s).1 % 4096 = 0 := by
  unfold take
  rcases s.pmm.pmmAllocPage_spec with ⟨hr, -⟩ | ⟨k, -, -, -, hr⟩
  · rw [hr]
    rfl
  · rw [hr]
    dsimp only
    omega

/-- Mapping other pages keeps a translation. -/
theorem mapPages_other {l : List ℕ} (h : PageTree vm.tables cr3) (hl : ∀ v ∈ l, ¬SamePage pageSize4KB v w)
    (hf : NewPagesSupply cr3 flags l vm) :
    PageTree (vm.mapPages cr3 flags l).tables cr3 ∧
      (vm.mapPages cr3 flags l).tables.walk cr3 w = vm.tables.walk cr3 w := by
  induction l generalizing vm with
  | nil => exact ⟨h, rfl⟩
  | cons v l ih =>
    obtain ⟨hhuge, hfresh, hrest⟩ := hf
    have htree : PageTree ({ vm with pmm := (take vm.pmm).2 } : Vm FrameSource).tables cr3 := h
    obtain ⟨hmaps, -, hmapped⟩ := htree.map flags (take_aligned vm.pmm) (fun _ : pageSize4KB = pageSize4KB => hhuge) hfresh
    have hsame := (hmaps rfl).other w fun ht => hl v List.mem_cons_self (samePage_iff_take.1.mpr ht)
    obtain ⟨hend, hwalk⟩ := ih hmapped (fun u hu => hl u (List.mem_cons_of_mem v hu)) hrest
    exact ⟨hend, hwalk.trans hsame⟩

theorem VmRecords.vmAddToList_vm {i : ℕ} (h : s.vmAddToList i = some s') : s'.vm = s.vm := by
  unfold VmRecords.vmAddToList at h
  split_ifs at h
  · obtain rfl := Option.some.inj h
    rfl
  · obtain ⟨c, -, rfl⟩ := Option.map_eq_some_iff.mp h
    dsimp only
    split_ifs <;> rfl

/-- The pages that `vmalloc` maps. -/
theorem VmRecords.vmalloc_vm (h0 : size ≠ 0) (hinfo : info ≠ 0) (h : s.vmalloc cr3 info size = some (base, s'))
    (hs : size ≤ 2 ^ 63) (hb : base + size ≤ 2 ^ 64) :
    s'.vm = s.vm.mapPages cr3 pteWritable (pageAddrs base (intRounds size)) := by
  unfold VmRecords.vmalloc at h
  rw [if_neg h0, if_neg hinfo] at h
  obtain ⟨s₁, hadd, hret⟩ := Option.map_eq_some_iff.mp h
  obtain ⟨rfl, rfl⟩ := Prod.mk.inj hret
  dsimp only at hb ⊢
  rw [intLoop_pages hs hb fun vm v => vm.mapNewPage cr3 v pteWritable, vmAddToList_vm hadd]
  rfl

/-! ## The framebuffer -/

/-- Every byte of the framebuffer is seen in the window. -/
def MapsFramebuffer (T : Tables) (cr3 addr size : ℕ) : Prop :=
  ∀ off < size, (T.walk cr3 (lfbAddr + off)).map Translation.paddr = some (addr + off)

/-- What `init_LFB` finds: a page tree, a list of regions in their window without the new record, and
fresh frames for the tables. -/
structure LfbReady (s : VmRecords) (cr3 info : ℕ) (lfb : LfbFields) (l : List ℕ) : Prop where
  tree : PageTree s.vm.tables cr3
  list : VmList s.infos s.vmallocListHead l
  regions : Ascends (regionsOf s.infos l) (heapStart - vmallocStart)
  record : info ∉ l
  window : Vm.LfbSupply take lfb cr3 (2 ^ 11 + 1) 0 s.vm
  buffer : NewPagesSupply cr3 pteWritable
    (pageAddrs (vmAddToList (regionsOf s.infos l) lfb.size).1 (intRounds lfb.size)) (s.vm.lfbPages take lfb cr3)

theorem leaf_lfbEntry (lfb : LfbFields) (j off : ℕ) : (leaf (lfbEntry lfb j) (lfbAddr + off) 1).paddr =
    (lfb.paddr + j * pageSize2MB) % 2 ^ 32 / 2 ^ 21 * 2 ^ 21 + off % 2 ^ 21 := by
  have hflags : ptePresent ||| ptePageSize ||| (pteWritable ||| pteWcHuge) < 2 ^ 21 := by decide
  have hstart : lfbAddr % 2 ^ 21 = 0 := rfl
  unfold leaf lfbEntry
  dsimp only
  rw [show 12 + 9 * 1 = 21 from rfl, Nat.or_div_two_pow, Nat.div_eq_of_lt hflags, Nat.or_zero, Nat.add_mod lfbAddr,
    hstart, Nat.zero_add, Nat.mod_mod]
  congr 2
  omega

/-- The back buffer lies below the window. -/
theorem buffer_not_samePage {base size off : ℕ} (hlow : vmallocStart ≤ base) (hbase : base ≤ heapStart)
    (hs : size < 2 ^ 30) (hoff : off < 2 ^ 30) {v : ℕ} (hv : v ∈ pageAddrs base (intRounds size)) :
    ¬SamePage pageSize4KB v (lfbAddr + off) := by
  obtain ⟨j, hj, rfl⟩ := mem_pageAddrs.mp hv
  have hmin : vmallocStart = 0xFFFFC00000000000 := rfl
  have hmax : heapStart = 0xFFFFE00000000000 := rfl
  have hstart : lfbAddr = 0xFFFFFFFFC0000000 := rfl
  unfold SamePage pageSize4KB
  unfold intRounds at hj
  omega

theorem Ascends.place_bounds {l : List VmInfo} (h : Ascends l (heapStart - vmallocStart)) (size : ℕ) :
    vmallocStart ≤ (vmAddToList l size).1 ∧ (vmAddToList l size).1 ≤ heapStart := by
  have hwin : vmallocStart + (heapStart - vmallocStart) = heapStart := by decide
  have hend : heapStart < 2 ^ 64 := by decide
  cases l with
  | nil => exact ⟨le_rfl, show vmallocStart ≤ heapStart by decide⟩
  | cons head rest =>
    obtain ⟨heq, -⟩ := GapList.findGap_spec (VmFits size) head rest
    have hmem : (GapList.findGap (VmFits size) head rest).2.1 ∈ head :: rest := by
      rw [heq]
      exact List.mem_append_right _ List.mem_cons_self
    have hlow := h.low _ hmem
    have hhigh := h.high _ hmem
    have hplace : (vmAddToList (head :: rest) size).1 = ((GapList.findGap (VmFits size) head rest).2.1.base +
        (GapList.findGap (VmFits size) head rest).2.1.size) % 2 ^ 64 := rfl
    rw [hplace, Nat.mod_eq_of_lt (by omega)]
    omega

/-- The back buffer leaves the window as the loop made it. -/
theorem LfbReady.vmalloc {lfb : LfbFields} {l : List ℕ} (h : LfbReady s cr3 info lfb l) (hp : lfb.paddr % 4096 = 0)
    (hs : lfb.size < 2 ^ 30) :
    ∃ base s', { s with vm := s.vm.lfbPages take lfb cr3 }.vmalloc cr3 info lfb.size = some (base, s') ∧
      ∀ off < lfb.size, s'.vm.tables.walk cr3 (lfbAddr + off) =
        some (leaf (lfbEntry lfb (off / pageSize2MB)) (lfbAddr + off) 1) := by
  have hrounds : 0 + (lfb.size + (pageSize2MB - 1)) / pageSize2MB = (lfb.size + (pageSize2MB - 1)) / pageSize2MB :=
    Nat.zero_add _
  have hturns : (lfb.size + (pageSize2MB - 1)) / pageSize2MB < 2 ^ 11 + 1 := by
    unfold pageSize2MB
    omega
  obtain ⟨htree, hwalk⟩ := lfbPagesFrom_spec h.tree hp hs hrounds hturns h.window
  have hloop : ∀ off < lfb.size, (s.vm.lfbPages take lfb cr3).tables.walk cr3 (lfbAddr + off) =
      some (leaf (lfbEntry lfb (off / pageSize2MB)) (lfbAddr + off) 1) := by
    intro off hoff
    refine (hwalk off (by omega)).trans (if_pos ⟨Nat.zero_le _, ?_⟩)
    unfold pageSize2MB
    omega
  have htree : PageTree (s.vm.lfbPages take lfb cr3).tables cr3 := htree
  by_cases h0 : lfb.size = 0
  · exact ⟨0, _, if_pos h0, hloop⟩
  by_cases hinfo : info = 0
  · refine ⟨0, { s with vm := s.vm.lfbPages take lfb cr3 }, ?_, hloop⟩
    unfold VmRecords.vmalloc
    rw [if_neg h0, if_pos hinfo]
  have hlen : l.length < 2 ^ 64 := by
    have hle := h.regions.length_le
    have hwin : heapStart - vmallocStart < 2 ^ 64 := by decide
    rw [regionsOf, List.length_map] at hle
    omega
  have hlist : VmList ({ s with vm := s.vm.lfbPages take lfb cr3 } : VmRecords).infos s.vmallocListHead l := h.list
  obtain ⟨base, s', l', hcall, hadd⟩ := VmRecords.vmalloc_added (s := { s with vm := s.vm.lfbPages take lfb cr3 }) hlist
    hlen h.record hinfo (Nat.pos_of_ne_zero h0) cr3
  refine ⟨base, s', hcall, fun off hoff => ?_⟩
  have hbase : (vmAddToList (regionsOf s.infos l) lfb.size).1 = base := congrArg Prod.fst hadd.place
  obtain ⟨hlow, hhigh⟩ := h.regions.place_bounds lfb.size
  have hsupply := h.buffer
  rw [hbase] at hlow hhigh hsupply
  have hend : heapStart + 2 ^ 30 ≤ 2 ^ 64 := by decide
  rw [VmRecords.vmalloc_vm h0 hinfo hcall (by omega) (by omega)]
  have hother := (mapPages_other htree (fun v hv => buffer_not_samePage hlow hhigh hs (by omega : off < 2 ^ 30) hv)
    hsupply).2
  exact hother.trans (hloop off hoff)

/-- The window shows the framebuffer exactly when there is nothing to show, or the framebuffer starts on a page of
2 MB and its last page lies below 4 GB. -/
theorem init_LFB_window_iff {b : BootInfo} {before after l : List ℕ} {t : ℕ}
    (htags : TagList b.mem b.firstTag (before ++ t :: after)) (ht : tagType b.mem t = multibootTagTypeFramebuffer)
    (hafter : ∀ u ∈ after, tagType b.mem u ≠ multibootTagTypeFramebuffer)
    (haligned : framebufferAddr b.mem t % 4096 = 0)
    (hsize : framebufferPitch b.mem t * framebufferHeight b.mem t < 2 ^ 30)
    (hready : LfbReady s cr3 info (lfbFields b.mem t) l) :
    ∃ lfb buffer s', s.initLFB b cr3 info = some (lfb, buffer, s') ∧
      (MapsFramebuffer s'.vm.tables cr3 (framebufferAddr b.mem t)
          (framebufferPitch b.mem t * framebufferHeight b.mem t) ↔
        framebufferPitch b.mem t * framebufferHeight b.mem t = 0 ∨
        framebufferAddr b.mem t % pageSize2MB = 0 ∧
          framebufferAddr b.mem t +
            (framebufferPitch b.mem t * framebufferHeight b.mem t - 1) / pageSize2MB * pageSize2MB < 2 ^ 32) := by
  have hfields : (lfbFields b.mem t).size = framebufferPitch b.mem t * framebufferHeight b.mem t :=
    Nat.mod_eq_of_lt (by omega)
  have hpaddr : (lfbFields b.mem t).paddr = framebufferAddr b.mem t % 2 ^ 32 := rfl
  obtain ⟨base, s', hcall, hwalk⟩ := hready.vmalloc (by rw [hpaddr]; omega) (by omega)
  refine ⟨lfbFields b.mem t, base, s', ?_, ?_⟩
  · unfold VmRecords.initLFB lfbOfTags
    rw [forTags_some _ _ htags htags.length_lt, foldl_lfbOfTag _ ht hafter, Option.bind_some, hcall]
    rfl
  have hbyte : ∀ off < (lfbFields b.mem t).size, (s'.vm.tables.walk cr3 (lfbAddr + off)).map Translation.paddr =
      some ((framebufferAddr b.mem t % 2 ^ 32 + off / 2 ^ 21 * 2 ^ 21) % 2 ^ 32 / 2 ^ 21 * 2 ^ 21 + off % 2 ^ 21) := by
    intro off hoff
    rw [hwalk off hoff, Option.map_some, leaf_lfbEntry]
    rfl
  rw [← hfields]
  generalize (lfbFields b.mem t).size = size at hbyte hfields
  generalize framebufferAddr b.mem t = addr at hbyte haligned
  unfold pageSize2MB
  constructor
  · intro hm
    by_cases h0 : size = 0
    · exact .inl h0
    have hfirst := (hbyte 0 (by omega)).symm.trans (hm 0 (by omega))
    have hlast := (hbyte ((size - 1) / 0x200000 * 0x200000) (by omega)).symm.trans (hm _ (by omega))
    rw [Option.some_inj] at hfirst hlast
    omega
  · rintro (h0 | ⟨hpage, hlow⟩) off hoff
    · omega
    · rw [hbyte off hoff, Option.some_inj]
      omega

end Buffer

/-! ## A first framebuffer -/

theorem PageTree.of_empty {T : Tables} (hT : ∀ f i, T f i = 0) (r : ℕ) : PageTree T r := by
  refine ⟨⟨⟨le_rfl, ?_⟩, fun _ i _ => EntryOk.of_not_present (by rw [hT]; rfl)⟩, fun _ hf hp => ?_, fun _ _ _ hp => ?_⟩
  · rintro q p f ho q' rfl p' - hf'
    obtain ⟨rfl, -⟩ := reach_of_empty hT ho.reach
    obtain ⟨rfl, -⟩ := reach_of_empty hT hf'
    exact ⟨(Set.mem_singleton_iff.mp ho.root).symm, rfl⟩
  all_goals
    rw [hT] at hp
    exact nomatch hp

/-- Frames outside a set of tables that is closed are fresh. -/
theorem framesFresh_of_closed {σ : Type*} {alloc : σ → ℕ × σ} {T : Tables} {r k : ℕ} {s : σ} (S : List ℕ) (hr : r ∈ S)
    (hS : ∀ f ∈ S, ∀ i, ∀ g ∈ T.child f i, g ∈ S) (hn : (framesTaken alloc s k).Nodup)
    (hout : ∀ g ∈ framesTaken alloc s k, (g % 4096 = 0 ∧ g < 2 ^ 52) ∧ g ∉ S) : FramesFresh alloc T {r} s k := by
  refine ⟨hn, fun g hg => ⟨(hout g hg).1, ?_⟩⟩
  rintro q rfl p - hreach
  exact (hout g hg).2 (Radix.reach_mem (S := {f | f ∈ S}) hS hr hreach)

/-- A block with a framebuffer of `pitch * height` bytes at `addr`. -/
def framebufferBoot (addr pitch height : ℕ) : BootInfo where
  mem :=
    let tag := kernelOffset + 0x9008
    let m : Memory := store32 (fun _ => 0) tag multibootTagTypeFramebuffer
    let m := store32 m (tag + 4) 32
    let m := store64 m (tag + 8) addr
    let m := store32 m (tag + 16) pitch
    store32 m (tag + 24) height
  addr := 0x9000

/-- The list of regions is empty. -/
def beforeLfb : VmRecords := ⟨fun _ => ⟨0, 0, 0, 0⟩, 0, emptySpace⟩

/-- One page of a framebuffer on a page of 2 MB. -/
def firstFields : LfbFields := lfbFields (framebufferBoot 0xFD000000 0x1000 1).mem (kernelOffset + 0x9008)

theorem beforeLfb_ready : LfbReady beforeLfb 0x1000 0x100 firstFields [] := by
  refine ⟨.of_empty (fun _ _ => rfl) _, LinkedList.IsList.nil, ⟨nofun, nofun, nofun, .nil⟩, List.not_mem_nil,
    fun _ => ⟨?_, fun h => absurd h (by decide +kernel)⟩, ?_, ?_, trivial⟩
  · refine framesFresh_of_closed [0x1000] List.mem_cons_self (fun f _ i g hg => ?_) (by decide +kernel) (by decide +kernel)
    have hnone : beforeLfb.vm.tables.child f i = none := child_eq_none.mpr fun hp =>
      absurd hp (show present 0 ≠ true by decide)
    exact absurd (hnone.symm.trans hg) (Option.some_ne_none g).symm
  · rintro ⟨e, he, -⟩
    have hnone : vmmGetEntry (beforeLfb.vm.lfbPages take firstFields 0x1000).tables 0x1000 vmallocStart = none := by
      decide +kernel
    exact absurd (hnone.symm.trans he) (Option.some_ne_none e).symm
  · refine framesFresh_of_closed [0x1000, 0x2000, 0x3000] List.mem_cons_self ?_ (by decide +kernel) (by decide +kernel)
    decide +kernel

theorem init_LFB_window_iff_first : ∃ lfb buffer s',
    beforeLfb.initLFB (framebufferBoot 0xFD000000 0x1000 1) 0x1000 0x100 = some (lfb, buffer, s') ∧
      MapsFramebuffer s'.vm.tables 0x1000 0xFD000000 0x1000 := by
  have htags : TagList (framebufferBoot 0xFD000000 0x1000 1).mem (framebufferBoot 0xFD000000 0x1000 1).firstTag
      ([] ++ (kernelOffset + 0x9008) :: []) := by
    refine ⟨rfl, ?_, show tagType _ _ = multibootTagTypeEnd from ?_⟩ <;> decide +kernel
  have haddr : framebufferAddr (framebufferBoot 0xFD000000 0x1000 1).mem (kernelOffset + 0x9008) = 0xFD000000 := by
    decide +kernel
  have hsize : framebufferPitch (framebufferBoot 0xFD000000 0x1000 1).mem (kernelOffset + 0x9008) *
      framebufferHeight (framebufferBoot 0xFD000000 0x1000 1).mem (kernelOffset + 0x9008) = 0x1000 := by
    decide +kernel
  obtain ⟨lfb, buffer, s', hcall, hiff⟩ := init_LFB_window_iff htags (by decide +kernel)
    nofun (by rw [haddr]) (by rw [hsize]; decide) beforeLfb_ready
  rw [haddr, hsize] at hiff
  exact ⟨lfb, buffer, s', hcall, hiff.mpr (.inr (by decide))⟩

/-- A framebuffer at 4 GB is seen at address 0. -/
theorem init_LFB_truncates_address : ∃ lfb buffer s',
    beforeLfb.initLFB (framebufferBoot 0x100000000 0x1000 1) 0x1000 0x100 = some (lfb, buffer, s') ∧
      ¬MapsFramebuffer s'.vm.tables 0x1000 0x100000000 0x1000 := by
  have hwalk : ((beforeLfb.initLFB (framebufferBoot 0x100000000 0x1000 1) 0x1000 0x100).bind fun r =>
      (r.2.2.vm.tables.walk 0x1000 lfbAddr).map Translation.paddr) = some 0 := by
    decide +kernel
  obtain ⟨⟨lfb, buffer, s'⟩, hcall, hfirst⟩ := Option.bind_eq_some_iff.mp hwalk
  refine ⟨lfb, buffer, s', hcall, fun hm => ?_⟩
  have hbyte := hm 0 (by decide)
  rw [Nat.add_zero, hfirst] at hbyte
  exact absurd hbyte (by decide)

end PointerOS
