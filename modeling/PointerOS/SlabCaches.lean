import PointerOS.HeapRuns

/-!
# The caches of the heap, and what is left when everything is freed

What the runs of `kmalloc` and `kfree` keep is read off the globals here: the
two lists of every cache, the free objects of every slab, and the allocator of
every live pointer. When nothing is live, no slab is left and the free blocks
have joined to the block that the heap started with.
-/
namespace PointerOS
open ByteMemory LinkedList BuddyBlocks

/-- The slab in page `i` and its list of free objects. -/
structure SlabHolds (h : Heap) (live : List (ℕ × ℕ)) (i : ℕ) (free : List ℕ) : Prop where
  chain : Chain h.objNext 0 (h.slabFreeList (pageAddr i)) free
  nodup : free.Nodup
  count : h.slabFreeCount (pageAddr i) = free.length
  object : ∀ a ∈ free, ∃ j, a = pageAddr i + 40 + j * (h.kernelCaches (h.slabParentCache (pageAddr i))).objSize ∧
    a + (h.kernelCaches (h.slabParentCache (pageAddr i))).objSize ≤ pageAddr i + pageSize4KB
  dead : ∀ a ∈ free, a ∉ live.map Prod.fst

/-- The lists of one cache, by the pages on them. -/
structure CacheHolds (h : Heap) (c : ℕ) (part full : List ℕ) : Prop where
  partials : IsList h.slabNext h.slabPrev 0 (h.kernelCaches c).slabsPartial (part.map pageAddr)
  fulls : IsList h.slabNext h.slabPrev 0 (h.kernelCaches c).slabsFull (full.map pageAddr)
  disjoint : part.Disjoint full
  slab : ∀ i, i ∈ part ∨ i ∈ full → i < totalPages ∧ (h.metadata i).isSlab = true
  parent : ∀ i < totalPages, (h.metadata i).isSlab = true →
    ((i ∈ part ∨ i ∈ full) ↔ h.slabParentCache (pageAddr i) = c)
  mem_full : ∀ i, i ∈ part ∨ i ∈ full → (i ∈ full ↔ h.slabFreeCount (pageAddr i) = 0)
  mem_part : ∀ i, i ∈ part ∨ i ∈ full → (i ∈ part ↔
    0 < h.slabFreeCount (pageAddr i) ∧ h.slabFreeCount (pageAddr i) < h.slabTotalCount (pageAddr i))

structure CacheInvariant (h : Heap) (live : List (ℕ × ℕ)) : Prop where
  cache : ∀ c < numCaches, ∃ part full, CacheHolds h c part full
  slab : ∀ i < totalPages, (h.metadata i).isSlab = true →
    h.slabParentCache (pageAddr i) < numCaches ∧ ∃ free, SlabHolds h live i free
  /-- Live pointers of up to 2048 bytes lie in slabs, the others do not. -/
  dispatch : ∀ e ∈ live, (h.metadata (pageIndex e.1)).isSlab = true ↔ e.2 ≤ 2048

namespace HeapCore

variable {h : Heap} {F : ℕ → List ℕ} {G : SlabHead → List ℕ} {L : ℕ → List ℕ} {B : Set Block}
  {live : List (ℕ × ℕ)} {c i : ℕ} {e : ℕ × ℕ}

theorem cacheHolds (core : HeapCore h F G L B live) (hf : Filled G L) (hc : c < numCaches) :
    CacheHolds h c (G (.slabsPartial c)) (G (.slabsFull c)) := by
  have hpart := slabsPartial_mem hc
  have hfull := slabsFull_mem hc
  have hok : ∀ i, inCache G c i → SlabOk h c i (L i) := core.ok c hc
  have hdisjoint : (G (.slabsPartial c)).Disjoint (G (.slabsFull c)) := fun i h1 h2 => by
    cases core.lists.head_unique hpart hfull h1 h2
  refine ⟨core.lists.family.list _ hpart, core.lists.family.list _ hfull, hdisjoint, ?_, ?_, ?_, ?_⟩
  · intro i hi
    have hs : i ∈ slabPages G := ⟨c, hc, hi⟩
    exact ⟨core.slab_lt hs, (core.isSlab i (core.slab_lt hs)).mpr hs⟩
  · intro i hi hs
    constructor
    · exact fun hin => (hok i hin).parent
    · intro hp
      obtain ⟨d, hd, hin⟩ := (core.isSlab i hi).mp hs
      rw [(core.ok d hd i hin).parent] at hp
      exact hp ▸ hin
  · intro i hi
    rw [(hok i hi).count]
    constructor
    · intro hin
      rw [(hf c hc).2 i hin]
      rfl
    · intro h0
      rcases hi with hi | hi
      · have := ((hf c hc).1 i hi).1
        omega
      · exact hi
  · intro i hi
    rw [(hok i hi).count, (hok i hi).total]
    constructor
    · exact (hf c hc).1 i
    · rintro ⟨hpos, -⟩
      refine hi.resolve_right fun hin => ?_
      rw [(hf c hc).2 i hin] at hpos
      exact absurd hpos (lt_irrefl 0)

theorem slabHolds (core : HeapCore h F G L B live) (hc : c < numCaches) (hin : inCache G c i) :
    SlabHolds h live i (L i) := by
  have ok := core.ok c hc i hin
  refine ⟨ok.chain, ok.nodup, ok.count, fun a ha => ?_, fun a ha hlive => ?_⟩
  · obtain ⟨j, hj, rfl⟩ := ok.slots a ha
    rw [ok.parent, core.objSize c hc]
    exact ⟨j, rfl, (slotAddr_inPage hc hj).2⟩
  · obtain ⟨e, he, rfl⟩ := List.mem_map.mp hlive
    exact (core.small_of_slot he hc hin (ok.slots e.1 ha)).1 ha

theorem dispatch (core : HeapCore h F G L B live) (acc : Accounted G L B live) (he : e ∈ live) :
    (h.metadata (pageIndex e.1)).isSlab = true ↔ e.2 ≤ 2048 := by
  rcases core.owner e he with ⟨b, hb, hp, -⟩ | ⟨c, hc, s, hs, ⟨j, hj, hp⟩, -, hsz⟩
  · have hlt : b.start < 4096 := core.buddy.start_lt (Or.inr (Or.inr hb))
    have hbig := acc.large e he b hb hp
    rw [hp, pageIndex_pageAddr hlt, core.isSlab _ hlt]
    exact iff_of_false (core.notMem_slabPages hb (Block.covers_start b)) (by omega)
  · have hss : s ∈ slabPages G := ⟨c, hc, hs⟩
    have hin := slotAddr_inPage (s := s) hc hj
    have ho := cacheObjSize_bounds hc
    obtain ⟨off, hoff⟩ := Nat.exists_eq_add_of_le (show pageAddr s ≤ e.1 by omega)
    have hidx : pageIndex e.1 = s := by
      rw [hoff]
      exact pageIndex_add (core.slab_lt hss) (by omega)
    rw [hidx]
    exact iff_of_true ((core.isSlab s (core.slab_lt hss)).mpr hss) (by omega)

end HeapCore

/-- In every run the lists of the caches hold the slabs, each slab's chain holds its free objects, and the size of
an allocation decides which allocator it came from. -/
theorem slab_cache_invariant {h : Heap} {live : List (ℕ × ℕ)} (run : HeapRun h live) :
    CacheInvariant h live := by
  obtain ⟨F, G, L, B, core, hf, acc⟩ := run.accounted
  refine ⟨fun c hc => ⟨_, _, core.cacheHolds hf hc⟩, fun i hi hs => ?_, fun e he => core.dispatch acc he⟩
  obtain ⟨c, hc, hin⟩ := (core.isSlab i hi).mp hs
  rw [(core.ok c hc i hin).parent]
  exact ⟨hc, L i, core.slabHolds hc hin⟩

theorem slab_cache_invariant_mixed : ∃ h, HeapRun h mixedLive ∧ CacheInvariant h mixedLive := by
  obtain ⟨h, run⟩ := mixedLive_run
  exact ⟨h, run, slab_cache_invariant run⟩

/-! ## When nothing is live -/

namespace Accounted

variable {G : SlabHead → List ℕ} {L : ℕ → List ℕ} {B : Set Block} {c : ℕ}

/-- A slab on a list has a used object, and so an owner. -/
theorem no_slab (acc : Accounted G L B []) (hf : Filled G L) (hc : c < 8) :
    G (.slabsPartial c) = [] ∧ G (.slabsFull c) = [] := by
  have hcap := slabCapacity_bounds hc
  have hnone : ∀ s, inCache G c s → ∀ j < slabCapacity c, slotAddr c s j ∈ L s := by
    intro s hs j hj
    by_contra hfree
    obtain ⟨e, he, -⟩ := acc.slots c hc s hs j hj hfree
    cases he
  refine ⟨List.eq_nil_iff_forall_not_mem.mpr fun s hs => ?_, List.eq_nil_iff_forall_not_mem.mpr fun s hs => ?_⟩
  · have hlt := ((hf c hc).1 s hs).2
    have hsub : (List.range (slabCapacity c)).map (slotAddr c s) ⊆ L s := by
      intro a ha
      obtain ⟨j, hj, rfl⟩ := List.mem_map.mp ha
      exact hnone s (Or.inl hs) j (List.mem_range.mp hj)
    have hnd := (List.nodup_range (n := slabCapacity c)).map (slotAddr_injective s hc)
    have hle := (hnd.subperm hsub).length_le
    rw [List.length_map, List.length_range] at hle
    omega
  · have hslot := hnone s (Or.inr hs) 0 (by omega)
    rw [(hf c hc).2 s hs] at hslot
    cases hslot

theorem no_block (acc : Accounted G L B []) : B = ∅ := by
  refine Set.eq_empty_iff_forall_notMem.mpr fun b hb => ?_
  obtain ⟨e, he, -⟩ := acc.blocks b hb
  cases he

end Accounted

/-- With no block in use the coalesced tiling is the whole heap. -/
theorem BuddyInv.whole {h : Heap} {F : ℕ → List ℕ} (inv : BuddyInv h F ∅) (b : Block) :
    b ∈ freeBlocks F ↔ b = ⟨0, 12⟩ := by
  have hfree : ∀ p < 4096, ∃ c ∈ freeBlocks F, c.Covers p := by
    intro p hp
    obtain ⟨c, hc | hc, hcp⟩ := inv.tiling.covering p hp
    · exact ⟨c, hc, hcp⟩
    · cases hc
  obtain ⟨c, hc, hle, hc0⟩ := Block.exists_large (A := freeBlocks F) (m := maxOrders)
    (fun b hb => inv.tiling.aligned b (Or.inl hb)) inv.coalesced maxOrders 0 le_rfl (dvd_zero _)
    fun p _ hp => hfree p (lt_of_lt_of_eq hp (by decide))
  have ho : c.order = 12 := le_antisymm hc.1 hle
  have hs : c.start = 0 := Nat.le_zero.mp hc0.1
  obtain rfl : c = ⟨0, 12⟩ := congrArg₂ Block.mk hs ho
  constructor
  · intro hb
    have hlt := inv.start_lt (Or.inl hb)
    exact inv.tiling.disjoint b (Or.inl hb) _ (Or.inl hc) b.start b.covers_start ⟨Nat.zero_le _, by simpa using hlt⟩
  · rintro rfl
    exact hc

/-- The state of the two allocators after `init_kheap`, read off the globals. -/
structure Recovered (h : Heap) : Prop where
  top : h.freeAreas maxOrders = heapStart ∧ h.blockPrev heapStart = 0 ∧ h.blockNext heapStart = 0
  others : ∀ k < maxOrders, h.freeAreas k = 0
  block : ∀ b, b ∈ markedFree h ↔ b = ⟨0, maxOrders⟩
  caches : ∀ c < numCaches, (h.kernelCaches c).slabsPartial = 0 ∧ (h.kernelCaches c).slabsFull = 0
  pages : ∀ i < totalPages, (h.metadata i).isSlab = false

/-- When all allocations of a run are freed, the heap is as `init_kheap` left it. -/
theorem heap_recovered {h : Heap} (run : HeapRun h []) : Recovered h := by
  obtain ⟨F, G, L, B, core, hf, acc⟩ := run.accounted
  have hslab := fun {c : ℕ} (hc : c < 8) => acc.no_slab hf hc
  have hpages : slabPages G = ∅ := by
    refine Set.eq_empty_iff_forall_notMem.mpr ?_
    rintro s ⟨c, hc, hs⟩
    rw [inCache, (hslab hc).1, (hslab hc).2] at hs
    exact hs.elim List.not_mem_nil List.not_mem_nil
  have hblocks : slabBlocks G ∪ B = ∅ := by
    rw [acc.no_block, Set.union_empty]
    refine Set.eq_empty_iff_forall_notMem.mpr fun b hb => ?_
    rw [slabBlocks, hpages] at hb
    exact hb.2
  have inv := core.buddy
  rw [hblocks] at inv
  have hwhole := inv.whole
  have hmem : ∀ k ≤ 12, ∀ s, s ∈ F k ↔ s = 0 ∧ k = 12 := by
    intro k hk s
    have hb := hwhole ⟨s, k⟩
    rw [Block.mk.injEq] at hb
    rw [← hb]
    exact ⟨fun hs => ⟨hk, hs⟩, fun hs => hs.2⟩
  have htop : F 12 = [0] := by
    have hnd := inv.lists.nodup (le_refl 12)
    refine List.perm_singleton.mp ((List.perm_ext_iff_of_nodup hnd (List.nodup_singleton 0)).mpr fun s => ?_)
    rw [hmem 12 le_rfl, List.mem_singleton, and_iff_left rfl]
  have hother : ∀ k < 12, F k = [] := fun k hk =>
    List.eq_nil_iff_forall_not_mem.mpr fun s hs => by
      have := ((hmem k hk.le s).mp hs).2
      omega
  have hlist := inv.lists.links 12 le_rfl
  rw [htop] at hlist
  obtain ⟨hprev, hnext⟩ := @IsList.links ℕ _ _ 0 _ _ [] [] hlist
  refine ⟨⟨hlist.head_eq, hprev, hnext⟩, fun k hk => ?_, fun b => ?_, fun c hc => ⟨?_, ?_⟩, fun i hi => ?_⟩
  · exact (inv.lists.eq_nil_iff hk.le).mp (hother k hk)
  · rw [inv.mem_markedFree b, hwhole b]
  · exact (core.lists.eq_nil_iff (slabsPartial_mem hc)).mp (hslab hc).1
  · exact (core.lists.eq_nil_iff (slabsFull_mem hc)).mp (hslab hc).2
  · have hno := core.isSlab i hi
    rw [hpages] at hno
    simpa using hno

theorem heap_recovered_page :
    Recovered ((blankHeap.initKheap.buddyAlloc 0).2.kfree (blankHeap.initKheap.buddyAlloc 0).1) := by
  have hne : (blankHeap.initKheap.buddyAlloc 0).1 ≠ 0 := by decide
  have hr : blankHeap.initKheap.kmalloc 4000 = some (blankHeap.initKheap.buddyAlloc 0) := by
    rw [Heap.kmalloc, if_neg (by norm_num), if_pos (by norm_num)]
    rfl
  have hrun := HeapRun.alloc (HeapRun.init blankHeap) (by norm_num) hr
  rw [if_neg hne] at hrun
  have hfree := HeapRun.free hrun List.mem_cons_self
  rw [List.erase_cons_head] at hfree
  exact heap_recovered hfree

/-! ## New slabs -/

/-- The page behind its header as free objects of a size, chained in ascending order. The loop of `slab_create`
takes a turn for each of them and then stops. -/
structure Carved (h : Heap) (page o : ℕ) : Prop where
  objects : ∃ objs : List ℕ, objs.length = (pageSize4KB - slabHeaderSize) / o ∧
    Chain h.objNext 0 (h.slabFreeList page) objs ∧ objs.Pairwise (fun a b => a + o ≤ b) ∧
    ∀ a ∈ objs, page + slabHeaderSize ≤ a ∧ a + o ≤ page + pageSize4KB
  freeCount : h.slabFreeCount page = (pageSize4KB - slabHeaderSize) / o
  totalCount : h.slabTotalCount page = (pageSize4KB - slabHeaderSize) / o
  turns : ∀ (g : Heap) (n : ℕ), (pageSize4KB - slabHeaderSize) / o ≤ n →
    g.carve page o (page + pageSize4KB) n (page + slabHeaderSize) =
      g.carve page o (page + pageSize4KB) pageSize4KB (page + slabHeaderSize)

/-- A page that `slab_create` gets from the heap, for a cache with objects of any size that fits. -/
theorem slab_create_carves {h : Heap} {live : List (ℕ × ℕ)} (run : HeapRun h live) {c o : ℕ}
    (hsize : (h.kernelCaches c).objSize = o) (hlow : 8 ≤ o) (hhigh : o ≤ 4056)
    (hpage : (h.slabCreate c).1 ≠ 0) : Carved (h.slabCreate c).2 (h.slabCreate c).1 o := by
  obtain ⟨F, G, L, B, core, -, -⟩ := run.accounted
  rcases core.buddy.buddyAlloc 0 with ⟨hr, -⟩ | ⟨x, F', -, hp, inv, -, -, hch, -⟩
  · exact absurd (by rw [Heap.slabCreate, hr]; rfl) hpage
  have hx : x < 4096 := inv.start_lt (b := ⟨x, 0⟩) (Or.inr (Or.inl rfl))
  have hpos : 0 < o := by omega
  have hfit : 0 < objCapacity o := Nat.div_pos (by omega) hpos
  have hcap := objCapacity_le hlow
  obtain ⟨m, heq, -, -, hfree, htotal, hchain⟩ := Heap.slabCreate_carves hlow hfit hx (Prod.ext hp rfl)
    (by rw [hch.kernelCaches]; exact hsize)
  rw [heq]
  have hfirst : pageAddr x + slabHeaderSize = objAddr o x 0 := by rw [objAddr, Nat.zero_mul, Nat.add_zero]
  refine ⟨⟨_, ?_, hchain, ?_, ?_⟩, hfree, htotal, fun g n hn => ?_⟩
  · rw [List.length_map, List.length_range]
    rfl
  · exact List.pairwise_map.mpr (List.pairwise_lt_range.imp objAddr_apart)
  · intro a ha
    obtain ⟨j, hj, rfl⟩ := List.mem_map.mp ha
    exact objAddr_inPage hpos (List.mem_range.mp hj)
  · rw [hfirst]
    exact Heap.carve_turns hlow g hn (by show objCapacity o - 0 ≤ 4096; omega)

/-- A heap with a ninth cache, of objects of 24 bytes. -/
def ninthCache : Heap := { blankHeap with kernelCaches := fun _ => ⟨24, 0, 0⟩ }

theorem slab_create_carves_ninth : Carved (ninthCache.initKheap.slabCreate 8).2 (ninthCache.initKheap.slabCreate 8).1 24 :=
  slab_create_carves (HeapRun.init ninthCache) (by decide) (by decide) (by decide) (by decide +kernel)

end PointerOS
