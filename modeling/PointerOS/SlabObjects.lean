import PointerOS.SlabCarve
import PointerOS.SlabLists

/-!
# The objects of a slab

Slot `j` of a slab is its `j`-th object. `SlabOk h c s L` describes the slab in
page `s` of cache `c` whose free objects are chained in the order `L`: it reads
the first 24 bytes of the header and the first word of each free object, and
nothing else.
-/
namespace PointerOS
open ByteMemory LinkedList

/-- `obj_size` of cache `c` after `init_slab`. -/
def cacheObjSize (c : ℕ) : ℕ := Heap.slabSizes.getD c 0

def slabCapacity (c : ℕ) : ℕ := (4096 - 40) / cacheObjSize c

def slotAddr (c s j : ℕ) : ℕ := pageAddr s + 40 + j * cacheObjSize c

lemma cacheObjSize_bounds {c : ℕ} (hc : c < 8) : 16 ≤ cacheObjSize c ∧ cacheObjSize c ≤ 2048 := by
  interval_cases c <;> decide

lemma slabCapacity_bounds {c : ℕ} (hc : c < 8) : 0 < slabCapacity c ∧ slabCapacity c ≤ 253 := by
  interval_cases c <;> decide

lemma cacheObjSize_pos {c : ℕ} (hc : c < 8) : 0 < cacheObjSize c := Nat.lt_of_lt_of_le (by decide) (cacheObjSize_bounds hc).1

/-- A slot lies in its page, behind the header. -/
lemma slotAddr_inPage {c s j : ℕ} (hc : c < 8) (hj : j < slabCapacity c) :
    pageAddr s + 40 ≤ slotAddr c s j ∧ slotAddr c s j + cacheObjSize c ≤ pageAddr s + 4096 :=
  objAddr_inPage (cacheObjSize_pos hc) hj

lemma slotAddr_apart {c s j k : ℕ} (hjk : j < k) : slotAddr c s j + cacheObjSize c ≤ slotAddr c s k :=
  objAddr_apart hjk

lemma slotAddr_injective {c : ℕ} (s : ℕ) (hc : c < 8) : Function.Injective (slotAddr c s) :=
  objAddr_injective s (cacheObjSize_pos hc)

structure SlabOk (h : Heap) (c s : ℕ) (L : List ℕ) : Prop where
  parent : h.slabParentCache (pageAddr s) = c
  total : h.slabTotalCount (pageAddr s) = slabCapacity c
  count : h.slabFreeCount (pageAddr s) = L.length
  chain : Chain h.objNext 0 (h.slabFreeList (pageAddr s)) L
  nodup : L.Nodup
  slots : ∀ a ∈ L, ∃ j < slabCapacity c, a = slotAddr c s j

namespace SlabOk

variable {h h' : Heap} {c s : ℕ} {L : List ℕ}

/-- Bytes outside the counters of the header and the free objects do not matter. -/
theorem congr (ok : SlabOk h c s L) (hc : c < 8)
    (hhdr : Set.EqOn h'.mem h.mem (bytes (pageAddr s) 24))
    (hobj : ∀ a ∈ L, Set.EqOn h'.mem h.mem (bytes a (cacheObjSize c))) : SlabOk h' c s L := by
  have ho := cacheObjSize_bounds hc
  have hfield : ∀ o w, o + w ≤ 24 → load h'.mem (pageAddr s + o) w = load h.mem (pageAddr s + o) w := by
    intro o w how
    refine load_congr (hhdr.mono ?_)
    exact Set.Ico_subset_Ico (by omega) (by omega)
  refine ⟨(congrArg cacheAt (hfield 16 8 (by omega))).trans ok.parent, (hfield 12 4 (by omega)).trans ok.total,
    (hfield 8 4 (by omega)).trans ok.count, ?_, ok.nodup, ok.slots⟩
  have hlist : h'.slabFreeList (pageAddr s) = h.slabFreeList (pageAddr s) := hfield 0 8 (by omega)
  rw [hlist]
  refine ok.chain.congr fun a ha => load_congr ((hobj a ha).mono ?_)
  exact Set.Ico_subset_Ico (by omega) (by omega)

/-- A slab does not see changes of other pages and of link words. -/
theorem congr_page (ok : SlabOk h c s L) (hc : c < 8)
    (hm : ∀ a, inPage s a → ¬ inLinks s a → h'.mem a = h.mem a) : SlabOk h' c s L := by
  refine ok.congr hc ?_ ?_
  · intro a ha
    simp only [bytes, Set.mem_Ico] at ha
    exact hm a ⟨ha.1, by omega⟩ (fun hl => by have := hl.1; omega)
  · intro o ho a ha
    obtain ⟨j, hj, rfl⟩ := ok.slots o ho
    have hin := slotAddr_inPage (s := s) hc hj
    simp only [bytes, Set.mem_Ico] at ha
    exact hm a ⟨by omega, by omega⟩ (fun hl => by have := hl.2; omega)

lemma length_le (ok : SlabOk h c s L) : L.length ≤ slabCapacity c := by
  have hsub : L ⊆ (List.range (slabCapacity c)).map (slotAddr c s) := by
    intro a ha
    obtain ⟨j, hj, rfl⟩ := ok.slots a ha
    exact List.mem_map_of_mem (List.mem_range.mpr hj)
  have hle := (ok.nodup.subperm hsub).length_le
  simpa using hle

/-- When every object is free, every slot is on the free list. -/
lemma mem_of_full (ok : SlabOk h c s L) (hL : L.length = slabCapacity c) {j : ℕ}
    (hj : j < slabCapacity c) : slotAddr c s j ∈ L := by
  have hsub : L ⊆ (List.range (slabCapacity c)).map (slotAddr c s) := by
    intro a ha
    obtain ⟨j, hj, rfl⟩ := ok.slots a ha
    exact List.mem_map_of_mem (List.mem_range.mpr hj)
  have hperm := (ok.nodup.subperm hsub).perm_of_length_le (by simp [hL])
  exact hperm.mem_iff.mpr (List.mem_map_of_mem (List.mem_range.mpr hj))

lemma zero_notMem (ok : SlabOk h c s L) : 0 ∉ L := by
  intro hm
  obtain ⟨j, _, hj⟩ := ok.slots 0 hm
  have := pageAddr_eq s
  simp only [slotAddr] at hj
  omega

end SlabOk

namespace Heap

lemma slotAddr_lt {c s j : ℕ} (hc : c < 8) (hs : s < 4096) (hj : j < slabCapacity c) : slotAddr c s j < 2 ^ 64 :=
  objAddr_lt (cacheObjSize_pos hc) hs hj

/-- A page taken for a slab is filled with free objects in ascending order. -/
theorem slabCreate_effect {h r : Heap} {c x : ℕ} (hc : c < 8) (hx : x < 4096)
    (halloc : h.buddyAlloc 0 = (pageAddr x, r)) (hmeta : r.metadata x = ⟨0, false, false⟩)
    (hsize : (r.kernelCaches c).objSize = cacheObjSize c) :
    ∃ m, h.slabCreate c = (pageAddr x,
        { r with mem := m, metadata := Function.update r.metadata x ⟨0, false, true⟩ }) ∧
      (∀ a, ¬ inPage x a → m a = r.mem a) ∧
      SlabOk { r with mem := m, metadata := Function.update r.metadata x ⟨0, false, true⟩ } c x
        ((List.range (slabCapacity c)).map (slotAddr c x)) := by
  have ho := (cacheObjSize_bounds hc).1
  obtain ⟨m, heq, hout, hparent, hcount, htotal, hchain⟩ :=
    slabCreate_carves (by omega) (slabCapacity_bounds hc).1 hx halloc hsize
  rw [hmeta] at heq
  have hpointer : load64 m (pageAddr x + 16) = cachePointer c :=
    hparent.trans (Nat.mod_eq_of_lt (by unfold cachePointer; norm_num; omega))
  refine ⟨m, heq, hout, congrArg cacheAt hpointer, htotal, ?_, hchain, ?_, ?_⟩
  · rw [List.length_map, List.length_range]
    exact hcount
  · exact List.nodup_range.map (slotAddr_injective x hc)
  · intro a ha
    obtain ⟨j, hj, rfl⟩ := List.mem_map.mp ha
    exact ⟨j, List.mem_range.mp hj, rfl⟩

end Heap

end PointerOS
