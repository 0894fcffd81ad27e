import PointerOS.ByteMemory
import PointerOS.LinkedList
import PointerOS.BuddyBlocks
import Mathlib

/-!
# The kernel heap and its buddy allocator

The state of the heap is what `buddy.c`, `slab.c` and `kmalloc.c` share: the
bytes of kernel virtual memory, in which both allocators keep their links, and
the global arrays `free_areas`, `metadata` and `kernel_caches`. A pointer is its
64-bit address; a pointer into `kernel_caches` is the index of its entry.
-/
namespace PointerOS
open ByteMemory LinkedList

abbrev heapStart : ℕ := 0xFFFFE00000000000
abbrev heapSize : ℕ := 0x1000000
abbrev pageSize4KB : ℕ := 0x1000
abbrev maxOrders : ℕ := 12
abbrev totalPages : ℕ := 4096

/-- `page_metadata_t`; `order` is a bit field of width 4. -/
structure PageMetadata where
  order : ℕ
  isFree : Bool
  isSlab : Bool
  deriving DecidableEq, Repr

/-- `kmem_cache_t`. -/
structure KmemCache where
  objSize : ℕ
  slabsPartial : ℕ
  slabsFull : ℕ
  deriving DecidableEq, Repr

structure Heap where
  mem : Memory
  freeAreas : ℕ → ℕ
  metadata : ℕ → PageMetadata
  kernelCaches : ℕ → KmemCache

/-- The address of heap page `i`. -/
def pageAddr (i : ℕ) : ℕ := heapStart + i * pageSize4KB

/-- `int index = (addr - HEAP_START) / PAGE_SIZE_4KB`: a wrapping 64-bit
difference, cut to 32 bits. -/
def pageIndex (addr : ℕ) : ℕ := (addr + 2 ^ 64 - heapStart) % 2 ^ 64 / pageSize4KB % 2 ^ 32

namespace Heap

/-- `block->prev` of a `free_block_t`. -/
def blockPrev (h : Heap) (addr : ℕ) : ℕ := load64 h.mem addr

/-- `block->next` of a `free_block_t`. -/
def blockNext (h : Heap) (addr : ℕ) : ℕ := load64 h.mem (addr + 8)

def setBlockPrev (h : Heap) (addr v : ℕ) : Heap := { h with mem := store64 h.mem addr v }

def setBlockNext (h : Heap) (addr v : ℕ) : Heap := { h with mem := store64 h.mem (addr + 8) v }

def setFreeArea (h : Heap) (order v : ℕ) : Heap :=
  { h with freeAreas := Function.update h.freeAreas order v }

def setMetadata (h : Heap) (index : ℕ) (m : PageMetadata) : Heap :=
  { h with metadata := Function.update h.metadata index m }

def buddyListRemove (h : Heap) (addr order : ℕ) : Heap :=
  let h₁ := if h.blockPrev addr ≠ 0 then h.setBlockNext (h.blockPrev addr) (h.blockNext addr)
    else h.setFreeArea order (h.blockNext addr)
  let h₂ := if h₁.blockNext addr ≠ 0 then h₁.setBlockPrev (h₁.blockNext addr) (h₁.blockPrev addr)
    else h₁
  let index := pageIndex addr
  h₂.setMetadata index { h₂.metadata index with isFree := false }

def buddyListAdd (h : Heap) (addr order : ℕ) : Heap :=
  let h₁ := h.setBlockPrev addr 0
  let h₂ := h₁.setBlockNext addr (h₁.freeAreas order)
  let h₃ := if h₂.freeAreas order ≠ 0 then h₂.setBlockPrev (h₂.freeAreas order) addr else h₂
  let h₄ := h₃.setFreeArea order addr
  h₄.setMetadata (pageIndex addr) ⟨order % 16, true, false⟩

/-- The heap is left as one free block of the highest order. -/
def initBuddy (h : Heap) : Heap :=
  let h₁ : Heap := { h with
    freeAreas := fun i => if i ≤ maxOrders then 0 else h.freeAreas i
    metadata := fun i => if i < totalPages then ⟨0, false, false⟩ else h.metadata i }
  h₁.buddyListAdd heapStart maxOrders

/-- The loop `while (i > order)` of `buddy_alloc`: each turn frees the upper
half of the block held. -/
def splitBlock (h : Heap) (addr order : ℕ) : ℕ → Heap
  | 0 => h
  | i + 1 =>
    if order < i + 1 then
      splitBlock (h.buddyListAdd (addr ^^^ ((1 <<< i) * pageSize4KB)) i) addr order i
    else h

/-- The search loop of `buddy_alloc` from order `i`, with `n` orders to go. -/
def buddyAllocFrom (h : Heap) (order : ℕ) : ℕ → ℕ → ℕ × Heap
  | 0, _ => (0, h)
  | n + 1, i =>
    if h.freeAreas i ≠ 0 then
      let addr := h.freeAreas i
      let h₁ := (h.buddyListRemove addr i).splitBlock addr order i
      (addr, h₁.setMetadata (pageIndex addr) ⟨order % 16, false, false⟩)
    else buddyAllocFrom h order n (i + 1)

def buddyAlloc (h : Heap) (order : ℕ) : ℕ × Heap :=
  h.buddyAllocFrom order (maxOrders + 1 - order) order

/-- The loop of `buddy_free` at order `i`, with `n` orders to go. -/
def coalesce (h : Heap) : ℕ → ℕ → ℕ → Heap
  | 0, addr, i => h.buddyListAdd addr i
  | n + 1, addr, i =>
    let buddyAddr := addr ^^^ ((1 <<< i) * pageSize4KB)
    let m := h.metadata (pageIndex buddyAddr)
    if m.isFree ∧ m.order = i then
      coalesce (h.buddyListRemove buddyAddr i) n (if buddyAddr < addr then buddyAddr else addr) (i + 1)
    else h.buddyListAdd addr i

def buddyFree (h : Heap) (addr : ℕ) : Heap :=
  let i := (h.metadata (pageIndex addr)).order
  h.coalesce (maxOrders - i) addr i

end Heap

lemma Heap.buddyListAdd_metadata (h : Heap) (addr order : ℕ) :
    (h.buddyListAdd addr order).metadata =
      Function.update h.metadata (pageIndex addr) ⟨order % 16, true, false⟩ := by
  simp only [buddyListAdd]
  split_ifs <;> rfl

lemma Heap.initBuddy_metadata (h : Heap) (i : ℕ) :
    h.initBuddy.metadata i = if i = pageIndex heapStart then ⟨12, true, false⟩
      else if i < totalPages then ⟨0, false, false⟩ else h.metadata i := by
  simp only [initBuddy, buddyListAdd_metadata, Function.update_apply]
  rfl

/-! ## Page addresses -/

lemma pageAddr_eq (i : ℕ) : pageAddr i = 0xFFFFE00000000000 + i * 4096 := rfl

lemma pageAddr_pos (i : ℕ) : pageAddr i ≠ 0 := by
  rw [pageAddr_eq]
  omega

lemma pageAddr_injective : Function.Injective pageAddr := by
  intro i j h
  simp only [pageAddr_eq] at h
  omega

@[simp] lemma pageAddr_inj {i j : ℕ} : pageAddr i = pageAddr j ↔ i = j :=
  pageAddr_injective.eq_iff

/-- Every address in a page has the page's index. -/
theorem pageIndex_add {i off : ℕ} (hi : i < 4096) (ho : off < 4096) :
    pageIndex (pageAddr i + off) = i := by
  simp only [pageIndex, pageAddr_eq, heapStart, pageSize4KB]
  omega

lemma pageIndex_pageAddr {i : ℕ} (hi : i < 4096) : pageIndex (pageAddr i) = i := by
  simpa using pageIndex_add hi (show 0 < 4096 by omega)

/-- The address of the buddy is the page address of the flipped index. -/
theorem pageAddr_xor {i k : ℕ} (hi : i < 4096) (hk : k < 12) :
    pageAddr i ^^^ ((1 <<< k) * pageSize4KB) = pageAddr (i ^^^ 2 ^ k) := by
  have hk' : 2 ^ k ≤ 2 ^ 11 := Nat.pow_le_pow_right (by omega) (by omega)
  have hbase : 2 ^ 24 ∣ heapStart := by norm_num
  have h := BuddyBlocks.add_xor_of_dvd hbase (show i * 2 ^ 12 < 2 ^ 24 by omega)
    (show 2 ^ k * 2 ^ 12 < 2 ^ 24 by omega)
  rw [BuddyBlocks.mul_xor_two_pow] at h
  simpa only [pageAddr, Nat.shiftLeft_eq, one_mul, pageSize4KB, Nat.reducePow] using h

lemma xor_two_pow_lt {i k : ℕ} (hi : i < 4096) (hk : k < 12) : i ^^^ 2 ^ k < 4096 :=
  Nat.xor_lt_two_pow (n := 12) hi (Nat.pow_lt_pow_right (by omega) hk)

/-- The bytes of heap page `i`. -/
def inPage (i a : ℕ) : Prop := pageAddr i ≤ a ∧ a < pageAddr i + 4096

lemma inPage_unique {i j a : ℕ} (hi : inPage i a) (hj : inPage j a) : i = j := by
  simp only [inPage, pageAddr_eq] at hi hj
  omega

end PointerOS
