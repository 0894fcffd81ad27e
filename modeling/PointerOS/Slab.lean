import PointerOS.BuddyInvariant

/-!
# The slab allocator

A slab is one heap page: a header `slab_t` of 40 bytes and then objects of one
size. The free objects of a slab are chained through their first words, and the
slabs of a cache with and without free objects form two doubly linked lists
through the headers. A list head of `kernel_caches` is named by `SlabHead`. A
pointer to `kernel_caches[cache]` is `cache + 1`, so that `NULL` is at none of them.
-/
namespace PointerOS
open ByteMemory LinkedList

abbrev numCaches : ℕ := 8

/-- `sizeof(slab_t)`. -/
abbrev slabHeaderSize : ℕ := 40

/-- The address of a list head: `&kernel_caches[cache].slabs_partial` or
`&kernel_caches[cache].slabs_full`. -/
inductive SlabHead where
  | slabsPartial (cache : ℕ)
  | slabsFull (cache : ℕ)
  deriving DecidableEq, Repr

def SlabHead.cache : SlabHead → ℕ
  | slabsPartial c => c
  | slabsFull c => c

/-- `&kernel_caches[cache]`. -/
def cachePointer (cache : ℕ) : ℕ := cache + 1

/-- The number of the cache at `p`. `NULL` is the pointer to no cache of the array. -/
def cacheAt (p : ℕ) : ℕ := if p = 0 then numCaches else p - 1

@[simp] theorem cacheAt_cachePointer (cache : ℕ) : cacheAt (cachePointer cache) = cache := rfl

namespace Heap

/-! ## The fields of `slab_t` -/

def slabFreeList (h : Heap) (slab : ℕ) : ℕ := load64 h.mem slab
def slabFreeCount (h : Heap) (slab : ℕ) : ℕ := load32 h.mem (slab + 8)
def slabTotalCount (h : Heap) (slab : ℕ) : ℕ := load32 h.mem (slab + 12)
def slabParentCache (h : Heap) (slab : ℕ) : ℕ := cacheAt (load64 h.mem (slab + 16))
def slabPrev (h : Heap) (slab : ℕ) : ℕ := load64 h.mem (slab + 24)
def slabNext (h : Heap) (slab : ℕ) : ℕ := load64 h.mem (slab + 32)

/-- `*(void**)obj`, the link of a free object. -/
def objNext (h : Heap) (obj : ℕ) : ℕ := load64 h.mem obj

def write64 (h : Heap) (a v : ℕ) : Heap := { h with mem := store64 h.mem a v }
def write32 (h : Heap) (a v : ℕ) : Heap := { h with mem := store32 h.mem a v }

def setSlabFreeList (h : Heap) (slab v : ℕ) : Heap := h.write64 slab v
def setSlabFreeCount (h : Heap) (slab v : ℕ) : Heap := h.write32 (slab + 8) v
def setSlabTotalCount (h : Heap) (slab v : ℕ) : Heap := h.write32 (slab + 12) v
def setSlabParentCache (h : Heap) (slab cache : ℕ) : Heap := h.write64 (slab + 16) (cachePointer cache)
def setSlabPrev (h : Heap) (slab v : ℕ) : Heap := h.write64 (slab + 24) v
def setSlabNext (h : Heap) (slab v : ℕ) : Heap := h.write64 (slab + 32) v

def headOf (h : Heap) : SlabHead → ℕ
  | .slabsPartial c => (h.kernelCaches c).slabsPartial
  | .slabsFull c => (h.kernelCaches c).slabsFull

def setHead (h : Heap) (head : SlabHead) (v : ℕ) : Heap :=
  match head with
  | .slabsPartial c =>
    { h with kernelCaches := Function.update h.kernelCaches c { h.kernelCaches c with slabsPartial := v } }
  | .slabsFull c =>
    { h with kernelCaches := Function.update h.kernelCaches c { h.kernelCaches c with slabsFull := v } }

/-! ## The functions of `slab.c` -/

/-- `int sizes[]` of `init_slab`. -/
def slabSizes : List ℕ := [16, 32, 64, 128, 256, 512, 1024, 2048]

def initSlab (h : Heap) : Heap :=
  { h with kernelCaches := fun i => if i < numCaches then ⟨slabSizes.getD i 0, 0, 0⟩ else h.kernelCaches i }

/-- The last line of the source, `slab->prev = slab->prev = NULL`, leaves `next`. -/
def slabListRemove (h : Heap) (head : SlabHead) (slab : ℕ) : Heap :=
  let h₁ := if h.slabNext slab ≠ 0 then h.setSlabPrev (h.slabNext slab) (h.slabPrev slab) else h
  let h₂ := if h₁.slabPrev slab ≠ 0 then h₁.setSlabNext (h₁.slabPrev slab) (h₁.slabNext slab)
    else h₁.setHead head (h₁.slabNext slab)
  h₂.setSlabPrev slab 0

def slabListAdd (h : Heap) (head : SlabHead) (slab : ℕ) : Heap :=
  let h₁ := h.setSlabNext slab (h.headOf head)
  let h₂ := h₁.setSlabPrev slab 0
  let h₃ := if h₂.headOf head ≠ 0 then h₂.setSlabPrev (h₂.headOf head) slab else h₂
  h₃.setHead head slab

/-- The loop of `slab_create` from `curr`; every turn of the source advances by
the object size, so `n` turns are enough when `n` objects cannot fit. -/
def carve (h : Heap) (slab objSize pageEnd : ℕ) : ℕ → ℕ → Heap
  | 0, _ => h
  | n + 1, curr =>
    if curr + objSize ≤ pageEnd then
      let next := curr + objSize
      let h₁ := h.write64 curr (if next + objSize ≤ pageEnd then next else 0)
      let h₂ := h₁.setSlabFreeCount slab (h₁.slabFreeCount slab + 1)
      carve h₂ slab objSize pageEnd n next
    else h

def slabCreate (h : Heap) (cache : ℕ) : ℕ × Heap :=
  let r := h.buddyAlloc 0
  let page := r.1
  if page = 0 then (0, r.2) else
    let index := pageIndex page
    let h₁ := r.2.setMetadata index { r.2.metadata index with isSlab := true }
    let h₂ := h₁.setSlabParentCache page cache
    let firstObj := (page + slabHeaderSize + 7) / 8 * 8
    let pageEnd := page + pageSize4KB
    let h₃ := (h₂.setSlabFreeList page firstObj).setSlabFreeCount page 0
    let h₄ := h₃.carve page (h₃.kernelCaches cache).objSize pageEnd pageSize4KB firstObj
    (page, h₄.setSlabTotalCount page (h₄.slabFreeCount page))

/-- The part of `slab_alloc` after a slab with a free object is at the head. -/
def slabTake (h : Heap) (cache : ℕ) : ℕ × Heap :=
  let slab := (h.kernelCaches cache).slabsPartial
  let obj := h.slabFreeList slab
  let h₁ := h.setSlabFreeList slab (h.objNext obj)
  let h₂ := h₁.setSlabFreeCount slab ((h₁.slabFreeCount slab + 2 ^ 32 - 1) % 2 ^ 32)
  let h₃ := if h₂.slabFreeCount slab = 0 then
      (h₂.slabListRemove (.slabsPartial cache) slab).slabListAdd (.slabsFull cache) slab
    else h₂
  (obj, h₃)

def slabAlloc (h : Heap) (cache : ℕ) : ℕ × Heap :=
  if (h.kernelCaches cache).slabsPartial = 0 then
    let r := h.slabCreate cache
    if r.1 = 0 then (0, r.2) else (r.2.slabListAdd (.slabsPartial cache) r.1).slabTake cache
  else h.slabTake cache

/-- The part of `slab_free` after the slab is on the partial list. -/
def slabPut (h : Heap) (cache slab ptr : ℕ) : Heap :=
  let h₂ := h.write64 ptr (h.slabFreeList slab)
  let h₃ := h₂.setSlabFreeList slab ptr
  let h₄ := h₃.setSlabFreeCount slab (h₃.slabFreeCount slab + 1)
  if h₄.slabFreeCount slab = h₄.slabTotalCount slab then
    let h₅ := h₄.slabListRemove (.slabsPartial cache) slab
    let index := pageIndex ptr
    let h₆ := h₅.setMetadata index { h₅.metadata index with isSlab := false }
    h₆.buddyFree slab
  else h₄

/-- `slab_free`; `ptr & PAGE_MASK_4KB` clears the low 12 bits. -/
def slabFree (h : Heap) (ptr : ℕ) : Heap :=
  if ptr = 0 then h else
    let slab := ptr / pageSize4KB * pageSize4KB
    let cache := h.slabParentCache slab
    let h₁ := if h.slabFreeCount slab = 0 then
        (h.slabListRemove (.slabsFull cache) slab).slabListAdd (.slabsPartial cache) slab
      else h
    h₁.slabPut cache slab ptr

end Heap

end PointerOS
