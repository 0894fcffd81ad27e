import PointerOS.SlabObjects

/-!
# `kmalloc` and `kfree`

Sizes up to 2048 bytes are served by the first cache whose objects are large
enough, larger ones by a power-of-two run of pages. `kfree` finds the allocator
of a pointer in the metadata of its page. Both hold one lock throughout, so a
call is one step.
-/
namespace PointerOS
open ByteMemory LinkedList

/-- `while (s < size) { s <<= 1; order++; }` in 64-bit arithmetic. When `s` has
reached zero the loop never ends; the result is then `none`. -/
def kmallocOrder (size : ℕ) : ℕ → ℕ → ℕ → Option ℕ
  | 0, _, _ => none
  | n + 1, s, order =>
    if s < size then kmallocOrder size n (s * 2 % 2 ^ 64) (order + 1) else some order

namespace Heap

/-- `init_buddy` and `init_slab`, the part of `init_kheap` after the mapping. -/
def initKheap (h : Heap) : Heap := h.initBuddy.initSlab

def kmalloc (h : Heap) (size : ℕ) : Option (ℕ × Heap) :=
  if size = 0 then some (0, h)
  else if 2048 < size then
    (kmallocOrder size 64 pageSize4KB 0).map h.buddyAlloc
  else match (List.range numCaches).find? (fun i => decide (size ≤ (h.kernelCaches i).objSize)) with
    | some i => some (h.slabAlloc i)
    | none => some (0, h)

def kfree (h : Heap) (ptr : ℕ) : Heap :=
  if ptr = 0 then h
  else if (h.metadata (pageIndex ptr)).isSlab then h.slabFree ptr
  else h.buddyFree ptr

end Heap

/-- Up to `2 ^ 63` bytes the loop ends with the least order whose block holds the
request. -/
theorem kmallocOrder_spec {size : ℕ} (hsize : size ≤ 2 ^ 63) (n order : ℕ) (hn : n + order = 64)
    (ho : order ≤ 51) :
    ∃ k, kmallocOrder size n (2 ^ (order + 12)) order = some k ∧ size ≤ 2 ^ k * 4096 := by
  induction n generalizing order with
  | zero => omega
  | succ n ih =>
    rw [kmallocOrder]
    split_ifs with hlt
    · have hne : order ≠ 51 := by
        rintro rfl
        omega
      have hmod : 2 ^ (order + 12) * 2 % 2 ^ 64 = 2 ^ (order + 1 + 12) := by
        rw [← pow_succ, Nat.mod_eq_of_lt (Nat.pow_lt_pow_right (by omega) (by omega))]
      rw [hmod]
      exact ih (order + 1) (by omega) (by omega)
    · refine ⟨order, rfl, ?_⟩
      have hpow : 2 ^ (order + 12) = 2 ^ order * 4096 := by rw [pow_add]; norm_num
      omega

end PointerOS
