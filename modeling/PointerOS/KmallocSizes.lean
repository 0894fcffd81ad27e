import PointerOS.HeapRuns

/-!
# Which sizes `kmalloc` serves

Doubling reaches every request of up to `2 ^ 63` bytes, and stops at the least
order that holds it. A larger request is never reached: the doubled size becomes
zero, and the loop goes on for ever with the heap's lock held.
-/
namespace PointerOS
open ByteMemory LinkedList BuddyBlocks

/-- The order the loop stops at is the least one. -/
theorem kmallocOrder_least {size : ℕ} (hsize : size ≤ 2 ^ 63) (n order : ℕ) (hn : n + order = 64)
    (ho : order ≤ 51) {k : ℕ} (hk : kmallocOrder size n (2 ^ (order + 12)) order = some k) {j : ℕ}
    (hle : order ≤ j) (hj : j < k) : 2 ^ j * 4096 < size := by
  induction n generalizing order with
  | zero => omega
  | succ n ih =>
    have hpow : 2 ^ (order + 12) = 2 ^ order * 4096 := by rw [pow_add]; norm_num
    rw [kmallocOrder] at hk
    split_ifs at hk with hlt
    · have hne : order ≠ 51 := by
        rintro rfl
        omega
      have hmod : 2 ^ (order + 12) * 2 % 2 ^ 64 = 2 ^ (order + 1 + 12) := by
        rw [← pow_succ, Nat.mod_eq_of_lt (Nat.pow_lt_pow_right (by omega) (by omega))]
      rw [hmod] at hk
      by_cases hjo : j = order
      · rw [hjo, ← hpow]
        exact hlt
      · exact ih (order + 1) (by omega) (by omega) hk (by omega)
    · obtain rfl := Option.some.inj hk
      omega

/-- What the doubled size can be: a power of two, or zero from then on. -/
def Doubled (s : ℕ) : Prop := s = 0 ∨ ∃ j ≤ 63, s = 2 ^ j

lemma Doubled.next {s : ℕ} (h : Doubled s) : Doubled (s * 2 % 2 ^ 64) := by
  obtain rfl | ⟨j, hj, rfl⟩ := h
  · exact .inl rfl
  · rw [← pow_succ]
    by_cases htop : j = 63
    · exact .inl (by rw [htop, Nat.mod_self])
    · exact .inr ⟨j + 1, by omega, Nat.mod_eq_of_lt (Nat.pow_lt_pow_right (by omega) (by omega))⟩

lemma Doubled.le {s : ℕ} (h : Doubled s) : s ≤ 2 ^ 63 := by
  obtain rfl | ⟨j, hj, rfl⟩ := h
  · exact Nat.zero_le _
  · exact Nat.pow_le_pow_right (by omega) hj

/-- A request of more than `2 ^ 63` bytes is never reached, however long the
loop runs. -/
theorem kmallocOrder_diverges {size : ℕ} (hsize : 2 ^ 63 < size) (n order : ℕ) {s : ℕ} (hs : Doubled s) :
    kmallocOrder size n s order = none := by
  induction n generalizing s order with
  | zero => rfl
  | succ n ih =>
    rw [kmallocOrder, if_pos (lt_of_le_of_lt hs.le hsize)]
    exact ih (order + 1) hs.next

lemma doubled_page : Doubled pageSize4KB := .inr ⟨12, by omega, rfl⟩

namespace Heap

/-- The result comes from the smallest cache whose objects are large enough. -/
def FromCache (h : Heap) (size : ℕ) (r : ℕ × Heap) : Prop :=
  ∃ c < numCaches, size ≤ (h.kernelCaches c).objSize ∧
    (∀ d < numCaches, size ≤ (h.kernelCaches d).objSize → (h.kernelCaches c).objSize ≤ (h.kernelCaches d).objSize) ∧
    r = h.slabAlloc c

/-- The result is a block of the least order that holds the request. -/
def FromBuddy (h : Heap) (size : ℕ) (r : ℕ × Heap) : Prop :=
  ∃ order, size ≤ 2 ^ order * pageSize4KB ∧ (∀ k, size ≤ 2 ^ k * pageSize4KB → order ≤ k) ∧
    r = h.buddyAlloc order ∧ recordedBlock r.2 r.1 = ⟨pageIndex r.1, order⟩

/-- `kmalloc` of `size` bytes returns, from the right place. -/
def Serves (h : Heap) (size : ℕ) : Prop :=
  ∃ r, h.kmalloc size = some r ∧ (r.1 ≠ 0 → h.FromCache size r ∨ h.FromBuddy size r) ∧
    (heapSize < size → r.1 = 0)

lemma buddyAlloc_large (h : Heap) {order : ℕ} (ho : maxOrders < order) : h.buddyAlloc order = (0, h) := by
  have h0 : maxOrders + 1 - order = 0 := by omega
  rw [buddyAlloc, h0]
  rfl

end Heap

variable {h : Heap} {live : List (ℕ × ℕ)} {size : ℕ}

theorem HeapInv.serves_small (inv : HeapInv h live) (hpos : size ≠ 0) (hsize : size ≤ 2048) : h.Serves size := by
  obtain ⟨F, G, L, B, core, hf⟩ := inv
  have hobj : ∀ c < numCaches, (h.kernelCaches c).objSize = cacheObjSize c := core.objSize
  have hmono : ∀ c < numCaches, ∀ d < numCaches, c ≤ d → cacheObjSize c ≤ cacheObjSize d := by decide
  have hlarge : size ≤ heapSize := le_trans hsize (by decide)
  cases hfind : (List.range numCaches).find? (fun i => decide (size ≤ (h.kernelCaches i).objSize)) with
  | none =>
    have h7 := List.find?_eq_none.mp hfind 7 (by decide)
    rw [hobj 7 (by decide)] at h7
    exact absurd hsize (by simpa [cacheObjSize, Heap.slabSizes] using h7)
  | some c =>
    have hc : c < numCaches := List.mem_range.mp (List.mem_of_find?_eq_some hfind)
    obtain ⟨hsz, i, hi, hic, hless⟩ := List.find?_eq_some_iff_getElem.mp hfind
    rw [List.getElem_range] at hic
    refine ⟨h.slabAlloc c, ?_, fun _ => .inl ⟨c, hc, by simpa using hsz, fun d hd hdsz => ?_, rfl⟩,
      fun hbig => absurd hbig (by omega)⟩
    · rw [Heap.kmalloc, if_neg hpos, if_neg (by omega), hfind]
    · rw [hobj c hc, hobj d hd]
      refine hmono c hc d hd (not_lt.mp fun hlt => ?_)
      have hnot : ¬size ≤ (h.kernelCaches d).objSize := by simpa using hless d (by omega)
      exact hnot hdsz

theorem HeapInv.serves_large (inv : HeapInv h live) (hsize : 2048 < size) (hle : size ≤ 2 ^ 63) : h.Serves size := by
  obtain ⟨F, G, L, B, core, -⟩ := inv
  obtain ⟨order, horder, hfit⟩ := kmallocOrder_spec hle 64 0 (by omega) (by omega)
  have horder' : kmallocOrder size 64 pageSize4KB 0 = some order := horder
  have hleast : ∀ k, size ≤ 2 ^ k * pageSize4KB → order ≤ k := fun k hk => not_lt.mp fun hlt =>
    absurd (kmallocOrder_least hle 64 0 (by omega) (by omega) horder (Nat.zero_le k) hlt) (not_lt.mpr hk)
  refine ⟨h.buddyAlloc order, ?_, fun hne => .inr ⟨order, hfit, hleast, rfl, ?_⟩, fun hbig => ?_⟩
  · rw [Heap.kmalloc, if_neg (by omega), if_pos hsize, horder', Option.map_some]
  · rcases core.allocBlock order with hr | ⟨x, F', hp, core', -, hmeta, -⟩
    · exact absurd (congrArg Prod.fst hr) hne
    · have hx : x < 4096 := core'.buddy.start_lt (b := ⟨x, order⟩) (Or.inr (Or.inr (Or.inl rfl)))
      simp only [recordedBlock, hp, pageIndex_pageAddr hx, hmeta]
  · rw [h.buddyAlloc_large]
    by_contra hno
    have hpow : 2 ^ order ≤ 2 ^ 12 := Nat.pow_le_pow_right (by omega) (not_lt.mp hno)
    simp only [heapSize] at hbig
    omega

/-- Of all sizes `kmalloc` serves those up to half the address space; for larger ones it never returns. -/
theorem kmalloc_serves_iff (run : HeapRun h live) (size : ℕ) : h.Serves size ↔ size ≤ 2 ^ 63 := by
  constructor
  · rintro ⟨r, hr, -⟩
    by_contra hlarge
    rw [Heap.kmalloc, if_neg (by omega), if_pos (by omega),
      kmallocOrder_diverges (not_le.mp hlarge) 64 0 doubled_page] at hr
    cases hr
  · intro hle
    by_cases h0 : size = 0
    · exact ⟨(0, h), by rw [Heap.kmalloc, if_pos h0], fun hne => absurd rfl hne, fun _ => rfl⟩
    · by_cases hsmall : size ≤ 2048
      · exact run.inv.serves_small h0 hsmall
      · exact run.inv.serves_large (not_le.mp hsmall) hle

theorem kmalloc_serves_iff_start : blankHeap.initKheap.Serves 5000 :=
  (kmalloc_serves_iff (HeapRun.init blankHeap) 5000).mpr (by norm_num)

/-- No number of turns ends the loop for the least size above `2 ^ 63`. -/
theorem kmalloc_diverges :
    (∀ n, kmallocOrder (2 ^ 63 + 1) n pageSize4KB 0 = none) ∧ ¬blankHeap.initKheap.Serves (2 ^ 63 + 1) := by
  refine ⟨fun n => kmallocOrder_diverges (by norm_num) n 0 doubled_page, ?_⟩
  rintro ⟨r, hr, -⟩
  rw [Heap.kmalloc, if_neg (by norm_num), if_pos (by norm_num),
    kmallocOrder_diverges (by norm_num) 64 0 doubled_page] at hr
  cases hr

end PointerOS
