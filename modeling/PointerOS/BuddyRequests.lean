import PointerOS.BuddyRuns

/-!
# When `buddy_alloc` fails

The search looks at the heads of the lists only. Since no two buddies are free,
a naturally aligned run of free pages always lies in one block on one of these
lists, so that the search fails only if there is no such run.
-/
namespace PointerOS
open ByteMemory LinkedList BuddyBlocks

/-- A page of the heap in no block handed out. -/
def PageFree (h : Heap) (out : List ℕ) (p : ℕ) : Prop :=
  p < totalPages ∧ ∀ q ∈ out, ¬(recordedBlock h q).Covers p

/-- A naturally aligned run of pages of the heap that are all free. -/
structure FreeRun (h : Heap) (out : List ℕ) (b : Block) : Prop where
  aligned : b.Aligned
  free : ∀ p, b.Covers p → PageFree h out p

namespace BuddyState

variable {h : Heap} {out : List ℕ} {F : ℕ → List ℕ} {p x order : ℕ}

theorem mem_freePages_iff (st : BuddyState h out F) : p ∈ freePages F ↔ PageFree h out p := by
  constructor
  · rintro ⟨b, hb, hbp⟩
    have hle := st.inv.tiling.bounded b (Or.inl hb)
    have hlt : p < b.start + 2 ^ b.order := hbp.2
    refine ⟨lt_of_lt_of_le hlt hle, fun q hq hqp => ?_⟩
    exact st.inv.notMem_freePages ⟨q, hq, rfl⟩ hqp ⟨b, hb, hbp⟩
  · rintro ⟨hp, hout⟩
    obtain ⟨b, hb | ⟨q, hq, rfl⟩, hbp⟩ := st.inv.tiling.covering p hp
    · exact ⟨b, hb, hbp⟩
    · exact absurd hbp (hout q hq)

/-- A free run has a block at least as long on one of the lists. -/
theorem exists_block (st : BuddyState h out F) (ho : order ≤ maxOrders) (hrun : FreeRun h out ⟨x, order⟩) :
    ∃ k ≤ maxOrders, order ≤ k ∧ F k ≠ [] := by
  obtain ⟨c, hc, hle, -⟩ := Block.exists_large (A := freeBlocks F) (m := maxOrders)
    (fun b hb => st.inv.tiling.aligned b (Or.inl hb)) st.inv.coalesced order x ho hrun.aligned
    fun p h1 h2 => st.mem_freePages_iff.mpr (hrun.free p ⟨h1, h2⟩)
  exact ⟨c.order, hc.1, hle, List.ne_nil_of_mem hc.2⟩

end BuddyState

/-- The address of an aligned block is aligned to its length in bytes. -/
lemma dvd_pageAddr {x order : ℕ} (ho : order ≤ maxOrders) (hx : 2 ^ order ∣ x) :
    2 ^ order * pageSize4KB ∣ pageAddr x := by
  have hstart : 2 ^ order * pageSize4KB ∣ heapStart :=
    dvd_trans (Nat.mul_dvd_mul_right (pow_dvd_pow 2 ho) _) (by decide)
  exact Dvd.dvd.add hstart (Nat.mul_dvd_mul_right hx _)

/-- A block is refused only when no aligned run of free pages is long enough, and one that is handed out was such
a run. -/
theorem buddy_alloc_complete {h : Heap} {out : List ℕ} (run : BuddyRun h out) {order : ℕ}
    (ho : order ≤ maxOrders) :
    ((h.buddyAlloc order).1 = 0 ↔ ¬∃ x, FreeRun h out ⟨x, order⟩) ∧
    ((h.buddyAlloc order).1 ≠ 0 → ∃ x, FreeRun h out ⟨x, order⟩ ∧ (h.buddyAlloc order).1 = pageAddr x ∧
      2 ^ order * pageSize4KB ∣ (h.buddyAlloc order).1 ∧
      recordedBlock (h.buddyAlloc order).2 (h.buddyAlloc order).1 = ⟨x, order⟩) := by
  obtain ⟨F, st⟩ := run.state
  rcases st.inv.buddyAlloc order with ⟨hr, hempty⟩ | ⟨x, F', -, hp, inv', -, hmeta, -, hfree⟩
  · have hnone : ¬∃ x, FreeRun h out ⟨x, order⟩ := by
      rintro ⟨x, hrun⟩
      obtain ⟨k, hk, hle, hne⟩ := st.exists_block ho hrun
      exact hne (hempty k hk hle)
    rw [hr]
    exact ⟨iff_of_true rfl hnone, fun hne => absurd rfl hne⟩
  · have hin : (⟨x, order⟩ : Block) ∈ freeBlocks F' ∪ insert ⟨x, order⟩ (handedOut h out) :=
      Or.inr (Or.inl rfl)
    have hal : (⟨x, order⟩ : Block).Aligned := inv'.tiling.aligned _ hin
    have hrun : FreeRun h out ⟨x, order⟩ := ⟨hal, fun p hp => st.mem_freePages_iff.mp (hfree p hp)⟩
    have hx : x < 4096 := inv'.start_lt hin
    rw [hp]
    refine ⟨iff_of_false (pageAddr_pos x) fun hnone => hnone ⟨x, hrun⟩, fun _ => ⟨x, hrun, rfl, ?_, ?_⟩⟩
    · exact dvd_pageAddr ho hal
    · simp only [recordedBlock, pageIndex_pageAddr hx, hmeta]

theorem buddy_alloc_complete_whole :
    (((blankHeap.initBuddy.buddyAlloc 12).2.buddyAlloc 0).1 = 0 ↔
      ¬∃ x, FreeRun (blankHeap.initBuddy.buddyAlloc 12).2 [(blankHeap.initBuddy.buddyAlloc 12).1] ⟨x, 0⟩) := by
  have hne : (blankHeap.initBuddy.buddyAlloc 12).1 ≠ 0 := by decide
  have hrun := BuddyRun.alloc 12 (BuddyRun.init blankHeap)
  rw [if_neg hne] at hrun
  exact (buddy_alloc_complete hrun (by decide)).1

end PointerOS
