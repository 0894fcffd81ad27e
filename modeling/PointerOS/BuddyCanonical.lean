import PointerOS.BuddyRequests

/-!
# The free lists depend on the blocks in use alone

No two buddies are free, so the free blocks are the maximal aligned runs of free
pages, whatever the order of the requests and of the frees that led there. A
request is served from the lower end of a shortest such run that holds it.
-/
namespace PointerOS
open ByteMemory LinkedList BuddyBlocks

lemma pageFree_iff {h : Heap} {out : List ℕ} {p : ℕ} :
    PageFree h out p ↔ p < totalPages ∧ ∀ c ∈ handedOut h out, ¬c.Covers p :=
  and_congr_right fun _ =>
    ⟨fun hq _ ⟨q, hm, he⟩ => he ▸ hq q hm, fun hc q hm => hc _ ⟨q, hm, rfl⟩⟩

namespace BuddyState

variable {h : Heap} {out : List ℕ} {F : ℕ → List ℕ}

theorem mem_markedFree_iff (st : BuddyState h out F) (b : Block) :
    b ∈ markedFree h ↔ MaximalRun (PageFree h out) b := by
  have hP : PageFree h out = fun p => p < 4096 ∧ ∀ c ∈ handedOut h out, ¬c.Covers p :=
    funext fun p => propext pageFree_iff
  rw [st.inv.mem_markedFree, hP]
  exact st.inv.tiling.mem_iff_maximalRun (fun c hc => st.inv.notMem_owned hc) st.inv.coalesced (by decide) b

/-- The search takes the head of the first list that is not empty. -/
theorem buddyAllocFrom_least (st : BuddyState h out F) {order : ℕ} (n i : ℕ) (hn : i + n = 13)
    (hempty : ∀ k < i, order ≤ k → F k = []) (ho : order ≤ i) (h0 : (h.buddyAllocFrom order n i).1 ≠ 0) :
    ∃ c ∈ freeBlocks F, order ≤ c.order ∧ (h.buddyAllocFrom order n i).1 = pageAddr c.start ∧
      ∀ b ∈ freeBlocks F, order ≤ b.order → c.order ≤ b.order := by
  induction n generalizing i with
  | zero => exact absurd rfl h0
  | succ n ih =>
    have hi : i ≤ 12 := by omega
    by_cases hf : h.freeAreas i = 0
    · rw [Heap.buddyAllocFrom, if_neg (by simpa using hf)] at h0 ⊢
      refine ih (i + 1) (by omega) (fun k hk hok => ?_) (by omega) h0
      rcases Nat.lt_succ_iff_lt_or_eq.mp hk with hk | rfl
      · exact hempty k hk hok
      · exact (st.inv.lists.eq_nil_iff hi).mpr hf
    · have hhead := (st.inv.lists.links i hi).head_eq
      cases hF : F i with
      | nil => exact absurd ((st.inv.lists.eq_nil_iff hi).mp hF) hf
      | cons x rest =>
        rw [hF] at hhead
        have hle : ∀ b ∈ freeBlocks F, order ≤ b.order → i ≤ b.order := fun b hb hob =>
          not_lt.mp fun hlt => by simpa [hempty b.order hlt hob] using hb.2
        refine ⟨⟨x, i⟩, ⟨hi, by simp [hF]⟩, ho, ?_, hle⟩
        rw [Heap.buddyAllocFrom, if_pos hf]
        exact hhead

theorem buddyAlloc_least (st : BuddyState h out F) {order : ℕ} (h0 : (h.buddyAlloc order).1 ≠ 0) :
    ∃ c ∈ freeBlocks F, order ≤ c.order ∧ (h.buddyAlloc order).1 = pageAddr c.start ∧
      ∀ b ∈ freeBlocks F, order ≤ b.order → c.order ≤ b.order := by
  have ho : order ≤ 12 := by
    by_contra hgt
    have hn : maxOrders + 1 - order = 0 := show 13 - order = 0 by omega
    rw [Heap.buddyAlloc, hn] at h0
    exact h0 rfl
  exact st.buddyAllocFrom_least (13 - order) order (by omega) (fun k hk hok => by omega) le_rfl h0

end BuddyState

/-- The free blocks are the maximal runs of free pages, whatever calls led to them, and an allocation is cut from a
smallest one that is large enough. -/
theorem buddy_canonical {h : Heap} {out : List ℕ} (run : BuddyRun h out) :
    (∀ b, b ∈ markedFree h ↔ MaximalRun (PageFree h out) b) ∧
    (∀ h' out', BuddyRun h' out' → handedOut h' out' = handedOut h out → markedFree h' = markedFree h) ∧
    ∀ order, (h.buddyAlloc order).1 ≠ 0 →
      ∃ c, MaximalRun (PageFree h out) c ∧ order ≤ c.order ∧ (h.buddyAlloc order).1 = pageAddr c.start ∧
        ∀ b, MaximalRun (PageFree h out) b → order ≤ b.order → c.order ≤ b.order := by
  obtain ⟨F, st⟩ := run.state
  have hmem := fun b => (st.inv.mem_markedFree b).symm.trans (st.mem_markedFree_iff b)
  refine ⟨st.mem_markedFree_iff, fun h' out' run' hsame => ?_, fun order h0 => ?_⟩
  · obtain ⟨F', st'⟩ := run'.state
    ext b
    have hP : PageFree h' out' = PageFree h out := by
      funext p
      simp only [pageFree_iff, hsame]
    rw [st.mem_markedFree_iff, st'.mem_markedFree_iff, hP]
  · obtain ⟨c, hc, hle, hp, hleast⟩ := st.buddyAlloc_least h0
    exact ⟨c, (hmem c).mp hc, hle, hp, fun b hb => hleast b ((hmem b).mpr hb)⟩

/-- The heap after two halves are handed out and the second is returned. -/
def halfReturned : Heap :=
  ((blankHeap.initBuddy.buddyAlloc 11).2.buddyAlloc 11).2.buddyFree
    ((blankHeap.initBuddy.buddyAlloc 11).2.buddyAlloc 11).1

theorem buddy_canonical_half :
    markedFree halfReturned = markedFree (blankHeap.initBuddy.buddyAlloc 11).2 := by
  have hfst : (blankHeap.initBuddy.buddyAlloc 11).1 ≠ 0 := by decide +kernel
  have hsnd : ((blankHeap.initBuddy.buddyAlloc 11).2.buddyAlloc 11).1 ≠ 0 := by decide +kernel
  have hpage : pageIndex (blankHeap.initBuddy.buddyAlloc 11).1 = 0 := by decide +kernel
  have hmeta : halfReturned.metadata 0 = (blankHeap.initBuddy.buddyAlloc 11).2.metadata 0 := by decide +kernel
  have hrun := BuddyRun.alloc 11 (BuddyRun.init blankHeap)
  rw [if_neg hfst] at hrun
  have hboth := BuddyRun.alloc 11 hrun
  rw [if_neg hsnd] at hboth
  have hfreed := BuddyRun.free hboth List.mem_cons_self
  rw [List.erase_cons_head] at hfreed
  refine (buddy_canonical hrun).2.1 _ _ hfreed (BuddyState.handedOut_congr fun p hp => ?_)
  rw [List.mem_singleton.mp hp, hpage]
  exact hmeta

end PointerOS
