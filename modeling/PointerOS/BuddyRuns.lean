import PointerOS.BuddyInvariant

/-!
# Runs of the buddy allocator

A run starts from `init_buddy` and interleaves allocations, frees of blocks in
use and arbitrary writes of the owners into their blocks. The list beside the
heap holds the pointers handed out and not freed since.
-/
namespace PointerOS
open ByteMemory LinkedList BuddyBlocks

/-- The block of a pointer, of the order that its metadata records. -/
def recordedBlock (h : Heap) (p : ℕ) : Block := ⟨pageIndex p, (h.metadata (pageIndex p)).order⟩

/-- The blocks the metadata marks free. -/
def markedFree (h : Heap) : Set Block :=
  {b | b.start < totalPages ∧ (h.metadata b.start).isFree = true ∧ (h.metadata b.start).order = b.order}

def handedOut (h : Heap) (out : List ℕ) : Set Block := {b | ∃ p ∈ out, b = recordedBlock h p}

inductive BuddyRun : Heap → List ℕ → Prop
  | init (h : Heap) : BuddyRun h.initBuddy []
  | alloc {h : Heap} {out : List ℕ} (order : ℕ) (run : BuddyRun h out) :
      BuddyRun (h.buddyAlloc order).2
        (if (h.buddyAlloc order).1 = 0 then out else (h.buddyAlloc order).1 :: out)
  | free {h : Heap} {out : List ℕ} {p : ℕ} (run : BuddyRun h out) (hp : p ∈ out) :
      BuddyRun (h.buddyFree p) (out.erase p)
  | write {h : Heap} {out : List ℕ} (m : Memory) (run : BuddyRun h out)
      (hm : ∀ a, m a ≠ h.mem a →
        ∃ p ∈ out, p ≤ a ∧ a < p + 2 ^ (recordedBlock h p).order * pageSize4KB) :
      BuddyRun { h with mem := m } out

/-- The pointers handed out are distinct page addresses whose blocks, with the
free blocks, satisfy the allocator's invariant. -/
structure BuddyState (h : Heap) (out : List ℕ) (F : ℕ → List ℕ) : Prop where
  inv : BuddyInv h F (handedOut h out)
  nodup : out.Nodup
  page : ∀ p ∈ out, ∃ x < 4096, p = pageAddr x

namespace BuddyState

variable {h : Heap} {out : List ℕ} {F : ℕ → List ℕ}

lemma handedOut_congr {h' : Heap} (hm : ∀ p ∈ out, h'.metadata (pageIndex p) = h.metadata (pageIndex p)) :
    handedOut h' out = handedOut h out := by
  ext b
  constructor
  · rintro ⟨p, hp, rfl⟩
    exact ⟨p, hp, by simp only [recordedBlock, hm p hp]⟩
  · rintro ⟨p, hp, rfl⟩
    exact ⟨p, hp, by simp only [recordedBlock, hm p hp]⟩

lemma notMem_freePages (st : BuddyState h out F) {p : ℕ} (hp : p ∈ out) : pageIndex p ∉ freePages F :=
  st.inv.notMem_freePages ⟨p, hp, rfl⟩ (Block.covers_start (recordedBlock h p))

theorem alloc (st : BuddyState h out F) (order : ℕ) :
    ∃ F', BuddyState (h.buddyAlloc order).2
      (if (h.buddyAlloc order).1 = 0 then out else (h.buddyAlloc order).1 :: out) F' := by
  rcases st.inv.buddyAlloc order with ⟨hr, _⟩ | ⟨x, F', _, hp, inv', hxO, hmeta, hch, _⟩
  · rw [hr, if_pos rfl]
    exact ⟨F, st⟩
  · have hxlt : x < 4096 := inv'.start_lt (b := ⟨x, order⟩) (Or.inr (Or.inl rfl))
    have hsame : handedOut (h.buddyAlloc order).2 out = handedOut h out :=
      handedOut_congr fun p hpo => hch.metadata _ (st.notMem_freePages hpo)
    have hrec : recordedBlock (h.buddyAlloc order).2 (pageAddr x) = ⟨x, order⟩ := by
      simp only [recordedBlock, pageIndex_pageAddr hxlt, hmeta]
    have hset : handedOut (h.buddyAlloc order).2 (pageAddr x :: out) =
        insert ⟨x, order⟩ (handedOut h out) := by
      rw [← hsame]
      ext b
      simp only [handedOut, List.mem_cons, Set.mem_ofPred_eq, Set.mem_insert_iff,
        exists_eq_or_imp, hrec]
    rw [hp, if_neg (pageAddr_pos x)]
    refine ⟨F', by rw [hset]; exact inv', List.nodup_cons.mpr ⟨?_, st.nodup⟩, ?_⟩
    · intro hm
      have hin : recordedBlock (h.buddyAlloc order).2 (pageAddr x) ∈
          handedOut (h.buddyAlloc order).2 out := ⟨pageAddr x, hm, rfl⟩
      rw [hrec, hsame] at hin
      exact hxO hin
    · rintro p (_ | ⟨_, hm⟩)
      · exact ⟨x, hxlt, rfl⟩
      · exact st.page p hm

theorem free (st : BuddyState h out F) {p : ℕ} (hp : p ∈ out) :
    ∃ F', BuddyState (h.buddyFree p) (out.erase p) F' := by
  obtain ⟨x, hxlt, rfl⟩ := st.page p hp
  have hne : ∀ q ∈ out.erase (pageAddr x), pageIndex q ≠ x := by
    intro q hq he
    rw [st.nodup.mem_erase_iff] at hq
    obtain ⟨y, hy, rfl⟩ := st.page q hq.2
    rw [pageIndex_pageAddr hy] at he
    exact hq.1 (by rw [he])
  have hxO : recordedBlock h (pageAddr x) ∉ handedOut h (out.erase (pageAddr x)) := by
    rintro ⟨q, hq, he⟩
    have hs := congrArg Block.start he
    simp only [recordedBlock, pageIndex_pageAddr hxlt] at hs
    exact hne q hq hs.symm
  have hset : handedOut h out =
      insert (recordedBlock h (pageAddr x)) (handedOut h (out.erase (pageAddr x))) := by
    ext b
    simp only [handedOut, Set.mem_ofPred_eq, Set.mem_insert_iff]
    constructor
    · rintro ⟨q, hq, rfl⟩
      by_cases hqx : q = pageAddr x
      · exact Or.inl (by rw [hqx])
      · exact Or.inr ⟨q, (st.nodup.mem_erase_iff).mpr ⟨hqx, hq⟩, rfl⟩
    · rintro (rfl | ⟨q, hq, rfl⟩)
      · exact ⟨_, hp, rfl⟩
      · exact ⟨q, List.mem_of_mem_erase hq, rfl⟩
  have hinv := st.inv
  have hrec : recordedBlock h (pageAddr x) = ⟨x, (h.metadata x).order⟩ := by
    simp only [recordedBlock, pageIndex_pageAddr hxlt]
  rw [hset, hrec] at hinv
  rw [hrec] at hxO
  obtain ⟨F', inv', hch⟩ := hinv.buddyFree hxO rfl
  have hsame : handedOut (h.buddyFree (pageAddr x)) (out.erase (pageAddr x)) =
      handedOut h (out.erase (pageAddr x)) := by
    refine handedOut_congr fun q hq => hch.metadata _ ?_
    rintro (hf | hc)
    · exact st.notMem_freePages (List.mem_of_mem_erase hq) hf
    · have hq' : recordedBlock h q ∈ handedOut h (out.erase (pageAddr x)) := ⟨q, hq, rfl⟩
      have he := hinv.tiling.disjoint _ (Or.inr (Or.inr hq')) _ (Or.inr (Or.inl rfl)) _
        (Block.covers_start (recordedBlock h q)) hc
      exact hxO (he ▸ hq')
  refine ⟨F', by rw [hsame]; exact inv', st.nodup.erase _, ?_⟩
  exact fun q hq => st.page q (List.mem_of_mem_erase hq)

theorem write (st : BuddyState h out F) {m : Memory}
    (hm : ∀ a, m a ≠ h.mem a →
      ∃ p ∈ out, p ≤ a ∧ a < p + 2 ^ (recordedBlock h p).order * pageSize4KB) :
    BuddyState { h with mem := m } out F := by
  refine ⟨st.inv.congr rfl rfl ?_, st.nodup, st.page⟩
  intro i hi a hia
  by_contra hne
  obtain ⟨p, hp, hpa, hap⟩ := hm a hne
  obtain ⟨x, hx, rfl⟩ := st.page p hp
  refine st.inv.notMem_freePages (b := recordedBlock h (pageAddr x)) ⟨_, hp, rfl⟩ ?_ hi
  simp only [recordedBlock, pageIndex_pageAddr hx, Block.Covers, pageSize4KB] at hap ⊢
  simp only [inPage, pageAddr_eq] at hpa hap hia
  omega

end BuddyState

/-- Every state of a run satisfies the invariant. -/
theorem BuddyRun.state {h : Heap} {out : List ℕ} (run : BuddyRun h out) :
    ∃ F, BuddyState h out F := by
  induction run with
  | init h =>
    have hnone : handedOut h.initBuddy [] = ∅ := by
      ext b
      simp [handedOut]
    exact ⟨_, by rw [hnone]; exact initBuddy_inv h, List.nodup_nil, by simp⟩
  | alloc order _ ih =>
    obtain ⟨F, st⟩ := ih
    exact st.alloc order
  | free _ hp ih =>
    obtain ⟨F, st⟩ := ih
    exact st.free hp
  | write m _ hm ih =>
    obtain ⟨F, st⟩ := ih
    exact ⟨F, st.write hm⟩

lemma BuddyInv.mem_markedFree {h : Heap} {F : ℕ → List ℕ} {O : Set Block} (inv : BuddyInv h F O) (b : Block) :
    b ∈ markedFree h ↔ b ∈ freeBlocks F := by
  constructor
  · rintro ⟨hlt, hfr, ho⟩
    have hl := inv.lists.listed b.start hlt hfr
    rw [ho] at hl
    exact hl
  · intro hb
    obtain ⟨hfr, ho⟩ := inv.lists.marked b.order hb.1 b.start hb.2
    exact ⟨inv.start_lt (Or.inl hb), hfr, ho⟩

/-- The representation of the buddy allocator, read off the globals alone. -/
structure BuddyRepresentation (h : Heap) (out : List ℕ) : Prop where
  /-- Free and handed-out blocks tile the heap, aligned to their orders. -/
  partition : Tiling totalPages (markedFree h ∪ handedOut h out)
  /-- The handed-out blocks are distinct, start at their pointers and are not free. -/
  distinct : out.Nodup ∧ ∀ p ∈ out, pageAddr (pageIndex p) = p ∧ (h.metadata (pageIndex p)).isFree = false
  /-- `free_areas[k]` is a doubly linked list of exactly the pages marked free at order `k`. -/
  lists : ∀ k ≤ maxOrders, ∃ nodes, IsList h.blockNext h.blockPrev 0 (h.freeAreas k) nodes ∧
    ∀ a, a ∈ nodes ↔ ∃ i < totalPages, a = pageAddr i ∧ (h.metadata i).isFree = true ∧
      (h.metadata i).order = k
  /-- No block below the highest order is free together with its buddy. -/
  coalesced : ∀ b ∈ markedFree h, b.order < maxOrders → b.buddy ∉ markedFree h

/-- In every run the free and the handed-out blocks tile the heap, and the lists hold exactly the free ones. -/
theorem buddy_representation {h : Heap} {out : List ℕ} (run : BuddyRun h out) :
    BuddyRepresentation h out := by
  obtain ⟨F, st⟩ := run.state
  have hfree : markedFree h = freeBlocks F := Set.ext st.inv.mem_markedFree
  refine ⟨by rw [hfree]; exact st.inv.tiling, ⟨st.nodup, fun p hp => ?_⟩, fun k hk => ?_, ?_⟩
  · obtain ⟨x, hx, rfl⟩ := st.page p hp
    refine ⟨by rw [pageIndex_pageAddr hx], st.inv.owned (recordedBlock h (pageAddr x)) ⟨_, hp, rfl⟩⟩
  · refine ⟨(F k).map pageAddr, st.inv.lists.links k hk, fun a => ?_⟩
    constructor
    · intro ha
      obtain ⟨i, hi, rfl⟩ := List.mem_map.mp ha
      exact ⟨i, st.inv.lists.lt k hk i hi, rfl, st.inv.lists.marked k hk i hi⟩
    · rintro ⟨i, hi, rfl, hfr, ho⟩
      have hl := (st.inv.lists.listed i hi hfr).2
      rw [ho] at hl
      exact List.mem_map_of_mem hl
  · rw [hfree]
    exact st.inv.coalesced

/-- A heap of zero bytes, for concrete runs. -/
def blankHeap : Heap := ⟨fun _ => 0, fun _ => 0, fun _ => ⟨0, false, false⟩, fun _ => ⟨0, 0, 0⟩⟩

theorem buddy_representation_alloc_two :
    ∃ out, out.length = 2 ∧ BuddyRepresentation
      ((blankHeap.initBuddy.buddyAlloc 1).2.buddyAlloc 0).2 out := by
  have h1 : (blankHeap.initBuddy.buddyAlloc 1).1 ≠ 0 := by decide
  have h2 : ((blankHeap.initBuddy.buddyAlloc 1).2.buddyAlloc 0).1 ≠ 0 := by decide
  refine ⟨_, ?_, buddy_representation (BuddyRun.alloc 0 (BuddyRun.alloc 1 (BuddyRun.init blankHeap)))⟩
  rw [if_neg h1, if_neg h2]
  rfl

end PointerOS
