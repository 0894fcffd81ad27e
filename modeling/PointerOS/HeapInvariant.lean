import PointerOS.Kmalloc

/-!
# The joint invariant of the two allocators

`HeapCore` relates the heap to its ghost description: the free lists `F` of the
buddy allocator, the slab lists `G`, the free objects `L` of each slab, the
blocks `B` handed out whole and the live allocations. `Filled` says which slabs
belong on which list. It is broken in the middle of a slab operation, `HeapCore`
is not, so each write sequence of the source is one lemma about `HeapCore`.
-/
namespace PointerOS
open ByteMemory LinkedList BuddyBlocks

/-- Page `s` is a slab of cache `c`. -/
def inCache (G : SlabHead → List ℕ) (c s : ℕ) : Prop := s ∈ G (.slabsPartial c) ∨ s ∈ G (.slabsFull c)

def slabPages (G : SlabHead → List ℕ) : Set ℕ := {s | ∃ c < 8, inCache G c s}

def slabBlocks (G : SlabHead → List ℕ) : Set Block := {b | b.order = 0 ∧ b.start ∈ slabPages G}

/-- An allocation that is a whole block. -/
def BigObject (B : Set Block) (e : ℕ × ℕ) : Prop :=
  ∃ b ∈ B, e.1 = pageAddr b.start ∧ e.2 ≤ 2 ^ b.order * 4096

/-- An allocation that is a slot of a slab and not on its free list. -/
def SmallObject (G : SlabHead → List ℕ) (L : ℕ → List ℕ) (e : ℕ × ℕ) : Prop :=
  ∃ c < 8, ∃ s, inCache G c s ∧ (∃ j < slabCapacity c, e.1 = slotAddr c s j) ∧ e.1 ∉ L s ∧
    e.2 ≤ cacheObjSize c

structure HeapCore (h : Heap) (F : ℕ → List ℕ) (G : SlabHead → List ℕ) (L : ℕ → List ℕ)
    (B : Set Block) (live : List (ℕ × ℕ)) : Prop where
  buddy : BuddyInv h F (slabBlocks G ∪ B)
  apart : ∀ b ∈ B, b ∉ slabBlocks G
  objSize : ∀ c < 8, (h.kernelCaches c).objSize = cacheObjSize c
  lists : SlabLists h G
  isSlab : ∀ i < 4096, (h.metadata i).isSlab = true ↔ i ∈ slabPages G
  recorded : ∀ b ∈ slabBlocks G ∪ B, (h.metadata b.start).order = b.order
  ok : ∀ c < 8, ∀ s, inCache G c s → SlabOk h c s (L s)
  distinct : (live.map Prod.fst).Nodup
  owner : ∀ e ∈ live, BigObject B e ∨ SmallObject G L e

/-- A slab is on the partial list when it has free and used objects, on the full
list when it has no free object. -/
def Filled (G : SlabHead → List ℕ) (L : ℕ → List ℕ) : Prop :=
  ∀ c < 8, (∀ s ∈ G (.slabsPartial c), 0 < (L s).length ∧ (L s).length < slabCapacity c) ∧
    ∀ s ∈ G (.slabsFull c), L s = []

/-- No byte of the allocations `live` differs. -/
def Keeps (live : List (ℕ × ℕ)) (h h' : Heap) : Prop :=
  ∀ e ∈ live, Set.EqOn h'.mem h.mem (bytes e.1 e.2)

lemma Keeps.refl (live : List (ℕ × ℕ)) (h : Heap) : Keeps live h h := fun _ _ _ _ => rfl

lemma Keeps.trans {live : List (ℕ × ℕ)} {h h' h'' : Heap} (h₁ : Keeps live h h')
    (h₂ : Keeps live h' h'') : Keeps live h h'' := fun e he => (h₂ e he).trans (h₁ e he)

lemma Keeps.sub {live live' : List (ℕ × ℕ)} {h h' : Heap} (hk : Keeps live h h')
    (hs : live' ⊆ live) : Keeps live' h h' := fun e he => hk e (hs he)

lemma slabsPartial_mem {c : ℕ} (hc : c < 8) : SlabHead.slabsPartial c ∈ slabHeads := hc

lemma slabsFull_mem {c : ℕ} (hc : c < 8) : SlabHead.slabsFull c ∈ slabHeads := hc

/-- The bytes of the pages a block covers. -/
def blockBytes (b : Block) : Set ℕ := {a | ∃ i, b.Covers i ∧ inPage i a}

lemma mem_blockBytes_iff {b : Block} {a : ℕ} :
    a ∈ blockBytes b ↔ pageAddr b.start ≤ a ∧ a < pageAddr b.start + 2 ^ b.order * 4096 := by
  constructor
  · rintro ⟨i, ⟨h1, h2⟩, h3, h4⟩
    simp only [pageAddr_eq] at h3 h4 ⊢
    omega
  · rintro ⟨h1, h2⟩
    obtain ⟨base, hb⟩ : ∃ base, base = 0xFFFFE00000000000 := ⟨_, rfl⟩
    simp only [pageAddr_eq, ← hb] at h1 h2
    obtain ⟨k, rfl⟩ : ∃ k, a = base + k := Nat.exists_eq_add_of_le (by omega)
    refine ⟨k / 4096, ⟨by omega, by omega⟩, ?_⟩
    simp only [inPage, pageAddr_eq, ← hb]
    omega

namespace HeapCore

variable {h h' : Heap} {F : ℕ → List ℕ} {G : SlabHead → List ℕ} {L : ℕ → List ℕ} {B : Set Block}
  {live : List (ℕ × ℕ)} {c s : ℕ} {e f : ℕ × ℕ}

/-! ## Where allocations lie -/

lemma slab_lt (core : HeapCore h F G L B live) (hs : s ∈ slabPages G) : s < 4096 := by
  obtain ⟨c, hc, hin | hin⟩ := hs
  · exact core.lists.lt _ (slabsPartial_mem hc) s hin
  · exact core.lists.lt _ (slabsFull_mem hc) s hin

lemma slabBlock_mem {G : SlabHead → List ℕ} {s : ℕ} (hs : s ∈ slabPages G) :
    (⟨s, 0⟩ : Block) ∈ slabBlocks G := ⟨rfl, hs⟩

lemma cache_unique (core : HeapCore h F G L B live) {c d : ℕ} (hc : c < 8) (hd : d < 8)
    (h1 : inCache G c s) (h2 : inCache G d s) : c = d := by
  rcases h1 with h1 | h1 <;> rcases h2 with h2 | h2
  · exact congrArg SlabHead.cache
      (core.lists.head_unique (slabsPartial_mem hc) (slabsPartial_mem hd) h1 h2)
  · cases core.lists.head_unique (slabsPartial_mem hc) (slabsFull_mem hd) h1 h2
  · cases core.lists.head_unique (slabsFull_mem hc) (slabsPartial_mem hd) h1 h2
  · exact congrArg SlabHead.cache
      (core.lists.head_unique (slabsFull_mem hc) (slabsFull_mem hd) h1 h2)

lemma small_inPage (hc : c < 8) (hj : ∃ j < slabCapacity c, e.1 = slotAddr c s j)
    (hsz : e.2 ≤ cacheObjSize c) {a : ℕ} (ha : a ∈ bytes e.1 e.2) :
    pageAddr s + 40 ≤ a ∧ a < pageAddr s + 4096 := by
  obtain ⟨j, hj, he⟩ := hj
  have hin := slotAddr_inPage (s := s) hc hj
  simp only [bytes, Set.mem_Ico] at ha
  omega

/-- An allocation lies in one block in use. -/
lemma extent (core : HeapCore h F G L B live) (he : e ∈ live) :
    ∃ b ∈ slabBlocks G ∪ B, bytes e.1 e.2 ⊆ blockBytes b := by
  rcases core.owner e he with ⟨b, hb, hp, hsz⟩ | ⟨c, hc, s, hin, hj, _, hsz⟩
  · refine ⟨b, Or.inr hb, fun a ha => mem_blockBytes_iff.mpr ?_⟩
    simp only [bytes, Set.mem_Ico] at ha
    omega
  · refine ⟨⟨s, 0⟩, Or.inl ⟨rfl, c, hc, hin⟩, fun a ha => mem_blockBytes_iff.mpr ?_⟩
    have := small_inPage hc hj hsz ha
    simp only [pow_zero, one_mul]
    omega

lemma block_unique (core : HeapCore h F G L B live) {b d : Block} (hb : b ∈ slabBlocks G ∪ B)
    (hd : d ∈ freeBlocks F ∪ (slabBlocks G ∪ B)) {a : ℕ} (h1 : a ∈ blockBytes b)
    (h2 : a ∈ blockBytes d) : b = d := by
  obtain ⟨i, hbi, hi⟩ := h1
  obtain ⟨j, hdj, hj⟩ := h2
  rw [inPage_unique hj hi] at hdj
  exact core.buddy.tiling.disjoint b (Or.inr hb) d hd i hbi hdj

lemma outside_freePages (core : HeapCore h F G L B live) (he : e ∈ live) {a i : ℕ}
    (ha : a ∈ bytes e.1 e.2) (hi : i ∈ freePages F) : ¬ inPage i a := by
  intro hia
  obtain ⟨b, hb, hsub⟩ := core.extent he
  obtain ⟨d, hd, hdi⟩ := hi
  have hbd := core.block_unique hb (Or.inl hd) (hsub ha) ⟨i, hdi, hia⟩
  exact core.buddy.notMem_owned hd (hbd ▸ hb)

/-- An allocation meets the page of a slab only as a slot of that slab. -/
lemma small_of_meets (core : HeapCore h F G L B live) (he : e ∈ live) (hc : c < 8)
    (hs : inCache G c s) {a : ℕ} (ha : a ∈ bytes e.1 e.2) (hia : inPage s a) :
    (∃ j < slabCapacity c, e.1 = slotAddr c s j) ∧ e.1 ∉ L s ∧ e.2 ≤ cacheObjSize c := by
  have hsb : (⟨s, 0⟩ : Block) ∈ slabBlocks G := ⟨rfl, c, hc, hs⟩
  have hsa : a ∈ blockBytes ⟨s, 0⟩ := ⟨s, Block.covers_start ⟨s, 0⟩, hia⟩
  rcases core.owner e he with ⟨b, hb, hp, hsz⟩ | ⟨d, hd, t, hin, hj, hL, hsz⟩
  · have hba : a ∈ blockBytes b := by
      rw [mem_blockBytes_iff]
      simp only [bytes, Set.mem_Ico] at ha
      omega
    have hbs := core.block_unique (Or.inr hb) (Or.inr (Or.inl hsb)) hba hsa
    exact absurd hsb (hbs ▸ core.apart b hb)
  · have hta := small_inPage hd hj hsz ha
    have hts : t = s := inPage_unique ⟨by omega, hta.2⟩ hia
    subst hts
    obtain rfl := core.cache_unique hd hc hin hs
    exact ⟨hj, hL, hsz⟩

lemma outside_header (core : HeapCore h F G L B live) (he : e ∈ live) (hs : s ∈ slabPages G) {a : ℕ}
    (ha : a ∈ bytes e.1 e.2) : a < pageAddr s ∨ pageAddr s + 40 ≤ a := by
  obtain ⟨c, hc, hin⟩ := hs
  by_contra hcon
  obtain ⟨hj, _, hsz⟩ := core.small_of_meets he hc hin ha ⟨by omega, by omega⟩
  have := small_inPage hc hj hsz ha
  omega

lemma slots_apart {p q : ℕ} (hp : ∃ j < slabCapacity c, p = slotAddr c s j)
    (hq : ∃ j < slabCapacity c, q = slotAddr c s j) (hne : p ≠ q) :
    p + cacheObjSize c ≤ q ∨ q + cacheObjSize c ≤ p := by
  obtain ⟨j, _, rfl⟩ := hp
  obtain ⟨k, _, rfl⟩ := hq
  rcases lt_trichotomy j k with hlt | rfl | hlt
  · exact Or.inl (slotAddr_apart hlt)
  · exact absurd rfl hne
  · exact Or.inr (slotAddr_apart hlt)

lemma outside_slot (core : HeapCore h F G L B live) (he : e ∈ live) (hc : c < 8)
    (hs : inCache G c s) {p : ℕ} (hp : ∃ j < slabCapacity c, p = slotAddr c s j) (hne : e.1 ≠ p) {a : ℕ}
    (ha : a ∈ bytes e.1 e.2) : a ∉ bytes p (cacheObjSize c) := by
  intro hpa
  have hpage := small_inPage (e := (p, cacheObjSize c)) hc hp le_rfl hpa
  obtain ⟨hj, hL, hsz⟩ := core.small_of_meets he hc hs ha ⟨by omega, hpage.2⟩
  have := slots_apart hj hp hne
  simp only [bytes, Set.mem_Ico] at ha hpa
  omega

lemma outside_freeObject (core : HeapCore h F G L B live) (he : e ∈ live) (hc : c < 8)
    (hs : inCache G c s) {o : ℕ} (ho : o ∈ L s) {a : ℕ} (ha : a ∈ bytes e.1 e.2) :
    a ∉ bytes o (cacheObjSize c) := by
  have hslot := (core.ok c hc s hs).slots o ho
  by_cases hne : e.1 = o
  · intro hoa
    have hpage := small_inPage (e := (o, cacheObjSize c)) hc hslot le_rfl hoa
    exact (core.small_of_meets he hc hs ha ⟨by omega, hpage.2⟩).2.1 (hne ▸ ho)
  · exact core.outside_slot he hc hs hslot hne ha

lemma outside_live (core : HeapCore h F G L B live) (he : e ∈ live) (hf : f ∈ live) (hne : e.1 ≠ f.1)
    {a : ℕ} (ha : a ∈ bytes e.1 e.2) : a ∉ bytes f.1 f.2 := by
  intro hfa
  rcases core.owner f hf with ⟨b, hb, hp, hsz⟩ | ⟨c, hc, s, hin, hj, hL, hsz⟩
  · have hba : a ∈ blockBytes b := by
      rw [mem_blockBytes_iff]
      simp only [bytes, Set.mem_Ico] at hfa
      omega
    rcases core.owner e he with ⟨d, hd, hp', hsz'⟩ | ⟨c, hc, s, hin, hj, hL, hsz'⟩
    · have hda : a ∈ blockBytes d := by
        rw [mem_blockBytes_iff]
        simp only [bytes, Set.mem_Ico] at ha
        omega
      have hbd := core.block_unique (Or.inr hb) (Or.inr (Or.inr hd)) hba hda
      exact hne (by rw [hp', hp, hbd])
    · have hsa := small_inPage hc hj hsz' ha
      have hsb : (⟨s, 0⟩ : Block) ∈ slabBlocks G := ⟨rfl, c, hc, hin⟩
      have hbd := core.block_unique (Or.inr hb) (Or.inr (Or.inl hsb)) hba
        ⟨s, Block.covers_start ⟨s, 0⟩, by omega, hsa.2⟩
      exact absurd hsb (hbd ▸ core.apart b hb)
  · have hsa := small_inPage hc hj hsz hfa
    obtain ⟨hj', _, hsz'⟩ := core.small_of_meets he hc hin ha ⟨by omega, hsa.2⟩
    have := slots_apart hj' hj hne
    simp only [bytes, Set.mem_Ico] at ha hfa
    omega

end HeapCore

end PointerOS
