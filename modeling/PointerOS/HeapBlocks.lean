import PointerOS.HeapSteps

/-!
# Blocks between the allocators

`buddy_alloc` moves a block from the free lists to the blocks handed out whole,
`buddy_free` moves it back. `slab_create` turns a block of one page into a slab,
`slab_free` turns a slab without used objects into a block again.
-/
namespace PointerOS
open ByteMemory LinkedList BuddyBlocks

namespace HeapCore

variable {h h' : Heap} {F F' : ℕ → List ℕ} {G : SlabHead → List ℕ} {L : ℕ → List ℕ} {B B' : Set Block}
  {live : List (ℕ × ℕ)} {c s x k : ℕ} {b : Block}

/-- The buddy allocator has changed pages `P`, which hold no slab and no allocation. -/
theorem reblock {P : Set ℕ} (core : HeapCore h F G L B live)
    (hinv : BuddyInv h' F' (slabBlocks G ∪ B')) (hch : ChangedOnly P h h')
    (hslab : ∀ i ∈ P, i ∉ slabPages G)
    (hlive : ∀ i ∈ P, ∀ e ∈ live, ∀ a ∈ bytes e.1 e.2, ¬ inPage i a)
    (hB : ∀ b ∈ B', b ∉ slabBlocks G ∧ (h'.metadata b.start).order = b.order)
    (ho : ∀ e ∈ live, BigObject B' e ∨ SmallObject G L e) :
    HeapCore h' F' G L B' live ∧ Keeps live h h' := by
  have hpage : ∀ s ∈ slabPages G, ∀ a, inPage s a → h'.mem a = h.mem a := fun s hs a ha =>
    hch.mem a fun i hi hia => hslab i hi (inPage_unique hia ha ▸ hs)
  have hmeta : ∀ s ∈ slabPages G, h'.metadata s = h.metadata s := fun s hs =>
    hch.metadata s fun hi => hslab s hi hs
  refine ⟨⟨hinv, fun b hb => (hB b hb).1, ?_, ?_, ?_, ?_, ?_, core.distinct, ho⟩, ?_⟩
  · intro c hc
    rw [hch.kernelCaches]
    exact core.objSize c hc
  · refine core.lists.congr (fun r => ?_) fun r hr i hi a hia => ?_
    · cases r <;> simp only [Heap.headOf, hch.kernelCaches]
    · refine hpage i ?_ a (inPage_of_inLinks hia)
      cases r with
      | slabsPartial d => exact ⟨d, hr, Or.inl hi⟩
      | slabsFull d => exact ⟨d, hr, Or.inr hi⟩
  · intro i hi
    constructor
    · exact fun ht => (core.isSlab i hi).mp (hch.isSlab i ht)
    · intro hs
      rw [hmeta i hs]
      exact (core.isSlab i hi).mpr hs
  · rintro b (hb | hb)
    · rw [hmeta b.start hb.2]
      exact core.recorded b (Or.inl hb)
    · exact (hB b hb).2
  · exact fun c hc s hs => core.ok_congr hc hs fun a ha _ => hpage s ⟨c, hc, hs⟩ a ha
  · exact fun e he a ha => hch.mem a fun i hi => hlive i hi e he a ha

/-- `buddy_alloc` on the joint state. -/
theorem allocBlock (core : HeapCore h F G L B live) (order : ℕ) :
    h.buddyAlloc order = (0, h) ∨
    ∃ x F', (h.buddyAlloc order).1 = pageAddr x ∧
      HeapCore (h.buddyAlloc order).2 F' G L (insert ⟨x, order⟩ B) live ∧
      (⟨x, order⟩ : Block) ∉ B ∧ (h.buddyAlloc order).2.metadata x = ⟨order, false, false⟩ ∧
      Keeps live h (h.buddyAlloc order).2 := by
  rcases core.buddy.buddyAlloc order with ⟨hr, _⟩ | ⟨x, F', _, hp, inv', hxO, hmeta, hch, _⟩
  · exact Or.inl hr
  · right
    have hset : slabBlocks G ∪ insert ⟨x, order⟩ B = insert ⟨x, order⟩ (slabBlocks G ∪ B) :=
      Set.union_insert
    rw [← hset] at inv'
    obtain ⟨core', hk⟩ := core.reblock inv' hch (fun i hi hs => core.notMem_freePages_of_slab hs hi)
      (fun i hi e he a ha => core.outside_freePages he ha hi) (by
        rintro b (rfl | hb)
        · exact ⟨fun hs => hxO (Or.inl hs), by rw [hmeta]⟩
        · refine ⟨core.apart b hb, ?_⟩
          have hstart := core.buddy.notMem_freePages (Or.inr hb) (Block.covers_start b)
          rw [hch.metadata _ hstart]
          exact core.recorded b (Or.inr hb))
      (fun e he => (core.owner e he).imp_left fun ⟨b, hb, hrest⟩ => ⟨b, Or.inr hb, hrest⟩)
    exact ⟨x, F', hp, core', fun hb => hxO (Or.inr hb), hmeta, hk⟩

/-- No allocation starts at a block that none of them uses. -/
lemma notMem_ptr (core : HeapCore h F G L (insert ⟨x, k⟩ B) live) (hx : (⟨x, k⟩ : Block) ∉ B)
    (ho : ∀ e ∈ live, BigObject B e ∨ SmallObject G L e) : pageAddr x ∉ live.map Prod.fst := by
  intro hm
  obtain ⟨e, he, hex⟩ := List.mem_map.mp hm
  rcases ho e he with ⟨b, hb, hp, _⟩ | ⟨c, hc, s, _, ⟨j, hj, hp⟩, _, _⟩
  · have hbx := core.buddy.tiling.eq_of_start (Or.inr (Or.inr (Or.inr hb)))
      (Or.inr (Or.inr (Or.inl rfl))) (pageAddr_injective (hp.symm.trans hex))
    exact hx (hbx ▸ hb)
  · have hin := slotAddr_inPage (s := s) hc hj
    have hsz := cacheObjSize_bounds hc
    rw [← hp, hex] at hin
    simp only [pageAddr_eq] at hin
    omega

/-- `buddy_free` of a block that no allocation uses any more. -/
theorem freeBlock (core : HeapCore h F G L (insert ⟨x, k⟩ B) live) (hx : (⟨x, k⟩ : Block) ∉ B)
    (ho : ∀ e ∈ live, BigObject B e ∨ SmallObject G L e) :
    ∃ F', HeapCore (h.buddyFree (pageAddr x)) F' G L B live ∧ Keeps live h (h.buddyFree (pageAddr x)) := by
  have hxin : (⟨x, k⟩ : Block) ∈ insert ⟨x, k⟩ B := Or.inl rfl
  have hxs := core.apart _ hxin
  have hset : slabBlocks G ∪ insert ⟨x, k⟩ B = insert ⟨x, k⟩ (slabBlocks G ∪ B) := Set.union_insert
  have inv := core.buddy
  rw [hset] at inv
  obtain ⟨F', inv', hch⟩ := inv.buddyFree (fun hm => hm.elim hxs hx) (core.recorded _ (Or.inr hxin))
  have hother : ∀ b ∈ B, ∀ i, b.Covers i → ¬ (⟨x, k⟩ : Block).Covers i := by
    intro b hb i hbi hxi
    have hbx := core.buddy.tiling.disjoint b (Or.inr (Or.inr (Or.inr hb))) ⟨x, k⟩
      (Or.inr (Or.inr hxin)) i hbi hxi
    exact hx (hbx ▸ hb)
  have hlive : ∀ i, (⟨x, k⟩ : Block).Covers i → ∀ e ∈ live, ∀ a ∈ bytes e.1 e.2, ¬ inPage i a := by
    intro i hi e he a ha hia
    rcases ho e he with ⟨b, hb, hp, hsz⟩ | ⟨c, hc, s, hin, hj, _, hsz⟩
    · have hba : a ∈ blockBytes b := by
        rw [mem_blockBytes_iff]
        simp only [bytes, Set.mem_Ico] at ha
        omega
      obtain ⟨j, hbj, hja⟩ := hba
      exact hother b hb i (inPage_unique hja hia ▸ hbj) hi
    · have hpage := small_inPage hc hj hsz ha
      have hsi : s = i := inPage_unique ⟨by omega, hpage.2⟩ hia
      exact core.notMem_slabPages hxin hi (hsi ▸ ⟨c, hc, hin⟩)
  obtain ⟨core', hk⟩ := core.reblock inv' hch (by
      rintro i (hi | hi) hs
      · exact core.notMem_freePages_of_slab hs hi
      · exact core.notMem_slabPages hxin hi hs) (by
      rintro i (hi | hi) e he a ha
      · exact core.outside_freePages he ha hi
      · exact hlive i hi e he a ha) (by
      intro b hb
      refine ⟨core.apart b (Or.inr hb), ?_⟩
      rw [hch.metadata b.start]
      · exact core.recorded b (Or.inr (Or.inr hb))
      · rintro (hi | hi)
        · exact core.buddy.notMem_freePages (Or.inr (Or.inr hb)) (Block.covers_start b) hi
        · exact hother b hb _ (Block.covers_start b) hi) ho
  exact ⟨F', core', hk⟩

lemma slabPages_push (c x : ℕ) (hc : c < 8) (G : SlabHead → List ℕ) :
    slabPages (Function.update G (.slabsPartial c) (x :: G (.slabsPartial c))) = insert x (slabPages G) := by
  ext t
  simp only [slabPages, inCache, Set.mem_ofPred_eq, Set.mem_insert_iff]
  constructor
  · rintro ⟨d, hd, ht | ht⟩
    · by_cases hdc : d = c
      · subst hdc
        rw [Function.update_self, List.mem_cons] at ht
        exact ht.imp_right fun ht => ⟨d, hd, Or.inl ht⟩
      · rw [Function.update_of_ne (by simpa using hdc)] at ht
        exact Or.inr ⟨d, hd, Or.inl ht⟩
    · exact Or.inr ⟨d, hd, Or.inr (by simpa using ht)⟩
  · rintro (rfl | ⟨d, hd, ht | ht⟩)
    · exact ⟨c, hc, Or.inl (by simp)⟩
    · refine ⟨d, hd, Or.inl ?_⟩
      by_cases hdc : d = c
      · subst hdc
        rw [Function.update_self]
        exact List.mem_cons_of_mem _ ht
      · rwa [Function.update_of_ne (by simpa using hdc)]
    · exact ⟨d, hd, Or.inr (by simpa using ht)⟩

lemma inCache_push {c d x t : ℕ} {G : SlabHead → List ℕ} :
    inCache (Function.update G (.slabsPartial c) (x :: G (.slabsPartial c))) d t ↔
      inCache G d t ∨ d = c ∧ t = x := by
  simp only [inCache]
  by_cases hdc : d = c
  · subst hdc
    simp [or_comm, or_left_comm]
  · simp [hdc]

/-- A page handed out whole becomes a slab on the partial list of cache `c`. -/
theorem claimPage {l : List ℕ} (core : HeapCore h F G L (insert ⟨x, 0⟩ B) live)
    (hx : (⟨x, 0⟩ : Block) ∉ B) (ho : ∀ e ∈ live, BigObject B e ∨ SmallObject G L e) (hc : c < 8)
    (hmeta : h'.metadata = Function.update h.metadata x ⟨0, false, true⟩)
    (hfree : h'.freeAreas = h.freeAreas)
    (hsize : ∀ c, (h'.kernelCaches c).objSize = (h.kernelCaches c).objSize)
    (hmem : ∀ a, ¬ inPage x a → (∀ s ∈ slabPages G, ¬ inLinks s a) → h'.mem a = h.mem a)
    (hl : SlabLists h' (Function.update G (.slabsPartial c) (x :: G (.slabsPartial c))))
    (hok : SlabOk h' c x l) :
    HeapCore h' F (Function.update G (.slabsPartial c) (x :: G (.slabsPartial c)))
      (Function.update L x l) B live ∧ Keeps live h h' := by
  have hxin : (⟨x, 0⟩ : Block) ∈ insert ⟨x, 0⟩ B := Or.inl rfl
  have hxs : x ∉ slabPages G := core.notMem_slabPages hxin (Block.covers_start ⟨x, 0⟩)
  have hpages := slabPages_push c x hc G
  have hblocks : slabBlocks (Function.update G (.slabsPartial c) (x :: G (.slabsPartial c))) ∪ B =
      insert ⟨x, 0⟩ (slabBlocks G ∪ B) := by
    ext b
    obtain ⟨t, o⟩ := b
    simp only [slabBlocks, hpages, Set.mem_union, Set.mem_ofPred_eq, Set.mem_insert_iff, Block.mk.injEq]
    constructor
    · rintro (⟨rfl, rfl | ht⟩ | hb)
      · exact Or.inl ⟨rfl, rfl⟩
      · exact Or.inr (Or.inl ⟨rfl, ht⟩)
      · exact Or.inr (Or.inr hb)
    · rintro (⟨rfl, rfl⟩ | ⟨rfl, ht⟩ | hb)
      · exact Or.inl ⟨rfl, Or.inl rfl⟩
      · exact Or.inl ⟨rfl, Or.inr ht⟩
      · exact Or.inr hb
  have hset : slabBlocks G ∪ insert ⟨x, 0⟩ B = insert ⟨x, 0⟩ (slabBlocks G ∪ B) := Set.union_insert
  have inv := core.buddy
  rw [hset] at inv
  have hstart : ∀ b ∈ slabBlocks G ∪ B, b.start ≠ x := by
    intro b hb hbx
    have hbx' := inv.tiling.eq_of_start (Or.inr (Or.inr hb)) (Or.inr (Or.inl rfl)) hbx
    rw [hbx'] at hb
    exact hb.elim (core.apart _ hxin) hx
  refine ⟨⟨?_, ?_, ?_, hl, ?_, ?_, ?_, core.distinct, ?_⟩, ?_⟩
  · rw [hblocks]
    refine (inv.setMetadata true).congr hfree hmeta fun i hi a hia => hmem a ?_ ?_
    · intro hxa
      refine inv.notMem_freePages (Or.inl rfl) (Block.covers_start ⟨x, 0⟩) ?_
      rw [show (⟨x, 0⟩ : Block).start = x from rfl, inPage_unique hxa hia]
      exact hi
    · intro s hs hlink
      exact core.notMem_freePages_of_slab hs (inPage_unique (inPage_of_inLinks hlink) hia ▸ hi)
  · intro b hb hbs
    have hbs' : b.order = 0 ∧ b.start ∈ insert x (slabPages G) := by
      rw [← hpages]
      exact hbs
    rcases hbs'.2 with hbx | hbt
    · exact hstart b (Or.inr hb) hbx
    · exact core.apart b (Or.inr hb) ⟨hbs'.1, hbt⟩
  · intro d hd
    rw [hsize, core.objSize d hd]
  · intro i hi
    rw [hpages, hmeta, Set.mem_insert_iff]
    by_cases hix : i = x
    · subst hix
      simp
    · rw [Function.update_of_ne hix, core.isSlab i hi]
      simp [hix]
  · rw [hblocks, hmeta]
    rintro b (rfl | hb)
    · simp
    · rw [Function.update_of_ne (hstart b hb)]
      exact core.recorded b (by rw [hset]; exact Or.inr hb)
  · intro d hd t ht
    rw [inCache_push] at ht
    by_cases htx : t = x
    · subst htx
      rcases ht with ht | ⟨rfl, _⟩
      · exact absurd ⟨d, hd, ht⟩ hxs
      · rw [Function.update_self]
        exact hok
    · rw [Function.update_of_ne htx]
      have hin := ht.resolve_right fun hcon => htx hcon.2
      refine core.ok_congr hd hin fun a hta hna => hmem a ?_ ?_
      · exact fun hxa => htx (inPage_unique hta hxa)
      · exact fun u _ hlink => hna (inPage_unique (inPage_of_inLinks hlink) hta ▸ hlink)
  · intro e he
    refine (ho e he).imp_right ?_
    rintro ⟨d, hd, t, ht, hj, hL, hsz⟩
    refine ⟨d, hd, t, inCache_push.mpr (Or.inl ht), hj, ?_, hsz⟩
    have htx : t ≠ x := fun htx => hxs (htx ▸ ⟨d, hd, ht⟩)
    rwa [Function.update_of_ne htx]
  · intro e he a ha
    refine hmem a ?_ ?_
    · intro hxa
      rcases ho e he with ⟨b, hb, hp, hsz⟩ | ⟨d, hd, t, ht, hj, _, hsz⟩
      · have hba : a ∈ blockBytes b := by
          rw [mem_blockBytes_iff]
          simp only [bytes, Set.mem_Ico] at ha
          omega
        have hbx := core.block_unique (Or.inr (Or.inr hb)) (Or.inr (Or.inr hxin)) hba
          ⟨x, Block.covers_start ⟨x, 0⟩, hxa⟩
        exact hx (hbx ▸ hb)
      · have hpage := small_inPage hd hj hsz ha
        have htx : t = x := inPage_unique ⟨by omega, hpage.2⟩ hxa
        exact hxs (htx ▸ ⟨d, hd, ht⟩)
    · intro s hs hlink
      have := core.outside_header he hs ha
      have := hlink.1
      have := hlink.2
      omega

lemma inCache_pop (core : HeapCore h F G L B live) (hc : c < 8) {pre post : List ℕ}
    (hG : G (.slabsPartial c) = pre ++ x :: post) {d t : ℕ} (hd : d < 8) :
    inCache (Function.update G (.slabsPartial c) (pre ++ post)) d t ↔ inCache G d t ∧ t ≠ x := by
  simp only [inCache, core.lists.mem_unlinked (slabsPartial_mem hc) hG (slabsPartial_mem hd),
    core.lists.mem_unlinked (slabsPartial_mem hc) hG (slabsFull_mem hd)]
  exact or_and_right.symm

/-- A slab whose objects are all free becomes a block handed out whole. -/
theorem releasePage {pre post : List ℕ} (core : HeapCore h F G L B live) (hc : c < 8)
    (hG : G (.slabsPartial c) = pre ++ x :: post) (hfull : (L x).length = slabCapacity c)
    (hmeta : h'.metadata = Function.update h.metadata x ⟨0, false, false⟩)
    (hfree : h'.freeAreas = h.freeAreas)
    (hsize : ∀ c, (h'.kernelCaches c).objSize = (h.kernelCaches c).objSize)
    (hmem : ∀ a, (∀ s ∈ slabPages G, ¬ inLinks s a) → h'.mem a = h.mem a)
    (hl : SlabLists h' (Function.update G (.slabsPartial c) (pre ++ post))) :
    HeapCore h' F (Function.update G (.slabsPartial c) (pre ++ post)) L (insert ⟨x, 0⟩ B) live ∧
      (∀ e ∈ live, BigObject B e ∨ SmallObject (Function.update G (.slabsPartial c) (pre ++ post)) L e) ∧
      (⟨x, 0⟩ : Block) ∉ B ∧ Keeps live h h' := by
  have hxc : inCache G c x := Or.inl (by simp [hG])
  have hxs : x ∈ slabPages G := ⟨c, hc, hxc⟩
  have hxB : (⟨x, 0⟩ : Block) ∉ B := fun hb => core.apart _ hb (slabBlock_mem hxs)
  have hin := fun {d t : ℕ} (hd : d < 8) => core.inCache_pop (t := t) hc hG hd
  have hpages : ∀ t, t ∈ slabPages (Function.update G (.slabsPartial c) (pre ++ post)) ↔
      t ∈ slabPages G ∧ t ≠ x := by
    intro t
    constructor
    · rintro ⟨d, hd, ht⟩
      exact ⟨⟨d, hd, ((hin hd).mp ht).1⟩, ((hin hd).mp ht).2⟩
    · rintro ⟨⟨d, hd, ht⟩, htx⟩
      exact ⟨d, hd, (hin hd).mpr ⟨ht, htx⟩⟩
  have hblocks : ∀ b, b ∈ slabBlocks (Function.update G (.slabsPartial c) (pre ++ post)) ↔
      b ∈ slabBlocks G ∧ b ≠ ⟨x, 0⟩ := by
    rintro ⟨t, o⟩
    simp only [slabBlocks, Set.mem_ofPred_eq, hpages, ne_eq, Block.mk.injEq]
    constructor
    · rintro ⟨rfl, ht, htx⟩
      exact ⟨⟨rfl, ht⟩, fun hcon => htx hcon.1⟩
    · rintro ⟨⟨rfl, ht⟩, hne⟩
      exact ⟨rfl, ht, fun htx => hne ⟨htx, rfl⟩⟩
  have hset : slabBlocks (Function.update G (.slabsPartial c) (pre ++ post)) ∪ insert ⟨x, 0⟩ B =
      insert ⟨x, 0⟩ (slabBlocks G ∪ B) := by
    ext b
    simp only [Set.mem_union, Set.mem_insert_iff, hblocks]
    constructor
    · rintro (hb | rfl | hb)
      · exact Or.inr (Or.inl hb.1)
      · exact Or.inl rfl
      · exact Or.inr (Or.inr hb)
    · rintro (rfl | hb | hb)
      · exact Or.inr (Or.inl rfl)
      · by_cases hbx : b = ⟨x, 0⟩
        · exact Or.inr (Or.inl hbx)
        · exact Or.inl ⟨hb, hbx⟩
      · exact Or.inr (Or.inr hb)
  have hxO : (⟨x, 0⟩ : Block) ∈ slabBlocks G ∪ B := Or.inl (slabBlock_mem hxs)
  have inv := core.buddy
  rw [← Set.insert_eq_of_mem hxO] at inv
  have hstart : ∀ b ∈ slabBlocks G ∪ B, b ≠ ⟨x, 0⟩ → b.start ≠ x := by
    intro b hb hne hbx
    exact hne (inv.tiling.eq_of_start (Or.inr (Or.inr hb)) (Or.inr (Or.inl rfl)) hbx)
  have hown : ∀ e ∈ live,
      BigObject B e ∨ SmallObject (Function.update G (.slabsPartial c) (pre ++ post)) L e := by
    intro e he
    refine (core.owner e he).imp_right ?_
    rintro ⟨d, hd, t, ht, hj, hL, hsz⟩
    refine ⟨d, hd, t, (hin hd).mpr ⟨ht, ?_⟩, hj, hL, hsz⟩
    rintro rfl
    obtain rfl := core.cache_unique hd hc ht hxc
    obtain ⟨j, hj, hp⟩ := hj
    exact hL (hp ▸ (core.ok d hd t ht).mem_of_full hfull hj)
  refine ⟨⟨?_, ?_, ?_, hl, ?_, ?_, ?_, core.distinct, ?_⟩, hown, hxB, ?_⟩
  · rw [hset]
    refine (inv.setMetadata false).congr hfree hmeta fun i hi a hia => hmem a fun s hs hlink => ?_
    exact core.notMem_freePages_of_slab hs (inPage_unique (inPage_of_inLinks hlink) hia ▸ hi)
  · rintro b (rfl | hb) hbs
    · exact ((hblocks _).mp hbs).2 rfl
    · exact core.apart b hb ((hblocks _).mp hbs).1
  · intro d hd
    rw [hsize, core.objSize d hd]
  · intro i hi
    rw [hpages, hmeta]
    by_cases hix : i = x
    · subst hix
      simp
    · rw [Function.update_of_ne hix, core.isSlab i hi]
      simp [hix]
  · rw [hset, hmeta]
    rintro b (rfl | hb)
    · simp
    · by_cases hbx : b = ⟨x, 0⟩
      · subst hbx
        simp
      · rw [Function.update_of_ne (hstart b hb hbx)]
        exact core.recorded b hb
  · intro d hd t ht
    refine core.ok_congr hd ((hin hd).mp ht).1 fun a hta hna => hmem a fun s _ hlink => ?_
    exact hna (inPage_unique (inPage_of_inLinks hlink) hta ▸ hlink)
  · refine fun e he => (hown e he).imp_left fun hbig => ?_
    obtain ⟨b, hb, hrest⟩ := hbig
    exact ⟨b, Or.inr hb, hrest⟩
  · intro e he a ha
    refine hmem a fun s hs hlink => ?_
    have := core.outside_header he hs ha
    have := hlink.1
    have := hlink.2
    omega

end HeapCore

end PointerOS
