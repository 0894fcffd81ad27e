import PointerOS.HeapInvariant

/-!
# The steps of the two allocators on the joint invariant

A block moves between the buddy allocator, a whole allocation and a slab, a slab
moves between the two lists of its cache, and an object moves between the free
list of its slab and an allocation. Each move preserves `HeapCore` and leaves the
bytes of the live allocations alone.
-/
namespace PointerOS
open ByteMemory LinkedList BuddyBlocks

lemma inPage_of_inLinks {i a : ℕ} (h : inLinks i a) : inPage i a :=
  ⟨by have := h.1; omega, by have := h.2; omega⟩

namespace HeapCore

variable {h h' : Heap} {F : ℕ → List ℕ} {G : SlabHead → List ℕ} {L : ℕ → List ℕ} {B : Set Block}
  {live : List (ℕ × ℕ)} {c s x k : ℕ} {b : Block} {e : ℕ × ℕ}

lemma notMem_freePages_of_slab (core : HeapCore h F G L B live) (hs : s ∈ slabPages G) :
    s ∉ freePages F :=
  core.buddy.notMem_freePages (Or.inl (slabBlock_mem hs)) (Block.covers_start ⟨s, 0⟩)

/-- The pages of a block handed out whole are not slabs. -/
lemma notMem_slabPages (core : HeapCore h F G L B live) (hb : b ∈ B) {i : ℕ} (hi : b.Covers i) :
    i ∉ slabPages G := by
  intro hs
  have hbs := core.buddy.tiling.disjoint b (Or.inr (Or.inr hb)) ⟨i, 0⟩
    (Or.inr (Or.inl (slabBlock_mem hs))) i hi (Block.covers_start ⟨i, 0⟩)
  exact core.apart b hb (hbs ▸ slabBlock_mem hs)

lemma ok_congr (core : HeapCore h F G L B live) (hc : c < 8) (hs : inCache G c s)
    (hm : ∀ a, inPage s a → ¬ inLinks s a → h'.mem a = h.mem a) : SlabOk h' c s (L s) :=
  (core.ok c hc s hs).congr_page hc hm

/-! ## Moving a slab between lists -/

/-- Only link words of slabs change and every cache keeps its slabs. -/
theorem relink {G' : SlabHead → List ℕ} (core : HeapCore h F G L B live)
    (hch : LinksOnly (slabPages G) h h') (hl : SlabLists h' G')
    (hG : ∀ c < 8, ∀ s, inCache G' c s ↔ inCache G c s) :
    HeapCore h' F G' L B live ∧ Keeps live h h' := by
  have hpages : slabPages G' = slabPages G := by
    ext s
    constructor
    · rintro ⟨c, hc, hs⟩
      exact ⟨c, hc, (hG c hc s).mp hs⟩
    · rintro ⟨c, hc, hs⟩
      exact ⟨c, hc, (hG c hc s).mpr hs⟩
  have hblocks : slabBlocks G' = slabBlocks G := by simp only [slabBlocks, hpages]
  refine ⟨⟨?_, ?_, ?_, hl, ?_, ?_, ?_, core.distinct, ?_⟩, ?_⟩
  · rw [hblocks]
    refine core.buddy.congr hch.freeAreas hch.metadata fun i hi a hia => hch.mem a fun s hs hlink => ?_
    have hsi := inPage_unique (inPage_of_inLinks hlink) hia
    exact core.notMem_freePages_of_slab hs (hsi ▸ hi)
  · rw [hblocks]
    exact core.apart
  · intro c hc
    rw [hch.objSize, core.objSize c hc]
  · rw [hpages, hch.metadata]
    exact core.isSlab
  · rw [hblocks, hch.metadata]
    exact core.recorded
  · intro c hc s hs
    refine core.ok_congr hc ((hG c hc s).mp hs) fun a hia hna => hch.mem a fun t _ hlink => ?_
    have hts := inPage_unique (inPage_of_inLinks hlink) hia
    exact hna (hts ▸ hlink)
  · intro e he
    refine (core.owner e he).imp_right ?_
    rintro ⟨c, hc, s, hs, hrest⟩
    exact ⟨c, hc, s, (hG c hc s).mpr hs, hrest⟩
  · intro e he a ha
    refine hch.mem a fun s hs hlink => ?_
    have := core.outside_header he hs ha
    have := hlink.1
    have := hlink.2
    omega

/-- `slab_list_remove` from one list and `slab_list_add` to the other list of the cache. -/
theorem relist {r r' : SlabHead} {pre post : List ℕ} (core : HeapCore h F G L B live) (hc : c < 8)
    (hrr : r = .slabsPartial c ∧ r' = .slabsFull c ∨ r = .slabsFull c ∧ r' = .slabsPartial c)
    (hG : G r = pre ++ s :: post) :
    HeapCore ((h.slabListRemove r (pageAddr s)).slabListAdd r' (pageAddr s)) F
      (Function.update (Function.update G r (pre ++ post)) r' (s :: G r')) L B live ∧
    Keeps live h ((h.slabListRemove r (pageAddr s)).slabListAdd r' (pageAddr s)) := by
  have hcache : r.cache = c ∧ r'.cache = c := by
    rcases hrr with ⟨rfl, rfl⟩ | ⟨rfl, rfl⟩ <;> exact ⟨rfl, rfl⟩
  have hr : r ∈ slabHeads := show r.cache < 8 by omega
  have hr' : r' ∈ slabHeads := show r'.cache < 8 by omega
  have hne : r' ≠ r := by
    rcases hrr with ⟨rfl, rfl⟩ | ⟨rfl, rfl⟩ <;> simp
  have hsr : s ∈ G r := by simp [hG]
  have hsc : inCache G c s := by
    rcases hrr with ⟨rfl, rfl⟩ | ⟨rfl, rfl⟩
    · exact Or.inl hsr
    · exact Or.inr hsr
  obtain ⟨hl₁, hch₁⟩ := core.lists.remove hr hG
  have hrest := fun {q : SlabHead} (hq : q ∈ slabHeads) {t : ℕ} =>
    core.lists.mem_unlinked hr hG hq (t := t)
  have hout : ∀ q ∈ slabHeads, s ∉ Function.update G r (pre ++ post) q :=
    fun q hq hm => ((hrest hq).mp hm).2 rfl
  have hslt := core.slab_lt ⟨c, hc, hsc⟩
  obtain ⟨hl₂, hch₂⟩ := hl₁.add hr' hslt hout
  rw [Function.update_of_ne hne] at hl₂ hch₂
  have hsub : ∀ q, q = r ∨ q = r' → ∀ t ∈ G q, t ∈ slabPages G := by
    intro q hq t ht
    refine ⟨c, hc, ?_⟩
    rcases hrr with ⟨rfl, rfl⟩ | ⟨rfl, rfl⟩ <;> rcases hq with rfl | rfl
    · exact Or.inl ht
    · exact Or.inr ht
    · exact Or.inr ht
    · exact Or.inl ht
  refine core.relink ((hch₁.mono ?_).trans (hch₂.mono ?_)) hl₂ ?_
  · exact fun t ht => hsub r (Or.inl rfl) t ht
  · rintro t (rfl | ht)
    · exact ⟨c, hc, hsc⟩
    · exact hsub r' (Or.inr rfl) t ht
  · intro d hd t
    have hmem : ∀ q ∈ slabHeads,
        t ∈ Function.update (Function.update G r (pre ++ post)) r' (s :: G r') q ↔
          t ∈ G q ∧ t ≠ s ∨ q = r' ∧ t = s := by
      intro q hq
      by_cases hqr : q = r'
      · subst hqr
        have hsq : s ∉ G q := fun hm => hne (core.lists.head_unique hr' hr hm hsr)
        rw [Function.update_self, List.mem_cons]
        by_cases hts : t = s
        · simp [hts]
        · simp [hts]
      · rw [Function.update_of_ne hqr, hrest hq]
        simp [hqr]
    simp only [inCache, hmem _ (slabsPartial_mem hd), hmem _ (slabsFull_mem hd)]
    by_cases hts : t = s
    · subst hts
      simp only [ne_eq, not_true_eq_false, and_false, false_or, and_true]
      constructor
      · intro ht
        have hdc : d = c := by
          rcases ht with ht | ht
          · exact (congrArg SlabHead.cache ht).trans hcache.2
          · exact (congrArg SlabHead.cache ht).trans hcache.2
        subst hdc
        exact hsc
      · intro ht
        obtain rfl := core.cache_unique hd hc ht hsc
        rcases hrr with ⟨_, rfl⟩ | ⟨_, rfl⟩ <;> simp
    · simp [hts]

/-! ## Objects of one slab -/

/-- The free list of one slab changes, and with it the allocations. -/
theorem update {l : List ℕ} {live' : List (ℕ × ℕ)} (core : HeapCore h F G L B live) (hc : c < 8)
    (hs : inCache G c s) {m : Memory}
    (hm : ∀ a, ¬ inPage s a ∨ inLinks s a → m a = h.mem a)
    (hok : SlabOk { h with mem := m } c s l) (hd : (live'.map Prod.fst).Nodup)
    (ho : ∀ e ∈ live', BigObject B e ∨ SmallObject G (Function.update L s l) e) :
    HeapCore { h with mem := m } F G (Function.update L s l) B live' := by
  refine ⟨core.buddy.congr rfl rfl ?_, core.apart, core.objSize, ?_, core.isSlab, core.recorded, ?_, hd, ho⟩
  · intro i hi a hia
    refine hm a (Or.inl fun hsa => ?_)
    exact core.notMem_freePages_of_slab ⟨c, hc, hs⟩ (inPage_unique hsa hia ▸ hi)
  · refine core.lists.congr (fun r => by cases r <;> rfl) fun r hr i hi a hia => hm a ?_
    by_cases his : i = s
    · exact Or.inr (his ▸ hia)
    · exact Or.inl fun hsa => his (inPage_unique (inPage_of_inLinks hia) hsa)
  · intro d hd' t ht
    by_cases hts : t = s
    · subst hts
      obtain rfl := core.cache_unique hc hd' hs ht
      rw [Function.update_self]
      exact hok
    · rw [Function.update_of_ne hts]
      refine core.ok_congr hd' ht fun a hta _ => hm a (Or.inl fun hsa => hts (inPage_unique hta hsa))

/-- The slot of an allocation decides the allocation's slab. -/
lemma small_of_slot (core : HeapCore h F G L B live) (he : e ∈ live) (hc : c < 8) (hs : inCache G c s)
    (hj : ∃ j < slabCapacity c, e.1 = slotAddr c s j) : e.1 ∉ L s ∧ e.2 ≤ cacheObjSize c := by
  obtain ⟨j, hj, hp⟩ := hj
  have hin := slotAddr_inPage (s := s) hc hj
  have ho := cacheObjSize_bounds hc
  rcases core.owner e he with ⟨b, _, hb, _⟩ | ⟨d, hd, t, ht, ⟨k, hk, hpk⟩, hL, hsz⟩
  · simp only [pageAddr_eq] at hb hin
    omega
  · have hink := slotAddr_inPage (s := t) hd hk
    have hts : t = s := inPage_unique (a := e.1) ⟨by omega, by have := cacheObjSize_bounds hd; omega⟩
      ⟨by omega, by omega⟩
    subst hts
    obtain rfl := core.cache_unique hd hc ht hs
    exact ⟨hL, hsz⟩

/-- The first object of the free list of a slab is handed out. -/
theorem pop {a size : ℕ} {l : List ℕ} (core : HeapCore h F G L B live) (hc : c < 8) (hs : inCache G c s)
    (hL : L s = a :: l) (hsz : size ≤ cacheObjSize c) {h₁ h₂ : Heap}
    (h₁_eq : h₁ = h.setSlabFreeList (pageAddr s) (h.objNext a))
    (h₂_eq : h₂ = h₁.setSlabFreeCount (pageAddr s) ((h₁.slabFreeCount (pageAddr s) + 2 ^ 32 - 1) % 2 ^ 32)) :
    HeapCore h₂ F G (Function.update L s l) B ((a, size) :: live) ∧ Keeps live h h₂ ∧
      h₂.slabFreeCount (pageAddr s) = l.length := by
  have ok := core.ok c hc s hs
  rw [hL] at ok
  have hcap := slabCapacity_bounds hc
  have hlen := ok.length_le
  have hcount := ok.count
  simp only [List.length_cons] at hlen hcount
  have hcnt₁ : h₁.slabFreeCount (pageAddr s) = l.length + 1 := by
    rw [h₁_eq, ← hcount]
    exact load_store_of_disjoint (by omega)
  have hval : (h₁.slabFreeCount (pageAddr s) + 2 ^ 32 - 1) % 2 ^ 32 = l.length := by
    rw [hcnt₁]
    omega
  rw [hval] at h₂_eq
  obtain ⟨m₁, hm₁⟩ : ∃ m₁, m₁ = store64 h.mem (pageAddr s) (h.objNext a) := ⟨_, rfl⟩
  have hmem : h₂ = { h with mem := store32 m₁ (pageAddr s + 8) l.length } := by
    rw [h₂_eq, h₁_eq, hm₁]
    rfl
  have hout : ∀ y, y < pageAddr s ∨ pageAddr s + 12 ≤ y → h₂.mem y = h.mem y := by
    intro y hy
    rw [hmem, hm₁]
    refine (store_eqOn_compl _ _ _ _ ?_).trans (store_eqOn_compl _ _ _ _ ?_)
    all_goals
      simp only [bytes, Set.mem_compl_iff, Set.mem_Ico]
      omega
  have hfield : ∀ o w, 12 ≤ o → load h₂.mem (pageAddr s + o) w = load h.mem (pageAddr s + o) w := by
    intro o w ho
    refine load_congr fun y hy => hout y (Or.inr ?_)
    simp only [bytes, Set.mem_Ico] at hy
    omega
  have hcount₂ : h₂.slabFreeCount (pageAddr s) = l.length := by
    rw [hmem]
    exact load_store_same_of_lt (by norm_num; omega)
  have hlist₂ : h₂.slabFreeList (pageAddr s) = h.objNext a := by
    rw [hmem]
    have hd : load64 (store32 m₁ (pageAddr s + 8) l.length) (pageAddr s) = load64 m₁ (pageAddr s) :=
      load_store_of_disjoint (by omega)
    refine hd.trans ?_
    rw [hm₁]
    refine load_store_same_of_lt ?_
    have := load64_lt h.mem a
    norm_num at this ⊢
    exact this
  have hslots : ∀ o ∈ l, ∃ j < slabCapacity c, o = slotAddr c s j := fun o ho => ok.slots o (by simp [ho])
  have hok : SlabOk h₂ c s l := by
    refine ⟨(congrArg cacheAt (hfield 16 8 (by omega))).trans ok.parent,
      (hfield 12 4 (by omega)).trans ok.total, hcount₂, ?_,
      (List.nodup_cons.mp ok.nodup).2, hslots⟩
    rw [hlist₂]
    refine ok.chain.2.congr fun o ho => load_congr fun y hy => hout y (Or.inr ?_)
    obtain ⟨j, hj, rfl⟩ := hslots o ho
    have := slotAddr_inPage (s := s) hc hj
    simp only [bytes, Set.mem_Ico] at hy
    omega
  have hslot_a := ok.slots a (by simp)
  refine ⟨?_, ?_, hcount₂⟩
  · rw [hmem] at hok hout ⊢
    refine core.update hc hs (fun y hy => hout y ?_) hok ?_ ?_
    · rcases hy with hy | hy
      · simp only [inPage] at hy
        omega
      · simp only [inLinks] at hy
        omega
    · rw [List.map_cons, List.nodup_cons]
      refine ⟨?_, core.distinct⟩
      intro hm
      obtain ⟨e, he, hea⟩ := List.mem_map.mp hm
      change e.1 = a at hea
      refine (core.small_of_slot he hc hs (hea ▸ hslot_a)).1 ?_
      rw [hea, hL]
      exact List.mem_cons_self
    · rintro e (_ | ⟨_, he⟩)
      · refine Or.inr ⟨c, hc, s, hs, hslot_a, ?_, hsz⟩
        rw [Function.update_self]
        exact (List.nodup_cons.mp ok.nodup).1
      · refine (core.owner e he).imp_right ?_
        rintro ⟨d, hd, t, ht, hj, hLt, hsz'⟩
        refine ⟨d, hd, t, ht, hj, ?_, hsz'⟩
        by_cases hts : t = s
        · subst hts
          rw [Function.update_self]
          rw [hL] at hLt
          exact fun hm => hLt (by simp [hm])
        · rw [Function.update_of_ne hts]
          exact hLt
  · intro e he y hy
    have := core.outside_header he ⟨c, hc, hs⟩ hy
    exact hout y (by omega)

/-- An object is put back in front of the free list of its slab. -/
theorem push (core : HeapCore h F G L B live) (hc : c < 8) (hs : inCache G c s) (he : e ∈ live)
    (hj : ∃ j < slabCapacity c, e.1 = slotAddr c s j) {h₂ h₃ h₄ : Heap}
    (h₂_eq : h₂ = h.write64 e.1 (h.slabFreeList (pageAddr s)))
    (h₃_eq : h₃ = h₂.setSlabFreeList (pageAddr s) e.1)
    (h₄_eq : h₄ = h₃.setSlabFreeCount (pageAddr s) (h₃.slabFreeCount (pageAddr s) + 1)) :
    HeapCore h₄ F G (Function.update L s (e.1 :: L s)) B (live.erase e) ∧
      Keeps (live.erase e) h h₄ ∧ SlabOk h₄ c s (e.1 :: L s) := by
  have ok := core.ok c hc s hs
  have ho := cacheObjSize_bounds hc
  have heL := (core.small_of_slot he hc hs hj).1
  have hin : pageAddr s + 40 ≤ e.1 ∧ e.1 + cacheObjSize c ≤ pageAddr s + 4096 := by
    obtain ⟨j, hj, hp⟩ := hj
    rw [hp]
    exact slotAddr_inPage hc hj
  have helt : e.1 < 2 ^ 64 := by
    obtain ⟨j, hj, hp⟩ := hj
    rw [hp]
    exact Heap.slotAddr_lt hc (core.slab_lt ⟨c, hc, hs⟩) hj
  have hcap := slabCapacity_bounds hc
  have hlen := ok.length_le
  have hcnt₃ : h₃.slabFreeCount (pageAddr s) = (L s).length := by
    rw [h₃_eq, h₂_eq, ← ok.count]
    refine (load_store_of_disjoint (by omega)).trans (load_store_of_disjoint (by omega))
  obtain ⟨m₂, hm₂⟩ : ∃ m₂, m₂ = store64 h.mem e.1 (h.slabFreeList (pageAddr s)) := ⟨_, rfl⟩
  obtain ⟨m₃, hm₃⟩ : ∃ m₃, m₃ = store64 m₂ (pageAddr s) e.1 := ⟨_, rfl⟩
  have hmem : h₄ = { h with mem := store32 m₃ (pageAddr s + 8) ((L s).length + 1) } := by
    rw [h₄_eq, hcnt₃, h₃_eq, h₂_eq, hm₃, hm₂]
    rfl
  have hout : ∀ y, y < pageAddr s ∨ pageAddr s + 12 ≤ y → y ∉ bytes e.1 8 → h₄.mem y = h.mem y := by
    intro y hy hye
    rw [hmem, hm₃, hm₂]
    refine (store_eqOn_compl _ _ _ _ ?_).trans ((store_eqOn_compl _ _ _ _ ?_).trans
      (store_eqOn_compl _ _ _ _ hye))
    all_goals
      simp only [bytes, Set.mem_compl_iff, Set.mem_Ico]
      omega
  have hfield : ∀ o w, 12 ≤ o → o + w ≤ 40 →
      load h₄.mem (pageAddr s + o) w = load h.mem (pageAddr s + o) w := by
    intro o w ho how
    refine load_congr fun y hy => ?_
    simp only [bytes, Set.mem_Ico] at hy
    refine hout y (by omega) ?_
    simp only [bytes, Set.mem_Ico]
    omega
  have hlist₄ : h₄.slabFreeList (pageAddr s) = e.1 := by
    rw [hmem]
    have hd : load64 (store32 m₃ (pageAddr s + 8) ((L s).length + 1)) (pageAddr s) =
        load64 m₃ (pageAddr s) := load_store_of_disjoint (by omega)
    refine hd.trans ?_
    rw [hm₃]
    exact load_store_same_of_lt (by norm_num at helt ⊢; exact helt)
  have hnext₄ : h₄.objNext e.1 = h.slabFreeList (pageAddr s) := by
    rw [hmem, hm₃, hm₂]
    refine (load_store_of_disjoint (by omega)).trans ((load_store_of_disjoint (by omega)).trans
      (load_store_same_of_lt ?_))
    have := load64_lt h.mem (pageAddr s)
    norm_num at this ⊢
    exact this
  have hok : SlabOk h₄ c s (e.1 :: L s) := by
    refine ⟨(congrArg cacheAt (hfield 16 8 (by omega) (by omega))).trans ok.parent,
      (hfield 12 4 (by omega) (by omega)).trans ok.total, ?_, ⟨hlist₄, ?_⟩,
      List.nodup_cons.mpr ⟨heL, ok.nodup⟩, ?_⟩
    · rw [hmem]
      exact load_store_same_of_lt (by norm_num; omega)
    · rw [hnext₄]
      refine ok.chain.congr fun o hoL => load_congr fun y hy => ?_
      have hslot := ok.slots o hoL
      have hyo : y ∈ bytes o (cacheObjSize c) := by
        simp only [bytes, Set.mem_Ico] at hy ⊢
        omega
      have hpage := small_inPage (e := (o, cacheObjSize c)) hc hslot le_rfl hyo
      refine hout y (by omega) ?_
      have hne : o ≠ e.1 := fun heq => heL (heq ▸ hoL)
      have := slots_apart hslot hj hne
      simp only [bytes, Set.mem_Ico] at hyo ⊢
      omega
    · rintro o (_ | ⟨_, hoL⟩)
      · exact hj
      · exact ok.slots o hoL
  have hnd : live.Nodup := core.distinct.of_map _
  have hne : ∀ f ∈ live.erase e, f ∈ live ∧ f.1 ≠ e.1 := by
    intro f hf
    rw [hnd.mem_erase_iff] at hf
    exact ⟨hf.2, fun heq => hf.1 (List.inj_on_of_nodup_map core.distinct hf.2 he heq)⟩
  refine ⟨?_, ?_, hok⟩
  · rw [hmem] at hok hout ⊢
    refine core.update hc hs (fun y hy => ?_) hok ?_ ?_
    · rcases hy with hy | hy
      · simp only [inPage] at hy
        refine hout y (by omega) ?_
        simp only [bytes, Set.mem_Ico]
        omega
      · simp only [inLinks] at hy
        refine hout y (by omega) ?_
        simp only [bytes, Set.mem_Ico]
        omega
    · exact core.distinct.sublist ((List.erase_sublist).map _)
    · intro f hf
      obtain ⟨hfl, hfe⟩ := hne f hf
      refine (core.owner f hfl).imp_right ?_
      rintro ⟨d, hd, t, ht, hjt, hLt, hsz'⟩
      refine ⟨d, hd, t, ht, hjt, ?_, hsz'⟩
      by_cases hts : t = s
      · subst hts
        rw [Function.update_self, List.mem_cons, not_or]
        exact ⟨hfe, hLt⟩
      · rw [Function.update_of_ne hts]
        exact hLt
  · intro f hf y hy
    obtain ⟨hfl, hfe⟩ := hne f hf
    have hhdr := core.outside_header hfl ⟨c, hc, hs⟩ hy
    refine hout y (by omega) ?_
    have hslot := core.outside_slot hfl hc hs hj hfe hy
    simp only [bytes, Set.mem_Ico] at hslot ⊢
    omega

end HeapCore

end PointerOS
