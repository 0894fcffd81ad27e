import PointerOS.HeapBlocks
import PointerOS.BuddyRuns

/-!
# Runs of `kmalloc` and `kfree`

A run starts from `init_kheap` and interleaves allocations, frees of live
pointers and writes of the owners into their allocations. The list beside the
heap holds each live pointer with the size that was asked for.
-/
namespace PointerOS
open ByteMemory LinkedList BuddyBlocks

def HeapInv (h : Heap) (live : List (ℕ × ℕ)) : Prop :=
  ∃ F G L B, HeapCore h F G L B live ∧ Filled G L

/-- Every block handed out whole and every used object belongs to a live
allocation, and whole blocks serve requests too large for the caches only. -/
structure Accounted (G : SlabHead → List ℕ) (L : ℕ → List ℕ) (B : Set Block) (live : List (ℕ × ℕ)) : Prop where
  blocks : ∀ b ∈ B, ∃ e ∈ live, e.1 = pageAddr b.start
  slots : ∀ c < 8, ∀ s, inCache G c s → ∀ j < slabCapacity c, slotAddr c s j ∉ L s →
    ∃ e ∈ live, e.1 = slotAddr c s j
  large : ∀ e ∈ live, ∀ b ∈ B, e.1 = pageAddr b.start → 2048 < e.2

/-- The invariant with nothing leaked. -/
def HeapAccounted (h : Heap) (live : List (ℕ × ℕ)) : Prop :=
  ∃ F G L B, HeapCore h F G L B live ∧ Filled G L ∧ Accounted G L B live

/-- What an operation leaves behind, seen from the description before it. -/
def HeapFrom (G : SlabHead → List ℕ) (L : ℕ → List ℕ) (B : Set Block) (live : List (ℕ × ℕ)) (h' : Heap)
    (live' : List (ℕ × ℕ)) : Prop :=
  ∃ F' G' L' B', HeapCore h' F' G' L' B' live' ∧ Filled G' L' ∧
    (Accounted G L B live → Accounted G' L' B' live')

/-- `Filled`, except for page `s` of the partial list. -/
def FilledBut (s : ℕ) (G : SlabHead → List ℕ) (L : ℕ → List ℕ) : Prop :=
  ∀ c < 8, (∀ t ∈ G (.slabsPartial c), t ≠ s → 0 < (L t).length ∧ (L t).length < slabCapacity c) ∧
    ∀ t ∈ G (.slabsFull c), L t = []

lemma HeapAccounted.inv {h : Heap} {live : List (ℕ × ℕ)} (acc : HeapAccounted h live) : HeapInv h live := by
  obtain ⟨F, G, L, B, core, hf, -⟩ := acc
  exact ⟨F, G, L, B, core, hf⟩

lemma Filled.but {G : SlabHead → List ℕ} {L : ℕ → List ℕ} (hf : Filled G L) (s : ℕ) : FilledBut s G L :=
  fun c hc => ⟨fun t ht _ => (hf c hc).1 t ht, (hf c hc).2⟩

section Steps

variable {h : Heap} {F : ℕ → List ℕ} {G : SlabHead → List ℕ} {L : ℕ → List ℕ} {B : Set Block}
  {live : List (ℕ × ℕ)} {c s : ℕ} {e : ℕ × ℕ}

lemma slotAddr_ne_pageAddr {j t : ℕ} (hc : c < 8) (hj : j < slabCapacity c) : slotAddr c s j ≠ pageAddr t := by
  have hin := slotAddr_inPage (s := s) hc hj
  have ho := cacheObjSize_bounds hc
  simp only [pageAddr_eq] at hin ⊢
  omega

namespace Accounted

variable {G' : SlabHead → List ℕ} {a size x : ℕ} {l : List ℕ}

/-- Fewer slabs need no more accounting. -/
lemma sub (acc : Accounted G L B live) (hG : ∀ c < 8, ∀ s, inCache G' c s → inCache G c s) :
    Accounted G' L B live :=
  ⟨acc.blocks, fun c hc s hs => acc.slots c hc s (hG c hc s hs), acc.large⟩

lemma take (acc : Accounted G L B live) (hc : c < 8) (hL : L s = a :: l)
    (ha : ∃ j < slabCapacity c, a = slotAddr c s j) :
    Accounted G (Function.update L s l) B ((a, size) :: live) := by
  refine ⟨fun b hb => ?_, fun d hd t ht j hj hfree => ?_, ?_⟩
  · obtain ⟨e, he, hp⟩ := acc.blocks b hb
    exact ⟨e, List.mem_cons_of_mem _ he, hp⟩
  · by_cases hts : t = s
    · subst hts
      rw [Function.update_self] at hfree
      by_cases hja : slotAddr d t j = a
      · exact ⟨(a, size), List.mem_cons_self, hja.symm⟩
      · obtain ⟨e, he, hp⟩ := acc.slots d hd t ht j hj (by simp [hL, hja, hfree])
        exact ⟨e, List.mem_cons_of_mem _ he, hp⟩
    · rw [Function.update_of_ne hts] at hfree
      obtain ⟨e, he, hp⟩ := acc.slots d hd t ht j hj hfree
      exact ⟨e, List.mem_cons_of_mem _ he, hp⟩
  · rintro e (_ | ⟨_, he⟩) b hb hp
    · obtain ⟨j, hj, rfl⟩ := ha
      exact absurd hp (slotAddr_ne_pageAddr hc hj)
    · exact acc.large e he b hb hp

/-- A new slab has no used object. -/
lemma create (acc : Accounted G L B live) (hx : x ∉ slabPages G) :
    Accounted (Function.update G (.slabsPartial c) (x :: G (.slabsPartial c)))
      (Function.update L x ((List.range (slabCapacity c)).map (slotAddr c x))) B live := by
  refine ⟨acc.blocks, fun d hd t ht j hj hfree => ?_, acc.large⟩
  rw [HeapCore.inCache_push] at ht
  by_cases htx : t = x
  · subst htx
    rcases ht with ht | ⟨rfl, -⟩
    · exact absurd ⟨d, hd, ht⟩ hx
    · rw [Function.update_self] at hfree
      exact absurd (List.mem_map_of_mem (List.mem_range.mpr hj)) hfree
  · rw [Function.update_of_ne htx] at hfree
    exact acc.slots d hd t (ht.resolve_right fun hcon => htx hcon.2) j hj hfree

lemma put (acc : Accounted G L B live) (hc : c < 8) (he : e.1 = slotAddr c s a) (ha : a < slabCapacity c) :
    Accounted G (Function.update L s (e.1 :: L s)) B (live.erase e) := by
  have hother : ∀ f ∈ live, f.1 ≠ e.1 → f ∈ live.erase e := fun f hf hne =>
    (List.mem_erase_of_ne fun heq => hne (by rw [heq])).mpr hf
  refine ⟨fun b hb => ?_, fun d hd t ht j hj hfree => ?_, fun f hf => acc.large f (List.mem_of_mem_erase hf)⟩
  · obtain ⟨f, hf, hp⟩ := acc.blocks b hb
    exact ⟨f, hother f hf fun heq => slotAddr_ne_pageAddr hc ha (he.symm.trans (heq.symm.trans hp)), hp⟩
  · by_cases hts : t = s
    · subst hts
      rw [Function.update_self, List.mem_cons, not_or] at hfree
      obtain ⟨f, hf, hp⟩ := acc.slots d hd t ht j hj hfree.2
      exact ⟨f, hother f hf fun heq => hfree.1 (hp.symm.trans heq), hp⟩
    · rw [Function.update_of_ne hts] at hfree
      obtain ⟨f, hf, hp⟩ := acc.slots d hd t ht j hj hfree
      refine ⟨f, hother f hf fun heq => hts ?_, hp⟩
      have hin := slotAddr_inPage (s := t) hd hj
      have hin' := slotAddr_inPage (s := s) hc ha
      have ho := cacheObjSize_bounds hd
      have ho' := cacheObjSize_bounds hc
      rw [← he, ← heq, hp] at hin'
      exact inPage_unique (a := slotAddr d t j) ⟨by omega, by omega⟩ ⟨by omega, by omega⟩

/-- A block is handed out for a large request. -/
lemma grant (acc : Accounted G L B live) (hnew : pageAddr x ∉ live.map Prod.fst) (hsize : 2048 < size) (k : ℕ) :
    Accounted G L (insert ⟨x, k⟩ B) ((pageAddr x, size) :: live) := by
  refine ⟨?_, fun d hd t ht j hj hfree => ?_, ?_⟩
  · rintro b (rfl | hb)
    · exact ⟨(pageAddr x, size), List.mem_cons_self, rfl⟩
    · obtain ⟨e, he, hp⟩ := acc.blocks b hb
      exact ⟨e, List.mem_cons_of_mem _ he, hp⟩
  · obtain ⟨e, he, hp⟩ := acc.slots d hd t ht j hj hfree
    exact ⟨e, List.mem_cons_of_mem _ he, hp⟩
  · rintro e (_ | ⟨_, he⟩) b hb hp
    · exact hsize
    · rcases hb with rfl | hb
      · exact absurd (hp ▸ List.mem_map_of_mem he) hnew
      · exact acc.large e he b hb hp

/-- A block comes back. -/
lemma release (acc : Accounted G L B live) {b : Block} (he : e.1 = pageAddr b.start)
    (hB : ∀ d ∈ B, d.start = b.start → d = b) : Accounted G L (B \ {b}) (live.erase e) := by
  have hother : ∀ f ∈ live, f.1 ≠ e.1 → f ∈ live.erase e := fun f hf hne =>
    (List.mem_erase_of_ne fun heq => hne (by rw [heq])).mpr hf
  refine ⟨?_, fun d hd t ht j hj hfree => ?_, ?_⟩
  · rintro d ⟨hd, hdb⟩
    obtain ⟨f, hf, hp⟩ := acc.blocks d hd
    exact ⟨f, hother f hf fun heq => hdb (hB d hd (pageAddr_injective (hp.symm.trans (heq.trans he)))), hp⟩
  · obtain ⟨f, hf, hp⟩ := acc.slots d hd t ht j hj hfree
    exact ⟨f, hother f hf fun heq => slotAddr_ne_pageAddr hd hj (hp.symm.trans (heq.trans he)), hp⟩
  · exact fun f hf d hd => acc.large f (List.mem_of_mem_erase hf) d hd.1

end Accounted

/-- A slab that changes lists stays in its cache. -/
lemma inCache_relist {r r' : SlabHead} {pre post : List ℕ}
    (hrr : r = .slabsPartial c ∧ r' = .slabsFull c ∨ r = .slabsFull c ∧ r' = .slabsPartial c)
    (hG : G r = pre ++ s :: post) {d t : ℕ}
    (ht : inCache (Function.update (Function.update G r (pre ++ post)) r' (s :: G r')) d t) : inCache G d t := by
  have hmem : ∀ q, t ∈ Function.update (Function.update G r (pre ++ post)) r' (s :: G r') q →
      t ∈ G q ∨ q = r' ∧ t = s := by
    intro q hq
    by_cases hqr' : q = r'
    · subst hqr'
      rw [Function.update_self, List.mem_cons] at hq
      exact hq.symm.imp_right fun hts => ⟨rfl, hts⟩
    · rw [Function.update_of_ne hqr'] at hq
      by_cases hqr : q = r
      · subst hqr
        rw [Function.update_self, List.mem_append] at hq
        exact .inl (by rw [hG, List.mem_append, List.mem_cons]; tauto)
      · rw [Function.update_of_ne hqr] at hq
        exact .inl hq
  have hs : s ∈ G r := by simp [hG]
  rcases hrr with ⟨rfl, rfl⟩ | ⟨rfl, rfl⟩ <;> rcases ht with ht | ht
  · exact .inl ((hmem _ ht).resolve_right fun hq => by simp at hq)
  · rcases hmem _ ht with ht | ⟨hq, rfl⟩
    · exact .inr ht
    · obtain rfl := SlabHead.slabsFull.inj hq
      exact .inl hs
  · rcases hmem _ ht with ht | ⟨hq, rfl⟩
    · exact .inl ht
    · obtain rfl := SlabHead.slabsPartial.inj hq
      exact .inr hs
  · exact .inr ((hmem _ ht).resolve_right fun hq => by simp at hq)

/-- Settling one slab on the partial list settles all. -/
lemma FilledBut.settle {l : List ℕ} (core : HeapCore h F G L B live) (hf : FilledBut s G L) (hc : c < 8)
    (hs : s ∈ G (.slabsPartial c)) (hl : 0 < l.length ∧ l.length < slabCapacity c) :
    Filled G (Function.update L s l) := by
  intro d hd
  constructor
  · intro t ht
    by_cases hts : t = s
    · subst hts
      obtain rfl := core.cache_unique hd hc (Or.inl ht) (Or.inl hs)
      rwa [Function.update_self]
    · rw [Function.update_of_ne hts]
      exact (hf d hd).1 t ht hts
  · intro t ht
    have hts : t ≠ s := by
      rintro rfl
      cases core.lists.head_unique (slabsFull_mem hd) (slabsPartial_mem hc) ht hs
    rw [Function.update_of_ne hts]
    exact (hf d hd).2 t ht

/-- The allocation from the slab at the head of the partial list. -/
theorem slabTake_inv {a size : ℕ} {rest l : List ℕ} (core : HeapCore h F G L B live)
    (hf : FilledBut s G L) (hc : c < 8) (hG : G (.slabsPartial c) = s :: rest) (hL : L s = a :: l)
    (hsz : size ≤ cacheObjSize c) :
    (h.slabTake c).1 = a ∧ a ≠ 0 ∧ HeapFrom G L B live (h.slabTake c).2 ((a, size) :: live) ∧
      Keeps live h (h.slabTake c).2 := by
  have hsG : s ∈ G (.slabsPartial c) := by simp [hG]
  have hhead : (h.kernelCaches c).slabsPartial = pageAddr s :=
    core.lists.headOf_cons (slabsPartial_mem hc) hG
  have ok := core.ok c hc s (Or.inl hsG)
  have hobj : h.slabFreeList (pageAddr s) = a := by
    have hch := ok.chain
    rw [hL] at hch
    exact hch.1
  have ha : a ≠ 0 := by
    rintro rfl
    exact ok.zero_notMem (by simp [hL])
  obtain ⟨core₂, hk₂, hcnt⟩ := core.pop hc (Or.inl hsG) hL hsz rfl rfl
  have hacc : Accounted G L B live → Accounted G (Function.update L s l) B ((a, size) :: live) :=
    fun acc => acc.take hc hL (ok.slots a (by simp [hL]))
  have hlen := ok.length_le
  rw [hL, List.length_cons] at hlen
  simp only [Heap.slabTake, hhead, hobj]
  refine ⟨trivial, ha, ?_⟩
  rw [hcnt]
  by_cases hl : l.length = 0
  · rw [if_pos hl]
    have hG' : G (.slabsPartial c) = [] ++ s :: rest := hG
    obtain ⟨core₃, hk₃⟩ := core₂.relist hc (Or.inl ⟨rfl, rfl⟩) hG'
    refine ⟨⟨F, _, _, B, core₃, ?_, fun acc => (hacc acc).sub fun d _ t ht =>
      inCache_relist (Or.inl ⟨rfl, rfl⟩) hG' ht⟩, hk₂.trans (hk₃.sub (List.subset_cons_self _ _))⟩
    have hnil : l = [] := List.length_eq_zero_iff.mp hl
    have hrest := fun {q : SlabHead} (hq : q ∈ slabHeads) {t : ℕ} =>
      core.lists.mem_unlinked (slabsPartial_mem hc) (show _ = [] ++ s :: rest from hG) hq (t := t)
    intro d hd
    constructor
    · intro t ht
      rw [Function.update_of_ne (by simp), hrest (slabsPartial_mem hd)] at ht
      rw [Function.update_of_ne ht.2]
      exact (hf d hd).1 t ht.1 ht.2
    · intro t ht
      by_cases hts : t = s
      · rw [hts, Function.update_self, hnil]
      · rw [Function.update_of_ne hts]
        refine (hf d hd).2 t ?_
        by_cases hdc : d = c
        · subst hdc
          rw [Function.update_self, List.mem_cons] at ht
          exact ht.resolve_left hts
        · rwa [Function.update_of_ne (by simpa using hdc), Function.update_of_ne (by simp)] at ht
  · rw [if_neg hl]
    exact ⟨⟨F, G, _, B, core₂, hf.settle core hc hsG ⟨by omega, by omega⟩, hacc⟩, hk₂⟩

/-- A new slab on the partial list, all of its objects free. -/
theorem slabCreate_inv (core : HeapCore h F G L B live) (hc : c < 8) :
    h.slabCreate c = (0, h) ∨
    ∃ x F', (h.slabCreate c).1 = pageAddr x ∧ x ∉ slabPages G ∧
      HeapCore ((h.slabCreate c).2.slabListAdd (.slabsPartial c) (pageAddr x)) F'
        (Function.update G (.slabsPartial c) (x :: G (.slabsPartial c)))
        (Function.update L x ((List.range (slabCapacity c)).map (slotAddr c x))) B live ∧
      Keeps live h ((h.slabCreate c).2.slabListAdd (.slabsPartial c) (pageAddr x)) := by
  rcases core.allocBlock 0 with hr | ⟨x, F', hp, core₁, hxB, hmeta, hk₁⟩
  · left
    simp only [Heap.slabCreate, hr, if_true]
  · right
    have hxin : (⟨x, 0⟩ : Block) ∈ insert ⟨x, 0⟩ B := Or.inl rfl
    have hxs : x ∉ slabPages G := core₁.notMem_slabPages hxin (Block.covers_start ⟨x, 0⟩)
    have hx : x < 4096 := core₁.buddy.start_lt (b := ⟨x, 0⟩) (Or.inr (Or.inr hxin))
    have halloc : h.buddyAlloc 0 = (pageAddr x, (h.buddyAlloc 0).2) := by rw [← hp]
    obtain ⟨m, heq, hm, hok⟩ := Heap.slabCreate_effect hc hx halloc hmeta (core₁.objSize c hc)
    rw [heq]
    have hout : ∀ r ∈ slabHeads, x ∉ G r := by
      intro r hr hxr
      cases r with
      | slabsPartial d => exact hxs ⟨d, hr, Or.inl hxr⟩
      | slabsFull d => exact hxs ⟨d, hr, Or.inr hxr⟩
    obtain ⟨g, hg⟩ : ∃ g : Heap, g = { (h.buddyAlloc 0).2 with
      mem := m, metadata := Function.update (h.buddyAlloc 0).2.metadata x ⟨0, false, true⟩ } := ⟨_, rfl⟩
    rw [← hg] at hok ⊢
    have hgm : g.mem = m := by rw [hg]
    have hlists : SlabLists g G := by
      refine core₁.lists.congr (fun r => by rw [hg]; cases r <;> rfl) fun r hr i hi a hia => ?_
      rw [hgm]
      exact hm a fun hxa => hout r hr (inPage_unique (inPage_of_inLinks hia) hxa ▸ hi)
    obtain ⟨hl, hch⟩ := hlists.add (slabsPartial_mem hc) hx hout
    have hmemG : ∀ t ∈ G (.slabsPartial c), t ∈ slabPages G := fun t ht => ⟨c, hc, Or.inl ht⟩
    have hok' : SlabOk (g.slabListAdd (.slabsPartial c) (pageAddr x)) c x
        ((List.range (slabCapacity c)).map (slotAddr c x)) := by
      have hlink : ∀ a, inPage x a → ¬ inLinks x a →
          (g.slabListAdd (.slabsPartial c) (pageAddr x)).mem a = g.mem a := by
        intro a hxa hna
        refine hch.mem a ?_
        rintro i (rfl | hi) hia
        · exact hna hia
        · exact hxs (inPage_unique (inPage_of_inLinks hia) hxa ▸ hmemG i hi)
      exact hok.congr_page hc hlink
    obtain ⟨core₂, hk₂⟩ := core₁.claimPage hxB core.owner hc
      (by rw [hch.metadata, hg]) (by rw [hch.freeAreas, hg]) (fun d => by rw [hch.objSize, hg])
      (fun a hxa hna => by
        rw [hch.mem a, hgm]
        · exact hm a hxa
        · rintro i (rfl | hi) hia
          · exact hxa (inPage_of_inLinks hia)
          · exact hna i (hmemG i hi) hia) hl hok'
    exact ⟨x, F', rfl, hxs, core₂, hk₁.trans hk₂⟩

theorem slabAlloc_inv {size : ℕ} (core : HeapCore h F G L B live) (hf : Filled G L) (hc : c < 8)
    (hsz : size ≤ cacheObjSize c) :
    HeapFrom G L B live (h.slabAlloc c).2
      (if (h.slabAlloc c).1 = 0 then live else ((h.slabAlloc c).1, size) :: live) ∧
    Keeps live h (h.slabAlloc c).2 ∧
    ((h.slabAlloc c).1 = 0 → (h.kernelCaches c).slabsPartial = 0 ∧ h.slabCreate c = (0, h)) := by
  have hhead := core.lists.eq_nil_iff (slabsPartial_mem hc)
  by_cases hempty : (h.kernelCaches c).slabsPartial = 0
  · rcases slabCreate_inv core hc with hr | ⟨x, F', hp, hxs, core', hk⟩
    · simp only [Heap.slabAlloc, if_pos hempty, hr, if_true]
      exact ⟨⟨F, G, L, B, core, hf, id⟩, Keeps.refl _ _, fun _ => ⟨hempty, trivial⟩⟩
    · have hcap := slabCapacity_bounds hc
      obtain ⟨n, hn⟩ : ∃ n, slabCapacity c = n + 1 := Nat.exists_eq_succ_of_ne_zero (by omega)
      have hL : Function.update L x ((List.range (slabCapacity c)).map (slotAddr c x)) x =
          slotAddr c x 0 :: (List.range' 1 n).map (slotAddr c x) := by
        rw [Function.update_self, hn, List.range_eq_range', List.range'_succ, List.map_cons]
      have hf' : FilledBut x (Function.update G (.slabsPartial c) (x :: G (.slabsPartial c)))
          (Function.update L x ((List.range (slabCapacity c)).map (slotAddr c x))) := by
        intro d hd
        constructor
        · intro t ht htx
          rw [Function.update_of_ne htx]
          refine (hf d hd).1 t ?_
          by_cases hdc : d = c
          · subst hdc
            rw [Function.update_self, List.mem_cons] at ht
            exact ht.resolve_left htx
          · rwa [Function.update_of_ne (by simpa using hdc)] at ht
        · intro t ht
          rw [Function.update_of_ne (by simp)] at ht
          have htx : t ≠ x := fun htx => hxs (htx ▸ ⟨d, hd, Or.inr ht⟩)
          rw [Function.update_of_ne htx]
          exact (hf d hd).2 t ht
      obtain ⟨ha, hne, ⟨F₂, G₂, L₂, B₂, core₂, hf₂, hacc₂⟩, hk'⟩ :=
        slabTake_inv core' hf' hc (Function.update_self _ _ _) hL hsz
      have hval : h.slabAlloc c =
          ((h.slabCreate c).2.slabListAdd (.slabsPartial c) (pageAddr x)).slabTake c := by
        simp only [Heap.slabAlloc, if_pos hempty, hp, if_neg (pageAddr_pos x)]
      rw [hval, ha, if_neg hne]
      exact ⟨⟨F₂, G₂, L₂, B₂, core₂, hf₂, fun acc => hacc₂ (acc.create hxs)⟩, hk.trans hk', fun h0 => absurd h0 hne⟩
  · rw [Heap.slabAlloc, if_neg hempty]
    obtain ⟨s, rest, hG⟩ : ∃ s rest, G (.slabsPartial c) = s :: rest := by
      cases hG : G (.slabsPartial c) with
      | nil => exact absurd (hhead.mp hG) hempty
      | cons s rest => exact ⟨s, rest, rfl⟩
    have hs := (hf c hc).1 s (by simp [hG])
    obtain ⟨a, l, hL⟩ : ∃ a l, L s = a :: l := by
      cases hL : L s with
      | nil => simp [hL] at hs
      | cons a l => exact ⟨a, l, rfl⟩
    obtain ⟨ha, hne, inv', hk⟩ := slabTake_inv core (hf.but s) hc hG hL hsz
    rw [ha, if_neg hne]
    exact ⟨inv', hk, fun h0 => absurd h0 hne⟩

/-- The object goes back to a slab of the partial list, and a slab without used
objects goes back to the buddy allocator. -/
theorem slabPut_inv (core : HeapCore h F G L B live) (hf : FilledBut s G L) (hc : c < 8)
    (hs : s ∈ G (.slabsPartial c)) (he : e ∈ live) (hj : ∃ j < slabCapacity c, e.1 = slotAddr c s j)
    (hlt : (L s).length < slabCapacity c) :
    HeapFrom G L B live (h.slabPut c (pageAddr s) e.1) (live.erase e) ∧
      Keeps (live.erase e) h (h.slabPut c (pageAddr s) e.1) := by
  have hacc : Accounted G L B live → Accounted G (Function.update L s (e.1 :: L s)) B (live.erase e) := fun acc => by
    obtain ⟨j, hjc, hp⟩ := hj
    exact acc.put hc hp hjc
  obtain ⟨core₄, hk₄, ok₄⟩ := core.push hc (Or.inl hs) he hj rfl rfl rfl
  generalize h₄_eq : ((h.write64 e.1 (h.slabFreeList (pageAddr s))).setSlabFreeList (pageAddr s)
    e.1).setSlabFreeCount (pageAddr s) _ = h₄ at core₄ hk₄ ok₄
  have hput : h.slabPut c (pageAddr s) e.1 = if h₄.slabFreeCount (pageAddr s) = h₄.slabTotalCount (pageAddr s)
      then ((h₄.slabListRemove (.slabsPartial c) (pageAddr s)).setMetadata (pageIndex e.1)
        { (h₄.slabListRemove (.slabsPartial c) (pageAddr s)).metadata (pageIndex e.1) with
          isSlab := false }).buddyFree (pageAddr s)
      else h₄ := by
    rw [← h₄_eq]
    rfl
  rw [hput, ok₄.count, ok₄.total, List.length_cons]
  by_cases hfull : (L s).length + 1 = slabCapacity c
  · rw [if_pos hfull]
    obtain ⟨pre, post, hG⟩ := List.append_of_mem hs
    obtain ⟨hl₅, hch₅⟩ := core₄.lists.remove (slabsPartial_mem hc) hG
    have hss : s ∈ slabPages G := ⟨c, hc, Or.inl hs⟩
    have hslt := core.slab_lt hss
    have hidx : pageIndex e.1 = s := by
      obtain ⟨j, hj, hp⟩ := hj
      have hin := slotAddr_inPage (s := s) hc hj
      have ho := cacheObjSize_bounds hc
      obtain ⟨off, hoff⟩ := Nat.exists_eq_add_of_le (show pageAddr s ≤ slotAddr c s j by omega)
      rw [hp, hoff]
      exact pageIndex_add hslt (by omega)
    have hms : { h₄.metadata s with isSlab := false } = (⟨0, false, false⟩ : PageMetadata) := by
      have ho : (h₄.metadata s).order = 0 := core₄.recorded _ (Or.inl (HeapCore.slabBlock_mem hss))
      have hfr : (h₄.metadata s).isFree = false := core₄.buddy.owned _ (Or.inl (HeapCore.slabBlock_mem hss))
      simp only [ho, hfr]
    rw [hidx, hch₅.metadata, hms]
    generalize h₄.slabListRemove (.slabsPartial c) (pageAddr s) = h₅ at hl₅ hch₅ ⊢
    have hl₆ : SlabLists (h₅.setMetadata s ⟨0, false, false⟩)
        (Function.update G (.slabsPartial c) (pre ++ post)) :=
      hl₅.congr (fun r => by cases r <;> rfl) fun _ _ _ _ _ _ => rfl
    have hmeta₆ : (h₅.setMetadata s ⟨0, false, false⟩).metadata =
        Function.update h₄.metadata s ⟨0, false, false⟩ := by
      rw [← hch₅.metadata]
      rfl
    have hfull₆ : (Function.update L s (e.1 :: L s) s).length = slabCapacity c := by
      rw [Function.update_self, List.length_cons, hfull]
    obtain ⟨core₆, hown, hxB, hk₆⟩ := core₄.releasePage hc hG hfull₆ hmeta₆ hch₅.freeAreas hch₅.objSize
      (fun a ha => hch₅.mem a fun i hi => ha i ⟨c, hc, Or.inl hi⟩) hl₆
    obtain ⟨F', core₇, hk₇⟩ := core₆.freeBlock hxB hown
    refine ⟨⟨F', _, _, B, core₇, ?_, fun acc => (hacc acc).sub fun d hd t ht =>
      ((core.inCache_pop hc hG hd).mp ht).1⟩, hk₄.trans (hk₆.trans hk₇)⟩
    intro d hd
    have hrest := fun {q : SlabHead} (hq : q ∈ slabHeads) {t : ℕ} =>
      core.lists.mem_unlinked (slabsPartial_mem hc) hG hq (t := t)
    constructor
    · intro t ht
      rw [hrest (slabsPartial_mem hd)] at ht
      rw [Function.update_of_ne ht.2]
      exact (hf d hd).1 t ht.1 ht.2
    · intro t ht
      rw [hrest (slabsFull_mem hd)] at ht
      rw [Function.update_of_ne ht.2]
      exact (hf d hd).2 t ht.1
  · rw [if_neg hfull]
    exact ⟨⟨F, G, _, B, core₄, hf.settle core hc hs ⟨by simp, by rw [List.length_cons]; omega⟩, hacc⟩, hk₄⟩

/-- `slab_free` of a live object. -/
theorem slabFree_inv (core : HeapCore h F G L B live) (hf : Filled G L) (hc : c < 8)
    (hs : inCache G c s) (he : e ∈ live) (hj : ∃ j < slabCapacity c, e.1 = slotAddr c s j) :
    HeapFrom G L B live (h.slabFree e.1) (live.erase e) ∧ Keeps (live.erase e) h (h.slabFree e.1) := by
  have hcap := slabCapacity_bounds hc
  have ok := core.ok c hc s hs
  have hbase : e.1 / pageSize4KB * pageSize4KB = pageAddr s ∧ e.1 ≠ 0 := by
    obtain ⟨j, hj, hp⟩ := hj
    have hin := slotAddr_inPage (s := s) hc hj
    have ho := cacheObjSize_bounds hc
    simp only [pageAddr_eq, pageSize4KB] at hin ⊢
    omega
  rw [Heap.slabFree, if_neg hbase.2]
  simp only [hbase.1, ok.parent, ok.count]
  by_cases hL : (L s).length = 0
  · rw [if_pos hL]
    have hsf : s ∈ G (.slabsFull c) := by
      rcases hs with hs | hs
      · exact absurd hL ((hf c hc).1 s hs).1.ne'
      · exact hs
    obtain ⟨pre, post, hG⟩ := List.append_of_mem hsf
    obtain ⟨core₁, hk₁⟩ := core.relist hc (Or.inr ⟨rfl, rfl⟩) hG
    have hf₁ : FilledBut s (Function.update (Function.update G (.slabsFull c) (pre ++ post))
        (.slabsPartial c) (s :: G (.slabsPartial c))) L := by
      intro d hd
      have hrest := fun {q : SlabHead} (hq : q ∈ slabHeads) {t : ℕ} =>
        core.lists.mem_unlinked (slabsFull_mem hc) hG hq (t := t)
      constructor
      · intro t ht hts
        refine (hf d hd).1 t ?_
        by_cases hdc : d = c
        · subst hdc
          rw [Function.update_self, List.mem_cons] at ht
          exact ht.resolve_left hts
        · rwa [Function.update_of_ne (by simpa using hdc), Function.update_of_ne (by simp)] at ht
      · intro t ht
        rw [Function.update_of_ne (by simp), hrest (slabsFull_mem hd)] at ht
        exact (hf d hd).2 t ht.1
    obtain ⟨⟨F₂, G₂, L₂, B₂, core₂, hf₂, hacc₂⟩, hk'⟩ := slabPut_inv core₁ hf₁ hc (by simp) he hj (by omega)
    refine ⟨⟨F₂, G₂, L₂, B₂, core₂, hf₂, fun acc => hacc₂ (acc.sub fun d _ t ht => ?_)⟩,
      (hk₁.sub (List.erase_subset)).trans hk'⟩
    exact inCache_relist (Or.inr ⟨rfl, rfl⟩) hG ht
  · rw [if_neg hL]
    have hsp : s ∈ G (.slabsPartial c) := by
      rcases hs with hs | hs
      · exact hs
      · exact absurd (by rw [(hf c hc).2 s hs]; rfl) hL
    exact slabPut_inv core (hf.but s) hc hsp he hj ((hf c hc).1 s hsp).2

/-- `kmalloc` of up to `2 ^ 63` bytes returns and keeps the invariant. -/
theorem kmalloc_from {size : ℕ} (core : HeapCore h F G L B live) (hf : Filled G L) (hsize : size ≤ 2 ^ 63) :
    ∃ p h', h.kmalloc size = some (p, h') ∧
      HeapFrom G L B live h' (if p = 0 then live else (p, size) :: live) ∧ Keeps live h h' := by
  by_cases h0 : size = 0
  · exact ⟨0, h, by rw [Heap.kmalloc, if_pos h0], by rw [if_pos rfl]; exact ⟨F, G, L, B, core, hf, id⟩,
      Keeps.refl _ _⟩
  · by_cases hbig : 2048 < size
    · obtain ⟨k, hk, hle⟩ := kmallocOrder_spec hsize 64 0 (by omega) (by omega)
      have hk' : kmallocOrder size 64 pageSize4KB 0 = some k := hk
      refine ⟨(h.buddyAlloc k).1, (h.buddyAlloc k).2, ?_, ?_⟩
      · rw [Heap.kmalloc, if_neg h0, if_pos hbig, hk', Option.map_some]
      · rcases core.allocBlock k with hr | ⟨x, F', hp, core', hxB, _, hkeep⟩
        · rw [hr, if_pos rfl]
          exact ⟨⟨F, G, L, B, core, hf, id⟩, Keeps.refl _ _⟩
        · rw [hp, if_neg (pageAddr_pos x)]
          have hnew := core'.notMem_ptr hxB core.owner
          refine ⟨⟨F', G, L, insert ⟨x, k⟩ B, ?_, hf, fun acc => acc.grant hnew hbig k⟩, hkeep⟩
          refine ⟨core'.buddy, core'.apart, core'.objSize, core'.lists, core'.isSlab, core'.recorded,
            core'.ok, ?_, ?_⟩
          · rw [List.map_cons, List.nodup_cons]
            exact ⟨hnew, core.distinct⟩
          · rintro e (_ | ⟨_, he⟩)
            · exact Or.inl ⟨⟨x, k⟩, Or.inl rfl, rfl, hle⟩
            · exact core'.owner e he
    · have hobj : (h.kernelCaches 7).objSize = 2048 := core.objSize 7 (by omega)
      rw [Heap.kmalloc, if_neg h0, if_neg hbig]
      cases hfind : (List.range numCaches).find? (fun i => decide (size ≤ (h.kernelCaches i).objSize)) with
      | none =>
        have h7 := List.find?_eq_none.mp hfind 7 (by decide)
        rw [hobj] at h7
        simp only [decide_eq_true_eq] at h7
        omega
      | some c =>
        have hc : c < 8 := List.mem_range.mp (List.mem_of_find?_eq_some hfind)
        have hsz := List.find?_some hfind
        simp only [decide_eq_true_eq, core.objSize c hc] at hsz
        obtain ⟨hfrom, hkeep, -⟩ := slabAlloc_inv core hf hc hsz
        exact ⟨_, _, rfl, hfrom, hkeep⟩

/-- `kfree` of a live pointer. -/
theorem kfree_from (core : HeapCore h F G L B live) (hf : Filled G L) (he : e ∈ live) :
    HeapFrom G L B live (h.kfree e.1) (live.erase e) ∧ Keeps (live.erase e) h (h.kfree e.1) := by
  rcases core.owner e he with ⟨b, hb, hp, hsz⟩ | ⟨c, hc, s, hs, hj, _, _⟩
  · have hlt : b.start < 4096 := core.buddy.start_lt (Or.inr (Or.inr hb))
    have hns : (h.metadata b.start).isSlab = false := by
      by_contra hne
      have hss := (core.isSlab _ hlt).mp (by simpa using hne)
      exact core.notMem_slabPages hb (Block.covers_start b) hss
    rw [Heap.kfree, hp, if_neg (pageAddr_pos _), pageIndex_pageAddr hlt, hns]
    have hB : insert b (B \ {b}) = B := Set.insert_sdiff_self_of_mem hb
    have core' := core
    rw [← hB] at core'
    have hnd : live.Nodup := core.distinct.of_map _
    have hne : ∀ f ∈ live.erase e, f ∈ live ∧ f.1 ≠ e.1 := by
      intro f hf
      rw [hnd.mem_erase_iff] at hf
      exact ⟨hf.2, fun heq => hf.1 (List.inj_on_of_nodup_map core.distinct hf.2 he heq)⟩
    have hown : ∀ f ∈ live.erase e, BigObject (B \ {b}) f ∨ SmallObject G L f := by
      intro f hfe
      obtain ⟨hfl, hfne⟩ := hne f hfe
      refine (core.owner f hfl).imp_left ?_
      rintro ⟨d, hd, hpd, hrest⟩
      refine ⟨d, ⟨hd, ?_⟩, hpd, hrest⟩
      rintro rfl
      exact hfne (hpd.trans hp.symm)
    have core₁ : HeapCore h F G L (insert b (B \ {b})) (live.erase e) :=
      ⟨core'.buddy, core'.apart, core'.objSize, core'.lists, core'.isSlab, core'.recorded, core'.ok,
        core.distinct.sublist ((List.erase_sublist).map _), fun f hf => core'.owner f (hne f hf).1⟩
    obtain ⟨F', core₂, hk⟩ := core₁.freeBlock (x := b.start) (k := b.order) (by simp) hown
    refine ⟨⟨F', G, L, _, core₂, hf, fun acc => acc.release hp fun d hd hdb => ?_⟩, hk⟩
    exact core.buddy.tiling.eq_of_start (Or.inr (Or.inr hd)) (Or.inr (Or.inr hb)) hdb
  · have hss : s ∈ slabPages G := ⟨c, hc, hs⟩
    have hslt := core.slab_lt hss
    obtain ⟨j, hjc, hp⟩ := hj
    have hin := slotAddr_inPage (s := s) hc hjc
    have ho := cacheObjSize_bounds hc
    obtain ⟨off, hoff⟩ := Nat.exists_eq_add_of_le (show pageAddr s ≤ e.1 by omega)
    have hidx : pageIndex e.1 = s := by
      rw [hoff]
      exact pageIndex_add hslt (by omega)
    have hne : e.1 ≠ 0 := by
      have := pageAddr_pos s
      omega
    rw [Heap.kfree, if_neg hne, hidx, (core.isSlab s hslt).mpr hss]
    exact slabFree_inv core hf hc hs he ⟨j, hjc, hp⟩

/-- Writes of the owners into their allocations. -/
theorem HeapCore.write {m : Memory} (core : HeapCore h F G L B live)
    (hm : ∀ a, m a ≠ h.mem a → ∃ e ∈ live, a ∈ bytes e.1 e.2) : HeapCore { h with mem := m } F G L B live := by
  refine ⟨core.buddy.congr rfl rfl ?_, core.apart, core.objSize, ?_, core.isSlab, core.recorded, ?_,
    core.distinct, core.owner⟩
  · intro i hi a hia
    by_contra hne
    obtain ⟨e, he, ha⟩ := hm a hne
    exact core.outside_freePages he ha hi hia
  · refine core.lists.congr (fun r => by cases r <;> rfl) fun r hr i hi a hia => ?_
    by_contra hne
    obtain ⟨e, he, ha⟩ := hm a hne
    have hs : i ∈ slabPages G := by
      cases r with
      | slabsPartial d => exact ⟨d, hr, Or.inl hi⟩
      | slabsFull d => exact ⟨d, hr, Or.inr hi⟩
    have := core.outside_header he hs ha
    have := hia.1
    have := hia.2
    omega
  · intro c hc s hs
    refine (core.ok c hc s hs).congr hc ?_ ?_
    · intro a has
      by_contra hne
      obtain ⟨e, he, ha⟩ := hm a hne
      have := core.outside_header he ⟨c, hc, hs⟩ ha
      simp only [bytes, Set.mem_Ico] at has
      omega
    · intro o ho a hao
      by_contra hne
      obtain ⟨e, he, ha⟩ := hm a hne
      exact core.outside_freeObject he hc hs ho ha hao

end Steps

theorem initKheap_accounted (h : Heap) : HeapAccounted h.initKheap [] := by
  have hempty : slabPages (fun _ => []) = ∅ := by
    ext s
    simp [slabPages, inCache]
  have hblocks : slabBlocks (fun _ => []) ∪ ∅ = ∅ := by
    ext b
    simp [slabBlocks, hempty]
  refine ⟨Function.update (fun _ => []) 12 [0], fun _ => [], fun _ => [], ∅,
    ⟨?_, by simp, ?_, ?_, ?_, ?_, ?_, List.nodup_nil, by simp⟩, ?_, ?_⟩
  · rw [hblocks]
    exact (initBuddy_inv h).congr rfl rfl fun _ _ _ _ => rfl
  · intro c hc
    simp only [Heap.initKheap, Heap.initSlab, numCaches, if_pos hc]
    rfl
  · refine ⟨⟨fun r hr => ?_, by simp⟩, by simp⟩
    have h0 : h.initKheap.headOf r = 0 := by
      cases r with
      | slabsPartial c => simp only [Heap.headOf, Heap.initKheap, Heap.initSlab, if_pos (show c < numCaches from hr)]
      | slabsFull c => simp only [Heap.headOf, Heap.initKheap, Heap.initSlab, if_pos (show c < numCaches from hr)]
    rw [h0]
    exact IsList.nil
  · intro i hi
    rw [hempty]
    have hs : (h.initKheap.metadata i).isSlab = false := by
      change (h.initBuddy.metadata i).isSlab = false
      rw [h.initBuddy_metadata]
      by_cases hi0 : i = pageIndex heapStart
      · simp [hi0]
      · simp [hi0, hi]
    simp [hs]
  · rw [hblocks]
    simp
  · intro c hc s hs
    rcases hs with hs | hs <;> cases hs
  · exact fun c hc => ⟨by simp, by simp⟩
  · exact ⟨by simp, fun c _ s hs => hs.elim (absurd · List.not_mem_nil) (absurd · List.not_mem_nil), by simp⟩

/-- The second component lists the live allocations, each with the size asked for. -/
inductive HeapRun : Heap → List (ℕ × ℕ) → Prop
  | init (h : Heap) : HeapRun h.initKheap []
  | alloc {h : Heap} {live : List (ℕ × ℕ)} {size : ℕ} {r : ℕ × Heap} (run : HeapRun h live)
      (hsize : size ≤ 2 ^ 63) (hr : h.kmalloc size = some r) :
      HeapRun r.2 (if r.1 = 0 then live else (r.1, size) :: live)
  | free {h : Heap} {live : List (ℕ × ℕ)} {e : ℕ × ℕ} (run : HeapRun h live) (he : e ∈ live) :
      HeapRun (h.kfree e.1) (live.erase e)
  | freeNull {h : Heap} {live : List (ℕ × ℕ)} (run : HeapRun h live) : HeapRun (h.kfree 0) live
  | write {h : Heap} {live : List (ℕ × ℕ)} (m : Memory) (run : HeapRun h live)
      (hm : ∀ a, m a ≠ h.mem a → ∃ e ∈ live, a ∈ bytes e.1 e.2) : HeapRun { h with mem := m } live

/-- In every run each block and each used object has its owner. -/
theorem HeapRun.accounted {h : Heap} {live : List (ℕ × ℕ)} (run : HeapRun h live) : HeapAccounted h live := by
  induction run with
  | init h => exact initKheap_accounted h
  | alloc _ hsize hr ih =>
    obtain ⟨F, G, L, B, core, hf, acc⟩ := ih
    obtain ⟨p, h', hp, ⟨F', G', L', B', core', hf', hacc⟩, _⟩ := kmalloc_from core hf hsize
    obtain rfl := Option.some.inj (hp.symm.trans hr)
    exact ⟨F', G', L', B', core', hf', hacc acc⟩
  | free _ he ih =>
    obtain ⟨F, G, L, B, core, hf, acc⟩ := ih
    obtain ⟨⟨F', G', L', B', core', hf', hacc⟩, _⟩ := kfree_from core hf he
    exact ⟨F', G', L', B', core', hf', hacc acc⟩
  | freeNull _ ih => exact ih
  | write m _ hm ih =>
    obtain ⟨F, G, L, B, core, hf, acc⟩ := ih
    exact ⟨F, G, L, B, core.write hm, hf, acc⟩

theorem HeapRun.inv {h : Heap} {live : List (ℕ × ℕ)} (run : HeapRun h live) : HeapInv h live := run.accounted.inv

/-- Where the live allocations lie, read off the globals of the two allocators. -/
structure HeapSafe (h : Heap) (live : List (ℕ × ℕ)) : Prop where
  inHeap : ∀ e ∈ live, heapStart ≤ e.1 ∧ e.1 + e.2 ≤ heapStart + heapSize
  disjoint : live.Pairwise fun e f => Disjoint (bytes e.1 e.2) (bytes f.1 f.2)
  headers : ∀ i < totalPages, (h.metadata i).isSlab = true →
    ∀ e ∈ live, Disjoint (bytes e.1 e.2) (bytes (pageAddr i) slabHeaderSize)
  /-- The free objects of a slab are the chain from its `free_list`. -/
  freeObjects : ∀ i < totalPages, (h.metadata i).isSlab = true →
    ∃ xs, Chain h.objNext 0 (h.slabFreeList (pageAddr i)) xs ∧ 0 ∉ xs ∧ ∀ o ∈ xs, ∀ e ∈ live,
      Disjoint (bytes e.1 e.2) (bytes o (h.kernelCaches (h.slabParentCache (pageAddr i))).objSize)
  freeBlocks : ∀ b ∈ markedFree h, ∀ e ∈ live,
    Disjoint (bytes e.1 e.2) (bytes (pageAddr b.start) (2 ^ b.order * pageSize4KB))

theorem HeapInv.safe {h : Heap} {live : List (ℕ × ℕ)} (inv : HeapInv h live) : HeapSafe h live := by
  obtain ⟨F, G, L, B, core, hf⟩ := inv
  refine ⟨?_, ?_, ?_, ?_, ?_⟩
  · intro e he
    rcases core.owner e he with ⟨b, hb, hp, hsz⟩ | ⟨c, hc, s, hin, ⟨j, hj, hp⟩, _, hsz⟩
    · have hle := core.buddy.tiling.bounded b (Or.inr (Or.inr hb))
      simp only [pageAddr_eq, heapStart, heapSize] at hp ⊢
      omega
    · have hs := core.slab_lt ⟨c, hc, hin⟩
      have hpage := slotAddr_inPage (s := s) hc hj
      simp only [pageAddr_eq, heapStart, heapSize] at hpage ⊢
      omega
  · have hd := core.distinct
    rw [List.Nodup, List.pairwise_map] at hd
    refine hd.imp_of_mem fun he hf' hne => ?_
    rw [Set.disjoint_left]
    exact fun a ha => core.outside_live he hf' hne ha
  · intro i hi hs e he
    rw [Set.disjoint_left]
    intro a ha hia
    have := core.outside_header he ((core.isSlab i hi).mp hs) ha
    simp only [bytes, slabHeaderSize, Set.mem_Ico] at hia
    omega
  · intro i hi hs
    obtain ⟨c, hc, hin⟩ := (core.isSlab i hi).mp hs
    have ok := core.ok c hc i hin
    refine ⟨L i, ok.chain, ok.zero_notMem, fun o ho e he => ?_⟩
    rw [ok.parent, core.objSize c hc, Set.disjoint_left]
    exact fun a ha => core.outside_freeObject he hc hin ho ha
  · rintro b ⟨hlt, hfr, ho⟩ e he
    have hl := core.buddy.lists.listed b.start hlt hfr
    rw [ho] at hl
    rw [Set.disjoint_left]
    intro a ha hba
    obtain ⟨i, hbi, hia⟩ := mem_blockBytes_iff.mpr hba
    exact core.outside_freePages he ha ⟨b, hl, hbi⟩ hia

/-- In every run the live allocations are safe, `kmalloc` returns, and neither
function touches an allocation other than the one it frees. -/
theorem heap_safety {h : Heap} {live : List (ℕ × ℕ)} (run : HeapRun h live) :
    HeapSafe h live ∧
      (∀ size ≤ 2 ^ 63, ∃ p h', h.kmalloc size = some (p, h') ∧ Keeps live h h') ∧
      ∀ e ∈ live, Keeps (live.erase e) h (h.kfree e.1) := by
  obtain ⟨F, G, L, B, core, hf⟩ := run.inv
  refine ⟨run.inv.safe, fun size hsize => ?_, fun e he => (kfree_from core hf he).2⟩
  obtain ⟨p, h', hp, _, hk⟩ := kmalloc_from core hf hsize
  exact ⟨p, h', hp, hk⟩

/-- The allocations one after the other. -/
def Heap.kmallocAll (h : Heap) (live : List (ℕ × ℕ)) : List ℕ → Option (Heap × List (ℕ × ℕ))
  | [] => some (h, live)
  | size :: sizes =>
    (h.kmalloc size).bind fun r => kmallocAll r.2 (if r.1 = 0 then live else (r.1, size) :: live) sizes

theorem HeapRun.kmallocAll {h h' : Heap} {live live' : List (ℕ × ℕ)} {sizes : List ℕ} (run : HeapRun h live)
    (hsizes : ∀ size ∈ sizes, size ≤ 2 ^ 63) (hr : h.kmallocAll live sizes = some (h', live')) :
    HeapRun h' live' := by
  induction sizes generalizing h live with
  | nil =>
    obtain ⟨rfl, rfl⟩ := Prod.mk.inj (Option.some.inj hr)
    exact run
  | cons size sizes ih =>
    obtain ⟨hsize, hsizes⟩ := List.forall_mem_cons.mp hsizes
    obtain ⟨r, hcall, hrest⟩ := Option.bind_eq_some_iff.mp hr
    exact ih (run.alloc hsize hcall) hsizes hrest

/-- An object of a slab and a block of two pages. -/
def mixedLive : List (ℕ × ℕ) := [(heapStart + 72, 32), (heapStart + 8192, 5000)]

/-- What is left of two objects and a block after the first object is freed. -/
theorem mixedLive_run : ∃ h, HeapRun h mixedLive := by
  have hcalls : (blankHeap.initKheap.kmallocAll [] [32, 5000, 32]).map Prod.snd =
      some (mixedLive ++ [(heapStart + 40, 32)]) := by decide +kernel
  obtain ⟨⟨h, live⟩, hr, rfl⟩ := Option.map_eq_some_iff.mp hcalls
  have run := (HeapRun.init blankHeap).kmallocAll (by decide) hr
  exact ⟨_, @HeapRun.free _ _ (heapStart + 40, 32) run (by decide)⟩

theorem heap_safety_mixed : ∃ h, HeapRun h mixedLive ∧ HeapSafe h mixedLive := by
  obtain ⟨h, run⟩ := mixedLive_run
  exact ⟨h, run, (heap_safety run).1⟩

end PointerOS
