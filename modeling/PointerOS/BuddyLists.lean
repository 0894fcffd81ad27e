import PointerOS.Buddy

/-!
# The free lists of the buddy allocator

`FreeLists h F` says that `free_areas[k]` is a well-formed doubly linked list
over the pages `F k` and that the metadata marks exactly these pages free, at
order `k`. The two list operations of `buddy.c` are described once by their
effect on every link and then lifted to `FreeLists`. `ChangedOnly` records what
an operation leaves alone.
-/
namespace PointerOS
open ByteMemory LinkedList

/-- The bytes and the metadata of pages outside `P` are the same in `h` and `h'`,
and no page becomes a slab. -/
structure ChangedOnly (P : Set ℕ) (h h' : Heap) : Prop where
  mem : ∀ a, (∀ i ∈ P, ¬ inPage i a) → h'.mem a = h.mem a
  metadata : ∀ i ∉ P, h'.metadata i = h.metadata i
  isSlab : ∀ i, (h'.metadata i).isSlab = true → (h.metadata i).isSlab = true
  kernelCaches : h'.kernelCaches = h.kernelCaches

namespace ChangedOnly

variable {P Q : Set ℕ} {h h' h'' : Heap}

theorem refl (P : Set ℕ) (h : Heap) : ChangedOnly P h h :=
  ⟨fun _ _ => rfl, fun _ _ => rfl, fun _ hi => hi, rfl⟩

theorem trans (h₁ : ChangedOnly P h h') (h₂ : ChangedOnly P h' h'') : ChangedOnly P h h'' where
  mem a ha := (h₂.mem a ha).trans (h₁.mem a ha)
  metadata i hi := (h₂.metadata i hi).trans (h₁.metadata i hi)
  isSlab i hi := h₁.isSlab i (h₂.isSlab i hi)
  kernelCaches := h₂.kernelCaches.trans h₁.kernelCaches

theorem mono (h₁ : ChangedOnly P h h') (hs : P ⊆ Q) : ChangedOnly Q h h' where
  mem a ha := h₁.mem a (fun i hi => ha i (hs hi))
  metadata i hi := h₁.metadata i (fun hp => hi (hs hp))
  isSlab := h₁.isSlab
  kernelCaches := h₁.kernelCaches

end ChangedOnly

namespace Heap

lemma pageAddr_apart (i j : ℕ) :
    pageAddr i = pageAddr j ∨ pageAddr i + 4096 ≤ pageAddr j ∨ pageAddr j + 4096 ≤ pageAddr i := by
  simp only [pageAddr_eq]
  omega

lemma blockNext_lt (h : Heap) (a : ℕ) : h.blockNext a < 2 ^ 64 := load64_lt _ _

lemma blockPrev_lt (h : Heap) (a : ℕ) : h.blockPrev a < 2 ^ 64 := load64_lt _ _

lemma blockNext_setBlockNext (h : Heap) (i j : ℕ) {v : ℕ} (hv : v < 2 ^ 64) :
    (h.setBlockNext (pageAddr i) v).blockNext (pageAddr j) =
      if pageAddr j = pageAddr i then v else h.blockNext (pageAddr j) := by
  have ha := pageAddr_apart i j
  have hl := load64_store64 (m := h.mem) (a := pageAddr i + 8) (b := pageAddr j + 8) hv (by omega)
  simpa only [blockNext, setBlockNext, Nat.add_right_cancel_iff] using hl

lemma blockPrev_setBlockPrev (h : Heap) (i j : ℕ) {v : ℕ} (hv : v < 2 ^ 64) :
    (h.setBlockPrev (pageAddr i) v).blockPrev (pageAddr j) =
      if pageAddr j = pageAddr i then v else h.blockPrev (pageAddr j) := by
  have ha := pageAddr_apart i j
  exact load64_store64 hv (by omega)

lemma blockPrev_setBlockNext (h : Heap) (i j v : ℕ) :
    (h.setBlockNext (pageAddr i) v).blockPrev (pageAddr j) = h.blockPrev (pageAddr j) := by
  have ha := pageAddr_apart i j
  exact load_store_of_disjoint (by omega)

lemma blockNext_setBlockPrev (h : Heap) (i j v : ℕ) :
    (h.setBlockPrev (pageAddr i) v).blockNext (pageAddr j) = h.blockNext (pageAddr j) := by
  have ha := pageAddr_apart i j
  exact load_store_of_disjoint (by omega)

lemma store64_changedOnly (h : Heap) {i a : ℕ} (v : ℕ) (h1 : pageAddr i ≤ a)
    (h2 : a + 8 ≤ pageAddr i + 4096) :
    ChangedOnly {i} h { h with mem := store64 h.mem a v } where
  mem x hx := by
    refine store_eqOn_compl _ _ _ _ ?_
    have hi := hx i rfl
    simp only [inPage, bytes, Set.mem_compl_iff, Set.mem_Ico] at hi ⊢
    omega
  metadata _ _ := rfl
  isSlab _ hi := hi
  kernelCaches := rfl

lemma setMetadata_changedOnly (h : Heap) (i : ℕ) {m : PageMetadata}
    (hm : m.isSlab = true → (h.metadata i).isSlab = true) :
    ChangedOnly {i} h (h.setMetadata i m) := by
  refine ⟨fun _ _ => rfl, fun _ hj => Function.update_of_ne hj _ _, fun j hj => ?_, rfl⟩
  by_cases hji : j = i
  · subst hji
    simp only [setMetadata, Function.update_self] at hj
    exact hm hj
  · simpa only [setMetadata, Function.update_of_ne hji] using hj

lemma setFreeArea_changedOnly (h : Heap) (k v : ℕ) (P : Set ℕ) :
    ChangedOnly P h (h.setFreeArea k v) := ⟨fun _ _ => rfl, fun _ _ => rfl, fun _ hi => hi, rfl⟩

/-- `if (block->prev) block->prev->next = n; else free_areas[order] = n;` for a
predecessor `p` that is null or another page. -/
lemma set_next_of_prev (h : Heap) {k p n : ℕ} (hn : n < 2 ^ 64) (hp : p = 0 ∨ ∃ i, p = pageAddr i) :
    ∃ h₁, (if p ≠ 0 then h.setBlockNext p n else h.setFreeArea k n) = h₁ ∧
      (∀ y, h₁.blockNext (pageAddr y) = if pageAddr y = p then n else h.blockNext (pageAddr y)) ∧
      (∀ y, h₁.blockPrev (pageAddr y) = h.blockPrev (pageAddr y)) ∧
      h₁.freeAreas = (if p = 0 then Function.update h.freeAreas k n else h.freeAreas) ∧
      h₁.metadata = h.metadata ∧ ChangedOnly {i | pageAddr i = p} h h₁ := by
  rcases hp with rfl | ⟨i, rfl⟩
  · refine ⟨h.setFreeArea k n, by simp, fun y => ?_, fun y => rfl, rfl, rfl, ?_⟩
    · rw [if_neg (pageAddr_pos y)]
      rfl
    · exact setFreeArea_changedOnly h k n _
  · refine ⟨h.setBlockNext (pageAddr i) n, if_pos (pageAddr_pos i), fun y => ?_, fun y => ?_, ?_, rfl, ?_⟩
    · exact blockNext_setBlockNext h i y hn
    · exact blockPrev_setBlockNext h i y n
    · rw [if_neg (pageAddr_pos i)]
      rfl
    · exact (store64_changedOnly (i := i) h n (by omega) (by omega)).mono (by simp)

/-- `if (n) n->prev = p;` for a successor `n` that is null or a page. -/
lemma set_prev_of_next (h : Heap) {p n : ℕ} (hp : p < 2 ^ 64) (hn : n = 0 ∨ ∃ i, n = pageAddr i) :
    ∃ h₁, (if n ≠ 0 then h.setBlockPrev n p else h) = h₁ ∧
      (∀ y, h₁.blockNext (pageAddr y) = h.blockNext (pageAddr y)) ∧
      (∀ y, h₁.blockPrev (pageAddr y) = if pageAddr y = n then p else h.blockPrev (pageAddr y)) ∧
      h₁.freeAreas = h.freeAreas ∧ h₁.metadata = h.metadata ∧
      ChangedOnly {i | pageAddr i = n} h h₁ := by
  rcases hn with rfl | ⟨i, rfl⟩
  · refine ⟨h, by simp, fun y => rfl, fun y => ?_, rfl, rfl, ChangedOnly.refl _ _⟩
    rw [if_neg (pageAddr_pos y)]
  · refine ⟨h.setBlockPrev (pageAddr i) p, if_pos (pageAddr_pos i), fun y => ?_, fun y => ?_, rfl, rfl, ?_⟩
    · exact blockNext_setBlockPrev h i y p
    · exact blockPrev_setBlockPrev h i y hp
    · exact (store64_changedOnly (i := i) h p (by omega) (by omega)).mono (by simp)

/-- What unlinking a node with predecessor `p` and successor `n` does to every
link. Both reads after the first write see the old links, since the neighbours
are other pages. -/
theorem buddyListRemove_effect (h : Heap) {x k p n : ℕ} (hx : x < 4096)
    (hp : h.blockPrev (pageAddr x) = p) (hn : h.blockNext (pageAddr x) = n)
    (hpp : p = 0 ∨ ∃ i, i ≠ x ∧ p = pageAddr i) (hnp : n = 0 ∨ ∃ i, i ≠ x ∧ n = pageAddr i) :
    (∀ y, (h.buddyListRemove (pageAddr x) k).blockNext (pageAddr y) =
      if pageAddr y = p then n else h.blockNext (pageAddr y)) ∧
    (∀ y, (h.buddyListRemove (pageAddr x) k).blockPrev (pageAddr y) =
      if pageAddr y = n then p else h.blockPrev (pageAddr y)) ∧
    (h.buddyListRemove (pageAddr x) k).freeAreas =
      (if p = 0 then Function.update h.freeAreas k n else h.freeAreas) ∧
    (h.buddyListRemove (pageAddr x) k).metadata =
      Function.update h.metadata x { h.metadata x with isFree := false } ∧
    ChangedOnly {i | i = x ∨ pageAddr i = p ∨ pageAddr i = n} h
      (h.buddyListRemove (pageAddr x) k) := by
  have hplt : p < 2 ^ 64 := hp ▸ h.blockPrev_lt _
  have hnlt : n < 2 ^ 64 := hn ▸ h.blockNext_lt _
  have hxp : pageAddr x ≠ p := by
    rcases hpp with rfl | ⟨i, hi, rfl⟩
    · exact pageAddr_pos x
    · simpa using Ne.symm hi
  obtain ⟨h₁, he₁, hn₁, hp₁, hf₁, hm₁, hc₁⟩ :=
    h.set_next_of_prev (k := k) hnlt (hpp.imp_right fun ⟨i, _, hi⟩ => ⟨i, hi⟩)
  obtain ⟨h₂, he₂, hn₂, hp₂, hf₂, hm₂, hc₂⟩ :=
    h₁.set_prev_of_next hplt (hnp.imp_right fun ⟨i, _, hi⟩ => ⟨i, hi⟩)
  have hr : h.buddyListRemove (pageAddr x) k = h₂.setMetadata x { h.metadata x with isFree := false } := by
    simp only [buddyListRemove, hp, hn]
    rw [he₁, hn₁, hp₁, if_neg hxp, hn, hp, he₂, pageIndex_pageAddr hx, hm₂, hm₁]
  rw [hr]
  refine ⟨fun y => ?_, fun y => ?_, hf₂.trans hf₁, ?_, ?_⟩
  · exact (hn₂ y).trans (hn₁ y)
  · refine (hp₂ y).trans ?_
    rw [hp₁]
  · simp only [setMetadata, hm₂, hm₁]
  · refine (hc₁.mono ?_).trans ((hc₂.mono ?_).trans ((setMetadata_changedOnly h₂ x ?_).mono ?_))
    · exact fun i hi => Or.inr (Or.inl hi)
    · exact fun i hi => Or.inr (Or.inr hi)
    · rw [hm₂, hm₁]
      exact fun hi => hi
    · exact fun i hi => Or.inl hi

/-- What linking page `x` in front of a list headed by `hd` does to every link. -/
theorem buddyListAdd_effect (h : Heap) {x k hd : ℕ} (hx : x < 4096)
    (hh : h.freeAreas k = hd) (hhd : hd = 0 ∨ ∃ i, i < 4096 ∧ i ≠ x ∧ hd = pageAddr i) :
    (h.buddyListAdd (pageAddr x) k).blockNext (pageAddr x) = hd ∧
    (h.buddyListAdd (pageAddr x) k).blockPrev (pageAddr x) = 0 ∧
    (∀ y, y ≠ x → (h.buddyListAdd (pageAddr x) k).blockNext (pageAddr y) = h.blockNext (pageAddr y)) ∧
    (∀ y, y ≠ x → (h.buddyListAdd (pageAddr x) k).blockPrev (pageAddr y) =
      if pageAddr y = hd then pageAddr x else h.blockPrev (pageAddr y)) ∧
    (h.buddyListAdd (pageAddr x) k).freeAreas = Function.update h.freeAreas k (pageAddr x) ∧
    (h.buddyListAdd (pageAddr x) k).metadata =
      Function.update h.metadata x ⟨k % 16, true, false⟩ ∧
    ChangedOnly {i | i = x ∨ pageAddr i = hd} h (h.buddyListAdd (pageAddr x) k) := by
  have hxlt : pageAddr x < 2 ^ 64 := by
    rw [pageAddr_eq]
    omega
  have hhdlt : hd < 2 ^ 64 := by
    rcases hhd with rfl | ⟨i, hi, _, rfl⟩
    · omega
    · rw [pageAddr_eq]
      omega
  have hxhd : pageAddr x ≠ hd := by
    rcases hhd with rfl | ⟨i, _, hi, rfl⟩
    · exact pageAddr_pos x
    · simpa using Ne.symm hi
  let g := (h.setBlockPrev (pageAddr x) 0).setBlockNext (pageAddr x) hd
  have hgn : ∀ y, g.blockNext (pageAddr y) =
      if pageAddr y = pageAddr x then hd else h.blockNext (pageAddr y) := by
    intro y
    rw [blockNext_setBlockNext _ _ _ hhdlt, blockNext_setBlockPrev]
  have hgp : ∀ y, g.blockPrev (pageAddr y) =
      if pageAddr y = pageAddr x then 0 else h.blockPrev (pageAddr y) := by
    intro y
    rw [blockPrev_setBlockNext, blockPrev_setBlockPrev _ _ _ (by omega)]
  have hgc : ChangedOnly {x} h g :=
    (store64_changedOnly h 0 (by omega) (by omega)).trans
      (store64_changedOnly (h.setBlockPrev (pageAddr x) 0) hd (by omega) (by omega))
  obtain ⟨h₃, he₃, hn₃, hp₃, hf₃, hm₃, hc₃⟩ :=
    g.set_prev_of_next (n := hd) hxlt (hhd.imp_right fun ⟨i, _, _, hi⟩ => ⟨i, hi⟩)
  have hr : h.buddyListAdd (pageAddr x) k =
      (h₃.setFreeArea k (pageAddr x)).setMetadata x ⟨k % 16, true, false⟩ := by
    have hf : (h.setBlockPrev (pageAddr x) 0).freeAreas k = hd := hh
    have hf' : g.freeAreas k = hd := hh
    simp only [buddyListAdd, hf, pageIndex_pageAddr hx]
    change ((if g.freeAreas k ≠ 0 then g.setBlockPrev (g.freeAreas k) (pageAddr x) else g).setFreeArea k
      (pageAddr x)).setMetadata x _ = _
    rw [hf', he₃]
  rw [hr]
  refine ⟨?_, ?_, fun y hy => ?_, fun y hy => ?_, ?_, ?_, ?_⟩
  · exact (hn₃ x).trans ((hgn x).trans (if_pos rfl))
  · refine (hp₃ x).trans ?_
    rw [if_neg hxhd, hgp, if_pos rfl]
  · refine (hn₃ y).trans ((hgn y).trans (if_neg ?_))
    simpa using hy
  · refine (hp₃ y).trans ?_
    rw [hgp, if_neg (show ¬ pageAddr y = pageAddr x by simpa using hy)]
  · simp only [setMetadata, setFreeArea, hf₃]
    rfl
  · simp only [setMetadata, setFreeArea, hm₃]
    rfl
  · refine (hgc.mono ?_).trans ((hc₃.mono ?_).trans ?_)
    · exact fun i hi => Or.inl hi
    · exact fun i hi => Or.inr hi
    · refine (setFreeArea_changedOnly h₃ k _ _).trans ((setMetadata_changedOnly _ x ?_).mono ?_)
      · exact fun hc => absurd hc (by simp)
      · exact fun i hi => Or.inl hi

end Heap

/-- The free lists of `h` hold the pages `F k` at order `k`, and the metadata
agrees with them. -/
structure FreeLists (h : Heap) (F : ℕ → List ℕ) : Prop where
  links : ∀ k ≤ 12, IsList h.blockNext h.blockPrev 0 (h.freeAreas k) ((F k).map pageAddr)
  lt : ∀ k ≤ 12, ∀ i ∈ F k, i < 4096
  marked : ∀ k ≤ 12, ∀ i ∈ F k, (h.metadata i).isFree = true ∧ (h.metadata i).order = k
  listed : ∀ i < 4096, (h.metadata i).isFree = true →
    (h.metadata i).order ≤ 12 ∧ i ∈ F (h.metadata i).order

namespace FreeLists

variable {h : Heap} {F : ℕ → List ℕ}

lemma nodup (hf : FreeLists h F) {k : ℕ} (hk : k ≤ 12) : (F k).Nodup :=
  (hf.links k hk).nodup.of_map pageAddr

lemma order_unique (hf : FreeLists h F) {i k l : ℕ} (hk : k ≤ 12) (hl : l ≤ 12)
    (hi : i ∈ F k) (hj : i ∈ F l) : k = l :=
  (hf.marked k hk i hi).2.symm.trans (hf.marked l hl i hj).2

lemma eq_nil_iff (hf : FreeLists h F) {k : ℕ} (hk : k ≤ 12) : F k = [] ↔ h.freeAreas k = 0 := by
  rw [← (hf.links k hk).eq_nil_iff, List.map_eq_nil_iff]

lemma family (hf : FreeLists h F) :
    ListFamily {k | k ≤ 12} h.blockNext h.blockPrev 0 h.freeAreas (fun k => (F k).map pageAddr) := by
  refine ⟨hf.links, ?_⟩
  intro k hk l hl a ha hb
  obtain ⟨i, hi, rfl⟩ := List.mem_map.mp ha
  rw [List.mem_map_of_injective pageAddr_injective] at hb
  exact hf.order_unique hk hl hi hb

/-- A link out of a listed page is null or leads to another page of the list. -/
lemma neighbour {k x : ℕ} (hf : FreeLists h F) (hk : k ≤ 12) (hx : x ∈ F k) :
    (h.blockPrev (pageAddr x) = 0 ∨
      ∃ i ∈ F k, i ≠ x ∧ h.blockPrev (pageAddr x) = pageAddr i) ∧
    (h.blockNext (pageAddr x) = 0 ∨
      ∃ i ∈ F k, i ≠ x ∧ h.blockNext (pageAddr x) = pageAddr i) := by
  have hpage : ∀ a, a ∈ (F k).map pageAddr ∧ a ≠ pageAddr x → ∃ i ∈ F k, i ≠ x ∧ a = pageAddr i := by
    rintro a ⟨ha, hne⟩
    obtain ⟨i, hi, rfl⟩ := List.mem_map.mp ha
    exact ⟨i, hi, fun he => hne (by rw [he]), rfl⟩
  obtain ⟨hp, hn⟩ := hf.family.neighbours (show k ∈ {k | k ≤ 12} from hk) (List.mem_map_of_mem hx)
  exact ⟨hp.imp_right (hpage _), hn.imp_right (hpage _)⟩

lemma map_update (F : ℕ → List ℕ) (k : ℕ) (xs : List ℕ) :
    (fun l => (Function.update F k xs l).map pageAddr) =
      Function.update (fun l => (F l).map pageAddr) k (xs.map pageAddr) := by
  funext l
  by_cases hl : l = k
  · subst hl
    simp
  · simp [hl]

/-- Unlinking a listed page. -/
theorem remove {k x : ℕ} {pre post : List ℕ} (hf : FreeLists h F) (hk : k ≤ 12)
    (hF : F k = pre ++ x :: post) :
    FreeLists (h.buddyListRemove (pageAddr x) k) (Function.update F k (pre ++ post)) ∧
    (h.buddyListRemove (pageAddr x) k).metadata =
      Function.update h.metadata x { h.metadata x with isFree := false } ∧
    ChangedOnly {i | i ∈ F k} h (h.buddyListRemove (pageAddr x) k) := by
  have hxk : x ∈ F k := by simp [hF]
  have hx := hf.lt k hk x hxk
  obtain ⟨hpn, hnn⟩ := hf.neighbour hk hxk
  obtain ⟨hnext, hprev, hfree, hmeta, hch⟩ := h.buddyListRemove_effect (k := k) hx rfl rfl
    (hpn.imp_right fun ⟨i, _, hi⟩ => ⟨i, hi⟩) (hnn.imp_right fun ⟨i, _, hi⟩ => ⟨i, hi⟩)
  have hnd := hf.nodup hk
  rw [hF, List.nodup_append] at hnd
  simp only [List.nodup_cons, List.mem_cons] at hnd
  have hmem : ∀ l ≤ 12, ∀ i ∈ Function.update F k (pre ++ post) l, i ∈ F l ∧ i ≠ x := by
    intro l hl i hi
    by_cases hlk : l = k
    · subst hlk
      rw [Function.update_self, List.mem_append] at hi
      rw [hF]
      rcases hi with hi | hi
      · exact ⟨by simp [hi], hnd.2.2 i hi x (Or.inl rfl)⟩
      · exact ⟨by simp [hi], fun he => hnd.2.1.1 (he ▸ hi)⟩
    · rw [Function.update_of_ne hlk] at hi
      exact ⟨hi, fun he => hlk (hf.order_unique hl hk hi (he ▸ hxk))⟩
  have hlinks : ListFamily {k | k ≤ 12} (h.buddyListRemove (pageAddr x) k).blockNext
      (h.buddyListRemove (pageAddr x) k).blockPrev 0 (h.buddyListRemove (pageAddr x) k).freeAreas
      (fun l => (Function.update F k (pre ++ post) l).map pageAddr) := by
    rw [map_update, List.map_append]
    have hFa : (F k).map pageAddr = pre.map pageAddr ++ pageAddr x :: post.map pageAddr := by
      rw [hF, List.map_append, List.map_cons]
    refine hf.family.remove (show k ∈ {k | k ≤ 12} from hk) hFa ?_ ?_ ?_
    · intro l _
      rw [hfree]
      by_cases hlk : l = k <;> by_cases hp : h.blockPrev (pageAddr x) = 0 <;> simp [hlk, hp]
    · intro l _ a ha _
      obtain ⟨i, _, rfl⟩ := List.mem_map.mp ha
      exact hnext i
    · intro l _ a ha _
      obtain ⟨i, _, rfl⟩ := List.mem_map.mp ha
      exact hprev i
  refine ⟨⟨hlinks.list, ?_, ?_, ?_⟩, hmeta, ?_⟩
  · exact fun l hl i hi => hf.lt l hl i (hmem l hl i hi).1
  · intro l hl i hi
    obtain ⟨hil, hix⟩ := hmem l hl i hi
    rw [hmeta, Function.update_of_ne hix]
    exact hf.marked l hl i hil
  · intro i hi hfr
    rw [hmeta] at hfr ⊢
    by_cases hix : i = x
    · subst i
      rw [Function.update_self] at hfr
      cases hfr
    · rw [Function.update_of_ne hix] at hfr ⊢
      obtain ⟨ho, hin⟩ := hf.listed i hi hfr
      refine ⟨ho, ?_⟩
      by_cases hlk : (h.metadata i).order = k
      · rw [hlk, Function.update_self]
        rw [hlk, hF, List.mem_append, List.mem_cons, or_left_comm] at hin
        exact List.mem_append.mpr (hin.resolve_left hix)
      · rw [Function.update_of_ne hlk]
        exact hin
  · refine hch.mono ?_
    rintro i (rfl | hi | hi)
    · exact hxk
    · rcases hpn with h0 | ⟨j, hj, _, hje⟩
      · exact absurd (hi.trans h0) (pageAddr_pos i)
      · rw [hje, pageAddr_inj] at hi
        exact hi ▸ hj
    · rcases hnn with h0 | ⟨j, hj, _, hje⟩
      · exact absurd (hi.trans h0) (pageAddr_pos i)
      · rw [hje, pageAddr_inj] at hi
        exact hi ▸ hj

/-- The head of a list is null or one of its pages. -/
lemma head_cases (hf : FreeLists h F) {k : ℕ} (hk : k ≤ 12) :
    h.freeAreas k = 0 ∨ ∃ i ∈ F k, h.freeAreas k = pageAddr i := by
  have hhead := (hf.links k hk).head_eq
  cases hFk : F k with
  | nil =>
    rw [hFk] at hhead
    exact Or.inl hhead
  | cons y ys =>
    rw [hFk] at hhead
    exact Or.inr ⟨y, by simp, hhead⟩

/-- Linking in a page that is not marked free. -/
theorem add {k x : ℕ} (hf : FreeLists h F) (hk : k ≤ 12) (hx : x < 4096)
    (hfr : (h.metadata x).isFree = false) :
    FreeLists (h.buddyListAdd (pageAddr x) k) (Function.update F k (x :: F k)) ∧
    (h.buddyListAdd (pageAddr x) k).metadata = Function.update h.metadata x ⟨k, true, false⟩ ∧
    ChangedOnly {i | i = x ∨ i ∈ F k} h (h.buddyListAdd (pageAddr x) k) := by
  have hxout : ∀ l ≤ 12, x ∉ F l := by
    intro l hl hm
    have hm' := (hf.marked l hl x hm).1
    rw [hfr] at hm'
    cases hm'
  have hne : ∀ l ≤ 12, ∀ i ∈ F l, i ≠ x := fun l hl i hi he => hxout l hl (he ▸ hi)
  obtain ⟨hnx, hpx, hnext, hprev, hfree, hmeta, hch⟩ := h.buddyListAdd_effect hx rfl
    ((hf.head_cases hk).imp_right fun ⟨i, hi, he⟩ => ⟨i, hf.lt k hk i hi, hne k hk i hi, he⟩)
  have hkmod : k % 16 = k := Nat.mod_eq_of_lt (by omega)
  rw [hkmod] at hmeta
  have hlinks : ListFamily {k | k ≤ 12} (h.buddyListAdd (pageAddr x) k).blockNext
      (h.buddyListAdd (pageAddr x) k).blockPrev 0 (h.buddyListAdd (pageAddr x) k).freeAreas
      (fun l => (Function.update F k (x :: F k) l).map pageAddr) := by
    rw [map_update, List.map_cons]
    refine hf.family.push (show k ∈ {k | k ≤ 12} from hk) ?_ (pageAddr_pos x) hnx hpx ?_ ?_ ?_
    · intro l hl
      rw [List.mem_map_of_injective pageAddr_injective]
      exact hxout l hl
    · intro l _
      rw [hfree, Function.update_apply]
    · intro l hl a ha
      obtain ⟨i, hi, rfl⟩ := List.mem_map.mp ha
      exact hnext i (hne l hl i hi)
    · intro l hl a ha
      obtain ⟨i, hi, rfl⟩ := List.mem_map.mp ha
      exact hprev i (hne l hl i hi)
  refine ⟨⟨hlinks.list, ?_, ?_, ?_⟩, hmeta, ?_⟩
  · intro l hl i hi
    by_cases hlk : l = k
    · subst l
      rw [Function.update_self, List.mem_cons] at hi
      rcases hi with rfl | hi
      · exact hx
      · exact hf.lt k hk i hi
    · rw [Function.update_of_ne hlk] at hi
      exact hf.lt l hl i hi
  · intro l hl i hi
    rw [hmeta]
    by_cases hix : i = x
    · subst i
      have hlk : l = k := by
        by_contra hlk
        rw [Function.update_of_ne hlk] at hi
        exact hxout l hl hi
      rw [Function.update_self]
      exact ⟨rfl, hlk.symm⟩
    · rw [Function.update_of_ne hix]
      by_cases hlk : l = k
      · subst l
        rw [Function.update_self, List.mem_cons] at hi
        exact hf.marked k hk i (hi.resolve_left hix)
      · rw [Function.update_of_ne hlk] at hi
        exact hf.marked l hl i hi
  · intro i hi hfi
    rw [hmeta] at hfi ⊢
    by_cases hix : i = x
    · subst i
      rw [Function.update_self]
      exact ⟨hk, by simp⟩
    · rw [Function.update_of_ne hix] at hfi ⊢
      obtain ⟨ho, hin⟩ := hf.listed i hi hfi
      refine ⟨ho, ?_⟩
      by_cases hlk : (h.metadata i).order = k
      · rw [hlk] at hin ⊢
        rw [Function.update_self]
        exact List.mem_cons_of_mem _ hin
      · rw [Function.update_of_ne hlk]
        exact hin
  · refine hch.mono ?_
    rintro i (rfl | hi)
    · exact Or.inl rfl
    · rcases hf.head_cases hk with h0 | ⟨j, hj, hje⟩
      · exact absurd (hi.trans h0) (pageAddr_pos i)
      · rw [hje, pageAddr_inj] at hi
        exact Or.inr (hi ▸ hj)

/-- The lists do not see a change of bytes outside their pages, nor one of the
slab bits and of the orders of pages in use. -/
theorem congr {h' : Heap} (hf : FreeLists h F) (ha : h'.freeAreas = h.freeAreas)
    (hm : ∀ k ≤ 12, ∀ i ∈ F k, Set.EqOn h'.mem h.mem (bytes (pageAddr i) 16))
    (hfree : ∀ i < 4096, (h'.metadata i).isFree = (h.metadata i).isFree)
    (hord : ∀ i < 4096, (h.metadata i).isFree = true → (h'.metadata i).order = (h.metadata i).order) :
    FreeLists h' F := by
  refine ⟨fun k hk => ?_, hf.lt, fun k hk i hi => ?_, fun i hi hfi => ?_⟩
  · rw [ha]
    refine (hf.links k hk).congr ?_ ?_
    · intro a hm'
      obtain ⟨i, hi, rfl⟩ := List.mem_map.mp hm'
      refine load_congr ((hm k hk i hi).mono ?_)
      exact Set.Ico_subset_Ico (by omega) (by omega)
    · intro a hm'
      obtain ⟨i, hi, rfl⟩ := List.mem_map.mp hm'
      refine load_congr ((hm k hk i hi).mono ?_)
      exact Set.Ico_subset_Ico (by omega) (by omega)
  · obtain ⟨h1, h2⟩ := hf.marked k hk i hi
    have hlt := hf.lt k hk i hi
    exact ⟨(hfree i hlt).trans h1, (hord i hlt h1).trans h2⟩
  · rw [hfree i hi] at hfi
    rw [hord i hi hfi]
    exact hf.listed i hi hfi

end FreeLists

end PointerOS
