import PointerOS.Slab

/-!
# The slab lists of the caches

`SlabLists h G` says that the list at each head of `kernel_caches` is a
well-formed doubly linked list over the pages `G` gives it and that no page is
on two lists. The list operations of `slab.c` write nothing but the two link
words of slab headers, which is what `LinksOnly` records.
-/
namespace PointerOS
open ByteMemory LinkedList

/-- The bytes of `prev` and `next` in the header of page `i`. -/
def inLinks (i a : ℕ) : Prop := pageAddr i + 24 ≤ a ∧ a < pageAddr i + 40

/-- Besides the heads, only link words of the pages `P` differ. -/
structure LinksOnly (P : Set ℕ) (h h' : Heap) : Prop where
  mem : ∀ a, (∀ i ∈ P, ¬ inLinks i a) → h'.mem a = h.mem a
  metadata : h'.metadata = h.metadata
  freeAreas : h'.freeAreas = h.freeAreas
  objSize : ∀ c, (h'.kernelCaches c).objSize = (h.kernelCaches c).objSize

namespace LinksOnly

variable {P Q : Set ℕ} {h h' h'' : Heap}

theorem refl (P : Set ℕ) (h : Heap) : LinksOnly P h h := ⟨fun _ _ => rfl, rfl, rfl, fun _ => rfl⟩

theorem trans (h₁ : LinksOnly P h h') (h₂ : LinksOnly P h' h'') : LinksOnly P h h'' where
  mem a ha := (h₂.mem a ha).trans (h₁.mem a ha)
  metadata := h₂.metadata.trans h₁.metadata
  freeAreas := h₂.freeAreas.trans h₁.freeAreas
  objSize c := (h₂.objSize c).trans (h₁.objSize c)

theorem mono (h₁ : LinksOnly P h h') (hs : P ⊆ Q) : LinksOnly Q h h' where
  mem a ha := h₁.mem a (fun i hi => ha i (hs hi))
  metadata := h₁.metadata
  freeAreas := h₁.freeAreas
  objSize := h₁.objSize

end LinksOnly

namespace Heap

lemma slabNext_lt (h : Heap) (a : ℕ) : h.slabNext a < 2 ^ 64 := load64_lt _ _

lemma slabPrev_lt (h : Heap) (a : ℕ) : h.slabPrev a < 2 ^ 64 := load64_lt _ _

lemma slabNext_setSlabNext (h : Heap) (i j : ℕ) {v : ℕ} (hv : v < 2 ^ 64) :
    (h.setSlabNext (pageAddr i) v).slabNext (pageAddr j) =
      if pageAddr j = pageAddr i then v else h.slabNext (pageAddr j) := by
  have ha := pageAddr_apart i j
  have hl := load64_store64 (m := h.mem) (a := pageAddr i + 32) (b := pageAddr j + 32) hv (by omega)
  simpa only [slabNext, setSlabNext, write64, Nat.add_right_cancel_iff] using hl

lemma slabPrev_setSlabPrev (h : Heap) (i j : ℕ) {v : ℕ} (hv : v < 2 ^ 64) :
    (h.setSlabPrev (pageAddr i) v).slabPrev (pageAddr j) =
      if pageAddr j = pageAddr i then v else h.slabPrev (pageAddr j) := by
  have ha := pageAddr_apart i j
  have hl := load64_store64 (m := h.mem) (a := pageAddr i + 24) (b := pageAddr j + 24) hv (by omega)
  simpa only [slabPrev, setSlabPrev, write64, Nat.add_right_cancel_iff] using hl

lemma slabPrev_setSlabNext (h : Heap) (i j v : ℕ) :
    (h.setSlabNext (pageAddr i) v).slabPrev (pageAddr j) = h.slabPrev (pageAddr j) := by
  have ha := pageAddr_apart i j
  exact load_store_of_disjoint (by omega)

lemma slabNext_setSlabPrev (h : Heap) (i j v : ℕ) :
    (h.setSlabPrev (pageAddr i) v).slabNext (pageAddr j) = h.slabNext (pageAddr j) := by
  have ha := pageAddr_apart i j
  exact load_store_of_disjoint (by omega)

lemma headOf_setHead (h : Heap) (r r' : SlabHead) (v : ℕ) :
    (h.setHead r v).headOf r' = if r' = r then v else h.headOf r' := by
  cases r with
  | slabsPartial c =>
    cases r' with
    | slabsPartial d =>
      by_cases hd : d = c
      · subst hd
        simp [headOf, setHead]
      · simp [headOf, setHead, hd]
    | slabsFull d =>
      by_cases hd : d = c
      · subst hd
        simp [headOf, setHead]
      · simp [headOf, setHead, hd]
  | slabsFull c =>
    cases r' with
    | slabsPartial d =>
      by_cases hd : d = c
      · subst hd
        simp [headOf, setHead]
      · simp [headOf, setHead, hd]
    | slabsFull d =>
      by_cases hd : d = c
      · subst hd
        simp [headOf, setHead]
      · simp [headOf, setHead, hd]

@[simp] lemma headOf_setSlabNext (h : Heap) (a v : ℕ) (r : SlabHead) :
    (h.setSlabNext a v).headOf r = h.headOf r := by cases r <;> rfl

@[simp] lemma headOf_setSlabPrev (h : Heap) (a v : ℕ) (r : SlabHead) :
    (h.setSlabPrev a v).headOf r = h.headOf r := by cases r <;> rfl

@[simp] lemma slabNext_setHead (h : Heap) (r : SlabHead) (a v : ℕ) :
    (h.setHead r v).slabNext a = h.slabNext a := by cases r <;> rfl

@[simp] lemma slabPrev_setHead (h : Heap) (r : SlabHead) (a v : ℕ) :
    (h.setHead r v).slabPrev a = h.slabPrev a := by cases r <;> rfl

lemma setHead_linksOnly (h : Heap) (r : SlabHead) (v : ℕ) (P : Set ℕ) :
    LinksOnly P h (h.setHead r v) := by
  refine ⟨?_, ?_, ?_, fun c => ?_⟩
  · cases r <;> exact fun _ _ => rfl
  · cases r <;> rfl
  · cases r <;> rfl
  · cases r with
    | slabsPartial d =>
      by_cases hc : c = d
      · subst hc
        simp [setHead]
      · simp [setHead, hc]
    | slabsFull d =>
      by_cases hc : c = d
      · subst hc
        simp [setHead]
      · simp [setHead, hc]

lemma write64_linksOnly (h : Heap) {i a : ℕ} (v : ℕ) (h1 : pageAddr i + 24 ≤ a)
    (h2 : a + 8 ≤ pageAddr i + 40) : LinksOnly {i} h (h.write64 a v) := by
  refine ⟨fun x hx => ?_, rfl, rfl, fun _ => rfl⟩
  refine store_eqOn_compl _ _ _ _ ?_
  have hi := hx i rfl
  simp only [inLinks, bytes, Set.mem_compl_iff, Set.mem_Ico] at hi ⊢
  omega

lemma setSlabNext_linksOnly (h : Heap) (i v : ℕ) : LinksOnly {i} h (h.setSlabNext (pageAddr i) v) :=
  h.write64_linksOnly v (by omega) (by omega)

lemma setSlabPrev_linksOnly (h : Heap) (i v : ℕ) : LinksOnly {i} h (h.setSlabPrev (pageAddr i) v) :=
  h.write64_linksOnly v (by omega) (by omega)

/-- `if (n) n->prev = p;` for a successor `n` that is null or a page. -/
lemma set_slabPrev_of_next (h : Heap) {p n : ℕ} (hp : p < 2 ^ 64) (hn : n = 0 ∨ ∃ i, n = pageAddr i) :
    ∃ h₁, (if n ≠ 0 then h.setSlabPrev n p else h) = h₁ ∧
      (∀ y, h₁.slabNext (pageAddr y) = h.slabNext (pageAddr y)) ∧
      (∀ y, h₁.slabPrev (pageAddr y) = if pageAddr y = n then p else h.slabPrev (pageAddr y)) ∧
      (∀ r, h₁.headOf r = h.headOf r) ∧ LinksOnly {i | pageAddr i = n} h h₁ := by
  rcases hn with rfl | ⟨i, rfl⟩
  · refine ⟨h, by simp, fun y => rfl, fun y => ?_, fun r => rfl, LinksOnly.refl _ _⟩
    rw [if_neg (pageAddr_pos y)]
  · refine ⟨h.setSlabPrev (pageAddr i) p, if_pos (pageAddr_pos i), fun y => ?_, fun y => ?_,
      fun r => headOf_setSlabPrev _ _ _ _, ?_⟩
    · exact slabNext_setSlabPrev h i y p
    · exact slabPrev_setSlabPrev h i y hp
    · exact (setSlabPrev_linksOnly h i p).mono (by simp)

/-- `if (slab->prev) slab->prev->next = n; else *head = n;` for a predecessor `p`
that is null or a page. -/
lemma set_slabNext_of_prev (h : Heap) {r : SlabHead} {p n : ℕ} (hn : n < 2 ^ 64)
    (hp : p = 0 ∨ ∃ i, p = pageAddr i) :
    ∃ h₁, (if p ≠ 0 then h.setSlabNext p n else h.setHead r n) = h₁ ∧
      (∀ y, h₁.slabNext (pageAddr y) = if pageAddr y = p then n else h.slabNext (pageAddr y)) ∧
      (∀ y, h₁.slabPrev (pageAddr y) = h.slabPrev (pageAddr y)) ∧
      (∀ s, h₁.headOf s = if s = r ∧ p = 0 then n else h.headOf s) ∧
      LinksOnly {i | pageAddr i = p} h h₁ := by
  rcases hp with rfl | ⟨i, rfl⟩
  · refine ⟨h.setHead r n, by simp, fun y => ?_, fun y => by simp, fun s => ?_, ?_⟩
    · rw [if_neg (pageAddr_pos y), slabNext_setHead]
    · simp only [headOf_setHead, and_true]
    · exact setHead_linksOnly h r n _
  · refine ⟨h.setSlabNext (pageAddr i) n, if_pos (pageAddr_pos i), fun y => ?_, fun y => ?_, fun s => ?_, ?_⟩
    · exact slabNext_setSlabNext h i y hn
    · exact slabPrev_setSlabNext h i y n
    · rw [headOf_setSlabNext, if_neg (fun hc => pageAddr_pos i hc.2)]
    · exact (setSlabNext_linksOnly h i n).mono (by simp)

/-- What unlinking a slab with predecessor `p` and successor `n` does to every link. -/
theorem slabListRemove_effect (h : Heap) {x p n : ℕ} {r : SlabHead}
    (hp : h.slabPrev (pageAddr x) = p) (hn : h.slabNext (pageAddr x) = n)
    (hpp : p = 0 ∨ ∃ i, i ≠ x ∧ p = pageAddr i) (hnp : n = 0 ∨ ∃ i, i ≠ x ∧ n = pageAddr i) :
    (∀ y, (h.slabListRemove r (pageAddr x)).slabNext (pageAddr y) =
      if pageAddr y = p then n else h.slabNext (pageAddr y)) ∧
    (∀ y, y ≠ x → (h.slabListRemove r (pageAddr x)).slabPrev (pageAddr y) =
      if pageAddr y = n then p else h.slabPrev (pageAddr y)) ∧
    (∀ s, (h.slabListRemove r (pageAddr x)).headOf s = if s = r ∧ p = 0 then n else h.headOf s) ∧
    LinksOnly {i | i = x ∨ pageAddr i = p ∨ pageAddr i = n} h (h.slabListRemove r (pageAddr x)) := by
  have hplt : p < 2 ^ 64 := hp ▸ h.slabPrev_lt _
  have hnlt : n < 2 ^ 64 := hn ▸ h.slabNext_lt _
  have hxn : pageAddr x ≠ n := by
    rcases hnp with rfl | ⟨i, hi, rfl⟩
    · exact pageAddr_pos x
    · simpa using Ne.symm hi
  obtain ⟨h₁, he₁, hn₁, hp₁, hd₁, hc₁⟩ :=
    h.set_slabPrev_of_next hplt (hnp.imp_right fun ⟨i, _, hi⟩ => ⟨i, hi⟩)
  obtain ⟨h₂, he₂, hn₂, hp₂, hd₂, hc₂⟩ :=
    h₁.set_slabNext_of_prev (r := r) hnlt (hpp.imp_right fun ⟨i, _, hi⟩ => ⟨i, hi⟩)
  have hr : h.slabListRemove r (pageAddr x) = h₂.setSlabPrev (pageAddr x) 0 := by
    simp only [slabListRemove, hp, hn]
    rw [he₁, hn₁, hp₁, if_neg hxn, hn, hp, he₂]
  rw [hr]
  refine ⟨fun y => ?_, fun y hy => ?_, fun s => ?_, ?_⟩
  · rw [slabNext_setSlabPrev, hn₂, hn₁]
  · rw [slabPrev_setSlabPrev _ _ _ (by omega), if_neg (by simpa using hy), hp₂, hp₁]
  · rw [headOf_setSlabPrev, hd₂, hd₁]
  · refine (hc₁.mono ?_).trans ((hc₂.mono ?_).trans ((setSlabPrev_linksOnly h₂ x 0).mono ?_))
    · exact fun i hi => Or.inr (Or.inr hi)
    · exact fun i hi => Or.inr (Or.inl hi)
    · exact fun i hi => Or.inl hi

/-- What linking slab `x` in front of a list headed by `hd` does to every link. -/
theorem slabListAdd_effect (h : Heap) {x hd : ℕ} {r : SlabHead} (hx : x < 4096)
    (hh : h.headOf r = hd) (hhd : hd = 0 ∨ ∃ i, i < 4096 ∧ i ≠ x ∧ hd = pageAddr i) :
    (h.slabListAdd r (pageAddr x)).slabNext (pageAddr x) = hd ∧
    (h.slabListAdd r (pageAddr x)).slabPrev (pageAddr x) = 0 ∧
    (∀ y, y ≠ x → (h.slabListAdd r (pageAddr x)).slabNext (pageAddr y) = h.slabNext (pageAddr y)) ∧
    (∀ y, y ≠ x → (h.slabListAdd r (pageAddr x)).slabPrev (pageAddr y) =
      if pageAddr y = hd then pageAddr x else h.slabPrev (pageAddr y)) ∧
    (∀ s, (h.slabListAdd r (pageAddr x)).headOf s = if s = r then pageAddr x else h.headOf s) ∧
    LinksOnly {i | i = x ∨ pageAddr i = hd} h (h.slabListAdd r (pageAddr x)) := by
  have hxlt : pageAddr x < 2 ^ 64 := by
    rw [pageAddr_eq]
    omega
  have hhdlt : hd < 2 ^ 64 := by
    rcases hhd with rfl | ⟨i, hi, _, rfl⟩
    · omega
    · rw [pageAddr_eq]
      omega
  have hxhd : pageAddr x ≠ hd := by
    rcases hhd with rfl | ⟨i, _, hi, rfl⟩
    · exact pageAddr_pos x
    · simpa using Ne.symm hi
  let g := (h.setSlabNext (pageAddr x) hd).setSlabPrev (pageAddr x) 0
  have hgn : ∀ y, g.slabNext (pageAddr y) =
      if pageAddr y = pageAddr x then hd else h.slabNext (pageAddr y) := by
    intro y
    rw [slabNext_setSlabPrev, slabNext_setSlabNext _ _ _ hhdlt]
  have hgp : ∀ y, g.slabPrev (pageAddr y) =
      if pageAddr y = pageAddr x then 0 else h.slabPrev (pageAddr y) := by
    intro y
    rw [slabPrev_setSlabPrev _ _ _ (by omega), slabPrev_setSlabNext]
  have hgh : ∀ s, g.headOf s = h.headOf s := fun s => by
    rw [headOf_setSlabPrev, headOf_setSlabNext]
  have hgc : LinksOnly {x} h g :=
    (setSlabNext_linksOnly h x hd).trans (setSlabPrev_linksOnly (h.setSlabNext (pageAddr x) hd) x 0)
  obtain ⟨h₃, he₃, hn₃, hp₃, hd₃, hc₃⟩ :=
    g.set_slabPrev_of_next (n := hd) hxlt (hhd.imp_right fun ⟨i, _, _, hi⟩ => ⟨i, hi⟩)
  have hr : h.slabListAdd r (pageAddr x) = h₃.setHead r (pageAddr x) := by
    have hg : g.headOf r = hd := (hgh r).trans hh
    rw [← he₃]
    simp only [slabListAdd, hh]
    change (if g.headOf r ≠ 0 then g.setSlabPrev (g.headOf r) (pageAddr x) else g).setHead r (pageAddr x) = _
    rw [hg]
  rw [hr]
  refine ⟨?_, ?_, fun y hy => ?_, fun y hy => ?_, fun s => ?_, ?_⟩
  · rw [slabNext_setHead, hn₃, hgn, if_pos rfl]
  · rw [slabPrev_setHead, hp₃, if_neg hxhd, hgp, if_pos rfl]
  · rw [slabNext_setHead, hn₃, hgn, if_neg (by simpa using hy)]
  · rw [slabPrev_setHead, hp₃, hgp, if_neg (show ¬ pageAddr y = pageAddr x by simpa using hy)]
  · rw [headOf_setHead, hd₃, hgh]
  · refine (hgc.mono ?_).trans ((hc₃.mono ?_).trans (setHead_linksOnly h₃ r _ _))
    · exact fun i hi => Or.inl hi
    · exact fun i hi => Or.inr hi

end Heap

/-- The heads that `kernel_caches` has. -/
def slabHeads : Set SlabHead := {r | r.cache < numCaches}

structure SlabLists (h : Heap) (G : SlabHead → List ℕ) : Prop where
  family : ListFamily slabHeads h.slabNext h.slabPrev 0 h.headOf (fun r => (G r).map pageAddr)
  lt : ∀ r ∈ slabHeads, ∀ i ∈ G r, i < 4096

namespace SlabLists

variable {h h' : Heap} {G : SlabHead → List ℕ} {r : SlabHead}

lemma head_unique (hs : SlabLists h G) {r' : SlabHead} (hr : r ∈ slabHeads) (hr' : r' ∈ slabHeads)
    {i : ℕ} (hi : i ∈ G r) (hi' : i ∈ G r') : r = r' :=
  hs.family.disjoint r hr r' hr' (pageAddr i) (List.mem_map_of_mem hi) (List.mem_map_of_mem hi')

lemma nodup (hs : SlabLists h G) (hr : r ∈ slabHeads) : (G r).Nodup :=
  (hs.family.list r hr).nodup.of_map pageAddr

lemma eq_nil_iff (hs : SlabLists h G) (hr : r ∈ slabHeads) : G r = [] ↔ h.headOf r = 0 := by
  rw [← (hs.family.list r hr).eq_nil_iff, List.map_eq_nil_iff]

lemma headOf_cons (hs : SlabLists h G) (hr : r ∈ slabHeads) {x : ℕ} {xs : List ℕ}
    (hG : G r = x :: xs) : h.headOf r = pageAddr x := by
  rw [(hs.family.list r hr).head_eq, hG]
  rfl

lemma map_update (G : SlabHead → List ℕ) (r : SlabHead) (xs : List ℕ) :
    (fun s => (Function.update G r xs s).map pageAddr) =
      Function.update (fun s => (G s).map pageAddr) r (xs.map pageAddr) := by
  funext s
  by_cases hs : s = r
  · subst hs
    simp
  · simp [hs]

/-- Link words that agree on the listed pages, and equal heads, give the same lists. -/
theorem congr (hs : SlabLists h G) (hh : ∀ r, h'.headOf r = h.headOf r)
    (hm : ∀ r ∈ slabHeads, ∀ i ∈ G r, ∀ a, inLinks i a → h'.mem a = h.mem a) : SlabLists h' G := by
  refine ⟨hs.family.congr (fun r _ => hh r) ?_ ?_, hs.lt⟩
  all_goals
    intro r hr a ha
    obtain ⟨i, hi, rfl⟩ := List.mem_map.mp ha
    refine load_congr fun x hx => hm r hr i hi x ?_
    simp only [bytes, Set.mem_Ico] at hx
    exact ⟨by omega, by omega⟩

lemma neighbour (hs : SlabLists h G) (hr : r ∈ slabHeads) {x : ℕ} (hx : x ∈ G r) :
    (h.slabPrev (pageAddr x) = 0 ∨ ∃ i ∈ G r, i ≠ x ∧ h.slabPrev (pageAddr x) = pageAddr i) ∧
    (h.slabNext (pageAddr x) = 0 ∨ ∃ i ∈ G r, i ≠ x ∧ h.slabNext (pageAddr x) = pageAddr i) := by
  have hpage : ∀ a, a ∈ (G r).map pageAddr ∧ a ≠ pageAddr x → ∃ i ∈ G r, i ≠ x ∧ a = pageAddr i := by
    rintro a ⟨ha, hne⟩
    obtain ⟨i, hi, rfl⟩ := List.mem_map.mp ha
    exact ⟨i, hi, fun he => hne (by rw [he]), rfl⟩
  obtain ⟨hp, hn⟩ := hs.family.neighbours hr (List.mem_map_of_mem hx)
  exact ⟨hp.imp_right (hpage _), hn.imp_right (hpage _)⟩

/-- Unlinking a slab. -/
theorem remove {x : ℕ} {pre post : List ℕ} (hs : SlabLists h G) (hr : r ∈ slabHeads)
    (hG : G r = pre ++ x :: post) :
    SlabLists (h.slabListRemove r (pageAddr x)) (Function.update G r (pre ++ post)) ∧
    LinksOnly {i | i ∈ G r} h (h.slabListRemove r (pageAddr x)) := by
  have hx : x ∈ G r := by simp [hG]
  obtain ⟨hpn, hnn⟩ := hs.neighbour hr hx
  obtain ⟨hnext, hprev, hhead, hch⟩ := h.slabListRemove_effect (r := r) rfl rfl
    (hpn.imp_right fun ⟨i, _, hi⟩ => ⟨i, hi⟩) (hnn.imp_right fun ⟨i, _, hi⟩ => ⟨i, hi⟩)
  have hGa : (G r).map pageAddr = pre.map pageAddr ++ pageAddr x :: post.map pageAddr := by
    rw [hG, List.map_append, List.map_cons]
  refine ⟨⟨?_, ?_⟩, hch.mono ?_⟩
  · rw [map_update, List.map_append]
    refine hs.family.remove hr hGa (fun s _ => hhead s) ?_ ?_
    · intro s _ a ha _
      obtain ⟨i, _, rfl⟩ := List.mem_map.mp ha
      exact hnext i
    · intro s _ a ha hax
      obtain ⟨i, _, rfl⟩ := List.mem_map.mp ha
      exact hprev i (by simpa using hax)
  · intro s hsh i hi
    by_cases hsr : s = r
    · subst hsr
      rw [Function.update_self, List.mem_append] at hi
      refine hs.lt s hr i ?_
      rw [hG]
      rcases hi with hi | hi <;> simp [hi]
    · rw [Function.update_of_ne hsr] at hi
      exact hs.lt s hsh i hi
  · rintro i (rfl | hi | hi)
    · exact hx
    · rcases hpn with h0 | ⟨j, hj, _, hje⟩
      · exact absurd (hi.trans h0) (pageAddr_pos i)
      · rw [hje, pageAddr_inj] at hi
        exact hi ▸ hj
    · rcases hnn with h0 | ⟨j, hj, _, hje⟩
      · exact absurd (hi.trans h0) (pageAddr_pos i)
      · rw [hje, pageAddr_inj] at hi
        exact hi ▸ hj

/-- A slab that is unlinked is on no list any more, and nothing else is lost. -/
lemma mem_unlinked {x : ℕ} {pre post : List ℕ} (hs : SlabLists h G) (hr : r ∈ slabHeads)
    (hG : G r = pre ++ x :: post) {q : SlabHead} (hq : q ∈ slabHeads) {t : ℕ} :
    t ∈ Function.update G r (pre ++ post) q ↔ t ∈ G q ∧ t ≠ x := by
  have hx : x ∈ G r := by simp [hG]
  by_cases hqr : q = r
  · subst hqr
    have hnd := hs.nodup hr
    rw [hG, List.nodup_append] at hnd
    simp only [List.nodup_cons, List.mem_cons] at hnd
    rw [Function.update_self, hG]
    simp only [List.mem_append, List.mem_cons]
    constructor
    · rintro (ht | ht)
      · exact ⟨Or.inl ht, hnd.2.2 t ht x (Or.inl rfl)⟩
      · exact ⟨Or.inr (Or.inr ht), fun he => hnd.2.1.1 (he ▸ ht)⟩
    · rintro ⟨ht | ht | ht, htx⟩
      · exact Or.inl ht
      · exact absurd ht htx
      · exact Or.inr ht
  · rw [Function.update_of_ne hqr]
    exact ⟨fun ht => ⟨ht, fun htx => hqr (hs.head_unique hq hr (htx ▸ ht) hx)⟩, fun ht => ht.1⟩

lemma head_cases (hs : SlabLists h G) (hr : r ∈ slabHeads) :
    h.headOf r = 0 ∨ ∃ i ∈ G r, h.headOf r = pageAddr i := by
  cases hG : G r with
  | nil => exact Or.inl ((hs.eq_nil_iff hr).mp hG)
  | cons y ys => exact Or.inr ⟨y, by simp, hs.headOf_cons hr hG⟩

/-- Linking in a page that is on no list. -/
theorem add {x : ℕ} (hs : SlabLists h G) (hr : r ∈ slabHeads) (hx : x < 4096)
    (hout : ∀ s ∈ slabHeads, x ∉ G s) :
    SlabLists (h.slabListAdd r (pageAddr x)) (Function.update G r (x :: G r)) ∧
    LinksOnly {i | i = x ∨ i ∈ G r} h (h.slabListAdd r (pageAddr x)) := by
  have hne : ∀ s ∈ slabHeads, ∀ i ∈ G s, i ≠ x := fun s hsh i hi he => hout s hsh (he ▸ hi)
  obtain ⟨hnx, hpx, hnext, hprev, hhead, hch⟩ := h.slabListAdd_effect (r := r) hx rfl
    ((hs.head_cases hr).imp_right fun ⟨i, hi, he⟩ => ⟨i, hs.lt r hr i hi, hne r hr i hi, he⟩)
  refine ⟨⟨?_, ?_⟩, hch.mono ?_⟩
  · rw [map_update, List.map_cons]
    refine hs.family.push hr ?_ (pageAddr_pos x) hnx hpx (fun s _ => hhead s) ?_ ?_
    · intro s hsh
      rw [List.mem_map_of_injective pageAddr_injective]
      exact hout s hsh
    · intro s hsh a ha
      obtain ⟨i, hi, rfl⟩ := List.mem_map.mp ha
      exact hnext i (hne s hsh i hi)
    · intro s hsh a ha
      obtain ⟨i, hi, rfl⟩ := List.mem_map.mp ha
      exact hprev i (hne s hsh i hi)
  · intro s hsh i hi
    by_cases hsr : s = r
    · subst hsr
      rw [Function.update_self, List.mem_cons] at hi
      rcases hi with rfl | hi
      · exact hx
      · exact hs.lt s hr i hi
    · rw [Function.update_of_ne hsr] at hi
      exact hs.lt s hsh i hi
  · rintro i (rfl | hi)
    · exact Or.inl rfl
    · rcases hs.head_cases hr with h0 | ⟨j, hj, hje⟩
      · exact absurd (hi.trans h0) (pageAddr_pos i)
      · rw [hje, pageAddr_inj] at hi
        exact Or.inr (hi ▸ hj)

end SlabLists

end PointerOS
