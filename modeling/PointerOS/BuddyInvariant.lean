import PointerOS.BuddyLists

/-!
# The buddy allocator keeps a fully coalesced tiling

`BuddyInv h F O` relates the free lists `F` to a set `O` of blocks in use: both
together tile the 4096 heap pages, and no two buddies are free. Allocation
halves one free block down to the order asked for, freeing joins the block with
its buddy as long as the buddy is free. A block in transit counts as in use, so
each turn of either loop is one edit of the tiling.
-/
namespace PointerOS
open ByteMemory LinkedList BuddyBlocks

/-- The blocks on the free lists. -/
def freeBlocks (F : ℕ → List ℕ) : Set Block := {b | b.order ≤ 12 ∧ b.start ∈ F b.order}

/-- The pages the free blocks cover. -/
def freePages (F : ℕ → List ℕ) : Set ℕ := {p | ∃ b ∈ freeBlocks F, b.Covers p}

structure BuddyInv (h : Heap) (F : ℕ → List ℕ) (O : Set Block) : Prop where
  lists : FreeLists h F
  tiling : Tiling 4096 (freeBlocks F ∪ O)
  owned : ∀ b ∈ O, (h.metadata b.start).isFree = false
  coalesced : ∀ b ∈ freeBlocks F, b.order < 12 → b.buddy ∉ freeBlocks F

lemma mem_freeBlocks_add {F : ℕ → List ℕ} {k y : ℕ} (hk : k ≤ 12) (c : Block) :
    c ∈ freeBlocks (Function.update F k (y :: F k)) ↔ c ∈ freeBlocks F ∨ c = ⟨y, k⟩ := by
  obtain ⟨s, o⟩ := c
  simp only [freeBlocks, Set.mem_ofPred_eq, Block.mk.injEq]
  by_cases ho : o = k
  · subst ho
    simp [hk, or_comm]
  · simp [ho]

lemma mem_freeBlocks_remove {F : ℕ → List ℕ} {k y : ℕ} {pre post : List ℕ}
    (hF : F k = pre ++ y :: post) (hnd : (F k).Nodup) (c : Block) :
    c ∈ freeBlocks (Function.update F k (pre ++ post)) ↔ c ∈ freeBlocks F ∧ c ≠ ⟨y, k⟩ := by
  obtain ⟨s, o⟩ := c
  simp only [freeBlocks, Set.mem_ofPred_eq, ne_eq, Block.mk.injEq]
  by_cases ho : o = k
  · subst ho
    rw [hF, List.nodup_append] at hnd
    simp only [List.nodup_cons, List.mem_cons] at hnd
    rw [Function.update_self, hF]
    simp only [List.mem_append, List.mem_cons, and_true]
    constructor
    · rintro ⟨hk, hs⟩
      refine ⟨⟨hk, hs.imp_right Or.inr⟩, ?_⟩
      rintro rfl
      rcases hs with hs | hs
      · exact hnd.2.2 s hs s (Or.inl rfl) rfl
      · exact hnd.2.1.1 hs
    · rintro ⟨⟨hk, hs⟩, hne⟩
      exact ⟨hk, hs.imp_right fun hs => hs.resolve_left hne⟩
  · simp [ho]

namespace BuddyInv

variable {h : Heap} {F : ℕ → List ℕ} {O : Set Block}

lemma order_le (inv : BuddyInv h F O) {b : Block} (hb : b ∈ freeBlocks F ∪ O) : b.order ≤ 12 := by
  have hle := inv.tiling.bounded b hb
  by_contra hgt
  have hpow : 2 ^ 13 ≤ 2 ^ b.order := Nat.pow_le_pow_right (by omega) (by omega)
  omega

lemma isFree_of_mem (inv : BuddyInv h F O) {b : Block} (hb : b ∈ freeBlocks F) :
    (h.metadata b.start).isFree = true := (inv.lists.marked b.order hb.1 b.start hb.2).1

lemma notMem_owned (inv : BuddyInv h F O) {b : Block} (hb : b ∈ freeBlocks F) : b ∉ O := by
  intro ho
  have h1 := inv.isFree_of_mem hb
  rw [inv.owned b ho] at h1
  cases h1

lemma start_lt (inv : BuddyInv h F O) {b : Block} (hb : b ∈ freeBlocks F ∪ O) : b.start < 4096 :=
  inv.tiling.start_lt hb

/-- A page in use that does not start its block is not marked free. -/
lemma isFree_false_of_covers (inv : BuddyInv h F O) {b : Block} (hb : b ∈ O) {p : ℕ}
    (hp : b.Covers p) : (h.metadata p).isFree = false := by
  by_contra hne
  have hfr : (h.metadata p).isFree = true := by simpa using hne
  have hplt : p < 4096 := lt_of_lt_of_le hp.2 (inv.tiling.bounded b (Or.inr hb))
  obtain ⟨ho, hin⟩ := inv.lists.listed p hplt hfr
  have hf : (⟨p, (h.metadata p).order⟩ : Block) ∈ freeBlocks F := ⟨ho, hin⟩
  have he := inv.tiling.disjoint _ (Or.inl hf) b (Or.inr hb) p (Block.covers_start _) hp
  exact inv.notMem_owned hf (he ▸ hb)

lemma notMem_freePages (inv : BuddyInv h F O) {b : Block} (hb : b ∈ O) {p : ℕ} (hp : b.Covers p) :
    p ∉ freePages F := by
  rintro ⟨c, hc, hcp⟩
  have he := inv.tiling.disjoint c (Or.inl hc) b (Or.inr hb) p hcp hp
  exact inv.notMem_owned hc (he ▸ hb)

/-- Freeing the upper half of a block in transit. -/
theorem halve {x j : ℕ} (inv : BuddyInv h F (insert ⟨x, j + 1⟩ O)) (hx : (⟨x, j + 1⟩ : Block) ∉ O)
    (hempty : F j = []) :
    BuddyInv (h.buddyListAdd (pageAddr (x ^^^ 2 ^ j)) j)
      (Function.update F j ((x ^^^ 2 ^ j) :: F j)) (insert ⟨x, j⟩ O) ∧
    (⟨x, j⟩ : Block) ∉ O ∧
    ChangedOnly {p | (⟨x, j + 1⟩ : Block).Covers p} h (h.buddyListAdd (pageAddr (x ^^^ 2 ^ j)) j) := by
  have hbig : (⟨x, j + 1⟩ : Block) ∈ freeBlocks F ∪ insert ⟨x, j + 1⟩ O := Or.inr (Or.inl rfl)
  have hj : j + 1 ≤ 12 := inv.order_le hbig
  have hxlt : x < 4096 := inv.start_lt hbig
  have hdvd : 2 ^ (j + 1) ∣ x := inv.tiling.aligned _ hbig
  let b : Block := ⟨x, j⟩
  have hal : b.Aligned := dvd_trans (pow_dvd_pow 2 (Nat.le_succ j)) hdvd
  have hjoin : b.join = ⟨x, j + 1⟩ := by
    have hs := Block.join_start hal
    rw [if_pos hdvd] at hs
    exact congrArg₂ Block.mk hs rfl
  have hbuddy : b.buddy = ⟨x ^^^ 2 ^ j, j⟩ := rfl
  have hne : x ^^^ 2 ^ j ≠ x := fun he => b.buddy_ne (congrArg₂ Block.mk he rfl)
  have hcovb : (⟨x, j + 1⟩ : Block).Covers (x ^^^ 2 ^ j) := by
    rw [← hjoin, Block.covers_join hal]
    exact Or.inr b.buddy.covers_start
  have hylt : x ^^^ 2 ^ j < 4096 := xor_two_pow_lt hxlt (by omega)
  have hyfree := inv.isFree_false_of_covers (Or.inl rfl) hcovb
  obtain ⟨hlists, hmeta, hch⟩ := inv.lists.add (by omega : j ≤ 12) hylt hyfree
  have hxO : (⟨x, j⟩ : Block) ∉ O := by
    intro hm
    have he := inv.tiling.disjoint _ (Or.inr (Or.inr hm)) _ hbig x (Block.covers_start _)
      (Block.covers_start _)
    have hjj : j = j + 1 := congrArg Block.order he
    omega
  have hstart : ∀ c ∈ O, c.start ≠ x ^^^ 2 ^ j := by
    intro c hc he
    have hc' := inv.tiling.disjoint c (Or.inr (Or.inr hc)) _ hbig (x ^^^ 2 ^ j)
      (he ▸ c.covers_start) hcovb
    exact hx (hc' ▸ hc)
  refine ⟨⟨hlists, ?_, ?_, ?_⟩, hxO, ?_⟩
  · refine inv.tiling.halve hal (hjoin ▸ hbig) ?_
    intro c
    simp only [Set.mem_union, Set.mem_insert_iff, mem_freeBlocks_add (show j ≤ 12 by omega), hjoin]
    constructor
    · rintro ((hc | rfl) | rfl | hc)
      · refine Or.inl ⟨Or.inl hc, ?_⟩
        rintro rfl
        exact inv.notMem_owned hc (Or.inl rfl)
      · exact Or.inr (Or.inr rfl)
      · exact Or.inr (Or.inl rfl)
      · refine Or.inl ⟨Or.inr (Or.inr hc), ?_⟩
        rintro rfl
        exact hx hc
    · rintro (⟨hc | rfl | hc, hne'⟩ | rfl | rfl)
      · exact Or.inl (Or.inl hc)
      · exact absurd rfl hne'
      · exact Or.inr (Or.inr hc)
      · exact Or.inr (Or.inl rfl)
      · exact Or.inl (Or.inr rfl)
  · rintro c (rfl | hc)
    · rw [hmeta, Function.update_of_ne (Ne.symm hne)]
      exact inv.owned ⟨x, j + 1⟩ (Or.inl rfl)
    · rw [hmeta, Function.update_of_ne (hstart c hc)]
      exact inv.owned c (Or.inr hc)
  · intro c hc hco hcb
    rw [mem_freeBlocks_add (by omega)] at hc hcb
    rcases hc with hc | rfl
    · rcases hcb with hcb | hcb
      · exact inv.coalesced c hc hco hcb
      · have ho : c.order = j := congrArg Block.order hcb
        have hmem := hc.2
        rw [ho, hempty] at hmem
        cases hmem
    · rcases hcb with hcb | hcb
      · have hmem := hcb.2
        rw [Block.buddy_order, hempty] at hmem
        cases hmem
      · exact Block.buddy_ne _ hcb
  · refine hch.mono ?_
    rintro p (rfl | hp)
    · exact hcovb
    · rw [hempty] at hp
      cases hp

/-- The splitting loop leaves a block of the order asked for, with nothing but
the pages of the block it was given changed. -/
theorem splitBlock {x order : ℕ} (i : ℕ) (ho : order ≤ i)
    (inv : BuddyInv h F (insert ⟨x, i⟩ O)) (hx : (⟨x, i⟩ : Block) ∉ O)
    (hempty : ∀ k < i, order ≤ k → F k = []) :
    ∃ F', BuddyInv (h.splitBlock (pageAddr x) order i) F' (insert ⟨x, order⟩ O) ∧
      (⟨x, order⟩ : Block) ∉ O ∧
      ChangedOnly {p | (⟨x, i⟩ : Block).Covers p} h (h.splitBlock (pageAddr x) order i) := by
  induction i generalizing h F with
  | zero =>
    obtain rfl : order = 0 := by omega
    exact ⟨F, inv, hx, ChangedOnly.refl _ _⟩
  | succ j ih =>
    by_cases hlt : order < j + 1
    · have hbig : (⟨x, j + 1⟩ : Block) ∈ freeBlocks F ∪ insert ⟨x, j + 1⟩ O := Or.inr (Or.inl rfl)
      have hj : j + 1 ≤ 12 := inv.order_le hbig
      obtain ⟨inv', hx', hch⟩ := inv.halve hx (hempty j (by omega) (by omega))
      obtain ⟨F', hinv, hxO, hch'⟩ := ih (by omega) inv' hx' (by
        intro k hk hok
        rw [Function.update_of_ne (by omega)]
        exact hempty k (by omega) hok)
      rw [Heap.splitBlock, if_pos hlt, pageAddr_xor (inv.start_lt hbig) (by omega)]
      refine ⟨F', hinv, hxO, hch.trans (hch'.mono ?_)⟩
      intro p hp
      have hpow : 2 ^ (j + 1) = 2 ^ j + 2 ^ j := by ring
      simp only [Set.mem_ofPred_eq, Block.Covers] at hp ⊢
      omega
    · obtain rfl : order = j + 1 := by omega
      rw [Heap.splitBlock, if_neg hlt]
      exact ⟨F, inv, hx, ChangedOnly.refl _ _⟩

/-- Taking a free block off its list puts it in transit. -/
theorem take {k x : ℕ} {pre post : List ℕ} (inv : BuddyInv h F O) (hk : k ≤ 12)
    (hF : F k = pre ++ x :: post) :
    BuddyInv (h.buddyListRemove (pageAddr x) k) (Function.update F k (pre ++ post))
      (insert ⟨x, k⟩ O) ∧
    ChangedOnly {i | i ∈ F k} h (h.buddyListRemove (pageAddr x) k) := by
  obtain ⟨hlists, hmeta, hch⟩ := inv.lists.remove hk hF
  have hrem := mem_freeBlocks_remove hF (inv.lists.nodup hk)
  have hxf : (⟨x, k⟩ : Block) ∈ freeBlocks F := ⟨hk, by simp [hF]⟩
  refine ⟨⟨hlists, inv.tiling.congr ?_, ?_, ?_⟩, hch⟩
  · intro c
    simp only [Set.mem_union, Set.mem_insert_iff, hrem]
    constructor
    · rintro (⟨hc, _⟩ | rfl | hc)
      · exact Or.inl hc
      · exact Or.inl hxf
      · exact Or.inr hc
    · rintro (hc | hc)
      · by_cases he : c = ⟨x, k⟩
        · exact Or.inr (Or.inl he)
        · exact Or.inl ⟨hc, he⟩
      · exact Or.inr (Or.inr hc)
  · rintro c (rfl | hc)
    · rw [hmeta, Function.update_self]
    · rw [hmeta]
      by_cases hcx : c.start = x
      · rw [hcx, Function.update_self]
      · rw [Function.update_of_ne hcx]
        exact inv.owned c hc
  · intro c hc hco hcb
    exact inv.coalesced c ((hrem c).mp hc).1 hco ((hrem _).mp hcb).1

/-- Recording order and status of a block in use changes nothing else. -/
theorem setMetadata {x k : ℕ} (inv : BuddyInv h F (insert ⟨x, k⟩ O)) (sl : Bool) :
    BuddyInv (h.setMetadata x ⟨k, false, sl⟩) F (insert ⟨x, k⟩ O) := by
  have hx := inv.owned ⟨x, k⟩ (Or.inl rfl)
  have hfr : ∀ i, ((h.setMetadata x ⟨k, false, sl⟩).metadata i).isFree = (h.metadata i).isFree := by
    intro i
    by_cases hi : i = x
    · subst i
      simpa [Heap.setMetadata] using hx.symm
    · simp [Heap.setMetadata, Function.update_of_ne hi]
  refine ⟨inv.lists.congr rfl (fun _ _ _ _ => fun _ _ => rfl) (fun i _ => hfr i) ?_, inv.tiling, ?_,
    inv.coalesced⟩
  · intro i _ hi
    have hne : i ≠ x := by
      rintro rfl
      rw [hx] at hi
      cases hi
    simp [Heap.setMetadata, Function.update_of_ne hne]
  · intro c hc
    rw [hfr]
    exact inv.owned c hc

/-- What `buddy_alloc` does: either no free block is large enough and nothing
happens, or a block of exactly the order asked for is taken out of free pages. -/
theorem buddyAllocFrom {order : ℕ} (inv : BuddyInv h F O) (n i : ℕ) (hn : i + n = 13) (ho : order ≤ i)
    (hempty : ∀ k < i, order ≤ k → F k = []) :
    (h.buddyAllocFrom order n i = (0, h) ∧ ∀ k ≤ 12, order ≤ k → F k = []) ∨
    ∃ x F', order ≤ 12 ∧ (h.buddyAllocFrom order n i).1 = pageAddr x ∧
      BuddyInv (h.buddyAllocFrom order n i).2 F' (insert ⟨x, order⟩ O) ∧
      (⟨x, order⟩ : Block) ∉ O ∧
      (h.buddyAllocFrom order n i).2.metadata x = ⟨order, false, false⟩ ∧
      ChangedOnly (freePages F) h (h.buddyAllocFrom order n i).2 ∧
      ∀ p, (⟨x, order⟩ : Block).Covers p → p ∈ freePages F := by
  induction n generalizing i with
  | zero => exact Or.inl ⟨rfl, fun k hk hok => hempty k (by omega) hok⟩
  | succ n ih =>
    have hi : i ≤ 12 := by omega
    by_cases hf : h.freeAreas i = 0
    · rw [Heap.buddyAllocFrom, if_neg (by simpa using hf)]
      refine ih (i + 1) (by omega) (by omega) ?_
      intro k hk hok
      by_cases hki : k = i
      · rw [hki]
        exact (inv.lists.eq_nil_iff hi).mpr hf
      · exact hempty k (by omega) hok
    · right
      have hhead := (inv.lists.links i hi).head_eq
      obtain ⟨x, rest, hF⟩ : ∃ x rest, F i = x :: rest := by
        cases hFi : F i with
        | nil => exact absurd ((inv.lists.eq_nil_iff hi).mp hFi) hf
        | cons x rest => exact ⟨x, rest, rfl⟩
      have hfx : h.freeAreas i = pageAddr x := by
        rw [hhead, hF]
        rfl
      have hxf : (⟨x, i⟩ : Block) ∈ freeBlocks F := ⟨hi, by simp [hF]⟩
      have hxlt : x < 4096 := inv.start_lt (Or.inl hxf)
      obtain ⟨inv₁, hch₁⟩ := inv.take hi (show F i = [] ++ x :: rest from hF)
      obtain ⟨F', inv₂, hxO, hch₂⟩ := inv₁.splitBlock i ho (inv.notMem_owned hxf) (by
        intro k hk hok
        rw [Function.update_of_ne (by omega)]
        exact hempty k hk hok)
      have hmod : order % 16 = order := Nat.mod_eq_of_lt (by omega)
      rw [Heap.buddyAllocFrom, if_pos hf]
      simp only [hfx, pageIndex_pageAddr hxlt, hmod]
      refine ⟨x, F', by omega, rfl, inv₂.setMetadata false, hxO, Function.update_self _ _ _, ?_, ?_⟩
      · refine (hch₁.mono ?_).trans ((hch₂.mono ?_).trans ((Heap.setMetadata_changedOnly _ x ?_).mono ?_))
        · exact fun p hp => ⟨⟨p, i⟩, ⟨hi, hp⟩, Block.covers_start _⟩
        · exact fun p hp => ⟨⟨x, i⟩, hxf, hp⟩
        · exact fun hc => absurd hc (by simp)
        · rintro p rfl
          exact ⟨⟨p, i⟩, hxf, Block.covers_start _⟩
      · intro p hp
        refine ⟨⟨x, i⟩, hxf, hp.1, lt_of_lt_of_le hp.2 ?_⟩
        exact Nat.add_le_add_left (Nat.pow_le_pow_right (by omega) ho) x

theorem buddyAlloc (inv : BuddyInv h F O) (order : ℕ) :
    (h.buddyAlloc order = (0, h) ∧ ∀ k ≤ 12, order ≤ k → F k = []) ∨
    ∃ x F', order ≤ 12 ∧ (h.buddyAlloc order).1 = pageAddr x ∧
      BuddyInv (h.buddyAlloc order).2 F' (insert ⟨x, order⟩ O) ∧
      (⟨x, order⟩ : Block) ∉ O ∧
      (h.buddyAlloc order).2.metadata x = ⟨order, false, false⟩ ∧
      ChangedOnly (freePages F) h (h.buddyAlloc order).2 ∧
      ∀ p, (⟨x, order⟩ : Block).Covers p → p ∈ freePages F := by
  by_cases ho : order ≤ 12
  · exact inv.buddyAllocFrom (13 - order) order (by omega) le_rfl (by intro k hk hok; omega)
  · have h0 : maxOrders + 1 - order = 0 := show 13 - order = 0 by omega
    rw [Heap.buddyAlloc, h0]
    exact Or.inl ⟨rfl, by intro k hk hok; omega⟩

/-- Joining a block in transit with its free buddy. -/
theorem join {x i : ℕ} (inv : BuddyInv h F (insert ⟨x, i⟩ O)) (hx : (⟨x, i⟩ : Block) ∉ O)
    (hb : (⟨x, i⟩ : Block).buddy ∈ freeBlocks F) :
    ∃ F', BuddyInv (h.buddyListRemove (pageAddr (x ^^^ 2 ^ i)) i) F'
        (insert (⟨x, i⟩ : Block).join O) ∧
      (⟨x, i⟩ : Block).join ∉ O ∧ freeBlocks F' ⊆ freeBlocks F ∧
      ChangedOnly (freePages F) h (h.buddyListRemove (pageAddr (x ^^^ 2 ^ i)) i) := by
  have hbx : (⟨x, i⟩ : Block) ∈ freeBlocks F ∪ insert ⟨x, i⟩ O := Or.inr (Or.inl rfl)
  have hi : i ≤ 12 := inv.order_le hbx
  obtain ⟨pre, post, hF⟩ := List.append_of_mem hb.2
  change F i = pre ++ (x ^^^ 2 ^ i) :: post at hF
  obtain ⟨hlists, hmeta, hch⟩ := inv.lists.remove hi hF
  have hrem := mem_freeBlocks_remove hF (inv.lists.nodup hi)
  have hjO : (⟨x, i⟩ : Block).join ∉ O := by
    intro hm
    have hcov := (Block.covers_join (inv.tiling.aligned _ hbx) x).mpr (Or.inl (Block.covers_start _))
    have he := inv.tiling.disjoint _ (Or.inr (Or.inr hm)) _ hbx x hcov (Block.covers_start _)
    have : i + 1 = i := congrArg Block.order he
    omega
  refine ⟨_, ⟨hlists, ?_, ?_, ?_⟩, hjO, fun c hc => ((hrem c).mp hc).1, hch.mono ?_⟩
  · refine inv.tiling.merge hbx (Or.inl hb) ?_
    intro c
    simp only [Set.mem_union, Set.mem_insert_iff, hrem]
    constructor
    · rintro (⟨hc, hcb⟩ | rfl | hc)
      · refine Or.inl ⟨Or.inl hc, ?_, hcb⟩
        rintro rfl
        exact inv.notMem_owned hc (Or.inl rfl)
      · exact Or.inr rfl
      · refine Or.inl ⟨Or.inr (Or.inr hc), ?_, ?_⟩
        · rintro rfl
          exact hx hc
        · rintro rfl
          exact inv.notMem_owned hb (Or.inr hc)
    · rintro (⟨hc | rfl | hc, h1, h2⟩ | rfl)
      · exact Or.inl ⟨hc, h2⟩
      · exact absurd rfl h1
      · exact Or.inr (Or.inr hc)
      · exact Or.inr (Or.inl rfl)
  · intro c hc
    rw [hmeta]
    by_cases hcx : c.start = x ^^^ 2 ^ i
    · rw [hcx, Function.update_self]
    · rw [Function.update_of_ne hcx]
      rcases hc with rfl | hc
      · have hs : (⟨x, i⟩ : Block).join.start = x := by
          rcases min_choice x (x ^^^ 2 ^ i) with hm | hm
          · exact hm
          · exact absurd hm hcx
        rw [hs]
        exact inv.owned ⟨x, i⟩ (Or.inl rfl)
      · exact inv.owned c (Or.inr hc)
  · intro c hc hco hcb
    exact inv.coalesced c ((hrem c).mp hc).1 hco ((hrem _).mp hcb).1
  · exact fun p hp => ⟨⟨p, i⟩, ⟨hi, hp⟩, Block.covers_start _⟩

/-- Putting a block in transit on its list, once its buddy is known to be busy. -/
theorem put {x i : ℕ} (inv : BuddyInv h F (insert ⟨x, i⟩ O)) (hx : (⟨x, i⟩ : Block) ∉ O)
    (hb : i < 12 → (⟨x, i⟩ : Block).buddy ∉ freeBlocks F) :
    BuddyInv (h.buddyListAdd (pageAddr x) i) (Function.update F i (x :: F i)) O ∧
      ChangedOnly (freePages F ∪ {p | (⟨x, i⟩ : Block).Covers p}) h (h.buddyListAdd (pageAddr x) i) := by
  have hbx : (⟨x, i⟩ : Block) ∈ freeBlocks F ∪ insert ⟨x, i⟩ O := Or.inr (Or.inl rfl)
  have hi : i ≤ 12 := inv.order_le hbx
  have hxfree := inv.owned ⟨x, i⟩ (Or.inl rfl)
  obtain ⟨hlists, hmeta, hch⟩ := inv.lists.add hi (inv.start_lt hbx) hxfree
  refine ⟨⟨hlists, inv.tiling.congr ?_, ?_, ?_⟩, hch.mono ?_⟩
  · intro c
    simp only [Set.mem_union, Set.mem_insert_iff, mem_freeBlocks_add hi, or_assoc]
  · intro c hc
    have hne : c.start ≠ x := by
      intro he
      have he' := inv.tiling.eq_of_start (Or.inr (Or.inr hc)) hbx he
      exact hx (he' ▸ hc)
    rw [hmeta, Function.update_of_ne hne]
    exact inv.owned c (Or.inr hc)
  · intro c hc hco hcb
    rw [mem_freeBlocks_add hi] at hc hcb
    rcases hc with hc | rfl
    · rcases hcb with hcb | hcb
      · exact inv.coalesced c hc hco hcb
      · have ho : c.order = i := congrArg Block.order hcb
        refine hb (ho ▸ hco) ?_
        rw [← hcb, Block.buddy_buddy]
        exact hc
    · rcases hcb with hcb | hcb
      · exact hb hco hcb
      · exact Block.buddy_ne _ hcb
  · rintro p (rfl | hp)
    · exact Or.inr (Block.covers_start _)
    · exact Or.inl ⟨⟨p, i⟩, ⟨hi, hp⟩, Block.covers_start _⟩

/-- The freeing loop releases the block in transit, whatever it is joined with. -/
theorem coalesce {x : ℕ} (n i : ℕ) (hn : n + i = 12) (inv : BuddyInv h F (insert ⟨x, i⟩ O))
    (hx : (⟨x, i⟩ : Block) ∉ O) :
    ∃ F', BuddyInv (h.coalesce n (pageAddr x) i) F' O ∧
      ChangedOnly (freePages F ∪ {p | (⟨x, i⟩ : Block).Covers p}) h (h.coalesce n (pageAddr x) i) := by
  induction n generalizing h F x i with
  | zero =>
    obtain ⟨inv', hch⟩ := inv.put hx (by intro hlt; omega)
    exact ⟨_, inv', hch⟩
  | succ n ih =>
    have hbx : (⟨x, i⟩ : Block) ∈ freeBlocks F ∪ insert ⟨x, i⟩ O := Or.inr (Or.inl rfl)
    have hxlt : x < 4096 := inv.start_lt hbx
    have hylt : x ^^^ 2 ^ i < 4096 := xor_two_pow_lt hxlt (by omega)
    rw [Heap.coalesce, pageAddr_xor hxlt (by omega), pageIndex_pageAddr hylt]
    split_ifs with hm hlt
    all_goals try
      have hbf : (⟨x, i⟩ : Block).buddy ∈ freeBlocks F := by
        obtain ⟨ho, hin⟩ := inv.lists.listed _ hylt hm.1
        rw [hm.2] at ho hin
        exact ⟨ho, hin⟩
      obtain ⟨F₁, inv₁, hjO, hsub, hch₁⟩ := inv.join hx hbf
      have hcov := Block.covers_join (inv.tiling.aligned _ hbx)
      have hstart : (⟨x, i⟩ : Block).join = ⟨min x (x ^^^ 2 ^ i), i + 1⟩ := rfl
      have hpages : freePages F₁ ∪ {p | (⟨x, i⟩ : Block).join.Covers p} ⊆
          freePages F ∪ {p | (⟨x, i⟩ : Block).Covers p} := by
        rintro p (⟨c, hc, hcp⟩ | hp)
        · exact Or.inl ⟨c, hsub hc, hcp⟩
        · rcases (hcov p).mp hp with hp | hp
          · exact Or.inr hp
          · exact Or.inl ⟨_, hbf, hp⟩
    · have hmin : min x (x ^^^ 2 ^ i) = x ^^^ 2 ^ i := by
        refine min_eq_right ?_
        simp only [pageAddr_eq] at hlt
        omega
      rw [hstart, hmin] at inv₁ hjO hpages
      obtain ⟨F', inv', hch'⟩ := ih (i + 1) (by omega) inv₁ hjO
      exact ⟨F', inv', (hch₁.mono Set.subset_union_left).trans (hch'.mono hpages)⟩
    · have hmin : min x (x ^^^ 2 ^ i) = x := by
        refine min_eq_left ?_
        simp only [pageAddr_eq] at hlt
        omega
      rw [hstart, hmin] at inv₁ hjO hpages
      obtain ⟨F', inv', hch'⟩ := ih (i + 1) (by omega) inv₁ hjO
      exact ⟨F', inv', (hch₁.mono Set.subset_union_left).trans (hch'.mono hpages)⟩
    · obtain ⟨inv', hch⟩ := inv.put hx (by
        intro _ hbf
        exact hm (inv.lists.marked i hbf.1 _ hbf.2))
      exact ⟨_, inv', hch⟩

/-- `buddy_free` of a block in use whose order is on record. -/
theorem buddyFree {x k : ℕ} (inv : BuddyInv h F (insert ⟨x, k⟩ O)) (hx : (⟨x, k⟩ : Block) ∉ O)
    (hrec : (h.metadata x).order = k) :
    ∃ F', BuddyInv (h.buddyFree (pageAddr x)) F' O ∧
      ChangedOnly (freePages F ∪ {p | (⟨x, k⟩ : Block).Covers p}) h (h.buddyFree (pageAddr x)) := by
  have hbx : (⟨x, k⟩ : Block) ∈ freeBlocks F ∪ insert ⟨x, k⟩ O := Or.inr (Or.inl rfl)
  have hk : k ≤ 12 := inv.order_le hbx
  rw [Heap.buddyFree, pageIndex_pageAddr (inv.start_lt hbx), hrec]
  exact inv.coalesce (12 - k) k (by omega) hx

/-- Bytes of pages in use may change freely. -/
theorem congr {h' : Heap} (inv : BuddyInv h F O) (ha : h'.freeAreas = h.freeAreas)
    (hmeta : h'.metadata = h.metadata)
    (hm : ∀ i ∈ freePages F, ∀ a, inPage i a → h'.mem a = h.mem a) : BuddyInv h' F O := by
  refine ⟨inv.lists.congr ha ?_ (fun _ _ => by rw [hmeta]) (fun _ _ _ => by rw [hmeta]), inv.tiling,
    by rw [hmeta]; exact inv.owned, inv.coalesced⟩
  intro k hk i hi a ha
  refine hm i ⟨⟨i, k⟩, ⟨hk, hi⟩, Block.covers_start _⟩ a ?_
  simp only [bytes, Set.mem_Ico] at ha
  exact ⟨ha.1, by omega⟩

end BuddyInv

/-- After `init_buddy` the whole heap is one free block. -/
theorem initBuddy_inv (h : Heap) :
    BuddyInv h.initBuddy (Function.update (fun _ => []) 12 [0]) ∅ := by
  let h₁ : Heap := { h with
    freeAreas := fun i => if i ≤ maxOrders then 0 else h.freeAreas i
    metadata := fun i => if i < totalPages then ⟨0, false, false⟩ else h.metadata i }
  have hnone : FreeLists h₁ (fun _ => []) := by
    refine ⟨fun k hk => ?_, by simp, by simp, fun i hi hfr => ?_⟩
    · have hf : h₁.freeAreas k = 0 := if_pos hk
      rw [hf]
      exact IsList.nil
    · have hm : h₁.metadata i = ⟨0, false, false⟩ := if_pos hi
      rw [hm] at hfr
      cases hfr
  have hm0 : (h₁.metadata 0).isFree = false := rfl
  obtain ⟨hlists, _, _⟩ := hnone.add (k := 12) (x := 0) (by omega) (by omega) hm0
  have hfree : ∀ c, c ∈ freeBlocks (Function.update (fun _ => []) 12 [0]) ↔ c = ⟨0, 12⟩ := by
    intro c
    rw [mem_freeBlocks_add (by omega)]
    simp [freeBlocks]
  refine ⟨hlists, (Tiling.single 12).congr ?_, by simp, ?_⟩
  · intro c
    simp [hfree]
  · intro c hc hco
    rw [hfree] at hc
    subst hc
    simp at hco

end PointerOS
