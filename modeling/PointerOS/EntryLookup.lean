import PointerOS.Vmm

/-!
# The lookup of an entry

`vmm_get_entry` beside the walk of the processor: the entry that ends the walk, and its level, which
is the size of the mapping. The lookup does not test the entry of a page table, and it reports pages
of 1 GB and of 2 MB with one level.
-/
namespace PointerOS

namespace Tables

/-- The entry that ends the walk, with its level. -/
def leafFrom (T : Tables) (v : ℕ) : ℕ → ℕ → Option EntryAt
  | 0, f => if present (T f (index v 0)) then some ⟨f, index v 0, 0⟩ else none
  | n + 1, f =>
    if present (T f (index v (n + 1))) then
      if pageSize (T f (index v (n + 1))) then
        if n + 1 = 3 then none else some ⟨f, index v (n + 1), n + 1⟩
      else leafFrom T v n (entryFrame (T f (index v (n + 1))))
    else none

def walkLeaf (T : Tables) (pml4 v : ℕ) : Option EntryAt := T.leafFrom v 3 pml4

variable {T : Tables} {v pml4 : ℕ}

/-- The walk takes the address from the entry that ends it. -/
theorem walkFrom_leaf (n f : ℕ) : (T.walkFrom v n f).map Translation.paddr =
    (T.leafFrom v n f).map fun e => (leaf (T e.table e.idx) v e.level).paddr := by
  induction n generalizing f with
  | zero =>
    rw [walkFrom, leafFrom]
    split_ifs <;> rfl
  | succ n ih =>
    rw [walkFrom, leafFrom]
    split_ifs
    · rfl
    · rfl
    · rw [Option.map_map]
      exact ih _
    · rfl

theorem walk_eq_none_iff : T.walk pml4 v = none ↔ T.walkLeaf pml4 v = none := by
  rw [← Option.map_eq_none_iff (f := Translation.paddr), walk, walkFrom_leaf, Option.map_eq_none_iff]
  rfl

end Tables

/-- No entry has bits that lie beyond the physical address. -/
def Bounded (T : Tables) : Prop := ∀ f i, T f i < 2 ^ 52

/-- The lookup of `v` finds what the walk uses, with a level that no mapping of another size has. -/
structure EntryAgrees (T : Tables) (pml4 v : ℕ) : Prop where
  null : vmmGetEntry T pml4 v = none ↔ T.walk pml4 v = none
  entry : ∀ e, vmmGetEntry T pml4 v = some e →
    ∃ l, T.walkLeaf pml4 v = some l ∧ e.table = l.table ∧ e.idx = l.idx
  level : ∀ e l, vmmGetEntry T pml4 v = some e → T.walkLeaf pml4 v = some l →
    ∀ (T' : Tables) (pml4' v' : ℕ) (e' l' : EntryAt), Bounded T' → vmmGetEntry T' pml4' v' = some e' →
      T'.walkLeaf pml4' v' = some l' → e'.level = e.level → l'.level = l.level

/-- The path to `v` from a table of level `n` meets no large page, and an entry in a page table only
if it is present. -/
def LookupFits (T : Tables) (v : ℕ) : ℕ → ℕ → Prop
  | 0, f => present (T f (index v 0)) = true
  | n + 1, f => present (T f (index v (n + 1))) = true →
    pageSize (T f (index v (n + 1))) = false ∧ LookupFits T v n (entryFrame (T f (index v (n + 1))))

/-- Tables that lead to a large page in the `n`th table from the one at `0x1000` on. -/
def largeAt (n : ℕ) : Tables := fun f _ => if f < 0x1000 * n then f + 0x1003 else 0x83

theorem largeAt_bounded {n : ℕ} (hn : n ≤ 3) : Bounded (largeAt n) := by
  intro f i
  unfold largeAt
  split_ifs <;> omega

section Lookup
variable {T : Tables} {pml4 v : ℕ}

/-- What the lookup does, level by level. -/
inductive Lookup (T : Tables) (pml4 v : ℕ) : Prop
  | absent (hget : vmmGetEntry T pml4 v = none) (hleaf : T.walkLeaf pml4 v = none) (hfits : LookupFits T v 3 pml4)
  | root (e : EntryAt) (hget : vmmGetEntry T pml4 v = some e) (hleaf : T.walkLeaf pml4 v = none)
      (hfits : ¬LookupFits T v 3 pml4)
  | large (t : ℕ) (i : Fin 512) (n : ℕ) (hn : n = 1 ∨ n = 2) (hget : vmmGetEntry T pml4 v = some ⟨t, i, 2⟩)
      (hleaf : T.walkLeaf pml4 v = some ⟨t, i, n⟩) (hfits : ¬LookupFits T v 3 pml4)
  | small (t : ℕ) (i : Fin 512) (hget : vmmGetEntry T pml4 v = some ⟨t, i, 0⟩)
      (hleaf : T.walkLeaf pml4 v = if present (T t i) then some ⟨t, i, 0⟩ else none)
      (hfits : LookupFits T v 3 pml4 ↔ present (T t i) = true)

theorem lookup (hT : Bounded T) (pml4 v : ℕ) : Lookup T pml4 v := by
  have hf : ∀ f i, maskPage (T f i) = entryFrame (T f i) := fun f i => (entryFrame_eq_maskPage (hT f i)).symm
  by_cases h3 : present (T pml4 (index v 3)) = true
  swap
  · exact .absent (by simp [vmmGetEntry, h3]) (by simp [Tables.walkLeaf, Tables.leafFrom, h3]) (by simp [LookupFits, h3])
  by_cases s3 : pageSize (T pml4 (index v 3)) = true
  · exact .root ⟨pml4, index v 3, 3⟩ (by simp [vmmGetEntry, h3, s3])
      (by simp [Tables.walkLeaf, Tables.leafFrom, h3, s3]) (by simp [LookupFits, h3, s3])
  obtain ⟨f, hf3⟩ : ∃ f, f = entryFrame (T pml4 (index v 3)) := ⟨_, rfl⟩
  by_cases h2 : present (T f (index v 2)) = true
  swap
  · exact .absent (by simp [vmmGetEntry, h3, s3, hf, ← hf3, h2])
      (by simp [Tables.walkLeaf, Tables.leafFrom, h3, s3, ← hf3, h2]) (by simp [LookupFits, h3, s3, ← hf3, h2])
  by_cases s2 : pageSize (T f (index v 2)) = true
  · exact .large f (index v 2) 2 (.inr rfl) (by simp [vmmGetEntry, h3, s3, hf, ← hf3, h2, s2])
      (by simp [Tables.walkLeaf, Tables.leafFrom, h3, s3, ← hf3, h2, s2])
      (by simp [LookupFits, h3, s3, ← hf3, h2, s2])
  obtain ⟨g, hf2⟩ : ∃ g, g = entryFrame (T f (index v 2)) := ⟨_, rfl⟩
  by_cases h1 : present (T g (index v 1)) = true
  swap
  · exact .absent (by simp [vmmGetEntry, h3, s3, hf, ← hf3, h2, s2, ← hf2, h1])
      (by simp [Tables.walkLeaf, Tables.leafFrom, h3, s3, ← hf3, h2, s2, ← hf2, h1])
      (by simp [LookupFits, h3, s3, ← hf3, h2, s2, ← hf2, h1])
  by_cases s1 : pageSize (T g (index v 1)) = true
  · exact .large g (index v 1) 1 (.inl rfl) (by simp [vmmGetEntry, h3, s3, hf, ← hf3, h2, s2, ← hf2, h1, s1])
      (by simp [Tables.walkLeaf, Tables.leafFrom, h3, s3, ← hf3, h2, s2, ← hf2, h1, s1])
      (by simp [LookupFits, h3, s3, ← hf3, h2, s2, ← hf2, h1, s1])
  · exact .small (entryFrame (T g (index v 1))) (index v 0)
      (by simp [vmmGetEntry, h3, s3, hf, ← hf3, h2, s2, ← hf2, h1, s1])
      (by simp [Tables.walkLeaf, Tables.leafFrom, h3, s3, ← hf3, h2, s2, ← hf2, h1, s1])
      (by simp [LookupFits, h3, s3, ← hf3, h2, s2, ← hf2, h1, s1])

end Lookup

theorem largeAt_get : vmmGetEntry (largeAt 2) 0x1000 0 = some ⟨0x2000, 0, 2⟩ ∧
    vmmGetEntry (largeAt 3) 0x1000 0 = some ⟨0x3000, 0, 2⟩ ∧
    (largeAt 2).walkLeaf 0x1000 0 = some ⟨0x2000, 0, 2⟩ ∧ (largeAt 3).walkLeaf 0x1000 0 = some ⟨0x3000, 0, 1⟩ := by
  decide

/-- The lookup agrees with the walk exactly on the paths that meet no large page, and an entry in a page
table only if it is present. -/
theorem vmm_get_entry_agrees_iff {T : Tables} (hT : Bounded T) (pml4 v : ℕ) :
    EntryAgrees T pml4 v ↔ LookupFits T v 3 pml4 := by
  rcases lookup hT pml4 v with ⟨hget, hleaf, hfits⟩ | ⟨e, hget, hleaf, hfits⟩ | ⟨t, i, n, hn, hget, hleaf, hfits⟩ |
    ⟨t, i, hget, hleaf, hfits⟩
  · refine iff_of_true ⟨iff_of_true hget (Tables.walk_eq_none_iff.mpr hleaf), ?_, ?_⟩ hfits
    · exact fun e he => nomatch hget.symm.trans he
    · exact fun e l he => nomatch hget.symm.trans he
  · refine iff_of_false (fun h => ?_) hfits
    have hnone := h.null.mpr (Tables.walk_eq_none_iff.mpr hleaf)
    exact nomatch hget.symm.trans hnone
  · -- the pages of the other size have the same level
    refine iff_of_false (fun h => ?_) hfits
    obtain ⟨h2, h3, l2, l3⟩ := largeAt_get
    have hlevel := h.level _ _ hget hleaf
    rcases hn with rfl | rfl
    · exact absurd (hlevel _ _ _ _ _ (largeAt_bounded (by decide)) h2 l2 rfl) (by simp)
    · exact absurd (hlevel _ _ _ _ _ (largeAt_bounded (by decide)) h3 l3 rfl) (by simp)
  · rw [hfits]
    constructor
    · intro h
      by_contra hp
      rw [if_neg hp] at hleaf
      have hnone := h.null.mpr (Tables.walk_eq_none_iff.mpr hleaf)
      exact nomatch hget.symm.trans hnone
    · intro hp
      rw [if_pos hp] at hleaf
      refine ⟨⟨fun hn => ?_, fun hn => ?_⟩, fun e he => ?_, fun e l he hl T' pml4' v' e' l' hT' he' hl' hlevel => ?_⟩
      · exact nomatch hget.symm.trans hn
      · exact nomatch hleaf.symm.trans (Tables.walk_eq_none_iff.mp hn)
      · obtain rfl := Option.some.inj (hget.symm.trans he)
        exact ⟨_, hleaf, rfl, rfl⟩
      · obtain rfl := Option.some.inj (hget.symm.trans he)
        obtain rfl := Option.some.inj (hleaf.symm.trans hl)
        -- only entries of page tables have the level 0
        rcases lookup hT' pml4' v' with ⟨hget', -, -⟩ | ⟨d, hget', hleaf', -⟩ | ⟨t', i', n, hn, hget', -, -⟩ |
          ⟨t', i', hget', hleaf', -⟩
        · exact nomatch hget'.symm.trans he'
        · exact nomatch hleaf'.symm.trans hl'
        · obtain rfl := Option.some.inj (hget'.symm.trans he')
          exact nomatch hlevel
        · rw [hleaf'] at hl'
          split_ifs at hl'
          obtain rfl := Option.some.inj hl'
          rfl

/-- Tables that lead through the second entry of each to a page table at `0x4000` that is full. -/
def pageAt : Tables := fun f i => if 0x4000 ≤ f then i.val * 0x1000 ||| 3 else if i.val = 1 then f + 0x1003 else 0

theorem pageAt_bounded : Bounded pageAt := by
  intro f i
  unfold pageAt
  split_ifs
  · exact Nat.or_lt_two_pow (by omega) (by decide)
  · omega
  · omega

/-- The third page below the second entries, and the address 0, which has no table. -/
theorem vmm_get_entry_agrees_iff_page :
    vmmGetEntry pageAt 0x1000 0x8040202ABC = some ⟨0x4000, 2, 0⟩ ∧
    pageAt.walk 0x1000 0x8040202ABC = some ⟨0x2ABC, true, false⟩ ∧ EntryAgrees pageAt 0x1000 0x8040202ABC ∧
    EntryAgrees pageAt 0x1000 0 := by
  refine ⟨by decide, by decide, (vmm_get_entry_agrees_iff pageAt_bounded 0x1000 0x8040202ABC).mpr ?_,
    (vmm_get_entry_agrees_iff pageAt_bounded 0x1000 0).mpr fun h => nomatch h⟩
  have hlink : entryFrame (pageAt 0x1000 (index 0x8040202ABC 3)) = 0x2000 ∧
      entryFrame (pageAt 0x2000 (index 0x8040202ABC 2)) = 0x3000 ∧
      entryFrame (pageAt 0x3000 (index 0x8040202ABC 1)) = 0x4000 := by decide
  obtain ⟨h3, h2, h1⟩ := hlink
  simp only [LookupFits, h3, h2, h1]
  decide

/-- The lookup of an address without a page gives the entry of its page table. -/
theorem vmm_get_entry_absent_page :
    ¬∀ (T : Tables) (pml4 v : ℕ), Bounded T → EntryAgrees T pml4 v := by
  intro h
  have hbounded : Bounded fun f _ => if f < 0x4000 then f + 0x1003 else 0 := fun f i => by
    dsimp only
    split_ifs <;> omega
  have hnull := (h _ 0x1000 0 hbounded).null
  revert hnull
  decide

end PointerOS
