import PointerOS.EntryLookup
import PointerOS.MappingLaw

/-!
# A small page in a large one

`vmm_map_page` does not look at the page-size bit. A request for a page of 4 KB in a mapping of 2 MB
takes the first page of the large one for a page table and stores an entry there. The stores of a
call are listed beside it.
-/
namespace PointerOS
open Tables

/-- A word of a table, or of any other page. -/
abbrev Cell := ℕ × Fin 512

namespace Vm
variable {σ : Type*} (alloc : σ → ℕ × σ)

/-- The cells that the block at the entry `i` of `t` stores to: a new table and its link, or the user
bit. -/
def nextTableStores (vm : Vm σ) (t : ℕ) (i : Fin 512) (flags : ℕ) : Set Cell :=
  if present (vm.tables t i) = false then {c | c.1 = (alloc vm.pmm).1 ∨ c = (t, i)}
  else if userBit flags then {(t, i)}
  else ∅

def vmmMapPageStores (vm : Vm σ) (pml4 vaddr ps flags : ℕ) : Set Cell :=
  let (pdpt, vm₂) := nextTable alloc vm pml4 (index vaddr 3) flags
  let (pd, vm₁) := nextTable alloc vm₂ pdpt (index vaddr 2) flags
  let upper := nextTableStores alloc vm pml4 (index vaddr 3) flags ∪ nextTableStores alloc vm₂ pdpt (index vaddr 2) flags
  if ps = pageSize4KB then
    upper ∪ nextTableStores alloc vm₁ pd (index vaddr 1) flags ∪
      {((nextTable alloc vm₁ pd (index vaddr 1) flags).1, index vaddr 0)}
  else if ps = pageSize2MB then upper ∪ {(pd, index vaddr 1)}
  else upper

variable {alloc} {vm : Vm σ} {t : ℕ} {i : Fin 512} {flags : ℕ} {c : Cell}

theorem nextTable_keeps (hc : c ∉ nextTableStores alloc vm t i flags) :
    (nextTable alloc vm t i flags).2.tables c.1 c.2 = vm.tables c.1 c.2 := by
  unfold nextTableStores at hc
  cases hp : present (vm.tables t i) with
  | false =>
    rw [if_pos hp, Set.mem_ofPred_eq, not_or] at hc
    obtain ⟨a, -, -, -, -, heq⟩ := nextTable_absent alloc flags hp
    rw [heq]
    dsimp only
    rw [setEntry_of_ne _ _ fun h => hc.2 (Prod.ext h.1 h.2), zeroTable_of_ne _ _ hc.1]
  | true =>
    rw [if_neg (by simp [hp])] at hc
    rw [nextTable_present hp]
    cases hu : userBit flags with
    | true =>
      rw [hu, if_pos rfl, Set.mem_singleton_iff] at hc
      exact setEntry_of_ne _ _ fun h => hc (Prod.ext h.1 h.2)
    | false => rfl

/-- A call changes the cells that it stores to, and no others. -/
theorem vmmMapPage_keeps {pml4 paddr vaddr ps : ℕ} (hc : c ∉ vmmMapPageStores alloc vm pml4 vaddr ps flags) :
    (vmmMapPage alloc vm pml4 paddr vaddr ps flags).tables c.1 c.2 = vm.tables c.1 c.2 := by
  obtain ⟨N₂, h₂⟩ : ∃ N₂, N₂ = nextTable alloc vm pml4 (index vaddr 3) flags := ⟨_, rfl⟩
  obtain ⟨N₁, h₁⟩ : ∃ N₁, N₁ = nextTable alloc N₂.2 N₂.1 (index vaddr 2) flags := ⟨_, rfl⟩
  unfold vmmMapPageStores at hc
  unfold vmmMapPage
  simp only [← h₂, ← h₁] at hc ⊢
  have hupper : c ∉ nextTableStores alloc vm pml4 (index vaddr 3) flags ∪
      nextTableStores alloc N₂.2 N₂.1 (index vaddr 2) flags → N₁.2.tables c.1 c.2 = vm.tables c.1 c.2 := by
    intro hc
    rw [Set.mem_union, not_or] at hc
    rw [h₁, nextTable_keeps hc.2, h₂, nextTable_keeps hc.1]
  split_ifs at hc ⊢
  · rw [Set.mem_union, not_or, Set.mem_singleton_iff, Set.mem_union, not_or] at hc
    exact (setEntry_of_ne _ _ fun h => hc.2 (Prod.ext h.1 h.2)).trans
      ((nextTable_keeps hc.1.2).trans (hupper hc.1.1))
  · rw [Set.mem_union, not_or, Set.mem_singleton_iff] at hc
    exact (setEntry_of_ne _ _ fun h => hc.2 (Prod.ext h.1 h.2)).trans (hupper hc.1)
  · exact hupper hc

variable (alloc) in
/-- Where there is a table already, the block leaves the frames of all entries as they are. -/
theorem nextTable_same (hp : present (vm.tables t i) = true) (flags : ℕ) :
    (nextTable alloc vm t i flags).1 = maskPage (vm.tables t i) ∧
      ∀ f j, present ((nextTable alloc vm t i flags).2.tables f j) = present (vm.tables f j) ∧
        maskPage ((nextTable alloc vm t i flags).2.tables f j) = maskPage (vm.tables f j) := by
  rw [nextTable_present hp]
  refine ⟨rfl, fun f j => ?_⟩
  split_ifs
  · by_cases h : f = t ∧ j = i
    · obtain ⟨rfl, rfl⟩ := h
      simp only [setEntry, Tables.setEntry_same, present_or, present_pteUser, Bool.or_false, maskPage_or_user,
        and_self]
    · simp only [setEntry, setEntry_of_ne _ _ h, and_self]
  · exact ⟨rfl, rfl⟩

end Vm

section Large
variable {σ : Type*} {alloc : σ → ℕ × σ} {vm : Vm σ} {r v t : ℕ} {i : Fin 512}

/-- The page of `v` is a large one with the entry `i` of the page directory `t`. -/
def InLargePage (T : Tables) (r v t : ℕ) (i : Fin 512) : Prop := T.walkLeaf r v = some ⟨t, i, 1⟩

/-- The physical address of a large page. -/
def largeBase (e : ℕ) : ℕ := e / 2 ^ 21 % 2 ^ 31 * 2 ^ 21

/-- What a request for a page of 4 KB in the large page with the entry `e` owes. -/
structure SmallInLarge (alloc : σ → ℕ × σ) (vm : Vm σ) (r paddr v flags e : ℕ) : Prop where
  outcome : ((vm.vmmMapPage alloc r paddr v pageSize4KB flags).tables.walk r v =
        some ⟨paddr + v % 4096, writable flags, userBit flags⟩ ∧
      ∀ w, SamePage pageSize2MB v w → ¬SamePage pageSize4KB v w →
        (vm.vmmMapPage alloc r paddr v pageSize4KB flags).tables.walk r w = vm.tables.walk r w) ∨
    (vm.vmmMapPage alloc r paddr v pageSize4KB flags).tables = vm.tables
  untouched : ∀ c ∈ vm.vmmMapPageStores alloc r v pageSize4KB flags,
    ¬(largeBase e ≤ c.1 ∧ c.1 < largeBase e + pageSize2MB)

/-- The tables above a large page. -/
theorem InLargePage.path {T : Tables} (h : InLargePage T r v t i) : ∃ f, T.child r (index v 3) = some f ∧
    T.child f (index v 2) = some t ∧ i = index v 1 ∧ present (T t i) = true := by
  unfold InLargePage walkLeaf at h
  rw [leafFrom] at h
  split_ifs at h with p3 s3 n3
  · exact absurd rfl n3
  rw [leafFrom] at h
  split_ifs at h with p2 s2
  · exact absurd (congrArg EntryAt.level (Option.some.inj h)) (by simp)
  rw [leafFrom] at h
  split_ifs at h with p1 s1
  · obtain ⟨rfl, rfl, -⟩ := EntryAt.mk.inj (Option.some.inj h)
    exact ⟨_, child_eq_some.mpr ⟨p3, by simpa using s3, rfl⟩, child_eq_some.mpr ⟨p2, by simpa using s2, rfl⟩, rfl, p1⟩
  · rw [leafFrom] at h
    split_ifs at h
    exact absurd (congrArg EntryAt.level (Option.some.inj h)) (by simp)

theorem maskPage_in_largeBase {e : ℕ} (he : e < 2 ^ 52) :
    largeBase e ≤ maskPage e ∧ maskPage e < largeBase e + pageSize2MB := by
  unfold largeBase maskPage pageSize2MB
  omega

/-- The call stores the entry into the large page. -/
theorem PageTree.stores_large (h : PageTree vm.tables r) (hv : InLargePage vm.tables r v t i) (flags : ℕ) :
    (maskPage (vm.tables t i), index v 0) ∈ vm.vmmMapPageStores alloc r v pageSize4KB flags := by
  obtain ⟨f, hc3, hc2, rfl, hp1⟩ := hv.path
  obtain ⟨hp3, hs3, rfl⟩ := child_eq_some.mp hc3
  obtain ⟨hp2, hs2, rfl⟩ := child_eq_some.mp hc2
  have hroot : vm.tables.Owned {r} Set.univ r [] r := owned_root rfl
  have hw3 := entryFrame_eq_maskPage ((h.tables.entries hroot _ (fun _ => trivial) hp3).2 (by simp) hs3)
  have ho2 := hroot.concat (fun _ => trivial) (by simp) hc3
  have hw2 := entryFrame_eq_maskPage ((h.tables.entries ho2 _ (fun hn => nomatch hn) hp2).2 (by simp) hs2)
  rw [hw2] at hp1 ⊢
  rw [hw3] at hp2 hp1 ⊢
  -- the blocks of the three levels find a present entry each
  obtain ⟨h3, hsame3⟩ := Vm.nextTable_same alloc hp3 flags
  obtain ⟨N₂, hN₂⟩ : ∃ N₂, N₂ = Vm.nextTable alloc vm r (index v 3) flags := ⟨_, rfl⟩
  rw [← hN₂] at h3 hsame3
  have hp2' : present (N₂.2.tables N₂.1 (index v 2)) = true := by
    rw [(hsame3 _ _).1, h3]
    exact hp2
  obtain ⟨h2, hsame2⟩ := Vm.nextTable_same alloc hp2' flags
  obtain ⟨N₁, hN₁⟩ : ∃ N₁, N₁ = Vm.nextTable alloc N₂.2 N₂.1 (index v 2) flags := ⟨_, rfl⟩
  rw [← hN₁] at h2 hsame2
  have hN1 : N₁.1 = maskPage (vm.tables (maskPage (vm.tables r (index v 3))) (index v 2)) := by
    rw [h2, (hsame3 _ _).2, h3]
  have hp1' : present (N₁.2.tables N₁.1 (index v 1)) = true := by
    rw [(hsame2 _ _).1, (hsame3 _ _).1, hN1]
    exact hp1
  obtain ⟨h1, -⟩ := Vm.nextTable_same alloc hp1' flags
  unfold Vm.vmmMapPageStores
  simp only [← hN₂, ← hN₁, if_true]
  refine Set.mem_union_right _ ?_
  rw [Set.mem_singleton_iff, h1, (hsame2 _ _).2, (hsame3 _ _).2, hN1]

/-- Every request for a page of 4 KB in a large page stores into the large page. -/
theorem vmm_map_page_damages_large (h : TreeReachable alloc vm r) (hv : InLargePage vm.tables r v t i)
    (he : vm.tables t i < 2 ^ 52) (paddr flags : ℕ) : ¬SmallInLarge alloc vm r paddr v flags (vm.tables t i) :=
  fun hok => hok.untouched _ (h.tree.stores_large hv flags) (maskPage_in_largeBase he)

end Large

theorem directMapped_large : InLargePage directMapped.2.tables 0x10000 directOffset 0x12000 0 := by
  unfold InLargePage
  decide +kernel

theorem vmm_map_page_damages_large_direct :
    ¬SmallInLarge nextFrame directMapped.2 0x10000 0x300000 directOffset pteWritable
      (directMapped.2.tables 0x12000 0) :=
  vmm_map_page_damages_large directMapped_reachable directMapped_large (by decide +kernel) 0x300000 pteWritable

/-- The first word of the page of 2 MB becomes the entry, and the address keeps its translation. -/
theorem vmm_map_page_writes_large_page : ¬∀ (vm : Vm ℕ) (r v paddr flags t : ℕ) (i : Fin 512),
    TreeReachable nextFrame vm r → InLargePage vm.tables r v t i → vm.tables t i < 2 ^ 52 →
      SmallInLarge nextFrame vm r paddr v flags (vm.tables t i) := by
  intro h
  have hok := h directMapped.2 0x10000 directOffset 0x300000 pteWritable 0x12000 0 directMapped_reachable
    directMapped_large (by decide +kernel)
  rcases hok.outcome with ⟨hwalk, -⟩ | hsame
  · revert hwalk
    decide +kernel
  · have hword := congrFun (congrFun hsame 0) 0
    revert hword
    decide +kernel

end PointerOS
