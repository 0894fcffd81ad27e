import PointerOS.ReservedFrames

/-!
# Running out of frames

`pmm_alloc_page` returns 0 when no frame is free, and no caller in `vmm.c`, `vmalloc.c` and
`stack.c` looks at it: frame 0 is linked as a table or mapped as a page.
-/
namespace PointerOS
open Tables FrameSource

namespace Vm
variable {σ : Type*} (alloc : σ → ℕ × σ)

/-- The entry that the block of one level makes for a new table. -/
def blockEntries (vm : Vm σ) (t : ℕ) (i : Fin 512) (flags : ℕ) : List ℕ :=
  if present (vm.tables t i) then [] else [(nextTable alloc vm t i flags).2.tables t i]

/-- The entries that a call of `vmm_map_page` makes, in order. -/
def mapEntries (vm : Vm σ) (pml4 paddr vaddr ps flags : ℕ) : List ℕ :=
  let (pdpt, vm₁) := nextTable alloc vm pml4 (index vaddr 3) flags
  let (pd, vm₂) := nextTable alloc vm₁ pdpt (index vaddr 2) flags
  blockEntries alloc vm pml4 (index vaddr 3) flags ++ blockEntries alloc vm₁ pdpt (index vaddr 2) flags ++
    if ps = pageSize4KB then
      blockEntries alloc vm₂ pd (index vaddr 1) flags ++ [paddr ||| (ptePresent ||| flags)]
    else if ps = pageSize2MB then [paddr ||| (ptePresent ||| ptePageSize ||| flags)]
    else []

/-- The entries of `Vm.mapNewPage`. -/
def newPageEntries (vm : Vm FrameSource) (r v flags : ℕ) : List ℕ :=
  mapEntries take { vm with pmm := (take vm.pmm).2 } r (take vm.pmm).1 v pageSize4KB flags

end Vm

/-- The calls that take frames. -/
inductive MemoryCall
  | vmalloc (info size : ℕ)
  | userAllocStack (info size : ℕ)
  | vmmMapPage (pml4 paddr vaddr ps flags : ℕ)

namespace AddressSpace

/-- The pointer that the call returns, if it returns one, and the state after it. -/
def call (s : AddressSpace) (cr3 : ℕ) : MemoryCall → Option ℕ × AddressSpace
  | .vmalloc info size =>
    (some ((⟨s.vm, s.regions⟩ : VmallocState).vmalloc cr3 info size).1, s.vmalloc cr3 info size)
  | .userAllocStack info size =>
    (some ((⟨s.vm, s.userStacks⟩ : StackState).userAllocStack cr3 info size).1, s.userAllocStack cr3 info size)
  | .vmmMapPage pml4 paddr vaddr ps flags =>
    (none, { s with vm := s.vm.vmmMapPage take pml4 paddr vaddr ps flags })

/-- The page-table entries that the call makes. -/
def entriesMade (s : AddressSpace) (cr3 : ℕ) : MemoryCall → List ℕ
  | .vmalloc info size =>
    if size = 0 ∨ info = 0 then []
    else
      let base := (vmAddToList s.regions size).1
      (intLoop size (fun j x =>
        let v := (base + intToU64 j) % 2 ^ 64
        (x.1.mapNewPage cr3 v pteWritable, x.2 ++ x.1.newPageEntries cr3 v pteWritable)) (s.vm, [])).2
  | .userAllocStack info size =>
    if size = 0 ∨ info = 0 then []
    else s.vm.newPageEntries cr3 (sub64 (usAddToList s.userStacks size).1 pageSize4KB) (pteWritable ||| pteUser)
  | .vmmMapPage pml4 paddr vaddr ps flags => s.vm.mapEntries take pml4 paddr vaddr ps flags

/-- A `pmm_alloc_page` of the call returns 0. -/
def RunsOut (s : AddressSpace) (cr3 : ℕ) (c : MemoryCall) : Prop :=
  s.vm.pmm.exhausted = false ∧ (s.call cr3 c).2.vm.pmm.exhausted = true

/-- The call reports failure and leaves nothing behind. -/
structure FailsCleanly (s : AddressSpace) (cr3 : ℕ) (c : MemoryCall) : Prop where
  reported : ∀ ptr, (s.call cr3 c).1 = some ptr → ptr = 0
  entries : ∀ e ∈ s.entriesMade cr3 c, entryFrame e ≠ 0
  translations : ∀ r v, (s.call cr3 c).2.vm.tables.walk r v = s.vm.tables.walk r v
  lists : (s.call cr3 c).2.regions = s.regions ∧ (s.call cr3 c).2.userStacks = s.userStacks
  bitmap : ∀ b, (s.call cr3 c).2.vm.pmm.pmm.used b = s.vm.pmm.pmm.used b

end AddressSpace

section Blocks
variable {vm : Vm FrameSource} {t paddr ps flags v r : ℕ} {i : Fin 512}

/-- A block in which the allocator fails links frame 0. -/
theorem blockEntries_of_exhausted (h : vm.pmm.exhausted = false)
    (hx : (Vm.nextTable take vm t i flags).2.pmm.exhausted = true) :
    ∃ e ∈ vm.blockEntries take t i flags, entryFrame e = 0 := by
  cases hp : present (vm.tables t i) with
  | true =>
    rw [nextTable_present hp] at hx
    cases hu : userBit flags <;> rw [hu] at hx <;> exact absurd (hx.symm.trans h) (by decide)
  | false =>
    obtain ⟨a, ha, -, -, -, heq⟩ := nextTable_absent take flags hp
    have h0 : (take vm.pmm).1 = 0 := by
      rw [heq] at hx
      change (vm.pmm.exhausted || decide ((take vm.pmm).1 = 0)) = true at hx
      rw [h, Bool.false_or] at hx
      exact of_decide_eq_true hx
    refine ⟨a, ?_, ?_⟩
    · rw [Vm.blockEntries, hp, heq, h0]
      simp
    · unfold entryFrame
      omega

/-- A call of `vmm_map_page` in which the allocator fails links frame 0. -/
theorem mapEntries_of_exhausted (h : vm.pmm.exhausted = false)
    (hx : (vm.vmmMapPage take r paddr v ps flags).pmm.exhausted = true) :
    ∃ e ∈ vm.mapEntries take r paddr v ps flags, entryFrame e = 0 := by
  unfold Vm.vmmMapPage at hx
  unfold Vm.mapEntries
  dsimp only at hx ⊢
  by_cases h1 : (Vm.nextTable take vm r (index v 3) flags).2.pmm.exhausted = true
  · obtain ⟨e, he, h0⟩ := blockEntries_of_exhausted h h1
    exact ⟨e, List.mem_append_left _ (List.mem_append_left _ he), h0⟩
  rw [Bool.not_eq_true] at h1
  generalize Vm.nextTable take vm r (index v 3) flags = a at h1 hx ⊢
  by_cases h2 : (Vm.nextTable take a.2 a.1 (index v 2) flags).2.pmm.exhausted = true
  · obtain ⟨e, he, h0⟩ := blockEntries_of_exhausted h1 h2
    exact ⟨e, List.mem_append_left _ (List.mem_append_right _ he), h0⟩
  rw [Bool.not_eq_true] at h2
  generalize Vm.nextTable take a.2 a.1 (index v 2) flags = b at h2 hx ⊢
  split_ifs at hx ⊢
  · obtain ⟨e, he, h0⟩ := blockEntries_of_exhausted h2 hx
    exact ⟨e, List.mem_append_right _ (List.mem_append_left _ he), h0⟩
  · exact absurd (hx.symm.trans h2) (by decide)
  · exact absurd (hx.symm.trans h2) (by decide)

end Blocks

theorem length_vmAddToList (l : List VmInfo) (size : ℕ) : (vmAddToList l size).2.length = l.length + 1 := by
  cases l with
  | nil => rfl
  | cons head rest =>
    obtain ⟨heq, -⟩ := GapList.findGap_spec (VmFits size) head rest
    simp only [vmAddToList]
    generalize GapList.findGap (VmFits size) head rest = g at heq ⊢
    obtain ⟨passed, current, rest'⟩ := g
    dsimp only at heq ⊢
    rw [heq]
    simp only [List.length_append, List.length_cons]
    omega

theorem length_usAddToList (l : List UsInfo) (size : ℕ) : (usAddToList l size).2.length = l.length + 1 := by
  cases l with
  | nil => rfl
  | cons head rest =>
    obtain ⟨heq, -⟩ := GapList.findGap_spec (UsFits size) head rest
    simp only [usAddToList]
    generalize GapList.findGap (UsFits size) head rest = g at heq ⊢
    obtain ⟨passed, current, rest'⟩ := g
    dsimp only at heq ⊢
    rw [heq]
    simp only [List.length_append, List.length_cons]
    omega

/-- No call during which the frames run out fails cleanly: the allocators keep the new record
in their list, and `vmm_map_page` links frame 0. -/
theorem runsOut_not_failsCleanly {s : AddressSpace} {cr3 : ℕ} {c : MemoryCall} (h : s.RunsOut cr3 c) :
    ¬s.FailsCleanly cr3 c := by
  intro hc
  obtain ⟨hbefore, hafter⟩ := h
  cases c with
  | vmalloc info size =>
    have hlist := hc.lists.1
    simp only [AddressSpace.call, AddressSpace.vmalloc, VmallocState.vmalloc] at hafter hlist
    split_ifs at hafter hlist
    · exact absurd (hafter.symm.trans hbefore) (by decide)
    · exact absurd (hafter.symm.trans hbefore) (by decide)
    · have hlen := length_vmAddToList s.regions size
      rw [show (vmAddToList s.regions size).2 = s.regions from hlist] at hlen
      omega
  | userAllocStack info size =>
    have hlist := hc.lists.2
    simp only [AddressSpace.call, AddressSpace.userAllocStack, StackState.userAllocStack] at hafter hlist
    split_ifs at hafter hlist
    · exact absurd (hafter.symm.trans hbefore) (by decide)
    · exact absurd (hafter.symm.trans hbefore) (by decide)
    · have hlen := length_usAddToList s.userStacks size
      rw [show (usAddToList s.userStacks size).2 = s.userStacks from hlist] at hlen
      omega
  | vmmMapPage pml4 paddr vaddr ps flags =>
    obtain ⟨e, he, h0⟩ := mapEntries_of_exhausted hbefore hafter
    exact hc.entries e he h0

/-- Empty tables with the PML4 in frame 1, and only frame 2 free. -/
def oneFrameLeft : AddressSpace :=
  ⟨{ tables := fun _ _ => 0, pmm := ⟨⟨fun i => if i = 0 then 3 else 0, 3⟩, false⟩ }, [], []⟩

theorem runsOut_map_page :
    ¬oneFrameLeft.FailsCleanly 0x1000 (.vmmMapPage 0x1000 0x5000 0x400000 pageSize4KB pteWritable) :=
  runsOut_not_failsCleanly ⟨rfl, by decide +kernel⟩

/-- `vmalloc` of a page returns a pointer when there is a frame for the page but none for the
tables. -/
theorem vmalloc_succeeds_without_frames :
    ¬∀ s used, AddressSpaceRun (fun _ _ => True) userStackMax 0x1000 oneFrameLeft.vm s used →
      ∀ c, s.RunsOut 0x1000 c → s.FailsCleanly 0x1000 c := by
  intro h
  have hc := h oneFrameLeft ∅ .init (.vmalloc 1 0x1000) ⟨rfl, by decide +kernel⟩
  exact absurd (hc.reported vmallocStart (by decide +kernel)) (by decide)

end PointerOS
