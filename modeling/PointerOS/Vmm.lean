import PointerOS.Buddy
import PointerOS.PageTables

/-!
# Mapping and unmapping pages

The functions of `vmm.c` that edit a tree of tables, and `create_user_process`.
A table is named by its physical address; the code reaches it through the direct
map. The page allocator is a parameter: `pmm_alloc_page` as a function of the
allocator's state. Flushing a TLB entry has no counterpart here.
-/
namespace PointerOS

/-- The memory that the calls work on: the tables and the allocator. -/
structure Vm (σ : Type*) where
  tables : Tables
  pmm : σ

def pageSize2MB : ℕ := 0x200000

namespace Vm
variable {σ : Type*} (alloc : σ → ℕ × σ)

def setEntry (vm : Vm σ) (t : ℕ) (i : Fin 512) (e : ℕ) : Vm σ :=
  { vm with tables := vm.tables.setEntry t i e }

/-- A new table, cleared. -/
def newTable (vm : Vm σ) : ℕ × Vm σ :=
  ((alloc vm.pmm).1, { tables := vm.tables.zeroTable (alloc vm.pmm).1, pmm := (alloc vm.pmm).2 })

/-- The block that `vmm_map_page` repeats at each level: the entry `i` of the table `t`
gets a table if it has none, and the user bit if the flags have it. -/
def nextTable (vm : Vm σ) (t : ℕ) (i : Fin 512) (flags : ℕ) : ℕ × Vm σ :=
  let vm' :=
    if present (vm.tables t i) = false then
      let (newTablePhys, vm) := newTable alloc vm
      if userBit flags then
        vm.setEntry t i (newTablePhys ||| (ptePresent ||| pteWritable ||| pteUser))
      else vm.setEntry t i (newTablePhys ||| (ptePresent ||| pteWritable))
    else if userBit flags then vm.setEntry t i (vm.tables t i ||| pteUser)
    else vm
  (maskPage (vm'.tables t i), vm')

/-- With a page size that is neither 4 KB nor 2 MB the upper tables are made all the same. -/
def vmmMapPage (vm : Vm σ) (pml4 paddr vaddr ps flags : ℕ) : Vm σ :=
  let (pdpt, vm) := nextTable alloc vm pml4 (index vaddr 3) flags
  let (pd, vm) := nextTable alloc vm pdpt (index vaddr 2) flags
  if ps = pageSize4KB then
    let (pt, vm) := nextTable alloc vm pd (index vaddr 1) flags
    vm.setEntry pt (index vaddr 0) (paddr ||| (ptePresent ||| flags))
  else if ps = pageSize2MB then
    vm.setEntry pd (index vaddr 1) (paddr ||| (ptePresent ||| ptePageSize ||| flags))
  else vm

end Vm

/-- The place of an entry, with the level that `vmm_get_entry` reports. -/
structure EntryAt where
  table : ℕ
  idx : Fin 512
  level : ℕ
deriving DecidableEq

/-- The entry of a page table is returned whether it is present or not. The level of a
page of 1 GB is reported as that of a page of 2 MB. -/
def vmmGetEntry (T : Tables) (pml4 vaddr : ℕ) : Option EntryAt :=
  if present (T pml4 (index vaddr 3)) = false then none
  else if pageSize (T pml4 (index vaddr 3)) then some ⟨pml4, index vaddr 3, 3⟩
  else
    let pdpt := maskPage (T pml4 (index vaddr 3))
    if present (T pdpt (index vaddr 2)) = false then none
    else if pageSize (T pdpt (index vaddr 2)) then some ⟨pdpt, index vaddr 2, 2⟩
    else
      let pd := maskPage (T pdpt (index vaddr 2))
      if present (T pd (index vaddr 1)) = false then none
      else if pageSize (T pd (index vaddr 1)) then some ⟨pd, index vaddr 1, 2⟩
      else some ⟨maskPage (T pd (index vaddr 1)), index vaddr 0, 0⟩

/-- The physical address of the entry taken out, or 0. -/
def vmmUnmapPage (T : Tables) (pml4 vaddr : ℕ) : ℕ × Tables :=
  match vmmGetEntry T pml4 vaddr with
  | some e => (maskPage (T e.table e.idx), T.setEntry e.table e.idx 0)
  | none => (0, T)

/-! ## Processes -/

structure Process where
  pml4 : ℕ
  pid : ℕ
deriving DecidableEq

/-- The globals that `create_user_process` works on. -/
structure Spaces (σ : Type*) where
  vm : Vm σ
  nextProcessId : ℕ
  processes : List Process

namespace Spaces
variable {σ : Type*} (alloc : σ → ℕ × σ)

/-- The PML4 of a new process: no private entry, the other half that of `old`. -/
def copyHalf (T : Tables) (pml4 old : ℕ) : Tables :=
  fun f i => if f = pml4 then (if i.val < 256 then 0 else T old i) else T f i

/-- `p` is what `kmalloc` returned for the record, freed again when there is no frame for
the PML4; `cr3` is the PML4 of the caller. -/
def createUserProcess (s : Spaces σ) (p cr3 : ℕ) : Option Process × Spaces σ :=
  if p = 0 then (none, s)
  else
    let pml4 := (alloc s.vm.pmm).1
    let pmm := (alloc s.vm.pmm).2
    if pml4 = 0 then (none, { s with vm := { s.vm with pmm := pmm } })
    else
      (some { pml4 := pml4, pid := s.nextProcessId },
        { vm := { tables := copyHalf s.vm.tables pml4 cr3, pmm := pmm }
          nextProcessId := (s.nextProcessId + 1) % 2 ^ 64
          processes := { pml4 := pml4, pid := s.nextProcessId } :: s.processes })

end Spaces
end PointerOS
