import PointerOS.CreationFrame
import PointerOS.HeapPages
import PointerOS.SchedulerRuns

/-!
# A boot with enough memory

`init_scheduler` maps two stacks, a process with two pages, and the stacks of its thread. With that many
free frames and a record for each of them, the boot makes all four threads.
-/
namespace PointerOS
open Tables FrameSource

/-! ## Frames that are taken -/

/-- The second allocator has at most `n` free frames fewer. -/
structure Spends (s : FrameSource) (n : ℕ) (s' : FrameSource) : Prop where
  total : s'.pmm.totalPages = s.pmm.totalPages
  used : ∀ b, s.pmm.used b = true → s'.pmm.used b = true
  free : ∀ f, s.pmm.freeBelow f ≤ s'.pmm.freeBelow f + n

section Spends
variable {s s' s'' : FrameSource} {vm : Vm FrameSource} {m n r v flags : ℕ}

theorem Spends.refl (s : FrameSource) : Spends s 0 s := ⟨rfl, fun _ h => h, fun _ => le_rfl⟩

theorem Spends.trans (h : Spends s m s') (h' : Spends s' n s'') : Spends s (m + n) s'' where
  total := h'.total.trans h.total
  used := fun b hb => h'.used b (h.used b hb)
  free := fun f => by
    have h1 := h.free f
    have h2 := h'.free f
    omega

theorem Spends.mono (h : Spends s m s') (hmn : m ≤ n) : Spends s n s' :=
  ⟨h.total, h.used, fun f => (h.free f).trans (by omega)⟩

theorem take_spends (s : FrameSource) : Spends s 1 s.take.2 := by
  obtain ⟨ht, hu, hf⟩ := s.pmm.pmmAllocPage_free
  exact ⟨ht, hu, hf⟩

theorem nextTable_spends (t : ℕ) (i : Fin 512) : Spends vm.pmm 1 (Vm.nextTable take vm t i flags).2.pmm := by
  cases hp : present (vm.tables t i) with
  | true =>
    rw [nextTable_present hp]
    cases userBit flags <;> exact (Spends.refl _).mono zero_le_one
  | false =>
    obtain ⟨a, -, -, -, -, heq⟩ := nextTable_absent take flags hp
    rw [heq]
    exact take_spends _

theorem tablesDown_spends (m k t : ℕ) (vm : Vm FrameSource) :
    Spends vm.pmm m (tablesDown take v flags m k t vm).2.pmm := by
  induction m generalizing k t vm with
  | zero => exact Spends.refl _
  | succ m ih =>
    have hnext : Spends vm.pmm (1 + m) (tablesDown take v flags (m + 1) k t vm).2.pmm :=
      (nextTable_spends t (index v k)).trans (ih ..)
    exact hnext.mono (by omega)

theorem mapNewPage_spends : Spends vm.pmm 4 (vm.mapNewPage r v flags).pmm :=
  (take_spends vm.pmm).trans (tablesDown_spends 3 3 r { vm with pmm := (take vm.pmm).2 })

/-- A loop over `size` bytes maps at most `intRounds size` pages. -/
theorem intLoop_spends {size : ℕ} (hs : size ≤ 2 ^ 63) (addr : ℤ → ℕ) :
    Spends vm.pmm (4 * intRounds size)
      (intLoop size (fun j vm => vm.mapNewPage r (addr j) flags) vm).pmm := by
  rw [intLoop_eq (by omega)]
  generalize intRounds size = n
  induction n with
  | zero => exact Spends.refl _
  | succ n ih =>
    rw [List.range_succ, List.foldl_append]
    exact ih.trans mapNewPage_spends

end Spends

namespace Kernel
variable {img : Image} {k : Kernel} {b : BootPointers} {t info entry size : ℕ}

theorem kernelAllocStack_spends (hs : size ≤ 2 ^ 63) :
    Spends k.vm.pmm (4 * intRounds size) (k.kernelAllocStack info size).2.vm.pmm := by
  unfold kernelAllocStack VmallocState.vmalloc
  split_ifs
  · exact (Spends.refl _).mono (Nat.zero_le _)
  · exact (Spends.refl _).mono (Nat.zero_le _)
  · exact intLoop_spends hs _

theorem createThread_spends (hs : size ≤ 2 ^ 63) :
    Spends k.vm.pmm (4 * intRounds size) (k.createThread img t info entry size).2.vm.pmm := by
  have halloc : Spends k.vm.pmm (4 * intRounds size) (k.kernelAllocStack info size).2.vm.pmm :=
    kernelAllocStack_spends hs
  unfold createThread
  dsimp only
  split_ifs
  · exact (Spends.refl _).mono (Nat.zero_le _)
  · exact halloc
  · rw [addThread_vm, pushFrame_vm]
    exact halloc

theorem take_ne_zero {s s' : FrameSource} {n : ℕ} (h : Spends s n s') (htotal : s.pmm.totalPages ≤ 2 ^ 40)
    (h0 : s.pmm.used 0 = true) (hn : n < s.pmm.freeBelow s.pmm.totalPages) : (take s').1 ≠ 0 := by
  have hfree := h.free s.pmm.totalPages
  rcases s'.pmm.pmmAllocPage_spec with ⟨-, hall⟩ | ⟨k, hk, hused, -, hr⟩
  · have hnone : s'.pmm.freeBelow s.pmm.totalPages = 0 := by
      rw [Pmm.freeBelow, Nat.count_eq_card_filter_range, Finset.card_eq_zero, Finset.filter_eq_empty_iff]
      intro f hf
      rw [hall f (h.total ▸ Finset.mem_range.mp hf)]
      decide
    omega
  · have hk0 : k ≠ 0 := by
      rintro rfl
      rw [h.used 0 h0] at hused
      exact absurd hused (by decide)
    have htaken : (take s').1 = k * 4096 := by
      have hlt : k < 2 ^ 40 := by
        have := h.total
        omega
      exact (congrArg Prod.fst hr).trans (Nat.mod_eq_of_lt (by omega))
    omega

/-! ## The threads of the boot -/

/-- The kernel threads of `init_scheduler`. -/
def withKernelThreads (img : Image) (k : Kernel) (b : BootPointers) : Kernel :=
  let k := k.startMain b.main
  let k := (k.createThread img b.idle b.idleInfo img.idleThreadEntry defaultStackSize).2
  (k.createThread img b.third b.thirdInfo img.thirdThread defaultStackSize).2

/-- The process `p` with the next frame for its PML4. -/
def withProcess (k : Kernel) (p : ℕ) : Kernel :=
  { k with
    vm := { tables := Spaces.copyHalf k.vm.tables (take k.vm.pmm).1 k.cr3, pmm := (take k.vm.pmm).2 }
    processes := Function.update k.processes p ⟨(take k.vm.pmm).1, k.nextProcessId, 0⟩
    nextProcessId := (k.nextProcessId + 1) % 2 ^ 64 }

/-- The pages of the user program. -/
def withProgram (k : Kernel) (p : ℕ) : Kernel :=
  { ({ k with cr3 := (k.processes p).pml4 }.mapUserPage 0x400000).mapUserPage 0x300000 with cr3 := k.cr3 }

/-- The boot up to the user thread. -/
def beforeUser (img : Image) (k : Kernel) (b : BootPointers) : Kernel :=
  ((k.withKernelThreads img b).withProcess b.process).withProgram b.process

/-- `kmalloc` returned a record every time. -/
def BootPointers.Given (b : BootPointers) : Prop :=
  b.main ≠ 0 ∧ b.idle ≠ 0 ∧ b.idleInfo ≠ 0 ∧ b.third ≠ 0 ∧ b.thirdInfo ≠ 0 ∧ b.process ≠ 0

theorem createUserProcess_made {p : ℕ} (hp : p ≠ 0) (h : (take k.vm.pmm).1 ≠ 0) :
    k.createUserProcess p = (p, k.withProcess p) := by
  rw [createUserProcess, if_neg hp]
  dsimp only
  rw [if_neg h]
  rfl

theorem createThread_made (ht : t ≠ 0) (hmem : (k.kernelAllocStack info size).1 ≠ 0) :
    (k.createThread img t info entry size).1 = t := by
  rw [createThread, if_neg ht]
  dsimp only
  rw [if_neg hmem]

theorem createThread_regions (ht : t ≠ 0) (hmem : (k.kernelAllocStack info size).1 ≠ 0) :
    (k.createThread img t info entry size).2.regions = (k.kernelAllocStack info size).2.regions := by
  rw [createThread, if_neg ht]
  dsimp only
  rw [if_neg hmem, addThread_regions, pushFrame_regions]

/-- With a record and free frames for everything, the boot makes the idle thread, the third thread and
the process, and goes on to the user thread. -/
theorem initScheduler_makes {r : ℕ} {k' : Kernel} (hb : b.Given) (hregions : k.regions = [])
    (htotal : k.vm.pmm.pmm.totalPages ≤ 2 ^ 40) (h0 : k.vm.pmm.pmm.used 0 = true)
    (hfree : 2048 < k.vm.pmm.pmm.freeBelow k.vm.pmm.pmm.totalPages)
    (huser : (k.beforeUser img b).createUserThread b.process b.user b.userInfo b.userStackInfo 0x400000 4096 4096 =
      some (r, k')) :
    initScheduler img k b = some ([b.main, b.idle, b.third, r], { k' with scheduler := true }) := by
  obtain ⟨hmain, hidle, hidleInfo, hthird, hthirdInfo, hprocess⟩ := hb
  obtain ⟨k₁, hk₁⟩ : ∃ k₁, k₁ = k.startMain b.main := ⟨_, rfl⟩
  have hstart : k₁.regions = [] ∧ k₁.vm = k.vm := by
    rw [hk₁, startMain, enqueueThread_with]
    exact ⟨hregions, rfl⟩
  have hfirst : (k₁.kernelAllocStack b.idleInfo defaultStackSize).1 = vmallocStart ∧
      (k₁.kernelAllocStack b.idleInfo defaultStackSize).2.regions = [⟨vmallocStart, defaultStackSize⟩] := by
    simp [kernelAllocStack, VmallocState.vmalloc, vmAddToList, hstart.1, hidleInfo, defaultStackSize]
  have hmem : (k₁.kernelAllocStack b.idleInfo defaultStackSize).1 ≠ 0 := by
    rw [hfirst.1]
    decide
  obtain ⟨k₂, hk₂⟩ : ∃ k₂, k₂ = (k₁.createThread img b.idle b.idleInfo img.idleThreadEntry defaultStackSize).2 :=
    ⟨_, rfl⟩
  have hidle' : k₁.createThread img b.idle b.idleInfo img.idleThreadEntry defaultStackSize = (b.idle, k₂) :=
    Prod.ext (createThread_made hidle hmem) hk₂.symm
  have hregions₂ : k₂.regions = [⟨vmallocStart, defaultStackSize⟩] := by
    rw [hk₂, createThread_regions hidle hmem, hfirst.2]
  have hmem₂ : (k₂.kernelAllocStack b.thirdInfo defaultStackSize).1 ≠ 0 := by
    simp [kernelAllocStack, VmallocState.vmalloc, vmAddToList, hregions₂, hthirdInfo, defaultStackSize,
      GapList.findGap, vmallocStart]
  obtain ⟨k₃, hk₃⟩ : ∃ k₃, k₃ = (k₂.createThread img b.third b.thirdInfo img.thirdThread defaultStackSize).2 :=
    ⟨_, rfl⟩
  have hthird' : k₂.createThread img b.third b.thirdInfo img.thirdThread defaultStackSize = (b.third, k₃) :=
    Prod.ext (createThread_made hthird hmem₂) hk₃.symm
  have hthreads : k.withKernelThreads img b = k₃ := by
    rw [hk₃, hk₂, hk₁]
    rfl
  have hsize : defaultStackSize ≤ 2 ^ 63 := by decide
  have hspends : Spends k.vm.pmm 2048 k₃.vm.pmm := by
    have h₂ : Spends k₁.vm.pmm _ k₂.vm.pmm := hk₂ ▸ createThread_spends hsize
    have h₃ : Spends k₂.vm.pmm _ k₃.vm.pmm := hk₃ ▸ createThread_spends hsize
    rw [hstart.2] at h₂
    exact h₂.trans h₃
  have hproc := createUserProcess_made hprocess (take_ne_zero hspends htotal h0 hfree)
  rw [beforeUser, hthreads] at huser
  rw [initScheduler, if_neg hmain, ← hk₁]
  simp only [hidle', hthird', hproc, if_neg hprocess]
  exact congrArg (Option.map _) huser

end Kernel

def bootImage : Image := ⟨0x1000, 0x2000, 0x3000⟩

def bootPointers : Kernel.BootPointers := ⟨0x100, 0x200, 0x10, 0x300, 0x20, 0x400, 0x500, 0x30, 0x40⟩

/-- 16 MB of memory, of which all but the first two frames are free. -/
def bootMemory : Kernel :=
  { Kernel.beforeBoot with
    vm := { tables := fun _ _ => 0, pmm := ⟨⟨fun i => if i = 0 then 3 else 0, 4096⟩, false⟩ } }

/-- The state after the boot. -/
def bootKernel : Option Kernel :=
  ((bootMemory.beforeUser bootImage bootPointers).createUserThread 0x400 0x500 0x30 0x40 0x400000 4096 4096).map
    fun p => { p.2 with scheduler := true }

theorem bootMemory_free : 2048 < bootMemory.vm.pmm.pmm.freeBelow bootMemory.vm.pmm.pmm.totalPages := by
  have hused : ∀ f, 2 ≤ f → bootMemory.vm.pmm.pmm.used f = false := by
    intro f hf
    simp only [bootMemory, Pmm.used, Bitmap.testBit]
    by_cases h8 : f / 8 = 0
    · have : f < 8 := by omega
      interval_cases f <;> rfl
    · rw [if_neg h8]
      simp
  have hcount : Nat.count (fun f => bootMemory.vm.pmm.pmm.used (2 + f) = false) 4094 = 4094 := by
    rw [Nat.count_eq_card_filter_range, Finset.filter_true_of_mem fun f _ => hused (2 + f) (Nat.le_add_right ..)]
    exact Finset.card_range _
  change 2048 < Nat.count (fun f => bootMemory.vm.pmm.pmm.used f = false) (2 + 4094)
  rw [Nat.count_add, hcount]
  omega

theorem bootKernel_booted : ∃ k, bootKernel = some k ∧
    Booted bootImage bootPointers bootMemory k [0x100, 0x200, 0x300, 0x500] := by
  have hmade : ((bootMemory.beforeUser bootImage bootPointers).createUserThread 0x400 0x500 0x30 0x40 0x400000 4096
      4096).map (·.1) = some 0x500 := by decide +kernel
  obtain ⟨⟨r, k⟩, hk, rfl⟩ := Option.map_eq_some_iff.mp hmade
  refine ⟨{ k with scheduler := true }, congrArg (Option.map _) hk, ?_, by decide, rfl, rfl, fun _ => rfl⟩
  exact Kernel.initScheduler_makes ⟨by decide, by decide, by decide, by decide, by decide, by decide⟩ rfl (by decide)
    rfl bootMemory_free hk

end PointerOS
