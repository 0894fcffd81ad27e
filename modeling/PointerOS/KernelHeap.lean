import PointerOS.HeapRuns
import PointerOS.Threads

/-!
# The kernel with its heap

The functions that take their records from `kmalloc`, over the heap that serves them. A list beside
the heap has the allocations that were not freed yet, and `stray` the pointers that were given to
`kfree` without being one of these.
-/
namespace PointerOS

structure System where
  heap : Heap
  live : List (ℕ × ℕ)
  stray : List ℕ
  kernel : Kernel

/-- `sizeof(thread_t)`. -/
def threadSize : ℕ := 120

/-- `sizeof(vm_info_t)` and `sizeof(us_info_t)`. -/
def infoSize : ℕ := 32

namespace System

def kmalloc (s : System) (size : ℕ) : Option (ℕ × System) :=
  (s.heap.kmalloc size).map fun (p, h) =>
    (p, { s with heap := h, live := if p = 0 then s.live else (p, size) :: s.live })

def kfree (s : System) (ptr : ℕ) : System :=
  if ptr = 0 then s
  else
    match s.live.find? (fun e => e.1 = ptr) with
    | some e => { s with heap := s.heap.kfree ptr, live := s.live.erase e }
    | none => { s with heap := s.heap.kfree ptr, stray := ptr :: s.stray }

/-- The record that `vmalloc` and `user_alloc_stack` take for `size` bytes. -/
def descriptor (s : System) (size : ℕ) : Option (ℕ × System) :=
  if size = 0 then some (0, s) else s.kmalloc infoSize

def vmalloc (s : System) (size : ℕ) : Option (ℕ × System) :=
  (s.descriptor size).map fun (info, s) =>
    let (base, v) := (⟨s.kernel.vm, s.kernel.regions⟩ : VmallocState).vmalloc s.kernel.cr3 info size
    (base, { s with kernel := { s.kernel with vm := v.vm, regions := v.list } })

def vfree (s : System) (ptr : ℕ) : System :=
  let v := (⟨s.kernel.vm, s.kernel.regions⟩ : VmallocState).vfree s.kernel.cr3 ptr
  { s with kernel := { s.kernel with vm := v.vm, regions := v.list } }

def userAllocStack (s : System) (size : ℕ) : Option (ℕ × System) :=
  (s.descriptor size).bind fun (info, s) =>
    (s.kernel.userAllocStack info size).map fun (base, k) => (base, { s with kernel := k })

def userFreeStack (s : System) (ptr : ℕ) : Option System :=
  (s.kernel.userFreeStack ptr).map fun k => { s with kernel := k }

def createThread (img : Image) (s : System) (entry stackSize : ℕ) : Option (ℕ × System) :=
  (s.kmalloc threadSize).bind fun (t, s) =>
    if t = 0 then some (0, s)
    else
      (s.descriptor stackSize).map fun (info, s) =>
        let (r, k) := s.kernel.createThread img t info entry stackSize
        (r, if r = 0 then { s with kernel := k }.kfree t else { s with kernel := k })

def createUserThread (s : System) (proc entry kstackSize ustackSize : ℕ) : Option (ℕ × System) :=
  (s.kmalloc threadSize).bind fun (t, s) =>
    if t = 0 then some (0, s)
    else
      (s.descriptor kstackSize).bind fun (info, s) =>
        let (kernelStackMem, k) := s.kernel.kernelAllocStack info kstackSize
        if kernelStackMem = 0 then some (0, { s with kernel := k }.kfree t)
        else
          (s.descriptor ustackSize).bind fun (usInfo, s) =>
            (s.kernel.createUserThread proc t info usInfo entry kstackSize ustackSize).map fun (r, k) =>
              (r, { s with kernel := k })

def destroyThread (s : System) (t : ℕ) : Option System :=
  if t = 0 then some s
  else
    let s := s.kfree (s.kernel.threads t).kernelStack.bottom
    (s.kernel.destroyThread t).map fun k => { s with kernel := k }.kfree t

end System

/-! ## The heap over calls -/

namespace System
variable {s s' : System} {p size : ℕ}

/-- The heap was reached by allocations and frees from `init_kheap` on. -/
def HeapReached (s : System) : Prop := HeapRun s.heap s.live

theorem kmalloc_returns (run : s.HeapReached) (hsize : size ≤ 2 ^ 63) : ∃ p s', s.kmalloc size = some (p, s') := by
  obtain ⟨-, hreturns, -⟩ := heap_safety run
  obtain ⟨p, h', hp, -⟩ := hreturns size hsize
  exact ⟨p, _, congrArg (Option.map _) hp⟩

/-- What a call of `kmalloc` does to everything but the inside of the heap. -/
structure Allocates (s s' : System) (p size : ℕ) : Prop where
  reached : s'.HeapReached
  live : s'.live = if p = 0 then s.live else (p, size) :: s.live
  eq : s' = { s with heap := s'.heap, live := s'.live }
  fresh : p ≠ 0 → p ∉ s.live.map Prod.fst
  heap : p ≠ 0 → heapStart ≤ p ∧ p + size ≤ heapStart + heapSize

theorem kmalloc_allocates (run : s.HeapReached) (hsize : size ≤ 2 ^ 63) (h : s.kmalloc size = some (p, s')) :
    Allocates s s' p size := by
  obtain ⟨⟨q, h'⟩, hr, heq⟩ := Option.map_eq_some_iff.mp h
  obtain ⟨rfl, rfl⟩ := Prod.mk.inj heq
  have hrun := HeapRun.alloc run hsize hr
  refine ⟨hrun, rfl, rfl, fun hp => ?_, fun hp => ?_⟩
  all_goals
    dsimp only at hp hrun ⊢
    rw [if_neg hp] at hrun
  · obtain ⟨F, G, L, B, core, -⟩ := hrun.inv
    exact (List.nodup_cons.mp core.distinct).1
  · exact (heap_safety hrun).1.inHeap _ List.mem_cons_self

/-- `kfree` of an allocation that is live. -/
theorem kfree_live (run : s.HeapReached) (h : p ∈ s.live.map Prod.fst) :
    ∃ e ∈ s.live, e.1 = p ∧ s.kfree p = { s with heap := s.heap.kfree p, live := s.live.erase e } ∧
      (s.kfree p).HeapReached := by
  obtain ⟨e, he, rfl⟩ := List.mem_map.mp h
  have hin := ((heap_safety run).1.inHeap e he).1
  have hne : e.1 ≠ 0 := fun h0 => by
    rw [h0] at hin
    exact absurd hin (by decide)
  obtain ⟨F, G, L, B, core, -⟩ := run.inv
  have hfind : s.live.find? (fun f => decide (f.1 = e.1)) = some e := by
    cases hf : s.live.find? (fun f => decide (f.1 = e.1)) with
    | none => exact absurd (decide_eq_true rfl) (List.find?_eq_none.mp hf e he)
    | some f =>
      have hfe : f.1 = e.1 := by simpa using List.find?_some hf
      exact congrArg some (List.inj_on_of_nodup_map core.distinct (List.mem_of_find?_eq_some hf) he hfe)
  have heq : s.kfree e.1 = { s with heap := s.heap.kfree e.1, live := s.live.erase e } := by
    unfold kfree
    rw [if_neg hne, hfind]
  exact ⟨e, he, rfl, heq, by rw [heq]; exact HeapRun.free run he⟩

end System
end PointerOS
