import PointerOS.Creation
import PointerOS.SchedulerState
import PointerOS.SlabCaches

/-!
# What the destruction of a thread gives back

`destroy_thread` gives the kernel stack, which came from `vmalloc`, to `kfree`. A run of creations,
exits and cleanups gives back what was taken exactly as long as no cleanup finds a thread with a
kernel stack.
-/
namespace PointerOS
open LinkedList GapList

/-! ## The calls with their heap -/

namespace System

def createUserProcess (s : System) : Option (ℕ × System) :=
  (s.kmalloc 32).map fun (p, s) =>
    let (r, k) := s.kernel.createUserProcess p
    (r, if r = 0 then { s with kernel := k }.kfree p else { s with kernel := k })

/-- The loop of `cleanup_dead_threads` from `t` on. -/
def cleanupFrom : ℕ → ℕ → System → Option System
  | 0, _, _ => none
  | fuel + 1, t, s =>
    if t = 0 then some s else (s.destroyThread t).bind (cleanupFrom fuel (s.kernel.threads t).next)

def cleanupDeadThreads (s : System) : Option System :=
  let (t, k) := s.kernel.takeDead
  cleanupFrom (2 ^ 64) t { s with kernel := k }

end System

/-- What the current thread calls. A tick is a timer interrupt or a `yield`. -/
inductive ThreadCall
  | createThread (entry stackSize : ℕ)
  | createUserThread (proc entry kstackSize ustackSize : ℕ)
  | createUserProcess
  | tick (rsp : ℕ)
  | exit (rsp : ℕ)
  | cleanup

def ThreadCall.run (img : Image) (s : System) : ThreadCall → Option System
  | createThread entry stackSize => (s.createThread img entry stackSize).map Prod.snd
  | createUserThread proc entry kstackSize ustackSize =>
    (s.createUserThread proc entry kstackSize ustackSize).map Prod.snd
  | createUserProcess => s.createUserProcess.map Prod.snd
  | tick rsp => (s.kernel.schedulerHandler rsp).map fun p => { s with kernel := p.2 }
  | exit rsp => (s.kernel.threadExit rsp).map fun p => { s with kernel := p.2 }
  | cleanup => s.cleanupDeadThreads

structure ThreadStep where
  before : System
  call : ThreadCall
  after : System

/-- The start of `init_scheduler`, on empty lists and with the record of the main thread. -/
inductive MainStarted : System → Prop
  | intro {s s₁ : System} {main : ℕ} (run : s.HeapReached) (h : s.kmalloc threadSize = some (main, s₁))
      (h0 : main ≠ 0) (hready : s.kernel.readyListHead = 0) (hdead : s.kernel.deadListHead = 0)
      (hmutexes : ∀ m, s.kernel.mutexes m = ⟨0, 0, 0⟩) :
      MainStarted { s₁ with kernel := s₁.kernel.startMain main }

/-- Runs of calls, with their steps, the last one first. -/
inductive ThreadRun (img : Image) : List ThreadStep → System → Prop
  | init {s : System} (h : MainStarted s) : ThreadRun img [] s
  | step {s s' : System} {l : List ThreadStep} (h : ThreadRun img l s) (c : ThreadCall)
      (hrun : c.run img s = some s') : ThreadRun img (⟨s, c, s'⟩ :: l) s'

/-! ## What is to be given back -/

/-- Every node of a free list of the two allocators lies in the heap. -/
structure FreeNodesInside (h : Heap) : Prop where
  blocks : ∀ k ≤ maxOrders, ∀ a, Linked h.blockNext 0 (h.freeAreas k) a → heapStart ≤ a ∧ a < heapStart + heapSize
  objects : ∀ i < totalPages, (h.metadata i).isSlab = true →
    ∀ a, Linked h.objNext 0 (h.slabFreeList (pageAddr i)) a → heapStart ≤ a ∧ a < heapStart + heapSize

/-- The thread is on the dead list and has a kernel stack. -/
def Kernel.DeadWithStack (k : Kernel) (t : ℕ) : Prop :=
  Linked (nextOf k.threads) 0 k.deadListHead t ∧ (k.threads t).kernelStack.bottom ≠ 0

namespace ThreadStep

/-- Only live pointers were given to `kfree`, the free lists stay in the heap, and a cleanup frees the regions of the
kernel stacks with their frames. -/
structure TearsDown (x : ThreadStep) : Prop where
  kfreed : x.after.stray = x.before.stray
  inside : FreeNodesInside x.after.heap
  regions : x.call = .cleanup → ∀ t, x.before.kernel.DeadWithStack t → ∀ v ∈ x.before.kernel.regions,
    v.base = (x.before.kernel.threads t).kernelStack.bottom → v ∉ x.after.kernel.regions ∧
      ∀ a, v.Has a → x.after.kernel.vm.pmm.pmm.used (frameOf x.before.kernel.vm.tables x.before.kernel.cr3 a) = false

/-- A cleanup that finds a thread with a kernel stack. -/
def DestroysStack (x : ThreadStep) : Prop := x.call = .cleanup ∧ ∃ t, x.before.kernel.DeadWithStack t

end ThreadStep

/-! ## The regions over calls -/

namespace Kernel
variable {k k' : Kernel}

theorem destroyThread_regions {t : ℕ} (h : k.destroyThread t = some k') : k'.regions = k.regions := by
  unfold destroyThread at h
  dsimp only at h
  split_ifs at h
  · obtain rfl := Option.some.inj h
    rfl
  · obtain rfl := Option.some.inj h
    rfl
  · obtain ⟨k₁, hk₁, rfl⟩ := Option.map_eq_some_iff.mp h
    obtain ⟨current, -, rfl⟩ := Option.map_eq_some_iff.mp hk₁
    split_ifs
    · rfl
    · unfold usRemoveFromList
      dsimp only
      split_ifs <;> rfl

theorem createUserProcess_regions (k : Kernel) (p : ℕ) : (k.createUserProcess p).2.regions = k.regions := by
  unfold createUserProcess
  dsimp only
  split_ifs <;> rfl

theorem dequeueThread_regions (k : Kernel) (t : ℕ) : (k.dequeueThread t).regions = k.regions := by
  unfold dequeueThread
  dsimp only
  split_ifs <;> rfl

theorem putAway_regions (k : Kernel) (old rsp : ℕ) : (k.putAway old rsp).regions = k.regions := by
  unfold putAway
  cases (k.threads old).state with
  | dead => exact k.dequeueThread_regions old
  | blocked => exact (k.setThread old fun r => { r with rsp := rsp }).dequeueThread_regions old
  | _ => rfl

theorem dispatch_regions (k : Kernel) (old next : ℕ) : (k.dispatch old next).regions = k.regions := by
  unfold dispatch switchProcess
  dsimp only
  split_ifs <;> rfl

theorem schedulerHandler_regions {rsp r : ℕ} (h : k.schedulerHandler rsp = some (r, k')) :
    k'.regions = k.regions := by
  have haway := k.putAway_regions k.currentThread rsp
  exact schedulerHandler_rule (P := fun x => x.regions = k.regions) h rfl haway
    (fun next => (dispatch_regions _ _ next).trans haway) haway

end Kernel

theorem vmAddToList_mem (l : List VmInfo) (size : ℕ) :
    (∃ v ∈ (vmAddToList l size).2, v.base = (vmAddToList l size).1) ∧ ∀ v ∈ l, v ∈ (vmAddToList l size).2 := by
  unfold vmAddToList
  cases l with
  | nil => exact ⟨⟨_, List.mem_singleton_self _, rfl⟩, fun v hv => absurd hv List.not_mem_nil⟩
  | cons head rest =>
    have hspec := (findGap_spec (VmFits size) head rest).1
    dsimp only
    generalize findGap (VmFits size) head rest = q at hspec
    refine ⟨⟨⟨(q.2.1.base + q.2.1.size) % 2 ^ 64, size⟩, by simp, rfl⟩, fun v hv => ?_⟩
    rw [hspec] at hv
    simp only [List.mem_append, List.mem_cons] at hv ⊢
    tauto

/-- The kernel stack lies in the list, and no region is gone. -/
theorem Kernel.kernelAllocStack_regions (k : Kernel) (info size : ℕ) :
    (∀ v ∈ k.regions, v ∈ (k.kernelAllocStack info size).2.regions) ∧
      ((k.kernelAllocStack info size).1 ≠ 0 → ∃ v ∈ (k.kernelAllocStack info size).2.regions,
        v.base = (k.kernelAllocStack info size).1) := by
  by_cases hnone : size = 0 ∨ info = 0
  · rw [k.kernelAllocStack_none hnone]
    exact ⟨fun v hv => hv, fun h0 => absurd rfl h0⟩
  · obtain ⟨h0, hinfo⟩ := not_or.mp hnone
    have hadd := vmAddToList_mem k.regions size
    simp only [kernelAllocStack, VmallocState.vmalloc, if_neg h0, if_neg hinfo]
    exact ⟨hadd.2, fun _ => hadd.1⟩

/-- The free lists of a heap in a run stay inside. -/
theorem freeNodesInside {h : Heap} {live : List (ℕ × ℕ)} (run : HeapRun h live) : FreeNodesInside h := by
  have hpage : ∀ i < totalPages, ∀ b < 4096, heapStart ≤ pageAddr i + b ∧ pageAddr i + b < heapStart + heapSize := by
    intro i hi b hb
    rw [pageAddr_eq]
    change i < 4096 at hi
    change 0xFFFFE00000000000 ≤ _ ∧ _ < 0xFFFFE00000000000 + 0x1000000
    omega
  constructor
  · intro k hk a ha
    obtain ⟨F, G, L, B, core, -⟩ := run.inv
    have hlist := core.buddy.lists.links k hk
    rw [hlist.seg.chain.linked_iff hlist.null_notMem] at ha
    obtain ⟨i, hi, rfl⟩ := List.mem_map.mp ha
    exact hpage i (core.buddy.lists.lt k hk i hi) 0 (by decide)
  · intro i hi hslab a ha
    obtain ⟨F, G, L, B, core, -⟩ := run.inv
    obtain ⟨c, hc, hin⟩ := (core.isSlab i hi).mp hslab
    have hslots : ∀ o ∈ L i, ∃ j < slabCapacity c, o = slotAddr c i j := (core.ok c hc i hin).slots
    have hzero : 0 ∉ L i := fun h0 => by
      obtain ⟨j, hj, hslot⟩ := hslots 0 h0
      have hlow := (hpage i hi 0 (by decide)).1
      have hpos := (slotAddr_inPage (s := i) hc hj).1
      rw [← hslot] at hpos
      omega
    rw [(core.slabHolds hc hin).chain.linked_iff hzero] at ha
    obtain ⟨j, hj, rfl⟩ := hslots a ha
    obtain ⟨hlow, hhigh⟩ := slotAddr_inPage (s := i) hc hj
    have hsize := cacheObjSize_bounds hc
    obtain ⟨off, hoff⟩ := Nat.exists_eq_add_of_le (show pageAddr i ≤ slotAddr c i j by omega)
    rw [hoff]
    exact hpage i hi off (by omega)

/-! ## Homes over a switch -/

namespace Kernel
variable {k k' : Kernel} {rsp r : ℕ}

theorem dispatch_home (k : Kernel) (old next t : ℕ) :
    ((k.dispatch old next).threads t).home = (k.threads t).home := by
  rw [dispatch_threads]
  split_ifs with ht
  · rw [ht]
    rfl
  · rfl

theorem schedulerHandler_home (h : k.schedulerHandler rsp = some (r, k')) (t : ℕ) :
    (k'.threads t).home = (k.threads t).home := by
  have haway := (k.putAway_homes k.currentThread rsp).2.home t
  refine schedulerHandler_rule (P := fun x => (x.threads t).home = (k.threads t).home) h rfl haway
    (fun next => (dispatch_home _ _ next t).trans haway) ?_
  have hrunning := ((k.putAway k.currentThread rsp).setThread_homes k.currentThread
    (f := fun r => { r with state := .running }) fun _ => rfl).2.home t
  exact hrunning.trans haway

/-- A kernel thread that is made has its stack in the list, and no region is gone. -/
theorem createThread_stack (img : Image) (k : Kernel) (t info entry size : ℕ) :
    (∀ v ∈ k.regions, v ∈ (k.createThread img t info entry size).2.regions) ∧
      ((k.createThread img t info entry size).1 ≠ 0 → ∃ v ∈ (k.createThread img t info entry size).2.regions,
        v.base = ((k.createThread img t info entry size).2.threads t).kernelStack.bottom) := by
  have hadd := k.kernelAllocStack_regions info size
  unfold createThread
  dsimp only
  split_ifs with h1 h2
  · exact ⟨fun v hv => hv, fun h0 => absurd rfl h0⟩
  · exact ⟨hadd.1, fun h0 => absurd rfl h0⟩
  · obtain ⟨top, htop⟩ : ∃ top, top = ((k.kernelAllocStack info size).1 + size) % 2 ^ 64 := ⟨_, rfl⟩
    rw [← htop]
    have hframe := pushFrame_regions (k.kernelAllocStack info size).2 top img.threadExit 0x10 0x08 entry
    generalize pushFrame (k.kernelAllocStack info size).2 top img.threadExit 0x10 0x08 entry = q at hframe
    have hhome := (addThread_homes q.2 t
      (newThread q.1 q.2.nextThreadId 0 ⟨top, (k.kernelAllocStack info size).1, size⟩ ⟨0, 0, 0⟩ 0 0)).2.2 t
    rw [if_pos rfl] at hhome
    have hbottom := congrArg (fun x => x.kernelStack.bottom) hhome
    have hregions : (addThread q.2 t (newThread q.1 q.2.nextThreadId 0 ⟨top, (k.kernelAllocStack info size).1, size⟩
        ⟨0, 0, 0⟩ 0 0)).regions = (k.kernelAllocStack info size).2.regions := (addThread_regions ..).trans hframe
    rw [hregions]
    refine ⟨hadd.1, fun _ => ?_⟩
    obtain ⟨v, hv, hbase⟩ := hadd.2 h2
    exact ⟨v, hv, hbase.trans hbottom.symm⟩

/-- The same for a user thread. -/
theorem createUserThread_stack {proc t info usInfo entry ksize usize : ℕ}
    (h : k.createUserThread proc t info usInfo entry ksize usize = some (r, k')) (h0 : r ≠ 0) :
    (∀ v ∈ k.regions, v ∈ k'.regions) ∧ ∃ v ∈ k'.regions, v.base = (k'.threads t).kernelStack.bottom := by
  obtain ⟨-, kmem, k₁, umem, k₂, rsp, k₃, halloc, hmem, huser, hframe, hk'⟩ := createUserThread_made h h0
  have hadd := k.kernelAllocStack_regions info ksize
  rw [halloc] at hadd
  have hk₂ : k₂.regions = k₁.regions := congrArg (·.regions) (userAllocStack_with huser)
  have hk₃ : k₃.regions = k₂.regions := by
    have hpush := pushFrame_regions k₂ umem 0x300000 0x1B 0x23 entry
    rwa [hframe] at hpush
  have hregions : k'.regions = k₁.regions := by
    rw [hk', addThread_regions]
    exact hk₃.trans hk₂
  have hhome := (addThread_homes { k₃.setProcess proc fun x => { x with ustacksInfos := k₃.usListHead } with
    usListHead := k₁.usListHead, cr3 := k₁.cr3 } t
    (newThread rsp k₃.nextThreadId proc ⟨(kmem + ksize) % 2 ^ 64, kmem, ksize⟩
      ⟨(umem + usize) % 2 ^ 64, umem, usize⟩ (sub64 umem pageSize4KB) umem)).2.2 t
  rw [← hk', if_pos rfl] at hhome
  have hbottom : (k'.threads t).kernelStack.bottom = kmem := congrArg (fun x => x.kernelStack.bottom) hhome
  rw [hregions, hbottom]
  exact ⟨hadd.1, hadd.2 hmem⟩

end Kernel

/-! ## What a run keeps -/

/-- The live threads have records that are live allocations, and their kernel stacks are in the list of the regions.
`next` is the thread that a cleanup goes on with. -/
structure Sound (s : System) (g : Trace) (B : Board) (next : ℕ) : Prop where
  heap : s.HeapReached
  board : Tracks s.kernel g B
  next : g.cleaning 0 = next
  owned : ∀ t ∈ g.live, t ∈ s.live.map Prod.fst
  kernelStacks : ∀ t ∈ g.live, (s.kernel.threads t).kernelStack.bottom ≠ 0 →
    ∃ v ∈ s.kernel.regions, v.base = (s.kernel.threads t).kernelStack.bottom

section Calls
variable {img : Image} {s s₁ s' : System} {g : Trace} {B : Board} {t r p size : ℕ} {k' : Kernel}

/-- The kernel and the allocations that the threads have are as before, but for new regions. -/
theorem Sound.same (h : Sound s g B 0) (hheap : s'.HeapReached) (hsched : s.kernel.SameSched s'.kernel)
    (hregions : ∀ v ∈ s.kernel.regions, v ∈ s'.kernel.regions)
    (hlive : ∀ q ∈ g.live, q ∈ s.live.map Prod.fst → q ∈ s'.live.map Prod.fst) : Sound s' g B 0 := by
  refine ⟨hheap, h.board.congr hsched rfl rfl, h.next, fun t ht => hlive t ht (h.owned t ht), fun t ht => ?_⟩
  rw [hsched.threads]
  intro hne
  obtain ⟨v, hv, hbase⟩ := h.kernelStacks t ht hne
  exact ⟨v, hregions v hv, hbase⟩

/-- A creation, whose thread has its stack in the list. -/
theorem Sound.adds (h : Sound s g B 0) (hheap : s'.HeapReached) (hadd : s.kernel.Adds t r s'.kernel)
    (hregions : ∀ v ∈ s.kernel.regions, v ∈ s'.kernel.regions)
    (hlive : ∀ q ∈ g.live, q ∈ s.live.map Prod.fst → q ∈ s'.live.map Prod.fst)
    (hnew : r ≠ 0 → t ∉ s.live.map Prod.fst ∧ t ∈ s'.live.map Prod.fst ∧
      ∃ v ∈ s'.kernel.regions, v.base = (s'.kernel.threads t).kernelStack.bottom) :
    ∃ g' B', Sound s' g' B' 0 := by
  have hhome := hadd.homes.2
  rcases hadd with ⟨-, hsched⟩ | ⟨rfl, h0, k₁, x, hsched, hx, -, hk'⟩
  · exact ⟨g, B, h.same hheap hsched hregions hlive⟩
  · obtain ⟨hfresh, hmem, hstack⟩ := hnew h0
    have hout : r ∉ g.live := fun hr => hfresh (h.owned r hr)
    obtain ⟨X, Y, -, -, -, htracks⟩ := h.board.create hsched hx hout h0
    rw [← hk'] at htracks
    refine ⟨g.create r, _, hheap, htracks, h.next, fun u hu => ?_, fun u hu => ?_⟩
    · rcases List.mem_cons.mp hu with rfl | hu
      · exact hmem
      · exact hlive u hu (h.owned u hu)
    · rcases List.mem_cons.mp hu with rfl | hu
      · exact fun _ => hstack
      · have hsame : (s'.kernel.threads u).kernelStack = (s.kernel.threads u).kernelStack :=
          congrArg Home.kernelStack (hhome u fun _ hur => hout (hur ▸ hu))
        rw [hsame]
        intro hne
        obtain ⟨v, hv, hbase⟩ := h.kernelStacks u hu hne
        exact ⟨v, hregions v hv, hbase⟩

/-- What a free of a live allocation leaves. -/
theorem kfree_keeps (run : s.HeapReached) (hp : p ∈ s.live.map Prod.fst) : (s.kfree p).HeapReached ∧
    (s.kfree p).stray = s.stray ∧ (s.kfree p).kernel = s.kernel ∧
      ∀ q ∈ s.live.map Prod.fst, q ≠ p → q ∈ (s.kfree p).live.map Prod.fst := by
  obtain ⟨e, he, rfl, heq, hreached⟩ := System.kfree_live run hp
  refine ⟨hreached, by rw [heq], by rw [heq], fun q hq hne => ?_⟩
  rw [heq]
  obtain ⟨f, hf, rfl⟩ := List.mem_map.mp hq
  exact List.mem_map_of_mem ((List.mem_erase_of_ne fun hfe => hne (congrArg Prod.fst hfe)).mpr hf)

/-- What an allocation leaves. -/
structure Took (s s' : System) (p : ℕ) : Prop where
  heap : s'.HeapReached
  stray : s'.stray = s.stray
  kernel : s'.kernel = s.kernel
  live : ∀ q ∈ s.live.map Prod.fst, q ∈ s'.live.map Prod.fst
  fresh : p ≠ 0 → p ∉ s.live.map Prod.fst ∧ p ∈ s'.live.map Prod.fst

theorem took_kmalloc (run : s.HeapReached) (hsize : size ≤ 2 ^ 63) (h : s.kmalloc size = some (p, s')) :
    Took s s' p := by
  have halloc := System.kmalloc_allocates run hsize h
  refine ⟨halloc.reached, by rw [halloc.eq], by rw [halloc.eq], fun q hq => ?_, fun hp => ⟨halloc.fresh hp, ?_⟩⟩
  · rw [halloc.live]
    split_ifs
    · exact hq
    · exact List.mem_cons_of_mem _ hq
  · rw [halloc.live, if_neg hp]
    exact List.mem_cons_self

theorem took_descriptor (run : s.HeapReached) (h : s.descriptor size = some (p, s')) :
    s'.HeapReached ∧ s'.stray = s.stray ∧ s'.kernel = s.kernel ∧
      ∀ q ∈ s.live.map Prod.fst, q ∈ s'.live.map Prod.fst := by
  unfold System.descriptor at h
  split_ifs at h
  · obtain ⟨-, rfl⟩ := Prod.mk.inj (Option.some.inj h)
    exact ⟨run, rfl, rfl, fun q hq => hq⟩
  · have htook := took_kmalloc run (by decide) h
    exact ⟨htook.heap, htook.stray, htook.kernel, htook.live⟩

theorem Sound.createThread {entry : ℕ} (h : Sound s g B 0) (hcall : s.createThread img entry size = some (r, s')) :
    (∃ g' B', Sound s' g' B' 0) ∧ s'.stray = s.stray := by
  obtain ⟨⟨t, s₁⟩, h₁, hcall⟩ := Option.bind_eq_some_iff.mp hcall
  have htook := took_kmalloc h.heap (by decide) h₁
  by_cases ht : t = 0
  · dsimp only at hcall
    rw [if_pos ht] at hcall
    obtain ⟨-, rfl⟩ := Prod.mk.inj (Option.some.inj hcall)
    have hk : s₁.kernel = s.kernel := htook.kernel
    exact ⟨⟨g, B, h.same htook.heap (hk ▸ .refl _) (fun v hv => hk ▸ hv) fun q _ => htook.live q⟩, htook.stray⟩
  dsimp only at hcall
  rw [if_neg ht] at hcall
  obtain ⟨⟨info, s₂⟩, h₂, heq⟩ := Option.map_eq_some_iff.mp hcall
  obtain ⟨hheap₂, hstray₂, hk₂, hlive₂⟩ := took_descriptor htook.heap h₂
  have hk : s₂.kernel = s.kernel := hk₂.trans htook.kernel
  obtain ⟨hfresh, hmem⟩ := htook.fresh ht
  have hkept : ∀ q ∈ s.live.map Prod.fst, q ∈ s₂.live.map Prod.fst := fun q hq => hlive₂ q (htook.live q hq)
  obtain ⟨hr, hs'⟩ := Prod.mk.inj heq
  have hadd := Kernel.createThread_adds img s₂.kernel t info entry size
  have hstack := s₂.kernel.createThread_stack img t info entry size
  rw [hr] at hs' hadd hstack
  obtain ⟨k₃, hk₃⟩ : ∃ k₃, k₃ = (s₂.kernel.createThread img t info entry size).2 := ⟨_, rfl⟩
  rw [← hk₃] at hs' hadd hstack
  rw [hk] at hadd hstack
  by_cases hr0 : r = 0
  · rw [if_pos hr0] at hs'
    obtain ⟨hheap, hstray, hkernel, hlive⟩ := kfree_keeps (s := { s₂ with kernel := k₃ }) hheap₂ (hlive₂ t hmem)
    rw [hs'] at hheap hstray hkernel hlive
    change s'.kernel = k₃ at hkernel
    rw [← hkernel] at hadd hstack
    refine ⟨h.adds hheap hadd hstack.1 (fun q hq hq' => ?_) fun h0 => absurd hr0 h0,
      hstray.trans (hstray₂.trans htook.stray)⟩
    exact hlive q (hkept q hq') fun hqt => hfresh (hqt ▸ hq')
  · rw [if_neg hr0] at hs'
    rw [← hs']
    refine ⟨h.adds hheap₂ hadd hstack.1 (fun q _ => hkept q) fun h0 => ?_, hstray₂.trans htook.stray⟩
    exact ⟨hfresh, hlive₂ t hmem, hstack.2 h0⟩

theorem Sound.createUserThread {proc entry ksize usize : ℕ} (h : Sound s g B 0)
    (hcall : s.createUserThread proc entry ksize usize = some (r, s')) :
    (∃ g' B', Sound s' g' B' 0) ∧ s'.stray = s.stray := by
  obtain ⟨⟨t, s₁⟩, h₁, hcall⟩ := Option.bind_eq_some_iff.mp hcall
  have htook := took_kmalloc h.heap (by decide) h₁
  by_cases ht : t = 0
  · dsimp only at hcall
    rw [if_pos ht] at hcall
    obtain ⟨-, rfl⟩ := Prod.mk.inj (Option.some.inj hcall)
    have hk : s₁.kernel = s.kernel := htook.kernel
    exact ⟨⟨g, B, h.same htook.heap (hk ▸ .refl _) (fun v hv => hk ▸ hv) fun q _ => htook.live q⟩, htook.stray⟩
  dsimp only at hcall
  rw [if_neg ht] at hcall
  obtain ⟨⟨info, s₂⟩, h₂, hcall⟩ := Option.bind_eq_some_iff.mp hcall
  obtain ⟨hheap₂, hstray₂, hk₂, hlive₂⟩ := took_descriptor htook.heap h₂
  have hk : s₂.kernel = s.kernel := hk₂.trans htook.kernel
  obtain ⟨hfresh, hmem⟩ := htook.fresh ht
  have hkept : ∀ q ∈ s.live.map Prod.fst, q ∈ s₂.live.map Prod.fst := fun q hq => hlive₂ q (htook.live q hq)
  dsimp only at hcall
  by_cases hstack : (s₂.kernel.kernelAllocStack info ksize).1 = 0
  · rw [if_pos hstack] at hcall
    obtain ⟨-, hs'⟩ := Prod.mk.inj (Option.some.inj hcall)
    have hsched := s₂.kernel.kernelAllocStack_same info ksize
    have hregions := (s₂.kernel.kernelAllocStack_regions info ksize).1
    obtain ⟨k₃, hk₃⟩ : ∃ k₃, k₃ = (s₂.kernel.kernelAllocStack info ksize).2 := ⟨_, rfl⟩
    rw [← hk₃] at hs' hsched hregions
    rw [hk] at hsched hregions
    obtain ⟨hheap, hstray, hkernel, hlive⟩ := kfree_keeps (s := { s₂ with kernel := k₃ }) hheap₂ (hlive₂ t hmem)
    rw [hs'] at hheap hstray hkernel hlive
    change s'.kernel = k₃ at hkernel
    rw [← hkernel] at hsched hregions
    refine ⟨⟨g, B, h.same hheap hsched hregions fun q _ hq => ?_⟩, hstray.trans (hstray₂.trans htook.stray)⟩
    exact hlive q (hkept q hq) fun hqt => hfresh (hqt ▸ hq)
  · rw [if_neg hstack] at hcall
    obtain ⟨⟨usInfo, s₃⟩, h₃, hcall⟩ := Option.bind_eq_some_iff.mp hcall
    obtain ⟨hheap₃, hstray₃, hk₃, hlive₃⟩ := took_descriptor hheap₂ h₃
    obtain ⟨⟨r', k'⟩, hcreate, heq⟩ := Option.map_eq_some_iff.mp hcall
    obtain ⟨rfl, rfl⟩ := Prod.mk.inj heq
    dsimp only at hcreate
    have hmade : r' ≠ 0 := by
      intro hr
      rw [hk₃, Kernel.createUserThread, if_neg ht] at hcreate
      dsimp only at hcreate
      rw [if_neg hstack] at hcreate
      obtain ⟨_, -, heq'⟩ := Option.bind_eq_some_iff.mp hcreate
      split_ifs at heq'
      exact ht ((Prod.mk.inj (Option.some.inj heq')).1.trans hr)
    have hadd := Kernel.createUserThread_adds hcreate
    obtain ⟨hregions, hbase⟩ := Kernel.createUserThread_stack hcreate hmade
    rw [hk₃, hk] at hadd hregions
    refine ⟨h.adds hheap₃ hadd hregions (fun q _ hq => hlive₃ q (hkept q hq)) fun _ => ?_,
      hstray₃.trans (hstray₂.trans htook.stray)⟩
    exact ⟨hfresh, hlive₃ t (hlive₂ t hmem), hbase⟩

theorem Sound.createUserProcess (h : Sound s g B 0) (hcall : s.createUserProcess = some (r, s')) :
    (∃ g' B', Sound s' g' B' 0) ∧ s'.stray = s.stray := by
  obtain ⟨⟨p, s₁⟩, h₁, heq⟩ := Option.map_eq_some_iff.mp hcall
  have htook := took_kmalloc h.heap (by decide) h₁
  have hk : s₁.kernel = s.kernel := htook.kernel
  have hsched := s₁.kernel.createUserProcess_same p
  have hregions := s₁.kernel.createUserProcess_regions p
  dsimp only at heq
  generalize s₁.kernel.createUserProcess p = q at heq hsched hregions
  obtain ⟨r', k₂⟩ := q
  obtain ⟨-, hs'⟩ := Prod.mk.inj heq
  rw [hk] at hsched hregions
  have hsame : Sound { s₁ with kernel := k₂ } g B 0 :=
    h.same htook.heap hsched (fun v hv => hregions ▸ hv) fun q _ => htook.live q
  split_ifs at hs'
  · by_cases hp : p = 0
    · rw [← hs', System.kfree, if_pos hp]
      exact ⟨⟨g, B, hsame⟩, htook.stray⟩
    · obtain ⟨hfresh, hmem⟩ := htook.fresh hp
      obtain ⟨hheap, hstray, hkernel, hlive⟩ := kfree_keeps (s := { s₁ with kernel := k₂ }) htook.heap hmem
      rw [hs'] at hheap hstray hkernel hlive
      change s'.kernel = k₂ at hkernel
      rw [← hkernel] at hsched hregions
      refine ⟨⟨g, B, h.same hheap hsched (fun v hv => hregions ▸ hv) fun q _ hq => ?_⟩, hstray.trans htook.stray⟩
      exact hlive q (htook.live q hq) fun hqp => hfresh (hqp ▸ hq)
  · rw [← hs']
    exact ⟨⟨g, B, hsame⟩, htook.stray⟩

/-- A switch. -/
theorem Sound.switched {g' : Trace} {B' : Board} (h : Sound s g B 0) (htracks : Tracks k' g' B')
    (hlive : g'.live = g.live) (hnext : g'.cleaning = g.cleaning) (hregions : k'.regions = s.kernel.regions)
    (hhome : ∀ t, (k'.threads t).home = (s.kernel.threads t).home) : Sound { s with kernel := k' } g' B' 0 := by
  refine ⟨h.heap, htracks, by rw [hnext]; exact h.next, fun t ht => h.owned t (hlive ▸ ht), fun t ht => ?_⟩
  have hstack : (k'.threads t).kernelStack = (s.kernel.threads t).kernelStack := congrArg Home.kernelStack (hhome t)
  dsimp only
  rw [hstack, hregions]
  exact h.kernelStacks t (hlive ▸ ht)

theorem Sound.tick {rsp : ℕ} (h : Sound s g B 0) (hcall : s.kernel.schedulerHandler rsp = some (r, k')) :
    ∃ g' B', Sound { s with kernel := k' } g' B' 0 := by
  obtain ⟨-, B', -, htracks, -⟩ := (h.board.followed_tick hcall).moved
  obtain ⟨hlive, hnext⟩ := g.handled_live s.kernel k'
  exact ⟨_, B', h.switched htracks hlive hnext (Kernel.schedulerHandler_regions hcall)
    (Kernel.schedulerHandler_home hcall)⟩

theorem Sound.exit {rsp : ℕ} (h : Sound s g B 0) (hcall : s.kernel.threadExit rsp = some (r, k')) :
    ∃ g' B', Sound { s with kernel := k' } g' B' 0 := by
  obtain ⟨-, B', -, htracks, -⟩ := (h.board.followed_exit hcall).moved
  obtain ⟨hlive, hnext⟩ := (g.exit s.kernel.currentThread).handled_live s.kernel k'
  have hswitch : s.kernel.markDead.schedulerHandler rsp = some (r, k') := hcall
  have hregions : k'.regions = s.kernel.regions := by
    have hkept := Kernel.schedulerHandler_regions hswitch
    exact hkept
  refine ⟨_, B', h.switched htracks hlive hnext hregions fun t => ?_⟩
  exact (Kernel.schedulerHandler_home hswitch t).trans ((s.kernel.setThread_homes s.kernel.currentThread
    (f := fun r => { r with state := .dead }) fun _ => rfl).2.home t)

/-! ## Cleanups -/

theorem System.kfree_kernel (s : System) (p : ℕ) : (s.kfree p).kernel = s.kernel := by
  unfold System.kfree
  split_ifs
  · rfl
  · cases s.live.find? fun e => decide (e.1 = p) <;> rfl

/-- No cleanup takes a region out of the list. -/
theorem cleanupFrom_regions {fuel : ℕ} (h : s.cleanupFrom fuel t = some s') :
    s'.kernel.regions = s.kernel.regions := by
  induction fuel generalizing s t with
  | zero => exact nomatch h
  | succ fuel ih =>
    rw [System.cleanupFrom] at h
    by_cases ht : t = 0
    · rw [if_pos ht] at h
      obtain rfl := Option.some.inj h
      rfl
    · rw [if_neg ht] at h
      obtain ⟨s₁, h₁, hrest⟩ := Option.bind_eq_some_iff.mp h
      rw [System.destroyThread, if_neg ht] at h₁
      obtain ⟨k, hk, rfl⟩ := Option.map_eq_some_iff.mp h₁
      have hregions := Kernel.destroyThread_regions hk
      rw [ih hrest, System.kfree_kernel]
      rw [System.kfree_kernel] at hregions
      exact hregions

/-- Threads without a kernel stack are given back. -/
theorem Sound.cleanupFrom {fuel : ℕ} (h : Sound s g B t)
    (hnone : ∀ u ∈ B.cleaning 0, (s.kernel.threads u).kernelStack.bottom = 0)
    (hcall : s.cleanupFrom fuel t = some s') : (∃ g' B', Sound s' g' B' 0) ∧ s'.stray = s.stray := by
  induction fuel generalizing s g B t with
  | zero => exact nomatch hcall
  | succ fuel ih =>
    rw [System.cleanupFrom] at hcall
    by_cases ht : t = 0
    · rw [if_pos ht] at hcall
      obtain rfl := Option.some.inj hcall
      exact ⟨⟨g, B, ht ▸ h⟩, rfl⟩
    · rw [if_neg ht] at hcall
      obtain ⟨s₁, h₁, hrest⟩ := Option.bind_eq_some_iff.mp hcall
      have hnext : g.cleaning 0 ≠ 0 := by
        rw [h.next]
        exact ht
      have hchain := h.board.cleaning 0
      have hmem : t ∈ B.cleaning 0 := by
        rw [h.next] at hchain
        cases hl : B.cleaning 0 with
        | nil =>
          rw [hl] at hchain
          exact absurd hchain ht
        | cons u l =>
          rw [hl] at hchain
          rw [hchain.1]
          exact List.mem_cons_self
      have hlive : t ∈ g.live := h.board.mem_live (p := .cleaning 0) hmem
      rw [System.destroyThread, if_neg ht] at h₁
      dsimp only at h₁
      rw [hnone t hmem, System.kfree, if_pos rfl] at h₁
      obtain ⟨k, hk, hs₁⟩ := Option.map_eq_some_iff.mp h₁
      have hsched := Kernel.destroyThread_same hk
      have hregions := Kernel.destroyThread_regions hk
      have hround : s.kernel.cleanupRound (g.cleaning 0) = some ((s.kernel.threads t).next, k) := by
        rw [h.next, Kernel.cleanupRound, hk]
        rfl
      obtain ⟨l, hl, htracks⟩ := h.board.cleanupRound hnext hround
      rw [h.next] at htracks hl
      obtain ⟨hheap, hstray, hkernel, hkept⟩ := kfree_keeps (s := { s with kernel := k }) h.heap (h.owned t hlive)
      rw [hs₁] at hheap hstray hkernel hkept
      change s₁.kernel = k at hkernel
      rw [← hkernel] at hsched hregions htracks
      have hsound : Sound s₁ ((g.destroy t).setCleaning 0 (s.kernel.threads t).next)
          { B with cleaning := Function.update B.cleaning 0 l } (s.kernel.threads t).next := by
        have hfirst : ((g.destroy t).setCleaning 0 (s.kernel.threads t).next).cleaning 0 =
            (s.kernel.threads t).next := by simp [Trace.setCleaning]
        refine ⟨hheap, htracks, hfirst, fun u hu => ?_, fun u hu => ?_⟩
        · obtain ⟨hu, hne⟩ := List.mem_filter.mp hu
          exact hkept u (h.owned u hu) (of_decide_eq_true hne)
        · rw [hsched.threads, hregions]
          exact h.kernelStacks u (List.mem_filter.mp hu).1
      have hleft : ∀ u ∈ Function.update B.cleaning 0 l 0, (s₁.kernel.threads u).kernelStack.bottom = 0 := by
        rw [Function.update_self, hsched.threads]
        intro u hu
        exact hnone u (by rw [hl]; exact List.mem_cons_of_mem _ hu)
      obtain ⟨hdone, hsame⟩ := ih hsound hleft hrest
      exact ⟨hdone, hsame.trans hstray⟩

theorem Sound.cleanup (h : Sound s g B 0) (hnone : ∀ t, ¬s.kernel.DeadWithStack t)
    (hcall : s.cleanupDeadThreads = some s') : (∃ g' B', Sound s' g' B' 0) ∧ s'.stray = s.stray := by
  obtain ⟨-, htracks⟩ := h.board.takeDead (s := 0) h.next
  have hzero : 0 ∉ B.dead := fun h0 => h.board.null (h.board.mem_live (p := .dead) h0)
  have hfirst : (g.setCleaning 0 s.kernel.takeDead.1).cleaning 0 = s.kernel.takeDead.1 := by simp [Trace.setCleaning]
  have htaken : Sound { s with kernel := s.kernel.takeDead.2 } (g.setCleaning 0 s.kernel.takeDead.1)
      { B with dead := [], cleaning := Function.update B.cleaning 0 B.dead } s.kernel.takeDead.1 :=
    ⟨h.heap, htracks, hfirst, h.owned, h.kernelStacks⟩
  refine htaken.cleanupFrom (fun u hu => ?_) hcall
  dsimp only at hu
  rw [Function.update_self] at hu
  by_contra hne
  exact hnone u ⟨(h.board.dead.linked_iff hzero).mpr hu, hne⟩

/-! ## Runs -/

/-- A call that destroys no thread with a kernel stack gives everything back. -/
theorem Sound.step {c : ThreadCall} (h : Sound s g B 0) (hcall : c.run img s = some s')
    (hnone : ¬(⟨s, c, s'⟩ : ThreadStep).DestroysStack) :
    (∃ g' B', Sound s' g' B' 0) ∧ (⟨s, c, s'⟩ : ThreadStep).TearsDown := by
  have hboth : (∃ g' B', Sound s' g' B' 0) ∧ s'.stray = s.stray := by
    cases c with
    | createThread entry size =>
      obtain ⟨p, hp, rfl⟩ := Option.map_eq_some_iff.mp hcall
      exact h.createThread hp
    | createUserThread proc entry ksize usize =>
      obtain ⟨p, hp, rfl⟩ := Option.map_eq_some_iff.mp hcall
      exact h.createUserThread hp
    | createUserProcess =>
      obtain ⟨p, hp, rfl⟩ := Option.map_eq_some_iff.mp hcall
      exact h.createUserProcess hp
    | tick rsp =>
      obtain ⟨p, hp, rfl⟩ := Option.map_eq_some_iff.mp hcall
      exact ⟨h.tick hp, rfl⟩
    | exit rsp =>
      obtain ⟨p, hp, rfl⟩ := Option.map_eq_some_iff.mp hcall
      exact ⟨h.exit hp, rfl⟩
    | cleanup => exact h.cleanup (fun t ht => hnone ⟨rfl, t, ht⟩) hcall
  obtain ⟨⟨g', B', hsound⟩, hstray⟩ := hboth
  exact ⟨⟨g', B', hsound⟩, hstray, freeNodesInside hsound.heap, fun hc t ht => absurd ⟨hc, t, ht⟩ hnone⟩

/-- The region of a destroyed kernel stack stays in the list. -/
theorem Sound.not_tearsDown {c : ThreadCall} (h : Sound s g B 0) (hcall : c.run img s = some s')
    (hdestroys : (⟨s, c, s'⟩ : ThreadStep).DestroysStack) : ¬(⟨s, c, s'⟩ : ThreadStep).TearsDown := by
  intro htears
  obtain ⟨hc, t, ht⟩ := hdestroys
  have hzero : 0 ∉ B.dead := fun h0 => h.board.null (h.board.mem_live (p := .dead) h0)
  have hlive : t ∈ g.live := h.board.mem_live (p := .dead) ((h.board.dead.linked_iff hzero).mp ht.1)
  obtain ⟨v, hv, hbase⟩ := h.kernelStacks t hlive ht.2
  change c = .cleanup at hc
  subst hc
  have hloop : System.cleanupFrom (2 ^ 64) s.kernel.takeDead.1 { s with kernel := s.kernel.takeDead.2 } = some s' :=
    hcall
  have hkept := cleanupFrom_regions hloop
  change s'.kernel.regions = s.kernel.regions at hkept
  exact (htears.regions rfl t ht v hv hbase).1 (hkept ▸ hv)

theorem MainStarted.sound (h : MainStarted s) : ∃ g B, Sound s g B 0 := by
  cases h with
  | @intro s s₁ main run hmain h0 hready hdead hmutexes =>
    have htook := took_kmalloc run (by decide) hmain
    have hk : s₁.kernel = s.kernel := htook.kernel
    rw [← hk] at hready hdead hmutexes
    obtain ⟨htracks, -⟩ := tracks_startMain h0 hready hdead hmutexes
    have hlive : (Trace.empty.record main).live = [main] := by rw [Trace.record, if_neg h0]; rfl
    have hnext : (Trace.empty.record main).cleaning 0 = 0 := by rw [Trace.record, if_neg h0]; rfl
    refine ⟨_, _, htook.heap, htracks, hnext, fun t ht => ?_, fun t ht hne => ?_⟩
    all_goals
      rw [hlive, List.mem_singleton] at ht
      subst ht
    · exact (htook.fresh h0).2
    · refine absurd ?_ hne
      dsimp only [Kernel.startMain]
      have hhome := (Kernel.enqueueThread_homes { s₁.kernel.setThread t fun r =>
        { r with tid := s₁.kernel.nextThreadId, state := .running, rsp := 0
                 kernelStack := { r.kernelStack with bottom := 0 } } with
        nextThreadId := (s₁.kernel.nextThreadId + 1) % 2 ^ 64 } t).2.home t
      refine (congrArg (fun x => x.kernelStack.bottom) hhome).trans ?_
      simp [Thread.home, Kernel.setThread]

/-- A run gives everything back as long as no cleanup destroyed a thread with a kernel stack. -/
theorem ThreadRun.sound {l : List ThreadStep} (h : ThreadRun img l s) (hnone : ∀ x ∈ l, ¬x.DestroysStack) :
    (∃ g B, Sound s g B 0) ∧ ∀ x ∈ l, x.TearsDown := by
  induction h with
  | init h => exact ⟨h.sound, fun x hx => absurd hx List.not_mem_nil⟩
  | step _ c hrun ih =>
    obtain ⟨hhere, hrest⟩ := List.forall_mem_cons.mp hnone
    obtain ⟨⟨g, B, hsound⟩, hall⟩ := ih hrest
    obtain ⟨hsound', htears⟩ := hsound.step hrun hhere
    exact ⟨hsound', List.forall_mem_cons.mpr ⟨htears, hall⟩⟩

/-- The steps of a run give everything back if and only if none of them destroys a thread with a kernel stack. -/
theorem teardown_iff {l : List ThreadStep} (h : ThreadRun img l s) :
    (∀ x ∈ l, x.TearsDown) ↔ ∀ x ∈ l, ¬x.DestroysStack := by
  refine ⟨fun htears => ?_, fun hnone => (h.sound hnone).2⟩
  induction h with
  | init _ => exact fun x hx => absurd hx List.not_mem_nil
  | step hbefore c hrun ih =>
    obtain ⟨hhere, hrest⟩ := List.forall_mem_cons.mp htears
    have hnone := ih hrest
    obtain ⟨⟨g, B, hsound⟩, -⟩ := hbefore.sound hnone
    exact List.forall_mem_cons.mpr ⟨fun hd => hsound.not_tearsDown hrun hd hhere, hnone⟩

/-- The calls one after the other from the start of the main thread on the heap of `init_kheap`. -/
def callSteps (img : Image) : List ThreadCall → System → List ThreadStep → Option (List ThreadStep × System)
  | [], s, l => some (l, s)
  | c :: cs, s, l => (c.run img s).bind fun s' => callSteps img cs s' (⟨s, c, s'⟩ :: l)

theorem ThreadRun.callSteps {cs : List ThreadCall} {l l' : List ThreadStep} (h : ThreadRun img l s)
    (hcalls : callSteps img cs s l = some (l', s')) : ThreadRun img l' s' := by
  induction cs generalizing s l with
  | nil =>
    obtain ⟨rfl, rfl⟩ := Prod.mk.inj (Option.some.inj hcalls)
    exact h
  | cons c cs ih =>
    obtain ⟨s₁, h₁, hrest⟩ := Option.bind_eq_some_iff.mp hcalls
    exact ih (h.step c h₁) hrest

def mainSteps (cs : List ThreadCall) : Option (ℕ × List ThreadStep × System) :=
  (freshSystem.kmalloc threadSize).bind fun (main, s) =>
    (callSteps bootImage cs { s with kernel := s.kernel.startMain main } []).map fun q => (main, q)

theorem mainSteps_run {cs : List ThreadCall} {main : ℕ} {l : List ThreadStep} (h : mainSteps cs = some (main, l, s))
    (h0 : main ≠ 0) : ThreadRun bootImage l s := by
  obtain ⟨⟨p, s₁⟩, hp, hcalls⟩ := Option.bind_eq_some_iff.mp h
  obtain ⟨q, hq, heq⟩ := Option.map_eq_some_iff.mp hcalls
  obtain ⟨rfl, rfl⟩ := Prod.mk.inj heq
  exact (ThreadRun.init (.intro freshSystem_reached hp h0 rfl rfl fun _ => rfl)).callSteps hq

/-- The main thread, which has no stack of its own, exits after it created another one, and is destroyed. -/
theorem teardown_main_exits : ∃ l s x, ThreadRun bootImage l s ∧ x ∈ l ∧ x.call = .cleanup ∧
    x.before.kernel.deadListHead ≠ 0 ∧ x.after.kernel.deadListHead = 0 ∧ ∀ x ∈ l, x.TearsDown := by
  have hdone : (mainSteps [.createThread 0x1000 0x1000, .exit 0]).bind (fun q =>
      q.2.2.cleanupDeadThreads.map fun s => (decide (q.1 = 0), (q.2.1.map fun x => x.before.kernel.deadListHead),
        decide (q.2.2.kernel.deadListHead = 0), nextOf q.2.2.kernel.threads q.2.2.kernel.deadListHead,
        (q.2.2.kernel.threads q.2.2.kernel.deadListHead).kernelStack.bottom, s.kernel.deadListHead)) =
          some (false, [0, 0], false, 0, 0, 0) := by decide +kernel
  obtain ⟨⟨main, l, s⟩, hq, hclean⟩ := Option.bind_eq_some_iff.mp hdone
  obtain ⟨s', hs', heq⟩ := Option.map_eq_some_iff.mp hclean
  simp only [Prod.mk.injEq, decide_eq_false_iff_not] at heq
  obtain ⟨hmain, hheads, hdead, hnext, hbottom, hafter⟩ := heq
  have hrun := (mainSteps_run hq hmain).step .cleanup hs'
  refine ⟨_, s', ⟨s, .cleanup, s'⟩, hrun, List.mem_cons_self, rfl, hdead, hafter, (teardown_iff hrun).mpr ?_⟩
  rintro x hx ⟨-, t, hlinked, hstack⟩
  rcases List.mem_cons.mp hx with rfl | hx
  · -- the list is the main thread alone
    cases hlinked with
    | here _ => exact hstack hbottom
    | next _ ht => exact absurd hnext ht.ne_null
  · have hhead : x.before.kernel.deadListHead ∈ [0, 0] := hheads ▸ List.mem_map_of_mem hx
    exact hlinked.ne_null (by simpa using hhead)

/-- A thread with a stack of one page that exits: its stack is given to `kfree`, and the region stays. -/
theorem kernel_stack_given_to_kfree : ∃ l s x, ThreadRun bootImage l s ∧ x ∈ l ∧ x.call = .cleanup ∧
    x.before.stray = [] ∧ x.after.stray = [vmallocStart] ∧ ⟨vmallocStart, 0x1000⟩ ∈ x.after.kernel.regions ∧
    ¬∀ x ∈ l, x.TearsDown := by
  have hdone : (mainSteps [.createThread 0x1000 0x1000, .tick 0, .exit 0]).bind (fun q =>
      q.2.2.cleanupDeadThreads.map fun s => (decide (q.1 = 0), q.2.2.stray, s.stray, s.kernel.regions)) =
        some (false, [], [vmallocStart], [⟨vmallocStart, 0x1000⟩]) := by decide +kernel
  obtain ⟨⟨main, l, s⟩, hq, hclean⟩ := Option.bind_eq_some_iff.mp hdone
  obtain ⟨s', hs', heq⟩ := Option.map_eq_some_iff.mp hclean
  obtain ⟨hmain, heq⟩ := Prod.mk.inj heq
  obtain ⟨hbefore, heq⟩ := Prod.mk.inj heq
  obtain ⟨hafter, hregions⟩ := Prod.mk.inj heq
  have hrun := (mainSteps_run hq (of_decide_eq_false hmain)).step .cleanup hs'
  refine ⟨_, s', ⟨s, .cleanup, s'⟩, hrun, List.mem_cons_self, rfl, hbefore, hafter, ?_, fun hall => ?_⟩
  · rw [hregions]
    exact List.mem_singleton_self _
  · have hkfreed := (hall _ List.mem_cons_self).kfreed
    dsimp only at hkfreed hbefore hafter
    rw [hbefore, hafter] at hkfreed
    exact absurd hkfreed (by decide)

end Calls

end PointerOS
