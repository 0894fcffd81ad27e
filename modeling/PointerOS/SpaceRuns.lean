import PointerOS.AddressSpaces

/-!
# Runs with user threads

The runs in which threads without a process make and destroy processes and user threads, and every
allocation succeeds: the address space, the stack list and the ring-0 stack follow the current
thread, and the lists of the processes have the stacks of their threads.
-/
namespace PointerOS
open LinkedList GapList

/-- The thread has a user stack, which lies in the address space. -/
def Thread.StackMade (r : Thread) : Prop := 0 < r.userStack.bottom ∧ r.userStack.size ≤ r.userStack.bottom

namespace Call

/-- The processes after the call. -/
def processes (ps : List ℕ) : Call → List ℕ
  | createUserProcess p => p :: ps
  | _ => ps

/-- Processes and user threads are made and destroyed by threads without a process, and the memory
for them is there and was not in use. -/
def Allocated (k : Kernel) (ps : List ℕ) : Call → Prop
  | createUserProcess p =>
    (k.threads k.currentThread).process = 0 ∧ p ∉ ps ∧ (k.createUserProcess p).1 ≠ 0
  | createUserThread proc t info usInfo entry ksize usize =>
    (k.threads k.currentThread).process = 0 ∧ proc ∈ ps ∧
      (∀ p ∈ ps, ¬Linked (nextUs k.usInfos) 0 (k.processes p).ustacksInfos usInfo) ∧
        ∀ r k', k.createUserThread proc t info usInfo entry ksize usize = some (r, k') →
          r ≠ 0 ∧ (k'.threads t).StackMade
  | cleanupRound => (k.threads k.currentThread).process = 0
  | _ => True

end Call

/-- The boot made the process and its thread, and the main thread has no process. -/
structure BootedUser (img : Image) (b : Kernel.BootPointers) (k₀ k : Kernel) (l : List ℕ) : Prop
    extends Booted img b k₀ k l where
  main_process : (k₀.threads b.main).process = 0
  usListHead : k₀.usListHead = 0
  user : l.getLast? = some b.user ∧ b.user ≠ 0
  process : (k.threads b.user).process = b.process ∧ b.process ≠ 0
  stack : (k.threads b.user).StackMade

/-- The runs, with at least two threads in the ring, and the processes made so far. -/
inductive UserRun (img : Image) (b : Kernel.BootPointers) : Kernel → Trace → List ℕ → Prop
  | init {k₀ k : Kernel} {l : List ℕ} (h : BootedUser img b k₀ k l) : UserRun img b k (Trace.start l) [b.process]
  | step {k k' : Kernel} {g g' : Trace} {ps : List ℕ} (h : UserRun img b k g ps) (c : Call) (hc : c.Proper k g)
      (htwo : RingOfTwo k g c) (hok : c.Allocated k ps) (hrun : c.run img k g = some (k', g')) :
      UserRun img b k' g' (c.processes ps)

section Steps
variable {img : Image} {b : Kernel.BootPointers} {k k' : Kernel} {g g' : Trace} {B : Board} {ps : List ℕ}
  {ns : ℕ → List ℕ} {t p r : ℕ}

theorem StackLists.same (h : StackLists k g ps ns) (hs : k.SameSpace k') (hh : k.SameHomes k') (hlive : g'.live = g.live) :
    StackLists k' g' ps ns :=
  h.congr hlive hs.processes hs.usInfos fun t _ => hh.home t

theorem StackLists.createThread (h : StackLists k g ps ns) {info entry size : ℕ}
    (hfresh : (k.createThread img t info entry size).1 ≠ 0 → (k.createThread img t info entry size).1 ∉ g.live) :
    StackLists (k.createThread img t info entry size).2 (g.record (k.createThread img t info entry size).1) ps ns := by
  obtain ⟨hs, -, hr | ⟨hr, h0, hh, hp⟩⟩ := Kernel.createThread_homes img k t info entry size
  · rw [Trace.record, if_pos hr.1]
    exact h.same hs hr.2 rfl
  · rw [hr] at hfresh ⊢
    rw [Trace.record, if_neg h0]
    exact h.addKernelThread (hfresh h0) rfl hs.processes hs.usInfos (fun u hu => hh u fun he => hfresh h0 (he ▸ hu)) hp

/-- A user thread that is made has its stack in the list of its process. -/
theorem StackLists.createUserThread (h : StackLists k g ps ns) {info usInfo entry ksize usize : ℕ}
    (hcall : k.createUserThread p t info usInfo entry ksize usize = some (r, k')) (hr : r ≠ 0) (hp : p ∈ ps)
    (ht : t ∉ g.live) (hi : ∀ q ∈ ps, usInfo ∉ ns q) (hmade : (k'.threads t).StackMade) :
    r = t ∧ ∃ l, StackLists k' (g.create t) ps (Function.update ns p l) := by
  obtain ⟨rfl, kmem, k₁, umem, k₂, rsp, k₃, halloc, -, huser, hframe, hk'⟩ := Kernel.createUserThread_made hcall hr
  have hs₁ : k.SameSpace k₁ := by
    have := k.kernelAllocStack_space info ksize
    rwa [halloc] at this
  have hsched₁ : k.SameSched k₁ := by
    have := k.kernelAllocStack_same info ksize
    rwa [halloc] at this
  have hs₃ : k₂.SameSpace k₃ := by
    have := k₂.pushFrame_space umem 0x300000 0x1B 0x23 entry
    rwa [hframe] at this
  have hsched₃ : k₂.SameSched k₃ := by
    have := k₂.pushFrame_same umem 0x300000 0x1B 0x23 entry
    rwa [hframe] at this
  obtain ⟨hs', -, hhome⟩ := Kernel.addThread_homes
    { k₃.setProcess p fun x => { x with ustacksInfos := k₃.usListHead } with
      usListHead := k₁.usListHead, cr3 := k₁.cr3 } r
    (Kernel.newThread rsp k₃.nextThreadId p ⟨(kmem + ksize) % 2 ^ 64, kmem, ksize⟩
      ⟨(umem + usize) % 2 ^ 64, umem, usize⟩ (sub64 umem pageSize4KB) umem)
  rw [← hk'] at hs' hhome
  have htr := hhome r
  rw [if_pos rfl] at htr
  have hbottom : (k'.threads r).userStack = ⟨(umem + usize) % 2 ^ 64, umem, usize⟩ := congrArg Home.userStack htr
  have hproc : (k'.threads r).process = p := congrArg Home.process htr
  rw [Thread.StackMade, hbottom] at hmade
  obtain ⟨hpos, hfit⟩ := hmade
  dsimp only at hpos hfit
  have hsched₂ := Kernel.userAllocStack_same huser
  unfold Kernel.userAllocStack at huser
  split_ifs at huser with h1 h2
  · rw [← (Prod.mk.inj (Option.some.inj huser)).1] at hpos
    exact absurd hpos (lt_irrefl 0)
  · rw [← (Prod.mk.inj (Option.some.inj huser)).1] at hpos
    exact absurd hpos (lt_irrefl 0)
  · obtain ⟨k₄, hadd, heq⟩ := Option.map_eq_some_iff.mp huser
    obtain ⟨hbase, hk₂⟩ := Prod.mk.inj heq
    obtain ⟨hwith, hsize⟩ := Kernel.usAddToList_with hadd
    have hfields : k₂.usInfos = k₄.usInfos ∧ k₂.usListHead = k₄.usListHead ∧ k₂.processes = k.processes := by
      rw [← hk₂, hwith]
      exact ⟨rfl, rfl, hs₁.processes⟩
    have hnew : Function.update k₁.usInfos usInfo { k₁.usInfos usInfo with size := usize } usInfo =
        { k₁.usInfos usInfo with size := usize } := Function.update_self ..
    have hsize' : (k₄.usInfos usInfo).size = usize := hsize.trans (congrArg UsNode.size hnew)
    have hhomes : ∀ u ∈ g.live, (k'.threads u).home = (k.threads u).home := by
      intro u hu
      have hur : u ≠ r := fun he => ht (he ▸ hu)
      have hT : k₃.threads = k.threads := hsched₃.threads.trans (hsched₂.threads.trans hsched₁.threads)
      have hu' := hhome u
      rw [if_neg hur] at hu'
      exact hu'.trans (congrArg (fun T => (T u).home) hT)
    refine ⟨rfl, h.addUserThread (i := usInfo) hp ht hi h2 rfl ?_ (fun j hj => ?_) hadd ?_ ?_ ?_ ?_ hhomes hproc ?_⟩
    · change (k₁.processes p).ustacksInfos = _
      rw [hs₁.processes]
    · have hj' : Function.update k₁.usInfos usInfo { k₁.usInfos usInfo with size := usize } j = k₁.usInfos j :=
        Function.update_of_ne hj ..
      exact hj'.trans (congrFun hs₁.usInfos j)
    · rw [← hsize, hsize']
      omega
    · rw [← hsize, hsize', hbase]
      exact hfit
    · rw [hs'.processes]
      change Function.update k₃.processes p { k₃.processes p with ustacksInfos := k₃.usListHead } = _
      rw [hs₃.processes, hs₃.usListHead, hfields.2.2, hfields.2.1]
    · exact hs'.usInfos.trans (hs₃.usInfos.trans hfields.1)
    · rw [Thread.stack, hbottom, UsNode.stack, hbase, hsize']

/-- A round of a cleanup takes the stack of the thread out of the list of its process. -/
theorem StackLists.destroyThread (h : StackLists k g ps ns) (ht : t ∈ g.live) (h0 : t ≠ 0) (hlive : g'.live = g.live.filter (· ≠ t))
    (hrun : k.destroyThread t = some k') : ∃ ns', StackLists k' g' ps ns' := by
  have hsched := Kernel.destroyThread_same hrun
  have hh : ∀ u ∈ g.live, (k'.threads u).home = (k.threads u).home := fun u _ => hsched.homes.home u
  unfold Kernel.destroyThread at hrun
  dsimp only at hrun
  rw [if_neg h0] at hrun
  by_cases hp0 : (k.threads t).process = 0
  · rw [if_pos (.inr hp0)] at hrun
    obtain rfl := Option.some.inj hrun
    exact ⟨ns, h.removeKernelThread hp0 hlive rfl rfl hh⟩
  · have hp := (h.home t ht).resolve_left hp0
    have hmine : (k.threads t).stack ∈ stacksOf k.usInfos (ns (k.threads t).process) := by
      rw [(h.owned _ hp).mem_iff]
      refine List.mem_map_of_mem (f := fun u => (k.threads u).stack) (List.mem_filter.mpr ⟨ht, ?_⟩)
      rw [decide_eq_true_iff]
    have hb : (k.threads t).userStack.bottom ≠ 0 := by
      have h1 : 0 < (k.threads t).userStack.size := (h.descends _ hp).pos _ hmine
      have h2 : (k.threads t).userStack.size ≤ (k.threads t).userStack.bottom := (h.descends _ hp).fits _ hmine
      omega
    rw [if_neg (not_or.mpr ⟨hb, hp0⟩)] at hrun
    obtain ⟨k₂, hfree, rfl⟩ := Option.map_eq_some_iff.mp hrun
    have hproc := Kernel.userFreeStack_processes hfree
    change k₂.processes = k.processes at hproc
    have hsome : ∃ l, StackLists { k₂.setProcess (k.threads t).process fun p => { p with ustacksInfos := k₂.usListHead } with
        usListHead := k.usListHead, cr3 := k.cr3 } g' ps (Function.update ns (k.threads t).process l) := by
      refine h.removeUserThread ht hp rfl hlive ?_ ?_ hfree ?_ rfl hh
      · rfl
      · rfl
      · rw [← hproc]
        rfl
    obtain ⟨l, hl⟩ := hsome
    exact ⟨_, hl⟩

/-- What a run preserves. -/
structure Follows (k : Kernel) (g : Trace) (ps : List ℕ) : Prop where
  busy : ∃ B, Busy k g B
  lists : ∃ ns, StackLists k g ps ns
  space : k.InSpace k.currentThread

/-- The ring-0 stack pointers are the top of the current thread's kernel stack. -/
def Kernel.AtKernelStack (k : Kernel) : Prop :=
  k.rsp0 = (k.threads k.currentThread).kernelStack.top ∧ k.kernelRsp = (k.threads k.currentThread).kernelStack.top

theorem Kernel.SpaceSwitch.follows (h : k.SpaceSwitch k') (hl : StackLists k g ps ns) (hin : k.InSpace k.currentThread)
    (hlive : g'.live = g.live) :
    StackLists k' g' ps ns ∧ k'.InSpace k'.currentThread ∧ (k'.currentThread ≠ k.currentThread → k'.AtKernelStack) := by
  cases h with
  | stays hs hh =>
    refine ⟨hl.same hs hh hlive, ?_, fun hne => absurd hh.current hne⟩
    rw [hh.current]
    exact hin.congr hs (hh.home _)
  | goes next hproc hus hhome hcur hin' hrsp0 hkrsp =>
    refine ⟨hl.congr hlive hproc hus fun t _ => hhome t, ?_, fun _ => ?_⟩
    · rw [hcur]
      exact hin'
    · rw [Kernel.AtKernelStack, hcur]
      exact ⟨hrsp0, hkrsp⟩

/-- The address space and the lists after a call. -/
theorem Follows.spaces (h : Follows k g ps) {c : Call} (hc : c.Proper k g) (hok : c.Allocated k ps)
    (hrun : c.run img k g = some (k', g')) :
    (∃ ns, StackLists k' g' (c.processes ps) ns) ∧ k'.InSpace k'.currentThread ∧
      (k'.currentThread ≠ k.currentThread → k'.AtKernelStack) := by
  obtain ⟨⟨B, hB⟩, ⟨ns, hl⟩, hin⟩ := h
  have hcur : k.currentThread ∈ g.live := by
    rw [hB.tracks.ring.current]
    exact hB.tracks.mem_live (p := .ring) List.mem_cons_self
  -- a thread without a process needs no address space
  have hkernel : (k'.threads k'.currentThread).process = 0 → k'.InSpace k'.currentThread := fun h0 hne => absurd h0 hne
  have hswitch : ∀ k₁ : Kernel, k.SameSpace k₁ → k.SameHomes k₁ → ∀ rsp r, k₁.schedulerHandler rsp = some (r, k') →
      g'.live = g.live → (∃ ns, StackLists k' g' ps ns) ∧ k'.InSpace k'.currentThread ∧
        (k'.currentThread ≠ k.currentThread → k'.AtKernelStack) := by
    intro k₁ hs hh rsp r hhandler hlive
    have hin₁ : k₁.InSpace k₁.currentThread := by
      rw [hh.current]
      exact hin.congr hs (hh.home _)
    have h₁ := (Kernel.schedulerHandler_space hin₁ hhandler).follows (hl.same hs hh rfl) hin₁ hlive
    rw [hh.current] at h₁
    exact ⟨⟨ns, h₁.1⟩, h₁.2⟩
  cases c with
  | createThread t info entry size =>
    have hadd := Kernel.createThread_adds img k t info entry size
    have hhomes := hadd.homes
    have hfresh : (k.createThread img t info entry size).1 ≠ 0 → (k.createThread img t info entry size).1 ∉ g.live :=
      fun h0 => (hadd.eq_of_ne h0).symm ▸ hc
    have hl' := hl.createThread hfresh
    have hs := (Kernel.createThread_homes img k t info entry size).1
    simp only [Call.run] at hrun
    generalize k.createThread img t info entry size = q at hrun hl' hs hhomes
    obtain ⟨rfl, rfl⟩ := Prod.mk.inj (Option.some.inj hrun)
    refine ⟨⟨ns, hl'⟩, ?_, fun hne => absurd hhomes.1 hne⟩
    rw [hhomes.1]
    exact hin.congr hs (hhomes.2 _ fun _ he => hc (he ▸ hcur))
  | createUserThread proc t info usInfo entry ksize usize =>
    obtain ⟨⟨r, k₁⟩, hk₁, heq⟩ := Option.map_eq_some_iff.mp hrun
    obtain ⟨rfl, rfl⟩ := Prod.mk.inj heq
    obtain ⟨h0, hp, hi, hmade⟩ := hok
    obtain ⟨hr, hstack⟩ := hmade _ _ hk₁
    obtain ⟨hcur', hhomes⟩ := (Kernel.createUserThread_adds hk₁).homes
    have hi' : ∀ q ∈ ps, usInfo ∉ ns q := fun q hq hm =>
      hi q hq ((Seg.linked (hl.list q hq).seg (hl.list q hq).null_notMem) hm)
    obtain ⟨rfl, l, hl'⟩ := hl.createUserThread hk₁ hr hp hc hi' hstack
    refine ⟨⟨_, by rw [Trace.record, if_neg hr]; exact hl'⟩, hkernel ?_, fun hne => absurd hcur' hne⟩
    rw [hcur']
    exact (congrArg Home.process (hhomes _ fun _ he => hc (he ▸ hcur))).trans h0
  | createUserProcess p =>
    obtain ⟨rfl, rfl⟩ := Prod.mk.inj (Option.some.inj hrun)
    obtain ⟨h0, hp, hmade⟩ := hok
    have hsched := Kernel.createUserProcess_same (k := k) p
    refine ⟨?_, hkernel ?_, fun hne => absurd hsched.current hne⟩
    · obtain ⟨hus, hnone | ⟨-, hp0, pml4, pid, hproc⟩⟩ := k.createUserProcess_cases p
      · exact absurd hnone.1 hmade
      exact ⟨_, hl.addProcess hp hp0 rfl hproc hus fun t _ => hsched.homes.home t⟩
    · rw [hsched.current, hsched.threads]
      exact h0
  | tick rsp =>
    obtain ⟨⟨r, k₁⟩, hk₁, heq⟩ := Option.map_eq_some_iff.mp hrun
    obtain ⟨rfl, rfl⟩ := Prod.mk.inj heq
    refine hswitch k (.refl k) (.refl k) rsp r hk₁ ?_
    rw [Trace.handled]
    split_ifs <;> rfl
  | exit rsp =>
    obtain ⟨⟨r, k₁⟩, hk₁, heq⟩ := Option.map_eq_some_iff.mp hrun
    obtain ⟨rfl, rfl⟩ := Prod.mk.inj heq
    obtain ⟨hs, hh⟩ := k.setThread_homes k.currentThread (f := fun r => { r with state := .dead }) fun _ => rfl
    refine hswitch k.markDead hs hh rsp r hk₁ ?_
    rw [Trace.handled]
    split_ifs <;> rfl
  | lock m rsp =>
    obtain ⟨⟨r, k₁⟩, hk₁, heq⟩ := Option.map_eq_some_iff.mp hrun
    obtain ⟨rfl, rfl⟩ := Prod.mk.inj heq
    by_cases hlocked : (k.mutexes m).locked = 0
    · have hsec : k.lockSection m = (true, k.setMutex m fun x => { x with locked := 1 }) := if_pos hlocked
      rw [Kernel.mutexLock, hsec] at hk₁
      obtain ⟨-, rfl⟩ := Prod.mk.inj (Option.some.inj hk₁)
      rw [if_pos hlocked]
      exact ⟨⟨ns, hl.congr rfl rfl rfl fun _ _ => rfl⟩, hin, fun hne => absurd rfl hne⟩
    · have hsec : k.lockSection m = (false, k.enqueueBlocked m) := if_neg hlocked
      rw [Kernel.mutexLock, hsec] at hk₁
      obtain ⟨hs, hh⟩ := k.enqueueBlocked_homes m
      refine hswitch (k.enqueueBlocked m) hs hh rsp r hk₁ ?_
      rw [if_neg hlocked, Trace.handled]
      split_ifs <;> rfl
  | unlock m =>
    obtain ⟨rfl, rfl⟩ := Prod.mk.inj (Option.some.inj hrun)
    obtain ⟨hs, hh⟩ := k.mutexUnlock_homes m
    refine ⟨⟨ns, hl.same hs hh rfl⟩, ?_, fun hne => absurd hh.current hne⟩
    rw [hh.current]
    exact hin.congr hs (hh.home _)
  | takeDead =>
    obtain ⟨rfl, rfl⟩ := Prod.mk.inj (Option.some.inj hrun)
    exact ⟨⟨ns, hl.congr rfl rfl rfl fun _ _ => rfl⟩, hin, fun hne => absurd rfl hne⟩
  | cleanupRound =>
    obtain ⟨⟨r, k₁⟩, hk₁, heq⟩ := Option.map_eq_some_iff.mp hrun
    obtain ⟨rfl, rfl⟩ := Prod.mk.inj heq
    obtain ⟨l, hclean, -⟩ := hB.tracks.cleanupRound hc hk₁
    have ht : g.cleaning (g.serial k.currentThread) ∈ B.lists (.cleaning (g.serial k.currentThread)) := by
      rw [Board.lists, hclean]
      exact List.mem_cons_self
    obtain ⟨k₂, hk₂, heq₂⟩ := Option.map_eq_some_iff.mp hk₁
    obtain ⟨-, rfl⟩ := Prod.mk.inj heq₂
    have hsched := Kernel.destroyThread_same hk₂
    refine ⟨hl.destroyThread (hB.tracks.mem_live ht) hc rfl hk₂, hkernel ?_, fun hne => absurd hsched.current hne⟩
    rw [hsched.current, hsched.threads]
    exact hok

theorem Follows.step (h : Follows k g ps) {c : Call} (hc : c.Proper k g) (htwo : RingOfTwo k g c)
    (hok : c.Allocated k ps) (hrun : c.run img k g = some (k', g')) : Follows k' g' (c.processes ps) := by
  obtain ⟨B, hB⟩ := h.busy
  obtain ⟨-, B', -, hB', -⟩ := hB.step hc htwo hrun
  obtain ⟨hl, hin, -⟩ := h.spaces hc hok hrun
  exact ⟨⟨B', hB'⟩, hl, hin⟩

/-! ## The boot -/

/-- A state reached during the boot. -/
structure BootSpaces (k : Kernel) (g : Trace) (main : ℕ) (ps : List ℕ) : Prop where
  lists : ∃ ns, StackLists k g ps ns
  main : main ∈ g.live ∧ (k.threads main).process = 0

theorem BootSpaces.adds {main : ℕ} {ns : ℕ → List ℕ} (h : BootSpaces k g main ps) (hl : StackLists k' (g.record r) ps ns)
    (hadd : k.Adds t r k') (hfresh : r ≠ 0 → r ∉ g.live) : BootSpaces k' (g.record r) main ps := by
  refine ⟨⟨ns, hl⟩, ?_, ?_⟩
  · rw [Trace.record]
    split_ifs
    · exact h.main.1
    · exact List.mem_cons_of_mem _ h.main.1
  · refine (congrArg Home.process (hadd.homes.2 main fun h0 he => ?_)).trans h.main.2
    exact hfresh h0 ((hadd.eq_of_ne h0).trans he.symm ▸ h.main.1)

theorem BootSpaces.createThread {main : ℕ} (h : BootSpaces k g main ps) (img : Image) (t info entry size : ℕ)
    (hfresh : (k.createThread img t info entry size).1 ≠ 0 → (k.createThread img t info entry size).1 ∉ g.live) :
    BootSpaces (k.createThread img t info entry size).2 (g.record (k.createThread img t info entry size).1) main ps := by
  obtain ⟨ns, hl⟩ := h.lists
  exact h.adds (hl.createThread hfresh) (Kernel.createThread_adds img k t info entry size) hfresh

theorem BootSpaces.createUserThread {main info usInfo entry ksize usize : ℕ}
    (hcall : k.createUserThread p t info usInfo entry ksize usize = some (r, k')) (h : BootSpaces k g main ps)
    (hr : r ≠ 0) (hp : p ∈ ps) (ht : r ∉ g.live) (hi : ∀ ns, StackLists k g ps ns → ∀ q ∈ ps, usInfo ∉ ns q)
    (hmade : (k'.threads t).StackMade) : BootSpaces k' (g.record r) main ps := by
  obtain ⟨ns, hl⟩ := h.lists
  have hadd := Kernel.createUserThread_adds hcall
  have hrt := hadd.eq_of_ne hr
  obtain ⟨-, l, hl'⟩ := hl.createUserThread hcall hr hp (hrt ▸ ht) (hi ns hl) hmade
  have hrec : StackLists k' (g.record r) ps (Function.update ns p l) := by
    rw [Trace.record, if_neg hr, hrt]
    exact hl'
  exact h.adds hrec hadd fun _ => ht

theorem BootSpaces.same {main : ℕ} (h : BootSpaces k g main ps) (hproc : k'.processes = k.processes)
    (hus : k'.usInfos = k.usInfos) (hT : k'.threads = k.threads) : BootSpaces k' g main ps := by
  obtain ⟨⟨ns, hl⟩, hm, hp⟩ := h
  exact ⟨⟨ns, hl.congr rfl hproc hus fun t _ => by rw [hT]⟩, hm, by rw [hT]; exact hp⟩

theorem bootSpaces_startMain {k₀ : Kernel} {main : ℕ} (h0 : main ≠ 0) (hmain : (k₀.threads main).process = 0) :
    BootSpaces (k₀.startMain main) (Trace.start [main]) main [] := by
  have hlive : (Trace.start [main]).live = [main] := by
    simp [Trace.start, Trace.record, h0, Trace.create, Trace.empty]
  have hp : ((k₀.startMain main).threads main).process = 0 := by
    have hset : (k₀.setThread main fun r => { r with
        tid := k₀.nextThreadId, state := .running, rsp := 0, kernelStack := { r.kernelStack with bottom := 0 } }).threads main =
        { k₀.threads main with
          tid := k₀.nextThreadId, state := .running, rsp := 0
          kernelStack := { (k₀.threads main).kernelStack with bottom := 0 } } := Function.update_self ..
    refine (congrArg Home.process ((Kernel.enqueueThread_homes _ main).2.home main)).trans ?_
    exact (congrArg Thread.process hset).trans hmain
  refine ⟨⟨fun _ => [], ⟨List.not_mem_nil, ?_, ?_, ?_, ?_, ?_, fun t ht => ?_⟩⟩, ?_, hp⟩
  · rw [hlive]
    exact List.nodup_singleton main
  · exact fun p hp => absurd hp List.not_mem_nil
  · exact fun p hp => absurd hp List.not_mem_nil
  · exact fun p hp => absurd hp List.not_mem_nil
  · exact fun p hp => absurd hp List.not_mem_nil
  · rw [hlive, List.mem_singleton] at ht
    exact .inl (ht ▸ hp)
  · rw [hlive]
    exact List.mem_singleton_self main

theorem BootedUser.spaces {k₀ : Kernel} {l : List ℕ} (h : BootedUser img b k₀ k l) :
    BootSpaces k (Trace.start l) b.main [b.process] := by
  have h₁ := bootSpaces_startMain h.main_ne h.main_process
  have hdone := h.done
  have hfresh := h.fresh
  have huser := h.user
  obtain ⟨hprocess, hp0⟩ := h.process
  have hstack := h.stack
  rw [Kernel.initScheduler, if_neg h.main_ne] at hdone
  dsimp only at hdone
  generalize k₀.startMain b.main = k₁ at h₁ hdone
  have h₂ := h₁.createThread img b.idle b.idleInfo img.idleThreadEntry Kernel.defaultStackSize
  generalize k₁.createThread img b.idle b.idleInfo img.idleThreadEntry Kernel.defaultStackSize = p₁ at hdone h₂
  have h₃ := fun hf => (h₂ hf).createThread img b.third b.thirdInfo img.thirdThread Kernel.defaultStackSize
  generalize p₁.2.createThread img b.third b.thirdInfo img.thirdThread Kernel.defaultStackSize = p₂ at hdone h₃
  have hproc := Kernel.createUserProcess_cases p₂.2 b.process
  have hsame := Kernel.createUserProcess_same (k := p₂.2) b.process
  generalize p₂.2.createUserProcess b.process = p₃ at hdone hproc hsame
  split_ifs at hdone
  obtain ⟨⟨user, k₄⟩, hk₄, heq⟩ := Option.map_eq_some_iff.mp hdone
  obtain ⟨rfl, rfl⟩ := Prod.mk.inj heq
  obtain ⟨huser, hu0⟩ := huser
  obtain rfl : user = b.user := Option.some.inj huser
  have hmine : (k₄.threads b.user).process = p₃.1 := Kernel.createUserThread_process hk₄ hu0
  have hp : p₃.1 = b.process := hmine.symm.trans hprocess
  have h₄ := (h₃ fun hne => notMem_start [b.main] hfresh hne) fun hne => notMem_start [b.main, p₁.1] hfresh hne
  have h₅ : BootSpaces p₃.2 (Trace.start [b.main, p₁.1, p₂.1]) b.main [b.process] ∧
      (p₃.2.processes b.process).ustacksInfos = 0 := by
    obtain ⟨⟨ns, hl⟩, hm, hm0⟩ := h₄
    obtain ⟨hus, ⟨hnone, -⟩ | ⟨-, -, pml4, pid, hupd⟩⟩ := hproc
    · exact absurd (hp.symm.trans hnone) hp0
    · refine ⟨⟨⟨_, hl.addProcess List.not_mem_nil hp0 rfl hupd hus fun t _ => by rw [hsame.threads]⟩, hm,
        by rw [hsame.threads]; exact hm0⟩, ?_⟩
      rw [hupd, Function.update_self]
  have h₆ : BootSpaces k₄ (Trace.start [b.main, p₁.1, p₂.1, b.user]) b.main [b.process] := by
    refine BootSpaces.createUserThread hk₄ (h₅.1.same rfl rfl rfl) hu0 (hp ▸ List.mem_singleton_self _)
      (notMem_start [b.main, p₁.1, p₂.1] hfresh hu0) (fun ns hl q hq => ?_) hstack
    have hnil := (hl.list q hq).eq_nil_iff.mpr (by rw [List.mem_singleton.mp hq]; exact h₅.2)
    rw [hnil]
    exact List.not_mem_nil
  exact h₆.same rfl rfl rfl

theorem UserRun.follows (h : UserRun img b k g ps) : Follows k g ps := by
  induction h with
  | @init k₀ k l hb =>
    obtain ⟨B, hB⟩ := hb.steady
    have hsp := hb.spaces
    refine ⟨⟨B, hB.tracks, hB.running, hB.accounts⟩, hsp.lists, fun h0 => ?_⟩
    obtain ⟨B', htr, hcur, -⟩ := hb.booting.tracked
    rw [htr.ring.current, hcur] at h0
    exact absurd hsp.main.2 h0
  | step _ c hc htwo hok hrun ih => exact ih.step hc htwo hok hrun

/-- In every state of a run the address space and the stack list are those of the current thread's
process, and every process has the stacks of its threads in its list; a switch sets the ring-0
stack pointers to the kernel stack of the thread that it dispatches. -/
theorem spaces_follow (h : UserRun img b k g ps) :
    k.InSpace k.currentThread ∧ (∀ p ∈ ps, ProcessStacks k g p) ∧
      ∀ c k' g', c.Proper k g → RingOfTwo k g c → c.Allocated k ps → c.run img k g = some (k', g') →
        k'.currentThread ≠ k.currentThread → k'.AtKernelStack := by
  have hf := h.follows
  obtain ⟨ns, hl⟩ := hf.lists
  exact ⟨hf.space, fun p hp => ⟨ns p, hl.list p hp, hl.owned p hp⟩,
    fun c k' g' hc _ hok hrun => (hf.spaces hc hok hrun).2.2⟩

end Steps

/-- The user process and its thread are made, the kernel threads are not. -/
def bootUserPointers : Kernel.BootPointers := ⟨0x100, 0, 0, 0, 0, 0x400, 0x500, 0x10, 0x20⟩

theorem spaces_follow_boot : ∃ k g, k.currentThread = 0x500 ∧ k.InSpace 0x500 ∧ ProcessStacks k g 0x400 ∧
    k.AtKernelStack := by
  have hrun : ((Kernel.initScheduler bootImage Kernel.beforeBoot bootUserPointers).bind fun p =>
      ((Call.tick 0).run bootImage p.2 (Trace.start p.1)).map fun q =>
        (p.1, (p.2.threads 0x500).process, (p.2.threads 0x500).userStack, p.2.currentThread, q.1.currentThread,
          decide p.2.NoOther)) =
      some ([0x100, 0, 0, 0x500], 0x400, ⟨userStackMax + 4096, userStackMax, 4096⟩, 0x100, 0x500, false) := by
    decide +kernel
  obtain ⟨⟨l, k⟩, hk, hq⟩ := Option.bind_eq_some_iff.mp hrun
  obtain ⟨⟨k', g'⟩, htick, heq⟩ := Option.map_eq_some_iff.mp hq
  simp only [Prod.mk.injEq] at heq
  obtain ⟨rfl, hproc, hstack, hcur, hcur', htwo⟩ := heq
  have hbooted : BootedUser bootImage bootUserPointers Kernel.beforeBoot k [0x100, 0, 0, 0x500] :=
    ⟨⟨hk, by decide, rfl, rfl, fun _ => rfl⟩, rfl, rfl, ⟨rfl, by decide⟩, ⟨hproc, by decide⟩, by
      rw [Thread.StackMade, show (bootUserPointers.user : ℕ) = 0x500 from rfl, hstack]
      decide⟩
  have hboot := UserRun.init hbooted
  have htwo' : RingOfTwo k (Trace.start [0x100, 0, 0, 0x500]) (.tick 0) := of_decide_eq_false htwo
  have hstep := hboot.step (.tick 0) trivial htwo' trivial htick
  obtain ⟨hin, hlists, -⟩ := spaces_follow hstep
  have hkernel := (spaces_follow hboot).2.2 (.tick 0) k' g' trivial htwo' trivial htick (by rw [hcur, hcur']; decide)
  exact ⟨k', g', hcur', hcur' ▸ hin, hlists 0x400 (List.mem_singleton_self _), hkernel⟩

end PointerOS
