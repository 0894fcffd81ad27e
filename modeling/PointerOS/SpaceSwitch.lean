import PointerOS.CreationFrame

/-!
# Address spaces over a switch

Which parts of the state a switch may write: `scheduler_handler` puts the old thread away, which
leaves the processes and the stacks alone, and dispatches the next one, which takes the address
space and the stack list of its process over.
-/
namespace PointerOS

/-- What a thread has for as long as it lives. -/
structure Home where
  process : ℕ
  userStack : StackBounds
  kernelStack : StackBounds

def Thread.home (r : Thread) : Home := ⟨r.process, r.userStack, r.kernelStack⟩

namespace Kernel

/-- The processes, the records of their stacks, the address space and the ring-0 stack pointers. -/
structure SameSpace (k k' : Kernel) : Prop where
  processes : k'.processes = k.processes
  usInfos : k'.usInfos = k.usInfos
  cr3 : k'.cr3 = k.cr3
  usListHead : k'.usListHead = k.usListHead
  rsp0 : k'.rsp0 = k.rsp0
  kernelRsp : k'.kernelRsp = k.kernelRsp

theorem SameSpace.refl (k : Kernel) : SameSpace k k := ⟨rfl, rfl, rfl, rfl, rfl, rfl⟩

theorem SameSpace.trans {k₁ k₂ k₃ : Kernel} (h : SameSpace k₁ k₂) (h' : SameSpace k₂ k₃) : SameSpace k₁ k₃ :=
  ⟨h'.processes.trans h.processes, h'.usInfos.trans h.usInfos, h'.cr3.trans h.cr3, h'.usListHead.trans h.usListHead,
    h'.rsp0.trans h.rsp0, h'.kernelRsp.trans h.kernelRsp⟩

/-- No thread has moved, and the current one is the same. -/
structure SameHomes (k k' : Kernel) : Prop where
  home : ∀ t, (k'.threads t).home = (k.threads t).home
  current : k'.currentThread = k.currentThread

theorem SameHomes.refl (k : Kernel) : SameHomes k k := ⟨fun _ => rfl, rfl⟩

theorem SameHomes.trans {k₁ k₂ k₃ : Kernel} (h : SameHomes k₁ k₂) (h' : SameHomes k₂ k₃) : SameHomes k₁ k₃ :=
  ⟨fun t => (h'.home t).trans (h.home t), h'.current.trans h.current⟩

theorem SameSched.homes {k k' : Kernel} (h : SameSched k k') : SameHomes k k' :=
  ⟨fun t => by rw [h.threads], h.current⟩

section Switch
variable {k k' : Kernel}

/-- A write to other fields of a record. -/
theorem setThread_homes (k : Kernel) (t : ℕ) {f : Thread → Thread} (hf : ∀ r, (f r).home = r.home) :
    SameSpace k (k.setThread t f) ∧ SameHomes k (k.setThread t f) := by
  refine ⟨⟨rfl, rfl, rfl, rfl, rfl, rfl⟩, fun u => ?_, rfl⟩
  rw [setThread_threads]
  split_ifs with hu
  · rw [hf, hu]
  · rfl

theorem dequeueThread_homes (k : Kernel) (t : ℕ) :
    SameSpace k (k.dequeueThread t) ∧ SameHomes k (k.dequeueThread t) := by
  unfold dequeueThread
  dsimp only
  split_ifs
  all_goals
    simp only [setThread_next, setThread_prev, setThread_links]
    exact ⟨⟨rfl, rfl, rfl, rfl, rfl, rfl⟩, fun _ => rfl, rfl⟩

theorem putAway_homes (k : Kernel) (old rsp : ℕ) :
    SameSpace k (k.putAway old rsp) ∧ SameHomes k (k.putAway old rsp) := by
  unfold putAway
  cases (k.threads old).state with
  | dead =>
    obtain ⟨hs, hh⟩ := k.dequeueThread_homes old
    obtain ⟨hs', hh'⟩ := (k.dequeueThread old).setThread_homes old (f := fun r => { r with next := k.deadListHead })
      fun _ => rfl
    have hd : (k.dequeueThread old).deadListHead = k.deadListHead := (dequeueThread_fields ..).2.1
    dsimp only
    rw [hd]
    exact ⟨(hs.trans hs').trans ⟨rfl, rfl, rfl, rfl, rfl, rfl⟩, (hh.trans hh').trans ⟨fun _ => rfl, rfl⟩⟩
  | blocked =>
    obtain ⟨hs, hh⟩ := k.setThread_homes old (f := fun r => { r with rsp := rsp }) fun _ => rfl
    obtain ⟨hs', hh'⟩ := (k.setThread old fun r => { r with rsp := rsp }).dequeueThread_homes old
    exact ⟨hs.trans hs', hh.trans hh'⟩
  | ready => exact k.setThread_homes old fun _ => rfl
  | running => exact k.setThread_homes old fun _ => rfl

theorem enqueueBlocked_homes (k : Kernel) (m : ℕ) :
    SameSpace k (k.enqueueBlocked m) ∧ SameHomes k (k.enqueueBlocked m) := by
  obtain ⟨hs, hh⟩ := k.setThread_homes k.currentThread (f := fun r => { r with state := .blocked, nextBlocked := 0 })
    fun _ => rfl
  unfold enqueueBlocked
  dsimp only
  generalize k.setThread k.currentThread (fun r => { r with state := .blocked, nextBlocked := 0 }) = k₁ at hs hh
  split_ifs
  · exact ⟨hs.trans ⟨rfl, rfl, rfl, rfl, rfl, rfl⟩, hh.trans ⟨fun _ => rfl, rfl⟩⟩
  · obtain ⟨hs', hh'⟩ := k₁.setThread_homes (k₁.mutexes m).blockedTail
      (f := fun r => { r with nextBlocked := k.currentThread }) fun _ => rfl
    exact ⟨(hs.trans hs').trans ⟨rfl, rfl, rfl, rfl, rfl, rfl⟩, (hh.trans hh').trans ⟨fun _ => rfl, rfl⟩⟩

theorem mutexUnlock_homes (k : Kernel) (m : ℕ) :
    SameSpace k (k.mutexUnlock m) ∧ SameHomes k (k.mutexUnlock m) := by
  unfold mutexUnlock
  dsimp only
  split_ifs
  · exact ⟨⟨rfl, rfl, rfl, rfl, rfl, rfl⟩, fun _ => rfl, rfl⟩
  all_goals
    refine ⟨⟨rfl, rfl, rfl, rfl, rfl, rfl⟩, fun u => ?_, rfl⟩
    simp only [setThread_threads, setMutex]
    split_ifs with hu
    · rw [hu]
      rfl
    · rfl

theorem enqueueThread_homes (k : Kernel) (t : ℕ) :
    SameSpace k (k.enqueueThread t) ∧ SameHomes k (k.enqueueThread t) := by
  unfold enqueueThread
  split_ifs
  all_goals
    simp only [setThread_next, setThread_prev, setThread_links]
    exact ⟨⟨rfl, rfl, rfl, rfl, rfl, rfl⟩, fun _ => rfl, rfl⟩

/-- Only the record of the new thread has another home. -/
theorem addThread_homes (k : Kernel) (t : ℕ) (x : Thread) :
    SameSpace k (k.addThread t x) ∧ (k.addThread t x).currentThread = k.currentThread ∧
      ∀ u, ((k.addThread t x).threads u).home = (if u = t then x else k.threads u).home := by
  obtain ⟨hs, hh⟩ := enqueueThread_homes
    { k with threads := Function.update k.threads t x, nextThreadId := (k.nextThreadId + 1) % 2 ^ 64 } t
  refine ⟨⟨hs.processes, hs.usInfos, hs.cr3, hs.usListHead, hs.rsp0, hs.kernelRsp⟩, hh.current, fun u => ?_⟩
  refine (hh.home u).trans ?_
  simp only [Function.update_apply]

theorem Adds.homes {t r : ℕ} (h : k.Adds t r k') :
    k'.currentThread = k.currentThread ∧ ∀ u, (r ≠ 0 → u ≠ t) → (k'.threads u).home = (k.threads u).home := by
  rcases h with ⟨rfl, hs⟩ | ⟨rfl, h0, k₁, x, hs, -, -, rfl⟩
  · exact ⟨hs.current, fun u _ => hs.homes.home u⟩
  · obtain ⟨-, hcur, hhome⟩ := k₁.addThread_homes r x
    refine ⟨hcur.trans hs.current, fun u hu => ?_⟩
    rw [hhome, if_neg (hu h0)]
    exact hs.homes.home u

theorem kernelAllocStack_space (k : Kernel) (info size : ℕ) : SameSpace k (k.kernelAllocStack info size).2 := by
  unfold kernelAllocStack
  split_ifs <;> exact ⟨rfl, rfl, rfl, rfl, rfl, rfl⟩

theorem pushFrame_space (k : Kernel) (top ret ss cs entry : ℕ) :
    SameSpace k (k.pushFrame top ret ss cs entry).2 := by
  rw [pushFrame_with]
  exact ⟨rfl, rfl, rfl, rfl, rfl, rfl⟩

/-- A creation of a kernel thread: nothing happened, or the thread has no process. -/
theorem createThread_homes (img : Image) (k : Kernel) (t info entry size : ℕ) :
    SameSpace k (k.createThread img t info entry size).2 ∧
      (k.createThread img t info entry size).2.currentThread = k.currentThread ∧
      ((k.createThread img t info entry size).1 = 0 ∧ SameHomes k (k.createThread img t info entry size).2 ∨
        (k.createThread img t info entry size).1 = t ∧ t ≠ 0 ∧
          (∀ u, u ≠ t → ((k.createThread img t info entry size).2.threads u).home = (k.threads u).home) ∧
          ((k.createThread img t info entry size).2.threads t).process = 0) := by
  unfold createThread
  dsimp only
  have hs := k.kernelAllocStack_space info size
  have hsched := k.kernelAllocStack_same info size
  split_ifs with h1 h2
  · exact ⟨.refl k, rfl, .inl ⟨rfl, .refl k⟩⟩
  · exact ⟨hs, hsched.current, .inl ⟨rfl, hsched.homes⟩⟩
  · obtain ⟨kmem, hkmem⟩ : ∃ kmem, kmem = ((k.kernelAllocStack info size).1 + size) % 2 ^ 64 := ⟨_, rfl⟩
    rw [← hkmem]
    have hs₁ := hs.trans (pushFrame_space _ kmem img.threadExit 0x10 0x08 entry)
    have hsched₁ := hsched.trans (pushFrame_same _ kmem img.threadExit 0x10 0x08 entry)
    generalize Kernel.pushFrame _ kmem img.threadExit 0x10 0x08 entry = q at hs₁ hsched₁ ⊢
    obtain ⟨hs₂, hcur, hhome⟩ := q.2.addThread_homes t
      (newThread q.1 q.2.nextThreadId 0 ⟨kmem, (k.kernelAllocStack info size).1, size⟩ ⟨0, 0, 0⟩ 0 0)
    refine ⟨hs₁.trans hs₂, hcur.trans hsched₁.current, .inr ⟨rfl, h1, fun u hu => ?_, ?_⟩⟩
    · rw [hhome, if_neg hu]
      exact hsched₁.homes.home u
    · have ht := hhome t
      rw [if_pos rfl] at ht
      exact congrArg Home.process ht

theorem usAddToList_with {i : ℕ} (h : k.usAddToList i = some k') :
    k' = { k with usInfos := k'.usInfos, usListHead := k'.usListHead } ∧ (k'.usInfos i).size = (k.usInfos i).size := by
  by_cases h0 : k.usListHead = 0
  · rw [usAddToList, if_pos h0] at h
    rw [← Option.some.inj h]
    refine ⟨rfl, ?_⟩
    simp only [setUsInfo, Function.update_self]
  · rw [usAddToList_eq h0] at h
    obtain ⟨c, -, rfl⟩ := Option.map_eq_some_iff.mp h
    exact ⟨rfl, rfl⟩

/-- Only the records, their list and the tables change. -/
theorem userAllocStack_with {r info size : ℕ} (h : k.userAllocStack info size = some (r, k')) :
    k' = { k with usInfos := k'.usInfos, usListHead := k'.usListHead, vm := k'.vm } := by
  unfold userAllocStack at h
  split_ifs at h
  · obtain ⟨-, rfl⟩ := Prod.mk.inj (Option.some.inj h)
    rfl
  · obtain ⟨-, rfl⟩ := Prod.mk.inj (Option.some.inj h)
    rfl
  · obtain ⟨k₁, hadd, heq⟩ := Option.map_eq_some_iff.mp h
    obtain ⟨-, rfl⟩ := Prod.mk.inj heq
    have hwith := (usAddToList_with hadd).1
    generalize k₁.usInfos = nodes at hwith
    generalize k₁.usListHead = head at hwith
    rw [hwith]
    rfl

theorem createUserThread_process {proc t r info usInfo entry ksize usize : ℕ}
    (h : k.createUserThread proc t info usInfo entry ksize usize = some (r, k')) (h0 : r ≠ 0) :
    (k'.threads t).process = proc := by
  obtain ⟨-, kmem, k₁, umem, k₂, rsp, k₃, -, -, -, -, hk'⟩ := createUserThread_made h h0
  have hhome := (addThread_homes { k₃.setProcess proc fun x => { x with ustacksInfos := k₃.usListHead } with
    usListHead := k₁.usListHead, cr3 := k₁.cr3 } t
    (newThread rsp k₃.nextThreadId proc ⟨(kmem + ksize) % 2 ^ 64, kmem, ksize⟩
      ⟨(umem + usize) % 2 ^ 64, umem, usize⟩ (sub64 umem pageSize4KB) umem)).2.2 t
  rw [← hk', if_pos rfl] at hhome
  exact congrArg Home.process hhome

/-- A creation of a process: nothing happened to the processes, or there is a new one. -/
theorem createUserProcess_cases (k : Kernel) (p : ℕ) :
    (k.createUserProcess p).2.usInfos = k.usInfos ∧
      ((k.createUserProcess p).1 = 0 ∧ (k.createUserProcess p).2.processes = k.processes ∨
        (k.createUserProcess p).1 = p ∧ p ≠ 0 ∧
          ∃ pml4 pid, (k.createUserProcess p).2.processes = Function.update k.processes p ⟨pml4, pid, 0⟩) := by
  unfold createUserProcess
  dsimp only
  split_ifs with h1 h2
  · exact ⟨rfl, .inl ⟨rfl, rfl⟩⟩
  · exact ⟨rfl, .inl ⟨rfl, rfl⟩⟩
  · exact ⟨rfl, .inr ⟨rfl, h1, _, _, rfl⟩⟩

theorem userFreeStack_processes {ptr : ℕ} (h : k.userFreeStack ptr = some k') : k'.processes = k.processes := by
  obtain ⟨c, -, rfl⟩ := Option.map_eq_some_iff.mp h
  dsimp only
  split_ifs
  · rfl
  · unfold usRemoveFromList
    dsimp only
    split_ifs <;> rfl

/-- The stack list of the current thread's process is in use, in its address space. -/
def InSpace (k : Kernel) (t : ℕ) : Prop :=
  (k.threads t).process ≠ 0 →
    k.cr3 = (k.processes (k.threads t).process).pml4 ∧ k.usListHead = (k.processes (k.threads t).process).ustacksInfos

theorem InSpace.congr {t : ℕ} (h : k.InSpace t) (hs : SameSpace k k') (ht : (k'.threads t).home = (k.threads t).home) :
    k'.InSpace t := by
  intro h0
  rw [show (k'.threads t).process = _ from congrArg Home.process ht] at h0 ⊢
  rw [hs.cr3, hs.usListHead, hs.processes]
  exact h h0

/-- What `scheduler_handler` did: no switch, or a switch to `next`. -/
inductive SpaceSwitch (k k' : Kernel) : Prop
  | stays (hs : SameSpace k k') (hh : SameHomes k k')
  | goes (next : ℕ) (hproc : k'.processes = k.processes) (hus : k'.usInfos = k.usInfos)
      (hhome : ∀ t, (k'.threads t).home = (k.threads t).home) (hcur : k'.currentThread = next)
      (hin : k'.InSpace next) (hrsp0 : k'.rsp0 = (k'.threads next).kernelStack.top)
      (hkrsp : k'.kernelRsp = (k'.threads next).kernelStack.top)

theorem switchProcess_space {old : ℕ} (h : k.InSpace old) (next : ℕ) :
    (k.switchProcess old next).processes = k.processes ∧ (k.switchProcess old next).usInfos = k.usInfos ∧
      (k.switchProcess old next).InSpace next := by
  unfold switchProcess
  dsimp only
  -- the list that is saved is the one that was there
  have hsave : (if (k.threads old).process = 0 then k else
      k.setProcess (k.threads old).process fun p => { p with ustacksInfos := k.usListHead }) = k := by
    split_ifs with h0
    · rfl
    · have hupd : Function.update k.processes (k.threads old).process
          { k.processes (k.threads old).process with ustacksInfos := k.usListHead } = k.processes := by
        rw [(h h0).2]
        exact Function.update_eq_self ..
      exact congrArg (fun P => { k with processes := P }) hupd
  rw [hsave]
  split_ifs with h1 h2
  · exact ⟨rfl, rfl, fun h0 => by rw [← h1] at h0 ⊢; exact h h0⟩
  · exact ⟨rfl, rfl, fun h0 => absurd h2 h0⟩
  · exact ⟨rfl, rfl, fun _ => ⟨rfl, rfl⟩⟩

theorem dispatch_space {old : ℕ} (h : k.InSpace old) (next : ℕ) : SpaceSwitch k (k.dispatch old next) := by
  obtain ⟨k₁, hk₁⟩ : ∃ k₁, k₁ = { k.setThread next fun r => { r with state := .running } with currentThread := next } :=
    ⟨_, rfl⟩
  have hh : ∀ t, (k₁.threads t).home = (k.threads t).home := by
    rw [hk₁]
    exact (k.setThread_homes next (f := fun r => { r with state := .running }) fun _ => rfl).2.home
  have hin : k₁.InSpace old := by
    have hp : (k₁.threads old).process = (k.threads old).process := congrArg Home.process (hh old)
    intro h0
    rw [hp] at h0 ⊢
    rw [hk₁]
    exact h h0
  obtain ⟨h1, h2, h3⟩ := switchProcess_space hin next
  have hfields := switchProcess_fields k₁ old next
  have heq : k.dispatch old next = { k₁.switchProcess old next with
      rsp0 := ((k₁.switchProcess old next).threads next).kernelStack.top
      kernelRsp := ((k₁.switchProcess old next).threads next).kernelStack.top } := by
    rw [hk₁]
    rfl
  rw [heq]
  refine .goes next (h1.trans (by rw [hk₁]; rfl)) (h2.trans (by rw [hk₁]; rfl)) (fun t => ?_) ?_ h3 rfl rfl
  · exact (congrArg (fun T => (T t).home) hfields.1).trans (hh t)
  · exact hfields.2.2.2.2.trans (by rw [hk₁])

/-- What the parts of `scheduler_handler` keep is kept by the whole. -/
theorem schedulerHandler_rule {P : Kernel → Prop} {rsp r : ℕ} (hrun : k.schedulerHandler rsp = some (r, k')) (h : P k)
    (haway : P (k.putAway k.currentThread rsp))
    (hdispatch : ∀ next, P ((k.putAway k.currentThread rsp).dispatch k.currentThread next))
    (hstays : P ((k.putAway k.currentThread rsp).setThread k.currentThread fun r => { r with state := .running })) :
    P k' := by
  unfold schedulerHandler at hrun
  dsimp only at hrun
  generalize k.putAway k.currentThread rsp = k₁ at hrun haway hdispatch hstays
  generalize (if k₁.Leaves k.currentThread then k₁.readyListHead else (k.threads k.currentThread).next) = start at hrun
  by_cases h1 : k.NoOther
  · rw [if_pos h1] at hrun
    obtain ⟨-, rfl⟩ := Prod.mk.inj (Option.some.inj hrun)
    exact h
  rw [if_neg h1] at hrun
  by_cases h2 : start = 0
  · rw [if_pos h2] at hrun
    obtain ⟨-, rfl⟩ := Prod.mk.inj (Option.some.inj hrun)
    exact haway
  rw [if_neg h2] at hrun
  cases hfound : searchReady k₁.threads start (2 ^ 64) start with
  | thread next =>
    rw [hfound] at hrun
    obtain ⟨-, rfl⟩ := Prod.mk.inj (Option.some.inj hrun)
    exact hdispatch next
  | none =>
    rw [hfound] at hrun
    dsimp only at hrun
    split_ifs at hrun
    obtain ⟨-, rfl⟩ := Prod.mk.inj (Option.some.inj hrun)
    exact hstays
  | never =>
    rw [hfound] at hrun
    exact nomatch hrun

theorem schedulerHandler_space {rsp r : ℕ} (h : k.InSpace k.currentThread)
    (hrun : k.schedulerHandler rsp = some (r, k')) : SpaceSwitch k k' := by
  obtain ⟨hs, hh⟩ := k.putAway_homes k.currentThread rsp
  have hin : (k.putAway k.currentThread rsp).InSpace k.currentThread := h.congr hs (hh.home _)
  refine schedulerHandler_rule (P := SpaceSwitch k) hrun (.stays (.refl k) (.refl k)) (.stays hs hh) (fun next => ?_) ?_
  · cases dispatch_space hin next with
    | stays hs' hh' => exact .stays (hs.trans hs') (hh.trans hh')
    | goes next' hproc hus hhome hcur hin' hrsp0 hkrsp =>
      exact .goes next' (hproc.trans hs.processes) (hus.trans hs.usInfos) (fun t => (hhome t).trans (hh.home t)) hcur hin'
        hrsp0 hkrsp
  · obtain ⟨hs', hh'⟩ := (k.putAway k.currentThread rsp).setThread_homes k.currentThread
      (f := fun r => { r with state := .running }) fun _ => rfl
    exact .stays (hs.trans hs') (hh.trans hh')

end Switch
end Kernel
end PointerOS
