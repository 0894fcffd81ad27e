import PointerOS.Threads

/-!
# The scheduler

`scheduler_handler`, which a timer interrupt and `yield` both end up in, the functions of
`mutex.c`, and the parts of `cleanup_dead_threads` between which it may be interrupted. The spin
locks and the masked interrupts make each of the functions one step.
-/
namespace PointerOS

namespace Kernel

/-! ## The switch -/

/-- The state of the thread does not let it go on. -/
def Leaves (k : Kernel) (t : ℕ) : Prop := (k.threads t).state = .dead ∨ (k.threads t).state = .blocked

instance (k : Kernel) (t : ℕ) : Decidable (k.Leaves t) :=
  inferInstanceAs (Decidable ((k.threads t).state = .dead ∨ (k.threads t).state = .blocked))

/-- The ring is empty or has one thread. -/
def NoOther (k : Kernel) : Prop := k.readyListHead = 0 ∨ (k.threads k.readyListHead).next = k.readyListHead

instance (k : Kernel) : Decidable k.NoOther :=
  inferInstanceAs (Decidable (k.readyListHead = 0 ∨ (k.threads k.readyListHead).next = k.readyListHead))

/-- The old thread leaves the processor. -/
def putAway (k : Kernel) (old oldRsp : ℕ) : Kernel :=
  match (k.threads old).state with
  | .dead =>
    let k := k.dequeueThread old
    { k.setThread old fun r => { r with next := k.deadListHead } with deadListHead := old }
  | .blocked => (k.setThread old fun r => { r with rsp := oldRsp }).dequeueThread old
  | _ => k.setThread old fun r => { r with rsp := oldRsp, state := .ready }

/-- What the loop of `scheduler_handler` finds. -/
inductive Found
  | thread (t : ℕ) | none | never
deriving DecidableEq

/-- The loop from `next` on, back to `start`. -/
def searchReady (threads : ℕ → Thread) (start : ℕ) : ℕ → ℕ → Found
  | 0, _ => .never
  | fuel + 1, next =>
    if (threads next).state = .ready ∨ (threads next).state = .running then .thread next
    else if (threads next).next = start then .none
    else searchReady threads start fuel (threads next).next

/-- The stack list and the address space go over to the next thread's process. -/
def switchProcess (k : Kernel) (old next : ℕ) : Kernel :=
  let oldProcess := (k.threads old).process
  let nextProcess := (k.threads next).process
  if oldProcess = nextProcess then k
  else
    let k :=
      if oldProcess = 0 then k else k.setProcess oldProcess fun p => { p with ustacksInfos := k.usListHead }
    if nextProcess = 0 then { k with usListHead := 0 }
    else { k with usListHead := (k.processes nextProcess).ustacksInfos, cr3 := (k.processes nextProcess).pml4 }

/-- The next thread gets the processor. -/
def dispatch (k : Kernel) (old next : ℕ) : Kernel :=
  let k := { k.setThread next fun r => { r with state := .running } with currentThread := next }
  let k := k.switchProcess old next
  { k with rsp0 := (k.threads next).kernelStack.top, kernelRsp := (k.threads next).kernelStack.top }

/-- The stack pointer to go on with. -/
def schedulerHandler (k : Kernel) (oldRsp : ℕ) : Option (ℕ × Kernel) :=
  if k.NoOther then some (oldRsp, k)
  else
    let old := k.currentThread
    let k₁ := k.putAway old oldRsp
    let start := if k₁.Leaves old then k₁.readyListHead else (k.threads old).next
    if start = 0 then some (oldRsp, k₁)
    else
      match searchReady k₁.threads start (2 ^ 64) start with
      | .thread next => some (((k₁.dispatch old next).threads next).rsp, k₁.dispatch old next)
      | .none =>
        if k₁.Leaves old then none
        else some (oldRsp, k₁.setThread old fun r => { r with state := .running })
      | .never => none

/-- `thread_exit` up to its `yield`. -/
def markDead (k : Kernel) : Kernel := k.setThread k.currentThread fun r => { r with state := .dead }

def threadExit (k : Kernel) (oldRsp : ℕ) : Option (ℕ × Kernel) := k.markDead.schedulerHandler oldRsp

/-! ## Mutexes -/

def setMutex (k : Kernel) (m : ℕ) (f : Mutex → Mutex) : Kernel :=
  { k with mutexes := Function.update k.mutexes m (f (k.mutexes m)) }

def mutexInit (k : Kernel) (m : ℕ) : Kernel := k.setMutex m fun _ => ⟨0, 0, 0⟩

/-- The current thread joins the queue of `m`. -/
def enqueueBlocked (k : Kernel) (m : ℕ) : Kernel :=
  let t := k.currentThread
  let k := k.setThread t fun r => { r with state := .blocked, nextBlocked := 0 }
  if (k.mutexes m).blockedHead = 0 then k.setMutex m fun x => { x with blockedHead := t, blockedTail := t }
  else
    let k := k.setThread (k.mutexes m).blockedTail fun r => { r with nextBlocked := t }
    k.setMutex m fun x => { x with blockedTail := t }

/-- The part of `mutex_lock` under the spin lock: whether the lock was free, and the state. -/
def lockSection (k : Kernel) (m : ℕ) : Bool × Kernel :=
  if (k.mutexes m).locked = 0 then (true, k.setMutex m fun x => { x with locked := 1 })
  else (false, k.enqueueBlocked m)

/-- With its `yield`. -/
def mutexLock (k : Kernel) (m oldRsp : ℕ) : Option (ℕ × Kernel) :=
  match k.lockSection m with
  | (true, k) => some (oldRsp, k)
  | (false, k) => k.schedulerHandler oldRsp

def mutexUnlock (k : Kernel) (m : ℕ) : Kernel :=
  if (k.mutexes m).blockedHead = 0 then k.setMutex m fun x => { x with locked := 0 }
  else
    let wake := (k.mutexes m).blockedHead
    let k := k.setMutex m fun x => { x with blockedHead := (k.threads wake).nextBlocked }
    let k := if (k.mutexes m).blockedHead = 0 then k.setMutex m fun x => { x with blockedTail := 0 } else k
    k.setThread wake fun r => { r with state := .ready, nextBlocked := 0 }

/-! ## Cleanup and boot -/

/-- The dead list is taken, with the interrupts off: its first thread, and the state. -/
def takeDead (k : Kernel) : ℕ × Kernel := (k.deadListHead, { k with deadListHead := 0 })

/-- A round of the loop of `cleanup_dead_threads` for `t`: the thread to go on with. -/
def cleanupRound (k : Kernel) (t : ℕ) : Option (ℕ × Kernel) :=
  (k.destroyThread t).map fun k' => ((k.threads t).next, k')

/-- The main thread, whose record `kmalloc` does not clear. -/
def startMain (k : Kernel) (main : ℕ) : Kernel :=
  let k := k.setThread main fun r =>
    { r with tid := k.nextThreadId, state := .running, rsp := 0
             kernelStack := { r.kernelStack with bottom := 0 } }
  let k := enqueueThread { k with nextThreadId := (k.nextThreadId + 1) % 2 ^ 64 } main
  { k with currentThread := main }

/-- The two pages that the boot maps into the first process. -/
def mapUserPage (k : Kernel) (v : ℕ) : Kernel :=
  { k with vm := k.vm.mapNewPage k.cr3 v (pteWritable ||| pteUser) }

/-- What `kmalloc` returns in `init_scheduler`, for the records of threads, of the regions of their
stacks, of the process and of the user stack. -/
structure BootPointers where
  main : ℕ
  idle : ℕ
  idleInfo : ℕ
  third : ℕ
  thirdInfo : ℕ
  process : ℕ
  user : ℕ
  userInfo : ℕ
  userStackInfo : ℕ

def defaultStackSize : ℕ := 0x100000

/-- With the threads that it created, 0 for each that it could not. The record of the main thread and
that of the process are used without a check, and a page fault at `NULL` never returns. -/
def initScheduler (img : Image) (k : Kernel) (b : BootPointers) : Option (List ℕ × Kernel) :=
  if b.main = 0 then none
  else
    let k := k.startMain b.main
    let (idle, k) := k.createThread img b.idle b.idleInfo img.idleThreadEntry defaultStackSize
    let (third, k) := k.createThread img b.third b.thirdInfo img.thirdThread defaultStackSize
    let (proc, k) := k.createUserProcess b.process
    if proc = 0 then none
    else
      let oldCr3 := k.cr3
      let k := { k with cr3 := (k.processes proc).pml4 }
      let k := (k.mapUserPage 0x400000).mapUserPage 0x300000
      let k := { k with cr3 := oldCr3 }
      (k.createUserThread proc b.user b.userInfo b.userStackInfo 0x400000 4096 4096).map fun (user, k) =>
        ([b.main, idle, third, user], { k with scheduler := true })

/-- A kernel before `init_scheduler`, with nothing mapped. -/
def beforeBoot : Kernel :=
  { threads := fun _ => newThread 0 0 0 ⟨0, 0, 0⟩ ⟨0, 0, 0⟩ 0 0, processes := fun _ => ⟨0, 0, 0⟩
    usInfos := fun _ => ⟨0, 0, 0, 0⟩, mutexes := fun _ => ⟨0, 0, 0⟩, words := fun _ => 0
    vm := emptySpace, regions := [], nextThreadId := 0, nextProcessId := 1, currentThread := 0
    readyListHead := 0, deadListHead := 0, usListHead := 0, cr3 := 0x1000, rsp0 := 0, kernelRsp := 0
    scheduler := false }

end Kernel
end PointerOS
