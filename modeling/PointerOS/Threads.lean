import PointerOS.Stack

/-!
# Threads

The records of `thread.h`, `process.h`, `stack.h` and `mutex.h`, and the functions of `thread.c`,
`process.c` and `stack.c` that build and take down threads. A record is named by its address, 0 is
`NULL`, and what `kmalloc` returned for a new record is a parameter. A function that may never
return has the result `none` then: more than `2 ^ 64` records cannot be visited once each.
-/
namespace PointerOS
open Tables FrameSource

/-- `thread_state_t`. -/
inductive ThreadState
  | ready | running | blocked | dead
deriving DecidableEq

/-- `stack_t`. -/
structure StackBounds where
  top : ℕ
  bottom : ℕ
  size : ℕ
deriving DecidableEq

/-- `thread_t`. -/
structure Thread where
  rsp : ℕ
  tid : ℕ
  state : ThreadState
  kernelStack : StackBounds
  userStack : StackBounds
  pageGuardMin : ℕ
  pageGuardMax : ℕ
  process : ℕ
  prev : ℕ
  next : ℕ
  nextBlocked : ℕ
deriving DecidableEq

/-- `process_t` without `threads`, which nothing reads. -/
structure ProcessRecord where
  pml4 : ℕ
  pid : ℕ
  ustacksInfos : ℕ
deriving DecidableEq

/-- `us_info_t`. -/
structure UsNode where
  base : ℕ
  size : ℕ
  next : ℕ
  prev : ℕ
deriving DecidableEq

/-- `mutex_t` without its spin lock. -/
structure Mutex where
  locked : ℕ
  blockedHead : ℕ
  blockedTail : ℕ
deriving DecidableEq

/-- The records, the memory and the globals. `words` are the 8-byte words of the stacks; `rsp0` and
`kernelRsp` are `tss.rsp0` and `sstacks.kernel_rsp`. -/
structure Kernel where
  threads : ℕ → Thread
  processes : ℕ → ProcessRecord
  usInfos : ℕ → UsNode
  mutexes : ℕ → Mutex
  words : ℕ × ℕ → ℕ
  vm : Vm FrameSource
  regions : List VmInfo
  nextThreadId : ℕ
  nextProcessId : ℕ
  currentThread : ℕ
  readyListHead : ℕ
  deadListHead : ℕ
  usListHead : ℕ
  cr3 : ℕ
  rsp0 : ℕ
  kernelRsp : ℕ
  scheduler : Bool

/-- The addresses of the functions that new threads are started with. -/
structure Image where
  threadExit : ℕ
  idleThreadEntry : ℕ
  thirdThread : ℕ

/-- The memory word at an address: the lower half belongs to the address space, the upper half is
shared by all of them. -/
def cell (cr3 v : ℕ) : ℕ × ℕ := (if v < 2 ^ 47 then cr3 else 0, v)

namespace Kernel

def setThread (k : Kernel) (t : ℕ) (f : Thread → Thread) : Kernel :=
  { k with threads := Function.update k.threads t (f (k.threads t)) }

def setProcess (k : Kernel) (p : ℕ) (f : ProcessRecord → ProcessRecord) : Kernel :=
  { k with processes := Function.update k.processes p (f (k.processes p)) }

def setUsInfo (k : Kernel) (i : ℕ) (f : UsNode → UsNode) : Kernel :=
  { k with usInfos := Function.update k.usInfos i (f (k.usInfos i)) }

/-! ## The ready ring -/

def enqueueThread (k : Kernel) (t : ℕ) : Kernel :=
  if k.readyListHead = 0 then
    { k.setThread t fun r => { r with next := t, prev := t } with readyListHead := t }
  else
    let tail := (k.threads k.readyListHead).prev
    let k := k.setThread tail fun r => { r with next := t }
    let k := k.setThread t fun r => { r with prev := tail, next := k.readyListHead }
    k.setThread k.readyListHead fun r => { r with prev := t }

def dequeueThread (k : Kernel) (t : ℕ) : Kernel :=
  let k :=
    if (k.threads t).next = t then { k with readyListHead := 0 }
    else
      let k := k.setThread (k.threads t).prev fun r => { r with next := (k.threads t).next }
      let k := k.setThread (k.threads t).next fun r => { r with prev := (k.threads t).prev }
      if k.readyListHead = t then { k with readyListHead := (k.threads t).next } else k
  k.setThread t fun r => { r with next := 0, prev := 0 }

/-! ## Stacks -/

def kernelAllocStack (k : Kernel) (info size : ℕ) : ℕ × Kernel :=
  if size = 0 then (0, k)
  else
    let (bottom, s) := (⟨k.vm, k.regions⟩ : VmallocState).vmalloc k.cr3 info size
    (bottom, { k with vm := s.vm, regions := s.list })

/-- The search of `us_add_to_list` from `current` on: the record to go behind. -/
def usFindGap (nodes : ℕ → UsNode) (size : ℕ) : ℕ → ℕ → Option ℕ
  | 0, _ => none
  | fuel + 1, current =>
    let next := (nodes current).next
    if next = 0 then some current
    else if (nodes next).base ≤ sub64 (sub64 (nodes current).base (nodes current).size) size then some current
    else usFindGap nodes size fuel next

def usAddToList (k : Kernel) (i : ℕ) : Option Kernel :=
  if k.usListHead = 0 then
    some { k.setUsInfo i fun n => { n with base := userStackMax, prev := 0, next := 0 } with usListHead := i }
  else
    (usFindGap k.usInfos (k.usInfos i).size (2 ^ 64) k.usListHead).map fun current =>
      let next := (k.usInfos current).next
      let base := sub64 (k.usInfos current).base (k.usInfos current).size
      let k := k.setUsInfo i fun n => { n with base := base, next := next, prev := current }
      let k := k.setUsInfo current fun n => { n with next := i }
      if next = 0 then k else k.setUsInfo next fun n => { n with prev := i }

def usRemoveFromList (k : Kernel) (i : ℕ) : Kernel :=
  if i = 0 then k
  else
    let k := if k.usListHead = i then { k with usListHead := (k.usInfos i).next } else k
    let k :=
      if (k.usInfos i).next = 0 then k
      else k.setUsInfo (k.usInfos i).next fun n => { n with prev := (k.usInfos i).prev }
    let k :=
      if (k.usInfos i).prev = 0 then k
      else k.setUsInfo (k.usInfos i).prev fun n => { n with next := (k.usInfos i).next }
    k.setUsInfo i fun n => { n with next := 0, prev := 0 }

def userAllocStack (k : Kernel) (info size : ℕ) : Option (ℕ × Kernel) :=
  if size = 0 then some (0, k)
  else if info = 0 then some (0, k)
  else
    ((k.setUsInfo info fun n => { n with size := size }).usAddToList info).map fun k =>
      let base := (k.usInfos info).base
      (base, { k with vm := k.vm.mapNewPage k.cr3 (sub64 base pageSize4KB) (pteWritable ||| pteUser) })

/-- The search of `user_free_stack` from `current` on: the record with the base `ptr`, or 0. -/
def usFind (nodes : ℕ → UsNode) (ptr : ℕ) : ℕ → ℕ → Option ℕ
  | 0, _ => none
  | fuel + 1, current =>
    if current = 0 then some 0
    else if (nodes current).base = ptr then some current
    else usFind nodes ptr fuel (nodes current).next

def userFreeStack (k : Kernel) (ptr : ℕ) : Option Kernel :=
  (usFind k.usInfos ptr (2 ^ 64) k.usListHead).map fun current =>
    if current = 0 then k
    else
      let i := k.usInfos current
      usRemoveFromList { k with
        vm := intLoop i.size (fun j vm => vm.freePage k.cr3 (sub64 i.base (intToU64 j))) k.vm } current

/-! ## Creation and destruction -/

/-- `stack_top--; *stack_top = v` for each of the values. -/
def pushWords (k : Kernel) (top : ℕ) : List ℕ → ℕ × Kernel
  | [] => (top, k)
  | v :: vs =>
    pushWords { k with words := Function.update k.words (cell k.cr3 (sub64 top 8)) v } (sub64 top 8) vs

/-- The words that the creation of a thread puts below `top & ~15`: the return address, what
`iretq` takes, and fifteen registers. The result is the new stack pointer. -/
def pushFrame (k : Kernel) (top ret ss cs entry : ℕ) : ℕ × Kernel :=
  let (cleanTop, k) := k.pushWords (top / 16 * 16) [ret]
  k.pushWords cleanTop ([ss, cleanTop, 0x202, cs, entry] ++ List.replicate 15 0)

/-- The record of a new thread, cleared but for the given fields. -/
def newThread (rsp tid process : ℕ) (kernelStack userStack : StackBounds) (guardMin guardMax : ℕ) : Thread :=
  { rsp := rsp, tid := tid, state := .ready, kernelStack := kernelStack, userStack := userStack,
    pageGuardMin := guardMin, pageGuardMax := guardMax, process := process, prev := 0, next := 0,
    nextBlocked := 0 }

/-- `next_thread_id++`, and the new thread goes to the end of the ring. -/
def addThread (k : Kernel) (t : ℕ) (r : Thread) : Kernel :=
  enqueueThread { k with threads := Function.update k.threads t r
                         nextThreadId := (k.nextThreadId + 1) % 2 ^ 64 } t

/-- `t` is what `kmalloc` returned for the record, freed again when there is no stack, and `info`
what it returned for the region of the stack. -/
def createThread (img : Image) (k : Kernel) (t info entry stackSize : ℕ) : ℕ × Kernel :=
  if t = 0 then (0, k)
  else
    let (stackMem, k) := k.kernelAllocStack info stackSize
    if stackMem = 0 then (0, k)
    else
      let top := (stackMem + stackSize) % 2 ^ 64
      let (rsp, k) := k.pushFrame top img.threadExit 0x10 0x08 entry
      (t, k.addThread t (newThread rsp k.nextThreadId 0 ⟨top, stackMem, stackSize⟩ ⟨0, 0, 0⟩ 0 0))

/-- `info` and `usInfo` are what `kmalloc` returned for the regions of the two stacks. When there is no
user stack, the first push goes to the last word of memory, and the page fault never returns. -/
def createUserThread (k : Kernel) (proc t info usInfo entry kstackSize ustackSize : ℕ) : Option (ℕ × Kernel) :=
  if t = 0 then some (0, k)
  else
    let (kernelStackMem, k) := k.kernelAllocStack info kstackSize
    if kernelStackMem = 0 then some (0, k)
    else
      let oldList := k.usListHead
      let oldCr3 := k.cr3
      let k := { k with usListHead := (k.processes proc).ustacksInfos, cr3 := (k.processes proc).pml4 }
      (k.userAllocStack usInfo ustackSize).bind fun (userStackMem, k) =>
        if userStackMem < 16 then none
        else
          let (rsp, k) := k.pushFrame userStackMem 0x300000 0x1B 0x23 entry
          let k := k.setProcess proc fun p => { p with ustacksInfos := k.usListHead }
          let k := { k with usListHead := oldList, cr3 := oldCr3 }
          some (t, k.addThread t (newThread rsp k.nextThreadId proc
            ⟨(kernelStackMem + kstackSize) % 2 ^ 64, kernelStackMem, kstackSize⟩
            ⟨(userStackMem + ustackSize) % 2 ^ 64, userStackMem, ustackSize⟩
            (sub64 userStackMem pageSize4KB) userStackMem))

/-- The part of `destroy_thread` that touches more than the heap. -/
def destroyThread (k : Kernel) (t : ℕ) : Option Kernel :=
  let r := k.threads t
  if t = 0 then some k
  else if r.userStack.bottom = 0 ∨ r.process = 0 then some k
  else
    let oldList := k.usListHead
    let oldCr3 := k.cr3
    let k :=
      { k with usListHead := (k.processes r.process).ustacksInfos, cr3 := (k.processes r.process).pml4 }
    (k.userFreeStack r.userStack.bottom).map fun k =>
      let k := k.setProcess r.process fun p => { p with ustacksInfos := k.usListHead }
      { k with usListHead := oldList, cr3 := oldCr3 }

/-- `p` is what `kmalloc` returned for the record, freed again when there is no frame. -/
def createUserProcess (k : Kernel) (p : ℕ) : ℕ × Kernel :=
  if p = 0 then (0, k)
  else
    let (pml4, pmm) := take k.vm.pmm
    if pml4 = 0 then (0, { k with vm := { k.vm with pmm := pmm } })
    else
      (p, { k with
        vm := { tables := Spaces.copyHalf k.vm.tables pml4 k.cr3, pmm := pmm }
        processes := Function.update k.processes p ⟨pml4, k.nextProcessId, 0⟩
        nextProcessId := (k.nextProcessId + 1) % 2 ^ 64 })

end Kernel
end PointerOS
