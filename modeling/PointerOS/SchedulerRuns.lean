import PointerOS.Mutexes
import PointerOS.ReadyRing

/-!
# Runs of the scheduler

The calls that threads make on the scheduler, one after the other from the state that
`init_scheduler` sets up. A record runs along of the threads that are alive, of those that exited,
were put on the dead list and were destroyed, and of the owners of the mutexes. A thread is told
from a later one at the same address by the number of its creation.
-/
namespace PointerOS
open LinkedList

structure Trace where
  live : List ℕ
  serial : ℕ → ℕ
  created : ℕ
  exited : List ℕ
  buried : List ℕ
  destroyed : List ℕ
  cleaning : ℕ → ℕ
  owner : ℕ → ℕ

namespace Trace

def empty : Trace :=
  { live := [], serial := fun _ => 0, created := 0, exited := [], buried := [], destroyed := []
    cleaning := fun _ => 0, owner := fun _ => 0 }

/-- The thread `t` is new. -/
def create (g : Trace) (t : ℕ) : Trace :=
  { g with live := t :: g.live, serial := Function.update g.serial t g.created, created := g.created + 1 }

/-- A creation that returned `t`. -/
def record (g : Trace) (t : ℕ) : Trace := if t = 0 then g else g.create t

/-- After `init_scheduler`, which created the given threads. -/
def start (l : List ℕ) : Trace := l.foldl record empty

def exit (g : Trace) (t : ℕ) : Trace := { g with exited := g.serial t :: g.exited }

/-- After a call of `scheduler_handler` that led from `k` to `k'`: the thread that is new at
`dead_list_head` was put on the dead list. -/
def handled (g : Trace) (k k' : Kernel) : Trace :=
  if k'.deadListHead = k.deadListHead then g
  else { g with buried := g.serial k'.deadListHead :: g.buried }

theorem handled_live (g : Trace) (k k' : Kernel) :
    (g.handled k k').live = g.live ∧ (g.handled k k').cleaning = g.cleaning := by
  unfold handled
  split_ifs <;> exact ⟨rfl, rfl⟩

def setOwner (g : Trace) (m t : ℕ) : Trace := { g with owner := Function.update g.owner m t }

/-- The variable `t` of the cleanup of the thread with the number `s`, 0 when it is over. -/
def setCleaning (g : Trace) (s t : ℕ) : Trace := { g with cleaning := Function.update g.cleaning s t }

def destroy (g : Trace) (t : ℕ) : Trace :=
  { g with live := g.live.filter (· ≠ t), destroyed := g.serial t :: g.destroyed }

end Trace

/-- What the current thread does next. A tick is a timer interrupt or a `yield`; the calls that
switch carry the stack pointer at which `scheduler_handler` is entered. -/
inductive Call
  | createThread (t info entry stackSize : ℕ)
  | createUserThread (proc t info usInfo entry kstackSize ustackSize : ℕ)
  | createUserProcess (p : ℕ)
  | tick (rsp : ℕ)
  | exit (rsp : ℕ)
  | lock (m rsp : ℕ)
  | unlock (m : ℕ)
  | takeDead
  | cleanupRound

namespace Call

/-- The state at which the call enters `scheduler_handler`, and with which stack pointer. -/
def handlerEntry (k : Kernel) : Call → Option (Kernel × ℕ)
  | tick rsp => some (k, rsp)
  | exit rsp => some (k.markDead, rsp)
  | lock m rsp => if (k.mutexes m).locked = 0 then none else some (k.enqueueBlocked m, rsp)
  | _ => none

def run (img : Image) (k : Kernel) (g : Trace) : Call → Option (Kernel × Trace)
  | createThread t info entry stackSize =>
    let (r, k') := k.createThread img t info entry stackSize
    some (k', g.record r)
  | createUserThread proc t info usInfo entry kstackSize ustackSize =>
    (k.createUserThread proc t info usInfo entry kstackSize ustackSize).map fun (r, k') => (k', g.record r)
  | createUserProcess p => some ((k.createUserProcess p).2, g)
  | tick rsp => (k.schedulerHandler rsp).map fun (_, k') => (k', g.handled k k')
  | exit rsp => (k.threadExit rsp).map fun (_, k') => (k', (g.exit k.currentThread).handled k k')
  | lock m rsp =>
    (k.mutexLock m rsp).map fun (_, k') =>
      (k', if (k.mutexes m).locked = 0 then g.setOwner m k.currentThread else g.handled k k')
  | unlock m => some (k.mutexUnlock m, g.setOwner m (k.mutexes m).blockedHead)
  | takeDead =>
    let (t, k') := k.takeDead
    some (k', g.setCleaning (g.serial k.currentThread) t)
  | cleanupRound =>
    let t := g.cleaning (g.serial k.currentThread)
    (k.cleanupRound t).map fun (next, k') => (k', (g.destroy t).setCleaning (g.serial k.currentThread) next)

/-- A new record is not one of a thread that is alive, and a cleanup goes on until it is over. -/
def Proper (k : Kernel) (g : Trace) : Call → Prop
  | createThread t _ _ _ => t ∉ g.live
  | createUserThread _ t _ _ _ _ _ => t ∉ g.live
  | takeDead => g.cleaning (g.serial k.currentThread) = 0
  | cleanupRound => g.cleaning (g.serial k.currentThread) ≠ 0
  | _ => True

instance (k : Kernel) (g : Trace) (c : Call) : Decidable (c.Proper k g) := by
  cases c <;> unfold Proper <;> infer_instance

/-- The calls one after the other, as long as each is proper and meets the condition `Ok`. -/
def runAll (img : Image) (Ok : Kernel → Trace → Call → Prop) [∀ k g c, Decidable (Ok k g c)] :
    List Call → Kernel → Trace → Option (Kernel × Trace)
  | [], k, g => some (k, g)
  | c :: cs, k, g =>
    if c.Proper k g ∧ Ok k g c then (c.run img k g).bind fun p => runAll img Ok cs p.1 p.2 else none

end Call

/-- `init_scheduler` ran on empty lists and initialised mutexes, with a fresh record for each of the
threads in the state that it left. -/
structure Booted (img : Image) (b : Kernel.BootPointers) (k₀ k : Kernel) (l : List ℕ) : Prop where
  done : Kernel.initScheduler img k₀ b = some (l, k)
  fresh : (l.filter (· ≠ 0)).Nodup
  ready : k₀.readyListHead = 0
  dead : k₀.deadListHead = 0
  mutexes : ∀ m, k₀.mutexes m = ⟨0, 0, 0⟩

/-- Runs in which each call meets the condition `Ok`. -/
inductive SchedulerRun (img : Image) (b : Kernel.BootPointers) (Ok : Kernel → Trace → Call → Prop) :
    Kernel → Trace → Prop
  | init {k₀ k : Kernel} {l : List ℕ} (h : Booted img b k₀ k l) : SchedulerRun img b Ok k (Trace.start l)
  | step {k k' : Kernel} {g g' : Trace} (h : SchedulerRun img b Ok k g) (c : Call) (hc : c.Proper k g)
      (hok : Ok k g c) (hrun : c.run img k g = some (k', g')) : SchedulerRun img b Ok k' g'

theorem SchedulerRun.runAll {img : Image} {b : Kernel.BootPointers} {Ok : Kernel → Trace → Call → Prop}
    [∀ k g c, Decidable (Ok k g c)] {k k' : Kernel} {g g' : Trace} {cs : List Call} (h : SchedulerRun img b Ok k g)
    (hrun : Call.runAll img Ok cs k g = some (k', g')) : SchedulerRun img b Ok k' g' := by
  induction cs generalizing k g with
  | nil =>
    obtain ⟨rfl, rfl⟩ := Prod.mk.inj (Option.some.inj hrun)
    exact h
  | cons c cs ih =>
    rw [Call.runAll] at hrun
    split_ifs at hrun with hc
    obtain ⟨⟨k₁, g₁⟩, hk₁, hrest⟩ := Option.bind_eq_some_iff.mp hrun
    exact ih (h.step c hc.1 hc.2 hk₁) hrest

end PointerOS
