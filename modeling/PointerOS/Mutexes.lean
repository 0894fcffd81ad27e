import PointerOS.LinkedList
import PointerOS.Scheduler

/-!
# Mutexes

The queue of a mutex is a chain through `next_blocked` with a pointer to its last thread. Beside
the state runs a record of who owns the mutex, who waits for it, and in which order threads
arrived and were picked.
-/
namespace PointerOS
open LinkedList

def nextBlockedOf (T : ℕ → Thread) (t : ℕ) : ℕ := (T t).nextBlocked

/-- A record without what `mutex.c` writes. -/
def Thread.sansWait (r : Thread) : Thread := { r with state := .ready, nextBlocked := 0 }

namespace Kernel
variable {k k' : Kernel} {m t w u : ℕ} {l : List ℕ}

theorem setThread_block (k : Kernel) (t : ℕ) :
    (k.setThread t fun r => { r with state := .blocked, nextBlocked := 0 }) =
      { k with threads := fun u =>
          { k.threads u with
            state := if u = t then .blocked else (k.threads u).state
            nextBlocked := if u = t then 0 else (k.threads u).nextBlocked } } := by
  unfold setThread
  congr 1
  funext u
  rw [Function.update_apply]
  split_ifs with hu
  · rw [hu]
  · rfl

theorem setThread_nextBlocked (k : Kernel) (t n : ℕ) :
    (k.setThread t fun r => { r with nextBlocked := n }) =
      { k with threads := fun u =>
          { k.threads u with nextBlocked := if u = t then n else (k.threads u).nextBlocked } } := by
  unfold setThread
  congr 1
  funext u
  rw [Function.update_apply]
  split_ifs with hu
  · rw [hu]
  · rfl

/-- The threads that wait for the mutex, in order. -/
structure WaitQueue (k : Kernel) (m : ℕ) (l : List ℕ) : Prop where
  chain : Chain (nextBlockedOf k.threads) 0 (k.mutexes m).blockedHead l
  tail : (k.mutexes m).blockedTail = l.getLastD 0
  nodup : l.Nodup
  null : 0 ∉ l

/-- A call on the mutex `m` that gives the thread `t` the state `s`, and writes to the links of `t`
and of the queue `l` only. -/
structure Requeued (k k' : Kernel) (m t : ℕ) (s : ThreadState) (l : List ℕ) : Prop where
  eq : k' = { k with threads := k'.threads, mutexes := k'.mutexes }
  mutexes : ∀ m', m' ≠ m → k'.mutexes m' = k.mutexes m'
  locked : (k'.mutexes m).locked = (k.mutexes m).locked
  state : ∀ u, (k'.threads u).state = if u = t then s else (k.threads u).state
  frame : ∀ u, u ∉ t :: l → k'.threads u = k.threads u
  sans : ∀ u, (k'.threads u).sansWait = (k.threads u).sansWait

namespace WaitQueue

theorem head_eq (h : WaitQueue k m l) : (k.mutexes m).blockedHead = l.headD 0 := h.chain.head_eq

theorem head_eq_zero_iff (h : WaitQueue k m l) : (k.mutexes m).blockedHead = 0 ↔ l = [] := by
  rw [h.head_eq]
  cases l with
  | nil => simp
  | cons w l =>
    have hw : w ≠ 0 := fun he => h.null (he ▸ List.mem_cons_self)
    simp [hw]

theorem tail_eq_zero_iff (h : WaitQueue k m l) : (k.mutexes m).blockedTail = 0 ↔ l = [] := by
  rw [h.tail]
  cases l with
  | nil => simp
  | cons w l =>
    have hw : (w :: l).getLastD 0 ≠ 0 := by
      rw [List.getLastD_cons]
      exact fun he => h.null (he ▸ List.getLastD_mem_cons)
    simp only [hw, List.cons_ne_nil]

theorem congr (h : WaitQueue k m l) (hm : k'.mutexes m = k.mutexes m)
    (hT : ∀ u ∈ l, (k'.threads u).nextBlocked = (k.threads u).nextBlocked) : WaitQueue k' m l where
  chain := hm ▸ h.chain.congr hT
  tail := hm ▸ h.tail
  nodup := h.nodup
  null := h.null

theorem tail_mem (h : WaitQueue k m l) (hl : l ≠ []) : (k.mutexes m).blockedTail ∈ l := by
  rw [h.tail]
  cases l with
  | nil => exact absurd rfl hl
  | cons w l =>
    rw [List.getLastD_cons]
    exact List.getLastD_mem_cons

/-- The current thread joins at the end. -/
theorem enqueue (h : WaitQueue k m l) (ht : k.currentThread ∉ l) (h0 : k.currentThread ≠ 0) :
    WaitQueue (k.enqueueBlocked m) m (l ++ [k.currentThread]) ∧
      Requeued k (k.enqueueBlocked m) m k.currentThread .blocked l := by
  obtain ⟨t, hcur⟩ : ∃ t, t = k.currentThread := ⟨_, rfl⟩
  rw [← hcur] at ht h0 ⊢
  have hnodup : (l ++ [t]).Nodup := List.nodup_append_comm.mp (List.nodup_cons.mpr ⟨ht, h.nodup⟩)
  have hnull : 0 ∉ l ++ [t] := by
    simp only [List.mem_append, List.mem_singleton, not_or]
    exact ⟨h.null, Ne.symm h0⟩
  by_cases hl : l = []
  · have hhead := h.head_eq_zero_iff.mpr hl
    subst hl
    have heq : k.enqueueBlocked m =
        (k.setThread t fun r => { r with state := .blocked, nextBlocked := 0 }).setMutex m
          fun x => { x with blockedHead := t, blockedTail := t } := by
      unfold enqueueBlocked
      rw [← hcur]
      exact if_pos hhead
    rw [heq]
    refine ⟨⟨?_, ?_, hnodup, hnull⟩, rfl, fun m' hm' => ?_, ?_, fun u => ?_, fun u hu => ?_, fun u => ?_⟩
    · simp [Chain, nextBlockedOf, setMutex, setThread]
    · simp [setMutex]
    · simp [setMutex, setThread, Function.update_of_ne hm']
    · simp [setMutex, setThread]
    · simp only [setMutex, setThread, Function.update_apply]
      split_ifs <;> rfl
    · rw [List.mem_singleton] at hu
      simp [setMutex, setThread, Function.update_of_ne hu]
    · simp only [setMutex, setThread, Function.update_apply]
      split_ifs with hu
      · rw [hu]
        rfl
      · rfl
  · have hhead : (k.mutexes m).blockedHead ≠ 0 := mt h.head_eq_zero_iff.mp hl
    have htail := h.tail_mem hl
    have hne : (k.mutexes m).blockedTail ≠ t := fun he => ht (he ▸ htail)
    have heq : k.enqueueBlocked m =
        (({ k with threads := fun u => { k.threads u with
            state := if u = t then .blocked else (k.threads u).state
            nextBlocked := if u = (k.mutexes m).blockedTail then t
              else if u = t then 0 else (k.threads u).nextBlocked } } : Kernel).setMutex m
          fun x => { x with blockedTail := t }) := by
      simp only [enqueueBlocked, ← hcur, setThread_block, if_neg hhead, setThread_nextBlocked]
    rw [heq]
    refine ⟨⟨?_, ?_, hnodup, hnull⟩, rfl, fun m' hm' => ?_, ?_, fun u => ?_, fun u hu => ?_, fun u => ?_⟩
    · have hc : Chain (fun u => if u = (k.mutexes m).blockedTail then t else if u = t then 0
          else (k.threads u).nextBlocked) 0 (if l = [] then t else (k.mutexes m).blockedHead) (l ++ [t]) := by
        refine h.chain.concat h.nodup h.null (by simp [Ne.symm hne]) fun a ha => ?_
        have hat : a ≠ t := fun he => ht (he ▸ ha)
        simp [h.tail, hat, nextBlockedOf]
      rw [if_neg hl] at hc
      simp only [setMutex, Function.update_self]
      exact hc
    · simp [setMutex]
    · simp [setMutex, Function.update_of_ne hm']
    · simp [setMutex]
    · simp only [setMutex]
    · rw [List.mem_cons, not_or] at hu
      have hut : u ≠ (k.mutexes m).blockedTail := fun he => hu.2 (he ▸ htail)
      simp only [setMutex, if_neg hu.1, if_neg hut]
    · simp only [setMutex, Thread.sansWait]

/-- The first thread is woken. -/
theorem unlock (h : WaitQueue k m (w :: l)) :
    WaitQueue (k.mutexUnlock m) m l ∧ Requeued k (k.mutexUnlock m) m w .ready [] := by
  have hw : w ≠ 0 := fun he => h.null (he ▸ List.mem_cons_self)
  have hhead : (k.mutexes m).blockedHead = w := h.head_eq
  obtain ⟨hwl, hnodup⟩ := List.nodup_cons.mp h.nodup
  have hnull : 0 ∉ l := fun hm => h.null (List.mem_cons_of_mem _ hm)
  have hchain : Chain (nextBlockedOf k.threads) 0 (k.threads w).nextBlocked l := h.chain.2
  have hnext : (k.threads w).nextBlocked = l.headD 0 := hchain.head_eq
  have hnext0 : (k.threads w).nextBlocked = 0 ↔ l = [] := by
    rw [hnext]
    cases l with
    | nil => simp
    | cons y l =>
      have hy : y ≠ 0 := fun he => hnull (he ▸ List.mem_cons_self)
      simp [hy]
  have heq : k.mutexUnlock m =
      ((k.setMutex m fun x => { x with
          blockedHead := (k.threads w).nextBlocked
          blockedTail := if l = [] then 0 else x.blockedTail }).setThread w
        fun r => { r with state := .ready, nextBlocked := 0 }) := by
    unfold mutexUnlock
    rw [hhead]
    refine (if_neg hw).trans ?_
    by_cases hl : l = []
    · simp [setMutex, hl, hnext0.mpr hl]
    · have hn0 := mt hnext0.mp hl
      simp [setMutex, hl, hn0]
  rw [heq]
  refine ⟨⟨?_, ?_, hnodup, hnull⟩, rfl, fun m' hm' => ?_, ?_, fun u => ?_, fun u hu => ?_, fun u => ?_⟩
  · have hc : Chain (nextBlockedOf (Function.update k.threads w
        { k.threads w with state := .ready, nextBlocked := 0 })) 0 (k.threads w).nextBlocked l := by
      refine hchain.congr fun u hu => ?_
      have huw : u ≠ w := fun he => hwl (he ▸ hu)
      simp only [nextBlockedOf, Function.update_of_ne huw]
    simpa [setMutex, setThread] using hc
  · have ht := h.tail
    rw [List.getLastD_cons] at ht
    cases l with
    | nil => simp [setMutex, setThread]
    | cons y l =>
      rw [List.getLastD_cons] at ht
      simp only [setMutex, setThread, Function.update_self, List.cons_ne_nil, if_false, List.getLastD_cons]
      exact ht
  · simp [setMutex, setThread, Function.update_of_ne hm']
  · simp [setMutex, setThread]
  · simp only [setMutex, setThread, Function.update_apply]
    split_ifs <;> rfl
  · rw [List.mem_singleton] at hu
    simp [setMutex, setThread, Function.update_of_ne hu]
  · simp only [setMutex, setThread, Function.update_apply]
    split_ifs with hu
    · rw [hu]
      rfl
    · rfl

end WaitQueue
end Kernel

/-! ## Runs on one mutex -/

/-- The threads that own the mutex, those that wait for it, and those that ever arrived and were
picked, in order. -/
structure MutexTrace where
  owners : List ℕ
  waiting : List ℕ
  arrived : List ℕ
  picked : List ℕ

namespace MutexTrace

/-- `t` passes through, or has to wait. -/
def lock (g : MutexTrace) (t : ℕ) (free : Bool) : MutexTrace :=
  if free then { g with owners := t :: g.owners }
  else { g with waiting := g.waiting ++ [t], arrived := g.arrived ++ [t] }

/-- `t` hands the mutex over to `wake`, or gives it up. -/
def unlock (g : MutexTrace) (t wake : ℕ) : MutexTrace :=
  if wake = 0 then { g with owners := g.owners.erase t }
  else
    { g with
      owners := wake :: g.owners.erase t
      waiting := g.waiting.erase wake
      picked := g.picked ++ [wake] }

end MutexTrace

/-- Runs on the mutex `m`, in which a blocked thread does nothing and only an owner unlocks.
Anything else may happen in between as long as the threads that wait stay as they are. -/
inductive MutexRun (m : ℕ) : Kernel → MutexTrace → Prop
  | init (k : Kernel) : MutexRun m (k.mutexInit m) ⟨[], [], [], []⟩
  | lock {k : Kernel} {g : MutexTrace} (h : MutexRun m k g) (t : ℕ) (h0 : t ≠ 0)
      (hrun : (k.threads t).state ≠ .blocked) :
      MutexRun m (({ k with currentThread := t } : Kernel).lockSection m).2
        (g.lock t (({ k with currentThread := t } : Kernel).lockSection m).1)
  | unlock {k : Kernel} {g : MutexTrace} (h : MutexRun m k g) (t : ℕ) (howner : t ∈ g.owners)
      (hrun : (k.threads t).state ≠ .blocked) :
      MutexRun m (({ k with currentThread := t } : Kernel).mutexUnlock m)
        (g.unlock t (k.mutexes m).blockedHead)
  | other {k : Kernel} {g : MutexTrace} (h : MutexRun m k g) (k' : Kernel)
      (hm : k'.mutexes m = k.mutexes m)
      (hT : ∀ t ∈ g.waiting, (k'.threads t).state = (k.threads t).state ∧
        (k'.threads t).nextBlocked = (k.threads t).nextBlocked) :
      MutexRun m k' g

/-- The mutex has at most one owner, is free only without one, and its queue holds the waiting
threads in the order in which they arrived and are picked. -/
structure MutexSafe (k : Kernel) (m : ℕ) (g : MutexTrace) : Prop where
  owners : g.owners.length ≤ 1
  locked : (k.mutexes m).locked = 0 ↔ g.owners = []
  free : (k.mutexes m).locked = 0 → g.waiting = [] ∧ (k.mutexes m).blockedHead = 0
  queue : Chain (nextBlockedOf k.threads) 0 (k.mutexes m).blockedHead g.waiting
  once : g.waiting.Nodup ∧ 0 ∉ g.waiting
  tail : (k.mutexes m).blockedTail = g.waiting.getLastD 0
  tail_null : (k.mutexes m).blockedTail = 0 ↔ (k.mutexes m).blockedHead = 0
  blocked : ∀ t ∈ g.waiting, (k.threads t).state = .blocked
  fifo : g.arrived = g.picked ++ g.waiting

section Safety
variable {k : Kernel} {m t : ℕ} {g : MutexTrace}

theorem MutexSafe.of_queue (howners : g.owners.length ≤ 1) (hlocked : (k.mutexes m).locked = 0 ↔ g.owners = [])
    (hfree : g.owners = [] → g.waiting = []) (hq : k.WaitQueue m g.waiting)
    (hblocked : ∀ t ∈ g.waiting, (k.threads t).state = .blocked) (hfifo : g.arrived = g.picked ++ g.waiting) :
    MutexSafe k m g where
  owners := howners
  locked := hlocked
  free := fun h0 => ⟨hfree (hlocked.mp h0), hq.head_eq_zero_iff.mpr (hfree (hlocked.mp h0))⟩
  queue := hq.chain
  once := ⟨hq.nodup, hq.null⟩
  tail := hq.tail
  tail_null := hq.tail_eq_zero_iff.trans hq.head_eq_zero_iff.symm
  blocked := hblocked
  fifo := hfifo

theorem MutexSafe.waitQueue (h : MutexSafe k m g) : k.WaitQueue m g.waiting :=
  ⟨h.queue, h.tail, h.once.1, h.once.2⟩

theorem MutexSafe.lock (h : MutexSafe k m g) (h0 : t ≠ 0) (hrun : (k.threads t).state ≠ .blocked) :
    MutexSafe (({ k with currentThread := t } : Kernel).lockSection m).2 m
      (g.lock t (({ k with currentThread := t } : Kernel).lockSection m).1) := by
  by_cases hl : (k.mutexes m).locked = 0
  · have hsec : ({ k with currentThread := t } : Kernel).lockSection m =
        (true, ({ k with currentThread := t } : Kernel).setMutex m fun x => { x with locked := 1 }) := if_pos hl
    obtain ⟨hwait, -⟩ := h.free hl
    have howners := h.locked.mp hl
    rw [hsec]
    refine .of_queue ?_ ?_ (fun he => nomatch he) (hwait ▸ ⟨?_, ?_, List.nodup_nil, List.not_mem_nil⟩) ?_ h.fifo
    · simp [MutexTrace.lock, howners]
    · simp [MutexTrace.lock, Kernel.setMutex]
    · have hc := hwait ▸ h.queue
      simpa [Kernel.setMutex, Chain] using hc
    · have ht := hwait ▸ h.tail
      simpa [Kernel.setMutex] using ht
    · exact h.blocked
  · have hsec : ({ k with currentThread := t } : Kernel).lockSection m =
        (false, ({ k with currentThread := t } : Kernel).enqueueBlocked m) := if_neg hl
    have hq : ({ k with currentThread := t } : Kernel).WaitQueue m g.waiting := h.waitQueue.congr rfl fun _ _ => rfl
    have ht : t ∉ g.waiting := fun hm => hrun (h.blocked t hm)
    obtain ⟨hq', hr⟩ := hq.enqueue ht h0
    rw [hsec]
    refine .of_queue h.owners ?_ (fun he => ?_) hq' (fun u hu => ?_) ?_
    · rw [hr.locked]
      exact h.locked
    · exact absurd (h.locked.mpr he) hl
    · rw [hr.state]
      rcases List.mem_append.mp hu with hu | hu
      · split_ifs
        · rfl
        · exact h.blocked u hu
      · rw [if_pos (List.mem_singleton.mp hu)]
    · change g.arrived ++ [t] = g.picked ++ (g.waiting ++ [t])
      rw [h.fifo, List.append_assoc]

theorem MutexSafe.unlock (h : MutexSafe k m g) (howner : t ∈ g.owners) :
    MutexSafe (({ k with currentThread := t } : Kernel).mutexUnlock m) m
      (g.unlock t (k.mutexes m).blockedHead) := by
  have howners : g.owners.erase t = [] := by
    have hlen := List.length_erase_of_mem howner
    have hle := h.owners
    exact List.length_eq_zero_iff.mp (by omega)
  have hlocked : (k.mutexes m).locked ≠ 0 := fun hl => by
    rw [h.locked.mp hl] at howner
    exact List.not_mem_nil howner
  have hq : ({ k with currentThread := t } : Kernel).WaitQueue m g.waiting := h.waitQueue.congr rfl fun _ _ => rfl
  cases hw : g.waiting with
  | nil =>
    have hhead : (k.mutexes m).blockedHead = 0 := h.waitQueue.head_eq_zero_iff.mpr hw
    have heq : ({ k with currentThread := t } : Kernel).mutexUnlock m =
        ({ k with currentThread := t } : Kernel).setMutex m fun x => { x with locked := 0 } := if_pos hhead
    rw [heq, MutexTrace.unlock, if_pos hhead, howners]
    have hq' : (({ k with currentThread := t } : Kernel).setMutex m fun x => { x with locked := 0 }).WaitQueue m
        g.waiting := by
      rw [hw] at hq ⊢
      refine ⟨?_, ?_, List.nodup_nil, List.not_mem_nil⟩
      · simpa [Kernel.setMutex, Chain] using hhead
      · simpa [Kernel.setMutex] using hq.tail
    refine .of_queue (Nat.zero_le 1) ?_ (fun _ => hw) hq' h.blocked h.fifo
    simp [Kernel.setMutex]
  | cons w l =>
    rw [hw] at hq
    obtain ⟨hq', hr⟩ := hq.unlock
    have hhead : (k.mutexes m).blockedHead = w := hq.head_eq
    have hw0 : w ≠ 0 := fun he => hq.null (he ▸ List.mem_cons_self)
    have herase : g.waiting.erase w = l := by rw [hw, List.erase_cons_head]
    rw [hhead, MutexTrace.unlock, if_neg hw0, howners, herase]
    refine .of_queue le_rfl ?_ (fun he => nomatch he) hq' (fun u hu => ?_) ?_
    · rw [hr.locked]
      simpa using hlocked
    · have hne : u ≠ w := fun he => (List.nodup_cons.mp hq.nodup).1 (he ▸ hu)
      rw [hr.state, if_neg hne]
      exact h.blocked u (hw ▸ List.mem_cons_of_mem _ hu)
    · change g.arrived = g.picked ++ [w] ++ l
      rw [h.fifo, hw, List.append_assoc]
      rfl

/-- In every run at most one thread owns the mutex, and it goes to the threads that wait in their order. -/
theorem mutex_safe (h : MutexRun m k g) : MutexSafe k m g := by
  induction h with
  | init k =>
    refine .of_queue (Nat.zero_le 1) ?_ (fun _ => rfl) ⟨?_, ?_, List.nodup_nil, List.not_mem_nil⟩ ?_ rfl
    · simp [Kernel.mutexInit, Kernel.setMutex]
    · simp [Kernel.mutexInit, Kernel.setMutex, Chain]
    · simp [Kernel.mutexInit, Kernel.setMutex]
    · exact fun t ht => absurd ht List.not_mem_nil
  | lock _ t h0 hrun ih => exact ih.lock h0 hrun
  | unlock _ t howner _ ih => exact ih.unlock howner
  | other _ k' hm hT ih =>
    have hq := ih.waitQueue.congr hm fun t ht => (hT t ht).2
    refine .of_queue ih.owners ?_ (fun he => ?_) hq (fun t ht => ?_) ih.fifo
    · rw [hm]
      exact ih.locked
    · exact (ih.free (ih.locked.mpr he)).1
    · exact (hT t ht).1.trans (ih.blocked t ht)

end Safety

/-- Thread 1 locks, thread 2 waits, thread 1 unlocks: thread 2 owns the mutex. -/
theorem mutex_safe_handover : ∃ k g, MutexSafe k 1 g ∧ g.owners = [2] ∧ (k.mutexes 1).locked = 1 := by
  have hrun := MutexRun.unlock (((MutexRun.init (m := 1) Kernel.beforeBoot).lock 1 (by decide) (by decide)).lock 2
    (by decide) (by decide +kernel)) 1 (by decide) (by decide +kernel)
  exact ⟨_, _, mutex_safe hrun, by decide +kernel, by decide +kernel⟩

end PointerOS
