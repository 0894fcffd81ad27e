import PointerOS.Klog
import PointerOS.Kmalloc
import PointerOS.Scheduler

/-!
# The interrupt flag

The functions that take a spin lock or mask the interrupts, with the flag and the locks. A lock that
is held already is never released, for its owner cannot run: interrupts are off and there is one
processor.
-/
namespace PointerOS

inductive SpinLock
  | kmalloc
  | pmm
  | klogWrite
  | klogRead
  | mutex (m : ℕ)
deriving DecidableEq

/-- The interrupt flag and the locks that are held, with what the functions work on. `klogBuffer` is whether
there is a buffer. -/
structure World where
  interrupts : Bool
  locks : SpinLock → Bool
  heap : Heap
  pmm : Pmm
  kernel : Kernel
  klogBuffer : Bool
  klog : Klog

namespace World

/-- The flag and the locks are the same. -/
structure SameFlags (w w' : World) : Prop where
  interrupts : w'.interrupts = w.interrupts
  locks : w'.locks = w.locks

def cli (w : World) : World := { w with interrupts := false }

def sti (w : World) : World := { w with interrupts := true }

/-- What `rflags` keeps of the flags is the interrupt flag. -/
def spinLockIrqsave (w : World) (l : SpinLock) : Option (Bool × World) :=
  let rflags := w.interrupts
  let w := w.cli
  if w.locks l then none else some (rflags, { w with locks := Function.update w.locks l true })

/-- `__atomic_clear(&lock->lock)` -/
def clearLock (w : World) (l : SpinLock) : World := { w with locks := Function.update w.locks l false }

def spinLockIrqrestore (w : World) (l : SpinLock) (rflags : Bool) : World :=
  { w.clearLock l with interrupts := rflags }

/-- What the other threads do up to the return to this one, with the flags it left with. -/
def yield (others : World → World) (w : World) : World :=
  { others w with interrupts := w.interrupts, locks := w.locks }

/-! ## The functions -/

/-- `if (scheduler) rflags = spin_lock_irqsave(&kmalloc_lock)` -/
def lockHeap (w : World) : Option (Bool × World) :=
  if w.kernel.scheduler then w.spinLockIrqsave .kmalloc else some (false, w)

/-- `if (scheduler) spin_lock_irqrestore(&kmalloc_lock, rflags)` -/
def unlockHeap (w : World) (rflags : Bool) : World :=
  if w.kernel.scheduler then w.spinLockIrqrestore .kmalloc rflags else w

def kmalloc (w : World) (size : ℕ) : Option (ℕ × World) :=
  if size = 0 then some (0, w)
  else
    w.lockHeap.bind fun (rflags, w) =>
      if 2048 < size then
        (kmallocOrder size 64 pageSize4KB 0).map fun order =>
          let (mem, h) := w.heap.buddyAlloc order
          (mem, { w with heap := h }.unlockHeap rflags)
      else
        match (List.range numCaches).find? (fun i => decide (size ≤ (w.heap.kernelCaches i).objSize)) with
        | some i =>
          let (mem, h) := w.heap.slabAlloc i
          some (mem, { w with heap := h }.unlockHeap rflags)
        | none => some (0, w.unlockHeap rflags)

def kfree (w : World) (ptr : ℕ) : Option World :=
  if ptr = 0 then some w
  else
    w.lockHeap.map fun (rflags, w) =>
      let h := if (w.heap.metadata (pageIndex ptr)).isSlab then w.heap.slabFree ptr else w.heap.buddyFree ptr
      { w with heap := h }.unlockHeap rflags

/-- The scan of `pmm_alloc_page` from frame `i`, with `n` frames to go. -/
def pmmAllocPageFrom (w : World) (rflags : Bool) : ℕ → ℕ → ℕ × World
  | 0, _ => (0, w.spinLockIrqrestore .pmm rflags)
  | n + 1, i =>
    if w.pmm.used i = false then
      let w := { w with pmm := { w.pmm with bitmap := Bitmap.setBit w.pmm.bitmap i } }
      (i * 4096 % 2 ^ 64, w.spinLockIrqrestore .pmm rflags)
    else pmmAllocPageFrom w rflags n (i + 1)

def pmmAllocPage (w : World) : Option (ℕ × World) :=
  (w.spinLockIrqsave .pmm).map fun (rflags, w) => w.pmmAllocPageFrom rflags w.pmm.totalPages 0

def klogWrite (w : World) (s : List UInt8) : Option World :=
  if w.klogBuffer = false ∨ s.length = 0 then some w
  else
    let s := s.take klogBufMax
    (w.spinLockIrqsave .klogWrite).map fun (rflags, w) =>
      let (start, k) := w.klog.claim s.length
      let w := { w with klog := k }.spinLockIrqrestore .klogWrite rflags
      { w with klog := w.klog.fill start 0 s }

/-- A round of the loop of `klog_flush_to_screen` behind the first test: the characters shown, and whether the
loop goes on. -/
def flushTake (w : World) : Option (List UInt8 × World × Bool) :=
  if w.klog.tail = w.klog.head then some ([], w, false)
  else
    let entry := w.klog.buffer (w.klog.tail % klogBufMax)
    if entry.ready = 0 then some ([], w, false)
    else
      let w := { w with klog := w.klog.setReady w.klog.tail 0 }
      (w.spinLockIrqsave .klogWrite).map fun (rflags, w) =>
        let w := { w with klog := { w.klog with tail := (w.klog.tail + 1) % 2 ^ 64 } }
        ([entry.c], w.spinLockIrqrestore .klogWrite rflags, true)

def flushRound (w : World) : Option (List UInt8 × World × Bool) :=
  ({ w with klog := w.klog.skip.2 }.flushTake).map fun (out, w', more) => (w.klog.skip.1 ++ out, w', more)

def flushLoop : ℕ → World → Option (List UInt8 × World)
  | 0, _ => none
  | fuel + 1, w =>
    w.flushRound.bind fun (out, w, more) =>
      if more then (flushLoop fuel w).map fun (rest, w) => (out ++ rest, w) else some (out, w)

def klogFlushToScreen (w : World) : Option (List UInt8 × World) :=
  if w.klogBuffer = false then some ([], w)
  else
    (w.spinLockIrqsave .klogRead).bind fun (rflags, w) =>
      (flushLoop (2 ^ 64) w).map fun (out, w) => (out, w.spinLockIrqrestore .klogRead rflags)

/-- A thread that has to wait clears the lock by hand. -/
def mutexLock (others : World → World) (w : World) (m : ℕ) : Option World :=
  (w.spinLockIrqsave (.mutex m)).map fun (rflags, w) =>
    match w.kernel.lockSection m with
    | (true, k) => { w with kernel := k }.spinLockIrqrestore (.mutex m) rflags
    | (false, k) => ({ w with kernel := k }.clearLock (.mutex m)).yield others

/-- Both exits restore the flags. -/
def mutexUnlock (w : World) (m : ℕ) : Option World :=
  (w.spinLockIrqsave (.mutex m)).map fun (rflags, w) =>
    { w with kernel := w.kernel.mutexUnlock m }.spinLockIrqrestore (.mutex m) rflags

def destroyThread (w : World) (t : ℕ) : Option World :=
  if t = 0 then some w
  else
    let bottom := (w.kernel.threads t).kernelStack.bottom
    (if bottom = 0 then some w else w.kfree bottom).bind fun w =>
      (w.kernel.destroyThread t).bind fun k => { w with kernel := k }.kfree t

/-- The loop of `cleanup_dead_threads` from `t` on. -/
def cleanupFrom : ℕ → ℕ → World → Option World
  | 0, _, _ => none
  | fuel + 1, t, w =>
    if t = 0 then some w
    else
      let nextDead := (w.kernel.threads t).next
      (w.destroyThread t).bind (cleanupFrom fuel nextDead)

def cleanupDeadThreads (w : World) : Option World :=
  let w := w.cli
  let (t, k) := w.kernel.takeDead
  let w := { w with kernel := k }.sti
  cleanupFrom (2 ^ 64) t w

end World

/-! ## Nested calls -/

inductive IrqCall
  | kmalloc (size : ℕ)
  | kfree (ptr : ℕ)
  | pmmAllocPage
  | klogWrite (s : List UInt8)
  | klogFlushToScreen
  | mutexLock (m : ℕ)
  | mutexUnlock (m : ℕ)
  | cleanupDeadThreads

/-- The state after the call, `none` when it does not return. -/
def IrqCall.run (others : World → World) (w : World) : IrqCall → Option World
  | kmalloc size => (w.kmalloc size).map Prod.snd
  | kfree ptr => w.kfree ptr
  | pmmAllocPage => w.pmmAllocPage.map Prod.snd
  | klogWrite s => w.klogWrite s
  | klogFlushToScreen => w.klogFlushToScreen.map Prod.snd
  | mutexLock m => w.mutexLock others m
  | mutexUnlock m => w.mutexUnlock m
  | cleanupDeadThreads => w.cleanupDeadThreads

/-- Code that makes such calls, under spin locks or not. What it does next may depend on the state. -/
inductive IrqCode
  | call (c : IrqCall)
  | other (f : World → World)
  | andThen (a : IrqCode) (b : World → IrqCode)
  | locked (l : SpinLock) (a : IrqCode)

/-- A call that returned. -/
structure IrqReturn where
  call : IrqCall
  before : World
  after : World

/-- The calls that returned, and the state. Everything but the calls and the locks leaves the flags alone. -/
def IrqCode.run (others : World → World) : IrqCode → World → Option (List IrqReturn × World)
  | call c, w => (c.run others w).map fun w' => ([⟨c, w, w'⟩], w')
  | other f, w => some ([], { f w with interrupts := w.interrupts, locks := w.locks })
  | andThen a b, w => (a.run others w).bind fun (tr, w) => ((b w).run others w).map fun (tr', w) => (tr ++ tr', w)
  | locked l a, w =>
    (w.spinLockIrqsave l).bind fun (rflags, w) =>
      (a.run others w).map fun (tr, w) => (tr, w.spinLockIrqrestore l rflags)

/-- The call finds the state in which it keeps the flags: a mutex that is free or the interrupts off, and for
`cleanup_dead_threads` the interrupts on. -/
def IrqCall.Restores (w : World) : IrqCall → Prop
  | mutexLock m => (w.kernel.mutexes m).locked = 0 ∨ w.interrupts = false
  | cleanupDeadThreads => w.interrupts = true
  | _ => True

/-! ## One call -/

namespace World
variable {w w' w₁ w₂ : World} {l : SpinLock} {r : Bool} {others : World → World}

theorem SameFlags.refl (w : World) : SameFlags w w := ⟨rfl, rfl⟩

theorem SameFlags.trans (h : SameFlags w w₁) (h' : SameFlags w₁ w₂) : SameFlags w w₂ :=
  ⟨h'.interrupts.trans h.interrupts, h'.locks.trans h.locks⟩

/-- A lock that is taken was free. -/
theorem spinLockIrqsave_spec (h : w.spinLockIrqsave l = some (r, w₁)) :
    w.locks l = false ∧ r = w.interrupts ∧ w₁ = { w.cli with locks := Function.update w.locks l true } := by
  unfold spinLockIrqsave at h
  dsimp only at h
  split_ifs at h with hl
  obtain ⟨rfl, rfl⟩ := Prod.mk.inj (Option.some.inj h)
  exact ⟨Bool.eq_false_of_not_eq_true hl, rfl, rfl⟩

/-- Between taking a lock and giving it back only that lock is held in addition. -/
theorem SameFlags.bracket (h : w.spinLockIrqsave l = some (r, w₁)) (w₂ : World) (h₂ : w₂.locks = w₁.locks) :
    SameFlags w (w₂.spinLockIrqrestore l r) := by
  obtain ⟨hfree, rfl, rfl⟩ := spinLockIrqsave_spec h
  refine ⟨rfl, ?_⟩
  change Function.update w₂.locks l false = w.locks
  rw [h₂, Function.update_idem, ← hfree, Function.update_eq_self]

theorem SameFlags.heapBracket (h : w.lockHeap = some (r, w₁)) (hk : w₂.kernel = w₁.kernel) (h₂ : SameFlags w₁ w₂) :
    SameFlags w (w₂.unlockHeap r) := by
  unfold lockHeap at h
  unfold unlockHeap
  by_cases hs : w.kernel.scheduler = true
  · rw [if_pos hs] at h
    have hkernel : w₁.kernel = w.kernel := by
      rw [(spinLockIrqsave_spec h).2.2]
      rfl
    rw [hk, hkernel, if_pos hs]
    exact .bracket h _ h₂.locks
  · rw [if_neg hs] at h
    obtain ⟨-, rfl⟩ := Prod.mk.inj (Option.some.inj h)
    rw [hk, if_neg hs]
    exact h₂

theorem kmalloc_same {size p : ℕ} (h : w.kmalloc size = some (p, w')) : SameFlags w w' := by
  unfold kmalloc at h
  by_cases h0 : size = 0
  · rw [if_pos h0] at h
    obtain ⟨-, rfl⟩ := Prod.mk.inj (Option.some.inj h)
    exact .refl w
  · rw [if_neg h0] at h
    obtain ⟨⟨r, w₁⟩, hlock, hrest⟩ := Option.bind_eq_some_iff.mp h
    have hexit : ∀ h' : Heap, SameFlags w ({ w₁ with heap := h' }.unlockHeap r) := fun h' =>
      .heapBracket hlock rfl ⟨rfl, rfl⟩
    dsimp only at hrest
    by_cases hbig : 2048 < size
    · rw [if_pos hbig] at hrest
      obtain ⟨order, -, heq⟩ := Option.map_eq_some_iff.mp hrest
      obtain ⟨-, rfl⟩ := Prod.mk.inj heq
      exact hexit _
    · rw [if_neg hbig] at hrest
      split at hrest
      · obtain ⟨-, rfl⟩ := Prod.mk.inj (Option.some.inj hrest)
        exact hexit _
      · obtain ⟨-, rfl⟩ := Prod.mk.inj (Option.some.inj hrest)
        exact hexit w₁.heap

theorem kfree_same {ptr : ℕ} (h : w.kfree ptr = some w') : SameFlags w w' := by
  unfold kfree at h
  split_ifs at h
  · obtain rfl := Option.some.inj h
    exact .refl w
  · obtain ⟨⟨r, w₁⟩, hlock, rfl⟩ := Option.map_eq_some_iff.mp h
    exact .heapBracket hlock rfl ⟨rfl, rfl⟩

theorem lockHeap_heap (h : w.lockHeap = some (r, w₁)) : w₁.heap = w.heap := by
  unfold lockHeap at h
  split_ifs at h
  · rw [(spinLockIrqsave_spec h).2.2]
    rfl
  · obtain ⟨-, rfl⟩ := Prod.mk.inj (Option.some.inj h)
    rfl

theorem unlockHeap_heap (w : World) (r : Bool) : (w.unlockHeap r).heap = w.heap := by
  unfold unlockHeap
  split_ifs <;> rfl

/-- Between the locks `kmalloc` is the function on the heap. -/
theorem kmalloc_heap {size p : ℕ} (h : w.kmalloc size = some (p, w')) : w.heap.kmalloc size = some (p, w'.heap) := by
  unfold kmalloc at h
  unfold Heap.kmalloc
  by_cases h0 : size = 0
  · rw [if_pos h0] at h ⊢
    obtain ⟨rfl, rfl⟩ := Prod.mk.inj (Option.some.inj h)
    rfl
  rw [if_neg h0] at h ⊢
  obtain ⟨⟨r, w₁⟩, hlock, hrest⟩ := Option.bind_eq_some_iff.mp h
  rw [← lockHeap_heap hlock]
  dsimp only at hrest
  by_cases hbig : 2048 < size
  · rw [if_pos hbig] at hrest ⊢
    obtain ⟨order, horder, heq⟩ := Option.map_eq_some_iff.mp hrest
    obtain ⟨rfl, rfl⟩ := Prod.mk.inj heq
    rw [horder, unlockHeap_heap]
    rfl
  rw [if_neg hbig] at hrest ⊢
  cases hfind : (List.range numCaches).find? (fun i => decide (size ≤ (w₁.heap.kernelCaches i).objSize)) with
  | none =>
    rw [hfind] at hrest
    obtain ⟨rfl, rfl⟩ := Prod.mk.inj (Option.some.inj hrest)
    rw [unlockHeap_heap]
  | some i =>
    rw [hfind] at hrest
    obtain ⟨rfl, rfl⟩ := Prod.mk.inj (Option.some.inj hrest)
    rw [unlockHeap_heap]

theorem kfree_heap {ptr : ℕ} (h : w.kfree ptr = some w') : w'.heap = w.heap.kfree ptr := by
  unfold kfree at h
  unfold Heap.kfree
  by_cases h0 : ptr = 0
  · rw [if_pos h0] at h ⊢
    obtain rfl := Option.some.inj h
    rfl
  rw [if_neg h0] at h ⊢
  obtain ⟨⟨r, w₁⟩, hlock, rfl⟩ := Option.map_eq_some_iff.mp h
  dsimp only
  rw [unlockHeap_heap, lockHeap_heap hlock]

theorem pmmAllocPage_same {f : ℕ} (h : w.pmmAllocPage = some (f, w')) : SameFlags w w' := by
  obtain ⟨⟨r, w₁⟩, hlock, hscan⟩ := Option.map_eq_some_iff.mp h
  dsimp only at hscan
  have hfrom : ∀ n i, SameFlags w (w₁.pmmAllocPageFrom r n i).2 := by
    intro n
    induction n with
    | zero => exact fun i => .bracket hlock _ rfl
    | succ n ih =>
      intro i
      unfold pmmAllocPageFrom
      split_ifs
      · exact .bracket hlock _ rfl
      · exact ih (i + 1)
  have hend := hfrom w₁.pmm.totalPages 0
  rwa [hscan] at hend

theorem klogWrite_same {s : List UInt8} (h : w.klogWrite s = some w') : SameFlags w w' := by
  unfold klogWrite at h
  split_ifs at h
  · obtain rfl := Option.some.inj h
    exact .refl w
  · obtain ⟨⟨r, w₁⟩, hlock, rfl⟩ := Option.map_eq_some_iff.mp h
    exact .trans (.bracket hlock { w₁ with klog := (w₁.klog.claim _).2 } rfl) ⟨rfl, rfl⟩

theorem flushTake_same {out : List UInt8} {more : Bool} (h : w.flushTake = some (out, w', more)) : SameFlags w w' := by
  unfold flushTake at h
  dsimp only at h
  by_cases hempty : w.klog.tail = w.klog.head
  · rw [if_pos hempty] at h
    obtain ⟨-, hw⟩ := Prod.mk.inj (Option.some.inj h)
    obtain ⟨rfl, -⟩ := Prod.mk.inj hw
    exact .refl w
  rw [if_neg hempty] at h
  by_cases hready : (w.klog.buffer (w.klog.tail % klogBufMax)).ready = 0
  · rw [if_pos hready] at h
    obtain ⟨-, hw⟩ := Prod.mk.inj (Option.some.inj h)
    obtain ⟨rfl, -⟩ := Prod.mk.inj hw
    exact .refl w
  rw [if_neg hready] at h
  obtain ⟨⟨r, w₁⟩, hlock, heq⟩ := Option.map_eq_some_iff.mp h
  obtain ⟨-, hw⟩ := Prod.mk.inj heq
  obtain ⟨rfl, -⟩ := Prod.mk.inj hw
  have hround := SameFlags.bracket hlock
    { w₁ with klog := { w₁.klog with tail := (w₁.klog.tail + 1) % 2 ^ 64 } } rfl
  exact ⟨hround.interrupts, hround.locks⟩

theorem flushRound_same {out : List UInt8} {more : Bool} (h : w.flushRound = some (out, w', more)) : SameFlags w w' := by
  obtain ⟨⟨out₁, w₁, more₁⟩, htake, heq⟩ := Option.map_eq_some_iff.mp h
  obtain ⟨-, hw⟩ := Prod.mk.inj heq
  obtain ⟨rfl, -⟩ := Prod.mk.inj hw
  have hsame := flushTake_same htake
  exact ⟨hsame.interrupts, hsame.locks⟩

theorem flushLoop_same {out : List UInt8} {fuel : ℕ} (h : flushLoop fuel w = some (out, w')) : SameFlags w w' := by
  induction fuel generalizing w out with
  | zero => cases h
  | succ fuel ih =>
    obtain ⟨⟨out₁, w₁, more⟩, hround, hrest⟩ := Option.bind_eq_some_iff.mp h
    have hsame := flushRound_same hround
    cases more with
    | true =>
      obtain ⟨⟨out₂, w₂⟩, hloop, heq⟩ := Option.map_eq_some_iff.mp hrest
      obtain ⟨-, rfl⟩ := Prod.mk.inj heq
      exact hsame.trans (ih hloop)
    | false =>
      obtain ⟨-, rfl⟩ := Prod.mk.inj (Option.some.inj hrest)
      exact hsame

theorem klogFlushToScreen_same {out : List UInt8} (h : w.klogFlushToScreen = some (out, w')) : SameFlags w w' := by
  unfold klogFlushToScreen at h
  split_ifs at h
  · obtain ⟨-, rfl⟩ := Prod.mk.inj (Option.some.inj h)
    exact .refl w
  · obtain ⟨⟨r, w₁⟩, hlock, hrest⟩ := Option.bind_eq_some_iff.mp h
    obtain ⟨⟨out', w₂⟩, hloop, heq⟩ := Option.map_eq_some_iff.mp hrest
    obtain ⟨-, rfl⟩ := Prod.mk.inj heq
    exact .bracket hlock _ (flushLoop_same hloop).locks

theorem mutexUnlock_same {m : ℕ} (h : w.mutexUnlock m = some w') : SameFlags w w' := by
  obtain ⟨⟨r, w₁⟩, hlock, rfl⟩ := Option.map_eq_some_iff.mp h
  exact .bracket hlock _ rfl

/-- A thread that waited comes back with the interrupts off. -/
theorem mutexLock_same_iff {m : ℕ} (h : w.mutexLock others m = some w') :
    SameFlags w w' ↔ (w.kernel.mutexes m).locked = 0 ∨ w.interrupts = false := by
  obtain ⟨⟨r, w₁⟩, hlock, rfl⟩ := Option.map_eq_some_iff.mp h
  obtain ⟨-, -, hw₁⟩ := spinLockIrqsave_spec hlock
  have hkernel : w₁.kernel = w.kernel := by
    rw [hw₁]
    rfl
  have hoff : w₁.interrupts = false := by
    rw [hw₁]
    rfl
  dsimp only
  rw [hkernel, Kernel.lockSection]
  by_cases hfree : (w.kernel.mutexes m).locked = 0
  · rw [if_pos hfree]
    exact ⟨fun _ => .inl hfree, fun _ => .bracket hlock _ rfl⟩
  · rw [if_neg hfree]
    have hclear := SameFlags.bracket hlock { w₁ with kernel := w.kernel.enqueueBlocked m } rfl
    constructor
    · exact fun hsame => .inr (hsame.interrupts.symm.trans hoff)
    · exact fun hcond => ⟨hoff.trans (hcond.resolve_left hfree).symm, hclear.locks⟩

theorem destroyThread_same {t : ℕ} (h : w.destroyThread t = some w') : SameFlags w w' := by
  unfold destroyThread at h
  split_ifs at h
  · obtain rfl := Option.some.inj h
    exact .refl w
  · obtain ⟨w₁, hstack, hrest⟩ := Option.bind_eq_some_iff.mp h
    obtain ⟨k, -, hrecord⟩ := Option.bind_eq_some_iff.mp hrest
    have hfirst : SameFlags w w₁ := by
      split_ifs at hstack
      · obtain rfl := Option.some.inj hstack
        exact .refl w
      · exact kfree_same hstack
    have hlast := kfree_same hrecord
    exact .trans hfirst ⟨hlast.interrupts, hlast.locks⟩

theorem cleanupFrom_same {fuel t : ℕ} (h : w.cleanupFrom fuel t = some w') : SameFlags w w' := by
  induction fuel generalizing w t with
  | zero => cases h
  | succ fuel ih =>
    unfold cleanupFrom at h
    split_ifs at h
    · obtain rfl := Option.some.inj h
      exact .refl w
    · obtain ⟨w₁, hdestroy, hrest⟩ := Option.bind_eq_some_iff.mp h
      exact .trans (destroyThread_same hdestroy) (ih hrest)

/-- The interrupts are on at the end. -/
theorem cleanupDeadThreads_same_iff (h : w.cleanupDeadThreads = some w') : SameFlags w w' ↔ w.interrupts = true := by
  have hloop := cleanupFrom_same h
  constructor
  · exact fun hsame => hsame.interrupts.symm.trans hloop.interrupts
  · exact fun hon => ⟨hloop.interrupts.trans hon.symm, hloop.locks⟩

end World

/-! ## Every nesting -/

section Nesting
variable {others : World → World} {w w' : World} {code : IrqCode} {tr : List IrqReturn}
open World

theorem IrqCall.same_iff {c : IrqCall} (h : c.run others w = some w') : SameFlags w w' ↔ c.Restores w := by
  cases c with
  | kmalloc size =>
    obtain ⟨⟨p, w₁⟩, hcall, rfl⟩ := Option.map_eq_some_iff.mp h
    exact iff_of_true (kmalloc_same hcall) trivial
  | kfree ptr => exact iff_of_true (kfree_same h) trivial
  | pmmAllocPage =>
    obtain ⟨⟨f, w₁⟩, hcall, rfl⟩ := Option.map_eq_some_iff.mp h
    exact iff_of_true (pmmAllocPage_same hcall) trivial
  | klogWrite s => exact iff_of_true (klogWrite_same h) trivial
  | klogFlushToScreen =>
    obtain ⟨⟨out, w₁⟩, hcall, rfl⟩ := Option.map_eq_some_iff.mp h
    exact iff_of_true (klogFlushToScreen_same hcall) trivial
  | mutexLock m => exact mutexLock_same_iff h
  | mutexUnlock m => exact iff_of_true (mutexUnlock_same h) trivial
  | cleanupDeadThreads => exact cleanupDeadThreads_same_iff h

/-- The trace has calls that returned, and if all of them keep the flags the code does. -/
theorem IrqCode.run_spec (h : code.run others w = some (tr, w')) :
    (∀ x ∈ tr, x.call.run others x.before = some x.after) ∧
      ((∀ x ∈ tr, SameFlags x.before x.after) → SameFlags w w') := by
  induction code generalizing w w' tr with
  | call c =>
    obtain ⟨w₁, hcall, heq⟩ := Option.map_eq_some_iff.mp h
    obtain ⟨rfl, rfl⟩ := Prod.mk.inj heq
    exact ⟨List.forall_mem_singleton.mpr hcall, fun hall => hall _ (List.mem_singleton_self _)⟩
  | other f =>
    obtain ⟨rfl, rfl⟩ := Prod.mk.inj (Option.some.inj h)
    exact ⟨fun x hx => absurd hx List.not_mem_nil, fun _ => ⟨rfl, rfl⟩⟩
  | andThen a b iha ihb =>
    obtain ⟨⟨tr₁, w₁⟩, ha, hrest⟩ := Option.bind_eq_some_iff.mp h
    obtain ⟨⟨tr₂, w₂⟩, hb, heq⟩ := Option.map_eq_some_iff.mp hrest
    obtain ⟨rfl, rfl⟩ := Prod.mk.inj heq
    obtain ⟨hcalls₁, hsame₁⟩ := iha ha
    obtain ⟨hcalls₂, hsame₂⟩ := ihb w₁ hb
    refine ⟨List.forall_mem_append.mpr ⟨hcalls₁, hcalls₂⟩, fun hall => ?_⟩
    rw [List.forall_mem_append] at hall
    exact .trans (hsame₁ hall.1) (hsame₂ hall.2)
  | locked l a iha =>
    obtain ⟨⟨r, w₁⟩, hlock, hrest⟩ := Option.bind_eq_some_iff.mp h
    obtain ⟨⟨tr₁, w₂⟩, ha, heq⟩ := Option.map_eq_some_iff.mp hrest
    obtain ⟨rfl, rfl⟩ := Prod.mk.inj heq
    obtain ⟨hcalls, hsame⟩ := iha ha
    exact ⟨hcalls, fun hall => .bracket hlock _ (hsame hall).locks⟩

/-- In every nesting all calls keep the interrupt flag and the locks exactly when no `mutex_lock` has to wait with the
interrupts on and no `cleanup_dead_threads` is called with the interrupts off. The code around them keeps the flags
then, too. -/
theorem calls_keep_flags_iff (h : code.run others w = some (tr, w')) :
    ((∀ x ∈ tr, SameFlags x.before x.after) ↔ ∀ x ∈ tr, x.call.Restores x.before) ∧
      ((∀ x ∈ tr, x.call.Restores x.before) → SameFlags w w') := by
  obtain ⟨hcalls, hsame⟩ := IrqCode.run_spec h
  have hiff : (∀ x ∈ tr, SameFlags x.before x.after) ↔ ∀ x ∈ tr, x.call.Restores x.before :=
    forall₂_congr fun x hx => IrqCall.same_iff (hcalls x hx)
  exact ⟨hiff, fun hall => hsame (hiff.mpr hall)⟩

/-- The main thread at 0x100 runs, with the interrupts on and no lock held. -/
def freeWorld : World :=
  { interrupts := true, locks := fun _ => false
    heap := ⟨fun _ => 0, fun _ => 0, fun _ => ⟨0, false, false⟩, fun _ => ⟨0, 0, 0⟩⟩
    pmm := ⟨fun _ => 0, 0⟩, kernel := Kernel.beforeBoot.startMain 0x100
    klogBuffer := false, klog := ⟨fun _ => ⟨0, 0⟩, 0, 0⟩ }

/-- A mutex is locked and unlocked. -/
def lockUnlock (m : ℕ) : IrqCode := .andThen (.call (.mutexLock m)) fun _ => .call (.mutexUnlock m)

theorem calls_keep_flags_mutex : ∃ tr w', (lockUnlock 0x10).run id freeWorld = some (tr, w') ∧ SameFlags freeWorld w' := by
  obtain ⟨tr, w', hrun⟩ : ∃ tr w', (lockUnlock 0x10).run id freeWorld = some (tr, w') := ⟨_, _, rfl⟩
  refine ⟨tr, w', hrun, (calls_keep_flags_iff hrun).2 ?_⟩
  obtain ⟨rfl, rfl⟩ := Prod.mk.inj (Option.some.inj hrun)
  exact List.forall_mem_cons.mpr ⟨.inl rfl, List.forall_mem_singleton.mpr trivial⟩

/-- The mutex at 0x10 is locked. -/
def lockedWorld : World :=
  { freeWorld with kernel := freeWorld.kernel.setMutex 0x10 fun x => { x with locked := 1 } }

theorem mutexLock_leaves_interrupts_off :
    lockedWorld.interrupts = true ∧ ∃ w', lockedWorld.mutexLock id 0x10 = some w' ∧ w'.interrupts = false :=
  ⟨rfl, _, rfl, rfl⟩

end Nesting
end PointerOS
