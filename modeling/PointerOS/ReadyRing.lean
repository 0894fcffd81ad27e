import PointerOS.CircularList
import PointerOS.Scheduler

/-!
# The ready ring

What `enqueue_thread`, `dequeue_thread` and `scheduler_handler` do to a ring of threads of which
the first one has the processor and the others are ready.
-/
namespace PointerOS
open LinkedList

def nextOf (T : ℕ → Thread) (t : ℕ) : ℕ := (T t).next

def prevOf (T : ℕ → Thread) (t : ℕ) : ℕ := (T t).prev

/-- A record without its links in the ring. -/
def Thread.sansLinks (r : Thread) : Thread := { r with prev := 0, next := 0 }

/-- A record without what `scheduler_handler` writes. -/
def Thread.static (r : Thread) : Thread := { r with rsp := 0, state := .ready, prev := 0, next := 0 }

/-- Only the links of the given threads have changed. -/
structure Relinked (T T' : ℕ → Thread) (l : List ℕ) : Prop where
  frame : ∀ u, u ∉ l → T' u = T u
  sans : ∀ u, (T' u).sansLinks = (T u).sansLinks

namespace Relinked
variable {T T' : ℕ → Thread} {l : List ℕ}

theorem state_eq (h : Relinked T T' l) (u : ℕ) : (T' u).state = (T u).state :=
  congrArg (·.state) (h.sans u)

theorem rsp_eq (h : Relinked T T' l) (u : ℕ) : (T' u).rsp = (T u).rsp :=
  congrArg (·.rsp) (h.sans u)

theorem static_eq (h : Relinked T T' l) (u : ℕ) : (T' u).static = (T u).static := by
  change (T' u).sansLinks.static = (T u).sansLinks.static
  rw [h.sans u]

end Relinked

namespace Kernel
variable {k : Kernel} {t a b c u : ℕ} {l rest : List ℕ}

theorem setThread_threads (k : Kernel) (t : ℕ) (f : Thread → Thread) (u : ℕ) :
    (k.setThread t f).threads u = if u = t then f (k.threads t) else k.threads u := by
  simp only [setThread, Function.update_apply]

theorem setThread_next (k : Kernel) (t n : ℕ) :
    (k.setThread t fun r => { r with next := n }) =
      { k with threads := fun u => { k.threads u with next := if u = t then n else (k.threads u).next } } := by
  unfold setThread
  congr 1
  funext u
  rw [Function.update_apply]
  split_ifs with hu
  · rw [hu]
  · rfl

theorem setThread_prev (k : Kernel) (t p : ℕ) :
    (k.setThread t fun r => { r with prev := p }) =
      { k with threads := fun u => { k.threads u with prev := if u = t then p else (k.threads u).prev } } := by
  unfold setThread
  congr 1
  funext u
  rw [Function.update_apply]
  split_ifs with hu
  · rw [hu]
  · rfl

theorem setThread_links (k : Kernel) (t n p : ℕ) :
    (k.setThread t fun r => { r with next := n, prev := p }) =
      { k with threads := fun u =>
          { k.threads u with
            next := if u = t then n else (k.threads u).next
            prev := if u = t then p else (k.threads u).prev } } := by
  unfold setThread
  congr 1
  funext u
  rw [Function.update_apply]
  split_ifs with hu
  · rw [hu]
  · rfl

/-- The threads after `enqueue_thread` on a ring that is not empty. -/
def enqueueLinks (T : ℕ → Thread) (head t : ℕ) : ℕ → Thread :=
  fun u =>
    { T u with
      next := if u = t then head else if u = (T head).prev then t else (T u).next
      prev := if u = head then t else if u = t then (T head).prev else (T u).prev }

theorem enqueueThread_eq (h0 : k.readyListHead ≠ 0) :
    k.enqueueThread t = { k with threads := enqueueLinks k.threads k.readyListHead t } := by
  simp only [enqueueThread, if_neg h0, setThread_next, setThread_prev]
  rw [setThread_links]
  rfl

/-- The new thread is the last one of the ring. -/
theorem enqueueLinks_ring {T : ℕ → Thread} (h : IsRing (nextOf T) (prevOf T) (a :: l)) (ht : t ∉ a :: l) :
    IsRing (nextOf (enqueueLinks T a t)) (prevOf (enqueueLinks T a t)) (a :: l ++ [t]) := by
  have hta : t ≠ a := fun he => ht (he ▸ List.mem_cons_self)
  refine h.append ht ?_ ?_ (fun b hb => ?_) fun b hb => ?_
  · simp only [nextOf, enqueueLinks, if_pos]
  · simp only [prevOf, enqueueLinks, if_neg hta, if_pos]
  · have hbt : b ≠ t := fun he => ht (he ▸ hb)
    simp only [nextOf, prevOf, enqueueLinks, if_neg hbt]
    rfl
  · have hbt : b ≠ t := fun he => ht (he ▸ hb)
    simp only [prevOf, enqueueLinks, if_neg hbt]

theorem enqueueLinks_relinked {T : ℕ → Thread} (h : IsRing (nextOf T) (prevOf T) (a :: l)) :
    Relinked T (enqueueLinks T a t) (a :: l ++ [t]) where
  frame := by
    intro u hu
    simp only [List.cons_append, List.mem_cons, List.mem_append, List.not_mem_nil, or_false, not_or] at hu
    obtain ⟨hua, hul, hut⟩ := hu
    have hup : u ≠ (T a).prev := by
      intro he
      have hmem := (h.next_mem List.mem_cons_self).2
      rcases List.mem_cons.mp (show (T a).prev ∈ a :: l from hmem) with hp | hp
      · exact hua (he.trans hp)
      · exact hul (he ▸ hp)
    simp only [enqueueLinks, if_neg hua, if_neg hut, if_neg hup]
  sans := fun _ => rfl

/-- The threads after `dequeue_thread` on a ring of at least two. -/
def dequeueLinks (T : ℕ → Thread) (t : ℕ) : ℕ → Thread :=
  fun u =>
    { T u with
      next := if u = t then 0 else if u = (T t).prev then (T t).next else (T u).next
      prev := if u = t then 0 else if u = (T t).next then (T t).prev else (T u).prev }

theorem dequeueThread_eq (hn : (k.threads t).next ≠ t) (hp : (k.threads t).prev ≠ t) :
    k.dequeueThread t =
      { k with
        threads := dequeueLinks k.threads t
        readyListHead := if k.readyListHead = t then (k.threads t).next else k.readyListHead } := by
  simp only [dequeueThread, if_neg hn, setThread_next, setThread_prev, setThread_links, if_neg (Ne.symm hn),
    if_neg (Ne.symm hp)]
  split_ifs <;> rfl

/-- The thread taken out was the first one of the ring. -/
theorem dequeueLinks_ring {T : ℕ → Thread} (h : IsRing (nextOf T) (prevOf T) (t :: b :: l)) :
    IsRing (nextOf (dequeueLinks T t)) (prevOf (dequeueLinks T t)) (b :: l) := by
  have ht := (List.nodup_cons.mp h.nodup).1
  refine h.removeFirst (fun y hy => ?_) fun y hy => ?_
  all_goals
    have hyt : y ≠ t := fun he => ht (he ▸ hy)
    simp only [nextOf, prevOf, dequeueLinks, if_neg hyt]
    rfl

theorem dequeueLinks_relinked {T : ℕ → Thread} (h : IsRing (nextOf T) (prevOf T) (t :: l)) :
    Relinked T (dequeueLinks T t) (t :: l) where
  frame := by
    intro u hu
    have hmem := h.next_mem List.mem_cons_self
    have hut : u ≠ t := fun he => hu (he ▸ List.mem_cons_self)
    have hup : u ≠ (T t).prev := fun he => hu (he ▸ hmem.2)
    have hun : u ≠ (T t).next := fun he => hu (he ▸ hmem.1)
    simp only [dequeueLinks, if_neg hut, if_neg hup, if_neg hun]
  sans := fun _ => rfl

/-! ## The fields that a switch leaves alone -/

section Fields
variable (k : Kernel) (old next rsp : ℕ)

theorem dequeueThread_fields : (k.dequeueThread old).mutexes = k.mutexes ∧
    (k.dequeueThread old).deadListHead = k.deadListHead ∧
    (k.dequeueThread old).currentThread = k.currentThread := by
  unfold dequeueThread
  dsimp only
  split_ifs <;> exact ⟨rfl, rfl, rfl⟩

theorem putAway_mutexes : (k.putAway old rsp).mutexes = k.mutexes := by
  unfold putAway
  cases (k.threads old).state with
  | dead => exact (dequeueThread_fields ..).1
  | blocked => exact (dequeueThread_fields ..).1
  | ready => rfl
  | running => rfl

theorem switchProcess_fields : (k.switchProcess old next).threads = k.threads ∧
    (k.switchProcess old next).mutexes = k.mutexes ∧
    (k.switchProcess old next).deadListHead = k.deadListHead ∧
    (k.switchProcess old next).readyListHead = k.readyListHead ∧
    (k.switchProcess old next).currentThread = k.currentThread := by
  unfold switchProcess
  dsimp only
  split_ifs <;> exact ⟨rfl, rfl, rfl, rfl, rfl⟩

@[simp] theorem dispatch_mutexes : (k.dispatch old next).mutexes = k.mutexes :=
  (switchProcess_fields ..).2.1

@[simp] theorem dispatch_deadListHead : (k.dispatch old next).deadListHead = k.deadListHead :=
  (switchProcess_fields ..).2.2.1

@[simp] theorem dispatch_readyListHead : (k.dispatch old next).readyListHead = k.readyListHead :=
  (switchProcess_fields ..).2.2.2.1

@[simp] theorem dispatch_currentThread : (k.dispatch old next).currentThread = next :=
  (switchProcess_fields ..).2.2.2.2

theorem dispatch_threads (t : ℕ) : (k.dispatch old next).threads t =
    if t = next then { k.threads next with state := .running } else k.threads t := by
  have h := congrFun (switchProcess_fields { k.setThread next fun r => { r with state := .running } with
    currentThread := next } old next).1 t
  exact h.trans (k.setThread_threads next (fun r => { r with state := .running }) t)

end Fields

/-! ## The invariant of the ring -/

/-- The ring from the current thread on; all other threads in it are ready. -/
structure ReadyRing (k : Kernel) (c : ℕ) (rest : List ℕ) : Prop where
  ring : IsRing (nextOf k.threads) (prevOf k.threads) (c :: rest)
  current : k.currentThread = c
  head : k.readyListHead ∈ c :: rest
  null : 0 ∉ c :: rest
  ready : ∀ t ∈ rest, (k.threads t).state = .ready

namespace ReadyRing

theorem head_ne (h : ReadyRing k c rest) : k.readyListHead ≠ 0 := fun he => h.null (he ▸ h.head)

theorem noOther_iff (h : ReadyRing k c rest) : k.NoOther ↔ rest = [] := by
  refine Iff.trans ?_ (h.ring.next_eq_self_iff h.head)
  exact or_iff_right h.head_ne

theorem notMem (h : ReadyRing k c rest) : c ∉ rest := (List.nodup_cons.mp h.ring.nodup).1

/-- The ring does not depend on the other fields. -/
theorem congr {k' : Kernel} (h : ReadyRing k c rest) (hc : k'.currentThread = k.currentThread)
    (hh : k'.readyListHead = k.readyListHead)
    (hT : ∀ t ∈ c :: rest, nextOf k'.threads t = nextOf k.threads t ∧ prevOf k'.threads t = prevOf k.threads t)
    (hs : ∀ t ∈ rest, (k'.threads t).state = (k.threads t).state) : ReadyRing k' c rest where
  ring := h.ring.congr (fun t ht => (hT t ht).1) fun t ht => (hT t ht).2
  current := hc.trans h.current
  head := hh ▸ h.head
  null := h.null
  ready := fun t ht => (hs t ht).trans (h.ready t ht)

/-- A new thread goes in front of the head of the ring, or to the end if that is the current one. -/
theorem enqueue (h : ReadyRing k c rest) (ht : t ∉ c :: rest) (h0 : t ≠ 0)
    (hs : (k.threads t).state = .ready) :
    ∃ X Y, rest = X ++ Y ∧ k.readyListHead = Y.headD c ∧
      k.enqueueThread t = { k with threads := enqueueLinks k.threads k.readyListHead t } ∧
      ReadyRing (k.enqueueThread t) c (X ++ t :: Y) ∧
      Relinked k.threads (k.enqueueThread t).threads (t :: c :: rest) := by
  obtain ⟨Z, Y, hZ⟩ := List.append_of_mem h.head
  have hring := h.ring
  rw [hZ] at hring
  have hlinks := enqueueLinks_relinked (t := t) hring.rotate
  have heq := enqueueThread_eq (t := t) h.head_ne
  have hnotin : t ∉ k.readyListHead :: (Y ++ Z) := by
    rw [hZ] at ht
    simp only [List.mem_append, List.mem_cons] at ht ⊢
    tauto
  have hring' := enqueueLinks_ring hring.rotate hnotin
  have hready : ∀ u ∈ t :: rest, ((k.enqueueThread t).threads u).state = .ready := by
    intro u hu
    rw [heq]
    refine (hlinks.state_eq u).trans ?_
    rcases List.mem_cons.mp hu with rfl | hu
    · exact hs
    · exact h.ready u hu
  have hrel : Relinked k.threads (k.enqueueThread t).threads (t :: c :: rest) := by
    rw [heq, hZ]
    refine ⟨fun u hu => hlinks.frame u ?_, hlinks.sans⟩
    simp only [List.cons_append, List.append_eq, List.mem_cons, List.mem_append, List.not_mem_nil] at hu ⊢
    tauto
  have hnull := h.null
  cases Z with
  | nil =>
    obtain ⟨hc, rfl⟩ := List.cons.inj hZ
    refine ⟨rest, [], (List.append_nil _).symm, hc.symm, heq, ?_, hrel⟩
    refine ⟨?_, ?_, ?_, ?_, ?_⟩
    · rw [heq, hc]
      simpa using hring'
    · rw [heq]
      exact h.current
    · rw [heq, ← hc]
      exact List.mem_cons_self
    · simp only [List.mem_cons, List.mem_append, List.not_mem_nil, not_or] at hnull ⊢
      exact ⟨hnull.1, hnull.2, Ne.symm h0, not_false⟩
    · intro u hu
      refine hready u ?_
      simp only [List.mem_cons, List.mem_append, List.not_mem_nil] at hu ⊢
      tauto
  | cons d X =>
    obtain ⟨rfl, rfl⟩ := List.cons.inj hZ
    refine ⟨X, k.readyListHead :: Y, rfl, rfl, heq, ?_, hrel⟩
    refine ⟨?_, ?_, ?_, ?_, ?_⟩
    · rw [heq]
      have hrot : IsRing (nextOf (enqueueLinks k.threads k.readyListHead t))
          (prevOf (enqueueLinks k.threads k.readyListHead t)) ((k.readyListHead :: Y) ++ (c :: X ++ [t])) := by
        simpa using hring'
      simpa using hrot.rotate
    · rw [heq]
      exact h.current
    · rw [heq]
      simp
    · simp only [List.mem_cons, List.mem_append, List.append_eq, not_or] at hnull ⊢
      exact ⟨hnull.1, hnull.2.1, Ne.symm h0, hnull.2.2⟩
    · intro u hu
      refine hready u ?_
      simp only [List.mem_cons, List.mem_append, List.append_eq] at hu ⊢
      tauto

/-- The current thread leaves the ring. -/
theorem dequeue (h : ReadyRing k c (b :: l)) :
    k.dequeueThread c =
      { k with
        threads := dequeueLinks k.threads c
        readyListHead := if k.readyListHead = c then b else k.readyListHead } := by
  obtain ⟨hn, hp⟩ := h.ring.links
  have hne : ∀ t ∈ b :: l, t ≠ c := fun t ht he => h.notMem (he ▸ ht)
  have hnext : (k.threads c).next = b := hn
  have hprev : (k.threads c).prev ≠ c := by
    have hmem : (k.threads c).prev ∈ b :: l := by
      rw [show (k.threads c).prev = _ from hp, List.getLastD_cons]
      exact List.getLastD_mem_cons
    exact hne _ hmem
  rw [dequeueThread_eq (hnext ▸ hne b List.mem_cons_self) hprev, hnext]

end ReadyRing

/-- The main thread is alone in the ring. -/
theorem startMain_ring {main : ℕ} (h0 : main ≠ 0) (hready : k.readyListHead = 0) :
    (k.startMain main).ReadyRing main [] ∧ ((k.startMain main).threads main).state = .running := by
  obtain ⟨k₁, hk₁⟩ : ∃ k₁, k₁ = k.startMain main := ⟨_, rfl⟩
  have hT : (k₁.threads main).state = .running ∧ (k₁.threads main).next = main ∧ (k₁.threads main).prev = main := by
    rw [hk₁]
    simp [startMain, enqueueThread, setThread, hready]
  have hf : k₁.readyListHead = main ∧ k₁.currentThread = main := by
    rw [hk₁]
    simp [startMain, enqueueThread, setThread, hready]
  rw [← hk₁]
  refine ⟨⟨.singleton hT.2.1 hT.2.2, hf.2, ?_, fun hm0 => h0 (List.mem_singleton.mp hm0).symm,
    fun t ht => absurd ht List.not_mem_nil⟩, hT.1⟩
  rw [hf.1]
  exact List.mem_singleton_self main

/-! ## The switch -/

/-- The thread `c` is off the processor, and the ring is `l`. -/
structure PutAway (k k' : Kernel) (rsp c : ℕ) (rest l : List ℕ) : Prop where
  ring : IsRing (nextOf k'.threads) (prevOf k'.threads) l
  head : k'.readyListHead ∈ l
  head_eq : k'.readyListHead = if k.Leaves c ∧ k.readyListHead = c then rest.headD 0 else k.readyListHead
  frame : ∀ t, t ∉ c :: rest → k'.threads t = k.threads t
  left : (k'.threads c).state = if k.Leaves c then (k.threads c).state else .ready
  state : ∀ t, t ≠ c → (k'.threads t).state = (k.threads t).state
  static : ∀ t, (k'.threads t).static = (k.threads t).static
  other : ∀ t, t ≠ c → (k'.threads t).rsp = (k.threads t).rsp
  saved : (k.threads c).state ≠ .dead → (k'.threads c).rsp = rsp
  deadHead : k'.deadListHead = if (k.threads c).state = .dead then c else k.deadListHead
  deadNext : (k.threads c).state = .dead → (k'.threads c).next = k.deadListHead

/-- A thread that can go on stays in the ring. -/
theorem ReadyRing.putAway_stays (h : ReadyRing k c rest) (hs : ¬k.Leaves c) (rsp : ℕ) :
    PutAway k (k.putAway c rsp) rsp c rest (c :: rest) := by
  obtain ⟨hdead, hblocked⟩ := not_or.mp hs
  have heq : k.putAway c rsp =
      { k with threads := fun t => { k.threads t with
          rsp := if t = c then rsp else (k.threads t).rsp
          state := if t = c then .ready else (k.threads t).state } } := by
    have hset : k.putAway c rsp = k.setThread c fun r => { r with rsp := rsp, state := .ready } := by
      unfold putAway
      cases hst : (k.threads c).state with
      | dead => exact absurd hst hdead
      | blocked => exact absurd hst hblocked
      | ready => rfl
      | running => rfl
    rw [hset]
    unfold setThread
    congr 1
    funext t
    rw [Function.update_apply]
    split_ifs with ht
    · rw [ht]
    · rfl
  rw [heq]
  refine ⟨h.ring, h.head, (if_neg fun hl => hs hl.1).symm, fun t ht => ?_, ?_, fun t ht => ?_, fun _ => rfl,
    fun t ht => ?_, fun _ => ?_, ?_, ?_⟩
  · have htc : t ≠ c := fun he => ht (he ▸ List.mem_cons_self)
    simp only [if_neg htc]
  · simp only [if_true, if_neg hs]
  · simp only [if_neg ht]
  · simp only [if_neg ht]
  · simp only [if_true]
  · rw [if_neg hdead]
  · exact fun he => absurd he hdead

/-- A thread that leaves is taken out of the ring, and a dead one is put on the dead list. -/
theorem ReadyRing.putAway_leaves (h : ReadyRing k c (b :: l)) (hs : k.Leaves c) (rsp : ℕ) :
    PutAway k (k.putAway c rsp) rsp c (b :: l) (b :: l) := by
  have hnotin : ∀ t ∈ b :: l, t ≠ c := fun t ht he => h.notMem (he ▸ ht)
  have hhead : (if k.readyListHead = c then b else k.readyListHead) ∈ b :: l := by
    split_ifs with hc
    · exact List.mem_cons_self
    · exact (List.mem_cons.mp h.head).resolve_left hc
  by_cases hd : (k.threads c).state = .dead
  · have hlinks := dequeueLinks_relinked h.ring
    have heq : k.putAway c rsp =
        { k with
          threads := fun t => { dequeueLinks k.threads c t with
            next := if t = c then k.deadListHead else (dequeueLinks k.threads c t).next }
          readyListHead := if k.readyListHead = c then b else k.readyListHead
          deadListHead := c } := by
      simp only [putAway, hd, h.dequeue, setThread_next]
    rw [heq]
    refine ⟨?_, hhead, by simp only [hs, true_and, List.headD_cons], fun t ht => ?_, ?_,
      fun t _ => hlinks.state_eq t, hlinks.static_eq, fun t _ => hlinks.rsp_eq t, fun he => absurd hd he, ?_,
      fun _ => ?_⟩
    · refine (dequeueLinks_ring h.ring).congr (fun t ht => ?_) fun _ _ => rfl
      simp only [nextOf, if_neg (hnotin t ht)]
    · have htc : t ≠ c := fun he => ht (he ▸ List.mem_cons_self)
      simp only [if_neg htc]
      exact hlinks.frame t ht
    · rw [if_pos hs]
      exact hlinks.state_eq c
    · rw [if_pos hd]
    · simp only [if_true]
  · have hb : (k.threads c).state = .blocked := hs.resolve_left hd
    obtain ⟨k₁, hk₁⟩ : ∃ k₁, k₁ = k.setThread c fun r => { r with rsp := rsp } := ⟨_, rfl⟩
    have hT (t : ℕ) : k₁.threads t = { k.threads t with rsp := if t = c then rsp else (k.threads t).rsp } := by
      rw [hk₁, setThread_threads]
      split_ifs with ht
      · rw [ht]
      · rfl
    have h₁ : ReadyRing k₁ c (b :: l) := by
      refine h.congr (by rw [hk₁]; rfl) (by rw [hk₁]; rfl) (fun t _ => ?_) fun t _ => ?_
      · simp only [nextOf, prevOf, hT, and_self]
      · simp only [hT]
    have hlinks := dequeueLinks_relinked h₁.ring
    have heq : k.putAway c rsp = k₁.dequeueThread c := by
      simp only [putAway, hb, hk₁]
    rw [heq, h₁.dequeue]
    have hhead₁ : k₁.readyListHead = k.readyListHead := by
      rw [hk₁]
      rfl
    refine ⟨dequeueLinks_ring h₁.ring, by rw [hhead₁]; exact hhead,
      by simp only [hhead₁, hs, true_and, List.headD_cons], fun t ht => ?_, ?_, fun t _ => ?_, fun t => ?_,
      fun t ht => ?_, fun _ => ?_, ?_, fun he => absurd he hd⟩
    · have htc : t ≠ c := fun he => ht (he ▸ List.mem_cons_self)
      refine (hlinks.frame t ht).trans ?_
      simp only [hT, if_neg htc]
    · refine (hlinks.state_eq c).trans ?_
      simp only [hT, if_pos hs]
    · refine (hlinks.state_eq t).trans ?_
      simp only [hT]
    · refine (hlinks.static_eq t).trans ?_
      simp only [hT, Thread.static]
    · refine (hlinks.rsp_eq t).trans ?_
      simp only [hT, if_neg ht]
    · refine (hlinks.rsp_eq c).trans ?_
      simp only [hT, if_true]
    · rw [if_neg hd, hk₁]
      rfl

/-- The processor goes from `c` to `u`. -/
structure Switched (k : Kernel) (rsp c u : ℕ) (rest rest' : List ℕ) (k' : Kernel) : Prop where
  result : k.schedulerHandler rsp = some ((k.threads u).rsp, k')
  eq : k' = (k.putAway c rsp).dispatch c u
  ring : ReadyRing k' u rest'
  head_eq : k'.readyListHead = if k.Leaves c ∧ k.readyListHead = c then rest.headD 0 else k.readyListHead
  picked : u ≠ c ∧ (k.threads u).state = .ready
  running : (k'.threads u).state = .running
  left : (k'.threads c).state = if k.Leaves c then (k.threads c).state else .ready
  state : ∀ t, t ≠ c → t ≠ u → (k'.threads t).state = (k.threads t).state
  frame : ∀ t, t ∉ c :: rest → k'.threads t = k.threads t
  static : ∀ t, (k'.threads t).static = (k.threads t).static
  other : ∀ t, t ≠ c → (k'.threads t).rsp = (k.threads t).rsp
  saved : (k.threads c).state ≠ .dead → (k'.threads c).rsp = rsp
  deadHead : k'.deadListHead = if (k.threads c).state = .dead then c else k.deadListHead
  deadNext : (k.threads c).state = .dead → (k'.threads c).next = k.deadListHead
  mutexes : k'.mutexes = k.mutexes

/-- The search ends at its first thread, which is ready. -/
theorem PutAway.switched {rsp : ℕ} {rest' : List ℕ} (h : ReadyRing k c rest)
    (hp : PutAway k (k.putAway c rsp) rsp c rest (u :: rest')) (hu : u ∈ rest)
    (hstart : u = if k.Leaves c then (k.putAway c rsp).readyListHead else (k.threads c).next)
    (hready : ∀ t ∈ rest', ((k.putAway c rsp).threads t).state = .ready) (h0 : 0 ∉ u :: rest') :
    Switched k rsp c u rest rest' ((k.putAway c rsp).dispatch c u) := by
  have huc : u ≠ c := fun he => h.notMem (he ▸ hu)
  have hpicked : (k.threads u).state = .ready := h.ready u hu
  have hother : ¬k.NoOther := fun hn => List.ne_nil_of_mem hu (h.noOther_iff.mp hn)
  have hleaves : (k.putAway c rsp).Leaves c ↔ k.Leaves c := by
    unfold Leaves
    rw [hp.left]
    unfold Leaves
    split_ifs with hl <;> simp_all
  have hu' : ((k.putAway c rsp).threads u).state = .ready := (hp.state u huc).trans hpicked
  have hsearch : searchReady (k.putAway c rsp).threads u (2 ^ 64) u = .thread u := by
    rw [show (2 : ℕ) ^ 64 = (2 ^ 64 - 1) + 1 by norm_num, searchReady, if_pos (Or.inl hu')]
  have hT (t : ℕ) : ((k.putAway c rsp).dispatch c u).threads t =
      if t = u then { (k.putAway c rsp).threads u with state := .running } else (k.putAway c rsp).threads t :=
    dispatch_threads ..
  refine ⟨?_, rfl, ⟨?_, dispatch_currentThread .., ?_, h0, fun t ht => ?_⟩,
    (dispatch_readyListHead ..).trans hp.head_eq, ⟨huc, hpicked⟩, ?_, ?_, fun t htc htu => ?_,
    fun t ht => ?_, fun t => ?_, fun t ht => ?_, fun hd => ?_, ?_, fun hd => ?_, ?_⟩
  · have hstart' : (if (k.putAway c rsp).Leaves c then (k.putAway c rsp).readyListHead
        else (k.threads c).next) = u := by
      simp only [hleaves, ← hstart]
    simp only [schedulerHandler, if_neg hother, h.current, hstart', hsearch, hT, if_true]
    rw [if_neg fun he : u = 0 => h0 (he ▸ List.mem_cons_self), hp.other u huc]
  · refine hp.ring.congr (fun t _ => ?_) fun t _ => ?_
    all_goals
      simp only [nextOf, prevOf, hT]
      split_ifs with ht
      · rw [ht]
      · rfl
  · rw [dispatch_readyListHead]
    exact hp.head
  · have htu : t ≠ u := fun he => (List.nodup_cons.mp hp.ring.nodup).1 (he ▸ ht)
    rw [hT, if_neg htu]
    exact hready t ht
  · rw [hT, if_pos rfl]
  · rw [hT, if_neg (Ne.symm huc)]
    exact hp.left
  · rw [hT, if_neg htu]
    exact hp.state t htc
  · rw [hT, if_neg fun he : t = u => ht (List.mem_cons_of_mem _ (he ▸ hu))]
    exact hp.frame t ht
  · rw [hT]
    split_ifs with ht
    · exact ht ▸ hp.static t
    · exact hp.static t
  · rw [hT]
    split_ifs with htu
    · exact htu ▸ hp.other t ht
    · exact hp.other t ht
  · rw [hT, if_neg (Ne.symm huc)]
    exact hp.saved hd
  · rw [dispatch_deadListHead]
    exact hp.deadHead
  · rw [hT, if_neg (Ne.symm huc)]
    exact hp.deadNext hd
  · rw [dispatch_mutexes, putAway_mutexes]

/-- A thread that is preempted or yields hands over to its successor. -/
theorem ReadyRing.handler_tick (h : ReadyRing k c (u :: rest)) (hs : ¬k.Leaves c) (rsp : ℕ) :
    Switched k rsp c u (u :: rest) (rest ++ [c]) ((k.putAway c rsp).dispatch c u) := by
  have hp := h.putAway_stays hs rsp
  have hring : IsRing (nextOf (k.putAway c rsp).threads) (prevOf (k.putAway c rsp).threads)
      ([c] ++ u :: rest) := hp.ring
  refine PutAway.switched h { hp with ring := hring.rotate, head := ?_ } List.mem_cons_self ?_ (fun t ht => ?_) ?_
  · have := hp.head
    simp only [List.mem_cons, List.mem_append] at this ⊢
    tauto
  · rw [if_neg hs]
    exact h.ring.links.1.symm
  · rcases List.mem_append.mp ht with ht | ht
    · rw [hp.state t fun he => h.notMem (he ▸ List.mem_cons_of_mem _ ht)]
      exact h.ready t (List.mem_cons_of_mem _ ht)
    · rw [List.mem_singleton.mp ht, hp.left, if_neg hs]
  · have := h.null
    simp only [List.mem_cons, List.mem_append, List.not_mem_nil] at this ⊢
    tauto

/-- A thread that exits or blocks hands over to the head of the ring that is left. -/
theorem ReadyRing.handler_leave (h : ReadyRing k c (b :: l)) (hs : k.Leaves c) (rsp : ℕ) :
    ∃ X u Y, b :: l = X ++ u :: Y ∧ u = (if k.readyListHead = c then b else k.readyListHead) ∧
      Switched k rsp c u (b :: l) (Y ++ X) ((k.putAway c rsp).dispatch c u) := by
  have hp := h.putAway_leaves hs rsp
  obtain ⟨X, Y, hXY⟩ := List.append_of_mem hp.head
  have hring := hp.ring
  rw [hXY] at hring
  have hmem : ∀ t ∈ (k.putAway c rsp).readyListHead :: (Y ++ X), t ∈ b :: l := by
    intro t ht
    rw [hXY]
    simp only [List.mem_cons, List.mem_append] at ht ⊢
    tauto
  refine ⟨X, _, Y, hXY, by simpa [hs] using hp.head_eq, PutAway.switched h { hp with ring := hring.rotate, head := List.mem_cons_self } hp.head
    ?_ (fun t ht => ?_) fun h0 => ?_⟩
  · rw [if_pos hs]
  · have ht' := hmem t (List.mem_cons_of_mem _ ht)
    rw [hp.state t fun he => h.notMem (he ▸ ht')]
    exact h.ready t ht'
  · exact h.null (List.mem_cons_of_mem _ (hmem 0 h0))

end Kernel
end PointerOS
