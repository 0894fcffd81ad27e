import PointerOS.SchedulerState

/-!
# Where the threads are

Each thread that is alive is in the ready ring, in the queue of one mutex, on the dead list, or in
the list that a cleanup has taken, and in one of them only. `mutex_unlock` breaks this when it
wakes a thread: the thread becomes ready, and nothing links it into the ring.
-/
namespace PointerOS
open LinkedList

/-- The lists of threads. -/
inductive ThreadList
  | ready | blocked (m : ℕ) | dead | cleaning (s : ℕ)
deriving DecidableEq

/-- The thread is found by following the links of the list. -/
def ThreadList.Has (k : Kernel) (g : Trace) : ThreadList → ℕ → Prop
  | ready => Linked (nextOf k.threads) 0 k.readyListHead
  | blocked m => Linked (nextBlockedOf k.threads) 0 (k.mutexes m).blockedHead
  | dead => Linked (nextOf k.threads) 0 k.deadListHead
  | cleaning s => Linked (nextOf k.threads) 0 (g.cleaning s)

/-- No thread is lost. Without a cleanup under way, the lists are the ring, the queues and the dead
list. -/
structure NoneLost (k : Kernel) (g : Trace) : Prop where
  one : ∀ t ∈ g.live, ∃! l : ThreadList, l.Has k g t
  ready : ∀ t ∈ g.live, (k.threads t).state = .ready → ThreadList.ready.Has k g t

/-- A mutex is unlocked by the thread that locked it. -/
def OwnerUnlocks (k : Kernel) (g : Trace) : Call → Prop
  | .unlock m => g.owner m = k.currentThread
  | _ => True

/-- No thread waits for a mutex that is unlocked, and no thread that is alone in the ring asks for a
mutex that is locked. -/
def NoWakeups (k : Kernel) (_ : Trace) : Call → Prop
  | .unlock m => (k.mutexes m).blockedHead = 0
  | .lock m _ => (k.mutexes m).locked = 0 ∨ ¬k.NoOther
  | _ => True

instance (k : Kernel) (g : Trace) (c : Call) : Decidable (OwnerUnlocks k g c) :=
  match c with
  | .unlock m => inferInstanceAs (Decidable (g.owner m = k.currentThread))
  | .createThread _ _ _ _ | .createUserThread _ _ _ _ _ _ _ | .createUserProcess _ | .tick _ | .exit _
  | .lock _ _ | .takeDead | .cleanupRound => inferInstanceAs (Decidable True)

instance (k : Kernel) (g : Trace) (c : Call) : Decidable (NoWakeups k g c) :=
  match c with
  | .unlock m => inferInstanceAs (Decidable ((k.mutexes m).blockedHead = 0))
  | .lock m _ => inferInstanceAs (Decidable ((k.mutexes m).locked = 0 ∨ ¬k.NoOther))
  | .createThread _ _ _ _ | .createUserThread _ _ _ _ _ _ _ | .createUserProcess _ | .tick _ | .exit _
  | .takeDead | .cleanupRound => inferInstanceAs (Decidable True)

def ThreadList.place : ThreadList → Place
  | ready => .ring
  | blocked m => .queue m
  | dead => .dead
  | cleaning s => .cleaning s

section Board
variable {img : Image} {b : Kernel.BootPointers} {k k' : Kernel} {g g' : Trace} {B B' : Board} {t : ℕ}

theorem Tracks.null_notMem (h : Tracks k g B) (p : Place) : 0 ∉ B.lists p :=
  fun h0 => h.ne_zero h0 rfl

/-- The lists are those on the board. -/
theorem Tracks.has_iff (h : Tracks k g B) (l : ThreadList) : l.Has k g t ↔ t ∈ B.lists l.place := by
  cases l with
  | ready => exact h.ring.ring.linked_iff h.ring.null h.ring.head
  | blocked m => exact (h.queue m).chain.linked_iff (h.queue m).null
  | dead => exact h.dead.linked_iff (h.null_notMem .dead)
  | cleaning s => exact (h.cleaning s).linked_iff (h.null_notMem (.cleaning s))

theorem Tracks.noneLost (h : Tracks k g B) (hlost : B.lost = []) : NoneLost k g := by
  have hinj : Function.Injective ThreadList.place := by
    intro l l' he
    cases l <;> cases l' <;> simp_all [ThreadList.place]
  have hplace : ∀ t ∈ g.live, ∃ l : ThreadList, t ∈ B.lists l.place := by
    intro t ht
    obtain ⟨p, hp⟩ := (h.place.mem_iff t).mp ht
    cases p with
    | ring => exact ⟨.ready, hp⟩
    | queue m => exact ⟨.blocked m, hp⟩
    | dead => exact ⟨.dead, hp⟩
    | cleaning s => exact ⟨.cleaning s, hp⟩
    | lost =>
      rw [Board.lists, hlost] at hp
      exact absurd hp List.not_mem_nil
  constructor
  · intro t ht
    obtain ⟨l, hl⟩ := hplace t ht
    refine ⟨l, (h.has_iff l).mpr hl, fun l' hl' => ?_⟩
    exact hinj (h.place.unique _ _ t ((h.has_iff l').mp hl') hl)
  · intro t ht hs
    obtain ⟨l, hl⟩ := hplace t ht
    have hstate := h.states l.place t hl
    rw [hs] at hstate
    cases l with
    | ready => exact (h.has_iff .ready).mpr hl
    | blocked m => cases hstate
    | dead => cases hstate
    | cleaning s => cases hstate

/-- A thread that was woken is in none of the lists. -/
theorem Tracks.not_noneLost (h : Tracks k g B) (ht : t ∈ B.lost) : ¬NoneLost k g := by
  intro hn
  obtain ⟨l, hl, -⟩ := hn.one t (h.mem_live (p := .lost) ht)
  have he := h.place.unique l.place .lost t ((h.has_iff l).mp hl) ht
  cases l <;> exact nomatch he

/-- A thread that is alone in the ring and waits is in the ring and in a queue. -/
theorem Tracks.lock_alone (h : Tracks k g B) {m rsp r : ℕ} (hl : (k.mutexes m).locked ≠ 0) (hrest : B.rest = [])
    (hrun : k.mutexLock m rsp = some (r, k')) (hlive : g'.live = g.live) : ¬NoneLost k' g' := by
  have hc : B.current ∈ B.lists .ring := List.mem_cons_self
  have hcur := h.ring.current
  have hcq : B.current ∉ B.queue m := Partition.notMem (j := Place.queue m) h.place hc (by simp)
  obtain ⟨hq, hr⟩ := (h.queue m).enqueue (hcur ▸ hcq) (hcur ▸ h.ne_zero hc)
  rw [hcur] at hq hr
  have hsec : k.lockSection m = (false, k.enqueueBlocked m) := if_neg hl
  have hnext : nextOf (k.enqueueBlocked m).threads = nextOf k.threads :=
    funext fun u => congrArg (·.next) (hr.sans u)
  have hhead : (k.enqueueBlocked m).readyListHead = k.readyListHead := by rw [hr.eq]
  have halone : (k.enqueueBlocked m).NoOther := by
    have hno := h.ring.noOther_iff.mpr hrest
    unfold Kernel.NoOther at hno ⊢
    rw [hhead]
    exact hno.imp_right fun he => (congrFun hnext _).trans he
  rw [Kernel.mutexLock, hsec] at hrun
  simp only [Kernel.schedulerHandler, if_pos halone] at hrun
  obtain ⟨-, rfl⟩ := Prod.mk.inj (Option.some.inj hrun)
  intro hn
  obtain ⟨l, -, hunique⟩ := hn.one B.current (hlive ▸ h.mem_live hc)
  have hready : ThreadList.ready.Has (k.enqueueBlocked m) g' B.current := by
    change Linked _ 0 _ _
    rw [hnext, hhead]
    exact (h.has_iff .ready).mpr hc
  have hblocked : (ThreadList.blocked m).Has (k.enqueueBlocked m) g' B.current :=
    (hq.chain.linked_iff hq.null).mpr (List.mem_append_right _ (List.mem_singleton_self _))
  have hsame := (hunique _ hready).trans (hunique _ hblocked).symm
  cases hsame

theorem Board.Moves.lost_eq {mv : Move} (h : B.Moves mv B') (hw : ∀ m, mv ≠ .wake m) : B'.lost = B.lost := by
  cases h with
  | wake _ => exact absurd rfl (hw _)
  | _ => rfl

/-- A thread that waits for a mutex is lost when the mutex is unlocked. -/
theorem Tracks.unlock_loses (h : Tracks k g B) {m : ℕ} (hw : (k.mutexes m).blockedHead ≠ 0)
    (hlive : g'.live = g.live) (hclean : g'.cleaning = g.cleaning) : ¬NoneLost (k.mutexUnlock m) g' := by
  cases hq : B.queue m with
  | nil => exact absurd ((h.queue m).head_eq_zero_iff.mpr hq) hw
  | cons w l => exact ((h.wake hq).congr (.refl _) hlive hclean).not_noneLost List.mem_cons_self

/-- A call keeps the threads exactly when it meets the condition. -/
theorem Tracks.noneLost_step (h : Tracks k g B) (hlost : B.lost = []) {c : Call} (hc : c.Proper k g)
    (hrun : c.run img k g = some (k', g')) :
    NoWakeups k g c ∧ (∃ B', Tracks k' g' B' ∧ B'.lost = []) ∨ ¬NoWakeups k g c ∧ ¬NoneLost k' g' := by
  by_cases hok : NoWakeups k g c
  · refine .inl ⟨hok, ?_⟩
    have hlock : ∀ m rsp, c = .lock m rsp → (k.mutexes m).locked ≠ 0 → B.rest ≠ [] := by
      rintro m rsp rfl hl hrest
      exact hok.resolve_left hl (h.ring.noOther_iff.mpr hrest)
    obtain ⟨mv, B', hmove, htr, hrec, -⟩ := (h.run hc hlock hrun).moved
    refine ⟨B', htr, (hmove.lost_eq ?_).trans hlost⟩
    rintro m rfl
    cases hrec with
    | wake _ owner hw => exact hw hok
  · refine .inr ⟨hok, ?_⟩
    cases c with
    | unlock m =>
      obtain ⟨rfl, rfl⟩ := Prod.mk.inj (Option.some.inj hrun)
      exact h.unlock_loses hok rfl rfl
    | lock m rsp =>
      obtain ⟨hl, hno⟩ := not_or.mp hok
      obtain ⟨⟨r, k₁⟩, hk₁, heq⟩ := Option.map_eq_some_iff.mp hrun
      obtain ⟨rfl, rfl⟩ := Prod.mk.inj heq
      refine h.lock_alone hl (h.ring.noOther_iff.mp (not_not.mp hno)) hk₁ ?_
      rw [if_neg hl, Trace.handled]
      split_ifs <;> rfl
    | _ => exact absurd trivial hok

theorem SchedulerRun.noWakeups (h : SchedulerRun img b NoWakeups k g) : ∃ B, Tracks k g B ∧ B.lost = [] := by
  induction h with
  | init hb =>
    obtain ⟨B, htr, -, -, hlost, -⟩ := hb.booting.tracked
    exact ⟨B, htr, hlost⟩
  | step _ c hc hok hrun ih =>
    obtain ⟨B, htr, hlost⟩ := ih
    rcases htr.noneLost_step hlost hc hrun with ⟨-, hB⟩ | ⟨hno, -⟩
    · exact hB
    · exact absurd hok hno

/-- No thread is lost in a run in which each call meets the condition, and the first call that does
not meet it loses one. -/
theorem noneLost_of_noWakeups (h : SchedulerRun img b NoWakeups k g) :
    NoneLost k g ∧ ∀ c k' g', c.Proper k g → c.run img k g = some (k', g') → (NoneLost k' g' ↔ NoWakeups k g c) := by
  obtain ⟨B, htr, hlost⟩ := h.noWakeups
  refine ⟨htr.noneLost hlost, fun c k' g' hc hrun => ?_⟩
  rcases htr.noneLost_step hlost hc hrun with ⟨hok, B', htr', hlost'⟩ | ⟨hno, hn⟩
  · exact iff_of_true (htr'.noneLost hlost') hok
  · exact iff_of_false hn hno

end Board

/-- The idle thread waits for a mutex that the main thread keeps, the main thread takes another one and
gives it back, and the third thread exits. -/
theorem noneLost_of_noWakeups_boot : ∃ k g, NoneLost k g ∧ (k.mutexes 1).blockedHead = 0x200 ∧
    k.deadListHead = 0x300 ∧ g.live = [0x500, 0x300, 0x200, 0x100] := by
  obtain ⟨k₀, hk₀, hbooted⟩ := bootKernel_booted
  have hrun : (bootKernel.bind fun k => (Call.runAll bootImage NoWakeups
      [.lock 1 0, .tick 0, .lock 1 0, .lock 2 0, .unlock 2, .tick 0, .exit 0] k
      (Trace.start [0x100, 0x200, 0x300, 0x500])).map fun p =>
        ((p.1.mutexes 1).blockedHead, p.1.deadListHead, p.2.live)) =
      some (0x200, 0x300, [0x500, 0x300, 0x200, 0x100]) := by
    decide +kernel
  rw [hk₀] at hrun
  obtain ⟨⟨k, g⟩, hkg, heq⟩ := Option.map_eq_some_iff.mp hrun
  simp only [Prod.mk.injEq] at heq
  exact ⟨k, g, (noneLost_of_noWakeups ((SchedulerRun.init hbooted).runAll hkg)).1, heq⟩

/-- The main thread takes a mutex, the idle thread waits for it, the main thread gives it back: the
idle thread is ready, and it is not in the ring. -/
theorem thread_lost : ∃ k g, SchedulerRun bootImage bootPointers OwnerUnlocks k g ∧ 0x200 ∈ g.live ∧
    (k.threads 0x200).state = .ready ∧ ¬ThreadList.ready.Has k g 0x200 ∧ ¬NoneLost k g := by
  obtain ⟨k₀, hk₀, hbooted⟩ := bootKernel_booted
  have hrun : (bootKernel.bind fun k => (Call.runAll bootImage OwnerUnlocks
      [.lock 1 0, .tick 0, .lock 1 0, .unlock 1] k (Trace.start [0x100, 0x200, 0x300, 0x500])).map fun p =>
        (p.2.live, (p.1.threads 0x200).state, p.1.readyListHead,
          [0x100, 0x300, 0x500].map fun t => (p.1.threads t).next)) =
      some ([0x500, 0x300, 0x200, 0x100], .ready, 0x100, [0x300, 0x500, 0x100]) := by
    decide +kernel
  rw [hk₀] at hrun
  obtain ⟨⟨k, g⟩, hkg, heq⟩ := Option.map_eq_some_iff.mp hrun
  simp only [Prod.mk.injEq, List.map_cons, List.map_nil, List.cons.injEq, and_true] at heq
  obtain ⟨hlive, hstate, hhead, hmain, hthird, huser⟩ := heq
  have hring : ¬ThreadList.ready.Has k g 0x200 := by
    intro hl
    have hmem : (0x200 : ℕ) ∈ [0x100, 0x300, 0x500] := by
      refine Linked.mem hl (by simp [hhead]) fun a ha => ?_
      simp only [List.mem_cons, List.not_mem_nil, or_false] at ha
      rcases ha with rfl | rfl | rfl
      · simp [nextOf, hmain]
      · simp [nextOf, hthird]
      · simp [nextOf, huser]
    simp at hmem
  have hmem : 0x200 ∈ g.live := by simp [hlive]
  exact ⟨k, g, (SchedulerRun.init hbooted).runAll hkg, hmem, hstate, hring, fun hn => hring (hn.ready _ hmem hstate)⟩

end PointerOS
