import PointerOS.CreationFrame
import PointerOS.SchedulerRuns

/-!
# The board of the scheduler

An abstract scheduler: each thread that is alive stands at one place, and a call moves at most one
thread, or turns the ring. The calls of the kernel follow these moves. A thread that `mutex_unlock`
wakes is moved off the board's regular places, because nothing puts it into the ring.
-/
namespace PointerOS
open LinkedList

/-- The places: the ring, the queue of a mutex, the dead list, the list that the cleanup of a
thread has taken, and none of these. -/
inductive Place
  | ring | queue (m : ℕ) | dead | cleaning (s : ℕ) | lost
deriving DecidableEq

/-- The ring is listed from the current thread on; `head` is its `ready_list_head`. -/
structure Board where
  current : ℕ
  rest : List ℕ
  head : ℕ
  queue : ℕ → List ℕ
  dead : List ℕ
  cleaning : ℕ → List ℕ
  lost : List ℕ

inductive Move
  | stay | create (t : ℕ) | turn | bury | block (m : ℕ) | wake (m : ℕ) | take (s : ℕ) | destroy (s : ℕ)

namespace Board

def lists (B : Board) : Place → List ℕ
  | .ring => B.current :: B.rest
  | .queue m => B.queue m
  | .dead => B.dead
  | .cleaning s => B.cleaning s
  | .lost => B.lost

/-- The thread that follows when the current one leaves. -/
def successor (B : Board) : ℕ := if B.head = B.current then B.rest.headD 0 else B.head

/-- A new thread goes in front of the head, a preempted one to the end. -/
inductive Moves (B : Board) : Move → Board → Prop
  | stay : Moves B .stay B
  | create {t : ℕ} {X Y : List ℕ} (hrest : B.rest = X ++ Y) (hhead : B.head = Y.headD B.current) :
      Moves B (.create t) { B with rest := X ++ t :: Y }
  | turn {u : ℕ} {Y : List ℕ} (hrest : B.rest = u :: Y) :
      Moves B .turn { B with current := u, rest := Y ++ [B.current] }
  | bury {X Y : List ℕ} (hrest : B.rest = X ++ B.successor :: Y) :
      Moves B .bury { B with current := B.successor, rest := Y ++ X, head := B.successor
                             dead := B.current :: B.dead }
  | block {m : ℕ} {X Y : List ℕ} (hrest : B.rest = X ++ B.successor :: Y) :
      Moves B (.block m) { B with current := B.successor, rest := Y ++ X, head := B.successor
                                  queue := Function.update B.queue m (B.queue m ++ [B.current]) }
  | wake {m w : ℕ} {l : List ℕ} (hq : B.queue m = w :: l) :
      Moves B (.wake m) { B with queue := Function.update B.queue m l, lost := w :: B.lost }
  | take {s : ℕ} (hs : B.cleaning s = []) :
      Moves B (.take s) { B with dead := [], cleaning := Function.update B.cleaning s B.dead }
  | destroy {s t : ℕ} {l : List ℕ} (hs : B.cleaning s = t :: l) :
      Moves B (.destroy s) { B with cleaning := Function.update B.cleaning s l }

section Partition
variable {B : Board} {S : List ℕ}

theorem partition_create {t : ℕ} {X Y : List ℕ} (h : Partition B.lists S) (hrest : B.rest = X ++ Y)
    (ht : t ∉ S) : Partition { B with rest := X ++ t :: Y }.lists (t :: S) := by
  refine h.insert (q := .ring) ht ?_ fun i hi => ?_
  · simp only [lists, hrest]
    exact (List.perm_middle.cons _).trans (List.Perm.swap ..)
  · cases i with
    | ring => exact absurd rfl hi
    | _ => rfl

theorem partition_turn {u : ℕ} {Y : List ℕ} (h : Partition B.lists S) (hrest : B.rest = u :: Y) :
    Partition { B with current := u, rest := Y ++ [B.current] }.lists S := by
  refine h.perm fun i => ?_
  cases i with
  | ring =>
    simp only [lists, hrest]
    exact List.perm_append_singleton B.current (u :: Y)
  | _ => rfl

/-- The current thread goes to the list `q`, and the rest of the ring goes on from another place. -/
theorem partition_leave {B' : Board} {q : Place} {u : ℕ} {X Y : List ℕ} (h : Partition B.lists S)
    (hrest : B.rest = X ++ u :: Y) (hq : q ≠ .ring) (hring : B'.lists .ring = u :: (Y ++ X))
    (hto : (B'.lists q).Perm (B.current :: B.lists q))
    (hother : ∀ i, i ≠ .ring → i ≠ q → B'.lists i = B.lists i) : Partition B'.lists S := by
  refine h.transfer (x := B.current) hq.symm ?_ hto hother
  rw [hring]
  simp only [lists, hrest]
  have hperm : (X ++ u :: Y).Perm (u :: Y ++ X) := List.perm_append_comm
  exact hperm.cons _

theorem partition_wake {m w : ℕ} {l : List ℕ} (h : Partition B.lists S) (hq : B.queue m = w :: l) :
    Partition { B with queue := Function.update B.queue m l, lost := w :: B.lost }.lists S := by
  refine h.transfer (p := .queue m) (q := .lost) (x := w) nofun ?_ (List.Perm.refl _) fun i hi hi' => ?_
  · simp [lists, hq]
  · cases i with
    | queue m' =>
      have hm : m' ≠ m := fun he => hi (he ▸ rfl)
      simp only [lists, Function.update_of_ne hm]
    | lost => exact absurd rfl hi'
    | _ => rfl

theorem partition_take {s : ℕ} (h : Partition B.lists S) (hs : B.cleaning s = []) :
    Partition { B with dead := [], cleaning := Function.update B.cleaning s B.dead }.lists S := by
  have heq : { B with dead := [], cleaning := Function.update B.cleaning s B.dead }.lists =
      B.lists ∘ Equiv.swap .dead (.cleaning s) := by
    funext i
    cases i with
    | dead => simp [lists, hs]
    | cleaning s' =>
      by_cases hss : s' = s
      · simp [lists, hss]
      · have hne : Place.cleaning s' ≠ .cleaning s := fun he => hss (Place.cleaning.inj he)
        rw [Function.comp_apply, Equiv.swap_apply_of_ne_of_ne (by simp) hne]
        simp [lists, Function.update_of_ne hss]
    | _ => rw [Function.comp_apply, Equiv.swap_apply_of_ne_of_ne (by simp) (by simp)]; rfl
  rw [heq]
  exact h.rename _

theorem partition_destroy {s t : ℕ} {l : List ℕ} (h : Partition B.lists S) (hs : B.cleaning s = t :: l) :
    Partition { B with cleaning := Function.update B.cleaning s l }.lists (S.filter (· ≠ t)) := by
  refine h.remove (p := .cleaning s) (x := t) ?_ (fun i hi => ?_) fun a => by simp
  · simp [lists, hs]
  · cases i with
    | cleaning s' =>
      have hss : s' ≠ s := fun he => hi (he ▸ rfl)
      simp only [lists, Function.update_of_ne hss]
    | _ => rfl

end Partition
end Board

/-! ## The state behind the board -/

/-- What the record of a thread at the place says. -/
def Place.Holds : Place → ThreadState → Prop
  | ring, _ => True
  | queue _, s => s = .blocked
  | dead, s => s = .dead
  | cleaning _, s => s = .dead
  | lost, s => s = .ready

/-- The state is the one that the board shows. -/
structure Tracks (k : Kernel) (g : Trace) (B : Board) : Prop where
  ring : k.ReadyRing B.current B.rest
  head : k.readyListHead = B.head
  current : (k.threads B.current).state = .running ∨ (k.threads B.current).state = .dead
  place : Partition B.lists g.live
  null : 0 ∉ g.live
  dead : Chain (nextOf k.threads) 0 k.deadListHead B.dead
  cleaning : ∀ s, Chain (nextOf k.threads) 0 (g.cleaning s) (B.cleaning s)
  queue : ∀ m, k.WaitQueue m (B.queue m)
  states : ∀ p, ∀ t ∈ B.lists p, p.Holds (k.threads t).state

section Switch
variable {k k' : Kernel} {rsp c u h : ℕ} {rest rest' l : List ℕ}

theorem Kernel.Switched.chain (hsw : k.Switched rsp c u rest rest' k') (hc : Chain (nextOf k.threads) 0 h l)
    (hl : ∀ t ∈ l, t ∉ c :: rest) : Chain (nextOf k'.threads) 0 h l :=
  hc.congr fun t ht => by rw [nextOf, nextOf, hsw.frame t (hl t ht)]

theorem Kernel.Switched.waitQueue (hsw : k.Switched rsp c u rest rest' k') {m : ℕ} (hq : k.WaitQueue m l) :
    k'.WaitQueue m l :=
  hq.congr (by rw [hsw.mutexes]) fun t _ => congrArg (·.nextBlocked) (hsw.static t)

end Switch

namespace Tracks
variable {k k' : Kernel} {g g' : Trace} {B : Board}

theorem congr (h : Tracks k g B) (hs : k.SameSched k') (hlive : g'.live = g.live)
    (hclean : g'.cleaning = g.cleaning) : Tracks k' g' B where
  ring := by
    refine h.ring.congr hs.current hs.ready (fun t _ => ?_) fun t _ => ?_
    · rw [nextOf, nextOf, prevOf, prevOf, hs.threads]
      exact ⟨rfl, rfl⟩
    · rw [hs.threads]
  head := hs.ready.trans h.head
  current := hs.threads ▸ h.current
  place := hlive ▸ h.place
  null := hlive ▸ h.null
  dead := hs.threads ▸ hs.dead ▸ h.dead
  cleaning := hs.threads ▸ hclean ▸ h.cleaning
  queue := fun m => (h.queue m).congr (by rw [hs.mutexes]) fun t _ => by rw [hs.threads]
  states := hs.threads ▸ h.states

/-- A thread outside the ring. -/
theorem notMem_ring (h : Tracks k g B) {p : Place} {t : ℕ} (ht : t ∈ B.lists p) (hp : p ≠ .ring) :
    t ∉ B.current :: B.rest :=
  h.place.notMem ht hp.symm

theorem mem_live (h : Tracks k g B) {p : Place} {t : ℕ} (ht : t ∈ B.lists p) : t ∈ g.live :=
  (h.place.mem_iff t).mpr ⟨p, ht⟩

theorem ne_zero (h : Tracks k g B) {p : Place} {t : ℕ} (ht : t ∈ B.lists p) : t ≠ 0 :=
  fun he => h.null (he ▸ h.mem_live ht)

/-- The new thread joins the ring. -/
theorem create {k₁ : Kernel} {t : ℕ} {x : Thread} (h : Tracks k g B) (hs : k.SameSched k₁) (hx : x.state = .ready)
    (ht : t ∉ g.live) (h0 : t ≠ 0) :
    ∃ X Y, B.rest = X ++ Y ∧ B.head = Y.headD B.current ∧
      ((k₁.addThread t x).threads B.current).state = (k.threads B.current).state ∧
      Tracks (k₁.addThread t x) (g.create t) { B with rest := X ++ t :: Y } := by
  have h₁ : Tracks k₁ g B := h.congr hs rfl rfl
  obtain ⟨k₂, hk₂⟩ : ∃ k₂ : Kernel, k₂ = { k₁ with
    threads := Function.update k₁.threads t x, nextThreadId := (k₁.nextThreadId + 1) % 2 ^ 64 } := ⟨_, rfl⟩
  have hT : ∀ u, u ≠ t → k₂.threads u = k₁.threads u := fun u hu => by
    rw [hk₂]
    exact Function.update_of_ne hu ..
  have hTt : k₂.threads t = x := by
    rw [hk₂]
    exact Function.update_self ..
  have hne : ∀ p, ∀ u ∈ B.lists p, u ≠ t := fun p u hu he => ht (he ▸ h.mem_live hu)
  have hring : k₂.ReadyRing B.current B.rest := by
    refine h₁.ring.congr (by rw [hk₂]) (by rw [hk₂]) (fun u hu => ?_) fun u hu => ?_
    · rw [nextOf, nextOf, prevOf, prevOf, hT u (hne .ring u hu)]
      exact ⟨rfl, rfl⟩
    · rw [hT u (hne .ring u (List.mem_cons_of_mem _ hu))]
  have htring : t ∉ B.current :: B.rest := fun hm => hne .ring t hm rfl
  obtain ⟨X, Y, hrest, hhead, heq, hring', hrel⟩ := hring.enqueue htring h0 (hTt ▸ hx)
  have hhead₂ : k₂.readyListHead = B.head := by
    rw [hk₂]
    exact h₁.head
  have hfields : (k₂.enqueueThread t).readyListHead = B.head ∧ (k₂.enqueueThread t).mutexes = k₁.mutexes ∧
      (k₂.enqueueThread t).deadListHead = k₁.deadListHead := by
    rw [heq, hk₂]
    exact ⟨h₁.head, rfl, rfl⟩
  have hadd : k₁.addThread t x = k₂.enqueueThread t := by rw [hk₂, Kernel.addThread]
  have hframe : ∀ p, p ≠ .ring → ∀ u ∈ B.lists p, (k₂.enqueueThread t).threads u = k₁.threads u := by
    intro p hp u hu
    have hut := hne p u hu
    rw [hrel.frame u (by
      rw [List.mem_cons, not_or]
      exact ⟨hut, h.notMem_ring hu hp⟩), hT u hut]
  have hstate : ∀ u, u ≠ t → ((k₂.enqueueThread t).threads u).state = (k₁.threads u).state := fun u hu => by
    rw [hrel.state_eq, hT u hu]
  have hcstate : ((k₂.enqueueThread t).threads B.current).state = (k₁.threads B.current).state :=
    hstate B.current (hne .ring _ List.mem_cons_self)
  rw [hadd]
  refine ⟨X, Y, hrest, hhead₂.symm.trans hhead, hs.threads ▸ hcstate, ?_⟩
  have hplace := Board.partition_create h.place hrest ht
  refine ⟨hring', hfields.1, ?_, hplace, ?_, ?_, fun s => ?_, fun m => ?_, fun p u hu => ?_⟩
  · rw [hcstate]
    exact h₁.current
  · rw [Trace.create, List.mem_cons, not_or]
    exact ⟨Ne.symm h0, h.null⟩
  · rw [hfields.2.2]
    exact h₁.dead.congr fun u hu => by rw [nextOf, nextOf, hframe .dead (by simp) u hu]
  · exact (h₁.cleaning s).congr fun u hu => by rw [nextOf, nextOf, hframe (.cleaning s) (by simp) u hu]
  · refine (h₁.queue m).congr (by rw [hfields.2.1]) fun u hu => ?_
    rw [hframe (.queue m) (by simp) u hu]
  · by_cases hp : p = .ring
    · rw [hp]
      trivial
    · have hB : { B with rest := X ++ t :: Y }.lists p = B.lists p := by
        cases p with
        | ring => exact absurd rfl hp
        | _ => rfl
      rw [hB] at hu
      rw [hframe p hp u hu]
      exact h₁.states p u hu

/-- A call of `scheduler_handler` when the current thread can go on. -/
theorem handler_stays (h : Tracks k g B) (hs : ¬k.Leaves B.current) {rsp r : ℕ}
    (hrun : k.schedulerHandler rsp = some (r, k')) :
    B.rest = [] ∧ k' = k ∨
      ∃ u Y, B.rest = u :: Y ∧ Tracks k' g { B with current := u, rest := Y ++ [B.current] } ∧
        k.Switched rsp B.current u (u :: Y) (Y ++ [B.current]) k' := by
  cases hrest : B.rest with
  | nil =>
    have hno : k.NoOther := h.ring.noOther_iff.mpr hrest
    rw [Kernel.schedulerHandler, if_pos hno] at hrun
    exact .inl ⟨rfl, (Prod.mk.inj (Option.some.inj hrun)).2.symm⟩
  | cons u Y =>
    have hsw := (hrest ▸ h.ring).handler_tick hs rsp
    obtain rfl : k' = _ := (Prod.mk.inj (Option.some.inj (hrun.symm.trans hsw.result))).2
    generalize (k.putAway B.current rsp).dispatch B.current u = k' at hsw
    have hdead : (k.threads B.current).state ≠ .dead := (not_or.mp hs).1
    have hout : ∀ p, p ≠ .ring → ∀ t ∈ B.lists p, t ∉ B.current :: u :: Y := fun p hp t ht =>
      hrest ▸ h.notMem_ring ht hp
    refine .inr ⟨u, Y, rfl, ⟨hsw.ring, ?_, .inl hsw.running, Board.partition_turn h.place hrest, h.null, ?_,
      fun s => ?_, fun m => hsw.waitQueue (h.queue m), fun p t ht => ?_⟩, hsw⟩
    · rw [hsw.head_eq, if_neg fun hl => hs hl.1]
      exact h.head
    · rw [hsw.deadHead, if_neg hdead]
      exact hsw.chain h.dead (hout .dead (by simp))
    · exact hsw.chain (h.cleaning s) (hout (.cleaning s) (by simp))
    · by_cases hp : p = .ring
      · rw [hp]
        trivial
      · have hB : { B with current := u, rest := Y ++ [B.current] }.lists p = B.lists p := by
          cases p with
          | ring => exact absurd rfl hp
          | _ => rfl
        rw [hB] at ht
        rw [hsw.frame t (hout p hp t ht)]
        exact h.states p t ht

/-- A call of `scheduler_handler` when the current thread leaves a ring of at least two. -/
theorem handler_leaves {k₁ : Kernel} {rsp r : ℕ} (hring : k₁.ReadyRing B.current B.rest)
    (hhead : k₁.readyListHead = B.head) (hs : k₁.Leaves B.current) (hne : B.rest ≠ [])
    (hrun : k₁.schedulerHandler rsp = some (r, k')) :
    ∃ X Y, B.rest = X ++ B.successor :: Y ∧ k'.readyListHead = B.successor ∧
      k₁.Switched rsp B.current B.successor B.rest (Y ++ X) k' := by
  cases hrest : B.rest with
  | nil => exact absurd hrest hne
  | cons b l =>
    obtain ⟨X, u, Y, hXY, hu, hsw⟩ := (hrest ▸ hring).handler_leave hs rsp
    obtain rfl : k' = _ := (Prod.mk.inj (Option.some.inj (hrun.symm.trans hsw.result))).2
    have hsucc : u = B.successor := by
      rw [hu, Board.successor, hrest, hhead]
      rfl
    subst hsucc
    refine ⟨X, Y, hXY, ?_, hsw⟩
    rw [hsw.head_eq, Board.successor, hrest, hhead]
    simp only [hs, true_and]

/-- An exited thread is put on the dead list. -/
theorem bury (h : Tracks k g B) (hs : (k.threads B.current).state = .dead) (hne : B.rest ≠ []) {rsp r : ℕ}
    (hrun : k.schedulerHandler rsp = some (r, k')) :
    ∃ X Y, B.rest = X ++ B.successor :: Y ∧ k.Switched rsp B.current B.successor B.rest (Y ++ X) k' ∧
      Tracks k' g { B with current := B.successor, rest := Y ++ X, head := B.successor,
                           dead := B.current :: B.dead } := by
  obtain ⟨X, Y, hrest, hhead, hsw⟩ := handler_leaves h.ring h.head (.inl hs) hne hrun
  have hout : ∀ p, p ≠ .ring → ∀ t ∈ B.lists p, t ∉ B.current :: B.rest := fun p hp t ht => h.notMem_ring ht hp
  obtain ⟨B', hB'⟩ : ∃ B', B' = { B with current := B.successor, rest := Y ++ X, head := B.successor,
                                         dead := B.current :: B.dead } := ⟨_, rfl⟩
  have hplace : Partition B'.lists g.live := by
    refine Board.partition_leave (q := .dead) h.place hrest (by simp) ?_ ?_ fun i hi hid => ?_
    · rw [hB']
      rfl
    · rw [hB']
      exact List.Perm.refl _
    · rw [hB']
      cases i with
      | ring => exact absurd rfl hi
      | dead => exact absurd rfl hid
      | _ => rfl
  have hdead : (k'.threads B.current).state = .dead := by
    rw [hsw.left, if_pos (show k.Leaves B.current from .inl hs), hs]
  refine ⟨X, Y, hrest, hsw, hsw.ring, hhead, .inl hsw.running, hB' ▸ hplace, h.null, ?_, fun s => ?_,
    fun m => hsw.waitQueue (h.queue m), fun p t ht => ?_⟩
  · rw [hsw.deadHead, if_pos hs]
    refine ⟨rfl, ?_⟩
    rw [nextOf, hsw.deadNext hs]
    exact hsw.chain h.dead (hout .dead (by simp))
  · exact hsw.chain (h.cleaning s) (hout (.cleaning s) (by simp))
  · by_cases hp : p = .ring
    · rw [hp]
      trivial
    · by_cases hpd : p = .dead
      · subst hpd
        rcases List.mem_cons.mp ht with rfl | ht
        · exact hdead
        · rw [hsw.frame t (hout .dead hp t ht)]
          exact h.states .dead t ht
      · have hB : { B with current := B.successor, rest := Y ++ X, head := B.successor,
                           dead := B.current :: B.dead }.lists p = B.lists p := by
          cases p with
          | ring => exact absurd rfl hp
          | dead => exact absurd rfl hpd
          | _ => rfl
        rw [hB] at ht
        rw [hsw.frame t (hout p hp t ht)]
        exact h.states p t ht

/-- A thread that finds the mutex taken joins its queue. -/
theorem block (h : Tracks k g B) {m rsp r : ℕ} (hne : B.rest ≠ [])
    (hrun : (k.enqueueBlocked m).schedulerHandler rsp = some (r, k')) :
    ∃ X Y, B.rest = X ++ B.successor :: Y ∧
      (k.enqueueBlocked m).Switched rsp B.current B.successor B.rest (Y ++ X) k' ∧
      Tracks k' g { B with current := B.successor, rest := Y ++ X, head := B.successor,
                           queue := Function.update B.queue m (B.queue m ++ [B.current]) } := by
  have hc : B.current ∈ B.lists .ring := List.mem_cons_self
  have hcur : k.currentThread = B.current := h.ring.current
  have hcq : ∀ m', B.current ∉ B.lists (.queue m') := fun m' => h.place.notMem hc (by simp)
  obtain ⟨hq, hr⟩ := (h.queue m).enqueue (hcur ▸ hcq m) (hcur ▸ h.ne_zero hc)
  rw [hcur] at hq hr
  have hlinks : ∀ t, nextOf (k.enqueueBlocked m).threads t = nextOf k.threads t ∧
      prevOf (k.enqueueBlocked m).threads t = prevOf k.threads t := fun t =>
    ⟨congrArg (·.next) (hr.sans t), congrArg (·.prev) (hr.sans t)⟩
  have hstate : ∀ t, t ≠ B.current → ((k.enqueueBlocked m).threads t).state = (k.threads t).state := fun t ht => by
    rw [hr.state, if_neg ht]
  have hfields : (k.enqueueBlocked m).currentThread = k.currentThread ∧
      (k.enqueueBlocked m).readyListHead = k.readyListHead ∧
      (k.enqueueBlocked m).deadListHead = k.deadListHead := by
    rw [hr.eq]
    exact ⟨rfl, rfl, rfl⟩
  have hring : (k.enqueueBlocked m).ReadyRing B.current B.rest :=
    h.ring.congr hfields.1 hfields.2.1 (fun t _ => hlinks t) fun t ht => hstate t fun he => h.ring.notMem (he ▸ ht)
  have hblocked : ((k.enqueueBlocked m).threads B.current).state = .blocked := by rw [hr.state, if_pos rfl]
  have hnd : ((k.enqueueBlocked m).threads B.current).state ≠ .dead := by simp [hblocked]
  obtain ⟨X, Y, hrest, hhead, hsw⟩ :=
    handler_leaves hring (hfields.2.1.trans h.head) (.inr hblocked) hne hrun
  have hout : ∀ p, p ≠ .ring → ∀ t ∈ B.lists p, t ∉ B.current :: B.rest := fun p hp t ht => h.notMem_ring ht hp
  have hchain {a : ℕ} {l : List ℕ} (hl : Chain (nextOf k.threads) 0 a l) :
      Chain (nextOf (k.enqueueBlocked m).threads) 0 a l := hl.congr fun t _ => (hlinks t).1
  obtain ⟨B', hB'⟩ : ∃ B', B' = { B with current := B.successor, rest := Y ++ X, head := B.successor,
                                         queue := Function.update B.queue m (B.queue m ++ [B.current]) } := ⟨_, rfl⟩
  have hother : ∀ i, i ≠ .ring → i ≠ .queue m → B'.lists i = B.lists i := by
    intro i hi him
    rw [hB']
    cases i with
    | ring => exact absurd rfl hi
    | queue m' => exact Function.update_of_ne (fun he : m' = m => him (by rw [he])) ..
    | _ => rfl
  have hto : B'.lists (.queue m) = B.queue m ++ [B.current] := by
    rw [hB']
    exact Function.update_self ..
  have hplace : Partition B'.lists g.live := by
    refine Board.partition_leave (q := .queue m) h.place hrest (by simp) ?_ ?_ hother
    · rw [hB']
      rfl
    · rw [hto]
      exact List.perm_append_singleton ..
  have hcb : (k'.threads B.current).state = .blocked := by
    rw [hsw.left, if_pos (show (k.enqueueBlocked m).Leaves B.current from .inr hblocked), hblocked]
  refine ⟨X, Y, hrest, hsw, hB' ▸ ⟨hB' ▸ hsw.ring, ?_, ?_, hplace, h.null, ?_, fun s => ?_, fun m' => ?_,
    fun p t ht => ?_⟩⟩
  · rw [hB']
    exact hhead
  · rw [hB']
    exact .inl hsw.running
  · rw [hsw.deadHead, if_neg hnd, hfields.2.2, hB']
    exact hsw.chain (hchain h.dead) (hout .dead (by simp))
  · rw [hB']
    exact hsw.chain (hchain (h.cleaning s)) (hout (.cleaning s) (by simp))
  · have hqm' : (k.enqueueBlocked m).WaitQueue m' (B'.lists (.queue m')) := by
      by_cases hm : m' = m
      · rw [hm, hto]
        exact hq
      · have hne' : Place.queue m' ≠ .queue m := fun he => hm (Place.queue.inj he)
        rw [hother (.queue m') (by simp) hne']
        refine (h.queue m').congr (hr.mutexes m' hm) fun t ht => ?_
        have hfr := hr.frame t (by
          rw [List.mem_cons, not_or]
          exact ⟨fun he => hcq m' (he ▸ ht), h.place.notMem (i := .queue m') (j := .queue m) ht (Ne.symm hne')⟩)
        rw [hfr]
    exact hsw.waitQueue hqm'
  · by_cases hp : p = .ring
    · rw [hp]
      trivial
    · by_cases hpq : p = .queue m
      · subst hpq
        rw [hto] at ht
        rcases List.mem_append.mp ht with ht | ht
        · have htc : t ≠ B.current := fun he => hcq m (he ▸ ht)
          rw [hsw.frame t (hout (.queue m) hp t ht), hstate t htc]
          exact h.states (.queue m) t ht
        · rw [List.mem_singleton.mp ht]
          exact hcb
      · rw [hother p hp hpq] at ht
        have htc : t ≠ B.current := fun he => hout p hp t ht (he ▸ List.mem_cons_self)
        rw [hsw.frame t (hout p hp t ht), hstate t htc]
        exact h.states p t ht

/-- The current thread is marked dead, and is still in the ring. -/
theorem markDead (h : Tracks k g B) : Tracks k.markDead g B := by
  have hcur : k.currentThread = B.current := h.ring.current
  have hT (t : ℕ) : k.markDead.threads t =
      { k.threads t with state := if t = B.current then .dead else (k.threads t).state } := by
    rw [Kernel.markDead, Kernel.setThread_threads, hcur]
    split_ifs with ht
    · rw [ht]
    · rfl
  have hne : ∀ p, p ≠ .ring → ∀ t ∈ B.lists p, t ≠ B.current := fun p hp t ht he =>
    h.notMem_ring ht hp (he ▸ List.mem_cons_self)
  refine ⟨?_, h.head, .inr ?_, h.place, h.null, ?_, fun s => ?_, fun m => ?_, fun p t ht => ?_⟩
  · refine h.ring.congr rfl rfl (fun t _ => ?_) fun t ht => ?_
    · rw [nextOf, prevOf, hT]
      exact ⟨rfl, rfl⟩
    · rw [hT, if_neg fun he : t = B.current => h.ring.notMem (he ▸ ht)]
  · rw [hT, if_pos rfl]
  · exact h.dead.congr fun t _ => by rw [nextOf, hT]; rfl
  · exact (h.cleaning s).congr fun t _ => by rw [nextOf, hT]; rfl
  · exact (h.queue m).congr rfl fun t _ => by rw [hT]
  · by_cases hp : p = .ring
    · rw [hp]
      trivial
    · rw [hT, if_neg (hne p hp t ht)]
      exact h.states p t ht

/-- Only the flag of a mutex changes. -/
theorem setLocked (h : Tracks k g B) (m n : ℕ) : Tracks (k.setMutex m fun x => { x with locked := n }) g B := by
  have hm (m' : ℕ) : ((k.setMutex m fun x => { x with locked := n }).mutexes m').blockedHead =
        (k.mutexes m').blockedHead ∧
      ((k.setMutex m fun x => { x with locked := n }).mutexes m').blockedTail = (k.mutexes m').blockedTail := by
    simp only [Kernel.setMutex, Function.update_apply]
    split_ifs with he
    · rw [he]
      exact ⟨rfl, rfl⟩
    · exact ⟨rfl, rfl⟩
  refine ⟨⟨h.ring.ring, h.ring.current, h.ring.head, h.ring.null, h.ring.ready⟩, h.head, h.current, h.place, h.null,
    h.dead, h.cleaning, fun m' => ?_, h.states⟩
  obtain ⟨hq1, hq2, hq3, hq4⟩ := h.queue m'
  refine ⟨?_, ?_, hq3, hq4⟩
  · rw [(hm m').1]
    exact hq1
  · rw [(hm m').2]
    exact hq2

/-- The first thread of the queue is woken, and stands nowhere. -/
theorem wake (h : Tracks k g B) {m w : ℕ} {l : List ℕ} (hq : B.queue m = w :: l) :
    Tracks (k.mutexUnlock m) g
      { B with queue := Function.update B.queue m l, lost := w :: B.lost } := by
  obtain ⟨hq', hr⟩ := (hq ▸ h.queue m).unlock
  have hw : w ∈ B.lists (.queue m) := by
    rw [Board.lists, hq]
    exact List.mem_cons_self
  have hlinks : ∀ t, nextOf (k.mutexUnlock m).threads t = nextOf k.threads t ∧
      prevOf (k.mutexUnlock m).threads t = prevOf k.threads t := fun t =>
    ⟨congrArg (·.next) (hr.sans t), congrArg (·.prev) (hr.sans t)⟩
  have hwring := h.notMem_ring hw (by simp)
  have hstate : ∀ t, t ≠ w → ((k.mutexUnlock m).threads t).state = (k.threads t).state := fun t ht => by
    rw [hr.state, if_neg ht]
  have hfields : (k.mutexUnlock m).currentThread = k.currentThread ∧
      (k.mutexUnlock m).readyListHead = k.readyListHead ∧ (k.mutexUnlock m).deadListHead = k.deadListHead := by
    rw [hr.eq]
    exact ⟨rfl, rfl, rfl⟩
  have hring : (k.mutexUnlock m).ReadyRing B.current B.rest := by
    refine h.ring.congr hfields.1 hfields.2.1 (fun t _ => hlinks t) fun t ht => hstate t fun he => ?_
    exact hwring (he ▸ List.mem_cons_of_mem _ ht)
  refine ⟨hring, hfields.2.1.trans h.head, ?_, Board.partition_wake h.place hq, h.null, ?_, fun s => ?_,
    fun m' => ?_, fun p t ht => ?_⟩
  · rw [hstate B.current fun he => hwring (he ▸ List.mem_cons_self)]
    exact h.current
  · rw [hfields.2.2]
    exact h.dead.congr fun t _ => (hlinks t).1
  · exact (h.cleaning s).congr fun t _ => (hlinks t).1
  · by_cases hm : m' = m
    · simp only [hm, Function.update_self]
      exact hq'
    · simp only [Function.update_of_ne hm]
      have hne : Place.queue m' ≠ .queue m := fun he => hm (Place.queue.inj he)
      refine (h.queue m').congr (hr.mutexes m' hm) fun t ht => ?_
      rw [hr.frame t]
      rw [List.mem_singleton]
      rintro rfl
      exact h.place.notMem (i := .queue m) (j := .queue m') hw hne ht
  · have hother : ∀ p, p ≠ .queue m → ∀ t ∈ B.lists p, p.Holds ((k.mutexUnlock m).threads t).state := by
      intro p hp t ht
      rw [hstate t fun he => h.place.notMem hw hp (he ▸ ht)]
      exact h.states p t ht
    cases p with
    | queue m' =>
      by_cases hm : m' = m
      · subst hm
        simp only [Board.lists, Function.update_self] at ht
        have htw : t ≠ w := fun he => (List.nodup_cons.mp (hq ▸ (h.queue m').nodup)).1 (he ▸ ht)
        rw [hstate t htw]
        exact h.states (.queue m') t (by rw [Board.lists, hq]; exact List.mem_cons_of_mem _ ht)
      · simp only [Board.lists, Function.update_of_ne hm] at ht
        exact hother (.queue m') (fun he => hm (Place.queue.inj he)) t ht
    | lost =>
      rcases List.mem_cons.mp ht with rfl | ht
      · change ((k.mutexUnlock m).threads t).state = .ready
        rw [hr.state, if_pos rfl]
      · exact hother .lost (by simp) t ht
    | ring => trivial
    | dead => exact hother .dead (by simp) t ht
    | cleaning s => exact hother (.cleaning s) (by simp) t ht

/-- A cleanup takes the dead list. -/
theorem takeDead (h : Tracks k g B) {s : ℕ} (hs : g.cleaning s = 0) :
    B.cleaning s = [] ∧ Tracks k.takeDead.2 (g.setCleaning s k.takeDead.1)
      { B with dead := [], cleaning := Function.update B.cleaning s B.dead } := by
  have hempty : B.cleaning s = [] := by
    have hc := h.cleaning s
    rw [hs] at hc
    cases hl : B.cleaning s with
    | nil => rfl
    | cons t l =>
      rw [hl] at hc
      exact absurd hc.1.symm (h.ne_zero (p := .cleaning s) (by rw [Board.lists, hl]; exact List.mem_cons_self))
  refine ⟨hempty, ⟨h.ring.ring, h.ring.current, h.ring.head, h.ring.null, h.ring.ready⟩, h.head, h.current,
    Board.partition_take h.place hempty, h.null, rfl, fun s' => ?_, fun m => ?_, fun p t ht => ?_⟩
  · by_cases hss : s' = s
    · simp only [hss, Trace.setCleaning, Function.update_self]
      exact h.dead
    · simp only [Trace.setCleaning, Function.update_of_ne hss]
      exact h.cleaning s'
  · exact (h.queue m).congr rfl fun _ _ => rfl
  · cases p with
    | ring => trivial
    | dead => exact absurd ht List.not_mem_nil
    | cleaning s' =>
      by_cases hss : s' = s
      · simp only [hss, Board.lists, Function.update_self] at ht
        exact h.states .dead t ht
      · simp only [Board.lists, Function.update_of_ne hss] at ht
        exact h.states (.cleaning s') t ht
    | queue m => exact h.states (.queue m) t ht
    | lost => exact h.states .lost t ht

/-- A round of a cleanup destroys its first thread. -/
theorem cleanupRound (h : Tracks k g B) {s r : ℕ} (hs : g.cleaning s ≠ 0)
    (hrun : k.cleanupRound (g.cleaning s) = some (r, k')) :
    ∃ l, B.cleaning s = g.cleaning s :: l ∧ Tracks k' ((g.destroy (g.cleaning s)).setCleaning s r)
      { B with cleaning := Function.update B.cleaning s l } := by
  have hc := h.cleaning s
  cases hl : B.cleaning s with
  | nil =>
    rw [hl] at hc
    exact absurd hc hs
  | cons t l =>
    rw [hl] at hc
    obtain ⟨k₁, hk₁, heq⟩ := Option.map_eq_some_iff.mp hrun
    obtain ⟨rfl, rfl⟩ := Prod.mk.inj heq
    have hsame := Kernel.destroyThread_same hk₁
    have h₁ : Tracks k₁ g B := h.congr hsame rfl rfl
    rw [hc.1]
    refine ⟨l, rfl, ⟨h₁.ring, h₁.head, h₁.current, Board.partition_destroy h.place hl, ?_, h₁.dead, fun s' => ?_,
      h₁.queue, fun p u hu => ?_⟩⟩
    · exact fun h0 => h.null (List.mem_of_mem_filter h0)
    · by_cases hss : s' = s
      · simp only [hss, Trace.setCleaning, Function.update_self, hsame.threads]
        exact hc.2
      · simp only [Trace.setCleaning, Function.update_of_ne hss]
        exact h₁.cleaning s'
    · cases p with
      | ring => trivial
      | cleaning s' =>
        by_cases hss : s' = s
        · simp only [hss, Board.lists, Function.update_self] at hu
          exact h₁.states (.cleaning s) u (by rw [Board.lists, hl]; exact List.mem_cons_of_mem _ hu)
        · simp only [Board.lists, Function.update_of_ne hss] at hu
          exact h₁.states (.cleaning s') u hu
      | dead => exact h₁.states .dead u hu
      | queue m => exact h₁.states (.queue m) u hu
      | lost => exact h₁.states .lost u hu

end Tracks

/-! ## A call moves the board -/

/-- What a call did on the board, and what was recorded of it. -/
inductive Recorded (k : Kernel) (g : Trace) (B : Board) : Call → Move → Trace → Prop
  | stay (c : Call) (owner : ℕ → ℕ) (hc : ∀ rsp, c ≠ .exit rsp) : Recorded k g B c .stay { g with owner := owner }
  | exitAlone (rsp : ℕ) (hrest : B.rest = []) : Recorded k g B (.exit rsp) .stay (g.exit B.current)
  | create (c : Call) (t : ℕ) (ht : t ∉ g.live) : Recorded k g B c (.create t) (g.create t)
  | turn (rsp : ℕ) : Recorded k g B (.tick rsp) .turn g
  | exit (rsp : ℕ) : Recorded k g B (.exit rsp) .bury
      { g.exit B.current with buried := g.serial B.current :: g.buried }
  | bury (rsp : ℕ) (hd : (k.threads B.current).state = .dead) : Recorded k g B (.tick rsp) .bury
      { g with buried := g.serial B.current :: g.buried }
  | block (m rsp : ℕ) (hl : (k.mutexes m).locked ≠ 0) : Recorded k g B (.lock m rsp) (.block m) g
  | wake (m : ℕ) (owner : ℕ → ℕ) (hw : (k.mutexes m).blockedHead ≠ 0) :
      Recorded k g B (.unlock m) (.wake m) { g with owner := owner }
  | take (s t : ℕ) : Recorded k g B .takeDead (.take s) (g.setCleaning s t)
  | destroy (s t r : ℕ) (l : List ℕ) (hs : B.cleaning s = t :: l) :
      Recorded k g B .cleanupRound (.destroy s) ((g.destroy t).setCleaning s r)

/-- The thread `u` is running, and where the call entered `scheduler_handler` it could go on. -/
structure Resumes (k : Kernel) (c : Call) (k' : Kernel) (u : ℕ) : Prop where
  running : (k'.threads u).state = .running
  picked : ∀ k₁ rsp, c.handlerEntry k = some (k₁, rsp) →
    (k₁.threads u).state = .ready ∨ (k₁.threads u).state = .running

/-- The call leads from one board to another. -/
structure Followed (k : Kernel) (g : Trace) (B : Board) (c : Call) (k' : Kernel) (g' : Trace) : Prop where
  moved : ∃ mv B', B.Moves mv B' ∧ Tracks k' g' B' ∧ Recorded k g B c mv g' ∧
    ((k.threads B.current).state = .running → (∀ rsp, c = .exit rsp → B.rest ≠ []) → Resumes k c k' B'.current)

namespace Tracks
variable {img : Image} {k k' : Kernel} {g g' : Trace} {B : Board}

theorem followed_same (h : Tracks k g B) (c : Call) (hc : ∀ rsp, c ≠ .exit rsp)
    (hentry : ∀ k₁ rsp, c.handlerEntry k = some (k₁, rsp) → k₁ = k) (hs : k.SameSched k') : Followed k g B c k' g :=
  ⟨.stay, B, .stay, h.congr hs rfl rfl, .stay c g.owner hc, fun hr _ =>
    ⟨hs.threads ▸ hr, fun k₁ rsp he => .inr (by rw [hentry k₁ rsp he]; exact hr)⟩⟩

theorem followed_adds (h : Tracks k g B) {t r : ℕ} (c : Call) (hc : ∀ rsp, c ≠ .exit rsp)
    (hentry : c.handlerEntry k = none) (hadd : k.Adds t r k') (hfresh : r ≠ 0 → r ∉ g.live) :
    Followed k g B c k' (g.record r) := by
  have hno : ∀ k₁ rsp, c.handlerEntry k ≠ some (k₁, rsp) := fun k₁ rsp he => by
    rw [hentry] at he
    exact nomatch he
  rcases hadd with ⟨rfl, hs⟩ | ⟨rfl, h0, k₁, x, hs, hx, -, rfl⟩
  · exact h.followed_same c hc (fun k₁ rsp he => absurd he (hno k₁ rsp)) hs
  · have ht := hfresh h0
    obtain ⟨X, Y, hrest, hhead, hstate, htr⟩ := h.create hs hx ht h0
    rw [Trace.record, if_neg h0]
    exact ⟨.create r, _, .create hrest hhead, htr, .create c r ht, fun hr _ =>
      ⟨hstate.trans hr, fun k₂ rsp he => absurd he (hno k₂ rsp)⟩⟩

/-- The dead list starts at a thread outside the ring. -/
theorem deadListHead_ne (h : Tracks k g B) : k.deadListHead ≠ B.current := by
  have hc : B.current ∈ B.lists .ring := List.mem_cons_self
  have hchain := h.dead
  cases hdead : B.dead with
  | nil =>
    rw [hdead] at hchain
    have h0 : k.deadListHead = 0 := hchain
    exact h0 ▸ (h.ne_zero hc).symm
  | cons t l =>
    rw [hdead] at hchain
    have ht : t ∈ B.lists .dead := by
      rw [Board.lists, hdead]
      exact List.mem_cons_self
    exact fun he => h.notMem_ring ht (by simp) (hchain.1 ▸ he ▸ List.mem_cons_self)

/-- The handler put the current thread at the front of the dead list. -/
theorem handled_dead (h : Tracks k g B) (hk : k'.deadListHead = B.current) :
    g.handled k k' = { g with buried := g.serial B.current :: g.buried } := by
  rw [Trace.handled, hk, if_neg h.deadListHead_ne.symm]

theorem followed_tick (h : Tracks k g B) {rsp r : ℕ} (hrun : k.schedulerHandler rsp = some (r, k')) :
    Followed k g B (.tick rsp) k' (g.handled k k') := by
  have hst : ∀ rsp', Call.tick rsp ≠ .exit rsp' := nofun
  have hentry : ∀ k₁ rsp', Call.handlerEntry k (.tick rsp) = some (k₁, rsp') → k₁ = k := fun k₁ rsp' he =>
    (Prod.mk.inj (Option.some.inj he)).1.symm
  rcases h.current with hcur | hcur
  · have hl : ¬k.Leaves B.current := by
      rw [Kernel.Leaves, hcur]
      simp
    rcases h.handler_stays hl hrun with ⟨-, rfl⟩ | ⟨u, Y, hrest, htr, hsw⟩
    · rw [Trace.handled, if_pos rfl]
      exact h.followed_same _ hst hentry (.refl _)
    · have hkept : k'.deadListHead = k.deadListHead := by
        rw [hsw.deadHead, if_neg (by simp [hcur])]
      rw [Trace.handled, if_pos hkept]
      exact ⟨.turn, _, .turn hrest, htr, .turn rsp, fun _ _ =>
        ⟨hsw.running, fun k₁ rsp' he => .inl (by rw [hentry k₁ rsp' he]; exact hsw.picked.2)⟩⟩
  · by_cases hrest : B.rest = []
    · rw [Kernel.schedulerHandler, if_pos (h.ring.noOther_iff.mpr hrest)] at hrun
      obtain ⟨-, rfl⟩ := Prod.mk.inj (Option.some.inj hrun)
      rw [Trace.handled, if_pos rfl]
      exact h.followed_same _ hst hentry (.refl _)
    · obtain ⟨X, Y, hXY, hsw, htr⟩ := h.bury hcur hrest hrun
      rw [h.handled_dead (by rw [hsw.deadHead, if_pos hcur])]
      exact ⟨.bury, _, .bury hXY, htr.congr (.refl _) rfl rfl, .bury rsp hcur, fun _ _ =>
        ⟨hsw.running, fun k₁ rsp' he => .inl (by rw [hentry k₁ rsp' he]; exact hsw.picked.2)⟩⟩

theorem followed_exit (h : Tracks k g B) {rsp r : ℕ} (hrun : k.threadExit rsp = some (r, k')) :
    Followed k g B (.exit rsp) k' ((g.exit k.currentThread).handled k k') := by
  have hd := h.markDead
  have hdead : (k.markDead.threads B.current).state = .dead := by
    rw [Kernel.markDead, Kernel.setThread_threads, h.ring.current, if_pos rfl]
  have htr : Tracks k.markDead (g.exit B.current) B := hd.congr (.refl _) rfl rfl
  rw [h.ring.current]
  by_cases hrest : B.rest = []
  · rw [Kernel.threadExit, Kernel.schedulerHandler, if_pos (hd.ring.noOther_iff.mpr hrest)] at hrun
    obtain ⟨-, rfl⟩ := Prod.mk.inj (Option.some.inj hrun)
    have hkept : k.markDead.deadListHead = k.deadListHead := rfl
    rw [Trace.handled, if_pos hkept]
    exact ⟨.stay, B, .stay, htr, .exitAlone rsp hrest, fun _ hne => absurd hrest (hne rsp rfl)⟩
  · obtain ⟨X, Y, hXY, hsw, htr'⟩ := htr.bury hdead hrest hrun
    have hburied : (g.exit B.current).handled k k' =
        { g.exit B.current with buried := g.serial B.current :: g.buried } :=
      htr.handled_dead (by rw [hsw.deadHead, if_pos hdead])
    rw [hburied]
    refine ⟨.bury, _, .bury hXY, htr'.congr (.refl _) rfl rfl, .exit rsp, fun _ _ =>
      ⟨hsw.running, fun k₁ rsp' he => .inl ?_⟩⟩
    rw [← (Prod.mk.inj (Option.some.inj he)).1]
    exact hsw.picked.2

theorem followed_lock (h : Tracks k g B) {m rsp r : ℕ} (hne : (k.mutexes m).locked ≠ 0 → B.rest ≠ [])
    (hrun : k.mutexLock m rsp = some (r, k')) :
    Followed k g B (.lock m rsp) k'
      (if (k.mutexes m).locked = 0 then g.setOwner m k.currentThread else g.handled k k') := by
  by_cases hl : (k.mutexes m).locked = 0
  · have hsec : k.lockSection m = (true, k.setMutex m fun x => { x with locked := 1 }) := if_pos hl
    rw [Kernel.mutexLock, hsec] at hrun
    obtain ⟨-, rfl⟩ := Prod.mk.inj (Option.some.inj hrun)
    rw [if_pos hl]
    refine ⟨.stay, B, .stay, (h.setLocked m 1).congr (.refl _) rfl rfl, .stay _ _ nofun, fun hr _ =>
      ⟨hr, fun k₁ rsp' he => ?_⟩⟩
    rw [Call.handlerEntry, if_pos hl] at he
    exact nomatch he
  · have hsec : k.lockSection m = (false, k.enqueueBlocked m) := if_neg hl
    rw [Kernel.mutexLock, hsec] at hrun
    rw [if_neg hl]
    obtain ⟨X, Y, hXY, hsw, htr⟩ := h.block (hne hl) hrun
    have hkept : k'.deadListHead = k.deadListHead := by
      have hc : B.current ∈ B.lists .ring := List.mem_cons_self
      have hcur : k.currentThread = B.current := h.ring.current
      have hcq : B.current ∉ B.lists (.queue m) := h.place.notMem hc (by simp)
      obtain ⟨-, hr⟩ := (h.queue m).enqueue (hcur ▸ hcq) (hcur ▸ h.ne_zero hc)
      have hblocked : ((k.enqueueBlocked m).threads B.current).state = .blocked := by
        rw [hr.state, if_pos hcur.symm]
      rw [hsw.deadHead, if_neg (by simp [hblocked]), hr.eq]
    rw [Trace.handled, if_pos hkept]
    refine ⟨.block m, _, .block hXY, htr, .block m rsp hl, fun _ _ => ⟨hsw.running, fun k₁ rsp' he => .inl ?_⟩⟩
    rw [Call.handlerEntry, if_neg hl] at he
    rw [← (Prod.mk.inj (Option.some.inj he)).1]
    exact hsw.picked.2

theorem followed_unlock (h : Tracks k g B) (m : ℕ) :
    Followed k g B (.unlock m) (k.mutexUnlock m) (g.setOwner m (k.mutexes m).blockedHead) := by
  have hq := h.queue m
  cases hB : B.queue m with
  | nil =>
    have hhead := hq.head_eq_zero_iff.mpr hB
    have heq : k.mutexUnlock m = k.setMutex m fun x => { x with locked := 0 } := if_pos hhead
    rw [heq]
    exact ⟨.stay, B, .stay, (h.setLocked m 0).congr (.refl _) rfl rfl, .stay _ _ nofun, fun hr _ =>
      ⟨hr, nofun⟩⟩
  | cons w l =>
    have hhead : (k.mutexes m).blockedHead ≠ 0 := fun he => by
      rw [hq.head_eq_zero_iff.mp he] at hB
      exact nomatch hB
    obtain ⟨-, hr⟩ := (hB ▸ hq).unlock
    have hw : w ∈ B.lists (.queue m) := by
      rw [Board.lists, hB]
      exact List.mem_cons_self
    have hne : B.current ≠ w := fun he => h.notMem_ring hw (by simp) (he ▸ List.mem_cons_self)
    refine ⟨.wake m, _, .wake hB, (h.wake hB).congr (.refl _) rfl rfl, .wake m _ hhead, fun hrun _ => ⟨?_, nofun⟩⟩
    rw [hr.state, if_neg hne]
    exact hrun

/-- The calls of the kernel follow the moves of the board. -/
theorem run (h : Tracks k g B) {c : Call} (hc : c.Proper k g)
    (hlock : ∀ m rsp, c = .lock m rsp → (k.mutexes m).locked ≠ 0 → B.rest ≠ [])
    (hrun : c.run img k g = some (k', g')) : Followed k g B c k' g' := by
  cases c with
  | createThread t info entry size =>
    have hadd := Kernel.createThread_adds img k t info entry size
    simp only [Call.run] at hrun
    generalize k.createThread img t info entry size = p at hrun hadd
    obtain ⟨rfl, rfl⟩ := Prod.mk.inj (Option.some.inj hrun)
    exact h.followed_adds _ nofun rfl hadd fun h0 => (hadd.eq_of_ne h0).symm ▸ hc
  | createUserThread proc t info usInfo entry ksize usize =>
    obtain ⟨⟨r, k₁⟩, hk₁, heq⟩ := Option.map_eq_some_iff.mp hrun
    obtain ⟨rfl, rfl⟩ := Prod.mk.inj heq
    have hadd := Kernel.createUserThread_adds hk₁
    exact h.followed_adds _ nofun rfl hadd fun h0 => (hadd.eq_of_ne h0).symm ▸ hc
  | createUserProcess p =>
    obtain ⟨rfl, rfl⟩ := Prod.mk.inj (Option.some.inj hrun)
    exact h.followed_same _ nofun nofun (Kernel.createUserProcess_same p)
  | tick rsp =>
    obtain ⟨⟨r, k₁⟩, hk₁, heq⟩ := Option.map_eq_some_iff.mp hrun
    obtain ⟨rfl, rfl⟩ := Prod.mk.inj heq
    exact h.followed_tick hk₁
  | exit rsp =>
    obtain ⟨⟨r, k₁⟩, hk₁, heq⟩ := Option.map_eq_some_iff.mp hrun
    obtain ⟨rfl, rfl⟩ := Prod.mk.inj heq
    exact h.followed_exit hk₁
  | lock m rsp =>
    obtain ⟨⟨r, k₁⟩, hk₁, heq⟩ := Option.map_eq_some_iff.mp hrun
    obtain ⟨rfl, rfl⟩ := Prod.mk.inj heq
    exact h.followed_lock (hlock m rsp rfl) hk₁
  | unlock m =>
    obtain ⟨rfl, rfl⟩ := Prod.mk.inj (Option.some.inj hrun)
    exact h.followed_unlock m
  | takeDead =>
    obtain ⟨rfl, rfl⟩ := Prod.mk.inj (Option.some.inj hrun)
    obtain ⟨hs, htr⟩ := h.takeDead hc
    exact ⟨_, _, .take hs, htr, .take .., fun hr _ => ⟨hr, nofun⟩⟩
  | cleanupRound =>
    obtain ⟨⟨r, k₁⟩, hk₁, heq⟩ := Option.map_eq_some_iff.mp hrun
    obtain ⟨rfl, rfl⟩ := Prod.mk.inj heq
    obtain ⟨l, hl, htr⟩ := h.cleanupRound hc hk₁
    obtain ⟨k₂, hk₂, heq₂⟩ := Option.map_eq_some_iff.mp hk₁
    obtain ⟨-, rfl⟩ := Prod.mk.inj heq₂
    exact ⟨_, _, .destroy hl, htr, .destroy _ _ r l hl, fun hr _ =>
      ⟨(Kernel.destroyThread_same hk₂).threads ▸ hr, nofun⟩⟩

end Tracks
end PointerOS
