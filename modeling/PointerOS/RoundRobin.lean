import PointerOS.LostThreads

/-!
# Turns

A preempted thread is followed by the next one of the ring, a thread that exits or blocks by the
head of the ring. The threads get their turns one after the other as long as the head is the next
one then. Otherwise the threads up to the head are passed over.
-/
namespace PointerOS
open LinkedList

/-- The states from `k` on, the latest one first. -/
inductive Stretch (img : Image) (Ok : Kernel → Trace → Call → Prop) (k : Kernel) (g : Trace) :
    List Kernel → Kernel → Trace → Prop
  | start : Stretch img Ok k g [k] k g
  | step {seen : List Kernel} {k' k'' : Kernel} {g' g'' : Trace} (h : Stretch img Ok k g seen k' g') (c : Call)
      (hc : c.Proper k' g') (hok : Ok k' g' c) (hrun : c.run img k' g' = some (k'', g'')) :
      Stretch img Ok k g (k'' :: seen) k'' g''

/-- The thread is in the ring, and it can run. -/
def Kernel.Waits (k : Kernel) (u : ℕ) : Prop :=
  Linked (nextOf k.threads) 0 k.readyListHead u ∧
    ((k.threads u).state = .ready ∨ (k.threads u).state = .running)

/-- When the current thread of `k` has the processor again after another one had it, every thread
that was in the ring all along had it as well. -/
def TakesTurns (k : Kernel) (g : Trace) (seen : List Kernel) (k' : Kernel) (g' : Trace) : Prop :=
  k'.currentThread = k.currentThread → g'.serial k'.currentThread = g.serial k.currentThread →
    (∃ s ∈ seen, s.currentThread ≠ k.currentThread) →
      ∀ u, (∀ s ∈ seen, s.Waits u) → ∃ s ∈ seen, s.currentThread = u

/-- The ring has two threads. -/
def RingOfTwo (k : Kernel) (_ : Trace) (_ : Call) : Prop := ¬k.NoOther

/-- The current thread is the first one of the ring or the last one. -/
def Kernel.AtEnd (k : Kernel) : Prop :=
  k.readyListHead = k.currentThread ∨ (k.threads k.currentThread).next = k.readyListHead

/-- A thread that exits or has to wait is the first one of the ring or the last one. -/
def LeavesAtEnd (k : Kernel) : Call → Prop
  | .exit _ => k.AtEnd
  | .lock m _ => (k.mutexes m).locked = 0 ∨ k.AtEnd
  | _ => True

def InTurn (k : Kernel) (g : Trace) (c : Call) : Prop := RingOfTwo k g c ∧ LeavesAtEnd k c

instance (k : Kernel) (g : Trace) (c : Call) : Decidable (RingOfTwo k g c) :=
  inferInstanceAs (Decidable ¬k.NoOther)

instance (k : Kernel) : Decidable k.AtEnd :=
  inferInstanceAs (Decidable (k.readyListHead = k.currentThread ∨ (k.threads k.currentThread).next = k.readyListHead))

instance (k : Kernel) (c : Call) : Decidable (LeavesAtEnd k c) :=
  match c with
  | .exit _ => inferInstanceAs (Decidable k.AtEnd)
  | .lock m _ => inferInstanceAs (Decidable ((k.mutexes m).locked = 0 ∨ k.AtEnd))
  | .createThread _ _ _ _ | .createUserThread _ _ _ _ _ _ _ | .createUserProcess _ | .tick _ | .unlock _
  | .takeDead | .cleanupRound => inferInstanceAs (Decidable True)

instance (k : Kernel) (g : Trace) (c : Call) : Decidable (InTurn k g c) :=
  inferInstanceAs (Decidable (RingOfTwo k g c ∧ LeavesAtEnd k c))

/-- The stretch of the calls, with the latest states in front of `seen`. -/
def Call.trail (img : Image) (Ok : Kernel → Trace → Call → Prop) [∀ k g c, Decidable (Ok k g c)] :
    List Call → List Kernel → Kernel → Trace → Option (List Kernel × Kernel × Trace)
  | [], seen, k, g => some (seen, k, g)
  | c :: cs, seen, k, g =>
    if c.Proper k g ∧ Ok k g c then
      (c.run img k g).bind fun p => trail img Ok cs (p.1 :: seen) p.1 p.2
    else none

theorem Stretch.trail {img : Image} {Ok : Kernel → Trace → Call → Prop} [∀ k g c, Decidable (Ok k g c)]
    {k k' k'' : Kernel} {g g' g'' : Trace} {seen seen' : List Kernel} {cs : List Call}
    (h : Stretch img Ok k g seen k' g') (hrun : Call.trail img Ok cs seen k' g' = some (seen', k'', g'')) :
    Stretch img Ok k g seen' k'' g'' := by
  induction cs generalizing seen k' g' with
  | nil =>
    simp only [Call.trail, Option.some.injEq, Prod.mk.injEq] at hrun
    obtain ⟨rfl, rfl, rfl⟩ := hrun
    exact h
  | cons c cs ih =>
    rw [Call.trail] at hrun
    split_ifs at hrun with hc
    obtain ⟨⟨k₁, g₁⟩, hk₁, hrest⟩ := Option.bind_eq_some_iff.mp hrun
    exact ih (h.step c hc.1 hc.2 hk₁) hrest

section Board
variable {img : Image} {b : Kernel.BootPointers} {k k' : Kernel} {g g' : Trace} {B B' : Board} {t u n : ℕ}
  {seen : List Kernel}

/-- What a run with two threads in the ring preserves. -/
structure Busy (k : Kernel) (g : Trace) (B : Board) : Prop where
  tracks : Tracks k g B
  running : (k.threads B.current).state = .running
  accounts : Accounts g B

theorem Busy.step (h : Busy k g B) {c : Call} (hc : c.Proper k g) (hok : RingOfTwo k g c)
    (hrun : c.run img k g = some (k', g')) :
    ∃ mv B', B.Moves mv B' ∧ Busy k' g' B' ∧ Recorded k g B c mv g' := by
  have hrest : B.rest ≠ [] := fun he => hok (h.tracks.ring.noOther_iff.mpr he)
  obtain ⟨mv, B', hmove, htr, hrec, hres⟩ := (h.tracks.run hc (fun _ _ _ _ => hrest) hrun).moved
  exact ⟨mv, B', hmove, ⟨htr, (hres h.running fun _ _ => hrest).running,
    h.accounts.step h.tracks.place hmove hrec h.running fun _ _ => hrest⟩, hrec⟩

theorem SchedulerRun.busy {Ok : Kernel → Trace → Call → Prop} (hOk : ∀ k g c, Ok k g c → RingOfTwo k g c)
    (h : SchedulerRun img b Ok k g) : ∃ B, Busy k g B := by
  induction h with
  | init hb =>
    obtain ⟨B, hB⟩ := hb.steady
    exact ⟨B, hB.tracks, hB.running, hB.accounts⟩
  | step _ c hc hok hrun ih =>
    obtain ⟨B, hB⟩ := ih
    obtain ⟨-, B', -, hB', -⟩ := hB.step hc (hOk _ _ c hok) hrun
    exact ⟨B', hB'⟩

/-- What a call does to the ring, listed from the current thread on. -/
inductive Passes (B B' : Board) : Prop
  | stays (hc : B'.current = B.current) (hr : B.rest.Sublist B'.rest)
  | turns (v : ℕ) (Y : List ℕ) (hrest : B.rest = v :: Y) (hc : B'.current = v) (hr : B'.rest = Y ++ [B.current])
  | leaves (v : ℕ) (Y : List ℕ) (hrest : B.rest = v :: Y) (hc : B'.current = v) (hr : B'.rest = Y)

/-- At an end of the ring, the thread that follows one that leaves is the next one. -/
theorem Tracks.successor_eq (h : Tracks k g B) (hend : k.AtEnd) : B.successor = B.rest.headD 0 := by
  unfold Board.successor
  split_ifs with hhead
  · rfl
  · rw [Kernel.AtEnd, h.ring.current, h.head] at hend
    have hnext : B.head = B.rest.headD B.current := (hend.resolve_left hhead).symm.trans h.ring.ring.links.1
    rw [hnext] at hhead ⊢
    cases hrest : B.rest with
    | nil => exact absurd (by rw [hrest]; rfl) hhead
    | cons v Y => rfl

theorem Tracks.passes_leave (h : Tracks k g B) (hend : k.AtEnd) {X Y : List ℕ}
    (hrest : B.rest = X ++ B.successor :: Y) (hc : B'.current = B.successor) (hr : B'.rest = Y ++ X) :
    Passes B B' := by
  have hnodup := (List.nodup_cons.mp h.ring.ring.nodup).2
  rw [h.successor_eq hend] at hrest hc
  cases X with
  | nil => exact .leaves _ Y hrest hc (hr.trans (List.append_nil Y))
  | cons v X =>
    -- the successor would be in the ring twice
    rw [hrest] at hnodup
    have hv : B.rest.headD 0 = v := by rw [hrest]; rfl
    rw [hv] at hnodup
    exact absurd (List.mem_append_right X List.mem_cons_self) (List.nodup_cons.mp hnodup).1

theorem Busy.passes (h : Busy k g B) {c : Call} {mv : Move} (hmove : B.Moves mv B')
    (hrec : Recorded k g B c mv g') (hend : LeavesAtEnd k c) : Passes B B' := by
  cases hmove with
  | create hrest _ =>
    refine .stays rfl ?_
    rw [hrest]
    exact List.Sublist.append_left (List.sublist_cons_self _ _) _
  | turn hrest => exact .turns _ _ hrest rfl rfl
  | bury hrest =>
    have he : k.AtEnd := by
      cases hrec with
      | exit rsp => exact hend
      | bury rsp hd =>
        rw [h.running] at hd
        exact absurd hd (by simp)
    exact h.tracks.passes_leave he hrest rfl rfl
  | block hrest =>
    have he : k.AtEnd := by
      cases hrec with
      | block m rsp hl => exact hend.resolve_left hl
    exact h.tracks.passes_leave he hrest rfl rfl
  | _ => exact .stays rfl (List.Sublist.refl _)

/-- Only a creation brings a thread into the ring. -/
theorem Board.Moves.ring_sub {mv : Move} (h : B.Moves mv B') {a : ℕ} (ha : a ∈ B'.current :: B'.rest) :
    a ∈ B.current :: B.rest ∨ mv = .create a := by
  cases h with
  | create hrest _ =>
    rw [hrest]
    simp only [List.mem_cons, List.mem_append, Move.create.injEq] at ha ⊢
    tauto
  | turn hrest =>
    rw [hrest]
    simp only [List.mem_cons, List.mem_append, List.not_mem_nil] at ha ⊢
    tauto
  | bury hrest =>
    rw [hrest]
    simp only [List.mem_cons, List.mem_append] at ha ⊢
    tauto
  | block hrest =>
    rw [hrest]
    simp only [List.mem_cons, List.mem_append] at ha ⊢
    tauto
  | _ => exact .inl ha

/-- Only a creation gives a number, which is new. -/
theorem Recorded.serial {c : Call} {mv : Move} (h : Recorded k g B c mv g') :
    g.created ≤ g'.created ∧ (∀ a ∈ g.live, g'.serial a = g.serial a) ∧
      (∀ a, g'.serial a = g.serial a ∨ g'.serial a = g.created) ∧ ∀ a, mv = .create a → g'.serial a = g.created := by
  cases h with
  | create _ t ht =>
    have hold : ∀ a, a ≠ t → (g.create t).serial a = g.serial a := fun a ha => Function.update_of_ne ha ..
    have hnew : (g.create t).serial t = g.created := Function.update_self ..
    refine ⟨Nat.le_succ _, fun a ha => hold a fun he => ht (he ▸ ha), fun a => ?_, ?_⟩
    · by_cases hat : a = t
      · exact .inr (hat ▸ hnew)
      · exact .inl (hold a hat)
    · rintro a ⟨⟩
      exact hnew
  | _ => exact ⟨le_refl _, fun _ _ => rfl, fun _ => .inl rfl, nofun⟩

/-- How far the turns have come since the thread `t` with the number `n` had the processor. -/
inductive Progress (t n u : ℕ) (seen : List Kernel) (g : Trace) (B : Board) : Prop
  | still (ht : B.current = t) (hn : g.serial t = n) (hseen : ∀ s ∈ seen, s.currentThread = t)
  | before (hu : [u, t].Sublist B.rest) (hn : g.serial t = n)
  | had (hu : ∃ s ∈ seen, s.currentThread = u)
  | gone (hn : t ∈ B.current :: B.rest → n < g.serial t)

theorem Progress.step {c : Call} {mv : Move} (h : Progress t n u seen g B) (hu : u ≠ t) (hB : Tracks k g B)
    (htr : Tracks k' g' B') (hmove : B.Moves mv B') (hpass : Passes B B') (hrec : Recorded k g B c mv g')
    (hn : n < g.created) (hring : u ∈ B'.current :: B'.rest) : Progress t n u (k' :: seen) g' B' := by
  obtain ⟨-, hlive, hserial, hnew⟩ := hrec.serial
  have htlive : ∀ t ∈ B.current :: B.rest, t ∈ g.live := fun t ht => hB.mem_live (p := .ring) ht
  have hcur := htr.ring.current
  have hnow : B'.current = u → Progress t n u (k' :: seen) g' B' := fun he =>
    .had ⟨k', List.mem_cons_self, hcur.trans he⟩
  cases h with
  | still ht hnt hseen =>
    have hnt' : g'.serial t = n := (hlive t (htlive t (ht ▸ List.mem_cons_self))).trans hnt
    cases hpass with
    | stays hc hr =>
      refine .still (hc.trans ht) hnt' fun s hs => ?_
      rcases List.mem_cons.mp hs with rfl | hs
      · exact hcur.trans (hc.trans ht)
      · exact hseen s hs
    | turns v Y hrest hc hr =>
      by_cases hv : v = u
      · exact hnow (hc.trans hv)
      · rw [hc, hr, ht] at hring
        have huY : u ∈ Y := by
          simp only [List.mem_cons, List.mem_append, List.not_mem_nil, or_false] at hring
          tauto
        refine .before ?_ hnt'
        rw [hr, ht]
        exact (List.singleton_sublist.mpr huY).append (List.Sublist.refl [t])
    | leaves v Y hrest hc hr =>
      refine .gone fun hmem => ?_
      rw [hc, hr, ← hrest, ← ht] at hmem
      exact absurd hmem hB.ring.notMem
  | before hsub hnt =>
    have ht : t ∈ B.current :: B.rest := List.mem_cons_of_mem _ (hsub.subset (by simp))
    have hnt' : g'.serial t = n := (hlive t (htlive t ht)).trans hnt
    cases hpass with
    | stays hc hr => exact .before (hsub.trans hr) hnt'
    | turns v Y hrest hc hr =>
      rw [hrest, List.sublist_cons_iff] at hsub
      rcases hsub with hsub | ⟨r, hr', -⟩
      · refine .before ?_ hnt'
        rw [hr]
        exact hsub.trans (List.sublist_append_left Y _)
      · exact hnow (hc.trans (List.cons.inj hr').1.symm)
    | leaves v Y hrest hc hr =>
      rw [hrest, List.sublist_cons_iff] at hsub
      rcases hsub with hsub | ⟨r, hr', -⟩
      · exact .before (hr ▸ hsub) hnt'
      · exact hnow (hc.trans (List.cons.inj hr').1.symm)
  | had hs =>
    obtain ⟨s, hs, hsu⟩ := hs
    exact .had ⟨s, List.mem_cons_of_mem _ hs, hsu⟩
  | gone hgone =>
    refine .gone fun hmem => ?_
    rcases hmove.ring_sub hmem with hold | hcreate
    · rcases hserial t with he | he
      · exact he ▸ hgone hold
      · exact he ▸ hn
    · exact hnew t hcreate ▸ hn

/-- The turns have come to every thread of the ring when the first one has the processor again. -/
theorem Stretch.progress {B : Board} (h : Busy k g B) (hs : Stretch img InTurn k g seen k' g') (hu : u ≠ B.current)
    (hw : ∀ s ∈ seen, s.Waits u) :
    ∃ B', Busy k' g' B' ∧ g.serial B.current < g'.created ∧
      Progress B.current (g.serial B.current) u seen g' B' := by
  induction hs with
  | start =>
    refine ⟨B, h, h.accounts.lt _ (h.tracks.mem_live (p := .ring) List.mem_cons_self), .still rfl rfl fun s hs => ?_⟩
    rw [List.mem_singleton.mp hs]
    exact h.tracks.ring.current
  | step hst c hc hok hrun ih =>
    obtain ⟨B₁, hB₁, hlt, hprog⟩ := ih fun s hs => hw s (List.mem_cons_of_mem _ hs)
    obtain ⟨mv, B₂, hmove, hB₂, hrec⟩ := hB₁.step hc hok.1 hrun
    have hring := (hB₂.tracks.has_iff .ready).mp (hw _ List.mem_cons_self).1
    have hpass := hB₁.passes hmove hrec hok.2
    exact ⟨B₂, hB₂, hlt.trans_le hrec.serial.1,
      hprog.step hu hB₁.tracks hB₂.tracks hmove hpass hrec hlt hring⟩

/-- Every thread of the ring gets its turn in a run in which those that leave the ring are at an end
of it. -/
theorem takesTurns_of_inTurn (h : SchedulerRun img b InTurn k g) (hs : Stretch img InTurn k g seen k' g') :
    TakesTurns k g seen k' g' := by
  intro hback hserial hleft u hw
  obtain ⟨B, hB⟩ := h.busy fun _ _ _ hok => hok.1
  have hcur := hB.tracks.ring.current
  by_cases hu : u = B.current
  · have hk : k ∈ seen := by
      clear hback hserial hleft hw
      induction hs with
      | start => exact List.mem_singleton_self k
      | step _ _ _ _ _ ih => exact List.mem_cons_of_mem _ ih
    exact ⟨k, hk, hcur.trans hu.symm⟩
  · obtain ⟨B', hB', -, hprog⟩ := hs.progress hB hu hw
    have hcur' := hB'.tracks.ring.current
    rw [hcur] at hback hserial hleft
    rw [hback] at hserial hcur'
    cases hprog with
    | still _ _ hseen =>
      obtain ⟨s, hs, hne⟩ := hleft
      exact absurd (hseen s hs) hne
    | before hsub _ =>
      exact absurd (hcur' ▸ hsub.subset (by simp)) hB'.tracks.ring.notMem
    | had hu => exact hu
    | gone hgone => exact absurd (hgone (hcur' ▸ List.mem_cons_self)) (hserial ▸ lt_irrefl _)

end Board

/-- Every thread of the boot gets its turn, and the last one exits. -/
theorem takesTurns_of_inTurn_boot : ∃ k g seen k' g', TakesTurns k g seen k' g' ∧
    seen.map (·.currentThread) = [0x100, 0x500, 0x300, 0x200, 0x100] := by
  obtain ⟨k, hk, hbooted⟩ := bootKernel_booted
  have hrun : (bootKernel.bind fun k => (Call.trail bootImage InTurn [.tick 0, .tick 0, .tick 0, .exit 0] [k] k
      (Trace.start [0x100, 0x200, 0x300, 0x500])).map fun p => p.1.map (·.currentThread)) =
      some [0x100, 0x500, 0x300, 0x200, 0x100] := by
    decide +kernel
  rw [hk] at hrun
  obtain ⟨⟨seen, k', g'⟩, htrail, hseen⟩ := Option.map_eq_some_iff.mp hrun
  exact ⟨k, _, seen, k', g', takesTurns_of_inTurn (.init hbooted) (Stretch.start.trail htrail), hseen⟩

/-- The second thread of four exits: the first one comes again, and the other two are passed over. -/
theorem thread_passed_over : ∃ k g seen k' g', SchedulerRun bootImage bootPointers RingOfTwo k g ∧
    Stretch bootImage RingOfTwo k g seen k' g' ∧ ¬k'.NoOther ∧
    seen.map (·.currentThread) = [0x100, 0x200, 0x100] ∧ (∀ s ∈ seen, s.Waits 0x300 ∧ s.Waits 0x500) ∧
    ¬TakesTurns k g seen k' g' := by
  obtain ⟨k₀, hk₀, hbooted⟩ := bootKernel_booted
  have hrun : (bootKernel.bind fun k => ((Call.runAll bootImage RingOfTwo [.tick 0, .tick 0, .tick 0, .tick 0] k
      (Trace.start [0x100, 0x200, 0x300, 0x500])).bind fun p =>
      (Call.trail bootImage RingOfTwo [.tick 0, .exit 0] [p.1] p.1 p.2).map fun q => (p, q)).map fun p =>
      (p.2.1.map fun s => s.currentThread :: s.readyListHead :: [0x100, 0x200, 0x300].map fun t => (s.threads t).next,
        p.2.1.all fun s => decide ((s.threads 0x300).state = .ready ∧ (s.threads 0x500).state = .ready),
        [p.1.1.currentThread, p.2.2.1.currentThread, p.1.2.serial 0x100, p.2.2.2.serial 0x100],
        decide p.2.2.1.NoOther)) =
      some ([[0x100, 0x100, 0x300, 0, 0x500], [0x200, 0x100, 0x200, 0x300, 0x500],
        [0x100, 0x100, 0x200, 0x300, 0x500]], true, [0x100, 0x100, 0, 0], false) := by
    decide +kernel
  rw [hk₀] at hrun
  obtain ⟨⟨⟨k, g⟩, seen, k', g'⟩, hq, heq⟩ := Option.map_eq_some_iff.mp hrun
  obtain ⟨⟨k₁, g₁⟩, hkg, hq⟩ := Option.bind_eq_some_iff.mp hq
  obtain ⟨⟨seen₁, k₂, g₂⟩, htrail, hq⟩ := Option.map_eq_some_iff.mp hq
  simp only [Prod.mk.injEq] at hq heq
  obtain ⟨⟨rfl, rfl⟩, rfl, rfl, rfl⟩ := hq
  obtain ⟨hviews, hready, hends, hother⟩ := heq
  simp only [List.cons.injEq, and_true] at hends
  obtain ⟨hcur, hcur', hser, hser'⟩ := hends
  have hcurs : seen₁.map (·.currentThread) = [0x100, 0x200, 0x100] := by
    have h := congrArg (List.map fun v => v.headD 0) hviews
    rw [List.map_map] at h
    exact h
  have hw : ∀ s ∈ seen₁, s.Waits 0x300 ∧ s.Waits 0x500 := by
    intro s hs
    have hv := List.mem_map_of_mem hs (f := fun s : Kernel =>
      s.currentThread :: s.readyListHead :: [0x100, 0x200, 0x300].map fun t => (s.threads t).next)
    obtain ⟨hthird, huser⟩ := of_decide_eq_true (List.all_eq_true.mp hready s hs)
    have hring : Linked (nextOf s.threads) 0 s.readyListHead 0x300 ∧
        Linked (nextOf s.threads) 0 s.readyListHead 0x500 := by
      rw [hviews] at hv
      simp only [List.map_cons, List.map_nil, List.mem_cons, List.cons.injEq, and_true, List.not_mem_nil,
        or_false] at hv
      have hnext {a b t : ℕ} (ha : a ≠ 0) (hn : (s.threads a).next = b) (h : Linked (nextOf s.threads) 0 b t) :
          Linked (nextOf s.threads) 0 a t := .next ha (by rwa [nextOf, hn])
      have hhere : Linked (nextOf s.threads) 0 0x300 0x300 := .here (by decide)
      have hbehind (h3 : (s.threads 0x300).next = 0x500) : Linked (nextOf s.threads) 0 0x300 0x500 :=
        hnext (by decide) h3 (.here (by decide))
      rcases hv with ⟨-, hh, h1, -, h3⟩ | ⟨-, hh, h1, h2, h3⟩ | ⟨-, hh, h1, h2, h3⟩
      all_goals rw [hh]
      · exact ⟨hnext (by decide) h1 hhere, hnext (by decide) h1 (hbehind h3)⟩
      all_goals
        exact ⟨hnext (by decide) h1 (hnext (by decide) h2 hhere),
          hnext (by decide) h1 (hnext (by decide) h2 (hbehind h3))⟩
    exact ⟨⟨hring.1, .inl hthird⟩, hring.2, .inl huser⟩
  refine ⟨k₁, g₁, seen₁, k₂, g₂, (SchedulerRun.init hbooted).runAll hkg, Stretch.start.trail htrail,
    of_decide_eq_false hother, hcurs, hw, fun hturns => ?_⟩
  have hmem : ∀ s ∈ seen₁, s.currentThread ∈ [0x100, 0x200, 0x100] := fun s hs =>
    hcurs ▸ List.mem_map_of_mem (f := fun s : Kernel => s.currentThread) hs
  have hleft : ∃ s ∈ seen₁, s.currentThread ≠ k₁.currentThread := by
    have h200 : (0x200 : ℕ) ∈ seen₁.map (·.currentThread) := by
      rw [hcurs]
      decide
    obtain ⟨s, hs, he⟩ := List.mem_map.mp h200
    exact ⟨s, hs, by rw [he, hcur]; decide⟩
  obtain ⟨s, hs, he⟩ := hturns (hcur'.trans hcur.symm) (by rw [hcur, hcur', hser, hser']) hleft 0x300
    fun s hs => (hw s hs).1
  exact absurd (he ▸ hmem s hs) (by decide)

end PointerOS
