import PointerOS.SchedulerBoard
import PointerOS.SchedulerBoot

/-!
# The state of the scheduler over whole runs

From the state that `init_scheduler` leaves, as long as the main thread neither exits nor blocks,
the ring is intact, its first thread alone is running, and no thread is put on the dead list or
destroyed twice.
-/
namespace PointerOS
open LinkedList

section Boot
variable {img : Image} {b : Kernel.BootPointers} {k₀ k k' : Kernel} {l : List ℕ} {g : Trace} {B : Board}

/-- The board with the main thread alone. -/
def Board.alone (t : ℕ) : Board :=
  { current := t, rest := [], head := t, queue := fun _ => [], dead := [], cleaning := fun _ => [], lost := [] }

theorem tracks_startMain {main : ℕ} (h0 : main ≠ 0) (hready : k₀.readyListHead = 0) (hdead : k₀.deadListHead = 0)
    (hm : ∀ m, k₀.mutexes m = ⟨0, 0, 0⟩) :
    Tracks (k₀.startMain main) (Trace.empty.record main) (Board.alone main) ∧
      ((k₀.startMain main).threads main).state = .running := by
  obtain ⟨hring, hrunning⟩ := Kernel.startMain_ring h0 hready
  have hf : (k₀.startMain main).deadListHead = 0 ∧ (k₀.startMain main).mutexes = k₀.mutexes ∧
      (k₀.startMain main).readyListHead = main := by
    simp [Kernel.startMain, Kernel.enqueueThread, Kernel.setThread, hready, hdead]
  generalize k₀.startMain main = k₁ at hring hrunning hf
  rw [Trace.record, if_neg h0]
  refine ⟨⟨hring, hf.2.2, .inl hrunning, ?_, ?_, hf.1, fun _ => rfl, fun m => ?_, fun p t ht => ?_⟩, hrunning⟩
  · refine ⟨fun p => ?_, fun t => ?_, fun p q t hp hq => ?_⟩
    · cases p with
      | ring => exact List.nodup_singleton main
      | _ => exact List.nodup_nil
    · refine ⟨fun ht => ⟨.ring, ht⟩, fun ht => ?_⟩
      obtain ⟨p, hp⟩ := ht
      cases p with
      | ring => exact hp
      | _ => exact absurd hp List.not_mem_nil
    · cases p <;> cases q <;> first | rfl | exact absurd hp List.not_mem_nil | exact absurd hq List.not_mem_nil
  · exact fun hm0 => h0 (List.mem_singleton.mp hm0).symm
  · refine ⟨?_, ?_, List.nodup_nil, List.not_mem_nil⟩
    · rw [hf.2.1, hm]
      rfl
    · rw [hf.2.1, hm]
      rfl
  · cases p with
    | ring => trivial
    | _ => exact absurd ht List.not_mem_nil

theorem live_start (l : List ℕ) : (Trace.start l).live = (l.filter (· ≠ 0)).reverse := by
  have h (g : Trace) : (l.foldl Trace.record g).live = (l.filter (· ≠ 0)).reverse ++ g.live := by
    induction l generalizing g with
    | nil => rfl
    | cons t l ih =>
      rw [List.foldl_cons, ih, Trace.record]
      by_cases ht : t = 0
      · simp [ht]
      · simp [ht, Trace.create]
  rw [Trace.start, h]
  exact List.append_nil _

/-- The record of a creation after others is fresh. -/
theorem notMem_start (pre : List ℕ) {post : List ℕ} {t : ℕ} (h : ((pre ++ t :: post).filter (· ≠ 0)).Nodup) (ht : t ≠ 0) :
    t ∉ (Trace.start pre).live := by
  rw [live_start, List.mem_reverse]
  rw [List.filter_append, List.filter_cons_of_pos (by simpa using ht), List.nodup_append] at h
  exact fun hm => h.2.2 t hm t List.mem_cons_self rfl

/-- A state reached during the boot: the main thread runs, and no thread has left the ring. -/
structure Booting (k : Kernel) (g : Trace) (main : ℕ) : Prop where
  tracked : ∃ B, Tracks k g B ∧ B.current = main ∧ (k.threads main).state = .running ∧ B.lost = [] ∧
    B.dead = [] ∧ (∀ s, B.cleaning s = []) ∧ ∀ m, B.queue m = []

theorem Booting.same {main : ℕ} (h : Booting k g main) (hs : k.SameSched k') : Booting k' g main := by
  obtain ⟨B, htr, hc, hr, hrest⟩ := h.tracked
  exact ⟨B, htr.congr hs rfl rfl, hc, hs.threads ▸ hr, hrest⟩

theorem Booting.adds {main t r : ℕ} (h : Booting k g main) (hadd : k.Adds t r k') (hfresh : r ≠ 0 → r ∉ g.live) :
    Booting k' (g.record r) main := by
  rcases hadd with ⟨rfl, hs⟩ | ⟨rfl, h0, k₁, x, hs, hx, -, rfl⟩
  · exact h.same hs
  · obtain ⟨B, htr, rfl, hr, hlost, hdead, hclean, hqueue⟩ := h.tracked
    obtain ⟨X, Y, -, -, hstate, htr'⟩ := htr.create hs hx (hfresh h0) h0
    rw [Trace.record, if_neg h0]
    exact ⟨_, htr', rfl, hstate.trans hr, hlost, hdead, hclean, hqueue⟩

theorem Booted.main_ne (h : Booted img b k₀ k l) : b.main ≠ 0 := by
  intro h0
  have hdone := h.done
  rw [Kernel.initScheduler, if_pos h0] at hdone
  exact absurd hdone.symm (Option.some_ne_none _)

theorem Booted.booting (h : Booted img b k₀ k l) : Booting k (Trace.start l) b.main := by
  have h0 := h.main_ne
  obtain ⟨hdone, hfresh, hready, hdead, hm⟩ := h
  obtain ⟨htr, hrun⟩ := tracks_startMain h0 hready hdead hm
  have h₁ : Booting (k₀.startMain b.main) (Trace.start [b.main]) b.main :=
    ⟨_, htr, rfl, hrun, rfl, rfl, fun _ => rfl, fun _ => rfl⟩
  rw [Kernel.initScheduler, if_neg h0] at hdone
  dsimp only at hdone
  generalize k₀.startMain b.main = k₁ at h₁ hdone
  have hadd₁ := Kernel.createThread_adds img k₁ b.idle b.idleInfo img.idleThreadEntry Kernel.defaultStackSize
  generalize k₁.createThread img b.idle b.idleInfo img.idleThreadEntry Kernel.defaultStackSize = p₁ at hdone hadd₁
  have hadd₂ := Kernel.createThread_adds img p₁.2 b.third b.thirdInfo img.thirdThread Kernel.defaultStackSize
  generalize p₁.2.createThread img b.third b.thirdInfo img.thirdThread Kernel.defaultStackSize = p₂ at hdone hadd₂
  have hproc := Kernel.createUserProcess_same (k := p₂.2) b.process
  generalize p₂.2.createUserProcess b.process = p₃ at hdone hproc
  split_ifs at hdone
  obtain ⟨⟨user, k₄⟩, hk₄, heq⟩ := Option.map_eq_some_iff.mp hdone
  obtain ⟨rfl, rfl⟩ := Prod.mk.inj heq
  have hadd₄ := Kernel.createUserThread_adds hk₄
  have h₂ : Booting p₁.2 (Trace.start [b.main, p₁.1]) b.main :=
    h₁.adds hadd₁ fun hne => notMem_start [b.main] hfresh hne
  have h₃ : Booting p₂.2 (Trace.start [b.main, p₁.1, p₂.1]) b.main :=
    h₂.adds hadd₂ fun hne => notMem_start [b.main, p₁.1] hfresh hne
  have h₄ : Booting k₄ (Trace.start [b.main, p₁.1, p₂.1, user]) b.main := by
    refine Booting.adds ?_ hadd₄ fun hne => notMem_start [b.main, p₁.1, p₂.1] hfresh hne
    exact (h₃.same hproc).same ⟨rfl, rfl, rfl, rfl, rfl, rfl⟩
  exact h₄.same ⟨rfl, rfl, rfl, rfl, rfl, rfl⟩

end Boot
/-! ## Exits and destructions -/

/-- The thread is on the dead list or taken by a cleanup. -/
def Board.Grave (B : Board) (t : ℕ) : Prop := t ∈ B.dead ∨ ∃ s, t ∈ B.cleaning s

/-- The numbers of the threads that exited are those of the threads in a grave and of the
destroyed ones, each once. -/
structure Accounts (g : Trace) (B : Board) : Prop where
  lt : ∀ t ∈ g.live, g.serial t < g.created
  inj : ∀ t ∈ g.live, ∀ u ∈ g.live, g.serial t = g.serial u → t = u
  exited_lt : ∀ s ∈ g.exited, s < g.created
  exited_nodup : g.exited.Nodup
  exited_iff : ∀ t ∈ g.live, g.serial t ∈ g.exited ↔ B.Grave t
  buried : g.buried = g.exited
  destroyed_sub : g.destroyed ⊆ g.exited
  destroyed_nodup : g.destroyed.Nodup
  destroyed_gone : ∀ t ∈ g.live, g.serial t ∉ g.destroyed

namespace Accounts
variable {k k' : Kernel} {g g' : Trace} {B B' : Board} {t : ℕ}

/-- Moves that put no thread into a grave and take none out. -/
theorem congr (h : Accounts g B) (hB : ∀ t ∈ g.live, B'.Grave t ↔ B.Grave t) : Accounts g B' where
  lt := h.lt
  inj := h.inj
  exited_lt := h.exited_lt
  exited_nodup := h.exited_nodup
  exited_iff := fun t ht => (h.exited_iff t ht).trans (hB t ht).symm
  buried := h.buried
  destroyed_sub := h.destroyed_sub
  destroyed_nodup := h.destroyed_nodup
  destroyed_gone := h.destroyed_gone

theorem create (h : Accounts g B) (ht : t ∉ g.live) (hB : ∀ u, B'.Grave u ↔ B.Grave u) (hg : ¬B.Grave t) :
    Accounts (g.create t) B' := by
  have hold : ∀ u ∈ g.live, Function.update g.serial t g.created u = g.serial u := fun u hu =>
    Function.update_of_ne (fun he : u = t => ht (he ▸ hu)) ..
  have hnew : Function.update g.serial t g.created t = g.created := Function.update_self ..
  refine ⟨fun u hu => ?_, fun u hu v hv huv => ?_, fun s hs => (h.exited_lt s hs).trans (Nat.lt_succ_self _),
    h.exited_nodup, fun u hu => ?_, h.buried, h.destroyed_sub, h.destroyed_nodup, fun u hu => ?_⟩
  · change Function.update g.serial t g.created u < g.created + 1
    rcases List.mem_cons.mp hu with rfl | hu
    · rw [hnew]
      exact Nat.lt_succ_self _
    · rw [hold u hu]
      exact (h.lt u hu).trans (Nat.lt_succ_self _)
  · change Function.update g.serial t g.created u = Function.update g.serial t g.created v at huv
    rcases List.mem_cons.mp hu with hut | hu
    · rcases List.mem_cons.mp hv with hvt | hv
      · rw [hut, hvt]
      · rw [hut, hnew, hold v hv] at huv
        exact absurd (h.lt v hv) (by omega)
    · rcases List.mem_cons.mp hv with hvt | hv
      · rw [hvt, hnew, hold u hu] at huv
        exact absurd (h.lt u hu) (by omega)
      · rw [hold u hu, hold v hv] at huv
        exact h.inj u hu v hv huv
  · change Function.update g.serial t g.created u ∈ g.exited ↔ _
    rw [hB u]
    rcases List.mem_cons.mp hu with rfl | hu
    · rw [hnew]
      exact iff_of_false (fun he => absurd (h.exited_lt _ he) (lt_irrefl _)) hg
    · rw [hold u hu]
      exact h.exited_iff u hu
  · change Function.update g.serial t g.created u ∉ g.destroyed
    rcases List.mem_cons.mp hu with rfl | hu
    · rw [hnew]
      exact fun he => absurd (h.exited_lt _ (h.destroyed_sub he)) (lt_irrefl _)
    · rw [hold u hu]
      exact h.destroyed_gone u hu

theorem exit (h : Accounts g B) (ht : t ∈ g.live) (hg : ¬B.Grave t) (hB : ∀ u, B'.Grave u ↔ u = t ∨ B.Grave u) :
    Accounts { g.exit t with buried := g.serial t :: g.buried } B' where
  lt := h.lt
  inj := h.inj
  exited_lt := by
    intro s hs
    rcases List.mem_cons.mp hs with rfl | hs
    · exact h.lt t ht
    · exact h.exited_lt s hs
  exited_nodup := List.nodup_cons.mpr ⟨mt (h.exited_iff t ht).mp hg, h.exited_nodup⟩
  exited_iff := by
    intro u hu
    change g.serial u ∈ g.serial t :: g.exited ↔ _
    rw [hB u, List.mem_cons, h.exited_iff u hu]
    exact or_congr_left ⟨h.inj u hu t ht, fun he => he ▸ rfl⟩
  buried := by
    change g.serial t :: g.buried = g.serial t :: g.exited
    rw [h.buried]
  destroyed_sub := fun s hs => List.mem_cons_of_mem _ (h.destroyed_sub hs)
  destroyed_nodup := h.destroyed_nodup
  destroyed_gone := h.destroyed_gone

theorem destroy (h : Accounts g B) (ht : t ∈ g.live) (hg : B.Grave t) {s r : ℕ}
    (hB : ∀ u, u ≠ t → (B'.Grave u ↔ B.Grave u)) : Accounts ((g.destroy t).setCleaning s r) B' := by
  have hmem : ∀ u ∈ g.live.filter (· ≠ t), u ∈ g.live ∧ u ≠ t := fun u hu => by
    rw [List.mem_filter, decide_eq_true_iff] at hu
    exact hu
  refine ⟨fun u hu => h.lt u (hmem u hu).1, fun u hu v hv => h.inj u (hmem u hu).1 v (hmem v hv).1, h.exited_lt,
    h.exited_nodup, fun u hu => ?_, h.buried, ?_, ?_, fun u hu => ?_⟩
  · obtain ⟨hu, hne⟩ := hmem u hu
    rw [hB u hne]
    exact h.exited_iff u hu
  · exact List.cons_subset.mpr ⟨(h.exited_iff t ht).mpr hg, h.destroyed_sub⟩
  · exact List.nodup_cons.mpr ⟨h.destroyed_gone t ht, h.destroyed_nodup⟩
  · obtain ⟨hu, hne⟩ := hmem u hu
    change g.serial u ∉ g.serial t :: g.destroyed
    rw [List.mem_cons, not_or]
    exact ⟨fun he => hne (h.inj u hu t ht he), h.destroyed_gone u hu⟩

/-- The accounts follow the moves as long as a thread that exits is not alone and goes at once. -/
theorem step (h : Accounts g B) (hplace : Partition B.lists g.live) {c : Call} {mv : Move}
    (hmove : B.Moves mv B') (hrec : Recorded k g B c mv g') (hrun : (k.threads B.current).state = .running)
    (hexit : ∀ rsp, c = .exit rsp → B.rest ≠ []) : Accounts g' B' := by
  have hc : B.current ∈ B.lists .ring := List.mem_cons_self
  have hlive : ∀ p, ∀ t ∈ B.lists p, t ∈ g.live := fun p t ht => (hplace.mem_iff t).mpr ⟨p, ht⟩
  have hgrave : ∀ p, p ≠ .dead → (∀ s, p ≠ .cleaning s) → ∀ t ∈ B.lists p, ¬B.Grave t := by
    rintro p hp hps t ht (hd | ⟨s, hs⟩)
    · exact hp (hplace.unique p .dead t ht hd)
    · exact hps s (hplace.unique p (.cleaning s) t ht hs)
  cases hrec with
  | stay _ owner _ =>
    cases hmove
    exact ⟨h.lt, h.inj, h.exited_lt, h.exited_nodup, h.exited_iff, h.buried, h.destroyed_sub, h.destroyed_nodup,
      h.destroyed_gone⟩
  | exitAlone rsp hrest => exact absurd hrest (hexit rsp rfl)
  | create _ t ht =>
    cases hmove
    refine h.create ht (fun u => Iff.rfl) ?_
    rintro (hd | ⟨s, hs⟩)
    · exact ht (hlive .dead t hd)
    · exact ht (hlive (.cleaning s) t hs)
  | turn rsp =>
    cases hmove
    exact h.congr fun t _ => Iff.rfl
  | exit rsp =>
    cases hmove
    refine h.exit (hlive .ring _ hc) (hgrave .ring (by simp) (by simp) _ hc) fun u => ?_
    simp only [Board.Grave, List.mem_cons, or_assoc]
  | bury rsp hd =>
    rw [hrun] at hd
    exact absurd hd (by simp)
  | block m rsp hl =>
    cases hmove
    exact h.congr fun t _ => Iff.rfl
  | wake m owner hw =>
    cases hmove
    have h' : Accounts { g with owner := owner } B := ⟨h.lt, h.inj, h.exited_lt, h.exited_nodup, h.exited_iff, h.buried,
      h.destroyed_sub, h.destroyed_nodup, h.destroyed_gone⟩
    exact h'.congr fun t _ => Iff.rfl
  | take s t =>
    cases hmove with
    | take hs =>
      have h' : Accounts (g.setCleaning s t) B := ⟨h.lt, h.inj, h.exited_lt, h.exited_nodup, h.exited_iff, h.buried,
        h.destroyed_sub, h.destroyed_nodup, h.destroyed_gone⟩
      refine h'.congr fun u _ => ?_
      simp only [Board.Grave, List.not_mem_nil, false_or]
      constructor
      · rintro ⟨s', hu⟩
        by_cases hss : s' = s
        · rw [hss, Function.update_self] at hu
          exact .inl hu
        · rw [Function.update_of_ne hss] at hu
          exact .inr ⟨s', hu⟩
      · rintro (hu | ⟨s', hu⟩)
        · exact ⟨s, by rwa [Function.update_self]⟩
        · have hss : s' ≠ s := fun he => by
            rw [he, hs] at hu
            exact List.not_mem_nil hu
          exact ⟨s', by rwa [Function.update_of_ne hss]⟩
  | destroy s t r l hs =>
    cases hmove with
    | destroy hs' =>
      obtain ⟨rfl, rfl⟩ := List.cons.inj (hs.symm.trans hs')
      have ht : t ∈ B.cleaning s := by
        rw [hs]
        exact List.mem_cons_self
      refine h.destroy (hlive (.cleaning s) t ht) (.inr ⟨s, ht⟩) fun u hu => ?_
      refine or_congr_right (exists_congr fun s' => ?_)
      by_cases hss : s' = s
      · simp only [hss, Function.update_self, hs, List.mem_cons, or_iff_right hu]
      · simp only [Function.update_of_ne hss]

theorem start (l : List ℕ) (hl : (l.filter (· ≠ 0)).Nodup) (hB : ∀ t, ¬B.Grave t) : Accounts (Trace.start l) B := by
  induction l using List.reverseRecOn with
  | nil =>
    exact ⟨fun _ ht => absurd ht List.not_mem_nil, fun _ ht => absurd ht List.not_mem_nil,
      fun _ hs => absurd hs List.not_mem_nil, List.nodup_nil, fun _ ht => absurd ht List.not_mem_nil, rfl,
      List.nil_subset _, List.nodup_nil, fun _ ht => absurd ht List.not_mem_nil⟩
  | append_singleton l t ih =>
    have hl' := hl
    rw [List.filter_append, List.nodup_append] at hl'
    have h := ih hl'.1
    have heq : Trace.start (l ++ [t]) = (Trace.start l).record t := by
      simp only [Trace.start, List.foldl_append, List.foldl_cons, List.foldl_nil]
    rw [heq, Trace.record]
    split_ifs with ht
    · exact h
    · exact h.create (notMem_start l hl ht) (fun _ => Iff.rfl) (hB t)

end Accounts
/-! ## Runs -/

/-- The main thread neither exits nor blocks. -/
def MainStays (main : ℕ) (k : Kernel) (_ : Trace) : Call → Prop
  | .exit _ => k.currentThread ≠ main
  | .lock m _ => (k.mutexes m).locked = 0 ∨ k.currentThread ≠ main
  | _ => True

instance (main : ℕ) (k : Kernel) (g : Trace) (c : Call) : Decidable (MainStays main k g c) :=
  match c with
  | .exit _ => inferInstanceAs (Decidable (k.currentThread ≠ main))
  | .lock m _ => inferInstanceAs (Decidable ((k.mutexes m).locked = 0 ∨ k.currentThread ≠ main))
  | .createThread _ _ _ _ | .createUserThread _ _ _ _ _ _ _ | .createUserProcess _ | .tick _ | .unlock _
  | .takeDead | .cleanupRound => inferInstanceAs (Decidable True)

/-- The threads that exited and are not destroyed: `dead` are on the dead list, and `taken s` on the
list that the cleanup of the thread with the number `s` has taken from it. -/
structure DeadThreads (k : Kernel) (g : Trace) (dead : List ℕ) (taken : ℕ → List ℕ) : Prop where
  deadList : Chain (nextOf k.threads) 0 k.deadListHead dead ∧ dead.Nodup
  cleaning : ∀ s, Chain (nextOf k.threads) 0 (g.cleaning s) (taken s) ∧ (taken s).Nodup
  once : ∀ t s, t ∈ taken s → t ∉ dead ∧ ∀ s', t ∈ taken s' → s' = s
  state : ∀ t, t ∈ dead ∨ (∃ s, t ∈ taken s) → t ∈ g.live ∧ (k.threads t).state = .dead
  exited : ∀ t ∈ g.live, g.serial t ∈ g.exited ↔ t ∈ dead ∨ ∃ s, t ∈ taken s

/-- The ring is intact, its current thread is running and the others are ready; an exited thread
was put on the dead list once, is there or with a cleanup until it is destroyed, and was destroyed
once at most. -/
structure SchedulerInvariant (k : Kernel) (g : Trace) : Prop where
  ring : ∃ rest, IsRing (nextOf k.threads) (prevOf k.threads) (k.currentThread :: rest) ∧
    k.readyListHead ∈ k.currentThread :: rest ∧ ∀ t ∈ rest, (k.threads t).state = .ready
  running : (k.threads k.currentThread).state = .running
  deadThreads : ∃ dead taken, DeadThreads k g dead taken
  serial : ∀ t ∈ g.live, ∀ u ∈ g.live, g.serial t = g.serial u → t = u
  buried : g.buried = g.exited ∧ g.exited.Nodup
  destroyed : g.destroyed ⊆ g.exited ∧ g.destroyed.Nodup

/-- What a run preserves on top of the board. -/
structure Steady (k : Kernel) (g : Trace) (main : ℕ) (B : Board) : Prop where
  tracks : Tracks k g B
  running : (k.threads B.current).state = .running
  accounts : Accounts g B
  main : main ∈ B.current :: B.rest

section Runs
variable {img : Image} {b : Kernel.BootPointers} {k k' : Kernel} {g g' : Trace} {B B' : Board} {main : ℕ}

theorem Board.Moves.mem_ring {mv : Move} (h : B.Moves mv B') (hm : main ∈ B.current :: B.rest)
    (hstay : mv = .bury ∨ (∃ m, mv = .block m) → B.current ≠ main) : main ∈ B'.current :: B'.rest := by
  have hsplit : ∀ {X Y : List ℕ} {u : ℕ}, B.rest = X ++ u :: Y → B.current ≠ main → main ∈ u :: (Y ++ X) := by
    intro X Y u hrest hne
    have hmr := (List.mem_cons.mp hm).resolve_left (Ne.symm hne)
    rw [hrest] at hmr
    simp only [List.mem_append, List.mem_cons] at hmr ⊢
    tauto
  cases h with
  | create hrest _ =>
    rw [hrest] at hm
    simp only [List.mem_append, List.mem_cons] at hm ⊢
    tauto
  | turn hrest =>
    rw [hrest] at hm
    simp only [List.mem_append, List.mem_cons, List.not_mem_nil] at hm ⊢
    tauto
  | bury hrest => exact hsplit hrest (hstay (.inl rfl))
  | block hrest => exact hsplit hrest (hstay (.inr ⟨_, rfl⟩))
  | _ => exact hm

theorem Steady.rest_ne_nil (h : Steady k g main B) (hne : k.currentThread ≠ main) : B.rest ≠ [] := by
  intro hrest
  have hm := h.main
  rw [hrest, List.mem_singleton] at hm
  exact hne (h.tracks.ring.current.trans hm.symm)

/-- One call preserves it, and resumes a thread that can go on. -/
theorem Steady.step (h : Steady k g main B) {c : Call} (hc : c.Proper k g) (hok : MainStays main k g c)
    (hrun : c.run img k g = some (k', g')) :
    ∃ B', Steady k' g' main B' ∧ Resumes k c k' B'.current := by
  have hexit : ∀ rsp, c = .exit rsp → B.rest ≠ [] := by
    rintro rsp rfl
    exact h.rest_ne_nil hok
  have hlock : ∀ m rsp, c = .lock m rsp → (k.mutexes m).locked ≠ 0 → B.rest ≠ [] := by
    rintro m rsp rfl hl
    exact h.rest_ne_nil (hok.resolve_left hl)
  obtain ⟨mv, B', hmove, htr, hrec, hres⟩ := (h.tracks.run hc hlock hrun).moved
  have hres' := hres h.running hexit
  have hcur := h.tracks.ring.current
  refine ⟨B', ⟨htr, hres'.running, h.accounts.step h.tracks.place hmove hrec h.running hexit,
    hmove.mem_ring h.main ?_⟩, hres'⟩
  rintro (rfl | ⟨m, rfl⟩)
  · cases hrec with
    | exit rsp => exact hcur ▸ hok
    | bury rsp hd =>
      rw [h.running] at hd
      exact absurd hd (by simp)
  · cases hrec with
    | block _ rsp hl => exact hcur ▸ hok.resolve_left hl

theorem Booted.steady {k₀ : Kernel} {l : List ℕ} (h : Booted img b k₀ k l) :
    ∃ B, Steady k (Trace.start l) b.main B := by
  obtain ⟨B, htr, hcur, hr, -, hdead, hclean, -⟩ := h.booting.tracked
  refine ⟨B, htr, by rw [hcur]; exact hr, .start _ h.fresh ?_, ?_⟩
  · rintro t (ht | ⟨s, ht⟩)
    · rw [hdead] at ht
      exact List.not_mem_nil ht
    · rw [hclean] at ht
      exact List.not_mem_nil ht
  · rw [hcur]
    exact List.mem_cons_self

theorem SchedulerRun.steady (h : SchedulerRun img b (MainStays b.main) k g) : ∃ B, Steady k g b.main B := by
  induction h with
  | init hb => exact hb.steady
  | step _ c hc hok hrun ih =>
    obtain ⟨B, hB⟩ := ih
    obtain ⟨B', hB', -⟩ := hB.step hc hok hrun
    exact ⟨B', hB'⟩

/-- The graves of the board are the dead list and the lists that were taken from it. -/
theorem Steady.deadThreads (h : Steady k g main B) : DeadThreads k g B.dead B.cleaning where
  deadList := ⟨h.tracks.dead, h.tracks.place.nodup .dead⟩
  cleaning := fun s => ⟨h.tracks.cleaning s, h.tracks.place.nodup (.cleaning s)⟩
  once := fun t s ht => by
    have hunique := fun p => h.tracks.place.unique (.cleaning s) p t ht
    exact ⟨fun hd => absurd (hunique .dead hd) (by simp), fun s' ht' =>
      (Place.cleaning.inj (hunique (.cleaning s') ht')).symm⟩
  state := by
    rintro t (ht | ⟨s, ht⟩)
    · exact ⟨h.tracks.mem_live (p := .dead) ht, h.tracks.states .dead t ht⟩
    · exact ⟨h.tracks.mem_live (p := .cleaning s) ht, h.tracks.states (.cleaning s) t ht⟩
  exited := h.accounts.exited_iff

theorem Steady.invariant (h : Steady k g main B) : SchedulerInvariant k g := by
  have hcur := h.tracks.ring.current
  refine ⟨⟨B.rest, ?_, ?_, h.tracks.ring.ready⟩, ?_, ⟨B.dead, B.cleaning, h.deadThreads⟩, h.accounts.inj,
    ⟨h.accounts.buried, h.accounts.exited_nodup⟩, h.accounts.destroyed_sub, h.accounts.destroyed_nodup⟩
  · rw [hcur]
    exact h.tracks.ring.ring
  · rw [hcur]
    exact h.tracks.ring.head
  · rw [hcur]
    exact h.running

/-- In every state of a run the invariant holds, and each call that enters `scheduler_handler` there
resumes a thread that is neither dead nor blocked. -/
theorem scheduler_invariant (h : SchedulerRun img b (MainStays b.main) k g) :
    SchedulerInvariant k g ∧
      ∀ c k' g', c.Proper k g → MainStays b.main k g c → c.run img k g = some (k', g') →
        ∀ k₁ rsp, c.handlerEntry k = some (k₁, rsp) →
          (k₁.threads k'.currentThread).state ≠ .dead ∧ (k₁.threads k'.currentThread).state ≠ .blocked := by
  obtain ⟨B, hB⟩ := h.steady
  refine ⟨hB.invariant, fun c k' g' hc hok hrun k₁ rsp hentry => ?_⟩
  obtain ⟨B', hB', hres⟩ := hB.step hc hok hrun
  rw [hB'.tracks.ring.current]
  rcases hres.picked k₁ rsp hentry with hs | hs <;> rw [hs] <;> simp

end Runs

/-- The idle thread waits for a mutex that the main thread holds, the third thread exits and is
destroyed, and the user thread exits and is on the dead list. -/
theorem scheduler_invariant_boot : ∃ k g, SchedulerInvariant k g ∧ k.deadListHead = 0x500 ∧
    g.live = [0x500, 0x200, 0x100] ∧ g.exited = [3, 2] ∧ g.destroyed = [2] := by
  obtain ⟨k₀, hk₀, hbooted⟩ := bootKernel_booted
  have hrun : (bootKernel.bind fun k => (Call.runAll bootImage (MainStays 0x100)
      [.lock 1 0, .tick 0, .lock 1 0, .tick 0, .exit 0, .unlock 1, .takeDead, .cleanupRound, .tick 0, .exit 0]
      k (Trace.start [0x100, 0x200, 0x300, 0x500])).map fun p =>
        (p.1.deadListHead, p.2.live, p.2.exited, p.2.destroyed)) =
      some (0x500, [0x500, 0x200, 0x100], [3, 2], [2]) := by
    decide +kernel
  rw [hk₀] at hrun
  obtain ⟨⟨k, g⟩, hkg, heq⟩ := Option.map_eq_some_iff.mp hrun
  simp only [Prod.mk.injEq] at heq
  exact ⟨k, g, (scheduler_invariant ((SchedulerRun.init hbooted).runAll hkg)).1, heq⟩

end PointerOS
