import PointerOS.RoundRobin
import PointerOS.SpaceSwitch

/-!
# Address spaces and stack lists over whole runs

The address space and the stack list in use are those of the current thread's process, and the list
of a process has a record for the stack of each of its threads. Processes and user threads are made
and destroyed by threads that have no process, in one step each.
-/
namespace PointerOS
open LinkedList GapList

/-- Stacks below each other, none of them empty. -/
structure Descends (l : List UsInfo) : Prop where
  pos : ∀ i ∈ l, 0 < i.size
  fits : ∀ i ∈ l, i.size ≤ i.base
  high : ∀ i ∈ l, i.base ≤ userStackMax
  sorted : l.Pairwise fun i j => j.base + i.size ≤ i.base

namespace Descends
variable {l xs ys : List UsInfo} {s s' : UsInfo} {size : ℕ}

theorem nil : Descends [] :=
  ⟨fun _ hi => absurd hi List.not_mem_nil, fun _ hi => absurd hi List.not_mem_nil,
    fun _ hi => absurd hi List.not_mem_nil, .nil⟩

theorem sublist (h : Descends l) (hs : xs.Sublist l) : Descends xs :=
  ⟨fun i hi => h.pos i (hs.subset hi), fun i hi => h.fits i (hs.subset hi), fun i hi => h.high i (hs.subset hi),
    h.sorted.sublist hs⟩

/-- The base tells the stack. -/
theorem eq_of_base (h : Descends l) (hs : s ∈ l) (hs' : s' ∈ l) (hb : s.base = s'.base) : s = s' := by
  by_contra hne
  have h1 := h.pos s hs
  have h2 := h.pos s' hs'
  rcases related_of_pairwise h.sorted hs hs' hne with hr | hr <;> omega

/-- A new stack that lies in the address space. -/
theorem add (h : Descends l) (hpos : 0 < size) (hfit : size ≤ (usAddToList l size).1) :
    Descends (usAddToList l size).2 := by
  have hmax := userStackMax_eq
  cases l with
  | nil =>
    refine ⟨?_, ?_, ?_, List.pairwise_singleton ..⟩
    all_goals
      intro i hi
      obtain rfl := List.mem_singleton.mp hi
      first | exact hpos | exact hfit | exact le_refl _
  | cons head rest =>
    obtain ⟨heq, hgap⟩ := findGap_spec (UsFits size) head rest
    simp only [usAddToList] at hfit ⊢
    rw [heq] at h
    generalize (findGap (UsFits size) head rest).1 = passed at h ⊢
    generalize (findGap (UsFits size) head rest).2.1 = above at h hgap hfit ⊢
    generalize (findGap (UsFits size) head rest).2.2 = below at h hgap ⊢
    have habove : above ∈ passed ++ above :: below := List.mem_append_right _ List.mem_cons_self
    have h1 := h.fits above habove
    have h2 := h.high above habove
    have h3 := h.pos above habove
    rw [sub64_eq (by omega) h1] at hfit ⊢
    obtain ⟨-, hrest, -⟩ := List.pairwise_append.mp h.sorted
    obtain ⟨-, hbelow⟩ := List.pairwise_cons.mp hrest
    have hafter : ∀ j ∈ below, j.base + size ≤ above.base - above.size := by
      intro j hj
      cases below with
      | nil => cases hj
      | cons next rest =>
        have hn : next.base ≤ sub64 (sub64 above.base above.size) size := hgap next rest rfl
        rw [sub64_eq (by omega) h1, sub64_eq (by omega) hfit] at hn
        rcases List.mem_cons.mp hj with rfl | hj
        · omega
        · have := (List.pairwise_cons.mp hbelow).1 j hj
          omega
    refine ⟨fun i hi => ?_, fun i hi => ?_, fun i hi => ?_, pairwise_insert h.sorted (by dsimp only; omega)
      (fun i _ hi => by dsimp only; omega) hafter⟩
    all_goals rcases mem_insert.mp hi with rfl | hi
    · exact hpos
    · exact h.pos i hi
    · exact hfit
    · exact h.fits i hi
    · dsimp only
      omega
    · exact h.high i hi

end Descends

/-! ## The stacks of a process -/

/-- The user stack of a thread. -/
def Thread.stack (r : Thread) : UsInfo := ⟨r.userStack.bottom, r.userStack.size⟩

/-- The stacks of the threads of the process `p` that are alive. -/
def Trace.stacksIn (g : Trace) (k : Kernel) (p : ℕ) : List UsInfo :=
  (g.live.filter fun t => (k.threads t).process = p).map fun t => (k.threads t).stack

/-- The list saved in `ustacks_infos` has the stacks of the threads of the process. -/
def ProcessStacks (k : Kernel) (g : Trace) (p : ℕ) : Prop :=
  ∃ l, UsList k.usInfos (k.processes p).ustacksInfos l ∧ (stacksOf k.usInfos l).Perm (g.stacksIn k p)

/-- The processes `ps` have the records `ns` in their lists. -/
structure StackLists (k : Kernel) (g : Trace) (ps : List ℕ) (ns : ℕ → List ℕ) : Prop where
  null : 0 ∉ ps
  nodup : g.live.Nodup
  list : ∀ p ∈ ps, UsList k.usInfos (k.processes p).ustacksInfos (ns p)
  apart : ∀ p ∈ ps, ∀ q ∈ ps, ∀ i ∈ ns p, i ∈ ns q → p = q
  descends : ∀ p ∈ ps, Descends (stacksOf k.usInfos (ns p))
  owned : ∀ p ∈ ps, (stacksOf k.usInfos (ns p)).Perm (g.stacksIn k p)
  home : ∀ t ∈ g.live, (k.threads t).process = 0 ∨ (k.threads t).process ∈ ps

section Steps
variable {img : Image} {k k' : Kernel} {g g' : Trace} {ps : List ℕ} {ns : ℕ → List ℕ} {t p : ℕ}

theorem stacksIn_congr (hlive : g'.live = g.live) (hh : ∀ t ∈ g.live, (k'.threads t).home = (k.threads t).home) (p : ℕ) :
    g'.stacksIn k' p = g.stacksIn k p := by
  unfold Trace.stacksIn
  rw [hlive]
  have hfilter : g.live.filter (fun t => (k'.threads t).process = p) = g.live.filter fun t => (k.threads t).process = p :=
    List.filter_congr fun t ht => by rw [show (k'.threads t).process = _ from congrArg Home.process (hh t ht)]; rfl
  rw [hfilter]
  refine List.map_congr_left fun t ht => ?_
  have hs : (k'.threads t).userStack = (k.threads t).userStack := congrArg Home.userStack (hh t (List.mem_of_mem_filter ht))
  rw [Thread.stack, Thread.stack, hs]

theorem stacksIn_cons (ht : g'.live = t :: g.live) (p : ℕ) (hh : ∀ u ∈ g.live, (k'.threads u).home = (k.threads u).home) :
    g'.stacksIn k' p =
      if (k'.threads t).process = p then (k'.threads t).stack :: g.stacksIn k p else g.stacksIn k p := by
  have hrest : (g.live.filter fun u => (k'.threads u).process = p).map (fun u => (k'.threads u).stack) = g.stacksIn k p :=
    @stacksIn_congr k k' g g rfl hh p
  unfold Trace.stacksIn
  rw [ht]
  split_ifs with hp
  · rw [List.filter_cons_of_pos (by simpa using hp), List.map_cons, hrest]
    rfl
  · rw [List.filter_cons_of_neg (by simpa using hp), hrest]
    rfl

/-- A call that leaves the processes and the homes of the threads alone. -/
theorem StackLists.congr (h : StackLists k g ps ns) (hlive : g'.live = g.live) (hproc : k'.processes = k.processes)
    (hus : k'.usInfos = k.usInfos) (hh : ∀ t ∈ g.live, (k'.threads t).home = (k.threads t).home) :
    StackLists k' g' ps ns where
  null := h.null
  nodup := hlive ▸ h.nodup
  list := fun p hp => by
    rw [hproc, hus]
    exact h.list p hp
  apart := h.apart
  descends := fun p hp => by
    rw [hus]
    exact h.descends p hp
  owned := fun p hp => by
    rw [hus, stacksIn_congr hlive hh]
    exact h.owned p hp
  home := fun t ht => by
    rw [hlive] at ht
    rw [show (k'.threads t).process = _ from congrArg Home.process (hh t ht)]
    exact h.home t ht

/-- A new process has no threads. -/
theorem StackLists.addProcess {pml4 pid : ℕ} (h : StackLists k g ps ns) (hp : p ∉ ps) (h0 : p ≠ 0) (hlive : g'.live = g.live)
    (hproc : k'.processes = Function.update k.processes p ⟨pml4, pid, 0⟩)
    (hus : k'.usInfos = k.usInfos) (hh : ∀ t ∈ g.live, (k'.threads t).home = (k.threads t).home) :
    StackLists k' g' (p :: ps) (Function.update ns p []) := by
  have hns : ∀ q ∈ ps, Function.update ns p [] q = ns q := fun q hq =>
    Function.update_of_ne (fun he : q = p => hp (he ▸ hq)) ..
  have hnp : Function.update ns p [] p = [] := Function.update_self ..
  refine ⟨?_, hlive ▸ h.nodup, fun q hq => ?_, fun q hq q' hq' i hi hi' => ?_, fun q hq => ?_, fun q hq => ?_,
    fun t ht => ?_⟩
  · rw [List.mem_cons, not_or]
    exact ⟨Ne.symm h0, h.null⟩
  · rw [hus, hproc]
    rcases List.mem_cons.mp hq with rfl | hq
    · rw [hnp, Function.update_self]
      exact .nil
    · rw [hns q hq, Function.update_of_ne fun he : q = p => hp (he ▸ hq)]
      exact h.list q hq
  · rcases List.mem_cons.mp hq with rfl | hq
    · rw [hnp] at hi
      exact absurd hi List.not_mem_nil
    · rcases List.mem_cons.mp hq' with rfl | hq'
      · rw [hnp] at hi'
        exact absurd hi' List.not_mem_nil
      · rw [hns q hq] at hi
        rw [hns q' hq'] at hi'
        exact h.apart q hq q' hq' i hi hi'
  · rw [hus]
    rcases List.mem_cons.mp hq with rfl | hq
    · rw [hnp]
      exact .nil
    · rw [hns q hq]
      exact h.descends q hq
  · rw [hus, stacksIn_congr hlive hh]
    rcases List.mem_cons.mp hq with rfl | hq
    · rw [hnp]
      have hnone : g.live.filter (fun t => (k.threads t).process = q) = [] := by
        refine List.filter_eq_nil_iff.mpr fun t ht => ?_
        rw [decide_eq_true_iff]
        rcases h.home t ht with h0' | hps
        · exact fun he => h0 (he.symm.trans h0')
        · exact fun he => hp (he ▸ hps)
      rw [Trace.stacksIn, hnone]
      exact .refl _
    · rw [hns q hq]
      exact h.owned q hq
  · rw [hlive] at ht
    rw [show (k'.threads t).process = _ from congrArg Home.process (hh t ht)]
    exact (h.home t ht).imp_right (List.mem_cons_of_mem p)

/-- The list of one process has changed. -/
theorem StackLists.replace {l : List ℕ} {head : ℕ} (h : StackLists k g ps ns)
    (hproc : k'.processes = Function.update k.processes p { k.processes p with ustacksInfos := head })
    (hlist : UsList k'.usInfos head l) (hframe : ∀ q ∈ ps, q ≠ p → ∀ j ∈ ns q, k'.usInfos j = k.usInfos j)
    (hapart : ∀ q ∈ ps, q ≠ p → ∀ j ∈ l, j ∉ ns q) (hdesc : Descends (stacksOf k'.usInfos l))
    (hown : (stacksOf k'.usInfos l).Perm (g'.stacksIn k' p))
    (hother : ∀ q ∈ ps, q ≠ p → g'.stacksIn k' q = g.stacksIn k q) (hnodup : g'.live.Nodup)
    (hhome : ∀ t ∈ g'.live, (k'.threads t).process = 0 ∨ (k'.threads t).process ∈ ps) :
    StackLists k' g' ps (Function.update ns p l) := by
  have hnp : Function.update ns p l p = l := Function.update_self ..
  have hns : ∀ q, q ≠ p → Function.update ns p l q = ns q := fun q hq => Function.update_of_ne hq ..
  have hsame : ∀ q ∈ ps, q ≠ p → stacksOf k'.usInfos (ns q) = stacksOf k.usInfos (ns q) := fun q hq hqp =>
    stacksOf_congr fun j hj => by rw [hframe q hq hqp j hj]
  refine ⟨h.null, hnodup, fun q hq => ?_, fun q hq q' hq' i hi hi' => ?_, fun q hq => ?_, fun q hq => ?_, hhome⟩
  · rw [hproc]
    by_cases hqp : q = p
    · rw [hqp, hnp, Function.update_self]
      exact hlist
    · rw [hns q hqp, Function.update_of_ne hqp]
      refine IsList.congr (h.list q hq) (fun j hj => ?_) fun j hj => ?_
      · rw [nextUs, nextUs, hframe q hq hqp j hj]
      · rw [prevUs, prevUs, hframe q hq hqp j hj]
  · by_cases hqp : q = p
    · rw [hqp, hnp] at hi
      by_cases hqp' : q' = p
      · rw [hqp, hqp']
      · rw [hns q' hqp'] at hi'
        exact absurd hi' (hapart q' hq' hqp' i hi)
    · rw [hns q hqp] at hi
      by_cases hqp' : q' = p
      · rw [hqp', hnp] at hi'
        exact absurd hi (hapart q hq hqp i hi')
      · rw [hns q' hqp'] at hi'
        exact h.apart q hq q' hq' i hi hi'
  · by_cases hqp : q = p
    · rw [hqp, hnp]
      exact hdesc
    · rw [hns q hqp, hsame q hq hqp]
      exact h.descends q hq
  · by_cases hqp : q = p
    · rw [hqp, hnp]
      exact hown
    · rw [hns q hqp, hsame q hq hqp, hother q hq hqp]
      exact h.owned q hq

/-- A thread without a process is new. -/
theorem StackLists.addKernelThread (h : StackLists k g ps ns) (ht : t ∉ g.live) (hlive : g'.live = t :: g.live)
    (hproc : k'.processes = k.processes) (hus : k'.usInfos = k.usInfos)
    (hh : ∀ u ∈ g.live, (k'.threads u).home = (k.threads u).home) (h0 : (k'.threads t).process = 0) :
    StackLists k' g' ps ns where
  null := h.null
  nodup := hlive ▸ List.nodup_cons.mpr ⟨ht, h.nodup⟩
  list := fun p hp => by
    rw [hproc, hus]
    exact h.list p hp
  apart := h.apart
  descends := fun p hp => by
    rw [hus]
    exact h.descends p hp
  owned := fun p hp => by
    rw [hus, stacksIn_cons hlive p hh, if_neg fun he => h.null (by rw [← h0, he]; exact hp)]
    exact h.owned p hp
  home := fun u hu => by
    rw [hlive] at hu
    rcases List.mem_cons.mp hu with rfl | hu
    · exact .inl h0
    · rw [show (k'.threads u).process = _ from congrArg Home.process (hh u hu)]
      exact h.home u hu

/-- A user thread is new, and its stack is in the list of the process. -/
theorem StackLists.addUserThread {k₁ k₂ : Kernel} {i : ℕ} (h : StackLists k g ps ns) (hp : p ∈ ps) (ht : t ∉ g.live)
    (hi : ∀ q ∈ ps, i ∉ ns q) (hi0 : i ≠ 0) (hlive : g'.live = t :: g.live)
    (hhead : k₁.usListHead = (k.processes p).ustacksInfos)
    (hus₁ : ∀ j, j ≠ i → k₁.usInfos j = k.usInfos j) (hadd : k₁.usAddToList i = some k₂)
    (hpos : 0 < (k₁.usInfos i).size) (hfit : (k₁.usInfos i).size ≤ (k₂.usInfos i).base)
    (hproc : k'.processes = Function.update k.processes p { k.processes p with ustacksInfos := k₂.usListHead })
    (hus : k'.usInfos = k₂.usInfos) (hh : ∀ u ∈ g.live, (k'.threads u).home = (k.threads u).home)
    (htp : (k'.threads t).process = p) (hstack : (k'.threads t).stack = (k₂.usInfos i).stack) :
    ∃ l, StackLists k' g' ps (Function.update ns p l) := by
  have hold : ∀ q ∈ ps, ∀ j ∈ ns q, j ≠ i := fun q hq j hj he => hi q hq (he ▸ hj)
  have hlist : UsList k₁.usInfos k₁.usListHead (ns p) := by
    rw [hhead]
    refine IsList.congr (h.list p hp) (fun j hj => ?_) fun j hj => ?_
    · rw [nextUs, nextUs, hus₁ j (hold p hp j hj)]
    · rw [prevUs, prevUs, hus₁ j (hold p hp j hj)]
  have hstacks : stacksOf k₁.usInfos (ns p) = stacksOf k.usInfos (ns p) :=
    stacksOf_congr fun j hj => by rw [hus₁ j (hold p hp j hj)]
  obtain ⟨l, hrel, hlist', hperm, hplace⟩ := usAddToList_nodes hlist (hi p hp) hi0 hadd
  have hdesc : Descends (stacksOf k₂.usInfos l) := by
    have hd := (hstacks ▸ h.descends p hp : Descends (stacksOf k₁.usInfos (ns p))).add hpos (by rw [hplace]; exact hfit)
    rwa [hplace] at hd
  have hframe : ∀ q ∈ ps, q ≠ p → ∀ j ∈ ns q, k'.usInfos j = k.usInfos j := by
    intro q hq hqp j hj
    rw [hus, hrel.frame j, hus₁ j (hold q hq j hj)]
    rw [List.mem_cons, not_or]
    exact ⟨hold q hq j hj, fun hjp => hqp (h.apart q hq p hp j hj hjp)⟩
  refine ⟨l, h.replace hproc (hus ▸ hlist') hframe (fun q hq hqp j hj => ?_) (hus ▸ hdesc) ?_ (fun q hq hqp => ?_)
    (hlive ▸ List.nodup_cons.mpr ⟨ht, h.nodup⟩) fun u hu => ?_⟩
  · rcases List.mem_cons.mp (hperm.mem_iff.mp hj) with rfl | hj
    · exact hi q hq
    · exact fun hjq => hqp (h.apart q hq p hp j hjq hj)
  · rw [hus, stacksIn_cons hlive p hh, if_pos htp, hstack]
    have hrest : stacksOf k₂.usInfos (ns p) = stacksOf k.usInfos (ns p) :=
      (stacksOf_congr fun j hj => hrel.stack j (hold p hp j hj)).trans hstacks
    exact (hperm.map _).trans ((hrest ▸ h.owned p hp).cons _)
  · rw [stacksIn_cons hlive q hh, if_neg fun he => hqp (he.symm.trans htp)]
  · rw [hlive] at hu
    rcases List.mem_cons.mp hu with rfl | hu
    · exact .inr (htp ▸ hp)
    · rw [show (k'.threads u).process = _ from congrArg Home.process (hh u hu)]
      exact h.home u hu

theorem stacksIn_filter (hlive : g'.live = g.live.filter (· ≠ t))
    (hh : ∀ u ∈ g.live, (k'.threads u).home = (k.threads u).home) (p : ℕ) :
    g'.stacksIn k' p =
      ((g.live.filter fun u => (k.threads u).process = p).filter (· ≠ t)).map fun u => (k.threads u).stack := by
  have hsub : ∀ u ∈ g'.live, u ∈ g.live := fun u hu => by
    rw [hlive] at hu
    exact List.mem_of_mem_filter hu
  have h₁ : g'.stacksIn k' p = g'.stacksIn k p := stacksIn_congr rfl (fun u hu => hh u (hsub u hu)) p
  rw [h₁, Trace.stacksIn, hlive, List.filter_comm]

/-- A thread is gone that had no process. -/
theorem StackLists.removeKernelThread (h : StackLists k g ps ns) (h0 : (k.threads t).process = 0)
    (hlive : g'.live = g.live.filter (· ≠ t)) (hproc : k'.processes = k.processes) (hus : k'.usInfos = k.usInfos)
    (hh : ∀ u ∈ g.live, (k'.threads u).home = (k.threads u).home) : StackLists k' g' ps ns where
  null := h.null
  nodup := hlive ▸ h.nodup.filter _
  list := fun p hp => by
    rw [hproc, hus]
    exact h.list p hp
  apart := h.apart
  descends := fun p hp => by
    rw [hus]
    exact h.descends p hp
  owned := fun p hp => by
    have hall : (g.live.filter fun u => (k.threads u).process = p).filter (· ≠ t) =
        g.live.filter fun u => (k.threads u).process = p := by
      refine List.filter_eq_self.mpr fun u hu => ?_
      rw [List.mem_filter, decide_eq_true_iff] at hu
      rw [decide_eq_true_iff]
      rintro rfl
      exact h.null (by rw [← h0, hu.2]; exact hp)
    rw [hus, stacksIn_filter hlive hh, hall]
    exact h.owned p hp
  home := fun u hu => by
    rw [hlive] at hu
    have hu' := List.mem_of_mem_filter hu
    rw [show (k'.threads u).process = _ from congrArg Home.process (hh u hu')]
    exact h.home u hu'

/-- A user thread is gone, and its stack with it. -/
theorem StackLists.removeUserThread {k₁ k₂ : Kernel} (h : StackLists k g ps ns) (ht : t ∈ g.live) (hp : p ∈ ps)
    (htp : (k.threads t).process = p) (hlive : g'.live = g.live.filter (· ≠ t))
    (hhead : k₁.usListHead = (k.processes p).ustacksInfos) (hus₁ : k₁.usInfos = k.usInfos)
    (hfree : k₁.userFreeStack (k.threads t).userStack.bottom = some k₂)
    (hproc : k'.processes = Function.update k.processes p { k.processes p with ustacksInfos := k₂.usListHead })
    (hus : k'.usInfos = k₂.usInfos) (hh : ∀ u ∈ g.live, (k'.threads u).home = (k.threads u).home) :
    ∃ l, StackLists k' g' ps (Function.update ns p l) := by
  have hlist : UsList k₁.usInfos k₁.usListHead (ns p) := by
    rw [hus₁, hhead]
    exact h.list p hp
  have hmine : (k.threads t).stack ∈ stacksOf k₁.usInfos (ns p) := by
    rw [hus₁, (h.owned p hp).mem_iff]
    refine List.mem_map_of_mem (f := fun u => (k.threads u).stack) (List.mem_filter.mpr ⟨ht, ?_⟩)
    rwa [decide_eq_true_iff]
  have hdesc : Descends (stacksOf k₁.usInfos (ns p)) := by
    rw [hus₁]
    exact h.descends p hp
  obtain ⟨c, hc, hk₂⟩ := Option.map_eq_some_iff.mp hfree
  rcases usFind_spec hlist.seg hlist.null_notMem hc with ⟨-, hnone⟩ | ⟨xs, ys, hns, hbase, -⟩
  · obtain ⟨j, hj, hjs⟩ := List.mem_map.mp hmine
    exact absurd (congrArg UsInfo.base hjs) (hnone j hj)
  · have hc0 : c ≠ 0 := fun he => hlist.null_notMem (by rw [hns, he]; simp)
    rw [if_neg hc0] at hk₂
    dsimp only at hk₂
    generalize hfreed : intLoop (k₁.usInfos c).size (fun j vm => vm.freePage k₁.cr3
      (sub64 (k₁.usInfos c).base (intToU64 j))) k₁.vm = vm at hk₂
    rw [hns] at hlist hdesc hmine
    obtain ⟨hrel, hlist', hstacks⟩ := usRemoveFromList_nodes (k := { k₁ with vm := vm }) hlist
    rw [hk₂] at hrel hlist' hstacks
    -- the bases differ, so the record found is the one of the thread
    have hcs : (k₁.usInfos c).stack = (k.threads t).stack := by
      refine hdesc.eq_of_base ?_ hmine hbase
      exact List.mem_map_of_mem (f := fun j => (k₁.usInfos j).stack) (by simp)
    have hsub : (xs ++ ys).Sublist (xs ++ c :: ys) := (List.sublist_cons_self c ys).append_left xs
    have hmem : ∀ j ∈ xs ++ ys, j ∈ ns p := fun j hj => by
      rw [hns]
      exact hsub.subset hj
    refine ⟨xs ++ ys, h.replace hproc (hus ▸ hlist') (fun q hq hqp j hj => ?_) (fun q hq hqp j hj hjq => ?_) ?_ ?_
      (fun q hq hqp => ?_) (hlive ▸ h.nodup.filter _) fun u hu => ?_⟩
    · rw [hus, hrel.frame j, ← hus₁]
      rw [← hns]
      exact fun hjp => hqp (h.apart q hq p hp j hj hjp)
    · exact hqp (h.apart q hq p hp j hjq (hmem j hj))
    · rw [hus, hstacks]
      exact hdesc.sublist (hsub.map _)
    · rw [hus, hstacks, stacksIn_filter hlive hh]
      have howned := h.owned p hp
      rw [← hus₁, hns] at howned
      have hsplit : ((k.threads t).stack :: stacksOf k₁.usInfos (xs ++ ys)).Perm (stacksOf k₁.usInfos (xs ++ c :: ys)) := by
        rw [← hcs]
        exact (List.perm_middle.map fun j => (k₁.usInfos j).stack).symm
      have htake : (g.stacksIn k p).Perm ((k.threads t).stack ::
          ((g.live.filter fun u => (k.threads u).process = p).filter (· ≠ t)).map fun u => (k.threads u).stack) := by
        have hm : t ∈ g.live.filter fun u => (k.threads u).process = p := by
          rw [List.mem_filter, decide_eq_true_iff]
          exact ⟨ht, htp⟩
        have hnd := h.nodup.filter fun u => decide ((k.threads u).process = p)
        have herase : (g.live.filter fun u => (k.threads u).process = p).filter (· ≠ t) =
            (g.live.filter fun u => (k.threads u).process = p).erase t := by
          rw [List.Nodup.erase_eq_filter hnd]
          exact List.filter_congr fun u _ => by by_cases hu : u = t <;> simp [hu]
        rw [herase]
        exact (List.perm_cons_erase hm).map fun u => (k.threads u).stack
      exact ((hsplit.trans howned).trans htake).cons_inv
    · rw [stacksIn_filter hlive hh]
      have hall : (g.live.filter fun u => (k.threads u).process = q).filter (· ≠ t) =
          g.live.filter fun u => (k.threads u).process = q := by
        refine List.filter_eq_self.mpr fun u hu => ?_
        rw [List.mem_filter, decide_eq_true_iff] at hu
        rw [decide_eq_true_iff]
        rintro rfl
        exact hqp (hu.2.symm.trans htp)
      rw [hall]
      rfl
    · rw [hlive] at hu
      have hu' := List.mem_of_mem_filter hu
      rw [show (k'.threads u).process = _ from congrArg Home.process (hh u hu')]
      exact h.home u hu'

end Steps
end PointerOS
