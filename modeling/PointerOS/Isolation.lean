import PointerOS.VmmCalls

/-!
# Process isolation

The lower half of a process has tables of its own, the upper half is shared. Runs
start from any tables and any set of PML4s, create processes, and map and unmap
addresses of the lower half. A call on one PML4 is invisible under every other.
-/
namespace PointerOS
open Tables

/-- The indices of addresses with bit 47 clear. -/
def lowerHalf : Set (Fin 512) := {i | i.val < 256}

theorem index_mem_lowerHalf {v : ℕ} (hv : v.testBit 47 = false) : index v 3 ∈ lowerHalf := by
  rw [Nat.testBit_eq_decide_div_mod_eq, decide_eq_false_iff_not] at hv
  change v / 2 ^ 39 % 512 < 256
  omega

variable {σ : Type*} {alloc : σ → ℕ × σ} {K : Set ℕ}

def Spaces.pml4s (s : Spaces σ) : Set ℕ := {q | ∃ p ∈ s.processes, p.pml4 = q}

/-- A call on the PML4 `r` of a process. The tables it needs are taken from frames
that are no tables of an address space, and a 4 KB page is not asked for inside a
page of 2 MB. -/
inductive SpaceCall (alloc : σ → ℕ × σ) (K : Set ℕ) : Spaces σ → ℕ → Spaces σ → Prop
  | map {s : Spaces σ} {r : ℕ} (paddr vaddr ps flags : ℕ) (hr : r ∈ s.pml4s)
      (hv : vaddr.testBit 47 = false) (hhuge : ps = pageSize4KB → ¬InHugePage s.vm.tables r vaddr)
      (hf : FramesFresh alloc s.vm.tables (K ∪ s.pml4s) s.vm.pmm
        (tablesMissing s.vm.tables vaddr (tablesNeeded ps) 3 r)) :
      SpaceCall alloc K s r { s with vm := s.vm.vmmMapPage alloc r paddr vaddr ps flags }
  | unmap {s : Spaces σ} {r : ℕ} (vaddr : ℕ) (hr : r ∈ s.pml4s) (hv : vaddr.testBit 47 = false) :
      SpaceCall alloc K s r
        { s with vm := { s.vm with tables := (vmmUnmapPage s.vm.tables r vaddr).2 } }

/-- The states of the address spaces. `K` are the PML4s that were there before; the caller
of `create_user_process` runs on one of them or on that of a process. -/
inductive SpaceRun (alloc : σ → ℕ × σ) (K : Set ℕ) : Spaces σ → Prop
  | init (vm : Vm σ) (pid : ℕ) : SpaceRun alloc K ⟨vm, pid, []⟩
  | create {s : Spaces σ} (h : SpaceRun alloc K s) (p : ℕ) {cr3 : ℕ} (hc : cr3 ∈ K ∪ s.pml4s)
      (hf : FramesFresh alloc s.vm.tables (K ∪ s.pml4s) s.vm.pmm 1) :
      SpaceRun alloc K (s.createUserProcess alloc p cr3).2
  | call {s s' : Spaces σ} {r : ℕ} (h : SpaceRun alloc K s) (hc : SpaceCall alloc K s r s') :
      SpaceRun alloc K s'

/-- The separation invariant. -/
abbrev SpaceInv (K : Set ℕ) (s : Spaces σ) : Prop :=
  PrivateTables s.vm.tables (K ∪ s.pml4s) s.pml4s lowerHalf

/-! ## One call -/

section Step
variable {T : Tables} {vm : Vm σ} {roots own : Set ℕ} {priv : Set (Fin 512)} {r v : ℕ}

theorem vmmUnmapPage_isolated (h : PrivateTables T roots own priv) (hr : r ∈ own)
    (hv : index v 3 ∈ priv) : PrivateTables (vmmUnmapPage T r v).2 roots own priv ∧
      ∀ q ∈ roots, q ≠ r → ∀ w, (vmmUnmapPage T r v).2.walk q w = T.walk q w := by
  have hclear : ∀ {p f i}, T.Owned own priv r p f → PrivateTables (T.setEntry f i 0) roots own priv := by
    intro p f i ho
    refine h.setEntry_mono ho (EntryOk.of_not_present rfl) fun q hq t x ht hx => ?_
    refine h.reach_closed ho (child_eq_none.mpr ?_) hq ht hx
    rw [setEntry_same]
    exact fun hp => nomatch hp
  have hfound := vmmGetEntry_found h hr hv
  unfold vmmUnmapPage
  generalize vmmGetEntry T r v = x at hfound
  cases hfound with
  | none => exact ⟨h, fun _ _ _ _ => rfl⟩
  | huge ho => exact ⟨hclear ho, fun q hq hne w => h.walk_setEntry_of_ne ho hq hne w⟩
  | page ho => exact ⟨hclear ho, fun q hq hne w => h.walk_setEntry_of_ne ho hq hne w⟩

theorem vmmMapPage_isolated {paddr ps flags : ℕ} (h : PrivateTables vm.tables roots own priv)
    (hr : r ∈ own) (hv : index v 3 ∈ priv) (hhuge : ps = pageSize4KB → ¬InHugePage vm.tables r v)
    (hf : FramesFresh alloc vm.tables roots vm.pmm (tablesMissing vm.tables v (tablesNeeded ps) 3 r)) :
    PrivateTables (vm.vmmMapPage alloc r paddr v ps flags).tables roots own priv ∧
      ∀ q ∈ roots, q ≠ r → ∀ w,
        (vm.vmmMapPage alloc r paddr v ps flags).tables.walk q w = vm.tables.walk q w := by
  have hS := framesFresh_supply alloc roots own priv r flags v
  by_cases h4 : ps = pageSize4KB
  · subst h4
    obtain ⟨made, T', pt, he, ho, heq, -⟩ := vmmMapPage_4KB vm paddr hS h hr hv
      (noHuge_of_not_inHugePage h hr hv (hhuge rfl)) hf
    rw [heq]
    refine ⟨he.inv.setEntry_mono ho ?_ ?_, fun q hq hne w => ?_⟩
    · exact fun _ => ⟨fun hd => absurd hd (by simp), fun hd => absurd hd (by simp)⟩
    · intro q hq t x ht hx
      exact (he.inv.reach_last ho rfl hq ht).symm.trans hx
    · rw [he.inv.walk_setEntry_of_ne ho hq hne w, he.same q hq (fun hqr => absurd hqr hne) w]
  · rw [tablesNeeded, if_neg h4] at hf
    by_cases h2 : ps = pageSize2MB
    · subst h2
      obtain ⟨made, T', pd, he, ho, heq⟩ := vmmMapPage_2MB vm paddr hS h hr hv hf
      have hs : pageSize (paddr ||| (ptePresent ||| ptePageSize ||| flags)) = true := by simp
      rw [heq]
      refine ⟨he.inv.setEntry_mono ho ?_ ?_, fun q hq hne w => ?_⟩
      · exact fun _ => ⟨fun hd => absurd hd (by simp), fun _ hps => absurd (hs.symm.trans hps) (by simp)⟩
      · intro q hq t x ht hx
        refine he.inv.reach_closed ho (child_eq_none.mpr fun _ => ?_) hq ht hx
        rwa [setEntry_same]
      · rw [he.inv.walk_setEntry_of_ne ho hq hne w, he.same q hq (fun hqr => absurd hqr hne) w]
    · obtain ⟨made, he, -, -, -⟩ := tablesDown_spec (m := 2) (n := 3) hS h (owned_root hr) rfl (by simp) hv
        (fun hd => absurd hd (by simp)) hf (fun _ q i s f _ hq => absurd hq (by simp))
      have heq : vm.vmmMapPage alloc r paddr v ps flags = (tablesDown alloc v flags 2 3 r vm).2 := by
        simp only [Vm.vmmMapPage, if_neg h4, if_neg h2, tablesDown]
      rw [heq]
      exact ⟨he.inv, fun q hq hne w => he.same q hq (fun hqr => absurd hqr hne) w⟩

/-- One call keeps the separation and changes the translation of its own PML4 only. -/
theorem SpaceCall.step {s s' : Spaces σ} (h : SpaceInv K s) (hc : SpaceCall alloc K s r s') :
    SpaceInv K s' ∧ ∀ q ∈ K ∪ s.pml4s, q ≠ r → ∀ w, s'.vm.tables.walk q w = s.vm.tables.walk q w := by
  cases hc with
  | map paddr vaddr ps flags hr hv hhuge hf =>
    exact vmmMapPage_isolated h hr (index_mem_lowerHalf hv) hhuge hf
  | unmap vaddr hr hv => exact vmmUnmapPage_isolated h hr (index_mem_lowerHalf hv)

end Step

/-! ## A new process -/

theorem copyHalf_inv {T : Tables} {roots own : Set ℕ} {g cr3 : ℕ}
    (h : PrivateTables T roots own lowerHalf) (hc : cr3 ∈ roots) (hg : T.Fresh roots g) :
    PrivateTables (Spaces.copyHalf T g cr3) (insert g roots) (insert g own) lowerHalf := by
  have hother : ∀ f, f ≠ g → Spaces.copyHalf T g cr3 f = T f := fun f hf => funext fun i => if_neg hf
  have hpriv : ∀ i ∈ lowerHalf, Spaces.copyHalf T g cr3 g i = 0 := fun i hi => by
    rw [Spaces.copyHalf, if_pos rfl]
    exact if_pos hi
  have hcopy : ∀ i, i ∉ lowerHalf → Spaces.copyHalf T g cr3 g i = T cr3 i := fun i hi => by
    rw [Spaces.copyHalf, if_pos rfl]
    exact if_neg hi
  have hclosed : ∀ i ∈ lowerHalf, (Spaces.copyHalf T g cr3).child g i = none := fun i hi =>
    child_eq_none.mpr (by
      rw [hpriv i hi]
      exact fun hp => nomatch hp)
  refine ⟨h.separated.create hc hg (fun f i hf => child_congr (congrFun (hother f hf) i)) hclosed
    fun i hi => ?_, ?_⟩
  · unfold child
    rw [hcopy i hi]
  · intro r p f ho i hi
    rcases ho.root with rfl | hr
    · cases p with
      | nil =>
        obtain rfl : r = f := Option.some.inj ho.reach
        rw [hpriv i (hi rfl)]
        exact EntryOk.of_not_present rfl
      | cons j p =>
        have hr := ho.reach
        rw [Radix.reach_cons, hclosed j (ho.priv j rfl)] at hr
        exact nomatch hr
    · have hroot := h.separated.subset hr
      have hreach := (hg.reach_eq hother hroot ho.depth).symm.trans ho.reach
      have hfg : f ≠ g := by
        rintro rfl
        exact hg r hroot p ho.depth hreach
      rw [hother f hfg]
      exact h.entries ⟨hr, ho.priv, ho.depth, hreach⟩ i hi

theorem createUserProcess_inv {s : Spaces σ} {p cr3 : ℕ} (h : SpaceInv K s) (hc : cr3 ∈ K ∪ s.pml4s)
    (hf : FramesFresh alloc s.vm.tables (K ∪ s.pml4s) s.vm.pmm 1) :
    SpaceInv K (s.createUserProcess alloc p cr3).2 := by
  unfold Spaces.createUserProcess
  by_cases hp : p = 0
  · rw [if_pos hp]
    exact h
  rw [if_neg hp]
  dsimp only
  split_ifs
  · exact h
  · have hnew := copyHalf_inv h hc hf.head.2
    have hown : ∀ (vm : Vm σ) (pid pid' : ℕ), Spaces.pml4s ⟨vm, pid,
        ⟨(alloc s.vm.pmm).1, pid'⟩ :: s.processes⟩ = insert (alloc s.vm.pmm).1 s.pml4s := by
      intro vm pid pid'
      ext q
      simp [Spaces.pml4s, eq_comm]
    unfold SpaceInv
    rw [hown, Set.union_insert]
    exact hnew

theorem SpaceRun.inv {s : Spaces σ} (h : SpaceRun alloc K s) : SpaceInv K s := by
  induction h with
  | init vm pid =>
    have hnone : (⟨vm, pid, []⟩ : Spaces σ).pml4s = ∅ := by
      ext q
      simp [Spaces.pml4s]
    refine ⟨⟨?_, ?_⟩, ?_⟩
    · exact Set.subset_union_right
    · intro r p f ho
      rw [hnone] at ho
      exact absurd ho.root (Set.notMem_empty r)
    · intro r p f ho
      rw [hnone] at ho
      exact absurd ho.root (Set.notMem_empty r)
  | create _ p hc hf ih => exact createUserProcess_inv ih hc hf
  | call _ hc ih => exact (hc.step ih).1

/-- A call on one PML4 leaves the translation of every address under every other PML4
unchanged. -/
theorem process_isolation {s s' : Spaces σ} {r q : ℕ} (h : SpaceRun alloc K s)
    (hc : SpaceCall alloc K s r s') (hq : q ∈ K ∪ s.pml4s) (hne : q ≠ r) (v : ℕ) :
    s'.vm.tables.walk q v = s.vm.tables.walk q v :=
  (hc.step h.inv).2 q hq hne v


/-! ## A run -/

/-- An allocator that hands out one frame after the other. -/
def nextFrame (n : ℕ) : ℕ × ℕ := (n * 4096, n + 1)

def noProcess : Spaces ℕ := ⟨⟨fun _ _ => 0, 1⟩, 1, []⟩

/-- Processes made over empty tables. -/
def oneProcess : Spaces ℕ := (noProcess.createUserProcess nextFrame 1 0).2

def twoProcesses : Spaces ℕ := (oneProcess.createUserProcess nextFrame 1 0).2

theorem copyHalf_empty {T : Tables} (hT : ∀ f i, T f i = 0) (g old : ℕ) (f : ℕ) (i : Fin 512) :
    Spaces.copyHalf T g old f i = 0 := by
  unfold Spaces.copyHalf
  split_ifs
  · rfl
  · exact hT old i
  · exact hT f i

theorem framesTaken_nextFrame (s k : ℕ) :
    framesTaken nextFrame s k = (List.range' s k).map (· * 4096) := by
  induction k generalizing s with
  | zero => rfl
  | succ k ih => rw [framesTaken, List.range'_succ, List.map_cons, nextFrame, ih]

/-- The next frames are above all tables. -/
theorem framesFresh_nextFrame {T : Tables} {roots : Set ℕ} {s k : ℕ}
    (hT : ∀ r ∈ roots, ∀ p f, p.length ≤ 3 → T.reach r p = some f → f < s * 4096) (hk : s + k ≤ 2 ^ 40) :
    FramesFresh nextFrame T roots s k := by
  constructor
  · rw [framesTaken_nextFrame]
    refine List.Nodup.map (fun a b hab => ?_) List.nodup_range'
    exact Nat.eq_of_mul_eq_mul_right (by decide) hab
  · intro g hg
    rw [framesTaken_nextFrame, List.mem_map] at hg
    obtain ⟨n, hn, rfl⟩ := hg
    rw [List.mem_range'_1] at hn
    refine ⟨⟨Nat.mul_mod_left n 4096, by omega⟩, fun r hr p hp hx => ?_⟩
    have := hT r hr p _ hp hx
    omega

theorem framesFresh_of_empty {T : Tables} {roots : Set ℕ} {s k : ℕ} (hT : ∀ f i, T f i = 0)
    (hroots : ∀ r ∈ roots, r < s * 4096) (hk : s + k ≤ 2 ^ 40) : FramesFresh nextFrame T roots s k := by
  refine framesFresh_nextFrame (fun r hr p f _ hf => ?_) hk
  obtain ⟨-, rfl⟩ := reach_of_empty hT hf
  exact hroots _ hr

/-- A page mapped in the first process is not seen in the second. -/
theorem process_isolation_map_page :
    (twoProcesses.vm.vmmMapPage nextFrame 0x1000 0x100000 0x400000 pageSize4KB 7).tables.walk 0x1000 0x400123 =
      some ⟨0x100123, true, true⟩ ∧
    (twoProcesses.vm.vmmMapPage nextFrame 0x1000 0x100000 0x400000 pageSize4KB 7).tables.walk 0x2000 0x400123 =
      twoProcesses.vm.tables.walk 0x2000 0x400123 := by
  refine ⟨by decide +kernel, ?_⟩
  have hempty₀ : ∀ f i, noProcess.vm.tables f i = 0 := fun _ _ => rfl
  have hempty₁ : ∀ f i, oneProcess.vm.tables f i = 0 := copyHalf_empty hempty₀ 0x1000 0
  have hempty : ∀ f i, twoProcesses.vm.tables f i = 0 := copyHalf_empty hempty₁ 0x2000 0
  have hrun₁ : SpaceRun nextFrame {0} oneProcess := by
    refine .create (.init _ 1) 1 (Or.inl rfl) (framesFresh_of_empty hempty₀ ?_ (by decide))
    rintro r (rfl | ⟨p, hp, rfl⟩)
    · decide
    · cases hp
  have hrun : SpaceRun nextFrame {0} twoProcesses := by
    refine .create hrun₁ 1 (Or.inl rfl) (framesFresh_of_empty hempty₁ ?_ (by decide))
    rintro r (rfl | ⟨p, hp, rfl⟩)
    · decide
    · obtain rfl : p = ⟨0x1000, 1⟩ := List.mem_singleton.mp hp
      decide
  have hfirst : 0x1000 ∈ twoProcesses.pml4s := ⟨⟨0x1000, 1⟩, by decide, rfl⟩
  have hsecond : 0x2000 ∈ twoProcesses.pml4s := ⟨⟨0x2000, 2⟩, by decide, rfl⟩
  refine process_isolation hrun (.map 0x100000 0x400000 pageSize4KB 7 hfirst (by decide) ?_ ?_)
    (Or.inr hsecond) (by decide) 0x400123
  · rintro - ⟨e, he, -⟩
    rw [vmmGetEntry, hempty] at he
    cases he
  · refine framesFresh_of_empty hempty ?_ (by decide +kernel)
    rintro r (rfl | ⟨p, hp, rfl⟩)
    · decide
    · change p ∈ [⟨0x2000, 2⟩, ⟨0x1000, 1⟩] at hp
      rw [List.mem_pair] at hp
      rcases hp with rfl | rfl <;> decide

end PointerOS
