import PointerOS.Descriptors
import PointerOS.SpaceSwitch

/-!
# When the creation of a thread fails

A thread takes a record, a kernel stack and for a process a user stack. A creation that fails gives
back the record and leaves everything else as it was, but for two cases: the user stack is not looked
at, and a region that is placed at address 0 is taken for none.
-/
namespace PointerOS

/-- The state after a creation that failed: the live allocations, the pointers given to `kfree`, and all of the
kernel are as before. -/
structure Undone (s s' : System) : Prop where
  live : s'.live = s.live
  stray : s'.stray = s.stray
  kernel : s'.kernel = s.kernel

/-- The stack list and the address space of the process `proc`. -/
def System.enter (s : System) (proc : ℕ) : System :=
  { s with kernel := { s.kernel with
      usListHead := (s.kernel.processes proc).ustacksInfos
      cr3 := (s.kernel.processes proc).pml4 } }

/-- An allocation of `create_thread` fails: that of the record or that of the stack. -/
inductive ThreadFails (s : System) (size : ℕ) : Prop
  | record {s₁ : System} (h : s.kmalloc threadSize = some (0, s₁)) : ThreadFails s size
  | stack {t : ℕ} {s₁ s₂ : System} (ht : t ≠ 0) (h : s.kmalloc threadSize = some (t, s₁))
      (hstack : s₁.vmalloc size = some (0, s₂)) : ThreadFails s size

/-- An allocation of `create_user_thread` fails. -/
inductive UserThreadFails (s : System) (proc ksize usize : ℕ) : Prop
  | kernel (h : ThreadFails s ksize) : UserThreadFails s proc ksize usize
  | user {t base : ℕ} {s₁ s₂ s₃ : System} (ht : t ≠ 0) (h : s.kmalloc threadSize = some (t, s₁)) (hb : base ≠ 0)
      (hstack : s₁.vmalloc ksize = some (base, s₂))
      (huser : (s₂.enter proc).userAllocStack usize = some (0, s₃)) : UserThreadFails s proc ksize usize

/-- The heap has the record of a thread, and that of the region of a stack of `size` bytes. -/
def TakesRecords (s : System) (size t info : ℕ) (s₂ : System) : Prop :=
  t ≠ 0 ∧ size ≠ 0 ∧ info ≠ 0 ∧ ∃ s₁, s.kmalloc threadSize = some (t, s₁) ∧ s₁.kmalloc infoSize = some (info, s₂)

/-- The place that `us_add_to_list` has for a stack of `size` bytes with the record `i` in the list from `head` on. -/
def Kernel.usPlace (k : Kernel) (head i size : ℕ) : Option ℕ :=
  let nodes := Function.update k.usInfos i { k.usInfos i with size := size }
  if head = 0 then some userStackMax
  else (usFindGap nodes size (2 ^ 64) head).map fun c => sub64 (nodes c).base (nodes c).size

/-- The kernel stack is not placed at address 0. -/
def RegionPlaced (s : System) (size : ℕ) : Prop :=
  ∀ t info s₂, TakesRecords s size t info s₂ → (vmAddToList s.kernel.regions size).1 ≠ 0

/-- When the record and the kernel stack are there, a user stack is asked for, its record is there too, and it is not
placed at address 0. -/
def UserStackPlaced (s : System) (proc ksize usize : ℕ) : Prop :=
  ∀ t info s₂, TakesRecords s ksize t info s₂ → usize ≠ 0 ∧ ∀ i s₃, s₂.kmalloc infoSize = some (i, s₃) →
    i ≠ 0 ∧ s.kernel.usPlace (s.kernel.processes proc).ustacksInfos i usize ≠ some 0

section Calls
variable {img : Image} {s s₁ s₂ s' : System} {t info size entry proc ksize usize : ℕ}

theorem Kernel.kernelAllocStack_none (k : Kernel) (h : size = 0 ∨ info = 0) :
    k.kernelAllocStack info size = (0, k) := by
  unfold kernelAllocStack
  split_ifs with h0
  · rfl
  · have hinfo := h.resolve_left h0
    simp only [VmallocState.vmalloc, if_neg h0, if_pos hinfo]

theorem Kernel.kernelAllocStack_place (k : Kernel) (h0 : size ≠ 0) (hinfo : info ≠ 0) :
    (k.kernelAllocStack info size).1 = (vmAddToList k.regions size).1 := by
  simp only [kernelAllocStack, VmallocState.vmalloc, if_neg h0, if_neg hinfo]

/-- The record of the thread. -/
theorem record_cases (run : s.HeapReached) :
    (∃ s₁, s.kmalloc threadSize = some (0, s₁) ∧ Undone s s₁) ∨
    ∃ t s₁, t ≠ 0 ∧ s.kmalloc threadSize = some (t, s₁) ∧ s₁.HeapReached ∧ s₁.live = (t, threadSize) :: s.live ∧
      s₁.stray = s.stray ∧ s₁.kernel = s.kernel := by
  have hreturns : ∃ t s₁, s.kmalloc threadSize = some (t, s₁) := System.kmalloc_returns run (by decide)
  obtain ⟨t, s₁, h⟩ := hreturns
  have halloc := System.kmalloc_allocates run (by decide) h
  have heq := halloc.eq
  by_cases ht : t = 0
  · subst ht
    refine .inl ⟨s₁, h, halloc.live.trans (if_pos rfl), ?_, ?_⟩ <;> rw [heq]
  · refine .inr ⟨t, s₁, ht, h, halloc.reached, halloc.live.trans (if_neg ht), ?_, ?_⟩ <;> rw [heq]

/-- The record of a stack. -/
theorem descriptor_cases (run : s.HeapReached) (size : ℕ) : ∃ info s₁, s.descriptor size = some (info, s₁) ∧
    s₁.HeapReached ∧ s₁.stray = s.stray ∧ s₁.kernel = s.kernel ∧
    ((size = 0 ∨ info = 0) ∧ s₁.live = s.live ∨
      size ≠ 0 ∧ info ≠ 0 ∧ s.kmalloc infoSize = some (info, s₁) ∧ s₁.live = (info, infoSize) :: s.live) := by
  unfold System.descriptor
  by_cases h0 : size = 0
  · exact ⟨0, s, if_pos h0, run, rfl, rfl, .inl ⟨.inl h0, rfl⟩⟩
  · rw [if_neg h0]
    have hreturns : ∃ info s₁, s.kmalloc infoSize = some (info, s₁) := System.kmalloc_returns run (by decide)
    obtain ⟨info, s₁, h⟩ := hreturns
    have halloc := System.kmalloc_allocates run (by decide) h
    have heq := halloc.eq
    refine ⟨info, s₁, h, halloc.reached, by rw [heq], by rw [heq], ?_⟩
    by_cases hinfo : info = 0
    · exact .inl ⟨.inr hinfo, halloc.live.trans (if_pos hinfo)⟩
    · exact .inr ⟨h0, hinfo, h, halloc.live.trans (if_neg hinfo)⟩

/-- The record goes back. -/
theorem undone_kfree (ht : t ≠ 0) (hlive : s₁.live = (t, size) :: s.live) (hstray : s₁.stray = s.stray)
    (hk : s₁.kernel = s.kernel) : Undone s (s₁.kfree t) := by
  have heq : s₁.kfree t = { s₁ with heap := s₁.heap.kfree t, live := s.live } := by
    unfold System.kfree
    rw [if_neg ht, hlive, List.find?_cons_of_pos (by simp)]
    dsimp only
    rw [List.erase_cons_head]
  rw [heq]
  exact ⟨rfl, hstray, hk⟩

/-- At most one allocation is gone. -/
theorem length_kfree (s : System) (p : ℕ) : s.live.length ≤ (s.kfree p).live.length + 1 := by
  unfold System.kfree
  split_ifs
  · exact Nat.le_succ _
  · cases h : s.live.find? fun e => decide (e.1 = p) with
    | none => exact Nat.le_succ _
    | some e =>
      dsimp only
      rw [List.length_erase_of_mem (List.mem_of_find?_eq_some h)]
      omega

theorem kernel_of_kmalloc {p : ℕ} (h : s.kmalloc size = some (p, s₁)) : s₁.kernel = s.kernel := by
  obtain ⟨q, -, heq⟩ := Option.map_eq_some_iff.mp h
  obtain ⟨-, rfl⟩ := Prod.mk.inj heq
  rfl

theorem TakesRecords.vmalloc (h : TakesRecords s size t info s₂) : ∃ s₁, s.kmalloc threadSize = some (t, s₁) ∧
    s₁.vmalloc size = some ((vmAddToList s.kernel.regions size).1,
      { s₂ with kernel := (s.kernel.kernelAllocStack info size).2 }) := by
  obtain ⟨ht, h0, hinfo, s₁, h₁, h₂⟩ := h
  have hk : s₂.kernel = s.kernel := (kernel_of_kmalloc h₂).trans (kernel_of_kmalloc h₁)
  refine ⟨s₁, h₁, ?_⟩
  unfold System.vmalloc System.descriptor
  rw [if_neg h0, h₂, Option.map_some, ← hk]
  simp only [Kernel.kernelAllocStack, VmallocState.vmalloc, if_neg h0, if_neg hinfo]

/-- Without the two records the creation is undone. -/
theorem fails_early (entry proc usize : ℕ) (run : s.HeapReached)
    (h : ∀ t info s₂, ¬TakesRecords s size t info s₂) :
    (∃ s', (∀ img, s.createThread img entry size = some (0, s')) ∧ Undone s s') ∧
      ∃ s', s.createUserThread proc entry size usize = some (0, s') ∧ Undone s s' := by
  rcases record_cases run with ⟨s₁, h₁, hu⟩ | ⟨t, s₁, ht, h₁, run₁, hlive₁, hstray₁, hk₁⟩
  · refine ⟨⟨s₁, fun img => ?_, hu⟩, s₁, ?_, hu⟩
    · rw [System.createThread, h₁]
      rfl
    · rw [System.createUserThread, h₁]
      rfl
  · obtain ⟨info, s₂, h₂, -, hstray₂, hk₂, hnone | hmade⟩ := descriptor_cases run₁ size
    · obtain ⟨hnone, hlive₂⟩ := hnone
      have hu : Undone s (s₂.kfree t) :=
        undone_kfree ht (hlive₂.trans hlive₁) (hstray₂.trans hstray₁) (hk₂.trans hk₁)
      refine ⟨⟨_, fun img => ?_, hu⟩, _, ?_, hu⟩
      · rw [System.createThread, h₁, Option.bind_some]
        dsimp only
        rw [if_neg ht, h₂, Option.map_some, Kernel.createThread, if_neg ht, Kernel.kernelAllocStack_none _ hnone]
        rfl
      · rw [System.createUserThread, h₁, Option.bind_some]
        dsimp only
        rw [if_neg ht, h₂, Option.bind_some, Kernel.kernelAllocStack_none _ hnone]
        rfl
    · obtain ⟨h0, hinfo, hcall, -⟩ := hmade
      exact absurd ⟨ht, h0, hinfo, s₁, h₁, hcall⟩ (h t info s₂)

/-- A region at address 0 is taken for none, and its record stays. -/
theorem TakesRecords.lost (entry proc usize : ℕ) (run : s.HeapReached)
    (h : TakesRecords s size t info s₂) (hplace : (vmAddToList s.kernel.regions size).1 = 0) :
    ∃ s', (∀ img, s.createThread img entry size = some (0, s')) ∧
      s.createUserThread proc entry size usize = some (0, s') ∧ ¬Undone s s' := by
  obtain ⟨ht, h0, hinfo, s₁, h₁, h₂⟩ := h
  have halloc₁ := System.kmalloc_allocates run (by decide) h₁
  have halloc₂ := System.kmalloc_allocates halloc₁.reached (by decide) h₂
  have hk : s₂.kernel = s.kernel := by rw [halloc₂.eq, halloc₁.eq]
  have hnull : (s₂.kernel.kernelAllocStack info size).1 = 0 := by
    rw [Kernel.kernelAllocStack_place _ h0 hinfo, hk, hplace]
  have hdesc : s₁.descriptor size = some (info, s₂) := by rw [System.descriptor, if_neg h0, h₂]
  refine ⟨{ s₂ with kernel := (s₂.kernel.kernelAllocStack info size).2 }.kfree t, fun img => ?_, ?_, fun hu => ?_⟩
  · rw [System.createThread, h₁, Option.bind_some]
    dsimp only
    rw [if_neg ht, hdesc, Option.map_some]
    simp only [Kernel.createThread, if_neg ht, hnull, if_true]
  · rw [System.createUserThread, h₁, Option.bind_some]
    dsimp only
    rw [if_neg ht, hdesc, Option.bind_some]
    simp only [hnull, if_true]
  · have hlen := length_kfree { s₂ with kernel := (s₂.kernel.kernelAllocStack info size).2 } t
    have hlive : s₂.live = (info, infoSize) :: (t, threadSize) :: s.live := by
      rw [halloc₂.live, if_neg hinfo, halloc₁.live, if_neg ht]
    rw [hu.live] at hlen
    dsimp only at hlen
    rw [hlive, List.length_cons, List.length_cons] at hlen
    omega

theorem TakesRecords.not_fails (h : TakesRecords s size t info s₂)
    (hplace : (vmAddToList s.kernel.regions size).1 ≠ 0) : ¬ThreadFails s size := by
  obtain ⟨s₁, h₁, hv⟩ := h.vmalloc
  intro hfails
  cases hfails with
  | record hnull =>
    obtain ⟨rfl, -⟩ := Prod.mk.inj (Option.some.inj (h₁.symm.trans hnull))
    exact h.1 rfl
  | stack _ h' hstack =>
    obtain ⟨rfl, rfl⟩ := Prod.mk.inj (Option.some.inj (h₁.symm.trans h'))
    exact hplace (Prod.mk.inj (Option.some.inj (hv.symm.trans hstack))).1

/-- `create_thread` notices every failure, but a region at address 0 is not given back. -/
theorem createThread_undone_iff (run : s.HeapReached) :
    (ThreadFails s size → ∃ s', s.createThread img entry size = some (0, s') ∧ Undone s s') ↔
      RegionPlaced s size := by
  constructor
  · intro hundone t info s₂ htaken hplace
    obtain ⟨s₁, h₁, hv⟩ := htaken.vmalloc
    rw [hplace] at hv
    obtain ⟨s', hs', hu⟩ := hundone (.stack htaken.1 h₁ hv)
    obtain ⟨s'', hs'', -, hnot⟩ := htaken.lost entry 0 0 run hplace
    obtain ⟨-, rfl⟩ := Prod.mk.inj (Option.some.inj (hs'.symm.trans (hs'' img)))
    exact hnot hu
  · intro hplaced hfails
    by_cases htaken : ∃ t info s₂, TakesRecords s size t info s₂
    · obtain ⟨t, info, s₂, htaken⟩ := htaken
      exact absurd hfails (htaken.not_fails (hplaced t info s₂ htaken))
    · obtain ⟨s', hs', hu⟩ := (fails_early entry 0 0 run fun t info s₂ h => htaken ⟨t, info, s₂, h⟩).1
      exact ⟨s', hs' img, hu⟩

theorem Kernel.setUsInfo_base (k : Kernel) (j i : ℕ) {f : UsNode → UsNode} (hf : ∀ n, (f n).base = n.base) :
    ((k.setUsInfo j f).usInfos i).base = (k.usInfos i).base := by
  unfold setUsInfo
  dsimp only
  by_cases hij : i = j
  · rw [hij, Function.update_self, hf]
  · rw [Function.update_of_ne hij]

/-- The place of the stack is what `user_alloc_stack` returns. -/
theorem Kernel.userAllocStack_place (k : Kernel) {i : ℕ} (h0 : usize ≠ 0) (hi : i ≠ 0) :
    (k.userAllocStack i usize).map Prod.fst = k.usPlace k.usListHead i usize := by
  unfold userAllocStack usPlace
  rw [if_neg h0, if_neg hi, Option.map_map]
  unfold usAddToList
  by_cases hhead : k.usListHead = 0
  · have hhead' : (k.setUsInfo i fun n => { n with size := usize }).usListHead = 0 := hhead
    rw [if_pos hhead, if_pos hhead']
    simp [setUsInfo]
  · have hhead' : ¬(k.setUsInfo i fun n => { n with size := usize }).usListHead = 0 := hhead
    rw [if_neg hhead, if_neg hhead', Option.map_map]
    have hsize : ((k.setUsInfo i fun n => { n with size := usize }).usInfos i).size = usize := by simp [setUsInfo]
    rw [hsize]
    refine Option.map_congr fun c _ => ?_
    have hbase : ∀ (k : Kernel) (j : ℕ) (b c d : ℕ),
        (((k.setUsInfo i fun n => { n with base := b, next := c, prev := d }).setUsInfo j
          fun n => { n with next := i }).usInfos i).base = b := fun k j b c d => by
      rw [setUsInfo_base _ j i (f := fun n => { n with next := i }) fun _ => rfl]
      simp [setUsInfo]
    simp only [Function.comp_apply]
    split_ifs
    · rw [hbase]
      simp [setUsInfo]
    · rw [setUsInfo_base _ _ i (f := fun n => { n with prev := i }) fun _ => rfl, hbase]
      simp [setUsInfo]

theorem System.kmalloc_with (s : System) (k : Kernel) (size : ℕ) :
    { s with kernel := k }.kmalloc size = (s.kmalloc size).map fun p => (p.1, { p.2 with kernel := k }) := by
  unfold System.kmalloc
  rw [Option.map_map]
  rfl

/-- The user stack fails without a size, without its record, and at address 0. -/
theorem System.userAllocStack_null_iff (s : System) (usize : ℕ) : (∃ s', s.userAllocStack usize = some (0, s')) ↔
    usize = 0 ∨ ∃ i s₁, s.kmalloc infoSize = some (i, s₁) ∧
      (i = 0 ∨ s₁.kernel.usPlace s₁.kernel.usListHead i usize = some 0) := by
  unfold System.userAllocStack System.descriptor
  by_cases h0 : usize = 0
  · refine iff_of_true ⟨s, ?_⟩ (.inl h0)
    rw [if_pos h0, Option.bind_some]
    dsimp only
    rw [Kernel.userAllocStack, if_pos h0]
    rfl
  · rw [if_neg h0, or_iff_right h0]
    cases hcall : s.kmalloc infoSize with
    | none => simp
    | some p =>
      obtain ⟨i, s₁⟩ := p
      have hgoal : (∃ s', ((s₁.kernel.userAllocStack i usize).map fun p => (p.1, { s₁ with kernel := p.2 })) =
          some (0, s')) ↔ (s₁.kernel.userAllocStack i usize).map Prod.fst = some 0 := by
        cases s₁.kernel.userAllocStack i usize with
        | none => simp
        | some q => simp
      have hplace : (s₁.kernel.userAllocStack i usize).map Prod.fst = some 0 ↔
          i = 0 ∨ s₁.kernel.usPlace s₁.kernel.usListHead i usize = some 0 := by
        by_cases hi : i = 0
        · refine iff_of_true ?_ (.inl hi)
          rw [Kernel.userAllocStack, if_neg h0, if_pos hi]
          rfl
        · rw [or_iff_right hi, Kernel.userAllocStack_place _ h0 hi]
      rw [Option.bind_some]
      refine hgoal.trans (hplace.trans ?_)
      constructor
      · intro h
        exact ⟨i, s₁, rfl, h⟩
      · rintro ⟨i', s', heq, h⟩
        obtain ⟨rfl, rfl⟩ := Prod.mk.inj (Option.some.inj heq)
        exact h

/-- With the kernel stack in place the creation of a user thread does not fail any more. -/
theorem TakesRecords.goes_on (h : TakesRecords s ksize t info s₂)
    (hplace : (vmAddToList s.kernel.regions ksize).1 ≠ 0) {r : ℕ}
    (hr : s.createUserThread proc entry ksize usize = some (r, s')) : r ≠ 0 := by
  obtain ⟨ht, h0, hinfo, s₁, h₁, h₂⟩ := h
  have hk : s₂.kernel = s.kernel := (kernel_of_kmalloc h₂).trans (kernel_of_kmalloc h₁)
  have hmade : (s₂.kernel.kernelAllocStack info ksize).1 ≠ 0 := by
    rw [Kernel.kernelAllocStack_place _ h0 hinfo, hk]
    exact hplace
  have hdesc : s₁.descriptor ksize = some (info, s₂) := by rw [System.descriptor, if_neg h0, h₂]
  rw [System.createUserThread, h₁, Option.bind_some] at hr
  dsimp only at hr
  rw [if_neg ht, hdesc, Option.bind_some] at hr
  dsimp only at hr
  rw [if_neg hmade] at hr
  obtain ⟨⟨usInfo, s₃⟩, h₃, hr⟩ := Option.bind_eq_some_iff.mp hr
  obtain ⟨⟨r', k⟩, hcreate, heq⟩ := Option.map_eq_some_iff.mp hr
  obtain ⟨rfl, -⟩ := Prod.mk.inj heq
  have hk₃ : s₃.kernel = s₂.kernel := by
    unfold System.descriptor at h₃
    split_ifs at h₃
    · obtain ⟨-, rfl⟩ := Prod.mk.inj (Option.some.inj h₃)
      rfl
    · exact kernel_of_kmalloc h₃
  dsimp only at hcreate
  rw [hk₃, Kernel.createUserThread, if_neg ht] at hcreate
  dsimp only at hcreate
  rw [if_neg hmade] at hcreate
  obtain ⟨_, -, heq'⟩ := Option.bind_eq_some_iff.mp hcreate
  split_ifs at heq'
  obtain ⟨rfl, -⟩ := Prod.mk.inj (Option.some.inj heq')
  exact ht

theorem Kernel.usPlace_congr {k k' : Kernel} (h : k.SameSpace k') : k'.usPlace = k.usPlace := by
  funext head i size
  unfold usPlace
  rw [h.usInfos]

/-- What `user_alloc_stack` comes to in the address space of the process. -/
theorem System.enter_null_iff (s : System) {k : Kernel} (h : s.kernel.SameSpace k) (proc usize : ℕ) :
    (∃ s', ({ s with kernel := k }.enter proc).userAllocStack usize = some (0, s')) ↔
      ¬(usize ≠ 0 ∧ ∀ i s₁, s.kmalloc infoSize = some (i, s₁) →
        i ≠ 0 ∧ s.kernel.usPlace (s.kernel.processes proc).ustacksInfos i usize ≠ some 0) := by
  have hcall : ({ s with kernel := k }.enter proc).kmalloc infoSize =
      (s.kmalloc infoSize).map fun p => (p.1, { p.2 with kernel := k }.enter proc) :=
    System.kmalloc_with s _ infoSize
  have hplace (s₁ : System) : ({ s₁ with kernel := k }.enter proc).kernel.usPlace
      ({ s₁ with kernel := k }.enter proc).kernel.usListHead =
        s.kernel.usPlace (s.kernel.processes proc).ustacksInfos := by
    have hlist : (k.processes proc).ustacksInfos = (s.kernel.processes proc).ustacksInfos := by rw [h.processes]
    rw [← hlist, ← Kernel.usPlace_congr h]
    rfl
  rw [System.userAllocStack_null_iff, hcall, Classical.not_and_iff_not_or_not, not_not]
  refine or_congr_right ?_
  cases s.kmalloc infoSize with
  | none => simp
  | some p =>
    constructor
    · rintro ⟨i, s₁, heq, hnull⟩ hall
      rw [Option.map_some] at heq
      obtain ⟨rfl, rfl⟩ := Prod.mk.inj (Option.some.inj heq)
      obtain ⟨hi, hne⟩ := hall p.1 p.2 rfl
      rw [hplace] at hnull
      exact hnull.elim hi hne
    · intro hnot
      refine ⟨p.1, _, rfl, ?_⟩
      rw [hplace]
      by_contra hno
      rw [not_or] at hno
      refine hnot fun i s₁ heq => ?_
      obtain rfl : p.1 = i := congrArg Prod.fst (Option.some.inj heq)
      exact hno

theorem TakesRecords.user_null_iff (h : TakesRecords s ksize t info s₂) (proc usize : ℕ) :
    (∃ s', ({ s₂ with kernel := (s.kernel.kernelAllocStack info ksize).2 }.enter proc).userAllocStack usize =
        some (0, s')) ↔
      ¬(usize ≠ 0 ∧ ∀ i s₃, s₂.kmalloc infoSize = some (i, s₃) →
        i ≠ 0 ∧ s.kernel.usPlace (s.kernel.processes proc).ustacksInfos i usize ≠ some 0) := by
  obtain ⟨-, -, -, s₁, h₁, h₂⟩ := h
  have hk : s₂.kernel = s.kernel := (kernel_of_kmalloc h₂).trans (kernel_of_kmalloc h₁)
  rw [← hk]
  exact s₂.enter_null_iff (s₂.kernel.kernelAllocStack_space info ksize) proc usize

/-- `create_user_thread` does not look at a user stack that failed. -/
theorem createUserThread_undone_iff (run : s.HeapReached) :
    (UserThreadFails s proc ksize usize →
        ∃ s', s.createUserThread proc entry ksize usize = some (0, s') ∧ Undone s s') ↔
      RegionPlaced s ksize ∧ UserStackPlaced s proc ksize usize := by
  constructor
  · intro hundone
    have hplaced : RegionPlaced s ksize := by
      intro t info s₂ htaken hplace
      obtain ⟨s₁, h₁, hv⟩ := htaken.vmalloc
      rw [hplace] at hv
      obtain ⟨s', hs', hu⟩ := hundone (.kernel (.stack htaken.1 h₁ hv))
      obtain ⟨s'', -, hs'', hnot⟩ := htaken.lost entry proc usize run hplace
      obtain ⟨-, rfl⟩ := Prod.mk.inj (Option.some.inj (hs'.symm.trans hs''))
      exact hnot hu
    refine ⟨hplaced, fun t info s₂ htaken => ?_⟩
    by_contra hno
    obtain ⟨s₁, h₁, hv⟩ := htaken.vmalloc
    obtain ⟨s₃, hnull⟩ := (htaken.user_null_iff proc usize).mpr hno
    obtain ⟨s', hs', -⟩ := hundone (.user htaken.1 h₁ (hplaced t info s₂ htaken) hv hnull)
    exact htaken.goes_on (hplaced t info s₂ htaken) hs' rfl
  · rintro ⟨hplaced, huser⟩ hfails
    by_cases htaken : ∃ t info s₂, TakesRecords s ksize t info s₂
    · obtain ⟨t, info, s₂, htaken⟩ := htaken
      obtain ⟨s₁, h₁, hv⟩ := htaken.vmalloc
      cases hfails with
      | kernel hkernel => exact absurd hkernel (htaken.not_fails (hplaced t info s₂ htaken))
      | user _ h _ hstack hnull =>
        obtain ⟨rfl, rfl⟩ := Prod.mk.inj (Option.some.inj (h₁.symm.trans h))
        obtain ⟨-, rfl⟩ := Prod.mk.inj (Option.some.inj (hv.symm.trans hstack))
        exact absurd (huser t info s₂ htaken) ((htaken.user_null_iff proc usize).mp ⟨_, hnull⟩)
    · exact (fails_early entry proc usize run fun t info s₂ h => htaken ⟨t, info, s₂, h⟩).2

/-- The creation of a thread is all or nothing unless a kernel stack is placed at address 0, and that of a user thread
unless the user stack, too, is one that cannot be made. -/
theorem creation_undone_iff (img : Image) (s : System) (entry size proc ksize usize : ℕ) (run : s.HeapReached) :
    ((ThreadFails s size → ∃ s', s.createThread img entry size = some (0, s') ∧ Undone s s') ↔ RegionPlaced s size) ∧
      ((UserThreadFails s proc ksize usize →
          ∃ s', s.createUserThread proc entry ksize usize = some (0, s') ∧ Undone s s') ↔
        RegionPlaced s ksize ∧ UserStackPlaced s proc ksize usize) :=
  ⟨createThread_undone_iff run, createUserThread_undone_iff run⟩

theorem freshSystem_placed (size : ℕ) : RegionPlaced freshSystem size := fun _ _ _ _ => by
  have hplace : (vmAddToList freshSystem.kernel.regions size).1 = vmallocStart := rfl
  rw [hplace]
  decide

theorem creation_undone_no_stack :
    ∃ s', freshSystem.createThread ⟨0x1000, 0x2000, 0x3000⟩ 0x1000 0 = some (0, s') ∧ Undone freshSystem s' := by
  have hundone := creation_undone_iff ⟨0x1000, 0x2000, 0x3000⟩ freshSystem 0x1000 0 0 0 0 freshSystem_reached
  refine hundone.1.mpr (freshSystem_placed 0) ?_
  rcases record_cases freshSystem_reached with ⟨s₁, h₁, -⟩ | ⟨t, s₁, ht, h₁, -⟩
  · exact .record h₁
  · have hnone : s₁.vmalloc 0 = some (0, s₁) := by
      rw [System.vmalloc, System.descriptor, if_pos rfl, Option.map_some]
      rfl
    exact .stack ht h₁ hnone

/-- After `init_kheap`, with a process whose record was allocated. -/
def withProcess : Option (ℕ × System) :=
  (freshSystem.kmalloc 32).map fun (p, s) => (p, { s with kernel := s.kernel.setProcess p fun _ => ⟨0x2000, 1, 0⟩ })

/-- The creation of a user thread without a user stack goes on to a page fault. -/
theorem user_thread_without_stack : ∃ p s, withProcess = some (p, s) ∧ s.HeapReached ∧ s.live = [(p, 32)] ∧
    UserThreadFails s p 0x1000 0 ∧
    ¬∃ s', s.createUserThread p 0x400000 0x1000 0 = some (0, s') ∧ Undone s s' := by
  have hcalls : (withProcess.bind fun o => (o.2.kmalloc threadSize).bind fun p => (p.2.kmalloc infoSize).map fun q =>
      decide (o.1 ≠ 0 ∧ p.1 ≠ 0 ∧ q.1 ≠ 0)) = some true := by decide +kernel
  obtain ⟨⟨p, s⟩, hs, hcall⟩ := Option.bind_eq_some_iff.mp hcalls
  obtain ⟨⟨t, s₁⟩, h₁, hcall⟩ := Option.bind_eq_some_iff.mp hcall
  obtain ⟨⟨info, s₂⟩, h₂, hne⟩ := Option.map_eq_some_iff.mp hcall
  obtain ⟨hp, ht, hinfo⟩ := of_decide_eq_true hne
  obtain ⟨⟨p', s'⟩, h₀, heq⟩ := Option.map_eq_some_iff.mp hs
  obtain ⟨rfl, rfl⟩ := Prod.mk.inj heq
  have halloc := System.kmalloc_allocates freshSystem_reached (by decide) h₀
  have hlive : s'.live = [(p', 32)] := halloc.live.trans (if_neg hp)
  obtain ⟨s, hdef⟩ : ∃ s, s = { s' with kernel := s'.kernel.setProcess p' fun _ => ⟨0x2000, 1, 0⟩ } := ⟨_, rfl⟩
  have hplaced : RegionPlaced s 0x1000 := fun _ _ _ _ => by
    have hregions : s'.kernel.regions = [] := congrArg Kernel.regions (kernel_of_kmalloc h₀)
    have hplace : s.kernel.regions = s'.kernel.regions := by rw [hdef]; rfl
    rw [hplace, hregions]
    decide
  dsimp only at h₁
  rw [← hdef] at h₁
  have htaken : TakesRecords s 0x1000 t info s₂ := ⟨ht, by decide, hinfo, s₁, h₁, h₂⟩
  obtain ⟨s₁', h₁', hv⟩ := htaken.vmalloc
  have hfails : ∃ s', ({ s₂ with kernel := (s.kernel.kernelAllocStack info 0x1000).2 }.enter p').userAllocStack 0 =
      some (0, s') := (htaken.user_null_iff p' 0).mpr fun hsize => hsize.1 rfl
  obtain ⟨s₃, hnull⟩ := hfails
  have hreached : s.HeapReached := by
    rw [hdef]
    exact halloc.reached
  refine ⟨p', s, by rw [hdef]; exact hs, hreached, by rw [hdef]; exact hlive,
    .user ht h₁' (hplaced t info s₂ htaken) hv hnull, ?_⟩
  rintro ⟨s'', hs'', -⟩
  exact htaken.goes_on (hplaced t info s₂ htaken) hs'' rfl

end Calls
end PointerOS
