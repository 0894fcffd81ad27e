import PointerOS.KernelHeap
import PointerOS.Scheduler

/-!
# The records of regions and stacks

`vmalloc` and `user_alloc_stack` take a record from `kmalloc`, and `vfree` and `user_free_stack` do not
give it back. The allocations are the same after a nest of such pairs only if no record was taken.
-/
namespace PointerOS

/-- There is neither a slab with a free record nor a free page for a new slab. -/
def Heap.NoRoom (h : Heap) : Prop := (h.kernelCaches 1).slabsPartial = 0 ∧ ∀ i ≤ maxOrders, h.freeAreas i = 0

instance (h : Heap) : Decidable h.NoRoom :=
  inferInstanceAs (Decidable ((h.kernelCaches 1).slabsPartial = 0 ∧ ∀ i ≤ maxOrders, h.freeAreas i = 0))

section Heap
variable {h : Heap} {live : List (ℕ × ℕ)}

theorem buddyAllocFrom_zero (h : Heap) (order n i : ℕ) :
    (∀ j, i ≤ j → j < i + n → h.freeAreas j = 0) ∧ h.buddyAllocFrom order n i = (0, h) ∨
      (∃ j, i ≤ j ∧ j < i + n ∧ h.freeAreas j ≠ 0) ∧ (h.buddyAllocFrom order n i).1 ≠ 0 := by
  induction n generalizing i with
  | zero => exact .inl ⟨fun j hi hj => by omega, rfl⟩
  | succ n ih =>
    unfold Heap.buddyAllocFrom
    by_cases hfree : h.freeAreas i ≠ 0
    · rw [if_pos hfree]
      exact .inr ⟨⟨i, le_rfl, by omega, hfree⟩, hfree⟩
    · rw [if_neg hfree]
      rw [not_not] at hfree
      rcases ih (i + 1) with ⟨hall, heq⟩ | ⟨⟨j, hi, hj, hne⟩, hnz⟩
      · refine .inl ⟨fun j hi hj => ?_, heq⟩
        rcases Nat.eq_or_lt_of_le hi with rfl | hlt
        · exact hfree
        · exact hall j hlt (by omega)
      · exact .inr ⟨⟨j, by omega, by omega, hne⟩, hnz⟩

/-- A page is refused exactly when all lists are empty. -/
theorem buddyAlloc_page (h : Heap) : (∀ i ≤ maxOrders, h.freeAreas i = 0) ∧ h.buddyAlloc 0 = (0, h) ∨
    (¬∀ i ≤ maxOrders, h.freeAreas i = 0) ∧ (h.buddyAlloc 0).1 ≠ 0 := by
  unfold Heap.buddyAlloc
  rcases buddyAllocFrom_zero h 0 (maxOrders + 1 - 0) 0 with ⟨hall, heq⟩ | ⟨⟨j, -, hj, hne⟩, hnz⟩
  · exact .inl ⟨fun i hi => hall i (Nat.zero_le i) (by omega), heq⟩
  · exact .inr ⟨fun hall => hne (hall j (by omega)), hnz⟩

/-- A record is refused exactly when there is no room. -/
theorem kmalloc_record (run : HeapRun h live) : ∃ p h', h.kmalloc infoSize = some (p, h') ∧
    (h.NoRoom ∧ p = 0 ∧ h' = h ∨ ¬h.NoRoom ∧ p ≠ 0) := by
  obtain ⟨F, G, L, B, core, hf⟩ := run.inv
  have hsize : infoSize = 32 := rfl
  have hfind : (List.range numCaches).find? (fun i => decide (infoSize ≤ (h.kernelCaches i).objSize)) = some 1 := by
    have h0 : (h.kernelCaches 0).objSize = 16 := core.objSize 0 (by decide)
    have h1 : (h.kernelCaches 1).objSize = 32 := core.objSize 1 (by decide)
    have hrange : List.range numCaches = 0 :: 1 :: List.range' 2 6 := by decide
    rw [hrange, List.find?_cons_of_neg (by rw [h0, hsize]; decide), List.find?_cons_of_pos (by rw [h1, hsize]; decide)]
  refine ⟨(h.slabAlloc 1).1, (h.slabAlloc 1).2, ?_, ?_⟩
  · unfold Heap.kmalloc
    rw [if_neg (by decide), if_neg (by decide), hfind]
  · have hsmall : infoSize ≤ cacheObjSize 1 := by decide
    obtain ⟨-, -, hzero⟩ := slabAlloc_inv core hf (by decide) hsmall
    rcases buddyAlloc_page h with ⟨hall, heq⟩ | ⟨hsome, hnz⟩
    · by_cases hcut : (h.kernelCaches 1).slabsPartial = 0
      · have halloc : h.slabAlloc 1 = (0, h) := by
          simp only [Heap.slabAlloc, Heap.slabCreate, hcut, heq, if_true]
        rw [halloc]
        exact .inl ⟨⟨hcut, hall⟩, rfl, rfl⟩
      · exact .inr ⟨fun hno => hcut hno.1, fun hp => hcut (hzero hp).1⟩
    · refine .inr ⟨fun hno => hsome hno.2, fun hp => ?_⟩
      have hcreate := congrArg Prod.fst (hzero hp).2
      unfold Heap.slabCreate at hcreate
      dsimp only at hcreate
      rw [if_neg hnz] at hcreate
      exact hnz hcreate

end Heap

/-! ## Pairs of calls -/

/-- Calls of `vmalloc` and `user_alloc_stack`, each followed by its `vfree` or `user_free_stack`, in any nesting. The
list has the sizes asked for. -/
inductive Paired : System → List ℕ → System → Prop
  | nil (s : System) : Paired s [] s
  | region {s s₁ s₂ s₃ : System} {base size : ℕ} {inner rest : List ℕ} (halloc : s.vmalloc size = some (base, s₁))
      (hinner : Paired s₁ inner s₂) (hrest : Paired (s₂.vfree base) rest s₃) : Paired s (size :: (inner ++ rest)) s₃
  | stack {s s₁ s₂ s₃ s₄ : System} {base size : ℕ} {inner rest : List ℕ}
      (halloc : s.userAllocStack size = some (base, s₁)) (hinner : Paired s₁ inner s₂)
      (hfree : s₂.userFreeStack base = some s₃) (hrest : Paired s₃ rest s₄) : Paired s (size :: (inner ++ rest)) s₄

/-- The heap and the live allocations are the same. -/
def SameHeap (s s' : System) : Prop := s'.heap = s.heap ∧ s'.live = s.live

/-- No record is taken for the sizes. -/
def NoRecord (s : System) (sizes : List ℕ) : Prop := (∀ size ∈ sizes, size = 0) ∨ s.heap.NoRoom

/-- The live allocations stay, and there are new ones exactly if a record is taken for one of the sizes. -/
structure Grows (s : System) (sizes : List ℕ) (s' : System) : Prop where
  reached : s'.HeapReached
  kept : ∀ e ∈ s.live, e ∈ s'.live
  same : NoRecord s sizes → SameHeap s s'
  new : ¬NoRecord s sizes → ∃ e ∈ s'.live, e ∉ s.live

section Calls
variable {s s₁ s₂ s₃ s' : System} {base size : ℕ} {sizes inner rest : List ℕ}

theorem SameHeap.noRecord_iff (h : SameHeap s s') : NoRecord s' sizes ↔ NoRecord s sizes := by
  unfold NoRecord
  rw [h.1]

theorem SameHeap.grows (h : SameHeap s s') (run : s.HeapReached) : Grows s [] s' := by
  refine ⟨?_, fun e he => ?_, fun _ => h, fun hno => (hno (.inl fun _ h0 => absurd h0 List.not_mem_nil)).elim⟩
  · unfold System.HeapReached
    rw [h.1, h.2]
    exact run
  · rw [h.2]
    exact he

theorem Grows.trans (h : Grows s inner s₁) (h' : Grows s₁ rest s₂) : Grows s (inner ++ rest) s₂ := by
  have hsplit : ∀ t : System, NoRecord t (inner ++ rest) ↔ NoRecord t inner ∧ NoRecord t rest := by
    intro t
    unfold NoRecord
    rw [List.forall_mem_append, and_or_right]
  refine ⟨h'.reached, fun e he => h'.kept e (h.kept e he), fun hno => ?_, fun hrec => ?_⟩
  · rw [hsplit] at hno
    have hfirst := h.same hno.1
    have hsecond := h'.same (hfirst.noRecord_iff.mpr hno.2)
    exact ⟨hsecond.1.trans hfirst.1, hsecond.2.trans hfirst.2⟩
  · by_cases hinner : NoRecord s inner
    · have hfirst := h.same hinner
      rw [hsplit, and_iff_right hinner, ← hfirst.noRecord_iff] at hrec
      obtain ⟨e, he, hnew⟩ := h'.new hrec
      exact ⟨e, he, hfirst.2 ▸ hnew⟩
    · obtain ⟨e, he, hnew⟩ := h.new hinner
      exact ⟨e, h'.kept e he, hnew⟩

/-- Taking the record. -/
theorem descriptor_grows (run : s.HeapReached) {info : ℕ} (h : s.descriptor size = some (info, s')) :
    Grows s [size] s' := by
  unfold System.descriptor at h
  by_cases h0 : size = 0
  · rw [if_pos h0] at h
    obtain ⟨-, rfl⟩ := Prod.mk.inj (Option.some.inj h)
    have hno : NoRecord s [size] := .inl (List.forall_mem_singleton.mpr h0)
    exact ⟨run, fun _ he => he, fun _ => ⟨rfl, rfl⟩, fun hrec => (hrec hno).elim⟩
  · rw [if_neg h0] at h
    have halloc := System.kmalloc_allocates run (by decide) h
    obtain ⟨p, h', hp, hroom⟩ := kmalloc_record run
    have hcall : s.kmalloc infoSize = some (p, { s with heap := h', live := if p = 0 then s.live else (p, infoSize) :: s.live }) :=
      congrArg (Option.map _) hp
    rw [hcall] at h
    obtain ⟨rfl, rfl⟩ := Prod.mk.inj (Option.some.inj h)
    have hiff : NoRecord s [size] ↔ s.heap.NoRoom :=
      or_iff_right fun hall => h0 (hall size (List.mem_singleton_self size))
    rcases hroom with ⟨hno, rfl, rfl⟩ | ⟨hno, hne⟩
    · exact ⟨halloc.reached, fun e he => he, fun _ => ⟨rfl, rfl⟩, fun hrec => (hrec (hiff.mpr hno)).elim⟩
    · have hlive : (if p = 0 then s.live else (p, infoSize) :: s.live) = (p, infoSize) :: s.live := if_neg hne
      refine ⟨halloc.reached, fun e he => ?_, fun hrec => (hno (hiff.mp hrec)).elim, fun _ => ⟨(p, infoSize), ?_, ?_⟩⟩
      · dsimp only
        rw [hlive]
        exact List.mem_cons_of_mem _ he
      · dsimp only
        rw [hlive]
        exact List.mem_cons_self
      · exact fun hold => halloc.fresh hne (List.mem_map_of_mem hold)

theorem vmalloc_grows (run : s.HeapReached) (h : s.vmalloc size = some (base, s')) : Grows s [size] s' := by
  obtain ⟨⟨info, s₁⟩, hrecord, heq⟩ := Option.map_eq_some_iff.mp h
  obtain ⟨-, rfl⟩ := Prod.mk.inj heq
  have hgrows := descriptor_grows run hrecord
  exact ⟨hgrows.reached, hgrows.kept, hgrows.same, hgrows.new⟩

theorem userAllocStack_grows (run : s.HeapReached) (h : s.userAllocStack size = some (base, s')) : Grows s [size] s' := by
  obtain ⟨⟨info, s₁⟩, hrecord, hrest⟩ := Option.bind_eq_some_iff.mp h
  obtain ⟨⟨base', k⟩, -, heq⟩ := Option.map_eq_some_iff.mp hrest
  obtain ⟨-, rfl⟩ := Prod.mk.inj heq
  have hgrows := descriptor_grows run hrecord
  exact ⟨hgrows.reached, hgrows.kept, hgrows.same, hgrows.new⟩

theorem vfree_same (s : System) (base : ℕ) : SameHeap s (s.vfree base) := ⟨rfl, rfl⟩

theorem userFreeStack_same (h : s.userFreeStack base = some s') : SameHeap s s' := by
  obtain ⟨k, -, rfl⟩ := Option.map_eq_some_iff.mp h
  exact ⟨rfl, rfl⟩

theorem Paired.grows (h : Paired s sizes s') (run : s.HeapReached) : Grows s sizes s' := by
  induction h with
  | nil s => exact SameHeap.grows ⟨rfl, rfl⟩ run
  | @region _ _ s₂ _ base _ _ _ halloc _ _ ihinner ihrest =>
    have hrecord := vmalloc_grows run halloc
    have hinner := ihinner hrecord.reached
    have hfree := (vfree_same s₂ base).grows hinner.reached
    exact hrecord.trans (hinner.trans (hfree.trans (ihrest hfree.reached)))
  | stack halloc _ hfree _ ihinner ihrest =>
    have hrecord := userAllocStack_grows run halloc
    have hinner := ihinner hrecord.reached
    have hfree := (userFreeStack_same hfree).grows hinner.reached
    exact hrecord.trans (hinner.trans (hfree.trans (ihrest hfree.reached)))

/-- The live allocations are the same after a nest of pairs exactly when every size is 0 or the heap has no room for
a record. -/
theorem descriptors_kept_iff (run : s.HeapReached) (h : Paired s sizes s') :
    (∀ e, e ∈ s'.live ↔ e ∈ s.live) ↔ (∀ size ∈ sizes, size = 0) ∨ s.heap.NoRoom := by
  have hgrows := h.grows run
  constructor
  · intro hsame
    by_contra hrec
    obtain ⟨e, he, hnew⟩ := hgrows.new hrec
    exact hnew ((hsame e).mp he)
  · intro hno e
    rw [(hgrows.same hno).2]

/-- The heap after `init_kheap`, with nothing allocated. -/
def freshSystem : System := ⟨blankHeap.initKheap, [], [], Kernel.beforeBoot⟩

theorem freshSystem_reached : freshSystem.HeapReached := HeapRun.init blankHeap

/-- One allocation has the whole heap, and a region and a stack inside are refused. -/
theorem descriptors_kept_full : ∃ s s', s.live = [(heapStart, heapSize)] ∧ Paired s [0x1000, 0x2000] s' ∧
    ∀ e, e ∈ s'.live ↔ e ∈ s.live := by
  have hcalls : ((freshSystem.kmalloc heapSize).bind fun o => (o.2.vmalloc 0x1000).bind fun p =>
      (p.2.userAllocStack 0x2000).bind fun q => (q.2.userFreeStack q.1).map fun _ =>
        (o.2.live, decide o.2.heap.NoRoom)) = some ([(heapStart, heapSize)], true) := by decide +kernel
  obtain ⟨⟨o, s⟩, hfill, hcalls⟩ := Option.bind_eq_some_iff.mp hcalls
  obtain ⟨⟨base, s₁⟩, hregion, hcalls⟩ := Option.bind_eq_some_iff.mp hcalls
  obtain ⟨⟨stack, s₂⟩, hstack, hcalls⟩ := Option.bind_eq_some_iff.mp hcalls
  obtain ⟨s₃, hfree, heq⟩ := Option.map_eq_some_iff.mp hcalls
  obtain ⟨hlive, hroom⟩ := Prod.mk.inj heq
  have hinner : Paired s₁ [0x2000] s₃ := .stack hstack (.nil _) hfree (.nil _)
  have hpair : Paired s [0x1000, 0x2000] (s₃.vfree base) := .region hregion hinner (.nil _)
  have hreached := (System.kmalloc_allocates freshSystem_reached (by decide) hfill).reached
  exact ⟨s, _, hlive, hpair, (descriptors_kept_iff hreached hpair).mpr (.inr (of_decide_eq_true hroom))⟩

/-- A region of one page leaves its record behind. -/
theorem vmalloc_leaks_record : ∃ base s₁, freshSystem.vmalloc 0x1000 = some (base, s₁) ∧
    ∃ e ∈ (s₁.vfree base).live, e ∉ freshSystem.live := by
  have hroom : ¬freshSystem.heap.NoRoom := fun hno => absurd (hno.2 maxOrders le_rfl) (by decide)
  obtain ⟨p, h', hp, -⟩ := kmalloc_record freshSystem_reached
  have hrecord : freshSystem.descriptor 0x1000 =
      some (p, { freshSystem with heap := h', live := if p = 0 then [] else [(p, infoSize)] }) := by
    unfold System.descriptor System.kmalloc
    rw [if_neg (by decide), hp]
    rfl
  obtain ⟨base, s₁, hcall⟩ : ∃ base s₁, freshSystem.vmalloc 0x1000 = some (base, s₁) :=
    ⟨_, _, congrArg (Option.map _) hrecord⟩
  refine ⟨base, s₁, hcall, (vmalloc_grows freshSystem_reached hcall).new fun hno => ?_⟩
  rcases hno with hall | hno
  · exact absurd (hall 0x1000 (List.mem_singleton_self _)) (by decide)
  · exact hroom hno

end Calls
end PointerOS
