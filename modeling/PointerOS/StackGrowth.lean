import PointerOS.CreationFrame
import PointerOS.MapUnmap

/-!
# Growth of user stacks

`page_fault_handler` maps the guard page of the current thread and moves the guard down. A new
thread has its guard at the page below the base of its stack, which `user_alloc_stack` has mapped,
and the limit at the base. No fault below finds the guard. With the guard at the page that faults, the
handler would do what is asked of it.
-/
namespace PointerOS
open Tables

/-- How `page_fault_handler` ends. -/
inductive FaultEnd
  | returned (k : Kernel)
  | exited (k : Kernel)
  | looped

namespace Kernel

/-- `cr2` is the address of the fault, and `rsp` the stack pointer of the `yield` of `thread_exit`,
which comes back to the endless loop when there is no other thread. -/
def pageFaultHandler (k : Kernel) (cr2 rsp : ℕ) : FaultEnd :=
  let r := k.threads k.currentThread
  if k.scheduler = true ∧ cr2 < r.pageGuardMax ∧ r.pageGuardMin ≤ cr2 then
    if r.pageGuardMax ≠ r.userStack.bottom then
      .returned ({ k with vm := k.vm.mapNewPage k.cr3 r.pageGuardMin (pteWritable ||| pteUser) }.setThread
        k.currentThread fun r =>
          { r with pageGuardMax := sub64 r.pageGuardMax pageSize4KB
                   pageGuardMin := sub64 r.pageGuardMin pageSize4KB })
    else
      match k.threadExit rsp with
      | some (_, k') => if k'.currentThread = k.currentThread then .looped else .exited k'
      | none => .looped
  else .looped

end Kernel

/-- A thread in user mode can write to the address without a fault. -/
def UserPage (T : Tables) (cr3 v : ℕ) : Prop := ∃ x, T.walk cr3 v = some x ∧ x.writable = true ∧ x.user = true


instance (T : Tables) (cr3 v : ℕ) : Decidable (UserPage T cr3 v) :=
  decidable_of_iff ((T.walk cr3 v).any fun x => x.writable && x.user) (by
    rw [UserPage, Option.any_eq_true]
    simp only [Bool.and_eq_true])

/-- The page number `i` of a stack, counted downward from its base. -/
def OnPage (base i v : ℕ) : Prop := v + i * 4096 < base ∧ base ≤ v + (i + 1) * 4096

instance (base i v : ℕ) : Decidable (OnPage base i v) :=
  inferInstanceAs (Decidable (v + i * 4096 < base ∧ base ≤ v + (i + 1) * 4096))

/-- The thread `t` has the processor, with its stack and its guard as in the state `k₁` and the
address space `cr3`, down to the page `n`. -/
structure Undisturbed (k₁ : Kernel) (cr3 : ℕ) (t base n : ℕ) (k : Kernel) : Prop where
  current : k.currentThread = t
  scheduler : k.scheduler = true
  userStack : (k.threads t).userStack = (k₁.threads t).userStack
  guardMin : (k.threads t).pageGuardMin = (k₁.threads t).pageGuardMin
  guardMax : (k.threads t).pageGuardMax = (k₁.threads t).pageGuardMax
  pages : ∀ i ≤ n, ∀ v, OnPage base i v → k.vm.tables.walk k.cr3 v = k₁.vm.tables.walk cr3 v

/-- A page fault of a thread on the page `page` of its stack. -/
structure StackFault where
  before : Kernel
  page : ℕ
  address : ℕ
  after : FaultEnd

/-- A run of a thread `t` that touches the pages of its stack one after the other, down to the page
`n`: the addresses it touched, the faults it had, and the next page, `none` when a fault did not
return. An instruction that faulted is run again. Between the touches the thread may lose the
processor and get it back. -/
inductive GrowthRun (k₁ : Kernel) (t base n : ℕ) : List ℕ → List StackFault → Option (ℕ × Kernel) → Prop
  | start {k : Kernel} (h : Undisturbed k₁ (k₁.processes (k₁.threads t).process).pml4 t base n k) :
      GrowthRun k₁ t base n [] [] (some (0, k))
  | touch {k : Kernel} {i : ℕ} {as : List ℕ} {fs : List StackFault} (h : GrowthRun k₁ t base n as fs (some (i, k)))
      (a : ℕ) (hi : i ≤ n) (ha : OnPage base i a) (hp : UserPage k.vm.tables k.cr3 a) :
      GrowthRun k₁ t base n (a :: as) fs (some (i + 1, k))
  | fault {k : Kernel} {i : ℕ} {as : List ℕ} {fs : List StackFault} (h : GrowthRun k₁ t base n as fs (some (i, k)))
      (a rsp : ℕ) (hi : i ≤ n) (ha : OnPage base i a) (hp : ¬UserPage k.vm.tables k.cr3 a) :
      GrowthRun k₁ t base n (a :: as) (⟨k, i, a, k.pageFaultHandler a rsp⟩ :: fs)
        (match k.pageFaultHandler a rsp with
          | .returned k' => some (i, k')
          | _ => none)
  | meanwhile {k k' : Kernel} {i : ℕ} {as : List ℕ} {fs : List StackFault}
      (h : GrowthRun k₁ t base n as fs (some (i, k))) (hu : Undisturbed k k.cr3 t base n k') :
      GrowthRun k₁ t base n as fs (some (i, k'))

/-- The fault on a page above the limit `n` is resolved by mapping this page, the one on the page
`n` ends the thread, and none ends in the endless loop. -/
structure StackFault.Served (f : StackFault) (n : ℕ) : Prop where
  grows : f.page < n → ∃ k', f.after = .returned k' ∧ ∀ v,
    (SamePage pageSize4KB f.address v → UserPage k'.vm.tables k'.cr3 v) ∧
      (¬SamePage pageSize4KB f.address v → k'.vm.tables.walk k'.cr3 v = f.before.vm.tables.walk f.before.cr3 v)
  ends : f.page = n → ∃ k', f.after = .exited k'
  goesOn : f.after ≠ .looped

/-- The handler serves a fault when the guard is the page of the fault, is not mapped, and is not the limit. -/
theorem Kernel.pageFaultHandler_serves {k : Kernel} {a i n : ℕ} (rsp : ℕ) (htree : PageTree k.vm.tables k.cr3)
    (hscheduler : k.scheduler = true)
    (hlimit : (k.threads k.currentThread).pageGuardMax ≠ (k.threads k.currentThread).userStack.bottom)
    (hlow : (k.threads k.currentThread).pageGuardMin ≤ a) (hhigh : a < (k.threads k.currentThread).pageGuardMax)
    (hpage : SamePage pageSize4KB (k.threads k.currentThread).pageGuardMin a)
    (hnone : k.vm.tables.walk k.cr3 (k.threads k.currentThread).pageGuardMin = none)
    (hframe : IsFrame (FrameSource.take k.vm.pmm).1)
    (hsupply : FramesFresh FrameSource.take k.vm.tables {k.cr3} (FrameSource.take k.vm.pmm).2
      (tablesMissing k.vm.tables (k.threads k.currentThread).pageGuardMin 3 3 k.cr3)) (hi : i < n) :
    StackFault.Served ⟨k, i, a, k.pageFaultHandler a rsp⟩ n := by
  obtain ⟨flags, hflags⟩ : ∃ flags, flags = pteWritable ||| pteUser := ⟨_, rfl⟩
  obtain ⟨guard, hguard⟩ : ∃ guard, guard = (k.threads k.currentThread).pageGuardMin := ⟨_, rfl⟩
  obtain ⟨k', hreturn, hvm, hcr3⟩ : ∃ k', k.pageFaultHandler a rsp = .returned k' ∧
      k'.vm = k.vm.mapNewPage k.cr3 guard flags ∧ k'.cr3 = k.cr3 := by
    rw [hguard, hflags]
    exact ⟨_, (if_pos ⟨hscheduler, hhigh, hlow⟩).trans (if_pos hlimit), rfl, rfl⟩
  rw [← hguard] at hpage hnone hsupply
  have hfit : PageTree ({ k.vm with pmm := (FrameSource.take k.vm.pmm).2 } : Vm FrameSource).tables k.cr3 := htree
  obtain ⟨hmaps, -⟩ := hfit.map flags hframe.1 (fun _ : pageSize4KB = pageSize4KB => htree.not_inHugePage hnone) hsupply
  have hm := hmaps rfl
  have hsame : ∀ v, SamePage pageSize4KB a v ↔ (indices v 3).take 4 = (indices guard 3).take 4 := fun v => by
    rw [← samePage_iff_take.1]
    unfold SamePage at hpage ⊢
    rw [hpage]
  have hgoesOn : k.pageFaultHandler a rsp ≠ .looped := by
    rw [hreturn]
    exact nofun
  refine ⟨fun _ => ⟨k', hreturn, fun v => ?_⟩, fun h => absurd h hi.ne, hgoesOn⟩
  rw [hvm, hcr3, Vm.mapNewPage]
  refine ⟨fun hv => ?_, fun hv => ?_⟩
  · have hwalk := hm.page v ((hsame v).mp hv)
    have hperm : writable (ptePresent ||| flags) = true ∧ userBit (ptePresent ||| flags) = true := by
      rw [hflags]
      decide
    rw [leaf_or (n := 0) (by decide) hframe.1 hframe.2 (by rw [hflags]; decide)] at hwalk
    exact ⟨_, hwalk, hperm.1, hperm.2⟩
  · exact hm.other v fun ht => hv ((hsame v).mpr ht)

/-- The user thread `t` was created with a stack of `n` pages below `base`. -/
structure UserThreadCreated (k₀ k₁ : Kernel) (t base n : ℕ) : Prop where
  call : ∃ proc info usInfo entry ksize, k₀.createUserThread proc t info usInfo entry ksize (n * 4096) = some (t, k₁)
  nonnull : t ≠ 0
  pages : 1 ≤ n
  base : (k₁.threads t).userStack.bottom = base

section Run
variable {k₀ k₁ k k' : Kernel} {t base n i cr3 : ℕ} {as : List ℕ} {fs : List StackFault}

theorem Undisturbed.trans (h : Undisturbed k₁ cr3 t base n k) (h' : Undisturbed k k.cr3 t base n k') :
    Undisturbed k₁ cr3 t base n k' where
  current := h'.current
  scheduler := h'.scheduler
  userStack := h'.userStack.trans h.userStack
  guardMin := h'.guardMin.trans h.guardMin
  guardMax := h'.guardMax.trans h.guardMax
  pages := fun i hi v hv => (h'.pages i hi v hv).trans (h.pages i hi v hv)

theorem Undisturbed.userPage_iff (h : Undisturbed k₁ cr3 t base n k) (hi : i ≤ n) {v : ℕ} (hv : OnPage base i v) :
    UserPage k.vm.tables k.cr3 v ↔ UserPage k₁.vm.tables cr3 v := by
  rw [UserPage, UserPage, h.pages i hi v hv]

/-- The guard is the page below the limit of the stack. -/
structure GuardAtLimit (k : Kernel) (t base : ℕ) : Prop where
  bottom : (k.threads t).userStack.bottom = base
  guardMax : (k.threads t).pageGuardMax = base
  guardMin : (k.threads t).pageGuardMin = sub64 base pageSize4KB
  base_lt : base < 2 ^ 64

/-- No fault finds the guard where the stack could grow. -/
theorem GuardAtLimit.not_served (h : GuardAtLimit k t base) (hc : k.currentThread = t) (hn : 1 ≤ n)
    {a : ℕ} (ha : OnPage base i a) (rsp : ℕ) : ¬StackFault.Served ⟨k, i, a, k.pageFaultHandler a rsp⟩ n := by
  rintro ⟨hgrow, -, hloop⟩
  have hhandler : k.pageFaultHandler a rsp = .looped ∨ i = 0 ∧ ∀ k', k.pageFaultHandler a rsp ≠ .returned k' := by
    unfold Kernel.pageFaultHandler
    dsimp only
    rw [hc, h.guardMax, h.guardMin, h.bottom]
    split_ifs with hguard hb
    · exact absurd rfl hb
    · refine .inr ⟨?_, fun k' => ?_⟩
      · obtain ⟨-, h1, h2⟩ := hguard
        obtain ⟨ha1, ha2⟩ := ha
        have hlt := h.base_lt
        unfold sub64 pageSize4KB at h2
        by_contra hi
        have hi' : 1 * 4096 ≤ i * 4096 := Nat.mul_le_mul_right _ (by omega)
        omega
      · split
        · split_ifs <;> exact nofun
        · exact nofun
    · exact .inl rfl
  rcases hhandler with hl | ⟨rfl, hr⟩
  · exact hloop hl
  · obtain ⟨k', hk', -⟩ := hgrow hn
    exact hr k' hk'

/-- A new thread has its guard at the limit. -/
theorem UserThreadCreated.guardAtLimit (h : UserThreadCreated k₀ k₁ t base n) : GuardAtLimit k₁ t base := by
  obtain ⟨⟨proc, info, usInfo, entry, ksize, hcall⟩, h0, -, rfl⟩ := h
  obtain ⟨-, kmem, k₂, umem, k₃, rsp, k₄, -, -, huser, -, hk₁⟩ := Kernel.createUserThread_made hcall h0
  have hlt := Kernel.userAllocStack_lt huser
  have hsans := Kernel.addThread_sans
    { k₄.setProcess proc fun p => { p with ustacksInfos := k₄.usListHead } with
      usListHead := k₂.usListHead, cr3 := k₂.cr3 } t
    (Kernel.newThread rsp k₄.nextThreadId proc ⟨(kmem + ksize) % 2 ^ 64, kmem, ksize⟩
      ⟨(umem + n * 4096) % 2 ^ 64, umem, n * 4096⟩ (sub64 umem pageSize4KB) umem) t
  rw [← hk₁, if_pos rfl] at hsans
  have hbottom := congrArg (·.userStack.bottom) hsans
  have hmax := congrArg (·.pageGuardMax) hsans
  have hmin := congrArg (·.pageGuardMin) hsans
  change (k₁.threads t).userStack.bottom = umem at hbottom
  change (k₁.threads t).pageGuardMax = umem at hmax
  change (k₁.threads t).pageGuardMin = sub64 umem pageSize4KB at hmin
  rw [hbottom]
  exact ⟨hbottom, hmax, hmin, hlt⟩

theorem GuardAtLimit.undisturbed (h : GuardAtLimit k₁ t base) (hu : Undisturbed k₁ cr3 t base n k) :
    GuardAtLimit k t base where
  bottom := (congrArg StackBounds.bottom hu.userStack).trans h.bottom
  guardMax := hu.guardMax.trans h.guardMax
  guardMin := hu.guardMin.trans h.guardMin
  base_lt := h.base_lt

/-- Either each touched page was there from the beginning, and nothing has changed, or a fault was
not served. -/
theorem GrowthRun.cases (h : UserThreadCreated k₀ k₁ t base n) {r : Option (ℕ × Kernel)}
    (hrun : GrowthRun k₁ t base n as fs r) :
    let cr3 := (k₁.processes (k₁.threads t).process).pml4
    fs = [] ∧ (∀ i k, r = some (i, k) → Undisturbed k₁ cr3 t base n k) ∧ (∀ a ∈ as, UserPage k₁.vm.tables cr3 a) ∨
      (∃ f ∈ fs, ¬f.Served n) ∧ ∃ a ∈ as, ¬UserPage k₁.vm.tables cr3 a := by
  intro cr3
  induction hrun with
  | start hu =>
    refine .inl ⟨rfl, ?_, nofun⟩
    rintro i k ⟨⟩
    exact hu
  | touch _ a hi ha hp ih =>
    rcases ih with ⟨rfl, hu, has⟩ | ⟨hf, a', ha', hp'⟩
    · refine .inl ⟨rfl, ?_, List.forall_mem_cons.mpr ⟨((hu _ _ rfl).userPage_iff hi ha).mp hp, has⟩⟩
      rintro i' k' ⟨⟩
      exact hu _ _ rfl
    · exact .inr ⟨hf, a', List.mem_cons_of_mem _ ha', hp'⟩
  | fault _ a rsp hi ha hp ih =>
    refine .inr ?_
    rcases ih with ⟨rfl, hu, -⟩ | ⟨⟨f, hf, hserved⟩, a', ha', hp'⟩
    · have hk := hu _ _ rfl
      refine ⟨⟨_, List.mem_cons_self, ?_⟩, a, List.mem_cons_self, mt (hk.userPage_iff hi ha).mpr hp⟩
      exact (h.guardAtLimit.undisturbed hk).not_served hk.current h.pages ha rsp
    · exact ⟨⟨f, List.mem_cons_of_mem _ hf, hserved⟩, a', List.mem_cons_of_mem _ ha', hp'⟩
  | meanwhile _ hu' ih =>
    rcases ih with ⟨rfl, hu, has⟩ | hr
    · refine .inl ⟨rfl, ?_, has⟩
      rintro i' k' ⟨⟩
      exact (hu _ _ rfl).trans hu'
    · exact .inr hr

end Run

end PointerOS
