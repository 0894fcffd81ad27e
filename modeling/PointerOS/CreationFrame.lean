import PointerOS.ReadyRing
import PointerOS.StackNodes

/-!
# What creation and destruction leave alone

Making and freeing stacks and processes does not touch the records of the threads, the lists of
the scheduler and the mutexes.
-/
namespace PointerOS

namespace Kernel

/-- The parts of the state that the scheduler works on. -/
structure SameSched (k k' : Kernel) : Prop where
  threads : k'.threads = k.threads
  mutexes : k'.mutexes = k.mutexes
  current : k'.currentThread = k.currentThread
  ready : k'.readyListHead = k.readyListHead
  dead : k'.deadListHead = k.deadListHead
  nextId : k'.nextThreadId = k.nextThreadId

theorem SameSched.refl (k : Kernel) : SameSched k k := ⟨rfl, rfl, rfl, rfl, rfl, rfl⟩

theorem SameSched.trans {k₁ k₂ k₃ : Kernel} (h : SameSched k₁ k₂) (h' : SameSched k₂ k₃) : SameSched k₁ k₃ :=
  ⟨h'.threads.trans h.threads, h'.mutexes.trans h.mutexes, h'.current.trans h.current, h'.ready.trans h.ready,
    h'.dead.trans h.dead, h'.nextId.trans h.nextId⟩

/-- A change of other parts comes first. -/
theorem SameSched.after {k₁ k₂ k₃ : Kernel} (h : SameSched k₂ k₃) (h' : SameSched k₁ k₂) : SameSched k₁ k₃ :=
  h'.trans h

section Stacks
variable (k : Kernel)

theorem kernelAllocStack_same (info size : ℕ) : SameSched k (k.kernelAllocStack info size).2 := by
  unfold kernelAllocStack
  split_ifs
  · exact .refl k
  · exact ⟨rfl, rfl, rfl, rfl, rfl, rfl⟩

/-- Only the words of the stacks change. -/
theorem pushWords_with (top : ℕ) (l : List ℕ) :
    (k.pushWords top l).2 = { k with words := (k.pushWords top l).2.words } := by
  induction l generalizing k top with
  | nil => rfl
  | cons v l ih => exact ih { k with words := Function.update k.words (cell k.cr3 (sub64 top 8)) v } (sub64 top 8)

theorem pushFrame_with (top ret ss cs entry : ℕ) : (k.pushFrame top ret ss cs entry).2 =
    { k with words := (k.pushFrame top ret ss cs entry).2.words } := by
  have h := pushWords_with (k.pushWords (top / 16 * 16) [ret]).2 (k.pushWords (top / 16 * 16) [ret]).1
    ([ss, (k.pushWords (top / 16 * 16) [ret]).1, 0x202, cs, entry] ++ List.replicate 15 0)
  rw [pushWords_with k (top / 16 * 16) [ret]] at h
  exact h

theorem pushFrame_same (top ret ss cs entry : ℕ) : SameSched k (k.pushFrame top ret ss cs entry).2 := by
  rw [pushFrame_with]
  exact ⟨rfl, rfl, rfl, rfl, rfl, rfl⟩

theorem pushFrame_regions (top ret ss cs entry : ℕ) : (k.pushFrame top ret ss cs entry).2.regions = k.regions := by
  rw [pushFrame_with]

theorem pushFrame_vm (top ret ss cs entry : ℕ) : (k.pushFrame top ret ss cs entry).2.vm = k.vm := by
  rw [pushFrame_with]

/-- Only the records and the head of the ring change. -/
theorem enqueueThread_with (t : ℕ) : k.enqueueThread t =
    { k with threads := (k.enqueueThread t).threads, readyListHead := (k.enqueueThread t).readyListHead } := by
  unfold enqueueThread
  split_ifs <;> rfl

theorem addThread_regions (t : ℕ) (x : Thread) : (k.addThread t x).regions = k.regions := by
  rw [addThread, enqueueThread_with]

theorem addThread_vm (t : ℕ) (x : Thread) : (k.addThread t x).vm = k.vm := by
  rw [addThread, enqueueThread_with]

variable {k}

theorem usAddToList_same {k' : Kernel} {i : ℕ} (h : k.usAddToList i = some k') : SameSched k k' := by
  unfold usAddToList at h
  split_ifs at h
  · obtain rfl := Option.some.inj h
    exact ⟨rfl, rfl, rfl, rfl, rfl, rfl⟩
  · obtain ⟨current, -, rfl⟩ := Option.map_eq_some_iff.mp h
    dsimp only
    split_ifs <;> exact ⟨rfl, rfl, rfl, rfl, rfl, rfl⟩

theorem userAllocStack_same {k' : Kernel} {r info size : ℕ} (h : k.userAllocStack info size = some (r, k')) :
    SameSched k k' := by
  unfold userAllocStack at h
  split_ifs at h
  · obtain ⟨-, rfl⟩ := Prod.mk.inj (Option.some.inj h)
    exact .refl k
  · obtain ⟨-, rfl⟩ := Prod.mk.inj (Option.some.inj h)
    exact .refl k
  · obtain ⟨k₁, hk₁, heq⟩ := Option.map_eq_some_iff.mp h
    obtain ⟨-, rfl⟩ := Prod.mk.inj heq
    have hadd : SameSched k k₁ := (usAddToList_same hk₁).after ⟨rfl, rfl, rfl, rfl, rfl, rfl⟩
    exact hadd.trans ⟨rfl, rfl, rfl, rfl, rfl, rfl⟩

theorem usRemoveFromList_same (i : ℕ) : SameSched k (k.usRemoveFromList i) := by
  unfold usRemoveFromList
  dsimp only
  split_ifs <;> exact ⟨rfl, rfl, rfl, rfl, rfl, rfl⟩

theorem userFreeStack_same {k' : Kernel} {ptr : ℕ} (h : k.userFreeStack ptr = some k') : SameSched k k' := by
  obtain ⟨current, -, rfl⟩ := Option.map_eq_some_iff.mp h
  dsimp only
  split_ifs
  · exact .refl k
  · exact (usRemoveFromList_same current).after ⟨rfl, rfl, rfl, rfl, rfl, rfl⟩

end Stacks

section Calls
variable {k k' : Kernel} {t r : ℕ}

theorem destroyThread_same (h : k.destroyThread t = some k') : SameSched k k' := by
  unfold destroyThread at h
  dsimp only at h
  split_ifs at h
  · obtain rfl := Option.some.inj h
    exact .refl k
  · obtain rfl := Option.some.inj h
    exact .refl k
  · obtain ⟨k₁, hk₁, rfl⟩ := Option.map_eq_some_iff.mp h
    have hfree : SameSched k k₁ := (userFreeStack_same hk₁).after ⟨rfl, rfl, rfl, rfl, rfl, rfl⟩
    exact hfree.trans ⟨rfl, rfl, rfl, rfl, rfl, rfl⟩

theorem createUserProcess_same (p : ℕ) : SameSched k (k.createUserProcess p).2 := by
  unfold createUserProcess
  dsimp only
  split_ifs <;> exact ⟨rfl, rfl, rfl, rfl, rfl, rfl⟩

/-- A creation fails, or it adds the record `t`, which is ready, to the scheduler. -/
def Adds (k : Kernel) (t r : ℕ) (k' : Kernel) : Prop :=
  r = 0 ∧ SameSched k k' ∨
    r = t ∧ t ≠ 0 ∧ ∃ k₁ x, SameSched k k₁ ∧ x.state = .ready ∧ x.tid = k.nextThreadId ∧ k' = k₁.addThread t x

theorem Adds.eq_of_ne (h : Adds k t r k') (h0 : r ≠ 0) : r = t := by
  rcases h with ⟨hr, -⟩ | ⟨hr, -⟩
  · exact absurd hr h0
  · exact hr

theorem createThread_adds (img : Image) (k : Kernel) (t info entry size : ℕ) :
    Adds k t (k.createThread img t info entry size).1 (k.createThread img t info entry size).2 := by
  unfold createThread
  dsimp only
  have halloc := k.kernelAllocStack_same info size
  split_ifs with h1 h2
  · exact .inl ⟨rfl, .refl k⟩
  · exact .inl ⟨rfl, halloc⟩
  · have hframe := halloc.trans ((k.kernelAllocStack info size).2.pushFrame_same
      (((k.kernelAllocStack info size).1 + size) % 2 ^ 64) img.threadExit 0x10 0x08 entry)
    refine .inr ⟨rfl, h1, _, _, ?_, ?_, ?_, rfl⟩
    · exact hframe
    · rfl
    · exact hframe.nextId

theorem createUserThread_adds {proc info usInfo entry ksize usize : ℕ}
    (h : k.createUserThread proc t info usInfo entry ksize usize = some (r, k')) : Adds k t r k' := by
  unfold createUserThread at h
  dsimp only at h
  have halloc := k.kernelAllocStack_same info ksize
  split_ifs at h with h1 h2
  · obtain ⟨rfl, rfl⟩ := Prod.mk.inj (Option.some.inj h)
    exact .inl ⟨rfl, .refl k⟩
  · obtain ⟨rfl, rfl⟩ := Prod.mk.inj (Option.some.inj h)
    exact .inl ⟨rfl, halloc⟩
  · obtain ⟨⟨userStackMem, k₁⟩, hk₁, heq⟩ := Option.bind_eq_some_iff.mp h
    split_ifs at heq
    obtain ⟨rfl, rfl⟩ := Prod.mk.inj (Option.some.inj heq)
    have huser : SameSched k k₁ :=
      halloc.trans ((userAllocStack_same hk₁).after ⟨rfl, rfl, rfl, rfl, rfl, rfl⟩)
    have hframe := huser.trans (k₁.pushFrame_same userStackMem 0x300000 0x1B 0x23 entry)
    refine .inr ⟨rfl, h1, _, _, ?_, ?_, ?_, rfl⟩
    · exact ⟨hframe.threads, hframe.mutexes, hframe.current, hframe.ready, hframe.dead, hframe.nextId⟩
    · rfl
    · exact hframe.nextId

theorem createUserThread_made {proc info usInfo entry ksize usize : ℕ}
    (h : k.createUserThread proc t info usInfo entry ksize usize = some (r, k')) (h0 : r ≠ 0) :
    r = t ∧ ∃ kmem k₁ umem k₂ rsp k₃, k.kernelAllocStack info ksize = (kmem, k₁) ∧ kmem ≠ 0 ∧
      Kernel.userAllocStack { k₁ with usListHead := (k₁.processes proc).ustacksInfos
                                      cr3 := (k₁.processes proc).pml4 } usInfo usize = some (umem, k₂) ∧
      k₂.pushFrame umem 0x300000 0x1B 0x23 entry = (rsp, k₃) ∧
      k' = Kernel.addThread
        { k₃.setProcess proc fun p => { p with ustacksInfos := k₃.usListHead } with
          usListHead := k₁.usListHead, cr3 := k₁.cr3 } t
        (newThread rsp k₃.nextThreadId proc ⟨(kmem + ksize) % 2 ^ 64, kmem, ksize⟩
          ⟨(umem + usize) % 2 ^ 64, umem, usize⟩ (sub64 umem pageSize4KB) umem) := by
  unfold createUserThread at h
  dsimp only at h
  split_ifs at h with h1 h2
  · exact absurd (Prod.mk.inj (Option.some.inj h)).1.symm h0
  · exact absurd (Prod.mk.inj (Option.some.inj h)).1.symm h0
  · obtain ⟨⟨umem, k₂⟩, hk₂, heq⟩ := Option.bind_eq_some_iff.mp h
    split_ifs at heq
    obtain ⟨rfl, rfl⟩ := Prod.mk.inj (Option.some.inj heq)
    exact ⟨rfl, _, _, umem, k₂, _, _, rfl, h2, hk₂, rfl, rfl⟩

theorem enqueueThread_sans (k : Kernel) (t u : ℕ) :
    ((k.enqueueThread t).threads u).sansLinks = (k.threads u).sansLinks := by
  unfold enqueueThread
  split_ifs
  · rw [setThread_links]
    rfl
  · simp only [setThread_next, setThread_prev]
    rw [setThread_links]
    rfl

theorem addThread_sans (k : Kernel) (t : ℕ) (x : Thread) (u : ℕ) :
    ((k.addThread t x).threads u).sansLinks = (if u = t then x else k.threads u).sansLinks := by
  rw [addThread, enqueueThread_sans]
  simp only [Function.update_apply]

theorem userAllocStack_lt {info size : ℕ} (h : k.userAllocStack info size = some (r, k')) : r < 2 ^ 64 := by
  unfold userAllocStack at h
  split_ifs at h
  · rw [← (Prod.mk.inj (Option.some.inj h)).1]
    decide
  · rw [← (Prod.mk.inj (Option.some.inj h)).1]
    decide
  · obtain ⟨k₁, hk₁, heq⟩ := Option.map_eq_some_iff.mp h
    rw [← (Prod.mk.inj heq).1]
    by_cases hhead : (k.setUsInfo info fun n => { n with size := size }).usListHead = 0
    · rw [usAddToList, if_pos hhead] at hk₁
      obtain rfl := Option.some.inj hk₁
      simp only [setUsInfo, Function.update_self]
      decide
    · rw [usAddToList_eq hhead] at hk₁
      obtain ⟨c, -, rfl⟩ := Option.map_eq_some_iff.mp hk₁
      simp only [addedAfter, if_true]
      exact Nat.mod_lt _ (by decide)

end Calls
end Kernel
end PointerOS
