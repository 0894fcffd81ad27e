import PointerOS.AddressSpaces

/-!
# The list of the user stacks of one process

Runs of `user_alloc_stack` and `user_free_stack` on the linked records. The sizes are arbitrary: as
long as their sum stays below `userStackMax` no difference wraps, and the searches end.
-/
namespace PointerOS
open LinkedList GapList

/-- Calls on one process's list from the empty list on. `live` has the records that `kmalloc` gave
with their stacks, and `total` is the sum of the sizes asked for. -/
inductive StackCalls (k₀ : Kernel) : Kernel → List (ℕ × UsInfo) → ℕ → Prop
  | init (h0 : k₀.usListHead = 0) : StackCalls k₀ k₀ [] 0
  | alloc {k k' : Kernel} {live : List (ℕ × UsInfo)} {total info size base : ℕ} (h : StackCalls k₀ k live total)
      (hsize : 0 < size) (hinfo : info ≠ 0) (hnew : info ∉ live.map Prod.fst)
      (hcall : k.userAllocStack info size = some (base, k')) :
      StackCalls k₀ k' ((info, ⟨base, size⟩) :: live) (total + size)
  | free {k k' : Kernel} {live : List (ℕ × UsInfo)} {total : ℕ} {r : ℕ × UsInfo} (h : StackCalls k₀ k live total)
      (hr : r ∈ live) (hcall : k.userFreeStack r.2.base = some k') : StackCalls k₀ k' (live.erase r) total

/-- The records `l` are linked from `us_list_head`, one for each live stack and in order. -/
structure StackRegions (k : Kernel) (live : List (ℕ × UsInfo)) (total : ℕ) (l : List ℕ) : Prop where
  list : UsList k.usInfos k.usListHead l
  live : (l.map fun i => (i, (k.usInfos i).stack)).Perm live
  descends : Descends (stacksOf k.usInfos l)
  low : ∀ s ∈ stacksOf k.usInfos l, userStackMax + s.size ≤ s.base + total

/-- Stacks below each other are no more than there are addresses. -/
theorem Descends.length_le {l : List UsInfo} {m : ℕ} (h : Descends l) (hm : ∀ i ∈ l, i.base ≤ m) : l.length ≤ m := by
  induction l generalizing m with
  | nil => exact Nat.zero_le m
  | cons s l ih =>
    have hs : s ∈ s :: l := List.mem_cons_self
    have hpos := h.pos s hs
    have hfit := h.fits s hs
    have hbase := hm s hs
    have hrest := ih (h.sublist (List.sublist_cons_self s l)) (m := m - 1) fun j hj => by
      have := (List.pairwise_cons.mp h.sorted).1 j hj
      omega
    rw [List.length_cons]
    omega

/-- The record `i` with the stack of `size` bytes below `base` is new in the list. -/
structure StackAdded (k k' : Kernel) (l l' : List ℕ) (i base size : ℕ) : Prop where
  list : UsList k'.usInfos k'.usListHead l'
  perm : l'.Perm (i :: l)
  stack : (k'.usInfos i).stack = ⟨base, size⟩
  other : ∀ j, j ≠ i → (k'.usInfos j).stack = (k.usInfos j).stack
  place : usAddToList (stacksOf k.usInfos l) size = (base, stacksOf k'.usInfos l')

/-- `user_alloc_stack` returns, and the new stack is in the list. -/
theorem userAllocStack_added {k : Kernel} {i size : ℕ} {l : List ℕ} (h : UsList k.usInfos k.usListHead l)
    (hl : l.length < 2 ^ 64) (hi : i ∉ l) (h0 : i ≠ 0) (hsize : 0 < size) :
    ∃ base k' l', k.userAllocStack i size = some (base, k') ∧ StackAdded k k' l l' i base size := by
  have hother : ∀ j, j ≠ i → (k.setUsInfo i fun n => { n with size := size }).usInfos j = k.usInfos j := fun j hj =>
    Function.update_of_ne hj ..
  have hsame : ∀ j ∈ l, (k.setUsInfo i fun n => { n with size := size }).usInfos j = k.usInfos j := fun j hj =>
    hother j fun he => hi (he ▸ hj)
  have hset : UsList (k.setUsInfo i fun n => { n with size := size }).usInfos k.usListHead l := by
    refine IsList.congr h (fun j hj => ?_) (fun j hj => ?_)
    · rw [nextUs, nextUs, hsame j hj]
    · rw [prevUs, prevUs, hsame j hj]
  have hstacks : stacksOf (k.setUsInfo i fun n => { n with size := size }).usInfos l = stacksOf k.usInfos l :=
    stacksOf_congr fun j hj => by rw [hsame j hj]
  have hsz : ((k.setUsInfo i fun n => { n with size := size }).usInfos i).size = size := by
    simp only [Kernel.setUsInfo, Function.update_self]
  have hhead : (k.setUsInfo i fun n => { n with size := size }).usListHead = k.usListHead := rfl
  unfold Kernel.userAllocStack
  rw [if_neg hsize.ne', if_neg h0]
  generalize k.setUsInfo i (fun n => { n with size := size }) = k₁ at hother hset hstacks hsz hhead ⊢
  rw [← hhead] at hset
  obtain ⟨k₂, hadd⟩ : ∃ k₂, k₁.usAddToList i = some k₂ := by
    by_cases hnil : k₁.usListHead = 0
    · exact ⟨_, if_pos hnil⟩
    · obtain ⟨a, l, rfl⟩ := List.exists_cons_of_ne_nil (mt hset.eq_nil_iff.mp hnil)
      have hseg := hset.seg
      have hnull := hset.null_notMem
      rw [List.mem_cons, not_or] at hnull
      rw [List.length_cons] at hl
      rw [show k₁.usListHead = a from hseg.1] at hseg
      have hfuel : l.length < 2 ^ 64 := by omega
      obtain ⟨c, hc⟩ := gapNode_isSome
        (fun i' j => UsFits (k₁.usInfos i).size (k₁.usInfos i').stack (k₁.usInfos j).stack) hseg hnull.2 hfuel
      rw [Kernel.usAddToList_eq hnil, show k₁.usListHead = a from hset.seg.1, usFindGap_eq, hc]
      exact ⟨_, rfl⟩
  obtain ⟨l', hrel, hlist, hperm, hplace⟩ := usAddToList_nodes hset hi h0 hadd
  refine ⟨_, _, l', congrArg (Option.map _) hadd, hlist, hperm, ?_, fun j hj => ?_, ?_⟩
  · exact congrArg₂ UsInfo.mk rfl (hrel.size.trans hsz)
  · exact (hrel.stack j hj).trans (congrArg UsNode.stack (hother j hj))
  · rw [hsz, hstacks] at hplace
    exact hplace

namespace StackRegions
variable {k k' : Kernel} {live : List (ℕ × UsInfo)} {total info size base : ℕ} {l : List ℕ}

theorem length_lt (h : StackRegions k live total l) : l.length < 2 ^ 64 := by
  have hlen := h.descends.length_le h.descends.high
  rw [stacksOf, List.length_map] at hlen
  have hmax := userStackMax_eq
  omega

theorem mem_iff (h : StackRegions k live total l) (i : ℕ) : i ∈ l ↔ i ∈ live.map Prod.fst := by
  rw [← (h.live.map Prod.fst).mem_iff]
  simp

theorem stack_mem (h : StackRegions k live total l) {r : ℕ × UsInfo} (hr : r ∈ live) :
    r.1 ∈ l ∧ (k.usInfos r.1).stack = r.2 := by
  obtain ⟨i, hi, rfl⟩ := List.mem_map.mp (h.live.mem_iff.mpr hr)
  exact ⟨hi, rfl⟩

/-- The base tells the record. -/
theorem base_inj (h : StackRegions k live total l) {i j : ℕ} (hi : i ∈ l) (hj : j ∈ l)
    (hb : (k.usInfos i).base = (k.usInfos j).base) : i = j := by
  by_contra hne
  have hpos : ∀ i ∈ l, 0 < (k.usInfos i).size := fun i hi => h.descends.pos _ (List.mem_map_of_mem hi)
  have h1 := hpos i hi
  have h2 := hpos j hj
  have hrel := related_of_pairwise (List.pairwise_map.mp h.descends.sorted) hi hj hne
  simp only [UsNode.stack] at hrel
  omega

/-- The next stack starts in the part of the address space that is left. -/
theorem place_le (h : StackRegions k live total l) (size : ℕ) :
    userStackMax ≤ (usAddToList (stacksOf k.usInfos l) size).1 + total := by
  generalize hl : stacksOf k.usInfos l = placed
  cases placed with
  | nil => exact Nat.le_add_right ..
  | cons head rest =>
    obtain ⟨heq, -⟩ := findGap_spec (UsFits size) head rest
    have hmem : (findGap (UsFits size) head rest).2.1 ∈ stacksOf k.usInfos l := by
      rw [hl, heq]
      exact List.mem_append_right _ List.mem_cons_self
    have hfit := h.descends.fits _ hmem
    have hhigh := h.descends.high _ hmem
    have hlow := h.low _ hmem
    have hmax := userStackMax_eq
    change userStackMax ≤ sub64 _ _ + total
    rw [sub64_eq (by omega) hfit]
    omega

/-- A call of `user_alloc_stack` returns. -/
theorem alloc_returns (h : StackRegions k live total l) (hi : info ∉ l) :
    ∃ base k', k.userAllocStack info size = some (base, k') := by
  by_cases hsize : size = 0
  · exact ⟨0, k, if_pos hsize⟩
  by_cases hinfo : info = 0
  · refine ⟨0, k, ?_⟩
    unfold Kernel.userAllocStack
    rw [if_neg hsize, if_pos hinfo]
  obtain ⟨base, k', -, hcall, -⟩ := userAllocStack_added h.list h.length_lt hi hinfo (Nat.pos_of_ne_zero hsize)
  exact ⟨base, k', hcall⟩

/-- A call of `user_free_stack` returns. -/
theorem free_returns (h : StackRegions k live total l) (ptr : ℕ) : ∃ k', k.userFreeStack ptr = some k' := by
  obtain ⟨c, hc⟩ := findNode_isSome (fun i => (k.usInfos i).base = ptr) h.list.seg h.list.null_notMem h.length_lt
  rw [← usFind_eq] at hc
  exact ⟨_, congrArg (Option.map _) hc⟩

/-- `user_alloc_stack` links the new stack in. -/
theorem alloc (h : StackRegions k live total l) (hsize : 0 < size) (hinfo : info ≠ 0)
    (hnew : info ∉ live.map Prod.fst) (hsum : total + size ≤ userStackMax)
    (hcall : k.userAllocStack info size = some (base, k')) :
    ∃ l', StackRegions k' ((info, ⟨base, size⟩) :: live) (total + size) l' := by
  have hi : info ∉ l := fun hm => hnew ((h.mem_iff info).mp hm)
  obtain ⟨base₁, k₁, l', hret, ha⟩ := userAllocStack_added h.list h.length_lt hi hinfo hsize
  obtain ⟨rfl, rfl⟩ := Prod.mk.inj (Option.some.inj (hret.symm.trans hcall))
  have hother : ∀ j ∈ l, (k₁.usInfos j).stack = (k.usInfos j).stack := fun j hj =>
    ha.other j fun he => hi (he ▸ hj)
  have hlow := h.place_le size
  have hdesc := h.descends.add hsize (by omega)
  rw [ha.place] at hdesc hlow
  refine ⟨l', ha.list, (ha.perm.map _).trans ?_, hdesc, fun s hs => ?_⟩
  · rw [List.map_cons, ha.stack, List.map_congr_left fun j hj => by rw [hother j hj]]
    exact h.live.cons _
  · obtain ⟨j, hj, rfl⟩ := List.mem_map.mp hs
    rcases List.mem_cons.mp (ha.perm.mem_iff.mp hj) with rfl | hj
    · rw [ha.stack]
      dsimp only at hlow ⊢
      omega
    · rw [hother j hj]
      have := h.low _ (List.mem_map_of_mem (f := fun i => (k.usInfos i).stack) hj)
      omega

/-- `user_free_stack` of a live stack unlinks it. -/
theorem free (h : StackRegions k live total l) {r : ℕ × UsInfo} (hr : r ∈ live)
    (hcall : k.userFreeStack r.2.base = some k') : ∃ l', StackRegions k' (live.erase r) total l' := by
  obtain ⟨hrl, hrs⟩ := h.stack_mem hr
  obtain ⟨c, hc, rfl⟩ := Option.map_eq_some_iff.mp hcall
  rcases usFind_spec h.list.seg h.list.null_notMem hc with ⟨-, hnone⟩ | ⟨xs, ys, rfl, hbase, -⟩
  · exact absurd (congrArg UsInfo.base hrs) (hnone r.1 hrl)
  · have hc0 : c ≠ 0 := fun he => h.list.null_notMem (by simp [he])
    rw [if_neg hc0]
    dsimp only
    generalize intLoop (k.usInfos c).size _ k.vm = vm
    obtain ⟨hrel, hlist, hstacks⟩ := usRemoveFromList_nodes (k := { k with vm := vm }) h.list
    generalize Kernel.usRemoveFromList { k with vm := vm } c = k' at hrel hlist hstacks ⊢
    dsimp only at hstacks
    have hsub : (stacksOf k.usInfos (xs ++ ys)).Sublist (stacksOf k.usInfos (xs ++ c :: ys)) :=
      ((List.sublist_cons_self c ys).append_left xs).map _
    -- no other record has the base, so the record found is the one of the stack
    have hcr : c = r.1 := h.base_inj (by simp) hrl (hbase.trans (congrArg UsInfo.base hrs).symm)
    have hpair : (c, (k.usInfos c).stack) = r := Prod.ext hcr (hcr ▸ hrs)
    refine ⟨xs ++ ys, hlist, ?_, hstacks ▸ h.descends.sublist hsub, fun s hs => ?_⟩
    · have hpairs : ((xs ++ ys).map fun i => (i, (k'.usInfos i).stack)) =
          (xs ++ ys).map fun i => (i, (k.usInfos i).stack) := by
        refine List.map_congr_left fun j hj => ?_
        have hjc : j ≠ c := by
          have hnd := h.list.nodup
          rw [List.nodup_middle] at hnd
          exact fun he => (List.nodup_cons.mp hnd).1 (he ▸ hj)
        rw [hrel.stack j hjc]
      rw [hpairs, ← hpair]
      exact perm_erase_of_map h.live
    · rw [hstacks] at hs
      exact h.low s (hsub.subset hs)

end StackRegions

/-- The list over a whole run. -/
theorem StackCalls.regions {k₀ k : Kernel} {live : List (ℕ × UsInfo)} {total : ℕ} (h : StackCalls k₀ k live total)
    (hsum : total ≤ userStackMax) : ∃ l, StackRegions k live total l := by
  induction h with
  | init h0 =>
    refine ⟨[], ⟨?_, .nil, .nil, fun s hs => absurd hs List.not_mem_nil⟩⟩
    rw [h0]
    exact IsList.nil
  | alloc _ hsize hinfo hnew hcall ih =>
    obtain ⟨l, hl⟩ := ih (by omega)
    exact hl.alloc hsize hinfo hnew hsum hcall
  | free _ hr hcall ih =>
    obtain ⟨l, hl⟩ := ih hsum
    exact hl.free hr hcall

/-- In every state of a run the records linked from `us_list_head` are those of the live stacks, from
the highest stack down and without overlap, and the calls return. -/
theorem user_stack_list_ordered {k₀ k : Kernel} {live : List (ℕ × UsInfo)} {total : ℕ}
    (h : StackCalls k₀ k live total) (hsum : total < userStackMax) :
    (∃ l, UsList k.usInfos k.usListHead l ∧ (l.map fun i => (i, (k.usInfos i).stack)).Perm live ∧
      (stacksOf k.usInfos l).Pairwise (fun i j => j.base < i.base ∧ i.size ≤ i.base ∧ j.base ≤ i.base - i.size) ∧
      ∀ i ∈ (stacksOf k.usInfos l).head?, i.base ≤ userStackMax) ∧
    (∀ r ∈ live, ∀ r' ∈ live, r ≠ r' → ∀ v, ¬(r.2.Has v ∧ r'.2.Has v)) ∧
    (∀ info size, info ∉ live.map Prod.fst → ∃ base k', k.userAllocStack info size = some (base, k')) ∧
    ∀ r ∈ live, ∃ k', k.userFreeStack r.2.base = some k' := by
  obtain ⟨l, hl⟩ := h.regions hsum.le
  have hd := hl.descends
  have hnodup : live.Nodup := by
    refine (hl.live.nodup_iff).mp (List.Nodup.map (fun i j hij => (Prod.mk.inj hij).1) hl.list.nodup)
  refine ⟨⟨l, hl.list, hl.live, ?_, fun i hi => hd.high i (List.mem_of_mem_head? hi)⟩, ?_,
    fun info size hi => hl.alloc_returns fun hm => hi ((hl.mem_iff info).mp hm), fun r _ => hl.free_returns _⟩
  · refine hd.sorted.imp_of_mem fun {i j} hi _ hij => ?_
    have hpos := hd.pos i hi
    have hfit := hd.fits i hi
    exact ⟨by omega, hfit, by omega⟩
  · intro r hr r' hr' hne v hv
    obtain ⟨hm, hs⟩ := hl.stack_mem hr
    obtain ⟨hm', hs'⟩ := hl.stack_mem hr'
    have hrel : ∀ i ∈ l, ∀ j ∈ l, i ≠ j →
        (k.usInfos j).stack.base + (k.usInfos i).stack.size ≤ (k.usInfos i).stack.base ∨
          (k.usInfos i).stack.base + (k.usInfos j).stack.size ≤ (k.usInfos j).stack.base := fun i hi j hj hij =>
      related_of_pairwise (List.pairwise_map.mp hd.sorted) hi hj hij
    have h1 : r.1 ≠ r'.1 := fun he => hne (Prod.ext he (by rw [← hs, ← hs', he]))
    obtain ⟨⟨_, _⟩, _, _⟩ := hv
    have := hrel r.1 hm r'.1 hm' h1
    rw [hs, hs'] at this
    omega

theorem user_stack_list_ordered_two : ∃ (k : Kernel) (base : ℕ) (l : List ℕ), UsList k.usInfos k.usListHead l ∧
    (l.map fun i => (i, (k.usInfos i).stack)).Perm
      [(0x200, ⟨base, 0x2000⟩), (0x100, ⟨userStackMax, 0x1001⟩)] := by
  have h₁ : StackCalls Kernel.beforeBoot _ [(0x100, ⟨userStackMax, 0x1001⟩)] (0 + 0x1001) :=
    .alloc (.init rfl) (by decide) (by decide) (by decide) rfl
  obtain ⟨-, -, hreturns, -⟩ := user_stack_list_ordered h₁ (by decide)
  obtain ⟨base, k, hcall⟩ := hreturns 0x200 0x2000 (by decide)
  have h₂ := h₁.alloc (by decide) (by decide) (by decide) hcall
  obtain ⟨⟨l, hl, hlive, -⟩, -⟩ := user_stack_list_ordered h₂ (by decide)
  exact ⟨k, base, l, hl, hlive⟩

end PointerOS
