import PointerOS.LinkedSearch
import PointerOS.Threads

/-!
# The records of user stacks

`us_add_to_list`, `us_remove_from_list` and `user_free_stack` on the linked records. The stacks in
the order of the links are the list of stacks that the records stand for.
-/
namespace PointerOS
open LinkedList GapList

def nextUs (N : ℕ → UsNode) (i : ℕ) : ℕ := (N i).next

def prevUs (N : ℕ → UsNode) (i : ℕ) : ℕ := (N i).prev

/-- A record without its links. -/
def UsNode.stack (n : UsNode) : UsInfo := ⟨n.base, n.size⟩

/-- A record is its stack and its links. -/
theorem UsNode.eq_of_stack {m n : UsNode} (hs : m.stack = n.stack) (hn : m.next = n.next) (hp : m.prev = n.prev) :
    m = n := by
  cases m
  cases n
  cases hs
  cases hn
  cases hp
  rfl

/-- The stacks of the records. -/
def stacksOf (N : ℕ → UsNode) (l : List ℕ) : List UsInfo := l.map fun i => (N i).stack

/-- The records `l` are linked from `head` on. -/
def UsList (N : ℕ → UsNode) (head : ℕ) (l : List ℕ) : Prop := IsList (nextUs N) (prevUs N) 0 head l

/-- Only the records in `l` have changed, and of those only the links, but for the record `i`. -/
structure UsRelinked (k k' : Kernel) (i : ℕ) (l : List ℕ) : Prop where
  eq : k' = { k with usInfos := k'.usInfos, usListHead := k'.usListHead }
  frame : ∀ j, j ∉ l → k'.usInfos j = k.usInfos j
  stack : ∀ j, j ≠ i → (k'.usInfos j).stack = (k.usInfos j).stack
  size : (k'.usInfos i).size = (k.usInfos i).size

section Search
variable {N : ℕ → UsNode} {size fuel ptr p a c head : ℕ} {l : List ℕ}

theorem usFindGap_eq (N : ℕ → UsNode) (size fuel a : ℕ) :
    Kernel.usFindGap N size fuel a = gapNode (nextUs N) 0 (fun i j => UsFits size (N i).stack (N j).stack) fuel a := by
  induction fuel generalizing a with
  | zero => rfl
  | succ fuel ih =>
    rw [Kernel.usFindGap, gapNode, ih]
    rfl

theorem usFind_eq (N : ℕ → UsNode) (ptr fuel a : ℕ) :
    Kernel.usFind N ptr fuel a = findNode (nextUs N) 0 (fun i => (N i).base = ptr) fuel a := by
  induction fuel generalizing a with
  | zero => rfl
  | succ fuel ih =>
    rw [Kernel.usFind, findNode, ih]
    rfl

/-- The record found is the first one with the base. -/
theorem usFind_spec (hs : Seg (nextUs N) (prevUs N) p head l 0) (h0 : 0 ∉ l)
    (hf : Kernel.usFind N ptr fuel head = some c) :
    c = 0 ∧ (∀ j ∈ l, (N j).base ≠ ptr) ∨
      ∃ xs ys, l = xs ++ c :: ys ∧ (N c).base = ptr ∧ ∀ j ∈ xs, (N j).base ≠ ptr := by
  rw [usFind_eq] at hf
  exact findNode_spec _ hs h0 hf

end Search

namespace Kernel
variable {k k' : Kernel} {i : ℕ} {l xs ys : List ℕ}

theorem setUsInfo_next (k : Kernel) (i n : ℕ) :
    (k.setUsInfo i fun r => { r with next := n }) =
      { k with usInfos := fun j => { k.usInfos j with next := if j = i then n else (k.usInfos j).next } } := by
  unfold setUsInfo
  congr 1
  funext j
  rw [Function.update_apply]
  split_ifs with hj
  · rw [hj]
  · rfl

theorem setUsInfo_prev (k : Kernel) (i p : ℕ) :
    (k.setUsInfo i fun r => { r with prev := p }) =
      { k with usInfos := fun j => { k.usInfos j with prev := if j = i then p else (k.usInfos j).prev } } := by
  unfold setUsInfo
  congr 1
  funext j
  rw [Function.update_apply]
  split_ifs with hj
  · rw [hj]
  · rfl

theorem setUsInfo_links (k : Kernel) (i n p : ℕ) :
    (k.setUsInfo i fun r => { r with next := n, prev := p }) =
      { k with usInfos := fun j =>
          { k.usInfos j with
            next := if j = i then n else (k.usInfos j).next
            prev := if j = i then p else (k.usInfos j).prev } } := by
  unfold setUsInfo
  congr 1
  funext j
  rw [Function.update_apply]
  split_ifs with hj
  · rw [hj]
  · rfl

theorem setUsInfo_place (k : Kernel) (i b n p : ℕ) :
    (k.setUsInfo i fun r => { r with base := b, next := n, prev := p }) =
      { k with usInfos := fun j =>
          { k.usInfos j with
            base := if j = i then b else (k.usInfos j).base
            next := if j = i then n else (k.usInfos j).next
            prev := if j = i then p else (k.usInfos j).prev } } := by
  unfold setUsInfo
  congr 1
  funext j
  rw [Function.update_apply]
  split_ifs with hj
  · rw [hj]
  · rfl

/-- The records after `us_add_to_list` behind `c`. -/
def addedAfter (N : ℕ → UsNode) (i c : ℕ) : ℕ → UsNode :=
  fun j =>
    { N j with
      base := if j = i then sub64 (N c).base (N c).size else (N j).base
      next := if j = c then i else if j = i then (N c).next else (N j).next
      prev := if (N c).next ≠ 0 ∧ j = (N c).next then i else if j = i then c else (N j).prev }

theorem usAddToList_eq (h0 : k.usListHead ≠ 0) : k.usAddToList i =
    (usFindGap k.usInfos (k.usInfos i).size (2 ^ 64) k.usListHead).map fun c =>
      { k with usInfos := addedAfter k.usInfos i c } := by
  unfold usAddToList
  rw [if_neg h0]
  congr 1
  funext c
  have hset : (k.setUsInfo i fun n => { n with
      base := sub64 (k.usInfos c).base (k.usInfos c).size, next := (k.usInfos c).next, prev := c }) = _ :=
    k.setUsInfo_place i _ _ _
  dsimp only
  rw [hset]
  simp only [setUsInfo_next, setUsInfo_prev]
  unfold addedAfter
  by_cases hn : (k.usInfos c).next = 0
  · simp only [hn, ne_eq, not_true_eq_false, false_and, if_false, if_true]
  · simp only [hn, ne_eq, not_false_eq_true, true_and, if_false]

/-- The records after `us_remove_from_list`. -/
def removedFrom (N : ℕ → UsNode) (i : ℕ) : ℕ → UsNode :=
  fun j =>
    { N j with
      next := if j = i then 0 else if (N i).prev ≠ 0 ∧ j = (N i).prev then (N i).next else (N j).next
      prev := if j = i then 0 else if (N i).next ≠ 0 ∧ j = (N i).next then (N i).prev else (N j).prev }

theorem usRemoveFromList_eq (h0 : i ≠ 0) (hn : (k.usInfos i).next ≠ i) :
    k.usRemoveFromList i =
      { k with
        usInfos := removedFrom k.usInfos i
        usListHead := if k.usListHead = i then (k.usInfos i).next else k.usListHead } := by
  unfold usRemoveFromList
  rw [if_neg h0]
  have hhead : (if k.usListHead = i then { k with usListHead := (k.usInfos i).next } else k) =
      { k with usListHead := if k.usListHead = i then (k.usInfos i).next else k.usListHead } := by
    split_ifs <;> rfl
  dsimp only
  rw [hhead]
  unfold removedFrom
  by_cases h1 : (k.usInfos i).next = 0 <;> by_cases h2 : (k.usInfos i).prev = 0
  all_goals
    simp only [setUsInfo_next, setUsInfo_prev, setUsInfo_links, h1, h2, ne_eq, not_true_eq_false, false_and, if_false,
      if_true, not_false_eq_true, true_and, Ne.symm hn]

end Kernel

section Edit
variable {k k' : Kernel} {i : ℕ} {l xs ys : List ℕ}

theorem stacksOf_congr {N N' : ℕ → UsNode} (h : ∀ j ∈ l, (N' j).stack = (N j).stack) : stacksOf N' l = stacksOf N l :=
  List.map_congr_left h

/-- A new record is linked in where the list of stacks has the new stack. -/
theorem usAddToList_nodes (h : UsList k.usInfos k.usListHead l) (hi : i ∉ l) (h0 : i ≠ 0)
    (hadd : k.usAddToList i = some k') :
    ∃ l', UsRelinked k k' i (i :: l) ∧ UsList k'.usInfos k'.usListHead l' ∧ l'.Perm (i :: l) ∧
      usAddToList (stacksOf k.usInfos l) (k.usInfos i).size =
        ((k'.usInfos i).base, stacksOf k'.usInfos l') := by
  by_cases hhead : k.usListHead = 0
  · obtain rfl := h.eq_nil_iff.mpr hhead
    rw [Kernel.usAddToList, if_pos hhead] at hadd
    obtain rfl := Option.some.inj hadd
    have hN : ∀ j, Function.update k.usInfos i { k.usInfos i with base := userStackMax, prev := 0, next := 0 } j =
        if j = i then { k.usInfos i with base := userStackMax, prev := 0, next := 0 } else k.usInfos j := fun j =>
      Function.update_apply ..
    refine ⟨[i], ⟨rfl, fun j hj => ?_, fun j hj => ?_, ?_⟩, ⟨List.nodup_singleton i, ?_, rfl, ?_, ?_⟩, .refl _, ?_⟩
    · exact (hN j).trans (if_neg fun he : j = i => hj (he ▸ List.mem_cons_self))
    · exact congrArg UsNode.stack ((hN j).trans (if_neg hj))
    · refine (congrArg UsNode.size (hN i)).trans ?_
      rw [if_pos rfl]
    · exact fun hm => h0 (List.mem_singleton.mp hm).symm
    · exact congrArg UsNode.prev ((hN i).trans (if_pos rfl))
    · exact congrArg UsNode.next ((hN i).trans (if_pos rfl))
    · simp only [stacksOf, List.map_nil, List.map_cons, usAddToList, Kernel.setUsInfo, Function.update_self, UsNode.stack]
  · obtain ⟨a, l, rfl⟩ := List.exists_cons_of_ne_nil (mt h.eq_nil_iff.mp hhead)
    obtain ⟨c, hc, rfl⟩ := Option.map_eq_some_iff.mp ((Kernel.usAddToList_eq hhead).symm.trans hadd)
    have ha : k.usListHead = a := h.seg.1
    have hseg := h.seg
    have hnull := h.null_notMem
    rw [ha] at hc hseg
    rw [List.mem_cons, not_or] at hnull
    rw [usFindGap_eq] at hc
    have hgap := gapNode_spec _ hseg hnull.2 hc
    obtain ⟨hsplit, -⟩ :=
      findGap_spec (fun i' j => UsFits (k.usInfos i).size (k.usInfos i').stack (k.usInfos j).stack) a l
    have hplace : usAddToList (stacksOf k.usInfos (a :: l)) (k.usInfos i).size =
        (sub64 (k.usInfos c).base (k.usInfos c).size,
          stacksOf k.usInfos
              (findGap (fun i' j => UsFits (k.usInfos i).size (k.usInfos i').stack (k.usInfos j).stack) a l).1 ++
            (k.usInfos c).stack :: ⟨sub64 (k.usInfos c).base (k.usInfos c).size, (k.usInfos i).size⟩ ::
            stacksOf k.usInfos
              (findGap (fun i' j => UsFits (k.usInfos i).size (k.usInfos i').stack (k.usInfos j).stack) a l).2.2) := by
      rw [hgap]
      change usAddToList ((k.usInfos a).stack :: l.map fun i => (k.usInfos i).stack) _ = _
      rw [usAddToList, findGap_map (fun i => (k.usInfos i).stack)]
      rfl
    rw [← hgap] at hsplit
    generalize (findGap (fun i' j => UsFits (k.usInfos i).size (k.usInfos i').stack (k.usInfos j).stack) a l).1 = xs
      at hsplit hplace
    generalize (findGap (fun i' j => UsFits (k.usInfos i).size (k.usInfos i').stack (k.usInfos j).stack) a l).2.2 = ys
      at hsplit hplace
    rw [hsplit] at h hi
    have hmem : ∀ j ∈ xs ++ c :: ys, j ≠ i := fun j hj he => hi (he ▸ hj)
    have hic : i ≠ c := Ne.symm (hmem c (by simp))
    have hstack : ∀ j, j ≠ i → (Kernel.addedAfter k.usInfos i c j).stack = (k.usInfos j).stack := fun j hj => by
      simp only [UsNode.stack, Kernel.addedAfter, if_neg hj]
    have hnew : (Kernel.addedAfter k.usInfos i c i).stack =
        ⟨sub64 (k.usInfos c).base (k.usInfos c).size, (k.usInfos i).size⟩ := by
      simp only [UsNode.stack, Kernel.addedAfter, if_true]
    have hlinks : LinksBehind (nextUs k.usInfos) (prevUs k.usInfos) (nextUs (Kernel.addedAfter k.usInfos i c))
        (prevUs (Kernel.addedAfter k.usInfos i c)) 0 i c := ⟨fun _ => rfl, fun _ => rfl⟩
    obtain ⟨hlist, hframe⟩ := h.behind hi h0 hlinks
    refine ⟨xs ++ c :: i :: ys, ⟨rfl, fun j hj => ?_, hstack, rfl⟩, hlist, ?_, hplace.trans (Prod.ext ?_ ?_)⟩
    · rw [hsplit, List.mem_cons, not_or] at hj
      obtain ⟨hn, hp⟩ := hframe j hj.1 hj.2
      exact UsNode.eq_of_stack (hstack j hj.1) hn hp
    · have heq : xs ++ c :: i :: ys = (xs ++ [c]) ++ i :: ys := by simp
      rw [hsplit, heq]
      exact List.perm_middle.trans (by simp)
    · exact (congrArg UsInfo.base hnew).symm
    · have hxs := stacksOf_congr (l := xs) fun j hj => hstack j (hmem j (by simp [hj]))
      have hys := stacksOf_congr (l := ys) fun j hj => hstack j (hmem j (by simp [hj]))
      have hparts : stacksOf (Kernel.addedAfter k.usInfos i c) (xs ++ c :: i :: ys) =
          stacksOf (Kernel.addedAfter k.usInfos i c) xs ++ (Kernel.addedAfter k.usInfos i c c).stack ::
            (Kernel.addedAfter k.usInfos i c i).stack :: stacksOf (Kernel.addedAfter k.usInfos i c) ys :=
        List.map_append
      rw [hparts, hxs, hys, hstack c (Ne.symm hic), hnew]

/-- The record is unlinked. -/
theorem usRemoveFromList_nodes (h : UsList k.usInfos k.usListHead (xs ++ i :: ys)) :
    UsRelinked k (k.usRemoveFromList i) i (xs ++ i :: ys) ∧
      UsList (k.usRemoveFromList i).usInfos (k.usRemoveFromList i).usListHead (xs ++ ys) ∧
      stacksOf (k.usRemoveFromList i).usInfos (xs ++ ys) = stacksOf k.usInfos (xs ++ ys) := by
  have hnull := h.null_notMem
  have hnodup := h.nodup
  have h0 : i ≠ 0 := fun he => hnull (by simp [he])
  have hmem : ∀ j ∈ xs ++ ys, j ≠ i := by
    rw [List.nodup_middle] at hnodup
    exact fun j hj he => (List.nodup_cons.mp hnodup).1 (he ▸ hj)
  have hni : (k.usInfos i).next ≠ i := by
    rw [show (k.usInfos i).next = ys.headD 0 from h.links.2]
    cases ys with
    | nil => exact Ne.symm h0
    | cons y ys => exact hmem y (by simp)
  rw [Kernel.usRemoveFromList_eq h0 hni]
  have hstack : ∀ j, (Kernel.removedFrom k.usInfos i j).stack = (k.usInfos j).stack := fun _ => rfl
  have hunlinks : Unlinks (nextUs k.usInfos) (prevUs k.usInfos) (nextUs (Kernel.removedFrom k.usInfos i))
      (prevUs (Kernel.removedFrom k.usInfos i)) 0 k.usListHead
      (if k.usListHead = i then (k.usInfos i).next else k.usListHead) i := ⟨fun _ => rfl, fun _ => rfl, rfl⟩
  obtain ⟨hlist, hframe⟩ := h.unlink hunlinks
  refine ⟨⟨rfl, fun j hj => ?_, fun j _ => hstack j, rfl⟩, hlist, stacksOf_congr fun j _ => hstack j⟩
  obtain ⟨hn, hp⟩ := hframe j hj
  exact UsNode.eq_of_stack (hstack j) hn hp

end Edit
end PointerOS
