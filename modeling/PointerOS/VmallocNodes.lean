import PointerOS.Buddy
import PointerOS.LinkedSearch
import PointerOS.Vmalloc

/-!
# The records of vmalloc regions

`vmalloc.c` on the linked records, for regions of any size. Runs of `vmalloc` and `vfree` keep the
records linked in the order of their bases, in the first bytes of the area and without overlap.
-/
namespace PointerOS
open Tables FrameSource LinkedList GapList

/-- `vm_info_t`. -/
structure VmNode where
  base : ℕ
  size : ℕ
  next : ℕ
  prev : ℕ
deriving DecidableEq

/-- The records by address, `vmalloc_list_head` and the page tables. -/
structure VmRecords where
  infos : ℕ → VmNode
  vmallocListHead : ℕ
  vm : Vm FrameSource

namespace VmRecords

def setInfo (s : VmRecords) (i : ℕ) (f : VmNode → VmNode) : VmRecords :=
  { s with infos := Function.update s.infos i (f (s.infos i)) }

/-- The search of `vm_add_to_list` from `current` on: the record to go behind. -/
def vmFindGap (nodes : ℕ → VmNode) (size : ℕ) : ℕ → ℕ → Option ℕ
  | 0, _ => none
  | fuel + 1, current =>
    let next := (nodes current).next
    if next = 0 then some current
    else if ((nodes current).base + (nodes current).size + size) % 2 ^ 64 ≤ (nodes next).base then some current
    else vmFindGap nodes size fuel next

def vmAddToList (s : VmRecords) (i : ℕ) : Option VmRecords :=
  if s.vmallocListHead = 0 then
    some { s.setInfo i fun n => { n with base := vmallocStart, prev := 0, next := 0 } with vmallocListHead := i }
  else
    (vmFindGap s.infos (s.infos i).size (2 ^ 64) s.vmallocListHead).map fun current =>
      let next := (s.infos current).next
      let base := ((s.infos current).base + (s.infos current).size) % 2 ^ 64
      let s := s.setInfo i fun n => { n with base := base, next := next, prev := current }
      let s := s.setInfo current fun n => { n with next := i }
      if next = 0 then s else s.setInfo next fun n => { n with prev := i }

def vmRemoveFromList (s : VmRecords) (i : ℕ) : VmRecords :=
  if i = 0 then s
  else
    let s := if s.vmallocListHead = i then { s with vmallocListHead := (s.infos i).next } else s
    let s :=
      if (s.infos i).next = 0 then s else s.setInfo (s.infos i).next fun n => { n with prev := (s.infos i).prev }
    let s :=
      if (s.infos i).prev = 0 then s else s.setInfo (s.infos i).prev fun n => { n with next := (s.infos i).next }
    s.setInfo i fun n => { n with next := 0, prev := 0 }

/-- `info` is what `kmalloc` returned for the record, and `cr3` the PML4 in use. -/
def vmalloc (s : VmRecords) (cr3 info size : ℕ) : Option (ℕ × VmRecords) :=
  if size = 0 then some (0, s)
  else if info = 0 then some (0, s)
  else
    ((s.setInfo info fun n => { n with size := size }).vmAddToList info).map fun s =>
      let base := (s.infos info).base
      (base, { s with
        vm := intLoop size (fun j vm => vm.mapNewPage cr3 ((base + intToU64 j) % 2 ^ 64) pteWritable) s.vm })

/-- The search of `vfree` from `current` on: the record with the base `ptr`, or 0. -/
def vmFind (nodes : ℕ → VmNode) (ptr : ℕ) : ℕ → ℕ → Option ℕ
  | 0, _ => none
  | fuel + 1, current =>
    if current = 0 then some 0
    else if (nodes current).base = ptr then some current
    else vmFind nodes ptr fuel (nodes current).next

def vfree (s : VmRecords) (cr3 ptr : ℕ) : Option VmRecords :=
  (vmFind s.infos ptr (2 ^ 64) s.vmallocListHead).map fun current =>
    if current = 0 then s
    else
      let i := s.infos current
      vmRemoveFromList { s with
        vm := intLoop i.size (fun j vm => vm.freePage cr3 ((i.base + intToU64 j) % 2 ^ 64)) s.vm } current

end VmRecords

/-! ## The records as a list of regions -/

def nextVm (N : ℕ → VmNode) (i : ℕ) : ℕ := (N i).next

def prevVm (N : ℕ → VmNode) (i : ℕ) : ℕ := (N i).prev

/-- A record without its links. -/
def VmNode.region (n : VmNode) : VmInfo := ⟨n.base, n.size⟩

/-- The regions of the records. -/
def regionsOf (N : ℕ → VmNode) (l : List ℕ) : List VmInfo := l.map fun i => (N i).region

/-- The records `l` are linked from `head` on. -/
def VmList (N : ℕ → VmNode) (head : ℕ) (l : List ℕ) : Prop := IsList (nextVm N) (prevVm N) 0 head l

namespace VmRecords
variable {s s' : VmRecords} {N : ℕ → VmNode} {i c size fuel ptr a : ℕ} {l xs ys : List ℕ}

theorem vmFindGap_eq (N : ℕ → VmNode) (size fuel a : ℕ) :
    vmFindGap N size fuel a = gapNode (nextVm N) 0 (fun i j => VmFits size (N i).region (N j).region) fuel a := by
  induction fuel generalizing a with
  | zero => rfl
  | succ fuel ih =>
    rw [vmFindGap, gapNode, ih]
    rfl

theorem vmFind_eq (N : ℕ → VmNode) (ptr fuel a : ℕ) :
    vmFind N ptr fuel a = findNode (nextVm N) 0 (fun i => (N i).base = ptr) fuel a := by
  induction fuel generalizing a with
  | zero => rfl
  | succ fuel ih =>
    rw [vmFind, findNode, ih]
    rfl

/-- A write to one record, seen from each record. -/
theorem setInfo_infos (s : VmRecords) (i j : ℕ) (f : VmNode → VmNode) :
    (s.setInfo i f).infos j = if j = i then f (s.infos j) else s.infos j := by
  simp only [setInfo, Function.update_apply]
  split_ifs with hj
  · rw [hj]
  · rfl

theorem setInfo_vmallocListHead (s : VmRecords) (i : ℕ) (f : VmNode → VmNode) :
    (s.setInfo i f).vmallocListHead = s.vmallocListHead := rfl

/-- What `vm_add_to_list` writes behind `c`. -/
structure AddedBehind (s s' : VmRecords) (i c : ℕ) : Prop where
  eq : s' = { s with infos := s'.infos }
  links : LinksBehind (nextVm s.infos) (prevVm s.infos) (nextVm s'.infos) (prevVm s'.infos) 0 i c
  size : ∀ j, (s'.infos j).size = (s.infos j).size
  base : ∀ j, (s'.infos j).base =
    if j = i then ((s.infos c).base + (s.infos c).size) % 2 ^ 64 else (s.infos j).base

theorem vmAddToList_behind (h0 : s.vmallocListHead ≠ 0) (hic : i ≠ c) (hin : i ≠ (s.infos c).next)
    (hc : vmFindGap s.infos (s.infos i).size (2 ^ 64) s.vmallocListHead = some c) :
    ∃ s', s.vmAddToList i = some s' ∧ AddedBehind s s' i c := by
  unfold vmAddToList
  rw [if_neg h0, hc]
  refine ⟨_, rfl, ?_, ⟨fun j => ?_, fun j => ?_⟩, fun j => ?_, fun j => ?_⟩
  · dsimp only
    split_ifs <;> rfl
  all_goals
    simp only [nextVm, prevVm]
    split_ifs <;> simp only [setInfo_infos] <;> grind

/-- What `vm_remove_from_list` writes. -/
structure Removed (s s' : VmRecords) (i : ℕ) : Prop where
  eq : s' = { s with infos := s'.infos, vmallocListHead := s'.vmallocListHead }
  links : Unlinks (nextVm s.infos) (prevVm s.infos) (nextVm s'.infos) (prevVm s'.infos) 0 s.vmallocListHead
    s'.vmallocListHead i
  region : ∀ j, (s'.infos j).region = (s.infos j).region

theorem vmRemoveFromList_removed (h0 : i ≠ 0) (hn : (s.infos i).next ≠ i) (hp : (s.infos i).prev ≠ i) :
    Removed s (s.vmRemoveFromList i) i := by
  have hhead : (if s.vmallocListHead = i then { s with vmallocListHead := (s.infos i).next } else s) =
      { s with vmallocListHead := if s.vmallocListHead = i then (s.infos i).next else s.vmallocListHead } := by
    split_ifs <;> rfl
  have hni : i ≠ (s.infos i).next := Ne.symm hn
  unfold vmRemoveFromList
  rw [if_neg h0]
  dsimp only
  rw [hhead]
  dsimp only
  by_cases h1 : (s.infos i).next = 0 <;> by_cases h2 : (s.infos i).prev = 0
  all_goals
    simp only [h1, h2, if_true, if_false, setInfo_infos, if_neg hni]
    refine ⟨rfl, ⟨fun j => ?_, fun j => ?_, ?_⟩, fun j => ?_⟩
    all_goals simp only [nextVm, prevVm, VmNode.region, setInfo_infos, setInfo_vmallocListHead] <;> grind

/-- The record `i` with the region of `size` bytes at `base` is new in the list. -/
structure Added (s s' : VmRecords) (l l' : List ℕ) (i base size : ℕ) : Prop where
  list : VmList s'.infos s'.vmallocListHead l'
  perm : l'.Perm (i :: l)
  region : (s'.infos i).region = ⟨base, size⟩
  other : ∀ j, j ≠ i → (s'.infos j).region = (s.infos j).region
  place : PointerOS.vmAddToList (regionsOf s.infos l) size = (base, regionsOf s'.infos l')

/-- A new record is linked in where the list of regions has the new region. -/
theorem vmAddToList_added (h : VmList s.infos s.vmallocListHead l) (hl : l.length < 2 ^ 64) (hi : i ∉ l) (h0 : i ≠ 0) :
    ∃ s' l', s.vmAddToList i = some s' ∧ Added s s' l l' i (s'.infos i).base (s.infos i).size := by
  by_cases hhead : s.vmallocListHead = 0
  · obtain rfl := h.eq_nil_iff.mpr hhead
    refine ⟨_, [i], if_pos hhead, ⟨⟨List.nodup_singleton i, ?_, rfl, ?_, ?_⟩, .refl _, ?_, fun j hj => ?_, ?_⟩⟩
    · exact fun hm => h0 (List.mem_singleton.mp hm).symm
    · simp only [prevVm, setInfo_infos, if_true]
    · simp only [Seg, nextVm, setInfo_infos, if_true]
    · simp only [VmNode.region, setInfo_infos, if_true]
    · simp only [setInfo_infos, if_neg hj]
    · simp only [PointerOS.vmAddToList, regionsOf, List.map_cons, List.map_nil, VmNode.region, setInfo_infos, if_true]
  · obtain ⟨a, l, rfl⟩ := List.exists_cons_of_ne_nil (mt h.eq_nil_iff.mp hhead)
    have hseg := h.seg
    have hnull := h.null_notMem
    rw [show s.vmallocListHead = a from hseg.1] at hseg
    rw [List.mem_cons, not_or] at hnull
    rw [List.length_cons] at hl
    have hfuel : l.length < 2 ^ 64 := by omega
    obtain ⟨c, hc⟩ := gapNode_isSome (fun i' j => VmFits (s.infos i).size (s.infos i').region (s.infos j).region)
      hseg hnull.2 hfuel
    have hgap := gapNode_spec _ hseg hnull.2 hc
    obtain ⟨hsplit, -⟩ := findGap_spec (fun i' j => VmFits (s.infos i).size (s.infos i').region (s.infos j).region) a l
    rw [← vmFindGap_eq, ← show s.vmallocListHead = a from h.seg.1] at hc
    have hplace : PointerOS.vmAddToList (regionsOf s.infos (a :: l)) (s.infos i).size =
        (((s.infos c).base + (s.infos c).size) % 2 ^ 64,
          regionsOf s.infos (findGap (fun i' j => VmFits (s.infos i).size (s.infos i').region (s.infos j).region) a l).1 ++
            (s.infos c).region :: ⟨((s.infos c).base + (s.infos c).size) % 2 ^ 64, (s.infos i).size⟩ ::
            regionsOf s.infos
              (findGap (fun i' j => VmFits (s.infos i).size (s.infos i').region (s.infos j).region) a l).2.2) := by
      rw [hgap]
      change PointerOS.vmAddToList ((s.infos a).region :: l.map fun i => (s.infos i).region) _ = _
      rw [PointerOS.vmAddToList, findGap_map (fun i => (s.infos i).region)]
      rfl
    rw [← hgap] at hsplit
    generalize (findGap (fun i' j => VmFits (s.infos i).size (s.infos i').region (s.infos j).region) a l).1 = xs
      at hsplit hplace
    generalize (findGap (fun i' j => VmFits (s.infos i).size (s.infos i').region (s.infos j).region) a l).2.2 = ys
      at hsplit hplace
    rw [hsplit] at h hi
    have hic : i ≠ c := fun he => hi (by simp [he])
    have hin : i ≠ (s.infos c).next := by
      rw [show (s.infos c).next = ys.headD 0 from h.links.2]
      cases ys with
      | nil => exact h0
      | cons y ys => exact fun he => hi (by simp [he])
    obtain ⟨s', hs', hadded⟩ := vmAddToList_behind hhead hic hin hc
    have hregion : ∀ j, j ≠ i → (s'.infos j).region = (s.infos j).region := fun j hj => by
      rw [VmNode.region, VmNode.region, hadded.size, hadded.base, if_neg hj]
    have hbase : (s'.infos i).base = ((s.infos c).base + (s.infos c).size) % 2 ^ 64 := by
      rw [hadded.base, if_pos rfl]
    have hnew : (s'.infos i).region = ⟨((s.infos c).base + (s.infos c).size) % 2 ^ 64, (s.infos i).size⟩ := by
      rw [VmNode.region, hadded.size, hbase]
    have hmem : ∀ j ∈ xs ++ c :: ys, j ≠ i := fun j hj he => hi (he ▸ hj)
    refine ⟨s', xs ++ c :: i :: ys, hs', ⟨?_, ?_, ?_, hregion, hplace.trans (Prod.ext hbase.symm ?_)⟩⟩
    · have hsame := congrArg VmRecords.vmallocListHead hadded.eq
      dsimp only at hsame
      rw [hsame]
      exact (h.behind hi h0 hadded.links).1
    · have heq : xs ++ c :: i :: ys = (xs ++ [c]) ++ i :: ys := by simp
      rw [hsplit, heq]
      exact List.perm_middle.trans (by simp)
    · rw [VmNode.region, hadded.size]
    · have hxs : regionsOf s'.infos xs = regionsOf s.infos xs :=
        List.map_congr_left fun j hj => hregion j (hmem j (by simp [hj]))
      have hys : regionsOf s'.infos ys = regionsOf s.infos ys :=
        List.map_congr_left fun j hj => hregion j (hmem j (by simp [hj]))
      have hlist : regionsOf s'.infos (xs ++ c :: i :: ys) =
          regionsOf s'.infos xs ++ (s'.infos c).region :: (s'.infos i).region :: regionsOf s'.infos ys :=
        List.map_append
      rw [hlist, hxs, hys, hregion c (Ne.symm hic), hnew]

/-- `vmalloc` returns, and the new region is in the list. -/
theorem vmalloc_added (h : VmList s.infos s.vmallocListHead l) (hl : l.length < 2 ^ 64) (hi : i ∉ l) (h0 : i ≠ 0)
    (hsize : 0 < size) (cr3 : ℕ) :
    ∃ base s' l', s.vmalloc cr3 i size = some (base, s') ∧ Added s s' l l' i base size := by
  have hsame : ∀ j, j ≠ i → (s.setInfo i fun n => { n with size := size }).infos j = s.infos j := fun j hj => by
    rw [setInfo_infos, if_neg hj]
  have hmem : ∀ j ∈ l, j ≠ i := fun j hj he => hi (he ▸ hj)
  have hset : VmList (s.setInfo i fun n => { n with size := size }).infos s.vmallocListHead l := by
    refine IsList.congr h (fun j hj => ?_) (fun j hj => ?_)
    · rw [nextVm, nextVm, hsame j (hmem j hj)]
    · rw [prevVm, prevVm, hsame j (hmem j hj)]
  have hregions : regionsOf (s.setInfo i fun n => { n with size := size }).infos l = regionsOf s.infos l :=
    List.map_congr_left fun j hj => by rw [hsame j (hmem j hj)]
  have hsz : ((s.setInfo i fun n => { n with size := size }).infos i).size = size := by
    rw [setInfo_infos, if_pos rfl]
  unfold vmalloc
  rw [if_neg hsize.ne', if_neg h0]
  obtain ⟨s₁, l', hadd, ha⟩ := vmAddToList_added (s := s.setInfo i fun n => { n with size := size }) hset hl hi h0
  rw [hsz] at ha
  rw [hadd]
  exact ⟨_, _, l', rfl, ha.list, ha.perm, ha.region, fun j hj => by rw [ha.other j hj, hsame j hj], hregions ▸ ha.place⟩

end VmRecords

/-! ## Regions of any size -/

/-- Regions in order in the first `n` bytes of the area, none of them empty. -/
structure Ascends (l : List VmInfo) (n : ℕ) : Prop where
  pos : ∀ i ∈ l, 0 < i.size
  low : ∀ i ∈ l, vmallocStart ≤ i.base
  high : ∀ i ∈ l, i.base + i.size ≤ vmallocStart + n
  sorted : l.Pairwise fun i j => i.base + i.size ≤ j.base

namespace Ascends
variable {l xs : List VmInfo} {n size : ℕ} {i j : VmInfo}

theorem sublist (h : Ascends l n) (hs : xs.Sublist l) : Ascends xs n :=
  ⟨fun i hi => h.pos i (hs.subset hi), fun i hi => h.low i (hs.subset hi), fun i hi => h.high i (hs.subset hi),
    h.sorted.sublist hs⟩

/-- The base tells the region. -/
theorem eq_of_base (h : Ascends l n) (hi : i ∈ l) (hj : j ∈ l) (hb : i.base = j.base) : i = j := by
  by_contra hne
  have h1 := h.pos i hi
  have h2 := h.pos j hj
  rcases related_of_pairwise h.sorted hi hj hne with hr | hr <;> omega

/-- Regions behind each other are no more than there are bytes. -/
theorem length_le (h : Ascends l n) : l.length ≤ n := by
  induction l using List.reverseRecOn generalizing n with
  | nil => exact Nat.zero_le n
  | append_singleton l i ih =>
    have hi : i ∈ l ++ [i] := List.mem_append_right _ (List.mem_singleton_self i)
    have hpos := h.pos i hi
    have hlow := h.low i hi
    have hhigh := h.high i hi
    have hsub := h.sublist (List.sublist_append_left l [i])
    have hrest : l.length ≤ n - 1 := ih ⟨hsub.pos, hsub.low, fun j hj => by
      have := (List.pairwise_append.mp h.sorted).2.2 j hj i (List.mem_singleton_self i)
      omega, hsub.sorted⟩
    rw [List.length_append, List.length_singleton]
    omega

/-- A new region goes to the end of another one, or to the start of the area. -/
theorem add (h : Ascends l n) (hpos : 0 < size) (hn : n + size ≤ heapStart - vmallocStart) :
    Ascends (vmAddToList l size).2 (n + size) := by
  have hend : heapStart - vmallocStart + vmallocStart < 2 ^ 64 := by decide
  cases l with
  | nil =>
    refine ⟨?_, ?_, ?_, List.pairwise_singleton ..⟩
    all_goals
      intro i hi
      obtain rfl := List.mem_singleton.mp hi
      dsimp only
      omega
  | cons head rest =>
    obtain ⟨heq, hgap⟩ := findGap_spec (VmFits size) head rest
    simp only [vmAddToList]
    rw [heq] at h
    generalize (findGap (VmFits size) head rest).1 = passed at h ⊢
    generalize (findGap (VmFits size) head rest).2.1 = behind at h hgap ⊢
    generalize (findGap (VmFits size) head rest).2.2 = after at h hgap ⊢
    have hbehind : behind ∈ passed ++ behind :: after := List.mem_append_right _ List.mem_cons_self
    have h1 := h.low behind hbehind
    have h2 := h.high behind hbehind
    have h3 := h.pos behind hbehind
    rw [Nat.mod_eq_of_lt (by omega)]
    obtain ⟨-, hrest, -⟩ := List.pairwise_append.mp h.sorted
    obtain ⟨-, hafter⟩ := List.pairwise_cons.mp hrest
    have hnew : ∀ j ∈ after, behind.base + behind.size + size ≤ j.base := by
      intro j hj
      cases after with
      | nil => cases hj
      | cons next rest =>
        have hn : (behind.base + behind.size + size) % 2 ^ 64 ≤ next.base := hgap next rest rfl
        rw [Nat.mod_eq_of_lt (by omega)] at hn
        rcases List.mem_cons.mp hj with rfl | hj
        · exact hn
        · have := (List.pairwise_cons.mp hafter).1 j hj
          omega
    refine ⟨fun i hi => ?_, fun i hi => ?_, fun i hi => ?_, pairwise_insert h.sorted le_rfl
      (fun i _ hi => by dsimp only; omega) hnew⟩
    all_goals rcases mem_insert.mp hi with rfl | hi
    · exact hpos
    · exact h.pos i hi
    · dsimp only
      omega
    · exact h.low i hi
    · dsimp only
      omega
    · have := h.high i hi
      omega

end Ascends
end PointerOS
