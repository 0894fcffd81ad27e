import PointerOS.VmallocNodes

/-!
# The list of vmalloc regions

Runs of `vmalloc` and `vfree` on the linked records, with regions of any size: as long as the sum of
the sizes stays below the distance to the heap no sum wraps, and the searches end.
-/
namespace PointerOS
open Tables FrameSource LinkedList GapList

/-- Calls from the empty list on. `live` has the records that `kmalloc` gave with their regions, and
`total` is the sum of the sizes asked for. -/
inductive RegionCalls (s₀ : VmRecords) : VmRecords → List (ℕ × VmInfo) → ℕ → Prop
  | init (h0 : s₀.vmallocListHead = 0) : RegionCalls s₀ s₀ [] 0
  | vmalloc {s s' : VmRecords} {live : List (ℕ × VmInfo)} {total base : ℕ} (h : RegionCalls s₀ s live total)
      (cr3 info size : ℕ) (hsize : 0 < size) (hinfo : info ≠ 0) (hnew : info ∉ live.map Prod.fst)
      (hcall : s.vmalloc cr3 info size = some (base, s')) :
      RegionCalls s₀ s' ((info, ⟨base, size⟩) :: live) (total + size)
  | vfree {s s' : VmRecords} {live : List (ℕ × VmInfo)} {total : ℕ} {r : ℕ × VmInfo} (h : RegionCalls s₀ s live total)
      (cr3 : ℕ) (hr : r ∈ live) (hcall : s.vfree cr3 r.2.base = some s') : RegionCalls s₀ s' (live.erase r) total
  | vfreeOther {s s' : VmRecords} {live : List (ℕ × VmInfo)} {total : ℕ} (h : RegionCalls s₀ s live total)
      (cr3 ptr : ℕ) (hptr : ∀ r ∈ live, r.2.base ≠ ptr) (hcall : s.vfree cr3 ptr = some s') :
      RegionCalls s₀ s' live total

/-- The records `l` are linked from `vmalloc_list_head`, one for each live region and in order. -/
structure VmRegions (s : VmRecords) (live : List (ℕ × VmInfo)) (total : ℕ) (l : List ℕ) : Prop where
  list : VmList s.infos s.vmallocListHead l
  live : (l.map fun i => (i, (s.infos i).region)).Perm live
  ascends : Ascends (regionsOf s.infos l) total

namespace VmRegions
variable {s s' : VmRecords} {live : List (ℕ × VmInfo)} {total cr3 info size base ptr : ℕ} {l : List ℕ}

theorem mem_iff (h : VmRegions s live total l) (i : ℕ) : i ∈ l ↔ i ∈ live.map Prod.fst := by
  rw [← (h.live.map Prod.fst).mem_iff]
  simp

theorem region_mem (h : VmRegions s live total l) {r : ℕ × VmInfo} (hr : r ∈ live) :
    r.1 ∈ l ∧ (s.infos r.1).region = r.2 := by
  obtain ⟨i, hi, rfl⟩ := List.mem_map.mp (h.live.mem_iff.mpr hr)
  exact ⟨hi, rfl⟩

theorem length_lt (h : VmRegions s live total l) (htotal : total ≤ heapStart - vmallocStart) : l.length < 2 ^ 64 := by
  have hlen := h.ascends.length_le
  have hend : heapStart - vmallocStart < 2 ^ 64 := by decide
  rw [regionsOf, List.length_map] at hlen
  omega

/-- Of two records one lies behind the other. -/
theorem apart (h : VmRegions s live total l) {i j : ℕ} (hi : i ∈ l) (hj : j ∈ l) (hij : i ≠ j) :
    (s.infos i).base + (s.infos i).size ≤ (s.infos j).base ∨
      (s.infos j).base + (s.infos j).size ≤ (s.infos i).base :=
  related_of_pairwise (List.pairwise_map.mp h.ascends.sorted) hi hj hij

theorem size_pos (h : VmRegions s live total l) {i : ℕ} (hi : i ∈ l) : 0 < (s.infos i).size :=
  h.ascends.pos _ (List.mem_map_of_mem (f := fun i => (s.infos i).region) hi)

/-- The base tells the record. -/
theorem base_inj (h : VmRegions s live total l) {i j : ℕ} (hi : i ∈ l) (hj : j ∈ l)
    (hb : (s.infos i).base = (s.infos j).base) : i = j := by
  by_contra hne
  have h1 := h.size_pos hi
  have h2 := h.size_pos hj
  rcases h.apart hi hj hne with hr | hr <;> omega

/-- `vmalloc` returns, and links the new region in. -/
theorem vmalloc (h : VmRegions s live total l) (cr3 : ℕ) (hsize : 0 < size) (hinfo : info ≠ 0)
    (hnew : info ∉ live.map Prod.fst) (hsum : total + size ≤ heapStart - vmallocStart) :
    ∃ base s' l', s.vmalloc cr3 info size = some (base, s') ∧
      VmRegions s' ((info, ⟨base, size⟩) :: live) (total + size) l' := by
  have hi : info ∉ l := fun hm => hnew ((h.mem_iff info).mp hm)
  obtain ⟨base, s', l', hcall, ha⟩ := VmRecords.vmalloc_added h.list (h.length_lt (by omega)) hi hinfo hsize cr3
  have hasc := h.ascends.add hsize hsum
  rw [ha.place] at hasc
  refine ⟨base, s', l', hcall, ha.list, (ha.perm.map _).trans ?_, hasc⟩
  rw [List.map_cons, ha.region, List.map_congr_left fun j hj => by rw [ha.other j fun he => hi (he ▸ hj)]]
  exact h.live.cons _

/-- `vfree` of a live region returns, and unlinks it. -/
theorem vfree (h : VmRegions s live total l) (cr3 : ℕ) (htotal : total ≤ heapStart - vmallocStart) {r : ℕ × VmInfo}
    (hr : r ∈ live) : ∃ s' l', s.vfree cr3 r.2.base = some s' ∧ VmRegions s' (live.erase r) total l' := by
  obtain ⟨hrl, hrs⟩ := h.region_mem hr
  unfold VmRecords.vfree
  obtain ⟨c, hc⟩ := findNode_isSome (fun i => (s.infos i).base = r.2.base) h.list.seg h.list.null_notMem
    (h.length_lt htotal)
  have hspec := findNode_spec _ h.list.seg h.list.null_notMem hc
  rw [← VmRecords.vmFind_eq] at hc
  rw [hc]
  rcases hspec with ⟨-, hnone⟩ | ⟨xs, ys, rfl, hbase, -⟩
  · exact absurd (congrArg VmInfo.base hrs) (hnone r.1 hrl)
  · have hc0 : c ≠ 0 := fun he => h.list.null_notMem (by simp [he])
    have hcr : c = r.1 := h.base_inj (by simp) hrl (hbase.trans (congrArg VmInfo.base hrs).symm)
    have hpair : (c, (s.infos c).region) = r := Prod.ext hcr (hcr ▸ hrs)
    obtain ⟨hprev, hnext⟩ := h.list.links
    have hmem : ∀ j ∈ xs ++ ys, j ≠ c := by
      have hnodup := h.list.nodup
      rw [List.nodup_middle] at hnodup
      exact fun j hj he => (List.nodup_cons.mp hnodup).1 (he ▸ hj)
    have hn : (s.infos c).next ≠ c := by
      rw [show (s.infos c).next = ys.headD 0 from hnext]
      cases ys with
      | nil => exact Ne.symm hc0
      | cons y ys => exact hmem y (by simp)
    have hp : (s.infos c).prev ≠ c := by
      rw [show (s.infos c).prev = xs.getLastD 0 from hprev]
      rcases List.mem_cons.mp (List.getLastD_mem_cons (l := xs) (a := 0)) with hl | hl
      · rw [hl]
        exact Ne.symm hc0
      · exact hmem _ (List.mem_append_left _ hl)
    refine ⟨_, xs ++ ys, congrArg some (if_neg hc0), ?_⟩
    dsimp only
    generalize intLoop (s.infos c).size _ s.vm = vm
    have hrem := VmRecords.vmRemoveFromList_removed (s := { s with vm := vm }) hc0 hn hp
    generalize VmRecords.vmRemoveFromList { s with vm := vm } c = s' at hrem ⊢
    have hregion : ∀ j, (s'.infos j).region = (s.infos j).region := hrem.region
    have hsub : (regionsOf s.infos (xs ++ ys)).Sublist (regionsOf s.infos (xs ++ c :: ys)) :=
      ((List.sublist_cons_self c ys).append_left xs).map _
    refine ⟨(h.list.unlink hrem.links).1, ?_, ?_⟩
    · rw [List.map_congr_left fun j _ => by rw [hregion j], ← hpair]
      exact perm_erase_of_map h.live
    · rw [regionsOf, List.map_congr_left fun j _ => by rw [hregion j]]
      exact h.ascends.sublist hsub

/-- `vfree` of any other pointer changes nothing. -/
theorem vfreeOther (h : VmRegions s live total l) (cr3 : ℕ) (htotal : total ≤ heapStart - vmallocStart)
    (hptr : ∀ r ∈ live, r.2.base ≠ ptr) : s.vfree cr3 ptr = some s := by
  unfold VmRecords.vfree
  obtain ⟨c, hc⟩ := findNode_isSome (fun i => (s.infos i).base = ptr) h.list.seg h.list.null_notMem
    (h.length_lt htotal)
  have hspec := findNode_spec _ h.list.seg h.list.null_notMem hc
  rw [← VmRecords.vmFind_eq] at hc
  rw [hc]
  rcases hspec with ⟨rfl, -⟩ | ⟨xs, ys, rfl, hbase, -⟩
  · rfl
  · exact absurd hbase (hptr _ (h.live.mem_iff.mp (List.mem_map_of_mem (by simp))))

end VmRegions

/-- The list over a whole run. -/
theorem RegionCalls.regions {s₀ s : VmRecords} {live : List (ℕ × VmInfo)} {total : ℕ}
    (h : RegionCalls s₀ s live total) (hsum : total ≤ heapStart - vmallocStart) :
    ∃ l, VmRegions s live total l := by
  induction h with
  | init h0 =>
    refine ⟨[], ⟨?_, .nil, nofun, nofun, nofun, .nil⟩⟩
    rw [h0]
    exact IsList.nil
  | vmalloc _ cr3 info size hsize hinfo hnew hcall ih =>
    obtain ⟨l, hl⟩ := ih (by omega)
    obtain ⟨base, s', l', hret, hl'⟩ := hl.vmalloc cr3 hsize hinfo hnew hsum
    obtain ⟨rfl, rfl⟩ := Prod.mk.inj (Option.some.inj (hret.symm.trans hcall))
    exact ⟨l', hl'⟩
  | vfree _ cr3 hr hcall ih =>
    obtain ⟨l, hl⟩ := ih hsum
    obtain ⟨s', l', hret, hl'⟩ := hl.vfree cr3 hsum hr
    obtain rfl := Option.some.inj (hret.symm.trans hcall)
    exact ⟨l', hl'⟩
  | vfreeOther _ cr3 ptr hptr hcall ih =>
    obtain ⟨l, hl⟩ := ih hsum
    obtain rfl := Option.some.inj ((hl.vfreeOther cr3 hsum hptr).symm.trans hcall)
    exact ⟨l, hl⟩

/-- In every state of a run the records linked from `vmalloc_list_head` are those of the live regions, from
the lowest region up and without overlap, the calls return, and `vfree` of another pointer changes
nothing. -/
theorem vmalloc_list_ordered {s₀ s : VmRecords} {live : List (ℕ × VmInfo)} {total : ℕ}
    (h : RegionCalls s₀ s live total) (hsum : total < heapStart - vmallocStart) :
    (∃ l, VmList s.infos s.vmallocListHead l ∧ (l.map fun i => (i, (s.infos i).region)).Perm live ∧
      (regionsOf s.infos l).Pairwise (fun i j => i.base < j.base ∧ i.base + i.size ≤ j.base) ∧
      ∀ i ∈ (regionsOf s.infos l).head?, vmallocStart ≤ i.base) ∧
    (∀ cr3 info size, 0 < size → info ≠ 0 → info ∉ live.map Prod.fst → total + size < heapStart - vmallocStart →
      ∃ base s', s.vmalloc cr3 info size = some (base, s')) ∧
    (∀ cr3, ∀ r ∈ live, ∃ s', s.vfree cr3 r.2.base = some s') ∧
    ∀ cr3 ptr, (∀ r ∈ live, r.2.base ≠ ptr) → s.vfree cr3 ptr = some s := by
  obtain ⟨l, hl⟩ := h.regions hsum.le
  have ha := hl.ascends
  refine ⟨⟨l, hl.list, hl.live, ?_, fun i hi => ha.low i (List.mem_of_mem_head? hi)⟩, ?_, ?_,
    fun cr3 ptr hptr => hl.vfreeOther cr3 hsum.le hptr⟩
  · refine ha.sorted.imp_of_mem fun {i j} hi _ hij => ?_
    have hpos := ha.pos i hi
    exact ⟨by omega, hij⟩
  · intro cr3 info size hsize hinfo hnew hroom
    obtain ⟨base, s', -, hret, -⟩ := hl.vmalloc cr3 hsize hinfo hnew hroom.le
    exact ⟨base, s', hret⟩
  · intro cr3 r hr
    obtain ⟨s', -, hret, -⟩ := hl.vfree cr3 hsum.le hr
    exact ⟨s', hret⟩

theorem vmalloc_list_ordered_two : ∃ (s : VmRecords) (base : ℕ) (l : List ℕ), VmList s.infos s.vmallocListHead l ∧
    (l.map fun i => (i, (s.infos i).region)).Perm [(0x200, ⟨base, 0x2000⟩), (0x100, ⟨vmallocStart, 0x1001⟩)] := by
  have h₁ : RegionCalls ⟨fun _ => ⟨0, 0, 0, 0⟩, 0, emptySpace⟩ _ [(0x100, ⟨vmallocStart, 0x1001⟩)] (0 + 0x1001) :=
    .vmalloc (.init rfl) 0x1000 0x100 0x1001 (by decide) (by decide) (by decide) rfl
  obtain ⟨-, hreturns, -⟩ := vmalloc_list_ordered h₁ (by decide)
  obtain ⟨base, s, hcall⟩ := hreturns 0x1000 0x200 0x2000 (by decide) (by decide) (by decide) (by decide)
  have h₂ := h₁.vmalloc 0x1000 0x200 0x2000 (by decide) (by decide) (by decide) hcall
  obtain ⟨⟨l, hl, hlive, -⟩, -⟩ := vmalloc_list_ordered h₂ (by decide)
  exact ⟨s, base, l, hl, hlive⟩

end PointerOS
