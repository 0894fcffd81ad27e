import PointerOS.DirectMapLaw
import PointerOS.FrameSource
import PointerOS.MapUnmap
import PointerOS.LfbWindow
import PointerOS.PageRuns
import PointerOS.HeapRuns

/-!
# The pages of the kernel heap

`init_kheap` takes a run of frames and maps it page by page at `heapStart`. The tables on the way take
ten more frames, and then every byte that `kmalloc` hands out has a byte of the run behind it.
-/
namespace PointerOS
open Tables

namespace Vm

/-- A round of the loop of `init_kheap`. -/
def kheapPage (cr3 paddr : ℕ) (vm : Vm Pmm) (i : ℕ) : Vm Pmm :=
  vm.vmmMapPage Pmm.pmmAllocPage cr3 ((paddr + i * pageSize4KB) % 2 ^ 64) ((heapStart + i * pageSize4KB) % 2 ^ 64)
    pageSize4KB (ptePresent ||| pteWritable)

/-- `init_kheap` up to the call of `init_buddy`. -/
def mapKheap (vm : Vm Pmm) (cr3 : ℕ) : Vm Pmm :=
  let (paddr, pmm) := vm.pmm.pmmAllocPages (heapSize / pageSize4KB : ℕ)
  (List.range (heapSize / pageSize4KB)).foldl (kheapPage cr3 paddr) { vm with pmm := pmm }

end Vm

/-! ## Free frames -/

section Free
variable {s s' : Pmm} {T : Tables} {roots : Set ℕ} {N k n : ℕ}

/-- No free frame is a table. -/
def FreeFresh (T : Tables) (r : ℕ) (s : Pmm) : Prop := ∀ b, s.used b = false → T.Fresh {r} (b * 4096)

/-- A bit that is set takes one free frame at most. -/
theorem Pmm.freeBelow_setBit (s : Pmm) (k f : ℕ) :
    s.freeBelow f ≤ Pmm.freeBelow { s with bitmap := Bitmap.setBit s.bitmap k } f + if k < f then 1 else 0 := by
  have hbit : ∀ b, Pmm.used { s with bitmap := Bitmap.setBit s.bitmap k } b = (decide (b = k) || s.used b) :=
    Pmm.used_setBit s k
  induction f with
  | zero => exact Nat.zero_le _
  | succ f ih =>
    unfold freeBelow at ih ⊢
    rw [Nat.count_succ, Nat.count_succ, hbit f]
    by_cases hfk : f = k
    · subst hfk
      rw [if_neg (by omega : ¬f < f)] at ih
      rw [if_pos f.lt_succ_self]
      split_ifs <;> omega
    · rw [decide_eq_false hfk, Bool.false_or]
      split_ifs at ih ⊢ <;> omega

theorem Pmm.freeBelow_setRange (s : Pmm) (i n f : ℕ) :
    s.freeBelow f ≤ Pmm.freeBelow { s with bitmap := Pmm.setRange s.bitmap i n } f + n := by
  induction n with
  | zero => exact le_rfl
  | succ n ih =>
    have hstep : Pmm.freeBelow { s with bitmap := Pmm.setRange s.bitmap i n } f ≤
        Pmm.freeBelow { s with bitmap := Pmm.setRange s.bitmap i (n + 1) } f + if i + n < f then 1 else 0 :=
      Pmm.freeBelow_setBit { s with bitmap := Pmm.setRange s.bitmap i n } (i + n) f
    split_ifs at hstep <;> omega

theorem Pmm.pmmAllocPage_free (s : Pmm) : s.pmmAllocPage.2.totalPages = s.totalPages ∧
    (∀ b, s.used b = true → s.pmmAllocPage.2.used b = true) ∧
      ∀ f, s.freeBelow f ≤ s.pmmAllocPage.2.freeBelow f + 1 := by
  rcases s.pmmAllocPage_spec with ⟨hr, -⟩ | ⟨k, -, -, -, hr⟩
  · rw [hr]
    exact ⟨rfl, fun _ h => h, fun _ => Nat.le_succ _⟩
  · rw [hr]
    refine ⟨rfl, fun b hb => (Pmm.used_setBit s k b).trans (by rw [hb, Bool.or_true]), fun f => ?_⟩
    have := s.freeBelow_setBit k f
    dsimp only
    split_ifs at this <;> omega

theorem stateAfter_free (s : Pmm) (n : ℕ) : (stateAfter Pmm.pmmAllocPage s n).totalPages = s.totalPages ∧
    (∀ b, s.used b = true → (stateAfter Pmm.pmmAllocPage s n).used b = true) ∧
      ∀ f, s.freeBelow f ≤ (stateAfter Pmm.pmmAllocPage s n).freeBelow f + n := by
  induction n with
  | zero => exact ⟨rfl, fun _ h => h, fun _ => le_rfl⟩
  | succ n ih =>
    obtain ⟨ht, hu, hf⟩ := ih
    obtain ⟨ht', hu', hf'⟩ := (stateAfter Pmm.pmmAllocPage s n).pmmAllocPage_free
    refine ⟨ht'.trans ht, fun b hb => hu' b (hu b hb), fun f => ?_⟩
    have h1 := hf f
    have h2 : _ ≤ (stateAfter Pmm.pmmAllocPage s (n + 1)).freeBelow f + 1 := hf' f
    omega

/-- The next calls give different frames, and no tables. -/
theorem framesFresh_of_free {r : ℕ} (h : FreeFresh T r s) (htotal : s.totalPages ≤ 2 ^ 40) (h0 : s.used 0 = true)
    (hN : N ≤ s.freeBelow s.totalPages) : FramesFresh Pmm.pmmAllocPage T {r} s N := by
  obtain ⟨-, -, hall⟩ := stateAfter_order htotal (frames_ne_zero htotal h0 hN)
  constructor
  · rw [framesTaken_eq]
    refine List.Nodup.map_on (fun m hm n hn heq => ?_) List.nodup_range
    obtain ⟨k, -, hk, -, rfl⟩ := hall m (List.mem_range.mp hm)
    obtain ⟨l, -, hl, -, rfl⟩ := hall n (List.mem_range.mp hn)
    obtain rfl : k = l := by omega
    rfl
  · intro g hg
    rw [framesTaken_eq] at hg
    obtain ⟨m, hm, rfl⟩ := List.mem_map.mp hg
    obtain ⟨k, hk, heq, hfree, -⟩ := hall m (List.mem_range.mp hm)
    rw [heq]
    exact ⟨FrameSource.isFrame_of_lt hk htotal, h k hfree⟩

/-- Frames that were taken are in use. -/
theorem takes_used {l : List ℕ} (h : Takes Pmm.pmmAllocPage s l s') (htotal : s.totalPages ≤ 2 ^ 40)
    (h0 : s.used 0 = true) :
    (∀ b, s.used b = true → s'.used b = true) ∧ ∀ b, b * 4096 ∈ l → s'.used b = true := by
  induction h with
  | nil => exact ⟨fun _ h => h, fun b hb => absurd hb List.not_mem_nil⟩
  | @cons s s' l _ ih =>
    obtain ⟨ht, hu, -⟩ := s.pmmAllocPage_free
    obtain ⟨hkeep, hused⟩ := ih (ht ▸ htotal) (hu 0 h0)
    refine ⟨fun b hb => hkeep b (hu b hb), fun b hb => ?_⟩
    rcases List.mem_cons.mp hb with hb | hb
    · refine hkeep b ?_
      rcases s.pmmAllocPage_spec with ⟨hr, -⟩ | ⟨k, hk, -, -, hr⟩
      · rw [hr] at hb ⊢
        obtain rfl : b = 0 := by
          dsimp only at hb
          omega
        exact h0
      · rw [hr] at hb ⊢
        obtain rfl : b = k := by
          dsimp only at hb
          omega
        exact (Pmm.used_setBit s b b).trans (by rw [decide_eq_true rfl, Bool.true_or])
    · exact hused b hb

end Free

/-! ## The tables on the way -/

section Tables
variable {σ : Type*} {alloc : σ → ℕ × σ} {vm : Vm σ} {T : Tables} {r v w flags : ℕ}

theorem tablesMissing_le_self (T : Tables) (v m n t : ℕ) : tablesMissing T v m n t ≤ m := by
  induction m generalizing n t with
  | zero => exact le_rfl
  | succ m ih =>
    rw [tablesMissing]
    split_ifs
    · exact (ih _ _).trans (Nat.le_succ m)
    · exact le_rfl

/-- An address that is not mapped shares the tables of the mapped ones with its first indices. -/
theorem PageTree.tablesMissing_le (h : PageTree T r) {c n t : ℕ} {p : List (Fin 512)}
    (ho : T.Owned {r} Set.univ r p t) (hlen : p.length + n = 3) (hw : T.walkFrom w n t ≠ none)
    (hv : T.walkFrom v n t = none) (hc : c ≤ n) (hi : ∀ k ≤ n, n < k + c → index w k = index v k) :
    tablesMissing T v n n t ≤ n - c := by
  induction c generalizing n t p with
  | zero => exact tablesMissing_le_self ..
  | succ c ih =>
    obtain ⟨n, rfl⟩ : ∃ m, n = m + 1 := ⟨n - 1, by omega⟩
    have hidx := hi (n + 1) le_rfl (by omega)
    rw [walkFrom, hidx] at hw
    rw [walkFrom] at hv
    cases hp : present (T t (index v (n + 1))) with
    | false =>
      rw [hp] at hw
      exact absurd rfl hw
    | true =>
      rw [if_pos hp] at hw hv
      cases hs : pageSize (T t (index v (n + 1))) with
      | true =>
        rw [if_pos hs] at hw hv
        split_ifs at hw hv
        exact absurd rfl hw
      | false =>
        have hwidth := (h.tables.entries ho _ (fun _ => Set.mem_univ _) hp).2 (by omega) hs
        have hchild : T.child t (index v (n + 1)) = some (entryFrame (T t (index v (n + 1)))) :=
          child_eq_some.mpr ⟨hp, hs, rfl⟩
        rw [hs, if_neg (by decide)] at hw hv
        rw [tablesMissing, if_pos hp, Nat.add_sub_cancel, ← entryFrame_eq_maskPage hwidth]
        have hnext := ih (ho.concat (fun _ => Set.mem_univ _) (by omega) hchild)
          (by rw [List.length_append, List.length_singleton]; omega) (fun hnone => hw (by rw [hnone]; rfl))
          (Option.map_eq_none_iff.mp hv) (by omega) fun k hk hkc => hi k (by omega) (by omega)
        omega

/-- The tables of a call take no more frames than are missing. -/
theorem tablesDown_takes (hu : userBit flags = false) (m n t : ℕ) (vm : Vm σ) :
    ∃ c ≤ tablesMissing vm.tables v m n t, (tablesDown alloc v flags m n t vm).2.pmm = stateAfter alloc vm.pmm c := by
  have hall : ∀ m n t (vm : Vm σ), ∃ c ≤ m,
      (tablesDown alloc v flags m n t vm).2.pmm = stateAfter alloc vm.pmm c := by
    intro m
    induction m with
    | zero => exact fun _ _ _ => ⟨0, le_rfl, rfl⟩
    | succ m ih =>
      intro n t vm
      obtain ⟨c, hc, heq⟩ := ih (n - 1) (Vm.nextTable alloc vm t (index v n) flags).1
        (Vm.nextTable alloc vm t (index v n) flags).2
      cases hp : present (vm.tables t (index v n)) with
      | true =>
        refine ⟨c, hc.trans (Nat.le_succ m), ?_⟩
        rw [tablesDown, heq, nextTable_present hp, hu]
        rfl
      | false =>
        obtain ⟨a, -, -, -, -, hnext⟩ := nextTable_absent alloc flags hp
        refine ⟨c + 1, Nat.succ_le_succ hc, ?_⟩
        rw [tablesDown, heq, hnext, stateAfter_next]
  induction m generalizing n t vm with
  | zero => exact ⟨0, le_rfl, rfl⟩
  | succ m ih =>
    cases hp : present (vm.tables t (index v n)) with
    | true =>
      obtain ⟨c, hc, heq⟩ := ih (n - 1) (maskPage (vm.tables t (index v n))) vm
      refine ⟨c, by rw [tablesMissing, if_pos hp]; exact hc, ?_⟩
      rw [tablesDown, nextTable_present hp, hu]
      exact heq
    | false =>
      rw [tablesMissing, hp]
      exact hall (m + 1) n t vm

end Tables

/-! ## The loop -/

section Loop
variable {vm₀ vm : Vm Pmm} {cr3 f j : ℕ}

/-- How many frames the tables can still take when `j` pages are mapped. -/
def kheapNeed (j : ℕ) : ℕ := if j = 0 then 10 else 8 - (j + 511) / 512

/-- The first `j` pages of the heap are mapped to the frames from `f` on. -/
structure KheapPages (vm₀ : Vm Pmm) (cr3 f j : ℕ) (vm : Vm Pmm) : Prop where
  tree : PageTree vm.tables cr3
  fresh : FreeFresh vm.tables cr3 vm.pmm
  total : vm.pmm.totalPages = vm₀.pmm.totalPages
  keep : ∀ b, vm₀.pmm.used b = true → vm.pmm.used b = true
  need : vm₀.pmm.freeBelow vm₀.pmm.totalPages + kheapNeed j ≤ vm.pmm.freeBelow vm₀.pmm.totalPages + 10
  mapped : ∀ off < j * 4096, vm.tables.walk cr3 (heapStart + off) = some ⟨f * 4096 + off, true, false⟩
  rest : ∀ off < heapSize, j * 4096 ≤ off → vm.tables.walk cr3 (heapStart + off) = none
  other : ∀ w, (w % 2 ^ 48 < heapStart % 2 ^ 48 ∨ heapStart % 2 ^ 48 + heapSize ≤ w % 2 ^ 48) →
    vm.tables.walk cr3 w = vm₀.tables.walk cr3 w

theorem kheap_samePage {w : ℕ} (hj : j < 4096) :
    SamePage pageSize4KB (heapStart + j * 4096) w ↔
      heapStart % 2 ^ 48 + j * 4096 ≤ w % 2 ^ 48 ∧ w % 2 ^ 48 < heapStart % 2 ^ 48 + (j + 1) * 4096 := by
  have hstart : heapStart % 2 ^ 48 = 0xE00000000000 := rfl
  unfold SamePage pageSize4KB
  generalize heapStart = start at hstart ⊢
  omega

/-- The pages of the heap share their tables, but for the last one. -/
theorem kheap_index {a b : ℕ} (ha : a < heapSize) (hb : b < heapSize) :
    index (heapStart + a) 3 = index (heapStart + b) 3 ∧ index (heapStart + a) 2 = index (heapStart + b) 2 ∧
      (a / 2 ^ 21 = b / 2 ^ 21 → index (heapStart + a) 1 = index (heapStart + b) 1) := by
  unfold heapSize at ha hb
  unfold index heapStart
  simp only [Fin.mk.injEq]
  omega

/-- A page needs no more tables than are counted for it. -/
theorem KheapPages.missing (h : KheapPages vm₀ cr3 f j vm) (hj : j < 4096) :
    tablesMissing vm.tables (heapStart + j * 4096) 3 3 cr3 + kheapNeed (j + 1) ≤ kheapNeed j := by
  have hsize : heapSize = 4096 * 4096 := rfl
  have hroot : vm.tables.Owned {cr3} Set.univ cr3 [] cr3 := owned_root rfl
  have hnone := h.rest (j * 4096) (by omega) le_rfl
  unfold kheapNeed
  cases j with
  | zero =>
    have := tablesMissing_le_self vm.tables (heapStart + 0 * 4096) 3 3 cr3
    rw [if_pos rfl, if_neg (by omega)]
    omega
  | succ j =>
    have hsome : vm.tables.walk cr3 (heapStart + j * 4096) ≠ none := by
      rw [h.mapped (j * 4096) (by omega)]
      exact Option.some_ne_none _
    obtain ⟨h3, h2, h1⟩ := kheap_index (a := j * 4096) (b := (j + 1) * 4096) (by omega) (by omega)
    rw [if_neg (by omega), if_neg (by omega)]
    by_cases hpt : (j + 1) % 512 = 0
    · have := h.tree.tablesMissing_le hroot rfl hsome hnone (c := 2) (by omega) fun k hk hlt => by
        obtain rfl | rfl : k = 3 ∨ k = 2 := by omega
        · exact h3
        · exact h2
      omega
    · have := h.tree.tablesMissing_le hroot rfl hsome hnone (c := 3) (by omega) fun k hk hlt => by
        obtain rfl | rfl | rfl : k = 3 ∨ k = 2 ∨ k = 1 := by omega
        · exact h3
        · exact h2
        · exact h1 (by omega)
      omega

/-- A round maps the next page. -/
theorem KheapPages.round (h : KheapPages vm₀ cr3 f j vm) (hj : j < 4096) (hf : f + 4096 ≤ 2 ^ 40)
    (htotal : vm₀.pmm.totalPages ≤ 2 ^ 40) (h0 : vm₀.pmm.used 0 = true)
    (hten : 10 ≤ vm₀.pmm.freeBelow vm₀.pmm.totalPages) :
    KheapPages vm₀ cr3 f (j + 1) (vm.kheapPage cr3 (f * 4096) j) := by
  have hsize : heapSize = 4096 * 4096 := rfl
  have hend : heapStart + heapSize < 2 ^ 64 := by decide
  have hstart : heapStart % 2 ^ 48 + heapSize < 2 ^ 48 := by decide
  have htotal' : vm.pmm.totalPages ≤ 2 ^ 40 := h.total ▸ htotal
  have h0' := h.keep 0 h0
  obtain ⟨v, hv⟩ : ∃ v, v = heapStart + j * 4096 := ⟨_, rfl⟩
  obtain ⟨flags, hflags⟩ : ∃ flags, flags = ptePresent ||| pteWritable := ⟨_, rfl⟩
  have hcall : vm.kheapPage cr3 (f * 4096) j =
      vm.vmmMapPage Pmm.pmmAllocPage cr3 (f * 4096 + j * 4096) v pageSize4KB flags := by
    have hp : (f * 4096 + j * 4096) % 2 ^ 64 = f * 4096 + j * 4096 := Nat.mod_eq_of_lt (by omega)
    have ha : (heapStart + j * 4096) % 2 ^ 64 = v := by
      rw [hv]
      exact Nat.mod_eq_of_lt (by omega)
    change vm.vmmMapPage _ cr3 ((f * 4096 + j * 4096) % 2 ^ 64) ((heapStart + j * 4096) % 2 ^ 64) _ _ = _
    rw [hp, ha, hflags]
  have hu : userBit flags = false := by rw [hflags]; decide
  have hmissing := h.missing hj
  rw [← hv] at hmissing
  have hneed := h.need
  have hsupply := framesFresh_of_free (N := tablesMissing vm.tables v 3 3 cr3) h.fresh htotal' h0'
    (by rw [h.total]; omega)
  have hnone : vm.tables.walk cr3 v = none := by
    rw [hv]
    exact h.rest (j * 4096) (by omega) le_rfl
  have hhuge := h.tree.not_inHugePage hnone
  obtain ⟨hmaps, -, htree⟩ := h.tree.map flags (show (f * 4096 + j * 4096) % 4096 = 0 by omega)
    (fun _ : pageSize4KB = pageSize4KB => hhuge) hsupply
  have hm := hmaps rfl
  obtain ⟨made, T', pt, hext, hown, htables, htakes, -⟩ := vmmMapPage_4KB vm (f * 4096 + j * 4096)
    (framesFresh_supply Pmm.pmmAllocPage {cr3} {cr3} Set.univ cr3 flags v) h.tree.tables rfl (Set.mem_univ _)
    (noHuge_of_not_inHugePage h.tree.tables rfl (Set.mem_univ _) hhuge) hsupply
  obtain ⟨c, hc, hpmm⟩ : ∃ c ≤ tablesMissing vm.tables v 3 3 cr3,
      (vm.vmmMapPage Pmm.pmmAllocPage cr3 (f * 4096 + j * 4096) v pageSize4KB flags).pmm =
        stateAfter Pmm.pmmAllocPage vm.pmm c := tablesDown_takes hu 3 3 cr3 vm
  obtain ⟨hkeep, hused⟩ := takes_used htakes htotal' h0'
  obtain ⟨ht, -, hfree⟩ := stateAfter_free vm.pmm c
  rw [← hpmm] at ht hfree
  have hpage : ∀ w, heapStart % 2 ^ 48 + j * 4096 ≤ w % 2 ^ 48 ∧ w % 2 ^ 48 < heapStart % 2 ^ 48 + (j + 1) * 4096 ↔
      (indices w 3).take 4 = (indices v 3).take 4 := fun w => by
    rw [← kheap_samePage hj, ← hv]
    exact samePage_iff_take.1
  have hoff : ∀ off < heapSize, (heapStart + off) % 2 ^ 48 = heapStart % 2 ^ 48 + off := fun off ho => by omega
  rw [hcall]
  refine ⟨htree, fun b hb => ?_, ht.trans h.total, fun b hb => hkeep b (h.keep b hb), ?_, fun off ho => ?_,
    fun off ho hle => ?_, fun w hw => ?_⟩
  · have hbefore : vm.pmm.used b = false := by
      by_contra hn
      rw [hkeep b (by simpa using hn)] at hb
      exact nomatch hb
    have hout : b * 4096 ∉ made := fun hm => by
      rw [hused b hm] at hb
      exact nomatch hb
    have hfresh := hext.fresh (h.fresh b hbefore) hout
    rw [htables]
    intro r' hr' q hq hreach
    exact hfresh r' hr' q hq ((hext.inv.reach_last hown rfl hr' hq).symm.trans hreach)
  · have := hfree vm₀.pmm.totalPages
    omega
  · by_cases hlast : j * 4096 ≤ off
    · have hw := (hpage (heapStart + off)).mp (by rw [hoff off (by omega)]; omega)
      have hlow : (heapStart + off) % 2 ^ 12 = off % 4096 := by
        have : heapStart % 2 ^ 12 = 0 := rfl
        omega
      rw [hm.page _ hw, leaf_or (n := 0) (by decide) (by omega) (by omega) (by rw [hflags]; decide)]
      have hwritable : writable (ptePresent ||| flags) = true := by rw [hflags]; decide
      have huser : userBit (ptePresent ||| flags) = false := by rw [hflags]; decide
      rw [hwritable, huser, Nat.mul_zero, Nat.add_zero, hlow, Option.some_inj, Translation.mk.injEq]
      exact ⟨by omega, rfl, rfl⟩
    · rw [hm.other _ fun hw => ?_]
      · exact h.mapped off (not_le.mp hlast)
      · have := (hpage (heapStart + off)).mpr hw
        rw [hoff off (by omega)] at this
        omega
  · rw [hm.other _ fun hw => ?_]
    · exact h.rest off ho ((Nat.mul_le_mul_right 4096 j.le_succ).trans hle)
    · have := (hpage (heapStart + off)).mpr hw
      rw [hoff off ho] at this
      omega
  · rw [hm.other _ fun hw' => ?_]
    · exact h.other w hw
    · have := (hpage w).mpr hw'
      omega

/-- The rounds in order. -/
theorem KheapPages.rounds (h : KheapPages vm₀ cr3 f 0 vm) (hf : f + 4096 ≤ 2 ^ 40)
    (htotal : vm₀.pmm.totalPages ≤ 2 ^ 40) (h0 : vm₀.pmm.used 0 = true)
    (hten : 10 ≤ vm₀.pmm.freeBelow vm₀.pmm.totalPages) {n : ℕ} (hn : n ≤ 4096) :
    KheapPages vm₀ cr3 f n ((List.range n).foldl (Vm.kheapPage cr3 (f * 4096)) vm) := by
  induction n with
  | zero => exact h
  | succ n ih =>
    rw [List.range_succ, List.foldl_append]
    exact (ih (by omega)).round (by omega) hf htotal h0 hten

/-- With a run of frames below 2 GB and ten frames more, the heap gets the lowest run, the tables take ten frames
at most, and in every run of `kmalloc` and `kfree` each byte that is handed out is a byte of the run, writable and
not for users. -/
theorem kheap_backed (h : PageTree vm.tables cr3) (hfresh : FreeFresh vm.tables cr3 vm.pmm)
    (h0 : vm.pmm.used 0 = true) (htotal : vm.pmm.totalPages ≤ 2 ^ 40)
    (hnone : ∀ off < heapSize, vm.tables.walk cr3 (heapStart + off) = none)
    (hrun : ∃ f, f + 4096 ≤ vm.pmm.totalPages ∧ f < 2 ^ 19 ∧ vm.pmm.Clear f 4096)
    (hmore : 4096 + 10 ≤ vm.pmm.freeBelow vm.pmm.totalPages) :
    ∃ f, vm.pmm.FirstRun f 4096 ∧ f + 4096 ≤ vm.pmm.totalPages ∧
      (∀ i < 4096, vm.pmm.used (f + i) = false ∧ (vm.mapKheap cr3).pmm.used (f + i) = true) ∧
      vm.pmm.freeBelow vm.pmm.totalPages ≤ (vm.mapKheap cr3).pmm.freeBelow vm.pmm.totalPages + 4096 + 10 ∧
      (∀ (heap : Heap) live, HeapRun heap live → ∀ e ∈ live, ∀ i < e.2,
        (vm.mapKheap cr3).tables.walk cr3 (e.1 + i) = some ⟨f * 4096 + (e.1 + i - heapStart), true, false⟩) ∧
      ∀ w, (w % 2 ^ 48 < heapStart % 2 ^ 48 ∨ heapStart % 2 ^ 48 + heapSize ≤ w % 2 ^ 48) →
        (vm.mapKheap cr3).tables.walk cr3 w = vm.tables.walk cr3 w := by
  have hsize : heapSize = 4096 * 4096 := rfl
  have hcount : ((heapSize / pageSize4KB : ℕ) : ℤ) = 4096 := rfl
  obtain ⟨g, hgend, hg19, hgclear⟩ := hrun
  have hle : 4096 ≤ vm.pmm.totalPages := by omega
  have hfirst : ∃ f ≤ g, vm.pmm.FirstRun f 4096 := by
    classical
    obtain ⟨f, hf, hmin⟩ := Nat.findX (p := fun f => vm.pmm.Clear f 4096) ⟨g, hgclear⟩
    have hfg : f ≤ g := not_lt.mp fun hlt => hmin g hlt hgclear
    exact ⟨f, hfg, ⟨by omega, by omega⟩, hf, hmin⟩
  obtain ⟨f, hfg, hf⟩ := hfirst
  have hconv : intToU64 (4096 : ℤ) = 4096 := rfl
  have halloc : vm.pmm.pmmAllocPages 4096 =
      (f * 4096, { vm.pmm with bitmap := Pmm.setRange vm.pmm.bitmap f 4096 }) := by
    rcases vm.pmm.pmmAllocPages_first (show (4096 : ℤ) ≠ 0 by decide) (by rw [hconv]; exact hle) (by decide) with
      ⟨-, hno⟩ | ⟨f', hf', hr⟩
    · exact absurd hf (hno f)
    · have hsame : f' = f := by
        have h1 : ¬f < f' := fun hlt => hf'.first f hlt hf.clear
        have h2 : ¬f' < f := fun hlt => hf.first f' hlt hf'.clear
        omega
      rw [hr, hsame, (Pmm.signExtend32_page (by omega)).mpr (by omega), hconv]
  obtain ⟨pmm, hpmm⟩ : ∃ pmm : Pmm, pmm = { vm.pmm with bitmap := Pmm.setRange vm.pmm.bitmap f 4096 } := ⟨_, rfl⟩
  have hused : ∀ b, pmm.used b = (decide (f ≤ b ∧ b < f + 4096) || vm.pmm.used b) := fun b => by
    rw [hpmm]
    exact Pmm.used_setRange ..
  have htotal' : pmm.totalPages = vm.pmm.totalPages := by rw [hpmm]
  have hfree := vm.pmm.freeBelow_setRange f 4096 vm.pmm.totalPages
  rw [← hpmm] at halloc hfree
  have hmap : vm.mapKheap cr3 = (List.range 4096).foldl (Vm.kheapPage cr3 (f * 4096)) { vm with pmm := pmm } := by
    have heq : vm.mapKheap cr3 = (List.range 4096).foldl (Vm.kheapPage cr3 (vm.pmm.pmmAllocPages 4096).1)
      { vm with pmm := (vm.pmm.pmmAllocPages 4096).2 } := rfl
    rw [heq, halloc]
  have hstart : KheapPages { vm with pmm := pmm } cr3 f 0 { vm with pmm := pmm } := by
    refine ⟨h, fun b hb => hfresh b ?_, rfl, fun _ hb => hb, le_rfl, fun off ho => absurd ho (by omega),
      fun off ho _ => hnone off ho, fun _ _ => rfl⟩
    dsimp only at hb
    rw [hused] at hb
    exact (Bool.or_eq_false_iff.mp hb).2
  have hend := hstart.rounds (n := 4096) (by omega) (by dsimp only; omega)
    (by dsimp only; rw [hused, h0, Bool.or_true]) (by dsimp only; rw [htotal']; omega) le_rfl
  rw [← hmap] at hend
  have hneed := hend.need
  dsimp only at hneed
  rw [htotal', show kheapNeed 4096 = 0 from rfl] at hneed
  refine ⟨f, hf, by omega, fun i hi => ⟨by simpa using hf.clear i hi, ?_⟩, by omega,
    fun heap live hheap e he i hi => ?_, fun w hw => hend.other w hw⟩
  · refine hend.keep _ ?_
    dsimp only
    rw [hused, decide_eq_true ⟨by omega, by omega⟩, Bool.true_or]
  · obtain ⟨hlow, hhigh⟩ := (heap_safety hheap).1.inHeap e he
    have hw := hend.mapped (e.1 + i - heapStart) (by omega)
    rwa [show heapStart + (e.1 + i - heapStart) = e.1 + i by omega] at hw

end Loop

/-- 32 MB of memory with two frames in use, one of them the empty PML4. -/
def noHeap : Vm Pmm := ⟨fun _ _ => 0, ⟨Bitmap.setBit (Bitmap.setBit (fun _ => 0) 0) 1, 8192⟩⟩

theorem noHeap_used (b : ℕ) : noHeap.pmm.used b = (decide (b = 1) || decide (b = 0)) := by
  refine (Pmm.used_setBit ⟨Bitmap.setBit (fun _ => 0) 0, 8192⟩ 1 b).trans ?_
  have hzero : Pmm.used ⟨Bitmap.setBit (fun _ => 0) 0, 8192⟩ b = (decide (b = 0) || false) := by
    refine (Pmm.used_setBit ⟨fun _ => 0, 8192⟩ 0 b).trans ?_
    simp [Pmm.used, Bitmap.testBit]
  rw [hzero, Bool.or_false]

theorem noHeap_free : 4096 + 10 ≤ noHeap.pmm.freeBelow noHeap.pmm.totalPages := by
  have hbits : ∀ n, n ≤ noHeap.pmm.freeBelow n + 2 := fun n => by
    have hall : Pmm.freeBelow ⟨fun _ => 0, 8192⟩ n = n := by
      refine Nat.count_iff_forall.mpr fun m _ => ?_
      simp [Pmm.used, Bitmap.testBit]
    have h0 := Pmm.freeBelow_setBit ⟨fun _ => 0, 8192⟩ 0 n
    have h1 : _ ≤ noHeap.pmm.freeBelow n + _ := Pmm.freeBelow_setBit ⟨Bitmap.setBit (fun _ => 0) 0, 8192⟩ 1 n
    rw [hall] at h0
    dsimp only at h0
    split_ifs at h0 h1 <;> omega
  have h := hbits noHeap.pmm.totalPages
  have htotal : noHeap.pmm.totalPages = 8192 := rfl
  omega

theorem kheap_backed_page : ∃ f p, p ≠ 0 ∧ ∀ i < 4000,
    (noHeap.mapKheap 0x1000).tables.walk 0x1000 (p + i) = some ⟨f * 4096 + (p + i - heapStart), true, false⟩ := by
  have htables : ∀ g i, noHeap.tables g i = 0 := fun _ _ => rfl
  have hfree := noHeap_free
  have hfresh : FreeFresh noHeap.tables 0x1000 noHeap.pmm := by
    rintro b hb r hr q - hreach
    obtain rfl := Set.mem_singleton_iff.mp hr
    obtain ⟨-, heq⟩ := reach_of_empty htables hreach
    rw [noHeap_used, Bool.or_eq_false_iff, decide_eq_false_iff_not] at hb
    omega
  have hnone : ∀ off < heapSize, noHeap.tables.walk 0x1000 (heapStart + off) = none := fun off _ => by
    rw [walk, walkFrom_absent (by rw [htables]; rfl)]
  have hclear : noHeap.pmm.Clear 2 4096 := fun j _ => by
    rw [noHeap_used, Bool.or_eq_false_iff, decide_eq_false_iff_not, decide_eq_false_iff_not]
    omega
  obtain ⟨f, -, -, -, -, hheap, -⟩ := kheap_backed (.of_empty htables 0x1000) hfresh
    (by rw [noHeap_used]; decide) (by decide) hnone ⟨2, by decide, by decide, hclear⟩ hfree
  obtain ⟨p, heap, hne, hrun⟩ : ∃ p heap, p ≠ 0 ∧ HeapRun heap [(p, 4000)] := by
    have hne : (blankHeap.initKheap.buddyAlloc 0).1 ≠ 0 := by decide
    have hr : blankHeap.initKheap.kmalloc 4000 = some (blankHeap.initKheap.buddyAlloc 0) := by
      rw [Heap.kmalloc, if_neg (by norm_num), if_pos (by norm_num)]
      rfl
    have hrun := HeapRun.alloc (.init blankHeap) (by norm_num) hr
    rw [if_neg hne] at hrun
    exact ⟨_, _, hne, hrun⟩
  exact ⟨f, p, hne, hheap heap _ hrun (p, 4000) List.mem_cons_self⟩

end PointerOS
