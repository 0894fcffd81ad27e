import PointerOS.MappingLaw

/-!
# Mapping a page and unmapping it again

`vmm_unmap_page` finds the entry that `vmm_map_page` wrote, at the level where it
wrote it. What it returns is the entry under the mask of a 4 KB page. The
write-combining bit of a page of 2 MB is the first bit of that mask, so it comes
back as a part of the address.
-/
namespace PointerOS
open Tables

section Unmapping
variable {σ : Type*} {alloc : σ → ℕ × σ} {vm : Vm σ} {T : Tables} {r v w flags paddr ps : ℕ}
variable {p : List (Fin 512)} {t : ℕ} {i : Fin 512}

/-- Whether a walk ends in a page depends on the indices only. -/
theorem walkFrom_eq_none_congr {n t : ℕ} (h : indices w n = indices v n) :
    T.walkFrom w n t = none ↔ T.walkFrom v n t = none := by
  induction n generalizing t with
  | zero =>
    have h0 : index w 0 = index v 0 := (List.cons.inj h).1
    simp only [walkFrom, h0]
    split_ifs <;> simp
  | succ n ih =>
    obtain ⟨h0, hrest⟩ := List.cons.inj h
    simp only [walkFrom, h0]
    split_ifs
    · rfl
    · simp
    · rw [Option.map_eq_none_iff, Option.map_eq_none_iff, ih hrest]
    · rfl

namespace PageTree

/-- The table in which a call with the last entry `e` has written it. -/
theorem maps_entry (h : PageTree vm.tables r) (flags : ℕ) {m e : ℕ} (hm : m = 2 ∨ m = 3)
    (hn : m = 3 → NoHuge vm.tables r v)
    (hf : FramesFresh alloc vm.tables {r} vm.pmm (tablesMissing vm.tables v m 3 r)) :
    ∃ t, ((tablesDown alloc v flags m 3 r vm).2.tables.setEntry (tablesDown alloc v flags m 3 r vm).1
        (index v (3 - m)) e).Owned {r} Set.univ r ((indices v 3).take m) t ∧
      (tablesDown alloc v flags m 3 r vm).2.tables.setEntry (tablesDown alloc v flags m 3 r vm).1
        (index v (3 - m)) e t (index v (3 - m)) = e := by
  obtain ⟨ht, -, ho, -⟩ := h.down flags (by omega) hn hf
  refine ⟨_, ho.congr ?_, setEntry_same ..⟩
  refine ht.tables.separated.reach_edit ho (fun _ _ => child_setEntry_of_ne) root ho.depth fun _ hpre => ?_
  have hlen := hpre.length_le
  rw [List.length_append, List.length_singleton] at hlen
  omega

/-- `vmm_unmap_page` takes out the last entry on the way of `v`. -/
theorem unmap_entry (h : PageTree T r) {m : ℕ} (hm : m = 2 ∨ m = 3)
    (ho : T.Owned {r} Set.univ r ((indices v 3).take m) t) (hp : present (T t (index v (3 - m))) = true)
    (hs : m = 2 → pageSize (T t (index v (3 - m))) = true) :
    vmmUnmapPage T r v = (maskPage (T t (index v (3 - m))), T.setEntry t (index v (3 - m)) 0) := by
  have hsplit : ∃ s, indices v 3 = (indices v 3).take m ++ index v (3 - m) :: s := by
    rcases hm with rfl | rfl
    · exact ⟨[index v 0], rfl⟩
    · exact ⟨[], rfl⟩
  obtain ⟨s, hi⟩ := hsplit
  have hlen : ((indices v 3).take m).length + (3 - m) = 3 := by
    rw [List.length_take, length_indices]
    omega
  have hwalk := h.walk_leaf hlen ho.reach hi hp (hm.symm.imp (fun h3 => by omega) fun h2 => ⟨by omega, hs h2⟩)
  have hfound := vmmGetEntry_found h.tables (v := v) rfl (Set.mem_univ _)
  have hentry : vmmGetEntry T r v = some ⟨t, index v (3 - m), if m = 2 then 2 else 0⟩ := by
    generalize vmmGetEntry T r v = x at hfound
    cases hfound with
    | none hnone =>
      rw [hnone] at hwalk
      exact nomatch hwalk
    | @huge pd hpd hpp hps =>
      rcases hm with rfl | rfl
      · obtain rfl : pd = t := Option.some.inj (hpd.reach.symm.trans ho.reach)
        rfl
      · obtain ⟨g, hg⟩ := Radix.reach_of_prefix (p := [index v 3, index v 2]) (q := [index v 1]) ho.reach
        have hc := (Radix.reach_concat hg).symm.trans ho.reach
        obtain rfl : pd = g := Option.some.inj (hpd.reach.symm.trans hg)
        rw [(child_eq_some.mp hc).2.1] at hps
        exact nomatch hps
    | @page pt hpt =>
      rcases hm with rfl | rfl
      · have hc := (Radix.reach_concat ho.reach).symm.trans hpt.reach
        rw [(child_eq_some.mp hc).2.1] at hs
        exact nomatch hs rfl
      · obtain rfl : pt = t := Option.some.inj (hpt.reach.symm.trans ho.reach)
        rfl
  unfold vmmUnmapPage
  rw [hentry]

/-- Taking out a last entry unmaps its page and nothing else. -/
theorem clear_entry (h : PageTree T r) {m : ℕ} (hm : m = 2 ∨ m = 3)
    (ho : T.Owned {r} Set.univ r ((indices v 3).take m) t) :
    (∀ w, (indices w 3).take (m + 1) = (indices v 3).take (m + 1) →
      (T.setEntry t (index v (3 - m)) 0).walk r w = none) ∧
    ∀ w, (indices w 3).take (m + 1) ≠ (indices v 3).take (m + 1) →
      (T.setEntry t (index v (3 - m)) 0).walk r w = T.walk r w := by
  have htake : (indices v 3).take (m + 1) = (indices v 3).take m ++ [index v (3 - m)] := by
    rcases hm with rfl | rfl <;> rfl
  have hlen : ((indices v 3).take m).length = m := by
    rw [List.length_take, length_indices]
    omega
  generalize (indices v 3).take m = p at ho htake hlen
  refine ⟨fun w hw => ?_, fun w hw => ?_⟩
  · have hreach : (T.setEntry t (index v (3 - m)) 0).reach r p = some t := by
      rw [← ho.reach]
      refine h.tables.separated.reach_edit ho (fun _ _ => child_setEntry_of_ne) root ho.depth fun _ hpre => ?_
      have := hpre.length_le
      rw [List.length_append, List.length_singleton] at this
      omega
    have hi : indices w 3 = p ++ index v (3 - m) :: (indices w 3).drop (m + 1) := by
      conv_lhs => rw [← List.take_append_drop (m + 1) (indices w 3), hw, htake]
      rw [List.append_assoc, List.singleton_append]
    have hidx : index v (3 - m) = index w (3 - p.length) := index_of_indices hi
    refine walkFrom_none hi (List.cons_ne_nil _ _) hreach (walkFrom_absent ?_)
    rw [← hidx, setEntry_same]
    rfl
  · refine h.tables.walk_setEntry ho root fun _ hpre => hw ?_
    have htw := List.prefix_iff_eq_take.mp hpre
    rw [List.length_append, List.length_singleton, hlen] at htw
    rw [htake, htw]

theorem not_inHugePage (h : PageTree T r) (hnone : T.walk r v = none) : ¬InHugePage T r v := by
  rintro ⟨e, he, hlevel⟩
  have hfound := vmmGetEntry_found h.tables (v := v) rfl (Set.mem_univ _)
  rw [he] at hfound
  cases hfound with
  | huge ho hp hs =>
    have hwalk := h.walk_leaf (n := 1) rfl ho.reach (s := [index v 0]) rfl hp (.inr ⟨by decide, hs⟩)
    rw [hnone] at hwalk
    exact nomatch hwalk
  | page => exact nomatch hlevel

end PageTree

/-- `vmm_map_page` and then `vmm_unmap_page` give the frame back and leave every
translation as it was. -/
structure RoundTrip (alloc : σ → ℕ × σ) (vm : Vm σ) (r paddr v ps flags : ℕ) : Prop where
  frame : (vmmUnmapPage (vm.vmmMapPage alloc r paddr v ps flags).tables r v).1 = paddr
  walks : ∀ w, (vmmUnmapPage (vm.vmmMapPage alloc r paddr v ps flags).tables r v).2.walk r w = vm.tables.walk r w

/-- A page of 2 MB takes no write-combining bit and covers no mapped page. -/
def TripFits (T : Tables) (r v ps flags : ℕ) : Prop :=
  ps = pageSize2MB → flags &&& pteWcHuge = 0 ∧ ∀ w, SamePage ps v w → T.walk r w = none

/-- What the mask of `vmm_unmap_page` leaves of the entry of a page of 2 MB. -/
theorem maskPage_huge (hp : paddr % pageSize2MB = 0) (hflags : MapFlags pageSize2MB flags) :
    maskPage (paddr ||| (ptePresent ||| ptePageSize ||| flags)) = paddr ↔ flags &&& pteWcHuge = 0 := by
  have hlt : flags < 2 ^ 13 := lt_of_le_of_lt ((le_of_eq hflags.symm).trans Nat.and_le_right) (by decide)
  have hlow : ptePresent ||| ptePageSize < 2 ^ 12 := by decide
  have hdiv : (paddr ||| (ptePresent ||| ptePageSize ||| flags)) / 2 ^ 12 = paddr / 2 ^ 12 ||| flags / 2 ^ 12 := by
    rw [Nat.or_div_two_pow, Nat.or_div_two_pow, Nat.div_eq_of_lt hlow, Nat.zero_or]
  have hand : flags &&& pteWcHuge = flags / 2 ^ 12 * 2 ^ 12 := by
    rw [pteWcHuge, Nat.and_two_pow, Nat.testBit_eq_decide_div_mod_eq]
    have hsmall : flags / 2 ^ 12 < 2 := by omega
    generalize flags / 2 ^ 12 = b at hsmall
    interval_cases b <;> rfl
  have hmask : maskPage (paddr ||| (ptePresent ||| ptePageSize ||| flags)) =
      (paddr / 2 ^ 12 ||| flags / 2 ^ 12) * 2 ^ 12 := by rw [← hdiv]; rfl
  rw [hmask, hand]
  have hsmall : flags / 2 ^ 12 < 2 := by omega
  rw [pageSize2MB] at hp
  have heven : paddr / 2 ^ 12 = 2 * (paddr / 2 ^ 13) := by omega
  generalize flags / 2 ^ 12 = b at hsmall
  interval_cases b
  · rw [Nat.or_zero]
    omega
  · have hor : paddr / 2 ^ 12 ||| 1 = paddr / 2 ^ 12 + 1 := by
      rw [heven]
      exact (Nat.two_pow_add_eq_or_of_lt (i := 1) (by decide) _).symm
    rw [hor]
    omega

/-- The call after a call that wrote the last entry `e` below `m` tables. -/
theorem PageTree.trip (h : PageTree vm.tables r) (flags : ℕ) {m e : ℕ} (hm : m = 2 ∨ m = 3)
    (hn : m = 3 → NoHuge vm.tables r v)
    (hf : FramesFresh alloc vm.tables {r} vm.pmm (tablesMissing vm.tables v m 3 r))
    (hpe : present e = true) (hse : m = 2 → pageSize e = true) (hue : userBit e = userBit flags) :
    ∃ T', vmmUnmapPage ((tablesDown alloc v flags m 3 r vm).2.tables.setEntry
        (tablesDown alloc v flags m 3 r vm).1 (index v (3 - m)) e) r v = (maskPage e, T') ∧
      (∀ w, (indices w 3).take (m + 1) = (indices v 3).take (m + 1) → T'.walk r w = none) ∧
      ∀ w, (indices w 3).take (m + 1) ≠ (indices v 3).take (m + 1) → T'.walk r w = vm.tables.walk r w := by
  have hmaps := h.maps flags hm hn hf hpe hse hue
  obtain ⟨t, ho, he⟩ := h.maps_entry flags (e := e) hm hn hf
  have hunmap := hmaps.tree.unmap_entry hm ho (by rw [he]; exact hpe) fun h2 => by rw [he]; exact hse h2
  obtain ⟨hgone, hother⟩ := hmaps.tree.clear_entry hm ho
  rw [he] at hunmap
  exact ⟨_, hunmap, hgone, fun w hw => (hother w hw).trans (hmaps.other w hw)⟩

/-- Mapping a page where none is and unmapping it again leaves no trace, exactly when one of 2 MB takes no
write-combining bit and covers no mapped page. -/
theorem vmm_map_unmap_round_trip_iff (h : TreeReachable alloc vm r) (paddr v ps flags : ℕ)
    (hps : ps = pageSize4KB ∨ ps = pageSize2MB) (hp : paddr % ps = 0) (hflags : MapFlags ps flags)
    (hnone : vm.tables.walk r v = none)
    (hf : FramesFresh alloc vm.tables {r} vm.pmm (tablesMissing vm.tables v (tablesNeeded ps) 3 r)) :
    RoundTrip alloc vm r paddr v ps flags ↔ TripFits vm.tables r v ps flags := by
  have htree := h.tree
  have hpage : paddr % 4096 = 0 := by
    rcases hps with rfl | rfl
    · exact hp
    · rw [pageSize2MB] at hp
      omega
  have hu : userBit paddr = false := testBit_frame hpage (by decide)
  rcases hps with rfl | rfl
  · have hlt : flags < 2 ^ 12 := lt_of_le_of_lt ((le_of_eq hflags.symm).trans Nat.and_le_right) (by decide)
    have hhuge := noHuge_of_not_inHugePage htree.tables rfl (Set.mem_univ _) (htree.not_inHugePage hnone)
    obtain ⟨T', htrip, hgone, hother⟩ := htree.trip (e := paddr ||| (ptePresent ||| flags)) flags (.inr rfl)
      (fun _ => hhuge) hf (by simp) (by simp) (by rw [userBit_or, userBit_or, hu]; rfl)
    have hrun : vmmUnmapPage (vm.vmmMapPage alloc r paddr v pageSize4KB flags).tables r v =
        (maskPage (paddr ||| (ptePresent ||| flags)), T') := htrip
    refine iff_of_true ⟨?_, fun w => ?_⟩ fun h2 => absurd h2 (by decide)
    · rw [hrun]
      exact maskPage_or_flags hpage (Nat.or_lt_two_pow (by decide) hlt)
    · rw [hrun]
      by_cases hw : (indices w 3).take 4 = (indices v 3).take 4
      · rw [hgone w hw]
        exact ((walkFrom_eq_none_congr (show indices w 3 = indices v 3 from hw)).mpr hnone).symm
      · exact hother w hw
  · obtain ⟨T', htrip, hgone, hother⟩ := htree.trip (e := paddr ||| (ptePresent ||| ptePageSize ||| flags)) flags
      (.inl rfl) (by simp) hf (by simp) (by simp) (by rw [userBit_or, userBit_or, userBit_or, hu]; rfl)
    have hrun : vmmUnmapPage (vm.vmmMapPage alloc r paddr v pageSize2MB flags).tables r v =
        (maskPage (paddr ||| (ptePresent ||| ptePageSize ||| flags)), T') := htrip
    have hsame := fun w => (@samePage_iff_take v w).2
    constructor
    · rintro ⟨hframe, hwalks⟩ -
      rw [hrun] at hframe hwalks
      exact ⟨(maskPage_huge hp hflags).mp hframe, fun w hw => (hwalks w).symm.trans (hgone w ((hsame w).mp hw))⟩
    · intro hfits
      obtain ⟨hwc, hrange⟩ := hfits rfl
      refine ⟨?_, fun w => ?_⟩
      · rw [hrun]
        exact (maskPage_huge hp hflags).mpr hwc
      · rw [hrun]
        by_cases hw : (indices w 3).take 3 = (indices v 3).take 3
        · rw [hgone w hw, hrange w ((hsame w).mpr hw)]
        · exact hother w hw

end Unmapping

/-- No address of the second page of 2 MB of the direct map is mapped. -/
theorem directMapped_second (w : ℕ) (hw : SamePage pageSize2MB (directOffset + 0x200000) w) :
    directMapped.2.tables.walk 0x10000 w = none := by
  have htake := samePage_iff_take.2.mp hw
  simp only [indices_three, List.take, List.cons.injEq, and_true] at htake
  obtain ⟨h3, h2, h1⟩ := htake
  have hreach : directMapped.2.tables.reach 0x10000 [index w 3, index w 2] = some 0x12000 := by
    rw [h3, h2]
    decide +kernel
  refine walkFrom_none (s := [index w 1, index w 0]) (indices_three w) (List.cons_ne_nil _ _) hreach
    (walkFrom_absent ?_)
  change present (directMapped.2.tables 0x12000 (index w 1)) = false
  rw [h1]
  decide +kernel

theorem vmm_map_unmap_round_trip_iff_second :
    RoundTrip nextFrame directMapped.2 0x10000 0x200000 (directOffset + 0x200000) pageSize2MB pteWritable :=
  (vmm_map_unmap_round_trip_iff directMapped_reachable 0x200000 (directOffset + 0x200000) pageSize2MB pteWritable
    (.inr rfl) (by decide) (by decide) (directMapped_second _ rfl) directMapped_supply).mpr
    fun _ => ⟨rfl, directMapped_second⟩

/-- With the write-combining bit the address of the next 4 KB page comes back. -/
theorem vmm_unmap_returns_flag :
    ¬RoundTrip nextFrame directMapped.2 0x10000 0x200000 (directOffset + 0x200000) pageSize2MB
      (pteWritable ||| pteWcHuge) := by
  rintro ⟨hframe, -⟩
  have hresult : (vmmUnmapPage (directMapped.2.vmmMapPage nextFrame 0x10000 0x200000 (directOffset + 0x200000)
      pageSize2MB (pteWritable ||| pteWcHuge)).tables 0x10000 (directOffset + 0x200000)).1 = 0x201000 := by
    decide +kernel
  rw [hresult] at hframe
  exact absurd hframe (by decide)

end PointerOS
