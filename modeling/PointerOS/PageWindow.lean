import PointerOS.FrameSource

/-!
# A window of pages

The pages of a window of one address space are mapped one by one to frames of
`pmm_alloc_page` and unmapped again. The invariant: a mapped page has a frame of
its own that is in use and no table, and an entry that is not present is zero.
-/
namespace PointerOS
open Tables FrameSource

/-- The pages of `W` lie below private indices, and their addresses differ in the 48 bits
that the processor translates. -/
structure IsWindow (W : Set ℕ) (priv : Set (Fin 512)) : Prop where
  slots : ∀ {v}, v / 4096 ∈ W → index v 3 ∈ priv
  distinct : ∀ {a b}, a ∈ W → b ∈ W → a % 2 ^ 36 = b % 2 ^ 36 → a = b

/-- An entry that maps a page for writing. -/
structure PageEntry (e : ℕ) : Prop where
  present : present e = true
  writable : writable e = true
  width : e < 2 ^ 52

/-- The frame `k` backs a page: it is in use and no table. -/
structure Backing (T : Tables) (roots : Set ℕ) (s : Pmm) (k : ℕ) : Prop where
  pos : 0 < k
  lt : k < s.totalPages
  used : s.used k = true
  notTable : ∀ q ∈ roots, ∀ p, p.length ≤ 3 → T.reach q p ≠ some (k * 4096)

structure Window (W : Set ℕ) (roots own : Set ℕ) (priv : Set (Fin 512)) (r : ℕ) (vm : Vm FrameSource) :
    Prop where
  isWindow : IsWindow W priv
  tables : PrivateTables vm.tables roots own priv
  root : r ∈ own
  inUse : TablesInUse vm.tables roots vm.pmm.pmm
  total : vm.pmm.pmm.totalPages ≤ 2 ^ 40
  upper : ∀ {v}, v / 4096 ∈ W → ∀ {q i s f}, indices v 3 = q ++ i :: s → q.length < 3 →
    vm.tables.reach r q = some f → present (vm.tables f i) = true →
    pageSize (vm.tables f i) = false ∧ writable (vm.tables f i) = true
  last : ∀ {v}, v / 4096 ∈ W → ∀ {pt}, vm.tables.reach r [index v 3, index v 2, index v 1] = some pt →
    vm.tables pt (index v 0) = 0 ∨ PageEntry (vm.tables pt (index v 0))
  frames : ∀ {v}, v / 4096 ∈ W → ∀ {x}, vm.tables.walk r v = some x →
    Backing vm.tables roots vm.pmm.pmm (x.paddr / 4096)
  inj : ∀ {v w}, v / 4096 ∈ W → w / 4096 ∈ W → ∀ {x y}, vm.tables.walk r v = some x →
    vm.tables.walk r w = some y → x.paddr / 4096 = y.paddr / 4096 → v / 4096 = w / 4096

namespace Window
variable {W roots own : Set ℕ} {priv : Set (Fin 512)} {r v : ℕ} {vm : Vm FrameSource}

theorem mem_roots (h : Window W roots own priv r vm) : r ∈ roots := h.tables.separated.subset h.root

/-- The walk of a page whose page table is there. -/
theorem walk_page (h : Window W roots own priv r vm) (hv : v / 4096 ∈ W) {pt : ℕ}
    (hpt : vm.tables.reach r [index v 3, index v 2, index v 1] = some pt)
    (he : PageEntry (vm.tables pt (index v 0))) :
    ∃ u, vm.tables.walk r v = some ⟨vm.tables pt (index v 0) / 4096 * 4096 + v % 4096, true, u⟩ := by
  obtain ⟨f2, f1, h2, h1, hp3, hp2, hp1, hw⟩ := walk_of_reach hpt
  have hw3 := (h.upper hv (q := []) rfl (by simp) rfl hp3).2
  have hw2 := (h.upper hv (q := [index v 3]) rfl (by simp) h2 hp2).2
  have hw1 := (h.upper hv (q := [index v 3, index v 2]) rfl (by simp) h1 hp1).2
  have hk : vm.tables pt (index v 0) / 4096 % 2 ^ 40 = vm.tables pt (index v 0) / 4096 :=
    Nat.mod_eq_of_lt (by have := he.width; omega)
  rw [hw, walkFrom, if_pos he.present]
  simp only [Option.map_some, leaf, Translation.under, he.writable, hw1, hw2, hw3, Bool.and_true,
    Nat.mul_zero, Nat.add_zero, Nat.sub_zero, Nat.reducePow]
  simp only [Nat.reducePow] at hk
  rw [hk]
  exact ⟨_, rfl⟩

theorem noHuge (h : Window W roots own priv r vm) (hv : v / 4096 ∈ W) : NoHuge vm.tables r v :=
  fun _ hf hp => (h.upper hv (q := [index v 3, index v 2]) rfl (by simp) hf hp).1

/-- A page is not mapped, and unmapping it finds nothing or a zero entry, or it has one. -/
theorem entry_cases (h : Window W roots own priv r vm) (hv : v / 4096 ∈ W) :
    (vm.tables.walk r v = none ∧ vmmUnmapPage vm.tables r v = (0, vm.tables)) ∨
    ∃ pt u, vm.tables.Owned own priv r [index v 3, index v 2, index v 1] pt ∧
      PageEntry (vm.tables pt (index v 0)) ∧
      vm.tables.walk r v = some ⟨vm.tables pt (index v 0) / 4096 * 4096 + v % 4096, true, u⟩ ∧
      vmmUnmapPage vm.tables r v =
        (vm.tables pt (index v 0) / 4096 * 4096, vm.tables.setEntry pt (index v 0) 0) := by
  have hfound := vmmGetEntry_found h.tables h.root (h.isWindow.slots hv)
  unfold vmmUnmapPage
  generalize vmmGetEntry vm.tables r v = x at hfound
  cases hfound with
  | none hw => exact .inl ⟨hw, rfl⟩
  | huge ho hp hs =>
    rw [h.noHuge hv _ ho.reach hp] at hs
    exact nomatch hs
  | @page pt ho =>
    rcases h.last hv ho.reach with h0 | he
    · left
      obtain ⟨f2, f1, -, -, -, -, -, hw⟩ := walk_of_reach ho.reach
      refine ⟨?_, ?_⟩
      · rw [hw, walkFrom_absent (by rw [h0]; rfl)]
        rfl
      · simp only [h0, maskPage, Nat.zero_div, Nat.zero_mul, Prod.mk.injEq, true_and]
        funext f i
        by_cases hfi : f = pt ∧ i = index v 0
        · obtain ⟨rfl, rfl⟩ := hfi
          rw [setEntry_same, h0]
        · exact setEntry_of_ne _ _ hfi
    · obtain ⟨u, hu⟩ := h.walk_page hv ho.reach he
      exact .inr ⟨pt, u, ho, he, hu, rfl⟩

end Window

section Calls
variable {W roots own : Set ℕ} {priv : Set (Fin 512)} {r v flags : ℕ} {vm : Vm FrameSource}

/-! ## Unmapping -/

/-- `pmm_free_page(vmm_unmap_page(r, v))` -/
def Vm.freePage (vm : Vm FrameSource) (r v : ℕ) : Vm FrameSource :=
  { tables := (vmmUnmapPage vm.tables r v).2, pmm := vm.pmm.give (vmmUnmapPage vm.tables r v).1 }

/-- The number of the frame of a page, 0 for a page that is not mapped. -/
def frameOf (T : Tables) (r v : ℕ) : ℕ := ((T.walk r v).map (·.paddr / 4096)).getD 0

theorem pmmFreePage_used (s : Pmm) (k b : ℕ) :
    (s.pmmFreePage (k * 4096)).used b = (s.used b && !decide (b = k ∧ k < s.totalPages)) := by
  unfold Pmm.pmmFreePage
  simp only [Nat.mul_div_cancel k (show 0 < 4096 by decide)]
  split_ifs with hT hk
  · rw [decide_eq_false (by omega), Bool.not_false, Bool.and_true]
  · by_cases hb : b = k
    · rw [hb, hk, Bool.false_and]
    · rw [decide_eq_false (by omega), Bool.not_false, Bool.and_true]
  · have hbit := Bitmap.testBit_clrBit s.bitmap k b
    rw [Pmm.used, hbit, Bool.and_comm]
    congr 2
    exact decide_eq_decide.mpr ⟨fun hb => ⟨hb, by omega⟩, And.left⟩

theorem pmmFreePage_totalPages (s : Pmm) (paddr : ℕ) : (s.pmmFreePage paddr).totalPages = s.totalPages := by
  simp only [Pmm.pmmFreePage]
  split_ifs <;> rfl

/-- What freeing a page of the window does. -/
structure Freed (W roots own : Set ℕ) (priv : Set (Fin 512)) (r v : ℕ) (vm vm' : Vm FrameSource) : Prop where
  window : Window W roots own priv r vm'
  gone : ∀ w, w / 4096 = v / 4096 → vm'.tables.walk r w = none
  other : ∀ q ∈ roots, ∀ w, (q = r → w / 4096 % 2 ^ 36 ≠ v / 4096 % 2 ^ 36) →
    vm'.tables.walk q w = vm.tables.walk q w
  used : ∀ b, vm'.pmm.pmm.used b = (vm.pmm.pmm.used b &&
    !decide (b = frameOf vm.tables r v ∧ frameOf vm.tables r v < vm.pmm.pmm.totalPages))
  total : vm'.pmm.pmm.totalPages = vm.pmm.pmm.totalPages
  exhausted : vm'.pmm.exhausted = vm.pmm.exhausted

namespace Window

/-- All addresses of a page are mapped, or none. -/
theorem walk_none_congr (h : Window W roots own priv r vm) (hv : v / 4096 ∈ W) {w : ℕ}
    (hw : w / 4096 = v / 4096) (hn : vm.tables.walk r v = none) : vm.tables.walk r w = none := by
  rcases h.entry_cases (hw ▸ hv) with ⟨hnone, -⟩ | ⟨pt, u, ho, he, -, -⟩
  · exact hnone
  · have hr := ho.reach
    rw [index_congr hw, index_congr hw, index_congr hw] at hr
    rw [index_congr hw] at he
    obtain ⟨u', hu'⟩ := h.walk_page hv hr he
    rw [hn] at hu'
    exact nomatch hu'

/-- The frame of a page. -/
theorem frameOf_some {x : Translation} (hx : vm.tables.walk r v = some x) :
    frameOf vm.tables r v = x.paddr / 4096 := by
  unfold frameOf
  rw [hx]
  rfl

theorem frameOf_congr (h : Window W roots own priv r vm) (hv : v / 4096 ∈ W) {w : ℕ}
    (hw : w / 4096 = v / 4096) : frameOf vm.tables r w = frameOf vm.tables r v := by
  rcases h.entry_cases hv with ⟨hnone, -⟩ | ⟨pt, u, ho, he, hwalk, -⟩
  · unfold frameOf
    rw [hnone, h.walk_none_congr hv hw hnone]
  · have hpt := ho.reach
    rw [← index_congr hw, ← index_congr hw, ← index_congr hw] at hpt
    rw [← index_congr hw] at he
    obtain ⟨u', hu'⟩ := h.walk_page (hw ▸ hv) hpt he
    rw [frameOf_some hu', frameOf_some hwalk, index_congr hw]
    dsimp only
    omega

/-- Freeing a frame that backs no page of the window and is no table. -/
theorem give (h : Window W roots own priv r vm) {k : ℕ}
    (htable : ∀ q ∈ roots, ∀ p, p.length ≤ 3 → vm.tables.reach q p = some (k * 4096) → k = 0)
    (hpage : ∀ {w}, w / 4096 ∈ W → ∀ {x}, vm.tables.walk r w = some x → x.paddr / 4096 ≠ k) :
    Window W roots own priv r { vm with pmm := vm.pmm.give (k * 4096) } where
  isWindow := h.isWindow
  tables := h.tables
  root := h.root
  inUse := by
    intro q hq p f hp hf
    obtain ⟨h1, h2, h3⟩ := h.inUse q hq p f hp hf
    refine ⟨h1, h2, ?_⟩
    change (vm.pmm.pmm.pmmFreePage (k * 4096)).used _ = true
    rw [pmmFreePage_used, h3, decide_eq_false, Bool.not_false, Bool.and_true]
    rintro ⟨hk, -⟩
    have := htable q hq p hp (by rw [hf]; congr 1; omega)
    omega
  total := by
    change (vm.pmm.pmm.pmmFreePage (k * 4096)).totalPages ≤ _
    rw [pmmFreePage_totalPages]
    exact h.total
  upper := h.upper
  last := h.last
  frames := by
    intro w hw x hx
    obtain ⟨h1, h2, h3, h4⟩ := h.frames hw hx
    refine ⟨h1, ?_, ?_, h4⟩
    · change _ < (vm.pmm.pmm.pmmFreePage (k * 4096)).totalPages
      rwa [pmmFreePage_totalPages]
    · change (vm.pmm.pmm.pmmFreePage (k * 4096)).used _ = true
      rw [pmmFreePage_used, h3, decide_eq_false (fun hb => hpage hw hx hb.1), Bool.not_false, Bool.and_true]
  inj := h.inj

/-- Taking the entry of a page of the window out. -/
theorem clear (h : Window W roots own priv r vm) (hv : v / 4096 ∈ W) {pt : ℕ}
    (ho : vm.tables.Owned own priv r [index v 3, index v 2, index v 1] pt) :
    Window W roots own priv r { vm with tables := vm.tables.setEntry pt (index v 0) 0 } ∧
      (∀ w, w / 4096 = v / 4096 → (vm.tables.setEntry pt (index v 0) 0).walk r w = none) ∧
      (∀ q ∈ roots, ∀ w, (q = r → w / 4096 % 2 ^ 36 ≠ v / 4096 % 2 ^ 36) →
        (vm.tables.setEntry pt (index v 0) 0).walk q w = vm.tables.walk q w) := by
  have hreach : ∀ {q p}, q ∈ roots → p.length ≤ 3 →
      (vm.tables.setEntry pt (index v 0) 0).reach q p = vm.tables.reach q p :=
    fun hq hp => h.tables.reach_last ho rfl hq hp
  have hgone : ∀ w, w / 4096 = v / 4096 → (vm.tables.setEntry pt (index v 0) 0).walk r w = none := by
    intro w hw
    have hr : (vm.tables.setEntry pt (index v 0) 0).reach r [index w 3, index w 2, index w 1] = some pt := by
      rw [hreach h.mem_roots (by simp), index_congr hw, index_congr hw, index_congr hw]
      exact ho.reach
    obtain ⟨f2, f1, -, -, -, -, -, hwalk⟩ := walk_of_reach hr
    rw [hwalk, walkFrom_absent (by rw [index_congr hw, setEntry_same]; rfl)]
    rfl
  have hother : ∀ q ∈ roots, ∀ w, (q = r → w / 4096 % 2 ^ 36 ≠ v / 4096 % 2 ^ 36) →
      (vm.tables.setEntry pt (index v 0) 0).walk q w = vm.tables.walk q w := by
    intro q hq w hne
    refine h.tables.walk_setEntry ho hq fun hqr hpre => hne hqr ?_
    have heq : indices v 3 = indices w 3 := by
      refine hpre.eq_of_length ?_
      rw [length_indices]
      rfl
    exact (indices_eq_iff.mp heq).symm
  have hwalk : ∀ {w}, w / 4096 ∈ W → ∀ {x}, (vm.tables.setEntry pt (index v 0) 0).walk r w = some x →
      vm.tables.walk r w = some x := by
    intro w hw x hx
    by_cases hpage : w / 4096 = v / 4096
    · rw [hgone w hpage] at hx
      exact nomatch hx
    · rwa [hother r h.mem_roots w fun _ hmod => hpage (h.isWindow.distinct hw hv hmod)] at hx
  refine ⟨⟨h.isWindow, ?_, h.root, ?_, h.total, ?_, ?_, ?_, ?_⟩, hgone, hother⟩
  · refine h.tables.setEntry_mono ho (EntryOk.of_not_present rfl) fun q hq p x hp hx => ?_
    exact (hreach hq hp).symm.trans hx
  · exact fun q hq p f hp hf => h.inUse q hq p f hp ((hreach hq hp).symm.trans hf)
  · intro w hw q i s f hq hlen hf hp
    have hf' := (hreach h.mem_roots (by omega)).symm.trans hf
    have hne : ¬(f = pt ∧ i = index v 0) := by
      rintro ⟨rfl, -⟩
      obtain ⟨-, rfl⟩ := h.tables.separated.only ho r h.mem_roots q (by omega) hf'
      simp at hlen
    dsimp only at hp ⊢
    rw [setEntry_of_ne _ _ hne] at hp ⊢
    exact h.upper hw hq hlen hf' hp
  · intro w hw pt' hpt'
    have hpt := (hreach h.mem_roots (by simp)).symm.trans hpt'
    dsimp only
    by_cases hs : pt' = pt ∧ index w 0 = index v 0
    · obtain ⟨rfl, hi⟩ := hs
      rw [hi, setEntry_same]
      exact .inl rfl
    · rw [setEntry_of_ne _ _ hs]
      exact h.last hw hpt
  · intro w hw x hx
    obtain ⟨h1, h2, h3, h4⟩ := h.frames hw (hwalk hw hx)
    exact ⟨h1, h2, h3, fun q hq p hp hf => h4 q hq p hp ((hreach hq hp).symm.trans hf)⟩
  · exact fun hw hw' x y hx hy => h.inj hw hw' (hwalk hw hx) (hwalk hw' hy)

end Window

theorem freePage_spec (h : Window W roots own priv r vm) (hv : v / 4096 ∈ W) :
    Freed W roots own priv r v vm (vm.freePage r v) := by
  rcases h.entry_cases hv with ⟨hnone, heq⟩ | ⟨pt, u, ho, he, hwalk, heq⟩
  · have h0 : frameOf vm.tables r v = 0 := by
      unfold frameOf
      rw [hnone]
      rfl
    have hvm : vm.freePage r v = { vm with pmm := vm.pmm.give (0 * 4096) } := by
      simp only [Vm.freePage, heq, Nat.zero_mul]
    rw [hvm]
    refine ⟨h.give (fun _ _ _ _ _ => rfl) (fun hw x hx => (h.frames hw hx).pos.ne'),
      fun w hw => h.walk_none_congr hv hw hnone, fun _ _ _ _ => rfl, fun b => ?_, ?_, rfl⟩
    · rw [h0]
      exact pmmFreePage_used _ 0 b
    · exact pmmFreePage_totalPages _ _
  · obtain ⟨hwin, hgone, hother⟩ := h.clear hv ho
    obtain ⟨k, hk⟩ : ∃ k, k = vm.tables pt (index v 0) / 4096 := ⟨_, rfl⟩
    rw [← hk] at hwalk heq
    have hframe : frameOf vm.tables r v = k := by
      unfold frameOf
      rw [hwalk]
      simp only [Option.map_some, Option.getD_some]
      omega
    have hpk : (⟨k * 4096 + v % 4096, true, u⟩ : Translation).paddr / 4096 = k := by
      dsimp only
      omega
    have hback := h.frames hv hwalk
    rw [hpk] at hback
    have hvm : vm.freePage r v =
        { tables := vm.tables.setEntry pt (index v 0) 0, pmm := vm.pmm.give (k * 4096) } := by
      simp only [Vm.freePage, heq]
    rw [hvm]
    have hpage : ∀ {w}, w / 4096 ∈ W → ∀ {x},
        (vm.tables.setEntry pt (index v 0) 0).walk r w = some x → x.paddr / 4096 ≠ k := by
      intro w hw x hx hxk
      have hne : w / 4096 ≠ v / 4096 := fun heq => by
        rw [hgone w heq] at hx
        exact nomatch hx
      rw [hother r h.mem_roots w fun _ hmod => hne (h.isWindow.distinct hw hv hmod)] at hx
      exact hne (h.inj hw hv hx hwalk (hxk.trans hpk.symm))
    refine ⟨hwin.give (fun q hq p hp hf => ?_) hpage, hgone, hother, fun b => ?_, ?_, rfl⟩
    · exact absurd ((h.tables.reach_last ho rfl hq hp).symm.trans hf) (hback.notTable q hq p hp)
    · rw [hframe]
      exact pmmFreePage_used _ k b
    · exact pmmFreePage_totalPages _ _

/-! ## Mapping -/

/-- `vmm_map_page(r, pmm_alloc_page(), v, PAGE_SIZE_4KB, flags)` -/
def Vm.mapNewPage (vm : Vm FrameSource) (r v flags : ℕ) : Vm FrameSource :=
  Vm.vmmMapPage take { vm with pmm := (take vm.pmm).2 } r (take vm.pmm).1 v pageSize4KB flags

/-- What mapping a page of the window does: the page gets the frame `k`, and the tables
that were missing the frames `made`. -/
structure Mapped (W roots own : Set ℕ) (priv : Set (Fin 512)) (r v flags : ℕ) (vm vm' : Vm FrameSource)
    (k : ℕ) (made : List ℕ) : Prop where
  window : Window W roots own priv r vm'
  fresh : vm.pmm.pmm.used k = false
  page : ∀ w, w / 4096 = v / 4096 →
    vm'.tables.walk r w = some ⟨k * 4096 + w % 4096, true, userBit flags⟩
  other : ∀ q ∈ roots, ∀ w, (q = r → w / 4096 % 2 ^ 36 ≠ v / 4096 % 2 ^ 36) →
    Option.Rel Translation.Raised (vm.tables.walk q w) (vm'.tables.walk q w)
  same : ∀ q ∈ roots, (q = r → userBit flags = false) → ∀ w,
    (q = r → w / 4096 % 2 ^ 36 ≠ v / 4096 % 2 ^ 36) → vm'.tables.walk q w = vm.tables.walk q w
  taken : Taken vm.pmm (k * 4096 :: made) vm'.pmm
  notMade : k * 4096 ∉ made

theorem pageEntry_or {k : ℕ} (hk : k < 2 ^ 40) (hf : flags < 4096) (hw : writable flags = true) :
    PageEntry (k * 4096 ||| (ptePresent ||| flags)) ∧ (k * 4096 ||| (ptePresent ||| flags)) / 4096 = k ∧
      userBit (k * 4096 ||| (ptePresent ||| flags)) = userBit flags := by
  have ha : ptePresent ||| flags < 4096 := Nat.or_lt_two_pow (n := 12) (by decide) hf
  have hmod : k * 4096 % 4096 = 0 := Nat.mul_mod_left k 4096
  have huser : userBit (k * 4096) = false := testBit_frame hmod (by decide)
  refine ⟨⟨?_, ?_, ?_⟩, ?_, ?_⟩
  · rw [present_or, present_or, present_ptePresent, Bool.true_or, Bool.or_true]
  · rw [writable_or, writable_or, hw, Bool.or_true, Bool.or_true]
  · rw [or_flags hmod ha]
    omega
  · rw [or_flags hmod ha]
    omega
  · rw [userBit_or, userBit_or, huser]
    rfl

/-- The upper tables of the window stay writable and without pages of 2 MB. -/
theorem Window.upper_extends {T' : Tables} {user : Bool} {made : List ℕ}
    (h : Window W roots own priv r vm) (he : Extends vm.tables T' roots own priv r user made) {w : ℕ}
    (hw : w / 4096 ∈ W) {q s : List (Fin 512)} {i : Fin 512} {f : ℕ} (hq : indices w 3 = q ++ i :: s)
    (hlen : q.length < 3) (hf : T'.reach r q = some f) (hp : present (T' f i) = true) :
    pageSize (T' f i) = false ∧ writable (T' f i) = true := by
  rcases he.entry hp with ⟨hn, hp', heq⟩ | ⟨hs, hwr, -⟩
  · rcases he.only h.mem_roots (by omega) hf with hf' | ⟨-, hf'⟩
    · have hup := h.upper hw hq hlen hf' hp'
      rcases heq with heq | heq <;> rw [heq]
      · exact hup
      · rw [pageSize_or, writable_or, hup.1, hup.2]
        exact ⟨rfl, rfl⟩
    · exact absurd hf' hn
  · exact ⟨hs, hwr⟩

/-- The walk of a page whose entry was just written. -/
theorem walk_written {T : Tables} (pt : ℕ) {k : ℕ} (hk : k < 2 ^ 40) (hf : flags < 4096)
    (hw : writable flags = true) (hpt : T.reach r [index v 3, index v 2, index v 1] = some pt)
    (hentry : T pt (index v 0) = k * 4096 ||| (ptePresent ||| flags))
    (hupper : ∀ q i s f, indices v 3 = q ++ i :: s → q.length < 3 → T.reach r q = some f →
      present (T f i) = true → writable (T f i) = true)
    (huser : userBit flags = true → UserPath T r v 3) :
    T.walk r v = some ⟨k * 4096 + v % 4096, true, userBit flags⟩ := by
  obtain ⟨hpe, hdiv, hu⟩ := pageEntry_or hk hf hw
  rw [← hentry] at hpe hdiv hu
  obtain ⟨f2, f1, h2, h1, hp3, hp2, hp1, hwalk⟩ := walk_of_reach hpt
  have hw3 := hupper [] _ _ _ rfl (by simp) rfl hp3
  have hw2 := hupper [index v 3] _ _ _ rfl (by simp) h2 hp2
  have hw1 := hupper [index v 3, index v 2] _ _ _ rfl (by simp) h1 hp1
  have hkm : k % 2 ^ 40 = k := Nat.mod_eq_of_lt hk
  have hbits : (((userBit flags && userBit (T f1 (index v 1))) && userBit (T f2 (index v 2))) &&
      userBit (T r (index v 3))) = userBit flags := by
    cases hfu : userBit flags with
    | false => rfl
    | true =>
      have hU := huser hfu
      rw [hU [] _ _ _ rfl (by simp) rfl, hU [index v 3] _ _ _ rfl (by simp) h2,
        hU [index v 3, index v 2] _ _ _ rfl (by simp) h1]
      rfl
  rw [hwalk, walkFrom, if_pos hpe.present]
  simp only [Option.map_some, leaf, Translation.under, hpe.writable, hw1, hw2, hw3, hu, hbits, Bool.and_true,
    Nat.mul_zero, Nat.add_zero, Nat.sub_zero, Nat.reducePow] at hdiv hkm ⊢
  rw [hdiv, hkm]

theorem raised_some {a : Option Translation} {y : Translation}
    (h : Option.Rel Translation.Raised a (some y)) : ∃ x, a = some x ∧ y.paddr = x.paddr := by
  cases h with
  | some h => exact ⟨_, rfl, h.paddr⟩

theorem mapNewPage_spec (h : Window W roots own priv r vm) (hv : v / 4096 ∈ W) (hf : flags < 4096)
    (hw : writable flags = true) (hx : (vm.mapNewPage r v flags).pmm.exhausted = false) :
    ∃ k made, Mapped W roots own priv r v flags vm (vm.mapNewPage r v flags) k made := by
  have hslot := h.isWindow.slots hv
  have hroot := h.mem_roots
  -- the frame of the page
  have hx₁ : (take vm.pmm).2.exhausted = false := tablesDown_exhausted (m := 3) (n := 3) hx
  obtain ⟨-, k, hk0, hkT, hfree, hk, hT, hbits⟩ := take_spec h.total hx₁
  have huse : TablesInUse vm.tables roots (take vm.pmm).2.pmm := by
    intro q hq p f hp hf
    obtain ⟨h1, h2, h3⟩ := h.inUse q hq p f hp hf
    exact ⟨h1, h2, by rw [hbits, h3, Bool.true_or]⟩
  -- the tables above it
  obtain ⟨made, T', pt, he, ho, htab, htakes, huser⟩ :=
    vmmMapPage_4KB { vm with pmm := (take vm.pmm).2 } (take vm.pmm).1
      (take_supply roots own priv r flags v) h.tables h.root hslot (h.noHuge hv)
      ⟨huse, hT ▸ h.total, hx⟩
  obtain ⟨-, ht⟩ := taken_of_takes htakes (hT ▸ h.total) hx
  obtain ⟨vm', hvm'⟩ : ∃ vm', vm' = vm.mapNewPage r v flags := ⟨_, rfl⟩
  have htab' : (vm.mapNewPage r v flags).tables =
      T'.setEntry pt (index v 0) (k * 4096 ||| (ptePresent ||| flags)) := by rw [← hk]; exact htab
  have ht' : Taken (take vm.pmm).2 made (vm.mapNewPage r v flags).pmm := ht
  rw [← hvm'] at htab' ht' ⊢
  have hreach : ∀ {q p}, q ∈ roots → p.length ≤ 3 → vm'.tables.reach q p = T'.reach q p := fun hq hp => by
    rw [htab']
    exact he.inv.reach_last ho rfl hq hp
  have hentry : ∀ {f i}, f ≠ pt → vm'.tables f i = T' f i := fun hne => by
    rw [htab']
    exact setEntry_of_ne _ _ fun hs => hne hs.1
  have hupperNe : ∀ {q : List (Fin 512)} {f}, q.length < 3 → T'.reach r q = some f → f ≠ pt := by
    rintro q f hq hf rfl
    obtain ⟨-, rfl⟩ := he.inv.separated.only ho r hroot q (by omega) hf
    simp at hq
  have hupper : ∀ {w}, w / 4096 ∈ W → ∀ {q i s f}, indices w 3 = q ++ i :: s → q.length < 3 →
      vm'.tables.reach r q = some f → present (vm'.tables f i) = true →
      pageSize (vm'.tables f i) = false ∧ writable (vm'.tables f i) = true := by
    intro w hw q i s f hq hlen hf hp
    have hf' := (hreach hroot (by omega)).symm.trans hf
    rw [hentry (hupperNe hlen hf')] at hp ⊢
    exact h.upper_extends he hw hq hlen hf' hp
  have hpage : ∀ w, w / 4096 = v / 4096 →
      vm'.tables.walk r w = some ⟨k * 4096 + w % 4096, true, userBit flags⟩ := by
    intro w hwv
    have hind : indices w 3 = indices v 3 := indices_eq_iff.mpr (by rw [hwv])
    refine walk_written pt (by have := h.total; omega) hf hw ?_ ?_ ?_ ?_
    · rw [hreach hroot (by simp), index_congr hwv, index_congr hwv, index_congr hwv]
      exact ho.reach
    · rw [htab', index_congr hwv, setEntry_same]
    · exact fun q i s f hq hlen hf hp => (hupper (hwv ▸ hv) hq hlen hf hp).2
    · intro hfu q i s f hq hlen hf'
      have hf'' := (hreach hroot (by omega)).symm.trans hf'
      rw [hentry (hupperNe hlen hf'')]
      exact huser hfu q i s f (hind ▸ hq) hlen hf''
  have hset : ∀ q ∈ roots, ∀ w, (q = r → w / 4096 % 2 ^ 36 ≠ v / 4096 % 2 ^ 36) →
      vm'.tables.walk q w = T'.walk q w := by
    intro q hq w hne
    rw [htab']
    refine he.inv.walk_setEntry ho hq fun hqr hpre => hne hqr ?_
    have heq : indices v 3 = indices w 3 := by
      refine hpre.eq_of_length ?_
      rw [length_indices]
      rfl
    exact (indices_eq_iff.mp heq).symm
  have hother : ∀ q ∈ roots, ∀ w, (q = r → w / 4096 % 2 ^ 36 ≠ v / 4096 % 2 ^ 36) →
      Option.Rel Translation.Raised (vm.tables.walk q w) (vm'.tables.walk q w) := fun q hq w hne => by
    rw [hset q hq w hne]
    exact he.raised q hq w
  have hused : ∀ b, vm'.pmm.pmm.used b =
      (vm.pmm.pmm.used b || decide (b * 4096 ∈ k * 4096 :: made)) := by
    intro b
    have hb : b * 4096 = k * 4096 ↔ b = k := by omega
    rw [ht'.used, hbits, Bool.or_assoc]
    simp only [List.mem_cons, hb, Bool.decide_or]
  have hmade : ∀ g ∈ made, ∃ j, 0 < j ∧ j < vm.pmm.pmm.totalPages ∧ g = j * 4096 ∧
      vm.pmm.pmm.used j = false ∧ j ≠ k := by
    intro g hg
    obtain ⟨j, hj0, hj, rfl, hju⟩ := ht'.frames g hg
    rw [hbits] at hju
    exact ⟨j, hj0, hT ▸ hj, rfl, (Bool.or_eq_false_iff.mp hju).1,
      of_decide_eq_false (Bool.or_eq_false_iff.mp hju).2⟩
  have hnotMade : k * 4096 ∉ made := by
    intro hm
    obtain ⟨j, -, -, hjk, -, hne⟩ := hmade _ hm
    omega
  -- a mapped page is the new one, or was mapped to the same frame
  have hold : ∀ {w}, w / 4096 ∈ W → ∀ {x}, vm'.tables.walk r w = some x →
      (w / 4096 = v / 4096 ∧ x.paddr / 4096 = k) ∨
      (w / 4096 ≠ v / 4096 ∧ ∃ x₀, vm.tables.walk r w = some x₀ ∧ x.paddr = x₀.paddr) := by
    intro w hwW x hwx
    by_cases hwv : w / 4096 = v / 4096
    · rw [hpage w hwv] at hwx
      obtain rfl := Option.some.inj hwx
      exact .inl ⟨hwv, by dsimp only; omega⟩
    · have hrel := hother r hroot w fun _ hmod => hwv (h.isWindow.distinct hwW hv hmod)
      rw [hwx] at hrel
      exact .inr ⟨hwv, raised_some hrel⟩
  have htable : ∀ {q p j}, q ∈ roots → p.length ≤ 3 → vm'.tables.reach q p = some (j * 4096) →
      vm.tables.reach q p = some (j * 4096) ∨ j * 4096 ∈ made := by
    intro q p j hq hp hf
    rcases he.only hq hp ((hreach hq hp).symm.trans hf) with hf' | ⟨-, hf'⟩
    · exact .inl hf'
    · exact .inr hf'
  have hwin : Window W roots own priv r vm' := by
    refine ⟨h.isWindow, ?_, h.root, ?_, ?_, hupper, ?_, ?_, ?_⟩
    · rw [htab']
      refine he.inv.setEntry_mono ho ?_ fun q hq p x hp hx => (he.inv.reach_last ho rfl hq hp).symm.trans hx
      exact fun _ => ⟨fun hd => absurd hd (by simp), fun hd => absurd hd (by simp)⟩
    · exact fun q hq p f hp hf => huse.extends he ht' q hq p f hp ((hreach hq hp).symm.trans hf)
    · rw [ht'.total, hT]
      exact h.total
    · intro w hwW pt' hpt'
      have hpt := (hreach hroot (by simp)).symm.trans hpt'
      by_cases hs : pt' = pt ∧ index w 0 = index v 0
      · obtain ⟨rfl, hi⟩ := hs
        rw [hi, htab', setEntry_same]
        exact .inr (pageEntry_or (by have := h.total; omega) hf hw).1
      · rw [htab', setEntry_of_ne _ _ hs]
        rcases he.last hroot (by simp) hpt with ⟨hpt₀, hsame⟩ | hzero
        · rw [hsame]
          exact h.last hwW hpt₀
        · exact .inl (hzero _)
    · intro w hwW x hwx
      rcases hold hwW hwx with ⟨-, hxk⟩ | ⟨-, x₀, hx₀, hpx⟩
      · rw [hxk]
        refine ⟨hk0, ?_, ?_, fun q hq p hp hf => ?_⟩
        · rwa [ht'.total, hT]
        · rw [hused, decide_eq_true (List.mem_cons_self ..), Bool.or_true]
        · rcases htable hq hp hf with hf' | hf'
          · exact h.inUse.fresh hfree q hq p hp hf'
          · exact hnotMade hf'
      · obtain ⟨h1, h2, h3, h4⟩ := h.frames hwW hx₀
        rw [hpx]
        refine ⟨h1, ?_, ?_, fun q hq p hp hf => ?_⟩
        · rwa [ht'.total, hT]
        · rw [hused, h3, Bool.true_or]
        · rcases htable hq hp hf with hf' | hf'
          · exact h4 q hq p hp hf'
          · obtain ⟨j, -, -, hj, hju, -⟩ := hmade _ hf'
            rw [show x₀.paddr / 4096 = j by omega, hju] at h3
            exact nomatch h3
    · intro w w' hwW hwW' x y hwx hwy hxy
      rcases hold hwW hwx with ⟨hp, hxk⟩ | ⟨-, x₀, hx₀, hpx⟩
      · rcases hold hwW' hwy with ⟨hp', -⟩ | ⟨-, y₀, hy₀, hpy⟩
        · exact hp.trans hp'.symm
        · have hu := (h.frames hwW' hy₀).used
          rw [← hpy, ← hxy, hxk, hfree] at hu
          exact nomatch hu
      · rcases hold hwW' hwy with ⟨-, hyk⟩ | ⟨-, y₀, hy₀, hpy⟩
        · have hu := (h.frames hwW hx₀).used
          rw [← hpx, hxy, hyk, hfree] at hu
          exact nomatch hu
        · exact h.inj hwW hwW' hx₀ hy₀ (by rw [← hpx, ← hpy, hxy])
  refine ⟨k, made, hwin, hfree, hpage, hother, fun q hq hu w hne => ?_, ⟨ht'.total.trans hT, ?_, hused⟩,
    hnotMade⟩
  · rw [hset q hq w hne]
    exact he.same q hq hu w
  · intro g hg
    rcases List.mem_cons.mp hg with rfl | hg
    · exact ⟨k, hk0, hkT, rfl, hfree⟩
    · obtain ⟨j, hj0, hj, hjg, hju, -⟩ := hmade g hg
      exact ⟨j, hj0, hj, hjg, hju⟩

/-! ## Page after page -/

/-- Mapping the pages of a list of addresses, in order. -/
def Vm.mapPages (vm : Vm FrameSource) (r flags : ℕ) (l : List ℕ) : Vm FrameSource :=
  l.foldl (fun vm v => vm.mapNewPage r v flags) vm

def Vm.freePages (vm : Vm FrameSource) (r : ℕ) (l : List ℕ) : Vm FrameSource :=
  l.foldl (fun vm v => vm.freePage r v) vm

theorem mapNewPage_exhausted (h : (vm.mapNewPage r v flags).pmm.exhausted = false) :
    vm.pmm.exhausted = false :=
  exhausted_of_take (tablesDown_exhausted (show
    (tablesDown take v flags 3 3 r { vm with pmm := (take vm.pmm).2 }).2.pmm.exhausted = false from h))

theorem mapPages_exhausted {l : List ℕ} (h : (vm.mapPages r flags l).pmm.exhausted = false) :
    vm.pmm.exhausted = false := by
  induction l generalizing vm with
  | nil => exact h
  | cons v l ih => exact mapNewPage_exhausted (ih h)

/-- Mapping pages without the user flag maps them all, keeps the other translations and
frees no frame. -/
theorem mapPages_spec {l : List ℕ} (h : Window W roots own priv r vm) (hl : ∀ v ∈ l, v / 4096 ∈ W)
    (hf : flags < 4096) (hw : writable flags = true) (hu : userBit flags = false)
    (hx : (vm.mapPages r flags l).pmm.exhausted = false) :
    Window W roots own priv r (vm.mapPages r flags l) ∧
      (∀ w, w / 4096 ∈ W → (∃ v ∈ l, w / 4096 = v / 4096) ∨ (vm.tables.walk r w).isSome →
        ((vm.mapPages r flags l).tables.walk r w).isSome) ∧
      (∀ w, w / 4096 ∈ W → (∀ v ∈ l, w / 4096 ≠ v / 4096) →
        (vm.mapPages r flags l).tables.walk r w = vm.tables.walk r w) := by
  induction l generalizing vm with
  | nil => exact ⟨h, fun w _ hw => hw.resolve_left (by simp), fun _ _ _ => rfl⟩
  | cons v l ih =>
    have hv := hl v (List.mem_cons_self ..)
    obtain ⟨k, made, hm⟩ := mapNewPage_spec h hv hf hw (mapPages_exhausted (l := l) hx)
    obtain ⟨hwin, hall, hrest⟩ := ih hm.window (fun w hw => hl w (List.mem_cons_of_mem _ hw)) hx
    have hother : ∀ w, w / 4096 ∈ W → w / 4096 ≠ v / 4096 →
        (vm.mapNewPage r v flags).tables.walk r w = vm.tables.walk r w := fun w hw hne =>
      hm.same r h.mem_roots (fun _ => hu) w fun _ hmod => hne (h.isWindow.distinct hw hv hmod)
    refine ⟨hwin, fun w hw hor => ?_, fun w hw hne => ?_⟩
    · by_cases hwv : w / 4096 = v / 4096
      · exact hall w hw (.inr (by rw [hm.page w hwv]; rfl))
      · refine hall w hw (hor.imp ?_ ?_)
        · rintro ⟨v', hv', hwv'⟩
          rcases List.mem_cons.mp hv' with rfl | hv'
          · exact absurd hwv' hwv
          · exact ⟨v', hv', hwv'⟩
        · intro hs
          rwa [hother w hw hwv]
    · rw [← hother w hw (hne v (List.mem_cons_self ..))]
      exact hrest w hw fun v' hv' => hne v' (List.mem_cons_of_mem _ hv')

/-- Freeing different pages of a window. -/
theorem freePages_spec {l : List ℕ} (h : Window W roots own priv r vm) (hl : ∀ v ∈ l, v / 4096 ∈ W)
    (hd : l.Pairwise fun v w => v / 4096 ≠ w / 4096) :
    Window W roots own priv r (vm.freePages r l) ∧
      (∀ v ∈ l, ∀ w, w / 4096 = v / 4096 → (vm.freePages r l).tables.walk r w = none) ∧
      (∀ w, w / 4096 ∈ W → (∀ v ∈ l, w / 4096 ≠ v / 4096) →
        (vm.freePages r l).tables.walk r w = vm.tables.walk r w) ∧
      (∀ b, (vm.freePages r l).pmm.pmm.used b = true ↔ vm.pmm.pmm.used b = true ∧
        ∀ v ∈ l, ¬(b = frameOf vm.tables r v ∧ b < vm.pmm.pmm.totalPages)) ∧
      (vm.freePages r l).pmm.pmm.totalPages = vm.pmm.pmm.totalPages ∧
      (vm.freePages r l).pmm.exhausted = vm.pmm.exhausted := by
  induction l generalizing vm with
  | nil => exact ⟨h, by simp, fun _ _ _ => rfl, by simp [Vm.freePages], rfl, rfl⟩
  | cons v l ih =>
    obtain ⟨hv, hl'⟩ := List.forall_mem_cons.mp hl
    obtain ⟨hdv, hd'⟩ := List.pairwise_cons.mp hd
    have hfreed := freePage_spec h hv
    have hother : ∀ w, w / 4096 ∈ W → w / 4096 ≠ v / 4096 →
        (vm.freePage r v).tables.walk r w = vm.tables.walk r w := fun w hw hne =>
      hfreed.other r h.mem_roots w fun _ hmod => hne (h.isWindow.distinct hw hv hmod)
    obtain ⟨hwin, hnone, hsame, hused, hT, hx⟩ := ih hfreed.window hl' hd'
    refine ⟨hwin, ?_, fun w hw hne => ?_, fun b => ?_, hT.trans hfreed.total, hx.trans hfreed.exhausted⟩
    · intro v' hv' w hw
      rcases List.mem_cons.mp hv' with rfl | hv'
      · refine (hsame w (hw ▸ hv) fun v'' hv'' heq => hdv v'' hv'' (hw.symm.trans heq)).trans ?_
        exact hfreed.gone w hw
      · exact hnone v' hv' w hw
    · rw [← hother w hw (hne v (List.mem_cons_self ..))]
      exact hsame w hw fun v' hv' => hne v' (List.mem_cons_of_mem _ hv')
    · have hframes : ∀ v' ∈ l, frameOf (vm.freePage r v).tables r v' = frameOf vm.tables r v' := by
        intro v' hv'
        unfold frameOf
        rw [hother v' (hl' v' hv') (Ne.symm (hdv v' hv'))]
      have hstep : (vm.freePage r v).pmm.pmm.used b = true ↔ vm.pmm.pmm.used b = true ∧
          ¬(b = frameOf vm.tables r v ∧ b < vm.pmm.pmm.totalPages) := by
        rw [hfreed.used, Bool.and_eq_true, Bool.not_eq_true', decide_eq_false_iff_not]
        refine and_congr_right fun _ => not_congr ⟨?_, ?_⟩
        · rintro ⟨rfl, hlt⟩
          exact ⟨rfl, hlt⟩
        · rintro ⟨rfl, hlt⟩
          exact ⟨rfl, hlt⟩
      rw [List.forall_mem_cons]
      change ((vm.freePage r v).freePages r l).pmm.pmm.used b = true ↔ _
      rw [hused b, hstep, and_assoc, hfreed.total]
      refine and_congr_right fun _ => and_congr_right fun _ => ?_
      exact forall₂_congr fun v' hv' => by rw [hframes v' hv']

/-- An address space without a mapping. -/
theorem Window.of_empty (hT : ∀ f i, vm.tables f i = 0) (hW : IsWindow W priv) (hr : r % 4096 = 0)
    (hr0 : r ≠ 0) (hu : vm.pmm.pmm.used (r / 4096) = true) (ht : vm.pmm.pmm.totalPages ≤ 2 ^ 40) :
    Window W {r} {r} priv r vm where
  isWindow := hW
  tables := by
    refine ⟨⟨le_rfl, ?_⟩, fun _ i _ => ?_⟩
    · rintro q p f ho q' rfl p' - hf'
      obtain ⟨rfl, -⟩ := reach_of_empty hT ho.reach
      obtain ⟨rfl, -⟩ := reach_of_empty hT hf'
      exact ⟨(Set.mem_singleton_iff.mp ho.root).symm, rfl⟩
    · rw [hT]
      exact EntryOk.of_not_present rfl
  root := rfl
  inUse := by
    rintro q rfl p f - hf
    obtain ⟨-, rfl⟩ := reach_of_empty hT hf
    exact ⟨hr, hr0, hu⟩
  total := ht
  upper := by
    intro v _ q i s f _ _ _ hp
    rw [hT] at hp
    cases hp
  last := fun _ _ _ => .inl (hT _ _)
  frames := by
    intro v _ x hx
    rw [walk, walkFrom_absent (by rw [hT]; rfl)] at hx
    cases hx
  inj := by
    intro v w _ _ x y hx
    rw [walk, walkFrom_absent (by rw [hT]; rfl)] at hx
    cases hx

end Calls
end PointerOS
