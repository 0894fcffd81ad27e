import PointerOS.GapList
import PointerOS.IntLoop
import PointerOS.PageWindow

/-!
# The virtual allocator

`vmalloc` places a region behind the first region that is followed by a large
enough gap, in bytes, and maps it page by page; `vfree` unmaps the pages and
frees their frames. The doubly linked list is the list of its records in order.
-/
namespace PointerOS
open Tables FrameSource GapList

def vmallocStart : ℕ := 0xFFFFC00000000000

/-- `vm_info_t` without its links. -/
structure VmInfo where
  base : ℕ
  size : ℕ
deriving DecidableEq

/-- The test of `vm_add_to_list`: `size` bytes fit between two regions. -/
def VmFits (size : ℕ) (current next : VmInfo) : Prop :=
  (current.base + current.size + size) % 2 ^ 64 ≤ next.base

instance (size : ℕ) : DecidableRel (VmFits size) :=
  fun current next => inferInstanceAs (Decidable ((current.base + current.size + size) % 2 ^ 64 ≤ next.base))

/-- The base of the new region and the list with it. -/
def vmAddToList (l : List VmInfo) (size : ℕ) : ℕ × List VmInfo :=
  match l with
  | [] => (vmallocStart, [⟨vmallocStart, size⟩])
  | head :: rest =>
    let (passed, behind, after) := findGap (VmFits size) head rest
    let base := (behind.base + behind.size) % 2 ^ 64
    (base, passed ++ behind :: ⟨base, size⟩ :: after)

structure VmallocState where
  vm : Vm FrameSource
  list : List VmInfo

namespace VmallocState

/-- `info` is what `kmalloc` returned for the record, and `cr3` the PML4 in use. -/
def vmalloc (s : VmallocState) (cr3 info size : ℕ) : ℕ × VmallocState :=
  if size = 0 then (0, s)
  else if info = 0 then (0, s)
  else
    let (base, list) := vmAddToList s.list size
    (base, { vm := intLoop size (fun j vm => vm.mapNewPage cr3 ((base + intToU64 j) % 2 ^ 64) pteWritable) s.vm
             list := list })

/-- The record of the region is not given back to `kmalloc`. -/
def vfree (s : VmallocState) (cr3 ptr : ℕ) : VmallocState :=
  match s.list.find? (·.base = ptr) with
  | none => s
  | some current =>
    { vm := intLoop current.size
        (fun i vm => vm.freePage cr3 ((current.base + intToU64 i) % 2 ^ 64)) s.vm
      list := s.list.eraseP (·.base = ptr) }

end VmallocState

/-! ## Placement -/

/-- The address is a byte of the region. -/
def VmInfo.Has (i : VmInfo) (v : ℕ) : Prop := i.base ≤ v ∧ v < i.base + i.size

/-- Regions in order, on page boundaries, in the first `n` bytes of the window. -/
structure Placed (l : List VmInfo) (n : ℕ) : Prop where
  aligned : ∀ i ∈ l, i.base % 4096 = 0
  pos : ∀ i ∈ l, 0 < i.size
  low : ∀ i ∈ l, vmallocStart ≤ i.base
  high : ∀ i ∈ l, i.base + i.size ≤ vmallocStart + n
  sorted : l.Pairwise fun i j => i.base + i.size ≤ j.base

/-- The region behind which a new one goes has a size of whole pages. -/
def PageMultipleBehind (l : List VmInfo) (size : ℕ) : Prop :=
  match l with
  | [] => True
  | head :: rest => (findGap (VmFits size) head rest).2.1.size % 4096 = 0

instance (l : List VmInfo) (size : ℕ) : Decidable (PageMultipleBehind l size) :=
  match l with
  | [] => isTrue trivial
  | head :: rest => inferInstanceAs (Decidable ((findGap (VmFits size) head rest).2.1.size % 4096 = 0))

theorem Placed.erase {l : List VmInfo} {n : ℕ} (h : Placed l n) (p : VmInfo → Bool) :
    Placed (l.eraseP p) n where
  aligned := fun i hi => h.aligned i (List.mem_of_mem_eraseP hi)
  pos := fun i hi => h.pos i (List.mem_of_mem_eraseP hi)
  low := fun i hi => h.low i (List.mem_of_mem_eraseP hi)
  high := fun i hi => h.high i (List.mem_of_mem_eraseP hi)
  sorted := h.sorted.sublist List.eraseP_sublist

theorem vmallocStart_eq : vmallocStart % 4096 = 0 ∧ vmallocStart + 2 ^ 46 = 2 ^ 64 := by decide

/-- A new region between `behind` and `after`, in a gap that fits it. -/
theorem Placed.insert {passed after : List VmInfo} {behind : VmInfo} {n m size : ℕ}
    (h : Placed (passed ++ behind :: after) n) (hb : behind.size % 4096 = 0) (hpos : 0 < size)
    (hm : behind.base + behind.size + size ≤ vmallocStart + m) (hnm : n ≤ m)
    (hgap : ∀ next rest, after = next :: rest → behind.base + behind.size + size ≤ next.base) :
    Placed (passed ++ behind :: ⟨behind.base + behind.size, size⟩ :: after) m := by
  have hbehind : behind ∈ passed ++ behind :: after :=
    List.mem_append_right _ (List.mem_cons_self ..)
  obtain ⟨-, hrest, -⟩ := List.pairwise_append.mp h.sorted
  obtain ⟨-, hafter⟩ := List.pairwise_cons.mp hrest
  refine ⟨?_, ?_, ?_, ?_, ?_⟩
  · intro i hi
    rcases mem_insert.mp hi with rfl | hi
    · have := h.aligned behind hbehind
      dsimp only
      omega
    · exact h.aligned i hi
  · intro i hi
    rcases mem_insert.mp hi with rfl | hi
    · exact hpos
    · exact h.pos i hi
  · intro i hi
    rcases mem_insert.mp hi with rfl | hi
    · exact (h.low behind hbehind).trans (Nat.le_add_right ..)
    · exact h.low i hi
  · intro i hi
    rcases mem_insert.mp hi with rfl | hi
    · exact hm
    · exact (h.high i hi).trans (by omega)
  · -- the next region bounds the new one, and those before it end where it starts
    have hnew : ∀ j ∈ after, behind.base + behind.size + size ≤ j.base := by
      intro j hj
      cases after with
      | nil => exact nomatch hj
      | cons next rest =>
        have hnext := hgap next rest rfl
        rcases List.mem_cons.mp hj with rfl | hj
        · exact hnext
        · have := (List.pairwise_cons.mp hafter).1 j hj
          omega
    refine pairwise_insert h.sorted le_rfl (fun i _ hib => ?_) hnew
    dsimp only
    omega

/-- The new region starts where one of the others ends. -/
theorem vmAddToList_le {l : List VmInfo} {n : ℕ} (h : Placed l n) (size : ℕ) :
    (vmAddToList l size).1 ≤ vmallocStart + n := by
  cases l with
  | nil => exact Nat.le_add_right ..
  | cons head rest =>
    obtain ⟨heq, -⟩ := findGap_spec (VmFits size) head rest
    rw [heq] at h
    exact (Nat.mod_le ..).trans (h.high _ (List.mem_append_right _ (List.mem_cons_self ..)))

/-- The new region is placed like the others, and they stay where they are. -/
theorem vmAddToList_placed {l : List VmInfo} {n m size : ℕ} (h : Placed l n) (hb : PageMultipleBehind l size)
    (hpos : 0 < size) (hfit : (vmAddToList l size).1 + size ≤ vmallocStart + m) (hnm : n ≤ m)
    (hm : m ≤ 2 ^ 45) :
    Placed (vmAddToList l size).2 m ∧
      ∃ before after, l = before ++ after ∧
        (vmAddToList l size).2 = before ++ ⟨(vmAddToList l size).1, size⟩ :: after := by
  obtain ⟨hstart, hend⟩ := vmallocStart_eq
  cases l with
  | nil =>
    refine ⟨⟨?_, ?_, ?_, ?_, List.pairwise_singleton ..⟩, [], [], rfl, rfl⟩
    all_goals
      intro i hi
      obtain rfl := List.mem_singleton.mp hi
      dsimp only [vmAddToList] at hfit ⊢
      generalize vmallocStart = start at hstart hend hfit ⊢
      omega
  | cons head rest =>
    obtain ⟨heq, hgap⟩ := findGap_spec (VmFits size) head rest
    simp only [vmAddToList, PageMultipleBehind] at hb hfit ⊢
    generalize findGap (VmFits size) head rest = g at heq hgap hb hfit ⊢
    obtain ⟨passed, behind, after⟩ := g
    dsimp only at heq hgap hb hfit ⊢
    rw [heq] at h ⊢
    have hhigh := h.high behind (List.mem_append_right _ (List.mem_cons_self ..))
    have hbase : (behind.base + behind.size) % 2 ^ 64 = behind.base + behind.size :=
      Nat.mod_eq_of_lt (by omega)
    rw [hbase] at hfit ⊢
    refine ⟨h.insert hb hpos hfit hnm fun next after' hafter => ?_, passed ++ [behind], after, by simp, by simp⟩
    have := hgap next after' hafter
    rwa [VmFits, Nat.mod_eq_of_lt (by omega)] at this

/-- A region occurs once. -/
theorem Placed.notMem {before after : List VmInfo} {i : VmInfo} {n : ℕ}
    (h : Placed (before ++ i :: after) n) : i ∉ before ++ after := by
  have hpos := h.pos i (List.mem_append_right _ (List.mem_cons_self ..))
  exact notMem_of_pairwise h.sorted (by omega)

/-- A region lies below the heap. -/
theorem Placed.bounds {l : List VmInfo} {n : ℕ} (h : Placed l n) (hn : n ≤ 2 ^ 45) {i : VmInfo} (hi : i ∈ l) :
    i.size ≤ 2 ^ 63 ∧ i.base + i.size ≤ 2 ^ 64 := by
  have hlow := h.low i hi
  have hhigh := h.high i hi
  have hend := vmallocStart_eq.2
  generalize vmallocStart = start at hlow hhigh hend
  exact ⟨by omega, by omega⟩

theorem Placed.mono {l : List VmInfo} {n m : ℕ} (h : Placed l n) (hnm : n ≤ m) : Placed l m where
  aligned := h.aligned
  pos := h.pos
  low := h.low
  high := fun i hi => (h.high i hi).trans (by omega)
  sorted := h.sorted

/-- Two regions share no page. -/
theorem Placed.page_ne {l : List VmInfo} {n : ℕ} (h : Placed l n) {i j : VmInfo} (hi : i ∈ l) (hj : j ∈ l)
    (hij : i ≠ j) {v w : ℕ} (hv : i.Has v) (hw : j.Has w) : v / 4096 ≠ w / 4096 := by
  have hdis := related_of_pairwise h.sorted hi hj hij
  have hai := h.aligned i hi
  have haj := h.aligned j hj
  obtain ⟨hv1, hv2⟩ := hv
  obtain ⟨hw1, hw2⟩ := hw
  omega

/-! ## The pages of a region -/

def vmallocPages : Set ℕ := {P | vmallocStart / 4096 ≤ P ∧ P < vmallocStart / 4096 + 2 ^ 33}

/-- The addresses that a loop over a region visits. -/
def pageAddrs (base rounds : ℕ) : List ℕ := (List.range rounds).map fun j => base + 4096 * j

theorem mem_pageAddrs {base rounds v : ℕ} : v ∈ pageAddrs base rounds ↔ ∃ j < rounds, v = base + 4096 * j := by
  simp only [pageAddrs, List.mem_map, List.mem_range]
  exact exists_congr fun j => and_congr_right fun _ => eq_comm

theorem pageAddrs_pairwise (base rounds : ℕ) :
    (pageAddrs base rounds).Pairwise fun v w => v / 4096 ≠ w / 4096 := by
  rw [pageAddrs, List.pairwise_map]
  exact List.pairwise_lt_range.imp fun hab => by omega

/-- The loops of `vmalloc` and `vfree` over a region that ends below `2 ^ 64`. -/
theorem intLoop_pages {base size : ℕ} (hs : size ≤ 2 ^ 63) (hb : base + size ≤ 2 ^ 64)
    (step : Vm FrameSource → ℕ → Vm FrameSource) (vm : Vm FrameSource) :
    intLoop size (fun j vm => step vm ((base + intToU64 j) % 2 ^ 64)) vm =
      (pageAddrs base (intRounds size)).foldl step vm := by
  rw [intLoop_eq (by omega), pageAddrs, List.foldl_map]
  refine List.foldl_ext _ _ _ fun vm j hj => ?_
  rw [List.mem_range, intRounds] at hj
  rw [intToU64_natCast (by omega), Nat.mod_eq_of_lt (by omega)]

namespace VmallocState
variable {s : VmallocState} {cr3 : ℕ}

/-- A call of `vmalloc` that places a region below `2 ^ 64`. -/
theorem vmalloc_eq {info size : ℕ} (h0 : size ≠ 0) (hinfo : info ≠ 0)
    (hs : size ≤ 2 ^ 63) (hb : (vmAddToList s.list size).1 + size ≤ 2 ^ 64) :
    s.vmalloc cr3 info size = ((vmAddToList s.list size).1,
      { vm := s.vm.mapPages cr3 pteWritable (pageAddrs (vmAddToList s.list size).1 (intRounds size))
        list := (vmAddToList s.list size).2 }) := by
  unfold vmalloc
  rw [if_neg h0, if_neg hinfo]
  dsimp only
  rw [intLoop_pages hs hb fun vm v => vm.mapNewPage cr3 v pteWritable]
  rfl

/-- A call of `vfree` for a region that ends below `2 ^ 64`. -/
theorem vfree_eq (cr3 : ℕ) {i : VmInfo} (hfind : s.list.find? (·.base = i.base) = some i)
    (hs : i.size ≤ 2 ^ 63) (hb : i.base + i.size ≤ 2 ^ 64) :
    s.vfree cr3 i.base =
      { vm := s.vm.freePages cr3 (pageAddrs i.base (intRounds i.size))
        list := s.list.eraseP (·.base = i.base) } := by
  unfold vfree
  rw [hfind]
  dsimp only
  rw [intLoop_pages hs hb fun vm v => vm.freePage cr3 v]
  rfl

end VmallocState

section Steps
variable {roots own : Set ℕ} {priv : Set (Fin 512)} {cr3 : ℕ} {s : VmallocState} {n : ℕ}

/-- The regions lie in the window, each byte mapped. -/
structure VmallocInv (roots own : Set ℕ) (priv : Set (Fin 512)) (cr3 : ℕ) (s : VmallocState) (n : ℕ) :
    Prop where
  window : Window vmallocPages roots own priv cr3 s.vm
  placed : Placed s.list n
  bound : n ≤ 2 ^ 45
  sizes : ∀ i ∈ s.list, i.size ≤ 2 ^ 31
  mapped : ∀ i ∈ s.list, ∀ v, i.Has v → (s.vm.tables.walk cr3 v).isSome

theorem Placed.mem_pages {l : List VmInfo} (h : Placed l n) (hn : n ≤ 2 ^ 45) {i : VmInfo} (hi : i ∈ l)
    {v : ℕ} (hv : i.Has v) : v / 4096 ∈ vmallocPages := by
  obtain ⟨hstart, -⟩ := vmallocStart_eq
  have hlow := h.low i hi
  have hhigh := h.high i hi
  obtain ⟨h1, h2⟩ := hv
  rw [vmallocPages, Set.mem_ofPred_eq]
  generalize vmallocStart = start at hstart hlow hhigh ⊢
  omega

/-- A byte of a region lies on a page that the loop visits. -/
theorem VmInfo.Has.mem_pageAddrs {i : VmInfo} (ha : i.base % 4096 = 0) (hs : i.size ≤ 2 ^ 31) {v : ℕ}
    (hv : i.Has v) : ∃ a ∈ pageAddrs i.base (intRounds i.size), v / 4096 = a / 4096 := by
  obtain ⟨h1, h2⟩ := hv
  refine ⟨i.base + 4096 * ((v - i.base) / 4096), PointerOS.mem_pageAddrs.mpr ⟨_, ?_, rfl⟩, by omega⟩
  rw [intRounds]
  omega

/-- A page that the loop visits has a byte of the region. -/
theorem has_of_mem_pageAddrs {i : VmInfo} {a : ℕ} (hmem : a ∈ pageAddrs i.base (intRounds i.size)) :
    i.Has a := by
  obtain ⟨j, hj, rfl⟩ := PointerOS.mem_pageAddrs.mp hmem
  rw [intRounds] at hj
  exact ⟨by omega, by omega⟩

theorem pteWritable_flags : pteWritable < 4096 ∧ writable pteWritable = true ∧ userBit pteWritable = false := by
  decide

/-- A call maps the new region and changes no translation in another. -/
theorem vmalloc_step {info size : ℕ} (inv : VmallocInv roots own priv cr3 s n)
    (hb : PageMultipleBehind s.list size) (hs : size ≤ 2 ^ 31) (hn : n + size ≤ 2 ^ 45)
    (hx : (s.vmalloc cr3 info size).2.vm.pmm.exhausted = false) :
    VmallocInv roots own priv cr3 (s.vmalloc cr3 info size).2 (n + size) ∧
      ∀ i ∈ s.list, ∀ v, i.Has v →
        (s.vmalloc cr3 info size).2.vm.tables.walk cr3 v = s.vm.tables.walk cr3 v := by
  have hsame : VmallocInv roots own priv cr3 s (n + size) :=
    ⟨inv.window, inv.placed.mono (by omega), hn, inv.sizes, inv.mapped⟩
  by_cases h0 : size = 0
  · subst h0
    exact ⟨hsame, fun _ _ _ _ => rfl⟩
  by_cases hinfo : info = 0
  · subst hinfo
    have heq : (s.vmalloc cr3 0 size).2 = s := by
      unfold VmallocState.vmalloc
      rw [if_neg h0, if_pos rfl]
    rw [heq]
    exact ⟨hsame, fun _ _ _ _ => rfl⟩
  have hend := vmallocStart_eq.2
  have hfit : (vmAddToList s.list size).1 + size ≤ vmallocStart + (n + size) := by
    have := vmAddToList_le inv.placed size
    omega
  obtain ⟨hplaced, before, after, hold, hnew⟩ := vmAddToList_placed inv.placed hb (by omega) hfit
    (by omega) hn
  have hmem : ∀ i, i ∈ (vmAddToList s.list size).2 ↔ i = ⟨(vmAddToList s.list size).1, size⟩ ∨ i ∈ s.list :=
    fun i => by
      rw [hnew, hold]
      simp only [List.mem_append, List.mem_cons]
      tauto
  have hi := (hmem _).mpr (.inl rfl)
  obtain ⟨hsize, hend'⟩ := hplaced.bounds hn hi
  rw [VmallocState.vmalloc_eq h0 hinfo hsize hend'] at hx ⊢
  generalize vmAddToList s.list size = added at hx hplaced hnew hmem hi ⊢
  obtain ⟨base, list⟩ := added
  dsimp only at hx hplaced hnew hmem hi ⊢
  obtain ⟨hf, hw, hu⟩ := pteWritable_flags
  obtain ⟨hwin, hall, hrest⟩ := mapPages_spec inv.window
    (fun v hv => hplaced.mem_pages hn hi (has_of_mem_pageAddrs hv)) hf hw hu hx
  have hkeep : ∀ j ∈ s.list, ∀ v, j.Has v →
      (s.vm.mapPages cr3 pteWritable (pageAddrs base (intRounds size))).tables.walk cr3 v =
        s.vm.tables.walk cr3 v := by
    intro j hj v hv
    have hjl : j ∈ list := (hmem j).mpr (.inr hj)
    have hij : j ≠ ⟨base, size⟩ := by
      rintro rfl
      exact (hnew ▸ hplaced).notMem (hold ▸ hj)
    refine hrest v (hplaced.mem_pages hn hjl hv) fun w hw => ?_
    exact hplaced.page_ne hjl hi hij hv (has_of_mem_pageAddrs hw)
  refine ⟨⟨hwin, hplaced, hn, ?_, ?_⟩, hkeep⟩
  · intro j hj
    rcases (hmem j).mp hj with rfl | hj
    · exact hs
    · exact inv.sizes j hj
  · intro j hj v hv
    rcases (hmem j).mp hj with rfl | hj'
    · obtain ⟨w, hw, hvw⟩ := hv.mem_pageAddrs (hplaced.aligned _ hj) hs
      exact hall v (hplaced.mem_pages hn hj hv) (.inl ⟨w, hw, hvw⟩)
    · exact hall v (hplaced.mem_pages hn hj hv) (.inr (inv.mapped j hj' v hv))

/-- Freeing a live region takes it out of the list. -/
theorem Placed.find_erase {l : List VmInfo} (h : Placed l n) {i : VmInfo} (hi : i ∈ l) :
    l.find? (·.base = i.base) = some i ∧ ∀ j, j ∈ l.eraseP (·.base = i.base) ↔ j ∈ l ∧ j ≠ i := by
  have hbase : ∀ j ∈ l, j.base = i.base → j = i := by
    intro j hj hji
    by_contra hne
    exact h.page_ne hj hi hne (v := j.base) (w := i.base) ⟨le_rfl, by have := h.pos j hj; omega⟩
      ⟨le_rfl, by have := h.pos i hi; omega⟩ (by rw [hji])
  obtain ⟨before, after, rfl⟩ := List.append_of_mem hi
  have hnot := h.notMem
  obtain ⟨hfind, herase⟩ := GapList.find_erase VmInfo.base hnot hbase
  refine ⟨hfind, fun j => ?_⟩
  rw [herase]
  simp only [List.mem_append, List.mem_cons] at hnot ⊢
  constructor
  · intro hj
    refine ⟨by tauto, ?_⟩
    rintro rfl
    exact hnot hj
  · tauto

/-- `vfree` unmaps the region, frees its frames and nothing else. -/
theorem vfree_step (inv : VmallocInv roots own priv cr3 s n) {i : VmInfo} (hi : i ∈ s.list) :
    VmallocInv roots own priv cr3 (s.vfree cr3 i.base) n ∧
      (∀ j ∈ s.list, j ≠ i → ∀ v, j.Has v →
        (s.vfree cr3 i.base).vm.tables.walk cr3 v = s.vm.tables.walk cr3 v) ∧
      (∀ v, i.Has v → (s.vfree cr3 i.base).vm.tables.walk cr3 v = none) ∧
      (∀ b, (s.vfree cr3 i.base).vm.pmm.pmm.used b = true ↔
        s.vm.pmm.pmm.used b = true ∧ ¬∃ v, i.Has v ∧ b = frameOf s.vm.tables cr3 v) ∧
      (∀ j, j ∈ (s.vfree cr3 i.base).list ↔ j ∈ s.list ∧ j ≠ i) := by
  obtain ⟨hfind, herase⟩ := inv.placed.find_erase hi
  obtain ⟨hsize, hend⟩ := inv.placed.bounds inv.bound hi
  have heq := VmallocState.vfree_eq cr3 hfind hsize hend
  obtain ⟨hwin, hgone, hrest, hused, -, -⟩ := freePages_spec inv.window
    (fun v hv => inv.placed.mem_pages inv.bound hi (has_of_mem_pageAddrs hv)) (pageAddrs_pairwise _ _)
  have hkeep : ∀ j ∈ s.list, j ≠ i → ∀ v, j.Has v →
      (s.vm.freePages cr3 (pageAddrs i.base (intRounds i.size))).tables.walk cr3 v =
        s.vm.tables.walk cr3 v := fun j hj hne v hv =>
    hrest v (inv.placed.mem_pages inv.bound hj hv) fun w hw =>
      inv.placed.page_ne hj hi hne hv (has_of_mem_pageAddrs hw)
  rw [heq]
  refine ⟨⟨hwin, inv.placed.erase _, inv.bound, ?_, ?_⟩, hkeep, ?_, fun b => ?_, herase⟩
  · exact fun j hj => inv.sizes j ((herase j).mp hj).1
  · intro j hj v hv
    obtain ⟨hj, hne⟩ := (herase j).mp hj
    rw [hkeep j hj hne v hv]
    exact inv.mapped j hj v hv
  · intro v hv
    obtain ⟨w, hw, hvw⟩ := hv.mem_pageAddrs (inv.placed.aligned i hi) (inv.sizes i hi)
    exact hgone w hw v hvw
  · rw [hused b]
    refine and_congr_right fun _ => ⟨?_, ?_⟩
    · rintro hno ⟨v, hv, rfl⟩
      obtain ⟨w, hw, hvw⟩ := hv.mem_pageAddrs (inv.placed.aligned i hi) (inv.sizes i hi)
      have hvW := inv.placed.mem_pages inv.bound hi hv
      refine hno w hw ⟨(inv.window.frameOf_congr hvW hvw.symm).symm, ?_⟩
      obtain ⟨x, hx⟩ := Option.isSome_iff_exists.mp (inv.mapped i hi v hv)
      rw [Window.frameOf_some hx]
      exact (inv.window.frames hvW hx).lt
    · rintro hno v hv ⟨rfl, -⟩
      exact hno ⟨v, has_of_mem_pageAddrs hv, rfl⟩

end Steps
/-! ## Runs -/

/-- What a state of the allocator owes the live regions. -/
structure OwnsPages (cr3 : ℕ) (s : VmallocState) : Prop where
  writable : ∀ i ∈ s.list, ∀ v, i.Has v → ∃ x, s.vm.tables.walk cr3 v = some x ∧ x.writable = true
  exclusive : ∀ i ∈ s.list, ∀ j ∈ s.list, ∀ v w, i.Has v → j.Has w → ∀ x y,
    s.vm.tables.walk cr3 v = some x → s.vm.tables.walk cr3 w = some y →
    x.paddr / 4096 = y.paddr / 4096 → i = j ∧ v / 4096 = w / 4096

/-- What `vfree` of the region `i` owes: its frames are free, and those only, and the other
regions stay mapped as they are. -/
structure FreesRegion (cr3 : ℕ) (s : VmallocState) (i : VmInfo) : Prop where
  frames : ∀ b, (s.vfree cr3 i.base).vm.pmm.pmm.used b = true ↔
    s.vm.pmm.pmm.used b = true ∧ ¬∃ v, i.Has v ∧ b = frameOf s.vm.tables cr3 v
  other : ∀ j ∈ s.list, j ≠ i → ∀ v, j.Has v →
    (s.vfree cr3 i.base).vm.tables.walk cr3 v = s.vm.tables.walk cr3 v

/-- Runs of the two calls in one address space. The number is the sum of the sizes asked
for, which stays within the 2 ^ 45 bytes from `vmallocStart` to the heap; `Ok` is a
condition on the list and the size before a call. -/
inductive VmallocRun (Ok : List VmInfo → ℕ → Prop) (cr3 : ℕ) (vm₀ : Vm FrameSource) :
    VmallocState → ℕ → Prop
  | init : VmallocRun Ok cr3 vm₀ ⟨vm₀, []⟩ 0
  | vmalloc {s : VmallocState} {n : ℕ} (h : VmallocRun Ok cr3 vm₀ s n) (info size : ℕ)
      (hok : Ok s.list size) (hn : n + size ≤ 2 ^ 45)
      (hx : (s.vmalloc cr3 info size).2.vm.pmm.exhausted = false) :
      VmallocRun Ok cr3 vm₀ (s.vmalloc cr3 info size).2 (n + size)
  | vfree {s : VmallocState} {n : ℕ} (h : VmallocRun Ok cr3 vm₀ s n) {i : VmInfo} (hi : i ∈ s.list) :
      VmallocRun Ok cr3 vm₀ (s.vfree cr3 i.base) n

/-- Page ownership in every run whose calls meet `Ok`. -/
def PageOwnership (Ok : List VmInfo → ℕ → Prop) (cr3 : ℕ) (vm₀ : Vm FrameSource) : Prop :=
  ∀ s n, VmallocRun Ok cr3 vm₀ s n → OwnsPages cr3 s ∧
    (∀ info size, Ok s.list size → n + size ≤ 2 ^ 45 →
      (s.vmalloc cr3 info size).2.vm.pmm.exhausted = false → ∀ i ∈ s.list, ∀ v, i.Has v →
        (s.vmalloc cr3 info size).2.vm.tables.walk cr3 v = s.vm.tables.walk cr3 v) ∧
    ∀ i ∈ s.list, FreesRegion cr3 s i

/-- The new region starts on a page boundary, and the `int` counter of the loop reaches its end. -/
def StartsOnPage (l : List VmInfo) (size : ℕ) : Prop :=
  size ≠ 0 → PageMultipleBehind l size ∧ size ≤ 2 ^ 31

section Runs
variable {roots own : Set ℕ} {priv : Set (Fin 512)} {cr3 : ℕ} {s : VmallocState} {n : ℕ}

theorem VmallocInv.vmalloc {info size : ℕ} (inv : VmallocInv roots own priv cr3 s n)
    (hok : StartsOnPage s.list size) (hn : n + size ≤ 2 ^ 45)
    (hx : (s.vmalloc cr3 info size).2.vm.pmm.exhausted = false) :
    VmallocInv roots own priv cr3 (s.vmalloc cr3 info size).2 (n + size) ∧
      ∀ i ∈ s.list, ∀ v, i.Has v →
        (s.vmalloc cr3 info size).2.vm.tables.walk cr3 v = s.vm.tables.walk cr3 v := by
  by_cases h0 : size = 0
  · subst h0
    have heq : (s.vmalloc cr3 info 0).2 = s := rfl
    rw [heq]
    exact ⟨inv, fun _ _ _ _ => rfl⟩
  · exact vmalloc_step inv (hok h0).1 (hok h0).2 hn hx

theorem VmallocRun.inv {vm₀ : Vm FrameSource} (h₀ : Window vmallocPages roots own priv cr3 vm₀)
    (h : VmallocRun StartsOnPage cr3 vm₀ s n) : VmallocInv roots own priv cr3 s n := by
  induction h with
  | init =>
    exact ⟨h₀, ⟨by simp, by simp, by simp, by simp, .nil⟩, by simp, by simp, by simp⟩
  | vmalloc _ info size hok hn hx ih => exact (ih.vmalloc hok hn hx).1
  | vfree _ hi ih => exact (vfree_step ih hi).1

theorem VmallocInv.ownsPages (inv : VmallocInv roots own priv cr3 s n) : OwnsPages cr3 s where
  writable := by
    intro i hi v hv
    obtain ⟨x, hx⟩ := Option.isSome_iff_exists.mp (inv.mapped i hi v hv)
    rcases inv.window.entry_cases (inv.placed.mem_pages inv.bound hi hv) with ⟨hn, -⟩ | ⟨pt, u, -, -, hw, -⟩
    · rw [hx] at hn
      exact nomatch hn
    · exact ⟨_, hw, rfl⟩
  exclusive := by
    intro i hi j hj v w hv hw x y hx hy hxy
    have hpage := inv.window.inj (inv.placed.mem_pages inv.bound hi hv)
      (inv.placed.mem_pages inv.bound hj hw) hx hy hxy
    refine ⟨?_, hpage⟩
    by_contra hij
    exact inv.placed.page_ne hi hj hij hv hw hpage

/-- As long as every region starts on a page boundary, the live regions own their pages. -/
theorem vmalloc_page_ownership {vm₀ : Vm FrameSource}
    (h₀ : Window vmallocPages roots own priv cr3 vm₀) : PageOwnership StartsOnPage cr3 vm₀ := by
  intro s n h
  have inv := h.inv h₀
  refine ⟨inv.ownsPages, fun info size hok hn hx => (inv.vmalloc hok hn hx).2, fun i hi => ?_⟩
  obtain ⟨-, hother, -, hused, -⟩ := vfree_step inv hi
  exact ⟨hused, hother⟩

end Runs

/-- Empty tables with the PML4 in frame 1, and frames 2 to 15 free. -/
def emptySpace : Vm FrameSource :=
  { tables := fun _ _ => 0, pmm := ⟨⟨fun i => if i = 0 then 3 else 0, 16⟩, false⟩ }

theorem emptySpace_window :
    Window vmallocPages {0x1000} {0x1000} {i | 384 ≤ i.val ∧ i.val < 448} 0x1000 emptySpace := by
  refine .of_empty (fun _ _ => rfl) ⟨fun {v} hv => ?_, fun {a b} ha hb hab => ?_⟩ rfl (by decide) (by decide)
    (by decide)
  · obtain ⟨hmod, hend⟩ := vmallocStart_eq
    obtain ⟨h1, h2⟩ := hv
    change 384 ≤ v / 2 ^ 39 % 512 ∧ v / 2 ^ 39 % 512 < 448
    generalize vmallocStart = start at hmod hend h1 h2
    omega
  · obtain ⟨ha1, ha2⟩ := ha
    obtain ⟨hb1, hb2⟩ := hb
    generalize vmallocStart / 4096 = page at ha1 ha2 hb1 hb2
    omega

/-- Two regions of one page each. -/
def twoRegions : VmallocState :=
  ((⟨emptySpace, []⟩ : VmallocState).vmalloc 0x1000 1 0x1000).2.vmalloc 0x1000 1 0x1000 |>.2

theorem vmalloc_page_ownership_two_regions :
    OwnsPages 0x1000 twoRegions ∧ twoRegions.list.length = 2 := by
  have hrun : VmallocRun StartsOnPage 0x1000 emptySpace twoRegions (0 + 0x1000 + 0x1000) := by
    refine .vmalloc (.vmalloc .init 1 0x1000 ?_ (by decide) (by decide +kernel)) 1 0x1000 ?_ (by decide)
      (by decide +kernel)
    · exact fun _ => ⟨trivial, by decide⟩
    · exact fun _ => ⟨by decide +kernel, by decide⟩
  exact ⟨(vmalloc_page_ownership emptySpace_window _ _ hrun).1, by decide +kernel⟩

/-- A second region of 100 bytes is mapped over the page of the first. -/
theorem vmalloc_remaps_page : ¬PageOwnership (fun _ _ => True) 0x1000 emptySpace := by
  intro h
  have hrun : VmallocRun (fun _ _ => True) 0x1000 emptySpace
      ((⟨emptySpace, []⟩ : VmallocState).vmalloc 0x1000 1 100).2 (0 + 100) :=
    .vmalloc .init 1 100 trivial (by decide) (by decide +kernel)
  have hsame := (h _ _ hrun).2.1 1 100 trivial (by decide) (by decide +kernel) ⟨vmallocStart, 100⟩
    (by decide +kernel) vmallocStart ⟨by decide, by decide⟩
  revert hsame
  decide +kernel

end PointerOS
