import PointerOS.Stack

/-!
# Reserved frames

The regions of `vmalloc` and the stacks of `user_alloc_stack` in one address space.
Beside the state runs the set of the frames that `pmm_alloc_page` has handed out: as
long as each page that a call unmaps was mapped, only frames of this set are freed.
-/
namespace PointerOS
open Tables FrameSource GapList

/-- The tables and the page allocator, the list of `vmalloc` and the list of the process. -/
structure AddressSpace where
  vm : Vm FrameSource
  regions : List VmInfo
  userStacks : List UsInfo

namespace AddressSpace

def vmalloc (s : AddressSpace) (cr3 info size : ℕ) : AddressSpace :=
  let t := ((⟨s.vm, s.regions⟩ : VmallocState).vmalloc cr3 info size).2
  { s with vm := t.vm, regions := t.list }

def vfree (s : AddressSpace) (cr3 ptr : ℕ) : AddressSpace :=
  let t := (⟨s.vm, s.regions⟩ : VmallocState).vfree cr3 ptr
  { s with vm := t.vm, regions := t.list }

def userAllocStack (s : AddressSpace) (cr3 info size : ℕ) : AddressSpace :=
  let t := ((⟨s.vm, s.userStacks⟩ : StackState).userAllocStack cr3 info size).2
  { s with vm := t.vm, userStacks := t.list }

def userFreeStack (s : AddressSpace) (cr3 ptr : ℕ) : AddressSpace :=
  let t := (⟨s.vm, s.userStacks⟩ : StackState).userFreeStack cr3 ptr
  { s with vm := t.vm, userStacks := t.list }

/-- The frames that a call took. -/
def taken (s s' : AddressSpace) : Set ℕ := {b | s.vm.pmm.pmm.used b = false ∧ s'.vm.pmm.pmm.used b = true}

end AddressSpace

/-- Runs of the four calls after boot, with the frames handed out since. The regions lie in the
`2 ^ 45` bytes from `vmallocStart` to the heap and the stacks in the `area` bytes below
`userStackMax`; `Ok` is a condition on a call of `user_free_stack`. -/
inductive AddressSpaceRun (Ok : AddressSpace → UsInfo → Prop) (area cr3 : ℕ) (vm₀ : Vm FrameSource) :
    AddressSpace → Set ℕ → Prop
  | init : AddressSpaceRun Ok area cr3 vm₀ ⟨vm₀, [], []⟩ ∅
  | vmalloc {s : AddressSpace} {used : Set ℕ} (h : AddressSpaceRun Ok area cr3 vm₀ s used) (info size : ℕ)
      (hsize : size % 4096 = 0) (hfit : (vmAddToList s.regions size).1 + size ≤ vmallocStart + 2 ^ 45)
      (hx : (s.vmalloc cr3 info size).vm.pmm.exhausted = false) :
      AddressSpaceRun Ok area cr3 vm₀ (s.vmalloc cr3 info size) (used ∪ s.taken (s.vmalloc cr3 info size))
  | vfree {s : AddressSpace} {used : Set ℕ} (h : AddressSpaceRun Ok area cr3 vm₀ s used) {i : VmInfo}
      (hi : i ∈ s.regions) : AddressSpaceRun Ok area cr3 vm₀ (s.vfree cr3 i.base) used
  | userAllocStack {s : AddressSpace} {used : Set ℕ} (h : AddressSpaceRun Ok area cr3 vm₀ s used) (info size : ℕ)
      (hsize : size % 4096 = 0) (hfit : userStackMax + size ≤ (usAddToList s.userStacks size).1 + area)
      (hx : (s.userAllocStack cr3 info size).vm.pmm.exhausted = false) :
      AddressSpaceRun Ok area cr3 vm₀ (s.userAllocStack cr3 info size)
        (used ∪ s.taken (s.userAllocStack cr3 info size))
  | userFreeStack {s : AddressSpace} {used : Set ℕ} (h : AddressSpaceRun Ok area cr3 vm₀ s used) {i : UsInfo}
      (hi : i ∈ s.userStacks) (hok : Ok s i) : AddressSpaceRun Ok area cr3 vm₀ (s.userFreeStack cr3 i.base) used

/-- A frame in use after boot that was not handed out since is still in use. -/
def ReservedStay (Ok : AddressSpace → UsInfo → Prop) (area cr3 : ℕ) (vm₀ : Vm FrameSource) : Prop :=
  ∀ s used, AddressSpaceRun Ok area cr3 vm₀ s used →
    ∀ b, vm₀.pmm.pmm.used b = true → b ∉ used → s.vm.pmm.pmm.used b = true

/-- Every page that the loop of `user_free_stack` visits is mapped, or frame 0, which is freed
for a page that is not, is not in use. -/
def VisitsMapped (cr3 : ℕ) (s : AddressSpace) (i : UsInfo) : Prop :=
  (∀ v ∈ freedAddrs i.base (intRounds i.size), (s.vm.tables.walk cr3 v).isSome) ∨
    s.vm.pmm.pmm.used 0 = false ∨ s.vm.pmm.pmm.totalPages = 0

/-! ## The frames behind the pages -/

/-- Every mapped page of the window has a frame of the set. -/
def BackedBy (W : Set ℕ) (r : ℕ) (vm : Vm FrameSource) (used : Set ℕ) : Prop :=
  ∀ v, v / 4096 ∈ W → ∀ x, vm.tables.walk r v = some x → x.paddr / 4096 ∈ used

/-- A call that maps pages frees no frame, unmaps no page, and backs its pages by frames that it
took. -/
structure TakesInto (W : Set ℕ) (r : ℕ) (vm vm' : Vm FrameSource) : Prop where
  mono : ∀ b, vm.pmm.pmm.used b = true → vm'.pmm.pmm.used b = true
  mapped : ∀ v, v / 4096 ∈ W → (vm.tables.walk r v).isSome → (vm'.tables.walk r v).isSome
  backed : ∀ used, BackedBy W r vm used →
    BackedBy W r vm' (used ∪ {b | vm.pmm.pmm.used b = false ∧ vm'.pmm.pmm.used b = true})

section Pages
variable {W roots own : Set ℕ} {priv : Set (Fin 512)} {r v flags : ℕ} {vm vm' : Vm FrameSource}

theorem Mapped.takesInto {k : ℕ} {made : List ℕ} (hm : Mapped W roots own priv r v flags vm vm' k made)
    (h : Window W roots own priv r vm) (hv : v / 4096 ∈ W) : TakesInto W r vm vm' where
  mono := fun b hb => by rw [hm.taken.used, hb, Bool.true_or]
  mapped := by
    intro w hw hs
    by_cases hwv : w / 4096 = v / 4096
    · rw [hm.page w hwv]
      rfl
    · have hrel := hm.other r h.mem_roots w fun _ hmod => hwv (h.isWindow.distinct hw hv hmod)
      generalize vm.tables.walk r w = x at hrel hs
      generalize vm'.tables.walk r w = y at hrel
      cases hrel with
      | none => exact hs
      | some _ => rfl
  backed := by
    intro used hback w hw x hx
    by_cases hwv : w / 4096 = v / 4096
    · right
      rw [hm.page w hwv] at hx
      obtain rfl := Option.some.inj hx
      have hk : (k * 4096 + w % 4096) / 4096 = k := by omega
      dsimp only
      rw [hk]
      exact ⟨hm.fresh, by rw [hm.taken.used, decide_eq_true (List.mem_cons_self ..), Bool.or_true]⟩
    · left
      have hrel := hm.other r h.mem_roots w fun _ hmod => hwv (h.isWindow.distinct hw hv hmod)
      rw [hx] at hrel
      obtain ⟨y, hy, hxy⟩ := raised_some hrel
      rw [hxy]
      exact hback w hw y hy

theorem mapPages_takesInto {l : List ℕ} (h : Window W roots own priv r vm) (hl : ∀ v ∈ l, v / 4096 ∈ W)
    (hf : flags < 4096) (hw : writable flags = true)
    (hx : (vm.mapPages r flags l).pmm.exhausted = false) : TakesInto W r vm (vm.mapPages r flags l) := by
  induction l generalizing vm with
  | nil => exact ⟨fun _ hb => hb, fun _ _ hs => hs, fun used hback v hv x hx => .inl (hback v hv x hx)⟩
  | cons v l ih =>
    have hv := hl v (List.mem_cons_self ..)
    obtain ⟨k, made, hm⟩ := mapNewPage_spec h hv hf hw (mapPages_exhausted (l := l) hx)
    have hone := hm.takesInto h hv
    have hrest := ih hm.window (fun w hw => hl w (List.mem_cons_of_mem _ hw)) hx
    refine ⟨fun b hb => hrest.mono b (hone.mono b hb),
      fun w hw hs => hrest.mapped w hw (hone.mapped w hw hs), fun used hback w hw x hwx => ?_⟩
    rcases hrest.backed _ (hone.backed used hback) w hw x hwx with (hu | ⟨hb, hb'⟩) | ⟨hb, hb'⟩
    · exact .inl hu
    · exact .inr ⟨hb, hrest.mono _ hb'⟩
    · refine .inr ⟨?_, hb'⟩
      by_contra hne
      rw [hone.mono _ (Bool.not_eq_false _ ▸ hne)] at hb
      exact nomatch hb

/-- Freeing pages that are mapped frees only frames of the set. -/
theorem freePages_backed {l : List ℕ} {used : Set ℕ} (h : Window W roots own priv r vm)
    (hl : ∀ v ∈ l, v / 4096 ∈ W) (hd : l.Pairwise fun v w => v / 4096 ≠ w / 4096)
    (hback : BackedBy W r vm used)
    (hok : (∀ v ∈ l, (vm.tables.walk r v).isSome) ∨ vm.pmm.pmm.used 0 = false ∨ vm.pmm.pmm.totalPages = 0) :
    BackedBy W r (vm.freePages r l) used ∧
      ∀ b, b ∉ used → vm.pmm.pmm.used b = true → (vm.freePages r l).pmm.pmm.used b = true := by
  obtain ⟨-, hgone, hrest, hused, -, -⟩ := freePages_spec h hl hd
  constructor
  · intro w hw x hx
    by_cases hvis : ∃ v ∈ l, w / 4096 = v / 4096
    · obtain ⟨v, hv, hwv⟩ := hvis
      rw [hgone v hv w hwv] at hx
      cases hx
    · rw [hrest w hw fun v hv hwv => hvis ⟨v, hv, hwv⟩] at hx
      exact hback w hw x hx
  · intro b hb hub
    refine (hused b).mpr ⟨hub, fun v hv hfreed => ?_⟩
    obtain ⟨hbv, hlt⟩ := hfreed
    cases hx : vm.tables.walk r v with
    | none =>
      have hb0 : b = 0 := by
        rw [hbv, frameOf, hx]
        rfl
      subst hb0
      rcases hok with hm | h0 | h0
      · have := hm v hv
        rw [hx] at this
        cases this
      · rw [h0] at hub
        cases hub
      · omega
    | some x =>
      rw [hbv, Window.frameOf_some hx] at hb
      exact hb (hback v (hl v hv) x hx)

end Pages

/-! ## Runs -/

/-- The pages of both lists. -/
def spacePages (area : ℕ) : Set ℕ := vmallocPages ∪ stackPages area

theorem notMem_stackPages {area P : ℕ} (h : P ∈ vmallocPages) : P ∉ stackPages area := by
  rintro ⟨-, hP⟩
  have hmax := userStackMax_eq
  have hend := vmallocStart_eq.2
  have hlow := h.1
  omega

structure AddressSpaceInv (roots own : Set ℕ) (priv : Set (Fin 512)) (area cr3 : ℕ) (vm₀ : Vm FrameSource)
    (s : AddressSpace) (used : Set ℕ) : Prop where
  window : Window (spacePages area) roots own priv cr3 s.vm
  placed : Placed s.regions (2 ^ 45)
  pages : ∀ i ∈ s.regions, i.size % 4096 = 0
  mapped : ∀ i ∈ s.regions, ∀ v ∈ pageAddrs i.base (intRounds i.size), (s.vm.tables.walk cr3 v).isSome
  stacked : Stacked s.userStacks area
  backed : BackedBy (spacePages area) cr3 s.vm used
  reserved : ∀ b, vm₀.pmm.pmm.used b = true → b ∉ used → s.vm.pmm.pmm.used b = true

section Runs
variable {roots own : Set ℕ} {priv : Set (Fin 512)} {area cr3 : ℕ} {vm₀ : Vm FrameSource}
  {s : AddressSpace} {used : Set ℕ}

theorem pageMultipleBehind_of_pages {l : List VmInfo} (h : ∀ i ∈ l, i.size % 4096 = 0) (size : ℕ) :
    PageMultipleBehind l size := by
  cases l with
  | nil => exact trivial
  | cons head rest =>
    obtain ⟨heq, -⟩ := findGap_spec (VmFits size) head rest
    refine h _ ?_
    rw [heq]
    exact List.mem_append_right _ (List.mem_cons_self ..)

namespace AddressSpaceInv

theorem region_mem (inv : AddressSpaceInv roots own priv area cr3 vm₀ s used) {i : VmInfo} (hi : i ∈ s.regions)
    {v : ℕ} (hv : v ∈ pageAddrs i.base (intRounds i.size)) : v / 4096 ∈ vmallocPages :=
  inv.placed.mem_pages le_rfl hi (has_of_mem_pageAddrs hv)

/-- A frame in use is still in use after a call that frees none. -/
theorem reserved_takes {vm' : Vm FrameSource} (inv : AddressSpaceInv roots own priv area cr3 vm₀ s used)
    (ht : TakesInto (spacePages area) cr3 s.vm vm') (taken : Set ℕ) :
    ∀ b, vm₀.pmm.pmm.used b = true → b ∉ used ∪ taken → vm'.pmm.pmm.used b = true := fun b hb hu =>
  ht.mono b (inv.reserved b hb fun h => hu (.inl h))

theorem mono {used' : Set ℕ} (inv : AddressSpaceInv roots own priv area cr3 vm₀ s used) (h : used ⊆ used') :
    AddressSpaceInv roots own priv area cr3 vm₀ s used' where
  window := inv.window
  placed := inv.placed
  pages := inv.pages
  mapped := inv.mapped
  stacked := inv.stacked
  backed := fun v hv x hx => h (inv.backed v hv x hx)
  reserved := fun b hb hu => inv.reserved b hb fun hmem => hu (h hmem)

theorem vmalloc (inv : AddressSpaceInv roots own priv area cr3 vm₀ s used) {info size : ℕ}
    (hsize : size % 4096 = 0) (hfit : (vmAddToList s.regions size).1 + size ≤ vmallocStart + 2 ^ 45)
    (hx : (s.vmalloc cr3 info size).vm.pmm.exhausted = false) :
    AddressSpaceInv roots own priv area cr3 vm₀ (s.vmalloc cr3 info size)
      (used ∪ s.taken (s.vmalloc cr3 info size)) := by
  by_cases h0 : size = 0
  · subst h0
    exact inv.mono Set.subset_union_left
  by_cases hinfo : info = 0
  · subst hinfo
    have heq : s.vmalloc cr3 0 size = s := by
      unfold AddressSpace.vmalloc VmallocState.vmalloc
      rw [if_neg h0, if_pos rfl]
    rw [heq]
    exact inv.mono Set.subset_union_left
  obtain ⟨hplaced, before, after, hold, hnew⟩ := vmAddToList_placed inv.placed
    (pageMultipleBehind_of_pages inv.pages size) (by omega) hfit le_rfl le_rfl
  have hmem : ∀ i, i ∈ (vmAddToList s.regions size).2 ↔
      i = ⟨(vmAddToList s.regions size).1, size⟩ ∨ i ∈ s.regions := fun i => by
    rw [hnew, hold]
    simp only [List.mem_append, List.mem_cons]
    tauto
  have hi := (hmem _).mpr (.inl rfl)
  obtain ⟨hend, hend'⟩ := hplaced.bounds le_rfl hi
  have heq : s.vmalloc cr3 info size =
      { vm := s.vm.mapPages cr3 pteWritable (pageAddrs (vmAddToList s.regions size).1 (intRounds size))
        regions := (vmAddToList s.regions size).2, userStacks := s.userStacks } := by
    unfold AddressSpace.vmalloc
    rw [VmallocState.vmalloc_eq h0 hinfo hend hend']
  rw [heq] at hx ⊢
  generalize vmAddToList s.regions size = added at hx hplaced hmem hi ⊢
  obtain ⟨base, list⟩ := added
  dsimp only at hx hplaced hmem hi ⊢
  have hl : ∀ v ∈ pageAddrs base (intRounds size), v / 4096 ∈ spacePages area := fun v hv =>
    .inl (hplaced.mem_pages le_rfl hi (has_of_mem_pageAddrs hv))
  obtain ⟨hf, hw, hu⟩ := pteWritable_flags
  obtain ⟨hwin, hall, -⟩ := mapPages_spec inv.window hl hf hw hu hx
  have ht := mapPages_takesInto inv.window hl hf hw hx
  refine ⟨hwin, hplaced, fun i hi => ?_, fun i hi v hv => ?_, inv.stacked, ht.backed used inv.backed,
    inv.reserved_takes ht _⟩
  · rcases (hmem i).mp hi with rfl | hi
    · exact hsize
    · exact inv.pages i hi
  · rcases (hmem i).mp hi with rfl | hi
    · exact hall v (hl v hv) (.inl ⟨v, hv, rfl⟩)
    · exact ht.mapped v (.inl (inv.region_mem hi hv)) (inv.mapped i hi v hv)

theorem userAllocStack (inv : AddressSpaceInv roots own priv area cr3 vm₀ s used) (harea : area ≤ userStackMax)
    {info size : ℕ} (hsize : size % 4096 = 0)
    (hfit : userStackMax + size ≤ (usAddToList s.userStacks size).1 + area)
    (hx : (s.userAllocStack cr3 info size).vm.pmm.exhausted = false) :
    AddressSpaceInv roots own priv area cr3 vm₀ (s.userAllocStack cr3 info size)
      (used ∪ s.taken (s.userAllocStack cr3 info size)) := by
  by_cases h0 : size = 0
  · subst h0
    exact inv.mono Set.subset_union_left
  by_cases hinfo : info = 0
  · subst hinfo
    have heq : s.userAllocStack cr3 0 size = s := by
      unfold AddressSpace.userAllocStack StackState.userAllocStack
      rw [if_neg h0, if_pos rfl]
    rw [heq]
    exact inv.mono Set.subset_union_left
  obtain ⟨hstacked, before, after, -, hnew⟩ := usAddToList_stacked inv.stacked (by omega) hsize hfit harea
  have heq : s.userAllocStack cr3 info size =
      { vm := s.vm.mapNewPage cr3 (sub64 (usAddToList s.userStacks size).1 pageSize4KB) (pteWritable ||| pteUser)
        regions := s.regions, userStacks := (usAddToList s.userStacks size).2 } := by
    unfold AddressSpace.userAllocStack StackState.userAllocStack
    rw [if_neg h0, if_neg hinfo]
  rw [heq] at hx ⊢
  generalize usAddToList s.userStacks size = added at hx hstacked hnew ⊢
  obtain ⟨base, list⟩ := added
  dsimp only at hx hstacked hnew ⊢
  have hi : (⟨base, size⟩ : UsInfo) ∈ list := by
    rw [hnew]
    exact List.mem_append_right _ (List.mem_cons_self ..)
  have hmem := Set.mem_union_right vmallocPages (hstacked.top_mem harea hi)
  obtain ⟨hf, hw, -⟩ := pteUser_flags
  obtain ⟨k, made, hm⟩ := mapNewPage_spec inv.window hmem hf hw hx
  have ht := hm.takesInto inv.window hmem
  exact ⟨hm.window, inv.placed, inv.pages,
    fun i hi v hv => ht.mapped v (.inl (inv.region_mem hi hv)) (inv.mapped i hi v hv), hstacked,
    ht.backed used inv.backed, inv.reserved_takes ht _⟩

theorem vfree (inv : AddressSpaceInv roots own priv area cr3 vm₀ s used) {i : VmInfo} (hi : i ∈ s.regions) :
    AddressSpaceInv roots own priv area cr3 vm₀ (s.vfree cr3 i.base) used := by
  obtain ⟨hfind, herase⟩ := inv.placed.find_erase hi
  obtain ⟨hsize, hend⟩ := inv.placed.bounds le_rfl hi
  have heq : s.vfree cr3 i.base =
      { s with
        vm := s.vm.freePages cr3 (pageAddrs i.base (intRounds i.size))
        regions := s.regions.eraseP (·.base = i.base) } := by
    unfold AddressSpace.vfree
    rw [VmallocState.vfree_eq (s := ⟨s.vm, s.regions⟩) cr3 hfind hsize hend]
  have hl : ∀ v ∈ pageAddrs i.base (intRounds i.size), v / 4096 ∈ spacePages area := fun v hv =>
    .inl (inv.region_mem hi hv)
  obtain ⟨hwin, -, hrest, -, -, -⟩ := freePages_spec inv.window hl (pageAddrs_pairwise _ _)
  obtain ⟨hback, hkeep⟩ := freePages_backed inv.window hl (pageAddrs_pairwise _ _) inv.backed
    (.inl (inv.mapped i hi))
  rw [heq]
  refine ⟨hwin, inv.placed.erase _, fun j hj => inv.pages j ((herase j).mp hj).1, fun j hj v hv => ?_,
    inv.stacked, hback, fun b hb hu => hkeep b hu (inv.reserved b hb hu)⟩
  obtain ⟨hj, hne⟩ := (herase j).mp hj
  dsimp only
  rw [hrest v (.inl (inv.region_mem hj hv)) fun w hw =>
    inv.placed.page_ne hj hi hne (has_of_mem_pageAddrs hv) (has_of_mem_pageAddrs hw)]
  exact inv.mapped j hj v hv

theorem userFreeStack (inv : AddressSpaceInv roots own priv area cr3 vm₀ s used) (harea : area ≤ userStackMax)
    {i : UsInfo} (hi : i ∈ s.userStacks) (hok : VisitsMapped cr3 s i) :
    AddressSpaceInv roots own priv area cr3 vm₀ (s.userFreeStack cr3 i.base) used := by
  have hst := inv.stacked
  have heq : s.userFreeStack cr3 i.base =
      { s with
        vm := s.vm.freePages cr3 (freedAddrs i.base (intRounds i.size))
        userStacks := s.userStacks.eraseP (·.base = i.base) } := by
    unfold AddressSpace.userFreeStack
    rw [hst.free_eq (s := ⟨s.vm, s.userStacks⟩) cr3 harea hi]
  have hl : ∀ v ∈ freedAddrs i.base (intRounds i.size), v / 4096 ∈ spacePages area := fun v hv =>
    .inr (hst.freed_mem harea hi hv)
  have hd := hst.freed_pairwise harea hi
  obtain ⟨hwin, -, hrest, -, -, -⟩ := freePages_spec inv.window hl hd
  obtain ⟨hback, hkeep⟩ := freePages_backed inv.window hl hd inv.backed hok
  rw [heq]
  refine ⟨hwin, inv.placed, inv.pages, fun j hj v hv => ?_, hst.erase _, hback,
    fun b hb hu => hkeep b hu (inv.reserved b hb hu)⟩
  have hvr := inv.region_mem hj hv
  dsimp only
  rw [hrest v (.inl hvr) fun w hw hvw => notMem_stackPages hvr (hvw ▸ hst.freed_mem harea hi hw)]
  exact inv.mapped j hj v hv

end AddressSpaceInv

theorem AddressSpaceRun.inv (h₀ : Window (spacePages area) roots own priv cr3 vm₀)
    (hempty : ∀ v, v / 4096 ∈ spacePages area → vm₀.tables.walk cr3 v = none) (harea : area ≤ userStackMax)
    (h : AddressSpaceRun (VisitsMapped cr3) area cr3 vm₀ s used) :
    AddressSpaceInv roots own priv area cr3 vm₀ s used := by
  induction h with
  | init =>
    refine ⟨h₀, ⟨by simp, by simp, by simp, by simp, .nil⟩, by simp, by simp,
      ⟨by simp, by simp, by simp, by simp, by simp, .nil⟩, fun v hv x hx => ?_, fun _ hb _ => hb⟩
    rw [hempty v hv] at hx
    exact nomatch hx
  | vmalloc _ info size hsize hfit hx ih => exact ih.vmalloc hsize hfit hx
  | vfree _ hi ih => exact ih.vfree hi
  | userAllocStack _ info size hsize hfit hx ih => exact ih.userAllocStack harea hsize hfit hx
  | userFreeStack _ hi hok ih => exact ih.userFreeStack harea hi hok

/-- As long as `user_free_stack` visits mapped pages only, reserved frames stay reserved. -/
theorem reserved_frames_stay (h₀ : Window (spacePages area) roots own priv cr3 vm₀)
    (hempty : ∀ v, v / 4096 ∈ spacePages area → vm₀.tables.walk cr3 v = none) (harea : area ≤ userStackMax) :
    ReservedStay (VisitsMapped cr3) area cr3 vm₀ := fun _ _ h =>
  (h.inv h₀ hempty harea).reserved

end Runs
theorem isWindow_spacePages :
    IsWindow (spacePages userStackMax) {i | i.val < 256 ∨ 384 ≤ i.val ∧ i.val < 448} := by
  obtain ⟨hmod, hend⟩ := vmallocStart_eq
  refine ⟨fun {v} hv => ?_, fun {a b} ha hb hab => ?_⟩
  · rcases hv with hv | hv
    · exact .inr (emptySpace_window.isWindow.slots hv)
    · exact .inl (isWindow_stackPages.slots hv)
  · have hmax := userStackMax_eq
    rcases ha with ⟨ha1, ha2⟩ | ⟨-, ha⟩ <;> rcases hb with ⟨hb1, hb2⟩ | ⟨-, hb⟩
    all_goals
      generalize vmallocStart = start at *
      generalize userStackMax = top at *
      omega

/-- Two stacks of a page, of which the lower one is freed, and a region of `vmalloc`. -/
def stackAndRegion : AddressSpace :=
  let s : AddressSpace := ⟨emptySpace, [], []⟩
  (((s.userAllocStack 0x1000 1 0x1000).userAllocStack 0x1000 1 0x1000).userFreeStack 0x1000
    (userStackMax - 0x1000)).vmalloc 0x1000 1 0x1000

theorem reserved_frame_stays : stackAndRegion.vm.pmm.pmm.used 0 = true := by
  have hwin : Window (spacePages userStackMax) {0x1000} {0x1000} _ 0x1000 emptySpace :=
    .of_empty (fun _ _ => rfl) isWindow_spacePages rfl (by decide) (by decide) (by decide)
  have hempty : ∀ v, emptySpace.tables.walk 0x1000 v = none := fun v =>
    walkFrom_absent (show present 0 = false by decide)
  have hrun : AddressSpaceRun (VisitsMapped 0x1000) userStackMax 0x1000 emptySpace stackAndRegion _ :=
    .vmalloc (.userFreeStack (i := ⟨userStackMax - 0x1000, 0x1000⟩) (.userAllocStack (.userAllocStack .init 1
      0x1000 (by decide) (by decide) (by decide +kernel)) 1 0x1000 (by decide) (by decide +kernel)
      (by decide +kernel)) (by decide +kernel) (.inl (by decide +kernel))) 1 0x1000 (by decide)
      (by decide +kernel) (by decide +kernel)
  refine reserved_frames_stay hwin (fun v _ => hempty v) le_rfl _ _ hrun 0 (by decide) ?_
  rintro (((h | ⟨h, -⟩) | ⟨h, -⟩) | ⟨h, -⟩)
  · exact h
  all_goals
    revert h
    decide +kernel

/-- Freeing the only stack frees frame 0. -/
theorem user_free_stack_frees_frame_zero :
    ¬ReservedStay (fun _ _ => True) userStackMax 0x1000 emptySpace := by
  intro h
  have hrun : AddressSpaceRun (fun _ _ => True) userStackMax 0x1000 emptySpace _ _ :=
    .userFreeStack (i := ⟨userStackMax, 0x1000⟩) (.userAllocStack .init 1 0x1000 (by decide) (by decide)
      (by decide +kernel)) (by decide +kernel) trivial
  have hused := h _ _ hrun 0 (by decide) (by rintro (h | ⟨h, -⟩) <;> exact nomatch h)
  revert hused
  decide +kernel

end PointerOS
