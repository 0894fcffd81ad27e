import PointerOS.Vmalloc

/-!
# User stacks

Stacks grow down from their base, the first one from `userStackMax`, each new one
behind the first stack followed by a large enough gap. Only the page below the
base is mapped at first. `user_free_stack` walks down from the base, which is the
page above the stack: it misses the lowest page and frees the one above.
-/
namespace PointerOS
open Tables FrameSource GapList

def userStackMax : ℕ := 0x00007FFFFFFFF000

/-- `us_info_t` without its links. -/
structure UsInfo where
  base : ℕ
  size : ℕ
deriving DecidableEq

/-- The difference of two 64-bit numbers. -/
def sub64 (a b : ℕ) : ℕ := (a + 2 ^ 64 - b % 2 ^ 64) % 2 ^ 64

/-- The test of `us_add_to_list`: `size` bytes fit between two stacks. -/
def UsFits (size : ℕ) (current next : UsInfo) : Prop :=
  next.base ≤ sub64 (sub64 current.base current.size) size

instance (size : ℕ) : DecidableRel (UsFits size) :=
  fun current next => inferInstanceAs (Decidable (next.base ≤ sub64 (sub64 current.base current.size) size))

/-- The base of the new stack and the list with it. -/
def usAddToList (l : List UsInfo) (size : ℕ) : ℕ × List UsInfo :=
  match l with
  | [] => (userStackMax, [⟨userStackMax, size⟩])
  | head :: rest =>
    let (passed, above, below) := findGap (UsFits size) head rest
    let base := sub64 above.base above.size
    (base, passed ++ above :: ⟨base, size⟩ :: below)

structure StackState where
  vm : Vm FrameSource
  list : List UsInfo

namespace StackState

/-- `info` is what `kmalloc` returned for the record, and `cr3` the PML4 of the process. -/
def userAllocStack (s : StackState) (cr3 info size : ℕ) : ℕ × StackState :=
  if size = 0 then (0, s)
  else if info = 0 then (0, s)
  else
    let (base, list) := usAddToList s.list size
    (base, { vm := s.vm.mapNewPage cr3 (sub64 base pageSize4KB) (pteWritable ||| pteUser), list := list })

/-- The record of the stack is not given back to `kmalloc`. -/
def userFreeStack (s : StackState) (cr3 ptr : ℕ) : StackState :=
  match s.list.find? (·.base = ptr) with
  | none => s
  | some current =>
    { vm := intLoop current.size (fun i vm => vm.freePage cr3 (sub64 current.base (intToU64 i))) s.vm
      list := s.list.eraseP (·.base = ptr) }

end StackState

theorem sub64_eq {a b : ℕ} (ha : a < 2 ^ 64) (hb : b ≤ a) : sub64 a b = a - b := by
  unfold sub64
  rw [Nat.mod_eq_of_lt (show b < 2 ^ 64 by omega)]
  omega

/-! ## Placement -/

/-- The address is a byte of the stack. -/
def UsInfo.Has (i : UsInfo) (v : ℕ) : Prop := i.base ≤ v + i.size ∧ v < i.base

/-- Stacks of whole pages in order, downward from the top of the area of `area` bytes. -/
structure Stacked (l : List UsInfo) (area : ℕ) : Prop where
  aligned : ∀ i ∈ l, i.base % 4096 = 0
  pages : ∀ i ∈ l, i.size % 4096 = 0
  pos : ∀ i ∈ l, 0 < i.size
  high : ∀ i ∈ l, i.base ≤ userStackMax
  low : ∀ i ∈ l, userStackMax + i.size ≤ i.base + area
  sorted : l.Pairwise fun i j => j.base + i.size ≤ i.base

theorem userStackMax_eq : userStackMax + 4096 = 2 ^ 47 := by decide

/-- A new stack between `above` and `below`, in a gap that fits it. -/
theorem Stacked.insert {passed below : List UsInfo} {above : UsInfo} {area size base : ℕ}
    (h : Stacked (passed ++ above :: below) area) (hbase : base + above.size = above.base)
    (hpos : 0 < size) (hsize : size % 4096 = 0) (hlow : userStackMax + size ≤ base + area)
    (hgap : ∀ next rest, below = next :: rest → next.base + size ≤ base) :
    Stacked (passed ++ above :: ⟨base, size⟩ :: below) area := by
  have habove : above ∈ passed ++ above :: below := List.mem_append_right _ (List.mem_cons_self ..)
  have hnew : Stacked [⟨base, size⟩] area := by
    have h1 := h.aligned above habove
    have h2 := h.pages above habove
    have h3 := h.high above habove
    refine ⟨?_, ?_, ?_, ?_, ?_, List.pairwise_singleton ..⟩
    all_goals
      intro i hi
      obtain rfl := List.mem_singleton.mp hi
      dsimp only
      omega
  obtain ⟨-, hrest, -⟩ := List.pairwise_append.mp h.sorted
  obtain ⟨-, hbelow⟩ := List.pairwise_cons.mp hrest
  have hself := List.mem_singleton_self (⟨base, size⟩ : UsInfo)
  refine ⟨?_, ?_, ?_, ?_, ?_, ?_⟩
  · exact fun i hi => (mem_insert.mp hi).elim (fun he => he ▸ hnew.aligned _ hself) (h.aligned i)
  · exact fun i hi => (mem_insert.mp hi).elim (fun he => he ▸ hnew.pages _ hself) (h.pages i)
  · exact fun i hi => (mem_insert.mp hi).elim (fun he => he ▸ hnew.pos _ hself) (h.pos i)
  · exact fun i hi => (mem_insert.mp hi).elim (fun he => he ▸ hnew.high _ hself) (h.high i)
  · exact fun i hi => (mem_insert.mp hi).elim (fun he => he ▸ hnew.low _ hself) (h.low i)
  · have hnext : ∀ j ∈ below, j.base + size ≤ base := by
      intro j hj
      cases below with
      | nil => exact nomatch hj
      | cons next rest =>
        have hn := hgap next rest rfl
        rcases List.mem_cons.mp hj with rfl | hj
        · exact hn
        · have := (List.pairwise_cons.mp hbelow).1 j hj
          omega
    refine pairwise_insert h.sorted hbase.le (fun i _ hia => ?_) hnext
    dsimp only
    omega

/-- The new stack is placed like the others, and they stay where they are. -/
theorem usAddToList_stacked {l : List UsInfo} {area size : ℕ} (h : Stacked l area)
    (hpos : 0 < size) (hsize : size % 4096 = 0)
    (hfit : userStackMax + size ≤ (usAddToList l size).1 + area) (harea : area ≤ userStackMax) :
    Stacked (usAddToList l size).2 area ∧
      ∃ before after, l = before ++ after ∧
        (usAddToList l size).2 = before ++ ⟨(usAddToList l size).1, size⟩ :: after := by
  have hmax := userStackMax_eq
  cases l with
  | nil =>
    refine ⟨⟨?_, ?_, ?_, ?_, ?_, List.pairwise_singleton ..⟩, [], [], rfl, rfl⟩
    all_goals
      intro i hi
      obtain rfl := List.mem_singleton.mp hi
      dsimp only [usAddToList] at hfit ⊢
      generalize userStackMax = top at hmax hfit ⊢
      omega
  | cons head rest =>
    obtain ⟨heq, hgap⟩ := findGap_spec (UsFits size) head rest
    simp only [usAddToList] at hfit ⊢
    generalize findGap (UsFits size) head rest = g at heq hgap hfit ⊢
    obtain ⟨passed, above, below⟩ := g
    dsimp only at heq hgap hfit ⊢
    rw [heq] at h ⊢
    have habove : above ∈ passed ++ above :: below := List.mem_append_right _ (List.mem_cons_self ..)
    have hhigh := h.high above habove
    have hlow := h.low above habove
    have hbase : sub64 above.base above.size = above.base - above.size := sub64_eq (by omega) (by omega)
    rw [hbase] at hfit ⊢
    refine ⟨h.insert (by omega) hpos hsize hfit fun next below' hbelow => ?_, passed ++ [above], below,
      by simp, by simp⟩
    have := hgap next below' hbelow
    rw [UsFits, hbase, sub64_eq (by omega) (by omega)] at this
    omega

theorem Stacked.notMem {before after : List UsInfo} {i : UsInfo} {area : ℕ}
    (h : Stacked (before ++ i :: after) area) : i ∉ before ++ after := by
  have hpos := h.pos i (List.mem_append_right _ (List.mem_cons_self ..))
  exact notMem_of_pairwise h.sorted (by omega)

theorem Stacked.erase {l : List UsInfo} {area : ℕ} (h : Stacked l area) (p : UsInfo → Bool) :
    Stacked (l.eraseP p) area where
  aligned := fun i hi => h.aligned i (List.mem_of_mem_eraseP hi)
  pages := fun i hi => h.pages i (List.mem_of_mem_eraseP hi)
  pos := fun i hi => h.pos i (List.mem_of_mem_eraseP hi)
  high := fun i hi => h.high i (List.mem_of_mem_eraseP hi)
  low := fun i hi => h.low i (List.mem_of_mem_eraseP hi)
  sorted := h.sorted.sublist List.eraseP_sublist

/-- Two stacks share no page. -/
theorem Stacked.page_ne {l : List UsInfo} {area : ℕ} (h : Stacked l area) {i j : UsInfo} (hi : i ∈ l)
    (hj : j ∈ l) (hij : i ≠ j) {v w : ℕ} (hv : i.Has v) (hw : j.Has w) : v / 4096 ≠ w / 4096 := by
  have hdis := related_of_pairwise h.sorted hi hj hij
  have hai := h.aligned i hi
  have haj := h.aligned j hj
  obtain ⟨hv1, hv2⟩ := hv
  obtain ⟨hw1, hw2⟩ := hw
  omega

theorem Stacked.base_inj {l : List UsInfo} {area : ℕ} (h : Stacked l area) {i j : UsInfo} (hi : i ∈ l)
    (hj : j ∈ l) (hij : j.base = i.base) : j = i := by
  by_contra hne
  have hdis := related_of_pairwise h.sorted hj hi hne
  have hpi := h.pos i hi
  have hpj := h.pos j hj
  omega

/-! ## The pages of a stack -/

/-- The pages of the area, and the page above it, which `user_free_stack` can reach. -/
def stackPages (area : ℕ) : Set ℕ := {P | userStackMax ≤ P * 4096 + area ∧ P * 4096 ≤ userStackMax}

/-- The addresses that the loop of `user_free_stack` visits. -/
def freedAddrs (base rounds : ℕ) : List ℕ := (List.range rounds).map fun j => base - 4096 * j

theorem mem_freedAddrs {base rounds v : ℕ} :
    v ∈ freedAddrs base rounds ↔ ∃ j < rounds, v = base - 4096 * j := by
  simp only [freedAddrs, List.mem_map, List.mem_range]
  exact exists_congr fun j => and_congr_right fun _ => eq_comm

/-- The loop of `user_free_stack`. -/
theorem intLoop_freed {i : UsInfo} {l : List UsInfo} {area : ℕ} (h : Stacked l area) (hi : i ∈ l)
    (harea : area ≤ userStackMax) (step : Vm FrameSource → ℕ → Vm FrameSource) (vm : Vm FrameSource) :
    intLoop i.size (fun j vm => step vm (sub64 i.base (intToU64 j))) vm =
      (freedAddrs i.base (intRounds i.size)).foldl step vm := by
  have hmax := userStackMax_eq
  have hhigh := h.high i hi
  have hlow := h.low i hi
  rw [intLoop_eq (by omega), freedAddrs, List.foldl_map]
  refine List.foldl_ext _ _ _ fun vm j hj => ?_
  rw [List.mem_range, intRounds] at hj
  rw [intToU64_natCast (by omega), sub64_eq (by omega) (by omega)]

section Area
variable {l : List UsInfo} {area : ℕ} {i : UsInfo}

/-- Bounds on a stack of the area. -/
theorem Stacked.bounds (h : Stacked l area) (harea : area ≤ userStackMax) (hi : i ∈ l) :
    i.base % 4096 = 0 ∧ i.size % 4096 = 0 ∧ 0 < i.size ∧ i.size ≤ i.base ∧ i.base < 2 ^ 47 := by
  have hmax := userStackMax_eq
  have h1 := h.high i hi
  have h2 := h.low i hi
  exact ⟨h.aligned i hi, h.pages i hi, h.pos i hi, by omega, by omega⟩

theorem Stacked.freed_mem (h : Stacked l area) (harea : area ≤ userStackMax) (hi : i ∈ l) {v : ℕ}
    (hv : v ∈ freedAddrs i.base (intRounds i.size)) : v / 4096 ∈ stackPages area := by
  obtain ⟨h1, h2, h3, h4, h5⟩ := h.bounds harea hi
  have hhigh := h.high i hi
  have hlow := h.low i hi
  obtain ⟨j, hj, rfl⟩ := mem_freedAddrs.mp hv
  rw [intRounds] at hj
  rw [stackPages, Set.mem_ofPred_eq]
  omega

theorem Stacked.has_mem (h : Stacked l area) (harea : area ≤ userStackMax) (hi : i ∈ l) {v : ℕ}
    (hv : i.Has v) : v / 4096 ∈ stackPages area := by
  obtain ⟨h1, h2, h3, h4, h5⟩ := h.bounds harea hi
  have hhigh := h.high i hi
  have hlow := h.low i hi
  have hmax := userStackMax_eq
  obtain ⟨hv1, hv2⟩ := hv
  rw [stackPages, Set.mem_ofPred_eq]
  omega

theorem Stacked.freed_pairwise (h : Stacked l area) (harea : area ≤ userStackMax) (hi : i ∈ l) :
    (freedAddrs i.base (intRounds i.size)).Pairwise fun v w => v / 4096 ≠ w / 4096 := by
  obtain ⟨h1, h2, h3, h4, h5⟩ := h.bounds harea hi
  rw [freedAddrs, List.pairwise_map]
  refine (List.pairwise_lt_range (n := intRounds i.size)).imp_of_mem fun {a b} ha hb hab => ?_
  rw [List.mem_range, intRounds] at ha hb
  omega

/-- A byte of the stack is on a page that the loop visits, or at the low end it misses. -/
theorem Stacked.visited (h : Stacked l area) (harea : area ≤ userStackMax) (hi : i ∈ l) {v : ℕ}
    (hv : i.Has v) : (∃ a ∈ freedAddrs i.base (intRounds i.size), a ≠ i.base ∧ v / 4096 = a / 4096) ∨
      v + min i.size (2 ^ 31) < i.base + 4096 := by
  obtain ⟨h1, h2, h3, h4, h5⟩ := h.bounds harea hi
  obtain ⟨hv1, hv2⟩ := hv
  by_cases hm : (i.base - v / 4096 * 4096) / 4096 < intRounds i.size
  · left
    refine ⟨i.base - 4096 * ((i.base - v / 4096 * 4096) / 4096), mem_freedAddrs.mpr ⟨_, hm, rfl⟩, ?_, ?_⟩
    · omega
    · omega
  · right
    rw [intRounds] at hm
    omega

/-- A page that the loop visits is the one above the stack, or a page of the stack above the
low end. -/
theorem Stacked.visited_cases (h : Stacked l area) (harea : area ≤ userStackMax) (hi : i ∈ l) {v : ℕ}
    (hv : v ∈ freedAddrs i.base (intRounds i.size)) :
    v = i.base ∨ (i.Has v ∧ i.base + 4096 ≤ v + min i.size (2 ^ 31)) := by
  obtain ⟨h1, h2, h3, h4, h5⟩ := h.bounds harea hi
  obtain ⟨j, hj, rfl⟩ := mem_freedAddrs.mp hv
  rw [intRounds] at hj
  by_cases hj0 : j = 0
  · left
    omega
  · right
    refine ⟨⟨by omega, by omega⟩, by omega⟩

theorem Stacked.base_visited (h : Stacked l area) (harea : area ≤ userStackMax) (hi : i ∈ l) :
    i.base ∈ freedAddrs i.base (intRounds i.size) := by
  obtain ⟨h1, h2, h3, h4, h5⟩ := h.bounds harea hi
  refine mem_freedAddrs.mpr ⟨0, ?_, by omega⟩
  rw [intRounds]
  omega

end Area

/-! ## Runs -/

/-- What `user_free_stack` of the stack `i` owes: its pages are unmapped, their frames are
free and no others, and the other stacks stay mapped as they are. -/
structure FreesStack (cr3 : ℕ) (s : StackState) (i : UsInfo) : Prop where
  unmapped : ∀ v, i.Has v → (s.userFreeStack cr3 i.base).vm.tables.walk cr3 v = none
  frames : ∀ b, (s.userFreeStack cr3 i.base).vm.pmm.pmm.used b = true ↔
    s.vm.pmm.pmm.used b = true ∧ ¬∃ v x, i.Has v ∧ s.vm.tables.walk cr3 v = some x ∧ b = x.paddr / 4096
  other : ∀ j ∈ s.list, j ≠ i → ∀ v, j.Has v →
    (s.userFreeStack cr3 i.base).vm.tables.walk cr3 v = s.vm.tables.walk cr3 v

/-- The pages that the loop of `user_free_stack` misses are not mapped, nor is the page above
the stack, and frame 0, which is freed for that page, is not in use. -/
structure LoopFits (cr3 : ℕ) (s : StackState) (i : UsInfo) : Prop where
  low : ∀ v, i.Has v → v + min i.size (2 ^ 31) < i.base + 4096 → s.vm.tables.walk cr3 v = none
  above : s.vm.tables.walk cr3 i.base = none
  frame0 : s.vm.pmm.pmm.used 0 = false ∨ s.vm.pmm.pmm.totalPages = 0

/-- The stacks of one process: they are made in the `area` bytes below `userStackMax`, their
pages are mapped as they grow, and they are freed. -/
inductive StackRun (area cr3 : ℕ) (vm₀ : Vm FrameSource) : StackState → Prop
  | init : StackRun area cr3 vm₀ ⟨vm₀, []⟩
  | alloc {s : StackState} (h : StackRun area cr3 vm₀ s) (info size : ℕ) (hsize : size % 4096 = 0)
      (hfit : userStackMax + size ≤ (usAddToList s.list size).1 + area)
      (hx : (s.userAllocStack cr3 info size).2.vm.pmm.exhausted = false) :
      StackRun area cr3 vm₀ (s.userAllocStack cr3 info size).2
  | grow {s : StackState} (h : StackRun area cr3 vm₀ s) {i : UsInfo} (hi : i ∈ s.list) {v : ℕ}
      (hv : i.Has v) (hx : (s.vm.mapNewPage cr3 v (pteWritable ||| pteUser)).pmm.exhausted = false) :
      StackRun area cr3 vm₀ { s with vm := s.vm.mapNewPage cr3 v (pteWritable ||| pteUser) }
  | free {s : StackState} (h : StackRun area cr3 vm₀ s) {i : UsInfo} (hi : i ∈ s.list) :
      StackRun area cr3 vm₀ (s.userFreeStack cr3 i.base)

/-- The stacks are placed in order, and their pages are pages of a window. -/
structure StackInv (roots own : Set ℕ) (priv : Set (Fin 512)) (area cr3 : ℕ) (s : StackState) : Prop where
  window : Window (stackPages area) roots own priv cr3 s.vm
  stacked : Stacked s.list area

section Runs
variable {roots own : Set ℕ} {priv : Set (Fin 512)} {area cr3 : ℕ} {s : StackState} {i : UsInfo}

theorem pteUser_flags : (pteWritable ||| pteUser) < 4096 ∧ writable (pteWritable ||| pteUser) = true ∧
    userBit (pteWritable ||| pteUser) = true := by
  decide

/-- The page below the base is a page of the area. -/
theorem Stacked.top_mem {l : List UsInfo} (h : Stacked l area) (harea : area ≤ userStackMax) (hi : i ∈ l) :
    sub64 i.base pageSize4KB / 4096 ∈ stackPages area := by
  obtain ⟨h1, h2, h3, h4, h5⟩ := h.bounds harea hi
  have hpage : sub64 i.base pageSize4KB = i.base - 4096 := sub64_eq (by omega) (show 4096 ≤ i.base by omega)
  rw [hpage]
  exact h.has_mem harea hi ⟨by omega, by omega⟩

/-- `user_free_stack` of a live stack frees the pages that its loop visits. -/
theorem Stacked.free_eq (h : Stacked s.list area) (cr3 : ℕ) (harea : area ≤ userStackMax) (hi : i ∈ s.list) :
    s.userFreeStack cr3 i.base =
      { vm := s.vm.freePages cr3 (freedAddrs i.base (intRounds i.size))
        list := s.list.eraseP (·.base = i.base) } := by
  obtain ⟨before, after, hl⟩ := List.append_of_mem hi
  have hfind : s.list.find? (·.base = i.base) = some i := by
    rw [hl]
    refine (GapList.find_erase UsInfo.base (hl ▸ h).notMem fun j hj hji => ?_).1
    exact h.base_inj hi (hl ▸ hj) hji
  unfold StackState.userFreeStack
  rw [hfind]
  dsimp only
  rw [intLoop_freed h hi harea fun vm v => vm.freePage cr3 v]
  rfl

theorem StackInv.alloc {info size : ℕ} (inv : StackInv roots own priv area cr3 s) (harea : area ≤ userStackMax)
    (hsize : size % 4096 = 0) (hfit : userStackMax + size ≤ (usAddToList s.list size).1 + area)
    (hx : (s.userAllocStack cr3 info size).2.vm.pmm.exhausted = false) :
    StackInv roots own priv area cr3 (s.userAllocStack cr3 info size).2 := by
  unfold StackState.userAllocStack at hx ⊢
  by_cases h0 : size = 0
  · rwa [if_pos h0]
  rw [if_neg h0] at hx ⊢
  by_cases hinfo : info = 0
  · rwa [if_pos hinfo]
  rw [if_neg hinfo] at hx ⊢
  obtain ⟨hstacked, before, after, -, hnew⟩ := usAddToList_stacked inv.stacked (by omega) hsize hfit harea
  generalize usAddToList s.list size = added at hx hstacked hnew ⊢
  obtain ⟨base, list⟩ := added
  dsimp only at hx hstacked hnew ⊢
  have hi : (⟨base, size⟩ : UsInfo) ∈ list := by
    rw [hnew]
    exact List.mem_append_right _ (List.mem_cons_self ..)
  have hmem := hstacked.top_mem harea hi
  obtain ⟨hf, hw, -⟩ := pteUser_flags
  obtain ⟨k, made, hm⟩ := mapNewPage_spec inv.window hmem hf hw hx
  exact ⟨hm.window, hstacked⟩

theorem StackInv.free (inv : StackInv roots own priv area cr3 s) (harea : area ≤ userStackMax) (hi : i ∈ s.list) :
    StackInv roots own priv area cr3 (s.userFreeStack cr3 i.base) := by
  rw [inv.stacked.free_eq cr3 harea hi]
  exact ⟨(freePages_spec inv.window (fun v hv => inv.stacked.freed_mem harea hi hv)
    (inv.stacked.freed_pairwise harea hi)).1, inv.stacked.erase _⟩

theorem StackRun.inv {vm₀ : Vm FrameSource} (h₀ : Window (stackPages area) roots own priv cr3 vm₀)
    (harea : area ≤ userStackMax) (h : StackRun area cr3 vm₀ s) : StackInv roots own priv area cr3 s := by
  induction h with
  | init => exact ⟨h₀, ⟨by simp, by simp, by simp, by simp, by simp, .nil⟩⟩
  | alloc _ info size hsize hfit hx ih => exact ih.alloc harea hsize hfit hx
  | grow _ hi hv hx ih =>
    obtain ⟨hf, hw, -⟩ := pteUser_flags
    obtain ⟨k, made, hm⟩ := mapNewPage_spec ih.window (ih.stacked.has_mem harea hi hv) hf hw hx
    exact ⟨hm.window, ih.stacked⟩
  | free _ hi ih => exact ih.free harea hi

/-- The pages at the low end of a stack are not visited. -/
theorem Stacked.not_visited {l : List UsInfo} (h : Stacked l area) (harea : area ≤ userStackMax) (hi : i ∈ l)
    {v : ℕ} (hlow : v + min i.size (2 ^ 31) < i.base + 4096) :
    ∀ a ∈ freedAddrs i.base (intRounds i.size), v / 4096 ≠ a / 4096 := by
  obtain ⟨h1, h2, h3, h4, h5⟩ := h.bounds harea hi
  intro a ha
  obtain ⟨j, hj, rfl⟩ := mem_freedAddrs.mp ha
  rw [intRounds] at hj
  omega

/-- Freeing a stack does what it owes exactly when the loop fits the stack. -/
theorem StackInv.freesStack_iff (inv : StackInv roots own priv area cr3 s) (harea : area ≤ userStackMax)
    (hi : i ∈ s.list) : FreesStack cr3 s i ↔ LoopFits cr3 s i := by
  have hw := inv.window
  have hst := inv.stacked
  obtain ⟨hal, -, -, -, -⟩ := hst.bounds harea hi
  have hbase := hst.base_visited harea hi
  have hbaseW := hst.freed_mem harea hi hbase
  have hlen : ∀ v, i.Has v → v / 4096 ≠ i.base / 4096 := fun v hv => by
    have := hv.2
    omega
  obtain ⟨-, hgone, hrest, hused, -, -⟩ := freePages_spec hw (fun v hv => hst.freed_mem harea hi hv)
    (hst.freed_pairwise harea hi)
  have heq := hst.free_eq cr3 harea hi
  constructor
  · rintro ⟨hunmapped, hframes, -⟩
    rw [heq] at hunmapped hframes
    have habove : s.vm.tables.walk cr3 i.base = none := by
      by_contra hne
      obtain ⟨x, hx⟩ := Option.ne_none_iff_exists'.mp hne
      have hback := hw.frames hbaseW hx
      have hfree := mt (hused (x.paddr / 4096)).mp fun hu =>
        hu.2 i.base hbase ⟨(Window.frameOf_some hx).symm, hback.lt⟩
      rw [hframes, not_and_not_right] at hfree
      obtain ⟨v, y, hv, hy, hxy⟩ := hfree hback.used
      exact hlen v hv (hw.inj (hst.has_mem harea hi hv) hbaseW hy hx hxy.symm)
    refine ⟨fun v hv hlow => ?_, habove, ?_⟩
    · rw [← hrest v (hst.has_mem harea hi hv) (hst.not_visited harea hi hlow)]
      exact hunmapped v hv
    · by_contra hno
      rw [not_or, Bool.not_eq_false] at hno
      have h0 : frameOf s.vm.tables cr3 i.base = 0 := by
        unfold frameOf
        rw [habove]
        rfl
      have hfree := mt (hused 0).mp fun hu => hu.2 i.base hbase ⟨h0.symm, by omega⟩
      rw [hframes, not_and_not_right] at hfree
      obtain ⟨v, x, hv, hx, hx0⟩ := hfree hno.1
      exact (hw.frames (hst.has_mem harea hi hv) hx).pos.ne hx0
  · rintro ⟨hlow, habove, hzero⟩
    -- every byte of the stack is on a visited page, or was not mapped
    have hcover : ∀ v, i.Has v → (∃ a ∈ freedAddrs i.base (intRounds i.size), v / 4096 = a / 4096) ∨
        s.vm.tables.walk cr3 v = none := fun v hv =>
      (hst.visited harea hi hv).imp (fun ⟨a, ha, _, hva⟩ => ⟨a, ha, hva⟩) (hlow v hv)
    have hnone : ∀ v, v / 4096 = i.base / 4096 → s.vm.tables.walk cr3 v = none := fun v hv =>
      hw.walk_none_congr hbaseW hv habove
    constructor
    all_goals rw [heq]
    · intro v hv
      by_cases hvis : ∃ a ∈ freedAddrs i.base (intRounds i.size), v / 4096 = a / 4096
      · obtain ⟨a, ha, hva⟩ := hvis
        exact hgone a ha v hva
      · rw [← (hcover v hv).resolve_left hvis]
        exact hrest v (hst.has_mem harea hi hv) fun a ha hva => hvis ⟨a, ha, hva⟩
    · intro b
      rw [hused b]
      refine and_congr_right fun hub => ⟨?_, ?_⟩
      · rintro hno ⟨v, x, hv, hx, rfl⟩
        rcases hcover v hv with ⟨a, ha, hva⟩ | hn
        · have haW := hst.freed_mem harea hi ha
          refine hno a ha ⟨?_, (hw.frames (hva ▸ haW) hx).lt⟩
          rw [← hw.frameOf_congr haW hva, Window.frameOf_some hx]
        · rw [hx] at hn
          exact nomatch hn
      · rintro hno a ha ⟨hb, hlt⟩
        cases hx : s.vm.tables.walk cr3 a with
        | none =>
          have hb0 : b = 0 := by
            rw [hb, frameOf, hx]
            rfl
          subst hb0
          rcases hzero with h0 | h0
          · rw [h0] at hub
            exact nomatch hub
          · omega
        | some x =>
          rcases hst.visited_cases harea hi ha with rfl | ⟨hv, -⟩
          · rw [habove] at hx
            exact nomatch hx
          · exact hno ⟨a, x, hv, hx, hb.trans (Window.frameOf_some hx)⟩
    · intro j hj hne v hv
      by_cases hvis : ∃ a ∈ freedAddrs i.base (intRounds i.size), v / 4096 = a / 4096
      · obtain ⟨a, ha, hva⟩ := hvis
        rcases hst.visited_cases harea hi ha with rfl | ⟨hia, -⟩
        · rw [hnone v hva]
          exact hgone _ ha v hva
        · exact absurd hva (hst.page_ne hj hi hne hv hia)
      · exact hrest v (hst.has_mem harea hj hv) fun a ha hva => hvis ⟨a, ha, hva⟩

/-- In every state of a run, freeing a live stack does what it owes exactly when the loop fits. -/
theorem user_free_stack_frees_iff {vm₀ : Vm FrameSource}
    (h₀ : Window (stackPages area) roots own priv cr3 vm₀) (harea : area ≤ userStackMax)
    (h : StackRun area cr3 vm₀ s) (hi : i ∈ s.list) : FreesStack cr3 s i ↔ LoopFits cr3 s i :=
  (h.inv h₀ harea).freesStack_iff harea hi

end Runs

theorem isWindow_stackPages : IsWindow (stackPages userStackMax) {i | i.val < 256} := by
  have hmax := userStackMax_eq
  refine ⟨fun {v} hv => ?_, fun {a b} ha hb hab => ?_⟩
  · obtain ⟨-, hv⟩ := hv
    change v / 2 ^ 39 % 512 < 256
    omega
  · obtain ⟨-, ha⟩ := ha
    obtain ⟨-, hb⟩ := hb
    omega

theorem emptySpace_stackWindow :
    Window (stackPages userStackMax) {0x1000} {0x1000} {i | i.val < 256} 0x1000 emptySpace :=
  .of_empty (fun _ _ => rfl) isWindow_stackPages rfl (by decide) (by decide) (by decide)

/-- A stack of two pages, of which the upper one is mapped, after a stack below it was made and
freed: that gave frame 0 free. -/
def oneStack : StackState :=
  (((⟨emptySpace, []⟩ : StackState).userAllocStack 0x1000 1 0x2000).2.userAllocStack 0x1000 1 0x1000).2
    |>.userFreeStack 0x1000 (userStackMax - 0x2000)

theorem user_free_stack_frees_one : FreesStack 0x1000 oneStack ⟨userStackMax, 0x2000⟩ := by
  have hrun : StackRun userStackMax 0x1000 emptySpace oneStack :=
    .free (i := ⟨userStackMax - 0x2000, 0x1000⟩) (.alloc (.alloc .init 1 0x2000 (by decide) (by decide)
      (by decide +kernel)) 1 0x1000 (by decide) (by decide +kernel) (by decide +kernel)) (by decide +kernel)
  have hmem : (⟨userStackMax, 0x2000⟩ : UsInfo) ∈ oneStack.list := by decide +kernel
  have inv := hrun.inv emptySpace_stackWindow le_rfl
  have hlow : oneStack.vm.tables.walk 0x1000 (userStackMax - 0x2000) = none := by decide +kernel
  have hlowW : (userStackMax - 0x2000) / 4096 ∈ stackPages userStackMax :=
    inv.stacked.has_mem le_rfl hmem ⟨by decide, by decide⟩
  refine (user_free_stack_frees_iff emptySpace_stackWindow le_rfl hrun hmem).mpr
    ⟨fun v hv hv' => ?_, ?_, .inl ?_⟩
  · refine inv.window.walk_none_congr hlowW ?_ hlow
    have hmax := userStackMax_eq
    obtain ⟨h1, h2⟩ := hv
    dsimp only at h1 h2 hv'
    omega
  · decide +kernel
  · decide +kernel

/-- Freeing the lower one of two stacks of a page unmaps the upper one. -/
theorem user_free_stack_unmaps_neighbour :
    ¬∀ s, StackRun userStackMax 0x1000 emptySpace s → ∀ i ∈ s.list, FreesStack 0x1000 s i := by
  intro h
  obtain ⟨s, hs⟩ : ∃ s, s = (((⟨emptySpace, []⟩ : StackState).userAllocStack 0x1000 1 0x1000).2.userAllocStack
    0x1000 1 0x1000).2 := ⟨_, rfl⟩
  have hrun : StackRun userStackMax 0x1000 emptySpace s := by
    rw [hs]
    exact .alloc (.alloc .init 1 0x1000 (by decide) (by decide) (by decide +kernel)) 1 0x1000 (by decide)
      (by decide +kernel) (by decide +kernel)
  have hother := (h s hrun ⟨userStackMax - 0x1000, 0x1000⟩ (by subst hs; decide +kernel)).other
    ⟨userStackMax, 0x1000⟩ (by subst hs; decide +kernel) (by decide) (userStackMax - 1) ⟨by decide, by decide⟩
  subst hs
  revert hother
  decide +kernel

end PointerOS
