import PointerOS.ByteMemory
import PointerOS.DirectMap

/-!
# The page tables of `boot.s`

`_start` clears five tables and links them by 32-bit stores: the low halves of the entries. The first
2 MB of memory are shown where they are, for the code that turns paging on, and the first 128 MB at
`kernelOffset`. `higher_half` takes the first of the two away again, through the second.
-/
namespace PointerOS
open ByteMemory

/-- Where the linker puts the tables: in a row, in the first 128 MB. -/
structure BootLayout where
  pml4 : ℕ
  aligned : pml4 % 4096 = 0
  low : pml4 + 5 * 4096 ≤ 2 ^ 27

namespace BootLayout
variable (b : BootLayout)

def pdptIdent : ℕ := b.pml4 + 4096
def pdIndent : ℕ := b.pml4 + 2 * 4096
def pdptKernel : ℕ := b.pml4 + 3 * 4096
def pdKernel : ℕ := b.pml4 + 4 * 4096

/-- `rep stosd`, with the count in `ecx`. -/
def repStosd (eax : ℕ) : ℕ → ℕ → Memory → Memory
  | 0, _, m => m
  | ecx + 1, edi, m => repStosd eax ecx ((edi + 4) % 2 ^ 32) (store32 m edi eax)

/-- The entries that are written one by one. -/
def linkTables (m : Memory) : Memory :=
  let m := store32 m b.pml4 (b.pdptIdent ||| 0b11)
  let m := store32 m b.pdptIdent (b.pdIndent ||| 0b11)
  let m := store32 m b.pdIndent (0 ||| 0b10000011)
  let m := store32 m (b.pml4 + 511 * 8) (b.pdptKernel ||| 0b11)
  store32 m (b.pdptKernel + 510 * 8) (b.pdKernel ||| 0b11)

/-- `.map_kernel_loop`: `mul` leaves the low half of the product in `eax`. -/
def mapKernelLoop : ℕ → ℕ → Memory → Option Memory
  | 0, _, _ => none
  | n + 1, ecx, m =>
    let m := store32 m ((b.pdKernel + ecx * 8) % 2 ^ 32) (0x200000 * ecx % 2 ^ 32 ||| 0b10000011)
    let ecx := (ecx + 1) % 2 ^ 32
    if ecx ≠ 64 then mapKernelLoop n ecx m else some m

/-- `_start` up to the load of `cr3`. -/
def start (m : Memory) : Option Memory :=
  b.mapKernelLoop (2 ^ 32) 0 (b.linkTables (repStosd 0 (4096 * 5 / 4) b.pml4 m))

/-- The tables that the processor finds in memory. -/
def tablesOf (m : Memory) : Tables := fun f i => load64 m (f + 8 * i.val)

/-- `mov qword [rax], 0` with paging on, or a page fault: write protection is off. -/
def clearQword (cr3 rax : ℕ) (m : Memory) : Option Memory :=
  ((tablesOf m).walk cr3 rax).map fun x => store64 m x.paddr 0

def higherHalf (m : Memory) : Option Memory := clearQword b.pml4 ((b.pml4 + kernelOffset) % 2 ^ 64) m

/-! ## The entries -/

theorem repStosd_zero (n : ℕ) {edi : ℕ} (m : Memory) (h : edi + 4 * n < 2 ^ 32) :
    repStosd 0 n edi m = fill m edi (4 * n) 0 := by
  induction n generalizing edi m with
  | zero =>
    funext x
    rw [repStosd, fill, if_neg (by omega)]
  | succ n ih =>
    rw [repStosd, Nat.mod_eq_of_lt (by omega), ih _ (by omega)]
    funext x
    by_cases hx : edi ≤ x ∧ x < edi + 4
    · simp [fill, store, hx, show x < edi + 4 * (n + 1) by omega]
    · by_cases hx' : edi ≤ x ∧ x < edi + 4 * (n + 1)
      · simp [fill, hx', show edi + 4 ≤ x ∧ x < edi + 4 + 4 * n by omega]
      · simp [fill, store, hx, hx', show ¬(edi + 4 ≤ x ∧ x < edi + 4 + 4 * n) by omega]

/-- The entry with the number `e` of the five tables, when `n` pages of the kernel are mapped. -/
def entry (n e : ℕ) : ℕ :=
  if e = 0 then b.pdptIdent ||| 3
  else if e = 511 then b.pdptKernel ||| 3
  else if e = 512 then b.pdIndent ||| 3
  else if e = 1024 then 0x83
  else if e = 2046 then b.pdKernel ||| 3
  else if 2048 ≤ e ∧ e < 2048 + n then (e - 2048) * 0x200000 ||| 0x83
  else 0

variable {b}

theorem linkTables_words {m : Memory} (h : HoldsWords m b.pml4 2560 fun _ => 0) :
    HoldsWords (b.linkTables m) b.pml4 2560 (b.entry 0) := by
  have hlow := b.low
  have hor : ∀ a, a < 2 ^ 32 → a ||| 3 < 2 ^ 32 := fun a ha => Nat.or_lt_two_pow ha (by decide)
  have h1 := h.store32 (e := 0) (v := b.pdptIdent ||| 3) (by decide) (hor _ (by unfold pdptIdent; omega)) (by decide)
  have h2 := h1.store32 (e := 512) (v := b.pdIndent ||| 3) (by decide) (hor _ (by unfold pdIndent; omega)) (by simp)
  have h3 := h2.store32 (e := 1024) (v := 0x83) (by decide) (by decide) (by simp)
  have h4 := h3.store32 (e := 511) (v := b.pdptKernel ||| 3) (by decide) (hor _ (by unfold pdptKernel; omega)) (by simp)
  have h5 := h4.store32 (e := 2046) (v := b.pdKernel ||| 3) (by decide) (hor _ (by unfold pdKernel; omega)) (by simp)
  intro e he
  refine (h5 e he).trans ?_
  simp only [Function.update_apply, entry]
  grind

theorem mapKernelLoop_step {n ecx : ℕ} {m : Memory} (hecx : ecx < 64) :
    b.mapKernelLoop (n + 1) ecx m =
      let m := store32 m (b.pml4 + 8 * (2048 + ecx)) (ecx * 0x200000 ||| 0x83)
      if ecx + 1 = 64 then some m else b.mapKernelLoop n (ecx + 1) m := by
  have hlow := b.low
  have haddr : (b.pdKernel + ecx * 8) % 2 ^ 32 = b.pml4 + 8 * (2048 + ecx) := by
    unfold pdKernel
    omega
  have hpage : 0x200000 * ecx % 2 ^ 32 = ecx * 0x200000 := by omega
  have hnext : (ecx + 1) % 2 ^ 32 = ecx + 1 := by omega
  simp only [mapKernelLoop, haddr, hpage, hnext, ne_eq, ite_not]

theorem entry_succ {m : Memory} {ecx : ℕ} (h : HoldsWords m b.pml4 2560 (b.entry ecx)) (hecx : ecx < 64) :
    HoldsWords (store32 m (b.pml4 + 8 * (2048 + ecx)) (ecx * 0x200000 ||| 0x83)) b.pml4 2560 (b.entry (ecx + 1)) := by
  have hpage : ecx * 0x200000 ||| 0x83 < 2 ^ 32 := Nat.or_lt_two_pow (by omega) (by decide)
  have hfree : b.entry ecx (2048 + ecx) = 0 := by
    unfold entry
    grind
  intro e he
  refine (h.store32 (by omega) hpage (by rw [hfree]; decide) e he).trans ?_
  simp only [Function.update_apply, entry]
  grind

theorem linkTables_eqOn (m : Memory) : Set.EqOn (b.linkTables m) m (bytes b.pml4 (5 * 4096))ᶜ := by
  intro x hx
  simp only [bytes, Set.mem_compl_iff, Set.mem_Ico] at hx
  simp only [linkTables, pdptIdent, pdIndent, pdptKernel, pdKernel, store]
  grind

/-- The loop ends, and writes the entries up to the last one. -/
theorem mapKernelLoop_spec (n : ℕ) {ecx : ℕ} {m : Memory} (hn : 64 ≤ ecx + n) (hecx : ecx < 64)
    (h : HoldsWords m b.pml4 2560 (b.entry ecx)) : ∃ m', b.mapKernelLoop n ecx m = some m' ∧
      HoldsWords m' b.pml4 2560 (b.entry 64) ∧ Set.EqOn m' m (bytes b.pml4 (5 * 4096))ᶜ := by
  induction n generalizing ecx m with
  | zero => omega
  | succ n ih =>
    have hnext := entry_succ h hecx
    have hframe : Set.EqOn (store32 m (b.pml4 + 8 * (2048 + ecx)) (ecx * 0x200000 ||| 0x83)) m
        (bytes b.pml4 (5 * 4096))ᶜ := by
      refine (store_eqOn_compl m _ 4 _).mono (Set.compl_subset_compl.mpr fun x hx => ?_)
      simp only [bytes, Set.mem_Ico] at hx ⊢
      omega
    rw [mapKernelLoop_step hecx]
    by_cases hlast : ecx + 1 = 64
    · exact ⟨_, if_pos hlast, hlast ▸ hnext, hframe⟩
    · obtain ⟨m', hm', hw, hf⟩ := ih (by omega) (by omega) hnext
      exact ⟨m', (if_neg hlast).trans hm', hw, hf.trans hframe⟩

/-- `_start` ends: the five tables are complete, and nothing else is written. -/
theorem start_spec (m : Memory) : ∃ m', b.start m = some m' ∧ HoldsWords m' b.pml4 2560 (b.entry 64) ∧
    Set.EqOn m' m (bytes b.pml4 (5 * 4096))ᶜ := by
  have hlow := b.low
  have hclear : repStosd 0 (4096 * 5 / 4) b.pml4 m = fill m b.pml4 (4 * (4096 * 5 / 4)) 0 :=
    repStosd_zero _ m (by omega)
  have hzero : HoldsWords (repStosd 0 (4096 * 5 / 4) b.pml4 m) b.pml4 2560 fun _ => 0 := by
    intro e he
    rw [hclear, words]
    exact load_fill_zero (by omega) (by omega)
  have hfill : Set.EqOn (repStosd 0 (4096 * 5 / 4) b.pml4 m) m (bytes b.pml4 (5 * 4096))ᶜ := by
    rw [hclear]
    exact fill_eqOn disjoint_compl_right
  obtain ⟨m', hm', hw, hf⟩ := mapKernelLoop_spec (2 ^ 32) (by norm_num) (by norm_num) (linkTables_words hzero)
  exact ⟨m', hm', hw, hf.trans ((linkTables_eqOn _).trans hfill)⟩

/-! ## The translation -/

theorem tablesOf_eq {m : Memory} {w : ℕ → ℕ} (h : HoldsWords m b.pml4 2560 w) {f k : ℕ} (hk : k < 5)
    (hf : f = b.pml4 + k * 4096) (i : Fin 512) : tablesOf m f i = w (512 * k + i.val) := by
  rw [← h _ (by omega), words, tablesOf, hf, show b.pml4 + k * 4096 + 8 * i.val = b.pml4 + 8 * (512 * k + i.val) by omega]

/-- Without the identity map the tables are those that the kernel's own mapping code starts from. -/
theorem bootTables_dropped {m : Memory} (h : HoldsWords m b.pml4 2560 (b.entry 64)) :
    BootTables (tablesOf (store64 m b.pml4 0)) b.pml4 b.pdptKernel b.pdKernel := by
  have hd : HoldsWords (store64 m b.pml4 0) b.pml4 2560 (Function.update (b.entry 64) 0 0) :=
    h.store64 (e := 0) (v := 0) (by decide)
  have haligned := b.aligned
  have hlow := b.low
  refine ⟨?_, ?_, ?_, fun i => ?_, fun i => ?_, fun i => ?_⟩
  · unfold pdptKernel pdKernel
    omega
  · unfold pdptKernel pdKernel
    omega
  · unfold pdptKernel pdKernel
    omega
  · rw [tablesOf_eq hd (k := 0) (by decide) (by omega)]
    simp only [Function.update_apply, entry]
    grind
  · rw [tablesOf_eq hd (f := b.pdptKernel) (k := 3) (by decide) rfl]
    simp only [Function.update_apply, entry]
    grind
  · rw [tablesOf_eq hd (f := b.pdKernel) (k := 4) (by decide) rfl]
    simp only [Function.update_apply, entry]
    grind

/-- The walk through the first entry of the PML4. -/
theorem ident_walk {m : Memory} (h : HoldsWords m b.pml4 2560 (b.entry 64)) {v : ℕ} (h3 : index v 3 = 0) :
    (tablesOf m).walk b.pml4 v =
      if (index v 2).val = 0 ∧ (index v 1).val = 0 then some ⟨v % 2 ^ 21, true, false⟩ else none := by
  have haligned := b.aligned
  have hlow := b.low
  have hframe : IsFrame b.pdptIdent ∧ IsFrame b.pdIndent := by
    unfold IsFrame pdptIdent pdIndent
    omega
  have hroot : tablesOf m b.pml4 (index v 3) = linkTo b.pdptIdent := by
    rw [h3, tablesOf_eq h (k := 0) (by decide) (by omega)]
    rfl
  have hpdpt : ∀ i : Fin 512, tablesOf m b.pdptIdent i = if i.val = 0 then b.pdIndent ||| 3 else 0 := by
    intro i
    rw [tablesOf_eq h (k := 1) (by decide) (by unfold pdptIdent; omega)]
    simp only [entry]
    grind
  have hpd : ∀ i : Fin 512, tablesOf m b.pdIndent i = if i.val = 0 then 0x83 else 0 := by
    intro i
    rw [tablesOf_eq h (f := b.pdIndent) (k := 2) (by decide) rfl]
    simp only [entry]
    grind
  have habsent : ∀ {n t}, tablesOf m t (index v n) = 0 → (tablesOf m).walkFrom v n t = none :=
    fun h0 => Tables.walkFrom_absent (by rw [h0]; rfl)
  have hchild : ∀ {t f n}, IsFrame f → tablesOf m t (index v n) = linkTo f →
      (tablesOf m).child t (index v n) = some f := by
    intro t f n hf he
    have hs := linkTo_spec hf
    exact Tables.child_eq_some.mpr ⟨he ▸ hs.1, he ▸ hs.2.1, he ▸ hs.2.2.2.2.2⟩
  have hunder : ∀ (x : Translation) {f}, IsFrame f → x.under (linkTo f) = ⟨x.paddr, x.writable, false⟩ := by
    intro x f hf
    have hs := linkTo_spec hf
    simp [Translation.under, hs.2.2.1, hs.2.2.2.1]
  rw [Tables.walk, Tables.walkFrom_step (hchild hframe.1 hroot), hroot]
  by_cases h2 : (index v 2).val = 0
  · have he2 : tablesOf m b.pdptIdent (index v 2) = linkTo b.pdIndent := (hpdpt _).trans (if_pos h2)
    rw [Tables.walkFrom_step (hchild hframe.2 he2), he2]
    by_cases h1 : (index v 1).val = 0
    · have hpage : (tablesOf m).walkFrom v 1 b.pdIndent = some ⟨v % 2 ^ 21, true, false⟩ := by
        have he1 : tablesOf m b.pdIndent (index v 1) = 0 ||| 0x83 := (hpd _).trans (if_pos h1)
        have hflags : writable 0x83 = true ∧ userBit 0x83 = false := by decide
        rw [Tables.walkFrom, he1, if_pos (by decide), if_pos (by decide), if_neg (by decide),
          leaf_or (n := 1) (by decide) (by decide) (by decide) (by decide), hflags.1, hflags.2, Nat.zero_add]
      rw [hpage, Option.map_some, Option.map_some, if_pos ⟨h2, h1⟩, hunder _ hframe.2, hunder _ hframe.1]
    · rw [habsent ((hpd _).trans (if_neg h1)), if_neg fun hc => h1 hc.2]
      rfl
  · rw [habsent ((hpdpt _).trans (if_neg h2)), if_neg fun hc => h2 hc.1]
    rfl

/-- The identity map changes no walk that begins with another entry. -/
theorem other_walk {m : Memory} (h : HoldsWords m b.pml4 2560 (b.entry 64)) {v : ℕ} (h3 : index v 3 ≠ 0) :
    (tablesOf m).walk b.pml4 v = (tablesOf (store64 m b.pml4 0)).walk b.pml4 v := by
  have hboot := bootTables_dropped h
  have haligned := b.aligned
  refine Tables.walk_congr fun p i s f hi hf => ?_
  have hframe : f % 4096 = 0 ∧ (f = b.pml4 → i ≠ 0) := by
    rcases hboot.reach_cases hf with ⟨rfl, rfl⟩ | ⟨-, rfl⟩ | ⟨-, rfl⟩
    · exact ⟨haligned, fun _ hi0 => h3 ((List.cons.inj hi).1.trans hi0)⟩
    · exact ⟨hboot.aligned.1, fun heq => absurd heq.symm hboot.distinct.1⟩
    · exact ⟨hboot.aligned.2, fun heq => absurd heq.symm hboot.distinct.2.1⟩
  have hne : f + 8 * i.val ≠ b.pml4 := fun heq => hframe.2 (by omega) (Fin.ext (by simp; omega))
  exact (load_store_of_disjoint (by omega)).symm

end BootLayout

/-- The addresses of 48 bits, extended with their sign. -/
def Canonical (v : ℕ) : Prop := v < 2 ^ 47 ∨ 2 ^ 64 - 2 ^ 47 ≤ v ∧ v < 2 ^ 64

/-- The window at `kernelOffset`. -/
def kernelWindow (v : ℕ) : Option Translation :=
  if kernelOffset ≤ v ∧ v < kernelOffset + 2 ^ 27 then some ⟨v - kernelOffset, true, false⟩ else none

theorem BootTables.walk_canonical {T : Tables} {cr3 pdpt pd v : ℕ} (h : BootTables T cr3 pdpt pd)
    (hv : Canonical v) : T.walk cr3 v = kernelWindow v := by
  have hi : ((index v 3).val = 511 ∧ (index v 2).val = 510 ∧ (index v 1).val < 64 ↔
      kernelOffset ≤ v ∧ v < kernelOffset + 2 ^ 27) ∧
      (kernelOffset ≤ v → v < kernelOffset + 2 ^ 27 → (index v 1).val * 0x200000 + v % 2 ^ 21 = v - kernelOffset) := by
    unfold Canonical at hv
    simp only [index, kernelOffset]
    omega
  rw [h.walk_eq, kernelWindow]
  split_ifs with h1 h2 h2
  · rw [hi.2 h2.1 h2.2]
  · exact absurd (hi.1.mp h1) h2
  · exact absurd (hi.1.mpr h2) h1
  · rfl

/-- Whatever memory holds, the code of `boot.s` gets to `kernel_main`. The tables show the first 2 MB twice while
`cr3` is loaded and paging is turned on, and from then on the first 128 MB at `kernelOffset` and nothing else.
They are the tables that the rest of the kernel expects, and no byte outside of them is written. -/
theorem boot_paging (b : BootLayout) (m : Memory) : ∃ m₁ m₂, b.start m = some m₁ ∧ b.higherHalf m₁ = some m₂ ∧
    (∀ v, Canonical v → (BootLayout.tablesOf m₁).walk b.pml4 v =
      if v < 2 ^ 21 then some ⟨v, true, false⟩ else kernelWindow v) ∧
    (∀ v, Canonical v → (BootLayout.tablesOf m₂).walk b.pml4 v = kernelWindow v) ∧
    BootTables (BootLayout.tablesOf m₂) b.pml4 b.pdptKernel b.pdKernel ∧
    Set.EqOn m₂ m (bytes b.pml4 (5 * 4096))ᶜ := by
  obtain ⟨m₁, hstart, hwords, hframe⟩ := b.start_spec m
  have hboot := BootLayout.bootTables_dropped hwords
  have hlow := b.low
  have hbefore : ∀ v, Canonical v → (BootLayout.tablesOf m₁).walk b.pml4 v =
      if v < 2 ^ 21 then some ⟨v, true, false⟩ else kernelWindow v := by
    intro v hv
    by_cases h3 : index v 3 = 0
    · have hi : v / 2 ^ 39 % 512 = 0 := congrArg Fin.val h3
      have hlow47 : v < 2 ^ 39 := by
        unfold Canonical at hv
        omega
      have hi21 : (index v 2).val = 0 ∧ (index v 1).val = 0 ↔ v < 2 ^ 21 := by
        simp only [index]
        omega
      rw [BootLayout.ident_walk hwords h3]
      simp only [hi21]
      by_cases hv21 : v < 2 ^ 21
      · rw [if_pos hv21, if_pos hv21, Nat.mod_eq_of_lt hv21]
      · rw [if_neg hv21, if_neg hv21, kernelWindow, if_neg (by unfold kernelOffset; omega)]
    · have hv21 : ¬ v < 2 ^ 21 := fun hlt => h3 (Fin.ext (by simp [index]; omega))
      rw [BootLayout.other_walk hwords h3, hboot.walk_canonical hv, if_neg hv21]
  have hrax : Canonical ((b.pml4 + kernelOffset) % 2 ^ 64) ∧ (b.pml4 + kernelOffset) % 2 ^ 64 = b.pml4 + kernelOffset := by
    unfold Canonical kernelOffset
    omega
  have hclear : b.higherHalf m₁ = some (store64 m₁ b.pml4 0) := by
    have hwalk : (BootLayout.tablesOf m₁).walk b.pml4 ((b.pml4 + kernelOffset) % 2 ^ 64) = some ⟨b.pml4, true, false⟩ := by
      rw [hbefore _ hrax.1, hrax.2, if_neg (by unfold kernelOffset; omega), kernelWindow, if_pos (by omega),
        Nat.add_sub_cancel]
    rw [BootLayout.higherHalf, BootLayout.clearQword, hwalk]
    rfl
  refine ⟨m₁, _, hstart, hclear, hbefore, fun v hv => hboot.walk_canonical hv, hboot, ?_⟩
  refine Set.EqOn.trans ?_ hframe
  refine (store_eqOn_compl m₁ b.pml4 8 0).mono (Set.compl_subset_compl.mpr fun x hx => ?_)
  simp only [bytes, Set.mem_Ico] at hx ⊢
  omega

/-- The tables on the page behind the boot code. -/
def imageLayout : BootLayout := ⟨0x101000, by decide, by decide⟩

/-- In memory that is full of ones: the boot code is shown twice before `higher_half`, and once after it. -/
theorem boot_paging_image : ∃ m₁ m₂, imageLayout.start (fun _ => 0xFF) = some m₁ ∧
    imageLayout.higherHalf m₁ = some m₂ ∧
    (BootLayout.tablesOf m₁).walk 0x101000 0x100000 = some ⟨0x100000, true, false⟩ ∧
    (BootLayout.tablesOf m₁).walk 0x101000 (kernelOffset + 0x100000) = some ⟨0x100000, true, false⟩ ∧
    (BootLayout.tablesOf m₂).walk 0x101000 0x100000 = none ∧
    (BootLayout.tablesOf m₂).walk 0x101000 (kernelOffset + 0x100000) = some ⟨0x100000, true, false⟩ ∧
    m₂ 0x106000 = 0xFF := by
  obtain ⟨m₁, m₂, hstart, hhigher, hbefore, hafter, -, hframe⟩ := boot_paging imageLayout fun _ => 0xFF
  have hlow : Canonical 0x100000 := .inl (by decide)
  have hhigh : Canonical (kernelOffset + 0x100000) := .inr (by decide)
  refine ⟨m₁, m₂, hstart, hhigher, (hbefore _ hlow).trans (if_pos (by decide)),
    (hbefore _ hhigh).trans (if_neg (by decide)), (hafter _ hlow).trans (if_neg (by decide)),
    (hafter _ hhigh).trans (if_pos (by decide)), hframe ?_⟩
  simp [bytes, imageLayout]

end PointerOS
