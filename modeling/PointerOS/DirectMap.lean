import PointerOS.InitPmm
import PointerOS.MappingLaw

/-!
# The direct map

`init_VMM` takes the highest end of all entries of the memory map, and maps every physical address
below it at `directOffset`. The tables of `boot.s` are in force while it does so. They show the first
128 MB of memory at `kernelOffset`, where the code reaches the bitmap, the boot PML4 and the new tables:
one that lies further up gives a page fault.
-/
namespace PointerOS
open ByteMemory Tables

/-- The body of the loop over the tags: entries of all types count. -/
def highestEntryPass (mem : Memory) (maxAddr tag : ℕ) : Option ℕ :=
  if tagType mem tag = multibootTagTypeMmap then
    (mmapEntries mem tag).map fun es => es.foldl (fun maxAddr e => if maxAddr < e.stop then e.stop else maxAddr) maxAddr
  else some maxAddr

def vmmMaxAddr (b : BootInfo) : Option ℕ := forTags b.mem (highestEntryPass b.mem) tagTurns b.firstTag 0

/-- The address `kernelOffset + paddr` leads to `paddr`, and can be written. -/
def KernelSees (T : Tables) (cr3 paddr : ℕ) : Prop :=
  T.walk cr3 ((paddr + kernelOffset) % 2 ^ 64) = some ⟨paddr, true, false⟩

instance (T : Tables) (cr3 paddr : ℕ) : Decidable (KernelSees T cr3 paddr) :=
  inferInstanceAs (Decidable (T.walk cr3 ((paddr + kernelOffset) % 2 ^ 64) = some ⟨paddr, true, false⟩))

namespace Vm
variable {σ : Type*} (alloc : σ → ℕ × σ) (cr3 : ℕ)

/-- The next table on the way. It is cleared or read at once, through the tables in CR3. -/
def seenTable (vm : Vm σ) (t : ℕ) (i : Fin 512) : Option (ℕ × Vm σ) :=
  if KernelSees vm.tables cr3 (nextTable alloc vm t i 0).1 then some (nextTable alloc vm t i 0) else none

/-- A round of the loop, or a page fault. -/
def seenPage (vm : Vm σ) (pml4 paddr : ℕ) : Option (Vm σ) :=
  let vaddr := (paddr + directOffset) % 2 ^ 64
  (seenTable alloc cr3 vm pml4 (index vaddr 3)).bind fun (pdpt, vm) =>
  (seenTable alloc cr3 vm pdpt (index vaddr 2)).map fun (pd, vm) =>
  vm.setEntry pd (index vaddr 1) (paddr ||| (ptePresent ||| pteWritable ||| ptePageSize))

def seenPagesFrom (pml4 maxAddr : ℕ) : ℕ → ℕ → Vm σ → Option (Vm σ)
  | 0, _, _ => none
  | n + 1, paddr, vm =>
    if paddr < maxAddr then
      (seenPage alloc cr3 vm pml4 paddr).bind (seenPagesFrom pml4 maxAddr n ((paddr + pageSize2MB) % 2 ^ 64))
    else some vm

/-- The new PML4 is cleared, and the boot PML4 is read. -/
def seenRoot (vm : Vm σ) : Option (ℕ × Vm σ) :=
  if KernelSees vm.tables cr3 (directRoot alloc vm cr3).1 ∧ KernelSees vm.tables cr3 cr3 then
    some (directRoot alloc vm cr3)
  else none

def seenDirectMapping (vm : Vm σ) (maxAddr : ℕ) : Option (ℕ × Vm σ) :=
  (seenRoot alloc cr3 vm).bind fun (pml4, vm) =>
  (seenPagesFrom alloc cr3 pml4 maxAddr (2 ^ 43 + 1) 0 vm).map fun vm => (pml4, vm)

end Vm

/-- The bitmap lies from `kernel_end` on. -/
def BitmapSeen (b : BootState) (T : Tables) (cr3 totalPages : ℕ) : Prop :=
  ∀ i, BitmapByte b totalPages i → KernelSees T cr3 ((b.kernelEnd + i + 2 ^ 64 - kernelOffset) % 2 ^ 64)

/-- `init_PMM` and then `init_VMM` return, with the tables `T` in CR3: the state of the allocator in between, the
new PML4, and the memory afterwards. -/
def InitMemory (b : BootState) (T : Tables) (cr3 : ℕ) (s : Pmm) (pml4 : ℕ) (vm : Vm Pmm) : Prop :=
  initPMM b = some s ∧ BitmapSeen b T cr3 s.totalPages ∧ ∃ maxAddr, vmmMaxAddr b.info = some maxAddr ∧
    Vm.seenDirectMapping Pmm.pmmAllocPage cr3 ⟨T, s⟩ maxAddr = some (pml4, vm)

/-! ## The frames of the tables -/

section Frames
variable {σ : Type*} (alloc : σ → ℕ × σ)

def stateAfter (s : σ) : ℕ → σ
  | 0 => s
  | n + 1 => (alloc (stateAfter s n)).2

/-- The result of a call of the allocator, counted from 0. -/
def frameAt (s : σ) (n : ℕ) : ℕ := (alloc (stateAfter alloc s n)).1

theorem stateAfter_next (s : σ) (n : ℕ) : stateAfter alloc (alloc s).2 n = stateAfter alloc s (n + 1) := by
  induction n with
  | zero => rfl
  | succ n ih => exact congrArg (fun s => (alloc s).2) ih

theorem framesTaken_eq (s : σ) (n : ℕ) : framesTaken alloc s n = (List.range n).map (frameAt alloc s) := by
  induction n generalizing s with
  | zero => rfl
  | succ n ih =>
    rw [framesTaken, ih, List.range_succ_eq_map, List.map_cons, List.map_map]
    refine congrArg _ (List.map_congr_left fun k _ => ?_)
    rw [Function.comp_apply, frameAt, frameAt, stateAfter_next]

variable {alloc} {T : Tables} {roots : Set ℕ} {s : σ} {N m n : ℕ}

theorem FramesFresh.isFrame (h : FramesFresh alloc T roots s N) (hn : n < N) :
    IsFrame (frameAt alloc s n) ∧ T.Fresh roots (frameAt alloc s n) := by
  refine h.fresh _ ?_
  rw [framesTaken_eq]
  exact List.mem_map_of_mem (List.mem_range.mpr hn)

theorem FramesFresh.frameAt_inj (h : FramesFresh alloc T roots s N) (hm : m < N) (hn : n < N) :
    frameAt alloc s m = frameAt alloc s n ↔ m = n := by
  have hnodup := h.nodup
  rw [framesTaken_eq] at hnodup
  exact ⟨fun heq => List.inj_on_of_nodup_map hnodup (List.mem_range.mpr hm) (List.mem_range.mpr hn) heq,
    fun heq => heq ▸ rfl⟩

end Frames

/-- The number of the call that gives the table of the 512 GB with the number `a`. -/
def pdptNo (a : ℕ) : ℕ := 1 + 513 * a

/-- The number of the call that gives the table of the GB with the number `c`. -/
def pdNo (c : ℕ) : ℕ := 2 + c + c / 512

/-- The entry of a new table. -/
def linkTo (f : ℕ) : ℕ := f ||| (ptePresent ||| pteWritable)

def directEntry (d : ℕ) : ℕ := d * pageSize2MB ||| (ptePresent ||| pteWritable ||| ptePageSize)

/-- The tables when `p` tables of 512 GB and `q` tables of 1 GB are made and `k` pages are mapped. -/
structure DirectTables {σ : Type*} (alloc : σ → ℕ × σ) (old : Vm σ) (cr3 p q k : ℕ) (vm : Vm σ) : Prop where
  pmm : vm.pmm = stateAfter alloc old.pmm (1 + p + q)
  root : ∀ i, vm.tables (frameAt alloc old.pmm 0) i =
    if i.val = 511 then old.tables cr3 511
    else if 256 ≤ i.val ∧ i.val < 256 + p then linkTo (frameAt alloc old.pmm (pdptNo (i.val - 256))) else 0
  pdpt : ∀ a < p, ∀ i, vm.tables (frameAt alloc old.pmm (pdptNo a)) i =
    if a * 512 + i.val < q then linkTo (frameAt alloc old.pmm (pdNo (a * 512 + i.val))) else 0
  pd : ∀ c < q, ∀ i, vm.tables (frameAt alloc old.pmm (pdNo c)) i =
    if c * 512 + i.val < k then directEntry (c * 512 + i.val) else 0
  other : ∀ f, (∀ n < 1 + p + q, f ≠ frameAt alloc old.pmm n) → vm.tables f = old.tables f

section Rounds
variable {σ : Type*} {alloc : σ → ℕ × σ} {old vm : Vm σ} {cr3 N p q k : ℕ}

theorem linkTo_spec {f : ℕ} (hf : IsFrame f) : present (linkTo f) = true ∧ pageSize (linkTo f) = false ∧
    writable (linkTo f) = true ∧ userBit (linkTo f) = false ∧ maskPage (linkTo f) = f ∧ entryFrame (linkTo f) = f := by
  have hs : pageSize f = false := testBit_frame hf.1 (by decide)
  have hu : userBit f = false := testBit_frame hf.1 (by decide)
  have hmask : maskPage (linkTo f) = f := maskPage_or_flags hf.1 (by decide)
  unfold linkTo at hmask ⊢
  refine ⟨?_, ?_, ?_, ?_, hmask, (entryFrame_eq_maskPage (Nat.or_lt_two_pow hf.2 (by decide))).trans hmask⟩
  · rw [present_or]
    exact Bool.or_true _
  · rw [pageSize_or, hs]
    rfl
  · rw [writable_or]
    exact Bool.or_true _
  · rw [userBit_or, hu]
    rfl

/-- A new table under an entry of a table made before. -/
theorem newTable_apply (hf : FramesFresh alloc old.tables {cr3} old.pmm N) (T : Tables) {m n t : ℕ} (hm : m < N)
    (hn : n < N) (ht : t < N) (i j : Fin 512) (e : ℕ) :
    (T.zeroTable (frameAt alloc old.pmm m)).setEntry (frameAt alloc old.pmm t) j e (frameAt alloc old.pmm n) i =
      if n = t ∧ i = j then e else if n = m then 0 else T (frameAt alloc old.pmm n) i := by
  simp only [setEntry, zeroTable, hf.frameAt_inj hn ht, hf.frameAt_inj hn hm]

/-- The way to a table that is there. -/
theorem nextTable_there {t f : ℕ} {i : Fin 512} (hf : IsFrame f) (he : vm.tables t i = linkTo f) :
    Vm.nextTable alloc vm t i 0 = (f, vm) := by
  obtain ⟨hp, -, -, -, hmask, -⟩ := linkTo_spec hf
  rw [nextTable_present (by rw [he]; exact hp), he, hmask]
  rfl

/-- The way to a table that is made. -/
theorem nextTable_made {t : ℕ} {i : Fin 512} (hf : IsFrame (alloc vm.pmm).1) (he : vm.tables t i = 0) :
    Vm.nextTable alloc vm t i 0 = ((alloc vm.pmm).1,
      ⟨(vm.tables.zeroTable (alloc vm.pmm).1).setEntry t i (linkTo (alloc vm.pmm).1), (alloc vm.pmm).2⟩) := by
  have hp : present (vm.tables t i) = false := by
    rw [he]
    rfl
  unfold Vm.nextTable Vm.newTable
  rw [if_pos hp]
  refine Prod.ext ?_ rfl
  exact (congrArg maskPage (setEntry_same ..)).trans (linkTo_spec hf).2.2.2.2.1

namespace DirectTables

/-- The table of the next 512 GB is made. -/
theorem addPdpt (h : DirectTables alloc old cr3 p (512 * p) k vm) (hf : FramesFresh alloc old.tables {cr3} old.pmm N)
    (hN : 1 + p + 512 * p < N) (hk : k ≤ 512 * (512 * p)) (i : Fin 512) (hi : i.val = 256 + p) (hp : p < 255) :
    ∃ vm', Vm.nextTable alloc vm (frameAt alloc old.pmm 0) i 0 = (frameAt alloc old.pmm (pdptNo p), vm') ∧
      DirectTables alloc old cr3 (p + 1) (512 * p) k vm' := by
  have hno : pdptNo p = 1 + p + 512 * p := by
    unfold pdptNo
    omega
  have hframe : (alloc vm.pmm).1 = frameAt alloc old.pmm (pdptNo p) := by
    rw [h.pmm, hno]
    rfl
  have he : vm.tables (frameAt alloc old.pmm 0) i = 0 := by
    rw [h.root, if_neg (by omega), if_neg (by omega)]
  have hmade := nextTable_made (hframe ▸ (hf.isFrame (hno ▸ hN)).1) he
  rw [hframe] at hmade
  have happly : ∀ {n}, n < N → ∀ j, (vm.tables.zeroTable (frameAt alloc old.pmm (pdptNo p))).setEntry
      (frameAt alloc old.pmm 0) i (linkTo (frameAt alloc old.pmm (pdptNo p))) (frameAt alloc old.pmm n) j =
      if n = 0 ∧ j = i then linkTo (frameAt alloc old.pmm (pdptNo p)) else if n = pdptNo p then 0
      else vm.tables (frameAt alloc old.pmm n) j :=
    fun hn j => newTable_apply hf vm.tables (hno ▸ hN) hn (by omega) j i _
  refine ⟨_, hmade, ?_, fun j => ?_, fun a ha j => ?_, fun c hc j => ?_, fun f hf' => ?_⟩
  · dsimp only
    rw [h.pmm, show 1 + (p + 1) + 512 * p = 1 + p + 512 * p + 1 by omega]
    rfl
  · dsimp only
    rw [happly (by omega), h.root]
    by_cases hj : j = i
    · subst hj
      rw [if_pos ⟨rfl, rfl⟩, if_neg (by omega), if_pos (by omega), hi, Nat.add_sub_cancel_left]
    · have hne : j.val ≠ 256 + p := fun hv => hj (Fin.ext (hv.trans hi.symm))
      rw [if_neg fun hc => hj hc.2, if_neg (by omega)]
      exact if_congr Iff.rfl rfl (if_congr (by omega) rfl rfl)
  · dsimp only
    have hlt : pdptNo a < N := by
      unfold pdptNo at hno ⊢
      omega
    rw [happly hlt, if_neg fun hc => by unfold pdptNo at hc; omega]
    by_cases hap : a = p
    · subst hap
      rw [if_pos rfl, if_neg (by omega)]
    · rw [if_neg fun hc => hap (by unfold pdptNo at hc; omega)]
      exact h.pdpt a (by omega) j
  · dsimp only
    have hne : pdNo c < N ∧ pdNo c ≠ 0 ∧ pdNo c ≠ pdptNo p := by
      unfold pdNo pdptNo
      omega
    rw [happly hne.1, if_neg fun hc => hne.2.1 hc.1, if_neg hne.2.2]
    exact h.pd c hc j
  · have hroot := hf' 0 (by omega)
    have hnew := hf' (pdptNo p) (by omega)
    funext j
    dsimp only
    rw [setEntry_of_ne _ _ fun hc => hroot hc.1, zeroTable_of_ne _ _ hnew, h.other f fun n hn => hf' n (by omega)]

/-- The table of the next GB is made. -/
theorem addPd (h : DirectTables alloc old cr3 p q k vm) (hf : FramesFresh alloc old.tables {cr3} old.pmm N)
    (hN : 1 + p + q < N) (hp : p = q / 512 + 1) (hk : k ≤ 512 * q) (i : Fin 512) (hi : i.val = q % 512) :
    ∃ vm', Vm.nextTable alloc vm (frameAt alloc old.pmm (pdptNo (q / 512))) i 0 = (frameAt alloc old.pmm (pdNo q), vm') ∧
      DirectTables alloc old cr3 p (q + 1) k vm' := by
  have hno : pdNo q = 1 + p + q := by
    unfold pdNo
    omega
  have htable : pdptNo (q / 512) < N := by
    unfold pdptNo
    omega
  have hframe : (alloc vm.pmm).1 = frameAt alloc old.pmm (pdNo q) := by
    rw [h.pmm, hno]
    rfl
  have he : vm.tables (frameAt alloc old.pmm (pdptNo (q / 512))) i = 0 := by
    rw [h.pdpt _ (by omega), if_neg (by omega)]
  have hmade := nextTable_made (hframe ▸ (hf.isFrame (hno ▸ hN)).1) he
  rw [hframe] at hmade
  have happly : ∀ {n}, n < N → ∀ j, (vm.tables.zeroTable (frameAt alloc old.pmm (pdNo q))).setEntry
      (frameAt alloc old.pmm (pdptNo (q / 512))) i (linkTo (frameAt alloc old.pmm (pdNo q))) (frameAt alloc old.pmm n) j =
      if n = pdptNo (q / 512) ∧ j = i then linkTo (frameAt alloc old.pmm (pdNo q)) else if n = pdNo q then 0
      else vm.tables (frameAt alloc old.pmm n) j :=
    fun hn j => newTable_apply hf vm.tables (hno ▸ hN) hn htable j i _
  refine ⟨_, hmade, ?_, fun j => ?_, fun a ha j => ?_, fun c hc j => ?_, fun f hf' => ?_⟩
  · dsimp only
    rw [h.pmm]
    rfl
  · dsimp only
    rw [happly (by omega), if_neg fun hc => by unfold pdptNo at hc; omega, if_neg (by omega)]
    exact h.root j
  · dsimp only
    have hne : pdptNo a < N ∧ pdptNo a ≠ pdNo q := by
      unfold pdNo pdptNo
      omega
    rw [happly hne.1, if_neg hne.2, h.pdpt a ha j]
    by_cases hj : a = q / 512 ∧ j = i
    · obtain ⟨rfl, rfl⟩ := hj
      rw [if_pos ⟨rfl, rfl⟩, if_pos (by omega), show q / 512 * 512 + j.val = q by omega]
    · have hlt : a * 512 + j.val ≠ q := fun heq => hj ⟨by omega, Fin.ext (by omega)⟩
      rw [if_neg fun hc => hj ⟨by have := hc.1; unfold pdptNo at this; omega, hc.2⟩]
      exact if_congr (by omega) rfl rfl
  · dsimp only
    have hne : pdNo c < N ∧ pdNo c ≠ pdptNo (q / 512) := by
      unfold pdNo pdptNo
      omega
    rw [happly hne.1, if_neg fun hc => hne.2 hc.1]
    by_cases hcq : c = q
    · subst hcq
      rw [if_pos rfl, if_neg (by omega)]
    · rw [if_neg fun hc => hcq (by unfold pdNo at hc; omega)]
      exact h.pd c (by omega) j
  · have hlink := hf' (pdptNo (q / 512)) (by unfold pdptNo; omega)
    have hnew := hf' (pdNo q) (by omega)
    funext j
    dsimp only
    rw [setEntry_of_ne _ _ fun hc => hlink hc.1, zeroTable_of_ne _ _ hnew, h.other f fun n hn => hf' n (by omega)]

/-- The next page is mapped. -/
theorem addPage (h : DirectTables alloc old cr3 p q k vm) (hf : FramesFresh alloc old.tables {cr3} old.pmm N)
    (hN : 1 + p + q ≤ N) (hp : p = (q + 511) / 512) (hk : k / 512 < q) (i : Fin 512) (hi : i.val = k % 512) :
    DirectTables alloc old cr3 p q (k + 1)
      (vm.setEntry (frameAt alloc old.pmm (pdNo (k / 512))) i (directEntry k)) := by
  have htable : pdNo (k / 512) < 1 + p + q := by
    unfold pdNo
    omega
  have happly : ∀ {n}, n < N → ∀ j, (vm.tables.setEntry (frameAt alloc old.pmm (pdNo (k / 512))) i (directEntry k))
      (frameAt alloc old.pmm n) j =
      if n = pdNo (k / 512) ∧ j = i then directEntry k else vm.tables (frameAt alloc old.pmm n) j := by
    intro n hn j
    simp only [setEntry, hf.frameAt_inj hn (show pdNo (k / 512) < N by omega)]
  refine ⟨h.pmm, fun j => ?_, fun a ha j => ?_, fun c hc j => ?_, fun f hf' => ?_⟩
  · refine (happly (by omega) j).trans ?_
    rw [if_neg fun hc => by unfold pdNo at hc; omega]
    exact h.root j
  · have hne : pdptNo a < N ∧ pdptNo a ≠ pdNo (k / 512) := by
      unfold pdNo pdptNo
      omega
    refine (happly hne.1 j).trans ?_
    rw [if_neg fun hc => hne.2 hc.1]
    exact h.pdpt a ha j
  · refine (happly (by unfold pdNo; omega) j).trans ?_
    rw [h.pd c hc j]
    by_cases hj : c = k / 512 ∧ j = i
    · obtain ⟨rfl, rfl⟩ := hj
      rw [if_pos ⟨rfl, rfl⟩, if_pos (by omega), show k / 512 * 512 + j.val = k by omega]
    · have hlt : c * 512 + j.val ≠ k := fun heq => hj ⟨by omega, Fin.ext (by omega)⟩
      rw [if_neg fun hc => hj ⟨by have := hc.1; unfold pdNo at this; omega, hc.2⟩]
      exact if_congr (by omega) rfl rfl
  · funext j
    exact (setEntry_of_ne _ _ fun hc => hf' _ htable hc.1).trans (congrFun (h.other f hf') j)

/-- The way to the table of the page `k` below the root. -/
theorem toPdpt (h : DirectTables alloc old cr3 ((k + (2 ^ 18 - 1)) / 2 ^ 18) ((k + 511) / 512) k vm)
    (hf : FramesFresh alloc old.tables {cr3} old.pmm N) (hN : 1 + (k / 2 ^ 18 + 1) + (k / 512 + 1) ≤ N) (hk : k < 2 ^ 25)
    (i : Fin 512) (hi : i.val = 256 + k / 2 ^ 18) : ∃ vm', Vm.nextTable alloc vm (frameAt alloc old.pmm 0) i 0 =
      (frameAt alloc old.pmm (pdptNo (k / 2 ^ 18)), vm') ∧
      DirectTables alloc old cr3 (k / 2 ^ 18 + 1) ((k + 511) / 512) k vm' := by
  by_cases h0 : k % 2 ^ 18 = 0
  · have hp : (k + (2 ^ 18 - 1)) / 2 ^ 18 = k / 2 ^ 18 := by omega
    have hq : (k + 511) / 512 = 512 * (k / 2 ^ 18) := by omega
    rw [hp, hq] at h
    rw [hq]
    exact h.addPdpt hf (by omega) (by omega) i hi (by omega)
  · have hp : (k + (2 ^ 18 - 1)) / 2 ^ 18 = k / 2 ^ 18 + 1 := by omega
    rw [hp] at h
    refine ⟨vm, nextTable_there (hf.isFrame (by unfold pdptNo; omega)).1 ?_, h⟩
    rw [h.root, if_neg (by omega), if_pos (by omega), hi, Nat.add_sub_cancel_left]

theorem toPd (h : DirectTables alloc old cr3 (k / 2 ^ 18 + 1) ((k + 511) / 512) k vm)
    (hf : FramesFresh alloc old.tables {cr3} old.pmm N) (hN : 1 + (k / 2 ^ 18 + 1) + (k / 512 + 1) ≤ N)
    (i : Fin 512) (hi : i.val = k / 512 % 512) : ∃ vm',
      Vm.nextTable alloc vm (frameAt alloc old.pmm (pdptNo (k / 2 ^ 18))) i 0 =
        (frameAt alloc old.pmm (pdNo (k / 512)), vm') ∧
      DirectTables alloc old cr3 (k / 2 ^ 18 + 1) (k / 512 + 1) k vm' := by
  have hdiv : k / 2 ^ 18 = k / 512 / 512 := by omega
  by_cases h0 : k % 512 = 0
  · have hq : (k + 511) / 512 = k / 512 := by omega
    rw [hq] at h
    rw [hdiv] at h ⊢
    exact h.addPd hf (by omega) rfl (by omega) i hi
  · have hq : (k + 511) / 512 = k / 512 + 1 := by omega
    rw [hq] at h
    refine ⟨vm, nextTable_there (hf.isFrame (by unfold pdNo; omega)).1 ?_, h⟩
    rw [h.pdpt _ (by omega), if_pos (by omega), show k / 2 ^ 18 * 512 + i.val = k / 512 by omega]

end DirectTables

/-! ## What the boot tables show -/

variable {T : Tables} {pdpt pd : ℕ}

theorem BootTables.walk_eq (h : BootTables T cr3 pdpt pd) (v : ℕ) : T.walk cr3 v =
    if (index v 3).val = 511 ∧ (index v 2).val = 510 ∧ (index v 1).val < 64 then
      some ⟨(index v 1).val * 0x200000 + v % 2 ^ 21, true, false⟩
    else none := by
  obtain ⟨hroot, himage, -⟩ := h.entry_cases
  have habsent : ∀ {n t}, T t (index v n) = 0 → T.walkFrom v n t = none := by
    intro n t h0
    cases n <;> rw [walkFrom, h0] <;> rfl
  have hf : IsFrame pdpt ∧ IsFrame pd :=
    ⟨⟨h.aligned.1, by have := h.low.1; omega⟩, h.aligned.2, by have := h.low.2; omega⟩
  unfold walk
  by_cases h3 : (index v 3).val = 511
  · have he3 : T cr3 (index v 3) = linkTo pdpt := (h.root _).trans (if_pos h3)
    rw [walkFrom_step ((hroot _).trans (if_pos h3)), he3]
    by_cases h2 : (index v 2).val = 510
    · have he2 : T pdpt (index v 2) = linkTo pd := (h.image _).trans (if_pos h2)
      rw [walkFrom_step ((himage _).trans (if_pos h2)), he2]
      by_cases h1 : (index v 1).val < 64
      · have he1 : T pd (index v 1) = (index v 1).val * 0x200000 ||| 0x83 := (h.pages _).trans (if_pos h1)
        have hpage : T.walkFrom v 1 pd = some ⟨(index v 1).val * 0x200000 + v % 2 ^ 21, true, false⟩ := by
          have hp : ∀ e, present (e ||| 0x83) = true ∧ pageSize (e ||| 0x83) = true := fun e => by
            rw [present_or, pageSize_or]
            exact ⟨Bool.or_true _, Bool.or_true _⟩
          rw [walkFrom, he1, if_pos (hp _).1, if_pos (hp _).2, if_neg (by decide),
            leaf_or (n := 1) (by decide) (by omega) (by omega) (by decide)]
          rfl
        rw [hpage, if_pos ⟨h3, h2, h1⟩, Option.map_some, Option.map_some]
        simp only [Translation.under, (linkTo_spec hf.1).2.2.1, (linkTo_spec hf.2).2.2.1, Bool.false_and, Bool.and_self]
      · rw [habsent ((h.pages _).trans (if_neg h1)), if_neg fun hc => h1 hc.2.2]
        rfl
    · rw [habsent ((h.image _).trans (if_neg h2)), if_neg fun hc => h2 hc.2.1]
      rfl
  · rw [habsent ((h.root _).trans (if_neg h3)), if_neg fun hc => h3 hc.1]

/-- The kernel sees the first 128 MB. -/
theorem BootTables.sees_iff (h : BootTables T cr3 pdpt pd) {f : ℕ} (hf : f < 2 ^ 52) : KernelSees T cr3 f ↔ f < 2 ^ 27 := by
  have hv : (f + kernelOffset) % 2 ^ 64 = if f < 2 ^ 31 then 2 ^ 64 - 2 ^ 31 + f else f - 2 ^ 31 := by
    unfold kernelOffset
    split_ifs <;> omega
  unfold KernelSees
  rw [h.walk_eq, Option.ite_none_right_eq_some, Option.some_inj, Translation.mk.injEq, hv]
  simp only [index, and_true]
  by_cases hlow : f < 2 ^ 31
  · rw [if_pos hlow]
    omega
  · rw [if_neg hlow]
    omega

theorem FramesFresh.not_boot (hf : FramesFresh alloc old.tables {cr3} old.pmm N) (hb : BootTables old.tables cr3 pdpt pd)
    {n : ℕ} (hn : n < N) : cr3 ≠ frameAt alloc old.pmm n ∧ pdpt ≠ frameAt alloc old.pmm n ∧
      pd ≠ frameAt alloc old.pmm n := by
  have hfresh := (hf.isFrame hn).2 cr3 rfl
  obtain ⟨hroot, himage, -⟩ := hb.entry_cases
  have hpdpt : old.tables.reach cr3 [511] = some pdpt := congrArg (·.bind some) ((hroot 511).trans (if_pos rfl))
  have hpd : old.tables.reach cr3 [511, 510] = some pd := by
    rw [reach, Radix.reach_cons, (hroot 511).trans (if_pos rfl)]
    exact congrArg (·.bind some) ((himage 510).trans (if_pos rfl))
  refine ⟨fun h => hfresh [] (by decide) (congrArg some h), fun h => hfresh _ (by decide) (hpdpt.trans (congrArg some h)),
    fun h => hfresh _ (by decide) (hpd.trans (congrArg some h))⟩

namespace DirectTables

/-- The boot tables stay as they are. -/
theorem boot (h : DirectTables alloc old cr3 p q k vm) (hf : FramesFresh alloc old.tables {cr3} old.pmm N)
    (hb : BootTables old.tables cr3 pdpt pd) (hN : 1 + p + q ≤ N) : BootTables vm.tables cr3 pdpt pd := by
  have hcr3 := h.other cr3 fun n hn => (hf.not_boot hb (hn.trans_le hN)).1
  have hpdpt := h.other pdpt fun n hn => (hf.not_boot hb (hn.trans_le hN)).2.1
  have hpd := h.other pd fun n hn => (hf.not_boot hb (hn.trans_le hN)).2.2
  exact ⟨hb.aligned, hb.low, hb.distinct, hcr3 ▸ hb.root, hpdpt ▸ hb.image, hpd ▸ hb.pages⟩

/-- A round maps the next page when the kernel sees the two tables on the way. -/
theorem seenPage (h : DirectTables alloc old cr3 ((k + (2 ^ 18 - 1)) / 2 ^ 18) ((k + 511) / 512) k vm)
    (hf : FramesFresh alloc old.tables {cr3} old.pmm N) (hb : BootTables old.tables cr3 pdpt pd)
    (hN : 1 + (k / 2 ^ 18 + 1) + (k / 512 + 1) ≤ N) (hk : k < 2 ^ 25) :
    ∃ vm', DirectTables alloc old cr3 (k / 2 ^ 18 + 1) (k / 512 + 1) (k + 1) vm' ∧
      Vm.seenPage alloc cr3 vm (frameAt alloc old.pmm 0) (k * pageSize2MB) =
        if frameAt alloc old.pmm (pdptNo (k / 2 ^ 18)) < 2 ^ 27 ∧ frameAt alloc old.pmm (pdNo (k / 512)) < 2 ^ 27 then
          some vm' else none := by
  have hv : (k * pageSize2MB + directOffset) % 2 ^ 64 = k * 2 ^ 21 + (2 ^ 64 - 2 ^ 47) := by
    unfold pageSize2MB directOffset
    omega
  have h3 : (index (k * 2 ^ 21 + (2 ^ 64 - 2 ^ 47)) 3).val = 256 + k / 2 ^ 18 := by
    simp only [index]
    omega
  have h2 : (index (k * 2 ^ 21 + (2 ^ 64 - 2 ^ 47)) 2).val = k / 512 % 512 := by
    simp only [index]
    omega
  have h1 : (index (k * 2 ^ 21 + (2 ^ 64 - 2 ^ 47)) 1).val = k % 512 := by
    simp only [index]
    omega
  have hpdpt : pdptNo (k / 2 ^ 18) < N := by
    unfold pdptNo
    omega
  have hpd : pdNo (k / 512) < N := by
    unfold pdNo
    omega
  obtain ⟨vm₂, hnext₂, hd₂⟩ := h.toPdpt hf hN hk _ h3
  obtain ⟨vm₁, hnext₁, hd₁⟩ := hd₂.toPd hf hN _ h2
  have hsees₂ := (h.boot hf hb (by omega)).sees_iff (hf.isFrame hpdpt).1.2
  have hsees₁ := (hd₂.boot hf hb (by omega)).sees_iff (hf.isFrame hpd).1.2
  refine ⟨_, hd₁.addPage hf hN (by omega) (by omega) _ h1, ?_⟩
  unfold Vm.seenPage Vm.seenTable
  dsimp only
  rw [hv, hnext₂, if_congr hsees₂ rfl rfl]
  by_cases hlow₂ : frameAt alloc old.pmm (pdptNo (k / 2 ^ 18)) < 2 ^ 27
  · rw [if_pos hlow₂, Option.bind_some]
    dsimp only
    rw [hnext₁, if_congr hsees₁ rfl rfl]
    by_cases hlow₁ : frameAt alloc old.pmm (pdNo (k / 512)) < 2 ^ 27
    · rw [if_pos hlow₁, if_pos ⟨hlow₂, hlow₁⟩]
      rfl
    · rw [if_neg hlow₁, if_neg fun hc => hlow₁ hc.2]
      rfl
  · rw [if_neg hlow₂, if_neg fun hc => hlow₂ hc.1]
    rfl

end DirectTables

/-- The number of rounds. -/
def directRounds (maxAddr : ℕ) : ℕ := (maxAddr + (pageSize2MB - 1)) / pageSize2MB

/-- The number of calls of the allocator in `vmm_init_direct_mapping`: one for the PML4, one for each 512 GB and one
for each GB begun. -/
def directCalls (maxAddr : ℕ) : ℕ := 1 + (maxAddr + (2 ^ 39 - 1)) / 2 ^ 39 + (maxAddr + (2 ^ 30 - 1)) / 2 ^ 30

/-- The loop maps every page when the kernel sees all tables on the way. -/
theorem DirectTables.seenPagesFrom {maxAddr m n : ℕ}
    (h : DirectTables alloc old cr3 ((k + (2 ^ 18 - 1)) / 2 ^ 18) ((k + 511) / 512) k vm)
    (hf : FramesFresh alloc old.tables {cr3} old.pmm (directCalls maxAddr)) (hb : BootTables old.tables cr3 pdpt pd)
    (hmax : maxAddr ≤ 2 ^ 46) (hk : k + m = directRounds maxAddr) (hn : m < n) :
    (∀ vm', Vm.seenPagesFrom alloc cr3 (frameAt alloc old.pmm 0) maxAddr n (k * pageSize2MB) vm = some vm' →
      DirectTables alloc old cr3 ((directRounds maxAddr + (2 ^ 18 - 1)) / 2 ^ 18) ((directRounds maxAddr + 511) / 512)
        (directRounds maxAddr) vm') ∧
    ((∃ vm', Vm.seenPagesFrom alloc cr3 (frameAt alloc old.pmm 0) maxAddr n (k * pageSize2MB) vm = some vm') ↔
      ∀ j, k ≤ j → j < directRounds maxAddr →
        frameAt alloc old.pmm (pdptNo (j / 2 ^ 18)) < 2 ^ 27 ∧ frameAt alloc old.pmm (pdNo (j / 512)) < 2 ^ 27) := by
  induction m generalizing k n vm with
  | zero =>
    obtain ⟨n, rfl⟩ := Nat.exists_eq_add_of_lt hn
    have hend : ¬k * pageSize2MB < maxAddr := by
      unfold directRounds pageSize2MB at hk
      unfold pageSize2MB
      omega
    rw [Nat.zero_add, Vm.seenPagesFrom, if_neg hend]
    obtain rfl : k = directRounds maxAddr := hk
    exact ⟨fun vm' hvm => Option.some.inj hvm ▸ h, fun _ j hj hlt => absurd hlt (not_lt.mpr hj), fun _ => ⟨vm, rfl⟩⟩
  | succ m ih =>
    obtain ⟨n, rfl⟩ : ∃ i, n = i + 1 := ⟨n - 1, by omega⟩
    have hlt : k * pageSize2MB < maxAddr ∧ (k * pageSize2MB + pageSize2MB) % 2 ^ 64 = (k + 1) * pageSize2MB ∧
        k < 2 ^ 25 ∧ 1 + (k / 2 ^ 18 + 1) + (k / 512 + 1) ≤ directCalls maxAddr := by
      unfold directRounds pageSize2MB at hk
      unfold directCalls pageSize2MB
      omega
    obtain ⟨vm₁, hd, hpage⟩ := h.seenPage hf hb hlt.2.2.2 hlt.2.2.1
    rw [Vm.seenPagesFrom, if_pos hlt.1, hpage, hlt.2.1]
    have hnext : ∀ j, k ≤ j → j = k ∨ k + 1 ≤ j := by omega
    split_ifs with hlow
    · rw [Option.bind_some]
      have hp : k / 2 ^ 18 + 1 = (k + 1 + (2 ^ 18 - 1)) / 2 ^ 18 := by omega
      have hq : k / 512 + 1 = (k + 1 + 511) / 512 := by omega
      rw [hp, hq] at hd
      obtain ⟨hall, hiff⟩ := ih (n := n) hd (by omega) (by omega)
      refine ⟨hall, hiff.trans ⟨fun hrest j hj hjK => ?_, fun hrest j hj => hrest j (by omega)⟩⟩
      rcases hnext j hj with rfl | hj
      · exact hlow
      · exact hrest j hj hjK
    · refine ⟨fun vm' hvm => (nomatch hvm), fun ⟨vm', hvm⟩ => (nomatch hvm), fun hall => ?_⟩
      exact absurd (hall k le_rfl (by omega)) hlow

/-- The tables before the first round. -/
theorem DirectTables.start (hf : FramesFresh alloc old.tables {cr3} old.pmm N) (hN : 0 < N) :
    DirectTables alloc old cr3 0 0 0 (old.directRoot alloc cr3).2 := by
  have hroot : (alloc old.pmm).1 = frameAt alloc old.pmm 0 := rfl
  have hne : cr3 ≠ frameAt alloc old.pmm 0 := fun heq => (hf.isFrame hN).2 cr3 rfl [] (by decide) (congrArg some heq)
  have heq : (old.directRoot alloc cr3).2.tables = (old.tables.zeroTable (frameAt alloc old.pmm 0)).setEntry
      (frameAt alloc old.pmm 0) 511 (old.tables.zeroTable (frameAt alloc old.pmm 0) cr3 511) := rfl
  refine ⟨rfl, fun i => ?_, fun a ha => absurd ha (Nat.not_lt_zero _), fun c hc => absurd hc (Nat.not_lt_zero _),
    fun f hf' => ?_⟩
  · rw [heq, zeroTable_of_ne _ _ hne]
    by_cases hi : i = 511
    · subst hi
      rw [setEntry_same]
      rfl
    · rw [setEntry_of_ne _ _ fun hs => hi hs.2, zeroTable_same, if_neg fun hv : i.val = 511 => hi (Fin.ext hv),
        if_neg (by omega)]
  · have hfr := hf' 0 (by decide)
    rw [heq]
    funext i
    rw [setEntry_of_ne _ _ fun hs => hfr hs.1, zeroTable_of_ne _ _ hfr]

/-- The translation of an address in a mapped page. -/
theorem DirectTables.walk (h : DirectTables alloc old cr3 ((k + (2 ^ 18 - 1)) / 2 ^ 18) ((k + 511) / 512) k vm)
    (hf : FramesFresh alloc old.tables {cr3} old.pmm N) (hN : 1 + (k + (2 ^ 18 - 1)) / 2 ^ 18 + (k + 511) / 512 ≤ N)
    (hk : k ≤ 2 ^ 25) {x : ℕ} (hx : x < k * pageSize2MB) :
    vm.tables.walk (frameAt alloc old.pmm 0) (directOffset + x) = some ⟨x, true, false⟩ := by
  unfold pageSize2MB at hx
  have hoff : directOffset = 2 ^ 64 - 2 ^ 47 := rfl
  obtain ⟨d, hd⟩ : ∃ d, d = x / 2 ^ 21 := ⟨_, rfl⟩
  have h3 : (index (directOffset + x) 3).val = 256 + d / 2 ^ 18 := by
    simp only [index, hoff]
    omega
  have h2 : (index (directOffset + x) 2).val = d / 512 % 512 := by
    simp only [index, hoff]
    omega
  have h1 : (index (directOffset + x) 1).val = d % 512 := by
    simp only [index, hoff]
    omega
  have hlast : (directOffset + x) % 2 ^ (12 + 9 * 1) = x % 2 ^ 21 := by
    rw [hoff]
    omega
  have he3 : vm.tables (frameAt alloc old.pmm 0) (index (directOffset + x) 3) =
      linkTo (frameAt alloc old.pmm (pdptNo (d / 2 ^ 18))) := by
    rw [h.root, if_neg (by omega), if_pos (by omega), h3, Nat.add_sub_cancel_left]
  have he2 : vm.tables (frameAt alloc old.pmm (pdptNo (d / 2 ^ 18))) (index (directOffset + x) 2) =
      linkTo (frameAt alloc old.pmm (pdNo (d / 512))) := by
    rw [h.pdpt _ (by omega), if_pos (by omega), show d / 2 ^ 18 * 512 + (index (directOffset + x) 2).val = d / 512 by omega]
  have he1 : vm.tables (frameAt alloc old.pmm (pdNo (d / 512))) (index (directOffset + x) 1) = directEntry d := by
    rw [h.pd _ (by omega), if_pos (by omega), show d / 512 * 512 + (index (directOffset + x) 1).val = d by omega]
  have hpdpt := (hf.isFrame (show pdptNo (d / 2 ^ 18) < N by unfold pdptNo; omega)).1
  have hpd := (hf.isFrame (show pdNo (d / 512) < N by unfold pdNo; omega)).1
  obtain ⟨hp3, hs3, hw3, -, -, hf3⟩ := linkTo_spec hpdpt
  obtain ⟨hp2, hs2, hw2, -, -, hf2⟩ := linkTo_spec hpd
  have hpage : vm.tables.walkFrom (directOffset + x) 1 (frameAt alloc old.pmm (pdNo (d / 512))) = some ⟨x, true, false⟩ := by
    have hp : ∀ e, present (e ||| 0x83) = true ∧ pageSize (e ||| 0x83) = true := fun e => by
      rw [present_or, pageSize_or]
      exact ⟨Bool.or_true _, Bool.or_true _⟩
    have he : directEntry d = d * 0x200000 ||| 0x83 := rfl
    rw [walkFrom, he1, he, if_pos (hp _).1, if_pos (hp _).2, if_neg (by decide),
      leaf_or (n := 1) (by decide) (by omega) (by omega) (by decide), hlast, Option.some_inj, Translation.mk.injEq]
    exact ⟨by omega, rfl, rfl⟩
  have hc3 : vm.tables.child (frameAt alloc old.pmm 0) (index (directOffset + x) 3) =
      some (frameAt alloc old.pmm (pdptNo (d / 2 ^ 18))) := by
    rw [child_eq_some, he3]
    exact ⟨hp3, hs3, hf3⟩
  have hc2 : vm.tables.child (frameAt alloc old.pmm (pdptNo (d / 2 ^ 18))) (index (directOffset + x) 2) =
      some (frameAt alloc old.pmm (pdNo (d / 512))) := by
    rw [child_eq_some, he2]
    exact ⟨hp2, hs2, hf2⟩
  unfold Tables.walk
  rw [walkFrom_step hc3, walkFrom_step hc2, he3, he2, hpage, Option.map_some, Option.map_some]
  simp only [Translation.under, hw3, hw2, Bool.false_and, Bool.and_self]

end Rounds

end PointerOS
