import PointerOS.Isolation
import PointerOS.MappingLaw

/-!
# The kernel half

A new process takes the upper half of a PML4 as it is. Below the entries that are there at the first
process, all PML4s lead to the same tables, and a call on one of them is a call on all: it finds the
entry of the PML4 present and leaves it alone.
-/
namespace PointerOS
open Tables

variable {σ : Type*} {alloc : σ → ℕ × σ}

/-- The entries of the kernel half that are present. -/
def kernelSlots (T : Tables) (r : ℕ) : Set (Fin 512) := {i | 256 ≤ i.val ∧ present (T r i) = true}

/-- A call on the kernel's PML4 `r` or that of a process, on an address below one of the entries `S`. A
mapping has no user flag, and the frames for its tables are no tables of an address space. -/
inductive HalfCall (alloc : σ → ℕ × σ) (r : ℕ) (S : Set (Fin 512)) : Spaces σ → Spaces σ → Prop
  | map {s : Spaces σ} {q : ℕ} (paddr v ps flags : ℕ) (hq : q ∈ insert r s.pml4s) (hv : index v 3 ∈ S)
      (hu : userBit flags = false) (hhuge : ps = pageSize4KB → ¬InHugePage s.vm.tables q v)
      (hf : FramesFresh alloc s.vm.tables (insert r s.pml4s) s.vm.pmm
        (tablesMissing s.vm.tables v (tablesNeeded ps) 3 q)) :
      HalfCall alloc r S s { s with vm := s.vm.vmmMapPage alloc q paddr v ps flags }
  | unmap {s : Spaces σ} {q : ℕ} (v : ℕ) (hq : q ∈ insert r s.pml4s) (hv : index v 3 ∈ S) :
      HalfCall alloc r S s { s with vm := { s.vm with tables := (vmmUnmapPage s.vm.tables q v).2 } }

/-- The runs from the state before the first process, with the kernel on the PML4 `r`. The caller of
`create_user_process` runs on any of the PML4s. -/
inductive HalfRun (alloc : σ → ℕ × σ) (r : ℕ) (S : Set (Fin 512)) : Spaces σ → Prop
  | init {vm : Vm σ} (h : TreeReachable alloc vm r) (hS : S = kernelSlots vm.tables r) (pid : ℕ) :
      HalfRun alloc r S ⟨vm, pid, []⟩
  | create {s : Spaces σ} (h : HalfRun alloc r S s) (p : ℕ) {cr3 : ℕ} (hc : cr3 ∈ insert r s.pml4s)
      (hf : FramesFresh alloc s.vm.tables (insert r s.pml4s) s.vm.pmm 1) :
      HalfRun alloc r S (s.createUserProcess alloc p cr3).2
  | call {s s' : Spaces σ} (h : HalfRun alloc r S s) (hc : HalfCall alloc r S s s') : HalfRun alloc r S s'

/-- The PML4s `qs` share the tables of `r` below the entries `S`, and are no tables of `r` themselves. -/
structure HalfShared (T : Tables) (r : ℕ) (qs : Set ℕ) (S : Set (Fin 512)) : Prop where
  tree : PrivateTables T {r} {r} Set.univ
  half : ∀ i ∈ S, 256 ≤ i.val
  slots : ∀ i ∈ S, present (T r i) = true
  apart : ∀ q ∈ qs, T.Fresh {r} q
  same : ∀ q ∈ qs, ∀ i ∈ S, T q i = T r i

namespace HalfShared
variable {T T' : Tables} {vm : Vm σ} {r q t v e flags : ℕ} {qs : Set ℕ} {S : Set (Fin 512)} {p : List (Fin 512)}
  {i : Fin 512}

/-- The tables below the PML4 are none of the PML4s. -/
theorem ne_table (h : HalfShared T r qs S) (ho : T.Owned {r} Set.univ r p t) (hp : p ≠ []) (hq : q ∈ insert r qs) :
    q ≠ t := by
  rintro rfl
  rcases hq with rfl | hq
  · exact hp (h.tree.separated.only ho q rfl [] (Nat.zero_le 3) rfl).2.symm
  · exact h.apart q hq r rfl p ho.depth ho.reach

/-- An edit of the tables below the PML4 that keeps the tree. -/
theorem congr (h : HalfShared T r qs S) (htree : PrivateTables T' {r} {r} Set.univ)
    (hroot : ∀ q ∈ insert r qs, T' q = T q) (hfresh : ∀ q ∈ qs, T'.Fresh {r} q) : HalfShared T' r qs S where
  tree := htree
  half := h.half
  slots := fun i hi => by
    rw [hroot r (Set.mem_insert r qs)]
    exact h.slots i hi
  apart := hfresh
  same := fun q hq i hi => by
    rw [hroot r (Set.mem_insert r qs), hroot q (Set.mem_insert_of_mem r hq)]
    exact h.same q hq i hi

/-- An entry with no table below it. -/
theorem setEntry (h : HalfShared T r qs S) (ho : T.Owned {r} Set.univ r p t) (hp : p ≠ []) (he : EntryOk p.length e)
    (hc : p.length < 3 → (T.setEntry t i e).child t i = none) : HalfShared (T.setEntry t i e) r qs S := by
  have hback : ∀ q ∈ ({r} : Set ℕ), ∀ p' x, p'.length ≤ 3 → (T.setEntry t i e).reach q p' = some x →
      T.reach q p' = some x := by
    intro q hq p' x hp' hx
    by_cases h3 : p.length = 3
    · exact (h.tree.reach_last ho h3 hq hp').symm.trans hx
    · exact h.tree.reach_closed ho (hc (lt_of_le_of_ne ho.depth h3)) hq hp' hx
  refine h.congr (h.tree.setEntry_mono ho he hback) (fun q hq => funext fun j => ?_) fun q hq r' hr' p' hp' hx => ?_
  · exact setEntry_of_ne T e fun hs => h.ne_table ho hp hq hs.1
  · exact h.apart q hq r' hr' p' hp' (hback r' hr' p' q hp' hx)

/-- A block of `vmm_map_page` below the PML4, or at an entry of it that is present. -/
theorem block (h : HalfShared vm.tables r qs S) (hu : userBit flags = false) (hv : index v 3 ∈ S)
    (hb : BlockReady alloc {r} {r} Set.univ r v flags vm p t i)
    (hnew : present (vm.tables t i) = false → (alloc vm.pmm).1 ∉ insert r qs) :
    HalfShared (Vm.nextTable alloc vm t i flags).2.tables r qs S := by
  cases hpr : present (vm.tables t i) with
  | true =>
    rw [nextTable_present hpr, hu]
    exact h
  | false =>
    have hN := nextTable_spec alloc flags h.tree hb.owned hb.depth hb.slot hb.link hb.fresh
    have hp : p ≠ [] := by
      rintro rfl
      obtain ⟨s, hs⟩ := hb.path
      obtain rfl : index v 3 = i := (List.cons.inj hs).1
      obtain rfl : r = t := Option.some.inj hb.owned.reach
      rw [h.slots _ hv] at hpr
      cases hpr
    have hne : ∀ q ∈ insert r qs, q ≠ (alloc vm.pmm).1 := by
      rintro q hq rfl
      exact hnew hpr hq
    refine h.congr hN.ext.inv (fun q hq => ?_) fun q hq => hN.ext.fresh (h.apart q hq) fun hmem => ?_
    · obtain ⟨a, -, -, -, -, heq⟩ := nextTable_absent alloc flags hpr
      rw [heq]
      funext j
      dsimp only
      rw [setEntry_of_ne _ _ fun hs => h.ne_table hb.owned hp hq hs.1, zeroTable_of_ne _ _ (hne q hq)]
    · rw [newFrames, hpr] at hmem
      exact hne q (Set.mem_insert_of_mem r hq) (List.mem_singleton.mp hmem)

/-- The upper tables of a call. -/
theorem down (h : HalfShared vm.tables r qs S) (hu : userBit flags = false) (hv : index v 3 ∈ S) {m : ℕ} (hm : m ≤ 3)
    (hn : m = 3 → NoHuge vm.tables r v)
    (hf : FramesFresh alloc vm.tables (insert r qs) vm.pmm (tablesMissing vm.tables v m 3 r)) :
    HalfShared (tablesDown alloc v flags m 3 r vm).2.tables r qs S ∧
      (tablesDown alloc v flags m 3 r vm).2.tables.Owned {r} Set.univ r ((indices v 3).take m)
        (tablesDown alloc v flags m 3 r vm).1 := by
  have hfresh := framesFresh_supply alloc {r} {r} Set.univ r flags v
  -- the frames to come are none of the PML4s
  have hsup : TableSupply alloc {r} {r} Set.univ r flags v fun vm m n t =>
      FramesFresh alloc vm.tables {r} vm.pmm (tablesMissing vm.tables v m n t) ∧
      ∀ g ∈ framesTaken alloc vm.pmm (tablesMissing vm.tables v m n t), g ∉ insert r qs :=
    ⟨fun hs => hfresh.head hs.1, fun hs hN => ⟨hfresh.next hs.1 hN, fun g hg => hs.2 g (hN.left g hg)⟩⟩
  have hblock : ∀ {vm : Vm σ} {m n p t}, BlockReady alloc {r} {r} Set.univ r v flags vm p t (index v n) →
      (FramesFresh alloc vm.tables {r} vm.pmm (tablesMissing vm.tables v (m + 1) n t) ∧
        ∀ g ∈ framesTaken alloc vm.pmm (tablesMissing vm.tables v (m + 1) n t), g ∉ insert r qs) →
      HalfShared vm.tables r qs S → HalfShared (Vm.nextTable alloc vm t (index v n) flags).2.tables r qs S := by
    intro vm m n p t hb hs h
    refine h.block hu hv hb fun hpr => hs.2 _ ?_
    rw [tablesMissing, hpr]
    exact List.mem_cons_self
  have hstart : FramesFresh alloc vm.tables {r} vm.pmm (tablesMissing vm.tables v m 3 r) ∧
      ∀ g ∈ framesTaken alloc vm.pmm (tablesMissing vm.tables v m 3 r), g ∉ insert r qs :=
    ⟨hf.subset (Set.singleton_subset_iff.mpr (Set.mem_insert r qs)),
      fun g hg hmem => (hf.fresh g hg).2 g hmem [] (Nat.zero_le 3) rfl⟩
  obtain ⟨hend, -, -, ho, -⟩ := tablesDown_supplied (n := 3) (P := fun vm : Vm σ => HalfShared vm.tables r qs S)
    hblock hsup h.tree (owned_root rfl) rfl (by simpa using hm) (Set.mem_univ _) (fun hd => hn (by simpa using hd)) hstart
    (fun _ q i s f _ hq => absurd hq (by simp)) h
  exact ⟨hend, ho⟩

/-- All PML4s have the same entry. -/
theorem entry_eq (h : HalfShared T r qs S) (hq : q ∈ insert r qs) (hi : i ∈ S) : T q i = T r i := by
  rcases hq with rfl | hq
  · rfl
  · exact h.same q hq i hi

/-- A call on one PML4 is a call on `r`. -/
theorem map_eq (h : HalfShared vm.tables r qs S) (hu : userBit flags = false) (hv : index v 3 ∈ S) (hq : q ∈ insert r qs)
    (paddr ps : ℕ) : vm.vmmMapPage alloc q paddr v ps flags = vm.vmmMapPage alloc r paddr v ps flags := by
  have hpr := h.slots _ hv
  have heq := h.entry_eq hq hv
  have hnext : Vm.nextTable alloc vm q (index v 3) flags = Vm.nextTable alloc vm r (index v 3) flags := by
    rw [nextTable_present (heq ▸ hpr), nextTable_present hpr, heq, hu]
    rfl
  unfold Vm.vmmMapPage
  rw [hnext]

theorem missing_eq (h : HalfShared T r qs S) (hv : index v 3 ∈ S) (hq : q ∈ insert r qs) (m : ℕ) :
    tablesMissing T v m 3 q = tablesMissing T v m 3 r := by
  cases m with
  | zero => rfl
  | succ m => rw [tablesMissing, tablesMissing, h.entry_eq hq hv]

theorem getEntry_eq (h : HalfShared T r qs S) (hv : index v 3 ∈ S) (hq : q ∈ insert r qs) :
    vmmGetEntry T q v = vmmGetEntry T r v := by
  have hpr := h.slots _ hv
  have hs := (h.tree.entries (owned_root rfl) (index v 3) (fun _ => Set.mem_univ _) hpr).1 (by decide)
  unfold vmmGetEntry
  rw [h.entry_eq hq hv, hpr, hs]
  rfl

theorem map (h : HalfShared vm.tables r qs S) (hu : userBit flags = false) (hv : index v 3 ∈ S) (hq : q ∈ insert r qs)
    {ps : ℕ} (paddr : ℕ) (hhuge : ps = pageSize4KB → ¬InHugePage vm.tables q v)
    (hf : FramesFresh alloc vm.tables (insert r qs) vm.pmm (tablesMissing vm.tables v (tablesNeeded ps) 3 q)) :
    HalfShared (vm.vmmMapPage alloc q paddr v ps flags).tables r qs S := by
  rw [h.map_eq hu hv hq]
  rw [h.missing_eq hv hq] at hf
  rw [InHugePage, h.getEntry_eq hv hq] at hhuge
  by_cases h4 : ps = pageSize4KB
  · subst h4
    have hn := noHuge_of_not_inHugePage h.tree rfl (Set.mem_univ _) (hhuge rfl)
    obtain ⟨hd, ho⟩ := h.down hu hv le_rfl (fun _ => hn) hf
    rw [show (indices v 3).take 3 = [index v 3, index v 2, index v 1] from rfl] at ho
    exact hd.setEntry ho (by simp) (fun _ => ⟨fun hd => absurd hd (by simp), fun hd => absurd hd (by simp)⟩)
      fun hd => absurd hd (by simp)
  · rw [tablesNeeded, if_neg h4] at hf
    obtain ⟨hd, ho⟩ := h.down hu hv (by decide) (fun hd => absurd hd (by decide)) hf
    rw [show (indices v 3).take 2 = [index v 3, index v 2] from rfl] at ho
    by_cases h2 : ps = pageSize2MB
    · subst h2
      have hs : pageSize (paddr ||| (ptePresent ||| ptePageSize ||| flags)) = true := by simp
      have heq : (vm.vmmMapPage alloc r paddr v pageSize2MB flags).tables = (tablesDown alloc v flags 2 3 r vm).2.tables.setEntry
          (tablesDown alloc v flags 2 3 r vm).1 (index v 1) (paddr ||| (ptePresent ||| ptePageSize ||| flags)) := rfl
      rw [heq]
      refine hd.setEntry ho (by simp) (fun _ => ⟨fun hd => absurd hd (by simp), fun _ hps => ?_⟩) fun _ => ?_
      · rw [hs] at hps
        cases hps
      · exact child_eq_none.mpr fun _ => by rwa [setEntry_same]
    · have heq : vm.vmmMapPage alloc r paddr v ps flags = (tablesDown alloc v flags 2 3 r vm).2 := by
        simp only [Vm.vmmMapPage, if_neg h4, if_neg h2, tablesDown]
      rw [heq]
      exact hd

theorem unmap (h : HalfShared T r qs S) (hv : index v 3 ∈ S) (hq : q ∈ insert r qs) :
    HalfShared (vmmUnmapPage T q v).2 r qs S := by
  have hclear : ∀ {p t i}, T.Owned {r} Set.univ r p t → p ≠ [] → HalfShared (T.setEntry t i 0) r qs S := by
    intro p t i ho hp
    refine h.setEntry ho hp (EntryOk.of_not_present rfl) fun _ => child_eq_none.mpr ?_
    rw [setEntry_same]
    intro hp0
    cases hp0
  have hfound := vmmGetEntry_found h.tree (v := v) rfl (Set.mem_univ _)
  unfold vmmUnmapPage
  rw [h.getEntry_eq hv hq]
  generalize vmmGetEntry T r v = x at hfound
  cases hfound with
  | none => exact h
  | huge ho => exact hclear ho (by simp)
  | page ho => exact hclear ho (by simp)

/-- A new process takes the upper half of one of the PML4s. -/
theorem create {cr3 g : ℕ} (h : HalfShared T r qs S) (hc : cr3 ∈ insert r qs) (hg : T.Fresh (insert r qs) g) :
    HalfShared (Spaces.copyHalf T g cr3) r (insert g qs) S := by
  have hother : ∀ f, f ≠ g → Spaces.copyHalf T g cr3 f = T f := fun f hf => funext fun i => if_neg hf
  have hne : ∀ q ∈ insert r qs, q ≠ g := by
    rintro q hq rfl
    exact hg q hq [] (Nat.zero_le 3) rfl
  have hgr : T.Fresh {r} g := fun q hq => hg q (Set.mem_insert_iff.mpr (.inl hq))
  have hreach : ∀ {q p}, q ∈ ({r} : Set ℕ) → p.length ≤ 3 → (Spaces.copyHalf T g cr3).reach q p = T.reach q p :=
    fun hq hp => hgr.reach_eq hother hq hp
  have hroot : Spaces.copyHalf T g cr3 r = T r := hother r (hne r (Set.mem_insert r qs))
  refine ⟨h.tree.write_fresh hgr hother, h.half, fun i hi => hroot ▸ h.slots i hi, fun q hq r' hr' p hp hx => ?_,
    fun q hq i hi => ?_⟩
  · replace hx := (hreach hr' hp).symm.trans hx
    rcases hq with rfl | hq
    · exact hgr r' hr' p hp hx
    · exact h.apart q hq r' hr' p hp hx
  · rw [hroot]
    rcases hq with rfl | hq
    · rw [Spaces.copyHalf, if_pos rfl, if_neg (by have := h.half i hi; omega), h.entry_eq hc hi]
    · rw [hother q (hne q (Set.mem_insert_of_mem r hq)), h.same q hq i hi]

end HalfShared

/-- A walk looks at one entry of the first table. -/
theorem walkFrom_entry {T : Tables} {v n q q' : ℕ} (h : T q (index v n) = T q' (index v n)) :
    T.walkFrom v n q = T.walkFrom v n q' := by
  cases n <;> simp only [walkFrom, h]

section Runs
variable {s s' : Spaces σ} {r q q' v : ℕ} {S : Set (Fin 512)}

theorem HalfCall.step (h : HalfShared s.vm.tables r s.pml4s S) (hc : HalfCall alloc r S s s') :
    HalfShared s'.vm.tables r s'.pml4s S := by
  cases hc with
  | map paddr v ps flags hq hv hu hhuge hf => exact h.map hu hv hq paddr hhuge hf
  | unmap v hq hv => exact h.unmap hv hq

theorem createUserProcess_shared {p cr3 : ℕ} (h : HalfShared s.vm.tables r s.pml4s S) (hc : cr3 ∈ insert r s.pml4s)
    (hf : FramesFresh alloc s.vm.tables (insert r s.pml4s) s.vm.pmm 1) :
    HalfShared (s.createUserProcess alloc p cr3).2.vm.tables r (s.createUserProcess alloc p cr3).2.pml4s S := by
  unfold Spaces.createUserProcess
  by_cases hp : p = 0
  · rw [if_pos hp]
    exact h
  rw [if_neg hp]
  dsimp only
  split_ifs
  · exact h
  · have hown : ∀ (vm : Vm σ) (pid pid' : ℕ), Spaces.pml4s ⟨vm, pid,
        ⟨(alloc s.vm.pmm).1, pid'⟩ :: s.processes⟩ = insert (alloc s.vm.pmm).1 s.pml4s := by
      intro vm pid pid'
      ext q
      simp [Spaces.pml4s, eq_comm]
    rw [hown]
    exact h.create hc hf.head.2

theorem HalfRun.shared (h : HalfRun alloc r S s) : HalfShared s.vm.tables r s.pml4s S := by
  induction h with
  | @init vm h hS pid =>
    have hnone : (⟨vm, pid, []⟩ : Spaces σ).pml4s = ∅ := by
      ext q
      simp [Spaces.pml4s]
    rw [hnone]
    subst hS
    exact ⟨h.tree.tables, fun i hi => hi.1, fun i hi => hi.2, fun q hq => absurd hq (Set.notMem_empty q),
      fun q hq => absurd hq (Set.notMem_empty q)⟩
  | create _ p hc hf ih => exact createUserProcess_shared ih hc hf
  | call _ hc ih => exact hc.step ih

/-- The entries of the PML4s are the same, and so are the walks through them. -/
theorem kernel_half_shared (h : HalfRun alloc r S s) (hq : q ∈ insert r s.pml4s) (hq' : q' ∈ insert r s.pml4s)
    (hv : index v 3 ∈ S) : s.vm.tables.walk q v = s.vm.tables.walk q' v :=
  walkFrom_entry ((h.shared.entry_eq hq hv).trans (h.shared.entry_eq hq' hv).symm)

end Runs

/-! ## A run -/

/-- The kernel image in a PML4 of its own. -/
def imageMapped : Vm ℕ := ((⟨bootTables, 16⟩ : Vm ℕ).directRoot nextFrame 0x1000).2

/-- All entries are those of the boot tables. -/
def FromBoot (T : Tables) : Prop := ∀ f i, T f i = 0 ∨ ∃ g, T f i = bootTables g i

theorem FromBoot.reach {T : Tables} {r f : ℕ} {p : List (Fin 512)} (h : FromBoot T) (hf : T.reach r p = some f) :
    f = r ∨ f < 16 * 4096 := by
  refine Radix.reach_mem (S := {f | f = r ∨ f < 16 * 4096}) (fun f _ i g hg => .inr ?_) (.inl rfl) hf
  obtain ⟨hp, hs, rfl⟩ := child_eq_some.mp hg
  obtain ⟨hroot, himage, hpages⟩ := bootTables_boot.entry_cases
  rcases h f i with h0 | ⟨b, hb⟩
  · rw [h0] at hp
    cases hp
  · rw [hb] at hp hs ⊢
    have hc : bootTables.child b i = some (entryFrame (bootTables b i)) := child_eq_some.mpr ⟨hp, hs, rfl⟩
    by_cases h1 : b = 0x1000
    · rw [h1, hroot] at hc
      split_ifs at hc
      rw [h1, ← Option.some.inj hc]
      decide
    by_cases h2 : b = 0x2000
    · rw [h2, himage] at hc
      split_ifs at hc
      rw [h2, ← Option.some.inj hc]
      decide
    by_cases h3 : b = 0x3000
    · rw [h3, hpages] at hc
      cases hc
    · rw [bootTables, if_neg h1, if_neg h2, if_neg h3] at hp
      cases hp

theorem bootTables_fresh : bootTables.Fresh {0x1000} 0x10000 := by
  rintro r rfl p - hf
  rcases bootTables_boot.reach_cases hf with ⟨-, h⟩ | ⟨-, h⟩ | ⟨-, h⟩ <;> exact absurd h (by decide)

theorem imageMapped_fromBoot : FromBoot imageMapped.tables := by
  intro f i
  obtain ⟨hother, hroot⟩ := directRoot_entries nextFrame ⟨bootTables, 16⟩ bootTables_fresh
  by_cases hf : f = (nextFrame 16).1
  · subst hf
    exact (hroot i).imp_right fun h => ⟨0x1000, h⟩
  · exact .inr ⟨f, congrFun (hother f hf) i⟩

theorem imageMapped_reachable : TreeReachable nextFrame imageMapped 0x10000 :=
  @TreeReachable.direct ℕ nextFrame ⟨bootTables, 16⟩ _ _ _ 0 bootTables_boot bootTables_fresh fun h => absurd h (by decide)

/-- A process made on the kernel's PML4. -/
def imageProcess : Spaces ℕ := ((⟨imageMapped, 1, []⟩ : Spaces ℕ).createUserProcess nextFrame 1 0x10000).2

theorem imageProcess_fromBoot : FromBoot imageProcess.vm.tables := by
  intro f i
  have heq : imageProcess.vm.tables f i =
      if f = 0x11000 then (if i.val < 256 then 0 else imageMapped.tables 0x10000 i) else imageMapped.tables f i := rfl
  rw [heq]
  split_ifs
  · exact .inl rfl
  · exact imageMapped_fromBoot 0x10000 i
  · exact imageMapped_fromBoot f i

/-- A page mapped through the process is there for the kernel too. -/
theorem kernel_half_shared_new_page :
    (imageProcess.vm.vmmMapPage nextFrame 0x11000 0x400000 0xFFFFFFFFC0000000 pageSize4KB pteWritable).tables.walk
      0x10000 0xFFFFFFFFC0000123 = some ⟨0x400123, true, false⟩ := by
  have hfresh : ∀ {s : Spaces ℕ} {n k : ℕ}, FromBoot s.vm.tables → (∀ q ∈ insert 0x10000 s.pml4s, q < n * 4096) →
      16 ≤ n → n + k ≤ 2 ^ 40 → FramesFresh nextFrame s.vm.tables (insert 0x10000 s.pml4s) n k := by
    intro s n k hs hq hn hk
    refine framesFresh_nextFrame (fun r hr p f _ hf => ?_) hk
    rcases hs.reach hf with rfl | hlt
    · exact hq _ hr
    · exact hlt.trans_le (Nat.mul_le_mul_right 4096 hn)
  have hrun : HalfRun nextFrame 0x10000 (kernelSlots imageMapped.tables 0x10000) imageProcess := by
    refine .create (.init imageMapped_reachable rfl 1) 1 (Set.mem_insert _ _)
      (hfresh imageMapped_fromBoot (fun q hq => ?_) (by decide) (by decide))
    rcases hq with rfl | ⟨p, hp, -⟩
    · decide
    · cases hp
  have hproc : 0x11000 ∈ imageProcess.pml4s := ⟨⟨0x11000, 1⟩, List.mem_singleton_self _, rfl⟩
  have hslot : index 0xFFFFFFFFC0000000 3 ∈ kernelSlots imageMapped.tables 0x10000 := ⟨by decide, by decide +kernel⟩
  have hcall := HalfRun.call hrun (.map 0x400000 0xFFFFFFFFC0000000 pageSize4KB pteWritable
    (Set.mem_insert_of_mem 0x10000 hproc) hslot rfl (fun _ => ?_) (hfresh imageProcess_fromBoot (fun q hq => ?_)
      (by decide) (by decide)))
  · have hpage : index 0xFFFFFFFFC0000123 3 ∈ kernelSlots imageMapped.tables 0x10000 := hslot
    refine (kernel_half_shared hcall (Set.mem_insert _ _) (Set.mem_insert_of_mem _ hproc) hpage).trans ?_
    decide +kernel
  · rintro ⟨e, he, -⟩
    rw [show vmmGetEntry imageProcess.vm.tables 0x11000 0xFFFFFFFFC0000000 = none by decide +kernel] at he
    cases he
  · rcases hq with rfl | ⟨p, hp, rfl⟩
    · decide
    · rw [List.mem_singleton.mp hp]
      decide

end PointerOS
