import PointerOS.Isolation
import PointerOS.PageTree

/-!
# The mapping law

The trees that `vmm_init_direct_mapping` and `create_user_process` make, and what any
calls of `vmm_map_page` and `vmm_unmap_page` make of them, are trees in the sense of
`PageTree`. A call that maps a page therefore gives it the frame and the permissions
asked for, and changes no other address.
-/
namespace PointerOS
open Tables

def pteWcHuge : ℕ := 2 ^ 12

/-- `DIRECT_OFFSET` -/
def directOffset : ℕ := 0xFFFF800000000000

namespace Vm
variable {σ : Type*} (alloc : σ → ℕ × σ)

/-- One round of the loop of `vmm_init_direct_mapping`. -/
def directPage (vm : Vm σ) (pml4 paddr : ℕ) : Vm σ :=
  let vaddr := (paddr + directOffset) % 2 ^ 64
  let (pdpt, vm) := nextTable alloc vm pml4 (index vaddr 3) 0
  let (pd, vm) := nextTable alloc vm pdpt (index vaddr 2) 0
  vm.setEntry pd (index vaddr 1) (paddr ||| (ptePresent ||| pteWritable ||| ptePageSize))

/-- The loop from `paddr` on. There are `2 ^ 43` addresses of pages of 2 MB, so a loop that is
not over after that many rounds never ends. -/
def directPagesFrom (pml4 maxAddr : ℕ) : ℕ → ℕ → Vm σ → Vm σ
  | 0, _, vm => vm
  | n + 1, paddr, vm =>
    if paddr < maxAddr then
      directPagesFrom pml4 maxAddr n ((paddr + pageSize2MB) % 2 ^ 64) (directPage alloc vm pml4 paddr)
    else vm

/-- The new PML4, with the entry of the kernel image. -/
def directRoot (vm : Vm σ) (cr3 : ℕ) : ℕ × Vm σ :=
  let (pml4, vm) := newTable alloc vm
  (pml4, vm.setEntry pml4 511 (vm.tables cr3 511))

/-- The new value of CR3. -/
def vmmInitDirectMapping (vm : Vm σ) (cr3 maxAddr : ℕ) : ℕ × Vm σ :=
  let (pml4, vm) := directRoot alloc vm cr3
  (pml4, directPagesFrom alloc pml4 maxAddr (2 ^ 43 + 1) 0 vm)

end Vm

/-- The tables of `boot.s`: the kernel image is mapped by 64 pages of 2 MB. -/
structure BootTables (T : Tables) (pml4 pdptKernel pdKernel : ℕ) : Prop where
  aligned : pdptKernel % 4096 = 0 ∧ pdKernel % 4096 = 0
  low : pdptKernel < 2 ^ 32 ∧ pdKernel < 2 ^ 32
  distinct : pml4 ≠ pdptKernel ∧ pml4 ≠ pdKernel ∧ pdptKernel ≠ pdKernel
  root : ∀ i, T pml4 i = if i.val = 511 then pdptKernel ||| 3 else 0
  image : ∀ i, T pdptKernel i = if i.val = 510 then pdKernel ||| 3 else 0
  pages : ∀ i, T pdKernel i = if i.val < 64 then i.val * 0x200000 ||| 0x83 else 0

section Trees
variable {σ : Type*} {alloc : σ → ℕ × σ} {vm : Vm σ} {T : Tables} {r v w flags : ℕ}
variable {p : List (Fin 512)} {t : ℕ} {i : Fin 512}

/-! ## One call -/

namespace PageTree

theorem block (h : PageTree vm.tables r) (hb : BlockReady alloc {r} {r} Set.univ r v flags vm p t i) :
    PageTree (Vm.nextTable alloc vm t i flags).2.tables r ∧
      ∀ w, (Vm.nextTable alloc vm t i flags).2.tables.walk r w = vm.tables.walk r w := by
  obtain ⟨s, hi⟩ := hb.path
  have hup : userBit flags = true → ∀ q j s' f, p = q ++ j :: s' → vm.tables.reach r q = some f →
      userBit (vm.tables f j) = true := by
    rintro hu q j s' f rfl hf
    refine hb.user hu q j (s' ++ i :: s) f (by rw [hi, List.append_assoc, List.cons_append]) ?_ hf
    rw [List.length_append, List.length_cons]
    omega
  cases hpr : present (vm.tables t i) with
  | true =>
    rw [nextTable_present hpr]
    cases hu : userBit flags with
    | true => exact h.raise hb.owned hb.depth hpr (hb.link hpr) (hup hu)
    | false => exact ⟨h, fun _ => rfl⟩
  | false =>
    obtain ⟨a, ha, hpa, hwa, hua, heq⟩ := nextTable_absent alloc flags hpr
    obtain ⟨hframe, hfresh⟩ := hb.fresh hpr
    rw [heq]
    exact h.link hb.owned hb.depth hfresh hframe hpr ha hpa hwa fun hu => hup (hua.symm.trans hu)

/-- The upper tables of a call, made below the root. -/
theorem down (h : PageTree vm.tables r) (flags : ℕ) {m : ℕ} (hm : m ≤ 3) (hn : m = 3 → NoHuge vm.tables r v)
    (hf : FramesFresh alloc vm.tables {r} vm.pmm (tablesMissing vm.tables v m 3 r)) :
    PageTree (tablesDown alloc v flags m 3 r vm).2.tables r ∧
      (∀ w, (tablesDown alloc v flags m 3 r vm).2.tables.walk r w = vm.tables.walk r w) ∧
      (tablesDown alloc v flags m 3 r vm).2.tables.Owned {r} Set.univ r ((indices v 3).take m)
        (tablesDown alloc v flags m 3 r vm).1 ∧
      (userBit flags = true → UserPath (tablesDown alloc v flags m 3 r vm).2.tables r v m) := by
  obtain ⟨⟨htree, hwalk⟩, made, -, ho, -, hu⟩ := tablesDown_rule (n := 3)
    (P := fun vm' : Vm σ => PageTree vm'.tables r ∧ ∀ w, vm'.tables.walk r w = vm.tables.walk r w)
    (fun hb ht => ⟨(ht.1.block hb).1, fun w => ((ht.1.block hb).2 w).trans (ht.2 w)⟩)
    (framesFresh_supply alloc {r} {r} Set.univ r flags v) h.tables (owned_root rfl) rfl (by simpa using hm)
    (Set.mem_univ _) (fun hd => hn (by simpa using hd)) hf (fun _ q i s f _ hq => absurd hq (by simp))
    ⟨h, fun _ => rfl⟩
  exact ⟨htree, hwalk, ho, fun hfu => by simpa using hu hfu⟩

/-- The way to a user entry has the user bit. -/
theorem users_up (h : PageTree T r) (hp : p.length ≤ 3) (hf : T.reach r p = some t)
    (hpr : present (T t i) = true) (hu : userBit (T t i) = true) :
    ∀ q j s g, p = q ++ j :: s → T.reach r q = some g → userBit (T g j) = true := by
  induction p using List.reverseRecOn generalizing t i with
  | nil =>
    intro q j s g hq
    exact absurd (congrArg List.length hq) (by simp)
  | append_singleton p k ih =>
    rw [List.length_append, List.length_singleton] at hp
    obtain ⟨f, hf'⟩ := Radix.reach_of_prefix hf
    have hc : T.child f k = some t := (Radix.reach_concat hf').symm.trans hf
    have hfk := h.users (by omega) hf' hc hpr hu
    intro q j s g hq hg
    rcases List.eq_nil_or_concat s with rfl | ⟨s', k', rfl⟩
    · obtain ⟨rfl, hjk⟩ := List.append_inj' hq rfl
      obtain rfl : k = j := (List.cons.inj hjk).1
      obtain rfl : f = g := Option.some.inj (hf'.symm.trans hg)
      exact hfk
    · rw [List.concat_eq_append, ← List.cons_append, ← List.append_assoc] at hq
      obtain ⟨rfl, -⟩ := List.append_inj' hq rfl
      exact ih (by omega) hf' (child_eq_some.mp hc).1 hfk q j s' g rfl hg

/-- A page has the translation of its last entry. -/
theorem walk_leaf (h : PageTree T r) {n : ℕ} (hn : p.length + n = 3) (hf : T.reach r p = some t)
    {s : List (Fin 512)} (hi : indices w 3 = p ++ i :: s) (hpr : present (T t i) = true)
    (hl : n = 0 ∨ n < 3 ∧ pageSize (T t i) = true) : T.walk r w = some (leaf (T t i) w n) := by
  have hx : T.walkFrom w (3 - p.length) t = some (leaf (T t i) w n) := by
    obtain rfl := index_of_indices hi
    rw [show 3 - p.length = n by omega] at hpr hl ⊢
    rcases hl with rfl | ⟨hn3, hs⟩
    · rw [walkFrom, if_pos hpr]
    · cases n with
      | zero => rw [walkFrom, if_pos hpr]
      | succ n => rw [walkFrom, if_pos hpr, if_pos hs, if_neg (by omega)]
  obtain ⟨y, hy, h1, h2, h3, h4⟩ := walkFrom_below hi (List.cons_ne_nil i s) hf hx
  rw [walk, hy]
  refine congrArg some (Translation.ext h1 (h2 fun q j s' g hq hg => ?_) ?_)
  · have hlen := congrArg List.length hq
    rw [List.length_append, List.length_cons] at hlen
    obtain ⟨g', hg'⟩ := Radix.reach_of_prefix (p := q ++ [j]) (q := s')
      (by rw [List.append_assoc, List.singleton_append, ← hq]; exact hf)
    obtain ⟨hpg, hsg, -⟩ := child_eq_some.mp ((Radix.reach_concat hg).symm.trans hg')
    exact h.links (by omega) hg hpg hsg
  · cases hu : userBit (T t i) with
    | true => exact h3 (h.users_up (by omega) hf hpr hu)
    | false =>
      rw [h4 hu]
      exact hu.symm

/-- What a call with the last entry `e` does below `m` tables. -/
structure Maps (T T' : Tables) (r v m e : ℕ) : Prop where
  tree : PageTree T' r
  page : ∀ w, (indices w 3).take (m + 1) = (indices v 3).take (m + 1) →
    T'.walk r w = some (leaf e w (3 - m))
  other : ∀ w, (indices w 3).take (m + 1) ≠ (indices v 3).take (m + 1) → T'.walk r w = T.walk r w

theorem maps (h : PageTree vm.tables r) (flags : ℕ) {m e : ℕ} (hm : m = 2 ∨ m = 3) (hn : m = 3 → NoHuge vm.tables r v)
    (hf : FramesFresh alloc vm.tables {r} vm.pmm (tablesMissing vm.tables v m 3 r))
    (hpe : present e = true) (hse : m = 2 → pageSize e = true) (hue : userBit e = userBit flags) :
    Maps vm.tables ((tablesDown alloc v flags m 3 r vm).2.tables.setEntry
      (tablesDown alloc v flags m 3 r vm).1 (index v (3 - m)) e) r v m e := by
  obtain ⟨ht, hwalk, ho, hu⟩ := h.down flags (by omega) hn hf
  generalize tablesDown alloc v flags m 3 r vm = N at ht hwalk ho hu ⊢
  have htake : (indices v 3).take (m + 1) = (indices v 3).take m ++ [index v (3 - m)] := by
    rcases hm with rfl | rfl <;> rfl
  have hlen : ((indices v 3).take m).length = m := by
    rw [List.length_take, length_indices]
    omega
  have hi : ∃ s, indices v 3 = (indices v 3).take m ++ index v (3 - m) :: s := by
    refine ⟨(indices v 3).drop (m + 1), ?_⟩
    conv_lhs => rw [← List.take_append_drop (m + 1) (indices v 3), htake]
    rw [List.append_assoc, List.singleton_append]
  generalize (indices v 3).take m = p at ho hlen hi htake ⊢
  obtain ⟨s, hi⟩ := hi
  have htree : PageTree (N.2.tables.setEntry N.1 (index v (3 - m)) e) r := by
    refine ht.setLeaf ho (fun hp => child_eq_none.mpr fun _ => ?_) (fun _ hp => by omega) fun _ hue' => ?_
    · rw [setEntry_same]
      exact hse (by omega)
    · rintro q j s' f rfl hf'
      refine hu (hue.symm.trans hue') q j (s' ++ index v (3 - m) :: s) f ?_ ?_ hf'
      · rw [hi, List.append_assoc, List.cons_append]
      · rw [← hlen, List.length_append, List.length_cons]
        omega
  have hreach : (N.2.tables.setEntry N.1 (index v (3 - m)) e).reach r p = some N.1 := by
    rw [← ho.reach]
    refine ht.tables.separated.reach_edit ho (fun _ _ => child_setEntry_of_ne) root ho.depth fun _ hpre => ?_
    have := hpre.length_le
    rw [List.length_append, List.length_singleton] at this
    omega
  refine ⟨htree, fun w hw => ?_, fun w hw => ?_⟩
  · rw [htake] at hw
    have hiw : indices w 3 = p ++ index v (3 - m) :: (indices w 3).drop (m + 1) := by
      conv_lhs => rw [← List.take_append_drop (m + 1) (indices w 3), hw]
      rw [List.append_assoc, List.singleton_append]
    have hleaf := htree.walk_leaf (n := 3 - m) (by omega) hreach hiw
    rw [setEntry_same] at hleaf
    exact hleaf hpe (hm.symm.imp (fun h3 => by omega) fun h2 => ⟨by omega, hse h2⟩)
  · rw [← hwalk w]
    refine ht.tables.walk_setEntry ho root fun _ hpre => hw ?_
    have htw := List.prefix_iff_eq_take.mp hpre
    rw [List.length_append, List.length_singleton, hlen] at htw
    rw [htake, htw]

/-- A call of `vmm_map_page`. -/
theorem map (h : PageTree vm.tables r) (flags : ℕ) {paddr ps : ℕ} (hpa : paddr % 4096 = 0)
    (hhuge : ps = pageSize4KB → ¬InHugePage vm.tables r v)
    (hf : FramesFresh alloc vm.tables {r} vm.pmm (tablesMissing vm.tables v (tablesNeeded ps) 3 r)) :
    (ps = pageSize4KB → Maps vm.tables (vm.vmmMapPage alloc r paddr v ps flags).tables r v 3
      (paddr ||| (ptePresent ||| flags))) ∧
    (ps = pageSize2MB → Maps vm.tables (vm.vmmMapPage alloc r paddr v ps flags).tables r v 2
      (paddr ||| (ptePresent ||| ptePageSize ||| flags))) ∧
    PageTree (vm.vmmMapPage alloc r paddr v ps flags).tables r := by
  have hu : userBit paddr = false := testBit_frame hpa (by decide)
  have h4 : ps = pageSize4KB → Maps vm.tables (vm.vmmMapPage alloc r paddr v ps flags).tables r v 3
      (paddr ||| (ptePresent ||| flags)) := by
    rintro rfl
    refine h.maps flags (.inr rfl) (fun _ => ?_) hf (by simp) (by simp) ?_
    · exact noHuge_of_not_inHugePage h.tables rfl (Set.mem_univ _) (hhuge rfl)
    · rw [userBit_or, userBit_or, hu]
      rfl
  have h2 : ps = pageSize2MB → Maps vm.tables (vm.vmmMapPage alloc r paddr v ps flags).tables r v 2
      (paddr ||| (ptePresent ||| ptePageSize ||| flags)) := by
    rintro rfl
    refine h.maps flags (.inl rfl) (by simp) hf (by simp) (by simp) ?_
    rw [userBit_or, userBit_or, userBit_or, hu]
    rfl
  refine ⟨h4, h2, ?_⟩
  by_cases hps4 : ps = pageSize4KB
  · exact (h4 hps4).tree
  by_cases hps2 : ps = pageSize2MB
  · exact (h2 hps2).tree
  · rw [tablesNeeded, if_neg hps4] at hf
    have heq : vm.vmmMapPage alloc r paddr v ps flags = (tablesDown alloc v flags 2 3 r vm).2 := by
      simp only [Vm.vmmMapPage, if_neg hps4, if_neg hps2, tablesDown]
    rw [heq]
    exact (h.down flags (by omega) (by simp) hf).1

/-- A call of `vmm_unmap_page`. -/
theorem unmap (h : PageTree T r) (v : ℕ) : PageTree (vmmUnmapPage T r v).2 r := by
  have hclear : ∀ {p t i}, T.Owned {r} Set.univ r p t → PageTree (T.setEntry t i 0) r := by
    intro p t i ho
    refine h.setLeaf ho (fun _ => child_eq_none.mpr ?_) (fun hp => nomatch hp) fun hp => nomatch hp
    rw [setEntry_same]
    exact fun hp => nomatch hp
  have hfound := vmmGetEntry_found h.tables (v := v) rfl (Set.mem_univ _)
  unfold vmmUnmapPage
  generalize vmmGetEntry T r v = x at hfound
  cases hfound with
  | none => exact h
  | huge ho => exact hclear ho
  | page ho => exact hclear ho

end PageTree

/-! ## The first trees -/

theorem BootTables.entry_cases {pdpt pd : ℕ} (h : BootTables T r pdpt pd) :
    (∀ i, T.child r i = if i.val = 511 then some pdpt else none) ∧
      (∀ i, T.child pdpt i = if i.val = 510 then some pd else none) ∧ ∀ i, T.child pd i = none := by
  have hlink : ∀ f, f % 4096 = 0 → f < 2 ^ 32 →
      present (f ||| 3) = true ∧ pageSize (f ||| 3) = false ∧ entryFrame (f ||| 3) = f := by
    intro f hf hlt
    have hs : pageSize f = false := testBit_frame hf (by decide)
    refine ⟨?_, ?_, ?_⟩
    · rw [present_or]
      exact Bool.or_true _
    · rw [pageSize_or, hs]
      rfl
    · rw [entryFrame_eq_maskPage (Nat.or_lt_two_pow (by omega) (by decide)), maskPage_or_flags hf (by decide)]
  refine ⟨fun i => ?_, fun i => ?_, fun i => ?_⟩
  · split_ifs with hi
    · rw [child_eq_some, h.root i, if_pos hi]
      exact hlink pdpt h.aligned.1 h.low.1
    · rw [child_eq_none, h.root i, if_neg hi]
      exact fun hp => nomatch hp
  · split_ifs with hi
    · rw [child_eq_some, h.image i, if_pos hi]
      exact hlink pd h.aligned.2 h.low.2
    · rw [child_eq_none, h.image i, if_neg hi]
      exact fun hp => nomatch hp
  · rw [child_eq_none, h.pages i]
    split_ifs with hi
    · rw [pageSize_or]
      exact fun _ => Bool.or_true _
    · exact fun hp => nomatch hp

theorem BootTables.reach_cases {pdpt pd : ℕ} (h : BootTables T r pdpt pd) {f : ℕ}
    (hf : T.reach r p = some f) :
    p = [] ∧ f = r ∨ p = [511] ∧ f = pdpt ∨ p = [511, 510] ∧ f = pd := by
  obtain ⟨hr, hi, hp⟩ := h.entry_cases
  have hval : ∀ {i j : Fin 512}, i.val = j.val → i = j := Fin.ext
  match p with
  | [] => exact .inl ⟨rfl, (Option.some.inj hf).symm⟩
  | [i] =>
    rw [reach, Radix.reach_cons, hr i] at hf
    split_ifs at hf with h1
    · exact .inr (.inl ⟨by rw [hval (j := 511) h1], (Option.some.inj hf).symm⟩)
    · cases hf
  | [i, j] =>
    rw [reach, Radix.reach_cons, hr i] at hf
    split_ifs at hf with h1
    · rw [Option.bind_some, Radix.reach_cons, hi j] at hf
      split_ifs at hf with h2
      · exact .inr (.inr ⟨by rw [hval (j := 511) h1, hval (j := 510) h2], (Option.some.inj hf).symm⟩)
      · cases hf
    · cases hf
  | i :: j :: k :: q =>
    rw [reach, Radix.reach_cons, hr i] at hf
    split_ifs at hf with h1
    · rw [Option.bind_some, Radix.reach_cons, hi j] at hf
      split_ifs at hf with h2
      · rw [Option.bind_some, Radix.reach_cons, hp k] at hf
        cases hf
      · cases hf
    · cases hf

/-- The tables of `boot.s` form a tree without user entries. -/
theorem BootTables.tree {pdpt pd : ℕ} (h : BootTables T r pdpt pd) : PageTree T r := by
  obtain ⟨hd1, hd2, hd3⟩ := h.distinct
  have hlink : ∀ f, f % 4096 = 0 → f < 2 ^ 32 → writable (f ||| 3) = true ∧ userBit (f ||| 3) = false ∧
      pageSize (f ||| 3) = false ∧ f ||| 3 < 2 ^ 52 := by
    intro f hf hlt
    have hu : userBit f = false := testBit_frame hf (by decide)
    have hs : pageSize f = false := testBit_frame hf (by decide)
    refine ⟨?_, ?_, ?_, Nat.or_lt_two_pow (by omega) (by decide)⟩
    · rw [writable_or]
      exact Bool.or_true _
    · rw [userBit_or, hu]
      rfl
    · rw [pageSize_or, hs]
      rfl
  have hentry : ∀ {q f i}, T.reach r q = some f → present (T f i) = true →
      q.length < 2 ∧ writable (T f i) = true ∧ userBit (T f i) = false ∧ pageSize (T f i) = false ∧
        T f i < 2 ^ 52 ∨ q.length = 2 ∧ userBit (T f i) = false ∧ pageSize (T f i) = true := by
    intro q f i hf hp
    rcases h.reach_cases hf with ⟨rfl, rfl⟩ | ⟨rfl, rfl⟩ | ⟨rfl, rfl⟩
    · left
      rw [h.root i] at hp ⊢
      split_ifs at hp ⊢ with hi
      · exact ⟨by decide, hlink pdpt h.aligned.1 h.low.1⟩
      · exact nomatch hp
    · left
      rw [h.image i] at hp ⊢
      split_ifs at hp ⊢ with hi
      · exact ⟨by decide, hlink pd h.aligned.2 h.low.2⟩
      · exact nomatch hp
    · right
      rw [h.pages i] at hp ⊢
      split_ifs at hp ⊢ with hi
      · have hu : userBit (i.val * 0x200000) = false := testBit_frame (by omega) (by decide)
        refine ⟨rfl, ?_, ?_⟩
        · rw [userBit_or, hu]
          rfl
        · rw [pageSize_or]
          exact Bool.or_true _
      · exact nomatch hp
  refine ⟨⟨⟨le_rfl, ?_⟩, ?_⟩, fun {q f i} hq hf hp hs => ?_, fun {q f i g j} hq hf hg hp hu => ?_⟩
  · rintro q p f ho q' rfl p' - hf'
    obtain rfl : q = q' := ho.root
    refine ⟨rfl, ?_⟩
    rcases h.reach_cases ho.reach with ⟨rfl, rfl⟩ | ⟨rfl, rfl⟩ | ⟨rfl, rfl⟩ <;>
      rcases h.reach_cases hf' with ⟨rfl, hx⟩ | ⟨rfl, hx⟩ | ⟨rfl, hx⟩ <;>
      first | rfl | exact absurd hx (by assumption) | exact absurd hx.symm (by assumption)
  · intro q p f ho i _ hp
    obtain rfl : q = r := ho.root
    rcases hentry ho.reach hp with ⟨hlen, -, -, hs, hlt⟩ | ⟨hlen, -, hs⟩
    · exact ⟨fun _ => hs, fun _ _ => hlt⟩
    · refine ⟨fun hd => by omega, fun _ hs' => ?_⟩
      rw [hs] at hs'
      exact nomatch hs'
  · rcases hentry hf hp with ⟨-, hw, -⟩ | ⟨-, -, hs'⟩
    · exact hw
    · rw [hs] at hs'
      exact nomatch hs'
  · rcases hentry (PageTree.child_reach hf hg) hp with ⟨-, -, hu', -⟩ | ⟨-, hu', -⟩
    all_goals
      rw [hu] at hu'
      exact nomatch hu'

/-- The frames that the rounds of the loop of `vmm_init_direct_mapping` need are fresh. -/
def DirectSupply (alloc : σ → ℕ × σ) (pml4 maxAddr : ℕ) : ℕ → ℕ → Vm σ → Prop
  | 0, _, _ => True
  | n + 1, paddr, vm => paddr < maxAddr →
    FramesFresh alloc vm.tables {pml4} vm.pmm
        (tablesMissing vm.tables ((paddr + directOffset) % 2 ^ 64) 2 3 pml4) ∧
      DirectSupply alloc pml4 maxAddr n ((paddr + pageSize2MB) % 2 ^ 64) (vm.directPage alloc pml4 paddr)

/-- A round maps a page of 2 MB. -/
theorem directPage_eq (paddr : ℕ) : vm.directPage alloc r paddr =
    vm.vmmMapPage alloc r paddr ((paddr + directOffset) % 2 ^ 64) pageSize2MB pteWritable := rfl

theorem directPagesFrom_tree {maxAddr n paddr : ℕ} (h : PageTree vm.tables r) (hp : paddr % 4096 = 0)
    (hf : DirectSupply alloc r maxAddr n paddr vm) :
    PageTree (vm.directPagesFrom alloc r maxAddr n paddr).tables r := by
  induction n generalizing paddr vm with
  | zero => exact h
  | succ n ih =>
    rw [Vm.directPagesFrom]
    split_ifs with hlt
    · obtain ⟨hfresh, hrest⟩ := hf hlt
      refine ih ?_ (by rw [pageSize2MB]; omega) hrest
      rw [directPage_eq]
      exact (h.map _ hp (fun h4 => absurd h4 (by decide)) hfresh).2.2
    · exact h

theorem directRoot_entries (alloc : σ → ℕ × σ) (vm : Vm σ) {cr3 : ℕ} (hg : vm.tables.Fresh {cr3} (alloc vm.pmm).1) :
    (∀ f, f ≠ (alloc vm.pmm).1 → (vm.directRoot alloc cr3).2.tables f = vm.tables f) ∧
      ∀ i, (vm.directRoot alloc cr3).2.tables (alloc vm.pmm).1 i = 0 ∨
        (vm.directRoot alloc cr3).2.tables (alloc vm.pmm).1 i = vm.tables cr3 i := by
  have hne : cr3 ≠ (alloc vm.pmm).1 := fun heq => hg cr3 rfl [] (Nat.zero_le 3) (congrArg some heq)
  have heq : (vm.directRoot alloc cr3).2.tables = (vm.tables.zeroTable (alloc vm.pmm).1).setEntry (alloc vm.pmm).1
      511 (vm.tables.zeroTable (alloc vm.pmm).1 cr3 511) := rfl
  rw [heq, zeroTable_of_ne _ _ hne]
  refine ⟨fun f hf => funext fun i => ?_, fun i => ?_⟩
  · rw [setEntry_of_ne _ _ fun hs => hf hs.1, zeroTable_of_ne _ _ hf]
  · by_cases hi : i = 511
    · subst hi
      exact .inr (setEntry_same ..)
    · left
      rw [setEntry_of_ne _ _ fun hs => hi hs.2, zeroTable_same]

theorem directRoot_tree {cr3 : ℕ} (h : PageTree vm.tables cr3) (hg : vm.tables.Fresh {cr3} (alloc vm.pmm).1) :
    PageTree (vm.directRoot alloc cr3).2.tables (vm.directRoot alloc cr3).1 :=
  h.copy hg (directRoot_entries alloc vm hg).1 (directRoot_entries alloc vm hg).2

theorem copyHalf_tree {old g : ℕ} (h : PageTree T old) (hg : T.Fresh {old} g) :
    PageTree (Spaces.copyHalf T g old) g := by
  refine h.copy hg (fun f hf => funext fun i => if_neg hf) fun i => ?_
  simp only [Spaces.copyHalf, if_true]
  split_ifs
  · exact .inl rfl
  · exact .inr rfl

/-! ## All trees -/

/-- The PML4s made by `vmm_init_direct_mapping` and `create_user_process`, and what calls on them
make of them. The frames that a call needs are fresh: page frames, different, and no tables of the
tree. -/
inductive TreeReachable (alloc : σ → ℕ × σ) : Vm σ → ℕ → Prop
  | direct {vm : Vm σ} {cr3 pdpt pd maxAddr : ℕ} (hboot : BootTables vm.tables cr3 pdpt pd)
      (hg : vm.tables.Fresh {cr3} (alloc vm.pmm).1)
      (hf : DirectSupply alloc (vm.directRoot alloc cr3).1 maxAddr (2 ^ 43 + 1) 0 (vm.directRoot alloc cr3).2) :
      TreeReachable alloc (vm.vmmInitDirectMapping alloc cr3 maxAddr).2 (vm.vmmInitDirectMapping alloc cr3 maxAddr).1
  | process {s : Spaces σ} {cr3 : ℕ} (h : TreeReachable alloc s.vm cr3) (p : ℕ)
      (hg : s.vm.tables.Fresh {cr3} (alloc s.vm.pmm).1) {q : Process}
      (hq : (s.createUserProcess alloc p cr3).1 = some q) :
      TreeReachable alloc (s.createUserProcess alloc p cr3).2.vm q.pml4
  | map {vm : Vm σ} {r : ℕ} (h : TreeReachable alloc vm r) (paddr v ps flags : ℕ) (hp : paddr % 4096 = 0)
      (hhuge : ps = pageSize4KB → ¬InHugePage vm.tables r v)
      (hf : FramesFresh alloc vm.tables {r} vm.pmm (tablesMissing vm.tables v (tablesNeeded ps) 3 r)) :
      TreeReachable alloc (vm.vmmMapPage alloc r paddr v ps flags) r
  | unmap {vm : Vm σ} {r : ℕ} (h : TreeReachable alloc vm r) (v : ℕ) :
      TreeReachable alloc { vm with tables := (vmmUnmapPage vm.tables r v).2 } r

theorem TreeReachable.tree (h : TreeReachable alloc vm r) : PageTree vm.tables r := by
  induction h with
  | direct hboot hg hf => exact directPagesFrom_tree (directRoot_tree hboot.tree hg) rfl hf
  | @process s cr3 _ p hg q hq ih =>
    unfold Spaces.createUserProcess at hq ⊢
    by_cases hp : p = 0
    · rw [if_pos hp] at hq
      exact absurd hq (by simp)
    rw [if_neg hp] at hq ⊢
    by_cases h0 : (alloc s.vm.pmm).1 = 0
    · simp only [if_pos h0] at hq
      exact absurd hq (by simp)
    · simp only [if_neg h0] at hq ⊢
      obtain rfl := Option.some.inj hq
      exact copyHalf_tree ih hg
  | map _ paddr v ps flags hp hhuge hf ih => exact (ih.map flags hp hhuge hf).2.2
  | unmap _ v ih => exact ih.unmap v

/-! ## The law -/

/-- The 48 bits of an address that the processor translates lie in the same page. -/
def SamePage (ps v w : ℕ) : Prop := w % 2 ^ 48 / ps = v % 2 ^ 48 / ps

/-- Any of the bits that a caller may set: for a page of 2 MB also that of write-combining. -/
def MapFlags (ps flags : ℕ) : Prop :=
  flags &&& (pteWritable ||| pteUser ||| if ps = pageSize2MB then pteWcHuge else 0) = flags

instance (ps v w : ℕ) : Decidable (SamePage ps v w) :=
  inferInstanceAs (Decidable (w % 2 ^ 48 / ps = v % 2 ^ 48 / ps))

instance (ps flags : ℕ) : Decidable (MapFlags ps flags) :=
  inferInstanceAs (Decidable (flags &&& (pteWritable ||| pteUser ||| if ps = pageSize2MB then pteWcHuge else 0) =
    flags))

theorem samePage_iff_take {v w : ℕ} :
    (SamePage pageSize4KB v w ↔ (indices w 3).take 4 = (indices v 3).take 4) ∧
      (SamePage pageSize2MB v w ↔ (indices w 3).take 3 = (indices v 3).take 3) := by
  simp only [SamePage, pageSize4KB, pageSize2MB, indices_three, List.take, List.cons.injEq, index, Fin.mk.injEq,
    and_true]
  omega

/-- The last entry of a page. -/
theorem leaf_or {paddr b n w : ℕ} (hn : n ≤ 1) (hp : paddr % 2 ^ (12 + 9 * n) = 0) (hlt : paddr < 2 ^ 52)
    (hb : b < 2 ^ (12 + 9 * n)) :
    leaf (paddr ||| b) w n = ⟨paddr + w % 2 ^ (12 + 9 * n), writable b, userBit b⟩ := by
  have hlow : ∀ k < 12, paddr.testBit k = false := fun k hk => by
    refine testBit_frame ?_ hk
    exact Nat.mod_eq_zero_of_dvd ((Nat.pow_dvd_pow 2 (Nat.le_add_right 12 (9 * n))).trans
      (Nat.dvd_of_mod_eq_zero hp))
  have hw : writable paddr = false := hlow 1 (by decide)
  have hu : userBit paddr = false := hlow 2 (by decide)
  have hdiv : (paddr ||| b) / 2 ^ (12 + 9 * n) = paddr / 2 ^ (12 + 9 * n) := by
    rw [Nat.or_div_two_pow, Nat.div_eq_of_lt hb, Nat.or_zero]
  have hsmall : paddr / 2 ^ (12 + 9 * n) < 2 ^ (40 - 9 * n) := by
    rw [Nat.div_lt_iff_lt_mul (Nat.two_pow_pos _), ← Nat.pow_add, show 40 - 9 * n + (12 + 9 * n) = 52 by omega]
    exact hlt
  refine Translation.ext ?_ ?_ ?_
  · simp only [leaf, hdiv, Nat.mod_eq_of_lt hsmall, Nat.div_mul_cancel (Nat.dvd_of_mod_eq_zero hp)]
  · simp only [leaf, writable_or, hw, Bool.false_or]
  · simp only [leaf, userBit_or, hu, Bool.false_or]

/-- A page that is mapped gets the frame and the permissions asked for, and every other address
keeps its translation. -/
theorem vmm_map_page_law (h : TreeReachable alloc vm r) (paddr v ps flags : ℕ)
    (hps : ps = pageSize4KB ∨ ps = pageSize2MB) (hp : paddr % ps = 0) (hlt : paddr < 2 ^ 52)
    (hflags : MapFlags ps flags) (hhuge : ps = pageSize4KB → ¬InHugePage vm.tables r v)
    (hf : FramesFresh alloc vm.tables {r} vm.pmm (tablesMissing vm.tables v (tablesNeeded ps) 3 r)) :
    (∀ w, SamePage ps v w → (vm.vmmMapPage alloc r paddr v ps flags).tables.walk r w =
      some ⟨paddr + w % ps, writable flags, userBit flags⟩) ∧
    ∀ w, ¬SamePage ps v w →
      (vm.vmmMapPage alloc r paddr v ps flags).tables.walk r w = vm.tables.walk r w := by
  have hle : flags ≤ pteWritable ||| pteUser ||| if ps = pageSize2MB then pteWcHuge else 0 :=
    (le_of_eq hflags.symm).trans Nat.and_le_right
  have hw : ∀ a, writable a = false → writable (a ||| flags) = writable flags := fun a ha => by
    rw [writable_or, ha, Bool.false_or]
  have hu : ∀ a, userBit a = false → userBit (a ||| flags) = userBit flags := fun a ha => by
    rw [userBit_or, ha, Bool.false_or]
  have hpage : paddr % 4096 = 0 := by
    rcases hps with rfl | rfl
    · exact hp
    · rw [pageSize2MB] at hp
      omega
  obtain ⟨h4, h2, -⟩ := h.tree.map flags hpage hhuge hf
  rcases hps with rfl | rfl
  · have hm := h4 rfl
    have hb : ptePresent ||| flags < 2 ^ 12 :=
      Nat.or_lt_two_pow (by decide) (lt_of_le_of_lt hle (by decide))
    refine ⟨fun w hwv => ?_, fun w hwv => hm.other w fun ht => hwv (samePage_iff_take.1.mpr ht)⟩
    rw [hm.page w (samePage_iff_take.1.mp hwv), leaf_or (n := 0) (by decide) hp hlt hb, hw _ rfl, hu _ rfl]
    rfl
  · have hm := h2 rfl
    have hb : ptePresent ||| ptePageSize ||| flags < 2 ^ 21 :=
      Nat.or_lt_two_pow (by decide) (lt_of_le_of_lt hle (by decide))
    refine ⟨fun w hwv => ?_, fun w hwv => hm.other w fun ht => hwv (samePage_iff_take.2.mpr ht)⟩
    rw [hm.page w (samePage_iff_take.2.mp hwv), leaf_or (n := 1) (by decide) hp hlt hb, hw _ rfl, hu _ rfl]
    rfl

end Trees
/-! ## A run -/

/-- The tables of `boot.s` at some addresses. -/
def bootTables : Tables := fun f i =>
  if f = 0x1000 then if i.val = 511 then 0x2000 ||| 3 else 0
  else if f = 0x2000 then if i.val = 510 then 0x3000 ||| 3 else 0
  else if f = 0x3000 then if i.val < 64 then i.val * 0x200000 ||| 0x83 else 0
  else 0

theorem bootTables_boot : BootTables bootTables 0x1000 0x2000 0x3000 :=
  ⟨by decide, by decide, by decide, fun _ => rfl, fun _ => rfl, fun _ => rfl⟩

/-- The direct map of a page of 2 MB, in frames from 16 on. -/
def directMapped : ℕ × Vm ℕ := (⟨bootTables, 16⟩ : Vm ℕ).vmmInitDirectMapping nextFrame 0x1000 0x200000

theorem directMapped_reachable : TreeReachable nextFrame directMapped.2 directMapped.1 := by
  have hboot := bootTables_boot
  have hbelow : ∀ p f, bootTables.reach 0x1000 p = some f → f < 16 * 4096 := by
    intro p f hf
    rcases hboot.reach_cases hf with ⟨-, rfl⟩ | ⟨-, rfl⟩ | ⟨-, rfl⟩ <;> decide
  have hg : bootTables.Fresh {0x1000} 0x10000 := by
    rintro r rfl p - hf
    exact absurd (hbelow p _ hf) (by decide)
  refine @TreeReachable.direct ℕ nextFrame ⟨bootTables, 16⟩ _ _ _ _ hboot hg fun _ => ⟨framesFresh_nextFrame ?_ (by decide), ?_⟩
  · rintro r rfl p f hp hf
    cases p with
    | nil =>
      obtain rfl := Option.some.inj hf
      decide
    | cons j q =>
      obtain ⟨hother, hroot⟩ := directRoot_entries nextFrame ⟨bootTables, 16⟩ hg
      exact (hbelow _ f (PageTree.copy_reach hg hother hroot hp hf)).trans (by decide)
  · exact fun h => absurd h (by decide)

/-- The tables above the second page of 2 MB are there. -/
theorem directMapped_supply : FramesFresh nextFrame directMapped.2.tables {directMapped.1} directMapped.2.pmm
    (tablesMissing directMapped.2.tables (directOffset + 0x200000) 2 3 directMapped.1) := by
  rw [show tablesMissing directMapped.2.tables (directOffset + 0x200000) 2 3 directMapped.1 = 0 by
    decide +kernel]
  exact ⟨List.nodup_nil, fun g hg => nomatch hg⟩

theorem vmm_map_page_law_user_page :
    (directMapped.2.vmmMapPage nextFrame 0x10000 0x200000 (directOffset + 0x200000) pageSize2MB 0x1006).tables.walk
      0x10000 (directOffset + 0x2ABCDE) = some ⟨0x2ABCDE, true, true⟩ ∧
    (directMapped.2.vmmMapPage nextFrame 0x10000 0x200000 (directOffset + 0x200000) pageSize2MB 0x1006).tables.walk
      0x10000 (directOffset + 0xABCDE) = directMapped.2.tables.walk 0x10000 (directOffset + 0xABCDE) := by
  have hlaw := vmm_map_page_law directMapped_reachable 0x200000 (directOffset + 0x200000) pageSize2MB 0x1006
    (.inr rfl) (by decide) (by decide) (by decide) (fun h => absurd h (by decide)) directMapped_supply
  exact ⟨hlaw.1 (directOffset + 0x2ABCDE) (by decide), hlaw.2 (directOffset + 0xABCDE) (by decide)⟩

end PointerOS
