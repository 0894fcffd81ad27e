import PointerOS.VmmSteps

/-!
# What the calls of the page tables do

`vmm_map_page` makes the upper tables of an address and then writes one entry of a
private table; `vmm_get_entry` finds one, which `vmm_unmap_page` clears.
-/
namespace PointerOS
open Tables

section Calls
variable {σ : Type*} {alloc : σ → ℕ × σ} {vm : Vm σ} {T : Tables} {roots own : Set ℕ}
variable {priv : Set (Fin 512)} {r v paddr ps flags : ℕ}

/-- `m` blocks of `vmm_map_page`, from the table `t` of level `n` down. -/
def tablesDown (alloc : σ → ℕ × σ) (v flags : ℕ) : ℕ → ℕ → ℕ → Vm σ → ℕ × Vm σ
  | 0, _, t, vm => (t, vm)
  | m + 1, n, t, vm =>
    let N := Vm.nextTable alloc vm t (index v n) flags
    tablesDown alloc v flags m (n - 1) N.1 N.2

/-- How many tables below the PML4 a call needs, by its page size. -/
def tablesNeeded (ps : ℕ) : ℕ := if ps = pageSize4KB then 3 else 2

/-- `v` is in no page of 2 MB. -/
def NoHuge (T : Tables) (r v : ℕ) : Prop := ∀ f, T.reach r [index v 3, index v 2] = some f →
  present (T f (index v 1)) = true → pageSize (T f (index v 1)) = false

/-- The first `k` entries on the way of `v` have the user bit. -/
def UserPath (T : Tables) (r v k : ℕ) : Prop := ∀ q i s f, indices v 3 = q ++ i :: s → q.length < k →
  T.reach r q = some f → userBit (T f i) = true

theorem owned_root (hr : r ∈ own) : T.Owned own priv r [] r :=
  ⟨hr, (fun _ hi => nomatch hi), Nat.zero_le 3, rfl⟩

theorem Extends.noHuge {T' : Tables} {user : Bool} {made : List ℕ}
    (h : Extends T T' roots own priv r user made) (hr : r ∈ roots) (hn : NoHuge T r v) :
    NoHuge T' r v := by
  intro f hf hp
  by_contra hs
  obtain ⟨hp', hs', hm⟩ := h.huge hp (by simpa using hs)
  rcases h.only hr (by simp) hf with hf' | ⟨-, hf'⟩
  · rw [hn f hf' hp'] at hs'
    exact nomatch hs'
  · exact hm hf'

/-- One more entry on the way. -/
theorem NextTable.userPath {p : List (Fin 512)} {t : ℕ} {i : Fin 512} {s : List (Fin 512)} {N : ℕ × Vm σ}
    (h : NextTable alloc roots own priv r flags vm p t i N) (hr : r ∈ roots)
    (ho : vm.tables.reach r p = some t) (hd : p.length < 3) (hi : indices v 3 = p ++ i :: s)
    (hu : userBit flags = true) (hk : UserPath vm.tables r v p.length) :
    UserPath N.2.tables r v (p.length + 1) := by
  intro q j s' f hq hlen hf
  have hkeep : N.2.tables.reach r p = some t := h.ext.keep hr (by omega) ho
  rcases List.append_eq_append_iff.mp (hi.symm.trans hq) with ⟨u, rfl, hu'⟩ | ⟨u, rfl, hu'⟩
  · -- the entry of the block itself
    obtain rfl : u = [] := by
      rw [List.length_append] at hlen
      exact List.eq_nil_of_length_eq_zero (by omega)
    obtain ⟨rfl, -⟩ := List.cons.inj hu'
    rw [List.append_nil] at hf
    obtain rfl : t = f := Option.some.inj (hkeep.symm.trans hf)
    exact h.user hu
  · cases u with
    | nil =>
      obtain ⟨rfl, -⟩ := List.cons.inj hu'
      rw [List.append_nil] at hkeep
      obtain rfl : t = f := Option.some.inj (hkeep.symm.trans hf)
      exact h.user hu
    | cons j' u =>
      obtain ⟨rfl, -⟩ := List.cons.inj hu'
      rw [List.length_append, List.length_cons] at hd hk
      obtain ⟨f', hf'⟩ := Radix.reach_of_prefix ho
      obtain rfl : f' = f := Option.some.inj ((h.ext.keep hr (by omega) hf').symm.trans hf)
      have hbit := hk q j s' f' hq (by omega) hf'
      have hpres : present (N.2.tables f' j) = true := by
        have hkeep' := (Radix.reach_append_of (q := j :: u) hf).symm.trans hkeep
        rw [Radix.reach_cons] at hkeep'
        obtain ⟨g, hg, -⟩ := Option.bind_eq_some_iff.mp hkeep'
        exact (child_eq_some.mp hg).1
      rcases h.ext.entry hpres with ⟨-, -, he | he⟩ | ⟨-, -, he⟩
      · rw [he, hbit]
      · rw [he, userBit_or, hbit, Bool.true_or]
      · exact he hu

/-- What holds when `vmm_map_page` is about to run its block at the entry `i` of the table `t`. -/
structure BlockReady (alloc : σ → ℕ × σ) (roots own : Set ℕ) (priv : Set (Fin 512)) (r v flags : ℕ)
    (vm : Vm σ) (p : List (Fin 512)) (t : ℕ) (i : Fin 512) : Prop where
  tables : PrivateTables vm.tables roots own priv
  owned : vm.tables.Owned own priv r p t
  depth : p.length < 3
  slot : p = [] → i ∈ priv
  path : ∃ s, indices v 3 = p ++ i :: s
  link : present (vm.tables t i) = true → pageSize (vm.tables t i) = false
  fresh : present (vm.tables t i) = false → IsFrame (alloc vm.pmm).1 ∧ vm.tables.Fresh roots (alloc vm.pmm).1
  user : userBit flags = true → UserPath vm.tables r v p.length

/-- The blocks of a call, with what each of them keeps while the tables to come are supplied. -/
theorem tablesDown_supplied {P : Vm σ → Prop} {Sup : Vm σ → ℕ → ℕ → ℕ → Prop}
    (hP : ∀ {vm m n p t}, BlockReady alloc roots own priv r v flags vm p t (index v n) → Sup vm (m + 1) n t → P vm →
      P (Vm.nextTable alloc vm t (index v n) flags).2)
    (hS : TableSupply alloc roots own priv r flags v Sup) {m n t : ℕ} {p : List (Fin 512)}
    (h : PrivateTables vm.tables roots own priv) (ho : vm.tables.Owned own priv r p t)
    (hi : p ++ indices v n = indices v 3) (hd : p.length + m ≤ 3) (hv : index v 3 ∈ priv)
    (hn : p.length + m = 3 → NoHuge vm.tables r v) (hsup : Sup vm m n t)
    (hu : userBit flags = true → UserPath vm.tables r v p.length) (hvm : P vm) :
    P (tablesDown alloc v flags m n t vm).2 ∧
    ∃ made, Extends vm.tables (tablesDown alloc v flags m n t vm).2.tables roots own priv r
        (userBit flags) made ∧
      (tablesDown alloc v flags m n t vm).2.tables.Owned own priv r (p ++ (indices v n).take m)
        (tablesDown alloc v flags m n t vm).1 ∧
      Takes alloc vm.pmm made (tablesDown alloc v flags m n t vm).2.pmm ∧
      (userBit flags = true → UserPath (tablesDown alloc v flags m n t vm).2.tables r v (p.length + m)) := by
  induction m generalizing n t p vm with
  | zero =>
    refine ⟨hvm, [], .refl h r _, ?_, .nil _, hu⟩
    rw [List.take_zero, List.append_nil]
    exact ho
  | succ m ih =>
    have hroot := h.separated.subset ho.root
    have hlen := congrArg List.length hi
    rw [List.length_append, length_indices, length_indices] at hlen
    obtain ⟨k, rfl⟩ : ∃ k, n = k + 1 := ⟨n - 1, by omega⟩
    have hi' : indices v 3 = p ++ index v (k + 1) :: indices v k := hi.symm
    have hpriv : p = [] → index v (k + 1) ∈ priv := by
      rintro rfl
      obtain rfl : k = 2 := by simpa using hlen
      exact hv
    have hsize : present (vm.tables t (index v (k + 1))) = true →
        pageSize (vm.tables t (index v (k + 1))) = false := by
      intro hp
      by_cases hp2 : p.length < 2
      · exact (h.entries ho _ hpriv hp).1 hp2
      · obtain rfl : k = 0 := by omega
        have hp3 : p = [index v 3, index v 2] := by
          have h2 : p.length = [index v 3, index v 2].length := by
            rw [List.length_cons, List.length_cons, List.length_nil]
            omega
          exact (List.append_inj hi h2).1
        exact hn (by omega) t (hp3 ▸ ho.reach) hp
    have hN := nextTable_spec alloc flags h ho (by omega) hpriv hsize (hS.head hsup)
    have hsup' := hS.next hsup hN
    have hkeep := hP ⟨h, ho, by omega, hpriv, ⟨_, hi'⟩, hsize, hS.head hsup, hu⟩ hsup hvm
    rw [tablesDown]
    generalize Vm.nextTable alloc vm t (index v (k + 1)) flags = N at hN hsup' hkeep
    have hl : (p ++ [index v (k + 1)]).length = p.length + 1 := by
      rw [List.length_append, List.length_singleton]
    obtain ⟨hend, made, he, ho', ht, hu'⟩ := ih hN.ext.inv hN.owned (n := k)
      (by rw [List.append_assoc, List.singleton_append, hi']) (by omega)
      (fun hd' => hN.ext.noHuge hroot (hn (by omega))) hsup'
      (fun huf => hl ▸ hN.userPath hroot ho.reach (by omega) hi' huf (hu huf)) hkeep
    refine ⟨hend, _, hN.ext.trans he, ?_, hN.takes.append ht, fun huf => ?_⟩
    · rw [List.append_assoc, List.singleton_append] at ho'
      exact ho'
    · have := hu' huf
      rw [hl] at this
      rwa [show p.length + (m + 1) = p.length + 1 + m by omega]

/-- The blocks of a call, with what each of them keeps. -/
theorem tablesDown_rule {P : Vm σ → Prop} {Sup : Vm σ → ℕ → ℕ → ℕ → Prop}
    (hP : ∀ {vm p t i}, BlockReady alloc roots own priv r v flags vm p t i → P vm →
      P (Vm.nextTable alloc vm t i flags).2)
    (hS : TableSupply alloc roots own priv r flags v Sup) {m n t : ℕ} {p : List (Fin 512)}
    (h : PrivateTables vm.tables roots own priv) (ho : vm.tables.Owned own priv r p t)
    (hi : p ++ indices v n = indices v 3) (hd : p.length + m ≤ 3) (hv : index v 3 ∈ priv)
    (hn : p.length + m = 3 → NoHuge vm.tables r v) (hsup : Sup vm m n t)
    (hu : userBit flags = true → UserPath vm.tables r v p.length) (hvm : P vm) :
    P (tablesDown alloc v flags m n t vm).2 ∧
    ∃ made, Extends vm.tables (tablesDown alloc v flags m n t vm).2.tables roots own priv r
        (userBit flags) made ∧
      (tablesDown alloc v flags m n t vm).2.tables.Owned own priv r (p ++ (indices v n).take m)
        (tablesDown alloc v flags m n t vm).1 ∧
      Takes alloc vm.pmm made (tablesDown alloc v flags m n t vm).2.pmm ∧
      (userBit flags = true → UserPath (tablesDown alloc v flags m n t vm).2.tables r v (p.length + m)) :=
  tablesDown_supplied (fun hb _ => hP hb) hS h ho hi hd hv hn hsup hu hvm

theorem tablesDown_spec {Sup : Vm σ → ℕ → ℕ → ℕ → Prop}
    (hS : TableSupply alloc roots own priv r flags v Sup) {m n t : ℕ} {p : List (Fin 512)}
    (h : PrivateTables vm.tables roots own priv) (ho : vm.tables.Owned own priv r p t)
    (hi : p ++ indices v n = indices v 3) (hd : p.length + m ≤ 3) (hv : index v 3 ∈ priv)
    (hn : p.length + m = 3 → NoHuge vm.tables r v) (hsup : Sup vm m n t)
    (hu : userBit flags = true → UserPath vm.tables r v p.length) :
    ∃ made, Extends vm.tables (tablesDown alloc v flags m n t vm).2.tables roots own priv r
        (userBit flags) made ∧
      (tablesDown alloc v flags m n t vm).2.tables.Owned own priv r (p ++ (indices v n).take m)
        (tablesDown alloc v flags m n t vm).1 ∧
      Takes alloc vm.pmm made (tablesDown alloc v flags m n t vm).2.pmm ∧
      (userBit flags = true → UserPath (tablesDown alloc v flags m n t vm).2.tables r v (p.length + m)) :=
  (tablesDown_rule (P := fun _ => True) (fun _ _ => trivial) hS h ho hi hd hv hn hsup hu trivial).2

/-- What `vmm_get_entry` finds in a private subtree. -/
inductive EntryFound (T : Tables) (own : Set ℕ) (priv : Set (Fin 512)) (r v : ℕ) : Option EntryAt → Prop
  | none (hw : T.walk r v = none) : EntryFound T own priv r v none
  | huge {pd : ℕ} (ho : T.Owned own priv r [index v 3, index v 2] pd)
      (hp : present (T pd (index v 1)) = true) (hs : pageSize (T pd (index v 1)) = true) :
      EntryFound T own priv r v (some ⟨pd, index v 1, 2⟩)
  | page {pt : ℕ} (ho : T.Owned own priv r [index v 3, index v 2, index v 1] pt) :
      EntryFound T own priv r v (some ⟨pt, index v 0, 0⟩)

/-- An entry of an upper table that is present leads on. -/
theorem owned_next (h : PrivateTables T roots own priv) {p : List (Fin 512)} {i : Fin 512} {t : ℕ}
    (ho : T.Owned own priv r p t) (hi : p = [] → i ∈ priv) (hd : p.length < 3)
    (hp : present (T t i) = true) (hs : pageSize (T t i) = false) :
    T.Owned own priv r (p ++ [i]) (maskPage (T t i)) := by
  refine ho.concat hi hd (child_eq_some.mpr ⟨hp, hs, entryFrame_eq_maskPage ?_⟩)
  exact (h.entries ho i hi hp).2 hd hs

theorem vmmGetEntry_found (h : PrivateTables T roots own priv) (hr : r ∈ own) (hv : index v 3 ∈ priv) :
    EntryFound T own priv r v (vmmGetEntry T r v) := by
  have ho : T.Owned own priv r [] r := owned_root hr
  unfold vmmGetEntry
  cases hp3 : present (T r (index v 3)) with
  | false =>
    simp only [if_true]
    exact .none (walkFrom_absent hp3)
  | true =>
    have hs3 := (h.entries ho _ (fun _ => hv) hp3).1 (by decide)
    have ho2 := owned_next h ho (fun _ => hv) (by decide) hp3 hs3
    have hi2 : [] ++ [index v 3] = [] → index v 2 ∈ priv := fun hn => nomatch hn
    simp only [hs3, Bool.true_eq_false, Bool.false_eq_true, if_false]
    cases hp2 : present (T (maskPage (T r (index v 3))) (index v 2)) with
    | false =>
      simp only [if_true]
      exact .none (walkFrom_none (p := [index v 3]) (s := [index v 2, index v 1, index v 0]) rfl
        (by simp) ho2.reach (walkFrom_absent hp2))
    | true =>
      have hs2 := (h.entries ho2 _ hi2 hp2).1 (by simp)
      have ho1 := owned_next h ho2 hi2 (by simp) hp2 hs2
      simp only [hs2, Bool.true_eq_false, Bool.false_eq_true, if_false]
      cases hp1 : present (T (maskPage (T (maskPage (T r (index v 3))) (index v 2))) (index v 1)) with
      | false =>
        simp only [if_true]
        exact .none (walkFrom_none (p := [index v 3, index v 2]) (s := [index v 1, index v 0]) rfl
          (by simp) ho1.reach (walkFrom_absent hp1))
      | true =>
        cases hs1 : pageSize (T (maskPage (T (maskPage (T r (index v 3))) (index v 2))) (index v 1)) with
        | true => exact .huge ho1 hp1 hs1
        | false => exact .page (owned_next h ho1 (fun hn => nomatch hn) (by simp) hp1 hs1)

/-- `v` lies in a mapping of 2 MB. -/
def InHugePage (T : Tables) (r v : ℕ) : Prop := ∃ e, vmmGetEntry T r v = some e ∧ e.level = 2

theorem inHugePage_of_entry (h : PrivateTables T roots own priv) (hr : r ∈ own) (hv : index v 3 ∈ priv)
    {pd : ℕ} (ho : T.reach r [index v 3, index v 2] = some pd)
    (hp : present (T pd (index v 1)) = true) (hs : pageSize (T pd (index v 1)) = true) :
    InHugePage T r v := by
  obtain ⟨pdpt, hc3, hrest⟩ := Option.bind_eq_some_iff.mp ho
  obtain ⟨pd', hc2, hpd⟩ := Option.bind_eq_some_iff.mp hrest
  obtain rfl : pd' = pd := Option.some.inj hpd
  obtain ⟨hp3, hs3, rfl⟩ := child_eq_some.mp hc3
  obtain ⟨hp2, hs2, rfl⟩ := child_eq_some.mp hc2
  have hroot : T.Owned own priv r [] r := owned_root hr
  have hw3 := entryFrame_eq_maskPage ((h.entries hroot _ (fun _ => hv) hp3).2 (by simp) hs3)
  have ho2 := hroot.concat (fun _ => hv) (by simp) hc3
  have hw2 := entryFrame_eq_maskPage ((h.entries ho2 _ (fun hn => nomatch hn) hp2).2 (by simp) hs2)
  rw [hw3] at hp2 hs2 hw2
  rw [hw3, hw2] at hp hs
  refine ⟨⟨maskPage (T (maskPage (T r (index v 3))) (index v 2)), index v 1, 2⟩, ?_, rfl⟩
  simp only [vmmGetEntry, hp3, hs3, hp2, hs2, hp, hs, Bool.true_eq_false, Bool.false_eq_true, if_false,
    if_true]

theorem noHuge_of_not_inHugePage (h : PrivateTables T roots own priv) (hr : r ∈ own)
    (hv : index v 3 ∈ priv) (hn : ¬InHugePage T r v) : NoHuge T r v := by
  intro f hf hp
  by_contra hs
  exact hn (inHugePage_of_entry h hr hv hf hp (by simpa using hs))

/-- A 4 KB call makes the tables that are missing and writes the entry of the page. -/
theorem vmmMapPage_4KB (vm : Vm σ) (paddr : ℕ) {Sup : Vm σ → ℕ → ℕ → ℕ → Prop}
    (hS : TableSupply alloc roots own priv r flags v Sup) (h : PrivateTables vm.tables roots own priv)
    (hr : r ∈ own) (hv : index v 3 ∈ priv) (hn : NoHuge vm.tables r v) (hsup : Sup vm 3 3 r) :
    ∃ made T' pt, Extends vm.tables T' roots own priv r (userBit flags) made ∧
      T'.Owned own priv r [index v 3, index v 2, index v 1] pt ∧
      (Vm.vmmMapPage alloc vm r paddr v pageSize4KB flags).tables =
        T'.setEntry pt (index v 0) (paddr ||| (ptePresent ||| flags)) ∧
      Takes alloc vm.pmm made (Vm.vmmMapPage alloc vm r paddr v pageSize4KB flags).pmm ∧
      (userBit flags = true → UserPath T' r v 3) := by
  obtain ⟨made, he, ho, ht, hu⟩ := tablesDown_spec (n := 3) hS h (owned_root hr) rfl (by simp) hv
    (fun _ => hn) hsup (fun _ q i s f _ hq => absurd hq (by simp))
  exact ⟨made, _, _, he, ho, rfl, ht, hu⟩

theorem vmmMapPage_2MB (vm : Vm σ) (paddr : ℕ) {Sup : Vm σ → ℕ → ℕ → ℕ → Prop}
    (hS : TableSupply alloc roots own priv r flags v Sup) (h : PrivateTables vm.tables roots own priv)
    (hr : r ∈ own) (hv : index v 3 ∈ priv) (hsup : Sup vm 2 3 r) :
    ∃ made T' pd, Extends vm.tables T' roots own priv r (userBit flags) made ∧
      T'.Owned own priv r [index v 3, index v 2] pd ∧
      (Vm.vmmMapPage alloc vm r paddr v pageSize2MB flags).tables =
        T'.setEntry pd (index v 1) (paddr ||| (ptePresent ||| ptePageSize ||| flags)) := by
  obtain ⟨made, he, ho, -, -⟩ := tablesDown_spec (n := 3) hS h (owned_root hr) rfl (by simp) hv
    (fun hd => absurd hd (by simp)) hsup (fun _ q i s f _ hq => absurd hq (by simp))
  exact ⟨made, _, _, he, ho, rfl⟩

end Calls
end PointerOS
