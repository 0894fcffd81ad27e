import PointerOS.PageTables

/-!
# The private part of the address spaces

Every PML4 of `own` has its own tables below the indices of `priv`; all other
tables may be shared. The invariant says that no other path of any root leads to
a private table, and that the entries there are of the shapes the code writes. Each
edit of one entry keeps it, and changes no walk that does not go through the entry.
-/
namespace PointerOS

/-- What the code relies on for an entry of a private table at depth `d`. -/
def EntryOk (d e : ℕ) : Prop :=
  present e = true → (d < 2 → pageSize e = false) ∧ (d < 3 → pageSize e = false → e < 2 ^ 52)

namespace Tables

/-- `f` is the private table of `r` at the path `p`. -/
abbrev Owned (T : Tables) (own : Set ℕ) (priv : Set (Fin 512)) (r : ℕ) (p : List (Fin 512)) (f : ℕ) : Prop :=
  Radix.Owned T.child own priv 3 r p f

abbrev Fresh (T : Tables) (roots : Set ℕ) (f : ℕ) : Prop := Radix.Fresh T.child roots 3 f

end Tables

structure PrivateTables (T : Tables) (roots own : Set ℕ) (priv : Set (Fin 512)) : Prop where
  separated : Radix.Separated T.child roots own priv 3
  entries : ∀ {r p f}, T.Owned own priv r p f → ∀ i, (p = [] → i ∈ priv) → EntryOk p.length (T f i)

variable {T T' : Tables} {roots own : Set ℕ} {priv : Set (Fin 512)}
variable {r f g e : ℕ} {p : List (Fin 512)} {i : Fin 512}

theorem EntryOk.of_not_present {d : ℕ} (h : present e = false) : EntryOk d e := by
  intro hp
  rw [h] at hp
  exact nomatch hp

theorem EntryOk.or_user {d : ℕ} (h : EntryOk d e) : EntryOk d (e ||| pteUser) := by
  intro hp
  simp only [present_or, present_pteUser, Bool.or_false] at hp
  simp only [pageSize_or, pageSize_pteUser, Bool.or_false]
  exact ⟨(h hp).1, fun hd hs => or_user_lt ((h hp).2 hd hs)⟩

namespace Tables

theorem child_setEntry_of_ne {t : ℕ} {j : Fin 512} (h : ¬(g = t ∧ j = i)) :
    (T.setEntry t i e).child g j = T.child g j := child_congr (setEntry_of_ne T e h)

end Tables

open Tables

/-! ## Writing a fresh frame -/

theorem Tables.Fresh.walk_eq (hg : T.Fresh roots g) (he : ∀ f, f ≠ g → T' f = T f) (hr : r ∈ roots)
    (v : ℕ) : T'.walk r v = T.walk r v := by
  refine walk_congr fun q j s f hq hf => ?_
  rw [he f]
  rintro rfl
  refine hg r hr q ?_ hf
  have hl := congrArg List.length hq
  rw [length_indices, List.length_append, List.length_cons] at hl
  omega

theorem Tables.Fresh.reach_eq (hg : T.Fresh roots g) (he : ∀ f, f ≠ g → T' f = T f) (hr : r ∈ roots)
    (hp : p.length ≤ 3) : T'.reach r p = T.reach r p :=
  Radix.Fresh.reach_eq hg (fun f j hf => child_congr (congrFun (he f hf) j)) hr hp

theorem PrivateTables.write_fresh (h : PrivateTables T roots own priv) (hg : T.Fresh roots g)
    (he : ∀ f, f ≠ g → T' f = T f) : PrivateTables T' roots own priv where
  separated := h.separated.mono fun r hr p f hp hf => (hg.reach_eq he hr hp).symm.trans hf
  entries := by
    intro r p f ho i hi
    have hr := h.separated.subset ho.root
    have ho' : T.Owned own priv r p f := ho.congr (hg.reach_eq he hr ho.depth).symm
    rw [he f]
    · exact h.entries ho' i hi
    · rintro rfl
      exact hg r hr p ho.depth ho'.reach

/-! ## Setting an entry of a private table -/

/-- The walks that do not go through the entry are unchanged. -/
theorem PrivateTables.walk_setEntry (h : PrivateTables T roots own priv) (ho : T.Owned own priv r p f)
    {r' v : ℕ} (hr' : r' ∈ roots) (hn : r' = r → ¬(p ++ [i] <+: indices v 3)) :
    (T.setEntry f i e).walk r' v = T.walk r' v := by
  refine walk_congr fun q j s g hq hg => setEntry_of_ne T e ?_
  rintro ⟨rfl, rfl⟩
  have hl := congrArg List.length hq
  rw [length_indices, List.length_append, List.length_cons] at hl
  obtain ⟨rfl, rfl⟩ := h.separated.only ho r' hr' q (by omega) hg
  exact hn rfl ⟨s, by rw [hq, List.append_assoc, List.singleton_append]⟩

theorem PrivateTables.walk_setEntry_of_ne (h : PrivateTables T roots own priv)
    (ho : T.Owned own priv r p f) {r' : ℕ} (hr' : r' ∈ roots) (hn : r' ≠ r) (v : ℕ) :
    (T.setEntry f i e).walk r' v = T.walk r' v :=
  h.walk_setEntry ho hr' fun hrr => absurd hrr hn

/-- Entries that add no path. -/
theorem PrivateTables.setEntry_mono (h : PrivateTables T roots own priv) (ho : T.Owned own priv r p f)
    (he : EntryOk p.length e)
    (hm : ∀ r ∈ roots, ∀ p x, p.length ≤ 3 → (T.setEntry f i e).reach r p = some x →
      T.reach r p = some x) : PrivateTables (T.setEntry f i e) roots own priv where
  separated := h.separated.mono hm
  entries := by
    intro q t x hx j hj
    have hq := h.separated.subset hx.root
    have hx' : T.Owned own priv q t x := ⟨hx.root, hx.priv, hx.depth, hm q hq t x hx.depth hx.reach⟩
    by_cases hs : x = f ∧ j = i
    · obtain ⟨rfl, rfl⟩ := hs
      obtain ⟨rfl, rfl⟩ := h.separated.only ho q hq t hx.depth hx'.reach
      rwa [setEntry_same]
    · rw [setEntry_of_ne T e hs]
      exact h.entries hx' j hj

/-- An entry with the same table below it, as after `|= PTE_USER`. -/
theorem Tables.reach_same (hc : (T.setEntry f i e).child f i = T.child f i) (r' : ℕ)
    (q : List (Fin 512)) : (T.setEntry f i e).reach r' q = T.reach r' q := by
  refine Radix.reach_congr fun t j s g _ _ => ?_
  by_cases hs : g = f ∧ j = i
  · obtain ⟨rfl, rfl⟩ := hs
    exact hc
  · exact child_setEntry_of_ne hs

/-- An entry of a last table, whose children no path reaches. -/
theorem PrivateTables.reach_last (h : PrivateTables T roots own priv) (ho : T.Owned own priv r p f)
    (hp : p.length = 3) {r' : ℕ} {q : List (Fin 512)} (hr' : r' ∈ roots) (hq : q.length ≤ 3) :
    (T.setEntry f i e).reach r' q = T.reach r' q := by
  refine h.separated.reach_edit ho (fun _ _ => child_setEntry_of_ne) hr' hq ?_
  intro _ hpre
  have := hpre.length_le
  rw [List.length_append, List.length_singleton] at this
  omega

/-- An entry with no table below it. -/
theorem PrivateTables.reach_closed (h : PrivateTables T roots own priv) (ho : T.Owned own priv r p f)
    (hc : (T.setEntry f i e).child f i = none) {r' x : ℕ} {q : List (Fin 512)} (hr' : r' ∈ roots)
    (hq : q.length ≤ 3) (hx : (T.setEntry f i e).reach r' q = some x) : T.reach r' q = some x :=
  h.separated.reach_close ho (fun _ _ => child_setEntry_of_ne) hc hr' hq hx

/-- The paths after linking the fresh table `g`. -/
theorem PrivateTables.reach_link (h : PrivateTables T roots own priv) (ho : T.Owned own priv r p f)
    (hg : T.Fresh roots g) (hempty : ∀ j, T.child g j = none)
    (hc : (T.setEntry f i e).child f i = some g) {r' x : ℕ} {q : List (Fin 512)} (hr' : r' ∈ roots)
    (hq : q.length ≤ 3) (hx : (T.setEntry f i e).reach r' q = some x) :
    T.reach r' q = some x ∨ (r' = r ∧ q = p ++ [i] ∧ x = g) :=
  h.separated.reach_link ho (fun _ _ => child_setEntry_of_ne) hg hempty hc hr' hq hx

theorem PrivateTables.link (h : PrivateTables T roots own priv) (ho : T.Owned own priv r p f)
    (hg : T.Fresh roots g) (hempty : ∀ j, T g j = 0) (he : EntryOk p.length e)
    (hc : (T.setEntry f i e).child f i = some g) :
    PrivateTables (T.setEntry f i e) roots own priv := by
  have hnone : ∀ j, T.child g j = none := fun j => child_eq_none.mpr (by
    rw [hempty j]
    exact fun h => nomatch h)
  have hgf : g ≠ f := by
    rintro rfl
    exact hg r (h.separated.subset ho.root) p ho.depth ho.reach
  refine ⟨h.separated.link ho (fun _ _ => child_setEntry_of_ne) hg hnone hc, ?_⟩
  intro q t x hx j hj
  have hq := h.separated.subset hx.root
  rcases h.reach_link ho hg hnone hc hq hx.depth hx.reach with hx' | ⟨-, -, rfl⟩
  · have hxo : T.Owned own priv q t x := ⟨hx.root, hx.priv, hx.depth, hx'⟩
    by_cases hs : x = f ∧ j = i
    · obtain ⟨rfl, rfl⟩ := hs
      obtain ⟨rfl, rfl⟩ := h.separated.only ho q hq t hx.depth hx'
      rwa [setEntry_same]
    · rw [setEntry_of_ne T e hs]
      exact h.entries hxo j hj
  · -- the new table is empty
    rw [setEntry_of_ne T e fun hs => hgf hs.1, hempty j]
    exact EntryOk.of_not_present rfl

/-- Linking an empty table under an absent entry maps nothing. -/
theorem PrivateTables.walk_link (h : PrivateTables T roots own priv) (ho : T.Owned own priv r p f)
    (hg : T.Fresh roots g) (hempty : ∀ j, T g j = 0) (habs : present (T f i) = false)
    (hp : p.length < 3)
    (hc : (T.setEntry f i e).child f i = some g) {r' : ℕ} (hr' : r' ∈ roots) (v : ℕ) :
    (T.setEntry f i e).walk r' v = T.walk r' v := by
  by_cases hn : r' = r ∧ p ++ [i] <+: indices v 3
  · obtain ⟨rfl, s, hs⟩ := hn
    have hgf : g ≠ f := by
      rintro rfl
      exact hg r' hr' p ho.depth ho.reach
    have hi : indices v 3 = p ++ i :: s := by rw [← hs, List.append_assoc, List.singleton_append]
    have hl := congrArg List.length hs
    rw [length_indices, List.length_append, List.length_append, List.length_singleton] at hl
    have hbefore : T.walkFrom v 3 r' = none := by
      refine walkFrom_none hi (List.cons_ne_nil i s) ho.reach (walkFrom_absent ?_)
      rwa [← index_of_indices hi]
    have hpath : (T.setEntry f i e).reach r' p = some f := by
      rw [← ho.reach]
      refine h.separated.reach_edit ho (fun _ _ => child_setEntry_of_ne) hr' ho.depth ?_
      intro _ hpre
      have := hpre.length_le
      rw [List.length_append, List.length_singleton] at this
      omega
    have hafter : (T.setEntry f i e).walkFrom v 3 r' = none := by
      refine walkFrom_none hs.symm ?_ ((Radix.reach_concat hpath).trans hc) (walkFrom_absent ?_)
      · rintro rfl
        rw [List.length_nil] at hl
        omega
      · rw [setEntry_of_ne T e fun hs => hgf hs.1, hempty]
        rfl
    exact hafter.trans hbefore.symm
  · exact h.walk_setEntry ho hr' fun hrr hpre => hn ⟨hrr, hpre⟩

end PointerOS
