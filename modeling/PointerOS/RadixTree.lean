import Mathlib

/-!
# Radix trees that share subtrees

A table has, under each index, a child or none; a path is the list of indices
from a root. Several roots may share tables, but the part of an owner's tree
below its private indices is separated from every other path of every root.
Edits of that part are invisible elsewhere.
-/
namespace PointerOS.Radix

variable {F I : Type*}

/-- The table at the end of a path. -/
def reach (child : F → I → Option F) : F → List I → Option F
  | r, [] => some r
  | r, i :: p => (child r i).bind fun f => reach child f p

section Paths
variable {child child' : F → I → Option F} {r f g : F} {p q : List I} {i : I}

@[simp] theorem reach_nil : reach child r [] = some r := rfl

@[simp] theorem reach_cons :
    reach child r (i :: p) = (child r i).bind fun f => reach child f p := rfl

theorem reach_append : reach child r (p ++ q) = (reach child r p).bind fun f => reach child f q := by
  induction p generalizing r with
  | nil => rfl
  | cons i p ih =>
    rw [List.cons_append, reach_cons, reach_cons, Option.bind_assoc]
    congr 1
    funext f
    exact ih

theorem reach_append_of (h : reach child r p = some f) :
    reach child r (p ++ q) = reach child f q := by
  rw [reach_append, h, Option.bind_some]

theorem reach_of_prefix (h : reach child r (p ++ q) = some f) : ∃ g, reach child r p = some g := by
  rw [reach_append] at h
  obtain ⟨g, hg, -⟩ := Option.bind_eq_some_iff.mp h
  exact ⟨g, hg⟩

theorem reach_concat (h : reach child r p = some f) :
    reach child r (p ++ [i]) = child f i := by
  rw [reach_append_of h, reach_cons]
  cases child f i <;> rfl

/-- A path looks only at the entries it goes through. -/
theorem reach_congr (h : ∀ p i s f, q = p ++ i :: s → reach child r p = some f →
    child' f i = child f i) : reach child' r q = reach child r q := by
  induction q generalizing r with
  | nil => rfl
  | cons i q ih =>
    rw [reach_cons, reach_cons, h [] i q r rfl rfl]
    cases hc : child r i with
    | none => rfl
    | some f =>
      refine ih fun p j s g hq hg => h (i :: p) j s g (by rw [hq, List.cons_append]) ?_
      rw [reach_cons, hc]
      exact hg

/-- Paths stay in a set that is closed under children. -/
theorem reach_mem {S : Set F} (hS : ∀ f ∈ S, ∀ i, ∀ g ∈ child f i, g ∈ S) (hr : r ∈ S)
    (h : reach child r p = some f) : f ∈ S := by
  induction p generalizing r with
  | nil => exact Option.some.inj h ▸ hr
  | cons i p ih =>
    obtain ⟨g, hg, hrest⟩ := Option.bind_eq_some_iff.mp h
    exact ih (hS r hr i g hg) hrest

end Paths

/-- No root leads to `f`. -/
def Fresh (child : F → I → Option F) (roots : Set F) (d : ℕ) (f : F) : Prop :=
  ∀ r ∈ roots, ∀ p, p.length ≤ d → reach child r p ≠ some f

/-- `f` is the table of the owner `r` at the path `p`, below a private index. -/
structure Owned (child : F → I → Option F) (own : Set F) (priv : Set I) (d : ℕ)
    (r : F) (p : List I) (f : F) : Prop where
  root : r ∈ own
  priv : ∀ i, p.head? = some i → i ∈ priv
  depth : p.length ≤ d
  reach : reach child r p = some f

/-- No other path leads to an owner's private table. -/
structure Separated (child : F → I → Option F) (roots own : Set F) (priv : Set I) (d : ℕ) : Prop where
  subset : own ⊆ roots
  only : ∀ {r p f}, Owned child own priv d r p f → ∀ r' ∈ roots, ∀ p', p'.length ≤ d →
    reach child r' p' = some f → r' = r ∧ p' = p

section Edits
variable {child child' : F → I → Option F} {roots own : Set F} {priv : Set I} {d : ℕ}
variable {r f g : F} {p : List I} {i : I}

theorem Owned.concat (h : Owned child own priv d r p f) (hi : p = [] → i ∈ priv)
    (hd : p.length < d) (hg : child f i = some g) : Owned child own priv d r (p ++ [i]) g where
  root := h.root
  priv := by
    intro j hj
    cases p with
    | nil =>
      obtain rfl : i = j := by simpa using hj
      exact hi rfl
    | cons k p => exact h.priv j (by simpa using hj)
  depth := by
    rw [List.length_append, List.length_singleton]
    omega
  reach := by rw [reach_concat h.reach, hg]

theorem Owned.congr (h : Owned child own priv d r p f)
    (he : Radix.reach child' r p = Radix.reach child r p) : Owned child' own priv d r p f :=
  ⟨h.root, h.priv, h.depth, he.trans h.reach⟩


/-- Writing a table that no root leads to changes no path. -/
theorem Fresh.reach_eq (hg : Fresh child roots d g) (he : ∀ f i, f ≠ g → child' f i = child f i)
    (hr : r ∈ roots) (hp : p.length ≤ d) : reach child' r p = reach child r p := by
  refine reach_congr fun q j s f hq hf => he f j ?_
  rintro rfl
  refine hg r hr q ?_ hf
  have hl := congrArg List.length hq
  rw [List.length_append] at hl
  omega

/-- Fewer paths keep the separation. -/
theorem Separated.mono (h : Separated child roots own priv d)
    (he : ∀ r ∈ roots, ∀ p f, p.length ≤ d → reach child' r p = some f → reach child r p = some f) :
    Separated child' roots own priv d where
  subset := h.subset
  only := by
    intro r p f ho r' hr' p' hp' hf'
    have ho' : Owned child own priv d r p f :=
      ⟨ho.root, ho.priv, ho.depth, he r (h.subset ho.root) p f ho.depth ho.reach⟩
    exact h.only ho' r' hr' p' hp' (he r' hr' p' f hp' hf')

/-- An edit of one entry of a private table is seen only by the paths through it. -/
theorem Separated.reach_edit (h : Separated child roots own priv d)
    (ho : Owned child own priv d r p f)
    (he : ∀ g j, ¬(g = f ∧ j = i) → child' g j = child g j) {r' : F} {p' : List I}
    (hr' : r' ∈ roots) (hp' : p'.length ≤ d) (hn : r' = r → ¬(p ++ [i] <+: p')) :
    reach child' r' p' = reach child r' p' := by
  refine reach_congr fun q j s g hq hg => he g j ?_
  rintro ⟨rfl, rfl⟩
  have hl := congrArg List.length hq
  rw [List.length_append] at hl
  obtain ⟨hrr, rfl⟩ := h.only ho r' hr' q (by omega) hg
  refine hn hrr ⟨s, ?_⟩
  rw [hq, List.append_assoc, List.singleton_append]

/-- The paths through an edited entry. -/
theorem Separated.reach_through (h : Separated child roots own priv d)
    (ho : Owned child own priv d r p f)
    (he : ∀ g j, ¬(g = f ∧ j = i) → child' g j = child g j) (s : List I) :
    reach child' r (p ++ [i] ++ s) = (child' f i).bind fun g => reach child' g s := by
  have hp : reach child' r p = some f := by
    rw [h.reach_edit ho he (h.subset ho.root) ho.depth, ho.reach]
    intro _ hpre
    have := hpre.length_le
    rw [List.length_append, List.length_singleton] at this
    omega
  rw [reach_append, reach_concat hp]

theorem Separated.reach_entry (h : Separated child roots own priv d)
    (ho : Owned child own priv d r p f)
    (he : ∀ g j, ¬(g = f ∧ j = i) → child' g j = child g j) :
    reach child' r (p ++ [i]) = child' f i := by
  have ht := h.reach_through ho he []
  rw [List.append_nil] at ht
  rw [ht]
  cases child' f i <;> rfl

/-- Filling an empty entry keeps every path. -/
theorem Separated.reach_fill (h : Separated child roots own priv d)
    (ho : Owned child own priv d r p f)
    (he : ∀ g j, ¬(g = f ∧ j = i) → child' g j = child g j) (hc : child f i = none)
    {r' x : F} {p' : List I} (hr' : r' ∈ roots) (hp' : p'.length ≤ d)
    (hx : reach child r' p' = some x) : reach child' r' p' = some x := by
  rw [h.reach_edit ho he hr' hp', hx]
  rintro rfl ⟨s, rfl⟩
  rw [reach_append, reach_concat ho.reach, hc] at hx
  exact nomatch hx

/-- Closing an entry of a private table takes paths away and adds none. -/
theorem Separated.reach_close (h : Separated child roots own priv d)
    (ho : Owned child own priv d r p f)
    (he : ∀ g j, ¬(g = f ∧ j = i) → child' g j = child g j) (hc : child' f i = none)
    {r' g : F} {p' : List I} (hr' : r' ∈ roots) (hp' : p'.length ≤ d)
    (hg : reach child' r' p' = some g) : reach child r' p' = some g := by
  by_cases hn : r' = r ∧ p ++ [i] <+: p'
  · obtain ⟨rfl, s, rfl⟩ := hn
    rw [h.reach_through ho he, hc] at hg
    exact nomatch hg
  · rwa [h.reach_edit ho he hr' hp' fun e hpre => hn ⟨e, hpre⟩] at hg

/-- Linking a fresh empty table under an entry of a private table adds one path. -/
theorem Separated.reach_link (h : Separated child roots own priv d)
    (ho : Owned child own priv d r p f)
    (he : ∀ g j, ¬(g = f ∧ j = i) → child' g j = child g j) (hg : Fresh child roots d g)
    (hempty : ∀ j, child g j = none) (hc : child' f i = some g)
    {r' x : F} {p' : List I} (hr' : r' ∈ roots) (hp' : p'.length ≤ d)
    (hx : reach child' r' p' = some x) :
    reach child r' p' = some x ∨ (r' = r ∧ p' = p ++ [i] ∧ x = g) := by
  by_cases hn : r' = r ∧ p ++ [i] <+: p'
  · obtain ⟨rfl, s, rfl⟩ := hn
    rw [h.reach_through ho he, hc, Option.bind_some] at hx
    cases s with
    | nil => exact .inr ⟨rfl, by rw [List.append_nil], (Option.some.inj hx).symm⟩
    | cons j s =>
      have hgf : g ≠ f := by
        rintro rfl
        exact hg _ hr' p ho.depth ho.reach
      rw [reach_cons, he g j fun e => hgf e.1, hempty] at hx
      exact nomatch hx
  · left
    rwa [h.reach_edit ho he hr' hp' fun e hpre => hn ⟨e, hpre⟩] at hx

theorem Separated.link (h : Separated child roots own priv d)
    (ho : Owned child own priv d r p f)
    (he : ∀ g j, ¬(g = f ∧ j = i) → child' g j = child g j) (hg : Fresh child roots d g)
    (hempty : ∀ j, child g j = none) (hc : child' f i = some g) :
    Separated child' roots own priv d where
  subset := h.subset
  only := by
    intro q t x hx r' hr' p' hp' hx'
    rcases h.reach_link ho he hg hempty hc (h.subset hx.root) hx.depth hx.reach with h1 | ⟨rfl, rfl, rfl⟩
    · rcases h.reach_link ho he hg hempty hc hr' hp' hx' with h2 | ⟨rfl, rfl, rfl⟩
      · exact h.only ⟨hx.root, hx.priv, hx.depth, h1⟩ r' hr' p' hp' h2
      · exact absurd h1 (hg _ (h.subset hx.root) _ hx.depth)
    · rcases h.reach_link ho he hg hempty hc hr' hp' hx' with h2 | ⟨rfl, rfl, -⟩
      · exact absurd h2 (hg _ hr' _ hp')
      · exact ⟨rfl, rfl⟩

/-- A fresh root whose private entries are empty and whose other entries are those of
the root `c` is a new owner. -/
theorem Separated.create (h : Separated child roots own priv d) {c : F} (hc : c ∈ roots)
    (hg : Fresh child roots d g) (he : ∀ f i, f ≠ g → child' f i = child f i)
    (hpriv : ∀ i ∈ priv, child' g i = none) (hcopy : ∀ i, i ∉ priv → child' g i = child c i) :
    Separated child' (insert g roots) (insert g own) priv d := by
  have hroot : ∀ r ∈ roots, ∀ p, p.length ≤ d → reach child' r p = reach child r p :=
    fun r hr p hp => hg.reach_eq he hr hp
  -- a path of the new root is empty, or a path of `c` through a shared entry
  have hnew : ∀ p f, p.length ≤ d → reach child' g p = some f →
      (p = [] ∧ f = g) ∨ (∃ i s, p = i :: s ∧ i ∉ priv ∧ reach child c p = some f) := by
    intro p f hp hf
    cases p with
    | nil => exact .inl ⟨rfl, (Option.some.inj hf).symm⟩
    | cons i s =>
      refine .inr ⟨i, s, rfl, ?_, ?_⟩
      · intro hi
        rw [reach_cons, hpriv i hi] at hf
        exact nomatch hf
      · by_cases hi : i ∈ priv
        · rw [reach_cons, hpriv i hi] at hf
          exact nomatch hf
        · have hcg : c ≠ g := by
            rintro rfl
            exact hg c hc [] (Nat.zero_le d) rfl
          rw [reach_cons, hcopy i hi, ← he c i hcg, ← reach_cons, hroot c hc _ hp] at hf
          exact hf
  refine ⟨Set.insert_subset_insert h.subset, ?_⟩
  intro r p f ho r' hr' p' hp' hf'
  rcases ho.root with rfl | hr
  · rcases hnew p f ho.depth ho.reach with ⟨rfl, rfl⟩ | ⟨i, s, rfl, hi, -⟩
    · rcases hr' with rfl | hr'
      · rcases hnew p' _ hp' hf' with ⟨rfl, -⟩ | ⟨-, -, -, -, hfc⟩
        · exact ⟨rfl, rfl⟩
        · exact absurd hfc (hg c hc p' hp')
      · exact absurd (hroot r' hr' p' hp' ▸ hf') (hg r' hr' p' hp')
    · exact absurd (ho.priv i rfl) hi
  · have ho' : Owned child own priv d r p f :=
      ⟨hr, ho.priv, ho.depth, (hroot r (h.subset hr) p ho.depth) ▸ ho.reach⟩
    rcases hr' with rfl | hr'
    · rcases hnew p' f hp' hf' with ⟨rfl, rfl⟩ | ⟨i, s, rfl, hi, hfc⟩
      · exact absurd ho'.reach (hg r (h.subset hr) p ho.depth)
      · obtain ⟨-, rfl⟩ := h.only ho' c hc _ hp' hfc
        exact absurd (ho.priv i rfl) hi
    · exact h.only ho' r' hr' p' hp' (hroot r' hr' p' hp' ▸ hf')

end Edits
end PointerOS.Radix
