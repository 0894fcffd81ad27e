import PointerOS.VmmCalls

/-!
# The tree of one PML4

In the trees that the kernel makes, no table is reached on two paths, every link is
writable, and a link above a user entry is itself a user link. Then raising the user bit
of a link on the way to a user page changes no permission: an entry without the bit
has no user page below it.
-/
namespace PointerOS
open Tables

structure PageTree (T : Tables) (r : ℕ) : Prop where
  tables : PrivateTables T {r} {r} Set.univ
  links : ∀ {q f i}, q.length < 3 → T.reach r q = some f → present (T f i) = true →
    pageSize (T f i) = false → writable (T f i) = true
  users : ∀ {q f i g j}, q.length < 3 → T.reach r q = some f → T.child f i = some g →
    present (T g j) = true → userBit (T g j) = true → userBit (T f i) = true

section Walks
variable {T T' : Tables} {v : ℕ}

/-- A user page has user entries all the way. -/
theorem walkFrom_user {n t : ℕ} {y : Translation} (hy : T.walkFrom v n t = some y) (hu : y.user = true)
    {q s : List (Fin 512)} {j : Fin 512} {f : ℕ} (hi : indices v n = q ++ j :: s)
    (hf : T.reach t q = some f) : present (T f j) = true ∧ userBit (T f j) = true := by
  induction q generalizing n t y with
  | nil =>
    obtain rfl : t = f := Option.some.inj hf
    obtain rfl : j = index v n := index_of_indices hi
    cases n with
    | zero =>
      rw [walkFrom] at hy
      split_ifs at hy with hp
      obtain rfl := Option.some.inj hy
      exact ⟨hp, hu⟩
    | succ n =>
      rw [walkFrom] at hy
      split_ifs at hy with hp hs hl
      · obtain rfl := Option.some.inj hy
        exact ⟨hp, hu⟩
      · obtain ⟨x, -, rfl⟩ := Option.map_eq_some_iff.mp hy
        exact ⟨hp, (Bool.and_eq_true_iff.mp hu).2⟩
  | cons i q ih =>
    cases n with
    | zero => exact absurd (congrArg List.length hi) (by simp [indices])
    | succ n =>
      obtain ⟨rfl, hi'⟩ := List.cons.inj hi
      obtain ⟨g, hg, hf'⟩ := Option.bind_eq_some_iff.mp hf
      rw [walkFrom_step hg] at hy
      obtain ⟨x, hx, rfl⟩ := Option.map_eq_some_iff.mp hy
      exact ih hx (Bool.and_eq_true_iff.mp hu).1 hi' hf'

/-- The translation of an address by that below a table on its way. -/
theorem walkFrom_below {n t f : ℕ} {p s : List (Fin 512)} {x : Translation} (hi : indices v n = p ++ s)
    (hs : s ≠ []) (hf : T.reach t p = some f) (hx : T.walkFrom v (n - p.length) f = some x) :
    ∃ y, T.walkFrom v n t = some y ∧ y.paddr = x.paddr ∧
      ((∀ q i s' g, p = q ++ i :: s' → T.reach t q = some g → writable (T g i) = true) →
        y.writable = x.writable) ∧
      ((∀ q i s' g, p = q ++ i :: s' → T.reach t q = some g → userBit (T g i) = true) → y.user = x.user) ∧
      (x.user = false → y.user = false) := by
  induction p generalizing n t with
  | nil =>
    obtain rfl : t = f := Option.some.inj hf
    exact ⟨x, hx, rfl, fun _ => rfl, fun _ => rfl, id⟩
  | cons j p ih =>
    cases n with
    | zero =>
      have hps : [] = p ++ s := (List.cons.inj hi).2
      exact absurd (List.append_eq_nil_iff.mp hps.symm).2 hs
    | succ n =>
      obtain ⟨rfl, hi'⟩ := List.cons.inj hi
      obtain ⟨g, hg, hf'⟩ := Option.bind_eq_some_iff.mp hf
      rw [List.length_cons, Nat.add_sub_add_right] at hx
      obtain ⟨y, hy, h1, h2, h3, h4⟩ := ih hi' hf' hx
      have hlow : ∀ (b : ℕ → Bool), (∀ q i s' g', index v (n + 1) :: p = q ++ i :: s' →
          T.reach t q = some g' → b (T g' i) = true) →
          ∀ q i s' g', p = q ++ i :: s' → T.reach g q = some g' → b (T g' i) = true := by
        intro b hb q i s' g' hq hg'
        refine hb (index v (n + 1) :: q) i s' g' (by rw [hq, List.cons_append]) ?_
        rw [reach, Radix.reach_cons, hg]
        exact hg'
      refine ⟨y.under (T t (index v (n + 1))), by rw [walkFrom_step hg, hy]; rfl, h1, fun hw => ?_,
        fun hu => ?_, fun hx => ?_⟩
      · have htop := hw [] _ _ t rfl rfl
        simp only [Translation.under, htop, Bool.and_true]
        exact h2 (hlow writable hw)
      · have htop := hu [] _ _ t rfl rfl
        simp only [Translation.under, htop, Bool.and_true]
        exact h3 (hlow userBit hu)
      · simp only [Translation.under, h4 hx, Bool.false_and]

end Walks

namespace PageTree
variable {T : Tables} {r t e : ℕ} {p : List (Fin 512)} {i : Fin 512}

theorem root : r ∈ ({r} : Set ℕ) := rfl

/-- A table is reached on one path only. -/
theorem path_eq (h : PageTree T r) (ho : T.Owned {r} Set.univ r p t) {q : List (Fin 512)} (hq : q.length ≤ 3)
    (hf : T.reach r q = some t) : q = p :=
  (h.tables.separated.only ho r root q hq hf).2

theorem child_reach {q : List (Fin 512)} {f g : ℕ} {j : Fin 512} (hf : T.reach r q = some f)
    (hg : T.child f j = some g) : T.reach r (q ++ [j]) = some g := (Radix.reach_concat hf).trans hg

/-- Setting the user bit of a link whose way from the root has it. -/
theorem raise (h : PageTree T r) (ho : T.Owned {r} Set.univ r p t) (hp : p.length < 3)
    (hpr : present (T t i) = true) (hs : pageSize (T t i) = false)
    (hup : ∀ q j s f, p = q ++ j :: s → T.reach r q = some f → userBit (T f j) = true) :
    PageTree (T.setEntry t i (T t i ||| pteUser)) r ∧
      ∀ w, (T.setEntry t i (T t i ||| pteUser)).walk r w = T.walk r w := by
  have he := extends_or_user h.tables ho hp (fun _ => Set.mem_univ i) hpr
  have hchild : ∀ f j, (T.setEntry t i (T t i ||| pteUser)).child f j = T.child f j := by
    intro f j
    by_cases hfj : f = t ∧ j = i
    · obtain ⟨rfl, rfl⟩ := hfj
      unfold child
      simp only [setEntry_same, present_or, present_pteUser, pageSize_or, pageSize_pteUser,
        Bool.or_false, entryFrame_or_user]
    · exact child_setEntry_of_ne hfj
  have hreach : ∀ q, (T.setEntry t i (T t i ||| pteUser)).reach r q = T.reach r q := fun q =>
    reach_same (hchild t i) r q
  have hkeep : ∀ f j, userBit (T f j) = true → userBit (T.setEntry t i (T t i ||| pteUser) f j) = true := by
    intro f j hu
    by_cases hfj : f = t ∧ j = i
    · obtain ⟨rfl, rfl⟩ := hfj
      rw [setEntry_same, userBit_or, hu, Bool.true_or]
    · rwa [setEntry_of_ne T _ hfj]
  refine ⟨⟨he.inv, fun {q f j} hq hf hpf hsf => ?_, fun {q f j g k} hq hf hg hpg hug => ?_⟩, fun w => ?_⟩
  · rw [hreach] at hf
    by_cases hfj : f = t ∧ j = i
    · obtain ⟨rfl, rfl⟩ := hfj
      rw [setEntry_same, writable_or, h.links hq hf hpr hs, Bool.true_or]
    · rw [setEntry_of_ne T _ hfj] at hpf hsf ⊢
      exact h.links hq hf hpf hsf
  · rw [hreach] at hf
    rw [hchild] at hg
    by_cases hgk : g = t ∧ k = i
    · -- the link above the raised one is on the way from the root
      obtain ⟨rfl, rfl⟩ := hgk
      have hpath := h.path_eq ho (q := q ++ [j]) (by rw [List.length_append, List.length_singleton]; omega)
        (child_reach hf hg)
      exact hkeep f j (hup q j [] f hpath.symm hf)
    · rw [setEntry_of_ne T _ hgk] at hpg hug
      exact hkeep f j (h.users hq hf hg hpg hug)
  · by_cases hu : userBit (T t i) = true
    · -- the bit was set
      have hsame : T t i ||| pteUser = T t i := by
        refine Nat.eq_of_testBit_eq fun b => ?_
        rw [Nat.testBit_or, pteUser, Nat.testBit_two_pow]
        by_cases hb : 2 = b
        · subst hb
          rw [show (T t i).testBit 2 = true from hu, Bool.true_or]
        · rw [decide_eq_false hb, Bool.or_false]
      rw [hsame]
      congr 1
      funext f j
      by_cases hfj : f = t ∧ j = i
      · obtain ⟨rfl, rfl⟩ := hfj
        exact setEntry_same ..
      · exact setEntry_of_ne T _ hfj
    by_cases hpre : p ++ [i] <+: indices w 3
    swap
    · exact h.tables.walk_setEntry ho root fun _ => hpre
    -- no page below the link is a user page, before and after
    obtain ⟨s, hs'⟩ := hpre
    have hnone : ∀ y, (T.setEntry t i (T t i ||| pteUser)).walk r w = some y → y.user = false := by
      intro y hy
      by_contra hyu
      rw [Bool.not_eq_false] at hyu
      obtain ⟨g, hg⟩ : ∃ g, T.child t i = some g := ⟨_, child_eq_some.mpr ⟨hpr, hs, rfl⟩⟩
      obtain ⟨k, s', rfl⟩ : ∃ k s', s = k :: s' := by
        cases s with
        | nil =>
          have := congrArg List.length hs'
          rw [length_indices, List.append_nil, List.length_append, List.length_singleton] at this
          omega
        | cons k s' => exact ⟨k, s', rfl⟩
      have hgr := child_reach ho.reach hg
      obtain ⟨hgp, hgu⟩ := walkFrom_user hy hyu hs'.symm ((hreach _).trans hgr)
      have hne : ¬(g = t ∧ k = i) := by
        rintro ⟨rfl, -⟩
        have hlen := congrArg List.length (h.path_eq ho (by rw [List.length_append, List.length_singleton]; omega)
          hgr)
        rw [List.length_append, List.length_singleton] at hlen
        omega
      rw [setEntry_of_ne T _ hne] at hgp hgu
      exact hu (h.users hp ho.reach hg hgp hgu)
    have hrel := he.raised r root w
    generalize T.walk r w = a at hrel
    generalize (T.setEntry t i (T t i ||| pteUser)).walk r w = b at hrel hnone
    cases hrel with
    | none => rfl
    | @some x y hxy =>
      have hy := hnone y rfl
      refine congrArg some (Translation.ext hxy.paddr hxy.writable ?_)
      cases hx : x.user with
      | false => exact hy
      | true => exact absurd (hxy.user hx) (by rw [hy]; exact Bool.false_ne_true)

/-- Linking a cleared fresh frame; the way to a user link has the user bit. -/
theorem link (h : PageTree T r) (ho : T.Owned {r} Set.univ r p t) (hp : p.length < 3) {g a : ℕ}
    (hg : T.Fresh {r} g) (hframe : IsFrame g) (habs : present (T t i) = false) (ha : a < 128)
    (hpres : present a = true) (hwr : writable a = true)
    (hup : userBit a = true → ∀ q j s f, p = q ++ j :: s → T.reach r q = some f → userBit (T f j) = true) :
    PageTree ((T.zeroTable g).setEntry t i (g ||| a)) r ∧
      ∀ w, ((T.zeroTable g).setEntry t i (g ||| a)).walk r w = T.walk r w := by
  obtain ⟨he, hpath⟩ := extends_link h.tables ho hp hg hframe habs ha hpres hwr
    (show false = true → userBit a = true from fun hu => nomatch hu)
  have hgt : g ≠ t := by
    rintro rfl
    exact hg r root p ho.depth ho.reach
  have hnew : ∀ j, (T.zeroTable g).setEntry t i (g ||| a) g j = 0 := fun j => by
    rw [setEntry_of_ne _ _ fun hs => hgt hs.1, zeroTable_same]
  have hold : ∀ {f j}, f ≠ g → ¬(f = t ∧ j = i) →
      (T.zeroTable g).setEntry t i (g ||| a) f j = T f j := fun hfg hfj => by
    rw [setEntry_of_ne _ _ hfj, zeroTable_of_ne T _ hfg]
  generalize hT' : (T.zeroTable g).setEntry t i (g ||| a) = T' at he hpath hnew hold ⊢
  have hti : T' t i = g ||| a := by
    rw [← hT', setEntry_same]
  have hpti : present (T' t i) = true := by rw [hti, present_or, hpres, Bool.or_true]
  refine ⟨⟨he.inv, fun {q f j} hq hf hpf hsf => ?_, fun {q f j x k} hq hf hx hpx hux => ?_⟩,
    he.same r root fun _ => rfl⟩
  · rcases he.entry hpf with ⟨hfg, hpf', heq⟩ | ⟨-, hw, -⟩
    · have hf' := (he.only root (by omega) hf).resolve_right fun hm => hfg hm.2
      rcases heq with heq | heq <;> rw [heq] at hsf ⊢
      · exact h.links hq hf' hpf' hsf
      · rw [pageSize_or, pageSize_pteUser, Bool.or_false] at hsf
        rw [writable_or, h.links hq hf' hpf' hsf, Bool.true_or]
    · exact hw
  · have hfg : f ≠ g := by
      rintro rfl
      obtain ⟨hpj, -, -⟩ := child_eq_some.mp hx
      rw [hnew] at hpj
      exact nomatch hpj
    have hf' := (he.only root (by omega) hf).resolve_right fun hm => hfg (List.mem_singleton.mp hm.2)
    have hxg : x ≠ g := by
      rintro rfl
      rw [hnew] at hpx
      exact nomatch hpx
    have hfj : ¬(f = t ∧ j = i) := by
      rintro ⟨rfl, rfl⟩
      have hx' := child_reach (he.keep root ho.depth ho.reach) hx
      exact hxg (Option.some.inj (hx'.symm.trans hpath))
    have hxT : T.child f j = some x := (child_congr (hold hfg hfj)).symm.trans hx
    rw [hold hfg hfj]
    by_cases hxk : x = t ∧ k = i
    · -- the link above the new one is on the way from the root
      obtain ⟨rfl, rfl⟩ := hxk
      have hua : userBit a = true := by
        rw [hti, userBit_or] at hux
        have hgu : userBit g = false := testBit_frame hframe.1 (by decide)
        rwa [hgu, Bool.false_or] at hux
      have hpq := h.path_eq ho (q := q ++ [j]) (by rw [List.length_append, List.length_singleton]; omega)
        (child_reach hf' hxT)
      exact hup hua q j [] f hpq.symm hf'
    · rw [hold hxg hxk] at hpx hux
      exact h.users hq hf' hxT hpx hux

/-- Writing an entry that links no table: its way has the user bit if it does. -/
theorem setLeaf (h : PageTree T r) (ho : T.Owned {r} Set.univ r p t)
    (hc : p.length < 3 → (T.setEntry t i e).child t i = none) (hsize : present e = true → p.length < 2 → False)
    (hup : present e = true → userBit e = true → ∀ q j s f, p = q ++ j :: s → T.reach r q = some f →
      userBit (T f j) = true) : PageTree (T.setEntry t i e) r := by
  have hback : ∀ q x, q.length ≤ 3 → (T.setEntry t i e).reach r q = some x → T.reach r q = some x := by
    intro q x hq hx
    by_cases hp : p.length = 3
    · exact (h.tables.reach_last ho hp root hq).symm.trans hx
    · exact h.tables.reach_closed ho (hc (by have := ho.depth; omega)) root hq hx
  have hok : EntryOk p.length e := by
    refine fun hpe => ⟨fun hp => (hsize hpe hp).elim, fun hp hs => ?_⟩
    have hnone := hc hp
    rw [child_eq_none, setEntry_same, hs] at hnone
    exact nomatch hnone hpe
  have hlast : ∀ {q f j}, q.length < 3 → T.reach r q = some f → present (T.setEntry t i e f j) = true →
      pageSize (T.setEntry t i e f j) = false → ¬(f = t ∧ j = i) := by
    rintro q f j hq hf hpf hsf ⟨rfl, rfl⟩
    obtain rfl := h.path_eq ho hq.le hf
    have hnone := child_eq_none.mp (hc hq) hpf
    rw [hsf] at hnone
    exact nomatch hnone
  refine ⟨h.tables.setEntry_mono ho hok (by rintro _ rfl; exact hback), fun {q f j} hq hf hpf hsf => ?_,
    fun {q f j x k} hq hf hx hpx hux => ?_⟩
  · have hf' := hback q f hq.le hf
    have hne := hlast hq hf' hpf hsf
    rw [setEntry_of_ne T e hne] at hpf hsf ⊢
    exact h.links hq hf' hpf hsf
  · have hf' := hback q f hq.le hf
    obtain ⟨hpf, hsf, -⟩ := child_eq_some.mp hx
    have hne := hlast hq hf' hpf hsf
    have hx' : T.child f j = some x := (child_setEntry_of_ne hne).symm.trans hx
    rw [setEntry_of_ne T e hne]
    by_cases hxk : x = t ∧ k = i
    · obtain ⟨rfl, rfl⟩ := hxk
      rw [setEntry_same] at hpx hux
      have hpq := h.path_eq ho (q := q ++ [j]) (by rw [List.length_append, List.length_singleton]; omega)
        (child_reach hf' hx')
      exact hup hpx hux q j [] f hpq.symm hf'
    · rw [setEntry_of_ne T e hxk] at hpx hux
      exact h.users hq hf' hx' hpx hux

section Copy
variable {T' : Tables} {old g : ℕ}

/-- The paths of a fresh root with entries of another root. -/
theorem copy_reach (hg : T.Fresh {old} g) (hother : ∀ f, f ≠ g → T' f = T f)
    (hroot : ∀ i, T' g i = 0 ∨ T' g i = T old i) {j : Fin 512} {q : List (Fin 512)} {f : ℕ}
    (hq : (j :: q).length ≤ 3) (hf : T'.reach g (j :: q) = some f) : T.reach old (j :: q) = some f := by
  have hne : old ≠ g := by
    rintro rfl
    exact hg old root [] (Nat.zero_le 3) rfl
  obtain ⟨x, hx, hf'⟩ := Option.bind_eq_some_iff.mp hf
  have hj : T' g j = T old j := by
    refine (hroot j).resolve_left fun h0 => ?_
    have := (child_eq_some.mp hx).1
    rw [h0] at this
    exact nomatch this
  have hc : T'.child g j = T.child old j := by
    unfold child
    rw [hj]
  have hold : T'.reach old (j :: q) = T.reach old (j :: q) := hg.reach_eq hother root hq
  rw [← hold, reach, Radix.reach_cons, child_congr (congrFun (hother old hne) j), ← hc]
  exact hf

/-- Such a root has that part of the tree of the other. -/
theorem copy (h : PageTree T old) (hg : T.Fresh {old} g)
    (hother : ∀ f, f ≠ g → T' f = T f) (hroot : ∀ i, T' g i = 0 ∨ T' g i = T old i) : PageTree T' g := by
  have hreach : ∀ {j q f}, (j :: q).length ≤ 3 → T'.reach g (j :: q) = some f →
      T.reach old (j :: q) = some f := fun hq hf => copy_reach hg hother hroot hq hf
  have hnot : ∀ {j q f}, (j :: q).length ≤ 3 → T'.reach g (j :: q) = some f → f ≠ g := by
    rintro j q f hq hf rfl
    exact hg old root _ hq (hreach hq hf)
  -- an entry below the new root is an entry of the old tree
  have hentry : ∀ {q f j}, q.length ≤ 3 → T'.reach g q = some f → present (T' f j) = true →
      ∃ f', T.reach old q = some f' ∧ T' f j = T f' j ∧ (f ≠ g → f' = f) := by
    intro q f j hq hf hp
    cases q with
    | nil =>
      obtain rfl : g = f := Option.some.inj hf
      refine ⟨old, rfl, (hroot j).resolve_left fun h0 => ?_, fun hne' => absurd rfl hne'⟩
      rw [h0] at hp
      exact nomatch hp
    | cons k q =>
      exact ⟨f, hreach hq hf, congrFun (hother f (hnot hq hf)) j, fun _ => rfl⟩
  refine ⟨⟨⟨le_rfl, ?_⟩, ?_⟩, fun {q f j} hq hf hp hs => ?_, fun {q f j x k} hq hf hx hp hu => ?_⟩
  · rintro q' p f ho q rfl p' hp' hf'
    obtain rfl : q' = q := ho.root
    refine ⟨rfl, ?_⟩
    have hf := ho.reach
    cases p with
    | nil =>
      obtain rfl : q' = f := Option.some.inj hf
      cases p' with
      | nil => rfl
      | cons j p' => exact absurd rfl (hnot hp' hf')
    | cons j p =>
      cases p' with
      | nil =>
        obtain rfl : q' = f := Option.some.inj hf'
        exact absurd rfl (hnot ho.depth hf)
      | cons j' p' =>
        have ho' : T.Owned {old} Set.univ old (j :: p) f :=
          ⟨rfl, fun _ _ => Set.mem_univ _, ho.depth, hreach ho.depth hf⟩
        exact h.path_eq ho' hp' (hreach hp' hf')
  · intro q p f ho j _ hp
    obtain rfl : q = g := ho.root
    obtain ⟨f', hf', heq, -⟩ := hentry ho.depth ho.reach hp
    rw [heq] at hp ⊢
    exact h.tables.entries (r := old) ⟨rfl, fun _ _ => Set.mem_univ _, ho.depth, hf'⟩ j
      (fun _ => Set.mem_univ j) hp
  · obtain ⟨f', hf', heq, -⟩ := hentry hq.le hf hp
    rw [heq] at hp hs ⊢
    exact h.links hq hf' hp hs
  · obtain ⟨hpf, -, -⟩ := child_eq_some.mp hx
    obtain ⟨f', hf', heq, -⟩ := hentry hq.le hf hpf
    have hx' : T.child f' j = some x := by
      rw [← hx]
      unfold child
      rw [heq]
    have hlen : (q ++ [j]).length ≤ 3 := by
      rw [List.length_append, List.length_singleton]
      omega
    have hxg : x ≠ g := by
      rintro rfl
      exact hg old root _ hlen (child_reach hf' hx')
    rw [congrFun (hother x hxg) k] at hp hu
    rw [heq]
    exact h.users hq hf' hx' hp hu

end Copy
end PageTree
end PointerOS
