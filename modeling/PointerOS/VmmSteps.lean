import PointerOS.PrivateTables
import PointerOS.Vmm

/-!
# Making the tables of an address

The block that `vmm_map_page` repeats at each level maps nothing and may only raise
user bits on the way. The frames it takes from the allocator are listed, so that a
caller can say what it assumes of them.
-/
namespace PointerOS
open Tables

/-- The same frame and write permission, and at least the user permission. -/
structure Translation.Raised (x y : Translation) : Prop where
  paddr : y.paddr = x.paddr
  writable : y.writable = x.writable
  user : x.user = true → y.user = true

theorem Translation.Raised.refl (x : Translation) : x.Raised x := ⟨rfl, rfl, id⟩

theorem Translation.Raised.trans {x y z : Translation} (h : x.Raised y) (h' : y.Raised z) : x.Raised z :=
  ⟨h'.paddr.trans h.paddr, h'.writable.trans h.writable, fun hx => h'.user (h.user hx)⟩

theorem rel_raised_refl (x : Option Translation) : Option.Rel Translation.Raised x x := by
  cases x
  · exact .none
  · exact .some (.refl _)

theorem rel_raised_trans {x y z : Option Translation} (h : Option.Rel Translation.Raised x y)
    (h' : Option.Rel Translation.Raised y z) : Option.Rel Translation.Raised x z := by
  cases h with
  | none => exact h'
  | some h =>
    cases h' with
    | some h' => exact .some (h.trans h')

theorem leaf_or_user_raised (e v n : ℕ) (hn : n ≤ 2) : (leaf e v n).Raised (leaf (e ||| pteUser) v n) := by
  refine ⟨?_, ?_, ?_⟩
  · have h : (e ||| pteUser) / 2 ^ (12 + 9 * n) = e / 2 ^ (12 + 9 * n) := by
      rw [Nat.or_div_two_pow, Nat.div_eq_of_lt (a := pteUser), Nat.or_zero]
      exact Nat.pow_lt_pow_right (by decide) (by omega)
    simp only [leaf, h]
  · simp only [leaf, writable_or, writable_pteUser, Bool.or_false]
  · intro h
    simp only [leaf] at h ⊢
    rw [userBit_or, h, Bool.true_or]

theorem Translation.Raised.under {x y : Translation} (h : x.Raised y) {e e' : ℕ}
    (he : e' = e ∨ e' = e ||| pteUser) : (x.under e).Raised (y.under e') := by
  rcases he with rfl | rfl
  · exact ⟨h.paddr, by simp only [Translation.under, h.writable], by
      simp only [Translation.under, Bool.and_eq_true]
      exact fun hx => ⟨h.user hx.1, hx.2⟩⟩
  · exact ⟨h.paddr, by simp only [Translation.under, h.writable, writable_or, writable_pteUser, Bool.or_false], by
      simp only [Translation.under, Bool.and_eq_true, userBit_or, userBit_pteUser, Bool.or_true, and_true]
      exact fun hx => h.user hx.1⟩

theorem rel_raised_under {x y : Option Translation} (h : Option.Rel Translation.Raised x y) {e e' : ℕ}
    (he : e' = e ∨ e' = e ||| pteUser) :
    Option.Rel Translation.Raised (x.map (·.under e)) (y.map (·.under e')) := by
  cases h with
  | none => exact .none
  | some h => exact .some (h.under he)

/-- Setting user bits raises the walks. -/
theorem walkFrom_raised {T T' : Tables} (h : ∀ f i, T' f i = T f i ∨ T' f i = T f i ||| pteUser)
    (v : ℕ) {n : ℕ} (hn : n ≤ 3) (t : ℕ) :
    Option.Rel Translation.Raised (T.walkFrom v n t) (T'.walkFrom v n t) := by
  have hbits : ∀ f i, present (T' f i) = present (T f i) ∧ pageSize (T' f i) = pageSize (T f i) ∧
      entryFrame (T' f i) = entryFrame (T f i) := by
    intro f i
    rcases h f i with he | he
    · rw [he]
      exact ⟨rfl, rfl, rfl⟩
    · rw [he]
      simp [entryFrame_or_user]
  induction n generalizing t with
  | zero =>
    simp only [walkFrom, (hbits t (index v 0)).1]
    split_ifs
    · rcases h t (index v 0) with he | he
      · rw [he]
        exact .some (.refl _)
      · rw [he]
        exact .some (leaf_or_user_raised _ v 0 (by omega))
    · exact .none
  | succ n ih =>
    obtain ⟨h1, h2, h3⟩ := hbits t (index v (n + 1))
    simp only [walkFrom, h1, h2, h3]
    split_ifs with hp hs hl
    · exact .none
    · rcases h t (index v (n + 1)) with he | he
      · rw [he]
        exact .some (.refl _)
      · rw [he]
        exact .some (leaf_or_user_raised _ v (n + 1) (by omega))
    · exact rel_raised_under (ih (by omega) _) (h t (index v (n + 1)))
    · exact .none

/-! ## Frames taken from the allocator -/

section Frames
variable {σ : Type*} (alloc : σ → ℕ × σ)

/-- The results of the next calls of the allocator. -/
def framesTaken : σ → ℕ → List ℕ
  | _, 0 => []
  | s, k + 1 => (alloc s).1 :: framesTaken (alloc s).2 k

/-- How many of the `m` tables below the table `t` of level `n` are missing on the way of `v`. -/
def tablesMissing (T : Tables) (v : ℕ) : ℕ → ℕ → ℕ → ℕ
  | 0, _, _ => 0
  | m + 1, n, t =>
    if present (T t (index v n)) then tablesMissing T v m (n - 1) (maskPage (T t (index v n))) else m + 1

/-- The frames are page frames, all different, and none is a table of an address space. -/
structure FramesFresh (T : Tables) (roots : Set ℕ) (s : σ) (k : ℕ) : Prop where
  nodup : (framesTaken alloc s k).Nodup
  fresh : ∀ g ∈ framesTaken alloc s k, IsFrame g ∧ T.Fresh roots g

/-- The calls of the allocator from `s` to the last state return these frames. -/
inductive Takes : σ → List ℕ → σ → Prop
  | nil (s : σ) : Takes s [] s
  | cons {s s' : σ} {l : List ℕ} (h : Takes (alloc s).2 l s') : Takes s ((alloc s).1 :: l) s'

variable {alloc}

theorem Takes.append {s s' s'' : σ} {l l' : List ℕ} (h : Takes alloc s l s')
    (h' : Takes alloc s' l' s'') : Takes alloc s (l ++ l') s'' := by
  induction h with
  | nil => exact h'
  | cons _ ih => exact .cons (ih h')

theorem FramesFresh.head {T : Tables} {roots : Set ℕ} {s : σ} {k : ℕ}
    (h : FramesFresh alloc T roots s (k + 1)) : IsFrame (alloc s).1 ∧ T.Fresh roots (alloc s).1 :=
  h.fresh _ (List.mem_cons_self ..)

theorem FramesFresh.tail {T T' : Tables} {roots : Set ℕ} {s : σ} {k : ℕ}
    (h : FramesFresh alloc T roots s (k + 1))
    (hT : ∀ g, T.Fresh roots g → g ≠ (alloc s).1 → T'.Fresh roots g) :
    FramesFresh alloc T' roots (alloc s).2 k := by
  obtain ⟨hn, hf⟩ := h
  rw [framesTaken, List.nodup_cons] at hn
  refine ⟨hn.2, fun g hg => ?_⟩
  obtain ⟨h1, h2⟩ := hf g (List.mem_cons_of_mem _ hg)
  exact ⟨h1, hT g h2 fun he => hn.1 (he ▸ hg)⟩

theorem FramesFresh.mono {T T' : Tables} {roots : Set ℕ} {s : σ} {k : ℕ}
    (h : FramesFresh alloc T roots s k) (hT : ∀ g, T.Fresh roots g → T'.Fresh roots g) :
    FramesFresh alloc T' roots s k :=
  ⟨h.nodup, fun g hg => ⟨(h.fresh g hg).1, hT g (h.fresh g hg).2⟩⟩

theorem FramesFresh.subset {T : Tables} {roots roots' : Set ℕ} {s : σ} {k : ℕ} (h : FramesFresh alloc T roots s k)
    (hr : roots' ⊆ roots) : FramesFresh alloc T roots' s k :=
  ⟨h.nodup, fun g hg => ⟨(h.fresh g hg).1, fun r hmem => (h.fresh g hg).2 r (hr hmem)⟩⟩

theorem tablesMissing_congr (T T' : Tables) (v : ℕ)
    (h : ∀ f i, present (T' f i) = present (T f i) ∧ maskPage (T' f i) = maskPage (T f i)) (m n t : ℕ) :
    tablesMissing T' v m n t = tablesMissing T v m n t := by
  induction m generalizing n t with
  | zero => rfl
  | succ m ih => simp only [tablesMissing, (h t (index v n)).1, (h t (index v n)).2, ih]

theorem tablesMissing_empty {T : Tables} {t : ℕ} (h : ∀ i, T t i = 0) (v m n : ℕ) :
    tablesMissing T v m n t = m := by
  cases m with
  | zero => rfl
  | succ m => simp [tablesMissing, h]

end Frames

/-! ## One level -/

theorem or_user_trans {a b c : ℕ} (h : b = a ∨ b = a ||| pteUser) (h' : c = b ∨ c = b ||| pteUser) :
    c = a ∨ c = a ||| pteUser := by
  rcases h with rfl | rfl
  · exact h'
  · rcases h' with rfl | rfl
    · exact .inr rfl
    · rw [Nat.or_assoc, Nat.or_self]
      exact .inr rfl

/-- The tables `T'` have the paths of `T`, and those of the tables `made` below `r`. -/
structure Extends (T T' : Tables) (roots own : Set ℕ) (priv : Set (Fin 512)) (r : ℕ) (user : Bool)
    (made : List ℕ) : Prop where
  inv : PrivateTables T' roots own priv
  keep : ∀ {r' q x}, r' ∈ roots → q.length ≤ 3 → T.reach r' q = some x → T'.reach r' q = some x
  only : ∀ {r' q x}, r' ∈ roots → q.length ≤ 3 → T'.reach r' q = some x →
    T.reach r' q = some x ∨ (r' = r ∧ x ∈ made)
  raised : ∀ r' ∈ roots, ∀ v, Option.Rel Translation.Raised (T.walk r' v) (T'.walk r' v)
  same : ∀ r' ∈ roots, (r' = r → user = false) → ∀ v, T'.walk r' v = T.walk r' v
  entry : ∀ {f i}, present (T' f i) = true →
    (f ∉ made ∧ present (T f i) = true ∧ (T' f i = T f i ∨ T' f i = T f i ||| pteUser)) ∨
    (pageSize (T' f i) = false ∧ writable (T' f i) = true ∧ (user = true → userBit (T' f i) = true))
  last : ∀ {r' q f}, r' ∈ roots → q.length = 3 → T'.reach r' q = some f →
    (T.reach r' q = some f ∧ ∀ i, T' f i = T f i) ∨ ∀ i, T' f i = 0

section Extends
variable {T T' T'' : Tables} {roots own : Set ℕ} {priv : Set (Fin 512)} {r : ℕ} {user : Bool}
variable {made made' : List ℕ}

theorem Extends.refl (h : PrivateTables T roots own priv) (r : ℕ) (user : Bool) :
    Extends T T roots own priv r user [] :=
  ⟨h, fun _ _ hx => hx, fun _ _ hx => .inl hx, fun _ _ _ => rel_raised_refl _, fun _ _ _ _ => rfl,
    fun hp => .inl ⟨List.not_mem_nil, hp, .inl rfl⟩, fun _ _ hx => .inl ⟨hx, fun _ => rfl⟩⟩

theorem Extends.trans (h : Extends T T' roots own priv r user made)
    (h' : Extends T' T'' roots own priv r user made') :
    Extends T T'' roots own priv r user (made ++ made') where
  inv := h'.inv
  keep := fun hr hq hx => h'.keep hr hq (h.keep hr hq hx)
  only := by
    intro r' q x hr hq hx
    rcases h'.only hr hq hx with hx' | ⟨rfl, hx'⟩
    · rcases h.only hr hq hx' with hx'' | ⟨rfl, hx''⟩
      · exact .inl hx''
      · exact .inr ⟨rfl, List.mem_append_left _ hx''⟩
    · exact .inr ⟨rfl, List.mem_append_right _ hx'⟩
  raised := fun r' hr v => rel_raised_trans (h.raised r' hr v) (h'.raised r' hr v)
  same := fun r' hr hu v => (h'.same r' hr hu v).trans (h.same r' hr hu v)
  entry := by
    intro f i hp
    rcases h'.entry hp with ⟨hn', hp', he'⟩ | hnew
    · rcases h.entry hp' with ⟨hn, hp'', he⟩ | ⟨hs, hw, hu⟩
      · refine .inl ⟨fun hm => ?_, hp'', or_user_trans he he'⟩
        exact (List.mem_append.mp hm).elim hn hn'
      · refine .inr ?_
        rcases he' with he' | he' <;> rw [he']
        · exact ⟨hs, hw, hu⟩
        · simp [hs, hw]
    · exact .inr hnew
  last := by
    intro r' q f hr hq hf
    rcases h'.last hr hq hf with ⟨hf', he'⟩ | he'
    · rcases h.last hr hq hf' with ⟨hf'', he⟩ | he
      · exact .inl ⟨hf'', fun i => (he' i).trans (he i)⟩
      · exact .inr fun i => (he' i).trans (he i)
    · exact .inr he'

/-- No block makes a page of 2 MB. -/
theorem Extends.huge (h : Extends T T' roots own priv r user made) {f : ℕ} {i : Fin 512}
    (hp : present (T' f i) = true) (hs : pageSize (T' f i) = true) :
    present (T f i) = true ∧ pageSize (T f i) = true ∧ f ∉ made := by
  rcases h.entry hp with ⟨hn, hp', he | he⟩ | ⟨hs', -⟩
  · exact ⟨hp', he ▸ hs, hn⟩
  · rw [he, pageSize_or, pageSize_pteUser, Bool.or_false] at hs
    exact ⟨hp', hs, hn⟩
  · rw [hs] at hs'
    exact nomatch hs'

theorem Extends.fresh (h : Extends T T' roots own priv r user made) {g : ℕ} (hg : T.Fresh roots g)
    (hn : g ∉ made) : T'.Fresh roots g := by
  intro r' hr q hq hx
  rcases h.only hr hq hx with hx' | ⟨-, hx'⟩
  · exact hg r' hr q hq hx'
  · exact hn hx'

theorem Extends.owned (h : Extends T T' roots own priv r user made) {p : List (Fin 512)} {r' f : ℕ}
    (ho : T.Owned own priv r' p f) (hr : r' ∈ roots) : T'.Owned own priv r' p f :=
  ⟨ho.root, ho.priv, ho.depth, h.keep hr ho.depth ho.reach⟩

end Extends

section NextTable
variable {σ : Type*} {alloc : σ → ℕ × σ} {vm : Vm σ} {roots own : Set ℕ} {priv : Set (Fin 512)}
variable {r t flags : ℕ} {p : List (Fin 512)} {i : Fin 512}

/-- Raising the user bit of a private entry that has a table. -/
theorem extends_or_user {T : Tables} (h : PrivateTables T roots own priv) (ho : T.Owned own priv r p t)
    (hlen : p.length < 3) (hi : p = [] → i ∈ priv) (hpr : present (T t i) = true) :
    Extends T (T.setEntry t i (T t i ||| pteUser)) roots own priv r true [] := by
  have hc : (T.setEntry t i (T t i ||| pteUser)).child t i = T.child t i := by
    unfold child
    simp only [setEntry_same, present_or, present_pteUser, pageSize_or, pageSize_pteUser,
      Bool.or_false, entryFrame_or_user]
  have hinv : PrivateTables (T.setEntry t i (T t i ||| pteUser)) roots own priv := by
    refine h.setEntry_mono ho (h.entries ho i hi).or_user fun r' _ q x _ hx => ?_
    rwa [reach_same hc] at hx
  refine ⟨hinv, fun _ _ hx => (reach_same hc _ _).trans hx,
    fun _ _ hx => .inl ((reach_same hc _ _).symm.trans hx), ?_, ?_, ?_, ?_⟩
  · intro r' _ v
    refine walkFrom_raised (fun f j => ?_) v le_rfl r'
    by_cases hs : f = t ∧ j = i
    · obtain ⟨rfl, rfl⟩ := hs
      exact .inr (setEntry_same ..)
    · exact .inl (setEntry_of_ne T _ hs)
  · exact fun r' hr' hu v => h.walk_setEntry_of_ne ho hr' (fun hrr => nomatch hu hrr) v
  · intro f j hp
    left
    by_cases hfj : f = t ∧ j = i
    · obtain ⟨rfl, rfl⟩ := hfj
      rw [setEntry_same]
      exact ⟨List.not_mem_nil, hpr, .inr rfl⟩
    · rw [setEntry_of_ne T _ hfj] at hp ⊢
      exact ⟨List.not_mem_nil, hp, .inl rfl⟩
  · intro r' q f hr' hq hf
    have hf' := (reach_same hc _ _).symm.trans hf
    refine .inl ⟨hf', fun j => setEntry_of_ne T _ ?_⟩
    rintro ⟨rfl, -⟩
    obtain ⟨-, rfl⟩ := h.separated.only ho r' hr' q hq.le hf'
    omega

/-- Linking a cleared fresh frame under an absent private entry. -/
theorem extends_link {T : Tables} (h : PrivateTables T roots own priv) (ho : T.Owned own priv r p t)
    (hp : p.length < 3) {g a : ℕ} (hg : T.Fresh roots g) (hframe : IsFrame g)
    (habs : present (T t i) = false) (ha : a < 128) (hpres : present a = true)
    (hwr : writable a = true) {user : Bool} (huser : user = true → userBit a = true) :
    Extends T ((T.zeroTable g).setEntry t i (g ||| a)) roots own priv r user [g] ∧
      ((T.zeroTable g).setEntry t i (g ||| a)).reach r (p ++ [i]) = some g := by
  have hgt : t ≠ g := by
    rintro rfl
    exact hg r (h.separated.subset ho.root) p ho.depth ho.reach
  have hz : ∀ f, f ≠ g → T.zeroTable g f = T f := fun f hf => funext fun j => zeroTable_of_ne T j hf
  have hempty : ∀ j, T.zeroTable g g j = 0 := fun j => zeroTable_same T g j
  obtain ⟨Z, hZ⟩ : ∃ Z, Z = T.zeroTable g := ⟨_, rfl⟩
  rw [← hZ] at hz hempty ⊢
  have hinv := h.write_fresh hg hz
  have hreach : ∀ {r' q}, r' ∈ roots → q.length ≤ 3 → Z.reach r' q = T.reach r' q :=
    fun hr hq => hg.reach_eq hz hr hq
  have hoZ : Z.Owned own priv r p t := ho.congr (hreach (h.separated.subset ho.root) ho.depth)
  have hgZ : Z.Fresh roots g := fun r' hr q hq hx => hg r' hr q hq ((hreach hr hq).symm.trans hx)
  have hps : pageSize (g ||| a) = false := by
    have h7 : a.testBit 7 = false := Nat.testBit_eq_false_of_lt ha
    have hg7 : g.testBit 7 = false := testBit_frame hframe.1 (by decide)
    unfold pageSize
    rw [Nat.testBit_or, h7, hg7]
    rfl
  have hwidth : g ||| a < 2 ^ 52 := Nat.or_lt_two_pow hframe.2 (by omega)
  have hentry : EntryOk p.length (g ||| a) := fun _ => ⟨fun _ => hps, fun _ _ => hwidth⟩
  have hc : (Z.setEntry t i (g ||| a)).child t i = some g := by
    refine child_eq_some.mpr ⟨?_, ?_, ?_⟩
    · rw [setEntry_same, present_or, hpres, Bool.or_true]
    · rw [setEntry_same, hps]
    · rw [setEntry_same, entryFrame_eq_maskPage hwidth, maskPage_or_flags hframe.1 (by omega)]
  have habsZ : present (Z t i) = false := by rwa [hz t hgt]
  have hnone : ∀ j, Z.child g j = none := fun j => child_eq_none.mpr (by
    rw [hempty j]
    exact fun h => nomatch h)
  have hwalk : ∀ r' ∈ roots, ∀ v, (Z.setEntry t i (g ||| a)).walk r' v = T.walk r' v := fun r' hr v =>
    (hinv.walk_link hoZ hgZ hempty habsZ hp hc hr v).trans (hg.walk_eq hz hr v)
  refine ⟨⟨hinv.link hoZ hgZ hempty hentry hc, ?_, ?_, ?_, fun r' hr _ v => hwalk r' hr v, ?_, ?_⟩, ?_⟩
  · intro r' q x hr hq hx
    have habsc : Z.child t i = none := child_eq_none.mpr (by
      rw [habsZ]
      exact fun h => nomatch h)
    exact hinv.separated.reach_fill hoZ (fun _ _ => child_setEntry_of_ne) habsc hr hq
      ((hreach hr hq).trans hx)
  · intro r' q x hr hq hx
    rcases hinv.reach_link hoZ hgZ hnone hc hr hq hx with hx' | ⟨hr', -, rfl⟩
    · exact .inl ((hreach hr hq).symm.trans hx')
    · exact .inr ⟨hr', List.mem_singleton_self _⟩
  · intro r' hr v
    rw [hwalk r' hr v]
    exact rel_raised_refl _
  · intro f j hp
    by_cases hfj : f = t ∧ j = i
    · obtain ⟨rfl, rfl⟩ := hfj
      right
      rw [setEntry_same]
      exact ⟨hps, by rw [writable_or, hwr, Bool.or_true], fun hu => by
        rw [userBit_or, huser hu, Bool.or_true]⟩
    · left
      rw [setEntry_of_ne Z _ hfj] at hp ⊢
      have hfg : f ≠ g := by
        rintro rfl
        rw [hempty] at hp
        exact nomatch hp
      rw [hz f hfg] at hp ⊢
      exact ⟨fun hm => hfg (List.mem_singleton.mp hm), hp, .inl rfl⟩
  · intro r' q f hr' hq hf
    have hft : f ≠ t → ∀ j, Z.setEntry t i (g ||| a) f j = Z f j :=
      fun hne j => setEntry_of_ne Z _ fun hs => hne hs.1
    rcases hinv.reach_link hoZ hgZ hnone hc hr' hq.le hf with hf' | ⟨-, -, rfl⟩
    · have hne : f ≠ t := by
        rintro rfl
        obtain ⟨-, rfl⟩ := hinv.separated.only hoZ r' hr' q hq.le hf'
        omega
      have hfg : f ≠ g := by
        rintro rfl
        exact hgZ r' hr' q hq.le hf'
      refine .inl ⟨(hreach hr' hq.le).symm.trans hf', fun j => ?_⟩
      rw [hft hne, hz f hfg]
    · exact .inr fun j => (hft (Ne.symm hgt) j).trans (hempty j)
  · exact (hinv.separated.reach_entry hoZ fun _ _ => child_setEntry_of_ne).trans hc

/-- The frame that the block of one level takes, if any. -/
def newFrames (alloc : σ → ℕ × σ) (vm : Vm σ) (t : ℕ) (i : Fin 512) : List ℕ :=
  if present (vm.tables t i) then [] else [(alloc vm.pmm).1]

theorem nextTable_present (hp : present (vm.tables t i) = true) : Vm.nextTable alloc vm t i flags =
    (maskPage (vm.tables t i),
      if userBit flags then vm.setEntry t i (vm.tables t i ||| pteUser) else vm) := by
  unfold Vm.nextTable
  rw [hp]
  cases userBit flags
  · rfl
  · simp [Vm.setEntry, maskPage_or_user]

theorem nextTable_absent (alloc : σ → ℕ × σ) (flags : ℕ) (hp : present (vm.tables t i) = false) : ∃ a, a < 128 ∧ present a = true ∧
    writable a = true ∧ userBit a = userBit flags ∧
    Vm.nextTable alloc vm t i flags = (maskPage ((alloc vm.pmm).1 ||| a),
      { tables := (vm.tables.zeroTable (alloc vm.pmm).1).setEntry t i ((alloc vm.pmm).1 ||| a)
        pmm := (alloc vm.pmm).2 }) := by
  unfold Vm.nextTable Vm.newTable
  rw [hp]
  cases userBit flags
  · exact ⟨ptePresent ||| pteWritable, by decide, by decide, by decide, rfl, by simp [Vm.setEntry]⟩
  · exact ⟨ptePresent ||| pteWritable ||| pteUser, by decide, by decide, by decide, rfl,
      by simp [Vm.setEntry]⟩

/-- What the block does at the entry `i` of the private table `t`. -/
structure NextTable (alloc : σ → ℕ × σ) (roots own : Set ℕ) (priv : Set (Fin 512)) (r flags : ℕ)
    (vm : Vm σ) (p : List (Fin 512)) (t : ℕ) (i : Fin 512) (N : ℕ × Vm σ) : Prop where
  ext : Extends vm.tables N.2.tables roots own priv r (userBit flags) (newFrames alloc vm t i)
  owned : N.2.tables.Owned own priv r (p ++ [i]) N.1
  pmm : N.2.pmm = if present (vm.tables t i) then vm.pmm else (alloc vm.pmm).2
  user : userBit flags = true → userBit (N.2.tables t i) = true
  old : present (vm.tables t i) = true → N.1 = maskPage (vm.tables t i) ∧
    ∀ f j, N.2.tables f j = vm.tables f j ∨ N.2.tables f j = vm.tables f j ||| pteUser
  new : present (vm.tables t i) = false → ∀ j, N.2.tables N.1 j = 0

theorem nextTable_spec (alloc : σ → ℕ × σ) (flags : ℕ) (h : PrivateTables vm.tables roots own priv)
    (ho : vm.tables.Owned own priv r p t) (hp : p.length < 3) (hi : p = [] → i ∈ priv)
    (hs : present (vm.tables t i) = true → pageSize (vm.tables t i) = false)
    (hf : present (vm.tables t i) = false →
      IsFrame (alloc vm.pmm).1 ∧ vm.tables.Fresh roots (alloc vm.pmm).1) :
    NextTable alloc roots own priv r flags vm p t i (Vm.nextTable alloc vm t i flags) := by
  cases hpr : present (vm.tables t i) with
  | true =>
    have hc : vm.tables.child t i = some (maskPage (vm.tables t i)) := by
      refine child_eq_some.mpr ⟨hpr, hs hpr, entryFrame_eq_maskPage ?_⟩
      exact (h.entries ho _ hi hpr).2 hp (hs hpr)
    have hsub := ho.concat hi hp hc
    have hnil : newFrames alloc vm t i = [] := by
      unfold newFrames
      rw [if_pos hpr]
    rw [nextTable_present hpr]
    cases hu : userBit flags with
    | true =>
      have he := extends_or_user h ho hp hi hpr
      refine ⟨?_, he.owned hsub (h.separated.subset ho.root), ?_, ?_, fun _ => ⟨rfl, fun f j => ?_⟩, ?_⟩
      · rw [hnil, hu]
        exact he
      · rw [if_pos hpr]
        rfl
      · intro _
        simp [Vm.setEntry]
      · by_cases hfj : f = t ∧ j = i
        · obtain ⟨rfl, rfl⟩ := hfj
          exact .inr (setEntry_same ..)
        · exact .inl (setEntry_of_ne _ _ hfj)
      · intro hpr'
        rw [hpr] at hpr'
        exact nomatch hpr'
    | false =>
      refine ⟨?_, hsub, ?_, fun hu' => ?_, fun _ => ⟨rfl, fun _ _ => .inl rfl⟩, ?_⟩
      · rw [hnil, hu]
        exact .refl h r false
      · rw [if_pos hpr]
        rfl
      · rw [hu] at hu'
        exact nomatch hu'
      · intro hpr'
        rw [hpr] at hpr'
        exact nomatch hpr'
  | false =>
    obtain ⟨a, ha, hpa, hwa, hua, heq⟩ := nextTable_absent alloc flags hpr
    obtain ⟨hframe, hfresh⟩ := hf hpr
    obtain ⟨he, hpath⟩ := extends_link h ho hp hfresh hframe hpr ha hpa hwa hua.trans
    have hgt : (alloc vm.pmm).1 ≠ t := by
      intro hgt
      rw [hgt] at hfresh
      exact hfresh r (h.separated.subset ho.root) p ho.depth ho.reach
    have hone : newFrames alloc vm t i = [(alloc vm.pmm).1] := by
      unfold newFrames
      rw [hpr]
      rfl
    have ho' := he.owned ho (h.separated.subset ho.root)
    rw [heq, maskPage_or_flags hframe.1 (show a < 4096 by omega)]
    refine ⟨?_, ?_, ?_, ?_, ?_, ?_⟩
    · rw [hone]
      exact he
    · exact ho'.concat hi hp ((Radix.reach_concat ho'.reach).symm.trans hpath)
    · rw [hpr]
      rfl
    · intro hu
      dsimp only
      rw [setEntry_same, userBit_or, hua, hu, Bool.or_true]
    · intro hpr'
      rw [hpr] at hpr'
      exact nomatch hpr'
    · intro _ j
      dsimp only
      rw [setEntry_of_ne _ _ fun hs => hgt hs.1, zeroTable_same]

theorem NextTable.takes {N : ℕ × Vm σ} (h : NextTable alloc roots own priv r flags vm p t i N) :
    Takes alloc vm.pmm (newFrames alloc vm t i) N.2.pmm := by
  rw [h.pmm, newFrames]
  cases present (vm.tables t i)
  · exact .cons (.nil _)
  · exact .nil _

/-- The frames that the tables below still take are among those of the block and the tables below it. -/
theorem NextTable.left {N : ℕ × Vm σ} {v m n : ℕ} (h : NextTable alloc roots own priv r flags vm p t (index v n) N) :
    ∀ g ∈ framesTaken alloc N.2.pmm (tablesMissing N.2.tables v m (n - 1) N.1),
      g ∈ framesTaken alloc vm.pmm (tablesMissing vm.tables v (m + 1) n t) := by
  intro g hg
  have hpmm := h.pmm
  cases hp : present (vm.tables t (index v n)) with
  | true =>
    obtain ⟨hN1, hold⟩ := h.old hp
    have hk := tablesMissing_congr vm.tables N.2.tables v (fun f j => by
      rcases hold f j with he | he <;> rw [he]
      · exact ⟨rfl, rfl⟩
      · simp [maskPage_or_user]) m (n - 1) N.1
    rw [if_pos hp] at hpmm
    rw [hk, hpmm, hN1] at hg
    rwa [tablesMissing, if_pos hp]
  | false =>
    rw [hp] at hpmm
    rw [tablesMissing_empty (h.new hp), hpmm] at hg
    rw [tablesMissing, hp]
    exact List.mem_cons_of_mem _ hg

/-- A condition on the allocator under which the tables that the call still needs below `t`
are fresh frames. -/
structure TableSupply (alloc : σ → ℕ × σ) (roots own : Set ℕ) (priv : Set (Fin 512)) (r flags v : ℕ)
    (Sup : Vm σ → ℕ → ℕ → ℕ → Prop) : Prop where
  head : ∀ {vm m n t}, Sup vm (m + 1) n t → present (vm.tables t (index v n)) = false →
    IsFrame (alloc vm.pmm).1 ∧ vm.tables.Fresh roots (alloc vm.pmm).1
  next : ∀ {vm m n p t}, Sup vm (m + 1) n t →
    NextTable alloc roots own priv r flags vm p t (index v n) (Vm.nextTable alloc vm t (index v n) flags) →
    Sup (Vm.nextTable alloc vm t (index v n) flags).2 m (n - 1) (Vm.nextTable alloc vm t (index v n) flags).1

/-- Enough fresh frames among the next results. -/
theorem framesFresh_supply (alloc : σ → ℕ × σ) (roots own : Set ℕ) (priv : Set (Fin 512)) (r flags v : ℕ) :
    TableSupply alloc roots own priv r flags v fun vm m n t =>
      FramesFresh alloc vm.tables roots vm.pmm (tablesMissing vm.tables v m n t) where
  head := by
    intro vm m n t hf hp
    rw [tablesMissing, hp] at hf
    exact FramesFresh.head hf
  next := by
    intro vm m n p t hf hN
    generalize Vm.nextTable alloc vm t (index v n) flags = N at hN ⊢
    have hpmm := hN.pmm
    cases hp : present (vm.tables t (index v n)) with
    | true =>
      obtain ⟨hN1, hold⟩ := hN.old hp
      have hk := tablesMissing_congr vm.tables N.2.tables v (fun f j => by
        rcases hold f j with he | he <;> rw [he]
        · exact ⟨rfl, rfl⟩
        · simp [maskPage_or_user]) m (n - 1) N.1
      rw [tablesMissing, if_pos hp, ← hN1] at hf
      rw [if_pos hp] at hpmm
      rw [hk, hpmm]
      refine hf.mono fun g hg => hN.ext.fresh hg ?_
      unfold newFrames
      rw [if_pos hp]
      exact List.not_mem_nil
    | false =>
      rw [tablesMissing, hp] at hf
      rw [hp] at hpmm
      rw [tablesMissing_empty (hN.new hp), hpmm]
      refine FramesFresh.tail hf fun g hg hne => hN.ext.fresh hg ?_
      unfold newFrames
      rw [hp]
      exact fun hm => hne (List.mem_singleton.mp hm)

end NextTable

end PointerOS
