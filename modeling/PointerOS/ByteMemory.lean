import Mathlib

/-!
# Byte-addressed memory

A memory is a total function from byte addresses to bytes. Loads and stores are
little-endian and of any width, so a record is read and written field by field
at its byte offsets. Two accesses interact only through the bytes they share:
this is the content of `load_store_same` and `load_store_of_disjoint`, and every
frame argument of a client is an `EqOn` statement about byte ranges.
-/
namespace PointerOS.ByteMemory

abbrev Memory := ℕ → UInt8

/-- The number spelled by the `w` bytes from `a`, least significant byte first. -/
def load (m : Memory) (a : ℕ) : ℕ → ℕ
  | 0 => 0
  | w + 1 => (m a).toNat + 256 * load m (a + 1) w

/-- Write the low `w` bytes of `v` at `a`. -/
def store (m : Memory) (a w v : ℕ) : Memory := fun x =>
  if a ≤ x ∧ x < a + w then UInt8.ofNat (v / 256 ^ (x - a)) else m x

/-- Set `n` bytes from `a` to one value. -/
def fill (m : Memory) (a n : ℕ) (b : UInt8) : Memory := fun x =>
  if a ≤ x ∧ x < a + n then b else m x

abbrev load32 (m : Memory) (a : ℕ) : ℕ := load m a 4
abbrev load64 (m : Memory) (a : ℕ) : ℕ := load m a 8
abbrev store32 (m : Memory) (a v : ℕ) : Memory := store m a 4 v
abbrev store64 (m : Memory) (a v : ℕ) : Memory := store m a 8 v

/-- The bytes of an access of width `w` at `a`. -/
abbrev bytes (a w : ℕ) : Set ℕ := Set.Ico a (a + w)

lemma disjoint_bytes {a w b v : ℕ} (h : a + w ≤ b ∨ b + v ≤ a) :
    Disjoint (bytes a w) (bytes b v) := by
  rw [Set.disjoint_left]
  intro x hx hy
  simp only [bytes, Set.mem_Ico] at hx hy
  omega

theorem load_congr {m m' : Memory} {a w : ℕ} (h : Set.EqOn m m' (bytes a w)) :
    load m a w = load m' a w := by
  induction w generalizing a with
  | zero => rfl
  | succ w ih =>
    have ha : m a = m' a := h (by simp)
    have ht : Set.EqOn m m' (bytes (a + 1) w) := by
      intro x hx
      refine h ?_
      simp only [bytes, Set.mem_Ico] at hx ⊢
      omega
    simp only [load, ha, ih ht]

lemma store_eqOn_compl (m : Memory) (a w v : ℕ) : Set.EqOn (store m a w v) m (bytes a w)ᶜ := by
  intro x hx
  simp only [bytes, Set.mem_compl_iff, Set.mem_Ico] at hx
  simp only [store, if_neg hx]

/-- A store is invisible outside its own bytes. -/
theorem store_eqOn {m : Memory} {a w v : ℕ} {s : Set ℕ} (h : Disjoint (bytes a w) s) :
    Set.EqOn (store m a w v) m s :=
  (store_eqOn_compl m a w v).mono (Set.subset_compl_iff_disjoint_left.mpr h)

lemma fill_eqOn {m : Memory} {a n : ℕ} {b : UInt8} {s : Set ℕ} (h : Disjoint (bytes a n) s) :
    Set.EqOn (fill m a n b) m s := by
  intro x hx
  have hx' : ¬ (a ≤ x ∧ x < a + n) := fun hc => Set.disjoint_left.mp h hc hx
  simp only [fill, if_neg hx']

theorem load_store_of_disjoint {m : Memory} {a w v b w' : ℕ} (h : a + w ≤ b ∨ b + w' ≤ a) :
    load (store m a w v) b w' = load m b w' :=
  load_congr (store_eqOn (disjoint_bytes h))

/-- What was stored is read back, as far as it fits the width. -/
theorem load_store_same (m : Memory) (a w v : ℕ) : load (store m a w v) a w = v % 256 ^ w := by
  induction w generalizing a v m with
  | zero => simp [load, Nat.mod_one]
  | succ w ih =>
    have hb : store m a (w + 1) v a = UInt8.ofNat v := by simp [store]
    have ht : load (store m a (w + 1) v) (a + 1) w = load (store m (a + 1) w (v / 256)) (a + 1) w := by
      refine load_congr ?_
      intro x hx
      simp only [bytes, Set.mem_Ico] at hx
      have hx1 : a ≤ x ∧ x < a + (w + 1) := by omega
      have hx2 : a + 1 ≤ x ∧ x < a + 1 + w := by omega
      have hpow : 256 ^ (x - a) = 256 * 256 ^ (x - (a + 1)) := by
        rw [← pow_succ']
        congr 1
        omega
      simp only [store, if_pos hx1, if_pos hx2, hpow, Nat.div_div_eq_div_mul]
    rw [load, hb, ht, ih, pow_succ', Nat.mod_mul]
    simp

theorem load_store_same_of_lt {m : Memory} {a w v : ℕ} (h : v < 256 ^ w) :
    load (store m a w v) a w = v := by
  rw [load_store_same, Nat.mod_eq_of_lt h]

/-- One word access against another, when the two either coincide or are disjoint. -/
theorem load64_store64 {m : Memory} {a b v : ℕ} (hv : v < 2 ^ 64)
    (h : a = b ∨ a + 8 ≤ b ∨ b + 8 ≤ a) :
    load64 (store64 m a v) b = if b = a then v else load64 m b := by
  rcases h with rfl | h
  · rw [if_pos rfl]
    exact load_store_same_of_lt (by norm_num at hv ⊢; exact hv)
  · rw [if_neg (by omega)]
    exact load_store_of_disjoint h

lemma load_lt (m : Memory) (a w : ℕ) : load m a w < 256 ^ w := by
  induction w generalizing a with
  | zero => simp [load]
  | succ w ih =>
    have hb := (m a).toNat_lt
    have ht := ih (a + 1)
    rw [load, pow_succ']
    omega

lemma load64_lt (m : Memory) (a : ℕ) : load64 m a < 2 ^ 64 := by
  have h := load_lt m a 8
  norm_num at h ⊢
  exact h

lemma load_fill_zero {m : Memory} {a n b w : ℕ} (hb : a ≤ b) (hw : b + w ≤ a + n) :
    load (fill m a n 0) b w = 0 := by
  induction w generalizing b with
  | zero => rfl
  | succ w ih =>
    have h0 : fill m a n 0 b = 0 := by
      have hx : a ≤ b ∧ b < a + n := by omega
      simp only [fill, if_pos hx]
    rw [load, h0, ih (by omega) (by omega)]
    simp

/-! ## Arrays of words -/

theorem load_add (m : Memory) (a w u : ℕ) : load m a (w + u) = load m a w + 256 ^ w * load m (a + w) u := by
  induction w generalizing a with
  | zero => simp [load]
  | succ w ih =>
    have hw := ih (a + 1)
    rw [show w + 1 + u = w + u + 1 by omega, load, load, hw, show a + (w + 1) = a + 1 + w by omega, pow_succ']
    ring

theorem load64_eq (m : Memory) (a : ℕ) : load64 m a = load m a 4 + 2 ^ 32 * load m (a + 4) 4 :=
  load_add m a 4 4

/-- A store of the low half of a word. -/
theorem load64_store32 {m : Memory} {a b v : ℕ} (hv : v < 2 ^ 32) (h : a = b ∨ a + 8 ≤ b ∨ b + 8 ≤ a) :
    load64 (store32 m a v) b = if b = a then v + load64 m a / 2 ^ 32 * 2 ^ 32 else load64 m b := by
  split_ifs with hb
  · subst hb
    have hlow : load (store32 m b v) b 4 = v := load_store_same_of_lt (by norm_num at hv ⊢; exact hv)
    have hhigh : load (store32 m b v) (b + 4) 4 = load m (b + 4) 4 := load_store_of_disjoint (Or.inl le_rfl)
    have hlt : load m b 4 < 2 ^ 32 := load_lt m b 4
    rw [load64_eq, load64_eq, hlow, hhigh]
    omega
  · exact load_store_of_disjoint (by omega)

/-- The words of an array: the state of a range that is read and written by entries. -/
def words (m : Memory) (a : ℕ) : ℕ → ℕ := fun e => load64 m (a + 8 * e)

/-- The first `n` words hold `w`. -/
def HoldsWords (m : Memory) (a n : ℕ) (w : ℕ → ℕ) : Prop := ∀ e < n, words m a e = w e

theorem HoldsWords.congr {m m' : Memory} {a n : ℕ} {w : ℕ → ℕ} (h : HoldsWords m a n w)
    (hm : Set.EqOn m' m (bytes a (8 * n))) : HoldsWords m' a n w := by
  intro e he
  refine (load_congr (hm.mono fun x hx => ?_)).trans (h e he)
  simp only [bytes, Set.mem_Ico] at hx ⊢
  omega

/-- Whatever writes one word and nothing else. -/
theorem HoldsWords.update {m m' : Memory} {a n e v : ℕ} {w : ℕ → ℕ} (h : HoldsWords m a n w)
    (hv : load64 m' (a + 8 * e) = v) (hm : Set.EqOn m' m (bytes (a + 8 * e) 8)ᶜ) :
    HoldsWords m' a n (Function.update w e v) := by
  intro i hi
  by_cases hie : i = e
  · rw [hie, Function.update_self]
    exact hv
  · rw [Function.update_of_ne hie, ← h i hi]
    refine load_congr (hm.mono fun x hx => ?_)
    simp only [bytes, Set.mem_compl_iff, Set.mem_Ico] at hx ⊢
    omega

theorem HoldsWords.store32 {m : Memory} {a n e v : ℕ} {w : ℕ → ℕ} (h : HoldsWords m a n w) (he : e < n)
    (hv : v < 2 ^ 32) (hw : w e < 2 ^ 32) : HoldsWords (store32 m (a + 8 * e) v) a n (Function.update w e v) := by
  have hold : load64 m (a + 8 * e) = w e := h e he
  refine h.update ?_ ((store_eqOn_compl m _ 4 v).mono (Set.compl_subset_compl.mpr fun x hx => ?_))
  · rw [load64_store32 hv (Or.inl rfl), if_pos rfl, hold, Nat.div_eq_of_lt hw]
    simp
  · simp only [bytes, Set.mem_Ico] at hx ⊢
    omega

theorem HoldsWords.store64 {m : Memory} {a n e v : ℕ} {w : ℕ → ℕ} (h : HoldsWords m a n w)
    (hv : v < 2 ^ 64) : HoldsWords (store64 m (a + 8 * e) v) a n (Function.update w e v) :=
  h.update (load_store_same_of_lt (by norm_num at hv ⊢; exact hv)) (store_eqOn_compl m _ 8 v)

end PointerOS.ByteMemory
