import Mathlib

/-!
# Tilings by naturally aligned blocks

A block of order `k` covers `2 ^ k` units and starts at a multiple of `2 ^ k`. A
tiling is a set of such blocks that covers every unit below a bound exactly
once. The binary buddy system moves between tilings by two edits, halving a
block and joining two buddies; the buddy of a block is found by flipping one bit
of its start.
-/
namespace PointerOS.BuddyBlocks

structure Block where
  start : ℕ
  order : ℕ
  deriving DecidableEq, Repr

namespace Block

def Covers (b : Block) (p : ℕ) : Prop := b.start ≤ p ∧ p < b.start + 2 ^ b.order

def Aligned (b : Block) : Prop := 2 ^ b.order ∣ b.start

/-- The other half of the block of the next order that contains `b`. -/
def buddy (b : Block) : Block := ⟨b.start ^^^ 2 ^ b.order, b.order⟩

/-- The block of the next order made of `b` and its buddy. -/
def join (b : Block) : Block := ⟨min b.start (b.start ^^^ 2 ^ b.order), b.order + 1⟩

lemma covers_start (b : Block) : b.Covers b.start :=
  ⟨le_rfl, Nat.lt_add_of_pos_right (Nat.two_pow_pos _)⟩

end Block

/-- Flipping bit `k` of a multiple of `2 ^ k` steps to the neighbouring multiple. -/
theorem xor_two_pow {s k : ℕ} (h : 2 ^ k ∣ s) :
    s ^^^ 2 ^ k = if 2 ^ (k + 1) ∣ s then s + 2 ^ k else s - 2 ^ k := by
  obtain ⟨q, rfl⟩ := h
  have hpos : 0 < 2 ^ k := Nat.two_pow_pos k
  have hx : 2 ^ k * q ^^^ 2 ^ k = 2 ^ k * (q ^^^ 1) := by
    have hs := Nat.shiftLeft_xor_distrib (a := q) (b := 1) (i := k)
    simp only [Nat.shiftLeft_eq, one_mul] at hs
    rw [mul_comm (2 ^ k) (q ^^^ 1), hs, mul_comm]
  have hdvd : 2 ^ (k + 1) ∣ 2 ^ k * q ↔ Even q := by
    rw [pow_succ, mul_dvd_mul_iff_left hpos.ne', even_iff_two_dvd]
  rw [hx]
  simp only [hdvd]
  split_ifs with he
  · rw [Nat.xor_one_of_even he, mul_add, mul_one]
  · rw [Nat.xor_one_of_odd (Nat.not_even_iff_odd.mp he), Nat.mul_sub, mul_one]

/-- A flip of low bits passes through a base that has none of them. -/
theorem add_xor_of_dvd {n base x y : ℕ} (hb : 2 ^ n ∣ base) (hx : x < 2 ^ n) (hy : y < 2 ^ n) :
    (base + x) ^^^ y = base + (x ^^^ y) := by
  obtain ⟨q, rfl⟩ := hb
  have hpos : 0 < 2 ^ n := Nat.two_pow_pos n
  have hd : ((2 ^ n * q + x) ^^^ y) / 2 ^ n = q := by
    rw [Nat.xor_div_two_pow, Nat.mul_add_div hpos, Nat.div_eq_of_lt hx, Nat.div_eq_of_lt hy]
    simp
  have hm : ((2 ^ n * q + x) ^^^ y) % 2 ^ n = x ^^^ y := by
    rw [Nat.xor_mod_two_pow, Nat.mul_add_mod, Nat.mod_eq_of_lt hx, Nat.mod_eq_of_lt hy]
  have h := Nat.div_add_mod ((2 ^ n * q + x) ^^^ y) (2 ^ n)
  rw [hd, hm] at h
  exact h.symm

/-- Scaling by a power of two commutes with flipping bits. -/
theorem mul_xor_two_pow (x y n : ℕ) : x * 2 ^ n ^^^ y * 2 ^ n = (x ^^^ y) * 2 ^ n := by
  simpa only [Nat.shiftLeft_eq] using (Nat.shiftLeft_xor_distrib (a := x) (b := y) (i := n)).symm

namespace Block

lemma buddy_start (b : Block) (h : b.Aligned) :
    b.buddy.start = if 2 ^ (b.order + 1) ∣ b.start then b.start + 2 ^ b.order
      else b.start - 2 ^ b.order := xor_two_pow h

lemma le_start {b : Block} (h : b.Aligned) (hn : ¬ 2 ^ (b.order + 1) ∣ b.start) :
    2 ^ b.order ≤ b.start := by
  refine Nat.le_of_dvd (Nat.pos_of_ne_zero ?_) h
  rintro h0
  exact hn (by rw [h0]; exact dvd_zero _)

@[simp] lemma buddy_order (b : Block) : b.buddy.order = b.order := rfl

@[simp] lemma buddy_buddy (b : Block) : b.buddy.buddy = b := by
  simp [buddy]

lemma aligned_buddy {b : Block} (h : b.Aligned) : b.buddy.Aligned := by
  rw [Aligned, buddy_order, buddy_start b h]
  split_ifs with hd
  · exact Dvd.dvd.add h dvd_rfl
  · exact Nat.dvd_sub h dvd_rfl

lemma not_dvd_sub {b : Block} (h : b.Aligned) (hn : ¬ 2 ^ (b.order + 1) ∣ b.start) :
    2 ^ (b.order + 1) ∣ b.start - 2 ^ b.order := by
  obtain ⟨q, hq⟩ := h
  have hodd : ¬ Even q := by
    intro he
    refine hn ?_
    rw [hq, pow_succ]
    exact mul_dvd_mul_left _ (even_iff_two_dvd.mp he)
  obtain ⟨r, rfl⟩ := Nat.not_even_iff_odd.mp hodd
  refine ⟨r, ?_⟩
  rw [hq, pow_succ, mul_add, mul_one, Nat.add_sub_cancel]
  ring

/-- The joined block starts at the lower half and is aligned to its own order. -/
lemma join_start {b : Block} (h : b.Aligned) :
    b.join.start = if 2 ^ (b.order + 1) ∣ b.start then b.start else b.start - 2 ^ b.order := by
  have hb := buddy_start b h
  simp only [buddy] at hb
  rw [join, hb]
  split_ifs with hd <;> simp

lemma aligned_join {b : Block} (h : b.Aligned) : b.join.Aligned := by
  rw [Aligned, join_start h]
  split_ifs with hd
  · exact hd
  · exact not_dvd_sub h hd

lemma buddy_ne (b : Block) : b.buddy ≠ b := by
  intro h
  have hs : b.start ^^^ 2 ^ b.order = b.start := congrArg Block.start h
  have h0 : 2 ^ b.order = 0 := by
    rw [← Nat.xor_xor_cancel_left b.start (2 ^ b.order), hs, Nat.xor_self]
  exact (Nat.two_pow_pos b.order).ne' h0

/-- A joined block covers what its two halves cover. -/
theorem covers_join {b : Block} (h : b.Aligned) (p : ℕ) :
    b.join.Covers p ↔ b.Covers p ∨ b.buddy.Covers p := by
  have ho : 2 ^ b.join.order = 2 ^ b.order + 2 ^ b.order := by
    simp only [join, pow_succ]
    ring
  simp only [Covers, ho, join_start h, buddy_order, buddy_start b h]
  split_ifs with hd
  · omega
  · have := le_start h hd
    omega

/-- An aligned block that covers a multiple of a power of two not below its own
length starts there. -/
lemma eq_start {b : Block} (h : b.Aligned) {s k : ℕ} (hk : b.order ≤ k) (hs : 2 ^ k ∣ s) (hb : b.Covers s) :
    b.start = s := by
  obtain ⟨q, hq⟩ := h
  obtain ⟨r, hr⟩ : 2 ^ b.order ∣ s := dvd_trans (pow_dvd_pow 2 hk) hs
  obtain ⟨h1, h2⟩ := hb
  rw [hq, hr] at h1
  rw [hq, hr, ← Nat.mul_succ] at h2
  have hle : q ≤ r := Nat.le_of_mul_le_mul_left h1 (Nat.two_pow_pos _)
  have hlt : r < q + 1 := Nat.lt_of_mul_lt_mul_left h2
  rw [hq, hr, show q = r by omega]

/-- A larger aligned block that covers a unit of an aligned run covers its start. -/
lemma covers_floor {b : Block} (h : b.Aligned) {s k p : ℕ} (hk : k ≤ b.order) (hs : 2 ^ k ∣ s)
    (hp : s ≤ p) (hlt : p < s + 2 ^ k) (hb : b.Covers p) : b.Covers s := by
  refine ⟨?_, lt_of_le_of_lt hp hb.2⟩
  obtain ⟨q, hq⟩ : 2 ^ k ∣ b.start := dvd_trans (pow_dvd_pow 2 hk) h
  obtain ⟨r, hr⟩ := hs
  have hbs : b.start < s + 2 ^ k := lt_of_le_of_lt hb.1 hlt
  rw [hq, hr, ← Nat.mul_succ] at hbs
  rw [hq, hr]
  exact Nat.mul_le_mul_left _ (Nat.lt_succ_iff.mp (Nat.lt_of_mul_lt_mul_left hbs))

/-- An aligned block that covers the start of a block at most as long contains it. -/
lemma covers_of_covers_start {b c : Block} (hb : b.Aligned) (hc : c.Aligned) (hle : c.order ≤ b.order)
    (h : b.Covers c.start) {p : ℕ} (hp : c.Covers p) : b.Covers p := by
  obtain ⟨q, hq⟩ : 2 ^ c.order ∣ b.start := dvd_trans (pow_dvd_pow 2 hle) hb
  obtain ⟨n, hn⟩ : 2 ^ c.order ∣ 2 ^ b.order := pow_dvd_pow 2 hle
  obtain ⟨r, hr⟩ := hc
  obtain ⟨h1, h2⟩ := h
  obtain ⟨h3, h4⟩ := hp
  have hlast : r + 1 ≤ q + n := by
    rw [hr, hq, hn, ← mul_add] at h2
    exact Nat.lt_of_mul_lt_mul_left h2
  have hend : c.start + 2 ^ c.order ≤ b.start + 2 ^ b.order := by
    rw [hr, hq, hn, ← mul_add, ← Nat.mul_succ]
    exact Nat.mul_le_mul_left _ hlast
  exact ⟨h1.trans h3, h4.trans_le hend⟩

/-- Among aligned blocks without two buddies below the order `m`, an aligned run
that they cover lies in one of them. -/
theorem exists_large {A : Set Block} {m : ℕ} (hal : ∀ b ∈ A, b.Aligned)
    (hco : ∀ b ∈ A, b.order < m → b.buddy ∉ A) (k s : ℕ) (hk : k ≤ m) (hs : 2 ^ k ∣ s)
    (hcov : ∀ p, s ≤ p → p < s + 2 ^ k → ∃ c ∈ A, c.Covers p) : ∃ c ∈ A, k ≤ c.order ∧ c.Covers s := by
  induction k generalizing s with
  | zero =>
    obtain ⟨c, hc, hcs⟩ := hcov s le_rfl (by omega)
    exact ⟨c, hc, Nat.zero_le _, hcs⟩
  | succ k ih =>
    have hpow : 2 ^ (k + 1) = 2 ^ k + 2 ^ k := by ring
    have hpos := Nat.two_pow_pos k
    have hs' : 2 ^ k ∣ s := dvd_trans (pow_dvd_pow 2 (Nat.le_succ k)) hs
    obtain ⟨c, hc, hck, hcs⟩ := ih s (by omega) hs' fun p h1 h2 => hcov p h1 (by omega)
    obtain ⟨d, hd, hdk, hds⟩ := ih (s + 2 ^ k) (by omega) (Dvd.dvd.add hs' dvd_rfl)
      fun p h1 h2 => hcov p (by omega) (by omega)
    by_cases hc' : k + 1 ≤ c.order
    · exact ⟨c, hc, hc', hcs⟩
    by_cases hd' : k + 1 ≤ d.order
    · exact ⟨d, hd, hd', covers_floor (hal d hd) hd' hs (by omega) (by omega) hds⟩
    -- two halves of order `k` would be buddies
    have hco' : c.order = k := by omega
    have hdo : d.order = k := by omega
    have hcstart := eq_start (hal c hc) hco'.le hs' hcs
    have hdstart := eq_start (hal d hd) hdo.le (Dvd.dvd.add hs' dvd_rfl) hds
    have hbuddy : c.buddy = d := by
      have hstart := buddy_start c (hal c hc)
      rw [hco', hcstart, if_pos hs] at hstart
      obtain ⟨t, o⟩ := d
      exact congrArg₂ Block.mk (hstart.trans hdstart.symm) (hco'.trans hdo.symm)
    exact absurd (hbuddy ▸ hd) (hco c hc (by omega))

end Block

/-- An aligned run of units that satisfy `P` and that no longer such run contains. -/
structure MaximalRun (P : ℕ → Prop) (b : Block) : Prop where
  aligned : b.Aligned
  inside : ∀ p, b.Covers p → P p
  maximal : ∀ c : Block, c.Aligned → (∀ p, c.Covers p → P p) → (∀ p, b.Covers p → c.Covers p) → c = b

/-- Every unit below `N` lies in exactly one block of `B`. -/
structure Tiling (N : ℕ) (B : Set Block) : Prop where
  aligned : ∀ b ∈ B, b.Aligned
  bounded : ∀ b ∈ B, b.start + 2 ^ b.order ≤ N
  disjoint : ∀ b ∈ B, ∀ c ∈ B, ∀ p, b.Covers p → c.Covers p → b = c
  covering : ∀ p < N, ∃ b ∈ B, b.Covers p

namespace Tiling

variable {N : ℕ} {B C : Set Block} {b : Block}

lemma eq_of_start (h : Tiling N B) {b c : Block} (hb : b ∈ B) (hc : c ∈ B)
    (hs : b.start = c.start) : b = c :=
  h.disjoint b hb c hc b.start b.covers_start (hs ▸ c.covers_start)

lemma start_lt (h : Tiling N B) (hb : b ∈ B) : b.start < N :=
  lt_of_lt_of_le (Nat.lt_add_of_pos_right (Nat.two_pow_pos _)) (h.bounded b hb)

/-- One block is the tiling of its own length. -/
theorem single (k : ℕ) : Tiling (2 ^ k) {⟨0, k⟩} where
  aligned := by rintro b rfl; exact dvd_zero _
  bounded := by rintro b rfl; simp
  disjoint := by rintro b rfl c rfl p _ _; rfl
  covering := by
    intro p hp
    exact ⟨⟨0, k⟩, rfl, by simpa [Block.Covers] using hp⟩

theorem congr (h : Tiling N B) (hc : ∀ c, c ∈ C ↔ c ∈ B) : Tiling N C := by
  have he : C = B := Set.ext hc
  rwa [he]

/-- Halve a block: replace a joined block by `b` and its buddy. -/
theorem halve (h : Tiling N B) (hal : b.Aligned) (hj : b.join ∈ B)
    (hC : ∀ c, c ∈ C ↔ (c ∈ B ∧ c ≠ b.join) ∨ c = b ∨ c = b.buddy) : Tiling N C := by
  have hcov := Block.covers_join hal
  have hsub : ∀ c, c = b ∨ c = b.buddy → ∀ p, c.Covers p → b.join.Covers p := by
    rintro c (rfl | rfl) p hp
    · exact (hcov p).mpr (Or.inl hp)
    · exact (hcov p).mpr (Or.inr hp)
  have hbuddy : ∀ p, b.Covers p → ¬ b.buddy.Covers p := by
    intro p hp hq
    simp only [Block.Covers, Block.buddy_order, Block.buddy_start b hal] at hp hq
    split_ifs at hq with hd
    · omega
    · have := Block.le_start hal hd
      omega
  have hout : ∀ c ∈ B, c ≠ b.join → ∀ d, d = b ∨ d = b.buddy → ∀ p, c.Covers p → ¬ d.Covers p := by
    intro c hc hne d hd p hp hq
    exact hne (h.disjoint c hc _ hj p hp (hsub d hd p hq))
  refine ⟨?_, ?_, ?_, ?_⟩
  · intro c hc
    rcases (hC c).mp hc with ⟨hcB, _⟩ | rfl | rfl
    · exact h.aligned c hcB
    · exact hal
    · exact Block.aligned_buddy hal
  · intro c hc
    rcases (hC c).mp hc with ⟨hcB, _⟩ | hc'
    · exact h.bounded c hcB
    · have hlast : c.Covers (c.start + 2 ^ c.order - 1) := by
        have := Nat.two_pow_pos c.order
        constructor <;> omega
      have hin := (hsub c hc' _ hlast).2
      have hN := h.bounded _ hj
      omega
  · intro c hc d hd p hp hq
    rcases (hC c).mp hc with ⟨hcB, hcne⟩ | hc'
    · rcases (hC d).mp hd with ⟨hdB, _⟩ | hd'
      · exact h.disjoint c hcB d hdB p hp hq
      · exact absurd hq (hout c hcB hcne d hd' p hp)
    · rcases (hC d).mp hd with ⟨hdB, hdne⟩ | hd'
      · exact absurd hp (hout d hdB hdne c hc' p hq)
      · rcases hc' with rfl | rfl <;> rcases hd' with rfl | rfl
        · rfl
        · exact absurd hq (hbuddy p hp)
        · exact absurd hp (hbuddy p hq)
        · rfl
  · intro p hp
    obtain ⟨c, hc, hcp⟩ := h.covering p hp
    by_cases he : c = b.join
    · rcases (hcov p).mp (he ▸ hcp) with hb | hb
      · exact ⟨b, (hC b).mpr (by simp), hb⟩
      · exact ⟨b.buddy, (hC _).mpr (by simp), hb⟩
    · exact ⟨c, (hC c).mpr (Or.inl ⟨hc, he⟩), hcp⟩

/-- Join two buddies into the block of the next order. -/
theorem merge (h : Tiling N B) (hb : b ∈ B) (hbb : b.buddy ∈ B)
    (hC : ∀ c, c ∈ C ↔ (c ∈ B ∧ c ≠ b ∧ c ≠ b.buddy) ∨ c = b.join) : Tiling N C := by
  have hal := h.aligned b hb
  have hcov := Block.covers_join hal
  have hout : ∀ c ∈ B, c ≠ b → c ≠ b.buddy → ∀ p, c.Covers p → ¬ b.join.Covers p := by
    intro c hc h1 h2 p hp hq
    rcases (hcov p).mp hq with hq | hq
    · exact h1 (h.disjoint c hc b hb p hp hq)
    · exact h2 (h.disjoint c hc _ hbb p hp hq)
  refine ⟨?_, ?_, ?_, ?_⟩
  · intro c hc
    rcases (hC c).mp hc with ⟨hcB, _⟩ | rfl
    · exact h.aligned c hcB
    · exact Block.aligned_join hal
  · intro c hc
    rcases (hC c).mp hc with ⟨hcB, _⟩ | rfl
    · exact h.bounded c hcB
    · have hlast : b.join.Covers (b.join.start + 2 ^ b.join.order - 1) := by
        have := Nat.two_pow_pos b.join.order
        constructor <;> omega
      have h1 := h.bounded b hb
      have h2 := h.bounded _ hbb
      rcases (hcov _).mp hlast with hl | hl
      · have := hl.2
        omega
      · have := hl.2
        omega
  · intro c hc d hd p hp hq
    rcases (hC c).mp hc with ⟨hcB, hc1, hc2⟩ | rfl
    · rcases (hC d).mp hd with ⟨hdB, _⟩ | rfl
      · exact h.disjoint c hcB d hdB p hp hq
      · exact absurd hq (hout c hcB hc1 hc2 p hp)
    · rcases (hC d).mp hd with ⟨hdB, hd1, hd2⟩ | rfl
      · exact absurd hp (hout d hdB hd1 hd2 p hq)
      · rfl
  · intro p hp
    obtain ⟨c, hc, hcp⟩ := h.covering p hp
    by_cases h1 : c = b
    · exact ⟨b.join, (hC _).mpr (Or.inr rfl), (hcov p).mpr (Or.inl (h1 ▸ hcp))⟩
    · by_cases h2 : c = b.buddy
      · exact ⟨b.join, (hC _).mpr (Or.inr rfl), (hcov p).mpr (Or.inr (h2 ▸ hcp))⟩
      · exact ⟨c, (hC c).mpr (Or.inl ⟨hc, h1, h2⟩), hcp⟩

/-- Where no two buddies of `A` could be joined, the blocks of `A` are the maximal
runs among the units that the rest of the tiling leaves uncovered. -/
theorem mem_iff_maximalRun {m : ℕ} {A O : Set Block} (h : Tiling N (A ∪ O)) (hd : ∀ b ∈ A, b ∉ O)
    (hco : ∀ b ∈ A, b.order < m → b.buddy ∉ A) (hN : N < 2 ^ (m + 1)) (b : Block) :
    b ∈ A ↔ MaximalRun (fun p => p < N ∧ ∀ c ∈ O, ¬c.Covers p) b := by
  have hal : ∀ c ∈ A, c.Aligned := fun c hc => h.aligned c (.inl hc)
  have hfree : ∀ c ∈ A, ∀ p, c.Covers p → p < N ∧ ∀ d ∈ O, ¬d.Covers p := by
    intro c hc p hp
    have hle := h.bounded c (.inl hc)
    have hlt := hp.2
    refine ⟨by omega, fun d hdO hdp => ?_⟩
    have he := h.disjoint c (.inl hc) d (.inr hdO) p hp hdp
    exact hd c hc (he ▸ hdO)
  -- every aligned run of uncovered units lies in one block of `A`
  have hin : ∀ c : Block, c.Aligned → (∀ p, c.Covers p → p < N ∧ ∀ d ∈ O, ¬d.Covers p) →
      ∃ a ∈ A, c.order ≤ a.order ∧ ∀ p, c.Covers p → a.Covers p := by
    intro c hc hcP
    have hpos := Nat.two_pow_pos c.order
    have hlast := (hcP (c.start + 2 ^ c.order - 1) ⟨by omega, by omega⟩).1
    have hlt : 2 ^ c.order < 2 ^ (m + 1) := by omega
    have hm : c.order ≤ m := Nat.lt_succ_iff.mp ((Nat.pow_lt_pow_iff_right (by omega)).mp hlt)
    obtain ⟨a, ha, hle, hcs⟩ := Block.exists_large hal hco c.order c.start hm hc fun p h1 h2 => by
      obtain ⟨hp, hout⟩ := hcP p ⟨h1, h2⟩
      obtain ⟨a, ha | ha, hap⟩ := h.covering p hp
      · exact ⟨a, ha, hap⟩
      · exact absurd hap (hout a ha)
    exact ⟨a, ha, hle, fun p hp => Block.covers_of_covers_start (hal a ha) hc hle hcs hp⟩
  constructor
  · intro hb
    refine ⟨hal b hb, hfree b hb, fun c hc hcP hbc => ?_⟩
    obtain ⟨a, ha, hle, hca⟩ := hin c hc hcP
    have he : a = b := h.disjoint a (.inl ha) b (.inl hb) b.start (hca _ (hbc _ b.covers_start)) b.covers_start
    subst he
    have hs : c.start = a.start := le_antisymm (hbc _ a.covers_start).1 (hca _ c.covers_start).1
    have hpos := Nat.two_pow_pos a.order
    have hlast := hbc (a.start + 2 ^ a.order - 1) ⟨by omega, by omega⟩
    have hpow : 2 ^ a.order ≤ 2 ^ c.order := by
      have := hlast.2
      omega
    have ho : c.order = a.order := le_antisymm hle ((Nat.pow_le_pow_iff_right (by omega)).mp hpow)
    obtain ⟨s, o⟩ := c
    exact congrArg₂ Block.mk hs ho
  · intro hb
    obtain ⟨a, ha, -, hba⟩ := hin b hb.aligned hb.inside
    exact hb.maximal a (hal a ha) (hfree a ha) hba ▸ ha

end Tiling

end PointerOS.BuddyBlocks
