import PointerOS.Pmm
import PointerOS.VmmCalls

/-!
# Page tables over the physical page allocator

The calls of `vmm.c` with `pmm_alloc_page` for their frames. A note beside the
allocator tells whether one of its calls has failed; as long as none has, the
frames it hands out are no tables, because the frames of all tables are in use.
-/
namespace PointerOS
open Tables

/-- The page allocator, and whether a call of `pmm_alloc_page` has returned 0. -/
structure FrameSource where
  pmm : Pmm
  exhausted : Bool

namespace FrameSource

def take (s : FrameSource) : ℕ × FrameSource :=
  (s.pmm.pmmAllocPage.1, ⟨s.pmm.pmmAllocPage.2, s.exhausted || decide (s.pmm.pmmAllocPage.1 = 0)⟩)

def give (s : FrameSource) (paddr : ℕ) : FrameSource := { s with pmm := s.pmm.pmmFreePage paddr }

theorem take_spec {s : FrameSource} (hT : s.pmm.totalPages ≤ 2 ^ 40) (h : s.take.2.exhausted = false) :
    s.exhausted = false ∧ ∃ k, 0 < k ∧ k < s.pmm.totalPages ∧ s.pmm.used k = false ∧ s.take.1 = k * 4096 ∧
      s.take.2.pmm.totalPages = s.pmm.totalPages ∧
      ∀ b, s.take.2.pmm.used b = (s.pmm.used b || decide (b = k)) := by
  simp only [take, Bool.or_eq_false_iff, decide_eq_false_iff_not] at h ⊢
  refine ⟨h.1, ?_⟩
  rcases s.pmm.pmmAllocPage_spec with ⟨hr, -⟩ | ⟨k, hk, hfree, -, hr⟩
  · rw [hr] at h
    exact absurd rfl h.2
  · rw [hr, Nat.mod_eq_of_lt (show k * 4096 < 2 ^ 64 by omega)] at h ⊢
    refine ⟨k, by omega, hk, hfree, rfl, rfl, fun b => ?_⟩
    exact (s.pmm.used_setBit k b).trans (Bool.or_comm _ _)

theorem exhausted_of_take {s : FrameSource} (h : s.take.2.exhausted = false) : s.exhausted = false := by
  simp only [take, Bool.or_eq_false_iff] at h
  exact h.1

theorem isFrame_of_lt {k n : ℕ} (hk : k < n) (hn : n ≤ 2 ^ 40) : IsFrame (k * 4096) :=
  ⟨Nat.mul_mod_left k 4096, by omega⟩

/-- The frames taken by calls of which none failed. -/
structure Taken (s : FrameSource) (l : List ℕ) (s' : FrameSource) : Prop where
  total : s'.pmm.totalPages = s.pmm.totalPages
  frames : ∀ g ∈ l, ∃ k, 0 < k ∧ k < s.pmm.totalPages ∧ g = k * 4096 ∧ s.pmm.used k = false
  used : ∀ b, s'.pmm.used b = (s.pmm.used b || decide (b * 4096 ∈ l))

theorem taken_of_takes {s s' : FrameSource} {l : List ℕ} (h : Takes take s l s')
    (hT : s.pmm.totalPages ≤ 2 ^ 40) (hx : s'.exhausted = false) :
    s.exhausted = false ∧ Taken s l s' := by
  induction h with
  | nil => exact ⟨hx, rfl, fun g hg => absurd hg List.not_mem_nil, fun b => by simp⟩
  | @cons s s' l _ ih =>
    have hpre : s.take.2.pmm.totalPages = s.pmm.totalPages := by
      rcases s.pmm.pmmAllocPage_spec with ⟨hr, -⟩ | ⟨k, -, -, -, hr⟩ <;> simp only [take, hr]
    obtain ⟨hx', htaken⟩ := ih (hpre ▸ hT) hx
    obtain ⟨hx'', k, h0, hk, hfree, hk', -, hbits⟩ := take_spec hT hx'
    refine ⟨hx'', htaken.total.trans hpre, ?_, fun b => ?_⟩
    · intro g hg
      rcases List.mem_cons.mp hg with rfl | hg
      · exact ⟨k, h0, hk, hk', hfree⟩
      · obtain ⟨j, hj0, hj, rfl, hjf⟩ := htaken.frames g hg
        rw [hbits] at hjf
        exact ⟨j, hj0, hpre ▸ hj, rfl, (Bool.or_eq_false_iff.mp hjf).1⟩
    · have hb : b * 4096 = k * 4096 ↔ b = k := by omega
      rw [htaken.used, hbits, hk', Bool.or_assoc]
      simp only [List.mem_cons, hb, Bool.decide_or]

end FrameSource

open FrameSource

/-- Every table of the address spaces lies in a frame that is in use, and not in frame 0. -/
def TablesInUse (T : Tables) (roots : Set ℕ) (s : Pmm) : Prop :=
  ∀ r ∈ roots, ∀ p f, p.length ≤ 3 → T.reach r p = some f →
    f % 4096 = 0 ∧ f ≠ 0 ∧ s.used (f / 4096) = true

section Supply
variable {vm : Vm FrameSource} {roots own : Set ℕ} {priv : Set (Fin 512)} {r flags v : ℕ}

theorem TablesInUse.fresh {T : Tables} {s : Pmm} (h : TablesInUse T roots s) {k : ℕ}
    (hk : s.used k = false) : T.Fresh roots (k * 4096) := by
  intro q hq p hp hx
  have hu := (h q hq p _ hp hx).2.2
  rw [Nat.mul_div_cancel k (by decide), hk] at hu
  exact nomatch hu

theorem TablesInUse.extends {T T' : Tables} {s s' : FrameSource} {user : Bool} {made : List ℕ}
    (h : TablesInUse T roots s.pmm) (he : Extends T T' roots own priv r user made)
    (ht : Taken s made s') : TablesInUse T' roots s'.pmm := by
  intro q hq p f hp hf
  rcases he.only hq hp hf with hf' | ⟨-, hf'⟩
  · obtain ⟨h1, h2, h3⟩ := h q hq p f hp hf'
    exact ⟨h1, h2, by rw [ht.used, h3, Bool.true_or]⟩
  · obtain ⟨k, h0, -, rfl, -⟩ := ht.frames f hf'
    refine ⟨Nat.mul_mod_left k 4096, by omega, ?_⟩
    rw [Nat.mul_div_cancel k (by decide), ht.used, decide_eq_true hf', Bool.or_true]

theorem nextTable_exhausted {t : ℕ} {i : Fin 512}
    (h : (Vm.nextTable take vm t i flags).2.pmm.exhausted = false) : vm.pmm.exhausted = false := by
  cases hp : present (vm.tables t i) with
  | true =>
    rw [nextTable_present hp] at h
    cases hu : userBit flags <;> simpa [hu, Vm.setEntry] using h
  | false =>
    obtain ⟨a, -, -, -, -, heq⟩ := nextTable_absent take flags hp
    rw [heq] at h
    exact exhausted_of_take h

theorem tablesDown_exhausted {m n t : ℕ}
    (h : (tablesDown take v flags m n t vm).2.pmm.exhausted = false) : vm.pmm.exhausted = false := by
  induction m generalizing n t vm with
  | zero => exact h
  | succ m ih => exact nextTable_exhausted (ih h)

/-- The allocator supplies the tables of a call after which it is not exhausted. -/
theorem take_supply (roots own : Set ℕ) (priv : Set (Fin 512)) (r flags v : ℕ) :
    TableSupply take roots own priv r flags v fun vm m n t =>
      TablesInUse vm.tables roots vm.pmm.pmm ∧ vm.pmm.pmm.totalPages ≤ 2 ^ 40 ∧
        (tablesDown take v flags m n t vm).2.pmm.exhausted = false where
  head := by
    rintro vm m n t ⟨huse, hT, hx⟩ hp
    have hx' := tablesDown_exhausted (m := m) hx
    obtain ⟨a, -, -, -, -, heq⟩ := nextTable_absent take flags hp
    rw [heq] at hx'
    obtain ⟨-, k, -, hk, hfree, hk', -⟩ := take_spec hT hx'
    rw [hk']
    exact ⟨isFrame_of_lt hk hT, huse.fresh hfree⟩
  next := by
    rintro vm m n p t ⟨huse, hT, hx⟩ hN
    have hx' := tablesDown_exhausted (m := m) hx
    obtain ⟨-, ht⟩ := taken_of_takes hN.takes hT hx'
    exact ⟨huse.extends hN.ext ht, ht.total ▸ hT, hx⟩

end Supply
end PointerOS
