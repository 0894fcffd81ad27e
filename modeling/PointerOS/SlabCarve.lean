import PointerOS.Slab

/-!
# Carving a page

`slab_create` chains the objects that fit a page behind the header, in ascending order. Object `j` of a
page is its `j`-th one.
-/
namespace PointerOS
open ByteMemory LinkedList

/-- How many objects of a size fit. -/
def objCapacity (o : ℕ) : ℕ := (4096 - 40) / o

def objAddr (o s j : ℕ) : ℕ := pageAddr s + 40 + j * o

section Objects
variable {o s j k : ℕ}

lemma lt_objCapacity_iff (ho : 0 < o) : j < objCapacity o ↔ 40 + j * o + o ≤ 4096 := by
  rw [← Nat.succ_le_iff, objCapacity, Nat.le_div_iff_mul_le ho, Nat.succ_mul]
  omega

lemma objAddr_succ (o s j : ℕ) : objAddr o s (j + 1) = objAddr o s j + o := by
  simp only [objAddr, Nat.succ_mul]
  omega

/-- An object lies in its page, behind the header. -/
lemma objAddr_inPage (ho : 0 < o) (hj : j < objCapacity o) :
    pageAddr s + 40 ≤ objAddr o s j ∧ objAddr o s j + o ≤ pageAddr s + 4096 := by
  rw [lt_objCapacity_iff ho] at hj
  simp only [objAddr]
  omega

lemma objAddr_apart (hjk : j < k) : objAddr o s j + o ≤ objAddr o s k := by
  have hm := Nat.mul_le_mul_right o (Nat.succ_le_of_lt hjk)
  rw [Nat.succ_mul] at hm
  simp only [objAddr]
  omega

lemma objAddr_injective (s : ℕ) (ho : 0 < o) : Function.Injective (objAddr o s) := by
  intro j k hjk
  rcases lt_trichotomy j k with hlt | heq | hlt
  · have := objAddr_apart (o := o) (s := s) hlt
    omega
  · exact heq
  · have := objAddr_apart (o := o) (s := s) hlt
    omega

lemma objAddr_lt (ho : 0 < o) (hs : s < 4096) (hj : j < objCapacity o) : objAddr o s j < 2 ^ 64 := by
  have h1 := (objAddr_inPage (s := s) ho hj).2
  rw [pageAddr_eq] at h1
  omega

lemma objCapacity_le (ho : 8 ≤ o) : objCapacity o ≤ 507 := Nat.div_le_of_le_mul (by omega)

end Objects

namespace Heap

/-- From object `j` on, `carve` chains the remaining objects in ascending order and counts them. -/
theorem carve_effect {o s : ℕ} (ho : 8 ≤ o) (hs : s < 4096) (n : ℕ) : ∀ (h : Heap) (j : ℕ),
    j ≤ objCapacity o → objCapacity o - j ≤ n →
    h.slabFreeCount (pageAddr s) + (objCapacity o - j) < 2 ^ 32 →
    ∃ m, h.carve (pageAddr s) (o) (pageAddr s + 4096) n (objAddr o s j) =
        { h with mem := m } ∧
      Chain (load64 m) 0 (if j < objCapacity o then objAddr o s j else 0)
        ((List.range' j (objCapacity o - j)).map (objAddr o s)) ∧
      load32 m (pageAddr s + 8) = h.slabFreeCount (pageAddr s) + (objCapacity o - j) ∧
      ∀ a, a ∉ bytes (pageAddr s + 8) 4 → a < objAddr o s j ∨ pageAddr s + 4096 ≤ a →
        m a = h.mem a := by
  have hpos : 0 < o := by omega
  induction n with
  | zero =>
    intro h j hj hn hcnt
    obtain rfl : j = objCapacity o := by omega
    exact ⟨h.mem, rfl, by simp [Chain], by simp [slabFreeCount], fun _ _ _ => rfl⟩
  | succ n ih =>
    intro h j hj hn hcnt
    have hnext : ∀ k, objAddr o s k + o ≤ pageAddr s + 4096 ↔ k < objCapacity o := by
      intro k
      rw [lt_objCapacity_iff hpos, objAddr]
      omega
    by_cases hlt : j < objCapacity o
    · have hin := objAddr_inPage (s := s) hpos hlt
      let v := if j + 1 < objCapacity o then objAddr o s (j + 1) else 0
      have hv : v < 2 ^ 64 := by
        simp only [v]
        split_ifs with h1
        · exact objAddr_lt hpos hs h1
        · omega
      let h₁ := h.write64 (objAddr o s j) v
      have hcnt₁ : h₁.slabFreeCount (pageAddr s) = h.slabFreeCount (pageAddr s) :=
        load_store_of_disjoint (by omega)
      let h₂ := h₁.setSlabFreeCount (pageAddr s) (h₁.slabFreeCount (pageAddr s) + 1)
      have hcnt₂ : h₂.slabFreeCount (pageAddr s) = h.slabFreeCount (pageAddr s) + 1 := by
        rw [← hcnt₁]
        refine load_store_same_of_lt ?_
        rw [hcnt₁]
        norm_num
        omega
      obtain ⟨m, heq, hchain, hcount, hmem⟩ := ih h₂ (j + 1) hlt (by omega) (by omega)
      refine ⟨m, ?_, ?_, ?_, ?_⟩
      · rw [carve, if_pos ((hnext j).mpr hlt)]
        simp only [← objAddr_succ]
        have hv' : (if objAddr o s (j + 1 + 1) ≤ pageAddr s + 4096 then objAddr o s (j + 1) else 0) = v := by
          simp only [objAddr_succ o s (j + 1), hnext, v]
        rw [hv']
        exact heq
      · have hrange : List.range' j (objCapacity o - j) =
            j :: List.range' (j + 1) (objCapacity o - (j + 1)) := by
          rw [show objCapacity o - j = (objCapacity o - (j + 1)) + 1 by omega, List.range'_succ]
        rw [if_pos hlt, hrange]
        refine ⟨rfl, ?_⟩
        have hword : load64 m (objAddr o s j) = v := by
          have hlast := objAddr_succ o s j
          have h3 : load64 m (objAddr o s j) = load64 h₂.mem (objAddr o s j) := by
            refine load_congr fun a ha => ?_
            simp only [bytes, Set.mem_Ico] at ha
            refine hmem a ?_ (by omega)
            simp only [bytes, Set.mem_Ico]
            omega
          have h2 : load64 h₂.mem (objAddr o s j) = load64 h₁.mem (objAddr o s j) :=
            load_store_of_disjoint (by omega)
          rw [h3, h2]
          exact load_store_same_of_lt (by norm_num at hv ⊢; exact hv)
        rw [hword]
        exact hchain
      · rw [hcount, hcnt₂]
        omega
      · intro a ha ha'
        have hsucc := objAddr_succ o s j
        rw [hmem a ha (by omega)]
        have h2 : h₂.mem a = h₁.mem a := store_eqOn_compl _ _ _ _ ha
        rw [h2]
        refine store_eqOn_compl _ _ _ _ ?_
        simp only [bytes, Set.mem_compl_iff, Set.mem_Ico]
        omega
    · obtain rfl : j = objCapacity o := by omega
      refine ⟨h.mem, ?_, by simp [Chain], by simp [slabFreeCount], fun _ _ _ => rfl⟩
      rw [carve, if_neg (fun hle => hlt ((hnext _).mp hle))]

/-- The loop is over after as many turns as there are objects left. -/
theorem carve_turns {o s : ℕ} (ho : 8 ≤ o) {n m j : ℕ} (h : Heap) (hn : objCapacity o - j ≤ n)
    (hm : objCapacity o - j ≤ m) : h.carve (pageAddr s) o (pageAddr s + 4096) n (objAddr o s j) =
      h.carve (pageAddr s) o (pageAddr s + 4096) m (objAddr o s j) := by
  induction n generalizing h j m with
  | zero =>
    have hstop : ¬objAddr o s j + o ≤ pageAddr s + 4096 := fun hle => by
      have hlt := (lt_objCapacity_iff (o := o) (j := j) (by omega)).mpr (by unfold objAddr at hle; omega)
      omega
    cases m with
    | zero => rfl
    | succ m => rw [carve, carve, if_neg hstop]
  | succ n ih =>
    by_cases hle : objAddr o s j + o ≤ pageAddr s + 4096
    · have hlt := (lt_objCapacity_iff (o := o) (j := j) (by omega)).mpr (by unfold objAddr at hle; omega)
      obtain ⟨m, rfl⟩ : ∃ i, m = i + 1 := ⟨m - 1, by omega⟩
      rw [carve, carve, if_pos hle, if_pos hle]
      simp only [← objAddr_succ]
      exact ih _ (by omega) (by omega)
    · cases m with
      | zero => rw [carve, carve, if_neg hle]
      | succ m => rw [carve, carve, if_neg hle, if_neg hle]

/-- A page taken for a slab is filled with free objects in ascending order. -/
theorem slabCreate_carves {h r : Heap} {c x o : ℕ} (ho : 8 ≤ o) (hfit : 0 < objCapacity o) (hx : x < 4096)
    (halloc : h.buddyAlloc 0 = (pageAddr x, r)) (hsize : (r.kernelCaches c).objSize = o) :
    ∃ m, h.slabCreate c = (pageAddr x,
        { r with mem := m, metadata := Function.update r.metadata x { r.metadata x with isSlab := true } }) ∧
      (∀ a, ¬ inPage x a → m a = r.mem a) ∧ load64 m (pageAddr x + 16) = cachePointer c % 256 ^ 8 ∧
      load32 m (pageAddr x + 8) = objCapacity o ∧ load32 m (pageAddr x + 12) = objCapacity o ∧
      Chain (load64 m) 0 (load64 m (pageAddr x)) ((List.range (objCapacity o)).map (objAddr o x)) := by
  have hpos : 0 < o := by omega
  have hcap := objCapacity_le ho
  have hfirst : (pageAddr x + slabHeaderSize + 7) / 8 * 8 = objAddr o x 0 := by
    simp only [pageAddr_eq, objAddr, zero_mul, slabHeaderSize]
    omega
  have hslot0 : objAddr o x 0 = pageAddr x + 40 := by simp [objAddr]
  let h₁ := r.setMetadata x { r.metadata x with isSlab := true }
  let h₂ := h₁.setSlabParentCache (pageAddr x) c
  let h₃ := (h₂.setSlabFreeList (pageAddr x) (objAddr o x 0)).setSlabFreeCount (pageAddr x) 0
  have hcnt₃ : h₃.slabFreeCount (pageAddr x) = 0 := load_store_same_of_lt (by norm_num)
  obtain ⟨m₄, heq, hchain, hcount, hmem⟩ := carve_effect (s := x) ho hx 4096 h₃ 0 (by omega) (by omega)
    (by rw [hcnt₃]; omega)
  rw [hcnt₃, Nat.zero_add, Nat.sub_zero] at hcount
  rw [if_pos hfit, Nat.sub_zero, ← List.range_eq_range'] at hchain
  obtain ⟨m, hm⟩ : ∃ m, m = store32 m₄ (pageAddr x + 12) (objCapacity o) := ⟨_, rfl⟩
  have hlow : ∀ o w, o + w ≤ 40 → o + w ≤ 8 ∨ 16 ≤ o →
      load m (pageAddr x + o) w = load h₃.mem (pageAddr x + o) w := by
    intro o w how hskip
    have h1 : load m (pageAddr x + o) w = load m₄ (pageAddr x + o) w := by
      rw [hm]
      exact load_store_of_disjoint (by omega)
    rw [h1]
    refine load_congr fun a ha => ?_
    simp only [bytes, Set.mem_Ico] at ha
    refine hmem a ?_ (by omega)
    simp only [bytes, Set.mem_Ico]
    omega
  refine ⟨m, ?_, ?_, ?_, ?_, ?_, ?_⟩
  · have hidx := pageIndex_pageAddr hx
    have hne := pageAddr_pos x
    simp only [slabCreate, halloc, hidx, if_neg hne, hfirst]
    have hobj : (h₃.kernelCaches c).objSize = o := hsize
    change (pageAddr x, (h₃.carve (pageAddr x) (h₃.kernelCaches c).objSize (pageAddr x + 4096) 4096
      (objAddr o x 0)).setSlabTotalCount (pageAddr x) ((h₃.carve (pageAddr x)
      (h₃.kernelCaches c).objSize (pageAddr x + 4096) 4096 (objAddr o x 0)).slabFreeCount (pageAddr x))) = _
    rw [hobj, heq]
    have hc4 : ({ h₃ with mem := m₄ } : Heap).slabFreeCount (pageAddr x) = objCapacity o := hcount
    rw [hc4, hm]
    rfl
  · intro a ha
    simp only [inPage] at ha
    have h1 : m a = m₄ a := by
      rw [hm]
      refine store_eqOn_compl _ _ _ _ ?_
      simp only [bytes, Set.mem_compl_iff, Set.mem_Ico]
      omega
    rw [h1, hmem a (by simp only [bytes, Set.mem_Ico]; omega) (by omega)]
    refine (store_eqOn_compl _ _ _ _ ?_).trans ((store_eqOn_compl _ _ _ _ ?_).trans
      (store_eqOn_compl _ _ _ _ ?_))
    all_goals
      simp only [bytes, Set.mem_compl_iff, Set.mem_Ico]
      omega
  · refine (hlow 16 8 (by omega) (by omega)).trans ?_
    exact (load_store_of_disjoint (by omega)).trans ((load_store_of_disjoint (by omega)).trans (load_store_same ..))
  · have h1 : load32 m (pageAddr x + 8) = load32 m₄ (pageAddr x + 8) := by
      rw [hm]
      exact load_store_of_disjoint (by omega)
    exact h1.trans hcount
  · rw [hm]
    exact load_store_same_of_lt (by norm_num; omega)
  · have hlist : load64 m (pageAddr x) = objAddr o x 0 := by
      refine (hlow 0 8 (by omega) (by omega)).trans ((load_store_of_disjoint (by omega)).trans
        (load_store_same_of_lt ?_))
      have := objAddr_lt hpos hx hfit
      norm_num at this ⊢
      exact this
    rw [hlist]
    refine hchain.congr fun a ha => ?_
    obtain ⟨j, hj, rfl⟩ := List.mem_map.mp ha
    have hin := objAddr_inPage (s := x) hpos (List.mem_range.mp hj)
    rw [hm]
    exact load_store_of_disjoint (by omega)

end Heap

end PointerOS
