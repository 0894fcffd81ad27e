import Mathlib

/-!
# Lists ordered by position

An ordered list of intervals, as an allocator keeps them: the search for the
first element followed by a gap that fits, the insertion behind it, and the
removal of an element found by its key.
-/
namespace PointerOS.GapList

variable {α : Type*}

/-- The search from `current` on: the elements passed, the one to go behind, and the rest.
Behind the last element there is always room. -/
def findGap (fits : α → α → Prop) [DecidableRel fits] (current : α) : List α → List α × α × List α
  | [] => ([], current, [])
  | next :: rest =>
    if fits current next then ([], current, next :: rest)
    else
      let (passed, behind, after) := findGap fits next rest
      (current :: passed, behind, after)

theorem findGap_spec (fits : α → α → Prop) [DecidableRel fits] (current : α) (rest : List α) :
    current :: rest = (findGap fits current rest).1 ++
        (findGap fits current rest).2.1 :: (findGap fits current rest).2.2 ∧
      ∀ next after, (findGap fits current rest).2.2 = next :: after →
        fits (findGap fits current rest).2.1 next := by
  induction rest generalizing current with
  | nil => exact ⟨rfl, fun _ _ h => nomatch h⟩
  | cons next rest ih =>
    rw [findGap]
    split_ifs with hfit
    · refine ⟨rfl, fun next' after h => ?_⟩
      obtain ⟨rfl, -⟩ := List.cons.inj h
      exact hfit
    · obtain ⟨heq, hgap⟩ := ih next
      exact ⟨by rw [List.cons_append, ← heq], hgap⟩

/-- What every step of the search keeps holds where it ends. -/
theorem findGap_inv (fits : α → α → Prop) [DecidableRel fits] {P : α → List α → Prop}
    (hstep : ∀ i j l, ¬fits i j → P i (j :: l) → P j l) (current : α) (rest : List α) (h : P current rest) :
    P (findGap fits current rest).2.1 (findGap fits current rest).2.2 := by
  induction rest generalizing current with
  | nil => exact h
  | cons next rest ih =>
    rw [findGap]
    split_ifs with hfit
    · exact h
    · exact ih next (hstep current next rest hfit h)

section Order
variable {R : α → α → Prop} {passed after : List α} {behind new : α}

/-- A new element between `behind` and `after`. -/
theorem pairwise_insert (h : (passed ++ behind :: after).Pairwise R) (hbehind : R behind new)
    (hpassed : ∀ i ∈ passed, R i behind → R i new) (hafter : ∀ j ∈ after, R new j) :
    (passed ++ behind :: new :: after).Pairwise R := by
  obtain ⟨hp, hrest, hcross⟩ := List.pairwise_append.mp h
  obtain ⟨hfirst, hlast⟩ := List.pairwise_cons.mp hrest
  refine List.pairwise_append.mpr ⟨hp, List.pairwise_cons.mpr ⟨?_, List.pairwise_cons.mpr
    ⟨hafter, hlast⟩⟩, ?_⟩
  · intro j hj
    rcases List.mem_cons.mp hj with rfl | hj
    · exact hbehind
    · exact hfirst j hj
  · intro i hi j hj
    rcases List.mem_cons.mp hj with rfl | hj
    · exact hcross i hi j (List.mem_cons_self ..)
    · rcases List.mem_cons.mp hj with rfl | hj
      · exact hpassed i hi (hcross i hi behind (List.mem_cons_self ..))
      · exact hcross i hi j (List.mem_cons_of_mem _ hj)

theorem mem_insert {i : α} :
    i ∈ passed ++ behind :: new :: after ↔ i = new ∨ i ∈ passed ++ behind :: after := by
  simp only [List.mem_append, List.mem_cons]
  tauto

/-- An element that is not related to itself occurs once. -/
theorem notMem_of_pairwise {before : List α} (h : (before ++ new :: after).Pairwise R) (hn : ¬R new new) :
    new ∉ before ++ after := by
  obtain ⟨-, hrest, hcross⟩ := List.pairwise_append.mp h
  intro hi
  rcases List.mem_append.mp hi with hi | hi
  · exact hn (hcross new hi new (List.mem_cons_self ..))
  · exact hn ((List.pairwise_cons.mp hrest).1 new hi)

/-- Two elements are related one way or the other. -/
theorem related_of_pairwise {l : List α} (h : l.Pairwise R) {i j : α} (hi : i ∈ l) (hj : j ∈ l)
    (hij : i ≠ j) : R i j ∨ R j i := by
  obtain ⟨before, after, rfl⟩ := List.append_of_mem hi
  obtain ⟨-, hrest, hcross⟩ := List.pairwise_append.mp h
  rcases List.mem_append.mp hj with hj | hj
  · exact .inr (hcross j hj i (List.mem_cons_self ..))
  · rcases List.mem_cons.mp hj with rfl | hj
    · exact absurd rfl hij
    · exact .inl ((List.pairwise_cons.mp hrest).1 j hj)

end Order

/-- What is left of the images of a list without one element. -/
theorem perm_erase_of_map {β : Type*} [BEq β] [LawfulBEq β] {f : α → β} {before after : List α} {i : α} {live : List β}
    (h : ((before ++ i :: after).map f).Perm live) : ((before ++ after).map f).Perm (live.erase (f i)) := by
  have hsplit : (f i :: (before ++ after).map f).Perm live := (List.perm_middle.symm.map f).trans h
  exact (hsplit.trans (List.perm_cons_erase (hsplit.mem_iff.mp List.mem_cons_self))).cons_inv

/-- Removing an element by a key that no other element has. -/
theorem find_erase {κ : Type*} [DecidableEq κ] (key : α → κ) {before after : List α} {i : α}
    (hnot : i ∉ before ++ after) (hkey : ∀ j ∈ before ++ i :: after, key j = key i → j = i) :
    (before ++ i :: after).find? (fun j => decide (key j = key i)) = some i ∧
      (before ++ i :: after).eraseP (fun j => decide (key j = key i)) = before ++ after := by
  have hbefore : ∀ j ∈ before, ¬(decide (key j = key i) = true) := by
    intro j hj hji
    have := hkey j (List.mem_append_left _ hj) (of_decide_eq_true hji)
    exact hnot (List.mem_append_left _ (this ▸ hj))
  constructor
  · rw [List.find?_append, List.find?_eq_none.mpr hbefore]
    simp
  · rw [List.eraseP_append_right _ hbefore, List.eraseP_cons_of_pos (by simp)]

end PointerOS.GapList
