import PointerOS.GapList
import PointerOS.LinkedList

/-!
# Searches along links

The search of an ordered list for a gap, and for a node with a given property, by following the
links, and what inserting behind a node and unlinking a node do when every write is known.
-/
namespace PointerOS.LinkedList
open GapList

variable {α : Type*} [DecidableEq α] {next prev next' prev' : α → α} {null : α}

section Search
variable {p a c head : α} {l : List α} {fuel : ℕ}

/-- The node to go behind, from `a` on. Behind the last node there is always room. -/
def gapNode (next : α → α) (null : α) (fits : α → α → Prop) [DecidableRel fits] : ℕ → α → Option α
  | 0, _ => none
  | fuel + 1, a =>
    if next a = null then some a
    else if fits a (next a) then some a
    else gapNode next null fits fuel (next a)

variable (fits : α → α → Prop) [DecidableRel fits]

/-- The search along the links is the search in the list. -/
theorem gapNode_spec (hs : Seg next prev p a (a :: l) null) (h0 : null ∉ l)
    (hf : gapNode next null fits fuel a = some c) : c = (findGap fits a l).2.1 := by
  induction l generalizing p a fuel with
  | nil =>
    cases fuel with
    | zero => exact nomatch hf
    | succ fuel =>
      rw [gapNode, if_pos (show next a = null from hs.2.2)] at hf
      exact (Option.some.inj hf).symm
  | cons b l ih =>
    cases fuel with
    | zero => exact nomatch hf
    | succ fuel =>
      obtain ⟨-, -, hrest⟩ := hs
      have hn : next a = b := hrest.1
      rw [List.mem_cons, not_or] at h0
      rw [gapNode, hn, if_neg (Ne.symm h0.1)] at hf
      rw [findGap]
      split_ifs at hf ⊢ with hfit
      · exact (Option.some.inj hf).symm
      · rw [hn] at hrest
        exact ih hrest h0.2 hf

theorem gapNode_isSome (hs : Seg next prev p a (a :: l) null) (h0 : null ∉ l) (hf : l.length < fuel) :
    ∃ c, gapNode next null fits fuel a = some c := by
  induction l generalizing p a fuel with
  | nil =>
    obtain ⟨fuel, rfl⟩ := Nat.exists_eq_add_of_lt hf
    exact ⟨a, by rw [gapNode, if_pos (show next a = null from hs.2.2)]⟩
  | cons b l ih =>
    cases fuel with
    | zero => exact absurd hf (Nat.not_lt_zero _)
    | succ fuel =>
      obtain ⟨-, -, hrest⟩ := hs
      have hn : next a = b := hrest.1
      rw [List.mem_cons, not_or] at h0
      rw [gapNode, hn, if_neg (Ne.symm h0.1)]
      split_ifs
      · exact ⟨a, rfl⟩
      · rw [hn] at hrest
        exact ih hrest h0.2 (Nat.lt_of_succ_lt_succ hf)

/-- The first node that is hit, or null. -/
def findNode (next : α → α) (null : α) (hit : α → Prop) [DecidablePred hit] : ℕ → α → Option α
  | 0, _ => none
  | fuel + 1, a =>
    if a = null then some null
    else if hit a then some a
    else findNode next null hit fuel (next a)

variable (hit : α → Prop) [DecidablePred hit]

theorem findNode_spec (hs : Seg next prev p head l null) (h0 : null ∉ l)
    (hf : findNode next null hit fuel head = some c) :
    c = null ∧ (∀ j ∈ l, ¬hit j) ∨ ∃ xs ys, l = xs ++ c :: ys ∧ hit c ∧ ∀ j ∈ xs, ¬hit j := by
  induction l generalizing p head fuel with
  | nil =>
    cases fuel with
    | zero => exact nomatch hf
    | succ fuel =>
      rw [findNode, if_pos (show head = null from hs)] at hf
      exact .inl ⟨(Option.some.inj hf).symm, fun j hj => absurd hj List.not_mem_nil⟩
  | cons b l ih =>
    obtain ⟨rfl, -, hrest⟩ := hs
    rw [List.mem_cons, not_or] at h0
    cases fuel with
    | zero => exact nomatch hf
    | succ fuel =>
      rw [findNode, if_neg (Ne.symm h0.1)] at hf
      split_ifs at hf with hb
      · obtain rfl := Option.some.inj hf
        exact .inr ⟨[], l, rfl, hb, fun j hj => absurd hj List.not_mem_nil⟩
      · rcases ih hrest h0.2 hf with ⟨hc, hall⟩ | ⟨xs, ys, rfl, hc, hall⟩
        · exact .inl ⟨hc, List.forall_mem_cons.mpr ⟨hb, hall⟩⟩
        · exact .inr ⟨head :: xs, ys, rfl, hc, List.forall_mem_cons.mpr ⟨hb, hall⟩⟩

theorem findNode_isSome (hs : Seg next prev p head l null) (h0 : null ∉ l) (hf : l.length < fuel) :
    ∃ c, findNode next null hit fuel head = some c := by
  induction l generalizing p head fuel with
  | nil =>
    obtain ⟨fuel, rfl⟩ := Nat.exists_eq_add_of_lt hf
    exact ⟨null, by rw [findNode, if_pos (show head = null from hs)]⟩
  | cons b l ih =>
    cases fuel with
    | zero => exact absurd hf (Nat.not_lt_zero _)
    | succ fuel =>
      obtain ⟨rfl, -, hrest⟩ := hs
      rw [List.mem_cons, not_or] at h0
      rw [findNode, if_neg (Ne.symm h0.1)]
      split_ifs
      · exact ⟨_, rfl⟩
      · exact ih hrest h0.2 (Nat.lt_of_succ_lt_succ hf)

end Search

/-- The search in a list of images. -/
theorem findGap_map {α β : Type*} (f : α → β) (R : β → β → Prop) [DecidableRel R] (a : α) (l : List α) :
    findGap R (f a) (l.map f) =
      ((findGap (fun x y => R (f x) (f y)) a l).1.map f, f (findGap (fun x y => R (f x) (f y)) a l).2.1,
        (findGap (fun x y => R (f x) (f y)) a l).2.2.map f) := by
  induction l generalizing a with
  | nil => rfl
  | cons b l ih =>
    rw [List.map_cons, findGap, findGap]
    split_ifs
    · rfl
    · rw [ih b]
      rfl

omit [DecidableEq α] in
theorem Seg.chain {p head : α} {l : List α} (h : Seg next prev p head l null) : Chain next null head l := by
  induction l generalizing p head with
  | nil => exact h
  | cons a l ih =>
    obtain ⟨rfl, -, hrest⟩ := h
    exact ⟨rfl, ih hrest⟩

omit [DecidableEq α] in
/-- The links determine the list. -/
theorem IsList.unique {head : α} {xs ys : List α} (hx : IsList next prev null head xs)
    (hy : IsList next prev null head ys) : xs = ys :=
  hx.seg.chain.unique hy.seg.chain hx.null_notMem hy.null_notMem

section Edit
variable {head head' i c : α} {xs ys : List α}

/-- Every write of linking `i` in behind `c`. -/
structure LinksBehind (next prev next' prev' : α → α) (null i c : α) : Prop where
  nexts : ∀ j, next' j = if j = c then i else if j = i then next c else next j
  prevs : ∀ j, prev' j = if next c ≠ null ∧ j = next c then i else if j = i then c else prev j

theorem IsList.behind (h : IsList next prev null head (xs ++ c :: ys)) (hi : i ∉ xs ++ c :: ys) (hi0 : i ≠ null)
    (he : LinksBehind next prev next' prev' null i c) :
    IsList next' prev' null head (xs ++ c :: i :: ys) ∧
      ∀ j, j ≠ i → j ∉ xs ++ c :: ys → next' j = next j ∧ prev' j = prev j := by
  have hnext : next c = ys.headD null := h.links.2
  have hmem : ∀ j ∈ xs ++ c :: ys, j ≠ i := fun j hj he => hi (he ▸ hj)
  have hic : i ≠ c := Ne.symm (hmem c (by simp))
  have hsucc : next c = null ∨ next c ∈ ys := by
    rw [hnext]
    cases ys with
    | nil => exact .inl rfl
    | cons y ys => exact .inr List.mem_cons_self
  have hni : i ≠ next c := by
    rcases hsucc with hn | hn
    · exact hn ▸ hi0
    · exact Ne.symm (hmem _ (by simp [hn]))
  refine ⟨h.insertAfter hi hi0 ?_ ?_ (fun j hj => ?_) fun j hj => ?_, fun j hji hj => ⟨?_, ?_⟩⟩
  · rw [he.nexts, if_neg hic, if_pos rfl]
  · rw [he.prevs, if_neg fun hn : next c ≠ null ∧ i = next c => hni hn.2, if_pos rfl]
  · rw [he.nexts, if_neg (hmem j hj)]
  · have hj0 : j ≠ null := fun he => h.null_notMem (he ▸ hj)
    rw [he.prevs, if_neg (hmem j hj)]
    exact if_congr ⟨fun hn => hn.2, fun hn => ⟨hn ▸ hj0, hn⟩⟩ rfl rfl
  · rw [he.nexts, if_neg fun hc => hj (by simp [hc]), if_neg hji]
  · rw [he.prevs, if_neg, if_neg hji]
    exact fun hn => hj (by simp [hn.2, hsucc.resolve_left hn.1])

/-- Every write of unlinking `i`. -/
structure Unlinks (next prev next' prev' : α → α) (null head head' i : α) : Prop where
  nexts : ∀ j, next' j = if j = i then null else if prev i ≠ null ∧ j = prev i then next i else next j
  prevs : ∀ j, prev' j = if j = i then null else if next i ≠ null ∧ j = next i then prev i else prev j
  start : head' = if head = i then next i else head

theorem IsList.unlink (h : IsList next prev null head (xs ++ i :: ys))
    (he : Unlinks next prev next' prev' null head head' i) :
    IsList next' prev' null head' (xs ++ ys) ∧
      ∀ j, j ∉ xs ++ i :: ys → next' j = next j ∧ prev' j = prev j := by
  have hnull := h.null_notMem
  have hnodup := h.nodup
  have hmem : ∀ j ∈ xs ++ ys, j ≠ i := by
    rw [List.nodup_middle] at hnodup
    exact fun j hj he => (List.nodup_cons.mp hnodup).1 (he ▸ hj)
  obtain ⟨hprev, hnext⟩ := h.links
  have hj0 : ∀ j ∈ xs ++ ys, j ≠ null := fun j hj he => hnull (by
    rw [List.mem_append] at hj ⊢
    exact he ▸ hj.imp_right (List.mem_cons_of_mem i))
  refine ⟨h.remove ?_ (fun j hj => ?_) fun j hj => ?_, fun j hj => ⟨?_, ?_⟩⟩
  · have hhead := h.head_eq
    rw [he.start, hprev]
    cases xs with
    | nil => rw [if_pos (show head = i from hhead), List.getLastD_nil, if_pos rfl]
    | cons x xs =>
      have hx : head = x := hhead
      have hlast : (x :: xs).getLastD null ≠ null := by
        rw [List.getLastD_cons]
        exact fun he => hnull (List.mem_append_left _ (he ▸ List.getLastD_mem_cons))
      rw [if_neg hlast, hx, if_neg (hmem x (by simp))]
  · rw [he.nexts, if_neg (hmem j hj)]
    exact if_congr ⟨fun hn => hn.2, fun hn => ⟨hn ▸ hj0 j hj, hn⟩⟩ rfl rfl
  · rw [he.prevs, if_neg (hmem j hj)]
    exact if_congr ⟨fun hn => hn.2, fun hn => ⟨hn ▸ hj0 j hj, hn⟩⟩ rfl rfl
  · rw [he.nexts, if_neg fun hc => hj (by simp [hc]), if_neg]
    rw [hprev]
    rintro ⟨hne, he⟩
    rcases List.mem_cons.mp (List.getLastD_mem_cons (l := xs) (a := null)) with hl | hl
    · exact hne hl
    · exact hj (List.mem_append_left _ (he ▸ hl))
  · rw [he.prevs, if_neg fun hc => hj (by simp [hc]), if_neg]
    rw [hnext]
    rintro ⟨hne, he⟩
    cases ys with
    | nil => exact hne rfl
    | cons y ys => exact hj (by simp [he])

end Edit
end PointerOS.LinkedList
