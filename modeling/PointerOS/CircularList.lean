import PointerOS.LinkedList

/-!
# Circular doubly linked lists

A ring is a stretch that leads back to its first node. Any of its nodes may be
named first, so that an edit has to be understood at one place only: a new node
goes behind the last one, and the node taken out is the first.
-/
namespace PointerOS.LinkedList

variable {α : Type*} {next prev next' prev' : α → α} {a b x : α} {l xs ys : List α}

lemma getLastD_append_cons (ys xs : List α) (a m : α) : (ys ++ a :: xs).getLastD m = xs.getLastD a := by
  simp only [List.getLastD_eq_getLast?, List.getLast?_append, List.getLast?_cons]
  simp

/-- The nodes of the ring in order, from any of them on. -/
def IsRing (next prev : α → α) : List α → Prop
  | [] => True
  | a :: l => (a :: l).Nodup ∧ Seg next prev (l.getLastD a) a (a :: l) a

theorem IsRing.nodup (h : IsRing next prev l) : l.Nodup := by
  cases l with
  | nil => exact List.nodup_nil
  | cons a l => exact h.1

/-- The neighbours of the first node. -/
theorem IsRing.links (h : IsRing next prev (a :: l)) : next a = l.headD a ∧ prev a = l.getLastD a := by
  obtain ⟨-, -, hp, hs⟩ := h
  refine ⟨?_, hp⟩
  cases l with
  | nil => exact hs
  | cons b l => exact hs.1

theorem IsRing.congr (h : IsRing next prev l) (hn : ∀ b ∈ l, next' b = next b)
    (hp : ∀ b ∈ l, prev' b = prev b) : IsRing next' prev' l := by
  cases l with
  | nil => trivial
  | cons a l => exact ⟨h.1, h.2.congr hn hp⟩

/-- The ring from another of its nodes on. -/
theorem IsRing.rotate (h : IsRing next prev (xs ++ ys)) : IsRing next prev (ys ++ xs) := by
  cases xs with
  | nil => rwa [List.append_nil]
  | cons a xs =>
    cases ys with
    | nil => rwa [List.append_nil] at h
    | cons b ys =>
      obtain ⟨hd, hs⟩ := h
      refine ⟨List.nodup_append_comm.mp (show (a :: xs ++ b :: ys).Nodup from hd), ?_⟩
      rw [List.append_eq, ← List.cons_append] at hs
      obtain ⟨m, hx, hy⟩ := Seg.append.mp hs
      obtain rfl : m = b := hy.1
      rw [List.append_eq, ← List.cons_append]
      refine Seg.append.mpr ⟨a, ?_, ?_⟩
      · rw [List.getLastD_cons] at hy
        rwa [getLastD_append_cons]
      · rw [getLastD_append_cons] at hx
        rwa [List.getLastD_cons]

/-- The neighbours of any node are nodes. -/
theorem IsRing.next_mem (h : IsRing next prev l) (ha : a ∈ l) : next a ∈ l ∧ prev a ∈ l := by
  obtain ⟨xs, ys, rfl⟩ := List.append_of_mem ha
  obtain ⟨hn, hp⟩ := h.rotate.links
  have hmem : ∀ b ∈ a :: (ys ++ xs), b ∈ xs ++ a :: ys := by
    intro b hb
    simp only [List.mem_cons, List.mem_append] at hb ⊢
    tauto
  refine ⟨hmem _ ?_, hmem _ ?_⟩
  · rw [hn]
    change (ys ++ xs).headD a ∈ _
    cases ys ++ xs with
    | nil => exact List.mem_cons_self
    | cons b l => exact List.mem_cons_of_mem _ List.mem_cons_self
  · rw [hp]
    exact List.getLastD_mem_cons

theorem IsRing.next_eq_self_iff (h : IsRing next prev (a :: l)) (hb : b ∈ a :: l) : next b = b ↔ l = [] := by
  obtain ⟨xs, ys, heq⟩ := List.append_of_mem hb
  rw [heq] at h
  have hlen : l.length = (ys ++ xs).length := by
    have := congrArg List.length heq
    simp only [List.length_cons, List.length_append] at this ⊢
    omega
  rw [h.rotate.links.1, ← List.length_eq_zero_iff, hlen, List.length_eq_zero_iff]
  change (ys ++ xs).headD b = b ↔ _
  have hd := (List.nodup_cons.mp h.rotate.nodup).1
  change b ∉ ys ++ xs at hd
  generalize ys ++ xs = zs at hd ⊢
  cases zs with
  | nil => simp
  | cons y zs =>
    rw [List.mem_cons, not_or] at hd
    simpa using Ne.symm hd.1

theorem Seg.linked {p t null : α} (h : Seg next prev p a l t) (hnull : null ∉ l) (hb : b ∈ l) :
    Linked next null a b := by
  induction l generalizing p a with
  | nil => exact absurd hb List.not_mem_nil
  | cons x l ih =>
    obtain ⟨rfl, -, h⟩ := h
    rw [List.mem_cons, not_or] at hnull
    rcases List.mem_cons.mp hb with rfl | hb
    · exact .here (Ne.symm hnull.1)
    · exact .next (Ne.symm hnull.1) (ih h hnull.2 hb)

theorem IsRing.linked_iff {null : α} (h : IsRing next prev l) (hnull : null ∉ l) (ha : a ∈ l) :
    Linked next null a b ↔ b ∈ l := by
  constructor
  · exact fun hl => hl.mem ha fun b hb => (h.next_mem hb).1
  · intro hb
    obtain ⟨xs, ys, rfl⟩ := List.append_of_mem ha
    obtain ⟨-, hs⟩ := h.rotate
    rw [List.mem_append, or_comm, ← List.mem_append] at hb hnull
    exact Seg.linked hs hnull hb

theorem IsRing.singleton (hn : next a = a) (hp : prev a = a) : IsRing next prev [a] :=
  ⟨List.nodup_singleton a, rfl, hp, hn⟩

section Edit
variable [DecidableEq α]

/-- Link a new node in behind the last one, which is the one before the first. -/
theorem IsRing.append (h : IsRing next prev (a :: l)) (hx : x ∉ a :: l) (hnx : next' x = a)
    (hpx : prev' x = prev a) (hn : ∀ b ∈ a :: l, next' b = if b = prev a then x else next b)
    (hp : ∀ b ∈ a :: l, prev' b = if b = a then x else prev b) : IsRing next' prev' (a :: l ++ [x]) := by
  obtain ⟨-, hlast⟩ := h.links
  obtain ⟨hd, -, -, hs⟩ := h
  obtain ⟨hal, hld⟩ := List.nodup_cons.mp hd
  rw [hlast] at hn hpx
  refine ⟨?_, rfl, ?_, ?_⟩
  · rw [List.append_eq, ← List.cons_append, List.nodup_append_comm]
    exact List.nodup_cons.mpr ⟨hx, hd⟩
  · rw [hp a List.mem_cons_self, if_pos rfl]
    simp
  · have hrest : Seg next' prev' a (if l = [] then x else next a) l x := by
      refine hs.set_end hld hal (fun b hb => hn b (List.mem_cons_of_mem _ hb)) fun b hb => ?_
      rw [hp b (List.mem_cons_of_mem _ hb), if_neg fun he : b = a => hal (he ▸ hb)]
    have hfirst : next' a = if l = [] then x else next a := by
      rw [hn a List.mem_cons_self]
      cases l with
      | nil => simp
      | cons b l =>
        have hne : a ≠ (b :: l).getLastD a := by
          intro he
          rw [List.getLastD_cons] at he
          exact hal (he ▸ List.getLastD_mem_cons)
        rw [if_neg hne, if_neg (List.cons_ne_nil b l)]
    rw [hfirst]
    exact Seg.append.mpr ⟨x, hrest, rfl, hpx, hnx⟩

/-- Unlink the first node. -/
theorem IsRing.removeFirst (h : IsRing next prev (a :: b :: l))
    (hn : ∀ y ∈ b :: l, next' y = if y = prev a then next a else next y)
    (hp : ∀ y ∈ b :: l, prev' y = if y = next a then prev a else prev y) : IsRing next' prev' (b :: l) := by
  obtain ⟨hnext, hlast⟩ := h.links
  rw [List.getLastD_cons] at hlast
  rw [List.headD_cons] at hnext
  obtain ⟨hd, -, -, -, -, hs⟩ := h
  obtain ⟨-, hd⟩ := List.nodup_cons.mp hd
  obtain ⟨hbl, hld⟩ := List.nodup_cons.mp hd
  rw [hlast, hnext] at hn hp
  refine ⟨hd, rfl, ?_, ?_⟩
  · rw [hp b List.mem_cons_self, if_pos rfl]
  · have hrest : Seg next' prev' b (if l = [] then b else next b) l b := by
      refine hs.set_end hld hbl (fun y hy => hn y (List.mem_cons_of_mem _ hy)) fun y hy => ?_
      rw [hp y (List.mem_cons_of_mem _ hy), if_neg fun he : y = b => hbl (he ▸ hy)]
    have hfirst : next' b = if l = [] then b else next b := by
      rw [hn b List.mem_cons_self]
      cases l with
      | nil => simp
      | cons c l =>
        have hne : b ≠ (c :: l).getLastD b := by
          intro he
          rw [List.getLastD_cons] at he
          exact hbl (he ▸ List.getLastD_mem_cons)
        rw [if_neg hne, if_neg (List.cons_ne_nil c l)]
    rw [hfirst]
    exact hrest

end Edit

end PointerOS.LinkedList
