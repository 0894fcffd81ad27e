import Mathlib

/-!
# Intrusive doubly linked lists

The links of an intrusive list live in the nodes, so a list is a pair of
functions `next` and `prev` on node addresses together with a head pointer and a
null address. `Seg` describes a stretch of such a list from its entry, `IsList`
a complete null-terminated list and `IsRing` a circular one. The link functions
before and after an edit are related only on the nodes of the list, so the same
rules serve byte-level link words and record fields alike.
-/
namespace PointerOS.LinkedList

variable {α : Type*} {next prev next' prev' : α → α} {null : α}

/-- From pointer `h`, entered from node `p`, the nodes `xs` are linked in both
directions and the last of them points to `t`. -/
def Seg (next prev : α → α) : α → α → List α → α → Prop
  | _, h, [], t => h = t
  | p, h, x :: xs, t => h = x ∧ prev x = p ∧ Seg next prev x (next x) xs t

theorem Seg.append {p h t : α} {xs ys : List α} :
    Seg next prev p h (xs ++ ys) t ↔
      ∃ m, Seg next prev p h xs m ∧ Seg next prev (xs.getLastD p) m ys t := by
  induction xs generalizing p h with
  | nil => simp [Seg]
  | cons x xs ih =>
    simp only [List.cons_append, Seg, ih, List.getLastD_cons]
    constructor
    · rintro ⟨hx, hp, m, hl, hr⟩
      exact ⟨m, ⟨hx, hp, hl⟩, hr⟩
    · rintro ⟨m, ⟨hx, hp, hl⟩, hr⟩
      exact ⟨hx, hp, m, hl, hr⟩

/-- A stretch reads only the links of its own nodes. -/
theorem Seg.congr {p h t : α} {xs : List α} (hs : Seg next prev p h xs t)
    (hn : ∀ a ∈ xs, next' a = next a) (hp : ∀ a ∈ xs, prev' a = prev a) :
    Seg next' prev' p h xs t := by
  induction xs generalizing p h with
  | nil => exact hs
  | cons x xs ih =>
    obtain ⟨hx, hpx, hs⟩ := hs
    refine ⟨hx, by rw [hp x (by simp), hpx], ?_⟩
    rw [hn x (by simp)]
    exact ih hs (fun a ha => hn a (by simp [ha])) (fun a ha => hp a (by simp [ha]))

/-- Redirect the pointer that leaves a stretch. -/
theorem Seg.set_end [DecidableEq α] {p h t t' : α} {xs : List α} (hs : Seg next prev p h xs t)
    (hd : xs.Nodup) (hp : p ∉ xs)
    (hn : ∀ a ∈ xs, next' a = if a = xs.getLastD p then t' else next a)
    (hpr : ∀ a ∈ xs, prev' a = prev a) :
    Seg next' prev' p (if xs = [] then t' else h) xs t' := by
  induction xs generalizing p h with
  | nil => simp [Seg]
  | cons x xs ih =>
    obtain ⟨hx, hpx, hs⟩ := hs
    rw [List.nodup_cons] at hd
    refine ⟨by simp [hx], by rw [hpr x (by simp), hpx], ?_⟩
    have hn' : ∀ a ∈ xs, next' a = if a = xs.getLastD x then t' else next a := by
      intro a ha
      simpa only [List.getLastD_cons] using hn a (by simp [ha])
    have hrest := ih hs hd.2 hd.1 hn' (fun a ha => hpr a (by simp [ha]))
    have hnx := hn x (by simp)
    rw [List.getLastD_cons] at hnx
    cases xs with
    | nil => simpa [Seg] using hnx
    | cons y ys =>
      have hne : x ≠ (y :: ys).getLastD x := by
        intro he
        rw [List.getLastD_cons] at he
        exact hd.1 (he ▸ List.getLastD_mem_cons (l := ys) (a := y))
      rw [if_neg hne] at hnx
      rw [hnx]
      simpa using hrest

/-- Redirect the pointer back from the first node of a stretch. -/
theorem Seg.set_start [DecidableEq α] {p p' h t : α} {xs : List α}
    (hs : Seg next prev p h xs t) (hd : xs.Nodup)
    (hn : ∀ a ∈ xs, next' a = next a)
    (hp : ∀ a ∈ xs, prev' a = if a = h then p' else prev a) :
    Seg next' prev' p' h xs t := by
  cases xs with
  | nil => exact hs
  | cons x xs =>
    obtain ⟨rfl, hpx, hs⟩ := hs
    rw [List.nodup_cons] at hd
    refine ⟨rfl, by rw [hp h (by simp), if_pos rfl], ?_⟩
    rw [hn h (by simp)]
    refine hs.congr (fun a ha => hn a (by simp [ha])) ?_
    intro a ha
    have hne : a ≠ h := fun he => hd.1 (he ▸ ha)
    rw [hp a (by simp [ha]), if_neg hne]

/-- A complete list: `head` is its first node, or null when there is none. -/
structure IsList (next prev : α → α) (null head : α) (xs : List α) : Prop where
  nodup : xs.Nodup
  null_notMem : null ∉ xs
  seg : Seg next prev null head xs null

theorem IsList.nil : IsList next prev null null [] :=
  ⟨List.nodup_nil, by simp, rfl⟩

lemma IsList.head_eq {head : α} {xs : List α} (h : IsList next prev null head xs) :
    head = xs.headD null := by
  cases xs with
  | nil => exact h.seg
  | cons x xs => exact h.seg.1

lemma IsList.eq_nil_iff {head : α} {xs : List α} (h : IsList next prev null head xs) :
    xs = [] ↔ head = null := by
  cases xs with
  | nil => simp [show head = null from h.seg]
  | cons x xs =>
    have hx := h.seg.1
    have hne : x ≠ null := fun he => h.null_notMem (by simp [he])
    simp [hx, hne]

theorem IsList.congr {head : α} {xs : List α} (h : IsList next prev null head xs)
    (hn : ∀ a ∈ xs, next' a = next a) (hp : ∀ a ∈ xs, prev' a = prev a) :
    IsList next' prev' null head xs :=
  ⟨h.nodup, h.null_notMem, h.seg.congr hn hp⟩

/-- The neighbours of a node, read off its links. -/
lemma IsList.links {head x : α} {pre post : List α}
    (h : IsList next prev null head (pre ++ x :: post)) :
    prev x = pre.getLastD null ∧ next x = post.headD null := by
  obtain ⟨m, _, rfl, hp, hs⟩ := Seg.append.mp h.seg
  refine ⟨hp, ?_⟩
  cases post with
  | nil => exact hs
  | cons y post => exact hs.1

/-- Put a fresh node in front. -/
theorem IsList.push [DecidableEq α] {head x : α} {xs : List α}
    (h : IsList next prev null head xs) (hx : x ∉ xs) (hnull : x ≠ null)
    (hnx : next' x = head) (hpx : prev' x = null)
    (hn : ∀ a ∈ xs, next' a = next a)
    (hp : ∀ a ∈ xs, prev' a = if a = head then x else prev a) :
    IsList next' prev' null x (x :: xs) := by
  refine ⟨List.nodup_cons.mpr ⟨hx, h.nodup⟩, ?_, rfl, hpx, ?_⟩
  · rintro (_ | ⟨_, hm⟩)
    · exact hnull rfl
    · exact h.null_notMem hm
  · rw [hnx]
    exact h.seg.set_start h.nodup hn hp

/-- Unlink a node: its predecessor, or the head, takes over its successor and
its successor takes over its predecessor. -/
theorem IsList.remove [DecidableEq α] {head head' x : α} {pre post : List α}
    (h : IsList next prev null head (pre ++ x :: post))
    (hhead : head' = if prev x = null then next x else head)
    (hn : ∀ a ∈ pre ++ post, next' a = if a = prev x then next x else next a)
    (hp : ∀ a ∈ pre ++ post, prev' a = if a = next x then prev x else prev a) :
    IsList next' prev' null head' (pre ++ post) := by
  have hnd := h.nodup
  have hnull := h.null_notMem
  have hlinks := h.links
  obtain ⟨m, hpre, rfl, hpx, hpost⟩ := Seg.append.mp h.seg
  rw [List.nodup_append] at hnd
  simp only [List.nodup_cons, List.mem_cons] at hnd
  simp only [List.mem_append, List.mem_cons, not_or] at hnull
  have hprev_post : ∀ a ∈ post, a ≠ prev m := by
    intro a ha he
    rw [hlinks.1] at he
    rcases List.mem_cons.mp (List.getLastD_mem_cons (l := pre) (a := null)) with hl | hl
    · exact hnull.2.2 (by rw [← hl, ← he]; exact ha)
    · exact hnd.2.2 _ hl a (Or.inr ha) he.symm
  have hnext_pre : ∀ a ∈ pre, a ≠ next m := by
    intro a ha he
    cases hpo : post with
    | nil =>
      rw [hlinks.2, hpo] at he
      exact hnull.1 (by rw [← show a = null from he]; exact ha)
    | cons y ys =>
      rw [hlinks.2, hpo] at he
      exact hnd.2.2 a ha y (by simp [hpo]) he
  refine ⟨?_, ?_, Seg.append.mpr ⟨next m, ?_, ?_⟩⟩
  · rw [List.nodup_append]
    exact ⟨hnd.1, hnd.2.1.2, fun a ha b hb => hnd.2.2 a ha b (Or.inr hb)⟩
  · simp only [List.mem_append, not_or]
    exact ⟨hnull.1, hnull.2.2⟩
  · have hend : Seg next' prev' null (if pre = [] then next m else head) pre (next m) :=
      hpre.set_end hnd.1 hnull.1
        (fun a ha => by rw [hn a (by simp [ha]), hlinks.1])
        (fun a ha => by rw [hp a (by simp [ha]), if_neg (hnext_pre a ha)])
    convert hend using 1
    rw [hhead, hlinks.1]
    rcases pre.eq_nil_or_concat with rfl | ⟨ys, y, rfl⟩
    · simp
    · have hne : y ≠ null := fun he => hnull.1 (by simp [he])
      simp [hne]
  · rw [← hlinks.1]
    exact hpost.set_start hnd.2.1.2
      (fun a ha => by rw [hn a (by simp [ha]), if_neg (hprev_post a ha)])
      (fun a ha => by rw [hp a (by simp [ha])])

/-- Link a fresh node in behind `c`. -/
theorem IsList.insertAfter [DecidableEq α] {head c x : α} {pre post : List α}
    (h : IsList next prev null head (pre ++ c :: post))
    (hx : x ∉ pre ++ c :: post) (hxnull : x ≠ null)
    (hnx : next' x = next c) (hpx : prev' x = c)
    (hn : ∀ a ∈ pre ++ c :: post, next' a = if a = c then x else next a)
    (hp : ∀ a ∈ pre ++ c :: post, prev' a = if a = next c then x else prev a) :
    IsList next' prev' null head (pre ++ c :: x :: post) := by
  have hnd := h.nodup
  have hnull := h.null_notMem
  have hlinks := h.links
  obtain ⟨m, hpre, rfl, hpc, hpost⟩ := Seg.append.mp h.seg
  rw [List.nodup_append] at hnd
  simp only [List.nodup_cons, List.mem_cons] at hnd
  simp only [List.mem_append, List.mem_cons, not_or] at hnull hx
  have hnext : ∀ a ∈ pre, a ≠ next m := by
    intro a ha he
    cases hpo : post with
    | nil =>
      rw [hlinks.2, hpo] at he
      exact hnull.1 (by rw [← show a = null from he]; exact ha)
    | cons y ys =>
      rw [hlinks.2, hpo] at he
      exact hnd.2.2 a ha y (by simp [hpo]) he
  have hself : m ≠ next m := by
    intro he
    cases hpo : post with
    | nil =>
      rw [hlinks.2, hpo] at he
      exact hnull.2.1 (show m = null from he).symm
    | cons y ys =>
      rw [hlinks.2, hpo] at he
      exact hnd.2.1.1 (by rw [show m = y from he, hpo]; simp)
  refine ⟨?_, ?_, Seg.append.mpr ⟨m, ?_, rfl, ?_, ?_, ?_, ?_⟩⟩
  · rw [List.nodup_append]
    simp only [List.nodup_cons, List.mem_cons, not_or]
    refine ⟨hnd.1, ⟨⟨fun he => hx.2.1 he.symm, hnd.2.1.1⟩, hx.2.2, hnd.2.1.2⟩, ?_⟩
    rintro a ha b (rfl | rfl | hb)
    · exact hnd.2.2 a ha b (Or.inl rfl)
    · exact fun he => hx.1 (he ▸ ha)
    · exact hnd.2.2 a ha b (Or.inr hb)
  · simp only [List.mem_append, List.mem_cons, not_or]
    exact ⟨hnull.1, hnull.2.1, fun he => hxnull he.symm, hnull.2.2⟩
  · refine hpre.congr ?_ ?_
    · intro a ha
      rw [hn a (by simp [ha]), if_neg (fun he => hnd.2.2 a ha m (Or.inl rfl) he)]
    · intro a ha
      rw [hp a (by simp [ha]), if_neg (hnext a ha)]
  · rw [hp m (by simp), if_neg hself, hpc]
  · rw [hn m (by simp), if_pos rfl]
  · exact hpx
  · rw [hnx]
    exact hpost.set_start hnd.2.1.2
      (fun a ha => by
        have hne : a ≠ m := fun he => hnd.2.1.1 (he ▸ ha)
        rw [hn a (by simp [ha]), if_neg hne])
      (fun a ha => by rw [hp a (by simp [ha])])

/-- Disjoint lists through the same links, one for each index in `I`. -/
structure ListFamily {ι : Type*} (I : Set ι) (next prev : α → α) (null : α) (head : ι → α)
    (G : ι → List α) : Prop where
  list : ∀ i ∈ I, IsList next prev null (head i) (G i)
  disjoint : ∀ i ∈ I, ∀ j ∈ I, ∀ a ∈ G i, a ∈ G j → i = j

namespace ListFamily

variable {ι : Type*} {I : Set ι} {head head' : ι → α} {G : ι → List α}

theorem congr (h : ListFamily I next prev null head G) (hh : ∀ i ∈ I, head' i = head i)
    (hn : ∀ i ∈ I, ∀ a ∈ G i, next' a = next a) (hp : ∀ i ∈ I, ∀ a ∈ G i, prev' a = prev a) :
    ListFamily I next' prev' null head' G := by
  refine ⟨fun i hi => ?_, h.disjoint⟩
  rw [hh i hi]
  exact (h.list i hi).congr (hn i hi) (hp i hi)

/-- The links of a node lead to null or to other nodes of its list. -/
lemma neighbours {i : ι} {x : α} (h : ListFamily I next prev null head G) (hi : i ∈ I)
    (hx : x ∈ G i) :
    (prev x = null ∨ prev x ∈ G i ∧ prev x ≠ x) ∧ (next x = null ∨ next x ∈ G i ∧ next x ≠ x) := by
  obtain ⟨pre, post, hG⟩ := List.append_of_mem hx
  have hlist := h.list i hi
  rw [hG] at hlist ⊢
  have hnd := hlist.nodup
  rw [List.nodup_append] at hnd
  simp only [List.nodup_cons, List.mem_cons] at hnd
  obtain ⟨hp, hn⟩ := hlist.links
  rw [hp, hn]
  constructor
  · rcases pre.eq_nil_or_concat with rfl | ⟨ys, y, rfl⟩
    · exact Or.inl rfl
    · refine Or.inr ⟨by simp, ?_⟩
      simpa using hnd.2.2 y (by simp) x (Or.inl rfl)
  · cases post with
    | nil => exact Or.inl rfl
    | cons y ys =>
      refine Or.inr ⟨by simp, ?_⟩
      rintro rfl
      exact hnd.2.1.1 List.mem_cons_self

/-- Unlink a node of one list; the others do not see it. -/
theorem remove [DecidableEq α] [DecidableEq ι] {i : ι} {x : α} {pre post : List α}
    (h : ListFamily I next prev null head G) (hi : i ∈ I) (hG : G i = pre ++ x :: post)
    (hh : ∀ j ∈ I, head' j = if j = i ∧ prev x = null then next x else head j)
    (hn : ∀ j ∈ I, ∀ a ∈ G j, a ≠ x → next' a = if a = prev x then next x else next a)
    (hp : ∀ j ∈ I, ∀ a ∈ G j, a ≠ x → prev' a = if a = next x then prev x else prev a) :
    ListFamily I next' prev' null head' (Function.update G i (pre ++ post)) := by
  have hx : x ∈ G i := by simp [hG]
  have hsub : ∀ a ∈ pre ++ post, a ∈ G i ∧ a ≠ x := by
    intro a ha
    have hnd := (h.list i hi).nodup
    rw [hG, List.nodup_append] at hnd
    simp only [List.nodup_cons, List.mem_cons] at hnd
    rw [hG]
    rcases List.mem_append.mp ha with ha | ha
    · exact ⟨by simp [ha], hnd.2.2 a ha x (Or.inl rfl)⟩
    · exact ⟨by simp [ha], fun he => hnd.2.1.1 (he ▸ ha)⟩
  have hmem : ∀ j, ∀ a ∈ Function.update G i (pre ++ post) j, a ∈ G j := by
    intro j a ha
    by_cases hj : j = i
    · subst hj
      rw [Function.update_self] at ha
      exact (hsub a ha).1
    · rwa [Function.update_of_ne hj] at ha
  refine ⟨fun j hj => ?_, fun j hj l hl a ha hb => h.disjoint j hj l hl a (hmem j a ha) (hmem l a hb)⟩
  by_cases hji : j = i
  · subst hji
    have hlist := h.list j hj
    rw [hG] at hlist
    rw [Function.update_self]
    refine hlist.remove ?_ ?_ ?_
    · rw [hh j hj]
      simp
    · exact fun a ha => hn j hj a (hsub a ha).1 (hsub a ha).2
    · exact fun a ha => hp j hj a (hsub a ha).1 (hsub a ha).2
  · have hnb := h.neighbours hi hx
    have hout : ∀ a ∈ G j, a ≠ null ∧ a ∉ G i := fun a ha =>
      ⟨fun he => (h.list j hj).null_notMem (he ▸ ha), fun hai => hji (h.disjoint j hj i hi a ha hai)⟩
    have hne : ∀ a ∈ G j, a ≠ x := fun a ha he => (hout a ha).2 (he ▸ hx)
    rw [Function.update_of_ne hji, hh j hj, if_neg (fun hc => hji hc.1)]
    refine (h.list j hj).congr ?_ ?_
    · intro a ha
      rw [hn j hj a ha (hne a ha), if_neg]
      rintro rfl
      rcases hnb.1 with h0 | h1
      · exact (hout _ ha).1 h0
      · exact (hout _ ha).2 h1.1
    · intro a ha
      rw [hp j hj a ha (hne a ha), if_neg]
      rintro rfl
      rcases hnb.2 with h0 | h1
      · exact (hout _ ha).1 h0
      · exact (hout _ ha).2 h1.1

/-- Put a node that is on no list in front of one of them. -/
theorem push [DecidableEq α] [DecidableEq ι] {i : ι} {x : α}
    (h : ListFamily I next prev null head G) (hi : i ∈ I) (hx : ∀ j ∈ I, x ∉ G j) (hnull : x ≠ null)
    (hnx : next' x = head i) (hpx : prev' x = null)
    (hh : ∀ j ∈ I, head' j = if j = i then x else head j)
    (hn : ∀ j ∈ I, ∀ a ∈ G j, next' a = next a)
    (hp : ∀ j ∈ I, ∀ a ∈ G j, prev' a = if a = head i then x else prev a) :
    ListFamily I next' prev' null head' (Function.update G i (x :: G i)) := by
  refine ⟨fun j hj => ?_, fun j hj l hl a ha hb => ?_⟩
  · by_cases hji : j = i
    · subst hji
      rw [Function.update_self, hh j hj, if_pos rfl]
      exact (h.list j hj).push (hx j hj) hnull hnx hpx (hn j hj) (hp j hj)
    · rw [Function.update_of_ne hji, hh j hj, if_neg hji]
      refine (h.list j hj).congr (hn j hj) ?_
      intro a ha
      rw [hp j hj a ha, if_neg]
      intro he
      have hhead := (h.list i hi).head_eq
      cases hGi : G i with
      | nil =>
        rw [hGi] at hhead
        have h0 : a = null := he.trans hhead
        exact (h.list j hj).null_notMem (h0 ▸ ha)
      | cons y ys =>
        rw [hGi] at hhead
        have hay : a = y := he.trans hhead
        exact hji (h.disjoint j hj i hi a ha (by simp [hGi, hay]))
  · by_cases hji : j = i <;> by_cases hli : l = i
    · rw [hji, hli]
    · subst hji
      rw [Function.update_self, List.mem_cons] at ha
      rw [Function.update_of_ne hli] at hb
      rcases ha with rfl | ha
      · exact absurd hb (hx l hl)
      · exact h.disjoint j hj l hl a ha hb
    · subst hli
      rw [Function.update_of_ne hji] at ha
      rw [Function.update_self, List.mem_cons] at hb
      rcases hb with rfl | hb
      · exact absurd ha (hx j hj)
      · exact h.disjoint j hj l hl a ha hb
    · rw [Function.update_of_ne hji] at ha
      rw [Function.update_of_ne hli] at hb
      exact h.disjoint j hj l hl a ha hb

end ListFamily

/-- A null-terminated chain through a single link. -/
def Chain (next : α → α) (null : α) : α → List α → Prop
  | h, [] => h = null
  | h, x :: xs => h = x ∧ Chain next null (next x) xs

/-- The links determine the chain. -/
theorem Chain.unique {h : α} {xs ys : List α} (hx : Chain next null h xs) (hy : Chain next null h ys)
    (hnx : null ∉ xs) (hny : null ∉ ys) : xs = ys := by
  induction xs generalizing h ys with
  | nil =>
    cases ys with
    | nil => rfl
    | cons y ys => exact absurd (hy.1.symm.trans hx) (fun he => hny (by simp [he]))
  | cons x xs ih =>
    cases ys with
    | nil => exact absurd (hx.1.symm.trans hy) (fun he => hnx (by simp [he]))
    | cons y ys =>
      have hxy : x = y := hx.1.symm.trans hy.1
      subst hxy
      rw [ih hx.2 hy.2 (fun hm => hnx (by simp [hm])) (fun hm => hny (by simp [hm]))]

theorem Chain.congr {h : α} {xs : List α} (hc : Chain next null h xs)
    (hn : ∀ a ∈ xs, next' a = next a) : Chain next' null h xs := by
  induction xs generalizing h with
  | nil => exact hc
  | cons x xs ih =>
    refine ⟨hc.1, ?_⟩
    rw [hn x (by simp)]
    exact ih hc.2 (fun a ha => hn a (by simp [ha]))

lemma Chain.head_eq {h : α} {xs : List α} (hc : Chain next null h xs) : h = xs.headD null := by
  cases xs with
  | nil => exact hc
  | cons x xs => exact hc.1

/-- The node `t` is found by following the links from `h` on, before `null`. -/
inductive Linked (next : α → α) (null : α) : α → α → Prop
  | here {h : α} (h0 : h ≠ null) : Linked next null h h
  | next {h t : α} (h0 : h ≠ null) (ht : Linked next null (next h) t) : Linked next null h t

theorem Linked.ne_null {h t : α} (hl : Linked next null h t) : h ≠ null := by
  cases hl <;> assumption

theorem Linked.mem {S : List α} {h t : α} (hl : Linked next null h t) (hh : h ∈ S)
    (hS : ∀ a ∈ S, next a ∈ S) : t ∈ S := by
  induction hl with
  | here _ => exact hh
  | next _ _ ih => exact ih (hS _ hh)

theorem Chain.linked_iff {h t : α} {xs : List α} (hc : Chain next null h xs) (hnull : null ∉ xs) :
    Linked next null h t ↔ t ∈ xs := by
  induction xs generalizing h with
  | nil => exact iff_of_false (fun hl => hl.ne_null hc) List.not_mem_nil
  | cons x xs ih =>
    obtain ⟨rfl, hc⟩ := hc
    rw [List.mem_cons, not_or] at hnull
    rw [List.mem_cons, ← ih hc hnull.2]
    constructor
    · rintro (- | ⟨-, ht⟩)
      · exact .inl rfl
      · exact .inr ht
    · rintro (rfl | ht)
      · exact .here (Ne.symm hnull.1)
      · exact .next (Ne.symm hnull.1) ht

/-- Put a node at the end. -/
theorem Chain.concat [DecidableEq α] {h x : α} {xs : List α} (hc : Chain next null h xs) (hd : xs.Nodup)
    (hnull : null ∉ xs) (hnx : next' x = null)
    (hn : ∀ a ∈ xs, next' a = if a = xs.getLastD null then x else next a) :
    Chain next' null (if xs = [] then x else h) (xs ++ [x]) := by
  induction xs generalizing h with
  | nil => exact ⟨rfl, hnx⟩
  | cons y ys ih =>
    obtain ⟨rfl, hc⟩ := hc
    obtain ⟨hy, hd⟩ := List.nodup_cons.mp hd
    have hnys : null ∉ ys := fun hm => hnull (List.mem_cons_of_mem _ hm)
    refine ⟨rfl, ?_⟩
    have hny := hn h List.mem_cons_self
    cases ys with
    | nil =>
      rw [List.getLastD_cons, List.getLastD_nil, if_pos rfl] at hny
      rw [hny]
      exact ⟨rfl, hnx⟩
    | cons z zs =>
      have hlast : ∀ a : α, (z :: zs).getLastD a = zs.getLastD z := fun a => List.getLastD_cons ..
      rw [List.getLastD_cons, hlast] at hny hn
      have hne : h ≠ zs.getLastD z := fun he => hy (he ▸ List.getLastD_mem_cons)
      rw [hny, if_neg hne]
      refine ih hc hd hnys fun a ha => ?_
      rw [hn a (List.mem_cons_of_mem _ ha), hlast]

/-- The elements of `S` are shared out among the lists. -/
structure Partition {ι : Type*} (L : ι → List α) (S : List α) : Prop where
  nodup : ∀ i, (L i).Nodup
  mem_iff : ∀ a, a ∈ S ↔ ∃ i, a ∈ L i
  unique : ∀ i j a, a ∈ L i → a ∈ L j → i = j

theorem Partition.notMem {ι : Type*} {L : ι → List α} {S : List α} {i j : ι} {a : α} (h : Partition L S)
    (hi : a ∈ L i) (hij : j ≠ i) : a ∉ L j :=
  fun hj => hij (h.unique j i a hj hi)

theorem Partition.perm {ι : Type*} {L L' : ι → List α} {S : List α} (h : Partition L S)
    (hL : ∀ i, (L' i).Perm (L i)) : Partition L' S where
  nodup := fun i => (hL i).nodup_iff.mpr (h.nodup i)
  mem_iff := fun a => (h.mem_iff a).trans (exists_congr fun i => (hL i).mem_iff.symm)
  unique := fun i j a hi hj => h.unique i j a ((hL i).mem_iff.mp hi) ((hL j).mem_iff.mp hj)

/-- A new element goes to the list `q`. -/
theorem Partition.insert {ι : Type*} {L L' : ι → List α} {S : List α} {q : ι} {x : α} (h : Partition L S)
    (hx : x ∉ S) (hq : (L' q).Perm (x :: L q)) (hother : ∀ i, i ≠ q → L' i = L i) : Partition L' (x :: S) := by
  have hno : ∀ i, x ∉ L i := fun i hi => hx ((h.mem_iff x).mpr ⟨i, hi⟩)
  have hmem : ∀ i a, a ∈ L' i ↔ a = x ∧ i = q ∨ a ∈ L i := by
    intro i a
    by_cases hi : i = q
    · rw [hi, hq.mem_iff, List.mem_cons]
      simp only [and_true]
    · rw [hother i hi]
      simp only [hi, and_false, false_or]
  refine ⟨fun i => ?_, fun a => ?_, fun i j a hi hj => ?_⟩
  · by_cases hi : i = q
    · rw [hi, hq.nodup_iff]
      exact List.nodup_cons.mpr ⟨hno q, h.nodup q⟩
    · rw [hother i hi]
      exact h.nodup i
  · rw [List.mem_cons, h.mem_iff a]
    simp only [hmem, exists_or, exists_and_left, exists_eq, and_true]
  · rcases (hmem i a).mp hi with ⟨rfl, rfl⟩ | hi
    · rcases (hmem j a).mp hj with ⟨-, rfl⟩ | hj
      · rfl
      · exact absurd hj (hno j)
    · rcases (hmem j a).mp hj with ⟨rfl, rfl⟩ | hj
      · exact absurd hi (hno i)
      · exact h.unique i j a hi hj

/-- An element of the list `p` is taken out. -/
theorem Partition.remove {ι : Type*} {L L' : ι → List α} {S S' : List α} {p : ι} {x : α} (h : Partition L S)
    (hp : (L p).Perm (x :: L' p)) (hother : ∀ i, i ≠ p → L' i = L i) (hS : ∀ a, a ∈ S' ↔ a ∈ S ∧ a ≠ x) :
    Partition L' S' := by
  have hxp : x ∈ L p := hp.mem_iff.mpr List.mem_cons_self
  obtain ⟨hxp', hd⟩ := List.nodup_cons.mp (hp.nodup_iff.mp (h.nodup p))
  have hmem : ∀ i a, a ∈ L' i ↔ a ∈ L i ∧ a ≠ x := by
    intro i a
    by_cases hi : i = p
    · rw [hi, hp.mem_iff, List.mem_cons]
      refine ⟨fun ha => ⟨Or.inr ha, fun he => hxp' (he ▸ ha)⟩, fun ha => ha.1.resolve_left ha.2⟩
    · rw [hother i hi]
      exact ⟨fun ha => ⟨ha, fun he => h.notMem hxp hi (he ▸ ha)⟩, fun ha => ha.1⟩
  refine ⟨fun i => ?_, fun a => ?_, fun i j a hi hj => ?_⟩
  · by_cases hi : i = p
    · exact hi ▸ hd
    · rw [hother i hi]
      exact h.nodup i
  · rw [hS a, h.mem_iff a]
    simp only [hmem, exists_and_right]
  · exact h.unique i j a ((hmem i a).mp hi).1 ((hmem j a).mp hj).1

/-- An element goes from the list `p` to the list `q`. -/
theorem Partition.transfer [DecidableEq α] {ι : Type*} [DecidableEq ι] {L L' : ι → List α} {S : List α} {p q : ι}
    {x : α} (h : Partition L S) (hpq : p ≠ q) (hp : (L p).Perm (x :: L' p)) (hq : (L' q).Perm (x :: L q))
    (hother : ∀ i, i ≠ p → i ≠ q → L' i = L i) : Partition L' S := by
  have hxS : x ∈ S := (h.mem_iff x).mpr ⟨p, hp.mem_iff.mpr List.mem_cons_self⟩
  -- in between the element is on neither list
  have hmid : Partition (Function.update L p (L' p)) (S.filter (· ≠ x)) := by
    refine h.remove (p := p) (x := x) ?_ (fun i hi => Function.update_of_ne hi ..) fun a => by simp
    rwa [Function.update_self]
  have hend : Partition L' (x :: S.filter (· ≠ x)) := by
    refine hmid.insert (q := q) (by simp) ?_ fun i hi => ?_
    · rwa [Function.update_of_ne hpq.symm]
    · by_cases hip : i = p
      · rw [hip, Function.update_self]
      · rw [Function.update_of_ne hip, hother i hip hi]
  refine ⟨hend.nodup, fun a => ?_, hend.unique⟩
  rw [← hend.mem_iff a]
  by_cases ha : a = x
  · simp [ha, hxS]
  · simp [ha]

/-- The lists may change names. -/
theorem Partition.rename {ι : Type*} {L : ι → List α} {S : List α} (h : Partition L S) (e : Equiv.Perm ι) :
    Partition (L ∘ e) S where
  nodup := fun i => h.nodup (e i)
  mem_iff := by
    intro a
    rw [h.mem_iff a]
    exact e.surjective.exists
  unique := fun i j a hi hj => e.injective (h.unique (e i) (e j) a hi hj)

end PointerOS.LinkedList
