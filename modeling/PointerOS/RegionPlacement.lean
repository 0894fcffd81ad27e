import PointerOS.StackRegions
import PointerOS.VmallocRegions

/-!
# The places of new regions

Where `vm_add_to_list` and `us_add_to_list` put a region of any size: behind the last region without a
look at the end of the window, and never in front of the first one.
-/
namespace PointerOS
open LinkedList GapList

/-! ## The window of `vmalloc` -/

/-- The region lies in the window and apart from those in the list. -/
structure InWindow (l : List VmInfo) (base size : ℕ) : Prop where
  low : vmallocStart ≤ base
  high : base + size ≤ heapStart
  apart : ∀ i ∈ l, base + size ≤ i.base ∨ i.base + i.size ≤ base

/-- The lowest place in the window that is free. -/
structure FirstFit (l : List VmInfo) (base size : ℕ) : Prop where
  fits : InWindow l base size
  first : ∀ b, InWindow l b size → base ≤ b

/-- A region is followed by `size` bytes before the next one, or the last one before the heap. -/
def RoomBehind (size : ℕ) : List VmInfo → Prop
  | [] => vmallocStart + size ≤ heapStart
  | [i] => i.base + i.size + size ≤ heapStart
  | i :: j :: l => i.base + i.size + size ≤ j.base ∨ RoomBehind size (j :: l)

section Window
variable {l passed after : List VmInfo} {i j behind : VmInfo} {size n : ℕ}

theorem heapStart_eq : vmallocStart + (heapStart - vmallocStart) = heapStart ∧ heapStart < 2 ^ 64 := by decide

theorem RoomBehind.append (h : RoomBehind size (behind :: after)) : RoomBehind size (passed ++ behind :: after) := by
  induction passed with
  | nil => exact h
  | cons i passed ih =>
    cases passed with
    | nil => exact .inr ih
    | cons j passed => exact .inr ih

/-- Room anywhere behind a region is room before the heap. -/
theorem RoomBehind.le (h : RoomBehind size (i :: l)) (ha : Ascends (i :: l) (heapStart - vmallocStart)) :
    i.base + i.size + size ≤ heapStart := by
  induction l generalizing i with
  | nil => exact h
  | cons j l ih =>
    have hj : j ∈ i :: j :: l := by simp
    have hij := (List.pairwise_cons.mp ha.sorted).1 j List.mem_cons_self
    have hhigh := ha.high j hj
    have hpos := ha.pos j hj
    obtain ⟨hwin, -⟩ := heapStart_eq
    rcases h with hgap | hroom
    · omega
    · have := ih hroom (ha.sublist (List.sublist_cons_self i (j :: l)))
      omega

theorem Ascends.end_lt (h : Ascends l (heapStart - vmallocStart)) (hi : i ∈ l) : i.base + i.size < 2 ^ 64 := by
  have hhigh := h.high i hi
  obtain ⟨hwin, hend⟩ := heapStart_eq
  omega

/-- The place behind a region that is followed by room. -/
theorem Ascends.inWindow_behind (h : Ascends (passed ++ behind :: after) (heapStart - vmallocStart))
    (hroom : behind.base + behind.size + size ≤ heapStart)
    (hgap : ∀ next rest, after = next :: rest → behind.base + behind.size + size ≤ next.base) :
    InWindow (passed ++ behind :: after) (behind.base + behind.size) size := by
  have hbehind : behind ∈ passed ++ behind :: after := List.mem_append_right _ List.mem_cons_self
  obtain ⟨-, hrest, hcross⟩ := List.pairwise_append.mp h.sorted
  obtain ⟨-, hafter⟩ := List.pairwise_cons.mp hrest
  refine ⟨(h.low behind hbehind).trans (Nat.le_add_right ..), hroom, fun i hi => ?_⟩
  rcases List.mem_append.mp hi with hi | hi
  · have := hcross i hi behind List.mem_cons_self
    omega
  rcases List.mem_cons.mp hi with rfl | hi
  · exact .inr le_rfl
  cases after with
  | nil => exact absurd hi List.not_mem_nil
  | cons next rest =>
    have hnext := hgap next rest rfl
    rcases List.mem_cons.mp hi with rfl | hi
    · exact .inl hnext
    · have := (List.pairwise_cons.mp hafter).1 i hi
      omega

/-- The new region gets a place in the window exactly when one of the gaps that are looked at has
room. -/
theorem Ascends.inWindow_iff (h : Ascends l (heapStart - vmallocStart)) :
    InWindow l (vmAddToList l size).1 size ↔ RoomBehind size l := by
  cases l with
  | nil => exact ⟨fun hw => hw.high, fun hr => ⟨le_rfl, hr, nofun⟩⟩
  | cons head rest =>
    obtain ⟨heq, hgap⟩ := findGap_spec (VmFits size) head rest
    have hkeep : RoomBehind size (head :: rest) →
        RoomBehind size ((findGap (VmFits size) head rest).2.1 :: (findGap (VmFits size) head rest).2.2) :=
      fun hr => (findGap_inv (VmFits size) (P := fun i l => RoomBehind size (i :: l)) (fun i j l hfit hroom =>
        hroom.resolve_left fun hle => hfit ((Nat.mod_le ..).trans hle)) head rest hr)
    change InWindow (head :: rest) (((findGap (VmFits size) head rest).2.1.base +
      (findGap (VmFits size) head rest).2.1.size) % 2 ^ 64) size ↔ _
    generalize (findGap (VmFits size) head rest).1 = passed at heq
    generalize (findGap (VmFits size) head rest).2.1 = behind at heq hgap hkeep ⊢
    generalize (findGap (VmFits size) head rest).2.2 = after at heq hgap hkeep
    rw [heq] at h hkeep ⊢
    have hend := h.end_lt (List.mem_append_right _ List.mem_cons_self : behind ∈ passed ++ behind :: after)
    obtain ⟨-, hheap⟩ := heapStart_eq
    rw [Nat.mod_eq_of_lt hend]
    constructor
    · intro hw
      have hhigh := hw.high
      refine RoomBehind.append ?_
      cases after with
      | nil => exact hhigh
      | cons next rest =>
        have hfit : (behind.base + behind.size + size) % 2 ^ 64 ≤ next.base := hgap next rest rfl
        rw [Nat.mod_eq_of_lt (by omega)] at hfit
        exact .inl hfit
    · intro hr
      have hle := (hkeep hr).le (h.sublist (List.sublist_append_right passed _))
      refine h.inWindow_behind hle fun next rest hafter => ?_
      have hfit : (behind.base + behind.size + size) % 2 ^ 64 ≤ next.base := hgap next rest hafter
      rwa [Nat.mod_eq_of_lt (by omega)] at hfit

/-- The space behind the last region is room for the new one. -/
theorem Ascends.roomBehind (h : Ascends l n) (hn : n + size ≤ heapStart - vmallocStart) : RoomBehind size l := by
  obtain ⟨hwin, -⟩ := heapStart_eq
  induction l with
  | nil =>
    change vmallocStart + size ≤ heapStart
    omega
  | cons i l ih =>
    cases l with
    | nil =>
      have hhigh := h.high i List.mem_cons_self
      change i.base + i.size + size ≤ heapStart
      omega
    | cons j l => exact .inr (ih (h.sublist (List.sublist_cons_self i (j :: l))))

/-- A free place behind the first region is not below the one that is found. -/
theorem InWindow.vmAddToList_le {head : VmInfo} {rest : List VmInfo} {b : ℕ} (hb : InWindow (head :: rest) b size)
    (hhead : head.base + head.size ≤ b) :
    (vmAddToList (head :: rest) size).1 ≤ b := by
  obtain ⟨-, hheap⟩ := heapStart_eq
  have hhigh := hb.high
  have hfound := findGap_inv (VmFits size)
    (P := fun i l => i.base + i.size ≤ b ∧ ∀ j ∈ l, b + size ≤ j.base ∨ j.base + j.size ≤ b)
    (fun i j l hfit ⟨hi, hl⟩ => by
      refine ⟨?_, fun j' hj => hl j' (List.mem_cons_of_mem j hj)⟩
      rcases hl j List.mem_cons_self with hj | hj
      · -- the place would be a gap that fits
        refine absurd ?_ hfit
        unfold VmFits
        rw [Nat.mod_eq_of_lt (by omega)]
        omega
      · exact hj)
    head rest ⟨hhead, fun j hj => hb.apart j (List.mem_cons_of_mem head hj)⟩
  exact (Nat.mod_le ..).trans hfound.1

/-- The place is the first one exactly when there is none in front of the first region. -/
theorem Ascends.firstFit_iff (h : Ascends l n) (hn : n + size ≤ heapStart - vmallocStart) :
    FirstFit l (vmAddToList l size).1 size ↔ l = [] ∨ ∃ i ∈ l, i.base < vmallocStart + size := by
  obtain ⟨hwin, -⟩ := heapStart_eq
  have hlow : Ascends l (heapStart - vmallocStart) :=
    ⟨h.pos, h.low, fun i hi => (h.high i hi).trans (by omega), h.sorted⟩
  have hplaced := hlow.inWindow_iff.mpr (h.roomBehind hn)
  cases l with
  | nil => exact ⟨fun _ => .inl rfl, fun _ => ⟨hplaced, fun b hb => hb.low⟩⟩
  | cons head rest =>
    have hhead : head ∈ head :: rest := List.mem_cons_self
    have hsorted := (List.pairwise_cons.mp h.sorted).1
    constructor
    · intro hf
      refine .inr ?_
      by_contra hfront
      simp only [not_exists, not_and, not_lt] at hfront
      have hstart : InWindow (head :: rest) vmallocStart size :=
        ⟨le_rfl, by have := h.high head hhead; have := hfront head hhead; omega, fun i hi => .inl (hfront i hi)⟩
      have hle := hf.first vmallocStart hstart
      obtain ⟨heq, -⟩ := findGap_spec (VmFits size) head rest
      have hmem : (findGap (VmFits size) head rest).2.1 ∈ head :: rest := by
        rw [heq]
        exact List.mem_append_right _ List.mem_cons_self
      have hpos := h.pos _ hmem
      have hge := h.low _ hmem
      have hend := hlow.end_lt hmem
      change ((findGap (VmFits size) head rest).2.1.base + (findGap (VmFits size) head rest).2.1.size) % 2 ^ 64 ≤ _
        at hle
      rw [Nat.mod_eq_of_lt hend] at hle
      omega
    · rintro (hnil | ⟨i, hi, hfront⟩)
      · exact nomatch hnil
      · refine ⟨hplaced, fun b hb => hb.vmAddToList_le ?_⟩
        rcases hb.apart head hhead with hfree | hend
        · have hb0 := hb.low
          have hpos := h.pos head hhead
          rcases List.mem_cons.mp hi with rfl | hi
          · omega
          · have := hsorted i hi
            omega
        · exact hend

end Window

/-! ## The area of the user stacks -/

/-- The stack lies in the area and apart from those in the list. -/
structure InArea (l : List UsInfo) (base size : ℕ) : Prop where
  low : size ≤ base
  high : base ≤ userStackMax
  apart : ∀ i ∈ l, i.base + size ≤ base ∨ base + i.size ≤ i.base

/-- The highest place in the area that is free. -/
structure FirstFitDown (l : List UsInfo) (base size : ℕ) : Prop where
  fits : InArea l base size
  first : ∀ b, InArea l b size → b ≤ base

/-- Below a stack there are `size` bytes before the next one, or below the last one before address 0. -/
def RoomBelow (size : ℕ) : List UsInfo → Prop
  | [] => size ≤ userStackMax
  | [i] => i.size + size ≤ i.base
  | i :: j :: l => j.base + i.size + size ≤ i.base ∨ RoomBelow size (j :: l)

section Area
variable {l passed below : List UsInfo} {i j above : UsInfo} {size total : ℕ}

theorem RoomBelow.append (h : RoomBelow size (above :: below)) : RoomBelow size (passed ++ above :: below) := by
  induction passed with
  | nil => exact h
  | cons i passed ih =>
    cases passed with
    | nil => exact .inr ih
    | cons j passed => exact .inr ih

/-- Room anywhere below a stack is room above address 0. -/
theorem RoomBelow.le (h : RoomBelow size (i :: l)) (hd : Descends (i :: l)) : i.size + size ≤ i.base := by
  induction l generalizing i with
  | nil => exact h
  | cons j l ih =>
    have hj : j ∈ i :: j :: l := by simp
    have hij := (List.pairwise_cons.mp hd.sorted).1 j List.mem_cons_self
    rcases h with hgap | hroom
    · omega
    · have := ih hroom (hd.sublist (List.sublist_cons_self i (j :: l)))
      omega

theorem Descends.sub64_size (h : Descends l) (hi : i ∈ l) : sub64 i.base i.size = i.base - i.size := by
  have hmax := userStackMax_eq
  have hhigh := h.high i hi
  exact sub64_eq (by omega) (h.fits i hi)

/-- A gap that fits without a wrap. -/
theorem Descends.usFits_iff (h : Descends l) (hi : i ∈ l) (hroom : i.size + size ≤ i.base) :
    UsFits size i j ↔ j.base + i.size + size ≤ i.base := by
  have hmax := userStackMax_eq
  have hhigh := h.high i hi
  unfold UsFits
  rw [h.sub64_size hi, sub64_eq (by omega) (by omega)]
  omega

/-- The place below a stack that is followed by room. -/
theorem Descends.inArea_below (h : Descends (passed ++ above :: below)) (hroom : above.size + size ≤ above.base)
    (hgap : ∀ next rest, below = next :: rest → next.base + above.size + size ≤ above.base) :
    InArea (passed ++ above :: below) (above.base - above.size) size := by
  have habove : above ∈ passed ++ above :: below := List.mem_append_right _ List.mem_cons_self
  have hhigh := h.high above habove
  obtain ⟨-, hrest, hcross⟩ := List.pairwise_append.mp h.sorted
  obtain ⟨-, hbelow⟩ := List.pairwise_cons.mp hrest
  refine ⟨by omega, by omega, fun i hi => ?_⟩
  rcases List.mem_append.mp hi with hi | hi
  · have := hcross i hi above List.mem_cons_self
    omega
  rcases List.mem_cons.mp hi with rfl | hi
  · omega
  cases below with
  | nil => exact absurd hi List.not_mem_nil
  | cons next rest =>
    have hnext := hgap next rest rfl
    rcases List.mem_cons.mp hi with rfl | hi
    · omega
    · have := (List.pairwise_cons.mp hbelow).1 i hi
      omega

/-- The new stack gets a place in the area exactly when one of the gaps that are looked at has room. -/
theorem Descends.inArea_iff (h : Descends l) : InArea l (usAddToList l size).1 size ↔ RoomBelow size l := by
  cases l with
  | nil => exact ⟨fun hw => hw.low, fun hr => ⟨hr, le_rfl, nofun⟩⟩
  | cons head rest =>
    obtain ⟨heq, hgap⟩ := findGap_spec (UsFits size) head rest
    have hkeep : RoomBelow size (head :: rest) →
        RoomBelow size ((findGap (UsFits size) head rest).2.1 :: (findGap (UsFits size) head rest).2.2) := fun hr =>
      (findGap_inv (UsFits size) (P := fun i l => Descends (i :: l) ∧ RoomBelow size (i :: l))
        (fun i j l hfit ⟨hd, hroom⟩ => ⟨hd.sublist (List.sublist_cons_self i (j :: l)), hroom.resolve_left fun hle =>
          hfit ((hd.usFits_iff List.mem_cons_self (by omega)).mpr hle)⟩) head rest ⟨h, hr⟩).2
    change InArea (head :: rest) (sub64 (findGap (UsFits size) head rest).2.1.base
      (findGap (UsFits size) head rest).2.1.size) size ↔ _
    generalize (findGap (UsFits size) head rest).1 = passed at heq
    generalize (findGap (UsFits size) head rest).2.1 = above at heq hgap hkeep ⊢
    generalize (findGap (UsFits size) head rest).2.2 = below at heq hgap hkeep
    rw [heq] at h hkeep ⊢
    have habove : above ∈ passed ++ above :: below := List.mem_append_right _ List.mem_cons_self
    have hfits := h.fits above habove
    rw [h.sub64_size habove]
    constructor
    · intro hw
      have hlow := hw.low
      refine RoomBelow.append ?_
      cases below with
      | nil =>
        change above.size + size ≤ above.base
        omega
      | cons next rest => exact .inl ((h.usFits_iff habove (by omega)).mp (hgap next rest rfl))
    · intro hr
      have hle := (hkeep hr).le (h.sublist (List.sublist_append_right passed _))
      exact h.inArea_below hle fun next rest hbelow => (h.usFits_iff habove hle).mp (hgap next rest hbelow)

/-- The space below the last stack is room for the new one. -/
theorem Descends.roomBelow (h : ∀ i ∈ l, userStackMax + i.size ≤ i.base + total) (hn : total + size ≤ userStackMax) :
    RoomBelow size l := by
  induction l with
  | nil =>
    change size ≤ userStackMax
    omega
  | cons i l ih =>
    cases l with
    | nil =>
      have hlow := h i List.mem_cons_self
      change i.size + size ≤ i.base
      omega
    | cons j l => exact .inr (ih fun i' hi => h i' (List.mem_cons_of_mem i hi))

/-- A free place below the first stack is not above the one that is found. -/
theorem InArea.le_usAddToList {head : UsInfo} {rest : List UsInfo} {b : ℕ} (hb : InArea (head :: rest) b size)
    (hd : Descends (head :: rest)) (hhead : b + head.size ≤ head.base) : b ≤ (usAddToList (head :: rest) size).1 := by
  have hlow := hb.low
  have hfound := findGap_inv (UsFits size)
    (P := fun i l => Descends (i :: l) ∧ b + i.size ≤ i.base ∧ ∀ j ∈ l, j.base + size ≤ b ∨ b + j.size ≤ j.base)
    (fun i j l hfit ⟨hd, hi, hl⟩ => by
      refine ⟨hd.sublist (List.sublist_cons_self i (j :: l)), ?_, fun j' hj => hl j' (List.mem_cons_of_mem j hj)⟩
      rcases hl j List.mem_cons_self with hj | hj
      · -- the place would be a gap that fits
        exact absurd ((hd.usFits_iff List.mem_cons_self (by omega)).mpr (by omega)) hfit
      · exact hj)
    head rest ⟨hd, hhead, fun j hj => hb.apart j (List.mem_cons_of_mem head hj)⟩
  change b ≤ sub64 _ _
  rw [hfound.1.sub64_size List.mem_cons_self]
  omega

/-- The place is the first one exactly when there is none above the first stack. -/
theorem Descends.firstFit_iff (h : Descends l) (hlast : ∀ i ∈ l, userStackMax + i.size ≤ i.base + total)
    (hn : total + size ≤ userStackMax) :
    FirstFitDown l (usAddToList l size).1 size ↔ l = [] ∨ ∃ i ∈ l, userStackMax < i.base + size := by
  have hplaced := h.inArea_iff.mpr (Descends.roomBelow hlast hn)
  cases l with
  | nil => exact ⟨fun _ => .inl rfl, fun _ => ⟨hplaced, fun b hb => hb.high⟩⟩
  | cons head rest =>
    have hhead : head ∈ head :: rest := List.mem_cons_self
    have hsorted := (List.pairwise_cons.mp h.sorted).1
    constructor
    · intro hf
      refine .inr ?_
      by_contra hfront
      simp only [not_exists, not_and, not_lt] at hfront
      have hstart : InArea (head :: rest) userStackMax size :=
        ⟨by omega, le_rfl, fun i hi => .inl (hfront i hi)⟩
      have hle := hf.first userStackMax hstart
      obtain ⟨heq, -⟩ := findGap_spec (UsFits size) head rest
      have hmem : (findGap (UsFits size) head rest).2.1 ∈ head :: rest := by
        rw [heq]
        exact List.mem_append_right _ List.mem_cons_self
      have hpos := h.pos _ hmem
      have hhigh := h.high _ hmem
      have hfits := h.fits _ hmem
      change _ ≤ sub64 (findGap (UsFits size) head rest).2.1.base (findGap (UsFits size) head rest).2.1.size at hle
      rw [h.sub64_size hmem] at hle
      omega
    · rintro (hnil | ⟨i, hi, hfront⟩)
      · exact nomatch hnil
      · refine ⟨hplaced, fun b hb => hb.le_usAddToList h ?_⟩
        rcases hb.apart head hhead with hfree | hend
        · have hb0 := hb.high
          rcases List.mem_cons.mp hi with rfl | hi
          · omega
          · have := hsorted i hi
            omega
        · exact hend

end Area

/-! ## Calls -/

/-- What `vmalloc` owes: no region, or one in the window and apart from the others. -/
def VmPlaced (s s' : VmRecords) (l : List ℕ) (info base size : ℕ) : Prop :=
  base = 0 ∧ s' = s ∨ (s'.infos info).region = ⟨base, size⟩ ∧ InWindow (regionsOf s.infos l) base size

/-- What `user_alloc_stack` owes. -/
def UsPlaced (k k' : Kernel) (l : List ℕ) (info base size : ℕ) : Prop :=
  base = 0 ∧ k' = k ∨ (k'.usInfos info).stack = ⟨base, size⟩ ∧ InArea (stacksOf k.usInfos l) base size

/-- The new record of a call is not in the list as it was. -/
theorem not_same_list {next prev : ℕ → ℕ} {null head i : ℕ} {l l' : List ℕ} (h : IsList next prev null head l)
    (h' : IsList next prev null head l') (hp : l'.Perm (i :: l)) : False := by
  have hlen := hp.length_eq
  rw [h'.unique h, List.length_cons] at hlen
  omega

theorem vmalloc_placed_iff {s : VmRecords} {l : List ℕ} (h : VmList s.infos s.vmallocListHead l)
    (ha : Ascends (regionsOf s.infos l) (heapStart - vmallocStart)) (cr3 : ℕ) {info : ℕ} (hi : info ∉ l) (size : ℕ) :
    ∃ base s', s.vmalloc cr3 info size = some (base, s') ∧
      (VmPlaced s s' l info base size ↔ size = 0 ∨ info = 0 ∨ RoomBehind size (regionsOf s.infos l)) := by
  by_cases hsize : size = 0
  · exact ⟨0, s, if_pos hsize, fun _ => .inl hsize, fun _ => .inl ⟨rfl, rfl⟩⟩
  by_cases hinfo : info = 0
  · refine ⟨0, s, ?_, fun _ => .inr (.inl hinfo), fun _ => .inl ⟨rfl, rfl⟩⟩
    unfold VmRecords.vmalloc
    rw [if_neg hsize, if_pos hinfo]
  have hlen : l.length < 2 ^ 64 := by
    have hle := ha.length_le
    obtain ⟨hwin, hend⟩ := heapStart_eq
    rw [regionsOf, List.length_map] at hle
    omega
  obtain ⟨base, s', l', hcall, hadd⟩ := VmRecords.vmalloc_added h hlen hi hinfo (Nat.pos_of_ne_zero hsize) cr3
  refine ⟨base, s', hcall, ?_⟩
  have hiff : InWindow _ (vmAddToList _ size).1 size ↔ _ := ha.inWindow_iff
  rw [hadd.place] at hiff
  constructor
  · rintro (⟨-, rfl⟩ | ⟨-, hw⟩)
    · exact (not_same_list h hadd.list hadd.perm).elim
    · exact .inr (.inr (hiff.mp hw))
  · exact fun hr => .inr ⟨hadd.region, hiff.mpr ((hr.resolve_left hsize).resolve_left hinfo)⟩

theorem userAllocStack_placed_iff {k : Kernel} {l : List ℕ} (h : UsList k.usInfos k.usListHead l)
    (hd : Descends (stacksOf k.usInfos l)) {info : ℕ} (hi : info ∉ l) (size : ℕ) :
    ∃ base k', k.userAllocStack info size = some (base, k') ∧
      (UsPlaced k k' l info base size ↔ size = 0 ∨ info = 0 ∨ RoomBelow size (stacksOf k.usInfos l)) := by
  by_cases hsize : size = 0
  · exact ⟨0, k, if_pos hsize, fun _ => .inl hsize, fun _ => .inl ⟨rfl, rfl⟩⟩
  by_cases hinfo : info = 0
  · refine ⟨0, k, ?_, fun _ => .inr (.inl hinfo), fun _ => .inl ⟨rfl, rfl⟩⟩
    unfold Kernel.userAllocStack
    rw [if_neg hsize, if_pos hinfo]
  have hlen : l.length < 2 ^ 64 := by
    have hle := hd.length_le hd.high
    have hmax := userStackMax_eq
    rw [stacksOf, List.length_map] at hle
    omega
  obtain ⟨base, k', l', hcall, hadd⟩ := userAllocStack_added h hlen hi hinfo (Nat.pos_of_ne_zero hsize)
  refine ⟨base, k', hcall, ?_⟩
  have hiff : InArea _ (usAddToList _ size).1 size ↔ _ := hd.inArea_iff
  rw [hadd.place] at hiff
  constructor
  · rintro (⟨-, rfl⟩ | ⟨-, hw⟩)
    · exact (not_same_list h hadd.list hadd.perm).elim
    · exact .inr (.inr (hiff.mp hw))
  · exact fun hr => .inr ⟨hadd.stack, hiff.mpr ((hr.resolve_left hsize).resolve_left hinfo)⟩

/-- A call places its region in the window and apart from the others, or gives none, exactly when there is
nothing to place or one of the gaps behind a region has room. -/
theorem region_placement_iff (cr3 info size : ℕ) :
    (∀ (s : VmRecords) (l : List ℕ), VmList s.infos s.vmallocListHead l →
      Ascends (regionsOf s.infos l) (heapStart - vmallocStart) → info ∉ l →
        ∃ base s', s.vmalloc cr3 info size = some (base, s') ∧
          (VmPlaced s s' l info base size ↔ size = 0 ∨ info = 0 ∨ RoomBehind size (regionsOf s.infos l))) ∧
    ∀ (k : Kernel) (l : List ℕ), UsList k.usInfos k.usListHead l → Descends (stacksOf k.usInfos l) →
      info ∉ l → ∃ base k', k.userAllocStack info size = some (base, k') ∧
        (UsPlaced k k' l info base size ↔ size = 0 ∨ info = 0 ∨ RoomBelow size (stacksOf k.usInfos l)) :=
  ⟨fun _ _ h ha hi => vmalloc_placed_iff h ha cr3 hi size, fun _ _ h hd hi => userAllocStack_placed_iff h hd hi size⟩

/-- One page at the start of the window. -/
def oneRegion : VmRecords :=
  ⟨fun _ => ⟨vmallocStart, 0x1000, 0, 0⟩, 0x100, emptySpace⟩

theorem oneRegion_list : VmList oneRegion.infos oneRegion.vmallocListHead [0x100] ∧
    Ascends (regionsOf oneRegion.infos [0x100]) (heapStart - vmallocStart) := by
  refine ⟨⟨List.nodup_singleton _, by decide, rfl, rfl, rfl⟩, ?_, ?_, ?_, List.pairwise_singleton ..⟩
  all_goals
    intro i hi
    obtain rfl := List.mem_singleton.mp hi
    decide

theorem region_placement_iff_one :
    (∃ base s', oneRegion.vmalloc 0x1000 0x200 0x2000 = some (base, s') ∧
      VmPlaced oneRegion s' [0x100] 0x200 base 0x2000) ∧
    ∃ base k', Kernel.beforeBoot.userAllocStack 0x200 0x2000 = some (base, k') ∧
      UsPlaced Kernel.beforeBoot k' [] 0x200 base 0x2000 := by
  constructor
  · obtain ⟨base, s', hcall, hiff⟩ := (region_placement_iff 0x1000 0x200 0x2000).1 oneRegion [0x100]
      oneRegion_list.1 oneRegion_list.2 (by decide)
    refine ⟨base, s', hcall, hiff.mpr (.inr (.inr ?_))⟩
    change vmallocStart + 0x1000 + 0x2000 ≤ heapStart
    decide
  · obtain ⟨base, k', hcall, hiff⟩ := (region_placement_iff 0 0x200 0x2000).2 Kernel.beforeBoot []
      IsList.nil Descends.nil List.not_mem_nil
    exact ⟨base, k', hcall, hiff.mpr (.inr (.inr (show 0x2000 ≤ userStackMax by decide)))⟩

/-- A region of 2 ^ 46 bytes behind the first one ends beyond the heap. -/
theorem vmalloc_leaves_window : ¬∀ (s : VmRecords) (l : List ℕ) (cr3 info size base : ℕ) (s' : VmRecords),
    VmList s.infos s.vmallocListHead l → Ascends (regionsOf s.infos l) (heapStart - vmallocStart) → info ∉ l →
      size < 2 ^ 64 → s.vmalloc cr3 info size = some (base, s') → VmPlaced s s' l info base size := by
  intro h
  rcases h oneRegion [0x100] 0x1000 0x200 (2 ^ 46) (vmallocStart + 0x1000) _ oneRegion_list.1 oneRegion_list.2
    (by decide) (by decide) rfl with ⟨hnull, -⟩ | ⟨-, hw⟩
  · exact absurd hnull (by decide)
  · exact absurd hw.high (by decide)

/-! ## Runs -/

theorem firstFit_perm {l l' : List VmInfo} (h : l.Perm l') (base size : ℕ) :
    FirstFit l base size ↔ FirstFit l' base size := by
  have hwin : ∀ b, InWindow l b size ↔ InWindow l' b size := fun b =>
    ⟨fun hw => ⟨hw.low, hw.high, fun i hi => hw.apart i (h.mem_iff.mpr hi)⟩,
      fun hw => ⟨hw.low, hw.high, fun i hi => hw.apart i (h.mem_iff.mp hi)⟩⟩
  exact ⟨fun hf => ⟨(hwin base).mp hf.fits, fun b hb => hf.first b ((hwin b).mpr hb)⟩,
    fun hf => ⟨(hwin base).mpr hf.fits, fun b hb => hf.first b ((hwin b).mp hb)⟩⟩

theorem firstFitDown_perm {l l' : List UsInfo} (h : l.Perm l') (base size : ℕ) :
    FirstFitDown l base size ↔ FirstFitDown l' base size := by
  have hwin : ∀ b, InArea l b size ↔ InArea l' b size := fun b =>
    ⟨fun hw => ⟨hw.low, hw.high, fun i hi => hw.apart i (h.mem_iff.mpr hi)⟩,
      fun hw => ⟨hw.low, hw.high, fun i hi => hw.apart i (h.mem_iff.mp hi)⟩⟩
  exact ⟨fun hf => ⟨(hwin base).mp hf.fits, fun b hb => hf.first b ((hwin b).mpr hb)⟩,
    fun hf => ⟨(hwin base).mpr hf.fits, fun b hb => hf.first b ((hwin b).mp hb)⟩⟩

/-- A condition on the list in terms of the live regions. -/
theorem nil_or_exists_perm {α β : Type*} {l : List β} {live : List (α × β)} (h : l.Perm (live.map Prod.snd))
    (p : β → Prop) : (l = [] ∨ ∃ i ∈ l, p i) ↔ (live = [] ∨ ∃ r ∈ live, p r.2) := by
  have hnil : l = [] ↔ live = [] := by
    rw [← List.length_eq_zero_iff, h.length_eq, List.length_map, List.length_eq_zero_iff]
  rw [hnil]
  refine or_congr_right ⟨fun ⟨i, hi, hp⟩ => ?_, fun ⟨r, hr, hp⟩ => ?_⟩
  · obtain ⟨r, hr, rfl⟩ := List.mem_map.mp (h.mem_iff.mp hi)
    exact ⟨r, hr, hp⟩
  · exact ⟨r.2, h.mem_iff.mpr (List.mem_map_of_mem hr), hp⟩

theorem RegionCalls.firstFit_iff {s₀ s : VmRecords} {live : List (ℕ × VmInfo)} {total info size : ℕ}
    (h : RegionCalls s₀ s live total) (cr3 : ℕ) (hsize : 0 < size) (hinfo : info ≠ 0) (hnew : info ∉ live.map Prod.fst)
    (hn : total + size ≤ heapStart - vmallocStart) : ∃ base s', s.vmalloc cr3 info size = some (base, s') ∧
      (FirstFit (live.map Prod.snd) base size ↔ live = [] ∨ ∃ r ∈ live, r.2.base < vmallocStart + size) := by
  obtain ⟨l, hl⟩ := h.regions (by omega)
  obtain ⟨base, s', l', hcall, hadd⟩ := VmRecords.vmalloc_added hl.list (hl.length_lt (by omega))
    (fun hm => hnew ((hl.mem_iff info).mp hm)) hinfo hsize cr3
  refine ⟨base, s', hcall, ?_⟩
  have hiff : FirstFit _ (vmAddToList _ size).1 size ↔ _ := hl.ascends.firstFit_iff hn
  have hperm : (regionsOf s.infos l).Perm (live.map Prod.snd) := by
    have := hl.live.map Prod.snd
    rwa [List.map_map] at this
  rw [hadd.place, firstFit_perm hperm, nil_or_exists_perm hperm fun i => i.base < vmallocStart + size] at hiff
  exact hiff

theorem StackCalls.firstFit_iff {k₀ k : Kernel} {live : List (ℕ × UsInfo)} {total info size : ℕ}
    (h : StackCalls k₀ k live total) (hsize : 0 < size) (hinfo : info ≠ 0) (hnew : info ∉ live.map Prod.fst)
    (hn : total + size ≤ userStackMax) : ∃ base k', k.userAllocStack info size = some (base, k') ∧
      (FirstFitDown (live.map Prod.snd) base size ↔ live = [] ∨ ∃ r ∈ live, userStackMax < r.2.base + size) := by
  obtain ⟨l, hl⟩ := h.regions (by omega)
  obtain ⟨base, k', l', hcall, hadd⟩ := userAllocStack_added hl.list hl.length_lt
    (fun hm => hnew ((hl.mem_iff info).mp hm)) hinfo hsize
  refine ⟨base, k', hcall, ?_⟩
  have hiff : FirstFitDown _ (usAddToList _ size).1 size ↔ _ := hl.descends.firstFit_iff hl.low hn
  have hperm : (stacksOf k.usInfos l).Perm (live.map Prod.snd) := by
    have := hl.live.map Prod.snd
    rwa [List.map_map] at this
  rw [hadd.place, firstFitDown_perm hperm, nil_or_exists_perm hperm fun i => userStackMax < i.base + size] at hiff
  exact hiff

/-- In every run a new region goes to the first place that is free exactly when no region is live or the space
in front of the first one is too small. -/
theorem region_first_fit_iff (cr3 : ℕ) {info size : ℕ} (hsize : 0 < size) (hinfo : info ≠ 0) :
    (∀ (s₀ s : VmRecords) (live : List (ℕ × VmInfo)) (total : ℕ), RegionCalls s₀ s live total →
      info ∉ live.map Prod.fst → total + size ≤ heapStart - vmallocStart →
        ∃ base s', s.vmalloc cr3 info size = some (base, s') ∧
          (FirstFit (live.map Prod.snd) base size ↔ live = [] ∨ ∃ r ∈ live, r.2.base < vmallocStart + size)) ∧
    ∀ (k₀ k : Kernel) (live : List (ℕ × UsInfo)) (total : ℕ), StackCalls k₀ k live total →
      info ∉ live.map Prod.fst → total + size ≤ userStackMax →
        ∃ base k', k.userAllocStack info size = some (base, k') ∧
          (FirstFitDown (live.map Prod.snd) base size ↔ live = [] ∨ ∃ r ∈ live, userStackMax < r.2.base + size) :=
  ⟨fun _ _ _ _ h hnew hn => h.firstFit_iff cr3 hsize hinfo hnew hn,
    fun _ _ _ _ h hnew hn => h.firstFit_iff hsize hinfo hnew hn⟩

/-- No region is live. -/
def noRegions : VmRecords := ⟨fun _ => ⟨0, 0, 0, 0⟩, 0, emptySpace⟩

/-- Three regions of one page, of which the second is freed. -/
theorem noRegions_reused : ∃ s, RegionCalls noRegions s
    [(0x300, ⟨vmallocStart + 0x2000, 0x1000⟩), (0x100, ⟨vmallocStart, 0x1000⟩)] 0x3000 := by
  have h1 : RegionCalls noRegions _ [(0x100, ⟨vmallocStart, 0x1000⟩)] 0x1000 :=
    (RegionCalls.init rfl).vmalloc 0x1000 0x100 0x1000 (by decide) (by decide) (by decide) rfl
  have h2 : RegionCalls noRegions _ [(0x200, ⟨vmallocStart + 0x1000, 0x1000⟩), (0x100, ⟨vmallocStart, 0x1000⟩)]
      0x2000 := h1.vmalloc 0x1000 0x200 0x1000 (by decide) (by decide) (by decide) rfl
  have h3 : RegionCalls noRegions _ [(0x300, ⟨vmallocStart + 0x2000, 0x1000⟩),
      (0x200, ⟨vmallocStart + 0x1000, 0x1000⟩), (0x100, ⟨vmallocStart, 0x1000⟩)] 0x3000 :=
    h2.vmalloc 0x1000 0x300 0x1000 (by decide) (by decide) (by decide) rfl
  exact ⟨_, h3.vfree 0x1000 (r := (0x200, ⟨vmallocStart + 0x1000, 0x1000⟩)) (by decide) rfl⟩

/-- Three stacks of one page, of which the second is freed. -/
theorem beforeBoot_reused : ∃ k, StackCalls Kernel.beforeBoot k
    [(0x300, ⟨userStackMax - 0x2000, 0x1000⟩), (0x100, ⟨userStackMax, 0x1000⟩)] 0x3000 := by
  have h1 : StackCalls Kernel.beforeBoot _ [(0x100, ⟨userStackMax, 0x1000⟩)] 0x1000 :=
    (StackCalls.init rfl).alloc (by decide) (by decide) (by decide) rfl
  have h2 : StackCalls Kernel.beforeBoot _ [(0x200, ⟨userStackMax - 0x1000, 0x1000⟩), (0x100, ⟨userStackMax, 0x1000⟩)]
      0x2000 := h1.alloc (by decide) (by decide) (by decide) rfl
  have h3 : StackCalls Kernel.beforeBoot _ [(0x300, ⟨userStackMax - 0x2000, 0x1000⟩),
      (0x200, ⟨userStackMax - 0x1000, 0x1000⟩), (0x100, ⟨userStackMax, 0x1000⟩)] 0x3000 :=
    h2.alloc (by decide) (by decide) (by decide) rfl
  exact ⟨_, h3.free (r := (0x200, ⟨userStackMax - 0x1000, 0x1000⟩)) (by decide) rfl⟩

/-- With the page in the middle freed, the next region of one page takes it. -/
theorem region_first_fit_iff_reused :
    (∃ s base s', RegionCalls noRegions s
      [(0x300, ⟨vmallocStart + 0x2000, 0x1000⟩), (0x100, ⟨vmallocStart, 0x1000⟩)] 0x3000 ∧
      s.vmalloc 0x1000 0x400 0x1000 = some (base, s') ∧
      FirstFit [⟨vmallocStart + 0x2000, 0x1000⟩, ⟨vmallocStart, 0x1000⟩] base 0x1000) ∧
    ∃ k base k', StackCalls Kernel.beforeBoot k
      [(0x300, ⟨userStackMax - 0x2000, 0x1000⟩), (0x100, ⟨userStackMax, 0x1000⟩)] 0x3000 ∧
      k.userAllocStack 0x400 0x1000 = some (base, k') ∧
      FirstFitDown [⟨userStackMax - 0x2000, 0x1000⟩, ⟨userStackMax, 0x1000⟩] base 0x1000 := by
  constructor
  · obtain ⟨s, hrun⟩ := noRegions_reused
    obtain ⟨base, s', hcall, hiff⟩ := (region_first_fit_iff 0x1000 (show 0 < 0x1000 by decide)
      (show 0x400 ≠ 0 by decide)).1 _ _ _ _ hrun (by decide) (by decide)
    exact ⟨s, base, s', hrun, hcall, hiff.mpr (.inr ⟨_, List.mem_cons_of_mem _ List.mem_cons_self, by decide⟩)⟩
  · obtain ⟨k, hrun⟩ := beforeBoot_reused
    obtain ⟨base, k', hcall, hiff⟩ := (region_first_fit_iff 0 (show 0 < 0x1000 by decide)
      (show 0x400 ≠ 0 by decide)).2 _ _ _ _ hrun (by decide) (by decide)
    exact ⟨k, base, k', hrun, hcall, hiff.mpr (.inr ⟨_, List.mem_cons_of_mem _ List.mem_cons_self, by decide⟩)⟩

/-- Two regions of one page, of which the first is freed: the next one does not go to the start of the
window. -/
theorem vmalloc_skips_front : ∃ s₁ s₂ s₃ s₄,
    noRegions.vmalloc 0x1000 0x100 0x1000 = some (vmallocStart, s₁) ∧
    s₁.vmalloc 0x1000 0x200 0x1000 = some (vmallocStart + 0x1000, s₂) ∧
    s₂.vfree 0x1000 vmallocStart = some s₃ ∧
    s₃.vmalloc 0x1000 0x300 0x1000 = some (vmallocStart + 0x2000, s₄) ∧
    ¬FirstFit [⟨vmallocStart + 0x1000, 0x1000⟩] (vmallocStart + 0x2000) 0x1000 := by
  refine ⟨_, _, _, _, rfl, rfl, rfl, rfl, fun hf => ?_⟩
  have hle := hf.first vmallocStart ⟨le_rfl, by decide, by simp⟩
  exact absurd hle (by decide)

end PointerOS
