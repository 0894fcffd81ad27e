import PointerOS.RadixTree
import Mathlib

/-!
# Page tables and the translation of the processor

The four levels of tables of x86-64, held by frame, and the walk that the
processor makes for an address: level 3 is the PML4, level 0 a page table. The
code reads the frame of an entry by masking 12 bits away, the processor takes 40
bits of it; both agree on entries below `2 ^ 52`.
-/
namespace PointerOS

/-- The tables in physical memory: the entry of the table in a frame under an index. -/
abbrev Tables := ℕ → Fin 512 → ℕ

def ptePresent : ℕ := 2 ^ 0
def pteWritable : ℕ := 2 ^ 1
def pteUser : ℕ := 2 ^ 2
def ptePageSize : ℕ := 2 ^ 7

def present (e : ℕ) : Bool := e.testBit 0
def writable (e : ℕ) : Bool := e.testBit 1
def userBit (e : ℕ) : Bool := e.testBit 2
def pageSize (e : ℕ) : Bool := e.testBit 7

/-- `e & PAGE_MASK_4KB`: the mask is an `int` and widens with its sign. -/
def maskPage (e : ℕ) : ℕ := e / 4096 * 4096

/-- The frame that the processor reads from an entry. -/
def entryFrame (e : ℕ) : ℕ := e / 4096 % 2 ^ 40 * 4096

/-- The index of an address at a level. -/
def index (v n : ℕ) : Fin 512 := ⟨v / 2 ^ (12 + 9 * n) % 512, Nat.mod_lt _ (by decide)⟩

namespace Tables

def setEntry (T : Tables) (t : ℕ) (i : Fin 512) (e : ℕ) : Tables :=
  fun f j => if f = t ∧ j = i then e else T f j

/-- `memset` of a whole table. -/
def zeroTable (T : Tables) (t : ℕ) : Tables := fun f j => if f = t then 0 else T f j

@[simp] theorem setEntry_same (T : Tables) (t : ℕ) (i : Fin 512) (e : ℕ) :
    T.setEntry t i e t i = e := if_pos ⟨rfl, rfl⟩

theorem setEntry_of_ne (T : Tables) {t f : ℕ} {i j : Fin 512} (e : ℕ) (h : ¬(f = t ∧ j = i)) :
    T.setEntry t i e f j = T f j := if_neg h

@[simp] theorem zeroTable_same (T : Tables) (t : ℕ) (j : Fin 512) : T.zeroTable t t j = 0 := if_pos rfl

theorem zeroTable_of_ne (T : Tables) {t f : ℕ} (j : Fin 512) (h : f ≠ t) :
    T.zeroTable t f j = T f j := if_neg h

/-- The table below an entry. -/
def child (T : Tables) (f : ℕ) (i : Fin 512) : Option ℕ :=
  if present (T f i) && !pageSize (T f i) then some (entryFrame (T f i)) else none

theorem child_eq_some {T : Tables} {f g : ℕ} {i : Fin 512} : T.child f i = some g ↔
    present (T f i) = true ∧ pageSize (T f i) = false ∧ entryFrame (T f i) = g := by
  unfold child
  split_ifs with h
  · rw [Bool.and_eq_true, Bool.not_eq_true'] at h
    simp only [Option.some.injEq, h.1, h.2, true_and]
  · simp only [Bool.and_eq_true, Bool.not_eq_true', not_and, Bool.not_eq_false] at h
    simp only [false_iff, not_and]
    intro h1 h2
    rw [h h1] at h2
    exact nomatch h2

theorem child_eq_none {T : Tables} {f : ℕ} {i : Fin 512} : T.child f i = none ↔
    (present (T f i) = true → pageSize (T f i) = true) := by
  unfold child
  cases present (T f i) <;> cases pageSize (T f i) <;> simp

theorem child_congr {T T' : Tables} {f : ℕ} {i : Fin 512} (h : T' f i = T f i) :
    T'.child f i = T.child f i := by
  unfold child
  rw [h]

/-- The table that a path of indices leads to. -/
abbrev reach (T : Tables) : ℕ → List (Fin 512) → Option ℕ := Radix.reach T.child

/-- Empty tables have no paths but the empty ones. -/
theorem reach_of_empty {T : Tables} (hT : ∀ f i, T f i = 0) {r f : ℕ} {p : List (Fin 512)}
    (h : T.reach r p = some f) : p = [] ∧ f = r := by
  cases p with
  | nil => exact ⟨rfl, (Option.some.inj h).symm⟩
  | cons i p =>
    have hc : T.child r i = none := child_eq_none.mpr (by
      rw [hT]
      exact fun h => nomatch h)
    rw [reach, Radix.reach_cons, hc] at h
    exact nomatch h

end Tables

/-- What the processor knows of a mapped address. -/
@[ext] structure Translation where
  paddr : ℕ
  writable : Bool
  user : Bool
deriving DecidableEq

/-- The translation by a last entry, of level `n`. -/
def leaf (e v n : ℕ) : Translation where
  paddr := e / 2 ^ (12 + 9 * n) % 2 ^ (40 - 9 * n) * 2 ^ (12 + 9 * n) + v % 2 ^ (12 + 9 * n)
  writable := PointerOS.writable e
  user := PointerOS.userBit e

/-- A permission holds when every entry of the walk gives it. -/
def Translation.under (x : Translation) (e : ℕ) : Translation :=
  { x with writable := x.writable && PointerOS.writable e, user := x.user && PointerOS.userBit e }

namespace Tables

/-- The walk for `v` from a table of level `n`. The page-size bit is reserved in the
PML4 and ends the walk at the levels 2 and 1. -/
def walkFrom (T : Tables) (v : ℕ) : ℕ → ℕ → Option Translation
  | 0, f =>
    if present (T f (index v 0)) then some (leaf (T f (index v 0)) v 0) else none
  | n + 1, f =>
    if present (T f (index v (n + 1))) then
      if pageSize (T f (index v (n + 1))) then
        if n + 1 = 3 then none else some (leaf (T f (index v (n + 1))) v (n + 1))
      else (walkFrom T v n (entryFrame (T f (index v (n + 1))))).map (·.under (T f (index v (n + 1))))
    else none

/-- The translation of `v` in the address space of a PML4. -/
def walk (T : Tables) (pml4 v : ℕ) : Option Translation := T.walkFrom v 3 pml4

end Tables

/-- The indices of an address from level `n` down. -/
def indices (v : ℕ) : ℕ → List (Fin 512)
  | 0 => [index v 0]
  | n + 1 => index v (n + 1) :: indices v n

theorem indices_three (v : ℕ) : indices v 3 = [index v 3, index v 2, index v 1, index v 0] := rfl

theorem length_indices (v n : ℕ) : (indices v n).length = n + 1 := by
  induction n with
  | zero => rfl
  | succ n ih => rw [indices, List.length_cons, ih]

theorem index_congr {v w : ℕ} (h : w / 4096 = v / 4096) (n : ℕ) : index w n = index v n := by
  have hsplit : ∀ x : ℕ, x / 2 ^ (12 + 9 * n) = x / 4096 / 2 ^ (9 * n) := fun x => by
    rw [Nat.pow_add, Nat.div_div_eq_div_mul]
  simp only [index, hsplit, h]

/-- The indices of an address are those of its page, up to the 36 bits that count. -/
theorem indices_eq_iff {v w : ℕ} :
    indices v 3 = indices w 3 ↔ v / 4096 % 2 ^ 36 = w / 4096 % 2 ^ 36 := by
  simp only [indices_three, List.cons.injEq, index, Fin.mk.injEq, and_true]
  omega

namespace Tables
variable {T T' : Tables} {v : ℕ}

/-- A walk reads one entry in each table of its path. -/
theorem walkFrom_congr {n t : ℕ} (h : ∀ p i s f, indices v n = p ++ i :: s →
    T.reach t p = some f → T' f i = T f i) : T'.walkFrom v n t = T.walkFrom v n t := by
  induction n generalizing t with
  | zero => simp only [walkFrom, h [] (index v 0) [] t rfl rfl]
  | succ n ih =>
    have h0 := h [] (index v (n + 1)) (indices v n) t rfl rfl
    simp only [walkFrom, h0]
    split_ifs with hp hs hn <;> try rfl
    rw [ih]
    intro p i s f hi hf
    refine h (index v (n + 1) :: p) i s f (by rw [indices, hi, List.cons_append]) ?_
    have hc : T.child t (index v (n + 1)) = some (entryFrame (T t (index v (n + 1)))) :=
      child_eq_some.mpr ⟨hp, by simpa using hs, rfl⟩
    change (T.child t _).bind _ = _
    rw [hc]
    exact hf

theorem walk_congr {r : ℕ} (h : ∀ p i s f, indices v 3 = p ++ i :: s →
    T.reach r p = some f → T' f i = T f i) : T'.walk r v = T.walk r v :=
  walkFrom_congr h

/-- The walk of an address whose tables are all there. -/
theorem walkFrom_step {n t f : ℕ} (h : T.child t (index v (n + 1)) = some f) :
    T.walkFrom v (n + 1) t = (T.walkFrom v n f).map (·.under (T t (index v (n + 1)))) := by
  obtain ⟨hp, hs, rfl⟩ := child_eq_some.mp h
  rw [walkFrom, if_pos hp, hs]
  rfl

/-- The walk of a page whose page table is there. -/
theorem walk_of_reach {r pt : ℕ} (h : T.reach r [index v 3, index v 2, index v 1] = some pt) :
    ∃ f2 f1, T.reach r [index v 3] = some f2 ∧ T.reach r [index v 3, index v 2] = some f1 ∧
      present (T r (index v 3)) = true ∧ present (T f2 (index v 2)) = true ∧
      present (T f1 (index v 1)) = true ∧
      T.walk r v = (((T.walkFrom v 0 pt).map (·.under (T f1 (index v 1)))).map
        (·.under (T f2 (index v 2)))).map (·.under (T r (index v 3))) := by
  obtain ⟨f2, hc3, h2⟩ := Option.bind_eq_some_iff.mp h
  obtain ⟨f1, hc2, h1⟩ := Option.bind_eq_some_iff.mp h2
  obtain ⟨f0, hc1, h0⟩ := Option.bind_eq_some_iff.mp h1
  obtain rfl : f0 = pt := Option.some.inj h0
  refine ⟨f2, f1, ?_, ?_, (child_eq_some.mp hc3).1, (child_eq_some.mp hc2).1, (child_eq_some.mp hc1).1, ?_⟩
  · simp [Radix.reach, hc3]
  · simp [Radix.reach, hc3, hc2]
  · rw [walk, walkFrom_step hc3, walkFrom_step hc2, walkFrom_step hc1]

theorem walkFrom_absent {n t : ℕ} (h : present (T t (index v n)) = false) :
    T.walkFrom v n t = none := by
  cases n <;> simp [walkFrom, h]

theorem index_of_indices {n : ℕ} {p s : List (Fin 512)} {i : Fin 512}
    (h : indices v n = p ++ i :: s) : i = index v (n - p.length) := by
  induction p generalizing n with
  | nil =>
    cases n with
    | zero => exact (List.cons.inj h).1.symm
    | succ n => exact (List.cons.inj h).1.symm
  | cons j p ih =>
    cases n with
    | zero =>
      have hl := congrArg List.length h
      simp [indices] at hl
    | succ n =>
      have hn := ih (List.cons.inj h).2
      rwa [List.length_cons, Nat.add_sub_add_right]

/-- A walk that fails below the end of a path fails. -/
theorem walkFrom_none {n t f : ℕ} {p s : List (Fin 512)} (hi : indices v n = p ++ s) (hs : s ≠ [])
    (hf : T.reach t p = some f) (hn : T.walkFrom v (n - p.length) f = none) :
    T.walkFrom v n t = none := by
  induction p generalizing n t with
  | nil =>
    obtain rfl : t = f := Option.some.inj hf
    exact hn
  | cons j p ih =>
    cases n with
    | zero =>
      have hps : [] = p ++ s := (List.cons.inj hi).2
      exact absurd (List.append_eq_nil_iff.mp hps.symm).2 hs
    | succ n =>
      obtain ⟨rfl, hi'⟩ := List.cons.inj hi
      obtain ⟨x, hx, hf'⟩ := Option.bind_eq_some_iff.mp hf
      rw [List.length_cons, Nat.add_sub_add_right] at hn
      rw [walkFrom_step hx, ih hi' hf' hn]
      rfl

end Tables

/-! ## Entries -/

/-- A frame of the 52-bit physical address space. -/
def IsFrame (f : ℕ) : Prop := f % 4096 = 0 ∧ f < 2 ^ 52

theorem entryFrame_eq_maskPage {e : ℕ} (h : e < 2 ^ 52) : entryFrame e = maskPage e := by
  unfold entryFrame maskPage
  rw [Nat.mod_eq_of_lt]
  omega

/-- The entry that links a new table. -/
theorem or_flags {f a : ℕ} (hf : f % 4096 = 0) (ha : a < 4096) : f ||| a = f + a := by
  obtain ⟨k, rfl⟩ : ∃ k, f = 2 ^ 12 * k := ⟨f / 4096, by omega⟩
  rw [Nat.two_pow_add_eq_or_of_lt (by omega)]

theorem maskPage_or_flags {f a : ℕ} (hf : f % 4096 = 0) (ha : a < 4096) : maskPage (f ||| a) = f := by
  rw [or_flags hf ha]
  unfold maskPage
  omega

theorem testBit_frame {f i : ℕ} (hf : f % 4096 = 0) (hi : i < 12) : f.testBit i = false := by
  have h : f = 2 ^ 12 * (f / 4096) := by omega
  rw [h, Nat.testBit_two_pow_mul, decide_eq_false (by omega), Bool.false_and]

theorem or_user_div (e : ℕ) : (e ||| pteUser) / 4096 = e / 4096 := by
  have h : (e ||| pteUser) / 2 ^ 12 = e / 2 ^ 12 := by
    rw [Nat.or_div_two_pow]
    exact Nat.or_zero _
  exact h

theorem maskPage_or_user (e : ℕ) : maskPage (e ||| pteUser) = maskPage e := by
  unfold maskPage
  rw [or_user_div]

theorem entryFrame_or_user (e : ℕ) : entryFrame (e ||| pteUser) = entryFrame e := by
  unfold entryFrame
  rw [or_user_div]

theorem or_user_lt {e : ℕ} (h : e < 2 ^ 52) : e ||| pteUser < 2 ^ 52 :=
  Nat.or_lt_two_pow h (by decide)

@[simp] theorem present_or (a b : ℕ) : present (a ||| b) = (present a || present b) :=
  Nat.testBit_or ..

@[simp] theorem writable_or (a b : ℕ) : writable (a ||| b) = (writable a || writable b) :=
  Nat.testBit_or ..

@[simp] theorem userBit_or (a b : ℕ) : userBit (a ||| b) = (userBit a || userBit b) :=
  Nat.testBit_or ..

@[simp] theorem pageSize_or (a b : ℕ) : pageSize (a ||| b) = (pageSize a || pageSize b) :=
  Nat.testBit_or ..

@[simp] theorem present_zero : present 0 = false := rfl
@[simp] theorem present_ptePresent : present ptePresent = true := rfl
@[simp] theorem pageSize_ptePageSize : pageSize ptePageSize = true := rfl
@[simp] theorem present_pteUser : present pteUser = false := rfl
@[simp] theorem pageSize_pteUser : pageSize pteUser = false := rfl
@[simp] theorem writable_pteUser : writable pteUser = false := rfl
@[simp] theorem userBit_pteUser : userBit pteUser = true := rfl

end PointerOS
