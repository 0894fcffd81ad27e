import PointerOS.ByteMemory

/-!
# Code that keeps words on a stack

Straight-line code over a register file and byte memory: pushes and pops through a
stack pointer, moves, and calls as single steps. What a run of pushes saves, a run of
pops in the opposite order restores, whatever the code in between does elsewhere.
-/
namespace PointerOS.StackCode
open ByteMemory

/-- The registers named by `ρ`, 64 bits each, and the memory. -/
structure Cpu (ρ : Type) where
  reg : ρ → ℕ
  mem : Memory
  lt : ∀ r, reg r < 2 ^ 64

/-- A call of a function of `σ` is one step, from the call to its return. -/
inductive Instr (ρ σ : Type)
  | push (r : ρ)
  | pushImm (v : ℕ)
  | pop (r : ρ)
  | mov (dst src : ρ)
  | addImm (r : ρ) (v : ℕ)
  | call (f : σ)

/-- The words of the list lie at `a`, one after the other. -/
def Holds (m : Memory) (a : ℕ) (l : List ℕ) : Prop := ∀ i v, l[i]? = some v → load64 m (a + 8 * i) = v

lemma Holds.congr {m m' : Memory} {a : ℕ} {l : List ℕ} (h : Holds m a l)
    (heq : Set.EqOn m' m (Set.Ico a (a + 8 * l.length))) : Holds m' a l := by
  intro i v hv
  obtain ⟨hi, -⟩ := List.getElem?_eq_some_iff.mp hv
  rw [← h i v hv]
  refine load_congr (heq.mono fun x hx => ?_)
  simp only [bytes, Set.mem_Ico] at hx ⊢
  omega

lemma holds_append {m : Memory} {a : ℕ} {l l' : List ℕ} :
    Holds m a (l ++ l') ↔ Holds m a l ∧ Holds m (a + 8 * l.length) l' := by
  constructor
  · refine fun h => ⟨fun i v hv => h i v ?_, fun i v hv => ?_⟩
    · rw [List.getElem?_append_left (List.getElem?_eq_some_iff.mp hv).1, hv]
    · have := h (l.length + i) v (by
        rw [List.getElem?_append_right (Nat.le_add_right ..), Nat.add_sub_cancel_left, hv])
      rwa [mul_add, ← add_assoc] at this
  · rintro ⟨h, h'⟩ i v hv
    by_cases hi : i < l.length
    · exact h i v (by rwa [List.getElem?_append_left hi] at hv)
    · rw [List.getElem?_append_right (by omega)] at hv
      rw [← h' _ v hv]
      congr 1
      omega

lemma holds_cons {m : Memory} {a v : ℕ} {l : List ℕ} :
    Holds m a (v :: l) ↔ load64 m a = v ∧ Holds m (a + 8) l := by
  rw [← List.singleton_append, holds_append]
  refine and_congr ⟨fun h => h 0 v rfl, fun h i w hw => ?_⟩ Iff.rfl
  obtain ⟨hi, hw⟩ := List.getElem?_eq_some_iff.mp hw
  have h0 : i = 0 := by simpa using hi
  subst h0
  simpa [h] using hw

section
variable {ρ σ : Type} [DecidableEq ρ]

namespace Cpu

def set (c : Cpu ρ) (r : ρ) (v : ℕ) : Cpu ρ where
  reg := Function.update c.reg r (v % 2 ^ 64)
  mem := c.mem
  lt q := by
    by_cases h : q = r
    · subst h
      rw [Function.update_self]
      exact Nat.mod_lt _ (by decide)
    · rw [Function.update_of_ne h]
      exact c.lt q

def pushWord (c : Cpu ρ) (sp : ρ) (v : ℕ) : Cpu ρ :=
  let c' := c.set sp (c.reg sp + 2 ^ 64 - 8)
  { c' with mem := store64 c.mem (c'.reg sp) v }

def pushWords (c : Cpu ρ) (sp : ρ) (l : List ℕ) : Cpu ρ := l.foldl (fun c v => c.pushWord sp v) c

/-- The word on top of the stack goes to `r`. -/
def popTo (c : Cpu ρ) (sp r : ρ) : Cpu ρ := (c.set sp (c.reg sp + 8)).set r (load64 c.mem (c.reg sp))

def step (sp : ρ) (callee : σ → Cpu ρ → Cpu ρ) (c : Cpu ρ) : Instr ρ σ → Cpu ρ
  | .push r => c.pushWord sp (c.reg r)
  | .pushImm v => c.pushWord sp v
  | .pop r => c.popTo sp r
  | .mov dst src => c.set dst (c.reg src)
  | .addImm r v => c.set r (c.reg r + v)
  | .call f => callee f c

def run (sp : ρ) (callee : σ → Cpu ρ → Cpu ρ) (c : Cpu ρ) (code : List (Instr ρ σ)) : Cpu ρ :=
  code.foldl (step sp callee) c

variable {c d : Cpu ρ} {sp r : ρ} {v : ℕ} {callee : σ → Cpu ρ → Cpu ρ}

@[simp] lemma set_mem : (c.set r v).mem = c.mem := rfl

@[simp] lemma set_same (h : v < 2 ^ 64) : (c.set r v).reg r = v :=
  (Function.update_self ..).trans (Nat.mod_eq_of_lt h)

@[simp] lemma set_of_ne {q : ρ} (h : q ≠ r) : (c.set r v).reg q = c.reg q := by
  simp [set, Function.update_of_ne h]

@[simp] lemma pushWords_nil : c.pushWords sp [] = c := rfl

@[simp] lemma pushWords_cons {l : List ℕ} : c.pushWords sp (v :: l) = (c.pushWord sp v).pushWords sp l := rfl

lemma pushWords_append {l l' : List ℕ} : c.pushWords sp (l ++ l') = (c.pushWords sp l).pushWords sp l' :=
  List.foldl_append

lemma run_append {code code' : List (Instr ρ σ)} :
    c.run sp callee (code ++ code') = (c.run sp callee code).run sp callee code' := List.foldl_append

@[simp] lemma run_nil : c.run sp callee [] = c := rfl

@[simp] lemma run_cons {i : Instr ρ σ} {code : List (Instr ρ σ)} :
    c.run sp callee (i :: code) = (c.step sp callee i).run sp callee code := rfl

/-- What pushing the words of `l` leaves. -/
structure Pushed (sp : ρ) (c d : Cpu ρ) (l : List ℕ) : Prop where
  top : d.reg sp + 8 * l.length = c.reg sp
  reg : ∀ r, r ≠ sp → d.reg r = c.reg r
  holds : Holds d.mem (d.reg sp) l.reverse
  frame : ∀ a, a < d.reg sp ∨ c.reg sp ≤ a → d.mem a = c.mem a

theorem pushWord_spec (hv : v < 2 ^ 64) (hroom : 8 ≤ c.reg sp) : Pushed sp c (c.pushWord sp v) [v] := by
  have hlt := c.lt sp
  have hsp : (c.pushWord sp v).reg sp = c.reg sp - 8 := by
    have : (c.reg sp + 2 ^ 64 - 8) % 2 ^ 64 = c.reg sp - 8 := by omega
    simp only [pushWord, set, Function.update_self, this]
  have hmem : (c.pushWord sp v).mem = store64 c.mem (c.reg sp - 8) v := by
    rw [← hsp]
    rfl
  refine ⟨?_, fun r hr => ?_, fun i w hw => ?_, fun a ha => ?_⟩
  · rw [hsp, List.length_singleton]
    omega
  · simp [pushWord, hr]
  · obtain ⟨hi, hw⟩ := List.getElem?_eq_some_iff.mp hw
    have h0 : i = 0 := by simpa using hi
    subst h0
    rw [hmem, hsp, ← hw]
    exact load_store_same_of_lt (by norm_num at hv ⊢; exact hv)
  · rw [hsp] at ha
    rw [hmem]
    refine store_eqOn_compl _ _ _ _ fun hin => ?_
    simp only [bytes, Set.mem_Ico] at hin
    omega

theorem pushWords_spec {l : List ℕ} (hl : ∀ v ∈ l, v < 2 ^ 64) (hroom : 8 * l.length ≤ c.reg sp) :
    Pushed sp c (c.pushWords sp l) l := by
  induction l generalizing c with
  | nil => exact ⟨rfl, fun _ _ => rfl, fun i v hv => by simp at hv, fun _ _ => rfl⟩
  | cons v l ih =>
    rw [List.length_cons] at hroom
    have hpush : Pushed sp c (c.pushWord sp v) [v] := pushWord_spec (hl v List.mem_cons_self) (by omega)
    obtain ⟨htop₁, hreg₁, hholds₁, hframe₁⟩ := hpush
    rw [List.length_singleton] at htop₁
    obtain ⟨htop, hreg, hholds, hframe⟩ := ih (c := c.pushWord sp v) (fun w hw => hl w (List.mem_cons_of_mem _ hw))
      (by omega)
    have hlen : (l.reverse).length = l.length := List.length_reverse
    refine ⟨?_, fun r hr => (hreg r hr).trans (hreg₁ r hr), ?_, fun a ha => ?_⟩
    · rw [pushWords_cons, List.length_cons]
      omega
    · rw [pushWords_cons, List.reverse_cons, holds_append, hlen, htop]
      refine ⟨hholds, hholds₁.congr fun a ha => hframe a ?_⟩
      simp only [Set.mem_Ico] at ha
      exact .inr ha.1
    · rw [pushWords_cons] at ha ⊢
      rw [hframe a (by omega), hframe₁ a (by omega)]

lemma pushWords_reg {l : List ℕ} (h : r ≠ sp) : (c.pushWords sp l).reg r = c.reg r := by
  induction l generalizing c with
  | nil => rfl
  | cons v l ih => rw [pushWords_cons, ih, pushWord, set_of_ne h]

@[simp] lemma run_pushImm {l : List ℕ} : c.run sp callee (l.map .pushImm) = c.pushWords sp l := by
  induction l generalizing c with
  | nil => rfl
  | cons v l ih => exact ih

lemma run_push {rs : List ρ} (hsp : sp ∉ rs) :
    c.run sp callee (rs.map .push) = c.pushWords sp (rs.map c.reg) := by
  induction rs generalizing c with
  | nil => rfl
  | cons r rs ih =>
    rw [List.mem_cons, not_or] at hsp
    have hsame : rs.map (c.pushWord sp (c.reg r)).reg = rs.map c.reg :=
      List.map_congr_left fun q hq => set_of_ne fun he => hsp.2 (he ▸ hq)
    rw [List.map_cons, run_cons, List.map_cons, pushWords_cons, ← hsame]
    exact ih hsp.2

/-- What popping into the registers `rs` leaves, where `f` gives the words on the stack. -/
structure Popped (sp : ρ) (c d : Cpu ρ) (rs : List ρ) (f : ρ → ℕ) : Prop where
  top : d.reg sp = c.reg sp + 8 * rs.length
  mem : d.mem = c.mem
  reg : ∀ r ∈ rs, d.reg r = f r
  other : ∀ r, r ∉ rs → r ≠ sp → d.reg r = c.reg r

theorem run_pop {rs : List ρ} {f : ρ → ℕ} (hsp : sp ∉ rs) (hholds : Holds c.mem (c.reg sp) (rs.map f))
    (hlt : c.reg sp + 8 * rs.length < 2 ^ 64) : Popped sp c (c.run sp callee (rs.map .pop)) rs f := by
  induction rs generalizing c with
  | nil => exact ⟨rfl, rfl, fun r hr => by simp at hr, fun _ _ _ => rfl⟩
  | cons r rs ih =>
    rw [List.mem_cons, not_or] at hsp
    rw [List.map_cons, holds_cons] at hholds
    rw [List.length_cons] at hlt
    have hsp' : (c.popTo sp r).reg sp = c.reg sp + 8 := by
      rw [popTo, set_of_ne hsp.1, set_same (by omega)]
    have hr : (c.popTo sp r).reg r = f r := by
      rw [popTo, set_same (load64_lt _ _), hholds.1]
    have hother : ∀ q, q ≠ r → q ≠ sp → (c.popTo sp r).reg q = c.reg q := fun q hq hqs => by
      rw [popTo, set_of_ne hq, set_of_ne hqs]
    obtain ⟨htop, hmem, hin, hout⟩ := @ih (c.popTo sp r) hsp.2 (by rw [hsp']; exact hholds.2) (by omega)
    have hrun : c.run sp callee ((r :: rs).map .pop) = (c.popTo sp r).run sp callee (rs.map .pop) := rfl
    rw [hrun]
    refine ⟨by rw [htop, hsp', List.length_cons]; omega, hmem, fun q hq => ?_, fun q hq hqs => ?_⟩
    · by_cases hqr : q ∈ rs
      · exact hin q hqr
      · obtain rfl : q = r := (List.mem_cons.mp hq).resolve_right hqr
        rw [hout q hqr (Ne.symm hsp.1), hr]
    · rw [List.mem_cons, not_or] at hq
      rw [hout q hq.2 hqs, hother q hq.1 hqs]

end Cpu
end
end PointerOS.StackCode
