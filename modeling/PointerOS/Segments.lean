import PointerOS.ContextSwitch
import PointerOS.Syscalls

/-!
# Segments and the task state

`init_GDT` writes seven descriptors, the task state segment and `gdt_ptr`, and `gdt_flush` loads what
`gdt_ptr` says. The other parts of the kernel only know the selectors: the gates, the frames of new threads
and the registers of `syscall` and `sysret`. The addresses of the tables do not wrap.
-/
namespace PointerOS
open ByteMemory

/-! ## Descriptors -/

/-- The stores of `setGDTGate` into the table at `g`. -/
def setGDTGate (g : ℕ) (m : Memory) (vector base limit access flags : ℕ) : Memory :=
  let e := g + 8 * vector
  let m := store m e 2 (limit &&& 0xFFFF)
  let m := store m (e + 2) 2 (base &&& 0xFFFF)
  let m := store m (e + 4) 1 (base >>> 16 &&& 0xFF)
  let m := store m (e + 5) 1 access
  let m := store m (e + 6) 1 ((limit >>> 16 &&& 0x0F) ||| (flags &&& 0xF0))
  store m (e + 7) 1 (base >>> 24 &&& 0xFF)

def setTSSGate (g : ℕ) (m : Memory) (vector base limit : ℕ) : Memory :=
  let e := g + 8 * vector
  let m := setGDTGate g m vector (base % 2 ^ 32) limit 0x89 0x40
  let m := store32 m (e + 8) (base / 2 ^ 32)
  store32 m (e + 12) 0

/-- A segment as the processor reads it from a descriptor. -/
structure Segment where
  base : ℕ
  limit : ℕ
  access : ℕ
  flags : ℕ
deriving DecidableEq

namespace Segment

def ofWord (d : ℕ) : Segment where
  base := d / 2 ^ 16 % 2 ^ 24 + d / 2 ^ 56 % 2 ^ 8 * 2 ^ 24
  limit := d % 2 ^ 16 + d / 2 ^ 48 % 2 ^ 4 * 2 ^ 16
  access := d / 2 ^ 40 % 2 ^ 8
  flags := d / 2 ^ 52 % 2 ^ 4

/-- A present code segment of 64-bit mode. -/
def LongCode (s : Segment) (dpl : ℕ) : Prop :=
  s.access / 128 % 2 = 1 ∧ s.access / 32 % 4 = dpl ∧ s.access / 8 % 4 = 3 ∧ s.flags / 2 % 4 = 1

/-- A present data segment that can be written. -/
def WritableData (s : Segment) (dpl : ℕ) : Prop :=
  s.access / 128 % 2 = 1 ∧ s.access / 32 % 4 = dpl ∧ s.access / 8 % 4 = 2 ∧ s.access / 2 % 2 = 1

/-- A present task state segment of 64-bit mode, which is of type 9 when no task has it. -/
def TaskState (s : Segment) (type : ℕ) : Prop := s.access / 128 % 2 = 1 ∧ s.access % 32 = type

instance (s : Segment) (dpl : ℕ) : Decidable (s.LongCode dpl) :=
  inferInstanceAs (Decidable (_ ∧ _ ∧ _ ∧ _))

instance (s : Segment) (dpl : ℕ) : Decidable (s.WritableData dpl) :=
  inferInstanceAs (Decidable (_ ∧ _ ∧ _ ∧ _))

instance (s : Segment) (type : ℕ) : Decidable (s.TaskState type) := inferInstanceAs (Decidable (_ ∧ _))

end Segment

/-- The word that the fields of a descriptor make up. -/
def descriptorWord (base limit access flags : ℕ) : ℕ :=
  limit % 2 ^ 16 + base % 2 ^ 24 * 2 ^ 16 + access * 2 ^ 40 + limit / 2 ^ 16 % 2 ^ 4 * 2 ^ 48 +
    flags / 2 ^ 4 * 2 ^ 52 + base / 2 ^ 24 % 2 ^ 8 * 2 ^ 56

section Descriptors
variable {g v base limit access flags : ℕ} {m : Memory}

theorem ofWord_fields {a b c d f h : ℕ} (ha : a < 2 ^ 16) (hb : b < 2 ^ 24) (hc : c < 2 ^ 8) (hd : d < 2 ^ 4)
    (hf : f < 2 ^ 4) (hh : h < 2 ^ 8) :
    Segment.ofWord (a + b * 2 ^ 16 + c * 2 ^ 40 + d * 2 ^ 48 + f * 2 ^ 52 + h * 2 ^ 56) =
      ⟨b + h * 2 ^ 24, a + d * 2 ^ 16, c, f⟩ := by
  unfold Segment.ofWord
  rw [Segment.mk.injEq]
  refine ⟨?_, ?_, ?_, ?_⟩ <;> omega

/-- The fields are those that were passed, as far as a descriptor has room for them. -/
theorem ofWord_descriptorWord (ha : access < 2 ^ 8) (hf : flags < 2 ^ 8) :
    Segment.ofWord (descriptorWord base limit access flags) =
      ⟨base % 2 ^ 32, limit % 2 ^ 20, access, flags / 2 ^ 4⟩ := by
  rw [descriptorWord, ofWord_fields (by omega) (by omega) ha (by omega) (by omega) (by omega), Segment.mk.injEq]
  omega

theorem highNibbles : ∀ x < 2 ^ 4, ∀ y < 2 ^ 8, x ||| (y &&& 0xF0) = x + y / 2 ^ 4 * 2 ^ 4 := by decide +kernel

theorem load64_bytes (m : Memory) (e : ℕ) :
    load64 m e = load m e 2 + 2 ^ 16 * (load m (e + 2) 2 + 2 ^ 16 * (load m (e + 4) 1 +
      2 ^ 8 * (load m (e + 5) 1 + 2 ^ 8 * (load m (e + 6) 1 + 2 ^ 8 * load m (e + 7) 1)))) := by
  have h := load_add m e 2 6
  have h2 := load_add m (e + 2) 2 4
  have h4 := load_add m (e + 4) 1 3
  have h5 := load_add m (e + 5) 1 2
  have h6 := load_add m (e + 6) 1 1
  simp only [Nat.add_assoc, Nat.reduceAdd, Nat.reducePow] at h h2 h4 h5 h6 ⊢
  rw [h6] at h5
  rw [h5] at h4
  rw [h4] at h2
  rw [h2] at h
  exact h

/-- What `setGDTGate` writes is what the processor reads back. -/
theorem load64_setGDTGate (hf : flags < 2 ^ 8) (ha : access < 2 ^ 8) :
    load64 (setGDTGate g m v base limit access flags) (g + 8 * v) = descriptorWord base limit access flags := by
  have hhigh := highNibbles (limit >>> 16 &&& 0x0F) (lt_of_le_of_lt Nat.and_le_right (by decide)) flags hf
  rw [load64_bytes]
  unfold setGDTGate descriptorWord
  simp (disch := omega) only [load_store_of_disjoint, load_store_same, hhigh]
  have h16 : ∀ x : ℕ, x &&& 0xFFFF = x % 2 ^ 16 := fun x => Nat.and_two_pow_sub_one_eq_mod x 16
  have h8 : ∀ x : ℕ, x &&& 0xFF = x % 2 ^ 8 := fun x => Nat.and_two_pow_sub_one_eq_mod x 8
  have h4 : ∀ x : ℕ, x &&& 0x0F = x % 2 ^ 4 := fun x => Nat.and_two_pow_sub_one_eq_mod x 4
  simp only [h16, h8, h4, Nat.shiftRight_eq_div_pow]
  norm_num
  omega

theorem setGDTGate_eqOn (g : ℕ) (m : Memory) (v base limit access flags : ℕ) :
    Set.EqOn (setGDTGate g m v base limit access flags) m (bytes (g + 8 * v) 8)ᶜ := by
  intro x hx
  simp only [bytes, Set.mem_compl_iff, Set.mem_Ico] at hx
  simp only [setGDTGate, store]
  grind

end Descriptors

/-! ## Set up -/

/-- The register GDTR. -/
structure Gdtr where
  limit : ℕ
  base : ℕ
deriving DecidableEq

namespace Gdtr
variable (r : Gdtr)

/-- `lgdt [a]` -/
def load (m : Memory) (a : ℕ) : Gdtr := ⟨ByteMemory.load m a 2, load64 m (a + 2)⟩

/-- The descriptor that a selector names. -/
def lookup (m : Memory) (selector : ℕ) : Option ℕ :=
  if selector / 8 * 8 + 7 ≤ r.limit then some (load64 m (r.base + selector / 8 * 8)) else none

def segment (m : Memory) (selector : ℕ) : Option Segment := (r.lookup m selector).map Segment.ofWord

/-- `ltr` marks the descriptor as busy. -/
def markBusy (selector : ℕ) (m : Memory) : Memory :=
  store m (r.base + selector / 8 * 8 + 5) 1 (ByteMemory.load m (r.base + selector / 8 * 8 + 5) 1 ||| 2)

/-- The base of the busy task state segment that a selector names; its descriptor takes the place of two. -/
def taskBase (m : Memory) (selector : ℕ) : Option ℕ :=
  (r.segment m selector).bind fun s => (r.lookup m (selector + 8)).bind fun u =>
    if s.TaskState 11 then some (s.base + u % 2 ^ 32 * 2 ^ 32) else none

/-- The selector can be loaded into CS at a privilege level. -/
def LoadsCode (m : Memory) (selector cpl : ℕ) : Prop :=
  selector % 8 = cpl ∧ ∃ s ∈ r.segment m selector, s.LongCode cpl

/-- The selector can be loaded into SS at a privilege level. -/
def LoadsStack (m : Memory) (selector cpl : ℕ) : Prop :=
  selector % 8 = cpl ∧ ∃ s ∈ r.segment m selector, s.WritableData cpl

end Gdtr

/-- `gdt_flush`: what GDTR gets and what changes in memory. The processor faults when a descriptor does not fit
its register. -/
def gdtFlush (ptr : ℕ) (m : Memory) : Option (Gdtr × Memory) :=
  let r := Gdtr.load m ptr
  if (∃ s ∈ r.segment m 0x10, s.WritableData 0) ∧ (∃ s ∈ r.segment m 0x28, s.TaskState 9) ∧
      ∃ s ∈ r.segment m 0x08, s.LongCode 0 then
    some (r, r.markBusy 0x28 m)
  else none

/-- Where the linker puts `gdt_entries`, `gdt_ptr`, `tss` and `ist1_stack_top`. -/
structure GdtLayout where
  entries : ℕ
  ptr : ℕ
  tss : ℕ
  ist1StackTop : ℕ
  entries_lt : entries + 56 ≤ 2 ^ 64
  ptr_lt : ptr + 10 ≤ 2 ^ 64
  tss_lt : tss + 104 ≤ 2 ^ 64
  ist_lt : ist1StackTop < 2 ^ 64
  apart : entries + 56 ≤ tss ∨ tss + 104 ≤ entries
  ptr_apart : (ptr + 10 ≤ entries ∨ entries + 56 ≤ ptr) ∧ (ptr + 10 ≤ tss ∨ tss + 104 ≤ ptr)

namespace GdtLayout
variable (L : GdtLayout)

/-- The bytes of the two tables. -/
def tables : Set ℕ := bytes L.entries 56 ∪ bytes L.tss 104

/-- What `init_GDT` writes: the tables and `gdt_ptr`. -/
def region : Set ℕ := L.tables ∪ bytes L.ptr 10

/-- The loop that clears the task state segment. -/
def clearTss : ℕ → ℕ → Memory → Memory
  | 0, _, m => m
  | n + 1, i, m => clearTss n (i + 1) (store m (L.tss + i) 1 0)

/-- The first five gates of `init_GDT`. -/
def initGates (m : Memory) : Memory :=
  let m := setGDTGate L.entries m 0 0 0 0 0
  let m := setGDTGate L.entries m 1 0 0xFFFFFFFF 0x9A 0x20
  let m := setGDTGate L.entries m 2 0 0xFFFFFFFF 0x92 0x00
  let m := setGDTGate L.entries m 3 0 0xFFFFFFFF 0xF2 0x00
  setGDTGate L.entries m 4 0 0xFFFFFFFF 0xFA 0x20

/-- The stores of `init_GDT` to `tss`. -/
def initTss (m : Memory) : Memory :=
  let m := L.clearTss 104 0 m
  let m := store64 m (L.tss + 36) L.ist1StackTop
  store m (L.tss + 102) 2 104

/-- The stores of `init_GDT` to `gdt_ptr`. -/
def initPtr (m : Memory) : Memory := store64 (store m L.ptr 2 (56 - 1)) (L.ptr + 2) L.entries

def initGDT (m : Memory) : Option (Gdtr × Memory) :=
  gdtFlush L.ptr (L.initPtr (setTSSGate L.entries (L.initTss (L.initGates m)) 5 L.tss (104 - 1)))

/-- What `gdt_ptr` says. -/
def gdtr : Gdtr := ⟨55, L.entries⟩

/-- The scheduler's `tss.rsp0 = ...`. -/
def setRsp0 (top : ℕ) (m : Memory) : Memory := store64 m (L.tss + 4) top

end GdtLayout

/-- The task state as the processor reads it. -/
def Tss.read (m : Memory) (t : ℕ) : Tss where
  rsp0 := load64 m (t + 4)
  ist := fun i => load64 m (t + 36 + 8 * i)
  lt := ⟨load64_lt _ _, fun _ => load64_lt _ _⟩

namespace GdtLayout
variable {L : GdtLayout} {m m' : Memory} {w : ℕ → ℕ} {g n v base limit access flags : ℕ}

theorem clearTss_eq (n i : ℕ) (m : Memory) : L.clearTss n i m = fill m (L.tss + i) n 0 := by
  induction n generalizing i m with
  | zero =>
    funext x
    simp [clearTss, fill]
  | succ n ih =>
    rw [clearTss, ih]
    funext x
    by_cases hx : x = L.tss + i
    · simp [fill, store, hx]
    · by_cases hin : L.tss + i ≤ x ∧ x < L.tss + i + (n + 1)
      · simp [fill, hin, show L.tss + (i + 1) ≤ x ∧ x < L.tss + (i + 1) + n by omega]
      · have hbyte : ¬(L.tss + i ≤ x ∧ x < L.tss + i + 1) := by omega
        have hrest : ¬(L.tss + (i + 1) ≤ x ∧ x < L.tss + (i + 1) + n) := by omega
        simp only [fill, store, if_neg hin, if_neg hbyte, if_neg hrest]

/-- A gate is one word of the table. -/
theorem gate_words (h : HoldsWords m g n w) (ha : access < 2 ^ 8) (hf : flags < 2 ^ 8) :
    HoldsWords (setGDTGate g m v base limit access flags) g n
      (Function.update w v (descriptorWord base limit access flags)) :=
  h.update (load64_setGDTGate hf ha) (setGDTGate_eqOn ..)

/-- Two halves of a word. -/
theorem halves_words {x y : ℕ} (h : HoldsWords m g n w) (hx : x < 2 ^ 32) (hy : y < 2 ^ 32) :
    HoldsWords (store32 (store32 m (g + 8 * v) x) (g + 8 * v + 4) y) g n (Function.update w v (x + 2 ^ 32 * y)) := by
  refine h.update ?_ fun z hz => ?_
  · rw [load64_eq, load_store_of_disjoint (by omega), load_store_same_of_lt (by simpa using hx),
      load_store_same_of_lt (by simpa using hy)]
  · simp only [bytes, Set.mem_compl_iff, Set.mem_Ico] at hz
    simp only [store]
    rw [if_neg (by omega), if_neg (by omega)]

/-- The access byte of a descriptor. -/
theorem access_byte {e : ℕ} (h : load64 m e = descriptorWord base limit access flags) (ha : access < 2 ^ 8) :
    load m (e + 5) 1 = access ∧
      ∀ v < 2 ^ 8, load64 (store m (e + 5) 1 v) e = descriptorWord base limit v flags := by
  have h0 := load_lt m e 2
  have h2 := load_lt m (e + 2) 2
  have h4 := load_lt m (e + 4) 1
  have h5 := load_lt m (e + 5) 1
  have h6 := load_lt m (e + 6) 1
  have h7 := load_lt m (e + 7) 1
  rw [load64_bytes] at h
  unfold descriptorWord at h ⊢
  norm_num at h0 h2 h4 h5 h6 h7
  have hbyte : load m (e + 5) 1 = access := by omega
  refine ⟨hbyte, fun v hv => ?_⟩
  rw [load64_bytes, load_store_of_disjoint (by omega), load_store_of_disjoint (by omega),
    load_store_of_disjoint (by omega), load_store_same_of_lt (by simpa using hv), load_store_of_disjoint (by omega),
    load_store_of_disjoint (by omega)]
  omega

theorem setTSSGate_eqOn (g : ℕ) (m : Memory) (v base limit : ℕ) :
    Set.EqOn (setTSSGate g m v base limit) m (bytes (g + 8 * v) 16)ᶜ := by
  intro x hx
  simp only [bytes, Set.mem_compl_iff, Set.mem_Ico] at hx
  have hgate : setGDTGate g m v (base % 2 ^ 32) limit 0x89 0x40 x = m x :=
    setGDTGate_eqOn g m v _ limit 0x89 0x40 (by simp only [bytes, Set.mem_compl_iff, Set.mem_Ico]; omega)
  simp only [setTSSGate, store]
  rw [if_neg (by omega), if_neg (by omega), hgate]

theorem setTSSGate_words {base limit : ℕ} (h : HoldsWords m g n w) (hb : base < 2 ^ 64) :
    HoldsWords (setTSSGate g m v base limit) g n (Function.update
      (Function.update w v (descriptorWord (base % 2 ^ 32) limit 0x89 0x40)) (v + 1) (base / 2 ^ 32)) := by
  have hgate : HoldsWords (setGDTGate g m v (base % 2 ^ 32) limit 0x89 0x40) g n
      (Function.update w v (descriptorWord (base % 2 ^ 32) limit 0x89 0x40)) := gate_words h (by decide) (by decide)
  have hhalves := halves_words (v := v + 1) (x := base / 2 ^ 32) (y := 0) hgate (by omega) (by decide)
  have haddr : g + 8 * (v + 1) = g + 8 * v + 8 := by omega
  simpa only [setTSSGate, haddr, Nat.add_assoc, Nat.mul_zero, Nat.add_zero, Nat.reduceAdd] using hhalves

/-! ## The tables after `init_GDT` -/

/-- The words of `gdt_entries` once the task state is loaded. -/
def tableWord (L : GdtLayout) (e : ℕ) : ℕ :=
  if e = 1 then descriptorWord 0 0xFFFFFFFF 0x9A 0x20
  else if e = 2 then descriptorWord 0 0xFFFFFFFF 0x92 0x00
  else if e = 3 then descriptorWord 0 0xFFFFFFFF 0xF2 0x00
  else if e = 4 then descriptorWord 0 0xFFFFFFFF 0xFA 0x20
  else if e = 5 then descriptorWord (L.tss % 2 ^ 32) 103 0x8B 0x40
  else if e = 6 then L.tss / 2 ^ 32
  else 0

/-- The tables are complete, and `tss.rsp0` has a value. -/
structure Ready (L : GdtLayout) (m : Memory) (rsp0 : ℕ) : Prop where
  table : HoldsWords m L.entries 7 L.tableWord
  rsp0 : load64 m (L.tss + 4) = rsp0
  ist : ∀ i < 7, load64 m (L.tss + 36 + 8 * i) = if i = 0 then L.ist1StackTop else 0

theorem segment_eq (h : HoldsWords m L.entries 7 w) {selector : ℕ} (hs : selector / 8 < 7) :
    L.gdtr.segment m selector = some (Segment.ofWord (w (selector / 8))) := by
  have hword := h _ hs
  have hlimit : selector / 8 * 8 + 7 ≤ L.gdtr.limit := show _ ≤ 55 by omega
  rw [words, Nat.mul_comm] at hword
  rw [Gdtr.segment, Gdtr.lookup, if_pos hlimit, Option.map_some, ← hword]
  rfl

theorem initGates_words (L : GdtLayout) (m : Memory) : ∃ w, HoldsWords (L.initGates m) L.entries 7 w ∧
    (∀ e < 5, w e = L.tableWord e) ∧ Set.EqOn (L.initGates m) m (bytes L.entries 56)ᶜ := by
  have h0 : HoldsWords m L.entries 7 (words m L.entries) := fun _ _ => rfl
  have hgate : ∀ {m w} v base limit access flags, HoldsWords m L.entries 7 w → access < 2 ^ 8 → flags < 2 ^ 8 →
      HoldsWords (setGDTGate L.entries m v base limit access flags) L.entries 7
        (Function.update w v (descriptorWord base limit access flags)) := fun _ _ _ _ _ h => gate_words h
  have h1 := hgate 0 0 0 0 0 h0 (by decide) (by decide)
  have h2 := hgate 1 0 0xFFFFFFFF 0x9A 0x20 h1 (by decide) (by decide)
  have h3 := hgate 2 0 0xFFFFFFFF 0x92 0x00 h2 (by decide) (by decide)
  have h4 := hgate 3 0 0xFFFFFFFF 0xF2 0x00 h3 (by decide) (by decide)
  have h5 := hgate 4 0 0xFFFFFFFF 0xFA 0x20 h4 (by decide) (by decide)
  refine ⟨_, h5, fun e he => ?_, fun x hx => ?_⟩
  · simp only [Function.update_apply, tableWord]
    interval_cases e <;> simp [descriptorWord]
  · have hout : ∀ v < 7, ∀ m base limit access flags, setGDTGate L.entries m v base limit access flags x = m x := by
      intro v hv m base limit access flags
      refine setGDTGate_eqOn _ _ _ _ _ _ _ ?_
      simp only [bytes, Set.mem_compl_iff, Set.mem_Ico] at hx ⊢
      omega
    simp only [initGates, hout 0 (by decide), hout 1 (by decide), hout 2 (by decide), hout 3 (by decide),
      hout 4 (by decide)]

theorem initTss_spec (L : GdtLayout) (m : Memory) : load64 (L.initTss m) (L.tss + 4) = 0 ∧
    (∀ i < 7, load64 (L.initTss m) (L.tss + 36 + 8 * i) = if i = 0 then L.ist1StackTop else 0) ∧
    Set.EqOn (L.initTss m) m (bytes L.tss 104)ᶜ := by
  have hist := L.ist_lt
  have hzero : ∀ a, L.tss ≤ a → a + 8 ≤ L.tss + 104 → load64 (L.clearTss 104 0 m) a = 0 := by
    intro a ha ha'
    rw [clearTss_eq]
    exact load_fill_zero ha ha'
  have hiopb : ∀ a, a + 8 ≤ L.tss + 102 → load64 (L.initTss m) a =
      load64 (store64 (L.clearTss 104 0 m) (L.tss + 36) L.ist1StackTop) a :=
    fun a ha => load_store_of_disjoint (by omega)
  refine ⟨?_, fun i hi => ?_, fun x hx => ?_⟩
  · rw [hiopb _ (by omega), load64_store64 hist (by omega), if_neg (by omega)]
    exact hzero _ (by omega) (by omega)
  · rw [hiopb _ (by omega), load64_store64 hist (by omega)]
    by_cases h0 : i = 0
    · rw [if_pos (by omega), if_pos h0]
    · rw [if_neg (by omega), if_neg h0]
      exact hzero _ (by omega) (by omega)
  · simp only [bytes, Set.mem_compl_iff, Set.mem_Ico] at hx
    simp only [initTss, clearTss_eq, store, fill]
    rw [if_neg (by omega), if_neg (by omega), if_neg (by omega)]

theorem initPtr_spec (L : GdtLayout) (m : Memory) :
    Gdtr.load (L.initPtr m) L.ptr = L.gdtr ∧ Set.EqOn (L.initPtr m) m (bytes L.ptr 10)ᶜ := by
  have hentries := L.entries_lt
  refine ⟨?_, fun x hx => ?_⟩
  · have hlimit : ByteMemory.load (L.initPtr m) L.ptr 2 = 55 :=
      (load_store_of_disjoint (by omega)).trans (load_store_same_of_lt (by decide))
    have hbase : load64 (L.initPtr m) (L.ptr + 2) = L.entries :=
      (load64_store64 (by omega) (by omega)).trans (if_pos rfl)
    rw [Gdtr.load, hlimit, hbase, gdtr]
  · simp only [bytes, Set.mem_compl_iff, Set.mem_Ico] at hx
    simp only [initPtr, store]
    rw [if_neg (by omega), if_neg (by omega)]

/-- `init_GDT` does not fault, leaves GDTR at its table, and writes nothing but the tables and `gdt_ptr`. -/
theorem initGDT_spec (L : GdtLayout) (m : Memory) :
    ∃ m', L.initGDT m = some (L.gdtr, m') ∧ L.Ready m' 0 ∧ Set.EqOn m' m L.regionᶜ := by
  have hapart := L.apart
  have hptr := L.ptr_apart
  have htss := L.tss_lt
  obtain ⟨w, hgates, hw, hframe₁⟩ := L.initGates_words m
  obtain ⟨hrsp0, hist, hframe₂⟩ := L.initTss_spec (L.initGates m)
  obtain ⟨m₂, hm₂⟩ : ∃ m₂, m₂ = L.initTss (L.initGates m) := ⟨_, rfl⟩
  rw [← hm₂] at hrsp0 hist hframe₂
  have hkept : HoldsWords m₂ L.entries 7 w := hgates.congr (hframe₂.mono fun x hx => by
    simp only [bytes, Set.mem_compl_iff, Set.mem_Ico] at hx ⊢
    omega)
  have hgate : HoldsWords (setTSSGate L.entries m₂ 5 L.tss 103) L.entries 7 (Function.update (Function.update w 5
      (descriptorWord (L.tss % 2 ^ 32) 103 0x89 0x40)) 6 (L.tss / 2 ^ 32)) := setTSSGate_words hkept (by omega)
  have hframeGate := setTSSGate_eqOn L.entries m₂ 5 L.tss 103
  obtain ⟨hload, hframePtr⟩ := L.initPtr_spec (setTSSGate L.entries m₂ 5 L.tss 103)
  have htable := hgate.congr (hframePtr.mono fun x hx => by
    simp only [bytes, Set.mem_compl_iff, Set.mem_Ico] at hx ⊢
    omega)
  obtain ⟨m₃, hm₃⟩ : ∃ m₃, m₃ = L.initPtr (setTSSGate L.entries m₂ 5 L.tss 103) := ⟨_, rfl⟩
  have hframe₃ : Set.EqOn m₃ m₂ (bytes (L.entries + 40) 16 ∪ bytes L.ptr 10)ᶜ := by
    intro x hx
    rw [Set.compl_union, Set.mem_inter_iff] at hx
    rw [hm₃, hframePtr hx.2, hframeGate hx.1]
  obtain ⟨w₃, hw₃⟩ : ∃ w₃, w₃ = Function.update (Function.update w 5
    (descriptorWord (L.tss % 2 ^ 32) 103 0x89 0x40)) 6 (L.tss / 2 ^ 32) := ⟨_, rfl⟩
  rw [← hm₃] at htable hload
  rw [← hw₃] at htable
  have hfive : w₃ 5 = descriptorWord (L.tss % 2 ^ 32) 103 0x89 0x40 := by simp [hw₃]
  have hlow : ∀ e < 5, w₃ e = L.tableWord e := fun e he => by
    rw [hw₃, Function.update_of_ne (by omega), Function.update_of_ne (by omega), hw e he]
  have hsegment : ∀ selector, selector / 8 < 7 →
      L.gdtr.segment m₃ selector = some (Segment.ofWord (w₃ (selector / 8))) := fun _ => segment_eq htable
  have hflush : gdtFlush L.ptr m₃ = some (L.gdtr, L.gdtr.markBusy 0x28 m₃) := by
    rw [gdtFlush, hload]
    refine if_pos ⟨⟨_, hsegment 0x10 (by decide), ?_⟩, ⟨_, hsegment 0x28 (by decide), ?_⟩,
      ⟨_, hsegment 0x08 (by decide), ?_⟩⟩
    · rw [hlow _ (by decide)]
      show (Segment.ofWord (descriptorWord 0 0xFFFFFFFF 0x92 0x00)).WritableData 0
      decide
    · rw [show 0x28 / 8 = 5 from rfl, hfive, ofWord_descriptorWord (by decide) (by decide)]
      show 0x89 / 128 % 2 = 1 ∧ 0x89 % 32 = 9
      decide
    · rw [hlow _ (by decide)]
      show (Segment.ofWord (descriptorWord 0 0xFFFFFFFF 0x9A 0x20)).LongCode 0
      decide
  have hword : load64 m₃ (L.entries + 40) = descriptorWord (L.tss % 2 ^ 32) 103 0x89 0x40 :=
    (htable 5 (by decide)).trans hfive
  obtain ⟨hbyte, hset⟩ := access_byte hword (by decide)
  have hbusy : L.gdtr.markBusy 0x28 m₃ = store m₃ (L.entries + 40 + 5) 1 0x8B := by
    rw [Gdtr.markBusy, show L.gdtr.base + 0x28 / 8 * 8 + 5 = L.entries + 40 + 5 from rfl, hbyte,
      show 0x89 ||| 2 = 0x8B from rfl]
  have hframe₄ : Set.EqOn (store m₃ (L.entries + 40 + 5) 1 0x8B) m₃ (bytes (L.entries + 40) 8)ᶜ := by
    refine (store_eqOn_compl m₃ _ 1 _).mono (Set.compl_subset_compl.mpr fun x hx => ?_)
    simp only [bytes, Set.mem_Ico] at hx ⊢
    omega
  have hfinal := htable.update (e := 5) (hset 0x8B (by decide)) hframe₄
  rw [← hbusy] at hfinal hframe₄
  have houtside : Set.EqOn (L.gdtr.markBusy 0x28 m₃) m₂ (bytes L.entries 56 ∪ bytes L.ptr 10)ᶜ := by
    refine (hframe₄.mono fun x hx => ?_).trans (hframe₃.mono fun x hx => ?_) <;>
    · simp only [bytes, Set.mem_compl_iff, Set.mem_union, Set.mem_Ico] at hx ⊢
      omega
  have htask : ∀ a, L.tss ≤ a → a + 8 ≤ L.tss + 104 → load64 (L.gdtr.markBusy 0x28 m₃) a = load64 m₂ a := by
    refine fun a ha ha' => load_congr (houtside.mono fun x hx => ?_)
    simp only [bytes, Set.mem_compl_iff, Set.mem_union, Set.mem_Ico] at hx ⊢
    omega
  refine ⟨_, ?_, ⟨fun e he => (hfinal e he).trans ?_, ?_, fun i hi => ?_⟩, ?_⟩
  · rw [initGDT, ← hm₂, ← hm₃]
    exact hflush
  · by_cases h5 : e = 5
    · simp [h5, tableWord]
    · rw [Function.update_of_ne h5]
      by_cases h6 : e = 6
      · simp [h6, hw₃, tableWord]
      · exact hlow e (by omega)
  · rw [htask _ (by omega) (by omega), hrsp0]
  · rw [htask _ (by omega) (by omega), hist i hi]
  · intro x hx
    simp only [region, tables, Set.mem_compl_iff, Set.mem_union, not_or] at hx
    have hout : x ∈ (bytes L.entries 56 ∪ bytes L.ptr 10)ᶜ := fun hc => hc.elim hx.1.1 hx.2
    rw [houtside hout, hframe₂ hx.1.2, hframe₁ hx.1.1]

theorem Ready.setRsp0 {rsp0 top : ℕ} (h : L.Ready m rsp0) (htop : top < 2 ^ 64) : L.Ready (L.setRsp0 top m) top := by
  have hapart := L.apart
  refine ⟨h.table.congr (store_eqOn (disjoint_bytes (by omega))), ?_, fun i hi => ?_⟩
  · rw [GdtLayout.setRsp0, load64_store64 htop (by omega), if_pos rfl]
  · rw [GdtLayout.setRsp0, load64_store64 htop (by omega), if_neg (by omega)]
    exact h.ist i hi

theorem Ready.congr {rsp0 : ℕ} (h : L.Ready m rsp0) (hm : Set.EqOn m' m L.tables) : L.Ready m' rsp0 := by
  have hload : ∀ a, L.tss ≤ a → a + 8 ≤ L.tss + 104 → load64 m' a = load64 m a := fun a ha ha' =>
    load_congr (hm.mono fun x hx => Or.inr (by simp only [bytes, Set.mem_Ico] at hx ⊢; omega))
  refine ⟨h.table.congr (hm.mono Set.subset_union_left), ?_, fun i hi => ?_⟩
  · rw [hload _ (by omega) (by omega), h.rsp0]
  · rw [hload _ (by omega) (by omega), h.ist i hi]

theorem Ready.selectors {rsp0 : ℕ} (h : L.Ready m rsp0) : L.gdtr.LoadsCode m 0x08 0 ∧ L.gdtr.LoadsStack m 0x10 0 ∧
    L.gdtr.LoadsStack m 0x1B 3 ∧ L.gdtr.LoadsCode m 0x23 3 := by
  refine ⟨⟨by decide, _, segment_eq h.table (by decide), ?_⟩, ⟨by decide, _, segment_eq h.table (by decide), ?_⟩,
    ⟨by decide, _, segment_eq h.table (by decide), ?_⟩, ⟨by decide, _, segment_eq h.table (by decide), ?_⟩⟩
  · show (Segment.ofWord (descriptorWord 0 0xFFFFFFFF 0x9A 0x20)).LongCode 0
    decide
  · show (Segment.ofWord (descriptorWord 0 0xFFFFFFFF 0x92 0x00)).WritableData 0
    decide
  · show (Segment.ofWord (descriptorWord 0 0xFFFFFFFF 0xF2 0x00)).WritableData 3
    decide
  · show (Segment.ofWord (descriptorWord 0 0xFFFFFFFF 0xFA 0x20)).LongCode 3
    decide

theorem Ready.task {rsp0 : ℕ} (h : L.Ready m rsp0) : L.gdtr.taskBase m 0x28 = some L.tss := by
  have htss := L.tss_lt
  have hupper : L.gdtr.lookup m (0x28 + 8) = some (L.tss / 2 ^ 32) := by
    have hword : load64 m (L.gdtr.base + (0x28 + 8) / 8 * 8) = L.tss / 2 ^ 32 := h.table 6 (by decide)
    have hlimit : (0x28 + 8) / 8 * 8 + 7 ≤ L.gdtr.limit := show _ ≤ 55 by decide
    rw [Gdtr.lookup, if_pos hlimit, hword]
  have htype : ∀ b l, Segment.TaskState ⟨b, l, 0x8B, 0x40 / 2 ^ 4⟩ 11 :=
    fun _ _ => show 0x8B / 128 % 2 = 1 ∧ 0x8B % 32 = 11 by decide
  rw [Gdtr.taskBase, segment_eq h.table (by decide), Option.bind_some, hupper, Option.bind_some,
    show 0x28 / 8 = 5 from rfl, show L.tableWord 5 = descriptorWord (L.tss % 2 ^ 32) 103 0x8B 0x40 from rfl,
    ofWord_descriptorWord (by decide) (by decide), if_pos (htype _ _)]
  rw [Option.some_inj]
  dsimp only
  omega

end GdtLayout

/-! ## Those who name segments -/

/-- Only the gate of the double fault names a stack of its own. -/
theorem initIDT_gate (x : Text) (t : IdtEntries) {v : ℕ} (hv : v < 256) :
    ∃ handler flags, initIDT x t v = .gate handler flags (if v = 8 then 1 else 0) := by
  cases hs : stubFor v with
  | some s => exact ⟨_, _, initIDT_stub x t hs⟩
  | none =>
    unfold stubFor at hs
    have h48 : ¬v < 48 := fun h => by by_cases h32 : v < 32 <;> simp [h, h32] at hs
    simp only [initIDT, foldl_setIDTGate, setIDTGate_apply, List.mem_range, List.mem_range'_1]
    rw [if_neg (show ¬(32 ≤ v ∧ v < 32 + 16) by omega), if_neg (show ¬(9 ≤ v ∧ v < 9 + 23) by omega),
      if_neg (show v ≠ 8 by omega), if_neg (show ¬v < 8 by omega), if_pos hv, if_neg (show v ≠ 8 by omega)]
    split_ifs <;> exact ⟨_, _, rfl⟩

/-- The runs of the kernel as far as they concern the tables: `init_GDT`, the scheduler's store of a stack,
and anything else that leaves the bytes of the tables and GDTR alone. -/
inductive SegmentRun (L : GdtLayout) : Gdtr → Memory → ℕ → Prop
  | boot {r : Gdtr} {m m' : Memory} (h : L.initGDT m = some (r, m')) : SegmentRun L r m' 0
  | dispatch {r : Gdtr} {m : Memory} {rsp0 : ℕ} (run : SegmentRun L r m rsp0) {top : ℕ} (htop : top < 2 ^ 64) :
      SegmentRun L r (L.setRsp0 top m) top
  | other {r : Gdtr} {m m' : Memory} {rsp0 : ℕ} (run : SegmentRun L r m rsp0) (hm : Set.EqOn m' m L.tables) :
      SegmentRun L r m' rsp0

theorem SegmentRun.ready {L : GdtLayout} {r : Gdtr} {m : Memory} {rsp0 : ℕ} (run : SegmentRun L r m rsp0) :
    r = L.gdtr ∧ L.Ready m rsp0 := by
  induction run with
  | boot h =>
    obtain ⟨m', hm', hready, -⟩ := L.initGDT_spec _
    obtain ⟨rfl, rfl⟩ := Prod.mk.inj (Option.some.inj (hm'.symm.trans h))
    exact ⟨rfl, hready⟩
  | dispatch _ htop ih => exact ⟨ih.1, ih.2.setRsp0 htop⟩
  | other _ hm ih => exact ⟨ih.1, ih.2.congr hm⟩

/-- What the rest of the kernel takes the tables to hold. -/
structure SegmentsAgree (L : GdtLayout) (gdtr : Gdtr) (m : Memory) (rsp0 : ℕ) : Prop where
  gates : ∀ x t v, v < 256 → gdtr.LoadsCode m (initIDT x t v).selector 0
  kernelThreads : ∀ img t info entry size e ret cs ss,
    (Call.createThread t info entry size).context img = .fabricated e ret cs ss →
      gdtr.LoadsCode m cs 0 ∧ gdtr.LoadsStack m ss 0
  userThreads : ∀ img proc t info usInfo entry ksize usize e ret cs ss,
    (Call.createUserThread proc t info usInfo entry ksize usize).context img = .fabricated e ret cs ss →
      gdtr.LoadsCode m cs 3 ∧ gdtr.LoadsStack m ss 3
  systemCalls : ∀ (p : Processor) (r : Msrs) entry sstacks,
    (gdtr.LoadsCode m (p.syscall (r.initSyscalls entry sstacks)).cs 0 ∧
      gdtr.LoadsStack m (p.syscall (r.initSyscalls entry sstacks)).ss 0) ∧
    gdtr.LoadsCode m (p.sysretq (r.initSyscalls entry sstacks)).cs 3 ∧
      gdtr.LoadsStack m (p.sysretq (r.initSyscalls entry sstacks)).ss 3
  task : gdtr.taskBase m 0x28 = some L.tss
  stackTops : ∀ (p : Processor) x t v, v < 256 → p.frameTop (Tss.read m L.tss) (initIDT x t v) =
    (if v = 8 then L.ist1StackTop else if p.cs % 4 ≠ 0 then rsp0 else p.cpu.reg .rsp) / 16 * 16

/-- `init_GDT` never faults. In every run after it the selectors of all gates, of the frames of new threads and of
`syscall` and `sysret` name segments of the right kind and level, and an interrupt finds its stack in the task
state: the one for double faults, or what the scheduler stored last. -/
theorem segments_agree (L : GdtLayout) (m : Memory) :
    (∃ r m', L.initGDT m = some (r, m') ∧ Set.EqOn m' m L.regionᶜ) ∧
    ∀ r m' rsp0, SegmentRun L r m' rsp0 → SegmentsAgree L r m' rsp0 := by
  refine ⟨⟨L.gdtr, (L.initGDT_spec m).imp fun m' h => ⟨h.1, h.2.2⟩⟩, fun r m' rsp0 run => ?_⟩
  obtain ⟨rfl, hready⟩ := run.ready
  obtain ⟨hcode, hdata, hudata, hucode⟩ := hready.selectors
  refine ⟨fun x t v hv => ?_, fun img t info entry size e ret cs ss h => ?_,
    fun img proc t info usInfo entry ksize usize e ret cs ss h => ?_, fun p r entry sstacks => ?_, hready.task,
    fun p x t v hv => ?_⟩
  · obtain ⟨handler, flags, hgate⟩ := initIDT_gate x t hv
    rw [hgate]
    exact hcode
  · obtain ⟨-, -, rfl, rfl⟩ := Context.fabricated.inj h
    exact ⟨hcode, hdata⟩
  · obtain ⟨-, -, rfl, rfl⟩ := Context.fabricated.inj h
    exact ⟨hucode, hudata⟩
  · have hstar : (r.initSyscalls entry sstacks).star = 0x0010000800000000 := rfl
    have henter : (p.syscall (r.initSyscalls entry sstacks)).cs = 0x08 ∧
        (p.syscall (r.initSyscalls entry sstacks)).ss = 0x10 := by
      simp [Processor.syscall, hstar]
    have hleave : (p.sysretq (r.initSyscalls entry sstacks)).cs = 0x23 ∧
        (p.sysretq (r.initSyscalls entry sstacks)).ss = 0x1B := by
      simp [Processor.sysretq, hstar]
    rw [henter.1, henter.2, hleave.1, hleave.2]
    exact ⟨⟨hcode, hdata⟩, hucode, hudata⟩
  · obtain ⟨handler, flags, hgate⟩ := initIDT_gate x t hv
    have hist : (Tss.read m' L.tss).ist 0 = L.ist1StackTop := hready.ist 0 (by decide)
    have hrsp0 : (Tss.read m' L.tss).rsp0 = rsp0 := hready.rsp0
    rw [hgate, Processor.frameTop]
    by_cases h8 : v = 8
    · simp [h8, IdtEntry.gate, hist]
    · simp [h8, IdtEntry.gate, hrsp0]

def exampleLayout : GdtLayout :=
  ⟨0x1000, 0x1040, 0x2000, 0x4000, by decide, by decide, by decide, by decide, by decide, by decide⟩

/-- After the first dispatch of a thread whose kernel stack ends at 0x8000. -/
theorem segments_agree_dispatch : ∃ r m, SegmentRun exampleLayout r m 0x8000 ∧
    SegmentsAgree exampleLayout r m 0x8000 := by
  obtain ⟨m, hm, -⟩ := exampleLayout.initGDT_spec fun _ => 0
  have run : SegmentRun exampleLayout exampleLayout.gdtr (exampleLayout.setRsp0 0x8000 m) 0x8000 :=
    (SegmentRun.boot hm).dispatch (by decide)
  exact ⟨_, _, run, (segments_agree exampleLayout fun _ => 0).2 _ _ _ run⟩

end PointerOS
