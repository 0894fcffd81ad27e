import PointerOS.Interrupts

/-!
# The way through an interrupt and back

The frame that the processor and a stub push is the structure that `exception_handler`
reads. A handler may be interrupted in turn, to any depth: as long as the bytes of its
frame are kept, the stub and `iretq` give back the context that was interrupted.
-/
namespace PointerOS
open ByteMemory StackCode

/-! ## The table after `init_IDT` -/

lemma setIDTGate_apply (t : IdtEntries) (vector handler flags ist v : ℕ) :
    setIDTGate t vector handler flags ist v = if v = vector then .gate handler flags ist else t v :=
  Function.update_apply ..

lemma foldl_setIDTGate (l : List ℕ) (handler : ℕ → ℕ) (flags ist : ℕ) (t : IdtEntries) (v : ℕ) :
    l.foldl (fun t i => setIDTGate t i (handler i) flags ist) t v =
      if v ∈ l then .gate (handler v) flags ist else t v := by
  induction l generalizing t with
  | nil => simp
  | cons i l ih =>
    rw [List.foldl_cons, ih, setIDTGate_apply]
    by_cases hv : v ∈ l
    · simp [hv]
    · by_cases hvi : v = i
      · simp [hvi]
      · simp [hv, hvi]

/-- The stub of a vector that goes through `common_stub`. -/
def stubFor (v : ℕ) : Option Stub :=
  if v < 32 then some (.isr v) else if v < 48 then some (.irq (v - 32)) else if v = 255 then some (.isr 255) else none

lemma stubFor_assembled {v : ℕ} {s : Stub} (h : stubFor v = some s) : s.Assembled ∧ s.number = v ∧ v < 256 := by
  unfold stubFor at h
  split_ifs at h with h1 h2 h3
  all_goals obtain rfl := Option.some.inj h
  · exact ⟨.inl h1, rfl, by omega⟩
  · exact ⟨show v - 32 < 16 by omega, Nat.add_sub_cancel' (by omega), by omega⟩
  · exact ⟨.inr rfl, h3.symm, by omega⟩

theorem initIDT_stub (x : Text) (t : IdtEntries) {v : ℕ} {s : Stub} (h : stubFor v = some s) :
    initIDT x t v = .gate (x.addr s) 0x8E (if v = 8 then 1 else 0) := by
  unfold stubFor at h
  simp only [initIDT, foldl_setIDTGate, setIDTGate_apply, List.mem_range, List.mem_range'_1, Text.isrStubTable,
    Text.irqStubTable]
  split_ifs at h with h1 h2 h3
  all_goals obtain rfl := Option.some.inj h
  · rw [if_neg (by omega), if_neg (by omega), if_neg (by omega), if_neg (by omega)]
    by_cases h8 : v = 8
    · simp [h8]
    · by_cases h9 : v < 9
      · simp [h8, show ¬9 ≤ v by omega, show v < 8 by omega]
      · simp [h8, h1, show 9 ≤ v by omega]
  · simp [show v ≠ 255 by omega, show v ≠ 239 by omega, show v ≠ 129 by omega, show 32 ≤ v by omega, h2,
      show v ≠ 8 by omega]
  · simp [h3]

/-- The other gates are those of the two handlers that switch threads; user code can enter none. -/
theorem initIDT_present (x : Text) (t : IdtEntries) {v : ℕ} (hv : v < 256) :
    ((initIDT x t v).present = true ↔ (stubFor v).isSome ∨ v = 0x81 ∨ v = 0xEF) ∧ (initIDT x t v).dpl = 0 := by
  have hgate : ∀ h ist, (IdtEntry.gate h 0x8E ist).present = true ∧ (IdtEntry.gate h 0x8E ist).dpl = 0 := fun h ist =>
    ⟨show (0x8E : ℕ).testBit 7 = true by decide, show 0x8E / 32 % 4 = 0 by decide⟩
  cases hs : stubFor v with
  | some s =>
    rw [initIDT_stub x t hs]
    exact ⟨iff_of_true (hgate _ _).1 (.inl rfl), (hgate _ _).2⟩
  | none =>
    unfold stubFor at hs
    have h32 : ¬v < 32 := fun h => absurd hs (by simp [h])
    have h48 : ¬v < 48 := fun h => absurd hs (by simp [h32, h])
    have h255 : v ≠ 255 := fun h => absurd hs (by simp [h])
    simp only [initIDT, foldl_setIDTGate, setIDTGate_apply, List.mem_range, List.mem_range'_1]
    rw [if_neg h255]
    by_cases hEF : v = 0xEF
    · rw [if_pos hEF]
      exact ⟨iff_of_true (hgate _ _).1 (.inr (.inr hEF)), (hgate _ _).2⟩
    · rw [if_neg hEF]
      by_cases h81 : v = 0x81
      · rw [if_pos h81]
        exact ⟨iff_of_true (hgate _ _).1 (.inr (.inl h81)), (hgate _ _).2⟩
      · rw [if_neg h81, if_neg (by omega), if_neg (by omega), if_neg (by omega), if_neg (by omega), if_pos hv]
        exact ⟨by simp [IdtEntry.present, IdtEntry.gate, hEF, h81], rfl⟩

lemma gate_offset {h flags ist : ℕ} (hlt : h < 2 ^ 64) : (IdtEntry.gate h flags ist).offset = h := by
  simp only [IdtEntry.gate, IdtEntry.offset]
  omega

/-! ## The frame -/

namespace Processor

/-- The words from the processor's first push to the stub's last, in order. -/
def frame (p : Processor) (s : Stub) (err : Option ℕ) : List ℕ :=
  [p.ss, p.cpu.reg .rsp, p.rflags, p.cs, p.rip] ++ err.toList ++ s.pushes ++ savedRegisters.map p.cpu.reg

def interruptRegisters (p : Processor) (v err : ℕ) : InterruptRegisters where
  rax := p.cpu.reg .rax
  rbx := p.cpu.reg .rbx
  rcx := p.cpu.reg .rcx
  rdx := p.cpu.reg .rdx
  rsi := p.cpu.reg .rsi
  rdi := p.cpu.reg .rdi
  rbp := p.cpu.reg .rbp
  r8 := p.cpu.reg .r8
  r9 := p.cpu.reg .r9
  r10 := p.cpu.reg .r10
  r11 := p.cpu.reg .r11
  r12 := p.cpu.reg .r12
  r13 := p.cpu.reg .r13
  r14 := p.cpu.reg .r14
  r15 := p.cpu.reg .r15
  intNo := v
  errCode := err
  rip := p.rip
  cs := p.cs
  rflags := p.rflags
  rsp := p.cpu.reg .rsp
  ss := p.ss

/-- The processor `s` at the call of a stub that was entered from `p`, with the words of the frame below `top`. -/
structure AtCall (p : Processor) (top : ℕ) (words : List ℕ) (s : Processor) : Prop where
  size : s.cpu.reg .rsp + 8 * words.length = top
  pointer : s.cpu.reg .rdi = s.cpu.reg .rsp
  ring0 : s.cs % 4 = 0
  holds : Holds s.cpu.mem (s.cpu.reg .rsp) words.reverse
  frame : ∀ a, a < s.cpu.reg .rsp ∨ top ≤ a → s.cpu.mem a = p.cpu.mem a

lemma frameTop_lt (p : Processor) (tss : Tss) (e : IdtEntry) : p.frameTop tss e < 2 ^ 64 := by
  refine lt_of_le_of_lt (Nat.div_mul_le_self _ _) ?_
  split_ifs
  · exact tss.lt.2 _
  · exact tss.lt.1
  · exact p.cpu.lt _

lemma frame_length (p : Processor) (s : Stub) (err : Option ℕ) : (p.frame s err).length ≤ 23 := by
  unfold frame Stub.pushes
  cases err <;> split_ifs <;> simp [savedRegisters]

lemma frame_lt (p : Processor) {s : Stub} {err : Option ℕ} (hs : s.number < 2 ^ 64) (herr : ∀ e ∈ err, e < 2 ^ 64) :
    ∀ v ∈ p.frame s err, v < 2 ^ 64 := by
  intro v hv
  simp only [frame, List.mem_append, List.mem_cons, List.not_mem_nil, or_false, List.mem_map, Option.mem_toList] at hv
  rcases hv with (((rfl | rfl | rfl | rfl | rfl) | hv) | hv) | ⟨r, -, rfl⟩
  · exact p.ss_lt.trans (by decide)
  · exact p.cpu.lt _
  · exact p.rflags_lt
  · exact p.cs_lt.trans (by decide)
  · exact p.rip_lt
  · exact herr v hv
  · unfold Stub.pushes at hv
    split_ifs at hv
    all_goals
      simp only [List.mem_cons, List.not_mem_nil, or_false] at hv
      omega
  · exact p.cpu.lt r

/-- Every vector with a stub is delivered to it, and the frame is pushed. -/
theorem entered_spec (p : Processor) (x : Text) (t : IdtEntries) (tss : Tss) {v : ℕ} {stub : Stub} {err : Option ℕ}
    (hstub : stubFor v = some stub) (herr : ∀ e ∈ err, e < 2 ^ 64)
    (hroom : 184 ≤ p.frameTop tss (initIDT x t v)) :
    ∃ s, p.entered x (initIDT x t) tss v err = some (stub, s) ∧
      p.AtCall (p.frameTop tss (initIDT x t v)) (p.frame stub err) s := by
  obtain ⟨hassembled, hnumber, hv⟩ := stubFor_assembled hstub
  obtain ⟨hat, hlt⟩ := x.located stub hassembled
  have hgate := initIDT_stub x t hstub
  have hpresent : (initIDT x t v).present = true := by
    rw [hgate]
    exact show (0x8E : ℕ).testBit 7 = true by decide
  have hoffset : (p.through tss (initIDT x t v) err).rip = x.addr stub := by
    rw [through, hgate]
    exact gate_offset hlt
  have hselector : (p.through tss (initIDT x t v) err).cs = 8 := by
    rw [through, hgate]
    rfl
  obtain ⟨e, he⟩ : ∃ e, e = p.through tss (initIDT x t v) err := ⟨_, rfl⟩
  have hentered : p.entered x (initIDT x t) tss v err = some (stub, e.run stub.enter) := by
    simp only [entered, deliver]
    rw [if_pos ⟨by omega, hpresent⟩, ← he]
    simp [he, hoffset, hat]
  -- the pushes of the processor, of the stub and of `common_stub` are one list of words
  obtain ⟨c, hc⟩ : ∃ c, c = p.cpu.set .rsp (p.frameTop tss (initIDT x t v)) := ⟨_, rfl⟩
  have hcpu : e.cpu = c.pushWords .rsp ([p.ss, p.cpu.reg .rsp, p.rflags, p.cs, p.rip] ++ err.toList) := by
    rw [he, hc, through]
  have hcsp : c.reg .rsp = p.frameTop tss (initIDT x t v) := by
    rw [hc, Cpu.set_same (p.frameTop_lt tss _)]
  have hcmem : c.mem = p.cpu.mem := by rw [hc, Cpu.set_mem]
  have hsaved : savedRegisters.map (e.cpu.pushWords .rsp stub.pushes).reg = savedRegisters.map p.cpu.reg :=
    List.map_congr_left fun r hr => by
      have hne : r ≠ .rsp := fun h => absurd (h ▸ hr) (by decide)
      rw [Cpu.pushWords_reg hne, hcpu, Cpu.pushWords_reg hne, hc, Cpu.set_of_ne hne]
  have hrun : (e.run stub.enter).cpu = (c.pushWords .rsp (p.frame stub err)).set .rdi
      ((c.pushWords .rsp (p.frame stub err)).reg .rsp) := by
    simp only [run, Stub.enter, commonEnter, Cpu.run_append, Cpu.run_pushImm, Cpu.run_cons, Cpu.run_nil, Cpu.step]
    rw [Cpu.run_push (by decide), hsaved, hcpu, ← Cpu.pushWords_append, ← Cpu.pushWords_append]
    simp only [frame, List.append_assoc]
  have hlen := p.frame_length stub err
  have hpushed : Cpu.Pushed .rsp c (c.pushWords .rsp (p.frame stub err)) (p.frame stub err) :=
    Cpu.pushWords_spec (p.frame_lt (by omega) herr) (by omega)
  obtain ⟨hsize, -, hholds, hframe⟩ := hpushed
  have hsp : (e.run stub.enter).cpu.reg .rsp = (c.pushWords .rsp (p.frame stub err)).reg .rsp := by
    rw [hrun, Cpu.set_of_ne (by decide)]
  have hmem : (e.run stub.enter).cpu.mem = (c.pushWords .rsp (p.frame stub err)).mem := by rw [hrun, Cpu.set_mem]
  refine ⟨e.run stub.enter, hentered, ⟨?_, ?_, ?_, ?_, fun a ha => ?_⟩⟩
  · rw [hsp, hsize, hcsp]
  · rw [hsp, hrun, Cpu.set_same (Cpu.lt _ _)]
  · rw [run, he, hselector]
  · rw [hsp, hmem]
    exact hholds
  · rw [hmem, hframe a (by rw [hcsp, ← hsp]; exact ha), hcmem]

/-- The stub and `iretq` take back the words that they find. -/
theorem left_spec {s : Processor} {f : Reg → ℕ} {n err rip cs rflags rsp ss : ℕ} {l : List ℕ}
    (hholds : Holds s.cpu.mem (s.cpu.reg .rsp)
      (restoredRegisters.map f ++ (n :: err :: rip :: cs :: rflags :: rsp :: ss :: l)))
    (hlt : s.cpu.reg .rsp + 176 < 2 ^ 64) (hrsp : rsp < 2 ^ 64) :
    (∀ r, s.left.cpu.reg r = if r = .rsp then rsp else f r) ∧ s.left.cpu.mem = s.cpu.mem ∧ s.left.rip = rip ∧
      s.left.cs = cs % 2 ^ 16 ∧ s.left.rflags = rflags ∧ s.left.ss = ss % 2 ^ 16 := by
  rw [holds_append] at hholds
  have hlen : 8 * (restoredRegisters.map f).length = 120 := rfl
  rw [hlen] at hholds
  obtain ⟨hregs, hwords⟩ := hholds
  obtain ⟨c, hc⟩ : ∃ c, c = s.cpu.run .rsp (fun _ c => c) (restoredRegisters.map .pop : Code) := ⟨_, rfl⟩
  have hpopped : Cpu.Popped .rsp s.cpu c restoredRegisters f := by
    rw [hc]
    exact Cpu.run_pop (by decide) hregs (show s.cpu.reg .rsp + 8 * 15 < 2 ^ 64 by omega)
  have htop : c.reg .rsp = s.cpu.reg .rsp + 120 := hpopped.top
  have hrun : (s.run commonLeave).cpu = c.set .rsp (c.reg .rsp + 16) := by
    simp only [run, commonLeave, Cpu.run_append, Cpu.run_cons, Cpu.run_nil, Cpu.step, ← hc]
  have hrunsp : (s.run commonLeave).cpu.reg .rsp = s.cpu.reg .rsp + 136 := by
    rw [hrun, htop, Cpu.set_same (by omega)]
  have hrunmem : (s.run commonLeave).cpu.mem = s.cpu.mem := by rw [hrun, Cpu.set_mem, hpopped.mem]
  have hw : ∀ i v, (n :: err :: rip :: cs :: rflags :: rsp :: ss :: l)[i + 2]? = some v →
      load64 (s.run commonLeave).cpu.mem ((s.run commonLeave).cpu.reg .rsp + 8 * i) = v := fun i v hv => by
    have ha : s.cpu.reg .rsp + 136 + 8 * i = s.cpu.reg .rsp + 120 + 8 * (i + 2) := by omega
    rw [hrunmem, hrunsp, ha]
    exact hwords (i + 2) v hv
  have h0 := hw 0 rip rfl
  have h1 := hw 1 cs rfl
  have h2 := hw 2 rflags rfl
  have h3 := hw 3 rsp rfl
  have h4 := hw 4 ss rfl
  have hleft : s.left.cpu = (s.run commonLeave).cpu.set .rsp rsp := by
    simp only [left, iretq, h3]
  have hmem : s.left.cpu.mem = s.cpu.mem := by rw [hleft, Cpu.set_mem, hrunmem]
  refine ⟨fun r => ?_, hmem, by simp only [left, iretq, h0, h1, h2, h4, and_self]⟩
  split_ifs with hr
  · rw [hleft, hr, Cpu.set_same hrsp]
  · have hin : r ∈ restoredRegisters := by
      cases r
      all_goals first | decide | exact absurd rfl hr
    rw [hleft, Cpu.set_of_ne hr, hrun, Cpu.set_of_ne hr, hpopped.reg r hin]

end Processor

/-! ## Interrupts -/

/-- The vector as the processor raises it, with its error code, and its stub. -/
structure Raised (v : ℕ) (stub : Stub) (err : Option ℕ) : Prop where
  stub : stubFor v = some stub
  code : err.isSome = pushesErrCode v
  lt : ∀ e ∈ err, e < 2 ^ 64

/-- The exceptions with an error code for which the stub pushes another. -/
def shiftedVectors : List ℕ := [17, 21, 29, 30]

/-- The work of a handler that leaves the bytes of `keep` alone, with the interrupts that it takes. -/
inductive Handles (x : Text) (idt : IdtEntries) (tss : Tss) : Set ℕ → Processor → Processor → Prop
  | done {keep : Set ℕ} (p : Processor) : Handles x idt tss keep p p
  | work {keep : Set ℕ} {p p' q : Processor} (hkeep : Set.EqOn p'.cpu.mem p.cpu.mem keep)
      (h : Handles x idt tss keep p' q) : Handles x idt tss keep p q
  | interrupt {keep : Set ℕ} {p s s' q : Processor} {v : ℕ} {stub : Stub} {err : Option ℕ} (hr : Raised v stub err)
      (hentered : p.entered x idt tss v err = some (stub, s)) (hroom : 184 ≤ p.frameTop tss (idt v))
      (hbelow : Disjoint (Set.Ico (p.frameTop tss (idt v) - 184) (p.frameTop tss (idt v))) keep)
      (hbody : Handles x idt tss (keep ∪ Set.Ico (s.cpu.reg .rsp) (p.frameTop tss (idt v))) s s')
      (hreturn : s'.cpu.reg .rsp = s.cpu.reg .rsp) (h : Handles x idt tss keep s'.left q) : Handles x idt tss keep p q

/-- The registers of `q` are those of `p`. -/
structure Processor.SameContext (q p : Processor) : Prop where
  reg : ∀ r, q.cpu.reg r = p.cpu.reg r
  rip : q.rip = p.rip
  cs : q.cs = p.cs
  rflags : q.rflags = p.rflags
  ss : q.ss = p.ss

/-- The stubs agree with the processor on the error code, but for four vectors. -/
lemma stubFor_hasErrCode {v : ℕ} {stub : Stub} (h : stubFor v = some stub) :
    stub.hasErrCode = (pushesErrCode v && decide (v ∉ shiftedVectors)) := by
  have hlow : ∀ v < 32, (Stub.isr v).hasErrCode = (pushesErrCode v && decide (v ∉ shiftedVectors)) := by decide
  have hirq : ∀ v < 48, 32 ≤ v → (pushesErrCode v && decide (v ∉ shiftedVectors)) = false := by decide
  unfold stubFor at h
  split_ifs at h with h1 h2 h3
  all_goals obtain rfl := Option.some.inj h
  · exact hlow v h1
  · rw [hirq v h2 (by omega)]
    rfl
  · rw [h3]
    rfl

namespace Raised
variable {v : ℕ} {stub : Stub} {err : Option ℕ}

lemma frame_reverse (hr : Raised v stub err) (p : Processor) (hv : v ∉ shiftedVectors) :
    (p.frame stub err).reverse = restoredRegisters.map p.cpu.reg ++
      [v, err.getD 0, p.rip, p.cs, p.rflags, p.cpu.reg .rsp, p.ss] := by
  obtain ⟨-, hnumber, -⟩ := stubFor_assembled hr.stub
  have hcode : stub.hasErrCode = err.isSome := by
    rw [stubFor_hasErrCode hr.stub, hr.code]
    simp [hv]
  subst hnumber
  cases err with
  | none => simp [Processor.frame, Stub.pushes, hcode, savedRegisters, restoredRegisters]
  | some e => simp [Processor.frame, Stub.pushes, hcode, savedRegisters, restoredRegisters]

lemma frame_shifted (hr : Raised v stub err) (p : Processor) (hv : v ∈ shiftedVectors) :
    ∃ e, err = some e ∧ (p.frame stub err).reverse = restoredRegisters.map p.cpu.reg ++
      [v, 0, e, p.rip, p.cs, p.rflags, p.cpu.reg .rsp, p.ss] := by
  obtain ⟨-, hnumber, -⟩ := stubFor_assembled hr.stub
  have hcode : stub.hasErrCode = false := by
    rw [stubFor_hasErrCode hr.stub]
    simp [hv]
  have hpushes : ∀ v ∈ shiftedVectors, pushesErrCode v = true := by decide
  obtain ⟨e, rfl⟩ := Option.isSome_iff_exists.mp (hr.code.trans (hpushes v hv))
  subst hnumber
  exact ⟨e, rfl, by simp [Processor.frame, Stub.pushes, hcode, savedRegisters, restoredRegisters]⟩

end Raised

variable {x : Text} {t : IdtEntries} {tss : Tss} {p q s s' : Processor} {v top : ℕ} {stub : Stub} {err : Option ℕ}
  {keep : Set ℕ}

lemma Raised.intNo_read (hr : Raised v stub err) {m : Memory} {a : ℕ} (h : Holds m a (p.frame stub err).reverse) :
    (InterruptRegisters.read m a).intNo = v := by
  by_cases hv : v ∈ shiftedVectors
  · obtain ⟨e, -, hframe⟩ := hr.frame_shifted p hv
    rw [hframe] at h
    exact h 15 v rfl
  · rw [hr.frame_reverse p hv] at h
    exact h 15 v rfl

/-- The pushes miss the bytes outside the frame. -/
lemma Processor.AtCall.keeps (h : p.AtCall top (p.frame stub err) s)
    (hbelow : Disjoint (Set.Ico (top - 184) top) keep) : Set.EqOn s.cpu.mem p.cpu.mem keep := by
  have hlen := p.frame_length stub err
  have hsize := h.size
  intro a ha
  refine h.frame a ?_
  by_contra hin
  exact Set.disjoint_left.mp hbelow (Set.mem_Ico.mpr ⟨by omega, by omega⟩) ha

/-- Whatever interrupts it takes, a handler leaves the bytes alone. -/
theorem Handles.keeps (h : Handles x (initIDT x t) tss keep p q) : Set.EqOn q.cpu.mem p.cpu.mem keep := by
  induction h with
  | done p => exact Set.eqOn_refl _ _
  | work hkeep _ ih => exact ih.trans hkeep
  | @interrupt keep p s s' q v stub err hr hentered hroom hbelow _ _ _ ihbody ih =>
    obtain ⟨s₁, hs₁, hcall⟩ := p.entered_spec x t tss hr.stub hr.lt hroom
    obtain rfl : s = s₁ := (Prod.mk.inj (Option.some.inj (hentered.symm.trans hs₁))).2
    have hbody : Set.EqOn s'.left.cpu.mem s.cpu.mem keep := ihbody.mono Set.subset_union_left
    exact ih.trans (hbody.trans (hcall.keeps hbelow))

lemma interruptRegisters_read {m : Memory} {a e : ℕ} (h : Holds m a (restoredRegisters.map p.cpu.reg ++
      [v, e, p.rip, p.cs, p.rflags, p.cpu.reg .rsp, p.ss])) :
    InterruptRegisters.read m a = p.interruptRegisters v e := by
  unfold InterruptRegisters.read
  dsimp only
  rw [h 0 _ rfl, h 1 _ rfl, h 2 _ rfl, h 3 _ rfl, h 4 _ rfl, h 5 _ rfl, h 6 _ rfl, h 7 _ rfl, h 8 _ rfl, h 9 _ rfl,
    h 10 _ rfl, h 11 _ rfl, h 12 _ rfl, h 13 _ rfl, h 14 _ rfl, h 15 _ rfl, h 16 _ rfl, h 17 _ rfl, h 18 _ rfl,
    h 19 _ rfl, h 20 _ rfl, h 21 _ rfl]
  rfl

/-- Interrupts are acknowledged, exceptions are not. -/
lemma exceptionHandler_eoi (irqHandlers : ℕ → ℕ) {r : InterruptRegisters} (hstub : stubFor v = some stub)
    (hv : r.intNo = v) : (exceptionHandler irqHandlers r).count .lapicEoi = if v < 32 then 0 else 1 := by
  have hisr : (isrHandler r).count .lapicEoi = 0 := by
    unfold isrHandler
    split_ifs <;> simp
  unfold stubFor at hstub
  unfold exceptionHandler irqHandler
  rw [hv]
  split_ifs at hstub with h1 h2 h3
  · simp [h1, hisr, show ¬31 < v by omega, show v ≠ 255 by omega]
  · simp [h1, h2, show 31 < v by omega, show v ≠ 255 by omega]
  · simp [h3]

/-- An interrupt gives its handler the registers that it found, and gives them back, however the handler runs that
keeps its frame. The handler that is installed for an interrupt returns before the acknowledgement. -/
theorem interrupt_transparent (hr : Raised v stub err) (hroom : 184 ≤ p.frameTop tss (initIDT x t v))
    (hbelow : Disjoint (Set.Ico (p.frameTop tss (initIDT x t v) - 184) (p.frameTop tss (initIDT x t v))) keep) :
    ∃ s, p.entered x (initIDT x t) tss v err = some (stub, s) ∧ s.cs % 4 = 0 ∧
      (∀ irqHandlers, (exceptionHandler irqHandlers (.read s.cpu.mem (s.cpu.reg .rdi))).count .lapicEoi =
        if v < 32 then 0 else 1) ∧
      (v ∉ shiftedVectors → .read s.cpu.mem (s.cpu.reg .rdi) = p.interruptRegisters v (err.getD 0)) ∧
      ∀ s', Handles x (initIDT x t) tss (keep ∪ Set.Ico (s.cpu.reg .rsp) (p.frameTop tss (initIDT x t v))) s s' →
        s'.cpu.reg .rsp = s.cpu.reg .rsp →
          Set.EqOn s'.left.cpu.mem p.cpu.mem keep ∧ (v ∉ shiftedVectors → s'.left.SameContext p) ∧
          (v ∈ shiftedVectors → some s'.left.rip = err) := by
  obtain ⟨s, hentered, hcall⟩ := p.entered_spec x t tss hr.stub hr.lt hroom
  have htop := p.frameTop_lt tss (initIDT x t v)
  refine ⟨s, hentered, hcall.ring0, fun irqHandlers => ?_, fun hv => ?_,
    fun s' hbody hreturn => ⟨?_, fun hv => ?_, fun hv => ?_⟩⟩
  · refine exceptionHandler_eoi irqHandlers hr.stub ?_
    rw [hcall.pointer]
    exact hr.intNo_read hcall.holds
  · rw [hcall.pointer]
    exact interruptRegisters_read (hr.frame_reverse p hv ▸ hcall.holds)
  · exact (hbody.keeps.mono Set.subset_union_left).trans (hcall.keeps hbelow)
  all_goals
    have hsize := hcall.size
    have hholds : Holds s'.cpu.mem (s'.cpu.reg .rsp) (p.frame stub err).reverse := by
      rw [hreturn]
      refine hcall.holds.congr (hbody.keeps.mono fun a ha => .inr ?_)
      rwa [List.length_reverse, hsize] at ha
  · have hlen : (p.frame stub err).length = 22 := by
      rw [← List.length_reverse, hr.frame_reverse p hv]
      rfl
    rw [hr.frame_reverse p hv] at hholds
    obtain ⟨hreg, -, hrip, hcs, hrflags, hss⟩ := s'.left_spec hholds (by omega) (p.cpu.lt _)
    refine ⟨fun r => (hreg r).trans ?_, hrip, ?_, hrflags, ?_⟩
    · split_ifs with h
      · rw [h]
      · rfl
    · rw [hcs, Nat.mod_eq_of_lt p.cs_lt]
    · rw [hss, Nat.mod_eq_of_lt p.ss_lt]
  · obtain ⟨e, rfl, hframe⟩ := hr.frame_shifted p hv
    have hlen : (p.frame stub (some e)).length = 23 := by
      rw [← List.length_reverse, hframe]
      rfl
    rw [hframe] at hholds
    obtain ⟨-, -, hrip, -⟩ := s'.left_spec hholds (by omega) p.rflags_lt
    rw [hrip]

lemma Stub.Assembled.stubFor_number {s : Stub} (h : s.Assembled) : stubFor s.number = some s ∧ s.number < 256 := by
  cases s with
  | isr v =>
    change stubFor v = some (.isr v) ∧ v < 256
    unfold stubFor
    rcases h with h | rfl
    · rw [if_pos h]
      exact ⟨rfl, by omega⟩
    · decide
  | irq n =>
    have hn : n < 16 := h
    change stubFor (32 + n) = some (.irq n) ∧ 32 + n < 256
    unfold stubFor
    rw [if_neg (by omega), if_pos (by omega), Nat.add_sub_cancel_left]
    exact ⟨rfl, by omega⟩

/-- Stubs 16 bytes apart. -/
def Text.apart : Text where
  addr s := 0x10000 + 16 * s.number
  yieldHandler := 0x20001
  lapicTimerHandler := 0x20002
  stubAt a := if a % 16 = 0 then stubFor ((a - 0x10000) / 16) else none
  located s hs := by
    obtain ⟨hstub, hlt⟩ := hs.stubFor_number
    rw [if_pos (by omega), Nat.add_sub_cancel_left, Nat.mul_div_cancel_left _ (by omega)]
    exact ⟨hstub, by omega⟩
  others := by decide

/-- A thread in user mode. -/
def Processor.user : Processor where
  cpu := ⟨fun _ => 7, fun _ => 0, fun _ => by decide⟩
  rip := 0x400000
  cs := 0x23
  rflags := 0x202
  ss := 0x1B
  rip_lt := by decide
  cs_lt := by decide
  rflags_lt := by decide
  ss_lt := by decide

def Tss.example : Tss := ⟨0x8000, fun _ => 0x9000, by decide, fun _ => by decide⟩

/-- A page fault out of user mode. -/
theorem interrupt_transparent_pageFault :
    ∃ s, Processor.user.entered .apart (initIDT .apart fun _ => .gate 0 0 0) .example 14 (some 6) =
        some (.isr 14, s) ∧
      s.left.SameContext .user := by
  have hr : Raised 14 (.isr 14) (some 6) := ⟨rfl, rfl, by simp⟩
  have hroom : 184 ≤ Processor.user.frameTop .example (initIDT .apart (fun _ => .gate 0 0 0) 14) := by
    rw [initIDT_stub .apart _ hr.stub]
    exact show 184 ≤ 0x8000 by decide
  obtain ⟨s, hs, -, -, -, hleft⟩ := interrupt_transparent hr hroom (Set.disjoint_empty _)
  exact ⟨s, hs, (hleft s (.done s) rfl).2.1 (by decide)⟩

end PointerOS
