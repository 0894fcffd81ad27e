import PointerOS.SchedulerRuns

/-!
# The context switch

The registers that `lapic_timer_handler` and `yield_handler` push and pop around `scheduler_handler`,
and the runs of a machine on which threads work on their own stacks until an interrupt switches them
out. A record runs along of the stacks of each thread and of what it was last switched out with. The
words of the stacks are named by their virtual addresses, and so the runs are those in which every
byte of a stack keeps its place in physical memory, and has it to itself.
-/
namespace PointerOS

structure Registers where
  rax : ℕ
  rbx : ℕ
  rcx : ℕ
  rdx : ℕ
  rsi : ℕ
  rdi : ℕ
  rbp : ℕ
  r8 : ℕ
  r9 : ℕ
  r10 : ℕ
  r11 : ℕ
  r12 : ℕ
  r13 : ℕ
  r14 : ℕ
  r15 : ℕ
  rip : ℕ
  cs : ℕ
  rflags : ℕ
  rsp : ℕ
  ss : ℕ
deriving DecidableEq

/-- What an interrupt and then the handler push, in order. -/
def Registers.pushed (r : Registers) : List ℕ :=
  [r.ss, r.rsp, r.rflags, r.cs, r.rip,
    r.r15, r.r14, r.r13, r.r12, r.r11, r.r10, r.r9, r.r8, r.rbp, r.rdi, r.rsi, r.rdx, r.rcx, r.rbx, r.rax]

/-- What the handler pops and `iretq` takes. -/
def Kernel.popped (k : Kernel) (rsp : ℕ) : Registers :=
  let w i := k.words (cell k.cr3 ((rsp + 8 * i) % 2 ^ 64))
  { rax := w 0, rbx := w 1, rcx := w 2, rdx := w 3, rsi := w 4, rdi := w 5, rbp := w 6, r8 := w 7, r9 := w 8
    r10 := w 9, r11 := w 10, r12 := w 11, r13 := w 12, r14 := w 13, r15 := w 14
    rip := w 15, cs := w 16, rflags := w 17, rsp := w 18, ss := w 19 }

/-- Where an interrupt starts to push: out of ring 3 the processor takes `tss.rsp0`. -/
def Kernel.interruptTop (k : Kernel) (r : Registers) : ℕ := (if r.cs % 4 = 3 then k.rsp0 else r.rsp) / 16 * 16

/-! ## Stacks -/

/-- The address space of a thread's process. -/
def Kernel.space (k : Kernel) (t : ℕ) : ℕ := (k.processes (k.threads t).process).pml4

/-- The bytes of the stacks in a thread's record. A user stack lies below its address. -/
def Kernel.stackBytes (k : Kernel) (t : ℕ) : Set (ℕ × ℕ) :=
  let r := k.threads t
  cell (k.space t) '' Set.Ico r.kernelStack.bottom (r.kernelStack.bottom + r.kernelStack.size) ∪
    cell (k.space t) '' Set.Ico (r.userStack.bottom - r.userStack.size) r.userStack.bottom

/-- The place of a byte in physical memory. The upper half is looked up in the address space in use. -/
def Kernel.physical (k : Kernel) (x : ℕ × ℕ) : Option ℕ :=
  (k.vm.tables.walk (if x.2 < 2 ^ 47 then x.1 else k.cr3) x.2).map (·.paddr)

/-- All bytes of the word. -/
def Inside (own : Set (ℕ × ℕ)) (x : ℕ × ℕ) : Prop := ∀ j < 8, (x.1, x.2 + j) ∈ own

/-- Some byte of the word. -/
def Touches (own : Set (ℕ × ℕ)) (x : ℕ × ℕ) : Prop := ∃ j < 8, (x.1, x.2 + j) ∈ own

/-- The stacks have at least 4096 bytes, those of the kernel in the half that is shared. -/
structure Thread.Roomy (r : Thread) : Prop where
  kernel : 4096 ≤ r.kernelStack.size ∧ 2 ^ 47 ≤ r.kernelStack.bottom ∧
    r.kernelStack.bottom + r.kernelStack.size < 2 ^ 64
  user : r.process ≠ 0 → 4096 ≤ r.userStack.size ∧ r.userStack.size ≤ r.userStack.bottom

/-! ## The machine -/

/-- What a thread is to go on with: the registers that it was switched out with, or those that its
creation made up. -/
inductive Context
  | pushed (r : Registers)
  | fabricated (entry ret cs ss : ℕ)

/-- The words at the saved stack pointer. -/
def Context.words (sp : ℕ) : Context → List ℕ
  | pushed r => r.pushed.reverse
  | fabricated entry ret cs ss => List.replicate 15 0 ++ [entry, cs, 0x202, sp + 160, ss, ret]

structure Machine where
  kernel : Kernel
  trace : Trace
  registers : Registers
  own : ℕ → Set (ℕ × ℕ)
  context : ℕ → Context

namespace Call

/-- What a new thread starts with. -/
def context (img : Image) : Call → Context
  | createThread _ _ entry _ => .fabricated entry img.threadExit 0x08 0x10
  | createUserThread _ _ _ _ entry _ _ => .fabricated entry 0x300000 0x23 0x1B
  | _ => .fabricated 0 0 0 0

/-- Nothing is destroyed, a user thread gets a process, and the record of a new process is none that
a thread has. -/
def Keeping (k : Kernel) (g : Trace) : Call → Prop
  | createUserThread proc _ _ _ _ _ _ => proc ≠ 0
  | createUserProcess p => ∀ t ∈ g.live, (k.threads t).process ≠ p
  | cleanupRound => False
  | _ => True

end Call

namespace Machine

/-- No byte belongs to two threads. -/
def Apart (m : Machine) : Prop := m.trace.live.Pairwise fun t u => Disjoint (m.own t) (m.own u)

/-- No two bytes of the stacks have one place. -/
def Single (m : Machine) : Prop :=
  ∀ t ∈ m.trace.live, ∀ u ∈ m.trace.live, ∀ x ∈ m.own t, ∀ y ∈ m.own u, ∀ p,
    m.kernel.physical x = some p → m.kernel.physical y = some p → x = y

/-- The bytes of the stacks stay in their places, and those of a new stack have places of their own. -/
structure Backed (m m' : Machine) : Prop where
  stays : ∀ t ∈ m.trace.live, ∀ x ∈ m.own t, m'.kernel.physical x = m.kernel.physical x
  single : m'.Single

/-- The thread of the processor writes to its own stacks, and its registers change. -/
def worked (m : Machine) (w : ℕ × ℕ → ℕ) (vm : Vm FrameSource) (regions : List VmInfo) (r : Registers) : Machine :=
  { m with kernel := { m.kernel with words := w, vm := vm, regions := regions }, registers := r }

/-- After a call that does not enter `scheduler_handler`. A new thread has the stacks of its record. -/
def called (img : Image) (m : Machine) (c : Call) (k : Kernel) (g : Trace) : Machine :=
  { m with
    kernel := k
    trace := g
    own := fun t => if t ∈ m.trace.live then m.own t else k.stackBytes t
    context := fun t => if t ∈ m.trace.live then m.context t else c.context img }

/-- The registers are pushed, the call ends up in `scheduler_handler`, which may use the stack below
them, and the registers of the thread that has the processor then are popped. -/
structure Interrupts (img : Image) (m : Machine) (c : Call) (w : ℕ × ℕ → ℕ) (k : Kernel) (r : ℕ) (m' : Machine) :
    Prop where
  ring0 : m.registers.cs % 4 ≠ 3 → m.registers.rsp < 2 ^ 64 ∧ 160 ≤ m.kernel.interruptTop m.registers ∧
    ∀ i < 20, Inside (m.own m.kernel.currentThread)
      (cell m.kernel.cr3 (m.kernel.interruptTop m.registers - 160 + 8 * i))
  ring3 : m.registers.cs % 4 = 3 → (m.kernel.threads m.kernel.currentThread).process ≠ 0
  mapped : ∀ i < 20, (m.kernel.physical (cell m.kernel.cr3 (m.kernel.interruptTop m.registers - 160 + 8 * i))).isSome
  scratch : ∀ x, (Touches (m.own m.kernel.currentThread) x →
      ∃ i < 20, x = cell m.kernel.cr3 (m.kernel.interruptTop m.registers - 160 + 8 * i)) →
    w x = (m.kernel.pushWords (m.kernel.interruptTop m.registers) m.registers.pushed).2.words x
  entry : c.handlerEntry { m.kernel with words := w } =
    some (k, (m.kernel.pushWords (m.kernel.interruptTop m.registers) m.registers.pushed).1)
  handler : k.schedulerHandler (m.kernel.pushWords (m.kernel.interruptTop m.registers) m.registers.pushed).1 =
    some (r, m'.kernel)
  run : c.run img { m.kernel with words := w } m.trace = some (m'.kernel, m'.trace)
  registers : m'.registers = m'.kernel.popped r
  own : m'.own = m.own
  context : m'.context = Function.update m.context m.kernel.currentThread (.pushed m.registers)
  backed : m.Backed m'

inductive Step (img : Image) (m : Machine) : Machine → Prop
  | work (w : ℕ × ℕ → ℕ) (vm : Vm FrameSource) (regions : List VmInfo) (r : Registers)
      (hw : ∀ x, ¬Touches (m.own m.kernel.currentThread) x → w x = m.kernel.words x)
      (hb : m.Backed (m.worked w vm regions r)) : Step img m (m.worked w vm regions r)
  | call (c : Call) (k : Kernel) (g : Trace) (hentry : c.handlerEntry m.kernel = none) (hc : c.Proper m.kernel m.trace)
      (hok : c.Keeping m.kernel m.trace) (hrun : c.run img m.kernel m.trace = some (k, g))
      (hroom : ∀ t ∈ g.live, t ∉ m.trace.live → (k.threads t).Roomy) (hapart : (m.called img c k g).Apart)
      (hb : m.Backed (m.called img c k g)) : Step img m (m.called img c k g)
  | interrupt (c : Call) (w : ℕ × ℕ → ℕ) (k : Kernel) (r : ℕ) (m' : Machine) (h : m.Interrupts img c w k r m') :
      Step img m m'

end Machine

/-- Runs from the main thread alone, with its stack. -/
inductive SwitchRun (img : Image) : Machine → Prop
  | init {k : Kernel} {main : ℕ} {r : Registers} {stack : Set (ℕ × ℕ)} (h0 : main ≠ 0) (hready : k.readyListHead = 0)
      (hmain : (k.threads main).process = 0) (hstack : ∀ x ∈ stack, 2 ^ 47 ≤ x.2)
      (hsingle : (⟨k.startMain main, Trace.start [main], r, fun _ => stack, fun _ => .pushed r⟩ : Machine).Single) :
      SwitchRun img ⟨k.startMain main, Trace.start [main], r, fun _ => stack, fun _ => .pushed r⟩
  | step {m m' : Machine} (h : SwitchRun img m) (hs : m.Step img m') : SwitchRun img m'

/-! ## Places in physical memory -/

/-- An address has the place of its page. -/
theorem walkFrom_page (T : Tables) (v n t : ℕ) :
    T.walkFrom v n t =
      (T.walkFrom (v / 4096 * 4096) n t).map fun x => { x with paddr := x.paddr + v % 4096 } := by
  have hindex : ∀ n, index (v / 4096 * 4096) n = index v n := index_congr (by omega)
  have hleaf : ∀ e n, leaf e v n = { leaf e (v / 4096 * 4096) n with
      paddr := (leaf e (v / 4096 * 4096) n).paddr + v % 4096 } := by
    intro e n
    have hsize : 2 ^ (12 + 9 * n) = 4096 * 2 ^ (9 * n) := by rw [Nat.pow_add]
    have hoffset : v % 2 ^ (12 + 9 * n) = v / 4096 * 4096 % 2 ^ (12 + 9 * n) + v % 4096 := by
      rw [hsize, Nat.mod_mul, Nat.mul_comm (v / 4096), Nat.mul_mod_mul_left, Nat.add_comm]
    simp only [leaf, hoffset, Nat.add_assoc]
  induction n generalizing t with
  | zero =>
    simp only [Tables.walkFrom, hindex]
    split_ifs
    · rw [Option.map_some, ← hleaf]
    · rfl
  | succ n ih =>
    simp only [Tables.walkFrom, hindex]
    split_ifs
    · rfl
    · rw [Option.map_some, ← hleaf]
    · rw [ih, Option.map_map, Option.map_map]
      rfl
    · rfl

theorem walkFrom_aligned {T : Tables} {q n t : ℕ} {x : Translation} (h : T.walkFrom (q * 4096) n t = some x) :
    x.paddr % 4096 = 0 := by
  have hleaf : ∀ e n, (leaf e (q * 4096) n).paddr % 4096 = 0 := by
    intro e n
    have hsize : 2 ^ (12 + 9 * n) = 2 ^ (9 * n) * 4096 := by rw [Nat.pow_add, Nat.mul_comm]
    simp only [leaf, hsize, Nat.mul_mod_mul_right, ← Nat.mul_assoc, ← Nat.add_mul]
    exact Nat.mul_mod_left ..
  induction n generalizing t x with
  | zero =>
    rw [Tables.walkFrom] at h
    split_ifs at h
    exact Option.some.inj h ▸ hleaf ..
  | succ n ih =>
    rw [Tables.walkFrom] at h
    split_ifs at h
    · exact Option.some.inj h ▸ hleaf ..
    · obtain ⟨y, hy, rfl⟩ := Option.map_eq_some_iff.mp h
      have haligned := ih hy
      exact haligned

theorem Kernel.physical_page (k : Kernel) (s v : ℕ) :
    k.physical (s, v) = (k.physical (s, v / 4096 * 4096)).map (· + v % 4096) := by
  have hhalf : v / 4096 * 4096 < 2 ^ 47 ↔ v < 2 ^ 47 := by omega
  simp only [physical, hhalf]
  rw [Tables.walk, walkFrom_page, Option.map_map, Option.map_map]
  rfl

/-- The places of the pages, each given by its space and its number. -/
def Kernel.places (k : Kernel) (pages : List (ℕ × ℕ)) : List (Option ℕ) :=
  pages.map fun a => k.physical (a.1, a.2 * 4096)

/-- Stacks on pages with places of their own. -/
theorem Machine.single_of_pages {m : Machine} {pages : List (ℕ × ℕ)} {l : List ℕ}
    (hown : ∀ t ∈ m.trace.live, ∀ x ∈ m.own t, (x.1, x.2 / 4096) ∈ pages)
    (hplaces : m.kernel.places pages = l.map some) (hl : l.Nodup) : m.Single := by
  have hnodup : (m.kernel.places pages).Nodup := hplaces ▸ hl.map (Option.some_injective ℕ)
  have halign : ∀ {s q p : ℕ}, m.kernel.physical (s, q * 4096) = some p → p % 4096 = 0 := by
    intro s q p hp
    obtain ⟨x, hx, rfl⟩ := Option.map_eq_some_iff.mp hp
    exact walkFrom_aligned hx
  rintro t ht u hu ⟨s, v⟩ hx ⟨s', v'⟩ hy p hxp hyp
  rw [m.kernel.physical_page] at hxp hyp
  obtain ⟨p₁, hp₁, h₁⟩ := Option.map_eq_some_iff.mp hxp
  obtain ⟨p₂, hp₂, h₂⟩ := Option.map_eq_some_iff.mp hyp
  have h₁' := halign hp₁
  have h₂' := halign hp₂
  obtain rfl : p₁ = p₂ := by omega
  have heq := List.inj_on_of_nodup_map hnodup (hown t ht _ hx) (hown u hu _ hy) (hp₁.trans hp₂.symm)
  obtain ⟨hs, hv⟩ := Prod.mk.inj heq
  dsimp only at hs hv
  exact Prod.ext hs (show v = v' by omega)

/-- The places of the pages decide over those of the bytes on them. -/
theorem Machine.stays_of_pages {m m' : Machine} {pages : List (ℕ × ℕ)}
    (hown : ∀ t ∈ m.trace.live, ∀ x ∈ m.own t, (x.1, x.2 / 4096) ∈ pages)
    (hplaces : m'.kernel.places pages = m.kernel.places pages) :
    ∀ t ∈ m.trace.live, ∀ x ∈ m.own t, m'.kernel.physical x = m.kernel.physical x := by
  rintro t ht ⟨s, v⟩ hx
  rw [m.kernel.physical_page, m'.kernel.physical_page]
  rw [List.map_inj_left.mp hplaces _ (hown t ht _ hx)]

/-! ## Words on a stack -/

/-- The words from the stack pointer up. -/
def Kernel.StackHas (k : Kernel) (space sp : ℕ) (l : List ℕ) : Prop :=
  ∀ i v, l[i]? = some v → k.words (cell space (sp + 8 * i)) = v

/-- The words were pushed below `top`. -/
structure Kernel.PushedTo (k k' : Kernel) (sp top : ℕ) (l : List ℕ) : Prop where
  eq : k' = { k with words := k'.words }
  length : sp + 8 * l.length = top
  has : k'.StackHas k.cr3 sp l.reverse
  frame : ∀ x, (∀ i < l.length, x ≠ cell k.cr3 (sp + 8 * i)) → k'.words x = k.words x

theorem cell_inj {s v v' : ℕ} (h : cell s v = cell s v') : v = v' := congrArg Prod.snd h

/-- The upper half does not depend on the address space. -/
theorem cell_upper {v : ℕ} (h : 2 ^ 47 ≤ v) (s s' : ℕ) : cell s v = cell s' v := by
  unfold cell
  rw [if_neg (by omega), if_neg (by omega)]

theorem inside_of_range {own : Set (ℕ × ℕ)} {s a b v : ℕ} (h : cell s '' Set.Ico a b ⊆ own) (hv : v % 8 = 0) (ha : a ≤ v)
    (hb : v + 8 ≤ b) : Inside own (cell s v) := by
  intro j hj
  have hcell : ((cell s v).1, (cell s v).2 + j) = cell s (v + j) := by
    unfold cell
    have : v < 2 ^ 47 ↔ v + j < 2 ^ 47 := by omega
    simp only [this]
  rw [hcell]
  exact h ⟨v + j, ⟨by omega, by omega⟩, rfl⟩

/-- A word inside one set of bytes does not touch another. -/
theorem Inside.not_touches {A B : Set (ℕ × ℕ)} {x : ℕ × ℕ} (h : Inside B x) (hd : Disjoint A B) : ¬Touches A x :=
  fun ⟨j, hj, hA⟩ => Set.disjoint_left.mp hd hA (h j hj)

namespace Kernel
variable {k : Kernel} {top : ℕ}

theorem pushWords_append (k : Kernel) (top : ℕ) (l l' : List ℕ) :
    k.pushWords top (l ++ l') = (k.pushWords top l).2.pushWords (k.pushWords top l).1 l' := by
  induction l generalizing k top with
  | nil => rfl
  | cons v l ih => exact ih _ _

theorem pushWords_spec {l : List ℕ} (htop : top < 2 ^ 64) (hl : 8 * l.length ≤ top) :
    k.PushedTo (k.pushWords top l).2 (k.pushWords top l).1 top l := by
  induction l generalizing k top with
  | nil => exact ⟨rfl, by simp [pushWords], nofun, fun _ _ => rfl⟩
  | cons v l ih =>
    rw [List.length_cons] at hl
    have hsub : sub64 top 8 = top - 8 := sub64_eq htop (by omega)
    have h : PushedTo { k with words := Function.update k.words (cell k.cr3 (sub64 top 8)) v }
        (pushWords { k with words := Function.update k.words (cell k.cr3 (sub64 top 8)) v } (sub64 top 8) l).2
        (pushWords { k with words := Function.update k.words (cell k.cr3 (sub64 top 8)) v } (sub64 top 8) l).1
        (sub64 top 8) l := ih (by omega) (by omega)
    have hpush : k.pushWords top (v :: l) = pushWords { k with
      words := Function.update k.words (cell k.cr3 (sub64 top 8)) v } (sub64 top 8) l := rfl
    rw [hpush]
    generalize pushWords { k with words := Function.update k.words (cell k.cr3 (sub64 top 8)) v } (sub64 top 8) l = q
      at h ⊢
    obtain ⟨heq, hsp, hhas, hframe⟩ := h
    have hlast : ∀ i < l.length, cell k.cr3 (sub64 top 8) ≠ cell k.cr3 (q.1 + 8 * i) := fun i hi he => by
      have := cell_inj he
      omega
    refine ⟨?_, by rw [List.length_cons]; omega, fun i u hu => ?_, fun x hx => ?_⟩
    · rw [heq]
    · rw [List.reverse_cons] at hu
      by_cases hi : i < l.length
      · rw [List.getElem?_append_left (by rw [List.length_reverse]; exact hi)] at hu
        exact hhas i u hu
      · have hmem := List.getElem?_eq_some_iff.mp hu
        obtain ⟨hlt, -⟩ := hmem
        have hi' : i = l.length := by
          simp only [List.length_append, List.length_reverse, List.length_singleton] at hlt
          omega
        subst hi'
        rw [List.getElem?_append_right (by simp)] at hu
        simp only [List.length_reverse, Nat.sub_self, List.getElem?_cons_zero, Option.some.injEq] at hu
        have hself : Function.update k.words (cell k.cr3 (sub64 top 8)) v (cell k.cr3 (sub64 top 8)) = v :=
          Function.update_self ..
        have htop := hframe (cell k.cr3 (sub64 top 8)) hlast
        dsimp only at htop
        rw [hsp]
        exact htop.trans (hself.trans hu)
    · have hx' := hx l.length (by rw [List.length_cons]; omega)
      rw [hsp] at hx'
      have hne : Function.update k.words (cell k.cr3 (sub64 top 8)) v x = k.words x := Function.update_of_ne hx' ..
      exact (hframe x fun i hi => hx i (by rw [List.length_cons]; omega)).trans hne

/-- The words are popped in the order opposite to the one they were pushed in. -/
theorem popped_eq {r : Registers} {rsp : ℕ} (h : k.StackHas k.cr3 rsp r.pushed.reverse) (hrsp : rsp + 160 ≤ 2 ^ 64) :
    k.popped rsp = r := by
  have hw : ∀ i < 20, ∀ v, r.pushed.reverse[i]? = some v → k.words (cell k.cr3 ((rsp + 8 * i) % 2 ^ 64)) = v := by
    intro i hi v hv
    rw [Nat.mod_eq_of_lt (by omega)]
    exact h i v hv
  unfold popped
  dsimp only
  rw [hw 0 (by decide) _ rfl, hw 1 (by decide) _ rfl, hw 2 (by decide) _ rfl, hw 3 (by decide) _ rfl,
    hw 4 (by decide) _ rfl, hw 5 (by decide) _ rfl, hw 6 (by decide) _ rfl, hw 7 (by decide) _ rfl,
    hw 8 (by decide) _ rfl, hw 9 (by decide) _ rfl, hw 10 (by decide) _ rfl, hw 11 (by decide) _ rfl,
    hw 12 (by decide) _ rfl, hw 13 (by decide) _ rfl, hw 14 (by decide) _ rfl, hw 15 (by decide) _ rfl,
    hw 16 (by decide) _ rfl, hw 17 (by decide) _ rfl, hw 18 (by decide) _ rfl, hw 19 (by decide) _ rfl]

/-- The frame that a creation makes up. -/
theorem pushFrame_spec {ret ss cs entry : ℕ} (htop : top < 2 ^ 64) (hroom : 168 ≤ top / 16 * 16) :
    ∃ l, l.length = 21 ∧ l.reverse = (Context.fabricated entry ret cs ss).words (k.pushFrame top ret ss cs entry).1 ∧
      k.PushedTo (k.pushFrame top ret ss cs entry).2 (k.pushFrame top ret ss cs entry).1 (top / 16 * 16) l := by
  have heq : k.pushFrame top ret ss cs entry =
      k.pushWords (top / 16 * 16) ([ret] ++ ([ss, sub64 (top / 16 * 16) 8, 0x202, cs, entry] ++ List.replicate 15 0)) := by
    have hclean : (k.pushWords (top / 16 * 16) [ret]).1 = sub64 (top / 16 * 16) 8 := rfl
    rw [pushWords_append, ← hclean]
    rfl
  have h := @pushWords_spec k (top / 16 * 16)
    ([ret] ++ ([ss, sub64 (top / 16 * 16) 8, 0x202, cs, entry] ++ List.replicate 15 0)) (by omega) (by
      simp only [List.length_append, List.length_cons, List.length_nil, List.length_replicate]
      omega)
  rw [← heq] at h
  have hsp := h.length
  simp only [List.length_append, List.length_cons, List.length_nil, List.length_replicate] at hsp
  have hclean : (k.pushFrame top ret ss cs entry).1 + 160 = sub64 (top / 16 * 16) 8 := by
    rw [sub64_eq (by omega) (by omega)]
    omega
  refine ⟨_, by simp, ?_, h⟩
  simp only [Context.words, List.reverse_append, List.reverse_replicate, hclean]
  rfl

end Kernel
end PointerOS
