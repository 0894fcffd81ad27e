import PointerOS.InterruptReturn

/-!
# System calls

The model specific registers that `init_syscalls` sets, the entry code of `syscalls.s` and
`syscall_handler`. On the way in the code finds the kernel stack through the GS base, on
the way out it takes the user's stack pointer back from the same place.
-/
namespace PointerOS
open ByteMemory StackCode

/-! ## The registers of the processor -/

structure Msrs where
  efer : ℕ
  star : ℕ
  lstar : ℕ
  fmask : ℕ
  gsBase : ℕ
  kernelGsBase : ℕ

/-- `write_msr` of the two halves of a value. -/
def writeMsr (low high : ℕ) : ℕ := high * 2 ^ 32 + low

namespace Msrs

def initKernelGsBase (m : Msrs) (sstacks : ℕ) : Msrs :=
  { m with kernelGsBase := writeMsr (sstacks % 2 ^ 32) (sstacks / 2 ^ 32 % 2 ^ 32) }

def initSyscalls (m : Msrs) (syscallEntry sstacks : ℕ) : Msrs :=
  let efer := m.efer ||| 1
  let star := 0x10 <<< 48 ||| 0x08 <<< 32
  -- `FLAGS_DF` is 0x40 in the source
  let mflags := 0x200 ||| 0x40 ||| 0x100
  initKernelGsBase
    { m with
      efer := writeMsr (efer % 2 ^ 32) (efer / 2 ^ 32 % 2 ^ 32)
      star := writeMsr (star % 2 ^ 32) (star / 2 ^ 32 % 2 ^ 32)
      lstar := writeMsr (syscallEntry % 2 ^ 32) (syscallEntry / 2 ^ 32 % 2 ^ 32)
      fmask := writeMsr (mflags % 2 ^ 32) (mflags / 2 ^ 32 % 2 ^ 32) }
    sstacks

def swapgs (m : Msrs) : Msrs := { m with gsBase := m.kernelGsBase, kernelGsBase := m.gsBase }

end Msrs

namespace Processor

/-- The instruction `syscall`, with the bit SCE of EFER set; `rip` is the address of the next one. -/
def syscall (p : Processor) (m : Msrs) : Processor where
  cpu := (p.cpu.set .rcx p.rip).set .r11 p.rflags
  rip := m.lstar % 2 ^ 64
  cs := (m.star / 2 ^ 32 % 2 ^ 16 &&& 0xFFFC) % 2 ^ 16
  rflags := p.rflags &&& (2 ^ 64 - 1 - (m.fmask ||| 0x10000))
  ss := (m.star / 2 ^ 32 % 2 ^ 16 + 8) % 2 ^ 16
  rip_lt := Nat.mod_lt _ (by decide)
  cs_lt := Nat.mod_lt _ (by decide)
  rflags_lt := lt_of_le_of_lt Nat.and_le_left p.rflags_lt
  ss_lt := Nat.mod_lt _ (by decide)

/-- The instruction `sysretq`. -/
def sysretq (p : Processor) (m : Msrs) : Processor where
  cpu := p.cpu
  rip := p.cpu.reg .rcx
  cs := (m.star / 2 ^ 48 % 2 ^ 16 + 16 ||| 3) % 2 ^ 16
  rflags := (p.cpu.reg .r11 &&& 0x3C7FD7 ||| 2) % 2 ^ 64
  ss := (m.star / 2 ^ 48 % 2 ^ 16 + 8 ||| 3) % 2 ^ 16
  rip_lt := p.cpu.lt _
  cs_lt := Nat.mod_lt _ (by decide)
  rflags_lt := Nat.mod_lt _ (by decide)
  ss_lt := Nat.mod_lt _ (by decide)

/-- `mov [gs:off], rsp` -/
def storeRsp (p : Processor) (m : Msrs) (off : ℕ) : Processor :=
  { p with cpu := { p.cpu with mem := store64 p.cpu.mem ((m.gsBase + off) % 2 ^ 64) (p.cpu.reg .rsp) } }

/-- `mov rsp, [gs:off]` -/
def loadRsp (p : Processor) (m : Msrs) (off : ℕ) : Processor :=
  { p with cpu := p.cpu.set .rsp (load64 p.cpu.mem ((m.gsBase + off) % 2 ^ 64)) }

end Processor

/-! ## The entry code -/

/-- The registers that `syscall_entry` pushes, in order. -/
def syscallSaved : List Reg :=
  [.r11, .rcx, .r15, .r14, .r13, .r12, .r11, .r10, .r9, .r8, .rbp, .rdi, .rsi, .rdx, .rbx]

/-- The registers that `syscall_entry` pops, in order. -/
def syscallRestored : List Reg :=
  [.rbx, .rdx, .rsi, .rdi, .rbp, .r8, .r9, .r10, .r11, .r12, .r13, .r14, .r15, .rcx, .r11]

/-- The processor at the call of `syscall_handler`. -/
def Processor.syscallEnter (p : Processor) (m : Msrs) : Processor × Msrs :=
  let m := m.swapgs
  let p := p.storeRsp m 0
  let p := p.loadRsp m 8
  (p.run (syscallSaved.map .push ++ [.mov .rdi .rax, .mov .rsi .rsp]), m)

/-- What `syscall_entry` does after the call. -/
def Processor.syscallLeave (p : Processor) (m : Msrs) : Processor × Msrs :=
  let p := p.run (syscallRestored.map .pop)
  let p := p.loadRsp m 0
  let m := m.swapgs
  (p.sysretq m, m)

structure SyscallRegisters where
  rbx : ℕ
  rdx : ℕ
  rsi : ℕ
  rdi : ℕ
  rbp : ℕ
  r8 : ℕ
  r9 : ℕ
  r10 : ℕ
  r11 : ℕ
  r12 : ℕ
  r13 : ℕ
  r14 : ℕ
  r15 : ℕ
  rip : ℕ
  rflags : ℕ
deriving DecidableEq

/-- The structure at the address `a`. -/
def SyscallRegisters.read (m : Memory) (a : ℕ) : SyscallRegisters :=
  let w i := load64 m (a + 8 * i)
  { rbx := w 0, rdx := w 1, rsi := w 2, rdi := w 3, rbp := w 4, r8 := w 5, r9 := w 6, r10 := w 7, r11 := w 8
    r12 := w 9, r13 := w 10, r14 := w 11, r15 := w 12, rip := w 13, rflags := w 14 }

/-! ## The handler -/

inductive SyscallAction
  | serialPrint (format : String) (tid : ℕ)
  | threadExit
deriving DecidableEq

def syscallHandler (tid sysNum : ℕ) : List SyscallAction :=
  if sysNum = 60 then [.serialPrint "[THREAD %d] SYS EXIT\n" tid, .threadExit] else []

theorem syscallHandler_exits (tid sysNum : ℕ) : .threadExit ∈ syscallHandler tid sysNum ↔ sysNum = 60 := by
  unfold syscallHandler
  split_ifs with h <;> simp [h]

/-! ## There and back -/

/-- The structure that `syscall_handler` gets. -/
def Processor.syscallRegisters (p : Processor) : SyscallRegisters where
  rbx := p.cpu.reg .rbx
  rdx := p.cpu.reg .rdx
  rsi := p.cpu.reg .rsi
  rdi := p.cpu.reg .rdi
  rbp := p.cpu.reg .rbp
  r8 := p.cpu.reg .r8
  r9 := p.cpu.reg .r9
  r10 := p.cpu.reg .r10
  r11 := p.rflags
  r12 := p.cpu.reg .r12
  r13 := p.cpu.reg .r13
  r14 := p.cpu.reg .r14
  r15 := p.cpu.reg .r15
  rip := p.rip
  rflags := p.rflags

/-- The registers of `q`, back in user mode, are those of `p` but for the three that the way uses. -/
structure Processor.Returned (q p : Processor) : Prop where
  reg : ∀ r, r ≠ .rax → r ≠ .rcx → r ≠ .r11 → q.cpu.reg r = p.cpu.reg r
  rcx : q.cpu.reg .rcx = p.rip
  r11 : q.cpu.reg .r11 = p.rflags
  rip : q.rip = p.rip
  cs : q.cs = 0x23
  rflags : q.rflags = p.rflags &&& 0x3C7FD7 ||| 2
  ss : q.ss = 0x1B

/-- The MSRs that nothing changes after `init_syscalls`. -/
structure Msrs.Fixed (m : Msrs) (syscallEntry : ℕ) : Prop where
  sce : m.efer.testBit 0 = true
  star : m.star = 0x10 * 2 ^ 48 + 0x08 * 2 ^ 32
  lstar : m.lstar = syscallEntry
  fmask : m.fmask = 0x340

/-- The MSRs in user mode. -/
structure Msrs.Ready (m : Msrs) (syscallEntry sstacks : ℕ) : Prop extends m.Fixed syscallEntry where
  kernelGsBase : m.kernelGsBase = sstacks

theorem Msrs.Fixed.swapgs {m : Msrs} {syscallEntry : ℕ} (h : m.Fixed syscallEntry) : m.swapgs.Fixed syscallEntry :=
  ⟨h.sce, h.star, h.lstar, h.fmask⟩

theorem writeMsr_halves {v : ℕ} (h : v < 2 ^ 64) : writeMsr (v % 2 ^ 32) (v / 2 ^ 32 % 2 ^ 32) = v := by
  unfold writeMsr
  omega

theorem Msrs.initSyscalls_ready (m : Msrs) {syscallEntry sstacks : ℕ} (hentry : syscallEntry < 2 ^ 64)
    (h : sstacks < 2 ^ 64) : (m.initSyscalls syscallEntry sstacks).Ready syscallEntry sstacks where
  sce := by
    have hlow : ∀ a b, (writeMsr (a % 2 ^ 32) b).testBit 0 = a.testBit 0 := fun a b => by
      have hmod : writeMsr (a % 2 ^ 32) b % 2 = a % 2 := by
        unfold writeMsr
        omega
      rw [Nat.testBit_zero, Nat.testBit_zero, hmod]
    simp only [initSyscalls, initKernelGsBase, hlow, Nat.testBit_or, Nat.testBit_one_zero, Bool.or_true]
  star := by
    simp only [initSyscalls, initKernelGsBase, writeMsr]
    decide
  lstar := writeMsr_halves hentry
  fmask := by
    simp only [initSyscalls, initKernelGsBase, writeMsr]
    decide
  kernelGsBase := writeMsr_halves h

namespace Processor
variable {p s s' : Processor} {m : Msrs} {syscallEntry sstacks krsp : ℕ} {keep : Set ℕ}

/-- The registers as `syscall` leaves them. -/
def syscallReg (p : Processor) (r : Reg) : ℕ := if r = .r11 then p.rflags else if r = .rcx then p.rip else p.cpu.reg r

lemma syscall_reg (r : Reg) : (p.syscall m).cpu.reg r = p.syscallReg r := by
  unfold syscallReg syscall
  split_ifs with h1 h2
  · rw [h1, Cpu.set_same p.rflags_lt]
  · rw [h2, Cpu.set_of_ne (by decide), Cpu.set_same p.rip_lt]
  · rw [Cpu.set_of_ne h1, Cpu.set_of_ne h2]

/-- What the way in leaves at the call. -/
structure AtSyscall (p : Processor) (sstacks krsp : ℕ) (s : Processor) : Prop where
  rsp : s.cpu.reg .rsp + 120 = krsp
  rdi : s.cpu.reg .rdi = p.cpu.reg .rax
  rsi : s.cpu.reg .rsi = s.cpu.reg .rsp
  holds : Holds s.cpu.mem (s.cpu.reg .rsp) (syscallRestored.map p.syscallReg)
  saved : load64 s.cpu.mem sstacks = p.cpu.reg .rsp
  frame : ∀ a, a < sstacks ∨ sstacks + 8 ≤ a → a < s.cpu.reg .rsp ∨ krsp ≤ a → s.cpu.mem a = p.cpu.mem a

theorem syscallEnter_spec (hm : m.Ready syscallEntry sstacks) (hS : sstacks + 16 ≤ 2 ^ 64)
    (hkrsp : load64 p.cpu.mem (sstacks + 8) = krsp) (hroom : 120 ≤ krsp)
    (hapart : krsp ≤ sstacks ∨ sstacks + 8 ≤ krsp - 120) :
    AtSyscall p sstacks krsp ((p.syscall m).syscallEnter m).1 := by
  have hgs : m.swapgs.gsBase = sstacks := hm.kernelGsBase
  have haddr : ∀ off ≤ 8, (m.swapgs.gsBase + off) % 2 ^ 64 = sstacks + off := fun off ho => by
    rw [hgs, Nat.mod_eq_of_lt (by omega)]
  obtain ⟨q, hq⟩ : ∃ q, q = ((p.syscall m).storeRsp m.swapgs 0).loadRsp m.swapgs 8 := ⟨_, rfl⟩
  have hmem : q.cpu.mem = store64 p.cpu.mem sstacks (p.cpu.reg .rsp) := by
    have h : q.cpu.mem = store64 p.cpu.mem ((m.swapgs.gsBase + 0) % 2 ^ 64) ((p.syscall m).cpu.reg .rsp) := by
      rw [hq]
      rfl
    rw [h, haddr 0 (by omega), syscall_reg]
    rfl
  have hqsp : q.cpu.reg .rsp = krsp := by
    have h : q.cpu.reg .rsp = load64 q.cpu.mem ((m.swapgs.gsBase + 8) % 2 ^ 64) % 2 ^ 64 := by
      rw [hq]
      rfl
    have hkeep : load64 q.cpu.mem (sstacks + 8) = krsp := by
      rw [hmem, ← hkrsp]
      exact load_store_of_disjoint (.inl le_rfl)
    rw [h, haddr 8 le_rfl, hkeep]
    exact Nat.mod_eq_of_lt (hkrsp ▸ load64_lt _ _)
  have hreg : ∀ r, r ≠ .rsp → q.cpu.reg r = p.syscallReg r := fun r hr => by
    rw [hq, loadRsp, ← p.syscall_reg (m := m) r]
    exact Cpu.set_of_ne hr
  have hsaved : syscallSaved.map q.cpu.reg = syscallSaved.map p.syscallReg :=
    List.map_congr_left fun r hr => hreg r fun h => absurd (h ▸ hr) (by decide)
  obtain ⟨c, hc⟩ : ∃ c, c = q.cpu.pushWords .rsp (syscallSaved.map p.syscallReg) := ⟨_, rfl⟩
  have hpushed : Cpu.Pushed .rsp q.cpu c (syscallSaved.map p.syscallReg) := by
    rw [hc]
    refine Cpu.pushWords_spec (fun v hv => ?_) (by rw [hqsp]; exact hroom)
    obtain ⟨r, -, rfl⟩ := List.mem_map.mp hv
    rw [← p.syscall_reg (m := m) r]
    exact Cpu.lt _ _
  obtain ⟨htop, hother, hholds, hframe⟩ := hpushed
  have hs : ((p.syscall m).syscallEnter m).1.cpu = (c.set .rdi (c.reg .rax)).set .rsi (c.reg .rsp) := by
    have h : ((p.syscall m).syscallEnter m).1.cpu =
        q.cpu.run .rsp (fun _ c => c) (syscallSaved.map .push ++ [.mov .rdi .rax, .mov .rsi .rsp] : Code) := by
      rw [hq]
      rfl
    rw [h, Cpu.run_append, Cpu.run_push (by decide), hsaved, ← hc]
    simp only [Cpu.run_cons, Cpu.run_nil, Cpu.step]
    rw [Cpu.set_of_ne (by decide)]
  have hsp : ((p.syscall m).syscallEnter m).1.cpu.reg .rsp = c.reg .rsp := by
    rw [hs, Cpu.set_of_ne (by decide), Cpu.set_of_ne (by decide)]
  have hsmem : ((p.syscall m).syscallEnter m).1.cpu.mem = c.mem := by rw [hs, Cpu.set_mem, Cpu.set_mem]
  have htop' : c.reg .rsp + 120 = krsp := htop.trans hqsp
  refine ⟨by rw [hsp, htop'], ?_, ?_, ?_, ?_, fun a hS' ha => ?_⟩
  · rw [hs, Cpu.set_of_ne (by decide), Cpu.set_same (c.lt _), hother _ (by decide), hreg _ (by decide)]
    rfl
  · rw [hsp, hs, Cpu.set_same (c.lt _)]
  · rw [hsp, hsmem]
    exact hholds
  · have hsame : load64 c.mem sstacks = load64 q.cpu.mem sstacks := load_congr fun a ha => hframe a (by
      simp only [bytes, Set.mem_Ico] at ha
      omega)
    rw [hsmem, hsame, hmem]
    exact load_store_same_of_lt (p.cpu.lt _)
  · rw [hsmem, hframe a (by rw [hqsp, ← hsp]; exact ha), hmem]
    refine store_eqOn_compl _ _ _ _ fun hin => ?_
    simp only [bytes, Set.mem_Ico] at hin
    omega

/-- What the way out finds in the frame and at the GS base. -/
theorem syscallLeave_spec (hm : m.Ready syscallEntry sstacks) (hS : sstacks + 16 ≤ 2 ^ 64)
    (hholds : Holds s'.cpu.mem (s'.cpu.reg .rsp) (syscallRestored.map p.syscallReg))
    (hsaved : load64 s'.cpu.mem sstacks = p.cpu.reg .rsp) (hroom : s'.cpu.reg .rsp + 120 < 2 ^ 64) :
    (s'.syscallLeave m.swapgs).1.Returned p ∧ (s'.syscallLeave m.swapgs).2 = m ∧
      (s'.syscallLeave m.swapgs).1.cpu.mem = s'.cpu.mem := by
  obtain ⟨c, hc⟩ : ∃ c, c = s'.cpu.run .rsp (fun _ c => c) (syscallRestored.map .pop : Code) := ⟨_, rfl⟩
  have hpopped : Cpu.Popped .rsp s'.cpu c syscallRestored p.syscallReg := by
    rw [hc]
    exact Cpu.run_pop (by decide) hholds hroom
  have hgs : m.swapgs.gsBase = sstacks := hm.kernelGsBase
  have hcpu : (s'.syscallLeave m.swapgs).1.cpu = c.set .rsp (p.cpu.reg .rsp) := by
    have h : (s'.syscallLeave m.swapgs).1.cpu = c.set .rsp (load64 c.mem ((m.swapgs.gsBase + 0) % 2 ^ 64)) := by
      rw [hc]
      rfl
    rw [h, hpopped.mem, hgs, add_zero, Nat.mod_eq_of_lt (by omega), hsaved]
  have hreg : ∀ r, r ≠ .rax →
      (s'.syscallLeave m.swapgs).1.cpu.reg r = if r = .rsp then p.cpu.reg .rsp else p.syscallReg r := by
    intro r hr
    rw [hcpu]
    split_ifs with hsp
    · rw [hsp, Cpu.set_same (p.cpu.lt _)]
    · have hin : r ∈ syscallRestored := by
        cases r
        all_goals first | decide | exact absurd rfl hr | exact absurd rfl hsp
      rw [Cpu.set_of_ne hsp, hpopped.reg r hin]
  have hrcx : (s'.syscallLeave m.swapgs).1.cpu.reg .rcx = p.rip := hreg .rcx (by decide)
  have hr11 : (s'.syscallLeave m.swapgs).1.cpu.reg .r11 = p.rflags := hreg .r11 (by decide)
  refine ⟨⟨fun r h1 h2 h3 => ?_, hrcx, hr11, hrcx, ?_, ?_, ?_⟩, rfl, ?_⟩
  · rw [hreg r h1, syscallReg, if_neg h3, if_neg h2]
    split_ifs with hsp
    · rw [hsp]
    · rfl
  · have h : (s'.syscallLeave m.swapgs).1.cs = (m.star / 2 ^ 48 % 2 ^ 16 + 16 ||| 3) % 2 ^ 16 := rfl
    rw [h, hm.star]
    decide
  · have h : (s'.syscallLeave m.swapgs).1.rflags =
        ((s'.syscallLeave m.swapgs).1.cpu.reg .r11 &&& 0x3C7FD7 ||| 2) % 2 ^ 64 := rfl
    have hle : p.rflags &&& 0x3C7FD7 < 2 ^ 64 := lt_of_le_of_lt Nat.and_le_left p.rflags_lt
    rw [h, hr11, Nat.mod_eq_of_lt (Nat.or_lt_two_pow hle (by decide))]
  · have h : (s'.syscallLeave m.swapgs).1.ss = (m.star / 2 ^ 48 % 2 ^ 16 + 8 ||| 3) % 2 ^ 16 := rfl
    rw [h, hm.star]
    decide
  · rw [hcpu, Cpu.set_mem, hpopped.mem]

lemma syscallRegisters_read {mem : Memory} {a : ℕ} (h : Holds mem a (syscallRestored.map p.syscallReg)) :
    SyscallRegisters.read mem a = p.syscallRegisters := by
  unfold SyscallRegisters.read
  dsimp only
  rw [h 0 _ rfl, h 1 _ rfl, h 2 _ rfl, h 3 _ rfl, h 4 _ rfl, h 5 _ rfl, h 6 _ rfl, h 7 _ rfl, h 8 _ rfl, h 9 _ rfl,
    h 10 _ rfl, h 11 _ rfl, h 12 _ rfl, h 13 _ rfl, h 14 _ rfl]
  rfl

/-- The mask clears IF and TF, and leaves DF. -/
lemma syscall_flags (p : Processor) (hm : m.Ready syscallEntry sstacks) : (p.syscall m).rflags.testBit 9 = false ∧
    (p.syscall m).rflags.testBit 8 = false ∧ (p.syscall m).rflags.testBit 10 = p.rflags.testBit 10 := by
  have h : (p.syscall m).rflags = p.rflags &&& (2 ^ 64 - 1 - (0x340 ||| 0x10000)) := by rw [← hm.fmask]; rfl
  have h9 : (2 ^ 64 - 1 - (0x340 ||| 0x10000)).testBit 9 = false := by decide
  have h8 : (2 ^ 64 - 1 - (0x340 ||| 0x10000)).testBit 8 = false := by decide
  have h10 : (2 ^ 64 - 1 - (0x340 ||| 0x10000)).testBit 10 = true := by decide
  rw [h]
  simp only [Nat.testBit_and, h9, h8, h10, Bool.and_false, Bool.and_true, and_self]

end Processor

/-- What a system call finds: the MSRs as they were set, and a kernel stack apart from `sstacks`. -/
structure SyscallReady (p : Processor) (m : Msrs) (syscallEntry sstacks krsp : ℕ) : Prop where
  msrs : m.Ready syscallEntry sstacks
  entry : syscallEntry < 2 ^ 64
  fits : sstacks + 16 ≤ 2 ^ 64
  kernelRsp : load64 p.cpu.mem (sstacks + 8) = krsp
  room : 120 ≤ krsp
  apart : krsp ≤ sstacks ∨ sstacks + 8 ≤ krsp - 120

/-- A system call enters the kernel at `syscall_entry` with the registers of the caller in the structure, and comes
back behind the instruction with all registers but three, however the handler runs that keeps the frame. It ends the
thread if and only if the number is that of `SYS_EXIT`. -/
theorem syscall_transparent (x : Text) (t : IdtEntries) (tss : Tss) {p : Processor} {m : Msrs}
    {syscallEntry sstacks krsp : ℕ} {keep : Set ℕ} (h : SyscallReady p m syscallEntry sstacks krsp)
    (hkeep : Disjoint (Set.Ico (krsp - 120) krsp ∪ Set.Ico sstacks (sstacks + 8)) keep) :
    (p.syscall m).rip = syscallEntry ∧
    ∃ s, (p.syscall m).syscallEnter m = (s, m.swapgs) ∧ s.cs = 0x08 ∧ s.ss = 0x10 ∧
      (s.rflags.testBit 9 = false ∧ s.rflags.testBit 8 = false ∧ s.rflags.testBit 10 = p.rflags.testBit 10) ∧
      s.cpu.reg .rsp + 120 = krsp ∧ s.cpu.reg .rdi = p.cpu.reg .rax ∧
      (∀ tid, .threadExit ∈ syscallHandler tid (s.cpu.reg .rdi) ↔ p.cpu.reg .rax = 60) ∧
      .read s.cpu.mem (s.cpu.reg .rsi) = p.syscallRegisters ∧
      ∀ s', Handles x (initIDT x t) tss
          (keep ∪ (Set.Ico (krsp - 120) krsp ∪ Set.Ico sstacks (sstacks + 8))) s s' →
        s'.cpu.reg .rsp = s.cpu.reg .rsp →
          (s'.syscallLeave m.swapgs).1.Returned p ∧ (s'.syscallLeave m.swapgs).2 = m ∧
            Set.EqOn (s'.syscallLeave m.swapgs).1.cpu.mem p.cpu.mem keep := by
  obtain ⟨hm, hentry, hS, hkrsp, hroom, hapart⟩ := h
  obtain ⟨s, hs⟩ : ∃ s, s = ((p.syscall m).syscallEnter m).1 := ⟨_, rfl⟩
  obtain ⟨hrsp, hrdi, hrsi, hholds, hsaved, hframe⟩ := hs ▸ Processor.syscallEnter_spec hm hS hkrsp hroom hapart
  have hlt : krsp < 2 ^ 64 := hkrsp ▸ load64_lt _ _
  have hrip : (p.syscall m).rip = syscallEntry := by
    have h : (p.syscall m).rip = m.lstar % 2 ^ 64 := rfl
    rw [h, hm.lstar, Nat.mod_eq_of_lt hentry]
  refine ⟨hrip, s, by rw [hs]; rfl, ?_, ?_, ?_, hrsp, hrdi, fun tid => ?_, ?_, fun s' hbody hreturn => ?_⟩
  · have hcs : s.cs = (m.star / 2 ^ 32 % 2 ^ 16 &&& 0xFFFC) % 2 ^ 16 := by rw [hs]; rfl
    rw [hcs, hm.star]
    decide
  · have hss : s.ss = (m.star / 2 ^ 32 % 2 ^ 16 + 8) % 2 ^ 16 := by rw [hs]; rfl
    rw [hss, hm.star]
    decide
  · rw [hs]
    exact p.syscall_flags hm
  · rw [hrdi]
    exact syscallHandler_exits tid _
  · rw [hrsi]
    exact Processor.syscallRegisters_read hholds
  · have hkeeps := hbody.keeps
    have hframe' : Holds s'.cpu.mem (s'.cpu.reg .rsp) (syscallRestored.map p.syscallReg) := by
      rw [hreturn]
      refine hholds.congr (hkeeps.mono fun a ha => .inr (.inl ?_))
      have hlen : 8 * (syscallRestored.map p.syscallReg).length = 120 := rfl
      rw [hlen] at ha
      exact ⟨by have := ha.1; omega, by have := ha.2; omega⟩
    have hsaved' : load64 s'.cpu.mem sstacks = p.cpu.reg .rsp := by
      rw [← hsaved]
      exact load_congr (hkeeps.mono fun a ha => .inr (.inr ha))
    obtain ⟨hreturned, hmsrs, hmem⟩ := Processor.syscallLeave_spec hm hS hframe' hsaved' (by omega)
    refine ⟨hreturned, hmsrs, ?_⟩
    rw [hmem]
    refine (hkeeps.mono Set.subset_union_left).trans fun a ha => hframe a ?_ ?_
    · by_contra hin
      exact Set.disjoint_left.mp hkeep (.inr (Set.mem_Ico.mpr ⟨by omega, by omega⟩)) ha
    · by_contra hin
      exact Set.disjoint_left.mp hkeep (.inl (Set.mem_Ico.mpr ⟨by omega, by omega⟩)) ha

/-- The processor of a thread in user mode, with the top of its kernel stack in `sstacks` at 0x1000. -/
def Processor.caller : Processor :=
  { Processor.user with cpu := { Processor.user.cpu with mem := store64 (fun _ => 0) 0x1008 0x8000 } }

theorem syscall_transparent_caller : ∃ s m',
    let m := Msrs.initSyscalls ⟨0, 0, 0, 0, 0, 0⟩ 0x2000 0x1000
    (Processor.caller.syscall m).syscallEnter m = (s, m') ∧ (s.syscallLeave m').1.Returned .caller := by
  have hready : SyscallReady .caller (.initSyscalls ⟨0, 0, 0, 0, 0, 0⟩ 0x2000 0x1000) 0x2000 0x1000 0x8000 :=
    ⟨Msrs.initSyscalls_ready _ (by decide) (by decide), by decide, by decide, load_store_same_of_lt (by decide),
      by decide, by decide⟩
  obtain ⟨-, s, hs, -, -, -, -, -, -, -, hleave⟩ :=
    syscall_transparent .apart (fun _ => .gate 0 0 0) .example hready (Set.disjoint_empty _)
  exact ⟨s, _, hs, (hleave s (.done s) rfl).1⟩

end PointerOS
