import PointerOS.StackCode

/-!
# Interrupts and exceptions

The descriptor table that `init_IDT` writes, the stubs of `idt.s` and what
`exception_handler` does with the registers that they push. The processor delivers a
vector through the table and takes the interrupted context back with `iretq`.
-/
namespace PointerOS
open ByteMemory StackCode

/-! ## The table -/

structure IdtEntry where
  offset1 : ℕ
  selector : ℕ
  ist : ℕ
  flags : ℕ
  offset2 : ℕ
  offset3 : ℕ
  reserved : ℕ
deriving DecidableEq

abbrev IdtEntries := ℕ → IdtEntry

/-- The entry that `setIDTGate` writes. -/
def IdtEntry.gate (handler flags ist : ℕ) : IdtEntry where
  offset1 := handler % 2 ^ 16
  selector := 0x08
  ist := ist % 8
  flags := flags
  offset2 := handler / 2 ^ 16 % 2 ^ 16
  offset3 := handler / 2 ^ 32 % 2 ^ 32
  reserved := 0

def setIDTGate (t : IdtEntries) (vector handler flags ist : ℕ) : IdtEntries :=
  Function.update t vector (.gate handler flags ist)

/-- The stubs that end up in `common_stub`. -/
inductive Stub
  | isr (v : ℕ)
  | irq (n : ℕ)
deriving DecidableEq

/-- The stubs that `idt.s` assembles. -/
def Stub.Assembled : Stub → Prop
  | isr v => v < 32 ∨ v = 255
  | irq n => n < 16

/-- Where the linker puts the handlers. -/
structure Text where
  addr : Stub → ℕ
  yieldHandler : ℕ
  lapicTimerHandler : ℕ
  stubAt : ℕ → Option Stub
  located : ∀ s : Stub, s.Assembled → stubAt (addr s) = some s ∧ addr s < 2 ^ 64
  others : stubAt yieldHandler = none ∧ stubAt lapicTimerHandler = none

def Text.isrStubTable (x : Text) (i : ℕ) : ℕ := x.addr (.isr i)

def Text.irqStubTable (x : Text) (i : ℕ) : ℕ := x.addr (.irq i)

def initIDT (x : Text) (t : IdtEntries) : IdtEntries :=
  let t := (List.range 256).foldl (fun t i => setIDTGate t i 0 0 0) t
  let t := (List.range 8).foldl (fun t vector => setIDTGate t vector (x.isrStubTable vector) 0x8E 0) t
  let t := setIDTGate t 8 (x.isrStubTable 8) 0x8E 1
  let t := (List.range' 9 23).foldl (fun t vector => setIDTGate t vector (x.isrStubTable vector) 0x8E 0) t
  let t := (List.range' 32 16).foldl (fun t vector => setIDTGate t vector (x.irqStubTable (vector - 32)) 0x8E 0) t
  let t := setIDTGate t 0x81 x.yieldHandler 0x8E 0
  let t := setIDTGate t 0xEF x.lapicTimerHandler 0x8E 0
  setIDTGate t 255 (x.addr (.isr 255)) 0x8E 0

/-! ## The stubs -/

inductive Reg
  | rax | rbx | rcx | rdx | rsi | rdi | rbp | r8 | r9 | r10 | r11 | r12 | r13 | r14 | r15 | rsp
deriving DecidableEq

inductive Callee
  | exceptionHandler
deriving DecidableEq

abbrev Code := List (Instr Reg Callee)

/-- The registers that `common_stub` pushes, in order. -/
def savedRegisters : List Reg :=
  [.r15, .r14, .r13, .r12, .r11, .r10, .r9, .r8, .rbp, .rdi, .rsi, .rdx, .rcx, .rbx, .rax]

/-- The registers that `common_stub` pops, in order. -/
def restoredRegisters : List Reg :=
  [.rax, .rbx, .rcx, .rdx, .rsi, .rdi, .rbp, .r8, .r9, .r10, .r11, .r12, .r13, .r14, .r15]

/-- `common_stub` as far as its call. -/
def commonEnter : Code := savedRegisters.map .push ++ [.mov .rdi .rsp]

/-- `common_stub` after its call, but for `iretq`. -/
def commonLeave : Code := restoredRegisters.map .pop ++ [.addImm .rsp 16]

namespace Stub

/-- `ISR_ERRCODE` leaves the error code to the processor. -/
def hasErrCode : Stub → Bool
  | isr v => v = 8 ∨ v = 10 ∨ v = 11 ∨ v = 12 ∨ v = 13 ∨ v = 14
  | irq _ => false

/-- The number that the stub pushes. -/
def number : Stub → ℕ
  | isr v => v
  | irq n => 32 + n

/-- What the stub pushes before it jumps to `common_stub`. -/
def pushes (s : Stub) : List ℕ := if s.hasErrCode then [s.number] else [0, s.number]

def enter (s : Stub) : Code := s.pushes.map .pushImm ++ commonEnter

def code (s : Stub) : Code := s.enter ++ .call .exceptionHandler :: commonLeave

end Stub

/-! ## The handler -/

structure InterruptRegisters where
  rax : ℕ
  rbx : ℕ
  rcx : ℕ
  rdx : ℕ
  rsi : ℕ
  rdi : ℕ
  rbp : ℕ
  r8 : ℕ
  r9 : ℕ
  r10 : ℕ
  r11 : ℕ
  r12 : ℕ
  r13 : ℕ
  r14 : ℕ
  r15 : ℕ
  intNo : ℕ
  errCode : ℕ
  rip : ℕ
  cs : ℕ
  rflags : ℕ
  rsp : ℕ
  ss : ℕ
deriving DecidableEq

/-- The structure at the address `a`. -/
def InterruptRegisters.read (m : Memory) (a : ℕ) : InterruptRegisters :=
  let w i := load64 m (a + 8 * i)
  { rax := w 0, rbx := w 1, rcx := w 2, rdx := w 3, rsi := w 4, rdi := w 5, rbp := w 6, r8 := w 7, r9 := w 8
    r10 := w 9, r11 := w 10, r12 := w 11, r13 := w 12, r14 := w 13, r15 := w 14, intNo := w 15, errCode := w 16
    rip := w 17, cs := w 18, rflags := w 19, rsp := w 20, ss := w 21 }

/-- What `exception_handler` does, in order. -/
inductive Action
  | serialPrint (text : String)
  | pageFaultHandler
  | handler (address : ℕ)
  | lapicEoi
deriving DecidableEq

def exceptions : List String :=
  ["Division By Zero.", "Debug.", "Non Maskable Interrupt.", "Breakpoint.", "Into Detected Overflow.",
    "Out Of Bounds.", "Invalid Opcode.", "No Coprocessor.", "Double Fault.", "Coprocessor Segment Overrun.",
    "Bad TSS.", "Segment not present.", "Stack fault.", "General Protection Fault.", "Page Fault.",
    "Unknown Interrupt.", "Coprocessor Fault.", "Aligment Fault.", "Machine Check."] ++ List.replicate 13 "Reserved."

def isrHandler (r : InterruptRegisters) : List Action :=
  [.serialPrint "[ISR] ", .serialPrint (exceptions.getD r.intNo ""), .serialPrint "\n"] ++
    if r.intNo = 0x0e then [.pageFaultHandler] else []

def irqHandler (irqHandlers : ℕ → ℕ) (r : InterruptRegisters) : List Action :=
  [.handler (irqHandlers (r.intNo - 32)), .lapicEoi]

def exceptionHandler (irqHandlers : ℕ → ℕ) (r : InterruptRegisters) : List Action :=
  (if r.intNo < 32 then isrHandler r else []) ++
    (if 31 < r.intNo ∧ r.intNo < 48 then irqHandler irqHandlers r else []) ++
      if r.intNo = 255 then [.lapicEoi] else []

/-! ## The processor -/

structure Tss where
  rsp0 : ℕ
  ist : ℕ → ℕ
  lt : rsp0 < 2 ^ 64 ∧ ∀ i, ist i < 2 ^ 64

structure Processor where
  cpu : Cpu Reg
  rip : ℕ
  cs : ℕ
  rflags : ℕ
  ss : ℕ
  rip_lt : rip < 2 ^ 64
  cs_lt : cs < 2 ^ 16
  rflags_lt : rflags < 2 ^ 64
  ss_lt : ss < 2 ^ 16

/-- The exceptions with which the processor pushes an error code. -/
def pushesErrCode (v : ℕ) : Bool := v ∈ [8, 10, 11, 12, 13, 14, 17, 21, 29, 30]

namespace IdtEntry

def present (e : IdtEntry) : Bool := e.flags.testBit 7

def dpl (e : IdtEntry) : ℕ := e.flags / 32 % 4

def offset (e : IdtEntry) : ℕ := (e.offset1 + e.offset2 * 2 ^ 16 + e.offset3 * 2 ^ 32) % 2 ^ 64

end IdtEntry

namespace Processor

/-- Where the processor starts to push: at an entry of the TSS if the gate names one or the privilege
changes, else where the stack is. -/
def frameTop (p : Processor) (tss : Tss) (e : IdtEntry) : ℕ :=
  (if e.ist % 8 ≠ 0 then tss.ist (e.ist % 8 - 1) else if p.cs % 4 ≠ 0 then tss.rsp0 else p.cpu.reg .rsp) / 16 * 16

/-- An interrupt gate clears TF, IF, NT, RF and VM. -/
def gateFlags (rflags : ℕ) : ℕ := rflags &&& (2 ^ 64 - 1 - 0x34300)

/-- The processor after it has pushed what it goes back to and loaded the gate. -/
def through (p : Processor) (tss : Tss) (e : IdtEntry) (err : Option ℕ) : Processor where
  cpu := (p.cpu.set .rsp (p.frameTop tss e)).pushWords .rsp
    ([p.ss, p.cpu.reg .rsp, p.rflags, p.cs, p.rip] ++ err.toList)
  rip := e.offset
  cs := e.selector % 2 ^ 16
  rflags := gateFlags p.rflags
  ss := if p.cs % 4 ≠ 0 then 0 else p.ss
  rip_lt := Nat.mod_lt _ (by decide)
  cs_lt := Nat.mod_lt _ (by decide)
  rflags_lt := lt_of_le_of_lt Nat.and_le_left p.rflags_lt
  ss_lt := by split_ifs; exacts [by decide, p.ss_lt]

/-- The delivery of a vector, with the error code if it has one. -/
def deliver (p : Processor) (idt : IdtEntries) (tss : Tss) (v : ℕ) (err : Option ℕ) : Option Processor :=
  if 16 * v + 15 ≤ 16 * 256 - 1 ∧ (idt v).present then some (p.through tss (idt v) err) else none

/-- Code without a call. -/
def run (p : Processor) (code : Code) : Processor := { p with cpu := p.cpu.run .rsp (fun _ c => c) code }

def iretq (p : Processor) : Processor :=
  let w i := load64 p.cpu.mem (p.cpu.reg .rsp + 8 * i)
  { cpu := p.cpu.set .rsp (w 3)
    rip := w 0
    cs := w 1 % 2 ^ 16
    rflags := w 2
    ss := w 4 % 2 ^ 16
    rip_lt := load64_lt _ _
    cs_lt := Nat.mod_lt _ (by decide)
    rflags_lt := load64_lt _ _
    ss_lt := Nat.mod_lt _ (by decide) }

end Processor

/-- Vector, table and text together: the stub that runs and the processor at its call. -/
def Processor.entered (p : Processor) (x : Text) (idt : IdtEntries) (tss : Tss) (v : ℕ) (err : Option ℕ) :
    Option (Stub × Processor) := do
  let e ← p.deliver idt tss v err
  let s ← x.stubAt e.rip
  return (s, e.run s.enter)

/-- The way back from the call. -/
def Processor.left (p : Processor) : Processor := (p.run commonLeave).iretq

end PointerOS
