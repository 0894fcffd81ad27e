import PointerOS.SavedFrames
import PointerOS.Teardown
import PointerOS.Syscalls

/-!
# The GS base over whole runs

`scheduler_handler` points `IA32_KERNEL_GS_BASE` at `sstacks` on the way to a thread of a
process, and a system call that ends its thread leaves the two bases swapped. In every run
a thread in user mode nevertheless finds `sstacks` there, with the top of its own kernel
stack, so that its system calls enter on a stack of its own.
-/
namespace PointerOS
open LinkedList

/-! ## The registers in a run -/

/-- The MSRs after `scheduler_handler`. -/
def Kernel.schedulerMsrs (k : Kernel) (oldRsp sstacks : ℕ) (m : Msrs) : Msrs :=
  if k.NoOther then m
  else
    let old := k.currentThread
    let k₁ := k.putAway old oldRsp
    let start := if k₁.Leaves old then k₁.readyListHead else (k.threads old).next
    if start = 0 then m
    else
      match searchReady k₁.threads start (2 ^ 64) start with
      | .thread next => if (k₁.threads next).process ≠ 0 then m.initKernelGsBase sstacks else m
      | _ => m

/-- A machine with its MSRs, and whether the thread of the processor is in a system call. -/
structure GsMachine where
  machine : Machine
  msrs : Msrs
  inSyscall : Bool

namespace GsMachine

/-- The thread of the processor writes to its own stacks, and goes on with other registers. -/
structure Works (g : GsMachine) (m : Machine) (r : Registers) : Prop where
  eq : ∃ w vm regions, m = g.machine.worked w vm regions r ∧
    ∀ x, ¬Touches (g.machine.own g.machine.kernel.currentThread) x → w x = g.machine.kernel.words x
  backed : g.machine.Backed m

/-- A system call that comes back is an `enter`, some work and a `leave`; its handler switches to
another thread only if it ends its own. -/
inductive Step (img : Image) (sstacks : ℕ) (g : GsMachine) : GsMachine → Prop
  | work (m : Machine) (r : Registers) (hw : g.Works m r) (hring : r.cs % 4 = g.machine.registers.cs % 4) :
      Step img sstacks g { g with machine := m }
  | call (c : Call) (k : Kernel) (t : Trace) (hentry : c.handlerEntry g.machine.kernel = none)
      (hc : c.Proper g.machine.kernel g.machine.trace) (hok : c.Keeping g.machine.kernel g.machine.trace)
      (hrun : c.run img g.machine.kernel g.machine.trace = some (k, t))
      (hroom : ∀ u ∈ t.live, u ∉ g.machine.trace.live → (k.threads u).Roomy)
      (hapart : (g.machine.called img c k t).Apart) (hb : g.machine.Backed (g.machine.called img c k t)) :
      Step img sstacks g { g with machine := g.machine.called img c k t }
  | interrupt (c : Call) (w : ℕ × ℕ → ℕ) (k : Kernel) (r : ℕ) (m' : Machine)
      (hi : g.machine.Interrupts img c w k r m') (hexit : g.inSyscall = true → ∃ rsp, c = .exit rsp) :
      Step img sstacks g
        { machine := m'
          msrs := k.schedulerMsrs (g.machine.kernel.pushWords (g.machine.kernel.interruptTop g.machine.registers)
            g.machine.registers.pushed).1 sstacks g.msrs
          inSyscall := g.inSyscall && decide (m'.kernel.currentThread = g.machine.kernel.currentThread) }
  | enter (m : Machine) (r : Registers) (hw : g.Works m r) (huser : g.machine.registers.cs % 4 = 3)
      (hring : r.cs % 4 = 0) :
      Step img sstacks g { machine := m, msrs := g.msrs.swapgs, inSyscall := true }
  | leave (m : Machine) (r : Registers) (hw : g.Works m r) (hin : g.inSyscall = true) (hring : r.cs % 4 = 3) :
      Step img sstacks g { machine := m, msrs := g.msrs.swapgs, inSyscall := false }

end GsMachine

/-- Runs from the main thread alone, in ring 0, after `init_syscalls`. -/
inductive GsRun (img : Image) (syscallEntry sstacks : ℕ) : GsMachine → Prop
  | init {k : Kernel} {main : ℕ} {r : Registers} {stack : Set (ℕ × ℕ)} {m : Msrs} (h0 : main ≠ 0)
      (hready : k.readyListHead = 0) (hmain : (k.threads main).process = 0) (hstack : ∀ x ∈ stack, 2 ^ 47 ≤ x.2)
      (hsingle : (⟨k.startMain main, Trace.start [main], r, fun _ => stack, fun _ => .pushed r⟩ : Machine).Single)
      (hring : r.cs % 4 = 0) :
      GsRun img syscallEntry sstacks ⟨⟨k.startMain main, Trace.start [main], r, fun _ => stack, fun _ => .pushed r⟩,
        m.initSyscalls syscallEntry sstacks, false⟩
  | step {g g' : GsMachine} (h : GsRun img syscallEntry sstacks g) (hs : g.Step img sstacks g') :
      GsRun img syscallEntry sstacks g'

/-! ## What a run keeps -/

/-- A context in user mode is one of a thread of a process. -/
def Context.Fits (p : ℕ) : Context → Prop
  | pushed r => r.cs % 4 = 3 → p ≠ 0
  | fabricated _ _ cs _ => cs % 4 = 3 → p ≠ 0

/-- The process of a live thread. -/
abbrev Machine.process (m : Machine) (t : ℕ) : ℕ := (m.kernel.threads t).process

structure GsMachine.Sound (syscallEntry sstacks : ℕ) (g : GsMachine) : Prop where
  user : g.machine.registers.cs % 4 = 3 →
    g.msrs.kernelGsBase = sstacks ∧ g.machine.process g.machine.kernel.currentThread ≠ 0 ∧ g.inSyscall = false
  inside : g.inSyscall = true →
    g.msrs.gsBase = sstacks ∧ g.machine.process g.machine.kernel.currentThread ≠ 0
  contexts : ∀ t ∈ g.machine.trace.live, (g.machine.context t).Fits (g.machine.process t)
  stack : g.machine.process g.machine.kernel.currentThread ≠ 0 → g.machine.kernel.kernelRsp = g.machine.kernel.rsp0
  fixed : g.msrs.Fixed syscallEntry

section Steps
variable {img : Image} {syscallEntry sstacks : ℕ} {g g' : GsMachine} {k k' : Kernel} {m m' : Machine} {c : Call}
  {rest : List ℕ}

theorem GsRun.switchRun (h : GsRun img syscallEntry sstacks g) : SwitchRun img g.machine := by
  induction h with
  | init h0 hready hmain hstack hsingle _ => exact .init h0 hready hmain hstack hsingle
  | step _ hs ih =>
    cases hs with
    | work m r hw _ =>
      obtain ⟨⟨w, vm, regions, rfl, hframe⟩, hb⟩ := hw
      exact ih.step (.work w vm regions r hframe hb)
    | call c k t hentry hc hok hrun hroom hapart hb =>
      exact ih.step (.call c k t hentry hc hok hrun hroom hapart hb)
    | interrupt c w k r m' hi _ => exact ih.step (.interrupt c w k r m' hi)
    | enter m r hw _ _ =>
      obtain ⟨⟨w, vm, regions, rfl, hframe⟩, hb⟩ := hw
      exact ih.step (.work w vm regions r hframe hb)
    | leave m r hw _ _ =>
      obtain ⟨⟨w, vm, regions, rfl, hframe⟩, hb⟩ := hw
      exact ih.step (.work w vm regions r hframe hb)

/-- A switch to another thread runs `init_kernel_gs_base` if that one has a process. -/
theorem Kernel.schedulerMsrs_switched {sp r : ℕ} (sstacks : ℕ) (x : Msrs) (h : k.schedulerHandler sp = some (r, k'))
    (hne : k'.currentThread ≠ k.currentThread) (hp : (k'.threads k'.currentThread).process ≠ 0) :
    (k.schedulerMsrs sp sstacks x).kernelGsBase = (x.initKernelGsBase sstacks).kernelGsBase := by
  unfold schedulerHandler at h
  unfold schedulerMsrs
  dsimp only at h ⊢
  obtain ⟨k₁, hk₁⟩ : ∃ k₁, k₁ = k.putAway k.currentThread sp := ⟨_, rfl⟩
  have hcur : k₁.currentThread = k.currentThread := by
    rw [hk₁]
    exact (k.putAway_homes k.currentThread sp).2.current
  rw [← hk₁] at h ⊢
  obtain ⟨start, hstart⟩ : ∃ start, start = if k₁.Leaves k.currentThread then k₁.readyListHead
      else (k.threads k.currentThread).next := ⟨_, rfl⟩
  rw [← hstart] at h ⊢
  have hstays : ∀ {x y : ℕ} {k₂ : Kernel}, some (x, k₂) = some (y, k') → k₂.currentThread = k.currentThread → False :=
    fun he hcur₂ => hne ((congrArg (·.currentThread) (Prod.mk.inj (Option.some.inj he)).2).symm.trans hcur₂)
  by_cases hno : k.NoOther
  · rw [if_pos hno] at h
    exact (hstays h rfl).elim
  rw [if_neg hno] at h ⊢
  by_cases h0 : start = 0
  · rw [if_pos h0] at h
    exact (hstays h hcur).elim
  rw [if_neg h0] at h ⊢
  cases hfound : searchReady k₁.threads start (2 ^ 64) start with
  | thread next =>
    rw [hfound] at h
    have hk' : k₁.dispatch k.currentThread next = k' := (Prod.mk.inj (Option.some.inj h)).2
    rw [← hk', dispatch_currentThread] at hp
    have hproc : ((k₁.dispatch k.currentThread next).threads next).process = (k₁.threads next).process :=
      congrArg Home.process (k₁.dispatch_home k.currentThread next next)
    rw [hproc] at hp
    dsimp only
    rw [if_pos hp]
  | none =>
    rw [hfound] at h
    by_cases hl : k₁.Leaves k.currentThread
    · exact absurd ((if_pos hl).symm.trans h).symm (Option.some_ne_none _)
    · exact (hstays ((if_neg hl).symm.trans h) hcur).elim
  | never =>
    rw [hfound] at h
    exact absurd h.symm (Option.some_ne_none _)

theorem Kernel.schedulerMsrs_fixed (k : Kernel) (sp sstacks : ℕ) {x : Msrs} (h : x.Fixed syscallEntry) :
    (k.schedulerMsrs sp sstacks x).Fixed syscallEntry := by
  unfold schedulerMsrs
  dsimp only
  by_cases hno : k.NoOther
  · rw [if_pos hno]
    exact h
  rw [if_neg hno]
  generalize (if (k.putAway k.currentThread sp).Leaves k.currentThread then
    (k.putAway k.currentThread sp).readyListHead else (k.threads k.currentThread).next) = start
  by_cases h0 : start = 0
  · rw [if_pos h0]
    exact h
  rw [if_neg h0]
  cases searchReady (k.putAway k.currentThread sp).threads start (2 ^ 64) start with
  | thread next =>
    dsimp only
    split_ifs
    · exact ⟨h.sce, h.star, h.lstar, h.fmask⟩
    · exact h
  | none => exact h
  | never => exact h

/-- An interrupt stays with its thread, as there is no other, or goes to another one. -/
theorem Machine.Saved.turned (h : m.Saved rest) {w : ℕ × ℕ → ℕ} {r : ℕ} (hi : m.Interrupts img c w k r m') :
    m'.trace.live = m.trace.live ∧ (∀ t, m'.process t = m.process t) ∧
      k.currentThread = m.kernel.currentThread ∧
      (m'.kernel.currentThread = m.kernel.currentThread ∧ k.NoOther ∧ m'.kernel.kernelRsp = m.kernel.kernelRsp ∧
          m'.kernel.rsp0 = m.kernel.rsp0 ∨
        m'.kernel.currentThread ≠ m.kernel.currentThread ∧ m'.kernel.kernelRsp = m'.kernel.rsp0) := by
  obtain ⟨hbase, -, -⟩ := h.entered hi
  have hentry := hi.entry
  have hhandler := hi.handler
  rw [hbase] at hentry hhandler
  obtain ⟨c₀, hc₀⟩ : ∃ c₀, c₀ = m.kernel.currentThread := ⟨_, rfl⟩
  have hring₀ : Kernel.ReadyRing { m.kernel with words := w } c₀ rest :=
    ⟨hc₀ ▸ h.ring.ring, hc₀ ▸ rfl, hc₀ ▸ h.ring.head, hc₀ ▸ h.ring.null, h.ring.ready⟩
  obtain ⟨hring, hspace, hhome, -, -⟩ := Call.handlerEntry_entered hentry hring₀
  have hcur : k.currentThread = m.kernel.currentThread := hring.current.trans hc₀
  refine ⟨Call.run_live hentry hi.run, ?_⟩
  rw [hcur]
  rcases hring.handler hhandler with ⟨hrest, -, hk⟩ | ⟨u, rest', hu, hsw, -, -⟩
  · refine ⟨fun t => ?_, rfl, .inl ⟨by rw [hk, hcur], hring.noOther_iff.mpr hrest, ?_, ?_⟩⟩
    · rw [Machine.process, hk]
      exact congrArg Home.process (hhome t)
    · rw [hk]
      exact hspace.kernelRsp
    · rw [hk]
      exact hspace.rsp0
  · have hhomes : ∀ t, (m'.kernel.threads t).home = (k.threads t).home := fun t => by
      rw [hsw.eq]
      exact (Kernel.dispatch_home _ c₀ u t).trans ((k.putAway_homes c₀ _).2.home t)
    refine ⟨fun t => congrArg Home.process ((hhomes t).trans (hhome t)), rfl, .inr ⟨?_, ?_⟩⟩
    · rw [hsw.ring.current, ← hc₀]
      exact hsw.picked.1
    · rw [hsw.eq]
      rfl

theorem Kernel.createUserThread_kernelRsp {proc t info usInfo entry ksize usize r : ℕ}
    (h : k.createUserThread proc t info usInfo entry ksize usize = some (r, k')) : k'.kernelRsp = k.kernelRsp := by
  by_cases h0 : r = 0
  · rcases createUserThread_makes h with ⟨-, hf⟩ | ⟨hr, ht, -⟩
    · exact hf.space.kernelRsp
    · exact absurd (hr.symm.trans h0) ht
  · obtain ⟨-, kmem, k₁, umem, k₂, rsp, k₃, halloc, -, huser, hpush, hk'⟩ := createUserThread_made h h0
    have hspace₁ : k.SameSpace k₁ := by
      have := k.kernelAllocStack_space info ksize
      rwa [halloc] at this
    have hspace₃ : k₂.SameSpace k₃ := by
      have := pushFrame_space k₂ umem 0x300000 0x1B 0x23 entry
      rwa [hpush] at this
    have hwith : k₂.kernelRsp = k₁.kernelRsp := congrArg (·.kernelRsp) (userAllocStack_with huser)
    rw [hk', (addThread_homes _ _ _).1.kernelRsp]
    exact hspace₃.kernelRsp.trans (hwith.trans hspace₁.kernelRsp)

/-- What a call that does not enter `scheduler_handler` leaves. -/
structure Call.Quiet (img : Image) (c : Call) (k k' : Kernel) (t t' : Trace) : Prop where
  current : k'.currentThread = k.currentThread
  kernelRsp : k'.kernelRsp = k.kernelRsp
  rsp0 : k'.rsp0 = k.rsp0
  process : ∀ u ∈ t.live, (k'.threads u).process = (k.threads u).process
  live : ∀ u ∈ t'.live, u ∈ t.live ∨ (c.context img).Fits (k'.threads u).process

/-- A call that creates nothing. -/
theorem Call.Quiet.of_homes {t : Trace} (hs : k.SameHomes k') (hkrsp : k'.kernelRsp = k.kernelRsp)
    (hrsp0 : k'.rsp0 = k.rsp0) {t' : Trace} (hlive : t'.live = t.live) : c.Quiet img k k' t t' :=
  ⟨hs.current, hkrsp, hrsp0, fun u _ => congrArg Home.process (hs.home u), fun _ hu => .inl (hlive ▸ hu)⟩

theorem Call.run_quiet {t t' : Trace} (hentry : c.handlerEntry k = none) (hc : c.Proper k t) (hok : c.Keeping k t)
    (hrun : c.run img k t = some (k', t')) : c.Quiet img k k' t t' := by
  cases c with
  | createThread r info entry size =>
    have hrun' : some ((k.createThread img r info entry size).2, t.record (k.createThread img r info entry size).1) =
      some (k', t') := hrun
    obtain ⟨rfl, rfl⟩ := Prod.mk.inj (Option.some.inj hrun')
    obtain ⟨hs, hcur, ⟨hr, hh⟩ | ⟨hr, h0, hhome, -⟩⟩ := k.createThread_homes img r info entry size
    · exact .of_homes hh hs.kernelRsp hs.rsp0 (by rw [Trace.record, if_pos hr])
    · refine ⟨hcur, hs.kernelRsp, hs.rsp0, fun u hu => congrArg Home.process (hhome u fun he => hc (he ▸ hu)),
        fun u _ => .inr fun h3 => absurd h3 (by decide)⟩
  | createUserThread proc r info usInfo entry ksize usize =>
    obtain ⟨⟨r', k₁⟩, hcall, heq⟩ := Option.map_eq_some_iff.mp hrun
    obtain ⟨rfl, rfl⟩ := Prod.mk.inj heq
    have hkrsp := Kernel.createUserThread_kernelRsp hcall
    obtain ⟨hcur, hhome⟩ := (Kernel.createUserThread_adds hcall).homes
    have hprocess : ∀ u ∈ t.live, (k₁.threads u).process = (k.threads u).process := fun u hu =>
      congrArg Home.process (hhome u fun _ he => hc (he ▸ hu))
    rcases Kernel.createUserThread_makes hcall with ⟨hr, hf⟩ | ⟨rfl, h0, hmakes, hproc⟩
    · exact ⟨hcur, hkrsp, hf.space.rsp0, hprocess, fun u hu => .inl (by rwa [Trace.record, if_pos hr] at hu)⟩
    · refine ⟨hcur, hkrsp, hmakes.cr3.2, hprocess, fun u hu => ?_⟩
      rw [Trace.record, if_neg h0] at hu
      rcases List.mem_cons.mp hu with rfl | hu
      · refine .inr fun _ => ?_
        rw [hproc]
        exact hok
      · exact .inl hu
  | createUserProcess p =>
    have hrun' : some ((k.createUserProcess p).2, t) = some (k', t') := hrun
    obtain ⟨rfl, rfl⟩ := Prod.mk.inj (Option.some.inj hrun')
    refine .of_homes (k.createUserProcess_same p).homes ?_ (k.createUserProcess_rest p).2.1 rfl
    unfold Kernel.createUserProcess
    dsimp only
    split_ifs <;> rfl
  | tick rsp => exact absurd hentry (Option.some_ne_none _)
  | exit rsp => exact absurd hentry (Option.some_ne_none _)
  | lock mu rsp =>
    have hfree : (k.mutexes mu).locked = 0 := by
      by_contra hl
      rw [Call.handlerEntry, if_neg hl] at hentry
      exact Option.some_ne_none _ hentry
    have hlock : k.mutexLock mu rsp = some (rsp, k.setMutex mu fun x => { x with locked := 1 }) := by
      rw [Kernel.mutexLock, Kernel.lockSection, if_pos hfree]
    rw [Call.run, hlock] at hrun
    obtain ⟨rfl, rfl⟩ := Prod.mk.inj (Option.some.inj hrun)
    have hh : k.SameHomes (k.setMutex mu fun x => { x with locked := 1 }) := ⟨fun _ => rfl, rfl⟩
    refine .of_homes hh rfl rfl ?_
    rw [if_pos hfree]
    rfl
  | unlock mu =>
    have hrun' : some (k.mutexUnlock mu, t.setOwner mu (k.mutexes mu).blockedHead) = some (k', t') := hrun
    obtain ⟨rfl, rfl⟩ := Prod.mk.inj (Option.some.inj hrun')
    obtain ⟨hs, hh⟩ := k.mutexUnlock_homes mu
    exact .of_homes hh hs.kernelRsp hs.rsp0 rfl
  | takeDead =>
    have hrun' : some (k.takeDead.2, t.setCleaning (t.serial k.currentThread) k.takeDead.1) = some (k', t') := hrun
    obtain ⟨rfl, rfl⟩ := Prod.mk.inj (Option.some.inj hrun')
    have hh : k.SameHomes k.takeDead.2 := ⟨fun _ => rfl, rfl⟩
    exact .of_homes hh rfl rfl rfl
  | cleanupRound => exact absurd hok id

/-! ## Runs -/

theorem GsMachine.Sound.step (h : g.Sound syscallEntry sstacks) (hS : sstacks < 2 ^ 64)
    (hsaved : g.machine.Saved rest) (hs : g.Step img sstacks g') : g'.Sound syscallEntry sstacks := by
  have hcurLive := hsaved.live _ List.mem_cons_self
  cases hs with
  | work m r hw hring =>
    obtain ⟨w, vm, regions, rfl, -⟩ := hw.eq
    exact ⟨fun h3 => h.user (hring.symm.trans h3), h.inside, h.contexts, h.stack, h.fixed⟩
  | call c k t hentry hc hok hrun hroom hapart hb =>
    obtain ⟨hcur, hkrsp, hrsp0, hprocess, hlive⟩ := Call.run_quiet hentry hc hok hrun
    have hproc : (k.threads k.currentThread).process = g.machine.process g.machine.kernel.currentThread := by
      rw [hcur, hprocess _ hcurLive]
    refine ⟨fun h3 => ?_, fun hin => ?_, fun u hu => ?_, fun hp => ?_, h.fixed⟩
    · obtain ⟨hbase, hp, hout⟩ := h.user h3
      exact ⟨hbase, fun h0 => hp (hproc.symm.trans h0), hout⟩
    · obtain ⟨hbase, hp⟩ := h.inside hin
      exact ⟨hbase, fun h0 => hp (hproc.symm.trans h0)⟩
    · change Context.Fits (k.threads u).process
        (if u ∈ g.machine.trace.live then g.machine.context u else c.context img)
      by_cases hold : u ∈ g.machine.trace.live
      · rw [if_pos hold, hprocess u hold]
        exact h.contexts u hold
      · rw [if_neg hold]
        exact (hlive u hu).resolve_left hold
    · change k.kernelRsp = k.rsp0
      rw [hkrsp, hrsp0]
      exact h.stack fun h0 => hp (hproc.trans h0)
  | interrupt c w k r m' hi hexit =>
    obtain ⟨hlive, hprocess, hcur, hturn⟩ := hsaved.turned hi
    have hresumed := (hsaved.interrupt hi).1
    have hcontexts : ∀ u ∈ m'.trace.live, (m'.context u).Fits (m'.process u) := by
      intro u hu
      rw [hi.context, hprocess]
      by_cases huc : u = g.machine.kernel.currentThread
      · rw [huc, Function.update_self]
        exact hi.ring3
      · rw [Function.update_of_ne huc]
        exact h.contexts u (hlive ▸ hu)
    have hlive' : m'.kernel.currentThread ∈ m'.trace.live := by
      obtain ⟨rest', hsaved'⟩ := (hsaved.interrupt hi).2
      exact hsaved'.live _ List.mem_cons_self
    -- what is resumed in user mode has a process
    have huser : m'.registers.cs % 4 = 3 → m'.process m'.kernel.currentThread ≠ 0 := by
      intro h3
      have hfits := hcontexts _ hlive'
      cases hctx : m'.context m'.kernel.currentThread with
      | pushed q =>
        rw [hctx] at hresumed hfits
        have hq : m'.registers = q := hresumed
        exact hfits (hq ▸ h3)
      | fabricated e ret cs ss =>
        rw [hctx] at hresumed hfits
        obtain ⟨sp, hq, -⟩ := hresumed
        rw [hq] at h3
        exact hfits h3
    have hfixed := k.schedulerMsrs_fixed (g.machine.kernel.pushWords
      (g.machine.kernel.interruptTop g.machine.registers) g.machine.registers.pushed).1 sstacks h.fixed
    rcases hturn with ⟨hsame, hno, hkrsp, hrsp0⟩ | ⟨hother, hkrsp⟩
    · have hregisters : m'.registers = g.machine.registers := by
        rw [hi.context, hsame, Function.update_self] at hresumed
        exact hresumed
      have hmsrs : ∀ sp, k.schedulerMsrs sp sstacks g.msrs = g.msrs := fun sp => by
        unfold Kernel.schedulerMsrs
        rw [if_pos hno]
      have hproc : m'.process m'.kernel.currentThread = g.machine.process g.machine.kernel.currentThread := by
        rw [hsame, hprocess]
      refine ⟨fun h3 => ?_, fun hin => ?_, hcontexts, fun hp => ?_, hfixed⟩
      · obtain ⟨hbase, hp, hout⟩ := h.user (hregisters ▸ h3)
        refine ⟨?_, fun h0 => hp (hproc.symm.trans h0), ?_⟩
        · rw [hmsrs]
          exact hbase
        · dsimp only
          rw [hout]
          rfl
      · obtain ⟨hin, -⟩ := Bool.and_eq_true_iff.mp hin
        obtain ⟨hbase, hp⟩ := h.inside hin
        refine ⟨?_, fun h0 => hp (hproc.symm.trans h0)⟩
        rw [hmsrs]
        exact hbase
      · change m'.kernel.kernelRsp = m'.kernel.rsp0
        rw [hkrsp, hrsp0]
        exact h.stack fun h0 => hp (hproc.trans h0)
    · have hout : (g.inSyscall && decide (m'.kernel.currentThread = g.machine.kernel.currentThread)) = false := by
        rw [decide_eq_false hother, Bool.and_false]
      refine ⟨fun h3 => ⟨?_, huser h3, hout⟩, fun hin => ?_, hcontexts, fun _ => hkrsp, hfixed⟩
      · have hswitched := k.schedulerMsrs_switched sstacks g.msrs hi.handler (hcur ▸ hother) (huser h3)
        dsimp only
        rw [hswitched]
        simp only [Msrs.initKernelGsBase, writeMsr]
        omega
      · rw [hout] at hin
        exact absurd hin Bool.false_ne_true
  | enter m r hw huser hring =>
    obtain ⟨w, vm, regions, rfl, -⟩ := hw.eq
    obtain ⟨hbase, hproc, -⟩ := h.user huser
    exact ⟨fun h3 => absurd (hring.symm.trans h3) (by decide), fun _ => ⟨hbase, hproc⟩, h.contexts, h.stack,
      h.fixed.swapgs⟩
  | leave m r hw hin hring =>
    obtain ⟨w, vm, regions, rfl, -⟩ := hw.eq
    obtain ⟨hbase, hproc⟩ := h.inside hin
    exact ⟨fun _ => ⟨hbase, hproc, rfl⟩, fun hf => absurd hf Bool.false_ne_true, h.contexts, h.stack,
      h.fixed.swapgs⟩

theorem GsRun.sound (h : GsRun img syscallEntry sstacks g) (hentry : syscallEntry < 2 ^ 64) (hS : sstacks < 2 ^ 64) :
    g.Sound syscallEntry sstacks := by
  induction h with
  | @init k main r stack m h0 hready hmain hstack _ hring =>
    obtain ⟨hring', -⟩ := Kernel.startMain_ring h0 hready
    have hproc : ((k.startMain main).threads main).process = 0 := by
      simp [Kernel.startMain, Kernel.enqueueThread, Kernel.setThread, hready, hmain]
    have hready := m.initSyscalls_ready hentry hS
    refine ⟨fun h3 => absurd (hring.symm.trans h3) (by decide), fun hf => absurd hf Bool.false_ne_true,
      fun u hu h3 => absurd (hring.symm.trans h3) (by decide), fun hp => ?_, hready.toFixed⟩
    dsimp only [Machine.process] at hp
    rw [hring'.current] at hp
    exact absurd hproc hp
  | step hrun hs ih =>
    obtain ⟨rest, hsaved⟩ := hrun.switchRun.saved
    exact ih.step hS hsaved hs

end Steps

/-- The main thread has created a process at 0x400. -/
def Kernel.oneProcess : Kernel := (Kernel.mainAlone.createUserProcess 0x400).2

/-- The main thread alone, after `init_syscalls`. -/
def GsMachine.boot : GsMachine := ⟨.mainAlone, Msrs.initSyscalls ⟨0, 0, 0, 0, 0, 0⟩ 0x2000 0x1000, false⟩

end PointerOS
