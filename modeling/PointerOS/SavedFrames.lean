import PointerOS.ContextSwitch
import PointerOS.SpaceSwitch
import PointerOS.SchedulerState

/-!
# Saved frames

Below the saved stack pointer of every thread that waits in the ring lie the words that it goes on
with, inside its own stacks. Creations put them there, switches leave those of the other threads
alone, and so a thread that is dispatched takes back what it was switched out with.
-/
namespace PointerOS
open LinkedList

/-! ## The frames of new threads -/

/-- The words of the new thread `t`, inside its stacks. -/
structure Kernel.NewFrame (k k' : Kernel) (t : ℕ) (ctx : Context) : Prop where
  words : ∃ e ret cs ss, ctx = .fabricated e ret cs ss
  fits : (k'.threads t).rsp + 168 ≤ 2 ^ 64
  aligned : (k'.threads t).rsp % 16 = 8
  has : k'.StackHas (k'.space t) (k'.threads t).rsp (ctx.words (k'.threads t).rsp)
  inside : ∀ i < 21, Inside (k'.stackBytes t) (cell (k'.space t) ((k'.threads t).rsp + 8 * i))
  frame : ∀ x, (∀ i < 21, x ≠ cell (k'.space t) ((k'.threads t).rsp + 8 * i)) → k'.words x = k.words x

namespace Kernel
variable {k k' : Kernel} {t r info usInfo entry size proc ksize usize : ℕ}

theorem addThread_words (k : Kernel) (t : ℕ) (x : Thread) : (k.addThread t x).words = k.words := by
  unfold addThread enqueueThread
  split_ifs <;> rfl

theorem kernelAllocStack_words (k : Kernel) (info size : ℕ) : (k.kernelAllocStack info size).2.words = k.words := by
  unfold kernelAllocStack
  split_ifs <;> rfl

/-- A frame below `top`, in the `room` bytes of a stack. -/
theorem pushFrame_new (k₁ : Kernel) (space ret ss cs entry : ℕ) {top room : ℕ} {own : Set (ℕ × ℕ)}
    (htop : top < 2 ^ 64) (hroom : 4096 ≤ room) (hfit : room ≤ top)
    (hspace : ∀ v, top - room ≤ v → cell k₁.cr3 v = cell space v)
    (hown : cell space '' Set.Ico (top - room) top ⊆ own) :
    let q := k₁.pushFrame top ret ss cs entry
    q.1 + 168 ≤ 2 ^ 64 ∧ q.1 % 16 = 8 ∧ q.2.StackHas space q.1 ((Context.fabricated entry ret cs ss).words q.1) ∧
      (∀ i < 21, Inside own (cell space (q.1 + 8 * i))) ∧
      ∀ x, (∀ i < 21, x ≠ cell space (q.1 + 8 * i)) → q.2.words x = k₁.words x := by
  obtain ⟨l, hlen, hrev, hpushed⟩ := @pushFrame_spec k₁ top ret ss cs entry htop (by omega)
  dsimp only
  generalize k₁.pushFrame top ret ss cs entry = q at hrev hpushed
  have hsp := hpushed.length
  rw [hlen] at hsp
  have hcell : ∀ i < 21, cell k₁.cr3 (q.1 + 8 * i) = cell space (q.1 + 8 * i) := fun i hi => hspace _ (by omega)
  refine ⟨by omega, by omega, fun i v hv => ?_, fun i hi => inside_of_range hown (by omega) (by omega) (by omega),
    fun x hx => hpushed.frame x fun i hi => ?_⟩
  · have hi : i < 21 := by
      obtain ⟨hi, -⟩ := List.getElem?_eq_some_iff.mp hv
      rwa [← hrev, List.length_reverse, hlen] at hi
    rw [← hcell i hi]
    rw [← hrev] at hv
    exact hpushed.has i v hv
  · rw [hlen] at hi
    rw [hcell i hi]
    exact hx i hi

theorem createThread_newFrame (img : Image) (h0 : (k.createThread img t info entry size).1 ≠ 0)
    (hroom : ((k.createThread img t info entry size).2.threads t).Roomy) :
    k.NewFrame (k.createThread img t info entry size).2 t (.fabricated entry img.threadExit 0x08 0x10) := by
  unfold createThread at h0 hroom ⊢
  dsimp only at h0 hroom ⊢
  split_ifs at h0 hroom ⊢ with h1 h2
  · exact absurd rfl h0
  · exact absurd rfl h0
  obtain ⟨bottom, hbottom⟩ : ∃ bottom, bottom = (k.kernelAllocStack info size).1 := ⟨_, rfl⟩
  obtain ⟨k₁, hk₁⟩ : ∃ k₁, k₁ = (k.kernelAllocStack info size).2 := ⟨_, rfl⟩
  have hwords : k₁.words = k.words := by rw [hk₁, kernelAllocStack_words]
  rw [← hbottom, ← hk₁] at hroom ⊢
  obtain ⟨q, hq⟩ : ∃ q, q = k₁.pushFrame ((bottom + size) % 2 ^ 64) img.threadExit 0x10 0x08 entry := ⟨_, rfl⟩
  rw [← hq] at hroom ⊢
  obtain ⟨k', hk'⟩ : ∃ k', k' = q.2.addThread t (newThread q.1 q.2.nextThreadId 0
      ⟨(bottom + size) % 2 ^ 64, bottom, size⟩ ⟨0, 0, 0⟩ 0 0) := ⟨_, rfl⟩
  have hT := addThread_sans q.2 t (newThread q.1 q.2.nextThreadId 0 ⟨(bottom + size) % 2 ^ 64, bottom, size⟩
    ⟨0, 0, 0⟩ 0 0) t
  have hk'words : k'.words = q.2.words := by rw [hk', addThread_words]
  rw [← hk'] at hroom hT ⊢
  rw [if_pos rfl] at hT
  have hrsp : (k'.threads t).rsp = q.1 := congrArg (·.rsp) hT
  have hstack : (k'.threads t).kernelStack = ⟨(bottom + size) % 2 ^ 64, bottom, size⟩ := congrArg (·.kernelStack) hT
  obtain ⟨hsize, hhigh, hend⟩ := hroom.kernel
  rw [hstack] at hsize hhigh hend
  dsimp only at hsize hhigh hend
  have htop : (bottom + size) % 2 ^ 64 = bottom + size := Nat.mod_eq_of_lt hend
  have hown : cell (k'.space t) '' Set.Ico (bottom + size - size) (bottom + size) ⊆ k'.stackBytes t := by
    rw [Nat.add_sub_cancel]
    unfold stackBytes
    dsimp only
    rw [hstack]
    exact Set.subset_union_left
  have hframe := k₁.pushFrame_new (k'.space t) img.threadExit 0x10 0x08 entry hend hsize (Nat.le_add_left ..)
    (fun v hv => cell_upper (by omega) _ _) hown
  rw [← htop, ← hq] at hframe
  obtain ⟨hfits, haligned, hhas, hinside, hframe⟩ := hframe
  refine ⟨⟨_, _, _, _, rfl⟩, by rw [hrsp]; exact hfits, by rw [hrsp]; exact haligned, ?_,
    by rw [hrsp]; exact hinside, ?_⟩
  · rw [hrsp]
    unfold StackHas
    rw [hk'words]
    exact hhas
  · rw [hrsp, hk'words, ← hwords]
    exact hframe

theorem createUserThread_newFrame (h : k.createUserThread proc t info usInfo entry ksize usize = some (r, k'))
    (h0 : r ≠ 0) (hproc : proc ≠ 0) (hroom : (k'.threads t).Roomy) :
    k.NewFrame k' t (.fabricated entry 0x300000 0x23 0x1B) := by
  obtain ⟨-, kmem, k₁, umem, k₂, rsp, k₃, halloc, -, huser, hpush, hk'⟩ := createUserThread_made h h0
  have hwords₁ : k₁.words = k.words := by
    have := k.kernelAllocStack_words info ksize
    rwa [halloc] at this
  have hwith := userAllocStack_with huser
  have hwords₂ : k₂.words = k₁.words := congrArg (·.words) hwith
  have hcr3 : k₂.cr3 = (k₁.processes proc).pml4 := congrArg (·.cr3) hwith
  have hprocs : k₂.processes = k₁.processes := congrArg (·.processes) hwith
  have hframed : k₂.SameSpace k₃ := by
    have := pushFrame_space k₂ umem 0x300000 0x1B 0x23 entry
    rwa [hpush] at this
  have hlt := userAllocStack_lt huser
  have hT := addThread_sans { k₃.setProcess proc fun p => { p with ustacksInfos := k₃.usListHead } with
    usListHead := k₁.usListHead, cr3 := k₁.cr3 } t (newThread rsp k₃.nextThreadId proc
      ⟨(kmem + ksize) % 2 ^ 64, kmem, ksize⟩ ⟨(umem + usize) % 2 ^ 64, umem, usize⟩ (sub64 umem pageSize4KB) umem) t
  have hk'words : k'.words = k₃.words := by rw [hk', addThread_words]; rfl
  rw [← hk', if_pos rfl] at hT
  have hrsp : (k'.threads t).rsp = rsp := congrArg (·.rsp) hT
  have hstack : (k'.threads t).userStack = ⟨(umem + usize) % 2 ^ 64, umem, usize⟩ := congrArg (·.userStack) hT
  have hprocess : (k'.threads t).process = proc := congrArg (·.process) hT
  have hspace : k'.space t = k₂.cr3 := by
    have hprocs' := (addThread_homes { k₃.setProcess proc fun p => { p with ustacksInfos := k₃.usListHead } with
      usListHead := k₁.usListHead, cr3 := k₁.cr3 } t (newThread rsp k₃.nextThreadId proc
        ⟨(kmem + ksize) % 2 ^ 64, kmem, ksize⟩ ⟨(umem + usize) % 2 ^ 64, umem, usize⟩ (sub64 umem pageSize4KB)
          umem)).1.processes
    rw [← hk'] at hprocs'
    unfold space
    rw [hprocess, hprocs', hcr3, ← hprocs, ← hframed.processes]
    simp [setProcess]
  obtain ⟨hsize, hfit⟩ := hroom.user (hprocess ▸ hproc)
  rw [hstack] at hsize hfit
  dsimp only at hsize hfit
  have hown : cell (k'.space t) '' Set.Ico (umem - usize) umem ⊆ k'.stackBytes t := by
    unfold stackBytes
    dsimp only
    rw [hstack]
    exact Set.subset_union_right
  have hframe := k₂.pushFrame_new (k'.space t) 0x300000 0x1B 0x23 entry hlt hsize hfit (fun v _ => by rw [hspace])
    hown
  rw [hpush] at hframe
  obtain ⟨hfits, haligned, hhas, hinside, hframe⟩ := hframe
  refine ⟨⟨_, _, _, _, rfl⟩, by rw [hrsp]; exact hfits, by rw [hrsp]; exact haligned, ?_,
    by rw [hrsp]; exact hinside, ?_⟩
  · rw [hrsp]
    unfold StackHas
    rw [hk'words]
    exact hhas
  · rw [hrsp, hk'words, ← hwords₁, ← hwords₂]
    exact hframe

/-- What the creation of the thread `t` does apart from its frame. -/
structure Makes (k k' : Kernel) (t : ℕ) : Prop where
  added : ∃ k₁ x, k.SameSched k₁ ∧ x.state = .ready ∧ k' = k₁.addThread t x
  cr3 : k'.cr3 = k.cr3 ∧ k'.rsp0 = k.rsp0
  pml4 : ∀ q, (k'.processes q).pml4 = (k.processes q).pml4
  top : (k'.threads t).kernelStack.top =
    ((k'.threads t).kernelStack.bottom + (k'.threads t).kernelStack.size) % 2 ^ 64

/-- A creation that fails leaves the words and the space alone. -/
structure Fails (k k' : Kernel) : Prop where
  sched : k.SameSched k'
  space : k.SameSpace k'
  words : k'.words = k.words

theorem kernelAllocStack_fails (k : Kernel) (info size : ℕ) : k.Fails (k.kernelAllocStack info size).2 :=
  ⟨k.kernelAllocStack_same info size, k.kernelAllocStack_space info size, k.kernelAllocStack_words info size⟩

theorem Fails.refl (k : Kernel) : k.Fails k := ⟨.refl k, .refl k, rfl⟩

theorem createThread_makes (img : Image) (k : Kernel) (t info entry size : ℕ) :
    (k.createThread img t info entry size).1 = 0 ∧ k.Fails (k.createThread img t info entry size).2 ∨
      (k.createThread img t info entry size).1 = t ∧ t ≠ 0 ∧ k.Makes (k.createThread img t info entry size).2 t ∧
        ((k.createThread img t info entry size).2.threads t).process = 0 ∧
        ((k.createThread img t info entry size).2.threads t).userStack = ⟨0, 0, 0⟩ := by
  have hadd := k.createThread_adds img t info entry size
  have hspace := (k.createThread_homes img t info entry size).1
  unfold createThread at hadd hspace ⊢
  dsimp only at hadd hspace ⊢
  split_ifs at hadd hspace ⊢ with h1 h2
  · exact .inl ⟨rfl, .refl k⟩
  · exact .inl ⟨rfl, k.kernelAllocStack_fails info size⟩
  refine .inr ⟨rfl, h1, ?_⟩
  generalize (k.kernelAllocStack info size).2.pushFrame (((k.kernelAllocStack info size).1 + size) % 2 ^ 64)
    img.threadExit 0x10 0x08 entry = q at hadd hspace ⊢
  have hT := addThread_sans q.2 t (newThread q.1 q.2.nextThreadId 0
    ⟨((k.kernelAllocStack info size).1 + size) % 2 ^ 64, (k.kernelAllocStack info size).1, size⟩ ⟨0, 0, 0⟩ 0 0) t
  rw [if_pos rfl] at hT
  rcases hadd with ⟨h0, -⟩ | ⟨-, -, k₁, x, hs, hx, -, heq⟩
  · exact absurd h0 h1
  refine ⟨⟨⟨k₁, x, hs, hx, heq⟩, ⟨hspace.cr3, hspace.rsp0⟩, fun p => by rw [hspace.processes], ?_⟩,
    congrArg (·.process) hT, congrArg (·.userStack) hT⟩
  have hstack := congrArg (·.kernelStack) hT
  change (_ : StackBounds) = _ at hstack
  exact (congrArg (·.top) hstack).trans (congrArg (fun b : StackBounds => (b.bottom + b.size) % 2 ^ 64) hstack).symm

theorem createUserThread_makes (h : k.createUserThread proc t info usInfo entry ksize usize = some (r, k')) :
    r = 0 ∧ k.Fails k' ∨ r = t ∧ t ≠ 0 ∧ k.Makes k' t ∧ (k'.threads t).process = proc := by
  by_cases h0 : r = 0
  · refine .inl ⟨h0, ?_⟩
    unfold createUserThread at h
    dsimp only at h
    split_ifs at h with h1 h2
    · obtain ⟨-, rfl⟩ := Prod.mk.inj (Option.some.inj h)
      exact .refl k
    · obtain ⟨-, rfl⟩ := Prod.mk.inj (Option.some.inj h)
      exact k.kernelAllocStack_fails info ksize
    · obtain ⟨_, -, heq⟩ := Option.bind_eq_some_iff.mp h
      split_ifs at heq
      exact absurd ((Prod.mk.inj (Option.some.inj heq)).1.trans h0) h1
  · rcases createUserThread_adds h with ⟨hr, -⟩ | ⟨hr, ht, k₀, x, hs, hx, -, heq⟩
    · exact absurd hr h0
    obtain ⟨-, kmem, k₁, umem, k₂, rsp, k₃, halloc, -, huser, hpush, hk'⟩ := createUserThread_made h h0
    have hspace₁ : k.SameSpace k₁ := by
      have := k.kernelAllocStack_space info ksize
      rwa [halloc] at this
    have hwith := userAllocStack_with huser
    have hprocs : k₂.processes = k₁.processes := congrArg (·.processes) hwith
    have hrsp0 : k₂.rsp0 = k₁.rsp0 := congrArg (·.rsp0) hwith
    have hspace₃ : k₂.SameSpace k₃ := by
      have := pushFrame_space k₂ umem 0x300000 0x1B 0x23 entry
      rwa [hpush] at this
    obtain ⟨k₄, hk₄⟩ : ∃ k₄, k₄ = { k₃.setProcess proc fun p => { p with ustacksInfos := k₃.usListHead } with
      usListHead := k₁.usListHead, cr3 := k₁.cr3 } := ⟨_, rfl⟩
    rw [← hk₄] at hk'
    have hT := addThread_sans k₄ t (newThread rsp k₃.nextThreadId proc ⟨(kmem + ksize) % 2 ^ 64, kmem, ksize⟩
      ⟨(umem + usize) % 2 ^ 64, umem, usize⟩ (sub64 umem pageSize4KB) umem) t
    have hspace' := (addThread_homes k₄ t (newThread rsp k₃.nextThreadId proc ⟨(kmem + ksize) % 2 ^ 64, kmem, ksize⟩
      ⟨(umem + usize) % 2 ^ 64, umem, usize⟩ (sub64 umem pageSize4KB) umem)).1
    rw [← hk', if_pos rfl] at hT
    rw [← hk'] at hspace'
    refine .inr ⟨hr, ht, ⟨⟨k₀, x, hs, hx, heq⟩, ⟨?_, ?_⟩, fun q => ?_, ?_⟩, congrArg (·.process) hT⟩
    · rw [hspace'.cr3, hk₄, ← hspace₁.cr3]
    · rw [hspace'.rsp0, hk₄, ← hspace₁.rsp0, ← hrsp0, ← hspace₃.rsp0]
      rfl
    · rw [hspace'.processes, hk₄, ← hspace₁.processes, ← hprocs, ← hspace₃.processes]
      simp only [setProcess, Function.update_apply]
      split_ifs with hq
      · rw [hq]
      · rfl
    · have hstack := congrArg (·.kernelStack) hT
      change (_ : StackBounds) = _ at hstack
      exact (congrArg (·.top) hstack).trans
        (congrArg (fun b : StackBounds => (b.bottom + b.size) % 2 ^ 64) hstack).symm

end Kernel

/-! ## What a run keeps -/

/-- The words that the thread goes on with lie at its saved stack pointer, inside its stacks. -/
structure Machine.Kept (m : Machine) (t : ℕ) : Prop where
  fits : (m.kernel.threads t).rsp + 8 * ((m.context t).words (m.kernel.threads t).rsp).length ≤ 2 ^ 64
  has : m.kernel.StackHas (m.kernel.space t) (m.kernel.threads t).rsp ((m.context t).words (m.kernel.threads t).rsp)
  inside : ∀ i < ((m.context t).words (m.kernel.threads t).rsp).length,
    Inside (m.own t) (cell (m.kernel.space t) ((m.kernel.threads t).rsp + 8 * i))
  aligned : ∀ e ret cs ss, m.context t = .fabricated e ret cs ss → (m.kernel.threads t).rsp % 16 = 8

/-- The kernel stack of a thread with a process, below which the interrupts out of ring 3 push. -/
structure Machine.HasKernelStack (m : Machine) (t : ℕ) : Prop where
  sub : cell (m.kernel.space t) '' Set.Ico (m.kernel.threads t).kernelStack.bottom
    ((m.kernel.threads t).kernelStack.bottom + (m.kernel.threads t).kernelStack.size) ⊆ m.own t
  roomy : (m.kernel.threads t).Roomy
  top : (m.kernel.threads t).kernelStack.top =
    (m.kernel.threads t).kernelStack.bottom + (m.kernel.threads t).kernelStack.size

/-- The ring has live threads, whose stacks are apart; the current one has its address space and its ring-0 stack, and
the words of the others are kept. -/
structure Machine.Saved (m : Machine) (rest : List ℕ) : Prop where
  ring : m.kernel.ReadyRing m.kernel.currentThread rest
  live : ∀ t ∈ m.kernel.currentThread :: rest, t ∈ m.trace.live
  apart : ∀ t ∈ m.trace.live, ∀ u ∈ m.trace.live, t ≠ u → Disjoint (m.own t) (m.own u)
  space : (m.kernel.threads m.kernel.currentThread).process ≠ 0 →
    m.kernel.cr3 = m.kernel.space m.kernel.currentThread ∧
      m.kernel.rsp0 = (m.kernel.threads m.kernel.currentThread).kernelStack.top
  upper : ∀ t ∈ m.trace.live, (m.kernel.threads t).process = 0 → ∀ x ∈ m.own t, 2 ^ 47 ≤ x.2
  kernelStack : ∀ t ∈ m.trace.live, (m.kernel.threads t).process ≠ 0 → m.HasKernelStack t
  kept : ∀ t ∈ rest, m.Kept t

section Steps
variable {img : Image} {m m' : Machine} {rest rest' : List ℕ} {t : ℕ}

/-- The thread has its home, and the words of its stacks are as before. -/
structure Machine.SameFor (m m' : Machine) (t : ℕ) : Prop where
  own : m'.own t = m.own t
  home : (m'.kernel.threads t).home = (m.kernel.threads t).home
  space : m'.kernel.space t = m.kernel.space t

theorem Machine.Kept.same (h : m.Kept t) (hs : m.SameFor m' t) (hctx : m'.context t = m.context t)
    (hrsp : (m'.kernel.threads t).rsp = (m.kernel.threads t).rsp)
    (hwords : ∀ x, Inside (m.own t) x → m'.kernel.words x = m.kernel.words x) : m'.Kept t := by
  obtain ⟨hown, -, hspace⟩ := hs
  refine ⟨?_, fun i v hv => ?_, ?_, ?_⟩
  · rw [hctx, hrsp]
    exact h.fits
  · rw [hctx, hrsp] at hv
    rw [hrsp, hspace, hwords _ (h.inside i (List.getElem?_eq_some_iff.mp hv).1)]
    exact h.has i v hv
  · rw [hctx, hrsp, hown, hspace]
    exact h.inside
  · rw [hctx, hrsp]
    exact h.aligned

theorem Machine.HasKernelStack.same (h : m.HasKernelStack t) (hs : m.SameFor m' t) : m'.HasKernelStack t := by
  obtain ⟨hown, hhome, hspace⟩ := hs
  have hk : (m'.kernel.threads t).kernelStack = (m.kernel.threads t).kernelStack := congrArg Home.kernelStack hhome
  have hu : (m'.kernel.threads t).userStack = (m.kernel.threads t).userStack := congrArg Home.userStack hhome
  have hp : (m'.kernel.threads t).process = (m.kernel.threads t).process := congrArg Home.process hhome
  refine ⟨?_, ⟨?_, ?_⟩, ?_⟩
  · rw [hk, hown, hspace]
    exact h.sub
  · rw [hk]
    exact h.roomy.kernel
  · rw [hp, hu]
    exact h.roomy.user
  · rw [hk]
    exact h.top

/-- A step that makes no thread: what is left to show is the ring, the space of the current thread and the words. -/
theorem Machine.Saved.moved (h : m.Saved rest) (hlive : m'.trace.live = m.trace.live)
    (hs : ∀ t ∈ m.trace.live, m.SameFor m' t) (hring : m'.kernel.ReadyRing m'.kernel.currentThread rest')
    (hmem : ∀ t ∈ m'.kernel.currentThread :: rest', t ∈ m.trace.live)
    (hspace : (m'.kernel.threads m'.kernel.currentThread).process ≠ 0 →
      m'.kernel.cr3 = m'.kernel.space m'.kernel.currentThread ∧
        m'.kernel.rsp0 = (m'.kernel.threads m'.kernel.currentThread).kernelStack.top)
    (hkept : ∀ t ∈ rest', m'.Kept t) : m'.Saved rest' := by
  have hproc : ∀ t ∈ m.trace.live, (m'.kernel.threads t).process = (m.kernel.threads t).process := fun t ht =>
    congrArg Home.process (hs t ht).home
  refine ⟨hring, fun t ht => hlive ▸ hmem t ht, fun t ht u hu => ?_, hspace, fun t ht => ?_, fun t ht hp => ?_, hkept⟩
  · rw [hlive] at ht hu
    rw [(hs t ht).own, (hs u hu).own]
    exact h.apart t ht u hu
  · rw [hlive] at ht
    rw [hproc t ht, (hs t ht).own]
    exact h.upper t ht
  · rw [hlive] at ht
    rw [hproc t ht] at hp
    exact (h.kernelStack t ht hp).same (hs t ht)

/-- A step that neither makes a thread nor switches. -/
theorem Machine.Saved.quiet (h : m.Saved rest) (hlive : m'.trace.live = m.trace.live)
    (hs : ∀ t ∈ m.trace.live, m.SameFor m' t) (hctx : ∀ t ∈ m.trace.live, m'.context t = m.context t)
    (hring : m'.kernel.ReadyRing m.kernel.currentThread rest)
    (hcr3 : m'.kernel.cr3 = m.kernel.cr3 ∧ m'.kernel.rsp0 = m.kernel.rsp0)
    (hrsp : ∀ t, (m'.kernel.threads t).rsp = (m.kernel.threads t).rsp)
    (hwords : ∀ t ∈ rest, ∀ x, Inside (m.own t) x → m'.kernel.words x = m.kernel.words x) : m'.Saved rest := by
  have hcur : m'.kernel.currentThread = m.kernel.currentThread := hring.current
  have hmem : m.kernel.currentThread ∈ m.trace.live := h.live _ List.mem_cons_self
  refine h.moved hlive hs (hcur.symm ▸ hring) (fun t ht => h.live t (hcur ▸ ht)) ?_ fun t ht => ?_
  · have hp : (m'.kernel.threads m.kernel.currentThread).process = _ := congrArg Home.process (hs _ hmem).home
    have hst : (m'.kernel.threads m.kernel.currentThread).kernelStack = _ :=
      congrArg Home.kernelStack (hs _ hmem).home
    rw [hcur, hcr3.1, hcr3.2, (hs _ hmem).space, hp, hst]
    exact h.space
  · have hlt := h.live t (List.mem_cons_of_mem _ ht)
    exact (h.kept t ht).same (hs t hlt) (hctx t hlt) (hrsp t) (hwords t ht)

/-- The thread of the processor works on its own stacks. -/
theorem Machine.Saved.work (h : m.Saved rest) (w : ℕ × ℕ → ℕ) (vm : Vm FrameSource) (regions : List VmInfo)
    (r : Registers) (hw : ∀ x, ¬Touches (m.own m.kernel.currentThread) x → w x = m.kernel.words x) :
    (m.worked w vm regions r).Saved rest := by
  refine h.quiet rfl (fun t _ => ⟨rfl, rfl, rfl⟩) (fun _ _ => rfl)
    ⟨h.ring.ring, h.ring.current, h.ring.head, h.ring.null, h.ring.ready⟩
    ⟨rfl, rfl⟩ (fun _ => rfl) fun t ht x hx => hw x ?_
  have hne : m.kernel.currentThread ≠ t := fun he => h.ring.notMem (he ▸ ht)
  exact hx.not_touches
    (h.apart _ (h.live _ List.mem_cons_self) t (h.live t (List.mem_cons_of_mem _ ht)) hne)

theorem Machine.apart_forall (h : m.Apart) : ∀ t ∈ m.trace.live, ∀ u ∈ m.trace.live, t ≠ u →
    Disjoint (m.own t) (m.own u) := by
  have hsymm : Std.Symm fun t u => Disjoint (m.own t) (m.own u) := ⟨fun _ _ hd => hd.symm⟩
  intro t ht u hu
  exact List.Pairwise.forall h ht hu

variable {c : Call} {k : Kernel} {g : Trace}

/-- A call that makes no thread. -/
theorem Machine.Saved.calledQuiet (h : m.Saved rest) (hlive : g.live = m.trace.live)
    (hring : k.ReadyRing m.kernel.currentThread rest) (hcr3 : k.cr3 = m.kernel.cr3 ∧ k.rsp0 = m.kernel.rsp0)
    (hhome : ∀ t, (k.threads t).home = (m.kernel.threads t).home)
    (hspace : ∀ t ∈ m.trace.live, k.space t = m.kernel.space t)
    (hrsp : ∀ t, (k.threads t).rsp = (m.kernel.threads t).rsp) (hwords : k.words = m.kernel.words) :
    (m.called img c k g).Saved rest := by
  refine h.quiet hlive (fun t ht => ⟨if_pos ht, hhome t, hspace t ht⟩) (fun t ht => if_pos ht) hring hcr3 hrsp
    fun _ _ x _ => ?_
  exact congrFun hwords x

/-- A call that makes the thread `t`. -/
theorem Machine.Saved.calledNew (h : m.Saved rest) (ht : t ∉ m.trace.live) (h0 : t ≠ 0) (hmakes : m.kernel.Makes k t)
    (hframe : m.kernel.NewFrame k t (c.context img)) (hroom : (k.threads t).Roomy)
    (hupper : (k.threads t).process = 0 → ∀ x ∈ k.stackBytes t, 2 ^ 47 ≤ x.2)
    (hapart : (m.called img c k (m.trace.create t)).Apart) :
    ∃ rest', (m.called img c k (m.trace.create t)).Saved rest' := by
  obtain ⟨⟨k₁, x, hsched, hx, hk⟩, hcr3, hpml4, htop⟩ := hmakes
  rw [Nat.mod_eq_of_lt hroom.kernel.2.2] at htop
  have hne : ∀ u ∈ m.trace.live, u ≠ t := fun u hu he => ht (he ▸ hu)
  have hsans : ∀ u, u ≠ t → (k.threads u).sansLinks = (m.kernel.threads u).sansLinks := fun u hu => by
    rw [hk, Kernel.addThread_sans, if_neg hu, hsched.threads]
  have hspace : ∀ u ∈ m.trace.live, k.space u = m.kernel.space u := fun u hu => by
    have hp : (k.threads u).process = (m.kernel.threads u).process := congrArg (·.process) (hsans u (hne u hu))
    unfold Kernel.space
    rw [hp, hpml4]
  have hsame : ∀ u ∈ m.trace.live, m.SameFor (m.called img c k (m.trace.create t)) u := fun u hu =>
    ⟨if_pos hu, congrArg (fun r => (⟨r.process, r.userStack, r.kernelStack⟩ : Home)) (hsans u (hne u hu)),
      hspace u hu⟩
  have hown : (m.called img c k (m.trace.create t)).own t = k.stackBytes t := if_neg ht
  have hctx : (m.called img c k (m.trace.create t)).context t = c.context img := if_neg ht
  have hout : t ∉ m.kernel.currentThread :: rest := fun hm => ht (h.live t hm)
  -- the ring with the new thread
  have hring₁ : Kernel.ReadyRing { k₁ with threads := Function.update k₁.threads t x
                                           nextThreadId := (k₁.nextThreadId + 1) % 2 ^ 64 }
      m.kernel.currentThread rest := by
    have hT : ∀ u ∈ m.kernel.currentThread :: rest, Function.update k₁.threads t x u = m.kernel.threads u := by
      intro u hu
      rw [Function.update_of_ne fun he : u = t => hout (he ▸ hu), hsched.threads]
    refine h.ring.congr hsched.current hsched.ready (fun u hu => ?_) fun u hu => ?_
    · exact ⟨congrArg (·.next) (hT u hu), congrArg (·.prev) (hT u hu)⟩
    · exact congrArg (·.state) (hT u (List.mem_cons_of_mem _ hu))
  obtain ⟨X, Y, hXY, -, -, hring, -⟩ := hring₁.enqueue hout h0 (by
    dsimp only
    rw [Function.update_self]
    exact hx)
  change (k₁.addThread t x).ReadyRing _ _ at hring
  rw [← hk] at hring
  have hcur : k.currentThread = m.kernel.currentThread := hring.current
  have hmem : ∀ u ∈ X ++ t :: Y, u = t ∨ u ∈ rest := by
    intro u hu
    rw [hXY]
    simp only [List.mem_cons, List.mem_append] at hu ⊢
    tauto
  have hapart' := Machine.apart_forall hapart
  have hcurLive : m.kernel.currentThread ∈ m.trace.live := h.live _ List.mem_cons_self
  refine ⟨X ++ t :: Y, hcur.symm ▸ hring, fun u hu => ?_, hapart', ?_, fun u hu => ?_, fun u hu hp => ?_,
    fun u hu => ?_⟩
  · change u ∈ k.currentThread :: (X ++ t :: Y) at hu
    change u ∈ t :: m.trace.live
    rw [hcur] at hu
    rcases List.mem_cons.mp hu with rfl | hu
    · exact List.mem_cons_of_mem _ hcurLive
    · rcases hmem u hu with rfl | hu
      · exact List.mem_cons_self
      · exact List.mem_cons_of_mem _ (h.live u (List.mem_cons_of_mem _ hu))
  · change (k.threads k.currentThread).process ≠ 0 → k.cr3 = k.space k.currentThread ∧
      k.rsp0 = (k.threads k.currentThread).kernelStack.top
    have hs := hsame _ hcurLive
    have hp : (k.threads m.kernel.currentThread).process = _ := congrArg Home.process hs.home
    have hst : (k.threads m.kernel.currentThread).kernelStack = _ := congrArg Home.kernelStack hs.home
    rw [hcur, hcr3.1, hcr3.2, hspace _ hcurLive, hp, hst]
    exact h.space
  · rcases List.mem_cons.mp hu with rfl | hu
    · rw [hown]
      exact hupper
    · have hs := hsame u hu
      have hp : ((m.called img c k (m.trace.create t)).kernel.threads u).process = _ := congrArg Home.process hs.home
      rw [hp, hs.own]
      exact h.upper u hu
  · rcases List.mem_cons.mp hu with rfl | hu
    · refine ⟨?_, hroom, htop⟩
      rw [hown]
      exact Set.subset_union_left
    · have hs := hsame u hu
      have hpe : ((m.called img c k (m.trace.create t)).kernel.threads u).process = _ := congrArg Home.process hs.home
      rw [hpe] at hp
      exact (h.kernelStack u hu hp).same hs
  · by_cases hut : u = t
    · subst hut
      obtain ⟨⟨e, ret, cs, ss, hctx'⟩, hfits, haligned, hhas, hinside, -⟩ := hframe
      have hlen : ((c.context img).words (k.threads u).rsp).length = 21 := by
        rw [hctx']
        rfl
      refine ⟨?_, ?_, ?_, fun _ _ _ _ _ => haligned⟩
      · rw [hctx]
        change (k.threads u).rsp + 8 * ((c.context img).words (k.threads u).rsp).length ≤ _
        rw [hlen]
        exact hfits
      · rw [hctx]
        exact hhas
      · rw [hctx, hown]
        change ∀ i < ((c.context img).words (k.threads u).rsp).length, _
        rw [hlen]
        exact hinside
    · have hur := (hmem u hu).resolve_left hut
      have hul := h.live u (List.mem_cons_of_mem _ hur)
      refine (h.kept u hur).same (hsame u hul) (if_pos hul) (congrArg (·.rsp) (hsans u hut)) fun x hx =>
        hframe.frame x fun i hi he => ?_
      have hdisjoint := hapart' u (List.mem_cons_of_mem _ hul) t List.mem_cons_self hut
      rw [hown, (hsame u hul).own] at hdisjoint
      have hboth := hframe.inside i hi
      rw [← he] at hboth
      exact Set.disjoint_left.mp hdisjoint (hx 0 (by decide)) (hboth 0 (by decide))

theorem Kernel.ReadyRing.same {k k' : Kernel} {c : ℕ} (h : k.ReadyRing c rest) (hs : k.SameSched k') :
    k'.ReadyRing c rest := by
  refine h.congr hs.current hs.ready (fun t _ => ?_) fun t _ => by rw [hs.threads]
  unfold nextOf prevOf
  rw [hs.threads]
  exact ⟨rfl, rfl⟩

theorem Kernel.createUserProcess_rest (k : Kernel) (p : ℕ) : (k.createUserProcess p).2.cr3 = k.cr3 ∧
    (k.createUserProcess p).2.rsp0 = k.rsp0 ∧ (k.createUserProcess p).2.words = k.words := by
  unfold createUserProcess
  dsimp only
  split_ifs <;> exact ⟨rfl, rfl, rfl⟩

/-- A thread that is woken is ready. -/
theorem Kernel.mutexUnlock_rest (k : Kernel) (mu : ℕ) : (k.mutexUnlock mu).currentThread = k.currentThread ∧
    (k.mutexUnlock mu).readyListHead = k.readyListHead ∧ (k.mutexUnlock mu).words = k.words ∧
      ∀ t, ((k.mutexUnlock mu).threads t).rsp = (k.threads t).rsp ∧
        nextOf (k.mutexUnlock mu).threads t = nextOf k.threads t ∧
        prevOf (k.mutexUnlock mu).threads t = prevOf k.threads t ∧
        (((k.mutexUnlock mu).threads t).state = .ready ∨
          ((k.mutexUnlock mu).threads t).state = (k.threads t).state) := by
  unfold mutexUnlock nextOf prevOf
  dsimp only
  split_ifs
  · exact ⟨rfl, rfl, rfl, fun t => ⟨rfl, rfl, rfl, .inr rfl⟩⟩
  all_goals
    refine ⟨rfl, rfl, rfl, fun t => ?_⟩
    simp only [setThread_threads, setMutex]
    split_ifs with ht
    · rw [ht]
      exact ⟨rfl, rfl, rfl, .inl rfl⟩
    · exact ⟨rfl, rfl, rfl, .inr rfl⟩

/-- A call that leaves the scheduler and the space alone. -/
theorem Machine.Saved.calledFails (h : m.Saved rest) (hlive : g.live = m.trace.live) (hf : m.kernel.Fails k) :
    (m.called img c k g).Saved rest := by
  obtain ⟨hsched, hspace, hwords⟩ := hf
  refine h.calledQuiet hlive ?_ ⟨hspace.cr3, hspace.rsp0⟩ (fun t => by rw [hsched.threads]) (fun t _ => ?_)
    (fun t => by rw [hsched.threads]) hwords
  · exact h.ring.same hsched
  · unfold Kernel.space
    rw [hsched.threads, hspace.processes]

theorem Kernel.stackBytes_upper {k : Kernel} (hroom : (k.threads t).Roomy)
    (hu : (k.threads t).userStack = ⟨0, 0, 0⟩) :
    ∀ x ∈ k.stackBytes t, 2 ^ 47 ≤ x.2 := by
  rintro x (⟨v, ⟨hv, -⟩, rfl⟩ | ⟨v, hv, rfl⟩)
  · exact hroom.kernel.2.1.trans hv
  · rw [hu] at hv
    exact absurd hv.2 (Nat.not_lt_zero v)

/-- A call that does not enter `scheduler_handler`. -/
theorem Machine.Saved.call (h : m.Saved rest) (hentry : c.handlerEntry m.kernel = none)
    (hc : c.Proper m.kernel m.trace) (hok : c.Keeping m.kernel m.trace)
    (hrun : c.run img m.kernel m.trace = some (k, g))
    (hroom : ∀ t ∈ g.live, t ∉ m.trace.live → (k.threads t).Roomy) (hapart : (m.called img c k g).Apart) :
    ∃ rest', (m.called img c k g).Saved rest' := by
  cases c with
  | createThread t info entry size =>
    have hrun' : some ((m.kernel.createThread img t info entry size).2,
        m.trace.record (m.kernel.createThread img t info entry size).1) = some (k, g) := hrun
    obtain ⟨rfl, rfl⟩ := Prod.mk.inj (Option.some.inj hrun')
    rcases m.kernel.createThread_makes img t info entry size with ⟨hr, hf⟩ | ⟨hr, h0, hmakes, -, huser⟩
    · exact ⟨rest, h.calledFails (by rw [Trace.record, if_pos hr]) hf⟩
    · have hrec : m.trace.record (m.kernel.createThread img t info entry size).1 = m.trace.create t := by
        rw [hr, Trace.record, if_neg h0]
      rw [hrec] at hroom hapart ⊢
      have hroomt := hroom t List.mem_cons_self hc
      exact h.calledNew hc h0 hmakes (Kernel.createThread_newFrame img (by rw [hr]; exact h0) hroomt) hroomt
        (fun _ => Kernel.stackBytes_upper hroomt huser) hapart
  | createUserThread proc t info usInfo entry ksize usize =>
    obtain ⟨⟨r, k₁⟩, hcall, heq⟩ := Option.map_eq_some_iff.mp hrun
    obtain ⟨rfl, rfl⟩ := Prod.mk.inj heq
    rcases Kernel.createUserThread_makes hcall with ⟨hr, hf⟩ | ⟨rfl, h0, hmakes, hproc⟩
    · exact ⟨rest, h.calledFails (by rw [Trace.record, if_pos hr]) hf⟩
    · have hrec : m.trace.record r = m.trace.create r := by rw [Trace.record, if_neg h0]
      rw [hrec] at hroom hapart ⊢
      have hroomt := hroom r List.mem_cons_self hc
      exact h.calledNew hc h0 hmakes (Kernel.createUserThread_newFrame hcall h0 hok hroomt) hroomt
        (fun hp => absurd (hproc ▸ hp) hok) hapart
  | createUserProcess p =>
    have hrun' : some ((m.kernel.createUserProcess p).2, m.trace) = some (k, g) := hrun
    obtain ⟨rfl, rfl⟩ := Prod.mk.inj (Option.some.inj hrun')
    have hsched := m.kernel.createUserProcess_same p
    obtain ⟨hcr3, hrsp0, hwords⟩ := m.kernel.createUserProcess_rest p
    have hring := h.ring.same hsched
    refine ⟨rest, h.calledQuiet rfl hring ⟨hcr3, hrsp0⟩ (fun t => by rw [hsched.threads]) (fun t ht => ?_)
      (fun t => by rw [hsched.threads]) hwords⟩
    unfold Kernel.space
    rw [hsched.threads]
    rcases (m.kernel.createUserProcess_cases p).2 with ⟨-, hp⟩ | ⟨-, -, pml4, pid, hp⟩
    · rw [hp]
    · rw [hp, Function.update_of_ne (hok t ht)]
  | tick rsp => exact absurd hentry (Option.some_ne_none _)
  | exit rsp => exact absurd hentry (Option.some_ne_none _)
  | lock mu rsp =>
    have hfree : (m.kernel.mutexes mu).locked = 0 := by
      by_contra hl
      rw [Call.handlerEntry, if_neg hl] at hentry
      exact Option.some_ne_none _ hentry
    have hlock : m.kernel.mutexLock mu rsp = some (rsp, m.kernel.setMutex mu fun x => { x with locked := 1 }) := by
      rw [Kernel.mutexLock, Kernel.lockSection, if_pos hfree]
    rw [Call.run, hlock] at hrun
    obtain ⟨rfl, rfl⟩ := Prod.mk.inj (Option.some.inj hrun)
    refine ⟨rest, h.calledQuiet ?_ (h.ring.congr rfl rfl (fun _ _ => ⟨rfl, rfl⟩) fun _ _ => rfl) ⟨rfl, rfl⟩
      (fun _ => rfl) (fun _ _ => rfl) (fun _ => rfl) rfl⟩
    rw [if_pos hfree]
    rfl
  | unlock mu =>
    have hrun' : some (m.kernel.mutexUnlock mu, m.trace.setOwner mu (m.kernel.mutexes mu).blockedHead) =
      some (k, g) := hrun
    obtain ⟨rfl, rfl⟩ := Prod.mk.inj (Option.some.inj hrun')
    obtain ⟨hspace, hhomes⟩ := m.kernel.mutexUnlock_homes mu
    obtain ⟨hcur, hready, hwords, hT⟩ := m.kernel.mutexUnlock_rest mu
    refine ⟨rest, h.calledQuiet rfl ?_ ⟨hspace.cr3, hspace.rsp0⟩ hhomes.home (fun t _ => ?_) (fun t => (hT t).1)
      hwords⟩
    · refine ⟨h.ring.ring.congr (fun t _ => (hT t).2.1) fun t _ => (hT t).2.2.1, hcur, hready ▸ h.ring.head,
        h.ring.null, fun t ht => ?_⟩
      rcases (hT t).2.2.2 with hs | hs
      · exact hs
      · exact hs.trans (h.ring.ready t ht)
    · unfold Kernel.space
      rw [hspace.processes]
      exact congrArg (fun x => (m.kernel.processes x).pml4) (congrArg Home.process (hhomes.home t))
  | takeDead =>
    have hrun' : some (m.kernel.takeDead.2,
      m.trace.setCleaning (m.trace.serial m.kernel.currentThread) m.kernel.takeDead.1) = some (k, g) := hrun
    obtain ⟨rfl, rfl⟩ := Prod.mk.inj (Option.some.inj hrun')
    exact ⟨rest, h.calledQuiet rfl (h.ring.congr rfl rfl (fun _ _ => ⟨rfl, rfl⟩) fun _ _ => rfl) ⟨rfl, rfl⟩
      (fun _ => rfl) (fun _ _ => rfl) (fun _ => rfl) rfl⟩
  | cleanupRound => exact absurd hok id

/-! ## Interrupts -/

/-- What the entry into `scheduler_handler` leaves. -/
structure Kernel.Entered (k k' : Kernel) : Prop where
  space : k.SameSpace k'
  home : ∀ t, (k'.threads t).home = (k.threads t).home
  rsp : ∀ t, (k'.threads t).rsp = (k.threads t).rsp
  words : k'.words = k.words

/-- The current thread leaves its state, and not the ring. -/
structure Kernel.StillLinked (k k' : Kernel) : Prop where
  current : k'.currentThread = k.currentThread
  head : k'.readyListHead = k.readyListHead
  words : k'.words = k.words
  links : ∀ t, nextOf k'.threads t = nextOf k.threads t ∧ prevOf k'.threads t = prevOf k.threads t
  rsp : ∀ t, (k'.threads t).rsp = (k.threads t).rsp
  state : ∀ t, t ≠ k.currentThread → (k'.threads t).state = (k.threads t).state

theorem Kernel.ReadyRing.stillLinked {k k' : Kernel} {c₀ : ℕ} (h : k.ReadyRing c₀ rest) (hs : k.StillLinked k') :
    k'.ReadyRing c₀ rest :=
  h.congr hs.current hs.head (fun t _ => hs.links t) fun t ht =>
    hs.state t fun he => h.notMem (h.current ▸ he ▸ ht)

theorem Kernel.markDead_linked (k : Kernel) : k.StillLinked k.markDead := by
  have hT : ∀ t, k.markDead.threads t = if t = k.currentThread then { k.threads k.currentThread with state := .dead }
      else k.threads t := fun t => setThread_threads ..
  refine ⟨rfl, rfl, rfl, fun t => ?_, fun t => ?_, fun t ht => ?_⟩
  · unfold nextOf prevOf
    rw [hT]
    split_ifs with ht
    · rw [ht]
      exact ⟨rfl, rfl⟩
    · exact ⟨rfl, rfl⟩
  · rw [hT]
    split_ifs with ht
    · rw [ht]
    · rfl
  · rw [hT, if_neg ht]

theorem Kernel.enqueueBlocked_linked (k : Kernel) (mu : ℕ) : k.StillLinked (k.enqueueBlocked mu) := by
  unfold enqueueBlocked
  dsimp only
  split_ifs
  all_goals
    refine ⟨rfl, rfl, rfl, fun t => ?_, fun t => ?_, fun t ht => ?_⟩
    · simp only [nextOf, prevOf, setMutex, setThread_threads]
      split_ifs <;> simp_all
    · simp only [setMutex, setThread_threads]
      split_ifs <;> simp_all
    · simp only [setMutex, setThread_threads]
      split_ifs <;> simp_all

theorem Call.handlerEntry_entered {c : Call} {k k' : Kernel} {sp c₀ : ℕ} (h : c.handlerEntry k = some (k', sp))
    (hring : k.ReadyRing c₀ rest) : k'.ReadyRing c₀ rest ∧ k.Entered k' := by
  cases c with
  | tick rsp =>
    obtain ⟨rfl, -⟩ := Prod.mk.inj (Option.some.inj h)
    exact ⟨hring, .refl k, fun _ => rfl, fun _ => rfl, rfl⟩
  | exit rsp =>
    obtain ⟨rfl, -⟩ := Prod.mk.inj (Option.some.inj h)
    have hlinked := k.markDead_linked
    obtain ⟨hspace, hhomes⟩ :=
      k.setThread_homes k.currentThread (f := fun r => { r with state := .dead }) fun _ => rfl
    exact ⟨hring.stillLinked hlinked, hspace, hhomes.home, hlinked.rsp, hlinked.words⟩
  | lock mu rsp =>
    rw [Call.handlerEntry] at h
    split_ifs at h
    obtain ⟨rfl, -⟩ := Prod.mk.inj (Option.some.inj h)
    have hlinked := k.enqueueBlocked_linked mu
    obtain ⟨hspace, hhomes⟩ := k.enqueueBlocked_homes mu
    exact ⟨hring.stillLinked hlinked, hspace, hhomes.home, hlinked.rsp, hlinked.words⟩
  | _ => exact absurd h.symm (Option.some_ne_none _)

/-- A handler keeps the thread, or it switches to one of the others. -/
theorem Kernel.ReadyRing.handler {k k' : Kernel} {sp r c₀ : ℕ} (h : k.ReadyRing c₀ rest)
    (hrun : k.schedulerHandler sp = some (r, k')) :
    rest = [] ∧ r = sp ∧ k' = k ∨
      ∃ u rest', u ∈ rest ∧ k.Switched sp c₀ u rest rest' k' ∧ r = (k.threads u).rsp ∧
        ∀ t ∈ rest', t ∈ rest ∨ t = c₀ ∧ ¬k.Leaves c₀ := by
  cases rest with
  | nil =>
    rw [schedulerHandler, if_pos (h.noOther_iff.mpr rfl)] at hrun
    obtain ⟨hr, hk⟩ := Prod.mk.inj (Option.some.inj hrun)
    exact .inl ⟨rfl, hr.symm, hk.symm⟩
  | cons b l =>
    right
    by_cases hl : k.Leaves c₀
    · obtain ⟨X, u, Y, hXY, -, hsw⟩ := h.handler_leave hl sp
      obtain ⟨hr, rfl⟩ := Prod.mk.inj (Option.some.inj (hrun.symm.trans hsw.result))
      refine ⟨u, Y ++ X, by rw [hXY]; simp, hsw, hr, fun t ht => .inl ?_⟩
      rw [hXY]
      simp only [List.mem_append, List.mem_cons] at ht ⊢
      tauto
    · have hsw := h.handler_tick hl sp
      obtain ⟨hr, rfl⟩ := Prod.mk.inj (Option.some.inj (hrun.symm.trans hsw.result))
      refine ⟨b, l ++ [c₀], List.mem_cons_self, hsw, hr, fun t ht => ?_⟩
      rcases List.mem_append.mp ht with ht | ht
      · exact .inl (List.mem_cons_of_mem _ ht)
      · exact .inr ⟨List.mem_singleton.mp ht, hl⟩

theorem Kernel.putAway_words (k : Kernel) (old sp : ℕ) : (k.putAway old sp).words = k.words := by
  unfold putAway
  cases (k.threads old).state with
  | dead =>
    unfold dequeueThread
    dsimp only
    split_ifs <;> rfl
  | blocked =>
    unfold dequeueThread
    dsimp only
    split_ifs <;> rfl
  | _ => rfl

/-- What a dispatch does to the space. -/
structure Kernel.Dispatched (k k' : Kernel) (u : ℕ) : Prop where
  words : k'.words = k.words
  home : ∀ t, (k'.threads t).home = (k.threads t).home
  pml4 : ∀ q, (k'.processes q).pml4 = (k.processes q).pml4
  rsp0 : k'.rsp0 = (k.threads u).kernelStack.top
  cr3 : (k.threads u).process ≠ 0 → k'.cr3 = k.space u

theorem Kernel.switchProcess_rest (k : Kernel) (old next : ℕ) :
    (k.switchProcess old next).words = k.words ∧
      (∀ q, ((k.switchProcess old next).processes q).pml4 = (k.processes q).pml4) ∧
      (((k.threads old).process ≠ 0 → k.cr3 = k.space old) → (k.threads next).process ≠ 0 →
        (k.switchProcess old next).cr3 = k.space next) := by
  unfold switchProcess
  dsimp only
  -- what is written back is a stack list
  obtain ⟨k₁, hk₁⟩ : ∃ k₁, k₁ = if (k.threads old).process = 0 then k else
      k.setProcess (k.threads old).process fun p => { p with ustacksInfos := k.usListHead } := ⟨_, rfl⟩
  have hwords : k₁.words = k.words := by
    rw [hk₁]
    split_ifs <;> rfl
  have hpml4 : ∀ q, (k₁.processes q).pml4 = (k.processes q).pml4 := fun q => by
    rw [hk₁]
    split_ifs
    · rfl
    · simp only [setProcess, Function.update_apply]
      split_ifs with hq
      · rw [hq]
      · rfl
  rw [← hk₁]
  split_ifs with h1 h2
  · refine ⟨rfl, fun _ => rfl, fun hold hnext => ?_⟩
    rw [hold (h1 ▸ hnext)]
    unfold space
    rw [h1]
  · exact ⟨hwords, hpml4, fun _ hnext => absurd h2 hnext⟩
  · exact ⟨hwords, hpml4, fun _ _ => hpml4 _⟩

theorem Kernel.dispatch_dispatched (k : Kernel) (old next : ℕ)
    (hold : (k.threads old).process ≠ 0 → k.cr3 = k.space old) :
    k.Dispatched (k.dispatch old next) next := by
  obtain ⟨k₁, hk₁⟩ : ∃ k₁, k₁ =
      { k.setThread next fun r => { r with state := .running } with currentThread := next } := ⟨_, rfl⟩
  have hhome : ∀ t, (k₁.threads t).home = (k.threads t).home := by
    rw [hk₁]
    exact (k.setThread_homes next (f := fun r => { r with state := .running }) fun _ => rfl).2.home
  have hspace : ∀ t, k₁.space t = k.space t := fun t => by
    have hp : (k₁.threads t).process = (k.threads t).process := congrArg Home.process (hhome t)
    have hprocs : k₁.processes = k.processes := by rw [hk₁]; rfl
    unfold space
    rw [hp, hprocs]
  have hproc : ∀ t, (k₁.threads t).process = (k.threads t).process := fun t => congrArg Home.process (hhome t)
  have hstack : (k₁.threads next).kernelStack = (k.threads next).kernelStack := congrArg Home.kernelStack (hhome next)
  obtain ⟨hwords, hpml4, hcr3⟩ := k₁.switchProcess_rest old next
  have hthreads := (switchProcess_fields k₁ old next).1
  have heq : k.dispatch old next = { k₁.switchProcess old next with
      rsp0 := ((k₁.switchProcess old next).threads next).kernelStack.top
      kernelRsp := ((k₁.switchProcess old next).threads next).kernelStack.top } := by
    rw [hk₁]
    rfl
  rw [heq]
  refine ⟨?_, fun t => ?_, fun q => ?_, ?_, fun hnext => ?_⟩
  · exact hwords.trans (by rw [hk₁]; rfl)
  · exact (congrArg (fun T => (T t).home) hthreads).trans (hhome t)
  · exact (hpml4 q).trans (by rw [hk₁]; rfl)
  · dsimp only
    rw [hthreads, hstack]
  · rw [← hspace next]
    refine hcr3 (fun ho => ?_) (by rw [hproc]; exact hnext)
    rw [hproc] at ho
    rw [hspace, ← hold ho, hk₁]
    rfl

theorem Kernel.Switched.dispatched {k k' : Kernel} {sp c₀ u : ℕ} (h : k.Switched sp c₀ u rest rest' k')
    (hold : (k.threads c₀).process ≠ 0 → k.cr3 = k.space c₀) : k.Dispatched k' u := by
  obtain ⟨hspace, hhomes⟩ := k.putAway_homes c₀ sp
  have haway : ∀ t, (k.putAway c₀ sp).space t = k.space t := fun t => by
    have hp : ((k.putAway c₀ sp).threads t).process = (k.threads t).process := congrArg Home.process (hhomes.home t)
    unfold space
    rw [hp, hspace.processes]
  have hproc : ∀ t, ((k.putAway c₀ sp).threads t).process = (k.threads t).process := fun t =>
    congrArg Home.process (hhomes.home t)
  have hstack : ((k.putAway c₀ sp).threads u).kernelStack = (k.threads u).kernelStack :=
    congrArg Home.kernelStack (hhomes.home u)
  have hd := (k.putAway c₀ sp).dispatch_dispatched c₀ u fun ho => by
    rw [hproc] at ho
    rw [haway, hspace.cr3]
    exact hold ho
  rw [← h.eq] at hd
  refine ⟨hd.words.trans (k.putAway_words c₀ sp), fun t => (hd.home t).trans (hhomes.home t), fun q => ?_, ?_,
    fun hu => ?_⟩
  · rw [hd.pml4, hspace.processes]
  · rw [hd.rsp0, hstack]
  · rw [hd.cr3 (by rw [hproc]; exact hu), haway]

theorem Call.run_live {k₀ k' : Kernel} {g' : Trace} {sp : ℕ} (hentry : c.handlerEntry k₀ = some (k, sp))
    (hrun : c.run img k₀ g = some (k', g')) : g'.live = g.live := by
  cases c with
  | tick rsp =>
    obtain ⟨_, -, heq⟩ := Option.map_eq_some_iff.mp hrun
    rw [← (Prod.mk.inj heq).2]
    exact (g.handled_live k₀ _).1
  | exit rsp =>
    obtain ⟨_, -, heq⟩ := Option.map_eq_some_iff.mp hrun
    rw [← (Prod.mk.inj heq).2]
    exact ((g.exit k₀.currentThread).handled_live k₀ _).1
  | lock mu rsp =>
    obtain ⟨_, -, heq⟩ := Option.map_eq_some_iff.mp hrun
    rw [← (Prod.mk.inj heq).2]
    split_ifs
    · rfl
    · exact (g.handled_live k₀ _).1
  | _ => exact absurd hentry.symm (Option.some_ne_none _)

variable {w : ℕ × ℕ → ℕ} {r : ℕ}

/-- The registers are pushed onto a stack of the thread. -/
theorem Machine.Saved.pushes (h : m.Saved rest) (hi : m.Interrupts img c w k r m') :
    m.kernel.interruptTop m.registers < 2 ^ 64 ∧ 160 ≤ m.kernel.interruptTop m.registers ∧
      ∀ i < 20, Inside (m.own m.kernel.currentThread)
        (cell m.kernel.cr3 (m.kernel.interruptTop m.registers - 160 + 8 * i)) := by
  by_cases hring : m.registers.cs % 4 = 3
  · have hp := hi.ring3 hring
    obtain ⟨hcr3, hrsp0⟩ := h.space hp
    obtain ⟨hsub, hroom, htop⟩ := h.kernelStack _ (h.live _ List.mem_cons_self) hp
    obtain ⟨hsize, hlow, hend⟩ := hroom.kernel
    unfold Kernel.interruptTop
    rw [if_pos hring, hrsp0, htop, hcr3]
    refine ⟨by omega, by omega, fun i hi20 => inside_of_range hsub (by omega) (by omega) (by omega)⟩
  · obtain ⟨hrsp, hlow, hin⟩ := hi.ring0 hring
    refine ⟨?_, hlow, hin⟩
    unfold Kernel.interruptTop
    rw [if_neg hring]
    omega

/-- What lies in memory when `scheduler_handler` is entered. -/
theorem Machine.Saved.entered (h : m.Saved rest) (hi : m.Interrupts img c w k r m') :
    (m.kernel.pushWords (m.kernel.interruptTop m.registers) m.registers.pushed).1 =
        m.kernel.interruptTop m.registers - 160 ∧
      (∀ i v, m.registers.pushed.reverse[i]? = some v →
        w (cell m.kernel.cr3 (m.kernel.interruptTop m.registers - 160 + 8 * i)) = v) ∧
      ∀ t ∈ m.trace.live, t ≠ m.kernel.currentThread → ∀ x, Inside (m.own t) x → w x = m.kernel.words x := by
  obtain ⟨htop, hlow, hin⟩ := h.pushes hi
  have hpushed := @Kernel.pushWords_spec m.kernel (m.kernel.interruptTop m.registers) m.registers.pushed htop hlow
  have hlen : m.registers.pushed.length = 20 := rfl
  have hsp := hpushed.length
  rw [hlen] at hsp
  have hbase : (m.kernel.pushWords (m.kernel.interruptTop m.registers) m.registers.pushed).1 =
      m.kernel.interruptTop m.registers - 160 := by omega
  refine ⟨hbase, fun i v hv => ?_, fun t ht hne x hx => ?_⟩
  · have hi20 : i < 20 := by
      obtain ⟨hlt, -⟩ := List.getElem?_eq_some_iff.mp hv
      rwa [List.length_reverse, hlen] at hlt
    rw [hi.scratch _ fun _ => ⟨i, hi20, rfl⟩, ← hbase]
    exact hpushed.has i v hv
  · have hapart := h.apart _ (h.live _ List.mem_cons_self) t ht (Ne.symm hne)
    have hout := hx.not_touches hapart
    rw [hi.scratch x fun htouch => absurd htouch hout]
    refine hpushed.frame x fun i hi20 he => hout ?_
    rw [hlen] at hi20
    rw [he, hbase]
    exact ⟨0, by decide, hin i hi20 0 (by decide)⟩

/-- The registers with which a new thread starts. -/
def Registers.fresh (entry cs ss sp : ℕ) : Registers :=
  { rax := 0, rbx := 0, rcx := 0, rdx := 0, rsi := 0, rdi := 0, rbp := 0, r8 := 0, r9 := 0, r10 := 0, r11 := 0
    r12 := 0, r13 := 0, r14 := 0, r15 := 0, rip := entry, cs := cs, rflags := 0x202, rsp := sp, ss := ss }

/-- The thread goes on with its context. A new one has all of its frame inside its stacks, and its stack pointer is at
the return address. -/
def Machine.Resumed (m : Machine) (t : ℕ) : Context → Prop
  | .pushed r => m.registers = r
  | .fabricated entry ret cs ss => ∃ sp, m.registers = .fresh entry cs ss sp ∧ sp % 16 = 8 ∧
      m.kernel.words (cell m.kernel.cr3 sp) = ret ∧ ∀ i < 21, Inside (m.own t) (cell m.kernel.cr3 (sp - 160 + 8 * i))

/-- The words at the stack pointer are what is popped. -/
theorem Machine.resumed_of_words {ctx : Context} {sp : ℕ} (hfits : sp + 8 * (ctx.words sp).length ≤ 2 ^ 64)
    (hhas : m'.kernel.StackHas m'.kernel.cr3 sp (ctx.words sp))
    (hin : ∀ i < (ctx.words sp).length, Inside (m'.own t) (cell m'.kernel.cr3 (sp + 8 * i)))
    (haligned : ∀ e ret cs ss, ctx = .fabricated e ret cs ss → sp % 16 = 8)
    (hregs : m'.registers = m'.kernel.popped sp) : m'.Resumed t ctx := by
  cases ctx with
  | pushed r =>
    have hlen : ((Context.pushed r).words sp).length = 20 := rfl
    rw [hlen] at hfits
    exact hregs.trans (Kernel.popped_eq hhas (by omega))
  | fabricated entry ret cs ss =>
    have hsplit : (Context.fabricated entry ret cs ss).words sp =
        (Registers.fresh entry cs ss (sp + 160)).pushed.reverse ++ [ret] := rfl
    have hlen : ((Context.fabricated entry ret cs ss).words sp).length = 21 := rfl
    have hsp := haligned entry ret cs ss rfl
    rw [hlen] at hfits hin
    refine ⟨sp + 160, hregs.trans (Kernel.popped_eq (fun i v hv => hhas i v ?_) (by omega)), by omega, ?_,
      fun i hi => ?_⟩
    · rw [hsplit, List.getElem?_append_left]
      · exact hv
      · exact (List.getElem?_eq_some_iff.mp hv).1
    · exact hhas 20 ret rfl
    · rw [Nat.add_sub_cancel]
      exact hin i hi

/-- The words of a thread without a process are in the half that all spaces share. -/
theorem Machine.Saved.cell_eq (h : m.Saved rest) (ht : t ∈ m.trace.live) {s s' v : ℕ}
    (hin : Inside (m.own t) (cell s v)) (hs : (m.kernel.threads t).process ≠ 0 → s' = s) : cell s' v = cell s v := by
  by_cases hp : (m.kernel.threads t).process = 0
  · exact cell_upper (h.upper t ht hp _ (hin 0 (by decide))) _ _
  · rw [hs hp]

/-- An interrupt resumes a thread with its context, and keeps those of the others. -/
theorem Machine.Saved.interrupt (h : m.Saved rest) (hi : m.Interrupts img c w k r m') :
    m'.Resumed m'.kernel.currentThread (m'.context m'.kernel.currentThread) ∧ ∃ rest', m'.Saved rest' := by
  obtain ⟨htop, hlow, hinside⟩ := h.pushes hi
  obtain ⟨hbase, hframe, hother⟩ := h.entered hi
  have hhandler := hi.handler
  have hentry := hi.entry
  rw [hbase] at hentry hhandler
  obtain ⟨sp, hsp⟩ : ∃ sp, sp = m.kernel.interruptTop m.registers - 160 := ⟨_, rfl⟩
  rw [← hsp] at hentry hhandler hframe hinside
  obtain ⟨c₀, hc₀⟩ : ∃ c₀, c₀ = m.kernel.currentThread := ⟨_, rfl⟩
  have hc₀live : c₀ ∈ m.trace.live := hc₀ ▸ h.live _ List.mem_cons_self
  have hring₀ : Kernel.ReadyRing { m.kernel with words := w } c₀ rest :=
    ⟨hc₀ ▸ h.ring.ring, hc₀ ▸ rfl, hc₀ ▸ h.ring.head, hc₀ ▸ h.ring.null, h.ring.ready⟩
  obtain ⟨hring, hspace, hhome, hrsp, hwords⟩ := Call.handlerEntry_entered hentry hring₀
  have hlive : m'.trace.live = m.trace.live := Call.run_live hentry hi.run
  have hkspace : ∀ t, k.space t = m.kernel.space t := fun t => by
    have hp : (k.threads t).process = (m.kernel.threads t).process := congrArg Home.process (hhome t)
    unfold Kernel.space
    rw [hp, hspace.processes]
  have hctx : m'.context c₀ = .pushed m.registers := by rw [hi.context, hc₀, Function.update_self]
  -- the words that were pushed, in any space that shows them
  have hpushed : ∀ K : Kernel, K.words = w → ∀ s, (∀ i < 20, cell s (sp + 8 * i) = cell m.kernel.cr3 (sp + 8 * i)) →
      K.StackHas s sp m.registers.pushed.reverse := by
    intro K hK s hs i v hv
    have hi20 : i < 20 := (List.getElem?_eq_some_iff.mp hv).1
    rw [hK, hs i hi20]
    exact hframe i v hv
  rcases hring.handler hhandler with ⟨hrest, rfl, hk⟩ | ⟨u, rest', hu, hsw, hr, hsub⟩
  · have hcur : m'.kernel.currentThread = c₀ := by rw [hk, hring.current]
    have hcr3 : m'.kernel.cr3 = m.kernel.cr3 := by rw [hk, hspace.cr3]
    refine ⟨?_, [], ?_⟩
    · rw [hcur, hctx]
      refine hi.registers.trans (Kernel.popped_eq (hpushed _ (by rw [hk]; exact hwords) _ fun i _ => by rw [hcr3]) ?_)
      omega
    · have hs : ∀ t ∈ m.trace.live, m.SameFor m' t := fun t _ =>
        ⟨by rw [hi.own], by rw [hk]; exact hhome t, by rw [hk]; exact hkspace t⟩
      refine h.moved hlive hs ?_ (fun t ht => ?_) ?_ fun t ht => absurd ht List.not_mem_nil
      · rw [hcur, hk]
        exact hrest ▸ hring
      · rw [hcur, List.mem_singleton] at ht
        exact ht ▸ hc₀live
      · have hp : (m'.kernel.threads c₀).process = _ := congrArg Home.process (hs c₀ hc₀live).home
        have hst : (m'.kernel.threads c₀).kernelStack = _ := congrArg Home.kernelStack (hs c₀ hc₀live).home
        have hrsp0 : m'.kernel.rsp0 = m.kernel.rsp0 := by rw [hk, hspace.rsp0]
        rw [hcur, hp, hst, hcr3, hrsp0, (hs c₀ hc₀live).space, hc₀]
        exact h.space
  · have hcur : m'.kernel.currentThread = u := hsw.ring.current
    have hd := hsw.dispatched fun hp => by
      have hp' : (k.threads c₀).process = (m.kernel.threads c₀).process := congrArg Home.process (hhome c₀)
      rw [hkspace, hspace.cr3]
      rw [hp', hc₀] at hp
      rw [hc₀]
      exact (h.space hp).1
    have hw : m'.kernel.words = w := hd.words.trans hwords
    have hhome' : ∀ t, (m'.kernel.threads t).home = (m.kernel.threads t).home := fun t => (hd.home t).trans (hhome t)
    have hspace' : ∀ t, m'.kernel.space t = m.kernel.space t := fun t => by
      have hp : (m'.kernel.threads t).process = (k.threads t).process := congrArg Home.process (hd.home t)
      rw [← hkspace]
      unfold Kernel.space
      rw [hp, hd.pml4]
    have hs : ∀ t ∈ m.trace.live, m.SameFor m' t := fun t _ => ⟨by rw [hi.own], hhome' t, hspace' t⟩
    have hrestlive : ∀ t ∈ rest, t ∈ m.trace.live ∧ t ≠ c₀ := fun t ht =>
      ⟨h.live t (List.mem_cons_of_mem _ ht), fun he => hring.notMem (he ▸ ht)⟩
    have hold : ∀ t ∈ rest, m'.Kept t := fun t ht => by
      obtain ⟨htl, htc⟩ := hrestlive t ht
      refine (h.kept t ht).same (hs t htl) ?_ ((hsw.other t htc).trans (hrsp t)) fun x hx => ?_
      · rw [hi.context, Function.update_of_ne (hc₀ ▸ htc)]
      · rw [hw]
        exact hother t htl (hc₀ ▸ htc) x hx
    obtain ⟨hul, huc⟩ := hrestlive u hu
    have hcr3 : (m.kernel.threads u).process ≠ 0 → m'.kernel.cr3 = m.kernel.space u := fun hp => by
      have hp' : (k.threads u).process = (m.kernel.threads u).process := congrArg Home.process (hhome u)
      rw [hd.cr3 (by rw [hp']; exact hp), hkspace]
    refine ⟨?_, rest', ?_⟩
    · obtain ⟨hfits, hhas, hin, haligned⟩ := hold u hu
      have hru : (m'.kernel.threads u).rsp = r := (hsw.other u huc).trans hr.symm
      rw [hru, hi.own] at hin
      rw [hru] at hfits hhas haligned
      rw [hspace'] at hhas hin
      have hcell : ∀ i < ((m'.context u).words r).length, cell m'.kernel.cr3 (r + 8 * i) =
          cell (m.kernel.space u) (r + 8 * i) := fun i hi' => h.cell_eq hul (hin i hi') hcr3
      rw [hcur]
      refine Machine.resumed_of_words hfits (fun i v hv => ?_) (fun i hi' => ?_) haligned hi.registers
      · rw [hcell i (List.getElem?_eq_some_iff.mp hv).1]
        exact hhas i v hv
      · rw [hcell i hi', hi.own]
        exact hin i hi'
    · refine h.moved hlive hs (hcur.symm ▸ hsw.ring) (fun t ht => ?_) ?_ fun t ht => ?_
      · rw [hcur] at ht
        rcases List.mem_cons.mp ht with rfl | ht
        · exact hul
        · rcases hsub t ht with ht | ⟨rfl, -⟩
          · exact (hrestlive t ht).1
          · exact hc₀live
      · have hst : (m'.kernel.threads u).kernelStack = (k.threads u).kernelStack :=
          congrArg Home.kernelStack (hd.home u)
        have hp : (m'.kernel.threads u).process = (m.kernel.threads u).process := congrArg Home.process (hhome' u)
        rw [hcur, hp, hst, hspace']
        exact fun hne => ⟨hcr3 hne, hd.rsp0⟩
      · rcases hsub t ht with ht | ⟨rfl, hstays⟩
        · exact hold t ht
        · have hsaved : (m'.kernel.threads t).rsp = sp := hsw.saved (not_or.mp hstays).1
          have hcell : ∀ i < 20, cell (m'.kernel.space t) (sp + 8 * i) = cell m.kernel.cr3 (sp + 8 * i) := by
            intro i hi20
            exact h.cell_eq hc₀live (hc₀ ▸ hinside i hi20) fun hp => by
              rw [hspace', hc₀]
              rw [hc₀] at hp
              exact (h.space hp).1.symm
          refine ⟨?_, ?_, ?_, ?_⟩
          all_goals rw [hctx]
          · rw [hsaved]
            change sp + 8 * 20 ≤ 2 ^ 64
            omega
          · rw [hsaved]
            exact hpushed _ hw _ hcell
          · rw [hsaved, hi.own]
            intro i hi20
            rw [hcell i hi20, hc₀]
            exact hinside i hi20
          · exact nofun

/-! ## Runs -/

/-- In every run the words of the threads that wait are kept. -/
theorem SwitchRun.saved (h : SwitchRun img m) : ∃ rest, m.Saved rest := by
  induction h with
  | @init k main r stack h0 hready hmain hstack =>
    obtain ⟨hring, -⟩ := Kernel.startMain_ring h0 hready
    have hlive : (Trace.start [main]).live = [main] := by
      simp [Trace.start, Trace.record, Trace.create, Trace.empty, h0]
    have hproc : ((k.startMain main).threads main).process = 0 := by
      simp [Kernel.startMain, Kernel.enqueueThread, Kernel.setThread, hready, hmain]
    refine ⟨[], hring.current.symm ▸ hring, fun t ht => ?_, fun t ht u hu hne => ?_, fun hp => ?_,
      fun t ht _ => hstack, fun t ht hp => ?_, fun t ht => absurd ht List.not_mem_nil⟩
    · rw [hlive]
      exact hring.current ▸ ht
    · rw [hlive, List.mem_singleton] at ht hu
      exact absurd (ht.trans hu.symm) hne
    · dsimp only at hp
      rw [hring.current] at hp
      exact absurd hproc hp
    · rw [hlive, List.mem_singleton] at ht
      subst ht
      exact absurd hproc hp
  | step _ hs ih =>
    obtain ⟨rest, hsaved⟩ := ih
    cases hs with
    | work w vm regions r hw => exact ⟨rest, hsaved.work w vm regions r hw⟩
    | call c k g hentry hc hok hrun hroom hapart => exact hsaved.call hentry hc hok hrun hroom hapart
    | interrupt c w k r m' hi => exact (hsaved.interrupt hi).2

/-- Whenever an interrupt gives the processor to a thread, that one goes on with the registers that
it was switched out with, or with those that its creation made up. -/
theorem switch_transparent (h : SwitchRun img m) (hi : m.Interrupts img c w k r m') :
    m'.Resumed m'.kernel.currentThread (m'.context m'.kernel.currentThread) := by
  obtain ⟨rest, hsaved⟩ := h.saved
  exact (hsaved.interrupt hi).1

end Steps

/-- The page of the main thread's stack, above the first stacks of `vmalloc`. -/
def mainPage : ℕ := vmallocStart + 0x100000

/-- The main thread, with its stack mapped. -/
def Kernel.mainAlone : Kernel :=
  { Kernel.beforeBoot with vm := emptySpace.mapNewPage 0x1000 mainPage pteWritable }.startMain 0x100

/-- It has created the thread 0x200. -/
def Kernel.twoThreads : Kernel := (Kernel.mainAlone.createThread bootImage 0x200 0x10 0x400000 0x1000).2

/-- The registers of the main thread, whose stack is empty. -/
def Registers.ofMain : Registers := .fresh 0x100000 0x08 0x10 (mainPage + 0x1000)

/-- The bytes of the main thread's stack. -/
def mainStack : Set (ℕ × ℕ) := {x | x.1 = 0 ∧ x.2 / 4096 = mainPage / 4096}

theorem mainStack_upper : ∀ x ∈ mainStack, 2 ^ 47 ≤ x.2 := by
  rintro x ⟨-, hx⟩
  have hpage : mainPage / 4096 = 0xFFFFC00000100 := rfl
  omega

/-- The pages of the two stacks. -/
def twoStacks : List (ℕ × ℕ) := [(0, mainPage / 4096), (0, vmallocStart / 4096)]

/-- The main thread alone, before a tick. -/
def Machine.mainAlone : Machine :=
  ⟨Kernel.mainAlone, Trace.start [0x100], .ofMain, fun _ => mainStack, fun _ => .pushed .ofMain⟩

theorem Machine.mainAlone_live : Machine.mainAlone.trace.live = [0x100] := by decide

theorem Machine.called_own {img : Image} {m : Machine} {c : Call} {k : Kernel} {g : Trace} {t : ℕ}
    (h : t ∈ m.trace.live) : (m.called img c k g).own t = m.own t := if_pos h

theorem Machine.called_new {img : Image} {m : Machine} {c : Call} {k : Kernel} {g : Trace} {t : ℕ}
    (h : t ∉ m.trace.live) :
    (m.called img c k g).own t = k.stackBytes t ∧ (m.called img c k g).context t = c.context img :=
  ⟨if_neg h, if_neg h⟩

/-- The stack of the new thread is one page, and it is another one. -/
theorem Kernel.twoThreads_stacks : (Kernel.twoThreads.threads 0x200).Roomy ∧
    Kernel.twoThreads.stackBytes 0x200 ⊆ {x | x.1 = 0 ∧ x.2 / 4096 = vmallocStart / 4096} := by
  have hbounds : (Kernel.twoThreads.threads 0x200).kernelStack = ⟨vmallocStart + 0x1000, vmallocStart, 0x1000⟩ ∧
      (Kernel.twoThreads.threads 0x200).userStack = ⟨0, 0, 0⟩ ∧ (Kernel.twoThreads.threads 0x200).process = 0 := by
    decide +kernel
  have hstart : vmallocStart = 0xFFFFC00000000000 := rfl
  obtain ⟨hkernel, huser, hproc⟩ := hbounds
  refine ⟨⟨?_, fun h => absurd hproc h⟩, ?_⟩
  · rw [hkernel]
    decide
  · unfold stackBytes
    dsimp only
    rw [hkernel, huser]
    rintro x (⟨v, ⟨hv, hv'⟩, rfl⟩ | ⟨v, hv, rfl⟩)
    · dsimp only at hv hv'
      refine ⟨if_neg ?_, ?_⟩
      · omega
      · change v / 4096 = _
        omega
    · exact absurd hv.2 (Nat.not_lt_zero v)

/-- The machine after a tick in the main thread that leaves the page tables as they are. -/
def Machine.ticked (m : Machine) (k k' : Kernel) (r : ℕ) : Machine :=
  { kernel := k'
    trace := m.trace.handled k k'
    registers := k'.popped r
    own := m.own
    context := Function.update m.context m.kernel.currentThread (.pushed m.registers) }

/-- The main thread takes a tick on the empty stack. -/
theorem Machine.interrupts_ofMain {m : Machine} (img : Image) {k' : Kernel} {q : ℕ × Kernel} {r : ℕ}
    {pages : List (ℕ × ℕ)} {l : List ℕ} (hregisters : m.registers = .ofMain) (hcur : m.kernel.currentThread = 0x100)
    (hmain : m.own 0x100 = mainStack) (hpages : ∀ t ∈ m.trace.live, ∀ x ∈ m.own t, (x.1, x.2 / 4096) ∈ pages)
    (hplaces : m.kernel.places pages = l.map some) (hplaces' : k'.places pages = l.map some) (hl : l.Nodup)
    (hmapped : (m.kernel.physical (0, mainPage / 4096 * 4096)).isSome)
    (hq : q = m.kernel.pushWords (mainPage + 0x1000) Registers.ofMain.pushed)
    (hhandler : Kernel.schedulerHandler { m.kernel with words := q.2.words } q.1 = some (r, k')) :
    m.Interrupts img (.tick q.1) q.2.words { m.kernel with words := q.2.words } r
      (m.ticked { m.kernel with words := q.2.words } k' r) := by
  have htop : m.kernel.interruptTop m.registers = mainPage + 0x1000 := by
    rw [hregisters]
    unfold Kernel.interruptTop
    rw [if_neg (by decide)]
    decide
  have hpush : m.kernel.pushWords (m.kernel.interruptTop m.registers) m.registers.pushed = q := by
    rw [htop, hregisters, hq]
  have hpage : mainPage = 0xFFFFC00000100000 := rfl
  have hcell : ∀ v, mainPage ≤ v → v < mainPage + 0x1000 → cell m.kernel.cr3 v = (0, v) ∧ (0, v) ∈ mainStack := by
    intro v hv hv'
    refine ⟨Prod.ext (if_neg (show ¬v < 2 ^ 47 by omega)) rfl, rfl, ?_⟩
    dsimp only
    omega
  have hlive : (m.trace.handled { m.kernel with words := q.2.words } k').live = m.trace.live :=
    (m.trace.handled_live _ k').1
  refine ⟨fun _ => ⟨?_, ?_, fun i hi j hj => ?_⟩, fun h => absurd h ?_, fun i hi => ?_, fun x _ => ?_, ?_, ?_, ?_,
    rfl, rfl, rfl, Machine.stays_of_pages hpages (hplaces'.trans hplaces.symm),
    Machine.single_of_pages (fun t ht => hpages t (hlive ▸ ht)) hplaces' hl⟩
  · rw [hregisters]
    decide
  · rw [htop]
    decide
  · rw [hcur, hmain, htop, (hcell (mainPage + 0x1000 - 160 + 8 * i) (by omega) (by omega)).1]
    exact (hcell (mainPage + 0x1000 - 160 + 8 * i + j) (by omega) (by omega)).2
  · rw [hregisters]
    decide
  · have hbase : (mainPage + 0x1000 - 160 + 8 * i) / 4096 * 4096 = mainPage / 4096 * 4096 := by omega
    rw [htop, (hcell (mainPage + 0x1000 - 160 + 8 * i) (by omega) (by omega)).1, Kernel.physical_page,
      Option.isSome_map, hbase]
    exact hmapped
  · rw [hpush]
  · rw [hpush]
    rfl
  · rw [hpush]
    exact hhandler
  · simp only [Call.run, hhandler, Option.map_some]
    rfl

/-- A tick switches from the main thread to the new one, which starts at its entry point. -/
theorem switch_transparent_first : ∃ m' : Machine, m'.kernel.currentThread = 0x200 ∧
    m'.Resumed 0x200 (.fabricated 0x400000 bootImage.threadExit 0x08 0x10) := by
  obtain ⟨hroomy, hnewPage⟩ := Kernel.twoThreads_stacks
  have hplaces : Kernel.twoThreads.places twoStacks = [0x2000, 0x6000].map some := by decide +kernel
  have hplaces₀ : Kernel.mainAlone.places [(0, mainPage / 4096)] = [0x2000].map some := by decide +kernel
  have hlive := Machine.mainAlone_live
  have hrun₀ : SwitchRun bootImage Machine.mainAlone := by
    refine .init (by decide) rfl rfl mainStack_upper (Machine.single_of_pages (fun t _ x hx => ?_) hplaces₀ (by decide))
    exact List.mem_singleton.mpr (Prod.ext hx.1 hx.2)
  -- with the new thread
  obtain ⟨c, hc⟩ : ∃ c : Call, c = .createThread 0x200 0x10 0x400000 0x1000 := ⟨_, rfl⟩
  obtain ⟨m₁, hm₁⟩ : ∃ m₁, m₁ = Machine.mainAlone.called bootImage c Kernel.twoThreads
      (Machine.mainAlone.trace.create 0x200) := ⟨_, rfl⟩
  have hlive₁ : m₁.trace.live = [0x200, 0x100] := by
    rw [hm₁]
    exact congrArg (0x200 :: ·) hlive
  have hkernel : m₁.kernel = Kernel.twoThreads := by rw [hm₁]; rfl
  have hregisters : m₁.registers = .ofMain := by rw [hm₁]; rfl
  have hold : m₁.own 0x100 = mainStack := by
    rw [hm₁]
    exact Machine.called_own (by rw [hlive]; decide)
  have hnew : m₁.own 0x200 = Kernel.twoThreads.stackBytes 0x200 ∧ m₁.context 0x200 = c.context bootImage := by
    rw [hm₁]
    exact Machine.called_new (by rw [hlive]; decide)
  have hpages : ∀ t ∈ m₁.trace.live, ∀ x ∈ m₁.own t, (x.1, x.2 / 4096) ∈ twoStacks := by
    intro t ht x hx
    rw [hlive₁] at ht
    simp only [List.mem_cons, List.not_mem_nil, or_false] at ht
    rcases ht with rfl | rfl
    · rw [hnew.1] at hx
      obtain ⟨hs, hv⟩ := hnewPage hx
      rw [hs, hv]
      exact List.mem_cons_of_mem _ List.mem_cons_self
    · rw [hold] at hx
      rw [hx.1, hx.2]
      exact List.mem_cons_self
  have hdisjoint : Disjoint (m₁.own 0x200) (m₁.own 0x100) := by
    rw [hold, hnew.1, Set.disjoint_left]
    exact fun x hx hx' => absurd ((hnewPage hx).2.symm.trans hx'.2) (by decide)
  have hapart : m₁.Apart := by
    unfold Machine.Apart
    rw [hlive₁]
    simpa using hdisjoint
  have hbacked : Machine.mainAlone.Backed m₁ := by
    refine ⟨Machine.stays_of_pages (fun t _ x hx => ?_) (?_ : _ = Kernel.mainAlone.places [(0, mainPage / 4096)]),
      Machine.single_of_pages hpages (hkernel ▸ hplaces) (by decide)⟩
    · exact List.mem_singleton.mpr (Prod.ext hx.1 hx.2)
    · rw [hkernel, hplaces₀]
      exact congrArg (List.take 1) hplaces
  have hrun₁ : SwitchRun bootImage m₁ := by
    have hcall : c.run bootImage Machine.mainAlone.kernel Machine.mainAlone.trace =
        some (Kernel.twoThreads, Machine.mainAlone.trace.create 0x200) := by
      have hr : (Kernel.mainAlone.createThread bootImage 0x200 0x10 0x400000 0x1000).1 = 0x200 := by decide +kernel
      have hrec : Machine.mainAlone.trace.record 0x200 = Machine.mainAlone.trace.create 0x200 := rfl
      rw [hc, ← hrec, ← hr]
      rfl
    rw [hm₁] at hapart hbacked ⊢
    refine hrun₀.step (.call c _ _ (by rw [hc]; rfl) ?_ (by rw [hc]; trivial) hcall (fun t ht hnot => ?_) hapart hbacked)
    · rw [hc]
      change 0x200 ∉ Machine.mainAlone.trace.live
      rw [hlive]
      decide
    · rcases List.mem_cons.mp ht with rfl | ht
      · exact hroomy
      · exact absurd ht hnot
  -- the tick
  obtain ⟨q, hq⟩ : ∃ q, q = Kernel.twoThreads.pushWords (mainPage + 0x1000) Registers.ofMain.pushed := ⟨_, rfl⟩
  have htick : (Kernel.schedulerHandler { Kernel.twoThreads with words := q.2.words } q.1).map
      (fun p => (p.2.currentThread, p.2.places twoStacks)) = some (0x200, [0x2000, 0x6000].map some) := by
    rw [hq]
    decide +kernel
  obtain ⟨⟨r, k'⟩, hhandler, hnext⟩ := Option.map_eq_some_iff.mp htick
  obtain ⟨hcur', hplaces'⟩ := Prod.mk.inj hnext
  dsimp only at hcur' hplaces'
  have hcur : m₁.kernel.currentThread = 0x100 := by
    rw [hkernel]
    decide +kernel
  have hmapped : (m₁.kernel.physical (0, mainPage / 4096 * 4096)).isSome := by
    rw [hkernel]
    decide +kernel
  have hinterrupt := Machine.interrupts_ofMain bootImage hregisters hcur hold hpages (hkernel ▸ hplaces)
    hplaces' (by decide) hmapped (hkernel ▸ hq) (hkernel ▸ hhandler)
  have hresumed := switch_transparent hrun₁ hinterrupt
  unfold Machine.ticked at hresumed
  dsimp only at hresumed
  rw [hcur', hcur, Function.update_of_ne (by decide), hnew.2, hc] at hresumed
  exact ⟨_, hcur', hresumed⟩

end PointerOS
