import PointerOS.Stack

/-!
# The kernel log

`klog.c`: a ring of 4096 slots with free-running counters of 64 bits. A writer claims positions and
then fills their slots; the reader takes the character of a slot whose `ready` is set, and clears
it. Calls that do not overlap make the log a queue of the last 4096 characters.
-/
namespace PointerOS

def klogBufMax : ℕ := 4096

/-- `log_entry_t`. -/
structure LogEntry where
  c : UInt8
  ready : UInt8
deriving DecidableEq

/-- `klog_buffer`, `klog_head` and `klog_tail`. -/
structure Klog where
  buffer : ℕ → LogEntry
  head : ℕ
  tail : ℕ

/-- The buffer is what `kmalloc` returned. The loop that clears it runs while `i < 0`. -/
def initKlog (memory : ℕ → LogEntry) : Klog :=
  { buffer := (List.range 0).foldl (fun b i => Function.update b i ⟨0, 0⟩) memory, head := 0, tail := 0 }

/-- `[drop]`. -/
def dropMarker : List UInt8 := [0x5B, 0x64, 0x72, 0x6F, 0x70, 0x5D]

namespace Klog

/-- The part of `klog_write` under the lock: the first position. -/
def claim (k : Klog) (len : ℕ) : ℕ × Klog := (k.head, { k with head := (k.head + len) % 2 ^ 64 })

/-- `klog_buffer[pos].c = c`. -/
def storeChar (k : Klog) (p : ℕ) (c : UInt8) : Klog :=
  { k with buffer := Function.update k.buffer (p % klogBufMax) { k.buffer (p % klogBufMax) with c := c } }

/-- The store of `ready`. -/
def setReady (k : Klog) (p : ℕ) (v : UInt8) : Klog :=
  { k with buffer := Function.update k.buffer (p % klogBufMax) { k.buffer (p % klogBufMax) with ready := v } }

/-- The loop of `klog_write` from `i` on. -/
def fill (k : Klog) (start : ℕ) : ℕ → List UInt8 → Klog
  | _, [] => k
  | i, c :: s =>
    fill ((k.storeChar ((start + i) % 2 ^ 64) c).setReady ((start + i) % 2 ^ 64) 1) start (i + 1) s

def write (k : Klog) (s : List UInt8) : Klog :=
  if s.length = 0 then k
  else
    let s := s.take klogBufMax
    let (start, k) := k.claim s.length
    k.fill start 0 s

/-- The test at the start of a round of `klog_flush_to_screen`: positions that were overwritten are
skipped. -/
def skip (k : Klog) : List UInt8 × Klog :=
  if klogBufMax < sub64 k.head k.tail then (dropMarker, { k with tail := sub64 k.head klogBufMax }) else ([], k)

/-- The rest of the round: what is output, the log, and whether the loop goes on. -/
def take (k : Klog) : List UInt8 × Klog × Bool :=
  if k.tail = k.head then ([], k, false)
  else if (k.buffer (k.tail % klogBufMax)).ready = 0 then ([], k, false)
  else ([(k.buffer (k.tail % klogBufMax)).c], { k.setReady k.tail 0 with tail := (k.tail + 1) % 2 ^ 64 }, true)

def round (k : Klog) : List UInt8 × Klog × Bool :=
  let r := k.skip.2.take
  (k.skip.1 ++ r.1, r.2)

def flushLoop : ℕ → Klog → Option (List UInt8 × Klog)
  | 0, _ => none
  | fuel + 1, k =>
    let r := k.round
    if r.2.2 then (flushLoop fuel r.2.1).map fun q => (r.1 ++ q.1, q.2) else some (r.1, r.2.1)

/-- `klog_flush_to_screen`, `none` when it does not come to an end. -/
def flush (k : Klog) : Option (List UInt8 × Klog) := flushLoop (2 ^ 64) k

end Klog

/-! ## The queue -/

/-- What a flush shows of the characters that were logged since the last one. -/
def shown (p : List UInt8) : List UInt8 :=
  if p.length ≤ klogBufMax then p else dropMarker ++ p.drop (p.length - klogBufMax)

/-- Complete calls one after the other, with the characters logged since the last flush. -/
inductive LogRun (memory : ℕ → LogEntry) : Klog → List UInt8 → Prop
  | init : LogRun memory (initKlog memory) []
  | write {k : Klog} {p : List UInt8} (h : LogRun memory k p) (s : List UInt8)
      (hs : (p ++ s.take klogBufMax).length < 2 ^ 64) : LogRun memory (k.write s) (p ++ s.take klogBufMax)
  | flush {k k' : Klog} {p out : List UInt8} (h : LogRun memory k p) (hf : k.flush = some (out, k')) :
      LogRun memory k' []

namespace Klog
variable {k k' : Klog} {p s : List UInt8} {start i q : ℕ} {c : UInt8}

/-- The slots of the last 4096 positions have the characters, whatever the other slots have. -/
structure Holds (k : Klog) (p : List UInt8) : Prop where
  head : k.head = (k.tail + p.length) % 2 ^ 64
  tail : k.tail < 2 ^ 64
  slots : ∀ i c, p[i]? = some c → p.length ≤ i + klogBufMax → k.buffer ((k.tail + i) % klogBufMax) = ⟨c, 1⟩

theorem fill_counters (k : Klog) (start i : ℕ) (s : List UInt8) :
    (k.fill start i s).head = k.head ∧ (k.fill start i s).tail = k.tail := by
  induction s generalizing k i with
  | nil => exact ⟨rfl, rfl⟩
  | cons c s ih => exact ih ..

/-- A slot that none of the positions has is left alone. -/
theorem fill_other (hq : ∀ j < s.length, q ≠ (start + i + j) % klogBufMax) :
    (k.fill start i s).buffer q = k.buffer q := by
  induction s generalizing k i with
  | nil => rfl
  | cons c s ih =>
    have hrest := ih (k := (k.storeChar ((start + i) % 2 ^ 64) c).setReady ((start + i) % 2 ^ 64) 1) (i := i + 1)
      fun j hj => by
        have := hq (j + 1) (by rw [List.length_cons]; omega)
        rwa [show start + (i + 1) + j = start + i + (j + 1) by omega]
    have hfirst : q ≠ (start + i) % 2 ^ 64 % klogBufMax := by
      have := hq 0 (by rw [List.length_cons]; omega)
      unfold klogBufMax at this ⊢
      omega
    refine hrest.trans ?_
    simp only [setReady, storeChar, Function.update_of_ne hfirst]

/-- At most 4096 positions have different slots, and each gets its character. -/
theorem fill_slot (hs : s.length ≤ klogBufMax) {j : ℕ} (hc : s[j]? = some c) :
    (k.fill start i s).buffer ((start + i + j) % klogBufMax) = ⟨c, 1⟩ := by
  induction s generalizing k i j with
  | nil => exact nomatch hc
  | cons a s ih =>
    rw [List.length_cons] at hs
    cases j with
    | zero =>
      obtain rfl : a = c := Option.some.inj hc
      have hslot : (start + i + 0) % klogBufMax = (start + i) % 2 ^ 64 % klogBufMax := by
        unfold klogBufMax
        omega
      have hother : (((k.storeChar ((start + i) % 2 ^ 64) a).setReady ((start + i) % 2 ^ 64) 1).fill start (i + 1) s).buffer
          ((start + i) % 2 ^ 64 % klogBufMax) = ((k.storeChar ((start + i) % 2 ^ 64) a).setReady
            ((start + i) % 2 ^ 64) 1).buffer ((start + i) % 2 ^ 64 % klogBufMax) := fill_other fun j hj => by
        unfold klogBufMax at hs ⊢
        omega
      rw [hslot]
      refine hother.trans ?_
      simp only [setReady, storeChar, Function.update_self]
    | succ j =>
      have hrest := ih (k := (k.storeChar ((start + i) % 2 ^ 64) a).setReady ((start + i) % 2 ^ 64) 1) (i := i + 1)
        (by omega) hc
      rwa [show start + (i + 1) + j = start + i + (j + 1) by omega] at hrest

theorem Holds.write (h : Holds k p) (s : List UInt8) : Holds (k.write s) (p ++ s.take klogBufMax) := by
  unfold Klog.write
  split_ifs with h0
  · rw [List.length_eq_zero_iff.mp h0]
    simpa using h
  have hlen : (s.take klogBufMax).length ≤ klogBufMax := List.length_take_le ..
  dsimp only [claim]
  generalize s.take klogBufMax = s at hlen
  obtain ⟨hhead, htail⟩ := fill_counters { k with head := (k.head + s.length) % 2 ^ 64 } k.head 0 s
  refine ⟨?_, ?_, fun i c hc hi => ?_⟩
  · rw [hhead, htail, List.length_append]
    dsimp only
    rw [h.head]
    omega
  · rw [htail]
    exact h.tail
  · rw [htail]
    rw [List.length_append] at hi
    have hpos := h.head
    by_cases hip : i < p.length
    · rw [List.getElem?_append_left hip] at hc
      rw [fill_other fun j hj => ?_]
      · exact h.slots i c hc (by omega)
      · dsimp only
        unfold klogBufMax at hi ⊢
        omega
    · rw [List.getElem?_append_right (by omega)] at hc
      have hslot : (k.tail + i) % klogBufMax = (k.head + 0 + (i - p.length)) % klogBufMax := by
        unfold klogBufMax
        omega
      dsimp only
      rw [hslot]
      exact fill_slot hlen hc

/-! ## Reading -/

theorem Holds.backlog (h : Holds k p) (hp : p.length < 2 ^ 64) : sub64 k.head k.tail = p.length := by
  have hhead := h.head
  have htail := h.tail
  unfold sub64
  omega

/-- Nothing is skipped as long as the characters fit. -/
theorem Holds.skip_eq (h : Holds k p) (hp : p.length ≤ klogBufMax) : k.skip = ([], k) := by
  rw [skip, h.backlog (by unfold klogBufMax at hp; omega), if_neg (by omega)]

/-- Otherwise the last 4096 of them stay. -/
theorem Holds.skip (h : Holds k p) (hp : klogBufMax < p.length) (hlt : p.length < 2 ^ 64) :
    ∃ k₁, k.skip = (dropMarker, k₁) ∧ Holds k₁ (p.drop (p.length - klogBufMax)) := by
  have hhead := h.head
  have htail := h.tail
  refine ⟨{ k with tail := sub64 k.head klogBufMax }, ?_, ?_, ?_, fun i c hc hi => ?_⟩
  · rw [Klog.skip, h.backlog hlt, if_pos hp]
  · rw [List.length_drop]
    dsimp only
    unfold klogBufMax at hp ⊢
    unfold sub64
    omega
  · exact Nat.mod_lt _ (by decide)
  · rw [List.getElem?_drop] at hc
    have hslot : (sub64 k.head klogBufMax + i) % klogBufMax = (k.tail + (p.length - klogBufMax + i)) % klogBufMax := by
      unfold klogBufMax at hp ⊢
      unfold sub64
      omega
    dsimp only
    rw [hslot]
    exact h.slots _ c hc (by omega)

/-- A round takes the first character. -/
theorem Holds.take (h : Holds k (c :: p)) (hp : (c :: p).length ≤ klogBufMax) :
    ∃ k', k.take = ([c], k', true) ∧ Holds k' p := by
  have hhead := h.head
  have htail := h.tail
  rw [List.length_cons] at hp hhead
  have hslot := h.slots 0 c rfl (by rw [List.length_cons]; omega)
  rw [Nat.add_zero] at hslot
  have hne : k.tail ≠ k.head := by
    unfold klogBufMax at hp
    omega
  refine ⟨{ k.setReady k.tail 0 with tail := (k.tail + 1) % 2 ^ 64 }, ?_, ?_, Nat.mod_lt _ (by decide),
    fun i a ha hi => ?_⟩
  · have hready : (1 : UInt8) ≠ 0 := by decide
    rw [Klog.take, if_neg hne, hslot, if_neg hready]
  · change k.head = ((k.tail + 1) % 2 ^ 64 + p.length) % 2 ^ 64
    omega
  · have hlt := (List.getElem?_eq_some_iff.mp ha).1
    have hold := h.slots (i + 1) a ha (by rw [List.length_cons]; omega)
    have hslot' : ((k.tail + 1) % 2 ^ 64 + i) % klogBufMax = (k.tail + (i + 1)) % klogBufMax := by
      unfold klogBufMax
      omega
    have hother : (k.tail + (i + 1)) % klogBufMax ≠ k.tail % klogBufMax := by
      unfold klogBufMax at hp ⊢
      omega
    dsimp only
    rw [hslot']
    exact (Function.update_of_ne hother ..).trans hold

/-- The rest of a round takes no character, or that of the tail. -/
theorem take_cases (k : Klog) :
    k.take = ([], k, false) ∨
      k.tail ≠ k.head ∧ (k.buffer (k.tail % klogBufMax)).ready ≠ 0 ∧
        ∃ k', k.take = ([(k.buffer (k.tail % klogBufMax)).c], k', true) ∧ k'.head = k.head ∧
          k'.tail = (k.tail + 1) % 2 ^ 64 ∧ ∀ q, (k'.buffer q).c = (k.buffer q).c := by
  rw [Klog.take]
  split_ifs with hempty hready
  · exact .inl rfl
  · exact .inl rfl
  · refine .inr ⟨hempty, hready, _, rfl, rfl, rfl, fun q => ?_⟩
    simp only [setReady, Function.update_apply]
    split_ifs with hq
    · rw [hq]
    · rfl

theorem Holds.flushLoop (h : Holds k p) (hp : p.length ≤ klogBufMax) (fuel : ℕ) (hfuel : p.length < fuel) :
    ∃ k', Klog.flushLoop fuel k = some (p, k') ∧ Holds k' [] := by
  induction p generalizing k fuel with
  | nil =>
    obtain ⟨fuel, rfl⟩ : ∃ f, fuel = f + 1 := ⟨fuel - 1, by omega⟩
    have hhead := h.head
    have htail := h.tail
    rw [List.length_nil] at hhead
    have hempty : k.tail = k.head := by omega
    refine ⟨k, ?_, h⟩
    rw [Klog.flushLoop, round, h.skip_eq hp]
    dsimp only
    rw [Klog.take, if_pos hempty]
    rfl
  | cons c p ih =>
    rw [List.length_cons] at hfuel
    obtain ⟨fuel, rfl⟩ : ∃ f, fuel = f + 1 := ⟨fuel - 1, by omega⟩
    obtain ⟨k₁, htake, h₁⟩ := h.take hp
    rw [List.length_cons] at hp
    obtain ⟨k', hloop, h'⟩ := ih h₁ (by omega) fuel (by omega)
    refine ⟨k', ?_, h'⟩
    rw [Klog.flushLoop, round, h.skip_eq (by rw [List.length_cons]; omega)]
    dsimp only
    rw [htake]
    dsimp only
    rw [hloop]
    rfl

/-- The marker comes before everything that the rest of the loop outputs. -/
theorem flushLoop_skip {k₁ : Klog} (h : k.skip = (dropMarker, k₁)) (h₁ : k₁.skip = ([], k₁)) (fuel : ℕ) :
    Klog.flushLoop (fuel + 1) k = (Klog.flushLoop (fuel + 1) k₁).map fun q => (dropMarker ++ q.1, q.2) := by
  rw [Klog.flushLoop, Klog.flushLoop, round, round, h, h₁]
  dsimp only
  rw [List.nil_append]
  generalize k₁.take = q
  obtain ⟨out, k₂, more⟩ := q
  cases more with
  | false => rfl
  | true =>
    simp only [if_true, Option.map_map]
    congr 1

theorem Holds.flushLoop_shown (h : Holds k p) (hp : p.length < 2 ^ 64) {fuel : ℕ} (hfuel : klogBufMax < fuel) :
    ∃ k', Klog.flushLoop fuel k = some (shown p, k') ∧ Holds k' [] := by
  unfold shown
  by_cases hfit : p.length ≤ klogBufMax
  · rw [if_pos hfit]
    exact h.flushLoop hfit fuel (by omega)
  · obtain ⟨fuel, rfl⟩ : ∃ f, fuel = f + 1 := ⟨fuel - 1, by omega⟩
    obtain ⟨k₁, hskip, h₁⟩ := h.skip (by omega) hp
    have hlen : (p.drop (p.length - klogBufMax)).length = klogBufMax := by
      rw [List.length_drop]
      omega
    obtain ⟨k', hloop, h'⟩ := h₁.flushLoop hlen.le (fuel + 1) (by omega)
    refine ⟨k', ?_, h'⟩
    rw [if_neg hfit, flushLoop_skip hskip (h₁.skip_eq hlen.le), hloop, Option.map_some]

theorem Holds.flush (h : Holds k p) (hp : p.length < 2 ^ 64) :
    ∃ k', k.flush = some (shown p, k') ∧ Holds k' [] := by
  have hfuel : klogBufMax < 2 ^ 64 := by decide
  rw [Klog.flush]
  generalize 2 ^ 64 = fuel at hfuel ⊢
  exact h.flushLoop_shown hp hfuel

end Klog

theorem LogRun.holds {memory : ℕ → LogEntry} {k : Klog} {p : List UInt8} (h : LogRun memory k p) :
    k.Holds p ∧ p.length < 2 ^ 64 := by
  induction h with
  | init =>
    have h0 : (0 : ℕ) < 2 ^ 64 := by decide
    exact ⟨⟨rfl, h0, nofun⟩, h0⟩
  | write _ s hs ih => exact ⟨ih.1.write s, hs⟩
  | flush _ hf ih =>
    obtain ⟨k₁, hk₁, h₁⟩ := ih.1.flush ih.2
    obtain rfl := (Prod.mk.inj (Option.some.inj (hf.symm.trans hk₁))).2
    exact ⟨h₁, by simp⟩

/-- A flush ends, shows what was logged since the last one, and leaves the log empty. -/
theorem klog_bounded_queue {memory : ℕ → LogEntry} {k : Klog} {p : List UInt8} (h : LogRun memory k p) :
    ∃ k', k.flush = some (shown p, k') ∧ k'.tail = k'.head := by
  obtain ⟨hk, hp⟩ := h.holds
  obtain ⟨k', hflush, h'⟩ := hk.flush hp
  refine ⟨k', hflush, ?_⟩
  have hhead := h'.head
  have htail := h'.tail
  rw [List.length_nil] at hhead
  omega

/-- One character after a flush that showed another one, in memory with every bit of `ready` set. -/
theorem klog_bounded_queue_char : ∃ k₁ k₂ k k' : Klog, k₁.flush = some ([0x61], k₂) ∧
    LogRun (fun _ => ⟨0, 0xFF⟩) k [0x62] ∧ k.flush = some ([0x62], k') ∧ k'.tail = k'.head := by
  obtain ⟨k₁, h₁⟩ : ∃ k, LogRun (fun _ => ⟨0, 0xFF⟩) k [0x61] := ⟨_, .write .init [0x61] (by decide)⟩
  obtain ⟨k₂, hflush, -⟩ := klog_bounded_queue h₁
  obtain ⟨k, h⟩ : ∃ k, LogRun (fun _ => ⟨0, 0xFF⟩) k [0x62] := ⟨_, .write (.flush h₁ hflush) [0x62] (by decide)⟩
  obtain ⟨k', hlast⟩ := klog_bounded_queue h
  exact ⟨k₁, k₂, k, k', hflush, h, hlast⟩

end PointerOS
