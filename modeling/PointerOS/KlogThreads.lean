import PointerOS.Klog

/-!
# The kernel log with several writers

Threads in `klog_write` and rounds of `klog_flush_to_screen` in any order of their atomic steps. A
position is counted from the start of the log, without the wrapping of the counters; a record runs
along of the characters by position and of what was output at which position.
-/
namespace PointerOS

/-- `writing` has, for each thread, the positions that it claimed and has not released, and `stored`
tells that the character of the first one is in its slot. The markers are not in `output`. -/
structure LogThreads where
  klog : Klog
  logged : List UInt8
  writing : ℕ → List (ℕ × UInt8)
  stored : ℕ → Bool
  output : List (ℕ × UInt8)

inductive LogStep
  | claim (t : ℕ) (text : List UInt8)
  | storeChar (t : ℕ)
  | release (t : ℕ)
  | round

namespace LogThreads

def init (memory : ℕ → LogEntry) : LogThreads :=
  { klog := initKlog memory, logged := [], writing := fun _ => [], stored := fun _ => false, output := [] }

/-- The position that the tail is at. -/
def position (s : LogThreads) (k : Klog) : ℕ := s.logged.length - sub64 k.head k.tail

/-- A round of the reader behind its skip, which led to `k`. -/
def read (s : LogThreads) (k : Klog) : LogThreads :=
  { s with klog := k.take.2.1, output := k.take.1.map (fun c => (s.position k, c)) ++ s.output }

def step (s : LogThreads) : LogStep → Option LogThreads
  | .claim t text =>
    if s.writing t = [] ∧ text ≠ [] then
      let w := text.take klogBufMax
      some { s with
        klog := (s.klog.claim w.length).2
        logged := s.logged ++ w
        writing := Function.update s.writing t (w.mapIdx fun i c => (s.logged.length + i, c))
        stored := Function.update s.stored t false }
    else none
  | .storeChar t =>
    match s.writing t, s.stored t with
    | (p, c) :: _, false =>
      some { s with klog := s.klog.storeChar (p % 2 ^ 64) c, stored := Function.update s.stored t true }
    | _, _ => none
  | .release t =>
    match s.writing t, s.stored t with
    | (p, _) :: rest, true =>
      some { s with
        klog := s.klog.setReady (p % 2 ^ 64) 1
        writing := Function.update s.writing t rest
        stored := Function.update s.stored t false }
    | _, _ => none
  | .round => some (s.read s.klog.skip.2)

/-- What a thread has still to store. -/
def unstored (s : LogThreads) (t : ℕ) : List (ℕ × UInt8) := if s.stored t then (s.writing t).tail else s.writing t

/-- The output at a position is the character that was logged there, and none is output twice. -/
structure Faithful (s : LogThreads) : Prop where
  logged : ∀ x ∈ s.output, s.logged[x.1]? = some x.2
  once : (s.output.map Prod.fst).Nodup

/-- A bit of `ready` that is taken in `k` was set for the position that the tail is at. -/
def TakesReleased (s : LogThreads) (k : Klog) : Prop :=
  k.tail ≠ k.head → (k.buffer (k.tail % klogBufMax)).ready ≠ 0 → ∀ t c, (s.position k, c) ∉ s.writing t

/-- A writer stores no character over that of a later position that the reader has still to come to,
and the reader takes no bit of `ready` that was left by another position or was there from the start. -/
def Timely (s : LogThreads) : LogStep → Prop
  | .storeChar t =>
    ∀ p c rest, s.writing t = (p, c) :: rest → ∀ q, p < q → q % klogBufMax = p % klogBufMax → q < s.logged.length →
      s.position s.klog ≤ q → ∃ u c', (q, c') ∈ s.unstored u
  | .round => s.TakesReleased s.klog.skip.2
  | _ => True

end LogThreads

/-- Runs in which each step meets the condition `Ok`. -/
inductive LogThreadsRun (Ok : LogThreads → LogStep → Prop) (memory : ℕ → LogEntry) : LogThreads → Prop
  | init : LogThreadsRun Ok memory (.init memory)
  | step {s s' : LogThreads} (h : LogThreadsRun Ok memory s) (a : LogStep) (hok : Ok s a) (hs : s.step a = some s') :
      LogThreadsRun Ok memory s'

namespace LogThreads
variable {s s' : LogThreads}

attribute [local irreducible] sub64

/-- Of the last 4096 positions, those that the reader has still to come to and whose character is
stored have it in their slot. -/
structure Invariant (s : LogThreads) : Prop where
  head : s.klog.head = s.logged.length % 2 ^ 64
  tail : s.klog.tail < 2 ^ 64
  backlog : sub64 s.klog.head s.klog.tail ≤ s.logged.length
  writing : ∀ t p c, (p, c) ∈ s.writing t → s.logged[p]? = some c
  slots : ∀ p c, s.logged[p]? = some c → s.position s.klog ≤ p → s.logged.length ≤ p + klogBufMax →
    (∀ t c', (p, c') ∉ s.unstored t) → (s.klog.buffer (p % klogBufMax)).c = c
  passed : ∀ x ∈ s.output, x.1 < s.position s.klog
  faithful : s.Faithful

theorem init_invariant (memory : ℕ → LogEntry) : (init memory).Invariant := by
  have hempty : sub64 0 0 ≤ 0 := by
    unfold sub64
    omega
  have h0 : (0 : ℕ) < 2 ^ 64 := by decide
  refine ⟨rfl, h0, hempty, fun t p c hp => absurd hp List.not_mem_nil, fun p c hp => ?_, fun x hx => absurd hx List.not_mem_nil,
    ⟨fun x hx => absurd hx List.not_mem_nil, List.nodup_nil⟩⟩
  exact absurd hp (by simp [init])

/-- A thread that is not writing goes on with a claim. -/
theorem step_idle {a : LogStep} {t : ℕ} (hs : s.step a = some s') (ha : ∀ text, a ≠ .claim t text)
    (hidle : s.writing t = []) : s'.writing t = [] := by
  cases a with
  | claim u text =>
    have hut : t ≠ u := fun he => ha text (he ▸ rfl)
    simp only [step] at hs
    split_ifs at hs
    obtain rfl := Option.some.inj hs
    exact (Function.update_of_ne hut ..).trans hidle
  | storeChar u =>
    simp only [step] at hs
    split at hs
    · obtain rfl := Option.some.inj hs
      exact hidle
    · exact nomatch hs
  | release u =>
    simp only [step] at hs
    split at hs
    · rename_i hw _
      have hut : t ≠ u := fun he => by
        rw [he, hw] at hidle
        exact nomatch hidle
      obtain rfl := Option.some.inj hs
      exact (Function.update_of_ne hut ..).trans hidle
    · exact nomatch hs
  | round =>
    obtain rfl : s.read s.klog.skip.2 = s' := Option.some.inj hs
    exact hidle

theorem unstored_sub (s : LogThreads) (t : ℕ) : ∀ x ∈ s.unstored t, x ∈ s.writing t := by
  intro x hx
  unfold unstored at hx
  split_ifs at hx
  · exact List.mem_of_mem_tail hx
  · exact hx

theorem Invariant.claim (h : s.Invariant) {t : ℕ} {text : List UInt8} (hs : s.step (.claim t text) = some s') :
    s'.Invariant := by
  simp only [step] at hs
  split_ifs at hs with hc
  obtain rfl := Option.some.inj hs
  obtain ⟨hnone, -⟩ := hc
  generalize text.take klogBufMax = w
  have hhead := h.head
  have htail := h.tail
  have hback := h.backlog
  have hmono : s.logged.length - sub64 s.klog.head s.klog.tail ≤
      (s.logged ++ w).length - sub64 ((s.klog.head + w.length) % 2 ^ 64) s.klog.tail ∧
      sub64 ((s.klog.head + w.length) % 2 ^ 64) s.klog.tail ≤ (s.logged ++ w).length := by
    rw [List.length_append]
    unfold sub64 at hback ⊢
    omega
  -- the thread had nothing to store, so the others have what they had
  have hunstored : ∀ u, (s.unstored u).Sublist (LogThreads.unstored { s with
        klog := (s.klog.claim w.length).2, logged := s.logged ++ w
        writing := Function.update s.writing t (w.mapIdx fun i c => (s.logged.length + i, c))
        stored := Function.update s.stored t false } u) := by
    intro u
    unfold unstored
    by_cases hu : u = t
    · subst hu
      rw [hnone]
      simp
    · simp only [Function.update_of_ne hu]
      exact List.Sublist.refl _
  refine ⟨?_, htail, hmono.2, fun u p c hp => ?_, fun p c hp hpos hlap hstored => ?_, fun x hx => ?_, ⟨?_, h.faithful.once⟩⟩
  · rw [List.length_append]
    simp only [Klog.claim]
    omega
  · by_cases hu : u = t
    · subst hu
      simp only [Function.update_self] at hp
      obtain ⟨i, hi, he⟩ := List.mem_mapIdx.mp hp
      obtain ⟨rfl, rfl⟩ := Prod.mk.inj he
      rw [List.getElem?_append_right (by omega)]
      simp [hi]
    · simp only [Function.update_of_ne hu] at hp
      have hold := h.writing u p c hp
      rw [List.getElem?_append_left (List.getElem?_eq_some_iff.mp hold).1]
      exact hold
  · by_cases hnew : p < s.logged.length
    · rw [List.getElem?_append_left hnew] at hp
      rw [List.length_append] at hlap
      refine h.slots p c hp (hmono.1.trans hpos) (by omega) fun u c' hm => ?_
      exact hstored u c' ((hunstored u).mem hm)
    · -- a position that was claimed now is not stored
      have hlt := (List.getElem?_eq_some_iff.mp hp).1
      rw [List.length_append] at hlt
      refine absurd ?_ (hstored t (w[p - s.logged.length]))
      simp only [unstored, Function.update_self]
      exact List.mem_mapIdx.mpr ⟨p - s.logged.length, by omega, by simp; omega⟩
  · exact (h.passed x hx).trans_le hmono.1
  · intro x hx
    have hold := h.faithful.logged x hx
    rw [List.getElem?_append_left (List.getElem?_eq_some_iff.mp hold).1]
    exact hold

theorem Invariant.storeChar (h : s.Invariant) {t : ℕ} (hok : s.Timely (.storeChar t))
    (hs : s.step (.storeChar t) = some s') : s'.Invariant := by
  simp only [step] at hs
  cases hw : s.writing t with
  | nil => simp [hw] at hs
  | cons x rest =>
    obtain ⟨p, c⟩ := x
    cases hst : s.stored t with
    | true => simp [hw, hst] at hs
    | false =>
      rw [hw, hst] at hs
      obtain rfl := Option.some.inj hs
      have hlogged := h.writing t p c (hw ▸ List.mem_cons_self)
      refine ⟨h.head, h.tail, h.backlog, h.writing, fun q d hq hpos hlap hstored => ?_, h.passed,
        ⟨h.faithful.logged, h.faithful.once⟩⟩
      have hslot : p % 2 ^ 64 % klogBufMax = p % klogBufMax := by
        unfold klogBufMax
        omega
      by_cases hqp : q = p
      · subst hqp
        obtain rfl := Option.some.inj (hlogged.symm.trans hq)
        simp only [Klog.storeChar, hslot, Function.update_self]
      · -- another position was stored before
        have hbefore : ∀ u c', (q, c') ∉ s.unstored u := by
          intro u c' hm
          refine hstored u c' ?_
          by_cases hu : u = t
          · subst hu
            simp only [unstored, hst, hw, Function.update_self, if_true, List.tail_cons] at hm ⊢
            rcases List.mem_cons.mp hm with he | hm
            · exact absurd (Prod.mk.inj he).1 hqp
            · exact hm
          · simp only [unstored, Function.update_of_ne hu] at hm ⊢
            exact hm
        have hne : q % klogBufMax ≠ p % klogBufMax := by
          intro he
          have hlt := (List.getElem?_eq_some_iff.mp hq).1
          have hplt := (List.getElem?_eq_some_iff.mp hlogged).1
          have hlap' : s.logged.length ≤ q + klogBufMax := hlap
          have hlater : p < q := by
            unfold klogBufMax at he hlap'
            omega
          obtain ⟨u, c', hm⟩ := hok p c rest hw q hlater he hlt hpos
          exact hbefore u c' hm
        have hold := h.slots q d hq hpos hlap hbefore
        simp only [Klog.storeChar, hslot, Function.update_of_ne hne]
        exact hold

theorem Invariant.release (h : s.Invariant) {t : ℕ} (hs : s.step (.release t) = some s') : s'.Invariant := by
  simp only [step] at hs
  cases hw : s.writing t with
  | nil => simp [hw] at hs
  | cons x rest =>
    obtain ⟨p, c⟩ := x
    cases hst : s.stored t with
    | false => simp [hw, hst] at hs
    | true =>
      rw [hw, hst] at hs
      obtain rfl := Option.some.inj hs
      refine ⟨h.head, h.tail, h.backlog, fun u q d hq => ?_, fun q d hq hpos hlap hstored => ?_, h.passed,
        ⟨h.faithful.logged, h.faithful.once⟩⟩
      · by_cases hu : u = t
        · subst hu
          simp only [Function.update_self] at hq
          exact h.writing u q d (hw ▸ List.mem_cons_of_mem _ hq)
        · simp only [Function.update_of_ne hu] at hq
          exact h.writing u q d hq
      · have hbefore : ∀ u c', (q, c') ∉ s.unstored u := by
          intro u c' hm
          refine hstored u c' ?_
          by_cases hu : u = t
          · subst hu
            simpa [unstored, hst, hw] using hm
          · simp only [unstored, Function.update_of_ne hu] at hm ⊢
            exact hm
        have hold := h.slots q d hq hpos hlap hbefore
        simp only [Klog.setReady]
        by_cases he : q % klogBufMax = p % 2 ^ 64 % klogBufMax
        · rw [he, Function.update_self, ← he]
          exact hold
        · rw [Function.update_of_ne he]
          exact hold

/-- The reader may go on from a later position. -/
theorem Invariant.advance (h : s.Invariant) {k : Klog} (hchars : ∀ q, (k.buffer q).c = (s.klog.buffer q).c)
    (hhead : k.head = s.klog.head) (htail : k.tail < 2 ^ 64)
    (hle : sub64 k.head k.tail ≤ sub64 s.klog.head s.klog.tail) :
    ({ s with klog := k } : LogThreads).Invariant := by
  have hback := h.backlog
  have hmono : s.position s.klog ≤ s.position k := by
    unfold position
    omega
  refine ⟨hhead.trans h.head, htail, hle.trans hback, h.writing, fun p c hp hpos hlap hstored => ?_, fun x hx => ?_,
    ⟨h.faithful.logged, h.faithful.once⟩⟩
  · rw [hchars]
    exact h.slots p c hp (le_trans hmono hpos) hlap hstored
  · exact lt_of_lt_of_le (h.passed x hx) hmono

/-- The skipped positions are behind the tail. -/
theorem Invariant.skip (h : s.Invariant) :
    ({ s with klog := s.klog.skip.2 } : LogThreads).Invariant ∧
      sub64 s.klog.skip.2.head s.klog.skip.2.tail ≤ klogBufMax := by
  have hhead := h.head
  have htail := h.tail
  by_cases hlap : klogBufMax < sub64 s.klog.head s.klog.tail
  · obtain ⟨k, hk, hskip⟩ : ∃ k : Klog, k = { s.klog with tail := sub64 s.klog.head klogBufMax } ∧ s.klog.skip.2 = k := by
      refine ⟨_, rfl, ?_⟩
      rw [Klog.skip, if_pos hlap]
    have hfields : k.buffer = s.klog.buffer ∧ k.head = s.klog.head ∧ k.tail = sub64 s.klog.head klogBufMax := by
      rw [hk]
      exact ⟨rfl, rfl, rfl⟩
    have hlt : sub64 s.klog.head klogBufMax < 2 ^ 64 := by
      unfold sub64
      omega
    have hsub : sub64 k.head k.tail = klogBufMax := by
      rw [hfields.2.1, hfields.2.2]
      unfold sub64 klogBufMax
      omega
    rw [hskip]
    refine ⟨h.advance (fun q => by rw [hfields.1]) hfields.2.1 ?_ ?_, hsub.le⟩
    · rw [hfields.2.2]
      exact hlt
    · rw [hsub]
      exact hlap.le
  · have hskip : s.klog.skip = ([], s.klog) := by
      rw [Klog.skip, if_neg hlap]
    rw [hskip]
    exact ⟨h, not_lt.mp hlap⟩

/-- A character is output for a position that the tail has left. -/
theorem Invariant.output (h : s.Invariant) {p : ℕ} {c : UInt8} (hlogged : s.logged[p]? = some c)
    (hlt : p < s.position s.klog) (hnew : ∀ x ∈ s.output, x.1 < p) :
    ({ s with output := (p, c) :: s.output } : LogThreads).Invariant := by
  refine ⟨h.head, h.tail, h.backlog, h.writing, h.slots, fun x hx => ?_, ⟨fun x hx => ?_, ?_⟩⟩
  · rcases List.mem_cons.mp hx with rfl | hx
    · exact hlt
    · exact h.passed x hx
  · rcases List.mem_cons.mp hx with rfl | hx
    · exact hlogged
    · exact h.faithful.logged x hx
  · refine List.nodup_cons.mpr ⟨fun hm => ?_, h.faithful.once⟩
    obtain ⟨x, hx, he⟩ := List.mem_map.mp hm
    exact absurd he (ne_of_lt (hnew x hx))

theorem Invariant.read {k : Klog} (h₁ : ({ s with klog := k } : LogThreads).Invariant)
    (hfit : sub64 k.head k.tail ≤ klogBufMax) (htakes : s.TakesReleased k) : (s.read k).Invariant := by
  have hhead : k.head = s.logged.length % 2 ^ 64 := h₁.head
  have htail : k.tail < 2 ^ 64 := h₁.tail
  have hback : sub64 k.head k.tail ≤ s.logged.length := h₁.backlog
  have hchars := h₁.slots
  have hpassed : ∀ x ∈ s.output, x.1 < s.position k := h₁.passed
  rcases k.take_cases with htake | ⟨hempty, hready, k', htake, hhead', htail', hsame⟩
  · have hread : s.read k = { s with klog := k } := by
      rw [LogThreads.read, htake]
      rfl
    rw [hread]
    exact h₁
  -- the position is released, so its character is stored
  have hlt : s.position k < s.logged.length := by
    unfold position
    unfold sub64 at hback ⊢
    omega
  have hslot : s.position k % klogBufMax = k.tail % klogBufMax := by
    unfold position
    unfold sub64 at hback ⊢
    unfold klogBufMax
    omega
  have hchar : (k.buffer (s.position k % klogBufMax)).c = s.logged[s.position k] := by
    refine hchars (s.position k) _ (List.getElem?_eq_getElem hlt) le_rfl ?_ fun t c' hm => ?_
    · change s.logged.length ≤ s.position k + klogBufMax
      unfold position
      omega
    · exact htakes hempty hready t c' (unstored_sub _ _ _ hm)
  have hnext : sub64 k'.head k'.tail + 1 = sub64 k.head k.tail := by
    rw [hhead', htail']
    unfold sub64
    omega
  have hread : s.read k = { s with klog := k', output := (s.position k, s.logged[s.position k]) :: s.output } := by
    rw [LogThreads.read, htake, ← hchar, hslot]
    rfl
  rw [hread]
  have h₂ : ({ s with klog := k' } : LogThreads).Invariant := by
    refine h₁.advance hsame hhead' ?_ ?_
    · rw [htail']
      exact Nat.mod_lt _ (by decide)
    · exact (Nat.le_succ _).trans hnext.le
  refine h₂.output (List.getElem?_eq_getElem hlt) ?_ hpassed
  change s.position k < s.position k'
  unfold position
  omega

theorem Invariant.round (h : s.Invariant) (hok : s.Timely .round) (hs : s.step .round = some s') : s'.Invariant := by
  obtain ⟨h₁, hfit⟩ := h.skip
  have heq : s.read s.klog.skip.2 = s' := Option.some.inj hs
  rw [← heq]
  exact h₁.read hfit hok

end LogThreads

theorem LogThreadsRun.invariant {memory : ℕ → LogEntry} {s : LogThreads}
    (h : LogThreadsRun LogThreads.Timely memory s) : s.Invariant := by
  induction h with
  | init => exact LogThreads.init_invariant memory
  | step _ a hok hs ih =>
    cases a with
    | claim t text => exact ih.claim hs
    | storeChar t => exact ih.storeChar hok hs
    | release t => exact ih.release hs
    | round => exact ih.round hok hs

/-- As long as each store and each bit of `ready` is taken for the position that it is for, the
reader shows what was logged. -/
theorem log_faithful_of_timely {memory : ℕ → LogEntry} {s : LogThreads}
    (h : LogThreadsRun LogThreads.Timely memory s) : s.Faithful := h.invariant.faithful

namespace LogStep

/-- Only the first `n` threads take a part. -/
def Among (n : ℕ) : LogStep → Prop
  | claim t _ => t < n
  | storeChar t => t < n
  | release t => t < n
  | round => True

instance (n : ℕ) : (a : LogStep) → Decidable (a.Among n)
  | claim t _ => inferInstanceAs (Decidable (t < n))
  | storeChar t => inferInstanceAs (Decidable (t < n))
  | release t => inferInstanceAs (Decidable (t < n))
  | round => .isTrue trivial

end LogStep

namespace LogThreads
variable {s s' : LogThreads} {n : ℕ}

/-- `Timely` for the first `n` threads, as long as the log has not come round. -/
def Early (n : ℕ) (s : LogThreads) : LogStep → Prop
  | .storeChar _ => s.logged.length ≤ klogBufMax
  | .round => (s.klog.skip.2.buffer (s.klog.skip.2.tail % klogBufMax)).ready ≠ 0 →
      ∀ t < n, ∀ x ∈ s.writing t, x.1 ≠ s.position s.klog.skip.2
  | _ => True

instance (n : ℕ) (s : LogThreads) : (a : LogStep) → Decidable (s.Early n a)
  | .storeChar _ => inferInstanceAs (Decidable (s.logged.length ≤ klogBufMax))
  | .round => inferInstanceAs (Decidable ((s.klog.skip.2.buffer (s.klog.skip.2.tail % klogBufMax)).ready ≠ 0 →
      ∀ t < n, ∀ x ∈ s.writing t, x.1 ≠ s.position s.klog.skip.2))
  | .claim .. | .release _ => .isTrue trivial

theorem Early.timely {a : LogStep} (h : s.Early n a) (hidle : ∀ t, n ≤ t → s.writing t = []) : s.Timely a := by
  cases a with
  | claim t text => trivial
  | release t => trivial
  | storeChar t =>
    have hlen : s.logged.length ≤ klogBufMax := h
    exact fun p c rest _ q hpq hmod hq => by
      have : p % klogBufMax = p ∧ q % klogBufMax = q := ⟨Nat.mod_eq_of_lt (by omega), Nat.mod_eq_of_lt (by omega)⟩
      omega
  | round =>
    intro _ hready t c hm
    by_cases ht : t < n
    · exact h hready t ht _ hm rfl
    · rw [hidle t (not_lt.mp ht)] at hm
      exact List.not_mem_nil hm

/-- The steps one after the other, each of them early and of one of the first `n` threads. -/
def runAll (n : ℕ) : List LogStep → LogThreads → Option LogThreads
  | [], s => some s
  | a :: l, s => if a.Among n ∧ s.Early n a then (s.step a).bind (runAll n l) else none

theorem run_of_runAll {memory : ℕ → LogEntry} {l : List LogStep} (h : LogThreadsRun Timely memory s)
    (hidle : ∀ t, n ≤ t → s.writing t = []) (hr : s.runAll n l = some s') : LogThreadsRun Timely memory s' := by
  induction l generalizing s with
  | nil =>
    obtain rfl := Option.some.inj hr
    exact h
  | cons a l ih =>
    rw [runAll] at hr
    split_ifs at hr with hok
    obtain ⟨s₁, hs, hrest⟩ := Option.bind_eq_some_iff.mp hr
    refine ih (h.step a (hok.2.timely hidle) hs) (fun t ht => ?_) hrest
    refine step_idle hs (fun text he => ?_) (hidle t ht)
    have hlt := hok.1
    rw [he] at hlt
    exact absurd hlt (not_lt.mpr ht)

end LogThreads

/-- Two threads at a time: the second stores and releases its character before the first has stored one. -/
theorem log_faithful_of_timely_two : ∃ s : LogThreads, LogThreadsRun LogThreads.Timely (fun _ => ⟨0, 0⟩) s ∧
    s.output = [(2, 0x63), (1, 0x62), (0, 0x61)] ∧ s.Faithful := by
  have hrun : ((LogThreads.init fun _ => ⟨0, 0⟩).runAll 2 [.claim 0 [0x61, 0x62], .claim 1 [0x63], .storeChar 1,
      .release 1, .round, .storeChar 0, .release 0, .round, .storeChar 0, .release 0, .round, .round]).map (·.output) =
      some [(2, 0x63), (1, 0x62), (0, 0x61)] := by
    decide +kernel
  obtain ⟨s, hs, hout⟩ := Option.map_eq_some_iff.mp hrun
  have h := LogThreads.run_of_runAll .init (fun _ _ => rfl) hs
  exact ⟨s, h, hout, log_faithful_of_timely h⟩

/-- A bit of `ready` in the memory from `kmalloc` shows a character before one is stored. -/
theorem log_shows_leftover :
    ¬∀ (memory : ℕ → LogEntry) (s : LogThreads), LogThreadsRun (fun _ _ => True) memory s → s.Faithful := by
  intro h
  have hrun : (((LogThreads.init fun _ => ⟨0x58, 1⟩).step (.claim 0 [0x61])).bind fun s₁ =>
      (s₁.step .round).map fun s₂ => (s₂.logged, s₂.output)) = some ([0x61], [(0, 0x58)]) := by
    decide +kernel
  obtain ⟨s₁, hs₁, hrun⟩ := Option.bind_eq_some_iff.mp hrun
  obtain ⟨s₂, hs₂, heq⟩ := Option.map_eq_some_iff.mp hrun
  obtain ⟨hlogged, hout⟩ := Prod.mk.inj heq
  have hfaithful := h _ s₂ ((LogThreadsRun.init.step _ trivial hs₁).step _ trivial hs₂)
  have hshown := hfaithful.logged (0, 0x58) (by rw [hout]; exact List.mem_singleton_self _)
  rw [hlogged] at hshown
  exact absurd hshown (by decide)

end PointerOS
