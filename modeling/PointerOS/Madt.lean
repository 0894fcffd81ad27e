import PointerOS.BootInfo
import PointerOS.MappingLaw

/-!
# The MADT and the I/O APIC

`parse_madt` walks the entries of the table by their length bytes. It keeps the address of the last I/O APIC
and the first overrides of interrupt sources, which `get_gsi_for_irq` and `ioapic_set_irq` search later.
The table lies in the direct map, and addresses in it do not wrap.
-/
namespace PointerOS
open ByteMemory

abbrev maxIso : ℕ := 16

/-- `struct MADT_ISO`, 10 bytes. -/
structure MadtIso where
  type : ℕ
  length : ℕ
  busSource : ℕ
  irqSource : ℕ
  gsi : ℕ
  flags : ℕ
  deriving DecidableEq, Repr

/-- The globals of `acpi.c`. -/
structure Acpi where
  lapicPaddr : ℕ
  ioapicPaddr : ℕ
  isoCount : ℕ
  isoList : Fin maxIso → MadtIso
  count_le : isoCount ≤ maxIso

def madtLength (mem : Memory) (madt : ℕ) : ℕ := load32 mem (madt + 4)
def localApicAddress (mem : Memory) (madt : ℕ) : ℕ := load32 mem (madt + 36)

def entryType (mem : Memory) (entry : ℕ) : ℕ := load mem entry 1
def entryLength (mem : Memory) (entry : ℕ) : ℕ := load mem (entry + 1) 1
def ioApicAddress (mem : Memory) (entry : ℕ) : ℕ := load32 mem (entry + 4)

def madtIso (mem : Memory) (entry : ℕ) : MadtIso where
  type := entryType mem entry
  length := entryLength mem entry
  busSource := load mem (entry + 2) 1
  irqSource := load mem (entry + 3) 1
  gsi := load32 mem (entry + 4)
  flags := load mem (entry + 8) 2

/-- A full list only gives a message. -/
def Acpi.saveIso (s : Acpi) (iso : MadtIso) : Acpi :=
  if h : s.isoCount < maxIso then
    { s with
      isoCount := s.isoCount + 1
      isoList := Function.update s.isoList ⟨s.isoCount, h⟩ iso
      count_le := h }
  else s

/-- The bytes of a read. -/
structure Access where
  addr : ℕ
  width : ℕ
  deriving DecidableEq, Repr

/-- The body of the loop, with what it reads; `save_iso` copies its entry only when there is room. -/
def Acpi.parseEntry (mem : Memory) (entry : ℕ) (s : Acpi) : Acpi × List Access :=
  match entryType mem entry with
  | 1 => ({ s with ioapicPaddr := ioApicAddress mem entry }, [⟨entry, 1⟩, ⟨entry + 4, 4⟩, ⟨entry + 1, 1⟩])
  | 2 => (s.saveIso (madtIso mem entry),
      ⟨entry, 1⟩ :: ((if s.isoCount < maxIso then [⟨entry, 10⟩] else []) ++ [⟨entry + 1, 1⟩]))
  | _ => (s, [⟨entry, 1⟩, ⟨entry + 1, 1⟩])

/-- The loop from `ptr` on, or `none` when it is not over after so many turns. -/
def Acpi.parseEntries (mem : Memory) (stop : ℕ) : ℕ → ℕ → Acpi → Option (Acpi × List Access)
  | 0, _, _ => none
  | n + 1, ptr, s =>
    if ptr < stop then
      (parseEntries mem stop n (ptr + entryLength mem ptr) (s.parseEntry mem ptr).1).map fun r =>
        (r.1, (s.parseEntry mem ptr).2 ++ r.2)
    else some (s, [])

/-- `parse_madt`, for so many turns of its loop. -/
def Acpi.parseMadt (mem : Memory) (madt n : ℕ) (s : Acpi) : Option (Acpi × List Access) :=
  (parseEntries mem (madt + madtLength mem madt) n (madt + 44)
    { s with lapicPaddr := localApicAddress mem madt }).map fun r => (r.1, ⟨madt + 4, 4⟩ :: ⟨madt + 36, 4⟩ :: r.2)

/-! ## Staying inside the table -/

/-- The loop ends, and no read reaches beyond the table. -/
def ParsesInside (mem : Memory) (madt : ℕ) (s : Acpi) : Prop :=
  ∃ n r, s.parseMadt mem madt n = some r ∧ ∀ a ∈ r.2, a.addr + a.width ≤ madt + madtLength mem madt

/-- The entries from `ptr` on, one after the other by their length bytes, none of them 0. -/
def EntryList (mem : Memory) (stop : ℕ) : ℕ → List ℕ → Prop
  | ptr, [] => stop ≤ ptr
  | ptr, e :: es => e = ptr ∧ ptr < stop ∧ entryLength mem ptr ≠ 0 ∧ EntryList mem stop (ptr + entryLength mem ptr) es

/-- The room in `iso_list` that an entry leaves. -/
def roomAfter (mem : Memory) (room e : ℕ) : ℕ := if entryType mem e = 2 then room - 1 else room

/-- What is read of each entry lies before `stop`: its type and length, the address of an I/O APIC, and a whole
override while there is room for it. -/
def EntriesFit (mem : Memory) (stop : ℕ) : ℕ → List ℕ → Prop
  | _, [] => True
  | room, e :: es =>
    (e + 2 ≤ stop ∧ (entryType mem e = 1 → e + 8 ≤ stop) ∧ (entryType mem e = 2 → 0 < room → e + 10 ≤ stop)) ∧
      EntriesFit mem stop (roomAfter mem room e) es

namespace Acpi
variable {mem : Memory} {stop ptr madt n : ℕ} {s : Acpi} {es : List ℕ}

theorem saveIso_count (s : Acpi) (iso : MadtIso) : maxIso - (s.saveIso iso).isoCount = maxIso - s.isoCount - 1 := by
  unfold saveIso
  split_ifs with h
  · dsimp only
    omega
  · omega

theorem parseEntry_room (mem : Memory) (e : ℕ) (s : Acpi) :
    maxIso - (s.parseEntry mem e).1.isoCount = roomAfter mem (maxIso - s.isoCount) e := by
  unfold parseEntry roomAfter
  split
  · next h => rw [if_neg (by omega)]
  · next h => rw [if_pos h, saveIso_count]
  · next h => rw [if_neg h]

/-- The reads of a turn lie before `stop` when the entry fits. -/
theorem parseEntry_reads (mem : Memory) (stop e : ℕ) (s : Acpi) :
    (∀ a ∈ (s.parseEntry mem e).2, a.addr + a.width ≤ stop) ↔
      e + 2 ≤ stop ∧ (entryType mem e = 1 → e + 8 ≤ stop) ∧
        (entryType mem e = 2 → 0 < maxIso - s.isoCount → e + 10 ≤ stop) := by
  unfold parseEntry
  split
  · next h =>
    rw [h]
    simp only [List.forall_mem_cons, List.not_mem_nil, false_implies, implies_true, and_true, true_implies]
    omega
  · next h =>
    rw [h]
    split_ifs with hroom
    · simp only [List.forall_mem_cons, List.cons_append, List.nil_append, List.not_mem_nil, false_implies, implies_true,
        and_true, true_implies]
      omega
    · simp only [List.forall_mem_cons, List.nil_append, List.not_mem_nil, false_implies, implies_true, and_true,
        true_implies]
      omega
  · next h1 h2 =>
    have h1 : entryType mem e ≠ 1 := h1
    have h2 : entryType mem e ≠ 2 := h2
    simp only [List.forall_mem_cons, List.not_mem_nil, false_implies, implies_true, and_true]
    omega

theorem parseEntries_stop (h : stop ≤ ptr) (n : ℕ) (s : Acpi) : parseEntries mem stop (n + 1) ptr s = some (s, []) := by
  rw [parseEntries, if_neg (by omega)]

theorem parseEntries_turn (h : ptr < stop) (n : ℕ) (s : Acpi) : parseEntries mem stop (n + 1) ptr s =
    (parseEntries mem stop n (ptr + entryLength mem ptr) (s.parseEntry mem ptr).1).map fun r =>
      (r.1, (s.parseEntry mem ptr).2 ++ r.2) := by
  rw [parseEntries, if_pos h]

/-- A loop that is over has gone through a list of entries. An entry of length 0 would have come again. -/
theorem parseEntries_entries {r : Acpi × List Access} (h : parseEntries mem stop n ptr s = some r) :
    ∃ es, EntryList mem stop ptr es := by
  induction n generalizing ptr s r with
  | zero => exact nomatch h
  | succ n ih =>
    by_cases hlt : ptr < stop
    · rw [parseEntries_turn hlt] at h
      obtain ⟨r', hr, -⟩ := Option.map_eq_some_iff.mp h
      obtain ⟨es, hes⟩ := ih hr
      refine ⟨ptr :: es, rfl, hlt, fun h0 => ?_, hes⟩
      rw [h0, Nat.add_zero] at hes
      cases es with
      | nil => exact absurd hlt (not_lt.mpr hes)
      | cons e es => exact hes.2.2.1 h0
    · exact ⟨[], not_lt.mp hlt⟩

/-- The state after the entries of a list. -/
def parseList (mem : Memory) (s : Acpi) (es : List ℕ) : Acpi := es.foldl (fun s e => (s.parseEntry mem e).1) s

/-- The loop goes through the entries, and reads before `stop` exactly when they fit. -/
theorem parseEntries_list (h : EntryList mem stop ptr es) (hn : es.length < n) : ∃ reads,
    parseEntries mem stop n ptr s = some (s.parseList mem es, reads) ∧
      ((∀ a ∈ reads, a.addr + a.width ≤ stop) ↔ EntriesFit mem stop (maxIso - s.isoCount) es) := by
  induction es generalizing ptr n s with
  | nil =>
    obtain ⟨n, rfl⟩ := Nat.exists_eq_add_of_lt hn
    exact ⟨[], parseEntries_stop h _ s, iff_of_true (List.forall_mem_nil _) trivial⟩
  | cons e es ih =>
    obtain ⟨rfl, hlt, -, hrest⟩ := h
    obtain ⟨n, rfl⟩ : ∃ m, n = m + 1 := ⟨n - 1, by rw [List.length_cons] at hn; omega⟩
    obtain ⟨reads, hrun, hfit⟩ := ih (s := (s.parseEntry mem e).1) hrest (Nat.lt_of_succ_lt_succ hn)
    refine ⟨(s.parseEntry mem e).2 ++ reads, ?_, ?_⟩
    · rw [parseEntries_turn hlt, hrun]
      rfl
    · rw [List.forall_mem_append, parseEntry_reads, hfit, parseEntry_room]
      rfl

theorem parseEntries_unique {n m : ℕ} {r r' : Acpi × List Access} (h : parseEntries mem stop n ptr s = some r)
    (h' : parseEntries mem stop m ptr s = some r') : r = r' := by
  induction n generalizing m ptr s r r' with
  | zero => exact nomatch h
  | succ n ih =>
    cases m with
    | zero => exact nomatch h'
    | succ m =>
      by_cases hlt : ptr < stop
      · rw [parseEntries_turn hlt] at h h'
        obtain ⟨q, hq, rfl⟩ := Option.map_eq_some_iff.mp h
        obtain ⟨q', hq', rfl⟩ := Option.map_eq_some_iff.mp h'
        rw [ih hq hq']
      · rw [parseEntries_stop (not_lt.mp hlt)] at h h'
        exact Option.some.inj (h.symm.trans h')

end Acpi

/-- `parse_madt` ends inside the table exactly when the fixed part is there up to the address of the local APIC, no
entry that it comes to has length 0, and what it reads of each entry lies in the table. -/
theorem parse_madt_inside_iff (mem : Memory) (madt : ℕ) (s : Acpi) : ParsesInside mem madt s ↔
    40 ≤ madtLength mem madt ∧ ∃ es, EntryList mem (madt + madtLength mem madt) (madt + 44) es ∧
      EntriesFit mem (madt + madtLength mem madt) (maxIso - s.isoCount) es := by
  have hhead : ∀ reads : List Access, (∀ a ∈ (⟨madt + 4, 4⟩ :: ⟨madt + 36, 4⟩ :: reads : List Access),
      a.addr + a.width ≤ madt + madtLength mem madt) ↔
        40 ≤ madtLength mem madt ∧ ∀ a ∈ reads, a.addr + a.width ≤ madt + madtLength mem madt := by
    intro reads
    simp only [List.forall_mem_cons]
    rw [← and_assoc]
    exact and_congr_left fun _ => by omega
  constructor
  · rintro ⟨n, r, hrun, hreads⟩
    obtain ⟨q, hq, rfl⟩ := Option.map_eq_some_iff.mp hrun
    obtain ⟨hlen, hreads⟩ := (hhead _).mp hreads
    obtain ⟨es, hes⟩ := Acpi.parseEntries_entries hq
    obtain ⟨reads, hlist, hfit⟩ := Acpi.parseEntries_list hes (Nat.lt_succ_self _)
    rw [Acpi.parseEntries_unique hq hlist] at hreads
    exact ⟨hlen, es, hes, hfit.mp hreads⟩
  · rintro ⟨hlen, es, hes, hfits⟩
    obtain ⟨reads, hlist, hfit⟩ := Acpi.parseEntries_list hes (Nat.lt_succ_self _)
    exact ⟨es.length + 1, _, congrArg _ hlist, (hhead reads).mpr ⟨hlen, hfit.mpr hfits⟩⟩

def Acpi.atBoot : Acpi := ⟨0, 0, 0, fun _ => ⟨0, 0, 0, 0, 0, 0⟩, Nat.zero_le _⟩

/-- A table at `0xE0000` whose one entry has the length 0. -/
def stuckMadt : Memory := store32 (fun _ => 0) (directOffset + 0xE0004) 46

/-- The loop stays at an entry of length 0. -/
theorem parse_madt_stuck : ¬∀ mem madt, 44 ≤ madtLength mem madt → ParsesInside mem madt Acpi.atBoot := by
  intro hall
  have hlen : madtLength stuckMadt (directOffset + 0xE0000) = 46 := by decide +kernel
  have hentry : entryLength stuckMadt (directOffset + 0xE0000 + 44) = 0 := by decide +kernel
  obtain ⟨n, r, hrun, -⟩ := hall stuckMadt (directOffset + 0xE0000) (by omega)
  obtain ⟨q, hq, -⟩ := Option.map_eq_some_iff.mp hrun
  rw [hlen] at hq
  obtain ⟨es, hes⟩ := Acpi.parseEntries_entries hq
  cases es with
  | nil => exact absurd (show directOffset + 0xE0000 + 46 ≤ directOffset + 0xE0000 + 44 from hes) (by omega)
  | cons e es => exact hes.2.2.1 hentry

end PointerOS
