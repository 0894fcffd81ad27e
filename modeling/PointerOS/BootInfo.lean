import PointerOS.ByteMemory

/-!
# The boot information block

The loader leaves a list of tags in memory, each with a type and a size and
aligned to 8 bytes, closed by a tag of type 0. Every consumer walks it with the
same loop, here `forTags`. A walk that meets no closing tag never ends; one that
ends has gone through a `TagList`.
-/
namespace PointerOS
open ByteMemory

abbrev kernelOffset : ℕ := 0xFFFFFFFF80000000

/-- What the loader hands over: memory as the kernel maps it, and the physical
address of the block, an `unsigned int`. -/
structure BootInfo where
  mem : Memory
  addr : ℕ

namespace BootInfo

def virtBootInfo (b : BootInfo) : ℕ := (b.addr + kernelOffset) % 2 ^ 64
def totalSize (b : BootInfo) : ℕ := load32 b.mem b.virtBootInfo
def firstTag (b : BootInfo) : ℕ := (b.virtBootInfo + 8) % 2 ^ 64

end BootInfo

/-! ## Tags -/

abbrev multibootTagTypeEnd : ℕ := 0
abbrev multibootTagTypeModule : ℕ := 3
abbrev multibootTagTypeMmap : ℕ := 6
abbrev multibootMemoryAvailable : ℕ := 1

def tagType (mem : Memory) (tag : ℕ) : ℕ := load32 mem tag
def tagSize (mem : Memory) (tag : ℕ) : ℕ := load32 mem (tag + 4)

/-- `(tag + tag->size + 7) & ~7` -/
def nextTag (mem : Memory) (tag : ℕ) : ℕ := (tag + tagSize mem tag + 7) % 2 ^ 64 / 8 * 8

def modStart (mem : Memory) (tag : ℕ) : ℕ := load32 mem (tag + 8)
def modEnd (mem : Memory) (tag : ℕ) : ℕ := load32 mem (tag + 12)

/-- `multiboot_mmap_entry`. -/
structure MmapEntry where
  addr : ℕ
  len : ℕ
  type : ℕ
  deriving DecidableEq, Repr

/-- `entries[i]`, laid out by the size of the structure and not by `entry_size`. -/
def mmapEntry (mem : Memory) (tag i : ℕ) : MmapEntry :=
  let e := tag + 16 + 24 * i
  ⟨load64 mem e, load64 mem (e + 8), load32 mem (e + 16)⟩

/-- The entries of a memory map tag; an `entry_size` of zero divides by zero. -/
def mmapEntries (mem : Memory) (tag : ℕ) : Option (List MmapEntry) :=
  if load32 mem (tag + 8) = 0 then none
  else some ((List.range ((tagSize mem tag + 2 ^ 64 - 16) % 2 ^ 64 / load32 mem (tag + 8))).map
    (mmapEntry mem tag))

/-- `while (tag->type != MULTIBOOT_TAG_TYPE_END) { body; tag = next; }` for at most
`n` turns. -/
def forTags {σ : Type*} (mem : Memory) (body : σ → ℕ → Option σ) : ℕ → ℕ → σ → Option σ
  | 0, _, _ => none
  | n + 1, tag, st =>
    if tagType mem tag = multibootTagTypeEnd then some st
    else (body st tag).bind (forTags mem body n (nextTag mem tag))

/-- Tags are 8-byte aligned after the first, so a walk that ends takes fewer turns. -/
def tagTurns : ℕ := 2 ^ 62

/-- The tags from `tag` up to the closing one. -/
def TagList (mem : Memory) : ℕ → List ℕ → Prop
  | tag, [] => tagType mem tag = multibootTagTypeEnd
  | tag, t :: ts => t = tag ∧ tagType mem tag ≠ multibootTagTypeEnd ∧ TagList mem (nextTag mem tag) ts

/-- A walk that ends has folded its body over the tags. -/
theorem forTags_eq_foldlM {σ : Type*} {mem : Memory} {body : σ → ℕ → Option σ} (n tag : ℕ) {st r : σ}
    (h : forTags mem body n tag st = some r) :
    ∃ ts, TagList mem tag ts ∧ ts.foldlM body st = some r := by
  induction n generalizing tag st with
  | zero => cases h
  | succ n ih =>
    rw [forTags] at h
    split_ifs at h with hend
    · exact ⟨[], hend, h⟩
    · obtain ⟨st', hst, hrest⟩ := Option.bind_eq_some_iff.mp h
      obtain ⟨ts, hts, hfold⟩ := ih (nextTag mem tag) hrest
      refine ⟨tag :: ts, ⟨rfl, hend, hts⟩, ?_⟩
      rw [List.foldlM_cons, hst]
      exact hfold

theorem TagList.unique {mem : Memory} {tag : ℕ} {ts us : List ℕ} (ht : TagList mem tag ts)
    (hu : TagList mem tag us) : ts = us := by
  induction ts generalizing tag us with
  | nil =>
    cases us with
    | nil => rfl
    | cons u us => exact absurd ht hu.2.1
  | cons t ts ih =>
    cases us with
    | nil => exact absurd hu ht.2.1
    | cons u us =>
      obtain ⟨rfl, _, ht⟩ := ht
      obtain ⟨rfl, _, hu⟩ := hu
      rw [ih ht hu]

section Tags
variable {mem : Memory} {tag t : ℕ} {ts : List ℕ}

/-- From each tag the rest of the list goes on. -/
theorem TagList.rest (h : TagList mem tag ts) (ht : t ∈ ts) : ∃ us, TagList mem t us ∧ us.length ≤ ts.length := by
  induction ts generalizing tag with
  | nil => exact absurd ht List.not_mem_nil
  | cons u ts ih =>
    obtain ⟨rfl, hend, hrest⟩ := h
    rcases List.mem_cons.mp ht with rfl | ht
    · exact ⟨t :: ts, ⟨rfl, hend, hrest⟩, le_rfl⟩
    · obtain ⟨us, hus, hlen⟩ := ih hrest ht
      exact ⟨us, hus, hlen.trans (Nat.le_succ _)⟩

/-- A tag that came twice would come again and again. -/
theorem TagList.nodup (h : TagList mem tag ts) : ts.Nodup := by
  induction ts generalizing tag with
  | nil => exact .nil
  | cons t ts ih =>
    obtain ⟨rfl, hend, hrest⟩ := h
    refine List.nodup_cons.mpr ⟨fun ht => ?_, ih hrest⟩
    obtain ⟨us, hus, hlen⟩ := hrest.rest ht
    have heq : t :: ts = us := TagList.unique ⟨rfl, hend, hrest⟩ hus
    rw [← heq, List.length_cons] at hlen
    omega

theorem TagList.aligned (h : TagList mem (nextTag mem tag) ts) (ht : t ∈ ts) : t % 8 = 0 ∧ t < 2 ^ 64 := by
  induction ts generalizing tag with
  | nil => exact absurd ht List.not_mem_nil
  | cons u ts ih =>
    obtain ⟨rfl, -, hrest⟩ := h
    rcases List.mem_cons.mp ht with rfl | ht
    · unfold nextTag
      omega
    · exact ih hrest ht

/-- The tags after the first lie on different multiples of 8. -/
theorem TagList.length_lt (h : TagList mem tag ts) : ts.length < tagTurns := by
  cases ts with
  | nil => decide
  | cons u ts =>
    have hrest := h.2.2
    have hsub : ts ⊆ (List.range (2 ^ 61)).map (8 * ·) := by
      intro t ht
      obtain ⟨h8, hlt⟩ := hrest.aligned ht
      exact List.mem_map.mpr ⟨t / 8, List.mem_range.mpr (by omega), by omega⟩
    have hlen := (hrest.nodup.subperm hsub).length_le
    rw [List.length_map, List.length_range] at hlen
    have hturns : tagTurns = 2 ^ 62 := rfl
    rw [List.length_cons]
    omega

/-- A body that always goes on is folded over the tags. -/
theorem forTags_some {σ : Type*} (f : σ → ℕ → σ) {n : ℕ} (st : σ) (h : TagList mem tag ts) (hn : ts.length < n) :
    forTags mem (fun st tag => some (f st tag)) n tag st = some (ts.foldl f st) := by
  induction ts generalizing tag st n with
  | nil =>
    obtain ⟨n, rfl⟩ := Nat.exists_eq_add_of_lt hn
    exact if_pos h
  | cons u ts ih =>
    cases n with
    | zero => exact absurd hn (Nat.not_lt_zero _)
    | succ n =>
      obtain ⟨rfl, hend, hrest⟩ := h
      rw [forTags, if_neg hend, Option.bind_some]
      exact ih (f st u) hrest (Nat.lt_of_succ_lt_succ hn)

/-- A body that goes on at every tag reaches the closing one. -/
theorem forTags_ends {σ : Type*} {body : σ → ℕ → Option σ} {n : ℕ} (st : σ) (h : TagList mem tag ts) (hn : ts.length < n)
    (hbody : ∀ st, ∀ t ∈ ts, ∃ st', body st t = some st') : ∃ r, forTags mem body n tag st = some r := by
  induction ts generalizing tag st n with
  | nil =>
    obtain ⟨n, rfl⟩ := Nat.exists_eq_add_of_lt hn
    exact ⟨st, if_pos h⟩
  | cons u ts ih =>
    cases n with
    | zero => exact absurd hn (Nat.not_lt_zero _)
    | succ n =>
      obtain ⟨rfl, hend, hrest⟩ := h
      obtain ⟨st', hst⟩ := hbody st u List.mem_cons_self
      rw [forTags, if_neg hend, hst, Option.bind_some]
      exact ih st' hrest (Nat.lt_of_succ_lt_succ hn) fun st t ht => hbody st t (List.mem_cons_of_mem u ht)

end Tags

namespace BootInfo

def IsTag (b : BootInfo) (t : ℕ) : Prop := ∃ ts, TagList b.mem b.firstTag ts ∧ t ∈ ts

/-- An entry of a memory map of the block. -/
def IsEntry (b : BootInfo) (e : MmapEntry) : Prop :=
  ∃ t, b.IsTag t ∧ tagType b.mem t = multibootTagTypeMmap ∧
    ∃ es, mmapEntries b.mem t = some es ∧ e ∈ es

/-- The physical bytes of the block itself and of the boot modules. -/
def data (b : BootInfo) : Set ℕ :=
  {a | (b.addr ≤ a ∧ a < b.addr + b.totalSize) ∨
    ∃ t, b.IsTag t ∧ tagType b.mem t = multibootTagTypeModule ∧ modStart b.mem t ≤ a ∧ a < modEnd b.mem t}

end BootInfo

end PointerOS
