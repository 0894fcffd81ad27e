import PointerOS.BootInfo
import PointerOS.MappingLaw

/-!
# The ramdisk module

`parse_ramdisk` walks the tags with a loop of its own. It returns from the first module, whatever its
name is, and takes the size of the tag for the size of the module.
-/
namespace PointerOS
open ByteMemory

/-- `memcmp` of the bytes at `p` with `s`. -/
def memcmp (mem : Memory) (p : ℕ) : List UInt8 → ℤ
  | [] => 0
  | c :: s => if mem p ≠ c then if mem p < c then -1 else 1 else memcmp mem (p + 1) s

/-- "ramdisk" -/
def ramdiskName : List UInt8 := [0x72, 0x61, 0x6D, 0x64, 0x69, 0x73, 0x6B]

/-- `ramdisk_t`, where `stop` is its field `end`. -/
structure Ramdisk where
  type : ℕ
  size : ℕ
  start : ℕ
  stop : ℕ
deriving DecidableEq

/-- A call that ends: with the contents of `ramdisk`, or in the endless loop after the message. -/
inductive RamdiskCall
  | returned (ramdisk : Ramdisk)
  | stuck
deriving DecidableEq

namespace BootInfo

/-- `module->cmdline` -/
def cmdline (tag : ℕ) : ℕ := tag + 16

/-- What is stored of a module. -/
def moduleRamdisk (mem : Memory) (tag : ℕ) : Ramdisk where
  type := tagType mem tag
  size := tagSize mem tag
  start := (modStart mem tag + directOffset) % 2 ^ 64
  stop := (modEnd mem tag + directOffset) % 2 ^ 64

/-- The loop from `tag` on, for at most `n` turns. -/
def parseRamdiskFrom (mem : Memory) (ramdisk : Ramdisk) : ℕ → ℕ → Option RamdiskCall
  | 0, _ => none
  | n + 1, tag =>
    if tagType mem tag = multibootTagTypeEnd then some .stuck
    else if tagType mem tag = multibootTagTypeModule then
      some (.returned (if memcmp mem (cmdline tag) ramdiskName = 0 then moduleRamdisk mem tag else ramdisk))
    else parseRamdiskFrom mem ramdisk n (nextTag mem tag)

/-- `ramdisk` is zero before the call. -/
def parseRamdisk (b : BootInfo) : Option RamdiskCall :=
  parseRamdiskFrom b.mem ⟨0, 0, 0, 0⟩ tagTurns b.firstTag

end BootInfo

/-! ## The comparison -/

section Compare
variable {mem : Memory} {p : ℕ}

/-- The bytes at `p` start with `s`. -/
def BeginsWith (mem : Memory) (p : ℕ) (s : List UInt8) : Prop := ∀ i < s.length, s[i]? = some (mem (p + i))

theorem memcmp_eq_zero_iff {s : List UInt8} : memcmp mem p s = 0 ↔ BeginsWith mem p s := by
  induction s generalizing p with
  | nil => exact ⟨fun _ i hi => absurd hi (Nat.not_lt_zero i), fun _ => rfl⟩
  | cons c s ih =>
    rw [memcmp]
    constructor
    · intro hm
      by_cases hc : mem p = c
      · rw [if_neg (not_not.mpr hc)] at hm
        intro i hi
        cases i with
        | zero => rw [List.getElem?_cons_zero, Nat.add_zero, hc]
        | succ i =>
          have hi' := ih.mp hm i (Nat.lt_of_succ_lt_succ hi)
          rw [List.getElem?_cons_succ, hi', Nat.add_assoc, Nat.add_comm 1 i]
      · rw [if_pos hc] at hm
        split_ifs at hm
        exact absurd hm (by decide)
    · intro hb
      have h0 := hb 0 (Nat.succ_pos _)
      rw [List.getElem?_cons_zero, Nat.add_zero, Option.some_inj] at h0
      rw [if_neg (not_not.mpr h0.symm)]
      refine ih.mpr fun i hi => ?_
      have hi' := hb (i + 1) (Nat.succ_lt_succ hi)
      rw [List.getElem?_cons_succ] at hi'
      rw [hi', Nat.add_assoc, Nat.add_comm 1 i]

end Compare

/-! ## The module that is found -/

section Find
variable {mem : Memory} {tag t n : ℕ} {ts : List ℕ}

def IsModule (mem : Memory) (t : ℕ) : Prop := tagType mem t = multibootTagTypeModule

/-- The command line begins with "ramdisk". -/
def IsNamedRamdisk (mem : Memory) (t : ℕ) : Prop := BeginsWith mem (BootInfo.cmdline t) ramdiskName

instance (mem : Memory) : DecidablePred (IsModule mem) := fun t =>
  inferInstanceAs (Decidable (tagType mem t = multibootTagTypeModule))

instance (mem : Memory) : DecidablePred (IsNamedRamdisk mem) := fun _ => decidable_of_iff _ memcmp_eq_zero_iff

/-- What the call owes for the tags: the first ramdisk module, or no return. -/
def FindsRamdisk (mem : Memory) (ts : List ℕ) (call : RamdiskCall) : Prop :=
  match ts.find? fun t => IsModule mem t ∧ IsNamedRamdisk mem t with
  | some t => ∃ r, call = .returned r ∧ r.start = modStart mem t + directOffset ∧
      r.stop = modEnd mem t + directOffset ∧ r.start + r.size = r.stop
  | none => call = .stuck

/-- The call looks at the first module only. -/
theorem parseRamdiskFrom_eq (ramdisk : Ramdisk) (h : TagList mem tag ts) (hn : ts.length < n) :
    BootInfo.parseRamdiskFrom mem ramdisk n tag = some (match ts.find? fun t => IsModule mem t with
      | some t => .returned (if memcmp mem (BootInfo.cmdline t) ramdiskName = 0 then BootInfo.moduleRamdisk mem t else ramdisk)
      | none => .stuck) := by
  induction ts generalizing tag n with
  | nil =>
    obtain ⟨n, rfl⟩ := Nat.exists_eq_add_of_lt hn
    exact if_pos h
  | cons t ts ih =>
    cases n with
    | zero => exact absurd hn (Nat.not_lt_zero _)
    | succ n =>
      obtain ⟨rfl, hend, hrest⟩ := h
      rw [BootInfo.parseRamdiskFrom, if_neg hend, List.find?_cons]
      by_cases hm : IsModule mem t
      · rw [decide_eq_true hm]
        exact if_pos hm
      · rw [decide_eq_false hm]
        exact (if_neg hm).trans (ih hrest (Nat.lt_of_succ_lt_succ hn))

/-- A module's addresses after the direct offset is added. -/
theorem moduleRamdisk_bounds (mem : Memory) (t : ℕ) :
    (BootInfo.moduleRamdisk mem t).start = modStart mem t + directOffset ∧
      (BootInfo.moduleRamdisk mem t).stop = modEnd mem t + directOffset := by
  have hstart : modStart mem t < 256 ^ 4 := load_lt mem (t + 8) 4
  have hend : modEnd mem t < 256 ^ 4 := load_lt mem (t + 12) 4
  have hroom : 256 ^ 4 + directOffset < 2 ^ 64 := by decide
  exact ⟨Nat.mod_eq_of_lt (by omega), Nat.mod_eq_of_lt (by omega)⟩

/-- `parse_ramdisk` finds the ramdisk exactly when there is no module, or the first one is the ramdisk and its tag
has the size of the module. -/
theorem parse_ramdisk_finds_iff {b : BootInfo} {ts : List ℕ} (h : TagList b.mem b.firstTag ts) :
    ∃ call, b.parseRamdisk = some call ∧ (FindsRamdisk b.mem ts call ↔
      ∀ t ∈ ts.find? fun t => IsModule b.mem t,
        IsNamedRamdisk b.mem t ∧ modStart b.mem t + tagSize b.mem t = modEnd b.mem t) := by
  refine ⟨_, parseRamdiskFrom_eq ⟨0, 0, 0, 0⟩ h h.length_lt, ?_⟩
  cases hfirst : ts.find? fun t => IsModule b.mem t with
  | none =>
    have hnone : ts.find? (fun t => IsModule b.mem t ∧ IsNamedRamdisk b.mem t) = none := by
      rw [List.find?_eq_none] at hfirst ⊢
      intro t ht hp
      have hmod := hfirst t ht
      simp only [decide_eq_true_eq] at hp hmod
      exact hmod hp.1
    unfold FindsRamdisk
    rw [hnone]
    simp
  | some t =>
    obtain ⟨hmod, before, after, hts, hbefore⟩ := List.find?_eq_some_iff_append.mp hfirst
    have hmod := of_decide_eq_true hmod
    dsimp only
    simp only [Option.mem_def, Option.some_inj, forall_eq']
    unfold FindsRamdisk
    by_cases hnamed : IsNamedRamdisk b.mem t
    · have hfound : ts.find? (fun t => IsModule b.mem t ∧ IsNamedRamdisk b.mem t) = some t := by
        refine List.find?_eq_some_iff_append.mpr ⟨decide_eq_true ⟨hmod, hnamed⟩, before, after, hts, fun u hu => ?_⟩
        have hu := hbefore u hu
        simp only [Bool.not_eq_true', decide_eq_false_iff_not] at hu ⊢
        exact fun hp => hu hp.1
      obtain ⟨hstart, hstop⟩ := moduleRamdisk_bounds b.mem t
      rw [hfound, if_pos (memcmp_eq_zero_iff.mpr hnamed)]
      constructor
      · rintro ⟨r, hr, -, -, hsize⟩
        obtain rfl := RamdiskCall.returned.inj hr
        rw [hstart, hstop] at hsize
        change modStart b.mem t + directOffset + tagSize b.mem t = _ at hsize
        exact ⟨hnamed, by omega⟩
      · rintro ⟨-, hsize⟩
        refine ⟨_, rfl, hstart, hstop, ?_⟩
        rw [hstart, hstop]
        change modStart b.mem t + directOffset + tagSize b.mem t = _
        omega
    · rw [if_neg fun hm => hnamed (memcmp_eq_zero_iff.mp hm)]
      refine iff_of_false ?_ fun hp => hnamed hp.1
      -- another module may be the ramdisk, but nothing was stored
      cases ts.find? fun t => IsModule b.mem t ∧ IsNamedRamdisk b.mem t with
      | none => exact fun hcall => nomatch hcall
      | some u =>
        rintro ⟨r, hr, hstart, -⟩
        obtain rfl := RamdiskCall.returned.inj hr
        have hoffset : 0 < directOffset := by decide
        dsimp only at hstart
        omega

end Find

/-- Two modules of 24 bytes, with the eight bytes of their command lines. -/
def twoModules (first second : ℕ) : BootInfo where
  mem :=
    let tag := kernelOffset + 0x9008
    let m : Memory := store32 (fun _ => 0) tag multibootTagTypeModule
    let m := store32 m (tag + 4) 24
    let m := store32 m (tag + 8) 0x100000
    let m := store32 m (tag + 12) 0x100018
    let m := store64 m (tag + 16) first
    let m := store32 m (tag + 24) multibootTagTypeModule
    let m := store32 m (tag + 28) 24
    let m := store32 m (tag + 32) 0x200000
    let m := store32 m (tag + 36) 0x200018
    store64 m (tag + 40) second
  addr := 0x9000

theorem parse_ramdisk_finds_iff_first : ∃ call, (twoModules 0x6B7369646D6172 0).parseRamdisk = some call ∧
    FindsRamdisk (twoModules 0x6B7369646D6172 0).mem [kernelOffset + 0x9008, kernelOffset + 0x9020] call := by
  have htags : TagList (twoModules 0x6B7369646D6172 0).mem (twoModules 0x6B7369646D6172 0).firstTag
      [kernelOffset + 0x9008, kernelOffset + 0x9020] := by
    refine ⟨rfl, ?_, ?_, ?_, show tagType _ _ = multibootTagTypeEnd from ?_⟩ <;> decide +kernel
  obtain ⟨call, hcall, hiff⟩ := parse_ramdisk_finds_iff htags
  exact ⟨call, hcall, hiff.mpr (by decide +kernel)⟩

/-- With a module in front the ramdisk is not recorded, and the call returns. -/
theorem parse_ramdisk_misses_second : ¬∀ (b : BootInfo) (ts : List ℕ), TagList b.mem b.firstTag ts →
    (∀ t ∈ ts, t % 8 = 0 ∧ 8 ≤ tagSize b.mem t) → ∀ call, b.parseRamdisk = some call → FindsRamdisk b.mem ts call := by
  intro h
  have htags : TagList (twoModules 0 0x6B7369646D6172).mem (twoModules 0 0x6B7369646D6172).firstTag
      [kernelOffset + 0x9008, kernelOffset + 0x9020] := by
    refine ⟨rfl, ?_, ?_, ?_, show tagType _ _ = multibootTagTypeEnd from ?_⟩ <;> decide +kernel
  have hfind := h (twoModules 0 0x6B7369646D6172) _ htags (by decide +kernel) (.returned ⟨0, 0, 0, 0⟩) (by decide +kernel)
  have hfound : [kernelOffset + 0x9008, kernelOffset + 0x9020].find? (fun t =>
      IsModule (twoModules 0 0x6B7369646D6172).mem t ∧ IsNamedRamdisk (twoModules 0 0x6B7369646D6172).mem t) =
        some (kernelOffset + 0x9020) := by
    decide +kernel
  unfold FindsRamdisk at hfind
  rw [hfound] at hfind
  obtain ⟨r, hr, hstart, -⟩ := hfind
  obtain rfl := RamdiskCall.returned.inj hr
  have hoffset : 0 < directOffset := by decide
  dsimp only at hstart
  omega

end PointerOS
