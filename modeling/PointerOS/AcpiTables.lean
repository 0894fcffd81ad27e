import PointerOS.IntLoop
import PointerOS.IoApic
import PointerOS.Ramdisk

/-!
# The way to the MADT

`parse_acpi` takes the first ACPI tag of the boot information, old or new, and goes through the table that its
root pointer names for one with the signature of the MADT. The boot information and all tables are read
through the direct map. Without a tag the pointer passed to `parse_madt` was never set, without a MADT it is
null.
-/
namespace PointerOS
open ByteMemory

def multibootTagTypeAcpiOld : ℕ := 14
def multibootTagTypeAcpiNew : ℕ := 15

/-- "APIC" -/
def apicSignature : List UInt8 := [0x41, 0x50, 0x49, 0x43]

/-- `sizeof(struct ACPISDTHeader)` -/
def sdtHeaderSize : ℕ := 36

def sdtLength (mem : Memory) (sdt : ℕ) : ℕ := load32 mem (sdt + 4)

/-- `entry_size` -/
def sdtEntrySize (isXsdt : Bool) : ℕ := if isXsdt then 8 else 4

/-- `entries`: a quotient of type `size_t` that is cut to an `int`. -/
def sdtEntries (mem : Memory) (sdt : ℕ) (isXsdt : Bool) : ℤ :=
  wrapInt ((sdtLength mem sdt + 2 ^ 64 - sdtHeaderSize) % 2 ^ 64 / sdtEntrySize isXsdt : ℕ)

/-- `h` in the turn `i`, for the array at `ptrs`. -/
def sdtTable (mem : Memory) (ptrs : ℕ) (isXsdt : Bool) (i : ℕ) : ℕ :=
  ((if isXsdt then load64 mem (ptrs + 8 * i) else load32 mem (ptrs + 4 * i)) + directOffset) % 2 ^ 64

/-- The loop of `find_madt` from `i` on, for the turns that are left. -/
def findMadtFrom (mem : Memory) (ptrs : ℕ) (isXsdt : Bool) : ℕ → ℕ → Option ℕ
  | 0, _ => none
  | n + 1, i =>
    if memcmp mem (sdtTable mem ptrs isXsdt i) apicSignature = 0 then some (sdtTable mem ptrs isXsdt i)
    else findMadtFrom mem ptrs isXsdt n (i + 1)

/-- `find_madt`, where `none` is the null pointer. -/
def findMadt (mem : Memory) (sdtPhys : ℕ) (isXsdt : Bool) : Option ℕ :=
  let sdt := (sdtPhys + directOffset) % 2 ^ 64
  findMadtFrom mem (sdt + sdtHeaderSize) isXsdt (sdtEntries mem sdt isXsdt).toNat 0

/-- `rsdp->RsdtAddress` of an old tag. -/
def rsdtAddress (mem : Memory) (tag : ℕ) : ℕ := load32 mem (tag + 8 + 16)

/-- `rsdp->XsdtAddress` of a new tag. -/
def xsdtAddress (mem : Memory) (tag : ℕ) : ℕ := load64 mem (tag + 8 + 24)

/-- The end of a call: it returns, or `parse_madt` is called with a pointer that is null or was not set. -/
inductive AcpiCall
  | returned (s : Acpi) (reads : List Access)
  | null
  | unset

/-- `parse_madt(madt)` -/
def AcpiCall.ofMadt (mem : Memory) (n : ℕ) (s : Acpi) (madt : Option ℕ) : Option AcpiCall :=
  madt.elim (some .null) fun madt => (s.parseMadt mem madt n).map fun r => .returned r.1 r.2

/-- The loop over the tags, for at most so many turns. -/
def parseAcpiFrom (mem : Memory) (n : ℕ) (s : Acpi) : ℕ → ℕ → Option AcpiCall
  | 0, _ => none
  | k + 1, tag =>
    if tagType mem tag = multibootTagTypeEnd then some .unset
    else if tagType mem tag = multibootTagTypeAcpiNew then
      AcpiCall.ofMadt mem n s (findMadt mem (xsdtAddress mem tag) true)
    else if tagType mem tag = multibootTagTypeAcpiOld then
      AcpiCall.ofMadt mem n s (findMadt mem (rsdtAddress mem tag) false)
    else parseAcpiFrom mem n s k (nextTag mem tag)

/-- `tag` before the loop. -/
def acpiFirstTag (physBootInfo : ℕ) : ℕ := (physBootInfo + directOffset + 8) % 2 ^ 64

/-- `parse_acpi`, for so many turns of the loop of `parse_madt`. -/
def parseAcpi (mem : Memory) (physBootInfo n : ℕ) (s : Acpi) : Option AcpiCall :=
  parseAcpiFrom mem n s tagTurns (acpiFirstTag physBootInfo)

/-! ## The tables that are listed -/

/-- The tables that a root table lists: as many as its length has room for. -/
def listedTables (mem : Memory) (sdtPhys : ℕ) (isXsdt : Bool) : List ℕ :=
  let sdt := (sdtPhys + directOffset) % 2 ^ 64
  (List.range ((sdtLength mem sdt - sdtHeaderSize) / sdtEntrySize isXsdt)).map
    (sdtTable mem (sdt + sdtHeaderSize) isXsdt)

def IsMadt (mem : Memory) (h : ℕ) : Prop := BeginsWith mem h apicSignature

instance (mem : Memory) : DecidablePred (IsMadt mem) := fun _ => decidable_of_iff _ memcmp_eq_zero_iff

def IsAcpiTag (mem : Memory) (t : ℕ) : Prop :=
  tagType mem t = multibootTagTypeAcpiNew ∨ tagType mem t = multibootTagTypeAcpiOld

instance (mem : Memory) : DecidablePred (IsAcpiTag mem) := fun t =>
  inferInstanceAs (Decidable (tagType mem t = multibootTagTypeAcpiNew ∨ tagType mem t = multibootTagTypeAcpiOld))

/-- The tables that the root table of a tag lists. -/
def acpiTables (mem : Memory) (t : ℕ) : List ℕ :=
  if tagType mem t = multibootTagTypeAcpiNew then listedTables mem (xsdtAddress mem t) true
  else listedTables mem (rsdtAddress mem t) false

section Find
variable {mem : Memory} {ptrs n i tag k sdt : ℕ} {isXsdt : Bool} {ts : List ℕ} {s : Acpi}

/-- A table without room for its header has a negative number of entries. -/
theorem sdtEntries_toNat (mem : Memory) (sdt : ℕ) (isXsdt : Bool) :
    (sdtEntries mem sdt isXsdt).toNat = (sdtLength mem sdt - sdtHeaderSize) / sdtEntrySize isXsdt := by
  have hlen : sdtLength mem sdt < 2 ^ 32 := load_lt mem (sdt + 4) 4
  unfold sdtEntries wrapInt sdtHeaderSize sdtEntrySize
  cases isXsdt
  · simp only [Bool.false_eq_true, if_false]
    omega
  · simp only [if_true]
    omega

theorem findMadtFrom_eq : findMadtFrom mem ptrs isXsdt n i =
    ((List.range' i n).map (sdtTable mem ptrs isXsdt)).find? fun h => IsMadt mem h := by
  induction n generalizing i with
  | zero => rfl
  | succ n ih =>
    rw [findMadtFrom, List.range'_succ, List.map_cons, List.find?_cons, ih]
    by_cases hm : IsMadt mem (sdtTable mem ptrs isXsdt i)
    · rw [if_pos (memcmp_eq_zero_iff.mpr hm), decide_eq_true hm]
    · rw [if_neg fun h0 => hm (memcmp_eq_zero_iff.mp h0), decide_eq_false hm]

theorem findMadt_eq (mem : Memory) (sdtPhys : ℕ) (isXsdt : Bool) :
    findMadt mem sdtPhys isXsdt = (listedTables mem sdtPhys isXsdt).find? fun h => IsMadt mem h := by
  rw [findMadt, findMadtFrom_eq, sdtEntries_toNat, listedTables, List.range_eq_range']

/-- The first ACPI tag decides. -/
theorem parseAcpiFrom_eq (h : TagList mem tag ts) (hk : ts.length < k) :
    parseAcpiFrom mem n s k tag = (ts.find? fun t => IsAcpiTag mem t).elim (some .unset) fun t =>
      AcpiCall.ofMadt mem n s ((acpiTables mem t).find? fun h => IsMadt mem h) := by
  induction ts generalizing tag k with
  | nil =>
    obtain ⟨k, rfl⟩ := Nat.exists_eq_add_of_lt hk
    exact if_pos h
  | cons t ts ih =>
    cases k with
    | zero => exact absurd hk (Nat.not_lt_zero _)
    | succ k =>
      obtain ⟨rfl, hend, hrest⟩ := h
      rw [parseAcpiFrom, if_neg hend, List.find?_cons]
      by_cases hnew : tagType mem t = multibootTagTypeAcpiNew
      · have ht : IsAcpiTag mem t := Or.inl hnew
        rw [if_pos hnew, decide_eq_true ht, findMadt_eq]
        simp [acpiTables, hnew]
      · by_cases hold : tagType mem t = multibootTagTypeAcpiOld
        · have ht : IsAcpiTag mem t := Or.inr hold
          rw [if_neg hnew, if_pos hold, decide_eq_true ht, findMadt_eq]
          simp [acpiTables, hnew]
        · have ht : ¬IsAcpiTag mem t := fun ht => ht.elim hnew hold
          rw [if_neg hnew, if_neg hold, decide_eq_false ht]
          exact ih hrest (Nat.lt_of_succ_lt_succ hk)

end Find

/-! ## At boot -/

/-- What a MADT with the entries `es` sets up. -/
structure SetUpBy (mem : Memory) (madt : ℕ) (es : List ℕ) (s : Acpi) : Prop where
  lapic : s.lapicPaddr = localApicAddress mem madt
  isos : s.isos = keptIsos mem es
  ioapic : s.ioapicPaddr = ((es.filter fun e => entryType mem e = 1).getLast?.map (ioApicAddress mem)).getD 0
  routes : ∀ irq < 2 ^ 8, (∀ iso, isoFor irq (keptIsos mem es) = some iso → iso.gsi < 2 ^ 31 - 8) →
    ∀ vector < 2 ^ 8, ∀ cpuId < 2 ^ 8, Routes s (keptIsos mem es) irq vector cpuId

theorem saveIso_lapic (s : Acpi) (iso : MadtIso) : (s.saveIso iso).lapicPaddr = s.lapicPaddr := by
  unfold Acpi.saveIso
  split_ifs <;> rfl

theorem parseList_lapic (mem : Memory) (es : List ℕ) (s : Acpi) : (s.parseList mem es).lapicPaddr = s.lapicPaddr := by
  induction es generalizing s with
  | nil => rfl
  | cons e es ih =>
    refine (ih (s.parseEntry mem e).1).trans ?_
    unfold Acpi.parseEntry
    split
    · rfl
    · exact saveIso_lapic s _
    · rfl

theorem setUpBy_parse {mem : Memory} {madt : ℕ} {es : List ℕ}
    (htiles : Tiles mem (madt + madtLength mem madt) (madt + 44) es) :
    ∃ r, Acpi.atBoot.parseMadt mem madt (es.length + 1) = some r ∧ SetUpBy mem madt es r.1 := by
  obtain ⟨r, hrun, -, hkept, hioapic⟩ := parseMadt_boot htiles
  have hlow : r.1.ioapicPaddr < 2 ^ 32 := hioapic ▸ ioapicPaddr_lt _
  have hlapic : r.1.lapicPaddr = localApicAddress mem madt := by
    obtain ⟨reads, hlist, -⟩ := Acpi.parseEntries_list
      (s := { Acpi.atBoot with lapicPaddr := localApicAddress mem madt }) htiles.entries.2 (Nat.lt_succ_self _)
    rw [Acpi.parseMadt, hlist, Option.map_some] at hrun
    rw [← Option.some.inj hrun]
    exact parseList_lapic mem es _
  refine ⟨r, hrun, hlapic, hkept, hioapic, fun irq hirq hgsi vector _ cpuId hc => ?_⟩
  refine (routes_iff hlow hkept vector hc).mpr ?_
  have hline : r.1.getGsiForIrq irq < 2 ^ 31 - 8 := by
    rw [Acpi.getGsiForIrq, hkept, gsiFrom_eq]
    cases hiso : isoFor irq (keptIsos mem es) with
    | none => exact lt_trans hirq (by norm_num)
    | some iso => exact hgsi iso hiso
  unfold ioapicRedtblOffset
  omega

/-- `parse_acpi` sets the interrupt controllers up from the first MADT that the root table of the first ACPI tag
lists. Without one it passes on a pointer that is null, or was never set when there is no ACPI tag. -/
theorem acpi_finds_madt {mem : Memory} {physBootInfo : ℕ} {ts : List ℕ}
    (h : TagList mem (acpiFirstTag physBootInfo) ts) :
    ((ts.find? fun t => IsAcpiTag mem t) = none → ∀ n, parseAcpi mem physBootInfo n Acpi.atBoot = some .unset) ∧
      ∀ t, (ts.find? fun t => IsAcpiTag mem t) = some t →
        (((acpiTables mem t).find? fun m => IsMadt mem m) = none →
          ∀ n, parseAcpi mem physBootInfo n Acpi.atBoot = some .null) ∧
        ∀ madt, ((acpiTables mem t).find? fun m => IsMadt mem m) = some madt →
          ∀ es, Tiles mem (madt + madtLength mem madt) (madt + 44) es → ∃ s reads,
            parseAcpi mem physBootInfo (es.length + 1) Acpi.atBoot = some (.returned s reads) ∧
              SetUpBy mem madt es s := by
  have hcall := fun n => parseAcpiFrom_eq (n := n) (s := Acpi.atBoot) h h.length_lt
  refine ⟨fun hnone n => ?_, fun t ht => ⟨fun hnone n => ?_, fun madt hmadt es htiles => ?_⟩⟩
  · rw [parseAcpi, hcall, hnone]
    rfl
  · rw [parseAcpi, hcall, ht, Option.elim_some, hnone]
    rfl
  · obtain ⟨r, hrun, hset⟩ := setUpBy_parse htiles
    refine ⟨r.1, r.2, ?_, hset⟩
    rw [parseAcpi, hcall, ht, Option.elim_some, hmadt, AcpiCall.ofMadt, Option.elim_some, hrun]
    rfl

/-- A new ACPI tag whose root table lists a table of another kind and then one with an override. -/
def twoTables : Memory :=
  let m := store32 (lineMadt 2) lineMadtAddr 0x43495041
  let m := store32 (store32 m (directOffset + 0x9008) 15) (directOffset + 0x900C) 44
  let m := store64 m (directOffset + 0x9028) 0xA000
  let m := store32 m (directOffset + 0xA004) 52
  store64 (store64 m (directOffset + 0xA024) 0xB000) (directOffset + 0xA02C) 0xE0000

theorem acpi_finds_madt_second : ∃ s reads,
    parseAcpi twoTables 0x9000 ([lineMadtAddr + 44].length + 1) Acpi.atBoot = some (.returned s reads) ∧
      SetUpBy twoTables lineMadtAddr [lineMadtAddr + 44] s := by
  have htags : TagList twoTables (acpiFirstTag 0x9000) [directOffset + 0x9008] :=
    ⟨by decide +kernel, by decide +kernel, show (_ : ℕ) = _ by decide +kernel⟩
  have htag : ([directOffset + 0x9008].find? fun t => IsAcpiTag twoTables t) = some (directOffset + 0x9008) := by
    decide +kernel
  have hmadt : ((acpiTables twoTables (directOffset + 0x9008)).find? fun m => IsMadt twoTables m) =
      some lineMadtAddr := by
    decide +kernel
  have htiles : Tiles twoTables (lineMadtAddr + madtLength twoTables lineMadtAddr) (lineMadtAddr + 44)
      [lineMadtAddr + 44] := ⟨rfl, by decide +kernel, show (_ : ℕ) = _ by decide +kernel⟩
  exact ((acpi_finds_madt htags).2 _ htag).2 _ hmadt _ htiles

end PointerOS
