import PointerOS.Madt

/-!
# Routing an interrupt

`get_gsi_for_irq` and `ioapic_set_irq` each search the overrides that `parse_madt` kept. The I/O APIC is
reached through two words of memory: the number of a register and its contents. A register number has 32 bits.
-/
namespace PointerOS
open ByteMemory

def ioapicRegselOffset : ℕ := 0x0
def ioapicIowinOffset : ℕ := 0x10
def ioapicRedtblOffset : ℕ := 0x10

/-- The part of `iso_list` in use. -/
def Acpi.isos (s : Acpi) : List MadtIso := List.ofFn fun i : Fin s.isoCount => s.isoList (i.castLE s.count_le)

/-- The loop of `get_gsi_for_irq`. -/
def gsiFrom (irq : ℕ) : List MadtIso → ℕ
  | [] => irq
  | iso :: isos => if iso.irqSource = irq then iso.gsi else gsiFrom irq isos

/-- The loop of `ioapic_set_irq`, with `gsi` and `flags`. -/
def gsiFlagsFrom (irq : ℕ) : List MadtIso → ℕ × ℕ
  | [] => (irq, 0)
  | iso :: isos => if iso.irqSource = irq then (iso.gsi, iso.flags) else gsiFlagsFrom irq isos

def Acpi.getGsiForIrq (s : Acpi) (irq : ℕ) : ℕ := gsiFrom irq s.isos

/-- A word stored to memory. -/
structure WordStore where
  addr : ℕ
  val : ℕ
  deriving DecidableEq, Repr

def Acpi.writeIoapic (s : Acpi) (reg data : ℕ) : List WordStore :=
  [⟨(s.ioapicPaddr + directOffset + ioapicRegselOffset) % 2 ^ 64, reg⟩,
    ⟨(s.ioapicPaddr + directOffset + ioapicIowinOffset) % 2 ^ 64, data⟩]

/-- The low word of a redirection entry. -/
def redirection (vector flags : ℕ) : ℕ :=
  let low := vector
  let low := if flags &&& 0x2 ≠ 0 then low ||| 1 <<< 13 else low
  if flags &&& 0x8 ≠ 0 then low ||| 1 <<< 15 else low

def Acpi.ioapicSetIrq (s : Acpi) (irq vector cpuId : ℕ) : List WordStore :=
  let (gsi, flags) := gsiFlagsFrom irq s.isos
  s.writeIoapic ((ioapicRedtblOffset + gsi * 2) % 2 ^ 32) (redirection vector flags) ++
    s.writeIoapic ((ioapicRedtblOffset + gsi * 2 + 1) % 2 ^ 32) (cpuId * 2 ^ 24 % 2 ^ 32)

/-! ## The I/O APIC -/

structure IoApic where
  regsel : ℕ
  regs : ℕ → ℕ

/-- What the I/O APIC at a physical address does with a store through the direct map. -/
def IoApic.take (base : ℕ) (d : IoApic) (w : WordStore) : IoApic :=
  if w.addr = base + directOffset + ioapicRegselOffset then { d with regsel := w.val }
  else if w.addr = base + directOffset + ioapicIowinOffset then { d with regs := Function.update d.regs d.regsel w.val }
  else d

/-- The overrides of the table that are kept. -/
def keptIsos (mem : Memory) (es : List ℕ) : List MadtIso :=
  ((es.filter fun e => entryType mem e = 2).map (madtIso mem)).take maxIso

def isoFor (irq : ℕ) (isos : List MadtIso) : Option MadtIso := isos.find? fun iso => iso.irqSource = irq

/-- The low word with the polarity and the trigger mode of an override. -/
def lineWord (vector : ℕ) (iso : Option MadtIso) : ℕ := redirection vector ((iso.map MadtIso.flags).getD 0)

/-- The interrupt goes to the line of the first override for it, or to the line of its number, whose two
registers are set; no other register changes. -/
structure Routes (s : Acpi) (isos : List MadtIso) (irq vector cpuId : ℕ) : Prop where
  line : s.getGsiForIrq irq = ((isoFor irq isos).map MadtIso.gsi).getD irq
  regs : ∀ d r, ((s.ioapicSetIrq irq vector cpuId).foldl (IoApic.take s.ioapicPaddr) d).regs r =
    if r = ioapicRedtblOffset + s.getGsiForIrq irq * 2 then lineWord vector (isoFor irq isos)
    else if r = ioapicRedtblOffset + s.getGsiForIrq irq * 2 + 1 then cpuId * 2 ^ 24
    else d.regs r

/-- The state after parsing agrees with the entries of the table. -/
structure AgreesWith (mem : Memory) (es : List ℕ) (s : Acpi) : Prop where
  kept : s.isos = keptIsos mem es
  ioapic : ∀ e, (es.filter fun e => entryType mem e = 1).getLast? = some e → s.ioapicPaddr = ioApicAddress mem e
  routes : ∀ irq < 2 ^ 8, ∀ vector < 2 ^ 8, ∀ cpuId < 2 ^ 8, Routes s (keptIsos mem es) irq vector cpuId

/-- The size of the structure of an entry. -/
def minLength : ℕ → ℕ
  | 0 => 8
  | 1 => 12
  | 2 => 10
  | _ => 2

/-- The entries tile the table, and each is as long as its structure at least. -/
def Tiles (mem : Memory) (stop : ℕ) : ℕ → List ℕ → Prop
  | ptr, [] => ptr = stop
  | ptr, e :: es =>
    e = ptr ∧ minLength (entryType mem e) ≤ entryLength mem e ∧ Tiles mem stop (ptr + entryLength mem e) es

theorem minLength_ge (type : ℕ) : 2 ≤ minLength type := by
  unfold minLength
  split <;> decide

theorem Tiles.entries {mem : Memory} {stop ptr : ℕ} {es : List ℕ} (h : Tiles mem stop ptr es) :
    ptr ≤ stop ∧ EntryList mem stop ptr es := by
  induction es generalizing ptr with
  | nil => exact ⟨le_of_eq h, ge_of_eq h⟩
  | cons e es ih =>
    obtain ⟨rfl, hlen, hrest⟩ := h
    obtain ⟨hle, hes⟩ := ih hrest
    have hmin := minLength_ge (entryType mem e)
    exact ⟨by omega, rfl, by omega, by omega, hes⟩

/-! ## What the parser keeps -/

namespace Acpi
variable {s : Acpi} {mem : Memory}

theorem isos_length (s : Acpi) : s.isos.length = s.isoCount := List.length_ofFn

theorem isos_saveIso (s : Acpi) (iso : MadtIso) : (s.saveIso iso).isos = (s.isos ++ [iso]).take maxIso := by
  have hlen := s.isos_length
  have hle := s.count_le
  unfold saveIso
  split_ifs with h
  · rw [List.take_of_length_le (by rw [List.length_append, List.length_singleton]; omega)]
    unfold isos
    dsimp only
    rw [List.ofFn_succ_last]
    refine congrArg₂ _ (congrArg List.ofFn (funext fun i => ?_)) (congrArg (fun x => [x]) ?_)
    · refine Function.update_of_ne (fun heq => ?_) ..
      have hval := congrArg Fin.val heq
      simp only [Fin.val_castLE, Fin.val_castSucc] at hval
      omega
    · exact Function.update_self ..
  · rw [List.take_append_of_le_length (by omega), List.take_of_length_le (by omega)]

/-- Keeping what there is room for, one after the other or all at once. -/
theorem take_append_take {α : Type*} (k : ℕ) (l l' : List α) : ((l.take k) ++ l').take k = (l ++ l').take k := by
  rw [List.take_append, List.take_append, List.take_take, Nat.min_self, List.length_take]
  congr 2
  omega

theorem parseEntry_isos (mem : Memory) (e : ℕ) (s : Acpi) : (s.parseEntry mem e).1.isos =
    if entryType mem e = 2 then (s.isos ++ [madtIso mem e]).take maxIso else s.isos := by
  unfold parseEntry
  split
  · next h => rw [if_neg (by omega)]; rfl
  · next h => rw [if_pos h, isos_saveIso]
  · next h => rw [if_neg h]

theorem parseList_isos (mem : Memory) (es : List ℕ) (s : Acpi) : (s.parseList mem es).isos =
    (s.isos ++ (es.filter fun e => entryType mem e = 2).map (madtIso mem)).take maxIso := by
  induction es generalizing s with
  | nil =>
    have hlen : s.isos.length ≤ maxIso := s.isos_length ▸ s.count_le
    rw [List.filter_nil, List.map_nil, List.append_nil, List.take_of_length_le hlen]
    rfl
  | cons e es ih =>
    rw [parseList, List.foldl_cons]
    refine (ih _).trans ?_
    rw [parseEntry_isos]
    by_cases h : entryType mem e = 2
    · rw [if_pos h, List.filter_cons_of_pos (by simp [h]), List.map_cons, take_append_take, List.append_assoc,
        List.singleton_append]
    · rw [if_neg h, List.filter_cons_of_neg (by simp [h])]

theorem saveIso_ioapic (s : Acpi) (iso : MadtIso) : (s.saveIso iso).ioapicPaddr = s.ioapicPaddr := by
  unfold saveIso
  split_ifs <;> rfl

theorem parseEntry_ioapic (mem : Memory) (e : ℕ) (s : Acpi) : (s.parseEntry mem e).1.ioapicPaddr =
    if entryType mem e = 1 then ioApicAddress mem e else s.ioapicPaddr := by
  unfold parseEntry
  split
  · next h => rw [if_pos h]
  · next h =>
    rw [if_neg (show ¬entryType mem e = 1 by omega)]
    exact saveIso_ioapic ..
  · next h _ => rw [if_neg h]

/-- The last I/O APIC counts. -/
theorem parseList_ioapic (mem : Memory) (es : List ℕ) (s : Acpi) : (s.parseList mem es).ioapicPaddr =
    ((es.filter fun e => entryType mem e = 1).getLast?.map (ioApicAddress mem)).getD s.ioapicPaddr := by
  induction es generalizing s with
  | nil => rfl
  | cons e es ih =>
    rw [parseList, List.foldl_cons]
    refine (ih _).trans ?_
    rw [parseEntry_ioapic]
    by_cases h : entryType mem e = 1
    · rw [if_pos h, List.filter_cons_of_pos (by simp [h]), List.getLast?_cons]
      cases (es.filter fun e => entryType mem e = 1).getLast? <;> rfl
    · rw [if_neg h, List.filter_cons_of_neg (by simp [h])]

end Acpi

/-! ## What the two searches find -/

theorem gsiFrom_eq (irq : ℕ) (isos : List MadtIso) : gsiFrom irq isos = ((isoFor irq isos).map MadtIso.gsi).getD irq := by
  induction isos with
  | nil => rfl
  | cons iso isos ih =>
    rw [gsiFrom, isoFor, List.find?_cons]
    by_cases h : iso.irqSource = irq
    · rw [if_pos h, decide_eq_true h]
      rfl
    · rw [if_neg h, decide_eq_false h]
      exact ih

/-- Both loops stop at the same override. -/
theorem gsiFlagsFrom_eq (irq : ℕ) (isos : List MadtIso) :
    gsiFlagsFrom irq isos = (gsiFrom irq isos, ((isoFor irq isos).map MadtIso.flags).getD 0) := by
  induction isos with
  | nil => rfl
  | cons iso isos ih =>
    rw [gsiFlagsFrom, gsiFrom, isoFor, List.find?_cons]
    by_cases h : iso.irqSource = irq
    · rw [if_pos h, if_pos h, decide_eq_true h]
      rfl
    · rw [if_neg h, if_neg h, decide_eq_false h]
      exact ih

/-- The I/O APIC that `write_ioapic` talks to sets one register. -/
theorem writeIoapic_take {s : Acpi} (hs : s.ioapicPaddr < 2 ^ 32) (d : IoApic) (reg data : ℕ) :
    (s.writeIoapic reg data).foldl (IoApic.take s.ioapicPaddr) d = ⟨reg, Function.update d.regs reg data⟩ := by
  have hsel : (s.ioapicPaddr + directOffset + ioapicRegselOffset) % 2 ^ 64 =
      s.ioapicPaddr + directOffset + ioapicRegselOffset := Nat.mod_eq_of_lt (by
    unfold directOffset ioapicRegselOffset
    omega)
  have hwin : (s.ioapicPaddr + directOffset + ioapicIowinOffset) % 2 ^ 64 =
      s.ioapicPaddr + directOffset + ioapicIowinOffset := Nat.mod_eq_of_lt (by
    unfold directOffset ioapicIowinOffset
    omega)
  have hne : s.ioapicPaddr + directOffset + ioapicIowinOffset ≠ s.ioapicPaddr + directOffset + ioapicRegselOffset := by
    unfold ioapicIowinOffset ioapicRegselOffset
    omega
  unfold Acpi.writeIoapic
  rw [List.foldl_cons, List.foldl_cons, List.foldl_nil, hsel, hwin]
  simp only [IoApic.take, if_neg hne, if_true]

/-- The routing is right exactly when the registers of the line have numbers of 32 bits. -/
theorem routes_iff {s : Acpi} {isos : List MadtIso} (hs : s.ioapicPaddr < 2 ^ 32) (hisos : s.isos = isos) {irq : ℕ}
    (vector : ℕ) {cpuId : ℕ} (hc : cpuId < 2 ^ 8) :
    Routes s isos irq vector cpuId ↔ ioapicRedtblOffset + s.getGsiForIrq irq * 2 + 1 < 2 ^ 32 := by
  have hline : s.getGsiForIrq irq = ((isoFor irq isos).map MadtIso.gsi).getD irq := by
    rw [Acpi.getGsiForIrq, hisos, gsiFrom_eq]
  have hcpu : cpuId * 2 ^ 24 % 2 ^ 32 = cpuId * 2 ^ 24 := Nat.mod_eq_of_lt (by omega)
  have hstores : s.ioapicSetIrq irq vector cpuId =
      s.writeIoapic ((ioapicRedtblOffset + s.getGsiForIrq irq * 2) % 2 ^ 32) (lineWord vector (isoFor irq isos)) ++
        s.writeIoapic ((ioapicRedtblOffset + s.getGsiForIrq irq * 2 + 1) % 2 ^ 32) (cpuId * 2 ^ 24) := by
    unfold Acpi.ioapicSetIrq Acpi.getGsiForIrq lineWord
    rw [gsiFlagsFrom_eq, hisos, hcpu]
  have hrun : ∀ d r, ((s.ioapicSetIrq irq vector cpuId).foldl (IoApic.take s.ioapicPaddr) d).regs r =
      if r = (ioapicRedtblOffset + s.getGsiForIrq irq * 2 + 1) % 2 ^ 32 then cpuId * 2 ^ 24
      else if r = (ioapicRedtblOffset + s.getGsiForIrq irq * 2) % 2 ^ 32 then lineWord vector (isoFor irq isos)
      else d.regs r := by
    intro d r
    rw [hstores, List.foldl_append, writeIoapic_take hs, writeIoapic_take hs]
    simp only [Function.update_apply]
  constructor
  · intro h
    by_contra hbig
    -- the second register has no number, so a store to it does not reach it
    have hne : ∀ a, ioapicRedtblOffset + s.getGsiForIrq irq * 2 + 1 ≠ a % 2 ^ 32 := fun a heq => by
      have hlt := Nat.mod_lt a (show 2 ^ 32 > 0 by norm_num)
      omega
    have hnext := h.regs ⟨0, fun _ => cpuId * 2 ^ 24 + 1⟩ (ioapicRedtblOffset + s.getGsiForIrq irq * 2 + 1)
    rw [hrun, if_neg (Nat.succ_ne_self _), if_pos rfl, if_neg (hne _), if_neg (hne _)] at hnext
    exact absurd hnext (Nat.succ_ne_self _)
  · intro hlow
    refine ⟨hline, fun d r => ?_⟩
    rw [hrun, Nat.mod_eq_of_lt hlow, Nat.mod_eq_of_lt (by omega)]
    by_cases hr : r = ioapicRedtblOffset + s.getGsiForIrq irq * 2
    · rw [if_pos hr, if_pos hr, if_neg (by omega)]
    · rw [if_neg hr, if_neg hr]

/-! ## Parsing and routing -/

/-- The outcome of parsing a tiled table at boot. -/
theorem parseMadt_boot {mem : Memory} {madt : ℕ} {es : List ℕ}
    (htiles : Tiles mem (madt + madtLength mem madt) (madt + 44) es) :
    ∃ r, Acpi.atBoot.parseMadt mem madt (es.length + 1) = some r ∧
      (∀ n r', Acpi.atBoot.parseMadt mem madt n = some r' → r' = r) ∧ r.1.isos = keptIsos mem es ∧
      r.1.ioapicPaddr = ((es.filter fun e => entryType mem e = 1).getLast?.map (ioApicAddress mem)).getD 0 := by
  obtain ⟨reads, hlist, -⟩ := Acpi.parseEntries_list
    (s := { Acpi.atBoot with lapicPaddr := localApicAddress mem madt }) htiles.entries.2 (Nat.lt_succ_self _)
  refine ⟨_, congrArg _ hlist, fun n r' hrun => ?_, ?_, ?_⟩
  · obtain ⟨q, hq, rfl⟩ := Option.map_eq_some_iff.mp hrun
    rw [Acpi.parseEntries_unique hq hlist]
  · exact Acpi.parseList_isos ..
  · exact Acpi.parseList_ioapic ..

theorem ioapicPaddr_lt {mem : Memory} (e : Option ℕ) : (e.map (ioApicAddress mem)).getD 0 < 2 ^ 32 := by
  cases e with
  | none => exact Nat.two_pow_pos 32
  | some e => exact load_lt mem (e + 4) 4

/-- After parsing at boot every interrupt is routed by the table exactly when the registers of the lines that the
overrides in use name have numbers of 32 bits. -/
theorem madt_routing_iff (mem : Memory) (madt : ℕ) {es : List ℕ}
    (htiles : Tiles mem (madt + madtLength mem madt) (madt + 44) es) :
    (∃ n r, Acpi.atBoot.parseMadt mem madt n = some r ∧ AgreesWith mem es r.1) ↔
      ∀ irq < 2 ^ 8, ∀ iso, isoFor irq (keptIsos mem es) = some iso → iso.gsi < 2 ^ 31 - 8 := by
  obtain ⟨r, hrun, honly, hkept, hioapic⟩ := parseMadt_boot htiles
  have hlow : r.1.ioapicPaddr < 2 ^ 32 := hioapic ▸ ioapicPaddr_lt _
  have hroute : ∀ {irq}, ioapicRedtblOffset + r.1.getGsiForIrq irq * 2 + 1 < 2 ^ 32 ↔
      r.1.getGsiForIrq irq < 2 ^ 31 - 8 := by
    intro irq
    unfold ioapicRedtblOffset
    omega
  have hgsi : ∀ irq, r.1.getGsiForIrq irq = ((isoFor irq (keptIsos mem es)).map MadtIso.gsi).getD irq := fun irq => by
    rw [Acpi.getGsiForIrq, hkept, gsiFrom_eq]
  constructor
  · rintro ⟨n, r', hrun', hagree⟩ irq hirq iso hiso
    rw [honly n r' hrun'] at hagree
    have h := hroute.mp ((routes_iff hlow hkept 0 (by norm_num)).mp (hagree.routes irq hirq 0 (by norm_num) 0 (by norm_num)))
    rw [hgsi, hiso] at h
    exact h
  · intro hall
    refine ⟨_, r, hrun, hkept, fun e he => ?_, fun irq hirq vector _ cpuId hc => ?_⟩
    · rw [hioapic, he]
      rfl
    · refine (routes_iff hlow hkept vector hc).mpr (hroute.mpr ?_)
      rw [hgsi]
      cases hiso : isoFor irq (keptIsos mem es) with
      | none => exact lt_trans hirq (by norm_num)
      | some iso => exact hall irq hirq iso hiso

/-- The address of a table with one override, of interrupt 0 to a line. -/
def lineMadtAddr : ℕ := directOffset + 0xE0000

def lineMadt (gsi : ℕ) : Memory :=
  let m := store32 (fun _ => 0) (lineMadtAddr + 4) 54
  store32 (store (store m (lineMadtAddr + 44) 1 2) (lineMadtAddr + 45) 1 10) (lineMadtAddr + 48) gsi

/-- A table with an I/O APIC and the overrides of the interrupts 0 and 9, the second one low and by level. -/
def pcMadt : Memory :=
  let a := lineMadtAddr + 44
  let m := store32 (fun _ => 0) (lineMadtAddr + 4) 76
  let m := store32 (store (store m a 1 1) (a + 1) 1 12) (a + 4) 0xFEC00000
  let m := store32 (store (store m (a + 12) 1 2) (a + 13) 1 10) (a + 16) 2
  let m := store (store (store m (a + 22) 1 2) (a + 23) 1 10) (a + 25) 1 9
  store (store32 m (a + 26) 9) (a + 30) 2 0xF

def pcEntries : List ℕ := [lineMadtAddr + 44, lineMadtAddr + 56, lineMadtAddr + 66]

theorem madt_routing_pc : ∃ n r, Acpi.atBoot.parseMadt pcMadt lineMadtAddr n = some r ∧
    AgreesWith pcMadt pcEntries r.1 ∧
    keptIsos pcMadt pcEntries = [⟨2, 10, 0, 0, 2, 0⟩, ⟨2, 10, 0, 9, 9, 0xF⟩] ∧ r.1.ioapicPaddr = 0xFEC00000 := by
  have htiles : Tiles pcMadt (lineMadtAddr + madtLength pcMadt lineMadtAddr) (lineMadtAddr + 44) pcEntries :=
    ⟨rfl, by decide +kernel, by decide +kernel, by decide +kernel, by decide +kernel, by decide +kernel,
      show (_ : ℕ) = _ by decide +kernel⟩
  have hkept : keptIsos pcMadt pcEntries = [⟨2, 10, 0, 0, 2, 0⟩, ⟨2, 10, 0, 9, 9, 0xF⟩] := by decide +kernel
  obtain ⟨n, r, hrun, hagree⟩ := (madt_routing_iff pcMadt lineMadtAddr htiles).mpr fun irq _ iso hiso => by
    rw [hkept] at hiso
    have hmem := List.mem_of_find?_eq_some hiso
    simp only [List.mem_cons, List.not_mem_nil, or_false] at hmem
    rcases hmem with rfl | rfl <;> decide
  have hlast : (pcEntries.filter fun e => entryType pcMadt e = 1).getLast? = some (lineMadtAddr + 44) := by
    decide +kernel
  have haddr : ioApicAddress pcMadt (lineMadtAddr + 44) = 0xFEC00000 := by decide +kernel
  exact ⟨n, r, hrun, hagree, hkept, (hagree.ioapic _ hlast).trans haddr⟩

/-- The registers of the line `2 ^ 31` have the numbers of those of the line 0. -/
theorem madt_routing_wraps : ¬∀ mem madt es, Tiles mem (madt + madtLength mem madt) (madt + 44) es →
    ∃ n r, Acpi.atBoot.parseMadt mem madt n = some r ∧ AgreesWith mem es r.1 := by
  intro hall
  have htiles : Tiles (lineMadt (2 ^ 31)) (lineMadtAddr + madtLength (lineMadt (2 ^ 31)) lineMadtAddr)
      (lineMadtAddr + 44) [lineMadtAddr + 44] := ⟨rfl, by decide +kernel, show (_ : ℕ) = _ by decide +kernel⟩
  have hgsi : gsiFrom 0 (keptIsos (lineMadt (2 ^ 31)) [lineMadtAddr + 44]) = 2 ^ 31 := by decide +kernel
  obtain ⟨r, -, honly, hkept, hioapic⟩ := parseMadt_boot htiles
  obtain ⟨n, r', hrun, hagree⟩ := hall _ _ _ htiles
  rw [honly n r' hrun] at hagree
  have hlt := (routes_iff (hioapic ▸ ioapicPaddr_lt _) hkept 0 (by norm_num)).mp
    (hagree.routes 0 (by norm_num) 0 (by norm_num) 0 (by norm_num))
  rw [Acpi.getGsiForIrq, hkept, hgsi] at hlt
  exact absurd hlt (by decide)

end PointerOS
