import PointerOS.FormatText
import PointerOS.IntLoop

/-!
# kprintf

`kprintf` collects its text in a buffer of 256 bytes and passes it to `klog_write` in blocks, with two
thresholds: one for a single character and one for a number.
-/
namespace PointerOS

def kprintfBufMax : ℕ := 256

/-- `local_buf` and `idx`, with the blocks passed to `klog_write`. -/
structure KprintfState where
  localBuf : ℕ → UInt8
  idx : ℕ
  blocks : List (List UInt8)

namespace KprintfState

/-- `klog_write(local_buf, idx); idx = 0;` -/
def flush (s : KprintfState) : KprintfState :=
  { s with idx := 0, blocks := s.blocks ++ [(List.range s.idx).map s.localBuf] }

def checkAndFlush (s : KprintfState) : KprintfState := if kprintfBufMax - 1 ≤ s.idx then s.flush else s

/-- `local_buf[k] = c` -/
def store (s : KprintfState) (k : ℕ) (c : UInt8) : Except Fault KprintfState :=
  if k < kprintfBufMax then .ok { s with localBuf := Function.update s.localBuf k c } else .error .bufferOverrun

/-- `local_buf[idx++] = c` -/
def put (s : KprintfState) (c : UInt8) : Except Fault KprintfState :=
  (s.store s.idx c).map fun s => { s with idx := s.idx + 1 }

/-- `while (j > 0 && i < max_len) buf[i++] = temp[--j]`, and then `idx += i`. -/
def putTemp (maxLen : ℕ) : List UInt8 → ℕ → KprintfState → Except Fault KprintfState
  | [], i, s => .ok { s with idx := s.idx + i }
  | c :: temp, i, s =>
    if i < maxLen then (s.store (s.idx + i) c).bind (putTemp maxLen temp (i + 1))
    else .ok { s with idx := s.idx + i }

/-- `idx += local_putnum(&local_buf[idx], max_len, num, base)`; a number of 64 bits has at most 64 digits. -/
def localPutnum (s : KprintfState) (maxLen num base : ℕ) : Except Fault KprintfState :=
  if num = 0 ∧ 0 < maxLen then s.put '0'.toUInt8
  else (takeDigits (some 64) 64 Digits.digit base 65 num []).bind fun temp => putTemp maxLen temp 0 s

/-- The end of every case that prints a number. -/
def putNumber (s : KprintfState) (num base : ℕ) : Except Fault KprintfState :=
  (if kprintfBufMax - 35 < s.idx then s.flush else s).localPutnum (kprintfBufMax - 1) num base

def putString : List UInt8 → KprintfState → Except Fault KprintfState
  | [], s => .ok s
  | c :: cs, s => (s.checkAndFlush.put c).bind (putString cs)

def putDec (s : KprintfState) (i : ℤ) : Except Fault KprintfState :=
  if i < 0 then (s.checkAndFlush.put '-'.toUInt8).bind fun s => s.putNumber (intToU64 (wrapInt (-i))) 10
  else s.putNumber (intToU64 i) 10

def putHex (s : KprintfState) (num : ℕ) : Except Fault KprintfState :=
  (s.checkAndFlush.put '0'.toUInt8).bind fun s =>
    (s.checkAndFlush.put 'x'.toUInt8).bind fun s => s.putNumber num 16

/-- The cases of the `switch`, for the argument with the number `a`. -/
def act (mem : ℕ → CString) (args : ℕ → ℕ) (t : Token) (a : ℕ) (s : KprintfState) : Except Fault KprintfState :=
  match t with
  | .char c => s.put c
  | .str => putString (mem (args a)).1 s
  | .dec => s.putDec (wrapInt (args a))
  | .hex => s.putHex (args a % 2 ^ 32)
  | .llx => s.putHex (args a % 2 ^ 64)
  | .ptr => s.putHex (args a % 2 ^ 64)
  | .percent => s.put percent
  | .skip => .ok s

end KprintfState

/-- The blocks that a call passes to `klog_write`. `mem` has the strings by address, `args` the words of the
argument list, and `localBuf` what the buffer holds at first. -/
def kprintf (localBuf : ℕ → UInt8) (mem : ℕ → CString) (args : ℕ → ℕ) (format : CString) :
    Except Fault (List (List UInt8)) :=
  (formatFrom KprintfState.checkAndFlush (KprintfState.act mem args) (format.1.length + 1) (format.1 ++ [0]) 0
    ⟨localBuf, 0, []⟩).map fun s => (if 0 < s.idx then s.flush else s).blocks

/-! ## The text so far -/

namespace KprintfState
variable {s s' : KprintfState} {r : Except Fault KprintfState} {out out' : List UInt8} {c : UInt8}

/-- The bytes passed on and those in the buffer. -/
def text (s : KprintfState) : List UInt8 := s.blocks.flatten ++ (List.range s.idx).map s.localBuf

/-- The index is in the buffer, and the blocks are neither empty nor too long. -/
structure Inv (s : KprintfState) : Prop where
  idx : s.idx < kprintfBufMax
  blocks : ∀ b ∈ s.blocks, 1 ≤ b.length ∧ b.length < kprintfBufMax

/-- The operation stays in the buffer and adds the bytes to the text. -/
def Puts (r : Except Fault KprintfState) (s : KprintfState) (out : List UInt8) : Prop :=
  ∃ s', r = .ok s' ∧ s'.Inv ∧ s'.text = s.text ++ out

theorem Puts.bind {f : KprintfState → Except Fault KprintfState} (h : Puts r s out)
    (hf : ∀ s', s'.Inv → Puts (f s') s' out') : Puts (r.bind f) s (out ++ out') := by
  obtain ⟨s₁, rfl, hinv, htext⟩ := h
  obtain ⟨s₂, hs₂, hinv₂, htext₂⟩ := hf s₁ hinv
  exact ⟨s₂, hs₂, hinv₂, by rw [htext₂, htext, List.append_assoc]⟩

theorem Puts.of_text (h : Puts r s' out) (ht : s'.text = s.text) : Puts r s out := by
  obtain ⟨s₁, hr, hinv, htext⟩ := h
  exact ⟨s₁, hr, hinv, by rw [htext, ht]⟩

theorem flush_text (s : KprintfState) : s.flush.text = s.text := by
  simp [flush, text]

theorem Inv.flush (h : s.Inv) (h0 : 0 < s.idx) : s.flush.Inv := by
  refine ⟨show 0 < kprintfBufMax by decide, fun b hb => ?_⟩
  rcases List.mem_append.mp hb with hb | hb
  · exact h.blocks b hb
  · obtain rfl := List.mem_singleton.mp hb
    have hidx := h.idx
    rw [List.length_map, List.length_range]
    exact ⟨h0, hidx⟩

theorem Inv.checkAndFlush (h : s.Inv) :
    s.checkAndFlush.Inv ∧ s.checkAndFlush.idx < kprintfBufMax - 1 ∧ s.checkAndFlush.text = s.text := by
  unfold KprintfState.checkAndFlush
  split_ifs with hfull
  · have hpos : 0 < kprintfBufMax - 1 := by decide
    exact ⟨h.flush (by omega), hpos, flush_text s⟩
  · exact ⟨h, by omega, rfl⟩

/-- A store behind the bytes of the buffer. -/
theorem range_update (buf : ℕ → UInt8) (k : ℕ) (c : UInt8) :
    (List.range (k + 1)).map (Function.update buf k c) = (List.range k).map buf ++ [c] := by
  rw [List.range_succ, List.map_append, List.map_singleton, Function.update_self]
  congr 1
  refine List.map_congr_left fun i hi => Function.update_of_ne ?_ ..
  have := List.mem_range.mp hi
  omega

theorem Inv.put (h : s.Inv) (hi : s.idx < kprintfBufMax - 1) (c : UInt8) : Puts (s.put c) s [c] := by
  have hidx := h.idx
  unfold KprintfState.put KprintfState.store
  rw [if_pos hidx]
  refine ⟨_, rfl, ⟨?_, h.blocks⟩, ?_⟩
  · dsimp only
    omega
  · unfold text
    dsimp only
    rw [range_update, List.append_assoc]

/-- A character behind a check. -/
theorem Inv.putChecked (h : s.Inv) (c : UInt8) : Puts (s.checkAndFlush.put c) s [c] := by
  obtain ⟨hinv, hlt, htext⟩ := h.checkAndFlush
  exact (hinv.put hlt c).of_text htext

theorem Inv.putString (h : s.Inv) (cs : List UInt8) : Puts (putString cs s) s cs := by
  induction cs generalizing s with
  | nil => exact ⟨s, rfl, h, (List.append_nil _).symm⟩
  | cons c cs ih => exact (h.putChecked c).bind fun s' hs' => ih hs'

/-- The digits go behind the bytes of the buffer. -/
theorem putTemp_spec {maxLen i : ℕ} {temp : List UInt8} (hmax : i + temp.length ≤ maxLen)
    (hidx : s.idx + i + temp.length ≤ kprintfBufMax) : ∃ s', putTemp maxLen temp i s = .ok s' ∧
      s'.idx = s.idx + i + temp.length ∧ s'.blocks = s.blocks ∧
      (List.range s'.idx).map s'.localBuf = (List.range (s.idx + i)).map s.localBuf ++ temp := by
  induction temp generalizing i s with
  | nil => exact ⟨_, rfl, rfl, rfl, (List.append_nil _).symm⟩
  | cons c temp ih =>
    rw [List.length_cons] at hmax hidx
    unfold putTemp store
    rw [if_pos (by omega), if_pos (by omega)]
    obtain ⟨s', hs', hidx', hblocks, hbuf⟩ := ih (s := { s with localBuf := Function.update s.localBuf (s.idx + i) c })
      (i := i + 1) (by omega) (by dsimp only; omega)
    refine ⟨s', hs', ?_, hblocks, ?_⟩
    · rw [hidx', List.length_cons]
      dsimp only
      omega
    · rw [hbuf]
      dsimp only
      rw [← Nat.add_assoc, range_update, List.append_assoc, List.singleton_append]

/-- A number of 64 bits has at most `k` digits, and there is room for them. -/
theorem Inv.localPutnum {num base k : ℕ} (h : s.Inv) (hb : 1 < base) (hb' : base ≤ 16) (hk : 0 < k) (hnum : num < base ^ k)
    (hk64 : k ≤ 64) (hidx : s.idx + k < kprintfBufMax) :
    Puts (s.localPutnum (kprintfBufMax - 1) num base) s (Digits.text base num) := by
  have hmax : kprintfBufMax - 1 = 255 := rfl
  unfold KprintfState.localPutnum
  by_cases h0 : num = 0
  · subst h0
    rw [if_pos ⟨rfl, by decide⟩, Digits.text_zero]
    exact h.put (by omega) _
  · rw [if_neg fun hn => h0 hn.1, takeDigits_eq hb (fun d hd => Digits.digit_eq (hd.trans_le hb')) hnum
      (by omega : k < 65) [] (by simpa using hk64) (by simpa using hk64), List.append_nil]
    have htaken : Digits.taken base num = Digits.text base num := if_neg h0
    have hlen := (Digits.length_text_le_iff hb hk).mpr hnum
    rw [htaken]
    have hroom : s.idx + 0 + (Digits.text base num).length ≤ kprintfBufMax := by omega
    have hmax' : 0 + (Digits.text base num).length ≤ kprintfBufMax - 1 := by omega
    obtain ⟨s', hs', hidx', hblocks, hbuf⟩ := putTemp_spec hmax' hroom
    refine ⟨s', hs', ⟨by omega, hblocks ▸ h.blocks⟩, ?_⟩
    unfold text
    rw [hblocks, hbuf, ← List.append_assoc]
    rfl

theorem Inv.putNumber {num base k : ℕ} (h : s.Inv) (hb : 1 < base) (hb' : base ≤ 16) (hk : 0 < k) (hnum : num < base ^ k)
    (hk35 : k < 35) : Puts (s.putNumber num base) s (Digits.text base num) := by
  have hmax : kprintfBufMax = 256 := rfl
  unfold KprintfState.putNumber
  split_ifs with hfull
  · have hzero : s.flush.idx = 0 := rfl
    exact ((h.flush (by omega)).localPutnum hb hb' hk hnum (by omega) (by omega)).of_text (flush_text s)
  · exact h.localPutnum hb hb' hk hnum (by omega) (by omega)

theorem Inv.putHex {num : ℕ} (h : s.Inv) (hnum : num < 2 ^ 64) :
    Puts (s.putHex num) s (Item.prefix0x ++ Digits.text 16 num) := by
  have h16 : num < 16 ^ 16 := hnum
  exact (h.putChecked _).bind fun s₁ h₁ => (h₁.putChecked _).bind fun s₂ h₂ =>
    h₂.putNumber (by decide) (by decide) (by decide) h16 (by decide)

/-- The text of `%d`: the negated `int` is widened with its sign. -/
def decText (i : ℤ) : List UInt8 :=
  if i < 0 then '-'.toUInt8 :: Digits.text 10 (intToU64 (wrapInt (-i))) else Digits.text 10 (intToU64 i)

theorem Inv.putDec (h : s.Inv) (i : ℤ) : Puts (s.putDec i) s (decText i) := by
  have h10 : ∀ x, intToU64 x < 10 ^ 20 := fun x => by
    unfold intToU64
    omega
  unfold KprintfState.putDec decText
  split_ifs
  · exact (h.putChecked _).bind fun s₁ h₁ => h₁.putNumber (by decide) (by decide) (by decide) (h10 _) (by decide)
  · exact h.putNumber (by decide) (by decide) (by decide) (h10 _) (by decide)

/-- The text of a token. -/
def tokenText (mem : ℕ → CString) (args : ℕ → ℕ) (a : ℕ) : Token → List UInt8
  | .char c => [c]
  | .str => (mem (args a)).1
  | .dec => decText (wrapInt (args a))
  | .hex => Item.prefix0x ++ Digits.text 16 (args a % 2 ^ 32)
  | .llx | .ptr => Item.prefix0x ++ Digits.text 16 (args a % 2 ^ 64)
  | .percent => [percent]
  | .skip => []

theorem Inv.act (h : s.Inv) (hi : s.idx < kprintfBufMax - 1) (mem : ℕ → CString) (args : ℕ → ℕ) (t : Token) (a : ℕ) :
    Puts (act mem args t a s) s (tokenText mem args a t) := by
  cases t with
  | char c => exact h.put hi c
  | str => exact h.putString _
  | dec => exact h.putDec _
  | hex => exact h.putHex (by omega)
  | llx => exact h.putHex (by omega)
  | ptr => exact h.putHex (by omega)
  | percent => exact h.put hi _
  | skip => exact ⟨s, rfl, h, (List.append_nil _).symm⟩

theorem Inv.runTokens (h : s.Inv) (mem : ℕ → CString) (args : ℕ → ℕ) (ts : List Token) (a : ℕ) :
    Puts (runTokens KprintfState.checkAndFlush (KprintfState.act mem args) ts a s) s
      (tokensText (tokenText mem args) a ts) := by
  induction ts generalizing s a with
  | nil => exact ⟨s, rfl, h, (List.append_nil _).symm⟩
  | cons t ts ih =>
    obtain ⟨hinv, hlt, htext⟩ := h.checkAndFlush
    exact ((hinv.act hlt mem args t a).of_text htext).bind fun s' hs' => ih hs' _

end KprintfState

/-! ## Calls -/

section Calls
variable {localBuf : ℕ → UInt8} {mem : ℕ → CString} {args : ℕ → ℕ} {format : CString} {items : List Item}

open KprintfState in
/-- A call reads behind the terminator of a format with a lone percent sign at the end. On any other format it
passes on the text of the tokens, in blocks that fit the buffer. -/
theorem kprintf_spec (localBuf : ℕ → UInt8) (mem : ℕ → CString) (args : ℕ → ℕ) (format : CString) :
    ∃ blocks : List (List UInt8), (∀ b ∈ blocks, 1 ≤ b.length ∧ b.length < kprintfBufMax) ∧
      blocks.flatten = tokensText (tokenText mem args) 0 (tokens format.1) ∧
      kprintf localBuf mem args format =
        if lonePercent format.1 then .error .formatOverrun else .ok blocks := by
  have hinit : KprintfState.Inv ⟨localBuf, 0, []⟩ := ⟨show 0 < kprintfBufMax by decide, nofun⟩
  obtain ⟨s, hrun, hinv, htext⟩ := hinit.runTokens mem args (tokens format.1) 0
  have hend : (if 0 < s.idx then s.flush else s).Inv ∧ (if 0 < s.idx then s.flush else s).idx = 0 ∧
      (if 0 < s.idx then s.flush else s).text = s.text := by
    split_ifs with hidx
    · exact ⟨hinv.flush hidx, rfl, flush_text s⟩
    · exact ⟨hinv, by omega, rfl⟩
  obtain ⟨hinv', hidx, htext'⟩ := hend
  refine ⟨(if 0 < s.idx then s.flush else s).blocks, hinv'.blocks, ?_, ?_⟩
  · rw [htext] at htext'
    unfold KprintfState.text at htext'
    rw [hidx] at htext'
    simpa using htext'
  · unfold kprintf
    rw [formatFrom_eq (fun _ _ => rfl) format.2 (Nat.lt_succ_self _), hrun]
    cases lonePercent format.1 <;> rfl

/-- Every store of a call lies in `local_buf` and in the array of `local_putnum`, and every block has between 1
and 255 bytes. -/
theorem kprintf_stays_in_buffer (localBuf : ℕ → UInt8) (mem : ℕ → CString) (args : ℕ → ℕ) {format : CString}
    (h : lonePercent format.1 = false) : ∃ blocks, kprintf localBuf mem args format = .ok blocks ∧
      ∀ b ∈ blocks, 1 ≤ b.length ∧ b.length ≤ 255 := by
  obtain ⟨blocks, hblocks, -, heq⟩ := kprintf_spec localBuf mem args format
  rw [h] at heq
  exact ⟨blocks, heq, fun b hb => ⟨(hblocks b hb).1, Nat.le_of_lt_succ (hblocks b hb).2⟩⟩

/-- "%d%q" -/
def unknownFormat : CString := ⟨['%'.toUInt8, 'd'.toUInt8, '%'.toUInt8, 'q'.toUInt8], by decide⟩

theorem kprintf_stays_in_buffer_unknown : ∃ blocks,
    kprintf (fun _ => 0) (fun _ => ⟨[], List.not_mem_nil⟩) (fun _ => 7) unknownFormat = .ok blocks ∧
      ∀ b ∈ blocks, 1 ≤ b.length ∧ b.length ≤ 255 :=
  kprintf_stays_in_buffer _ _ _ (by decide)

/-- What a call prints for an item. -/
def kprintfItem : Item → List UInt8
  | .dec i => KprintfState.decText i.toInt
  | i => i.expand Item.prefix0x

theorem wrapInt_toInt {w : ℕ} {i : BitVec 32} (h : w % 2 ^ 32 = i.toNat) : wrapInt w = i.toInt := by
  have hlt := i.isLt
  rw [BitVec.toInt_eq_toNat_cond]
  unfold wrapInt
  split_ifs <;> omega

theorem tokenText_of_holds {i : Item} {a : ℕ} (h : i.Holds mem args a) :
    KprintfState.tokenText mem args a i.token = kprintfItem i := by
  cases i with
  | char c h0 hp => rfl
  | str s => exact congrArg Subtype.val h
  | dec i => exact congrArg KprintfState.decText (wrapInt_toInt h)
  | hex x => exact congrArg (Item.prefix0x ++ Digits.text 16 ·) h
  | llx x => exact congrArg (Item.prefix0x ++ Digits.text 16 ·) h
  | ptr x => exact congrArg (Item.prefix0x ++ Digits.text 16 ·) h
  | percent => rfl

/-- Only the least `int` is printed wrong, and then at too great a length. -/
theorem decText_eq (i : BitVec 32) : KprintfState.decText i.toInt = Digits.signedText 10 i.toInt ∧ i ≠ .intMin 32 ∨
    (Digits.signedText 10 i.toInt).length < (KprintfState.decText i.toInt).length ∧ i = .intMin 32 := by
  have hlow := BitVec.le_toInt i
  have hhigh := BitVec.toInt_lt (x := i)
  unfold KprintfState.decText Digits.signedText
  by_cases hmin : i = .intMin 32
  · right
    subst hmin
    refine ⟨?_, rfl⟩
    have hneg : (BitVec.intMin 32).toInt < 0 := by decide
    rw [if_pos hneg, if_pos hneg, List.length_cons, List.length_cons]
    have hbase : 1 < 10 := by decide
    have hdigits : 0 < 10 := by decide
    have hright : (BitVec.intMin 32).toInt.natAbs < 10 ^ 10 := by decide
    have hwide : 10 ^ 10 ≤ intToU64 (wrapInt (-(BitVec.intMin 32).toInt)) := by decide
    have := Digits.length_text_lt hbase hdigits hright hwide
    omega
  · left
    refine ⟨?_, hmin⟩
    have hne : i.toInt ≠ -2 ^ 31 := fun he => hmin (BitVec.eq_of_toInt_eq (he.trans (by decide)))
    have hwrap : i.toInt < 0 → intToU64 (wrapInt (-i.toInt)) = i.toInt.natAbs := fun hneg => by
      unfold intToU64 wrapInt
      omega
    have hnat : ¬i.toInt < 0 → intToU64 i.toInt = i.toInt.natAbs := fun hpos => by
      unfold intToU64
      omega
    split_ifs with hneg
    · rw [hwrap hneg]
    · rw [hnat hneg]

/-- The blocks of a call spell the format out exactly when no `%d` prints the least `int`. -/
theorem kprintf_expands_iff (localBuf : ℕ → UInt8) (h : ArgsMatch mem args 0 items) :
    ∃ blocks, kprintf localBuf mem args ⟨formatOf items, zero_notMem_formatOf items⟩ = .ok blocks ∧
      (blocks.flatten = items.flatMap (Item.expand Item.prefix0x) ↔ ∀ i, .dec i ∈ items → i ≠ BitVec.intMin 32) := by
  obtain ⟨htokens, hlone⟩ := tokens_formatOf items
  obtain ⟨blocks, -, hflat, heq⟩ := kprintf_spec localBuf mem args ⟨formatOf items, zero_notMem_formatOf items⟩
  rw [if_neg (by rw [hlone]; decide)] at heq
  refine ⟨blocks, heq, ?_⟩
  have hitems := tokensText_of_match (fun i _ a => tokenText_of_holds) h
  rw [hflat, htokens, hitems]
  constructor
  · intro hall i hi
    have hlen : ∀ i ∈ items, (i.expand Item.prefix0x).length ≤ (kprintfItem i).length := by
      intro i _
      cases i with
      | dec i => exact (decText_eq i).elim (fun h => (congrArg List.length h.1).ge) fun h => h.1.le
      | _ => exact le_rfl
    have heq := length_eq_of_flatMap_eq hlen hall.symm _ hi
    rcases decText_eq i with ⟨-, hne⟩ | ⟨hlt, -⟩
    · exact hne
    · exact absurd heq hlt.ne
  · intro hall
    refine List.flatMap_congr fun i hi => ?_
    cases i with
    | dec i => exact ((decText_eq i).resolve_right fun hmin => hall i hi hmin.2).1
    | _ => rfl

/-- "%d%%%x" -/
def mixedItems : List Item := [.dec (-5), .percent, .hex 0]

def mixedArgs : ℕ → ℕ
  | 0 => 2 ^ 32 - 5
  | _ => 0

theorem kprintf_expands_mixed : ∃ blocks, kprintf (fun _ => 0) (fun _ => ⟨[], List.not_mem_nil⟩) mixedArgs
      ⟨formatOf mixedItems, zero_notMem_formatOf mixedItems⟩ = .ok blocks ∧
    (blocks.flatten = mixedItems.flatMap (Item.expand Item.prefix0x) ↔
      ∀ i, .dec i ∈ mixedItems → i ≠ BitVec.intMin 32) :=
  kprintf_expands_iff _ ⟨rfl, trivial, rfl, trivial⟩

/-- What "%d" prints for the least `int`. -/
def intMinText : List UInt8 := "-18446744071562067968".toList.map Char.toUInt8

theorem kprintf_intMin : ArgsMatch (fun _ => ⟨[], List.not_mem_nil⟩) (fun _ => 2 ^ 31) 0 [.dec (.intMin 32)] ∧
    kprintf (fun _ => 0) (fun _ => ⟨[], List.not_mem_nil⟩) (fun _ => 2 ^ 31)
      ⟨formatOf [.dec (.intMin 32)], zero_notMem_formatOf _⟩ = .ok [intMinText] ∧
    [intMinText].flatten ≠ [Item.dec (.intMin 32)].flatMap (Item.expand Item.prefix0x) :=
  ⟨⟨rfl, trivial⟩, rfl, by decide +kernel⟩

end Calls
end PointerOS
