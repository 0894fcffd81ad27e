import PointerOS.Kprintf

/-!
# serial_print

`serial_print` sends its text to the port byte by byte. It passes the string of a `%s` to itself as a
format, so the directives of that string take words that nobody passed.
-/
namespace PointerOS

def serialPutNumber (num base : ℕ) (out : List UInt8) : Except Fault (List UInt8) :=
  if num = 0 then .ok (out ++ ['0'.toUInt8])
  else (takeDigits none 32 Digits.digit base 33 num []).map (out ++ ·)

/-- `(rem < 10) ? (rem + '0') : (rem - 10 + 'a')` -/
def hexDigit (rem : ℕ) : UInt8 :=
  if rem < 10 then UInt8.ofNat (rem + '0'.toNat) else UInt8.ofNat (rem - 10 + 'a'.toNat)

/-- The case of `%llx`. -/
def serialPutLong (val : ℕ) (out : List UInt8) : Except Fault (List UInt8) :=
  if val = 0 then .ok (out ++ ['0'.toUInt8])
  else (takeDigits none 16 hexDigit 16 17 val []).map (out ++ ·)

def serialPutDec (i : ℤ) (out : List UInt8) : Except Fault (List UInt8) :=
  if i < 0 then serialPutNumber (intToU32 (wrapInt (-i))) 10 (out ++ ['-'.toUInt8])
  else serialPutNumber (intToU32 i) 10 out

/-- "0x" -/
def format0x : CString := ⟨Item.prefix0x, by decide⟩

/-- The cases of the `switch`, for the argument with the number `a`; `print a` is the call of `serial_print`
that the case makes. -/
def serialAct (mem : ℕ → CString) (print : ℕ → CString → List UInt8 → Except Fault (List UInt8)) (args : ℕ → ℕ)
    (t : Token) (a : ℕ) (out : List UInt8) : Except Fault (List UInt8) :=
  match t with
  | .char c => .ok (out ++ [c])
  | .str => print a (mem (args a)) out
  | .dec => serialPutDec (wrapInt (args a)) out
  | .hex => serialPutNumber (args a % 2 ^ 32) 16 out
  | .llx => serialPutLong (args a % 2 ^ 64) out
  | .ptr => (print a format0x out).bind (serialPutNumber (args a % 2 ^ 32) 16)
  | .percent => .ok (out ++ [percent])
  | .skip => .ok out

/-- The bytes sent after a call, for a depth of fewer than `n` calls. `path` has the numbers of the arguments
for which the calls so far were made, and `junk` the words that a call without arguments finds. -/
def serialPrint (mem : ℕ → CString) (junk : List ℕ → ℕ → ℕ) :
    ℕ → List ℕ → CString → (ℕ → ℕ) → List UInt8 → Except Fault (List UInt8)
  | 0, _, _, _, _ => .error .stuck
  | n + 1, path, format, args, out =>
    let print := fun a s => serialPrint mem junk n (a :: path) s (junk (a :: path))
    formatFrom id (serialAct mem print args) (format.1.length + 1) (format.1 ++ [0]) 0 out

/-! ## Numbers -/

section Numbers
variable {num base : ℕ}

theorem hexDigit_eq {d : ℕ} (hd : d < 16) : hexDigit d = (Nat.digitChar d).toUInt8 := by
  interval_cases d <;> rfl

theorem serialPutNumber_eq (hb : 1 < base) (hb' : base ≤ 16) (hnum : num < 2 ^ 32) (out : List UInt8) :
    serialPutNumber num base out = .ok (out ++ Digits.text base num) := by
  unfold serialPutNumber
  by_cases h0 : num = 0
  · rw [if_pos h0, h0, Digits.text_zero]
  · have hpow : num < base ^ 32 := hnum.trans_le (Nat.pow_le_pow_left hb 32)
    rw [if_neg h0, takeDigits_eq hb (fun d hd => Digits.digit_eq (hd.trans_le hb')) hpow (by decide) []
      (by decide) fun l hl => absurd hl (Option.not_mem_none l), List.append_nil, Digits.taken, if_neg h0]
    rfl

theorem serialPutLong_eq (hnum : num < 2 ^ 64) (out : List UInt8) :
    serialPutLong num out = .ok (out ++ Digits.text 16 num) := by
  unfold serialPutLong
  by_cases h0 : num = 0
  · rw [if_pos h0, h0, Digits.text_zero]
  · have hpow : num < 16 ^ 16 := hnum
    rw [if_neg h0, takeDigits_eq (by decide) (fun d => hexDigit_eq) hpow (by decide) []
      (by decide) fun l hl => absurd hl (Option.not_mem_none l), List.append_nil, Digits.taken, if_neg h0]
    rfl

/-- Every `int` comes out right, also the least one. -/
theorem serialPutDec_eq (w : ℕ) (out : List UInt8) :
    serialPutDec (wrapInt w) out = .ok (out ++ Digits.signedText 10 (wrapInt w)) := by
  have hlow : -2 ^ 31 ≤ wrapInt w ∧ wrapInt w < 2 ^ 31 := by
    unfold wrapInt
    omega
  have hlt : ∀ i, intToU32 i < 2 ^ 32 := fun i => by
    unfold intToU32
    omega
  unfold serialPutDec Digits.signedText
  split_ifs with hneg
  · have hval : intToU32 (wrapInt (-wrapInt w)) = (wrapInt w).natAbs := by
      unfold intToU32
      rw [wrapInt]
      omega
    rw [serialPutNumber_eq (by decide) (by decide) (hlt _), hval, List.append_assoc]
    rfl
  · have hval : intToU32 (wrapInt w) = (wrapInt w).natAbs := by
      unfold intToU32
      omega
    rw [serialPutNumber_eq (by decide) (by decide) (hlt _), hval]

end Numbers

/-! ## Tokens -/

/-- The numbers of the arguments that the `%s` take. -/
def strArgs : ℕ → List Token → List ℕ
  | _, [] => []
  | a, t :: ts => (if t = .str then [a] else []) ++ strArgs (a + t.arity) ts

/-- The text of a token, with that of the strings. -/
def serialTokenText (sub : ℕ → List UInt8) (args : ℕ → ℕ) (a : ℕ) : Token → List UInt8
  | .char c => [c]
  | .str => sub a
  | .dec => Digits.signedText 10 (wrapInt (args a))
  | .hex => Digits.text 16 (args a % 2 ^ 32)
  | .llx => Digits.text 16 (args a % 2 ^ 64)
  | .ptr => Item.prefix0x ++ Digits.text 16 (args a % 2 ^ 32)
  | .percent => [percent]
  | .skip => []

theorem except_bind_eq_ok {ε α β : Type*} {x : Except ε α} {f : α → Except ε β} {b : β} (h : x.bind f = .ok b) :
    ∃ a, x = .ok a ∧ f a = .ok b := by
  cases x with
  | error e => cases h
  | ok a => exact ⟨a, rfl, h⟩

section Tokens
variable {mem : ℕ → CString} {args : ℕ → ℕ} {print print' : ℕ → CString → List UInt8 → Except Fault (List UInt8)}
  {sub : ℕ → List UInt8} {a : ℕ} {t : Token} {ts : List Token} {out out' : List UInt8}

theorem serialAct_eq (hptr : ∀ a out, print a format0x out = .ok (out ++ Item.prefix0x))
    (hstr : t = .str → ∀ out, print a (mem (args a)) out = .ok (out ++ sub a)) (out : List UInt8) :
    serialAct mem print args t a out = .ok (out ++ serialTokenText sub args a t) := by
  cases t with
  | char c => rfl
  | str => exact hstr rfl out
  | dec => exact serialPutDec_eq _ out
  | hex => exact serialPutNumber_eq (by decide) (by decide) (Nat.mod_lt _ (by decide)) out
  | llx => exact serialPutLong_eq (Nat.mod_lt _ (by decide)) out
  | ptr =>
    unfold serialAct
    rw [hptr]
    refine (serialPutNumber_eq (by decide) (by decide) (Nat.mod_lt _ (by decide)) _).trans ?_
    rw [List.append_assoc]
    rfl
  | percent => rfl
  | skip => exact congrArg _ (List.append_nil out).symm

theorem serialRun_eq (hptr : ∀ a out, print a format0x out = .ok (out ++ Item.prefix0x))
    (hstr : ∀ b ∈ strArgs a ts, ∀ out, print b (mem (args b)) out = .ok (out ++ sub b)) (out : List UInt8) :
    runTokens id (serialAct mem print args) ts a out = .ok (out ++ tokensText (serialTokenText sub args) a ts) := by
  induction ts generalizing a out with
  | nil => exact congrArg _ (List.append_nil out).symm
  | cons t ts ih =>
    have hhead : t = .str → ∀ out, print a (mem (args a)) out = .ok (out ++ sub a) := fun ht =>
      hstr a (List.mem_append_left _ (by rw [if_pos ht]; exact List.mem_singleton_self a))
    rw [runTokens, serialAct_eq hptr hhead, tokensText, ← List.append_assoc]
    exact ih (fun b hb => hstr b (List.mem_append_right _ hb)) _

/-- A run that ends has printed each of its strings. -/
theorem serialRun_str (h : runTokens id (serialAct mem print args) ts a out = .ok out') {b : ℕ} (hb : b ∈ strArgs a ts) :
    ∃ u u', print b (mem (args b)) u = .ok u' := by
  induction ts generalizing a out with
  | nil => cases hb
  | cons t ts ih =>
    obtain ⟨u, hu, hrest⟩ := except_bind_eq_ok h
    rcases List.mem_append.mp hb with hhere | hthere
    · by_cases ht : t = .str
      · rw [if_pos ht, List.mem_singleton] at hhere
        subst ht
        rw [hhere]
        exact ⟨_, u, hu⟩
      · rw [if_neg ht] at hhere
        cases hhere
    · exact ih hrest hthere

/-- A run that ends does so in the same way if the calls that ended still do. -/
theorem serialRun_mono (hprint : ∀ a s u u', print a s u = .ok u' → print' a s u = .ok u')
    (h : runTokens id (serialAct mem print args) ts a out = .ok out') :
    runTokens id (serialAct mem print' args) ts a out = .ok out' := by
  induction ts generalizing a out with
  | nil => exact h
  | cons t ts ih =>
    obtain ⟨u, hu, hrest⟩ := except_bind_eq_ok h
    have hu' : serialAct mem print' args t a out = .ok u := by
      cases t with
      | str => exact hprint _ _ _ _ hu
      | ptr =>
        obtain ⟨v, hv, hput⟩ := except_bind_eq_ok hu
        exact (congrArg (Except.bind · _) (hprint a format0x out v hv)).trans hput
      | _ => exact hu
    rw [runTokens, id, hu']
    exact ih hrest

theorem serialRun_plain (p : List UInt8) (a : ℕ) (out : List UInt8) :
    runTokens id (serialAct mem print args) (p.map .char) a out = .ok (out ++ p) := by
  induction p generalizing out with
  | nil => exact congrArg _ (List.append_nil out).symm
  | cons c p ih =>
    refine (ih (out ++ [c])).trans ?_
    rw [List.append_assoc]
    rfl

theorem strArgs_eq_nil (h : .str ∉ ts) (a : ℕ) : strArgs a ts = [] := by
  induction ts generalizing a with
  | nil => rfl
  | cons t ts ih =>
    rw [List.mem_cons, not_or] at h
    rw [strArgs, if_neg (Ne.symm h.1), ih h.2]
    rfl

theorem exists_mem_strArgs (h : .str ∈ ts) (a : ℕ) : ∃ b, b ∈ strArgs a ts := by
  induction ts generalizing a with
  | nil => cases h
  | cons t ts ih =>
    by_cases ht : t = .str
    · exact ⟨a, List.mem_append_left _ (by rw [if_pos ht]; exact List.mem_singleton_self a)⟩
    · obtain ⟨b, hb⟩ := ih ((List.mem_cons.mp h).resolve_left (Ne.symm ht)) (a + t.arity)
      exact ⟨b, List.mem_append_right _ hb⟩

end Tokens

/-! ## Calls -/

/-- A call without arguments can print the string. -/
def Printable (s : CString) : Prop := lonePercent s.1 = false ∧ .str ∉ tokens s.1

/-- What it prints then. -/
def nestedText (args : ℕ → ℕ) (s : CString) : List UInt8 :=
  tokensText (serialTokenText (fun _ => []) args) 0 (tokens s.1)

section Calls
variable {mem : ℕ → CString} {junk : List ℕ → ℕ → ℕ} {n : ℕ} {path : List ℕ} {s format : CString} {args : ℕ → ℕ}
  {out out' : List UInt8}

/-- A call carries out the tokens of its format, and then reads behind the terminator or ends. -/
theorem serialPrint_succ : serialPrint mem junk (n + 1) path format args out =
    (runTokens id (serialAct mem (fun a s => serialPrint mem junk n (a :: path) s (junk (a :: path))) args)
      (tokens format.1) 0 out).bind fun out => if lonePercent format.1 then .error .formatOverrun else .ok out :=
  formatFrom_eq (fun _ _ => rfl) format.2 (Nat.lt_succ_self _) 0 out

theorem serialPrint_ok (h : serialPrint mem junk (n + 1) path format args out = .ok out') :
    lonePercent format.1 = false ∧
      runTokens id (serialAct mem (fun a s => serialPrint mem junk n (a :: path) s (junk (a :: path))) args)
        (tokens format.1) 0 out = .ok out' := by
  rw [serialPrint_succ] at h
  obtain ⟨u, hu, hend⟩ := except_bind_eq_ok h
  split_ifs at hend with hlone
  obtain rfl := Except.ok.inj hend
  exact ⟨Bool.eq_false_of_not_eq_true hlone, hu⟩

theorem serialPrint_of_run (hlone : lonePercent format.1 = false)
    (h : runTokens id (serialAct mem (fun a s => serialPrint mem junk n (a :: path) s (junk (a :: path))) args)
      (tokens format.1) 0 out = .ok out') : serialPrint mem junk (n + 1) path format args out = .ok out' := by
  rw [serialPrint_succ, h, hlone]
  rfl

/-- A greater depth does not change a call that ends. -/
theorem serialPrint_succ_of_ok (h : serialPrint mem junk n path format args out = .ok out') :
    serialPrint mem junk (n + 1) path format args out = .ok out' := by
  induction n generalizing path format args out out' with
  | zero => cases h
  | succ n ih =>
    obtain ⟨hlone, hrun⟩ := serialPrint_ok h
    exact serialPrint_of_run hlone (serialRun_mono (fun a s u u' hu => ih hu) hrun)

theorem serialPrint_mono {m : ℕ} (hle : n ≤ m) (h : serialPrint mem junk n path format args out = .ok out') :
    serialPrint mem junk m path format args out = .ok out' := by
  induction m, hle using Nat.le_induction with
  | base => exact h
  | succ m _ ih => exact serialPrint_succ_of_ok ih

/-- A format without percent signs is printed as it is. -/
theorem serialPrint_plain (hs : percent ∉ s.1) (n : ℕ) (path : List ℕ) (args : ℕ → ℕ) (out : List UInt8) :
    serialPrint mem junk (n + 1) path s args out = .ok (out ++ s.1) := by
  obtain ⟨htokens, hlone⟩ := tokens_plain hs
  refine serialPrint_of_run hlone ?_
  rw [htokens]
  exact serialRun_plain s.1 0 out

theorem serialPrint_format0x (n : ℕ) (path : List ℕ) (args : ℕ → ℕ) (out : List UInt8) :
    serialPrint mem junk (n + 1) path format0x args out = .ok (out ++ Item.prefix0x) :=
  serialPrint_plain (by decide) n path args out

theorem serialPrint_printable (hs : Printable s) (n : ℕ) (path : List ℕ) (args : ℕ → ℕ) (out : List UInt8) :
    serialPrint mem junk (n + 2) path s args out = .ok (out ++ nestedText args s) := by
  refine serialPrint_of_run hs.1 (serialRun_eq (fun _ out => serialPrint_format0x n _ _ out) ?_ out)
  rw [strArgs_eq_nil hs.2]
  exact nofun

theorem serialPrint_eq (hlone : lonePercent format.1 = false)
    (hstr : ∀ b ∈ strArgs 0 (tokens format.1), Printable (mem (args b))) (n : ℕ) (path : List ℕ) (out : List UInt8) :
    serialPrint mem junk (n + 3) path format args out = .ok (out ++
      tokensText (serialTokenText (fun a => nestedText (junk (a :: path)) (mem (args a))) args) 0 (tokens format.1)) :=
  serialPrint_of_run hlone (serialRun_eq (fun _ out => serialPrint_format0x (n + 1) _ _ out)
    (fun b hb out => serialPrint_printable (hstr b hb) n _ _ out) out)

/-- A string with a `%s` that finds itself as its argument is printed without end. -/
theorem serialPrint_self {k : ℕ} (hk : mem k = s) (hs : .str ∈ tokens s.1) (n : ℕ) (path : List ℕ) (out : List UInt8) :
    ¬∃ out', serialPrint mem (fun _ _ => k) n path s (fun _ => k) out = .ok out' := by
  induction n generalizing path out with
  | zero => exact nofun
  | succ n ih =>
    intro ⟨out', h⟩
    obtain ⟨b, hb⟩ := exists_mem_strArgs hs 0
    obtain ⟨u, u', hu⟩ := serialRun_str (serialPrint_ok h).2 hb
    rw [hk] at hu
    exact ih _ u ⟨u', hu⟩

/-- A call comes to its end, whatever the calls without arguments find, if and only if its format does not end in a
lone percent sign and each of its strings can be printed without arguments. -/
theorem serialPrint_returns_iff : (∀ junk, ∃ n out, serialPrint mem junk n [] format args [] = .ok out) ↔
    lonePercent format.1 = false ∧ ∀ b ∈ strArgs 0 (tokens format.1), Printable (mem (args b)) := by
  constructor
  · intro h
    have hrun : ∀ junk, ∃ n out, lonePercent format.1 = false ∧
        runTokens id (serialAct mem (fun a s => serialPrint mem junk n [a] s (junk [a])) args) (tokens format.1) 0 [] =
          .ok out := by
      intro junk
      obtain ⟨n, out, hn⟩ := h junk
      cases n with
      | zero => cases hn
      | succ n => exact ⟨n, out, serialPrint_ok hn⟩
    obtain ⟨-, -, hlone, -⟩ := hrun fun _ _ => 0
    refine ⟨hlone, fun b hb => ?_⟩
    obtain ⟨n, out, -, hout⟩ := hrun fun _ _ => args b
    obtain ⟨u, u', hu⟩ := serialRun_str hout hb
    refine ⟨?_, fun hs => serialPrint_self rfl hs n [b] u ⟨u', hu⟩⟩
    cases n with
    | zero => cases hu
    | succ n => exact (serialPrint_ok hu).1
  · intro ⟨hlone, hstr⟩ junk
    exact ⟨3, _, serialPrint_eq hlone hstr 0 [] []⟩

/-! ## The end of a format -/

/-- Both functions stay in front of the terminator of a format and return, whatever the calls without arguments
find: for `kprintf` if no lone percent sign ends the format, for `serial_print` if also each string of a `%s`
ends in none and has no `%s`. -/
theorem format_ends_iff (localBuf : ℕ → UInt8) (mem : ℕ → CString) (args : ℕ → ℕ) (format : CString) :
    ((∃ blocks, kprintf localBuf mem args format = .ok blocks) ↔ lonePercent format.1 = false) ∧
      ((∀ junk, ∃ n out, serialPrint mem junk n [] format args [] = .ok out) ↔
        lonePercent format.1 = false ∧ ∀ b ∈ strArgs 0 (tokens format.1),
          lonePercent (mem (args b)).1 = false ∧ .str ∉ tokens (mem (args b)).1) := by
  refine ⟨?_, serialPrint_returns_iff⟩
  obtain ⟨blocks, -, -, heq⟩ := kprintf_spec localBuf mem args format
  rw [heq]
  cases lonePercent format.1 with
  | false => exact ⟨fun _ => rfl, fun _ => ⟨blocks, rfl⟩⟩
  | true => exact ⟨nofun, nofun⟩

/-- "50%" -/
def loneFormat : CString := ⟨['5'.toUInt8, '0'.toUInt8, percent], by decide⟩

theorem format_ends_lone : kprintf (fun _ => 0) (fun _ => ⟨[], List.not_mem_nil⟩) (fun _ => 0) loneFormat =
      .error .formatOverrun ∧
    ∀ n, serialPrint (fun _ => ⟨[], List.not_mem_nil⟩) (fun _ _ => 0) (n + 1) [] loneFormat (fun _ => 0) [] =
      .error .formatOverrun := by
  refine ⟨rfl, fun n => ?_⟩
  rfl

end Calls

/-! ## Formats with their arguments -/

/-- The text of an item, with that of the strings. -/
def serialItem (sub : CString → List UInt8) : Item → List UInt8
  | .str s => sub s
  | .ptr x => Item.prefix0x ++ Digits.text 16 (x.toNat % 2 ^ 32)
  | i => i.expand []

section Expansion
variable {mem : ℕ → CString} {args : ℕ → ℕ} {items : List Item}

theorem serialTokenText_of_holds {i : Item} {a : ℕ} {sub : ℕ → List UInt8} {sub' : CString → List UInt8}
    (hsub : ∀ s, i = .str s → sub a = sub' s) (h : i.Holds mem args a) :
    serialTokenText sub args a i.token = serialItem sub' i := by
  cases i with
  | char c h0 hp => rfl
  | str s => exact hsub s rfl
  | dec i => exact congrArg (Digits.signedText 10) (wrapInt_toInt h)
  | hex x => exact congrArg (Digits.text 16) h
  | llx x => exact congrArg (Digits.text 16) h
  | ptr x =>
    have hlow : args a % 2 ^ 32 = x.toNat % 2 ^ 32 := by
      rw [← show args a % 2 ^ 64 = x.toNat from h]
      omega
    exact congrArg (Item.prefix0x ++ Digits.text 16 ·) hlow
  | percent => rfl

theorem percent_notMem_signedText (i : ℤ) : percent ∉ Digits.signedText 10 i := by
  unfold Digits.signedText
  split_ifs
  · rw [List.mem_cons, not_or]
    exact ⟨by decide, Digits.percent_notMem_text (by decide) (by decide)⟩
  · exact Digits.percent_notMem_text (by decide) (by decide)

theorem percent_notMem_hex (n : ℕ) : percent ∉ Item.prefix0x ++ Digits.text 16 n := by
  rw [List.mem_append, not_or]
  exact ⟨by decide, Digits.percent_notMem_text (by decide) (by decide)⟩

/-- A directive of one character is printed with fewer percent signs than it is written with. -/
theorem count_directive (args : ℕ → ℕ) (a : ℕ) (d : UInt8) :
    (serialTokenText (fun _ => []) args a (.ofChar d)).count percent < [percent, d].count percent := by
  by_cases hd : d = percent
  · subst hd
    have hone : [percent].count percent < [percent, percent].count percent := by decide
    exact hone
  · have htext : percent ∉ serialTokenText (fun _ => []) args a (.ofChar d) := by
      unfold Token.ofChar
      split_ifs
      · exact List.not_mem_nil
      · exact percent_notMem_signedText _
      · exact Digits.percent_notMem_text (by decide) (by decide)
      · exact percent_notMem_hex _
      · exact List.not_mem_nil
    rw [List.count_eq_zero_of_not_mem htext, List.count_cons_self]
    exact Nat.succ_pos _

/-- A string with percent signs loses some of them. -/
theorem count_tokensText (args : ℕ → ℕ) (a : ℕ) (p : List UInt8) :
    (tokensText (serialTokenText (fun _ => []) args) a (tokens p)).count percent ≤ p.count percent ∧
      (percent ∈ p → (tokensText (serialTokenText (fun _ => []) args) a (tokens p)).count percent < p.count percent) := by
  induction p using format_cases generalizing a with
  | nil => exact ⟨by rw [tokens.eq_def]; exact le_rfl, nofun⟩
  | char c p hc ih =>
    obtain ⟨hle, hlt⟩ := ih a
    rw [tokens_cons hc]
    have hcount : (tokensText (serialTokenText (fun _ => []) args) a (.char c :: tokens p)).count percent =
        (tokensText (serialTokenText (fun _ => []) args) a (tokens p)).count percent :=
      List.count_cons_of_ne hc
    rw [hcount, List.count_cons_of_ne hc, List.mem_cons]
    exact ⟨hle, fun hp => hlt (hp.resolve_left (Ne.symm hc))⟩
  | lone =>
    rw [tokens_lone]
    have hone : ([] : List UInt8).count percent < [percent].count percent := by decide
    exact ⟨hone.le, fun _ => hone⟩
  | llx p ih =>
    have hle := (ih (a + 1)).1
    rw [tokens_llx, tokensText, List.count_append]
    have hzero : (serialTokenText (fun _ => []) args a .llx).count percent = 0 :=
      List.count_eq_zero_of_not_mem (Digits.percent_notMem_text (by decide) (by decide))
    have hsource : (percent :: 'l'.toUInt8 :: 'l'.toUInt8 :: 'x'.toUInt8 :: p).count percent = p.count percent + 1 := by
      rw [List.count_cons_self, List.count_cons_of_ne (by decide), List.count_cons_of_ne (by decide),
        List.count_cons_of_ne (by decide)]
    have hlt : (tokensText (serialTokenText (fun _ => []) args) (a + 1) (tokens p)).count percent <
      p.count percent + 1 := by omega
    rw [hzero, hsource, Nat.zero_add]
    exact ⟨hlt.le, fun _ => hlt⟩
  | directive d p hl ih =>
    have hle := (ih (a + (Token.ofChar d).arity)).1
    have hhead := count_directive args a d
    have hsource : (percent :: d :: p).count percent = [percent, d].count percent + p.count percent := by
      rw [← List.count_append]
      rfl
    rw [tokens_directive hl, tokensText, List.count_append, hsource]
    exact ⟨by omega, fun _ => by omega⟩

theorem nestedText_plain {s : CString} (hs : percent ∉ s.1) (args : ℕ → ℕ) : nestedText args s = s.1 := by
  unfold nestedText
  rw [(tokens_plain hs).1]
  generalize 0 = a
  induction s.1 generalizing a with
  | nil => rfl
  | cons c p ih => exact congrArg (List.cons c) (ih a)

/-- The strings behind the `%s` are those of the items. -/
theorem mem_of_strArgs {a b : ℕ} (h : ArgsMatch mem args a items) (hb : b ∈ strArgs a (items.map Item.token)) :
    .str (mem (args b)) ∈ items := by
  induction items generalizing a with
  | nil => cases hb
  | cons i items ih =>
    rcases List.mem_append.mp hb with hhere | hthere
    · cases i with
      | str s =>
        rw [List.mem_singleton.mp hhere, show mem (args a) = s from h.1]
        exact List.mem_cons_self
      | _ => cases hhere
    · exact List.mem_cons_of_mem i (ih h.2 hthere)

/-- Strings without percent signs come out right, and so do the items around them up to 64-bit pointers. -/
theorem serialPrint_items (h : ArgsMatch mem args 0 items) (hstr : ∀ s, .str s ∈ items → Printable s)
    {junk : List ℕ → ℕ → ℕ} {sub : CString → List UInt8}
    (hsub : ∀ s, .str s ∈ items → ∀ a, nestedText (junk [a]) s = sub s) (n : ℕ) :
    serialPrint mem junk (n + 3) [] ⟨formatOf items, zero_notMem_formatOf items⟩ args [] =
      .ok (items.flatMap (serialItem sub)) := by
  obtain ⟨htokens, hlone⟩ := tokens_formatOf items
  refine (serialPrint_eq hlone ?_ n [] []).trans (congrArg _ ?_)
  · rw [htokens]
    exact fun b hb => hstr _ (mem_of_strArgs h hb)
  · rw [htokens, List.nil_append]
    refine tokensText_of_match (fun i hi a ha => serialTokenText_of_holds (fun s hs => ?_) ha) h
    subst hs
    rw [show mem (args a) = s from ha]
    exact hsub s hi a

theorem exists_strArgs {a : ℕ} {s : CString} (h : ArgsMatch mem args a items) (hs : .str s ∈ items) :
    ∃ b ∈ strArgs a (items.map Item.token), mem (args b) = s := by
  induction items generalizing a with
  | nil => cases hs
  | cons i items ih =>
    rcases List.mem_cons.mp hs with rfl | hs
    · exact ⟨a, List.mem_append_left _ (List.mem_singleton_self a), h.1⟩
    · obtain ⟨b, hb, hmem⟩ := ih h.2 hs
      exact ⟨b, List.mem_append_right _ hb, hmem⟩

theorem serialItem_ptr {x : BitVec 64} (hx : x.toNat < 2 ^ 32) (sub : CString → List UInt8) :
    serialItem sub (.ptr x) = Item.expand [] (.ptr x) :=
  congrArg (Item.prefix0x ++ Digits.text 16 ·) (Nat.mod_eq_of_lt hx)

theorem serialItem_congr {i : Item} {sub sub' : CString → List UInt8} (h : ∀ s, i = .str s → sub s = sub' s) :
    serialItem sub i = serialItem sub' i := by
  cases i with
  | str s => exact h s rfl
  | _ => rfl

/-- The pointers that do not fit 32 bits are too short. -/
theorem length_serialItem_le (i : Item) : (serialItem Subtype.val i).length ≤ (i.expand []).length ∧
    ∀ x, i = .ptr x → (serialItem Subtype.val i).length = (i.expand []).length → x.toNat < 2 ^ 32 := by
  cases i with
  | ptr x =>
    have hlen : x.toNat < 2 ^ 32 ∨ (serialItem Subtype.val (.ptr x)).length < (Item.expand [] (.ptr x)).length := by
      refine (Nat.lt_or_ge x.toNat (2 ^ 32)).imp_right fun hge => ?_
      have hlow : x.toNat % 2 ^ 32 < 16 ^ 8 := Nat.mod_lt _ (by decide)
      have hshort := Digits.length_text_lt (by decide) (by decide) hlow hge
      simp only [serialItem, Item.expand, List.length_append]
      omega
    rcases hlen with hlt | hlt
    · exact ⟨(congrArg List.length (serialItem_ptr hlt _)).le, fun y hy _ => Item.ptr.inj hy ▸ hlt⟩
    · exact ⟨hlt.le, fun y _ heq => absurd heq hlt.ne⟩
  | _ => exact ⟨le_rfl, nofun⟩

/-- A string with percent signs is printed with fewer of them. -/
theorem count_serialItem_le (args : ℕ → ℕ) (i : Item) :
    (serialItem (nestedText args) i).count percent ≤ (i.expand []).count percent ∧
      ∀ s, i = .str s → (serialItem (nestedText args) i).count percent = (i.expand []).count percent → percent ∉ s.1 := by
  cases i with
  | str s =>
    obtain ⟨hle, hlt⟩ := count_tokensText args 0 s.1
    refine ⟨hle, fun s' hs' heq hp => ?_⟩
    obtain rfl := Item.str.inj hs'
    exact absurd heq (hlt hp).ne
  | ptr x =>
    have hzero := List.count_eq_zero_of_not_mem (percent_notMem_hex (x.toNat % 2 ^ 32))
    exact ⟨hzero.le.trans (Nat.zero_le _), nofun⟩
  | _ => exact ⟨le_rfl, nofun⟩

/-- The bytes sent are the expansion of the format, whatever the calls without arguments find, if and only if no
string has a percent sign and every pointer fits 32 bits. -/
theorem serialPrint_expands_iff (h : ArgsMatch mem args 0 items) :
    (∀ junk, ∃ n, serialPrint mem junk n [] ⟨formatOf items, zero_notMem_formatOf items⟩ args [] =
      .ok (items.flatMap (Item.expand []))) ↔
    (∀ s, .str s ∈ items → percent ∉ s.1) ∧ ∀ x, .ptr x ∈ items → x.toNat < 2 ^ 32 := by
  constructor
  · intro hall
    have hprintable : ∀ s, .str s ∈ items → Printable s := by
      obtain ⟨-, hargs⟩ := serialPrint_returns_iff.mp fun junk => (hall junk).imp fun n hn => ⟨_, hn⟩
      rw [(tokens_formatOf items).1] at hargs
      intro s hs
      obtain ⟨b, hb, rfl⟩ := exists_strArgs h hs
      exact hargs b hb
    -- what the calls without arguments find is zero in this run
    obtain ⟨n, hn⟩ := hall fun _ _ => 0
    have heq : items.flatMap (serialItem (nestedText fun _ => 0)) = items.flatMap (Item.expand []) := by
      have hmono := serialPrint_mono (Nat.le_add_right n 3) hn
      rw [serialPrint_items h hprintable (fun _ _ _ => rfl) n] at hmono
      exact Except.ok.inj hmono
    have hplain : ∀ s, .str s ∈ items → percent ∉ s.1 := by
      have hcount := count_eq_of_flatMap_eq (fun i _ => (count_serialItem_le (fun _ => 0) i).1) heq
      exact fun s hs => (count_serialItem_le (fun _ => 0) (.str s)).2 s rfl (hcount _ hs)
    have heq' : items.flatMap (serialItem Subtype.val) = items.flatMap (Item.expand []) := by
      refine (List.flatMap_congr fun i hi => serialItem_congr fun s hs => ?_).trans heq
      subst hs
      exact (nestedText_plain (hplain s hi) _).symm
    have hlen := length_eq_of_flatMap_eq (fun i _ => (length_serialItem_le i).1) heq'
    exact ⟨hplain, fun x hx => (length_serialItem_le (.ptr x)).2 x rfl (hlen _ hx)⟩
  · intro ⟨hplain, hptr⟩ junk
    have hprintable : ∀ s, .str s ∈ items → Printable s := by
      intro s hs
      obtain ⟨htokens, hlone⟩ := tokens_plain (hplain s hs)
      refine ⟨hlone, ?_⟩
      rw [htokens]
      intro hstr
      obtain ⟨c, -, hc⟩ := List.mem_map.mp hstr
      cases hc
    refine ⟨3, (serialPrint_items h hprintable (fun s hs _ => nestedText_plain (hplain s hs) _) 0).trans ?_⟩
    refine congrArg _ (List.flatMap_congr fun i hi => ?_)
    cases i with
    | ptr x => exact serialItem_ptr (hptr x hi) _
    | _ => rfl

/-- The strings of a call with the string "ok" at the address 0. -/
def okMem : ℕ → CString
  | 0 => ⟨['o'.toUInt8, 'k'.toUInt8], by decide⟩
  | _ => ⟨[], List.not_mem_nil⟩

/-- "%s%d%p" -/
def serialItems : List Item := [.str (okMem 0), .dec (.intMin 32), .ptr 0xfee00000]

def serialArgs : ℕ → ℕ
  | 0 => 0
  | 1 => 2 ^ 31
  | _ => 0xfee00000

theorem serialPrint_expands_ok : (∀ junk, ∃ n, serialPrint okMem junk n []
      ⟨formatOf serialItems, zero_notMem_formatOf serialItems⟩ serialArgs [] =
        .ok (serialItems.flatMap (Item.expand []))) ↔
    (∀ s, .str s ∈ serialItems → percent ∉ s.1) ∧ ∀ x, .ptr x ∈ serialItems → x.toNat < 2 ^ 32 :=
  serialPrint_expands_iff ⟨rfl, rfl, rfl, trivial⟩

/-- "%s" with the string "%%" -/
def percentItems : List Item := [.str ⟨[percent, percent], by decide⟩]

/-- "%p" with an address behind 4 GiB -/
def highItems : List Item := [.ptr 0x100000000]

theorem serialPrint_changes_text :
    (ArgsMatch (fun _ => ⟨[percent, percent], by decide⟩) (fun _ => 0) 0 percentItems ∧
      ∀ n, serialPrint (fun _ => ⟨[percent, percent], by decide⟩) (fun _ _ => 0) (n + 2) []
        ⟨formatOf percentItems, zero_notMem_formatOf percentItems⟩ (fun _ => 0) [] = .ok [percent]) ∧
    [percent] ≠ percentItems.flatMap (Item.expand []) ∧
    (ArgsMatch okMem (fun _ => 0x100000000) 0 highItems ∧
      ∀ n, serialPrint okMem (fun _ _ => 0) (n + 2) [] ⟨formatOf highItems, zero_notMem_formatOf highItems⟩
        (fun _ => 0x100000000) [] = .ok (Item.prefix0x ++ ['0'.toUInt8])) ∧
    Item.prefix0x ++ ['0'.toUInt8] ≠ highItems.flatMap (Item.expand []) :=
  ⟨⟨⟨rfl, trivial⟩, fun _ => rfl⟩, by decide, ⟨⟨rfl, trivial⟩, fun _ => rfl⟩, by decide +kernel⟩

end Expansion
end PointerOS
