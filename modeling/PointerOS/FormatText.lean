import PointerOS.Digits
import Mathlib

/-!
# Format strings

`kprintf` and `serial_print` read their formats with the same loop, once each. What a turn does with a
directive is a parameter here. The loop reads behind the terminator exactly when the format ends in a
lone percent sign; on any other format it carries out its tokens in order.
-/
namespace PointerOS

/-- A string in memory, without its terminator. -/
abbrev CString := {s : List UInt8 // 0 ∉ s}

def percent : UInt8 := '%'.toUInt8

/-- What can go wrong: a read behind the terminator, a store outside an array, and a loop or a recursion
that is not over. -/
inductive Fault
  | formatOverrun
  | bufferOverrun
  | scratchOverrun
  | stuck
deriving DecidableEq

/-- An ordinary character, a directive, or a percent sign with a character that stands for none. -/
inductive Token
  | char (c : UInt8)
  | str
  | dec
  | hex
  | llx
  | ptr
  | percent
  | skip
deriving DecidableEq

namespace Token

/-- How many arguments the directive takes. -/
def arity : Token → ℕ
  | str | dec | hex | llx | ptr => 1
  | _ => 0

/-- The directive of one character behind the percent sign. -/
def ofChar (d : UInt8) : Token :=
  if d = 's'.toUInt8 then str
  else if d = 'd'.toUInt8 then dec
  else if d = 'x'.toUInt8 then hex
  else if d = 'p'.toUInt8 then ptr
  else if d = PointerOS.percent then percent
  else skip

end Token

/-! ## The loop -/

/-- `*p`, for the bytes from `p` up to the terminator. -/
def deref : List UInt8 → Except Fault UInt8
  | [] => .error .formatOverrun
  | c :: _ => .ok c

/-- The body of the loop up to the action: the token at `p`, and where `p` stands at the end of the turn. -/
def nextToken (p : List UInt8) : Except Fault (Token × List UInt8) :=
  (deref p).bind fun c =>
    if c ≠ percent then .ok (.char c, p)
    else
      let p := p.tail
      (deref p).bind fun d =>
        if d = 'l'.toUInt8 then
          (deref p.tail).bind fun e =>
            if e = 'l'.toUInt8 then
              (deref p.tail.tail).bind fun f =>
                if f = 'x'.toUInt8 then .ok (.llx, p.tail.tail) else .ok (.skip, p)
            else .ok (.skip, p)
        else .ok (.ofChar d, p)

section Loop
variable {σ : Type*} (turn : σ → σ) (act : Token → ℕ → σ → Except Fault σ)

/-- `for (p = format; *p; p++)` for at most `n` turns. `turn` is done at the start of a turn, and `act` gets
the number of the next argument. -/
def formatFrom : ℕ → List UInt8 → ℕ → σ → Except Fault σ
  | 0, _, _, _ => .error .stuck
  | n + 1, p, a, st =>
    (deref p).bind fun c =>
      if c = 0 then .ok st
      else
        (nextToken p).bind fun (t, p) =>
          (act t a (turn st)).bind (formatFrom n p.tail (a + t.arity))

/-- Tokens in order. -/
def runTokens : List Token → ℕ → σ → Except Fault σ
  | [], _, st => .ok st
  | t :: ts, a, st => (act t a (turn st)).bind (runTokens ts (a + t.arity))

end Loop

/-- The text of tokens in order, from the argument `a` on. -/
def tokensText (text : ℕ → Token → List UInt8) : ℕ → List Token → List UInt8
  | _, [] => []
  | a, t :: ts => text a t ++ tokensText text (a + t.arity) ts

/-! ## The tokens of a format -/

/-- The format ends in a percent sign that no character follows. -/
def lonePercent : List UInt8 → Bool
  | [] => false
  | [c] => c = percent
  | c :: d :: p => if c = percent then lonePercent p else lonePercent (d :: p)

/-- The tokens, without a lone percent sign at the end. -/
def tokens : List UInt8 → List Token
  | [] => []
  | c :: p =>
    if c ≠ percent then .char c :: tokens p
    else
      match p with
      | [] => []
      | d :: p =>
        if d = 'l'.toUInt8 ∧ ['l'.toUInt8, 'x'.toUInt8] <+: p then .llx :: tokens (p.drop 2)
        else .ofChar d :: tokens p
termination_by p => p.length
decreasing_by all_goals simp_wf <;> omega

theorem except_bind_assoc {ε α β γ : Type*} (x : Except ε α) (f : α → Except ε β) (g : β → Except ε γ) :
    (x.bind f).bind g = x.bind fun a => (f a).bind g := by
  cases x <;> rfl

section Parse
variable {c d : UInt8} {p : List UInt8}

theorem lonePercent_cons (hc : c ≠ percent) (p : List UInt8) : lonePercent (c :: p) = lonePercent p := by
  cases p with
  | nil => exact decide_eq_false hc
  | cons d p => rw [lonePercent, if_neg hc]

theorem lonePercent_directive (d : UInt8) (p : List UInt8) : lonePercent (percent :: d :: p) = lonePercent p := by
  rw [lonePercent, if_pos rfl]

theorem tokens_cons (hc : c ≠ percent) (p : List UInt8) : tokens (c :: p) = .char c :: tokens p := by
  rw [tokens.eq_def]
  exact if_pos hc

theorem tokens_plain (h : percent ∉ p) : tokens p = p.map .char ∧ lonePercent p = false := by
  induction p with
  | nil => exact ⟨tokens.eq_def [], rfl⟩
  | cons c p ih =>
    rw [List.mem_cons, not_or] at h
    obtain ⟨htokens, hlone⟩ := ih h.2
    exact ⟨(tokens_cons (Ne.symm h.1) p).trans (congrArg _ htokens), (lonePercent_cons (Ne.symm h.1) p).trans hlone⟩

theorem tokens_lone : tokens [percent] = [] := by
  rw [tokens.eq_def]
  exact if_neg (by decide)

theorem tokens_directive (h : ¬(d = 'l'.toUInt8 ∧ ['l'.toUInt8, 'x'.toUInt8] <+: p)) :
    tokens (percent :: d :: p) = .ofChar d :: tokens p := by
  rw [tokens.eq_def]
  exact (if_neg (by decide)).trans (if_neg h)

theorem tokens_llx (p : List UInt8) :
    tokens (percent :: 'l'.toUInt8 :: 'l'.toUInt8 :: 'x'.toUInt8 :: p) = .llx :: tokens p := by
  rw [tokens.eq_def]
  exact (if_neg (by decide)).trans (if_pos ⟨rfl, List.prefix_append ['l'.toUInt8, 'x'.toUInt8] p⟩)

/-- A character, a lone percent sign, `llx`, or any other directive. -/
theorem format_cases {P : List UInt8 → Prop} (nil : P []) (char : ∀ c p, c ≠ percent → P p → P (c :: p))
    (lone : P [percent])
    (llx : ∀ p, P p → P (percent :: 'l'.toUInt8 :: 'l'.toUInt8 :: 'x'.toUInt8 :: p))
    (directive : ∀ d p, ¬(d = 'l'.toUInt8 ∧ ['l'.toUInt8, 'x'.toUInt8] <+: p) → P p → P (percent :: d :: p))
    (p : List UInt8) : P p := by
  induction p using tokens.induct with
  | case1 => exact nil
  | case2 c p hc ih => exact char c p hc ih
  | case3 c hc =>
    obtain rfl := not_not.mp hc
    exact lone
  | case4 c hc d p hl ih =>
    obtain rfl := not_not.mp hc
    obtain ⟨rfl, q, rfl⟩ := hl
    exact llx q ih
  | case5 c hc d p hl ih =>
    obtain rfl := not_not.mp hc
    exact directive d p hl ih

theorem nextToken_char (hc : c ≠ percent) (q : List UInt8) : nextToken (c :: q) = .ok (.char c, c :: q) := if_pos hc

theorem nextToken_directive (h : ¬(d = 'l'.toUInt8 ∧ ['l'.toUInt8, 'x'.toUInt8] <+: p)) :
    nextToken (percent :: d :: (p ++ [0])) = .ok (.ofChar d, d :: (p ++ [0])) := by
  simp only [nextToken, deref, Except.bind, ne_eq, not_true_eq_false, if_false, List.tail_cons]
  by_cases hd : d = 'l'.toUInt8
  · subst hd
    have hskip : Token.ofChar 'l'.toUInt8 = .skip := by decide
    rw [hskip]
    refine (if_pos rfl).trans ?_
    match p, h with
    | [], _ => rfl
    | [e], _ =>
      by_cases he : e = 'l'.toUInt8
      · subst he
        rfl
      · exact if_neg he
    | e :: f :: q, h =>
      by_cases he : e = 'l'.toUInt8
      · subst he
        refine (if_pos rfl).trans (if_neg fun hf : f = 'x'.toUInt8 => h ⟨rfl, ?_⟩)
        rw [hf]
        exact List.prefix_append ['l'.toUInt8, 'x'.toUInt8] q
      · exact if_neg he
  · exact if_neg hd

section Run
variable {σ : Type*} {turn : σ → σ} {act : Token → ℕ → σ → Except Fault σ}

/-- A turn of the loop. -/
theorem formatFrom_turn {n : ℕ} {c : UInt8} {q q' : List UInt8} {t : Token} (hc : c ≠ 0)
    (ht : nextToken (c :: q) = .ok (t, q')) (a : ℕ) (st : σ) :
    formatFrom turn act (n + 1) (c :: q) a st =
      (act t a (turn st)).bind (formatFrom turn act n q'.tail (a + t.arity)) := by
  refine (if_neg hc).trans ?_
  rw [ht]
  rfl

/-- The loop carries out the tokens, and then reads behind the terminator or ends. -/
theorem formatFrom_eq (hskip : ∀ a st, act .skip a st = .ok st) (h0 : 0 ∉ p) {n : ℕ} (hn : p.length < n) (a : ℕ) (st : σ) :
    formatFrom turn act n (p ++ [0]) a st = (runTokens turn act (tokens p) a st).bind fun st =>
      if lonePercent p then .error .formatOverrun else .ok st := by
  induction p using format_cases generalizing n a st with
  | nil =>
    obtain ⟨n, rfl⟩ := Nat.exists_eq_add_of_lt hn
    rw [tokens.eq_def]
    rfl
  | char c p hc ih =>
    obtain ⟨n, rfl⟩ : ∃ m, n = m + 1 := ⟨n - 1, by omega⟩
    rw [List.mem_cons, not_or] at h0
    rw [List.length_cons] at hn
    rw [tokens_cons hc, lonePercent_cons hc, runTokens, except_bind_assoc, List.cons_append,
      formatFrom_turn (Ne.symm h0.1) (nextToken_char hc _)]
    exact congrArg _ (funext fun st => ih h0.2 (by omega) _ st)
  | lone =>
    obtain ⟨n, rfl⟩ : ∃ m, n = m + 2 := ⟨n - 2, by rw [List.length_singleton] at hn; omega⟩
    rw [tokens_lone]
    refine (formatFrom_turn (t := .skip) (by decide) rfl a st).trans ?_
    rw [hskip]
    rfl
  | llx p ih =>
    obtain ⟨n, rfl⟩ : ∃ m, n = m + 1 := ⟨n - 1, by omega⟩
    simp only [List.mem_cons, not_or] at h0
    simp only [List.length_cons] at hn
    rw [tokens_llx, lonePercent_directive, lonePercent_cons (by decide), lonePercent_cons (by decide), runTokens,
      except_bind_assoc]
    refine (formatFrom_turn (t := .llx) (by decide) rfl a st).trans ?_
    exact congrArg _ (funext fun st => ih h0.2.2.2.2 (by omega) _ st)
  | directive d p hl ih =>
    obtain ⟨n, rfl⟩ : ∃ m, n = m + 1 := ⟨n - 1, by omega⟩
    simp only [List.mem_cons, not_or] at h0
    simp only [List.length_cons] at hn
    rw [tokens_directive hl, lonePercent_directive, runTokens, except_bind_assoc]
    refine (formatFrom_turn (by decide) (nextToken_directive hl) a st).trans ?_
    exact congrArg _ (funext fun st => ih h0.2.2 (by omega) _ st)

end Run
end Parse

/-! ## Numbers -/

/-- `while (num > 0 && j < limit) { temp[j++] = digits[num % base]; num /= base; }` for at most `n` turns, or
without the second test. The last digit stored comes first, and `temp` has room for `cap`. -/
def takeDigits (limit : Option ℕ) (cap : ℕ) (digitOf : ℕ → UInt8) (base : ℕ) : ℕ → ℕ → List UInt8 →
    Except Fault (List UInt8)
  | 0, _, _ => .error .stuck
  | n + 1, num, temp =>
    if 0 < num ∧ ∀ l ∈ limit, temp.length < l then
      if temp.length < cap then takeDigits limit cap digitOf base n (num / base) (digitOf (num % base) :: temp)
      else .error .scratchOverrun
    else .ok temp

/-- The stack has the text of the number. -/
theorem takeDigits_eq {limit : Option ℕ} {cap base n num k : ℕ} {digitOf : ℕ → UInt8} (hb : 1 < base)
    (hdigit : ∀ d < base, digitOf d = (Nat.digitChar d).toUInt8) (hn : num < base ^ k) (hk : k < n) (temp : List UInt8)
    (hcap : temp.length + k ≤ cap) (hlimit : ∀ l ∈ limit, temp.length + k ≤ l) :
    takeDigits limit cap digitOf base n num temp = .ok (Digits.taken base num ++ temp) := by
  induction k generalizing n num temp with
  | zero =>
    obtain ⟨n, rfl⟩ := Nat.exists_eq_add_of_lt hk
    rw [pow_zero, Nat.lt_one_iff] at hn
    rw [takeDigits, if_neg fun h => by omega, hn]
    rfl
  | succ k ih =>
    obtain ⟨n, rfl⟩ : ∃ m, n = m + 1 := ⟨n - 1, by omega⟩
    by_cases h0 : num = 0
    · rw [takeDigits, if_neg fun h => by omega, h0]
      rfl
    · have hdiv : num / base < base ^ k := by
        rw [Nat.div_lt_iff_lt_mul (by omega), ← pow_succ]
        exact hn
      have hlim : 0 < num ∧ ∀ l ∈ limit, temp.length < l := ⟨by omega, fun l hl => by have := hlimit l hl; omega⟩
      rw [takeDigits, if_pos hlim, if_pos (by omega), ih hdiv (by omega) _ (by simp only [List.length_cons]; omega)
        fun l hl => by have := hlimit l hl; simp only [List.length_cons]; omega, Digits.taken_eq hb h0,
        hdigit _ (Nat.mod_lt num (by omega)), List.append_assoc]
      rfl

/-! ## Formats with their arguments -/

/-- An ordinary character, or a directive with its argument. -/
inductive Item
  | char (c : UInt8) (h0 : c ≠ 0) (hp : c ≠ percent)
  | str (s : CString)
  | dec (i : BitVec 32)
  | hex (x : BitVec 32)
  | llx (x : BitVec 64)
  | ptr (x : BitVec 64)
  | percent

namespace Item

/-- The item in the format. -/
def text : Item → List UInt8
  | char c _ _ => [c]
  | str _ => [PointerOS.percent, 's'.toUInt8]
  | dec _ => [PointerOS.percent, 'd'.toUInt8]
  | hex _ => [PointerOS.percent, 'x'.toUInt8]
  | llx _ => [PointerOS.percent, 'l'.toUInt8, 'l'.toUInt8, 'x'.toUInt8]
  | ptr _ => [PointerOS.percent, 'p'.toUInt8]
  | percent => [PointerOS.percent, PointerOS.percent]

def token : Item → Token
  | char c _ _ => .char c
  | str _ => .str
  | dec _ => .dec
  | hex _ => .hex
  | llx _ => .llx
  | ptr _ => .ptr
  | percent => .percent

/-- The argument is the one with the number `a`. -/
def Holds (mem : ℕ → CString) (args : ℕ → ℕ) (a : ℕ) : Item → Prop
  | str s => mem (args a) = s
  | dec i => args a % 2 ^ 32 = i.toNat
  | hex x => args a % 2 ^ 32 = x.toNat
  | llx x | ptr x => args a % 2 ^ 64 = x.toNat
  | _ => True

/-- `"0x"` -/
def prefix0x : List UInt8 := ['0'.toUInt8, 'x'.toUInt8]

/-- What the item stands for; `pre` comes before the numbers of `%x` and `%llx`. -/
def expand (pre : List UInt8) : Item → List UInt8
  | char c _ _ => [c]
  | str s => s.1
  | dec i => Digits.signedText 10 i.toInt
  | hex x => pre ++ Digits.text 16 x.toNat
  | llx x => pre ++ Digits.text 16 x.toNat
  | ptr x => prefix0x ++ Digits.text 16 x.toNat
  | percent => [PointerOS.percent]

end Item

/-- The format of a list of items. -/
def formatOf (items : List Item) : List UInt8 := items.flatMap Item.text

/-- The arguments from the number `a` on are those of the items. -/
def ArgsMatch (mem : ℕ → CString) (args : ℕ → ℕ) : ℕ → List Item → Prop
  | _, [] => True
  | a, i :: items => i.Holds mem args a ∧ ArgsMatch mem args (a + i.token.arity) items

section Items
variable {items : List Item}

theorem formatOf_cons (i : Item) (items : List Item) : formatOf (i :: items) = i.text ++ formatOf items := rfl

theorem zero_notMem_formatOf (items : List Item) : 0 ∉ formatOf items := by
  induction items with
  | nil => exact List.not_mem_nil
  | cons i items ih =>
    rw [formatOf_cons, List.mem_append, not_or]
    refine ⟨?_, ih⟩
    cases i with
    | char c h0 hp => exact fun h => h0 (List.mem_singleton.mp h).symm
    | _ =>
      dsimp only [Item.text]
      decide

/-- The tokens of the format are those of the items, and no percent sign is left over. -/
theorem tokens_formatOf (items : List Item) :
    tokens (formatOf items) = items.map Item.token ∧ lonePercent (formatOf items) = false := by
  induction items with
  | nil => exact ⟨by rw [formatOf, List.flatMap_nil, tokens.eq_def]; rfl, rfl⟩
  | cons i items ih =>
    rw [formatOf_cons, List.map_cons]
    cases i with
    | char c h0 hp =>
      refine ⟨(tokens_cons hp _).trans (congrArg _ ih.1), (lonePercent_cons hp _).trans ih.2⟩
    | llx x =>
      refine ⟨(tokens_llx _).trans (congrArg _ ih.1), (lonePercent_directive _ _).trans ?_⟩
      exact (lonePercent_cons (by decide) _).trans ((lonePercent_cons (by decide) _).trans ih.2)
    | _ =>
      refine ⟨(tokens_directive fun h => absurd h.1 (by decide)).trans ?_, (lonePercent_directive _ _).trans ih.2⟩
      exact congrArg (List.cons _) ih.1

/-- The text of the format is that of its items, if this holds of every directive with its argument. -/
theorem tokensText_of_match {mem : ℕ → CString} {args : ℕ → ℕ} {text : ℕ → Token → List UInt8} {f : Item → List UInt8}
    {a : ℕ} (hf : ∀ i ∈ items, ∀ a, i.Holds mem args a → text a i.token = f i) (h : ArgsMatch mem args a items) :
    tokensText text a (items.map Item.token) = items.flatMap f := by
  induction items generalizing a with
  | nil => rfl
  | cons i items ih =>
    rw [List.forall_mem_cons] at hf
    exact congrArg₂ _ (hf.1 a h.1) (ih hf.2 h.2)

section Texts
variable {α : Type*} {l : List α}

/-- Numbers of which none is too large have the right sum only if each one is right. -/
theorem eq_of_sum_eq {f g : α → ℕ} (hle : ∀ i ∈ l, f i ≤ g i) (h : (l.map f).sum = (l.map g).sum) :
    ∀ i ∈ l, f i = g i :=
  fun i hi => (hle i hi).eq_of_not_lt fun hlt => (List.sum_lt_sum f g hle ⟨i, hi, hlt⟩).ne h

variable {f g : α → List UInt8}

theorem length_eq_of_flatMap_eq (hle : ∀ i ∈ l, (f i).length ≤ (g i).length) (h : l.flatMap f = l.flatMap g) :
    ∀ i ∈ l, (f i).length = (g i).length := by
  refine eq_of_sum_eq hle ?_
  have hlen := congrArg List.length h
  rwa [List.length_flatMap, List.length_flatMap] at hlen

theorem count_eq_of_flatMap_eq {c : UInt8} (hle : ∀ i ∈ l, (f i).count c ≤ (g i).count c)
    (h : l.flatMap f = l.flatMap g) : ∀ i ∈ l, (f i).count c = (g i).count c := by
  refine eq_of_sum_eq hle ?_
  have hcount := congrArg (List.count c) h
  rwa [List.count_flatMap, List.count_flatMap] at hcount

end Texts
end Items
end PointerOS
