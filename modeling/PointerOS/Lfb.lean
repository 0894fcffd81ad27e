import PointerOS.ByteMemory

/-!
# The framebuffer console

`kputchar_direct` draws into a back buffer of `lfb.size` bytes, here addressed
from its first byte on. A store outside it has no defined effect, so every
function that stores returns an option. Coordinates are 32 bits wide; an `int`
that is compared with a `uint32_t` is taken as unsigned.
-/
namespace PointerOS
open ByteMemory

/-- `framebuffer_t`, with the bytes of the back buffer and of the font. -/
structure Framebuffer where
  bytes : Memory
  width : ℕ
  height : ℕ
  pitch : ℕ
  size : ℕ
  font : ℕ → UInt8
  charWidth : ℕ
  charHeight : ℕ
  cursorX : ℕ
  cursorY : ℕ

namespace Framebuffer

def store8 (f : Framebuffer) (a : ℕ) (v : UInt8) : Option Framebuffer :=
  if a < f.size then some { f with bytes := Function.update f.bytes a v } else none

/-- `lfb.buffer[k] = color` -/
def storePixel (f : Framebuffer) (k color : ℕ) : Option Framebuffer :=
  if 4 * k + 4 ≤ f.size then some { f with bytes := store32 f.bytes (4 * k) color } else none

/-- `memset` of `n` bytes from `d` on. -/
def memset (v : UInt8) : ℕ → ℕ → Framebuffer → Option Framebuffer
  | 0, _, f => some f
  | n + 1, d, f => (f.store8 d v).bind (memset v n (d + 1))

/-- `memcpy` of `n` bytes from `s` to `d`, byte by byte upwards. -/
def memcpy : ℕ → ℕ → ℕ → Framebuffer → Option Framebuffer
  | 0, _, _, f => some f
  | n + 1, d, s, f => (f.store8 d (f.bytes s)).bind (memcpy n (d + 1) (s + 1))

/-- The part of `init_LFB` that sets the console up, for the values of the loader's tag;
`mem` is what the memory of the back buffer holds. -/
def initLFB (font : ℕ → UInt8) (mem : Memory) (width height pitch : ℕ) : Option Framebuffer :=
  memset 0 (pitch * height % 2 ^ 32) 0 ⟨mem, width, height, pitch, pitch * height % 2 ^ 32, font, 8, 16, 0, 0⟩

def lfbScroll (f : Framebuffer) : Option Framebuffer :=
  let lineSize := f.pitch * f.charHeight % 2 ^ 32
  let moveSize := (f.size + 2 ^ 32 - lineSize) % 2 ^ 32
  (memcpy moveSize 0 lineSize f).bind (memset 0 lineSize moveSize)

def putpixel (x y color : ℕ) (f : Framebuffer) : Option Framebuffer :=
  if f.width ≤ x ∨ f.height ≤ y then some f
  else f.storePixel ((y * (f.pitch / 4) + x) % 2 ^ 32) color

/-- `(glyph[i] >> (7 - j)) & 1` for the glyph of `c` -/
def glyphBit (f : Framebuffer) (c : UInt8) (i j : ℕ) : Bool :=
  (f.font (c.toNat * f.charHeight + i)).toNat.testBit (7 - j)

/-- The inner loop of `draw_char_at` from `j` on, for `n` turns. -/
def drawRow (x y : ℕ) (c : UInt8) (fg bg i : ℕ) : ℕ → ℕ → Framebuffer → Option Framebuffer
  | 0, _, f => some f
  | n + 1, j, f =>
    (f.putpixel ((x + j) % 2 ^ 32) ((y + i) % 2 ^ 32) (if f.glyphBit c i j then fg else bg)).bind
      (drawRow x y c fg bg i n (j + 1))

/-- The outer loop of `draw_char_at` from `i` on, for `n` turns. -/
def drawRows (x y : ℕ) (c : UInt8) (fg bg : ℕ) : ℕ → ℕ → Framebuffer → Option Framebuffer
  | 0, _, f => some f
  | n + 1, i, f => (drawRow x y c fg bg i f.charWidth 0 f).bind (drawRows x y c fg bg n (i + 1))

def drawCharAt (f : Framebuffer) (x y : ℕ) (c : UInt8) (fg bg : ℕ) : Option Framebuffer :=
  drawRows x y c fg bg f.charHeight 0 f

/-- The end of `kputchar_direct`: a full line and a full screen. -/
def wrap (f : Framebuffer) : Option Framebuffer :=
  let f :=
    if f.width < (f.cursorX + f.charWidth) % 2 ^ 32 then
      { f with cursorX := 0, cursorY := (f.cursorY + f.charHeight) % 2 ^ 32 }
    else f
  if f.height < (f.cursorY + f.charHeight) % 2 ^ 32 then
    f.lfbScroll.map fun f => { f with cursorY := (f.cursorY + 2 ^ 32 - f.charHeight) % 2 ^ 32 }
  else some f

def kputcharDirect (f : Framebuffer) (c : UInt8) : Option Framebuffer :=
  if c = 10 then wrap { f with cursorX := 0, cursorY := (f.cursorY + f.charHeight) % 2 ^ 32 }
  else (f.drawCharAt f.cursorX f.cursorY c 0xFFFFFFFF 0).bind fun f =>
    wrap { f with cursorX := (f.cursorX + f.charWidth) % 2 ^ 32 }

/-! ## The bytes that the loops store -/

theorem memset_eq (v : UInt8) (n d : ℕ) (f : Framebuffer) (h : d + n ≤ f.size) :
    memset v n d f = some { f with bytes := fill f.bytes d n v } := by
  induction n generalizing d f with
  | zero =>
    have hfill : fill f.bytes d 0 v = f.bytes := funext fun a => if_neg (by omega)
    rw [hfill]
    rfl
  | succ n ih =>
    rw [memset, store8, if_pos (by omega), Option.bind_some, ih (d + 1) _ (by dsimp only; omega)]
    congr 2
    funext a
    simp only [fill]
    by_cases had : a = d
    · rw [had, if_neg (by omega), Function.update_self, if_pos (by omega)]
    · rw [Function.update_of_ne had]
      exact if_congr (by omega) rfl rfl

/-- A copy downwards reads each byte before it is stored to. -/
theorem memcpy_eq (n d s : ℕ) (f : Framebuffer) (hds : d < s) (h : d + n ≤ f.size) :
    memcpy n d s f = some { f with
      bytes := fun a => if d ≤ a ∧ a < d + n then f.bytes (a - d + s) else f.bytes a } := by
  induction n generalizing d s f with
  | zero =>
    have hsame : (fun a => if d ≤ a ∧ a < d + 0 then f.bytes (a - d + s) else f.bytes a) = f.bytes :=
      funext fun a => if_neg (by omega)
    rw [hsame]
    rfl
  | succ n ih =>
    rw [memcpy, store8, if_pos (by omega), Option.bind_some,
      ih (d + 1) (s + 1) _ (by omega) (by dsimp only; omega)]
    congr 2
    funext a
    dsimp only
    by_cases had : a = d
    · rw [had, if_neg (by omega), if_pos (by omega), Function.update_self]
      congr 1
      omega
    · by_cases hin : d ≤ a ∧ a < d + (n + 1)
      · rw [if_pos (by omega), if_pos hin, Function.update_of_ne (by omega)]
        congr 1
        omega
      · rw [if_neg (by omega), if_neg hin, Function.update_of_ne had]

/-! ## Pixels -/

/-- Pixel `x` of line `y`. -/
def word (f : Framebuffer) (x y : ℕ) : ℕ := load32 f.bytes (4 * (y * (f.pitch / 4) + x))

/-- A mode that the console can work in. -/
structure Screen (f : Framebuffer) : Prop where
  width : 8 ≤ f.width
  height : 16 ≤ f.height
  aligned : f.pitch % 4 = 0
  lines : 4 * f.width ≤ f.pitch
  size : f.size = f.pitch * f.height
  small : f.size < 2 ^ 32
  charWidth : f.charWidth = 8
  charHeight : f.charHeight = 16

/-- `f'` is `f` with the pixels of `px` painted over. -/
structure Paints (f f' : Framebuffer) (px : ℕ → ℕ → Option ℕ) : Prop where
  eq : f' = { f with bytes := f'.bytes }
  word : ∀ x < f.pitch / 4, ∀ y < f.height, f'.word x y = (px x y).getD (f.word x y)

variable {f f' f'' : Framebuffer}

theorem Screen.congr (h : f.Screen) (he : f' = { f with bytes := f'.bytes }) : f'.Screen := by
  rw [he]
  exact ⟨h.width, h.height, h.aligned, h.lines, h.size, h.small, h.charWidth, h.charHeight⟩

theorem Paints.refl (f : Framebuffer) : Paints f f fun _ _ => none := ⟨rfl, fun _ _ _ _ => rfl⟩

theorem Paints.trans {p q r : ℕ → ℕ → Option ℕ} (h : Paints f f' p) (h' : Paints f' f'' q)
    (hr : ∀ x y, r x y = (q x y).or (p x y)) : Paints f f'' r := by
  have hp : f'.pitch = f.pitch := by rw [h.eq]
  have hh : f'.height = f.height := by rw [h.eq]
  refine ⟨h'.eq.trans (by rw [h.eq]), fun x hx y hy => ?_⟩
  rw [h'.word x (by rw [hp]; exact hx) y (by rw [hh]; exact hy), h.word x hx y hy, hr]
  cases q x y <;> rfl

lemma Screen.dims (h : f.Screen) : f.width < 2 ^ 26 ∧ f.height < 2 ^ 27 := by
  have hsmall := h.small
  have hwidth := h.width
  have hlines := h.lines
  have h1 : f.pitch * 16 ≤ f.pitch * f.height := Nat.mul_le_mul_left _ h.height
  have h2 : 32 * f.height ≤ f.pitch * f.height := Nat.mul_le_mul_right _ (by omega)
  rw [h.size] at hsmall
  omega

/-- A line ends inside the buffer. -/
theorem Screen.line_le (h : f.Screen) {x y : ℕ} (hx : x < f.pitch / 4) (hy : y < f.height) :
    4 * (y * (f.pitch / 4) + x) + 4 ≤ f.size := by
  have hmul : y * (f.pitch / 4) + f.pitch / 4 ≤ f.height * (f.pitch / 4) := by
    rw [← Nat.succ_mul]
    exact Nat.mul_le_mul_right _ hy
  have hsize : f.size = 4 * (f.height * (f.pitch / 4)) := by
    have halign := h.aligned
    rw [h.size, Nat.mul_comm f.height, ← Nat.mul_assoc, show 4 * (f.pitch / 4) = f.pitch by omega]
  omega

/-- Two pixels of lines of `n` pixels at one place are the same. -/
theorem pixel_inj {n x y x' y' : ℕ} (hx : x < n) (hx' : x' < n) (h : y * n + x = y' * n + x') : x = x' ∧ y = y' := by
  have hmod : ∀ {a b}, a < n → (b * n + a) % n = a := fun {a b} ha => by
    rw [Nat.add_comm, Nat.add_mul_mod_self_right, Nat.mod_eq_of_lt ha]
  have hdiv : ∀ {a b}, a < n → (b * n + a) / n = b := fun {a b} ha => by
    rw [Nat.add_comm, Nat.add_mul_div_right _ _ (by omega), Nat.div_eq_of_lt ha, Nat.zero_add]
  exact ⟨by rw [← hmod (b := y) hx, h, hmod hx'], by rw [← hdiv (b := y) hx, h, hdiv hx']⟩

theorem putpixel_spec (h : f.Screen) {x y color : ℕ} (hx : x < f.width) (hy : y < f.height) (hc : color < 2 ^ 32) :
    ∃ f', f.putpixel x y color = some f' ∧ Paints f f' fun x' y' => if x' = x ∧ y' = y then some color else none := by
  have hlines := h.lines
  have hxl : x < f.pitch / 4 := by omega
  have hle := h.line_le hxl hy
  have hmod : (y * (f.pitch / 4) + x) % 2 ^ 32 = y * (f.pitch / 4) + x :=
    Nat.mod_eq_of_lt (by have := h.small; omega)
  refine ⟨_, by rw [putpixel, if_neg (by omega), hmod, storePixel, if_pos hle], rfl, fun x' hx' y' hy' => ?_⟩
  unfold word
  dsimp only
  by_cases hsame : x' = x ∧ y' = y
  · rw [if_pos hsame, hsame.1, hsame.2]
    exact load_store_same_of_lt (by simpa using hc)
  · rw [if_neg hsame]
    refine load_store_of_disjoint ?_
    have hne : y * (f.pitch / 4) + x ≠ y' * (f.pitch / 4) + x' := fun heq =>
      hsame ((pixel_inj hxl hx' heq).imp Eq.symm Eq.symm)
    omega

/-! ## Characters -/

/-- The color that a glyph has in line `i` and column `j`. -/
def glyphColor (f : Framebuffer) (c : UInt8) (fg bg i j : ℕ) : ℕ := if f.glyphBit c i j then fg else bg

section Draw
variable {x y fg bg : ℕ} {c : UInt8}

theorem glyphColor_congr (he : f' = { f with bytes := f'.bytes }) (i j : ℕ) :
    f'.glyphColor c fg bg i j = f.glyphColor c fg bg i j := by
  unfold glyphColor glyphBit
  rw [he]

theorem drawRow_spec (h : f.Screen) (hx : x + 8 ≤ f.width) (hy : y + 16 ≤ f.height) (hfg : fg < 2 ^ 32)
    (hbg : bg < 2 ^ 32) {i : ℕ} (hi : i < 16) (n j : ℕ) (hj : j + n ≤ 8) :
    ∃ f', drawRow x y c fg bg i n j f = some f' ∧ Paints f f' fun x' y' =>
      if y' = y + i ∧ x + j ≤ x' ∧ x' < x + j + n then some (f.glyphColor c fg bg i (x' - x)) else none := by
  induction n generalizing j f with
  | zero =>
    refine ⟨f, rfl, rfl, fun x' _ y' _ => ?_⟩
    rw [if_neg (by omega)]
    rfl
  | succ n ih =>
    have hlines := h.lines
    have hsmall := h.dims
    have hcolor : (if f.glyphBit c i j then fg else bg) < 2 ^ 32 := by split_ifs <;> assumption
    obtain ⟨f₁, h₁, p₁⟩ := putpixel_spec h (x := x + j) (y := y + i) (by omega) (by omega) hcolor
    have hw : f₁.width = f.width := by rw [p₁.eq]
    have hh : f₁.height = f.height := by rw [p₁.eq]
    obtain ⟨f₂, h₂, p₂⟩ := ih (h.congr p₁.eq) (by rw [hw]; exact hx) (by rw [hh]; exact hy) (j + 1) (by omega)
    refine ⟨f₂, ?_, p₁.trans p₂ fun x' y' => ?_⟩
    · rw [drawRow, Nat.mod_eq_of_lt (show x + j < 2 ^ 32 by omega), Nat.mod_eq_of_lt (show y + i < 2 ^ 32 by omega),
        h₁, Option.bind_some, h₂]
    · rw [glyphColor_congr p₁.eq]
      by_cases hfirst : x' = x + j ∧ y' = y + i
      · rw [if_pos (by omega), if_neg (by omega), if_pos hfirst, hfirst.1, Nat.add_sub_cancel_left]
        rfl
      · rw [if_neg hfirst, Option.or_none]
        exact if_congr (by omega) rfl rfl

theorem drawRows_spec (h : f.Screen) (hx : x + 8 ≤ f.width) (hy : y + 16 ≤ f.height) (hfg : fg < 2 ^ 32)
    (hbg : bg < 2 ^ 32) (n i : ℕ) (hi : i + n ≤ 16) :
    ∃ f', drawRows x y c fg bg n i f = some f' ∧ Paints f f' fun x' y' =>
      if (y + i ≤ y' ∧ y' < y + i + n) ∧ x ≤ x' ∧ x' < x + 8 then some (f.glyphColor c fg bg (y' - y) (x' - x))
      else none := by
  induction n generalizing i f with
  | zero =>
    refine ⟨f, rfl, rfl, fun x' _ y' _ => ?_⟩
    rw [if_neg (by omega)]
    rfl
  | succ n ih =>
    obtain ⟨f₁, h₁, p₁⟩ := drawRow_spec (c := c) h hx hy hfg hbg (i := i) (by omega) 8 0 le_rfl
    have hw : f₁.width = f.width := by rw [p₁.eq]
    have hh : f₁.height = f.height := by rw [p₁.eq]
    obtain ⟨f₂, h₂, p₂⟩ := ih (h.congr p₁.eq) (by rw [hw]; exact hx) (by rw [hh]; exact hy) (i + 1) (by omega)
    refine ⟨f₂, ?_, p₁.trans p₂ fun x' y' => ?_⟩
    · rw [drawRows, h.charWidth, h₁, Option.bind_some, h₂]
    · rw [glyphColor_congr p₁.eq]
      by_cases hfirst : y' = y + i ∧ x + 0 ≤ x' ∧ x' < x + 0 + 8
      · rw [if_pos (by omega), if_neg (by omega), if_pos hfirst, hfirst.1, Nat.add_sub_cancel_left]
        rfl
      · rw [if_neg hfirst, Option.or_none]
        exact if_congr (by omega) rfl rfl

theorem drawCharAt_spec (h : f.Screen) (hx : x + 8 ≤ f.width) (hy : y + 16 ≤ f.height) (hfg : fg < 2 ^ 32)
    (hbg : bg < 2 ^ 32) :
    ∃ f', f.drawCharAt x y c fg bg = some f' ∧ Paints f f' fun x' y' =>
      if (y ≤ y' ∧ y' < y + 16) ∧ x ≤ x' ∧ x' < x + 8 then some (f.glyphColor c fg bg (y' - y) (x' - x))
      else none := by
  have hrows := drawRows_spec (c := c) h hx hy hfg hbg 16 0 le_rfl
  rw [drawCharAt, h.charHeight]
  exact hrows

end Draw

/-! ## Scrolling -/

lemma load_shift (m : Memory) (k a w : ℕ) : load (fun x => m (x + k)) a w = load m (a + k) w := by
  induction w generalizing a with
  | zero => rfl
  | succ w ih => rw [load, load, ih, Nat.add_right_comm]

/-- Every line takes the place of the one 16 lines above it, and the last 16 are cleared. -/
theorem lfbScroll_spec (h : f.Screen) :
    ∃ f', f.lfbScroll = some f' ∧ f' = { f with bytes := f'.bytes } ∧ ∀ x < f.pitch / 4, ∀ y < f.height,
      f'.word x y = if y + 16 < f.height then f.word x (y + 16) else 0 := by
  have halign := h.aligned
  have hlines := h.lines
  have hwidth := h.width
  have hheight := h.height
  have hsmall := h.small
  have hpitch : f.pitch = 4 * (f.pitch / 4) := by omega
  have hline : f.pitch * 16 ≤ f.size := by
    rw [h.size]
    exact Nat.mul_le_mul_left _ h.height
  have hmove : f.size - f.pitch * 16 = 4 * ((f.height - 16) * (f.pitch / 4)) := by
    rw [h.size, ← Nat.mul_sub, Nat.mul_comm (f.height - 16), ← Nat.mul_assoc, ← hpitch]
  have hlineMod : f.pitch * f.charHeight % 2 ^ 32 = f.pitch * 16 := by
    rw [h.charHeight, Nat.mod_eq_of_lt (by omega)]
  have hmoveMod : (f.size + 2 ^ 32 - f.pitch * 16) % 2 ^ 32 = f.size - f.pitch * 16 := by
    rw [show f.size + 2 ^ 32 - f.pitch * 16 = f.size - f.pitch * 16 + 2 ^ 32 by omega, Nat.add_mod_right,
      Nat.mod_eq_of_lt (by omega)]
  have hcopy := memcpy_eq (f.size - f.pitch * 16) 0 (f.pitch * 16) f (by omega) (by omega)
  have hrun : f.lfbScroll = some { f with
      bytes := fill (fun a => if 0 ≤ a ∧ a < 0 + (f.size - f.pitch * 16) then f.bytes (a - 0 + f.pitch * 16) else f.bytes a)
        (f.size - f.pitch * 16) (f.pitch * 16) 0 } := by
    rw [lfbScroll, hlineMod, hmoveMod, hcopy, Option.bind_some, memset_eq _ _ _ _ (by dsimp only; omega)]
  refine ⟨_, hrun, rfl, fun x hx y hy => ?_⟩
  unfold word
  dsimp only
  by_cases hup : y + 16 < f.height
  · rw [if_pos hup]
    have hmul : y * (f.pitch / 4) + f.pitch / 4 ≤ (f.height - 16) * (f.pitch / 4) := by
      rw [← Nat.succ_mul]
      exact Nat.mul_le_mul_right _ (by omega)
    have hshift : 4 * ((y + 16) * (f.pitch / 4) + x) = 4 * (y * (f.pitch / 4) + x) + f.pitch * 16 := by
      rw [Nat.add_mul]
      omega
    change load _ _ 4 = load f.bytes _ 4
    rw [hshift, ← load_shift]
    refine load_congr fun a ha => ?_
    simp only [ByteMemory.bytes, Set.mem_Ico] at ha
    rw [fill, if_neg (by omega), if_pos (by omega), Nat.sub_zero]
  · rw [if_neg hup]
    have hmul : (f.height - 16) * (f.pitch / 4) ≤ y * (f.pitch / 4) := Nat.mul_le_mul_right _ (by omega)
    have hle := h.line_le hx hy
    exact load_fill_zero (by omega) (by omega)

end Framebuffer
end PointerOS
