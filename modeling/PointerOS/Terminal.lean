import PointerOS.Lfb

/-!
# The console as a text terminal

A terminal is a grid of cells with a place to write at. `kputchar_direct` on the
back buffer is a character written to the grid: what the buffer shows is the
grid in white on black, and everything beside the grid is black.
-/
namespace PointerOS
open ByteMemory Framebuffer

/-- The cells by row and column; `none` is a cell that is blank. -/
structure Grid where
  cells : ℕ → ℕ → Option UInt8
  row : ℕ
  col : ℕ

namespace Grid

def blank : Grid := ⟨fun _ _ => none, 0, 0⟩

def newline (g : Grid) : Grid := { g with row := g.row + 1, col := 0 }

def write (g : Grid) (c : UInt8) : Grid :=
  { g with cells := fun r k => if r = g.row ∧ k = g.col then some c else g.cells r k, col := g.col + 1 }

/-- The top row is dropped and the last of `rows` rows is blank. -/
def scroll (rows : ℕ) (g : Grid) : Grid :=
  { g with cells := fun r k => if r + 1 < rows then g.cells (r + 1) k else none, row := g.row - 1 }

def put (cols rows : ℕ) (g : Grid) (c : UInt8) : Grid :=
  let g := if c = 10 then g.newline else g.write c
  let g := if g.col = cols then g.newline else g
  if g.row = rows then g.scroll rows else g

/-- A pixel of a cell. -/
def cellPixel (font : ℕ → UInt8) (cell : Option UInt8) (i j : ℕ) : ℕ :=
  match cell with
  | some c => if (font (c.toNat * 16 + i)).toNat.testBit (7 - j) then 0xFFFFFFFF else 0
  | none => 0

/-- A pixel of the grid, black outside it. -/
def pixel (font : ℕ → UInt8) (cols rows : ℕ) (g : Grid) (x y : ℕ) : ℕ :=
  if x / 8 < cols ∧ y / 16 < rows then cellPixel font (g.cells (y / 16) (x / 8)) (y % 16) (x % 8) else 0

end Grid

/-- The back buffer shows the grid, and the cursor is at its place. -/
structure Draws (f : Framebuffer) (g : Grid) : Prop where
  screen : f.Screen
  cursorX : f.cursorX = 8 * g.col
  cursorY : f.cursorY = 16 * g.row
  words : ∀ x < f.pitch / 4, ∀ y < f.height, f.word x y = g.pixel f.font (f.width / 8) (f.height / 16) x y

/-- The place is in the grid. -/
structure Shows (f : Framebuffer) (g : Grid) : Prop extends Draws f g where
  col : g.col < f.width / 8
  row : g.row < f.height / 16

/-- The mode does not change. -/
structure SameMode (f f' : Framebuffer) : Prop where
  width : f'.width = f.width
  height : f'.height = f.height
  pitch : f'.pitch = f.pitch
  font : f'.font = f.font

variable {f f' f'' : Framebuffer} {g : Grid} {c : UInt8}

theorem SameMode.refl (f : Framebuffer) : SameMode f f := ⟨rfl, rfl, rfl, rfl⟩

theorem SameMode.trans (h : SameMode f f') (h' : SameMode f' f'') : SameMode f f'' :=
  ⟨h'.width.trans h.width, h'.height.trans h.height, h'.pitch.trans h.pitch, h'.font.trans h.font⟩

theorem SameMode.of_eq (h : f' = { f with bytes := f'.bytes }) : SameMode f f' := by
  rw [h]
  exact ⟨rfl, rfl, rfl, rfl⟩

namespace Shows

theorem bounds (h : Shows f g) : f.cursorX + 8 ≤ f.width ∧ f.cursorY + 16 ≤ f.height := by
  have hcol := h.col
  have hrow := h.row
  rw [h.cursorX, h.cursorY]
  omega

/-- A character drawn at the cursor. -/
theorem draw (h : Shows f g) : ∃ f', f.drawCharAt f.cursorX f.cursorY c 0xFFFFFFFF 0 = some f' ∧
    f' = { f with bytes := f'.bytes } ∧ ∀ x < f.pitch / 4, ∀ y < f.height,
      f'.word x y = (g.write c).pixel f.font (f.width / 8) (f.height / 16) x y := by
  obtain ⟨hx, hy⟩ := h.bounds
  obtain ⟨f', hrun, hp⟩ := drawCharAt_spec (c := c) h.screen hx hy (show 0xFFFFFFFF < 2 ^ 32 by norm_num)
    (show 0 < 2 ^ 32 by norm_num)
  refine ⟨f', hrun, hp.eq, fun x hxl y hyl => ?_⟩
  rw [hp.word x hxl y hyl, h.words x hxl y hyl, h.cursorX, h.cursorY]
  have hcol := h.col
  have hrow := h.row
  by_cases hcell : y / 16 = g.row ∧ x / 8 = g.col
  · have hin : (16 * g.row ≤ y ∧ y < 16 * g.row + 16) ∧ 8 * g.col ≤ x ∧ x < 8 * g.col + 8 := by omega
    have hgrid : x / 8 < f.width / 8 ∧ y / 16 < f.height / 16 := by omega
    have hi : y - 16 * g.row = y % 16 := by omega
    have hj : x - 8 * g.col = x % 8 := by omega
    rw [if_pos hin, hi, hj]
    simp only [Grid.pixel, if_pos hgrid, Grid.write, if_pos hcell, Grid.cellPixel, Option.getD_some,
      Framebuffer.glyphColor, Framebuffer.glyphBit, h.screen.charHeight]
  · have hout : ¬((16 * g.row ≤ y ∧ y < 16 * g.row + 16) ∧ 8 * g.col ≤ x ∧ x < 8 * g.col + 8) := by omega
    rw [if_neg hout]
    simp only [Grid.pixel, Grid.write, if_neg hcell, Option.getD_none]

end Shows

namespace Draws

/-- Scrolling the buffer scrolls the grid. -/
theorem scroll (h : Draws f g) :
    ∃ f', f.lfbScroll = some f' ∧ f' = { f with bytes := f'.bytes } ∧ ∀ x < f.pitch / 4, ∀ y < f.height,
      f'.word x y = (g.scroll (f.height / 16)).pixel f.font (f.width / 8) (f.height / 16) x y := by
  obtain ⟨f', hrun, heq, hword⟩ := lfbScroll_spec h.screen
  refine ⟨f', hrun, heq, fun x hx y hy => ?_⟩
  rw [hword x hx y hy]
  by_cases hup : y + 16 < f.height
  · rw [if_pos hup, h.words x hx (y + 16) hup]
    have hmod : (y + 16) % 16 = y % 16 := by omega
    have hdiv : (y + 16) / 16 = y / 16 + 1 := by omega
    simp only [Grid.pixel, Grid.scroll, hmod, hdiv]
    by_cases hin : x / 8 < f.width / 8 ∧ y / 16 + 1 < f.height / 16
    · rw [if_pos hin, if_pos ⟨hin.1, by omega⟩, if_pos hin.2]
    · rw [if_neg hin]
      by_cases hin' : x / 8 < f.width / 8 ∧ y / 16 < f.height / 16
      · rw [if_pos hin', if_neg (fun hlt => hin ⟨hin'.1, hlt⟩)]
        rfl
      · rw [if_neg hin']
  · rw [if_neg hup]
    simp only [Grid.pixel, Grid.scroll]
    rw [if_neg (show ¬y / 16 + 1 < f.height / 16 by omega)]
    split_ifs <;> rfl

/-- A new line moves the cursor only. -/
theorem newline (h : Draws f g) (hrow : g.row ≤ f.height / 16) :
    Draws { f with cursorX := 0, cursorY := (f.cursorY + f.charHeight) % 2 ^ 32 } g.newline := by
  have hdims := h.screen.dims
  refine ⟨⟨h.screen.width, h.screen.height, h.screen.aligned, h.screen.lines, h.screen.size, h.screen.small,
    h.screen.charWidth, h.screen.charHeight⟩, rfl, ?_, h.words⟩
  dsimp only [Grid.newline]
  rw [h.cursorY, h.screen.charHeight, Nat.mod_eq_of_lt (by omega)]
  omega

/-- A full screen. -/
theorem full (h : Draws f g) (hcol : g.col < f.width / 8) (hrow : g.row ≤ f.height / 16) :
    ∃ f', (if f.height < (f.cursorY + f.charHeight) % 2 ^ 32 then
        f.lfbScroll.map fun f => { f with cursorY := (f.cursorY + 2 ^ 32 - f.charHeight) % 2 ^ 32 }
      else some f) = some f' ∧
      Shows f' (if g.row = f.height / 16 then g.scroll (f.height / 16) else g) ∧ SameMode f f' := by
  have hdims := h.screen.dims
  have hheight := h.screen.height
  have hmod : (f.cursorY + f.charHeight) % 2 ^ 32 = 16 * g.row + 16 := by
    rw [h.cursorY, h.screen.charHeight, Nat.mod_eq_of_lt (by omega)]
  rw [hmod]
  by_cases hend : g.row = f.height / 16
  · obtain ⟨f', hrun, heq, hwords⟩ := h.scroll
    have hs := h.screen.congr heq
    have hm := SameMode.of_eq heq
    have hY : f'.cursorY = 16 * g.row := by
      rw [heq]
      exact h.cursorY
    have hX : f'.cursorX = 8 * g.col := by
      rw [heq]
      exact h.cursorX
    rw [if_pos (by omega), if_pos hend, hrun, Option.map_some]
    refine ⟨_, rfl, ⟨⟨⟨hs.width, hs.height, hs.aligned, hs.lines, hs.size, hs.small, hs.charWidth, hs.charHeight⟩,
      hX, ?_, fun x hx y hy => ?_⟩, ?_, ?_⟩, hm.width, hm.height, hm.pitch, hm.font⟩
    · dsimp only [Grid.scroll]
      rw [hY, hs.charHeight]
      omega
    · dsimp only at hx hy ⊢
      rw [hm.width, hm.height, hm.font]
      exact hwords x (by rw [← hm.pitch]; exact hx) y (by rw [← hm.height]; exact hy)
    · dsimp only [Grid.scroll]
      rw [hm.width]
      exact hcol
    · dsimp only [Grid.scroll]
      rw [hm.height]
      omega
  · rw [if_neg (by omega), if_neg hend]
    exact ⟨f, rfl, ⟨h, hcol, by omega⟩, SameMode.refl f⟩

/-- A full line, and then a full screen. -/
theorem wrap (h : Draws f g) (hcol : g.col ≤ f.width / 8) (hrow : g.row ≤ f.height / 16)
    (hroom : g.col = f.width / 8 → g.row < f.height / 16) :
    ∃ f', f.wrap = some f' ∧
      Shows f' (if (if g.col = f.width / 8 then g.newline else g).row = f.height / 16 then
        (if g.col = f.width / 8 then g.newline else g).scroll (f.height / 16)
        else if g.col = f.width / 8 then g.newline else g) ∧ SameMode f f' := by
  have hdims := h.screen.dims
  have hwidth := h.screen.width
  have hmod : (f.cursorX + f.charWidth) % 2 ^ 32 = 8 * g.col + 8 := by
    rw [h.cursorX, h.screen.charWidth, Nat.mod_eq_of_lt (by omega)]
  rw [Framebuffer.wrap, hmod]
  by_cases hend : g.col = f.width / 8
  · simp only [if_pos hend]
    rw [if_pos (show f.width < 8 * g.col + 8 by omega)]
    obtain ⟨f', hrun, hshows, hm⟩ := (h.newline hrow).full (by dsimp only [Grid.newline]; omega) (by
      have := hroom hend
      dsimp only [Grid.newline]
      omega)
    exact ⟨f', hrun, hshows, hm.width, hm.height, hm.pitch, hm.font⟩
  · simp only [if_neg hend]
    rw [if_neg (show ¬f.width < 8 * g.col + 8 by omega)]
    exact h.full (by omega) hrow

end Draws

/-- One character. -/
theorem Shows.put (h : Shows f g) (c : UInt8) : ∃ f', f.kputcharDirect c = some f' ∧
    Shows f' (g.put (f.width / 8) (f.height / 16) c) ∧ SameMode f f' := by
  have hcol := h.col
  have hrow := h.row
  have hdims := h.screen.dims
  unfold Framebuffer.kputcharDirect Grid.put
  by_cases hc : c = 10
  · simp only [if_pos hc]
    obtain ⟨f', hrun, hshows, hm⟩ := (h.toDraws.newline hrow.le).wrap (Nat.zero_le _) hrow fun hz => by
      have hz' : 0 = f.width / 8 := hz
      omega
    exact ⟨f', hrun, hshows, hm.width, hm.height, hm.pitch, hm.font⟩
  · simp only [if_neg hc]
    obtain ⟨f₁, hrun₁, heq, hwords⟩ := h.draw (c := c)
    have hs := h.screen.congr heq
    have hm₁ := SameMode.of_eq heq
    have hX : f₁.cursorX = 8 * g.col := by
      rw [heq]
      exact h.cursorX
    have hY : f₁.cursorY = 16 * g.row := by
      rw [heq]
      exact h.cursorY
    have hdraws : Draws { f₁ with cursorX := (f₁.cursorX + f₁.charWidth) % 2 ^ 32 } (g.write c) := by
      refine ⟨⟨hs.width, hs.height, hs.aligned, hs.lines, hs.size, hs.small, hs.charWidth, hs.charHeight⟩, ?_, hY,
        fun x hx y hy => ?_⟩
      · dsimp only [Grid.write]
        rw [hX, hs.charWidth, Nat.mod_eq_of_lt (by omega)]
        omega
      · dsimp only at hx hy ⊢
        rw [hm₁.width, hm₁.height, hm₁.font]
        exact hwords x (by rw [← hm₁.pitch]; exact hx) y (by rw [← hm₁.height]; exact hy)
    rw [hrun₁, Option.bind_some]
    rw [← hm₁.width] at hcol
    rw [← hm₁.height] at hrow
    rw [← hm₁.width, ← hm₁.height]
    obtain ⟨f', hrun, hshows, hm⟩ := hdraws.wrap (by dsimp only [Grid.write]; omega)
      (by dsimp only [Grid.write]; omega) fun _ => hrow
    exact ⟨f', hrun, hshows, hm.width.trans hm₁.width, hm.height.trans hm₁.height, hm.pitch.trans hm₁.pitch,
      hm.font.trans hm₁.font⟩

/-- A run of characters. -/
theorem Shows.run (h : Shows f g) (s : List UInt8) : ∃ f', s.foldlM kputcharDirect f = some f' ∧
    Shows f' (s.foldl (Grid.put (f.width / 8) (f.height / 16)) g) ∧ SameMode f f' := by
  induction s generalizing f g with
  | nil => exact ⟨f, rfl, h, SameMode.refl f⟩
  | cons c s ih =>
    obtain ⟨f₁, hrun₁, h₁, hm₁⟩ := h.put c
    obtain ⟨f₂, hrun₂, h₂, hm₂⟩ := ih h₁
    rw [hm₁.width, hm₁.height] at h₂
    refine ⟨f₂, ?_, h₂, hm₁.trans hm₂⟩
    rw [List.foldlM_cons, hrun₁]
    exact hrun₂

section Console
variable {width height pitch : ℕ}

/-- `init_LFB` leaves a black screen that shows the blank grid. -/
theorem initLFB_shows (font : ℕ → UInt8) (mem : Memory) (hwidth : 8 ≤ width) (hheight : 16 ≤ height)
    (halign : pitch % 4 = 0) (hlines : 4 * width ≤ pitch) (hsize : pitch * height < 2 ^ 32) :
    ∃ f, initLFB font mem width height pitch = some f ∧ Shows f Grid.blank ∧ f.width = width ∧
      f.height = height ∧ f.pitch = pitch ∧ f.font = font := by
  have hmod : pitch * height % 2 ^ 32 = pitch * height := Nat.mod_eq_of_lt hsize
  have hrun : initLFB font mem width height pitch =
      some ⟨fill mem 0 (pitch * height) 0, width, height, pitch, pitch * height, font, 8, 16, 0, 0⟩ := by
    rw [initLFB, hmod, memset_eq _ _ _ _ (by dsimp only; omega)]
  have hscreen : Screen ⟨fill mem 0 (pitch * height) 0, width, height, pitch, pitch * height, font, 8, 16, 0, 0⟩ :=
    ⟨hwidth, hheight, halign, hlines, rfl, hsize, rfl, rfl⟩
  refine ⟨_, hrun, ⟨⟨hscreen, rfl, rfl, fun x hx y hy => ?_⟩, ?_, ?_⟩, rfl, rfl, rfl, rfl⟩
  · have hle := hscreen.line_le hx hy
    have hblank : Grid.blank.pixel font (width / 8) (height / 16) x y = 0 := by
      unfold Grid.pixel
      split_ifs <;> rfl
    dsimp only at hle ⊢
    rw [hblank]
    exact load_fill_zero (Nat.zero_le _) (by rw [Nat.zero_add]; exact hle)
  · exact Nat.div_pos hwidth (by omega)
  · exact Nat.div_pos hheight (by omega)

/-- Whatever text is put on the console, its pixels are those of a terminal that was given the same text. -/
theorem console_shows_terminal (font : ℕ → UInt8) (mem : Memory) (hwidth : 8 ≤ width) (hheight : 16 ≤ height)
    (halign : pitch % 4 = 0) (hlines : 4 * width ≤ pitch) (hsize : pitch * height < 2 ^ 32) (s : List UInt8) :
    ∃ f, (initLFB font mem width height pitch).bind (fun f => s.foldlM kputcharDirect f) = some f ∧
      f.cursorX + 8 ≤ width ∧ f.cursorY + 16 ≤ height ∧
      ∀ x < pitch / 4, ∀ y < height, load32 f.bytes (4 * (y * (pitch / 4) + x)) =
        (s.foldl (Grid.put (width / 8) (height / 16)) Grid.blank).pixel font (width / 8) (height / 16) x y := by
  obtain ⟨f₀, hinit, h₀, rfl, rfl, rfl, rfl⟩ := initLFB_shows font mem hwidth hheight halign hlines hsize
  obtain ⟨f, hrun, h, hm⟩ := h₀.run s
  have hbounds := h.bounds
  have hwords := h.words
  unfold Framebuffer.word at hwords
  rw [hm.width, hm.height] at hbounds
  rw [hm.width, hm.height, hm.pitch, hm.font] at hwords
  exact ⟨f, by rw [hinit]; exact hrun, hbounds.1, hbounds.2, hwords⟩

theorem console_shows_terminal_two_rows : ∃ f, (initLFB (fun _ => 0xFF) (fun _ => 7) 20 40 96).bind
    (fun f => [72, 105, 10, 33].foldlM kputcharDirect f) = some f ∧ f.cursorX + 8 ≤ 20 ∧ f.cursorY + 16 ≤ 40 ∧
    ∀ x < 96 / 4, ∀ y < 40, load32 f.bytes (4 * (y * (96 / 4) + x)) =
      ([72, 105, 10, 33].foldl (Grid.put (20 / 8) (40 / 16)) Grid.blank).pixel (fun _ => 0xFF) (20 / 8) (40 / 16) x y :=
  console_shows_terminal _ _ (by norm_num) (by norm_num) (by norm_num) (by norm_num) (by norm_num) [72, 105, 10, 33]

end Console
end PointerOS
