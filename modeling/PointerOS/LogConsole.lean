import PointerOS.Klog
import PointerOS.Kprintf
import PointerOS.Terminal

/-!
# From `kprintf` to the screen

`kprintf` writes blocks to the kernel log, the idle thread flushes the log to the back buffer, and
`lfb_swap` copies the back buffer to the framebuffer. For calls that do not overlap the whole chain is a
terminal that shows the texts in the order of the calls.
-/
namespace PointerOS
open ByteMemory Framebuffer

/-- `memcpy` of `n` bytes of the back buffer, byte by byte upwards. -/
def Framebuffer.copyTo (f : Framebuffer) : ℕ → ℕ → Memory → Memory
  | 0, _, vram => vram
  | n + 1, a, vram => f.copyTo n (a + 1) (Function.update vram a (f.bytes a))

def Framebuffer.lfbSwap (f : Framebuffer) (vram : Memory) : Memory := f.copyTo f.size 0 vram

/-- The log, the back buffer and the framebuffer. -/
structure Console where
  log : Klog
  lfb : Framebuffer
  vram : Memory

/-- The end of `init_LFB`: the back buffer is cleared, the log is made, and the screen is drawn. -/
def initConsole (font : ℕ → UInt8) (mem : Memory) (logMemory : ℕ → LogEntry) (vram : Memory)
    (width height pitch : ℕ) : Option Console :=
  (initLFB font mem width height pitch).map fun lfb => ⟨initKlog logMemory, lfb, lfb.lfbSwap vram⟩

namespace Console

/-- `kprintf` with the calls of `klog_write` that it makes. -/
def kprintf (c : Console) (localBuf : ℕ → UInt8) (mem : ℕ → CString) (args : ℕ → ℕ) (format : CString) :
    Except Fault Console :=
  (PointerOS.kprintf localBuf mem args format).map fun blocks => { c with log := blocks.foldl Klog.write c.log }

/-- `klog_flush_to_screen`: the screen is drawn when something was printed. -/
def klogFlushToScreen (c : Console) : Option Console :=
  c.log.flush.bind fun r => (r.1.foldlM kputcharDirect c.lfb).map fun lfb =>
    ⟨r.2, lfb, if r.1 = [] then c.vram else lfb.lfbSwap c.vram⟩

end Console

/-! ## The terminal -/

/-- A mode that the console can work in. -/
structure DisplayMode where
  width : ℕ
  height : ℕ
  pitch : ℕ
  wide : 8 ≤ width
  high : 16 ≤ height
  aligned : pitch % 4 = 0
  lines : 4 * width ≤ pitch
  small : pitch * height < 2 ^ 32

/-- A call of `kprintf` with arguments that fit the format. -/
structure PrintCall where
  localBuf : ℕ → UInt8
  mem : ℕ → CString
  args : ℕ → ℕ
  items : List Item
  matching : ArgsMatch mem args 0 items
  printable : ∀ i, .dec i ∈ items → i ≠ BitVec.intMin 32

namespace PrintCall

def format (p : PrintCall) : CString := ⟨formatOf p.items, zero_notMem_formatOf p.items⟩

def text (p : PrintCall) : List UInt8 := p.items.flatMap (Item.expand Item.prefix0x)

end PrintCall

/-- What was put on the screen, and what is still to come. -/
structure Transcript where
  output : List UInt8
  pending : List UInt8

namespace Transcript

def print (t : Transcript) (s : List UInt8) : Transcript := { t with pending := t.pending ++ s }

/-- Of more than 4096 characters the last 4096 are put out, behind a mark. -/
def flush (t : Transcript) : Transcript := ⟨t.output ++ shown t.pending, []⟩

end Transcript

/-- Complete calls one after the other. -/
inductive ConsoleRun (mode : DisplayMode) (font : ℕ → UInt8) : Console → Transcript → Prop
  | init {mem vram : Memory} {logMemory : ℕ → LogEntry} {c : Console}
      (h : initConsole font mem logMemory vram mode.width mode.height mode.pitch = some c) :
      ConsoleRun mode font c ⟨[], []⟩
  | print {c c' : Console} {t : Transcript} (run : ConsoleRun mode font c t) (p : PrintCall)
      (hlen : (t.print p.text).pending.length < 2 ^ 64)
      (h : c.kprintf p.localBuf p.mem p.args p.format = .ok c') : ConsoleRun mode font c' (t.print p.text)
  | flush {c c' : Console} {t : Transcript} (run : ConsoleRun mode font c t) (h : c.klogFlushToScreen = some c') :
      ConsoleRun mode font c' t.flush

/-! ## The steps of the chain -/

theorem Framebuffer.copyTo_eq (f : Framebuffer) (n a : ℕ) (vram : Memory) :
    f.copyTo n a vram = fun x => if a ≤ x ∧ x < a + n then f.bytes x else vram x := by
  induction n generalizing a vram with
  | zero =>
    funext x
    simp [Framebuffer.copyTo]
  | succ n ih =>
    rw [Framebuffer.copyTo, ih]
    funext x
    by_cases hx : x = a
    · simp [hx]
    · simp only [Function.update_of_ne hx]
      by_cases hin : a + 1 ≤ x ∧ x < a + 1 + n
      · rw [if_pos hin, if_pos (by omega)]
      · rw [if_neg hin, if_neg (by omega)]

theorem Framebuffer.lfbSwap_eqOn (f : Framebuffer) (vram : Memory) :
    Set.EqOn (f.lfbSwap vram) f.bytes (Set.Iio f.size) := by
  intro x hx
  have hin : 0 ≤ x ∧ x < 0 + f.size := ⟨Nat.zero_le x, by simpa using hx⟩
  simp only [lfbSwap, copyTo_eq, if_pos hin]

theorem PrintCall.kprintf_eq (p : PrintCall) : ∃ blocks : List (List UInt8),
    (∀ b ∈ blocks, b.length < kprintfBufMax) ∧ blocks.flatten = p.text ∧
      PointerOS.kprintf p.localBuf p.mem p.args p.format = .ok blocks := by
  obtain ⟨htokens, hlone⟩ := tokens_formatOf p.items
  obtain ⟨blocks, hlen, hflat, heq⟩ := kprintf_spec p.localBuf p.mem p.args p.format
  have htext := tokensText_of_match (fun i _ a => tokenText_of_holds) p.matching
  have hitem : ∀ i ∈ p.items, kprintfItem i = i.expand Item.prefix0x := by
    intro i hi
    cases i with
    | dec i => exact ((decText_eq i).resolve_right fun hmin => p.printable i hi hmin.2).1
    | _ => rfl
  refine ⟨blocks, fun b hb => (hlen b hb).2, ?_, heq.trans (if_neg (by simp [PrintCall.format, hlone]))⟩
  rw [hflat, PrintCall.format, htokens, htext]
  exact List.flatMap_congr hitem

namespace Klog

/-- Blocks that no call of `klog_write` cuts. -/
theorem Holds.writes {k : Klog} {p : List UInt8} (h : k.Holds p) (blocks : List (List UInt8))
    (hlen : ∀ b ∈ blocks, b.length ≤ klogBufMax) : (blocks.foldl Klog.write k).Holds (p ++ blocks.flatten) := by
  induction blocks generalizing k p with
  | nil => simpa using h
  | cons b blocks ih =>
    have hb := h.write b
    rw [List.take_of_length_le (hlen b (by simp))] at hb
    simpa using ih hb fun b' hb' => hlen b' (by simp [hb'])

end Klog

/-! ## Runs -/

/-- The log holds what is pending, the back buffer and the framebuffer show what was put out. -/
structure ConsoleInv (mode : DisplayMode) (font : ℕ → UInt8) (c : Console) (t : Transcript) : Prop where
  log : c.log.Holds t.pending
  bound : t.pending.length < 2 ^ 64
  width : c.lfb.width = mode.width
  height : c.lfb.height = mode.height
  pitch : c.lfb.pitch = mode.pitch
  font : c.lfb.font = font
  shows : Shows c.lfb (t.output.foldl (Grid.put (mode.width / 8) (mode.height / 16)) Grid.blank)
  swapped : Set.EqOn c.vram c.lfb.bytes (Set.Iio c.lfb.size)

section Steps
variable {mode : DisplayMode} {font : ℕ → UInt8} {c : Console} {t : Transcript}

theorem initConsole_spec (mode : DisplayMode) (font : ℕ → UInt8) (mem vram : Memory) (logMemory : ℕ → LogEntry) :
    ∃ c, initConsole font mem logMemory vram mode.width mode.height mode.pitch = some c ∧
      ConsoleInv mode font c ⟨[], []⟩ := by
  obtain ⟨f, hf, hshows, hw, hh, hp, hfont⟩ :=
    initLFB_shows font mem mode.wide mode.high mode.aligned mode.lines mode.small
  have hlog : (initKlog logMemory).Holds [] := (LogRun.init : LogRun logMemory _ []).holds.1
  refine ⟨_, by rw [initConsole, hf]; rfl, ?_⟩
  exact ⟨hlog, by decide, hw, hh, hp, hfont, hshows, f.lfbSwap_eqOn vram⟩

theorem ConsoleInv.kprintf (h : ConsoleInv mode font c t) (p : PrintCall) :
    ∃ c', c.kprintf p.localBuf p.mem p.args p.format = .ok c' ∧
      ((t.print p.text).pending.length < 2 ^ 64 → ConsoleInv mode font c' (t.print p.text)) := by
  obtain ⟨blocks, hlen, hflat, heq⟩ := p.kprintf_eq
  have hlog := h.log.writes blocks fun b hb => by
    have := hlen b hb
    unfold kprintfBufMax at this
    unfold klogBufMax
    omega
  rw [hflat] at hlog
  have hrun : c.kprintf p.localBuf p.mem p.args p.format = .ok { c with log := blocks.foldl Klog.write c.log } := by
    rw [Console.kprintf, heq]
    rfl
  exact ⟨_, hrun,
    fun hbound => ⟨hlog, hbound, h.width, h.height, h.pitch, h.font, h.shows, h.swapped⟩⟩

theorem ConsoleInv.flush (h : ConsoleInv mode font c t) :
    ∃ c', c.klogFlushToScreen = some c' ∧ ConsoleInv mode font c' t.flush := by
  obtain ⟨log, hflush, hlog⟩ := h.log.flush h.bound
  obtain ⟨f, hrun, hshows, hmode⟩ := h.shows.run (shown t.pending)
  have hgrid : (shown t.pending).foldl (Grid.put (c.lfb.width / 8) (c.lfb.height / 16))
      (t.output.foldl (Grid.put (mode.width / 8) (mode.height / 16)) Grid.blank) =
      t.flush.output.foldl (Grid.put (mode.width / 8) (mode.height / 16)) Grid.blank := by
    simp [Transcript.flush, h.width, h.height]
  rw [hgrid] at hshows
  refine ⟨_, by rw [Console.klogFlushToScreen, hflush, Option.bind_some, hrun]; rfl, hlog, by simp [Transcript.flush],
    hmode.width.trans h.width, hmode.height.trans h.height, hmode.pitch.trans h.pitch, hmode.font.trans h.font,
    hshows, ?_⟩
  by_cases hnil : shown t.pending = []
  · rw [hnil] at hrun
    have hsame : f = c.lfb := (Option.some.inj hrun).symm
    simpa [hnil, hsame] using h.swapped
  · simpa [hnil] using f.lfbSwap_eqOn c.vram

theorem ConsoleRun.inv (run : ConsoleRun mode font c t) : ConsoleInv mode font c t := by
  induction run with
  | init h =>
    obtain ⟨c, hc, hinv⟩ := initConsole_spec mode font _ _ _
    exact Option.some.inj (hc.symm.trans h) ▸ hinv
  | print _ p hlen h ih =>
    obtain ⟨c', hc', hinv⟩ := ih.kprintf p
    exact Except.ok.inj (hc'.symm.trans h) ▸ hinv hlen
  | flush _ h ih =>
    obtain ⟨c', hc', hinv⟩ := ih.flush
    exact Option.some.inj (hc'.symm.trans h) ▸ hinv

/-- The console comes up in every mode, every further call of either kind ends well, and the framebuffer
always shows what a terminal shows of the texts printed up to the last flush. -/
theorem log_reaches_screen (run : ConsoleRun mode font c t) :
    (∀ p : PrintCall, ∃ c', c.kprintf p.localBuf p.mem p.args p.format = .ok c') ∧
      (∃ c', c.klogFlushToScreen = some c') ∧
      ∀ x < mode.pitch / 4, ∀ y < mode.height, load32 c.vram (4 * (y * (mode.pitch / 4) + x)) =
        (t.output.foldl (Grid.put (mode.width / 8) (mode.height / 16)) Grid.blank).pixel font (mode.width / 8)
          (mode.height / 16) x y := by
  have h := run.inv
  refine ⟨fun p => (h.kprintf p).imp fun c' hc' => hc'.1, h.flush.imp fun c' hc' => hc'.1, fun x hx y hy => ?_⟩
  rw [← h.pitch] at hx ⊢
  rw [← h.height] at hy
  have hline := h.shows.screen.line_le hx hy
  have hword := h.shows.words x hx y hy
  rw [h.font, h.width, h.height] at hword
  rw [← hword, Framebuffer.word]
  refine load_congr (h.swapped.mono fun a ha => ?_)
  simp only [ByteMemory.bytes, Set.mem_Ico, Set.mem_Iio] at ha ⊢
  omega

end Steps

/-- A screen of two cells by two. -/
def tinyMode : DisplayMode := ⟨20, 40, 96, by decide, by decide, by decide, by decide, by decide⟩

theorem mixedItems_printable (i : BitVec 32) (hi : .dec i ∈ mixedItems) : i ≠ BitVec.intMin 32 := by
  have hfive : i = -5 := by simpa [mixedItems] using hi
  rw [hfive]
  decide

theorem mixedItems_match : ArgsMatch (fun _ => unknownFormat) mixedArgs 0 mixedItems :=
  ⟨rfl, trivial, rfl, trivial⟩

def mixedCall : PrintCall where
  localBuf := fun _ => 0
  mem := fun _ => unknownFormat
  args := mixedArgs
  items := mixedItems
  matching := mixedItems_match
  printable := mixedItems_printable

theorem log_reaches_screen_mixed : ∃ c, ConsoleRun tinyMode (fun _ => 0xFF) c ⟨mixedCall.text, []⟩ ∧
    ∀ x < 96 / 4, ∀ y < 40, load32 c.vram (4 * (y * (96 / 4) + x)) =
      (mixedCall.text.foldl (Grid.put (20 / 8) (40 / 16)) Grid.blank).pixel (fun _ => 0xFF) (20 / 8)
        (40 / 16) x y := by
  obtain ⟨c, hc, hinv⟩ := initConsole_spec tinyMode (fun _ => 0xFF) (fun _ => 0) (fun _ => 0) fun _ => ⟨0, 0⟩
  obtain ⟨c₁, hc₁, hinv₁⟩ := hinv.kprintf mixedCall
  have hlen : (Transcript.print ⟨[], []⟩ mixedCall.text).pending.length < 2 ^ 64 := by decide
  obtain ⟨c₂, hc₂, -⟩ := (hinv₁ hlen).flush
  have run : ConsoleRun tinyMode (fun _ => 0xFF) c₂ ⟨mixedCall.text, []⟩ :=
    ((ConsoleRun.init hc).print mixedCall hlen hc₁).flush hc₂
  exact ⟨c₂, run, (log_reaches_screen run).2.2⟩

end PointerOS
