import Nyxis.Status
import Nyxis.KernelLib.Memory

/-!
# The framebuffer console

{lit}`printk_init`, scrolling, the newline and {lit}`fb_putc` of {lit}`printk.c`, with the glyph
drawing of {lit}`outputs_base.c`.  The framebuffer is a sequence of 32-bit cells.  The state keeps a
trace of the cells that have been touched and of the places where a glyph was to be drawn.

Main results:

- Theorem {lit}`cells_memmove`: {lit}`memmove` on the bytes of the framebuffer moves its cells.
- Theorem {lit}`Placed.fbPutc_run`: a character keeps the cursor in its place and scrolls at most
  once.
- Theorem {lit}`console_cursor_invariant`: the same over every sequence of characters.
-/

namespace Nyxis
namespace Console

open Bytes

/-! ## State -/

/-- {lit}`FONT_W` and {lit}`FONT_H`. -/
def fontW : Nat := 16
def fontH : Nat := 16

/-- {lit}`CONSOLE_FG`, {lit}`CONSOLE_BG` and {lit}`CONSOLE_MAX_DIM`. -/
def consoleFg : Nat := 0xFFFFFF
def consoleBg : Nat := 0
def consoleMaxDim : Nat := 16384

/-- What the console does to the framebuffer. -/
inductive Event
  | write (cell : Nat)
  | scroll (dst src count : Nat)
  | glyph (x y : Nat)
deriving DecidableEq

/-- The globals that {lit}`printk_init` sets once.  The address 0 is the null pointer. -/
structure Screen where
  fb : Nat
  stride : Nat
  width : Nat
  height : Nat
deriving DecidableEq

/-- The globals of {lit}`printk.c`, the cells of the framebuffer and the trace. -/
structure PrintkState where
  screen : Screen
  cursorX : Nat
  cursorY : Nat
  cells : Nat → Nat
  trace : List Event

abbrev PrintkM := Eff Stop PrintkState

/-! ## Machine arithmetic -/

def add32 (a b : Nat) : Nat := (a + b) % 2 ^ 32
def sub32 (a b : Nat) : Nat := (2 ^ 32 + a - b) % 2 ^ 32
def mul32 (a b : Nat) : Nat := (a * b) % 2 ^ 32
def add64 (a b : Nat) : Nat := (a + b) % 2 ^ 64
def sub64 (a b : Nat) : Nat := (2 ^ 64 + a - b) % 2 ^ 64
def mul64 (a b : Nat) : Nat := (a * b) % 2 ^ 64

theorem add32_eq {a b : Nat} (h : a + b < 2 ^ 32) : add32 a b = a + b :=
  Nat.mod_eq_of_lt h

theorem sub32_eq {a b : Nat} (hle : b ≤ a) (ha : a < 2 ^ 32) : sub32 a b = a - b := by
  unfold sub32
  omega

theorem add64_eq {a b : Nat} (h : a + b < 2 ^ 64) : add64 a b = a + b :=
  Nat.mod_eq_of_lt h

theorem sub64_eq {a b : Nat} (hle : b ≤ a) (ha : a < 2 ^ 64) : sub64 a b = a - b := by
  unfold sub64
  omega

theorem mul64_eq {a b : Nat} (h : a * b < 2 ^ 64) : mul64 a b = a * b :=
  Nat.mod_eq_of_lt h

/-! ## Drawing -/

/-- Note an event. -/
def note (e : Event) : PrintkM Unit :=
  Eff.modify (fun s => { s with trace := s.trace ++ [e] })

/-- Store into a cell. -/
def writeCell (i v : Nat) : PrintkM Unit := do
  Eff.modify (fun s => { s with cells := Function.update s.cells i v })
  note (.write i)

/-- {lit}`memmove` from one cell to another, with a size in bytes. -/
def moveCells (dst src size : Nat) : PrintkM Unit := do
  Eff.modify (fun s => { s with cells := copied s.cells dst src 0 (size / 4) })
  note (.scroll dst src (size / 4))

/-- Clear some cells of a line. -/
def clearLine (line : Nat) : (n col : Nat) → PrintkM Unit
  | 0, _ => pure ()
  | n + 1, col => do
      writeCell (add64 line col) consoleBg
      clearLine line n (col + 1)

/-- Clear some rows of the screen. -/
def clearRows (stride width : Nat) : (n row : Nat) → PrintkM Unit
  | 0, _ => pure ()
  | n + 1, row => do
      clearLine (mul64 row stride) width 0
      clearRows stride width n (row + 1)

/-- Store a row of pixels. -/
def writeLine : (i : Nat) → List Nat → PrintkM Unit
  | _, [] => pure ()
  | i, p :: ps => do
      writeCell i p
      writeLine (i + 1) ps

/-- {lit}`GetFont`. -/
def getFont (fonts : Nat → List UInt8) (c : UInt8) : List UInt8 :=
  if c.toNat < 32 ∨ c.toNat > 126 then fonts 0 else fonts (c.toNat - 32)

/-- One row of a glyph. -/
def lineBuffer (glyph : List UInt8) (row fg bg : Nat) : List Nat :=
  let pixels (b : UInt8) := (List.range 8).map (fun bit =>
    if b.toNat &&& (0x80 >>> bit) ≠ 0 then fg else bg)
  pixels (glyph.getD (row * 2) 0) ++ pixels (glyph.getD (row * 2 + 1) 0)

/-- The loop of {lit}`draw_char_fast`. -/
def glyphRows (glyph : List UInt8) (stride x y fg bg : Nat) : (n row : Nat) → PrintkM Unit
  | 0, _ => pure ()
  | n + 1, row => do
      writeLine (add64 (mul64 (add32 y row) stride) x) (lineBuffer glyph row fg bg)
      glyphRows glyph stride x y fg bg n (row + 1)

/-- {lit}`draw_char_fast`. -/
def drawCharFast (fonts : Nat → List UInt8) (fb stride x y : Nat) (c : UInt8) (fg bg : Nat) :
    PrintkM Unit :=
  if fb = 0 ∨ stride = 0 then failWith .NinvalidArg
  else glyphRows (getFont fonts c) stride x y fg bg 16 0

/-- {lit}`draw_char_bounded`. -/
def drawCharBounded (fonts : Nat → List UInt8) (fb stride width height x y : Nat) (c : UInt8)
    (fg bg : Nat) : PrintkM Unit := do
  note (.glyph x y)
  if fb = 0 ∨ stride = 0 ∨ stride < width then failWith .NinvalidArg
  else if x > width ∨ y > height then failWith .NinvalidArg
  else if width - x < 16 ∨ height - y < 16 then failWith .NinvalidArg
  else drawCharFast fonts fb stride x y c fg bg

/-! ## The console -/

/-- {lit}`printk_init`. -/
def printkInit (framebuffer pixelsPerScanline screenWidth screenHeight : Nat) : PrintkM Unit :=
  if framebuffer = 0 ∨ pixelsPerScanline = 0 ∨ screenWidth = 0 ∨ screenHeight = 0 then
    failWith .NinvalidArg
  else if screenWidth > consoleMaxDim ∨ screenHeight > consoleMaxDim then failWith .NinvalidArg
  else if pixelsPerScanline < screenWidth ∨ pixelsPerScanline > consoleMaxDim * 2 then
    failWith .NinvalidArg
  else if screenWidth < fontW ∨ screenHeight < fontH then failWith .NinvalidArg
  else do
    Eff.modify (fun s => { s with
      screen := {
        fb := framebuffer
        stride := pixelsPerScanline
        width := screenWidth
        height := screenHeight }
      cursorX := 0
      cursorY := 0 })
    clearRows pixelsPerScanline screenWidth screenHeight 0

/-- {lit}`console_scroll`. -/
def consoleScroll : PrintkM Unit := do
  let screen ← Eff.gets PrintkState.screen
  let rowsToMove := sub64 screen.height fontH
  moveCells 0 (mul64 fontH screen.stride) (mul64 (mul64 rowsToMove screen.stride) 4)
  clearRows screen.stride screen.width (screen.height - rowsToMove) rowsToMove

/-- The loop of {lit}`console_newline`. -/
def newlineLoop : (fuel : Nat) → PrintkM Unit
  | 0 => do
      let s ← Eff.gets id
      if add32 s.cursorY fontH > s.screen.height then Eff.fail .hang else pure ()
  | fuel + 1 => do
      let s ← Eff.gets id
      if add32 s.cursorY fontH > s.screen.height then do
        consoleScroll
        Eff.modify (fun s => { s with cursorY := sub32 s.cursorY fontH })
        newlineLoop fuel
      else
        pure ()

/-- {lit}`console_newline`.  Each round of its loop moves the cursor up. -/
def consoleNewline : PrintkM Unit := do
  Eff.modify (fun s => { s with cursorX := 0, cursorY := add32 s.cursorY fontH })
  let s ← Eff.gets id
  newlineLoop (s.cursorY + 1)

/-- The test of {lit}`fb_putc` before a glyph and behind a tab: a newline if no glyph fits. -/
def wrapLine : PrintkM Unit := do
  let s ← Eff.gets id
  if add32 s.cursorX fontW > s.screen.width then consoleNewline else pure ()

/-- {lit}`fb_putc`. -/
def fbPutc (fonts : Nat → List UInt8) (c : UInt8) : PrintkM Unit := do
  let s ← Eff.gets id
  if s.screen.fb = 0 then pure ()
  else if c = 10 then consoleNewline
  else if c = 13 then Eff.modify (fun s => { s with cursorX := 0 })
  else if c = 9 then do
    let tab := mul32 fontW 4
    Eff.modify (fun s => { s with cursorX := mul32 (add32 (s.cursorX / tab) 1) tab })
    wrapLine
  else do
    wrapLine
    let s ← Eff.gets id
    Eff.ignore (drawCharBounded fonts s.screen.fb s.screen.stride s.screen.width s.screen.height
      s.cursorX s.cursorY c consoleFg consoleBg)
    Eff.modify (fun s => { s with cursorX := add32 s.cursorX fontW })

/-- Put out characters one after the other. -/
def putChars (fonts : Nat → List UInt8) : List UInt8 → PrintkM Unit
  | [] => pure ()
  | c :: cs => do
      fbPutc fonts c
      putChars fonts cs

/-! ## The bytes of the framebuffer -/

/-- A cell of the framebuffer in memory. -/
def cellAt (m : KernelLib.Memory) (fb i : Nat) : Nat :=
  leNat (bytesAt m (fb + 4 * i) 4)

/-- {lit}`memmove` on the bytes of the framebuffer moves its cells. -/
theorem cells_memmove (m : KernelLib.Memory) {fb k n : Nat} (h : fb + 4 * (k + n) < 2 ^ 64) :
    cellAt (KernelLib.memmove m fb (fb + 4 * k) (4 * n)).2 fb = copied (cellAt m fb) 0 k 0 n := by
  rw [KernelLib.memmove_eq m (by omega) (by omega) (by omega) (by omega)]
  funext i
  unfold cellAt
  dsimp only
  by_cases hi : i < n
  · rw [copied_of_mem (by omega) (by omega)]
    refine congrArg leNat (List.map_congr_left fun j hj => ?_)
    rw [List.mem_range] at hj
    rw [copied_of_mem (by omega) (by omega)]
    congr 1
    omega
  · rw [copied_of_not_mem (by omega), bytesAt_copied (by omega)]

/-! ## What drawing leaves -/

variable {s s' s'' : PrintkState} {fonts : Nat → List UInt8} {m n : Nat}

/-- An event is about cells of the framebuffer, or a place where a glyph fits. -/
def Event.Fits (screen : Screen) : Event → Prop
  | .write cell => cell < screen.stride * screen.height
  | .scroll dst src count => ∀ j < count,
      dst + j < screen.stride * screen.height ∧ src + j < screen.stride * screen.height
  | .glyph x y => x + fontW ≤ screen.width ∧ y + fontH ≤ screen.height

def Event.isScroll : Event → Bool
  | .scroll .. => true
  | _ => false

/-- Drawing has kept the screen, touched cells of the framebuffer only and scrolled some times. -/
structure Painted (n : Nat) (s s' : PrintkState) : Prop where
  screen : s'.screen = s.screen
  trace : ∃ new, s'.trace = s.trace ++ new ∧ (∀ e ∈ new, e.Fits s.screen) ∧
    new.countP Event.isScroll = n

/-- The cursor has not moved. -/
def SameCursor (s s' : PrintkState) : Prop :=
  s'.cursorX = s.cursorX ∧ s'.cursorY = s.cursorY

theorem Painted.refl (s : PrintkState) : Painted 0 s s :=
  ⟨rfl, [], (List.append_nil _).symm, nofun, rfl⟩

theorem Painted.trans (h : Painted m s s') (h' : Painted n s' s'') : Painted (m + n) s s'' := by
  obtain ⟨new, htrace, hfits, hcount⟩ := h.trace
  obtain ⟨new', htrace', hfits', hcount'⟩ := h'.trace
  refine ⟨h'.screen.trans h.screen, new ++ new', ?_, fun e he => ?_, ?_⟩
  · rw [htrace', htrace, List.append_assoc]
  · rcases List.mem_append.mp he with he | he
    · exact hfits e he
    · exact h.screen ▸ hfits' e he
  · rw [List.countP_append, hcount, hcount']

theorem SameCursor.trans (h : SameCursor s s') (h' : SameCursor s' s'') : SameCursor s s'' :=
  ⟨h'.1.trans h.1, h'.2.trans h.2⟩

/-- A change of the cursor draws nothing. -/
theorem Painted.of_cursor (hscreen : s'.screen = s.screen) (htrace : s'.trace = s.trace) :
    Painted 0 s s' :=
  ⟨hscreen, [], by rw [htrace, List.append_nil], nofun, rfl⟩

/-- One event more. -/
theorem Painted.of_note {e : Event} (hscreen : s'.screen = s.screen)
    (htrace : s'.trace = s.trace ++ [e]) (hfits : e.Fits s.screen) :
    Painted (if e.isScroll then 1 else 0) s s' := by
  refine ⟨hscreen, [e], htrace, fun e' he' => ?_, List.countP_singleton⟩
  rw [List.mem_singleton.mp he']
  exact hfits

theorem writeCell_run {i : Nat} (v : Nat) (hi : i < s.screen.stride * s.screen.height) :
    ∃ s', writeCell i v s = (.ok (), s') ∧ Painted 0 s s' ∧ SameCursor s s' :=
  ⟨_, rfl, Painted.of_note (e := .write i) rfl rfl hi, rfl, rfl⟩

/-- Storing a row of pixels. -/
theorem writeLine_run (pixels : List Nat) {i : Nat}
    (hi : i + pixels.length ≤ s.screen.stride * s.screen.height) :
    ∃ s', writeLine i pixels s = (.ok (), s') ∧ Painted 0 s s' ∧ SameCursor s s' := by
  induction pixels generalizing i s with
  | nil => exact ⟨s, rfl, Painted.refl s, rfl, rfl⟩
  | cons p pixels ih =>
      rw [List.length_cons] at hi
      obtain ⟨s₁, hrun, hpaint, hcursor⟩ := writeCell_run p (s := s) (i := i) (by omega)
      have hrest : i + 1 + pixels.length ≤ s₁.screen.stride * s₁.screen.height := by
        rw [hpaint.screen]
        omega
      obtain ⟨s₂, hrun', hpaint', hcursor'⟩ := ih hrest
      refine ⟨s₂, ?_, hpaint.trans hpaint', hcursor.trans hcursor'⟩
      rw [writeLine, Eff.bind_ok hrun]
      exact hrun'

/-- The sizes that {lit}`printk_init` accepts. -/
structure Screen.Accepted (screen : Screen) : Prop where
  fb : screen.fb ≠ 0
  width_le : screen.width ≤ consoleMaxDim
  height_le : screen.height ≤ consoleMaxDim
  width_le_stride : screen.width ≤ screen.stride
  stride_le : screen.stride ≤ consoleMaxDim * 2
  fontW_le : fontW ≤ screen.width
  fontH_le : fontH ≤ screen.height

/-- A cell of the screen is a cell of the framebuffer. -/
theorem Screen.Accepted.cell_lt {screen : Screen} (h : screen.Accepted) {row col : Nat}
    (hrow : row < screen.height) (hcol : col < screen.width) :
    row * screen.stride + col < screen.stride * screen.height := by
  have hle : (row + 1) * screen.stride ≤ screen.height * screen.stride :=
    Nat.mul_le_mul_right _ hrow
  have hwidth := h.width_le_stride
  rw [Nat.add_mul] at hle
  rw [Nat.mul_comm screen.stride]
  omega

theorem Screen.Accepted.product_le {screen : Screen} (h : screen.Accepted) (row : Nat)
    (hrow : row ≤ screen.height) : row * screen.stride ≤ 2 ^ 29 := by
  have hmul : row * screen.stride ≤ consoleMaxDim * (consoleMaxDim * 2) :=
    Nat.mul_le_mul (hrow.trans h.height_le) h.stride_le
  exact hmul

/-- Clearing some cells of a line. -/
theorem clearLine_run (hs : s.screen.Accepted) {row n col : Nat} (hrow : row < s.screen.height)
    (hcol : col + n ≤ s.screen.width) :
    ∃ s', clearLine (row * s.screen.stride) n col s = (.ok (), s') ∧ Painted 0 s s' ∧
      SameCursor s s' := by
  induction n generalizing col s with
  | zero => exact ⟨s, rfl, Painted.refl s, rfl, rfl⟩
  | succ n ih =>
      have hcol' : col < s.screen.width := by omega
      have hcell := hs.cell_lt hrow hcol'
      have hprod := hs.product_le row hrow.le
      have hwidth := hs.width_le
      have hmax : consoleMaxDim = 16384 := rfl
      have hindex : add64 (row * s.screen.stride) col = row * s.screen.stride + col :=
        add64_eq (by omega)
      obtain ⟨s₁, hrun, hpaint, hcursor⟩ := writeCell_run consoleBg hcell
      have hscreen := hpaint.screen
      have hrest : col + 1 + n ≤ s₁.screen.width := by
        rw [hscreen]
        omega
      obtain ⟨s₂, hrun', hpaint', hcursor'⟩ := ih (hscreen ▸ hs) (by rw [hscreen]; exact hrow) hrest
      rw [hscreen] at hrun'
      refine ⟨s₂, ?_, hpaint.trans hpaint', hcursor.trans hcursor'⟩
      rw [clearLine, hindex, Eff.bind_ok hrun]
      exact hrun'

/-- Clearing some rows of the screen. -/
theorem clearRows_run (hs : s.screen.Accepted) {n row : Nat} (hrow : row + n ≤ s.screen.height) :
    ∃ s', clearRows s.screen.stride s.screen.width n row s = (.ok (), s') ∧ Painted 0 s s' ∧
      SameCursor s s' := by
  induction n generalizing row s with
  | zero => exact ⟨s, rfl, Painted.refl s, rfl, rfl⟩
  | succ n ih =>
      have hrow' : row < s.screen.height := by omega
      have hprod := hs.product_le row hrow'.le
      have hline : mul64 row s.screen.stride = row * s.screen.stride := mul64_eq (by omega)
      have hwhole : 0 + s.screen.width ≤ s.screen.width := by omega
      obtain ⟨s₁, hrun, hpaint, hcursor⟩ := clearLine_run hs hrow' hwhole
      have hscreen := hpaint.screen
      have hrest : row + 1 + n ≤ s₁.screen.height := by
        rw [hscreen]
        omega
      obtain ⟨s₂, hrun', hpaint', hcursor'⟩ := ih (hscreen ▸ hs) hrest
      rw [hscreen] at hrun'
      refine ⟨s₂, ?_, hpaint.trans hpaint', hcursor.trans hcursor'⟩
      rw [clearRows, hline, Eff.bind_ok hrun]
      exact hrun'

/-- Scrolling moves and clears cells of the framebuffer. -/
theorem consoleScroll_run (hs : s.screen.Accepted) :
    ∃ s', consoleScroll s = (.ok (), s') ∧ Painted 1 s s' ∧ SameCursor s s' := by
  have hheight := hs.height_le
  have hfont := hs.fontH_le
  have hmax : consoleMaxDim = 16384 := rfl
  have hfontH : fontH = 16 := rfl
  have hrows : sub64 s.screen.height fontH = s.screen.height - fontH := sub64_eq hfont (by omega)
  have hprod := hs.product_le (s.screen.height - fontH) (Nat.sub_le _ _)
  have hprod' := hs.product_le fontH hfont
  have hsrc : mul64 fontH s.screen.stride = fontH * s.screen.stride := mul64_eq (by omega)
  have hcount : mul64 (s.screen.height - fontH) s.screen.stride =
      (s.screen.height - fontH) * s.screen.stride := mul64_eq (by omega)
  have hbytes : mul64 ((s.screen.height - fontH) * s.screen.stride) 4 / 4 =
      (s.screen.height - fontH) * s.screen.stride := by
    rw [mul64_eq (by omega), Nat.mul_div_cancel _ (by decide)]
  have hsum : fontH * s.screen.stride + (s.screen.height - fontH) * s.screen.stride =
      s.screen.stride * s.screen.height := by
    rw [← Nat.add_mul, Nat.add_sub_cancel' hfont, Nat.mul_comm]
  obtain ⟨s₁, hmove, hpaint, hcursor⟩ : ∃ s₁, moveCells 0 (fontH * s.screen.stride)
      (mul64 ((s.screen.height - fontH) * s.screen.stride) 4) s = (.ok (), s₁) ∧
        Painted 1 s s₁ ∧ SameCursor s s₁ := by
    refine ⟨_, rfl, Painted.of_note (e := .scroll 0 (fontH * s.screen.stride)
      (mul64 ((s.screen.height - fontH) * s.screen.stride) 4 / 4)) rfl rfl ?_, rfl, rfl⟩
    rw [hbytes]
    intro j hj
    constructor
    · omega
    · omega
  have hscreen := hpaint.screen
  have hbottom : s.screen.height - fontH + (s.screen.height - (s.screen.height - fontH)) ≤
      s₁.screen.height := by
    rw [hscreen]
    omega
  obtain ⟨s₂, hclear, hpaint', hcursor'⟩ := clearRows_run (hscreen ▸ hs) hbottom
  rw [hscreen] at hclear
  refine ⟨s₂, ?_, hpaint.trans hpaint', hcursor.trans hcursor'⟩
  unfold consoleScroll
  rw [Eff.gets_bind_run, hrows, hsrc, hcount, Eff.bind_ok hmove]
  exact hclear

theorem length_lineBuffer (glyph : List UInt8) (row fg bg : Nat) :
    (lineBuffer glyph row fg bg).length = 16 := by
  simp [lineBuffer]

/-- Drawing some rows of a glyph. -/
theorem glyphRows_run (hs : s.screen.Accepted) (glyph : List UInt8) (fg bg : Nat)
    {x y n row : Nat} (hx : x + fontW ≤ s.screen.width) (hy : y + row + n ≤ s.screen.height) :
    ∃ s', glyphRows glyph s.screen.stride x y fg bg n row s = (.ok (), s') ∧ Painted 0 s s' ∧
      SameCursor s s' := by
  induction n generalizing row s with
  | zero => exact ⟨s, rfl, Painted.refl s, rfl, rfl⟩
  | succ n ih =>
      have hmax : consoleMaxDim = 16384 := rfl
      have hfontW : fontW = 16 := rfl
      have hheight := hs.height_le
      have hwidth := hs.width_le
      have hrow : y + row < s.screen.height := by omega
      have hcol : x + 15 < s.screen.width := by omega
      have hprod := hs.product_le (y + row) hrow.le
      have hlast := hs.cell_lt hrow hcol
      have hindex : add64 (mul64 (add32 y row) s.screen.stride) x =
          (y + row) * s.screen.stride + x := by
        rw [add32_eq (by omega), mul64_eq (by omega), add64_eq (by omega)]
      have hwide : (y + row) * s.screen.stride + x + (lineBuffer glyph row fg bg).length ≤
          s.screen.stride * s.screen.height := by
        rw [length_lineBuffer]
        omega
      obtain ⟨s₁, hrun, hpaint, hcursor⟩ := writeLine_run (lineBuffer glyph row fg bg) hwide
      have hscreen := hpaint.screen
      have hrest : y + (row + 1) + n ≤ s₁.screen.height := by
        rw [hscreen]
        omega
      obtain ⟨s₂, hrun', hpaint', hcursor'⟩ := ih (hscreen ▸ hs) (by rw [hscreen]; exact hx) hrest
      rw [hscreen] at hrun'
      refine ⟨s₂, ?_, hpaint.trans hpaint', hcursor.trans hcursor'⟩
      rw [glyphRows, hindex, Eff.bind_ok hrun]
      exact hrun'

/-- A glyph that fits is drawn. -/
theorem drawCharBounded_run (hs : s.screen.Accepted) (fonts : Nat → List UInt8) (c : UInt8)
    (fg bg : Nat) {x y : Nat} (hx : x + fontW ≤ s.screen.width) (hy : y + fontH ≤ s.screen.height) :
    ∃ s', drawCharBounded fonts s.screen.fb s.screen.stride s.screen.width s.screen.height x y c
        fg bg s = (.ok (), s') ∧ Painted 0 s s' ∧ SameCursor s s' := by
  have hfontW : fontW = 16 := rfl
  have hfontH : fontH = 16 := rfl
  have hstride := hs.width_le_stride
  obtain ⟨s₁, hnote, hpaint, hcursor⟩ : ∃ s₁, note (.glyph x y) s = (.ok (), s₁) ∧
      Painted 0 s s₁ ∧ SameCursor s s₁ :=
    ⟨_, rfl, Painted.of_note (e := .glyph x y) rfl rfl ⟨hx, hy⟩, rfl, rfl⟩
  have hscreen := hpaint.screen
  have hx' : x + fontW ≤ s₁.screen.width := by
    rw [hscreen]
    exact hx
  have hy' : y + 0 + 16 ≤ s₁.screen.height := by
    rw [hscreen]
    omega
  obtain ⟨s₂, hrows, hpaint', hcursor'⟩ :=
    glyphRows_run (hscreen ▸ hs) (getFont fonts c) fg bg hx' hy'
  rw [hscreen] at hrows
  refine ⟨s₂, ?_, hpaint.trans hpaint', hcursor.trans hcursor'⟩
  have hnull := hs.fb
  unfold drawCharBounded drawCharFast
  rw [Eff.bind_ok hnote, if_neg (by omega), if_neg (by omega), if_neg (by omega),
    if_neg (by omega)]
  exact hrows

/-! ## Characters -/

/-- The line of the cursor fits the screen. -/
structure OnLine (s : PrintkState) : Prop where
  accepted : s.screen.Accepted
  cursorY_le : s.cursorY + fontH ≤ s.screen.height

/-- The state between two characters. -/
structure Placed (s : PrintkState) : Prop extends OnLine s where
  cursorX_le : s.cursorX ≤ s.screen.width

/-- Where the cursor is after a newline. -/
structure NewLine (s s' : PrintkState) : Prop where
  cursorX : s'.cursorX = 0
  cursorY : s'.cursorY + fontH ≤ s.screen.height

/-- The loop of {lit}`console_newline` has nothing to do when the next line fits. -/
theorem newlineLoop_done (fuel : Nat) (h : add32 s.cursorY fontH ≤ s.screen.height) :
    newlineLoop fuel s = (.ok (), s) := by
  have hno : ¬ add32 (id s).cursorY fontH > (id s).screen.height := Nat.not_lt.mpr h
  cases fuel with
  | zero =>
      rw [newlineLoop, Eff.gets_bind_run, if_neg hno]
      rfl
  | succ fuel =>
      rw [newlineLoop, Eff.gets_bind_run, if_neg hno]
      rfl

/-- A newline goes to the next line and scrolls at most once. -/
theorem OnLine.consoleNewline_run (h : OnLine s) :
    ∃ s' n, consoleNewline s = (.ok (), s') ∧ n ≤ 1 ∧ Painted n s s' ∧ NewLine s s' := by
  have hmax : consoleMaxDim = 16384 := rfl
  have hfontH : fontH = 16 := rfl
  have hheight := h.accepted.height_le
  have hplace := h.cursorY_le
  have hadd : add32 s.cursorY fontH = s.cursorY + fontH := add32_eq (by omega)
  obtain ⟨s₁, hs₁⟩ : ∃ s₁, s₁ = { s with cursorX := 0, cursorY := s.cursorY + fontH } := ⟨_, rfl⟩
  have hmove : (Eff.modify (fun s => { s with
      cursorX := 0, cursorY := add32 s.cursorY fontH }) : PrintkM Unit) s = (.ok (), s₁) := by
    rw [hs₁, ← hadd]
    rfl
  have hpaint : Painted 0 s s₁ := Painted.of_cursor (by rw [hs₁]) (by rw [hs₁])
  have hx : s₁.cursorX = 0 := by rw [hs₁]
  have hy : s₁.cursorY = s.cursorY + fontH := by rw [hs₁]
  have hscreen := hpaint.screen
  have hnext : add32 s₁.cursorY fontH = s.cursorY + fontH + fontH := by
    rw [hy]
    exact add32_eq (by omega)
  have hstart : consoleNewline s = newlineLoop (s₁.cursorY + 1) s₁ := by
    unfold consoleNewline
    rw [Eff.bind_ok hmove]
    rfl
  rw [hstart]
  by_cases hfits : s.cursorY + fontH + fontH ≤ s.screen.height
  · refine ⟨s₁, 0, newlineLoop_done _ ?_, by decide, hpaint, hx, ?_⟩
    · rw [hnext, hscreen]
      exact hfits
    · rw [hy]
      exact hfits
  · -- one round of the loop brings the cursor back to its line
    obtain ⟨s₂, hscroll, hpaint', hcursor⟩ := consoleScroll_run (s := s₁) (hscreen ▸ h.accepted)
    obtain ⟨s₃, hs₃⟩ : ∃ s₃, s₃ = { s₂ with cursorY := sub32 s₂.cursorY fontH } := ⟨_, rfl⟩
    have hback : s₃.cursorY = s.cursorY := by
      rw [hs₃]
      dsimp only
      rw [hcursor.2, hy, sub32_eq (by omega) (by omega), Nat.add_sub_cancel]
    have hpaint₃ : Painted 0 s₂ s₃ := Painted.of_cursor (by rw [hs₃]) (by rw [hs₃])
    have hscreen₃ : s₃.screen = s.screen :=
      hpaint₃.screen.trans (hpaint'.screen.trans hscreen)
    have hx₃ : s₃.cursorX = 0 := by
      rw [hs₃]
      exact hcursor.1.trans hx
    refine ⟨s₃, 0 + 1 + 0, ?_, by decide, (hpaint.trans hpaint').trans hpaint₃, hx₃, ?_⟩
    · have hover : add32 (id s₁).cursorY fontH > (id s₁).screen.height := by
        dsimp only [id]
        rw [hnext, hscreen]
        omega
      rw [newlineLoop, Eff.gets_bind_run, if_pos hover, Eff.bind_ok hscroll]
      have hmodify : (Eff.modify (fun s => { s with
          cursorY := sub32 s.cursorY fontH }) : PrintkM Unit) s₂ = (.ok (), s₃) := by
        rw [hs₃]
        rfl
      rw [Eff.bind_ok hmodify]
      refine newlineLoop_done _ ?_
      rw [hback, hscreen₃, hadd]
      exact hplace
    · rw [hback]
      exact hplace

/-- A newline leaves the cursor in its place. -/
theorem OnLine.of_newLine (h : OnLine s) (hpaint : Painted n s s') (hline : NewLine s s') :
    Placed s' := by
  refine ⟨⟨hpaint.screen ▸ h.accepted, ?_⟩, ?_⟩
  · rw [hpaint.screen]
    exact hline.cursorY
  · rw [hline.cursorX]
    exact Nat.zero_le _

/-- A newline if a glyph would not fit behind the cursor. -/
theorem OnLine.wrapLine_run (h : OnLine s) (hcursor : s.cursorX ≤ s.screen.width + 64) :
    ∃ s' n, wrapLine s = (.ok (), s') ∧ n ≤ 1 ∧ Painted n s s' ∧ Placed s' ∧
      s'.cursorX + fontW ≤ s'.screen.width := by
  have hmax : consoleMaxDim = 16384 := rfl
  have hfontW : fontW = 16 := rfl
  have hwidth := h.accepted.width_le
  have hadd : add32 s.cursorX fontW = s.cursorX + fontW := add32_eq (by omega)
  unfold wrapLine
  rw [Eff.gets_bind_run]
  by_cases hfits : s.cursorX + fontW ≤ s.screen.width
  · have hno : ¬ add32 (id s).cursorX fontW > (id s).screen.width := by
      dsimp only [id]
      omega
    rw [if_neg hno]
    exact ⟨s, 0, rfl, by decide, Painted.refl s, ⟨h, by omega⟩, hfits⟩
  · have hover : add32 (id s).cursorX fontW > (id s).screen.width := by
      dsimp only [id]
      omega
    rw [if_pos hover]
    obtain ⟨s', n, hrun, hn, hpaint, hline⟩ := h.consoleNewline_run
    have hplaced := h.of_newLine hpaint hline
    refine ⟨s', n, hrun, hn, hpaint, hplaced, ?_⟩
    rw [hline.cursorX, Nat.zero_add]
    exact hplaced.accepted.fontW_le

/-- A tab moves the cursor, past the right edge only for a moment. -/
theorem Placed.tab_le (h : Placed s) :
    mul32 (add32 (s.cursorX / mul32 fontW 4) 1) (mul32 fontW 4) ≤ s.screen.width + 64 := by
  have hmax : consoleMaxDim = 16384 := rfl
  have hwidth := h.accepted.width_le
  have hcursor := h.cursorX_le
  have htab : mul32 fontW 4 = 64 := rfl
  have hadd : add32 (s.cursorX / 64) 1 = s.cursorX / 64 + 1 := add32_eq (by omega)
  rw [htab, hadd]
  have hle : mul32 (s.cursorX / 64 + 1) 64 ≤ (s.cursorX / 64 + 1) * 64 := Nat.mod_le _ _
  omega

/-- A character keeps the cursor in its place, touches cells of the framebuffer only and scrolls at
most once. -/
theorem Placed.fbPutc_run (h : Placed s) (fonts : Nat → List UInt8) (c : UInt8) :
    ∃ s' n, fbPutc fonts c s = (.ok (), s') ∧ n ≤ 1 ∧ Painted n s s' ∧ Placed s' := by
  have hnull : (id s).screen.fb ≠ 0 := h.accepted.fb
  unfold fbPutc
  rw [Eff.gets_bind_run, if_neg hnull]
  by_cases hnewline : c = 10
  · rw [if_pos hnewline]
    obtain ⟨s', n, hrun, hn, hpaint, hline⟩ := h.consoleNewline_run
    exact ⟨s', n, hrun, hn, hpaint, h.of_newLine hpaint hline⟩
  rw [if_neg hnewline]
  by_cases hreturn : c = 13
  · rw [if_pos hreturn]
    refine ⟨_, 0, rfl, by decide, Painted.of_cursor rfl rfl, ⟨h.accepted, h.cursorY_le⟩, ?_⟩
    exact Nat.zero_le _
  rw [if_neg hreturn]
  by_cases htab : c = 9
  · rw [if_pos htab]
    obtain ⟨s₁, hs₁⟩ : ∃ s₁, s₁ = { s with
        cursorX := mul32 (add32 (s.cursorX / mul32 fontW 4) 1) (mul32 fontW 4) } := ⟨_, rfl⟩
    have hmove : (Eff.modify (fun s => { s with
        cursorX := mul32 (add32 (s.cursorX / mul32 fontW 4) 1) (mul32 fontW 4) }) : PrintkM Unit) s =
          (.ok (), s₁) := by
      rw [hs₁]
      rfl
    have hpaint : Painted 0 s s₁ := Painted.of_cursor (by rw [hs₁]) (by rw [hs₁])
    have hline : OnLine s₁ := by
      rw [hs₁]
      exact ⟨h.accepted, h.cursorY_le⟩
    obtain ⟨s₂, n, hrun, hn, hpaint', hplaced, -⟩ := hline.wrapLine_run (by
      rw [hs₁]
      exact h.tab_le)
    refine ⟨s₂, 0 + n, ?_, by omega, hpaint.trans hpaint', hplaced⟩
    rw [Eff.bind_ok hmove]
    exact hrun
  · rw [if_neg htab]
    obtain ⟨s₁, n, hwrap, hn, hpaint, hplaced, hfits⟩ := h.wrapLine_run (by
      have := h.cursorX_le
      omega)
    obtain ⟨s₂, hdraw, hpaint', hcursor⟩ := drawCharBounded_run hplaced.accepted fonts c consoleFg
      consoleBg hfits hplaced.cursorY_le
    have hignore : Eff.ignore (drawCharBounded fonts s₁.screen.fb s₁.screen.stride s₁.screen.width
        s₁.screen.height s₁.cursorX s₁.cursorY c consoleFg consoleBg) s₁ = (.ok (), s₂) := by
      unfold Eff.ignore
      rw [hdraw]
    have hmax : consoleMaxDim = 16384 := rfl
    have hwidth := hplaced.accepted.width_le
    have hadd : add32 s₂.cursorX fontW = s₁.cursorX + fontW := by
      rw [hcursor.1]
      exact add32_eq (by omega)
    refine ⟨{ s₂ with cursorX := add32 s₂.cursorX fontW }, n + 0 + 0, ?_, by omega,
      (hpaint.trans hpaint').trans (Painted.of_cursor rfl rfl), ⟨?_, ?_⟩, ?_⟩
    · rw [Eff.bind_ok hwrap, Eff.gets_bind_run]
      exact Eff.bind_ok hignore
    · dsimp only
      rw [hpaint'.screen]
      exact hplaced.accepted
    · dsimp only
      rw [hpaint'.screen, hcursor.2]
      exact hplaced.cursorY_le
    · dsimp only
      rw [hpaint'.screen, hadd]
      exact hfits

/-- The same over a sequence of characters. -/
theorem Placed.putChars_run (h : Placed s) (fonts : Nat → List UInt8) (cs : List UInt8) :
    ∃ s' n, putChars fonts cs s = (.ok (), s') ∧ Painted n s s' ∧ Placed s' := by
  induction cs generalizing s with
  | nil => exact ⟨s, 0, rfl, Painted.refl s, h⟩
  | cons c cs ih =>
      obtain ⟨s₁, n, hrun, -, hpaint, hplaced⟩ := h.fbPutc_run fonts c
      obtain ⟨s₂, n', hrun', hpaint', hplaced'⟩ := ih hplaced
      refine ⟨s₂, n + n', ?_, hpaint.trans hpaint', hplaced'⟩
      rw [putChars, Eff.bind_ok hrun]
      exact hrun'

/-- {lit}`printk_init` refuses a screen and sets nothing, or it accepts the screen and clears it. -/
theorem printkInit_cases (fb stride width height : Nat) (s : PrintkState) :
    (∃ e, printkInit fb stride width height s = (.error e, s)) ∨
      ∃ s', printkInit fb stride width height s = (.ok (), s') ∧
        s'.screen = ⟨fb, stride, width, height⟩ ∧ s'.cursorX = 0 ∧ Placed s' ∧
          ∃ new, s'.trace = s.trace ++ new ∧ ∀ e ∈ new, e.Fits s'.screen := by
  unfold printkInit
  split
  next => exact Or.inl ⟨_, rfl⟩
  next hzero =>
    split
    next => exact Or.inl ⟨_, rfl⟩
    next hmax =>
      split
      next => exact Or.inl ⟨_, rfl⟩
      next hstride =>
        split
        next => exact Or.inl ⟨_, rfl⟩
        next hfont =>
          have hfontH : fontH = 16 := rfl
          have haccepted : Screen.Accepted ⟨fb, stride, width, height⟩ :=
            ⟨by dsimp only; omega, by dsimp only; omega, by dsimp only; omega, by dsimp only; omega,
              by dsimp only; omega, by dsimp only; omega, by dsimp only; omega⟩
          obtain ⟨s₁, hs₁⟩ : ∃ s₁, s₁ = { s with
            screen := ⟨fb, stride, width, height⟩, cursorX := 0, cursorY := 0 } := ⟨_, rfl⟩
          have hset : (Eff.modify (fun s => { s with
              screen := ⟨fb, stride, width, height⟩, cursorX := 0, cursorY := 0 }) : PrintkM Unit) s =
                (.ok (), s₁) := by
            rw [hs₁]
            rfl
          have hscreen : s₁.screen = ⟨fb, stride, width, height⟩ := by rw [hs₁]
          have hall : 0 + height ≤ s₁.screen.height := by rw [hscreen, Nat.zero_add]
          obtain ⟨s₂, hclear, hpaint, hcursor⟩ := clearRows_run (hscreen ▸ haccepted) hall
          rw [hscreen] at hclear
          have hscreen₂ : s₂.screen = ⟨fb, stride, width, height⟩ := hpaint.screen.trans hscreen
          have hx : s₂.cursorX = 0 := hcursor.1.trans (by rw [hs₁])
          have hy : s₂.cursorY = 0 := hcursor.2.trans (by rw [hs₁])
          obtain ⟨new, htrace, hfits, -⟩ := hpaint.trace
          rw [Eff.bind_ok hset]
          refine Or.inr ⟨s₂, hclear, hscreen₂, hx, ⟨⟨hscreen₂ ▸ haccepted, ?_⟩, ?_⟩, new, ?_, ?_⟩
          · rw [hy, hscreen₂, Nat.zero_add]
            exact haccepted.fontH_le
          · rw [hx]
            exact Nat.zero_le _
          · rw [htrace, hs₁]
          · rw [hpaint.screen]
            exact hfits

/-- What {lit}`printk_init` accepts, and what it leaves. -/
theorem printkInit_run {fb stride width height : Nat} {s₀ : PrintkState}
    (h : printkInit fb stride width height s₀ = (.ok (), s)) :
    s.screen = ⟨fb, stride, width, height⟩ ∧ s.cursorX = 0 ∧ Placed s ∧
      ∃ new, s.trace = s₀.trace ++ new ∧ ∀ e ∈ new, e.Fits s.screen := by
  rcases printkInit_cases fb stride width height s₀ with ⟨e, hrun⟩ | ⟨s', hrun, hleft⟩
  · rw [hrun] at h
    cases h
  · obtain rfl : s' = s := congrArg Prod.snd (hrun.symm.trans h)
    exact hleft

/-- A cell that an event reads or writes. -/
def Event.Touches : Event → Nat → Prop
  | .write cell, c => c = cell
  | .scroll dst src count, c => ∃ j < count, c = dst + j ∨ c = src + j
  | .glyph _ _, _ => False

/-- An event touches cells of the framebuffer only. -/
theorem Event.Fits.touches_lt {e : Event} {screen : Screen} (h : e.Fits screen) {cell : Nat}
    (ht : e.Touches cell) : cell < screen.stride * screen.height := by
  cases e with
  | write c =>
      have hcell : cell = c := ht
      rw [hcell]
      exact h
  | scroll dst src count =>
      obtain ⟨j, hj, rfl | rfl⟩ := ht
      · exact (h j hj).1
      · exact (h j hj).2
  | glyph x y => exact ht.elim

/-- Without a framebuffer nothing is drawn. -/
theorem putChars_off (fonts : Nat → List UInt8) (cs : List UInt8) (h : s.screen.fb = 0) :
    putChars fonts cs s = (.ok (), s) := by
  induction cs with
  | nil => rfl
  | cons c cs ih =>
      have hputc : fbPutc fonts c s = (.ok (), s) := by
        have hnull : (id s).screen.fb = 0 := h
        rw [fbPutc, Eff.gets_bind_run, if_pos hnull]
        rfl
      rw [putChars, Eff.bind_ok hputc]
      exact ih

/-- What is drawn from the initialisation on fits the screen. -/
theorem printkInit_draws {fb stride width height : Nat} {s₀ : PrintkState}
    (h : printkInit fb stride width height s₀ = (.ok (), s)) (fonts : Nat → List UInt8)
    (cs : List UInt8) :
    Screen.Accepted ⟨fb, stride, width, height⟩ ∧ ∃ s' new, putChars fonts cs s = (.ok (), s') ∧
      s'.screen = ⟨fb, stride, width, height⟩ ∧ s'.trace = s₀.trace ++ new ∧
      ∀ e ∈ new, e.Fits ⟨fb, stride, width, height⟩ := by
  obtain ⟨hscreen, -, hplaced, new, htrace, hfits⟩ := printkInit_run h
  obtain ⟨s', n, hrun, hpaint, -⟩ := hplaced.putChars_run fonts cs
  obtain ⟨new', htrace', hfits', -⟩ := hpaint.trace
  rw [hscreen] at hfits hfits'
  refine ⟨hscreen ▸ hplaced.accepted, s', new ++ new', hrun, hpaint.screen.trans hscreen, ?_, ?_⟩
  · rw [htrace', htrace, List.append_assoc]
  · intro e he
    rcases List.mem_append.mp he with he | he
    · exact hfits e he
    · exact hfits' e he

/-- After {lit}`printk_init` has accepted a screen, and after any sequence of characters, the next
glyph line fits the screen.  One more character keeps that, draws a glyph only where it fits, touches
cells of the framebuffer only and scrolls at most once; neither it nor the initialisation touches any
cell behind the last line. -/
theorem console_cursor_invariant (fonts : Nat → List UInt8) {fb stride width height : Nat}
    {s₀ s : PrintkState} (hinit : printkInit fb stride width height s₀ = (.ok (), s)) :
    (∃ new, s.trace = s₀.trace ++ new ∧ ∀ e ∈ new, e.Fits ⟨fb, stride, width, height⟩) ∧
    ∀ cs, ∃ s₁, putChars fonts cs s = (.ok (), s₁) ∧ s₁.cursorY + fontH ≤ height ∧
      ∀ c, ∃ s₂ new, fbPutc fonts c s₁ = (.ok (), s₂) ∧ s₂.cursorY + fontH ≤ height ∧
        s₂.trace = s₁.trace ++ new ∧ (∀ e ∈ new, e.Fits ⟨fb, stride, width, height⟩) ∧
        new.countP Event.isScroll ≤ 1 := by
  obtain ⟨hscreen, -, hplaced, new, htrace, hfits⟩ := printkInit_run hinit
  refine ⟨⟨new, htrace, hscreen ▸ hfits⟩, fun cs => ?_⟩
  obtain ⟨s₁, n, hrun, hpaint, hplaced₁⟩ := hplaced.putChars_run fonts cs
  have hscreen₁ : s₁.screen = ⟨fb, stride, width, height⟩ := hpaint.screen.trans hscreen
  have hline₁ := hplaced₁.cursorY_le
  rw [hscreen₁] at hline₁
  refine ⟨s₁, hrun, hline₁, fun c => ?_⟩
  obtain ⟨s₂, n', hrun', hn', hpaint', hplaced₂⟩ := hplaced₁.fbPutc_run fonts c
  obtain ⟨new', htrace', hfits', hcount'⟩ := hpaint'.trace
  have hline₂ := hplaced₂.cursorY_le
  rw [hpaint'.screen, hscreen₁] at hline₂
  exact ⟨s₂, new', hrun', hline₂, htrace', hscreen₁ ▸ hfits', hcount'.trans_le hn'⟩

/-- A console of one line before {lit}`printk_init`. -/
def bareConsole : PrintkState where
  screen := ⟨0, 0, 0, 0⟩
  cursorX := 0
  cursorY := 0
  cells := fun _ => 1
  trace := []

/-- A screen with room for one glyph: two letters and a newline scroll it. -/
theorem console_cursor_invariant_small :
    ∃ s₁, putChars (fun _ => []) [65, 66, 10] (printkInit 4096 17 17 16 bareConsole).2 =
      (.ok (), s₁) ∧ s₁.cursorY + fontH ≤ 16 := by
  have hok : (printkInit 4096 17 17 16 bareConsole).1 = .ok () := by decide +kernel
  have hinit : printkInit 4096 17 17 16 bareConsole =
      (.ok (), (printkInit 4096 17 17 16 bareConsole).2) := Prod.ext hok rfl
  obtain ⟨s₁, hrun, hline, -⟩ :=
    (console_cursor_invariant (fun _ => []) hinit).2 [65, 66, 10]
  exact ⟨s₁, hrun, hline⟩

end Console
end Nyxis
