import Fennix.Display.Screen
import Fennix.Libs.String

/-
  The console of the kernel.
-/

namespace Fennix

open List

structure PSF1Font where
  charsize : BitVec 8
  glyphBuffer : Nat → BitVec 8

inductive Font
| psf1 (font : PSF1Font)
| psf2 (font : PSF2Font)

def Font.height : Font → BitVec 8
| .psf1 _ => 8
| .psf2 font => font.header.height.setWidth 8

def PSF1Font.lit (font : PSF1Font) (char : BitVec 8) (row column : Nat) : Bool :=
  font.glyphBuffer (char.toNat * font.charsize.toNat + row) &&& (0b10000000#8 >>> column) ≠ 0

structure PrintLocation where
  x : BitVec 32
  y : BitVec 32

structure Display where
  framebuffer : Screen
  currentFont : Font
  ploc : PrintLocation
  drawn : List Drawing

namespace Display

def fontHeight (d : Display) : BitVec 32 :=
  d.currentFont.height.setWidth 32

def scroll (d : Display) : Drawing :=
  .moved (d.framebuffer.width * d.fontHeight * 4).toNat
    (d.framebuffer.width.setWidth 64 * (d.framebuffer.height - d.fontHeight).setWidth 64 * 4).toNat

def nextLine (d : Display) : Display :=
  let y := d.ploc.y + d.fontHeight
  if y ≥ d.framebuffer.height - d.fontHeight then
    { d with ploc := ⟨0, y - d.fontHeight⟩, drawn := d.drawn ++ [d.scroll] }
  else { d with ploc := ⟨0, y⟩ }

def wrap (d : Display) : Display :=
  if d.ploc.x + 8 > d.framebuffer.width then d.nextLine else d

def draw (d : Display) (char : BitVec 8) : Display :=
  match d.currentFont with
  | .psf2 font =>
    { d with
      ploc :=
        { d.ploc with x := d.ploc.x + font.header.width }
      drawn := d.drawn ++ [.glyph (font.drawGlyph d.framebuffer char d.ploc.x d.ploc.y)] }
  | .psf1 font =>
    -- lines are counted in shown pixels here
    { d with
      ploc := { d.ploc with x := d.ploc.x + 8 }
      drawn := d.drawn ++ [.glyph (raster d.framebuffer.width.toNat (font.lit char)
          d.ploc.x.toNat (d.ploc.x + 8).toNat
          d.ploc.y.toNat (d.ploc.y + 16).toNat)] }

def kernelPrint (d : Display) (char : BitVec 8) : Display × BitVec 8 :=
  if char = newline then (d.nextLine, char)
  else if char = carriageReturn then (d, char)
  else (d.wrap.draw (supported char), supported char)

def kernelPrintAll (d : Display) (text : List (BitVec 8)) : Display :=
  text.foldl (fun d char => (d.kernelPrint char).1) d

def start (fb : Screen) (font : PSF2Font) : Display :=
  ⟨fb, .psf2 font, ⟨0, 0⟩, []⟩

def AllShown (d : Display) : Prop :=
  ∀ drawing ∈ d.drawn, drawing.Shown d.framebuffer

def GlyphsShown (d : Display) : Prop :=
  ∀ drawing ∈ d.drawn, drawing.GlyphShown d.framebuffer

def CursorShown (font : PSF2Font) (d : Display) : Prop :=
  d.ploc.y.toNat < d.framebuffer.height.toNat - font.header.height.toNat

instance (font : PSF2Font) (d : Display) : Decidable (d.CursorShown font) :=
  inferInstanceAs (Decidable (_ < _))

structure Roomy (fb : Screen) (font : PSF2Font) : Prop where
  width_ge : 8 ≤ fb.width.toNat
  width_lt : fb.width.toNat < 2 ^ 31
  stride_ge : fb.width.toNat ≤ fb.pixelsPerScanLine.toNat
  height_ge : 2 * font.header.height.toNat ≤ fb.height.toNat
  height_lt : fb.height.toNat < 2 ^ 31
  fontWidth_le : font.header.width.toNat ≤ 8
  fontHeight_ge : 1 ≤ font.header.height.toNat

def advance (font : PSF2Font) : Nat :=
  font.header.height.toNat % 256

structure Steady (P : Drawing → Prop) (fb : Screen) (font : PSF2Font) (d : Display) : Prop where
  framebuffer : d.framebuffer = fb
  currentFont : d.currentFont = .psf2 font
  column : d.ploc.x.toNat ≤ fb.width.toNat
  row : d.ploc.y.toNat < fb.height.toNat - advance font
  still : advance font = 0 → d.ploc.y = 0
  drawn : ∀ drawing ∈ d.drawn, P drawing

section Lines

variable {P : Drawing → Prop} {fb : Screen} {font : PSF2Font} {d : Display}

theorem Steady.fontHeight_eq (h : Steady P fb font d) : d.fontHeight.toNat = advance font := by
  rw [Display.fontHeight, h.currentFont, Font.height, BitVec.toNat_setWidth, BitVec.toNat_setWidth,
    advance]
  exact Nat.mod_eq_of_lt (by omega)

variable (hRoomy : Roomy fb font)

include hRoomy

theorem nextLine_cases (h : Steady P fb font d) :
    (d.ploc.y.toNat + 2 * advance font < fb.height.toNat ∧ d.nextLine =
    { d with ploc := ⟨0, d.ploc.y + d.fontHeight⟩ }) ∨
    (fb.height.toNat ≤ d.ploc.y.toNat + 2 * advance font ∧ d.nextLine =
      { d with ploc := ⟨0, d.ploc.y⟩, drawn := d.drawn ++ [d.scroll] }) := by
  have hAdvance : advance font ≤ font.header.height.toNat := Nat.mod_le _ _
  have hHeight := hRoomy.height_ge
  have hLimit := hRoomy.height_lt
  have hRow := h.row
  have hFont := h.fontHeight_eq
  have hSum : (d.ploc.y + d.fontHeight).toNat = d.ploc.y.toNat + advance font := by
    rw [BitVec.toNat_add, hFont]
    omega
  have hEnd : (fb.height - d.fontHeight).toNat = fb.height.toNat - advance font := by
    rw [BitVec.toNat_sub, hFont]
    omega
  have hFull : d.ploc.y + d.fontHeight ≥ d.framebuffer.height - d.fontHeight ↔
    fb.height.toNat ≤ d.ploc.y.toNat + 2 * advance font := by
    rw [h.framebuffer, ge_iff_le, BitVec.le_def, hSum, hEnd]
    omega
  rw [nextLine]
  by_cases hLast : d.ploc.y + d.fontHeight ≥ d.framebuffer.height - d.fontHeight
  · refine Or.inr ⟨hFull.mp hLast, ?_⟩
    simp only [if_pos hLast, BitVec.add_sub_cancel]
  refine Or.inl ⟨?_, ?_⟩
  · exact Nat.not_le.mp (fun hOver => hLast (hFull.mpr hOver))
  · simp only [if_neg hLast]

theorem steady_nextLine (hScroll : ∀ d, Steady P fb font d → advance font ≠ 0 → P d.scroll)
    (h : Steady P fb font d) : Steady P fb font d.nextLine := by
  have hLimit := hRoomy.height_lt
  rcases nextLine_cases hRoomy h with ⟨hFree, hNext⟩ | ⟨hFull, hNext⟩
  · rw [hNext]
    have hSum : (d.ploc.y + d.fontHeight).toNat = d.ploc.y.toNat + advance font := by
      rw [BitVec.toNat_add, h.fontHeight_eq]
      omega
    refine ⟨h.framebuffer, h.currentFont, Nat.zero_le _, ?_, ?_, h.drawn⟩
    · change (d.ploc.y + d.fontHeight).toNat < _
      omega
    intro hZero
    have hHere := h.still hZero
    apply BitVec.eq_of_toNat_eq
    change (d.ploc.y + d.fontHeight).toNat = 0
    rw [hSum, hZero, hHere]
    rfl
  rw [hNext]
  refine ⟨h.framebuffer, h.currentFont, Nat.zero_le _, h.row, h.still, ?_⟩
  intro drawing hMem
  rcases mem_append.mp hMem with hOld | hNew
  · exact h.drawn drawing hOld
  rw [mem_singleton.mp hNew]
  apply hScroll d h
  intro hZero
  have hRow := h.row
  omega

theorem wrap_column (h : Steady P fb font d) :
    (d.wrap.ploc.x + font.header.width).toNat ≤ fb.width.toNat := by
  have hWidth := hRoomy.width_ge
  have hLimit := hRoomy.width_lt
  have hFont := hRoomy.fontWidth_le
  rw [wrap, h.framebuffer]
  split
  · have hFirst : d.nextLine.ploc.x = 0 := by
      rw [nextLine]
      split
      · rfl
      · rfl
    have hZero : (0 : BitVec 32).toNat = 0 := rfl
    rw [hFirst, BitVec.toNat_add, hZero]
    omega
  rename_i hFits
  have hEight : (8 : BitVec 32).toNat = 8 := rfl
  have hColumn := h.column
  rw [gt_iff_lt, BitVec.lt_def, Nat.not_lt, BitVec.toNat_add, hEight] at hFits
  rw [BitVec.toNat_add]
  omega

section

variable (hScroll : ∀ d, Steady P fb font d → advance font ≠ 0 → P d.scroll)
  (hGlyph : ∀ d char, Steady P fb font d → (d.ploc.x + font.header.width).toNat ≤ fb.width.toNat →
    P (.glyph (font.drawGlyph fb char d.ploc.x d.ploc.y)))
  (h : Steady P fb font d)

include hScroll hGlyph h

theorem steady_kernelPrint (char : BitVec 8) : Steady P fb font (d.kernelPrint char).1 := by
  rw [kernelPrint]
  split
  · exact steady_nextLine hRoomy hScroll h
  split
  · exact h
  have hColumn := wrap_column hRoomy h
  have hWrap : Steady P fb font d.wrap := by
    rw [wrap]
    split
    · exact steady_nextLine hRoomy hScroll h
    · exact h
  rw [draw, hWrap.currentFont]
  refine ⟨hWrap.framebuffer, rfl, hColumn, hWrap.row, hWrap.still, ?_⟩
  intro drawing hMem
  rcases mem_append.mp hMem with hOld | hNew
  · exact hWrap.drawn drawing hOld
  · rw [mem_singleton.mp hNew, hWrap.framebuffer]
    exact hGlyph d.wrap (supported char) hWrap hColumn

theorem steady_kernelPrintAll (text : List (BitVec 8)) :
    Steady P fb font (d.kernelPrintAll text) := by
  induction text generalizing d with
  | nil => exact h
  | cons char text ih =>
    exact ih (steady_kernelPrint hRoomy hScroll hGlyph h char)

end

theorem steady_start : Steady P fb font (start fb font) := by
  have hAdvance : advance font ≤ font.header.height.toNat := Nat.mod_le _ _
  have hHeight := hRoomy.height_ge
  have hFont := hRoomy.fontHeight_ge
  refine ⟨rfl, rfl, Nat.zero_le _, ?_, fun _ => rfl, ?_⟩
  · change 0 < _
    omega
  · intro drawing hMem
    cases hMem

theorem steady_printed (text : List (BitVec 8)) :
    Steady (fun _ => True) fb font ((start fb font).kernelPrintAll text) :=
  steady_kernelPrintAll hRoomy (fun _ _ _ => trivial)
    (fun _ _ _ _ => trivial) (steady_start hRoomy) text

end Lines

------ Texts on the Screen

section Shown

variable {P : Drawing → Prop} {fb : Screen} {font : PSF2Font} {d : Display}

def ByteHeight (font : PSF2Font) : Prop :=
  font.header.height.toNat < 256 ∨ font.header.height.toNat % 256 = 0

section

variable (hRoomy : Roomy fb font)

include hRoomy

section

variable (hHeight : ByteHeight font) (h : Steady P fb font d)

include hHeight h

theorem Steady.row_le : d.ploc.y.toNat + font.header.height.toNat < fb.height.toNat := by
  have hRow := h.row
  have hTwice := hRoomy.height_ge
  have hOnce := hRoomy.fontHeight_ge
  rcases hHeight with hByte | hZero
  · rw [advance, Nat.mod_eq_of_lt hByte] at hRow
    omega
  rw [h.still hZero]
  change 0 + _ < _
  omega

theorem Steady.cursorShown : d.CursorShown font := by
  have hRow := h.row_le hRoomy hHeight
  rw [CursorShown, h.framebuffer]
  omega

theorem Steady.glyphShown (char : BitVec 8)
    (hColumn : (d.ploc.x + font.header.width).toNat ≤ fb.width.toNat) :
    (Drawing.glyph (font.drawGlyph fb char d.ploc.x d.ploc.y)).Shown fb := by
  have hRow := h.row_le hRoomy hHeight
  have hLimit := hRoomy.height_lt
  apply PSF2Font.drawGlyph_shown char hRoomy.stride_ge hColumn
  rw [BitVec.toNat_add]
  omega

end

theorem Steady.scroll_eq (h : Steady P fb font d) :
    d.scroll = .moved (fb.width * d.fontHeight * 4).toNat
    (4 * (fb.width.toNat * (fb.height.toNat - advance font))) := by
  have hAdvance : advance font ≤ font.header.height.toNat := Nat.mod_le _ _
  have hTwice := hRoomy.height_ge
  have hWidth := hRoomy.width_lt
  have hHeight := hRoomy.height_lt
  have hEnd : (fb.height - d.fontHeight).toNat = fb.height.toNat - advance font := by
    rw [BitVec.toNat_sub, h.fontHeight_eq]
    omega
  have hProduct : fb.width.toNat * (fb.height.toNat - advance font) < 2 ^ 31 * 2 ^ 31 :=
    Nat.mul_lt_mul'' hWidth (by omega)
  rw [scroll, h.framebuffer]
  congr 1
  rw [BitVec.toNat_mul, BitVec.toNat_mul, BitVec.toNat_setWidth, BitVec.toNat_setWidth, hEnd,
    Nat.mod_eq_of_lt (show fb.width.toNat < 2 ^ 64 by omega),
    Nat.mod_eq_of_lt (show fb.height.toNat - advance font < 2 ^ 64 by omega),
    Nat.mod_eq_of_lt (show fb.width.toNat * (fb.height.toNat - advance font) < 2 ^ 64 by omega)]
  change _ * 4 % 2 ^ 64 = _
  omega

theorem Steady.scroll_shown_iff (h : Steady P fb font d) :
    d.scroll.Shown fb ↔ fb.pixelsPerScanLine.toNat = fb.width.toNat ∨
    fb.height.toNat - advance font ≤ 1 := by
  rw [h.scroll_eq hRoomy]
  have hWidth := hRoomy.width_ge
  refine Iff.trans ?_ (Frame.shows_block_iff (f := fb.frame)
    (show 0 < fb.width.toNat by omega) hRoomy.stride_ge (Nat.sub_le _ _))
  constructor
  · intro hAll i hi
    exact hAll i (by
      change i < fb.width.toNat * _ at hi
      omega)
  intro hAll i hi
  exact hAll i (by
    change i < fb.width.toNat * _
    omega)

theorem kernelPrintAll_newlines {n : Nat} (hn : n * advance font + advance font < fb.height.toNat) :
    (start fb font).kernelPrintAll (replicate n newline) = { start fb font with
    ploc := ⟨0, BitVec.ofNat 32 (n * advance font)⟩ } := by
  have hLimit := hRoomy.height_lt
  induction n with
  | zero =>
    rw [Nat.zero_mul]
    rfl
  | succ n ih =>
    rw [Nat.succ_mul] at hn
    have hSteady := steady_printed hRoomy (replicate n newline)
    have hBefore := ih (by omega)
    rw [replicate_succ', kernelPrintAll, foldl_append]
    change nextLine ((start fb font).kernelPrintAll (replicate n newline)) = _
    have hRow : ((start fb font).kernelPrintAll (replicate n newline)).ploc.y.toNat =
      n * advance font := by
      rw [hBefore]
      change (BitVec.ofNat 32 _).toNat = _
      rw [BitVec.toNat_ofNat]
      omega
    rcases nextLine_cases hRoomy hSteady with ⟨_, hNext⟩ | ⟨hFull, _⟩
    · have hFont := hSteady.fontHeight_eq
      rw [hNext]
      rw [hBefore] at hFont ⊢
      congr 2
      apply BitVec.eq_of_toNat_eq
      rw [BitVec.toNat_add, hFont]
      change ((BitVec.ofNat 32 _).toNat + _) % 2 ^ 32 = _
      rw [BitVec.toNat_ofNat, BitVec.toNat_ofNat, Nat.succ_mul]
      omega
    · omega

theorem exists_last_line (hMoves : advance font ≠ 0) : ∃ n,
    n * advance font + advance font < fb.height.toNat ∧ fb.height.toNat ≤
    n * advance font + 2 * advance font := by
  have hAdvance : advance font ≤ font.header.height.toNat := Nat.mod_le _ _
  have hTwice := hRoomy.height_ge
  refine ⟨(fb.height.toNat - advance font - 1) / advance font, ?_⟩
  have hDivide := Nat.div_add_mod' (fb.height.toNat - advance font - 1) (advance font)
  have hRest := Nat.mod_lt (fb.height.toNat - advance font - 1) (Nat.pos_of_ne_zero hMoves)
  omega

theorem cursor_lost (hHigh : ¬ ByteHeight font) : ∃ text,
    ¬ ((start fb font).kernelPrintAll text).CursorShown font := by
  rw [ByteHeight, not_or, Nat.not_lt] at hHigh
  have hMoves : advance font ≠ 0 := hHigh.2
  have hByte : advance font < 256 := Nat.mod_lt _ (by decide)
  have hLow : advance font + 256 ≤ font.header.height.toNat := by
    rw [advance] at hMoves ⊢
    omega
  have hLimit := hRoomy.height_lt
  rcases exists_last_line hRoomy hMoves with ⟨n, hFree, hLast⟩
  refine ⟨replicate n newline, ?_⟩
  rw [kernelPrintAll_newlines hRoomy hFree, CursorShown]
  change ¬ (BitVec.ofNat 32 _).toNat < fb.height.toNat - _
  rw [BitVec.toNat_ofNat]
  omega

theorem scroll_reached (hMoves : advance font ≠ 0) : ∃ text d, Steady (fun _ => True) fb font d ∧
    d.scroll ∈ ((start fb font).kernelPrintAll text).drawn := by
  have hLimit := hRoomy.height_lt
  rcases exists_last_line hRoomy hMoves with ⟨n, hFree, hLast⟩
  have hSteady := steady_printed hRoomy (replicate n newline)
  refine ⟨replicate (n + 1) newline, _, hSteady, ?_⟩
  rw [replicate_succ', kernelPrintAll, foldl_append]
  change _ ∈ (nextLine ((start fb font).kernelPrintAll (replicate n newline))).drawn
  rcases nextLine_cases hRoomy hSteady with ⟨hRoom, _⟩ | ⟨_, hNext⟩
  · rw [kernelPrintAll_newlines hRoomy hFree] at hRoom
    change (BitVec.ofNat 32 _).toNat + _ < _ at hRoom
    rw [BitVec.toNat_ofNat] at hRoom
    omega
  · rw [hNext]
    exact mem_append_right _ (mem_singleton_self _)

end

theorem kernelPrint_shown_iff (hRoomy : Roomy fb font) :
    ((∀ text, ((start fb font).kernelPrintAll text).GlyphsShown ∧
      ((start fb font).kernelPrintAll text).CursorShown font) ↔
      font.header.height.toNat < 256 ∨ font.header.height.toNat % 256 = 0) ∧
    ((∀ text, ((start fb font).kernelPrintAll text).AllShown ∧
      ((start fb font).kernelPrintAll text).CursorShown font) ↔
      font.header.height.toNat % 256 = 0 ∨ font.header.height.toNat < 256 ∧
        (fb.pixelsPerScanLine.toNat = fb.width.toNat ∨
          fb.height.toNat - font.header.height.toNat ≤ 1)) := by
  constructor
  · constructor
    · intro hAll
      by_contra hHigh
      rcases cursor_lost hRoomy hHigh with ⟨text, hLost⟩
      exact hLost (hAll text).2
    intro hHeight text
    have hSteady := steady_kernelPrintAll hRoomy
      (P := Drawing.GlyphShown fb) (fun _ _ _ => trivial)
      (fun d char h hColumn => (h.glyphShown hRoomy hHeight char hColumn).glyphShown)
      (steady_start hRoomy) text
    refine ⟨?_, hSteady.cursorShown hRoomy hHeight⟩
    rw [GlyphsShown, hSteady.framebuffer]
    exact hSteady.drawn
  constructor
  · intro hAll
    by_cases hZero : font.header.height.toNat % 256 = 0
    · exact .inl hZero
    right
    have hByte : font.header.height.toNat < 256 := by
      by_contra hHigh
      rcases cursor_lost hRoomy (not_or.mpr ⟨hHigh, hZero⟩) with ⟨text, hLost⟩
      exact hLost (hAll text).2
    refine ⟨hByte, ?_⟩
    rcases scroll_reached hRoomy hZero with ⟨text, d, hSteady, hDrawn⟩
    have hFramebuffer := (steady_printed hRoomy text).framebuffer
    have hShown := (hAll text).1 d.scroll hDrawn
    rw [hFramebuffer, hSteady.scroll_shown_iff hRoomy, advance,
      Nat.mod_eq_of_lt hByte] at hShown
    exact hShown
  intro hHeight text
  have hByte : ByteHeight font := hHeight.symm.imp_left And.left
  have hSteady := steady_kernelPrintAll hRoomy (P := Drawing.Shown fb) (fun d h hMoves => by
      rw [h.scroll_shown_iff hRoomy]
      rcases hHeight with hZero | ⟨hLow, hLines⟩
      · exact absurd hZero hMoves
      · rw [advance, Nat.mod_eq_of_lt hLow]
        exact hLines)
    (fun d char h hColumn => h.glyphShown hRoomy hByte char hColumn)
    (steady_start hRoomy) text
  refine ⟨?_, hSteady.cursorShown hRoomy hByte⟩
  rw [AllShown, hSteady.framebuffer]
  exact hSteady.drawn

end Shown

theorem kernelPrint_shown_vga : Roomy ⟨640, 480, 640⟩ (PSF2Font.full 16) ∧ ∀ text,
    ((start ⟨640, 480, 640⟩ (PSF2Font.full 16)).kernelPrintAll text).AllShown ∧
    ((start ⟨640, 480, 640⟩ (PSF2Font.full 16)).kernelPrintAll
    text).CursorShown (PSF2Font.full 16) := by
  have hRoomy : Roomy ⟨640, 480, 640⟩ (PSF2Font.full 16) :=
    ⟨by decide, by decide, by decide, by decide, by decide, by decide, by decide⟩
  refine ⟨hRoomy, ?_⟩
  exact (kernelPrint_shown_iff hRoomy).2.mpr (.inr ⟨by decide, Or.inl rfl⟩)

theorem high_glyph_below_screen : ∃ text,
    ¬ ((start ⟨8, 514, 8⟩ (PSF2Font.full 257)).kernelPrintAll text).GlyphsShown ∧
    ¬ ((start ⟨8, 514, 8⟩ (PSF2Font.full 257)).kernelPrintAll
    text).CursorShown (PSF2Font.full 257) := by
  have hRoomy : Roomy ⟨8, 514, 8⟩ (PSF2Font.full 257) :=
    ⟨by decide, by decide, by decide, by decide, by decide, by decide, by decide⟩
  have hDown := kernelPrintAll_newlines hRoomy (n := 258) (by decide)
  refine ⟨replicate 258 newline ++ [0x41], ?_⟩
  rw [kernelPrintAll, foldl_append]
  change ¬ (kernelPrint ((start ⟨8, 514, 8⟩ (PSF2Font.full 257)).kernelPrintAll
    (replicate 258 newline)) 0x41).1.GlyphsShown ∧
    ¬ (kernelPrint ((start ⟨8, 514, 8⟩ (PSF2Font.full 257)).kernelPrintAll
    (replicate 258 newline)) 0x41).1.CursorShown _
  rw [hDown]
  constructor
  · intro hShown
    have hLast := hShown _ (mem_singleton_self _) (0 + 514 * 8) (mem_raster.mpr
      ⟨0, 514, by decide, by decide, by decide, rfl⟩)
    exact absurd hLast (by decide)
  · decide

def scrolled (d : Display) (address : Nat) (m : Memory) : Memory :=
  match d.scroll with
  | .moved source bytes => memmove m address (address + source) bytes
  | .glyph _ => m

theorem scrolled_iff (d : Display) (address : Nat)
    (hStride : d.framebuffer.width.toNat ≤ d.framebuffer.pixelsPerScanLine.toNat)
    (hHeight : d.fontHeight.toNat < d.framebuffer.height.toNat) :
    d.framebuffer.frame.MovesUp d.fontHeight.toNat address (d.scrolled address) ↔
    d.framebuffer.width.toNat = 0 ∨ d.fontHeight.toNat = 0 ∨
    d.framebuffer.pixelsPerScanLine.toNat = d.framebuffer.width.toNat ∧
    d.framebuffer.width.toNat * d.fontHeight.toNat * 4 < 2 ^ 32 := by
  have hSource : (d.framebuffer.width * d.fontHeight * 4).toNat =
    d.framebuffer.width.toNat * d.fontHeight.toNat * 4 % 2 ^ 32 := by
    rw [BitVec.toNat_mul, BitVec.toNat_mul, Nat.mod_mul_mod]
    rfl
  have hLines : (d.framebuffer.height - d.fontHeight).toNat =
    d.framebuffer.height.toNat - d.fontHeight.toNat :=
    BitVec.toNat_sub_of_le (Nat.le_of_lt hHeight)
  have hBytes : (d.framebuffer.width.setWidth 64 *
    (d.framebuffer.height - d.fontHeight).setWidth 64 * 4).toNat =
    d.framebuffer.width.toNat * (d.framebuffer.height.toNat - d.fontHeight.toNat) * 4 %
    2 ^ 64 := by
    rw [BitVec.toNat_mul, BitVec.toNat_mul, Nat.mod_mul_mod,
      BitVec.toNat_setWidth_of_le (by decide), BitVec.toNat_setWidth_of_le (by decide), hLines]
    rfl
  have hMove : d.scrolled address = fun m => m.copy address
      (address + d.framebuffer.width.toNat * d.fontHeight.toNat * 4 % 2 ^ 32)
      (d.framebuffer.width.toNat * (d.framebuffer.height.toNat - d.fontHeight.toNat) * 4 %
        2 ^ 64) := by
    funext m
    rw [← hSource, ← hBytes]
    exact memmove_eq _ _ _ _
  rw [hMove]
  exact Frame.movesUp_iff (f := d.framebuffer.frame) hStride hHeight d.framebuffer.height.isLt

theorem scrolled_iff_dense : let d := start ⟨8, 32, 8⟩ (PSF2Font.full 16)
    d.framebuffer.frame.MovesUp 16 0 (d.scrolled 0) :=
  (scrolled_iff (start ⟨8, 32, 8⟩ (PSF2Font.full 16)) 0 (by decide) (by decide)).mpr
    (.inr (.inr (by decide)))

theorem hidden_pixel_shown : let d := start ⟨1, 2, 2⟩ (PSF2Font.full 1)
    let m : Memory := fun a => if a = 4 then 1 else 0
    d.fontHeight.toNat < d.framebuffer.height.toNat ∧
      d.framebuffer.frame.pixel 0 (d.scrolled 0 m) 0 0 = 1 ∧
      d.framebuffer.frame.pixel 0 m 0 1 = 0 ∧
      ¬ d.framebuffer.frame.MovesUp d.fontHeight.toNat 0 (d.scrolled 0) := by
  intro d m
  refine ⟨by decide, by decide, by decide, ?_⟩
  intro hMoves
  have hFirst := hMoves m 0 0 (by decide) (by decide)
  revert hFirst
  decide

end Display

end Fennix
