import Mathlib.Data.BitVec
import Fennix.Library.Raster

/-
  Screens, fonts and what is drawn.
-/

namespace Fennix

structure Screen where
  width : BitVec 32
  height : BitVec 32
  pixelsPerScanLine : BitVec 32

def Screen.frame (fb : Screen) : Frame where
  width := fb.width.toNat
  height := fb.height.toNat
  stride := fb.pixelsPerScanLine.toNat

structure PSF2Header where
  headersize : BitVec 32
  length : BitVec 32
  charsize : BitVec 32
  height : BitVec 32
  width : BitVec 32

structure PSF2Font where
  header : PSF2Header
  file : Nat → BitVec 8

def newline : BitVec 8 := 0x0A

def carriageReturn : BitVec 8 := 0x0D

def supported (char : BitVec 8) : BitVec 8 :=
  if char.toInt < 0 ∨ 127 < char.toNat then 0x3F else char

namespace PSF2Font

variable (font : PSF2Font)

def glyphOffset (char : BitVec 8) : Nat :=
  let index : BitVec 32 :=
    if 0 < char.toInt ∧ char.setWidth 32 < font.header.length
      then char.setWidth 32
    else 0
  font.header.headersize.toNat + (index * font.header.charsize).toNat

def bytesPerLine : Nat :=
  ((font.header.width + 7) / 8).toNat

def lit (char : BitVec 8) (row column : Nat) : Bool :=
  font.file (font.glyphOffset char + row * font.bytesPerLine) &&& (0b10000000#8 >>> column) ≠ 0

def drawGlyph (fb : Screen) (char : BitVec 8) (x y : BitVec 32) : List Nat :=
  raster fb.pixelsPerScanLine.toNat (font.lit char) x.toNat (x + font.header.width).toNat
    y.toNat (y + font.header.height).toNat

def full (height : BitVec 32) : PSF2Font where
  header := ⟨32, 1, 16, height, 8⟩
  file := fun _ => 0xFF

end PSF2Font

inductive Drawing
| glyph (pixels : List Nat)
| moved (source bytes : Nat)
deriving DecidableEq, Repr

variable {fb : Screen}

namespace Drawing

def Shown (fb : Screen) : Drawing → Prop
| glyph pixels => ∀ i ∈ pixels, fb.frame.Shows i
| moved _ bytes => ∀ i, 4 * i < bytes → fb.frame.Shows i

def GlyphShown (fb : Screen) : Drawing → Prop
| glyph pixels => ∀ i ∈ pixels, fb.frame.Shows i
| moved _ _ => True

theorem Shown.glyphShown {drawing : Drawing} (h : drawing.Shown fb) : drawing.GlyphShown fb := by
  cases drawing with
  | glyph pixels => exact h
  | moved source bytes => trivial

end Drawing

variable {x y : BitVec 32}

theorem PSF2Font.drawGlyph_shown {font : PSF2Font} (char : BitVec 8)
    (hStride : fb.width.toNat ≤ fb.pixelsPerScanLine.toNat)
    (hx : (x + font.header.width).toNat ≤ fb.width.toNat)
    (hy : (y + font.header.height).toNat ≤ fb.height.toNat) :
    (Drawing.glyph (font.drawGlyph fb char x y)).Shown fb := by
  intro i hi
  rcases mem_raster.mp hi with ⟨column, row, ⟨_, hColumn⟩, ⟨_, hRow⟩, _, rfl⟩
  exact Frame.shows_of_lt (f := fb.frame) hStride (Nat.lt_of_lt_of_le hColumn hx)
    (Nat.lt_of_lt_of_le hRow hy)

theorem PSF2Font.drawGlyph_lost {font : PSF2Font} {char : BitVec 8} {row column : Nat}
    (hStride : 0 < fb.pixelsPerScanLine.toNat) (hx : x.toNat + font.header.width.toNat < 2 ^ 32)
    (hy : y.toNat + font.header.height.toNat < 2 ^ 32) (hBelow : fb.height.toNat ≤ y.toNat)
    (hRow : row < font.header.height.toNat) (hColumn : column < font.header.width.toNat)
    (hLit : font.lit char row column = true) :
    ¬ (Drawing.glyph (font.drawGlyph fb char x y)).GlyphShown fb := by
  intro hShown
  have hPixel := hShown (x.toNat + column + (y.toNat + row) * fb.pixelsPerScanLine.toNat)
    (mem_raster.mpr ⟨_, _, ⟨Nat.le_add_right _ _, ?_⟩, ⟨Nat.le_add_right _ _, ?_⟩, ?_, rfl⟩)
  · exact Frame.not_shows_of_le (f := fb.frame) hStride
      (Nat.le_trans hBelow (Nat.le_add_right _ _)) hPixel
  · rw [BitVec.toNat_add, Nat.mod_eq_of_lt hx]
    exact Nat.add_lt_add_left hColumn _
  · rw [BitVec.toNat_add, Nat.mod_eq_of_lt hy]
    exact Nat.add_lt_add_left hRow _
  · rw [Nat.add_sub_cancel_left, Nat.add_sub_cancel_left]
    exact hLit

end Fennix
