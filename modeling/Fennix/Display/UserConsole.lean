import Mathlib.Data.List.TakeWhile
import Fennix.Display.Screen
import Fennix.Library.Run

/-
  The console of the user space.

  `printchar` works on the stored position and moves the text up in time.
-/

namespace Fennix

open List BitVec

structure Mtl where
  fb : Screen
  font : PSF2Font
  xpos : BitVec 32
  ypos : BitVec 32
  drawn : List Drawing

namespace Mtl

def setPrintPosition (m : Mtl) (x y : BitVec 32) : Mtl :=
  if x > m.fb.width then { m with xpos := m.fb.width }
  else if y > m.fb.height then { m with ypos := m.fb.height }
  else { m with xpos := x, ypos := y }

def scroll (m : Mtl) : Mtl :=
  { m with
    drawn := m.drawn ++ [.moved (m.fb.width.setWidth 64 *
          m.font.header.height.setWidth 64 * 4).toNat
        (m.fb.width.setWidth 64 * (m.fb.height - m.font.header.height).setWidth 64 * 4).toNat] }

def PastEnd (m : Mtl) (y : BitVec 32) : Prop :=
  y ≥ m.fb.height - m.font.header.height

instance (m : Mtl) (y : BitVec 32) : Decidable (m.PastEnd y) :=
  inferInstanceAs (Decidable (_ ≤ _))

def Full (fb : Screen) (font : PSF2Font) (x : BitVec 32) : Prop :=
  x + font.header.width > fb.width

instance (fb : Screen) (font : PSF2Font) (x : BitVec 32) : Decidable (Full fb font x) :=
  inferInstanceAs (Decidable (_ < _))

def moveUp (m : Mtl) (x y : BitVec 32) : Mtl :=
  if m.PastEnd y then
    m.scroll.setPrintPosition x (y - m.font.header.height)
  else m

def drawGlyph (m : Mtl) (char : BitVec 8) (x y : BitVec 32) : Mtl :=
  { m with drawn := m.drawn ++ [.glyph (m.font.drawGlyph m.fb (supported char) x y)] }

structure Printing where
  mtl : Mtl
  xi : BitVec 32
  yi : BitVec 32

/- The stored position is moved back, the copy is not. -/
def Printing.wrap (p : Printing) : Printing :=
  if Full p.mtl.fb p.mtl.font p.xi then
    let yi := p.yi + p.mtl.font.header.height
    ⟨(p.mtl.setPrintPosition 0 yi).moveUp 0 yi, 0, yi⟩
  else p

def printchar (m : Mtl) (char : BitVec 8) : Mtl :=
  let m := (Printing.wrap ⟨m, m.xpos, m.ypos⟩).mtl
  if char = newline then
    let m := m.setPrintPosition 0 (m.ypos + m.font.header.height)
    m.moveUp m.xpos m.ypos
  else if char = carriageReturn then
    m.setPrintPosition 0 m.ypos
  else
    { m.drawGlyph char m.xpos m.ypos with xpos := m.xpos + m.font.header.width }

def Printing.step (p : Printing) (char : BitVec 8) : Printing :=
  let p := p.wrap
  if char = newline then
    -- the test is on the stored position
    ⟨p.mtl.moveUp p.mtl.xpos p.mtl.ypos, 0, p.yi + p.mtl.font.header.height⟩
  else if char = carriageReturn then { p with xi := 0 }
  else
    ⟨p.mtl.drawGlyph char p.xi p.yi, p.xi + p.mtl.font.header.width, p.yi⟩

def textOf (text : List (BitVec 8)) : List (BitVec 8) :=
  text.takeWhile (fun char => char ≠ 0)

def printAt (m : Mtl) (text : List (BitVec 8)) (x y : BitVec 32) : Mtl :=
  let p := (textOf text).foldl Printing.step ⟨m, x, y⟩
  p.mtl.setPrintPosition p.xi p.yi

def print (m : Mtl) (text : List (BitVec 8)) : Mtl :=
  m.printAt text m.xpos m.ypos

inductive ConsoleCall
| print (text : List (BitVec 8))
| printchar (char : BitVec 8)
deriving DecidableEq, Repr

def perform (m : Mtl) : ConsoleCall → Mtl
| .print text => m.print text
| .printchar char => m.printchar char

def execute (m : Mtl) (call : ConsoleCall) : Option Mtl :=
  some (m.perform call)

def performAll (m : Mtl) (calls : List ConsoleCall) : Mtl :=
  calls.foldl perform m

def start (fb : Screen) (font : PSF2Font) : Mtl :=
  ⟨fb, font, 0, 0, []⟩

def GlyphsShown (m : Mtl) : Prop :=
  ∀ drawing ∈ m.drawn, drawing.GlyphShown m.fb

def lineBreaks (fb : Screen) (font : PSF2Font) : BitVec 32 → List (BitVec 8) → Nat
| _, [] => 0
| x, char :: text =>
  (if Full fb font x then 1 else 0) +
    if char = newline then 1 + lineBreaks fb font 0 text
    else if char = carriageReturn then
      lineBreaks fb font 0 text
    else
      lineBreaks fb font ((if Full fb font x then 0 else x) + font.header.width) text

def Fits (m : Mtl) : ConsoleCall → Prop
| .print text =>
  m.ypos.toNat + (lineBreaks m.fb m.font m.xpos (textOf text) + 1) *
      m.font.header.height.toNat ≤ m.fb.height.toNat
| .printchar _ => True

instance (m : Mtl) (call : ConsoleCall) : Decidable (m.Fits call) := by
  cases call
  · exact inferInstanceAs (Decidable (_ ≤ _))
  · exact inferInstanceAs (Decidable True)

structure Roomy (fb : Screen) (font : PSF2Font) : Prop where
  width_ge : 8 ≤ fb.width.toNat
  stride_ge : fb.width.toNat ≤ fb.pixelsPerScanLine.toNat
  height_ge : 2 * font.header.height.toNat ≤ fb.height.toNat
  fontWidth_le : font.header.width.toNat ≤ 8
  fontHeight_ge : 1 ≤ font.header.height.toNat

structure Drawn (fb : Screen) (font : PSF2Font) (m : Mtl) : Prop where
  sameScreen : m.fb = fb
  sameFont : m.font = font
  shown : ∀ drawing ∈ m.drawn, drawing.GlyphShown fb

structure Steady (fb : Screen) (font : PSF2Font) (m : Mtl) : Prop extends Drawn fb font m where
  column : m.xpos ≤ fb.width
  row : m.ypos.toNat + font.header.height.toNat ≤ fb.height.toNat

section Lines

variable {fb : Screen} {font : PSF2Font} {m : Mtl} {p : Printing} {x y : BitVec 32}

theorem Drawn.setPrintPosition (h : Drawn fb font m) (x y : BitVec 32) :
    Drawn fb font (m.setPrintPosition x y) := by
  rw [Mtl.setPrintPosition]
  split
  · exact ⟨h.sameScreen, h.sameFont, h.shown⟩
  split
  · exact ⟨h.sameScreen, h.sameFont, h.shown⟩
  · exact ⟨h.sameScreen, h.sameFont, h.shown⟩

theorem Drawn.moveUp (h : Drawn fb font m) (x y : BitVec 32) : Drawn fb font (m.moveUp x y) := by
  rw [Mtl.moveUp]
  split
  · apply Drawn.setPrintPosition
    refine ⟨h.sameScreen, h.sameFont, ?_⟩
    intro drawing hMem
    rcases mem_append.mp hMem with hOld | hNew
    · exact h.shown drawing hOld
    · rw [mem_singleton.mp hNew]
      trivial
  · exact h

theorem Drawn.drawGlyph (hRoomy : Roomy fb font) (h : Drawn fb font m) (char : BitVec 8)
    (hx : ¬ Full fb font x) (hy : y.toNat + font.header.height.toNat ≤ fb.height.toNat) :
    Drawn fb font (m.drawGlyph char x y) := by
  refine ⟨h.sameScreen, h.sameFont, ?_⟩
  intro drawing hMem
  rcases mem_append.mp hMem with hOld | hNew
  · exact h.shown drawing hOld
  rw [mem_singleton.mp hNew, h.sameScreen, h.sameFont]
  refine (PSF2Font.drawGlyph_shown (supported char) hRoomy.stride_ge ?_ ?_).glyphShown
  · exact BitVec.le_def.mp (BitVec.not_lt.mp hx)
  · rw [toNat_add]
    exact Nat.le_trans (Nat.mod_le _ _) hy

theorem setPrintPosition_of_le (hx : x ≤ m.fb.width) (hy : y ≤ m.fb.height) :
    m.setPrintPosition x y = { m with xpos := x, ypos := y } := by
  rw [setPrintPosition, if_neg (BitVec.not_lt.mpr hx), if_neg (BitVec.not_lt.mpr hy)]

theorem zero_le_word (x : BitVec 32) : 0 ≤ x :=
  le_def.mpr (Nat.zero_le _)

theorem not_full_zero (hRoomy : Roomy fb font) : ¬ Full fb font 0 := by
  have hWidth := hRoomy.width_ge
  have hFont := hRoomy.fontWidth_le
  have hZero : (0 : BitVec 32).toNat = 0 := rfl
  rw [Full, gt_iff_lt, lt_def, toNat_add, hZero]
  omega

theorem wrap_lineStart (hRoomy : Roomy fb font) (y : BitVec 32) :
    Printing.wrap ⟨start fb font, 0, y⟩ = ⟨start fb font, 0, y⟩ :=
  if_neg (not_full_zero hRoomy)

theorem toNat_add_height (hy : y.toNat + font.header.height.toNat ≤ fb.height.toNat) :
    (y + font.header.height).toNat = y.toNat + font.header.height.toNat := by
  have hLimit := fb.height.isLt
  rw [toNat_add]
  omega

------ Single Characters

theorem steady_moveUp (h : Drawn fb font m) (hx : m.xpos = 0) (hy : m.ypos = y + font.header.height)
    (hRow : y.toNat + font.header.height.toNat ≤ fb.height.toNat) : (m.moveUp 0 m.ypos).xpos = 0 ∧
    Steady fb font (m.moveUp 0 m.ypos) := by
  have hSum := toNat_add_height hRow
  have hLimit := fb.height.isLt
  have hDrawn := h.moveUp 0 m.ypos
  rw [moveUp] at hDrawn ⊢
  split
  · rename_i hPast
    have hBack : m.ypos - m.font.header.height = y := by
      rw [h.sameFont, hy, add_sub_cancel]
    have hColumn := zero_le_word m.scroll.fb.width
    have hInside : y ≤ m.scroll.fb.height := by
      change y ≤ m.fb.height
      rw [h.sameScreen, le_def]
      omega
    rw [if_pos hPast, hBack, setPrintPosition_of_le hColumn hInside] at hDrawn
    rw [hBack, setPrintPosition_of_le hColumn hInside]
    exact ⟨rfl, hDrawn, zero_le_word fb.width, hRow⟩
  rename_i hBefore
  refine ⟨hx, h, hx ▸ zero_le_word fb.width, ?_⟩
  rw [PastEnd, h.sameScreen, h.sameFont, ge_iff_le, BitVec.not_le, BitVec.lt_def, hy, hSum,
    toNat_sub] at hBefore
  rw [hy, hSum]
  omega

theorem steady_down (h : Steady fb font m) :
    let down := m.setPrintPosition 0 (m.ypos + m.font.header.height)
    down.xpos = 0 ∧ down.ypos = m.ypos + m.font.header.height ∧ (down.moveUp 0 down.ypos).xpos = 0 ∧
    Steady fb font (down.moveUp 0 down.ypos) := by
  intro down
  have hDown : down = { m with xpos := 0, ypos := m.ypos + m.font.header.height } := by
    apply setPrintPosition_of_le (zero_le_word _)
    rw [h.sameScreen, h.sameFont, le_def, toNat_add_height h.row]
    exact h.row
  have hColumn : down.xpos = 0 := by rw [hDown]
  have hRow : down.ypos = m.ypos + m.font.header.height := by rw [hDown]
  refine ⟨hColumn, hRow, ?_⟩
  rw [h.sameFont] at hRow
  exact steady_moveUp (h.toDrawn.setPrintPosition _ _) hColumn hRow h.row

theorem steady_wrap (hRoomy : Roomy fb font) (h : Steady fb font m) :
    Steady fb font (Printing.wrap ⟨m, m.xpos, m.ypos⟩).mtl ∧ ¬ Full fb font
    (Printing.wrap ⟨m, m.xpos, m.ypos⟩).mtl.xpos := by
  rcases steady_down h with ⟨_, hRow, hColumn, hSteady⟩
  rw [hRow] at hColumn hSteady
  rw [Printing.wrap]
  split
  · refine ⟨hSteady, ?_⟩
    change ¬ Full fb font (Mtl.moveUp _ _ _).xpos
    rw [hColumn]
    exact not_full_zero hRoomy
  rename_i hFits
  rw [h.sameScreen, h.sameFont] at hFits
  exact ⟨h, hFits⟩

theorem steady_printchar (hRoomy : Roomy fb font) (h : Steady fb font m) (char : BitVec 8) :
    Steady fb font (m.printchar char) := by
  rw [printchar]
  rcases steady_wrap hRoomy h with ⟨hWrap, hFits⟩
  generalize (Printing.wrap ⟨m, m.xpos, m.ypos⟩).mtl = m' at hWrap hFits
  split
  · rcases steady_down hWrap with ⟨hColumn, _, _, hSteady⟩
    simp only [hColumn]
    exact hSteady
  split
  · have hInside : m'.ypos ≤ m'.fb.height := by
      have hRow := hWrap.row
      rw [hWrap.sameScreen, le_def]
      omega
    rw [setPrintPosition_of_le (zero_le_word _) hInside]
    exact ⟨⟨hWrap.sameScreen, hWrap.sameFont, hWrap.shown⟩, zero_le_word _, hWrap.row⟩
  have hDraw := hWrap.toDrawn.drawGlyph hRoomy char hFits hWrap.row
  refine ⟨⟨hDraw.sameScreen, hDraw.sameFont, hDraw.shown⟩, ?_, hWrap.row⟩
  change m'.xpos + m'.font.header.width ≤ fb.width
  rw [hWrap.sameFont]
  exact BitVec.not_lt.mp hFits

def breakAt (fb : Screen) (font : PSF2Font) (x : BitVec 32) : Nat :=
  if Full fb font x then 1 else 0

theorem wrap_spec (h : Drawn fb font p.mtl)
    (hRow : p.yi.toNat + breakAt fb font p.xi * font.header.height.toNat ≤ fb.height.toNat) :
    Drawn fb font p.wrap.mtl ∧ p.wrap.xi = (if Full fb font p.xi then 0 else p.xi) ∧
    p.wrap.yi.toNat = p.yi.toNat + breakAt fb font p.xi * font.header.height.toNat := by
  have hScreen := h.sameScreen
  have hFont := h.sameFont
  subst hScreen hFont
  rw [Printing.wrap]
  rw [breakAt] at hRow ⊢
  split
  · rename_i hFull
    rw [if_pos hFull, Nat.one_mul] at hRow
    refine ⟨(h.setPrintPosition _ _).moveUp _ _, rfl, ?_⟩
    rw [Nat.one_mul]
    exact toNat_add_height hRow
  · exact ⟨h, rfl, by omega⟩

variable {char : BitVec 8} {text : List (BitVec 8)}

theorem step_spec (hRoomy : Roomy fb font) (h : Drawn fb font p.mtl)
    (hRow : p.yi.toNat + (lineBreaks fb font p.xi (char :: text) + 1) * font.header.height.toNat ≤
    fb.height.toNat) : Drawn fb font (p.step char).mtl ∧ (p.step char).xi ≤ fb.width ∧
    (p.step char).yi.toNat +
    lineBreaks fb font (p.step char).xi text * font.header.height.toNat = p.yi.toNat +
    lineBreaks fb font p.xi (char :: text) * font.header.height.toNat := by
  have hBreaks : breakAt fb font p.xi + 1 ≤ lineBreaks fb font p.xi (char :: text) + 1 := by
    rw [lineBreaks, breakAt]
    omega
  have hScaled := Nat.mul_le_mul_right font.header.height.toNat hBreaks
  rw [Nat.succ_mul] at hScaled
  rcases wrap_spec h (by omega) with ⟨hDrawn, hxi, hyi⟩
  have hFits : ¬ Full fb font p.wrap.xi := by
    rw [hxi]
    split
    · exact not_full_zero hRoomy
    · assumption
  rw [Printing.step]
  by_cases hNewline : char = newline
  · have hCount : lineBreaks fb font p.xi (char :: text) = breakAt fb font p.xi +
      (1 + lineBreaks fb font 0 text) := by
      rw [lineBreaks, if_pos hNewline, breakAt]
    rw [hCount, Nat.succ_mul, Nat.add_mul, Nat.add_mul] at hRow
    have hNext : p.wrap.yi.toNat + font.header.height.toNat ≤ fb.height.toNat := by
      omega
    simp only [if_pos hNewline]
    refine ⟨hDrawn.moveUp _ _, zero_le_word _, ?_⟩
    rw [hDrawn.sameFont, toNat_add_height hNext, hyi, hCount, Nat.add_mul, Nat.add_mul]
    omega
  by_cases hReturn : char = carriageReturn
  · have hCount : lineBreaks fb font p.xi (char :: text) =
      breakAt fb font p.xi + lineBreaks fb font 0 text := by
      rw [lineBreaks, if_neg hNewline, if_pos hReturn, breakAt]
    simp only [if_neg hNewline, if_pos hReturn]
    refine ⟨hDrawn, zero_le_word _, ?_⟩
    rw [hyi, hCount, Nat.add_mul]
    omega
  have hCount : lineBreaks fb font p.xi (char :: text) =
    breakAt fb font p.xi + lineBreaks fb font (p.wrap.xi + font.header.width) text := by
    rw [lineBreaks, if_neg hNewline, if_neg hReturn, breakAt, hxi]
  simp only [if_neg hNewline, if_neg hReturn, hDrawn.sameFont]
  refine ⟨hDrawn.drawGlyph hRoomy char hFits (by omega), BitVec.not_lt.mp hFits, ?_⟩
  rw [hyi, hCount, Nat.add_mul]
  omega

theorem loop_spec (hRoomy : Roomy fb font) (text : List (BitVec 8)) (h : Drawn fb font p.mtl)
    (hColumn : p.xi ≤ fb.width) (hRow : p.yi.toNat + (lineBreaks fb font p.xi text + 1) *
    font.header.height.toNat ≤ fb.height.toNat) :
    Drawn fb font (text.foldl Printing.step p).mtl ∧ (text.foldl Printing.step p).xi ≤ fb.width ∧
    (text.foldl Printing.step p).yi.toNat + font.header.height.toNat ≤ fb.height.toNat := by
  induction text generalizing p with
  | nil =>
    rw [lineBreaks, Nat.zero_add, Nat.one_mul] at hRow
    exact ⟨h, hColumn, hRow⟩
  | cons char text ih =>
    rcases step_spec hRoomy h hRow with ⟨hDrawn, hNext, hLeft⟩
    rw [Nat.succ_mul, ← Nat.add_assoc, ← hLeft, Nat.add_assoc, ← Nat.succ_mul] at hRow
    exact ih hDrawn hNext hRow

theorem steady_print (hRoomy : Roomy fb font) (h : Steady fb font m) (hFits : m.Fits (.print text))
    : Steady fb font (m.print text) := by
  rw [Fits, h.sameScreen, h.sameFont] at hFits
  rcases loop_spec hRoomy (p := ⟨m, m.xpos, m.ypos⟩) (textOf text) h.toDrawn h.column hFits with
    ⟨hDrawn, hColumn, hRow⟩
  rw [print, printAt]
  generalize (textOf text).foldl Printing.step ⟨m, m.xpos, m.ypos⟩ = p at hDrawn hColumn hRow
  have hSet : p.mtl.setPrintPosition p.xi p.yi = { p.mtl with xpos := p.xi, ypos := p.yi } := by
    apply setPrintPosition_of_le
    · rw [hDrawn.sameScreen]
      exact hColumn
    · rw [hDrawn.sameScreen, le_def]
      omega
  simp only [hSet]
  exact ⟨⟨hDrawn.sameScreen, hDrawn.sameFont, hDrawn.shown⟩, hColumn, hRow⟩

theorem steady_start (hRoomy : Roomy fb font) : Steady fb font (start fb font) := by
  have hHeight := hRoomy.height_ge
  refine ⟨⟨rfl, rfl, ?_⟩, zero_le_word _, ?_⟩
  · intro drawing hMem
    cases hMem
  · change 0 + _ ≤ _
    omega

theorem steady_performAll (hRoomy : Roomy fb font) (h : Steady fb font m) {calls : List ConsoleCall}
    (hFits : Meets execute Fits m calls) : Steady fb font (m.performAll calls) := by
  induction calls generalizing m with
  | nil => exact h
  | cons call calls ih =>
    have hNext : Steady fb font (m.perform call) := by
      cases call with
      | print text => exact steady_print hRoomy h hFits.1
      | printchar char =>
        exact steady_printchar hRoomy h char
    exact ih hNext (hFits.2 _ rfl)

------ Below the Screen

theorem foldl_newlines (hRoomy : Roomy fb font) {n : Nat}
    (hn : n * font.header.height.toNat < 2 ^ 32) : (List.replicate n newline).foldl Printing.step
    ⟨start fb font, 0, 0⟩ =
    ⟨start fb font, 0, BitVec.ofNat 32 (n * font.header.height.toNat)⟩ := by
  induction n with
  | zero =>
    rw [Nat.zero_mul]
    rfl
  | succ n ih =>
    rw [Nat.succ_mul] at hn
    have hHeight := hRoomy.height_ge
    have hFont := hRoomy.fontHeight_ge
    have hStill : (start fb font).moveUp 0 0 = start fb font := by
      apply if_neg
      rw [PastEnd, ge_iff_le, le_def, toNat_sub]
      change ¬ (2 ^ 32 - font.header.height.toNat + fb.height.toNat) % 2 ^ 32 ≤ 0
      have hLimit := fb.height.isLt
      omega
    rw [List.replicate_succ', List.foldl_append, ih (by omega), List.foldl_cons, List.foldl_nil,
      Printing.step, wrap_lineStart hRoomy, if_pos rfl]
    change Printing.mk ((start fb font).moveUp 0 0) 0 _ = _
    rw [hStill]
    congr 1
    apply eq_of_toNat_eq
    change (BitVec.ofNat 32 _ + font.header.height).toNat = _
    rw [toNat_add, toNat_ofNat, toNat_ofNat, Nat.succ_mul]
    omega

def Visible (font : PSF2Font) (char : BitVec 8) : Prop :=
  char ≠ 0 ∧ char ≠ newline ∧ char ≠ carriageReturn ∧ ∃ row column, row < font.header.height.toNat ∧
        column < font.header.width.toNat ∧
        font.lit (supported char) row column = true

theorem glyphsShown_setPrintPosition (m : Mtl) (x y : BitVec 32) :
    (m.setPrintPosition x y).GlyphsShown ↔ m.GlyphsShown := by
  rw [setPrintPosition]
  split
  · rfl
  split
  · rfl
  · rfl

theorem exists_line_below (hRoomy : Roomy fb font) : ∃ n,
    fb.height.toNat ≤ n * font.header.height.toNat ∧ n * font.header.height.toNat ≤
    fb.height.toNat + font.header.height.toNat := by
  have hOnce := hRoomy.fontHeight_ge
  have hDivide := Nat.div_add_mod' fb.height.toNat font.header.height.toNat
  have hRest := Nat.mod_lt fb.height.toNat (show 0 < font.header.height.toNat by omega)
  refine ⟨fb.height.toNat / font.header.height.toNat + 1, ?_⟩
  rw [Nat.succ_mul]
  omega

theorem textOf_newlines (n : Nat) (hChar : char ≠ 0) :
    textOf (List.replicate n newline ++ [char]) = List.replicate n newline ++ [char] := by
  rw [textOf, takeWhile_eq_self_iff]
  intro c hc
  rcases mem_append.mp hc with hOld | hNew
  · rw [eq_of_mem_replicate hOld]
    rfl
  · rw [mem_singleton.mp hNew]
    simpa using hChar

theorem print_below_screen (hRoomy : Roomy fb font) (hHeight : fb.height.toNat < 2 ^ 31)
    (hVisible : Visible font char) : ∃ text, ¬ ((start fb font).print text).GlyphsShown := by
  rcases hVisible with ⟨hChar, hNewline, hReturn, row, column, hRow, hColumn, hLit⟩
  have hWidth := hRoomy.width_ge
  have hStride := hRoomy.stride_ge
  have hTwice := hRoomy.height_ge
  have hFontWidth := hRoomy.fontWidth_le
  rcases exists_line_below hRoomy with ⟨n, hBelow, hNear⟩
  have hLine : (BitVec.ofNat 32 (n * font.header.height.toNat)).toNat =
    n * font.header.height.toNat := by
    rw [toNat_ofNat]
    omega
  refine ⟨List.replicate n newline ++ [char], ?_⟩
  rw [print, printAt, textOf_newlines n hChar, glyphsShown_setPrintPosition, foldl_append]
  change ¬ (Printing.step ((List.replicate n newline).foldl Printing.step
    ⟨start fb font, 0, 0⟩) char).mtl.GlyphsShown
  rw [foldl_newlines hRoomy (by omega), Printing.step, wrap_lineStart hRoomy, if_neg hNewline,
    if_neg hReturn]
  intro hShown
  refine PSF2Font.drawGlyph_lost (x := 0) ?_ ?_ ?_ ?_ hRow
    hColumn hLit (hShown _ (mem_singleton_self _))
  · change 0 < fb.pixelsPerScanLine.toNat
    omega
  · change 0 + font.header.width.toNat < 2 ^ 32
    omega
  · rw [hLine]
    omega
  · rw [hLine]
    exact hBelow

theorem console_shown (hRoomy : Roomy fb font) :
    (∀ calls, Meets execute Fits (start fb font) calls →
      ((start fb font).performAll calls).GlyphsShown) ∧
    (fb.height.toNat < 2 ^ 31 → (∃ char, Visible font char) →
      ∃ calls, ¬ ((start fb font).performAll calls).GlyphsShown) := by
  constructor
  · intro calls hFits
    have hSteady := steady_performAll hRoomy (steady_start hRoomy) hFits
    rw [GlyphsShown, hSteady.sameScreen]
    exact hSteady.shown
  rintro hHeight ⟨char, hVisible⟩
  rcases print_below_screen hRoomy hHeight hVisible with ⟨text, hBelow⟩
  exact ⟨[.print text], hBelow⟩

end Lines

theorem console_shown_two_lines :
    ((start ⟨640, 480, 640⟩ (PSF2Font.full 16)).performAll [.print [0x41, newline, 0x42],
    .printchar newline]).GlyphsShown :=
  have hRoomy : Roomy ⟨640, 480, 640⟩ (PSF2Font.full 16) :=
    ⟨by decide, by decide, by decide, by decide, by decide⟩
  (console_shown hRoomy).1 _ (by decide)

theorem third_line_below_screen : ¬ ((start ⟨8, 2, 8⟩ (PSF2Font.full 1)).performAll
    [.print [newline, newline, 0x41]]).GlyphsShown := by
  intro hShown
  have hPixel := hShown _ (mem_singleton_self _) 16 (by decide)
  exact absurd hPixel (by decide)

end Mtl

end Fennix
