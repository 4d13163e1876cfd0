import WaifuOS.Drawing
import WaifuOS.TextGrid
import Mathlib.Data.List.TakeWhile

/-!
The console as a text terminal. While the cursor is not drawn, the frame buffer shows a
grid of characters (`Shows`): each cell has the glyph of its character or is background,
and so is what lies outside the cells. Every character that is written does to the
pixels what it does to the grid (`writeChar_shows`), so the screen follows a whole text
(`write_shows`).
-/
namespace WaifuOS.Console.PrimitiveConsole
open WaifuOS.Words WaifuOS.Bytes WaifuOS.Console.FrameBuffer WaifuOS.TextGrid

/-- The grid as the constructor computes it: the cells that are wholly in the frame buffer. -/
structure Fits (c : PrimitiveConsole) (width height : Nat) : Prop where
  font : 2 ≤ c.mFont.charsize
  mWidth : c.mWidth = width
  mHeight : c.mHeight = height
  columns : width = c.mFrameBuffer.PixelsPerScanline / (c.mFont.charsize >>> 1)
  rows : height = c.mFrameBuffer.Height / c.mFont.charsize

/-- What a character does to the grid. -/
def type {width height : Nat} (g : Grid (BitVec 8) width height) (chr : BitVec 8) : Grid (BitVec 8) width height :=
  if chr = 10 then g.newline
  else if chr = 8 then g.back
  else if chr = 9 then (((g.print 32).print 32).print 32).print 32
  else g.print chr

/-- The pixels of the cells of a grid: their glyphs, and background where a cell is empty or there is none. -/
def render (font : Font) (fColor bColor : Color32) (width height : Nat) (cell : Nat → Nat → Option (BitVec 8)) : Picture := fun x y =>
  let column := x / (font.charsize >>> 1)
  let row := y / font.charsize
  if column < width ∧ row < height then
    match cell column row with
    | some chr => if glyphPixel font chr (x % (font.charsize >>> 1)) (y % font.charsize) then fColor else bColor
    | none => bColor
  else bColor

/-- The frame buffer shows the cells. -/
def Renders (color : Color32) (width height : Nat) (c : PrimitiveConsole) (cell : Nat → Nat → Option (BitVec 8)) : Prop :=
  ∀ x y, x < c.mFrameBuffer.PixelsPerScanline → y < c.mFrameBuffer.Height →
    c.shown x y = render c.mFont color c.mBackgroundColor width height cell x y

/-- The frame buffer shows the grid, and the cursor is where the grid has it and is not drawn. -/
structure Shows (color : Color32) {width height : Nat} (c : PrimitiveConsole) (g : Grid (BitVec 8) width height) : Prop where
  disabled : c.CursorEnabled = false
  position : c.mCursorPosition = ⟨g.X,g.Y⟩
  cells : Renders color width height c g.cell

variable {c d : PrimitiveConsole} {width height : Nat} {g : Grid (BitVec 8) width height} {color : Color32}
  {cell : Nat → Nat → Option (BitVec 8)}

theorem Fits.same (fits : Fits c width height) (same : SameGrid c d) : Fits d width height := by
  obtain ⟨font,mWidth,mHeight,columns,rows⟩ := fits
  refine ⟨?_,?_,?_,?_,?_⟩
  · rw [same.mFont]; exact font
  · rw [same.mWidth]; exact mWidth
  · rw [same.mHeight]; exact mHeight
  · rw [same.mFrameBuffer,same.mFont]; exact columns
  · rw [same.mFrameBuffer,same.mFont]; exact rows

/-- The width of a glyph is half its height. -/
theorem Fits.halved (fits : Fits c width height) : 0 < c.mFont.charsize >>> 1 := by
  have font := fits.font
  rw [Nat.shiftRight_eq_div_pow]
  omega

/-- A row of text is one inside the grid when its last line is in the frame buffer. -/
theorem Fits.row_lt_iff (fits : Fits c width height) (y : Nat) :
    y / c.mFont.charsize < height ↔ y / c.mFont.charsize * c.mFont.charsize + c.mFont.charsize ≤ c.mFrameBuffer.Height := by
  have font := fits.font
  rw [fits.rows,← Nat.succ_mul,← Nat.le_div_iff_mul_le (by omega),Nat.succ_le_iff]

theorem Fits.word (fits : Fits c width height) : width < 2^32 ∧ height < 2^32 := by
  have columns := c.columns
  have rows := c.rows
  rw [fits.mWidth] at columns
  rw [fits.mHeight] at rows
  omega

/-- The position within a cell. -/
theorem cell_iff {k n i : Nat} (size : 0 < k) : ((i * k : Nat) : Int) ≤ n ∧ (n : Int) < (i * k : Nat) + (k : Nat) ↔ n / k = i := by
  rw [Nat.div_eq_iff size]
  omega

theorem cell_offset {k n : Nat} : ((n : Int) - ((n / k * k : Nat) : Int)).toNat = n % k := by
  have parts := Nat.div_add_mod n k
  rw [Nat.mul_comm] at parts
  omega

theorem overlay_cell (font : Font) (chr : BitVec 8) (fColor bColor : Color32) (X Y : Nat) (p : Picture) (x y : Nat)
    (wide : 0 < font.charsize >>> 1) (high : 0 < font.charsize) :
    overlay ((X * (font.charsize >>> 1) : Nat) : Int) ((Y * font.charsize : Nat) : Int) (font.charsize >>> 1) font.charsize
      (glyph font chr fColor bColor) p x y =
      if x / (font.charsize >>> 1) = X ∧ y / font.charsize = Y then
        if glyphPixel font chr (x % (font.charsize >>> 1)) (y % font.charsize) then fColor else bColor
      else p x y := by
  have columns := @cell_iff (font.charsize >>> 1) x X wide
  have lines := @cell_iff font.charsize y Y high
  simp only [overlay]
  by_cases here : x / (font.charsize >>> 1) = X ∧ y / font.charsize = Y
  · have inside := And.intro (columns.mpr here.1) (lines.mpr here.2)
    rw [if_pos ⟨inside.1.1,inside.1.2,inside.2⟩,if_pos here]
    obtain ⟨rfl,rfl⟩ := here
    rw [cell_offset,cell_offset]
    rfl
  · rw [if_neg here,if_neg (fun inside => here ⟨columns.mp ⟨inside.1,inside.2.1⟩,lines.mp inside.2.2⟩)]

/-- What is drawn shows the cells. -/
theorem renders_of_draw {p : Picture} (same : SameGrid c d) (drawn : d.Memory = c.mFrameBuffer.draw c.Memory p)
    (pixels : ∀ x y, x < c.mFrameBuffer.PixelsPerScanline → y < c.mFrameBuffer.Height →
      p x y = render c.mFont color c.mBackgroundColor width height cell x y) : Renders color width height d cell := by
  simp only [Renders]
  rw [same.mFont,same.mBackgroundColor,same.mFrameBuffer]
  intro x y column line
  rw [shown,same.mFrameBuffer,drawn,picture_draw _ _ column line,pixels x y column line]

theorem clear_renders (c : PrimitiveConsole) : Renders color width height (c.Clear c.mBackgroundColor) (fun _ _ => none) := by
  refine renders_of_draw (c := c) ⟨rfl,rfl,rfl,rfl,rfl,rfl⟩ (clear_draws c _) ?_
  intro x y _ _
  unfold render
  dsimp only
  split_ifs <;> rfl

/-- A character that is put on a cell. -/
theorem putChar_renders (fits : Fits c width height) (shows : Renders color width height c g.cell) (chr : BitVec 8) :
    Renders color width height (c.PutChar chr color c.mBackgroundColor g.X g.Y) (g.put chr).cell := by
  have font := fits.font
  refine renders_of_draw (putChar_same c chr color c.mBackgroundColor g.X g.Y) (putChar_draws c chr color c.mBackgroundColor g.X g.Y)
    (fun x y column line => ?_)
  rw [overlay_cell _ _ _ _ _ _ _ _ _ fits.halved (by omega),shows x y column line]
  unfold render Grid.put
  dsimp only
  by_cases here : x / (c.mFont.charsize >>> 1) = g.X ∧ y / c.mFont.charsize = g.Y
  · have inside := And.intro g.column g.row
    rw [← here.1,← here.2] at inside
    rw [if_pos here,if_pos inside,if_pos here]
  · rw [if_neg here,if_neg here]

/-- The rows of text that scroll up. The part of a row below the last one is background and stays so. -/
theorem scrollDown_renders (fits : Fits c width height) (shows : Renders color width height c g.cell) :
    Renders color width height c.ScrollDown g.scroll.cell := by
  have font := fits.font
  have one := (fits.row_lt_iff 0).mp (by rw [Nat.zero_div]; exact Nat.zero_lt_of_lt g.row)
  apply renders_of_draw (scrollDown_same c) (scrollDown_draws (by omega) (by omega))
  intro x y column line
  have next : (y + c.mFont.charsize) / c.mFont.charsize = y / c.mFont.charsize + 1 := Nat.add_div_right _ (by omega)
  have inside := fits.row_lt_iff (y + c.mFont.charsize)
  rw [next,Nat.succ_mul] at inside
  simp only [scrolled]
  by_cases below : y + c.mFont.charsize < c.mFrameBuffer.Height
  · rw [if_pos below,shows x _ column below]
    simp only [render,Grid.scroll]
    simp only [next,Nat.add_mod_right]
    by_cases row : y / c.mFont.charsize + 1 < height
    · have row' : y / c.mFont.charsize < height := by omega
      simp only [row,row',and_true,if_true]
    · rw [if_neg (fun cell => row cell.2)]
      simp only [if_neg row]
      split_ifs <;> rfl
  · have last : ¬ y / c.mFont.charsize + 1 < height := fun row => by
      have lines := inside.mp row
      have offset := Nat.mod_lt y (show 0 < c.mFont.charsize by omega)
      have parts := Nat.div_add_mod y c.mFont.charsize
      rw [Nat.mul_comm] at parts
      omega
    rw [if_neg below]
    simp only [render,Grid.scroll]
    simp only [if_neg last]
    split_ifs <;> rfl

/-- Scrolling by one row; the only row of a grid is cleared instead. -/
theorem scrollDownLines_renders (fits : Fits c width height) (shows : Renders color width height c g.cell) :
    Renders color width height (c.ScrollDownLines 1) g.scroll.cell := by
  simp only [ScrollDownLines]
  rw [if_neg (by decide),fits.mHeight]
  split_ifs with whole
  · have empty : g.scroll.cell = fun _ _ => none := by
      funext x y
      exact if_neg (by omega)
    rw [empty]
    exact clear_renders c
  · exact scrollDown_renders fits shows

theorem Shows.inBounds (shows : Shows color c g) (fits : Fits c width height) : c.InBounds := by
  have column := g.column
  have row := g.row
  simp only [InBounds]
  rw [shows.position,fits.mWidth,fits.mHeight]
  dsimp only
  omega

theorem uint_of_lt {n : Nat} (word : n < 2^32) : uint n = n := by
  simp only [uint]
  omega

theorem newLine_shows (fits : Fits c width height) (shows : Shows color c g) : Shows color (c.NewLine 1) g.newline := by
  have inside := g.row
  have row : c.mCursorPosition.Y = g.Y := by rw [shows.position]
  obtain ⟨_,position⟩ := newLine_same c 1
  rw [row,fits.mHeight] at position
  rw [newLine_disabled shows.disabled] at position ⊢
  refine ⟨?_,?_,?_⟩
  · rw [scrollToCursor_enabled]
    exact shows.disabled
  · rw [position]
    simp only [Grid.newline]
    split_ifs <;> rw [sPoint.mk.injEq] <;> dsimp only [Grid.scroll] <;> omega
  · simp only [scrollToCursor,Grid.newline]
    rw [moveTo_position,moveTo_mHeight,fits.mHeight,row]
    by_cases below : g.Y + 1 < height
    · rw [dif_pos below,if_neg (by dsimp only; omega)]
      exact shows.cells
    · have one : uint ((g.Y : Int) + (1 : Nat) - ((height : Int) - 1)) = 1 := by
        rw [show (g.Y : Int) + (1 : Nat) - ((height : Int) - 1) = (1 : Nat) by omega]
        exact uint_of_lt (by decide)
      rw [dif_neg below,if_pos (by dsimp only; omega),one]
      exact scrollDownLines_renders (fits.same (moveTo_same c ⟨0,g.Y + (1 : Nat)⟩)) shows.cells

theorem backspace_shows (fits : Fits c width height) (shows : Shows color c g) : Shows color (c.Backspace 1 false) g.back := by
  have column := g.column
  have row := g.row
  have back : c.Backspace 1 false = c.moveTo c.stepBack := @updateCursor_disabled (c.moveTo c.stepBack) shows.disabled
  rw [back,stepBack_eq (shows.inBounds fits),shows.position,fits.mWidth]
  unfold Grid.back
  refine ⟨shows.disabled,?_,?_⟩
  · rw [moveTo_position]
    dsimp only
    split_ifs <;> simp only [sPoint.mk.injEq,and_true] <;> omega
  · split_ifs <;> exact shows.cells

/-- The cursor passes the last column and the last row as in the grid. -/
theorem advance_eq (fits : Fits c width height) (position : c.mCursorPosition = ⟨g.X,g.Y⟩) : c.advance =
    if g.X + 1 < width then (⟨g.X+1,g.Y⟩,false)
    else if g.Y + 1 < height then (⟨0,g.Y+1⟩,false)
    else (⟨0,height-1⟩,true) := by
  simp only [advance]
  rw [position,fits.mWidth,fits.mHeight]
  dsimp only
  by_cases right : g.X + 1 < width
  · rw [if_pos right,if_neg (by omega)]
  · rw [if_neg right,if_pos (by omega)]
    by_cases below : g.Y + 1 < height
    · rw [if_pos below,if_neg (by omega)]
    · rw [if_neg below,if_pos (by omega)]

/-- A glyph is drawn where the cursor was, and then the screen scrolls when the cursor passed the last cell. -/
theorem writeGlyph_shows (fits : Fits c width height) (shows : Shows color c g) (chr : BitVec 8) :
    Shows color (c.writeGlyph chr color) (g.print chr) := by
  have column := g.column
  have row := g.row
  have words := fits.word
  have put := putChar_renders fits shows.cells chr
  rw [writeGlyph_disabled shows.disabled,advance_eq fits shows.position,shows.position]
  dsimp only
  rw [uint_of_lt (by omega),uint_of_lt (by omega)]
  simp only [Grid.print,Grid.newline]
  by_cases right : g.X + 1 < width
  · rw [dif_pos right,if_pos right]
    exact ⟨shows.disabled,rfl,put⟩
  · rw [dif_neg right,if_neg right]
    by_cases below : g.Y + 1 < height
    · rw [dif_pos (show (g.put chr).Y + 1 < height from below),if_pos below]
      exact ⟨shows.disabled,rfl,put⟩
    · rw [dif_neg (show ¬ (g.put chr).Y + 1 < height from below),if_neg below]
      refine ⟨shows.disabled,?_,?_⟩
      · show sPoint.mk 0 ((height : Int) - 1) = ⟨0,g.Y⟩
        rw [sPoint.mk.injEq]
        omega
      · have fits' : Fits ((c.moveTo ⟨0,height-1⟩).PutChar chr color c.mBackgroundColor g.X g.Y) width height :=
          fits.same ((moveTo_same c _).trans (putChar_same _ chr color c.mBackgroundColor g.X g.Y))
        exact scrollDown_renders (g := g.put chr) fits' put

theorem writeGlyph_same (c : PrimitiveConsole) (chr : BitVec 8) (color : Color32) : SameGrid c (c.writeGlyph chr color) := by
  obtain ⟨a,b,w,h,f,e⟩ := (moveTo_same c c.advance.1).trans (updateCursor_same _)
  unfold writeGlyph
  dsimp only
  split_ifs <;> exact ⟨a,b,w,h,f,e⟩

theorem writeChar_shows (fits : Fits c width height) (shows : Shows color c g) {chr : BitVec 8} (text : chr ≠ 0) :
    Shows color (c.WriteChar chr color) (type g chr) := by
  simp only [WriteChar,type]
  split_ifs
  · exact newLine_shows fits shows
  · exact backspace_shows fits shows
  · have one := writeGlyph_same c 32 color
    have two := one.trans (writeGlyph_same (c.writeGlyph 32 color) 32 color)
    have three := two.trans (writeGlyph_same ((c.writeGlyph 32 color).writeGlyph 32 color) 32 color)
    have shows' := writeGlyph_shows (fits.same one) (writeGlyph_shows fits shows 32) 32
    exact writeGlyph_shows (fits.same three) (writeGlyph_shows (fits.same two) shows' 32) 32
  · exact writeGlyph_shows fits shows chr

theorem writeChar_same (fits : Fits c width height) (shows : Shows color c g) (chr : BitVec 8) :
    SameGrid c (c.WriteChar chr color) :=
  (writeChar_settles (shows.inBounds fits) chr color).1

/-- The screen shows the text that was written, typed into the grid. -/
theorem write_shows_grid (fits : Fits c width height) (shows : Shows color c g) (str : List (BitVec 8)) (text : ∀ chr ∈ str, chr ≠ 0) :
    Shows color (c.Write str color) (str.foldl type g) := by
  have whole : str.takeWhile (· ≠ 0) = str := List.takeWhile_eq_self_iff.mpr (fun chr member => by simpa using text chr member)
  simp only [Write]
  rw [whole]
  clear whole
  induction str generalizing c g with
  | nil => exact shows
  | cons chr str ih =>
    have first := writeChar_shows fits shows (text chr (by simp))
    exact ih (fits.same (writeChar_same fits shows chr)) first (fun later member => text later (List.mem_cons_of_mem _ member))

/-- From a cleared screen on, the frame buffer shows the grid into which the text was typed. -/
theorem write_shows (fits : Fits c width height) (columns : 0 < width) (rows : 0 < height) (disabled : c.CursorEnabled = false)
    (color : Color32) (str : List (BitVec 8)) (text : ∀ chr ∈ str, chr ≠ 0) :
    Shows color ((c.Clear c.mBackgroundColor).Write str color) (str.foldl type (Grid.empty columns rows)) := by
  have cleared : Shows color (c.Clear c.mBackgroundColor) (Grid.empty (α := BitVec 8) columns rows) :=
    ⟨disabled,rfl,clear_renders c⟩
  have fits' : Fits (c.Clear c.mBackgroundColor) width height := fits.same ⟨rfl,rfl,rfl,rfl,rfl,rfl⟩
  exact write_shows_grid fits' cleared str text

/-- The constructor computes the grid that fits. -/
theorem construct_fits (fb : FrameBuffer) (font : Font) (saved : Nat → Color32) (m : Mem) (size : 2 ≤ font.charsize) :
    Fits (construct fb font saved m) (fb.PixelsPerScanline / (font.charsize >>> 1)) (fb.Height / font.charsize) :=
  ⟨size,rfl,rfl,rfl,rfl⟩

theorem twoByTwo_fits : Fits twoByTwo 2 2 := ⟨by decide,rfl,rfl,by decide,by decide⟩

/-- Three characters and two line breaks: the second one scrolls. -/
theorem write_shows_twoByTwo : Shows Color.White ((twoByTwo.Clear twoByTwo.mBackgroundColor).Write [65,66,67,10,10] Color.White)
    ([65,66,67,10,10].foldl type (Grid.empty (show 0 < 2 by decide) (show 0 < 2 by decide))) :=
  write_shows twoByTwo_fits (by decide) (by decide) rfl Color.White [65,66,67,10,10] (by decide)

end WaifuOS.Console.PrimitiveConsole
