import WaifuOS.FrameBuffers

/-!
The text console. Characters are drawn into the frame buffer with the glyphs of a
font, the cursor moves over a grid of `mWidth` by `mHeight` cells, and what the drawn
cursor covers is kept in `mPreviousCursorBuffer`. Every call leaves the cursor
inside the grid (`run_inBounds`).
-/
namespace WaifuOS.Console
open WaifuOS.Words WaifuOS.Bytes

structure sPoint where
  X : Int
  Y : Int

/-- The glyphs are read by their offset from `GlyphBuffer`, of which `charsize` bytes belong to each character. -/
structure Font where
  charsize : Nat
  GlyphBuffer : Int → BitVec 8
  byte : charsize < 256

/-- The console with the memory its frame buffer lies in. Width and height are quotients of `uint32` values. -/
structure PrimitiveConsole where
  mFrameBuffer : FrameBuffer
  mFont : Font
  mWidth : Int
  mHeight : Int
  mCursorPosition : sPoint
  mPreviousRenderedPosition : sPoint
  HasDrawnCursor : Bool
  CursorEnabled : Bool
  mForegroundColor : Color32
  mBackgroundColor : Color32
  mPreviousCursorBuffer : Nat → Color32
  Memory : Mem
  columns : 0 ≤ mWidth ∧ mWidth < 2^32
  rows : 0 ≤ mHeight ∧ mHeight < 2^32

def mCursorBuffer : List Nat := [0,0,0,0,0,0,0,0,0,0,0,0,0,0b11111111,0b11111111,0b11111111]

/-- Whether the cursor's bitmap has the pixel. -/
def cursorPixel (x y : Nat) : Bool := mCursorBuffer.getD ((y * 8 + x) / 8 % 256) 0 &&& (0b10000000 >>> (x % 8)) != 0

/-- Conversion to `uint`. -/
def uint (x : Int) : Nat := (x % 2^32).toNat

inductive Direction
  | Up | Down | Left | Right

/-- The quotient of a `uint32` is one. -/
theorem quotient_word {n : Nat} (word : n < 2^32) (k : Nat) : 0 ≤ ((n / k : Nat) : Int) ∧ ((n / k : Nat) : Int) < 2^32 := by
  have le := Nat.div_le_self n k
  generalize n / k = q at le
  omega

namespace PrimitiveConsole

/-- The constructor; the buffer for the cursor's background is not initialized. -/
def construct (fb : FrameBuffer) (font : Font) (mPreviousCursorBuffer : Nat → Color32) (Memory : Mem) : PrimitiveConsole where
  mFrameBuffer := fb
  mFont := font
  mWidth := (fb.PixelsPerScanline / (font.charsize >>> 1) : Nat)
  mHeight := (fb.Height / font.charsize : Nat)
  mCursorPosition := ⟨0,0⟩
  mPreviousRenderedPosition := ⟨0,0⟩
  HasDrawnCursor := false
  CursorEnabled := false
  mForegroundColor := Color.White
  mBackgroundColor := Color.VeryDarkGray
  mPreviousCursorBuffer := mPreviousCursorBuffer
  Memory := Memory
  columns := quotient_word fb.words.2 _
  rows := quotient_word fb.words.1 _

/-- The cursor at another place. -/
def moveTo (c : PrimitiveConsole) (p : sPoint) : PrimitiveConsole := { c with mCursorPosition := p }

def ConvertScaledToUnscaled (c : PrimitiveConsole) (X Y : Int) : sPoint :=
  ⟨X * (c.mFont.charsize >>> 1 : Nat),Y * c.mFont.charsize⟩

/-- Whether the glyph of a character has the pixel. -/
def glyphPixel (font : Font) (chr : BitVec 8) (x y : Nat) : Bool :=
  (font.GlyphBuffer (chr.toInt * font.charsize + y)).toNat &&& (0b10000000 >>> x) > 0

def PutChar (c : PrimitiveConsole) (chr : BitVec 8) (fColor bColor : Color32) (xOff yOff : Nat) : PrimitiveConsole :=
  let chrSz := c.mFont.charsize
  let chrSz2 := c.mFont.charsize >>> 1
  let unscaled := c.ConvertScaledToUnscaled xOff yOff
  { c with Memory := FrameBuffer.eachPixel chrSz2 chrSz (fun m x y =>
      let m := c.mFrameBuffer.WritePixel m (unscaled.X + x) (unscaled.Y + y) bColor
      if glyphPixel c.mFont chr x y then c.mFrameBuffer.WritePixel m (unscaled.X + x) (unscaled.Y + y) fColor else m) c.Memory }

/-- The loop of `UpdateCursor` and `DisableCursor` that puts back what the drawn cursor covers. -/
def restorePixels (c : PrimitiveConsole) : Mem :=
  let yCharSize := c.mFont.charsize
  let xCharSize := yCharSize >>> 1
  if c.HasDrawnCursor then
    let oldPos := c.ConvertScaledToUnscaled c.mPreviousRenderedPosition.X c.mPreviousRenderedPosition.Y
    FrameBuffer.eachPixel xCharSize yCharSize (fun m x y =>
      if cursorPixel x y then c.mFrameBuffer.WritePixel m (oldPos.X + x) (oldPos.Y + y) (c.mPreviousCursorBuffer (x + y * 8)) else m)
      c.Memory
  else c.Memory

/-- A round of the loop of `UpdateCursor` that saves the pixels and draws the cursor over them. -/
def savePixel (c : PrimitiveConsole) (pos : sPoint) (s : Mem × (Nat → Color32)) (x y : Nat) : Mem × (Nat → Color32) :=
  let saved := Function.update s.2 (x + y * 8) (c.mFrameBuffer.ReadPixel s.1 (pos.X + x) (pos.Y + y))
  (if cursorPixel x y then c.mFrameBuffer.WritePixel s.1 (pos.X + x) (pos.Y + y) c.mForegroundColor else s.1,saved)

def drawCursor (c : PrimitiveConsole) (m : Mem) : Mem × (Nat → Color32) :=
  let pos := c.ConvertScaledToUnscaled c.mCursorPosition.X c.mCursorPosition.Y
  FrameBuffer.eachPixel 8 16 (c.savePixel pos) (m,c.mPreviousCursorBuffer)

def UpdateCursor (c : PrimitiveConsole) : PrimitiveConsole :=
  if c.CursorEnabled then
    let drawn := c.drawCursor c.restorePixels
    { c with
      Memory := drawn.1
      mPreviousCursorBuffer := drawn.2
      mPreviousRenderedPosition := c.mCursorPosition
      HasDrawnCursor := true }
  else c

def EnableCursor (c : PrimitiveConsole) : PrimitiveConsole :=
  { c with CursorEnabled := true, HasDrawnCursor := false }.UpdateCursor

def DisableCursor (c : PrimitiveConsole) : PrimitiveConsole :=
  { c with Memory := c.restorePixels, CursorEnabled := false, HasDrawnCursor := false }

def MoveCursor (c : PrimitiveConsole) (dir : Direction) : PrimitiveConsole :=
  let p := c.mCursorPosition
  c.moveTo <| match dir with
    | .Up => if p.Y > 0 then ⟨p.X,p.Y-1⟩ else ⟨0,0⟩
    | .Down => if p.Y < c.mHeight - 1 then ⟨p.X,p.Y+1⟩ else ⟨p.X,c.mHeight-1⟩
    | .Left =>
      if p.X > 0 then ⟨p.X-1,p.Y⟩
      else if p.Y > 0 then ⟨c.mWidth-1,p.Y-1⟩
      else ⟨0,0⟩
    | .Right =>
      if p.X < c.mWidth - 1 then ⟨p.X+1,p.Y⟩
      else if p.Y < c.mHeight - 1 then ⟨0,p.Y+1⟩
      else ⟨c.mWidth-1,c.mHeight-1⟩

def Clear (c : PrimitiveConsole) (color : Color32) : PrimitiveConsole :=
  { c with
    Memory := (List.range' 0 c.mFrameBuffer.Height).foldl (fun m y => c.mFrameBuffer.fillScanline m color y) c.Memory
    mCursorPosition := ⟨0,0⟩ }

/-- By one row of text. -/
def ScrollDown (c : PrimitiveConsole) : PrimitiveConsole :=
  let height := c.mFrameBuffer.Height
  let charsize := c.mFont.charsize
  let copied := (List.range' 0 (sub height charsize)).foldl (fun m y => c.mFrameBuffer.copyScanline m charsize y) c.Memory
  let filled := (List.range' (sub height charsize) (height - sub height charsize)).foldl
    (fun m y => c.mFrameBuffer.fillScanline m c.mBackgroundColor y) copied
  { c with Memory := filled }

/-- `ScrollDown` with a number of rows. -/
def ScrollDownLines (c : PrimitiveConsole) (lines : Nat) : PrimitiveConsole :=
  if lines = 0 then c
  else if (lines : Int) ≥ c.mHeight then c.Clear c.mBackgroundColor
  else (List.range lines).foldl (fun c _ => c.ScrollDown) c

/-- The middle of `NewLine`: scrolls when the cursor is below the last row. -/
def scrollToCursor (c : PrimitiveConsole) : PrimitiveConsole :=
  if c.mCursorPosition.Y > c.mHeight - 1 then
    let c := c.ScrollDownLines (uint (c.mCursorPosition.Y - (c.mHeight - 1)))
    c.moveTo ⟨c.mCursorPosition.X,c.mHeight-1⟩
  else c

def NewLine (c : PrimitiveConsole) (lines : Nat) : PrimitiveConsole :=
  let c := c.moveTo ⟨0,c.mCursorPosition.Y + lines⟩
  let wasEnabled := c.CursorEnabled
  let c := if c.CursorEnabled then c.DisableCursor else c
  let c := c.scrollToCursor
  if wasEnabled then c.EnableCursor else c

/-- Where the loop of `Backspace` moves the cursor. -/
def stepBack (c : PrimitiveConsole) : sPoint :=
  let p := c.mCursorPosition
  let p := if p.X ≤ 0 then (if p.Y - 1 < 0 then ⟨1,0⟩ else ⟨c.mWidth,p.Y-1⟩) else p
  let p : sPoint := ⟨p.X-1,p.Y⟩
  if p.X < 0 then (if p.Y - 1 < 0 then ⟨0,0⟩ else ⟨c.mWidth,p.Y-1⟩) else p

/-- A round of the loop of `Backspace`. -/
def backspaceOnce (RemoveChar : Bool) (c : PrimitiveConsole) : PrimitiveConsole :=
  let c := c.moveTo c.stepBack
  if RemoveChar then
    c.PutChar 32 c.mForegroundColor c.mBackgroundColor (uint c.mCursorPosition.X) (uint c.mCursorPosition.Y)
  else c

def Backspace (c : PrimitiveConsole) (nBackspace : Int) (RemoveChar : Bool) : PrimitiveConsole :=
  ((backspaceOnce RemoveChar)^[nBackspace.toNat] c).UpdateCursor

/-- Where `WriteChar` moves the cursor, and whether it has to scroll. -/
def advance (c : PrimitiveConsole) : sPoint × Bool :=
  let p := c.mCursorPosition
  if p.X + 1 ≥ c.mWidth then
    if p.Y + 1 > c.mHeight - 1 then (⟨0,c.mHeight-1⟩,true) else (⟨0,p.Y+1⟩,false)
  else (⟨p.X+1,p.Y⟩,false)

/-- The end of `WriteChar`, for the characters that have no case of their own. -/
def writeGlyph (c : PrimitiveConsole) (chr : BitVec 8) (color : Color32) : PrimitiveConsole :=
  let originalPos := c.mCursorPosition
  let shouldScroll := c.advance.2
  let c := (c.moveTo c.advance.1).UpdateCursor
  let c := c.PutChar chr color c.mBackgroundColor (uint originalPos.X) (uint originalPos.Y)
  if shouldScroll then c.ScrollDown else c

def WriteChar (c : PrimitiveConsole) (chr : BitVec 8) (color : Color32) : PrimitiveConsole :=
  if chr = 10 then c.NewLine 1
  else if chr = 8 then c.Backspace 1 false
  else if chr = 0 then c
  -- `Write` of four spaces, which have no case of their own
  else if chr = 9 then [32,32,32,32].foldl (fun c chr => c.writeGlyph chr color) c
  else c.writeGlyph chr color

/-- Writes the characters before the first zero. -/
def Write (c : PrimitiveConsole) (str : List (BitVec 8)) (color : Color32) : PrimitiveConsole :=
  (str.takeWhile (· ≠ 0)).foldl (fun c chr => c.WriteChar chr color) c

def WriteLine (c : PrimitiveConsole) (str : List (BitVec 8)) (color : Color32) : PrimitiveConsole :=
  (c.Write str color).NewLine 1

/-! ### Calls -/

inductive Call
  | WriteChar (chr : BitVec 8) (color : Color32)
  | Write (str : List (BitVec 8)) (color : Color32)
  | WriteLine (str : List (BitVec 8)) (color : Color32)
  | NewLine (lines : Nat)
  | Backspace (nBackspace : Int) (RemoveChar : Bool)
  | Clear (color : Color32)
  | MoveCursor (dir : Direction)

def call (c : PrimitiveConsole) : Call → PrimitiveConsole
  | .WriteChar chr color => c.WriteChar chr color
  | .Write str color => c.Write str color
  | .WriteLine str color => c.WriteLine str color
  | .NewLine lines => c.NewLine lines
  | .Backspace nBackspace RemoveChar => c.Backspace nBackspace RemoveChar
  | .Clear color => c.Clear color
  | .MoveCursor dir => c.MoveCursor dir

def run (c : PrimitiveConsole) (calls : List Call) : PrimitiveConsole := calls.foldl call c

/-! ### Where the cursor is -/

/-- The cursor is on a cell of the grid. -/
def InBounds (c : PrimitiveConsole) : Prop :=
  0 ≤ c.mCursorPosition.X ∧ c.mCursorPosition.X < c.mWidth ∧ 0 ≤ c.mCursorPosition.Y ∧ c.mCursorPosition.Y < c.mHeight

/-- What no call changes: the frame buffer's place, the font, the grid and the colours. -/
structure SameGrid (c d : PrimitiveConsole) : Prop where
  mFrameBuffer : d.mFrameBuffer = c.mFrameBuffer
  mFont : d.mFont = c.mFont
  mWidth : d.mWidth = c.mWidth
  mHeight : d.mHeight = c.mHeight
  mForegroundColor : d.mForegroundColor = c.mForegroundColor
  mBackgroundColor : d.mBackgroundColor = c.mBackgroundColor

variable {c d e : PrimitiveConsole}

theorem SameGrid.rfl : SameGrid c c := ⟨.refl _,.refl _,.refl _,.refl _,.refl _,.refl _⟩

theorem SameGrid.trans (first : SameGrid c d) (second : SameGrid d e) : SameGrid c e :=
  ⟨second.1.trans first.1,second.2.trans first.2,second.3.trans first.3,second.4.trans first.4,second.5.trans first.5,
    second.6.trans first.6⟩

/-- The cursor is on a cell of the grid when it is on one of an equal grid. -/
theorem SameGrid.inBounds (same : SameGrid c d) (position : d.mCursorPosition = c.mCursorPosition) (inside : c.InBounds) :
    d.InBounds := by
  simp only [InBounds]
  rw [position,same.mWidth,same.mHeight]
  exact inside

/-- A call leaves the grid as it is and the cursor on a cell of it. -/
def Settles (c d : PrimitiveConsole) : Prop := SameGrid c d ∧ d.InBounds

theorem moveTo_same (c : PrimitiveConsole) (p : sPoint) : SameGrid c (c.moveTo p) := ⟨rfl,rfl,rfl,rfl,rfl,rfl⟩

@[simp] theorem moveTo_position (c : PrimitiveConsole) (p : sPoint) : (c.moveTo p).mCursorPosition = p := rfl

@[simp] theorem moveTo_mWidth (c : PrimitiveConsole) (p : sPoint) : (c.moveTo p).mWidth = c.mWidth := rfl

@[simp] theorem moveTo_mHeight (c : PrimitiveConsole) (p : sPoint) : (c.moveTo p).mHeight = c.mHeight := rfl

theorem updateCursor_same (c : PrimitiveConsole) : SameGrid c c.UpdateCursor := by
  unfold UpdateCursor; split_ifs <;> exact ⟨rfl,rfl,rfl,rfl,rfl,rfl⟩

@[simp] theorem updateCursor_position (c : PrimitiveConsole) : c.UpdateCursor.mCursorPosition = c.mCursorPosition := by
  unfold UpdateCursor; split_ifs <;> rfl

theorem updateCursor_disabled (off : c.CursorEnabled = false) : c.UpdateCursor = c := by
  simp only [UpdateCursor]
  rw [off]
  rfl

theorem enableCursor_same (c : PrimitiveConsole) : SameGrid c c.EnableCursor := by
  obtain ⟨a,b,w,h,f,g⟩ := updateCursor_same { c with CursorEnabled := true, HasDrawnCursor := false }
  exact ⟨a,b,w,h,f,g⟩

@[simp] theorem enableCursor_position (c : PrimitiveConsole) : c.EnableCursor.mCursorPosition = c.mCursorPosition :=
  updateCursor_position _

theorem disableCursor_same (c : PrimitiveConsole) : SameGrid c c.DisableCursor := ⟨rfl,rfl,rfl,rfl,rfl,rfl⟩

@[simp] theorem disableCursor_position (c : PrimitiveConsole) : c.DisableCursor.mCursorPosition = c.mCursorPosition := rfl

theorem putChar_same (c : PrimitiveConsole) (chr : BitVec 8) (fColor bColor : Color32) (xOff yOff : Nat) :
    SameGrid c (c.PutChar chr fColor bColor xOff yOff) := ⟨rfl,rfl,rfl,rfl,rfl,rfl⟩

@[simp] theorem putChar_position (c : PrimitiveConsole) (chr : BitVec 8) (fColor bColor : Color32) (xOff yOff : Nat) :
    (c.PutChar chr fColor bColor xOff yOff).mCursorPosition = c.mCursorPosition := rfl

theorem scrollDown_same (c : PrimitiveConsole) : SameGrid c c.ScrollDown := ⟨rfl,rfl,rfl,rfl,rfl,rfl⟩

@[simp] theorem scrollDown_position (c : PrimitiveConsole) : c.ScrollDown.mCursorPosition = c.mCursorPosition := rfl

/-- Scrolling down by some rows keeps the column when that is the first one, also when it clears the screen. -/
theorem scrollDownLines_same (c : PrimitiveConsole) (lines : Nat) : SameGrid c (c.ScrollDownLines lines) ∧
    (c.mCursorPosition.X = 0 → (c.ScrollDownLines lines).mCursorPosition.X = 0) := by
  have rounds (l : List Nat) (c : PrimitiveConsole) : SameGrid c (l.foldl (fun c _ => c.ScrollDown) c) ∧
      (l.foldl (fun c _ => c.ScrollDown) c).mCursorPosition = c.mCursorPosition := by
    induction l generalizing c with
    | nil => exact ⟨.rfl,rfl⟩
    | cons _ l ih => exact ⟨(scrollDown_same c).trans (ih c.ScrollDown).1,(ih c.ScrollDown).2⟩
  simp only [ScrollDownLines]
  split_ifs
  · exact ⟨.rfl,id⟩
  · exact ⟨⟨rfl,rfl,rfl,rfl,rfl,rfl⟩,fun _ => rfl⟩
  · obtain ⟨same,position⟩ := rounds (List.range lines) c
    exact ⟨same,fun first => by rw [position,first]⟩

theorem scrollToCursor_same (c : PrimitiveConsole) : SameGrid c c.scrollToCursor ∧
    (c.mCursorPosition.X = 0 → c.scrollToCursor.mCursorPosition = ⟨0,min c.mCursorPosition.Y (c.mHeight - 1)⟩) := by
  simp only [scrollToCursor]
  split_ifs with below
  · obtain ⟨⟨a,b,w,h,f,g⟩,column⟩ := scrollDownLines_same c (uint (c.mCursorPosition.Y - (c.mHeight - 1)))
    refine ⟨⟨a,b,w,h,f,g⟩,?_⟩
    intro first
    rw [min_eq_right (by omega)]
    simp only [h,column first,moveTo_position]
  · refine ⟨.rfl,?_⟩
    intro first
    rw [min_eq_left (by omega),← first]

theorem scrollDownLines_enabled (c : PrimitiveConsole) (lines : Nat) : (c.ScrollDownLines lines).CursorEnabled = c.CursorEnabled := by
  have rounds (l : List Nat) (c : PrimitiveConsole) : (l.foldl (fun c _ => c.ScrollDown) c).CursorEnabled = c.CursorEnabled := by
    induction l generalizing c with
    | nil => rfl
    | cons _ l ih => exact ih c.ScrollDown
  simp only [ScrollDownLines]
  split_ifs
  · rfl
  · rfl
  · exact rounds (List.range lines) c

theorem scrollToCursor_enabled (c : PrimitiveConsole) : c.scrollToCursor.CursorEnabled = c.CursorEnabled := by
  simp only [scrollToCursor]
  split_ifs
  · exact scrollDownLines_enabled c _
  · rfl

theorem newLine_disabled (off : c.CursorEnabled = false) (lines : Nat) :
    c.NewLine lines = (c.moveTo ⟨0,c.mCursorPosition.Y + lines⟩).scrollToCursor := by
  have off' : (c.moveTo ⟨0,c.mCursorPosition.Y + lines⟩).CursorEnabled = false := off
  simp only [NewLine]
  simp only [off',Bool.false_eq_true,if_false]

theorem newLine_enabled (on : c.CursorEnabled = true) (lines : Nat) :
    c.NewLine lines = (c.moveTo ⟨0,c.mCursorPosition.Y + lines⟩).DisableCursor.scrollToCursor.EnableCursor := by
  have on' : (c.moveTo ⟨0,c.mCursorPosition.Y + lines⟩).CursorEnabled = true := on
  simp only [NewLine]
  simp only [on',if_true]

/-- After `NewLine` the cursor is at the start of a row, the last one when it would be below it. -/
theorem newLine_same (c : PrimitiveConsole) (lines : Nat) : SameGrid c (c.NewLine lines) ∧
    (c.NewLine lines).mCursorPosition = ⟨0,min (c.mCursorPosition.Y + lines) (c.mHeight - 1)⟩ := by
  have moved := moveTo_same c ⟨0,c.mCursorPosition.Y + lines⟩
  cases enabled : c.CursorEnabled with
  | false =>
    rw [newLine_disabled enabled]
    obtain ⟨same,position⟩ := scrollToCursor_same (c.moveTo ⟨0,c.mCursorPosition.Y + lines⟩)
    exact ⟨moved.trans same,position rfl⟩
  | true =>
    rw [newLine_enabled enabled,enableCursor_position]
    obtain ⟨same,position⟩ := scrollToCursor_same (c.moveTo ⟨0,c.mCursorPosition.Y + lines⟩).DisableCursor
    have whole : SameGrid c (c.moveTo ⟨0,c.mCursorPosition.Y + lines⟩).DisableCursor.scrollToCursor :=
      (moved.trans (disableCursor_same _)).trans same
    exact ⟨whole.trans (enableCursor_same _),position rfl⟩

theorem newLine_settles (inside : c.InBounds) (lines : Nat) : Settles c (c.NewLine lines) := by
  obtain ⟨same,position⟩ := newLine_same c lines
  refine ⟨same,?_⟩
  simp only [InBounds] at *
  rw [position,same.mWidth,same.mHeight]
  dsimp only
  omega

theorem moveCursor_settles (inside : c.InBounds) (dir : Direction) : Settles c (c.MoveCursor dir) := by
  refine ⟨⟨rfl,rfl,rfl,rfl,rfl,rfl⟩,?_⟩
  simp only [InBounds] at *
  cases dir <;> simp only [MoveCursor,moveTo_position,moveTo_mWidth,moveTo_mHeight] <;> split_ifs <;> dsimp only <;> omega

theorem clear_settles (inside : c.InBounds) (color : Color32) : Settles c (c.Clear color) := by
  refine ⟨⟨rfl,rfl,rfl,rfl,rfl,rfl⟩,?_⟩
  simp only [InBounds] at *
  simp only [Clear]
  omega

/-- One step back, over the start of a row and at the origin. -/
theorem stepBack_eq (inside : c.InBounds) : c.stepBack =
    if c.mCursorPosition.X > 0 then ⟨c.mCursorPosition.X-1,c.mCursorPosition.Y⟩
    else if c.mCursorPosition.Y > 0 then ⟨c.mWidth-1,c.mCursorPosition.Y-1⟩
    else ⟨0,0⟩ := by
  simp only [InBounds] at inside
  unfold stepBack
  dsimp only
  split_ifs <;> simp_all <;> omega

theorem backspaceOnce_same (c : PrimitiveConsole) (RemoveChar : Bool) : SameGrid c (backspaceOnce RemoveChar c) ∧
    (backspaceOnce RemoveChar c).mCursorPosition = c.stepBack := by
  cases RemoveChar with
  | false => exact ⟨moveTo_same c _,rfl⟩
  | true => exact ⟨(moveTo_same c _).trans (putChar_same _ _ _ _ _ _),rfl⟩

theorem backspaceOnce_settles (inside : c.InBounds) (RemoveChar : Bool) : Settles c (backspaceOnce RemoveChar c) := by
  obtain ⟨same,position⟩ := backspaceOnce_same c RemoveChar
  refine ⟨same,?_⟩
  simp only [InBounds]
  rw [position,stepBack_eq inside,same.mWidth,same.mHeight]
  simp only [InBounds] at inside
  split_ifs <;> dsimp only <;> omega

theorem backspace_settles (inside : c.InBounds) (nBackspace : Int) (RemoveChar : Bool) : Settles c (c.Backspace nBackspace RemoveChar) := by
  have rounds : ∀ n (c : PrimitiveConsole), c.InBounds → Settles c ((backspaceOnce RemoveChar)^[n] c) := by
    intro n
    induction n with
    | zero => exact fun c inside => ⟨.rfl,inside⟩
    | succ n ih =>
      intro c inside
      obtain ⟨first,inside'⟩ := backspaceOnce_settles inside RemoveChar
      obtain ⟨later,inside''⟩ := ih _ inside'
      exact ⟨first.trans later,inside''⟩
  obtain ⟨same,inside'⟩ := rounds nBackspace.toNat c inside
  exact ⟨same.trans (updateCursor_same _),(updateCursor_same _).inBounds (updateCursor_position _) inside'⟩

/-- Without a cursor to draw, `WriteChar` draws the glyph and scrolls. -/
theorem writeGlyph_disabled (off : c.CursorEnabled = false) (chr : BitVec 8) (color : Color32) : c.writeGlyph chr color =
    let d := (c.moveTo c.advance.1).PutChar chr color c.mBackgroundColor (uint c.mCursorPosition.X) (uint c.mCursorPosition.Y)
    if c.advance.2 then d.ScrollDown else d := by
  simp only [writeGlyph]
  rw [@updateCursor_disabled (c.moveTo c.advance.1) off]
  rfl

theorem writeGlyph_settles (inside : c.InBounds) (chr : BitVec 8) (color : Color32) : Settles c (c.writeGlyph chr color) := by
  have moved := (moveTo_same c c.advance.1).trans (updateCursor_same _)
  have same : SameGrid c (c.writeGlyph chr color) := by
    obtain ⟨a,b,w,h,f,g⟩ := moved
    unfold writeGlyph
    dsimp only
    split_ifs <;> exact ⟨a,b,w,h,f,g⟩
  have position : (c.writeGlyph chr color).mCursorPosition = c.advance.1 := by
    unfold writeGlyph; dsimp only; split_ifs <;> exact updateCursor_position _
  refine ⟨same,?_⟩
  simp only [InBounds] at *
  rw [position,same.mWidth,same.mHeight]
  unfold advance
  dsimp only
  split_ifs <;> dsimp only <;> omega

/-- Calls one after another. -/
theorem foldl_settles {α : Type} {f : PrimitiveConsole → α → PrimitiveConsole} (step : ∀ c a, c.InBounds → Settles c (f c a))
    (l : List α) (inside : c.InBounds) : Settles c (l.foldl f c) := by
  induction l generalizing c with
  | nil => exact ⟨.rfl,inside⟩
  | cons a l ih =>
    obtain ⟨first,inside'⟩ := step c a inside
    obtain ⟨later,inside''⟩ := ih inside'
    exact ⟨first.trans later,inside''⟩

theorem writeChar_settles (inside : c.InBounds) (chr : BitVec 8) (color : Color32) : Settles c (c.WriteChar chr color) := by
  simp only [WriteChar]
  split_ifs
  · exact newLine_settles inside 1
  · exact backspace_settles inside 1 false
  · exact ⟨.rfl,inside⟩
  · exact foldl_settles (fun c chr inside => writeGlyph_settles inside chr color) _ inside
  · exact writeGlyph_settles inside chr color

theorem write_settles (inside : c.InBounds) (str : List (BitVec 8)) (color : Color32) : Settles c (c.Write str color) :=
  foldl_settles (fun _ chr inside => writeChar_settles inside chr color) _ inside

theorem call_settles (c : PrimitiveConsole) (call : Call) (inside : c.InBounds) : Settles c (c.call call) := by
  cases call with
  | WriteChar chr color => exact writeChar_settles inside chr color
  | Write str color => exact write_settles inside str color
  | WriteLine str color =>
    obtain ⟨first,inside'⟩ := write_settles inside str color
    obtain ⟨later,inside''⟩ := newLine_settles inside' 1
    exact ⟨first.trans later,inside''⟩
  | NewLine lines => exact newLine_settles inside lines
  | Backspace nBackspace RemoveChar => exact backspace_settles inside nBackspace RemoveChar
  | Clear color => exact clear_settles inside color
  | MoveCursor dir => exact moveCursor_settles inside dir

/-- The cursor stays on a cell of the grid, whatever is called. -/
theorem run_inBounds (inside : c.InBounds) (calls : List Call) : (c.run calls).InBounds :=
  (foldl_settles call_settles calls inside).2

/-- Where the constructor puts the cursor, if there is a row and a column. -/
theorem construct_inBounds {fb : FrameBuffer} {font : Font} (saved : Nat → Color32) (m : Mem)
    (columns : 1 ≤ (construct fb font saved m).mWidth) (rows : 1 ≤ (construct fb font saved m).mHeight) :
    (construct fb font saved m).InBounds :=
  ⟨le_rfl,columns,le_rfl,rows⟩

/-- A grid of one cell. -/
theorem run_inBounds_oneCell :
    ((construct ⟨0x1000,16,8,by decide,by decide⟩ ⟨16,fun _ => 0,by decide⟩ (fun _ => 0) (fun _ => 0)).run
      [.WriteChar 65 Color.White,.Backspace 3 true,.NewLine 7,.MoveCursor .Right]).InBounds :=
  run_inBounds (construct_inBounds _ _ (by decide) (by decide)) [.WriteChar 65 Color.White,.Backspace 3 true,.NewLine 7,.MoveCursor .Right]

end PrimitiveConsole

end WaifuOS.Console
