import WaifuOS.Drawing

/-!
The drawn cursor against the same console without one. While it is drawn, putting back
what it covers gives the screen of the console whose cursor is disabled (`Hidden`).
Every call keeps that as long as it does not draw over the cursor or scroll with it
(`Traceless`), so that a run between `EnableCursor` and `DisableCursor` leaves no trace
(`run_traceless`). A character that scrolls the screen leaves one (`scroll_trace`).
-/
namespace WaifuOS.Console.PrimitiveConsole
open WaifuOS.Words WaifuOS.Bytes WaifuOS.Console.FrameBuffer

variable {a b c d : PrimitiveConsole} {chr : BitVec 8} {color : Color32} {xOff yOff : Nat}

/-- What the pixels of the cursor are drawn with. -/
def mask (color : Nat → Nat → Color32) (x y : Nat) : Option Color32 := if cursorPixel x y then some (color x y) else none

/-- The picture with the cursor's pixels of a cell in other colours. -/
def masked (p : sPoint) (color : Nat → Nat → Color32) : Picture → Picture := overlay (p.X * 8) (p.Y * 16) 8 16 (mask color)

theorem readPixel_writePixel {fb : FrameBuffer} (m : Mem) {posX posY posX' posY' : Int} (color : Color32)
    (other : ¬ (posX' = posX ∧ posY' = posY)) : fb.ReadPixel (fb.WritePixel m posX posY color) posX' posY' = fb.ReadPixel m posX' posY' := by
  by_cases inside : 0 ≤ posX' ∧ posX' < fb.PixelsPerScanline ∧ 0 ≤ posY' ∧ posY' < fb.Height
  · obtain ⟨x,rfl⟩ := Int.eq_ofNat_of_zero_le inside.1
    obtain ⟨y,rfl⟩ := Int.eq_ofNat_of_zero_le inside.2.2.1
    rw [readPixel_eq _ (by omega) (by omega),readPixel_eq _ (by omega) (by omega),writePixel_eq,picture_draw _ _ (by omega) (by omega),
      if_neg other]
  · simp only [ReadPixel]
    by_cases column : posX' ≥ fb.PixelsPerScanline ∨ posX' < 0
    · rw [if_pos column,if_pos column]
    · rw [if_neg column,if_neg column,if_pos (by omega),if_pos (by omega)]

theorem corner16 (font : c.mFont.charsize = 16) (p : sPoint) : c.ConvertScaledToUnscaled p.X p.Y = ⟨p.X * 8,p.Y * 16⟩ := by
  rw [ConvertScaledToUnscaled,font]
  rfl

theorem restorePixels_draws (font : c.mFont.charsize = 16) (drawn : c.HasDrawnCursor = true) : c.restorePixels =
    c.mFrameBuffer.draw c.Memory (masked c.mPreviousRenderedPosition (fun x y => c.mPreviousCursorBuffer (x + y * 8)) c.shown) := by
  simp only [restorePixels]
  simp only [drawn,if_true,corner16 font,font]
  refine sweep_eq ?_ c.Memory
  intro m x y _ _
  simp only [mask]
  split_ifs
  · rw [writePixel_eq]; rfl
  · exact eq_draw_self (fun a b _ _ => by unfold dot; split_ifs <;> rfl)

/-- The cursor is drawn in the foreground colour. -/
theorem drawCursor_draws (font : c.mFont.charsize = 16) (m : Mem) : (c.drawCursor m).1 =
    c.mFrameBuffer.draw m (masked c.mCursorPosition (fun _ _ => c.mForegroundColor) (c.mFrameBuffer.picture m)) := by
  simp only [drawCursor]
  rw [eachPixel_fst (c.savePixel _) (fun m x y => if cursorPixel x y then
    c.mFrameBuffer.WritePixel m (c.mCursorPosition.X * 8 + x) (c.mCursorPosition.Y * 16 + y) c.mForegroundColor else m)
    (fun s x y => by rw [corner16 font]; rfl)]
  refine sweep_eq ?_ m
  intro m x y _ _
  simp only [mask]
  split_ifs
  · rw [writePixel_eq]; rfl
  · exact eq_draw_self (fun a b _ _ => by unfold dot; split_ifs <;> rfl)

/-- The pixel of the cell that the cursor is on. -/
def cellPixel (c : PrimitiveConsole) (m : Mem) (x y : Nat) : Color32 :=
  c.mFrameBuffer.ReadPixel m (c.mCursorPosition.X * 8 + x) (c.mCursorPosition.Y * 16 + y)

/-- The saved pixels before column `x` of line `y` are those of `m`, and the others are still in the memory. -/
def SavedBefore (c : PrimitiveConsole) (m : Mem) (x y : Nat) (s : Mem × (Nat → Color32)) : Prop :=
  ∀ i j, i < 8 → if j < y ∨ j = y ∧ i < x then s.2 (i + j * 8) = c.cellPixel m i j else c.cellPixel s.1 i j = c.cellPixel m i j

theorem savePixel_before {m : Mem} {s : Mem × (Nat → Color32)} {x y : Nat} (column : x < 8) (before : c.SavedBefore m x y s) :
    c.SavedBefore m (x+1) y (c.savePixel ⟨c.mCursorPosition.X * 8,c.mCursorPosition.Y * 16⟩ s x y) := by
  intro i j small
  have here := before x y column
  rw [if_neg (by omega)] at here
  have old := before i j small
  unfold savePixel
  by_cases now : i = x ∧ j = y
  · obtain ⟨rfl,rfl⟩ := now
    rw [if_pos (by omega)]
    exact (Function.update_self _ _ _).trans here
  · by_cases earlier : j < y ∨ j = y ∧ i < x
    · rw [if_pos earlier] at old
      rw [if_pos (by omega)]
      exact (Function.update_of_ne (by omega) _ _).trans old
    · rw [if_neg earlier] at old
      rw [if_neg (by omega),← old]
      dsimp only
      split_ifs
      · exact readPixel_writePixel _ _ (by omega)
      · rfl

/-- What the cursor covers is saved: what a round reads was not drawn over by the rounds before. -/
theorem drawCursor_saves (font : c.mFont.charsize = 16) (m : Mem) {x y : Nat} (column : x < 8) (line : y < 16) :
    (c.drawCursor m).2 (x + y * 8) = c.cellPixel m x y := by
  have whole : c.SavedBefore m 0 16 (c.drawCursor m) := by
    simp only [drawCursor]
    rw [corner16 font]
    refine eachPixel_induction (c.SavedBefore m) (fun _ _ _ column _ before => savePixel_before column before) ?_ ?_
    · intro s y _ before i j small
      have old := before i j small
      by_cases earlier : j < y ∨ j = y ∧ i < 8
      · rw [if_pos earlier] at old
        rwa [if_pos (by omega)]
      · rw [if_neg earlier] at old
        rwa [if_neg (by omega)]
    · intro i j _
      rw [if_neg (by omega)]
  have saved := whole x y column
  rwa [if_pos (.inl line)] at saved

/-- Putting back what was saved undoes the drawing. -/
theorem restore_drawCursor (font : c.mFont.charsize = 16) (m : Mem) : c.mFrameBuffer.draw (c.drawCursor m).1
    (masked c.mCursorPosition (fun x y => (c.drawCursor m).2 (x + y * 8)) (c.mFrameBuffer.picture (c.drawCursor m).1)) = m := by
  rw [drawCursor_draws font m,draw_draw]
  refine (eq_draw_self ?_).symm
  intro x y column line
  have drawn := picture_draw m (masked c.mCursorPosition (fun _ _ => c.mForegroundColor) (c.mFrameBuffer.picture m)) column line
  simp only [masked,overlay] at drawn ⊢
  rw [drawn]
  split_ifs with inside
  · have saved := drawCursor_saves font m (show ((x : Int) - c.mCursorPosition.X * 8).toNat < 8 by omega)
      (show ((y : Int) - c.mCursorPosition.Y * 16).toNat < 16 by omega)
    have place : c.cellPixel m ((x : Int) - c.mCursorPosition.X * 8).toNat ((y : Int) - c.mCursorPosition.Y * 16).toNat =
        c.mFrameBuffer.picture m x y := by
      rw [cellPixel,← readPixel_eq m column line]
      congr 1 <;> omega
    simp only [mask]
    split_ifs
    · exact saved.trans place
    · rfl
  · rfl

/-- Consoles that are equal but for what belongs to the drawn cursor. -/
structure Alike (a b : PrimitiveConsole) : Prop where
  same : SameGrid a b
  position : b.mCursorPosition = a.mCursorPosition
  Memory : b.Memory = a.Memory

/-- The cursor of `b` is drawn over the screen of `a`, whose cursor is disabled. -/
structure Hidden (a b : PrimitiveConsole) : Prop where
  font : a.mFont.charsize = 16
  disabled : a.CursorEnabled = false
  enabled : b.CursorEnabled = true
  drawn : b.HasDrawnCursor = true
  alike : Alike a b.DisableCursor

theorem updateCursor_hidden (font : a.mFont.charsize = 16) (disabled : a.CursorEnabled = false) (enabled : b.CursorEnabled = true)
    (alike : Alike a b.DisableCursor) : Hidden a b.UpdateCursor := by
  have font' : b.mFont.charsize = 16 := by rw [← font]; exact congrArg Font.charsize alike.same.mFont
  have drawn : b.UpdateCursor.HasDrawnCursor = true := by unfold UpdateCursor; rw [if_pos enabled]
  obtain ⟨f,g,w,h,k,l⟩ := updateCursor_same b
  refine ⟨font,disabled,?_,drawn,⟨alike.same.trans ⟨f,g,w,h,k,l⟩,?_,?_⟩⟩
  · unfold UpdateCursor; rw [if_pos enabled]; exact enabled
  · exact (updateCursor_position b).trans alike.position
  · rw [← alike.Memory]
    show b.UpdateCursor.restorePixels = b.restorePixels
    rw [restorePixels_draws (by rw [g]; exact font') drawn]
    simp only [UpdateCursor]
    rw [if_pos enabled]
    exact restore_drawCursor font' b.restorePixels

theorem enableCursor_hidden (font : a.mFont.charsize = 16) (disabled : a.CursorEnabled = false) (alike : Alike a b) :
    Hidden a b.EnableCursor := by
  obtain ⟨⟨f,g,w,h,k,l⟩,position,memory⟩ := alike
  exact updateCursor_hidden font disabled rfl ⟨⟨f,g,w,h,k,l⟩,position,memory⟩

theorem Hidden.update (hidden : Hidden a b) : Hidden a b.UpdateCursor :=
  updateCursor_hidden hidden.font hidden.disabled hidden.enabled hidden.alike

theorem moveTo_hidden (hidden : Hidden a b) (p : sPoint) : Hidden (a.moveTo p) (b.moveTo p) := by
  obtain ⟨font,disabled,enabled,drawn,⟨⟨f,g,w,h,k,l⟩,_,memory⟩⟩ := hidden
  exact ⟨font,disabled,enabled,drawn,⟨⟨f,g,w,h,k,l⟩,rfl,memory⟩⟩

/-- The character's cell is not the one the cursor is drawn on, or what was saved there is what the character shows. -/
def Spares (c : PrimitiveConsole) (chr : BitVec 8) (color : Color32) (xOff yOff : Nat) : Prop :=
  c.mPreviousRenderedPosition ≠ ⟨xOff,yOff⟩ ∨ ∀ x y, x < 8 → y < 16 → cursorPixel x y = true →
    c.mPreviousCursorBuffer (x + y * 8) = if glyphPixel c.mFont chr x y then color else c.mBackgroundColor

/-- A glyph of 8 by 16 pixels. -/
theorem putChar16 (font : c.mFont.charsize = 16) (chr : BitVec 8) (fColor bColor : Color32) (xOff yOff : Nat) :
    (c.PutChar chr fColor bColor xOff yOff).Memory = c.mFrameBuffer.draw c.Memory
      (overlay (xOff * 8) (yOff * 16) 8 16 (glyph c.mFont chr fColor bColor) c.shown) := by
  have drawn := putChar_draws c chr fColor bColor xOff yOff
  rw [font,show 16 >>> 1 = 8 from rfl,Nat.cast_mul,Nat.cast_mul] at drawn
  exact drawn

/-- A glyph and the pixels that are put back are drawn in either order. -/
theorem masked_glyph (spares : c.Spares chr color xOff yOff) (p : Picture) (x y : Nat) :
    masked c.mPreviousRenderedPosition (fun x y => c.mPreviousCursorBuffer (x + y * 8))
      (overlay (xOff * 8) (yOff * 16) 8 16 (glyph c.mFont chr color c.mBackgroundColor) p) x y =
    overlay (xOff * 8) (yOff * 16) 8 16 (glyph c.mFont chr color c.mBackgroundColor)
      (masked c.mPreviousRenderedPosition (fun x y => c.mPreviousCursorBuffer (x + y * 8)) p) x y := by
  simp only [masked,overlay]
  by_cases under : c.mPreviousRenderedPosition.X * 8 ≤ x ∧ x < c.mPreviousRenderedPosition.X * 8 + (8 : Nat) ∧
      c.mPreviousRenderedPosition.Y * 16 ≤ y ∧ y < c.mPreviousRenderedPosition.Y * 16 + (16 : Nat)
  · by_cases inside : (xOff : Int) * 8 ≤ x ∧ x < (xOff : Int) * 8 + (8 : Nat) ∧ (yOff : Int) * 16 ≤ y ∧ y < (yOff : Int) * 16 + (16 : Nat)
    · -- The glyph is drawn over the cursor, and what is put back is part of the glyph.
      have X : c.mPreviousRenderedPosition.X = xOff := by omega
      have Y : c.mPreviousRenderedPosition.Y = yOff := by omega
      rw [if_pos under,if_pos inside,if_pos inside,X,Y]
      have agree := spares.resolve_left (fun other => other (by rw [← X,← Y]))
      simp only [mask,glyph]
      split_ifs with covered set
      · exact (agree _ _ (by omega) (by omega) covered).trans (if_pos set)
      · exact (agree _ _ (by omega) (by omega) covered).trans (if_neg set)
      all_goals rfl
    · rw [if_neg inside,if_neg inside]
  · rw [if_neg under,if_neg under]

/-- A character is drawn under the cursor as it is drawn without one. -/
theorem putChar_hidden (hidden : Hidden a b) (spares : b.Spares chr color xOff yOff) :
    Hidden (a.PutChar chr color a.mBackgroundColor xOff yOff) (b.PutChar chr color b.mBackgroundColor xOff yOff) := by
  obtain ⟨font,disabled,enabled,drawn,⟨⟨f,g,w,h,k,l⟩,position,memory⟩⟩ := hidden
  refine ⟨font,disabled,enabled,drawn,⟨⟨f,g,w,h,k,l⟩,position,?_⟩⟩
  have f : b.mFrameBuffer = a.mFrameBuffer := f
  have g : b.mFont = a.mFont := g
  have l : b.mBackgroundColor = a.mBackgroundColor := l
  have font' : b.mFont.charsize = 16 := by rw [g,font]
  have restored : b.restorePixels = a.Memory := memory
  rw [restorePixels_draws font' drawn] at restored
  show (b.PutChar chr color b.mBackgroundColor xOff yOff).restorePixels = _
  rw [@restorePixels_draws (b.PutChar chr color b.mBackgroundColor xOff yOff) font' drawn,putChar16 font,shown,shown,putChar16 font']
  show b.mFrameBuffer.draw _ (masked b.mPreviousRenderedPosition (fun x y => b.mPreviousCursorBuffer (x + y * 8)) (b.mFrameBuffer.picture _)) = _
  rw [← restored,← f,← g,← l,draw_draw,draw_draw]
  apply draw_congr
  intro x y column line
  have above := picture_draw b.Memory (overlay (xOff * 8) (yOff * 16) 8 16 (glyph b.mFont chr color b.mBackgroundColor) b.shown) column line
  have under := picture_draw b.Memory (masked b.mPreviousRenderedPosition (fun x y => b.mPreviousCursorBuffer (x + y * 8)) b.shown) column line
  exact (overlay_congr above).trans ((masked_glyph spares b.shown x y).trans (overlay_congr under).symm)

theorem moveTo_alike (alike : Alike a b) (p : sPoint) : Alike (a.moveTo p) (b.moveTo p) := by
  obtain ⟨⟨f,g,w,h,k,l⟩,_,memory⟩ := alike
  exact ⟨⟨f,g,w,h,k,l⟩,rfl,memory⟩

theorem clear_alike (alike : Alike a b) (color : Color32) : Alike (a.Clear color) (b.Clear color) := by
  obtain ⟨⟨f,g,w,h,k,l⟩,_,memory⟩ := alike
  refine ⟨⟨f,g,w,h,k,l⟩,rfl,?_⟩
  simp only [Clear]
  rw [f,memory]

theorem scrollDown_alike (alike : Alike a b) : Alike a.ScrollDown b.ScrollDown := by
  obtain ⟨⟨f,g,w,h,k,l⟩,position,memory⟩ := alike
  refine ⟨⟨f,g,w,h,k,l⟩,position,?_⟩
  simp only [ScrollDown]
  rw [f,g,l,memory]

theorem scrollDowns_alike (alike : Alike a b) (l : List Nat) :
    Alike (l.foldl (fun c _ => c.ScrollDown) a) (l.foldl (fun c _ => c.ScrollDown) b) := by
  induction l generalizing a b with
  | nil => exact alike
  | cons _ l ih => exact ih (scrollDown_alike alike)

theorem scrollDownLines_alike (alike : Alike a b) (lines : Nat) : Alike (a.ScrollDownLines lines) (b.ScrollDownLines lines) := by
  simp only [ScrollDownLines]
  rw [alike.same.mHeight,alike.same.mBackgroundColor]
  split_ifs
  · exact alike
  · exact clear_alike alike _
  · exact scrollDowns_alike alike (List.range lines)

theorem scrollToCursor_alike (alike : Alike a b) : Alike a.scrollToCursor b.scrollToCursor := by
  unfold scrollToCursor
  rw [alike.same.mHeight,alike.position]
  split_ifs
  · have scrolled := scrollDownLines_alike alike (uint (a.mCursorPosition.Y - (a.mHeight - 1)))
    dsimp only
    rw [scrolled.same.mHeight,scrolled.position]
    exact moveTo_alike scrolled _
  · exact alike

/-- `NewLine` disables the cursor while it scrolls. -/
theorem newLine_hidden (hidden : Hidden a b) (lines : Nat) : Hidden (a.NewLine lines) (b.NewLine lines) := by
  have moved := moveTo_alike hidden.alike ⟨0,a.mCursorPosition.Y + lines⟩
  have position : b.mCursorPosition = a.mCursorPosition := hidden.alike.position
  have same := newLine_same a lines
  rw [newLine_disabled hidden.disabled] at same ⊢
  rw [newLine_enabled hidden.enabled,position]
  refine enableCursor_hidden ?_ ?_ (scrollToCursor_alike moved)
  · rw [same.1.mFont]; exact hidden.font
  · rw [scrollToCursor_enabled]; exact hidden.disabled

/-- Clearing the screen under the cursor, when what was saved has the same colour. -/
theorem clear_hidden (hidden : Hidden a b)
    (agree : ∀ x y, x < 8 → y < 16 → cursorPixel x y = true → b.mPreviousCursorBuffer (x + y * 8) = color) :
    Hidden (a.Clear color) (b.Clear color) := by
  obtain ⟨font,disabled,enabled,drawn,alike⟩ := hidden
  obtain ⟨⟨f,g,w,h,k,l⟩,_,memory⟩ := alike
  have font' : b.mFont.charsize = 16 := by rw [← font]; exact congrArg Font.charsize g
  have f' : b.mFrameBuffer = a.mFrameBuffer := f
  have restored : b.restorePixels = a.Memory := memory
  rw [restorePixels_draws font' drawn] at restored
  refine ⟨font,disabled,enabled,drawn,⟨f,g,w,h,k,l⟩,rfl,?_⟩
  show (b.Clear color).restorePixels = _
  rw [@restorePixels_draws (b.Clear color) font' drawn,shown,clear_draws b,clear_draws a]
  show b.mFrameBuffer.draw _ (masked b.mPreviousRenderedPosition (fun x y => b.mPreviousCursorBuffer (x + y * 8)) (b.mFrameBuffer.picture _)) = _
  rw [← restored,← f',draw_draw,draw_draw]
  apply draw_congr
  intro x y column line
  simp only [masked,overlay,mask]
  rw [picture_draw _ _ column line]
  split_ifs with inside covered
  · exact agree _ _ (by omega) (by omega) covered
  all_goals rfl

theorem moveCursor_hidden (hidden : Hidden a b) (dir : Direction) : Hidden (a.MoveCursor dir) (b.MoveCursor dir) := by
  have position : b.mCursorPosition = a.mCursorPosition := hidden.alike.position
  have w : b.mWidth = a.mWidth := hidden.alike.same.mWidth
  have h : b.mHeight = a.mHeight := hidden.alike.same.mHeight
  simp only [MoveCursor]
  rw [position,w,h]
  exact moveTo_hidden hidden _

theorem stepBack_hidden (hidden : Hidden a b) : b.stepBack = a.stepBack := by
  have position : b.mCursorPosition = a.mCursorPosition := hidden.alike.position
  have w : b.mWidth = a.mWidth := hidden.alike.same.mWidth
  simp only [stepBack]
  rw [position,w]

theorem advance_hidden (hidden : Hidden a b) : b.advance = a.advance := by
  have position : b.mCursorPosition = a.mCursorPosition := hidden.alike.position
  have w : b.mWidth = a.mWidth := hidden.alike.same.mWidth
  have h : b.mHeight = a.mHeight := hidden.alike.same.mHeight
  simp only [advance]
  rw [position,w,h]

/-- Where the cursor is after some steps back. -/
def backs (c : PrimitiveConsole) (n : Nat) : sPoint := ((fun c => c.moveTo c.stepBack)^[n] c).mCursorPosition

theorem backs_congr (position : d.mCursorPosition = c.mCursorPosition) (width : d.mWidth = c.mWidth) (n : Nat) :
    d.backs n = c.backs n := by
  induction n generalizing c d with
  | zero => exact position
  | succ n ih =>
    refine ih ?_ width
    show d.stepBack = c.stepBack
    simp only [stepBack]
    rw [position,width]

/-- The cells that are erased do not hide what the cursor covers. -/
def ErasesNone (c : PrimitiveConsole) (n : Nat) : Prop :=
  ∀ i < n, c.Spares 32 c.mForegroundColor (uint (c.backs (i+1)).X) (uint (c.backs (i+1)).Y)

theorem backspaceRounds_hidden (RemoveChar : Bool) (n : Nat) (hidden : Hidden a b) (spares : RemoveChar = true → b.ErasesNone n) :
    Hidden ((backspaceOnce RemoveChar)^[n] a) ((backspaceOnce RemoveChar)^[n] b) := by
  induction n generalizing a b with
  | zero => exact hidden
  | succ n ih =>
    have k : b.mForegroundColor = a.mForegroundColor := hidden.alike.same.mForegroundColor
    have moved := moveTo_hidden hidden a.stepBack
    have once : Hidden (backspaceOnce RemoveChar a) (backspaceOnce RemoveChar b) := by
      simp only [backspaceOnce]
      rw [stepBack_hidden hidden]
      cases RemoveChar with
      | false => exact moved
      | true =>
        have first := spares rfl 0 (by omega)
        have place : b.backs (0+1) = a.stepBack := stepBack_hidden hidden
        rw [place,k] at first
        have put := putChar_hidden moved (show (b.moveTo a.stepBack).Spares 32 a.mForegroundColor _ _ from first)
        simp only [if_true]
        show Hidden _ ((b.moveTo a.stepBack).PutChar 32 b.mForegroundColor b.mBackgroundColor _ _)
        rw [k]
        exact put
    apply ih once
    intro remove i less
    have later := spares remove (i+1) (by omega)
    obtain ⟨same,position⟩ := backspaceOnce_same b RemoveChar
    have place : (backspaceOnce RemoveChar b).backs (i+1) = b.backs (i+1+1) :=
      backs_congr (c := b.moveTo b.stepBack) position same.mWidth (i+1)
    rw [place]
    subst remove
    exact later

theorem backspace_hidden (hidden : Hidden a b) (nBackspace : Int) (RemoveChar : Bool)
    (spares : RemoveChar = true → b.ErasesNone nBackspace.toNat) :
    Hidden (a.Backspace nBackspace RemoveChar) (b.Backspace nBackspace RemoveChar) := by
  have rounds := backspaceRounds_hidden RemoveChar nBackspace.toNat hidden spares
  simp only [Backspace]
  rw [updateCursor_disabled rounds.disabled]
  exact rounds.update

/-- The character does not scroll the screen, and the cursor moves to another cell than the character's. -/
def Prints (c : PrimitiveConsole) : Prop :=
  c.advance.2 = false ∧ c.advance.1 ≠ ⟨uint c.mCursorPosition.X,uint c.mCursorPosition.Y⟩

theorem writeGlyph_hidden (hidden : Hidden a b) (chr : BitVec 8) (color : Color32) (prints : b.Prints) :
    Hidden (a.writeGlyph chr color) (b.writeGlyph chr color) := by
  obtain ⟨still,other⟩ := prints
  have position : b.mCursorPosition = a.mCursorPosition := hidden.alike.position
  rw [advance_hidden hidden] at still other
  rw [position] at other
  have moved := moveTo_hidden hidden a.advance.1
  have drawn : (b.moveTo a.advance.1).UpdateCursor.mPreviousRenderedPosition = a.advance.1 := by
    have on : (b.moveTo a.advance.1).CursorEnabled = true := hidden.enabled
    simp only [UpdateCursor]
    rw [if_pos on]
    rfl
  have spares : (b.moveTo a.advance.1).UpdateCursor.Spares chr color (uint a.mCursorPosition.X) (uint a.mCursorPosition.Y) :=
    .inl (by rw [drawn]; exact other)
  have put := putChar_hidden moved.update spares
  rw [writeGlyph_disabled hidden.disabled]
  unfold writeGlyph
  dsimp only
  rw [advance_hidden hidden,still,position]
  exact put

/-- On the grid, every character but the one in the last cell. -/
theorem prints_iff (inside : c.InBounds) :
    c.Prints ↔ ¬ (c.mCursorPosition.X = c.mWidth - 1 ∧ c.mCursorPosition.Y = c.mHeight - 1) := by
  have columns := c.columns
  have rows := c.rows
  simp only [InBounds] at inside
  have X : ((uint c.mCursorPosition.X : Nat) : Int) = c.mCursorPosition.X := by unfold uint; omega
  have Y : ((uint c.mCursorPosition.Y : Nat) : Int) = c.mCursorPosition.Y := by unfold uint; omega
  unfold Prints advance
  rw [X,Y]
  dsimp only
  split_ifs <;> simp only [ne_eq,sPoint.mk.injEq,false_and,true_and,false_iff,not_not] <;> omega

/-! ### Runs -/

/-- Each call of a list meets the condition in the state it is made in. -/
def Along {α : Type} (f : PrimitiveConsole → α → PrimitiveConsole) (P : PrimitiveConsole → α → Prop) : PrimitiveConsole → List α → Prop
  | _, [] => True
  | c, x :: l => P c x ∧ Along f P (f c x) l

theorem foldl_hidden {α : Type} {f : PrimitiveConsole → α → PrimitiveConsole} {P : PrimitiveConsole → α → Prop}
    (step : ∀ a b x, Hidden a b → P b x → Hidden (f a x) (f b x)) (l : List α) (hidden : Hidden a b) (along : Along f P b l) :
    Hidden (l.foldl f a) (l.foldl f b) := by
  induction l generalizing a b with
  | nil => exact hidden
  | cons x l ih =>
    obtain ⟨first,later⟩ := along
    exact ih (step a b x hidden first) later

/-- A character whose glyph is drawn does not scroll, and neither do the four spaces of a tab. -/
def CharTraceless (color : Color32) (c : PrimitiveConsole) (chr : BitVec 8) : Prop :=
  if chr = 10 ∨ chr = 8 ∨ chr = 0 then True
  else if chr = 9 then Along (fun c chr => c.writeGlyph chr color) (fun c _ => c.Prints) c [32,32,32,32]
  else c.Prints

/-- What a call must not do, for the cursor to leave no trace. -/
def Traceless (c : PrimitiveConsole) : Call → Prop
  | .WriteChar chr color => CharTraceless color c chr
  | .Write str color => Along (fun c chr => c.WriteChar chr color) (CharTraceless color) c (str.takeWhile (· ≠ 0))
  | .WriteLine str color => Along (fun c chr => c.WriteChar chr color) (CharTraceless color) c (str.takeWhile (· ≠ 0))
  | .NewLine _ => True
  | .Backspace nBackspace RemoveChar => RemoveChar = true → c.ErasesNone nBackspace.toNat
  | .Clear color => ∀ x y, x < 8 → y < 16 → cursorPixel x y = true → c.mPreviousCursorBuffer (x + y * 8) = color
  | .MoveCursor _ => True

theorem writeChar_hidden (hidden : Hidden a b) (chr : BitVec 8) (color : Color32) (clean : CharTraceless color b chr) :
    Hidden (a.WriteChar chr color) (b.WriteChar chr color) := by
  simp only [CharTraceless] at clean
  simp only [WriteChar]
  split_ifs with newline back none tab
  · exact newLine_hidden hidden 1
  · exact backspace_hidden hidden 1 false (fun remove => absurd remove Bool.false_ne_true)
  · exact hidden
  · rw [if_neg (by tauto),if_pos tab] at clean
    exact foldl_hidden (fun a b chr hidden prints => writeGlyph_hidden hidden chr color prints) _ hidden clean
  · rw [if_neg (by tauto),if_neg tab] at clean
    exact writeGlyph_hidden hidden chr color clean

theorem write_hidden (hidden : Hidden a b) (str : List (BitVec 8)) (color : Color32)
    (clean : Along (fun c chr => c.WriteChar chr color) (CharTraceless color) b (str.takeWhile (· ≠ 0))) :
    Hidden (a.Write str color) (b.Write str color) :=
  foldl_hidden (fun _ _ chr hidden clean => writeChar_hidden hidden chr color clean) _ hidden clean

theorem call_hidden (a b : PrimitiveConsole) (call : Call) (hidden : Hidden a b) (clean : b.Traceless call) :
    Hidden (a.call call) (b.call call) := by
  cases call with
  | WriteChar chr color => exact writeChar_hidden hidden chr color clean
  | Write str color => exact write_hidden hidden str color clean
  | WriteLine str color => exact newLine_hidden (write_hidden hidden str color clean) 1
  | NewLine lines => exact newLine_hidden hidden lines
  | Backspace nBackspace RemoveChar => exact backspace_hidden hidden nBackspace RemoveChar clean
  | Clear color => exact clear_hidden hidden clean
  | MoveCursor dir => exact moveCursor_hidden hidden dir

/-- A run between `EnableCursor` and `DisableCursor` leaves the memory as the run without the cursor does. -/
theorem run_traceless (font : c.mFont.charsize = 16) (disabled : c.CursorEnabled = false) (calls : List Call)
    (clean : Along call Traceless c.EnableCursor calls) : (c.EnableCursor.run calls).DisableCursor.Memory = (c.run calls).Memory :=
  (foldl_hidden call_hidden calls (enableCursor_hidden font disabled ⟨.rfl,rfl,rfl⟩) clean).alike.Memory

/-! ### A trace -/

/-- What the frame buffer shows with the cursor drawn. -/
theorem updateCursor_shows (font : c.mFont.charsize = 16) (enabled : c.CursorEnabled = true) {x y : Nat}
    (column : x < c.mFrameBuffer.PixelsPerScanline) (line : y < c.mFrameBuffer.Height) : c.UpdateCursor.shown x y =
      masked c.mCursorPosition (fun _ _ => c.mForegroundColor) (c.mFrameBuffer.picture c.restorePixels) x y := by
  simp only [UpdateCursor]
  rw [if_pos enabled,shown]
  dsimp only
  rw [drawCursor_draws font,picture_draw _ _ column line]

/-- What a character that scrolls shows: the row below with the glyph in it. -/
theorem writeGlyph_scrolls (font : c.mFont.charsize = 16) (scrolls : c.advance.2 = true) (chr : BitVec 8) (color : Color32) {x y : Nat}
    (column : x < c.mFrameBuffer.PixelsPerScanline) (line : y + 16 < c.mFrameBuffer.Height) : (c.writeGlyph chr color).shown x y =
      overlay (uint c.mCursorPosition.X * 8) (uint c.mCursorPosition.Y * 16) 8 16 (glyph c.mFont chr color c.mBackgroundColor)
        (c.moveTo c.advance.1).UpdateCursor.shown x (y+16) := by
  obtain ⟨f,g,w,h,k,l⟩ := (moveTo_same c c.advance.1).trans (updateCursor_same _)
  have font' : (c.moveTo c.advance.1).UpdateCursor.mFont.charsize = 16 := by rw [g,font]
  simp only [writeGlyph]
  rw [if_pos scrolls]
  generalize (c.moveTo c.advance.1).UpdateCursor = d at *
  rw [← f] at column line
  rw [← g,← l]
  have scroll := @scrollDown_draws (d.PutChar chr color d.mBackgroundColor (uint c.mCursorPosition.X) (uint c.mCursorPosition.Y))
    (show 0 < d.mFont.charsize by omega) (show d.mFont.charsize ≤ d.mFrameBuffer.Height by omega)
  have put := picture_draw d.Memory (overlay (uint c.mCursorPosition.X * 8) (uint c.mCursorPosition.Y * 16) 8 16
    (glyph d.mFont chr color d.mBackgroundColor) d.shown) column line
  rw [← putChar16 font'] at put
  rw [shown,scroll]
  apply (picture_draw _ _ column (by omega)).trans
  have ahead : y + d.mFont.charsize < d.mFrameBuffer.Height := by omega
  apply (if_pos ahead).trans
  rw [← put]
  show d.mFrameBuffer.picture _ x (y + d.mFont.charsize) = _
  rw [font']

/-- The cursor on the last cell of an empty screen. -/
def lastCell : PrimitiveConsole := (twoByTwo.Clear Color.VeryDarkGray).moveTo ⟨1,1⟩

/-- A line break, a character and a step back. -/
theorem run_traceless_lastCell :
    (lastCell.EnableCursor.run [.NewLine 1,.WriteChar 65 Color.White,.Backspace 1 false]).DisableCursor.Memory =
      (lastCell.run [.NewLine 1,.WriteChar 65 Color.White,.Backspace 1 false]).Memory := by
  have inside : (lastCell.EnableCursor.NewLine 1).InBounds := by
    refine (newLine_settles ((enableCursor_same lastCell).inBounds (enableCursor_position lastCell) ?_) 1).2
    exact ⟨by decide,by decide,by decide,by decide⟩
  have position := (newLine_same lastCell.EnableCursor 1).2
  refine run_traceless rfl rfl [.NewLine 1,.WriteChar 65 Color.White,.Backspace 1 false] ⟨trivial,?_,fun remove => (nomatch remove),trivial⟩
  apply (prints_iff inside).mpr
  intro last
  have first := last.1
  rw [position,(newLine_same lastCell.EnableCursor 1).1.mWidth,(enableCursor_same lastCell).mWidth] at first
  exact absurd first (by decide)

theorem lastCell_hidden : Hidden lastCell lastCell.EnableCursor := enableCursor_hidden rfl rfl ⟨.rfl,rfl,rfl⟩

/-- Without the cursor the line that scrolls up is background. -/
theorem lastCell_plain : (lastCell.writeGlyph 65 Color.White).shown 0 13 = Color.VeryDarkGray := by
  have scrolls : lastCell.advance.2 = true := by decide
  rw [writeGlyph_scrolls rfl scrolls 65 Color.White (by decide) (by decide),overlay,if_neg (by decide),
    updateCursor_disabled rfl]
  show (twoByTwo.Clear Color.VeryDarkGray).shown 0 29 = _
  rw [shown,clear_draws]
  exact picture_draw _ _ (by decide) (by decide)

/-- With it the cursor has scrolled up. -/
theorem lastCell_trace : (lastCell.EnableCursor.writeGlyph 65 Color.White).shown 0 13 = Color.White := by
  have scrolls : lastCell.EnableCursor.advance = (⟨0,1⟩,true) := (advance_hidden lastCell_hidden).trans rfl
  have shows := @updateCursor_shows (lastCell.EnableCursor.moveTo ⟨0,1⟩) rfl rfl 0 29 (by decide) (by decide)
  rw [writeGlyph_scrolls rfl (by rw [scrolls]) 65 Color.White (by decide) (by decide),overlay,if_neg (by decide),scrolls,shows]
  simp only [masked,overlay]
  rw [if_pos (by decide)]
  rfl

theorem run_letter (c : PrimitiveConsole) : c.run [.WriteChar 65 Color.White] = c.writeGlyph 65 Color.White := by
  show c.WriteChar 65 Color.White = _
  simp only [WriteChar]
  rw [if_neg (by decide),if_neg (by decide),if_neg (by decide),if_neg (by decide)]

/-- A character in the last cell scrolls the drawn cursor up with the screen. -/
theorem scroll_trace : (lastCell.EnableCursor.run [.WriteChar 65 Color.White]).DisableCursor.Memory ≠
    (lastCell.run [.WriteChar 65 Color.White]).Memory := by
  intro same
  rw [run_letter,run_letter] at same
  have plain : twoByTwo.mFrameBuffer.picture (lastCell.writeGlyph 65 Color.White).Memory 0 13 = Color.VeryDarkGray := lastCell_plain
  have trace : twoByTwo.mFrameBuffer.picture (lastCell.EnableCursor.writeGlyph 65 Color.White).DisableCursor.Memory 0 13 =
      Color.White := by
    show twoByTwo.mFrameBuffer.picture (lastCell.EnableCursor.writeGlyph 65 Color.White).restorePixels 0 13 = _
    rw [@restorePixels_draws (lastCell.EnableCursor.writeGlyph 65 Color.White) rfl rfl]
    apply (picture_draw _ _ (by decide) (by decide)).trans
    simp only [masked,overlay]
    rw [if_neg (by decide)]
    exact lastCell_trace
  rw [← same,trace] at plain
  exact absurd plain (by decide)

end WaifuOS.Console.PrimitiveConsole
