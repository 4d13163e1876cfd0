import WaifuOS.Console

/-!
What the calls of the console draw, as pictures: a glyph over its cell (`putChar_draws`),
the lines below moved up (`scrollDown_draws`), and one colour everywhere
(`clear_draws`).
-/
namespace WaifuOS.Console.PrimitiveConsole
open WaifuOS.Words WaifuOS.Bytes WaifuOS.Console.FrameBuffer

variable {c : PrimitiveConsole}

/-- What the frame buffer shows. -/
def shown (c : PrimitiveConsole) : Picture := c.mFrameBuffer.picture c.Memory

/-- Writing a pixel twice. -/
theorem writePixel_writePixel {fb : FrameBuffer} (m : Mem) (posX posY : Int) (first second : Color32) :
    fb.WritePixel (fb.WritePixel m posX posY first) posX posY second = fb.WritePixel m posX posY second := by
  rw [writePixel_eq,writePixel_eq m,writePixel_eq m,draw_draw]
  apply draw_congr
  intro x y column line
  by_cases here : (x : Int) = posX ∧ (y : Int) = posY
  · rw [if_pos here,if_pos here]
  · rw [if_neg here,if_neg here,picture_draw _ _ column line,if_neg here]

/-- The colours of a character's cell. -/
def glyph (font : Font) (chr : BitVec 8) (fColor bColor : Color32) (x y : Nat) : Option Color32 :=
  some (if glyphPixel font chr x y then fColor else bColor)

theorem putChar_draws (c : PrimitiveConsole) (chr : BitVec 8) (fColor bColor : Color32) (xOff yOff : Nat) :
    (c.PutChar chr fColor bColor xOff yOff).Memory = c.mFrameBuffer.draw c.Memory
      (overlay ((xOff * (c.mFont.charsize >>> 1) : Nat) : Int) ((yOff * c.mFont.charsize : Nat) : Int)
        (c.mFont.charsize >>> 1) c.mFont.charsize (glyph c.mFont chr fColor bColor) c.shown) := by
  have corner : c.ConvertScaledToUnscaled xOff yOff =
      ⟨((xOff * (c.mFont.charsize >>> 1) : Nat) : Int),((yOff * c.mFont.charsize : Nat) : Int)⟩ := by
    rw [ConvertScaledToUnscaled,Nat.cast_mul,Nat.cast_mul]
  simp only [PutChar]
  simp only [corner]
  refine sweep_eq ?_ c.Memory
  intro m x y _ _
  rw [glyph]
  split_ifs
  · rw [writePixel_writePixel,writePixel_eq]; rfl
  · rw [writePixel_eq]; rfl

theorem clear_draws (c : PrimitiveConsole) (color : Color32) :
    (c.Clear color).Memory = c.mFrameBuffer.draw c.Memory (fun _ _ => color) := by
  have lines : (c.Clear color).Memory = c.mFrameBuffer.draw c.Memory
      (fun x y => if 0 ≤ y ∧ y < 0 + c.mFrameBuffer.Height then color else c.shown x y) :=
    scanlines_eq (fun _ _ _ => color) (fun m y _ high => fillScanline_eq m color (by omega)) (fun _ _ _ _ _ _ _ _ => rfl) c.Memory
  rw [lines]
  exact draw_congr (fun x y _ line => if_pos (by omega))

/-- The lines below move up by a row of text, and the last ones are background. -/
def scrolled (c : PrimitiveConsole) (p : Picture) : Picture := fun x y =>
  if y + c.mFont.charsize < c.mFrameBuffer.Height then p x (y + c.mFont.charsize) else c.mBackgroundColor

theorem scrollDown_draws (font : 0 < c.mFont.charsize) (fits : c.mFont.charsize ≤ c.mFrameBuffer.Height) :
    c.ScrollDown.Memory = c.mFrameBuffer.draw c.Memory (c.scrolled c.shown) := by
  have words := c.mFrameBuffer.words
  simp only [ScrollDown]
  simp only [sub_of_le fits (by omega)]
  rw [scanlines_eq (fun p x y => p x (y + c.mFont.charsize))
      (fun m y _ high => copyScanline_eq m font (by omega))
      (fun p q x y _ high _ same => same _ (by omega) (by omega)) c.Memory,
    scanlines_eq (fun _ _ _ => c.mBackgroundColor) (fun m y _ high => fillScanline_eq m c.mBackgroundColor (by omega))
      (fun _ _ _ _ _ _ _ _ => rfl),draw_draw]
  apply draw_congr
  intro x y column line
  simp only [scrolled]
  by_cases copied : y + c.mFont.charsize < c.mFrameBuffer.Height
  · rw [if_neg (by omega),picture_draw _ _ column line,if_pos (by omega),if_pos copied]
    rfl
  · rw [if_pos (by omega),if_neg copied]

/-- Two rows of two cells, with a font whose glyphs fill their cells. -/
def twoByTwo : PrimitiveConsole := construct ⟨0x1000,32,16,by decide,by decide⟩ ⟨16,fun _ => 0xFF,by decide⟩ (fun _ => 0) (fun _ => 0)

end WaifuOS.Console.PrimitiveConsole
