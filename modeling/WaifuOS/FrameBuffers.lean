import WaifuOS.AsmUtils

/-!
The frame buffer: a range of memory with four bytes for each pixel, scanline after
scanline. `draw` writes a whole picture into it, and every access of the console
is such a drawing: a single pixel (`WritePixel_eq`), a scanline that is
copied or filled (`copyScanline_eq`, `fillScanline_eq`) and a rectangle that is
gone over pixel by pixel (`sweep_eq`). Two memories that agree outside the buffer are
compared by their pictures.
-/
namespace WaifuOS.Console
open WaifuOS.Words WaifuOS.Bytes

abbrev Color32 := BitVec 32

def Color.White : Color32 := 0xFFFFFFFF

def Color.Black : Color32 := 0xFF000000

def Color.VeryDarkGray : Color32 := 0xFF080808

/-- The buffer lies within the address space. -/
structure FrameBuffer where
  BaseAddress : Nat
  Height : Nat
  PixelsPerScanline : Nat
  words : Height < 2^32 ∧ PixelsPerScanline < 2^32
  inside : BaseAddress + 4 * (PixelsPerScanline * Height) ≤ 2^64

namespace FrameBuffer
variable {fb : FrameBuffer} {m : Mem}

def WritePixel (fb : FrameBuffer) (m : Mem) (posX posY : Int) (color : Color32) : Mem :=
  if posX ≥ fb.PixelsPerScanline ∨ posX < 0 then m
  else if posY ≥ fb.Height ∨ posY < 0 then m
  else store m (fb.BaseAddress + 4 * (posX + posY * fb.PixelsPerScanline).toNat) 4 color.toNat

def ReadPixel (fb : FrameBuffer) (m : Mem) (posX posY : Int) : Color32 :=
  if posX ≥ fb.PixelsPerScanline ∨ posX < 0 then Color.Black
  else if posY ≥ fb.Height ∨ posY < 0 then Color.Black
  else BitVec.ofNat 32 (load m (fb.BaseAddress + 4 * (posX + posY * fb.PixelsPerScanline).toNat) 4)

/-- `memcpy` of the scanline `charsize` lines further down, as `ScrollDown` does it. -/
def copyScanline (fb : FrameBuffer) (m : Mem) (charsize vScanline : Nat) : Mem :=
  let bytesPerScanline := fb.PixelsPerScanline <<< 2
  memcpy m (wrap (fb.BaseAddress + bytesPerScanline * vScanline))
    (wrap (fb.BaseAddress + bytesPerScanline * (vScanline + charsize))) bytesPerScanline

/-- `memset64` of a scanline with the colour in both halves of the word, as `ScrollDown` and `Clear` do it. -/
def fillScanline (fb : FrameBuffer) (m : Mem) (color : Color32) (vScanline : Nat) : Mem :=
  let bytesPerScanline := fb.PixelsPerScanline <<< 2
  memset64 m (wrap (fb.BaseAddress + bytesPerScanline * vScanline)) (color.toNat ||| color.toNat <<< 32) bytesPerScanline

/-- The colour at each column and line. -/
abbrev Picture := Nat → Nat → Color32

def address (fb : FrameBuffer) (x y : Nat) : Nat := fb.BaseAddress + 4 * (x + y * fb.PixelsPerScanline)

def picture (fb : FrameBuffer) (m : Mem) : Picture := fun x y => BitVec.ofNat 32 (load m (fb.address x y) 4)

/-- The memory with the picture in the buffer. -/
def draw (fb : FrameBuffer) (m : Mem) (p : Picture) : Mem := fun a =>
  if fb.BaseAddress ≤ a ∧ a < fb.BaseAddress + 4 * (fb.PixelsPerScanline * fb.Height) then
    let pixel := (a - fb.BaseAddress) / 4
    BitVec.ofNat 8 ((p (pixel % fb.PixelsPerScanline) (pixel / fb.PixelsPerScanline)).toNat / 256^((a - fb.BaseAddress) % 4))
  else m a

theorem index_lt {x y : Nat} (column : x < fb.PixelsPerScanline) (line : y < fb.Height) :
    x + y * fb.PixelsPerScanline + 1 ≤ fb.PixelsPerScanline * fb.Height := by
  have lines : (y+1) * fb.PixelsPerScanline ≤ fb.Height * fb.PixelsPerScanline := Nat.mul_le_mul_right _ line
  rw [Nat.add_mul,Nat.one_mul,Nat.mul_comm fb.Height] at lines
  omega

/-- Each byte of the buffer belongs to a pixel. -/
theorem address_cases {a : Nat} (low : fb.BaseAddress ≤ a) (high : a < fb.BaseAddress + 4 * (fb.PixelsPerScanline * fb.Height)) :
    ∃ x y i, x < fb.PixelsPerScanline ∧ y < fb.Height ∧ i < 4 ∧ a = fb.address x y + i := by
  have wide : 0 < fb.PixelsPerScanline := by
    by_contra none
    rw [show fb.PixelsPerScanline = 0 by omega,Nat.zero_mul] at high
    omega
  have parts := Nat.mod_add_div ((a - fb.BaseAddress) / 4) fb.PixelsPerScanline
  rw [Nat.mul_comm] at parts
  refine ⟨(a - fb.BaseAddress) / 4 % fb.PixelsPerScanline,(a - fb.BaseAddress) / 4 / fb.PixelsPerScanline,(a - fb.BaseAddress) % 4,
    Nat.mod_lt _ wide,Nat.div_lt_of_lt_mul (by omega),Nat.mod_lt _ (by decide),?_⟩
  simp only [address]
  omega

theorem draw_at (m : Mem) (p : Picture) {x y i : Nat} (column : x < fb.PixelsPerScanline) (line : y < fb.Height) (byte : i < 4) :
    fb.draw m p (fb.address x y + i) = BitVec.ofNat 8 ((p x y).toNat / 256^i) := by
  have last := index_lt column line
  have index : (fb.address x y + i - fb.BaseAddress) / 4 = x + y * fb.PixelsPerScanline := by unfold address; omega
  have offset : (fb.address x y + i - fb.BaseAddress) % 4 = i := by unfold address; omega
  rw [draw,if_pos (by unfold address; omega)]
  simp only [index,offset]
  rw [Nat.add_mul_mod_self_right,Nat.mod_eq_of_lt column,Nat.add_mul_div_right _ _ (by omega),Nat.div_eq_of_lt column,Nat.zero_add]

theorem draw_apart (m : Mem) (p : Picture) {a : Nat}
    (outside : a < fb.BaseAddress ∨ fb.BaseAddress + 4 * (fb.PixelsPerScanline * fb.Height) ≤ a) : fb.draw m p a = m a := by
  rw [draw,if_neg (by omega)]

/-- A memory is the drawing of a picture when it has the bytes of its pixels, and the old bytes outside. -/
theorem eq_draw {m' : Mem} {p : Picture}
    (outside : ∀ a, a < fb.BaseAddress ∨ fb.BaseAddress + 4 * (fb.PixelsPerScanline * fb.Height) ≤ a → m' a = m a)
    (pixels : ∀ x y i, x < fb.PixelsPerScanline → y < fb.Height → i < 4 →
      m' (fb.address x y + i) = BitVec.ofNat 8 ((p x y).toNat / 256^i)) : m' = fb.draw m p := by
  funext a
  by_cases within : fb.BaseAddress ≤ a ∧ a < fb.BaseAddress + 4 * (fb.PixelsPerScanline * fb.Height)
  · obtain ⟨x,y,i,column,line,byte,rfl⟩ := address_cases within.1 within.2
    rw [pixels x y i column line byte,draw_at m p column line byte]
  · rw [outside a (by omega),draw_apart m p (by omega)]

theorem draw_congr {p q : Picture} (same : ∀ x y, x < fb.PixelsPerScanline → y < fb.Height → p x y = q x y) :
    fb.draw m p = fb.draw m q :=
  eq_draw (fun _ outside => draw_apart m p outside) (fun x y i column line byte => by
    rw [draw_at m p column line byte,same x y column line])

theorem draw_draw (m : Mem) (p q : Picture) : fb.draw (fb.draw m p) q = fb.draw m q :=
  eq_draw (fun _ outside => by rw [draw_apart _ q outside,draw_apart m p outside])
    (fun x y i column line byte => draw_at _ q column line byte)

/-- The bytes of a pixel. -/
theorem picture_byte (m : Mem) (x y : Nat) {i : Nat} (byte : i < 4) :
    BitVec.ofNat 8 ((fb.picture m x y).toNat / 256^i) = m (fb.address x y + i) := by
  have small := load_lt m (fb.address x y) 4
  rw [picture,BitVec.toNat_ofNat,Nat.mod_eq_of_lt (by omega),load_byte m _ byte]

theorem draw_picture (m : Mem) : fb.draw m (fb.picture m) = m :=
  (eq_draw (fun _ _ => rfl) (fun x y _ _ _ byte => (picture_byte m x y byte).symm)).symm

/-- A picture that the buffer shows already. -/
theorem eq_draw_self {p : Picture} (same : ∀ x y, x < fb.PixelsPerScanline → y < fb.Height → p x y = fb.picture m x y) :
    m = fb.draw m p :=
  (draw_picture m).symm.trans (draw_congr (fun x y column line => (same x y column line).symm))

theorem picture_draw (m : Mem) (p : Picture) {x y : Nat} (column : x < fb.PixelsPerScanline) (line : y < fb.Height) :
    fb.picture (fb.draw m p) x y = p x y := by
  have bytes : load (fb.draw m p) (fb.address x y) 4 = load (store m (fb.address x y) 4 (p x y).toNat) (fb.address x y) 4 := by
    apply load_congr
    intro a low high
    obtain ⟨i,rfl⟩ := Nat.exists_eq_add_of_le low
    rw [draw_at m p column line (by omega),store_at (by omega)]
  rw [picture,bytes,load_store]
  exact BitVec.eq_of_toNat_eq (by rw [BitVec.toNat_ofNat]; have := (p x y).isLt; omega)

/-- Pixels of different places do not share a byte. -/
theorem address_inj {x y x' y' i j : Nat} (column : x < fb.PixelsPerScanline) (column' : x' < fb.PixelsPerScanline) (byte : i < 4)
    (byte' : j < 4) (same : fb.address x y + i = fb.address x' y' + j) : x = x' ∧ y = y' ∧ i = j := by
  have index : x + y * fb.PixelsPerScanline = x' + y' * fb.PixelsPerScanline := by unfold address at same; omega
  have columns := congrArg (· % fb.PixelsPerScanline) index
  simp only [Nat.add_mul_mod_self_right,Nat.mod_eq_of_lt column,Nat.mod_eq_of_lt column'] at columns
  have lines : y * fb.PixelsPerScanline = y' * fb.PixelsPerScanline := by omega
  exact ⟨columns,Nat.eq_of_mul_eq_mul_right (by omega) lines,by unfold address at same; omega⟩

theorem writePixel_eq (m : Mem) (posX posY : Int) (color : Color32) :
    fb.WritePixel m posX posY color =
      fb.draw m (fun x y => if (x : Int) = posX ∧ (y : Int) = posY then color else fb.picture m x y) := by
  have missed (away : ∀ x y : Nat, x < fb.PixelsPerScanline → y < fb.Height → ¬ ((x : Int) = posX ∧ (y : Int) = posY)) :
      m = fb.draw m (fun x y => if (x : Int) = posX ∧ (y : Int) = posY then color else fb.picture m x y) :=
    eq_draw_self (fun x y column line => by rw [if_neg (away x y column line)])
  rw [WritePixel]
  split_ifs with columns lines
  · exact missed (by omega)
  · exact missed (by omega)
  · obtain ⟨X,rfl⟩ := Int.eq_ofNat_of_zero_le (show 0 ≤ posX by omega)
    obtain ⟨Y,rfl⟩ := Int.eq_ofNat_of_zero_le (show 0 ≤ posY by omega)
    have column : X < fb.PixelsPerScanline := by omega
    have line : Y < fb.Height := by omega
    have last := index_lt column line
    have place : fb.BaseAddress + 4 * ((X : Int) + (Y : Int) * (fb.PixelsPerScanline : Int)).toNat = fb.address X Y := by
      rw [address,← Nat.cast_mul,← Nat.cast_add,Int.toNat_natCast]
    rw [place]
    refine eq_draw (fun a outside => store_apart (by unfold address; omega)) ?_
    intro x y i column' line' byte
    by_cases here : x = X ∧ y = Y
    · obtain ⟨rfl,rfl⟩ := here
      rw [store_at byte,if_pos ⟨rfl,rfl⟩]
    · rw [if_neg (by omega),picture_byte m x y byte]
      apply store_apart
      by_contra within
      obtain ⟨j,moved⟩ := Nat.exists_eq_add_of_le (show fb.address X Y ≤ fb.address x y + i by omega)
      obtain ⟨rfl,rfl,_⟩ := address_inj column' column byte (by omega) moved
      exact here ⟨rfl,rfl⟩

theorem readPixel_eq (m : Mem) {x y : Nat} (column : x < fb.PixelsPerScanline) (line : y < fb.Height) :
    fb.ReadPixel m x y = fb.picture m x y := by
  rw [ReadPixel,if_neg (by omega),if_neg (by omega),picture,address,← Nat.cast_mul,← Nat.cast_add,Int.toNat_natCast]

theorem scanline_lt {y : Nat} (line : y < fb.Height) :
    fb.PixelsPerScanline * y + fb.PixelsPerScanline ≤ fb.PixelsPerScanline * fb.Height := by
  rw [← Nat.mul_succ]
  exact Nat.mul_le_mul_left _ line

theorem address_scanline (x y : Nat) : fb.address x y = fb.BaseAddress + fb.PixelsPerScanline <<< 2 * y + 4 * x := by
  rw [address,Nat.shiftLeft_eq,Nat.mul_comm y]
  ring

/-- Writing the bytes of a scanline draws it. -/
theorem fill_scanline {y : Nat} (line : y < fb.Height) {f : Nat → BitVec 8} {row : Nat → Color32}
    (bytes : ∀ x i, x < fb.PixelsPerScanline → i < 4 → f (4*x+i) = BitVec.ofNat 8 ((row x).toNat / 256^i)) :
    fill m (fb.BaseAddress + fb.PixelsPerScanline <<< 2 * y) (fb.PixelsPerScanline <<< 2) f =
      fb.draw m (fun x y' => if y' = y then row x else fb.picture m x y') := by
  have last := scanline_lt line
  have start : fb.PixelsPerScanline <<< 2 * y = 4 * (fb.PixelsPerScanline * y) := by rw [Nat.shiftLeft_eq]; ring
  have size : fb.PixelsPerScanline <<< 2 = 4 * fb.PixelsPerScanline := by rw [Nat.shiftLeft_eq]; ring
  refine eq_draw (fun a outside => fill_apart (by omega)) ?_
  intro x y' i column line' byte
  by_cases here : y' = y
  · subst here
    have place := @address_scanline fb x y'
    rw [if_pos rfl,fill_at (by omega) (by omega),← bytes x i column byte]
    congr 1
    omega
  · rw [if_neg here,picture_byte m x y' byte]
    apply fill_apart
    have below := scanline_lt line'
    rcases Nat.lt_or_gt_of_ne here with less | more
    · have rows : fb.PixelsPerScanline * y' + fb.PixelsPerScanline ≤ fb.PixelsPerScanline * y := by
        rw [← Nat.mul_succ]; exact Nat.mul_le_mul_left _ less
      rw [address,Nat.mul_comm y']
      omega
    · have rows : fb.PixelsPerScanline * y + fb.PixelsPerScanline ≤ fb.PixelsPerScanline * y' := by
        rw [← Nat.mul_succ]; exact Nat.mul_le_mul_left _ more
      rw [address,Nat.mul_comm y']
      omega

theorem copyScanline_eq (m : Mem) {charsize y : Nat} (font : 0 < charsize) (line : y + charsize < fb.Height) :
    fb.copyScanline m charsize y =
      fb.draw m (fun x y' => if y' = y then fb.picture m x (y + charsize) else fb.picture m x y') := by
  have space := fb.inside
  have last := scanline_lt line
  have size : fb.PixelsPerScanline <<< 2 = 4 * fb.PixelsPerScanline := by rw [Nat.shiftLeft_eq]; ring
  have start (n : Nat) : fb.PixelsPerScanline <<< 2 * n = 4 * (fb.PixelsPerScanline * n) := by rw [Nat.shiftLeft_eq]; ring
  have rows : fb.PixelsPerScanline * y + fb.PixelsPerScanline ≤ fb.PixelsPerScanline * (y + charsize) := by
    rw [← Nat.mul_succ]; exact Nat.mul_le_mul_left _ (by omega)
  have from' := start y
  have ahead := start (y + charsize)
  -- An empty scanline at the end of the address space would wrap, but nothing is copied there.
  rcases Nat.eq_zero_or_pos fb.PixelsPerScanline with none | wide
  · have empty : fb.PixelsPerScanline <<< 2 = 0 := by omega
    have nothing : fb.copyScanline m charsize y = m := by
      simp only [copyScanline,memcpy]
      simp only [empty]
      rfl
    rw [nothing]
    exact eq_draw_self (fun x y column _ => by omega)
  · unfold copyScanline
    dsimp only
    rw [wrap_of_lt (by omega),wrap_of_lt (by omega),memcpy_eq (by omega) (by omega) (.inl (by omega))]
    apply fill_scanline (by omega)
    intro x i column byte
    rw [picture_byte m x (y + charsize) byte,address_scanline,Nat.add_assoc _ (4*x)]

/-- The word that `memset64` repeats holds the colour in each half. -/
theorem pattern_color (color : Color32) (x : Nat) {i : Nat} (byte : i < 4) :
    pattern (color.toNat ||| color.toNat <<< 32) (4*x+i) = BitVec.ofNat 8 (color.toNat / 256^i) := by
  have small := color.isLt
  have both : color.toNat ||| color.toNat <<< 32 = color.toNat + color.toNat * 2^32 := by
    rw [Nat.or_comm,← Nat.shiftLeft_add_eq_or_of_lt small,Nat.shiftLeft_eq,Nat.add_comm]
  rw [pattern,both]
  generalize color.toNat = c at small
  apply BitVec.eq_of_toNat_eq
  simp only [BitVec.toNat_ofNat]
  rcases Nat.mod_two_eq_zero_or_one x with even | odd
  · rw [show (4*x+i) % 8 = i by omega]
    obtain ⟨k,rest⟩ := Nat.exists_eq_add_of_lt byte
    have top : c * 2^32 = 256^i * (256 * (256^k * c)) := by
      rw [← Nat.mul_assoc,← Nat.mul_assoc,← pow_succ,← pow_add,show i + 1 + k = 4 by omega,Nat.mul_comm,show 2^32 = 256^4 by norm_num]
    rw [top,Nat.add_mul_div_left _ _ (Nat.pow_pos (by decide))]
    omega
  · have up : (c + c * 2^32) / 256^4 = c := by
      rw [show (256^4 : Nat) = 2^32 by norm_num]
      omega
    rw [show (4*x+i) % 8 = 4 + i by omega,pow_add,← Nat.div_div_eq_div_mul,up]

theorem fillScanline_eq (m : Mem) (color : Color32) {y : Nat} (line : y < fb.Height) :
    fb.fillScanline m color y = fb.draw m (fun x y' => if y' = y then color else fb.picture m x y') := by
  have space := fb.inside
  have last := scanline_lt line
  have size : fb.PixelsPerScanline <<< 2 = 4 * fb.PixelsPerScanline := by rw [Nat.shiftLeft_eq]; ring
  have start : fb.PixelsPerScanline <<< 2 * y = 4 * (fb.PixelsPerScanline * y) := by rw [Nat.shiftLeft_eq]; ring
  rcases Nat.eq_zero_or_pos fb.PixelsPerScanline with none | wide
  · have empty : fb.PixelsPerScanline <<< 2 = 0 := by omega
    have nothing : fb.fillScanline m color y = m := by
      unfold fillScanline memset64
      simp only [empty]
      rfl
    rw [nothing]
    exact eq_draw_self (fun x y column _ => by omega)
  · unfold fillScanline
    dsimp only
    rw [wrap_of_lt (by omega),memset64_eq (by omega)]
    exact fill_scanline line (fun x i _ byte => pattern_color color x byte)

/-- Scanlines that are written one after another, each from itself and those below it. -/
theorem scanlines_eq {step : Mem → Nat → Mem} (row : Picture → Nat → Nat → Color32) {start n : Nat}
    (steps : ∀ m y, start ≤ y → y < start + n →
      step m y = fb.draw m (fun x y' => if y' = y then row (fb.picture m) x y else fb.picture m x y'))
    (below : ∀ p q x y, start ≤ y → y < start + n → x < fb.PixelsPerScanline →
      (∀ y', y ≤ y' → y' < fb.Height → p x y' = q x y') → row p x y = row q x y) (m : Mem) :
    (List.range' start n).foldl step m =
      fb.draw m (fun x y => if start ≤ y ∧ y < start + n then row (fb.picture m) x y else fb.picture m x y) := by
  have first (k : Nat) (le : k ≤ n) : (List.range' start k).foldl step m =
      fb.draw m (fun x y => if start ≤ y ∧ y < start + k then row (fb.picture m) x y else fb.picture m x y) := by
    induction k with
    | zero =>
      rw [List.range'_zero,List.foldl_nil]
      exact eq_draw_self (fun x y _ _ => by rw [if_neg (by omega)])
    | succ k ih =>
      rw [List.range'_concat,Nat.one_mul,List.foldl_append,ih (by omega),List.foldl_cons,List.foldl_nil,
        steps _ _ (by omega) (by omega),draw_draw]
      apply draw_congr
      intro x y column line
      by_cases here : y = start + k
      · subst here
        rw [if_pos rfl,if_pos (by omega)]
        apply below _ _ x _ (by omega) (by omega) column
        intro y' low high
        rw [picture_draw _ _ column high,if_neg (by omega)]
      · rw [if_neg here,picture_draw _ _ column line]
        by_cases before : start ≤ y ∧ y < start + k
        · rw [if_pos before,if_pos (by omega)]
        · rw [if_neg before,if_neg (by omega)]
  exact first n le_rfl

/-- For each line from 0 and in it for each column from 0. -/
def eachPixel {α : Type} (width height : Nat) (step : α → Nat → Nat → α) (s : α) : α :=
  (List.range height).foldl (fun s y => (List.range width).foldl (fun s x => step s x y) s) s

/-- What each round of the loop preserves, with the number of columns done in the line and of lines done. -/
theorem eachPixel_induction {α : Type} {width height : Nat} {step : α → Nat → Nat → α} (P : Nat → Nat → α → Prop)
    (pixel : ∀ s x y, x < width → y < height → P x y s → P (x+1) y (step s x y))
    (line : ∀ s y, y < height → P width y s → P 0 (y+1) s) {s : α} (start : P 0 0 s) :
    P 0 height (eachPixel width height step s) := by
  have columns (y : Nat) (less : y < height) (k : Nat) (le : k ≤ width) (s : α) (before : P 0 y s) :
      P k y ((List.range k).foldl (fun s x => step s x y) s) := by
    induction k with
    | zero => exact before
    | succ k ih =>
      rw [List.range_succ,List.foldl_append]
      exact pixel _ k y (by omega) less (ih (by omega))
  have lines (k : Nat) (le : k ≤ height) :
      P 0 k ((List.range k).foldl (fun s y => (List.range width).foldl (fun s x => step s x y) s) s) := by
    induction k with
    | zero => exact start
    | succ k ih =>
      rw [List.range_succ,List.foldl_append]
      exact line _ k (by omega) (columns k (by omega) width le_rfl _ (ih (by omega)))
  exact lines height le_rfl

/-- The first part of a state, when each round computes it from the first part alone. -/
theorem eachPixel_fst {α β : Type} {width height : Nat} (step : α × β → Nat → Nat → α × β) (first : α → Nat → Nat → α)
    (same : ∀ s x y, (step s x y).1 = first s.1 x y) (s : α × β) :
    (eachPixel width height step s).1 = eachPixel width height first s.1 := by
  simp only [eachPixel]
  have columns (y : Nat) (l : List Nat) (s : α × β) : (l.foldl (fun s x => step s x y) s).1 = l.foldl (fun s x => first s x y) s.1 :=
    (List.foldl_hom Prod.fst (fun s x => (same s x y).symm)).symm
  exact (List.foldl_hom Prod.fst (fun s y => (columns y _ s).symm)).symm

/-- The picture with `f` over the rectangle of the given place and size, where `f` has a colour. -/
def overlay (X Y : Int) (width height : Nat) (f : Nat → Nat → Option Color32) (p : Picture) : Picture := fun x y =>
  if X ≤ x ∧ x < X + width ∧ Y ≤ y ∧ y < Y + height then (f (x-X).toNat (y-Y).toNat).getD (p x y) else p x y

theorem overlay_congr {X Y : Int} {width height : Nat} {f : Nat → Nat → Option Color32} {p q : Picture} {x y : Nat}
    (same : p x y = q x y) : overlay X Y width height f p x y = overlay X Y width height f q x y := by
  rw [overlay,overlay,same]

/-- What a round of a loop over a rectangle draws at its pixel. -/
def dot (X Y : Int) (color : Option Color32) (p : Picture) : Picture := fun x y =>
  if (x : Int) = X ∧ (y : Int) = Y then color.getD (p x y) else p x y

/-- A rectangle is drawn pixel by pixel. -/
theorem sweep_eq {X Y : Int} {width height : Nat} {f : Nat → Nat → Option Color32} {step : Mem → Nat → Nat → Mem}
    (steps : ∀ m x y, x < width → y < height → step m x y = fb.draw m (dot (X+x) (Y+y) (f x y) (fb.picture m))) (m : Mem) :
    eachPixel width height step m = fb.draw m (overlay X Y width height f (fb.picture m)) := by
  -- The pixels in the lines before and in the columns before of the line.
  let part (x y : Nat) : Picture := fun a b =>
    if X ≤ a ∧ a < X + width ∧ Y ≤ b ∧ (b < Y + y ∨ b = Y + y ∧ a < X + x) then (f (a-X).toNat (b-Y).toNat).getD (fb.picture m a b)
    else fb.picture m a b
  have whole : eachPixel width height step m = fb.draw m (part 0 height) := by
    refine eachPixel_induction (fun x y m' => m' = fb.draw m (part x y)) ?_ ?_ ?_
    · rintro _ x y column line rfl
      rw [steps _ x y column line,draw_draw]
      apply draw_congr
      intro a b column' line'
      rw [dot,picture_draw _ _ column' line']
      dsimp only [part]
      by_cases here : (a : Int) = X + x ∧ (b : Int) = Y + y
      · rw [if_pos here,if_neg (by omega),if_pos (by omega),show ((a : Int) - X).toNat = x by omega,
          show ((b : Int) - Y).toNat = y by omega]
      · rw [if_neg here]
        by_cases before : X ≤ a ∧ a < X + width ∧ Y ≤ b ∧ (b < Y + y ∨ b = Y + y ∧ a < X + x)
        · rw [if_pos before,if_pos (by omega)]
        · rw [if_neg before,if_neg (by omega)]
    · rintro _ y _ rfl
      apply draw_congr
      intro a b _ _
      dsimp only [part]
      by_cases before : X ≤ a ∧ a < X + width ∧ Y ≤ b ∧ (b < Y + y ∨ b = Y + y ∧ a < X + width)
      · rw [if_pos before,if_pos (by omega)]
      · rw [if_neg before,if_neg (by omega)]
    · exact eq_draw_self (fun a b _ _ => if_neg (by omega))
  rw [whole]
  apply draw_congr
  intro a b _ _
  dsimp only [part,overlay]
  by_cases inside : X ≤ a ∧ a < X + width ∧ Y ≤ b ∧ b < Y + height
  · rw [if_pos inside,if_pos (by omega)]
  · rw [if_neg inside,if_neg (by omega)]

end FrameBuffer

end WaifuOS.Console
