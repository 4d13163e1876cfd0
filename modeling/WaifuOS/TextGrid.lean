import Mathlib.Tactic.SplitIfs

/-!
A grid of characters, as a text terminal is thought of: cells that hold a character
or nothing, a cursor on one of them, and text that scrolls up by one row when it
passes the last one.
-/
namespace WaifuOS.TextGrid

/-- `cell x y` is what column `x` of row `y` holds. -/
structure Grid (α : Type) (width height : Nat) where
  cell : Nat → Nat → Option α
  X : Nat
  Y : Nat
  column : X < width
  row : Y < height

namespace Grid
variable {α : Type} {width height : Nat}

def empty (columns : 0 < width) (rows : 0 < height) : Grid α width height := ⟨fun _ _ => none,0,0,columns,rows⟩

/-- Every row moves up, and the last one is empty. -/
def scroll (g : Grid α width height) : Grid α width height :=
  { g with cell := fun x y => if y + 1 < height then g.cell x (y+1) else none }

/-- To the start of the next row. Past the last one the grid scrolls. -/
def newline (g : Grid α width height) : Grid α width height :=
  if below : g.Y + 1 < height then { g with X := 0, Y := g.Y+1, column := Nat.zero_lt_of_lt g.column, row := below }
  else { g.scroll with X := 0, column := Nat.zero_lt_of_lt g.column }

def put (g : Grid α width height) (a : α) : Grid α width height :=
  { g with cell := fun x y => if x = g.X ∧ y = g.Y then some a else g.cell x y }

/-- Puts the character and moves on, to the next row after the last column. -/
def print (g : Grid α width height) (a : α) : Grid α width height :=
  if right : g.X + 1 < width then { g.put a with X := g.X+1, column := right } else (g.put a).newline

/-- One cell back, also over the start of a row. -/
def back (g : Grid α width height) : Grid α width height :=
  if 0 < g.X then { g with X := g.X-1, column := Nat.lt_of_le_of_lt (Nat.sub_le _ _) g.column }
  else if 0 < g.Y then
    { g with
      X := width-1
      Y := g.Y-1
      column := Nat.sub_one_lt_of_lt g.column
      row := Nat.lt_of_le_of_lt (Nat.sub_le _ _) g.row }
  else g

end Grid

end WaifuOS.TextGrid
