import Mathlib.Logic.Function.Basic

/-!
A memory of blocks. A block is a list of cells that is allocated under a new number and
released as a whole; a place is a number of a block and an offset in it. What is read or
written has to lie in one block, otherwise there is no result. What was read stays there
when a block is allocated (`read_alloc`), and a copy replaces as many cells (`copy_eq`).
-/
namespace WaifuOS.Blocks

structure Place where
  block : Nat
  offset : Nat
deriving DecidableEq

/-- The blocks that are there, and the next number. -/
structure Store (C : Type) where
  cells : Nat → Option (List C)
  next : Nat

namespace Store
variable {C : Type}

/-- The store with other cells in a block. -/
def put (m : Store C) (b : Nat) (cells : List C) : Store C := { m with cells := Function.update m.cells b (some cells) }

/-- A new block with these cells has the number `next`. -/
def alloc (m : Store C) (cells : List C) : Store C := { m.put m.next cells with next := m.next + 1 }

def release (m : Store C) (p : Place) : Option (Store C) :=
  if p.offset = 0 ∧ (m.cells p.block).isSome = true then some { m with cells := Function.update m.cells p.block none } else none

/-- The `n` cells from a place on. -/
def read (m : Store C) (p : Place) (n : Nat) : Option (List C) := do
  let cells ← m.cells p.block
  if p.offset + n ≤ cells.length then some ((cells.drop p.offset).take n) else none

/-- Writes cells from a place on. -/
def write (m : Store C) (p : Place) (values : List C) : Option (Store C) := do
  let cells ← m.cells p.block
  if p.offset + values.length ≤ cells.length then
    some (m.put p.block (cells.take p.offset ++ values ++ cells.drop (p.offset + values.length)))
  else none

def copy (m : Store C) (dest src : Place) (n : Nat) : Option (Store C) := do
  let values ← m.read src n
  m.write dest values

/-- No block has a number that is to come. -/
def Fresh (m : Store C) : Prop := ∀ b, m.next ≤ b → m.cells b = none

variable {m m' : Store C} {cells values front back : List C} {p d : Place} {b n : Nat}

@[simp] theorem alloc_self : (m.alloc cells).cells m.next = some cells := Function.update_self ..
theorem alloc_other (other : b ≠ m.next) : (m.alloc cells).cells b = m.cells b := Function.update_of_ne other _ _
@[simp] theorem alloc_put : (m.alloc cells).put m.next values = m.alloc values := by simp [alloc,put]

theorem Fresh.alloc (fresh : m.Fresh) : (m.alloc cells).Fresh := by
  intro b large
  have new : m.next + 1 ≤ b := large
  rw [alloc_other (by omega)]
  exact fresh b (by omega)

theorem Fresh.put (fresh : m.Fresh) (there : m.cells b ≠ none) : (m.put b values).Fresh := by
  intro c large
  have old : m.cells c = none := fresh c large
  have other : c ≠ b := by
    rintro rfl
    exact there old
  exact (Function.update_of_ne other _ _).trans old

/-- A block that is there is not the next one. -/
theorem Fresh.ne_next (fresh : m.Fresh) (there : m.cells b = some cells) : b ≠ m.next := by
  rintro rfl
  rw [fresh m.next (Nat.le_refl _)] at there
  cases there

/-- Releasing a block that is there. -/
theorem release_eq (there : m.cells b = some cells) :
    m.release ⟨b,0⟩ = some { m with cells := Function.update m.cells b none } :=
  if_pos ⟨rfl,by rw [there]; rfl⟩

theorem Fresh.without (fresh : m.Fresh) : ({ m with cells := Function.update m.cells b none } : Store C).Fresh := by
  intro c large
  by_cases same : c = b
  · subst same
    exact Function.update_self ..
  · exact (Function.update_of_ne same _ _).trans (fresh c large)

theorem read_block (read : m.read p n = some values) : ∃ cells, m.cells p.block = some cells ∧
    p.offset + n ≤ cells.length ∧ values = (cells.drop p.offset).take n := by
  simp only [Store.read,Option.bind_eq_bind,Option.bind_eq_some_iff] at read
  obtain ⟨cells,there,rest⟩ := read
  split at rest
  · exact ⟨cells,there,‹_›,(Option.some.inj rest).symm⟩
  · cases rest

theorem read_eq (there : m.cells p.block = some cells) (inside : p.offset + n ≤ cells.length) :
    m.read p n = some ((cells.drop p.offset).take n) := by
  rw [read,there]
  exact if_pos inside

theorem read_length (read : m.read p n = some values) : values.length = n := by
  obtain ⟨cells,_,inside,rfl⟩ := read_block read
  rw [List.length_take,List.length_drop]
  omega

/-- Whatever keeps the block keeps what is read. -/
theorem read_congr (read : m.read p n = some values) (same : m'.cells p.block = m.cells p.block) :
    m'.read p n = some values := by
  rw [Store.read,same]
  exact read

/-- What was read is there when a block is allocated. -/
theorem read_alloc (fresh : m.Fresh) (read : m.read p n = some values) : (m.alloc cells).read p n = some values := by
  obtain ⟨_,there,_⟩ := read_block read
  exact read_congr read (alloc_other (fresh.ne_next there))

/-- A write replaces as many cells. -/
theorem write_eq (there : m.cells d.block = some (front ++ cells ++ back)) (place : d.offset = front.length)
    (room : cells.length = values.length) : m.write d values = some (m.put d.block (front ++ values ++ back)) := by
  have whole : d.offset + values.length ≤ (front ++ cells ++ back).length := by
    rw [List.length_append,List.length_append]
    omega
  have before : (front ++ cells ++ back).take d.offset = front := by
    rw [place,List.append_assoc,List.take_left]
  have behind : (front ++ cells ++ back).drop (d.offset + values.length) = back := by
    rw [place,← room,← List.length_append,List.drop_left]
  rw [write,there,Option.bind_eq_bind,Option.bind_some,if_pos whole,before,behind]

/-- A copy writes what is read. -/
theorem copy_eq (read : m.read p n = some values) (there : m.cells d.block = some (front ++ cells ++ back))
    (place : d.offset = front.length) (room : cells.length = n) :
    m.copy d p n = some (m.put d.block (front ++ values ++ back)) := by
  rw [copy,read,Option.bind_eq_bind,Option.bind_some,write_eq there place (by rw [room,read_length read])]

end Store
end WaifuOS.Blocks
