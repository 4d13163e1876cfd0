import WaifuOS.BitMap

/-!
Runs of `Set` on a bitmap. A bit that is in range is a cell of its own: `Set` writes it
and leaves all others, in its byte and in the other bytes (`get_set`). So a run of writes
leaves at each bit what was written there last (`get_setAll`).
-/
namespace WaifuOS.BitMap
open WaifuOS.Words

/-- The number of bits, as the guards of `Get` and `Set` compute it. -/
def bits (bm : BitMap) : Nat := wrap (bm.SizeBytes * 8)

variable {bm : BitMap} {i j : Nat} {value : Bool} {writes : List (Nat × Bool)}

theorem bits_set (bm : BitMap) (i : Nat) (value : Bool) : (bm.Set i value).2.bits = bm.bits := by
  simp only [bits,set_SizeBytes]

theorem set_returns (inside : i < bm.bits) : (bm.Set i value).1 = true := by
  rw [set_accepts]
  exact decide_eq_true (Nat.le_of_lt inside)

/-- What `Get` reads after `Set`. -/
theorem get_set (inside : i < bm.bits) (within : j < bm.bits) :
    (bm.Set i value).2.Get j = if j = i then value else bm.Get j := by
  have kept : j < (bm.Set i value).2.bits := by rwa [bits_set]
  rw [get_of_le (Nat.le_of_lt kept),set_bit (Nat.le_of_lt inside),get_of_le (Nat.le_of_lt within)]

/-- A call of `Set` for each index and value: what the calls return, and the bitmap after them. -/
def setAll (bm : BitMap) : List (Nat × Bool) → List Bool × BitMap
  | [] => ([],bm)
  | (index,value) :: writes =>
    let (returned,bm) := bm.Set index value
    let (later,bm) := bm.setAll writes
    (returned :: later,bm)

/-- The value that was written to the bit `j` last, or else `before`. -/
def lastWritten (j : Nat) (before : Bool) (writes : List (Nat × Bool)) : Bool :=
  ((writes.reverse.find? (fun w => w.1 = j)).map Prod.snd).getD before

theorem lastWritten_cons (j : Nat) (before : Bool) (w : Nat × Bool) (writes : List (Nat × Bool)) :
    lastWritten j before (w :: writes) = lastWritten j (if j = w.1 then w.2 else before) writes := by
  simp only [lastWritten,List.reverse_cons,List.find?_append]
  cases writes.reverse.find? (fun w => w.1 = j) with
  | some last => rfl
  | none =>
    by_cases hit : j = w.1
    · simp [hit]
    · simp [hit,Ne.symm hit]

theorem setAll_returns (inside : ∀ w ∈ writes, w.1 < bm.bits) : (bm.setAll writes).1 = List.replicate writes.length true := by
  induction writes generalizing bm with
  | nil => rfl
  | cons w writes ih =>
    have first : (bm.Set w.1 w.2).1 = true := set_returns (inside w (by simp))
    have later := @ih (bm.Set w.1 w.2).2 (fun v member => by
      rw [bits_set]
      exact inside v (List.mem_cons_of_mem _ member))
    calc (bm.setAll (w :: writes)).1
      _ = (bm.Set w.1 w.2).1 :: ((bm.Set w.1 w.2).2.setAll writes).1 := rfl
      _ = true :: List.replicate writes.length true := by rw [first,later]
      _ = List.replicate (w :: writes).length true := List.replicate_succ.symm

theorem get_setAll (inside : ∀ w ∈ writes, w.1 < bm.bits) (within : j < bm.bits) :
    (bm.setAll writes).2.Get j = lastWritten j (bm.Get j) writes := by
  induction writes generalizing bm with
  | nil => rfl
  | cons w writes ih =>
    have first : (bm.Set w.1 w.2).2.Get j = if j = w.1 then w.2 else bm.Get j := get_set (inside w (by simp)) within
    have later := @ih (bm.Set w.1 w.2).2 (fun v member => by
      rw [bits_set]
      exact inside v (List.mem_cons_of_mem _ member)) (by rwa [bits_set])
    rw [lastWritten_cons,← first,← later]
    rfl

/-- Bits are cells: `Set` writes one, and a run of writes leaves in each what was written last. -/
theorem bits_cells (bm : BitMap) :
    (∀ i j value, i < bm.bits → j < bm.bits →
      (bm.Set i value).1 = true ∧ (bm.Set i value).2.Get j = if j = i then value else bm.Get j) ∧
    ∀ writes : List (Nat × Bool), (∀ w ∈ writes, w.1 < bm.bits) →
      (bm.setAll writes).1 = List.replicate writes.length true ∧
      ∀ j < bm.bits, (bm.setAll writes).2.Get j = lastWritten j (bm.Get j) writes := by
  constructor
  · intro i j value inside within
    exact ⟨set_returns inside,get_set inside within⟩
  · intro writes inside
    exact ⟨setAll_returns inside,fun j within => get_setAll inside within⟩

end WaifuOS.BitMap
