import Mathlib.Algebra.Group.Int.Defs
import Mathlib.Algebra.Group.Nat.Defs
import Mathlib.Tactic.Common

/-!
Unsigned 64-bit words as natural numbers below `2^64`, with the wrap of their
arithmetic written out. An operation whose exact result is a word is exact
(`wrap_of_lt`, `sub_of_le`). The operations are irreducible, and `sub` has its
constant in front: comparing two records that differ in a word must not count
the constant down.
-/
namespace WaifuOS.Words

/-- A result cut down to 64 bits. -/
@[irreducible] def wrap (x : Nat) : Nat := x % 2^64

/-- The difference of two words, modulo `2^64`. -/
@[irreducible] def sub (x y : Nat) : Nat := (2^64 - y % 2^64 + x) % 2^64

/-- The signed number that a word stands for in two's complement. -/
def signed (x : Nat) : Int := if x < 2^63 then x else (x : Int) - 2^64

theorem wrap_lt (x : Nat) : wrap x < 2^64 := by unfold wrap; omega

theorem wrap_of_lt {x : Nat} (small : x < 2^64) : wrap x = x := by unfold wrap; omega

theorem sub_lt (x y : Nat) : sub x y < 2^64 := by unfold sub; omega

theorem sub_of_le {x y : Nat} (le : y ≤ x) (small : x < 2^64) : sub x y = x-y := by unfold sub; omega

/-- A word is below a small positive number as a signed number when it is below
    it, or when its top bit is set. -/
theorem signed_lt_iff {x n : Nat} (word : x < 2^64) (small : n ≤ 2^63) : signed x < n ↔ x < n ∨ 2^63 ≤ x := by
  simp only [signed]
  split <;> omega

theorem sub_sub_word (x y z : Nat) : sub (sub x y) z = sub x (y+z) := by unfold sub; omega

theorem wrap_wrap_add (x y : Nat) : wrap (wrap x + y) = wrap (x+y) := by unfold wrap; omega

end WaifuOS.Words
