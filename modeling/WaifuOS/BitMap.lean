import WaifuOS.Words
import Mathlib.Logic.Function.Basic

/-!
The bitmap of `BitMap.cpp`. Bit `i` is bit `7 - i % 8` of byte `i / 8` (`bit`),
so the first bit of a byte is its highest. `Get` and `Set` refuse indices above
`SizeBytes << 3`, and so let the index `SizeBytes << 3` itself through to the
byte behind the last one.
-/
namespace WaifuOS
open WaifuOS.Words

/-- The pointer `Buffer` as the address `Base` it holds and the memory from there on. -/
structure BitMap where
  SizeBytes : Nat
  Base : Nat
  Buffer : Nat → BitVec 8

namespace BitMap

/-- `BitMap::Get`. -/
def Get (bm : BitMap) (index : Nat) : Bool :=
  if index > wrap (bm.SizeBytes * 8) then false
  else
    let byteIndex := index / 8
    let bitIndex := index % 8
    let bitVal : BitVec 8 := (1#8 <<< 7) >>> bitIndex
    bm.Buffer byteIndex &&& bitVal != 0#8

/-- `BitMap::Set`: whether the index was let through, and the bitmap after it. -/
def Set (bm : BitMap) (index : Nat) (value : Bool) : Bool × BitMap :=
  if index > wrap (bm.SizeBytes * 8) then (false,bm)
  else
    let byteIndex := index / 8
    let bitIndex := index % 8
    let bitVal : BitVec 8 := (BitVec.ofNat 8 value.toNat <<< 7) >>> bitIndex
    let cleared := bm.Buffer byteIndex &&& ~~~((1#8 <<< 7) >>> bitIndex)
    (true,{ bm with Buffer := Function.update bm.Buffer byteIndex (cleared ||| bitVal) })

/-- Bit `i` of the buffer. -/
def bit (bm : BitMap) (i : Nat) : Bool := (bm.Buffer (i / 8)).getLsbD (7 - i % 8)

private theorem mask_bit (k j : Nat) : ((1#8 <<< 7) >>> k).getLsbD j = decide (j + k = 7) := by
  have whole : (1#8 <<< 7 : BitVec 8) = BitVec.twoPow 8 7 := by decide
  rw [whole,BitVec.getLsbD_ushiftRight,BitVec.getLsbD_twoPow]
  rw [Bool.eq_iff_iff]
  simp only [Bool.and_eq_true,decide_eq_true_eq]
  omega

private theorem value_bit (value : Bool) (k j : Nat) :
    ((BitVec.ofNat 8 value.toNat <<< 7) >>> k).getLsbD j = (value && decide (j + k = 7)) := by
  cases value with
  | true => simpa using mask_bit k j
  | false => simp

/-- An index that is let through reads its bit. -/
theorem get_of_le {bm : BitMap} {i : Nat} (inside : i ≤ wrap (bm.SizeBytes * 8)) : bm.Get i = bm.bit i := by
  have masked : ∀ j, (bm.Buffer (i / 8) &&& ((1#8 <<< 7) >>> (i % 8))).getLsbD j =
      ((bm.Buffer (i / 8)).getLsbD j && decide (j + i % 8 = 7)) := by
    intro j; rw [BitVec.getLsbD_and,mask_bit]
  simp only [Get,bit,if_neg (Nat.not_lt.mpr inside)]
  cases read : (bm.Buffer (i / 8)).getLsbD (7 - i % 8) with
  | true =>
    have here := masked (7 - i % 8)
    rw [read,show 7 - i % 8 + i % 8 = 7 by omega] at here
    simp only [bne_iff_ne,ne_eq]
    intro zero
    rw [zero] at here
    simp at here
  | false =>
    simp only [bne_eq_false_iff_eq]
    apply BitVec.eq_of_getLsbD_eq
    intro j _
    rw [masked]
    by_cases hit : j + i % 8 = 7
    · rw [show j = 7 - i % 8 by omega,read]; simp
    · simp [hit]

theorem get_of_gt {bm : BitMap} {i : Nat} (outside : wrap (bm.SizeBytes * 8) < i) : bm.Get i = false := if_pos outside

theorem set_accepts (bm : BitMap) (i : Nat) (value : Bool) :
    (bm.Set i value).1 = decide (i ≤ wrap (bm.SizeBytes * 8)) := by
  simp only [Set]
  split
  · simp; omega
  · simp; omega

theorem set_of_gt {bm : BitMap} {i : Nat} {value : Bool} (outside : wrap (bm.SizeBytes * 8) < i) :
    bm.Set i value = (false,bm) := if_pos outside

@[simp] theorem set_SizeBytes (bm : BitMap) (i : Nat) (value : Bool) : (bm.Set i value).2.SizeBytes = bm.SizeBytes := by
  unfold Set; split <;> rfl

@[simp] theorem set_Base (bm : BitMap) (i : Nat) (value : Bool) : (bm.Set i value).2.Base = bm.Base := by
  unfold Set; split <;> rfl

/-- `Set` writes one bit and no other. -/
theorem set_bit {bm : BitMap} {i : Nat} {value : Bool} (inside : i ≤ wrap (bm.SizeBytes * 8)) (j : Nat) :
    (bm.Set i value).2.bit j = if j = i then value else bm.bit j := by
  simp only [Set,if_neg (Nat.not_lt.mpr inside),bit]
  by_cases sameByte : j / 8 = i / 8
  · rw [sameByte,Function.update_self,BitVec.getLsbD_or,BitVec.getLsbD_and,BitVec.getLsbD_not,mask_bit,
      value_bit]
    by_cases sameBit : j = i
    · subst sameBit
      simp [show 7 - j % 8 + j % 8 = 7 by omega]
    · have apart : ¬ 7 - j % 8 + i % 8 = 7 := by omega
      simp [sameBit,apart,show 7 - j % 8 < 8 by omega]
  · rw [Function.update_of_ne sameByte,if_neg (by rintro rfl; exact sameByte rfl)]

end BitMap
end WaifuOS
