import WaifuOS.AsmUtils
import WaifuOS.Texts
import Mathlib.Data.BitVec
import Mathlib.Data.Nat.Digits.Lemmas
import Mathlib.Tactic.IntervalCases

/-!
The texts of numbers. `ToString` writes the digits of a number from the lowest on into a static
buffer and reverses them through another one; `ToInt` reads them back. What `ToString` leaves
depends on the number only (`toString_told`), and `ToInt` of it is the number again, also for
the lowest number, whose negation wraps (`toInt_toString`). The digits of that number come
from negative remainders, and it alone is not shown as a decimal numeral
(`toString_canonical_iff`).
-/
namespace WaifuOS.cstr
open WaifuOS.Words WaifuOS.Bytes

/-- Where the static buffers of `cstr.cpp` are. -/
structure Statics where
  hexBuffer : Nat
  strBuffer : Nat
  revBuffer : Nat
  formatBuffer : Nat
  hex_str : Apart hexBuffer 32 strBuffer 32
  hex_rev : Apart hexBuffer 32 revBuffer 256
  hex_format : Apart hexBuffer 32 formatBuffer 512
  str_rev : Apart strBuffer 32 revBuffer 256
  str_format : Apart strBuffer 32 formatBuffer 512
  rev_format : Apart revBuffer 256 formatBuffer 512
  hex_inside : hexBuffer + 32 ≤ 2^64
  str_inside : strBuffer + 32 ≤ 2^64
  rev_inside : revBuffer + 256 ≤ 2^64
  format_inside : formatBuffer + 512 ≤ 2^64

/-- The loop of `Reverse` until `reverseIndex` is 0. -/
def reverseLoop (m : Mem) (revBuffer str index : Nat) : Nat → Mem
  | 0 => m
  | reverseIndex+1 =>
    reverseLoop (Function.update m (revBuffer + reverseIndex) (m (str + index))) revBuffer str ((index+1) % 256) reverseIndex

def Reverse (S : Statics) (fuel : Nat) (m : Mem) (str length : Nat) : Option Mem := do
  let length ← if length = 0 then strlen m str fuel else some length
  if length > 255 then some m
  else
    let m := reverseLoop m S.revBuffer str 0 (length % 256)
    some (memcpy m str S.revBuffer length)

/-- The loops of `_ToStr` and `_ToHex`: a digit is written and the rest of the number goes on. -/
def digitLoop (digit : BitVec 64 → BitVec 8) (rest : BitVec 64 → BitVec 64) (m : Mem) (buffer : Nat) (num : BitVec 64)
    (index : Nat) : Nat → Option Mem
  | 0 => none
  | fuel+1 =>
    if num = 0 then some m
    else digitLoop digit rest (Function.update m (buffer + index) (digit num)) buffer (rest num) ((index+1) % 256) fuel

/-- `_ToStr`. Both the remainder and the quotient are signed. -/
def ToStr (S : Statics) (fuel : Nat) (m : Mem) (num : BitVec 64) : Option (Nat × Mem) :=
  let m := memset64 m S.strBuffer 0 32
  if num = 0 then some (S.strBuffer,Function.update m S.strBuffer 0x30)
  else do
    let (m,buffer,num) :=
      if num.slt 0 then (Function.update m S.strBuffer 0x2D,S.strBuffer + 1,num * -1) else (m,S.strBuffer,num)
    let m ← digitLoop (fun num => (num.srem 10 + 0x30).setWidth 8) (·.sdiv 10) m buffer num 0 fuel
    let m ← Reverse S fuel m buffer 0
    some (S.strBuffer,m)

/-- The character that `_ToHex` writes for the low digit. -/
def hexChar (num : BitVec 64) : BitVec 8 :=
  let val := (num % 0x10).setWidth 8
  if val > 9 then val + 0x37 else val + 0x30

/-- `_ToHex`. A single digit gets a zero behind it before the digits are reversed. -/
def ToHex (S : Statics) (fuel : Nat) (m : Mem) (num : BitVec 64) : Option (Nat × Mem) :=
  let m := memset64 m S.hexBuffer 0 32
  let m := Function.update m S.hexBuffer 0x30
  let m := Function.update m (S.hexBuffer + 1) 0x78
  let buffer := S.hexBuffer + 2
  if num = 0 then some (S.hexBuffer,Function.update (Function.update m buffer 0x30) (buffer + 1) 0x30)
  else do
    let m := if num < 0x10 then Function.update m (buffer + 1) 0x30 else m
    let m ← digitLoop hexChar (· / 0x10) m buffer num 0 fuel
    let m ← Reverse S fuel m buffer 0
    some (S.hexBuffer,m)

/-- `ToString`: the buffer that holds the text, and the memory. -/
def ToString (S : Statics) (fuel : Nat) (m : Mem) (num : BitVec 64) (hex : Bool) : Option (Nat × Mem) :=
  if hex then ToHex S fuel m num else ToStr S fuel m num

/-- `_ToIntBase10`, for the characters before the terminator. -/
def ToIntBase10 (str : List (BitVec 8)) : BitVec 64 :=
  let isNegative := str.getD 0 0 = 0x2D
  let buffer := if isNegative then str.drop 1 else str
  let value := buffer.foldl (fun value c => value * 10 + (c.signExtend 64 - 0x30)) 0
  if isNegative then value * -1 else value

/-- `_ToIntBase16`, for the characters before the terminator. -/
def ToIntBase16 (str : List (BitVec 8)) : BitVec 64 :=
  let buffer := if str.length ≥ 2 ∧ str.getD 0 0 = 0x30 ∧ (str.getD 1 0 = 0x78 ∨ str.getD 1 0 = 0x58) then str.drop 2 else str
  buffer.foldl (fun value c => value * 0x10 + (if c.toInt > 0x39 then c.signExtend 64 - 0x37 else c.signExtend 64 - 0x30)) 0

def ToInt (str : List (BitVec 8)) (hex : Bool) : BitVec 64 := if hex then ToIntBase16 str else ToIntBase10 str

variable {S : Statics} {m : Mem} {fuel buffer index d : Nat} {n : BitVec 64}

/-- `reverseLoop` copies a range backwards. -/
theorem reverseLoop_eq {revBuffer str n : Nat} (apart : Apart revBuffer n (str + index) n) (short : index + n ≤ 255) :
    reverseLoop m revBuffer str index n = fill m revBuffer n (fun i => m (str + (index + n - 1 - i))) := by
  simp only [Apart] at apart
  induction n generalizing m index with
  | zero => rw [reverseLoop,fill_zero]
  | succ n ih =>
    rw [reverseLoop,Nat.mod_eq_of_lt (by omega),ih (by omega) (by omega)]
    funext x
    by_cases outside : x < revBuffer ∨ revBuffer + (n+1) ≤ x
    · rw [fill_apart (by omega),fill_apart outside,Function.update_of_ne (by omega)]
    · obtain ⟨i,rfl⟩ := Nat.exists_eq_add_of_le (show revBuffer ≤ x by omega)
      rw [fill_at (n := n+1) (by omega) (by omega),Nat.add_sub_cancel_left]
      by_cases last : i = n
      · subst last
        rw [fill_apart (by omega),Function.update_self,show index + (i+1) - 1 - i = index by omega]
      · rw [fill_at (by omega) (by omega),Nat.add_sub_cancel_left,Function.update_of_ne (by omega),
          show index + 1 + n - 1 - i = index + (n+1) - 1 - i by omega]

/-- `Reverse` reverses a text, and leaves it in `revBuffer` also. -/
theorem reverse_eq {str : Nat} {s : List (BitVec 8)} (text : Text m str s) (apart : Apart str s.length S.revBuffer 256)
    (bound : str + s.length ≤ 2^64) (short : s.length ≤ 255) (enough : s.length < fuel) :
    Reverse S fuel m str 0 = some (place (place m S.revBuffer s.reverse) str s.reverse) := by
  have inside := S.rev_inside
  simp only [Apart] at apart
  have reversed : reverseLoop m S.revBuffer str 0 s.length = place m S.revBuffer s.reverse := by
    rw [reverseLoop_eq (by unfold Apart; omega) (by omega),place,List.length_reverse]
    apply fill_congr
    intro i small
    rw [Nat.zero_add,text.2 _ (by omega),List.getD_eq_getElem _ _ (by omega),
      List.getD_eq_getElem _ _ (by rwa [List.length_reverse]),List.getElem_reverse]
  have copied : memcpy (place m S.revBuffer s.reverse) str S.revBuffer s.length =
      place (place m S.revBuffer s.reverse) str s.reverse := by
    rw [memcpy_eq bound (by omega) (by unfold Forward; omega)]
    nth_rewrite 3 [place]
    rw [List.length_reverse]
    exact fill_congr (fun i small => place_at (by rwa [List.length_reverse]))
  simp only [Reverse,if_pos,strlen_text text enough,Option.bind_eq_bind,Option.bind_some]
  rw [if_neg (by omega),Nat.mod_eq_of_lt (by omega),reversed,copied]

/-- How `digitLoop` takes numbers up to `K` apart: `rep k` stands for `k`. -/
structure Numbering (b : Nat) (digit : BitVec 64 → BitVec 8) (rest : BitVec 64 → BitVec 64) (rep : Nat → BitVec 64)
    (char : Nat → BitVec 8) (K : Nat) : Prop where
  base : 1 < b
  zero : ∀ k ≤ K, rep k = 0 ↔ k = 0
  digit : ∀ k ≤ K, digit (rep k) = char (k % b)
  rest : ∀ k ≤ K, rest (rep k) = rep (k / b)

/-- `digitLoop` writes the digits from the lowest on. -/
theorem digitLoop_eq (m : Mem) (fuel buffer index : Nat) {b K k : Nat} {digit : BitVec 64 → BitVec 8} {rest : BitVec 64 → BitVec 64} {rep : Nat → BitVec 64}
    {char : Nat → BitVec 8} (numbering : Numbering b digit rest rep char K) (le : k ≤ K)
    (enough : (Nat.digits b k).length < fuel) (short : index + (Nat.digits b k).length ≤ 255) :
    digitLoop digit rest m buffer (rep k) index fuel = some (place m (buffer + index) ((Nat.digits b k).map char)) := by
  induction fuel generalizing m k index with
  | zero => omega
  | succ fuel ih =>
    rw [digitLoop]
    by_cases zero : k = 0
    · subst zero
      rw [if_pos ((numbering.zero 0 le).mpr rfl)]
      simp
    · have digits : Nat.digits b k = k % b :: Nat.digits b (k/b) := Nat.digits_def' numbering.base (by omega)
      have less : k/b ≤ k := Nat.div_le_self k b
      rw [digits,List.length_cons] at enough short
      rw [if_neg (fun same => zero ((numbering.zero k le).mp same)),numbering.digit k le,numbering.rest k le,
        Nat.mod_eq_of_lt (show index + 1 < 256 by omega),ih _ _ (by omega) (by omega) (by omega),digits,List.map_cons,← place_cons,Nat.add_assoc]

/-- The character of a decimal digit; of the lowest number, all digits are negative. -/
def decimalChar (sign : Int) (d : Nat) : BitVec 8 := BitVec.ofInt 8 (0x30 + sign * d)

/-- The character of a hexadecimal digit. -/
def hexDigit (d : Nat) : BitVec 8 := if d > 9 then BitVec.ofNat 8 d + 0x37 else BitVec.ofNat 8 d + 0x30

/-- The signed quotient and remainder of a number with a sign. -/
theorem unit_tdiv {sign : Int} (unit : sign = 1 ∨ sign = -1) (k : Nat) : (sign * k).tdiv 10 = sign * ((k / 10 : Nat) : Int) := by
  rcases unit with rfl | rfl
  · rw [Int.one_mul,Int.one_mul]
    rfl
  · rw [Int.neg_one_mul,Int.neg_one_mul,Int.neg_tdiv]
    rfl

theorem unit_tmod {sign : Int} (unit : sign = 1 ∨ sign = -1) (k : Nat) : (sign * k).tmod 10 = sign * ((k % 10 : Nat) : Int) := by
  rcases unit with rfl | rfl
  · rw [Int.one_mul,Int.one_mul]
    rfl
  · rw [Int.neg_one_mul,Int.neg_one_mul,Int.neg_tmod]
    rfl

theorem decimalNumbering {sign : Int} {K : Nat} (unit : sign = 1 ∧ K < 2^63 ∨ sign = -1 ∧ K ≤ 2^63) :
    Numbering 10 (fun num => (num.srem 10 + 0x30).setWidth 8) (·.sdiv 10) (fun k => BitVec.ofInt 64 (sign * k))
      (decimalChar sign) K := by
  have exact : ∀ k : Nat, k ≤ K → (BitVec.ofInt 64 (sign * k)).toInt = sign * k := by
    intro k le
    refine BitVec.toInt_ofInt_eq_self (by decide) ?_ ?_
    · rcases unit with ⟨rfl,small⟩ | ⟨rfl,small⟩ <;> omega
    · rcases unit with ⟨rfl,small⟩ | ⟨rfl,small⟩ <;> omega
  have ten : (10 : BitVec 64).toInt = 10 := rfl
  have signs : sign = 1 ∨ sign = -1 := unit.imp And.left And.left
  refine ⟨by decide,?_,?_,?_⟩
  · intro k le
    rw [← BitVec.toInt_inj,exact k le]
    rcases signs with rfl | rfl <;> simp
  · intro k le
    have digit : (BitVec.ofInt 64 (sign * k)).srem 10 = BitVec.ofInt 64 (sign * ((k % 10 : Nat) : Int)) := by
      rw [← BitVec.toInt_inj,BitVec.toInt_srem,exact k le,ten,unit_tmod signs,exact _ (by omega)]
    have small : k % 10 < 10 := Nat.mod_lt k (by decide)
    simp only [digit,decimalChar]
    generalize k % 10 = d at small
    rcases signs with rfl | rfl <;> interval_cases d <;> rfl
  · intro k le
    have whole := exact (k/10) (by omega)
    rw [← BitVec.toInt_inj,BitVec.toInt_sdiv,exact k le,ten,unit_tdiv signs,whole]
    rwa [BitVec.toInt_ofInt] at whole

theorem hexNumbering : Numbering 16 hexChar (· / 0x10) (BitVec.ofNat 64) hexDigit (2^64-1) := by
  refine ⟨by decide,?_,?_,?_⟩
  · intro k le
    rw [← BitVec.toNat_inj,BitVec.toNat_ofNat,Nat.mod_eq_of_lt (by omega)]
    rfl
  · intro k le
    have digit : BitVec.ofNat 64 k % 0x10 = BitVec.ofNat 64 (k % 16) := by
      apply BitVec.eq_of_toNat_eq
      simp
      omega
    have small : k % 16 < 16 := Nat.mod_lt k (by decide)
    rw [hexChar,digit]
    generalize k % 16 = d at small
    interval_cases d <;> rfl
  · intro k le
    apply BitVec.eq_of_toNat_eq
    simp
    omega

theorem decimalChar_ne_zero {sign : Int} (unit : sign = 1 ∨ sign = -1) (digit : d < 10) : decimalChar sign d ≠ 0 := by
  rcases unit with rfl | rfl <;> interval_cases d <;> decide

theorem hexDigit_ne_zero (digit : d < 16) : hexDigit d ≠ 0 := by
  interval_cases d <;> decide

/-! ### What `ToString` leaves -/

/-- The sign of the digits that `_ToStr` takes from a number. -/
def digitSign (n : BitVec 64) : Int := if n = BitVec.intMin 64 then -1 else 1

/-- The text of a number: what `ToString` leaves. -/
def numeral (n : BitVec 64) (hex : Bool) : List (BitVec 8) :=
  if hex then
    let digits := ((Nat.digits 16 n.toNat).map hexDigit).reverse
    0x30 :: 0x78 :: (if n = 0 then [0x30,0x30] else if n < 0x10 then 0x30 :: digits else digits)
  else if n = 0 then [0x30]
  else
    let digits := ((Nat.digits 10 n.toInt.natAbs).map (decimalChar (digitSign n))).reverse
    if n.slt 0 then 0x2D :: digits else digits

/-- What a call of `ToString` leaves: the text, in a buffer that is apart from that of `format`, and
    everything outside the buffers as it was. -/
structure Told (S : Statics) (m : Mem) (s : List (BitVec 8)) (p : Nat) (m' : Mem) : Prop where
  text : Text m' p s
  buffer : p = S.hexBuffer ∨ p = S.strBuffer
  short : s.length < 24
  others : ∀ x, (x < S.hexBuffer ∨ S.hexBuffer + 32 ≤ x) → (x < S.strBuffer ∨ S.strBuffer + 32 ≤ x) →
    (x < S.revBuffer ∨ S.revBuffer + 256 ≤ x) → m' x = m x

theorem Told.apart {s : List (BitVec 8)} {p : Nat} {m' : Mem} (told : Told S m s p m') : Apart p 32 S.formatBuffer 512 := by
  rcases told.buffer with rfl | rfl
  · exact S.hex_format
  · exact S.str_format

/-- `ToString` leaves the buffer of `format` alone. -/
theorem Told.formatBuffer {s : List (BitVec 8)} {p i : Nat} {m' : Mem} (told : Told S m s p m') (small : i < 512) :
    m' (S.formatBuffer + i) = m (S.formatBuffer + i) := by
  have hex := S.hex_format
  have str := S.str_format
  have rev := S.rev_format
  simp only [Apart] at hex str rev
  exact told.others _ (by omega) (by omega) (by omega)

/-- The digits in a buffer of zeroes, reversed. -/
theorem reverse_digits (S : Statics) (m : Mem) (buffer : Nat) {s : List (BitVec 8)} (proper : 0 ∉ s) (short : s.length < 24) (bound : buffer + 24 ≤ 2^64)
    (apart : Apart buffer 24 S.revBuffer 256) (ends : m (buffer + s.length) = 0) (enough : 24 ≤ fuel) :
    ∃ m', Reverse S fuel (place m buffer s) buffer 0 = some m' ∧ Text m' buffer s.reverse ∧
      ∀ x, (x < buffer ∨ buffer + s.length ≤ x) → (x < S.revBuffer ∨ S.revBuffer + 256 ≤ x) → m' x = m x := by
  simp only [Apart] at apart
  have size : s.reverse.length = s.length := List.length_reverse
  have text : Text (place m buffer s) buffer s := text_place proper ends
  refine ⟨_,reverse_eq text (by unfold Apart; omega) (by omega) (by omega) (by omega),?_,?_⟩
  · refine text_place (fun member => proper (List.mem_reverse.mp member)) ?_
    rw [place_apart (by omega),size,place_apart (by omega),ends]
  · intro x outside other
    rw [place_apart (by omega),place_apart (by omega),place_apart (by omega)]

/-- A buffer that `memset64` cleared. -/
theorem memset64_zero {a k : Nat} (bound : a + k ≤ 2^64) : memset64 m a 0 k = fill m a k (fun _ => 0) := by
  rw [memset64_eq bound]
  exact fill_congr (fun i _ => by simp [pattern])

theorem decimal_proper {sign : Int} {k : Nat} (unit : sign = 1 ∨ sign = -1) : 0 ∉ (Nat.digits 10 k).map (decimalChar sign) := by
  intro member
  obtain ⟨d,digit,zero⟩ := List.mem_map.mp member
  exact decimalChar_ne_zero unit (Nat.digits_lt_base (by decide) digit) zero

theorem hex_proper {k : Nat} : 0 ∉ (Nat.digits 16 k).map hexDigit := by
  intro member
  obtain ⟨d,digit,zero⟩ := List.mem_map.mp member
  exact hexDigit_ne_zero (Nat.digits_lt_base (by decide) digit) zero

theorem toInt_natAbs_le : n.toInt.natAbs ≤ 2^63 := by
  have low := @BitVec.le_toInt 64 n
  have high := @BitVec.toInt_lt 64 n
  omega

theorem decimal_short : ((Nat.digits 10 n.toInt.natAbs).map (decimalChar (digitSign n))).length < 20 := by
  have bound := @toInt_natAbs_le n
  rw [List.length_map]
  refine Nat.lt_succ_of_le ((Nat.digits_length_le_iff (by decide) _).mpr ?_)
  omega

theorem hex_short : ((Nat.digits 16 n.toNat).map hexDigit).length < 17 := by
  have bound := n.isLt
  rw [List.length_map]
  refine Nat.lt_succ_of_le ((Nat.digits_length_le_iff (by decide) _).mpr ?_)
  omega

theorem digitSign_unit (n : BitVec 64) : digitSign n = 1 ∨ digitSign n = -1 := by
  simp only [digitSign]
  split
  · exact Or.inr rfl
  · exact Or.inl rfl

/-- The number whose digits `_ToStr` takes, where `num *= -1` wraps for the lowest number. -/
theorem digitSign_natAbs : BitVec.ofInt 64 (digitSign n * n.toInt.natAbs) = if n.slt 0 then n * -1 else n := by
  have low := @BitVec.le_toInt 64 n
  have high := @BitVec.toInt_lt 64 n
  have negative : n.slt 0 = true ↔ n.toInt < 0 := by simp [BitVec.slt_iff_toInt_lt]
  by_cases lowest : n = BitVec.intMin 64
  · subst lowest
    decide
  · rw [digitSign,if_neg lowest,Int.one_mul]
    by_cases less : n.toInt < 0
    · rw [if_pos (negative.mpr less),Int.ofNat_natAbs_of_nonpos (by omega),BitVec.ofInt_neg,BitVec.ofInt_toInt]
      ring
    · rw [if_neg (fun same => less (negative.mp same)),Int.natAbs_of_nonneg (by omega),BitVec.ofInt_toInt]

theorem decimal_numbering : Numbering 10 (fun num => (num.srem 10 + 0x30).setWidth 8) (·.sdiv 10)
    (fun k => BitVec.ofInt 64 (digitSign n * k)) (decimalChar (digitSign n)) n.toInt.natAbs := by
  have bound := @toInt_natAbs_le n
  apply decimalNumbering
  simp only [digitSign]
  split
  · exact Or.inr ⟨rfl,bound⟩
  · rename_i other
    have low := @BitVec.le_toInt 64 n
    have high := @BitVec.toInt_lt 64 n
    have apart : n.toInt ≠ -2^63 := fun same => other (by rw [← BitVec.toInt_inj,same]; rfl)
    exact Or.inl ⟨rfl,by omega⟩

/-- The digits of a number, as `_ToStr` writes them into a buffer of zeroes and reverses them. -/
theorem decimal_written (S : Statics) (m : Mem) (buffer : Nat) {num : BitVec 64} (same : BitVec.ofInt 64 (digitSign n * n.toInt.natAbs) = num)
    (bound : buffer + 24 ≤ 2^64) (apart : Apart buffer 24 S.revBuffer 256) (cleared : ∀ i < 24, m (buffer+i) = 0)
    (enough : 24 ≤ fuel) :
    ∃ m', (digitLoop (fun num => (num.srem 10 + 0x30).setWidth 8) (·.sdiv 10) m buffer num 0 fuel).bind
        (fun m => Reverse S fuel m buffer 0) = some m' ∧
      Text m' buffer ((Nat.digits 10 n.toInt.natAbs).map (decimalChar (digitSign n))).reverse ∧
      ∀ x, (x < buffer ∨ buffer + 24 ≤ x) → (x < S.revBuffer ∨ S.revBuffer + 256 ≤ x) → m' x = m x := by
  have short := @decimal_short n
  have count : (Nat.digits 10 n.toInt.natAbs).length < 20 := by rwa [List.length_map] at short
  have proper := @decimal_proper _ n.toInt.natAbs (digitSign_unit n)
  have looped := digitLoop_eq m fuel buffer 0 (@decimal_numbering n) (Nat.le_refl _) (by omega) (by omega)
  obtain ⟨m',reversed,text,others⟩ := reverse_digits S m buffer proper (by omega) bound apart (cleared _ (by omega)) enough
  refine ⟨m',?_,text,fun x outside rev => others x (by omega) rev⟩
  rw [← same,looped,Nat.add_zero,Option.bind_some,reversed]

theorem numeral_decimal : numeral n false = if n = 0 then [0x30]
    else if n.slt 0 then 0x2D :: ((Nat.digits 10 n.toInt.natAbs).map (decimalChar (digitSign n))).reverse
    else ((Nat.digits 10 n.toInt.natAbs).map (decimalChar (digitSign n))).reverse := rfl

theorem toStr_zero : ∃ p m', ToStr S fuel m 0 = some (p,m') ∧ Told S m (numeral 0 false) p m' := by
  refine ⟨S.strBuffer,_,by rw [ToStr,if_pos rfl,memset64_zero S.str_inside,← place_singleton],?_,Or.inr rfl,by decide,?_⟩
  · refine text_place (by decide) (fill_at (Nat.le_add_right _ _) ?_)
    simp only [List.length_singleton]
    omega
  · intro x hex str rev
    rw [place_apart (by simp only [List.length_singleton]; omega),fill_apart str]

theorem toStr_told (enough : 24 ≤ fuel) : ∃ p m', ToStr S fuel m n = some (p,m') ∧ Told S m (numeral n false) p m' := by
  by_cases zero : n = 0
  · subst zero
    exact toStr_zero
  · have inside := S.str_inside
    have apart := S.str_rev
    simp only [Apart] at apart
    have cleared : memset64 m S.strBuffer 0 32 = fill m S.strBuffer 32 (fun _ => 0) := memset64_zero (by omega)
    have short := @decimal_short n
    have number := @digitSign_natAbs n
    rw [numeral_decimal,if_neg zero]
    by_cases negative : n.slt 0 = true
    · rw [if_pos negative] at number ⊢
      obtain ⟨m',written,text,others⟩ := decimal_written S
        (Function.update (fill m S.strBuffer 32 (fun _ => 0)) S.strBuffer 0x2D) (S.strBuffer + 1) number (by omega) (by unfold Apart; omega)
        (fun i small => by rw [Function.update_of_ne (by omega),fill_at (by omega) (by omega)]) enough
      rw [Option.bind_eq_some_iff] at written
      obtain ⟨between,looped,reversed⟩ := written
      refine ⟨S.strBuffer,m',?_,?_,Or.inr rfl,by rw [List.length_cons,List.length_reverse]; omega,?_⟩
      · simp only [ToStr,if_neg zero,cleared,if_pos negative,looped,reversed,Option.bind_eq_bind,Option.bind_some]
      · refine text.cons ?_ (by decide)
        rw [others _ (by omega) (by omega),Function.update_self]
      · intro x hex str rev
        rw [others x (by omega) rev,Function.update_of_ne (by omega),fill_apart str]
    · rw [if_neg negative] at number ⊢
      obtain ⟨m',written,text,others⟩ := decimal_written S (fill m S.strBuffer 32 (fun _ => 0)) S.strBuffer
        number (by omega) (by unfold Apart; omega) (fun i small => fill_at (by omega) (by omega)) enough
      rw [Option.bind_eq_some_iff] at written
      obtain ⟨between,looped,reversed⟩ := written
      refine ⟨S.strBuffer,m',?_,text,Or.inr rfl,by rw [List.length_reverse]; omega,?_⟩
      · simp only [ToStr,if_neg zero,cleared,if_neg negative,looped,reversed,Option.bind_eq_bind,Option.bind_some]
      · intro x hex str rev
        rw [others x (by omega) rev,fill_apart str]

theorem numeral_hex : numeral n true = 0x30 :: 0x78 :: (if n = 0 then [0x30,0x30]
    else if n < 0x10 then 0x30 :: ((Nat.digits 16 n.toNat).map hexDigit).reverse
    else ((Nat.digits 16 n.toNat).map hexDigit).reverse) := rfl

/-- The digits of a number from the lowest on, as `_ToHex` writes them: one digit alone has a zero behind it. -/
def hexDigits (n : BitVec 64) : List (BitVec 8) := (Nat.digits 16 n.toNat).map hexDigit ++ if n < 0x10 then [0x30] else []

theorem hexDigits_proper : 0 ∉ hexDigits n := by
  rw [hexDigits,List.mem_append]
  rintro (digit | pad)
  · exact hex_proper digit
  · split at pad
    · exact absurd pad (by decide)
    · cases pad

theorem hexDigits_length : (hexDigits n).length < 18 := by
  have short := @hex_short n
  rw [hexDigits,List.length_append]
  split
  · simp only [List.length_singleton]
    omega
  · simp only [List.length_nil]
    omega

theorem numeral_hexDigits (zero : n ≠ 0) : numeral n true = 0x30 :: 0x78 :: (hexDigits n).reverse := by
  rw [numeral_hex,if_neg zero,hexDigits,List.reverse_append]
  split <;> rfl

theorem hex_looped (m : Mem) (buffer : Nat) (zero : n ≠ 0) (enough : 24 ≤ fuel) :
    digitLoop hexChar (· / 0x10) (if n < 0x10 then Function.update m (buffer + 1) 0x30 else m) buffer n 0 fuel =
      some (place m buffer (hexDigits n)) := by
  have short := @hex_short n
  have count : (Nat.digits 16 n.toNat).length < 17 := by rwa [List.length_map] at short
  have looped := digitLoop_eq (if n < 0x10 then Function.update m (buffer + 1) 0x30 else m) fuel buffer 0 hexNumbering
    (k := n.toNat) (by omega) (by omega) (by omega)
  rw [BitVec.ofNat_toNat,BitVec.setWidth_eq] at looped
  rw [looped,Nat.add_zero buffer,hexDigits]
  by_cases single : n < 0x10
  · have less : n.toNat < 16 := by simpa [BitVec.lt_def] using single
    have positive : n.toNat ≠ 0 := fun same => zero (BitVec.eq_of_toNat_eq same)
    rw [if_pos single,if_pos single,Nat.digits_of_lt 16 _ positive less,List.map_singleton,place_singleton,
      Function.update_comm (by omega),← place_singleton (a := buffer)]
    exact congrArg some place_snoc
  · rw [if_neg single,if_neg single,List.append_nil]

/-- The buffer of `_ToHex` before the digits: the prefix in front of zeroes. -/
theorem hex_started (S : Statics) (m : Mem) :
    Function.update (Function.update (memset64 m S.hexBuffer 0 32) S.hexBuffer 0x30) (S.hexBuffer + 1) 0x78 =
      place (fill m S.hexBuffer 32 (fun _ => 0)) S.hexBuffer [0x30,0x78] := by
  rw [memset64_zero S.hex_inside,← place_singleton (a := S.hexBuffer)]
  exact place_snoc

theorem toHex_zero : ∃ p m', ToHex S fuel m 0 = some (p,m') ∧ Told S m (numeral 0 true) p m' := by
  refine ⟨S.hexBuffer,place (fill m S.hexBuffer 32 (fun _ => 0)) S.hexBuffer [0x30,0x78,0x30,0x30],?_,?_,Or.inl rfl,by decide,?_⟩
  · rw [ToHex,if_pos rfl,hex_started]
    have third := place_snoc (m := fill m S.hexBuffer 32 (fun _ => 0)) (a := S.hexBuffer) (s := [0x30,0x78]) (c := 0x30)
    have fourth := place_snoc (m := fill m S.hexBuffer 32 (fun _ => 0)) (a := S.hexBuffer) (s := [0x30,0x78,0x30]) (c := 0x30)
    exact congrArg (fun m => some (S.hexBuffer,m)) ((congrArg (fun m => Function.update m _ _) third).trans fourth)
  · refine text_place (by decide) (fill_at (Nat.le_add_right _ _) ?_)
    simp only [List.length_cons,List.length_nil]
    omega
  · intro x hex str rev
    rw [place_apart (by simp only [List.length_cons,List.length_nil]; omega),fill_apart hex]

theorem toHex_told (enough : 24 ≤ fuel) : ∃ p m', ToHex S fuel m n = some (p,m') ∧ Told S m (numeral n true) p m' := by
  by_cases zero : n = 0
  · subst zero
    exact toHex_zero
  · have inside := S.hex_inside
    have apart := S.hex_rev
    simp only [Apart] at apart
    have size := @hexDigits_length n
    have started := hex_started S m
    generalize kept : fill m S.hexBuffer 32 (fun _ => 0) = m0 at started
    have looped := hex_looped (place m0 S.hexBuffer [0x30,0x78]) (S.hexBuffer + 2) zero enough
    have zeroes : ∀ i, 2 ≤ i → i < 32 → place m0 S.hexBuffer [0x30,0x78] (S.hexBuffer + i) = 0 := by
      intro i low high
      rw [place_apart (by simp only [List.length_cons,List.length_nil]; omega),← kept,fill_at (by omega) (by omega)]
    obtain ⟨m',reversed,text,others⟩ := reverse_digits S (place m0 S.hexBuffer [0x30,0x78])
      (S.hexBuffer + 2) (@hexDigits_proper n) (by omega) (by omega) (by unfold Apart; omega)
      (by rw [Nat.add_assoc]; exact zeroes _ (by omega) (by omega)) enough
    rw [numeral_hexDigits zero]
    refine ⟨S.hexBuffer,m',?_,?_,Or.inl rfl,by simp only [List.length_cons,List.length_reverse]; omega,?_⟩
    · simp only [ToHex,if_neg zero,started,looped,reversed,Option.bind_eq_bind,Option.bind_some]
    · refine (text.cons ?_ (by decide)).cons ?_ (by decide)
      · rw [others _ (by omega) (by omega),place_at (i := 1) (by decide)]
        rfl
      · rw [others _ (by omega) (by omega)]
        exact place_at (i := 0) (by decide)
    · intro x hex str rev
      rw [others x (by omega) rev,place_apart (by simp only [List.length_cons,List.length_nil]; omega),← kept,fill_apart hex]

/-- `ToString` leaves the text of the number, whatever was in the memory. -/
theorem toString_told (hex : Bool) (enough : 24 ≤ fuel) :
    ∃ p m', ToString S fuel m n hex = some (p,m') ∧ Told S m (numeral n hex) p m' := by
  cases hex with
  | false => exact toStr_told enough
  | true => exact toHex_told enough

/-! ### Reading a number back -/

/-- The value of a row of digits, each of which has its worth times a unit. -/
theorem foldl_value {α : Type} (b : Nat) (value : α → BitVec 64) (worth : α → Nat) (cs : List α) {unit : BitVec 64}
    (digits : ∀ c ∈ cs, value c = unit * (worth c : BitVec 64)) :
    cs.foldl (fun v c => v * (b : BitVec 64) + value c) 0 = unit * (Nat.ofDigits b (cs.reverse.map worth) : Nat) := by
  induction cs using List.reverseRecOn with
  | nil => simp
  | append_singleton cs c ih =>
    rw [List.foldl_append,ih (fun d member => digits d (List.mem_append_left _ member)),List.foldl_cons,List.foldl_nil,
      digits c (by simp),List.reverse_append,List.reverse_singleton,List.singleton_append,List.map_cons,Nat.ofDigits_cons,
      Nat.cast_add,Nat.cast_mul]
    ring

theorem decimalChar_value {sign : Int} (unit : sign = 1 ∨ sign = -1) (digit : d < 10) :
    (decimalChar sign d).signExtend 64 - 0x30 = BitVec.ofInt 64 sign * (d : BitVec 64) := by
  rcases unit with rfl | rfl <;> interval_cases d <;> decide

theorem hexDigit_value (digit : d < 16) :
    (if (hexDigit d).toInt > 0x39 then (hexDigit d).signExtend 64 - 0x37 else (hexDigit d).signExtend 64 - 0x30) =
      1 * (d : BitVec 64) := by
  interval_cases d <;> decide

/-- The value that `_ToIntBase10` takes from the digits of a number, before the sign. -/
theorem decimal_value : (((Nat.digits 10 n.toInt.natAbs).map (decimalChar (digitSign n))).reverse).foldl
    (fun value c => value * 10 + (c.signExtend 64 - 0x30)) 0 = if n.slt 0 then n * -1 else n := by
  rw [← List.map_reverse,List.foldl_map]
  have folded := foldl_value 10 (fun d => (decimalChar (digitSign n) d).signExtend 64 - 0x30) id
    (Nat.digits 10 n.toInt.natAbs).reverse (fun d member => decimalChar_value (digitSign_unit n)
      (Nat.digits_lt_base (by decide) (List.mem_reverse.mp member)))
  rw [List.reverse_reverse,List.map_id,Nat.ofDigits_digits] at folded
  rw [← digitSign_natAbs,BitVec.ofInt_mul,BitVec.ofInt_natCast]
  exact folded

theorem hex_value : (((Nat.digits 16 n.toNat).map hexDigit).reverse).foldl
    (fun value c => value * 0x10 + (if c.toInt > 0x39 then c.signExtend 64 - 0x37 else c.signExtend 64 - 0x30)) 0 = n := by
  rw [← List.map_reverse,List.foldl_map]
  have folded := foldl_value 16 (fun d => if (hexDigit d).toInt > 0x39 then (hexDigit d).signExtend 64 - 0x37
    else (hexDigit d).signExtend 64 - 0x30) id (Nat.digits 16 n.toNat).reverse
    (fun d member => hexDigit_value (Nat.digits_lt_base (by decide) (List.mem_reverse.mp member)))
  have whole : (n.toNat : BitVec 64) = n := by simp
  rw [List.reverse_reverse,List.map_id,Nat.ofDigits_digits,one_mul,whole] at folded
  exact folded

theorem toIntBase10_negative (s : List (BitVec 8)) :
    ToIntBase10 (0x2D :: s) = s.foldl (fun value c => value * 10 + (c.signExtend 64 - 0x30)) 0 * -1 := rfl

theorem toIntBase10_positive {s : List (BitVec 8)} (plain : s.getD 0 0 ≠ 0x2D) :
    ToIntBase10 s = s.foldl (fun value c => value * 10 + (c.signExtend 64 - 0x30)) 0 := by
  rw [ToIntBase10]
  simp only [if_neg plain]

/-- The digits of a number that is not negative have no minus sign in front. -/
theorem decimal_plain (positive : ¬ n.slt 0 = true) :
    ((Nat.digits 10 n.toInt.natAbs).map (decimalChar (digitSign n))).reverse.getD 0 0 ≠ 0x2D := by
  have unsigned : digitSign n = 1 := by
    rw [digitSign,if_neg]
    rintro rfl
    exact positive (by decide)
  rw [unsigned]
  intro minus
  by_cases empty : 0 < ((Nat.digits 10 n.toInt.natAbs).map (decimalChar 1)).reverse.length
  · rw [List.getD_eq_getElem _ _ empty] at minus
    have member := List.mem_reverse.mp (minus ▸ List.getElem_mem empty)
    obtain ⟨d,digit,char⟩ := List.mem_map.mp member
    have small := Nat.digits_lt_base (by decide) digit
    exact absurd char (by interval_cases d <;> decide)
  · rw [List.getD_eq_default _ _ (by omega)] at minus
    exact absurd minus (by decide)

theorem toInt_decimal : ToInt (numeral n false) false = n := by
  rw [ToInt,if_neg Bool.false_ne_true,numeral_decimal]
  by_cases zero : n = 0
  · rw [if_pos zero,zero]
    rfl
  · rw [if_neg zero]
    have value := @decimal_value n
    by_cases negative : n.slt 0 = true
    · rw [if_pos negative] at value ⊢
      rw [toIntBase10_negative,value]
      ring
    · rw [if_neg negative] at value ⊢
      rw [toIntBase10_positive (decimal_plain negative),value]

theorem toInt_hex : ToInt (numeral n true) true = n := by
  rw [ToInt,if_pos rfl,numeral_hex]
  by_cases zero : n = 0
  · rw [if_pos zero,zero]
    rfl
  · rw [if_neg zero,ToIntBase16]
    have digits := @hex_value n
    split
    · -- The zero in front of a single digit counts nothing.
      simpa using digits
    · simpa using digits

/-- `ToInt` of what `ToString` leaves is the number. -/
theorem toInt_toString (S : Statics) (m : Mem) (n : BitVec 64) (hex : Bool) (enough : 24 ≤ fuel) :
    ∃ p m' s, ToString S fuel m n hex = some (p,m') ∧ Text m' p s ∧ ToInt s hex = n := by
  obtain ⟨p,m',told,left⟩ := toString_told (S := S) (m := m) (n := n) hex enough
  refine ⟨p,m',numeral n hex,told,left.text,?_⟩
  cases hex with
  | false => exact toInt_decimal
  | true => exact toInt_hex

/-- Static buffers one behind another. -/
def packed : Statics where
  hexBuffer := 0x1000
  strBuffer := 0x1020
  revBuffer := 0x1040
  formatBuffer := 0x1140
  hex_str := Or.inl (by decide)
  hex_rev := Or.inl (by decide)
  hex_format := Or.inl (by decide)
  str_rev := Or.inl (by decide)
  str_format := Or.inl (by decide)
  rev_format := Or.inl (by decide)
  hex_inside := by decide
  str_inside := by decide
  rev_inside := by decide
  format_inside := by decide

theorem toInt_toString_lowest : 24 ≤ 24 ∧ ∃ p m' s, ToString packed 24 (fun _ => 0) (BitVec.intMin 64) false = some (p,m') ∧
    Text m' p s ∧ ToInt s false = BitVec.intMin 64 :=
  ⟨by decide,toInt_toString packed (fun _ => 0) (BitVec.intMin 64) false (by decide)⟩

/-! ### Canonical numerals -/

/-- `s` is the decimal numeral of `n`: a minus sign where `n` is negative, and digits without a zero in front. -/
def Canonical (n : Int) (s : List (BitVec 8)) : Prop :=
  ∃ ds : List Nat, s = (if n < 0 then [0x2D] else []) ++ ds.map (fun d => BitVec.ofNat 8 (0x30 + d)) ∧
    ds ≠ [] ∧ (∀ d ∈ ds, d < 10) ∧ (ds.head? = some 0 → ds = [0]) ∧ Nat.ofDigits 10 ds.reverse = n.natAbs

theorem decimalChar_one (digit : d < 10) : decimalChar 1 d = BitVec.ofNat 8 (0x30 + d) := by
  interval_cases d <;> rfl

theorem canonical_numeral (ordinary : n ≠ BitVec.intMin 64) : Canonical n.toInt (numeral n false) := by
  have unsigned : digitSign n = 1 := if_neg ordinary
  have negative : n.slt 0 = true ↔ n.toInt < 0 := by simp [BitVec.slt_iff_toInt_lt]
  rw [numeral_decimal]
  by_cases zero : n = 0
  · rw [if_pos zero,zero]
    exact ⟨[0],rfl,by decide,by decide,fun _ => rfl,rfl⟩
  · have positive : n.toInt.natAbs ≠ 0 := by
      intro same
      exact zero (BitVec.eq_of_toInt_eq (Int.natAbs_eq_zero.mp same))
    have chars : (Nat.digits 10 n.toInt.natAbs).map (decimalChar 1) =
        (Nat.digits 10 n.toInt.natAbs).map (fun d => BitVec.ofNat 8 (0x30 + d)) :=
      List.map_congr_left (fun d member => decimalChar_one (Nat.digits_lt_base (by decide) member))
    rw [if_neg zero,unsigned,chars,← List.map_reverse]
    refine ⟨(Nat.digits 10 n.toInt.natAbs).reverse,?_,?_,?_,?_,?_⟩
    · by_cases less : n.toInt < 0
      · rw [if_pos (negative.mpr less),if_pos less]
        rfl
      · rw [if_neg (fun same => less (negative.mp same)),if_neg less]
        rfl
    · rw [ne_eq,List.reverse_eq_nil_iff,Nat.digits_eq_nil_iff_eq_zero]
      exact positive
    · intro d member
      exact Nat.digits_lt_base (by decide) (List.mem_reverse.mp member)
    · -- The first character is the highest digit.
      intro first
      rw [List.head?_reverse,List.getLast?_eq_some_getLast (by rwa [ne_eq,Nat.digits_eq_nil_iff_eq_zero])] at first
      exact absurd (Option.some.inj first) (Nat.getLast_digit_ne_zero 10 positive)
    · rw [List.reverse_reverse,Nat.ofDigits_digits]

theorem Canonical.chars {k : Int} {s : List (BitVec 8)} {c : BitVec 8} (canonical : Canonical k s) (member : c ∈ s) :
    c = 0x2D ∨ ∃ d < 10, c = BitVec.ofNat 8 (0x30 + d) := by
  obtain ⟨ds,shape,-,digits,-,-⟩ := canonical
  rw [shape,List.mem_append] at member
  rcases member with sign | digit
  · split at sign
    · exact Or.inl (List.mem_singleton.mp sign)
    · cases sign
  · obtain ⟨d,inside,char⟩ := List.mem_map.mp digit
    exact Or.inr ⟨d,digits d inside,char.symm⟩

/-- The first digit of the lowest number is no digit. -/
theorem lowest_not_canonical : ¬ Canonical (BitVec.intMin 64).toInt (numeral (BitVec.intMin 64) false) := by
  intro canonical
  have member : (0x27 : BitVec 8) ∈ numeral (BitVec.intMin 64) false := by decide
  rcases canonical.chars member with sign | ⟨d,small,char⟩
  · exact absurd sign (by decide)
  · interval_cases d <;> exact absurd char (by decide)

/-- `ToString` leaves the decimal numeral of a number if and only if it is not the lowest one, whose
    negation wraps and whose digits are taken from negative remainders. -/
theorem toString_canonical_iff (S : Statics) (m : Mem) (n : BitVec 64) (enough : 24 ≤ fuel) :
    ∃ p m' s, ToString S fuel m n false = some (p,m') ∧ Text m' p s ∧ (Canonical n.toInt s ↔ n ≠ BitVec.intMin 64) := by
  obtain ⟨p,m',told,left⟩ := toString_told (S := S) (m := m) (n := n) false enough
  refine ⟨p,m',numeral n false,told,left.text,?_,canonical_numeral⟩
  rintro canonical rfl
  exact lowest_not_canonical canonical

theorem toString_canonical_iff_seven : 24 ≤ 24 ∧ ∃ p m' s, ToString packed 24 (fun _ => 0) (-7) false = some (p,m') ∧
    Text m' p s ∧ (Canonical (-7 : BitVec 64).toInt s ↔ -7 ≠ BitVec.intMin 64) :=
  ⟨by decide,toString_canonical_iff packed (fun _ => 0) (-7) (by decide)⟩

theorem toString_not_canonical : ¬ ∃ p m' s, ToString packed 24 (fun _ => 0) (BitVec.intMin 64) false = some (p,m') ∧
    Text m' p s ∧ Canonical (BitVec.intMin 64).toInt s := by
  rintro ⟨p,m',s,told,text,canonical⟩
  obtain ⟨p',m'',told',left⟩ := toString_told (S := packed) (m := fun _ => 0) (n := BitVec.intMin 64) false (Nat.le_refl 24)
  rw [told,Option.some.injEq,Prod.mk.injEq] at told'
  obtain ⟨rfl,rfl⟩ := told'
  rw [text.unique left.text] at canonical
  exact lowest_not_canonical canonical

end WaifuOS.cstr
