import Mathlib.Data.List.GetD
import Mathlib.Data.List.TakeWhile

/-!
The wide strings of `cstr.cpp`. A string is the list of its units, without the terminator
(`WString`), and a buffer is the list of all of its units; `ofBuffer` is the string
that a buffer holds. The names of files are lower-cased and cut with these functions:
`wsubstring` answers `nullptr` for an empty range, and from 0 on it takes the first units
(`wsubstring_zero`).
-/
namespace WaifuOS.cstr

/-- The units of a string before the terminator. -/
abbrev WString := List Nat

/-- The string that a buffer holds. -/
def ofBuffer (buffer : List Nat) : WString := buffer.takeWhile (· ≠ 0)

/-- Copies from `src` to `dest[offset]` on, up to the terminator or to `max` units. -/
def wstrncpy (dest : List Nat) (offset : Nat) (src : List Nat) : Nat → List Nat
  | 0 => dest
  | max+1 =>
    if src.headD 0 = 0 then dest.set offset 0
    else wstrncpy (dest.set offset (src.headD 0)) (offset+1) src.tail max

/-- `'A'` to `'Z'` become `'a'` to `'z'`. -/
def lower (unit : Nat) : Nat := if 0x41 ≤ unit ∧ unit ≤ 0x5A then unit + 0x20 else unit

def wstrToLower (str : WString) : WString := str.map lower

/-- The index of a character; `none` is -1. -/
def wstrIndexOf (str : WString) (character : Nat) : Option Nat := str.findIdx? (· = character)

/-- The units from `startIndex` up to `endIndex` in a new buffer; `none` is `nullptr`. -/
def wsubstring (str : WString) (startIndex endIndex : Nat) : Option WString :=
  if startIndex ≥ endIndex then none
  else if endIndex > str.length then none
  else
    let bufflen := endIndex - startIndex + 1
    let copy (buffer : List Nat) (x : Nat) : List Nat := buffer.set x (str.getD x 0)
    let buffer := (List.range' startIndex (endIndex - startIndex)).foldl copy (List.replicate bufflen 0)
    some (ofBuffer (buffer.set (bufflen-1) 0))

/-- `cstrTowstr`: characters are signed. -/
def cstrTowstr (str : List (BitVec 8)) : WString := str.map (fun c => (c.signExtend 16).toNat)

theorem wstrIndexOf_none {str : WString} {character : Nat} : wstrIndexOf str character = none ↔ character ∉ str := by
  rw [wstrIndexOf,List.findIdx?_eq_none_iff]
  constructor
  · intro none member
    simpa using none character member
  · intro none c member
    have other : c ≠ character := fun same => none (same ▸ member)
    simpa using other

theorem wstrIndexOf_some {str : WString} {character index : Nat} : wstrIndexOf str character = some index ↔
    ∃ before after, str = before ++ character :: after ∧ before.length = index ∧ character ∉ before := by
  induction str generalizing index with
  | nil => simp [wstrIndexOf]
  | cons c str ih =>
    simp only [wstrIndexOf] at ih ⊢
    rw [List.findIdx?_cons]
    by_cases here : c = character
    · subst here
      simp only [decide_true,if_true,Option.some.injEq]
      constructor
      · rintro rfl
        exact ⟨[],str,rfl,rfl,by simp⟩
      · rintro ⟨before,after,whole,size,none⟩
        cases before with
        | nil => exact size
        | cons d before =>
          cases whole
          simp at none
    · simp only [decide_eq_true_eq,if_neg here,Option.map_eq_some_iff]
      constructor
      · rintro ⟨i,found,rfl⟩
        obtain ⟨before,after,rfl,rfl,none⟩ := ih.mp found
        exact ⟨c :: before,after,rfl,rfl,by simpa [Ne.symm here] using none⟩
      · rintro ⟨before,after,whole,size,none⟩
        cases before with
        | nil =>
          cases whole
          exact absurd rfl here
        | cons d before =>
          cases whole
          exact ⟨before.length,ih.mpr ⟨before,after,rfl,rfl,fun member => none (List.mem_cons_of_mem _ member)⟩,size⟩

variable {str : WString} {n : Nat}

theorem ofBuffer_of_terminated (proper : 0 ∉ str) (rest : List Nat) : ofBuffer (str ++ 0 :: rest) = str := by
  induction str with
  | nil => rfl
  | cons c str ih =>
    obtain ⟨first,later⟩ : ¬ 0 = c ∧ 0 ∉ str := by simpa using proper
    have here := ih later
    simp only [ofBuffer] at here ⊢
    rw [List.cons_append,List.takeWhile_cons,if_pos (by simpa using Ne.symm first),here]

/-- Copying the first units fills a buffer from the front. -/
theorem copied_range (str : WString) (n bufflen k : Nat) (room : n + k ≤ str.length) (fits : n + k ≤ bufflen) :
    (List.range' n k).foldl (fun b x => b.set x (str.getD x 0)) (str.take n ++ List.replicate (bufflen - n) 0) =
      str.take (n+k) ++ List.replicate (bufflen - (n+k)) 0 := by
  induction k generalizing n with
  | zero => simp
  | succ k ih =>
    have size : (str.take n).length = n := List.length_take_of_le (by omega)
    have blank : List.replicate (bufflen - n) 0 = 0 :: List.replicate (bufflen - (n+1)) 0 := by
      rw [show bufflen - n = bufflen - (n+1) + 1 by omega,List.replicate_succ]
    have step : (str.take n ++ List.replicate (bufflen - n) 0).set n (str.getD n 0) =
        str.take (n+1) ++ List.replicate (bufflen - (n+1)) 0 := by
      rw [List.set_append_right _ _ (by omega),size,Nat.sub_self,blank,List.set_cons_zero,List.take_succ_eq_append_getElem (by omega),
        List.getD_eq_getElem _ _ (by omega),List.append_assoc,List.singleton_append]
    rw [List.range'_succ,List.foldl_cons,step,ih (n+1) (by omega) (by omega),show n + 1 + k = n + (k+1) by omega]

/-- From 0 on, `wsubstring` takes the first units, and at least one. -/
theorem wsubstring_zero (proper : 0 ∉ str) (room : n ≤ str.length) :
    wsubstring str 0 n = if n = 0 then none else some (str.take n) := by
  rw [wsubstring]
  by_cases none : n = 0
  · rw [if_pos (by omega),if_pos none]
  · have copied := copied_range str 0 (n+1) n (by omega) (by omega)
    rw [List.take_zero,List.nil_append,Nat.sub_zero,Nat.zero_add,Nat.add_sub_cancel_left] at copied
    have inside : 0 ∉ str.take n := fun member => proper (List.mem_of_mem_take member)
    have size : (str.take n).length = n := List.length_take_of_le room
    simp only [if_neg none,Nat.sub_zero,Nat.add_sub_cancel,copied]
    rw [if_neg (by omega),if_neg (by omega)]
    rw [List.set_append_right _ _ (by omega),size,Nat.sub_self]
    simp only [List.replicate_one,List.set_cons_zero]
    rw [ofBuffer_of_terminated inside]

theorem ofBuffer_proper (buffer : List Nat) : 0 ∉ ofBuffer buffer := by
  intro member
  have nonzero := List.mem_takeWhile_imp member
  simp at nonzero

/-- A string is copied into a buffer of its length. -/
theorem wstrncpy_all (before : List Nat) (proper : 0 ∉ str) :
    wstrncpy (before ++ List.replicate str.length 0) before.length str str.length = before ++ str := by
  induction str generalizing before with
  | nil => simp [wstrncpy]
  | cons c str ih =>
    obtain ⟨first,later⟩ : ¬ 0 = c ∧ 0 ∉ str := by simpa using proper
    have step : (before ++ List.replicate (c :: str).length 0).set before.length c =
        (before ++ [c]) ++ List.replicate str.length 0 := by
      rw [List.set_append_right _ _ (Nat.le_refl _),Nat.sub_self,List.length_cons,List.replicate_succ,List.set_cons_zero,
        List.append_assoc]
      rfl
    have copied := ih (before ++ [c]) later
    rw [List.length_append,List.length_singleton] at copied
    rw [List.length_cons,wstrncpy,List.headD_cons,if_neg (Ne.symm first),List.tail_cons]
    rw [List.length_cons] at step
    rw [step,copied,List.append_assoc]
    rfl

theorem lower_ne_zero {unit : Nat} (nonzero : unit ≠ 0) : lower unit ≠ 0 := by
  simp only [lower]
  split <;> omega

end WaifuOS.cstr
