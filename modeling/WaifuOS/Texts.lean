import WaifuOS.Bytes
import Mathlib.Data.List.GetD

/-!
Texts in a memory: the characters of a text stand one behind another, and a zero byte stands
behind the last (`Text`). A text is written as a whole (`place`) or character by character
(`place_snoc`), and `strlen` finds how long it is.
-/
namespace WaifuOS.Bytes

/-- The text `s` stands at `p`, with its terminator. -/
def Text (m : Mem) (p : Nat) (s : List (BitVec 8)) : Prop := 0 ∉ s ∧ ∀ i ≤ s.length, m (p+i) = s.getD i 0

/-- Writes the bytes of a list one behind another. -/
def place (m : Mem) (a : Nat) (s : List (BitVec 8)) : Mem := fill m a s.length (fun i => s.getD i 0)

variable {m m' : Mem} {a p i x : Nat} {s t : List (BitVec 8)} {c : BitVec 8}

theorem place_at (inside : i < s.length) : place m a s (a+i) = s.getD i 0 := by
  rw [place,fill_at (by omega) (by omega),Nat.add_sub_cancel_left]

theorem place_apart (outside : x < a ∨ a + s.length ≤ x) : place m a s x = m x := fill_apart outside

@[simp] theorem place_nil : place m a [] = m := fill_zero m a _

/-- What is written is written piece by piece. -/
theorem place_append : place (place m a s) (a + s.length) t = place m a (s ++ t) := by
  have front : place m a s = fill m a s.length (fun i => (s ++ t).getD i 0) :=
    fill_congr (fun i small => (List.getD_append _ _ _ _ small).symm)
  have back : place (place m a s) (a + s.length) t =
      fill (place m a s) (a + s.length) t.length (fun i => (s ++ t).getD (s.length + i) 0) :=
    fill_congr (fun i _ => by rw [List.getD_append_right _ _ _ _ (Nat.le_add_right _ _),Nat.add_sub_cancel_left])
  rw [back,front,fill_append,place,List.length_append]

theorem place_singleton : place m a [c] = Function.update m a c := by
  funext x
  by_cases here : x = a
  · subst here
    rw [Function.update_self]
    exact place_at (show 0 < [c].length by simp)
  · rw [Function.update_of_ne here,place_apart (by simp only [List.length_singleton]; omega)]

/-- One more character behind what is written. -/
theorem place_snoc : Function.update (place m a s) (a + s.length) c = place m a (s ++ [c]) := by
  rw [← place_append,place_singleton]

theorem place_cons : place (Function.update m a c) (a+1) s = place m a (c :: s) := by
  rw [← place_singleton]
  exact place_append

/-- A text that was written over zeroes. -/
theorem text_place (proper : 0 ∉ s) (ends : m (p + s.length) = 0) : Text (place m p s) p s := by
  refine ⟨proper,?_⟩
  intro i inside
  by_cases last : i = s.length
  · rw [last,place_apart (by omega),ends,List.getD_eq_default _ _ (Nat.le_refl _)]
  · exact place_at (by omega)

theorem Text.getD_ne (text : Text m p s) (inside : i < s.length) : m (p+i) ≠ 0 := by
  rw [text.2 i (by omega),List.getD_eq_getElem _ _ inside]
  exact fun zero => text.1 (zero ▸ List.getElem_mem inside)

theorem Text.terminated (text : Text m p s) : m (p + s.length) = 0 := by
  rw [text.2 _ (Nat.le_refl _),List.getD_eq_default _ _ (Nat.le_refl _)]

theorem Text.cons (text : Text m (p+1) s) (first : m p = c) (nonzero : c ≠ 0) : Text m p (c :: s) := by
  constructor
  · intro member
    rcases List.mem_cons.mp member with zero | later
    · exact nonzero zero.symm
    · exact text.1 later
  · intro i inside
    cases i with
    | zero => rw [Nat.add_zero,first,List.getD_cons_zero]
    | succ i => rw [show p + (i+1) = p+1+i by omega,text.2 i (by simpa using inside),List.getD_cons_succ]

/-- A text is kept where its bytes are. -/
theorem Text.congr (text : Text m p s) (same : ∀ i ≤ s.length, m' (p+i) = m (p+i)) : Text m' p s :=
  ⟨text.1,fun i inside => by rw [same i inside,text.2 i inside]⟩

/-- The text that a buffer holds, up to the first zero. -/
theorem text_range {n : Nat} (ends : m (p+n) = 0) : Text m p (((List.range n).map (fun i => m (p+i))).takeWhile (· ≠ 0)) := by
  induction n generalizing p with
  | zero =>
    refine ⟨List.not_mem_nil,?_⟩
    intro i inside
    obtain rfl : i = 0 := by simpa using inside
    exact ends
  | succ n ih =>
    have later : (fun i => m (p+i)) ∘ Nat.succ = fun i => m (p+1+i) := by
      funext i
      rw [Function.comp_apply,Nat.succ_eq_add_one,show p + (i+1) = p+1+i by omega]
    rw [List.range_succ_eq_map,List.map_cons,List.map_map,later,List.takeWhile_cons,Nat.add_zero]
    by_cases zero : m p = 0
    · rw [if_neg (by rw [decide_eq_true_iff]; exact fun other => other zero)]
      refine ⟨List.not_mem_nil,?_⟩
      intro i inside
      obtain rfl : i = 0 := by simpa using inside
      exact zero
    · rw [if_pos (by rw [decide_eq_true_iff]; exact zero)]
      exact (ih (by rw [show p+1+n = p + (n+1) by omega]; exact ends)).cons rfl zero

/-- One text stands at an address. -/
theorem Text.unique (text : Text m p s) (other : Text m p t) : s = t := by
  have size : s.length = t.length := by
    rcases Nat.lt_trichotomy s.length t.length with less | same | more
    · exact absurd text.terminated (other.getD_ne less)
    · exact same
    · exact absurd other.terminated (text.getD_ne more)
  apply List.ext_getElem size
  intro i inside inside'
  have left := text.2 i (by omega)
  rw [other.2 i (by omega),List.getD_eq_getElem _ _ inside,List.getD_eq_getElem _ _ inside'] at left
  exact left.symm

end WaifuOS.Bytes

namespace WaifuOS
open WaifuOS.Bytes

/-- The loop of `strlen`, which looks at the lowest of the four bytes it reads. -/
def strlenLoop (m : Mem) (rdi rax : Nat) : Nat → Option Nat
  | 0 => none
  | fuel+1 => if m (rdi + rax) = 0 then some rax else strlenLoop m rdi (rax+1) fuel

def strlen (m : Mem) (str fuel : Nat) : Option Nat := strlenLoop m str 0 fuel

theorem strlenLoop_text {m : Mem} {p rax k fuel : Nat} {s : List (BitVec 8)} (text : Text m p s) (whole : rax + k = s.length)
    (enough : k < fuel) : strlenLoop m p rax fuel = some s.length := by
  induction k generalizing rax fuel with
  | zero =>
    obtain ⟨fuel,rfl⟩ := Nat.exists_eq_add_of_lt enough
    obtain rfl : rax = s.length := by omega
    rw [Nat.zero_add,strlenLoop,if_pos text.terminated]
  | succ k ih =>
    cases fuel with
    | zero => omega
    | succ fuel =>
      rw [strlenLoop,if_neg (text.getD_ne (by omega))]
      exact ih (by omega) (by omega)

/-- `strlen` answers the length of a text. -/
theorem strlen_text {m : Mem} {p fuel : Nat} {s : List (BitVec 8)} (text : Text m p s) (enough : s.length < fuel) :
    strlen m p fuel = some s.length := strlenLoop_text text (Nat.zero_add _) enough

end WaifuOS
