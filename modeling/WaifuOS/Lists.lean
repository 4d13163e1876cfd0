import WaifuOS.Words
import Mathlib.Data.List.Basic
import Mathlib.Logic.Function.Basic

/-!
The growing array of `List.h`. `mArray` is the array that is allocated, of which
`mArraySize` elements are there and `mCount` are in use. `Add` allocates a larger
array when the list is full, which takes a call of `malloc` and one of `free`.
As long as the count is a word that does not wrap, the operations are those of
sequences on the elements in use (`elements_add`, `elements_removeAt`, `get_eq`).
The guard of `RemoveAt` and `Get` adds one to the index first, and so
it takes the last index of all for an index inside; and behind the report of `Get` nothing faults, so that an element is
read at every index (`guards_never`).
-/
namespace WaifuOS
open WaifuOS.Words

structure KernelList (T : Type) where
  mArray : Nat → T
  mArraySize : Nat
  mCount : Nat

namespace KernelList
variable {T : Type} [Inhabited T]

/-- `List()`. -/
def empty : KernelList T where
  mArray := fun _ => default
  mArraySize := 5
  mCount := 0

def GetCount (l : KernelList T) : Nat := l.mCount

/-- Whether `Add` has to allocate. -/
def full (l : KernelList T) : Bool := decide (wrap (l.mCount + 1) > l.mArraySize)

def Add (l : KernelList T) (item : T) : KernelList T :=
  let l := if l.full then
      { l with
        mArray := fun x => if x < l.mCount then l.mArray x else default
        mArraySize := wrap (l.mArraySize + 5) }
    else l
  { l with mArray := Function.update l.mArray l.mCount item, mCount := wrap (l.mCount + 1) }

/-- The loop of `RemoveAt` from `x` on, `n` rounds: every element moves down by one,
    the first of all to the last index. -/
def moveDown (mArray : Nat → T) (x : Nat) : Nat → Nat → T
  | 0 => mArray
  | n+1 => moveDown (Function.update mArray (sub x 1) (mArray x)) (x+1) n

def RemoveAt (l : KernelList T) (index : Nat) : KernelList T :=
  if wrap (index + 1) > l.mCount then l
  else if index = 0 ∧ l.mCount = 1 then { l with mArray := Function.update l.mArray 0 default, mCount := 0 }
  else { l with mArray := moveDown l.mArray (wrap (index+1)) (l.mCount - wrap (index+1)), mCount := sub l.mCount 1 }

/-- What `Get` does. -/
inductive Access
  | report (index mCount : Nat)
  | read (index : Nat)
deriving DecidableEq

/-- `Get` with what it does: `*(byte*)nullptr` behind the report loads nothing, and the element is read in any case. -/
def Get (l : KernelList T) (index : Nat) : List Access × T :=
  ((if wrap (index + 1) > l.mCount then [.report index l.mCount] else []) ++ [.read index],l.mArray index)

/-- `operator[]`. -/
def subscript (l : KernelList T) (index : Nat) : List Access × T := l.Get index

/-- The loop of `Remove` from `x` on, `n` rounds: the index of the first element that is equal. -/
def search [BEq T] (l : KernelList T) (item : T) (x : Nat) : Nat → Option Nat
  | 0 => none
  | n+1 => if item == l.mArray x then some x else search l item (x+1) n

def Remove [BEq T] (l : KernelList T) (item : T) : KernelList T :=
  match l.search item 0 l.mCount with
  | some x => l.RemoveAt x
  | none => l

def Clear (l : KernelList T) : KernelList T :=
  { l with mArray := fun x => if x < l.mCount then default else l.mArray x, mCount := 0 }

/-- The elements in use. -/
def elements (l : KernelList T) : List T := (List.range l.mCount).map l.mArray

variable {l : KernelList T} {item : T} {index : Nat}

omit [Inhabited T] in
@[simp] theorem elements_length : l.elements.length = l.mCount := by simp [elements]

omit [Inhabited T] in
theorem elements_getElem? : l.elements[index]? = if index < l.mCount then some (l.mArray index) else none := by
  by_cases inside : index < l.mCount
  · simp [elements,inside]
  · simp [elements,inside]

/-- What `Add` does to the array and the count. -/
theorem add_mCount : (l.Add item).mCount = wrap (l.mCount + 1) := by
  simp only [Add]
  split <;> rfl

theorem add_mArray {x : Nat} (inside : x ≤ l.mCount) : (l.Add item).mArray x = if x = l.mCount then item else l.mArray x := by
  simp only [Add]
  by_cases last : x = l.mCount
  · subst last
    split <;> simp
  · have before : x < l.mCount := by omega
    split <;> simp [last,before]

/-- `Add` appends. -/
theorem elements_add (room : l.mCount + 1 < 2^64) : (l.Add item).elements = l.elements ++ [item] := by
  rw [elements,add_mCount,wrap_of_lt room,List.range_succ,List.map_append,List.map_singleton,add_mArray (Nat.le_refl _),
    if_pos rfl,elements]
  congr 1
  apply List.map_congr_left
  intro x member
  have inside := List.mem_range.mp member
  rw [add_mArray (by omega),if_neg (by omega)]

omit [Inhabited T] in
/-- The loop of `RemoveAt` moves the elements behind the removed one down. -/
theorem moveDown_eq {mArray : Nat → T} {x n y : Nat} (words : x + n < 2^64) :
    moveDown mArray (x+1) n y = if x ≤ y ∧ y < x+n then mArray (y+1) else mArray y := by
  induction n generalizing mArray x with
  | zero => rw [moveDown,if_neg (by omega)]
  | succ n ih =>
    rw [moveDown,ih (by omega),sub_of_le (by omega) (by omega),Nat.add_sub_cancel]
    by_cases first : y = x
    · subst first
      rw [if_neg (by omega),if_pos (by omega),Function.update_self]
    · by_cases later : x+1 ≤ y ∧ y < x+1+n
      · rw [if_pos later,if_pos (by omega),Function.update_of_ne (by omega)]
      · rw [if_neg later,if_neg (by omega),Function.update_of_ne first]

theorem removeAt_mCount (inside : index < l.mCount) (word : l.mCount < 2^64) :
    (l.RemoveAt index).mCount = l.mCount - 1 := by
  rw [RemoveAt,wrap_of_lt (by omega),if_neg (by omega)]
  by_cases single : index = 0 ∧ l.mCount = 1
  · rw [if_pos single]
    exact (Nat.sub_eq_zero_of_le (by omega)).symm
  · rw [if_neg single]
    exact sub_of_le (by omega) word

/-- `RemoveAt` erases the element at a position. -/
theorem elements_removeAt (inside : index < l.mCount) (word : l.mCount < 2^64) :
    (l.RemoveAt index).elements = l.elements.eraseIdx index := by
  apply List.ext_getElem?
  intro y
  rw [elements_getElem?,removeAt_mCount inside word,List.getElem?_eraseIdx,elements_getElem?,elements_getElem?]
  by_cases single : index = 0 ∧ l.mCount = 1
  · rw [if_neg (by omega),if_neg (by omega),if_neg (by omega)]
  · have array : (l.RemoveAt index).mArray y =
        if index ≤ y ∧ y < index + (l.mCount - (index+1)) then l.mArray (y+1) else l.mArray y := by
      rw [RemoveAt,wrap_of_lt (by omega),if_neg (by omega),if_neg single]
      exact moveDown_eq (by omega)
    rw [array]
    by_cases before : y < index
    · rw [if_pos (by omega),if_pos before,if_neg (by omega),if_pos (by omega)]
    · by_cases here : y < l.mCount - 1
      · rw [if_pos here,if_neg before,if_pos (by omega),if_pos (by omega)]
      · rw [if_neg here,if_neg before,if_neg (by omega)]

omit [Inhabited T] in
@[simp] theorem get_value : (l.Get index).2 = l.mArray index := rfl

omit [Inhabited T] in
@[simp] theorem subscript_value : (l.subscript index).2 = l.mArray index := rfl

omit [Inhabited T] in
/-- `Get` reads the element at a position. -/
theorem get_eq (inside : index < l.mCount) : l.elements[index]? = some (l.Get index).2 := by
  rw [elements_getElem?,if_pos inside,get_value]

omit [Inhabited T] in
/-- The guard lets the last index of all through, and no other that is outside. -/
theorem guard_iff (word : index < 2^64) (outside : l.mCount ≤ index) : wrap (index + 1) > l.mCount ↔ index ≠ 2^64 - 1 := by
  simp only [wrap]
  omega

/-- At the last index of all `RemoveAt` starts with the element 0. -/
theorem removeAt_last (l : KernelList T) :
    l.RemoveAt (2^64 - 1) = { l with mArray := moveDown l.mArray 0 l.mCount, mCount := sub l.mCount 1 } := by
  have zero : wrap (2^64 - 1 + 1) = 0 := by unfold wrap; rfl
  rw [RemoveAt,zero,if_neg (Nat.not_lt_zero _),if_neg (fun single => absurd single.1 (by decide))]
  rfl

/-- The count is another one than before, also that of the empty list. -/
theorem removeAt_last_ne : l.RemoveAt (2^64 - 1) ≠ l := by
  intro same
  have counts := congrArg mCount same
  rw [removeAt_last] at counts
  simp only [sub] at counts
  omega

/-- The elements move down by one, and the first is written in front of the array. -/
theorem elements_removeAt_last (nonempty : l.mCount ≠ 0) (count : l.mCount < 2^64) :
    (l.RemoveAt (2^64 - 1)).elements = l.elements.tail ∧
      (l.RemoveAt (2^64 - 1)).mArray (2^64 - 1) = l.mArray 0 := by
  obtain ⟨n,some⟩ := Nat.exists_eq_succ_of_ne_zero nonempty
  have front : sub 0 1 = 2^64 - 1 := by unfold sub; rfl
  have moved : ∀ y, moveDown l.mArray 0 l.mCount y =
      if y < n then l.mArray (y+1) else Function.update l.mArray (2^64 - 1) (l.mArray 0) y := by
    intro y
    rw [some,Nat.succ_eq_add_one,moveDown,front,moveDown_eq (by omega)]
    by_cases inside : y < n
    · rw [if_pos (by omega),if_pos inside,Function.update_of_ne (by omega)]
    · rw [if_neg (by omega),if_neg inside]
  rw [removeAt_last]
  constructor
  · apply List.ext_getElem?
    intro y
    rw [elements_getElem?,List.getElem?_tail,elements_getElem?]
    simp only [moved,sub_of_le (show 1 ≤ l.mCount by omega) count]
    by_cases inside : y < n
    · rw [if_pos (by omega),if_pos inside,if_pos (by omega)]
    · rw [if_neg (by omega),if_neg (by omega)]
  · simp only [moved]
    rw [if_neg (by omega),Function.update_self]

/-- An index is reported, and no element is read. -/
def Refused (accesses : List Access) : Prop := (∃ index mCount, .report index mCount ∈ accesses) ∧ ∀ x, .read x ∉ accesses

omit [Inhabited T] in
theorem get_reads (l : KernelList T) (index : Nat) : ¬ Refused (l.Get index).1 := by
  intro refused
  exact refused.2 index (List.mem_append_right _ (List.mem_singleton_self _))

omit [Inhabited T] in
theorem get_reports (word : index < 2^64) (outside : l.mCount ≤ index) :
    .report index l.mCount ∈ (l.Get index).1 ↔ index ≠ 2^64 - 1 := by
  rw [← guard_iff word outside,Get]
  by_cases reports : wrap (index + 1) > l.mCount
  · simp [reports]
  · simp [reports]

/-- At no index outside `Get` and `operator[]` refuse: they report it, unless it is the last index of all, and read
    an element. `RemoveAt` leaves everything as it is at all of them but the last. -/
theorem guards_never (word : index < 2^64) (outside : l.mCount ≤ index) :
    ¬ (l.RemoveAt index = l ∧ Refused (l.Get index).1 ∧ Refused (l.subscript index).1) ∧
      (l.RemoveAt index = l ↔ index ≠ 2^64 - 1) ∧
      (.report index l.mCount ∈ (l.Get index).1 ↔ index ≠ 2^64 - 1) ∧ (.report index l.mCount ∈ (l.subscript index).1 ↔ index ≠ 2^64 - 1) ∧
      .read index ∈ (l.Get index).1 ∧ (l.Get index).2 = l.mArray index ∧ .read index ∈ (l.subscript index).1 := by
  have read : .read index ∈ (l.Get index).1 := List.mem_append_right _ (List.mem_singleton_self _)
  refine ⟨fun all => get_reads l index all.2.1,⟨fun same last => ?_,fun other => ?_⟩,get_reports word outside,get_reports word outside,
    read,rfl,read⟩
  · rw [last] at same
    exact removeAt_last_ne same
  · exact if_pos ((guard_iff word outside).mpr other)

/-- A list of one element is left as it is at its count, but the element there is read. -/
theorem guards_never_one : let l : KernelList Nat := ⟨fun _ => 7,5,1⟩
    l.RemoveAt 1 = l ∧ .report 1 1 ∈ (l.Get 1).1 ∧ .read 1 ∈ (l.Get 1).1 := by
  obtain ⟨_,removed,reports,_,reads,_⟩ := guards_never (l := (⟨fun _ => 7,5,1⟩ : KernelList Nat)) (show 1 < 2^64 by decide)
    (Nat.le_refl 1)
  exact ⟨removed.mpr (by decide),reports.mpr (by decide),reads⟩

/-- The element behind the only one of a list is read; at the last index of all the only element is gone, and the one in front of the
    array is read without a report. -/
theorem guards_fail : let l : KernelList Nat := ⟨fun _ => 7,5,1⟩
    l.mCount ≤ 1 ∧ ¬ Refused (l.Get 1).1 ∧ ¬ Refused (l.subscript 1).1 ∧
      l.mCount ≤ 2^64 - 1 ∧ l.RemoveAt (2^64 - 1) ≠ l ∧ l.Get (2^64 - 1) = ([.read (2^64 - 1)],7) := by
  have zero : wrap (2^64 - 1 + 1) = 0 := by unfold wrap; rfl
  refine ⟨by decide,get_reads _ _,get_reads _ _,by decide,removeAt_last_ne,?_⟩
  rw [Get,zero,if_neg (Nat.not_lt_zero _)]
  rfl

omit [Inhabited T] in
/-- The loop of `Remove` finds the first element that is equal. -/
theorem search_eq [BEq T] {x n : Nat} : l.search item x n = (((List.range' x n).map l.mArray).findIdx? (item == ·)).map (x + ·) := by
  induction n generalizing x with
  | zero => rfl
  | succ n ih =>
    rw [search,List.range'_succ,List.map_cons,List.findIdx?_cons]
    by_cases here : (item == l.mArray x) = true
    · rw [if_pos here,if_pos here]
      rfl
    · rw [if_neg here,if_neg here,ih,Option.map_map]
      congr 1
      funext i
      simp only [Function.comp_apply]
      omega

/-- `Remove` erases the first element that is equal. -/
theorem elements_remove [BEq T] (word : l.mCount < 2^64) : (l.Remove item).elements = l.elements.eraseP (item == ·) := by
  have range : (List.range' 0 l.mCount).map l.mArray = l.elements := by rw [elements,List.range_eq_range']
  rw [Remove,search_eq,range,List.eraseP_eq_eraseIdx]
  cases found : l.elements.findIdx? (item == ·) with
  | none => rfl
  | some x =>
    have inside := (List.findIdx?_eq_some_iff_findIdx_eq.mp found).1
    rw [elements_length] at inside
    simp only [Option.map_some,Nat.zero_add]
    exact elements_removeAt inside word

/-- An element that is not in use is not removed. -/
theorem remove_absent [BEq T] [LawfulBEq T] (absent : item ∉ l.elements) : l.Remove item = l := by
  have range : (List.range' 0 l.mCount).map l.mArray = l.elements := by rw [elements,List.range_eq_range']
  have none : l.elements.findIdx? (item == ·) = none := by
    rw [List.findIdx?_eq_none_iff]
    intro x member
    by_contra same
    rw [Bool.not_eq_false,beq_iff_eq] at same
    exact absent (same ▸ member)
  rw [Remove,search_eq,range,none]
  rfl

@[simp] theorem elements_clear : l.Clear.elements = [] := rfl

theorem add_mArraySize : (l.Add item).mArraySize = if l.full then wrap (l.mArraySize + 5) else l.mArraySize := by
  simp only [Add]
  split <;> rfl

@[simp] theorem removeAt_mArraySize : (l.RemoveAt index).mArraySize = l.mArraySize := by
  simp only [RemoveAt]
  split
  · rfl
  · split <;> rfl

@[simp] theorem remove_mArraySize [BEq T] : (l.Remove item).mArraySize = l.mArraySize := by
  simp only [Remove]
  split
  · exact removeAt_mArraySize
  · rfl

end KernelList
end WaifuOS
