import WaifuOS.Lists

/-!
The list of `List.h` over an array that has bounds. An access outside the array is a fault,
and so are an array that is too large to be allocated, an item that is read from an array after that was freed, and
an array that is freed by another pointer than `malloc` returned; `KernelList` is what is left
when none of this is looked at (`unchecked`). Where the count is at most the size of the
array (`Valid`) no operation accesses it outside, and each does what it does on
`KernelList`. So a run of calls does to the elements what it means for a sequence, exactly if no call of `Add` that
needs a larger array is for elements with a destructor or for an element of the list itself (`run_behaves_iff`).
-/
namespace WaifuOS
open WaifuOS.Words

/-- Why a call of a list has no result. -/
inductive ListFault
  | outside | exhausted
  /-- A read of an array that was freed. -/
  | freed
  /-- `free` of a pointer that `malloc` did not return. -/
  | unallocated
  deriving DecidableEq

/-- What counts of the type of the elements: its bytes, and those that `new[]` puts in front of an array, which are
    none unless the type has a destructor. -/
structure Element where
  size : Nat
  cookie : Nat

/-- The most elements of an array. -/
def Element.limit (t : Element) : Nat := (2^63 - 1 - t.cookie) / t.size

/-- A list with its array, which holds the elements that are allocated. -/
structure BoundedList (T : Type) where
  mArray : List T
  mArraySize : Nat
  mCount : Nat

namespace BoundedList
variable {T : Type} [Inhabited T]

/-- An element of the array. -/
def read (mArray : List T) (x : Nat) : Except ListFault T :=
  match mArray[x]? with
  | some item => .ok item
  | none => .error .outside

/-- The array after a write to one of its elements. -/
def write (mArray : List T) (x : Nat) (item : T) : Except ListFault (List T) :=
  if x < mArray.length then .ok (mArray.set x item) else .error .outside

/-- `new T[n]`; more bytes than a signed word counts are not allocated. -/
def newArray (t : Element) (n : Nat) : Except ListFault (List T) :=
  if n ≤ t.limit then .ok (List.replicate n default) else .error .exhausted

/-- `delete` of an array. It is not `delete[]`, and frees the first element instead of what stands in front of it. -/
def delete (t : Element) : Except ListFault Unit := if t.cookie = 0 then .ok () else .error .unallocated

/-- What a `const T&` refers to: something outside of the list, or one of its elements. -/
inductive Item (T : Type)
  | value (item : T)
  | own (index : Nat)

/-- The item, as long as the array is there. -/
def Item.load (mArray : List T) : Item T → Except ListFault T
  | .value item => .ok item
  | .own index => read mArray index

/-- The item after the array was freed. -/
def Item.loadFreed : Item T → Except ListFault T
  | .value item => .ok item
  | .own _ => .error .freed

/-- `List()`. -/
def empty (t : Element) : Except ListFault (BoundedList T) := do
  let mArray ← newArray t 5
  .ok ⟨mArray,5,0⟩

/-- `List(initialCount)`. -/
def ofCount (t : Element) (initialCount : Nat) : Except ListFault (BoundedList T) := do
  let mArray ← newArray t initialCount
  .ok ⟨mArray,initialCount,initialCount⟩

/-- The loop of `Add` from `x` on, `n` rounds. -/
def copyLoop (mArray newArray : List T) (x : Nat) : Nat → Except ListFault (List T)
  | 0 => .ok newArray
  | n+1 => do
    let newArray ← write newArray x (← read mArray x)
    copyLoop mArray newArray (x+1) n

/-- The larger array that `Add` makes when the list is full. -/
def grow (t : Element) (l : BoundedList T) : Except ListFault (BoundedList T) := do
  let newArray ← newArray t (wrap (l.mArraySize + 5))
  let mArray ← copyLoop l.mArray newArray 0 l.mCount
  .ok { l with mArray, mArraySize := wrap (l.mArraySize + 5) }

/-- The assignment to the element behind the last one. -/
def push (l : BoundedList T) (item : T) : Except ListFault (BoundedList T) := do
  let mArray ← write l.mArray l.mCount item
  .ok { l with mArray, mCount := wrap (l.mCount + 1) }

/-- `Add`, which loads the item when the old array is deleted. -/
def Add (t : Element) (l : BoundedList T) (item : Item T) : Except ListFault (BoundedList T) :=
  if wrap (l.mCount + 1) > l.mArraySize then do
    let l ← grow t l
    delete t
    l.push (← item.loadFreed)
  else do l.push (← item.load l.mArray)

/-- The loop of `RemoveAt` from `x` on, `n` rounds. -/
def moveLoop (mArray : List T) (x : Nat) : Nat → Except ListFault (List T)
  | 0 => .ok mArray
  | n+1 => do
    let mArray ← write mArray (sub x 1) (← read mArray x)
    moveLoop mArray (x+1) n

def RemoveAt (l : BoundedList T) (index : Nat) : Except ListFault (BoundedList T) :=
  if wrap (index + 1) > l.mCount then .ok l
  else if index = 0 ∧ l.mCount = 1 then do
    -- `memset64(mArray,0,sizeof(T))`
    let mArray ← write l.mArray 0 default
    .ok { l with mArray, mCount := 0 }
  else do
    let mArray ← moveLoop l.mArray (wrap (index+1)) (l.mCount - wrap (index+1))
    .ok { l with mArray, mCount := sub l.mCount 1 }

/-- The loop of `Remove` from `x` on, `n` rounds. -/
def removeLoop [BEq T] (l : BoundedList T) (item : Item T) (x : Nat) : Nat → Except ListFault (BoundedList T)
  | 0 => .ok l
  | n+1 => do
    if (← item.load l.mArray) == (← read l.mArray x) then l.RemoveAt x else removeLoop l item (x+1) n

def Remove [BEq T] (l : BoundedList T) (item : Item T) : Except ListFault (BoundedList T) := l.removeLoop item 0 l.mCount

/-- `Get`; it reports an index that is outside, and reads the element all the same. -/
def Get (l : BoundedList T) (index : Nat) : Except ListFault T := read l.mArray index

/-- What `memset64` clears from the element `x` on, `n` elements. -/
def clearLoop (mArray : List T) (x : Nat) : Nat → Except ListFault (List T)
  | 0 => .ok mArray
  | n+1 => do
    let mArray ← write mArray x default
    clearLoop mArray (x+1) n

def Clear (l : BoundedList T) : Except ListFault (BoundedList T) := do
  let mArray ← clearLoop l.mArray 0 l.mCount
  .ok { l with mArray, mCount := 0 }

/-! ### Without the bounds -/

/-- The elements of an array, as a function of the index. -/
def items (mArray : List T) (x : Nat) : T := mArray.getD x default

/-- The list as `KernelList` has it. -/
def unchecked (l : BoundedList T) : KernelList T := ⟨items l.mArray,l.mArraySize,l.mCount⟩

/-- The elements in use. -/
def elements (l : BoundedList T) : List T := l.unchecked.elements

/-- The count is at most the number of elements that are allocated. -/
structure Valid (l : BoundedList T) : Prop where
  length : l.mArray.length = l.mArraySize
  count : l.mCount ≤ l.mArraySize
  small : l.mArraySize < 2^63

variable {l : BoundedList T} {mArray : List T} {item : T} {t : Element} {x n index : Nat}

theorem read_eq (inside : x < mArray.length) : read mArray x = .ok (items mArray x) := by
  simp [read,items,inside]

theorem items_set (inside : x < mArray.length) : items (mArray.set x item) = Function.update (items mArray) x item := by
  funext y
  by_cases here : y = x
  · subst here
    rw [Function.update_self]
    simp [items,inside]
  · rw [Function.update_of_ne here]
    simp [items,List.getElem?_set_ne (Ne.symm here)]

omit [Inhabited T] in
theorem write_eq (inside : x < mArray.length) : write mArray x item = .ok (mArray.set x item) := if_pos inside

omit [Inhabited T] in
/-- A range that is gone through from its first index on. -/
theorem range_step (f g : Nat → T) (x n y : Nat) :
    (if x+1 ≤ y ∧ y < x+1+n then f y else Function.update g x (f x) y) = if x ≤ y ∧ y < x+(n+1) then f y else g y := by
  by_cases first : y = x
  · subst first
    rw [if_neg (by omega),if_pos (by omega),Function.update_self]
  · rw [Function.update_of_ne first]
    by_cases later : x+1 ≤ y ∧ y < x+1+n
    · rw [if_pos later,if_pos (by omega)]
    · rw [if_neg later,if_neg (by omega)]

/-- The loop of `Add` copies the elements in use. -/
theorem copyLoop_eq {array : List T} (from_inside : x + n ≤ mArray.length) (to_inside : x + n ≤ array.length) :
    ∃ copy, copyLoop mArray array x n = .ok copy ∧ copy.length = array.length ∧
      ∀ y, items copy y = if x ≤ y ∧ y < x+n then items mArray y else items array y := by
  induction n generalizing array x with
  | zero => exact ⟨array,rfl,rfl,fun y => by rw [if_neg (by omega)]⟩
  | succ n ih =>
    obtain ⟨copy,copied,length,same⟩ := ih (show x+1+n ≤ mArray.length by omega)
      (show x+1+n ≤ (array.set x (items mArray x)).length by rw [List.length_set]; omega)
    rw [List.length_set] at length
    refine ⟨copy,?_,length,?_⟩
    · rw [copyLoop,read_eq (by omega)]
      show (write array x (items mArray x) >>= fun array => copyLoop mArray array (x+1) n) = _
      rw [write_eq (by omega)]
      exact copied
    · intro y
      rw [same,items_set (by omega)]
      exact range_step (items mArray) (items array) x n y

/-- The loop of `RemoveAt` moves as it does without bounds. -/
theorem moveLoop_eq (inside : x + 1 + n ≤ mArray.length) (small : mArray.length < 2^64) : ∃ moved, moveLoop mArray (x+1) n = .ok moved ∧
    moved.length = mArray.length ∧ items moved = KernelList.moveDown (items mArray) (x+1) n := by
  induction n generalizing mArray x with
  | zero => exact ⟨mArray,rfl,rfl,rfl⟩
  | succ n ih =>
    have before : sub (x+1) 1 = x := sub_of_le (Nat.le_add_left 1 x) (by omega)
    obtain ⟨moved,done,length,same⟩ := ih (show x+1+1+n ≤ (mArray.set x (items mArray (x+1))).length by
      rw [List.length_set]; omega) (by rw [List.length_set]; exact small)
    rw [List.length_set] at length
    refine ⟨moved,?_,length,?_⟩
    · rw [moveLoop,read_eq (by omega),before]
      show (write mArray x (items mArray (x+1)) >>= fun array => moveLoop array (x+1+1) n) = _
      rw [write_eq (by omega)]
      exact done
    · rw [same,items_set (by omega),KernelList.moveDown,before]

/-- What is cleared. -/
theorem clearLoop_eq (inside : x + n ≤ mArray.length) : ∃ cleared, clearLoop mArray x n = .ok cleared ∧
    cleared.length = mArray.length ∧ ∀ y, items cleared y = if x ≤ y ∧ y < x+n then default else items mArray y := by
  induction n generalizing mArray x with
  | zero => exact ⟨mArray,rfl,rfl,fun y => by rw [if_neg (by omega)]⟩
  | succ n ih =>
    obtain ⟨cleared,done,length,same⟩ := ih (show x+1+n ≤ (mArray.set x default).length by rw [List.length_set]; omega)
    rw [List.length_set] at length
    refine ⟨cleared,?_,length,?_⟩
    · rw [clearLoop,write_eq (by omega)]
      exact done
    · intro y
      rw [same,items_set (by omega)]
      exact range_step (fun _ => default) (items mArray) x n y

/-! ### One operation -/

theorem elements_eq : l.elements = (List.range l.mCount).map (items l.mArray) := rfl

/-- The larger array holds the elements in use, and nothing behind them. -/
theorem grow_eq (valid : l.Valid) (room : l.mArraySize + 5 ≤ t.limit) : ∃ copy,
    l.grow t = .ok ⟨copy,l.mArraySize + 5,l.mCount⟩ ∧ copy.length = l.mArraySize + 5 ∧ items copy = fun x => if x < l.mCount then items l.mArray x else default := by
  have count := valid.count
  have length := valid.length
  have larger : wrap (l.mArraySize + 5) = l.mArraySize + 5 := wrap_of_lt (by have small := valid.small; omega)
  obtain ⟨copy,copied,copyLength,same⟩ := copyLoop_eq (show 0 + l.mCount ≤ l.mArray.length by omega)
    (show 0 + l.mCount ≤ (List.replicate (l.mArraySize + 5) default).length by rw [List.length_replicate]; omega)
  rw [List.length_replicate] at copyLength
  refine ⟨copy,?_,copyLength,?_⟩
  · simp only [grow,larger,newArray,if_pos room]
    show (copyLoop l.mArray _ 0 l.mCount >>= _) = _
    rw [copied]
    rfl
  · funext x
    rw [same]
    by_cases used : x < l.mCount
    · rw [if_pos used,if_pos ⟨Nat.zero_le _,by omega⟩]
    · rw [if_neg used,if_neg (by omega)]
      by_cases inside : x < l.mArraySize + 5 <;> simp [items,inside]

/-- Where there is no memory for the larger array. -/
theorem grow_fails (valid : l.Valid) (room : ¬ l.mArraySize + 5 ≤ t.limit) : l.grow t = .error .exhausted := by
  have larger : wrap (l.mArraySize + 5) = l.mArraySize + 5 := wrap_of_lt (by have small := valid.small; omega)
  simp only [grow,larger,newArray,if_neg room]
  rfl

omit [Inhabited T] in
/-- The item is written behind the elements in use. -/
theorem push_eq (inside : l.mCount < l.mArray.length) (small : l.mCount + 1 < 2^64) (item : T) :
    l.push item = .ok ⟨l.mArray.set l.mCount item,l.mArraySize,l.mCount + 1⟩ := by
  rw [push,write_eq inside,wrap_of_lt small]
  rfl

omit [Inhabited T] in
theorem limit_lt (small : n ≤ t.limit) : n < 2^63 := by
  have bound : n ≤ 2^63 - 1 - t.cookie := Nat.le_trans small (Nat.div_le_self _ _)
  omega

/-- While there is room, the item is added. -/
theorem add_room (valid : l.Valid) (room : l.mCount < l.mArraySize) {item : Item T} (loaded : item.load l.mArray = .ok v) :
    ∃ l', l.Add t item = .ok l' ∧ l'.Valid ∧ l'.mArraySize = l.mArraySize ∧ l'.unchecked = l.unchecked.Add v := by
  have small := valid.small
  have length := valid.length
  have next : wrap (l.mCount + 1) = l.mCount + 1 := wrap_of_lt (by omega)
  have notFull : l.unchecked.full = false := by simp [KernelList.full,unchecked,next]; omega
  have inside : l.mCount < l.mArray.length := by omega
  refine ⟨⟨l.mArray.set l.mCount v,l.mArraySize,l.mCount + 1⟩,?_,⟨?_,room,small⟩,rfl,?_⟩
  · rw [Add,next,if_neg (by omega),loaded]
    exact push_eq inside (by omega) v
  · rw [List.length_set,length]
  · simp only [KernelList.Add,notFull,Bool.false_eq_true,if_false]
    simp only [unchecked,next,items_set inside]

/-- The larger array has an element more. -/
theorem add_full (valid : l.Valid) (full : l.mCount = l.mArraySize) (room : l.mArraySize + 5 ≤ t.limit) (v : T) :
    ∃ copy l', l.grow t = .ok copy ∧ copy.push v = .ok l' ∧ l'.Valid ∧ l'.mArraySize = l.mArraySize + 5 ∧ l'.unchecked = l.unchecked.Add v := by
  have small := valid.small
  have bound := limit_lt room
  have next : wrap (l.mCount + 1) = l.mCount + 1 := wrap_of_lt (by omega)
  have larger : wrap (l.mArraySize + 5) = l.mArraySize + 5 := wrap_of_lt (by omega)
  have isFull : l.unchecked.full = true := by simp [KernelList.full,unchecked,next]; omega
  obtain ⟨copy,grown,length,array⟩ := grow_eq valid room
  have inside : l.mCount < copy.length := by omega
  have pushed : (⟨copy,l.mArraySize + 5,l.mCount⟩ : BoundedList T).push v = .ok ⟨copy.set l.mCount v,l.mArraySize + 5,l.mCount + 1⟩ :=
    push_eq (l := ⟨copy,l.mArraySize + 5,l.mCount⟩) inside (show l.mCount + 1 < 2^64 by omega) v
  refine ⟨_,⟨copy.set l.mCount v,l.mArraySize + 5,l.mCount + 1⟩,grown,pushed,⟨?_,?_,bound⟩,rfl,?_⟩
  · rw [List.length_set,length]
  · show l.mCount + 1 ≤ l.mArraySize + 5
    omega
  · simp only [KernelList.Add,isFull,if_true]
    simp only [unchecked,next,larger,items_set inside,array]
    rfl

/-- What `Add` does to a list that is full: there is no memory for the larger array, or the old one and the item decide. -/
theorem add_grows (valid : l.Valid) (full : l.mCount = l.mArraySize) (item : Item T) :
    l.Add t item = if l.mArraySize + 5 ≤ t.limit then do
        let copy ← l.grow t
        delete t
        copy.push (← item.loadFreed)
      else .error .exhausted := by
  have small := valid.small
  have next : wrap (l.mCount + 1) = l.mCount + 1 := wrap_of_lt (by omega)
  rw [Add,next,if_pos (by omega)]
  by_cases room : l.mArraySize + 5 ≤ t.limit
  · rw [if_pos room]
  · rw [if_neg room,grow_fails valid room]
    rfl

theorem removeAt_unchecked (valid : l.Valid) (inside : index < l.mCount) :
    ∃ l', l.RemoveAt index = .ok l' ∧ l'.Valid ∧ l'.unchecked = l.unchecked.RemoveAt index := by
  have count := valid.count
  have small := valid.small
  have length := valid.length
  have step : wrap (index + 1) = index + 1 := wrap_of_lt (by omega)
  have next : ¬ wrap (index + 1) > l.mCount := by omega
  by_cases single : index = 0 ∧ l.mCount = 1
  · have first : 0 < l.mArray.length := by omega
    refine ⟨⟨l.mArray.set 0 default,l.mArraySize,0⟩,?_,⟨by rw [List.length_set,length],Nat.zero_le _,small⟩,?_⟩
    · rw [RemoveAt,if_neg next,if_pos single,write_eq first]
      rfl
    · simp only [unchecked,items_set first]
      exact ((if_neg next).trans (if_pos single)).symm
  · obtain ⟨moved,done,movedLength,same⟩ := moveLoop_eq (show index + 1 + (l.mCount - (index+1)) ≤ l.mArray.length by omega) (by omega)
    rw [← step] at done same
    have less : sub l.mCount 1 = l.mCount - 1 := sub_of_le (by omega) (by omega)
    refine ⟨⟨moved,l.mArraySize,sub l.mCount 1⟩,?_,⟨by rw [movedLength,length],?_,small⟩,?_⟩
    · rw [RemoveAt,if_neg next,if_neg single,done]
      rfl
    · show sub l.mCount 1 ≤ l.mArraySize
      omega
    · simp only [unchecked,same]
      exact ((if_neg next).trans (if_neg single)).symm

/-- At an index outside a list that is not empty, `RemoveAt` does nothing, or writes in front of the array. -/
theorem removeAt_outside (valid : l.Valid) (nonempty : l.mCount ≠ 0) (word : index < 2^64) (outside : l.mCount ≤ index) :
    l.RemoveAt index = if index = 2^64 - 1 then .error .outside else .ok l := by
  have guard : wrap (index + 1) > l.unchecked.mCount ↔ index ≠ 2^64 - 1 := KernelList.guard_iff word outside
  by_cases last : index = 2^64 - 1
  · have count := valid.count
    have small := valid.small
    have length := valid.length
    obtain ⟨n,some⟩ := Nat.exists_eq_succ_of_ne_zero nonempty
    have zero : wrap (2^64 - 1 + 1) = 0 := by unfold wrap; rfl
    have front : sub 0 1 = 2^64 - 1 := by unfold sub; rfl
    have beyond : ∀ item : T, write l.mArray (2^64 - 1) item = .error .outside := fun item => if_neg (by omega)
    rw [if_pos last,RemoveAt,last,zero,if_neg (Nat.not_lt_zero _),if_neg (by omega),some,Nat.succ_eq_add_one,Nat.sub_zero,
      moveLoop,read_eq (by omega),front]
    show ((write l.mArray (2^64 - 1) (items l.mArray 0) >>= fun array => moveLoop array (0+1) n) >>= _) = _
    rw [beyond]
    rfl
  · rw [if_neg last]
    exact if_pos (guard.mpr last)

/-- The loop of `Remove` removes the element that it finds without bounds. -/
theorem removeLoop_eq [BEq T] {item : Item T} (loaded : item.load l.mArray = .ok v) (length : l.mCount ≤ l.mArray.length)
    (inside : x + n ≤ l.mCount) : l.removeLoop item x n =
    match l.unchecked.search v x n with
    | some y => l.RemoveAt y
    | none => .ok l := by
  induction n generalizing x with
  | zero => rfl
  | succ n ih =>
    rw [removeLoop,loaded,read_eq (by omega),KernelList.search]
    by_cases here : (v == items l.mArray x) = true
    · have found : (v == l.unchecked.mArray x) = true := here
      rw [if_pos found]
      exact if_pos here
    · have other : ¬ (v == l.unchecked.mArray x) = true := here
      rw [if_neg other,← ih (by omega)]
      exact if_neg here

theorem remove_unchecked [BEq T] {item : Item T} (valid : l.Valid) (loaded : item.load l.mArray = .ok v) :
    ∃ l', l.Remove item = .ok l' ∧ l'.Valid ∧ l'.unchecked = l.unchecked.Remove v := by
  have count := valid.count
  have length := valid.length
  have same : l.unchecked.mCount = l.mCount := rfl
  rw [Remove,removeLoop_eq loaded (by omega) (by omega),KernelList.Remove,same]
  cases found : l.unchecked.search v 0 l.mCount with
  | none => exact ⟨l,rfl,valid,rfl⟩
  | some y =>
    rw [KernelList.search_eq] at found
    obtain ⟨z,at_z,rfl⟩ := Option.map_eq_some_iff.mp found
    have inside := (List.findIdx?_eq_some_iff_findIdx_eq.mp at_z).1
    rw [List.length_map,List.length_range'] at inside
    exact removeAt_unchecked valid (by omega)

theorem get_unchecked (valid : l.Valid) (inside : index < l.mCount) : l.Get index = .ok (l.unchecked.Get index).2 := by
  have count := valid.count
  have length := valid.length
  exact read_eq (by omega)

theorem clear_unchecked (valid : l.Valid) : ∃ l', l.Clear = .ok l' ∧ l'.Valid ∧ l'.unchecked = l.unchecked.Clear := by
  have count := valid.count
  have length := valid.length
  obtain ⟨cleared,done,clearedLength,same⟩ := clearLoop_eq (show 0 + l.mCount ≤ l.mArray.length by omega)
  refine ⟨⟨cleared,l.mArraySize,0⟩,?_,⟨by rw [clearedLength,length],Nat.zero_le _,valid.small⟩,?_⟩
  · rw [Clear,done]
    rfl
  · have array : items cleared = fun x => if x < l.mCount then default else items l.mArray x := by
      funext x
      rw [same]
      by_cases used : x < l.mCount
      · rw [if_pos used,if_pos (by omega)]
      · rw [if_neg used,if_neg (by omega)]
    simp only [KernelList.Clear,unchecked,array]
    rfl

/-! ### Runs -/

/-- The item of a sequence. -/
def Item.of (xs : List T) : Item T → T
  | .value v => v
  | .own index => xs.getD index default

def Item.Allowed (xs : List T) : Item T → Prop
  | .value _ => True
  | .own index => index < xs.length

/-- A call of a list. -/
inductive Call (T : Type)
  | Add (item : Item T) | Remove (item : Item T) | RemoveAt (index : Nat) | Get (index : Nat) | Clear

namespace Call

/-- What the call returns, and the list after it. -/
def exec [BEq T] (t : Element) (l : BoundedList T) : Call T → Except ListFault (Option T × BoundedList T)
  | .Add item => do .ok (none,← l.Add t item)
  | .Remove item => do .ok (none,← l.Remove item)
  | .RemoveAt index => do .ok (none,← l.RemoveAt index)
  | .Get index => do .ok (some (← l.Get index),l)
  | .Clear => do .ok (none,← l.Clear)

/-- What the call means for a sequence. -/
def apply [BEq T] (xs : List T) : Call T → Option T × List T
  | .Add item => (none,xs ++ [item.of xs])
  | .Remove item => (none,xs.eraseP (item.of xs == ·))
  | .RemoveAt index => (none,xs.eraseIdx index)
  | .Get index => (xs[index]?,xs)
  | .Clear => (none,[])

/-- Indices are below the count. -/
def Allowed (xs : List T) : Call T → Prop
  | .Add item => item.Allowed xs
  | .Remove item => item.Allowed xs
  | .RemoveAt index => index < xs.length
  | .Get index => index < xs.length
  | .Clear => True

/-- The size of the array after the call; only `Add` to a full list changes it. -/
def grown (capacity : Nat) (xs : List T) : Call T → Nat
  | .Add _ => if xs.length = capacity then capacity + 5 else capacity
  | _ => capacity

/-- A larger array is for elements without a destructor, and the item is none of the list itself. -/
def Safe (t : Element) (capacity : Nat) (xs : List T) : Call T → Prop
  | .Add item => xs.length = capacity → t.cookie = 0 ∧ ∃ v, item = .value v
  | _ => True

end Call

/-- The calls one after another: what they return, and the list in the end. -/
def run [BEq T] (t : Element) (l : BoundedList T) : List (Call T) → Except ListFault (List (Option T) × BoundedList T)
  | [] => .ok ([],l)
  | call :: calls => do
    let (answer,l) ← call.exec t l
    let (answers,l) ← run t l calls
    .ok (answer :: answers,l)

/-- The calls one after another on a sequence. -/
def meaning [BEq T] (xs : List T) : List (Call T) → List (Option T) × List T
  | [] => ([],xs)
  | call :: calls =>
    let (answer,xs) := call.apply xs
    let (answers,xs) := meaning xs calls
    (answer :: answers,xs)

/-- Every index is below the count at its call. -/
def AllAllowed [BEq T] (xs : List T) : List (Call T) → Prop
  | [] => True
  | call :: calls => call.Allowed xs ∧ AllAllowed (call.apply xs).2 calls

/-- All calls are safe, as long as the arrays can be allocated. -/
def AllSafe [BEq T] (t : Element) : Nat → List T → List (Call T) → Prop
  | _, _, [] => True
  | capacity, xs, call :: calls => call.grown capacity xs ≤ t.limit →
      call.Safe t capacity xs ∧ AllSafe t (call.grown capacity xs) (call.apply xs).2 calls

/-- The list stands for the sequence. -/
structure Represents (l : BoundedList T) (xs : List T) : Prop where
  valid : l.Valid
  elements : l.elements = xs

variable {xs : List T} {v : T}

theorem Represents.length (represents : Represents l xs) : xs.length = l.mCount := by
  rw [← represents.elements]
  exact KernelList.elements_length

theorem Represents.loaded (represents : Represents l xs) {item : Item T} (allowed : item.Allowed xs) :
    item.load l.mArray = .ok (item.of xs) := by
  cases item with
  | value v => rfl
  | own index =>
    have count := represents.valid.count
    have length := represents.valid.length
    have inside : index < l.mCount := represents.length ▸ allowed
    have here : xs[index]? = some (items l.mArray index) := by
      rw [← represents.elements]
      exact KernelList.get_eq (l := l.unchecked) inside
    rw [Item.load,read_eq (by omega),Item.of,List.getD_eq_getElem?_getD,here]
    rfl

/-- An operation whose list is that of `KernelList` does to the sequence what it does there. -/
theorem represents_of_unchecked {k : KernelList T} {result : Except ListFault (BoundedList T)}
    (does : ∃ l', result = .ok l' ∧ l'.Valid ∧ l'.unchecked = k) (meaning : k.elements = xs) :
    ∃ l', result = .ok l' ∧ Represents l' xs ∧ l'.mArraySize = k.mArraySize := by
  obtain ⟨l',done,valid,same⟩ := does
  exact ⟨l',done,⟨valid,by rw [elements,same,meaning]⟩,congrArg KernelList.mArraySize same⟩

/-- `Add` does what it means where it is safe and the array can be allocated. -/
theorem add_apply [BEq T] {item : Item T} (represents : Represents l xs) (allowed : item.Allowed xs)
    (fits : (Call.Add item).grown l.mArraySize xs ≤ t.limit) (safe : (Call.Add item).Safe t l.mArraySize xs) :
    ∃ l', l.Add t item = .ok l' ∧ Represents l' (xs ++ [item.of xs]) ∧ l'.mArraySize = (Call.Add item).grown l.mArraySize xs := by
  have valid := represents.valid
  have count := valid.count
  have small := valid.small
  have length := represents.length
  have same : l.unchecked.elements = xs := represents.elements
  have room : l.unchecked.mCount + 1 < 2^64 := by
    show l.mCount + 1 < 2^64
    omega
  rw [Call.grown] at fits ⊢
  by_cases full : xs.length = l.mArraySize
  · obtain ⟨plain,v,rfl⟩ := safe full
    rw [if_pos full] at fits ⊢
    obtain ⟨copy,l',grown,pushed,valid',size,unchecked⟩ := add_full valid (by omega) fits v
    refine ⟨l',?_,⟨valid',?_⟩,size⟩
    · rw [add_grows valid (by omega),if_pos fits,grown,delete,if_pos plain]
      exact pushed
    · rw [elements,unchecked,KernelList.elements_add room,same]
      rfl
  · rw [if_neg full]
    obtain ⟨l',added,valid',size,unchecked⟩ := add_room (t := t) valid (by omega) (represents.loaded allowed)
    refine ⟨l',added,⟨valid',?_⟩,size⟩
    rw [elements,unchecked,KernelList.elements_add room,same]

/-- Otherwise there is no memory, or it is corrupted. -/
theorem add_fails (item : Item T) (represents : Represents l xs) (full : xs.length = l.mArraySize) :
    (¬ l.mArraySize + 5 ≤ t.limit → l.Add t item = .error .exhausted) ∧
      (l.mArraySize + 5 ≤ t.limit → ¬ (t.cookie = 0 ∧ ∃ v, item = .value v) →
        l.Add t item = .error .unallocated ∨ l.Add t item = .error .freed) := by
  have length := represents.length
  rw [add_grows represents.valid (by omega)]
  refine ⟨fun none => if_neg none,?_⟩
  intro fits unsafe_item
  obtain ⟨copy,grown,_⟩ := grow_eq represents.valid fits
  rw [if_pos fits,grown]
  by_cases plain : t.cookie = 0
  · cases item with
    | value v => exact absurd ⟨plain,v,rfl⟩ unsafe_item
    | own index =>
      right
      rw [delete,if_pos plain]
      rfl
  · left
    rw [delete,if_neg plain]
    rfl

/-- A call does what it means where it is safe and the array can be allocated. -/
theorem exec_apply [BEq T] {call : Call T} (represents : Represents l xs) (allowed : call.Allowed xs)
    (fits : call.grown l.mArraySize xs ≤ t.limit) (safe : call.Safe t l.mArraySize xs) :
    ∃ l', call.exec t l = .ok ((call.apply xs).1,l') ∧ Represents l' (call.apply xs).2 ∧ l'.mArraySize = call.grown l.mArraySize xs := by
  have valid := represents.valid
  have count := valid.count
  have small := valid.small
  have length := represents.length
  have same : l.unchecked.elements = xs := represents.elements
  have word : l.unchecked.mCount < 2^64 := by
    show l.mCount < 2^64
    omega
  cases call with
  | Add item =>
    obtain ⟨l',done,represents',size⟩ := add_apply represents allowed fits safe
    refine ⟨l',?_,represents',size⟩
    rw [Call.exec,done]
    rfl
  | Remove item =>
    obtain ⟨l',done,represents',size⟩ :=
      represents_of_unchecked (remove_unchecked valid (represents.loaded allowed)) (KernelList.elements_remove word)
    refine ⟨l',?_,by rwa [same] at represents',size.trans KernelList.remove_mArraySize⟩
    rw [Call.exec,done]
    rfl
  | RemoveAt index =>
    have inside : index < l.mCount := length ▸ allowed
    obtain ⟨l',done,represents',size⟩ :=
      represents_of_unchecked (removeAt_unchecked valid inside) (KernelList.elements_removeAt inside word)
    refine ⟨l',?_,by rwa [same] at represents',size.trans KernelList.removeAt_mArraySize⟩
    rw [Call.exec,done]
    rfl
  | Get index =>
    have inside : index < l.mCount := length ▸ allowed
    have here := KernelList.get_eq (l := l.unchecked) inside
    rw [same] at here
    refine ⟨l,?_,represents,rfl⟩
    rw [Call.exec,get_unchecked valid inside,Call.apply,here]
    rfl
  | Clear =>
    obtain ⟨l',done,represents',size⟩ := represents_of_unchecked (clear_unchecked valid) KernelList.elements_clear
    refine ⟨l',?_,represents',size⟩
    rw [Call.exec,done]
    rfl

/-- Where it does not, the call fails. -/
theorem exec_fails [BEq T] (call : Call T) (represents : Represents l xs) (small : l.mArraySize ≤ t.limit) :
    (¬ call.grown l.mArraySize xs ≤ t.limit → call.exec t l = .error .exhausted ∧ t.limit < xs.length + 5) ∧
      (call.grown l.mArraySize xs ≤ t.limit → ¬ call.Safe t l.mArraySize xs → ∃ fault, call.exec t l = .error fault ∧ fault ≠ .exhausted) := by
  cases call with
  | Add item =>
    rw [Call.grown,Call.Safe]
    by_cases full : xs.length = l.mArraySize
    · obtain ⟨none,corrupt⟩ := add_fails (t := t) item represents full
      rw [if_pos full]
      refine ⟨fun exhausted => ⟨?_,by omega⟩,fun fits not_safe => ?_⟩
      · rw [Call.exec,none exhausted]
        rfl
      · rcases corrupt fits (fun safe => not_safe (fun _ => safe)) with failed | failed
        · refine ⟨.unallocated,?_,by decide⟩
          rw [Call.exec,failed]
          rfl
        · refine ⟨.freed,?_,by decide⟩
          rw [Call.exec,failed]
          rfl
    · rw [if_neg full]
      exact ⟨fun exhausted => absurd small exhausted,fun _ not_safe => absurd (fun is_full => absurd is_full full) not_safe⟩
  | _ => exact ⟨fun exhausted => absurd small exhausted,fun _ not_safe => absurd trivial not_safe⟩

omit [Inhabited T] in
theorem eraseP_length (f : T → Bool) : (xs.eraseP f).length ≤ xs.length + 1 := Nat.le_succ_of_le List.eraseP_sublist.length_le

theorem apply_length [BEq T] (xs : List T) (call : Call T) : (call.apply xs).2.length ≤ xs.length + 1 := by
  cases call with
  | Add item => simp [Call.apply]
  | Remove item => exact eraseP_length _
  | RemoveAt index => exact Nat.le_succ_of_le (List.eraseIdx_sublist _ _).length_le
  | Get index => exact Nat.le_succ _
  | Clear => exact Nat.zero_le _

/-- A list behaves as a sequence: the calls return what they mean for the sequence, the list has its
    elements, and no more than were allocated; only memory can run out. -/
def Behaves (xs : List T) [BEq T] (t : Element) (calls : List (Call T)) : Except ListFault (List (Option T) × BoundedList T) → Prop
  | .ok (answers,l) => answers = (meaning xs calls).1 ∧ l.elements = (meaning xs calls).2 ∧
      l.mArray.length = l.mArraySize ∧ l.mCount ≤ l.mArraySize
  | .error fault => fault = .exhausted ∧ t.limit < xs.length + calls.length + 5

/-- Safe calls do what they mean, until memory runs out. -/
theorem run_represents [BEq T] {calls : List (Call T)} (represents : Represents l xs) (small : l.mArraySize ≤ t.limit)
    (allowed : AllAllowed xs calls) (safe : AllSafe t l.mArraySize xs calls) : Behaves xs t calls (l.run t calls) := by
  induction calls generalizing l xs with
  | nil => exact ⟨rfl,represents.elements,represents.valid.length,represents.valid.count⟩
  | cons call calls ih =>
    by_cases fits : call.grown l.mArraySize xs ≤ t.limit
    · obtain ⟨here,later⟩ := safe fits
      obtain ⟨l',done,represents',size⟩ := exec_apply represents allowed.1 fits here
      have rest := ih represents' (size ▸ fits) allowed.2 (size ▸ later)
      rw [run,done]
      show Behaves _ _ _ (l'.run t calls >>= _)
      have grows := apply_length xs call
      cases returned : l'.run t calls with
      | error fault =>
        rw [returned] at rest
        exact ⟨rest.1,by have bound := rest.2; rw [List.length_cons]; omega⟩
      | ok result =>
        rw [returned] at rest
        obtain ⟨answers,elements,length,count⟩ := rest
        exact ⟨by rw [answers]; rfl,elements,length,count⟩
    · obtain ⟨failed,large⟩ := (exec_fails call represents small).1 fits
      rw [run,failed]
      exact ⟨rfl,by rw [List.length_cons]; omega⟩

/-- The first call that is not safe corrupts the memory. -/
theorem run_corrupts [BEq T] {calls : List (Call T)} (represents : Represents l xs) (small : l.mArraySize ≤ t.limit)
    (allowed : AllAllowed xs calls) (not_safe : ¬ AllSafe t l.mArraySize xs calls) : ∃ fault, l.run t calls = .error fault ∧ fault ≠ .exhausted := by
  induction calls generalizing l xs with
  | nil => exact absurd trivial not_safe
  | cons call calls ih =>
    rw [AllSafe,Classical.not_imp] at not_safe
    obtain ⟨fits,not_safe⟩ := not_safe
    by_cases here : call.Safe t l.mArraySize xs
    · obtain ⟨l',done,represents',size⟩ := exec_apply represents allowed.1 fits here
      obtain ⟨fault,failed,other⟩ := ih represents' (size ▸ fits) allowed.2 (fun later => not_safe ⟨here,size ▸ later⟩)
      refine ⟨fault,?_,other⟩
      rw [run,done]
      show (l'.run t calls >>= _) = _
      rw [failed]
      rfl
    · obtain ⟨fault,failed,other⟩ := (exec_fails call represents small).2 fits here
      refine ⟨fault,?_,other⟩
      rw [run,failed]
      rfl

/-- How a list is made. -/
inductive Start
  | empty | ofCount (initialCount : Nat)

def Start.exec (t : Element) : Start → Except ListFault (BoundedList T)
  | .empty => BoundedList.empty t
  | .ofCount initialCount => BoundedList.ofCount t initialCount

/-- The sequence of a new list; `new` clears the elements. -/
def Start.meaning : Start → List T
  | .empty => []
  | .ofCount initialCount => List.replicate initialCount default

/-- The size of the first array. -/
def Start.capacity : Start → Nat
  | .empty => 5
  | .ofCount initialCount => initialCount

/-- A new list of `n` elements stands for that many cleared ones. -/
theorem replicate_represents (small : n < 2^63) : Represents (⟨List.replicate n default,n,n⟩ : BoundedList T) (List.replicate n default) := by
  refine ⟨⟨List.length_replicate,Nat.le_refl _,small⟩,?_⟩
  rw [elements_eq]
  apply List.ext_getElem (by simp)
  intro x here there
  rw [List.length_replicate] at there
  simp [items,there]

theorem start_represents (start : Start) (room : start.capacity ≤ t.limit) :
    ∃ l : BoundedList T, start.exec t = .ok l ∧ Represents l start.meaning ∧ l.mArraySize = start.capacity := by
  have small := limit_lt room
  cases start with
  | empty =>
    have room : 5 ≤ t.limit := room
    refine ⟨⟨List.replicate 5 default,5,0⟩,?_,⟨⟨List.length_replicate,Nat.zero_le _,small⟩,rfl⟩,rfl⟩
    rw [Start.exec,BoundedList.empty,newArray,if_pos room]
    rfl
  | ofCount initialCount =>
    have room : initialCount ≤ t.limit := room
    refine ⟨⟨List.replicate initialCount default,initialCount,initialCount⟩,?_,replicate_represents small,rfl⟩
    rw [Start.exec,BoundedList.ofCount,newArray,if_pos room]
    rfl

theorem start_fails (start : Start) (none : ¬ start.capacity ≤ t.limit) :
    (start.exec t : Except ListFault (BoundedList T)) = .error .exhausted ∧ t.limit < (start.meaning : List T).length + 5 := by
  cases start with
  | empty =>
    have none : ¬ 5 ≤ t.limit := none
    refine ⟨?_,by simp only [Start.meaning,List.length_nil]; omega⟩
    rw [Start.exec,BoundedList.empty,newArray,if_neg none]
    rfl
  | ofCount initialCount =>
    have none : ¬ initialCount ≤ t.limit := none
    refine ⟨?_,by simp only [Start.meaning,List.length_replicate]; omega⟩
    rw [Start.exec,BoundedList.ofCount,newArray,if_neg none]
    rfl

/-- From its start on a list behaves as a sequence exactly if every `Add` that needs a larger array, as long as there is memory for it,
    is for elements without a destructor and not given an element of the list itself. -/
theorem run_behaves_iff [BEq T] (t : Element) (start : Start) (calls : List (Call T)) (allowed : AllAllowed start.meaning calls) :
    Behaves (T := T) start.meaning t calls (start.exec t >>= fun l => l.run t calls) ↔
      (start.capacity ≤ t.limit → AllSafe t start.capacity start.meaning calls) := by
  by_cases room : start.capacity ≤ t.limit
  · obtain ⟨l,made,represents,size⟩ := start_represents (T := T) start room
    rw [made,imp_iff_right room,← size]
    refine ⟨?_,fun safe => run_represents represents (size ▸ room) allowed safe⟩
    intro behaves
    by_contra not_safe
    obtain ⟨fault,failed,other⟩ := run_corrupts represents (size ▸ room) allowed not_safe
    have behaves' : Behaves start.meaning t calls (l.run t calls) := behaves
    rw [failed] at behaves'
    exact other behaves'.1
  · obtain ⟨failed,large⟩ := start_fails (T := T) start room
    rw [failed]
    exact iff_of_true ⟨rfl,by omega⟩ (fun room' => absurd room' room)

/-- Pointers. -/
def pointers : Element := ⟨8,0⟩

/-- Five elements, and the first one once more. -/
def firstAgain : List (Call Nat) :=
  [.Add (.value 7),.Add (.value 1),.Add (.value 2),.Add (.value 3),.Add (.value 4),.Add (.own 0)]

theorem firstAgain_allowed : AllAllowed (Start.meaning .empty) firstAgain := by
  simp [AllAllowed,Call.Allowed,Call.apply,Start.meaning,firstAgain,Item.Allowed]

/-- The last item is an element of the array that was freed. -/
theorem run_not_behaves : AllAllowed (Start.meaning .empty) firstAgain ∧
    ¬ Behaves (Start.meaning .empty) pointers firstAgain (Start.empty.exec pointers >>= fun l => l.run pointers firstAgain) := by
  refine ⟨firstAgain_allowed,?_⟩
  intro behaves
  have room : Start.empty.capacity ≤ pointers.limit := by decide
  obtain ⟨l,made,represents,size⟩ := start_represents (T := Nat) .empty room
  have not_safe : ¬ AllSafe pointers l.mArraySize (Start.meaning .empty) firstAgain := by
    rw [size]
    simp [firstAgain,AllSafe,Call.Safe,Call.grown,Call.apply,Start.capacity,Start.meaning,Element.limit,pointers]
  obtain ⟨fault,failed,other⟩ := run_corrupts represents (size ▸ room) firstAgain_allowed not_safe
  rw [made] at behaves
  have behaves' : Behaves (Start.meaning .empty) pointers firstAgain (l.run pointers firstAgain) := behaves
  rw [failed] at behaves'
  exact other behaves'.1

/-- A list of pointers from which the first of two equal ones is removed, and one is added again. -/
theorem run_behaves_iff_pointers : ∃ l : BoundedList Nat,
    (Start.empty.exec pointers >>= fun l => l.run pointers
      [.Add (.value 3),.Add (.value 4),.Add (.value 3),.Remove (.own 0),.Get 1,.RemoveAt 0,.Add (.own 0)]) =
      .ok ([none,none,none,none,some 3,none,none],l) ∧ l.elements = [3,3] := by
  have behaves := (run_behaves_iff (T := Nat) pointers .empty
    [.Add (.value 3),.Add (.value 4),.Add (.value 3),.Remove (.own 0),.Get 1,.RemoveAt 0,.Add (.own 0)]
    (by simp [AllAllowed,Call.Allowed,Call.apply,Start.meaning,Item.Allowed,Item.of])).mpr
    (by simp [AllSafe,Call.Safe,Call.grown,Call.apply,Start.capacity,Start.meaning,Item.of])
  cases returned : (Start.empty.exec pointers >>= fun l : BoundedList Nat => l.run pointers
      [.Add (.value 3),.Add (.value 4),.Add (.value 3),.Remove (.own 0),.Get 1,.RemoveAt 0,.Add (.own 0)]) with
  | error fault =>
    rw [returned] at behaves
    have bound := behaves.2
    simp [Start.meaning,Element.limit,pointers] at bound
  | ok result =>
    rw [returned] at behaves
    obtain ⟨answers,elements,_⟩ := behaves
    exact ⟨result.2,congrArg (fun answers => Except.ok (answers,result.2)) answers,elements⟩

end BoundedList
end WaifuOS
