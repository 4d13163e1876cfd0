import WaifuOS.Blocks
import WaifuOS.ListRuns

/-!
Several lists and their arrays. A list of `List.h` is a pointer to an array and two sizes, which are
copied, moved and destroyed: the copy constructor and one of the assignments take the array from the list that
they are given, and the other assignment makes a new one. The elements have no destructor. Whatever a program does with its lists,
as long as it only uses lists that are alive and adds no element of a list to that list itself, every array has one list and every
list has its own array (`Owns`), so that none is freed twice, used after that or left behind; and each list is the sequence that
the calls say (`run_owns`).
-/
namespace WaifuOS
open WaifuOS.Words WaifuOS.Blocks

/-- A list; its array is null or a block. -/
structure ListObject where
  mArray : Option Nat
  mArraySize : Nat
  mCount : Nat

namespace ListObject
variable {T : Type} [Inhabited T]

/-- The arrays that are allocated. -/
abbrev Arrays (T : Type) := Store T

/-- What is left of a list that was moved from, and a list that no constructor has set. -/
def zero : ListObject := ⟨none,0,0⟩

/-- The list with the elements of its array; there are none behind a pointer that is null or was freed. -/
def view (m : Arrays T) (l : ListObject) : BoundedList T := ⟨(l.mArray.bind m.cells).getD [],l.mArraySize,l.mCount⟩

/-- The array after an operation on the elements. -/
def store (m : Arrays T) (l : ListObject) (l' : BoundedList T) : ListObject × Arrays T :=
  (⟨l.mArray,l'.mArraySize,l'.mCount⟩,
    match l.mArray with
    | some b => if (m.cells b).isSome then m.put b l'.mArray else m
    | none => m)

/-- A new block with elements; `calloc` returns null for nothing. -/
def place (m : Arrays T) (cells : List T) : Option Nat × Arrays T := if cells = [] then (none,m) else (some m.next,m.alloc cells)

/-- `delete`; null is left alone, and what is not there faults. -/
def delete (m : Arrays T) : Option Nat → Except ListFault (Arrays T)
  | none => .ok m
  | some b =>
    match m.release ⟨b,0⟩ with
    | some m => .ok m
    | none => .error .outside

/-- Elements without a destructor. -/
abbrev plain (size : Nat) : Element := ⟨size,0⟩

/-- `List(initialCount)`; for `List()` the array has five elements and none is in use. -/
def construct (size mArraySize mCount : Nat) (m : Arrays T) : Except ListFault (ListObject × Arrays T) := do
  let cells ← BoundedList.newArray (plain size) mArraySize
  let (mArray,m) := place m cells
  .ok (⟨mArray,mArraySize,mCount⟩,m)

/-- `List(const List<T>& value)`: the list, and what it leaves of `value`. -/
def ofList (value : ListObject) : ListObject × ListObject := (value,zero)

/-- `~List`. -/
def destructor (m : Arrays T) (l : ListObject) : Except ListFault (Arrays T) := delete m l.mArray

/-- `operator=(const List<T>& value)` of another list. -/
def assign (size : Nat) (m : Arrays T) (l value : ListObject) : Except ListFault (ListObject × Arrays T) := do
  let m ← l.destructor m
  let cells ← BoundedList.newArray (plain size) value.mArraySize
  let (mArray,m) := place m cells
  let l : ListObject := ⟨mArray,value.mArraySize,value.mCount⟩
  let cells ← BoundedList.copyLoop (value.view m).mArray (l.view m).mArray 0 value.mCount
  .ok (l.store m ⟨cells,l.mArraySize,l.mCount⟩)

/-- The larger array of `Add`; the old one is deleted. -/
def grow (size : Nat) (m : Arrays T) (l : ListObject) : Except ListFault (ListObject × Arrays T) := do
  let l' ← (l.view m).grow (plain size)
  let (mArray,m) := place m l'.mArray
  let m ← delete m l.mArray
  .ok (⟨mArray,l'.mArraySize,l'.mCount⟩,m)

/-- The assignment to the element behind the last one. -/
def push (m : Arrays T) (l : ListObject) (item : T) : Except ListFault (ListObject × Arrays T) := do
  let l' ← (l.view m).push item
  .ok (l.store m l')

def Add (size : Nat) (m : Arrays T) (l : ListObject) (item : BoundedList.Item T) : Except ListFault (ListObject × Arrays T) :=
  if wrap (l.mCount + 1) > l.mArraySize then do
    let (l,m) ← l.grow size m
    l.push m (← item.loadFreed)
  else do l.push m (← item.load (l.view m).mArray)

/-- A call of one list. Only `Add` allocates. -/
def call [BEq T] (size : Nat) (m : Arrays T) (l : ListObject) : BoundedList.Call T → Except ListFault (Option T × ListObject × Arrays T)
  | .Add item => do .ok (none,← l.Add size m item)
  | c => do
    let (answer,l') ← c.exec (plain size) (l.view m)
    .ok (answer,l.store m l')

structure State (T : Type) where
  memory : Arrays T
  objects : Nat → Option ListObject

/-- What a program does with its lists. -/
inductive Call (T : Type)
  | construct (x : Nat)
  | ofCount (x initialCount : Nat)
  | ofList (x y : Nat)
  | destroy (x : Nat)
  | assign (x y : Nat)
  | assignMove (x y : Nat)
  | elements (x : Nat) (c : BoundedList.Call T)

namespace State

/-- A list that is alive. -/
def object (s : State T) (x : Nat) : Except ListFault ListObject :=
  match s.objects x with
  | some l => .ok l
  | none => .error .outside

def set (s : State T) (x : Nat) (l : ListObject) (m : Arrays T) : State T := ⟨m,Function.update s.objects x (some l)⟩

end State

/-- `operator=(const List<T>&& value)` frees the array and takes the other one. -/
def Call.exec [BEq T] (size : Nat) (s : State T) : Call T → Except ListFault (Option T × State T)
  | .construct x => do
    let (l,m) ← ListObject.construct size 5 0 s.memory
    .ok (none,s.set x l m)
  | .ofCount x initialCount => do
    let (l,m) ← ListObject.construct size initialCount initialCount s.memory
    .ok (none,s.set x l m)
  | .ofList x y => do
    let (l,rest) := (← s.object y).ofList
    .ok (none,(s.set x l s.memory).set y rest s.memory)
  | .destroy x => do
    let m ← (← s.object x).destructor s.memory
    .ok (none,⟨m,Function.update s.objects x none⟩)
  | .assign x y => do
    let l ← s.object x
    let value ← s.object y
    if y = x then .ok (none,s)
    else
      let (l,m) ← l.assign size s.memory value
      .ok (none,s.set x l m)
  | .assignMove x y => do
    let l ← s.object x
    let value ← s.object y
    if y = x then .ok (none,s)
    else
      let m ← l.destructor s.memory
      .ok (none,(s.set x value m).set y zero m)
  | .elements x c => do
    let (answer,l,m) ← (← s.object x).call size s.memory c
    .ok (answer,s.set x l m)

/-- The calls one after another: what they return, and the state in the end. -/
def run [BEq T] (size : Nat) (s : State T) : List (Call T) → Except ListFault (List (Option T) × State T)
  | [] => .ok ([],s)
  | call :: calls => do
    let (answer,s) ← call.exec size s
    let (answers,s) ← run size s calls
    .ok (answer :: answers,s)

/-- The sequences of the lists that are alive. -/
abbrev Env (T : Type) := Nat → Option (List T)

/-- What a call means for the sequences. -/
def Call.meaning [BEq T] (e : Env T) : Call T → Option T × Env T
  | .construct x => (none,Function.update e x (some []))
  | .ofCount x initialCount => (none,Function.update e x (some (List.replicate initialCount default)))
  | .ofList x y => (none,Function.update (Function.update e x (e y)) y (some []))
  | .destroy x => (none,Function.update e x none)
  | .assign x y => (none,Function.update e x (e y))
  | .assignMove x y => (none,if y = x then e else Function.update (Function.update e x (e y)) y (some []))
  | .elements x c =>
    let result := c.apply ((e x).getD [])
    (result.1,Function.update e x (some result.2))

/-- An item that is no element of the list itself is added. -/
def Outside (c : BoundedList.Call T) : Prop := ∀ index, c ≠ .Add (.own index)

/-- Lists are constructed where none is and used while they are alive, indices are below the
    count, items of `Add` are outside of the list, and no array is larger than memory may be. -/
def Call.Legal (size : Nat) (e : Env T) : Call T → Prop
  | .construct x => e x = none ∧ 5 ≤ (plain size).limit
  | .ofCount x initialCount => e x = none ∧ initialCount ≤ (plain size).limit
  | .ofList x y => e x = none ∧ e y ≠ none
  | .destroy x => e x ≠ none
  | .assign x y => e x ≠ none ∧ e y ≠ none
  | .assignMove x y => e x ≠ none ∧ e y ≠ none
  | .elements x c => ∃ xs, e x = some xs ∧ c.Allowed xs ∧ Outside c ∧ xs.length + 5 ≤ (plain size).limit

def meaning [BEq T] (e : Env T) : List (Call T) → List (Option T) × Env T
  | [] => ([],e)
  | call :: calls =>
    let (answer,e) := call.meaning e
    let (answers,e) := meaning e calls
    (answer :: answers,e)

def AllLegal [BEq T] (size : Nat) (e : Env T) : List (Call T) → Prop
  | [] => True
  | call :: calls => call.Legal size e ∧ AllLegal size (call.meaning e).2 calls

/-- The list has an array of its size, which starts with the sequence. -/
structure Holds (size : Nat) (m : Arrays T) (l : ListObject) (xs : List T) : Prop where
  represents : (l.view m).Represents xs
  small : l.mArraySize ≤ (plain size).limit
  there : ∀ b, l.mArray = some b → m.cells b ≠ none

/-- A list that is alive holds its sequence. -/
def Stands (size : Nat) (m : Arrays T) : Option ListObject → Option (List T) → Prop
  | some l, some xs => Holds size m l xs
  | none, none => True
  | _, _ => False

/-- The array of a list. -/
def array (s : State T) (x : Nat) : Option Nat := (s.objects x).bind (fun l => l.mArray)

/-- Every list holds its sequence, and every array that is allocated belongs to one list. -/
structure Owns (size : Nat) (s : State T) (e : Env T) : Prop where
  fresh : s.memory.Fresh
  stands : ∀ x, Stands size s.memory (s.objects x) (e x)
  alone : ∀ x y b, array s x = some b → array s y = some b → x = y
  owned : ∀ b, s.memory.cells b ≠ none → ∃ x, array s x = some b

variable {m m' : Arrays T} {s s' : State T} {e : Env T} {x y b n size : Nat} {l value : ListObject} {xs : List T} {cells : List T}
  {object : Option ListObject} {sequence : Option (List T)}

omit [Inhabited T] in
/-- Whatever keeps the array keeps the elements. -/
theorem view_congr (same : ∀ b, l.mArray = some b → m'.cells b = m.cells b) : l.view m' = l.view m := by
  rw [view,view]
  cases here : l.mArray with
  | none => rfl
  | some b => rw [Option.bind_some,Option.bind_some,same b here]

theorem Holds.congr (holds : Holds size m l xs) (same : ∀ b, l.mArray = some b → m'.cells b = m.cells b) : Holds size m' l xs where
  represents := by
    rw [view_congr same]
    exact holds.represents
  small := holds.small
  there b here := by
    rw [same b here]
    exact holds.there b here

theorem Stands.congr (stands : Stands size m object sequence)
    (same : ∀ b, object.bind (fun l => l.mArray) = some b → m'.cells b = m.cells b) : Stands size m' object sequence := by
  match object,sequence,stands with
  | none,none,_ => trivial
  | some _,some _,holds => exact Holds.congr holds same

omit [Inhabited T] in
theorem view_place (m : Arrays T) (cells : List T) (mArraySize mCount : Nat) :
    view (place m cells).2 ⟨(place m cells).1,mArraySize,mCount⟩ = ⟨cells,mArraySize,mCount⟩ := by
  rw [view,place]
  by_cases nothing : cells = []
  · rw [if_pos nothing,nothing]
    rfl
  · rw [if_neg nothing]
    simp only [Option.bind_some,Store.alloc_self]
    rfl

omit [Inhabited T] in
/-- Elements that are written to a new array are as if they had been there from the start. -/
theorem store_place (m : Arrays T) (cells : List T) {cells' : List T} (length : cells'.length = cells.length) (mArraySize mCount : Nat)
    (l' : BoundedList T) (same : l'.mArray = cells') :
    store (place m cells).2 ⟨(place m cells).1,mArraySize,mCount⟩ l' = (⟨(place m cells').1,l'.mArraySize,l'.mCount⟩,(place m cells').2) := by
  rw [store,place,place]
  by_cases nothing : cells = []
  · have nothing' : cells' = [] := List.eq_nil_of_length_eq_zero (by rw [length,nothing]; rfl)
    rw [if_pos nothing,if_pos nothing']
  · have something : cells' ≠ [] := by
      intro nothing'
      rw [nothing'] at length
      exact nothing (List.eq_nil_of_length_eq_zero length.symm)
    rw [if_neg nothing,if_neg something,same]
    simp

omit [Inhabited T] in
theorem place_fresh (fresh : m.Fresh) (cells : List T) : (place m cells).2.Fresh := by
  rw [place]
  split
  · exact fresh
  · exact fresh.alloc

omit [Inhabited T] in
theorem place_kept (fresh : m.Fresh) (there : m.cells b ≠ none) (cells : List T) : (place m cells).2.cells b = m.cells b := by
  rw [place]
  split
  · rfl
  · obtain ⟨old,here⟩ := Option.ne_none_iff_exists'.mp there
    exact Store.alloc_other (fresh.ne_next here)

omit [Inhabited T] in
/-- A new array is no other block. -/
theorem place_new (fresh : m.Fresh) (there : m.cells b ≠ none) (cells : List T) : (place m cells).1 ≠ some b := by
  rw [place]
  split
  · exact (Option.some_ne_none b).symm
  · obtain ⟨old,here⟩ := Option.ne_none_iff_exists'.mp there
    intro same
    exact fresh.ne_next here (Option.some.inj same).symm

omit [Inhabited T] in
theorem place_there (m : Arrays T) (cells : List T) (here : (place m cells).1 = some b) : (place m cells).2.cells b ≠ none := by
  rw [place] at here ⊢
  split at here
  · cases here
  · rename_i something
    cases here
    rw [if_neg something,Store.alloc_self]
    exact Option.some_ne_none _

omit [Inhabited T] in
theorem place_cases (cells : List T) (there : (place m cells).2.cells b ≠ none) : (place m cells).1 = some b ∨ m.cells b ≠ none := by
  rw [place] at there ⊢
  split at there
  · exact .inr there
  · rename_i something
    rw [if_neg something]
    by_cases same : b = m.next
    · exact .inl (congrArg some same.symm)
    · right
      rw [Store.alloc_other same] at there
      exact there

omit [Inhabited T] in
theorem array_update (s : State T) (m' : Arrays T) (x : Nat) (object : Option ListObject) (y : Nat) :
    array ⟨m',Function.update s.objects x object⟩ y = if y = x then object.bind (fun l => l.mArray) else array s y := by
  show (Function.update s.objects x object y).bind (fun l => l.mArray) = _
  rw [Function.update_apply]
  split
  · rfl
  · rfl

/-- The array of a list is there. -/
theorem Owns.there (owns : Owns size s e) (here : array s x = some b) : s.memory.cells b ≠ none := by
  have stands := owns.stands x
  rw [array] at here
  cases alive : s.objects x with
  | none =>
    rw [alive] at here
    cases here
  | some l =>
    rw [alive] at here stands
    match e x,stands with
    | some xs,holds => exact holds.there b here

theorem Owns.holds (owns : Owns size s e) (alive : s.objects x = some l) : ∃ xs, e x = some xs ∧ Holds size s.memory l xs := by
  have stands := owns.stands x
  rw [alive] at stands
  match e x,stands with
  | some xs,holds => exact ⟨xs,rfl,holds⟩

/-- One list and its array change. -/
theorem Owns.update (owns : Owns size s e) (fresh : m'.Fresh) (stands : Stands size m' object sequence)
    (kept : ∀ y b, y ≠ x → array s y = some b → m'.cells b = s.memory.cells b)
    (apart : ∀ y b, y ≠ x → array s y = some b → object.bind (fun l => l.mArray) ≠ some b)
    (owned : ∀ b, m'.cells b ≠ none → object.bind (fun l => l.mArray) = some b ∨ ∃ y, y ≠ x ∧ array s y = some b) :
    Owns size ⟨m',Function.update s.objects x object⟩ (Function.update e x sequence) where
  fresh := fresh
  stands y := by
    by_cases same : y = x
    · subst same
      simp only [Function.update_self]
      exact stands
    · simp only [Function.update_of_ne same]
      exact (owns.stands y).congr (fun b here => kept y b same here)
  alone y z b left right := by
    rw [array_update] at left right
    split at left <;> split at right
    · rename_i first second
      rw [first,second]
    · exact absurd left (apart z b ‹_› right)
    · exact absurd right (apart y b ‹_› left)
    · exact owns.alone y z b left right
  owned b there := by
    rcases owned b there with here | ⟨y,other,here⟩
    · refine ⟨x,?_⟩
      rw [array_update,if_pos rfl]
      exact here
    · refine ⟨y,?_⟩
      rw [array_update,if_neg other]
      exact here

/-- The list of an array that is there, if it is not the one of `x`, is another one. -/
theorem Owns.other (owns : Owns size s e) (there : s.memory.cells b ≠ none) (not_own : array s x ≠ some b) :
    ∃ y, y ≠ x ∧ array s y = some b := by
  obtain ⟨y,here⟩ := owns.owned b there
  refine ⟨y,?_,here⟩
  rintro rfl
  exact not_own here

omit [Inhabited T] in
/-- What is left when an array is deleted. -/
theorem delete_eq (mArray : Option Nat) (there : ∀ b, mArray = some b → m.cells b ≠ none) : ∃ m', delete m mArray = .ok m' ∧
    m'.next = m.next ∧ ∀ b, m'.cells b = if mArray = some b then none else m.cells b := by
  cases mArray with
  | none => exact ⟨m,rfl,rfl,fun b => rfl⟩
  | some c =>
    obtain ⟨cells,here⟩ := Option.ne_none_iff_exists'.mp (there c rfl)
    refine ⟨{ m with cells := Function.update m.cells c none },?_,rfl,?_⟩
    · rw [delete,Store.release_eq here]
    · intro b
      show Function.update m.cells c none b = _
      by_cases same : b = c
      · subst same
        rw [Function.update_self,if_pos rfl]
      · rw [Function.update_of_ne same,if_neg (fun eq => same (Option.some.inj eq).symm)]

/-- The destructor frees the array of its list alone. -/
theorem Owns.destructor (owns : Owns size s e) (alive : s.objects x = some l) : ∃ m', l.destructor s.memory = .ok m' ∧
    m'.next = s.memory.next ∧ (∀ b, m'.cells b = if l.mArray = some b then none else s.memory.cells b) ∧
    Owns size ⟨m',Function.update s.objects x none⟩ (Function.update e x none) := by
  have own : array s x = l.mArray := by rw [array,alive]; rfl
  obtain ⟨m',deleted,next,cells⟩ := delete_eq l.mArray (fun b here => owns.there (own.trans here))
  refine ⟨m',deleted,next,cells,owns.update ?_ trivial ?_ ?_ ?_⟩
  · intro b large
    rw [next] at large
    rw [cells]
    split
    · rfl
    · exact owns.fresh b large
  · intro y b other here
    rw [cells,if_neg]
    intro same
    exact other (owns.alone y x b here (own.trans same))
  · intro y b _ _ same
    cases same
  · intro b there
    right
    rw [cells] at there
    split at there
    · exact absurd rfl there
    · rename_i not_own
      exact owns.other there (fun here => not_own (own.symm.trans here))

/-- A list is constructed with a new array. -/
theorem Owns.constructed (owns : Owns size s e) (dead : s.objects x = none) {l : BoundedList T} (represents : l.Represents xs)
    (small : l.mArraySize ≤ (plain size).limit) :
    Owns size (s.set x ⟨(place s.memory l.mArray).1,l.mArraySize,l.mCount⟩ (place s.memory l.mArray).2) (Function.update e x (some xs)) := by
  have none_own : ∀ b, array s x ≠ some b := by
    intro b here
    rw [array,dead] at here
    cases here
  refine owns.update (place_fresh owns.fresh _) ⟨?_,small,fun b here => place_there _ _ here⟩ ?_ ?_ ?_
  · rw [view_place]
    exact represents
  · intro y b _ here
    exact place_kept owns.fresh (owns.there here) _
  · intro y b _ here
    exact place_new owns.fresh (owns.there here) _
  · intro b there
    rcases place_cases _ there with new | old
    · exact .inl new
    · exact .inr (owns.other old (none_own b))

/-- A list takes the array of another one. -/
theorem Owns.moved (owns : Owns size s e) (dead : s.objects x = none) (alive : s.objects y = some l) :
    Owns size ((s.set x l s.memory).set y zero s.memory) (Function.update (Function.update e x (e y)) y (some [])) := by
  have different : x ≠ y := by
    rintro rfl
    rw [dead] at alive
    cases alive
  have none_own : array s x = none := by rw [array,dead]; rfl
  have own : array s y = l.mArray := by rw [array,alive]; rfl
  have after : ∀ z, array ((s.set x l s.memory).set y zero s.memory) z = if z = y then none else if z = x then array s y else array s z := by
    intro z
    rw [State.set,array_update,State.set,array_update,own]
    rfl
  have owner : ∀ z b, array ((s.set x l s.memory).set y zero s.memory) z = some b → array s (if z = x then y else z) = some b ∧ z ≠ y := by
    intro z b here
    rw [after] at here
    split at here
    · cases here
    · split <;> simp_all
  refine ⟨owns.fresh,?_,?_,?_⟩
  · intro z
    show Stands size s.memory (Function.update (Function.update s.objects x (some l)) y (some zero) z) _
    by_cases first : z = y
    · subst first
      rw [Function.update_self,Function.update_self]
      exact ⟨⟨⟨rfl,Nat.le_refl _,Nat.two_pow_pos 63⟩,rfl⟩,Nat.zero_le _,fun b here => by cases here⟩
    · rw [Function.update_of_ne first,Function.update_of_ne first]
      by_cases second : z = x
      · subst second
        rw [Function.update_self,Function.update_self,← alive]
        exact owns.stands y
      · rw [Function.update_of_ne second,Function.update_of_ne second]
        exact owns.stands z
  · intro z w b left right
    obtain ⟨first,not_first⟩ := owner z b left
    obtain ⟨second,not_second⟩ := owner w b right
    have same := owns.alone _ _ b first second
    split at same <;> split at same
    · rename_i here there
      rw [here,there]
    · exact absurd same.symm not_second
    · exact absurd same not_first
    · exact same
  · intro b there
    obtain ⟨z,here⟩ := owns.owned b there
    by_cases first : z = y
    · refine ⟨x,?_⟩
      rw [after,if_neg different,if_pos rfl,← first]
      exact here
    · refine ⟨z,?_⟩
      rw [after,if_neg first,if_neg]
      · exact here
      · rintro rfl
        rw [none_own] at here
        cases here

/-! ### Assignments -/

theorem newArray_eq (small : n ≤ (plain size).limit) : BoundedList.newArray (plain size) n = .ok (List.replicate n (default : T)) := if_pos small

/-- A new array holds the elements of the list that is assigned, and nothing behind them. -/
theorem assigned (holds : Holds size m value xs) : ∃ copy, BoundedList.copyLoop (value.view m).mArray
      (List.replicate value.mArraySize default) 0 value.mCount = .ok copy ∧ copy.length = value.mArraySize ∧
    (⟨copy,value.mArraySize,value.mCount⟩ : BoundedList T).Represents xs := by
  have length : (value.view m).mArray.length = value.mArraySize := holds.represents.valid.length
  have count : value.mCount ≤ value.mArraySize := holds.represents.valid.count
  obtain ⟨copy,copied,copyLength,same⟩ := BoundedList.copyLoop_eq (show 0 + value.mCount ≤ (value.view m).mArray.length by omega)
    (show 0 + value.mCount ≤ (List.replicate value.mArraySize (default : T)).length by rw [List.length_replicate]; omega)
  rw [List.length_replicate] at copyLength
  refine ⟨copy,copied,copyLength,⟨copyLength,count,BoundedList.limit_lt holds.small⟩,?_⟩
  rw [← holds.represents.elements,BoundedList.elements_eq,BoundedList.elements_eq]
  apply List.map_congr_left
  intro x member
  have inside : x < value.mCount := List.mem_range.mp member
  rw [same,if_pos ⟨Nat.zero_le _,by omega⟩]

theorem assign_owns (owns : Owns size s e) (alive : s.objects x = some l) (there : s.objects y = some value) (different : y ≠ x) :
    ∃ l' m', l.assign size s.memory value = .ok (l',m') ∧ Owns size (s.set x l' m') (Function.update e x (e y)) := by
  obtain ⟨m₁,freed,_,_,owns₁⟩ := owns.destructor alive
  have there₁ : (⟨m₁,Function.update s.objects x none⟩ : State T).objects y = some value := (Function.update_of_ne different _ _).trans there
  obtain ⟨xs,sequence,holds⟩ := owns₁.holds there₁
  rw [Function.update_of_ne different] at sequence
  obtain ⟨copy,copied,length,represents⟩ := assigned holds
  let new := place m₁ (List.replicate value.mArraySize (default : T))
  have kept : value.view new.2 = value.view m₁ := view_congr (fun b here => place_kept owns₁.fresh (holds.there b here) _)
  have viewed : view new.2 ⟨new.1,value.mArraySize,value.mCount⟩ = ⟨List.replicate value.mArraySize default,value.mArraySize,value.mCount⟩ :=
    view_place ..
  have stored := store_place m₁ (List.replicate value.mArraySize (default : T)) (by rw [length,List.length_replicate])
    value.mArraySize value.mCount ⟨copy,value.mArraySize,value.mCount⟩ rfl
  have constructed := owns₁.constructed (x := x) (Function.update_self ..) represents holds.small
  refine ⟨⟨(place m₁ copy).1,value.mArraySize,value.mCount⟩,(place m₁ copy).2,?_,?_⟩
  · rw [assign,freed]
    show (BoundedList.newArray (plain size) value.mArraySize >>= _) = _
    rw [newArray_eq holds.small]
    show (BoundedList.copyLoop (value.view new.2).mArray (view new.2 ⟨new.1,value.mArraySize,value.mCount⟩).mArray 0 value.mCount >>=
      fun cells => .ok (store new.2 ⟨new.1,value.mArraySize,value.mCount⟩ ⟨cells,value.mArraySize,value.mCount⟩)) = _
    rw [kept,viewed,copied]
    exact congrArg Except.ok stored
  · rw [sequence]
    rw [State.set,Function.update_idem,Function.update_idem] at constructed
    exact constructed

/-! ### Elements -/

/-- The elements of a list change in its array. -/
theorem Owns.stored (owns : Owns size s e) (alive : s.objects x = some l) {l' : BoundedList T} (represents : l'.Represents xs)
    (same : l'.mArraySize = l.mArraySize) :
    Owns size (s.set x (l.store s.memory l').1 (l.store s.memory l').2) (Function.update e x (some xs)) := by
  obtain ⟨old,_,holds⟩ := owns.holds alive
  have length := represents.valid.length
  have own : array s x = l.mArray := by rw [array,alive]; rfl
  have small : l'.mArraySize ≤ (plain size).limit := same ▸ holds.small
  rw [store]
  cases here : l.mArray with
  | none =>
    have zero : (view s.memory l).mArray.length = l.mArraySize := holds.represents.valid.length
    rw [view,here] at zero
    have nothing : l'.mArray = [] := List.eq_nil_of_length_eq_zero (by rw [length,same,← zero]; rfl)
    have viewed : view s.memory ⟨none,l'.mArraySize,l'.mCount⟩ = l' := by rw [view,Option.bind_none,Option.getD_none,← nothing]
    refine owns.update owns.fresh ⟨?_,small,fun b other => by cases other⟩ (fun _ _ _ _ => rfl) ?_ ?_
    · rw [viewed]
      exact represents
    · intro y b _ _ other
      cases other
    · intro b there
      refine .inr (owns.other there ?_)
      rw [own,here]
      exact (Option.some_ne_none b).symm
  | some b =>
    have there := holds.there b here
    rw [here] at own
    have isSome : (s.memory.cells b).isSome = true := Option.isSome_iff_ne_none.mpr there
    simp only [isSome,if_true]
    have written : (s.memory.put b l'.mArray).cells b = some l'.mArray := Function.update_self ..
    have others : ∀ c, c ≠ b → (s.memory.put b l'.mArray).cells c = s.memory.cells c := fun c other => Function.update_of_ne other _ _
    have viewed : view (s.memory.put b l'.mArray) ⟨some b,l'.mArraySize,l'.mCount⟩ = l' := by
      rw [view,Option.bind_some,written,Option.getD_some]
    refine owns.update (owns.fresh.put there) ⟨?_,small,?_⟩ ?_ ?_ ?_
    · rw [viewed]
      exact represents
    · intro c other
      cases other
      rw [written]
      exact Option.some_ne_none _
    · intro y c other held
      apply others c
      rintro rfl
      exact other (owns.alone y x c held own)
    · intro y c other held shared
      cases shared
      exact other (owns.alone y x b held own)
    · intro c there'
      by_cases first : c = b
      · exact .inl (congrArg some first.symm)
      · rw [others c first] at there'
        refine .inr (owns.other there' ?_)
        rw [own]
        exact fun shared => first (Option.some.inj shared).symm

omit [Inhabited T] in
/-- The item is written to the array of the list. -/
theorem push_view {l' : BoundedList T} (item : T) (pushed : (l.view m).push item = .ok l') : l.push m item = .ok (l.store m l') := by
  rw [push,pushed]
  rfl

/-- A list that is full gets a larger array, and the old one is deleted. -/
theorem add_grows (owns : Owns size s e) (alive : s.objects x = some l) (full : l.mCount = l.mArraySize)
    (room : l.mArraySize + 5 ≤ (plain size).limit) (item : T) {l' : BoundedList T} (represents : l'.Represents xs)
    (done : (l.view s.memory).Add (plain size) (.value item) = .ok l') :
    ∃ l'' m', l.Add size s.memory (.value item) = .ok (l'',m') ∧ Owns size (s.set x l'' m') (Function.update e x (some xs)) := by
  obtain ⟨old,_,holds⟩ := owns.holds alive
  have valid := holds.represents.valid
  obtain ⟨copy,grown,length,_⟩ := BoundedList.grow_eq valid room
  have small := BoundedList.limit_lt room
  have inside : l.mCount < copy.length := by
    rw [length,full]
    exact Nat.lt_add_of_pos_right (by decide)
  have written : (⟨copy,l.mArraySize + 5,l.mCount⟩ : BoundedList T).push item = .ok ⟨copy.set l.mCount item,l.mArraySize + 5,l.mCount + 1⟩ :=
    BoundedList.push_eq (l := ⟨copy,l.mArraySize + 5,l.mCount⟩) inside (show l.mCount + 1 < 2^64 by omega) item
  -- What the sequence does on the larger array.
  have result : l' = ⟨copy.set l.mCount item,l.mArraySize + 5,l.mCount + 1⟩ := by
    have room' : (l.view s.memory).mArraySize + 5 ≤ (plain size).limit := room
    rw [BoundedList.add_grows valid full,if_pos room',grown] at done
    exact Except.ok.inj (done.symm.trans written)
  -- The arrays are those after the old one was deleted first.
  have something : copy ≠ [] := by
    rintro rfl
    exact absurd inside (Nat.not_lt_zero _)
  have something' : copy.set l.mCount item ≠ [] := by
    intro nothing
    have gone := congrArg List.length nothing
    rw [List.length_set] at gone
    exact something (List.eq_nil_of_length_eq_zero gone)
  obtain ⟨m₁,_,next₁,cells₁,owns₁⟩ := owns.destructor alive
  have there : ∀ b, l.mArray = some b → (s.memory.alloc copy).cells b ≠ none := by
    intro b here
    obtain ⟨cells,old_cells⟩ := Option.ne_none_iff_exists'.mp (holds.there b here)
    rw [Store.alloc_other (owns.fresh.ne_next old_cells),old_cells]
    exact Option.some_ne_none _
  obtain ⟨m₂,deleted,next₂,cells₂⟩ := delete_eq l.mArray there
  have apart : l.mArray ≠ some s.memory.next := by
    intro same
    obtain ⟨cells,old_cells⟩ := Option.ne_none_iff_exists'.mp (holds.there _ same)
    exact owns.fresh.ne_next old_cells rfl
  have new : m₂.cells s.memory.next = some copy := by rw [cells₂,if_neg apart,Store.alloc_self]
  have same : m₂.put s.memory.next (copy.set l.mCount item) = m₁.alloc (copy.set l.mCount item) := by
    rw [Store.alloc,next₁]
    have others : (m₂.put s.memory.next (copy.set l.mCount item)).cells = (m₁.put s.memory.next (copy.set l.mCount item)).cells := by
      funext b
      show Function.update m₂.cells _ _ b = Function.update m₁.cells _ _ b
      by_cases first : b = s.memory.next
      · rw [first,Function.update_self,Function.update_self]
      · rw [Function.update_of_ne first,Function.update_of_ne first,cells₂,cells₁,Store.alloc_other first]
    exact congrArg₂ Store.mk others next₂
  have constructed := owns₁.constructed (x := x) (Function.update_self ..) represents (by rw [result]; exact room)
  rw [result,place,if_neg something',State.set,Function.update_idem,Function.update_idem] at constructed
  have placed : place s.memory copy = (some s.memory.next,s.memory.alloc copy) := if_neg something
  have larger : l.grow size s.memory = .ok (⟨some s.memory.next,l.mArraySize + 5,l.mCount⟩,m₂) := by
    rw [grow,grown]
    show (delete (place s.memory copy).2 l.mArray >>= fun m =>
      .ok ((⟨(place s.memory copy).1,l.mArraySize + 5,l.mCount⟩ : ListObject),m)) = _
    rw [placed,deleted]
    rfl
  have viewed : view m₂ ⟨some s.memory.next,l.mArraySize + 5,l.mCount⟩ = ⟨copy,l.mArraySize + 5,l.mCount⟩ := by
    rw [view,Option.bind_some,new]
    rfl
  have stored : store m₂ ⟨some s.memory.next,l.mArraySize + 5,l.mCount⟩ ⟨copy.set l.mCount item,l.mArraySize + 5,l.mCount + 1⟩ =
      (⟨some m₁.next,l.mArraySize + 5,l.mCount + 1⟩,m₁.alloc (copy.set l.mCount item)) := by
    have there : (m₂.cells s.memory.next).isSome = true := by rw [new]; rfl
    rw [store,next₁,← same]
    exact congrArg (Prod.mk _) (if_pos there)
  have next : wrap (l.mCount + 1) = l.mCount + 1 := wrap_of_lt (by omega)
  refine ⟨_,_,?_,constructed⟩
  rw [Add,next,if_pos (by omega),larger]
  show push m₂ ⟨some s.memory.next,l.mArraySize + 5,l.mCount⟩ item = _
  rw [← viewed] at written
  rw [push_view item written,stored]

/-- A call of one list does to its sequence what it means, and to no other list anything. -/
theorem call_owns [BEq T] {c : BoundedList.Call T} (owns : Owns size s e) (alive : s.objects x = some l) (sequence : e x = some xs)
    (allowed : c.Allowed xs) (outside : Outside c) (room : xs.length + 5 ≤ (plain size).limit) :
    ∃ l' m', l.call size s.memory c = .ok ((c.apply xs).1,l',m') ∧ Owns size (s.set x l' m') (Function.update e x (some (c.apply xs).2)) := by
  obtain ⟨xs',same,holds⟩ := owns.holds alive
  cases sequence.symm.trans same
  have valid := holds.represents.valid
  have count : l.mCount ≤ l.mArraySize := valid.count
  have small := BoundedList.limit_lt holds.small
  have length : xs.length = l.mCount := holds.represents.length
  have fits : c.grown l.mArraySize xs ≤ (plain size).limit := by
    cases c with
    | Add item =>
      rw [BoundedList.Call.grown]
      split
      · omega
      · exact holds.small
    | _ => exact holds.small
  have safe : c.Safe (plain size) l.mArraySize xs := by
    cases c with
    | Add item =>
      cases item with
      | value v => exact fun _ => ⟨rfl,v,rfl⟩
      | own index => exact absurd rfl (outside index)
    | _ => exact trivial
  obtain ⟨l',done,represents,size_after⟩ := BoundedList.exec_apply holds.represents allowed fits safe
  have stored : ∀ other : l'.mArraySize = l.mArraySize, Owns size (s.set x (l.store s.memory l').1 (l.store s.memory l').2)
      (Function.update e x (some (c.apply xs).2)) := owns.stored alive represents
  cases c with
  | Add item =>
    cases item with
    | own index => exact absurd rfl (outside index)
    | value v =>
      have added : (l.view s.memory).Add (plain size) (.value v) = .ok l' := by
        rw [BoundedList.Call.exec] at done
        cases returned : (l.view s.memory).Add (plain size) (.value v) with
        | error fault =>
          rw [returned] at done
          cases done
        | ok l'' =>
          rw [returned] at done
          cases done
          rfl
      by_cases full : l.mCount = l.mArraySize
      · obtain ⟨l'',m',grown,owns'⟩ := add_grows owns alive full (by omega) v represents added
        refine ⟨l'',m',?_,owns'⟩
        rw [call,grown]
        rfl
      · have next : wrap (l.mCount + 1) = l.mCount + 1 := wrap_of_lt (by omega)
        have not_full : ¬ wrap (l.mCount + 1) > l.mArraySize := by omega
        have same_size : l'.mArraySize = l.mArraySize := size_after.trans (if_neg (by rw [length]; exact full))
        have pushed : (l.view s.memory).push v = .ok l' := by
          have not_full' : ¬ wrap ((l.view s.memory).mCount + 1) > (l.view s.memory).mArraySize := not_full
          rw [BoundedList.Add,if_neg not_full'] at added
          exact added
        refine ⟨_,_,?_,stored same_size⟩
        rw [call,Add,if_neg not_full]
        show (l.push s.memory v >>= _) = _
        rw [push_view v pushed]
        rfl
  | _ =>
    refine ⟨_,_,?_,stored size_after⟩
    rw [call,done]
    · rfl
    · exact fun item same => by cases same

/-! ### Runs -/

omit [Inhabited T] in
theorem object_eq (alive : s.objects x = some l) : s.object x = .ok l := by rw [State.object,alive]

theorem Owns.dead (owns : Owns size s e) (unused : e x = none) : s.objects x = none := by
  have stands := owns.stands x
  rw [unused] at stands
  match s.objects x,stands with
  | none,_ => rfl

theorem Owns.alive (owns : Owns size s e) (used : e x ≠ none) : ∃ l, s.objects x = some l := by
  obtain ⟨xs,sequence⟩ := Option.ne_none_iff_exists'.mp used
  have stands := owns.stands x
  rw [sequence] at stands
  match s.objects x,stands with
  | some l,_ => exact ⟨l,rfl⟩

/-- A new list has a new array of cleared elements. -/
theorem construct_owns (owns : Owns size s e) (unused : e x = none) (small : n ≤ (plain size).limit) (mCount : Nat)
    (represents : (⟨List.replicate n default,n,mCount⟩ : BoundedList T).Represents xs) :
    ∃ l m', ListObject.construct size n mCount s.memory = .ok (l,m') ∧ Owns size (s.set x l m') (Function.update e x (some xs)) := by
  refine ⟨_,_,?_,owns.constructed (owns.dead unused) represents small⟩
  rw [ListObject.construct,newArray_eq small]
  rfl

/-- A call does what it means for the sequences, and the arrays still have one list each. -/
theorem exec_owns [BEq T] {c : Call T} (owns : Owns size s e) (legal : c.Legal size e) :
    ∃ s', c.exec size s = .ok ((c.meaning e).1,s') ∧ Owns size s' (c.meaning e).2 := by
  cases c with
  | construct x =>
    obtain ⟨l,m',done,owns'⟩ := construct_owns owns legal.1 legal.2 0
      ⟨⟨List.length_replicate,Nat.zero_le _,BoundedList.limit_lt legal.2⟩,rfl⟩
    refine ⟨_,?_,owns'⟩
    rw [Call.exec,done]
    rfl
  | ofCount x initialCount =>
    obtain ⟨l,m',done,owns'⟩ := construct_owns owns legal.1 legal.2 initialCount
      (BoundedList.replicate_represents (BoundedList.limit_lt legal.2))
    refine ⟨_,?_,owns'⟩
    rw [Call.exec,done]
    rfl
  | ofList x y =>
    obtain ⟨l,alive⟩ := owns.alive legal.2
    refine ⟨_,?_,owns.moved (owns.dead legal.1) alive⟩
    rw [Call.exec,object_eq alive]
    rfl
  | destroy x =>
    obtain ⟨l,alive⟩ := owns.alive legal
    obtain ⟨m',freed,_,_,owns'⟩ := owns.destructor alive
    refine ⟨_,?_,owns'⟩
    rw [Call.exec,object_eq alive]
    show (l.destructor s.memory >>= _) = _
    rw [freed]
    rfl
  | assign x y =>
    obtain ⟨l,alive⟩ := owns.alive legal.1
    obtain ⟨value,there⟩ := owns.alive legal.2
    by_cases same : y = x
    · subst same
      refine ⟨s,?_,?_⟩
      · rw [Call.exec,object_eq alive]
        exact if_pos rfl
      · show Owns size s (Function.update e y (e y))
        rw [Function.update_eq_self]
        exact owns
    · obtain ⟨l',m',done,owns'⟩ := assign_owns owns alive there same
      refine ⟨_,?_,owns'⟩
      rw [Call.exec,object_eq alive,object_eq there]
      show (if y = x then _ else _) = _
      rw [if_neg same,done]
      rfl
  | assignMove x y =>
    obtain ⟨l,alive⟩ := owns.alive legal.1
    obtain ⟨value,there⟩ := owns.alive legal.2
    by_cases same : y = x
    · subst same
      refine ⟨s,?_,?_⟩
      · rw [Call.exec,object_eq alive]
        exact if_pos rfl
      · show Owns size s (if y = y then e else _)
        rw [if_pos rfl]
        exact owns
    · obtain ⟨m₁,freed,_,_,owns₁⟩ := owns.destructor alive
      have there₁ : (⟨m₁,Function.update s.objects x none⟩ : State T).objects y = some value :=
        (Function.update_of_ne same _ _).trans there
      have moved := owns₁.moved (x := x) (Function.update_self ..) there₁
      refine ⟨(s.set x value m₁).set y zero m₁,?_,?_⟩
      · rw [Call.exec,object_eq alive,object_eq there]
        show (if y = x then _ else _) = _
        rw [if_neg same,freed]
        rfl
      · show Owns size _ (if y = x then e else _)
        rw [if_neg same]
        rw [State.set,State.set,Function.update_idem,Function.update_idem,Function.update_of_ne same] at moved
        exact moved
  | elements x c =>
    obtain ⟨xs,sequence,allowed,outside,room⟩ := legal
    obtain ⟨l,alive⟩ := owns.alive (by rw [sequence]; exact Option.some_ne_none _)
    obtain ⟨l',m',done,owns'⟩ := call_owns owns alive sequence allowed outside room
    refine ⟨s.set x l' m',?_,?_⟩
    · rw [Call.exec,object_eq alive,Call.meaning,sequence]
      show (l.call size s.memory c >>= _) = _
      rw [done]
      rfl
    · rw [Call.meaning,sequence]
      exact owns'

/-- Before the first call the lists of the kernel are zero, and no array is there. -/
def start (globals : List Nat) : State T := ⟨⟨fun _ => none,0⟩,fun x => if x ∈ globals then some zero else none⟩

def startSequences (globals : List Nat) : Env T := fun x => if x ∈ globals then some [] else none

theorem start_owns (globals : List Nat) : Owns size (start globals : State T) (startSequences globals) where
  fresh _ _ := rfl
  stands x := by
    show Stands size _ (if x ∈ globals then some zero else none) (if x ∈ globals then some [] else none)
    split
    · exact ⟨⟨⟨rfl,Nat.le_refl _,Nat.two_pow_pos 63⟩,rfl⟩,Nat.zero_le _,fun b here => by cases here⟩
    · trivial
  alone x y b here _ := by
    have null : array (start globals : State T) x = none := by
      show (if x ∈ globals then some zero else none).bind (fun l => l.mArray) = none
      split <;> rfl
    rw [null] at here
    cases here
  owned b there := absurd rfl there

theorem calls_own [BEq T] {calls : List (Call T)} (owns : Owns size s e) (legal : AllLegal size e calls) :
    ∃ s', run size s calls = .ok ((meaning e calls).1,s') ∧ Owns size s' (meaning e calls).2 := by
  induction calls generalizing s e with
  | nil => exact ⟨s,rfl,owns⟩
  | cons c calls ih =>
    obtain ⟨s₁,done,owns₁⟩ := exec_owns owns legal.1
    obtain ⟨s',rest,owns'⟩ := ih owns₁ legal.2
    refine ⟨s',?_,owns'⟩
    rw [run,done]
    show (run size s₁ calls >>= _) = _
    rw [rest]
    rfl

/-- In every program that constructs its lists and uses them while they are alive, every call returns what it means for the
    sequences, every list holds its own, and every array that is allocated belongs to exactly one list. -/
theorem run_owns [BEq T] (size : Nat) (globals : List Nat) (calls : List (Call T)) (legal : AllLegal size (startSequences globals) calls) :
    ∃ s', run size (start globals) calls = .ok ((meaning (startSequences globals) calls).1,s') ∧
      (∀ x, Stands size s'.memory (s'.objects x) ((meaning (startSequences globals) calls).2 x)) ∧
      (∀ b, s'.memory.cells b ≠ none ↔ ∃ x, array s' x = some b) ∧ ∀ x y b, array s' x = some b → array s' y = some b → x = y := by
  obtain ⟨s',done,owns⟩ := calls_own (start_owns globals) legal
  exact ⟨s',done,owns.stands,fun b => ⟨owns.owned b,fun ⟨_,here⟩ => owns.there here⟩,owns.alone⟩

/-- A global list gets the array of a temporary one, which a copy takes; the copy is copied back and destroyed. -/
def handOver : List (Call Nat) :=
  [.construct 1,.elements 1 (.Add (.value 7)),.assignMove 0 1,.destroy 1,.ofList 2 0,.assign 0 2,.elements 0 (.Get 0),.destroy 2]

theorem handOver_legal : AllLegal 8 (startSequences [0]) handOver := by
  simp [handOver,AllLegal,Call.Legal,Call.meaning,startSequences,Element.limit,BoundedList.Call.Allowed,BoundedList.Item.Allowed,BoundedList.Call.apply,
    Outside]

theorem run_owns_handOver : ∃ s', run 8 (start [0]) handOver = .ok ([none,none,none,none,none,none,some 7,none],s') ∧
    ∀ b, s'.memory.cells b ≠ none → array s' 0 = some b := by
  obtain ⟨s',done,stands,arrays,_⟩ := run_owns 8 [0] handOver handOver_legal
  refine ⟨s',?_,?_⟩
  · rw [done]
    simp [handOver,meaning,Call.meaning,BoundedList.Call.apply,BoundedList.Item.of]
  · intro b there
    obtain ⟨x,here⟩ := (arrays b).mp there
    by_cases first : x = 0
    · exact first ▸ here
    · have dead : (meaning (startSequences [0]) handOver).2 x = none := by
        by_cases second : x = 2
        · simp [handOver,meaning,Call.meaning,second]
        · by_cases third : x = 1
          · simp [handOver,meaning,Call.meaning,third]
          · simp [handOver,meaning,Call.meaning,startSequences,first,second,third]
      have stands := stands x
      rw [dead] at stands
      rw [array] at here
      cases alive : s'.objects x with
      | none =>
        rw [alive] at here
        cases here
      | some l =>
        rw [alive] at stands
        exact stands.elim

end ListObject
end WaifuOS
