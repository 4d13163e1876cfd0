import WaifuOS.StringObjects

/-!
Runs of the class `string`. Every object has a meaning, a text; a call means what its name says
for the texts. In every history whose calls keep away from objects without a buffer,
from lengths that are not those of the text and from C strings inside of the buffer that
is assigned to, each call returns, which it does only when its copies stay inside of
their buffers, and every object holds its text (`history_right`). The default constructor
makes an object without a buffer, whose length is the largest word (`empty_not_right`).
-/
namespace WaifuOS.Strings
open WaifuOS.Words WaifuOS.Blocks

/-- A text, or what is left of an object that was moved from. -/
inductive Value
  | text (t : List Byte)
  | moved

abbrev Env := Nat → Option Value

def Env.text (e : Env) (x : Nat) : List Byte :=
  match e x with
  | some (.text t) => t
  | _ => []

/-- The characters from a pointer up to the first NUL. -/
def textAt (m : Memory) (str : Pointer) : List Byte :=
  match str with
  | some p => (((m.cells p.block).getD []).drop p.offset).takeWhile (fun c => decide (c ≠ 0))
  | none => []

/-- The texts after a call. -/
def Call.meaning (s : State) (e : Env) : Call → Env
  | .construct x => Function.update e x (some (.text []))
  | .ofLength x _ => Function.update e x (some (.text []))
  | .ofString x y => Function.update e x (some (.text (e.text y)))
  | .ofCString x str => Function.update e x (some (.text (textAt s.memory str)))
  | .ofCStringLength x str length => Function.update e x (some (.text ((textAt s.memory str).take length)))
  | .destroy x => Function.update e x none
  | .append z x y => Function.update e z (some (.text (e.text x ++ e.text y)))
  | .appendMove z x y => Function.update (Function.update e y (some .moved)) z (some (.text (e.text x ++ e.text y)))
  | .appendCString z x str => Function.update e z (some (.text (e.text x ++ textAt s.memory str)))
  | .prepend z x str => Function.update e z (some (.text (textAt s.memory str ++ e.text x)))
  | .assign x y => Function.update e x (some (.text (e.text y)))
  | .assignMove x y =>
    if y = x then e else Function.update (Function.update e x (some (.text (e.text y)))) y (some .moved)
  | .assignCString x str => Function.update e x (some (.text (textAt s.memory str)))

/-- A pointer to characters with a NUL behind them in the same block. -/
def IsCString (m : Memory) (str : Pointer) : Prop :=
  ∃ p cells, str = some p ∧ m.cells p.block = some cells ∧ 0 ∈ cells.drop p.offset

/-- `n` bytes from the pointer on lie in one block. -/
def Readable (m : Memory) (str : Pointer) (n : Nat) : Prop :=
  ∃ p cells, str = some p ∧ m.cells p.block = some cells ∧ p.offset + n ≤ cells.length

/-- The calls of a program that is well formed: objects are constructed once and used while
    they are alive, and C strings have an end. -/
def Legal (s : State) : Call → Prop
  | .construct x => s.objects x = none
  | .ofLength x _ => s.objects x = none
  | .ofString x y => s.objects x = none ∧ s.objects y ≠ none
  | .ofCString x str => s.objects x = none ∧ IsCString s.memory str
  | .ofCStringLength x str _ => s.objects x = none ∧ Readable s.memory str 0
  | .destroy x => s.objects x ≠ none
  | .append z x y => s.objects z = none ∧ s.objects x ≠ none ∧ s.objects y ≠ none
  | .appendMove z x y => s.objects z = none ∧ s.objects x ≠ none ∧ s.objects y ≠ none
  | .appendCString z x str => s.objects z = none ∧ s.objects x ≠ none ∧ IsCString s.memory str
  | .prepend z x str => s.objects z = none ∧ s.objects x ≠ none ∧ IsCString s.memory str
  | .assign x y => s.objects x ≠ none ∧ s.objects y ≠ none
  | .assignMove x y => s.objects x ≠ none ∧ s.objects y ≠ none
  | .assignCString x str => s.objects x ≠ none ∧ IsCString s.memory str

/-- An object that is alive and was not moved from. -/
def HasText (e : Env) (x : Nat) : Prop := ∃ t, e x = some (.text t)

def buffer (s : State) (x : Nat) : Pointer := (s.objects x).bind (fun object => object.mBuffer)

/-- The largest size that is rounded to 16 without a wrap. -/
def largest : Nat := 2^64 - 16

/-- When a call does what it means. -/
def Sound (s : State) (e : Env) : Call → Prop
  | .construct _ => False
  | .ofLength _ length => length = 0
  | .ofString _ y => HasText e y
  | .ofCString _ str => (textAt s.memory str).length + 1 ≤ largest
  | .ofCStringLength _ str length =>
    length ≤ (textAt s.memory str).length ∧ Readable s.memory str (length+1) ∧ length + 1 ≤ largest
  | .destroy _ => True
  | .append _ x y => HasText e x ∧ HasText e y ∧ (e.text x).length + (e.text y).length + 1 ≤ largest
  | .appendMove _ x y => HasText e x ∧ HasText e y ∧ (e.text x).length + (e.text y).length + 1 ≤ largest
  | .appendCString _ x str => HasText e x ∧ (e.text x).length + (textAt s.memory str).length + 1 ≤ largest
  | .prepend _ x str => HasText e x ∧ (e.text x).length + (textAt s.memory str).length + 1 ≤ largest
  | .assign _ y => HasText e y
  | .assignMove _ y => HasText e y
  | .assignCString x str => (textAt s.memory str).length + 1 ≤ largest ∧
    ∀ p q, str = some p → buffer s x = some q → p.block = q.block → p = q

/-- Every object with a text holds it: a buffer of its own size with the text and a NUL, and a
    length that is that of the text. -/
def Right (s : State) (e : Env) : Prop :=
  ∀ x t, e x = some (.text t) → ∃ object b, s.objects x = some object ∧ object.mBuffer = some ⟨b,0⟩ ∧
    s.memory.cells b = some (t ++ [0]) ∧ 0 ∉ t ∧ object.mBufferSize = (t ++ [(0 : Byte)]).length ∧
    object.GetLength = t.length

/-- The states of a program that calls, with the texts, and the steps, the last one first. -/
inductive History (m : Memory) : State → Env → List (State × Env × Call) → Prop
  | start (fresh : m.Fresh) : History m ⟨m,fun _ => none⟩ (fun _ => none) []
  | call {s s' : State} {e : Env} {steps : List (State × Env × Call)} {call : Call} (earlier : History m s e steps)
      (legal : Legal s call) (done : call.exec s = some s') : History m s' (call.meaning s e) ((s,e,call) :: steps)

variable {m m' : Memory} {s s' : State} {e : Env} {x y z b n size : Nat} {t values cells front back : List Byte}
  {str first second : Pointer} {d : Place}

/-- The bytes that a copy of `n` bytes reads. -/
def Reads (m : Memory) (source : Pointer) (n : Nat) (values : List Byte) : Prop :=
  (n = 0 ∧ values = []) ∨ ∃ p, source = some p ∧ m.read p n = some values

theorem Reads.length (reads : Reads m str n values) : values.length = n := by
  rcases reads with ⟨rfl,rfl⟩ | ⟨p,_,read⟩
  · rfl
  · exact Store.read_length read

theorem Reads.alloc (reads : Reads m str n values) (cells : List Byte) (fresh : m.Fresh) : Reads (m.alloc cells) str n values :=
  reads.imp_right (fun ⟨p,place,read⟩ => ⟨p,place,Store.read_alloc fresh read⟩)

/-- A copy into a buffer replaces as many bytes. -/
theorem memcpy_eq (d : Place) (front cells back : List Byte) (reads : Reads m str n values)
    (there : m.cells d.block = some (front ++ cells ++ back)) (place : d.offset = front.length) (room : cells.length = n) :
    memcpy m (some d) str n = some (m.put d.block (front ++ values ++ back)) := by
  rcases reads with ⟨rfl,rfl⟩ | ⟨p,rfl,read⟩
  · rw [List.length_eq_zero_iff] at room
    subst room
    have same : m.put d.block (front ++ [] ++ back) = m := by
      rw [Store.put,← there,Function.update_eq_self]
    rw [same]
    exact if_pos rfl
  · by_cases zero : n = 0
    · subst zero
      have none := Store.read_length read
      rw [List.length_eq_zero_iff] at room none
      subst room none
      have same : m.put d.block (front ++ [] ++ back) = m := by
        rw [Store.put,← there,Function.update_eq_self]
      rw [same]
      exact if_pos rfl
    · rw [memcpy,if_neg zero]
      exact Store.copy_eq read there place room

theorem calloc_eq (pos : 0 < size) (small : size ≤ largest) :
    calloc m size = (some ⟨m.next,0⟩,m.alloc (List.replicate size 0)) := by
  apply if_neg
  rw [Kernel.roundSize_eq]
  unfold Kernel.roundup16
  simp only [largest] at small
  omega

/-- A duplicate is a new block with what was read. -/
theorem duplicate_eq (fresh : m.Fresh) (reads : Reads m str size values) (pos : 0 < size) (small : size ≤ largest) :
    string.duplicate m str size = some (⟨some ⟨m.next,0⟩,size⟩,m.alloc values) := by
  have copied := memcpy_eq ⟨m.next,0⟩ [] (List.replicate size 0) [] (reads.alloc (List.replicate size 0) fresh)
    (by simp) rfl List.length_replicate
  rw [string.duplicate,calloc_eq pos small]
  simp only [copied,Option.bind_eq_bind,Option.bind_some,List.nil_append,List.append_nil,Store.alloc_put]

/-- Joining is a new block with both parts. -/
theorem join_eq {a c : Nat} {left right : List Byte} (fresh : m.Fresh) (reads : Reads m first a left) (reads' : Reads m second c right)
    (sum : size = a + c) (pos : 0 < size) (small : size ≤ largest) :
    string.join m size first a second c = some (⟨some ⟨m.next,0⟩,size⟩,m.alloc (left ++ right)) := by
  subst sum
  have copied := memcpy_eq ⟨m.next,0⟩ [] (List.replicate a 0) (List.replicate c 0) (reads.alloc (List.replicate (a+c) 0) fresh)
    (by simp) rfl List.length_replicate
  have copied' := memcpy_eq ⟨m.next,a⟩ left (List.replicate c 0) [] (reads'.alloc (left ++ List.replicate c 0) fresh)
    (by simp) reads.length.symm List.length_replicate
  rw [string.join,calloc_eq pos small]
  simp only [copied,copied',advance,Option.map_some,Nat.zero_add,Option.bind_eq_bind,Option.bind_some,List.nil_append,
    List.append_nil,Store.alloc_put]

theorem strlenLoop_eq (none : 0 ∉ t) (rest : List Byte) (n : Nat) : strlenLoop (t ++ 0 :: rest) n = some (n + t.length) := by
  induction t generalizing n with
  | nil => rfl
  | cons c t ih =>
    have nonzero : c ≠ 0 := fun zero => none (by rw [zero]; exact List.mem_cons_self ..)
    rw [List.cons_append,strlenLoop,if_neg nonzero,ih (fun member => none (List.mem_cons_of_mem _ member)),List.length_cons]
    congr 1
    omega

/-- Bytes with a NUL are a text, the NUL and a rest. -/
theorem takeWhile_split (has : (0 : Byte) ∈ cells) :
    ∃ rest, cells = cells.takeWhile (fun c => decide (c ≠ 0)) ++ 0 :: rest := by
  induction cells with
  | nil => cases has
  | cons c cells ih =>
    by_cases zero : c = 0
    · subst zero
      exact ⟨cells,by simp⟩
    · obtain ⟨rest,split⟩ := ih ((List.mem_cons.mp has).resolve_left (Ne.symm zero))
      have keep : (c :: cells).takeWhile (fun c => decide (c ≠ 0)) = c :: cells.takeWhile (fun c => decide (c ≠ 0)) :=
        List.takeWhile_cons_of_pos (decide_eq_true zero)
      exact ⟨rest,by rw [keep,List.cons_append,← split]⟩

theorem textAt_nonzero (m : Memory) (str : Pointer) : 0 ∉ textAt m str := by
  intro member
  cases str with
  | none => cases member
  | some p =>
    have all := List.all_eq_true.mp List.all_takeWhile _ member
    exact absurd all (by decide)

/-- What a C string gives to `strlen` and to copies. -/
theorem cString_reads (valid : IsCString m str) : strlen m str = some (textAt m str).length ∧
    Reads m str ((textAt m str).length + 1) (textAt m str ++ [0]) ∧ Reads m str (textAt m str).length (textAt m str) := by
  obtain ⟨p,cells,rfl,there,has⟩ := valid
  obtain ⟨rest,split⟩ := takeWhile_split has
  have text : textAt m (some p) = (cells.drop p.offset).takeWhile (fun c => decide (c ≠ 0)) := by
    rw [textAt,there]
    rfl
  have none := textAt_nonzero m (some p)
  rw [← text] at split
  generalize textAt m (some p) = t at split none
  have length : (cells.drop p.offset).length = t.length + 1 + rest.length := by
    rw [split,List.length_append,List.length_cons]
    omega
  rw [List.length_drop] at length
  refine ⟨?_,.inr ⟨p,rfl,?_⟩,.inr ⟨p,rfl,?_⟩⟩
  · simp only [strlen,there,split,Option.bind_eq_bind,Option.bind_some]
    rw [strlenLoop_eq none,Nat.zero_add]
  · rw [Store.read_eq there (by omega),split,List.append_cons,show t.length + 1 = (t ++ [(0 : Byte)]).length by simp,List.take_left]
  · rw [Store.read_eq there (by omega),split,List.take_left]

/-! ### What holds between calls -/

/-- An object and its value. -/
def Stands (m : Memory) (object : Option string) : Option Value → Prop
  | none => object = none
  | some .moved => object = some .empty
  | some (.text t) => ∃ b, object = some ⟨some ⟨b,0⟩,t.length+1⟩ ∧ m.cells b = some (t ++ [0]) ∧ 0 ∉ t ∧ t.length + 1 ≤ largest

/-- The objects stand for their values, and no two of them share a buffer. -/
structure Holds (s : State) (e : Env) : Prop where
  fresh : s.memory.Fresh
  stands : ∀ x, Stands s.memory (s.objects x) (e x)
  own : ∀ x y p, buffer s x = some p → buffer s y = some p → x = y

/-- Whatever keeps the buffer keeps what an object stands for. -/
theorem Stands.congr {object : Option string} {value : Option Value} (stands : Stands m object value)
    (same : ∀ b, object.bind (fun object => object.mBuffer) = some ⟨b,0⟩ → m'.cells b = m.cells b) : Stands m' object value := by
  match value, stands with
  | none, dead => exact dead
  | some .moved, moved => exact moved
  | some (.text t), ⟨b,here,there,rest⟩ =>
    refine ⟨b,here,?_,rest⟩
    rw [same b (by rw [here]; rfl)]
    exact there

/-- A buffer is the start of a block that is there. -/
theorem Holds.block (holds : Holds s e) {p : Place} (owned : buffer s x = some p) :
    p.offset = 0 ∧ ∃ cells, s.memory.cells p.block = some cells := by
  have stands := holds.stands x
  rw [buffer] at owned
  match value : e x with
  | none => rw [value] at stands; rw [show s.objects x = none from stands] at owned; cases owned
  | some .moved => rw [value] at stands; rw [show s.objects x = some .empty from stands] at owned; cases owned
  | some (.text t) =>
    rw [value] at stands
    obtain ⟨b,here,there,_⟩ := stands
    rw [here] at owned
    cases owned
    exact ⟨rfl,_,there⟩

/-- The object of a text. -/
theorem Holds.text (holds : Holds s e) (has : e x = some (.text t)) : ∃ b, s.objects x = some ⟨some ⟨b,0⟩,t.length+1⟩ ∧
    s.memory.cells b = some (t ++ [0]) ∧ 0 ∉ t ∧ t.length + 1 ≤ largest := by
  have stands := holds.stands x
  rwa [has] at stands

/-- The text of an object can be copied, with its NUL and without. -/
theorem text_reads (there : m.cells b = some (t ++ [0])) :
    Reads m (some ⟨b,0⟩) (t.length+1) (t ++ [0]) ∧ Reads m (some ⟨b,0⟩) t.length t := by
  refine ⟨.inr ⟨_,rfl,?_⟩,.inr ⟨_,rfl,?_⟩⟩
  · rw [Store.read_eq there (by simp)]
    simp
  · rw [Store.read_eq there (by simp)]
    simp

theorem length_of_text (small : t.length + 1 ≤ largest) (p : Pointer) : (⟨p,t.length+1⟩ : string).GetLength = t.length := by
  have same : (⟨p,t.length+1⟩ : string).GetLength = sub (t.length+1) 1 := rfl
  simp only [largest] at small
  rw [same,sub_of_le (by omega) (by omega),Nat.add_sub_cancel]

theorem buffer_update {memory : Memory} {object : Option string} (x y : Nat) :
    buffer ⟨memory,Function.update s.objects x object⟩ y =
      if y = x then object.bind (fun object => object.mBuffer) else buffer s y := by
  dsimp only [buffer]
  split
  · rename_i same
    rw [same,Function.update_self]
  · rw [Function.update_of_ne ‹_›]

/-- A block that is allocated belongs to no object. -/
theorem Holds.allocated (holds : Holds s e) (cells : List Byte) :
    Holds { s with memory := s.memory.alloc cells } e ∧ ∀ x, buffer s x ≠ some ⟨s.memory.next,0⟩ := by
  have new : ∀ x, buffer s x ≠ some ⟨s.memory.next,0⟩ := by
    intro x owned
    obtain ⟨_,cells,there⟩ := holds.block owned
    exact holds.fresh.ne_next there rfl
  refine ⟨⟨holds.fresh.alloc,fun x => (holds.stands x).congr (fun b owned => Store.alloc_other ?_),holds.own⟩,new⟩
  rintro rfl
  exact new x owned

/-- An object changes, and the memory with it, but no buffer of another object. -/
theorem Holds.update {object : Option string} {value : Option Value} (holds : Holds s e) (fresh : m'.Fresh)
    (stands : Stands m' object value) (kept : ∀ y b, y ≠ x → buffer s y = some ⟨b,0⟩ → m'.cells b = s.memory.cells b)
    (apart : ∀ y p, y ≠ x → buffer s y = some p → object.bind (fun object => object.mBuffer) ≠ some p) :
    Holds ⟨m',Function.update s.objects x object⟩ (Function.update e x value) := by
  refine ⟨fresh,?_,?_⟩
  · intro y
    by_cases same : y = x
    · subst same
      simp only [Function.update_self]
      exact stands
    · simp only [Function.update_of_ne same]
      exact (holds.stands y).congr (fun b owned => kept y b same owned)
  · intro y z p left right
    rw [buffer_update] at left right
    split at left <;> split at right
    · rename_i here there
      rw [here,there]
    · exact absurd left (apart z p ‹_› right)
    · exact absurd right (apart y p ‹_› left)
    · exact holds.own y z p left right

/-- An object without a buffer takes one that belongs to none. -/
theorem Holds.adopt (holds : Holds s e) (without : ∀ x, buffer s x ≠ some ⟨b,0⟩)
    (there : s.memory.cells b = some (t ++ [0])) (clean : 0 ∉ t) (small : t.length + 1 ≤ largest) :
    Holds (s.setObject z ⟨some ⟨b,0⟩,t.length+1⟩) (Function.update e z (some (.text t))) := by
  refine holds.update holds.fresh ⟨_,rfl,there,clean,small⟩ (fun _ _ _ _ => rfl) ?_
  intro y p _ owned taken
  rw [← taken] at owned
  exact without y owned

/-- An object gets a new buffer. -/
theorem Holds.result (holds : Holds s e) (none : 0 ∉ t) (small : t.length + 1 ≤ largest) :
    Holds (s.result z (⟨some ⟨s.memory.next,0⟩,t.length+1⟩,s.memory.alloc (t ++ [0])))
      (Function.update e z (some (.text t))) := by
  obtain ⟨holds',without⟩ := holds.allocated (t ++ [0])
  exact holds'.adopt without Store.alloc_self none small

/-- An object loses its buffer, and those of the others are kept. -/
theorem Holds.emptied (holds : Holds s e) (fresh : m'.Fresh)
    (kept : ∀ y b, y ≠ x → buffer s y = some ⟨b,0⟩ → m'.cells b = s.memory.cells b) :
    Holds ⟨m',Function.update s.objects x (some .empty)⟩ (Function.update e x (some .moved)) :=
  holds.update fresh rfl kept (fun _ _ _ _ none => by cases none)

/-- The destructor leaves an object that holds nothing. -/
theorem Holds.destructor (holds : Holds s e) (alive : s.objects x ≠ none) : ∃ s', s.destructor x = some s' ∧
    s'.objects = Function.update s.objects x (some .empty) ∧ Holds s' (Function.update e x (some .moved)) ∧
    ∀ b, buffer s x ≠ some ⟨b,0⟩ → s'.memory.cells b = s.memory.cells b := by
  obtain ⟨object,here⟩ := Option.ne_none_iff_exists'.mp alive
  have owned : buffer s x = object.mBuffer := by rw [buffer,here]; rfl
  cases place : object.mBuffer with
  | none =>
    refine ⟨s.setObject x .empty,?_,rfl,holds.emptied holds.fresh (fun _ _ _ _ => rfl),fun b _ => rfl⟩
    simp only [State.destructor,here,place,Option.bind_eq_bind,Option.bind_some]
  | some p =>
    rw [place] at owned
    obtain ⟨start,cells,there⟩ := holds.block owned
    obtain ⟨b,offset⟩ := p
    cases start
    have freed : free s.memory ⟨b,0⟩ = some { s.memory with cells := Function.update s.memory.cells b none } :=
      Store.release_eq there
    have kept : ∀ c, buffer s x ≠ some ⟨c,0⟩ → Function.update s.memory.cells b none c = s.memory.cells c := by
      intro c other
      refine Function.update_of_ne ?_ _ _
      rintro rfl
      exact other owned
    refine ⟨⟨{ s.memory with cells := Function.update s.memory.cells b none },Function.update s.objects x (some .empty)⟩,?_,rfl,
      holds.emptied holds.fresh.without (fun y c different shared => kept c (fun same => different (holds.own y x _ shared same))),
      kept⟩
    simp only [State.destructor,here,place,freed,Option.bind_eq_bind,Option.bind_some]
    rfl

/-- An object that holds nothing is no more. -/
theorem Holds.dead (holds : Holds s e) :
    Holds { s with objects := Function.update s.objects x none } (Function.update e x none) :=
  holds.update holds.fresh rfl (fun _ _ _ _ => rfl) (fun _ _ _ _ none => by cases none)

/-- A buffer goes from one object to another that holds nothing. -/
theorem Holds.handOver (holds : Holds s e) (has : e y = some (.text t)) (different : y ≠ x) :
    Holds { s with objects := Function.update (Function.update s.objects x (s.objects y)) y (some .empty) }
      (Function.update (Function.update e x (some (.text t))) y (some .moved)) := by
  obtain ⟨b,here,there,clean,small⟩ := holds.text has
  have emptied : Holds ⟨s.memory,Function.update s.objects y (some .empty)⟩ (Function.update e y (some .moved)) :=
    holds.emptied holds.fresh (fun _ _ _ _ => rfl)
  have without : ∀ z, buffer ⟨s.memory,Function.update s.objects y (some .empty)⟩ z ≠ some ⟨b,0⟩ := by
    intro z owned
    rw [buffer_update] at owned
    split at owned
    · cases owned
    · have mine : buffer s y = some ⟨b,0⟩ := by rw [buffer,here]; rfl
      exact absurd (holds.own z y _ owned mine) ‹_›
  have done := emptied.adopt (z := x) without there clean small
  rw [here,Function.update_comm different.symm,Function.update_comm different.symm]
  exact done

/-! ### Calls -/

theorem text_of_has (has : e x = some (.text t)) : e.text x = t := by rw [Env.text,has]

theorem Holds.clean (holds : Holds s e) (has : e x = some (.text t)) : 0 ∉ t := by
  obtain ⟨_,_,_,clean,_⟩ := holds.text has
  exact clean

theorem clean_append {left right : List Byte} (clean : 0 ∉ left) (clean' : 0 ∉ right) : 0 ∉ left ++ right := by
  intro member
  rcases List.mem_append.mp member with first | second
  · exact clean first
  · exact clean' second

/-- A copy of an object. -/
theorem duplicate_text (holds : Holds s e) (has : e y = some (.text t)) : ∃ value, s.objects y = some value ∧
    string.duplicate s.memory value.mBuffer value.mBufferSize =
      some (⟨some ⟨s.memory.next,0⟩,t.length+1⟩,s.memory.alloc (t ++ [0])) := by
  obtain ⟨b,here,there,_,small⟩ := holds.text has
  exact ⟨_,here,duplicate_eq holds.fresh (text_reads there).1 (Nat.succ_pos _) small⟩

/-- A copy of a C string. -/
theorem duplicate_cString (fresh : m.Fresh) (valid : IsCString m str) (small : (textAt m str).length + 1 ≤ largest) :
    string.duplicate m str (wrap ((textAt m str).length + 1)) =
      some (⟨some ⟨m.next,0⟩,(textAt m str).length+1⟩,m.alloc (textAt m str ++ [0])) := by
  obtain ⟨_,reads,_⟩ := cString_reads valid
  have word : (textAt m str).length + 1 < 2^64 := by unfold largest at small; omega
  rw [wrap_of_lt word]
  exact duplicate_eq fresh reads (by omega) small

theorem ofCString_eq (fresh : m.Fresh) (valid : IsCString m str) (small : (textAt m str).length + 1 ≤ largest) :
    string.ofCString m str = some (⟨some ⟨m.next,0⟩,(textAt m str).length+1⟩,m.alloc (textAt m str ++ [0])) := by
  obtain ⟨length,_,_⟩ := cString_reads valid
  rw [string.ofCString,length,Option.bind_eq_bind,Option.bind_some,duplicate_cString fresh valid small]

/-- The characters up to a length, where a NUL takes the place of what stands behind them. -/
theorem ofCStringLength_eq (fresh : m.Fresh) (within : n ≤ (textAt m str).length) (readable : Readable m str (n+1))
    (small : n + 1 ≤ largest) : string.ofCStringLength m str n =
      some (⟨some ⟨m.next,0⟩,((textAt m str).take n).length+1⟩,m.alloc ((textAt m str).take n ++ [0])) := by
  obtain ⟨p,cells,rfl,there,inside⟩ := readable
  have text : textAt m (some p) = (cells.drop p.offset).takeWhile (fun c => decide (c ≠ 0)) := by
    rw [textAt,there]
    rfl
  obtain ⟨rest,split⟩ : textAt m (some p) <+: cells.drop p.offset := text ▸ List.takeWhile_prefix _
  have read := Store.read_eq there inside
  have front : (cells.drop p.offset).take (n+1) = (textAt m (some p)).take n ++ ((cells.drop p.offset).take (n+1)).drop n := by
    have same : (textAt m (some p)).take n = ((cells.drop p.offset).take (n+1)).take n := by
      rw [← split,List.take_take,Nat.min_eq_left (by omega),List.take_append_of_le_length within]
    rw [same,List.take_append_drop]
  have last : (((cells.drop p.offset).take (n+1)).drop n).length = 1 := by
    rw [List.length_drop,List.length_take,List.length_drop]
    omega
  have word : n + 1 < 2^64 := by unfold largest at small; omega
  have length : ((textAt m (some p)).take n).length = n := by
    rw [List.length_take]
    omega
  have there : (m.alloc ((cells.drop p.offset).take (n+1))).cells m.next =
      some ((textAt m (some p)).take n ++ ((cells.drop p.offset).take (n+1)).drop n ++ []) := by
    rw [List.append_nil,← front]
    exact Store.alloc_self
  have written := Store.write_eq (show (m.alloc _).cells (⟨m.next,n⟩ : Place).block = _ from there) length.symm
    (show _ = ([0] : List Byte).length from last)
  rw [string.ofCStringLength,wrap_of_lt word,duplicate_eq fresh (.inr ⟨p,rfl,read⟩) (by omega) small]
  simp only [Option.bind_eq_bind,Option.bind_some,advance,Option.map_some,Nat.zero_add,written,Store.alloc_put,List.append_nil,
    length]

/-- The text of one object behind that of another. -/
theorem append_eq {left right : List Byte} (holds : Holds s e) (has : e x = some (.text left)) (has' : e y = some (.text right))
    (small : left.length + right.length + 1 ≤ largest) : ∃ this rvalue, s.objects x = some this ∧ s.objects y = some rvalue ∧
      this.append s.memory rvalue = some (⟨some ⟨s.memory.next,0⟩,(left ++ right).length+1⟩,
        s.memory.alloc (left ++ right ++ [0])) := by
  obtain ⟨b,here,there,_,fits⟩ := holds.text has
  obtain ⟨c,here',there',_,_⟩ := holds.text has'
  have word : left.length + (right.length + 1) < 2^64 := by unfold largest at small; omega
  refine ⟨_,_,here,here',?_⟩
  rw [string.append,length_of_text fits,wrap_of_lt word,
    join_eq holds.fresh (text_reads there).2 (text_reads there').1 rfl (by omega) (by omega),List.length_append,List.append_assoc,
    Nat.add_assoc]

/-- A C string behind the text of an object. -/
theorem appendCString_eq (holds : Holds s e) (has : e x = some (.text t)) (valid : IsCString s.memory str)
    (small : t.length + (textAt s.memory str).length + 1 ≤ largest) : ∃ this, s.objects x = some this ∧
      this.appendCString s.memory str = some (⟨some ⟨s.memory.next,0⟩,(t ++ textAt s.memory str).length+1⟩,
        s.memory.alloc (t ++ textAt s.memory str ++ [0])) := by
  obtain ⟨b,here,there,_,fits⟩ := holds.text has
  obtain ⟨length,reads,_⟩ := cString_reads valid
  have word : t.length + 1 + (textAt s.memory str).length < 2^64 := by unfold largest at small; omega
  refine ⟨_,here,?_⟩
  rw [string.appendCString,length,Option.bind_eq_bind,Option.bind_some,length_of_text fits,wrap_of_lt word,
    wrap_of_lt (x := (textAt s.memory str).length + 1) (by omega),
    join_eq holds.fresh (text_reads there).2 reads (by omega) (by omega) (by omega),List.length_append,List.append_assoc]
  congr 3
  omega

/-- A C string in front of the text of an object. -/
theorem prepend_eq (holds : Holds s e) (has : e x = some (.text t)) (valid : IsCString s.memory str)
    (small : t.length + (textAt s.memory str).length + 1 ≤ largest) : ∃ this, s.objects x = some this ∧
      this.prepend s.memory str = some (⟨some ⟨s.memory.next,0⟩,(textAt s.memory str ++ t).length+1⟩,
        s.memory.alloc (textAt s.memory str ++ t ++ [0])) := by
  obtain ⟨b,here,there,_,fits⟩ := holds.text has
  obtain ⟨length,_,reads⟩ := cString_reads valid
  have word : t.length + 1 + (textAt s.memory str).length < 2^64 := by unfold largest at small; omega
  refine ⟨_,here,?_⟩
  rw [string.prepend,length,Option.bind_eq_bind,Option.bind_some,wrap_of_lt word,
    join_eq holds.fresh reads (text_reads there).1 (by omega) (by omega) (by omega),List.length_append,List.append_assoc]
  congr 3
  omega

/-- What a destroyed object leaves for a C string in another block. -/
theorem cString_kept (m' : Memory) (valid : IsCString m str) (kept : ∀ p, str = some p → m'.cells p.block = m.cells p.block) :
    IsCString m' str ∧ textAt m' str = textAt m str := by
  obtain ⟨p,cells,rfl,there,has⟩ := valid
  have same := kept p rfl
  refine ⟨⟨p,cells,rfl,same.trans there,has⟩,?_⟩
  simp only [textAt,same]

/-- The start of the buffer of an object is a C string with its text. -/
theorem textAt_own (there : m.cells b = some (t ++ [0])) (none : 0 ∉ t) : textAt m (some ⟨b,0⟩) = t := by
  have all : ∀ c ∈ t, decide (c ≠ 0) = true := fun c member => decide_eq_true (fun zero => none (zero ▸ member))
  simp only [textAt,there,Option.getD_some,List.drop_zero]
  rw [List.takeWhile_append_of_pos all]
  simp

/-- Assigning a text that can be duplicated after the old one is destroyed. -/
theorem Holds.replaced (holds : Holds s (Function.update e x (some .moved))) (none : 0 ∉ t) (small : t.length + 1 ≤ largest) :
    Holds (s.result x (⟨some ⟨s.memory.next,0⟩,t.length+1⟩,s.memory.alloc (t ++ [0]))) (Function.update e x (some (.text t))) := by
  have done := holds.result (z := x) none small
  rwa [Function.update_idem] at done

theorem assign_holds (holds : Holds s e) (alive : s.objects x ≠ none) (has : e y = some (.text t)) :
    ∃ s', (Call.assign x y).exec s = some s' ∧ Holds s' (Function.update e x (some (.text t))) := by
  by_cases same : y = x
  · subst same
    refine ⟨s,if_pos rfl,?_⟩
    rw [← has,Function.update_eq_self]
    exact holds
  · obtain ⟨s₁,destroyed,_,holds',_⟩ := holds.destructor alive
    have has' : Function.update e x (some .moved) y = some (.text t) := (Function.update_of_ne same _ _).trans has
    obtain ⟨value,there,duplicated⟩ := duplicate_text holds' has'
    obtain ⟨_,_,_,none,small⟩ := holds.text has
    refine ⟨_,?_,holds'.replaced none small⟩
    simp only [Call.exec,if_neg same,destroyed,there,duplicated,Option.bind_eq_bind,Option.bind_some]

theorem assignMove_holds (holds : Holds s e) (alive : s.objects x ≠ none) (has : e y = some (.text t)) :
    ∃ s', (Call.assignMove x y).exec s = some s' ∧ Holds s' (if y = x then e else
      Function.update (Function.update e x (some (.text t))) y (some .moved)) := by
  by_cases same : y = x
  · rw [if_pos same]
    exact ⟨s,if_pos same,holds⟩
  · rw [if_neg same]
    obtain ⟨s₁,destroyed,_,holds',_⟩ := holds.destructor alive
    have has' : Function.update e x (some .moved) y = some (.text t) := (Function.update_of_ne same _ _).trans has
    obtain ⟨b,there,_⟩ := holds'.text has'
    have done := holds'.handOver has' same
    rw [Function.update_idem,there] at done
    refine ⟨_,?_,done⟩
    simp only [Call.exec,if_neg same,destroyed,there,Option.bind_eq_bind,Option.bind_some,State.setObject]

theorem assignCString_holds (holds : Holds s e) (alive : s.objects x ≠ none) (valid : IsCString s.memory str)
    (small : (textAt s.memory str).length + 1 ≤ largest)
    (outside : ∀ p q, str = some p → buffer s x = some q → p.block = q.block → p = q) :
    ∃ s', (Call.assignCString x str).exec s = some s' ∧
      Holds s' (Function.update e x (some (.text (textAt s.memory str)))) := by
  obtain ⟨this,here⟩ := Option.ne_none_iff_exists'.mp alive
  have owned : buffer s x = this.mBuffer := by rw [buffer,here]; rfl
  by_cases same : str = this.mBuffer
  · obtain ⟨p,cells,rfl,there,_⟩ := id valid
    refine ⟨s,?_,?_⟩
    · simp only [Call.exec,here,if_pos same,Option.bind_eq_bind,Option.bind_some]
    · -- The object has a buffer, so that it has a text, and it keeps it.
      have stands := holds.stands x
      match value : e x with
      | none => rw [value] at stands; exact absurd stands alive
      | some .moved =>
        rw [value] at stands
        cases here.symm.trans stands
        cases same
      | some (.text t) =>
        rw [value] at stands
        obtain ⟨b,object,buffer,none,_⟩ := stands
        cases here.symm.trans object
        rw [same,textAt_own buffer none,← value,Function.update_eq_self]
        exact holds
  · obtain ⟨s₁,destroyed,_,holds',kept⟩ := holds.destructor alive
    obtain ⟨valid',text⟩ := cString_kept s₁.memory valid (fun p place => kept p.block (fun mine => same (by
      rw [place,← owned,mine]
      congr 1
      exact outside p _ place mine rfl)))
    obtain ⟨length,_,_⟩ := cString_reads valid'
    have duplicated := duplicate_cString holds'.fresh valid' (text.symm ▸ small)
    rw [← text]
    refine ⟨_,?_,holds'.replaced (textAt_nonzero s₁.memory str) (text.symm ▸ small)⟩
    simp only [Call.exec,here,if_neg same,destroyed,length,duplicated,Option.bind_eq_bind,Option.bind_some]

/-- A concatenation whose argument is destroyed. -/
theorem appendMove_holds {left right : List Byte} (holds : Holds s e) (has : e x = some (.text left))
    (has' : e y = some (.text right)) (small : left.length + right.length + 1 ≤ largest) :
    ∃ s', (Call.appendMove z x y).exec s = some s' ∧
      Holds s' (Function.update (Function.update e y (some .moved)) z (some (.text (left ++ right)))) := by
  obtain ⟨this,rvalue,here,there,appended⟩ := append_eq holds has has' small
  obtain ⟨holds₁,without⟩ := holds.allocated (left ++ right ++ [0])
  have alive : ({ s with memory := s.memory.alloc (left ++ right ++ [0]) } : State).objects y ≠ none := by
    simp only [there]
    exact Option.some_ne_none _
  obtain ⟨s₂,destroyed,objects,holds₂,kept⟩ := holds₁.destructor alive
  have fits : (left ++ right).length + 1 ≤ largest := by rw [List.length_append]; exact small
  have still : s₂.memory.cells s.memory.next = some (left ++ right ++ [0]) := (kept _ (without y)).trans Store.alloc_self
  have apart : ∀ w, buffer s₂ w ≠ some ⟨s.memory.next,0⟩ := by
    intro w
    rw [show s₂ = ⟨s₂.memory,Function.update s.objects y (some .empty)⟩ by rw [← objects],buffer_update]
    split
    · exact fun none => by cases none
    · exact without w
  refine ⟨_,?_,holds₂.adopt apart still (clean_append (holds.clean has) (holds.clean has')) fits⟩
  simp only [Call.exec,here,there,appended,destroyed,Option.bind_eq_bind,Option.bind_some]

/-- A sound call returns, and the objects stand for the texts it means. -/
theorem call_holds {call : Call} (holds : Holds s e) (legal : Legal s call) (sound : Sound s e call) :
    ∃ s', call.exec s = some s' ∧ Holds s' (call.meaning s e) := by
  cases call with
  | construct x => exact sound.elim
  | ofLength x length =>
    have zero : length = 0 := sound
    have made : string.ofLength s.memory 0 = (⟨some ⟨s.memory.next,0⟩,1⟩,s.memory.alloc [0]) := by
      rw [string.ofLength,wrap_of_lt (by decide),calloc_eq (by decide) (by decide)]
      rfl
    subst zero
    refine ⟨_,rfl,?_⟩
    rw [made]
    exact holds.result (t := []) (by simp) (by decide)
  | ofString x y =>
    obtain ⟨t,has⟩ := sound
    obtain ⟨_,_,_,clean,small⟩ := holds.text has
    obtain ⟨value,there,duplicated⟩ := duplicate_text holds has
    refine ⟨_,?_,by rw [Call.meaning,text_of_has has]; exact holds.result clean small⟩
    simp only [Call.exec,string.ofString,there,duplicated,Option.bind_eq_bind,Option.bind_some]
  | ofCString x str =>
    refine ⟨_,?_,holds.result (textAt_nonzero s.memory str) sound⟩
    simp only [Call.exec,ofCString_eq holds.fresh legal.2 sound,Option.bind_eq_bind,Option.bind_some]
  | ofCStringLength x str length =>
    obtain ⟨within,readable,small⟩ := sound
    have clean : 0 ∉ (textAt s.memory str).take length :=
      fun member => textAt_nonzero s.memory str (List.mem_of_mem_take member)
    have count : ((textAt s.memory str).take length).length = length := by
      rw [List.length_take]
      omega
    refine ⟨_,?_,holds.result clean (by rw [count]; exact small)⟩
    simp only [Call.exec,ofCStringLength_eq holds.fresh within readable small,Option.bind_eq_bind,Option.bind_some]
  | destroy x =>
    obtain ⟨s₁,destroyed,_,holds',_⟩ := holds.destructor legal
    have dead := holds'.dead (x := x)
    rw [Function.update_idem] at dead
    refine ⟨_,?_,dead⟩
    simp only [Call.exec,destroyed,Option.bind_eq_bind,Option.bind_some]
  | append z x y =>
    obtain ⟨⟨left,has⟩,⟨right,has'⟩,small⟩ := sound
    rw [text_of_has has,text_of_has has'] at small
    obtain ⟨this,rvalue,here,there,appended⟩ := append_eq holds has has' small
    have done := holds.result (z := z) (clean_append (holds.clean has) (holds.clean has'))
      (by rw [List.length_append]; exact small)
    refine ⟨_,?_,by rw [Call.meaning,text_of_has has,text_of_has has']; exact done⟩
    simp only [Call.exec,here,there,appended,Option.bind_eq_bind,Option.bind_some]
  | appendMove z x y =>
    obtain ⟨⟨left,has⟩,⟨right,has'⟩,small⟩ := sound
    rw [text_of_has has,text_of_has has'] at small
    rw [Call.meaning,text_of_has has,text_of_has has']
    exact appendMove_holds holds has has' small
  | appendCString z x str =>
    obtain ⟨⟨t,has⟩,small⟩ := sound
    rw [text_of_has has] at small
    obtain ⟨this,here,appended⟩ := appendCString_eq holds has legal.2.2 small
    have done := holds.result (z := z) (clean_append (holds.clean has) (textAt_nonzero s.memory str))
      (by rw [List.length_append]; exact small)
    refine ⟨_,?_,by rw [Call.meaning,text_of_has has]; exact done⟩
    simp only [Call.exec,here,appended,Option.bind_eq_bind,Option.bind_some]
  | prepend z x str =>
    obtain ⟨⟨t,has⟩,small⟩ := sound
    rw [text_of_has has] at small
    obtain ⟨this,here,prepended⟩ := prepend_eq holds has legal.2.2 small
    have done := holds.result (z := z) (clean_append (textAt_nonzero s.memory str) (holds.clean has))
      (by rw [List.length_append]; omega)
    refine ⟨_,?_,by rw [Call.meaning,text_of_has has]; exact done⟩
    simp only [Call.exec,here,prepended,Option.bind_eq_bind,Option.bind_some]
  | assign x y =>
    obtain ⟨t,has⟩ := sound
    rw [Call.meaning,text_of_has has]
    exact assign_holds holds legal.1 has
  | assignMove x y =>
    obtain ⟨t,has⟩ := sound
    rw [Call.meaning,text_of_has has]
    exact assignMove_holds holds legal.1 has
  | assignCString x str => exact assignCString_holds holds legal.1 legal.2 sound.1 sound.2

/-! ### Histories -/

theorem start_holds (fresh : m.Fresh) : Holds ⟨m,fun _ => none⟩ (fun _ => none) :=
  ⟨fresh,fun _ => rfl,fun _ _ _ owned => by cases owned⟩

/-- In a history of sound calls the objects stand for their texts. -/
theorem history_holds {steps : List (State × Env × Call)} (history : History m s e steps)
    (sound : ∀ step ∈ steps, Sound step.1 step.2.1 step.2.2) : Holds s e := by
  induction history with
  | start fresh => exact start_holds fresh
  | call _ legal done ih =>
    have before := ih (fun step member => sound step (List.mem_cons_of_mem _ member))
    obtain ⟨s₁,done₁,after⟩ := call_holds before legal (sound _ (List.mem_cons_self ..))
    cases done.symm.trans done₁
    exact after

theorem Holds.right (holds : Holds s e) : Right s e := by
  intro x t has
  obtain ⟨b,here,there,clean,small⟩ := holds.text has
  exact ⟨_,b,here,rfl,there,clean,by simp,length_of_text small _⟩

/-- In every history of sound calls every object holds its text, and the next sound call returns,
    so that none of its copies leaves a buffer. -/
theorem history_right {steps : List (State × Env × Call)} (history : History m s e steps)
    (sound : ∀ step ∈ steps, Sound step.1 step.2.1 step.2.2) : Right s e ∧
      ∀ call, Legal s call → Sound s e call → ∃ s', call.exec s = some s' := by
  have holds := history_holds history sound
  refine ⟨holds.right,?_⟩
  intro call legal sound
  obtain ⟨s',done,_⟩ := call_holds holds legal sound
  exact ⟨s',done⟩

/-- A memory with the C string "hi". -/
def greeting : Memory := ⟨fun b => if b = 0 then some [0x68,0x69,0] else none,1⟩

theorem greeting_fresh : greeting.Fresh := fun b large => if_neg (by have one : 1 ≤ b := large; omega)

theorem history_right_hihi : ∃ s e steps, History greeting s e steps ∧ Right s e ∧
    e 1 = some (.text [0x68,0x69,0x68,0x69]) := by
  have legal : Legal ⟨greeting,fun _ => none⟩ (.ofCString 0 (some ⟨0,0⟩)) := ⟨rfl,⟨0,0⟩,_,rfl,rfl,by simp⟩
  have text : textAt greeting (some ⟨0,0⟩) = [0x68,0x69] := by decide
  have sound : Sound ⟨greeting,fun _ => none⟩ (fun _ => none) (.ofCString 0 (some ⟨0,0⟩)) := by
    change (textAt greeting (some ⟨0,0⟩)).length + 1 ≤ largest
    rw [text]
    decide
  obtain ⟨s₁,done₁,holds₁⟩ := call_holds (start_holds greeting_fresh) legal sound
  have history₁ := (History.start greeting_fresh).call legal done₁
  have has : (Call.ofCString 0 (some ⟨0,0⟩)).meaning ⟨greeting,fun _ => none⟩ (fun _ => none) 0 = some (.text [0x68,0x69]) := by
    rw [Call.meaning,Function.update_self,text]
  have new : s₁.objects 1 = none := by
    have stands := holds₁.stands 1
    rw [Call.meaning,Function.update_of_ne (by decide)] at stands
    exact stands
  generalize (Call.ofCString 0 (some ⟨0,0⟩)).meaning ⟨greeting,fun _ => none⟩ (fun _ => none) = e₁ at *
  have alive : s₁.objects 0 ≠ none := by
    obtain ⟨_,here,_⟩ := holds₁.text has
    rw [here]
    exact Option.some_ne_none _
  have legal₁ : Legal s₁ (.append 1 0 0) := ⟨new,alive,alive⟩
  have sound₁ : Sound s₁ e₁ (.append 1 0 0) := ⟨⟨_,has⟩,⟨_,has⟩,by rw [text_of_has has]; decide⟩
  obtain ⟨s₂,done₂,_⟩ := call_holds holds₁ legal₁ sound₁
  have history := history₁.call legal₁ done₂
  have sounds : ∀ step ∈ [(s₁,e₁,Call.append 1 0 0),(⟨greeting,fun _ => none⟩,fun _ => none,Call.ofCString 0 (some ⟨0,0⟩))],
      Sound step.1 step.2.1 step.2.2 := by
    intro step member
    rcases List.mem_cons.mp member with rfl | member
    · exact sound₁
    · rw [List.mem_singleton.mp member]
      exact sound
  refine ⟨s₂,_,_,history,(history_right history sounds).1,?_⟩
  rw [Call.meaning,Function.update_self,text_of_has has]
  rfl

/-- Nothing is copied from a null pointer. -/
theorem memcpy_null (m : Memory) (dest : Pointer) (nonzero : n ≠ 0) : memcpy m dest none n = none := by
  rw [memcpy,if_neg nonzero]
  cases dest <;> rfl

/-- The default constructor makes an object without a buffer, and appending to it copies
    2^64 - 1 bytes from a null pointer. -/
theorem empty_not_right : ∃ s e steps, History greeting s e steps ∧ ¬ Right s e ∧
    Legal s (.append 1 0 0) ∧ (Call.append 1 0 0).exec s = none := by
  obtain ⟨s₁,s₁Is⟩ : ∃ s, s = (⟨greeting,fun _ => none⟩ : State).setObject 0 .empty := ⟨_,rfl⟩
  have here : s₁.objects 0 = some .empty := by simp only [s₁Is,State.setObject,Function.update_self]
  have new : s₁.objects 1 = none := by rw [s₁Is]; rfl
  have legal : Legal ⟨greeting,fun _ => none⟩ (.construct 0) := rfl
  have done : (Call.construct 0).exec ⟨greeting,fun _ => none⟩ = some s₁ := by rw [s₁Is]; rfl
  have alive : s₁.objects 0 ≠ none := by rw [here]; exact Option.some_ne_none _
  refine ⟨s₁,_,_,(History.start greeting_fresh).call legal done,?_,⟨new,alive,alive⟩,?_⟩
  · intro right
    obtain ⟨object,b,object_eq,buffer,_⟩ := right 0 [] (by rw [Call.meaning]; exact Function.update_self ..)
    cases here.symm.trans object_eq
    cases buffer
  · have length : string.empty.GetLength ≠ 0 := by
      change sub 0 1 ≠ 0
      simp only [sub]
      decide
    simp only [Call.exec,here,string.append,string.join,Option.bind_eq_bind,Option.bind_some]
    rw [show string.empty.mBuffer = none from rfl,memcpy_null _ _ length]
    rfl

end WaifuOS.Strings
