import WaifuOS.Blocks
import WaifuOS.HeapCalls

/-!
The class `string` (`string.cpp`, `string.h`). Memory is a store of blocks of bytes, so that
a copy that leaves a buffer has no result, and neither has a read of a buffer that was
freed. `calloc` returns a new cleared block, or null where the rounding of the size wraps
to nothing. The objects that are alive have numbers, and each of them holds a pointer and
a size.
-/
namespace WaifuOS.Strings
open WaifuOS.Words WaifuOS.Blocks

abbrev Byte := BitVec 8
abbrev Memory := Store Byte

/-- A `char*`: null, or a place in a block. -/
abbrev Pointer := Option Place

structure string where
  mBuffer : Pointer
  mBufferSize : Nat
deriving DecidableEq

def calloc (m : Memory) (size : Nat) : Pointer × Memory :=
  if Kernel.roundSize size = 0 then (none,m) else (some ⟨m.next,0⟩,m.alloc (List.replicate size 0))

/-- `free`; only what starts a block can be freed. -/
def free (m : Memory) (p : Place) : Option Memory := m.release p

/-- `memcpy`, which touches nothing when there is nothing to copy. -/
def memcpy (m : Memory) (dest src : Pointer) (n : Nat) : Option Memory :=
  if n = 0 then some m
  else do
    let dest ← dest
    let src ← src
    m.copy dest src n

/-- The loop of `strlen`. It loads four bytes and looks at the lowest. -/
def strlenLoop : List Byte → Nat → Option Nat
  | [], _ => none
  | dl :: rest, rax => if dl = 0 then some rax else strlenLoop rest (rax+1)

def strlen (m : Memory) (str : Pointer) : Option Nat := do
  let p ← str
  let cells ← m.cells p.block
  strlenLoop (cells.drop p.offset) 0

/-- `pointer + n`. -/
def advance (p : Pointer) (n : Nat) : Pointer := p.map (fun p => { p with offset := p.offset + n })

namespace string

/-- `string()`. -/
def empty : string := ⟨none,0⟩

/-- The number of characters. -/
def GetLength (this : string) : Nat := sub this.mBufferSize 1

/-- A new buffer with the first `size` bytes from a pointer. -/
def duplicate (m : Memory) (source : Pointer) (size : Nat) : Option (string × Memory) := do
  let (mBuffer,m) := calloc m size
  let m ← memcpy m mBuffer source size
  some (⟨mBuffer,size⟩,m)

/-- `string(uint64 length)`. -/
def ofLength (m : Memory) (length : Nat) : string × Memory :=
  let length := wrap (length + 1)
  let (mBuffer,m) := calloc m length
  (⟨mBuffer,length⟩,m)

/-- `string(const string& value)`. -/
def ofString (m : Memory) (value : string) : Option (string × Memory) := duplicate m value.mBuffer value.mBufferSize

/-- `string(const char* str)`. -/
def ofCString (m : Memory) (str : Pointer) : Option (string × Memory) := do
  let length ← strlen m str
  duplicate m str (wrap (length + 1))

/-- `string(const char* str, nint length)`. -/
def ofCStringLength (m : Memory) (str : Pointer) (length : Nat) : Option (string × Memory) := do
  let (this,m) ← duplicate m str (wrap (length + 1))
  let p ← advance this.mBuffer length
  let m ← m.write p [0]
  some (this,m)

/-- A new buffer of some size with `m` bytes from one pointer and `n` bytes from another behind them. -/
def join (memory : Memory) (newBufferSize : Nat) (first : Pointer) (m : Nat) (second : Pointer) (n : Nat) :
    Option (string × Memory) := do
  let (newbuffer,memory) := calloc memory newBufferSize
  let memory ← memcpy memory newbuffer first m
  let memory ← memcpy memory (advance newbuffer m) second n
  some (⟨newbuffer,newBufferSize⟩,memory)

/-- `append(const string&)`; `append(const string&&)` destroys its argument after it. -/
def append (memory : Memory) (this rvalue : string) : Option (string × Memory) :=
  join memory (wrap (this.GetLength + rvalue.mBufferSize)) this.mBuffer this.GetLength rvalue.mBuffer rvalue.mBufferSize

/-- `append(const char*)`. -/
def appendCString (memory : Memory) (this : string) (rvalue : Pointer) : Option (string × Memory) := do
  let rvalLength ← strlen memory rvalue
  join memory (wrap (this.mBufferSize + rvalLength)) this.mBuffer this.GetLength rvalue (wrap (rvalLength + 1))

/-- `prepend(const char*)`. -/
def prepend (memory : Memory) (this : string) (lvalue : Pointer) : Option (string × Memory) := do
  let lvalLength ← strlen memory lvalue
  join memory (wrap (this.mBufferSize + lvalLength)) lvalue lvalLength this.mBuffer this.mBufferSize

end string

structure State where
  memory : Memory
  objects : Nat → Option string

/-- Calls with the objects they construct first. `operator+` is `append`, or `prepend` with a
    C string on the left. -/
inductive Call
  | construct (x : Nat)
  | ofLength (x length : Nat)
  | ofString (x y : Nat)
  | ofCString (x : Nat) (str : Pointer)
  | ofCStringLength (x : Nat) (str : Pointer) (length : Nat)
  | destroy (x : Nat)
  | append (z x y : Nat)
  | appendMove (z x y : Nat)
  | appendCString (z x : Nat) (str : Pointer)
  | prepend (z x : Nat) (str : Pointer)
  | assign (x y : Nat)
  | assignMove (x y : Nat)
  | assignCString (x : Nat) (str : Pointer)

namespace State

def setObject (s : State) (x : Nat) (value : string) : State := { s with objects := Function.update s.objects x (some value) }

/-- The object is where a constructor or a concatenation has put its result. -/
def result (s : State) (x : Nat) (made : string × Memory) : State :=
  { memory := made.2, objects := Function.update s.objects x (some made.1) }

/-- `~string()`. -/
def destructor (s : State) (x : Nat) : Option State := do
  let this ← s.objects x
  match this.mBuffer with
  | none => some (s.setObject x .empty)
  | some p =>
    let memory ← free s.memory p
    some ({ s with memory }.setObject x .empty)

end State

/-- What a call does; the name of a dead object has no result. -/
def Call.exec (s : State) : Call → Option State
  | .construct x => some (s.setObject x .empty)
  | .ofLength x length => some (s.result x (string.ofLength s.memory length))
  | .ofString x y => do
    let value ← s.objects y
    let made ← string.ofString s.memory value
    some (s.result x made)
  | .ofCString x str => do
    let made ← string.ofCString s.memory str
    some (s.result x made)
  | .ofCStringLength x str length => do
    let made ← string.ofCStringLength s.memory str length
    some (s.result x made)
  | .destroy x => do
    let s ← s.destructor x
    some { s with objects := Function.update s.objects x none }
  | .append z x y => do
    let this ← s.objects x
    let rvalue ← s.objects y
    let made ← this.append s.memory rvalue
    some (s.result z made)
  | .appendMove z x y => do
    let this ← s.objects x
    let rvalue ← s.objects y
    let made ← this.append s.memory rvalue
    let s ← { s with memory := made.2 }.destructor y
    some (s.setObject z made.1)
  | .appendCString z x str => do
    let this ← s.objects x
    let made ← this.appendCString s.memory str
    some (s.result z made)
  | .prepend z x str => do
    let this ← s.objects x
    let made ← this.prepend s.memory str
    some (s.result z made)
  | .assign x y =>
    if y = x then some s
    else do
      let s ← s.destructor x
      let value ← s.objects y
      let made ← string.duplicate s.memory value.mBuffer value.mBufferSize
      some (s.result x made)
  | .assignMove x y =>
    if y = x then some s
    else do
      let s ← s.destructor x
      let value ← s.objects y
      some ((s.setObject x value).setObject y .empty)
  | .assignCString x str => do
    let this ← s.objects x
    if str = this.mBuffer then some s
    else do
      let s ← s.destructor x
      let length ← strlen s.memory str
      let made ← string.duplicate s.memory str (wrap (length + 1))
      some (s.result x made)

end WaifuOS.Strings
