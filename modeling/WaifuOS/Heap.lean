import WaifuOS.AsmUtils
import WaifuOS.PageTables

/-!
The heap of `Memory.cpp`. Segments are headers in memory, linked both ways, each
followed by its payload. The memory is the bytes at the virtual addresses that
the heap code reads and writes; the heap pages are mapped to page frames, and a
page that is cleared is cleared in its frame too. `granted` records which frame
`RequestPage` handed out for which heap page, and nothing reads it. Loops through
the segments take fuel, and a spin lock that is taken has no result.
-/
namespace WaifuOS
open WaifuOS.Words WaifuOS.Bytes

/-- `sizeof(SegmentHeader)`. -/
def headerSize : Nat := 32

/-- `earlyMallocSize`, the number of pointers in the array `earlyMallocBase`. -/
def earlyMallocSize : Nat := 0x4000

/-- The globals of `Memory.cpp`, the memory, and the page tables. -/
structure Kernel where
  memory : Mem
  paging : PageTables
  heapBase : Nat
  heapEnd : Nat
  LastSegment : Nat
  HeapInitialized : Bool
  memoryLock : Bool
  earlyMallocBase : Nat
  earlyMallocInit : Bool
  baseOffset : Nat
  granted : List (Nat × Nat)

namespace Kernel

def Length (s : Kernel) (seg : Nat) : Nat := load s.memory seg 8
def Next (s : Kernel) (seg : Nat) : Nat := load s.memory (seg+8) 8
def Previous (s : Kernel) (seg : Nat) : Nat := load s.memory (seg+16) 8
def Free (s : Kernel) (seg : Nat) : Bool := s.memory (seg+24) != 0#8

def setLength (s : Kernel) (seg value : Nat) : Kernel := { s with memory := store s.memory seg 8 value }
def setNext (s : Kernel) (seg value : Nat) : Kernel := { s with memory := store s.memory (seg+8) 8 value }
def setPrevious (s : Kernel) (seg value : Nat) : Kernel := { s with memory := store s.memory (seg+16) 8 value }
def setFree (s : Kernel) (seg : Nat) (value : Bool) : Kernel :=
  { s with memory := store s.memory (seg+24) 1 value.toNat }

def CombineForward (s : Kernel) (this : Nat) : Kernel :=
  if s.Next this = 0 then s
  else if !s.Free (s.Next this) then s
  else
    let s := s.setLength this (wrap (s.Length this + wrap (s.Length (s.Next this) + headerSize)))
    let s := if s.Next this = s.LastSegment then { s with LastSegment := this } else s
    let s := if s.Next (s.Next this) ≠ 0 then s.setPrevious (s.Next (s.Next this)) this else s
    s.setNext this (s.Next (s.Next this))

def CombineBackward (s : Kernel) (this : Nat) : Kernel :=
  if s.Previous this ≠ 0 ∧ s.Free (s.Previous this) = true then s.CombineForward (s.Previous this) else s

/-- `Split`: the new header, or `nullptr`, and the state after it. -/
def Split (s : Kernel) (this splitLength : Nat) : Nat × Kernel :=
  if splitLength < 0x10 then (0,s)
  else
    let newLength := sub (sub (s.Length this) splitLength) headerSize
    if signed newLength < 0x10 then (0,s)
    else
      let newHeader := wrap (this + splitLength + headerSize)
      let s := if s.Next this ≠ 0 then s.setPrevious (s.Next this) newHeader else s
      let s := s.setNext newHeader (s.Next this)
      let s := s.setNext this newHeader
      let s := s.setPrevious newHeader this
      let s := s.setLength newHeader newLength
      let s := s.setFree newHeader (s.Free this)
      let s := s.setLength this splitLength
      let s := if s.LastSegment = this then { s with LastSegment := newHeader } else s
      (newHeader,s)

/-- `MapMemory(address, RequestPage())`, then `memset64(address, 0x00, PAGE_SIZE)`,
    which reaches the page that the address is mapped to by then. -/
def mapPage (s : Kernel) (address : Nat) : Kernel :=
  let granted := match s.paging.frames.requestFrame.1 with
    | some i => (address,i * PAGE_SIZE) :: s.granted
    | none => s.granted
  let (page,paging) := s.paging.RequestPage
  let paging := paging.MapMemory address page
  let paging := match paging.translate address with
    | some page => paging.blank page
    | none => paging
  { s with memory := memset64 s.memory address 0x00 PAGE_SIZE, paging, granted }

/-- The loop of `InitializeHeap`. -/
def mapPages (s : Kernel) (temp : Nat) : Nat → Kernel
  | 0 => s
  | n+1 => mapPages (s.mapPage temp) (wrap (temp + PAGE_SIZE)) n

/-- The loop of `ExpandHeap`. -/
def growHeap (s : Kernel) : Nat → Kernel
  | 0 => s
  | n+1 =>
    let s := s.mapPage s.heapEnd
    growHeap { s with heapEnd := wrap (s.heapEnd + PAGE_SIZE) } n

/-- `ExpandHeap`; it halts before the heap is initialized. -/
def ExpandHeap (s : Kernel) (length : Nat) : Option Kernel :=
  if !s.HeapInitialized then none
  else
    let length := if length % PAGE_SIZE ≠ 0 then wrap (length - length % PAGE_SIZE + PAGE_SIZE) else length
    let newSegment := s.heapEnd
    let pageCount := length / PAGE_SIZE
    let s := s.growHeap pageCount
    let s := s.setFree newSegment true
    let s := s.setPrevious newSegment s.LastSegment
    let s := s.setNext s.LastSegment newSegment
    let s := { s with LastSegment := newSegment }
    let s := s.setNext newSegment 0
    let s := s.setLength newSegment (sub length headerSize)
    some (s.CombineBackward newSegment)

/-- The rounding of a size to the next multiple of 16. -/
def roundSize (size : Nat) : Nat :=
  let size := sub size (if size &&& 0b1111 ≠ 0 then size &&& 0b1111 else 0x10)
  wrap (size + 0x10)

def earlyMalloc (s : Kernel) (size : Nat) : Nat × Kernel :=
  let s := if !s.earlyMallocInit then
    { s with memory := memset64 s.memory s.earlyMallocBase 0x00 earlyMallocSize, earlyMallocInit := true } else s
  let size := roundSize size
  if size = 0 then (0,s)
  else (wrap (s.earlyMallocBase + 8 * s.baseOffset),{ s with baseOffset := wrap (s.baseOffset + size) })

/-- `memoryLock.Aquire()`. Nobody else runs, so a lock that is taken stays taken. -/
def Aquire (s : Kernel) : Option Kernel := if s.memoryLock then none else some { s with memoryLock := true }

/-- `memoryLock.Free()`. -/
def Release (s : Kernel) : Kernel := { s with memoryLock := false }

/-- The loop of `malloc` from a segment on: the payload it takes, if it finds one. -/
def search : Nat → Kernel → Nat → Nat → Option (Option Nat × Kernel)
  | 0, _, _, _ => none
  | fuel+1, s, seg, size =>
    if s.Free seg = true ∧ s.Length seg > size then
      some (some (wrap (seg + headerSize)),((s.Split seg size).2.setFree seg false).Release)
    else if s.Free seg = true ∧ s.Length seg = size then
      some (some (wrap (seg + headerSize)),(s.setFree seg false).Release)
    else if s.Next seg = 0 then some (none,s)
    else search fuel s (s.Next seg) size

def malloc : Nat → Kernel → Nat → Option (Nat × Kernel)
  | 0, _, _ => none
  | fuel+1, s, size =>
    if !s.HeapInitialized then some (s.earlyMalloc size)
    else
      let size := roundSize size
      if size = 0 then some (0,s)
      else do
        let s ← s.Aquire
        match ← s.search fuel s.heapBase size with
        | (some payload,s) => some (payload,s)
        | (none,s) =>
          let s ← s.ExpandHeap size
          malloc fuel s.Release size

def calloc (fuel : Nat) (s : Kernel) (size : Nat) : Option (Nat × Kernel) := do
  let size := roundSize size
  let (ptr,s) ← s.malloc fuel size
  if ptr ≠ 0 then some (ptr,{ s with memory := memset64 s.memory ptr 0x00 size }) else some (ptr,s)

def free (s : Kernel) (address : Nat) : Option Kernel :=
  if address = 0 then some s
  else if !s.HeapInitialized then some s
  else if s.earlyMallocBase ≤ address ∧ address < s.earlyMallocBase + 8 * earlyMallocSize then some s
  else do
    let s ← s.Aquire
    let seg := sub address headerSize
    let s := { s with memory := memset64 s.memory address 0x33 (s.Length seg) }
    let s := s.setFree seg true
    let s := s.CombineForward seg
    let s := s.CombineBackward seg
    some s.Release

def InitializeHeap (fuel : Nat) (s : Kernel) (heapStart pages : Nat) : Option Kernel :=
  if s.HeapInitialized then some s
  else do
    let s := { s with heapBase := heapStart }
    let s := s.mapPages heapStart pages
    let heapLength := wrap (pages * PAGE_SIZE)
    let s := { s with heapEnd := wrap (heapStart + heapLength) }
    let header := heapStart
    let s := s.setLength header (sub heapLength headerSize)
    let s := s.setNext header 0
    let s := s.setPrevious header 0
    let s := s.setFree header true
    let s := { s with LastSegment := header, HeapInitialized := true }
    -- The first allocation is leaked, so that the heap is never one free segment.
    let (_,s) ← s.malloc fuel 0x10
    some s

end Kernel
end WaifuOS
