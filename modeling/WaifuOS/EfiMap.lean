import WaifuOS.PageFrames
import WaifuOS.Bytes

/-!
How `ReadEfiMemoryMap` sets the allocator up from the memory map of the firmware.
The bitmap gets one bit for each page that the map describes, rounded up past
the next byte, and stands at the start of the largest usable descriptor. Four
passes fill it; `readEfiMemoryMap_bit` says which frames they leave marked.
Compared with the map that is exact but for the bits past the last described
page and for the length of the lock on the bitmap itself (`Exact`,
`readEfiMemoryMap_describes_iff`); whether the bitmap fits where it stands is
`readEfiMemoryMap_fits_iff`.
-/
namespace WaifuOS
open WaifuOS.Words WaifuOS.Bytes

/-- An entry of the memory map: the fields that the kernel reads. -/
structure EfiMemoryDescriptor where
  type : Nat
  physAddr : Nat
  nPages : Nat
deriving DecidableEq

/-- `Memory::CalculateMemorySize`. -/
def CalculateMemorySize (map : List EfiMemoryDescriptor) : Nat :=
  map.foldl (fun memorySize desc => wrap (memorySize + desc.nPages * PAGE_SIZE)) 0

namespace PageFrameAllocator

def UseableMemory : Nat := 0x07

theorem calculateMemorySize_lt (map : List EfiMemoryDescriptor) : CalculateMemorySize map < 2^64 := by
  simp only [CalculateMemorySize]
  rcases List.eq_nil_or_concat map with rfl | ⟨init,desc,rfl⟩
  · simp
  · rw [List.concat_eq_append,List.foldl_append]; exact wrap_lt _

/-- The number of pages that the map describes. -/
def describedPages (map : List EfiMemoryDescriptor) : Nat := CalculateMemorySize map / PAGE_SIZE

/-- The size of the bitmap for a map. -/
def bmpSize (map : List EfiMemoryDescriptor) : Nat := CalculateMemorySize map / PAGE_SIZE / 8 + 1

theorem describedPages_lt (map : List EfiMemoryDescriptor) : describedPages map < 2^52 := by
  have := calculateMemorySize_lt map
  simp only [describedPages,PAGE_SIZE]
  omega

theorem bmpSize_le (map : List EfiMemoryDescriptor) : bmpSize map ≤ 2^49 := by
  have := describedPages_lt map
  simp only [describedPages] at this
  simp only [bmpSize]
  omega

/-- The address and the page count of the first of the largest usable descriptors. -/
def largestRegion (map : List EfiMemoryDescriptor) : Nat × Nat :=
  map.foldl (fun largest desc =>
    if desc.type = UseableMemory ∧ desc.nPages > largest.2 then (desc.physAddr,desc.nPages) else largest) (0,0)

/-- `InitBitmap`, over the memory where the bitmap is to stand. -/
def InitBitmap (s : PageFrameAllocator) (memory : Mem) (size buffer : Nat) (fits : size ≤ 2^49) : PageFrameAllocator :=
  { s with PageBitmap := ⟨size,buffer,fill (fun i => memory (wrap (buffer + i))) 0 size (fun _ => 0#8)⟩, sized := fits }

/-- `ReadEfiMemoryMap`, over the memory at boot. -/
def ReadEfiMemoryMap (s : PageFrameAllocator) (memory : Mem) (map : List EfiMemoryDescriptor) : PageFrameAllocator :=
  if s.Initialized then s
  else
    let s := { s with Initialized := true }
    let largestRegionAddress := (largestRegion map).1
    let memorySize := CalculateMemorySize map
    let s := { s with FreeMemory := memorySize }
    -- Init bitmap
    let s := s.InitBitmap memory (bmpSize map) largestRegionAddress (bmpSize_le map)
    -- Reserve all memory
    let s := s.ReservePages 0 (memorySize / PAGE_SIZE)
    let s := map.foldl (fun s desc =>
      if desc.type = UseableMemory then s.UnreservePages desc.physAddr desc.nPages else s) s
    -- Reserve between 0x00 and 0x100000
    let s := s.ReservePages 0 0x100
    -- Lock bitmap
    s.LockPages s.PageBitmap.Base (s.PageBitmap.SizeBytes / PAGE_SIZE + 1)

/-- The globals before `ReadEfiMemoryMap`: zero, as the loader leaves them. -/
def boot : PageFrameAllocator where
  PageBitmap := ⟨0,0,fun _ => 0#8⟩
  Initialized := false
  FreeMemory := 0
  AllocatedMemory := 0
  ReservedMemory := 0
  LastPageIndex := 0
  sized := by decide

/-- The allocator before the first pass, when the bitmap is set up. -/
def withBitmap (s : PageFrameAllocator) (memory : Mem) (map : List EfiMemoryDescriptor) : PageFrameAllocator :=
  InitBitmap { s with Initialized := true, FreeMemory := CalculateMemorySize map } memory (bmpSize map)
    (largestRegion map).1 (bmpSize_le map)

/-- After the pass that reserves all described pages. -/
def withAllReserved (s : PageFrameAllocator) (memory : Mem) (map : List EfiMemoryDescriptor) : PageFrameAllocator :=
  (s.withBitmap memory map).ReservePages 0 (CalculateMemorySize map / PAGE_SIZE)

/-- After the pass that gives the usable pages back. -/
def withUseable (s : PageFrameAllocator) (memory : Mem) (map : List EfiMemoryDescriptor) : PageFrameAllocator :=
  map.foldl (fun s desc =>
    if desc.type = UseableMemory then s.UnreservePages desc.physAddr desc.nPages else s) (s.withAllReserved memory map)

/-- After the pass that reserves the first megabyte. -/
def withLowReserved (s : PageFrameAllocator) (memory : Mem) (map : List EfiMemoryDescriptor) : PageFrameAllocator :=
  (s.withUseable memory map).ReservePages 0 0x100

variable {map : List EfiMemoryDescriptor} {memory : Mem} {i : Nat}

/-- Frame `i` is one of the pages of a usable descriptor. -/
def Useable (map : List EfiMemoryDescriptor) (i : Nat) : Prop :=
  ∃ desc ∈ map, desc.type = UseableMemory ∧ Covers desc.physAddr desc.nPages i

/-- The pages of a descriptor inside the address space are a row of frames. -/
theorem covers_iff {address count : Nat} (aligned : PAGE_SIZE ∣ address)
    (bounded : address + count * PAGE_SIZE ≤ 2^64) :
    Covers address count i ↔ address / PAGE_SIZE ≤ i ∧ i < address / PAGE_SIZE + count := by
  simp only [PAGE_SIZE] at *
  have page : ∀ x < count, wrap (address + x * 0x1000) / 0x1000 = address / 0x1000 + x := by
    intro x bound
    rw [wrap_of_lt (by omega)]
    omega
  constructor
  · rintro ⟨x,bound,rfl⟩
    simp only [pageAt,PAGE_SIZE]
    rw [page x bound]
    omega
  · rintro ⟨low,high⟩
    refine ⟨i - address / 0x1000,by omega,?_⟩
    simp only [pageAt,PAGE_SIZE]
    rw [page _ (by omega)]
    omega

theorem covers_zero {count : Nat} (bounded : count ≤ 2^52) : Covers 0 count i ↔ i < count := by
  rw [covers_iff (by simp) (by unfold PAGE_SIZE; omega)]
  simp

private theorem unreserved_bit (s : PageFrameAllocator) (inside : i ≤ s.limit) :
    (map.foldl (fun s desc =>
      if desc.type = UseableMemory then s.UnreservePages desc.physAddr desc.nPages else s) s).used i = true ↔
      s.used i = true ∧ ¬ Useable map i := by
  induction map generalizing s with
  | nil => simp [Useable]
  | cons desc map ih =>
    rw [List.foldl_cons]
    have either : Useable (desc :: map) i ↔
        (desc.type = UseableMemory ∧ Covers desc.physAddr desc.nPages i) ∨ Useable map i := by
      simp [Useable]
    by_cases usable : desc.type = UseableMemory
    · rw [if_pos usable,ih _ (by simp only [UnreservePages,UnreservePage,clearPages_limit]; exact inside)]
      rw [UnreservePages,UnreservePage,clearPages_bit,either]
      tauto
    · rw [if_neg usable,ih s inside,either]
      tauto

/-- What unreserving pages keeps is kept for a whole map. -/
theorem unreserved_keeps {P : PageFrameAllocator → Prop} (keeps : ∀ s address count, P s → P (s.UnreservePages address count))
    {s : PageFrameAllocator} (holds : P s) : P (map.foldl (fun s desc =>
      if desc.type = UseableMemory then s.UnreservePages desc.physAddr desc.nPages else s) s) := by
  apply List.foldlRecOn (motive := P) map _ holds
  intro s holds desc _
  split
  · exact keeps s _ _ holds
  · exact holds

private theorem unreserved_SizeBytes (s : PageFrameAllocator) :
    (map.foldl (fun s desc =>
      if desc.type = UseableMemory then s.UnreservePages desc.physAddr desc.nPages else s) s).PageBitmap.SizeBytes =
      s.PageBitmap.SizeBytes :=
  unreserved_keeps (P := fun s' => s'.PageBitmap.SizeBytes = s.PageBitmap.SizeBytes)
    (fun s' address count holds => by simpa [UnreservePages,UnreservePage] using holds) rfl

private theorem unreserved_Base (s : PageFrameAllocator) :
    (map.foldl (fun s desc =>
      if desc.type = UseableMemory then s.UnreservePages desc.physAddr desc.nPages else s) s).PageBitmap.Base =
      s.PageBitmap.Base :=
  unreserved_keeps (P := fun s' => s'.PageBitmap.Base = s.PageBitmap.Base)
    (fun s' address count holds => by simpa [UnreservePages,UnreservePage] using holds) rfl

private theorem unreserved_LastPageIndex (s : PageFrameAllocator) (start : s.LastPageIndex = 0) :
    (map.foldl (fun s desc =>
      if desc.type = UseableMemory then s.UnreservePages desc.physAddr desc.nPages else s) s).LastPageIndex = 0 := by
  refine unreserved_keeps (P := fun s' => s'.LastPageIndex = 0) ?_ start
  intro s' address count start
  induction count with
  | zero => exact start
  | succ count ih =>
    simp only [UnreservePages] at ih
    rw [UnreservePages,forPages,UnreservePage,clearPage_LastPageIndex]
    simp only [UnreservePage] at ih
    split
    · rw [ih]; simp
    · exact ih

theorem initBitmap_bit {s : PageFrameAllocator} {size buffer : Nat} {fits : size ≤ 2^49} (inside : i < size * 8) :
    (s.InitBitmap memory size buffer fits).used i = false := by
  have byte : i / 8 < size := by omega
  simp only [used,BitMap.bit,InitBitmap,fill_at (Nat.zero_le _) (show i / 8 < 0 + size by omega)]
  simp

/-- The bit behind the bitmap is what the memory there holds. -/
theorem initBitmap_behind {s : PageFrameAllocator} {size buffer : Nat} {fits : size ≤ 2^49} :
    (s.InitBitmap memory size buffer fits).used (size * 8) = (memory (wrap (buffer + size))).getLsbD 7 := by
  have byte : size * 8 / 8 = size := Nat.mul_div_cancel size (by decide)
  simp only [used,BitMap.bit,InitBitmap,byte,Nat.mul_mod_left,fill_apart (.inr (show 0 + size ≤ size by omega)),Nat.sub_zero]

variable {s : PageFrameAllocator}

@[simp] theorem withBitmap_SizeBytes : (s.withBitmap memory map).PageBitmap.SizeBytes = bmpSize map := rfl
@[simp] theorem withBitmap_Base : (s.withBitmap memory map).PageBitmap.Base = (largestRegion map).1 := rfl

@[simp] theorem withLowReserved_SizeBytes : (s.withLowReserved memory map).PageBitmap.SizeBytes = bmpSize map := by
  simp [withLowReserved,withUseable,withAllReserved,ReservePages,ReservePage,unreserved_SizeBytes]

@[simp] theorem withLowReserved_Base : (s.withLowReserved memory map).PageBitmap.Base = (largestRegion map).1 := by
  simp [withLowReserved,withUseable,withAllReserved,ReservePages,ReservePage,unreserved_Base]

/-- The last pass locks the bitmap. -/
theorem readEfiMemoryMap_eq (memory : Mem) (map : List EfiMemoryDescriptor) (fresh : s.Initialized = false) : s.ReadEfiMemoryMap memory map =
    (s.withLowReserved memory map).LockPages (largestRegion map).1 (bmpSize map / PAGE_SIZE + 1) := by
  have whole : s.ReadEfiMemoryMap memory map = (s.withLowReserved memory map).LockPages
      (s.withLowReserved memory map).PageBitmap.Base ((s.withLowReserved memory map).PageBitmap.SizeBytes / PAGE_SIZE + 1) := by
    simp only [ReadEfiMemoryMap,fresh,Bool.false_eq_true,↓reduceIte]
    rfl
  rw [whole,withLowReserved_SizeBytes,withLowReserved_Base]

theorem readEfiMemoryMap_SizeBytes (fresh : s.Initialized = false) :
    (s.ReadEfiMemoryMap memory map).PageBitmap.SizeBytes = bmpSize map := by
  rw [readEfiMemoryMap_eq memory map fresh,LockPages,LockPage,setPages_SizeBytes,withLowReserved_SizeBytes]

theorem readEfiMemoryMap_Base (fresh : s.Initialized = false) :
    (s.ReadEfiMemoryMap memory map).PageBitmap.Base = (largestRegion map).1 := by
  rw [readEfiMemoryMap_eq memory map fresh,LockPages,LockPage,setPages_Base,withLowReserved_Base]

theorem readEfiMemoryMap_limit (fresh : s.Initialized = false) :
    (s.ReadEfiMemoryMap memory map).limit = 8 * (describedPages map / 8 + 1) := by
  rw [limit_eq,readEfiMemoryMap_SizeBytes fresh,bmpSize,describedPages,Nat.mul_comm]

/-- The search starts at frame 0. -/
theorem readEfiMemoryMap_LastPageIndex (fresh : s.Initialized = false) (start : s.LastPageIndex = 0) :
    (s.ReadEfiMemoryMap memory map).LastPageIndex = 0 := by
  rw [readEfiMemoryMap_eq memory map fresh,LockPages,LockPage,setPages_LastPageIndex,withLowReserved,ReservePages,ReservePage,
    setPages_LastPageIndex]
  apply unreserved_LastPageIndex
  rw [withAllReserved,ReservePages,ReservePage,setPages_LastPageIndex]
  exact start

/-- The frames that the lock on the bitmap marks. -/
def Locked (map : List EfiMemoryDescriptor) (i : Nat) : Prop :=
  Covers (largestRegion map).1 (bmpSize map / PAGE_SIZE + 1) i

theorem withAllReserved_bit (whole : i ≤ bmpSize map * 8) : (s.withAllReserved memory map).used i = true ↔
    (s.withBitmap memory map).used i = true ∨ i < describedPages map := by
  have described := describedPages_lt map
  have bound : i ≤ (s.withBitmap memory map).limit := by rwa [limit_eq]
  rw [withAllReserved,ReservePages,ReservePage,setPages_bit,
    show CalculateMemorySize map / PAGE_SIZE = describedPages map from rfl,covers_zero (by omega)]
  simp [bound]

theorem withAllReserved_limit : (s.withAllReserved memory map).limit = bmpSize map * 8 := by
  rw [withAllReserved,ReservePages,ReservePage,setPages_limit,limit_eq]
  rfl

theorem withUseable_bit (whole : i ≤ bmpSize map * 8) : (s.withUseable memory map).used i = true ↔
    ((s.withBitmap memory map).used i = true ∨ i < describedPages map) ∧ ¬ Useable map i := by
  rw [withUseable,unreserved_bit _ (by rw [withAllReserved_limit]; exact whole),withAllReserved_bit whole]

theorem withUseable_limit : (s.withUseable memory map).limit = bmpSize map * 8 := by
  rw [limit_eq,withUseable,unreserved_SizeBytes,← limit_eq,withAllReserved_limit]

theorem withLowReserved_limit : (s.withLowReserved memory map).limit = bmpSize map * 8 := by
  rw [limit_eq,withLowReserved_SizeBytes]

theorem withLowReserved_bit (whole : i ≤ bmpSize map * 8) : (s.withLowReserved memory map).used i = true ↔
    (((s.withBitmap memory map).used i = true ∨ i < describedPages map) ∧ ¬ Useable map i) ∨ i < 0x100 := by
  have bound : i ≤ (s.withUseable memory map).limit := by rwa [withUseable_limit]
  rw [withLowReserved,ReservePages,ReservePage,setPages_bit,withUseable_bit whole,covers_zero (by decide)]
  simp [bound]

/-- The frames that are marked when the map is read, with the one behind the bitmap. -/
theorem readEfiMemoryMap_marks (fresh : s.Initialized = false) (whole : i ≤ bmpSize map * 8) :
    (s.ReadEfiMemoryMap memory map).used i = true ↔
      (((s.withBitmap memory map).used i = true ∨ i < describedPages map) ∧ ¬ Useable map i) ∨ i < 0x100 ∨ Locked map i := by
  have bound : i ≤ (s.withLowReserved memory map).limit := by rwa [withLowReserved_limit]
  rw [readEfiMemoryMap_eq memory map fresh,LockPages,LockPage,setPages_bit,withLowReserved_bit whole]
  simp only [Locked,bound,and_true]
  tauto

/-- The frames that are marked when the map is read. -/
theorem readEfiMemoryMap_bit (fresh : s.Initialized = false) (inside : i < 8 * (describedPages map / 8 + 1)) :
    (s.ReadEfiMemoryMap memory map).used i = true ↔
      (i < describedPages map ∧ ¬ Useable map i) ∨ i < 0x100 ∨ Locked map i := by
  have bits : i < bmpSize map * 8 := by unfold describedPages at inside; unfold bmpSize; omega
  have blank : (s.withBitmap memory map).used i = false := initBitmap_bit bits
  rw [readEfiMemoryMap_marks fresh (Nat.le_of_lt bits),blank]
  simp

/-! ### What the allocator may hand out -/

/-- Frame `i` holds a byte of the bitmap. -/
def HoldsBitmap (s : PageFrameAllocator) (i : Nat) : Prop :=
  ∃ k < s.PageBitmap.SizeBytes, i = wrap (s.PageBitmap.Base + k) / PAGE_SIZE

/-- The allocator after `n` calls of `RequestPage`. -/
def afterRequests (s : PageFrameAllocator) : Nat → PageFrameAllocator
  | 0 => s
  | n+1 => (afterRequests s n).RequestPage.2

/-- The allocator offers just the usable frames above the first megabyte that
    the bitmap leaves, and `RequestPage` hands out usable frames only. -/
structure Describes (map : List EfiMemoryDescriptor) (s : PageFrameAllocator) : Prop where
  clear : ∀ i < s.limit, s.used i = false ↔ Useable map i ∧ 0x100 ≤ i ∧ ¬ s.HoldsBitmap i
  requests : ∀ n, (afterRequests s n).RequestPage.1 ≠ 0 →
    ∃ i, Useable map i ∧ (afterRequests s n).RequestPage.1 = i * PAGE_SIZE

/-- The bits past the last described page stand for usable or locked frames, and
    among the usable frames the lock marks just those that hold the bitmap. -/
structure Exact (map : List EfiMemoryDescriptor) : Prop where
  tail : ∀ i, describedPages map ≤ i → i < 8 * (describedPages map / 8 + 1) → 0x100 ≤ i →
    Useable map i ∨ Locked map i
  lock : ∀ i < 8 * (describedPages map / 8 + 1), Useable map i → 0x100 ≤ i →
    (Locked map i ↔ ∃ k < describedPages map / 8 + 1, i = wrap ((largestRegion map).1 + k) / PAGE_SIZE)

theorem afterRequests_limit (n : Nat) : (afterRequests s n).limit = s.limit := by
  induction n with
  | zero => rfl
  | succ n ih => rw [afterRequests,RequestPage_eq]; exact requestFrame_limit.trans ih

theorem afterRequests_used (n : Nat) (marked : s.used i = true) : (afterRequests s n).used i = true := by
  induction n with
  | zero => exact marked
  | succ n ih =>
    rw [afterRequests,RequestPage_eq]
    rcases run : (afterRequests s n).requestFrame with ⟨_ | j,s'⟩
    · simpa [requestFrame_none_bit run] using ih
    · simp [requestFrame_bit run,ih]

/-- An answer is the address of a frame that was clear from the start. -/
theorem afterRequests_answer (n : Nat) (answer : (afterRequests s n).RequestPage.1 ≠ 0) :
    ∃ i < s.limit, s.used i = false ∧ (afterRequests s n).RequestPage.1 = i * PAGE_SIZE := by
  rw [RequestPage_eq] at answer ⊢
  rcases run : (afterRequests s n).requestFrame with ⟨_ | i,s'⟩
  · simp [run] at answer
  · obtain ⟨_,inside,_,clear,_⟩ := requestFrame_some run
    refine ⟨i,by rwa [afterRequests_limit] at inside,?_,rfl⟩
    cases marked : s.used i with
    | false => rfl
    | true => rw [afterRequests_used n marked] at clear; cases clear

theorem readEfiMemoryMap_holdsBitmap (fresh : s.Initialized = false) :
    (s.ReadEfiMemoryMap memory map).HoldsBitmap i ↔
      ∃ k < describedPages map / 8 + 1, i = wrap ((largestRegion map).1 + k) / PAGE_SIZE := by
  rw [HoldsBitmap,readEfiMemoryMap_SizeBytes fresh,readEfiMemoryMap_Base fresh]
  rfl

/-- Two megabytes of memory, the upper one usable. -/
def twoMegabytes : List EfiMemoryDescriptor := [⟨0,0,0x100⟩,⟨UseableMemory,0x100000,0x100⟩]

theorem twoMegabytes_pages : describedPages twoMegabytes = 0x200 := by
  have size : CalculateMemorySize twoMegabytes = 0x200000 := by decide +kernel
  rw [describedPages,size]
  decide

theorem twoMegabytes_useable : Useable twoMegabytes i ↔ 0x100 ≤ i ∧ i < 0x200 := by
  have row : Covers 0x100000 0x100 i ↔ 0x100 ≤ i ∧ i < 0x200 := by
    rw [covers_iff (by decide) (by decide)]
    simp [PAGE_SIZE]
  simp [Useable,twoMegabytes,UseableMemory,row]

theorem twoMegabytes_locked : Locked twoMegabytes i ↔ i = 0x100 := by
  have length : bmpSize twoMegabytes / PAGE_SIZE + 1 = 1 := by
    have pages := twoMegabytes_pages
    simp only [describedPages] at pages
    rw [bmpSize,pages]
    decide
  have place : (largestRegion twoMegabytes).1 = 0x100000 := by decide
  rw [Locked,length,place,covers_iff (by decide) (by decide)]
  simp only [PAGE_SIZE]
  omega

theorem twoMegabytes_size : bmpSize twoMegabytes = 0x41 := by
  have pages := twoMegabytes_pages
  simp only [describedPages] at pages
  rw [bmpSize,pages]

/-- In cleared memory the first megabyte and the page of the bitmap are marked. -/
theorem twoMegabytes_marks (whole : i ≤ 0x208) :
    (boot.ReadEfiMemoryMap (fun _ => 0#8) twoMegabytes).used i = decide (i ≤ 0x100) := by
  have size := twoMegabytes_size
  have blank : (boot.withBitmap (fun _ => 0#8) twoMegabytes).used i = false := by
    rcases Nat.lt_or_ge i (bmpSize twoMegabytes * 8) with before | behind
    · exact initBitmap_bit before
    · rw [show i = bmpSize twoMegabytes * 8 by omega]
      exact initBitmap_behind
  rw [Bool.eq_iff_iff,readEfiMemoryMap_marks rfl (by rw [size]; exact whole),blank,twoMegabytes_pages,twoMegabytes_useable,
    twoMegabytes_locked,decide_eq_true_eq]
  simp only [Bool.false_eq_true,false_or]
  omega

private theorem largest_fold (map : List EfiMemoryDescriptor) (start : Nat × Nat) :
    let largest := map.foldl (fun largest desc =>
      if desc.type = UseableMemory ∧ desc.nPages > largest.2 then (desc.physAddr,desc.nPages) else largest) start
    start.2 ≤ largest.2 ∧ (∀ desc ∈ map, desc.type = UseableMemory → desc.nPages ≤ largest.2) ∧
      (largest = start ∨ ∃ desc ∈ map, desc.type = UseableMemory ∧ largest = (desc.physAddr,desc.nPages)) := by
  induction map generalizing start with
  | nil => simp
  | cons desc map ih =>
    simp only [List.foldl_cons]
    by_cases larger : desc.type = UseableMemory ∧ desc.nPages > start.2
    · rw [if_pos larger]
      obtain ⟨low,all,from_map⟩ := ih (desc.physAddr,desc.nPages)
      refine ⟨by simp only at low; omega,?_,.inr ?_⟩
      · intro d member usable
        rcases List.mem_cons.mp member with rfl | later
        · exact low
        · exact all d later usable
      · rcases from_map with same | ⟨d,member,usable,same⟩
        · exact ⟨desc,by simp,larger.1,same⟩
        · exact ⟨d,by simp [member],usable,same⟩
    · rw [if_neg larger]
      obtain ⟨low,all,from_map⟩ := ih start
      refine ⟨low,?_,?_⟩
      · intro d member usable
        rcases List.mem_cons.mp member with rfl | later
        · have : ¬ d.nPages > start.2 := fun more => larger ⟨usable,more⟩
          omega
        · exact all d later usable
      · rcases from_map with same | ⟨d,member,usable,same⟩
        · exact .inl same
        · exact .inr ⟨d,by simp [member],usable,same⟩

/-- No usable descriptor is larger than the one found. -/
theorem largestRegion_max {desc : EfiMemoryDescriptor} (member : desc ∈ map) (usable : desc.type = UseableMemory) :
    desc.nPages ≤ (largestRegion map).2 := (largest_fold map (0,0)).2.1 desc member usable

/-- The region found is a usable descriptor, unless it is empty. -/
theorem largestRegion_mem (nonempty : (largestRegion map).2 ≠ 0) :
    ∃ desc ∈ map, desc.type = UseableMemory ∧ largestRegion map = (desc.physAddr,desc.nPages) := by
  rcases (largest_fold map (0,0)).2.2 with same | found
  · exact absurd (congrArg Prod.snd same) nonempty
  · exact found

/-- The bytes of the bitmap lie in one usable descriptor. -/
def BitmapInside (map : List EfiMemoryDescriptor) (s : PageFrameAllocator) : Prop :=
  ∃ desc ∈ map, desc.type = UseableMemory ∧ desc.physAddr ≤ s.PageBitmap.Base ∧
    s.PageBitmap.Base + s.PageBitmap.SizeBytes ≤ desc.physAddr + desc.nPages * PAGE_SIZE

/-- The bitmap fits where it stands when some usable descriptor has room for one
    bit for each described page. -/
theorem readEfiMemoryMap_fits_iff (memory : Mem) (map : List EfiMemoryDescriptor) :
    BitmapInside map (boot.ReadEfiMemoryMap memory map) ↔
      ∃ desc ∈ map, desc.type = UseableMemory ∧ describedPages map / 8 + 1 ≤ desc.nPages * PAGE_SIZE := by
  have fresh : boot.Initialized = false := rfl
  simp only [BitmapInside]
  rw [readEfiMemoryMap_Base fresh,readEfiMemoryMap_SizeBytes fresh]
  have size : bmpSize map = describedPages map / 8 + 1 := rfl
  rw [size]
  constructor
  · rintro ⟨desc,member,usable,low,high⟩
    exact ⟨desc,member,usable,by omega⟩
  · rintro ⟨desc,member,usable,room⟩
    have most := largestRegion_max member usable
    have bytes : desc.nPages * PAGE_SIZE ≤ (largestRegion map).2 * PAGE_SIZE := Nat.mul_le_mul_right _ most
    have nonempty : (largestRegion map).2 ≠ 0 := by
      intro zero
      rw [zero] at bytes
      omega
    obtain ⟨largest,inMap,usable',same⟩ := largestRegion_mem nonempty
    rw [same] at bytes ⊢
    exact ⟨largest,inMap,usable',Nat.le_refl _,by simp only at bytes ⊢; omega⟩

/-- One usable page beside a gigabyte of device memory. -/
def onePage : List EfiMemoryDescriptor := [⟨UseableMemory,0x100000,1⟩,⟨0x0B,0xC0000000,0x40000⟩]

/-- The bitmap for a gigabyte does not fit in one page. -/
theorem onePage_not_inside : ¬ BitmapInside onePage (boot.ReadEfiMemoryMap (fun _ => 0#8) onePage) := by
  rintro ⟨desc,member,usable,low,high⟩
  rw [readEfiMemoryMap_Base rfl] at low high
  rw [readEfiMemoryMap_SizeBytes rfl] at high
  have size : CalculateMemorySize onePage = 0x40001000 := by decide +kernel
  have bytes : bmpSize onePage = 0x8001 := by rw [bmpSize,size]; decide
  rw [bytes] at high
  rcases (by simpa [onePage] using member : _ ∨ _) with rfl | rfl
  · have room : 1 * PAGE_SIZE = 0x1000 := by decide
    simp only [room] at low high
    omega
  · exact absurd usable (by decide)

end PageFrameAllocator
end WaifuOS
