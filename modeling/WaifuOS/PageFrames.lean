import WaifuOS.BitMap
import Mathlib.Data.Finset.Card

/-!
The page frame allocator of `PageFrameAllocator.cpp`: one bit for each frame,
set while the frame is in use, three byte counters, and the hint
`LastPageIndex` where the next search starts. The four operations on one page
are one pair of functions (`setPage`, `clearPage`) that differ in the counter
they charge. `scan` is the loop of `RequestPage`, which always ends;
`RequestPages` can run forever on a huge count, so its loop takes fuel.
-/
namespace WaifuOS
open WaifuOS.Words

/-- The size of a physical page. -/
def PAGE_SIZE : Nat := 0x1000

/-- The globals of namespace `PageFrameAllocator`. A bitmap comes from `InitBitmap`
    with one bit for each page of 64-bit byte count, so its size is bounded. -/
structure PageFrameAllocator where
  PageBitmap : BitMap
  Initialized : Bool
  FreeMemory : Nat
  AllocatedMemory : Nat
  ReservedMemory : Nat
  LastPageIndex : Nat
  sized : PageBitmap.SizeBytes ≤ 2^49

namespace PageFrameAllocator

/-- The counter of the pages in use that an operation charges. -/
inductive Account
  | Allocated
  | Reserved
deriving DecidableEq

/-- `PageBitmap.SizeBytes * 8`, the bound of the searches. -/
def limit (s : PageFrameAllocator) : Nat := wrap (s.PageBitmap.SizeBytes * 8)

/-- The allocator after `PageBitmap.Set`. -/
def setBit (s : PageFrameAllocator) (index : Nat) (value : Bool) : PageFrameAllocator :=
  { s with PageBitmap := (s.PageBitmap.Set index value).2, sized := by simpa using s.sized }

/-- A page moves from the free memory to an account. -/
def charge (s : PageFrameAllocator) : Account → PageFrameAllocator
  | .Allocated =>
    { s with FreeMemory := sub s.FreeMemory PAGE_SIZE, AllocatedMemory := wrap (s.AllocatedMemory + PAGE_SIZE) }
  | .Reserved =>
    { s with FreeMemory := sub s.FreeMemory PAGE_SIZE, ReservedMemory := wrap (s.ReservedMemory + PAGE_SIZE) }

/-- A page moves from an account to the free memory. -/
def refund (s : PageFrameAllocator) : Account → PageFrameAllocator
  | .Allocated =>
    { s with FreeMemory := wrap (s.FreeMemory + PAGE_SIZE), AllocatedMemory := sub s.AllocatedMemory PAGE_SIZE }
  | .Reserved =>
    { s with FreeMemory := wrap (s.FreeMemory + PAGE_SIZE), ReservedMemory := sub s.ReservedMemory PAGE_SIZE }

/-- Marks the page of an address, unless it is marked. -/
def setPage (account : Account) (s : PageFrameAllocator) (address : Nat) : PageFrameAllocator :=
  let index := address / PAGE_SIZE
  if s.PageBitmap.Get index then s
  else if (s.PageBitmap.Set index true).1 then (s.setBit index true).charge account
  else s

/-- Unmarks the page of an address, unless it is clear, and pulls the hint back to it. -/
def clearPage (account : Account) (s : PageFrameAllocator) (address : Nat) : PageFrameAllocator :=
  let index := address / PAGE_SIZE
  if !s.PageBitmap.Get index then s
  else if (s.PageBitmap.Set index false).1 then
    let s := (s.setBit index false).refund account
    if s.LastPageIndex > index then { s with LastPageIndex := index } else s
  else s

/-- One operation on each of `count` pages from an address on. -/
def forPages (op : PageFrameAllocator → Nat → PageFrameAllocator) (s : PageFrameAllocator) (address : Nat) :
    Nat → PageFrameAllocator
  | 0 => s
  | x+1 => op (forPages op s address x) (wrap (address + x * PAGE_SIZE))

def FreePage := clearPage .Allocated
def LockPage := setPage .Allocated
def UnreservePage := clearPage .Reserved
def ReservePage := setPage .Reserved
def FreePages := forPages FreePage
def LockPages := forPages LockPage
def UnreservePages := forPages UnreservePage
def ReservePages := forPages ReservePage

/-- The loop of `RequestPage` with at most `n` rounds left: the frame it hands out. -/
def scan : Nat → PageFrameAllocator → Option Nat × PageFrameAllocator
  | 0, s => (none,s)
  | n+1, s =>
    if s.LastPageIndex < s.limit then
      -- Already used
      if s.PageBitmap.Get s.LastPageIndex then scan n { s with LastPageIndex := s.LastPageIndex + 1 }
      else (some s.LastPageIndex,s.LockPage (wrap (s.LastPageIndex * PAGE_SIZE)))
    else (none,s)

/-- The frame that `RequestPage` hands out. Every round moves the hint on by one,
    so the rounds up to the bound are all there are. -/
def requestFrame (s : PageFrameAllocator) : Option Nat × PageFrameAllocator := scan (s.limit - s.LastPageIndex) s

/-- `RequestPage`: the address of the frame, or `nullptr`. -/
def RequestPage (s : PageFrameAllocator) : Nat × PageFrameAllocator :=
  match s.requestFrame with
  | (some index,s') => (wrap (index * PAGE_SIZE),s')
  | (none,s') => (0,s')

/-- The first of the offsets from `x` on, `n` of them, where a page after `k` is used. -/
def firstUsed (bm : BitMap) (k x : Nat) : Nat → Option Nat
  | 0 => none
  | n+1 => if bm.Get (wrap (k + x)) then some x else firstUsed bm k (x+1) n

/-- `RequestPages`; no result where the fuel ends first. -/
def RequestPages : Nat → PageFrameAllocator → Nat → Option (Nat × PageFrameAllocator)
  | 0, _, _ => none
  | fuel+1, s, pages =>
    if s.LastPageIndex < s.limit then
      -- Already used
      if s.PageBitmap.Get s.LastPageIndex then
        RequestPages fuel { s with LastPageIndex := s.LastPageIndex + 1 } pages
      else
        -- make sure the rest are available
        match firstUsed s.PageBitmap s.LastPageIndex 0 pages with
        | some x => RequestPages fuel { s with LastPageIndex := wrap (s.LastPageIndex + x) } pages
        | none =>
          let ret := wrap (s.LastPageIndex * PAGE_SIZE)
          some (ret,s.LockPages ret pages)
    else some (0,s)

def GetFreeRAM (s : PageFrameAllocator) : Nat := s.FreeMemory
def GetAllocatedRAM (s : PageFrameAllocator) : Nat := s.AllocatedMemory
def GetReservedRAM (s : PageFrameAllocator) : Nat := s.ReservedMemory

/-- Whether frame `i` is marked. -/
def used (s : PageFrameAllocator) (i : Nat) : Bool := s.PageBitmap.bit i

variable {s : PageFrameAllocator} {account : Account} {address i j n : Nat}

/-! ### Bits -/

theorem limit_eq (s : PageFrameAllocator) : s.limit = s.PageBitmap.SizeBytes * 8 :=
  wrap_of_lt (by have := s.sized; omega)

theorem limit_le (s : PageFrameAllocator) : s.limit ≤ 2^52 := by rw [limit_eq]; have := s.sized; omega

/-- The address of a frame below the bound is exact. -/
theorem frame_address (inside : i < s.limit) : wrap (i * PAGE_SIZE) = i * PAGE_SIZE :=
  wrap_of_lt (by have := s.limit_le; unfold PAGE_SIZE; omega)

theorem frame_of_address (i : Nat) : i * PAGE_SIZE / PAGE_SIZE = i := Nat.mul_div_cancel i (by decide)

theorem frame_injective (same : i * PAGE_SIZE = j * PAGE_SIZE) : i = j := Nat.eq_of_mul_eq_mul_right (by decide) same

theorem get_eq (inside : i ≤ s.limit) : s.PageBitmap.Get i = s.used i := BitMap.get_of_le inside

@[simp] theorem charge_PageBitmap : (s.charge account).PageBitmap = s.PageBitmap := by
  cases account <;> simp only [charge]
@[simp] theorem charge_LastPageIndex : (s.charge account).LastPageIndex = s.LastPageIndex := by
  cases account <;> simp only [charge]
@[simp] theorem refund_PageBitmap : (s.refund account).PageBitmap = s.PageBitmap := by
  cases account <;> simp only [refund]
@[simp] theorem refund_LastPageIndex : (s.refund account).LastPageIndex = s.LastPageIndex := by
  cases account <;> simp only [refund]

/-- Marking a page outside the bitmap does nothing. -/
theorem setPage_outside (outside : s.limit < address / PAGE_SIZE) : setPage account s address = s := by
  simp [setPage,BitMap.get_of_gt outside,BitMap.set_of_gt outside]

theorem clearPage_outside (outside : s.limit < address / PAGE_SIZE) : clearPage account s address = s := by
  simp [clearPage,BitMap.get_of_gt outside]

theorem setPage_used (inside : address / PAGE_SIZE ≤ s.limit) (marked : s.used (address / PAGE_SIZE) = true) :
    setPage account s address = s := by
  simp [setPage,get_eq inside,marked]

theorem setPage_clear (inside : address / PAGE_SIZE ≤ s.limit) (clear : s.used (address / PAGE_SIZE) = false) :
    setPage account s address = (s.setBit (address / PAGE_SIZE) true).charge account := by
  have accepted : (s.PageBitmap.Set (address / PAGE_SIZE) true).1 = true := by
    rw [BitMap.set_accepts]; exact decide_eq_true inside
  simp [setPage,get_eq inside,clear,accepted]

theorem clearPage_clear (inside : address / PAGE_SIZE ≤ s.limit) (clear : s.used (address / PAGE_SIZE) = false) :
    clearPage account s address = s := by
  simp [clearPage,get_eq inside,clear]

theorem clearPage_used (inside : address / PAGE_SIZE ≤ s.limit) (marked : s.used (address / PAGE_SIZE) = true) :
    clearPage account s address =
      let s' := (s.setBit (address / PAGE_SIZE) false).refund account
      if s.LastPageIndex > address / PAGE_SIZE then { s' with LastPageIndex := address / PAGE_SIZE } else s' := by
  have accepted : (s.PageBitmap.Set (address / PAGE_SIZE) false).1 = true := by
    rw [BitMap.set_accepts]; exact decide_eq_true inside
  simp [clearPage,get_eq inside,marked,accepted,setBit]

@[simp] theorem setPage_SizeBytes :
    (setPage account s address).PageBitmap.SizeBytes = s.PageBitmap.SizeBytes := by
  unfold setPage; simp only; split_ifs <;> simp [setBit]

@[simp] theorem clearPage_SizeBytes :
    (clearPage account s address).PageBitmap.SizeBytes = s.PageBitmap.SizeBytes := by
  unfold clearPage; simp only; split_ifs <;> simp [setBit]

@[simp] theorem setPage_Base : (setPage account s address).PageBitmap.Base = s.PageBitmap.Base := by
  unfold setPage; simp only; split_ifs <;> simp [setBit]

@[simp] theorem clearPage_Base : (clearPage account s address).PageBitmap.Base = s.PageBitmap.Base := by
  unfold clearPage; simp only; split_ifs <;> simp [setBit]

@[simp] theorem setPage_limit : (setPage account s address).limit = s.limit := by simp [limit]
@[simp] theorem clearPage_limit : (clearPage account s address).limit = s.limit := by simp [limit]

@[simp] theorem setPage_LastPageIndex : (setPage account s address).LastPageIndex = s.LastPageIndex := by
  unfold setPage; simp only; split_ifs <;> simp [setBit]

/-- Marking sets the bit of the page, where the bitmap has it, and no other. -/
theorem setPage_bit : (setPage account s address).used j =
    (s.used j || decide (j = address / PAGE_SIZE ∧ j ≤ s.limit)) := by
  by_cases inside : address / PAGE_SIZE ≤ s.limit
  · cases marked : s.used (address / PAGE_SIZE) with
    | true =>
      rw [setPage_used inside marked]
      by_cases same : j = address / PAGE_SIZE
      · subst same; simp [marked]
      · simp [same]
    | false =>
      rw [setPage_clear inside marked]
      simp only [used,charge_PageBitmap,setBit,BitMap.set_bit inside]
      by_cases same : j = address / PAGE_SIZE
      · subst same; simp [inside]
      · simp [same]
  · rw [setPage_outside (by omega)]
    have apart : ¬ (j = address / PAGE_SIZE ∧ j ≤ s.limit) := by omega
    simp [apart]

/-- Clearing clears the bit of the page, where the bitmap has it, and no other. -/
theorem clearPage_bit : (clearPage account s address).used j =
    (s.used j && !decide (j = address / PAGE_SIZE ∧ j ≤ s.limit)) := by
  by_cases inside : address / PAGE_SIZE ≤ s.limit
  · cases marked : s.used (address / PAGE_SIZE) with
    | false =>
      rw [clearPage_clear inside marked]
      by_cases same : j = address / PAGE_SIZE
      · subst same; simp [marked]
      · simp [same]
    | true =>
      rw [clearPage_used inside marked]
      have bits : ((s.setBit (address / PAGE_SIZE) false).refund account).used j =
          (s.used j && !decide (j = address / PAGE_SIZE ∧ j ≤ s.limit)) := by
        simp only [used,refund_PageBitmap,setBit,BitMap.set_bit inside]
        by_cases same : j = address / PAGE_SIZE
        · subst same; simp [inside]
        · simp [same]
      simp only
      split
      · exact bits
      · exact bits
  · rw [clearPage_outside (by omega)]
    have apart : ¬ (j = address / PAGE_SIZE ∧ j ≤ s.limit) := by omega
    simp [apart]

/-- Clearing a marked page of the bitmap pulls the hint back to it. -/
theorem clearPage_LastPageIndex : (clearPage account s address).LastPageIndex =
    if address / PAGE_SIZE ≤ s.limit ∧ s.used (address / PAGE_SIZE) = true
    then min s.LastPageIndex (address / PAGE_SIZE) else s.LastPageIndex := by
  by_cases inside : address / PAGE_SIZE ≤ s.limit
  · cases marked : s.used (address / PAGE_SIZE) with
    | false => rw [clearPage_clear inside marked]; simp
    | true =>
      rw [clearPage_used inside marked]
      simp only
      split
      · simp [inside]; omega
      · simp [inside,setBit]; omega
  · rw [clearPage_outside (by omega)]; simp [inside]

/-- The frame of the page `x` of a range. -/
def pageAt (address x : Nat) : Nat := wrap (address + x * PAGE_SIZE) / PAGE_SIZE

/-- The frames that the pages of a range lie in. -/
def Covers (address count i : Nat) : Prop := ∃ x < count, i = pageAt address x

theorem covers_succ {count : Nat} : Covers address (count+1) i ↔ Covers address count i ∨ i = pageAt address count := by
  constructor
  · rintro ⟨x,bound,rfl⟩
    rcases Nat.lt_succ_iff_lt_or_eq.mp bound with lt | rfl
    · exact .inl ⟨x,lt,rfl⟩
    · exact .inr rfl
  · rintro (⟨x,bound,rfl⟩ | rfl)
    · exact ⟨x,by omega,rfl⟩
    · exact ⟨count,by omega,rfl⟩

@[simp] theorem setPages_SizeBytes {count : Nat} :
    (forPages (setPage account) s address count).PageBitmap.SizeBytes = s.PageBitmap.SizeBytes := by
  induction count with
  | zero => rfl
  | succ count ih => rw [forPages,setPage_SizeBytes,ih]

@[simp] theorem setPages_Base {count : Nat} :
    (forPages (setPage account) s address count).PageBitmap.Base = s.PageBitmap.Base := by
  induction count with
  | zero => rfl
  | succ count ih => rw [forPages,setPage_Base,ih]

@[simp] theorem clearPages_SizeBytes {count : Nat} :
    (forPages (clearPage account) s address count).PageBitmap.SizeBytes = s.PageBitmap.SizeBytes := by
  induction count with
  | zero => rfl
  | succ count ih => rw [forPages,clearPage_SizeBytes,ih]

@[simp] theorem clearPages_Base {count : Nat} :
    (forPages (clearPage account) s address count).PageBitmap.Base = s.PageBitmap.Base := by
  induction count with
  | zero => rfl
  | succ count ih => rw [forPages,clearPage_Base,ih]

@[simp] theorem setPages_limit {count : Nat} : (forPages (setPage account) s address count).limit = s.limit := by
  induction count with
  | zero => rfl
  | succ count ih => rw [forPages,setPage_limit,ih]

@[simp] theorem clearPages_limit {count : Nat} : (forPages (clearPage account) s address count).limit = s.limit := by
  induction count with
  | zero => rfl
  | succ count ih => rw [forPages,clearPage_limit,ih]

@[simp] theorem setPages_LastPageIndex {count : Nat} :
    (forPages (setPage account) s address count).LastPageIndex = s.LastPageIndex := by
  induction count with
  | zero => rfl
  | succ count ih => rw [forPages,setPage_LastPageIndex,ih]

theorem setPages_bit {count : Nat} : (forPages (setPage account) s address count).used j = true ↔
    s.used j = true ∨ (Covers address count j ∧ j ≤ s.limit) := by
  induction count with
  | zero => simp [forPages,Covers]
  | succ count ih =>
    rw [forPages,setPage_bit,setPages_limit,Bool.or_eq_true,ih,decide_eq_true_eq,covers_succ]
    simp only [pageAt]
    tauto

theorem clearPages_bit {count : Nat} : (forPages (clearPage account) s address count).used j = true ↔
    s.used j = true ∧ ¬ (Covers address count j ∧ j ≤ s.limit) := by
  induction count with
  | zero => simp [forPages,Covers]
  | succ count ih =>
    rw [forPages,clearPage_bit,clearPages_limit,Bool.and_eq_true,ih,Bool.not_eq_true',decide_eq_false_iff_not,covers_succ]
    simp only [pageAt]
    tauto

/-! ### Searching -/

/-- The loop hands out the first clear frame from the hint on, and marks it. -/
theorem scan_some {i : Nat} {s' : PageFrameAllocator} (found : scan n s = (some i,s')) :
    s.LastPageIndex ≤ i ∧ i < s.limit ∧ (∀ j, s.LastPageIndex ≤ j → j < i → s.used j = true) ∧ s.used i = false ∧
      s' = LockPage { s with LastPageIndex := i } (i * PAGE_SIZE) := by
  induction n generalizing s with
  | zero => simp [scan] at found
  | succ n ih =>
    rw [scan] at found
    split at found
    · rename_i inside
      rw [get_eq (by omega)] at found
      cases marked : s.used s.LastPageIndex with
      | true =>
        rw [marked,if_pos rfl] at found
        obtain ⟨low,high,between,clear,after⟩ := ih found
        refine ⟨by simp only at low; omega,high,?_,clear,after⟩
        intro j from_hint below
        rcases Nat.eq_or_lt_of_le from_hint with rfl | later
        · exact marked
        · exact between j later below
      | false =>
        rw [marked] at found
        simp only [Bool.false_eq_true,↓reduceIte,Prod.mk.injEq,Option.some.injEq] at found
        obtain ⟨rfl,rfl⟩ := found
        exact ⟨by omega,inside,fun j low high => by omega,marked,by rw [frame_address inside]⟩
    · simp at found

/-- With enough rounds the loop fails only when no frame from the hint on is clear. -/
theorem scan_none {s' : PageFrameAllocator} (enough : s.limit ≤ s.LastPageIndex + n) (failed : scan n s = (none,s')) :
    (∀ j, s.LastPageIndex ≤ j → j < s.limit → s.used j = true) ∧
      s' = { s with LastPageIndex := max s.LastPageIndex s.limit } := by
  induction n generalizing s with
  | zero =>
    simp only [scan,Prod.mk.injEq,true_and] at failed
    subst failed
    exact ⟨fun j low high => by omega,by rw [Nat.max_eq_left (by omega)]⟩
  | succ n ih =>
    rw [scan] at failed
    split at failed
    · rename_i inside
      rw [get_eq (by omega)] at failed
      cases marked : s.used s.LastPageIndex with
      | true =>
        rw [marked,if_pos rfl] at failed
        obtain ⟨between,after⟩ := ih (s := { s with LastPageIndex := s.LastPageIndex + 1 })
          (by simp only [limit] at enough ⊢; omega) failed
        constructor
        · intro j from_hint below
          rcases Nat.eq_or_lt_of_le from_hint with rfl | later
          · exact marked
          · exact between j later below
        · rw [after]
          have bound : max (s.LastPageIndex + 1) s.limit = max s.LastPageIndex s.limit := by omega
          exact congrArg (fun h => { s with LastPageIndex := h }) bound
      | false => rw [marked] at failed; simp at failed
    · rename_i outside
      simp only [Prod.mk.injEq,true_and] at failed
      subst failed
      exact ⟨fun j low high => by omega,by rw [Nat.max_eq_left (by omega)]⟩

theorem requestFrame_some {s' : PageFrameAllocator} (found : s.requestFrame = (some i,s')) :
    s.LastPageIndex ≤ i ∧ i < s.limit ∧ (∀ j, s.LastPageIndex ≤ j → j < i → s.used j = true) ∧ s.used i = false ∧
      s' = LockPage { s with LastPageIndex := i } (i * PAGE_SIZE) := scan_some found

theorem requestFrame_none {s' : PageFrameAllocator} (failed : s.requestFrame = (none,s')) :
    (∀ j, s.LastPageIndex ≤ j → j < s.limit → s.used j = true) ∧
      s' = { s with LastPageIndex := max s.LastPageIndex s.limit } := scan_none (by omega) failed

/-- A frame that is handed out was clear and is marked, and no other bit changes. -/
theorem requestFrame_bit {s' : PageFrameAllocator} (found : s.requestFrame = (some i,s')) :
    s'.used j = (s.used j || decide (j = i)) := by
  obtain ⟨_,inside,_,_,rfl⟩ := requestFrame_some found
  rw [LockPage,setPage_bit,frame_of_address]
  have below : (j = i ∧ j ≤ limit { s with LastPageIndex := i }) ↔ j = i :=
    ⟨And.left,fun same => ⟨same,by subst same; exact Nat.le_of_lt inside⟩⟩
  simp only [below]
  rfl

/-- A search that fails changes no bit. -/
theorem requestFrame_none_bit {s' : PageFrameAllocator} (failed : s.requestFrame = (none,s')) :
    s'.used j = s.used j := by
  obtain ⟨_,rfl⟩ := requestFrame_none failed
  rfl

theorem requestFrame_limit : s.requestFrame.2.limit = s.limit := by
  rcases run : s.requestFrame with ⟨_ | i,s'⟩
  · obtain ⟨_,rfl⟩ := requestFrame_none run; rfl
  · obtain ⟨_,_,_,_,rfl⟩ := requestFrame_some run
    simp only [LockPage,setPage_limit]; rfl

/-- `RequestPage` in terms of the frame it hands out. -/
theorem RequestPage_eq : s.RequestPage = (match s.requestFrame.1 with | some i => i * PAGE_SIZE | none => 0,s.requestFrame.2) := by
  rcases run : s.requestFrame with ⟨_ | i,s'⟩
  · simp [RequestPage,run]
  · simp [RequestPage,run,frame_address (requestFrame_some run).2.1]

/-- The frames that requests to come can hand out. -/
def clearFrames (s : PageFrameAllocator) : Finset Nat :=
  (Finset.range s.limit).filter (fun i => s.LastPageIndex ≤ i ∧ s.used i = false)

theorem mem_clearFrames : i ∈ s.clearFrames ↔ i < s.limit ∧ s.LastPageIndex ≤ i ∧ s.used i = false := by
  simp [clearFrames]

/-- A request takes one of the clear frames. -/
theorem requestFrame_clearFrames {s' : PageFrameAllocator} (found : s.requestFrame = (some i,s')) :
    i ∈ s.clearFrames ∧ s'.clearFrames = s.clearFrames.erase i := by
  obtain ⟨low,inside,between,clear,after⟩ := requestFrame_some found
  refine ⟨mem_clearFrames.mpr ⟨inside,low,clear⟩,?_⟩
  have same_limit : s'.limit = s.limit := by have kept := s.requestFrame_limit; rwa [found] at kept
  have hint : s'.LastPageIndex = i := by rw [after,LockPage,setPage_LastPageIndex]
  ext j
  rw [Finset.mem_erase,mem_clearFrames,mem_clearFrames,same_limit,hint,requestFrame_bit found,Bool.or_eq_false_iff,
    decide_eq_false_iff_not]
  constructor
  · rintro ⟨inBound,above,free,other⟩
    exact ⟨other,inBound,by omega,free⟩
  · rintro ⟨other,inBound,above,free⟩
    refine ⟨inBound,?_,free,other⟩
    by_contra earlier
    rw [between j above (by omega)] at free
    cases free

/-- With a clear frame left a request succeeds. -/
theorem requestFrame_of_clear (left : s.clearFrames.Nonempty) : ∃ i s', s.requestFrame = (some i,s') := by
  obtain ⟨j,member⟩ := left
  obtain ⟨inside,low,clear⟩ := mem_clearFrames.mp member
  rcases run : s.requestFrame with ⟨_ | i,s'⟩
  · rw [(requestFrame_none run).1 j low inside] at clear
    cases clear
  · exact ⟨i,s',rfl⟩

theorem firstUsed_none {bm : BitMap} {k x : Nat} : firstUsed bm k x n = none ↔ ∀ y, x ≤ y → y < x + n → bm.Get (wrap (k + y)) = false := by
  induction n generalizing x with
  | zero => simp [firstUsed]; omega
  | succ n ih =>
    rw [firstUsed]
    cases here : bm.Get (wrap (k + x)) with
    | true =>
      simp only [↓reduceIte,reduceCtorEq,false_iff]
      intro all
      have := all x (by omega) (by omega)
      rw [here] at this
      cases this
    | false =>
      rw [if_neg (by simp),ih]
      constructor
      · intro all y low high
        rcases Nat.eq_or_lt_of_le low with rfl | later
        · exact here
        · exact all y later (by omega)
      · exact fun all y low high => all y (by omega) (by omega)

theorem firstUsed_some {bm : BitMap} {k x y : Nat} (found : firstUsed bm k x n = some y) :
    x ≤ y ∧ y < x + n ∧ bm.Get (wrap (k + y)) = true := by
  induction n generalizing x with
  | zero => simp [firstUsed] at found
  | succ n ih =>
    rw [firstUsed] at found
    split at found
    · rename_i here
      cases found
      exact ⟨by omega,by omega,here⟩
    · obtain ⟨low,high,used⟩ := ih found
      exact ⟨by omega,by omega,used⟩

end PageFrameAllocator
end WaifuOS
