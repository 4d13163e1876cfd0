import WaifuOS.FrameRequests
import WaifuOS.Ledgers

/-!
The counters of the page frame allocator against its bitmap. Every operation on one
page keeps the free memory and the marked frames together (`total`), the bit behind
the bitmap included. The free memory starts as the whole memory, though the bitmap
has more bits than the memory has pages, so that it falls short of the clear frames
(`run_freeRAM`, `not_freeExact`).
-/
namespace WaifuOS
namespace PageFrameAllocator
open WaifuOS.Words WaifuOS.Bytes WaifuOS.Ledgers

variable {s s' t u : PageFrameAllocator} {account : Account} {address h pages fuel answer i : Nat} {memory : Mem}
  {map : List EfiMemoryDescriptor}

/-- The marked frames that the operations reach, and the free memory, in bytes. -/
def total (s : PageFrameAllocator) : Nat := wrap (s.FreeMemory + PAGE_SIZE * tally s.used (s.limit+1))

/-- The frames that `RequestPage` can hand out. -/
def clearCount (s : PageFrameAllocator) : Nat := tally (fun i => !s.used i) s.limit

/-- The addresses and counts of an event are words. -/
def Addressed : Event → Prop
  | .call .RequestPage => True
  | .call (.FreePage address) => address < 2^64
  | .call (.LockPage address) => address < 2^64
  | .call (.FreePages address count) => address < 2^64 ∧ count < 2^64
  | .call (.LockPages address count) => address < 2^64 ∧ count < 2^64
  | .RequestPages pages => pages < 2^64

/-- In every run after the map is read, the free memory is that of the clear frames. -/
def FreeExact (memory : Mem) (map : List EfiMemoryDescriptor) : Prop :=
  ∀ steps t, Run (boot.ReadEfiMemoryMap memory map) steps t → (∀ step ∈ steps, Addressed step.2) →
    t.GetFreeRAM = PAGE_SIZE * t.clearCount

/-- The two ways that marking a page can go. -/
theorem setPage_cases (account : Account) (s : PageFrameAllocator) (address : Nat) : setPage account s address = s ∨
    (address / PAGE_SIZE ≤ s.limit ∧ s.used (address / PAGE_SIZE) = false ∧
      setPage account s address = (s.setBit (address / PAGE_SIZE) true).charge account) := by
  by_cases inside : address / PAGE_SIZE ≤ s.limit
  · cases marked : s.used (address / PAGE_SIZE) with
    | true => exact .inl (setPage_used inside marked)
    | false => exact .inr ⟨inside,rfl,setPage_clear inside marked⟩
  · exact .inl (setPage_outside (by omega))

/-- The two ways that clearing a page can go. -/
theorem clearPage_cases (account : Account) (s : PageFrameAllocator) (address : Nat) : clearPage account s address = s ∨
    (address / PAGE_SIZE ≤ s.limit ∧ s.used (address / PAGE_SIZE) = true ∧ ∃ h,
      clearPage account s address = { (s.setBit (address / PAGE_SIZE) false).refund account with LastPageIndex := h }) := by
  by_cases inside : address / PAGE_SIZE ≤ s.limit
  · cases marked : s.used (address / PAGE_SIZE) with
    | false => exact .inl (clearPage_clear inside marked)
    | true =>
      refine .inr ⟨inside,rfl,?_⟩
      rw [clearPage_used inside marked]
      simp only
      split
      · exact ⟨_,rfl⟩
      · exact ⟨_,rfl⟩
  · exact .inl (clearPage_outside (by omega))

/-- Setting one bit of the frames that the operations reach. -/
theorem setBit_used {value : Bool} (inside : i ≤ s.limit) (j : Nat) :
    (s.setBit i value).used j = if j = i then value else s.used j := BitMap.set_bit inside j

@[simp] theorem setBit_limit {value : Bool} : (s.setBit i value).limit = s.limit := by simp [limit,setBit]

theorem setBit_tally (value : Bool) (inside : i ≤ s.limit) (changes : s.used i = !value) :
    tally (s.setBit i value).used (s.limit+1) + (!value).toNat = tally s.used (s.limit+1) + value.toNat := by
  have change := tally_change (f := s.used) (g := (s.setBit i value).used) (show i < s.limit + 1 by omega)
    (fun j other => by rw [setBit_used inside,if_neg other])
  rwa [setBit_used inside,if_pos rfl,changes] at change

@[simp] theorem charge_used : (s.charge account).used = s.used := by funext j; simp [used]
@[simp] theorem refund_used : (s.refund account).used = s.used := by funext j; simp [used]
@[simp] theorem charge_limit : (s.charge account).limit = s.limit := by simp [limit]
@[simp] theorem refund_limit : (s.refund account).limit = s.limit := by simp [limit]

@[simp] theorem charge_FreeMemory : (s.charge account).FreeMemory = sub s.FreeMemory PAGE_SIZE := by
  cases account <;> simp only [charge]
@[simp] theorem refund_FreeMemory : (s.refund account).FreeMemory = wrap (s.FreeMemory + PAGE_SIZE) := by
  cases account <;> simp only [refund]

theorem setPage_total : (setPage account s address).total = s.total := by
  rcases setPage_cases account s address with same | ⟨inside,clear,done⟩
  · rw [same]
  · have counted := setBit_tally true inside clear
    have free : (s.setBit (address / PAGE_SIZE) true).FreeMemory = s.FreeMemory := rfl
    rw [total,total,done,charge_used,charge_limit,charge_FreeMemory,setBit_limit,free]
    simp only [Bool.not_true,Bool.toNat_false,Bool.toNat_true,Nat.add_zero] at counted
    rw [counted]
    simp only [wrap,sub,PAGE_SIZE]
    omega

theorem clearPage_total : (clearPage account s address).total = s.total := by
  rcases clearPage_cases account s address with same | ⟨inside,marked,h,done⟩
  · rw [same]
  · have counted := setBit_tally false inside marked
    have free : (s.setBit (address / PAGE_SIZE) false).FreeMemory = s.FreeMemory := rfl
    have hint : total { (s.setBit (address / PAGE_SIZE) false).refund account with LastPageIndex := h } =
        ((s.setBit (address / PAGE_SIZE) false).refund account).total := rfl
    rw [done,hint,total,total,refund_used,refund_limit,refund_FreeMemory,setBit_limit,free]
    simp only [Bool.not_false,Bool.toNat_false,Bool.toNat_true,Nat.add_zero] at counted
    rw [← counted]
    simp only [wrap,PAGE_SIZE]
    omega

theorem setPage_word (word : s.FreeMemory < 2^64) : (setPage account s address).FreeMemory < 2^64 := by
  rcases setPage_cases account s address with same | ⟨_,_,done⟩
  · rw [same]
    exact word
  · rw [done,charge_FreeMemory]
    exact sub_lt _ _

theorem clearPage_word (word : s.FreeMemory < 2^64) : (clearPage account s address).FreeMemory < 2^64 := by
  rcases clearPage_cases account s address with same | ⟨_,_,h,done⟩
  · rw [same]
    exact word
  · have hint : ({ (s.setBit (address / PAGE_SIZE) false).refund account with LastPageIndex := h } : PageFrameAllocator).FreeMemory =
        ((s.setBit (address / PAGE_SIZE) false).refund account).FreeMemory := rfl
    rw [done,hint,refund_FreeMemory]
    exact wrap_lt _

/-- What `RequestPages` does to the state: the hint moves, and the pages of an answer are locked. -/
theorem requestPages_ends (returned : s.RequestPages fuel pages = some (answer,s')) :
    ∃ h, s' = { s with LastPageIndex := h } ∨ s' = LockPages { s with LastPageIndex := h } (h * PAGE_SIZE) pages := by
  induction fuel generalizing s with
  | zero => cases returned
  | succ fuel ih =>
    rcases requestPages_cases returned with ⟨_,_,rfl⟩ | ⟨_,_,later⟩ | ⟨_,_,x,_,later⟩ | ⟨_,_,_,_,rfl⟩
    · exact ⟨s'.LastPageIndex,.inl rfl⟩
    · exact ih (s := { s with LastPageIndex := s.LastPageIndex + 1 }) later
    · exact ih (s := { s with LastPageIndex := wrap (s.LastPageIndex + x) }) later
    · exact ⟨s.LastPageIndex,.inr rfl⟩

/-- What `RequestPage` does to the state. -/
theorem requestPage_ends (s : PageFrameAllocator) :
    ∃ h, s.RequestPage.2 = { s with LastPageIndex := h } ∨
      s.RequestPage.2 = LockPage { s with LastPageIndex := h } (h * PAGE_SIZE) := by
  rw [RequestPage_eq]
  rcases run : s.requestFrame with ⟨_ | i,s'⟩
  · exact ⟨_,.inl (requestFrame_none run).2⟩
  · exact ⟨i,.inr (requestFrame_some run).2.2.2.2⟩

/-- What moving the hint, locking a page and freeing a page keep, every step keeps. -/
theorem step_keeps {P : PageFrameAllocator → Prop} {e : Event} (hint : ∀ s h, P s → P { s with LastPageIndex := h })
    (lock : ∀ s address, P s → P (s.LockPage address)) (free : ∀ s address, P s → P (s.FreePage address))
    (holds : P t) (step : Step t e u) : P u := by
  cases step with
  | call call =>
    cases call with
    | RequestPage =>
      rw [exec]
      obtain ⟨h,none | some⟩ := requestPage_ends t
      · rw [none]
        exact hint t h holds
      · rw [some]
        exact lock _ _ (hint t h holds)
    | FreePage address => exact free t address holds
    | LockPage address => exact lock t address holds
    | FreePages address count => exact forPages_keeps free holds address count
    | LockPages address count => exact forPages_keeps lock holds address count
  | RequestPages word returned =>
    obtain ⟨h,none | some⟩ := requestPages_ends returned
    · rw [none]
      exact hint t h holds
    · rw [some]
      exact forPages_keeps lock (hint t h holds) _ _

/-- What every step keeps, a run keeps. -/
theorem run_keeps {P : PageFrameAllocator → Prop} {steps : List (PageFrameAllocator × Event)}
    (keeps : ∀ t e u, P t → Step t e u → P u) (holds : P s) (reached : Run s steps t) : P t := by
  induction reached with
  | nil => exact holds
  | snoc _ step ih => exact keeps _ _ _ ih step

/-- The free memory is a word, and no operation has changed the total. -/
structure Conserves (K limit : Nat) (s : PageFrameAllocator) : Prop where
  word : s.FreeMemory < 2^64
  total : s.total = K
  limit : s.limit = limit

theorem Conserves.setPage {K limit : Nat} (conserves : Conserves K limit s) :
    Conserves K limit (setPage account s address) :=
  ⟨setPage_word conserves.word,setPage_total.trans conserves.total,setPage_limit.trans conserves.limit⟩

theorem Conserves.clearPage {K limit : Nat} (conserves : Conserves K limit s) :
    Conserves K limit (clearPage account s address) :=
  ⟨clearPage_word conserves.word,clearPage_total.trans conserves.total,clearPage_limit.trans conserves.limit⟩

theorem step_conserves {K limit : Nat} (t : PageFrameAllocator) (e : Event) (u : PageFrameAllocator)
    (conserves : Conserves K limit t) (step : Step t e u) : Conserves K limit u :=
  step_keeps (fun _ _ holds => ⟨holds.word,holds.total,holds.limit⟩) (fun _ _ holds => holds.setPage)
    (fun _ _ holds => holds.clearPage) conserves step

/-- Whether the bit behind the bitmap is set in the memory that the bitmap is put in. -/
def behindBit (memory : Mem) (map : List EfiMemoryDescriptor) : Bool :=
  (memory (wrap ((largestRegion map).1 + bmpSize map))).getLsbD 7

/-- Before the first pass only the bit behind the bitmap can be marked. -/
theorem withBitmap_bit (whole : i ≤ bmpSize map * 8) :
    (s.withBitmap memory map).used i = (decide (i = bmpSize map * 8) && behindBit memory map) := by
  rcases Nat.lt_or_eq_of_le whole with before | rfl
  · have apart : i ≠ bmpSize map * 8 := by omega
    rw [decide_eq_false apart]
    exact initBitmap_bit before
  · rw [decide_eq_true rfl]
    exact initBitmap_behind

theorem withBitmap_tally : tally (s.withBitmap memory map).used (bmpSize map * 8 + 1) = (behindBit memory map).toNat := by
  have blank : tally (s.withBitmap memory map).used (bmpSize map * 8) = 0 := by
    apply tally_none
    intro j small
    rw [withBitmap_bit (Nat.le_of_lt small),decide_eq_false (by omega)]
    rfl
  rw [tally_succ,blank,withBitmap_bit (Nat.le_refl _),Nat.zero_add]
  simp

/-- The whole memory, with a page for the bit behind the bitmap where that is set. -/
theorem readEfiMemoryMap_conserves (fresh : s.Initialized = false) :
    Conserves (wrap (CalculateMemorySize map + PAGE_SIZE * (behindBit memory map).toNat)) (bmpSize map * 8)
      (s.ReadEfiMemoryMap memory map) := by
  have start : Conserves (wrap (CalculateMemorySize map + PAGE_SIZE * (behindBit memory map).toNat)) (bmpSize map * 8)
      (s.withBitmap memory map) := by
    have bound : (s.withBitmap memory map).limit = bmpSize map * 8 := by rw [limit_eq]; rfl
    refine ⟨calculateMemorySize_lt map,?_,bound⟩
    rw [total,bound,withBitmap_tally]
    rfl
  have reserved : Conserves _ _ (s.withAllReserved memory map) := forPages_keeps (fun _ _ holds => holds.setPage) start _ _
  have useable : Conserves _ _ (s.withUseable memory map) :=
    unreserved_keeps (fun _ _ _ holds => forPages_keeps (fun _ _ holds => holds.clearPage) holds _ _) reserved
  have low : Conserves _ _ (s.withLowReserved memory map) := forPages_keeps (fun _ _ holds => holds.setPage) useable _ _
  rw [readEfiMemoryMap_eq memory map fresh]
  exact forPages_keeps (fun _ _ holds => holds.setPage) low _ _

/-- The memory is a number of whole pages. -/
theorem calculateMemorySize_eq (map : List EfiMemoryDescriptor) : CalculateMemorySize map = PAGE_SIZE * describedPages map := by
  have whole : PAGE_SIZE ∣ CalculateMemorySize map := by
    refine List.foldlRecOn (motive := fun size => PAGE_SIZE ∣ size) map _ (Nat.dvd_zero _) ?_
    intro size pages desc _
    simp only [wrap,PAGE_SIZE] at *
    omega
  exact (Nat.mul_div_cancel' whole).symm

/-- In every state of a run after the map is read, the free memory falls short of the
    clear frames by the bits that the bitmap has too many. They can agree only where there
    is one such bit, and the bit behind the bitmap was set and is cleared. -/
theorem run_freeRAM {steps : List (PageFrameAllocator × Event)} (reached : Run (boot.ReadEfiMemoryMap memory map) steps t)
    (same : t.GetFreeRAM = PAGE_SIZE * t.clearCount) :
    describedPages map % 8 = 7 ∧ behindBit memory map = true ∧ t.used t.limit = false := by
  obtain ⟨word,total_eq,bound⟩ := run_keeps step_conserves (readEfiMemoryMap_conserves rfl) reached
  have parts : t.clearCount + tally t.used t.limit = t.limit := tally_not
  have small := describedPages_lt map
  have size : t.limit = 8 * (describedPages map / 8) + 8 := by rw [bound]; unfold bmpSize describedPages; omega
  have before := (behindBit memory map).toNat_le
  have now := (t.used t.limit).toNat_le
  rw [total,tally_succ,calculateMemorySize_eq] at total_eq
  have agree : describedPages map % 8 = 7 ∧ (behindBit memory map).toNat = 1 ∧ (t.used t.limit).toNat = 0 := by
    simp only [GetFreeRAM] at same
    simp only [wrap,PAGE_SIZE] at *
    omega
  exact ⟨agree.1,Bool.toNat_eq_one.mp agree.2.1,Bool.toNat_eq_zero.mp agree.2.2⟩

/-- A frame of a usable descriptor has an address. -/
theorem useable_lt (useable : Useable map i) : i * PAGE_SIZE < 2^64 := by
  obtain ⟨desc,_,_,x,_,rfl⟩ := useable
  have word := wrap_lt (desc.physAddr + x * PAGE_SIZE)
  simp only [pageAt,PAGE_SIZE] at *
  omega

/-- For no memory map is the free memory that of the clear frames in every run: where
    they agree at first, locking the frame behind the bitmap sets them apart. -/
theorem not_freeExact (memory : Mem) (map : List EfiMemoryDescriptor) : ¬ FreeExact memory map := by
  intro always
  have limit : (boot.ReadEfiMemoryMap memory map).limit = bmpSize map * 8 := by rw [limit_eq,readEfiMemoryMap_SizeBytes rfl]
  obtain ⟨_,set,clear⟩ := run_freeRAM (.nil _) (always [] _ (.nil _) (fun _ none => absurd none List.not_mem_nil))
  have useable : Useable map (bmpSize map * 8) := by
    rw [limit,← Bool.not_eq_true,readEfiMemoryMap_marks rfl (Nat.le_refl _),withBitmap_bit (Nat.le_refl _),set] at clear
    by_contra unusable
    exact clear (.inl ⟨.inl (by simp),unusable⟩)
  have run : Run (boot.ReadEfiMemoryMap memory map) _ _ :=
    .snoc (.nil _) (.call _ (.LockPage ((boot.ReadEfiMemoryMap memory map).limit * PAGE_SIZE)))
  obtain ⟨_,_,unlocked⟩ := run_freeRAM run (always _ _ run (fun step member => by
    rw [List.nil_append,List.mem_singleton] at member
    subst member
    change (boot.ReadEfiMemoryMap memory map).limit * PAGE_SIZE < 2^64
    rw [limit]
    exact useable_lt useable))
  rw [exec_limit,exec,LockPage,setPage_bit,frame_of_address] at unlocked
  simp at unlocked

/-- Two megabytes are reported, though the bitmap offers eight frames more. -/
theorem twoMegabytes_not_freeExact : ¬ FreeExact (fun _ => 0#8) twoMegabytes := by
  intro always
  obtain ⟨odd,_⟩ := run_freeRAM (.nil _) (always [] _ (.nil _) (fun _ none => absurd none List.not_mem_nil))
  rw [twoMegabytes_pages] at odd
  cases odd

end PageFrameAllocator
end WaifuOS
