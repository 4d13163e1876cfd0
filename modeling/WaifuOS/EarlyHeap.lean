import WaifuOS.HeapRuns

/-!
`malloc` before `InitializeHeap`. The blocks come from the array `earlyMallocBase`, at
an offset that is counted in bytes and used as an index of pointers, so that the
blocks stand eight times as far from each other as they are long. Nothing compares
the offset with the array: a run of early calls keeps to the array exactly when the
sizes do (`early_correct_iff`).
-/
namespace WaifuOS.Kernel
open WaifuOS.Words WaifuOS.Bytes WaifuOS.Tiling

/-- `sizeof(earlyMallocBase)`. -/
def earlyBytes : Nat := 8 * earlyMallocSize

/-- `malloc` calls before the heap is initialized. The calls stand behind each other with the
    size that they ask for and the pointer they return, the last one first. -/
inductive Early (s : Kernel) : Kernel → List (Nat × Nat) → Prop
  | start (fresh : s.HeapInitialized = false) (first : s.baseOffset = 0) : Early s s []
  | call {t u : Kernel} {calls : List (Nat × Nat)} {fuel n p : Nat} (earlier : Early s t calls) (word : n < 2^64)
      (returned : t.malloc fuel n = some (p,u)) : Early s u ((n,p) :: calls)

/-- `kernel.ld` places the array behind the start of the kernel, far from the last address. -/
structure Placed (s : Kernel) : Prop where
  nonzero : s.earlyMallocBase ≠ 0
  below : s.earlyMallocBase + 8 * earlyBytes < 2^64

/-- A block of `n` bytes in the array, apart from earlier ones, that `free` leaves alone. -/
structure EarlyBlock (base : Nat) (earlier : List (Nat × Nat)) (n p : Nat) : Prop where
  inside : base ≤ p ∧ p + n ≤ base + earlyBytes
  apart : ∀ m q, (m,q) ∈ earlier → q ≠ 0 → Apart p n q m
  kept : ∀ t : Kernel, t.earlyMallocBase = base → t.free p = some t

/-- Every pointer that is returned is such a block. -/
def Correct (base : Nat) : List (Nat × Nat) → Prop
  | [] => True
  | (n,p) :: earlier => (p ≠ 0 → EarlyBlock base earlier n p) ∧ Correct base earlier

/-- The offset after calls with these sizes. -/
def taken (calls : List (Nat × Nat)) : Nat := (calls.map (fun call => roundSize call.1)).sum

/-- For every call there is room behind eight times what was taken before it. -/
def Room : List (Nat × Nat) → Prop
  | [] => True
  | (n,_) :: earlier => (roundSize n ≠ 0 → 8 * taken earlier + n ≤ earlyBytes) ∧ Room earlier

variable {s t : Kernel} {calls : List (Nat × Nat)} {n p m q : Nat}

@[simp] theorem taken_nil : taken [] = 0 := rfl
@[simp] theorem taken_cons : taken ((n,p) :: calls) = roundSize n + taken calls := rfl

theorem taken_dvd (calls : List (Nat × Nat)) : 16 ∣ taken calls := by
  induction calls with
  | nil => exact Nat.dvd_zero 16
  | cons call calls ih => exact Nat.dvd_add (roundSize_dvd call.1) ih

/-- Calls for which there is room take less than the bytes of the array. -/
theorem taken_le (room : Room calls) (words : ∀ call ∈ calls, call.1 < 2^64) : taken calls ≤ earlyBytes := by
  induction calls with
  | nil => exact Nat.zero_le _
  | cons call calls ih =>
    obtain ⟨n,p⟩ := call
    obtain ⟨here,earlier⟩ := room
    have before := ih earlier (fun call member => words call (List.mem_cons_of_mem _ member))
    have unit := taken_dvd calls
    rw [taken_cons]
    by_cases zero : roundSize n = 0
    · omega
    · have fits := here zero
      have rounded := roundSize_of_nonzero (words (n,p) (List.mem_cons_self ..)) zero
      rw [rounded]
      unfold roundup16 earlyBytes earlyMallocSize at *
      omega

theorem Early.words (early : Early s t calls) : ∀ call ∈ calls, call.1 < 2^64 := by
  induction early with
  | start => simp
  | call _ word _ ih =>
    intro call member
    rcases List.mem_cons.mp member with rfl | old
    · exact word
    · exact ih call old

/-- What an early call does. -/
theorem malloc_early {fuel : Nat} {u : Kernel} (fresh : t.HeapInitialized = false) (returned : t.malloc fuel n = some (p,u)) :
    u.HeapInitialized = false ∧ u.earlyMallocBase = t.earlyMallocBase ∧
      (p,u.baseOffset) = if roundSize n = 0 then (0,t.baseOffset) else
        (wrap (t.earlyMallocBase + 8 * t.baseOffset),wrap (t.baseOffset + roundSize n)) := by
  cases fuel with
  | zero => cases returned
  | succ fuel =>
    rw [malloc,if_pos (by simp [fresh])] at returned
    have result := Option.some.inj returned
    simp only [earlyMalloc] at result
    by_cases init : t.earlyMallocInit = true <;> by_cases zero : roundSize n = 0
    all_goals
      simp only [init,zero,Bool.not_true,Bool.not_false,Bool.false_eq_true,if_true,if_false] at result ⊢
      cases result
      exact ⟨fresh,rfl,rfl⟩

/-- Between early calls the offset is what was taken, as a word. -/
theorem Early.offset (early : Early s t calls) : t.HeapInitialized = false ∧ t.earlyMallocBase = s.earlyMallocBase ∧
    t.baseOffset = wrap (taken calls) := by
  induction early with
  | start fresh first => exact ⟨fresh,rfl,by rw [first,taken_nil,wrap_of_lt (by decide)]⟩
  | @call t u calls fuel n p earlier word returned ih =>
    obtain ⟨fresh,base,offset⟩ := ih
    obtain ⟨fresh',base',result⟩ := malloc_early fresh returned
    refine ⟨fresh',base'.trans base,?_⟩
    rw [taken_cons]
    by_cases zero : roundSize n = 0
    · rw [if_pos zero] at result
      rw [zero,Nat.zero_add,← offset]
      exact (Prod.mk.inj result).2
    · rw [if_neg zero] at result
      rw [(Prod.mk.inj result).2,offset,wrap_wrap_add,Nat.add_comm]

/-- Where there was room so far, the next pointer is eight times the offset into the array. -/
theorem Early.pointer {u : Kernel} {fuel : Nat} (early : Early s t calls) (placed : Placed s) (room : Room calls)
    (returned : t.malloc fuel n = some (p,u)) :
    p = if roundSize n = 0 then 0 else s.earlyMallocBase + 8 * taken calls := by
  obtain ⟨fresh,base,offset⟩ := early.offset
  obtain ⟨_,_,result⟩ := malloc_early fresh returned
  have small := taken_le room early.words
  have below := placed.below
  by_cases zero : roundSize n = 0
  · rw [if_pos zero] at result ⊢
    exact (Prod.mk.inj result).1
  · rw [if_neg zero] at result ⊢
    rw [(Prod.mk.inj result).1,base,offset,wrap_of_lt (x := taken calls) (by omega),wrap_of_lt (by omega)]

/-- Earlier blocks end below the next one. -/
theorem Early.ends (early : Early s t calls) (placed : Placed s) (room : Room calls) (member : (m,q) ∈ calls)
    (some_block : q ≠ 0) : q + m ≤ s.earlyMallocBase + 8 * taken calls := by
  induction early with
  | start => cases member
  | @call t u calls fuel n p earlier word returned ih =>
    have pointer := earlier.pointer placed room.2 returned
    rw [taken_cons]
    rcases List.mem_cons.mp member with here | old
    · cases here
      have nonzero : roundSize m ≠ 0 := fun zero => some_block (pointer.trans (if_pos zero))
      have rounded := roundSize_of_nonzero word nonzero
      rw [if_neg nonzero] at pointer
      unfold roundup16 at rounded
      omega
    · have before := ih room.2 old
      omega

/-- Room for the next block is what it takes for the next block to be right. -/
theorem Early.block_iff {u : Kernel} {fuel : Nat} (early : Early s t calls) (placed : Placed s) (room : Room calls)
    (returned : t.malloc fuel n = some (p,u)) :
    (p ≠ 0 → EarlyBlock s.earlyMallocBase calls n p) ↔ (roundSize n ≠ 0 → 8 * taken calls + n ≤ earlyBytes) := by
  have pointer := early.pointer placed room returned
  have nonzero := placed.nonzero
  by_cases zero : roundSize n = 0
  · rw [if_pos zero] at pointer
    exact ⟨fun _ some_bytes => absurd zero some_bytes,fun _ some_block => absurd pointer some_block⟩
  · rw [if_neg zero] at pointer
    constructor
    · intro block _
      have inside := (block (by omega)).inside.2
      omega
    · intro fits _
      have room := fits zero
      have some_bytes : n ≠ 0 := fun none => zero (by rw [none,roundSize_eq]; rfl)
      refine ⟨by omega,?_,?_⟩
      · intro m q member some_block
        have before := early.ends placed ‹Room calls› member some_block
        exact .inr (by omega)
      · intro u base
        rw [free,if_neg (by omega)]
        split
        · rfl
        · exact if_pos (by rw [base]; unfold earlyBytes at room; omega)

/-- Early calls return blocks of the array, apart from each other and known to `free`,
    exactly when each has room behind eight times what was taken before it. -/
theorem early_correct_iff (early : Early s t calls) (placed : Placed s) :
    Correct s.earlyMallocBase calls ↔ Room calls := by
  induction early with
  | start => exact Iff.rfl
  | call earlier _ returned ih =>
    constructor
    · rintro ⟨here,before⟩
      have room := ih.mp before
      exact ⟨(earlier.block_iff placed room returned).mp here,room⟩
    · rintro ⟨here,room⟩
      exact ⟨(earlier.block_iff placed room returned).mpr here,ih.mpr room⟩

theorem cleared_placed : Placed cleared := ⟨by decide,by decide⟩

/-- An early call returns. -/
theorem early_returns (early : Early s t calls) (n : Nat) : t.malloc 1 n = some (t.earlyMalloc n) := by
  obtain ⟨fresh,_⟩ := early.offset
  exact if_pos (by simp [fresh])

theorem early_correct_cleared : ∃ t p, Early cleared t [(0x21,p)] ∧ Correct cleared.earlyMallocBase [(0x21,p)] := by
  have start : Early cleared cleared [] := .start rfl rfl
  have early := start.call (by decide) (early_returns start 0x21)
  exact ⟨_,_,early,(early_correct_iff early cleared_placed).mpr ⟨fun _ => by decide,trivial⟩⟩

/-- After a block of 0x4001 bytes the next one stands behind the end of the array. -/
theorem cleared_not_correct : ∃ t p q, Early cleared t [(16,q),(0x4001,p)] ∧
    ¬ Correct cleared.earlyMallocBase [(16,q),(0x4001,p)] := by
  have start : Early cleared cleared [] := .start rfl rfl
  have first := start.call (by decide) (early_returns start 0x4001)
  have second := first.call (by decide) (early_returns first 16)
  refine ⟨_,_,_,second,?_⟩
  intro correct
  have rounded : roundSize 16 = 16 ∧ roundSize 0x4001 = 0x4010 := by
    rw [roundSize_eq,roundSize_eq]
    exact ⟨rfl,rfl⟩
  have fits := (first.block_iff cleared_placed ⟨fun _ => by decide,trivial⟩ (early_returns first 16)).mp correct.1
  rw [rounded.1,taken_cons,rounded.2,taken_nil] at fits
  exact absurd (fits (by decide)) (by decide)

end WaifuOS.Kernel
