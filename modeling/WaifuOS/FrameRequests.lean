import WaifuOS.FrameHistory

/-!
What `RequestPages` hands out. The search ends at the first frame from the hint on
where the look-ahead meets no used page (`Stops`, `requestPages_stops`). The look-ahead
takes the frames behind the bitmap for free, so that the row it finds may reach
past the end. `Fits` says when it does not, and `requestPages_row_iff` that the
answer is a row of clear frames of the bitmap exactly then.
-/
namespace WaifuOS
namespace PageFrameAllocator
open WaifuOS.Words WaifuOS.Bytes

variable {s s' : PageFrameAllocator} {pages fuel answer k n : Nat}

/-- The look-ahead from frame `k` meets no used page. -/
def Row (s : PageFrameAllocator) (pages k : Nat) : Prop :=
  k < s.limit ∧ ∀ x < pages, s.PageBitmap.Get (wrap (k + x)) = false

/-- Frame `k` is the first one from the hint on that starts a row. A count so large
    that the look-ahead wraps can also send the search back to the first frames. -/
def Stops (s : PageFrameAllocator) (pages k : Nat) : Prop :=
  s.LastPageIndex < s.limit ∧ Row s pages k ∧ (∀ j, s.LastPageIndex ≤ j → j < k → ¬ Row s pages j) ∧
    (s.LastPageIndex ≤ k ∨ (2^64 < s.limit + pages ∧ ∀ j, s.LastPageIndex ≤ j → ¬ Row s pages j))

/-- The `pages` frames from `k` on are clear frames of the bitmap, and are handed out. -/
structure HandsOutRow (s : PageFrameAllocator) (pages k : Nat) (s' : PageFrameAllocator) : Prop where
  inside : k + pages ≤ s.limit
  clear : ∀ x < pages, s.used (k + x) = false
  bits : ∀ j, s'.used j = (s.used j || decide (k ≤ j ∧ j < k + pages))
  free : s'.FreeMemory = sub s.FreeMemory (pages * PAGE_SIZE)
  allocated : s'.AllocatedMemory = wrap (s.AllocatedMemory + pages * PAGE_SIZE)

/-- Every answer of `RequestPages` but `nullptr` hands out a row. -/
def AnswersRows (s : PageFrameAllocator) (pages : Nat) : Prop :=
  ∀ fuel answer s', s.RequestPages fuel pages = some (answer,s') → answer ≠ 0 →
    ∃ k, answer = k * PAGE_SIZE ∧ HandsOutRow s pages k s'

/-- Where the search ends there are as many frames before the end of the bitmap. Frame 0
    is left out, since its address is `nullptr`. -/
def Fits (s : PageFrameAllocator) (pages : Nat) : Prop :=
  ∀ k, Stops s pages k → k = 0 ∨ k + pages ≤ s.limit

/-- A row starts with a clear frame. -/
theorem Row.clear (row : Row s pages k) (pos : 0 < pages) : s.used k = false := by
  have first := row.2 0 pos
  have bound := row.1
  have low := s.limit_le
  rwa [Nat.add_zero,wrap_of_lt (by omega),get_eq (by omega)] at first

/-- A used page that the look-ahead finds is in the bitmap. -/
theorem firstUsed_le {x : Nat} (found : firstUsed s.PageBitmap s.LastPageIndex 0 pages = some x) :
    x < pages ∧ s.PageBitmap.Get (wrap (s.LastPageIndex + x)) = true ∧ wrap (s.LastPageIndex + x) ≤ s.limit := by
  obtain ⟨_,bound,taken⟩ := firstUsed_some found
  refine ⟨by omega,taken,?_⟩
  by_contra outside
  rw [BitMap.get_of_gt (show s.limit < wrap (s.LastPageIndex + x) by omega)] at taken
  cases taken

/-- Where the look-ahead finds none the hint starts a row. -/
theorem row_of_none (inside : s.LastPageIndex < s.limit) (found : firstUsed s.PageBitmap s.LastPageIndex 0 pages = none) :
    Row s pages s.LastPageIndex :=
  ⟨inside,fun x small => firstUsed_none.mp found x (Nat.zero_le _) (by omega)⟩

/-- No row that starts between the hint and the used page passes it. -/
theorem not_row_before {x j : Nat} (found : firstUsed s.PageBitmap s.LastPageIndex 0 pages = some x)
    (from_hint : s.LastPageIndex ≤ j) (before : j ≤ s.LastPageIndex + x) : ¬ Row s pages j := by
  intro row
  obtain ⟨bound,taken,_⟩ := firstUsed_le found
  have clear := row.2 (s.LastPageIndex + x - j) (by omega)
  rw [show j + (s.LastPageIndex + x - j) = s.LastPageIndex + x by omega,taken] at clear
  cases clear

/-- A search that moves the hint on over frames that start no row ends where it ended. -/
theorem Stops.advance {h : Nat} (inside : s.LastPageIndex < s.limit) (le : s.LastPageIndex ≤ h)
    (skipped : ∀ j, s.LastPageIndex ≤ j → j < h → ¬ Row s pages j) (later : Stops { s with LastPageIndex := h } pages k) :
    Stops s pages k := by
  obtain ⟨_,row,first,place⟩ := later
  have either : ∀ j, s.LastPageIndex ≤ j → h ≤ j ∨ ¬ Row s pages j := by
    intro j from_hint
    rcases Nat.lt_or_ge j h with before | behind
    · exact .inr (skipped j from_hint before)
    · exact .inl behind
  refine ⟨inside,row,?_,?_⟩
  · intro j from_hint before
    exact (either j from_hint).elim (fun behind => first j behind before) id
  · rcases place with behind | ⟨around,none⟩
    · exact .inl (Nat.le_trans le behind)
    · exact .inr ⟨around,fun j from_hint => (either j from_hint).elim (fun behind => none j behind) id⟩

/-- The row that an answer other than `nullptr` stands for, and the state after it. -/
theorem requestPages_stops (pos : 0 < pages)
    (returned : s.RequestPages fuel pages = some (answer,s')) : answer = 0 ∨
      ∃ k, Stops s pages k ∧ answer = k * PAGE_SIZE ∧ s' = LockPages { s with LastPageIndex := k } (k * PAGE_SIZE) pages := by
  induction fuel generalizing s with
  | zero => cases returned
  | succ fuel ih =>
    have low := s.limit_le
    rcases requestPages_cases returned with ⟨_,null,_⟩ | ⟨inside,marked,later⟩ | ⟨inside,_,x,found,later⟩ | ⟨inside,_,found,answered,after⟩
    · exact .inl null
    · rcases ih later with null | ⟨k,stops,answered,after⟩
      · exact .inl null
      · refine .inr ⟨k,stops.advance inside (Nat.le_succ _) ?_,answered,after⟩
        intro j from_hint before row
        obtain rfl : j = s.LastPageIndex := by omega
        rw [row.clear pos] at marked
        cases marked
    · obtain ⟨bound,_,_⟩ := firstUsed_le found
      rcases ih later with null | ⟨k,stops,answered,after⟩
      · exact .inl null
      · refine .inr ⟨k,?_,answered,after⟩
        by_cases ahead : s.LastPageIndex + x < 2^64
        · rw [wrap_of_lt ahead] at stops
          exact stops.advance inside (Nat.le_add_right _ _) (fun j from_hint before => not_row_before found from_hint (by omega))
        · have none : ∀ j, s.LastPageIndex ≤ j → ¬ Row s pages j := by
            intro j from_hint row
            have inBound := row.1
            exact not_row_before found from_hint (by omega) row
          exact ⟨inside,stops.2.1,fun j from_hint _ => none j from_hint,.inr ⟨by omega,none⟩⟩
    · have row := row_of_none inside found
      exact .inr ⟨s.LastPageIndex,⟨inside,row,fun j low high => by omega,.inl (Nat.le_refl _)⟩,answered,after⟩

/-- The search reaches the first row from the hint on. -/
theorem requestPages_reaches (pos : 0 < pages) (row : Row s pages k) (from_hint : s.LastPageIndex ≤ k)
    (first : ∀ j, s.LastPageIndex ≤ j → j < k → ¬ Row s pages j) :
    ∃ fuel s', s.RequestPages fuel pages = some (k * PAGE_SIZE,s') := by
  obtain ⟨d,reach⟩ := Nat.exists_eq_add_of_le from_hint
  have low := s.limit_le
  have bound := row.1
  induction d using Nat.strong_induction_on generalizing s with
  | _ d ih =>
    have inside : s.LastPageIndex < s.limit := by omega
    rcases Nat.eq_zero_or_pos d with rfl | ahead
    · obtain rfl : k = s.LastPageIndex := by omega
      have clear := row.clear pos
      have found : firstUsed s.PageBitmap s.LastPageIndex 0 pages = none :=
        firstUsed_none.mpr (fun x _ small => row.2 x (by omega))
      refine ⟨1,s.LockPages (s.LastPageIndex * PAGE_SIZE) pages,?_⟩
      rw [RequestPages,if_pos inside,get_eq (Nat.le_of_lt inside),clear,if_neg (by simp),found,frame_address inside]
    · -- Moving the hint on to `h` leaves a shorter way to the row.
      have onward : ∀ h, s.LastPageIndex < h → h ≤ k →
          ∃ fuel s', RequestPages fuel { s with LastPageIndex := h } pages = some (k * PAGE_SIZE,s') := by
        intro h later before
        exact ih (k-h) (by omega) (s := { s with LastPageIndex := h }) row before
          (fun j behind => first j (Nat.le_trans (Nat.le_of_lt later) behind)) (by simp only; omega) low bound
      cases marked : s.used s.LastPageIndex with
      | true =>
        obtain ⟨fuel,s',returned⟩ := onward (s.LastPageIndex + 1) (by omega) (by omega)
        refine ⟨fuel+1,s',?_⟩
        rw [RequestPages,if_pos inside,get_eq (Nat.le_of_lt inside),marked,if_pos rfl,returned]
      | false =>
        cases found : firstUsed s.PageBitmap s.LastPageIndex 0 pages with
        | none =>
          exact absurd (row_of_none inside found) (first s.LastPageIndex (Nat.le_refl _) (by omega))
        | some x =>
          obtain ⟨small,taken,_⟩ := firstUsed_le found
          have before : s.LastPageIndex + x ≤ k := by
            by_contra behind
            exact not_row_before found from_hint (by omega) row
          have moves : 0 < x := by
            apply Nat.pos_of_ne_zero
            rintro rfl
            rw [Nat.add_zero,wrap_of_lt (by omega),get_eq (by omega),marked] at taken
            cases taken
          obtain ⟨fuel,s',returned⟩ := onward (s.LastPageIndex + x) (by omega) before
          refine ⟨fuel+1,s',?_⟩
          rw [RequestPages,if_pos inside,get_eq (Nat.le_of_lt inside),marked,if_neg (by simp),found]
          simp only [wrap_of_lt (show s.LastPageIndex + x < 2^64 by omega),returned]

/-- Where a row starts at or behind the hint, the search ends at one. -/
theorem requestPages_row (pos : 0 < pages) (row : Row s pages k) (from_hint : s.LastPageIndex ≤ k) :
    ∃ j fuel s', s.LastPageIndex ≤ j ∧ Row s pages j ∧ s.RequestPages fuel pages = some (j * PAGE_SIZE,s') := by
  classical
  have some_row : ∃ j, s.LastPageIndex ≤ j ∧ Row s pages j := ⟨k,from_hint,row⟩
  obtain ⟨behind,here⟩ := Nat.find_spec some_row
  obtain ⟨fuel,s',returned⟩ := requestPages_reaches pos here behind
    (fun j later before row => Nat.find_min some_row before ⟨later,row⟩)
  exact ⟨_,fuel,s',behind,here,returned⟩

/-- Where the look-ahead wraps and no row starts behind the hint, the search comes back
    to the rows before it. -/
theorem requestPages_around (row : Row s pages k) (inside : s.LastPageIndex < s.limit) (before : k < s.LastPageIndex)
    (word : pages < 2^64) (around : 2^64 < s.limit + pages) (none : ¬ Row s pages s.LastPageIndex) :
    ∃ j fuel s', j ≠ 0 ∧ Row s pages j ∧ s.RequestPages fuel pages = some (j * PAGE_SIZE,s') := by
  have low := s.limit_le
  -- The row from `k` on passes the hint and the end of the bitmap.
  have clear : ∀ i, k ≤ i → i ≤ s.limit → s.PageBitmap.Get i = false := by
    intro i behind inBound
    have free := row.2 (i-k) (by omega)
    rwa [show k + (i-k) = i by omega,wrap_of_lt (by omega)] at free
  have unmarked := clear s.LastPageIndex (by omega) (by omega)
  cases found : firstUsed s.PageBitmap s.LastPageIndex 0 pages with
  | none => exact absurd (row_of_none inside found) none
  | some x =>
    obtain ⟨small,taken,inBound⟩ := firstUsed_le found
    set h := wrap (s.LastPageIndex + x) with hIs
    have back : h < k := by
      by_contra behind
      rw [clear h (by omega) inBound] at taken
      cases taken
    obtain ⟨j,fuel,s',behind,row',returned⟩ := requestPages_row (s := { s with LastPageIndex := h }) (by omega) row
      (Nat.le_of_lt back)
    refine ⟨j,fuel+1,s',?_,row',?_⟩
    · rintro rfl
      have start : h = 0 := Nat.le_zero.mp behind
      have free := row'.clear (by omega)
      change s.used 0 = false at free
      rw [start,get_eq (Nat.zero_le _),free] at taken
      cases taken
    · rw [RequestPages,if_pos inside,unmarked,if_neg (by simp),found]
      exact returned

/-- Locking a clear frame of the bitmap. -/
theorem lockPage_row (inside : k < s.limit) (clear : s.used k = false) :
    HandsOutRow s 1 k (s.LockPage (k * PAGE_SIZE)) := by
  have bound : k * PAGE_SIZE / PAGE_SIZE ≤ s.limit := by rw [frame_of_address]; exact Nat.le_of_lt inside
  have done : s.LockPage (k * PAGE_SIZE) = (s.setBit k true).charge .Allocated := by
    rw [LockPage,setPage_clear bound (by rw [frame_of_address]; exact clear),frame_of_address]
  refine ⟨inside,?_,?_,?_,?_⟩
  · intro x small
    rw [show k + x = k by omega]
    exact clear
  · intro j
    have same : (j = k ∧ j ≤ s.limit) ↔ (k ≤ j ∧ j < k + 1) := by omega
    rw [LockPage,setPage_bit,frame_of_address]
    simp only [same]
  · rw [done,Nat.one_mul]
    simp only [charge,setBit]
  · rw [done,Nat.one_mul]
    simp only [charge,setBit]

/-- A row that is handed out, and then the frame behind it. -/
theorem HandsOutRow.append {t : PageFrameAllocator} (first : HandsOutRow s n k s') (same : s'.limit = s.limit)
    (second : HandsOutRow s' 1 (k+n) t) : HandsOutRow s (n+1) k t := by
  have free : s'.used (k+n) = false := second.clear 0 (by decide)
  have unmarked : s.used (k+n) = false := by
    rw [first.bits,Bool.or_eq_false_iff] at free
    exact free.1
  have size : (n+1) * PAGE_SIZE = n * PAGE_SIZE + 1 * PAGE_SIZE := Nat.add_mul n 1 PAGE_SIZE
  refine ⟨?_,?_,?_,?_,?_⟩
  · have inside := second.inside
    omega
  · intro x small
    rcases Nat.lt_succ_iff_lt_or_eq.mp small with before | rfl
    · exact first.clear x before
    · exact unmarked
  · intro j
    have either : (k ≤ j ∧ j < k + (n+1)) ↔ (k ≤ j ∧ j < k + n) ∨ (k + n ≤ j ∧ j < k + n + 1) := by omega
    rw [second.bits,first.bits,Bool.or_assoc]
    congr 1
    rw [← Bool.decide_or]
    exact decide_eq_decide.mpr either.symm
  · rw [second.free,first.free,sub_sub_word,size]
  · rw [second.allocated,first.allocated,wrap_wrap_add,size,Nat.add_assoc]

/-- Locking a row of clear frames of the bitmap hands it out. -/
theorem lockPages_row (inside : k + (n+1) ≤ s.limit) (clear : ∀ x < n+1, s.used (k + x) = false) :
    HandsOutRow s (n+1) k (s.LockPages (k * PAGE_SIZE) (n+1)) := by
  have low := s.limit_le
  induction n with
  | zero =>
    have first : wrap (k * PAGE_SIZE + 0 * PAGE_SIZE) = k * PAGE_SIZE := by rw [Nat.zero_mul,Nat.add_zero,frame_address (s := s) (by omega)]
    have here := lockPage_row (show k < s.limit by omega) (clear 0 (by decide))
    rw [LockPages,forPages,forPages,first]
    exact here
  | succ n ih =>
    have row := ih (by omega) (fun x small => clear x (by omega))
    have same : (s.LockPages (k * PAGE_SIZE) (n+1)).limit = s.limit := setPages_limit
    have place : wrap (k * PAGE_SIZE + (n+1) * PAGE_SIZE) = (k + (n+1)) * PAGE_SIZE := by
      rw [← Nat.add_mul,frame_address (s := s) (by omega)]
    have free : (s.LockPages (k * PAGE_SIZE) (n+1)).used (k + (n+1)) = false := by
      have behind : ¬ (k ≤ k + (n+1) ∧ k + (n+1) < k + (n+1)) := by omega
      rw [row.bits,clear (n+1) (by omega),decide_eq_false behind]
      rfl
    have last := lockPage_row (s := s.LockPages (k * PAGE_SIZE) (n+1)) (by rw [same]; omega) free
    rw [← place] at last
    exact row.append same last

/-- `RequestPages` answers with rows of clear frames of the bitmap exactly where the
    rows that it finds end before the bitmap does. -/
theorem requestPages_row_iff (s : PageFrameAllocator) (pages : Nat) (pos : 1 ≤ pages) (word : pages < 2^64) :
    AnswersRows s pages ↔ Fits s pages := by
  constructor
  · intro answers k ⟨inside,row,first,place⟩
    rcases Nat.eq_zero_or_pos k with null | above
    · exact .inl null
    · rcases place with from_hint | ⟨around,none⟩
      · obtain ⟨fuel,s',returned⟩ := requestPages_reaches pos row from_hint first
        obtain ⟨j,same,hands⟩ := answers fuel _ s' returned (Nat.mul_ne_zero (by omega) (by decide))
        rw [frame_injective same]
        exact .inr hands.inside
      · obtain ⟨j,fuel,s',nonzero,_,returned⟩ := requestPages_around row inside (by
          by_contra behind
          exact none k (by omega) row) word around (none _ (Nat.le_refl _))
        obtain ⟨i,_,hands⟩ := answers fuel _ s' returned (Nat.mul_ne_zero nonzero (by decide))
        have bound := hands.inside
        have low := s.limit_le
        omega
  · intro fits fuel answer s' returned nonnull
    rcases requestPages_stops pos returned with null | ⟨k,stops,rfl,rfl⟩
    · exact absurd null nonnull
    · have bound : k + pages ≤ s.limit := (fits k stops).resolve_left (by rintro rfl; simp at nonnull)
      have low := s.limit_le
      have clear : ∀ x < pages, s.used (k + x) = false := by
        intro x small
        have free := stops.2.1.2 x small
        rwa [wrap_of_lt (by omega),get_eq (by omega)] at free
      obtain ⟨n,rfl⟩ := Nat.exists_eq_add_of_le' pos
      have row := lockPages_row (s := { s with LastPageIndex := k }) bound clear
      exact ⟨k,rfl,row.inside,row.clear,row.bits,row.free,row.allocated⟩

theorem twoMegabytes_limit : (boot.ReadEfiMemoryMap (fun _ => 0#8) twoMegabytes).limit = 0x208 := by
  rw [readEfiMemoryMap_limit rfl,twoMegabytes_pages]

/-- Behind the first megabyte and the bitmap every look-ahead is free. -/
theorem twoMegabytes_row (pages : Nat) (low : 0x100 < k) (inside : k < 0x208) (word : pages < 2^63) :
    Row (boot.ReadEfiMemoryMap (fun _ => 0#8) twoMegabytes) pages k := by
  refine ⟨by rw [twoMegabytes_limit]; exact inside,?_⟩
  intro x small
  rw [wrap_of_lt (by omega)]
  rcases Nat.lt_or_ge 0x208 (k + x) with behind | before
  · exact BitMap.get_of_gt (show limit _ < k + x by rw [twoMegabytes_limit]; exact behind)
  · rw [get_eq (by rw [twoMegabytes_limit]; exact before),twoMegabytes_marks before]
    exact decide_eq_false (by omega)

/-- After initialisation a request for two pages is answered with two frames. -/
theorem requestPages_row_two : AnswersRows (boot.ReadEfiMemoryMap (fun _ => 0#8) twoMegabytes) 2 := by
  refine (requestPages_row_iff _ 2 (by decide) (by decide)).mpr (fun k stops => .inr ?_)
  obtain ⟨_,_,first,_⟩ := stops
  rw [twoMegabytes_limit]
  by_contra late
  refine first 0x101 ?_ (by omega) (twoMegabytes_row _ (by decide) (by decide) (by decide))
  rw [readEfiMemoryMap_LastPageIndex rfl rfl]
  exact Nat.zero_le _

/-- Two megabytes have no row of 512 free frames, but a request for them is answered. -/
theorem twoMegabytes_not_rows : ¬ AnswersRows (boot.ReadEfiMemoryMap (fun _ => 0#8) twoMegabytes) 0x200 := by
  intro answers
  have row := twoMegabytes_row 0x200 (show 0x100 < 0x101 by decide) (by decide) (by decide)
  have first : ∀ j, (boot.ReadEfiMemoryMap (fun _ => 0#8) twoMegabytes).LastPageIndex ≤ j → j < 0x101 →
      ¬ Row (boot.ReadEfiMemoryMap (fun _ => 0#8) twoMegabytes) 0x200 j := by
    intro j _ before covered
    have clear := covered.clear (by decide)
    rw [twoMegabytes_marks (by omega),decide_eq_false_iff_not] at clear
    omega
  obtain ⟨fuel,s',returned⟩ := requestPages_reaches (by decide) row
    (by rw [readEfiMemoryMap_LastPageIndex rfl rfl]; exact Nat.zero_le _) first
  obtain ⟨k,same,hands⟩ := answers fuel _ s' returned (by decide)
  have inside := hands.inside
  rw [← frame_injective same,twoMegabytes_limit] at inside
  omega

end PageFrameAllocator
end WaifuOS
