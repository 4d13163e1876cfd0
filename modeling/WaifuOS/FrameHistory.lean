import WaifuOS.EfiMap

/-!
Histories of the page frame allocator. A marked frame stays marked until a call
frees it (`run_used`), so a frame that was handed out or locked is not handed out
again (`requestPage_history`). The hint stays below every clear frame
(`HintLow`) through all calls but one: `RequestPages` moves it past the clear
frames in front of a used one. `Meets` says when a call keeps the hint low, and
`hint_iff` that exactly these calls do.
-/
namespace WaifuOS
namespace PageFrameAllocator
open WaifuOS.Words WaifuOS.Bytes

/-- The calls on single frames and on ranges. -/
inductive Call
  | RequestPage
  | FreePage (address : Nat)
  | LockPage (address : Nat)
  | FreePages (address count : Nat)
  | LockPages (address count : Nat)
deriving DecidableEq

/-- The allocator after a call. -/
def exec (s : PageFrameAllocator) : Call → PageFrameAllocator
  | .RequestPage => s.RequestPage.2
  | .FreePage address => s.FreePage address
  | .LockPage address => s.LockPage address
  | .FreePages address count => s.FreePages address count
  | .LockPages address count => s.LockPages address count

/-- The allocator after a sequence of calls. -/
def run (s : PageFrameAllocator) (calls : List Call) : PageFrameAllocator := calls.foldl exec s

/-- The call frees frame `f`. -/
def Frees : Call → Nat → Prop
  | .FreePage address, f => f = address / PAGE_SIZE
  | .FreePages address count, f => Covers address count f
  | _, _ => False

/-- The call, made in state `s`, returns frame `f` or locks it. -/
def Takes (s : PageFrameAllocator) : Call → Nat → Prop
  | .RequestPage, f => s.RequestPage.1 ≠ 0 ∧ s.RequestPage.1 = f * PAGE_SIZE
  | .LockPage address, f => f = address / PAGE_SIZE
  | .LockPages address count, f => Covers address count f
  | _, _ => False

variable {s : PageFrameAllocator} {f : Nat}

theorem exec_limit (call : Call) : (s.exec call).limit = s.limit := by
  cases call with
  | RequestPage => rw [exec,RequestPage_eq]; exact requestFrame_limit
  | FreePage address => exact clearPage_limit
  | LockPage address => exact setPage_limit
  | FreePages address count => exact clearPages_limit
  | LockPages address count => exact setPages_limit

theorem run_limit (calls : List Call) : (s.run calls).limit = s.limit := by
  induction calls generalizing s with
  | nil => rfl
  | cons call calls ih => exact (ih (s := s.exec call)).trans (exec_limit call)

/-- A marked frame stays marked through a call that does not free it. -/
theorem exec_used (call : Call) (kept : ¬ Frees call f) (marked : s.used f = true) : (s.exec call).used f = true := by
  cases call with
  | RequestPage =>
    rw [exec,RequestPage_eq]
    rcases answer : s.requestFrame with ⟨_ | i,s'⟩
    · rw [requestFrame_none_bit answer]; exact marked
    · simp [requestFrame_bit answer,marked]
  | FreePage address =>
    have apart : ¬ (f = address / PAGE_SIZE ∧ f ≤ s.limit) := fun both => kept both.1
    rw [exec,FreePage,clearPage_bit]
    simp [marked,apart]
  | LockPage address => rw [exec,LockPage,setPage_bit]; simp [marked]
  | FreePages address count =>
    rw [exec,FreePages,FreePage,clearPages_bit]
    exact ⟨marked,fun both => kept both.1⟩
  | LockPages address count =>
    rw [exec,LockPages,LockPage,setPages_bit]
    exact .inl marked

/-- A marked frame stays marked through calls that do not free it. -/
theorem run_used (calls : List Call) (kept : ∀ call ∈ calls, ¬ Frees call f) (marked : s.used f = true) :
    (s.run calls).used f = true := by
  induction calls generalizing s with
  | nil => exact marked
  | cons call calls ih =>
    exact ih (fun later member => kept later (by simp [member])) (exec_used call (kept call (by simp)) marked)

/-- What a call takes is marked after it. -/
theorem takes_used (call : Call) (takes : Takes s call f) (inside : f < s.limit) : (s.exec call).used f = true := by
  cases call with
  | RequestPage =>
    obtain ⟨nonnull,same⟩ := takes
    rw [exec]
    rw [RequestPage_eq] at nonnull same ⊢
    rcases answer : s.requestFrame with ⟨_ | i,s'⟩
    · rw [answer] at nonnull; exact absurd rfl nonnull
    · rw [answer] at same
      have frame : i = f := frame_injective same
      simp [requestFrame_bit answer,frame]
  | FreePage address => exact takes.elim
  | LockPage address =>
    rw [exec,LockPage,setPage_bit]
    simp only [Bool.or_eq_true,decide_eq_true_eq]
    exact .inr ⟨takes,Nat.le_of_lt inside⟩
  | FreePages address count => exact takes.elim
  | LockPages address count =>
    rw [exec,LockPages,LockPage,setPages_bit]
    exact .inr ⟨takes,Nat.le_of_lt inside⟩

/-- What a non-null answer of `RequestPage` does. -/
structure HandsOut (s : PageFrameAllocator) (i : Nat) : Prop where
  answer : s.RequestPage.1 = i * PAGE_SIZE
  inside : i < s.limit
  clear : s.used i = false
  bits : ∀ j, s.RequestPage.2.used j = (s.used j || decide (j = i))
  free : s.RequestPage.2.FreeMemory = sub s.FreeMemory PAGE_SIZE
  allocated : s.RequestPage.2.AllocatedMemory = wrap (s.AllocatedMemory + PAGE_SIZE)

theorem requestPage_handsOut (nonnull : s.RequestPage.1 ≠ 0) : ∃ i, HandsOut s i := by
  rw [RequestPage_eq] at nonnull
  rcases answer : s.requestFrame with ⟨_ | i,s'⟩
  · rw [answer] at nonnull; exact absurd rfl nonnull
  · obtain ⟨_,inside,_,clear,after⟩ := requestFrame_some answer
    have state : s.RequestPage.2 = s' := by rw [RequestPage_eq,answer]
    have charged : s' = ((setBit { s with LastPageIndex := i } i true).charge .Allocated) := by
      rw [after,LockPage,setPage_clear (by rw [frame_of_address]; exact Nat.le_of_lt inside)
        (by rw [frame_of_address]; exact clear),frame_of_address]
    refine ⟨i,by rw [RequestPage_eq,answer],inside,clear,?_,?_,?_⟩
    · intro j
      rw [state]; exact requestFrame_bit answer
    · rw [state,charged]; simp only [charge,setBit]
    · rw [state,charged]; simp only [charge,setBit]

/-- In every history, a frame that was returned or locked is not returned again
    before it is freed, and each answer takes one clear frame and nothing else. -/
theorem requestPage_history (s : PageFrameAllocator) :
    (∀ pre taker mid f, Takes (s.run pre) taker f → (∀ call ∈ mid, ¬ Frees call f) →
      (s.run (pre ++ taker :: mid)).RequestPage.1 = 0 ∨ (s.run (pre ++ taker :: mid)).RequestPage.1 ≠ f * PAGE_SIZE) ∧
    (∀ pre, (s.run pre).RequestPage.1 ≠ 0 → ∃ i, HandsOut (s.run pre) i) := by
  refine ⟨?_,fun pre nonnull => requestPage_handsOut nonnull⟩
  intro pre taker mid f takes kept
  by_contra both
  rw [not_or,not_not] at both
  obtain ⟨nonnull,same⟩ := both
  obtain ⟨i,hands⟩ := requestPage_handsOut nonnull
  have frame : f = i := frame_injective (same.symm.trans hands.answer)
  have inside : f < (s.run pre).limit := by
    have := hands.inside
    rw [run_limit] at this ⊢
    omega
  have marked : ((s.run pre).exec taker).used f = true := takes_used taker takes inside
  have later : (s.run (pre ++ taker :: mid)).used f = true := by
    have whole : s.run (pre ++ taker :: mid) = ((s.run pre).exec taker).run mid := by simp [run]
    rw [whole]
    exact run_used mid kept marked
  rw [frame,hands.clear] at later
  cases later

/-! ### The hint -/

/-- A call of the allocator, or a call of `RequestPages`. -/
inductive Event
  | call (call : Call)
  | RequestPages (pages : Nat)
deriving DecidableEq

/-- An event leads from one state to another; a call that never returns leads nowhere. -/
inductive Step : PageFrameAllocator → Event → PageFrameAllocator → Prop
  | call (s : PageFrameAllocator) (call : Call) : Step s (.call call) (s.exec call)
  | RequestPages {s s' : PageFrameAllocator} {pages fuel answer : Nat} (word : pages < 2^64)
      (returned : s.RequestPages fuel pages = some (answer,s')) : Step s (.RequestPages pages) s'

/-- Every frame below the hint is used, and `RequestPage` answers `nullptr` only
    when every frame in range is. -/
structure HintLow (s : PageFrameAllocator) : Prop where
  below : ∀ i < s.LastPageIndex, s.used i = true
  exhausted : s.RequestPage.1 = 0 → ∀ i < s.limit, s.used i = true

/-- Frame `i` is the first clear one from the hint on. -/
def FirstClear (s : PageFrameAllocator) (i : Nat) : Prop :=
  s.LastPageIndex ≤ i ∧ i < s.limit ∧ s.used i = false ∧ ∀ j, s.LastPageIndex ≤ j → j < i → s.used j = true

/-- The call keeps the hint low: the first clear frame starts a row of as many clear
    pages as are requested, and frame 0, whose address is `nullptr`, is not freed. -/
def Meets (s : PageFrameAllocator) : Event → Prop
  | .RequestPages pages => ∀ i, FirstClear s i → ∀ x < pages, s.PageBitmap.Get (wrap (i + x)) = false
  | .call call => ¬ Frees call 0

/-- A run of events through the states it reaches, the first included. -/
inductive Run : PageFrameAllocator → List (PageFrameAllocator × Event) → PageFrameAllocator → Prop
  | nil (s : PageFrameAllocator) : Run s [] s
  | snoc {s t u : PageFrameAllocator} {steps : List (PageFrameAllocator × Event)} {e : Event}
      (before : Run s steps t) (step : Step t e u) : Run s (steps ++ [(t,e)]) u

variable {s' : PageFrameAllocator} {pages fuel answer : Nat}

/-- Every frame below the hint is used. -/
def Below (s : PageFrameAllocator) : Prop := ∀ i < s.LastPageIndex, s.used i = true

/-- The hint is low when every frame below it is used, and frame 0 is. -/
theorem hintLow_iff (pos : 0 < s.limit) : HintLow s ↔ Below s ∧ s.used 0 = true := by
  constructor
  · rintro ⟨below,exhausted⟩
    refine ⟨below,?_⟩
    rcases request : s.requestFrame with ⟨_ | i,s'⟩
    · exact exhausted (by rw [RequestPage_eq,request]) 0 pos
    · obtain ⟨low,_,between,_,_⟩ := requestFrame_some request
      rcases Nat.eq_zero_or_pos i with rfl | above
      · exact exhausted (by rw [RequestPage_eq,request]; simp) 0 pos
      · rcases Nat.eq_zero_or_pos s.LastPageIndex with start | started
        · exact between 0 (by omega) above
        · exact below 0 started
  · rintro ⟨below,first⟩
    refine ⟨below,?_⟩
    intro null i inside
    rw [RequestPage_eq] at null
    rcases request : s.requestFrame with ⟨_ | j,s'⟩
    · by_cases early : i < s.LastPageIndex
      · exact below i early
      · exact (requestFrame_none request).1 i (by omega) inside
    · rw [request] at null
      have frame : j = 0 := (Nat.mul_eq_zero.mp null).resolve_right (by decide)
      obtain ⟨_,_,_,clear,_⟩ := requestFrame_some request
      rw [frame,first] at clear
      cases clear

theorem below_setPage {account : Account} {address : Nat} (below : Below s) : Below (setPage account s address) := by
  intro i early
  rw [setPage_LastPageIndex] at early
  rw [setPage_bit,below i early]
  rfl

theorem below_clearPage {account : Account} {address : Nat} (below : Below s) : Below (clearPage account s address) := by
  intro i early
  rw [clearPage_LastPageIndex] at early
  rw [clearPage_bit]
  split at early
  · rw [below i (by omega)]
    have apart : ¬ (i = address / PAGE_SIZE ∧ i ≤ s.limit) := by omega
    simp [apart]
  · rename_i kept
    rw [below i early]
    have apart : ¬ (i = address / PAGE_SIZE ∧ i ≤ s.limit) := by
      rintro ⟨rfl,inside⟩
      exact kept ⟨inside,below _ early⟩
    simp [apart]

theorem forPages_keeps {op : PageFrameAllocator → Nat → PageFrameAllocator} {P : PageFrameAllocator → Prop}
    (keeps : ∀ s address, P s → P (op s address)) (holds : P s) (address count : Nat) :
    P (forPages op s address count) := by
  induction count with
  | zero => exact holds
  | succ count ih => exact keeps _ _ ih

/-- Every call but `RequestPages` keeps the frames below the hint used. -/
theorem below_exec (call : Call) (below : Below s) : Below (s.exec call) := by
  cases call with
  | RequestPage =>
    rw [exec,RequestPage_eq]
    rcases request : s.requestFrame with ⟨_ | j,s'⟩
    · obtain ⟨between,rfl⟩ := requestFrame_none request
      intro i early
      by_cases low : i < s.LastPageIndex
      · exact below i low
      · exact between i (by omega) (by simp only at early; omega)
    · obtain ⟨_,_,between,_,rfl⟩ := requestFrame_some request
      apply below_setPage
      intro i early
      by_cases low : i < s.LastPageIndex
      · exact below i low
      · exact between i (by omega) early
  | FreePage address => exact below_clearPage below
  | LockPage address => exact below_setPage below
  | FreePages address count => exact forPages_keeps (fun _ _ => below_clearPage) below address count
  | LockPages address count => exact forPages_keeps (fun _ _ => below_setPage) below address count

/-- A call that frees frame 0 leaves it clear. -/
theorem exec_frees (call : Call) (frees : Frees call f) (inside : f ≤ s.limit) : (s.exec call).used f = false := by
  cases call with
  | FreePage address => 
    have here : f = address / PAGE_SIZE ∧ f ≤ s.limit := ⟨frees,inside⟩
    rw [exec,FreePage,clearPage_bit,decide_eq_true here]
    simp
  | FreePages address count =>
    rw [exec,FreePages,FreePage,← Bool.not_eq_true,clearPages_bit]
    exact fun kept => kept.2 ⟨frees,inside⟩
  | RequestPage => exact frees.elim
  | LockPage address => exact frees.elim
  | LockPages address count => exact frees.elim

/-- Moving the hint past a used frame keeps what comes first. -/
theorem firstClear_advance {i : Nat} (marked : s.used s.LastPageIndex = true) :
    FirstClear { s with LastPageIndex := s.LastPageIndex + 1 } i ↔ FirstClear s i := by
  constructor
  · rintro ⟨low,inside,clear,between⟩
    refine ⟨by simp only at low; omega,inside,clear,?_⟩
    intro j from_hint before
    rcases Nat.eq_or_lt_of_le from_hint with rfl | later
    · exact marked
    · exact between j later before
  · rintro ⟨low,inside,clear,between⟩
    refine ⟨?_,inside,clear,fun j from_hint before => between j (by simp only at from_hint; omega) before⟩
    rcases Nat.eq_or_lt_of_le low with rfl | later
    · rw [marked] at clear; cases clear
    · exact later

/-- The four ways a round of `RequestPages` can go. -/
theorem requestPages_cases (returned : s.RequestPages (fuel+1) pages = some (answer,s')) :
    (s.limit ≤ s.LastPageIndex ∧ answer = 0 ∧ s' = s) ∨
    (s.LastPageIndex < s.limit ∧ s.used s.LastPageIndex = true ∧
      RequestPages fuel { s with LastPageIndex := s.LastPageIndex + 1 } pages = some (answer,s')) ∨
    (s.LastPageIndex < s.limit ∧ s.used s.LastPageIndex = false ∧
      ∃ x, firstUsed s.PageBitmap s.LastPageIndex 0 pages = some x ∧
        RequestPages fuel { s with LastPageIndex := wrap (s.LastPageIndex + x) } pages = some (answer,s')) ∨
    (s.LastPageIndex < s.limit ∧ s.used s.LastPageIndex = false ∧
      firstUsed s.PageBitmap s.LastPageIndex 0 pages = none ∧ answer = s.LastPageIndex * PAGE_SIZE ∧
        s' = s.LockPages (s.LastPageIndex * PAGE_SIZE) pages) := by
  rw [RequestPages] at returned
  by_cases inside : s.LastPageIndex < s.limit
  · rw [if_pos inside,get_eq (Nat.le_of_lt inside)] at returned
    cases marked : s.used s.LastPageIndex with
    | true =>
      rw [marked,if_pos rfl] at returned
      exact .inr (.inl ⟨inside,rfl,returned⟩)
    | false =>
      rw [marked,if_neg (by simp)] at returned
      cases row : firstUsed s.PageBitmap s.LastPageIndex 0 pages with
      | some x =>
        rw [row] at returned
        exact .inr (.inr (.inl ⟨inside,rfl,x,rfl,returned⟩))
      | none =>
        rw [row,frame_address inside] at returned
        cases returned
        exact .inr (.inr (.inr ⟨inside,rfl,rfl,rfl,rfl⟩))
  · rw [if_neg inside] at returned
    cases returned
    exact .inl ⟨by omega,rfl,rfl⟩

/-- `RequestPages` keeps the frames below the hint used where the first clear frame
    starts a clear row, and unmarks nothing. -/
theorem requestPages_below (below : Below s) (meets : Meets s (.RequestPages pages))
    (returned : s.RequestPages fuel pages = some (answer,s')) :
    Below s' ∧ ∀ j, s.used j = true → s'.used j = true := by
  induction fuel generalizing s with
  | zero => cases returned
  | succ fuel ih =>
    rcases requestPages_cases returned with ⟨_,_,rfl⟩ | ⟨_,marked,later⟩ | ⟨inside,clear,x,row,_⟩ | ⟨_,_,_,_,rfl⟩
    · exact ⟨below,fun _ used => used⟩
    · have advanced : Below { s with LastPageIndex := s.LastPageIndex + 1 } := by
        intro i early
        rcases Nat.lt_succ_iff_lt_or_eq.mp early with lt | rfl
        · exact below i lt
        · exact marked
      exact ih (s := { s with LastPageIndex := s.LastPageIndex + 1 }) advanced
        (fun i first => meets i ((firstClear_advance marked).mp first)) later
    · -- The first clear frame starts a clear row, so the row check finds nothing.
      obtain ⟨_,bound,taken⟩ := firstUsed_some row
      have free := meets s.LastPageIndex ⟨Nat.le_refl _,inside,clear,fun j low high => by omega⟩ x (by omega)
      rw [taken] at free
      cases free
    · refine ⟨forPages_keeps (fun _ _ => below_setPage) below _ _,?_⟩
      intro j used
      rw [LockPages,LockPage,setPages_bit]
      exact .inl used

/-- A used page found at an offset lies in the bitmap, above the hint. -/
theorem firstUsed_inside {x : Nat} (inside : s.LastPageIndex < s.limit) (clear : s.used s.LastPageIndex = false)
    (bounded : s.limit + pages ≤ 2^52) (row : firstUsed s.PageBitmap s.LastPageIndex 0 pages = some x) :
    wrap (s.LastPageIndex + x) = s.LastPageIndex + x ∧ 0 < x ∧ s.LastPageIndex + x ≤ s.limit := by
  obtain ⟨_,bound,taken⟩ := firstUsed_some row
  have exact_sum : wrap (s.LastPageIndex + x) = s.LastPageIndex + x := wrap_of_lt (by omega)
  rw [exact_sum] at taken
  refine ⟨exact_sum,Nat.pos_of_ne_zero ?_,?_⟩
  · rintro rfl
    rw [Nat.add_zero,get_eq (Nat.le_of_lt inside),clear] at taken
    cases taken
  · by_contra outside
    rw [BitMap.get_of_gt (show s.limit < s.LastPageIndex + x by omega)] at taken
    cases taken

/-- Once the hint is past a clear frame, `RequestPages` leaves that frame behind. -/
theorem requestPages_behind {i : Nat} (behind : i < s.LastPageIndex) (clear : s.used i = false)
    (bounded : s.limit + pages ≤ 2^52) (returned : s.RequestPages fuel pages = some (answer,s')) :
    i < s'.LastPageIndex ∧ s'.used i = false := by
  induction fuel generalizing s with
  | zero => cases returned
  | succ fuel ih =>
    rcases requestPages_cases returned with ⟨_,_,rfl⟩ | ⟨_,_,later⟩ | ⟨inside,free,x,row,later⟩ | ⟨inside,_,_,_,rfl⟩
    · exact ⟨behind,clear⟩
    · exact ih (s := { s with LastPageIndex := s.LastPageIndex + 1 }) (by simp only; omega) clear bounded later
    · obtain ⟨exact_sum,_,_⟩ := firstUsed_inside inside free bounded row
      rw [exact_sum] at later
      exact ih (s := { s with LastPageIndex := s.LastPageIndex + x }) (by simp only; omega) clear bounded later
    · refine ⟨by rw [LockPages,LockPage,setPages_LastPageIndex]; exact behind,?_⟩
      rw [← Bool.not_eq_true,LockPages,LockPage,setPages_bit,clear]
      rintro (marked | ⟨⟨x,bound,same⟩,_⟩)
      · cases marked
      · have exact_sum : wrap (s.LastPageIndex * PAGE_SIZE + x * PAGE_SIZE) = (s.LastPageIndex + x) * PAGE_SIZE := by
          rw [wrap_of_lt (by unfold PAGE_SIZE; omega),Nat.add_mul]
        rw [pageAt,exact_sum,frame_of_address] at same
        omega

/-- `RequestPages` moves the hint past a first clear frame that starts no clear row. -/
theorem requestPages_loses {i x : Nat} (first : FirstClear s i) (bound : x < pages)
    (taken : s.PageBitmap.Get (wrap (i + x)) = true) (bounded : s.limit + pages ≤ 2^52)
    (returned : s.RequestPages fuel pages = some (answer,s')) : i < s'.LastPageIndex ∧ s'.used i = false := by
  induction fuel generalizing s with
  | zero => cases returned
  | succ fuel ih =>
    obtain ⟨low,below,clear,between⟩ := id first
    have hint : s.used s.LastPageIndex = false → s.LastPageIndex = i := by
      intro free
      by_contra other
      rw [between s.LastPageIndex (Nat.le_refl _) (by omega)] at free
      cases free
    rcases requestPages_cases returned with ⟨_,_,rfl⟩ | ⟨_,marked,later⟩ | ⟨inside,free,y,row,later⟩ | ⟨_,free,row,_⟩
    · omega
    · exact ih (s := { s with LastPageIndex := s.LastPageIndex + 1 }) ((firstClear_advance marked).mpr first) taken
        bounded later
    · obtain ⟨exact_sum,above,_⟩ := firstUsed_inside inside free bounded row
      rw [exact_sum] at later
      have here := hint free
      exact requestPages_behind (s := { s with LastPageIndex := s.LastPageIndex + y }) (by simp only; omega) clear
        bounded later
    · have none := firstUsed_none.mp row x (Nat.zero_le _) (by omega)
      rw [hint free,taken] at none
      cases none

/-- A request for pages that fit in the address space returns. -/
theorem requestPages_returns (bounded : s.limit + pages ≤ 2^52) (enough : s.limit ≤ s.LastPageIndex + fuel) :
    ∃ answer s', s.RequestPages (fuel+1) pages = some (answer,s') := by
  induction fuel generalizing s with
  | zero => exact ⟨0,s,by rw [RequestPages,if_neg (by omega)]⟩
  | succ fuel ih =>
    rw [RequestPages]
    by_cases inside : s.LastPageIndex < s.limit
    · rw [if_pos inside,get_eq (Nat.le_of_lt inside)]
      cases marked : s.used s.LastPageIndex with
      | true => exact ih (s := { s with LastPageIndex := s.LastPageIndex + 1 }) bounded (by simp only [limit] at *; omega)
      | false =>
        cases row : firstUsed s.PageBitmap s.LastPageIndex 0 pages with
        | none => exact ⟨_,_,rfl⟩
        | some x =>
          obtain ⟨exact_sum,above,_⟩ := firstUsed_inside inside marked bounded row
          have later := ih (s := { s with LastPageIndex := s.LastPageIndex + x }) bounded
            (by simp only [limit] at *; omega)
          simpa [exact_sum] using later
    · exact ⟨0,s,by rw [if_neg inside]⟩

/-! ### Runs -/

theorem requestPages_limit (returned : s.RequestPages fuel pages = some (answer,s')) : s'.limit = s.limit := by
  induction fuel generalizing s with
  | zero => cases returned
  | succ fuel ih =>
    rcases requestPages_cases returned with ⟨_,_,rfl⟩ | ⟨_,_,later⟩ | ⟨_,_,x,_,later⟩ | ⟨_,_,_,_,rfl⟩
    · rfl
    · have kept := ih later
      exact kept
    · have kept := ih later
      exact kept
    · exact setPages_limit

theorem step_limit {e : Event} (step : Step s e s') : s'.limit = s.limit := by
  cases step with
  | call call => exact exec_limit call
  | RequestPages word returned => exact requestPages_limit returned

/-- A call that meets the condition keeps the hint low. -/
theorem step_hintLow {e : Event} (pos : 0 < s.limit) (low : HintLow s) (meets : Meets s e) (step : Step s e s') :
    HintLow s' := by
  obtain ⟨below,first⟩ := (hintLow_iff pos).mp low
  apply (hintLow_iff (by rw [step_limit step]; exact pos)).mpr
  cases step with
  | call call => exact ⟨below_exec call below,exec_used call meets first⟩
  | RequestPages word returned =>
    obtain ⟨below',kept⟩ := requestPages_below below meets returned
    exact ⟨below',kept 0 first⟩

/-- The condition is exact: a call that does not meet it leaves a clear frame behind
    the hint, or leaves frame 0 to be handed out as `nullptr`. -/
theorem step_not_hintLow {e : Event} (pos : 0 < s.limit)
    (bounded : ∀ pages, e = .RequestPages pages → s.limit + pages ≤ 2^52) (misses : ¬ Meets s e)
    (step : Step s e s') : ¬ HintLow s' := by
  intro low
  obtain ⟨below,first⟩ := (hintLow_iff (by rw [step_limit step]; exact pos)).mp low
  cases step with
  | call call =>
    rw [exec_frees call (not_not.mp misses) (Nat.zero_le _)] at first
    cases first
  | @RequestPages _ pages _ _ word returned =>
    simp only [Meets,not_forall,Bool.not_eq_false] at misses
    obtain ⟨i,clear,x,bound,taken⟩ := misses
    obtain ⟨behind,lost⟩ := requestPages_loses clear bound taken (bounded pages rfl) returned
    rw [below i behind] at lost
    cases lost

theorem readEfiMemoryMap_hintLow (memory : Mem) (map : List EfiMemoryDescriptor) :
    0 < (boot.ReadEfiMemoryMap memory map).limit ∧ HintLow (boot.ReadEfiMemoryMap memory map) := by
  have pos : 0 < (boot.ReadEfiMemoryMap memory map).limit := by rw [readEfiMemoryMap_limit rfl]; omega
  refine ⟨pos,(hintLow_iff pos).mpr ⟨?_,?_⟩⟩
  · intro i early
    rw [readEfiMemoryMap_LastPageIndex rfl rfl] at early
    omega
  · exact (readEfiMemoryMap_bit rfl (by omega)).mpr (.inr (.inl (by decide)))

/-- In every run after initialisation whose calls meet the condition, the hint is
    low in every state that is reached. -/
theorem run_hintLow {memory : Mem} {map : List EfiMemoryDescriptor} {steps : List (PageFrameAllocator × Event)}
    {t : PageFrameAllocator} (reached : Run (boot.ReadEfiMemoryMap memory map) steps t)
    (meets : ∀ step ∈ steps, Meets step.1 step.2) : HintLow t := by
  obtain ⟨pos,start⟩ := readEfiMemoryMap_hintLow memory map
  have both : 0 < t.limit ∧ HintLow t := by
    generalize boot.ReadEfiMemoryMap memory map = s at reached pos start
    induction reached with
    | nil => exact ⟨pos,start⟩
    | @snoc t u steps e before step ih =>
      obtain ⟨inRange,low⟩ := ih (fun earlier member => meets earlier (by simp [member]))
      exact ⟨by rw [step_limit step]; exact inRange,step_hintLow inRange low (meets (t,e) (by simp)) step⟩
  exact both.2

/-- The first request after initialisation keeps the hint low. -/
theorem run_hintLow_request : HintLow ((boot.ReadEfiMemoryMap (fun _ => 0#8) twoMegabytes).exec .RequestPage) :=
  run_hintLow (.snoc (.nil _) (.call _ .RequestPage)) (fun step member => by
    rw [List.nil_append,List.mem_singleton] at member
    subst member
    exact id)

/-- Where the second free page of two megabytes is locked, a request for two pages
    leaves the first one behind the hint. -/
theorem twoMegabytes_not_hintLow : ∃ steps t,
    Run (boot.ReadEfiMemoryMap (fun _ => 0#8) twoMegabytes) steps t ∧ ¬ HintLow t := by
  set s₀ := boot.ReadEfiMemoryMap (fun _ => 0#8) twoMegabytes with s₀Is
  have limit₀ : s₀.limit = 0x208 := by rw [s₀Is,readEfiMemoryMap_limit rfl,twoMegabytes_pages]
  have bit₀ : ∀ i < 0x208, (s₀.used i = true ↔ (i < 0x200 ∧ ¬ (0x100 ≤ i ∧ i < 0x200)) ∨ i < 0x100 ∨ i = 0x100) := by
    intro i inside
    rw [s₀Is,readEfiMemoryMap_bit rfl (by rw [twoMegabytes_pages]; omega),twoMegabytes_pages,twoMegabytes_useable,
      twoMegabytes_locked]
  set s₁ := s₀.exec (.LockPage 0x102000) with s₁Is
  have limit₁ : s₁.limit = 0x208 := by rw [s₁Is,exec_limit,limit₀]
  have bit₁ : ∀ i, s₁.used i = (s₀.used i || decide (i = 0x102 ∧ i ≤ 0x208)) := by
    intro i
    have page : 0x102000 / PAGE_SIZE = 0x102 := by decide
    rw [s₁Is,exec,LockPage,setPage_bit,limit₀,page]
  have hint₁ : s₁.LastPageIndex = 0 := by
    rw [s₁Is,exec,LockPage,setPage_LastPageIndex,s₀Is,readEfiMemoryMap_LastPageIndex rfl rfl]
  have first : FirstClear s₁ 0x101 := by
    refine ⟨by rw [hint₁]; exact Nat.zero_le _,by omega,?_,?_⟩
    · rw [bit₁,← Bool.not_eq_true,Bool.or_eq_true,bit₀ _ (by omega)]
      simp
    · intro j _ before
      rw [bit₁,(bit₀ j (by omega)).mpr (by omega)]
      exact Bool.true_or _
  have taken : s₁.PageBitmap.Get (wrap (0x101 + 1)) = true := by
    rw [wrap_of_lt (by decide),get_eq (by omega),bit₁]
    simp
  have bounded : s₁.limit + 2 ≤ 2^52 := by omega
  obtain ⟨answer,s₂,returned⟩ : ∃ answer s₂, s₁.RequestPages (0x208+1) 2 = some (answer,s₂) :=
    requestPages_returns bounded (by omega)
  obtain ⟨behind,lost⟩ := requestPages_loses first (by decide) taken bounded returned
  refine ⟨_,s₂,.snoc (.snoc (.nil s₀) (.call s₀ (.LockPage 0x102000))) (.RequestPages (by decide) returned),?_⟩
  intro low
  rw [low.below _ behind] at lost
  cases lost

end PageFrameAllocator
end WaifuOS
