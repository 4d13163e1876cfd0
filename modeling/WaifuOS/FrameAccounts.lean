import WaifuOS.FrameLedger

/-!
The two counters of the pages in use against the history of the frames. A ledger gives
each marked frame the account that it was last marked on (`Origins`, `tag`). The
counters are those of the ledger (`Balanced`) as long as a page is given back to the
account that it was taken from. `FreePage` debits the allocated memory for every
frame, so that they stay right in a run that frees no reserved frame
(`history_counted`), and a call that frees one sets them apart
(`freePage_not_counted`).
-/
namespace WaifuOS
namespace PageFrameAllocator
open WaifuOS.Words WaifuOS.Bytes WaifuOS.Ledgers

/-- The account that each frame was last marked on; `none` for a clear frame, and for one
    that no operation marked. -/
abbrev Origins := Nat → Option Account

/-- The origins after a step that marks frames on an account. -/
def tag (account : Account) (s s' : PageFrameAllocator) (o : Origins) : Origins :=
  fun i => if s'.used i then if s.used i then o i else some account else none

/-- The counter of an account. -/
def counter (s : PageFrameAllocator) : Account → Nat
  | .Allocated => s.AllocatedMemory
  | .Reserved => s.ReservedMemory

/-- Both counters are those of the ledger. -/
structure Balanced (s : PageFrameAllocator) (o : Origins) : Prop where
  known : ∀ i, o i ≠ none → i ≤ s.limit ∧ s.used i = true
  counters : ∀ account, s.counter account = wrap (PAGE_SIZE * held o (s.limit+1) account)

variable {s s' t u : PageFrameAllocator} {o : Origins} {account other : Account} {address h pages fuel answer i : Nat}
  {memory : Mem} {map : List EfiMemoryDescriptor}

theorem charge_counter : (s.charge account).counter other =
    if other = account then wrap (s.counter other + PAGE_SIZE) else s.counter other := by
  cases account with
  | Allocated => cases other <;> simp [charge,counter]
  | Reserved => cases other <;> simp [charge,counter]

theorem refund_counter : (s.refund account).counter other =
    if other = account then sub (s.counter other) PAGE_SIZE else s.counter other := by
  cases account with
  | Allocated => cases other <;> simp [refund,counter]
  | Reserved => cases other <;> simp [refund,counter]

theorem tag_refl (balanced : Balanced s o) : tag account s s o = o := by
  funext i
  simp only [tag]
  cases marked : s.used i with
  | true => rfl
  | false =>
    by_contra known
    have held := (balanced.known i (fun none => known (by rw [none]; rfl))).2
    rw [marked] at held
    cases held

/-- Two steps that mark, or two steps that clear, are one. -/
theorem tag_trans (between : ∀ i, s.used i = true → u.used i = true → t.used i = true) :
    tag account t u (tag account s t o) = tag account s u o := by
  funext i
  have inBetween := between i
  simp only [tag]
  cases here : u.used i with
  | false => rfl
  | true =>
    cases first : s.used i with
    | true =>
      have second := inBetween first here
      simp [second]
    | false => simp

/-- The ledger after one frame has changed its label, together with its counters. -/
theorem Balanced.update {v : Option Account} (balanced : Balanced s o) (inside : i ≤ s.limit) (same : t.limit = s.limit)
    (bits : ∀ j, t.used j = if j = i then v.isSome else s.used j)
    (counters : ∀ a, t.counter a < 2^64 ∧ wrap (t.counter a + PAGE_SIZE * (decide (o i = some a)).toNat) =
      wrap (s.counter a + PAGE_SIZE * (decide (v = some a)).toNat)) : Balanced t (Function.update o i v) := by
  constructor
  · intro j known
    rw [same,bits]
    by_cases here : j = i
    · rw [here,Function.update_self] at known
      rw [here,if_pos rfl]
      exact ⟨inside,Option.isSome_iff_ne_none.mpr known⟩
    · rw [Function.update_of_ne here] at known
      rw [if_neg here]
      exact balanced.known j known
  · intro a
    obtain ⟨word,change⟩ := counters a
    have count := held_change (o := o) (p := Function.update o i v) (show i < s.limit + 1 by omega)
      (fun j apart => Function.update_of_ne apart _ _) a
    rw [Function.update_self] at count
    rw [balanced.counters a] at change
    rw [same]
    simp only [wrap,PAGE_SIZE] at *
    omega

/-- The ledger of a state that differs in one frame. -/
theorem tag_update {v : Option Account} (balanced : Balanced s o) (bits : ∀ j, t.used j = if j = i then v.isSome else s.used j)
    (label : v = none ∨ (v = some account ∧ s.used i = false)) : tag account s t o = Function.update o i v := by
  funext j
  have unchanged : tag account s s o j = o j := congrFun (tag_refl balanced) j
  simp only [tag] at unchanged ⊢
  rw [bits]
  by_cases here : j = i
  · rw [here,if_pos rfl,Function.update_self]
    rcases label with rfl | ⟨rfl,clear⟩
    · rfl
    · rw [clear]
      rfl
  · rw [Function.update_of_ne here,if_neg here]
    exact unchanged

/-- Marking a page enters it into the ledger. -/
theorem setPage_balanced (balanced : Balanced s o) (account : Account) (address : Nat) :
    Balanced (setPage account s address) (tag account s (setPage account s address) o) := by
  rcases setPage_cases account s address with same | ⟨inside,clear,done⟩
  · rw [same,tag_refl balanced]
    exact balanced
  · set i := address / PAGE_SIZE with iIs
    have unknown : o i = none := by
      by_contra known
      have held := (balanced.known i known).2
      rw [clear] at held
      cases held
    have bits : ∀ j, (setPage account s address).used j = if j = i then (some account).isSome else s.used j := by
      intro j
      rw [done,charge_used,setBit_used inside]
      rfl
    rw [tag_update balanced bits (.inr ⟨rfl,clear⟩)]
    apply balanced.update inside setPage_limit bits
    intro a
    have start : (s.setBit i true).counter a = s.counter a := by cases a <;> rfl
    have word : s.counter a < 2^64 := by rw [balanced.counters]; exact wrap_lt _
    rw [done,charge_counter,start,unknown]
    by_cases here : a = account
    · subst here
      simp only [if_true,reduceCtorEq,decide_false,Bool.toNat_false,decide_true,Bool.toNat_true]
      exact ⟨wrap_lt _,by unfold wrap; omega⟩
    · have apart : ¬ account = a := fun equal => here equal.symm
      simp only [here,if_false,reduceCtorEq,decide_false,Bool.toNat_false,Option.some.injEq,apart]
      exact ⟨word,trivial⟩

/-- Clearing a page takes it off the ledger, where its account is the one that is debited. -/
theorem clearPage_balanced (account other : Account) (address : Nat) (balanced : Balanced s o)
    (owed : address / PAGE_SIZE ≤ s.limit → s.used (address / PAGE_SIZE) = true → o (address / PAGE_SIZE) = some account) :
    Balanced (clearPage account s address) (tag other s (clearPage account s address) o) := by
  rcases clearPage_cases account s address with same | ⟨inside,marked,h,done⟩
  · rw [same,tag_refl balanced]
    exact balanced
  · have label := owed inside marked
    set i := address / PAGE_SIZE with iIs
    have bits : ∀ j, (clearPage account s address).used j = if j = i then (none : Option Account).isSome else s.used j := by
      intro j
      rw [done]
      change ((s.setBit i false).refund account).used j = _
      rw [refund_used,setBit_used inside]
      rfl
    rw [tag_update balanced bits (.inl rfl)]
    apply balanced.update inside clearPage_limit bits
    intro a
    have start : (s.setBit i false).counter a = s.counter a := by cases a <;> rfl
    have hint : counter { (s.setBit i false).refund account with LastPageIndex := h } a =
        ((s.setBit i false).refund account).counter a := by cases a <;> rfl
    have word : s.counter a < 2^64 := by rw [balanced.counters]; exact wrap_lt _
    rw [done,hint,refund_counter,start,label]
    by_cases here : a = account
    · subst here
      simp only [if_true,reduceCtorEq,decide_false,Bool.toNat_false,decide_true,Bool.toNat_true]
      exact ⟨sub_lt _ _,by unfold wrap sub PAGE_SIZE; omega⟩
    · have apart : ¬ account = a := fun equal => here equal.symm
      simp only [here,if_false,reduceCtorEq,decide_false,Bool.toNat_false,Option.some.injEq,apart]
      exact ⟨word,trivial⟩

theorem setPages_balanced (account : Account) (balanced : Balanced s o) (address count : Nat) :
    Balanced (forPages (setPage account) s address count) (tag account s (forPages (setPage account) s address count) o) := by
  induction count with
  | zero =>
    rw [forPages,tag_refl balanced]
    exact balanced
  | succ count ih =>
    have next := setPage_balanced ih account (wrap (address + count * PAGE_SIZE))
    have joined : ∀ i, s.used i = true → (forPages (setPage account) s address (count+1)).used i = true →
        (forPages (setPage account) s address count).used i = true :=
      fun i marked _ => setPages_bit.mpr (.inl marked)
    rw [← tag_trans joined]
    exact next

theorem clearPages_balanced (balanced : Balanced s o) {address count : Nat}
    (owed : ∀ i ≤ s.limit, Covers address count i → s.used i = true → o i = some account) :
    Balanced (forPages (clearPage account) s address count) (tag other s (forPages (clearPage account) s address count) o) := by
  induction count with
  | zero =>
    rw [forPages,tag_refl balanced]
    exact balanced
  | succ count ih =>
    have earlier := ih (fun i inside covered => owed i inside (covers_succ.mpr (.inl covered)))
    have next := clearPage_balanced account other (wrap (address + count * PAGE_SIZE)) earlier (fun inside marked => ?_)
    · have joined : ∀ i, s.used i = true → (forPages (clearPage account) s address (count+1)).used i = true →
          (forPages (clearPage account) s address count).used i = true := by
        intro i _ kept
        rw [forPages,clearPage_bit,Bool.and_eq_true] at kept
        exact kept.1
      rw [← tag_trans joined]
      exact next
    · rw [clearPages_limit] at inside
      have before := (clearPages_bit.mp marked).1
      have label := owed _ inside (covers_succ.mpr (.inr rfl)) before
      simp only [tag]
      rw [marked,before]
      exact label

/-- The event frees frame `i`. -/
def FreesFrame : Event → Nat → Prop
  | .call call, i => Frees call i
  | .RequestPages _, _ => False

theorem Balanced.moved (balanced : Balanced t o) : Balanced { t with LastPageIndex := h } o :=
  ⟨balanced.known,fun a => match a with
    | .Allocated => balanced.counters .Allocated
    | .Reserved => balanced.counters .Reserved⟩

/-- A step that moves the hint only changes no label. -/
theorem Balanced.hint (balanced : Balanced t o) : Balanced { t with LastPageIndex := h }
    (tag account t { t with LastPageIndex := h } o) := by
  have same : tag account t { t with LastPageIndex := h } o = o := tag_refl (s := { t with LastPageIndex := h }) balanced.moved
  rw [same]
  exact balanced.moved

/-- A step that frees allocated frames only keeps the counters those of the ledger. -/
theorem step_balanced {e : Event} (balanced : Balanced t o) (step : Step t e u)
    (owed : ∀ i ≤ t.limit, FreesFrame e i → t.used i = true → o i = some .Allocated) : Balanced u (tag .Allocated t u o) := by
  cases step with
  | call call =>
    cases call with
    | RequestPage =>
      rw [exec]
      obtain ⟨h,none | some⟩ := requestPage_ends t
      · rw [none]
        exact balanced.hint
      · rw [some]
        exact setPage_balanced (balanced.moved (h := h)) _ _
    | FreePage address => exact clearPage_balanced _ _ _ balanced (fun inside marked => owed _ inside rfl marked)
    | LockPage address => exact setPage_balanced balanced _ _
    | FreePages address count => exact clearPages_balanced balanced owed
    | LockPages address count => exact setPages_balanced _ balanced address count
  | RequestPages word returned =>
    obtain ⟨h,none | some⟩ := requestPages_ends returned
    · rw [none]
      exact balanced.hint
    · rw [some]
      exact setPages_balanced _ (balanced.moved (h := h)) _ _

/-- A marked frame that a step does not free stays marked. -/
theorem step_used {e : Event} (step : Step t e u) (kept : ¬ FreesFrame e i) (marked : t.used i = true) : u.used i = true := by
  cases step with
  | call call => exact exec_used call kept marked
  | RequestPages word returned =>
    obtain ⟨h,none | some⟩ := requestPages_ends returned
    · rw [none]
      exact marked
    · rw [some]
      exact setPages_bit.mpr (.inl marked)

/-- The frames that are reserved when the map is read, and those that the lock on the
    bitmap allocates. -/
def bootOrigins (memory : Mem) (map : List EfiMemoryDescriptor) : Origins :=
  tag .Allocated (boot.withLowReserved memory map) (boot.ReadEfiMemoryMap memory map)
    (tag .Reserved (boot.withUseable memory map) (boot.withLowReserved memory map)
      (tag .Reserved (boot.withAllReserved memory map) (boot.withUseable memory map)
        (tag .Reserved (boot.withBitmap memory map) (boot.withAllReserved memory map) (fun _ => none))))

/-- A run after the map is read, with the ledger in every state. -/
inductive History (memory : Mem) (map : List EfiMemoryDescriptor) :
    List (PageFrameAllocator × Origins × Event) → PageFrameAllocator → Origins → Prop
  | boot : History memory map [] (boot.ReadEfiMemoryMap memory map) (bootOrigins memory map)
  | step {steps : List (PageFrameAllocator × Origins × Event)} {t u : PageFrameAllocator} {o : Origins} {e : Event}
      (before : History memory map steps t o) (step : Step t e u) :
      History memory map (steps ++ [(t,o,e)]) u (tag .Allocated t u o)

/-- The counters are exact, and allocated memory is there to be debited where a frame is allocated. -/
structure Counted (t : PageFrameAllocator) (o : Origins) : Prop where
  allocated : t.GetAllocatedRAM = PAGE_SIZE * held o (t.limit+1) .Allocated
  reserved : t.GetReservedRAM = PAGE_SIZE * held o (t.limit+1) .Reserved
  debits : ∀ i, o i = some .Allocated → PAGE_SIZE ≤ t.GetAllocatedRAM

/-- The call frees no marked frame but those that were allocated. -/
def FreesAllocated (step : PageFrameAllocator × Origins × Event) : Prop :=
  ∀ i ≤ step.1.limit, FreesFrame step.2.2 i → step.1.used i = true → step.2.1 i = some .Allocated

/-- No usable page stands for the bit behind the bitmap while that is set in memory. -/
def BehindClear (memory : Mem) (map : List EfiMemoryDescriptor) : Prop :=
  behindBit memory map = true → ¬ Useable map (bmpSize map * 8)

/-! ### Reading the map -/

/-- Giving the usable pages back takes them off the ledger. -/
theorem unreserved_balanced (map : List EfiMemoryDescriptor) (balanced : Balanced s o)
    (owed : ∀ i ≤ s.limit, Useable map i → s.used i = true → o i = some .Reserved) :
    let t := map.foldl (fun s desc =>
      if desc.type = UseableMemory then s.UnreservePages desc.physAddr desc.nPages else s) s
    Balanced t (tag .Reserved s t o) := by
  induction map generalizing s o with
  | nil =>
    have same : tag .Reserved s s o = o := tag_refl balanced
    simp only [List.foldl_nil,same]
    exact balanced
  | cons desc map ih =>
    have later : ∀ i, Useable map i → Useable (desc :: map) i := by
      rintro i ⟨d,member,rest⟩
      exact ⟨d,List.mem_cons_of_mem _ member,rest⟩
    simp only [List.foldl_cons]
    by_cases usable : desc.type = UseableMemory
    · rw [if_pos usable]
      set s₁ := s.UnreservePages desc.physAddr desc.nPages with s₁Is
      have first : Balanced s₁ (tag .Reserved s s₁ o) := clearPages_balanced balanced
        (fun i inside covered => owed i inside ⟨desc,List.mem_cons_self,usable,covered⟩)
      have bound : s₁.limit = s.limit := clearPages_limit
      have kept : ∀ i, s₁.used i = true → s.used i = true := fun i marked => (clearPages_bit.mp marked).1
      have rest := ih first (fun i inside useable marked => by
        have label := owed i (bound ▸ inside) (later i useable) (kept i marked)
        simp only [tag]
        rw [marked,kept i marked]
        exact label)
      have between : ∀ i, s.used i = true → (map.foldl (fun s desc => if desc.type = UseableMemory
          then s.UnreservePages desc.physAddr desc.nPages else s) s₁).used i = true → s₁.used i = true := fun i _ =>
        unreserved_keeps (P := fun s' => s'.used i = true → s₁.used i = true)
          (fun s' address count holds marked => holds (clearPages_bit.mp marked).1) id
      rw [← tag_trans between]
      exact rest
    · rw [if_neg usable]
      exact ih balanced (fun i inside useable => owed i inside (later i useable))

/-- When the map is read the counters are those of the ledger. -/
theorem boot_balanced (behind : BehindClear memory map) :
    Balanced (boot.ReadEfiMemoryMap memory map) (bootOrigins memory map) := by
  have start : Balanced (boot.withBitmap memory map) (fun _ => none) := by
    refine ⟨fun _ known => absurd rfl known,?_⟩
    intro account
    rw [held_none,Nat.mul_zero,wrap_of_lt (by decide)]
    cases account <;> rfl
  have reserved : Balanced (boot.withAllReserved memory map) _ := setPages_balanced .Reserved start _ _
  have useable := unreserved_balanced map reserved (fun i inside useable marked => by
    rw [withAllReserved_limit] at inside
    have blank : (boot.withBitmap memory map).used i = false := by
      rw [withBitmap_bit inside,Bool.and_eq_false_iff]
      by_cases last : i = bmpSize map * 8
      · refine .inr (Bool.eq_false_iff.mpr (fun set => behind set ?_))
        rw [← last]
        exact useable
      · exact .inl (decide_eq_false last)
    simp only [tag]
    rw [blank]
    have here : (forPages (setPage .Reserved) (boot.withBitmap memory map) 0 (CalculateMemorySize map / PAGE_SIZE)).used i = true := marked
    rw [here]
    rfl)
  have low : Balanced (boot.withLowReserved memory map) _ := setPages_balanced .Reserved useable _ _
  have locked := setPages_balanced .Allocated low (largestRegion map).1 (bmpSize map / PAGE_SIZE + 1)
  have whole := readEfiMemoryMap_eq memory map (show boot.Initialized = false from rfl)
  simp only [bootOrigins]
  rw [whole]
  exact locked

/-- A frame of the bitmap that is marked before the lock on it is reserved. -/
theorem bootOrigins_low (early : i < 8) : bootOrigins memory map i = some .Reserved := by
  have some_byte : 1 ≤ bmpSize map := Nat.le_add_left 1 _
  have whole : i ≤ bmpSize map * 8 := by omega
  have blank : (boot.withBitmap memory map).used i = false := by
    rw [withBitmap_bit whole,decide_eq_false (by omega)]
    rfl
  have low : (boot.withLowReserved memory map).used i = true := (withLowReserved_bit whole).mpr (.inr (by omega))
  have last : (boot.ReadEfiMemoryMap memory map).used i = true :=
    (readEfiMemoryMap_marks rfl whole).mpr (.inr (.inl (by omega)))
  simp only [bootOrigins,tag]
  rw [last,low,blank]
  cases second : (boot.withUseable memory map).used i with
  | false => rfl
  | true =>
    have first := (withUseable_bit whole).mp second
    rw [(withAllReserved_bit whole).mpr first.1]
    rfl

/-- The reserved frames are described ones, or in the first megabyte. -/
theorem bootOrigins_reserved (behind : BehindClear memory map) (reserved : bootOrigins memory map i = some .Reserved) :
    i < max (describedPages map) 0x100 := by
  have whole : i ≤ bmpSize map * 8 := by
    have known := ((boot_balanced behind).known i (by rw [reserved]; simp)).1
    rwa [limit_eq,readEfiMemoryMap_SizeBytes rfl] at known
  rw [lt_max_iff]
  by_contra outside
  rw [not_or] at outside
  obtain ⟨undescribed,high⟩ := outside
  -- Only the bit behind the bitmap can be marked, and no pass has marked it.
  have same : (boot.withLowReserved memory map).used i = (boot.withUseable memory map).used i := by
    rw [Bool.eq_iff_iff,withLowReserved_bit whole,withUseable_bit whole]
    exact or_iff_left high
  have second : (boot.withUseable memory map).used i = true → (boot.withAllReserved memory map).used i = true :=
    fun marked => (withAllReserved_bit whole).mpr ((withUseable_bit whole).mp marked).1
  have first : (boot.withAllReserved memory map).used i = (boot.withBitmap memory map).used i := by
    rw [Bool.eq_iff_iff,withAllReserved_bit whole]
    exact or_iff_left undescribed
  rw [first] at second
  simp only [bootOrigins,tag] at reserved
  rw [same,first] at reserved
  cases useable : (boot.withUseable memory map).used i with
  | true =>
    rw [useable,second useable] at reserved
    simp at reserved
  | false =>
    rw [useable] at reserved
    simp at reserved

/-! ### Runs -/

/-- What every history keeps: the ledger, and that the reserved frames stay. -/
structure Keeps (map : List EfiMemoryDescriptor) (t : PageFrameAllocator) (o : Origins) : Prop where
  balanced : Balanced t o
  limit : t.limit = bmpSize map * 8
  first : ∀ i < 8, o i = some .Reserved
  reserved : ∀ i, o i = some .Reserved → i < max (describedPages map) 0x100

/-- A step that frees no reserved frame keeps the ledger. -/
theorem Keeps.step {e : Event} (keeps : Keeps map t o) (step : Step t e u) (owed : FreesAllocated (t,o,e)) :
    Keeps map u (tag .Allocated t u o) := by
  refine ⟨step_balanced keeps.balanced step owed,(step_limit step).trans keeps.limit,?_,?_⟩
  · intro i early
    have label := keeps.first i early
    obtain ⟨inside,marked⟩ := keeps.balanced.known i (by rw [label]; simp)
    have stays := step_used (i := i) step (fun frees => by
      have allocated : o i = some .Allocated := owed i inside frees marked
      rw [label] at allocated
      cases allocated) marked
    simp only [tag]
    rw [stays,marked]
    exact label
  · intro i label
    apply keeps.reserved i
    simp only [tag] at label
    split at label
    · split at label
      · exact label
      · cases label
    · cases label

/-- Counters of a ledger with reserved frames do not wrap. -/
theorem Keeps.counted (keeps : Keeps map t o) : Counted t o := by
  have described := describedPages_lt map
  have low := t.limit_le
  have size : held o (t.limit+1) .Allocated + 8 ≤ t.limit + 1 := by
    have limit := keeps.limit
    have apart := tally_add_le (f := fun i => decide (o i = some .Allocated)) (n := t.limit + 1) (Finset.range 8)
      (fun i member => by
        have early := Finset.mem_range.mp member
        have some_byte : 1 ≤ bmpSize map := Nat.le_add_left 1 _
        omega)
      (fun i member => by
        rw [keeps.first i (Finset.mem_range.mp member)]
        rfl)
    rwa [Finset.card_range] at apart
  have bound : held o (t.limit+1) .Reserved ≤ max (describedPages map) 0x100 :=
    tally_le_of_below (fun i label => keeps.reserved i (of_decide_eq_true label))
  have allocated : t.GetAllocatedRAM = PAGE_SIZE * held o (t.limit+1) .Allocated := by
    have counter := keeps.balanced.counters .Allocated
    rwa [wrap_of_lt (by unfold PAGE_SIZE; omega)] at counter
  have reserved : t.GetReservedRAM = PAGE_SIZE * held o (t.limit+1) .Reserved := by
    have counter := keeps.balanced.counters .Reserved
    rwa [wrap_of_lt (by unfold PAGE_SIZE; omega)] at counter
  refine ⟨allocated,reserved,?_⟩
  intro i label
  have inside := (keeps.balanced.known i (by rw [label]; simp)).1
  have some_frame : 0 < held o (t.limit+1) .Allocated :=
    Finset.card_pos.mpr ⟨i,Finset.mem_filter.mpr ⟨Finset.mem_range.mpr (by omega),decide_eq_true label⟩⟩
  rw [allocated]
  exact Nat.le_mul_of_pos_right _ some_frame

/-- In every run whose steps free allocated frames only, the counters are those of the
    frames that were last locked and of those that are reserved from the start. -/
theorem history_counted {steps : List (PageFrameAllocator × Origins × Event)} (history : History memory map steps t o)
    (behind : BehindClear memory map) (owed : ∀ step ∈ steps, FreesAllocated step) : Counted t o := by
  have keeps : Keeps map t o := by
    induction history with
    | boot =>
      refine ⟨boot_balanced behind,?_,fun i early => bootOrigins_low early,fun i => bootOrigins_reserved behind⟩
      rw [limit_eq,readEfiMemoryMap_SizeBytes rfl]
    | @step steps t u o e before step ih =>
      exact (ih (fun earlier member => owed earlier (by simp [member]))).step step (owed (t,o,e) (by simp))
  exact keeps.counted

/-- The first request after initialisation. -/
theorem history_counted_request :
    let s := boot.ReadEfiMemoryMap (fun _ => 0#8) twoMegabytes
    Counted (s.exec .RequestPage) (tag .Allocated s (s.exec .RequestPage) (bootOrigins (fun _ => 0#8) twoMegabytes)) := by
  refine history_counted (.step .boot (.call _ .RequestPage)) ?_ ?_
  · intro set
    simp [behindBit] at set
  · intro step member
    rw [List.nil_append,List.mem_singleton] at member
    subst member
    exact fun i _ frees _ => frees.elim

/-- Freeing a reserved frame debits the allocated memory for it. -/
theorem freePage_not_counted (balanced : Balanced t o) (label : o i = some .Reserved) :
    ¬ Counted (t.FreePage (i * PAGE_SIZE)) (tag .Allocated t (t.FreePage (i * PAGE_SIZE)) o) := by
  obtain ⟨inside,marked⟩ := balanced.known i (by rw [label]; simp)
  have debit : (t.FreePage (i * PAGE_SIZE)).AllocatedMemory = sub t.AllocatedMemory PAGE_SIZE := by
    rcases clearPage_cases .Allocated t (i * PAGE_SIZE) with same | ⟨_,_,h,done⟩
    · have cleared : (t.FreePage (i * PAGE_SIZE)).used i = false := by
        rw [FreePage,clearPage_bit,frame_of_address]
        simp [inside]
      rw [FreePage,same,marked] at cleared
      cases cleared
    · rw [FreePage,done]
      rfl
  have bits : ∀ j, (t.FreePage (i * PAGE_SIZE)).used j = if j = i then (none : Option Account).isSome else t.used j := by
    intro j
    rw [FreePage,clearPage_bit,frame_of_address]
    by_cases here : j = i
    · rw [if_pos here,here,decide_eq_true ⟨rfl,inside⟩]
      simp
    · rw [if_neg here,decide_eq_false (fun both => here both.1)]
      simp
  intro counted
  have after := counted.allocated
  have before := balanced.counters .Allocated
  have count := held_change (o := o) (p := Function.update o i none) (show i < t.limit + 1 by omega)
    (fun j apart => Function.update_of_ne apart _ _) .Allocated
  rw [tag_update balanced bits (.inl rfl),GetAllocatedRAM,debit,FreePage,clearPage_limit] at after
  rw [Function.update_self,label] at count
  simp only [Option.some.injEq,reduceCtorEq,decide_false,Bool.toNat_false,Nat.add_zero] at count
  change t.AllocatedMemory = _ at before
  rw [count,before] at after
  simp only [wrap,sub,PAGE_SIZE] at after
  omega

/-- Frame 0 is reserved, and may be freed. -/
theorem twoMegabytes_not_counted : ∃ steps t o, History (fun _ => 0#8) twoMegabytes steps t o ∧ ¬ Counted t o :=
  ⟨_,_,_,.step .boot (.call _ (.FreePage (0 * PAGE_SIZE))),
    freePage_not_counted (boot_balanced (fun set => by simp [behindBit] at set)) (bootOrigins_low (by decide))⟩

end PageFrameAllocator
end WaifuOS
