import WaifuOS.HeapCalls

/-!
The page frames behind the heap. `InitializeHeap` and `ExpandHeap` map each new page
to what `RequestPage` answers, also when it answers `nullptr` because no frame is
left. As long as every request of a call hands out a frame (`Supplies`), each page of
the heap is mapped to the frame that was handed out for it, and no two share one
(`pageRun_ownFrames`). Without that a heap page is mapped to address zero
(`fiveFrames_not_ownFrames`).
-/
namespace WaifuOS.Kernel
open WaifuOS.Words WaifuOS.Links PageTables

/-- A page of the heap. -/
def HeapPage (s : Kernel) (v : Nat) : Prop := PAGE_SIZE ∣ v ∧ s.heapBase ≤ v ∧ v < s.heapEnd

/-- Each page of the heap is mapped to a frame that was handed out for it, and no two
    pages share a frame. -/
def OwnFrames (s : Kernel) : Prop :=
  (∀ v, HeapPage s v → ∃ i, (v,i * PAGE_SIZE) ∈ s.granted ∧ s.paging.translate v = some (i * PAGE_SIZE)) ∧
    ∀ v w, HeapPage s v → HeapPage s w → s.paging.translate v = s.paging.translate w → v = w

/-- The pages from `base` to `stop` are mapped to frames of their own, handed out for them. -/
structure Backed (paging : PageTables) (granted : List (Nat × Nat)) (base stop : Nat) : Prop where
  sound : paging.Wellformed
  pages : ∀ v, PAGE_SIZE ∣ v → base ≤ v → v < stop → ∃ i, (v,i * PAGE_SIZE) ∈ granted ∧
    paging.translate v = some (i * PAGE_SIZE) ∧ paging.frames.used i = true
  apart : ∀ v w, PAGE_SIZE ∣ v → PAGE_SIZE ∣ w → base ≤ v → v < w → w < stop → paging.translate v ≠ paging.translate w

variable {s s' : Kernel} {base stop n : Nat} {V : Finset Nat}

/-- While there are clear frames, a page is mapped to a frame that was clear, and all
    other pages are mapped as before. -/
theorem mapPage_supplied (sound : s.paging.Wellformed) (supplied : Supplied s.paging (n+1) V) (member : stop ∈ V) :
    ∃ i, (s.mapPage stop).granted = (stop,i * PAGE_SIZE) :: s.granted ∧ s.paging.frames.used i = false ∧
      (s.mapPage stop).paging.frames.used i = true ∧ (s.mapPage stop).paging.translate stop = some (i * PAGE_SIZE) ∧
      (s.mapPage stop).paging.Wellformed ∧ Supplied (s.mapPage stop).paging n V ∧
      Extends s.paging (s.mapPage stop).paging (fun q => q = path stop) := by
  have left : 0 < s.paging.frames.clearFrames.card := by unfold Supplied at supplied; omega
  obtain ⟨i,p₁,found,request,inside,clear,taken,same_ram,same_root,_,count,sound₁,grown₁⟩ := requestPage_of_clear sound left
  have bound : i < 2^40 := by have bounded := sound.bounded; omega
  have same_walk : ∀ q, p₁.walk q = s.paging.walk q := by intro q; rw [walk,walk,same_ram,same_root]
  have supplied₁ : Supplied p₁ n V := by
    simp only [Supplied] at supplied ⊢
    simp only [same_walk]
    omega
  obtain ⟨here,sound₂,supplied₂,grown₂⟩ := mapMemory_supplied sound₁ supplied₁ member
    (show i * PAGE_SIZE < 2^64 by unfold PAGE_SIZE; omega)
  rw [pageOf_frame bound] at here
  set p₂ := p₁.MapMemory stop (i * PAGE_SIZE) with p₂Is
  -- The page is no table: its frame was clear before, and marked when the tables were made.
  have noTable : ∀ q, q.length ≤ 3 → p₂.walk q ≠ some (i * PAGE_SIZE) := by
    intro q short reached
    rcases grown₂.tables q _ short reached with old | ⟨j,place,unmarked⟩
    · obtain ⟨j,_,place,used⟩ := sound.held q _ short ((same_walk q).symm.trans old)
      have same : i = j := PageFrameAllocator.frame_injective place
      rw [← same,clear] at used
      cases used
    · have same : i = j := PageFrameAllocator.frame_injective place
      rw [← same,taken] at unmarked
      cases unmarked
  obtain ⟨sound₃,supplied₃,grown₃⟩ := blank_supplied sound₂ supplied₂ noTable
  have mapped : (s.mapPage stop).paging = p₂.blank (i * PAGE_SIZE) := by simp only [mapPage,request,← p₂Is,here]
  have granted : (s.mapPage stop).granted = (stop,i * PAGE_SIZE) :: s.granted := by simp only [mapPage,found]
  have grown := ((grown₁.weaken (fun _ => False.elim)).trans grown₂).trans (grown₃.weaken (fun _ => False.elim))
  rw [mapped]
  exact ⟨i,granted,clear,grown₂.used i taken,(grown₃.kept _ (by simp [path]) id).trans here,sound₃,supplied₃,grown⟩

/-- The next page of a heap gets a frame of its own. -/
theorem mapPage_backed (backed : Backed s.paging s.granted base stop) (aligned : PAGE_SIZE ∣ stop)
    (low : stop + PAGE_SIZE ≤ 2^48) (supplied : Supplied s.paging (n+1) V) (member : stop ∈ V) :
    Backed (s.mapPage stop).paging (s.mapPage stop).granted base (stop + PAGE_SIZE) ∧
      Supplied (s.mapPage stop).paging n V := by
  obtain ⟨i,granted,clear,taken,here,sound,supplied',grown⟩ := mapPage_supplied backed.sound supplied member
  have other : ∀ v, PAGE_SIZE ∣ v → v < stop → (s.mapPage stop).paging.translate v = s.paging.translate v := by
    intro v whole before
    apply grown.kept (path v) (by simp [path])
    intro same
    have page := path_injective (v := v) (w := stop) (by omega) (by unfold PAGE_SIZE at low; omega) same
    obtain ⟨j,rfl⟩ := whole
    obtain ⟨k,rfl⟩ := aligned
    rw [Nat.mul_div_cancel_left _ (by decide),Nat.mul_div_cancel_left _ (by decide)] at page
    rw [page] at before
    omega
  have last : ∀ v, PAGE_SIZE ∣ v → v < stop + PAGE_SIZE → v < stop ∨ v = stop := by
    rintro v ⟨j,rfl⟩ before
    obtain ⟨k,rfl⟩ := aligned
    unfold PAGE_SIZE at before ⊢
    omega
  refine ⟨⟨sound,?_,?_⟩,supplied'⟩
  · intro v whole above before
    rcases last v whole before with earlier | rfl
    · obtain ⟨j,handed,mapped,used⟩ := backed.pages v whole above earlier
      exact ⟨j,by rw [granted]; exact List.mem_cons_of_mem _ handed,(other v whole earlier).trans mapped,grown.used j used⟩
    · exact ⟨i,by rw [granted]; exact List.mem_cons_self,here,taken⟩
  · intro v w wholeV wholeW above order before
    rcases last w wholeW before with earlier | rfl
    · rw [other v wholeV (by omega),other w wholeW earlier]
      exact backed.apart v w wholeV wholeW above order earlier
    · obtain ⟨j,_,mapped,used⟩ := backed.pages v wholeV above order
      rw [other v wholeV order,mapped,here]
      intro same
      have equal : j = i := PageFrameAllocator.frame_injective (Option.some.inj same)
      rw [equal,clear] at used
      cases used

/-- So do the next pages. -/
theorem mapPages_backed (backed : Backed s.paging s.granted base stop) (aligned : PAGE_SIZE ∣ stop)
    (low : stop + n * PAGE_SIZE ≤ 2^48) (supplied : Supplied s.paging n V)
    (members : ∀ k, k < n → stop + k * PAGE_SIZE ∈ V) :
    Backed (s.mapPages stop n).paging (s.mapPages stop n).granted base (stop + n * PAGE_SIZE) := by
  induction n generalizing s stop with
  | zero => rw [Nat.zero_mul,Nat.add_zero]; exact backed
  | succ n ih =>
    have size : (n+1) * PAGE_SIZE = PAGE_SIZE + n * PAGE_SIZE := by rw [Nat.add_mul]; omega
    have first := members 0 (by omega)
    rw [Nat.zero_mul,Nat.add_zero] at first
    obtain ⟨backed',supplied'⟩ := mapPage_backed backed aligned (by omega) supplied first
    have wraps : wrap (stop + PAGE_SIZE) = stop + PAGE_SIZE := wrap_of_lt (by omega)
    rw [mapPages,wraps,size,← Nat.add_assoc]
    apply ih backed' (Nat.dvd_add aligned (Nat.dvd_refl _)) (by omega) supplied'
    intro k inside
    have member := members (k+1) (by omega)
    rwa [Nat.add_mul,Nat.one_mul,Nat.add_comm (k * PAGE_SIZE),← Nat.add_assoc] at member

/-- The pages from an address on. -/
def pagesFrom (base n : Nat) : Finset Nat := (Finset.range n).image (fun k => base + k * PAGE_SIZE)

theorem mem_pagesFrom {k : Nat} (inside : k < n) : base + k * PAGE_SIZE ∈ pagesFrom base n :=
  Finset.mem_image.mpr ⟨k,Finset.mem_range.mpr inside,rfl⟩

/-- Two states that differ in the memory and in `LastSegment` at most. -/
def Relinked (s t : Kernel) : Prop := ∃ memory LastSegment, t = { s with memory, LastSegment }

namespace Relinked

variable {s t u : Kernel} {seg value : Nat}

theorem refl : Relinked s s := ⟨_,_,rfl⟩

theorem setLength (same : Relinked s t) : Relinked s (t.setLength seg value) := by
  obtain ⟨_,_,rfl⟩ := same
  exact ⟨_,_,rfl⟩

theorem setNext (same : Relinked s t) : Relinked s (t.setNext seg value) := by
  obtain ⟨_,_,rfl⟩ := same
  exact ⟨_,_,rfl⟩

theorem setPrevious (same : Relinked s t) : Relinked s (t.setPrevious seg value) := by
  obtain ⟨_,_,rfl⟩ := same
  exact ⟨_,_,rfl⟩

theorem setFree {free : Bool} (same : Relinked s t) : Relinked s (t.setFree seg free) := by
  obtain ⟨_,_,rfl⟩ := same
  exact ⟨_,_,rfl⟩

theorem setLast (same : Relinked s t) : Relinked s { t with LastSegment := seg } := by
  obtain ⟨_,_,rfl⟩ := same
  exact ⟨_,_,rfl⟩

theorem ite {p : Prop} [Decidable p] (yes : Relinked s t) (no : Relinked s u) : Relinked s (if p then t else u) := by
  split
  · exact yes
  · exact no

theorem combineForward (same : Relinked s t) : Relinked s (t.CombineForward seg) := by
  unfold CombineForward
  refine .ite same (.ite same ?_)
  extract_lets s₁ s₂ s₃
  have first : Relinked s s₁ := same.setLength
  have second : Relinked s s₂ := .ite first.setLast first
  have third : Relinked s s₃ := .ite second.setPrevious second
  exact third.setNext

theorem combineBackward (same : Relinked s t) : Relinked s (t.CombineBackward seg) := .ite same.combineForward same

end Relinked

/-- Growing maps the new pages and puts them behind the heap. -/
theorem expandHeap_relinked {length : Nat} (room : s.heapEnd + pageRound length < 2^64)
    (returned : s.ExpandHeap length = some s') :
    Relinked { s.mapPages s.heapEnd (pageRound length / PAGE_SIZE) with heapEnd := s.heapEnd + pageRound length } s' := by
  have size : pageRound length / PAGE_SIZE * PAGE_SIZE = pageRound length := by unfold pageRound PAGE_SIZE; omega
  have grown := growHeap_mapPages (s := s) (n := pageRound length / PAGE_SIZE) (by rw [size]; exact room)
  rw [size] at grown
  rw [ExpandHeap] at returned
  split at returned
  · cases returned
  · simp only [pageRound_eq (show pageRound length < 2^64 by omega),grown,Option.some.injEq] at returned
    rw [← returned]
    exact (Relinked.refl.setFree.setPrevious.setNext.setLast.setNext.setLength).combineBackward

/-- The calls that map pages, in the order of the boot code: paging first, the heap behind it. -/
inductive PageCall
  | InitializePaging
  | MapMemory (virtualMemory physMemory : Nat)
  | SetVirtualFlag (address : Nat) (flag : PTFlag) (value : Bool)
  | InitializeHeap (heapStart pages : Nat)
  | ExpandHeap (length : Nat)

namespace PageCall

def exec (fuel : Nat) (s : Kernel) : PageCall → Option Kernel
  | .InitializePaging => some { s with paging := s.paging.startPaging }
  | .MapMemory virtualMemory physMemory => some { s with paging := s.paging.MapMemory virtualMemory physMemory }
  | .SetVirtualFlag address flag value => some { s with paging := s.paging.SetVirtualFlag address flag value }
  | .InitializeHeap heapStart pages => s.InitializeHeap fuel heapStart pages
  | .ExpandHeap length => s.ExpandHeap length

/-- What may be called once paging has started. -/
def Allowed (s : Kernel) : PageCall → Prop
  | .InitializePaging => False
  | .MapMemory _ physMemory => s.HeapInitialized = false ∧ physMemory < 2^64
  | .SetVirtualFlag _ _ _ => s.HeapInitialized = false
  | .InitializeHeap heapStart pages => s.HeapRange heapStart pages
  | .ExpandHeap _ => True

/-- Every request of the call hands out a frame that an entry can hold, and the heap
    stays below 48 bits. -/
def Supplies (s : Kernel) : PageCall → Prop
  | .InitializePaging => s.paging.frames.limit ≤ 2^40 ∧ s.paging.frames.clearFrames.Nonempty
  | .MapMemory virtualMemory _ => Supplied s.paging 0 {virtualMemory}
  | .SetVirtualFlag address _ _ => Supplied s.paging 0 {address}
  | .InitializeHeap heapStart pages => s.HeapInitialized = false →
      heapStart + pages * PAGE_SIZE ≤ 2^48 ∧ Supplied s.paging pages (pagesFrom heapStart pages)
  | .ExpandHeap length => s.heapEnd + pageRound length ≤ 2^48 ∧
      Supplied s.paging (pageRound length / PAGE_SIZE) (pagesFrom s.heapEnd (pageRound length / PAGE_SIZE))

end PageCall

/-- The states after the boot code started paging and some calls, each of which meets
    a condition. -/
inductive PageRun (condition : Kernel → PageCall → Prop) : Kernel → Prop
  | start {s s' : Kernel} (fuel : Nat) (fresh : s.HeapInitialized = false) (unlocked : s.memoryLock = false)
      (met : condition s .InitializePaging) (returned : PageCall.InitializePaging.exec fuel s = some s') :
      PageRun condition s'
  | call {s s' : Kernel} (call : PageCall) (fuel : Nat) (earlier : PageRun condition s) (allowed : call.Allowed s)
      (met : condition s call) (returned : call.exec fuel s = some s') : PageRun condition s'

/-- What the calls keep while they are supplied. -/
structure Ready (s : Kernel) : Prop where
  unlocked : s.memoryLock = false
  sound : s.paging.Wellformed
  aligned : s.HeapInitialized = true → PAGE_SIZE ∣ s.heapEnd
  backed : s.HeapInitialized = true → Backed s.paging s.granted s.heapBase s.heapEnd

theorem call_ready {call : PageCall} {fuel : Nat} (ready : Ready s) (allowed : call.Allowed s) (met : call.Supplies s)
    (returned : call.exec fuel s = some s') : Ready s' := by
  cases call with
  | InitializePaging => exact allowed.elim
  | MapMemory virtualMemory physMemory =>
    obtain ⟨fresh,word⟩ := allowed
    cases returned
    obtain ⟨_,sound,_⟩ := mapMemory_supplied ready.sound met (Finset.mem_singleton_self _) word
    exact ⟨ready.unlocked,sound,fun init => absurd init (by simp [fresh]),fun init => absurd init (by simp [fresh])⟩
  | SetVirtualFlag address flag value =>
    cases returned
    obtain ⟨sound,_⟩ := setVirtualFlag_supplied flag value ready.sound met (Finset.mem_singleton_self _)
    have fresh : s.HeapInitialized = false := allowed
    exact ⟨ready.unlocked,sound,fun init => absurd init (by simp [fresh]),fun init => absurd init (by simp [fresh])⟩
  | InitializeHeap heapStart pages =>
    cases init : s.HeapInitialized with
    | true =>
      have same : s.InitializeHeap fuel heapStart pages = some s := by rw [InitializeHeap,if_pos init]
      cases same.symm.trans returned
      exact ready
    | false =>
      obtain ⟨low,supplied⟩ := met init
      obtain ⟨t,returns,rep,base,ends,paging,granted⟩ := initializeHeap_spec allowed init ready.unlocked
      have more := initializeHeap_mono (k := 2) returned
      rw [returns fuel] at more
      cases more
      have none : Backed s.paging s.granted heapStart heapStart :=
        ⟨ready.sound,fun v _ above before => by omega,fun v w _ _ above order before => by omega⟩
      have backed := mapPages_backed (s := { s with heapBase := heapStart }) none allowed.aligned low supplied
        (fun k inside => mem_pagesFrom inside)
      rw [← paging,← granted,← base,base,← ends] at backed
      refine ⟨rep.unlocked,backed.sound,?_,?_⟩
      · intro _
        rw [ends]
        exact Nat.dvd_add allowed.aligned (Nat.dvd_mul_left _ _)
      · intro _
        rw [base]
        exact backed
  | ExpandHeap length =>
    obtain ⟨low,supplied⟩ := met
    have size : pageRound length / PAGE_SIZE * PAGE_SIZE = pageRound length := by unfold pageRound PAGE_SIZE; omega
    have init : s.HeapInitialized = true := by
      cases init : s.HeapInitialized with
      | true => rfl
      | false => simp [PageCall.exec,ExpandHeap,init] at returned
    obtain ⟨paging,granted,mapped⟩ := mapPages_eq (s := s) (n := pageRound length / PAGE_SIZE) (e := s.heapEnd)
      (by rw [size]; omega)
    obtain ⟨_,_,rfl⟩ := expandHeap_relinked (by omega) returned
    have backed := mapPages_backed (ready.backed init) (ready.aligned init) (by rw [size]; exact low) supplied
      (fun k inside => mem_pagesFrom inside)
    rw [size] at backed
    rw [mapped] at backed ⊢
    exact ⟨ready.unlocked,backed.sound,fun _ => Nat.dvd_add (ready.aligned init) ⟨_,(size.symm.trans (Nat.mul_comm _ _))⟩,
      fun _ => backed⟩

theorem pageRun_ready (run : PageRun (fun s call => call.Supplies s) s) : Ready s := by
  induction run with
  | start _ fresh unlocked met returned =>
    obtain ⟨bounded,left⟩ := met
    cases returned
    exact ⟨unlocked,startPaging_wellformed bounded left,fun init => absurd init (by simp [fresh]),
      fun init => absurd init (by simp [fresh])⟩
  | call _ _ _ allowed met returned ih => exact call_ready ih allowed met returned

theorem ownFrames_of_backed (backed : Backed s.paging s.granted s.heapBase s.heapEnd) : OwnFrames s := by
  refine ⟨fun v ⟨whole,above,before⟩ => ?_,fun v w ⟨wholeV,aboveV,beforeV⟩ ⟨wholeW,aboveW,beforeW⟩ same => ?_⟩
  · obtain ⟨i,handed,mapped,_⟩ := backed.pages v whole above before
    exact ⟨i,handed,mapped⟩
  · rcases Nat.lt_trichotomy v w with less | equal | more
    · exact absurd same (backed.apart v w wholeV wholeW aboveV less beforeW)
    · exact equal
    · exact absurd same.symm (backed.apart w v wholeW wholeV aboveW more beforeV)

/-- In every run whose requests all hand out frames, each page of the heap is mapped to
    a frame of its own that was handed out for it. -/
theorem pageRun_ownFrames (run : PageRun (fun s call => call.Supplies s) s) (initialized : s.HeapInitialized = true) :
    OwnFrames s := ownFrames_of_backed ((pageRun_ready run).backed initialized)

/-- A machine with 13 clear frames. -/
def thirteenFrames : Kernel where
  memory := fun _ => 0#8
  paging := ⟨⟨⟨2,0,fun i => if i = 0 then 0b11100000#8 else 0#8⟩,true,0,0,0,0,by decide⟩,fun _ _ => ⟨0#64⟩,0,.memory⟩
  heapBase := 0
  heapEnd := 0
  LastSegment := 0
  HeapInitialized := false
  memoryLock := false
  earlyMallocBase := 0x40000
  earlyMallocInit := false
  baseOffset := 0
  granted := []

/-- The machine with paging and with the first two pages of the heap mapped. -/
def thirteenFramesMapped : Kernel :=
  ({ thirteenFrames with paging := thirteenFrames.paging.startPaging, heapBase := 0x100000000000 } : Kernel).mapPages 0x100000000000 2

/-- Two pages when the heap is initialized, and one when it grows. -/
theorem pageRun_ownFrames_thirteenFrames : ∃ s, PageRun (fun s call => call.Supplies s) s ∧ s.heapBase = 0x100000000000 ∧
    s.heapEnd = 0x100000003000 ∧ OwnFrames s := by
  have range : ({ thirteenFrames with paging := thirteenFrames.paging.startPaging } : Kernel).HeapRange 0x100000000000 2 :=
    ⟨by decide,⟨0x100000000,rfl⟩,by decide,by decide,by decide⟩
  have supplied : Supplied thirteenFrames.paging.startPaging 2 (pagesFrom 0x100000000000 2) := by
    simp only [Supplied]
    decide +kernel
  have left : thirteenFrames.paging.frames.clearFrames.Nonempty := ⟨3,by decide +kernel⟩
  have started : PageRun (fun s call => call.Supplies s) { thirteenFrames with paging := thirteenFrames.paging.startPaging } :=
    .start (s := thirteenFrames) 0 rfl rfl ⟨by decide +kernel,left⟩ rfl
  obtain ⟨s,returns,rep,base,ends,paging,granted⟩ := initializeHeap_spec range rfl rfl
  have run := PageRun.call (.InitializeHeap 0x100000000000 2) 2 started range (fun _ => ⟨by decide,supplied⟩) (returns 0)
  obtain ⟨t,expanded⟩ : ∃ t, s.ExpandHeap 0x1000 = some t := by
    rw [ExpandHeap,rep.initialized]
    exact ⟨_,rfl⟩
  have whole : pageRound 0x1000 = 0x1000 := by decide
  have one : pageRound 0x1000 / PAGE_SIZE = 1 := by decide
  have more : Supplied s.paging 1 (pagesFrom s.heapEnd 1) := by
    have concrete : Supplied thirteenFramesMapped.paging 1 (pagesFrom (0x100000000000 + 2 * PAGE_SIZE) 1) := by
      simp only [Supplied]
      decide +kernel
    rw [paging,ends]
    exact concrete
  have low : s.heapEnd + pageRound 0x1000 ≤ 2^48 := by
    rw [ends]
    decide
  have grown := PageRun.call (.ExpandHeap 0x1000) 0 run trivial ⟨low,by rw [one]; exact more⟩ expanded
  obtain ⟨memory,last,tIs⟩ := expandHeap_relinked (by rw [ends,whole]; decide) expanded
  have initialized : t.HeapInitialized = true := by
    rw [tIs]
    exact rep.initialized
  refine ⟨t,grown,?_,?_,pageRun_ownFrames grown initialized⟩
  · rw [tIs]
    exact base
  · rw [tIs,whole,ends]
    rfl

/-- A machine with five clear frames: they are taken by the `PML4`, one heap page and the
    three tables above it. -/
def fiveFrames : Kernel where
  memory := fun _ => 0#8
  paging := ⟨⟨⟨1,0,fun _ => 0b11100000#8⟩,true,0,0,0,0,by decide⟩,fun _ _ => ⟨0#64⟩,0,.memory⟩
  heapBase := 0
  heapEnd := 0
  LastSegment := 0
  HeapInitialized := false
  memoryLock := false
  earlyMallocBase := 0x40000
  earlyMallocInit := false
  baseOffset := 0
  granted := []

/-- The machine with paging and with the pages of the heap mapped. -/
def fiveFramesMapped : Kernel :=
  ({ fiveFrames with paging := fiveFrames.paging.startPaging, heapBase := 0x100000000000 } : Kernel).mapPages 0x100000000000 1

theorem fiveFrames_range : ({ fiveFrames with paging := fiveFrames.paging.startPaging } : Kernel).HeapRange 0x100000000000 1 :=
  ⟨by decide,⟨0x100000000,rfl⟩,by decide,by decide,by decide⟩

/-- The second page of the heap finds no frame. -/
theorem fiveFrames_not_ownFrames :
    ¬ ∀ s, PageRun (fun _ _ => True) s → s.HeapInitialized = true → OwnFrames s := by
  intro all
  have started : PageRun (fun _ _ => True) { fiveFrames with paging := fiveFrames.paging.startPaging } :=
    .start (s := fiveFrames) 0 rfl rfl trivial rfl
  obtain ⟨s,returns,rep,base,ends,paging,granted⟩ := initializeHeap_spec fiveFrames_range rfl rfl
  have run := PageRun.call (.InitializeHeap 0x100000000000 1) 2 started fiveFrames_range trivial (returns 0)
  obtain ⟨t,expanded⟩ : ∃ t, s.ExpandHeap 0x1000 = some t := by
    rw [ExpandHeap,rep.initialized]
    exact ⟨_,rfl⟩
  have run' := PageRun.call (.ExpandHeap 0x1000) 0 run trivial trivial expanded
  have whole : pageRound 0x1000 = 0x1000 := by decide
  have one : pageRound 0x1000 / PAGE_SIZE = 1 := by decide
  obtain ⟨memory,last,tIs⟩ := expandHeap_relinked (by rw [ends,whole]; decide) expanded
  rw [one] at tIs
  have failed : s.paging.frames.requestFrame.1 = none := by
    rw [paging]
    exact (by decide +kernel : fiveFramesMapped.paging.frames.requestFrame.1 = none)
  have handed : t.granted = [(0x100000000000,4 * PAGE_SIZE)] := by
    have first : t.granted = s.granted := by
      rw [tIs]
      simp only [mapPages,mapPage,failed]
    rw [first,granted]
    exact (by decide +kernel : fiveFramesMapped.granted = [(0x100000000000,4 * PAGE_SIZE)])
  have base' : t.heapBase = 0x100000000000 := by
    rw [tIs]
    exact base
  have ends' : t.heapEnd = 0x100000002000 := by
    rw [tIs,whole,ends]
    rfl
  have init' : t.HeapInitialized = true := by
    rw [tIs]
    exact rep.initialized
  obtain ⟨i,member,_⟩ := (all t run' init').1 0x100000001000 ⟨⟨0x100000001,rfl⟩,by rw [base']; decide,by rw [ends']; decide⟩
  rw [handed] at member
  simp at member

end WaifuOS.Kernel
