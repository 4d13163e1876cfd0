import WaifuOS.HeapCalls

/-!
Runs of the heap: `InitializeHeap`, then calls of `malloc`, `calloc` and `free`, the
last on live pointers only. In every state of a run the segments that are reached
from `heapBase` are well formed (`run_wellFormed`). A call of `malloc` returns a
block that is apart from all others and the first fit (`malloc_placed`), no call
touches the payload of another live block (`call_keepsLive`), and blocks that are
freed one after another leave the same segments in every order (`frees_perm`).
-/
namespace WaifuOS.Kernel
open WaifuOS.Words WaifuOS.Bytes WaifuOS.Tiling

/-- The headers that are reached from `heapBase` through `Next`. -/
inductive Segment (s : Kernel) : Nat → Prop
  | first : Segment s s.heapBase
  | next {seg : Nat} (earlier : Segment s seg) (more : s.Next seg ≠ 0) : Segment s (s.Next seg)

/-- A free segment with room for `size` bytes. -/
def Fitting (s : Kernel) (size seg : Nat) : Prop := Segment s seg ∧ s.Free seg = true ∧ size ≤ s.Length seg

/-- No growth that `size` bytes take makes `heapEnd` wrap. -/
def NoWrap (s : Kernel) (size : Nat) : Prop :=
  (∃ seg, Fitting s size seg) ∨ s.heapEnd + growths size (s.Free s.LastSegment) * pageRound size < 2^64

/-- The segments form a list from `heapBase` to `heapEnd` without gaps. -/
structure WellFormed (s : Kernel) : Prop where
  meets : ∀ seg, Segment s seg → s.Next seg ≠ 0 → seg + headerSize + s.Length seg = s.Next seg
  ends : ∀ seg, Segment s seg → s.Next seg = 0 → seg + headerSize + s.Length seg = s.heapEnd
  last : ∀ seg, Segment s seg ∧ s.Next seg = 0 ↔ seg = s.LastSegment
  first : s.Previous s.heapBase = 0
  previous : ∀ seg, Segment s seg → s.Next seg ≠ 0 → s.Previous (s.Next seg) = seg
  next : ∀ seg, Segment s seg → s.Previous seg ≠ 0 → Segment s (s.Previous seg) ∧ s.Next (s.Previous seg) = seg
  lengths : ∀ seg, Segment s seg → s.Length seg ≠ 0 ∧ 16 ∣ s.Length seg
  separate : ∀ seg, Segment s seg → s.Next seg ≠ 0 → ¬ (s.Free seg = true ∧ s.Free (s.Next seg) = true)

variable {s s' t : Kernel} {bs pre post : List Block} {b c : Block} {n x seg : Nat}

/-- What the header of a block of a chain reads. -/
theorem chain_read (chain : Chain s bs) (starts : Starts 32 s.heapBase bs seg b) : ∃ pre post,
    bs = pre ++ b :: post ∧ seg = s.heapBase + extent 32 pre ∧ s.Length seg = b.len ∧ s.Free seg = b.free ∧
      s.Previous seg = lastStart 32 0 s.heapBase pre ∧ s.Next seg = after 0 (seg + 32 + b.len) post := by
  obtain ⟨pre,post,rfl,rfl⟩ := starts_iff_append.mp starts
  obtain ⟨_,here,_⟩ := chain_mid chain
  exact ⟨pre,post,rfl,rfl,here.length,here.free,here.previous,here.next⟩

/-- The segments are where the blocks start. -/
theorem segment_iff (chain : Chain s bs) : Segment s seg ↔ ∃ b, Starts 32 s.heapBase bs seg b := by
  constructor
  · intro reached
    induction reached with
    | first =>
      have nonempty := chain.nonempty
      cases bs with
      | nil => exact absurd rfl nonempty
      | cons b bs => exact ⟨b,.inl ⟨rfl,rfl⟩⟩
    | @next seg _ more ih =>
      obtain ⟨b,starts⟩ := ih
      obtain ⟨pre,post,rfl,rfl,_,_,_,next⟩ := chain_read chain starts
      cases post with
      | nil => exact absurd next more
      | cons c post =>
        refine ⟨c,starts_iff_append.mpr ⟨pre ++ [b],post,by simp,?_⟩⟩
        rw [next,after,extent_append,extent_cons,extent_nil]
        omega
  · rintro ⟨b,starts⟩
    obtain ⟨pre,post,rfl,rfl⟩ := starts_iff_append.mp starts
    clear starts
    -- Block by block from the front.
    induction pre using List.reverseRecOn generalizing b post with
    | nil => exact .first
    | append_singleton pre c ih =>
      have whole : (pre ++ [c]) ++ b :: post = pre ++ c :: b :: post := by simp
      rw [whole] at chain
      have earlier := ih c (b :: post) chain
      obtain ⟨_,here,_⟩ := chain_mid chain
      have next : s.Next (s.heapBase + extent 32 pre) = s.heapBase + extent 32 pre + 32 + c.len := here.next
      have place : s.heapBase + extent 32 (pre ++ [c]) = s.Next (s.heapBase + extent 32 pre) := by
        rw [next,extent_append,extent_cons,extent_nil]
        omega
      rw [place]
      exact .next earlier (by have based := chain.based; omega)

/-- A segment that has a next one, and that next one. -/
theorem segment_next (chain : Chain s bs) (reached : Segment s seg) (more : s.Next seg ≠ 0) : ∃ pre b c post,
    bs = pre ++ b :: c :: post ∧ seg = s.heapBase + extent 32 pre ∧ s.Length seg = b.len ∧ s.Free seg = b.free ∧
      s.Next seg = seg + 32 + b.len ∧ s.Free (s.Next seg) = c.free ∧ s.Previous (s.Next seg) = seg := by
  obtain ⟨b,starts⟩ := (segment_iff chain).mp reached
  obtain ⟨pre,post,rfl,place,length,free,_,next⟩ := chain_read chain starts
  cases post with
  | nil => exact absurd next more
  | cons c post =>
    rw [after] at next
    obtain ⟨_,_,there,_⟩ := chain_mid chain
    rw [← place] at there
    exact ⟨pre,b,c,post,rfl,place,length,free,next,by rw [next]; exact there.free,by rw [next]; exact there.previous⟩

/-- The segment that has no next one is the last block. -/
theorem segment_last (chain : Chain s bs) (reached : Segment s seg) (none : s.Next seg = 0) : ∃ pre b,
    bs = pre ++ [b] ∧ seg = s.heapBase + extent 32 pre ∧ s.Length seg = b.len := by
  obtain ⟨b,starts⟩ := (segment_iff chain).mp reached
  obtain ⟨pre,post,rfl,place,length,_,_,next⟩ := chain_read chain starts
  cases post with
  | nil => exact ⟨pre,b,rfl,place,length⟩
  | cons c post =>
    rw [after] at next
    omega

/-- `LastSegment` is the last block. -/
theorem lastSegment_eq (chain : Chain s (pre ++ [b])) : s.LastSegment = s.heapBase + extent 32 pre ∧
    s.Free s.LastSegment = b.free ∧ s.Next s.LastSegment = 0 := by
  have last : s.LastSegment = s.heapBase + extent 32 pre := by rw [chain.last,lastStart_concat]
  obtain ⟨_,here,_⟩ := chain_mid chain
  rw [last]
  exact ⟨rfl,here.free,here.next⟩

/-- The segments of a heap at rest are well formed. -/
theorem wellFormed_of_represents (rep : Represents s bs) : WellFormed s := by
  have chain := rep.chain
  refine ⟨?_,?_,?_,?_,?_,?_,?_,?_⟩
  · intro seg reached more
    obtain ⟨pre,b,c,post,_,_,length,_,next,_,_⟩ := segment_next chain reached more
    rw [next,length,headerSize]
  · intro seg reached last
    obtain ⟨pre,b,rfl,rfl,length⟩ := segment_last chain reached last
    rw [length,headerSize,chain.ends,extent_append,extent_cons,extent_nil]
    omega
  · intro seg
    obtain ⟨front,d,rfl⟩ := List.eq_nil_or_concat' bs |>.resolve_left chain.nonempty
    obtain ⟨last,_,none⟩ := lastSegment_eq chain
    constructor
    · rintro ⟨reached,noNext⟩
      obtain ⟨pre,b,same,rfl,_⟩ := segment_last chain reached noNext
      rw [last,(List.append_inj' same rfl).1]
    · rintro rfl
      exact ⟨(segment_iff chain).mpr ⟨d,by rw [last]; exact starts_mid⟩,none⟩
  · have nonempty := chain.nonempty
    cases bs with
    | nil => exact absurd rfl nonempty
    | cons b bs => exact chain.linked.1.previous
  · intro seg reached more
    obtain ⟨pre,b,c,post,_,_,_,_,_,_,previous⟩ := segment_next chain reached more
    exact previous
  · intro seg reached before
    obtain ⟨b,starts⟩ := (segment_iff chain).mp reached
    obtain ⟨pre,post,rfl,place,_,_,previous,_⟩ := chain_read chain starts
    rcases List.eq_nil_or_concat' pre with rfl | ⟨front,c,rfl⟩
    · exact absurd previous before
    · have whole : (front ++ [c]) ++ b :: post = front ++ c :: b :: post := by simp
      rw [whole] at chain
      obtain ⟨_,here,_⟩ := chain_mid chain
      rw [lastStart_concat] at previous
      rw [extent_append,extent_cons,extent_nil] at place
      rw [previous]
      refine ⟨(segment_iff chain).mpr ⟨c,starts_mid⟩,?_⟩
      have next : s.Next (s.heapBase + extent 32 front) = s.heapBase + extent 32 front + 32 + c.len := here.next
      rw [next,place]
      omega
  · intro seg reached
    obtain ⟨b,starts⟩ := (segment_iff chain).mp reached
    obtain ⟨pre,post,rfl,_,length,_⟩ := chain_read chain starts
    rw [length]
    exact rep.multiples b (by simp)
  · intro seg reached more
    obtain ⟨pre,b,c,post,rfl,_,_,free,_,free',_⟩ := segment_next chain reached more
    rw [free,free']
    exact (separate_append.mp rep.separate).2.1.rel

inductive HeapCall
  | malloc (size : Nat)
  | calloc (size : Nat)
  | free (address : Nat)

namespace HeapCall

/-- The state after a call, and the pointer it returns. -/
def exec (fuel : Nat) (s : Kernel) : HeapCall → Option (Nat × Kernel)
  | .malloc size => s.malloc fuel size
  | .calloc size => s.calloc fuel size
  | .free address => (s.free address).map (fun s' => (0,s'))

/-- Live pointers are freed, and no growth wraps `heapEnd`. -/
def Allowed (s : Kernel) (live : List Nat) : HeapCall → Prop
  | .malloc size => roundSize size ≠ 0 → NoWrap s (roundSize size)
  | .calloc size => roundSize size ≠ 0 → NoWrap s (roundSize size)
  | .free address => address ∈ live

/-- The live pointers after a call that returned `p`. -/
def live (p : Nat) (live : List Nat) : HeapCall → List Nat
  | .malloc _ => if p = 0 then live else p :: live
  | .calloc _ => if p = 0 then live else p :: live
  | .free address => live.erase address

/-- More fuel changes no result of a call. -/
theorem exec_mono {call : HeapCall} {fuel k : Nat} {s : Kernel} {result : Nat × Kernel}
    (returned : call.exec fuel s = some result) : call.exec (fuel+k) s = some result := by
  cases call with
  | malloc size => exact malloc_mono returned
  | calloc size => exact calloc_mono returned
  | free address => exact returned

/-- The result of a call does not depend on the fuel. -/
theorem exec_agree (call : HeapCall) {fuel enough : Nat} {s : Kernel} {result other : Nat × Kernel}
    (returned : call.exec fuel s = some result) (returns : ∀ k, enough ≤ k → call.exec k s = some other) :
    result = other := by
  have more := exec_mono (k := enough) returned
  rw [returns (fuel + enough) (by omega)] at more
  exact (Option.some.inj more).symm

end HeapCall

/-- The states of a heap after `InitializeHeap` and some calls, with the live pointers.
    The first one is that of the allocation that `InitializeHeap` leaks. -/
inductive Run : Kernel → List Nat → Prop
  | start {s s' : Kernel} {heapStart pages fuel : Nat} (range : s.HeapRange heapStart pages)
      (fresh : s.HeapInitialized = false) (unlocked : s.memoryLock = false)
      (returned : s.InitializeHeap fuel heapStart pages = some s') : Run s' [heapStart + headerSize]
  | call {s s' : Kernel} {live : List Nat} {call : HeapCall} {fuel p : Nat} (earlier : Run s live)
      (allowed : call.Allowed s live) (returned : call.exec fuel s = some (p,s')) : Run s' (call.live p live)

/-- The live pointers are the payloads of the used blocks. -/
structure Tracks (s : Kernel) (bs : List Block) (live : List Nat) : Prop where
  represents : Represents s bs
  nodup : live.Nodup
  used : ∀ p, p ∈ live ↔ ∃ x, Used s.heapBase bs x ∧ p = x+32

variable {live : List Nat} {p q size : Nat}

/-- A word whose rounded size is not zero is rounded without a wrap. -/
theorem roundSize_of_nonzero (word : size < 2^64) (nonzero : roundSize size ≠ 0) : roundSize size = roundup16 size := by
  rw [roundSize_eq] at nonzero ⊢
  unfold roundup16 at nonzero ⊢
  omega

theorem fitting_iff (chain : Chain s bs) : Fitting s size seg ↔ ∃ b, Starts 32 s.heapBase bs seg b ∧ Fits size b := by
  constructor
  · rintro ⟨reached,free,room⟩
    obtain ⟨b,starts⟩ := (segment_iff chain).mp reached
    obtain ⟨_,_,_,_,length,taken,_⟩ := chain_read chain starts
    exact ⟨b,starts,taken ▸ free,by omega⟩
  · rintro ⟨b,starts,fits⟩
    obtain ⟨_,_,_,_,length,taken,_⟩ := chain_read chain starts
    have room := fits.2
    exact ⟨(segment_iff chain).mpr ⟨b,starts⟩,taken.trans fits.1,by omega⟩

theorem fits_iff (chain : Chain s bs) : (∃ b ∈ bs, Fits size b) ↔ ∃ seg, Fitting s size seg := by
  constructor
  · rintro ⟨b,member,fits⟩
    obtain ⟨pre,post,rfl⟩ := List.append_of_mem member
    exact ⟨_,(fitting_iff chain).mpr ⟨b,starts_mid,fits⟩⟩
  · rintro ⟨seg,fitting⟩
    obtain ⟨b,starts,fits⟩ := (fitting_iff chain).mp fitting
    exact ⟨b,starts_mem starts,fits⟩

/-- A call that allocates: the block at `x` is live after it, and the others are kept. -/
structure Allocated (s : Kernel) (live : List Nat) (size x : Nat) (s' : Kernel) (bs' : List Block) : Prop where
  tracks : Tracks s' bs' ((x+32) :: live)
  heapBase : s'.heapBase = s.heapBase
  block : ∃ l, size ≤ l ∧ Starts 32 s'.heapBase bs' x ⟨l,false⟩
  kept : ∀ q ∈ live, ∀ i, i < s.Length (q-32) → s'.memory (q+i) = s.memory (q+i)
  lengths : ∀ q ∈ live, s'.Length (q-32) = s.Length (q-32)
  firstFit : (∃ seg, Fitting s size seg) → Fitting s size x ∧ ∀ seg, Fitting s size seg → x ≤ seg

/-- The block of a live pointer. -/
theorem Tracks.block (tracks : Tracks s bs live) (member : q ∈ live) : 32 ≤ q ∧
    Starts 32 s.heapBase bs (q-32) ⟨s.Length (q-32),false⟩ := by
  obtain ⟨y,⟨c,starts,used⟩,rfl⟩ := (tracks.used q).mp member
  obtain ⟨_,_,_,_,length,_⟩ := chain_read tracks.represents.chain starts
  rw [Nat.add_sub_cancel,length]
  obtain ⟨l,free⟩ := c
  cases used
  exact ⟨by omega,starts⟩

/-- The new block is apart from the payloads of the blocks that were live. -/
theorem Allocated.apart (allocated : Allocated s live size x s' bs') (member : q ∈ live) :
    Apart (x+32) size q (s'.Length (q-32)) := by
  obtain ⟨l,fits,starts⟩ := allocated.block
  obtain ⟨low,starts'⟩ := allocated.tracks.block (List.mem_cons_of_mem _ member)
  rcases starts_apart starts starts' with ⟨same,_⟩ | before | behind
  · have nodup := allocated.tracks.nodup
    rw [show x + 32 = q by omega] at nodup
    exact absurd member (List.nodup_cons.mp nodup).1
  · exact .inl (by simp only at before; omega)
  · exact .inr (by simp only at behind; omega)

/-- A block that is used now is one more live pointer. -/
theorem Tracks.add {bs' : List Block} (tracks : Tracks s bs live) (represents : Represents s' bs')
    (new : ¬ Used s.heapBase bs x) (used : ∀ y, Used s'.heapBase bs' y ↔ Used s.heapBase bs y ∨ y = x) :
    Tracks s' bs' ((x+32) :: live) := by
  refine ⟨represents,?_,?_⟩
  · refine List.nodup_cons.mpr ⟨?_,tracks.nodup⟩
    intro member
    obtain ⟨y,taken,place⟩ := (tracks.used _).mp member
    obtain rfl : x = y := by omega
    exact new taken
  · intro q
    rw [List.mem_cons,tracks.used]
    constructor
    · rintro (rfl | ⟨y,taken,rfl⟩)
      · exact ⟨x,(used x).mpr (.inr rfl),rfl⟩
      · exact ⟨y,(used y).mpr (.inl taken),rfl⟩
    · rintro ⟨y,taken,rfl⟩
      rcases (used y).mp taken with old | rfl
      · exact .inr ⟨y,old,rfl⟩
      · exact .inl rfl

/-- `malloc` of a nonzero rounded size with room to grow returns a new live block. -/
theorem malloc_allocates (tracks : Tracks s bs live) (nonzero : roundSize n ≠ 0) (room : NoWrap s (roundSize n)) :
    ∃ x s' bs', Allocated s live (roundSize n) x s' bs' ∧
      ∃ enough, ∀ fuel, enough ≤ fuel → s.malloc fuel n = some (x+32,s') := by
  have rep := tracks.represents
  have chain := rep.chain
  obtain ⟨front,d,rfl⟩ := List.eq_nil_or_concat' bs |>.resolve_left chain.nonempty
  obtain ⟨_,lastFree,_⟩ := lastSegment_eq chain
  obtain ⟨g,x,bs',s',allocates,same,returns⟩ := malloc_spec rep nonzero (by
    rcases room with fits | below
    · exact .inl ((fits_iff chain).mpr fits)
    · exact .inr (lastFree ▸ below))
  obtain ⟨pre,b,post,rfl,fits,earlier,xIs,rfl⟩ := allocates.takes
  have base := allocates.heapBase
  have starts : Starts 32 s.heapBase (pre ++ b :: post) x b := starts_iff_append.mpr ⟨pre,post,rfl,xIs⟩
  have same_used : ∀ y, Used s.heapBase (pre ++ b :: post) y ↔ Used s.heapBase (front ++ [d]) y := fun y =>
    exists_congr (fun c => ⟨fun both => ⟨(allocates.used y c both.2).mp both.1,both.2⟩,
      fun both => ⟨(allocates.used y c both.2).mpr both.1,both.2⟩⟩)
  have carved : ∀ y, Used s'.heapBase (pre ++ (carve (roundSize n) b ++ post)) y ↔
      Used s.heapBase (front ++ [d]) y ∨ y = x := by
    intro y
    rw [base,used_carve fits.1,same_used,xIs]
  have new : ¬ Used s.heapBase (front ++ [d]) x := by
    intro used
    obtain ⟨c,starts',taken⟩ := (same_used x).mpr used
    rw [← starts_unique (by decide) starts starts',fits.1] at taken
    cases taken
  refine ⟨x,s',_,⟨tracks.add allocates.represents new carved,base,?_,?_,?_,?_⟩,returns⟩
  · obtain ⟨l,tail,first,room,_⟩ := carve_first (n := roundSize n) (b := b)
    refine ⟨l,room fits.2,?_⟩
    rw [base,first]
    exact starts_iff_append.mpr ⟨pre,tail ++ post,rfl,xIs⟩
  · intro q member i inside
    obtain ⟨low,starts'⟩ := tracks.block member
    exact allocates.kept (q-32) _ starts' rfl trivial (q+i) (by omega) (by simp only; omega)
  · intro q member
    obtain ⟨_,starts'⟩ := tracks.block member
    have still := starts_carve (n := roundSize n) ((allocates.used _ _ rfl).mpr starts') fits.1 rfl
    rw [← base] at still
    obtain ⟨_,_,_,_,length,_⟩ := chain_read allocates.represents.chain still
    exact length
  · intro some_fit
    have tiling := same ((fits_iff chain).mpr some_fit)
    rw [tiling] at starts
    refine ⟨(fitting_iff chain).mpr ⟨b,starts,fits⟩,?_⟩
    intro seg fitting
    obtain ⟨c,starts',fits'⟩ := (fitting_iff chain).mp fitting
    rw [← tiling] at starts'
    rcases starts_append.mp starts' with early | late
    · exact absurd fits' (earlier c (starts_mem early))
    · have low := starts_low late
      omega

/-- `calloc` allocates as `malloc` does, and clears the block. -/
theorem calloc_allocates (tracks : Tracks s bs live) (nonzero : roundSize n ≠ 0) (room : NoWrap s (roundSize n)) :
    ∃ x s' bs', Allocated s live (roundSize n) x s' bs' ∧ (∀ i, i < roundSize n → s'.memory (x+32+i) = 0#8) ∧
      ∃ enough, ∀ fuel, enough ≤ fuel → s.calloc fuel n = some (x+32,s') := by
  have idem := roundSize_idem n
  obtain ⟨x,s',bs',allocated,enough,returns⟩ := malloc_allocates (n := roundSize n) tracks (by rw [idem]; exact nonzero)
    (by rw [idem]; exact room)
  rw [idem] at allocated
  have rep := allocated.tracks.represents
  obtain ⟨l,fits,starts⟩ := allocated.block
  obtain ⟨pre,post,rfl,xIs⟩ := starts_iff_append.mp starts
  obtain ⟨filled,chain⟩ := fill_chain 0x00 rep.chain xIs fits
  have apart : ∀ z, z < x+32 ∨ x+32+roundSize n ≤ z → memset64 s'.memory (x+32) 0x00 (roundSize n) z = s'.memory z := by
    intro z outside
    rw [filled,fill_apart outside]
  -- The payloads of the other live blocks are apart from the block that is cleared.
  have other : ∀ q ∈ live, ∀ i, i < s.Length (q-32) → memset64 s'.memory (x+32) 0x00 (roundSize n) (q+i) = s'.memory (q+i) := by
    intro q member i inside
    have length := allocated.lengths q member
    rcases allocated.apart member with before | behind
    · exact apart _ (.inr (by omega))
    · exact apart _ (.inl (by omega))
  refine ⟨x,{ s' with memory := memset64 s'.memory (x+32) 0x00 (roundSize n) },_,
    ⟨⟨⟨chain,rep.initialized,rep.unlocked,rep.separate,rep.multiples,rep.aligned,rep.early⟩,allocated.tracks.nodup,
      allocated.tracks.used⟩,allocated.heapBase,⟨l,fits,starts⟩,?_,?_,allocated.firstFit⟩,?_,enough,fun fuel large => ?_⟩
  · intro q member i inside
    exact (other q member i inside).trans (allocated.kept q member i inside)
  · intro q member
    obtain ⟨_,starts'⟩ := allocated.tracks.block (List.mem_cons_of_mem _ member)
    obtain ⟨_,_,_,_,length,_⟩ := chain_read chain starts'
    exact length.trans (allocated.lengths q member)
  · intro i inside
    simp only [filled]
    rw [fill_at (by omega) (by omega)]
    simp [pattern]
  · simp only [calloc,returns fuel large,Option.bind_eq_bind,Option.bind_some]
    rw [if_pos (by omega)]

/-- `free` of a live pointer returns, and the pointer is live no longer. -/
theorem free_releases (tracks : Tracks s bs live) (member : p ∈ live) :
    ∃ s', s.free p = some s' ∧ Tracks s' (release 32 s.heapBase (p-32) bs) (live.erase p) ∧
      s'.heapBase = s.heapBase ∧ s'.heapEnd = s.heapEnd ∧
      ∀ q ∈ live, q ≠ p → ∀ i, i < s.Length (q-32) → s'.memory (q+i) = s.memory (q+i) := by
  obtain ⟨low,starts⟩ := tracks.block member
  obtain ⟨s',freed,rep',base,ends,kept⟩ := free_spec tracks.represents starts
  rw [Nat.sub_add_cancel low] at freed
  refine ⟨s',freed,⟨rep',tracks.nodup.erase p,?_⟩,base,ends,?_⟩
  · intro q
    have released : Used s'.heapBase (release 32 s.heapBase (p-32) bs) = fun y => Used s.heapBase bs y ∧ y ≠ p-32 := by
      funext y
      rw [base,Used,Used]
      apply propext
      constructor
      · rintro ⟨c,starts',used⟩
        obtain ⟨old,unmarked⟩ := (starts_mark used).mp ((starts_merge used).mp starts')
        exact ⟨⟨c,old,used⟩,of_decide_eq_false unmarked⟩
      · rintro ⟨⟨c,old,used⟩,other⟩
        exact ⟨c,(starts_merge used).mpr ((starts_mark used).mpr ⟨old,decide_eq_false other⟩),used⟩
    rw [tracks.nodup.mem_erase_iff,tracks.used,released]
    constructor
    · rintro ⟨other,y,used,rfl⟩
      exact ⟨y,⟨used,by omega⟩,rfl⟩
    · rintro ⟨y,⟨used,other⟩,rfl⟩
      exact ⟨by omega,y,used,rfl⟩
  · intro q live other i inside
    obtain ⟨low',starts'⟩ := tracks.block live
    exact kept (q-32) _ starts' rfl (by omega) (q+i) (by omega) (by simp only; omega)

/-- A size that rounds to zero allocates nothing. -/
theorem malloc_zero (fuel : Nat) (rep : Represents s bs) (zero : roundSize n = 0) : s.malloc (fuel+1) n = some (0,s) := by
  rw [malloc,rep.initialized,if_neg (by simp)]
  simp only [if_pos zero]

theorem calloc_zero {fuel : Nat} (rep : Represents s bs) (zero : roundSize n = 0) : s.calloc (fuel+1) n = some (0,s) := by
  have none := malloc_zero fuel (n := roundSize n) rep (by rw [roundSize_idem]; exact zero)
  simp [calloc,none]

/-- What a call does to the live payloads. -/
structure KeepsLive (s : Kernel) (live : List Nat) (call : HeapCall) (p : Nat) (s' : Kernel) : Prop where
  kept : ∀ q ∈ live, call ≠ .free q → ∀ i, i < s.Length (q - headerSize) → s'.memory (q+i) = s.memory (q+i)
  cleared : ∀ size, size < 2^64 → call = .calloc size → p ≠ 0 → ∀ i, i < roundup16 size → s'.memory (p+i) = 0#8

/-- A call returns, and keeps track of the live pointers. -/
theorem call_tracks {call : HeapCall} (tracks : Tracks s bs live) (allowed : call.Allowed s live) : ∃ p s',
    (∃ enough, ∀ fuel, enough ≤ fuel → call.exec fuel s = some (p,s')) ∧ (∃ bs', Tracks s' bs' (call.live p live)) ∧
      KeepsLive s live call p s' := by
  have rep := tracks.represents
  cases call with
  | malloc size =>
    by_cases zero : roundSize size = 0
    · refine ⟨0,s,⟨1,fun fuel large => ?_⟩,⟨bs,by rw [HeapCall.live,if_pos rfl]; exact tracks⟩,fun _ _ _ _ _ => rfl,
        fun _ _ other => by cases other⟩
      obtain ⟨k,rfl⟩ := Nat.exists_eq_add_of_le' large
      exact malloc_zero k rep zero
    · obtain ⟨x,t,bs',allocated,returns⟩ := malloc_allocates tracks zero (allowed zero)
      exact ⟨x+32,t,returns,⟨bs',by rw [HeapCall.live,if_neg (by omega)]; exact allocated.tracks⟩,
        fun q member _ => allocated.kept q member,fun _ _ other => by cases other⟩
  | calloc size =>
    by_cases zero : roundSize size = 0
    · refine ⟨0,s,⟨1,fun fuel large => ?_⟩,⟨bs,by rw [HeapCall.live,if_pos rfl]; exact tracks⟩,fun _ _ _ _ _ => rfl,
        fun _ _ _ nonzero => absurd rfl nonzero⟩
      obtain ⟨k,rfl⟩ := Nat.exists_eq_add_of_le' large
      exact calloc_zero rep zero
    · obtain ⟨x,t,bs',allocated,cleared,returns⟩ := calloc_allocates tracks zero (allowed zero)
      refine ⟨x+32,t,returns,⟨bs',by rw [HeapCall.live,if_neg (by omega)]; exact allocated.tracks⟩,
        fun q member _ => allocated.kept q member,fun n word same _ => ?_⟩
      cases same
      rw [← roundSize_of_nonzero word zero]
      exact cleared
  | free address =>
    obtain ⟨t,freed,tracks',_,_,kept⟩ := free_releases tracks allowed
    refine ⟨0,t,⟨0,fun fuel _ => ?_⟩,⟨_,tracks'⟩,fun q member other => kept q member (fun same => other (same ▸ rfl)),
      fun _ _ other => by cases other⟩
    rw [HeapCall.exec,freed]
    rfl

/-- Every state of a run keeps track of the live pointers. -/
theorem run_tracks (run : Run s live) : ∃ bs, Tracks s bs live := by
  induction run with
  | @start s s' heapStart pages fuel range fresh unlocked returned =>
    obtain ⟨t,returns,rep,base,_⟩ := initializeHeap_spec range fresh unlocked
    have more := initializeHeap_mono (k := 2) returned
    rw [returns fuel] at more
    cases more
    refine ⟨_,rep,by simp,?_⟩
    intro p
    have first : ∀ y, Used s'.heapBase ([] ++ (carve 16 ⟨pages * PAGE_SIZE - 32,true⟩ ++ [])) y ↔
        Used s'.heapBase [⟨pages * PAGE_SIZE - 32,true⟩] y ∨ y = s'.heapBase + extent 32 [] := fun y => used_carve rfl
    rw [List.mem_singleton]
    constructor
    · rintro rfl
      refine ⟨heapStart,?_,rfl⟩
      have used := (first heapStart).mpr (.inr (by rw [base,extent_nil]; rfl))
      simpa using used
    · rintro ⟨x,used,rfl⟩
      rcases (first x).mp (by simpa using used) with ⟨c,⟨_,rfl⟩ | none,taken⟩ | rfl
      · cases taken
      · exact none.elim
      · rw [base]
        rfl
  | call _ allowed returned ih =>
    obtain ⟨bs,tracks⟩ := ih
    obtain ⟨p,t,⟨enough,returns⟩,tracks',_⟩ := call_tracks tracks allowed
    cases HeapCall.exec_agree _ returned returns
    exact tracks'

/-- A call of `malloc` that takes the first block that fits, in a run. -/
theorem run_takes (run : Run s live) (rep : Represents s (pre ++ b :: post)) (nonzero : roundSize n ≠ 0) (fit : Fits (roundSize n) b)
    (skip : ∀ c ∈ pre, ¬ Fits (roundSize n) c) :
    ∃ s', Run s' ((s.heapBase + extent 32 pre + 32) :: live) ∧ Represents s' (pre ++ (carve (roundSize n) b ++ post)) ∧
      s'.heapBase = s.heapBase ∧ s'.heapEnd = s.heapEnd := by
  obtain ⟨s',returns,rep',base,ends,_⟩ := malloc_takes rep nonzero fit skip
  have allowed : (HeapCall.malloc n).Allowed s live := fun _ => .inl ((fits_iff rep.chain).mp ⟨b,by simp,fit⟩)
  have returned : (HeapCall.malloc n).exec ((pre ++ b :: post).length + 0 + 1) s = some (s.heapBase + extent 32 pre + 32,s') := returns 0
  have called := Run.call run allowed returned
  rw [HeapCall.live,if_neg (by omega)] at called
  exact ⟨s',called,rep',base,ends⟩

/-- A machine with cleared memory and with paging, whose page frames are free but the first one and that of the `PML4`. -/
def cleared : Kernel where
  memory := fun _ => 0#8
  paging := PageTables.startPaging ⟨⟨⟨0x8000,0,fun i => if i = 0 then 0b10000000#8 else 0#8⟩,true,0,0,0,0,by decide⟩,
    fun _ _ => ⟨0#64⟩,0,.memory⟩
  heapBase := 0
  heapEnd := 0
  LastSegment := 0
  HeapInitialized := false
  memoryLock := false
  earlyMallocBase := 0x40000
  earlyMallocInit := false
  baseOffset := 0
  granted := []

/-- The heap of the boot code on that machine, with its two blocks. -/
theorem cleared_blocks : ∃ s, Run s [0x100000000020] ∧ Represents s [⟨0x10,false⟩,⟨0xfffffb0,true⟩] ∧
    s.heapBase = 0x100000000000 ∧ s.heapEnd = 0x100010000000 := by
  have range : cleared.HeapRange 0x100000000000 0x10000 := ⟨by decide,⟨0x100000000,rfl⟩,by decide,by decide,by decide⟩
  obtain ⟨s,returns,rep,base,ends,_⟩ := initializeHeap_spec range rfl rfl
  exact ⟨s,.start range rfl rfl (returns 0),rep,base,ends⟩

/-- Two more blocks. -/
theorem cleared_mallocs : ∃ s, Run s [0x1000000000a0,0x100000000050,0x100000000020] ∧
    Represents s [⟨0x10,false⟩,⟨0x30,false⟩,⟨0x30,false⟩,⟨0xfffff10,true⟩] ∧ s.heapEnd = 0x100010000000 := by
  obtain ⟨s,run,rep,base,ends⟩ := cleared_blocks
  have rounded : roundSize 0x21 = 0x30 := by rw [roundSize_eq]; rfl
  have nonzero : roundSize 0x21 ≠ 0 := by rw [rounded]; decide
  obtain ⟨s₁,run₁,rep₁,base₁,ends₁⟩ := run_takes (n := 0x21) run
    (show Represents s ([⟨0x10,false⟩] ++ ⟨0xfffffb0,true⟩ :: []) from rep) nonzero (by rw [rounded]; decide) (by rw [rounded]; decide)
  rw [rounded] at rep₁
  obtain ⟨s₂,run₂,rep₂,_,ends₂⟩ := run_takes (n := 0x21) run₁
    (show Represents s₁ ([⟨0x10,false⟩,⟨0x30,false⟩] ++ ⟨0xfffff60,true⟩ :: []) from rep₁) nonzero
    (by rw [rounded]; decide) (by rw [rounded]; decide)
  rw [rounded] at rep₂
  rw [base₁,base] at run₂
  exact ⟨s₂,run₂,rep₂,(ends₂.trans ends₁).trans ends⟩

/-- In every run the segments are well formed, and the calls that are allowed return. -/
theorem run_wellFormed (run : Run s live) : WellFormed s ∧ ∀ call : HeapCall, call.Allowed s live →
    ∃ p s' enough, ∀ fuel, enough ≤ fuel → call.exec fuel s = some (p,s') := by
  obtain ⟨bs,tracks⟩ := run_tracks run
  refine ⟨wellFormed_of_represents tracks.represents,?_⟩
  intro call allowed
  obtain ⟨p,t,returns,_⟩ := call_tracks tracks allowed
  exact ⟨p,t,returns⟩

theorem cleared_room (ends : s.heapEnd = 0x100010000000) : NoWrap s (roundup16 0x21) := by
  have once : growths (roundup16 0x21) (s.Free s.LastSegment) ≤ 2 := by unfold growths; split <;> decide
  have page : pageRound (roundup16 0x21) = 0x1000 := by decide
  refine .inr ?_
  rw [ends,page]
  omega

/-- The block in the middle of three is freed. -/
theorem run_wellFormed_cleared : ∃ s t, Run s [0x1000000000a0,0x100000000050,0x100000000020] ∧ WellFormed s ∧
    Run t [0x1000000000a0,0x100000000020] ∧ WellFormed t := by
  obtain ⟨s,run,_⟩ := cleared_mallocs
  obtain ⟨wellFormed,returns⟩ := run_wellFormed run
  obtain ⟨p,t,enough,freed⟩ := returns (.free 0x100000000050) (by simp [HeapCall.Allowed])
  have after : Run t ((HeapCall.free 0x100000000050).live p [0x1000000000a0,0x100000000050,0x100000000020]) :=
    .call run (by simp [HeapCall.Allowed]) (freed enough (Nat.le_refl _))
  exact ⟨s,t,run,wellFormed,after,(run_wellFormed after).1⟩

/-- In every run `malloc` returns an aligned block that is apart from all others, and
    the first one that fits. -/
theorem malloc_placed (run : Run s live) (pos : 1 ≤ n) (room : NoWrap s (roundup16 n)) : ∃ p s',
    (∃ enough, ∀ fuel, enough ≤ fuel → s.malloc fuel n = some (p,s')) ∧ 16 ∣ p ∧
      s'.heapBase ≤ p ∧ p + roundup16 n ≤ s'.heapEnd ∧
      (∀ q ∈ live, Apart p (roundup16 n) q (s'.Length (q - headerSize))) ∧
      (∀ seg, Segment s' seg → Apart p (roundup16 n) seg headerSize) ∧
      ((∃ seg, Fitting s (roundup16 n) seg) →
        Fitting s (roundup16 n) (p - headerSize) ∧ ∀ seg, Fitting s (roundup16 n) seg → p - headerSize ≤ seg) := by
  obtain ⟨bs,tracks⟩ := run_tracks run
  have atLeast : n ≤ roundup16 n := by unfold roundup16; omega
  have word : roundup16 n < 2^64 := by
    rcases room with ⟨seg,_,_,fits⟩ | below
    · have length : s.Length seg < 256^8 := load_lt s.memory seg 8
      omega
    · have once : 1 ≤ growths (roundup16 n) (s.Free s.LastSegment) := by unfold growths; split <;> omega
      have pages : roundup16 n ≤ pageRound (roundup16 n) := by unfold pageRound; omega
      have product := Nat.mul_le_mul_right (pageRound (roundup16 n)) once
      omega
  have rounded : roundSize n = roundup16 n := by rw [roundSize_eq,Nat.mod_eq_of_lt word]
  obtain ⟨x,s',bs',allocated,returns⟩ := malloc_allocates (n := n) tracks (by omega) (by rw [rounded]; exact room)
  rw [rounded] at allocated
  have rep := allocated.tracks.represents
  obtain ⟨l,fits,starts⟩ := allocated.block
  have high := starts_high starts
  have low := starts_low starts
  have ends := rep.chain.ends
  simp only at high
  refine ⟨x+32,s',returns,?_,by omega,by omega,fun q member => allocated.apart member,?_,?_⟩
  · exact Nat.dvd_add (starts_dvd rep.aligned (by decide) rep.multiples starts) (by decide)
  · intro seg reached
    obtain ⟨c,starts'⟩ := (segment_iff rep.chain).mp reached
    rcases starts_apart starts starts' with ⟨rfl,_⟩ | before | behind
    · exact .inr (Nat.le_refl _)
    · exact .inl (by simp only at before; omega)
    · exact .inr (by rw [headerSize]; omega)
  · intro some_fit
    rw [headerSize,Nat.add_sub_cancel]
    exact allocated.firstFit some_fit

theorem malloc_placed_cleared : ∃ (s : Kernel) (p : Nat) (s' : Kernel),
    (∃ fuel, s.malloc fuel 0x21 = some (p,s')) ∧ 16 ∣ p ∧ p + 0x30 ≤ s'.heapEnd := by
  obtain ⟨s,run,_,_,ends⟩ := cleared_blocks
  obtain ⟨p,s',⟨enough,returns⟩,aligned,_,inside,_⟩ := malloc_placed (n := 0x21) run (by decide) (cleared_room ends)
  exact ⟨s,p,s',⟨enough,returns enough (Nat.le_refl _)⟩,aligned,inside⟩

/-- In every run a call keeps the payloads of the live blocks that it does not free,
    and `calloc` clears its block. -/
theorem call_keepsLive {call : HeapCall} (run : Run s live) (allowed : call.Allowed s live) : ∃ p s',
    (∃ enough, ∀ fuel, enough ≤ fuel → call.exec fuel s = some (p,s')) ∧
      (∀ q ∈ live, call ≠ .free q → ∀ i, i < s.Length (q - headerSize) → s'.memory (q+i) = s.memory (q+i)) ∧
      ∀ size, size < 2^64 → call = .calloc size → p ≠ 0 → ∀ i, i < roundup16 size → s'.memory (p+i) = 0#8 := by
  obtain ⟨bs,tracks⟩ := run_tracks run
  obtain ⟨p,t,returns,_,keeps⟩ := call_tracks tracks allowed
  exact ⟨p,t,returns,keeps.kept,keeps.cleared⟩

theorem call_keepsLive_cleared : ∃ (s : Kernel) (p : Nat) (s' : Kernel), (∃ fuel, s.calloc fuel 0x21 = some (p,s')) ∧
    (∀ i, i < s.Length 0x100000000000 → s'.memory (0x100000000020 + i) = s.memory (0x100000000020 + i)) ∧
      (p ≠ 0 → ∀ i, i < 0x30 → s'.memory (p+i) = 0#8) := by
  obtain ⟨s,run,_,_,ends⟩ := cleared_blocks
  have rounded : roundSize 0x21 = roundup16 0x21 := by rw [roundSize_eq]; decide
  have allowed : (HeapCall.calloc 0x21).Allowed s [0x100000000020] := by
    intro _
    rw [rounded]
    exact cleared_room ends
  obtain ⟨p,s',⟨enough,returns⟩,kept,zeros⟩ := call_keepsLive run allowed
  have whole : roundup16 0x21 = 0x30 := by decide
  have payload : 0x100000000020 - headerSize = 0x100000000000 := by decide
  refine ⟨s,p,s',⟨enough,returns enough (Nat.le_refl _)⟩,?_,?_⟩
  · intro i inside
    exact kept 0x100000000020 (by simp) (by simp) i (by rw [payload]; exact inside)
  · intro nonzero i inside
    exact zeros 0x21 (by decide) rfl nonzero i (by rw [whole]; exact inside)

/-- Frees the pointers one after another. -/
def frees (s : Kernel) (ps : List Nat) : Option Kernel := ps.foldlM (fun s p => s.free p) s

/-- The two heaps have the same segments. -/
structure SameSegments (s t : Kernel) : Prop where
  base : t.heapBase = s.heapBase
  ends : t.heapEnd = s.heapEnd
  last : t.LastSegment = s.LastSegment
  reached : ∀ seg, Segment t seg ↔ Segment s seg
  Length : ∀ seg, Segment s seg → t.Length seg = s.Length seg
  Free : ∀ seg, Segment s seg → t.Free seg = s.Free seg
  Next : ∀ seg, Segment s seg → t.Next seg = s.Next seg
  Previous : ∀ seg, Segment s seg → t.Previous seg = s.Previous seg

/-- The heap is one free segment. -/
structure OneFree (s : Kernel) : Prop where
  reached : ∀ seg, Segment s seg ↔ seg = s.heapBase
  free : s.Free s.heapBase = true
  length : s.heapBase + headerSize + s.Length s.heapBase = s.heapEnd
  next : s.Next s.heapBase = 0
  previous : s.Previous s.heapBase = 0
  last : s.LastSegment = s.heapBase

theorem frees_spec (ps : List Nat) (tracks : Tracks s bs live) (nodup : ps.Nodup) (subset : ∀ p ∈ ps, p ∈ live) :
    ∃ s', frees s ps = some s' ∧
      Represents s' ((ps.map (fun p => p-32)).foldl (fun bs x => release 32 s.heapBase x bs) bs) ∧
      s'.heapBase = s.heapBase ∧ s'.heapEnd = s.heapEnd := by
  induction ps generalizing s bs live with
  | nil => exact ⟨s,rfl,tracks.represents,rfl,rfl⟩
  | cons p ps ih =>
    obtain ⟨first,later⟩ := List.nodup_cons.mp nodup
    obtain ⟨t,freed,tracks',base,ends,_⟩ := free_releases tracks (subset p (by simp))
    obtain ⟨s',rest,rep,base',ends'⟩ := ih tracks' later (fun q member => by
      rw [tracks.nodup.mem_erase_iff]
      exact ⟨fun same => first (same ▸ member),subset q (by simp [member])⟩)
    refine ⟨s',?_,?_,base'.trans base,ends'.trans ends⟩
    · simp only [frees,List.foldlM_cons,freed,Option.bind_eq_bind,Option.bind_some]
      exact rest
    · rw [base] at rep
      exact rep

/-- Two heaps with the same tiling have the same segments. -/
theorem sameSegments (rep : Represents s bs) (rep' : Represents t bs) (base : t.heapBase = s.heapBase) :
    SameSegments s t := by
  have reached : ∀ seg, Segment t seg ↔ Segment s seg := by
    intro seg
    rw [segment_iff rep.chain,segment_iff rep'.chain,base]
  -- The same block stands behind both headers.
  have both : ∀ seg, Segment s seg → ∃ b prev next, Header s.memory seg b prev next ∧ Header t.memory seg b prev next := by
    intro seg here
    obtain ⟨b,starts⟩ := (segment_iff rep.chain).mp here
    obtain ⟨pre,post,rfl,rfl⟩ := starts_iff_append.mp starts
    obtain ⟨_,left,_⟩ := chain_mid rep.chain
    obtain ⟨_,right,_⟩ := chain_mid rep'.chain
    rw [base] at right
    exact ⟨b,_,_,left,right⟩
  refine ⟨base,?_,?_,reached,?_,?_,?_,?_⟩
  · rw [rep'.chain.ends,rep.chain.ends,base]
  · rw [rep'.chain.last,rep.chain.last,base]
  · intro seg here
    obtain ⟨b,prev,next,left,right⟩ := both seg here
    exact right.length.trans left.length.symm
  · intro seg here
    obtain ⟨b,prev,next,left,right⟩ := both seg here
    exact right.free.trans left.free.symm
  · intro seg here
    obtain ⟨b,prev,next,left,right⟩ := both seg here
    exact right.next.trans left.next.symm
  · intro seg here
    obtain ⟨b,prev,next,left,right⟩ := both seg here
    exact right.previous.trans left.previous.symm

theorem oneFree (rep : Represents s [⟨n,true⟩]) : OneFree s := by
  have chain := rep.chain
  obtain ⟨last,free,next⟩ := @lastSegment_eq s [] _ chain
  rw [extent_nil,Nat.add_zero] at last
  rw [last] at free next
  have reached : ∀ seg, Segment s seg ↔ seg = s.heapBase := by
    intro seg
    rw [segment_iff chain]
    constructor
    · rintro ⟨c,⟨rfl,_⟩ | none⟩
      · rfl
      · exact none.elim
    · rintro rfl
      exact ⟨_,.inl ⟨rfl,rfl⟩⟩
  have wellFormed := wellFormed_of_represents rep
  exact ⟨reached,free,wellFormed.ends _ .first next,next,wellFormed.first,last⟩

/-- Live blocks that are freed one after another leave the same segments in every
    order, and one free segment when all of them are freed. -/
theorem frees_perm {ps qs : List Nat} (run : Run s live) (nodup : ps.Nodup) (subset : ∀ p ∈ ps, p ∈ live)
    (perm : ps.Perm qs) : ∃ s₁ s₂, frees s ps = some s₁ ∧ frees s qs = some s₂ ∧ SameSegments s₁ s₂ ∧
      s₁.heapBase = s.heapBase ∧ s₁.heapEnd = s.heapEnd ∧ ((∀ p ∈ live, p ∈ ps) → OneFree s₁) := by
  obtain ⟨bs,tracks⟩ := run_tracks run
  obtain ⟨s₁,first,rep₁,base₁,ends₁⟩ := frees_spec ps tracks nodup subset
  obtain ⟨s₂,second,rep₂,base₂,_⟩ := frees_spec qs tracks (perm.nodup_iff.mp nodup)
    (fun q member => subset q (perm.mem_iff.mpr member))
  rw [release_all tracks.represents.separate] at rep₁ rep₂
  have marks : ∀ y, (y ∈ qs.map (fun p => p-32)) ↔ y ∈ ps.map (fun p => p-32) := fun y => (perm.map _).mem_iff.symm
  simp only [marks] at rep₂
  refine ⟨s₁,s₂,first,second,sameSegments rep₁ rep₂ (base₂.trans base₁.symm),base₁,ends₁,?_⟩
  intro all
  rw [merge_mark_all tracks.represents.chain.nonempty (fun x b starts used => decide_eq_true (List.mem_map.mpr
    ⟨x+32,all _ ((tracks.used _).mpr ⟨x,⟨b,starts,used⟩,rfl⟩),Nat.add_sub_cancel x 32⟩))] at rep₁
  exact oneFree rep₁

/-- Three blocks in two orders. -/
theorem frees_perm_cleared : ∃ s s₁ s₂, Run s [0x1000000000a0,0x100000000050,0x100000000020] ∧
    frees s [0x1000000000a0,0x100000000050,0x100000000020] = some s₁ ∧
    frees s [0x100000000050,0x1000000000a0,0x100000000020] = some s₂ ∧ SameSegments s₁ s₂ ∧ OneFree s₁ := by
  obtain ⟨s,run,_⟩ := cleared_mallocs
  obtain ⟨s₁,s₂,freed,freed',same,_,_,whole⟩ := frees_perm run (run_tracks run).choose_spec.nodup (fun p member => member)
    (.swap 0x100000000050 0x1000000000a0 [0x100000000020])
  exact ⟨s,s₁,s₂,run,freed,freed',same,whole (fun p member => member)⟩

end WaifuOS.Kernel
