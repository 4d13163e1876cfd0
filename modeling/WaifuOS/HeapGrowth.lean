import WaifuOS.HeapRuns

/-!
How often `malloc` grows the heap. `tracedMalloc` is `malloc` with the calls of
`ExpandHeap` that it makes (`tracedMalloc_erases`). In every run it grows the heap
never, once or twice, as the free segments and the rounded size tell
(`malloc_growths`). A block that was allocated without growing leaves no trace when
it is freed at once (`malloc_free`). Sizes just below the end of the word are not
served: their rounding wraps (`serves_iff`).
-/
namespace WaifuOS.Kernel
open WaifuOS.Words WaifuOS.Bytes WaifuOS.Tiling

/-- A call of `ExpandHeap`: the header that it writes, the length after its rounding,
    and how many pages it maps from the header on. -/
structure Expansion where
  newSegment : Nat
  length : Nat
  pageCount : Nat

/-- What `ExpandHeap` comes to for a length. -/
def expansion (s : Kernel) (length : Nat) : Expansion :=
  let length := if length % PAGE_SIZE ≠ 0 then wrap (length - length % PAGE_SIZE + PAGE_SIZE) else length
  ⟨s.heapEnd,length,length / PAGE_SIZE⟩

/-- `malloc`, with the calls of `ExpandHeap` in their order. -/
def tracedMalloc : Nat → Kernel → Nat → Option (Nat × Kernel × List Expansion)
  | 0, _, _ => none
  | fuel+1, s, size =>
    if !s.HeapInitialized then some ((s.earlyMalloc size).1,(s.earlyMalloc size).2,[])
    else
      let size := roundSize size
      if size = 0 then some (0,s,[])
      else do
        let s ← s.Aquire
        match ← s.search fuel s.heapBase size with
        | (some payload,s) => some (payload,s,[])
        | (none,s) =>
          let expansion := s.expansion size
          let s ← s.ExpandHeap size
          let (payload,s,later) ← tracedMalloc fuel s.Release size
          some (payload,s,expansion :: later)

variable {s s' t : Kernel} {bs pre post : List Block} {b : Block} {n p fuel : Nat} {es : List Expansion} {live : List Nat}

/-- Without the trace it is `malloc`. -/
theorem tracedMalloc_erases (fuel : Nat) (s : Kernel) (n : Nat) :
    (s.tracedMalloc fuel n).map (fun result => (result.1,result.2.1)) = s.malloc fuel n := by
  induction fuel generalizing s n with
  | zero => rfl
  | succ fuel ih =>
    rw [tracedMalloc,malloc]
    split
    · rfl
    · dsimp only
      split
      · rfl
      · simp only [Option.bind_eq_bind]
        cases s.Aquire with
        | none => rfl
        | some s₁ =>
          simp only [Option.bind_some]
          cases s₁.search fuel s₁.heapBase (roundSize n) with
          | none => rfl
          | some found =>
            obtain ⟨found,s₂⟩ := found
            cases found with
            | some payload => rfl
            | none =>
              simp only [Option.bind_some]
              cases s₂.ExpandHeap (roundSize n) with
              | none => rfl
              | some s₃ =>
                simp only [Option.bind_some]
                rw [← ih]
                cases s₃.Release.tracedMalloc fuel (roundSize n) <;> rfl

/-- A traced call is a call. -/
theorem malloc_of_traced (returned : s.tracedMalloc fuel n = some (p,s',es)) : s.malloc fuel n = some (p,s') := by
  rw [← tracedMalloc_erases,returned]
  rfl

/-- A search that finds a segment ends the call. -/
theorem tracedMalloc_found (rep : Represents s bs) (nonzero : roundSize n ≠ 0)
    (found : ({ s with memoryLock := true } : Kernel).search fuel s.heapBase (roundSize n) = some (some p,s')) :
    s.tracedMalloc (fuel+1) n = some (p,s',[]) := by
  rw [tracedMalloc,if_neg (by simp [rep.initialized])]
  simp only [if_neg nonzero,aquire_of_unlocked rep.unlocked,Option.bind_eq_bind,Option.bind_some,found]

/-- A search that finds none grows the heap, and the call starts again. -/
theorem tracedMalloc_missed (rep : Represents s bs) (nonzero : roundSize n ≠ 0)
    (missed : ({ s with memoryLock := true } : Kernel).search fuel s.heapBase (roundSize n) =
      some (none,{ s with memoryLock := true })) :
    s.tracedMalloc (fuel+1) n = (({ s with memoryLock := true } : Kernel).ExpandHeap (roundSize n)).bind (fun grown =>
      (grown.Release.tracedMalloc fuel (roundSize n)).map (fun result =>
        (result.1,result.2.1,s.expansion (roundSize n) :: result.2.2))) := by
  rw [tracedMalloc,if_neg (by simp [rep.initialized])]
  simp only [if_neg nonzero,aquire_of_unlocked rep.unlocked,Option.bind_eq_bind,Option.bind_some,missed]
  congr 1
  funext grown
  cases grown.Release.tracedMalloc fuel (roundSize n) with
  | none => rfl
  | some result => rfl

/-- The call returns from some fuel on, with these growths. -/
def Growing (s : Kernel) (n : Nat) (es : List Expansion) : Prop :=
  ∃ p s' enough, ∀ fuel, enough ≤ fuel → s.tracedMalloc fuel n = some (p,s',es)

/-- The pages that `n` bytes take are mapped, below the end of the word. -/
structure Maps (n : Nat) (e : Expansion) : Prop where
  length : e.length = pageRound n
  pages : e.pageCount * PAGE_SIZE = pageRound n
  below : e.newSegment + e.pageCount * PAGE_SIZE < 2^64

theorem expansion_maps (room : s.heapEnd + pageRound n < 2^64) : Maps n (s.expansion n) := by
  have rounded := pageRound_eq (show pageRound n < 2^64 by omega)
  have whole : pageRound n / PAGE_SIZE * PAGE_SIZE = pageRound n := by unfold pageRound PAGE_SIZE; omega
  refine ⟨rounded,?_,?_⟩
  · rw [expansion,rounded]
    exact whole
  · rw [expansion,rounded]
    simp only [whole]
    exact room

/-- Where a segment fits the heap does not grow. -/
theorem growing_fits (rep : Represents s bs) (nonzero : roundSize n ≠ 0) (fits : ∃ c ∈ bs, Fits (roundSize n) c) :
    Growing s n [] := by
  obtain ⟨pre,b,post,rfl,fit,skip⟩ := first_fit fits
  obtain ⟨p,s',found⟩ : ∃ p s', ∀ k, ({ s with memoryLock := true } : Kernel).search (pre.length + (k+1)) s.heapBase
      (roundSize n) = some (some p,s') := ⟨_,_,fun k => search_fits k (rep.chain.lock (l := true)) rfl fit skip⟩
  refine ⟨p,s',pre.length + 2,?_⟩
  intro fuel large
  obtain ⟨k,rfl⟩ := Nat.exists_eq_add_of_le large
  rw [show pre.length + 2 + k = pre.length + (k+1) + 1 by omega]
  exact tracedMalloc_found rep nonzero (found k)

/-- Where none fits it grows, and what follows is a call on the grown heap. -/
theorem growing_grows (rep : Represents s bs) (nonzero : roundSize n ≠ 0) (skip : ∀ c ∈ bs, ¬ Fits (roundSize n) c)
    (room : s.heapEnd + pageRound (roundSize n) < 2^64) :
    ∃ s', Represents s' (grow (roundSize n) bs) ∧ s'.heapEnd = s.heapEnd + pageRound (roundSize n) ∧
      ∀ es, Growing s' (roundSize n) es → Growing s n (s.expansion (roundSize n) :: es) := by
  obtain ⟨s₂,expanded,rep₂,_,ends₂,_⟩ := expand_spec rep (roundSize_dvd n) (Nat.pos_of_ne_zero nonzero) room
  refine ⟨s₂.Release,rep₂,ends₂,?_⟩
  intro es later
  obtain ⟨p,t,enough,returns⟩ := later
  refine ⟨p,t,bs.length + enough + 1,?_⟩
  intro fuel large
  obtain ⟨k,rfl⟩ := Nat.exists_eq_add_of_le large
  have missed := search_none (rep.chain.lock (l := true)) skip (enough + k)
  rw [show bs.length + enough + 1 + k = bs.length + (enough + k) + 1 by omega,tracedMalloc_missed rep nonzero missed,expanded,
    Option.bind_some,returns _ (by omega)]
  rfl

/-- Behind a used block and without room for the header one growth is not enough. -/
theorem grow_alone (separate : Separate (pre ++ [b])) (pos : 0 < n) (none : ¬ ∃ c ∈ pre ++ [b], Fits n c)
    (twice : ¬ (b.free = true ∨ n + 32 ≤ pageRound n)) : ¬ ∃ c ∈ grow n (pre ++ [b]), Fits n c := by
  rintro ⟨c,member,free,large⟩
  rw [grow_concat separate,glue_cons,if_neg (fun both => twice (.inl both.1))] at member
  rcases List.mem_append.mp member with old | here
  · exact none ⟨c,by simp [old],free,large⟩
  · rcases List.mem_cons.mp here with rfl | new
    · exact none ⟨c,by simp,free,large⟩
    · rw [List.mem_singleton.mp new] at large
      have some_pages : 32 ≤ pageRound n := by unfold pageRound; omega
      exact twice (.inr (by simp only at large; omega))

/-- The growths of a call with room to grow. -/
theorem growing_spec (rep : Represents s (pre ++ [b])) (nonzero : roundSize n ≠ 0)
    (room : (∃ c ∈ pre ++ [b], Fits (roundSize n) c) ∨
      s.heapEnd + growths (roundSize n) b.free * pageRound (roundSize n) < 2^64) :
    ∃ es, Growing s n es ∧ (∀ e ∈ es, Maps (roundSize n) e) ∧ ((∃ c ∈ pre ++ [b], Fits (roundSize n) c) → es = []) ∧
      ((¬ ∃ c ∈ pre ++ [b], Fits (roundSize n) c) → es.length = growths (roundSize n) b.free) := by
  by_cases fits : ∃ c ∈ pre ++ [b], Fits (roundSize n) c
  · exact ⟨[],growing_fits rep nonzero fits,by simp,fun _ => rfl,fun none => absurd fits none⟩
  · have below := room.resolve_left fits
    have idem := roundSize_idem n
    have again : roundSize (roundSize n) ≠ 0 := by rw [idem]; exact nonzero
    have pos := Nat.pos_of_ne_zero nonzero
    by_cases once : b.free = true ∨ roundSize n + 32 ≤ pageRound (roundSize n)
    · have single : growths (roundSize n) b.free = 1 := if_pos once
      rw [single,Nat.one_mul] at below
      obtain ⟨s₁,rep₁,_,grows⟩ := growing_grows rep nonzero (fun c member fit => fits ⟨c,member,fit⟩) below
      have fits₁ := grow_fits rep.separate pos once
      refine ⟨[s.expansion (roundSize n)],grows [] (growing_fits rep₁ again (idem.symm ▸ fits₁)),?_,
        fun fit => absurd fit fits,fun _ => single.symm⟩
      intro e member
      rw [List.mem_singleton.mp member]
      exact expansion_maps below
    · -- The new block stands alone, and the next one is combined with it.
      have twice : growths (roundSize n) b.free = 2 := if_neg once
      rw [twice] at below
      obtain ⟨s₁,rep₁,ends₁,grows⟩ := growing_grows rep nonzero (fun c member fit => fits ⟨c,member,fit⟩) (by omega)
      have alone := grow_alone rep.separate pos fits once
      obtain ⟨s₂,rep₂,_,grows'⟩ := growing_grows rep₁ again (by rw [idem]; exact fun c member fit => alone ⟨c,member,fit⟩)
        (by rw [idem]; omega)
      rw [idem] at rep₂ grows'
      have fits₂ := grow_twice_fits rep.separate rep₁.separate pos
      refine ⟨[s.expansion (roundSize n),s₁.expansion (roundSize n)],
        grows _ (grows' [] (growing_fits rep₂ again (idem.symm ▸ fits₂))),?_,fun fit => absurd fit fits,fun _ => twice.symm⟩
      intro e member
      rcases List.mem_cons.mp member with rfl | second
      · exact expansion_maps (by omega)
      · rw [List.mem_singleton.mp second]
        exact expansion_maps (by omega)

/-- In every run a call returns, and its growths are as many as the free segments and
    the rounded size tell. -/
theorem run_growing (run : Run s live) (nonzero : roundSize n ≠ 0) (room : NoWrap s (roundSize n)) :
    ∃ es, Growing s n es ∧ (∀ e ∈ es, Maps (roundSize n) e) ∧ ((∃ seg, Fitting s (roundSize n) seg) → es = []) ∧
      ((¬ ∃ seg, Fitting s (roundSize n) seg) → es.length = growths (roundSize n) (s.Free s.LastSegment)) := by
  obtain ⟨bs,tracks⟩ := run_tracks run
  have rep := tracks.represents
  obtain ⟨front,d,rfl⟩ := List.eq_nil_or_concat' bs |>.resolve_left rep.chain.nonempty
  obtain ⟨_,lastFree,_⟩ := lastSegment_eq rep.chain
  rw [NoWrap,lastFree,← fits_iff rep.chain] at room
  rw [lastFree,← fits_iff rep.chain]
  exact growing_spec rep nonzero room

/-- A size that is rounded leaves room for the header in its pages, unless it ends
    with the page or 16 bytes before it. -/
theorem header_room (unit : 16 ∣ n) : n + 32 ≤ pageRound n ↔ n % 4096 ≠ 0 ∧ n % 4096 ≠ 4080 := by
  simp only [pageRound]
  omega

/-- In every run `malloc` returns. It grows the heap never when a free segment fits,
    otherwise once when the last segment is free or the new one has room for its header,
    otherwise twice. -/
theorem malloc_growths (run : Run s live) (some_bytes : 16 ≤ roundSize n) (room : NoWrap s (roundSize n)) :
    ∃ p s' es, (∃ enough, ∀ fuel, enough ≤ fuel →
        s.tracedMalloc fuel n = some (p,s',es) ∧ s.malloc fuel n = some (p,s')) ∧
      ((∃ seg, Fitting s (roundSize n) seg) → es.length = 0) ∧
      ((¬ ∃ seg, Fitting s (roundSize n) seg) →
        ((s.Free s.LastSegment = true ∨ (roundSize n % 4096 ≠ 0 ∧ roundSize n % 4096 ≠ 4080)) → es.length = 1) ∧
        (¬ (s.Free s.LastSegment = true ∨ (roundSize n % 4096 ≠ 0 ∧ roundSize n % 4096 ≠ 4080)) → es.length = 2)) := by
  obtain ⟨es,⟨p,s',enough,returns⟩,_,fits,grows⟩ := run_growing run (by omega) room
  refine ⟨p,s',es,⟨enough,fun fuel large => ⟨returns fuel large,malloc_of_traced (returns fuel large)⟩⟩,
    fun fit => by rw [fits fit]; rfl,fun none => ?_⟩
  have count := grows none
  have header := header_room (roundSize_dvd n)
  rw [growths] at count
  constructor
  · intro once
    rwa [if_pos (once.imp_right header.mpr)] at count
  · intro twice
    rwa [if_neg (fun once => twice (once.imp_right header.mp))] at count

/-- A request for more than is free grows the heap once. -/
theorem malloc_growths_cleared : ∃ (s : Kernel) (p : Nat) (s' : Kernel) (es : List Expansion) (fuel : Nat),
    Run s [0x1000000000a0,0x100000000050,0x100000000020] ∧ s.tracedMalloc fuel 0x10000000 = some (p,s',es) ∧ es.length = 1 := by
  obtain ⟨s,run,rep,ends⟩ := cleared_mallocs
  have rounded : roundSize 0x10000000 = 0x10000000 := by rw [roundSize_eq]; rfl
  have none : ¬ ∃ seg, Fitting s 0x10000000 seg := by
    rw [← fits_iff rep.chain]
    decide
  have last : s.Free s.LastSegment = true :=
    (@lastSegment_eq s [⟨0x10,false⟩,⟨0x30,false⟩,⟨0x30,false⟩] ⟨0xfffff10,true⟩ rep.chain).2.1
  have room : NoWrap s 0x10000000 := by
    refine .inr ?_
    rw [ends,last]
    decide
  obtain ⟨p,s',es,⟨enough,returns⟩,_,grows⟩ := malloc_growths (n := 0x10000000) run (by rw [rounded]; decide) (by rw [rounded]; exact room)
  rw [rounded] at grows
  exact ⟨s,p,s',es,enough,run,(returns enough (Nat.le_refl _)).1,(grows none).1 (.inl last)⟩

/-- Where none fits every result comes with a growth. -/
theorem tracedMalloc_grows (rep : Represents s bs) (nonzero : roundSize n ≠ 0) (skip : ∀ c ∈ bs, ¬ Fits (roundSize n) c)
    (returned : s.tracedMalloc fuel n = some (p,s',es)) : ∃ later, es = s.expansion (roundSize n) :: later := by
  cases fuel with
  | zero => cases returned
  | succ k =>
    rw [tracedMalloc,if_neg (by simp [rep.initialized])] at returned
    simp only [if_neg nonzero,aquire_of_unlocked rep.unlocked,Option.bind_eq_bind,Option.bind_some,
      Option.bind_eq_some_iff] at returned
    obtain ⟨found,searched,rest⟩ := returned
    -- With more fuel the search comes to its end.
    have more := search_mono (k := bs.length) searched
    rw [Nat.add_comm k,search_none (rep.chain.lock (l := true)) skip k] at more
    cases more
    simp only [Option.bind_eq_some_iff] at rest
    obtain ⟨grown,_,⟨q,t,later⟩,_,same⟩ := rest
    cases same
    exact ⟨later,rfl⟩

/-- The block that a free block was carved into is that free block again once the
    first part is released. -/
theorem release_carve (a : Nat) (separate : Separate (pre ++ b :: post)) (free : b.free = true) :
    release 32 a (a + extent 32 pre) (pre ++ (carve n b ++ post)) = pre ++ b :: post := by
  have whole : merge 32 (pre ++ b :: post) = pre ++ b :: post := merge_of_separate separate
  have same : b = ⟨b.len,true⟩ := by rw [← free]
  simp only [carve]
  split
  · rename_i room
    have marked := mark_one a pre ⟨n,false⟩ (⟨b.len - n - 32,true⟩ :: post) (show 0 < 32 by decide)
    have parts : n + 32 + (b.len - n - 32) = b.len := by omega
    rw [List.cons_append,List.cons_append,List.nil_append,release,marked,merge_congr (merge_parts _ _),parts,← same,whole]
  · have marked := mark_one a pre ⟨b.len,false⟩ post (show 0 < 32 by decide)
    rw [List.cons_append,List.nil_append,release,marked,← same,whole]

/-- In every run a block that `malloc` takes without growing the heap leaves the
    segments as they were when it is freed at once. -/
theorem malloc_free (run : Run s live) (returned : s.tracedMalloc fuel n = some (p,s',[])) (success : p ≠ 0) :
    ∃ t, s'.free p = some t ∧ SameSegments s t := by
  obtain ⟨bs,tracks⟩ := run_tracks run
  have rep := tracks.represents
  have called := malloc_of_traced returned
  by_cases zero : roundSize n = 0
  · have none := HeapCall.exec_agree (.malloc n) called (fun k (large : 1 ≤ k) => by
      obtain ⟨k,rfl⟩ := Nat.exists_eq_add_of_le' large
      exact malloc_zero k rep zero)
    cases none
    exact absurd rfl success
  · have fits : ∃ c ∈ bs, Fits (roundSize n) c := by
      by_contra none
      obtain ⟨_,grown⟩ := tracedMalloc_grows rep zero (fun c member fit => none ⟨c,member,fit⟩) returned
      cases grown
    obtain ⟨x,bs',t,takes,returns,rep',base,_⟩ := malloc_fits rep zero fits
    have same := HeapCall.exec_agree (.malloc n) called (fun k (large : bs.length + 1 ≤ k) => by
      obtain ⟨k,rfl⟩ := Nat.exists_eq_add_of_le large
      rw [show bs.length + 1 + k = bs.length + k + 1 by omega]
      exact returns k)
    cases same
    obtain ⟨pre,b,post,rfl,fit,_,rfl,rfl⟩ := takes
    obtain ⟨l,rest,first,_⟩ := carve_first (n := roundSize n) (b := b)
    have starts : Starts 32 s'.heapBase (pre ++ (carve (roundSize n) b ++ post)) (s.heapBase + extent 32 pre) ⟨l,false⟩ := by
      rw [first,base]
      exact starts_mid
    obtain ⟨u,freed,rep₂,base₂,_⟩ := free_spec rep' starts
    rw [base,release_carve s.heapBase rep.separate fit.1] at rep₂
    exact ⟨u,freed,sameSegments rep rep₂ (base₂.trans base)⟩

theorem malloc_free_cleared : ∃ (s s' t : Kernel) (p : Nat), Run s [0x100000000020] ∧ p ≠ 0 ∧
    (∃ fuel, s.malloc fuel 0x21 = some (p,s')) ∧ s'.free p = some t ∧ SameSegments s t := by
  obtain ⟨s,run,rep,_⟩ := cleared_blocks
  have rounded : roundSize 0x21 = 0x30 := by rw [roundSize_eq]; rfl
  have nonzero : roundSize 0x21 ≠ 0 := by rw [rounded]; decide
  have fits : ∃ c ∈ ([⟨0x10,false⟩,⟨0xfffffb0,true⟩] : List Block), Fits (roundSize 0x21) c := by
    rw [rounded]
    decide
  obtain ⟨p,s',enough,returns⟩ := growing_fits rep nonzero fits
  have returned := returns enough (Nat.le_refl _)
  obtain ⟨x,_,t,_,allocates,_⟩ := malloc_fits rep nonzero fits
  have called : (HeapCall.malloc 0x21).exec 3 s = some (x+32,t) := allocates 0
  have same := HeapCall.exec_agree _ called (fun k large => malloc_of_traced (returns k large))
  cases same
  obtain ⟨u,freed,restored⟩ := malloc_free run returned (by omega)
  exact ⟨s,s',u,_,run,by omega,⟨enough,malloc_of_traced returned⟩,freed,restored⟩

/-- What a call returns and maps is as large as the request asks, and each new header
    lies in the pages that are mapped for it. -/
structure Served (s : Kernel) (n p : Nat) (s' : Kernel) (es : List Expansion) : Prop where
  block : p = 0 ∨ (s'.heapBase ≤ p ∧ p + n ≤ s'.heapEnd ∧ n ≤ s'.Length (p - headerSize))
  headers : ∀ e ∈ es, e.newSegment + headerSize ≤ e.newSegment + e.pageCount * PAGE_SIZE
  rounded : n ≤ roundSize n
  lengths : ∀ e ∈ es, roundSize n ≤ e.length

/-- The call returns, and serves the request. -/
def Serves (s : Kernel) (n : Nat) : Prop :=
  ∃ p s' es, (∃ enough, ∀ fuel, enough ≤ fuel → s.tracedMalloc fuel n = some (p,s',es)) ∧ Served s n p s' es

/-- There are addresses for the pages that the request maps. -/
def Available (s : Kernel) (n : Nat) : Prop :=
  (∃ seg, Fitting s (roundSize n) seg) ∨
    s.heapEnd + growths (roundSize n) (s.Free s.LastSegment) * wrap (pageRound (roundSize n)) < 2^64

/-- Neither rounding of the size wraps, or a segment is there already. -/
def Rounds (s : Kernel) (n : Nat) : Prop :=
  n = 0 ∨ (n ≤ 2^64 - 16 ∧ ((∃ seg, Fitting s (roundup16 n) seg) ∨ roundup16 n ≤ 2^64 - 4096))

theorem roundSize_of_le (small : n ≤ 2^64 - 16) : roundSize n = roundup16 n := by
  rw [roundSize_eq]
  unfold roundup16
  omega

/-- Just below the end of the word no page is mapped. -/
theorem expansion_empty (low : 2^64 - 4096 < n) (word : n < 2^64) : (s.expansion n).pageCount = 0 := by
  have partly : n % PAGE_SIZE ≠ 0 := by unfold PAGE_SIZE; omega
  have nothing : wrap (n - n % PAGE_SIZE + PAGE_SIZE) = 0 := by unfold wrap PAGE_SIZE; omega
  simp only [expansion,if_pos partly,nothing]
  rfl

/-- A request that is served is rounded without a wrap. -/
theorem rounds_of_serves (rep : Represents s bs) (word : n < 2^64) (serves : Serves s n) : Rounds s n := by
  obtain ⟨p,s',es,⟨enough,returns⟩,served⟩ := serves
  have rounded := served.rounded
  rcases Nat.eq_zero_or_pos n with zero | pos
  · exact .inl zero
  · have small : n ≤ 2^64 - 16 := by
      rw [roundSize_eq] at rounded
      unfold roundup16 at rounded
      omega
    have same := roundSize_of_le small
    refine .inr ⟨small,or_iff_not_imp_left.mpr ?_⟩
    intro none
    have skip : ∀ c ∈ bs, ¬ Fits (roundSize n) c := by
      intro c member fit
      rw [same] at fit
      exact none ((fits_iff rep.chain).mp ⟨c,member,fit⟩)
    obtain ⟨later,rfl⟩ := tracedMalloc_grows rep (by omega) skip (returns enough (Nat.le_refl _))
    by_contra large
    have empty := expansion_empty (s := s) (n := roundSize n) (by omega) (roundSize_word n)
    have header := served.headers _ (List.mem_cons_self ..)
    rw [empty,headerSize] at header
    omega

/-- No bytes are asked for and none are handed out. -/
theorem serves_zero (rep : Represents s bs) : Serves s 0 := by
  have none : roundSize 0 = 0 := by rw [roundSize_eq]; rfl
  refine ⟨0,s,[],⟨1,?_⟩,⟨.inl rfl,by simp,Nat.zero_le _,by simp⟩⟩
  intro fuel large
  obtain ⟨k,rfl⟩ := Nat.exists_eq_add_of_le' large
  rw [tracedMalloc,if_neg (by simp [rep.initialized])]
  exact if_pos none

/-- With room to grow the request gets a block of its size, and whole pages for each header. -/
theorem serves_room (run : Run s live) (pos : 0 < n) (small : n ≤ 2^64 - 16) (room : NoWrap s (roundSize n)) : Serves s n := by
  obtain ⟨bs,tracks⟩ := run_tracks run
  have atLeast : n ≤ roundSize n := by rw [roundSize_of_le small]; unfold roundup16; omega
  obtain ⟨es,⟨p,s',enough,returns⟩,maps,_⟩ := run_growing run (by omega) room
  obtain ⟨x,t,bs',allocated,enough',allocates⟩ := malloc_allocates tracks (show roundSize n ≠ 0 by omega) room
  have called := HeapCall.exec_agree (.malloc n) (malloc_of_traced (returns enough (Nat.le_refl _))) allocates
  cases called
  refine ⟨x+32,s',es,⟨enough,returns⟩,⟨.inr ?_,?_,atLeast,?_⟩⟩
  · obtain ⟨l,large,starts⟩ := allocated.block
    have high := starts_high starts
    have low := starts_low starts
    have ends := allocated.tracks.represents.chain.ends
    obtain ⟨_,_,_,_,length,_⟩ := chain_read allocated.tracks.represents.chain starts
    rw [headerSize,Nat.add_sub_cancel,length]
    simp only at high ⊢
    exact ⟨by omega,by omega,by omega⟩
  · intro e member
    have pages := (maps e member).pages
    have some_page : 32 ≤ pageRound (roundSize n) := by unfold pageRound; omega
    rw [headerSize]
    omega
  · intro e member
    rw [(maps e member).length]
    simp only [pageRound]
    omega

/-- In every run, when there are addresses for the pages it maps, a request is served
    exactly when its size is rounded without a wrap. -/
theorem serves_iff (run : Run s live) (word : n < 2^64) (available : Available s n) : Serves s n ↔ Rounds s n := by
  obtain ⟨bs,tracks⟩ := run_tracks run
  have rep := tracks.represents
  constructor
  · exact rounds_of_serves rep word
  · rintro (rfl | ⟨small,fits⟩)
    · exact serves_zero rep
    · rcases Nat.eq_zero_or_pos n with rfl | pos
      · exact serves_zero rep
      · have same := roundSize_of_le small
        apply serves_room run pos small
        rcases available with fit | below
        · exact .inl fit
        · rcases fits with fit | large
          · exact .inl (same ▸ fit)
          · have whole : pageRound (roundSize n) < 2^64 := by rw [same]; unfold pageRound; omega
            rw [wrap_of_lt whole] at below
            exact .inr below

theorem serves_iff_cleared : ∃ s, Run s [0x100000000020] ∧ Serves s 0x21 := by
  obtain ⟨s,run,rep,_⟩ := cleared_blocks
  have rounded : roundSize 0x21 = 0x30 := by rw [roundSize_eq]; rfl
  have fits : ∃ seg, Fitting s (roundSize 0x21) seg := by
    rw [← fits_iff rep.chain,rounded]
    decide
  have same : roundSize 0x21 = roundup16 0x21 := roundSize_of_le (by decide)
  exact ⟨s,run,(serves_iff run (by decide) (.inl fits)).mpr (.inr ⟨by decide,.inl (same ▸ fits)⟩)⟩

/-- A request of 4080 bytes less than the word holds: no page is mapped, and the header
    of the new segment is written behind the heap. -/
theorem cleared_not_serves : ∃ s live, Run s live ∧ Available s (2^64 - 4080) ∧ ¬ Serves s (2^64 - 4080) := by
  obtain ⟨s,run,rep,base,ends⟩ := cleared_blocks
  have rounded : roundSize (2^64 - 4080) = 2^64 - 4080 := by rw [roundSize_eq]; rfl
  have same : roundup16 (2^64 - 4080) = 2^64 - 4080 := rfl
  refine ⟨s,_,run,.inr ?_,?_⟩
  · have whole : wrap (pageRound (2^64 - 4080)) = 0 := by unfold wrap; rfl
    rw [rounded,whole,ends,Nat.mul_zero]
    decide
  · intro serves
    rcases rounds_of_serves rep (by decide) serves with zero | ⟨_,fit | small⟩
    · exact absurd zero (by decide)
    · rw [← fits_iff rep.chain,same] at fit
      exact absurd fit (by decide)
    · exact absurd small (by rw [same]; decide)

end WaifuOS.Kernel
