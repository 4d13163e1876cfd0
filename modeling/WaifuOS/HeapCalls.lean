import WaifuOS.Segments

/-!
The calls `malloc`, `calloc` and `free` as operations on tilings. A heap between two
calls represents a separate tiling by blocks whose lengths are multiples of 16
(`Represents`). Freeing releases a block (`free_spec`); the first fit is carved
(`malloc_spec`), after the heap has grown by a free block where nothing fits, which
happens at most twice. Every call keeps the payloads of the other used blocks.
-/
namespace WaifuOS
open WaifuOS.Words WaifuOS.Bytes WaifuOS.Tiling

/-- The heap is at rest, and its segments are the blocks `bs`. -/
structure Represents (s : Kernel) (bs : List Block) : Prop where
  chain : Chain s bs
  initialized : s.HeapInitialized = true
  unlocked : s.memoryLock = false
  separate : Separate bs
  multiples : Multiples 16 bs
  aligned : 16 ∣ s.heapBase
  early : s.earlyMallocBase + 8 * earlyMallocSize ≤ s.heapBase

/-- A used block of `bs` starts at `x`. -/
def Used (a : Nat) (bs : List Block) (x : Nat) : Prop := ∃ b, Starts 32 a bs x b ∧ b.free = false

/-- The payloads of the used blocks that start at an address in `P` are kept. -/
def KeepsPayloads (s s' : Kernel) (bs : List Block) (P : Nat → Prop) : Prop :=
  ∀ x b, Starts 32 s.heapBase bs x b → b.free = false → P x →
    ∀ z, x+32 ≤ z → z < x+32+b.len → s'.memory z = s.memory z

namespace Kernel

variable {s s' : Kernel} {bs pre post : List Block} {b c : Block} {n x : Nat}

/-- Filling bytes of a payload keeps the segments. -/
theorem fill_chain {size : Nat} (value : Nat) (chain : Chain s (pre ++ b :: post)) (xIs : x = s.heapBase + extent 32 pre)
    (inside : size ≤ b.len) : memset64 s.memory (x+32) value size = fill s.memory (x+32) size (pattern value) ∧
      Chain { s with memory := memset64 s.memory (x+32) value size } (pre ++ b :: post) := by
  obtain ⟨before,here,behind⟩ := chain_mid chain
  have bounded := chain.bounded
  rw [chain.ends,extent_append,extent_cons] at bounded
  rw [← xIs] at before here behind
  have filled : memset64 s.memory (x+32) value size = fill s.memory (x+32) size (pattern value) :=
    memset64_eq (by omega)
  refine ⟨filled,chain.rewire (l := s.LastSegment) (by simp) ?_ chain.last rfl⟩
  rw [linked_mid,← xIs,filled]
  refine ⟨?_,?_,?_⟩
  · exact linked_congr before (fun z _ high => fill_apart (.inl (by omega)))
  · exact header_congr here (fun z _ high => fill_apart (.inl (by omega)))
  · exact linked_congr behind (fun z low _ => fill_apart (.inr (by omega)))

/-- A payload that is filled and marked free. -/
theorem mark_chain (chain : Chain s (pre ++ b :: post)) (xIs : x = s.heapBase + extent 32 pre) :
    let s' := ({ s with memory := memset64 s.memory (x+32) 0x33 b.len } : Kernel).setFree x true
    Chain s' (pre ++ ⟨b.len,true⟩ :: post) ∧ Keeps s s' ∧
      ∀ z, OffHeaders s.heapBase (pre ++ b :: post) z → z < x+32 ∨ x+32+b.len ≤ z → s'.memory z = s.memory z := by
  obtain ⟨filled,chain₁⟩ := fill_chain 0x33 chain xIs (Nat.le_refl _)
  obtain ⟨chain₂,rewires⟩ := setFree_chain (x := x) true chain₁ xIs
  refine ⟨chain₂,⟨rfl,rfl,rfl,rfl⟩,?_⟩
  intro z off apart
  have kept := rewires.payloads z off
  rw [filled] at kept ⊢
  exact kept.trans (fill_apart (by omega))

/-- The two combinations of `free` join a freed block with its free neighbours. -/
theorem combine_chain (chain : Chain s (pre ++ ⟨b.len,true⟩ :: post)) (separate : Separate (pre ++ b :: post))
    (xIs : x = s.heapBase + extent 32 pre) :
    let s' := (s.CombineForward x).CombineBackward x
    Chain s' (release 32 s.heapBase x (pre ++ b :: post)) ∧ Keeps s s' ∧
      ∀ z, OffHeaders s.heapBase (pre ++ b :: post) z → s'.memory z = s.memory z := by
  obtain ⟨chain₁,rewires₁⟩ := combineForward_chain chain rfl
  rw [← xIs] at chain₁ rewires₁
  have base : (s.CombineForward x).heapBase = s.heapBase := rewires₁.keeps.heapBase
  obtain ⟨l,rest,joined⟩ : ∃ l rest, glue 32 ⟨b.len,true⟩ post = ⟨l,true⟩ :: rest := by
    cases post with
    | nil => exact ⟨b.len,[],rfl⟩
    | cons c post =>
      rw [glue_cons]
      split
      · exact ⟨_,post,rfl⟩
      · exact ⟨b.len,c :: post,rfl⟩
  have first : ∀ z, OffHeaders s.heapBase (pre ++ b :: post) z → (s.CombineForward x).memory z = s.memory z :=
    fun z off => rewires₁.payloads z (offHeaders_flag off)
  rcases List.eq_nil_or_concat' pre with rfl | ⟨front,c,rfl⟩
  · rw [extent_nil,Nat.add_zero] at xIs
    subst xIs
    rw [List.nil_append,joined] at chain₁
    have stays : (s.CombineForward s.heapBase).CombineBackward s.heapBase = s.CombineForward s.heapBase := by
      have start := combineBackward_first chain₁
      rwa [base] at start
    simp only [stays,List.nil_append]
    rw [release_first (by decide) separate,joined]
    exact ⟨chain₁,rewires₁.keeps,first⟩
  · have whole : ∀ d rest, (front ++ [c]) ++ d :: rest = front ++ c :: d :: rest := by simp
    rw [joined,whole] at chain₁
    obtain ⟨chain₂,rewires₂⟩ := combineBackward_chain chain₁
    have place : (s.CombineForward x).heapBase + extent 32 front + 32 + c.len = x := by
      rw [base,xIs,extent_append,extent_cons,extent_nil]
      omega
    rw [place] at chain₂ rewires₂
    have released : release 32 s.heapBase x (front ++ c :: b :: post) = front ++ glue 32 c (⟨l,true⟩ :: rest) := by
      rw [whole] at separate
      have mid := release_mid 32 s.heapBase (by decide) separate
      rw [base] at place
      rwa [place,joined] at mid
    rw [whole,released]
    refine ⟨chain₂,rewires₁.keeps.trans rewires₂.keeps,?_⟩
    intro z off
    have off₁ : OffHeaders (s.CombineForward x).heapBase (front ++ c :: ⟨l,true⟩ :: rest) z := by
      rw [base,← whole,← joined]
      exact offHeaders_glue (offHeaders_flag (whole _ _ ▸ off))
    exact (rewires₂.payloads z off₁).trans (first z (whole _ _ ▸ off))

theorem aquire_of_unlocked (unlocked : s.memoryLock = false) : s.Aquire = some { s with memoryLock := true } := by
  simp [Aquire,unlocked]

/-- A chain that a call leaves is a heap at rest once the lock is free again. -/
theorem represents_release {t : Kernel} {bs' : List Block} (rep : Represents s bs) (chain : Chain t bs')
    (keeps : Keeps { s with memoryLock := true } t) (separate : Separate bs') (multiples : Multiples 16 bs') :
    Represents t.Release bs' := by
  have base : t.heapBase = s.heapBase := keeps.heapBase
  have same : t.earlyMallocBase = s.earlyMallocBase := keeps.earlyMallocBase
  refine ⟨chain.lock,keeps.HeapInitialized.trans rep.initialized,rfl,separate,multiples,?_,?_⟩
  · change 16 ∣ t.heapBase
    rw [base]
    exact rep.aligned
  · change t.earlyMallocBase + 8 * earlyMallocSize ≤ t.heapBase
    rw [base,same]
    exact rep.early

/-- Freeing a used block releases it, and keeps the payloads of the others. -/
theorem free_spec (rep : Represents s bs) (starts : Starts 32 s.heapBase bs x b) :
    ∃ s', s.free (x+32) = some s' ∧ Represents s' (release 32 s.heapBase x bs) ∧ s'.heapBase = s.heapBase ∧
      s'.heapEnd = s.heapEnd ∧ KeepsPayloads s s' bs (fun y => y ≠ x) := by
  obtain ⟨pre,post,rfl,xIs⟩ := starts_iff_append.mp starts
  have low := starts_low starts
  have high := starts_high starts
  have based := rep.chain.based
  have ends := rep.chain.ends
  have bounded := rep.chain.bounded
  have early := rep.early
  obtain ⟨s₁,s₁Is⟩ : ∃ t : Kernel, t = { s with memoryLock := true } := ⟨_,rfl⟩
  have base₁ : s₁.heapBase = s.heapBase := by rw [s₁Is]
  have memory₁ : s₁.memory = s.memory := by rw [s₁Is]
  have chain₁ : Chain s₁ (pre ++ b :: post) := by rw [s₁Is]; exact rep.chain.lock
  have length : s₁.Length x = b.len := by
    obtain ⟨_,here,_⟩ := chain_mid chain₁
    rw [xIs,← base₁]
    exact here.length
  have notEarly : ¬ (s.earlyMallocBase ≤ x+32 ∧ x+32 < s.earlyMallocBase + 8 * earlyMallocSize) := by omega
  have seg : sub (x+32) headerSize = x := by
    rw [headerSize,sub_of_le (by omega) (by omega)]
    exact Nat.add_sub_cancel x 32
  obtain ⟨chain₂,keeps₂,frame₂⟩ := mark_chain (x := x) chain₁ (by rw [base₁]; exact xIs)
  obtain ⟨s₂,s₂Is⟩ : ∃ t, t = ({ s₁ with memory := memset64 s₁.memory (x+32) 0x33 b.len } : Kernel).setFree x true := ⟨_,rfl⟩
  rw [← s₂Is] at chain₂ keeps₂ frame₂
  have done : s.free (x+32) = some (((s₂.CombineForward x).CombineBackward x).Release) := by
    rw [free,if_neg (by omega),rep.initialized,if_neg (by simp),if_neg notEarly,aquire_of_unlocked rep.unlocked,← s₁Is]
    simp only [Option.bind_eq_bind,Option.bind_some,seg,length,s₂Is]
  have base₂ : s₂.heapBase = s.heapBase := keeps₂.heapBase.trans base₁
  obtain ⟨chain₃,keeps₃,frame₃⟩ := combine_chain (x := x) chain₂ rep.separate (by rw [base₂]; exact xIs)
  generalize (s₂.CombineForward x).CombineBackward x = s₃ at done chain₃ keeps₃ frame₃
  have kept : Keeps s₁ s₃ := keeps₂.trans keeps₃
  have base : s₃.heapBase = s.heapBase := keeps₃.heapBase.trans base₂
  rw [base₂] at chain₃
  refine ⟨s₃.Release,done,represents_release rep chain₃ (s₁Is ▸ kept) separate_merge
    (multiples_merge (by decide) (multiples_mark rep.multiples)),base,?_,?_⟩
  · have after := chain₃.ends
    rw [release,extent_merge,extent_mark,base] at after
    exact after.trans ends.symm
  · intro y c starts' used other z lowZ highZ
    have off := offHeaders_payload starts' lowZ highZ
    have apart : z < x+32 ∨ x+32+b.len ≤ z := by
      rcases starts_apart starts starts' with ⟨same,_⟩ | before | behind
      · exact absurd same.symm other
      · exact .inr (by omega)
      · exact .inl (by omega)
    rw [← memory₁]
    exact (frame₃ z (base₂ ▸ off)).trans (frame₂ z (base₁ ▸ off) apart)

/-- A size rounded up to the next multiple of 16. -/
def roundup16 (size : Nat) : Nat := (size + 15) / 16 * 16

theorem roundSize_eq (size : Nat) : roundSize size = roundup16 size % 2^64 := by
  have mask : size &&& 0b1111 = size % 16 := Nat.and_two_pow_sub_one_eq_mod size 4
  simp only [roundSize,mask,roundup16]
  simp only [wrap,sub]
  split
  · omega
  · omega

theorem roundSize_word (size : Nat) : roundSize size < 2^64 := wrap_lt _

theorem roundSize_dvd (size : Nat) : 16 ∣ roundSize size := by
  rw [roundSize_eq,roundup16]
  omega

/-- A size that is rounded already stays. -/
theorem roundSize_idem (size : Nat) : roundSize (roundSize size) = roundSize size := by
  have unit := roundSize_dvd size
  have bound := roundSize_word size
  rw [roundSize_eq (roundSize size),roundup16]
  omega

@[simp] theorem extent_carve : extent 32 (carve n b) = 32 + b.len := by
  simp only [carve]
  split
  · simp only [extent_cons,extent_nil]
    omega
  · simp

theorem carve_first : ∃ l rest, carve n b = ⟨l,false⟩ :: rest ∧ (n ≤ b.len → n ≤ l) ∧ ∀ c ∈ rest, c.free = true := by
  simp only [carve]
  split
  · exact ⟨n,_,rfl,fun _ => Nat.le_refl n,by simp⟩
  · exact ⟨b.len,[],rfl,fun fits => fits,by simp⟩

theorem multiples_carve (unit : 16 ∣ n) (atLeast : 16 ≤ n) (multiples : Multiples 16 (pre ++ b :: post)) :
    Multiples 16 (pre ++ (carve n b ++ post)) := by
  have here := multiples b (by simp)
  intro c member
  rw [List.mem_append,List.mem_append] at member
  rcases member with early | part | late
  · exact multiples c (by simp [early])
  · simp only [carve] at part
    split at part
    · rename_i room
      simp only [List.mem_cons,List.not_mem_nil,or_false] at part
      rcases part with rfl | rfl
      · exact ⟨by simp only; omega,unit⟩
      · exact ⟨by simp only; omega,by simp only; omega⟩
    · rw [List.mem_singleton] at part
      exact part ▸ here
  · exact multiples c (by simp [late])

/-- The neighbours of a free block are used, so that what is left of it stays separate. -/
theorem separate_carve (separate : Separate (pre ++ b :: post)) (free : b.free = true) :
    Separate (pre ++ (carve n b ++ post)) := by
  obtain ⟨front,back,_⟩ := separate_append.mp separate
  obtain ⟨apart,rest⟩ := separate_cons.mp back
  have used : ∀ c ∈ post.head?, c.free = false :=
    fun c member => Bool.eq_false_iff.mpr (fun free' => apart c member ⟨free,free'⟩)
  have parts : Separate (carve n b ++ post) := by
    simp only [carve]
    split
    · refine separate_cons.mpr ⟨fun c _ both => Bool.false_ne_true both.1,separate_cons.mpr ⟨?_,rest⟩⟩
      intro c member both
      rw [used c member] at both
      exact Bool.false_ne_true both.2
    · exact separate_cons.mpr ⟨fun c _ both => Bool.false_ne_true both.1,rest⟩
  refine separate_append.mpr ⟨front,parts,?_⟩
  intro c _ d member both
  obtain ⟨l,tail,first,_⟩ := carve_first (n := n) (b := b)
  rw [first,List.cons_append,List.head?_cons] at member
  cases member
  exact Bool.false_ne_true both.2

/-- Carving keeps the other used blocks where they are. -/
theorem starts_carve {a y : Nat} (starts : Starts 32 a (pre ++ b :: post) y c) (free : b.free = true)
    (used : c.free = false) : Starts 32 a (pre ++ (carve n b ++ post)) y c := by
  rcases starts_append.mp starts with early | ⟨_,rfl⟩ | late
  · exact starts_append.mpr (.inl early)
  · rw [free] at used
    cases used
  · refine starts_append.mpr (.inr (starts_append.mpr (.inr ?_)))
    rw [extent_carve]
    exact (show a + extent 32 pre + (32 + b.len) = a + extent 32 pre + 32 + b.len by omega) ▸ late

theorem used_carve {a y : Nat} (free : b.free = true) :
    Used a (pre ++ (carve n b ++ post)) y ↔ Used a (pre ++ b :: post) y ∨ y = a + extent 32 pre := by
  obtain ⟨l,tail,first,_,left⟩ := carve_first (n := n) (b := b)
  constructor
  · rintro ⟨c,starts,used⟩
    rcases starts_append.mp starts with early | later
    · exact .inl ⟨c,starts_append.mpr (.inl early),used⟩
    · rcases starts_append.mp later with part | late
      · rw [first] at part
        rcases part with ⟨rfl,rfl⟩ | rest
        · exact .inr rfl
        · have taken := left c (starts_mem rest)
          rw [used] at taken
          cases taken
      · rw [extent_carve] at late
        refine .inl ⟨c,starts_append.mpr (.inr (.inr ?_)),used⟩
        exact (show a + extent 32 pre + (32 + b.len) = a + extent 32 pre + 32 + b.len by omega) ▸ late
  · rintro (⟨c,starts,used⟩ | rfl)
    · exact ⟨c,starts_carve starts free used,used⟩
    · refine ⟨⟨l,false⟩,starts_append.mpr (.inr ?_),rfl⟩
      rw [first]
      exact .inl ⟨rfl,rfl⟩

/-! ### `malloc` -/

/-- A segment that does not fit is passed over. -/
theorem search_skip {prev next fuel : Nat} (here : Header s.memory x b prev next) (skip : ¬ Fits n b) (more : next ≠ 0) :
    s.search (fuel+1) x n = s.search fuel next n := by
  have free : s.Free x = b.free := here.free
  have length : s.Length x = b.len := here.length
  have notMore : ¬ (s.Free x = true ∧ s.Length x > n) := fun both => skip ⟨free ▸ both.1,by omega⟩
  have notSame : ¬ (s.Free x = true ∧ s.Length x = n) := fun both => skip ⟨free ▸ both.1,by omega⟩
  rw [search,if_neg notMore,if_neg notSame,show s.Next x = next from here.next,if_neg more]

/-- The loop passes over the segments in front of the first fit. -/
theorem search_front {prev a fuel : Nat} (linked : Linked s.memory prev a 0 (pre ++ b :: post)) (pos : 0 < a)
    (skip : ∀ c ∈ pre, ¬ Fits n c) : s.search (pre.length + fuel) a n = s.search fuel (a + extent 32 pre) n := by
  induction pre generalizing prev a with
  | nil => simp
  | cons c pre ih =>
    rw [List.cons_append] at linked
    obtain ⟨here,rest⟩ := linked
    have more : after 0 (a + 32 + c.len) (pre ++ b :: post) = a + 32 + c.len := by cases pre <;> rfl
    rw [more] at here
    have later := ih rest (by omega) (fun d member => skip d (by simp [member]))
    rw [List.length_cons,show pre.length + 1 + fuel = pre.length + fuel + 1 by omega,
      search_skip here (skip c (by simp)) (by omega),later,extent_cons]
    congr 1
    omega

/-- The loop ends behind the last segment when no segment fits. -/
theorem search_none (chain : Chain s bs) (skip : ∀ c ∈ bs, ¬ Fits n c) (fuel : Nat) :
    s.search (bs.length + fuel) s.heapBase n = some (none,s) := by
  obtain ⟨pre,b,rfl⟩ := List.eq_nil_or_concat' bs |>.resolve_left chain.nonempty
  obtain ⟨_,here,_⟩ := chain_mid chain
  have free : s.Free (s.heapBase + extent 32 pre) = b.free := here.free
  have length : s.Length (s.heapBase + extent 32 pre) = b.len := here.length
  have last : ¬ Fits n b := skip b (by simp)
  have notMore : ¬ (s.Free (s.heapBase + extent 32 pre) = true ∧ s.Length (s.heapBase + extent 32 pre) > n) :=
    fun both => last ⟨free ▸ both.1,by omega⟩
  have notSame : ¬ (s.Free (s.heapBase + extent 32 pre) = true ∧ s.Length (s.heapBase + extent 32 pre) = n) :=
    fun both => last ⟨free ▸ both.1,by omega⟩
  rw [List.length_append,List.length_singleton,show pre.length + 1 + fuel = pre.length + (fuel + 1) by omega,
    search_front chain.linked chain.based (fun c member => skip c (by simp [member])),search,if_neg notMore,
    if_neg notSame]
  exact if_pos here.next

/-- The loop takes the first segment that fits. -/
theorem search_fits (fuel : Nat) (chain : Chain s (pre ++ b :: post)) (xIs : x = s.heapBase + extent 32 pre)
    (fits : Fits n b) (skip : ∀ c ∈ pre, ¬ Fits n c) :
    s.search (pre.length + (fuel+1)) s.heapBase n =
      some (some (x+32),((if b.len > n then (s.Split x n).2 else s).setFree x false).Release) := by
  obtain ⟨_,here,_⟩ := chain_mid chain
  have bounded := chain.bounded
  rw [chain.ends,extent_append,extent_cons] at bounded
  rw [← xIs] at here
  have free : s.Free x = true := here.free.trans fits.1
  have length : s.Length x = b.len := here.length
  have payload : wrap (x + headerSize) = x+32 := by rw [headerSize,wrap_of_lt (by omega)]
  rw [search_front chain.linked chain.based skip,← xIs,search,free,length,payload]
  have room := fits.2
  by_cases larger : b.len > n
  · rw [if_pos ⟨rfl,larger⟩,if_pos larger]
  · rw [if_neg (fun both => larger both.2),if_pos ⟨rfl,by omega⟩,if_neg larger]

/-- `n` bytes of the first block that fits are taken at `x`. -/
def Takes (n a : Nat) (bs : List Block) (x : Nat) (bs' : List Block) : Prop :=
  ∃ pre b post, bs = pre ++ b :: post ∧ Fits n b ∧ (∀ c ∈ pre, ¬ Fits n c) ∧ x = a + extent 32 pre ∧
    bs' = pre ++ (carve n b ++ post)

/-- `malloc` takes the first segment that fits. -/
theorem malloc_takes (rep : Represents s (pre ++ b :: post)) (nonzero : roundSize n ≠ 0) (fit : Fits (roundSize n) b)
    (skip : ∀ c ∈ pre, ¬ Fits (roundSize n) c) :
    ∃ s', (∀ k, s.malloc ((pre ++ b :: post).length + k + 1) n = some (s.heapBase + extent 32 pre + 32,s')) ∧
      Represents s' (pre ++ (carve (roundSize n) b ++ post)) ∧ s'.heapBase = s.heapBase ∧ s'.heapEnd = s.heapEnd ∧
      KeepsPayloads s s' (pre ++ b :: post) (fun _ => True) ∧ s'.paging = s.paging ∧ s'.granted = s.granted := by
  have unit := roundSize_dvd n
  obtain ⟨s₁,s₁Is⟩ : ∃ t : Kernel, t = { s with memoryLock := true } := ⟨_,rfl⟩
  have base₁ : s₁.heapBase = s.heapBase := by rw [s₁Is]
  have chain₁ : Chain s₁ (pre ++ b :: post) := by rw [s₁Is]; exact rep.chain.lock
  obtain ⟨chain₂,rewires⟩ := take_chain chain₁ fit.1 (by omega) fit.2
  have found : ∀ fuel, s₁.search (pre.length + (fuel+1)) s₁.heapBase (roundSize n) = _ :=
    fun fuel => search_fits fuel chain₁ rfl fit skip
  generalize (if b.len > roundSize n then (s₁.Split (s₁.heapBase + extent 32 pre) (roundSize n)).2 else s₁).setFree
    (s₁.heapBase + extent 32 pre) false = s₂ at chain₂ rewires found
  have keeps := rewires.keeps
  have base₂ : s₂.heapBase = s.heapBase := keeps.heapBase.trans base₁
  have ends₂ := chain₂.ends
  refine ⟨s₂.Release,fun k => ?_,
    represents_release rep chain₂ (s₁Is ▸ keeps) (separate_carve rep.separate fit.1) (multiples_carve unit (by omega) rep.multiples),
    base₂,?_,?_,?_,?_⟩
  · have length : (pre ++ b :: post).length + k = pre.length + (post.length + k + 1) := by
      rw [List.length_append,List.length_cons]
      omega
    rw [malloc,rep.initialized,if_neg (by simp)]
    simp only [if_neg nonzero,aquire_of_unlocked rep.unlocked,Option.bind_eq_bind,Option.bind_some]
    rw [← s₁Is,length,← base₁,found]
    rfl
  · have ends := rep.chain.ends
    rw [base₂] at ends₂
    simp only [extent_append,extent_carve,extent_cons] at ends₂ ends
    change s₂.heapEnd = s.heapEnd
    omega
  · intro y c starts used _ z low high
    have off := offHeaders_payload (starts_carve (n := roundSize n) starts fit.1 used) low high
    rw [← base₁] at off
    exact (rewires.payloads z off).trans (by rw [s₁Is])
  · change s₂.paging = s.paging
    rw [rewires.state,s₁Is]
  · change s₂.granted = s.granted
    rw [rewires.state,s₁Is]

/-- Where a segment fits, `malloc` takes one. -/
theorem malloc_fits (rep : Represents s bs) (nonzero : roundSize n ≠ 0) (fits : ∃ b ∈ bs, Fits (roundSize n) b) :
    ∃ x bs' s', Takes (roundSize n) s.heapBase bs x bs' ∧ (∀ k, s.malloc (bs.length + k + 1) n = some (x+32,s')) ∧
      Represents s' bs' ∧ s'.heapBase = s.heapBase ∧ s'.heapEnd = s.heapEnd ∧ KeepsPayloads s s' bs (fun _ => True) ∧
      s'.paging = s.paging ∧ s'.granted = s.granted := by
  obtain ⟨pre,b,post,rfl,fit,skip⟩ := first_fit fits
  obtain ⟨s',returns,rest⟩ := malloc_takes rep nonzero fit skip
  exact ⟨_,_,s',⟨pre,b,post,rfl,fit,skip,rfl,rfl⟩,returns,rest⟩

/-- The tiling after the heap has grown for `n` bytes. -/
def grow (n : Nat) (bs : List Block) : List Block := merge 32 (bs ++ [⟨pageRound n - 32,true⟩])

theorem grow_concat (separate : Separate (pre ++ [b])) : grow n (pre ++ [b]) = pre ++ glue 32 b [⟨pageRound n - 32,true⟩] := by
  rw [grow,List.append_assoc,List.singleton_append,merge_behind separate]
  rfl

theorem starts_grow {a y : Nat} (used : c.free = false) : Starts 32 a (grow n bs) y c ↔ Starts 32 a bs y c := by
  rw [grow,starts_merge used,starts_append]
  constructor
  · rintro (old | ⟨_,rfl⟩ | none)
    · exact old
    · cases used
    · exact none.elim
  · exact .inl

/-- Growing for `n` bytes, with the lock taken. -/
theorem expand_spec (rep : Represents s bs) (unit : 16 ∣ n) (pos : 0 < n) (room : s.heapEnd + pageRound n < 2^64) :
    ∃ s₂, ({ s with memoryLock := true } : Kernel).ExpandHeap n = some s₂ ∧ Represents s₂.Release (grow n bs) ∧
      s₂.heapBase = s.heapBase ∧ s₂.heapEnd = s.heapEnd + pageRound n ∧ KeepsPayloads s s₂.Release bs (fun _ => True) := by
  have whole : pageRound n = pageRound n / 4096 * 4096 := by unfold pageRound; omega
  have large : n ≤ pageRound n := by unfold pageRound; omega
  obtain ⟨s₁,s₁Is⟩ : ∃ t : Kernel, t = { s with memoryLock := true } := ⟨_,rfl⟩
  have base₁ : s₁.heapBase = s.heapBase := by rw [s₁Is]
  have ends₁ : s₁.heapEnd = s.heapEnd := by rw [s₁Is]
  have chain₁ : Chain s₁ bs := by rw [s₁Is]; exact rep.chain.lock
  obtain ⟨pre,b,rfl⟩ := List.eq_nil_or_concat' bs |>.resolve_left rep.chain.nonempty
  obtain ⟨s₂,expanded,chain₂,keeps,frame⟩ := expandHeap_chain n chain₁
    (by rw [s₁Is]; exact rep.initialized) pos (by rw [ends₁]; exact room)
  have base₂ : s₂.heapBase = s.heapBase := keeps.heapBase.trans base₁
  rw [← grow_concat rep.separate] at chain₂
  have ends₂ := chain₂.ends
  have multiples : Multiples 16 ((pre ++ [b]) ++ [⟨pageRound n - 32,true⟩]) := by
    intro c member
    rcases List.mem_append.mp member with old | new
    · exact rep.multiples c old
    · rw [List.mem_singleton] at new
      subst new
      exact ⟨by simp only; omega,by simp only; omega⟩
  refine ⟨s₂,s₁Is ▸ expanded,represents_release rep chain₂ (s₁Is ▸ keeps) separate_merge
    (multiples_merge (by decide) multiples),base₂,?_,?_⟩
  · have ends := rep.chain.ends
    rw [base₂,grow,extent_merge] at ends₂
    simp only [extent_append,extent_cons,extent_nil] at ends₂ ends
    omega
  · intro y c starts used _ z low high
    have below := starts_high starts
    have ends := rep.chain.ends
    have off := offHeaders_payload starts low high
    exact (frame z (by omega) (base₁ ▸ off)).trans (by rw [s₁Is])

/-- Where no segment fits, `malloc` grows the heap and starts again. -/
theorem malloc_grows (rep : Represents s bs) (nonzero : roundSize n ≠ 0) (skip : ∀ c ∈ bs, ¬ Fits (roundSize n) c)
    (room : s.heapEnd + pageRound (roundSize n) < 2^64) :
    ∃ s', Represents s' (grow (roundSize n) bs) ∧
      (∀ k, s.malloc (bs.length + k + 1) n = s'.malloc (bs.length + k) (roundSize n)) ∧ s'.heapBase = s.heapBase ∧
      s'.heapEnd = s.heapEnd + pageRound (roundSize n) ∧ KeepsPayloads s s' bs (fun _ => True) := by
  obtain ⟨s₂,expanded,rep₂,base₂,ends₂,kept⟩ := expand_spec rep (roundSize_dvd n) (Nat.pos_of_ne_zero nonzero) room
  refine ⟨s₂.Release,rep₂,?_,base₂,ends₂,kept⟩
  intro k
  have missed := search_none (rep.chain.lock (l := true)) skip k
  rw [malloc,rep.initialized,if_neg (by simp)]
  simp only [if_neg nonzero,aquire_of_unlocked rep.unlocked,Option.bind_eq_bind,Option.bind_some]
  simp only [missed,Option.bind_some,expanded]

/-- How often the heap grows for `n` bytes when nothing fits: twice when the new block
    stands alone and its header takes the room. -/
def growths (n : Nat) (lastFree : Bool) : Nat := if lastFree = true ∨ n + 32 ≤ pageRound n then 1 else 2

/-- After growing the last block is free. -/
theorem grow_last (separate : Separate (pre ++ [b])) : ∃ front l, grow n (pre ++ [b]) = front ++ [⟨l,true⟩] := by
  rw [grow_concat separate,glue_cons]
  split
  · exact ⟨pre,_,rfl⟩
  · exact ⟨pre ++ [b],pageRound n - 32,by simp⟩

/-- One growth is enough behind a free block, or when there is room for the header. -/
theorem grow_fits (separate : Separate (pre ++ [b])) (pos : 0 < n) (once : b.free = true ∨ n + 32 ≤ pageRound n) :
    ∃ c ∈ grow n (pre ++ [b]), Fits n c := by
  have large : n ≤ pageRound n ∧ 32 ≤ pageRound n := by unfold pageRound; omega
  rw [grow_concat separate,glue_cons]
  split
  · exact ⟨⟨b.len + 32 + (pageRound n - 32),true⟩,by simp,rfl,by simp only; omega⟩
  · rename_i apart
    have room : n + 32 ≤ pageRound n := once.resolve_left (fun free => apart ⟨free,rfl⟩)
    exact ⟨⟨pageRound n - 32,true⟩,by simp,rfl,by simp only; omega⟩

/-- Two growths are always enough. -/
theorem grow_twice_fits (separate : Separate (pre ++ [b])) (again : Separate (grow n (pre ++ [b]))) (pos : 0 < n) :
    ∃ c ∈ grow n (grow n (pre ++ [b])), Fits n c := by
  obtain ⟨front,l,last⟩ := grow_last (n := n) separate
  rw [last] at again ⊢
  exact grow_fits again pos (.inl rfl)

/-- The outcome of `malloc` in terms of blocks: `g` is the tiling after growing. -/
structure Allocates (s : Kernel) (bs : List Block) (n : Nat) (g : List Block) (x : Nat) (bs' : List Block) (s' : Kernel) :
    Prop where
  takes : Takes n s.heapBase g x bs'
  represents : Represents s' bs'
  heapBase : s'.heapBase = s.heapBase
  heapEnd : s.heapEnd ≤ s'.heapEnd
  kept : KeepsPayloads s s' bs (fun _ => True)
  used : ∀ y c, c.free = false → (Starts 32 s.heapBase g y c ↔ Starts 32 s.heapBase bs y c)

/-- What is allocated after a growth is allocated by the call that grew. -/
theorem Allocates.after {t : Kernel} {g bs' : List Block} (base : t.heapBase = s.heapBase) (ends : s.heapEnd ≤ t.heapEnd)
    (kept : KeepsPayloads s t bs (fun _ => True)) (later : Allocates t (grow n bs) n g x bs' s') :
    Allocates s bs n g x bs' s' where
  takes := base ▸ later.takes
  represents := later.represents
  heapBase := later.heapBase.trans base
  heapEnd := Nat.le_trans ends later.heapEnd
  kept := by
    intro y c starts used all z low high
    have still : Starts 32 t.heapBase (grow n bs) y c := by
      rw [base]
      exact (starts_grow used).mpr starts
    exact (later.kept y c still used all z low high).trans (kept y c starts used all z low high)
  used := fun y c used => by
    have same := later.used y c used
    rw [base] at same
    exact same.trans (starts_grow used)

/-- Where a segment fits, no growth is needed. -/
theorem malloc_once (rep : Represents s bs) (nonzero : roundSize n ≠ 0) (fits : ∃ c ∈ bs, Fits (roundSize n) c) :
    ∃ x bs' s', Allocates s bs (roundSize n) bs x bs' s' ∧
      ∃ enough, ∀ fuel, enough ≤ fuel → s.malloc fuel n = some (x+32,s') := by
  obtain ⟨x,bs',s',takes,returns,rep',base,ends,kept,_,_⟩ := malloc_fits rep nonzero fits
  refine ⟨x,bs',s',⟨takes,rep',base,Nat.le_of_eq ends.symm,kept,fun _ _ _ => Iff.rfl⟩,bs.length + 1,?_⟩
  intro fuel large
  obtain ⟨k,rfl⟩ := Nat.exists_eq_add_of_le large
  rw [show bs.length + 1 + k = bs.length + k + 1 by omega]
  exact returns k

/-- `malloc` with room to grow returns, after at most two growths. -/
theorem malloc_spec (rep : Represents s (pre ++ [b])) (nonzero : roundSize n ≠ 0)
    (room : (∃ c ∈ pre ++ [b], Fits (roundSize n) c) ∨
      s.heapEnd + growths (roundSize n) b.free * pageRound (roundSize n) < 2^64) :
    ∃ g x bs' s', Allocates s (pre ++ [b]) (roundSize n) g x bs' s' ∧
      ((∃ c ∈ pre ++ [b], Fits (roundSize n) c) → g = pre ++ [b]) ∧
      ∃ enough, ∀ fuel, enough ≤ fuel → s.malloc fuel n = some (x+32,s') := by
  by_cases fits : ∃ c ∈ pre ++ [b], Fits (roundSize n) c
  · obtain ⟨x,bs',s',allocates,returns⟩ := malloc_once rep nonzero fits
    exact ⟨_,x,bs',s',allocates,fun _ => rfl,returns⟩
  · have below := room.resolve_left fits
    have idem := roundSize_idem n
    have again : roundSize (roundSize n) ≠ 0 := by rw [idem]; exact nonzero
    have atLeast : 1 ≤ growths (roundSize n) b.free := by unfold growths; split <;> omega
    have firstRoom : s.heapEnd + pageRound (roundSize n) < 2^64 := by
      have le := Nat.mul_le_mul_right (pageRound (roundSize n)) atLeast
      omega
    obtain ⟨s₁,rep₁,returns₁,base₁,ends₁,kept₁⟩ := malloc_grows rep nonzero (fun c member fit => fits ⟨c,member,fit⟩)
      firstRoom
    by_cases fits₁ : ∃ c ∈ grow (roundSize n) (pre ++ [b]), Fits (roundSize n) c
    · obtain ⟨x,bs',s',allocates,enough,returns⟩ := malloc_once rep₁ again (idem.symm ▸ fits₁)
      rw [idem] at allocates
      refine ⟨_,x,bs',s',allocates.after base₁ (by omega) kept₁,fun fit => absurd fit fits,
        (pre ++ [b]).length + enough + 1,fun fuel large => ?_⟩
      obtain ⟨k,rfl⟩ := Nat.exists_eq_add_of_le large
      rw [show (pre ++ [b]).length + enough + 1 + k = (pre ++ [b]).length + (enough + k) + 1 by omega,returns₁]
      exact returns _ (by omega)
    · -- The new block stands alone, and the next one is combined with it.
      have twice : growths (roundSize n) b.free = 2 :=
        if_neg (fun once => fits₁ (grow_fits rep.separate (Nat.pos_of_ne_zero nonzero) once))
      rw [twice] at below
      obtain ⟨s₂,rep₂,returns₂,base₂,ends₂,kept₂⟩ := malloc_grows rep₁ again
        (by rw [idem]; exact fun c member fit => fits₁ ⟨c,member,fit⟩) (by rw [idem]; omega)
      rw [idem] at rep₂ returns₂ ends₂
      have fits₂ := grow_twice_fits rep.separate rep₁.separate (Nat.pos_of_ne_zero nonzero)
      obtain ⟨x,bs',s',allocates,enough,returns⟩ := malloc_once rep₂ again (idem.symm ▸ fits₂)
      rw [idem] at allocates
      have inner := allocates.after base₂ (by omega) kept₂
      refine ⟨_,x,bs',s',inner.after base₁ (by omega) kept₁,fun fit => absurd fit fits,
        (pre ++ [b]).length + (grow (roundSize n) (pre ++ [b])).length + enough + 2,fun fuel large => ?_⟩
      obtain ⟨k,rfl⟩ := Nat.exists_eq_add_of_le large
      rw [show (pre ++ [b]).length + (grow (roundSize n) (pre ++ [b])).length + enough + 2 + k =
          (pre ++ [b]).length + ((grow (roundSize n) (pre ++ [b])).length + enough + k + 1) + 1 by omega,returns₁]
      rw [show (pre ++ [b]).length + ((grow (roundSize n) (pre ++ [b])).length + enough + k + 1) =
          (grow (roundSize n) (pre ++ [b])).length + ((pre ++ [b]).length + enough + k) + 1 by omega,returns₂]
      exact returns _ (by omega)

/-! ### `InitializeHeap` -/

/-- What the callers of `InitializeHeap` pass: whole pages above the early memory. -/
structure HeapRange (s : Kernel) (heapStart pages : Nat) : Prop where
  nonzero : 0 < heapStart
  aligned : PAGE_SIZE ∣ heapStart
  some_pages : 0 < pages
  bounded : heapStart + pages * PAGE_SIZE < 2^64
  early : s.earlyMallocBase + 8 * earlyMallocSize ≤ heapStart

/-- The header at the start of the range is that of the only block. -/
theorem oneBlock_represents {heapStart pages : Nat} (range : HeapRange s heapStart pages)
    (header : Header s.memory heapStart ⟨pages * PAGE_SIZE - 32,true⟩ 0 0) (base : s.heapBase = heapStart)
    (ends : s.heapEnd = heapStart + pages * PAGE_SIZE) (last : s.LastSegment = heapStart)
    (initialized : s.HeapInitialized = true) (unlocked : s.memoryLock = false) :
    Represents s [⟨pages * PAGE_SIZE - 32,true⟩] := by
  have some_pages := range.some_pages
  have large : 4096 ≤ pages * PAGE_SIZE := by unfold PAGE_SIZE; omega
  have units : pages * PAGE_SIZE % 16 = 0 := by unfold PAGE_SIZE; omega
  refine ⟨⟨by simp,?_,?_,?_,?_,?_⟩,initialized,unlocked,separate_single,?_,?_,?_⟩
  · rw [base]
    exact ⟨header,trivial⟩
  · rw [base,last]
    rfl
  · rw [base,ends,extent_cons,extent_nil]
    simp only
    omega
  · rw [ends]
    exact range.bounded
  · rw [base]
    exact range.nonzero
  · intro c member
    rw [List.mem_singleton] at member
    subst member
    exact ⟨by simp only; omega,by simp only; omega⟩
  · rw [base]
    exact Nat.dvd_trans (by decide) range.aligned
  · rw [base]
    exact range.early

/-- The initialized heap is one block, of which the first 16 bytes are taken. -/
theorem initializeHeap_spec {heapStart pages : Nat} (range : HeapRange s heapStart pages)
    (fresh : s.HeapInitialized = false) (unlocked : s.memoryLock = false) :
    ∃ s', (∀ k, s.InitializeHeap (k+2) heapStart pages = some s') ∧
      Represents s' (carve 16 ⟨pages * PAGE_SIZE - 32,true⟩) ∧ s'.heapBase = heapStart ∧
      s'.heapEnd = heapStart + pages * PAGE_SIZE ∧
      s'.paging = (({ s with heapBase := heapStart } : Kernel).mapPages heapStart pages).paging ∧
      s'.granted = (({ s with heapBase := heapStart } : Kernel).mapPages heapStart pages).granted := by
  have bounded := range.bounded
  have some_pages := range.some_pages
  have large : 4096 ≤ pages * PAGE_SIZE := by unfold PAGE_SIZE; omega
  obtain ⟨paging,granted,mapped⟩ := mapPages_eq (s := { s with heapBase := heapStart }) bounded
  obtain ⟨s₀,s₀Is⟩ : ∃ t : Kernel, t = ({ s with heapBase := heapStart } : Kernel).mapPages heapStart pages := ⟨_,rfl⟩
  rw [← s₀Is] at mapped
  set m := store (store (store (store s₀.memory heapStart 8 (pages * PAGE_SIZE - 32)) (heapStart+8) 8 0) (heapStart+16) 8 0)
    (heapStart+24) 1 true.toNat with mIs
  obtain ⟨s₁,s₁Is⟩ : ∃ t : Kernel, t =
      { s₀ with
        memory := m
        heapEnd := heapStart + pages * PAGE_SIZE
        LastSegment := heapStart
        HeapInitialized := true } := ⟨_,rfl⟩
  have base₁ : s₁.heapBase = heapStart := by rw [s₁Is,mapped]
  have ends₁ : s₁.heapEnd = heapStart + pages * PAGE_SIZE := by rw [s₁Is]
  have header : Header s₁.memory heapStart ⟨pages * PAGE_SIZE - 32,true⟩ 0 0 := by
    rw [s₁Is]
    have first := header_setLength (v := pages * PAGE_SIZE - 32) (header_any s₀.memory heapStart) (by omega)
    have third := header_setPrevious (header_setNext first (Nat.two_pow_pos 64)) (Nat.two_pow_pos 64)
    exact header_setFree true third
  have early : s₁.earlyMallocBase = s.earlyMallocBase := by rw [s₁Is,mapped]
  have rep₁ := oneBlock_represents ⟨range.nonzero,range.aligned,some_pages,bounded,early ▸ range.early⟩ header base₁ ends₁
    (by rw [s₁Is]) (by rw [s₁Is]) (by rw [s₁Is,mapped]; exact unlocked)
  have small : roundSize 0x10 = 16 := by rw [roundSize_eq]; rfl
  obtain ⟨x,bs',s',⟨pre,b,post,split,_,_,_,rfl⟩,returns,rep',base,ends,_,paging',granted'⟩ := malloc_fits (n := 0x10) rep₁
    (by rw [small]; decide) ⟨_,List.mem_singleton.mpr rfl,by rw [small]; exact ⟨rfl,by simp only; omega⟩⟩
  obtain ⟨rfl,rfl,rfl⟩ : pre = [] ∧ b = ⟨pages * PAGE_SIZE - 32,true⟩ ∧ post = [] := by
    cases pre with
    | nil =>
      simp only [List.nil_append,List.cons.injEq] at split
      exact ⟨rfl,split.1.symm,split.2.symm⟩
    | cons c pre =>
      have length := congrArg List.length split
      simp only [List.length_cons,List.length_nil,List.length_append] at length
      omega
  rw [small,List.append_nil] at rep'
  refine ⟨s',?_,rep',base.trans base₁,ends.trans ends₁,?_,?_⟩
  · intro k
    have size : wrap (pages * PAGE_SIZE) = pages * PAGE_SIZE := wrap_of_lt (by omega)
    have rest : sub (pages * PAGE_SIZE) headerSize = pages * PAGE_SIZE - 32 := by
      rw [headerSize,sub_of_le (by omega) (by omega)]
    have last : wrap (heapStart + pages * PAGE_SIZE) = heapStart + pages * PAGE_SIZE := wrap_of_lt bounded
    have taken := returns k
    rw [List.length_singleton,show 1 + k + 1 = k + 2 by omega] at taken
    rw [InitializeHeap,if_neg (by simp [fresh])]
    simp only [← s₀Is,size,rest,last,setLength,setNext,setPrevious,setFree,← mIs,← s₁Is,taken,Option.bind_eq_bind,
      Option.bind_some]
  · rw [paging',s₁Is,s₀Is]
  · rw [granted',s₁Is,s₀Is]

/-! ### Fuel -/

/-- More fuel changes no result of the loop. -/
theorem search_mono {fuel k size : Nat} {found : Option Nat × Kernel} (returned : s.search fuel seg size = some found) :
    s.search (fuel+k) seg size = some found := by
  induction fuel generalizing seg with
  | zero => cases returned
  | succ fuel ih =>
    rw [search] at returned
    rw [Nat.succ_add,search]
    split
    · rename_i larger
      rwa [if_pos larger] at returned
    · rename_i smaller
      rw [if_neg smaller] at returned
      split
      · rename_i same
        rwa [if_pos same] at returned
      · rename_i other
        rw [if_neg other] at returned
        split
        · rename_i last
          rw [if_pos last] at returned
          exact returned
        · rename_i next
          rw [if_neg next] at returned
          exact ih returned

/-- More fuel changes no result of `malloc`. -/
theorem malloc_mono {fuel k size : Nat} {result : Nat × Kernel} (returned : s.malloc fuel size = some result) :
    s.malloc (fuel+k) size = some result := by
  induction fuel generalizing s size with
  | zero => cases returned
  | succ fuel ih =>
    rw [malloc] at returned
    rw [Nat.succ_add,malloc]
    split
    · rename_i early
      rwa [if_pos early] at returned
    · rename_i initialized
      rw [if_neg initialized] at returned
      by_cases zero : roundSize size = 0
      · simpa only [if_pos zero] using returned
      · simp only [if_neg zero,Option.bind_eq_bind,Option.bind_eq_some_iff] at returned ⊢
        obtain ⟨s₁,aquired,⟨found,s₂⟩,searched,rest⟩ := returned
        refine ⟨s₁,aquired,⟨found,s₂⟩,search_mono searched,?_⟩
        cases found with
        | some payload => exact rest
        | none =>
          simp only [Option.bind_eq_some_iff] at rest ⊢
          obtain ⟨s₃,expanded,again⟩ := rest
          exact ⟨s₃,expanded,ih again⟩

/-- More fuel changes no result of `calloc`. -/
theorem calloc_mono {fuel k size : Nat} {result : Nat × Kernel} (returned : s.calloc fuel size = some result) :
    s.calloc (fuel+k) size = some result := by
  simp only [calloc,Option.bind_eq_bind,Option.bind_eq_some_iff] at returned ⊢
  obtain ⟨found,allocated,rest⟩ := returned
  exact ⟨found,malloc_mono allocated,rest⟩

/-- More fuel changes no result of `InitializeHeap`. -/
theorem initializeHeap_mono {fuel k heapStart pages : Nat} (returned : s.InitializeHeap fuel heapStart pages = some s') :
    s.InitializeHeap (fuel+k) heapStart pages = some s' := by
  rw [InitializeHeap] at returned ⊢
  split
  · rename_i initialized
    rwa [if_pos initialized] at returned
  · rename_i fresh
    rw [if_neg fresh] at returned
    simp only [Option.bind_eq_bind,Option.bind_eq_some_iff] at returned ⊢
    obtain ⟨found,allocated,rest⟩ := returned
    exact ⟨found,malloc_mono allocated,rest⟩

end Kernel
end WaifuOS
