import WaifuOS.HeapRuns
import WaifuOS.SchedulerRuns
import WaifuOS.Strings

/-!
What `CreateThread` writes in the memory. The stack comes from `calloc`, the object
from `new`, and both lie in the heap with everything else. `stack` points to
elements of four bytes, so that the top of the stack is computed four times as
far up as the block reaches: in no state is `rsp` inside the block
(`prepare_rsp_outside`), and no call keeps to its blocks (`creates_contained`).
-/
namespace WaifuOS.ThreadStacks
open WaifuOS.Kernel (roundSize malloc_fits)
open WaifuOS.Words WaifuOS.Bytes WaifuOS.Tiling
open WaifuOS.Scheduler (threadSize)
open WaifuOS.Scheduler.State (defaultStackSize)

/-- The addresses of `ThreadExit` and of `formatBuffer`, and the memory that
    `format("Unnamed Thread #%0", ThreadID)` leaves. -/
structure Image where
  ThreadExit : Nat
  formatBuffer : Nat
  format : Nat → Mem → Mem

/-- The heap, and the globals of the scheduler that `CreateThread` uses; `mArray`,
    `mArraySize` and `mCount` are those of `ReadyQueue`. -/
structure Machine where
  kernel : Kernel
  Running : Bool
  NextThreadID : Nat
  mArray : Nat
  mArraySize : Nat
  mCount : Nat

/-- A thread after `CreateThread` prepared it: the blocks, what was written, and the
    memory after the writes. -/
structure Created where
  stack : Nat
  newThread : Nat
  writes : List Write
  memory : Mem

/-- `Thread(nint id)`: the initializers from `StackBaseAddress` to `InterruptFrame`, then the body. -/
def construct (newThread id : Nat) : List Write :=
  (List.range 97).map (fun i => ⟨newThread + 16 + 8 * i,8,0⟩) ++ [⟨newThread,8,id⟩,⟨newThread + 792,1,0⟩]

/-- `SetName`: the memory that `strncpy` starts from, and what it writes. -/
def SetName (image : Image) (m : Mem) (newThread ThreadID name : Nat) : Mem × List Write :=
  if name = 0 then
    let m := image.format ThreadID m
    (m,strncpy m (newThread + 792) image.formatBuffer 64)
  else (m,strncpy m (newThread + 792) name 64)

/-- `stack += defaultStackSize - 3`, where an element has four bytes. -/
def stackTop (stack : Nat) : Nat := wrap (stack + 4 * (defaultStackSize - 3))

/-- `CreateThread` between the allocations and `ReadyQueue.Add`. -/
def prepare (image : Image) (m : Mem) (stack newThread ThreadID quantum entry0 title : Nat) : Created :=
  let made := construct newThread ThreadID ++ [⟨newThread + 8,8,quantum⟩,⟨newThread + 16,8,stack⟩]
  let m := writeAll m made
  let id := load m newThread 8
  let (m,name) := SetName image m newThread id title
  let m := writeAll m name
  let stack' := stackTop stack
  let frame : List Write :=
    [⟨stack',4,image.ThreadExit⟩,⟨newThread + 760,8,0x08⟩,⟨newThread + 784,8,0x10⟩,⟨newThread + 768,8,0x202⟩,
      ⟨newThread + 752,8,entry0⟩,⟨newThread + 776,8,stack'⟩]
  let m := writeAll m frame
  let registers : List Write :=
    [⟨newThread + 72,8,wrap (stack' + 4)⟩,⟨newThread + 144,8,0x10⟩,⟨newThread + 152,8,0x10⟩,⟨newThread + 160,8,0x10⟩,
      ⟨newThread + 168,8,0x10⟩]
  let m := writeAll m registers
  let rdi : Write := ⟨newThread + 64,8,load m newThread 8⟩
  ⟨stack,newThread,made ++ name ++ frame ++ registers ++ [rdi],writeAll m [rdi]⟩

namespace Machine

/-- `GetTimeQuantum`; a division by zero faults. -/
def GetTimeQuantum (m : Machine) : Option Nat :=
  if wrap (m.mCount + 1) = 0 then none else some (200 / wrap (m.mCount + 1))

/-- The copying loop of `Add`. -/
def copyArray (m : Mem) (newArray mArray x : Nat) : Nat → Mem
  | 0 => m
  | n+1 => copyArray (store m (newArray + 8 * x) 8 (load m (mArray + 8 * x) 8)) newArray mArray (x+1) n

/-- The part of `Add` that allocates a larger array. -/
def enlarge (fuel : Nat) (m : Machine) : Option Machine := do
  let (newArray,kernel) ← m.kernel.calloc fuel (wrap (8 * wrap (m.mArraySize + 5)))
  let kernel := { kernel with memory := copyArray kernel.memory newArray m.mArray 0 m.mCount }
  let kernel ← kernel.free m.mArray
  some { m with kernel, mArray := newArray, mArraySize := wrap (m.mArraySize + 5) }

/-- `ReadyQueue.Add`. -/
def Add (fuel : Nat) (m : Machine) (item : Nat) : Option Machine :=
  (if wrap (m.mCount + 1) > m.mArraySize then m.enlarge fuel else some m).map fun m =>
    { m with
      kernel := { m.kernel with memory := store m.kernel.memory (m.mArray + 8 * m.mCount) 8 item }
      mCount := wrap (m.mCount + 1) }

/-- `CreateThread`: the thread it creates, if it creates one, and the state after it. -/
def CreateThread (fuel : Nat) (image : Image) (m : Machine) (entry0 title : Nat) : Option (Option Created × Machine) :=
  if !m.Running then some (none,m)
  else do
    let (stack,kernel) ← m.kernel.calloc fuel defaultStackSize
    let (newThread,kernel) ← kernel.malloc fuel threadSize
    let quantum ← m.GetTimeQuantum
    let created := prepare image kernel.memory stack newThread m.NextThreadID quantum entry0 title
    let m := { m with kernel := { kernel with memory := created.memory }, NextThreadID := wrap (m.NextThreadID + 1) }
    let m ← m.Add fuel newThread
    some (some created,m)

end Machine

/-- Calls of `CreateThread` one after another, the calls' arguments, and the threads they created. -/
inductive Creates (image : Image) : Machine → List (Nat × Nat) → List Created → Machine → Prop
  | refl {m : Machine} : Creates image m [] [] m
  | call {m m' m'' : Machine} {calls : List (Nat × Nat)} {threads : List Created} {fuel entry0 title : Nat} {created : Option Created}
      (first : m.CreateThread fuel image entry0 title = some (created,m')) (later : Creates image m' calls threads m'') :
      Creates image m ((entry0,title) :: calls) (created.toList ++ threads) m''

/-- `InterruptFrame.rsp` of the thread. -/
def Created.rsp (c : Created) : Nat := load c.memory (c.newThread + 776) 8

/-- Everything is written to the two blocks, and the slot that `rsp` points to is in the stack. -/
structure Created.Contained (c : Created) : Prop where
  writes : ∀ w ∈ c.writes, w.Inside c.stack defaultStackSize ∨ w.Inside c.newThread threadSize
  rsp_low : c.stack ≤ c.rsp
  rsp_high : c.rsp + 8 ≤ c.stack + defaultStackSize

variable {image : Image} {m m' : Machine} {memory : Mem} {stack newThread ThreadID quantum entry0 title fuel : Nat}
  {created : Option Created} {calls : List (Nat × Nat)} {threads : List Created}

/-- The top is above the stack, or below it when the address wraps. -/
theorem stackTop_outside (stack : Nat) : ¬ (stack ≤ stackTop stack ∧ stackTop stack < stack + defaultStackSize) := by
  simp only [stackTop,defaultStackSize,wrap]
  omega

/-- The frame of the new thread holds the top, and no later write reaches it. -/
theorem prepare_rsp : (prepare image memory stack newThread ThreadID quantum entry0 title).rsp = stackTop stack := by
  have word : stackTop stack < 256^8 := wrap_lt _
  unfold Created.rsp prepare
  simp only
  rw [load_writeAll_apart (by simp [Apart]),load_writeAll_apart (by simp [Apart])]
  simp only [writeAll]
  rw [load_store,Nat.mod_eq_of_lt word]

/-- The thread object of the scheduler has the same stack pointer. -/
theorem prepare_rsp_scheduler {s : Scheduler.State} (running : s.Running = true) :
    ((s.CreateThread stack newThread entry0).threads newThread).InterruptFrame.rsp =
      (prepare image memory stack newThread ThreadID quantum entry0 title).rsp := by
  rw [prepare_rsp,Scheduler.State.CreateThread,running,if_neg (by simp)]
  simp [Scheduler.State.update,stackTop]

theorem prepare_rsp_outside : ¬ (prepare image memory stack newThread ThreadID quantum entry0 title).Contained := by
  intro contained
  have low := contained.rsp_low
  have high := contained.rsp_high
  rw [prepare_rsp] at low high
  have place : (prepare image memory stack newThread ThreadID quantum entry0 title).stack = stack := rfl
  rw [place] at low high
  exact stackTop_outside stack ⟨low,by omega⟩

theorem construct_inside {w : Write} (member : w ∈ construct newThread ThreadID) : w.Inside newThread threadSize := by
  simp only [construct,List.mem_append,List.mem_map,List.mem_range,List.mem_cons,List.not_mem_nil,or_false] at member
  simp only [Write.Inside,threadSize]
  rcases member with ⟨i,small,rfl⟩ | rfl | rfl
  · constructor <;> simp only <;> omega
  · constructor <;> simp only <;> omega
  · constructor <;> simp only <;> omega

theorem setName_inside {w : Write} {name : Nat} (member : w ∈ (SetName image memory newThread ThreadID name).2) :
    w.Inside newThread threadSize := by
  have inside : w.Inside (newThread + 792) 64 := by
    simp only [SetName] at member
    split at member
    · exact strncpy_inside member
    · exact strncpy_inside member
  obtain ⟨low,high⟩ := inside
  exact ⟨by omega,by unfold threadSize; omega⟩

/-- Only the slot is written outside of the object, and it is not in the stack. -/
theorem prepare_writes {w : Write} (member : w ∈ (prepare image memory stack newThread ThreadID quantum entry0 title).writes) :
    w.Inside newThread threadSize ∨ (w.address = stackTop stack ∧ ¬ w.Inside stack defaultStackSize) := by
  have field : ∀ {offset value : Nat}, offset + 8 ≤ threadSize → (⟨newThread + offset,8,value⟩ : Write).Inside newThread threadSize :=
    fun small => ⟨Nat.le_add_right _ _,by simp only; omega⟩
  have words : threadSize = 856 := rfl
  simp only [prepare] at member
  rcases List.mem_append.mp member with front | registers
  · rcases List.mem_append.mp front with front | registers
    · rcases List.mem_append.mp front with front | frame
      · rcases List.mem_append.mp front with made | name
        · rcases List.mem_append.mp made with made | fields
          · exact .inl (construct_inside made)
          · simp only [List.mem_cons,List.not_mem_nil,or_false] at fields
            rcases fields with rfl | rfl
            · exact .inl (field (by omega))
            · exact .inl (field (by omega))
        · exact .inl (setName_inside name)
      · rcases List.mem_cons.mp frame with rfl | frame
        · exact .inr ⟨rfl,fun inside => stackTop_outside stack ⟨inside.1,by have high := inside.2; simp only at high; omega⟩⟩
        · simp only [List.mem_cons,List.not_mem_nil,or_false] at frame
          rcases frame with rfl | rfl | rfl | rfl | rfl <;> exact .inl (field (by omega))
    · simp only [List.mem_cons,List.not_mem_nil,or_false] at registers
      rcases registers with rfl | rfl | rfl | rfl | rfl <;> exact .inl (field (by omega))
  · rw [List.mem_singleton] at registers
    exact .inl (registers ▸ field (by omega))

/-- `Add` leaves the flag as it is. -/
theorem add_running {item : Nat} (added : m.Add fuel item = some m') : m'.Running = m.Running := by
  obtain ⟨t,grown,rfl⟩ := Option.map_eq_some_iff.mp added
  split at grown
  · simp only [Machine.enlarge,Option.bind_eq_bind,Option.bind_eq_some_iff,Option.some.injEq] at grown
    obtain ⟨_,_,_,_,rfl⟩ := grown
    rfl
  · cases grown
    rfl

/-- While the scheduler runs a call that returns has created a thread. -/
theorem createThread_creates (running : m.Running = true) (done : m.CreateThread fuel image entry0 title = some (created,m')) :
    (∃ memory stack newThread quantum, created = some (prepare image memory stack newThread m.NextThreadID quantum entry0 title)) ∧
      m'.Running = true := by
  rw [Machine.CreateThread,running,if_neg (by simp)] at done
  simp only [Option.bind_eq_bind,Option.bind_eq_some_iff,Option.some.injEq,Prod.mk.injEq] at done
  obtain ⟨⟨stack,kernel⟩,_,⟨newThread,kernel'⟩,_,quantum,_,t,added,rfl,rfl⟩ := done
  exact ⟨⟨_,_,_,_,rfl⟩,add_running added⟩

/-- Every call creates one thread, whose stack pointer is outside of its stack. -/
theorem creates_outside (running : m.Running = true) (done : Creates image m calls threads m') :
    threads.length = calls.length ∧ ∀ c ∈ threads, ¬ c.Contained := by
  induction done with
  | refl => exact ⟨rfl,by simp⟩
  | call first later ih =>
    obtain ⟨⟨memory,stack,newThread,quantum,rfl⟩,still⟩ := createThread_creates running first
    obtain ⟨count,outside⟩ := ih still
    refine ⟨by simp [count],?_⟩
    intro c member
    rcases List.mem_cons.mp member with rfl | rest
    · exact prepare_rsp_outside
    · exact outside c rest

/-- While the scheduler runs, no call keeps to its blocks: the sequences of calls
    that do are the empty ones. -/
theorem creates_contained (running : m.Running = true) (done : Creates image m calls threads m') :
    ((∀ c ∈ threads, c.Contained) ↔ calls = []) ∧ ∀ c ∈ threads, ¬ c.Contained := by
  obtain ⟨count,outside⟩ := creates_outside running done
  refine ⟨⟨?_,?_⟩,outside⟩
  · intro all
    cases threads with
    | nil => exact List.length_eq_zero_iff.mp count.symm
    | cons c threads => exact absurd (all c (by simp)) (outside c (by simp))
  · intro none
    rw [none,List.length_nil,List.length_eq_zero_iff] at count
    simp [count]

/-- A heap at rest with a free block of at least `n` bytes. -/
def Roomy (s : Kernel) (n : Nat) : Prop := ∃ bs, Represents s bs ∧ ∃ b ∈ bs, b.free = true ∧ n ≤ b.len ∧ b.len < 2^63

variable {s : Kernel} {n size : Nat}

theorem Roomy.mono {k : Nat} (roomy : Roomy s k) (le : n ≤ k) : Roomy s n := by
  obtain ⟨bs,rep,b,member,free,room,short⟩ := roomy
  exact ⟨bs,rep,b,member,free,by omega,short⟩

/-- What is taken of a block with room leaves room, and so does what is taken of another block. -/
theorem Roomy.takes {bs bs' : List Block} {b : Block} {a x : Nat} (takes : Kernel.Takes size a bs x bs') (member : b ∈ bs)
    (free : b.free = true) (room : size + 48 + n ≤ b.len) (short : b.len < 2^63) :
    ∃ c ∈ bs', c.free = true ∧ n ≤ c.len ∧ c.len < 2^63 := by
  obtain ⟨pre,d,post,rfl,_,_,_,rfl⟩ := takes
  rcases List.mem_append.mp member with early | here
  · exact ⟨b,by simp [early],free,by omega,short⟩
  · rcases List.mem_cons.mp here with rfl | late
    · refine ⟨⟨b.len - size - 32,true⟩,?_,rfl,by simp only; omega,by simp only; omega⟩
      rw [Kernel.carve,if_pos ⟨by omega,by omega⟩]
      simp
    · exact ⟨b,by simp [late],free,by omega,short⟩

/-- `malloc` in a heap with room returns. -/
theorem Roomy.malloc (size n : Nat) (roomy : Roomy s (roundSize size + 48 + n)) (nonzero : roundSize size ≠ 0) : ∃ x bs' s',
    (∃ enough, ∀ fuel, enough ≤ fuel → s.malloc fuel size = some (x+32,s')) ∧ Represents s' bs' ∧
      (∃ pre l post, bs' = pre ++ ⟨l,false⟩ :: post ∧ x = s'.heapBase + extent 32 pre ∧ roundSize size ≤ l) ∧
      ∃ c ∈ bs', c.free = true ∧ n ≤ c.len ∧ c.len < 2^63 := by
  obtain ⟨bs,rep,b,member,free,room,short⟩ := roomy
  obtain ⟨x,bs',s',takes,returns,rep',base,_⟩ := malloc_fits rep nonzero ⟨b,member,free,by omega⟩
  refine ⟨x,bs',s',⟨bs.length + 1,?_⟩,rep',?_,Roomy.takes takes member free room short⟩
  · intro fuel large
    obtain ⟨k,rfl⟩ := Nat.exists_eq_add_of_le large
    rw [show bs.length + 1 + k = bs.length + k + 1 by omega]
    exact returns k
  · obtain ⟨pre,d,post,_,fits,_,xIs,rfl⟩ := takes
    obtain ⟨l,tail,first,large,_⟩ := Kernel.carve_first (n := roundSize size) (b := d)
    exact ⟨pre,l,tail ++ post,by rw [first]; rfl,by rw [base]; exact xIs,large fits.2⟩

/-- `calloc` in a heap with room returns, and leaves room. -/
theorem Roomy.calloc (size n : Nat) (roomy : Roomy s (roundSize size + 48 + n)) (nonzero : roundSize size ≠ 0) : ∃ x s',
    (∃ enough, ∀ fuel, enough ≤ fuel → s.calloc fuel size = some (x+32,s')) ∧ Roomy s' n := by
  have idem := Kernel.roundSize_idem size
  obtain ⟨x,bs',t,⟨enough,returns⟩,rep,⟨pre,l,post,rfl,xIs,fits⟩,free⟩ :=
    Roomy.malloc (roundSize size) n (by rw [idem]; exact roomy) (by rw [idem]; exact nonzero)
  rw [idem] at fits
  obtain ⟨_,chain⟩ := Kernel.fill_chain 0x00 rep.chain xIs fits
  refine ⟨x,{ t with memory := memset64 t.memory (x+32) 0x00 (roundSize size) },⟨enough,fun fuel large => ?_⟩,
    _,⟨chain,rep.initialized,rep.unlocked,rep.separate,rep.multiples,rep.aligned,rep.early⟩,free⟩
  simp only [Kernel.calloc,returns fuel large,Option.bind_eq_bind,Option.bind_some]
  rw [if_pos (by omega)]

/-- Where the queue is not full, `Add` returns. -/
theorem add_returns (fuel item : Nat) (space : wrap (m.mCount + 1) ≤ m.mArraySize) : ∃ m', m.Add fuel item = some m' := by
  rw [Machine.Add,if_neg (by omega)]
  exact ⟨_,rfl⟩

/-- Where the heap has room and the queue is not full, `CreateThread` returns. -/
theorem createThread_returns (image : Image) (entry0 title : Nat) (roomy : Roomy m.kernel 0x5000) (running : m.Running = true)
    (space : m.mCount < m.mArraySize) (word : m.mArraySize < 2^64) : ∃ fuel created m', m.CreateThread fuel image entry0 title = some (created,m') := by
  have stackSize : roundSize defaultStackSize = 0x4000 := by rw [Kernel.roundSize_eq]; decide
  have objectSize : roundSize threadSize = 864 := by rw [Kernel.roundSize_eq]; decide
  obtain ⟨stack,s,⟨enough,stackReturns⟩,roomy'⟩ := Roomy.calloc defaultStackSize (864 + 48)
    (by rw [stackSize]; exact roomy.mono (by decide)) (by rw [stackSize]; decide)
  obtain ⟨x,_,s',⟨enough',objectReturns⟩,_⟩ := Roomy.malloc threadSize 0
    (by rw [objectSize]; exact roomy') (by rw [objectSize]; decide)
  have more : wrap (m.mCount + 1) = m.mCount + 1 := wrap_of_lt (by omega)
  have quantum : m.GetTimeQuantum = some (200 / (m.mCount + 1)) := by
    rw [Machine.GetTimeQuantum,more,if_neg (by omega)]
  obtain ⟨created,isCreated⟩ : ∃ c, c = prepare image s'.memory (stack+32) (x+32) m.NextThreadID (200 / (m.mCount + 1)) entry0
    title := ⟨_,rfl⟩
  obtain ⟨m',added⟩ := add_returns (enough + enough') (x+32) (m := { m with
    kernel := { s' with memory := created.memory }, NextThreadID := wrap (m.NextThreadID + 1) }) (by rw [more]; exact space)
  refine ⟨enough + enough',some created,m',?_⟩
  rw [Machine.CreateThread,running,if_neg (by simp),stackReturns _ (by omega)]
  simp only [Option.bind_eq_bind,Option.bind_some,objectReturns _ (Nat.le_add_left _ _),quantum]
  rw [running] at added
  rw [← isCreated,added]
  rfl

/-- The boot heap with the array of an empty queue. -/
theorem boot_roomy : ∃ s q live, Kernel.Run s live ∧ q ∈ live ∧ Roomy s 0x5000 := by
  have range : Kernel.cleared.HeapRange 0x100000000000 0x10000 := ⟨by decide,⟨0x100000000,rfl⟩,by decide,by decide,by decide⟩
  obtain ⟨s,returns,rep,_⟩ := Kernel.initializeHeap_spec range rfl rfl
  have arraySize : roundSize 40 = 48 := by rw [Kernel.roundSize_eq]; decide
  have tiling : Kernel.carve 16 ⟨0x10000 * PAGE_SIZE - 32,true⟩ = [⟨16,false⟩,⟨0xfffffb0,true⟩] := by decide
  rw [tiling] at rep
  have roomy : Roomy s (0x5000 + 96) := ⟨_,rep,⟨0xfffffb0,true⟩,by simp,rfl,by decide,by decide⟩
  obtain ⟨x,s',⟨enough,allocated⟩,roomy'⟩ := Roomy.calloc 40 0x5000 (by rw [arraySize]; exact roomy)
    (by rw [arraySize]; decide)
  have fits : Kernel.NoWrap s (roundSize 40) := .inl ((Kernel.fits_iff rep.chain).mp
    ⟨⟨0xfffffb0,true⟩,by simp,rfl,by rw [arraySize]; decide⟩)
  have returned : (Kernel.HeapCall.calloc 40).exec enough s = some (x+32,s') := allocated enough (Nat.le_refl _)
  have allowed : (Kernel.HeapCall.calloc 40).Allowed s [0x100000000000 + 32] := fun _ => fits
  have run := (Kernel.Run.start range rfl rfl (returns 0)).call allowed returned
  exact ⟨s',x+32,_,run,by simp [Kernel.HeapCall.live],roomy'⟩

/-- The machine after `Start`. -/
def boot (s : Kernel) (q : Nat) : Machine := ⟨s,true,1,q,5,0⟩

/-- An image whose titles are all given. -/
def bootImage : Image := ⟨0x110000,0x120000,fun _ m => m⟩

theorem creates_boot : ∃ s q live threads m', Kernel.Run s live ∧ q ∈ live ∧
    Creates bootImage (boot s q) [(0x130000,0x140000)] threads m' := by
  obtain ⟨s,q,live,run,member,roomy⟩ := boot_roomy
  obtain ⟨fuel,created,m',done⟩ := createThread_returns (m := boot s q) bootImage 0x130000 0x140000 roomy rfl
    (show 0 < 5 by decide) (show 5 < 2^64 by decide)
  exact ⟨s,q,live,_,m',run,member,.call done .refl⟩

/-- The first thread after boot writes outside of its blocks. -/
theorem creates_uncontained : ∃ s q live threads m', Kernel.Run s live ∧ q ∈ live ∧
    Creates bootImage (boot s q) [(0x130000,0x140000)] threads m' ∧ ¬ ∀ c ∈ threads, c.Contained := by
  obtain ⟨s,q,live,threads,m',run,member,done⟩ := creates_boot
  obtain ⟨count,outside⟩ := creates_outside rfl done
  refine ⟨s,q,live,threads,m',run,member,done,?_⟩
  intro all
  cases threads with
  | nil => cases count
  | cons c threads => exact outside c (by simp) (all c (by simp))

theorem creates_contained_boot : ∃ s q threads m', Creates bootImage (boot s q) [(0x130000,0x140000)] threads m' ∧
    ∀ c ∈ threads, ¬ c.Contained := by
  obtain ⟨s,q,_,threads,m',_,_,done⟩ := creates_boot
  exact ⟨s,q,threads,m',done,(creates_contained rfl done).2⟩

end WaifuOS.ThreadStacks
