import WaifuOS.EfiMap
import WaifuOS.PageShortage

/-!
The address space that `InitializePaging` sets up. The tables are a flat table with one entry for each page
(`leafEntry`), which every `MapMemory` and `SetVirtualFlag` changes at the page of its address and nowhere else,
as long as its requests find frames (`run_flat`). With a frame for each missing table
`InitializePaging` maps the memory above the first pages and the framebuffer to themselves, keeps
the first and the last page for a page that cannot be, and maps nothing else
(`initializePaging_space`).
-/
namespace WaifuOS.PageTables
open WaifuOS.Words WaifuOS.Bytes

/-- The entry of each address. -/
abbrev Flat := Nat → PageDirectoryEntry

namespace TableCall

def address : TableCall → Nat
  | .MapMemory virtualMemory _ => virtualMemory
  | .SetVirtualFlag address _ _ => address

/-- The entry that the call writes in place of another one. -/
def entry (e : PageDirectoryEntry) : TableCall → PageDirectoryEntry
  | .MapMemory _ physMemory => mapped e physMemory
  | .SetVirtualFlag _ flag value => e.SetFlag flag value

/-- What the call does to the flat table. -/
def apply (f : Flat) (call : TableCall) : Flat := fun w => if page w = page call.address then call.entry (f call.address) else f w

end TableCall

/-- The calls one after another. -/
def run (s : PageTables) (calls : List TableCall) : PageTables := calls.foldl TableCall.exec s

/-- Every request of the calls finds a frame. -/
def Served (s : PageTables) : List TableCall → Prop
  | [] => True
  | call :: calls => ¬ call.Short s ∧ Served (call.exec s) calls

variable {s s' : PageTables} {v w : Nat} {V : Finset Nat} {f : Flat} {e : PageDirectoryEntry}

/-- The entry in a table of the last level that is in its place. -/
theorem leafEntry_at {PT : Nat} (at_table : s.walk ((path v).take 3) = some PT) :
    s.leafEntry v = s.ram PT (PageMapIndexer.ofAddress v).Pi := by rw [leafEntry,at_table]

/-- A call whose requests find frames changes the entry of its page and no other. -/
theorem exec_leafEntry (sound : Sound s) (call : TableCall) (served : ¬ call.Short s) :
    (call.exec s).leafEntry = call.apply s.leafEntry := by
  funext w
  cases call with
  | MapMemory virtualMemory physMemory =>
    obtain ⟨_,PT,t,made,at_table,kept⟩ := lastTable_served sound served
    rw [TableCall.exec,mapMemory_eq made (kept.sound.wellformed.reads at_table (Nat.le_refl 3))]
    apply (write_leafEntry kept.sound.wellformed.tree at_table w).trans
    rw [kept.leaf,← leafEntry_at at_table,kept.leaf]
    rfl
  | SetVirtualFlag address flag value =>
    obtain ⟨_,PT,t,made,at_table,kept⟩ := lastTable_served sound served
    rw [TableCall.exec,setVirtualFlag_eq made (kept.sound.wellformed.reads at_table (Nat.le_refl 3))]
    apply (write_leafEntry kept.sound.wellformed.tree at_table w).trans
    rw [kept.leaf,← leafEntry_at at_table,kept.leaf]
    rfl

theorem run_served (calls : List TableCall) (sound : Sound s) (served : s.Served calls) :
    Sound (s.run calls) ∧ (s.run calls).leafEntry = calls.foldl TableCall.apply s.leafEntry := by
  induction calls generalizing s with
  | nil => exact ⟨sound,rfl⟩
  | cons call calls ih =>
    obtain ⟨here,later⟩ := served
    obtain ⟨sound',leaf⟩ := ih (exec_sound sound call here) later
    refine ⟨sound',leaf.trans ?_⟩
    rw [exec_leafEntry sound call here]
    rfl

/-- A request that is granted finds a frame. -/
theorem not_nextShort {table index : Nat} (granted : s.NextGranted table index) : ¬ s.NextShort table index := by
  rintro ⟨missing,out⟩
  obtain ⟨t,request,_⟩ := requestPage_short out
  exact (granted missing).1 (by rw [request])

theorem not_lastShort {indexer : PageMapIndexer} (granted : s.LastGranted indexer) : ¬ s.LastShort indexer := by
  obtain ⟨granted₁,granted₂,granted₃⟩ := granted
  rintro (short | short | short)
  · exact not_nextShort granted₁ short
  · exact not_nextShort granted₂ short
  · exact not_nextShort granted₃ short

/-- With frames for the missing tables above some addresses, calls for these addresses are served. -/
theorem served_of_supplied (calls : List TableCall) (sound : Sound s) (supplied : Supplied s 0 V) (inside : ∀ call ∈ calls, call.address ∈ V) :
    s.Served calls := by
  induction calls generalizing s with
  | nil => trivial
  | cons call calls ih =>
    have served : ¬ call.Short s := by
      have granted := lastGranted_of_supplied sound.wellformed supplied sound.marked (inside call List.mem_cons_self)
      cases call <;> exact not_lastShort granted
    have supplied' : Supplied (call.exec s) 0 V := by
      cases call with
      | MapMemory virtualMemory physMemory =>
        have member : virtualMemory ∈ V := inside _ List.mem_cons_self
        obtain ⟨at_table,wellformed,supplied',_⟩ := lastTable_supplied sound.wellformed supplied member
        rw [TableCall.exec,mapMemory_eq rfl (wellformed.reads at_table (Nat.le_refl 3))]
        exact (write_leaf wellformed supplied' at_table).2.2.1
      | SetVirtualFlag address flag value =>
        have member : address ∈ V := inside _ List.mem_cons_self
        exact (setVirtualFlag_supplied flag value sound.wellformed supplied member).2.1
    exact ⟨served,ih (exec_sound sound call served) supplied' (fun call member => inside call (List.mem_cons_of_mem _ member))⟩

/-- The tables refine the flat table: after any calls whose requests find frames, the entry of every address, and what the MMU
    makes of it, are those of the flat table after the same calls. -/
theorem run_flat (calls : List TableCall) (sound : Sound s) (served : s.Served calls) :
    (s.run calls).leafEntry = calls.foldl TableCall.apply s.leafEntry ∧
      ∀ w, (s.run calls).translate w = (calls.foldl TableCall.apply s.leafEntry w).target := by
  obtain ⟨_,leaf⟩ := run_served calls sound served
  exact ⟨leaf,fun w => by rw [translate_leafEntry,leaf]⟩

/-- A page is mapped, and its flag is set through another address of the page. -/
theorem run_flat_fourFrames : (fourFrames.run [.MapMemory 0x1234 0x7000,.SetVirtualFlag 0x1FFF .NX true]).translate 0x1000 = some 0x7000 := by
  have sound : Sound fourFrames := startPaging_sound (by decide +kernel) ⟨4,by decide +kernel⟩ (by decide +kernel)
  have supplied : Supplied fourFrames 0 {0x1234,0x1FFF} := by
    simp only [Supplied]
    decide +kernel
  have served := served_of_supplied [.MapMemory 0x1234 0x7000,.SetVirtualFlag 0x1FFF .NX true] sound supplied (by simp [TableCall.address])
  rw [(run_flat _ sound served).2]
  decide +kernel

theorem setAddress_bit (Address : BitVec 64) {j : Nat} (inside : j < 64) : (e.SetAddress Address).mValue.getLsbD j =
    if 12 ≤ j ∧ j < 52 then Address.getLsbD (j - 12) else e.mValue.getLsbD j := by
  have field : ∀ k : Fin 64, (0x000000FFFFFFFFFF#64).getLsbD k = decide (k.val < 40) := by decide
  have rest : ∀ k : Fin 64, (0xFFF0000000000FFF#64).getLsbD k = decide (k.val < 12 ∨ 52 ≤ k.val) := by decide
  rw [PageDirectoryEntry.SetAddress,BitVec.getLsbD_or,BitVec.getLsbD_and,BitVec.getLsbD_shiftLeft,BitVec.getLsbD_and,
    rest ⟨j,inside⟩,field ⟨j - 12,by omega⟩]
  by_cases address : 12 ≤ j ∧ j < 52
  · rw [if_pos address,decide_eq_false (show ¬ (j < 12 ∨ 52 ≤ j) by omega)]
    simp [show ¬ j < 12 by omega,show j - 12 < 40 by omega,inside]
  · rw [if_neg address,decide_eq_true (show j < 12 ∨ 52 ≤ j by omega),Bool.and_true]
    by_cases low : j < 12
    · simp [low]
    · simp [low,show ¬ j - 12 < 40 by omega]

/-- An entry is its bits. -/
theorem entry_ext {e' : PageDirectoryEntry} (same : ∀ j < 64, e.mValue.getLsbD j = e'.mValue.getLsbD j) : e = e' :=
  congrArg PageDirectoryEntry.mk (BitVec.eq_of_getLsbD_eq same)

/-- A flag that is set is not changed. -/
theorem setFlag_of_getFlag {flag : PTFlag} (set : e.GetFlag flag = true) (value : Bool) : e.SetFlag flag value = e := by
  apply entry_ext
  intro j _
  rw [PageDirectoryEntry.setFlag_bit]
  by_cases here : j = flag.bit
  · rw [here,← PageDirectoryEntry.getFlag_eq,set]
    rfl
  · simp [here]

theorem mapped_flags (e : PageDirectoryEntry) (physMemory : Nat) :
    (mapped e physMemory).GetFlag .Present = true ∧ (mapped e physMemory).GetFlag .ReadWrite = true := by simp [mapped]

/-- A page that is mapped again is as if it had been mapped so at first. -/
theorem mapped_mapped (e : PageDirectoryEntry) (old new : Nat) : mapped (mapped e old) new = mapped e new := by
  apply entry_ext
  intro j inside
  simp only [mapped,PageDirectoryEntry.setFlag_bit,setAddress_bit _ inside]
  by_cases address : 12 ≤ j ∧ j < 52
  · simp only [if_pos address]
  · simp only [if_neg address]
    cases e.mValue.getLsbD j with
    | true => simp
    | false => rw [Bool.false_or,Bool.or_assoc,Bool.or_self]

/-- The entry of a page that is mapped to itself. -/
def plain (p : Nat) : PageDirectoryEntry := mapped ⟨0#64⟩ (p * PAGE_SIZE)

theorem mapped_plain {x : Nat} (low : x < 2^48) : mapped ⟨0#64⟩ x = plain (page x) := by
  have shift : BitVec.ofNat 64 x >>> 12 = BitVec.ofNat 64 (page x * PAGE_SIZE) >>> 12 := by
    apply BitVec.eq_of_toNat_eq
    rw [BitVec.toNat_ushiftRight,BitVec.toNat_ushiftRight,BitVec.toNat_ofNat,BitVec.toNat_ofNat,Nat.shiftRight_eq_div_pow,
      Nat.shiftRight_eq_div_pow]
    simp only [page,PAGE_SIZE]
    omega
  rw [plain,mapped,mapped,shift]

/-- What is set for the pages of `nullptr` and `~nullptr`. -/
def forbidden : PageDirectoryEntry :=
  (((mapped ⟨0#64⟩ (2^64 - 1)).SetFlag .NX true).SetFlag .UserSuper true).SetFlag .ReadWrite false

/-! ### `InitializePaging` -/

/-- The memory map and the framebuffer that the loader tells of, and where the kernel is. -/
structure BootInfo where
  MemoryMap : List EfiMemoryDescriptor
  BaseAddress : Nat
  BufferSize : Nat
  KernelStart : Nat
  KernelEnd : Nat

namespace BootInfo

def fbSize (info : BootInfo) : Nat := wrap (info.BufferSize + PAGE_SIZE)

/-- The allocator after the memory map is read and the framebuffer and the kernel are locked. -/
def lock (info : BootInfo) (frames : PageFrameAllocator) (memory : Mem) : PageFrameAllocator :=
  let frames := frames.ReadEfiMemoryMap memory info.MemoryMap
  let frames := frames.LockPages info.BaseAddress (info.fbSize / PAGE_SIZE)
  let kSize := sub info.KernelEnd info.KernelStart
  frames.LockPages info.KernelStart (kSize / PAGE_SIZE + 1)

end BootInfo

/-- `for (u64 x = start; x < stop; x += PAGE_SIZE)`, with fuel for its tests. -/
def sweep (body : PageTables → Nat → PageTables) (stop : Nat) : Nat → PageTables → Nat → Option PageTables
  | 0, _, _ => none
  | fuel+1, s, x => if x < stop then sweep body stop fuel (body s x) (wrap (x + PAGE_SIZE)) else some s

/-- An impossible address for a page that is not to be used. -/
def impossible (s : PageTables) (x : Nat) : PageTables :=
  let s := s.MapMemory x (2^64 - 1)
  let s := s.SetVirtualFlag x .NX true
  let s := s.SetVirtualFlag x .UserSuper true
  s.SetVirtualFlag x .ReadWrite false

def InitializePaging (s : PageTables) (memory : Mem) (info : BootInfo) (fuel : Nat) : Option PageTables := do
  let s := startPaging { s with frames := info.lock s.frames memory }
  -- Map all memory
  let memorySize := CalculateMemorySize info.MemoryMap
  let s ← sweep (fun s x => s.MapMemory x x) memorySize fuel s (PAGE_SIZE <<< 4)
  -- Remap Framebuffer
  let s ← sweep (fun s x => ((s.MapMemory x x).SetVirtualFlag x .Present true).SetVirtualFlag x .ReadWrite false)
    (wrap (info.BaseAddress + info.fbSize)) fuel s info.BaseAddress
  -- set nullptr and ~nullptr to an impossible address
  let s := (s.impossible 0).impossible (2^64 - 1)
  some s.load

/-! ### Its calls -/

def identityCalls (x : Nat) : List TableCall := [.MapMemory x x]

def framebufferCalls (x : Nat) : List TableCall :=
  [.MapMemory x x,.SetVirtualFlag x .Present true,.SetVirtualFlag x .ReadWrite false]

def impossibleCalls (x : Nat) : List TableCall :=
  [.MapMemory x (2^64 - 1),.SetVirtualFlag x .NX true,.SetVirtualFlag x .UserSuper true,.SetVirtualFlag x .ReadWrite false]

namespace BootInfo

/-- The addresses of the first loop. -/
def memoryPages (info : BootInfo) : List Nat :=
  List.range' 0x10000 ((CalculateMemorySize info.MemoryMap - 0x10000 + 0xFFF) / PAGE_SIZE) PAGE_SIZE

/-- The addresses of the second loop. -/
def framebufferPages (info : BootInfo) : List Nat := List.range' info.BaseAddress ((info.fbSize + 0xFFF) / PAGE_SIZE) PAGE_SIZE

def calls (info : BootInfo) : List TableCall :=
  info.memoryPages.flatMap identityCalls ++ (info.framebufferPages.flatMap framebufferCalls ++ (impossibleCalls 0 ++ impossibleCalls (2^64 - 1)))

/-- The addresses that tables are needed for. -/
def addresses (info : BootInfo) : Finset Nat := (info.calls.map TableCall.address).toFinset

/-- The pages that are mapped to themselves. -/
def Mapped (info : BootInfo) (p : Nat) : Prop :=
  (0x10 ≤ p ∧ p * PAGE_SIZE < CalculateMemorySize info.MemoryMap) ∨
    (info.BaseAddress / PAGE_SIZE ≤ p ∧ (p - info.BaseAddress / PAGE_SIZE) * PAGE_SIZE < info.fbSize)

instance (info : BootInfo) (p : Nat) : Decidable (info.Mapped p) := inferInstanceAs (Decidable (_ ∨ _))

end BootInfo

variable {info : BootInfo} {S : Nat → Prop} {x rounds stop fuel : Nat}

/-- A loop that does not reach the end of the address space goes through its pages. -/
theorem sweep_eq (calls : Nat → List TableCall) (s : PageTables) (short : ∀ k < rounds, x + k * PAGE_SIZE < stop) (ends : stop ≤ x + rounds * PAGE_SIZE)
    (small : x + rounds * PAGE_SIZE < 2^64) (enough : rounds < fuel) :
    sweep (fun s x => s.run (calls x)) stop fuel s x = some (s.run ((List.range' x rounds PAGE_SIZE).flatMap calls)) := by
  induction rounds generalizing s x fuel with
  | zero =>
    obtain ⟨fuel,rfl⟩ := Nat.exists_eq_add_of_lt enough
    rw [Nat.zero_add,sweep,if_neg (by omega)]
    rfl
  | succ rounds ih =>
    obtain ⟨fuel,rfl⟩ : ∃ n, fuel = n+1 := ⟨fuel - 1,by omega⟩
    have here := short 0 (by omega)
    have next : wrap (x + PAGE_SIZE) = x + PAGE_SIZE := wrap_of_lt (by rw [Nat.add_mul] at small; omega)
    have later : ∀ k < rounds, x + PAGE_SIZE + k * PAGE_SIZE < stop := by
      intro k inside
      have bound := short (k+1) (by omega)
      rw [Nat.add_mul] at bound
      omega
    rw [Nat.add_mul] at ends small
    rw [sweep,if_pos (by omega),next,ih (s.run (calls x)) later (by omega) (by omega) (by omega),List.range'_succ,List.flatMap_cons]
    simp only [run,List.foldl_append]

/-- The entries of mapped pages are plain, and the others blank. -/
def Painted (S : Nat → Prop) (f : Flat) : Prop := ∀ w, (S (page w) → f w = plain (page w)) ∧ (¬ S (page w) → f w = ⟨0#64⟩)

/-- The table has one entry for each page. -/
def Uniform (f : Flat) : Prop := ∀ v w, page v = page w → f v = f w

theorem Painted.uniform (painted : Painted S f) : Uniform f := by
  intro v w same
  by_cases mapped : S (page v)
  · rw [(painted v).1 mapped,(painted w).1 (same ▸ mapped),same]
  · rw [(painted v).2 mapped,(painted w).2 (same ▸ mapped)]

/-- Calls for one address change one entry, one after another. -/
theorem foldl_apply {calls : List TableCall} (uniform : Uniform f) (same : ∀ call ∈ calls, call.address = x) (w : Nat) :
    calls.foldl TableCall.apply f w = if page w = page x then calls.foldl TableCall.entry (f x) else f w := by
  induction calls generalizing f with
  | nil =>
    by_cases here : page w = page x
    · rw [if_pos here]
      exact uniform w x here
    · rw [if_neg here]
      rfl
  | cons call calls ih =>
    have first := same call List.mem_cons_self
    have uniform' : Uniform (call.apply f) := by
      intro u w same
      simp only [TableCall.apply,same,uniform u w same]
    rw [List.foldl_cons,ih uniform' (fun call member => same call (List.mem_cons_of_mem _ member))]
    by_cases here : page w = page x
    · rw [if_pos here,if_pos here,TableCall.apply,first,if_pos rfl]
      rfl
    · rw [if_neg here,if_neg here,TableCall.apply,first,if_neg here]

theorem pageCalls_address {calls : Nat → List TableCall} (calls_eq : calls = identityCalls ∨ calls = framebufferCalls) (x : Nat) :
    ∀ call ∈ calls x, call.address = x := by
  rcases calls_eq with rfl | rfl <;> simp [identityCalls,framebufferCalls,TableCall.address]

/-- A page that is mapped to itself is plain afterwards, in the loop for the memory and in the one for the framebuffer, whose flags
    are those that are set already. -/
theorem painted_page (painted : Painted S f) (low : x < 2^48) {calls : Nat → List TableCall} (calls_eq : calls = identityCalls ∨ calls = framebufferCalls) :
    Painted (fun p => S p ∨ p = page x) ((calls x).foldl TableCall.apply f) := by
  have entry : (calls x).foldl TableCall.entry (f x) = plain (page x) := by
    have mapped_here : mapped (f x) x = plain (page x) := by
      by_cases before : S (page x)
      · rw [(painted x).1 before,← mapped_plain low,mapped_mapped]
      · rw [(painted x).2 before,mapped_plain low]
    obtain ⟨present,writable⟩ := mapped_flags ⟨0#64⟩ (page x * PAGE_SIZE)
    rcases calls_eq with rfl | rfl
    · exact mapped_here
    · show ((mapped (f x) x).SetFlag .Present true).SetFlag .ReadWrite false = _
      rw [mapped_here,plain,setFlag_of_getFlag present,setFlag_of_getFlag writable]
  intro w
  rw [foldl_apply painted.uniform (pageCalls_address calls_eq x),entry]
  by_cases here : page w = page x
  · rw [if_pos here,here]
    exact ⟨fun _ => rfl,fun other => absurd (Or.inr rfl) other⟩
  · rw [if_neg here]
    exact ⟨fun mapped => (painted w).1 (mapped.resolve_right here),fun other => (painted w).2 (fun mapped => other (.inl mapped))⟩

theorem painted_pages {calls : Nat → List TableCall} (calls_eq : calls = identityCalls ∨ calls = framebufferCalls) {xs : List Nat}
    (painted : Painted S f) (low : ∀ x ∈ xs, x < 2^48) :
    Painted (fun p => S p ∨ ∃ x ∈ xs, p = page x) ((xs.flatMap calls).foldl TableCall.apply f) := by
  induction xs generalizing S f with
  | nil =>
    intro w
    simpa using painted w
  | cons x xs ih =>
    have later := ih (painted_page painted (low x List.mem_cons_self) calls_eq) (fun x member => low x (List.mem_cons_of_mem _ member))
    rw [List.flatMap_cons,List.foldl_append]
    intro w
    have at_w := later w
    have all : ((S (page w) ∨ page w = page x) ∨ ∃ y ∈ xs, page w = page y) ↔ S (page w) ∨ ∃ y ∈ x :: xs, page w = page y := by
      simp [or_assoc]
    exact ⟨fun mapped => at_w.1 (all.mpr mapped),fun other => at_w.2 (fun mapped => other (all.mp mapped))⟩

/-! ### Its address space -/

theorem mem_memoryPages {p : Nat} (small : CalculateMemorySize info.MemoryMap < 2^48) :
    (∃ x ∈ info.memoryPages, p = page x) ↔ 0x10 ≤ p ∧ p * PAGE_SIZE < CalculateMemorySize info.MemoryMap := by
  simp only [BootInfo.memoryPages,List.mem_range']
  simp only [page,PAGE_SIZE]
  constructor
  · rintro ⟨x,⟨k,inside,rfl⟩,rfl⟩
    omega
  · rintro ⟨low,inside⟩
    exact ⟨p * 0x1000,⟨p - 0x10,by omega,by omega⟩,by omega⟩

theorem mem_framebufferPages {p : Nat} (small : info.BaseAddress + info.fbSize < 2^48) : (∃ x ∈ info.framebufferPages, p = page x) ↔
    info.BaseAddress / PAGE_SIZE ≤ p ∧ (p - info.BaseAddress / PAGE_SIZE) * PAGE_SIZE < info.fbSize := by
  simp only [BootInfo.framebufferPages,List.mem_range']
  simp only [page,PAGE_SIZE]
  constructor
  · rintro ⟨x,⟨k,inside,rfl⟩,rfl⟩
    omega
  · rintro ⟨low,inside⟩
    exact ⟨info.BaseAddress + 0x1000 * (p - info.BaseAddress / 0x1000),⟨_,by omega,rfl⟩,by omega⟩

/-- Whether the page was mapped or not. -/
theorem impossible_entry {p : Nat} (x : Nat) (before : e = plain p ∨ e = ⟨0#64⟩) : (impossibleCalls x).foldl TableCall.entry e = forbidden := by
  rcases before with rfl | rfl
  · show (((mapped (plain p) (2^64 - 1)).SetFlag .NX true).SetFlag .UserSuper true).SetFlag .ReadWrite false = forbidden
    rw [plain,mapped_mapped,forbidden]
  · rfl

theorem impossibleCalls_address (x : Nat) : ∀ call ∈ impossibleCalls x, call.address = x := by simp [impossibleCalls,TableCall.address]

theorem Painted.entry (painted : Painted S f) (w : Nat) : f w = plain (page w) ∨ f w = ⟨0#64⟩ := by
  by_cases mapped : S (page w)
  · exact .inl ((painted w).1 mapped)
  · exact .inr ((painted w).2 mapped)

/-- The address space that the calls make of an empty one. -/
theorem calls_apply (small : CalculateMemorySize info.MemoryMap < 2^48) (small' : info.BaseAddress + info.fbSize < 2^48) (w : Nat) :
    info.calls.foldl TableCall.apply (fun _ => ⟨0#64⟩) w =
      if page w = 0 ∨ page w = 2^36 - 1 then forbidden else if info.Mapped (page w) then plain (page w) else ⟨0#64⟩ := by
  have start : Painted (fun _ => False) (fun _ => ⟨0#64⟩) := fun w => ⟨False.elim,fun _ => rfl⟩
  have low : ∀ x ∈ info.memoryPages, x < 2^48 := by
    intro x member
    obtain ⟨k,inside,rfl⟩ := List.mem_range'.mp member
    simp only [PAGE_SIZE] at inside ⊢
    omega
  have low' : ∀ x ∈ info.framebufferPages, x < 2^48 := by
    intro x member
    obtain ⟨k,inside,rfl⟩ := List.mem_range'.mp member
    simp only [PAGE_SIZE] at inside ⊢
    omega
  have loops := painted_pages (.inr rfl) (painted_pages (.inl rfl) start low) low'
  obtain ⟨f,fIs⟩ : ∃ f, f = (info.framebufferPages.flatMap framebufferCalls).foldl TableCall.apply
    ((info.memoryPages.flatMap identityCalls).foldl TableCall.apply (fun _ => ⟨0#64⟩)) := ⟨_,rfl⟩
  rw [← fIs] at loops
  have mapped : ∀ p, ((False ∨ ∃ x ∈ info.memoryPages, p = page x) ∨ ∃ x ∈ info.framebufferPages, p = page x) ↔ info.Mapped p := by
    intro p
    rw [false_or,mem_memoryPages small,mem_framebufferPages small']
    rfl
  have first := foldl_apply loops.uniform (impossibleCalls_address 0)
  obtain ⟨g,gIs⟩ : ∃ g, g = (impossibleCalls 0).foldl TableCall.apply f := ⟨_,rfl⟩
  rw [← gIs,impossible_entry 0 (loops.entry 0)] at first
  have uniform : Uniform g := by
    intro v w same
    rw [first,first,same,loops.uniform v w same]
  have second := foldl_apply uniform (impossibleCalls_address (2^64 - 1))
  have last : page (2^64 - 1) = 2^36 - 1 := by decide
  have zero : page 0 = 0 := by decide
  rw [first (2^64 - 1),last,zero,if_neg (by decide),impossible_entry (2^64 - 1) (loops.entry (2^64 - 1)),gIs,fIs] at second
  rw [BootInfo.calls,List.foldl_append,List.foldl_append,List.foldl_append,second]
  by_cases isLast : page w = 2^36 - 1
  · rw [if_pos isLast,if_pos (.inr isLast)]
  rw [if_neg isLast,← fIs,← gIs,first,zero]
  by_cases isFirst : page w = 0
  · rw [if_pos isFirst,if_pos (.inl isFirst)]
  rw [if_neg isFirst,if_neg (not_or.mpr ⟨isFirst,isLast⟩)]
  by_cases here : info.Mapped (page w)
  · rw [if_pos here]
    exact (loops w).1 ((mapped _).mpr here)
  · rw [if_neg here]
    exact (loops w).2 (fun inside => here ((mapped _).mp inside))

/-- The requests for the tables are served when there is a frame for the `PML4` and for each table. -/
theorem startPaging_supplied (frames : (tablesOf V).card < s.frames.clearFrames.card) : Supplied s.startPaging 0 V := by
  obtain ⟨i,after,found⟩ := PageFrameAllocator.requestFrame_of_clear (Finset.card_pos.mp (Nat.zero_lt_of_lt frames))
  obtain ⟨member,fewer⟩ := PageFrameAllocator.requestFrame_clearFrames found
  have same : s.startPaging.frames = after := by rw [startPaging,RequestPage,PageFrameAllocator.RequestPage_eq,found]; rfl
  have part := Finset.card_filter_le (tablesOf V) (fun q => s.startPaging.walk q = none)
  simp only [Supplied]
  rw [same,fewer,Finset.card_erase_of_mem member]
  omega

/-- Paging starts with blank entries. -/
theorem startPaging_leafEntry (s : PageTables) : s.startPaging.leafEntry = fun _ => ⟨0#64⟩ := by
  funext w
  have empty : ∀ j, link s.startPaging.ram s.startPaging.PML4 j = none := by
    intro j
    simp [startPaging,link,blank,target_blank]
  have gone : s.startPaging.walk ((path w).take 1) = none := by
    show Links.follow (link s.startPaging.ram) s.startPaging.PML4 [_] = none
    rw [Links.follow,empty]
    rfl
  rw [leafEntry,walk_none_below gone (List.take_prefix_take_left (by decide))]

theorem identityCalls_run : (fun (s : PageTables) x => s.MapMemory x x) = fun s x => s.run (identityCalls x) := by
  funext s x
  simp only [run,identityCalls,List.foldl_cons,List.foldl_nil,TableCall.exec]

theorem framebufferCalls_run :
    (fun (s : PageTables) x => ((s.MapMemory x x).SetVirtualFlag x .Present true).SetVirtualFlag x .ReadWrite false) =
      fun s x => s.run (framebufferCalls x) := by
  funext s x
  simp only [run,framebufferCalls,List.foldl_cons,List.foldl_nil,TableCall.exec]

theorem impossibleCalls_run (s : PageTables) (x : Nat) : s.impossible x = s.run (impossibleCalls x) := by
  simp only [impossible,run,impossibleCalls,List.foldl_cons,List.foldl_nil,TableCall.exec]

/-- Both loops end, and `InitializePaging` makes its calls. -/
theorem initializePaging_eq (s : PageTables) (memory : Mem) (small : CalculateMemorySize info.MemoryMap + PAGE_SIZE ≤ 2^48)
    (small' : info.BaseAddress + info.fbSize + PAGE_SIZE ≤ 2^48) (enough : 2^36 ≤ fuel) :
    InitializePaging s memory info fuel = some (run (startPaging { s with frames := info.lock s.frames memory }) info.calls).load := by
  obtain ⟨t,tIs⟩ : ∃ t, t = startPaging { s with frames := info.lock s.frames memory } := ⟨_,rfl⟩
  have stop : wrap (info.BaseAddress + info.fbSize) = info.BaseAddress + info.fbSize := wrap_of_lt (by omega)
  have first : sweep (fun s x => s.MapMemory x x) (CalculateMemorySize info.MemoryMap) fuel t (PAGE_SIZE <<< 4) =
      some (t.run (info.memoryPages.flatMap identityCalls)) := by
    simp only [PAGE_SIZE] at small
    rw [identityCalls_run]
    refine sweep_eq identityCalls t ?_ ?_ ?_ ?_ <;> unfold PAGE_SIZE
    · intro k inside
      omega
    · omega
    · omega
    · omega
  obtain ⟨u,uIs⟩ : ∃ u, u = t.run (info.memoryPages.flatMap identityCalls) := ⟨_,rfl⟩
  have second : sweep (fun s x => ((s.MapMemory x x).SetVirtualFlag x .Present true).SetVirtualFlag x .ReadWrite false)
      (info.BaseAddress + info.fbSize) fuel u info.BaseAddress = some (u.run (info.framebufferPages.flatMap framebufferCalls)) := by
    simp only [PAGE_SIZE] at small'
    rw [framebufferCalls_run]
    refine sweep_eq framebufferCalls u ?_ ?_ ?_ ?_ <;> unfold PAGE_SIZE
    · intro k inside
      omega
    · omega
    · omega
    · omega
  have calls : t.run info.calls =
      (((u.run (info.framebufferPages.flatMap framebufferCalls)).impossible 0).impossible (2^64 - 1)) := by
    rw [uIs,impossibleCalls_run,impossibleCalls_run]
    simp only [run,BootInfo.calls,List.foldl_append]
  rw [InitializePaging,← tIs,first,calls]
  show (sweep _ _ fuel (t.run _) info.BaseAddress >>= _) = _
  rw [stop,← uIs,second]
  rfl

/-- The frames that are locked leave the first one marked, and the bitmap its size. -/
theorem lock_frames (frames : PageFrameAllocator) (memory : Mem) (fresh : frames.Initialized = false)
    (small : CalculateMemorySize info.MemoryMap + PAGE_SIZE ≤ 2^48) :
    (info.lock frames memory).used 0 = true ∧ (info.lock frames memory).limit ≤ 2^40 := by
  constructor
  · have first : (frames.ReadEfiMemoryMap memory info.MemoryMap).used 0 = true := by
      rw [PageFrameAllocator.readEfiMemoryMap_bit fresh (by omega)]
      exact .inr (.inl (by decide))
    exact PageFrameAllocator.setPages_bit.mpr (.inl (PageFrameAllocator.setPages_bit.mpr (.inl first)))
  · have limit : (frames.ReadEfiMemoryMap memory info.MemoryMap).limit = _ := PageFrameAllocator.readEfiMemoryMap_limit fresh
    have same : (info.lock frames memory).limit = (frames.ReadEfiMemoryMap memory info.MemoryMap).limit :=
      PageFrameAllocator.setPages_limit.trans PageFrameAllocator.setPages_limit
    rw [same,limit]
    simp only [PageFrameAllocator.describedPages,PAGE_SIZE]
    simp only [PAGE_SIZE] at small
    omega

/-- With a frame for the `PML4` and one for each table, `InitializePaging` returns with sound tables. The pages of the memory above the first 64 KiB and those of the
    framebuffer are mapped to themselves and writable, the first and the last page are a page that cannot be, and nothing else is mapped. -/
theorem initializePaging_space (s : PageTables) (memory : Mem) (info : BootInfo) (fresh : s.frames.Initialized = false)
    (small : CalculateMemorySize info.MemoryMap + PAGE_SIZE ≤ 2^48) (screen : info.BaseAddress + info.BufferSize + 2 * PAGE_SIZE ≤ 2^48)
    (frames : (tablesOf info.addresses).card < (info.lock s.frames memory).clearFrames.card) (enough : 2^36 ≤ fuel) :
    ∃ s', InitializePaging s memory info fuel = some s' ∧ Sound s' ∧ s'.null = .impossible ∧ ∀ w,
      s'.leafEntry w = (if page w = 0 ∨ page w = 2^36 - 1 then forbidden else if info.Mapped (page w) then plain (page w) else ⟨0#64⟩) ∧
      s'.translate w = if page w = 0 ∨ page w = 2^36 - 1 then some (2^52 - PAGE_SIZE)
        else if info.Mapped (page w) then some (page w * PAGE_SIZE) else none := by
  have size : info.fbSize = info.BufferSize + PAGE_SIZE := wrap_of_lt (by omega)
  have small' : info.BaseAddress + info.fbSize + PAGE_SIZE ≤ 2^48 := by rw [size]; omega
  obtain ⟨marked,limit⟩ := lock_frames s.frames memory fresh small
  obtain ⟨t,tIs⟩ : ∃ t : PageTables, t = { s with frames := info.lock s.frames memory } := ⟨_,rfl⟩
  have sound : Sound t.startPaging := by
    rw [tIs]
    exact startPaging_sound limit (Finset.card_pos.mp (Nat.zero_lt_of_lt frames)) marked
  have supplied : Supplied t.startPaging 0 info.addresses := startPaging_supplied (by rw [tIs]; exact frames)
  have served := served_of_supplied info.calls sound supplied
    (fun call member => List.mem_toFinset.mpr (List.mem_map.mpr ⟨call,member,rfl⟩))
  obtain ⟨sound',leaf⟩ := run_served info.calls sound served
  have called := initializePaging_eq s memory small small' enough
  rw [← tIs] at called
  generalize t.startPaging.run info.calls = u at sound' leaf called
  rw [startPaging_leafEntry] at leaf
  have space : ∀ w, u.load.leafEntry w =
      if page w = 0 ∨ page w = 2^36 - 1 then forbidden else if info.Mapped (page w) then plain (page w) else ⟨0#64⟩ := by
    intro w
    rw [load_leafEntry,leaf,calls_apply (by unfold PAGE_SIZE at small; omega) (by unfold PAGE_SIZE at small'; omega)]
  refine ⟨u.load,called,sound'.load,rfl,fun w => ⟨space w,?_⟩⟩
  rw [translate_leafEntry,space]
  by_cases edge : page w = 0 ∨ page w = 2^36 - 1
  · rw [if_pos edge,if_pos edge]
    decide
  rw [if_neg edge,if_neg edge]
  by_cases here : info.Mapped (page w)
  · rw [if_pos here,if_pos here]
    have below : page w < 2^36 := Nat.mod_lt _ (by decide)
    rw [plain,mapped,target_of_address (by unfold PAGE_SIZE; omega),pageOf_frame (by omega)]
  · rw [if_neg here,if_neg here,target_blank]

/-- Two megabytes of memory, and a framebuffer above them. -/
def smallMachine : BootInfo := ⟨PageFrameAllocator.twoMegabytes,0x10000000,0x1000,0x110000,0x112000⟩

theorem smallMachine_size : CalculateMemorySize smallMachine.MemoryMap = 0x200000 := by decide +kernel

theorem mem_addresses (planned : v ∈ info.addresses) : v ∈ info.memoryPages ∨ v ∈ info.framebufferPages ∨ v = 0 ∨ v = 2^64 - 1 := by
  obtain ⟨call,member,rfl⟩ := List.mem_map.mp (List.mem_toFinset.mp planned)
  simp only [BootInfo.calls,List.mem_append,List.mem_flatMap] at member
  rcases member with ⟨x,inside,here⟩ | ⟨x,inside,here⟩ | first | last
  · rw [pageCalls_address (.inl rfl) x call here]
    exact .inl inside
  · rw [pageCalls_address (.inr rfl) x call here]
    exact .inr (.inl inside)
  · exact .inr (.inr (.inl (impossibleCalls_address _ call first)))
  · exact .inr (.inr (.inr (impossibleCalls_address _ call last)))

/-- The tables for addresses in three parts of the address space. -/
theorem card_tablesOf (parts : ∀ v ∈ V, v / 2^21 = 0 ∨ v / 2^21 = 0x80 ∨ v = 2^64 - 1) : (tablesOf V).card ≤ 7 := by
  have all : tablesOf V ⊆ {[0],[0,0],[0,0,0],[0,0,0x80],[511],[511,511],[511,511,511]} := by
    intro q member
    obtain ⟨v,planned,shape⟩ := mem_tablesOf.mp member
    have digits : (v / 2^39 % 2^9 = 0 ∧ v / 2^30 % 2^9 = 0 ∧ (v / 2^21 % 2^9 = 0 ∨ v / 2^21 % 2^9 = 0x80)) ∨
        (v / 2^39 % 2^9 = 511 ∧ v / 2^30 % 2^9 = 511 ∧ v / 2^21 % 2^9 = 511) := by
      rcases parts v planned with low | screen | rfl
      · omega
      · omega
      · exact .inr (by decide)
    rw [path_eq] at shape
    rcases digits with ⟨first,second,third | third⟩ | ⟨first,second,third⟩ <;> rw [first,second,third] at shape <;>
      rcases shape with rfl | rfl | rfl <;> simp
  exact Finset.card_le_card all

theorem smallMachine_tables : (tablesOf smallMachine.addresses).card ≤ 7 := by
  apply card_tablesOf
  intro v planned
  have size := smallMachine_size
  have screen : smallMachine.framebufferPages = [0x10000000,0x10001000] := by decide +kernel
  rcases mem_addresses planned with memory | framebuffer | zero | last
  · obtain ⟨k,inside,rfl⟩ := List.mem_range'.mp memory
    rw [size] at inside
    simp only [PAGE_SIZE] at inside ⊢
    omega
  · rw [screen] at framebuffer
    simp only [List.mem_cons,List.not_mem_nil,or_false] at framebuffer
    omega
  · omega
  · exact .inr (.inr last)

theorem smallMachine_frames : 7 < (smallMachine.lock PageFrameAllocator.boot (fun _ => 0#8)).clearFrames.card := by
  refine Nat.lt_of_lt_of_le (show 7 < ((Finset.range 8).image (· + 0x180)).card by decide) (Finset.card_le_card ?_)
  intro i member
  obtain ⟨k,small,rfl⟩ := Finset.mem_image.mp member
  have few := Finset.mem_range.mp small
  have marks := PageFrameAllocator.twoMegabytes_marks (i := k + 0x180) (by omega)
  rw [decide_eq_false (by omega)] at marks
  have limit : (smallMachine.lock PageFrameAllocator.boot (fun _ => 0#8)).limit = 0x208 := by
    apply (PageFrameAllocator.setPages_limit.trans PageFrameAllocator.setPages_limit).trans
    rw [show smallMachine.MemoryMap = PageFrameAllocator.twoMegabytes from rfl,PageFrameAllocator.readEfiMemoryMap_limit rfl,
      PageFrameAllocator.twoMegabytes_pages]
  have hint : (smallMachine.lock PageFrameAllocator.boot (fun _ => 0#8)).LastPageIndex = 0 :=
    (PageFrameAllocator.setPages_LastPageIndex.trans PageFrameAllocator.setPages_LastPageIndex).trans
      (PageFrameAllocator.readEfiMemoryMap_LastPageIndex rfl rfl)
  refine PageFrameAllocator.mem_clearFrames.mpr ⟨by rw [limit]; omega,by rw [hint]; omega,Bool.eq_false_iff.mpr ?_⟩
  intro used
  have kernel : sub smallMachine.KernelEnd smallMachine.KernelStart / PAGE_SIZE + 1 = 3 := by decide +kernel
  have screen : smallMachine.fbSize / PAGE_SIZE = 2 := by decide +kernel
  rw [BootInfo.lock,kernel,screen,PageFrameAllocator.LockPages,PageFrameAllocator.LockPage,PageFrameAllocator.setPages_bit,
    PageFrameAllocator.setPages_bit,PageFrameAllocator.covers_iff (by decide) (by decide),
    PageFrameAllocator.covers_iff (by decide) (by decide)] at used
  rcases used with (read | ⟨framebuffer,_⟩) | ⟨kernel,_⟩
  · exact absurd (marks.symm.trans read) (by decide)
  · have low : 0x10000 ≤ k + 0x180 := framebuffer.1
    omega
  · have high : k + 0x180 < 0x113 := kernel.2
    omega

theorem initializePaging_space_smallMachine : ∃ s', InitializePaging ⟨PageFrameAllocator.boot,fun _ _ => ⟨0#64⟩,0,.memory⟩ (fun _ => 0#8) smallMachine (2^36) = some s' ∧
    s'.translate 0x123456 = some 0x123000 ∧ s'.translate 0x5000 = none ∧ (s'.leafEntry 0).GetFlag .NX = true := by
  obtain ⟨s',done,_,_,space⟩ := initializePaging_space ⟨PageFrameAllocator.boot,fun _ _ => ⟨0#64⟩,0,.memory⟩ (fun _ => 0#8) smallMachine rfl
    (by rw [smallMachine_size]; decide) (by decide) (Nat.lt_of_le_of_lt smallMachine_tables smallMachine_frames) (Nat.le_refl _)
  have mapped : smallMachine.Mapped (page 0x123456) := .inl ⟨by decide,by rw [smallMachine_size]; decide⟩
  have unmapped : ¬ smallMachine.Mapped (page 0x5000) := by
    rintro (⟨low,_⟩ | ⟨low,_⟩)
    · exact absurd low (by decide)
    · exact absurd low (by decide)
  refine ⟨s',done,?_,?_,?_⟩
  · rw [(space _).2,if_neg (by decide),if_pos mapped]
    decide
  · rw [(space _).2,if_neg (by decide),if_neg unmapped]
  · rw [(space _).1,if_pos (by decide)]
    decide

end WaifuOS.PageTables
