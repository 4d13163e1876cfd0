import WaifuOS.PageFrames
import WaifuOS.Links
import Mathlib.Data.Finset.Card
import Mathlib.Data.Finset.Union

/-!
The page tables of `PageTableManager.cpp`, `PageMapIndexer.cpp` and `Paging.h`.
Tables are known by their physical addresses, which are mapped one to one, and
an address is translated by a walk of four indices (`translate`). `nextTable` is
the block that `MapMemory` and `SetVirtualFlag` repeat for each level: it takes
a page for a missing table from `RequestPage`, without a look at its answer. As
long as there are clear frames for the missing tables (`Supplied`), mapping a
page changes the walk to that page and no other (`mapMemory_supplied`).
-/
namespace WaifuOS
open WaifuOS.Words WaifuOS.Links

inductive PTFlag
  | Present
  | ReadWrite
  | UserSuper
  | WriteThrough
  | CacheDisabled
  | Accessed
  | LargerPages
  | Custom0
  | Custom1
  | Custom2
  | NX
deriving DecidableEq

namespace PTFlag

/-- The bit that a flag names. -/
def bit : PTFlag → Nat
  | .Present => 0
  | .ReadWrite => 1
  | .UserSuper => 2
  | .WriteThrough => 3
  | .CacheDisabled => 4
  | .Accessed => 5
  | .LargerPages => 7
  | .Custom0 => 9
  | .Custom1 => 10
  | .Custom2 => 11
  | .NX => 63

def mask (flag : PTFlag) : BitVec 64 := 1#64 <<< flag.bit

/-- A flag is a bit of the word, outside the address. -/
theorem bit_outside (flag : PTFlag) : flag.bit < 64 ∧ (flag.bit < 12 ∨ 52 ≤ flag.bit) := by cases flag <;> decide

theorem bit_injective {flag other : PTFlag} : flag.bit = other.bit ↔ flag = other := by
  constructor
  · intro same
    cases flag <;> cases other <;> first | rfl | exact absurd same (by decide)
  · rintro rfl; rfl

theorem mask_bit (flag : PTFlag) (j : Nat) : flag.mask.getLsbD j = decide (j = flag.bit) := by
  have bound := flag.bit_outside
  rw [mask,← BitVec.twoPow_eq,BitVec.getLsbD_twoPow,Bool.eq_iff_iff]
  simp only [Bool.and_eq_true,decide_eq_true_eq]
  omega

end PTFlag

structure PageDirectoryEntry where
  mValue : BitVec 64
deriving DecidableEq

namespace PageDirectoryEntry

/-- `SetFlag` sets the flag whatever the value is. -/
def SetFlag (e : PageDirectoryEntry) (flag : PTFlag) (_value : Bool) : PageDirectoryEntry :=
  let mValue := e.mValue &&& ~~~flag.mask
  ⟨mValue ||| (flag.mask &&& 0xFFFFFFFFFFFFFFFF#64)⟩

def GetFlag (e : PageDirectoryEntry) (flag : PTFlag) : Bool := e.mValue &&& flag.mask != 0#64

def SetAddress (e : PageDirectoryEntry) (Address : BitVec 64) : PageDirectoryEntry :=
  let Address := Address &&& 0x000000FFFFFFFFFF#64
  let mValue := e.mValue &&& 0xFFF0000000000FFF#64
  ⟨mValue ||| (Address <<< 12)⟩

def GetAddress (e : PageDirectoryEntry) : BitVec 64 := (e.mValue &&& 0x000FFFFFFFFFF000#64) >>> 12

variable {e : PageDirectoryEntry} {flag other : PTFlag} {value : Bool} {Address : BitVec 64}

private theorem field_mask (j : Nat) : (0x000FFFFFFFFFF000#64).getLsbD j = decide (12 ≤ j ∧ j < 52) := by
  by_cases small : j < 64
  · have all : ∀ k : Fin 64, (0x000FFFFFFFFFF000#64).getLsbD k = decide (12 ≤ k.val ∧ k.val < 52) := by decide
    exact all ⟨j,small⟩
  · rw [BitVec.getLsbD_of_ge _ _ (by omega)]
    exact (decide_eq_false (by omega)).symm

private theorem rest_mask (j : Nat) (small : j < 64) :
    (0xFFF0000000000FFF#64).getLsbD j = decide (j < 12 ∨ 52 ≤ j) := by
  have all : ∀ k : Fin 64, (0xFFF0000000000FFF#64).getLsbD k = decide (k.val < 12 ∨ 52 ≤ k.val) := by decide
  exact all ⟨j,small⟩

private theorem frame_mask (j : Nat) : (0x000000FFFFFFFFFF#64).getLsbD j = decide (j < 40) := by
  by_cases small : j < 64
  · have all : ∀ k : Fin 64, (0x000000FFFFFFFFFF#64).getLsbD k = decide (k.val < 40) := by decide
    exact all ⟨j,small⟩
  · rw [BitVec.getLsbD_of_ge _ _ (by omega)]
    exact (decide_eq_false (by omega)).symm

theorem getFlag_eq : e.GetFlag flag = e.mValue.getLsbD flag.bit := by
  have masked : ∀ j, (e.mValue &&& flag.mask).getLsbD j = (e.mValue.getLsbD j && decide (j = flag.bit)) := by
    intro j; rw [BitVec.getLsbD_and,PTFlag.mask_bit]
  cases read : e.mValue.getLsbD flag.bit with
  | true =>
    have here := masked flag.bit
    rw [read] at here
    simp only [GetFlag,bne_iff_ne,ne_eq]
    intro zero
    rw [zero] at here
    simp at here
  | false =>
    simp only [GetFlag,bne_eq_false_iff_eq]
    apply BitVec.eq_of_getLsbD_eq
    intro j _
    rw [masked]
    by_cases hit : j = flag.bit
    · rw [hit,read]; simp
    · simp [hit]

theorem setFlag_bit (j : Nat) : (e.SetFlag flag value).mValue.getLsbD j =
    (e.mValue.getLsbD j || decide (j = flag.bit)) := by
  have bound := flag.bit_outside
  have whole : (0xFFFFFFFFFFFFFFFF#64) = BitVec.allOnes 64 := by decide
  rw [SetFlag,whole,BitVec.and_allOnes,BitVec.getLsbD_or,BitVec.getLsbD_and,BitVec.getLsbD_not,PTFlag.mask_bit]
  by_cases hit : j = flag.bit
  · simp [hit]
  · by_cases small : j < 64
    · simp [hit,small]
    · rw [BitVec.getLsbD_of_ge e.mValue j (by omega)]; simp [hit]

/-- Setting a flag sets it and no other. -/
@[simp] theorem setFlag_getFlag : (e.SetFlag flag value).GetFlag other = (e.GetFlag other || decide (other = flag)) := by
  rw [getFlag_eq,getFlag_eq,setFlag_bit]
  congr 1
  rw [decide_eq_decide,PTFlag.bit_injective]

theorem getAddress_bit (j : Nat) : e.GetAddress.getLsbD j = (decide (j < 40) && e.mValue.getLsbD (12+j)) := by
  rw [GetAddress,BitVec.getLsbD_ushiftRight,BitVec.getLsbD_and,field_mask,Bool.and_comm]
  congr 1
  rw [decide_eq_decide]
  omega

/-- Setting a flag leaves the address. -/
@[simp] theorem setFlag_getAddress : (e.SetFlag flag value).GetAddress = e.GetAddress := by
  have bound := flag.bit_outside
  apply BitVec.eq_of_getLsbD_eq
  intro j _
  rw [getAddress_bit,getAddress_bit,setFlag_bit]
  by_cases small : j < 40
  · simp only [small,decide_true,Bool.true_and,show ¬ 12+j = flag.bit by omega,decide_false,Bool.or_false]
  · simp [small]

/-- The address that is set is read back, cut down to 40 bits. -/
@[simp] theorem setAddress_getAddress : (e.SetAddress Address).GetAddress = Address &&& 0x000000FFFFFFFFFF#64 := by
  apply BitVec.eq_of_getLsbD_eq
  intro j _
  rw [getAddress_bit,SetAddress,BitVec.getLsbD_or,BitVec.getLsbD_shiftLeft,Nat.add_sub_cancel_left]
  simp only [BitVec.getLsbD_and,frame_mask]
  by_cases small : j < 40
  · rw [rest_mask _ (by omega),decide_eq_false (show ¬ (12+j < 12 ∨ 52 ≤ 12+j) by omega)]
    simp [small,show 12+j < 64 by omega,show ¬ 12+j < 12 by omega]
  · simp [small]

end PageDirectoryEntry

/-! ### Tables -/

/-- The entries of the table at a physical address. -/
abbrev Ram := Nat → Nat → PageDirectoryEntry

/-- The table that an entry links to. -/
def PageDirectoryEntry.target (e : PageDirectoryEntry) : Option Nat :=
  if e.GetFlag .Present then some (e.GetAddress <<< 12).toNat else none

def link (ram : Ram) (table index : Nat) : Option Nat := (ram table index).target

structure PageMapIndexer where
  PDPi : Nat
  PDi : Nat
  PTi : Nat
  Pi : Nat

/-- The constructor of `PageMapIndexer`. -/
def PageMapIndexer.ofAddress (vAddress : Nat) : PageMapIndexer :=
  let vAddress := vAddress >>> 12
  let Pi := vAddress &&& 0x01FF
  let vAddress := vAddress >>> 9
  let PTi := vAddress &&& 0x01FF
  let vAddress := vAddress >>> 9
  let PDi := vAddress &&& 0x01FF
  let vAddress := vAddress >>> 9
  let PDPi := vAddress &&& 0x01FF
  { PDPi, PDi, PTi, Pi }

/-- The indices of a walk, from the first table on. -/
def path (vAddress : Nat) : List Nat :=
  let indexer := PageMapIndexer.ofAddress vAddress
  [indexer.PDPi,indexer.PDi,indexer.PTi,indexer.Pi]

/-- What is at address 0. Under the tables of the firmware it is memory. Under those that `InitializePaging` loads its page
    cannot be, and an access to it is a page fault, behind which the code does not go on. -/
inductive NullPage
  | memory
  | impossible
  | faulted
deriving DecidableEq

/-- The allocator that tables come from, the tables, and the global `PML4`. Other pages than that of address 0 are accessed at
    their own addresses. -/
structure PageTables where
  frames : PageFrameAllocator
  ram : Ram
  PML4 : Nat
  null : NullPage

namespace PageTables

/-- `memset64(table, 0x00, PAGE_SIZE)`. -/
def blank (s : PageTables) (table : Nat) : PageTables :=
  { s with ram := Function.update s.ram table (fun _ => ⟨0#64⟩) }

/-- `table->Entries[index] = e`. -/
def write (s : PageTables) (table index : Nat) (e : PageDirectoryEntry) : PageTables :=
  { s with ram := Function.update s.ram table (Function.update (s.ram table) index e) }

/-- `RequestPage` with the allocator of the tables. -/
def RequestPage (s : PageTables) : Nat × PageTables :=
  let (answer,frames) := s.frames.RequestPage
  (answer,{ s with frames })

/-- How `InitializePaging` starts under the tables of the firmware: a page is requested and cleared, and becomes the `PML4`. -/
def startPaging (s : PageTables) : PageTables :=
  let (PML4,s) := s.RequestPage
  { s.blank PML4 with PML4, null := .memory }

/-- `mov %%cr3` with the `PML4`, when page 0 is mapped to a page that cannot be. -/
def load (s : PageTables) : PageTables := { s with null := .impossible }

/-- An access to the page faults. -/
def faults (s : PageTables) (page : Nat) : Bool := decide (s.null = .faulted ∨ s.null = .impossible ∧ page = 0)

def fault (s : PageTables) : PageTables := { s with null := .faulted }

/-- The page `next` becomes an empty table, and the entry links to it. -/
def hang (s : PageTables) (table index next : Nat) : PageTables :=
  let tempPDE := s.ram table index
  let s := s.blank next
  let tempPDE := tempPDE.SetAddress (BitVec.ofNat 64 next >>> 12)
  let tempPDE := tempPDE.SetFlag .Present true
  let tempPDE := tempPDE.SetFlag .ReadWrite true
  s.write table index tempPDE

/-- The table below an entry. A missing one is made in a page that is requested;
    that the request may have failed is not looked at. -/
def nextTable (s : PageTables) (table index : Nat) : Nat × PageTables :=
  if s.faults table then (0,s.fault)
  else
    let tempPDE := s.ram table index
    if !tempPDE.GetFlag .Present then
      let (next,s) := s.RequestPage
      -- The page is cleared first.
      if s.faults next then (0,s.fault) else (next,s.hang table index next)
    else ((tempPDE.GetAddress <<< 12).toNat,s)

/-- The three levels of tables above an entry of the last level. -/
def lastTable (s : PageTables) (indexer : PageMapIndexer) : Nat × PageTables :=
  let (PDP,s) := s.nextTable s.PML4 indexer.PDPi
  let (PD,s) := s.nextTable PDP indexer.PDi
  s.nextTable PD indexer.PTi

def MapMemory (s : PageTables) (virtualMemory physMemory : Nat) : PageTables :=
  let indexer := PageMapIndexer.ofAddress virtualMemory
  let (PT,s) := s.lastTable indexer
  if s.faults PT then s.fault
  else
    let tempPDE := s.ram PT indexer.Pi
    let tempPDE := tempPDE.SetAddress (BitVec.ofNat 64 physMemory >>> 12)
    let tempPDE := tempPDE.SetFlag .Present true
    let tempPDE := tempPDE.SetFlag .ReadWrite true
    s.write PT indexer.Pi tempPDE

def SetVirtualFlag (s : PageTables) (address : Nat) (flag : PTFlag) (value : Bool) : PageTables :=
  let indexer := PageMapIndexer.ofAddress address
  let (PT,s) := s.lastTable indexer
  if s.faults PT then s.fault
  else
    let tempPDE := s.ram PT indexer.Pi
    let tempPDE := tempPDE.SetFlag flag value
    s.write PT indexer.Pi tempPDE

/-- What a walk from `PML4` reaches. -/
def walk (s : PageTables) (q : List Nat) : Option Nat := follow (link s.ram) s.PML4 q

/-- The physical page of a virtual address. -/
def translate (s : PageTables) (vAddress : Nat) : Option Nat := s.walk (path vAddress)

/-- The tables above the entries of some addresses, each as the walk to it. -/
def tablesOf (V : Finset Nat) : Finset (List Nat) :=
  V.biUnion (fun v => {(path v).take 1,(path v).take 2,(path v).take 3})

/-- There are `n` clear frames and one more for each missing table above `V`. -/
def Supplied (s : PageTables) (n : Nat) (V : Finset Nat) : Prop :=
  n + ((tablesOf V).filter (fun q => s.walk q = none)).card ≤ s.frames.clearFrames.card

/-- No table is at two places, and every table is in a frame that is marked. Where address 0 is no memory, frame 0 is
    marked and is none of the tables. -/
structure Wellformed (s : PageTables) : Prop where
  bounded : s.frames.limit ≤ 2^40
  null : s.null = .memory ∨ s.null = .impossible ∧ s.frames.used 0 = true ∧ ∀ q, q.length ≤ 3 → s.walk q ≠ some 0
  tree : IsTree (link s.ram) s.PML4 3
  held : ∀ q t, q.length ≤ 3 → s.walk q = some t →
    ∃ i, i < s.frames.limit ∧ t = i * PAGE_SIZE ∧ s.frames.used i = true

/-- Frames stay marked, new tables are in frames that were clear, and every address that
    is not in `changed` is translated as before. -/
structure Extends (s s' : PageTables) (changed : List Nat → Prop) : Prop where
  limit : s'.frames.limit = s.frames.limit
  used : ∀ i, s.frames.used i = true → s'.frames.used i = true
  tables : ∀ q t, q.length ≤ 3 → s'.walk q = some t →
    s.walk q = some t ∨ ∃ i, t = i * PAGE_SIZE ∧ s.frames.used i = false
  kept : ∀ q, q.length = 4 → ¬ changed q → s'.walk q = s.walk q

variable {s s' t : PageTables} {v n : Nat} {V : Finset Nat} {changed changed' : List Nat → Prop}

/-- An access to a page does not fault unless it is that of address 0. -/
theorem not_faults {page : Nat} (place : s.null = .memory ∨ s.null = .impossible ∧ page ≠ 0) : s.faults page = false := by
  simp only [faults]
  rcases place with on | ⟨off,other⟩
  · rw [on]
    rfl
  · rw [off]
    simp [other]

/-- The tables are accessed without a fault. -/
theorem Wellformed.reads {q : List Nat} {table : Nat} (sound : Wellformed s) (at_q : s.walk q = some table) (short : q.length ≤ 3) :
    s.faults table = false := by
  refine not_faults (sound.null.imp id (fun ⟨off,_,noTable⟩ => ⟨off,?_⟩))
  rintro rfl
  exact noTable q short at_q

theorem Extends.refl : Extends s s changed := ⟨rfl,fun _ used => used,fun _ _ _ reached => .inl reached,fun _ _ _ => rfl⟩

theorem Extends.trans (first : Extends s s' changed) (second : Extends s' t changed) : Extends s t changed where
  limit := second.limit.trans first.limit
  used := fun i used => second.used i (first.used i used)
  tables := by
    intro q u short reached
    rcases second.tables q u short reached with earlier | ⟨i,place,clear⟩
    · exact first.tables q u short earlier
    · refine .inr ⟨i,place,?_⟩
      cases before : s.frames.used i with
      | false => rfl
      | true => rw [first.used i before] at clear; exact clear
  kept := fun q full other => (second.kept q full other).trans (first.kept q full other)

theorem Extends.weaken (grown : Extends s s' changed) (more : ∀ q, changed q → changed' q) : Extends s s' changed' where
  limit := grown.limit
  used := grown.used
  tables := grown.tables
  kept := fun q full other => grown.kept q full (fun hit => other (more q hit))

/-! ### Entries and walks -/

theorem link_eq (ram : Ram) (table index : Nat) : link ram table index = (ram table index).target := rfl

/-- The physical page that an entry keeps of an address. -/
def pageOf (address : Nat) : Nat := address / PAGE_SIZE % 2^40 * PAGE_SIZE

theorem target_of_address {e : PageDirectoryEntry} {address : Nat} (word : address < 2^64) :
    (((e.SetAddress (BitVec.ofNat 64 address >>> 12)).SetFlag .Present true).SetFlag .ReadWrite true).target =
      some (pageOf address) := by
  have mask : (0x000000FFFFFFFFFF#64).toNat = 2^40 - 1 := by decide
  have bound : address / 2^12 % 2^40 < 2^40 := Nat.mod_lt _ (by decide)
  simp only [PageDirectoryEntry.target,PageDirectoryEntry.setFlag_getFlag,PageDirectoryEntry.setFlag_getAddress,
    PageDirectoryEntry.setAddress_getAddress,decide_true,Bool.or_true,Bool.true_or,if_true,Option.some.injEq]
  rw [BitVec.toNat_shiftLeft,BitVec.toNat_and,BitVec.toNat_ushiftRight,BitVec.toNat_ofNat,mask,
    Nat.and_two_pow_sub_one_eq_mod,Nat.mod_eq_of_lt word,Nat.shiftRight_eq_div_pow,Nat.shiftLeft_eq,
    Nat.mod_eq_of_lt (by omega)]
  rfl

theorem pageOf_frame {i : Nat} (bound : i < 2^40) : pageOf (i * PAGE_SIZE) = i * PAGE_SIZE := by
  rw [pageOf,PageFrameAllocator.frame_of_address,Nat.mod_eq_of_lt bound]

theorem target_blank : (⟨0#64⟩ : PageDirectoryEntry).target = none := by decide

theorem walk_concat {p : List Nat} {table i : Nat} (at_p : s.walk p = some table) :
    s.walk (p ++ [i]) = (s.ram table i).target := by
  rw [walk,follow_concat]
  rw [walk] at at_p
  rw [at_p,Option.bind_some,link_eq]

theorem mem_tablesOf {q : List Nat} : q ∈ tablesOf V ↔
    ∃ v ∈ V, q = (path v).take 1 ∨ q = (path v).take 2 ∨ q = (path v).take 3 := by
  simp [tablesOf]

theorem short_of_tablesOf {q : List Nat} (member : q ∈ tablesOf V) : q.length ≤ 3 := by
  obtain ⟨v,_,rfl | rfl | rfl⟩ := mem_tablesOf.mp member <;> simp [path]

/-- Where the walks to tables are the same, the tables are still well formed. -/
theorem wellformed_congr (sound : Wellformed s) (frames : s'.frames = s.frames)
    (kept : ∀ q, q.length ≤ 3 → s'.walk q = s.walk q) (root : s'.PML4 = s.PML4) (null : s'.null = s.null) : Wellformed s' where
  bounded := by rw [frames]; exact sound.bounded
  null := by
    rw [null,frames]
    exact sound.null.imp id (fun ⟨off,used,noTable⟩ => ⟨off,used,fun q short => by rw [kept q short]; exact noTable q short⟩)
  tree := by
    rw [root]
    exact isTree_of_follow sound.tree (fun q short => by have same := kept q short; rwa [walk,root] at same)
  held := by
    intro q t short reached
    rw [frames]
    exact sound.held q t short ((kept q short).symm.trans reached)

theorem supplied_congr (supplied : Supplied s n V) (frames : s'.frames = s.frames)
    (kept : ∀ q, q.length ≤ 3 → s'.walk q = s.walk q) : Supplied s' n V := by
  have missing : (tablesOf V).filter (fun q => s'.walk q = none) = (tablesOf V).filter (fun q => s.walk q = none) :=
    Finset.filter_congr (fun q planned => by rw [kept q (short_of_tablesOf planned)])
  simp only [Supplied] at supplied ⊢
  rw [missing,frames]
  exact supplied

/-- A table is no longer missing, and its frame no longer clear. -/
theorem supplied_of_new {p : List Nat} (supplied : Supplied s n V) (planned : p ∈ tablesOf V) (missing : s.walk p = none)
    (here : t.walk p ≠ none) (others : ∀ q, q.length ≤ 3 → q ≠ p → t.walk q = s.walk q)
    (count : t.frames.clearFrames.card + 1 = s.frames.clearFrames.card) : Supplied t n V := by
  have fewer : (tablesOf V).filter (fun q => t.walk q = none) = ((tablesOf V).filter (fun q => s.walk q = none)).erase p := by
    ext q
    rw [Finset.mem_filter,Finset.mem_erase,Finset.mem_filter]
    by_cases new : q = p
    · subst new
      simp [here]
    · by_cases member : q ∈ tablesOf V
      · have short := short_of_tablesOf member
        simp [member,new,others q short new]
      · simp [member]
  have member : p ∈ (tablesOf V).filter (fun q => s.walk q = none) := Finset.mem_filter.mpr ⟨planned,missing⟩
  have some_missing := Finset.card_pos.mpr ⟨p,member⟩
  have drop := Finset.card_erase_of_mem member
  simp only [Supplied] at supplied ⊢
  rw [fewer,drop]
  omega

/-- While a clear frame is left, a request hands out a frame that no table is in. -/
theorem requestPage_of_clear (sound : Wellformed s) (left : 0 < s.frames.clearFrames.card) :
    ∃ i s', s.frames.requestFrame.1 = some i ∧ s.RequestPage = (i * PAGE_SIZE,s') ∧ i < s.frames.limit ∧ s.frames.used i = false ∧
      s'.frames.used i = true ∧ s'.ram = s.ram ∧ s'.PML4 = s.PML4 ∧ s'.null = s.null ∧
      s'.frames.clearFrames.card + 1 = s.frames.clearFrames.card ∧ Wellformed s' ∧ Extends s s' (fun _ => False) := by
  obtain ⟨i,frames,found⟩ := PageFrameAllocator.requestFrame_of_clear (Finset.card_pos.mp left)
  obtain ⟨_,inside,_,clear,_⟩ := PageFrameAllocator.requestFrame_some found
  obtain ⟨member,fewer⟩ := PageFrameAllocator.requestFrame_clearFrames found
  have bits : ∀ j, frames.used j = (s.frames.used j || decide (j = i)) :=
    fun j => PageFrameAllocator.requestFrame_bit found
  have same_limit : frames.limit = s.frames.limit := by
    have kept := s.frames.requestFrame_limit
    rwa [found] at kept
  have more : ∀ j, s.frames.used j = true → frames.used j = true := by
    intro j used
    rw [bits,used]
    rfl
  have request : s.RequestPage = (i * PAGE_SIZE,{ s with frames }) := by
    rw [RequestPage,PageFrameAllocator.RequestPage_eq,found]
  have count : frames.clearFrames.card + 1 = s.frames.clearFrames.card := by
    rw [fewer,Finset.card_erase_of_mem member]
    omega
  refine ⟨i,{ s with frames },by rw [found],request,inside,clear,by simp [bits],rfl,rfl,rfl,count,?_,
    ⟨same_limit,more,fun _ _ _ reached => .inl reached,fun _ _ _ => rfl⟩⟩
  refine ⟨by simpa [same_limit] using sound.bounded,
    sound.null.imp id (fun ⟨off,used,noTable⟩ => ⟨off,more 0 used,noTable⟩),sound.tree,fun q t short reached => ?_⟩
  obtain ⟨j,below,place,used⟩ := sound.held q t short reached
  exact ⟨j,by simpa [same_limit] using below,place,more j used⟩

/-- Paging starts well formed if its request hands out a frame. -/
theorem startPaging_wellformed (bounded : s.frames.limit ≤ 2^40) (left : s.frames.clearFrames.Nonempty) :
    Wellformed s.startPaging := by
  obtain ⟨i,frames,found⟩ := PageFrameAllocator.requestFrame_of_clear left
  obtain ⟨_,inside,_⟩ := PageFrameAllocator.requestFrame_some found
  have same_limit : frames.limit = s.frames.limit := by
    have kept := s.frames.requestFrame_limit
    rwa [found] at kept
  have started : s.startPaging = { ({ s with frames } : PageTables).blank (i * PAGE_SIZE) with PML4 := i * PAGE_SIZE, null := .memory } := by
    rw [startPaging,RequestPage,PageFrameAllocator.RequestPage_eq,found]
  have empty : ∀ j, link s.startPaging.ram s.startPaging.PML4 j = none := by
    intro j
    rw [started]
    simp [link,blank,target_blank]
  refine ⟨by rw [started]; simpa [blank,same_limit] using bounded,.inl rfl,isTree_blank empty,?_⟩
  intro q t _ reached
  cases q with
  | nil =>
    have root : s.startPaging.PML4 = t := Option.some.inj reached
    refine ⟨i,by rw [started]; simpa [blank,same_limit] using inside,by rw [← root,started],?_⟩
    rw [started]
    simp [blank,PageFrameAllocator.requestFrame_bit found]
  | cons j q =>
    rw [walk,follow,empty] at reached
    cases reached

theorem hang_ram_self {table i f : Nat} :
    link (s.hang table i f).ram table i =
      (((s.ram table i).SetAddress (BitVec.ofNat 64 f >>> 12)).SetFlag .Present true |>.SetFlag .ReadWrite true).target := by
  simp [link,hang,write,blank]

theorem hang_ram_new {table i f : Nat} (other : f ≠ table) (j : Nat) : link (s.hang table i f).ram f j = none := by
  simp [link,hang,write,blank,Function.update_of_ne other,target_blank]

theorem hang_ram_other {table i f u j : Nat} (fresh : f ≠ table) (notNew : u ≠ f) (notLink : ¬ (u = table ∧ j = i)) :
    link (s.hang table i f).ram u j = link s.ram u j := by
  by_cases same : u = table
  · subst same
    have index : j ≠ i := fun hit => notLink ⟨rfl,hit⟩
    simp [link,hang,write,blank,Function.update_of_ne index,Function.update_of_ne notNew]
  · simp [link,hang,write,blank,Function.update_of_ne same,Function.update_of_ne notNew]

/-- A page that no table is in, hung in as a table where none was, changes one walk. -/
theorem hang_follow {p : List Nat} {table i f : Nat} (tree : IsTree (link s.ram) s.PML4 3) (at_p : s.walk p = some table)
    (level : p.length ≤ 2) (noLink : link s.ram table i = none) (fresh : ∀ q, q.length ≤ 3 → s.walk q ≠ some f)
    (word : f < 2^64) (page : pageOf f = f) :
    (s.hang table i f).walk (p ++ [i]) = some f ∧
      (∀ q, q.length ≤ 4 → q ≠ p ++ [i] → (s.hang table i f).walk q = s.walk q) ∧
      IsTree (link (s.hang table i f).ram) s.PML4 3 := by
  have other : f ≠ table := by
    rintro rfl
    exact fresh p (by omega) at_p
  have hung : link (s.hang table i f).ram table i = some f := by
    rw [hang_ram_self,target_of_address word,page]
  have blank := hang_ram_new (s := s) (i := i) other
  have same := fun u j => hang_ram_other (s := s) (i := i) (u := u) (j := j) other
  obtain ⟨here,kept⟩ := follow_hang tree at_p (by omega) noLink fresh hung blank same
  exact ⟨here,kept,isTree_hang tree at_p (by omega) noLink fresh hung blank same⟩

/-- A table in a marked frame that no table is in, hung in where none was, changes
    one walk. -/
theorem hang_walk {p : List Nat} {table i f : Nat} (sound : Wellformed s) (at_p : s.walk p = some table)
    (level : p.length ≤ 2) (empty : s.walk (p ++ [i]) = none)
    (fresh : ∀ q, q.length ≤ 3 → s.walk q ≠ some (f * PAGE_SIZE)) (inside : f < s.frames.limit)
    (used : s.frames.used f = true) (notFirst : s.null = .memory ∨ f ≠ 0) :
    (s.hang table i (f * PAGE_SIZE)).walk (p ++ [i]) = some (f * PAGE_SIZE) ∧
      (∀ q, q.length ≤ 4 → q ≠ p ++ [i] → (s.hang table i (f * PAGE_SIZE)).walk q = s.walk q) ∧
      Wellformed (s.hang table i (f * PAGE_SIZE)) := by
  have bound : f < 2^40 := by have := sound.bounded; omega
  have noLink : link s.ram table i = none := by rw [link_eq,← walk_concat at_p,empty]
  obtain ⟨here,kept,tree⟩ := hang_follow sound.tree at_p level noLink fresh (by unfold PAGE_SIZE; omega) (pageOf_frame bound)
  refine ⟨here,kept,sound.bounded,?_,tree,?_⟩
  · rcases sound.null with on | ⟨off,marked,noTable⟩
    · exact .inl on
    · refine .inr ⟨off,marked,?_⟩
      intro q short reached
      by_cases new : q = p ++ [i]
      · rw [new,here] at reached
        have first : f ≠ 0 := notFirst.resolve_left (by rw [off]; decide)
        have place := Option.some.inj reached
        simp only [PAGE_SIZE] at place
        omega
      · exact noTable q short ((kept q (by omega) new).symm.trans reached)
  · intro q t short reached
    by_cases new : q = p ++ [i]
    · subst new
      have place : t = f * PAGE_SIZE := Option.some.inj (reached.symm.trans here)
      exact ⟨f,inside,place,used⟩
    · exact sound.held q t short ((kept q (by omega) new).symm.trans reached)

/-- A table that is missing is made in a clear frame as long as one is left, and no other walk changes. -/
theorem nextTable_new {p : List Nat} {table i : Nat} (sound : Wellformed s) (at_p : s.walk p = some table) (level : p.length ≤ 2)
    (missing : (s.ram table i).GetFlag .Present = false) (left : 0 < s.frames.clearFrames.card) :
    ∃ (f : Nat) (t : PageTables), s.nextTable table i = (f * PAGE_SIZE,t.hang table i (f * PAGE_SIZE)) ∧ t.ram = s.ram ∧ t.PML4 = s.PML4 ∧
      f < 2^40 ∧ s.frames.used f = false ∧ t.frames.clearFrames.card + 1 = s.frames.clearFrames.card ∧
      t.null = s.null ∧ (t.hang table i (f * PAGE_SIZE)).walk (p ++ [i]) = some (f * PAGE_SIZE) ∧
      (∀ q, q.length ≤ 4 → q ≠ p ++ [i] → (t.hang table i (f * PAGE_SIZE)).walk q = s.walk q) ∧
      Wellformed (t.hang table i (f * PAGE_SIZE)) ∧ Extends s (t.hang table i (f * PAGE_SIZE)) (fun _ => False) := by
  have gone : s.walk (p ++ [i]) = none := by
    rw [walk_concat at_p,PageDirectoryEntry.target,if_neg (by simp [missing])]
  obtain ⟨f,t,_,request,inside,clear,taken,same_ram,same_root,same_null,count,sound',grown⟩ := requestPage_of_clear sound left
  -- Frame 0 is not handed out where an access to it faults.
  have place : s.null = .memory ∨ s.null = .impossible ∧ f ≠ 0 := by
    refine sound.null.imp id (fun ⟨off,marked,_⟩ => ⟨off,?_⟩)
    rintro rfl
    rw [marked] at clear
    cases clear
  have cleared : t.faults (f * PAGE_SIZE) = false := by
    apply not_faults
    rw [same_null]
    exact place.imp id (fun ⟨off,other⟩ => ⟨off,by unfold PAGE_SIZE; omega⟩)
  have made : s.nextTable table i = (f * PAGE_SIZE,t.hang table i (f * PAGE_SIZE)) := by
    simp [nextTable,sound.reads at_p (by omega),missing,request,cleared]
  have same_walk : ∀ q, t.walk q = s.walk q := by intro q; rw [walk,walk,same_ram,same_root]
  have fresh : ∀ q, q.length ≤ 3 → t.walk q ≠ some (f * PAGE_SIZE) := by
    intro q short reached
    obtain ⟨j,_,place,used⟩ := sound.held q _ short ((same_walk q).symm.trans reached)
    have same : f = j := PageFrameAllocator.frame_injective place
    rw [← same,clear] at used
    cases used
  obtain ⟨here,kept,sound''⟩ := hang_walk sound' ((same_walk p).trans at_p) level ((same_walk _).trans gone) fresh
    (by rw [grown.limit]; exact inside) taken (by rw [same_null]; exact place.imp id And.right)
  have others : ∀ q, q.length ≤ 4 → q ≠ p ++ [i] → (t.hang table i (f * PAGE_SIZE)).walk q = s.walk q :=
    fun q short other => (kept q short other).trans (same_walk q)
  have bound : f < 2^40 := by have := sound.bounded; omega
  refine ⟨f,t,made,same_ram,same_root,bound,clear,count,same_null,here,others,sound'',
    ⟨grown.limit,grown.used,fun q u short reached => ?_,fun q full _ => others q (by omega) ?_⟩⟩
  · by_cases new : q = p ++ [i]
    · rw [new,here] at reached
      exact .inr ⟨f,(Option.some.inj reached).symm,clear⟩
    · exact .inl ((others q (by omega) new).symm.trans reached)
  · rintro rfl
    simp only [List.length_append,List.length_singleton] at full
    omega

/-- A table that is there is the next one. -/
theorem nextTable_present {table i : Nat} (reads : s.faults table = false) (present : (s.ram table i).GetFlag .Present = true) :
    s.nextTable table i = (((s.ram table i).GetAddress <<< 12).toNat,s) := by simp [nextTable,reads,present]

/-- The entry is written in the table that `lastTable` finds. -/
theorem mapMemory_eq {physMemory PT : Nat} (last : s.lastTable (.ofAddress v) = (PT,t)) (reads : t.faults PT = false) :
    s.MapMemory v physMemory = t.write PT (PageMapIndexer.ofAddress v).Pi
      ((((t.ram PT (PageMapIndexer.ofAddress v).Pi).SetAddress (BitVec.ofNat 64 physMemory >>> 12)).SetFlag .Present true).SetFlag
        .ReadWrite true) := by
  simp [MapMemory,last,reads]

theorem setVirtualFlag_eq {PT : Nat} {flag : PTFlag} {value : Bool} (last : s.lastTable (.ofAddress v) = (PT,t))
    (reads : t.faults PT = false) : s.SetVirtualFlag v flag value =
      t.write PT (PageMapIndexer.ofAddress v).Pi ((t.ram PT (PageMapIndexer.ofAddress v).Pi).SetFlag flag value) := by
  simp [SetVirtualFlag,last,reads]

/-- The next table is there afterwards, and no page is mapped otherwise. -/
theorem nextTable_supplied {p : List Nat} {table i : Nat} (sound : Wellformed s) (supplied : Supplied s n V)
    (at_p : s.walk p = some table) (level : p.length ≤ 2) (planned : p ++ [i] ∈ tablesOf V) :
    (s.nextTable table i).2.walk (p ++ [i]) = some (s.nextTable table i).1 ∧
      Wellformed (s.nextTable table i).2 ∧ Supplied (s.nextTable table i).2 n V ∧
      Extends s (s.nextTable table i).2 (fun _ => False) := by
  cases present : (s.ram table i).GetFlag .Present with
  | true =>
    rw [nextTable_present (sound.reads at_p (by omega)) present]
    refine ⟨?_,sound,supplied,.refl⟩
    rw [walk_concat at_p,PageDirectoryEntry.target,if_pos present]
  | false =>
    have missing : s.walk (p ++ [i]) = none := by
      rw [walk_concat at_p,PageDirectoryEntry.target,if_neg (by simp [present])]
    have one : 0 < ((tablesOf V).filter (fun q => s.walk q = none)).card :=
      Finset.card_pos.mpr ⟨p ++ [i],Finset.mem_filter.mpr ⟨planned,missing⟩⟩
    have left : 0 < s.frames.clearFrames.card := by unfold Supplied at supplied; omega
    obtain ⟨f,t,made,_,_,_,_,count,_,here,others,sound',grown⟩ := nextTable_new sound at_p level present left
    rw [made]
    refine ⟨here,sound',?_,grown⟩
    exact supplied_of_new supplied planned missing (by rw [here]; exact Option.some_ne_none _)
      (fun q short other => others q (by omega) other) count

/-- The tables on the way to a planned page are planned. -/
theorem path_planned (member : v ∈ V) : (path v).take 1 ∈ tablesOf V ∧ (path v).take 2 ∈ tablesOf V ∧ (path v).take 3 ∈ tablesOf V :=
  ⟨mem_tablesOf.mpr ⟨v,member,.inl rfl⟩,mem_tablesOf.mpr ⟨v,member,.inr (.inl rfl)⟩,mem_tablesOf.mpr ⟨v,member,.inr (.inr rfl)⟩⟩

/-- The table of the last level is there afterwards, and no page is mapped otherwise. -/
theorem lastTable_supplied (sound : Wellformed s) (supplied : Supplied s n V) (member : v ∈ V) :
    (s.lastTable (.ofAddress v)).2.walk ((path v).take 3) = some (s.lastTable (.ofAddress v)).1 ∧
      Wellformed (s.lastTable (.ofAddress v)).2 ∧ Supplied (s.lastTable (.ofAddress v)).2 n V ∧
      Extends s (s.lastTable (.ofAddress v)).2 (fun _ => False) := by
  obtain ⟨planned₁,planned₂,planned₃⟩ := path_planned member
  obtain ⟨at₁,sound₁,supplied₁,grown₁⟩ := nextTable_supplied sound supplied (p := []) rfl (by decide) planned₁
  obtain ⟨at₂,sound₂,supplied₂,grown₂⟩ := nextTable_supplied sound₁ supplied₁ at₁ (by simp) planned₂
  obtain ⟨at₃,sound₃,supplied₃,grown₃⟩ := nextTable_supplied sound₂ supplied₂ at₂ (by simp) planned₃
  exact ⟨at₃,sound₃,supplied₃,(grown₁.trans grown₂).trans grown₃⟩

/-- An entry that is written in a table of the last level changes one walk. -/
theorem write_follow {p : List Nat} {table i : Nat} {e : PageDirectoryEntry} (tree : IsTree (link s.ram) s.PML4 3)
    (at_table : s.walk p = some table) (level : p.length = 3) :
    (s.write table i e).walk (p ++ [i]) = e.target ∧
      ∀ q, q.length ≤ 4 → q ≠ p ++ [i] → (s.write table i e).walk q = s.walk q := by
  have same : ∀ u j, ¬ (u = table ∧ j = i) → link (s.write table i e).ram u j = link s.ram u j := by
    intro u j other
    by_cases here : u = table
    · subst here
      have index : j ≠ i := fun hit => other ⟨rfl,hit⟩
      simp [link,write,Function.update_of_ne index]
    · simp [link,write,Function.update_of_ne here]
  have written : link (s.write table i e).ram table i = e.target := by simp [link,write]
  obtain ⟨here,kept⟩ := follow_write tree at_table level same
  exact ⟨here.trans written,kept⟩

/-- So does one that is written in the table above the entries of an address. -/
theorem write_leaf {table : Nat} {e : PageDirectoryEntry} (sound : Wellformed s) (supplied : Supplied s n V)
    (at_table : s.walk ((path v).take 3) = some table) :
    let s' := s.write table (PageMapIndexer.ofAddress v).Pi e
    s'.translate v = e.target ∧ Wellformed s' ∧ Supplied s' n V ∧ Extends s s' (fun q => q = path v) := by
  intro s'
  obtain ⟨here,kept⟩ := write_follow (e := e) (i := (PageMapIndexer.ofAddress v).Pi) sound.tree at_table rfl
  have tables : ∀ q, q.length ≤ 3 → s'.walk q = s.walk q := by
    intro q short
    apply kept q (by omega)
    rintro rfl
    simp [path] at short
  refine ⟨here,wellformed_congr sound rfl tables rfl rfl,supplied_congr supplied rfl tables,
    rfl,fun _ used => used,fun q t short reached => ?_,fun q full other => kept q (by omega) other⟩
  exact .inl ((tables q short).symm.trans reached)

/-- Mapping a page while there are clear frames for the missing tables translates
    its address as told, and every other page as before. -/
theorem mapMemory_supplied {physMemory : Nat} (sound : Wellformed s) (supplied : Supplied s n V) (member : v ∈ V)
    (word : physMemory < 2^64) :
    (s.MapMemory v physMemory).translate v = some (pageOf physMemory) ∧ Wellformed (s.MapMemory v physMemory) ∧
      Supplied (s.MapMemory v physMemory) n V ∧ Extends s (s.MapMemory v physMemory) (fun q => q = path v) := by
  obtain ⟨at_table,sound₁,supplied₁,grown₁⟩ := lastTable_supplied sound supplied member
  rw [mapMemory_eq rfl (sound₁.reads at_table (Nat.le_refl 3))]
  obtain ⟨here,sound₂,supplied₂,grown₂⟩ := write_leaf sound₁ supplied₁ at_table
  exact ⟨here.trans (target_of_address word),sound₂,supplied₂,(grown₁.weaken (fun _ => False.elim)).trans grown₂⟩

/-- Setting a flag while there are clear frames for the missing tables changes at
    most the walk to its page. -/
theorem setVirtualFlag_supplied (flag : PTFlag) (value : Bool) (sound : Wellformed s) (supplied : Supplied s n V)
    (member : v ∈ V) :
    Wellformed (s.SetVirtualFlag v flag value) ∧ Supplied (s.SetVirtualFlag v flag value) n V ∧
      Extends s (s.SetVirtualFlag v flag value) (fun q => q = path v) := by
  obtain ⟨at_table,sound₁,supplied₁,grown₁⟩ := lastTable_supplied sound supplied member
  rw [setVirtualFlag_eq rfl (sound₁.reads at_table (Nat.le_refl 3))]
  obtain ⟨_,sound₂,supplied₂,grown₂⟩ := write_leaf sound₁ supplied₁ at_table
  exact ⟨sound₂,supplied₂,(grown₁.weaken (fun _ => False.elim)).trans grown₂⟩

/-- Clearing a page that no table is in changes no walk. -/
theorem blank_supplied {f : Nat} (sound : Wellformed s) (supplied : Supplied s n V)
    (noTable : ∀ q, q.length ≤ 3 → s.walk q ≠ some f) :
    Wellformed (s.blank f) ∧ Supplied (s.blank f) n V ∧ Extends s (s.blank f) (fun _ => False) := by
  have kept : ∀ q, q.length ≤ 4 → (s.blank f).walk q = s.walk q := by
    intro q short
    refine follow_congr ?_ q short
    intro t j q short reached
    have other : t ≠ f := by
      rintro rfl
      exact noTable q short reached
    simp [link,blank,Function.update_of_ne other]
  have tables : ∀ q, q.length ≤ 3 → (s.blank f).walk q = s.walk q := fun q short => kept q (by omega)
  refine ⟨wellformed_congr sound rfl tables rfl rfl,supplied_congr supplied rfl tables,
    rfl,fun _ used => used,fun q t short reached => ?_,fun q full _ => kept q (by omega)⟩
  exact .inl ((tables q short).symm.trans reached)

/-! ### Addresses -/

theorem path_eq (v : Nat) :
    path v = [v / 2^39 % 2^9,v / 2^30 % 2^9,v / 2^21 % 2^9,v / 2^12 % 2^9] := by
  have mask : ∀ x, x &&& 0x01FF = x % 2^9 := fun x => Nat.and_two_pow_sub_one_eq_mod x 9
  simp only [path,PageMapIndexer.ofAddress,mask,Nat.shiftRight_eq_div_pow,Nat.div_div_eq_div_mul]
  rfl

/-- Below 48 bits the walk tells the page. -/
theorem path_injective {v w : Nat} (low : v < 2^48) (low' : w < 2^48) (same : path v = path w) :
    v / PAGE_SIZE = w / PAGE_SIZE := by
  rw [path_eq,path_eq] at same
  simp only [List.cons.injEq,and_true] at same
  simp only [PAGE_SIZE]
  omega

end PageTables
end WaifuOS
