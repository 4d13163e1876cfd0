import WaifuOS.Polling

/-!
The command tables that `Configure` gives to the 32 slots of a port. Each slot has a page of its
own, and its table is put as many tables behind the start of that page as there are slots in
front of it. A page holds 16 tables, so the tables of the slots from 16 on lie behind their
pages, in memory that nobody requested for them (`table_inPage_iff`), and two slots share a table
when their pages follow each other (`table_shared_iff`). The pages are arbitrary here: `configure_eq`
says that `Configure` does the same with those that `RequestPage` gives.
-/
namespace WaifuOS.AHCI.Polling
open WaifuOS.Words WaifuOS.Bytes

namespace ATAPort
variable {σ : Type}

/-- The body of the loop of `Configure`, with the page it requests. -/
def setTable (cmdHeader x : Nat) (m : Mem) (cmdTableAddress : Nat) : Mem :=
  let m := memset64 m cmdTableAddress 0x00 PAGE_SIZE
  let address := wrap (cmdTableAddress + x <<< 8)
  let cmd := cmdHeader + 32*x
  let m := store m (cmd + 2) 2 8
  let m := store m (cmd + 8) 4 address
  store m (cmd + 12) 4 (address >>> 32)

/-- The loop of `Configure` from `x` on, with the pages it requests. -/
def tablesFrom (cmdHeader x : Nat) (m : Mem) : List Nat → Mem
  | [] => m
  | page :: pages => tablesFrom cmdHeader (x+1) (setTable cmdHeader x m page) pages

/-- `Configure`, with the pages it requests. -/
def ConfigureFrom (hba : HBAPort σ) (p : ATAPort σ) (m : Mem) (newBase fisBase : Nat) (pages : List Nat) : Option (ATAPort σ × Mem) := do
  let (_,p) ← p.StopCMD hba
  let p ← p.Lock
  let m := memset64 m newBase 0x00 PAGE_SIZE
  let p := p.write hba .CommandListBase newBase
  let p := p.write hba .CommandListBaseUpper (newBase >>> 32)
  let m := memset64 m fisBase 0x00 PAGE_SIZE
  let p := p.write hba .fisBaseAddress fisBase
  let p := p.write hba .fisBaseAddressUpper (fisBase >>> 32)
  let (cmdHeader,p) := p.address hba .CommandListBase .CommandListBaseUpper
  let m := tablesFrom cmdHeader 0 m pages
  let (_,p) ← p.Unlock.StartCMD hba
  some (p,m)

end ATAPort

variable {σ : Type} {hba : HBAPort σ} {p : ATAPort σ} {m : Mem} {cmdHeader newBase fisBase x y n page page' : Nat} {pages : List Nat}

theorem tables_eq (cmdHeader x : Nat) (frames : PageFrameAllocator) (m : Mem) (n : Nat)
    (granted : ∀ page ∈ (requests frames n).1, page ≠ 0) :
    ATAPort.tables cmdHeader x frames m n = some ((requests frames n).2,ATAPort.tablesFrom cmdHeader x m (requests frames n).1) := by
  induction n generalizing x frames m with
  | zero => rfl
  | succ n ih =>
    rw [requests_succ,List.forall_mem_cons] at granted
    rw [requests_succ,ATAPort.tables]
    simp only [clearPage_some granted.1,Option.bind_eq_bind,Option.bind_some]
    exact ih _ _ _ granted.2

theorem requests_length (frames : PageFrameAllocator) (n : Nat) : (requests frames n).1.length = n := by
  induction n generalizing frames with
  | zero => rfl
  | succ n ih => rw [requests_succ,List.length_cons,ih]

/-- `Configure` takes 34 pages one after another, if there are as many. -/
theorem configure_eq (hba : HBAPort σ) (p : ATAPort σ) (frames : PageFrameAllocator) (m : Mem)
    (granted : ∀ page ∈ (requests frames 34).1, page ≠ 0) :
    ∃ newBase fisBase pages, (requests frames 34).1 = newBase :: fisBase :: pages ∧ pages.length = 32 ∧
      p.Configure hba frames m = (p.ConfigureFrom hba m newBase fisBase pages).map (fun (p,m) => (p,(requests frames 34).2,m)) := by
  rw [requests_succ,requests_succ,List.forall_mem_cons,List.forall_mem_cons] at granted
  obtain ⟨first,second,rest⟩ := granted
  refine ⟨_,_,_,by rw [requests_succ,requests_succ],requests_length _ 32,?_⟩
  rw [requests_succ,requests_succ,ATAPort.Configure,ATAPort.ConfigureFrom]
  cases p.StopCMD hba with
  | none => rfl
  | some stopped =>
    simp only [Option.bind_eq_bind,Option.bind_some]
    cases stopped.2.Lock with
    | none => rfl
    | some locked =>
      simp only [Option.bind_some,clearPage_some first,clearPage_some second,tables_eq _ _ _ _ _ rest,Option.map_bind,
        Function.comp_def,Option.map_some]

/-- Where the header of a slot finds its table. -/
def commandTable (m : Mem) (cmdHeader x : Nat) : Nat :=
  load m (cmdHeader + 32*x + 8) 4 ||| load m (cmdHeader + 32*x + 12) 4 <<< 32

/-- The size of a command table with its 8 entries. -/
def tableSize : Nat := 256

/-- The table lies in the page. -/
def InPage (table page : Nat) : Prop := page ≤ table ∧ table + tableSize ≤ page + PAGE_SIZE

/-- The pages are whole pages of memory. -/
structure Page (page : Nat) : Prop where
  aligned : PAGE_SIZE ∣ page
  word : page < 2^64

theorem Page.fits (whole : Page page) : page + PAGE_SIZE ≤ 2^64 := by
  obtain ⟨k,rfl⟩ := whole.aligned
  have below := whole.word
  simp only [PAGE_SIZE] at *
  omega

theorem Page.apart (whole : Page page) (whole' : Page page') (other : page ≠ page') : Apart page PAGE_SIZE page' PAGE_SIZE := by
  obtain ⟨k,rfl⟩ := whole.aligned
  obtain ⟨k',rfl⟩ := whole'.aligned
  simp only [Apart,PAGE_SIZE] at *
  omega

/-- The two halves of an address. -/
theorem halves_or {v : Nat} (word : v < 2^64) : v % 2^32 ||| (v >>> 32 % 2^32) <<< 32 = v := by
  have top : v >>> 32 % 2^32 = v / 2^32 := by
    rw [Nat.shiftRight_eq_div_pow,Nat.mod_eq_of_lt (by omega)]
  rw [top,Nat.or_comm,← Nat.shiftLeft_add_eq_or_of_lt (show v % 2^32 < 2^32 from Nat.mod_lt _ (by decide)),Nat.shiftLeft_eq]
  omega

/-- A round sets the table of its slot. -/
theorem setTable_own (m : Mem) (cmdHeader x page : Nat) :
    commandTable (ATAPort.setTable cmdHeader x m page) cmdHeader x = wrap (page + x <<< 8) := by
  simp only [commandTable,ATAPort.setTable]
  rw [load_store,load_store_apart (by unfold Apart; omega),load_store,show 256^4 = 2^32 from rfl,halves_or (wrap_lt _)]

/-- A round leaves the tables of the other slots, where its page is apart from their headers. -/
theorem setTable_other (other : x ≠ y) (fits : page + PAGE_SIZE ≤ 2^64) (apart : Apart (cmdHeader + 32*y) 32 page PAGE_SIZE) :
    commandTable (ATAPort.setTable cmdHeader x m page) cmdHeader y = commandTable m cmdHeader y := by
  have field : ∀ offset, offset + 4 ≤ 32 → load (ATAPort.setTable cmdHeader x m page) (cmdHeader + 32*y + offset) 4 =
      load m (cmdHeader + 32*y + offset) 4 := by
    intro offset small
    simp only [ATAPort.setTable]
    rw [load_store_apart (by unfold Apart; omega),load_store_apart (by unfold Apart; omega),load_store_apart (by unfold Apart; omega),
      memset64_eq fits,load_fill_apart (by unfold Apart at apart ⊢; omega)]
  rw [commandTable,commandTable,field 8 (by omega),field 12 (by omega)]

/-- The loop leaves the tables of the slots in front of it. -/
theorem tablesFrom_before (before : y < x) (fits : ∀ page ∈ pages, page + PAGE_SIZE ≤ 2^64)
    (apart : ∀ page ∈ pages, Apart (cmdHeader + 32*y) 32 page PAGE_SIZE) :
    commandTable (ATAPort.tablesFrom cmdHeader x m pages) cmdHeader y = commandTable m cmdHeader y := by
  induction pages generalizing x m with
  | nil => rfl
  | cons page pages ih =>
    have later := @ih (ATAPort.setTable cmdHeader x m page) (x+1) (by omega)
      (fun page member => fits page (List.mem_cons_of_mem _ member)) (fun page member => apart page (List.mem_cons_of_mem _ member))
    rw [ATAPort.tablesFrom,later]
    exact setTable_other (by omega) (fits page (by simp)) (apart page (by simp))

/-- The loop sets the table of each slot that it has a page for. -/
theorem tablesFrom_table (fits : ∀ page ∈ pages, page + PAGE_SIZE ≤ 2^64)
    (apart : ∀ page ∈ pages, ∀ y < x + pages.length, Apart (cmdHeader + 32*y) 32 page PAGE_SIZE) (given : pages[y]? = some page) :
    commandTable (ATAPort.tablesFrom cmdHeader x m pages) cmdHeader (x+y) = wrap (page + (x+y) <<< 8) := by
  induction pages generalizing x m y with
  | nil => cases given
  | cons first pages ih =>
    have fits' : ∀ page ∈ pages, page + PAGE_SIZE ≤ 2^64 := fun page member => fits page (List.mem_cons_of_mem _ member)
    cases y with
    | zero =>
      cases given
      rw [Nat.add_zero,ATAPort.tablesFrom,tablesFrom_before (by omega) fits',setTable_own]
      exact fun page member => apart page (List.mem_cons_of_mem _ member) x (by simp)
    | succ y =>
      have later := @ih (ATAPort.setTable cmdHeader x m first) (x+1) y fits'
        (fun page member z below => apart page (List.mem_cons_of_mem _ member) z (by rw [List.length_cons]; omega)) given
      rw [ATAPort.tablesFrom,show x + (y+1) = x + 1 + y by omega]
      exact later

/-- The device keeps the address of the command list, which is a multiple of 1 KiB: the two registers read
    as they were written last, whatever is done to the address of the received FIS. -/
structure KeepsList (hba : HBAPort σ) (low high : σ → Nat) : Prop where
  read_low : ∀ s, (hba.read .CommandListBase s).1 = low s
  read_high : ∀ s, (hba.read .CommandListBaseUpper s).1 = high s
  high_read : ∀ s, high (hba.read .CommandListBase s).2 = high s
  low_write : ∀ v s, v < 2^32 → 2^10 ∣ v → low (hba.write .CommandListBase v s) = v
  high_write : ∀ v s, v < 2^32 → high (hba.write .CommandListBaseUpper v s) = v
  low_upper : ∀ v s, low (hba.write .CommandListBaseUpper v s) = low s
  low_fis : ∀ v s, low (hba.write .fisBaseAddress v s) = low s
  low_fisUpper : ∀ v s, low (hba.write .fisBaseAddressUpper v s) = low s
  high_fis : ∀ v s, high (hba.write .fisBaseAddress v s) = high s
  high_fisUpper : ∀ v s, high (hba.write .fisBaseAddressUpper v s) = high s

variable {low high : σ → Nat}

/-- The command list is where `Configure` put it. -/
theorem address_list (keeps : KeepsList hba low high) (whole : Page newBase) (p : ATAPort σ) (fisBase : Nat) :
    ((((((p.write hba .CommandListBase newBase).write hba .CommandListBaseUpper (newBase >>> 32)).write hba .fisBaseAddress fisBase).write
      hba .fisBaseAddressUpper (fisBase >>> 32)).address hba .CommandListBase .CommandListBaseUpper)).1 = newBase := by
  have aligned : 2^10 ∣ newBase % 2^32 := by
    obtain ⟨k,rfl⟩ := whole.aligned
    simp only [PAGE_SIZE]
    omega
  have short : ∀ v, v % 2^32 < 2^32 := fun v => Nat.mod_lt _ (by decide)
  simp only [ATAPort.address,ATAPort.read,ATAPort.write]
  rw [keeps.read_low,keeps.read_high,keeps.high_read,keeps.low_fisUpper,keeps.low_fis,keeps.low_upper,keeps.low_write _ _ (short _) aligned,
    keeps.high_fisUpper,keeps.high_fis,keeps.high_write _ _ (short _)]
  exact halves_or whole.word

/-- From a free mutex `Configure` returns, with the tables set. -/
theorem configureFrom_tables (keeps : KeepsList hba low high) (free : p.mMutex = false) (whole : Page newBase) (m : Mem) (fisBase : Nat)
    (pages : List Nat) : ∃ q, p.ConfigureFrom hba m newBase fisBase pages =
      some (q,ATAPort.tablesFrom newBase 0 (memset64 (memset64 m newBase 0 PAGE_SIZE) fisBase 0 PAGE_SIZE) pages) := by
  obtain ⟨_,stopped,isStopped,settled⟩ := stopCMD_settles hba free
  obtain ⟨locked,isLocked,_⟩ := lock_free settled.1
  obtain ⟨_,q,isStarted,_⟩ := startCMD_settles (p := (((((locked.write hba .CommandListBase newBase).write hba .CommandListBaseUpper
    (newBase >>> 32)).write hba .fisBaseAddress fisBase).write hba .fisBaseAddressUpper (fisBase >>> 32)).address hba .CommandListBase
    .CommandListBaseUpper).2.Unlock) hba rfl
  simp only [ATAPort.ConfigureFrom,isStopped,isLocked,isStarted,Option.bind_eq_bind,Option.bind_some,address_list keeps whole]
  exact ⟨q,rfl⟩

/-- What the tables are for: each lies in the page of its slot, and no two share a byte. -/
def TablesPlaced (m : Mem) (cmdHeader : Nat) (pages : List Nat) : Prop :=
  (∀ x page, pages[x]? = some page → InPage (commandTable m cmdHeader x) page) ∧
    ∀ x y, x < pages.length → y < pages.length → x ≠ y →
      Apart (commandTable m cmdHeader x) tableSize (commandTable m cmdHeader y) tableSize

theorem table_inPage_iff (whole : Page page) (slot : x < 32) : InPage (wrap (page + x <<< 8)) page ↔ x < 16 := by
  have fits := whole.fits
  rw [Nat.shiftLeft_eq]
  simp only [InPage,tableSize,PAGE_SIZE,wrap] at *
  omega

/-- Two tables share memory when they are the same table, 16 slots and one page from each other. -/
theorem table_shared_iff (whole : Page page) (whole' : Page page') (less : x < y) (slot : y < 32) :
    ¬ Apart (wrap (page + x <<< 8)) tableSize (wrap (page' + y <<< 8)) tableSize ↔ y = x+16 ∧ page = wrap (page' + PAGE_SIZE) := by
  have fits := whole.fits
  have fits' := whole'.fits
  obtain ⟨k,rfl⟩ := whole.aligned
  obtain ⟨k',rfl⟩ := whole'.aligned
  rw [Nat.shiftLeft_eq,Nat.shiftLeft_eq]
  simp only [Apart,tableSize,PAGE_SIZE,wrap] at *
  omega

/-- The tables that `Configure` sets. -/
theorem tables_at (distinct : (newBase :: fisBase :: pages).Nodup) (whole : ∀ page ∈ newBase :: fisBase :: pages, Page page)
    (count : pages.length = 32) (m : Mem) (given : pages[x]? = some page) :
    commandTable (ATAPort.tablesFrom newBase 0 m pages) newBase x = wrap (page + x <<< 8) := by
  have fits : ∀ page ∈ pages, page + PAGE_SIZE ≤ 2^64 := fun page member => (whole page (by simp [member])).fits
  have table := @tablesFrom_table m newBase 0 x page pages fits (fun page member y below => ?_) given
  · rwa [Nat.zero_add] at table
  · have other : newBase ≠ page := fun same => (List.nodup_cons.mp distinct).1 (by simp [same,member])
    have apart := (whole newBase (by simp)).apart (whole page (by simp [member])) other
    simp only [Apart,PAGE_SIZE] at *
    omega

/-- The table of a slot lies in its page for the first 16 slots and for no other, and the slots share tables when
    their pages follow each other; so no pages are right. -/
theorem configure_tables (keeps : KeepsList hba low high) (free : p.mMutex = false) (distinct : (newBase :: fisBase :: pages).Nodup)
    (whole : ∀ page ∈ newBase :: fisBase :: pages, Page page) (count : pages.length = 32) (m : Mem) :
    ∃ q m', p.ConfigureFrom hba m newBase fisBase pages = some (q,m') ∧
      (∀ x page, pages[x]? = some page → (InPage (commandTable m' newBase x) page ↔ x < 16)) ∧
      (∀ x y page page', x < y → pages[x]? = some page → pages[y]? = some page' →
        (¬ Apart (commandTable m' newBase x) tableSize (commandTable m' newBase y) tableSize ↔
          y = x+16 ∧ page = wrap (page' + PAGE_SIZE))) ∧
      ¬ TablesPlaced m' newBase pages := by
  obtain ⟨q,configured⟩ := configureFrom_tables keeps free (whole newBase (by simp)) m fisBase pages
  have slot : ∀ {x page}, pages[x]? = some page → x < 32 ∧ Page page := by
    intro x page given
    obtain ⟨inside,_⟩ := List.getElem?_eq_some_iff.mp given
    exact ⟨by omega,whole page (by simp [List.mem_of_getElem? given])⟩
  have inside : ∀ x page, pages[x]? = some page → (InPage (commandTable (ATAPort.tablesFrom newBase 0
      (memset64 (memset64 m newBase 0 PAGE_SIZE) fisBase 0 PAGE_SIZE) pages) newBase x) page ↔ x < 16) := by
    intro x page given
    rw [tables_at distinct whole count _ given]
    exact table_inPage_iff (slot given).2 (slot given).1
  refine ⟨q,_,configured,inside,?_,?_⟩
  · intro x y page page' less given given'
    rw [tables_at distinct whole count _ given,tables_at distinct whole count _ given']
    exact table_shared_iff (slot given).2 (slot given').2 less (slot given').1
  · intro placed
    obtain ⟨page,given⟩ : ∃ page, pages[16]? = some page := ⟨_,List.getElem?_eq_getElem (by omega)⟩
    exact absurd ((inside 16 _ given).mp (placed.1 16 _ given)) (by decide)

/-- A device of which the two registers are all that there is. -/
def listDevice : HBAPort (Nat × Nat) where
  read register s :=
    match register with
    | .CommandListBase => (s.1,s)
    | .CommandListBaseUpper => (s.2,s)
    | _ => (0,s)
  write register value s :=
    match register with
    | .CommandListBase => (value,s.2)
    | .CommandListBaseUpper => (s.1,value)
    | _ => s
  issue _ s := s
  mBuffer _ _ := 0

def listPort : ATAPort (Nat × Nat) := ⟨(0,0),4096,false,[]⟩

/-- The 32 pages behind the first three. -/
def ascending : List Nat := (List.range 32).map (fun x => PAGE_SIZE * (x+3))

theorem listDevice_keeps : KeepsList listDevice Prod.fst Prod.snd := by
  constructor <;> intros <;> rfl

theorem ascending_distinct : (PAGE_SIZE :: 2 * PAGE_SIZE :: ascending).Nodup := by decide

theorem ascending_whole : ∀ page ∈ PAGE_SIZE :: 2 * PAGE_SIZE :: ascending, Page page := by
  intro page member
  obtain ⟨k,small,rfl⟩ : ∃ k < 35, page = PAGE_SIZE * k := by
    rcases List.mem_cons.mp member with rfl | member
    · exact ⟨1,by decide,rfl⟩
    rcases List.mem_cons.mp member with rfl | member
    · exact ⟨2,by decide,rfl⟩
    obtain ⟨x,inside,rfl⟩ := List.mem_map.mp member
    exact ⟨x+3,by have := List.mem_range.mp inside; omega,rfl⟩
  exact ⟨Dvd.intro k rfl,by unfold PAGE_SIZE; omega⟩

theorem configure_tables_ascending : ∃ q m', listPort.ConfigureFrom listDevice (fun _ => 0) PAGE_SIZE (2 * PAGE_SIZE) ascending = some (q,m') ∧
    ¬ TablesPlaced m' PAGE_SIZE ascending := by
  obtain ⟨q,m',configured,_,_,fails⟩ := configure_tables (p := listPort) listDevice_keeps rfl ascending_distinct ascending_whole rfl (fun _ => 0)
  exact ⟨q,m',configured,fails⟩

/-- The slot 16 has the page at `0x13000`, and its table behind it. -/
theorem configure_tables_fails : ¬ ∀ (p : ATAPort (Nat × Nat)) (m : Mem) (newBase fisBase : Nat) (pages : List Nat), p.mMutex = false →
    (newBase :: fisBase :: pages).Nodup → (∀ page ∈ newBase :: fisBase :: pages, Page page) → pages.length = 32 →
    ∀ q m', p.ConfigureFrom listDevice m newBase fisBase pages = some (q,m') → TablesPlaced m' newBase pages := by
  intro placed
  obtain ⟨q,configured⟩ := configureFrom_tables (p := listPort) listDevice_keeps rfl (ascending_whole PAGE_SIZE (by simp)) (fun _ => 0)
    (2 * PAGE_SIZE) ascending
  have given : ascending[16]? = some (PAGE_SIZE * 19) := rfl
  have inside := (placed listPort (fun _ => 0) PAGE_SIZE (2 * PAGE_SIZE) ascending rfl ascending_distinct ascending_whole rfl q _ configured).1
    16 (PAGE_SIZE * 19) given
  rw [tables_at ascending_distinct ascending_whole rfl _ given,table_inPage_iff (ascending_whole _ (by decide)) (by decide)] at inside
  exact absurd inside (by decide)

end WaifuOS.AHCI.Polling
