import WaifuOS.AHCI
import WaifuOS.AsmUtils
import WaifuOS.PageFrames

/-!
How the ATA port waits for its device. The registers of the device are read again and
again, each read may answer anything and change the device, and every loop gives up after
a number of rounds. The port records when its mutex is locked and freed and when
`ReadFillBuffer` is entered. From a free mutex a call returns, whatever the
device answers, and leaves the mutex free with each `Lock` before its own
`Unlock`. Only `Configure` may not return: it clears the pages that it requests with the mutex locked, and behind
`InitializePaging` it faults where the answer is `nullptr` (`exec_matched_iff`).
-/
namespace WaifuOS.AHCI.Polling
open WaifuOS.Words WaifuOS.Bytes

inductive Register
  | CommandListBase | CommandListBaseUpper | fisBaseAddress | fisBaseAddressUpper | InterruptStatus | cmdStatus | TaskFileData
  | CommandIssue

def HbaPxCMD_CR : Nat := 1 <<< 15

def HbaPxCMD_FRE : Nat := 1 <<< 4

def HbaPxCMD_ST : Nat := 1 <<< 0

def HbaPxCMD_FR : Nat := 1 <<< 14

def HbaPxIS_TFES : Nat := 1 <<< 30

def AtaDevBusy : Nat := 0x80

def AtaDevDRQ : Nat := 0x08

/-- A device with states in `σ`: its registers, what it does with a command, and what it leaves in the
    port's buffer. -/
structure HBAPort (σ : Type) where
  read : Register → σ → Nat × σ
  write : Register → Nat → σ → σ
  issue : Command → σ → σ
  mBuffer : σ → Nat → BitVec 8

/-- What happens to the mutex; `ReadFillBuffer` is entered with the mutex locked or not. -/
inductive Event
  | Lock | Unlock | ReadFillBuffer (locked : Bool)

structure ATAPort (σ : Type) where
  hbaPort : σ
  mBufferSize : Nat
  mMutex : Bool
  events : List Event

namespace ATAPort
variable {σ : Type}

/-- `mMutex.Lock()`. Nobody else runs, so a mutex that is locked stays locked. -/
def Lock (p : ATAPort σ) : Option (ATAPort σ) :=
  if p.mMutex then none else some { p with mMutex := true, events := p.events ++ [.Lock] }

def Unlock (p : ATAPort σ) : ATAPort σ := { p with mMutex := false, events := p.events ++ [.Unlock] }

def read (hba : HBAPort σ) (p : ATAPort σ) (register : Register) : Nat × ATAPort σ :=
  let (value,hbaPort) := hba.read register p.hbaPort
  (value,{ p with hbaPort })

def write (hba : HBAPort σ) (p : ATAPort σ) (register : Register) (value : Nat) : ATAPort σ :=
  { p with hbaPort := hba.write register (value % 2^32) p.hbaPort }

/-- A register is read, and what `f` makes of its value is written back. -/
def modify (hba : HBAPort σ) (p : ATAPort σ) (register : Register) (f : Nat → Nat) : ATAPort σ :=
  let (value,p) := p.read hba register
  p.write hba register (f value)

/-- The address that two registers hold. -/
def address (hba : HBAPort σ) (p : ATAPort σ) (low high : Register) : Nat × ATAPort σ :=
  let (base,p) := p.read hba low
  let (upper,p) := p.read hba high
  (base ||| upper <<< 32,p)

/-- Waits until no bit of `mask` is set, and gives up in the round 100001. -/
def waitWhile (hba : HBAPort σ) (register : Register) (mask timeout : Nat) (p : ATAPort σ) : Bool × ATAPort σ :=
  let (value,p) := p.read hba register
  if value &&& mask = 0 then (true,p)
  else if timeout > 100000 then (false,p)
  else waitWhile hba register mask (timeout+1) p
termination_by 100001 - timeout

/-- The loop of `StopCMD`. -/
def waitStopped (hba : HBAPort σ) (timeout : Nat) (p : ATAPort σ) : Bool × ATAPort σ :=
  if timeout ≥ 100000 then (false,p)
  else
    let (cmdStatus,p) := p.read hba .cmdStatus
    if cmdStatus &&& (HbaPxCMD_FR ||| HbaPxCMD_CR) ≠ 0 then waitStopped hba (timeout+1) p else (true,p)
termination_by 100000 - timeout

/-- The last loop of a read: whether the command completes. -/
def waitIssued (hba : HBAPort σ) (spinLock : Nat) (p : ATAPort σ) : Bool × ATAPort σ :=
  if spinLock < 100000 then
    let (CommandIssue,p) := p.read hba .CommandIssue
    if CommandIssue = 0 then (true,p)
    else
      let (InterruptStatus,p) := p.read hba .InterruptStatus
      if InterruptStatus &&& HbaPxIS_TFES ≠ 0 then (false,p) else waitIssued hba (spinLock+1) p
  else (false,p)
termination_by 100000 - spinLock

def StartCMD (hba : HBAPort σ) (p : ATAPort σ) : Option (Bool × ATAPort σ) := do
  let p ← p.Lock
  let (stopped,p) := p.waitWhile hba .cmdStatus HbaPxCMD_CR 0
  if !stopped then some (false,p.Unlock)
  else
    let p := p.modify hba .cmdStatus (fun cmdStatus => cmdStatus ||| HbaPxCMD_FRE)
    let p := p.modify hba .cmdStatus (fun cmdStatus => cmdStatus ||| HbaPxCMD_ST)
    some (true,p.Unlock)

def StopCMD (hba : HBAPort σ) (p : ATAPort σ) : Option (Bool × ATAPort σ) := do
  let p ← p.Lock
  let p := p.modify hba .cmdStatus (fun cmdStatus => cmdStatus &&& (2^32 - 1 - HbaPxCMD_FRE))
  let p := p.modify hba .cmdStatus (fun cmdStatus => cmdStatus &&& (2^32 - 1 - HbaPxCMD_ST))
  let (stopped,p) := p.waitStopped hba 0
  some (stopped,p.Unlock)

/-- Clears the interrupts, finds the command header and waits until the device is ready. -/
def prepare (hba : HBAPort σ) (p : ATAPort σ) : Bool × ATAPort σ :=
  let p := p.write hba .InterruptStatus (2^32 - 1)
  let (_,p) := p.address hba .CommandListBase .CommandListBaseUpper
  p.waitWhile hba .TaskFileData (AtaDevBusy ||| AtaDevDRQ) 0

/-- Issues a read of `sectorCount` sectors and waits for it. -/
def issue (hba : HBAPort σ) (p : ATAPort σ) (sector sectorCount ByteCount : Nat) : Bool × ATAPort σ :=
  let (ready,p) := p.prepare hba
  if !ready then (false,p)
  else
    let command : Command := ⟨sector,.readDmaEX sector sectorCount,ByteCount⟩
    let p := { p with hbaPort := hba.issue command p.hbaPort }
    p.waitIssued hba 0

def ReadFillBuffer (hba : HBAPort σ) (p : ATAPort σ) (sector : Nat) : Bool × ATAPort σ :=
  let p := { p with events := p.events ++ [.ReadFillBuffer p.mMutex] }
  if !p.mMutex then (false,p)
  else p.issue hba sector (p.mBufferSize / 512 % 2^16) (p.mBufferSize - 1)

/-- `ReadFillBuffer`, and once more if it fails. -/
def fillTwice (hba : HBAPort σ) (p : ATAPort σ) (sector : Nat) : Bool × ATAPort σ :=
  let (filled,p) := p.ReadFillBuffer hba sector
  if filled then (true,p) else p.ReadFillBuffer hba sector

/-- The loop of `Read` and `ReadBytes` with `fillCount` rounds left. -/
def fillLoop (hba : HBAPort σ) (bufferSectorCount : Nat) (p : ATAPort σ) (m : Mem) (sectorOffset bufferOffset : Nat) :
    Nat → Bool × ATAPort σ × Mem × Nat × Nat
  | 0 => (true,p,m,sectorOffset,bufferOffset)
  | fillCount+1 =>
    let (filled,p) := p.fillTwice hba sectorOffset
    if !filled then (false,p,m,sectorOffset,bufferOffset)
    else
      let m := fill m bufferOffset p.mBufferSize (hba.mBuffer p.hbaPort)
      fillLoop hba bufferSectorCount p m (wrap (sectorOffset + bufferSectorCount)) (bufferOffset + p.mBufferSize) fillCount

/-- What `Read` and `ReadBytes` share, with `tail` as in `AHCI.ATAPort.readSectors`. -/
def readSectors (hba : HBAPort σ) (p : ATAPort σ) (m : Mem) (sector sectorCount : Nat) (tail : Nat → Nat → Nat) (buffer : Nat) :
    Option (Bool × ATAPort σ × Mem) := do
  let p ← p.Lock
  let bufferSectorCount := p.mBufferSize / SECTOR_SIZE
  if bufferSectorCount = 0 then some (false,p.Unlock,m)
  else
    let fillCount := sectorCount / bufferSectorCount
    let rest := sectorCount - bufferSectorCount * fillCount
    let (filled,p,m,sectorOffset,bufferOffset) := p.fillLoop hba bufferSectorCount m sector buffer fillCount
    if !filled then some (false,p.Unlock,m)
    else if rest = 0 then some (true,p.Unlock,m)
    else
      let (completed,p) := p.issue hba sectorOffset rest (rest * SECTOR_SIZE - 1)
      if completed then
        some (true,p.Unlock,fill m bufferOffset (tail (bufferSectorCount * fillCount) rest) (hba.mBuffer p.hbaPort))
      else some (false,p.Unlock,m)

/-- `Read`, with a `sectorCount` of 16 bits. -/
def Read (hba : HBAPort σ) (p : ATAPort σ) (m : Mem) (sector sectorCount buffer : Nat) : Option (Bool × ATAPort σ × Mem) :=
  if sectorCount = 0 then some (false,p,m)
  else p.readSectors hba m sector sectorCount (fun _ rest => rest * SECTOR_SIZE) buffer

/-- `ReadBytes`, with a `bytecount` of 32 bits. -/
def ReadBytes (hba : HBAPort σ) (p : ATAPort σ) (m : Mem) (sector bytecount buffer : Nat) : Option (Bool × ATAPort σ × Mem) :=
  if bytecount = 0 then some (false,p,m)
  else
    let sectorCount := bytecount / SECTOR_SIZE + 1
    p.readSectors hba m sector sectorCount (fun read _ => (bytecount + 2^32 - read * SECTOR_SIZE) % 2^32) buffer

/-- `memset64(page, 0x00, PAGE_SIZE)`. The page of `nullptr` cannot be, and clearing it is a page fault. -/
def clearPage (m : Mem) (page : Nat) : Option Mem := if page = 0 then none else some (memset64 m page 0x00 PAGE_SIZE)

/-- The loop of `Configure` from `x` on, `n` rounds: a table for each command header. -/
def tables (cmdHeader x : Nat) (frames : PageFrameAllocator) (m : Mem) : Nat → Option (PageFrameAllocator × Mem)
  | 0 => some (frames,m)
  | n+1 => do
    let (cmdTableAddress,frames) := frames.RequestPage
    let m ← clearPage m cmdTableAddress
    let address := wrap (cmdTableAddress + x <<< 8)
    let cmd := cmdHeader + 32*x
    let m := store m (cmd + 2) 2 8
    let m := store m (cmd + 8) 4 address
    let m := store m (cmd + 12) 4 (address >>> 32)
    tables cmdHeader (x+1) frames m n

def Configure (hba : HBAPort σ) (p : ATAPort σ) (frames : PageFrameAllocator) (m : Mem) :
    Option (ATAPort σ × PageFrameAllocator × Mem) := do
  let (_,p) ← p.StopCMD hba
  let p ← p.Lock
  let (newBase,frames) := frames.RequestPage
  let m ← clearPage m newBase
  let p := p.write hba .CommandListBase newBase
  let p := p.write hba .CommandListBaseUpper (newBase >>> 32)
  let (fisBase,frames) := frames.RequestPage
  let m ← clearPage m fisBase
  let p := p.write hba .fisBaseAddress fisBase
  let p := p.write hba .fisBaseAddressUpper (fisBase >>> 32)
  let (cmdHeader,p) := p.address hba .CommandListBase .CommandListBaseUpper
  let (frames,m) ← tables cmdHeader 0 frames m 32
  let (_,p) ← p.Unlock.StartCMD hba
  some (p,frames,m)

end ATAPort

/-- A call of the port. -/
inductive Call
  | Configure
  | StartCMD
  | StopCMD
  | Read (sector sectorCount buffer : Nat)
  | ReadBytes (sector bytecount buffer : Nat)

/-- What the call returns, and the port, the frames and the memory after it. -/
def Call.exec {σ : Type} (hba : HBAPort σ) (p : ATAPort σ) (frames : PageFrameAllocator) (m : Mem) :
    Call → Option (Bool × ATAPort σ × PageFrameAllocator × Mem)
  | .Configure => do
    let (p,frames,m) ← p.Configure hba frames m
    some (true,p,frames,m)
  | .StartCMD => do
    let (done,p) ← p.StartCMD hba
    some (done,p,frames,m)
  | .StopCMD => do
    let (done,p) ← p.StopCMD hba
    some (done,p,frames,m)
  | .Read sector sectorCount buffer => do
    let (done,p,m) ← p.Read hba m sector sectorCount buffer
    some (done,p,frames,m)
  | .ReadBytes sector bytecount buffer => do
    let (done,p,m) ← p.ReadBytes hba m sector bytecount buffer
    some (done,p,frames,m)

/-- Every `Lock` is followed by its own `Unlock`, with nothing between them but entries of
    `ReadFillBuffer` that find the mutex locked. -/
inductive Matched : List Event → Prop
  | none : Matched []
  | pair {fills later : List Event} (owned : ∀ e ∈ fills, e = .ReadFillBuffer true) (rest : Matched later) :
      Matched (.Lock :: fills ++ .Unlock :: later)

/-- Each of the 34 requests of `Configure` finds a frame that is not `nullptr`. -/
def Call.Granted (frames : PageFrameAllocator) : Call → Prop
  | .Configure => 34 ≤ frames.clearFrames.card ∧ 0 ∉ frames.clearFrames
  | _ => True

/-- The call returns with the mutex free, and has matched its locks. -/
def Call.Matches {σ : Type} (hba : HBAPort σ) (p : ATAPort σ) (frames : PageFrameAllocator) (m : Mem) (call : Call) : Prop :=
  ∃ done q frames' m', call.exec hba p frames m = some (done,q,frames',m') ∧ q.mMutex = false ∧
    ∃ new, q.events = p.events ++ new ∧ Matched new

/-- The pages that `n` calls of `RequestPage` give, and the frames after them. -/
def requests (frames : PageFrameAllocator) : Nat → List Nat × PageFrameAllocator
  | 0 => ([],frames)
  | n+1 =>
    let (page,frames) := frames.RequestPage
    let (pages,frames) := requests frames n
    (page :: pages,frames)

/-- The call from one port to the next leaves the mutex free, and has matched its locks. -/
def Settles {σ : Type} (p p' : ATAPort σ) : Prop := p'.mMutex = false ∧ ∃ new, p'.events = p.events ++ new ∧ Matched new

/-- Inside a call the mutex stays locked, and only `ReadFillBuffer` is recorded. -/
def Holds {σ : Type} (p p' : ATAPort σ) : Prop :=
  p'.mMutex = p.mMutex ∧ ∃ fills, p'.events = p.events ++ fills ∧ ∀ e ∈ fills, e = .ReadFillBuffer true

variable {σ : Type} {hba : HBAPort σ} {p p' q : ATAPort σ} {m : Mem}

theorem Matched.append {earlier later : List Event} (first : Matched earlier) (second : Matched later) : Matched (earlier ++ later) := by
  induction first with
  | none => exact second
  | pair owned rest ih =>
    rw [List.append_assoc,List.cons_append]
    exact .pair owned ih

theorem Settles.trans (first : Settles p p') (second : Settles p' q) : Settles p q := by
  obtain ⟨_,new,events,matched⟩ := first
  obtain ⟨free,new',events',matched'⟩ := second
  exact ⟨free,new ++ new',by rw [events',events,List.append_assoc],matched.append matched'⟩

theorem Holds.refl (p : ATAPort σ) : Holds p p := ⟨rfl,[],(List.append_nil _).symm,fun e member => by cases member⟩

theorem Holds.trans (first : Holds p p') (second : Holds p' q) : Holds p q := by
  obtain ⟨mutex,fills,events,owned⟩ := first
  obtain ⟨mutex',fills',events',owned'⟩ := second
  refine ⟨mutex'.trans mutex,fills ++ fills',by rw [events',events,List.append_assoc],?_⟩
  intro e member
  rcases List.mem_append.mp member with old | new
  · exact owned e old
  · exact owned' e new

/-- What is done between `Lock` and `Unlock` settles the call. -/
theorem Holds.settles {locked : ATAPort σ} (isLocked : p.Lock = some locked) (holds : Holds locked q) : Settles p q.Unlock := by
  obtain ⟨_,fills,events,owned⟩ := holds
  simp only [ATAPort.Lock] at isLocked
  split at isLocked
  · cases isLocked
  · cases isLocked
    refine ⟨rfl,.Lock :: fills ++ [.Unlock],?_,.pair owned .none⟩
    simp [ATAPort.Unlock,events]

theorem lock_free (free : p.mMutex = false) : ∃ locked, p.Lock = some locked ∧ locked.mMutex = true := by
  refine ⟨{ p with mMutex := true, events := p.events ++ [.Lock] },?_,rfl⟩
  rw [ATAPort.Lock,free]
  rfl

/-! ### Loops -/

/-- What is done to the device leaves the mutex alone. -/
theorem device_holds (hbaPort : σ) : Holds p { p with hbaPort } := ⟨rfl,[],(List.append_nil _).symm,fun e member => by cases member⟩

theorem read_holds (hba : HBAPort σ) (register : Register) : Holds p (p.read hba register).2 := device_holds _

theorem write_holds (hba : HBAPort σ) (register : Register) (value : Nat) : Holds p (p.write hba register value) := device_holds _

theorem modify_holds (hba : HBAPort σ) (register : Register) (f : Nat → Nat) : Holds p (p.modify hba register f) :=
  (read_holds hba register).trans (write_holds hba register _)

theorem address_holds (hba : HBAPort σ) (low high : Register) : Holds p (p.address hba low high).2 := (read_holds hba low).trans (read_holds hba high)

theorem waitWhile_holds (hba : HBAPort σ) (register : Register) (mask timeout : Nat) (p : ATAPort σ) : Holds p (p.waitWhile hba register mask timeout).2 := by
  have first : Holds p (p.read hba register).2 := read_holds hba register
  rw [ATAPort.waitWhile]
  dsimp only
  split
  · exact first
  split
  · exact first
  · exact first.trans (waitWhile_holds hba register mask (timeout+1) _)
termination_by 100001 - timeout

theorem waitStopped_holds (hba : HBAPort σ) (timeout : Nat) (p : ATAPort σ) : Holds p (p.waitStopped hba timeout).2 := by
  have first : Holds p (p.read hba .cmdStatus).2 := read_holds hba _
  rw [ATAPort.waitStopped]
  dsimp only
  split
  · exact .refl p
  split
  · exact first.trans (waitStopped_holds hba (timeout+1) _)
  · exact first
termination_by 100000 - timeout

theorem waitIssued_holds (hba : HBAPort σ) (spinLock : Nat) (p : ATAPort σ) : Holds p (p.waitIssued hba spinLock).2 := by
  have first : Holds p (p.read hba .CommandIssue).2 := read_holds hba _
  have second : Holds p ((p.read hba .CommandIssue).2.read hba .InterruptStatus).2 := first.trans (read_holds hba _)
  rw [ATAPort.waitIssued]
  dsimp only
  split
  · split
    · exact first
    · split
      · exact second
      · exact second.trans (waitIssued_holds hba (spinLock+1) _)
  · exact .refl p
termination_by 100000 - spinLock

theorem prepare_holds (hba : HBAPort σ) (p : ATAPort σ) : Holds p (p.prepare hba).2 :=
  (write_holds hba _ _).trans ((address_holds hba _ _).trans (waitWhile_holds hba _ _ _ _))

theorem issue_holds (sector sectorCount ByteCount : Nat) : Holds p (p.issue hba sector sectorCount ByteCount).2 := by
  have prepared := prepare_holds hba p
  unfold ATAPort.issue
  dsimp only
  split
  · exact prepared
  · exact prepared.trans ((device_holds _).trans (waitIssued_holds hba 0 _))

theorem readFillBuffer_holds (locked : p.mMutex = true) (sector : Nat) : Holds p (p.ReadFillBuffer hba sector).2 := by
  have entered : Holds p { p with events := p.events ++ [.ReadFillBuffer p.mMutex] } := by
    refine ⟨rfl,[.ReadFillBuffer true],by rw [locked],?_⟩
    intro e member
    exact List.mem_singleton.mp member
  unfold ATAPort.ReadFillBuffer
  dsimp only
  split
  · exact entered
  · exact entered.trans (issue_holds _ _ _)

theorem fillTwice_holds (locked : p.mMutex = true) (sector : Nat) : Holds p (p.fillTwice hba sector).2 := by
  have once : Holds p (p.ReadFillBuffer hba sector).2 := readFillBuffer_holds locked sector
  unfold ATAPort.fillTwice
  dsimp only
  split
  · exact once
  · exact once.trans (readFillBuffer_holds (once.1.trans locked) sector)

theorem fillLoop_holds {b sector buffer n : Nat} (locked : p.mMutex = true) : Holds p (p.fillLoop hba b m sector buffer n).2.1 := by
  induction n generalizing p m sector buffer with
  | zero => exact .refl p
  | succ n ih =>
    have round : Holds p (p.fillTwice hba sector).2 := fillTwice_holds locked sector
    unfold ATAPort.fillLoop
    dsimp only
    split
    · exact round
    · exact round.trans (ih (round.1.trans locked))

/-! ### Calls -/

theorem startCMD_settles (hba : HBAPort σ) (free : p.mMutex = false) : ∃ done q, p.StartCMD hba = some (done,q) ∧ Settles p q := by
  obtain ⟨locked,isLocked,_⟩ := lock_free free
  have waited : Holds locked (locked.waitWhile hba .cmdStatus HbaPxCMD_CR 0).2 := waitWhile_holds hba _ _ _ locked
  simp only [ATAPort.StartCMD,isLocked,Option.bind_eq_bind,Option.bind_some]
  split
  · exact ⟨_,_,rfl,waited.settles isLocked⟩
  · exact ⟨_,_,rfl,Holds.settles isLocked (waited.trans ((modify_holds hba _ _).trans (modify_holds hba _ _)))⟩

theorem stopCMD_settles (hba : HBAPort σ) (free : p.mMutex = false) : ∃ done q, p.StopCMD hba = some (done,q) ∧ Settles p q := by
  obtain ⟨locked,isLocked,_⟩ := lock_free free
  simp only [ATAPort.StopCMD,isLocked,Option.bind_eq_bind,Option.bind_some]
  exact ⟨_,_,rfl,Holds.settles isLocked ((modify_holds hba _ _).trans ((modify_holds hba _ _).trans (waitStopped_holds hba 0 _)))⟩

theorem readSectors_settles (hba : HBAPort σ) (free : p.mMutex = false) (m : Mem) (sector sectorCount : Nat) (tail : Nat → Nat → Nat) (buffer : Nat) :
    ∃ done q m', p.readSectors hba m sector sectorCount tail buffer = some (done,q,m') ∧ Settles p q := by
  obtain ⟨locked,isLocked,owned⟩ := lock_free free
  simp only [ATAPort.readSectors,isLocked,Option.bind_eq_bind,Option.bind_some]
  split
  · exact ⟨_,_,_,rfl,(Holds.refl locked).settles isLocked⟩
  have looped : Holds locked (locked.fillLoop hba (locked.mBufferSize / SECTOR_SIZE) m sector buffer
      (sectorCount / (locked.mBufferSize / SECTOR_SIZE))).2.1 := fillLoop_holds owned
  split
  · exact ⟨_,_,_,rfl,looped.settles isLocked⟩
  split
  · exact ⟨_,_,_,rfl,looped.settles isLocked⟩
  split
  · exact ⟨_,_,_,rfl,(looped.trans (issue_holds _ _ _)).settles isLocked⟩
  · exact ⟨_,_,_,rfl,(looped.trans (issue_holds _ _ _)).settles isLocked⟩

theorem requests_succ (frames : PageFrameAllocator) (n : Nat) : requests frames (n+1) =
    (frames.RequestPage.1 :: (requests frames.RequestPage.2 n).1,(requests frames.RequestPage.2 n).2) := rfl

/-- A request answers `nullptr` when no frame is left, and for frame 0. -/
theorem requestPage_ne_zero (frames : PageFrameAllocator) : frames.RequestPage.1 ≠ 0 ↔
    frames.clearFrames.Nonempty ∧ 0 ∉ frames.clearFrames := by
  rcases run : frames.requestFrame with ⟨_ | i,frames'⟩
  · have none := (PageFrameAllocator.requestFrame_none run).1
    refine iff_of_false (fun some_page => some_page (by rw [PageFrameAllocator.RequestPage_eq,run])) ?_
    rintro ⟨⟨j,member⟩,_⟩
    obtain ⟨inside,low,clear⟩ := PageFrameAllocator.mem_clearFrames.mp member
    rw [none j low inside] at clear
    cases clear
  · have member := (PageFrameAllocator.requestFrame_clearFrames run).1
    obtain ⟨low,_,between,_⟩ := PageFrameAllocator.requestFrame_some run
    have answer : frames.RequestPage.1 = i * PAGE_SIZE := by rw [PageFrameAllocator.RequestPage_eq,run]
    rw [answer,and_iff_right ⟨i,member⟩]
    constructor
    · -- Frame 0 would have been handed out first.
      intro some_page first
      obtain ⟨_,low',clear⟩ := PageFrameAllocator.mem_clearFrames.mp first
      have pos : i ≠ 0 := by
        rintro rfl
        exact some_page (Nat.zero_mul _)
      rw [between 0 low' (by omega)] at clear
      cases clear
    · intro notFirst zero
      have first : i = 0 := PageFrameAllocator.frame_injective (zero.trans (Nat.zero_mul PAGE_SIZE).symm)
      exact notFirst (first ▸ member)

/-- Some requests all find frames exactly when there are as many, and frame 0 is none of them. -/
theorem requests_granted (frames : PageFrameAllocator) (n : Nat) : (∀ page ∈ (requests frames n).1, page ≠ 0) ↔
    n ≤ frames.clearFrames.card ∧ (0 < n → 0 ∉ frames.clearFrames) := by
  induction n generalizing frames with
  | zero => simp [requests]
  | succ n ih =>
    rw [requests_succ,List.forall_mem_cons,requestPage_ne_zero,ih,imp_iff_right (Nat.succ_pos n)]
    by_cases left : frames.clearFrames.Nonempty
    · obtain ⟨i,frames',found⟩ := PageFrameAllocator.requestFrame_of_clear left
      obtain ⟨member,fewer⟩ := PageFrameAllocator.requestFrame_clearFrames found
      have after : frames.RequestPage.2 = frames' := by rw [PageFrameAllocator.RequestPage_eq,found]
      have count := Finset.card_erase_add_one member
      rw [after,fewer,and_iff_right left]
      constructor
      · rintro ⟨first,enough,_⟩
        exact ⟨by omega,first⟩
      · rintro ⟨enough,first⟩
        exact ⟨first,by omega,fun _ later => first (Finset.mem_of_mem_erase later)⟩
    · refine iff_of_false (fun both => left both.1.1) (fun both => left (Finset.card_pos.mp (by omega)))

theorem clearPage_some {page : Nat} (some_page : page ≠ 0) : ATAPort.clearPage m page = some (memset64 m page 0x00 PAGE_SIZE) :=
  if_neg some_page

/-- The loop of `Configure` ends when its requests find frames, and no sooner. -/
theorem tables_isSome (cmdHeader x : Nat) (frames : PageFrameAllocator) (m : Mem) (n : Nat) :
    (ATAPort.tables cmdHeader x frames m n).isSome ↔ ∀ page ∈ (requests frames n).1, page ≠ 0 := by
  induction n generalizing x frames m with
  | zero => simp [ATAPort.tables,requests]
  | succ n ih =>
    rw [requests_succ,List.forall_mem_cons,ATAPort.tables]
    by_cases null : frames.RequestPage.1 = 0
    · simp [ATAPort.clearPage,null]
    · simp only [clearPage_some null,Option.bind_eq_bind,Option.bind_some]
      rw [ih,and_iff_right null]

theorem configure_settles (hba : HBAPort σ) (free : p.mMutex = false) (frames : PageFrameAllocator) (m : Mem)
    (granted : ∀ page ∈ (requests frames 34).1, page ≠ 0) :
    ∃ q frames' m', p.Configure hba frames m = some (q,frames',m') ∧ Settles p q := by
  obtain ⟨_,stopped,isStopped,settled⟩ := stopCMD_settles hba free
  obtain ⟨locked,isLocked,_⟩ := lock_free settled.1
  rw [requests_succ,requests_succ,List.forall_mem_cons,List.forall_mem_cons] at granted
  obtain ⟨first,second,rest⟩ := granted
  simp only [ATAPort.Configure,isStopped,isLocked,Option.bind_eq_bind,Option.bind_some,clearPage_some first,clearPage_some second]
  obtain ⟨q,qIs⟩ : ∃ q : ATAPort σ, q = (((((locked.write hba .CommandListBase frames.RequestPage.1).write hba .CommandListBaseUpper
      (frames.RequestPage.1 >>> 32)).write hba .fisBaseAddress frames.RequestPage.2.RequestPage.1).write hba .fisBaseAddressUpper
      (frames.RequestPage.2.RequestPage.1 >>> 32)).address hba .CommandListBase .CommandListBaseUpper).2 := ⟨_,rfl⟩
  have set : Holds locked q := by
    rw [qIs]
    exact (write_holds hba _ _).trans ((write_holds hba _ _).trans ((write_holds hba _ _).trans ((write_holds hba _ _).trans (address_holds hba _ _))))
  have unlocked := settled.trans (set.settles isLocked)
  obtain ⟨_,started,isStarted,settled'⟩ := startCMD_settles hba unlocked.1
  obtain ⟨⟨frames',m'⟩,made⟩ := Option.isSome_iff_exists.mp ((tables_isSome
    (((((locked.write hba .CommandListBase frames.RequestPage.1).write hba .CommandListBaseUpper
      (frames.RequestPage.1 >>> 32)).write hba .fisBaseAddress frames.RequestPage.2.RequestPage.1).write hba .fisBaseAddressUpper
      (frames.RequestPage.2.RequestPage.1 >>> 32)).address hba .CommandListBase .CommandListBaseUpper).1 0 _ _ 32).mpr rest)
  rw [← qIs,made]
  simp only [Option.bind_some,isStarted]
  exact ⟨_,_,_,rfl,unlocked.trans settled'⟩

/-- Without frames `Configure` faults with the mutex locked. -/
theorem configure_faults (hba : HBAPort σ) (free : p.mMutex = false) (frames : PageFrameAllocator) (m : Mem)
    (short : ¬ ∀ page ∈ (requests frames 34).1, page ≠ 0) : p.Configure hba frames m = none := by
  obtain ⟨_,stopped,isStopped,settled⟩ := stopCMD_settles hba free
  obtain ⟨locked,isLocked,_⟩ := lock_free settled.1
  rw [requests_succ,requests_succ,List.forall_mem_cons,List.forall_mem_cons] at short
  simp only [ATAPort.Configure,isStopped,isLocked,Option.bind_eq_bind,Option.bind_some]
  by_cases first : frames.RequestPage.1 = 0
  · simp [ATAPort.clearPage,first]
  by_cases second : frames.RequestPage.2.RequestPage.1 = 0
  · simp [ATAPort.clearPage,second]
  simp only [clearPage_some first,clearPage_some second,Option.bind_some]
  have none := fun cmdHeader m => (tables_isSome cmdHeader 0 frames.RequestPage.2.RequestPage.2 m 32).not.mpr
    (fun rest => short ⟨first,second,rest⟩)
  simp only [Option.not_isSome_iff_eq_none] at none
  rw [none]
  rfl

/-- A device that is always busy. -/
def busy : HBAPort Unit := ⟨fun _ s => (0x80,s),fun _ _ s => s,fun _ s => s,fun _ _ => 0⟩

/-- A port that nobody has locked. -/
def freePort : ATAPort Unit := ⟨(),4096,false,[]⟩

/-- Forty frames, of which the first one is marked. -/
def fortyFrames : PageFrameAllocator := ⟨⟨5,0,fun x => if x = 0 then 0b10000000 else 0⟩,true,0,0,0,0,by decide⟩

/-- No frames at all. -/
def noFrames : PageFrameAllocator := ⟨⟨0,0,fun _ => 0⟩,true,0,0,0,0,by decide⟩

end WaifuOS.AHCI.Polling
