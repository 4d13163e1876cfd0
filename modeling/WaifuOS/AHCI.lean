import WaifuOS.Bytes
import WaifuOS.Words

/-!
Reading from an ATA port (`AHCI.cpp`). A transfer goes through the port's buffer, as often
as the buffer has to be filled, and what is left is read by a last command. The port
builds the command and the device executes it: where it reads, and whether it
completes, is the device's. On a device that answers every command alike
(`Steady`), a transfer succeeds when all of its commands complete, and then it has
copied the bytes that were read one after another (`readSectors_spec`).
-/
namespace WaifuOS.AHCI
open WaifuOS.Words WaifuOS.Bytes

def SECTOR_SIZE : Nat := 0x200

/-- The address and the count in the FIS of a command, as bytes. -/
structure FIS_REG_H2D where
  lba0 : Nat
  lba1 : Nat
  lba2 : Nat
  lba3 : Nat
  lba4 : Nat
  lba5 : Nat
  CountLow : Nat
  CountHigh : Nat

namespace FIS_REG_H2D

/-- How the port fills in the FIS of `ReadDmaEX`. -/
def readDmaEX (sector sectorCount : Nat) : FIS_REG_H2D :=
  let sectorL := sector % 2^32
  let sectorH := sector / 2^32 % 2^32
  { lba0 := sectorL % 2^8
    lba1 := sectorL / 2^8 % 2^8
    lba2 := sectorL / 2^16 % 2^8
    lba3 := sectorH % 2^8
    lba4 := sectorH / 2^8 % 2^8
    lba5 := sectorH / 2^16 % 2^8
    CountLow := sectorCount % 2^8
    CountHigh := sectorCount / 2^8 % 2^8 }

/-- The address that a device decodes, `lba0` least significant. -/
def lba (fis : FIS_REG_H2D) : Nat :=
  fis.lba0 + 2^8 * fis.lba1 + 2^16 * fis.lba2 + 2^24 * fis.lba3 + 2^32 * fis.lba4 + 2^40 * fis.lba5

def count (fis : FIS_REG_H2D) : Nat := fis.CountLow + 2^8 * fis.CountHigh

end FIS_REG_H2D

/-- A command: the sector that the port was asked for, the FIS, and `ByteCount` of the only
    entry of its table. -/
structure Command where
  sector : Nat
  fis : FIS_REG_H2D
  ByteCount : Nat

/-- The bytes of a disk, where a command reads, and whether it completes after the earlier ones. -/
structure Device where
  data : Nat → BitVec 8
  lba : Command → Nat
  completes : List Command → Command → Bool

/-- The port, with the commands that were issued. -/
structure ATAPort where
  mBuffer : Nat → BitVec 8
  mBufferSize : Nat
  mMutex : Bool
  issued : List Command

namespace ATAPort

/-- `mMutex.Lock()`. Nobody else runs, so a mutex that is locked stays locked. -/
def Lock (p : ATAPort) : Option ATAPort := if p.mMutex then none else some { p with mMutex := true }

def Unlock (p : ATAPort) : ATAPort := { p with mMutex := false }

/-- Issues a read of `sectorCount` sectors: whether it completes, and the port after it. -/
def issue (device : Device) (p : ATAPort) (sector sectorCount ByteCount : Nat) : Bool × ATAPort :=
  let command : Command := ⟨sector,.readDmaEX sector sectorCount,ByteCount⟩
  let completed := device.completes p.issued command
  let size := min (command.fis.count * SECTOR_SIZE) (command.ByteCount + 1)
  (completed,
    { p with
      mBuffer := if completed then fill p.mBuffer 0 size (fun i => device.data (device.lba command * SECTOR_SIZE + i)) else p.mBuffer
      issued := p.issued ++ [command] })

def ReadFillBuffer (device : Device) (p : ATAPort) (sector : Nat) : Bool × ATAPort :=
  if !p.mMutex then (false,p)
  else p.issue device sector (p.mBufferSize / 512 % 2^16) (p.mBufferSize - 1)

/-- `ReadFillBuffer`, and once more if it fails. -/
def fillTwice (device : Device) (p : ATAPort) (sector : Nat) : Bool × ATAPort :=
  let (filled,p) := p.ReadFillBuffer device sector
  if filled then (true,p) else p.ReadFillBuffer device sector

/-- The loop of `Read` and `ReadBytes` with `fillCount` rounds left: whether it got through, the
    port, the memory, and the two offsets. -/
def fillLoop (device : Device) (bufferSectorCount : Nat) (p : ATAPort) (m : Mem) (sectorOffset bufferOffset : Nat) :
    Nat → Bool × ATAPort × Mem × Nat × Nat
  | 0 => (true,p,m,sectorOffset,bufferOffset)
  | fillCount+1 =>
    let (filled,p) := p.fillTwice device sectorOffset
    if !filled then (false,p,m,sectorOffset,bufferOffset)
    else
      -- `memcpy` from the port's buffer
      let m := fill m bufferOffset p.mBufferSize p.mBuffer
      fillLoop device bufferSectorCount p m (wrap (sectorOffset + bufferSectorCount)) (bufferOffset + p.mBufferSize) fillCount

/-- What `Read` and `ReadBytes` share. `tail` is what the last copy takes: it is given the sectors
    that the loop has read, and those that are left. -/
def readSectors (device : Device) (p : ATAPort) (m : Mem) (sector sectorCount : Nat) (tail : Nat → Nat → Nat) (buffer : Nat) :
    Option (Bool × ATAPort × Mem) := do
  let p ← p.Lock
  let bufferSectorCount := p.mBufferSize / SECTOR_SIZE
  if bufferSectorCount = 0 then some (false,p.Unlock,m)
  else
    let fillCount := sectorCount / bufferSectorCount
    let rest := sectorCount - bufferSectorCount * fillCount
    let (filled,p,m,sectorOffset,bufferOffset) := p.fillLoop device bufferSectorCount m sector buffer fillCount
    if !filled then some (false,p.Unlock,m)
    else if rest = 0 then some (true,p.Unlock,m)
    else
      let (completed,p) := p.issue device sectorOffset rest (rest * SECTOR_SIZE - 1)
      if completed then some (true,p.Unlock,fill m bufferOffset (tail (bufferSectorCount * fillCount) rest) p.mBuffer)
      else some (false,p.Unlock,m)

/-- `Read`, with a `sectorCount` of 16 bits. -/
def Read (device : Device) (p : ATAPort) (m : Mem) (sector sectorCount buffer : Nat) : Option (Bool × ATAPort × Mem) :=
  if sectorCount = 0 then some (false,p,m)
  else p.readSectors device m sector sectorCount (fun _ rest => rest * SECTOR_SIZE) buffer

/-- `ReadBytes`, with a `bytecount` of 32 bits. -/
def ReadBytes (device : Device) (p : ATAPort) (m : Mem) (sector bytecount buffer : Nat) : Option (Bool × ATAPort × Mem) :=
  if bytecount = 0 then some (false,p,m)
  else
    let sectorCount := bytecount / SECTOR_SIZE + 1
    p.readSectors device m sector sectorCount (fun read _ => (bytecount + 2^32 - read * SECTOR_SIZE) % 2^32) buffer

end ATAPort

/-- The device reads where `lba` says and answers as `works` says, whatever was asked before. -/
structure Steady (device : Device) (lba : Nat → Nat) (works : Nat → Nat → Prop) : Prop where
  lba : ∀ sector sectorCount ByteCount, device.lba ⟨sector,.readDmaEX sector sectorCount,ByteCount⟩ = lba sector
  completes : ∀ earlier sector sectorCount ByteCount, sectorCount < 2^16 →
    (device.completes earlier ⟨sector,.readDmaEX sector sectorCount,ByteCount⟩ = true ↔ works sector sectorCount)

/-- The byte at the offset `i` of a transfer from `sector` on, through a buffer of `b` sectors. -/
def transferred (device : Device) (lba : Nat → Nat) (b sector i : Nat) : BitVec 8 :=
  device.data (lba (sector + b * (i / (b * SECTOR_SIZE))) * SECTOR_SIZE + i % (b * SECTOR_SIZE))

variable {device : Device} {lba : Nat → Nat} {works : Nat → Nat → Prop} {p p' : ATAPort} {m : Mem}
  {b sector sectorCount buffer n : Nat}

theorem count_readDmaEX (small : sectorCount < 2^16) : (FIS_REG_H2D.readDmaEX sector sectorCount).count = sectorCount := by
  simp only [FIS_REG_H2D.readDmaEX,FIS_REG_H2D.count]
  omega

/-- The device decodes the sector without its bits 24 to 31. -/
theorem lba_readDmaEX : (FIS_REG_H2D.readDmaEX sector sectorCount).lba = sector % 2^24 + 2^24 * (sector / 2^32 % 2^24) := by
  simp only [FIS_REG_H2D.readDmaEX,FIS_REG_H2D.lba]
  omega

/-- The buffer has room for `b` sectors, and the mutex is as `locked` says. -/
structure Buffered (p : ATAPort) (b : Nat) (locked : Bool) : Prop where
  size : p.mBufferSize = b * SECTOR_SIZE
  mutex : p.mMutex = locked

/-- A command that completes has read into the buffer what the device says. -/
theorem issue_reads {locked : Bool} (device : Device) (buffered : Buffered p b locked) (sector : Nat) (small : sectorCount < 2^16) (ByteCount : Nat) :
    ∃ completed p', p.issue device sector sectorCount ByteCount = (completed,p') ∧
      completed = device.completes p.issued ⟨sector,.readDmaEX sector sectorCount,ByteCount⟩ ∧ Buffered p' b locked ∧
      p'.issued = p.issued ++ [⟨sector,.readDmaEX sector sectorCount,ByteCount⟩] ∧
      (completed = true → ∀ i, i < sectorCount * SECTOR_SIZE → i < ByteCount + 1 →
        p'.mBuffer i = device.data (device.lba ⟨sector,.readDmaEX sector sectorCount,ByteCount⟩ * SECTOR_SIZE + i)) := by
  refine ⟨_,_,rfl,rfl,⟨buffered.size,buffered.mutex⟩,rfl,?_⟩
  intro completed i inside short
  rw [count_readDmaEX small]
  simp only [completed,if_true]
  rw [fill_at (Nat.zero_le i) (by omega),Nat.sub_zero]

/-- A command completes or not as the device says, and what it reads is in the buffer. -/
theorem issue_spec (steady : Steady device lba works) {locked : Bool} (buffered : Buffered p b locked) (sector : Nat)
    (small : sectorCount < 2^16) (ByteCount : Nat) : ∃ completed p', p.issue device sector sectorCount ByteCount = (completed,p') ∧
      (completed = true ↔ works sector sectorCount) ∧ Buffered p' b locked ∧
      (completed = true → ∀ i, i < sectorCount * SECTOR_SIZE → i < ByteCount + 1 →
        p'.mBuffer i = device.data (lba sector * SECTOR_SIZE + i)) := by
  obtain ⟨completed,p',issued,answer,buffered',_,read⟩ := issue_reads device buffered sector small ByteCount
  refine ⟨completed,p',issued,by rw [answer]; exact steady.completes _ _ _ _ small,buffered',?_⟩
  intro done i inside short
  rw [read done i inside short,steady.lba]

/-- A locked port asks for as many sectors as its buffer holds. -/
theorem readFillBuffer_locked (buffered : Buffered p b true) (small : b < 2^16) (sector : Nat) :
    p.ReadFillBuffer device sector = p.issue device sector b (b * SECTOR_SIZE - 1) := by
  have whole : b * SECTOR_SIZE / 512 % 2^16 = b := by unfold SECTOR_SIZE; omega
  rw [ATAPort.ReadFillBuffer,buffered.mutex,buffered.size,whole]
  rfl

/-- Filling the buffer. -/
theorem fillTwice_spec (steady : Steady device lba works) (buffered : Buffered p b true) (small : b < 2^16) (sector : Nat) :
    ∃ filled p', p.fillTwice device sector = (filled,p') ∧ (filled = true ↔ works sector b) ∧ Buffered p' b true ∧
      (filled = true → ∀ i, i < b * SECTOR_SIZE → p'.mBuffer i = device.data (lba sector * SECTOR_SIZE + i)) := by
  obtain ⟨first,p₁,issued₁,works₁,buffered₁,read₁⟩ := issue_spec steady buffered sector small (b * SECTOR_SIZE - 1)
  rw [ATAPort.fillTwice,readFillBuffer_locked buffered small,issued₁]
  cases first with
  | true => exact ⟨true,p₁,rfl,works₁,buffered₁,fun done i inside => read₁ done i inside (by omega)⟩
  | false =>
    obtain ⟨second,p₂,issued₂,works₂,buffered₂,read₂⟩ := issue_spec steady buffered₁ sector small (b * SECTOR_SIZE - 1)
    refine ⟨second,p₂,?_,works₂,buffered₂,fun done i inside => read₂ done i inside (by omega)⟩
    simp [readFillBuffer_locked buffered₁ small,issued₂]

/-- The offset of a round that is left is one buffer further on. -/
theorem transferred_round (pos : 0 < b) (i : Nat) :
    transferred device lba b (sector + b) i = transferred device lba b sector (b * SECTOR_SIZE + i) := by
  have room : 0 < b * SECTOR_SIZE := Nat.mul_pos pos (by decide)
  have round : (b * SECTOR_SIZE + i) / (b * SECTOR_SIZE) = i / (b * SECTOR_SIZE) + 1 := by
    rw [Nat.add_comm,Nat.add_div_right i room]
  rw [transferred,transferred,round,Nat.add_mod_left,Nat.mul_add,Nat.mul_one,Nat.add_assoc,Nat.add_comm b]

/-- The bytes behind `q` full buffers are read by one command. -/
theorem transferred_at {q i : Nat} (inside : i < b * SECTOR_SIZE) :
    transferred device lba b sector (q * (b * SECTOR_SIZE) + i) = device.data (lba (sector + b * q) * SECTOR_SIZE + i) := by
  have room : 0 < b * SECTOR_SIZE := by omega
  rw [transferred,Nat.add_comm (q * _) i,Nat.add_mul_div_right i q room,Nat.add_mul_mod_self_right,Nat.div_eq_of_lt inside,
    Nat.mod_eq_of_lt inside,Nat.zero_add]

theorem transferred_first {i : Nat} (inside : i < b * SECTOR_SIZE) :
    transferred device lba b sector i = device.data (lba sector * SECTOR_SIZE + i) := by
  have first : transferred device lba b sector (0 * (b * SECTOR_SIZE) + i) = device.data (lba (sector + b * 0) * SECTOR_SIZE + i) :=
    transferred_at inside
  rwa [Nat.zero_mul,Nat.zero_add,Nat.mul_zero,Nat.add_zero] at first

/-- The first round and those that are left. -/
theorem all_rounds : (∀ k < n+1, works (sector + b * k) b) ↔ works sector b ∧ ∀ k < n, works (sector + b + b * k) b := by
  have shift : ∀ k, sector + b * (k+1) = sector + b + b * k := by
    intro k
    rw [Nat.mul_succ]
    omega
  constructor
  · intro all
    refine ⟨all 0 (by omega),?_⟩
    intro k small
    rw [← shift]
    exact all (k+1) (by omega)
  · rintro ⟨first,later⟩ k small
    cases k with
    | zero => exact first
    | succ k =>
      rw [shift]
      exact later k (by omega)

/-- The loop gets through when all of its commands complete. -/
theorem fillLoop_spec (steady : Steady device lba works) (buffered : Buffered p b true) (small : b < 2^16) (pos : 0 < b)
    (word : sector + b * n < 2^64) (m : Mem) (buffer : Nat) : ∃ filled p' m' sector' buffer',
      p.fillLoop device b m sector buffer n = (filled,p',m',sector',buffer') ∧ Buffered p' b true ∧
      (filled = true ↔ ∀ k < n, works (sector + b * k) b) ∧
      (filled = true → m' = fill m buffer (n * (b * SECTOR_SIZE)) (transferred device lba b sector) ∧
        sector' = sector + b * n ∧ buffer' = buffer + n * (b * SECTOR_SIZE)) := by
  induction n generalizing p m sector buffer with
  | zero =>
    refine ⟨true,p,m,sector,buffer,rfl,buffered,by simp,fun _ => ⟨?_,by omega,by omega⟩⟩
    rw [Nat.zero_mul,fill_zero]
  | succ n ih =>
    obtain ⟨filled,p₁,done,first,buffered₁,read⟩ := fillTwice_spec steady buffered small sector
    rw [ATAPort.fillLoop,done]
    cases filled with
    | false =>
      refine ⟨false,p₁,m,sector,buffer,rfl,buffered₁,?_,fun none => by cases none⟩
      exact ⟨fun none => (by cases none),fun all => first.mpr (all 0 (by omega))⟩
    | true =>
      have product : b * (n+1) = b + b * n := by rw [Nat.mul_succ,Nat.add_comm]
      have next : wrap (sector + b) = sector + b := wrap_of_lt (by omega)
      have word' : sector + b + b * n < 2^64 := by omega
      obtain ⟨filled,p',m',sector',buffer',later,buffered',rest,spec⟩ := ih buffered₁ word' (fill m buffer p₁.mBufferSize p₁.mBuffer)
        (buffer + p₁.mBufferSize)
      refine ⟨filled,p',m',sector',buffer',?_,buffered',?_,?_⟩
      · simp only [next]
        exact later
      · rw [rest,all_rounds]
        exact (and_iff_right (first.mp rfl)).symm
      · intro filled
        obtain ⟨memory,sectors,buffers⟩ := spec filled
        rw [buffered₁.size] at memory buffers
        refine ⟨?_,by omega,by rw [buffers,Nat.succ_mul]; omega⟩
        have copied : fill m buffer (b * SECTOR_SIZE) p₁.mBuffer = fill m buffer (b * SECTOR_SIZE) (transferred device lba b sector) :=
          fill_congr (fun i inside => by rw [read rfl i inside,transferred_first inside])
        have shifted : transferred device lba b (sector + b) = fun i => transferred device lba b sector (b * SECTOR_SIZE + i) := by
          funext i
          exact transferred_round pos i
        rw [memory,copied,shifted,fill_append,Nat.succ_mul,Nat.add_comm (n * _)]

/-- All commands of a transfer complete. -/
def Completes (works : Nat → Nat → Prop) (b sector sectorCount : Nat) : Prop :=
  (∀ k < sectorCount / b, works (sector + b * k) b) ∧
    (sectorCount % b ≠ 0 → works (sector + b * (sectorCount / b)) (sectorCount % b))

/-- How many bytes a transfer copies when `last` of them come from the last command. -/
def copied (b sectorCount : Nat) (last : Nat) : Nat :=
  sectorCount / b * (b * SECTOR_SIZE) + if sectorCount % b = 0 then 0 else last

/-- A transfer fills the buffer for each whole part, and issues one more command for what is left. -/
theorem readSectors_eq (device : Device) (tail : Nat → Nat → Nat) (buffered : Buffered p b false) (pos : 0 < b) (m : Mem)
    (sector sectorCount buffer : Nat) : ∃ locked, Buffered locked b true ∧ locked.issued = p.issued ∧
      p.readSectors device m sector sectorCount tail buffer =
        match locked.fillLoop device b m sector buffer (sectorCount / b) with
        | (false,p,m,_,_) => some (false,p.Unlock,m)
        | (true,p,m,sectorOffset,bufferOffset) =>
          if sectorCount % b = 0 then some (true,p.Unlock,m)
          else match p.issue device sectorOffset (sectorCount % b) (sectorCount % b * SECTOR_SIZE - 1) with
            | (true,p) => some (true,p.Unlock,fill m bufferOffset (tail (b * (sectorCount / b)) (sectorCount % b)) p.mBuffer)
            | (false,p) => some (false,p.Unlock,m) := by
  have sectors : p.mBufferSize / SECTOR_SIZE = b := by
    rw [buffered.size]
    exact Nat.mul_div_cancel b (by decide)
  have left : sectorCount - b * (sectorCount / b) = sectorCount % b := by
    have parts := Nat.div_add_mod sectorCount b
    omega
  refine ⟨{ p with mMutex := true },⟨buffered.size,rfl⟩,rfl,?_⟩
  simp only [ATAPort.readSectors,ATAPort.Lock,buffered.mutex,Bool.false_eq_true,if_false,Option.bind_eq_bind,Option.bind_some,sectors,
    if_neg (Nat.ne_of_gt pos),left]
  rcases ATAPort.fillLoop device b { p with mMutex := true } m sector buffer (sectorCount / b) with ⟨filled,p₁,m₁,sector₁,buffer₁⟩
  cases filled with
  | false => rfl
  | true =>
    simp only [Bool.not_true,Bool.false_eq_true,if_false]
    rcases p₁.issue device sector₁ (sectorCount % b) (sectorCount % b * SECTOR_SIZE - 1) with ⟨completed,p₂⟩
    cases completed <;> rfl

/-- A transfer succeeds when all of its commands complete, and has then copied what they read. -/
theorem readSectors_spec (tail : Nat → Nat → Nat) (steady : Steady device lba works) (buffered : Buffered p b false)
    (small : b < 2^16) (pos : 0 < b) (word : sector + sectorCount < 2^64)
    (short : sectorCount % b ≠ 0 → tail (b * (sectorCount / b)) (sectorCount % b) ≤ sectorCount % b * SECTOR_SIZE)
    (m : Mem) (buffer : Nat) : ∃ done p' m',
      p.readSectors device m sector sectorCount tail buffer = some (done,p',m') ∧ Buffered p' b false ∧
      (done = true ↔ Completes works b sector sectorCount) ∧
      (done = true → m' = fill m buffer (copied b sectorCount (tail (b * (sectorCount / b)) (sectorCount % b)))
        (transferred device lba b sector)) := by
  obtain ⟨locked,buffered₀,_,whole⟩ := readSectors_eq device tail buffered pos m sector sectorCount buffer
  have product : b * (sectorCount / b) ≤ sectorCount := Nat.mul_div_le sectorCount b
  have word₁ : sector + b * (sectorCount / b) < 2^64 := by omega
  obtain ⟨filled,p₁,m₁,sector₁,buffer₁,looped,buffered₁,works₁,memory₁⟩ := fillLoop_spec steady buffered₀ small pos word₁ m buffer
  have unlock : ∀ {p : ATAPort}, Buffered p b true → Buffered p.Unlock b false := fun buffered => ⟨buffered.size,rfl⟩
  rw [whole,looped]
  cases filled with
  | false =>
    refine ⟨false,p₁.Unlock,m₁,rfl,unlock buffered₁,?_,fun none => (by cases none)⟩
    exact ⟨fun none => (by cases none),fun all => works₁.mpr all.1⟩
  | true =>
    obtain ⟨rfl,rfl,rfl⟩ := memory₁ rfl
    by_cases last : sectorCount % b = 0
    · refine ⟨true,p₁.Unlock,_,if_pos last,unlock buffered₁,⟨fun _ => ⟨works₁.mp rfl,fun more => absurd last more⟩,fun _ => rfl⟩,?_⟩
      intro _
      rw [copied,if_pos last,Nat.add_zero]
    · have less : sectorCount % b < 2^16 := Nat.lt_trans (Nat.mod_lt _ pos) small
      obtain ⟨completed,p₂,issued,works₂,buffered₂,read₂⟩ := issue_spec steady buffered₁ (sector + b * (sectorCount / b)) less
        (sectorCount % b * SECTOR_SIZE - 1)
      have all : completed = true ↔ Completes works b sector sectorCount :=
        ⟨fun done => ⟨works₁.mp rfl,fun _ => works₂.mp done⟩,fun all => works₂.mpr (all.2 last)⟩
      simp only [if_neg last,issued]
      cases completed with
      | false => exact ⟨false,p₂.Unlock,_,rfl,unlock buffered₂,all,fun none => (by cases none)⟩
      | true =>
        refine ⟨true,p₂.Unlock,_,rfl,unlock buffered₂,all,?_⟩
        intro _
        have short := short last
        have inside : sectorCount % b * SECTOR_SIZE ≤ b * SECTOR_SIZE :=
          Nat.mul_le_mul_right _ (Nat.le_of_lt (Nat.mod_lt _ pos))
        rw [copied,if_neg last,← fill_append]
        apply fill_congr
        intro i small
        rw [read₂ rfl i (by omega) (by omega),transferred_at (by omega)]

/-- The last command of `Read` copies all that is left. -/
theorem copied_sectors : copied b sectorCount (sectorCount % b * SECTOR_SIZE) = sectorCount * SECTOR_SIZE := by
  have rest : (if sectorCount % b = 0 then 0 else sectorCount % b * SECTOR_SIZE) = sectorCount % b * SECTOR_SIZE := by
    by_cases whole : sectorCount % b = 0
    · rw [if_pos whole,whole,Nat.zero_mul]
    · rw [if_neg whole]
  rw [copied,rest,← Nat.mul_assoc,← Nat.add_mul,Nat.mul_comm (sectorCount / b),Nat.div_add_mod]

/-- `Read` copies all of the sectors. -/
theorem read_spec (steady : Steady device lba works) (buffered : Buffered p b false) (small : b < 2^16) (pos : 0 < b)
    (some_sectors : sectorCount ≠ 0) (sectors : sector + sectorCount < 2^64) (m : Mem) (buffer : Nat) :
    ∃ done p' m', p.Read device m sector sectorCount buffer = some (done,p',m') ∧ Buffered p' b false ∧
      (done = true ↔ Completes works b sector sectorCount) ∧
      (done = true → m' = fill m buffer (sectorCount * SECTOR_SIZE) (transferred device lba b sector)) := by
  obtain ⟨done,p',m',returned,buffered',completes,memory⟩ := readSectors_spec (fun _ rest => rest * SECTOR_SIZE) steady buffered
    small pos sectors (fun _ => Nat.le_refl _) m buffer
  refine ⟨done,p',m',?_,buffered',completes,?_⟩
  · rw [ATAPort.Read,if_neg some_sectors]
    exact returned
  · rw [← copied_sectors (b := b)]
    exact memory

/-- What `ReadBytes` copies: where its last sectors fill the buffer, all of their bytes. -/
def copiedBytes (b bytecount : Nat) : Nat :=
  if (bytecount / SECTOR_SIZE + 1) % b = 0 then (bytecount / SECTOR_SIZE + 1) * SECTOR_SIZE else bytecount

/-- The bytes that `ReadBytes` has left for its last command. -/
theorem bytes_left {bytecount : Nat} (word : bytecount < 2^32) (more : (bytecount / SECTOR_SIZE + 1) % b ≠ 0) :
    b * ((bytecount / SECTOR_SIZE + 1) / b) * SECTOR_SIZE ≤ bytecount ∧
      (bytecount + 2^32 - b * ((bytecount / SECTOR_SIZE + 1) / b) * SECTOR_SIZE) % 2^32 =
        bytecount - b * ((bytecount / SECTOR_SIZE + 1) / b) * SECTOR_SIZE := by
  have parts := Nat.div_add_mod (bytecount / SECTOR_SIZE + 1) b
  have inside : b * ((bytecount / SECTOR_SIZE + 1) / b) * SECTOR_SIZE ≤ bytecount := by
    simp only [SECTOR_SIZE] at parts more ⊢
    omega
  refine ⟨inside,?_⟩
  omega

/-- They are in the sectors of that command. -/
theorem bytes_left_short {bytecount : Nat} (word : bytecount < 2^32) (more : (bytecount / SECTOR_SIZE + 1) % b ≠ 0) :
    (bytecount + 2^32 - b * ((bytecount / SECTOR_SIZE + 1) / b) * SECTOR_SIZE) % 2^32 ≤ (bytecount / SECTOR_SIZE + 1) % b * SECTOR_SIZE := by
  have parts := Nat.div_add_mod (bytecount / SECTOR_SIZE + 1) b
  rw [(bytes_left word more).2]
  simp only [SECTOR_SIZE] at parts ⊢
  omega

theorem copied_bytes {bytecount : Nat} (word : bytecount < 2^32) :
    copied b (bytecount / SECTOR_SIZE + 1) ((bytecount + 2^32 - b * ((bytecount / SECTOR_SIZE + 1) / b) * SECTOR_SIZE) % 2^32) =
      copiedBytes b bytecount := by
  have parts := Nat.div_add_mod (bytecount / SECTOR_SIZE + 1) b
  have product : (bytecount / SECTOR_SIZE + 1) / b * (b * SECTOR_SIZE) = b * ((bytecount / SECTOR_SIZE + 1) / b) * SECTOR_SIZE := by
    rw [Nat.mul_left_comm,Nat.mul_assoc]
  rw [copied,copiedBytes,product]
  by_cases last : (bytecount / SECTOR_SIZE + 1) % b = 0
  · rw [if_pos last,if_pos last]
    rw [last,Nat.add_zero] at parts
    rw [parts,Nat.add_zero]
  · obtain ⟨inside,left⟩ := bytes_left word last
    rw [if_neg last,if_neg last,left]
    omega

theorem readBytes_spec {bytecount : Nat} (steady : Steady device lba works) (buffered : Buffered p b false) (small : b < 2^16)
    (pos : 0 < b) (some_bytes : bytecount ≠ 0) (word : bytecount < 2^32) (sectors : sector + (bytecount / SECTOR_SIZE + 1) < 2^64)
    (m : Mem) (buffer : Nat) : ∃ done p' m', p.ReadBytes device m sector bytecount buffer = some (done,p',m') ∧ Buffered p' b false ∧
      (done = true ↔ Completes works b sector (bytecount / SECTOR_SIZE + 1)) ∧
      (done = true → m' = fill m buffer (copiedBytes b bytecount) (transferred device lba b sector)) := by
  obtain ⟨done,p',m',returned,buffered',completes,memory⟩ := readSectors_spec
    (fun read _ => (bytecount + 2^32 - read * SECTOR_SIZE) % 2^32) steady buffered small pos sectors (bytes_left_short word) m buffer
  refine ⟨done,p',m',by rw [ATAPort.ReadBytes,if_neg some_bytes]; exact returned,buffered',completes,?_⟩
  intro done
  rw [← copied_bytes word]
  exact memory done

end WaifuOS.AHCI
