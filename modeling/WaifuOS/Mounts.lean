import WaifuOS.FileReads
import WaifuOS.Lists

/-!
The constructor of `FSDriver`. It reads the boot record and the sector of `FSInfo`, checks
their signatures, computes where the data of the volume is and how many clusters it has,
and rejects volumes with few clusters. Only these numbers are checked, after they were
computed with 32 bits. `construct_consistent_iff` says when the numbers of a driver that was added
to `Drives` are those of a volume: when its sectors have 512 bytes and the data does not
begin behind the last sector.
-/
namespace WaifuOS.FAT32
open WaifuOS.Bytes WaifuOS.AHCI

def BOOT_SIG : Nat := 0xAA55

namespace FSInfo

def LEAD_SIG : Nat := 0x41615252

def MID_SIG : Nat := 0x61417272

def TRAIL_SIG : Nat := 0xAA550000

end FSInfo

/-- The fields of a boot record in memory that the driver computes with. -/
def EBR.read (m : Mem) (mBootRecord : Nat) : EBR where
  SectorSizeBytes := load m (mBootRecord + 11) 2
  SectorsPerCluster := load m (mBootRecord + 13) 1
  NumReservedSectors := load m (mBootRecord + 14) 2
  NumFAT := load m (mBootRecord + 16) 1
  SectorCount := load m (mBootRecord + 19) 2
  LargeSectorCount := load m (mBootRecord + 32) 4
  SectorsPerFAT32 := load m (mBootRecord + 36) 4
  RootClusterStart := load m (mBootRecord + 44) 4

/-- The signatures of a boot record in memory. -/
def signed (m : Mem) (mBootRecord : Nat) : Bool :=
  let BootSignature := load m (mBootRecord + 510) 2
  let Signature := load m (mBootRecord + 66) 1
  BootSignature = BOOT_SIG ∧ (Signature = 0x28 ∨ Signature = 0x29)

/-- The signatures of an `FSInfo` in memory. -/
def FSInfo.signed (m : Mem) (mFSInfo : Nat) : Bool :=
  load m mFSInfo 4 = LEAD_SIG ∧ load m (mFSInfo + 484) 4 = MID_SIG ∧ load m (mFSInfo + 508) 4 = TRAIL_SIG

/-- The driver with all that the constructor computes. -/
structure Geometry extends FSDriver where
  mTotalSectors : Nat
  mFatSizeSectors : Nat
  mFirstFatSector : Nat
  mFirstRootDirSector : Nat
  mTotalDataSectors : Nat
  mTotalClusters : Nat

/-- Why a drive is rejected, in the order of the checks. -/
inductive Rejection
  | bootUnread | bootInvalid | infoUnread | infoInvalid | exFAT | FAT12 | FAT16
  deriving DecidableEq

/-- The second half of the constructor: what it computes from the boot record, and its last checks. A
    volume without sectors in a cluster makes it divide by zero. -/
def calculate (mDriveID : Nat) (ebr : EBR) : Option (Except Rejection Geometry) :=
  let mTotalSectors := ebr.totalSectors
  let mFatSizeSectors := ebr.SectorsPerFAT32
  let mFirstDataSector := (ebr.NumReservedSectors + ebr.NumFAT * mFatSizeSectors) % 2^32
  let mTotalDataSectors := (mTotalSectors + 2^32 - (ebr.NumReservedSectors + ebr.NumFAT * mFatSizeSectors) % 2^32) % 2^32
  if ebr.SectorsPerCluster = 0 then none
  else
    let mTotalClusters := mTotalDataSectors / ebr.SectorsPerCluster
    let driver : FSDriver := { mDriveID, mFirstDataSector, mBootRecord := ebr }
    if ebr.SectorSizeBytes = 0 then some (.error .exFAT)
    else if mTotalClusters < 4085 then some (.error .FAT12)
    else if mTotalClusters < 65525 then some (.error .FAT16)
    else some (.ok
      { driver with
        mTotalSectors
        mFatSizeSectors
        mFirstFatSector := ebr.NumReservedSectors
        mFirstRootDirSector := driver.GetFirstSectorOfCluster ebr.RootClusterStart
        mTotalDataSectors
        mTotalClusters })

/-- What the constructor leaves: the driver or why it was rejected, and the port, the memory and the globals. -/
structure Constructed where
  result : Except Rejection Geometry
  port : ATAPort
  memory : Mem
  sNextDriveID : Nat
  Drives : KernelList Nat

/-- The constructor, with the two objects that it allocates and its own address. A drive that is
    rejected is destroyed at once. -/
def construct (device : Device) (p : ATAPort) (m : Mem) (mBootRecord mFSInfo this sNextDriveID : Nat) (Drives : KernelList Nat) :
    Option Constructed :=
  let destroy (reason : Rejection) (p : ATAPort) (m : Mem) := some ⟨.error reason,p,m,sNextDriveID,Drives.Remove this⟩
  do
    let (read,p,m) ← p.Read device m 0 1 mBootRecord
    if !read then destroy .bootUnread p m
    else if !signed m mBootRecord ∨ (EBR.read m mBootRecord).SectorsPerFAT32 = 0 then destroy .bootInvalid p m
    else
      let FSInfoSector := load m (mBootRecord + 48) 2
      let (read,p,m) ← p.Read device m FSInfoSector 1 mFSInfo
      if !read then destroy .infoUnread p m
      else if !FSInfo.signed m mFSInfo then destroy .infoInvalid p m
      else
        match ← calculate sNextDriveID (EBR.read m mBootRecord) with
        | .error reason => destroy reason p m
        | .ok d => some ⟨.ok d,p,m,(sNextDriveID + 1) % 2^16,Drives.Add this⟩

/-- The geometry is that of a volume with sectors of 512 bytes. -/
structure Geometry.Consistent (d : Geometry) : Prop where
  cluster : 1 ≤ d.mBootRecord.SectorsPerCluster
  sectorSize : d.mBootRecord.SectorSizeBytes = SECTOR_SIZE
  inside : d.mFirstDataSector + d.mTotalClusters * d.mBootRecord.SectorsPerCluster ≤ d.mTotalSectors

instance (d : Geometry) : Decidable d.Consistent :=
  decidable_of_iff (1 ≤ d.mBootRecord.SectorsPerCluster ∧ d.mBootRecord.SectorSizeBytes = SECTOR_SIZE ∧
      d.mFirstDataSector + d.mTotalClusters * d.mBootRecord.SectorsPerCluster ≤ d.mTotalSectors)
    ⟨fun ⟨cluster,sectorSize,inside⟩ => ⟨cluster,sectorSize,inside⟩,fun c => ⟨c.cluster,c.sectorSize,c.inside⟩⟩

variable {device : Device} {p p' : ATAPort} {m m' : Mem} {mBootRecord mFSInfo this sNextDriveID : Nat} {Drives : KernelList Nat}
  {d : Geometry} {ebr : EBR} {id : Nat} {built : Constructed}

/-- What is known of numbers that pass the checks. -/
theorem calculate_ok (accepted : calculate id ebr = some (.ok d)) :
    d.toFSDriver = .mount id ebr ∧ d.mTotalSectors = ebr.totalSectors ∧ 0 < ebr.SectorsPerCluster ∧
      d.mTotalClusters = (ebr.totalSectors + 2^32 - ebr.firstDataSector % 2^32) % 2^32 / ebr.SectorsPerCluster := by
  by_cases zero : ebr.SectorsPerCluster = 0
  · rw [calculate,if_pos zero] at accepted
    cases accepted
  simp only [calculate,if_neg zero] at accepted
  split at accepted
  · cases accepted
  split at accepted
  · cases accepted
  split at accepted
  · cases accepted
  cases accepted
  exact ⟨rfl,rfl,Nat.pos_of_ne_zero zero,rfl⟩

theorem calculate_root (accepted : calculate id ebr = some (.ok d)) :
    d.mFirstRootDirSector = (FSDriver.mount id ebr).GetFirstSectorOfCluster ebr.RootClusterStart := by
  by_cases zero : ebr.SectorsPerCluster = 0
  · rw [calculate,if_pos zero] at accepted
    cases accepted
  simp only [calculate,if_neg zero] at accepted
  split at accepted
  · cases accepted
  split at accepted
  · cases accepted
  split at accepted
  · cases accepted
  cases accepted
  rfl

/-- A driver is added to `Drives` when it was built from the boot record in memory. -/
theorem construct_ok (done : construct device p m mBootRecord mFSInfo this sNextDriveID Drives = some built)
    (accepted : built.result = .ok d) : calculate sNextDriveID (EBR.read built.memory mBootRecord) = some (.ok d) ∧
      built.Drives = Drives.Add this := by
  simp only [construct,Option.bind_eq_bind,Option.bind_eq_some_iff] at done
  obtain ⟨⟨read,p₁,m₁⟩,_,done⟩ := done
  dsimp only at done
  split at done
  · cases done
    cases accepted
  split at done
  · cases done
    cases accepted
  obtain ⟨⟨read,p₂,m₂⟩,_,done⟩ := Option.bind_eq_some_iff.mp done
  dsimp only at done
  split at done
  · cases done
    cases accepted
  split at done
  · cases done
    cases accepted
  obtain ⟨result,calculated,done⟩ := Option.bind_eq_some_iff.mp done
  cases result with
  | error reason =>
    cases done
    cases accepted
  | ok d' =>
    cases done
    cases accepted
    exact ⟨calculated,rfl⟩

/-- The geometry of a driver that was added is consistent when its sectors have 512 bytes and its
    data begins on the volume. -/
theorem construct_consistent_iff (done : construct device p m mBootRecord mFSInfo this sNextDriveID Drives = some built)
    (accepted : built.result = .ok d) : d.Consistent ↔
      d.mBootRecord.SectorSizeBytes = SECTOR_SIZE ∧ d.mBootRecord.firstDataSector % 2^32 ≤ d.mBootRecord.totalSectors := by
  obtain ⟨driver,sectors,pos,clusters⟩ := calculate_ok (construct_ok done accepted).1
  generalize EBR.read built.memory mBootRecord = ebr at driver sectors pos clusters
  have record : d.mBootRecord = ebr := congrArg FSDriver.mBootRecord driver
  have first : d.mFirstDataSector = ebr.firstDataSector % 2^32 := congrArg FSDriver.mFirstDataSector driver
  rw [record]
  constructor
  · rintro ⟨_,sectorSize,inside⟩
    rw [record] at sectorSize
    rw [first,sectors] at inside
    exact ⟨sectorSize,Nat.le_trans (Nat.le_add_right _ _) inside⟩
  · rintro ⟨sectorSize,begins⟩
    refine ⟨by rw [record]; exact pos,by rw [record]; exact sectorSize,?_⟩
    rw [record,first,sectors,clusters]
    have room : (ebr.totalSectors + 2^32 - ebr.firstDataSector % 2^32) % 2^32 ≤ ebr.totalSectors - ebr.firstDataSector % 2^32 := by
      rw [show ebr.totalSectors + 2^32 - ebr.firstDataSector % 2^32 = ebr.totalSectors - ebr.firstDataSector % 2^32 + 2^32 by omega,
        Nat.add_mod_right]
      exact Nat.mod_le _ _
    have whole := Nat.div_mul_le_self ((ebr.totalSectors + 2^32 - ebr.firstDataSector % 2^32) % 2^32) ebr.SectorsPerCluster
    omega

/-- A disk with a boot record of sectors with 512 bytes, 32 reserved sectors, two tables of 512 sectors and
    the given bytes of `LargeSectorCount`. -/
def bootDisk (LargeSectorCount : List (BitVec 8)) : Disk where
  data i := match i with
    | 12 => 2 | 13 => 1 | 14 => 32 | 16 => 2 | 37 => 2 | 44 => 2 | 48 => 1 | 66 => 0x29 | 510 => 0x55 | 511 => 0xAA
    | 512 => 0x52 | 513 => 0x52 | 514 => 0x61 | 515 => 0x41
    | 996 => 0x72 | 997 => 0x72 | 998 => 0x41 | 999 => 0x61
    | 1022 => 0x55 | 1023 => 0xAA
    | i => if 32 ≤ i ∧ i < 36 then LargeSectorCount.getD (i-32) 0 else 0
  capacity := 66581

/-- The constructor on a disk. -/
def constructOn (disk : Disk) : Option Constructed := construct disk.device idlePort (fun _ => 0) 0x130000 0x131000 0x132000 0 .empty

/-- Whether a driver is added, and with a consistent geometry. -/
def added (built : Option Constructed) : Option Bool :=
  match built with
  | some ⟨.ok d,_,_,_,_⟩ => some (decide d.Consistent)
  | _ => none

theorem added_some {built : Option Constructed} {consistent : Bool} (isAdded : added built = some consistent) :
    ∃ b d, built = some b ∧ b.result = .ok d ∧ decide d.Consistent = consistent := by
  simp only [added] at isAdded
  split at isAdded
  · next d p m next drives => exact ⟨_,d,rfl,rfl,Option.some.inj isAdded⟩
  · cases isAdded

theorem construct_consistent_iff_small : ∃ b d, constructOn (bootDisk [0x15,0x04,0x01,0x00]) = some b ∧ b.result = .ok d ∧
    d.mBootRecord.firstDataSector % 2^32 ≤ d.mBootRecord.totalSectors := by
  have isAdded : added (constructOn (bootDisk [0x15,0x04,0x01,0x00])) = some true := by decide +kernel
  obtain ⟨b,d,done,accepted,consistent⟩ := added_some isAdded
  exact ⟨b,d,done,accepted,((construct_consistent_iff done accepted).mp (of_decide_eq_true consistent)).2⟩

/-- A volume without sectors is added, since its number of data sectors wraps. -/
theorem construct_inconsistent : ∃ b d, constructOn (bootDisk []) = some b ∧ b.result = .ok d ∧ ¬ d.Consistent := by
  have isAdded : added (constructOn (bootDisk [])) = some false := by decide +kernel
  obtain ⟨b,d,done,accepted,consistent⟩ := added_some isAdded
  exact ⟨b,d,done,accepted,of_decide_eq_false consistent⟩

end WaifuOS.FAT32
