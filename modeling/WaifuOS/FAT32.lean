import WaifuOS.AHCI

/-!
FAT32 volumes and the driver `FSDriver` of `FAT32.cpp`. The driver computes sectors
from clusters with 32 bits and reads them through the port of its drive. A volume is a
disk whose boot record tells where its table and its clusters are (`WellFormed`); the
table links the clusters of a file or a directory (`Chain`), and on a well-formed volume
the driver computes their sectors exactly (`firstSector_eq`).
-/
namespace WaifuOS.FAT32
open WaifuOS.Bytes WaifuOS.AHCI

inductive Status
  | Ok | Error | NotFound | BadPath | BadVolume | ReadError
  deriving DecidableEq

/-- The fields of the boot record that the driver computes with. -/
structure EBR where
  SectorSizeBytes : Nat
  SectorsPerCluster : Nat
  NumReservedSectors : Nat
  NumFAT : Nat
  SectorCount : Nat
  LargeSectorCount : Nat
  SectorsPerFAT32 : Nat
  RootClusterStart : Nat

structure EntryInfo where
  EntryAttributes : Nat
  CreationTimestampTS : Nat
  CreationTimestampHMS : Nat
  CreationTimestampDate : Nat
  LastAccessDate : Nat
  ModificationTimestampHMS : Nat
  ModificationTimestampDate : Nat
  EntryFirstClusterLow : Nat
  EntryFirstClusterHigh : Nat
  FileSize : Nat
  DriveID : Nat
  /-- The long name; `none` is `nullptr`. -/
  wEntryName : Option (List Nat)
  ShortName : List (BitVec 8)
  ShortExt : List (BitVec 8)

/-- `EntryFirstClusterLow | u32(EntryFirstClusterHigh) << 16`. -/
def EntryInfo.firstCluster (info : EntryInfo) : Nat := info.EntryFirstClusterLow ||| (info.EntryFirstClusterHigh <<< 16) % 2^32

structure FSDriver where
  mDriveID : Nat
  mFirstDataSector : Nat
  mBootRecord : EBR

namespace FSDriver

/-- The driver that the constructor builds from a boot record it accepts. -/
def mount (mDriveID : Nat) (ebr : EBR) : FSDriver where
  mDriveID := mDriveID
  mFirstDataSector := (ebr.NumReservedSectors + ebr.NumFAT * ebr.SectorsPerFAT32) % 2^32
  mBootRecord := ebr

def GetFirstSectorOfCluster (d : FSDriver) (cluster : Nat) : Nat :=
  ((cluster + 2^32 - 2) % 2^32 * d.mBootRecord.SectorsPerCluster % 2^32 + d.mFirstDataSector) % 2^32

/-- A read, and once more if it fails. -/
def twice (read : ATAPort → Mem → Option (Bool × ATAPort × Mem)) (p : ATAPort) (m : Mem) : Option (Bool × ATAPort × Mem) := do
  let (done,p,m) ← read p m
  if !done then read p m else some (true,p,m)

def ReadCluster (d : FSDriver) (device : Device) (p : ATAPort) (m : Mem) (cluster buffer : Nat) : Option (Bool × ATAPort × Mem) :=
  let sector := d.GetFirstSectorOfCluster cluster
  twice (fun p m => p.Read device m sector d.mBootRecord.SectorsPerCluster buffer) p m

def ReadFile (d : FSDriver) (device : Device) (p : ATAPort) (m : Mem) (info : EntryInfo) (out numBytes : Nat) :
    Option (Bool × ATAPort × Mem) :=
  let sector := d.GetFirstSectorOfCluster info.firstCluster
  let min := if numBytes > info.FileSize then info.FileSize else numBytes
  twice (fun p m => p.ReadBytes device m sector min out) p m

end FSDriver

/-- The bytes of a disk, and how many sectors it has. -/
structure Disk where
  data : Nat → BitVec 8
  capacity : Nat

/-- The sector that is read when the port is asked for `sector`. -/
def lba (sector : Nat) : Nat := sector % 2^24 + 2^24 * (sector / 2^32 % 2^24)

/-- A read inside the disk. -/
def Disk.Works (disk : Disk) (sector sectorCount : Nat) : Prop := lba sector + sectorCount ≤ disk.capacity

/-- A working disk behind the port: it reads what the FIS asks for, when it is there. -/
def Disk.device (disk : Disk) : Device where
  data := disk.data
  lba := fun command => command.fis.lba
  completes := fun _ command => decide (command.fis.lba + command.fis.count ≤ disk.capacity)

/-- The byte of the disk that a transfer from `sector` on has at the offset `i`: the transfer
    asks for every eighth sector, and the disk goes on from the sector it decodes. -/
def Disk.readByte (disk : Disk) (sector i : Nat) : BitVec 8 :=
  disk.data (lba (sector + 8 * (i / (8 * SECTOR_SIZE))) * SECTOR_SIZE + i % (8 * SECTOR_SIZE))

theorem Disk.steady (disk : Disk) : Steady disk.device lba disk.Works where
  lba _ _ _ := lba_readDmaEX
  completes earlier sector sectorCount ByteCount small := by
    have decoded : (FIS_REG_H2D.readDmaEX sector sectorCount).lba = lba sector := lba_readDmaEX
    simp [Disk.device,Disk.Works,count_readDmaEX small,decoded]

variable {disk : Disk} {ebr : EBR} {c sector : Nat} {cs : List Nat}

theorem lba_of_lt (low : sector < 2^24) : lba sector = sector := by
  simp only [lba]
  omega

/-- A transfer from a sector among the first 2^24 on reads the disk byte for byte. -/
theorem readByte_of_lt {i : Nat} (low : sector + (i / SECTOR_SIZE + 1) ≤ 2^24) :
    disk.readByte sector i = disk.data (sector * SECTOR_SIZE + i) := by
  simp only [SECTOR_SIZE] at low
  have fill : lba (sector + 8 * (i / (8 * SECTOR_SIZE))) = sector + 8 * (i / (8 * SECTOR_SIZE)) := by
    apply lba_of_lt
    simp only [SECTOR_SIZE]
    omega
  have position : (sector + 8 * (i / (8 * SECTOR_SIZE))) * SECTOR_SIZE + i % (8 * SECTOR_SIZE) = sector * SECTOR_SIZE + i := by
    simp only [SECTOR_SIZE]
    omega
  rw [Disk.readByte,fill,position]

namespace EBR

def firstDataSector (ebr : EBR) : Nat := ebr.NumReservedSectors + ebr.NumFAT * ebr.SectorsPerFAT32

def totalSectors (ebr : EBR) : Nat := if ebr.SectorCount = 0 then ebr.LargeSectorCount else ebr.SectorCount

def totalClusters (ebr : EBR) : Nat := (ebr.totalSectors - ebr.firstDataSector) / ebr.SectorsPerCluster

def clusterBytes (ebr : EBR) : Nat := ebr.SectorsPerCluster * SECTOR_SIZE

/-- The numbers of clusters. -/
def Cluster (ebr : EBR) (c : Nat) : Prop := 2 ≤ c ∧ c < ebr.totalClusters + 2

/-- Where a cluster is on the disk. -/
def firstSector (ebr : EBR) (c : Nat) : Nat := ebr.firstDataSector + (c-2) * ebr.SectorsPerCluster

end EBR

/-- What the table says about a cluster, in 28 bits. -/
def Disk.next (disk : Disk) (ebr : EBR) (c : Nat) : Nat := load disk.data (ebr.NumReservedSectors * SECTOR_SIZE + 4 * c) 4 % 2^28

/-- The byte `i` of a cluster. -/
def Disk.clusterByte (disk : Disk) (ebr : EBR) (c i : Nat) : BitVec 8 := disk.data (ebr.firstSector c * SECTOR_SIZE + i)

/-- The clusters of a file or a directory, from its first one on. -/
inductive Chain (disk : Disk) (ebr : EBR) : Nat → List Nat → Prop
  | last {c : Nat} (cluster : ebr.Cluster c) (ends : 0x0FFFFFF8 ≤ disk.next ebr c) : Chain disk ebr c [c]
  | next {c : Nat} {cs : List Nat} (cluster : ebr.Cluster c) (later : Chain disk ebr (disk.next ebr c) cs) : Chain disk ebr c (c :: cs)

/-- The bytes of the clusters one after another. -/
def Disk.contents (disk : Disk) (ebr : EBR) (clusters : List Nat) : List (BitVec 8) :=
  clusters.flatMap (fun c => (List.range ebr.clusterBytes).map (disk.clusterByte ebr c))

/-- The boot record is that of a FAT32 volume with sectors of 512 bytes that lies on the disk. -/
structure WellFormed (disk : Disk) (ebr : EBR) : Prop where
  sectorSize : ebr.SectorSizeBytes = SECTOR_SIZE
  clusterSize : ∃ k ≤ 7, ebr.SectorsPerCluster = 2^k
  reserved : 0 < ebr.NumReservedSectors
  clusters : 65525 ≤ ebr.totalClusters ∧ ebr.totalClusters < 0x0FFFFFF5
  table : 4 * (ebr.totalClusters + 2) ≤ ebr.SectorsPerFAT32 * SECTOR_SIZE
  word : ebr.totalSectors < 2^32
  onDisk : ebr.totalSectors ≤ disk.capacity
  root : ebr.Cluster ebr.RootClusterStart

theorem WellFormed.clusterSize_pos (wf : WellFormed disk ebr) : 0 < ebr.SectorsPerCluster := by
  obtain ⟨k,_,size⟩ := wf.clusterSize
  rw [size]
  exact Nat.two_pow_pos k

theorem WellFormed.clusterBytes_pos (wf : WellFormed disk ebr) : 0 < ebr.clusterBytes :=
  Nat.mul_pos wf.clusterSize_pos (by decide)

/-- A cluster lies inside the volume. -/
theorem WellFormed.cluster_inside (wf : WellFormed disk ebr) (cluster : ebr.Cluster c) :
    ebr.firstSector c + ebr.SectorsPerCluster ≤ ebr.totalSectors := by
  obtain ⟨low,high⟩ := cluster
  have number : c-1 ≤ ebr.totalClusters := by omega
  have room : (c-1) * ebr.SectorsPerCluster ≤ ebr.totalSectors - ebr.firstDataSector :=
    (Nat.mul_le_mul_right _ number).trans (Nat.div_mul_le_self _ ebr.SectorsPerCluster)
  have pos : 0 < (c-1) * ebr.SectorsPerCluster := Nat.mul_pos (by omega) wf.clusterSize_pos
  have part : (c-1) * ebr.SectorsPerCluster = (c-2) * ebr.SectorsPerCluster + ebr.SectorsPerCluster := by
    rw [show c-1 = c-2+1 by omega,Nat.succ_mul]
  simp only [EBR.firstSector]
  omega

/-- The driver finds the first sector of a cluster. -/
theorem firstSector_eq (wf : WellFormed disk ebr) (cluster : ebr.Cluster c) (id : Nat) :
    (FSDriver.mount id ebr).GetFirstSectorOfCluster c = ebr.firstSector c := by
  have inside := wf.cluster_inside cluster
  have word := wf.word
  have size := wf.clusterSize_pos
  have clusters := wf.clusters.2
  obtain ⟨low,high⟩ := cluster
  simp only [EBR.firstSector,EBR.firstDataSector] at inside
  simp only [FSDriver.GetFirstSectorOfCluster,FSDriver.mount,EBR.firstSector,EBR.firstDataSector]
  rw [show (c + 2^32 - 2) % 2^32 = c-2 by omega,Nat.mod_eq_of_lt (a := (c-2) * _) (by omega),
    Nat.mod_eq_of_lt (a := _ + ebr.NumFAT * _) (by omega),Nat.mod_eq_of_lt (by omega),Nat.add_comm]

theorem Chain.cluster (chain : Chain disk ebr c cs) : ebr.Cluster c := by
  cases chain with
  | last cluster ends => exact cluster
  | next cluster later => exact cluster

/-- The byte `j` of a file is in the cluster that its number falls into. -/
theorem contents_getD (pos : 0 < ebr.clusterBytes) {j : Nat} (inside : j < cs.length * ebr.clusterBytes) :
    (disk.contents ebr cs).getD j 0 = disk.clusterByte ebr (cs.getD (j / ebr.clusterBytes) 0) (j % ebr.clusterBytes) := by
  induction cs generalizing j with
  | nil => simp at inside
  | cons c cs ih =>
    have parts : disk.contents ebr (c :: cs) = (List.range ebr.clusterBytes).map (disk.clusterByte ebr c) ++ disk.contents ebr cs := rfl
    rw [List.length_cons,Nat.succ_mul] at inside
    rw [parts,List.getD_eq_getElem?_getD]
    by_cases first : j < ebr.clusterBytes
    · rw [List.getElem?_append_left (by simpa using first),Nat.div_eq_of_lt first,Nat.mod_eq_of_lt first]
      simp [first]
    · obtain ⟨i,rfl⟩ := Nat.exists_eq_add_of_le (Nat.le_of_not_lt first)
      have later := ih (j := i) (by omega)
      rw [List.getD_eq_getElem?_getD] at later
      rw [List.getElem?_append_right (by simp),Nat.add_comm ebr.clusterBytes i,Nat.add_div_right i pos,Nat.add_mod_right]
      simpa using later

/-- What is tried twice succeeds as what is tried once, if that depends on nothing the first try changes. -/
theorem twice_spec {read : ATAPort → Mem → Option (Bool × ATAPort × Mem)} (good : ATAPort → Prop) {succeeds : Prop} {result : Mem → Mem}
    (once : ∀ p m, good p → ∃ done p' m', read p m = some (done,p',m') ∧ good p' ∧ (done = true ↔ succeeds) ∧
      (done = true → m' = result m)) {p : ATAPort} (start : good p) (m : Mem) :
    ∃ done p' m', FSDriver.twice read p m = some (done,p',m') ∧ good p' ∧ (done = true ↔ succeeds) ∧
      (done = true → m' = result m) := by
  obtain ⟨first,p₁,m₁,read₁,good₁,succeeds₁,result₁⟩ := once p m start
  cases first with
  | true =>
    refine ⟨true,p₁,m₁,?_,good₁,succeeds₁,result₁⟩
    rw [FSDriver.twice,read₁]
    rfl
  | false =>
    obtain ⟨second,p₂,m₂,read₂,good₂,succeeds₂,_⟩ := once p₁ m₁ good₁
    refine ⟨second,p₂,m₂,?_,good₂,succeeds₂,?_⟩
    · rw [FSDriver.twice,read₁]
      exact read₂
    · intro done
      have never := succeeds₁.mpr (succeeds₂.mp done)
      cases never

/-- The sectors of a cluster are there, also where the disk decodes them wrongly. -/
theorem WellFormed.cluster_works (wf : WellFormed disk ebr) (cluster : ebr.Cluster c) :
    Completes disk.Works 8 (ebr.firstSector c) ebr.SectorsPerCluster := by
  have inside := wf.cluster_inside cluster
  have word := wf.word
  have there := wf.onDisk
  have low : ∀ sector < 2^32, lba sector ≤ sector := by
    intro sector small
    simp only [lba]
    omega
  constructor
  · intro k less
    have below := low (ebr.firstSector c + 8*k) (by omega)
    simp only [Disk.Works]
    omega
  · intro rest
    have below := low (ebr.firstSector c + 8 * (ebr.SectorsPerCluster / 8)) (by omega)
    simp only [Disk.Works]
    omega

/-- `ReadCluster` reads a cluster of the volume. -/
theorem readCluster_spec (wf : WellFormed disk ebr) (cluster : ebr.Cluster c) {p : ATAPort} (ready : Buffered p 8 false) (id : Nat)
    (m : Mem) (buffer : Nat) : ∃ p', Buffered p' 8 false ∧ (FSDriver.mount id ebr).ReadCluster disk.device p m c buffer =
      some (true,p',fill m buffer ebr.clusterBytes (disk.readByte (ebr.firstSector c))) := by
  have inside := wf.cluster_inside cluster
  have word := wf.word
  have size : ebr.SectorsPerCluster ≠ 0 := Nat.ne_of_gt wf.clusterSize_pos
  have sectors : ebr.firstSector c + ebr.SectorsPerCluster < 2^64 := by omega
  obtain ⟨done,p',m',returned,ready',completes,memory⟩ := twice_spec (fun p => Buffered p 8 false)
    (fun p m ready => read_spec disk.steady ready (by decide) (by decide) size sectors m buffer) ready m
  have succeeded := completes.mpr (wf.cluster_works cluster)
  refine ⟨p',ready',?_⟩
  simp only [FSDriver.ReadCluster,firstSector_eq wf cluster]
  rw [succeeded,memory succeeded] at returned
  exact returned

/-- The last cluster of a chain has no next one. -/
theorem WellFormed.next_of_last (wf : WellFormed disk ebr) (ends : 0x0FFFFFF8 ≤ disk.next ebr c) : ¬ Chain disk ebr (disk.next ebr c) cs := by
  intro later
  have bound := wf.clusters.2
  have small := later.cluster.2
  omega

/-- The clusters of a chain are given by its first one. -/
theorem Chain.unique {cs' : List Nat} (wf : WellFormed disk ebr) (chain : Chain disk ebr c cs) (other : Chain disk ebr c cs') :
    cs = cs' := by
  induction chain generalizing cs' with
  | last cluster ends =>
    cases other with
    | last => rfl
    | next _ later => exact absurd later (wf.next_of_last ends)
  | next cluster later ih =>
    cases other with
    | last _ ends => exact absurd later (wf.next_of_last ends)
    | next _ later' => rw [ih later']

theorem Chain.first (chain : Chain disk ebr c cs) : ∃ later, cs = c :: later := by
  cases chain with
  | last => exact ⟨[],rfl⟩
  | next => exact ⟨_,rfl⟩

/-- A chain does not come back to its first cluster at once. -/
theorem Chain.second_ne (wf : WellFormed disk ebr) {c' : Nat} (chain : Chain disk ebr c (c :: c' :: cs)) : c' ≠ c := by
  intro same
  have whole := chain
  cases chain with
  | next cluster later =>
    obtain ⟨rest,first⟩ := later.first
    have back : disk.next ebr c = c := (List.cons.inj first).1.symm.trans same
    rw [back] at later
    have lengths := congrArg List.length (later.unique wf whole)
    simp at lengths

end WaifuOS.FAT32
