import WaifuOS.FAT32

/-!
What `ReadFile` reads. It reads as many bytes as it is asked for, or as the file has, from
the first sector of the file on, one sector after another. `readFile_iff` says when these
are the bytes of the file and nothing else is written: some bytes are asked for, the
sectors are there, and they hold what the clusters of the chain hold. So it is for clusters
that follow each other (`readable_of_consecutive`), and not in general: a file in the
clusters 3 and 5 is read from 3 and 4.
-/
namespace WaifuOS.FAT32
open WaifuOS.Bytes WaifuOS.AHCI

/-- An entry is that of a file whose bytes are in the clusters. -/
structure File (disk : Disk) (ebr : EBR) (info : EntryInfo) (clusters : List Nat) : Prop where
  word : info.FileSize < 2^32
  chain : info.FileSize ≠ 0 → Chain disk ebr info.firstCluster clusters
  room : info.FileSize ≤ clusters.length * ebr.clusterBytes

/-- `ReadFile` succeeds, and `out` is filled with the first bytes of the file. -/
def ReadsFile (disk : Disk) (ebr : EBR) (id : Nat) (p : ATAPort) (m : Mem) (info : EntryInfo) (clusters : List Nat) (out numBytes : Nat) :
    Prop :=
  ∃ p', (FSDriver.mount id ebr).ReadFile disk.device p m info out numBytes =
    some (true,p',fill m out (min numBytes info.FileSize) (fun i => (disk.contents ebr clusters).getD i 0))

/-- `n` bytes from `sector` on can be read, and they are the bytes of the clusters. Where the
    last sectors fill the port's buffer, all of it is copied: then the memory behind `out` already
    holds what is copied there. -/
structure Readable (disk : Disk) (ebr : EBR) (m : Mem) (sector : Nat) (clusters : List Nat) (out n : Nat) : Prop where
  some_bytes : n ≠ 0
  answered : Completes disk.Works 8 sector (n / SECTOR_SIZE + 1)
  stored : ∀ i < n, disk.readByte sector i = (disk.contents ebr clusters).getD i 0
  behind : (n / SECTOR_SIZE + 1) % 8 = 0 → ∀ i, n ≤ i → i < (n / SECTOR_SIZE + 1) * SECTOR_SIZE → m (out+i) = disk.readByte sector i

variable {disk : Disk} {ebr : EBR} {info : EntryInfo} {clusters : List Nat} {p : ATAPort} {m : Mem} {id out n numBytes sector : Nat}

/-- What is copied is what the clusters hold, and nothing more. -/
theorem copied_iff : fill m out (copiedBytes 8 n) (disk.readByte sector) = fill m out n (fun i => (disk.contents ebr clusters).getD i 0) ↔
    (∀ i < n, disk.readByte sector i = (disk.contents ebr clusters).getD i 0) ∧
      ((n / SECTOR_SIZE + 1) % 8 = 0 → ∀ i, n ≤ i → i < (n / SECTOR_SIZE + 1) * SECTOR_SIZE → m (out+i) = disk.readByte sector i) := by
  rw [copiedBytes]
  by_cases full : (n / SECTOR_SIZE + 1) % 8 = 0
  · have more : n ≤ (n / SECTOR_SIZE + 1) * SECTOR_SIZE := by unfold SECTOR_SIZE; omega
    rw [if_pos full,fill_eq_iff more]
    constructor
    · rintro ⟨same,behind⟩
      exact ⟨same,fun _ => behind⟩
    · rintro ⟨same,behind⟩
      exact ⟨same,behind full⟩
  · rw [if_neg full,fill_eq_iff (Nat.le_refl n)]
    constructor
    · rintro ⟨same,_⟩
      exact ⟨same,fun whole => absurd whole full⟩
    · rintro ⟨same,_⟩
      exact ⟨same,fun i low high => by omega⟩

/-- `ReadFile` as one transfer from the first sector of the file on. -/
theorem readFile_spec (wf : WellFormed disk ebr) (file : File disk ebr info clusters) (ready : Buffered p 8 false) (id : Nat) (m : Mem)
    (out numBytes : Nat) (some_bytes : min numBytes info.FileSize ≠ 0) :
    ∃ done p' m', (FSDriver.mount id ebr).ReadFile disk.device p m info out numBytes = some (done,p',m') ∧
      (done = true ↔ Completes disk.Works 8 (ebr.firstSector info.firstCluster) (min numBytes info.FileSize / SECTOR_SIZE + 1)) ∧
      (done = true → m' = fill m out (copiedBytes 8 (min numBytes info.FileSize)) (disk.readByte (ebr.firstSector info.firstCluster))) := by
  have nonempty : info.FileSize ≠ 0 := by omega
  have cluster := (file.chain nonempty).cluster
  have inside := wf.cluster_inside cluster
  have volume := wf.word
  have size := file.word
  have word : min numBytes info.FileSize < 2^32 := by omega
  have sectors : ebr.firstSector info.firstCluster + (min numBytes info.FileSize / SECTOR_SIZE + 1) < 2^64 := by
    simp only [SECTOR_SIZE]
    omega
  have bytes : (if numBytes > info.FileSize then info.FileSize else numBytes) = min numBytes info.FileSize := by
    rw [Nat.min_def]
    split <;> split <;> omega
  obtain ⟨done,p',m',returned,_,completes,memory⟩ := twice_spec (fun p => Buffered p 8 false)
    (fun p m ready => readBytes_spec disk.steady ready (by decide) (by decide) some_bytes word sectors m out) ready m
  refine ⟨done,p',m',?_,completes,memory⟩
  simp only [FSDriver.ReadFile,firstSector_eq wf cluster,bytes]
  exact returned

/-- Where the file is read, it can be read from its first sector on. -/
theorem ReadsFile.readable (wf : WellFormed disk ebr) (file : File disk ebr info clusters) (ready : Buffered p 8 false)
    (reads : ReadsFile disk ebr id p m info clusters out numBytes) :
    Readable disk ebr m (ebr.firstSector info.firstCluster) clusters out (min numBytes info.FileSize) := by
  obtain ⟨p',returned⟩ := reads
  by_cases none : min numBytes info.FileSize = 0
  · -- `ReadBytes` fails when nothing is asked for.
    have bytes : (if numBytes > info.FileSize then info.FileSize else numBytes) = 0 := by split <;> omega
    simp [FSDriver.ReadFile,bytes,FSDriver.twice,ATAPort.ReadBytes] at returned
  · obtain ⟨done,_,m',returned',completes,memory⟩ := readFile_spec wf file ready id m out numBytes none
    rw [returned] at returned'
    cases returned'
    obtain ⟨stored,behind⟩ := copied_iff.mp (memory rfl).symm
    exact ⟨none,completes.mp rfl,stored,behind⟩

theorem Readable.readsFile (wf : WellFormed disk ebr) (file : File disk ebr info clusters) (ready : Buffered p 8 false)
    (readable : Readable disk ebr m (ebr.firstSector info.firstCluster) clusters out (min numBytes info.FileSize)) :
    ReadsFile disk ebr id p m info clusters out numBytes := by
  obtain ⟨done,p',m',returned,completes,memory⟩ := readFile_spec wf file ready id m out numBytes readable.some_bytes
  have succeeded := completes.mpr readable.answered
  have filled := copied_iff.mpr ⟨readable.stored,readable.behind⟩
  refine ⟨p',?_⟩
  rw [returned,memory succeeded,succeeded,filled]

/-- `ReadFile` reads the first bytes of the file if and only if they can be read from its first sector on. -/
theorem readFile_iff (wf : WellFormed disk ebr) (file : File disk ebr info clusters) (ready : Buffered p 8 false) :
    ReadsFile disk ebr id p m info clusters out numBytes ↔
      Readable disk ebr m (ebr.firstSector info.firstCluster) clusters out (min numBytes info.FileSize) :=
  ⟨fun reads => reads.readable wf file ready,fun readable => readable.readsFile wf file ready⟩

/-- A transfer completes when its sectors are on the disk and among the first 2^24. -/
theorem completes_of_lt {sectorCount : Nat} (low : sector + sectorCount ≤ 2^24) (there : sector + sectorCount ≤ disk.capacity) :
    Completes disk.Works 8 sector sectorCount := by
  constructor
  · intro k small
    rw [Disk.Works,lba_of_lt (by omega)]
    omega
  · intro rest
    rw [Disk.Works,lba_of_lt (by omega)]
    omega

theorem firstSector_add {first k : Nat} (cluster : ebr.Cluster first) :
    ebr.firstSector (first + k) = ebr.firstSector first + k * ebr.SectorsPerCluster := by
  have low := cluster.1
  simp only [EBR.firstSector]
  rw [show first + k - 2 = first - 2 + k by omega,Nat.add_mul,Nat.add_assoc]

/-- Clusters that follow each other hold what is read from the first sector on. -/
theorem contents_of_consecutive {first i : Nat} (wf : WellFormed disk ebr) (cluster : ebr.Cluster first)
    (consecutive : ∀ k < clusters.length, clusters.getD k 0 = first + k) (inside : i < clusters.length * ebr.clusterBytes) :
    (disk.contents ebr clusters).getD i 0 = disk.data (ebr.firstSector first * SECTOR_SIZE + i) := by
  have pos := wf.clusterBytes_pos
  have number : i / ebr.clusterBytes < clusters.length := Nat.div_lt_of_lt_mul (by rwa [Nat.mul_comm] at inside)
  have parts := Nat.div_add_mod i ebr.clusterBytes
  have bytes : i / ebr.clusterBytes * ebr.SectorsPerCluster * SECTOR_SIZE = ebr.clusterBytes * (i / ebr.clusterBytes) := by
    rw [Nat.mul_assoc,Nat.mul_comm]
    rfl
  rw [contents_getD pos inside,consecutive _ number,Disk.clusterByte,firstSector_add cluster,Nat.add_mul,bytes,Nat.add_assoc,parts]

/-- Some bytes of a file in clusters that follow each other are read, where the sectors lie
    among the first 2^24 of the disk and do not fill the buffer up. -/
theorem readable_of_consecutive (wf : WellFormed disk ebr) (file : File disk ebr info clusters)
    (consecutive : ∀ k < clusters.length, clusters.getD k 0 = info.firstCluster + k) (some_bytes : n ≠ 0) (size : n ≤ info.FileSize)
    (low : ebr.firstSector info.firstCluster + (n / SECTOR_SIZE + 1) ≤ 2^24)
    (there : ebr.firstSector info.firstCluster + (n / SECTOR_SIZE + 1) ≤ disk.capacity) (short : (n / SECTOR_SIZE + 1) % 8 ≠ 0) :
    Readable disk ebr m (ebr.firstSector info.firstCluster) clusters out n := by
  have cluster := (file.chain (by omega)).cluster
  have room := file.room
  refine ⟨some_bytes,completes_of_lt low there,?_,fun full => absurd full short⟩
  intro i inside
  have before : i / SECTOR_SIZE ≤ n / SECTOR_SIZE := Nat.div_le_div_right (Nat.le_of_lt inside)
  rw [readByte_of_lt (by omega),contents_of_consecutive wf cluster consecutive (by omega)]

/-- The smallest volume that the driver accepts. Cluster 3 is followed by 5, whose first byte is 1,
    and the clusters 4 and 5 are the last ones of their chains. -/
def smallEBR : EBR where
  SectorSizeBytes := 512
  SectorsPerCluster := 1
  NumReservedSectors := 32
  NumFAT := 2
  SectorCount := 0
  LargeSectorCount := 66581
  SectorsPerFAT32 := 512
  RootClusterStart := 2

def smallDisk : Disk where
  data i := if i = 16384 + 12 then 5 else if 16384 + 16 ≤ i ∧ i < 16384 + 24 then 0xFF else if i = 1059 * 512 then 1 else 0
  capacity := 66581

/-- The entry of a file with the given first cluster and size. -/
def fileEntry (firstCluster FileSize : Nat) : EntryInfo := ⟨0,0,0,0,0,0,0,firstCluster,0,FileSize,0,none,[],[]⟩

theorem small_wellFormed : WellFormed smallDisk smallEBR where
  sectorSize := rfl
  clusterSize := ⟨0,by decide,rfl⟩
  reserved := by decide
  clusters := by decide
  table := by decide
  word := by decide
  onDisk := by decide
  root := by unfold EBR.Cluster; decide

theorem small_cluster {c : Nat} (low : 2 ≤ c) (high : c < 65527) : smallEBR.Cluster c := ⟨low,high⟩

/-- A port with an empty buffer. -/
def idlePort : ATAPort := ⟨fun _ => 0,4096,false,[]⟩

theorem readFile_iff_single : ReadsFile smallDisk smallEBR 0 idlePort (fun _ => 0) (fileEntry 4 5) [4] 0x130000 9 := by
  have cluster := small_cluster (c := 4) (by decide) (by decide)
  have file : File smallDisk smallEBR (fileEntry 4 5) [4] := ⟨by decide,fun _ => .last cluster (by decide),by decide⟩
  have readable : Readable smallDisk smallEBR (fun _ => 0) (smallEBR.firstSector 4) [4] 0x130000 5 :=
    readable_of_consecutive small_wellFormed file (by decide) (by decide) (by decide) (by decide) (by decide) (by decide)
  have ready : Buffered idlePort 8 false := ⟨rfl,rfl⟩
  exact (readFile_iff small_wellFormed file ready).mpr readable

/-- The second byte of the file is in cluster 5, and is read from cluster 4. -/
theorem readFile_fragmented : WellFormed smallDisk smallEBR ∧ File smallDisk smallEBR (fileEntry 3 513) [3,5] ∧
    Buffered idlePort 8 false ∧ ¬ ReadsFile smallDisk smallEBR 0 idlePort (fun _ => 0) (fileEntry 3 513) [3,5] 0x130000 513 := by
  have first := small_cluster (c := 3) (by decide) (by decide)
  have second := small_cluster (c := 5) (by decide) (by decide)
  have chain : Chain smallDisk smallEBR 3 [3,5] := .next first (.last second (by decide))
  have file : File smallDisk smallEBR (fileEntry 3 513) [3,5] := ⟨by decide,fun _ => chain,by decide⟩
  have ready : Buffered idlePort 8 false := ⟨rfl,rfl⟩
  refine ⟨small_wellFormed,file,ready,?_⟩
  intro reads
  have stored := (reads.readable small_wellFormed file ready).stored 512 (by decide)
  rw [contents_getD small_wellFormed.clusterBytes_pos (by decide)] at stored
  revert stored
  decide

end WaifuOS.FAT32
