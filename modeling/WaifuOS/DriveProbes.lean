import WaifuOS.Mounts

/-!
Mounting the drive behind a port. `DoesDriveContainF32` reads the boot record and the sector of
`FSInfo` and checks their signatures, and where it accepts them the constructor of
`FSDriver` reads and checks them again (`verified`). Neither looks at the sectors of a
cluster before the constructor divides by them: `mountPort_safe_iff` says that mounting is
safe unless both sectors are accepted and that number is 0. A drive that is
rejected is not in `Drives`, so that its destructor removes nothing (`construct_rejects`).
-/
namespace WaifuOS.FAT32
open WaifuOS.Bytes WaifuOS.AHCI

/-- `DoesDriveContainF32`, with the two objects that it allocates. -/
def DoesDriveContainF32 (device : Device) (drive : ATAPort) (m : Mem) (ebr fsinfo : Nat) : Option (Bool × ATAPort × Mem) := do
  let (read,drive,m) ← drive.Read device m 0 1 ebr
  if !read then some (false,drive,m)
  else if !signed m ebr ∨ (EBR.read m ebr).SectorsPerFAT32 = 0 then some (false,drive,m)
  else
    let FSInfoSector := load m (ebr + 48) 2
    let (read,drive,m) ← drive.Read device m FSInfoSector 1 fsinfo
    if !read then some (false,drive,m)
    else if !FSInfo.signed m fsinfo then some (false,drive,m)
    else some (true,drive,m)

/-- What `InitializePCIDevices` does with a port: it constructs a driver where there is a volume. -/
def mountPort (device : Device) (port : ATAPort) (m : Mem) (ebr fsinfo mBootRecord mFSInfo this sNextDriveID : Nat) (Drives : KernelList Nat) :
    Option (Option Constructed) := do
  let (contains,port,m) ← DoesDriveContainF32 device port m ebr fsinfo
  if contains then (construct device port m mBootRecord mFSInfo this sNextDriveID Drives).map some else some none

/-- The command that reads one sector. -/
def sectorRead (sector : Nat) : Command := ⟨sector,.readDmaEX sector 1,SECTOR_SIZE - 1⟩

/-- The bytes that it reads. -/
def sectorBytes (device : Device) (sector : Nat) : Mem := fun i => device.data (device.lba (sectorRead sector) * SECTOR_SIZE + i)

/-- The boot record that the disk returns. -/
def bootRecord (device : Device) : EBR := EBR.read (sectorBytes device 0) 0

/-- The sector of `FSInfo` that the boot record names. -/
def infoSector (device : Device) : Nat := load (sectorBytes device 0) 48 2

/-- After the earlier commands, both sectors are read and accepted. -/
structure Verified (device : Device) (earlier : List Command) : Prop where
  bootRead : device.completes earlier (sectorRead 0) = true
  boot : signed (sectorBytes device 0) 0 = true ∧ (bootRecord device).SectorsPerFAT32 ≠ 0
  infoRead : device.completes (earlier ++ [sectorRead 0]) (sectorRead (infoSector device)) = true
  info : FSInfo.signed (sectorBytes device (infoSector device)) 0 = true

/-- The reads of one verification. -/
def verification (device : Device) : List Command := [sectorRead 0,sectorRead (infoSector device)]

/-- Both `DoesDriveContainF32` and the constructor accept what they read. -/
structure Accepted (device : Device) (earlier : List Command) : Prop where
  probed : Verified device earlier
  constructed : Verified device (earlier ++ verification device)

/-- Mounting does not divide by zero, and a drive that the constructor rejects changes neither `Drives` nor the
    next number of a drive. -/
def Safe (sNextDriveID : Nat) (Drives : KernelList Nat) (mounted : Option (Option Constructed)) : Prop :=
  ∃ result, mounted = some result ∧ ∀ built reason, result = some built → built.result = .error reason →
    built.Drives = Drives ∧ built.sNextDriveID = sNextDriveID

variable {device : Device} {p : ATAPort} {m : Mem} {a b ebr fsinfo mBootRecord mFSInfo this sNextDriveID : Nat} {Drives : KernelList Nat}
  {built : Constructed} {reason : Rejection}

/-- One sector is read by one command. -/
theorem read_sector (device : Device) (ready : Buffered p 8 false) (m : Mem) (sector buffer : Nat) :
    ∃ p', Buffered p' 8 false ∧ p'.issued = p.issued ++ [sectorRead sector] ∧ p.Read device m sector 1 buffer =
      some (device.completes p.issued (sectorRead sector),p',
        if device.completes p.issued (sectorRead sector) then fill m buffer SECTOR_SIZE (sectorBytes device sector) else m) := by
  obtain ⟨locked,buffered,earlier,whole⟩ := readSectors_eq device (fun _ rest => rest * SECTOR_SIZE) ready (by decide) m sector 1 buffer
  obtain ⟨completed,p₁,issued,answer,buffered₁,history,read⟩ := issue_reads device buffered sector (show 1 < 2^16 by decide) (1 * SECTOR_SIZE - 1)
  have rounds : ATAPort.fillLoop device 8 locked m sector buffer (1/8) = (true,locked,m,sector,buffer) := rfl
  refine ⟨p₁.Unlock,⟨buffered₁.size,rfl⟩,?_,?_⟩
  · rw [← earlier]
    exact history
  · rw [ATAPort.Read,if_neg (by decide),whole,rounds,← earlier]
    simp only [show 1 % 8 = 1 from rfl,show ¬ 1 = 0 by decide,if_false,issued]
    have same : device.completes locked.issued (sectorRead sector) = completed := answer.symm
    rw [same]
    cases completed with
    | false => rfl
    | true =>
      have copied : fill m buffer (1 * SECTOR_SIZE) p₁.mBuffer = fill m buffer SECTOR_SIZE (sectorBytes device sector) := by
        rw [Nat.one_mul]
        exact fill_congr (fun i small => read rfl i (by rwa [Nat.one_mul]) (by unfold SECTOR_SIZE at small ⊢; omega))
      simp only [copied,if_true]

/-- The boot record in memory is the one that was read. -/
theorem read_fill (m : Mem) (a : Nat) (f : Mem) : EBR.read (fill m a SECTOR_SIZE f) a = EBR.read f 0 := by
  simp only [EBR.read,Nat.zero_add]
  congr 1 <;> exact load_fill (by decide)

theorem signed_fill (m : Mem) (a : Nat) (f : Mem) : signed (fill m a SECTOR_SIZE f) a = signed f 0 := by
  simp only [signed,Nat.zero_add]
  rw [load_fill (by decide),load_fill (by decide)]

theorem infoSigned_fill (m : Mem) (a : Nat) (f : Mem) : FSInfo.signed (fill m a SECTOR_SIZE f) a = FSInfo.signed f 0 := by
  have first : load (fill m a SECTOR_SIZE f) a 4 = load f 0 4 := @load_fill _ _ _ _ 0 _ (by decide)
  simp only [FSInfo.signed,Nat.zero_add]
  rw [first,load_fill (by decide),load_fill (by decide)]

theorem read_fill_apart {f : Mem} (apart : Apart b SECTOR_SIZE a SECTOR_SIZE) : EBR.read (fill m a SECTOR_SIZE f) b = EBR.read m b := by
  simp only [EBR.read]
  simp only [Apart,SECTOR_SIZE] at apart
  congr 1 <;> exact load_fill_apart (by unfold Apart SECTOR_SIZE; omega)

/-- What `DoesDriveContainF32` and the constructor share: both sectors are read and checked, and the drive is
    rejected at once or accepted. -/
def verified {α : Type} (device : Device) (drive : ATAPort) (m : Mem) (a b : Nat) (reject : Rejection → ATAPort → Mem → Option α)
    (accept : ATAPort → Mem → Option α) : Option α := do
  let (read,drive,m) ← drive.Read device m 0 1 a
  if !read then reject .bootUnread drive m
  else if !signed m a ∨ (EBR.read m a).SectorsPerFAT32 = 0 then reject .bootInvalid drive m
  else
    let (read,drive,m) ← drive.Read device m (load m (a + 48) 2) 1 b
    if !read then reject .infoUnread drive m
    else if !FSInfo.signed m b then reject .infoInvalid drive m
    else accept drive m

theorem doesDriveContainF32_eq : DoesDriveContainF32 device p m a b =
    verified device p m a b (fun _ drive m => some (false,drive,m)) (fun drive m => some (true,drive,m)) := rfl

/-- What the constructor returns for a drive that it rejects. -/
def destroy (this sNextDriveID : Nat) (Drives : KernelList Nat) (reason : Rejection) (p : ATAPort) (m : Mem) : Option Constructed :=
  some ⟨.error reason,p,m,sNextDriveID,Drives.Remove this⟩

/-- What it does with a drive that it has verified. -/
def finish (mBootRecord this sNextDriveID : Nat) (Drives : KernelList Nat) (p : ATAPort) (m : Mem) : Option Constructed := do
  match ← calculate sNextDriveID (EBR.read m mBootRecord) with
  | .error reason => destroy this sNextDriveID Drives reason p m
  | .ok d => some ⟨.ok d,p,m,(sNextDriveID + 1) % 2^16,Drives.Add this⟩

theorem construct_eq : construct device p m a b this sNextDriveID Drives =
    verified device p m a b (destroy this sNextDriveID Drives) (finish a this sNextDriveID Drives) := rfl

/-- The drive is accepted when both sectors are, after two commands, and with its boot record in memory. -/
theorem verified_spec {α : Type} (ready : Buffered p 8 false) (apart : Apart a SECTOR_SIZE b SECTOR_SIZE) (m : Mem)
    (reject : Rejection → ATAPort → Mem → Option α) (accept : ATAPort → Mem → Option α) :
    (Verified device p.issued ∧ ∃ p' m', Buffered p' 8 false ∧ p'.issued = p.issued ++ verification device ∧
      EBR.read m' a = bootRecord device ∧ verified device p m a b reject accept = accept p' m') ∨
    (¬ Verified device p.issued ∧ ∃ reason p' m', verified device p m a b reject accept = reject reason p' m') := by
  obtain ⟨p₁,ready₁,history₁,read₁⟩ := read_sector device ready m 0 a
  rw [verified,read₁]
  simp only [Option.bind_eq_bind,Option.bind_some]
  cases bootRead : device.completes p.issued (sectorRead 0) with
  | false => exact .inr ⟨fun whole => by simpa [bootRead] using whole.bootRead,.bootUnread,p₁,m,rfl⟩
  | true =>
    have record := read_fill m a (sectorBytes device 0)
    have info : load (fill m a SECTOR_SIZE (sectorBytes device 0)) (a + 48) 2 = infoSector device := load_fill (by decide)
    have checked := signed_fill m a (sectorBytes device 0)
    generalize fill m a SECTOR_SIZE (sectorBytes device 0) = m₁ at record info checked
    simp only [if_true,checked,record,info,Bool.not_true,Bool.false_eq_true,if_false]
    by_cases refused : (!signed (sectorBytes device 0) 0) = true ∨ (EBR.read (sectorBytes device 0) 0).SectorsPerFAT32 = 0
    · rw [if_pos refused]
      refine .inr ⟨?_,.bootInvalid,p₁,m₁,rfl⟩
      intro whole
      rcases refused with unsigned | none
      · simp [whole.boot.1] at unsigned
      · exact whole.boot.2 none
    rw [if_neg refused]
    have boot : signed (sectorBytes device 0) 0 = true ∧ (bootRecord device).SectorsPerFAT32 ≠ 0 := by
      refine ⟨?_,fun none => refused (.inr none)⟩
      by_contra unsigned
      exact refused (.inl (by simpa using unsigned))
    obtain ⟨p₂,ready₂,history₂,read₂⟩ := read_sector device ready₁ m₁ (infoSector device) b
    rw [history₁] at read₂ history₂
    rw [read₂,Option.bind_some]
    cases infoRead : device.completes (p.issued ++ [sectorRead 0]) (sectorRead (infoSector device)) with
    | false => exact .inr ⟨fun whole => by simpa [infoRead] using whole.infoRead,.infoUnread,p₂,m₁,rfl⟩
    | true =>
      have kept := (read_fill_apart (m := m₁) (f := sectorBytes device (infoSector device)) apart).trans record
      have checked := infoSigned_fill m₁ b (sectorBytes device (infoSector device))
      generalize fill m₁ b SECTOR_SIZE (sectorBytes device (infoSector device)) = m₂ at kept checked
      simp only [if_true,checked,Bool.not_true,Bool.false_eq_true,if_false]
      cases infoSigned : FSInfo.signed (sectorBytes device (infoSector device)) 0 with
      | false => exact .inr ⟨fun whole => by simpa [infoSigned] using whole.info,.infoInvalid,p₂,m₂,rfl⟩
      | true =>
        refine .inl ⟨⟨bootRead,boot,infoRead,infoSigned⟩,p₂,m₂,ready₂,?_,kept,rfl⟩
        rw [history₂,List.append_assoc]
        rfl

/-- The constructor divides by the number of sectors in a cluster. -/
theorem calculate_none (id : Nat) (ebr : EBR) : calculate id ebr = none ↔ ebr.SectorsPerCluster = 0 := by
  by_cases zero : ebr.SectorsPerCluster = 0
  · rw [calculate,if_pos zero]
    exact iff_of_true rfl zero
  · refine iff_of_false ?_ zero
    intro none
    simp only [calculate,if_neg zero] at none
    split at none
    · cases none
    split at none
    · cases none
    split at none <;> cases none

/-- On a port that is ready, `DoesDriveContainF32` returns what it has verified. -/
theorem doesDriveContainF32_spec (device : Device) (ready : Buffered p 8 false) (apart : Apart ebr SECTOR_SIZE fsinfo SECTOR_SIZE) (m : Mem) :
    ∃ contains p' m', DoesDriveContainF32 device p m ebr fsinfo = some (contains,p',m') ∧
      (contains = true ↔ Verified device p.issued) ∧
      (contains = true → Buffered p' 8 false ∧ p'.issued = p.issued ++ verification device) := by
  rw [doesDriveContainF32_eq]
  rcases verified_spec ready apart m (fun _ drive m => some (false,drive,m)) (fun drive m => some (true,drive,m)) with
    ⟨accepted,p',m',ready',history,_,same⟩ | ⟨refused,reason,p',m',same⟩
  · exact ⟨true,p',m',same,iff_of_true rfl accepted,fun _ => ⟨ready',history⟩⟩
  · exact ⟨false,p',m',same,iff_of_false (by decide) refused,fun none => by cases none⟩

/-- The constructor divides by zero for a volume that it has verified, and for no other one. -/
theorem construct_none (ready : Buffered p 8 false) (apart : Apart mBootRecord SECTOR_SIZE mFSInfo SECTOR_SIZE) :
    construct device p m mBootRecord mFSInfo this sNextDriveID Drives = none ↔
      Verified device p.issued ∧ (bootRecord device).SectorsPerCluster = 0 := by
  rw [construct_eq]
  rcases verified_spec ready apart m (destroy this sNextDriveID Drives) (finish mBootRecord this sNextDriveID Drives) with
    ⟨accepted,p',m',_,_,record,same⟩ | ⟨refused,reason,p',m',same⟩
  · rw [same,finish,record,← calculate_none sNextDriveID,and_iff_right accepted]
    cases calculate sNextDriveID (bootRecord device) with
    | none => exact iff_of_true rfl rfl
    | some result => cases result <;> exact iff_of_false (by simp [destroy]) (by simp)
  · rw [same]
    exact iff_of_false (by simp [destroy]) (fun both => refused both.1)

/-- A drive that is destroyed leaves the globals as they were, when it is not in `Drives`. -/
theorem destroy_kept (fresh : this ∉ Drives.elements) (done : destroy this sNextDriveID Drives reason p m = some built) :
    built.Drives = Drives ∧ built.sNextDriveID = sNextDriveID := by
  cases done
  exact ⟨KernelList.remove_absent fresh,rfl⟩

/-- So does one that is rejected by what the constructor computes. -/
theorem finish_rejects (fresh : this ∉ Drives.elements) (done : finish mBootRecord this sNextDriveID Drives p m = some built)
    (rejected : built.result = .error reason) : built.Drives = Drives ∧ built.sNextDriveID = sNextDriveID := by
  obtain ⟨result,_,follows⟩ := Option.bind_eq_some_iff.mp done
  cases result with
  | error reason => exact destroy_kept fresh follows
  | ok d =>
    cases follows
    cases rejected

/-- A drive that the constructor rejects leaves the globals as they were. -/
theorem construct_rejects (ready : Buffered p 8 false) (apart : Apart mBootRecord SECTOR_SIZE mFSInfo SECTOR_SIZE)
    (fresh : this ∉ Drives.elements) (done : construct device p m mBootRecord mFSInfo this sNextDriveID Drives = some built)
    (rejected : built.result = .error reason) : built.Drives = Drives ∧ built.sNextDriveID = sNextDriveID := by
  rw [construct_eq] at done
  rcases verified_spec ready apart m (destroy this sNextDriveID Drives) (finish mBootRecord this sNextDriveID Drives) with
    ⟨accepted,p',m',_,_,record,same⟩ | ⟨refused,reason',p',m',same⟩
  · rw [same] at done
    exact finish_rejects fresh done rejected
  · rw [same] at done
    exact destroy_kept fresh done

/-- Mounting has no result just when it divides by zero. -/
theorem mountPort_none (ready : Buffered p 8 false) (probe : Apart ebr SECTOR_SIZE fsinfo SECTOR_SIZE)
    (apart : Apart mBootRecord SECTOR_SIZE mFSInfo SECTOR_SIZE) :
    mountPort device p m ebr fsinfo mBootRecord mFSInfo this sNextDriveID Drives = none ↔
      Accepted device p.issued ∧ (bootRecord device).SectorsPerCluster = 0 := by
  obtain ⟨contains,p',m',probed,isVerified,after⟩ := doesDriveContainF32_spec device ready probe m
  rw [mountPort,probed,Option.bind_eq_bind,Option.bind_some]
  cases contains with
  | false => exact iff_of_false (by simp) (fun both => absurd (isVerified.mpr both.1.probed) (by decide))
  | true =>
    obtain ⟨ready',history⟩ := after rfl
    simp only [if_true,Option.map_eq_none_iff]
    rw [construct_none ready' apart,history]
    exact and_congr_left (fun _ => ⟨fun again => ⟨isVerified.mp rfl,again⟩,Accepted.constructed⟩)

/-- Mounting is safe unless both sectors are accepted and the boot record has no sectors in a cluster. -/
theorem mountPort_safe_iff (ready : Buffered p 8 false) (probe : Apart ebr SECTOR_SIZE fsinfo SECTOR_SIZE)
    (apart : Apart mBootRecord SECTOR_SIZE mFSInfo SECTOR_SIZE) (fresh : this ∉ Drives.elements) :
    Safe sNextDriveID Drives (mountPort device p m ebr fsinfo mBootRecord mFSInfo this sNextDriveID Drives) ↔
      ¬ (Accepted device p.issued ∧ (bootRecord device).SectorsPerCluster = 0) := by
  rw [← mountPort_none ready probe apart]
  constructor
  · rintro ⟨result,mounted,_⟩ none
    cases mounted.symm.trans none
  · intro some_result
    obtain ⟨result,mounted⟩ := Option.ne_none_iff_exists'.mp some_result
    refine ⟨result,mounted,?_⟩
    intro built reason isBuilt rejected
    obtain ⟨contains,p',m',probed,_,after⟩ := doesDriveContainF32_spec device ready probe m
    rw [mountPort,probed,Option.bind_eq_bind,Option.bind_some] at mounted
    cases contains with
    | false =>
      cases mounted
      cases isBuilt
    | true =>
      simp only [if_true] at mounted
      obtain ⟨built',done,same⟩ := Option.map_eq_some_iff.mp mounted
      rw [isBuilt] at same
      cases same
      exact construct_rejects (after rfl).1 apart fresh done rejected

/-- A disk whose sectors pass all checks of signatures. Its byte 13 is the number of sectors in a cluster. -/
def clusterDisk (SectorsPerCluster : BitVec 8) : Disk :=
  { bootDisk [0x15,0x04,0x01,0x00] with data := Function.update (bootDisk [0x15,0x04,0x01,0x00]).data 13 SectorsPerCluster }

/-- Mounting a disk as the first one. -/
def mountOn (disk : Disk) : Option (Option Constructed) :=
  mountPort disk.device idlePort (fun _ => 0) 0x130000 0x131000 0x130000 0x131000 0x132000 0 .empty

theorem mountPort_safe_iff_one : Buffered idlePort 8 false ∧ Safe 0 .empty (mountOn (clusterDisk 1)) := by
  have ready : Buffered idlePort 8 false := ⟨rfl,rfl⟩
  have some_sectors : (bootRecord (clusterDisk 1).device).SectorsPerCluster ≠ 0 := by decide +kernel
  exact ⟨ready,(mountPort_safe_iff ready (by unfold Apart; decide) (by unfold Apart; decide) (by simp [KernelList.elements,KernelList.empty])).mpr
    (fun both => some_sectors both.2)⟩

/-- Signatures are all that is checked before the division. -/
theorem mountPort_divides : ¬ Safe 0 .empty (mountOn (clusterDisk 0)) := by
  have none : (mountOn (clusterDisk 0)).isNone = true := by decide +kernel
  rintro ⟨result,mounted,_⟩
  rw [mounted] at none
  cases none

end WaifuOS.FAT32
