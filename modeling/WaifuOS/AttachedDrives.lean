import WaifuOS.DriveProbes
import WaifuOS.PathFailures
import WaifuOS.PCI
import WaifuOS.Transfers

/-!
Which drives there are after `InitializePCIDevices`. The driver of an AHCI function takes the ports of its
controller that are implemented and have a disk (`ProbePorts`), and every port with a volume becomes a drive. So the
drives are the volumes in the order of the functions and of their ports, with the numbers from 0 on, and
the first character of a path chooses among them (`initializePCIDevices_drives`). Ports without a volume leave
the list and the numbers as they are, also where the constructor rejects what was accepted before it.
-/
namespace WaifuOS.AHCI
open WaifuOS.Bytes

inductive PortType
  | None
  | SATA
  | SEMB
  | PM
  | SATAPI
deriving DecidableEq

/-- The registers of a port that say what is connected, and what it is. -/
structure HBAPort where
  sataStatus : BitVec 32
  Signature : BitVec 32
  device : Device

structure HBAMemory where
  PortsImplemented : BitVec 32
  Ports : Nat → HBAPort

def hbaDevicePresentAndConnected : BitVec 32 := 3

def hbaIpmActive : BitVec 32 := 1

def sataSigATAPI : BitVec 32 := 0xEB140101

def sataSigATA : BitVec 32 := 0x101

def sataSigSEMB : BitVec 32 := 0xC33C0101

def sataSigPM : BitVec 32 := 0x9669101

def GetPortType (port : HBAPort) : PortType :=
  let powman := (port.sataStatus >>> 8) &&& 0b111
  let devdet := port.sataStatus &&& 0b111
  if devdet ≠ hbaDevicePresentAndConnected then .None
  else if powman ≠ hbaIpmActive then .None
  else if port.Signature = sataSigATAPI then .SATAPI
  else if port.Signature = sataSigATA then .SATA
  else if port.Signature = sataSigSEMB then .SEMB
  else if port.Signature = sataSigPM then .PM
  else .None

/-- What `AddPort` notes of a port; `hbaPort` is its place among the ports of the controller. -/
structure DriverPort where
  PortNumber : BitVec 8
  PortType : PortType
  hbaPort : Nat

structure AHCIDriver where
  mPorts : List DriverPort
  mPortCount : BitVec 8

namespace AHCIDriver

def GetPort (d : AHCIDriver) (portNum : BitVec 8) : Option DriverPort :=
  if portNum ≥ d.mPortCount then none else d.mPorts[portNum.toNat]?

def AddPort (d : AHCIDriver) (portType : PortType) (hbaport : Nat) : AHCIDriver :=
  { mPorts := d.mPorts ++ [⟨d.mPortCount,portType,hbaport⟩], mPortCount := d.mPortCount + 1 }

/-- One round of `ProbePorts`; what is not added is only printed. -/
def probe (mABAR : HBAMemory) (d : AHCIDriver) (x : Nat) : AHCIDriver :=
  if mABAR.PortsImplemented.getLsbD x then
    match GetPortType (mABAR.Ports x) with
    | .SATA => d.AddPort .SATA x
    | .SATAPI => d.AddPort .SATAPI x
    | _ => d
  else d

def ProbePorts (mABAR : HBAMemory) (d : AHCIDriver) : AHCIDriver := (List.range 32).foldl (probe mABAR) d

/-- The constructor, up to `Configure`, which tells the ports where their command lists are. -/
def construct (mABAR : HBAMemory) : AHCIDriver := ProbePorts mABAR ⟨[],0⟩

end AHCIDriver

/-- The port has a disk. -/
def HBAMemory.Connected (mABAR : HBAMemory) (x : Nat) : Prop :=
  mABAR.PortsImplemented.getLsbD x = true ∧ (GetPortType (mABAR.Ports x) = .SATA ∨ GetPortType (mABAR.Ports x) = .SATAPI)

instance (mABAR : HBAMemory) (x : Nat) : Decidable (mABAR.Connected x) := inferInstanceAs (Decidable (_ ∧ _))

variable {mABAR : HBAMemory} {d : AHCIDriver}

/-- The ports are numbered as they are added. -/
def AHCIDriver.Counted (d : AHCIDriver) : Prop := d.mPortCount = BitVec.ofNat 8 d.mPorts.length

theorem probe_eq (mABAR : HBAMemory) (counted : d.Counted) (x : Nat) : (d.probe mABAR x).Counted ∧
    (d.probe mABAR x).mPorts.map DriverPort.hbaPort = d.mPorts.map DriverPort.hbaPort ++ (if mABAR.Connected x then [x] else []) := by
  have added : ∀ portType, (d.AddPort portType x).Counted ∧
      (d.AddPort portType x).mPorts.map DriverPort.hbaPort = d.mPorts.map DriverPort.hbaPort ++ [x] := by
    refine fun portType => ⟨?_,by rw [AHCIDriver.AddPort,List.map_append,List.map_singleton]⟩
    rw [AHCIDriver.Counted,AHCIDriver.AddPort,counted,List.length_append,List.length_singleton,BitVec.ofNat_add]
    rfl
  rw [AHCIDriver.probe]
  by_cases implemented : mABAR.PortsImplemented.getLsbD x = true
  · rw [if_pos implemented]
    cases isType : GetPortType (mABAR.Ports x) with
    | SATA =>
      rw [if_pos (show mABAR.Connected x from ⟨implemented,.inl isType⟩)]
      exact added _
    | SATAPI =>
      rw [if_pos (show mABAR.Connected x from ⟨implemented,.inr isType⟩)]
      exact added _
    | None | SEMB | PM =>
      have other : ¬ mABAR.Connected x := by
        rw [HBAMemory.Connected,isType]
        exact fun connected => absurd connected.2 (by decide)
      rw [if_neg other,List.append_nil]
      exact ⟨counted,rfl⟩
  · rw [if_neg implemented,if_neg (fun connected : mABAR.Connected x => implemented connected.1),List.append_nil]
    exact ⟨counted,rfl⟩

theorem probes_eq (counted : d.Counted) (xs : List Nat) : (xs.foldl (AHCIDriver.probe mABAR) d).Counted ∧
    (xs.foldl (AHCIDriver.probe mABAR) d).mPorts.map DriverPort.hbaPort =
      d.mPorts.map DriverPort.hbaPort ++ xs.filter (fun x => mABAR.Connected x) := by
  induction xs generalizing d with
  | nil => exact ⟨counted,by simp⟩
  | cons x xs ih =>
    obtain ⟨counted',first⟩ := probe_eq mABAR counted x
    obtain ⟨counted'',rest⟩ := ih counted'
    refine ⟨counted'',?_⟩
    rw [List.foldl_cons,rest,first,List.append_assoc]
    by_cases connected : mABAR.Connected x
    · simp [connected]
    · simp [connected]

/-- The ports of the driver are those with a disk, in the order of the controller. -/
theorem construct_ports (mABAR : HBAMemory) : (AHCIDriver.construct mABAR).Counted ∧
    (AHCIDriver.construct mABAR).mPorts.map DriverPort.hbaPort = (List.range 32).filter (fun x => mABAR.Connected x) :=
  probes_eq (d := ⟨[],0⟩) rfl (List.range 32)

/-- No more than the controller has. -/
theorem construct_count (mABAR : HBAMemory) : (AHCIDriver.construct mABAR).mPortCount.toNat = (AHCIDriver.construct mABAR).mPorts.length := by
  obtain ⟨counted,ports⟩ := construct_ports mABAR
  have few : (AHCIDriver.construct mABAR).mPorts.length ≤ 32 := by
    have lengths := congrArg List.length ports
    rw [List.length_map] at lengths
    rw [lengths]
    exact (List.length_filter_le _ _).trans_eq List.length_range
  rw [counted,BitVec.toNat_ofNat]
  omega

end WaifuOS.AHCI

namespace WaifuOS.FAT32
open WaifuOS.Bytes WaifuOS.AHCI
open Function (update)

/-- The objects that are allocated for one port, by `DoesDriveContainF32` and for a driver. -/
structure Objects where
  ebr : Nat
  fsinfo : Nat
  mBootRecord : Nat
  mFSInfo : Nat
  this : Nat

/-- The ports, the memory of the transfers, how many ports were looked at, and the globals of the drivers with the objects
    that `Drives` points to. -/
structure Mounting where
  ports : Nat → ATAPort
  memory : Mem
  probes : Nat
  sNextDriveID : Nat
  Drives : KernelList Nat
  objects : Nat → Option Drive

/-- What is done with a port: it becomes a drive if there is a volume. -/
def probePort (alloc : Nat → Objects) (s : Mounting) (port : Nat × Device) : Option Mounting := do
  let (key,device) := port
  let o := alloc s.probes
  let (contains,p,memory) ← DoesDriveContainF32 device (s.ports key) s.memory o.ebr o.fsinfo
  let s := { s with ports := update s.ports key p, memory, probes := s.probes + 1 }
  if contains then do
    let built ← construct device p memory o.mBootRecord o.mFSInfo o.this s.sNextDriveID s.Drives
    let object := match built.result with
      | .ok d => some ⟨d.toFSDriver,key,device⟩
      | .error _ => none
    some { s with
      ports := update s.ports key built.port
      memory := built.memory
      sNextDriveID := built.sNextDriveID
      Drives := built.Drives
      objects := update s.objects o.this object }
  else some s

def SIG_AHCI : Nat := 0x010601

/-- The class, the subclass and the interface of a function. -/
def signature (config : Mem) (address : Nat) : Nat :=
  let pci := PCI.PCIDeviceHeader.read config address
  pci.Class <<< 16 ||| pci.Subclass <<< 8 ||| pci.ProgIF <<< 0

def BAR5 (config : Mem) (address : Nat) : Nat := load config (address + 0x24) 4

/-- The port `x` of the controller of the function `n`. -/
def portKey (n x : Nat) : Nat := 32 * n + x

variable (config : Mem) (hba : Nat → HBAMemory) (alloc : Nat → Objects) (mBuffer : Nat → Nat → BitVec 8)

/-- What is done with the function `n`. Drivers for XHCI have no drives. -/
def InitializeFunction (s : Mounting) (n pci : Nat) : Option Mounting :=
  if signature config pci = SIG_AHCI then
    let mABAR := hba (BAR5 config pci)
    let ahci := AHCIDriver.construct mABAR
    let ports := ahci.mPorts.foldl
      (fun ports port => update ports (portKey n port.hbaPort) (AddPort (mBuffer (portKey n port.hbaPort)))) s.ports
    let s := { s with ports }
    (List.range ahci.mPortCount.toNat).foldlM (fun s x =>
      match ahci.GetPort (BitVec.ofNat 8 x) with
      | some port => probePort alloc s (portKey n port.hbaPort,(mABAR.Ports port.hbaPort).device)
      | none => some s) s
  else some s

/-- `config` are the headers of the functions, `hba` the controllers by their addresses, `alloc` the objects by the ports that
    were looked at before, and `mBuffer` what the buffers of the ports hold. -/
def InitializePCIDevices (SupportedFunctions : KernelList Nat) (s : Mounting) : Option Mounting :=
  (List.range SupportedFunctions.GetCount).foldlM (fun s n => do
    let pci := (SupportedFunctions.Get n).2
    InitializeFunction config hba alloc mBuffer s n pci) s

/-- The disks behind the ports of the function `n`. -/
def attachedTo (n pci : Nat) : List (Nat × Device) :=
  if signature config pci = SIG_AHCI then
    ((List.range 32).filter (fun x => (hba (BAR5 config pci)).Connected x)).map
      (fun x => (portKey n x,((hba (BAR5 config pci)).Ports x).device))
  else []

/-- The disks in the order of the functions and their ports. -/
def attached (SupportedFunctions : KernelList Nat) (count : Nat) : List (Nat × Device) :=
  (List.range count).flatMap (fun n => attachedTo config hba n (SupportedFunctions.mArray n))

/-- No two functions of disks have one controller, whose ports would be used twice, and they are not too many to be counted. -/
structure Layout (SupportedFunctions : KernelList Nat) : Prop where
  controllers : ∀ n m, n < SupportedFunctions.mCount → m < SupportedFunctions.mCount →
    signature config (SupportedFunctions.mArray n) = SIG_AHCI → signature config (SupportedFunctions.mArray m) = SIG_AHCI →
    BAR5 config (SupportedFunctions.mArray n) = BAR5 config (SupportedFunctions.mArray m) → n = m
  few : 32 * SupportedFunctions.mCount + 1 < 2^64

/-- The places of the objects; no disk with accepted sectors makes the constructor divide by zero. -/
structure Supplied (disks : List (Nat × Device)) : Prop where
  probe : ∀ i, Apart (alloc i).ebr SECTOR_SIZE (alloc i).fsinfo SECTOR_SIZE
  driver : ∀ i, Apart (alloc i).mBootRecord SECTOR_SIZE (alloc i).mFSInfo SECTOR_SIZE
  objects : ∀ i j, (alloc i).this = (alloc j).this → i = j
  divides : ∀ v ∈ disks, Verified v.2 [] → Verified v.2 (verification v.2) → (bootRecord v.2).SectorsPerCluster ≠ 0

/-- The numbers of a boot record that the constructor accepts. -/
structure EBR.Accepted (ebr : EBR) : Prop where
  perCluster : ebr.SectorsPerCluster ≠ 0
  sectorSize : ebr.SectorSizeBytes ≠ 0
  clusters : 65525 ≤ (ebr.totalSectors + 2^32 - ebr.firstDataSector % 2^32) % 2^32 / ebr.SectorsPerCluster

instance (ebr : EBR) : Decidable ebr.Accepted :=
  decidable_of_iff (ebr.SectorsPerCluster ≠ 0 ∧ ebr.SectorSizeBytes ≠ 0 ∧
      65525 ≤ (ebr.totalSectors + 2^32 - ebr.firstDataSector % 2^32) % 2^32 / ebr.SectorsPerCluster)
    ⟨fun ⟨perCluster,sectorSize,clusters⟩ => ⟨perCluster,sectorSize,clusters⟩,fun a => ⟨a.perCluster,a.sectorSize,a.clusters⟩⟩

instance (device : Device) (earlier : List Command) : Decidable (Verified device earlier) :=
  decidable_of_iff (device.completes earlier (sectorRead 0) = true ∧
      (signed (sectorBytes device 0) 0 = true ∧ (bootRecord device).SectorsPerFAT32 ≠ 0) ∧
      device.completes (earlier ++ [sectorRead 0]) (sectorRead (infoSector device)) = true ∧
      FSInfo.signed (sectorBytes device (infoSector device)) 0 = true)
    ⟨fun ⟨bootRead,boot,infoRead,info⟩ => ⟨bootRead,boot,infoRead,info⟩,fun v => ⟨v.bootRead,v.boot,v.infoRead,v.info⟩⟩

/-- A disk with a volume: its sectors are accepted twice, and then the numbers of its boot record. -/
def HasVolume (device : Device) : Prop :=
  Verified device [] ∧ Verified device (verification device) ∧ (bootRecord device).Accepted

instance (device : Device) : Decidable (HasVolume device) := inferInstanceAs (Decidable (_ ∧ _))

def volumes (disks : List (Nat × Device)) : List (Nat × Device) := disks.filter (fun v => HasVolume v.2)

/-- The drives of volumes, which are numbered. -/
def numbered (vs : List (Nat × Device)) : List Drive :=
  vs.zipIdx.map (fun (v,k) => ⟨.mount (k % 2^16) (bootRecord v.2),v.1,v.2⟩)

/-- The drives in the list. -/
def Mounting.drives (s : Mounting) : List Drive := s.Drives.elements.filterMap s.objects

variable {config hba alloc mBuffer} {device : Device} {p : ATAPort} {m : Mem} {a b this id : Nat} {Drives : KernelList Nat} {ebr : EBR}
  {disks todo : List (Nat × Device)} {s s' : Mounting} {v : Nat × Device}

/-! ### One port -/

theorem calculate_accepted (accepted : ebr.Accepted) (id : Nat) : ∃ d, calculate id ebr = some (.ok d) := by
  have clusters := accepted.clusters
  rw [EBR.firstDataSector] at clusters
  simp only [calculate]
  rw [if_neg accepted.perCluster,if_neg accepted.sectorSize,if_neg (by omega),if_neg (by omega)]
  exact ⟨_,rfl⟩

theorem calculate_refused (some_sectors : ebr.SectorsPerCluster ≠ 0) (refused : ¬ ebr.Accepted) (id : Nat) :
    ∃ reason, calculate id ebr = some (.error reason) := by
  simp only [calculate,if_neg some_sectors]
  by_cases size : ebr.SectorSizeBytes = 0
  · exact ⟨.exFAT,if_pos size⟩
  · rw [if_neg size]
    split
    · exact ⟨.FAT12,rfl⟩
    · split
      · exact ⟨.FAT16,rfl⟩
      · rename_i many
        exact absurd ⟨some_sectors,size,by rw [EBR.firstDataSector]; omega⟩ refused

/-- What the constructor leaves of a drive with a volume, and of another one, if it does not divide by zero. -/
theorem construct_mounts (ready : Buffered p 8 false) (apart : Apart a SECTOR_SIZE b SECTOR_SIZE) (fresh : this ∉ Drives.elements)
    (divides : Verified device p.issued → (bootRecord device).SectorsPerCluster ≠ 0) (m : Mem) (id : Nat) :
    ∃ built, construct device p m a b this id Drives = some built ∧
      ((Verified device p.issued ∧ (bootRecord device).Accepted ∧ (∃ d, built.result = .ok d ∧ d.toFSDriver = .mount id (bootRecord device)) ∧
          Buffered built.port 8 false ∧ built.sNextDriveID = (id + 1) % 2^16 ∧ built.Drives = Drives.Add this) ∨
        (¬ (Verified device p.issued ∧ (bootRecord device).Accepted) ∧ (∃ reason, built.result = .error reason) ∧
          built.sNextDriveID = id ∧ built.Drives = Drives)) := by
  rw [construct_eq]
  rcases verified_spec ready apart m (destroy this id Drives) (finish a this id Drives) with
    ⟨verified,p',m',ready',_,record,same⟩ | ⟨refused,reason,p',m',same⟩
  · rw [same,finish,record]
    by_cases accepted : (bootRecord device).Accepted
    · obtain ⟨d,calculated⟩ := calculate_accepted accepted id
      rw [calculated]
      exact ⟨_,rfl,.inl ⟨verified,accepted,⟨d,rfl,(calculate_ok calculated).1⟩,ready',rfl,rfl⟩⟩
    · obtain ⟨reason,calculated⟩ := calculate_refused (divides verified) accepted id
      rw [calculated]
      exact ⟨_,rfl,.inr ⟨fun both => accepted both.2,⟨reason,rfl⟩,rfl,KernelList.remove_absent fresh⟩⟩
  · rw [same]
    exact ⟨_,rfl,.inr ⟨fun both => refused both.1,⟨reason,rfl⟩,rfl,KernelList.remove_absent fresh⟩⟩

/-- The disks that were looked at, and what has become of them. -/
structure Mounted (alloc : Nat → Objects) (disks : List (Nat × Device)) (s : Mounting) : Prop where
  probes : s.probes = disks.length
  drives : s.Drives.elements.map s.objects = (numbered (volumes disks)).map some
  next : s.sNextDriveID = (volumes disks).length % 2^16
  objects : ∀ a ∈ s.Drives.elements, ∃ i < disks.length, a = (alloc i).this
  ready : ∀ v ∈ volumes disks, Buffered (s.ports v.1) 8 false

theorem Mounted.count (mounted : Mounted alloc disks s) : s.Drives.mCount = (volumes disks).length := by
  have lengths := congrArg List.length mounted.drives
  rwa [List.length_map,List.length_map,KernelList.elements_length,numbered,List.length_map,List.length_zipIdx] at lengths

theorem volumes_none (none : ¬ HasVolume v.2) : volumes (disks ++ [v]) = volumes disks := by
  simp [volumes,List.filter_append,none]

theorem volumes_one (one : HasVolume v.2) : volumes (disks ++ [v]) = volumes disks ++ [v] := by
  simp [volumes,List.filter_append,one]

theorem numbered_append (vs : List (Nat × Device)) (v : Nat × Device) :
    numbered (vs ++ [v]) = numbered vs ++ [⟨.mount (vs.length % 2^16) (bootRecord v.2),v.1,v.2⟩] := by
  simp [numbered,List.zipIdx_append]

/-- A disk without a volume leaves the drives as they are. -/
theorem Mounted.skip (mounted : Mounted alloc disks s) (none : ¬ HasVolume v.2) (probes : s'.probes = s.probes + 1)
    (drives : s'.Drives = s.Drives) (objects : ∀ a ∈ s.Drives.elements, s'.objects a = s.objects a)
    (next : s'.sNextDriveID = s.sNextDriveID) (ports : ∀ w ∈ disks, s'.ports w.1 = s.ports w.1) : Mounted alloc (disks ++ [v]) s' where
  probes := by rw [probes,mounted.probes,List.length_append,List.length_singleton]
  drives := by rw [drives,volumes_none none,← mounted.drives,List.map_congr_left objects]
  next := by rw [next,volumes_none none,mounted.next]
  objects a member := by
    rw [drives] at member
    obtain ⟨i,before,same⟩ := mounted.objects a member
    exact ⟨i,by rw [List.length_append]; omega,same⟩
  ready w member := by
    rw [volumes_none none] at member
    rw [ports w (List.mem_filter.mp member).1]
    exact mounted.ready w member

/-- A volume becomes the next drive. -/
theorem Mounted.add (mounted : Mounted alloc disks s) (one : HasVolume v.2) (room : s.Drives.mCount + 1 < 2^64) (probes : s'.probes = s.probes + 1)
    (drives : s'.Drives = s.Drives.Add (alloc disks.length).this) (objects : ∀ a ∈ s.Drives.elements, s'.objects a = s.objects a)
    (object : s'.objects (alloc disks.length).this = some ⟨.mount s.sNextDriveID (bootRecord v.2),v.1,v.2⟩)
    (next : s'.sNextDriveID = (s.sNextDriveID + 1) % 2^16) (ports : ∀ w ∈ disks, s'.ports w.1 = s.ports w.1)
    (ready : Buffered (s'.ports v.1) 8 false) : Mounted alloc (disks ++ [v]) s' where
  probes := by rw [probes,mounted.probes,List.length_append,List.length_singleton]
  drives := by
    rw [drives,KernelList.elements_add room,List.map_append,List.map_singleton,object,List.map_congr_left objects,mounted.drives,
      volumes_one one,numbered_append,List.map_append,List.map_singleton,mounted.next]
  next := by
    rw [next,mounted.next,volumes_one one,List.length_append,List.length_singleton]
    omega
  objects a member := by
    rw [drives,KernelList.elements_add room,List.mem_append,List.mem_singleton] at member
    rw [List.length_append,List.length_singleton]
    rcases member with earlier | rfl
    · obtain ⟨i,before,same⟩ := mounted.objects a earlier
      exact ⟨i,by omega,same⟩
    · exact ⟨disks.length,by omega,rfl⟩
  ready w member := by
    rw [volumes_one one] at member
    rcases List.mem_append.mp member with earlier | last
    · rw [ports w (List.mem_filter.mp earlier).1]
      exact mounted.ready w earlier
    · rw [List.mem_singleton.mp last]
      exact ready

/-- A port that is new, and not the port of a disk before it, is looked at. -/
theorem probePort_mounted (mounted : Mounted alloc disks s) (supplied : Supplied alloc [v]) (ready : Buffered (s.ports v.1) 8 false)
    (new : (s.ports v.1).issued = []) (other : ∀ w ∈ disks, w.1 ≠ v.1) (few : disks.length + 1 < 2^64) :
    ∃ s', probePort alloc s v = some s' ∧ Mounted alloc (disks ++ [v]) s' ∧ ∀ key ≠ v.1, s'.ports key = s.ports key := by
  have divides := supplied.divides v List.mem_cons_self
  obtain ⟨key,device⟩ := v
  dsimp only at ready new other divides
  have counted := mounted.probes
  have fresh : (alloc disks.length).this ∉ s.Drives.elements := by
    intro member
    obtain ⟨i,before,same⟩ := mounted.objects _ member
    exact absurd (supplied.objects _ _ same) (by omega)
  have room : s.Drives.mCount + 1 < 2^64 := by
    have less := List.length_filter_le (fun v : Nat × Device => decide (HasVolume v.2)) disks
    rw [mounted.count,volumes]
    omega
  -- Objects that are in the list are not the new one.
  have kept : ∀ object, ∀ a ∈ s.Drives.elements, update s.objects (alloc disks.length).this object a = s.objects a := by
    intro object a member
    exact Function.update_of_ne (fun same => fresh (by rwa [← same])) _ _
  obtain ⟨contains,q,m,looked,isVerified,after⟩ := doesDriveContainF32_spec device ready (supplied.probe disks.length) s.memory
  rw [new,List.nil_append] at after
  rw [new] at isVerified
  simp only [probePort,counted]
  rw [looked,Option.bind_eq_bind,Option.bind_some]
  cases contains with
  | false =>
    have none : ¬ HasVolume device := fun has => absurd (isVerified.mpr has.1) (by decide)
    refine ⟨_,rfl,?_,fun k different => Function.update_of_ne different _ _⟩
    exact mounted.skip none (by rw [counted]) rfl (fun a _ => rfl) rfl (fun w member => Function.update_of_ne (other w member) _ _)
  | true =>
    obtain ⟨ready',history⟩ := after rfl
    have verified := isVerified.mp rfl
    obtain ⟨built,constructed,result⟩ := construct_mounts ready' (supplied.driver disks.length) fresh
      (fun again => divides verified (by rwa [history] at again)) m s.sNextDriveID
    rw [history] at result
    simp only [if_true]
    rw [constructed]
    have ports : ∀ k ≠ key, update (update s.ports key q) key built.port k = s.ports k := by
      intro k different
      rw [Function.update_of_ne different,Function.update_of_ne different]
    refine ⟨_,rfl,?_,ports⟩
    rcases result with ⟨again,accepted,⟨d,isOk,isDriver⟩,readyBuilt,next,added⟩ | ⟨refused,⟨reason,isError⟩,next,same⟩
    · have object : update s.objects (alloc disks.length).this (some ⟨d.toFSDriver,key,device⟩) (alloc disks.length).this =
          some ⟨.mount s.sNextDriveID (bootRecord device),key,device⟩ := by rw [Function.update_self,isDriver]
      refine mounted.add ⟨verified,again,accepted⟩ room (by rw [counted]) added (kept _) ?_ next (fun w member => ports _ (other w member)) ?_
      · simp only [isOk]
        exact object
      · show Buffered (update (update s.ports key q) key built.port key) 8 false
        rw [Function.update_self]
        exact readyBuilt
    · exact mounted.skip (fun has => refused ⟨has.2.1,has.2.2⟩) (by rw [counted]) same (kept _) next (fun w member => ports _ (other w member))

/-! ### All ports -/

theorem Supplied.mono {fewer : List (Nat × Device)} (supplied : Supplied alloc disks) (sub : ∀ v ∈ fewer, v ∈ disks) : Supplied alloc fewer :=
  ⟨supplied.probe,supplied.driver,supplied.objects,fun v member => supplied.divides v (sub v member)⟩

/-- Ports that are new are looked at one after another. -/
theorem probePorts_mounted (supplied : Supplied alloc todo) (mounted : Mounted alloc disks s)
    (new : ∀ v ∈ todo, Buffered (s.ports v.1) 8 false ∧ (s.ports v.1).issued = []) (apart : ((disks ++ todo).map Prod.fst).Nodup)
    (few : (disks ++ todo).length < 2^64) :
    ∃ s', todo.foldlM (probePort alloc) s = some s' ∧ Mounted alloc (disks ++ todo) s' := by
  induction todo generalizing disks s with
  | nil => exact ⟨s,rfl,by rwa [List.append_nil]⟩
  | cons v todo ih =>
    have split : disks ++ v :: todo = disks ++ [v] ++ todo := List.append_cons disks v todo
    have keys := apart
    rw [List.map_append,List.map_cons,List.nodup_append] at keys
    obtain ⟨_,distinct,others⟩ := keys
    have other : ∀ w ∈ disks, w.1 ≠ v.1 := fun w member => others w.1 (List.mem_map_of_mem member) v.1 List.mem_cons_self
    rw [List.nodup_cons] at distinct
    rw [List.length_append,List.length_cons] at few
    obtain ⟨ready,unused⟩ := new v List.mem_cons_self
    obtain ⟨s₁,first,mounted₁,still⟩ := probePort_mounted mounted (supplied.mono (fun w member => by
      rw [List.mem_singleton.mp member]; exact List.mem_cons_self)) ready unused other (by omega)
    rw [split] at apart ⊢
    obtain ⟨s',rest,mounted'⟩ := ih (supplied.mono (fun w member => List.mem_cons_of_mem v member)) mounted₁
      (fun w member => by
        have different : w.1 ≠ v.1 := fun same => distinct.1 (same ▸ List.mem_map_of_mem member)
        rw [still w.1 different]
        exact new w (List.mem_cons_of_mem v member)) apart (by rw [List.length_append,List.length_append,List.length_singleton]; omega)
    refine ⟨s',?_,mounted'⟩
    rw [List.foldlM_cons,first]
    exact rest

theorem foldlM_congr {α β : Type} {f g : β → α → Option β} {l : List α} {b : β} (same : ∀ b, ∀ a ∈ l, f b a = g b a) :
    l.foldlM f b = l.foldlM g b := by
  induction l generalizing b with
  | nil => rfl
  | cons a l ih =>
    rw [List.foldlM_cons,List.foldlM_cons,same b a List.mem_cons_self]
    exact bind_congr (fun b' => ih (fun c x member => same c x (List.mem_cons_of_mem _ member)))

/-- A loop over the places of a list is a loop over the list. -/
theorem foldlM_places {α β : Type} (f : β → α → Option β) (l : List α) (b : β) :
    (List.range l.length).foldlM (fun b x => match l[x]? with | some a => f b a | none => some b) b = l.foldlM f b := by
  induction l generalizing b with
  | nil => rfl
  | cons a l ih =>
    rw [List.length_cons,List.range_succ_eq_map,List.foldlM_cons,List.foldlM_cons]
    exact bind_congr (fun b' => List.foldlM_map.trans (ih b'))

/-- The ports of a function are new when its driver is there. -/
theorem added_ports (mBuffer : Nat → Nat → BitVec 8) (n : Nat) (xs : List DriverPort) (ports : Nat → ATAPort) (key : Nat) :
    xs.foldl (fun ports port => update ports (portKey n port.hbaPort) (AddPort (mBuffer (portKey n port.hbaPort)))) ports key =
      if key ∈ xs.map (fun port => portKey n port.hbaPort) then AddPort (mBuffer key) else ports key := by
  induction xs generalizing ports with
  | nil => rfl
  | cons port xs ih =>
    rw [List.foldl_cons,ih,List.map_cons]
    by_cases later : key ∈ xs.map (fun port => portKey n port.hbaPort)
    · rw [if_pos later,if_pos (List.mem_cons_of_mem _ later)]
    · rw [if_neg later]
      by_cases here : key = portKey n port.hbaPort
      · subst here
        rw [Function.update_self,if_pos List.mem_cons_self]
      · rw [Function.update_of_ne here,if_neg (fun member => (List.mem_cons.mp member).elim here later)]

/-- The ports of a function have numbers of their own. -/
theorem attachedTo_keys (config : Mem) (hba : Nat → HBAMemory) (n pci : Nat) : ((attachedTo config hba n pci).map Prod.fst).Nodup ∧
    (attachedTo config hba n pci).length ≤ 32 ∧ ∀ v ∈ attachedTo config hba n pci, 32 * n ≤ v.1 ∧ v.1 < 32 * (n+1) := by
  rw [attachedTo]
  split
  · rw [List.map_map]
    refine ⟨?_,?_,?_⟩
    · refine List.Nodup.map_on ?_ (List.nodup_range.filter _)
      intro x _ y _ same
      simp only [Function.comp_apply,portKey] at same
      omega
    · rw [List.length_map]
      exact (List.length_filter_le _ _).trans_eq List.length_range
    · intro v member
      obtain ⟨x,inside,rfl⟩ := List.mem_map.mp member
      have small := List.mem_range.mp (List.mem_filter.mp inside).1
      dsimp only [portKey]
      omega
  · exact ⟨List.nodup_nil,Nat.zero_le _,fun v member => by cases member⟩

/-- What is done with a function is done with its disks, whose ports are new. -/
theorem initializeFunction_eq (config : Mem) (hba : Nat → HBAMemory) (alloc : Nat → Objects) (mBuffer : Nat → Nat → BitVec 8) (s : Mounting) (n pci : Nat) : ∃ s₁ : Mounting,
    InitializeFunction config hba alloc mBuffer s n pci = (attachedTo config hba n pci).foldlM (probePort alloc) s₁ ∧
    s₁.probes = s.probes ∧ s₁.Drives = s.Drives ∧ s₁.objects = s.objects ∧ s₁.sNextDriveID = s.sNextDriveID ∧
    (∀ v ∈ attachedTo config hba n pci, s₁.ports v.1 = AddPort (mBuffer v.1)) ∧
    ∀ key, (∀ v ∈ attachedTo config hba n pci, v.1 ≠ key) → s₁.ports key = s.ports key := by
  rw [InitializeFunction,attachedTo]
  by_cases isAHCI : signature config pci = SIG_AHCI
  · rw [if_pos isAHCI,if_pos isAHCI]
    dsimp only
    obtain ⟨_,places⟩ := construct_ports (hba (BAR5 config pci))
    have count := construct_count (hba (BAR5 config pci))
    generalize AHCIDriver.construct (hba (BAR5 config pci)) = ahci at places count
    rw [← places]
    have new := added_ports mBuffer n ahci.mPorts s.ports
    generalize ahci.mPorts.foldl
      (fun ports port => update ports (portKey n port.hbaPort) (AddPort (mBuffer (portKey n port.hbaPort)))) s.ports = ports at new
    refine ⟨{ s with ports },?_,rfl,rfl,rfl,rfl,?_,?_⟩
    · rw [List.map_map,List.foldlM_map,count]
      refine (foldlM_congr ?_).trans (foldlM_places _ ahci.mPorts _)
      intro b x inside
      have small := List.mem_range.mp inside
      have number : (BitVec.ofNat 8 x).toNat = x := by
        have word := ahci.mPortCount.isLt
        rw [BitVec.toNat_ofNat]
        omega
      rw [AHCIDriver.GetPort,if_neg (by rw [ge_iff_le,BitVec.le_def,number]; omega),number]
      cases ahci.mPorts[x]? <;> rfl
    · intro v member
      rw [List.map_map] at member
      obtain ⟨port,inside,rfl⟩ := List.mem_map.mp member
      exact (new _).trans (if_pos (List.mem_map.mpr ⟨port,inside,rfl⟩))
    · intro key none
      apply (new key).trans
      apply if_neg
      intro member
      obtain ⟨port,inside,rfl⟩ := List.mem_map.mp member
      exact none _ (List.mem_map.mpr ⟨port.hbaPort,List.mem_map_of_mem inside,rfl⟩) rfl
  · rw [if_neg isAHCI,if_neg isAHCI]
    exact ⟨s,rfl,rfl,rfl,rfl,rfl,fun v member => by (cases member),fun key _ => rfl⟩

/-- What is known of a state does not depend on the ports of other disks. -/
theorem Mounted.congr {s₁ : Mounting} (mounted : Mounted alloc disks s) (probes : s₁.probes = s.probes) (drives : s₁.Drives = s.Drives)
    (objects : s₁.objects = s.objects) (next : s₁.sNextDriveID = s.sNextDriveID) (ports : ∀ w ∈ disks, s₁.ports w.1 = s.ports w.1) :
    Mounted alloc disks s₁ where
  probes := probes.trans mounted.probes
  drives := by rw [drives,objects,mounted.drives]
  next := next.trans mounted.next
  objects := by
    rw [drives]
    exact mounted.objects
  ready w member := by
    rw [ports w (List.mem_filter.mp member).1]
    exact mounted.ready w member

/-- The first `n` functions have been initialized. -/
theorem functions_mounted {SupportedFunctions : KernelList Nat} (layout : Layout config SupportedFunctions)
    (supplied : Supplied alloc (attached config hba SupportedFunctions SupportedFunctions.mCount)) (start : Mounted alloc [] s)
    (mBuffer : Nat → Nat → BitVec 8) (n : Nat) (inside : n ≤ SupportedFunctions.mCount) :
    ∃ s', (List.range n).foldlM (fun s n => do
        let pci := (SupportedFunctions.Get n).2
        InitializeFunction config hba alloc mBuffer s n pci) s = some s' ∧
      Mounted alloc (attached config hba SupportedFunctions n) s' ∧ (attached config hba SupportedFunctions n).length ≤ 32 * n ∧
      ((attached config hba SupportedFunctions n).map Prod.fst).Nodup ∧ ∀ v ∈ attached config hba SupportedFunctions n, v.1 < 32 * n := by
  have few := layout.few
  induction n with
  | zero => exact ⟨s,rfl,start,Nat.le_refl _,List.nodup_nil,fun v member => by cases member⟩
  | succ n ih =>
    obtain ⟨s₁,first,mounted,length,nodup,low⟩ := ih (by omega)
    obtain ⟨distinct,short,between⟩ := attachedTo_keys config hba n (SupportedFunctions.mArray n)
    have whole : attached config hba SupportedFunctions (n+1) =
        attached config hba SupportedFunctions n ++ attachedTo config hba n (SupportedFunctions.mArray n) := by
      rw [attached,List.range_succ,List.flatMap_append,List.flatMap_singleton]
      rfl
    have apart : ((attached config hba SupportedFunctions n ++ attachedTo config hba n (SupportedFunctions.mArray n)).map Prod.fst).Nodup := by
      rw [List.map_append,List.nodup_append]
      refine ⟨nodup,distinct,?_⟩
      intro a member b member'
      obtain ⟨v,isIn,rfl⟩ := List.mem_map.mp member
      obtain ⟨w,isIn',rfl⟩ := List.mem_map.mp member'
      have before := low v isIn
      have behind := between w isIn'
      omega
    have sub : ∀ v ∈ attachedTo config hba n (SupportedFunctions.mArray n), v ∈ attached config hba SupportedFunctions SupportedFunctions.mCount :=
      fun v member => List.mem_flatMap.mpr ⟨n,List.mem_range.mpr (by omega),member⟩
    obtain ⟨s₂,same,probes,drives,objects,next,new,others⟩ := initializeFunction_eq config hba alloc mBuffer
      s₁ n (SupportedFunctions.mArray n)
    have mounted₂ := mounted.congr probes drives objects next (fun w member => others w.1 (fun v there => by
      have before := low w member
      have behind := between v there
      omega))
    obtain ⟨s',rest,mounted'⟩ := probePorts_mounted (supplied.mono sub) mounted₂ (fun v member => by
      rw [new v member]
      exact ⟨addPort_buffered _,rfl⟩) apart (by rw [List.length_append]; omega)
    rw [whole]
    refine ⟨s',?_,mounted',by rw [List.length_append]; omega,apart,?_⟩
    · rw [List.range_succ,List.foldlM_append,first]
      simp only [Option.bind_eq_bind,Option.bind_some,List.foldlM_cons,List.foldlM_nil,KernelList.get_value,same,rest]
      rfl
    · intro v member
      rcases List.mem_append.mp member with earlier | last
      · have before := low v earlier
        omega
      · exact (between v last).2

/-- The drive with a number below the word of numbers is at its place. -/
theorem numbered_find (vs : List (Nat × Device)) (id : Nat) (byte : id < 256) :
    (numbered vs).find? (fun drive => drive.driver.mDriveID = id) = vs[id]?.map (fun v => ⟨.mount id (bootRecord v.2),v.1,v.2⟩) := by
  have place : ∀ k (h : k < (numbered vs).length), ((numbered vs)[k]).driver.mDriveID = k % 2^16 := by
    intro k h
    simp [numbered,FSDriver.mount]
  have length : (numbered vs).length = vs.length := by rw [numbered,List.length_map,List.length_zipIdx]
  by_cases inside : id < vs.length
  · rw [List.getElem?_eq_getElem inside,Option.map_some]
    refine List.find?_eq_some_iff_getElem.mpr ⟨?_,id,by omega,?_,?_⟩
    · exact decide_eq_true rfl
    · have same : id % 65536 = id := by omega
      simp [numbered,same]
    · intro j before
      rw [place]
      simp only [Bool.not_eq_true',decide_eq_false_iff_not]
      omega
  · rw [List.getElem?_eq_none (by omega),Option.map_none]
    refine List.find?_eq_none.mpr ?_
    intro drive member
    obtain ⟨k,h,rfl⟩ := List.getElem_of_mem member
    rw [place]
    simp only [decide_eq_true_eq]
    omega

/-- The header of an AHCI function. -/
def oneFunction : Mem := fun i =>
  match i with
  | 0x1009 => 0x01 | 0x100A => 0x06 | 0x100B => 0x01 | 0x1026 => 0xBF | 0x1027 => 0xFE
  | _ => 0

/-- Disks at the ports 0 and 2, of which the second one has a volume. -/
def twoDisks : HBAMemory where
  PortsImplemented := 0b101
  Ports x := ⟨0x113,0x101,if x = 0 then Disk.device ⟨fun _ => 0,66581⟩ else (clusterDisk 1).device⟩

def spacedObjects (i : Nat) : Objects :=
  ⟨0x100000 + 0x1000*i,0x100400 + 0x1000*i,0x100800 + 0x1000*i,0x100C00 + 0x1000*i,0x90000000 + i⟩

/-- The list of the function. -/
def oneSupported : KernelList Nat := ⟨fun _ => 0x1000,5,1⟩

theorem twoDisks_attached : attached oneFunction (fun _ => twoDisks) oneSupported 1 =
    [(0,Disk.device ⟨fun _ => 0,66581⟩),(2,(clusterDisk 1).device)] := by
  have isAHCI : signature oneFunction 0x1000 = SIG_AHCI := by decide
  have ports : (List.range 32).filter (fun x => twoDisks.Connected x) = [0,2] := by decide
  rw [attached,List.range_one,List.flatMap_singleton,attachedTo,oneSupported,if_pos isAHCI,ports]
  rfl

theorem twoDisks_supplied : Supplied spacedObjects (attached oneFunction (fun _ => twoDisks) oneSupported 1) := by
  refine ⟨?_,?_,?_,?_⟩
  · intro i
    unfold Apart spacedObjects SECTOR_SIZE
    dsimp only
    omega
  · intro i
    unfold Apart spacedObjects SECTOR_SIZE
    dsimp only
    omega
  · intro i j same
    unfold spacedObjects at same
    dsimp only at same
    omega
  · intro v member verified _
    rw [twoDisks_attached] at member
    rcases List.mem_cons.mp member with rfl | second
    · exact absurd verified (by decide +kernel)
    · rw [List.mem_singleton.mp second]
      decide +kernel

end WaifuOS.FAT32
