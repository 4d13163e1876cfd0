import WaifuOS.Bytes
import WaifuOS.Lists

/-!
The enumeration of the functions on the PCI buses (`PCI.cpp`). Every function has a header in
memory, at an address that its bus, its device and its number give. The enumeration looks at
the first header of a bus and of a device before it goes on to the others, and adds the
functions that have a driver to a list. `enumeratePCI_elements` says which functions are
added, and `enumeratePCI_complete_iff` when these are all that are present on the
buses of the table.
-/
namespace WaifuOS.PCI
open WaifuOS.Words WaifuOS.Bytes

/-- The fields of a header that are looked at. -/
structure PCIDeviceHeader where
  DeviceID : Nat
  Class : Nat
  Subclass : Nat
  ProgIF : Nat

def PCIDeviceHeader.read (m : Mem) (address : Nat) : PCIDeviceHeader where
  DeviceID := load m (address + 2) 2
  Class := load m (address + 11) 1
  Subclass := load m (address + 10) 1
  ProgIF := load m (address + 9) 1

/-- An entry of the table. -/
structure DeviceConfig where
  BaseAddress : Nat
  StartBus : Nat
  EndBus : Nat

def DeviceConfig.read (m : Mem) (address : Nat) : DeviceConfig where
  BaseAddress := load m address 8
  StartBus := load m (address + 10) 1
  EndBus := load m (address + 11) 1

/-- `if (!pci->DeviceID || pci->DeviceID == 0xFFFF) return`. -/
def absent (m : Mem) (address : Nat) : Bool :=
  let pci := PCIDeviceHeader.read m address
  pci.DeviceID = 0 ∨ pci.DeviceID = 0xFFFF

/-- `EnumerateFunction`, whose header is readable after its page was mapped. What is not added is only printed. -/
def EnumerateFunction (m : Mem) (SupportedFunctions : KernelList Nat) (deviceAddress func : Nat) : KernelList Nat :=
  let offset := wrap (func <<< 12)
  let funcAddress := wrap (deviceAddress + offset)
  if absent m funcAddress then SupportedFunctions
  else
    let pci := PCIDeviceHeader.read m funcAddress
    match pci.Class, pci.Subclass, pci.ProgIF with
    -- `ACHI` 1.0 Host
    | 0x01, 0x06, 0x01 => SupportedFunctions.Add funcAddress
    -- XHCI (USB3) Controller
    | 0x0C, 0x03, 0x30 => SupportedFunctions.Add funcAddress
    | _, _, _ => SupportedFunctions

def EnumerateDevice (m : Mem) (SupportedFunctions : KernelList Nat) (busAddress dev : Nat) : KernelList Nat :=
  let offset := wrap (dev <<< 15)
  let deviceAddress := wrap (busAddress + offset)
  if absent m deviceAddress then SupportedFunctions
  else (List.range 8).foldl (fun SupportedFunctions func => EnumerateFunction m SupportedFunctions deviceAddress func) SupportedFunctions

def EnumerateBus (m : Mem) (SupportedFunctions : KernelList Nat) (baseAddress bus : Nat) : KernelList Nat :=
  let offset := wrap (bus <<< 20)
  let busAddress := wrap (baseAddress + offset)
  if absent m busAddress then SupportedFunctions
  else (List.range 32).foldl (fun SupportedFunctions dev => EnumerateDevice m SupportedFunctions busAddress dev) SupportedFunctions

/-- The list, and whether the enumeration runs for the first time. -/
structure State where
  _init : Bool
  SupportedFunctions : KernelList Nat

/-- The number of entries of the table; its header has 44 bytes and an entry 16. -/
def entries (m : Mem) (mcfg : Nat) : Nat := sub (load m (mcfg + 4) 4) 44 / 16 % 2^32

def config (m : Mem) (mcfg x : Nat) : DeviceConfig := .read m (wrap (mcfg + 44 + 16*x))

/-- The loop over the buses of an entry. -/
def EnumerateConfig (m : Mem) (SupportedFunctions : KernelList Nat) (cfg : DeviceConfig) : KernelList Nat :=
  (List.range' cfg.StartBus (cfg.EndBus - cfg.StartBus)).foldl
    (fun SupportedFunctions bus => EnumerateBus m SupportedFunctions cfg.BaseAddress bus) SupportedFunctions

def EnumeratePCI (m : Mem) (s : State) (mcfg : Nat) : State :=
  let SupportedFunctions := if s._init then .empty else s.SupportedFunctions
  { _init := false
    SupportedFunctions := (List.range (entries m mcfg)).foldl
      (fun SupportedFunctions x => EnumerateConfig m SupportedFunctions (config m mcfg x)) SupportedFunctions }

/-- Where the header of a function is. -/
def address (BaseAddress bus dev func : Nat) : Nat := (BaseAddress + bus * 2^20 + dev * 2^15 + func * 2^12) % 2^64

/-- The function is present and has a driver: AHCI or XHCI. -/
def Supported (m : Mem) (address : Nat) : Prop :=
  let pci := PCIDeviceHeader.read m address
  absent m address = false ∧
    ((pci.Class = 0x01 ∧ pci.Subclass = 0x06 ∧ pci.ProgIF = 0x01) ∨ (pci.Class = 0x0C ∧ pci.Subclass = 0x03 ∧ pci.ProgIF = 0x30))

instance (m : Mem) (address : Nat) : Decidable (Supported m address) := inferInstanceAs (Decidable (_ ∧ _))

/-- A supported function of a device on a bus; the first function of the device is present. -/
def OnBus (m : Mem) (BaseAddress bus address' : Nat) : Prop :=
  ∃ dev < 32, ∃ func < 8, absent m (address BaseAddress bus dev 0) = false ∧ Supported m (address BaseAddress bus dev func) ∧
    address BaseAddress bus dev func = address'

/-- A supported function on one of the buses of the table, the last bus of an entry included. -/
def Listed (m : Mem) (mcfg address' : Nat) : Prop :=
  ∃ x < entries m mcfg, ∃ bus, (config m mcfg x).StartBus ≤ bus ∧ bus ≤ (config m mcfg x).EndBus ∧
    OnBus m (config m mcfg x).BaseAddress bus address'

/-- A supported function on a bus of the table that is not the last one of its entry, and whose
    device 0 is present. -/
def Reached (m : Mem) (mcfg address' : Nat) : Prop :=
  ∃ x < entries m mcfg, ∃ bus, (config m mcfg x).StartBus ≤ bus ∧ bus < (config m mcfg x).EndBus ∧
    absent m (address (config m mcfg x).BaseAddress bus 0 0) = false ∧ OnBus m (config m mcfg x).BaseAddress bus address'

/-- After an enumeration the list contains every supported function on the buses of the table. -/
def Complete (m : Mem) (s : State) (mcfg : Nat) : Prop :=
  ∀ a, Listed m mcfg a → a ∈ (EnumeratePCI m s mcfg).SupportedFunctions.elements

variable {m : Mem} {s : State} {mcfg : Nat}

/-- `f` adds at most `n` elements to a list, and these are what `S` says. -/
def Adds (n : Nat) (S : Nat → Prop) (f : KernelList Nat → KernelList Nat) : Prop :=
  ∀ l : KernelList Nat, l.mCount + n < 2^64 → (f l).mCount ≤ l.mCount + n ∧ ∀ a, a ∈ (f l).elements ↔ a ∈ l.elements ∨ S a

theorem adds_none {n : Nat} : Adds n (fun _ => False) (fun l => l) := fun l room => ⟨Nat.le_add_right _ _,fun a => by simp⟩

theorem adds_one (b : Nat) : Adds 1 (fun a => a = b) (fun l => l.Add b) := by
  intro l room
  constructor
  · rw [KernelList.add_mCount]
    simp only [wrap]
    omega
  · intro a
    rw [KernelList.elements_add room,List.mem_append,List.mem_singleton]

theorem Adds.congr {n : Nat} {S S' : Nat → Prop} {f : KernelList Nat → KernelList Nat} (adds : Adds n S f) (same : ∀ a, S a ↔ S' a) :
    Adds n S' f :=
  fun l room => ⟨(adds l room).1,fun a => by rw [(adds l room).2,same]⟩

/-- A loop adds what its rounds add. -/
theorem adds_foldl {n : Nat} {S : Nat → Nat → Prop} {f : KernelList Nat → Nat → KernelList Nat} (xs : List Nat)
    (each : ∀ x ∈ xs, Adds n (S x) (fun l => f l x)) : Adds (xs.length * n) (fun a => ∃ x ∈ xs, S x a) (fun l => xs.foldl f l) := by
  induction xs with
  | nil =>
    intro l room
    exact ⟨Nat.le_add_right _ _,fun a => by simp⟩
  | cons x xs ih =>
    intro l room
    rw [List.length_cons,Nat.succ_mul] at room
    obtain ⟨few,first⟩ := each x List.mem_cons_self l (by omega)
    dsimp only at few first
    obtain ⟨few',later⟩ := ih (fun y member => each y (List.mem_cons_of_mem _ member)) (f l x) (by omega)
    dsimp only at few' later
    constructor
    · dsimp only
      rw [List.length_cons,Nat.succ_mul,List.foldl_cons]
      omega
    · intro a
      dsimp only
      rw [List.foldl_cons,later,first,or_assoc]
      simp

theorem address_bus (base bus : Nat) : wrap (base + wrap (bus <<< 20)) = address base bus 0 0 := by
  simp only [wrap,address]
  rw [Nat.shiftLeft_eq]
  omega

theorem address_device (base bus dev : Nat) : wrap (address base bus 0 0 + wrap (dev <<< 15)) = address base bus dev 0 := by
  simp only [wrap,address]
  rw [Nat.shiftLeft_eq]
  omega

theorem address_function (base bus dev func : Nat) : wrap (address base bus dev 0 + wrap (func <<< 12)) = address base bus dev func := by
  simp only [wrap,address]
  rw [Nat.shiftLeft_eq]
  omega

theorem function_adds (deviceAddress func : Nat) : Adds 1
    (fun a => Supported m (wrap (deviceAddress + wrap (func <<< 12))) ∧ a = wrap (deviceAddress + wrap (func <<< 12)))
    (fun l => EnumerateFunction m l deviceAddress func) := by
  unfold EnumerateFunction
  dsimp only
  generalize wrap (deviceAddress + wrap (func <<< 12)) = b
  by_cases gone : absent m b = true
  · simp only [if_pos gone]
    exact adds_none.congr (fun a => by simp [Supported,gone])
  · simp only [if_neg gone]
    split
    · next isClass isSubclass isProgIF =>
      exact (adds_one b).congr (fun a => by simp [Supported,gone,isClass,isSubclass,isProgIF])
    · next isClass isSubclass isProgIF =>
      exact (adds_one b).congr (fun a => by simp [Supported,gone,isClass,isSubclass,isProgIF])
    · next noAHCI noXHCI =>
      apply adds_none.congr
      intro a
      simp only [false_iff,Supported]
      rintro ⟨⟨_,⟨isClass,isSubclass,isProgIF⟩ | ⟨isClass,isSubclass,isProgIF⟩⟩,_⟩
      · exact noAHCI isClass isSubclass isProgIF
      · exact noXHCI isClass isSubclass isProgIF

theorem device_adds (base bus dev : Nat) : Adds 8
    (fun a => absent m (address base bus dev 0) = false ∧ ∃ func < 8, Supported m (address base bus dev func) ∧ a = address base bus dev func)
    (fun l => EnumerateDevice m l (address base bus 0 0) dev) := by
  simp only [EnumerateDevice]
  simp only [address_device]
  by_cases gone : absent m (address base bus dev 0) = true
  · simp only [if_pos gone]
    exact adds_none.congr (fun a => by simp [gone])
  · simp only [if_neg gone]
    have loop := adds_foldl (List.range 8) (fun func _ => function_adds (m := m) (address base bus dev 0) func)
    exact loop.congr (fun a => by simp [address_function,gone])

theorem bus_adds (base bus : Nat) : Adds 256 (fun a => absent m (address base bus 0 0) = false ∧ OnBus m base bus a)
    (fun l => EnumerateBus m l base bus) := by
  simp only [EnumerateBus]
  simp only [address_bus]
  by_cases gone : absent m (address base bus 0 0) = true
  · simp only [if_pos gone]
    exact adds_none.congr (fun a => by simp [gone])
  · simp only [if_neg gone]
    have loop := adds_foldl (List.range 32) (fun dev _ => device_adds (m := m) base bus dev)
    apply loop.congr
    intro a
    simp only [List.mem_range,OnBus,Bool.eq_false_of_not_eq_true gone,true_and]
    constructor
    · rintro ⟨dev,small,here,func,less,supported,rfl⟩
      exact ⟨dev,small,func,less,here,supported,rfl⟩
    · rintro ⟨dev,small,func,less,here,supported,rfl⟩
      exact ⟨dev,small,here,func,less,supported,rfl⟩

theorem config_adds (cfg : DeviceConfig) (byte : cfg.EndBus < 256) : Adds 65536
    (fun a => ∃ bus, cfg.StartBus ≤ bus ∧ bus < cfg.EndBus ∧ absent m (address cfg.BaseAddress bus 0 0) = false ∧ OnBus m cfg.BaseAddress bus a)
    (fun l => EnumerateConfig m l cfg) := by
  have loop := adds_foldl (List.range' cfg.StartBus (cfg.EndBus - cfg.StartBus)) (fun bus _ => bus_adds (m := m) cfg.BaseAddress bus)
  intro l room
  rw [List.length_range'] at loop
  obtain ⟨few,members⟩ := loop l (by omega)
  dsimp only at few members
  constructor
  · exact few.trans (by omega)
  · intro a
    simp only [EnumerateConfig]
    rw [members]
    refine or_congr_right (exists_congr ?_)
    intro bus
    rw [List.mem_range'_1]
    constructor
    · rintro ⟨⟨low,high⟩,here⟩
      exact ⟨low,by omega,here⟩
    · rintro ⟨low,high,here⟩
      exact ⟨⟨low,by omega⟩,here⟩

/-- The list that an enumeration begins with. -/
def State.earlier (s : State) : KernelList Nat := if s._init then .empty else s.SupportedFunctions

/-- The enumeration adds the functions that it reaches. -/
theorem enumeratePCI_elements (few : s.earlier.mCount < 2^63) (a : Nat) :
    a ∈ (EnumeratePCI m s mcfg).SupportedFunctions.elements ↔ a ∈ s.earlier.elements ∨ Reached m mcfg a := by
  have each : ∀ x ∈ List.range (entries m mcfg), Adds 65536 _ (fun l => EnumerateConfig m l (config m mcfg x)) := fun x _ =>
    config_adds (m := m) (config m mcfg x) (load_lt _ _ 1)
  have count : entries m mcfg < 2^32 := Nat.mod_lt _ (by decide)
  obtain ⟨_,members⟩ := adds_foldl _ each s.earlier (by rw [List.length_range]; omega)
  rw [EnumeratePCI]
  show a ∈ ((List.range (entries m mcfg)).foldl (fun l x => EnumerateConfig m l (config m mcfg x)) s.earlier).elements ↔ _
  rw [members]
  simp only [List.mem_range,Reached]

/-- The list contains every supported function on the buses of the table when each of them is there already, or
    is also on a bus that is not the last one of its entry and whose device 0 is present. -/
theorem enumeratePCI_complete_iff (few : s.earlier.mCount < 2^63) :
    Complete m s mcfg ↔ ∀ a, Listed m mcfg a → a ∈ s.earlier.elements ∨ Reached m mcfg a :=
  forall_congr' (fun a => forall_congr' (fun _ => enumeratePCI_elements few a))

/-- A table at 0x1000 with one entry, for the buses from 0 to `EndBus`, and an AHCI controller that is the only
    function on bus 0. -/
def oneController (EndBus : BitVec 8) : Mem := fun i =>
  match i with
  | 0x1004 => 60
  | 0x102F => 0x10
  | 0x1037 => EndBus
  | 0x10000002 => 0x22
  | 0x10000003 => 0x29
  | 0x10000009 => 0x01
  | 0x1000000A => 0x06
  | 0x1000000B => 0x01
  | _ => 0

/-- Before the first enumeration. -/
def boot : State := ⟨true,.empty⟩

theorem boot_few : boot.earlier.mCount < 2^63 := by decide

/-- With bus 1 as the last one the controller is added. -/
theorem enumeratePCI_complete_iff_twoBuses : Complete (oneController 1) boot 0x1000 := by
  apply (enumeratePCI_complete_iff boot_few).mpr
  rintro a ⟨x,small,bus,low,high,here⟩
  have count : entries (oneController 1) 0x1000 = 1 := by decide +kernel
  obtain rfl : x = 0 := by omega
  have last : (config (oneController 1) 0x1000 0).EndBus = 1 := by decide +kernel
  by_cases first : bus = 0
  · subst first
    exact .inr ⟨0,small,0,low,by omega,by decide +kernel,here⟩
  · obtain rfl : bus = 1 := by omega
    have none : ∀ dev < 32, absent (oneController 1) (address (config (oneController 1) 0x1000 0).BaseAddress 1 dev 0) = true := by
      decide +kernel
    obtain ⟨dev,less,_,_,present,_⟩ := here
    rw [none dev less] at present
    cases present

/-- With bus 0 as the last one it is not. -/
theorem enumeratePCI_incomplete : ¬ Complete (oneController 0) boot 0x1000 := by
  intro complete
  have last : (config (oneController 0) 0x1000 0).EndBus = 0 := by decide +kernel
  have listed : Listed (oneController 0) 0x1000 0x10000000 :=
    ⟨0,by decide +kernel,0,by decide +kernel,by decide +kernel,0,by decide,0,by decide,by decide +kernel,by decide +kernel,by decide +kernel⟩
  rcases (enumeratePCI_elements boot_few _).mp (complete _ listed) with old | ⟨x,small,bus,_,high,_⟩
  · cases old
  · have count : entries (oneController 0) 0x1000 = 1 := by decide +kernel
    obtain rfl : x = 0 := by omega
    omega

end WaifuOS.PCI
