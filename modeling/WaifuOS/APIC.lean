import WaifuOS.Bytes
import WaifuOS.Lists

/-!
The I/O APICs (`APIC.cpp`, `IOAPIC.cpp`, `IOAPIC.h`). `ParseMADT` walks the records of
a table in memory and keeps pointers to them. An I/O APIC has indirect registers behind
a select register of 8 bits: the select register is written, then the value. A redirection
entry of 64 bits takes two of them. `writes` is a ghost list of what was written to which
register, the last write first, and nothing reads it.
-/
namespace WaifuOS.APIC
open WaifuOS.Words WaifuOS.Bytes

def IOApicRedirectionTableOffset : Nat := 0x10

/-- The fields of an I/O APIC that its operations read, and the device. -/
structure IOAPIC where
  mMaxRedEntryCount : BitVec 8
  mGlobalInterruptBase : Nat
  RegisterSelect : Nat
  registers : Nat → BitVec 32
  writes : List (Nat × BitVec 32)
deriving Inhabited

namespace IOAPIC

def GetInterruptBase (c : IOAPIC) : Nat := c.mGlobalInterruptBase
def GetMaxRedirectionEntries (c : IOAPIC) : BitVec 8 := c.mMaxRedEntryCount

def WriteIOAPIC (c : IOAPIC) (reg : Nat) (value : BitVec 32) : IOAPIC :=
  let c := { c with RegisterSelect := reg &&& 0xFF }
  { c with
    registers := Function.update c.registers c.RegisterSelect value
    writes := (c.RegisterSelect,value) :: c.writes }

def WriteIOAPICRedirectionEntry (c : IOAPIC) (entry : BitVec 8) (val : BitVec 64) : IOAPIC :=
  let entry := entry - BitVec.ofNat 8 c.mGlobalInterruptBase
  if entry ≥ c.mMaxRedEntryCount then c
  else
    let reg := entry.toNat * 2 + IOApicRedirectionTableOffset
    let c := c.WriteIOAPIC reg (val.setWidth 32)
    c.WriteIOAPIC (reg+1) ((val >>> 32).setWidth 32)

end IOAPIC

inductive RecordType
  | LAPIC
  | IOAPIC
  | IOAPICInterruptSourceOverride
  | IOAPICNMISource
  | LAPICNMI
  | LAPICAddressOverride
  | x2LAPIC

def RecordType.ofByte (type : BitVec 8) : Option RecordType :=
  match type.toNat with
  | 0x00 => some .LAPIC
  | 0x01 => some .IOAPIC
  | 0x02 => some .IOAPICInterruptSourceOverride
  | 0x03 => some .IOAPICNMISource
  | 0x04 => some .LAPICNMI
  | 0x05 => some .LAPICAddressOverride
  | 0x09 => some .x2LAPIC
  | _ => none

/-- The globals of `APICShared.cpp`, and the memory with the table. The controllers of `IOAPICs`
    are the objects that its pointers point to. -/
structure State where
  memory : Mem
  _init : Bool
  LocalAPICRecords : KernelList Nat
  IOAPICRecords : KernelList Nat
  IRQOverrides : KernelList Nat
  IOAPICs : KernelList IOAPIC
  LAPIC : Nat
  UsableAPIC : Bool

namespace State

/-- `List<IRQRemapRecord*>(0xFF)`, whose array is cleared when it is allocated. -/
def noOverrides : KernelList Nat where
  mArray := fun _ => 0
  mArraySize := 0xFF
  mCount := 0xFF

/-- The loop of `ParseMADT` from a record on. The element 255 of the overrides is outside of the list but inside of its block,
    which `calloc` has rounded up and cleared. -/
def parseRecords : Nat → State → Nat → Nat → Nat → Option State
  | 0, _, _, _, _ => none
  | fuel+1, s, maxAddress, currentRecord, lApicPhysAddress =>
    if currentRecord < maxAddress then
      let next := wrap (currentRecord + (s.memory (currentRecord+1)).toNat)
      match RecordType.ofByte (s.memory currentRecord) with
      | some .LAPIC =>
        parseRecords fuel { s with LocalAPICRecords := s.LocalAPICRecords.Add currentRecord } maxAddress next lApicPhysAddress
      | some .IOAPIC =>
        parseRecords fuel { s with IOAPICRecords := s.IOAPICRecords.Add currentRecord } maxAddress next lApicPhysAddress
      | some .IOAPICInterruptSourceOverride =>
        let IrqSource := (s.memory (currentRecord+3)).toNat
        let IRQOverrides := { s.IRQOverrides with mArray := Function.update s.IRQOverrides.mArray IrqSource currentRecord }
        parseRecords fuel { s with IRQOverrides } maxAddress next lApicPhysAddress
      -- The field stands behind padding, since the record is not packed.
      | some .LAPICAddressOverride => parseRecords fuel s maxAddress next (load s.memory (currentRecord+8) 8)
      | some .x2LAPIC => some { s with UsableAPIC := false }
      | _ => parseRecords fuel s maxAddress next lApicPhysAddress
    else some { s with LAPIC := lApicPhysAddress, UsableAPIC := true }

/-- `ParseMADT`; the header of the table has 44 bytes. -/
def ParseMADT (fuel : Nat) (s : State) (madt : Nat) : Option State :=
  let s := if s._init then
      { s with
        LocalAPICRecords := .empty
        IOAPICs := .empty
        IOAPICRecords := .empty
        IRQOverrides := noOverrides
        _init := false }
    else s
  let maxAddress := wrap (load s.memory (madt+4) 4 + madt)
  s.parseRecords fuel maxAddress (wrap (madt + 44)) (load s.memory (madt+36) 4)

/-- What a record changes in the globals, and the address of the local APIC behind it. -/
def takeRecord (s : State) (currentRecord lApicPhysAddress : Nat) : State × Nat :=
  match RecordType.ofByte (s.memory currentRecord) with
  | some .LAPIC => ({ s with LocalAPICRecords := s.LocalAPICRecords.Add currentRecord },lApicPhysAddress)
  | some .IOAPIC => ({ s with IOAPICRecords := s.IOAPICRecords.Add currentRecord },lApicPhysAddress)
  | some .IOAPICInterruptSourceOverride =>
    let IrqSource := (s.memory (currentRecord+3)).toNat
    ({ s with IRQOverrides :=
      { s.IRQOverrides with mArray := Function.update s.IRQOverrides.mArray IrqSource currentRecord } },lApicPhysAddress)
  | some .LAPICAddressOverride => (s,load s.memory (currentRecord+8) 8)
  | _ => (s,lApicPhysAddress)

/-- A record that is no x2APIC is taken, and the loop goes on behind it. -/
theorem parseRecords_record {s : State} {fuel maxAddress currentRecord lApicPhysAddress : Nat} (before : currentRecord < maxAddress)
    (other : RecordType.ofByte (s.memory currentRecord) ≠ some .x2LAPIC) :
    s.parseRecords (fuel+1) maxAddress currentRecord lApicPhysAddress =
      (s.takeRecord currentRecord lApicPhysAddress).1.parseRecords fuel maxAddress
        (wrap (currentRecord + (s.memory (currentRecord+1)).toNat)) (s.takeRecord currentRecord lApicPhysAddress).2 := by
  rw [parseRecords,if_pos before,takeRecord]
  generalize RecordType.ofByte (s.memory currentRecord) = type at other
  rcases type with _ | type
  · rfl
  · cases type with
    | x2LAPIC => exact absurd rfl other
    | IOAPICInterruptSourceOverride | LAPIC | IOAPIC | IOAPICNMISource | LAPICNMI | LAPICAddressOverride => rfl

def GetRemappedIRQ (s : State) (irq : BitVec 8) : BitVec 8 :=
  let record := (s.IRQOverrides.subscript irq.toNat).2
  if record ≠ 0 ∧ s.memory (record+3) = irq then BitVec.ofNat 8 (load s.memory (record+4) 4) else irq

/-- The loop of `SetEntry` from the controller `x` on. -/
def setEntryLoop : Nat → State → BitVec 8 → BitVec 8 → BitVec 64 → Option (Bool × State)
  | 0, _, _, _, _ => none
  | fuel+1, s, x, irq, entry =>
    if x.toNat < s.IOAPICs.GetCount then
      let ioapic := (s.IOAPICs.subscript x.toNat).2
      if ioapic.GetInterruptBase > irq.toNat then setEntryLoop fuel s (x+1) irq entry
      else if wrap (ioapic.GetInterruptBase + ioapic.GetMaxRedirectionEntries.toNat) < irq.toNat then
        setEntryLoop fuel s (x+1) irq entry
      else
        let irq := s.GetRemappedIRQ irq
        let ioapic := ioapic.WriteIOAPICRedirectionEntry irq entry
        some (true,{ s with IOAPICs := { s.IOAPICs with mArray := Function.update s.IOAPICs.mArray x.toNat ioapic } })
    else some (false,s)

/-- `SetEntry(irq, entry)`. -/
def SetEntry (fuel : Nat) (s : State) (irq : BitVec 8) (entry : BitVec 64) : Option (Bool × State) :=
  s.setEntryLoop fuel 0 irq entry

end State
end WaifuOS.APIC
