import WaifuOS.Controllers
import WaifuOS.PIC

/-!
How interrupts find the CPU once `InitializeSMP` has handed them over from the 8259 controllers to the I/O APICs. The
two 8259s are masked, every pin of every controller of the table is masked, and then `SetEntry` opens the pins
of the three lines that the kernel handles, where the overrides of the table say that they are (`pinOf`, `route`). Over any run of interrupts and their ends
the local APIC delivers nothing but these lines, with their vectors, and one after another (`run_routes`).
-/
namespace WaifuOS.APIC
open WaifuOS.Words WaifuOS.Bytes

def IRQ_OFFSET : BitVec 8 := 0x20

def SpuriousInterruptVector : BitVec 32 := 0xFF

namespace Interrupt

def PIT : BitVec 8 := IRQ_OFFSET

def Keyboard : BitVec 8 := IRQ_OFFSET + 1

def RTC : BitVec 8 := IRQ_OFFSET + 8

end Interrupt

/-- The sources of interrupts inside of the local APIC; each has a register. -/
inductive LocalSource
  | CorrectedMachineCheckInterrupt
  | Timer
  | ThermalSensor
  | PerformanceMonitoringCounters
  | LINT0
  | LINT1
  | Error
deriving DecidableEq

/-- The registers that the kernel writes, the number of the APIC, and the vectors in service. -/
structure LocalAPIC where
  LapicID : BitVec 8
  TaskPriorityRegister : BitVec 32
  LogicalDestinationRegister : BitVec 32
  DestinationFormatRegister : BitVec 32
  SpuriousInterruptVectorRegister : BitVec 32
  LVT : LocalSource → BitVec 32
  inService : Nat → Bool

namespace LocalAPIC

def InitializeLAPIC (c : LocalAPIC) (cpu : BitVec 32) : LocalAPIC :=
  { c with
    TaskPriorityRegister := 0x00
    DestinationFormatRegister := -1
    LogicalDestinationRegister := cpu <<< 24
    LVT := fun source => c.LVT source ||| 0x10000
    SpuriousInterruptVectorRegister := 0x00 }

/-- The local APIC after it has given a vector to the CPU, if it is enabled and nothing of the same
    sixteen vectors or of higher ones is in service. -/
def accept (c : LocalAPIC) (vector : BitVec 8) : Option LocalAPIC :=
  if c.SpuriousInterruptVectorRegister.getLsbD 8 ∧ c.TaskPriorityRegister.toNat % 256 / 16 < vector.toNat / 16 ∧
      (List.range 256).all (fun v => !c.inService v || decide (v / 16 < vector.toNat / 16)) then
    some { c with inService := Function.update c.inService vector.toNat true }
  else none

/-- The interrupt of a source inside, which its register may mask. -/
def signal (c : LocalAPIC) (source : LocalSource) : Option LocalAPIC :=
  if (c.LVT source).getLsbD 16 then none else c.accept ((c.LVT source).setWidth 8)

/-- A write to `EndOfInt`: the highest vector is in service no more. -/
def endOfInterrupt (c : LocalAPIC) : LocalAPIC :=
  { c with inService := fun v => c.inService v && (List.range 256).any (fun w => decide (v < w) && c.inService w) }

end LocalAPIC

/-- What a pin sends, a vector and a destination, where its entry is not masked. Only entries
    with a fixed vector for one number of an APIC are followed, since the kernel writes no others. -/
def IOAPIC.message (c : IOAPIC) (slot : Nat) : Option (BitVec 8 × BitVec 8) :=
  let entry := c.entryAt (0x10 + 2*slot)
  if slot < c.mMaxRedEntryCount.toNat ∧ entry.getLsbD 16 = false ∧ entry.extractLsb' 8 4 = 0 then
    some (entry.setWidth 8,(entry >>> 56).setWidth 8)
  else none

/-- The loop of `InitializeIOAPIC` from the record `x` on. -/
def State.initializeLoop (device : Nat → IOAPIC) : Nat → State → BitVec 8 → Option State
  | 0, _, _ => none
  | fuel+1, s, x =>
    if x.toNat < s.IOAPICRecords.GetCount then do
      let record := (s.IOAPICRecords.Get x.toNat).2
      let Address := load s.memory (record+4) 4
      let GlobalSysInterruptBase := load s.memory (record+8) 4
      let ioapic ← (device Address).construct fuel (BitVec.ofNat 32 GlobalSysInterruptBase)
      initializeLoop device fuel { s with IOAPICs := s.IOAPICs.Add ioapic } (x+1)
    else some s

/-- `InitializeIOAPIC`; `device` is what stands at a physical address. -/
def State.InitializeIOAPIC (device : Nat → IOAPIC) (fuel : Nat) (s : State) : Option State :=
  s.initializeLoop device fuel 0

/-- The controllers of interrupts. The local APIC is the one at the address of the globals. -/
structure Fabric where
  pics : PIC.Pics
  apic : State
  lapic : LocalAPIC
  InUse : Bool

namespace Fabric

/-- `Initialize`; without an address of the local APIC it halts. -/
def Initialize (device : Nat → IOAPIC) (fuel : Nat) (f : Fabric) (cpu : BitVec 32) : Option Fabric :=
  if f.apic.UsableAPIC = false then some f
  else if f.apic.LAPIC = 0 then none
  else do
    let f := { f with lapic := f.lapic.InitializeLAPIC cpu }
    let apic ← f.apic.InitializeIOAPIC device fuel
    some { f with apic, InUse := true }

/-- `SetEntry` of a vector. -/
def SetEntry (fuel : Nat) (f : Fabric) (irqVector : BitVec 8) : Option Fabric := do
  let entry := irqVector.setWidth 64
  let (_,apic) ← f.apic.SetEntry fuel (irqVector - IRQ_OFFSET) entry
  some { f with apic }

def Enable (f : Fabric) : Fabric :=
  if f.apic.UsableAPIC = false then f
  else { f with lapic := { f.lapic with SpuriousInterruptVectorRegister := SpuriousInterruptVector ||| 0x100 } }

def EndOfInterrupt (f : Fabric) : Fabric :=
  if f.InUse then { f with lapic := f.lapic.endOfInterrupt } else f

def InitializeSMP (device : Nat → IOAPIC) (fuel : Nat) (f : Fabric) (forceUsePic : Bool) : Option Fabric :=
  if f.apic.UsableAPIC && !forceUsePic then do
    let f := { f with pics := f.pics.Disable }
    let f ← f.Initialize device fuel 0
    let f ← f.SetEntry fuel Interrupt.PIT
    let f ← f.SetEntry fuel Interrupt.RTC
    let f ← f.SetEntry fuel Interrupt.Keyboard
    some f.Enable
  else some f

/-- The interrupt of a pin of a controller: the controllers behind it, and the vector that the CPU is given, if it is. -/
def interrupt (f : Fabric) (x slot : Nat) : Option (Fabric × BitVec 8) := do
  let c ← f.apic.IOAPICs.elements[x]?
  let (vector,destination) ← c.message slot
  if destination = f.lapic.LapicID then (f.lapic.accept vector).map (fun lapic => ({ f with lapic },vector)) else none

end Fabric

/-- The interrupts of a controller, from the first one on. -/
structure Range where
  base : Nat
  count : Nat
deriving DecidableEq

namespace Range

def has (r : Range) (gsi : Nat) : Bool := decide (r.base ≤ gsi ∧ gsi < r.base + r.count)

/-- The test of `SetEntry`, which takes one more. -/
def accepts (r : Range) (irq : Nat) : Bool := decide (r.base ≤ irq ∧ irq ≤ r.base + r.count)

end Range

/-- The pin that is opened for a line with an override: it has to be one of the first controller that accepts the line. -/
def pinOf (ranges : List Range) (irq gsi : Nat) : Option (Nat × Nat) := do
  let x ← ranges.findIdx? (fun r => r.accepts irq)
  let r ← ranges[x]?
  if r.has gsi then some (x,gsi - r.base) else none

/-- The line that a pin is for, if lines were set one after another. -/
def route (ranges : List Range) (override : Nat → Nat) (lines : List Nat) (x slot : Nat) : Option Nat :=
  lines.reverse.find? (fun irq => decide (pinOf ranges irq (override irq) = some (x,slot)))

/-- The timer, the real time clock and the keyboard. -/
def handledLines : List Nat := [0,8,1]

def vectorOf (irq : Nat) : BitVec 8 := BitVec.ofNat 8 (0x20 + irq)

namespace State

/-- Where the table says that a line is, as a byte. -/
def override (s : State) (irq : Nat) : Nat :=
  if s.IRQOverrides.mArray irq = 0 then irq else load s.memory (s.IRQOverrides.mArray irq + 4) 4 % 256

/-- The controllers of the table, with as many interrupts as each reports. -/
def ranges (s : State) (device : Nat → IOAPIC) : List Range :=
  s.IOAPICRecords.elements.map (fun record => ⟨load s.memory (record+8) 4,(device (load s.memory (record+4) 4)).reported⟩)

/-- The constructors end, and no two controllers are one device. -/
structure Fits (s : State) (device : Nat → IOAPIC) : Prop where
  few : s.IOAPICRecords.mCount < 256
  small : ∀ r ∈ s.ranges device, r.count ≤ 120 ∧ r.base + r.count ≤ 255
  apart : (s.IOAPICRecords.elements.map (fun record => load s.memory (record+4) 4)).Nodup

end State

variable {s s' : State} {device : Nat → IOAPIC} {ranges : List Range} {r : Range} {c c' : IOAPIC} {x slot irq gsi fuel : Nat}
  {table : Nat → Nat → Option (BitVec 8)} {v : BitVec 8}

/-- The records leave the list of controllers alone. -/
theorem parseRecords_ioapics {maxAddress currentRecord lApicPhysAddress : Nat}
    (parsed : s.parseRecords fuel maxAddress currentRecord lApicPhysAddress = some s') : s'.IOAPICs = s.IOAPICs := by
  induction fuel generalizing s currentRecord lApicPhysAddress with
  | zero => cases parsed
  | succ fuel ih =>
    by_cases before : currentRecord < maxAddress
    · by_cases isX2 : RecordType.ofByte (s.memory currentRecord) = some .x2LAPIC
      · rw [State.parseRecords,if_pos before,isX2] at parsed
        cases parsed
        rfl
      · rw [State.parseRecords_record before isX2] at parsed
        rw [ih parsed,State.takeRecord]
        split <;> rfl
    · rw [State.parseRecords,if_neg before] at parsed
      cases parsed
      rfl

namespace IOAPIC

/-- More fuel changes no result of the constructor. -/
theorem maskAll_mono {y : BitVec 8} (k : Nat) (done : maskAll fuel c y = some c') : maskAll (fuel + k) c y = some c' := by
  induction fuel generalizing c y with
  | zero => cases done
  | succ fuel ih =>
    rw [maskAll] at done
    rw [Nat.succ_add,maskAll]
    split
    · rw [if_pos ‹_›] at done
      exact ih done
    · rwa [if_neg ‹_›] at done

theorem maskAll_kept {y : BitVec 8} (done : maskAll fuel c y = some c') :
    c'.mMaxRedEntryCount = c.mMaxRedEntryCount ∧ c'.mGlobalInterruptBase = c.mGlobalInterruptBase := by
  induction fuel generalizing c y with
  | zero => cases done
  | succ fuel ih =>
    rw [maskAll] at done
    split at done
    · obtain ⟨count,base⟩ := write_kept c y (maskedEntry y)
      rw [← count,← base]
      exact ih done
    · cases done
      exact ⟨rfl,rfl⟩

/-- A controller with the interrupts of a range, and what stands at its pins. -/
structure Programmed (c : IOAPIC) (r : Range) (table : Nat → Option (BitVec 8)) : Prop where
  base : c.mGlobalInterruptBase = r.base
  count : c.mMaxRedEntryCount.toNat = r.count
  closed : ∀ slot < r.count, table slot = none → c.Masked slot
  opened : ∀ slot < r.count, ∀ v, table slot = some v → c.entryAt (0x10 + 2*slot) = v.setWidth 64

/-- A constructor that ends leaves all pins masked, with any fuel that is enough. -/
theorem construct_programmed {GlobalSysInterruptBase : Nat} (few : c.reported ≤ 120)
    (low : GlobalSysInterruptBase + c.reported ≤ 255) : ∃ enough c', c'.Programmed ⟨GlobalSysInterruptBase,c.reported⟩ (fun _ => none) ∧
      ∀ fuel, enough ≤ fuel → c.construct fuel (BitVec.ofNat 32 GlobalSysInterruptBase) = some c' := by
  have number : (BitVec.ofNat 32 GlobalSysInterruptBase).toNat = GlobalSysInterruptBase := by
    rw [BitVec.toNat_ofNat]
    omega
  have count := identified_count few (BitVec.ofNat 32 GlobalSysInterruptBase)
  have base : (c.identified (BitVec.ofNat 32 GlobalSysInterruptBase)).mGlobalInterruptBase = GlobalSysInterruptBase := number
  obtain ⟨enough,c',done,all⟩ := maskAll_rest (j := 0) count base few low (Nat.zero_le _)
    (fun slot before => absurd before (Nat.not_lt_zero slot))
  obtain ⟨sameCount,sameBase⟩ := maskAll_kept done
  refine ⟨enough,c',⟨by rw [sameBase,base],by rw [sameCount,count],fun slot inside _ => all slot inside,fun _ _ _ none => by cases none⟩,
    fun fuel more => ?_⟩
  rw [construct_eq,number]
  rw [Nat.add_zero] at done
  obtain ⟨k,rfl⟩ := Nat.exists_eq_add_of_le more
  exact maskAll_mono k done

end IOAPIC

/-- The controllers stand in the list as the ranges do, with the pins of a table. -/
structure Programmed (ranges : List Range) (table : Nat → Nat → Option (BitVec 8)) (s : State) : Prop where
  count : s.IOAPICs.mCount = ranges.length
  pins : ∀ x r, ranges[x]? = some r → (s.IOAPICs.mArray x).Programmed r (table x)

/-- Another controller behind those that are there. -/
theorem programmed_add (programmed : Programmed ranges table s) (next : c.Programmed r (table ranges.length))
    (few : ranges.length < 256) : Programmed (ranges ++ [r]) table { s with IOAPICs := s.IOAPICs.Add c } := by
  have count := programmed.count
  constructor
  · show (s.IOAPICs.Add c).mCount = _
    rw [KernelList.add_mCount,wrap_of_lt (by omega),count,List.length_append,List.length_singleton]
  · intro x r' here
    show ((s.IOAPICs.Add c).mArray x).Programmed r' (table x)
    rcases Nat.lt_trichotomy x ranges.length with before | rfl | behind
    · rw [List.getElem?_append_left before] at here
      rw [KernelList.add_mArray (by omega),if_neg (by omega)]
      exact programmed.pins x r' here
    · rw [List.getElem?_concat_length] at here
      cases here
      rw [KernelList.add_mArray (by omega),if_pos count.symm]
      exact next
    · rw [List.getElem?_eq_none (by rw [List.length_append,List.length_singleton]; omega)] at here
      cases here

/-- The globals differ at most in the list of controllers. -/
structure SameTable (s s' : State) : Prop where
  memory : s'.memory = s.memory
  overrides : s'.IRQOverrides = s.IRQOverrides
  records : s'.IOAPICRecords = s.IOAPICRecords
  lapic : s'.LAPIC = s.LAPIC
  usable : s'.UsableAPIC = s.UsableAPIC

theorem SameTable.trans {t : State} (first : SameTable s s') (second : SameTable s' t) : SameTable s t where
  memory := second.memory.trans first.memory
  overrides := second.overrides.trans first.overrides
  records := second.records.trans first.records
  lapic := second.lapic.trans first.lapic
  usable := second.usable.trans first.usable

/-- From the record `x` on, the loop adds the controllers of the rest, with all pins masked. -/
theorem initializeLoop_rest (fits : s.Fits device) (left : Nat) (same : SameTable s s') (position : x + left = s.IOAPICRecords.mCount)
    (programmed : Programmed ((s.ranges device).take x) (fun _ _ => none) s') :
    ∃ enough t, SameTable s t ∧ Programmed (s.ranges device) (fun _ _ => none) t ∧
      ∀ fuel, enough ≤ fuel → State.initializeLoop device fuel s' (BitVec.ofNat 8 x) = some t := by
  have few := fits.few
  have length : (s.ranges device).length = s.IOAPICRecords.mCount := by rw [State.ranges,List.length_map,KernelList.elements_length]
  have number : (BitVec.ofNat 8 x).toNat = x := State.byte_toNat (by omega)
  have records : s'.IOAPICRecords.GetCount = s.IOAPICRecords.mCount := by rw [KernelList.GetCount,same.records]
  induction left generalizing x s' with
  | zero =>
    refine ⟨1,s',same,?_,?_⟩
    · rwa [List.take_of_length_le (by omega)] at programmed
    · intro fuel more
      obtain ⟨k,rfl⟩ := Nat.exists_eq_add_of_le' more
      rw [State.initializeLoop,number,if_neg (by rw [records]; omega)]
  | succ left ih =>
    have inside : x < s.IOAPICRecords.mCount := by omega
    have record : (s'.IOAPICRecords.Get x).2 = s.IOAPICRecords.mArray x := by rw [same.records,KernelList.get_value]
    have range : (s.ranges device)[x]? = some ⟨load s.memory (s.IOAPICRecords.mArray x + 8) 4,
        (device (load s.memory (s.IOAPICRecords.mArray x + 4) 4)).reported⟩ := by
      rw [State.ranges,List.getElem?_map,KernelList.elements_getElem?,if_pos inside]
      rfl
    have taken := List.take_add_one (l := s.ranges device) (i := x)
    rw [range,Option.toList_some] at taken
    have size : ((s.ranges device).take x).length = x := by
      rw [List.length_take]
      omega
    obtain ⟨low,fit⟩ := fits.small _ (List.mem_of_getElem? range)
    obtain ⟨enough,c,constructed,done⟩ := IOAPIC.construct_programmed low fit
    have added := programmed_add programmed constructed (by omega)
    rw [← taken] at added
    have longer : SameTable s { s' with IOAPICs := s'.IOAPICs.Add c } := ⟨same.memory,same.overrides,same.records,same.lapic,same.usable⟩
    obtain ⟨enough',t,same',all,rest⟩ := ih (x := x+1) longer (by omega) added (State.byte_toNat (by omega)) records
    refine ⟨max enough enough' + 1,t,same',all,?_⟩
    intro fuel more
    obtain ⟨k,rfl⟩ := Nat.exists_eq_add_of_le' more
    have next : BitVec.ofNat 8 x + 1 = BitVec.ofNat 8 (x+1) := (BitVec.ofNat_add x 1).symm
    rw [← Nat.add_assoc,State.initializeLoop,number,if_pos (by rw [records]; exact inside)]
    rw [← same.memory] at done
    simp only [record,Option.bind_eq_bind]
    rw [done _ (by omega),Option.bind_some,next]
    exact rest (k + max enough enough') (by omega)

/-- Outside of a controller below 256 nothing is written. -/
theorem write_outside {g : BitVec 8} {entry : BitVec 64} (outside : ¬ c.Contains g.toNat)
    (low : c.mGlobalInterruptBase + c.mMaxRedEntryCount.toNat ≤ 255) : c.WriteIOAPICRedirectionEntry g entry = c := by
  have word := g.isLt
  have base : (BitVec.ofNat 8 c.mGlobalInterruptBase).toNat = c.mGlobalInterruptBase := State.byte_toNat (by omega)
  rw [IOAPIC.WriteIOAPICRedirectionEntry]
  apply if_pos
  rw [ge_iff_le,BitVec.le_def,BitVec.toNat_sub,base]
  rw [IOAPIC.Contains] at outside
  omega

/-- A vector in a slot opens the pin and leaves the other ones. -/
theorem wrote_programmed {t : Nat → Option (BitVec 8)} (programmed : c.Programmed r t)
    (wrote : c.Wrote slot (v.setWidth 64) c') : c'.Programmed r (Function.update t slot (some v)) := by
  refine ⟨by rw [wrote.base,programmed.base],by rw [wrote.count,programmed.count],?_,?_⟩
  · intro k inside none
    by_cases same : k = slot
    · rw [same,Function.update_self] at none
      cases none
    · rw [Function.update_of_ne same] at none
      rw [IOAPIC.Masked,wrote.registers,Function.update_of_ne (by omega),Function.update_of_ne (by omega)]
      exact programmed.closed k inside none
  · intro k inside w here
    by_cases same : k = slot
    · rw [same,Function.update_self] at here
      cases here
      rw [IOAPIC.entryAt,wrote.registers,same,Function.update_of_ne (by omega),Function.update_self,Function.update_self]
      exact IOAPIC.halves _
    · rw [Function.update_of_ne same] at here
      rw [IOAPIC.entryAt,wrote.registers,Function.update_of_ne (by omega),Function.update_of_ne (by omega),
        Function.update_of_ne (by omega),Function.update_of_ne (by omega)]
      exact programmed.opened k inside w here

theorem contains_iff {t : Nat → Option (BitVec 8)} (programmed : c.Programmed r t) : c.Contains gsi ↔ r.has gsi = true := by
  rw [IOAPIC.Contains,programmed.base,programmed.count,Range.has,decide_eq_true_eq]

theorem accepts_iff {t : Nat → Option (BitVec 8)} {g : BitVec 8} (programmed : c.Programmed r t) :
    State.Accepts c g ↔ r.accepts g.toNat = true := by
  rw [State.Accepts,programmed.base,programmed.count,Range.accepts,decide_eq_true_eq]

/-- The pins after one more is opened, if there is one. -/
def opened (table : Nat → Nat → Option (BitVec 8)) (pin : Option (Nat × Nat)) (v : BitVec 8) (x slot : Nat) : Option (BitVec 8) :=
  if pin = some (x,slot) then some v else table x slot

theorem listed_range {y : Nat} {d : IOAPIC} (programmed : Programmed ranges table s) (listed : s.Listed y d) :
    ∃ r, ranges[y]? = some r ∧ d.Programmed r (table y) := by
  obtain ⟨inside,rfl⟩ := listed
  rw [programmed.count] at inside
  exact ⟨_,List.getElem?_eq_getElem inside,programmed.pins y _ (List.getElem?_eq_getElem inside)⟩

/-- Writing to the controller that a line takes opens its pin, if it is there. -/
theorem withController_programmed {g : BitVec 8} (programmed : Programmed ranges table s)
    (small : ∀ r ∈ ranges, r.count ≤ 120 ∧ r.base + r.count ≤ 255) (listed : s.Listed x c)
    (taken : ranges.findIdx? (fun r => r.accepts irq) = some x) :
    Programmed ranges (opened table (pinOf ranges irq g.toNat) v) (s.withController x (c.WriteIOAPICRedirectionEntry g (v.setWidth 64))) := by
  obtain ⟨r,here,whole⟩ := listed_range programmed listed
  obtain ⟨few,low⟩ := small r (List.mem_of_getElem? here)
  have pin : pinOf ranges irq g.toNat = if r.has g.toNat then some (x,g.toNat - r.base) else none := by
    rw [pinOf,taken,Option.bind_eq_bind,Option.bind_some,here]
    rfl
  by_cases contains : c.Contains g.toNat
  · have slot : g.toNat - c.mGlobalInterruptBase < 120 := by
      have high := contains.2
      have lower := contains.1
      rw [whole.base,whole.count] at high
      rw [whole.base] at lower ⊢
      omega
    have wrote : c.Wrote _ (v.setWidth 64) _ := State.write_slot contains slot
    have written := wrote_programmed whole wrote
    rw [if_pos ((contains_iff whole).mp contains),← whole.base] at pin
    refine ⟨programmed.count,?_⟩
    intro y r' there
    show (Function.update s.IOAPICs.mArray x _ y).Programmed r' _
    by_cases other : y = x
    · subst other
      rw [here] at there
      cases there
      rw [Function.update_self]
      convert written using 1
      funext k
      rw [opened,pin,Function.update_apply]
      simp only [Option.some.injEq,Prod.mk.injEq,true_and,eq_comm]
    · rw [Function.update_of_ne other]
      convert programmed.pins y r' there using 1
      funext k
      rw [opened,pin]
      exact if_neg (fun same => other (Prod.mk.inj (Option.some.inj same)).1.symm)
  · rw [if_neg (fun has => contains ((contains_iff whole).mpr has))] at pin
    have same : s.withController x (c.WriteIOAPICRedirectionEntry g (v.setWidth 64)) = s := by
      rw [write_outside contains (by rw [whole.base,whole.count]; exact low),State.withController,← listed.2,Function.update_eq_self]
    have table_eq : opened table (pinOf ranges irq g.toNat) v = table := by
      rw [pin]
      rfl
    rwa [same,table_eq]

/-- `SetEntry` of a line opens its pin, with any fuel that is enough. -/
theorem setEntry_programmed (irq : BitVec 8) (programmed : Programmed ranges table s)
    (small : ∀ r ∈ ranges, r.count ≤ 120 ∧ r.base + r.count ≤ 255) (few : ranges.length < 256) :
    ∃ enough done s', SameTable s s' ∧ Programmed ranges (opened table (pinOf ranges irq.toNat (s.GetRemappedIRQ irq).toNat) v) s' ∧
      ∀ fuel, enough ≤ fuel → s.SetEntry fuel irq (v.setWidth 64) = some (done,s') := by
  have count := programmed.count
  have longer : ∀ {n : Nat} {result : Bool × State}, s.SetEntry n irq (v.setWidth 64) = some result →
      ∀ fuel, n ≤ fuel → s.SetEntry fuel irq (v.setWidth 64) = some result := by
    intro n result returned fuel more
    obtain ⟨k,rfl⟩ := Nat.exists_eq_add_of_le more
    exact State.setEntryLoop_mono k returned
  cases taken : ranges.findIdx? (fun r => r.accepts irq.toNat) with
  | none =>
    have skip : ∀ y d, s.Listed y d → ¬ State.Accepts d irq := by
      intro y d listed accepts
      obtain ⟨r,here,whole⟩ := listed_range programmed listed
      have never := List.findIdx?_eq_none_iff.mp taken r (List.mem_of_getElem? here)
      rw [(accepts_iff whole).mp accepts] at never
      cases never
    have table_eq : opened table (pinOf ranges irq.toNat (s.GetRemappedIRQ irq).toNat) v = table := by
      rw [pinOf,taken]
      rfl
    exact ⟨_,_,s,⟨rfl,rfl,rfl,rfl,rfl⟩,by rwa [table_eq],longer (State.setEntry_none (by omega) skip)⟩
  | some x =>
    obtain ⟨inside,accepts,first⟩ := List.findIdx?_eq_some_iff_getElem.mp taken
    have listed : s.Listed x (s.IOAPICs.mArray x) := ⟨by omega,rfl⟩
    have whole := programmed.pins x _ (List.getElem?_eq_getElem inside)
    have takes : s.Takes irq x (s.IOAPICs.mArray x) := by
      refine ⟨by omega,listed,(accepts_iff whole).mpr accepts,?_⟩
      intro y d before there accepts'
      obtain ⟨r,here,other⟩ := listed_range programmed there
      rw [List.getElem?_eq_getElem (by omega)] at here
      cases here
      exact first y before ((accepts_iff other).mp accepts')
    have returned := State.setEntry_takes takes (v.setWidth 64)
    exact ⟨_,true,s.withController x _,⟨rfl,rfl,rfl,rfl,rfl⟩,withController_programmed programmed small listed taken,longer returned⟩

/-- What the pins send when lines were set one after another. -/
def tableOf (ranges : List Range) (override : Nat → Nat) (lines : List Nat) (x slot : Nat) : Option (BitVec 8) :=
  (route ranges override lines x slot).map vectorOf

theorem opened_tableOf (ranges : List Range) (override : Nat → Nat) (lines : List Nat) (line : Nat) :
    opened (tableOf ranges override lines) (pinOf ranges line (override line)) (vectorOf line) = tableOf ranges override (lines ++ [line]) := by
  funext x slot
  rw [opened,tableOf,tableOf,route,route,List.reverse_append,List.reverse_singleton,List.singleton_append,List.find?_cons]
  by_cases here : pinOf ranges line (override line) = some (x,slot)
  · simp [here]
  · simp [here]

theorem SameTable.parsed (same : SameTable s s') (parsed : s.Parsed) : s'.Parsed := by
  obtain ⟨k,madt,t,u,fresh,returned,memory,overrides⟩ := parsed
  exact ⟨k,madt,t,u,fresh,returned,same.memory.trans memory,same.overrides.trans overrides⟩

/-- A line is where the table says. -/
theorem remapped_line (parsed : s.Parsed) (low : irq < 256) : (s.GetRemappedIRQ (BitVec.ofNat 8 irq)).toNat = s.override irq := by
  have number : (BitVec.ofNat 8 irq).toNat = irq := State.byte_toNat low
  rw [State.getRemappedIRQ_parsed parsed,number,State.override]
  split
  · exact number
  · exact BitVec.toNat_ofNat _ _

/-- `SetEntry` of the vector of a line. -/
theorem setEntry_line {f : Fabric} (lines : List Nat) (line : Nat) (same : SameTable s f.apic) (parsed : s.Parsed) (fits : s.Fits device)
    (low : line < 0xDF) (programmed : Programmed (s.ranges device) (tableOf (s.ranges device) s.override lines) f.apic) :
    ∃ enough apic, SameTable s apic ∧ Programmed (s.ranges device) (tableOf (s.ranges device) s.override (lines ++ [line])) apic ∧
      ∀ fuel, enough ≤ fuel → f.SetEntry fuel (vectorOf line) = some { f with apic } := by
  have few := fits.few
  have length : (s.ranges device).length = s.IOAPICRecords.mCount := by rw [State.ranges,List.length_map,KernelList.elements_length]
  have number : vectorOf line - IRQ_OFFSET = BitVec.ofNat 8 line := by
    rw [vectorOf,BitVec.ofNat_add,BitVec.add_comm]
    exact BitVec.add_sub_cancel _ _
  have place := remapped_line (same.parsed parsed) (show line < 256 by omega)
  have override : f.apic.override line = s.override line := by rw [State.override,same.overrides,same.memory,State.override]
  rw [override] at place
  obtain ⟨enough,done,apic,kept,programmed',returns⟩ := setEntry_programmed (v := vectorOf line) (BitVec.ofNat 8 line) programmed fits.small (by omega)
  rw [State.byte_toNat (by omega),place,opened_tableOf] at programmed'
  refine ⟨enough,apic,same.trans kept,programmed',?_⟩
  intro fuel more
  rw [Fabric.SetEntry,number,returns fuel more]
  rfl

/-! ### `InitializeSMP` -/

/-- The 8259s deliver nothing, the local APIC is enabled for the pins alone, and these are those of a table. -/
structure Routed (ranges : List Range) (table : Nat → Nat → Option (BitVec 8)) (f : Fabric) : Prop where
  configured : PIC.Configured f.pics
  masks : f.pics.masks = 0xFFFF
  pins : Programmed ranges table f.apic
  number : f.lapic.LapicID = 0
  priority : f.lapic.TaskPriorityRegister = 0
  enabled : f.lapic.SpuriousInterruptVectorRegister.getLsbD 8 = true
  sources : ∀ source, (f.lapic.LVT source).getLsbD 16 = true
  inUse : f.InUse = true

/-- After a table has been read, the call hands the three lines over to the I/O APICs. -/
theorem initializeSMP_routed {f : Fabric} {t : State} {k madt : Nat} (fresh : t._init = true) (parsed : t.ParseMADT k madt = some f.apic)
    (usable : f.apic.UsableAPIC = true) (address : f.apic.LAPIC ≠ 0) (fits : f.apic.Fits device) (configured : PIC.Configured f.pics)
    (number : f.lapic.LapicID = 0) :
    ∃ enough f', Routed (f.apic.ranges device) (tableOf (f.apic.ranges device) f.apic.override handledLines) f' ∧
      f'.lapic.inService = f.lapic.inService ∧ ∀ fuel, enough ≤ fuel → f.InitializeSMP device fuel false = some f' := by
  have isParsed : f.apic.Parsed := ⟨k,madt,t,f.apic,fresh,parsed,rfl,rfl⟩
  have empty : f.apic.IOAPICs = .empty := by
    rw [State.ParseMADT,if_pos fresh] at parsed
    exact parseRecords_ioapics parsed
  have start : Programmed ((f.apic.ranges device).take 0) (fun _ _ => none) f.apic :=
    ⟨by rw [empty]; rfl,fun x r here => by cases here⟩
  obtain ⟨enough,apic,same,programmed,initialized⟩ := initializeLoop_rest fits _ ⟨rfl,rfl,rfl,rfl,rfl⟩ (Nat.zero_add _) start
  let f₀ : Fabric := ⟨f.pics.Disable,apic,f.lapic.InitializeLAPIC 0,true⟩
  obtain ⟨enough₁,apic₁,same₁,programmed₁,timer⟩ := setEntry_line (f := f₀) [] 0 same isParsed fits (by decide) programmed
  obtain ⟨enough₂,apic₂,same₂,programmed₂,clock⟩ := setEntry_line (f := { f₀ with apic := apic₁ }) _ 8 same₁ isParsed fits (by decide) programmed₁
  obtain ⟨enough₃,apic₃,same₃,programmed₃,keyboard⟩ := setEntry_line (f := { f₀ with apic := apic₂ }) _ 1 same₂ isParsed fits (by decide) programmed₂
  have masked := PIC.exec_configured (e := .Disable) configured rfl
  refine ⟨enough + enough₁ + enough₂ + enough₃,Fabric.Enable { f₀ with apic := apic₃ },?_,?_,?_⟩
  · have kept : apic₃.UsableAPIC = true := same₃.usable.trans usable
    rw [Fabric.Enable,if_neg (by rw [kept]; decide)]
    have enabled : (SpuriousInterruptVector ||| 0x100).getLsbD 8 = true := by decide
    refine ⟨masked.1,masked.2,programmed₃,number,rfl,enabled,?_,rfl⟩
    intro source
    show (f.lapic.LVT source ||| 0x10000).getLsbD 16 = true
    rw [BitVec.getLsbD_or]
    simp
  · rw [Fabric.Enable]
    split <;> rfl
  · intro fuel more
    have first : Fabric.Initialize device fuel { f with pics := f.pics.Disable } 0 = some f₀ := by
      rw [Fabric.Initialize,if_neg (by rw [usable]; decide),if_neg address]
      have added : f.apic.InitializeIOAPIC device fuel = some apic := initialized fuel (by omega)
      dsimp only
      rw [added]
      rfl
    rw [Fabric.InitializeSMP,usable]
    simp only [Bool.not_false,Bool.and_self,if_true,Option.bind_eq_bind]
    rw [first,Option.bind_some,show Interrupt.PIT = vectorOf 0 from rfl,timer fuel (by omega),Option.bind_some,
      show Interrupt.RTC = vectorOf 8 from rfl,clock fuel (by omega),Option.bind_some,
      show Interrupt.Keyboard = vectorOf 1 from rfl,keyboard fuel (by omega),Option.bind_some]

/-! ### Interrupts -/

/-- What the pins of a controller send. -/
theorem message_eq {t : Nat → Option (BitVec 8)} (programmed : c.Programmed r t) :
    c.message slot = if slot < r.count then (t slot).map (fun v => (v,0)) else none := by
  rw [IOAPIC.message,programmed.count]
  by_cases inside : slot < r.count
  · rw [if_pos inside]
    cases here : t slot with
    | none =>
      have masked := programmed.closed slot inside here
      rw [IOAPIC.Masked] at masked
      have bit : (c.entryAt (0x10 + 2*slot)).getLsbD 16 = true := by
        rw [IOAPIC.entryAt,BitVec.getLsbD_or,BitVec.getLsbD_setWidth,masked]
        rfl
      rw [if_neg (fun all => by rw [bit] at all; exact absurd all.2.1 (by decide))]
      rfl
    | some v =>
      rw [programmed.opened slot inside v here]
      have open_pin : (v.setWidth 64).getLsbD 16 = false := by
        rw [BitVec.getLsbD_setWidth,BitVec.getLsbD_of_ge v 16 (by decide),Bool.and_false]
      have fixed : (v.setWidth 64).extractLsb' 8 4 = 0 := by
        ext i low
        rw [BitVec.getElem_extractLsb',BitVec.getLsbD_setWidth,BitVec.getLsbD_of_ge v (8+i) (by omega),Bool.and_false]
        simp
      have vector : (v.setWidth 64).setWidth 8 = v := BitVec.setWidth_setWidth_of_le v (by decide) |>.trans (BitVec.setWidth_eq v)
      have destination : ((v.setWidth 64) >>> 56).setWidth 8 = (0 : BitVec 8) := by
        ext i low
        rw [BitVec.getElem_setWidth,BitVec.getLsbD_ushiftRight,BitVec.getLsbD_setWidth,BitVec.getLsbD_of_ge v (56+i) (by omega),Bool.and_false]
        simp
      rw [if_pos ⟨inside,open_pin,fixed⟩,vector,destination]
      rfl
  · rw [if_neg inside,if_neg (fun all => inside all.1)]

/-- A pin that is opened is there. -/
theorem pinOf_inside (pin : pinOf ranges irq gsi = some (x,slot)) : ∃ r, ranges[x]? = some r ∧ slot < r.count := by
  simp only [pinOf,Option.bind_eq_bind,Option.bind_eq_some_iff] at pin
  obtain ⟨y,_,r,here,rest⟩ := pin
  split at rest
  · rename_i has
    cases rest
    rw [Range.has,decide_eq_true_eq] at has
    exact ⟨r,here,by omega⟩
  · cases rest

theorem tableOf_inside {override : Nat → Nat} {lines : List Nat} (sends : tableOf ranges override lines x slot = some v) :
    ∃ r, ranges[x]? = some r ∧ slot < r.count := by
  obtain ⟨line,found,_⟩ := Option.map_eq_some_iff.mp sends
  have pin := List.find?_some found
  exact pinOf_inside (of_decide_eq_true pin)

/-- The interrupt of a pin is that of the table, if the local APIC takes it. -/
theorem routed_interrupt {f : Fabric} (routed : Routed ranges table f)
    (inside : ∀ x slot v, table x slot = some v → ∃ r, ranges[x]? = some r ∧ slot < r.count) (x slot : Nat) :
    f.interrupt x slot = (table x slot).bind (fun v => (f.lapic.accept v).map (fun lapic => ({ f with lapic },v))) := by
  rw [Fabric.interrupt,KernelList.elements_getElem?,routed.pins.count,Option.bind_eq_bind]
  cases here : ranges[x]? with
  | none =>
    have outside := List.getElem?_eq_none_iff.mp here
    rw [if_neg (by omega)]
    cases sends : table x slot with
    | none => rfl
    | some v =>
      obtain ⟨r,there,_⟩ := inside x slot v sends
      rw [here] at there
      cases there
  | some r =>
    have before := (List.getElem?_eq_some_iff.mp here).1
    rw [if_pos before,Option.bind_some,Option.bind_eq_bind,message_eq (routed.pins.pins x r here)]
    cases sends : table x slot with
    | none => split <;> rfl
    | some v =>
      obtain ⟨r',there,low⟩ := inside x slot v sends
      rw [here] at there
      cases there
      rw [if_pos low,Option.map_some,Option.bind_some,Option.bind_some]
      exact if_pos routed.number.symm

/-! ### Runs -/

/-- The vectors of the lines that are handled have one priority. -/
def Alike (v : Nat) : Prop := v < 256 ∧ v / 16 = 2

/-- What is in service: one of these vectors, or nothing. -/
def Serving (c : LocalAPIC) : Bool → Prop
  | true => ∃ v, Alike v ∧ ∀ w, c.inService w = decide (w = v)
  | false => ∀ w, c.inService w = false

variable {l : LocalAPIC} {busy : Bool}

/-- While one is in service none of these vectors is accepted. -/
theorem accept_busy (serving : Serving l true) (alike : Alike v.toNat) : l.accept v = none := by
  obtain ⟨u,there,only⟩ := serving
  apply if_neg
  intro all
  have urgent := List.all_eq_true.mp all.2.2 u (List.mem_range.mpr there.1)
  simp only [only,decide_true,Bool.not_true,Bool.false_or,decide_eq_true_eq] at urgent
  rw [there.2,alike.2] at urgent
  omega

theorem accept_idle (serving : Serving l false) (enabled : l.SpuriousInterruptVectorRegister.getLsbD 8 = true)
    (priority : l.TaskPriorityRegister = 0) (alike : Alike v.toNat) :
    l.accept v = some { l with inService := Function.update l.inService v.toNat true } := by
  have free : ∀ w, l.inService w = false := serving
  refine if_pos ⟨enabled,?_,?_⟩
  · rw [priority,alike.2]
    decide
  · exact List.all_eq_true.mpr (fun w _ => by rw [free]; rfl)

/-- The end of an interrupt leaves nothing in service. -/
theorem endOfInterrupt_serving (serving : Serving l busy) : Serving l.endOfInterrupt false := by
  intro w
  show (l.inService w && (List.range 256).any (fun u => decide (w < u) && l.inService u)) = false
  cases busy with
  | false =>
    have free : ∀ w, l.inService w = false := serving
    rw [free,Bool.false_and]
  | true =>
    obtain ⟨v,_,only⟩ := serving
    by_cases here : w = v
    · -- Nothing above it is in service.
      have none : (List.range 256).any (fun u => decide (w < u) && l.inService u) = false := by
        apply List.any_eq_false.mpr
        intro u _
        rw [only,here]
        simp only [Bool.and_eq_true,decide_eq_true_eq,not_and]
        omega
      rw [none,Bool.and_false]
    · rw [only,decide_eq_false here,Bool.false_and]

/-- Interrupts that come to the CPU, and the end of one by a handler. -/
inductive Event
  | pin (x slot : Nat)
  | signal (source : LocalSource)
  | line (irq : Nat)
  | EndOfInterrupt

namespace Event

/-- The controllers after an event; an interrupt comes if it is delivered. -/
def exec (f : Fabric) : Event → Option Fabric
  | .pin x slot => (f.interrupt x slot).map Prod.fst
  | .signal source => (f.lapic.signal source).map (fun lapic => { f with lapic })
  | .line irq => (f.pics.interrupt irq).map (fun (pics,_) => { f with pics })
  | .EndOfInterrupt => some f.EndOfInterrupt

/-- An interrupt begins, or ends. -/
def begins : Event → Bool
  | .EndOfInterrupt => false
  | _ => true

end Event

variable {f f' : Fabric} {e : Event} {events : List Event}

theorem routed_line (routed : Routed ranges table f) (irq : Nat) : f.pics.interrupt irq = none := by
  cases delivered : f.pics.interrupt irq with
  | none => rfl
  | some result =>
    obtain ⟨s,vector⟩ := result
    obtain ⟨⟨line,_,enabled,_⟩,_⟩ := (PIC.interrupt_eq_some routed.configured).mp delivered
    rw [routed.masks] at enabled
    interval_cases irq <;> cases enabled

theorem routed_source (routed : Routed ranges table f) (source : LocalSource) : f.lapic.signal source = none :=
  if_pos (routed.sources source)

/-- One event keeps the routes. -/
theorem exec_routed (routed : Routed ranges table f) (serving : Serving f.lapic busy)
    (inside : ∀ x slot v, table x slot = some v → ∃ r, ranges[x]? = some r ∧ slot < r.count)
    (alike : ∀ x slot v, table x slot = some v → Alike v.toNat) (done : e.exec f = some f') :
    Routed ranges table f' ∧ Serving f'.lapic e.begins := by
  cases e with
  | pin x slot =>
    obtain ⟨⟨g,v⟩,delivered,rfl⟩ := Option.map_eq_some_iff.mp done
    rw [routed_interrupt routed inside] at delivered
    obtain ⟨u,sends,taken⟩ := Option.bind_eq_some_iff.mp delivered
    have same := alike x slot u sends
    cases busy with
    | true =>
      rw [accept_busy serving same] at taken
      cases taken
    | false =>
      have free : ∀ w, f.lapic.inService w = false := serving
      rw [accept_idle serving routed.enabled routed.priority same] at taken
      cases taken
      refine ⟨{ routed with },_,same,?_⟩
      intro w
      show Function.update f.lapic.inService v.toNat true w = _
      rw [Function.update_apply,free]
      by_cases here : w = v.toNat
      · rw [if_pos here,decide_eq_true here]
      · rw [if_neg here,decide_eq_false here]
  | signal source =>
    obtain ⟨g,delivered,_⟩ := Option.map_eq_some_iff.mp done
    rw [routed_source routed] at delivered
    cases delivered
  | line irq =>
    obtain ⟨g,delivered,_⟩ := Option.map_eq_some_iff.mp done
    rw [routed_line routed] at delivered
    cases delivered
  | EndOfInterrupt =>
    cases done
    rw [Fabric.EndOfInterrupt,if_pos routed.inUse]
    exact ⟨{ routed with },endOfInterrupt_serving serving⟩

theorem run_routed (routed : Routed ranges table f) (serving : Serving f.lapic busy)
    (inside : ∀ x slot v, table x slot = some v → ∃ r, ranges[x]? = some r ∧ slot < r.count)
    (alike : ∀ x slot v, table x slot = some v → Alike v.toNat) (run : events.foldlM Event.exec f = some f') :
    Routed ranges table f' ∧ Serving f'.lapic (events.foldl (fun _ e => e.begins) busy) := by
  induction events generalizing f busy with
  | nil =>
    cases run
    exact ⟨routed,serving⟩
  | cons e events ih =>
    rw [List.foldlM_cons] at run
    obtain ⟨g,done,rest⟩ := Option.bind_eq_some_iff.mp run
    obtain ⟨routed',serving'⟩ := exec_routed routed serving inside alike done
    exact ih routed' serving' rest

theorem handledLines_alike {override : Nat → Nat} (sends : tableOf ranges override handledLines x slot = some v) : Alike v.toNat := by
  obtain ⟨line,found,rfl⟩ := Option.map_eq_some_iff.mp sends
  have member := List.mem_of_find?_eq_some found
  simp only [handledLines,List.reverse_cons,List.reverse_nil,List.nil_append,List.cons_append,List.mem_cons,List.not_mem_nil,or_false] at member
  rcases member with rfl | rfl | rfl <;> exact ⟨by decide,by decide⟩

/-- After a table has been read that describes the controllers, `InitializeSMP` returns, and then over any run of interrupts and
    their ends the 8259s and the sources inside of the local APIC deliver nothing. A pin delivers exactly while no interrupt is
    handled and if it is the pin of a line that is handled, and then with the vector of this line. -/
theorem run_routes {t : State} {k madt : Nat} (fresh : t._init = true) (parsed : t.ParseMADT k madt = some f.apic)
    (usable : f.apic.UsableAPIC = true) (address : f.apic.LAPIC ≠ 0) (fits : f.apic.Fits device) (configured : PIC.Configured f.pics)
    (number : f.lapic.LapicID = 0) (idle : ∀ v, f.lapic.inService v = false) :
    ∃ enough f', (∀ fuel, enough ≤ fuel → f.InitializeSMP device fuel false = some f') ∧
      ∀ (events : List Event) (f'' : Fabric), events.foldlM Event.exec f' = some f'' →
        (∀ irq, f''.pics.interrupt irq = none) ∧ (∀ source, f''.lapic.signal source = none) ∧
        ∀ x slot, (f''.interrupt x slot).map Prod.snd =
          if events.foldl (fun _ e => e.begins) false then none
          else (route (f.apic.ranges device) f.apic.override handledLines x slot).map vectorOf := by
  obtain ⟨enough,f',routed,kept,returns⟩ := initializeSMP_routed fresh parsed usable address fits configured number
  refine ⟨enough,f',returns,?_⟩
  intro events f'' run
  have start : Serving f'.lapic false := fun v => by rw [kept]; exact idle v
  obtain ⟨routed',serving⟩ := run_routed routed start (fun _ _ _ => tableOf_inside) (fun _ _ _ => handledLines_alike) run
  refine ⟨routed_line routed',routed_source routed',?_⟩
  intro x slot
  rw [routed_interrupt routed' (fun _ _ _ => tableOf_inside)]
  show _ = if _ then none else tableOf _ _ _ x slot
  generalize events.foldl (fun _ e => e.begins) false = busy at serving
  cases sends : tableOf (f.apic.ranges device) f.apic.override handledLines x slot with
  | none => simp
  | some v =>
    rw [Option.bind_some]
    cases busy with
    | true => rw [accept_busy serving (handledLines_alike sends)]; rfl
    | false => rw [accept_idle serving routed'.enabled routed'.priority (handledLines_alike sends)]; rfl

/-- A table with one controller of 24 entries, where the timer has interrupt 2. -/
def oneControllerTable : List (BitVec 8) :=
  List.replicate 4 0 ++ [66,0,0,0] ++ List.replicate 28 0 ++ [0x00,0x00,0xE0,0xFE] ++ List.replicate 4 0 ++
    [1,12,0,0,0x00,0x00,0xC0,0xFE,0,0,0,0] ++ [2,10,0,0,2,0,0,0,0,0]

/-- Before the table is read. -/
def unread : State where
  memory := fun address => oneControllerTable.getD (address - 0x1000) 0
  _init := true
  LocalAPICRecords := .empty
  IOAPICRecords := .empty
  IRQOverrides := .empty
  IOAPICs := .empty
  LAPIC := 0
  UsableAPIC := false

/-- The controllers of interrupts when the table has been read. -/
def handedOver : Fabric where
  pics := PIC.enabled
  apic := (unread.ParseMADT 3 0x1000).getD unread
  lapic := ⟨0,0,0,0,0,fun _ => 0,fun _ => false⟩
  InUse := false

theorem handedOver_parsed : unread.ParseMADT 3 0x1000 = some handedOver.apic := by
  have reads : (unread.ParseMADT 3 0x1000).isSome = true := by decide +kernel
  obtain ⟨s,same⟩ := Option.isSome_iff_exists.mp reads
  rw [handedOver,same]
  rfl

theorem handedOver_ranges : handedOver.apic.ranges (fun _ => IOAPIC.fresh) = [⟨0,24⟩] := by decide +kernel

theorem handedOver_fits : handedOver.apic.Fits (fun _ => IOAPIC.fresh) := by
  have small : ∀ r ∈ handedOver.apic.ranges (fun _ => IOAPIC.fresh), r.count ≤ 120 ∧ r.base + r.count ≤ 255 := by
    rw [handedOver_ranges]
    decide
  exact ⟨by decide +kernel,small,by decide +kernel⟩

/-- The pins of the timer and of the keyboard. -/
theorem run_routes_oneController : ∃ enough f', (∀ fuel, enough ≤ fuel → handedOver.InitializeSMP (fun _ => IOAPIC.fresh) fuel false = some f') ∧
    (f'.interrupt 0 2).map Prod.snd = some 0x20 ∧ (f'.interrupt 0 1).map Prod.snd = some 0x21 ∧ (f'.interrupt 0 0).map Prod.snd = none := by
  obtain ⟨enough,f',returns,routes⟩ := run_routes (f := handedOver) rfl handedOver_parsed (by decide +kernel) (by decide +kernel) handedOver_fits
    PIC.enabled_configured rfl (fun _ => rfl)
  obtain ⟨_,_,pins⟩ := routes [] f' rfl
  rw [handedOver_ranges] at pins
  have timer : handedOver.apic.override 0 = 2 := by decide +kernel
  have clock : handedOver.apic.override 8 = 8 := by decide +kernel
  have keyboard : handedOver.apic.override 1 = 1 := by decide +kernel
  have lines : ∀ slot, route [⟨0,24⟩] handedOver.apic.override handledLines 0 slot =
      [1,8,0].find? (fun irq => decide (pinOf [⟨0,24⟩] irq (if irq = 0 then 2 else irq) = some (0,slot))) := by
    intro slot
    rw [route,handledLines]
    simp [List.find?_cons,timer,clock,keyboard]
  refine ⟨enough,f',returns,?_,?_,?_⟩
  · rw [pins,lines]
    decide
  · rw [pins,lines]
    decide
  · rw [pins,lines]
    decide

end WaifuOS.APIC
