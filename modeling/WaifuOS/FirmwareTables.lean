import WaifuOS.PCI
import WaifuOS.RecordReads
import WaifuOS.Routing

/-!
What `InitializeACPI` learns from the tables of the firmware. A root table is a list of the addresses of other tables, of
which `FindTable` returns the first one with a signature (`findTable_first`). The table of the interrupt controllers is a header and
records one behind another (`Written`), and what `ParseMADT` keeps of them is what is in them (`parseMADT_written`):
the records of the local APICs and of the I/O APICs in their order, and for every interrupt the last override. It gives up at
the record of an x2APIC, and what stands before is kept (`heeded`). So the globals behind
`InitializeACPI` are those of the tables (`initializeACPI_tables`).
-/
namespace WaifuOS.ACPI
open WaifuOS.Words WaifuOS.Bytes WaifuOS.APIC

/-- `cstr::strcmp` of a number of characters. -/
def strcmp (str0 str1 : Nat → BitVec 8) (len : Nat) : Bool := (List.range len).all (fun x => str0 x = str1 x)

/-- The number of pointers behind a header of 36 bytes. -/
def entries (m : Mem) (xsdt : Nat) : Nat := sub (load m (xsdt+4) 4) 36 / 8 % 2^32

/-- The pointer `x` of the root table, whose distance has 32 bits. -/
def head (m : Mem) (xsdt x : Nat) : Nat := load m (wrap (xsdt + 36 + x * 8 % 2^32)) 8

/-- `FindTable`; 0 is `nullptr`. -/
def FindTable (m : Mem) (xsdt : Nat) (signature : List (BitVec 8)) : Nat :=
  (((List.range (entries m xsdt)).map (head m xsdt)).find? (fun head =>
    strcmp (fun x => m (head + x)) (fun x => signature.getD x 0) 4)).getD 0

/-- `"APIC"`. -/
def sigAPIC : List (BitVec 8) := [0x41,0x50,0x49,0x43]

/-- `"MCFG"`. -/
def sigMCFG : List (BitVec 8) := [0x4D,0x43,0x46,0x47]

structure Globals where
  apic : APIC.State
  pci : PCI.State

/-- `InitializeACPI`; `xsdt` is the address in the root pointer. What is printed is left out. -/
def InitializeACPI (fuel : Nat) (s : Globals) (xsdt : Nat) : Option Globals :=
  if xsdt = 0 then some s
  else do
    let madt := FindTable s.apic.memory xsdt sigAPIC
    let apic ← if madt ≠ 0 then s.apic.ParseMADT fuel madt else some s.apic
    let mcfg := FindTable apic.memory xsdt sigMCFG
    let pci := if mcfg ≠ 0 then PCI.EnumeratePCI apic.memory s.pci mcfg else s.pci
    some ⟨apic,pci⟩

/-- The four bytes at the front of a table. -/
def Signed (m : Mem) (signature : List (BitVec 8)) (table : Nat) : Prop := ∀ x < 4, m (table + x) = signature.getD x 0

instance (m : Mem) (signature : List (BitVec 8)) (table : Nat) : Decidable (Signed m signature table) :=
  inferInstanceAs (Decidable (∀ x < 4, _))

/-- The first table with a signature. -/
def firstSigned (m : Mem) (tables : List Nat) (signature : List (BitVec 8)) : Option Nat :=
  tables.find? (fun table => Signed m signature table)

/-- The root table is a list of the addresses of tables. -/
structure Root (m : Mem) (xsdt : Nat) (tables : List Nat) : Prop where
  length : load m (xsdt+4) 4 = 36 + 8 * tables.length
  pointer : ∀ x (inside : x < tables.length), load m (xsdt + 36 + 8*x) 8 = tables[x]
  notNull : 0 ∉ tables
  word : xsdt + 36 + 8 * tables.length < 2^64

/-- What a record says. -/
inductive Entry
  | LAPIC
  | IOAPIC (Address GlobalSysInterruptBase : Nat)
  | override (IrqSource IrqOverride : Nat)
  | moved (Address : Nat)
  | x2LAPIC
  | other
deriving DecidableEq

/-- A record stands at an address. -/
def Stands (m : Mem) (record : Nat) : Entry → Prop
  | .LAPIC => RecordType.ofByte (m record) = some .LAPIC
  | .IOAPIC Address GlobalSysInterruptBase => RecordType.ofByte (m record) = some .IOAPIC ∧ load m (record+4) 4 = Address ∧
      load m (record+8) 4 = GlobalSysInterruptBase
  | .override IrqSource IrqOverride => RecordType.ofByte (m record) = some .IOAPICInterruptSourceOverride ∧
      (m (record+3)).toNat = IrqSource ∧ load m (record+4) 4 = IrqOverride
  -- where the kernel reads the address
  | .moved Address => RecordType.ofByte (m record) = some .LAPICAddressOverride ∧ load m (record+8) 8 = Address
  | .x2LAPIC => RecordType.ofByte (m record) = some .x2LAPIC
  | .other => RecordType.ofByte (m record) = none ∨ RecordType.ofByte (m record) = some .IOAPICNMISource ∨
      RecordType.ofByte (m record) = some .LAPICNMI

/-- Records one behind another, with their addresses. -/
inductive Written (m : Mem) : Nat → List (Nat × Entry) → Nat → Prop
  | ended (stop : Nat) : Written m stop [] stop
  | record {record stop : Nat} {e : Entry} {es : List (Nat × Entry)} (stands : Stands m record e) (length : (m (record+1)).toNat ≠ 0)
      (rest : Written m (record + (m (record+1)).toNat) es stop) : Written m record ((record,e) :: es) stop

/-- The table of the interrupt controllers: a header of 44 bytes and records. -/
structure Madt (m : Mem) (madt : Nat) (es : List (Nat × Entry)) : Prop where
  written : Written m (madt+44) es (madt + load m (madt+4) 4)
  word : madt + load m (madt+4) 4 < 2^64

def Entry.isLAPIC : Entry → Bool
  | .LAPIC => true
  | _ => false

def Entry.isIOAPIC : Entry → Bool
  | .IOAPIC _ _ => true
  | _ => false

def Entry.isX2LAPIC : Entry → Bool
  | .x2LAPIC => true
  | _ => false

/-- The interrupt that an override of a source gives. -/
def Entry.overrides (irq : Nat) : Entry → Option Nat
  | .override IrqSource IrqOverride => if IrqSource = irq then some IrqOverride else none
  | _ => none

def Entry.movedTo : Entry → Option Nat
  | .moved Address => some Address
  | _ => none

/-- The interrupts of the controller of a record. -/
def Entry.range (device : Nat → APIC.IOAPIC) : Entry → Option Range
  | .IOAPIC Address GlobalSysInterruptBase => some ⟨GlobalSysInterruptBase,(device Address).reported⟩
  | _ => none

/-- The records before the first one of an x2APIC. -/
def heeded (es : List (Nat × Entry)) : List (Nat × Entry) := es.takeWhile (fun e => !e.2.isX2LAPIC)

/-- No record is one of an x2APIC. -/
def usable (es : List (Nat × Entry)) : Bool := es.all (fun e => !e.2.isX2LAPIC)

/-- The records of one kind. -/
def addresses (es : List (Nat × Entry)) (kind : Entry → Bool) : List Nat := (es.filter (fun e => kind e.2)).map Prod.fst

/-- Where an interrupt is: the last override says it. -/
def place (es : List (Nat × Entry)) (irq : Nat) : Nat := ((es.reverse.findSome? (fun e => e.2.overrides irq)).map (· % 256)).getD irq

/-- Where the local APIC is. -/
def lapicAddress (es : List (Nat × Entry)) (LapicAddress : Nat) : Nat := (es.reverse.findSome? (fun e => e.2.movedTo)).getD LapicAddress

def ranges (es : List (Nat × Entry)) (device : Nat → APIC.IOAPIC) : List Range := es.filterMap (fun e => e.2.range device)

variable {m : Mem} {xsdt madt record stop fuel irq : Nat} {tables : List Nat} {es : List (Nat × Entry)} {e : Entry} {s s' : APIC.State}
  {device : Nat → APIC.IOAPIC}

theorem strcmp_signed (m : Mem) (signature : List (BitVec 8)) (table : Nat) :
    strcmp (fun x => m (table + x)) (fun x => signature.getD x 0) 4 = decide (Signed m signature table) := by
  rw [strcmp,Bool.eq_iff_iff,List.all_eq_true,decide_eq_true_eq,Signed]
  simp only [List.mem_range,decide_eq_true_eq]

/-- The pointers of the root table are read one after another. -/
theorem pointers_eq (root : Root m xsdt tables) : (List.range (entries m xsdt)).map (head m xsdt) = tables := by
  have length := root.length
  have word := root.word
  have short := load_lt m (xsdt+4) 4
  have count : entries m xsdt = tables.length := by
    rw [entries,length,sub_of_le (by omega) (by omega)]
    omega
  apply List.ext_getElem
  · rw [List.length_map,List.length_range,count]
  · intro x small inside
    rw [List.getElem_map,List.getElem_range,← root.pointer x inside,head,Nat.mod_eq_of_lt (by omega),wrap_of_lt (by omega),Nat.mul_comm]

/-- `FindTable` returns the first table with the signature. -/
theorem findTable_first (root : Root m xsdt tables) (signature : List (BitVec 8)) :
    FindTable m xsdt signature = (firstSigned m tables signature).getD 0 := by
  rw [FindTable,pointers_eq root,firstSigned]
  simp only [strcmp_signed]

theorem Written.member {start : Nat} (written : Written m start es stop) {a : Nat} (inside : (a,e) ∈ es) : Stands m a e ∧ start ≤ a := by
  induction written with
  | ended => cases inside
  | record stands _ _ ih =>
    rcases List.mem_cons.mp inside with same | later
    · cases same
      exact ⟨stands,Nat.le_refl _⟩
    · obtain ⟨stands',behind⟩ := ih later
      exact ⟨stands',by omega⟩

/-- There are no more records than bytes. -/
theorem Written.length_le {start : Nat} (written : Written m start es stop) : start + es.length ≤ stop := by
  induction written with
  | ended => exact Nat.le_refl _
  | record _ length _ ih =>
    rw [List.length_cons]
    omega

/-- The place of the last override of an interrupt. -/
def lastOverride (es : List (Nat × Entry)) (irq : Nat) : Option Nat :=
  es.reverse.findSome? (fun e => (e.2.overrides irq).map (fun _ => e.1))

/-- What the globals are after records. -/
structure Took (es : List (Nat × Entry)) (s s' : APIC.State) : Prop where
  memory : s'.memory = s.memory
  controllers : s'.IOAPICs = s.IOAPICs
  lapics : s'.LocalAPICRecords.elements = s.LocalAPICRecords.elements ++ addresses es Entry.isLAPIC
  ioapics : s'.IOAPICRecords.elements = s.IOAPICRecords.elements ++ addresses es Entry.isIOAPIC
  overrides : ∀ irq, s'.IRQOverrides.mArray irq = (lastOverride es irq).getD (s.IRQOverrides.mArray irq)

theorem lastOverride_cons (a : Nat) (e : Entry) (es : List (Nat × Entry)) (irq old : Nat) :
    (lastOverride ((a,e) :: es) irq).getD old = (lastOverride es irq).getD (((e.overrides irq).map (fun _ => a)).getD old) := by
  rw [lastOverride,List.reverse_cons,List.findSome?_append]
  cases later : es.reverse.findSome? (fun e => (e.2.overrides irq).map (fun _ => e.1)) with
  | some place => simp [lastOverride,later]
  | none => simp [lastOverride,later]

theorem lapicAddress_cons (a : Nat) (e : Entry) (es : List (Nat × Entry)) (old : Nat) :
    lapicAddress ((a,e) :: es) old = lapicAddress es (e.movedTo.getD old) := by
  rw [lapicAddress,List.reverse_cons,List.findSome?_append,lapicAddress]
  cases later : es.reverse.findSome? (fun e => e.2.movedTo) with
  | some place => simp
  | none => simp

theorem addresses_cons (a : Nat) (e : Entry) (es : List (Nat × Entry)) (kind : Entry → Bool) :
    addresses ((a,e) :: es) kind = (if kind e then [a] else []) ++ addresses es kind := by
  rw [addresses,List.filter_cons,addresses]
  split <;> rfl

theorem Stands.isX2LAPIC (stands : Stands m record e) : RecordType.ofByte (m record) = some .x2LAPIC ↔ e.isX2LAPIC = true := by
  cases e with
  | x2LAPIC => exact iff_of_true stands rfl
  | LAPIC => exact iff_of_false (fun isX2 => by cases isX2.symm.trans stands) Bool.false_ne_true
  | IOAPIC _ _ | override _ _ | moved _ =>
    exact iff_of_false (fun isX2 => by cases isX2.symm.trans stands.1) Bool.false_ne_true
  | other =>
    refine iff_of_false ?_ Bool.false_ne_true
    intro isX2
    rcases stands with isType | isType | isType <;> cases isX2.symm.trans isType

/-- A record is taken as it says. -/
theorem takeRecord_stands (stands : Stands s.memory record e) (lapics : s.LocalAPICRecords.mCount + 1 < 2^64)
    (ioapics : s.IOAPICRecords.mCount + 1 < 2^64) (lApicPhysAddress : Nat) :
    (s.takeRecord record lApicPhysAddress).2 = e.movedTo.getD lApicPhysAddress ∧
      (s.takeRecord record lApicPhysAddress).1.LAPIC = s.LAPIC ∧ Took [(record,e)] s (s.takeRecord record lApicPhysAddress).1 := by
  have single : ∀ irq old, (lastOverride [(record,e)] irq).getD old = ((e.overrides irq).map (fun _ => record)).getD old :=
    fun irq old => lastOverride_cons record e [] irq old
  cases e with
  | LAPIC =>
    have isType : RecordType.ofByte (s.memory record) = some .LAPIC := stands
    rw [APIC.State.takeRecord,isType]
    exact ⟨rfl,rfl,rfl,rfl,KernelList.elements_add lapics,(List.append_nil _).symm,fun irq => (single irq _).symm⟩
  | IOAPIC Address GlobalSysInterruptBase =>
    rw [APIC.State.takeRecord,stands.1]
    exact ⟨rfl,rfl,rfl,rfl,(List.append_nil _).symm,KernelList.elements_add ioapics,fun irq => (single irq _).symm⟩
  | override IrqSource IrqOverride =>
    obtain ⟨isType,source,_⟩ := stands
    rw [APIC.State.takeRecord,isType]
    refine ⟨rfl,rfl,rfl,rfl,(List.append_nil _).symm,(List.append_nil _).symm,?_⟩
    intro irq
    rw [single,Entry.overrides]
    show Function.update s.IRQOverrides.mArray (s.memory (record+3)).toNat record irq = _
    rw [source]
    by_cases here : irq = IrqSource
    · rw [here,Function.update_self,if_pos rfl]
      rfl
    · rw [Function.update_of_ne here,if_neg (fun same => here same.symm)]
      rfl
  | moved Address =>
    rw [APIC.State.takeRecord,stands.1]
    exact ⟨stands.2,rfl,rfl,rfl,(List.append_nil _).symm,(List.append_nil _).symm,fun irq => (single irq _).symm⟩
  | x2LAPIC =>
    have isType : RecordType.ofByte (s.memory record) = some .x2LAPIC := stands
    rw [APIC.State.takeRecord,isType]
    exact ⟨rfl,rfl,rfl,rfl,(List.append_nil _).symm,(List.append_nil _).symm,fun irq => (single irq _).symm⟩
  | other =>
    have kept : s.takeRecord record lApicPhysAddress = (s,lApicPhysAddress) := by
      rw [APIC.State.takeRecord]
      rcases stands with isType | isType | isType <;> rw [isType]
    rw [kept]
    exact ⟨rfl,rfl,rfl,rfl,(List.append_nil _).symm,(List.append_nil _).symm,fun irq => (single irq _).symm⟩

theorem Took.trans {t : APIC.State} {a : Nat} (first : Took [(a,e)] s s') (rest : Took es s' t) : Took ((a,e) :: es) s t where
  memory := rest.memory.trans first.memory
  controllers := rest.controllers.trans first.controllers
  lapics := by
    rw [rest.lapics,first.lapics,addresses_cons,addresses_cons,List.append_assoc]
    simp [addresses]
  ioapics := by
    rw [rest.ioapics,first.ioapics,addresses_cons,addresses_cons,List.append_assoc]
    simp [addresses]
  overrides irq := by
    rw [rest.overrides,first.overrides,lastOverride_cons,lastOverride_cons]
    rfl

theorem heeded_cons (a : Nat) (e : Entry) (es : List (Nat × Entry)) (other : e.isX2LAPIC = false) :
    heeded ((a,e) :: es) = (a,e) :: heeded es ∧ usable ((a,e) :: es) = usable es := by
  constructor
  · rw [heeded,List.takeWhile_cons_of_pos (by simp [other])]
    rfl
  · simp [usable,other]

/-- The loop takes the records up to one of an x2APIC, with any fuel that is enough. -/
theorem parseRecords_written (written : Written m record es stop) (memory : s.memory = m)
    (lapics : s.LocalAPICRecords.mCount + es.length < 2^64) (ioapics : s.IOAPICRecords.mCount + es.length < 2^64) (word : stop < 2^64)
    (lApicPhysAddress : Nat) :
    ∃ s', Took (heeded es) s s' ∧ s'.LAPIC = (if usable es then lapicAddress es lApicPhysAddress else s.LAPIC) ∧
      s'.UsableAPIC = usable es ∧ ∀ fuel, es.length < fuel → s.parseRecords fuel stop record lApicPhysAddress = some s' := by
  induction written generalizing s lApicPhysAddress with
  | ended stop =>
    refine ⟨{ s with LAPIC := lApicPhysAddress, UsableAPIC := true },⟨rfl,rfl,(List.append_nil _).symm,(List.append_nil _).symm,
      fun irq => rfl⟩,rfl,rfl,fun fuel more => ?_⟩
    obtain ⟨k,rfl⟩ := Nat.exists_eq_succ_of_ne_zero (Nat.ne_of_gt more)
    rw [APIC.State.parseRecords,if_neg (Nat.lt_irrefl _)]
  | @record record stop e es stands length rest ih =>
    subst memory
    rw [List.length_cons] at lapics ioapics
    have before : record < stop := by
      have behind := rest.length_le
      omega
    cases isX2 : e.isX2LAPIC with
    | true =>
      -- The loop returns here.
      have type := stands.isX2LAPIC.mpr isX2
      have none : heeded ((record,e) :: es) = [] ∧ usable ((record,e) :: es) = false := by simp [heeded,usable,isX2]
      refine ⟨{ s with UsableAPIC := false },?_,by rw [none.2]; rfl,none.2.symm,?_⟩
      · rw [none.1]
        exact ⟨rfl,rfl,(List.append_nil _).symm,(List.append_nil _).symm,fun irq => rfl⟩
      · intro fuel more
        obtain ⟨k,rfl⟩ := Nat.exists_eq_succ_of_ne_zero (Nat.ne_of_gt (Nat.zero_lt_of_lt more))
        rw [Nat.succ_eq_add_one,APIC.State.parseRecords,if_pos before,type]
    | false =>
      obtain ⟨moved,kept,took⟩ := takeRecord_stands stands (by omega) (by omega) lApicPhysAddress
      have onward : wrap (record + (s.memory (record+1)).toNat) = record + (s.memory (record+1)).toNat :=
        wrap_of_lt (by have behind := rest.length_le; omega)
      have other : RecordType.ofByte (s.memory record) ≠ some .x2LAPIC := fun type => by
        rw [stands.isX2LAPIC.mp type] at isX2
        cases isX2
      generalize taken : s.takeRecord record lApicPhysAddress = r at moved kept took
      obtain ⟨s₁,lApicPhysAddress₁⟩ := r
      dsimp only at moved kept took
      have counted : s₁.LocalAPICRecords.mCount ≤ s.LocalAPICRecords.mCount + 1 ∧ s₁.IOAPICRecords.mCount ≤ s.IOAPICRecords.mCount + 1 := by
        have first := congrArg List.length took.lapics
        have second := congrArg List.length took.ioapics
        rw [List.length_append,KernelList.elements_length,KernelList.elements_length,addresses_cons] at first second
        constructor
        · rw [first]
          split <;> simp [addresses]
        · rw [second]
          split <;> simp [addresses]
      obtain ⟨s',took',address,flag,all⟩ := ih (s := s₁) took.memory (by omega) (by omega) word lApicPhysAddress₁
      obtain ⟨more,same⟩ := heeded_cons record e es isX2
      rw [more,same]
      refine ⟨s',took.trans took',?_,flag,?_⟩
      · rw [address,lapicAddress_cons,moved,kept]
      · intro fuel more
        rw [List.length_cons] at more
        obtain ⟨k,rfl⟩ := Nat.exists_eq_succ_of_ne_zero (Nat.ne_of_gt (Nat.zero_lt_of_lt more))
        rw [Nat.succ_eq_add_one,APIC.State.parseRecords_record before other,taken,onward]
        exact all _ (by omega)

/-! ### The globals -/

/-- The globals of the interrupts are what a table says; before it was read the local APIC was at `LAPIC`. -/
structure Learned (m : Mem) (madt : Nat) (es : List (Nat × Entry)) (LAPIC : Nat) (s : APIC.State) : Prop where
  memory : s.memory = m
  lapics : s.LocalAPICRecords.elements = addresses (heeded es) Entry.isLAPIC
  ioapics : s.IOAPICRecords.elements = addresses (heeded es) Entry.isIOAPIC
  overrides : ∀ irq, s.override irq = place (heeded es) irq
  ranges : ∀ device, s.ranges device = ranges (heeded es) device
  address : s.LAPIC = if usable es then lapicAddress es (load m (madt+36) 4) else LAPIC
  usable : s.UsableAPIC = usable es

/-- The record of the last override is where that override is read. -/
theorem override_record (l : List (Nat × Entry)) (stands : ∀ e ∈ l, Stands m e.1 e.2 ∧ e.1 ≠ 0) (irq : Nat) :
    (let record := (l.findSome? (fun e => (e.2.overrides irq).map (fun _ => e.1))).getD 0
      if record = 0 then irq else load m (record+4) 4 % 256) =
      ((l.findSome? (fun e => e.2.overrides irq)).map (· % 256)).getD irq := by
  induction l with
  | nil => rfl
  | cons e l ih =>
    obtain ⟨here,notNull⟩ := stands e List.mem_cons_self
    rw [List.findSome?_cons,List.findSome?_cons]
    cases given : e.2.overrides irq with
    | none => exact ih (fun e' later => stands e' (List.mem_cons_of_mem _ later))
    | some g =>
      have read : load m (e.1+4) 4 = g := by
        obtain ⟨a,e⟩ := e
        cases e with
        | override IrqSource IrqOverride =>
          rw [Entry.overrides] at given
          split at given
          · exact here.2.2.trans (Option.some.inj given)
          · cases given
        | _ => cases given
      show (if e.1 = 0 then irq else load m (e.1+4) 4 % 256) = g % 256
      rw [if_neg notNull,read]

/-- The controllers of the records are those that their fields say. -/
theorem ranges_records (stands : ∀ e ∈ es, Stands m e.1 e.2) (device : Nat → APIC.IOAPIC) :
    (addresses es Entry.isIOAPIC).map (fun record => (⟨load m (record+8) 4,(device (load m (record+4) 4)).reported⟩ : Range)) =
      ranges es device := by
  induction es with
  | nil => rfl
  | cons e es ih =>
    obtain ⟨a,e⟩ := e
    have here := stands _ List.mem_cons_self
    rw [addresses_cons,List.map_append,ih (fun e' later => stands e' (List.mem_cons_of_mem _ later))]
    cases e with
    | IOAPIC Address GlobalSysInterruptBase =>
      obtain ⟨_,address,base⟩ := here
      simp [Entry.isIOAPIC,Entry.range,ranges,address,base]
    | _ => rfl

/-- `ParseMADT` learns what the records say. -/
theorem parseMADT_written (table : Madt m madt es) (memory : s.memory = m) (fresh : s._init = true) :
    ∃ enough s', Learned m madt es s.LAPIC s' ∧ ∀ fuel, enough ≤ fuel → s.ParseMADT fuel madt = some s' := by
  subst memory
  have word := table.word
  have length := table.written.length_le
  have finish : wrap (load s.memory (madt+4) 4 + madt) = madt + load s.memory (madt+4) 4 := by
    rw [Nat.add_comm]
    exact wrap_of_lt word
  have stands : ∀ e ∈ heeded es, Stands s.memory e.1 e.2 ∧ e.1 ≠ 0 := by
    intro e member
    obtain ⟨here,behind⟩ := table.written.member (a := e.1) (e := e.2) ((List.takeWhile_sublist _).mem member)
    exact ⟨here,by omega⟩
  let start : APIC.State := { s with
    LocalAPICRecords := .empty
    IOAPICs := .empty
    IOAPICRecords := .empty
    IRQOverrides := APIC.State.noOverrides
    _init := false }
  have short : 0 + es.length < 2^64 := by omega
  obtain ⟨s',took,address,flag,all⟩ := parseRecords_written (s := start) table.written rfl short short word (load s.memory (madt+36) 4)
  refine ⟨es.length + 1,s',?_,?_⟩
  · refine ⟨took.memory,took.lapics,took.ioapics,?_,?_,address,flag⟩
    · intro irq
      rw [APIC.State.override,took.overrides irq,took.memory]
      exact override_record (heeded es).reverse (fun e member => stands e (List.mem_reverse.mp member)) irq
    · intro device
      rw [APIC.State.ranges,took.memory,took.ioapics]
      exact ranges_records (fun e member => (stands e member).1) device
  · intro fuel more
    rw [APIC.State.ParseMADT,if_pos fresh]
    dsimp only
    rw [finish,wrap_of_lt (by omega)]
    exact all fuel more

/-! ### `InitializeACPI` -/

/-- Before the tables are read. -/
structure Fresh (s : Globals) : Prop where
  apic : s.apic._init = true
  pci : s.pci._init = true
  none : s.pci.SupportedFunctions.mCount = 0

/-- After `InitializeACPI` the interrupts are those of the first table with the signature `"APIC"`, and the functions those on
    the buses of the first one with `"MCFG"`. -/
theorem initializeACPI_tables {s : Globals} {es : Nat → List (Nat × Entry)} (there : xsdt ≠ 0) (root : Root s.apic.memory xsdt tables)
    (fresh : Fresh s) (records : ∀ madt, firstSigned s.apic.memory tables sigAPIC = some madt → Madt s.apic.memory madt (es madt)) :
    ∃ enough s', (∀ fuel, enough ≤ fuel → InitializeACPI fuel s xsdt = some s') ∧
      (match firstSigned s.apic.memory tables sigAPIC with
        | some madt => Learned s.apic.memory madt (es madt) s.apic.LAPIC s'.apic
        | none => s'.apic = s.apic) ∧
      ∀ a, a ∈ s'.pci.SupportedFunctions.elements ↔
        ∃ mcfg, firstSigned s.apic.memory tables sigMCFG = some mcfg ∧ PCI.Reached s.apic.memory mcfg a := by
  -- The interrupts.
  have first : ∃ enough apic, (∀ fuel, enough ≤ fuel → (if FindTable s.apic.memory xsdt sigAPIC ≠ 0 then
      s.apic.ParseMADT fuel (FindTable s.apic.memory xsdt sigAPIC) else some s.apic) = some apic) ∧ apic.memory = s.apic.memory ∧
      (match firstSigned s.apic.memory tables sigAPIC with
        | some madt => Learned s.apic.memory madt (es madt) s.apic.LAPIC apic
        | none => apic = s.apic) := by
    rw [findTable_first root]
    cases found : firstSigned s.apic.memory tables sigAPIC with
    | none => exact ⟨0,s.apic,fun _ _ => rfl,rfl,rfl⟩
    | some madt =>
      have listed := List.mem_of_find?_eq_some found
      have notNull : madt ≠ 0 := fun null => root.notNull (null ▸ listed)
      obtain ⟨enough,apic,learned,parses⟩ := parseMADT_written (records madt found) rfl fresh.apic
      refine ⟨enough,apic,?_,learned.memory,learned⟩
      intro fuel more
      rw [Option.getD_some,if_pos notNull]
      exact parses fuel more
  obtain ⟨enough,apic,parses,memory,learned⟩ := first
  refine ⟨enough,⟨apic,if FindTable s.apic.memory xsdt sigMCFG ≠ 0 then
    PCI.EnumeratePCI s.apic.memory s.pci (FindTable s.apic.memory xsdt sigMCFG) else s.pci⟩,fun fuel more => ?_,learned,fun a => ?_⟩
  · have parsed := parses fuel more
    rw [InitializeACPI,if_neg there]
    simp only [Option.bind_eq_bind]
    by_cases listed : FindTable s.apic.memory xsdt sigAPIC ≠ 0
    · rw [if_pos listed] at parsed ⊢
      rw [parsed,Option.bind_some,memory]
    · rw [if_neg listed] at parsed ⊢
      rw [parsed,Option.bind_some,memory]
  · -- The functions.
    dsimp only
    rw [findTable_first root]
    cases found : firstSigned s.apic.memory tables sigMCFG with
    | none =>
      have empty : s.pci.SupportedFunctions.elements = [] := by
        apply List.eq_nil_of_length_eq_zero
        rw [KernelList.elements_length,fresh.none]
      simp [empty]
    | some mcfg =>
      have notNull : mcfg ≠ 0 := fun null => root.notNull (null ▸ List.mem_of_find?_eq_some found)
      have earlier : s.pci.earlier = .empty := by rw [PCI.State.earlier,if_pos fresh.pci]
      rw [Option.getD_some,if_pos notNull,PCI.enumeratePCI_elements (by rw [earlier]; decide),earlier]
      simp [KernelList.elements,KernelList.empty]

/-- A root table with two tables: one of a bus with one function, and one of an I/O APIC and an override of the timer. -/
def firmware : Mem := fun i =>
  if 0x500 ≤ i ∧ i < 0x600 then
    (List.replicate 4 0 ++ [52,0,0,0] ++ List.replicate 28 0 ++ [0,0x10,0,0,0,0,0,0,0,0x30,0,0,0,0,0,0]).getD (i - 0x500) 0
  else if 0x1000 ≤ i ∧ i < 0x1004 then sigMCFG.getD (i - 0x1000) 0
  else if 0x3000 ≤ i ∧ i < 0x4000 then (sigAPIC ++ oneControllerTable.drop 4).getD (i - 0x3000) 0
  else PCI.oneController 1 i

def firmwareRecords : List (Nat × Entry) := [(0x302C,.IOAPIC 0xFEC00000 0),(0x3038,.override 0 2)]

theorem firmware_root : Root firmware 0x500 [0x1000,0x3000] where
  length := by decide +kernel
  pointer x inside := by
    match x,inside with
    | 0,_ =>
      show load firmware (0x500 + 36 + 8*0) 8 = 0x1000
      decide +kernel
    | 1,_ =>
      show load firmware (0x500 + 36 + 8*1) 8 = 0x3000
      decide +kernel
  notNull := by decide
  word := by decide

theorem firmware_madt : Madt firmware 0x3000 firmwareRecords := by
  have finish : 0x3000 + load firmware (0x3000+4) 4 = 0x3038 + (firmware (0x3038+1)).toNat := by decide +kernel
  refine ⟨?_,by decide +kernel⟩
  rw [finish]
  have next : 0x302C + (firmware (0x302C+1)).toNat = 0x3038 := by decide +kernel
  refine .record ⟨rfl,by decide +kernel,by decide +kernel⟩ (by decide +kernel) ?_
  rw [next]
  exact .record ⟨rfl,by decide +kernel,by decide +kernel⟩ (by decide +kernel) (.ended _)

theorem initializeACPI_tables_firmware : ∃ enough s', (∀ fuel, enough ≤ fuel →
      InitializeACPI fuel ⟨{ unread with memory := firmware },PCI.boot⟩ 0x500 = some s') ∧
    s'.apic.override 0 = 2 ∧ s'.apic.override 1 = 1 ∧ s'.apic.LAPIC = 0xFEE00000 ∧ 0x10000000 ∈ s'.pci.SupportedFunctions.elements := by
  have controllers : firstSigned firmware [0x1000,0x3000] sigAPIC = some 0x3000 := by decide +kernel
  have buses : firstSigned firmware [0x1000,0x3000] sigMCFG = some 0x1000 := by decide +kernel
  have records : ∀ madt, firstSigned firmware [0x1000,0x3000] sigAPIC = some madt → Madt firmware madt firmwareRecords := by
    intro madt found
    cases controllers.symm.trans found
    exact firmware_madt
  obtain ⟨enough,s',returns,learned,members⟩ := initializeACPI_tables (s := ⟨{ unread with memory := firmware },PCI.boot⟩)
    (by decide) firmware_root ⟨rfl,rfl,rfl⟩ records
  rw [controllers] at learned
  refine ⟨enough,s',returns,?_,?_,?_,?_⟩
  · rw [learned.overrides]
    rfl
  · rw [learned.overrides]
    rfl
  · rw [learned.address]
    decide +kernel
  · exact (members _).mpr ⟨0x1000,buses,0,by decide +kernel,0,by decide +kernel,by decide +kernel,by decide +kernel,0,by decide,0,by decide,
      by decide +kernel,by decide +kernel,by decide +kernel⟩

end WaifuOS.ACPI
