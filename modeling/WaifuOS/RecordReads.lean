import WaifuOS.Redirection

/-!
The addresses that the record loop of `ParseMADT` reads. `traceRecords` is the loop
with the addresses beside its result; without them it is the loop
(`traceRecords_parse`). Before the end of the table a record is taken as it stands: its
fields are read where its type puts them, and the next one is looked for at the distance that
its own length says. So the loop ends and stays inside the table exactly when the table
is a list of whole records (`Records`, `parseMADT_safe_iff`). A record without a length is
taken over and over again (`parseMADT_unsafe`).
-/
namespace WaifuOS.APIC
open WaifuOS.Words WaifuOS.Bytes

/-- The fields of a record that are read, besides its type and length. An override's number is printed. -/
def fieldReads (type : Option RecordType) (currentRecord : Nat) : List Nat :=
  match type with
  | some .IOAPICInterruptSourceOverride => (currentRecord+3) :: List.range' (currentRecord+4) 4
  | some .LAPICAddressOverride => List.range' (currentRecord+8) 8
  | _ => []

/-- The bytes of a record up to the last one that is read. -/
def extent : Option RecordType → Nat
  | some .IOAPICInterruptSourceOverride => 8
  | some .LAPICAddressOverride => 16
  | _ => 2

def recordReads (type : Option RecordType) (currentRecord : Nat) : List Nat :=
  currentRecord :: fieldReads type currentRecord ++ [currentRecord+1]

namespace State

/-- The loop of `ParseMADT`, and the addresses that it reads. -/
def traceRecords : Nat → State → Nat → Nat → Nat → Option (State × List Nat)
  | 0, _, _, _, _ => none
  | fuel+1, s, maxAddress, currentRecord, lApicPhysAddress =>
    if currentRecord < maxAddress then
      match RecordType.ofByte (s.memory currentRecord) with
      | some .x2LAPIC => some ({ s with UsableAPIC := false },[currentRecord])
      | type => do
        let (s',lApicPhysAddress) := s.takeRecord currentRecord lApicPhysAddress
        let next := wrap (currentRecord + (s.memory (currentRecord+1)).toNat)
        let (s',reads) ← traceRecords fuel s' maxAddress next lApicPhysAddress
        some (s',recordReads type currentRecord ++ reads)
    else some ({ s with LAPIC := lApicPhysAddress, UsableAPIC := true },[])

/-- The globals when the loop starts. -/
def prepare (s : State) : State :=
  if s._init then
    { s with
      LocalAPICRecords := .empty
      IOAPICs := .empty
      IOAPICRecords := .empty
      IRQOverrides := noOverrides
      _init := false }
  else s

/-- `madt + madt->Length`. -/
def tableEnd (s : State) (madt : Nat) : Nat := wrap (load s.memory (madt+4) 4 + madt)

/-- `ParseMADT`, and the addresses that its loop reads. -/
def traceMADT (fuel : Nat) (s : State) (madt : Nat) : Option (State × List Nat) :=
  s.prepare.traceRecords fuel (s.tableEnd madt) (wrap (madt + 44)) (load s.memory (madt+36) 4)

/-- `ParseMADT` returns, and its loop reads nothing at or beyond the end of the table. -/
def Safe (s : State) (madt : Nat) : Prop :=
  ∃ fuel s' reads, s.traceMADT fuel madt = some (s',reads) ∧ ∀ address ∈ reads, address < s.tableEnd madt

end State

/-- A record that is read inside the table and leads on. -/
structure Whole (m : Mem) (maxAddress currentRecord : Nat) : Prop where
  fits : currentRecord + extent (RecordType.ofByte (m currentRecord)) ≤ maxAddress
  length : (m (currentRecord+1)).toNat ≠ 0

/-- From an address to the end of the table, or to the record of an x2APIC, stand whole records. -/
inductive Records (m : Mem) (maxAddress : Nat) : Nat → Prop
  | ended {currentRecord : Nat} : maxAddress ≤ currentRecord → Records m maxAddress currentRecord
  | x2LAPIC {currentRecord : Nat} : RecordType.ofByte (m currentRecord) = some .x2LAPIC → Records m maxAddress currentRecord
  | record {currentRecord : Nat} : Whole m maxAddress currentRecord →
      Records m maxAddress (wrap (currentRecord + (m (currentRecord+1)).toNat)) → Records m maxAddress currentRecord

variable {s s' : State} {m : Mem} {fuel madt maxAddress currentRecord lApicPhysAddress : Nat} {reads : List Nat}
  {type : Option RecordType}

/-- The reads of a record are inside a bound exactly when its extent is. -/
theorem recordReads_inside : (∀ address ∈ recordReads type currentRecord, address < maxAddress) ↔ currentRecord + extent type ≤ maxAddress := by
  simp only [recordReads,fieldReads,extent]
  split
  · simp [List.range']
    omega
  · simp [List.range']
    omega
  · simp
    omega

namespace State

/-- The traced loop takes a record as the loop does, and reads it. -/
theorem traceRecords_record (before : currentRecord < maxAddress) (other : RecordType.ofByte (s.memory currentRecord) ≠ some .x2LAPIC) :
    s.traceRecords (fuel+1) maxAddress currentRecord lApicPhysAddress =
      ((s.takeRecord currentRecord lApicPhysAddress).1.traceRecords fuel maxAddress
        (wrap (currentRecord + (s.memory (currentRecord+1)).toNat)) (s.takeRecord currentRecord lApicPhysAddress).2).map fun rest =>
        (rest.1,recordReads (RecordType.ofByte (s.memory currentRecord)) currentRecord ++ rest.2) := by
  rw [traceRecords,if_pos before]
  split
  · next isX2 => exact absurd isX2 other
  · simp only [Option.bind_eq_bind]
    cases (s.takeRecord currentRecord lApicPhysAddress).1.traceRecords fuel maxAddress
      (wrap (currentRecord + (s.memory (currentRecord+1)).toNat)) (s.takeRecord currentRecord lApicPhysAddress).2 <;> rfl

/-- Without the addresses the traced loop is the loop of `ParseMADT`. -/
theorem traceRecords_parse (fuel : Nat) (s : State) (maxAddress currentRecord lApicPhysAddress : Nat) :
    (s.traceRecords fuel maxAddress currentRecord lApicPhysAddress).map Prod.fst =
      s.parseRecords fuel maxAddress currentRecord lApicPhysAddress := by
  induction fuel generalizing s currentRecord lApicPhysAddress with
  | zero => rfl
  | succ fuel ih =>
    by_cases before : currentRecord < maxAddress
    · by_cases isX2 : RecordType.ofByte (s.memory currentRecord) = some .x2LAPIC
      · rw [traceRecords,parseRecords,if_pos before,if_pos before,isX2]
        rfl
      · rw [traceRecords_record before isX2,parseRecords_record before isX2,Option.map_map]
        exact ih _ _ _
    · rw [traceRecords,parseRecords,if_neg before,if_neg before]
      rfl

theorem traceMADT_parse (fuel : Nat) (s : State) (madt : Nat) : (s.traceMADT fuel madt).map Prod.fst = s.ParseMADT fuel madt := by
  rw [traceMADT,traceRecords_parse,ParseMADT,prepare,tableEnd]
  split <;> rfl

/-- A record leaves the memory. -/
theorem takeRecord_memory (s : State) (currentRecord lApicPhysAddress : Nat) :
    (s.takeRecord currentRecord lApicPhysAddress).1.memory = s.memory := by
  rw [takeRecord]
  split <;> rfl

/-- Whole records are walked through, and read inside the table. -/
theorem traceRecords_of_records (records : Records m maxAddress currentRecord) (memory : s.memory = m) (lApicPhysAddress : Nat) :
    ∃ fuel s' reads, s.traceRecords fuel maxAddress currentRecord lApicPhysAddress = some (s',reads) ∧
      ∀ address ∈ reads, address < maxAddress := by
  induction records generalizing s lApicPhysAddress with
  | ended behind => exact ⟨1,_,[],by rw [traceRecords,if_neg (by omega)],fun _ member => by cases member⟩
  | @x2LAPIC currentRecord isX2 =>
    by_cases before : currentRecord < maxAddress
    · refine ⟨1,_,[currentRecord],by rw [traceRecords,if_pos before,memory,isX2],?_⟩
      intro address member
      rwa [List.mem_singleton.mp member]
    · exact ⟨1,_,[],by rw [traceRecords,if_neg before],fun _ member => by cases member⟩
  | @record currentRecord whole _ ih =>
    subst memory
    have inside := recordReads_inside.mpr whole.fits
    have before : currentRecord < maxAddress := inside _ (by simp [recordReads])
    by_cases isX2 : RecordType.ofByte (s.memory currentRecord) = some .x2LAPIC
    · refine ⟨1,_,[currentRecord],by rw [traceRecords,if_pos before,isX2],?_⟩
      intro address member
      rwa [List.mem_singleton.mp member]
    · obtain ⟨fuel,s',reads,traced,later⟩ := ih (takeRecord_memory s currentRecord lApicPhysAddress) _
      refine ⟨fuel+1,s',recordReads (RecordType.ofByte (s.memory currentRecord)) currentRecord ++ reads,?_,?_⟩
      · rw [traceRecords_record before isX2,traced]
        rfl
      · intro address member
        rcases List.mem_append.mp member with own | other
        · exact inside address own
        · exact later address other

/-- What is walked through inside the table are whole records. -/
theorem records_of_traceRecords (small : maxAddress ≤ 2^64)
    (traced : s.traceRecords fuel maxAddress currentRecord lApicPhysAddress = some (s',reads))
    (inside : ∀ address ∈ reads, address < maxAddress) : Records s.memory maxAddress currentRecord := by
  induction fuel generalizing s currentRecord lApicPhysAddress reads with
  | zero => cases traced
  | succ fuel ih =>
    by_cases before : currentRecord < maxAddress
    · by_cases isX2 : RecordType.ofByte (s.memory currentRecord) = some .x2LAPIC
      · exact .x2LAPIC isX2
      · rw [traceRecords_record before isX2] at traced
        obtain ⟨⟨last,more⟩,walked,result⟩ := Option.map_eq_some_iff.mp traced
        cases result
        have later := ih walked (fun address member => inside address (List.mem_append_right _ member))
        rw [takeRecord_memory] at later
        by_cases still : (s.memory (currentRecord+1)).toNat = 0
        · -- Without a length the loop is where it was.
          rwa [still,Nat.add_zero,wrap_of_lt (by omega)] at later
        · have fits := recordReads_inside.mp fun address member => inside address (List.mem_append_left _ member)
          exact .record ⟨fits,still⟩ later
    · exact .ended (Nat.le_of_not_lt before)

@[simp] theorem prepare_memory (s : State) : s.prepare.memory = s.memory := by
  simp only [prepare]
  split <;> rfl

/-- Where `ParseMADT` is safe, whole records follow the header. -/
theorem Safe.records (safe : s.Safe madt) : Records s.memory (s.tableEnd madt) (wrap (madt + 44)) := by
  obtain ⟨fuel,s',reads,traced,inside⟩ := safe
  have records := records_of_traceRecords (Nat.le_of_lt (wrap_lt _)) traced inside
  rwa [prepare_memory] at records

/-- `ParseMADT` returns and reads no byte at or beyond the end of the table if and only if the table is a list of
    whole records. -/
theorem parseMADT_safe_iff : s.Safe madt ↔ Records s.memory (s.tableEnd madt) (wrap (madt + 44)) := by
  constructor
  · exact Safe.records
  · intro records
    exact traceRecords_of_records records (prepare_memory s) _

end State

/-- The records that the loop comes to from one on. -/
inductive Reached (m : Mem) (maxAddress : Nat) : Nat → Nat → Prop
  | here (currentRecord : Nat) : Reached m maxAddress currentRecord currentRecord
  | next {currentRecord later : Nat} : currentRecord < maxAddress → RecordType.ofByte (m currentRecord) ≠ some .x2LAPIC →
      Reached m maxAddress (wrap (currentRecord + (m (currentRecord+1)).toNat)) later → Reached m maxAddress currentRecord later

/-- A table away from the end of the address space is a list of whole records exactly when each record that is
    reached is whole, or that of an x2APIC: a length leads on to the end. -/
theorem records_iff (room : maxAddress + 0xFF ≤ 2^64) : Records m maxAddress currentRecord ↔
    ∀ later, Reached m maxAddress currentRecord later → later < maxAddress →
      RecordType.ofByte (m later) = some .x2LAPIC ∨ Whole m maxAddress later := by
  constructor
  · intro records later reached before
    induction reached with
    | here currentRecord =>
      cases records with
      | ended behind => omega
      | x2LAPIC isX2 => exact .inl isX2
      | record whole _ => exact .inr whole
    | next inside other _ ih =>
      cases records with
      | ended behind => omega
      | x2LAPIC isX2 => exact absurd isX2 other
      | record _ rest => exact ih rest before
  · intro each
    induction left : maxAddress - currentRecord using Nat.strongRecOn generalizing currentRecord with
    | ind left ih =>
      by_cases before : currentRecord < maxAddress
      · rcases each _ (.here _) before with isX2 | whole
        · exact .x2LAPIC isX2
        · by_cases isX2 : RecordType.ofByte (m currentRecord) = some .x2LAPIC
          · exact .x2LAPIC isX2
          · have length := whole.length
            have byte := (m (currentRecord+1)).isLt
            have onward : wrap (currentRecord + (m (currentRecord+1)).toNat) = currentRecord + (m (currentRecord+1)).toNat :=
              wrap_of_lt (by omega)
            exact .record whole (ih _ (by omega) (fun later reached => each later (.next before isX2 reached)) rfl)
      · exact .ended (Nat.le_of_not_lt before)

/-- A table of 46 bytes whose only record has no length. -/
def zeroLength : State := { State.twoControllers with memory := fun x => if x = 0x1004 then 46 else 0, _init := true }

theorem parseMADT_unsafe : ¬ zeroLength.Safe 0x1000 := by
  intro safe
  have records := safe.records
  have ends : zeroLength.tableEnd 0x1000 = 0x102e := wrap_of_lt (by decide)
  have first : wrap (0x1000 + 44) = 0x102c := wrap_of_lt (by decide)
  rw [ends,first] at records
  cases records with
  | ended behind => exact absurd behind (by decide)
  | x2LAPIC isX2 => exact absurd isX2 (by simp [RecordType.ofByte,zeroLength])
  | record whole _ => exact whole.length rfl

end WaifuOS.APIC
