import WaifuOS.Bytes
import Mathlib.Data.BitVec

/-!
The bootloader's search for the RSDP in the firmware's configuration tables (`main.c`,
`Funcs.h`, and `CompareGuid` of gnu-efi). An entry has 24 bytes, a GUID and a pointer.
The loop moves the array with its index, so it compares the GUID of every other entry,
and `CompareGuid` is 0 when the GUIDs are equal. It finds what it looks for only where
there is at most one entry and nothing to be found in it (`searchRSDP_iff`). `reads`
is a ghost list of the entries that were read.
-/
namespace WaifuOS.Bootloader
open WaifuOS.Bytes

/-- The memory from an address on. -/
def since (m : Mem) (a : Nat) : Mem := fun x => m (a + x)

/-- One of the four words of a GUID. -/
def guidWord (guid : Mem) (i : Nat) : BitVec 32 := BitVec.ofNat 32 (load guid (4*i) 4)

/-- `CompareGuid`, 32 bits at a time. -/
def CompareGuid (Guid1 Guid2 : Mem) : BitVec 32 :=
  let r := guidWord Guid1 0 - guidWord Guid2 0
  let r := r ||| (guidWord Guid1 1 - guidWord Guid2 1)
  let r := r ||| (guidWord Guid1 2 - guidWord Guid2 2)
  r ||| (guidWord Guid1 3 - guidWord Guid2 3)

/-- `strcmp` of `Funcs.h`, which is 1 when the strings are equal. -/
def strcmp : Mem → Mem → Nat → Nat
  | _, _, 0 => 1
  | str1, str2, length+1 => if str1 0 ≠ str2 0 then 0 else strcmp (since str1 1) (since str2 1) length

/-- The bytes of a list, as they stand in memory. -/
def bytes (l : List (BitVec 8)) : Mem := fun x => l.getD x 0

/-- `ACPI_20_TABLE_GUID`. -/
def Acpi2TableGuid : Mem := bytes [0x71,0xe8,0x68,0x88,0xf1,0xe4,0xd3,0x11,0xbc,0x22,0x00,0x80,0xc7,0x3c,0x88,0x81]

/-- `"RSD PTR "`. -/
def RSD_PTR : Mem := bytes [0x52,0x53,0x44,0x20,0x50,0x54,0x52,0x20]

/-- `sizeof(EFI_CONFIGURATION_TABLE)`. -/
def entrySize : Nat := 24

def VendorTable (m : Mem) (entry : Nat) : Nat := load m (entry + 16) 8

structure Search where
  configTable : Nat
  rsdp : Nat
  reads : List Nat

/-- One round of the loop. -/
def searchRound (m : Mem) (s : Search) (index : Nat) : Search :=
  let entry := s.configTable + entrySize * index
  let s := { s with reads := s.reads ++ [entry] }
  let s :=
    if CompareGuid (since m entry) Acpi2TableGuid ≠ 0 then
      let s := { s with reads := s.reads ++ [s.configTable] }
      if strcmp RSD_PTR (since m (VendorTable m s.configTable)) 8 ≠ 0 then { s with rsdp := VendorTable m s.configTable } else s
    else s
  { s with configTable := s.configTable + entrySize }

/-- The loop over a table of `NumberOfTableEntries` entries. -/
def searchRSDP (m : Mem) (ConfigurationTable NumberOfTableEntries : Nat) : Search :=
  (List.range NumberOfTableEntries).foldl (searchRound m) ⟨ConfigurationTable,0,[]⟩

/-- The table that an address leads to starts with the signature. -/
def Signed (m : Mem) (table : Nat) : Prop := ∀ x, x < 8 → m (table + x) = RSD_PTR x

/-- An entry has the GUID of ACPI 2.0 and leads to a table with the signature. -/
def IsRSDP (m : Mem) (entry : Nat) : Prop :=
  (∀ x, x < 16 → m (entry + x) = Acpi2TableGuid x) ∧ Signed m (VendorTable m entry)

/-- Only entries of the table are read, and `rsdp` is the table of an entry that is the RSDP's, or null where there is none. -/
structure Finds (m : Mem) (t n : Nat) : Prop where
  inside : ∀ entry ∈ (searchRSDP m t n).reads, ∃ i, i < n ∧ entry = t + entrySize * i
  found : (∃ i, i < n ∧ IsRSDP m (t + entrySize * i)) →
    ∃ i, i < n ∧ IsRSDP m (t + entrySize * i) ∧ (searchRSDP m t n).rsdp = VendorTable m (t + entrySize * i)
  missed : (∀ i, i < n → ¬ IsRSDP m (t + entrySize * i)) → (searchRSDP m t n).rsdp = 0

variable {m Guid1 Guid2 str1 str2 : Mem} {t n k : Nat}

theorem guidWord_eq_iff {i : Nat} : guidWord Guid1 i = guidWord Guid2 i ↔ ∀ x, x < 4 → Guid1 (4*i + x) = Guid2 (4*i + x) := by
  constructor
  · intro same x inside
    have first := load_lt Guid1 (4*i) 4
    have second := load_lt Guid2 (4*i) 4
    have words := congrArg BitVec.toNat same
    simp only [guidWord,BitVec.toNat_ofNat] at words
    have equal : load Guid1 (4*i) 4 = load Guid2 (4*i) 4 := by omega
    rw [← load_byte Guid1 (4*i) inside,equal,load_byte Guid2 (4*i) inside]
  · intro same
    have equal : load Guid1 (4*i) 4 = load Guid2 (4*i) 4 := load_congr fun x low high => by
      have byte := same (x - 4*i) (by omega)
      rwa [Nat.add_sub_cancel' low] at byte
    rw [guidWord,guidWord,equal]

/-- `CompareGuid` is 0 exactly for equal GUIDs. -/
theorem compareGuid_iff : CompareGuid Guid1 Guid2 = 0 ↔ ∀ x, x < 16 → Guid1 x = Guid2 x := by
  have words : CompareGuid Guid1 Guid2 = 0 ↔ ∀ i, i < 4 → guidWord Guid1 i = guidWord Guid2 i := by
    have zero : (0 : BitVec 32) = 0#32 := rfl
    simp only [CompareGuid,zero,BitVec.or_eq_zero_iff]
    simp only [← zero,sub_eq_zero]
    constructor
    · rintro ⟨⟨⟨first,second⟩,third⟩,fourth⟩ i inside
      rcases (show i = 0 ∨ i = 1 ∨ i = 2 ∨ i = 3 by omega) with rfl | rfl | rfl | rfl
      · exact first
      · exact second
      · exact third
      · exact fourth
    · intro all
      exact ⟨⟨⟨all 0 (by decide),all 1 (by decide)⟩,all 2 (by decide)⟩,all 3 (by decide)⟩
  rw [words]
  constructor
  · intro all x inside
    have byte := guidWord_eq_iff.mp (all (x/4) (by omega)) (x%4) (by omega)
    rwa [Nat.div_add_mod] at byte
  · intro all i inside
    exact guidWord_eq_iff.mpr fun x small => all _ (by omega)

/-- `strcmp` is not 0 exactly for equal strings. -/
theorem strcmp_iff : strcmp str1 str2 n ≠ 0 ↔ ∀ x, x < n → str1 x = str2 x := by
  induction n generalizing str1 str2 with
  | zero => simp [strcmp]
  | succ n ih =>
    rw [strcmp]
    by_cases first : str1 0 = str2 0
    · rw [if_neg (by simpa using first),ih]
      constructor
      · intro later x inside
        cases x with
        | zero => exact first
        | succ x =>
          have byte := later x (by omega)
          rwa [since,since,Nat.add_comm] at byte
      · intro all x inside
        exact all (1+x) (by omega)
    · rw [if_pos first]
      simp only [ne_eq,not_true_eq_false,false_iff]
      exact fun all => first (all 0 (by omega))

theorem strcmp_signed {table : Nat} : strcmp RSD_PTR (since m table) 8 ≠ 0 ↔ Signed m table := by
  rw [strcmp_iff]
  exact forall₂_congr fun x _ => eq_comm

theorem compareGuid_entry {entry : Nat} : CompareGuid (since m entry) Acpi2TableGuid = 0 ↔ ∀ x, x < 16 → m (entry + x) = Acpi2TableGuid x :=
  compareGuid_iff

theorem searchRSDP_succ (m : Mem) (t k : Nat) : searchRSDP m t (k+1) = searchRound m (searchRSDP m t k) k := by
  rw [searchRSDP,List.range_succ,List.foldl_append]
  rfl

theorem searchRound_configTable (m : Mem) (s : Search) (index : Nat) :
    (searchRound m s index).configTable = s.configTable + entrySize := by
  rw [searchRound]
  dsimp only
  split
  · split
    · rfl
    · rfl
  · rfl

theorem searchRSDP_configTable (m : Mem) (t k : Nat) : (searchRSDP m t k).configTable = t + entrySize * k := by
  induction k with
  | zero => rfl
  | succ k ih => rw [searchRSDP_succ,searchRound_configTable,ih,Nat.mul_succ,Nat.add_assoc]

/-- A round reads the entry at twice its index. -/
theorem searchRound_reads (m : Mem) (t k : Nat) : t + entrySize * (2*k) ∈ (searchRSDP m t (k+1)).reads := by
  have entry : (searchRSDP m t k).configTable + entrySize * k = t + entrySize * (2*k) := by
    rw [searchRSDP_configTable]
    simp only [entrySize]
    omega
  rw [searchRSDP_succ,searchRound,entry]
  dsimp only
  split
  · split
    · simp
    · simp
  · simp

/-- With two entries or more an entry behind the table is read. -/
theorem searchRSDP_beyond (inside : ∀ entry ∈ (searchRSDP m t n).reads, ∃ i, i < n ∧ entry = t + entrySize * i) : n < 2 := by
  cases n with
  | zero => decide
  | succ n =>
    obtain ⟨i,small,same⟩ := inside _ (searchRound_reads m t n)
    simp only [entrySize] at same
    omega

theorem searchRSDP_one (m : Mem) (t : Nat) : searchRSDP m t 1 = searchRound m ⟨t,0,[]⟩ 0 := rfl

section
variable (guid : ∀ x, x < 16 → m (t + x) = Acpi2TableGuid x)
variable (other : ¬ ∀ x, x < 16 → m (t + x) = Acpi2TableGuid x)
include guid

/-- An entry with the right GUID is passed over. -/
theorem searchRSDP_same : searchRSDP m t 1 = ⟨t + entrySize,0,[t]⟩ := by
  have equal := compareGuid_entry.mpr guid
  rw [searchRSDP_one,searchRound,Nat.mul_zero,Nat.add_zero]
  simp only [equal]
  rfl

omit guid
include other

/-- One with another GUID is looked into. -/
theorem searchRSDP_other_unsigned (unsigned : ¬ Signed m (VendorTable m t)) : searchRSDP m t 1 = ⟨t + entrySize,0,[t,t]⟩ := by
  have different : CompareGuid (since m t) Acpi2TableGuid ≠ 0 := fun equal => other (compareGuid_entry.mp equal)
  rw [searchRSDP_one,searchRound,Nat.mul_zero,Nat.add_zero]
  simp only [if_pos different,if_neg (fun equal => unsigned (strcmp_signed.mp equal))]
  rfl

theorem searchRSDP_other_signed (signed : Signed m (VendorTable m t)) :
    searchRSDP m t 1 = ⟨t + entrySize,VendorTable m t,[t,t]⟩ := by
  have different : CompareGuid (since m t) Acpi2TableGuid ≠ 0 := fun equal => other (compareGuid_entry.mp equal)
  rw [searchRSDP_one,searchRound,Nat.mul_zero,Nat.add_zero]
  simp only [if_pos different,if_pos (strcmp_signed.mpr signed)]
  rfl

end

/-- What is read of a table with one entry is this entry. -/
theorem inside_one {l : List Nat} (all : ∀ entry ∈ l, entry = t) : ∀ entry ∈ l, ∃ i, i < 1 ∧ entry = t + entrySize * i :=
  fun entry member => ⟨0,by decide,all entry member⟩

/-- The search of one entry is right only if it leads to no RSDP, or to address 0. -/
theorem finds_one_iff : Finds m t 1 ↔ ¬ Signed m (VendorTable m t) ∨ VendorTable m t = 0 := by
  have only : ∀ {P : Nat → Prop}, (∃ i, i < 1 ∧ P (t + entrySize * i)) → P t := by
    rintro P ⟨i,small,holds⟩
    rwa [Nat.lt_one_iff.mp small] at holds
  constructor
  · intro finds
    by_cases signed : Signed m (VendorTable m t)
    · refine .inr ?_
      by_cases guid : ∀ x, x < 16 → m (t + x) = Acpi2TableGuid x
      · obtain ⟨i,small,_,found⟩ := finds.found ⟨0,by decide,guid,signed⟩
        rw [Nat.lt_one_iff.mp small,searchRSDP_same guid] at found
        exact found.symm
      · have missed := finds.missed fun i small isRSDP => guid (only ⟨i,small,isRSDP⟩ : IsRSDP m t).1
        rwa [searchRSDP_other_signed guid signed] at missed
    · exact .inl signed
  · intro nothing
    by_cases guid : ∀ x, x < 16 → m (t + x) = Acpi2TableGuid x
    · have result := searchRSDP_same guid
      refine ⟨inside_one (by rw [result]; simp),?_,fun _ => by rw [result]⟩
      intro found
      have isRSDP : IsRSDP m t := only found
      exact ⟨0,by decide,isRSDP,by rw [result]; exact (nothing.resolve_left (fun unsigned => unsigned isRSDP.2)).symm⟩
    · have none : ¬ ∃ i, i < 1 ∧ IsRSDP m (t + entrySize * i) := fun found => guid (only found : IsRSDP m t).1
      by_cases signed : Signed m (VendorTable m t)
      · have result := searchRSDP_other_signed guid signed
        refine ⟨inside_one (by rw [result]; simp),fun found => absurd found none,?_⟩
        intro _
        rw [result]
        exact nothing.resolve_left (fun unsigned => unsigned signed)
      · have result := searchRSDP_other_unsigned guid signed
        exact ⟨inside_one (by rw [result]; simp),fun found => absurd found none,fun _ => by rw [result]⟩

/-- The search stays in the table and finds the RSDP, or that there is none, if and only if there is no entry, or
    one that leads to no RSDP. -/
theorem searchRSDP_iff : Finds m t n ↔ n = 0 ∨ (n = 1 ∧ (¬ Signed m (VendorTable m t) ∨ VendorTable m t = 0)) := by
  constructor
  · intro finds
    have few := searchRSDP_beyond finds.inside
    rcases (show n = 0 ∨ n = 1 by omega) with rfl | rfl
    · exact .inl rfl
    · exact .inr ⟨rfl,finds_one_iff.mp finds⟩
  · rintro (rfl | ⟨rfl,nothing⟩)
    · refine ⟨(fun entry member => by cases member),?_,fun _ => rfl⟩
      rintro ⟨i,small,_⟩
      exact absurd small (Nat.not_lt_zero i)
    · exact finds_one_iff.mpr nothing

/-- A table at 0x1000 whose only entry is that of the RSDP at 0x2000. -/
def oneTable : Mem := fun x =>
  if x < 0x1010 then Acpi2TableGuid (x - 0x1000) else if x = 0x1011 then 0x20 else if 0x2000 ≤ x then RSD_PTR (x - 0x2000) else 0

/-- The RSDP is passed over. -/
theorem searchRSDP_missed : IsRSDP oneTable (0x1000 + entrySize * 0) ∧ (searchRSDP oneTable 0x1000 1).rsdp = 0 ∧ ¬ Finds oneTable 0x1000 1 := by
  have leads : VendorTable oneTable 0x1000 = 0x2000 := by decide
  have guid : ∀ x, x < 16 → oneTable (0x1000 + x) = Acpi2TableGuid x := by decide
  have signed : Signed oneTable (VendorTable oneTable 0x1000) := by
    rw [leads]
    simp only [Signed]
    decide
  refine ⟨⟨guid,signed⟩,by rw [searchRSDP_same guid],?_⟩
  rw [finds_one_iff,leads]
  rw [leads] at signed
  exact fun nothing => nothing.elim (fun unsigned => unsigned signed) (by decide)

end WaifuOS.Bootloader
