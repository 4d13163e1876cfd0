import WaifuOS.Redirection

/-!
The constructor of an I/O APIC, and reading its redirection entries. The constructor
masks the entries from the interrupt base on, counted in a byte, which never comes
to an end that is no byte: so it ends, with every entry masked, exactly when the base and the
entries stay below 256 (`construct_masks_iff`). An entry is written to the slot of its
interrupt, but read from the slot whose number is the interrupt itself, where the register
is taken as a byte; the two are the same exactly where the base is a multiple of 128, and
elsewhere what is read back was there before (`readEntry_iff`).
-/
namespace WaifuOS.APIC
open WaifuOS.Words WaifuOS.Bytes

namespace IOAPIC

/-- `ioapicRegister::Version`. -/
def Version : Nat := 0x01

def ReadIOAPIC (c : IOAPIC) (reg : Nat) : BitVec 32 × IOAPIC :=
  let c := { c with RegisterSelect := reg &&& 0xFF }
  (c.registers c.RegisterSelect,c)

def ReadIOAPICRedirectionEntry (c : IOAPIC) (entry : BitVec 8) : BitVec 64 × IOAPIC :=
  let reg := entry.toNat * 2 + IOApicRedirectionTableOffset
  let (low,c) := c.ReadIOAPIC reg
  let (high,c) := c.ReadIOAPIC (reg+1)
  (low.setWidth 64 ||| (high.setWidth 64 <<< 32),c)

/-- `RedirectionEntry entry = x; entry.Mask = true;`, where the mask is bit 16. -/
def maskedEntry (x : BitVec 8) : BitVec 64 := x.setWidth 64 ||| (1 <<< 16)

/-- The loop of the constructor from `x` on. -/
def maskAll : Nat → IOAPIC → BitVec 8 → Option IOAPIC
  | 0, _, _ => none
  | fuel+1, c, x =>
    if x.toNat < wrap (c.mMaxRedEntryCount.toNat + c.mGlobalInterruptBase) then
      maskAll fuel (c.WriteIOAPICRedirectionEntry x (maskedEntry x)) (x+1)
    else some c

/-- The constructor, with the device as it stands. The version is read twice, the first time for its number. -/
def construct (fuel : Nat) (c : IOAPIC) (GlobalSysInterruptBase : BitVec 32) : Option IOAPIC :=
  let c := { c with mGlobalInterruptBase := GlobalSysInterruptBase.toNat }
  let (_,c) := c.ReadIOAPIC Version
  let (version,c) := c.ReadIOAPIC Version
  let c := { c with mMaxRedEntryCount := (version >>> 16).setWidth 8 + 1 }
  maskAll fuel c (BitVec.ofNat 8 c.mGlobalInterruptBase)

/-- The number of entries that the version register reports. -/
def reported (c : IOAPIC) : Nat := ((c.registers Version >>> 16).setWidth 8).toNat + 1

/-- The mask of a slot is set. -/
def Masked (c : IOAPIC) (slot : Nat) : Prop := (c.registers (0x10 + 2*slot)).getLsbD 16 = true

/-- The constructor returns, with every entry of the controller masked. -/
def MasksAll (c : IOAPIC) (GlobalSysInterruptBase : BitVec 32) : Prop :=
  ∃ fuel c', c.construct fuel GlobalSysInterruptBase = some c' ∧ ∀ slot, slot < c.reported → c'.Masked slot

/-- An entry that is written is read back, and those of the other interrupts read as before. -/
def ReadsBack (c : IOAPIC) (g : BitVec 8) (v : BitVec 64) : Prop :=
  ((c.WriteIOAPICRedirectionEntry g v).ReadIOAPICRedirectionEntry g).1 = v ∧
    ∀ other : BitVec 8, c.Contains other.toNat → other ≠ g →
      ((c.WriteIOAPICRedirectionEntry g v).ReadIOAPICRedirectionEntry other).1 = (c.ReadIOAPICRedirectionEntry other).1

variable {c c' : IOAPIC} {fuel j m b : Nat} {x g : BitVec 8} {v : BitVec 64} {GlobalSysInterruptBase : BitVec 32}

theorem write_kept (c : IOAPIC) (x : BitVec 8) (v : BitVec 64) :
    (c.WriteIOAPICRedirectionEntry x v).mMaxRedEntryCount = c.mMaxRedEntryCount ∧
      (c.WriteIOAPICRedirectionEntry x v).mGlobalInterruptBase = c.mGlobalInterruptBase := by
  rw [WriteIOAPICRedirectionEntry]
  split
  · exact ⟨rfl,rfl⟩
  · exact ⟨rfl,rfl⟩

/-- Where the end is no byte the loop does not stop. -/
theorem maskAll_never (high : 256 ≤ c.mMaxRedEntryCount.toNat + c.mGlobalInterruptBase)
    (small : c.mMaxRedEntryCount.toNat + c.mGlobalInterruptBase < 2^64) (fuel : Nat) (x : BitVec 8) : maskAll fuel c x = none := by
  induction fuel generalizing c x with
  | zero => rfl
  | succ fuel ih =>
    have byte := x.isLt
    obtain ⟨count,base⟩ := write_kept c x (maskedEntry x)
    rw [maskAll,wrap_of_lt small,if_pos (by omega)]
    exact ih (by rw [count,base]; exact high) (by rw [count,base]; exact small) _

theorem maskedEntry_mask (x : BitVec 8) : ((maskedEntry x).setWidth 32).getLsbD 16 = true := by
  simp [maskedEntry]

/-- A write masks its slot and keeps the masks of the others. -/
theorem Wrote.masked {slot : Nat} (wrote : c.Wrote j (maskedEntry x) c') (before : slot ≠ j → c.Masked slot) : c'.Masked slot := by
  rw [Masked,wrote.registers,Function.update_of_ne (by omega)]
  by_cases here : slot = j
  · subst here
    rw [Function.update_self]
    exact maskedEntry_mask x
  · rw [Function.update_of_ne (by omega)]
    exact before here

/-- From the slot `j` on the loop masks the rest. -/
theorem maskAll_rest (count : c.mMaxRedEntryCount.toNat = m) (base : c.mGlobalInterruptBase = b) (few : m ≤ 120) (low : b + m ≤ 255)
    (inside : j ≤ m) (masked : ∀ slot, slot < j → c.Masked slot) :
    ∃ fuel c', maskAll fuel c (BitVec.ofNat 8 (b+j)) = some c' ∧ ∀ slot, slot < m → c'.Masked slot := by
  induction left : m - j generalizing c j with
  | zero =>
    refine ⟨1,c,?_,fun slot before => masked slot (by omega)⟩
    rw [maskAll,State.byte_toNat (by omega),count,base,wrap_of_lt (by omega),if_neg (by omega)]
  | succ left ih =>
    have number : (BitVec.ofNat 8 (b+j)).toNat = b + j := State.byte_toNat (by omega)
    have contains : c.Contains (BitVec.ofNat 8 (b+j)).toNat := by
      rw [number,IOAPIC.Contains,count,base]
      omega
    have slot : (BitVec.ofNat 8 (b+j)).toNat - c.mGlobalInterruptBase = j := by
      rw [number,base]
      omega
    have wrote : c.Wrote ((BitVec.ofNat 8 (b+j)).toNat - c.mGlobalInterruptBase) (maskedEntry (BitVec.ofNat 8 (b+j))) _ :=
      State.write_slot contains (by omega)
    rw [slot] at wrote
    have later : ∀ slot, slot < j+1 → (c.WriteIOAPICRedirectionEntry (BitVec.ofNat 8 (b+j)) (maskedEntry (BitVec.ofNat 8 (b+j)))).Masked slot :=
      fun slot before => wrote.masked (fun other => masked slot (by omega))
    obtain ⟨fuel,c',done,all⟩ := ih (by rw [wrote.count,count]) (by rw [wrote.base,base]) (by omega) later (by omega)
    have next : BitVec.ofNat 8 (b+j) + 1 = BitVec.ofNat 8 (b+(j+1)) := (BitVec.ofNat_add (b+j) 1).symm
    refine ⟨fuel+1,c',?_,all⟩
    rw [maskAll,number,count,base,wrap_of_lt (by omega),if_pos (by omega),next]
    exact done

/-- The controller when the loop starts. -/
def identified (c : IOAPIC) (GlobalSysInterruptBase : BitVec 32) : IOAPIC :=
  { c with
    mMaxRedEntryCount := (c.registers Version >>> 16).setWidth 8 + 1
    mGlobalInterruptBase := GlobalSysInterruptBase.toNat
    RegisterSelect := Version }

theorem construct_eq (fuel : Nat) (c : IOAPIC) (GlobalSysInterruptBase : BitVec 32) : c.construct fuel GlobalSysInterruptBase =
    maskAll fuel (c.identified GlobalSysInterruptBase) (BitVec.ofNat 8 GlobalSysInterruptBase.toNat) := rfl

theorem identified_count (few : c.reported ≤ 120) (GlobalSysInterruptBase : BitVec 32) :
    (c.identified GlobalSysInterruptBase).mMaxRedEntryCount.toNat = c.reported := by
  rw [reported] at few ⊢
  have one : (1 : BitVec 8).toNat = 1 := rfl
  rw [identified,BitVec.toNat_add,one]
  omega

/-- With up to 120 entries the constructor ends and masks all of them if and only if the base and the entries
    stay below 256. -/
theorem construct_masks_iff (few : c.reported ≤ 120) : c.MasksAll GlobalSysInterruptBase ↔
    GlobalSysInterruptBase.toNat + c.reported ≤ 255 := by
  have count := identified_count few GlobalSysInterruptBase
  have word := GlobalSysInterruptBase.isLt
  constructor
  · rintro ⟨fuel,c',done,_⟩
    apply Nat.le_of_not_lt
    intro high
    have start : (c.identified GlobalSysInterruptBase).mGlobalInterruptBase = GlobalSysInterruptBase.toNat := rfl
    rw [construct_eq,maskAll_never (by omega) (by omega)] at done
    cases done
  · intro low
    obtain ⟨fuel,c',done,all⟩ := maskAll_rest count rfl few low (Nat.zero_le _) (fun slot before => absurd before (Nat.not_lt_zero slot))
    exact ⟨fuel,c',done,all⟩

/-- A controller with 24 entries before it is set up. -/
def fresh : IOAPIC where
  mMaxRedEntryCount := 0
  mGlobalInterruptBase := 0
  RegisterSelect := 0
  registers := fun reg => if reg = Version then 0x170020 else 0
  writes := []

theorem construct_masks_iff_fresh : fresh.reported = 24 ∧ fresh.MasksAll 24 :=
  ⟨rfl,(construct_masks_iff (by decide)).mpr (by decide)⟩

/-- From interrupt 232 on the 24 entries end at 256. -/
theorem construct_unending : fresh.reported = 24 ∧ ¬ fresh.MasksAll 232 := by
  refine ⟨rfl,?_⟩
  rintro ⟨fuel,c',done,_⟩
  rw [construct_eq,maskAll_never (by decide) (by decide)] at done
  cases done

/-- The entry in the register `reg` and the next one. -/
def entryAt (c : IOAPIC) (reg : Nat) : BitVec 64 :=
  (c.registers reg).setWidth 64 ||| ((c.registers (reg+1)).setWidth 64 <<< 32)

/-- The register that an entry is read from. -/
def readRegister (g : BitVec 8) : Nat := (2 * g.toNat + 0x10) % 256

/-- The register that it is written to. -/
def writeRegister (c : IOAPIC) (g : BitVec 8) : Nat := 2 * (g.toNat - c.mGlobalInterruptBase) + 0x10

/-- What is read back was there before, and so was what another interrupt reads from the slot that is written. -/
def Stood (c : IOAPIC) (g : BitVec 8) (v : BitVec 64) : Prop :=
  c.entryAt (readRegister g) = v ∧
    ∀ other : BitVec 8, c.Contains other.toNat → other ≠ g → readRegister other = c.writeRegister g → c.entryAt (c.writeRegister g) = v

theorem read_eq (c : IOAPIC) (g : BitVec 8) : (c.ReadIOAPICRedirectionEntry g).1 = c.entryAt (readRegister g) := by
  have low : (g.toNat * 2 + IOApicRedirectionTableOffset) &&& 0xFF = readRegister g := by
    rw [State.select_eq,readRegister,IOApicRedirectionTableOffset,Nat.mul_comm]
  have high : (g.toNat * 2 + IOApicRedirectionTableOffset + 1) &&& 0xFF = readRegister g + 1 := by
    rw [State.select_eq,readRegister,IOApicRedirectionTableOffset]
    omega
  simp only [ReadIOAPICRedirectionEntry,ReadIOAPIC,low,high,entryAt]

/-- The halves of an entry make the entry. -/
theorem halves (v : BitVec 64) : (v.setWidth 32).setWidth 64 ||| (((v >>> 32).setWidth 32).setWidth 64 <<< 32) = v := by
  apply BitVec.eq_of_getLsbD_eq
  intro i inside
  simp only [BitVec.getLsbD_or,BitVec.getLsbD_setWidth,BitVec.getLsbD_shiftLeft,BitVec.getLsbD_ushiftRight]
  by_cases low : i < 32
  · simp [low,inside]
  · have back : 32 + (i-32) = i := by omega
    have half : i - 32 < 32 := by omega
    have word : i - 32 < 64 := by omega
    simp [low,inside,back,half,word]

/-- The slot that is written holds the entry, and the other slots hold what they held. -/
theorem write_entryAt (contains : c.Contains g.toNat) (few : c.mMaxRedEntryCount.toNat ≤ 120) (v : BitVec 64) (other : BitVec 8) :
    (c.WriteIOAPICRedirectionEntry g v).entryAt (readRegister other) =
      if readRegister other = c.writeRegister g then v else c.entryAt (readRegister other) := by
  have slot : g.toNat - c.mGlobalInterruptBase < 120 := by
    have high := contains.2
    have low := contains.1
    omega
  have wrote : c.Wrote (g.toNat - c.mGlobalInterruptBase) v _ := State.write_slot contains slot
  have registers := wrote.registers
  rw [Nat.add_comm 0x10] at registers
  rw [entryAt,entryAt,registers]
  split
  · next same =>
    rw [same,writeRegister,Function.update_of_ne (by omega),Function.update_self,Function.update_self]
    exact halves v
  · next apart =>
    -- Both are even.
    rw [writeRegister] at apart
    have even : readRegister other % 2 = 0 := by
      rw [readRegister]
      omega
    rw [Function.update_of_ne (by omega),Function.update_of_ne (by omega),Function.update_of_ne (by omega),Function.update_of_ne (by omega)]

/-- An interrupt is read from the slot that is written for it exactly when the base is a multiple of 128. -/
theorem readRegister_eq_iff (contains : c.Contains g.toNat) (few : c.mMaxRedEntryCount.toNat ≤ 120) :
    readRegister g = c.writeRegister g ↔ c.mGlobalInterruptBase % 128 = 0 := by
  have low := contains.1
  have high := contains.2
  rw [readRegister,writeRegister]
  omega

/-- Then no other interrupt of the controller is read from it. -/
theorem readRegister_inj {other : BitVec 8} (contains : c.Contains g.toNat) (contains' : c.Contains other.toNat)
    (few : c.mMaxRedEntryCount.toNat ≤ 120) (same : readRegister other = readRegister g) : other = g := by
  obtain ⟨low,high⟩ := contains
  obtain ⟨low',high'⟩ := contains'
  rw [readRegister,readRegister] at same
  apply BitVec.eq_of_toNat_eq
  omega

/-- An entry is read back and the other ones are kept if and only if the base is a multiple of 128, or the slots that
    are read held the entry before. -/
theorem readEntry_iff (contains : c.Contains g.toNat) (few : c.mMaxRedEntryCount.toNat ≤ 120) :
    c.ReadsBack g v ↔ c.mGlobalInterruptBase % 128 = 0 ∨ c.Stood g v := by
  have own := readRegister_eq_iff contains few
  rw [ReadsBack,read_eq,write_entryAt contains few]
  constructor
  · rintro ⟨back,others⟩
    by_cases aligned : c.mGlobalInterruptBase % 128 = 0
    · exact .inl aligned
    · rw [if_neg (fun same => aligned (own.mp same))] at back
      refine .inr ⟨back,?_⟩
      intro other inside different same
      have kept := others other inside different
      rw [read_eq,read_eq,write_entryAt contains few,if_pos same,same] at kept
      exact kept.symm
  · rintro (aligned | ⟨back,others⟩)
    · have same := own.mpr aligned
      refine ⟨if_pos same,?_⟩
      intro other inside different
      have apart : readRegister other ≠ c.writeRegister g := fun clash =>
        different (readRegister_inj contains inside few (clash.trans same.symm))
      rw [read_eq,read_eq,write_entryAt contains few,if_neg apart]
    · constructor
      · split
        · rfl
        · exact back
      · intro other inside different
        rw [read_eq,read_eq,write_entryAt contains few]
        split
        · next same => rw [same,others other inside different same]
        · rfl

/-- So every entry is read back only from a controller without entries or with a base of 0 or 128. -/
theorem readEntry_all_iff (few : c.mMaxRedEntryCount.toNat ≤ 120) (fits : c.mGlobalInterruptBase + c.mMaxRedEntryCount.toNat ≤ 256) :
    (∀ g v, c.Contains g.toNat → c.ReadsBack g v) ↔ c.mMaxRedEntryCount.toNat = 0 ∨ c.mGlobalInterruptBase % 128 = 0 := by
  constructor
  · intro all
    by_cases none : c.mMaxRedEntryCount.toNat = 0
    · exact .inl none
    · have number : (BitVec.ofNat 8 c.mGlobalInterruptBase).toNat = c.mGlobalInterruptBase := State.byte_toNat (by omega)
      have contains : c.Contains (BitVec.ofNat 8 c.mGlobalInterruptBase).toNat := by
        rw [number]
        exact ⟨Nat.le_refl _,by omega⟩
      refine .inr ?_
      by_contra aligned
      -- What stood there is not two different entries.
      have zero := (((readEntry_iff contains few).mp (all _ 0 contains)).resolve_left aligned).1
      have one := (((readEntry_iff contains few).mp (all _ 1 contains)).resolve_left aligned).1
      exact absurd (zero.symm.trans one) (by decide)
  · rintro (none | aligned) g v contains
    · have high := contains.2
      have low := contains.1
      omega
    · exact (readEntry_iff contains few).mpr (.inl aligned)

theorem readEntry_iff_two : (State.controller 0).ReadsBack 1 0x21 :=
  (readEntry_iff ⟨by decide,by decide⟩ (by decide)).mpr (.inl rfl)

/-- The first entry of the second of two controllers is written to its slot 0 and read from slot 24. -/
theorem readEntry_other : (State.controller 24).Contains (24 : BitVec 8).toNat ∧ ¬ (State.controller 24).ReadsBack 24 0x38 :=
  ⟨⟨by decide,by decide⟩,fun back => absurd back.1 (by decide)⟩

end IOAPIC
end WaifuOS.APIC
