import WaifuOS.APIC

/-!
What `SetEntry` does with an interrupt. It looks for the controller of the number before
the override is applied, with a range that is one too large, and writes the entry of
the number after it; so it is right exactly when the first controller it takes is
the one of the remapped number, and when none is taken and none is there
(`setEntry_iff`). The overrides that `ParseMADT` leaves remap every number, the last one too, though the list has one element
less than there are numbers (`getRemappedIRQ_parsed`).
-/
namespace WaifuOS.APIC
open WaifuOS.Words WaifuOS.Bytes

/-- The interrupts of a controller. -/
def IOAPIC.Contains (c : IOAPIC) (gsi : Nat) : Prop :=
  c.mGlobalInterruptBase ≤ gsi ∧ gsi < c.mGlobalInterruptBase + c.mMaxRedEntryCount.toNat

/-- `c'` is `c` after the two registers of a redirection slot were written, the low one first. -/
structure IOAPIC.Wrote (c : IOAPIC) (slot : Nat) (entry : BitVec 64) (c' : IOAPIC) : Prop where
  base : c'.mGlobalInterruptBase = c.mGlobalInterruptBase
  count : c'.mMaxRedEntryCount = c.mMaxRedEntryCount
  registers : c'.registers = Function.update (Function.update c.registers (0x10 + 2*slot) (entry.setWidth 32))
    (0x10 + 2*slot + 1) ((entry >>> 32).setWidth 32)
  writes : c'.writes = (0x10 + 2*slot + 1,(entry >>> 32).setWidth 32) :: (0x10 + 2*slot,entry.setWidth 32) :: c.writes

namespace State

/-- The controller at a position of the list. -/
def Listed (s : State) (x : Nat) (c : IOAPIC) : Prop := x < s.IOAPICs.mCount ∧ s.IOAPICs.mArray x = c

/-- No interrupt belongs to two controllers. -/
def Disjoint (s : State) : Prop :=
  ∀ x y c d gsi, s.Listed x c → s.Listed y d → c.Contains gsi → d.Contains gsi → x = y

/-- The state with another controller at a position. -/
def withController (s : State) (x : Nat) (c : IOAPIC) : State :=
  { s with IOAPICs := { s.IOAPICs with mArray := Function.update s.IOAPICs.mArray x c } }

/-- `SetEntry` writes the slot of the remapped number and returns `true` where a controller has it,
    and returns `false` without a write where none has it. -/
def Sets (s : State) (irq : BitVec 8) (entry : BitVec 64) : Prop :=
  let gsi := s.GetRemappedIRQ irq
  ∃ done s', (∃ fuel, s.SetEntry fuel irq entry = some (done,s')) ∧
    (∀ x c, s.Listed x c → c.Contains gsi.toNat → done = true ∧
      ∃ c', c.Wrote (gsi.toNat - c.mGlobalInterruptBase) entry c' ∧ s' = s.withController x c') ∧
    ((∀ x c, s.Listed x c → ¬ c.Contains gsi.toNat) → done = false ∧ s' = s)

/-- The test of the loop. -/
def Accepts (c : IOAPIC) (irq : BitVec 8) : Prop :=
  c.mGlobalInterruptBase ≤ irq.toNat ∧ irq.toNat ≤ c.mGlobalInterruptBase + c.mMaxRedEntryCount.toNat

/-- The first controller that accepts the number, among those that the loop reaches. -/
def Takes (s : State) (irq : BitVec 8) (x : Nat) (c : IOAPIC) : Prop :=
  x < 256 ∧ s.Listed x c ∧ Accepts c irq ∧ ∀ y d, y < x → s.Listed y d → ¬ Accepts d irq

/-- The controller that is taken has the remapped number in a slot with registers of its own,
    or no controller is taken, and none has it. -/
def Agrees (s : State) (irq gsi : BitVec 8) : Prop :=
  (∃ x c, s.Takes irq x c ∧ c.Contains gsi.toNat ∧ gsi.toNat - c.mGlobalInterruptBase < 120) ∨
    (s.IOAPICs.mCount < 256 ∧ ∀ x c, s.Listed x c → ¬ Accepts c irq ∧ ¬ c.Contains gsi.toNat)

variable {s s' : State} {irq gsi : BitVec 8} {entry : BitVec 64} {x fuel : Nat} {c c' : IOAPIC} {done : Bool}

theorem byte_toNat (small : x < 256) : (BitVec.ofNat 8 x).toNat = x := by
  rw [BitVec.toNat_ofNat]
  omega

theorem listed_get (listed : s.Listed x c) : (s.IOAPICs.subscript x).2 = c := listed.2

/-- A controller that does not accept the number is left. -/
theorem setEntryLoop_skip (listed : s.Listed x c) (small : x < 256) (skip : ¬ Accepts c irq) (fuel : Nat) :
    s.setEntryLoop (fuel+1) (BitVec.ofNat 8 x) irq entry = s.setEntryLoop fuel (BitVec.ofNat 8 (x+1)) irq entry := by
  have next : BitVec.ofNat 8 x + 1 = BitVec.ofNat 8 (x+1) := (BitVec.ofNat_add x 1).symm
  rw [setEntryLoop,byte_toNat small,if_pos (show x < s.IOAPICs.GetCount from listed.1)]
  simp only [listed_get listed,next]
  have word := irq.isLt
  have count := c.mMaxRedEntryCount.isLt
  have base : c.GetInterruptBase = c.mGlobalInterruptBase := rfl
  have entries : c.GetMaxRedirectionEntries = c.mMaxRedEntryCount := rfl
  split
  · rfl
  · rename_i low
    rw [entries,wrap_of_lt (by omega),if_pos (by unfold Accepts at skip; omega)]

/-- The first one that accepts it is written to. -/
theorem setEntryLoop_take (listed : s.Listed x c) (small : x < 256) (accepts : Accepts c irq) (fuel : Nat) :
    s.setEntryLoop (fuel+1) (BitVec.ofNat 8 x) irq entry =
      some (true,s.withController x (c.WriteIOAPICRedirectionEntry (s.GetRemappedIRQ irq) entry)) := by
  have word := irq.isLt
  have count := c.mMaxRedEntryCount.isLt
  obtain ⟨low,high⟩ := accepts
  rw [setEntryLoop,byte_toNat small,if_pos (show x < s.IOAPICs.GetCount from listed.1)]
  simp only [listed_get listed]
  have base : c.GetInterruptBase = c.mGlobalInterruptBase := rfl
  have entries : c.GetMaxRedirectionEntries = c.mMaxRedEntryCount := rfl
  rw [if_neg (by omega),entries,wrap_of_lt (by omega),if_neg (by omega)]
  rfl

/-- The loop comes to a controller when none before it accepts the number. -/
theorem setEntryLoop_front (small : x ≤ 256) (inside : x ≤ s.IOAPICs.mCount)
    (skip : ∀ y d, y < x → s.Listed y d → ¬ Accepts d irq) (fuel : Nat) :
    s.SetEntry (x + fuel) irq entry = s.setEntryLoop fuel (BitVec.ofNat 8 x) irq entry := by
  induction x generalizing fuel with
  | zero => rw [Nat.zero_add]; rfl
  | succ x ih =>
    have listed : s.Listed x (s.IOAPICs.mArray x) := ⟨by omega,rfl⟩
    rw [show x + 1 + fuel = x + (fuel+1) by omega,ih (by omega) (by omega) (fun y d before => skip y d (by omega)),
      setEntryLoop_skip listed (by omega) (skip x _ (by omega) listed)]

/-- More fuel changes no result of the loop. -/
theorem setEntryLoop_mono {x : BitVec 8} {result : Bool × State} (k : Nat)
    (returned : s.setEntryLoop fuel x irq entry = some result) : s.setEntryLoop (fuel+k) x irq entry = some result := by
  induction fuel generalizing x with
  | zero => cases returned
  | succ fuel ih =>
    rw [setEntryLoop] at returned
    rw [Nat.succ_add,setEntryLoop]
    split
    · rw [if_pos ‹_›] at returned
      dsimp only at returned ⊢
      split
      · rw [if_pos ‹_›] at returned
        exact ih returned
      · rw [if_neg ‹_›] at returned
        split
        · rw [if_pos ‹_›] at returned
          exact ih returned
        · rwa [if_neg ‹_›] at returned
    · rwa [if_neg ‹_›] at returned

/-- The result of `SetEntry` does not depend on the fuel. -/
theorem setEntry_agree {result other : Bool × State} {k : Nat} (returned : s.SetEntry fuel irq entry = some result)
    (returns : s.SetEntry k irq entry = some other) : result = other := by
  have left := setEntryLoop_mono k returned
  have right := setEntryLoop_mono fuel returns
  rw [Nat.add_comm k] at right
  exact Option.some.inj (left.symm.trans right)

/-- The controller that is taken is written to. -/
theorem setEntry_takes (takes : s.Takes irq x c) (entry : BitVec 64) : s.SetEntry (x+1) irq entry =
    some (true,s.withController x (c.WriteIOAPICRedirectionEntry (s.GetRemappedIRQ irq) entry)) := by
  obtain ⟨small,listed,accepts,skip⟩ := takes
  have inside := listed.1
  rw [setEntryLoop_front (by omega) (by omega) skip,setEntryLoop_take listed small accepts]

/-- Where none is taken of less than 256, nothing is written. -/
theorem setEntry_none (few : s.IOAPICs.mCount < 256) (skip : ∀ y d, s.Listed y d → ¬ Accepts d irq) :
    s.SetEntry (s.IOAPICs.mCount + 1) irq entry = some (false,s) := by
  rw [setEntryLoop_front (by omega) (Nat.le_refl _) (fun y d _ => skip y d),setEntryLoop,byte_toNat few]
  exact if_neg (Nat.lt_irrefl _)

/-- With 256 controllers or more the loop starts over and over again. -/
theorem setEntryLoop_never (many : 256 ≤ s.IOAPICs.mCount) (skip : ∀ y d, y < 256 → s.Listed y d → ¬ Accepts d irq)
    (entry : BitVec 64) (fuel : Nat) (small : x < 256) : s.setEntryLoop fuel (BitVec.ofNat 8 x) irq entry = none := by
  induction fuel generalizing x with
  | zero => rfl
  | succ fuel ih =>
    have listed : s.Listed x (s.IOAPICs.mArray x) := ⟨by omega,rfl⟩
    rw [setEntryLoop_skip listed small (skip x _ small listed)]
    by_cases last : x = 255
    · subst last
      exact ih (x := 0) (by decide)
    · exact ih (by omega)

/-- A controller is taken, or none of the first 256 accepts the number. -/
theorem takes_or_none (s : State) (irq : BitVec 8) :
    (∃ x c, s.Takes irq x c) ∨ ∀ y d, y < 256 → s.Listed y d → ¬ Accepts d irq := by
  classical
  by_cases some_one : ∃ x, x < 256 ∧ x < s.IOAPICs.mCount ∧ Accepts (s.IOAPICs.mArray x) irq
  · obtain ⟨small,inside,accepts⟩ := Nat.find_spec some_one
    refine .inl ⟨_,_,small,⟨inside,rfl⟩,accepts,?_⟩
    intro y d before listed accepts'
    exact Nat.find_min some_one before ⟨by omega,listed.1,by rw [listed.2]; exact accepts'⟩
  · refine .inr (fun y d small listed accepts => some_one ⟨y,small,listed.1,?_⟩)
    rw [listed.2]
    exact accepts

/-- The byte that is left of the number is its slot. -/
theorem slot_eq (contains : c.Contains gsi.toNat) :
    (gsi - BitVec.ofNat 8 c.mGlobalInterruptBase).toNat = gsi.toNat - c.mGlobalInterruptBase := by
  have low := contains.1
  have word := gsi.isLt
  rw [BitVec.toNat_sub,BitVec.toNat_ofNat]
  omega

/-- What is written for an interrupt of the controller: two registers, by the low byte of their number. -/
theorem write_eq (contains : c.Contains gsi.toNat) : c.WriteIOAPICRedirectionEntry gsi entry =
    ((c.WriteIOAPIC (0x10 + 2 * (gsi.toNat - c.mGlobalInterruptBase)) (entry.setWidth 32)).WriteIOAPIC
      (0x10 + 2 * (gsi.toNat - c.mGlobalInterruptBase) + 1) ((entry >>> 32).setWidth 32)) := by
  have slot := slot_eq contains
  have high := contains.2
  have low := contains.1
  have inside : ¬ gsi - BitVec.ofNat 8 c.mGlobalInterruptBase ≥ c.mMaxRedEntryCount := by
    rw [ge_iff_le,BitVec.le_def,slot]
    omega
  have register : (gsi.toNat - c.mGlobalInterruptBase) * 2 + IOApicRedirectionTableOffset =
      0x10 + 2 * (gsi.toNat - c.mGlobalInterruptBase) := by
    simp only [IOApicRedirectionTableOffset]
    omega
  rw [IOAPIC.WriteIOAPICRedirectionEntry,if_neg inside,slot,register]

theorem select_eq (reg : Nat) : reg &&& 0xFF = reg % 256 := Nat.and_two_pow_sub_one_eq_mod reg 8

/-- The slot of an interrupt of the controller has registers of its own up to slot 119. -/
theorem write_slot (contains : c.Contains gsi.toNat) (slot : gsi.toNat - c.mGlobalInterruptBase < 120) :
    c.Wrote (gsi.toNat - c.mGlobalInterruptBase) entry (c.WriteIOAPICRedirectionEntry gsi entry) := by
  rw [write_eq contains]
  generalize gsi.toNat - c.mGlobalInterruptBase = k at slot
  have first : (0x10 + 2*k) &&& 0xFF = 0x10 + 2*k := by rw [select_eq]; omega
  have second : (0x10 + 2*k + 1) &&& 0xFF = 0x10 + 2*k + 1 := by rw [select_eq]; omega
  refine ⟨rfl,rfl,?_,?_⟩
  · simp only [IOAPIC.WriteIOAPIC,first,second]
  · simp only [IOAPIC.WriteIOAPIC,first,second]

/-- A write that reaches the slot was to registers of its own. -/
theorem slot_of_wrote (contains : c.Contains gsi.toNat)
    (wrote : c.Wrote (gsi.toNat - c.mGlobalInterruptBase) entry (c.WriteIOAPICRedirectionEntry gsi entry)) :
    gsi.toNat - c.mGlobalInterruptBase < 120 := by
  have writes := wrote.writes
  rw [write_eq contains] at writes
  simp only [IOAPIC.WriteIOAPIC,select_eq] at writes
  have same := (Prod.mk.inj (List.cons.inj writes).1).1
  omega

/-- A controller that was written to is the one that was changed. -/
theorem changed_eq {y k : Nat} {d d' : IOAPIC} (listed : s.Listed x c) (listed' : s.Listed y d) (wrote : d.Wrote k entry d')
    (same : s.withController x c' = s.withController y d') : y = x ∧ d = c ∧ d' = c' := by
  have arrays : Function.update s.IOAPICs.mArray x c' = Function.update s.IOAPICs.mArray y d' :=
    congrArg (fun s => s.IOAPICs.mArray) same
  have here := congrFun arrays y
  rw [Function.update_self] at here
  by_cases other : y = x
  · subst other
    rw [Function.update_self] at here
    exact ⟨rfl,listed'.2.symm.trans listed.2,here.symm⟩
  · -- What was written is longer than before.
    rw [Function.update_of_ne other,listed'.2] at here
    have longer := congrArg List.length wrote.writes
    rw [← here] at longer
    simp only [List.length_cons] at longer
    omega

theorem agrees_of_sets (sets : s.Sets irq entry) : s.Agrees irq (s.GetRemappedIRQ irq) := by
  obtain ⟨done,s',⟨fuel,returned⟩,has,hasNone⟩ := sets
  rcases takes_or_none s irq with ⟨x,c,takes⟩ | none
  · cases setEntry_agree returned (setEntry_takes takes entry)
    by_cases some_one : ∃ y d, s.Listed y d ∧ d.Contains (s.GetRemappedIRQ irq).toNat
    · obtain ⟨y,d,listed,contains⟩ := some_one
      obtain ⟨_,d',wrote,same⟩ := has y d listed contains
      obtain ⟨rfl,rfl,rfl⟩ := changed_eq takes.2.1 listed wrote same
      exact .inl ⟨y,d,takes,contains,slot_of_wrote contains wrote⟩
    · exact absurd (hasNone (fun y d listed contains => some_one ⟨y,d,listed,contains⟩)).1 (by decide)
  · by_cases few : s.IOAPICs.mCount < 256
    · have skip : ∀ y d, s.Listed y d → ¬ Accepts d irq := fun y d listed => none y d (by have inside := listed.1; omega) listed
      cases setEntry_agree returned (setEntry_none few skip)
      exact .inr ⟨few,fun y d listed => ⟨skip y d listed,fun contains => absurd (has y d listed contains).1 (by decide)⟩⟩
    · have never := setEntryLoop_never (by omega) none entry fuel (show 0 < 256 by decide)
      rw [SetEntry] at returned
      exact absurd (returned.symm.trans never) (by simp)

theorem sets_of_agrees (disjoint : s.Disjoint) (agrees : s.Agrees irq (s.GetRemappedIRQ irq)) : s.Sets irq entry := by
  rcases agrees with ⟨x,c,takes,contains,slot⟩ | ⟨few,none⟩
  · refine ⟨_,_,⟨_,setEntry_takes takes entry⟩,?_,?_⟩
    · intro y d listed other
      have same := disjoint y x d c _ listed takes.2.1 other contains
      subst same
      have equal : d = c := listed.2.symm.trans takes.2.1.2
      subst equal
      exact ⟨rfl,_,write_slot contains slot,rfl⟩
    · intro none
      exact absurd contains (none x c takes.2.1)
  · exact ⟨_,_,⟨_,setEntry_none few (fun y d listed => (none y d listed).1)⟩,
      fun y d listed contains => absurd contains (none y d listed).2,fun _ => ⟨rfl,rfl⟩⟩

/-- `SetEntry` is right exactly when the controller that it takes is that of the remapped
    number, or it takes none and none has it. -/
theorem setEntry_iff (disjoint : s.Disjoint) : s.Sets irq entry ↔ s.Agrees irq (s.GetRemappedIRQ irq) :=
  ⟨agrees_of_sets,sets_of_agrees disjoint⟩

/-- The overrides that some table leaves. -/
def Parsed (s : State) : Prop :=
  ∃ (fuel madt : Nat) (t u : State), t._init = true ∧ t.ParseMADT fuel madt = some u ∧ s.memory = u.memory ∧ s.IRQOverrides = u.IRQOverrides

/-- Every element is null or a record of its own number, and there are 255. -/
structure Overrides (s : State) : Prop where
  count : s.IRQOverrides.mCount = 0xFF
  sources : ∀ i, s.IRQOverrides.mArray i = 0 ∨ (s.memory (s.IRQOverrides.mArray i + 3)).toNat = i

/-- A record keeps the overrides: one of a source is put in its place. -/
theorem takeRecord_overrides (overrides : Overrides s) (currentRecord lApicPhysAddress : Nat) :
    Overrides (s.takeRecord currentRecord lApicPhysAddress).1 := by
  rw [takeRecord]
  split
  · exact ⟨overrides.count,overrides.sources⟩
  · exact ⟨overrides.count,overrides.sources⟩
  · refine ⟨overrides.count,?_⟩
    intro i
    by_cases here : i = (s.memory (currentRecord+3)).toNat
    · subst here
      exact .inr (by simp only [Function.update_self])
    · simp only [Function.update_of_ne here]
      exact overrides.sources i
  · exact overrides
  · exact overrides

/-- So do all records of a table. -/
theorem parseRecords_overrides {maxAddress currentRecord lApicPhysAddress : Nat} (overrides : Overrides s)
    (parsed : s.parseRecords fuel maxAddress currentRecord lApicPhysAddress = some s') : Overrides s' := by
  induction fuel generalizing s currentRecord lApicPhysAddress with
  | zero => cases parsed
  | succ fuel ih =>
    by_cases before : currentRecord < maxAddress
    · by_cases isX2 : RecordType.ofByte (s.memory currentRecord) = some .x2LAPIC
      · rw [parseRecords,if_pos before,isX2] at parsed
        cases parsed
        exact ⟨overrides.count,overrides.sources⟩
      · rw [parseRecords_record before isX2] at parsed
        exact ih (takeRecord_overrides overrides _ _) parsed
    · rw [parseRecords,if_neg before] at parsed
      cases parsed
      exact ⟨overrides.count,overrides.sources⟩

theorem Parsed.overrides (parsed : Parsed s) : Overrides s := by
  obtain ⟨fuel,madt,t,u,fresh,returned,memory,same⟩ := parsed
  rw [ParseMADT,if_pos fresh] at returned
  have whole : Overrides u := parseRecords_overrides ⟨rfl,fun _ => .inl rfl⟩ returned
  refine ⟨by rw [same]; exact whole.count,?_⟩
  intro i
  rw [same,memory]
  exact whole.sources i

/-- The overrides of a table remap every number. -/
theorem getRemappedIRQ_parsed (parsed : Parsed s) (irq : BitVec 8) : s.GetRemappedIRQ irq =
    if s.IRQOverrides.mArray irq.toNat = 0 then irq
    else BitVec.ofNat 8 (load s.memory (s.IRQOverrides.mArray irq.toNat + 4) 4) := by
  rw [GetRemappedIRQ,KernelList.subscript_value]
  by_cases null : s.IRQOverrides.mArray irq.toNat = 0
  · rw [if_neg (fun both => both.1 null),if_pos null]
  · have source := (parsed.overrides.sources irq.toNat).resolve_left null
    rw [if_pos ⟨null,BitVec.eq_of_toNat_eq source⟩,if_neg null]

/-- A controller with 24 entries from an interrupt on. -/
def controller (base : Nat) : IOAPIC where
  mMaxRedEntryCount := 24
  mGlobalInterruptBase := base
  RegisterSelect := 0
  registers := fun _ => 0
  writes := []

/-- Two controllers with 24 entries each, and a table without overrides. -/
def twoControllers : State where
  memory := fun _ => 0#8
  _init := false
  LocalAPICRecords := .empty
  IOAPICRecords := .empty
  IRQOverrides := noOverrides
  IOAPICs := ⟨fun x => if x = 0 then controller 0 else controller 24,5,2⟩
  LAPIC := 0
  UsableAPIC := true

theorem twoControllers_parsed : Parsed twoControllers := by
  have ends : wrap (load (fun _ => 0#8) (0x1000+4) 4 + 0x1000) = 0x1000 := wrap_of_lt (by decide)
  have first : wrap (0x1000 + 44) = 0x102c := wrap_of_lt (by decide)
  refine ⟨1,0x1000,{ twoControllers with _init := true },{ twoControllers with IOAPICs := .empty },rfl,?_,rfl,rfl⟩
  rw [ParseMADT,if_pos rfl]
  dsimp only [twoControllers]
  rw [ends,first]
  rfl

theorem twoControllers_listed (listed : twoControllers.Listed x c) :
    (x = 0 ∧ c = controller 0) ∨ (x = 1 ∧ c = controller 24) := by
  obtain ⟨inside,rfl⟩ := listed
  have count : twoControllers.IOAPICs.mCount = 2 := rfl
  rcases (show x = 0 ∨ x = 1 by omega) with rfl | rfl
  · exact .inl ⟨rfl,rfl⟩
  · exact .inr ⟨rfl,rfl⟩

theorem twoControllers_disjoint : Disjoint twoControllers := by
  intro x y c d gsi first second has has'
  have count : ∀ base, (controller base).mMaxRedEntryCount.toNat = 24 := fun _ => rfl
  have start : ∀ base, (controller base).mGlobalInterruptBase = base := fun _ => rfl
  rcases twoControllers_listed first with ⟨rfl,rfl⟩ | ⟨rfl,rfl⟩ <;>
    rcases twoControllers_listed second with ⟨rfl,rfl⟩ | ⟨rfl,rfl⟩
  · rfl
  · simp only [IOAPIC.Contains,count,start] at has has'
    omega
  · simp only [IOAPIC.Contains,count,start] at has has'
    omega
  · rfl

/-- The first controller accepts its own numbers and one more. -/
theorem twoControllers_takes (low : irq.toNat ≤ 24) : twoControllers.Takes irq 0 (controller 0) :=
  ⟨by decide,⟨by decide,rfl⟩,⟨Nat.zero_le _,low⟩,fun y d before => absurd before (Nat.not_lt_zero y)⟩

theorem twoControllers_remap (irq : BitVec 8) : twoControllers.GetRemappedIRQ irq = irq := by
  rw [getRemappedIRQ_parsed twoControllers_parsed]
  exact if_pos rfl

theorem setEntry_iff_two : twoControllers.Disjoint ∧ twoControllers.Sets 1 0x21 ∧ twoControllers.Sets 0xFF 0x21 := by
  refine ⟨twoControllers_disjoint,(setEntry_iff twoControllers_disjoint).mpr ?_,(setEntry_iff twoControllers_disjoint).mpr ?_⟩
  · rw [twoControllers_remap]
    exact .inl ⟨0,_,twoControllers_takes (by decide),by unfold IOAPIC.Contains; decide,by decide⟩
  · rw [twoControllers_remap]
    refine .inr ⟨by decide,?_⟩
    intro x c listed
    rcases twoControllers_listed listed with ⟨rfl,rfl⟩ | ⟨rfl,rfl⟩
    · exact ⟨by unfold Accepts; decide,by unfold IOAPIC.Contains; decide⟩
    · exact ⟨by unfold Accepts; decide,by unfold IOAPIC.Contains; decide⟩

/-- Interrupt 24 is the first one of the second controller, and the first controller takes it. -/
theorem twoControllers_not_sets : twoControllers.Parsed ∧ twoControllers.Disjoint ∧ ¬ twoControllers.Sets 24 0x38 := by
  refine ⟨twoControllers_parsed,twoControllers_disjoint,?_⟩
  rintro ⟨done,s',⟨fuel,returned⟩,has,_⟩
  cases setEntry_agree returned (setEntry_takes (twoControllers_takes (show (24 : BitVec 8).toNat ≤ 24 by decide)) 0x38)
  rw [twoControllers_remap] at has
  obtain ⟨_,d,wrote,same⟩ := has 1 (controller 24) ⟨by decide,rfl⟩ (by unfold IOAPIC.Contains; decide)
  obtain ⟨moved,_⟩ := changed_eq ⟨by decide,rfl⟩ ⟨by decide,rfl⟩ wrote same
  cases moved

end State
end WaifuOS.APIC
