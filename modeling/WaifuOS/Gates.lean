import WaifuOS.Bytes
import Mathlib.Data.List.Induction
import Mathlib.Data.List.Pairwise

/-!
The interrupt descriptor table and the table of handlers, as bytes. `RegisterInterruptStubs` makes every gate
lead to the stub of its vector, `RegisterInterrupt` and `UnregisterInterrupt` change the rest of a gate and the handler
that the stub calls. Over any run of these calls the tables say what was registered last for
each vector (`exec_represents`), and the CPU finds gates that lead there (`run_gates`). The calls
know nothing of the size of the tables, and the one of the handlers has no place for the last vector of the other.
-/
namespace WaifuOS.Gates
open WaifuOS.Bytes

inductive IdtType
  | InterruptGate
  | TrapGate
deriving DecidableEq

def IdtType.code : IdtType → Nat
  | .InterruptGate => 0b10001110
  | .TrapGate => 0b10001111

/-- `sizeof(IDTDescEntry)`. -/
def entrySize : Nat := 16

/-- `(SegmentSelector)KERNEL_CODE_GDT_INDEX << 3`. -/
def kernelCode : BitVec 16 := 1 <<< 3

/-- The writes of `SetOffset`, to the entry at an address. -/
def SetOffset (entry : Nat) (offset : BitVec 64) : List Write :=
  [⟨entry,2,offset.toNat &&& 0xFFFF⟩,
   ⟨entry + 6,2,(offset.toNat &&& 0xFFFF0000) >>> 16⟩,
   ⟨entry + 8,4,(offset.toNat &&& 0xFFFFFFFF00000000) >>> 32⟩]

def GetOffset (m : Mem) (entry : Nat) : Nat :=
  load m entry 2 ||| load m (entry + 6) 2 <<< 16 ||| load m (entry + 8) 4 <<< 32

variable {m m' : Mem} {entry : Nat} {offset : BitVec 64}

/-- An offset is its three parts. -/
theorem parts_offset (n : Nat) :
    n % 2^16 ||| (n / 2^16 % 2^16) <<< 16 ||| (n / 2^32) <<< 32 = n := by
  have low : n % 2^16 ||| (n / 2^16 % 2^16) <<< 16 = n % 2^32 := by
    rw [Nat.or_comm,← Nat.shiftLeft_add_eq_or_of_lt (Nat.mod_lt _ (Nat.two_pow_pos 16)),Nat.shiftLeft_eq]
    omega
  rw [low,Nat.or_comm,← Nat.shiftLeft_add_eq_or_of_lt (Nat.mod_lt _ (Nat.two_pow_pos 32)),Nat.shiftLeft_eq]
  omega

theorem low_part (n : Nat) : n &&& 0xFFFF = n % 2^16 := Nat.and_two_pow_sub_one_eq_mod n 16

theorem middle_part (n : Nat) : (n &&& 0xFFFF0000) >>> 16 = n / 2^16 % 2^16 := by
  rw [Nat.shiftRight_and_distrib,Nat.shiftRight_eq_div_pow]
  exact Nat.and_two_pow_sub_one_eq_mod _ 16

theorem high_part (n : Nat) (small : n < 2^64) : (n &&& 0xFFFFFFFF00000000) >>> 32 = n / 2^32 := by
  rw [Nat.shiftRight_and_distrib,Nat.shiftRight_eq_div_pow]
  refine (Nat.and_two_pow_sub_one_eq_mod _ 32).trans (Nat.mod_eq_of_lt ?_)
  omega

/-- `GetOffset` reads what `SetOffset` wrote, wherever its three parts are kept. -/
theorem getOffset_eq (low : load m entry 2 = (offset.toNat &&& 0xFFFF) % 256^2)
    (middle : load m (entry + 6) 2 = ((offset.toNat &&& 0xFFFF0000) >>> 16) % 256^2)
    (high : load m (entry + 8) 4 = ((offset.toNat &&& 0xFFFFFFFF00000000) >>> 32) % 256^4) : GetOffset m entry = offset.toNat := by
  have word := offset.isLt
  rw [GetOffset,low,middle,high,low_part,middle_part,high_part _ word]
  have first : offset.toNat % 2^16 % 256^2 = offset.toNat % 2^16 := Nat.mod_mod _ _
  have second : offset.toNat / 2^16 % 2^16 % 256^2 = offset.toNat / 2^16 % 2^16 := Nat.mod_mod _ _
  have third : offset.toNat / 2^32 % 256^4 = offset.toNat / 2^32 := Nat.mod_eq_of_lt (by omega)
  rw [first,second,third]
  exact parts_offset _

/-- Where the tables are, and the addresses of the stubs and of `hStub`. -/
structure Layout where
  GlobalIDT : Nat
  GlobalInterruptTable : Nat
  GlobalHandlerStubTable : Nat → BitVec 64
  hStub : BitVec 64

/-- The page of the descriptors and the 0xFF handlers are apart. -/
def Layout.Apart (t : Layout) : Prop := Bytes.Apart t.GlobalIDT 0x1000 t.GlobalInterruptTable (8 * 0xFF)

namespace Layout

def descriptor (t : Layout) (inter : Nat) : Nat := t.GlobalIDT + inter * entrySize

def handler (t : Layout) (inter : Nat) : Nat := t.GlobalInterruptTable + 8 * inter

/-- A round of `RegisterInterruptStubs`. -/
def stubWrites (t : Layout) (x : Nat) : List Write :=
  [⟨t.descriptor x + 2,2,kernelCode.toNat⟩,⟨t.descriptor x + 5,1,IdtType.InterruptGate.code⟩] ++
    SetOffset (t.descriptor x) (t.GlobalHandlerStubTable x) ++
    [⟨t.descriptor x + 4,1,0⟩,⟨t.handler x,8,t.hStub.toNat⟩]

def RegisterInterruptStubs (t : Layout) : List Write := (List.range 0xFF).flatMap t.stubWrites

def RegisterInterrupt (t : Layout) (handlerAddress : BitVec 64) (inter : Nat) (interruptType : IdtType) (ist : BitVec 8)
    (selector : BitVec 16) : List Write :=
  [⟨t.descriptor inter + 5,1,interruptType.code⟩,
   ⟨t.descriptor inter + 2,2,selector.toNat⟩,
   ⟨t.descriptor inter + 4,1,ist.toNat⟩,
   ⟨t.handler inter,8,handlerAddress.toNat⟩]

def UnregisterInterrupt (t : Layout) (inter : Nat) : List Write :=
  [⟨t.descriptor inter + 5,1,IdtType.InterruptGate.code⟩,
   ⟨t.descriptor inter + 4,1,0⟩,
   ⟨t.descriptor inter + 2,2,kernelCode.toNat⟩,
   ⟨t.handler inter,8,t.hStub.toNat⟩]

/-- The memory after the start of `InitializeExceptions`: the page is zero but for the stubs. -/
def prepared (t : Layout) (m : Mem) : Mem := writeAll (fill m t.GlobalIDT 0x1000 (fun _ => 0)) t.RegisterInterruptStubs

end Layout

inductive Call
  | RegisterInterrupt (handlerAddress : BitVec 64) (inter : Nat) (interruptType : IdtType) (ist : BitVec 8) (selector : BitVec 16)
  | UnregisterInterrupt (inter : Nat)

namespace Call

def inter : Call → Nat
  | .RegisterInterrupt _ inter _ _ _ => inter
  | .UnregisterInterrupt inter => inter

def writes (t : Layout) : Call → List Write
  | .RegisterInterrupt handlerAddress inter interruptType ist selector => t.RegisterInterrupt handlerAddress inter interruptType ist selector
  | .UnregisterInterrupt inter => t.UnregisterInterrupt inter

end Call

/-- The memory after calls one after another. -/
def runCalls (t : Layout) (m : Mem) (calls : List Call) : Mem := calls.foldl (fun m call => writeAll m (call.writes t)) m

/-- What is registered for a vector. -/
structure Registration where
  handler : BitVec 64
  interruptType : IdtType
  ist : BitVec 8
  selector : BitVec 16

/-- What is registered where nothing is. -/
def unregistered (t : Layout) : Registration := ⟨t.hStub,.InterruptGate,0,kernelCode⟩

def Call.registration (t : Layout) : Call → Registration
  | .RegisterInterrupt handlerAddress _ interruptType ist selector => ⟨handlerAddress,interruptType,ist,selector⟩
  | .UnregisterInterrupt _ => unregistered t

/-- What is registered for each vector after calls. -/
def registered (t : Layout) (calls : List Call) : Nat → Registration :=
  calls.foldl (fun table call => Function.update table call.inter (call.registration t)) (fun _ => unregistered t)

/-- An entry, and the handler of its stub, are as registered. -/
structure Entered (t : Layout) (m : Mem) (v : Nat) (r : Registration) : Prop where
  offset : GetOffset m (t.descriptor v) = (t.GlobalHandlerStubTable v).toNat
  selector : load m (t.descriptor v + 2) 2 = r.selector.toNat
  ist : load m (t.descriptor v + 4) 1 = r.ist.toNat
  interruptType : load m (t.descriptor v + 5) 1 = r.interruptType.code
  handler : load m (t.handler v) 8 = r.handler.toNat

/-- A gate as the CPU reads it. -/
structure Gate where
  offset : Nat
  selector : Nat
  ist : Nat
  interruptType : IdtType

/-- The gate of a vector, if it is inside the limit, present, and an interrupt or a trap gate. -/
def readGate (m : Mem) (idt limit v : Nat) : Option Gate :=
  let entry := idt + v * entrySize
  if v * entrySize + 15 ≤ limit ∧ (load m (entry + 5) 1).testBit 7 then
    let gate interruptType : Gate :=
      ⟨GetOffset m entry,load m (entry + 2) 2,load m (entry + 4) 1 &&& 0b111,interruptType⟩
    if load m (entry + 5) 1 % 2^5 = 0b01110 then some (gate .InterruptGate)
    else if load m (entry + 5) 1 % 2^5 = 0b01111 then some (gate .TrapGate)
    else none
  else none

variable {t : Layout} {ws : List Write} {w : Write} {v u : Nat} {r : Registration} {call : Call} {calls : List Call}

/-- The write is to the entry or to the handler of a vector. -/
def Belongs (t : Layout) (v : Nat) (w : Write) : Prop := w.Inside (t.descriptor v) entrySize ∨ w.Inside (t.handler v) 8

/-- Ranges that belong to different vectors are apart. -/
theorem belongs_away (apart : t.Apart) (inside : v < 0xFF) (inside' : u < 0xFF) (other : u ≠ v) (belongs : Belongs t u w) {a k : Nat}
    (range : t.descriptor v ≤ a ∧ a + k ≤ t.descriptor v + entrySize ∨ t.handler v ≤ a ∧ a + k ≤ t.handler v + 8) :
    Apart a k w.address w.size := by
  simp only [Layout.Apart,Bytes.Apart] at apart
  simp only [Belongs,Write.Inside,Layout.descriptor,Layout.handler,entrySize] at belongs
  simp only [Layout.descriptor,Layout.handler,entrySize] at range
  simp only [Bytes.Apart]
  omega

theorem writes_belong (call : Call) (member : w ∈ call.writes t) : Belongs t call.inter w := by
  cases call with
  | RegisterInterrupt handlerAddress inter interruptType ist selector =>
    simp only [Call.writes,Layout.RegisterInterrupt,List.mem_cons,List.not_mem_nil,or_false] at member
    rcases member with rfl | rfl | rfl | rfl <;> simp [Belongs,Write.Inside,Call.inter,entrySize]
  | UnregisterInterrupt inter =>
    simp only [Call.writes,Layout.UnregisterInterrupt,List.mem_cons,List.not_mem_nil,or_false] at member
    rcases member with rfl | rfl | rfl | rfl <;> simp [Belongs,Write.Inside,Call.inter,entrySize]

theorem stubWrites_belong (x : Nat) (member : w ∈ t.stubWrites x) : Belongs t x w := by
  simp only [Layout.stubWrites,SetOffset,List.cons_append,List.nil_append,List.mem_cons,List.not_mem_nil,or_false] at member
  rcases member with rfl | rfl | rfl | rfl | rfl | rfl | rfl <;> simp [Belongs,Write.Inside,entrySize]

/-- What is apart from the writes stays as registered. -/
theorem Entered.kept (entered : Entered t m v r) (away : ∀ w ∈ ws, ∀ a k,
    t.descriptor v ≤ a ∧ a + k ≤ t.descriptor v + entrySize ∨ t.handler v ≤ a ∧ a + k ≤ t.handler v + 8 →
      Apart a k w.address w.size) : Entered t (writeAll m ws) v r where
  offset := by
    rw [GetOffset,load_writeAll_apart (fun w member => away w member _ _ (by unfold entrySize; omega)),
      load_writeAll_apart (fun w member => away w member _ _ (by unfold entrySize; omega)),
      load_writeAll_apart (fun w member => away w member _ _ (by unfold entrySize; omega))]
    exact entered.offset
  selector := by
    rw [load_writeAll_apart (fun w member => away w member _ _ (by unfold entrySize; omega))]
    exact entered.selector
  ist := by
    rw [load_writeAll_apart (fun w member => away w member _ _ (by unfold entrySize; omega))]
    exact entered.ist
  interruptType := by
    rw [load_writeAll_apart (fun w member => away w member _ _ (by unfold entrySize; omega))]
    exact entered.interruptType
  handler := by
    rw [load_writeAll_apart (fun w member => away w member _ _ (by omega))]
    exact entered.handler

/-- The fields of a registration next to the offset. -/
def fields (t : Layout) (v : Nat) (r : Registration) : List Write :=
  [⟨t.descriptor v + 5,1,r.interruptType.code⟩,⟨t.descriptor v + 2,2,r.selector.toNat⟩,⟨t.descriptor v + 4,1,r.ist.toNat⟩,
    ⟨t.handler v,8,r.handler.toNat⟩]

theorem writes_fields (t : Layout) (call : Call) : (call.writes t).Perm (fields t call.inter (call.registration t)) := by
  cases call with
  | RegisterInterrupt handlerAddress inter interruptType ist selector => exact List.Perm.refl _
  | UnregisterInterrupt inter => exact (List.Perm.swap _ _ _).cons _

theorem code_lt (interruptType : IdtType) : interruptType.code < 256 := by cases interruptType <;> decide

theorem fields_away (apart : t.Apart) (inside : v < 0xFF) (r : Registration) : (fields t v r).Pairwise Write.Away := by
  simp only [Layout.Apart,Bytes.Apart] at apart
  simp only [fields,List.pairwise_cons,List.mem_cons,List.not_mem_nil,or_false,forall_eq_or_imp,forall_eq]
  unfold Write.Away Bytes.Apart Layout.descriptor Layout.handler entrySize
  refine ⟨?_,?_,?_,by simp⟩ <;> simp only <;> omega

/-- Writes that are pairwise apart and write the fields of a vector enter it, if its offset is what it was. -/
theorem entered_of_fields (away : ws.Pairwise Write.Away) (written : ∀ w ∈ fields t v r, w ∈ ws)
    (offset : GetOffset (writeAll m ws) (t.descriptor v) = (t.GlobalHandlerStubTable v).toNat) : Entered t (writeAll m ws) v r where
  offset := offset
  selector := load_written away (written _ (by simp [fields])) r.selector.isLt
  ist := load_written away (written _ (by simp [fields])) r.ist.isLt
  interruptType := load_written away (written _ (by simp [fields])) (code_lt r.interruptType)
  handler := load_written away (written _ (by simp [fields])) r.handler.isLt

/-- A call registers, and leaves the offset. -/
theorem Entered.called (apart : t.Apart) (inside : call.inter < 0xFF) (entered : Entered t m call.inter r) :
    Entered t (writeAll m (call.writes t)) call.inter (call.registration t) := by
  have same := writes_fields t call
  have away : (call.writes t).Pairwise Write.Away :=
    (same.pairwise_iff (fun {w w'} apart => Or.symm apart)).mpr (fields_away apart inside _)
  refine entered_of_fields away (fun w member => same.mem_iff.mpr member) ?_
  have outside : ∀ w ∈ call.writes t, ∀ a k, t.descriptor call.inter ≤ a ∧ a + k ≤ t.descriptor call.inter + 2 ∨
      t.descriptor call.inter + 6 ≤ a ∧ a + k ≤ t.descriptor call.inter + entrySize → Apart a k w.address w.size := by
    intro w member a k range
    have member := same.mem_iff.mp member
    simp only [Layout.Apart,Bytes.Apart] at apart
    simp only [Layout.descriptor,entrySize] at range
    simp only [fields,List.mem_cons,List.not_mem_nil,or_false] at member
    simp only [Bytes.Apart]
    rcases member with rfl | rfl | rfl | rfl <;> simp only [Layout.descriptor,Layout.handler,entrySize] <;> omega
  rw [GetOffset,load_writeAll_apart (fun w member => outside w member _ _ (by omega)),
    load_writeAll_apart (fun w member => outside w member _ _ (by unfold entrySize; omega)),
    load_writeAll_apart (fun w member => outside w member _ _ (by unfold entrySize; omega))]
  exact entered.offset

/-- A round of `RegisterInterruptStubs` makes the gate lead to the stub, and the stub to `hStub`. -/
theorem entered_stub (apart : t.Apart) (inside : v < 0xFF) : Entered t (writeAll m (t.stubWrites v)) v (unregistered t) := by
  have away : (t.stubWrites v).Pairwise Write.Away := by
    simp only [Layout.Apart,Bytes.Apart] at apart
    simp only [Layout.stubWrites,SetOffset,List.cons_append,List.nil_append,List.pairwise_cons,List.mem_cons,List.not_mem_nil,
      or_false,forall_eq_or_imp,forall_eq]
    unfold Write.Away Bytes.Apart Layout.descriptor Layout.handler entrySize
    refine ⟨?_,?_,?_,?_,?_,?_,by simp⟩ <;> simp only <;> omega
  refine entered_of_fields away ?_ ?_
  · intro w member
    simp only [fields,List.mem_cons,List.not_mem_nil,or_false] at member
    rcases member with rfl | rfl | rfl | rfl <;> simp [Layout.stubWrites,SetOffset,unregistered]
  · refine getOffset_eq ?_ ?_ ?_
    · exact load_writeAll_mem (w := ⟨t.descriptor v,2,_⟩) away (by simp [Layout.stubWrites,SetOffset])
    · exact load_writeAll_mem (w := ⟨t.descriptor v + 6,2,_⟩) away (by simp [Layout.stubWrites,SetOffset])
    · exact load_writeAll_mem (w := ⟨t.descriptor v + 8,4,_⟩) away (by simp [Layout.stubWrites,SetOffset])

/-- After the first rounds their vectors are entered. -/
theorem entered_stubs (apart : t.Apart) {n : Nat} (all : n ≤ 0xFF) (inside : v < n) :
    Entered t (writeAll m ((List.range n).flatMap t.stubWrites)) v (unregistered t) := by
  induction n with
  | zero => omega
  | succ n ih =>
    rw [List.range_succ,List.flatMap_append,List.flatMap_singleton,writeAll_append]
    by_cases last : v = n
    · rw [last]
      exact entered_stub apart all
    · apply (ih (by omega) (by omega)).kept
      intro w member a k range
      exact belongs_away apart (show v < 0xFF by omega) (show n < 0xFF by omega) (Ne.symm last) (stubWrites_belong n member) range

/-- The tables say what is registered. -/
def Represents (t : Layout) (m : Mem) (table : Nat → Registration) : Prop := ∀ v < 0xFF, Entered t m v (table v)

theorem prepared_represents (apart : t.Apart) (m : Mem) : Represents t (t.prepared m) (fun _ => unregistered t) :=
  fun _ inside => entered_stubs apart (Nat.le_refl _) inside

/-- A call changes the tables as it changes what is registered. -/
theorem exec_represents {table : Nat → Registration} (apart : t.Apart) (inside : call.inter < 0xFF) (represents : Represents t m table) :
    Represents t (writeAll m (call.writes t)) (Function.update table call.inter (call.registration t)) := by
  intro v small
  by_cases here : v = call.inter
  · subst here
    rw [Function.update_self]
    exact (represents _ small).called apart inside
  · rw [Function.update_of_ne here]
    exact (represents v small).kept (fun w member a k range =>
      belongs_away apart small inside (Ne.symm here) (writes_belong call member) range)

/-- A byte that belongs to none of the 0xFF vectors. -/
def Outside (t : Layout) (x : Nat) : Prop :=
  (x < t.GlobalIDT ∨ t.descriptor 0xFF ≤ x) ∧ (x < t.GlobalInterruptTable ∨ t.handler 0xFF ≤ x)

theorem outside_away {x : Nat} (outside : Outside t x) (inside : v < 0xFF) (belongs : Belongs t v w) :
    x < w.address ∨ w.address + w.size ≤ x := by
  simp only [Outside,Layout.descriptor,Layout.handler,entrySize] at outside
  simp only [Belongs,Write.Inside,Layout.descriptor,Layout.handler,entrySize] at belongs
  omega

theorem runCalls_represents (apart : t.Apart) (inside : ∀ call ∈ calls, call.inter < 0xFF) (m : Mem) :
    Represents t (runCalls t (t.prepared m) calls) (registered t calls) ∧
      ∀ x, Outside t x → runCalls t (t.prepared m) calls x = t.prepared m x := by
  induction calls using List.reverseRecOn with
  | nil =>
    rw [runCalls,registered,List.foldl_nil,List.foldl_nil]
    exact ⟨prepared_represents apart m,fun _ _ => rfl⟩
  | append_singleton calls call ih =>
    obtain ⟨represents,frame⟩ := ih (fun c member => inside c (List.mem_append_left _ member))
    have small := inside call (by simp)
    rw [runCalls,registered,List.foldl_append,List.foldl_append]
    refine ⟨exec_represents apart small represents,?_⟩
    intro x outside
    refine (writeAll_apart (fun w member => outside_away outside small (writes_belong call member))).trans ?_
    exact frame x outside

/-- The last entry of the page stays zero, and what is outside both tables stays what it was. -/
theorem prepared_outside (m : Mem) {x : Nat} (outside : Outside t x) :
    t.prepared m x = if t.GlobalIDT ≤ x ∧ x < t.GlobalIDT + 0x1000 then 0 else m x := by
  rw [Layout.prepared,writeAll_apart]
  · rfl
  · intro w member
    obtain ⟨v,inside,member⟩ := List.mem_flatMap.mp member
    exact outside_away outside (List.mem_range.mp inside) (stubWrites_belong v member)

/-- The CPU finds the gate of what is registered. -/
theorem Entered.gate (entered : Entered t m v r) (inside : v < 0x100) : readGate m t.GlobalIDT 0x0FFF v =
    some ⟨(t.GlobalHandlerStubTable v).toNat,r.selector.toNat,r.ist.toNat &&& 0b111,r.interruptType⟩ := by
  have types := entered.interruptType
  have offset := entered.offset
  have selector := entered.selector
  have ist := entered.ist
  simp only [Layout.descriptor] at types offset selector ist
  rw [readGate]
  simp only [types,offset,selector,ist]
  have limit : v * entrySize + 15 ≤ 0x0FFF := by unfold entrySize; omega
  cases r.interruptType with
  | InterruptGate => rw [if_pos ⟨limit,by decide⟩,if_pos (by decide)]
  | TrapGate => rw [if_pos ⟨limit,by decide⟩,if_neg (by decide),if_pos (by decide)]

theorem readGate_absent (zero : load m (t.descriptor v + 5) 1 = 0) : readGate m t.GlobalIDT 0x0FFF v = none := by
  simp only [Layout.descriptor] at zero
  rw [readGate]
  simp [zero]

/-- After any calls for vectors below 0xFF, each of these vectors is delivered through a gate to its stub, with what was registered
    for it last, and the stub finds the handler that was. Vector 0xFF has no gate, and no byte outside of the tables has changed. -/
theorem run_gates (apart : t.Apart) (inside : ∀ call ∈ calls, call.inter < 0xFF) (m : Mem) :
    (∀ v < 0xFF, readGate (runCalls t (t.prepared m) calls) t.GlobalIDT 0x0FFF v =
        some ⟨(t.GlobalHandlerStubTable v).toNat,(registered t calls v).selector.toNat,(registered t calls v).ist.toNat &&& 0b111,
          (registered t calls v).interruptType⟩ ∧
      load (runCalls t (t.prepared m) calls) (t.handler v) 8 = (registered t calls v).handler.toNat) ∧
    readGate (runCalls t (t.prepared m) calls) t.GlobalIDT 0x0FFF 0xFF = none ∧
    ∀ x, x < t.GlobalIDT ∨ t.GlobalIDT + 0x1000 ≤ x → x < t.GlobalInterruptTable ∨ t.handler 0xFF ≤ x →
      runCalls t (t.prepared m) calls x = m x := by
  obtain ⟨represents,frame⟩ := runCalls_represents apart inside m
  refine ⟨fun v small => ⟨(represents v small).gate (by omega),(represents v small).handler⟩,?_,?_⟩
  · apply readGate_absent
    simp only [Layout.Apart,Bytes.Apart] at apart
    have last : Outside t (t.descriptor 0xFF + 5) := by
      simp only [Outside,Layout.descriptor,Layout.handler,entrySize]
      omega
    have zero : runCalls t (t.prepared m) calls (t.descriptor 0xFF + 5) = 0 := by
      rw [frame _ last,prepared_outside m last,if_pos (by unfold Layout.descriptor entrySize; omega)]
    rw [load,load,zero]
    rfl
  · intro x page handlers
    have outside : Outside t x := by
      simp only [Outside,Layout.descriptor,entrySize]
      omega
    rw [frame x outside,prepared_outside m outside,if_neg (by omega)]

/-- Tables as they may be placed. -/
def placed : Layout := ⟨0x1000,0x3000,fun v => BitVec.ofNat 64 (0x100000 + 0x20 * v),0x200000⟩

/-- A handler of the timer is registered in place of another one. -/
theorem run_gates_placed : readGate (runCalls placed (placed.prepared (fun _ => 0)) [.RegisterInterrupt 0x200100 0x20 .InterruptGate 0 kernelCode,
      .RegisterInterrupt 0x200200 0x20 .TrapGate 1 kernelCode]) 0x1000 0x0FFF 0x20 = some ⟨0x100400,8,1,.TrapGate⟩ :=
  ((run_gates (t := placed) (by simp [Layout.Apart,Bytes.Apart,placed]) (by simp [Call.inter]) (fun _ => 0)).1 0x20 (by decide)).1

end WaifuOS.Gates
