import Mathlib.Data.BitVec
import Mathlib.Logic.Function.Basic
import Mathlib.Tactic.Common
import Mathlib.Tactic.IntervalCases

/-!
The two 8259 interrupt controllers, as `PIC.cpp` talks to them through their ports. A chip counts the
initialization words that it gets (`Stage`), and an interrupt of one of its lines is
delivered if the line is not masked and nothing at least as urgent is in service. From `Remap` on, whatever
the chips were doing before, they deliver the vectors that the kernel has handlers for, and
exactly the lines that the calls of `Mask` and `Disable` leave enabled (`run_interrupts`). Handlers
that end with a `SendEio` for the chip of their line leave nothing in service (`nested_inService`). The one of the real
time clock acknowledges the master alone, and no line of the slave is delivered after it (`slave_stuck`).
-/
namespace WaifuOS.PIC

def Icw1Init : BitVec 8 := 0x10

def Icw1Icw4 : BitVec 8 := 0x01

def Icw18086 : BitVec 8 := 0x01

def PIC_MASTER_OFFSET : BitVec 8 := 0x20

def PIC_SLAVE_OFFSET : BitVec 8 := PIC_MASTER_OFFSET + 8

def PicEoi : BitVec 8 := 0x20

def MasterCommand : Nat := 0x20

def MasterData : Nat := 0x21

def SlaveCommand : Nat := 0xA0

def SlaveData : Nat := 0xA1

/-- Which word a chip takes next at its data port. -/
inductive Stage
  | ready
  | icw2
  | icw3
  | icw4
deriving DecidableEq

structure Chip where
  stage : Stage
  /-- The first word announced the fourth. -/
  needsIcw4 : Bool
  mask : BitVec 8
  offset : BitVec 8
  cascade : BitVec 8
  mode : BitVec 8
  inService : Nat → Bool

namespace Chip

/-- The line that is served and most urgent is served no more. -/
def endOfInterrupt (c : Chip) : Chip :=
  { c with inService := fun line => c.inService line && (List.range line).any c.inService }

/-- A word at the command port, as far as the kernel sends them: the first word of an initialization, for chips in
    cascade, or the end of an interrupt. -/
def command (c : Chip) (value : BitVec 8) : Chip :=
  if value.getLsbD 4 then
    { c with stage := .icw2, needsIcw4 := value.getLsbD 0, mask := 0, mode := 0, inService := fun _ => false }
  else if value = PicEoi then c.endOfInterrupt
  else c

def data (c : Chip) (value : BitVec 8) : Chip :=
  match c.stage with
  | .ready => { c with mask := value }
  | .icw2 => { c with offset := value &&& 0xF8, stage := .icw3 }
  | .icw3 => { c with cascade := value, stage := if c.needsIcw4 then .icw4 else .ready }
  | .icw4 => { c with mode := value, stage := .ready }

/-- The chip after it has delivered an interrupt of a line, if it does. -/
def serve (c : Chip) (line : Nat) : Option Chip :=
  if c.stage = .ready ∧ c.mode.getLsbD 0 ∧ c.mask.getLsbD line = false ∧ (List.range (line+1)).any c.inService = false then
    some (if c.mode.getLsbD 1 then c else { c with inService := Function.update c.inService line true })
  else none

end Chip

structure Pics where
  master : Chip
  slave : Chip

namespace Pics

def outb (s : Pics) (port : Nat) (value : BitVec 8) : Pics :=
  if port = MasterCommand then { s with master := s.master.command value }
  else if port = MasterData then { s with master := s.master.data value }
  else if port = SlaveCommand then { s with slave := s.slave.command value }
  else if port = SlaveData then { s with slave := s.slave.data value }
  else s

def inb (s : Pics) (port : Nat) : BitVec 8 :=
  if port = MasterData then s.master.mask
  else if port = SlaveData then s.slave.mask
  else 0

/-- `IO::wait`. -/
def wait (s : Pics) : Pics := s.outb 0x80 0

def Remap (s : Pics) : Pics :=
  -- save old mask
  let masterBitmask := s.inb MasterData
  let s := s.wait
  let slaveBitmask := s.inb SlaveData
  let s := s.wait
  let s := (s.outb MasterCommand (Icw1Init ||| Icw1Icw4)).wait
  let s := (s.outb SlaveCommand (Icw1Init ||| Icw1Icw4)).wait
  let s := (s.outb MasterData PIC_MASTER_OFFSET).wait
  let s := (s.outb SlaveData PIC_SLAVE_OFFSET).wait
  let s := (s.outb MasterData 0x4).wait
  let s := (s.outb SlaveData 0x2).wait
  let s := (s.outb MasterData Icw18086).wait
  let s := (s.outb SlaveData Icw18086).wait
  -- restore old mask
  let s := (s.outb MasterData masterBitmask).wait
  (s.outb SlaveData slaveBitmask).wait

def Mask (s : Pics) (mask : BitVec 16) (state : Bool) : Pics :=
  let master := (mask &&& 0xFF).setWidth 8
  let slave := ((mask >>> 8) &&& 0xFF).setWidth 8
  let masterBitmask := s.inb MasterData
  let s := s.wait
  let slaveBitmask := s.inb SlaveData
  let s := s.wait
  let masterBitmask := if state then masterBitmask &&& ~~~master else masterBitmask ||| master
  let slaveBitmask := if state then slaveBitmask &&& ~~~slave else slaveBitmask ||| slave
  let s := (s.outb MasterData masterBitmask).wait
  (s.outb SlaveData slaveBitmask).wait

def Disable (s : Pics) : Pics :=
  let s := (s.outb MasterData 0xFF).wait
  (s.outb SlaveData 0xFF).wait

/-- `SendEIO`. -/
def SendEio (s : Pics) (slave : Bool) : Pics :=
  let s := if slave then s.outb SlaveCommand PicEoi else s
  s.outb MasterCommand PicEoi

/-- The slave's line at the master. -/
def SlaveLine : Nat := 2

/-- The chips after the interrupt of a line, and the vector that the CPU is given, if it is delivered. The
    slave answers if both chips know where it is. -/
def interrupt (s : Pics) (irq : Nat) : Option (Pics × BitVec 8) :=
  if irq < 8 then
    if s.master.cascade.getLsbD irq then none
    else (s.master.serve irq).map (fun master => ({ s with master },s.master.offset + BitVec.ofNat 8 irq))
  else if irq < 16 ∧ s.master.cascade.getLsbD SlaveLine ∧ s.slave.cascade = BitVec.ofNat 8 SlaveLine then do
    let slave ← s.slave.serve (irq - 8)
    let master ← s.master.serve SlaveLine
    some (⟨master,slave⟩,s.slave.offset + BitVec.ofNat 8 (irq - 8))
  else none

/-- The masks of all lines. -/
def masks (s : Pics) : BitVec 16 := s.slave.mask ++ s.master.mask

end Pics

/-- The chips as `Remap` leaves them. -/
structure Configured (s : Pics) : Prop where
  masterReady : s.master.stage = .ready
  slaveReady : s.slave.stage = .ready
  masterOffset : s.master.offset = PIC_MASTER_OFFSET
  slaveOffset : s.slave.offset = PIC_SLAVE_OFFSET
  masterCascade : s.master.cascade = 0x4
  slaveCascade : s.slave.cascade = 0x2
  masterMode : s.master.mode = Icw18086
  slaveMode : s.slave.mode = Icw18086

variable {s s' : Pics} {c c' : Chip} {irq line : Nat} {vector : BitVec 8} {mask : BitVec 16} {state : Bool}

theorem remap_configured (s : Pics) : Configured s.Remap := ⟨rfl,rfl,rfl,rfl,rfl,rfl,rfl,rfl⟩

/-- The masks survive the initialization, which clears them. -/
theorem remap_masks (s : Pics) : s.Remap.masks = s.masks := rfl

/-- A call that writes new masks to chips that are ready. -/
theorem data_ready (configured : Configured s) (master slave : BitVec 8) :
    ((s.outb MasterData master).wait.outb SlaveData slave).wait =
      ⟨{ s.master with mask := master },{ s.slave with mask := slave }⟩ := by
  simp [Pics.wait,Pics.outb,MasterCommand,MasterData,SlaveCommand,SlaveData,Chip.data,configured.masterReady,configured.slaveReady]

theorem mask_eq (configured : Configured s) : s.Mask mask state =
    ⟨{ s.master with mask := if state then s.master.mask &&& ~~~(mask &&& 0xFF).setWidth 8 else s.master.mask ||| (mask &&& 0xFF).setWidth 8 },
      { s.slave with mask := if state then s.slave.mask &&& ~~~((mask >>> 8) &&& 0xFF).setWidth 8
                             else s.slave.mask ||| ((mask >>> 8) &&& 0xFF).setWidth 8 }⟩ :=
  data_ready configured _ _

theorem disable_eq (configured : Configured s) : s.Disable = ⟨{ s.master with mask := 0xFF },{ s.slave with mask := 0xFF }⟩ :=
  data_ready configured _ _

/-- The two halves of a mask. -/
theorem halves (mask : BitVec 16) : ((mask >>> 8) &&& 0xFF).setWidth 8 ++ (mask &&& 0xFF).setWidth 8 = mask := by
  have ones : BitVec.setWidth 8 (0xFF : BitVec 16) = BitVec.allOnes 8 := by decide
  rw [BitVec.setWidth_and,BitVec.setWidth_and,ones,BitVec.and_allOnes,BitVec.and_allOnes]
  ext i small
  rw [← BitVec.getLsbD_eq_getElem,← BitVec.getLsbD_eq_getElem,BitVec.getLsbD_append]
  by_cases low : i < 8
  · simp [low]
  · have high : 8 + (i - 8) = i := by omega
    simp [low,high,show i - 8 < 8 by omega]

/-- `Mask` enables the lines of a mask, or disables them, and leaves the others. -/
theorem mask_masks (configured : Configured s) :
    (s.Mask mask state).masks = if state then s.masks &&& ~~~mask else s.masks ||| mask := by
  rw [mask_eq configured,Pics.masks,Pics.masks]
  cases state with
  | true =>
    simp only [if_true]
    rw [← BitVec.and_append,← BitVec.not_append,halves]
  | false =>
    simp only [Bool.false_eq_true,if_false]
    rw [← BitVec.or_append,halves]

/-- The lines in service after the end of the most urgent one. -/
def ended (inService : Nat → Bool) (line : Nat) : Bool := inService line && (List.range line).any inService

theorem any_range {f : Nat → Bool} {n : Nat} : (List.range n).any f = false ↔ ∀ l < n, f l = false := by
  simp

/-- A line that began while nothing as urgent was in service is the one that ends. -/
theorem ended_update {f : Nat → Bool} (clear : ∀ l < line + 1, f l = false) : ended (Function.update f line true) = f := by
  funext l
  rw [ended]
  rcases Nat.lt_trichotomy l line with before | here | behind
  · rw [Function.update_of_ne (by omega),clear l (by omega),Bool.false_and]
  · have none : (List.range line).any (Function.update f line true) = false := by
      apply any_range.mpr
      intro k small
      rw [Function.update_of_ne (by omega)]
      exact clear k (by omega)
    rw [here,none,Bool.and_false,clear line (by omega)]
  · have some : (List.range l).any (Function.update f line true) = true := by
      refine List.any_eq_true.mpr ⟨line,List.mem_range.mpr behind,?_⟩
      rw [Function.update_self]
    rw [some,Bool.and_true,Function.update_of_ne (by omega)]

theorem sendEio_eq (s : Pics) (slave : Bool) :
    s.SendEio slave = ⟨s.master.endOfInterrupt,if slave then s.slave.endOfInterrupt else s.slave⟩ := by
  cases slave <;> rfl

/-- What a chip in the mode of `Remap` does when it delivers an interrupt. -/
theorem serve_eq_some (mode : c.mode = Icw18086) (ready : c.stage = .ready) : c.serve line = some c' ↔
    (c.mask.getLsbD line = false ∧ ∀ l < line + 1, c.inService l = false) ∧
      c' = { c with inService := Function.update c.inService line true } := by
  have bits : c.mode.getLsbD 0 = true ∧ c.mode.getLsbD 1 = false := by rw [mode]; decide
  rw [Chip.serve,bits.1,bits.2,← any_range]
  by_cases allowed : c.mask.getLsbD line = false ∧ (List.range (line + 1)).any c.inService = false
  · rw [if_pos ⟨ready,rfl,allowed⟩,if_neg Bool.false_ne_true,Option.some.injEq]
    exact ⟨fun same => ⟨allowed,same.symm⟩,fun same => same.2.symm⟩
  · rw [if_neg (fun all => allowed all.2.2)]
    exact ⟨fun never => (Option.some_ne_none _ never.symm).elim,fun both => absurd both.1 allowed⟩

/-- The lines at least as urgent as this one that are in service. -/
def Idle (s : Pics) (irq : Nat) : Prop :=
  if irq < 8 then ∀ l < irq + 1, s.master.inService l = false
  else (∀ l < Pics.SlaveLine + 1, s.master.inService l = false) ∧ ∀ l < irq - 8 + 1, s.slave.inService l = false

/-- The interrupt of a line in service. -/
def Pics.serving (s : Pics) (irq : Nat) : Pics :=
  if irq < 8 then { s with master := { s.master with inService := Function.update s.master.inService irq true } }
  else ⟨{ s.master with inService := Function.update s.master.inService SlaveLine true },
    { s.slave with inService := Function.update s.slave.inService (irq - 8) true }⟩

theorem masks_bit : s.masks.getLsbD irq = if irq < 8 then s.master.mask.getLsbD irq else s.slave.mask.getLsbD (irq - 8) :=
  BitVec.getLsbD_append

theorem master_interrupt (configured : Configured s) (low : irq < 8) : s.interrupt irq = some (s',vector) ↔
    (irq ≠ Pics.SlaveLine ∧ s.master.mask.getLsbD irq = false ∧ ∀ l < irq + 1, s.master.inService l = false) ∧
      s' = s.serving irq ∧ vector = BitVec.ofNat 8 (0x20 + irq) := by
  have cascade : s.master.cascade.getLsbD irq = decide (irq = Pics.SlaveLine) := by
    rw [configured.masterCascade]
    interval_cases irq <;> rfl
  rw [Pics.interrupt,if_pos low,cascade]
  by_cases here : irq = Pics.SlaveLine
  · simp [here]
  · have offset : s.master.offset + BitVec.ofNat 8 irq = BitVec.ofNat 8 (0x20 + irq) := by
      rw [configured.masterOffset,BitVec.ofNat_add]
      rfl
    rw [if_neg (by simp [here]),offset,Option.map_eq_some_iff]
    simp only [serve_eq_some configured.masterMode configured.masterReady,Prod.mk.injEq]
    rw [Pics.serving,if_pos low]
    constructor
    · rintro ⟨c,⟨allowed,rfl⟩,rfl,rfl⟩
      exact ⟨⟨here,allowed⟩,rfl,rfl⟩
    · rintro ⟨⟨_,allowed⟩,rfl,rfl⟩
      exact ⟨_,⟨allowed,rfl⟩,rfl,rfl⟩

theorem slave_interrupt (configured : Configured s) (high : 8 ≤ irq) : s.interrupt irq = some (s',vector) ↔
    (irq < 16 ∧ s.slave.mask.getLsbD (irq - 8) = false ∧ s.master.mask.getLsbD Pics.SlaveLine = false ∧
      (∀ l < Pics.SlaveLine + 1, s.master.inService l = false) ∧ ∀ l < irq - 8 + 1, s.slave.inService l = false) ∧
      s' = s.serving irq ∧ vector = BitVec.ofNat 8 (0x20 + irq) := by
  rw [Pics.interrupt,if_neg (Nat.not_lt.mpr high)]
  by_cases line : irq < 16
  · have offset : s.slave.offset + BitVec.ofNat 8 (irq - 8) = BitVec.ofNat 8 (0x20 + irq) := by
      rw [configured.slaveOffset,show 0x20 + irq = 0x28 + (irq - 8) by omega,BitVec.ofNat_add]
      rfl
    have answers : irq < 16 ∧ s.master.cascade.getLsbD Pics.SlaveLine ∧ s.slave.cascade = BitVec.ofNat 8 Pics.SlaveLine := by
      rw [configured.masterCascade,configured.slaveCascade]
      exact ⟨line,rfl,rfl⟩
    rw [if_pos answers,offset]
    simp only [Option.bind_eq_bind,Option.bind_eq_some_iff,serve_eq_some configured.slaveMode configured.slaveReady,
      serve_eq_some configured.masterMode configured.masterReady,Option.some.injEq,Prod.mk.injEq]
    rw [Pics.serving,if_neg (Nat.not_lt.mpr high)]
    constructor
    · rintro ⟨slave,⟨slaveAllowed,rfl⟩,master,⟨masterAllowed,rfl⟩,rfl,rfl⟩
      exact ⟨⟨line,slaveAllowed.1,masterAllowed.1,masterAllowed.2,slaveAllowed.2⟩,rfl,rfl⟩
    · rintro ⟨⟨_,slaveMask,masterMask,masterIdle,slaveIdle⟩,rfl,rfl⟩
      exact ⟨_,⟨⟨slaveMask,slaveIdle⟩,rfl⟩,_,⟨⟨masterMask,masterIdle⟩,rfl⟩,rfl,rfl⟩
  · rw [if_neg (fun answers => line answers.1)]
    exact ⟨fun never => (Option.some_ne_none _ never.symm).elim,fun both => absurd both.1.1 line⟩

/-- Which interrupts are delivered by chips that are configured, and with which vector. -/
theorem interrupt_eq_some (configured : Configured s) : s.interrupt irq = some (s',vector) ↔
    (irq < 16 ∧ irq ≠ Pics.SlaveLine ∧ s.masks.getLsbD irq = false ∧ (8 ≤ irq → s.masks.getLsbD Pics.SlaveLine = false) ∧ Idle s irq) ∧
      s' = s.serving irq ∧ vector = BitVec.ofNat 8 (0x20 + irq) := by
  have second : s.masks.getLsbD Pics.SlaveLine = s.master.mask.getLsbD Pics.SlaveLine := masks_bit.trans (if_pos (by decide))
  rw [masks_bit,second,Idle]
  rcases Nat.lt_or_ge irq 8 with low | high
  · rw [master_interrupt configured low,if_pos low,if_pos low]
    have other : ¬ 8 ≤ irq := Nat.not_le.mpr low
    simp [other,show irq < 16 by omega]
  · rw [slave_interrupt configured high,if_neg (Nat.not_lt.mpr high),if_neg (Nat.not_lt.mpr high)]
    have other : irq ≠ Pics.SlaveLine := by unfold Pics.SlaveLine; omega
    simp only [high,other,ne_eq,not_false_eq_true,true_and,forall_const]

/-! ### Runs -/

/-- What the kernel does to the chips, and the interrupts that they deliver. -/
inductive Event
  | Remap
  | Mask (mask : BitVec 16) (state : Bool)
  | Disable
  | interrupt (irq : Nat)
  | SendEio (slave : Bool)

namespace Event

/-- The chips after an event; an interrupt comes if it is delivered. -/
def exec (s : Pics) : Event → Option Pics
  | .Remap => some s.Remap
  | .Mask mask state => some (s.Mask mask state)
  | .Disable => some s.Disable
  | .interrupt irq => (s.interrupt irq).map Prod.fst
  | .SendEio slave => some (s.SendEio slave)

/-- The masks after an event. -/
def masks (masks : BitVec 16) : Event → BitVec 16
  | .Mask mask state => if state then masks &&& ~~~mask else masks ||| mask
  | .Disable => 0xFFFF
  | _ => masks

end Event

/-- Events one after another. -/
inductive Path : Pics → List Event → Pics → Prop
  | refl {s : Pics} : Path s [] s
  | step {s s' s'' : Pics} {e : Event} {events : List Event} (done : e.exec s = some s') (more : Path s' events s'') :
      Path s (e :: events) s''

variable {e : Event} {events : List Event}

theorem interrupt_exec (done : (Event.interrupt irq).exec s = some s') : ∃ vector, s.interrupt irq = some (s',vector) := by
  obtain ⟨⟨t,vector⟩,delivered,same⟩ := Option.map_eq_some_iff.mp done
  cases same
  exact ⟨vector,delivered⟩

/-- A line that is served changes nothing but what is in service. -/
theorem serving_configured (configured : Configured s) (irq : Nat) : Configured (s.serving irq) ∧ (s.serving irq).masks = s.masks := by
  rw [Pics.serving]
  split <;> exact ⟨{ configured with },rfl⟩

theorem sendEio_configured (configured : Configured s) (slave : Bool) : Configured (s.SendEio slave) ∧ (s.SendEio slave).masks = s.masks := by
  rw [sendEio_eq]
  cases slave <;> exact ⟨{ configured with },rfl⟩

/-- Every event keeps the configuration, and changes the masks as it says. -/
theorem exec_configured (configured : Configured s) (done : e.exec s = some s') : Configured s' ∧ s'.masks = e.masks s.masks := by
  cases e with
  | Remap =>
    cases done
    exact ⟨remap_configured s,remap_masks s⟩
  | Mask mask state =>
    cases done
    refine ⟨?_,mask_masks configured⟩
    rw [mask_eq configured]
    exact { configured with }
  | Disable =>
    cases done
    rw [disable_eq configured]
    refine ⟨{ configured with },?_⟩
    show (0xFF#8 ++ 0xFF#8 : BitVec 16) = 0xFFFF
    decide
  | interrupt irq =>
    obtain ⟨vector,delivered⟩ := interrupt_exec done
    rw [((interrupt_eq_some configured).mp delivered).2.1]
    exact serving_configured configured irq
  | SendEio slave =>
    cases done
    exact sendEio_configured configured slave

theorem path_configured (configured : Configured s) (path : Path s events s') :
    Configured s' ∧ s'.masks = events.foldl Event.masks s.masks := by
  induction path with
  | refl => exact ⟨configured,rfl⟩
  | step done _ ih =>
    obtain ⟨configured',masks⟩ := exec_configured configured done
    rw [List.foldl_cons,← masks]
    exact ih configured'

/-- From `Remap` on, which may find the chips in any state, an interrupt is delivered exactly when the calls have left its line
    enabled, and the master's line of the slave for a line of the slave, and nothing at least as urgent is in service. Its vector is the one that the
    handlers are registered for. -/
theorem run_interrupts (s : Pics) (path : Path s.Remap events s') (irq : Nat) (s'' : Pics) (vector : BitVec 8) :
    s'.interrupt irq = some (s'',vector) ↔
      (irq < 16 ∧ irq ≠ Pics.SlaveLine ∧ (events.foldl Event.masks s.masks).getLsbD irq = false ∧
        (8 ≤ irq → (events.foldl Event.masks s.masks).getLsbD Pics.SlaveLine = false) ∧ Idle s' irq) ∧
      s'' = s'.serving irq ∧ vector = BitVec.ofNat 8 (0x20 + irq) := by
  obtain ⟨configured,masks⟩ := path_configured (remap_configured s) path
  rw [remap_masks] at masks
  rw [← masks]
  exact interrupt_eq_some configured

/-- Chips that were never told anything, and the lines that the kernel enables. -/
def unknown : Pics := ⟨⟨.icw4,false,0xFF,0,0,0,fun _ => true⟩,⟨.icw3,true,0xFF,0,0,0,fun _ => true⟩⟩

/-- The chips after the lines of the keyboard, the timers and the slave have been enabled. -/
def enabled : Pics := unknown.Remap.Mask 0x107 true

theorem enabled_configured : Configured enabled := (exec_configured (e := .Mask 0x107 true) (remap_configured unknown) rfl).1

theorem run_interrupts_unknown : ∃ s', enabled.interrupt 1 = some (s',0x21) :=
  ⟨_,(run_interrupts unknown (.step rfl .refl : Path unknown.Remap [.Mask 0x107 true] enabled) 1 _ 0x21).mpr
    ⟨⟨by decide,by decide,by decide,by decide,by rw [Idle]; decide⟩,rfl,by decide⟩⟩

/-! ### Handlers -/

/-- Interrupts whose handlers end with a `SendEio` for the chip of the line; other interrupts, which nest, and calls
    of `Mask` and `Disable` may come before. -/
inductive Nested : Pics → Pics → Prop
  | refl {s : Pics} : Nested s s
  | Mask {s s' : Pics} (earlier : Nested s s') (mask : BitVec 16) (state : Bool) : Nested s (s'.Mask mask state)
  | Disable {s s' : Pics} (earlier : Nested s s') : Nested s s'.Disable
  | handled {s s' t t' : Pics} {irq : Nat} {vector : BitVec 8} (earlier : Nested s s') (delivered : s'.interrupt irq = some (t,vector))
      (handler : Nested t t') : Nested s (t'.SendEio (decide (7 < irq)))

/-- What is in service at both chips. -/
def SameService (s s' : Pics) : Prop := s'.master.inService = s.master.inService ∧ s'.slave.inService = s.slave.inService

/-- The `SendEio` for a line that was served ends the service of this line, and of no other. -/
theorem sendEio_serving (idle : Idle s irq) (same : SameService (s.serving irq) s') : SameService s (s'.SendEio (decide (7 < irq))) := by
  obtain ⟨master,slave⟩ := same
  rw [sendEio_eq]
  rw [Idle] at idle
  rw [Pics.serving] at master slave
  split at idle
  · rename_i low
    rw [if_pos low] at master slave
    constructor
    · show ended s'.master.inService = _
      rw [master]
      exact ended_update idle
    · simp only [show ¬ 7 < irq by omega,decide_false,Bool.false_eq_true,if_false]
      exact slave
  · rename_i high
    rw [if_neg high] at master slave
    constructor
    · show ended s'.master.inService = _
      rw [master]
      exact ended_update idle.1
    · simp only [show 7 < irq by omega,decide_true,if_true]
      show ended s'.slave.inService = _
      rw [slave]
      exact ended_update idle.2

/-- However the interrupts nest, after their handlers the same lines are in service as before them. -/
theorem nested_inService (configured : Configured s) (nested : Nested s s') : Configured s' ∧ SameService s s' := by
  induction nested with
  | refl => exact ⟨configured,rfl,rfl⟩
  | Mask _ mask state ih =>
    obtain ⟨configured',same⟩ := ih configured
    rw [mask_eq configured']
    exact ⟨{ configured' with },same⟩
  | Disable _ ih =>
    obtain ⟨configured',same⟩ := ih configured
    rw [disable_eq configured']
    exact ⟨{ configured' with },same⟩
  | @handled s s' t t' irq vector _ delivered _ ih ih' =>
    obtain ⟨configured',same⟩ := ih configured
    obtain ⟨allowed,rfl,_⟩ := (interrupt_eq_some configured').mp delivered
    obtain ⟨configured'',within⟩ := ih' (serving_configured configured' irq).1
    have after := sendEio_serving allowed.2.2.2.2 within
    exact ⟨(sendEio_configured configured'' _).1,after.1.trans same.1,after.2.trans same.2⟩

/-- The interrupt of the real time clock. -/
theorem enabled_clock : enabled.interrupt 8 = some (enabled.serving 8,0x28) :=
  (interrupt_eq_some enabled_configured).mpr ⟨⟨by decide,by decide,by decide,by decide,by rw [Idle]; decide⟩,rfl,by decide⟩

theorem nested_inService_clock : SameService enabled ((enabled.serving 8).SendEio true) :=
  (nested_inService enabled_configured (.handled .refl enabled_clock .refl)).2

/-- Events after which the slave has not been told of the end of an interrupt. -/
def Event.SkipsSlave : Event → Prop
  | .Remap => False
  | .SendEio slave => slave = false
  | _ => True

/-- A line of the slave stays in service as long as the slave is not told. -/
theorem exec_stuck (configured : Configured s) (skips : e.SkipsSlave) (serves : s.slave.inService line = true) (done : e.exec s = some s') :
    s'.slave.inService line = true := by
  cases e with
  | Remap => cases skips
  | Mask mask state =>
    cases done
    rw [mask_eq configured]
    exact serves
  | Disable =>
    cases done
    rw [disable_eq configured]
    exact serves
  | interrupt irq =>
    obtain ⟨vector,delivered⟩ := interrupt_exec done
    rw [((interrupt_eq_some configured).mp delivered).2.1,Pics.serving]
    split
    · exact serves
    · show Function.update s.slave.inService (irq - 8) true line = true
      by_cases here : line = irq - 8
      · rw [here,Function.update_self]
      · rw [Function.update_of_ne here]
        exact serves
  | SendEio slave =>
    cases done
    cases skips
    exact serves

/-- After an interrupt of the slave whose handler ends with `SendEio(false)`, as that of the real time clock does, no line of the slave
    that is not more urgent is delivered again, unless somebody tells the slave. -/
theorem slave_stuck (configured : Configured s) (high : 8 ≤ irq) (delivered : s.interrupt irq = some (s',vector)) {t : Pics}
    (path : Path (s'.SendEio false) events t) (skips : ∀ e ∈ events, e.SkipsSlave) {later : Nat} (less : irq ≤ later) :
    t.interrupt later = none := by
  obtain ⟨_,rfl,_⟩ := (interrupt_eq_some configured).mp delivered
  have start := (sendEio_configured (serving_configured configured irq).1 false).1
  have serves : ((s.serving irq).SendEio false).slave.inService (irq - 8) = true := by
    rw [sendEio_eq,Pics.serving,if_neg (by omega)]
    exact Function.update_self ..
  clear delivered
  generalize (s.serving irq).SendEio false = u at path start serves
  induction path with
  | refl =>
    rw [Option.eq_none_iff_forall_ne_some]
    rintro ⟨v,w⟩ comes
    have idle := ((slave_interrupt start (by omega)).mp comes).1.2.2.2.2
    rw [idle (irq - 8) (by omega)] at serves
    cases serves
  | step done more ih =>
    exact ih (fun e member => skips e (List.mem_cons_of_mem _ member)) (exec_configured start done).1
      (exec_stuck start (skips _ List.mem_cons_self) serves done)

theorem slave_stuck_clock : (((enabled.serving 8).SendEio false).Mask 0x200 true).interrupt 9 = none :=
  slave_stuck enabled_configured (Nat.le_refl 8) enabled_clock (.step (e := .Mask 0x200 true) rfl .refl)
    (fun e member => by cases List.mem_singleton.mp member; exact trivial) (by decide)

end WaifuOS.PIC
