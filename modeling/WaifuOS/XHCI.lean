import Mathlib.Tactic.Common

/-!
The command register of an xHCI controller (`XHCI.cpp`, with `Register32` of `MMIO.hpp`).
The registers keep the writes to `USBCommand`, so that what a call does on its way can be
told. `Stop` masks with the run bit and not with the others: it keeps the bit that it should
clear and clears the bits that it should keep. So a run does what its calls are for when
no `Stop` and no `Reset` finds the controller running, and in no other case (`allRight_iff`).
-/
namespace WaifuOS.USB

/-- `MMIO::Register32`. -/
structure Register32 where
  mValue : BitVec 32
deriving DecidableEq

/-- `operator |=`. -/
def Register32.orAssign (r : Register32) (value : BitVec 32) : Register32 :=
  let val := r.mValue
  let val := val ||| value
  { r with mValue := val }

/-- `operator &=`. -/
def Register32.andAssign (r : Register32) (value : BitVec 32) : Register32 :=
  let val := r.mValue
  let val := val &&& value
  { r with mValue := val }

def CMD_HC_RUN : BitVec 32 := 0x1

def CMD_HC_RESET : BitVec 32 := 0x2

def STS_HC_HALTED : BitVec 32 := 0x1

def STS_HC_NOTREADY : BitVec 32 := 0x800

def STS_HC_ERROR : BitVec 32 := 0x1000

/-- The registers for command and status, with the writes to `USBCommand`: what it held before, and after. -/
structure OperationalRegister where
  USBCommand : Register32
  USBStatus : Register32
  writes : List (BitVec 32 × BitVec 32)

namespace OperationalRegister

/-- The registers after `USBCommand` is written. -/
def command (r : OperationalRegister) (USBCommand : Register32) : OperationalRegister :=
  { r with USBCommand, writes := r.writes ++ [(r.USBCommand.mValue,USBCommand.mValue)] }

def IsRunning (r : OperationalRegister) : Bool := r.USBCommand.mValue &&& CMD_HC_RUN != 0

def IsHalted (r : OperationalRegister) : Bool := r.USBStatus.mValue &&& STS_HC_HALTED != 0

def IsReady (r : OperationalRegister) : Bool := !(r.USBStatus.mValue &&& STS_HC_NOTREADY != 0)

def HasError (r : OperationalRegister) : Bool := r.USBStatus.mValue &&& STS_HC_ERROR != 0

def Start (r : OperationalRegister) : OperationalRegister :=
  if r.USBCommand.mValue &&& CMD_HC_RUN != 0 then r -- already running
  else r.command (r.USBCommand.orAssign CMD_HC_RUN)

def Stop (r : OperationalRegister) : OperationalRegister :=
  if !(r.USBCommand.mValue &&& CMD_HC_RUN != 0) then r -- already stopped
  else r.command (r.USBCommand.andAssign CMD_HC_RUN)

def Reset (r : OperationalRegister) : OperationalRegister :=
  let r := r.Stop
  let r := r.command (r.USBCommand.orAssign CMD_HC_RESET)
  r.Start

end OperationalRegister

inductive Call
  | Start
  | Stop
  | Reset

def Call.exec (r : OperationalRegister) : Call → OperationalRegister
  | .Start => r.Start
  | .Stop => r.Stop
  | .Reset => r.Reset

/-- The bits but the run bit are the same. -/
def SameOthers (r r' : OperationalRegister) : Prop :=
  r'.USBCommand.mValue &&& ~~~CMD_HC_RUN = r.USBCommand.mValue &&& ~~~CMD_HC_RUN

/-- The write raises the reset bit. -/
def RaisesReset (w : BitVec 32 × BitVec 32) : Prop := w.1 &&& CMD_HC_RESET = 0 ∧ w.2 &&& CMD_HC_RESET ≠ 0

/-- What a call does when it is right: `r'` are the registers `r` after it. -/
def Call.Right (r r' : OperationalRegister) : Call → Prop
  | .Start => r'.IsRunning = true ∧ SameOthers r r'
  | .Stop => r'.IsRunning = false ∧ SameOthers r r'
  | .Reset => ∀ w ∈ r'.writes.drop r.writes.length, RaisesReset w → w.1 &&& CMD_HC_RUN = 0 ∧ w.2 &&& CMD_HC_RUN = 0

/-- The call finds the controller stopped, unless it is `Start`. -/
def Call.Quiet (r : OperationalRegister) : Call → Prop
  | .Start => True
  | .Stop => r.IsRunning = false
  | .Reset => r.IsRunning = false

variable {r : OperationalRegister}

theorem isRunning_iff : r.IsRunning = true ↔ r.USBCommand.mValue &&& CMD_HC_RUN ≠ 0 := bne_iff_ne

theorem stopped_iff : r.IsRunning = false ↔ r.USBCommand.mValue &&& CMD_HC_RUN = 0 := bne_eq_false_iff_eq

theorem run_bit (v : BitVec 32) : v &&& CMD_HC_RUN = 0 ∨ v &&& CMD_HC_RUN = CMD_HC_RUN := by
  have one : CMD_HC_RUN = BitVec.twoPow 32 0 := by decide
  rw [one,BitVec.and_twoPow]
  cases v.getLsbD 0 with
  | false => exact .inl rfl
  | true => exact .inr rfl

theorem or_and_self (v mask : BitVec 32) : (v ||| mask) &&& mask = mask := by
  ext i inside
  simp only [BitVec.getElem_and,BitVec.getElem_or]
  cases mask[i] with
  | false => rw [Bool.and_false]
  | true => rw [Bool.or_true,Bool.and_true]

/-- Bits that a mask leaves out are not set by it. -/
theorem or_and_apart {v mask other : BitVec 32} (apart : mask &&& other = 0) : (v ||| mask) &&& other = v &&& other := by
  rw [BitVec.and_or_distrib_right,apart]
  simp

theorem start_running (running : r.IsRunning = true) : r.Start = r := if_pos running

theorem start_stopped (stopped : r.IsRunning = false) : r.Start = r.command (r.USBCommand.orAssign CMD_HC_RUN) :=
  if_neg (by rw [← OperationalRegister.IsRunning,stopped]; decide)

theorem stop_stopped (stopped : r.IsRunning = false) : r.Stop = r :=
  if_pos (by rw [← OperationalRegister.IsRunning,stopped]; rfl)

/-- `Stop` keeps the run bit and no other. -/
theorem stop_running (running : r.IsRunning = true) : r.Stop = r.command ⟨CMD_HC_RUN⟩ := by
  have kept : r.USBCommand.andAssign CMD_HC_RUN = ⟨CMD_HC_RUN⟩ := by
    rcases run_bit r.USBCommand.mValue with clear | set
    · exact absurd clear (isRunning_iff.mp running)
    · exact congrArg Register32.mk set
  rw [← kept]
  exact if_neg (by rw [← OperationalRegister.IsRunning,running]; decide)

theorem start_right (r : OperationalRegister) : Call.Right r r.Start .Start := by
  cases found : r.IsRunning with
  | true =>
    rw [start_running found]
    exact ⟨found,rfl⟩
  | false =>
    rw [start_stopped found]
    refine ⟨isRunning_iff.mpr ?_,or_and_apart (by decide)⟩
    rw [show (r.command (r.USBCommand.orAssign CMD_HC_RUN)).USBCommand.mValue = r.USBCommand.mValue ||| CMD_HC_RUN from rfl,or_and_self]
    decide

theorem stop_right_iff (r : OperationalRegister) : Call.Right r r.Stop .Stop ↔ r.IsRunning = false := by
  cases found : r.IsRunning with
  | true =>
    rw [stop_running found]
    have still : (r.command ⟨CMD_HC_RUN⟩).IsRunning = true := isRunning_iff.mpr (show CMD_HC_RUN &&& CMD_HC_RUN ≠ 0 by decide)
    refine iff_of_false ?_ (by decide)
    intro right
    rw [right.1] at still
    cases still
  | false =>
    rw [stop_stopped found]
    exact iff_of_true ⟨found,rfl⟩ rfl

/-- A controller that runs is reset while it runs. -/
theorem reset_right_iff (r : OperationalRegister) : Call.Right r r.Reset .Reset ↔ r.IsRunning = false := by
  cases found : r.IsRunning with
  | true =>
    refine iff_of_false ?_ (by decide)
    intro right
    obtain ⟨stopped,isStopped⟩ : ∃ stopped, stopped = r.command ⟨CMD_HC_RUN⟩ := ⟨_,rfl⟩
    have raised : (stopped.command (stopped.USBCommand.orAssign CMD_HC_RESET)).IsRunning = true := by
      rw [isStopped,isRunning_iff]
      exact show (CMD_HC_RUN ||| CMD_HC_RESET) &&& CMD_HC_RUN ≠ 0 by decide
    have reset : r.Reset = stopped.command (stopped.USBCommand.orAssign CMD_HC_RESET) := by
      rw [OperationalRegister.Reset,stop_running found,← isStopped]
      exact start_running raised
    have new : r.Reset.writes.drop r.writes.length =
        [(r.USBCommand.mValue,CMD_HC_RUN),(CMD_HC_RUN,CMD_HC_RUN ||| CMD_HC_RESET)] := by
      rw [reset,isStopped]
      simp [OperationalRegister.command,Register32.orAssign]
    have clear := right (CMD_HC_RUN,CMD_HC_RUN ||| CMD_HC_RESET) (by rw [new]; simp) ⟨by decide,by decide⟩
    exact absurd clear.1 (by decide)
  | false =>
    refine iff_of_true ?_ rfl
    obtain ⟨v,held⟩ : ∃ v, v = r.USBCommand.mValue := ⟨_,rfl⟩
    have clear : v &&& CMD_HC_RUN = 0 := by rw [held]; exact stopped_iff.mp found
    have raised : (v ||| CMD_HC_RESET) &&& CMD_HC_RUN = 0 := by rw [or_and_apart (by decide),clear]
    have started := start_stopped (r := r.command (r.USBCommand.orAssign CMD_HC_RESET)) (stopped_iff.mpr (by
      rw [held] at raised
      exact raised))
    have new : r.Reset.writes.drop r.writes.length =
        [(v,v ||| CMD_HC_RESET),(v ||| CMD_HC_RESET,v ||| CMD_HC_RESET ||| CMD_HC_RUN)] := by
      rw [OperationalRegister.Reset,stop_stopped found,started,held]
      simp [OperationalRegister.command,Register32.orAssign]
    intro w member raises
    rw [new] at member
    rcases List.mem_cons.mp member with rfl | member
    · exact ⟨clear,raised⟩
    -- The write of `Start` finds the reset bit set.
    · rw [List.mem_singleton.mp member,RaisesReset,or_and_self] at raises
      exact absurd raises.1 (by decide)

/-- The three calls: what they do is right when they find the controller as they should. -/
theorem right_iff (r : OperationalRegister) (c : Call) : c.Right r (c.exec r) ↔ c.Quiet r := by
  cases c with
  | Start => exact iff_of_true (start_right r) trivial
  | Stop => exact stop_right_iff r
  | Reset => exact reset_right_iff r

/-- No call touches the status. -/
theorem exec_USBStatus (r : OperationalRegister) (c : Call) : (c.exec r).USBStatus = r.USBStatus := by
  have start : ∀ r : OperationalRegister, r.Start.USBStatus = r.USBStatus := by
    intro r
    rw [OperationalRegister.Start]
    split <;> rfl
  have stop : r.Stop.USBStatus = r.USBStatus := by
    rw [OperationalRegister.Stop]
    split <;> rfl
  cases c with
  | Start => exact start r
  | Stop => exact stop
  | Reset => exact (start _).trans stop

/-- The questions about the status are answered as before the call. -/
theorem exec_status (r : OperationalRegister) (c : Call) :
    (c.exec r).IsHalted = r.IsHalted ∧ (c.exec r).IsReady = r.IsReady ∧ (c.exec r).HasError = r.HasError := by
  simp only [OperationalRegister.IsHalted,OperationalRegister.IsReady,OperationalRegister.HasError,exec_USBStatus,and_self]

/-- A call, or the controller that changes its registers between two calls. -/
inductive Event
  | call (c : Call)
  | device (USBCommand USBStatus : Register32)

def Event.exec (r : OperationalRegister) : Event → OperationalRegister
  | .call c => c.exec r
  | .device USBCommand USBStatus => { r with USBCommand, USBStatus }

/-- `P` holds of every call of a run from `r` on, with the registers that the call finds. -/
def Along (P : OperationalRegister → Call → Prop) : OperationalRegister → List Event → Prop
  | _, [] => True
  | r, event :: events => (∀ c, event = .call c → P r c) ∧ Along P (event.exec r) events

theorem along_congr {P Q : OperationalRegister → Call → Prop} (same : ∀ r c, P r c ↔ Q r c) (r : OperationalRegister) (events : List Event) :
    Along P r events ↔ Along Q r events := by
  induction events generalizing r with
  | nil => rfl
  | cons event events ih => exact and_congr (forall_congr' fun c => imp_congr_right fun _ => same r c) (ih _)

/-- Every call of the run is right. -/
def AllRight : OperationalRegister → List Event → Prop := Along (fun r c => c.Right r (c.exec r))

theorem allRight_iff (r : OperationalRegister) (events : List Event) : AllRight r events ↔ Along Call.Quiet r events :=
  along_congr right_iff r events

/-- A controller that runs is not stopped by `Stop`. -/
theorem allRight_fails : ¬ ∀ r events, AllRight r events := by
  intro right
  have stops := (right ⟨⟨5⟩,⟨0⟩,[]⟩ [.call .Stop]).1 .Stop rfl
  exact absurd stops.1 (by decide)

end WaifuOS.USB
