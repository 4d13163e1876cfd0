import WaifuOS.Words
import Mathlib.Logic.Function.Basic

/-!
The timer of `PIT.cpp`: the divisor, the time that its interrupts have counted, and
the table of timers. A division by zero faults and has no result. What a timer's
handler does to the globals is the argument `call`. Only `Tick` lets time pass, by
one period (`tick_TimeSinceInit`).
-/
namespace WaifuOS.PIT
open Function (update)

structure TimerEntry where
  Handler : Nat
  Interval : Float
  CurrentCount : Float
  Active : Bool

/-- The number of entries of `Timers`. -/
def timerCount : Nat := 0xFF

/-- The globals of namespace `PIT`; `Divisor` and `CurrentTimers` are of type `uint16`. -/
structure State where
  Divisor : Nat
  TimeSinceInit : Float
  Timers : Nat → TimerEntry
  CurrentTimers : Nat

def BaseFrequency : Nat := 1193182

namespace State

def SetDivisor (s : State) (divisor : Nat) : State := { s with Divisor := divisor % 2^16 }

def SetFrequency (s : State) (freq : Nat) : Option State :=
  if freq = 0 then none else some (s.SetDivisor (BaseFrequency / freq))

def GetFrequency (s : State) : Option Nat := if s.Divisor = 0 then none else some (BaseFrequency / s.Divisor)

/-- `Initialize`; at last the entries are cleared. -/
def Initialize (s : State) : Option State := do
  let s := { s with TimeSinceInit := 0.0, Divisor := 0, CurrentTimers := 0 }
  let s ← s.SetFrequency 100
  some { s with Timers := fun x => if x < timerCount then ⟨0,0.0,0.0,false⟩ else s.Timers x }

/-- One round of the loop of `ProcessTimers`. -/
def processTimer (call : Nat → State → State) (deltaTime : Float) (s : State) (x : Nat) : State :=
  let timer := s.Timers x
  if timer.Active then
    let CurrentCount := timer.CurrentCount + deltaTime
    if timer.Interval ≤ CurrentCount then
      call timer.Handler { s with Timers := update s.Timers x { timer with CurrentCount := 0.0 } }
    else { s with Timers := update s.Timers x { timer with CurrentCount } }
  else s

def ProcessTimers (call : Nat → State → State) (s : State) (deltaTime : Float) : State :=
  (List.range timerCount).foldl (processTimer call deltaTime) s

def Tick (call : Nat → State → State) (s : State) : Option State := do
  let deltaTime := 1.0 / Float.ofNat (← s.GetFrequency)
  some ({ s with TimeSinceInit := s.TimeSinceInit + deltaTime }.ProcessTimers call deltaTime)

/-- The loop of `AddTimer`: the first entry that is not active, or the first one of all. -/
def freeTimer (s : State) : Nat := ((List.range timerCount).find? (fun x => !(s.Timers x).Active)).getD 0

/-- `AddTimer`: the index it returns, and the state after it. -/
def AddTimer (s : State) (handler : Nat) (intervalS : Float) : Nat × State :=
  if s.CurrentTimers ≥ timerCount then (0,s)
  else
    let ret := s.freeTimer
    (ret,{ s with Timers := update s.Timers ret ⟨handler,intervalS,0.0,true⟩, CurrentTimers := (s.CurrentTimers + 1) % 2^16 })

def RemoveTimer (s : State) (handler : Nat) : State :=
  if (s.Timers handler).Active then
    { s with
      Timers := update s.Timers handler ⟨0,0.0,0.0,false⟩
      CurrentTimers := (s.CurrentTimers + (2^16 - 1)) % 2^16 }
  else s

/-- The loop of `Sleep`, where `TimeSinceInit` is found at the given values one after another:
    those that are left when it ends, if it does. -/
def sleepLoop (startTime seconds deltaTime : Float) : List Float → Option (List Float)
  | [] => if deltaTime < seconds then none else some []
  | TimeSinceInit :: later =>
    if deltaTime < seconds then sleepLoop startTime seconds (TimeSinceInit - startTime) later
    else some (TimeSinceInit :: later)

def Sleep (s : State) (seconds : Float) (times : List Float) : Option (List Float) :=
  sleepLoop s.TimeSinceInit seconds 0.0 times

end State

variable {s s' : State} {call : Nat → State → State}

theorem setFrequency_TimeSinceInit {freq : Nat} (set : s.SetFrequency freq = some s') : s'.TimeSinceInit = s.TimeSinceInit := by
  rw [State.SetFrequency] at set
  split at set
  · cases set
  · cases set
    rfl

theorem addTimer_TimeSinceInit (s : State) (handler : Nat) (intervalS : Float) :
    (s.AddTimer handler intervalS).2.TimeSinceInit = s.TimeSinceInit := by
  rw [State.AddTimer]
  split <;> rfl

theorem removeTimer_TimeSinceInit (s : State) (handler : Nat) : (s.RemoveTimer handler).TimeSinceInit = s.TimeSinceInit := by
  rw [State.RemoveTimer]
  split <;> rfl

/-- Where the handlers leave the time alone, `ProcessTimers` does. -/
theorem processTimers_TimeSinceInit (leaves : ∀ handler s, (call handler s).TimeSinceInit = s.TimeSinceInit)
    (deltaTime : Float) : (s.ProcessTimers call deltaTime).TimeSinceInit = s.TimeSinceInit := by
  have round : ∀ (s : State) (x : Nat), (s.processTimer call deltaTime x).TimeSinceInit = s.TimeSinceInit := by
    intro s x
    simp only [State.processTimer]
    split
    · split
      · exact leaves _ _
      · rfl
    · rfl
  have rounds : ∀ (xs : List Nat) (s : State), (xs.foldl (State.processTimer call deltaTime) s).TimeSinceInit = s.TimeSinceInit := by
    intro xs
    induction xs with
    | nil => exact fun _ => rfl
    | cons x xs ih => exact fun s => (ih _).trans (round s x)
  exact rounds _ s

/-- `Tick` lets one period pass. -/
theorem tick_TimeSinceInit (leaves : ∀ handler s, (call handler s).TimeSinceInit = s.TimeSinceInit)
    (ticked : s.Tick call = some s') : ∃ frequency, s.GetFrequency = some frequency ∧
      s'.TimeSinceInit = s.TimeSinceInit + 1.0 / Float.ofNat frequency := by
  simp only [State.Tick,Option.bind_eq_bind,Option.bind_eq_some_iff,Option.some.injEq] at ticked
  obtain ⟨frequency,found,rfl⟩ := ticked
  exact ⟨frequency,found,processTimers_TimeSinceInit leaves _⟩

/-- `Sleep` does not end while the time stands still. -/
theorem sleep_stuck {seconds : Float} {times : List Float} (still : ∀ t ∈ times, t = s.TimeSinceInit)
    (positive : 0.0 < seconds) (short : s.TimeSinceInit - s.TimeSinceInit < seconds) : s.Sleep seconds times = none := by
  have stuck : ∀ (times : List Float) (deltaTime : Float), (∀ t ∈ times, t = s.TimeSinceInit) → deltaTime < seconds →
      State.sleepLoop s.TimeSinceInit seconds deltaTime times = none := by
    intro times
    induction times with
    | nil => exact fun deltaTime _ less => if_pos less
    | cons t times ih =>
      intro deltaTime still less
      rw [State.sleepLoop,if_pos less,still t (by simp)]
      exact ih _ (fun t member => still t (List.mem_cons_of_mem _ member)) short
  exact stuck times 0.0 still positive

/-- `Tick` returns when it does not divide by zero. -/
theorem tick_isSome_iff (s : State) (call : Nat → State → State) : (s.Tick call).isSome ↔ s.Divisor ≠ 0 := by
  rw [State.Tick,State.GetFrequency]
  by_cases zero : s.Divisor = 0
  · simp [zero]
  · simp [zero]

/-- The quotient is cut down to 16 bits. -/
theorem setFrequency_Divisor {freq : Nat} (pos : 1 ≤ freq) :
    ∃ s', s.SetFrequency freq = some s' ∧ s'.Divisor = BaseFrequency / freq % 2^16 :=
  ⟨_,if_neg (by omega),rfl⟩

/-- The frequencies that `SetFrequency` is right for: the quotient fits into 16 bits from 19 on, and is
    not zero up to the frequency of the clock. -/
def FrequencySet (s : State) (freq : Nat) : Prop :=
  ∃ s', s.SetFrequency freq = some s' ∧ s'.Divisor ≠ 0 ∧ (freq ≤ BaseFrequency → s'.Divisor = BaseFrequency / freq) ∧
    ∃ frequency, s'.GetFrequency = some frequency ∧ freq ≤ frequency

theorem frequencySet_iff (s : State) {freq : Nat} (pos : 1 ≤ freq) (word : freq < 2^32) :
    FrequencySet s freq ↔ 19 ≤ freq ∧ freq ≤ BaseFrequency := by
  obtain ⟨s',set,divisor⟩ := setFrequency_Divisor (s := s) pos
  constructor
  · rintro ⟨found,isFound,nonzero,whole,_⟩
    cases set.symm.trans isFound
    rw [divisor] at nonzero whole
    have below : freq ≤ BaseFrequency := by
      by_contra high
      rw [Nat.div_eq_of_lt (by omega)] at nonzero
      exact nonzero rfl
    refine ⟨?_,below⟩
    by_contra low
    have quotient : BaseFrequency / 18 ≤ BaseFrequency / freq := Nat.div_le_div_left (by omega) pos
    have large : 2^16 ≤ BaseFrequency / 18 := by decide
    have small : BaseFrequency / freq % 2^16 < 2^16 := Nat.mod_lt _ (by decide)
    have same := whole below
    omega
  · rintro ⟨low,high⟩
    have quotient : BaseFrequency / freq ≤ BaseFrequency / 19 := Nat.div_le_div_left low (by decide)
    have small : BaseFrequency / 19 < 2^16 := by decide
    have positive : 0 < BaseFrequency / freq := Nat.div_pos high pos
    have same : s'.Divisor = BaseFrequency / freq := by rw [divisor,Nat.mod_eq_of_lt (by omega)]
    have nonzero : s'.Divisor ≠ 0 := by omega
    refine ⟨s',set,nonzero,fun _ => same,BaseFrequency / s'.Divisor,if_neg nonzero,?_⟩
    rw [same]
    exact (Nat.le_div_iff_mul_le positive).mpr (Nat.mul_div_le BaseFrequency freq)

theorem frequencySet_at : FrequencySet ⟨0,0.0,fun _ => ⟨0,0.0,0.0,false⟩,0⟩ 100 :=
  (frequencySet_iff _ (by decide) (by decide)).mpr (by decide)

/-- The frequency 18 needs a divisor of 66287. -/
theorem frequencySet_fails : ¬ ∀ (s : State) (freq : Nat), 1 ≤ freq → freq < 2^32 → FrequencySet s freq := by
  intro sets
  obtain ⟨s',set,_,whole,_⟩ := sets ⟨0,0.0,fun _ => ⟨0,0.0,0.0,false⟩,0⟩ 18 (by decide) (by decide)
  have divisor : s'.Divisor = 751 := by cases set; rfl
  have quotient := whole (by decide)
  rw [divisor] at quotient
  exact absurd quotient (by decide)

end WaifuOS.PIT
