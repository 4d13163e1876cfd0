import WaifuOS.PIT
import WaifuOS.SchedulerRuns

/-!
The timer's interrupts from `PIT::Initialize` on. The handlers that are registered for
the timer and for yielding are part of the state, and `Scheduler::Start` registers
others. An interrupt that is delivered before `Start` runs `PIT::Tick`, and one that is
delivered after it only runs the scheduler: the interrupts of a run are all counted just when
none of them comes after `Start` (`run_ticked`). From `Start` on the time stands still
(`steps_TimeSinceInit`), so that `PIT::Sleep` does not end.
-/
namespace WaifuOS.TimerRuns
open WaifuOS.Scheduler
open Function (update)

/-- The handlers that are registered for the two interrupts below. -/
inductive Handler
  | hStub | hPitTick | hPitScheduler | hStartScheduler | hTaskYield

/-- `Interrupt::PIT` and `Interrupt::TaskYield`. -/
inductive Vector
  | PIT | TaskYield
  deriving DecidableEq

structure System where
  pit : PIT.State
  scheduler : Scheduler.State
  GlobalInterruptTable : Vector → Handler

/-- The code behind the handlers of the timers: what it does to the globals of `PIT`. -/
abbrev Code := Nat → PIT.State → PIT.State

namespace System

def RegisterInterrupt (s : System) (handler : Handler) (inter : Vector) : System :=
  { s with GlobalInterruptTable := update s.GlobalInterruptTable inter handler }

/-- `hStartScheduler`, where `new Thread` returns `newThread`. -/
def hStartScheduler (s : System) (newThread : Nat) (registers : RegisterState) (frame : InterruptFrame) : System :=
  let s := s.RegisterInterrupt .hTaskYield .TaskYield
  let thread : Thread :=
    { ThreadID := 0, CurrentTimeQuantum := s.scheduler.GetTimeQuantum, StackBaseAddress := 0,
      Registers := registers, InterruptFrame := frame }
  let scheduler := { s.scheduler with CurrentThread := newThread, NextThreadID := s.scheduler.NextThreadID + 1 }
  let s := { s with scheduler := scheduler.update newThread (fun _ => thread) }
  s.RegisterInterrupt .hPitScheduler .PIT

/-- `(1.0 / PIT::GetFrequency()) * 1000`, which is computed when a thread's time is counted. -/
def timeMs (s : System) : Option Nat :=
  if !s.scheduler.Running ∨ s.scheduler.ReadyQueue.GetCount ≤ 0 ∨ s.scheduler.CurrentThread = 0 then some 0
  else s.pit.GetFrequency.map (fun frequency => ((1.0 / Float.ofNat frequency) * 1000).toUInt64.toNat)

/-- `hPitScheduler`, without the end of the interrupt. -/
def hPitScheduler (s : System) (registers : RegisterState) (frame : InterruptFrame) : Option System := do
  let timeMs ← s.timeMs
  let (scheduler,_) ← s.scheduler.TimerInterrupt timeMs registers frame
  some { s with scheduler }

/-- `hPitTick`, without the end of the interrupt. -/
def hPitTick (call : Code) (s : System) : Option System := (s.pit.Tick call).map (fun pit => { s with pit })

def hTaskYield (s : System) (registers : RegisterState) (frame : InterruptFrame) : Option System :=
  (s.scheduler.hTaskYield registers frame).map (fun result => { s with scheduler := result.1 })

/-- The stub calls the handler that is registered: the state after it, and how often it
    executed `PIT::Tick`. -/
def interrupt (call : Code) (s : System) (inter : Vector) (newThread : Nat) (registers : RegisterState)
    (frame : InterruptFrame) : Option (System × Nat) :=
  match s.GlobalInterruptTable inter with
  | .hStub => some (s,0)
  | .hPitTick => (s.hPitTick call).map (fun s => (s,1))
  | .hPitScheduler => (s.hPitScheduler registers frame).map (fun s => (s,0))
  | .hStartScheduler => some (s.hStartScheduler newThread registers frame,0)
  | .hTaskYield => (s.hTaskYield registers frame).map (fun s => (s,0))

/-- `Scheduler::Start`, which runs with interrupts off. -/
def Start (call : Code) (s : System) (newThread : Nat) (registers : RegisterState) (frame : InterruptFrame) : Option System :=
  if s.scheduler.Running then some s
  else do
    let s := { s with scheduler := { s.scheduler with Running := false, ReadyQueue := .empty } }
    let s := s.RegisterInterrupt .hStartScheduler .TaskYield
    -- `Yield()`
    let (s,_) ← s.interrupt call .TaskYield newThread registers frame
    let pit ← s.pit.SetFrequency 200
    some { s with pit, scheduler := { s.scheduler with Running := true } }

end System

inductive Event
  /-- The timer's interrupt is delivered. -/
  | PIT (registers : RegisterState) (frame : InterruptFrame)
  | Yield (registers : RegisterState) (frame : InterruptFrame)
  | Start (newThread : Nat) (registers : RegisterState) (frame : InterruptFrame)
  | CreateThread (stack newThread entry0 : Nat)
  | ThreadExit (registers : RegisterState) (frame : InterruptFrame)
  | SetFrequency (freq : Nat)
  | AddTimer (handler : Nat) (intervalS : Float)
  | RemoveTimer (handler : Nat)

namespace Event

/-- The state after the event, and how often `PIT::Tick` was executed. -/
def exec (call : Code) (s : System) : Event → Option (System × Nat)
  | .PIT registers frame => s.interrupt call .PIT 0 registers frame
  | .Yield registers frame => s.interrupt call .TaskYield 0 registers frame
  | .Start newThread registers frame => (s.Start call newThread registers frame).map (fun s => (s,0))
  | .CreateThread stack newThread entry0 => some ({ s with scheduler := s.scheduler.CreateThread stack newThread entry0 },0)
  | .ThreadExit registers frame =>
    if s.scheduler.CurrentThread = 0 then none
    else { s with scheduler := s.scheduler.dropCurrent }.interrupt call .TaskYield 0 registers frame
  | .SetFrequency freq => (s.pit.SetFrequency freq).map (fun pit => ({ s with pit },0))
  | .AddTimer handler intervalS => some ({ s with pit := (s.pit.AddTimer handler intervalS).2 },0)
  | .RemoveTimer handler => some ({ s with pit := s.pit.RemoveTimer handler },0)

def isPIT : Event → Prop
  | .PIT _ _ => True
  | _ => False

def isStart : Event → Prop
  | .Start _ _ _ => True
  | _ => False

end Event

/-- An interrupt of the timer that was delivered: how often it executed `PIT::Tick`, and
    the globals of `PIT` before and after it. -/
structure Delivery where
  ticks : Nat
  before : PIT.State
  after : PIT.State

/-- The interrupt executed `PIT::Tick` once, and nothing else changed the globals. -/
def Delivery.Ticked (call : Code) (d : Delivery) : Prop := d.ticks = 1 ∧ d.before.Tick call = some d.after

namespace Event

/-- What an event delivers. -/
def delivery (s s' : System) (ticks : Nat) : Event → List Delivery
  | .PIT _ _ => [⟨ticks,s.pit,s'.pit⟩]
  | _ => []

end Event

/-- After `InitializeExceptions` and `PIT::Initialize`, before the scheduler starts. -/
def System.Initial (s : System) : Prop :=
  (∃ earlier : PIT.State, earlier.Initialize = some s.pit) ∧ s.scheduler.Running = false ∧
    s.GlobalInterruptTable .PIT = .hPitTick ∧ s.GlobalInterruptTable .TaskYield = .hStub

/-- The events of a run from `PIT::Initialize` on, the state they lead to, and the interrupts
    of the timer that were delivered. -/
inductive Run (call : Code) : List Event → System → List Delivery → Prop
  | start {s : System} (initial : s.Initial) : Run call [] s []
  | step {es : List Event} {s s' : System} {log : List Delivery} {e : Event} {ticks : Nat} (earlier : Run call es s log)
      (done : e.exec call s = some (s',ticks)) : Run call (es ++ [e]) s' (log ++ e.delivery s s' ticks)

variable {call : Code} {s s' : System} {e : Event} {es : List Event} {log : List Delivery} {ticks : Nat}
  {registers : RegisterState} {frame : InterruptFrame}

structure Early (s : System) : Prop where
  running : s.scheduler.Running = false
  timer : s.GlobalInterruptTable .PIT = .hPitTick
  yield : s.GlobalInterruptTable .TaskYield = .hStub

structure Late (s : System) : Prop where
  running : s.scheduler.Running = true
  timer : s.GlobalInterruptTable .PIT = .hPitScheduler
  yield : s.GlobalInterruptTable .TaskYield = .hTaskYield

/-- A switch leaves the flag as it is. -/
theorem taskSwitchOnEnd_running {t t' : Scheduler.State} {saved : RegisterState × InterruptFrame}
    (returned : t.TaskSwitchOnEnd = some (t',saved)) : t'.Running = t.Running := by
  rw [State.TaskSwitchOnEnd] at returned
  cases returned
  rfl

theorem taskSwitch_running {t t' : Scheduler.State} {saved : RegisterState × InterruptFrame}
    (returned : t.TaskSwitch registers frame = some (t',saved)) : t'.Running = t.Running := by
  have same := taskSwitchOnEnd_running returned
  exact same

theorem timerInterrupt_running {t t' : Scheduler.State} {timeMs : Nat} {saved : RegisterState × InterruptFrame}
    (returned : t.TimerInterrupt timeMs registers frame = some (t',saved)) : t'.Running = t.Running := by
  rw [State.TimerInterrupt] at returned
  split at returned
  · cases returned
    rfl
  · split at returned
    · exact taskSwitchOnEnd_running returned
    · simp only at returned
      split at returned
      · have same := taskSwitch_running returned
        exact same
      · cases returned
        rfl

theorem hTaskYield_running {t t' : Scheduler.State} {saved : RegisterState × InterruptFrame}
    (returned : t.hTaskYield registers frame = some (t',saved)) : t'.Running = t.Running := by
  rw [State.hTaskYield] at returned
  split at returned
  · cases returned
    rfl
  · have same := taskSwitch_running returned
    exact same

theorem createThread_running {t : Scheduler.State} {stack newThread entry0 : Nat} :
    (t.CreateThread stack newThread entry0).Running = t.Running := by
  rw [State.CreateThread]
  split <;> rfl

/-- Before `Start` an interrupt of the timer ticks. -/
theorem early_interrupt (early : Early s) (done : s.interrupt call .PIT 0 registers frame = some (s',ticks)) :
    Early s' ∧ ticks = 1 ∧ s.pit.Tick call = some s'.pit := by
  simp only [System.interrupt,early.timer,System.hPitTick,Option.map_map,Option.map_eq_some_iff] at done
  obtain ⟨pit,ticked,same⟩ := done
  cases same
  exact ⟨⟨early.running,early.timer,early.yield⟩,rfl,ticked⟩

/-- Before `Start` a yield is not handled. -/
theorem early_yield (early : Early s) (done : s.interrupt call .TaskYield 0 registers frame = some (s',ticks)) : s' = s := by
  simp only [System.interrupt,early.yield] at done
  cases done
  rfl

/-- `Start` hands the timer over to the scheduler. -/
theorem early_start {newThread : Nat} (early : Early s) (done : s.Start call newThread registers frame = some s') : Late s' := by
  rw [System.Start,if_neg (by simp [early.running])] at done
  simp only [System.interrupt,System.RegisterInterrupt,Function.update_self,Option.bind_eq_bind,Option.bind_some,
    Option.bind_eq_some_iff,Option.some.injEq] at done
  obtain ⟨pit,_,rfl⟩ := done
  exact ⟨rfl,by simp [System.hStartScheduler,System.RegisterInterrupt],by simp [System.hStartScheduler,System.RegisterInterrupt]⟩

/-- After `Start` an interrupt of the timer only runs the scheduler. -/
theorem late_interrupt (late : Late s) (done : s.interrupt call .PIT 0 registers frame = some (s',ticks)) :
    Late s' ∧ ticks = 0 ∧ s'.pit = s.pit := by
  simp only [System.interrupt,late.timer,System.hPitScheduler,Option.bind_eq_bind,Option.map_eq_some_iff,
    Option.bind_eq_some_iff] at done
  obtain ⟨t,⟨timeMs,_,⟨scheduler,saved⟩,returned,rest⟩,same⟩ := done
  cases rest
  cases same
  exact ⟨⟨(timerInterrupt_running returned).trans late.running,late.timer,late.yield⟩,rfl,rfl⟩

theorem late_yield (late : Late s) (done : s.interrupt call .TaskYield 0 registers frame = some (s',ticks)) :
    Late s' ∧ s'.pit = s.pit := by
  simp only [System.interrupt,late.yield,System.hTaskYield,Option.map_map,Option.map_eq_some_iff] at done
  obtain ⟨⟨scheduler,saved⟩,returned,same⟩ := done
  cases same
  exact ⟨⟨(hTaskYield_running returned).trans late.running,late.timer,late.yield⟩,rfl⟩

/-- One event before `Start`. -/
theorem early_exec (early : Early s) (done : e.exec call s = some (s',ticks)) :
    (e.isStart → Late s') ∧ (¬ e.isStart → Early s') ∧ ∀ d ∈ e.delivery s s' ticks, d.Ticked call := by
  cases e with
  | PIT registers frame =>
    obtain ⟨early',once,ticked⟩ := early_interrupt early done
    refine ⟨False.elim,fun _ => early',?_⟩
    intro d member
    rw [List.mem_singleton.mp member]
    exact ⟨once,ticked⟩
  | Yield registers frame =>
    rw [early_yield early done]
    exact ⟨False.elim,fun _ => early,by simp [Event.delivery]⟩
  | Start newThread registers frame =>
    obtain ⟨t,started,same⟩ := Option.map_eq_some_iff.mp done
    cases same
    exact ⟨fun _ => early_start early started,fun other => absurd trivial other,by simp [Event.delivery]⟩
  | CreateThread stack newThread entry0 =>
    cases done
    exact ⟨False.elim,fun _ => ⟨createThread_running.trans early.running,early.timer,early.yield⟩,by simp [Event.delivery]⟩
  | ThreadExit registers frame =>
    rw [Event.exec] at done
    split at done
    · cases done
    · have dropped : Early { s with scheduler := s.scheduler.dropCurrent } := ⟨early.running,early.timer,early.yield⟩
      rw [early_yield dropped done]
      exact ⟨False.elim,fun _ => dropped,by simp [Event.delivery]⟩
  | SetFrequency freq =>
    obtain ⟨pit,_,same⟩ := Option.map_eq_some_iff.mp done
    cases same
    exact ⟨False.elim,fun _ => ⟨early.running,early.timer,early.yield⟩,by simp [Event.delivery]⟩
  | AddTimer handler intervalS =>
    cases done
    exact ⟨False.elim,fun _ => ⟨early.running,early.timer,early.yield⟩,by simp [Event.delivery]⟩
  | RemoveTimer handler =>
    cases done
    exact ⟨False.elim,fun _ => ⟨early.running,early.timer,early.yield⟩,by simp [Event.delivery]⟩

/-- One event after `Start`: what is delivered does not tick, and the time stands still. -/
theorem late_exec (late : Late s) (done : e.exec call s = some (s',ticks)) :
    Late s' ∧ (∀ d ∈ e.delivery s s' ticks, d.ticks = 0) ∧ s'.pit.TimeSinceInit = s.pit.TimeSinceInit := by
  cases e with
  | PIT registers frame =>
    obtain ⟨late',none,same⟩ := late_interrupt late done
    refine ⟨late',?_,by rw [same]⟩
    intro d member
    rw [List.mem_singleton.mp member]
    exact none
  | Yield registers frame =>
    obtain ⟨late',same⟩ := late_yield late done
    exact ⟨late',by simp [Event.delivery],by rw [same]⟩
  | Start newThread registers frame =>
    obtain ⟨t,started,same⟩ := Option.map_eq_some_iff.mp done
    cases same
    rw [System.Start,if_pos late.running] at started
    cases started
    exact ⟨late,by simp [Event.delivery],rfl⟩
  | CreateThread stack newThread entry0 =>
    cases done
    exact ⟨⟨createThread_running.trans late.running,late.timer,late.yield⟩,by simp [Event.delivery],rfl⟩
  | ThreadExit registers frame =>
    rw [Event.exec] at done
    split at done
    · cases done
    · have dropped : Late { s with scheduler := s.scheduler.dropCurrent } := ⟨late.running,late.timer,late.yield⟩
      obtain ⟨late',same⟩ := late_yield dropped done
      exact ⟨late',by simp [Event.delivery],by rw [same]⟩
  | SetFrequency freq =>
    obtain ⟨pit,set,same⟩ := Option.map_eq_some_iff.mp done
    cases same
    exact ⟨⟨late.running,late.timer,late.yield⟩,by simp [Event.delivery],PIT.setFrequency_TimeSinceInit set⟩
  | AddTimer handler intervalS =>
    cases done
    exact ⟨⟨late.running,late.timer,late.yield⟩,by simp [Event.delivery],PIT.addTimer_TimeSinceInit _ _ _⟩
  | RemoveTimer handler =>
    cases done
    exact ⟨⟨late.running,late.timer,late.yield⟩,by simp [Event.delivery],PIT.removeTimer_TimeSinceInit _ _⟩

/-- Only an interrupt of the timer is delivered. -/
theorem delivery_nonempty (s s' : System) (ticks : Nat) : (∃ d, d ∈ e.delivery s s' ticks) ↔ e.isPIT := by
  cases e with
  | PIT registers frame => exact ⟨fun _ => trivial,fun _ => ⟨_,List.mem_singleton_self _⟩⟩
  | _ =>
    constructor
    · rintro ⟨_,member⟩
      cases member
    · exact False.elim

/-- The phase of a run, and its interrupts. -/
theorem run_phase (run : Run call es s log) :
    ((∀ e ∈ es, ¬ e.isStart) → Early s) ∧ ((∃ e ∈ es, e.isStart) → Late s) ∧
      ((∀ d ∈ log, d.Ticked call) ↔ es.Pairwise (fun e e' => e.isStart → ¬ e'.isPIT)) := by
  induction run with
  | start initial => exact ⟨fun _ => ⟨initial.2.1,initial.2.2.1,initial.2.2.2⟩,by simp,by simp⟩
  | @step es s s' log e ticks earlier done ih =>
    obtain ⟨early,late,ticked⟩ := ih
    have more : (es ++ [e]).Pairwise (fun e e' => e.isStart → ¬ e'.isPIT) ↔
        es.Pairwise (fun e e' => e.isStart → ¬ e'.isPIT) ∧ ∀ a ∈ es, a.isStart → ¬ e.isPIT := by
      simp [List.pairwise_append]
    rw [more,← ticked]
    simp only [List.mem_append,List.mem_singleton]
    by_cases started : ∃ a ∈ es, a.isStart
    · obtain ⟨late',silent,_⟩ := late_exec (late started) done
      obtain ⟨first,member,isStart⟩ := started
      refine ⟨fun none => absurd isStart (none first (.inl member)),fun _ => late',fun all => ⟨fun d old => all d (.inl old),?_⟩,?_⟩
      · intro _ _ _ isPIT
        obtain ⟨d,new⟩ := (delivery_nonempty s s' ticks).mpr isPIT
        have once := (all d (.inr new)).1
        rw [silent d new] at once
        cases once
      · rintro ⟨all,none⟩ d (old | new)
        · exact all d old
        · exact absurd ((delivery_nonempty _ _ _).mp ⟨d,new⟩) (none first member isStart)
    · obtain ⟨starts,stays,counted⟩ := early_exec (early (fun a member isStart => started ⟨a,member,isStart⟩)) done
      refine ⟨fun none => stays (none e (.inr rfl)),?_,fun all => ⟨fun d old => all d (.inl old),?_⟩,?_⟩
      · rintro ⟨a,old | rfl,isStart⟩
        · exact absurd ⟨a,old,isStart⟩ started
        · exact starts isStart
      · exact fun a member isStart => absurd ⟨a,member,isStart⟩ started
      · rintro ⟨all,_⟩ d (old | new)
        · exact all d old
        · exact counted d new

/-- The interrupts of a run are all counted just when none of them is delivered after `Start`. -/
theorem run_ticked (run : Run call es s log) :
    (∀ d ∈ log, d.Ticked call) ↔ es.Pairwise (fun e e' => e.isStart → ¬ e'.isPIT) := (run_phase run).2.2

/-- Events one after another. -/
abbrev Steps (call : Code) : System → System → Prop :=
  Relation.ReflTransGen (fun s s' => ∃ (e : Event) (ticks : Nat), e.exec call s = some (s',ticks))

/-- After `Start` the time stands still. -/
theorem steps_TimeSinceInit (late : Late s) (steps : Steps call s s') :
    Late s' ∧ s'.pit.TimeSinceInit = s.pit.TimeSinceInit := by
  induction steps with
  | refl => exact ⟨late,rfl⟩
  | tail _ step ih =>
    obtain ⟨late',same⟩ := ih
    obtain ⟨e,ticks,done⟩ := step
    obtain ⟨late'',_,still⟩ := late_exec late' done
    exact ⟨late'',still.trans same⟩

/-- After `Start` a call of `Sleep` does not end, whatever happens in the meantime. -/
theorem sleep_never_ends {seconds : Float} {later : List System} (run : Run call es s log) (started : ∃ e ∈ es, e.isStart)
    (steps : ∀ s' ∈ later, Steps call s s') (positive : 0.0 < seconds)
    (short : s.pit.TimeSinceInit - s.pit.TimeSinceInit < seconds) :
    s.pit.Sleep seconds (later.map (fun s' => s'.pit.TimeSinceInit)) = none := by
  refine PIT.sleep_stuck ?_ positive short
  intro t member
  obtain ⟨s',reached,rfl⟩ := List.mem_map.mp member
  exact (steps_TimeSinceInit ((run_phase run).2.1 started) (steps s' reached)).2

/-- Cleared globals. -/
def cleared : PIT.State := ⟨0,0.0,fun _ => ⟨0,0.0,0.0,false⟩,0⟩

/-- The boot code before it starts the scheduler. -/
def boot : System where
  pit := cleared.Initialize.getD cleared
  scheduler := ⟨false,0,0,.empty,0,fun _ => { ThreadID := 0, CurrentTimeQuantum := 0 }⟩
  GlobalInterruptTable := fun inter => match inter with
    | .PIT => .hPitTick
    | .TaskYield => .hStub

theorem boot_initial : boot.Initial := ⟨⟨cleared,rfl⟩,rfl,rfl,rfl⟩

/-- Timers whose handlers do nothing. -/
def idle : Code := fun _ s => s

/-- An interrupt of the timer that is delivered before `Start`. -/
theorem run_ticked_early : ∃ s d, Run idle [.PIT {} {},.Start 0x5000 {} {}] s [d] ∧ d.Ticked idle := by
  have run : Run idle ([] ++ [.PIT {} {}] ++ [.Start 0x5000 {} {}]) _ _ := ((Run.start boot_initial).step rfl).step rfl
  exact ⟨_,_,run,(run_ticked run).mpr (by simp [Event.isPIT]) _ (by simp [Event.delivery])⟩

/-- An interrupt of the timer that is delivered after `Start`. -/
theorem run_unticked : ∃ s d, Run idle [.Start 0x5000 {} {},.PIT {} {}] s [d] ∧ ¬ d.Ticked idle := by
  have run : Run idle ([] ++ [.Start 0x5000 {} {}] ++ [.PIT {} {}]) _ _ := ((Run.start boot_initial).step rfl).step rfl
  refine ⟨_,_,run,?_⟩
  intro ticked
  have once := ticked.1
  cases once

end WaifuOS.TimerRuns
