import WaifuOS.SchedulerRuns
import Mathlib.Algebra.BigOperators.Group.Finset.Basic

/-!
How long a thread waits. `TimerInterrupt` takes from the quantum of the current thread what
has passed since the last one, a thread whose quantum is used up goes to the end of the queue, and the
next one gets a quantum that is the smaller the more threads there are. So a thread at
position `k` of the queue runs before the timer has ticked `patience k` times, whatever
the threads do meanwhile (`run_waits`): a switch that another event makes comes instead of one of the
timer (`exec_left`), and threads that are created later wait behind it.
-/
namespace WaifuOS.Scheduler
open WaifuOS.Words WaifuOS.RoundRobin

/-- What is left of the quantum of the current thread. -/
def State.quantum (s : State) : Int := (s.threads s.CurrentThread).CurrentTimeQuantum

/-- The ticks of the timer in which the current thread gives way at the latest. -/
def State.left (s : State) : Nat := if s.CurrentThread = 0 then 1 else max 1 s.quantum.toNat

/-- The ticks of a turn when there are `n` threads. -/
def turn (n : Nat) : Nat := max 1 (200 / n)

/-- The ticks of the turns of those that run before the thread at position `k`, after the current one. -/
def ahead (k : Nat) : Nat := ∑ m ∈ Finset.range k, turn (m+2)

/-- The ticks until the thread at position `k` of the queue runs. -/
def patience (k : Nat) : Nat := ∑ m ∈ Finset.range (k+1), turn (m+1)

def Event.isTick : Event → Bool
  | .interrupt (.timer _ _ _) => true
  | _ => false

/-- The ticks among events of the scheduler and other steps. -/
def ticks (events : List (Option Event)) : Nat := events.countP (fun e => e.any Event.isTick)

section Systems
variable {S : Type*}

/-- A system that the scheduler is a part of: its steps are events of the scheduler, or leave it as it is. -/
structure Schedules (scheduler : S → State × History) (step : S → Option Event → S → Prop) : Prop where
  event : ∀ {a e b}, step a (some e) b → e.Allowed (scheduler a).2 ∧ e.exec (scheduler a).1 = some (scheduler b).1 ∧
    (scheduler b).2 = e.record (scheduler a).1 (scheduler a).2
  other : ∀ {a b}, step a none b → scheduler b = scheduler a

/-- Steps one after another. -/
inductive Path (step : S → Option Event → S → Prop) : S → List (Option Event) → S → Prop
  | refl {a : S} : Path step a [] a
  | step {a b c : S} {e : Option Event} {events : List (Option Event)} (first : step a e b) (more : Path step b events c) :
      Path step a (e :: events) c

end Systems

/-- The scheduler by itself. -/
def exec : State × History → Option Event → State × History → Prop
  | (s,h), some e, (s',h') => e.Allowed h ∧ e.exec s = some s' ∧ h' = e.record s h
  | _, none, _ => False

theorem exec_schedules : Schedules id exec where
  event := fun happens => happens
  other := fun never => never.elim

variable {s s' : State} {h h' : History} {e : Event} {i : Interrupt} {t k : Nat} {events : List (Option Event)}
  {registers registers' : RegisterState} {frame frame' : InterruptFrame}

theorem turn_le (n : Nat) : turn n ≤ 200 := by
  have small := Nat.div_le_self 200 n
  simp only [turn]
  omega

/-- The more threads there are, the shorter is a turn. -/
theorem turn_antitone {m n : Nat} (some_thread : 0 < m) (le : m ≤ n) : turn n ≤ turn m := by
  have shorter : 200 / n ≤ 200 / m := Nat.div_le_div_left le some_thread
  simp only [turn]
  omega

theorem ahead_succ (k : Nat) : ahead (k+1) = ahead k + turn (k+2) := Finset.sum_range_succ _ _

theorem patience_eq (k : Nat) : patience k = 200 + ahead k := by
  rw [patience,Finset.sum_range_succ',Nat.add_comm]
  rfl

theorem left_pos (s : State) : 1 ≤ s.left := by
  simp only [State.left]
  split <;> omega

/-- The thread that `TaskSwitchOnEnd` makes run gets its share. -/
theorem taskSwitchOnEnd_quantum (returned : s.TaskSwitchOnEnd = some (s',registers',frame')) :
    s'.quantum = (200 / (s'.ReadyQueue.mCount + 1) : Nat) := by
  rw [State.TaskSwitchOnEnd] at returned
  cases returned
  simp only [State.quantum,State.update_CurrentThread,State.update_self]
  rfl

/-- So does the one that a handler switches to. -/
theorem handle_quantum (running : s.Running = true) (on : i.switches s = true) (returned : i.handle s = some (s',registers',frame')) :
    s'.quantum = (200 / (s'.ReadyQueue.mCount + 1) : Nat) := by
  rcases Bool.or_eq_true_iff.mp on with switches | takes
  · obtain ⟨u,registers,frame,_,handled⟩ := handle_of_switches switches
    rw [handled] at returned
    exact taskSwitchOnEnd_quantum returned
  · cases i with
    | timer timeMs registers frame =>
      simp only [Interrupt.takes,running,Bool.true_and,Bool.and_eq_true,decide_eq_true_eq] at takes
      rw [Interrupt.handle,State.TimerInterrupt,if_neg (by simp [running]; omega),if_pos takes.2] at returned
      exact taskSwitchOnEnd_quantum returned
    | yield registers frame => cases takes

/-- A turn that begins has the length for the threads that there are then. -/
theorem switch_left (running : s.Running = true) (on : e.switches s = true) (done : e.exec s = some s') :
    s'.left ≤ turn (s'.ReadyQueue.elements.length + 1) := by
  cases e with
  | CreateThread stack newThread entry0 => cases on
  | interrupt i =>
    obtain ⟨⟨u,registers',frame'⟩,returned,same⟩ := Option.map_eq_some_iff.mp done
    cases same
    have share := handle_quantum running on returned
    rw [KernelList.elements_length,State.left,share,Int.toNat_natCast,turn]
    dsimp only
    split <;> omega
  | ThreadExit registers frame => cases on

/-- When nobody waits, a tick does nothing. -/
theorem tick_idle (tick : e.isTick = true) (idle : s.ReadyQueue.elements = []) (done : e.exec s = some s') : s' = s := by
  have empty : s.ReadyQueue.mCount = 0 := by rw [← KernelList.elements_length,idle,List.length_nil]
  cases e with
  | CreateThread stack newThread entry0 => cases tick
  | ThreadExit registers frame => cases tick
  | interrupt i =>
    cases i with
    | yield registers frame => cases tick
    | timer timeMs registers frame =>
      rw [Event.exec,Interrupt.handle,State.TimerInterrupt,if_pos (.inr (Nat.le_of_eq empty))] at done
      exact (Option.some.inj done).symm

/-- Without a switch the turn goes on, and each tick shortens it. -/
theorem stay_left (sound : Sound s h) (allowed : e.Allowed h) (off : e.switches s = false) (done : e.exec s = some s')
    (some_waits : e.isTick = true → s.ReadyQueue.elements ≠ []) : s'.left + e.isTick.toNat ≤ s.left := by
  cases e with
  | CreateThread stack newThread entry0 =>
    cases done
    have on : ¬ (!s.Running) = true := by simp [sound.running]
    simp only [State.CreateThread,if_neg on,State.left,State.quantum,State.update_CurrentThread]
    by_cases gone : s.CurrentThread = 0
    · simp [gone,Event.isTick]
    · -- The new thread is apart from the current one.
      have other : s.CurrentThread ≠ newThread := by
        have apart := allowed.2.2 s.CurrentThread (sound.current gone)
        simp only [threadSize] at apart
        omega
      simp [gone,Event.isTick,State.update,Function.update_of_ne other]
  | interrupt i =>
    have quiet : i.switches s = false := off
    rw [Interrupt.switches,Bool.or_eq_false_iff] at quiet
    cases i with
    | timer timeMs registers frame =>
      have waits : 0 < s.ReadyQueue.mCount := by
        rw [← KernelList.elements_length]
        exact List.length_pos_of_ne_nil (some_waits rfl)
      have present : s.CurrentThread ≠ 0 := by
        intro gone
        have takes := quiet.2
        simp [Interrupt.takes,sound.running,gone,KernelList.GetCount,waits] at takes
      have lasts : ¬ (s.threads s.CurrentThread).CurrentTimeQuantum ≤ State.elapsed timeMs := by
        have stays := quiet.1
        simp only [Interrupt.taskSwitches,sound.running,present,KernelList.GetCount,waits,ne_eq,not_false_eq_true,decide_true,
          Bool.true_and,decide_eq_false_iff_not] at stays
        exact stays
      have passed : 1 ≤ State.elapsed timeMs := by
        simp only [State.elapsed]
        split <;> omega
      rw [Event.exec,Interrupt.handle,State.TimerInterrupt,if_neg (by simp [sound.running,KernelList.GetCount]; omega),
        if_neg present] at done
      simp only [State.update_CurrentThread,State.update_self] at done
      rw [if_neg (by omega)] at done
      cases done
      simp only [State.left,State.quantum,State.update_CurrentThread,State.update_self,if_neg present,Event.isTick,Bool.toNat_true]
      omega
    | yield registers frame =>
      have gone : s.CurrentThread = 0 := by simpa [Interrupt.taskSwitches,sound.running] using quiet.1
      rw [Event.exec,Interrupt.handle,State.hTaskYield,if_pos (.inr gone)] at done
      cases done
      exact Nat.le_refl _
  | ThreadExit registers frame =>
    have some_thread : s.CurrentThread ≠ 0 := by
      intro gone
      rw [Event.exec,if_pos gone] at done
      cases done
    rw [threadExit_exec some_thread] at done
    cases done
    exact left_pos s

/-- No turn is longer than 200 ticks. -/
theorem run_left (run : Run s h) : s.left ≤ 200 := by
  induction run with
  | @start pointer registers frame some_thread inside =>
    have first : (State.started pointer registers frame).left = 200 := if_neg some_thread
    exact Nat.le_of_eq first
  | @step s s' h e earlier allowed done ih =>
    have sound := run_sound earlier
    cases on : e.switches s with
    | true => exact (switch_left sound.running on done).trans (turn_le _)
    | false =>
      by_cases idle : e.isTick = true ∧ s.ReadyQueue.elements = []
      · rw [tick_idle idle.1 idle.2 done]
        exact ih
      · have shorter := stay_left sound allowed on done (fun tick nobody => idle ⟨tick,nobody⟩)
        omega

/-- A thread that waits stays where it is, or comes one place nearer, with the turns that it waits for shortened by each tick. -/
theorem exec_waits (run : Run s h) (allowed : e.Allowed h) (done : e.exec s = some s') (waits : s.ReadyQueue.elements[k]? = some t) :
    s'.CurrentThread = t ∨ ∃ k', s'.ReadyQueue.elements[k']? = some t ∧ s'.left + ahead k' + e.isTick.toNat ≤ s.left + ahead k := by
  have sound := run_sound run
  obtain ⟨added,same⟩ := (exec_simulates sound done).1.order
  have inside := (List.getElem?_eq_some_iff.mp waits).1
  have waits' : (s.ReadyQueue.elements ++ added)[k]? = some t := by rw [List.getElem?_append_left inside,waits]
  rw [show s.ReadyQueue.elements ++ added = _ from same] at waits'
  cases on : e.switches s with
  | false =>
    rw [Event.next,if_neg (by simp [on])] at waits'
    have stays := stay_left sound allowed on done (fun _ => List.ne_nil_of_length_pos (Nat.zero_lt_of_lt inside))
    exact .inr ⟨k,waits',by omega⟩
  | true =>
    rw [Event.next,if_pos on] at waits'
    have begins := switch_left sound.running on done
    cases k with
    | zero => exact .inl (Option.some.inj waits')
    | succ k =>
      have waits' : s'.ReadyQueue.elements[k]? = some t := waits'
      have behind := (List.getElem?_eq_some_iff.mp waits').1
      have shorter := turn_antitone (m := k+2) (by omega) (show k+2 ≤ s'.ReadyQueue.elements.length + 1 by omega)
      have one : e.isTick.toNat ≤ s.left := by
        have := left_pos s
        have := Bool.toNat_le e.isTick
        omega
      exact .inr ⟨k,waits',by rw [ahead_succ]; omega⟩
section Systems
variable {S : Type*} {scheduler : S → State × History} {step : S → Option Event → S → Prop} {a b : S}

/-- On a path with so many ticks, the thread runs at some point. -/
theorem path_runs (schedules : Schedules scheduler step) (run : Run (scheduler a).1 (scheduler a).2) (path : Path step a events b)
    (waits : (scheduler a).1.ReadyQueue.elements[k]? = some t) (enough : (scheduler a).1.left + ahead k ≤ ticks events) :
    ∃ before after c, events = before ++ after ∧ Path step a before c ∧ (scheduler c).1.CurrentThread = t ∧ Path step c after b := by
  induction path generalizing k with
  | @refl a =>
    have := left_pos (scheduler a).1
    simp only [ticks,List.countP_nil] at enough
    omega
  | @step a c b e events first more ih =>
    cases e with
    | none =>
      have same := schedules.other first
      rw [← same] at run waits enough
      obtain ⟨before,after,d,split,reached,runs,rest⟩ := ih run waits (by simpa [ticks] using enough)
      exact ⟨none :: before,after,d,congrArg (none :: ·) split,.step first reached,runs,rest⟩
    | some e =>
      obtain ⟨allowed,done,record⟩ := schedules.event first
      have run' : Run (scheduler c).1 (scheduler c).2 := by
        rw [record]
        exact .step run allowed done
      rcases exec_waits run allowed done waits with runs | ⟨k',waits',nearer⟩
      · exact ⟨[some e],events,c,rfl,.step first .refl,runs,more⟩
      · have counted : ticks (some e :: events) = ticks events + e.isTick.toNat := by
          rw [ticks,List.countP_cons,ticks]
          cases tick : e.isTick <;> simp [tick]
        obtain ⟨before,after,d,split,reached,runs,rest⟩ := ih run' waits' (by omega)
        exact ⟨some e :: before,after,d,congrArg (some e :: ·) split,.step first reached,runs,rest⟩

/-- In every system that the scheduler is a part of, the thread that waits at position `k` has run before the timer has
    ticked `patience k` times. -/
theorem path_waits (schedules : Schedules scheduler step) (run : Run (scheduler a).1 (scheduler a).2) (path : Path step a events b)
    (waits : (scheduler a).1.ReadyQueue.elements[k]? = some t) (enough : patience k ≤ ticks events) :
    ∃ before after c, events = before ++ after ∧ Path step a before c ∧ (scheduler c).1.CurrentThread = t ∧ Path step c after b := by
  have bound := run_left run
  rw [patience_eq] at enough
  exact path_runs schedules run path waits (by omega)

end Systems

/-- The thread that waits at position `k` has run before the timer has ticked `patience k` times,
    whatever the threads do meanwhile. -/
theorem run_waits (run : Run s h) (path : Path exec (s,h) events (s',h')) (waits : s.ReadyQueue.elements[k]? = some t)
    (enough : patience k ≤ ticks events) : ∃ before after u g, events = before ++ after ∧ Path exec (s,h) before (u,g) ∧
      u.CurrentThread = t ∧ Path exec (u,g) after (s',h') := by
  obtain ⟨before,after,⟨u,g⟩,split,reached,runs,rest⟩ := path_waits (a := (s,h)) exec_schedules run path waits enough
  exact ⟨before,after,u,g,split,reached,runs,rest⟩

/-- The timer can tick on and on. -/
theorem exists_ticks (run : Run s h) (n : Nat) : ∃ events s' h', Path exec (s,h) events (s',h') ∧ ticks events = n := by
  induction n generalizing s h with
  | zero => exact ⟨[],s,h,.refl,rfl⟩
  | succ n ih =>
    have sound := run_sound run
    obtain ⟨s',registers,frame,returned,_⟩ := handle_handled (.timer 5 {} {}) sound.running sound.room
    have done : (Event.interrupt (.timer 5 {} {})).exec s = some s' := by rw [Event.exec,returned]; rfl
    have allowed : (Event.interrupt (.timer 5 {} {})).Allowed h := trivial
    obtain ⟨events,u,g,path,count⟩ := ih (.step run allowed done)
    have first : exec (s,h) (some (.interrupt (.timer 5 {} {}))) (s',_) := ⟨allowed,done,rfl⟩
    refine ⟨_,u,g,.step first path,?_⟩
    rw [ticks,List.countP_cons_of_pos rfl]
    exact congrArg (· + 1) count

/-- The thread that was created runs within 200 ticks. -/
theorem run_waits_twoThreads : ∃ events before after u g, ticks events = 200 ∧ events = before ++ after ∧
    Path exec (twoThreads,twoThreadsHistory) before (u,g) ∧ u.CurrentThread = 0x2000 := by
  obtain ⟨events,s',h',path,count⟩ := exists_ticks twoThreads_run 200
  have waits : twoThreads.ReadyQueue.elements[0]? = some 0x2000 := by decide +kernel
  obtain ⟨before,after,u,g,split,reached,runs,_⟩ := run_waits twoThreads_run path waits (by rw [count,patience_eq]; exact Nat.le_refl 200)
  exact ⟨events,before,after,u,g,count,split,reached,runs⟩

end WaifuOS.Scheduler
