import WaifuOS.Lists

/-!
The round robin scheduler of `Scheduling.cpp`. Threads are objects behind pointers,
`ReadyQueue` holds the pointers of those that wait, and an interrupt hands the saved
registers and the frame of the interrupted code to the handler, which returns those
that are restored; every handler returns. `taskSwitches` tells which interrupts reach `TaskSwitch`, the only handler
code that adds to the queue (`handle_mArraySize`).
-/
namespace WaifuOS.Scheduler
open WaifuOS.Words

structure InterruptFrame where
  rip : Nat := 0
  cs : Nat := 0
  rflags : Nat := 0
  rsp : Nat := 0
  ss : Nat := 0

/-- The saved registers; floating point ones are kept as bits. -/
structure RegisterState where
  rax : Nat := 0
  rbx : Nat := 0
  rcx : Nat := 0
  rdx : Nat := 0
  rsi : Nat := 0
  rdi : Nat := 0
  rbp : Nat := 0
  r8 : Nat := 0
  r9 : Nat := 0
  r10 : Nat := 0
  r11 : Nat := 0
  r12 : Nat := 0
  r13 : Nat := 0
  r14 : Nat := 0
  r15 : Nat := 0
  ds : Nat := 0
  es : Nat := 0
  fs : Nat := 0
  gs : Nat := 0
  mm : Fin 8 → Nat := fun _ => 0
  ymm : Fin 16 → Fin 4 → Nat := fun _ _ => 0

structure Thread where
  ThreadID : Nat
  CurrentTimeQuantum : Int
  StackBaseAddress : Nat := 0
  Registers : RegisterState := {}
  InterruptFrame : InterruptFrame := {}

/-- The globals of namespace `Scheduler`, and the threads that pointers point to. -/
structure State where
  Running : Bool
  YieldedTime : Int
  NextThreadID : Nat
  ReadyQueue : KernelList Nat
  CurrentThread : Nat
  threads : Nat → Thread

namespace State

def GetTimeQuantum (s : State) : Int := (200 / (s.ReadyQueue.GetCount + 1) : Nat)

/-- The state after a write to the thread behind a pointer. -/
def update (s : State) (pointer : Nat) (f : Thread → Thread) : State :=
  { s with threads := Function.update s.threads pointer (f (s.threads pointer)) }

def TaskSwitchOnEnd (s : State) : Option (State × RegisterState × InterruptFrame) := do
  let CurrentThread := (s.ReadyQueue.Get 0).2
  let s := { s with CurrentThread, ReadyQueue := s.ReadyQueue.RemoveAt 0 }
  let thread := s.threads CurrentThread
  let s := s.update CurrentThread (fun thread => { thread with CurrentTimeQuantum := s.GetTimeQuantum })
  some (s,thread.Registers,thread.InterruptFrame)

/-- `TaskSwitch`: the current thread is saved and queued; the rest is `TaskSwitchOnEnd` again. -/
def TaskSwitch (s : State) (registers : RegisterState) (frame : InterruptFrame) :
    Option (State × RegisterState × InterruptFrame) :=
  let s := s.update s.CurrentThread (fun thread =>
    { thread with InterruptFrame := frame, Registers := registers, CurrentTimeQuantum := 0 })
  let s := { s with ReadyQueue := s.ReadyQueue.Add s.CurrentThread }
  s.TaskSwitchOnEnd

/-- `if (!timeMs) timeMs = 1`. -/
def elapsed (timeMs : Nat) : Nat := if timeMs = 0 then 1 else timeMs

/-- `TimerInterrupt`, where `timeMs` is what `(1.0 / PIT::GetFrequency()) * 1000` comes to. -/
def TimerInterrupt (s : State) (timeMs : Nat) (registers : RegisterState) (frame : InterruptFrame) :
    Option (State × RegisterState × InterruptFrame) :=
  if !s.Running ∨ s.ReadyQueue.GetCount ≤ 0 then some (s,registers,frame)
  else if s.CurrentThread = 0 then s.TaskSwitchOnEnd
  else
    let s := s.update s.CurrentThread (fun thread =>
      { thread with CurrentTimeQuantum := thread.CurrentTimeQuantum - elapsed timeMs })
    if (s.threads s.CurrentThread).CurrentTimeQuantum ≤ 0 then s.TaskSwitch registers frame
    else some (s,registers,frame)

def hTaskYield (s : State) (registers : RegisterState) (frame : InterruptFrame) :
    Option (State × RegisterState × InterruptFrame) :=
  if !s.Running ∨ s.CurrentThread = 0 then some (s,registers,frame)
  else
    let s := { s with YieldedTime := s.YieldedTime + (s.threads s.CurrentThread).CurrentTimeQuantum }
    let s := s.update s.CurrentThread (fun thread => { thread with CurrentTimeQuantum := 0 })
    s.TaskSwitch registers frame

/-- `PAGE_SIZE * 4`. -/
def defaultStackSize : Nat := 0x4000

/-- `CreateThread` with the stack from `calloc` and the object from `new`. The stack
    pointer counts in elements of four bytes. -/
def CreateThread (s : State) (stack newThread entry0 : Nat) : State :=
  if !s.Running then s
  else
    let ThreadID := s.NextThreadID
    let top := wrap (stack + 4 * (defaultStackSize - 3))
    let thread : Thread :=
      { ThreadID
        CurrentTimeQuantum := s.GetTimeQuantum
        StackBaseAddress := stack
        -- `FLAGS::IF | FLAGS::RSV0`
        InterruptFrame := { rip := entry0, cs := 0x08, rflags := 0x202, rsp := top, ss := 0x10 }
        Registers := { rdi := ThreadID, rbp := wrap (top + 4), ds := 0x10, es := 0x10, fs := 0x10, gs := 0x10 } }
    let s := { s with NextThreadID := s.NextThreadID + 1 }
    let s := s.update newThread (fun _ => thread)
    { s with ReadyQueue := s.ReadyQueue.Add newThread }

/-- The last line of the part of `ThreadExit` that runs with interrupts off. -/
def dropCurrent (s : State) : State := { s with CurrentThread := 0 }

/-- The state after `Start`: the code that called it is the only thread. -/
def started (pointer : Nat) (registers : RegisterState) (frame : InterruptFrame) : State where
  Running := true
  YieldedTime := 0
  NextThreadID := 1
  ReadyQueue := .empty
  CurrentThread := pointer
  threads := fun _ => { ThreadID := 0, CurrentTimeQuantum := 200, Registers := registers, InterruptFrame := frame }

end State

/-- The interrupts that reach the scheduler, with what the CPU and the stub saved. -/
inductive Interrupt
  | timer (timeMs : Nat) (registers : RegisterState) (frame : InterruptFrame)
  | yield (registers : RegisterState) (frame : InterruptFrame)

namespace Interrupt

def handle (s : State) : Interrupt → Option (State × RegisterState × InterruptFrame)
  | .timer timeMs registers frame => s.TimerInterrupt timeMs registers frame
  | .yield registers frame => s.hTaskYield registers frame

/-- Whether the code that runs has called for the interrupt. -/
def called : Interrupt → Bool
  | .timer _ _ _ => false
  | .yield _ _ => true

/-- Whether the handler reaches `TaskSwitch`. -/
def taskSwitches (s : State) : Interrupt → Bool
  | .timer timeMs _ _ => s.Running && decide (0 < s.ReadyQueue.GetCount) && decide (s.CurrentThread ≠ 0) &&
      decide ((s.threads s.CurrentThread).CurrentTimeQuantum ≤ State.elapsed timeMs)
  | .yield _ _ => s.Running && decide (s.CurrentThread ≠ 0)

/-- Whether the handler has to allocate. -/
def allocates (s : State) (i : Interrupt) : Bool := i.taskSwitches s && s.ReadyQueue.full

end Interrupt

variable {s s' : State} {i : Interrupt} {registers registers' : RegisterState} {frame frame' : InterruptFrame}

namespace State
@[simp] theorem update_CurrentThread {p : Nat} {f : Thread → Thread} : (s.update p f).CurrentThread = s.CurrentThread := rfl
@[simp] theorem update_self {p : Nat} {f : Thread → Thread} : (s.update p f).threads p = f (s.threads p) :=
  Function.update_self ..

theorem taskSwitchOnEnd_mArraySize (returned : s.TaskSwitchOnEnd = some (s',registers',frame')) :
    s'.ReadyQueue.mArraySize = s.ReadyQueue.mArraySize := by
  rw [TaskSwitchOnEnd] at returned
  cases returned
  exact KernelList.removeAt_mArraySize

theorem taskSwitch_mArraySize (returned : s.TaskSwitch registers frame = some (s',registers',frame')) :
    s'.ReadyQueue.mArraySize = if s.ReadyQueue.full then wrap (s.ReadyQueue.mArraySize + 5) else s.ReadyQueue.mArraySize :=
  (taskSwitchOnEnd_mArraySize returned).trans KernelList.add_mArraySize

end State

/-- A handler that reaches `TaskSwitch` reaches it with the queue as it was. -/
theorem handle_of_switches (on : i.taskSwitches s = true) : ∃ (t : State) (registers : RegisterState) (frame : InterruptFrame),
    t.ReadyQueue = s.ReadyQueue ∧ i.handle s = t.TaskSwitch registers frame := by
  cases i with
  | timer timeMs registers frame =>
    simp only [Interrupt.taskSwitches,Bool.and_eq_true,decide_eq_true_eq] at on
    obtain ⟨⟨⟨running,some_ready⟩,current⟩,ended⟩ := on
    refine ⟨s.update s.CurrentThread (fun thread =>
      { thread with CurrentTimeQuantum := thread.CurrentTimeQuantum - State.elapsed timeMs }),
      registers,frame,rfl,?_⟩
    rw [Interrupt.handle,State.TimerInterrupt,if_neg (by simp [running]; omega),if_neg current]
    simp only [State.update_CurrentThread,State.update_self]
    rw [if_pos (by omega)]
  | yield registers frame =>
    simp only [Interrupt.taskSwitches,Bool.and_eq_true,decide_eq_true_eq] at on
    obtain ⟨running,current⟩ := on
    refine ⟨State.update { s with YieldedTime := s.YieldedTime + (s.threads s.CurrentThread).CurrentTimeQuantum }
      s.CurrentThread (fun thread => { thread with CurrentTimeQuantum := 0 }),registers,frame,rfl,?_⟩
    rw [Interrupt.handle,State.hTaskYield,if_neg (by simp [running,current])]

/-- A handler that does not reach `TaskSwitch` adds nothing to the queue. -/
theorem handle_of_not_switches (off : i.taskSwitches s = false) (returned : i.handle s = some (s',registers',frame')) :
    s'.ReadyQueue.mArraySize = s.ReadyQueue.mArraySize := by
  cases i with
  | timer timeMs registers frame =>
    rw [Interrupt.handle,State.TimerInterrupt] at returned
    by_cases idle : !s.Running ∨ s.ReadyQueue.GetCount ≤ 0
    · rw [if_pos idle] at returned
      cases returned
      rfl
    · rw [if_neg idle] at returned
      by_cases gone : s.CurrentThread = 0
      · rw [if_pos gone] at returned
        exact State.taskSwitchOnEnd_mArraySize returned
      · -- The thread goes on, since its quantum is not over.
        have left : ¬ (s.threads s.CurrentThread).CurrentTimeQuantum - State.elapsed timeMs ≤ 0 := by
          intro ended
          have on : (Interrupt.timer timeMs registers frame).taskSwitches s = true := by
            simp only [not_or,Bool.not_eq_true',Bool.not_eq_false] at idle
            simp [Interrupt.taskSwitches,idle.1,gone]
            omega
          rw [off] at on
          cases on
        simp only [if_neg gone,State.update_CurrentThread,State.update_self,if_neg left] at returned
        cases returned
        rfl
  | yield registers frame =>
    rw [Interrupt.handle,State.hTaskYield] at returned
    by_cases idle : !s.Running ∨ s.CurrentThread = 0
    · rw [if_pos idle] at returned
      cases returned
      rfl
    · have on : (Interrupt.yield registers frame).taskSwitches s = true := by simpa [Interrupt.taskSwitches] using idle
      rw [off] at on
      cases on

/-- The array of the queue grows in the handlers that allocate, and in no others. -/
theorem handle_mArraySize (returned : i.handle s = some (s',registers',frame')) : s'.ReadyQueue.mArraySize =
    if i.allocates s then wrap (s.ReadyQueue.mArraySize + 5) else s.ReadyQueue.mArraySize := by
  rw [Interrupt.allocates]
  cases reached : i.taskSwitches s with
  | true =>
    obtain ⟨t,registers,frame,queue,handled⟩ := handle_of_switches reached
    have grown := State.taskSwitch_mArraySize (handled.symm.trans returned)
    rw [queue] at grown
    simpa using grown
  | false => simpa using handle_of_not_switches reached returned

end WaifuOS.Scheduler
