import WaifuOS.RoundRobin
import WaifuOS.Scheduling
import Mathlib.Data.Finset.Card
import Mathlib.Data.Finset.Range

/-!
Runs of the scheduler after `Start`: threads are created and exit, the timer
ticks and threads yield, in any order and with any registers and frames. The
scheduler is a round robin (`round`, `exec_simulates`), so it keeps the threads
that were created and have not exited (`run_members`), gives each of them back
the context that was saved last (`run_resumes`), and makes those that wait run in
the order of the queue (`run_fifo`). Thread objects and the array of the queue are
objects of their own here; where `CreateThread` writes in the memory is in
`ThreadStacks`.
-/
namespace WaifuOS.Scheduler
open WaifuOS.Words WaifuOS.RoundRobin

/-- `sizeof(Thread)`. -/
def threadSize : Nat := 856

abbrev Context := RegisterState × InterruptFrame

namespace Interrupt

/-- What the CPU and the stub saved. -/
def context : Interrupt → Context
  | .timer _ registers frame => (registers,frame)
  | .yield registers frame => (registers,frame)

/-- Whether the handler reaches `TaskSwitchOnEnd` without a current thread. -/
def takes (s : State) : Interrupt → Bool
  | .timer _ _ _ => s.Running && decide (0 < s.ReadyQueue.GetCount) && decide (s.CurrentThread = 0)
  | .yield _ _ => false

/-- Whether the handler switches to a thread. -/
def switches (s : State) (i : Interrupt) : Bool := i.taskSwitches s || i.takes s

end Interrupt

inductive Event
  | CreateThread (stack newThread entry0 : Nat)
  | interrupt (i : Interrupt)
  | ThreadExit (registers : RegisterState) (frame : InterruptFrame)

/-- The threads that were created and have not exited, and what was saved of each
    thread when it was switched out, or prepared when it was created. -/
structure History where
  live : List Nat
  contexts : Nat → Context

namespace Event

/-- The next state; `ThreadExit` drops the thread and yields without one. -/
def exec (s : State) : Event → Option State
  | .CreateThread stack newThread entry0 => some (s.CreateThread stack newThread entry0)
  | .interrupt i => (i.handle s).map Prod.fst
  | .ThreadExit registers frame =>
    if s.CurrentThread = 0 then none else (s.dropCurrent.hTaskYield registers frame).map Prod.fst

def switches (s : State) : Event → Bool
  | .interrupt i => i.switches s
  | _ => false

/-- The history after the event. -/
def record (s : State) (h : History) : Event → History
  | .CreateThread stack newThread entry0 =>
    let thread := (s.CreateThread stack newThread entry0).threads newThread
    { live := h.live ++ [newThread], contexts := Function.update h.contexts newThread (thread.Registers,thread.InterruptFrame) }
  | .interrupt i =>
    if i.taskSwitches s then { h with contexts := Function.update h.contexts s.CurrentThread i.context } else h
  | .ThreadExit _ _ => { h with live := h.live.erase s.CurrentThread }

/-- `new` returns an object that is apart from those that are in use. -/
def Allowed (h : History) : Event → Prop
  | .CreateThread _ newThread _ => newThread ≠ 0 ∧ newThread + threadSize ≤ 2^64 ∧
      ∀ p ∈ h.live, newThread + threadSize ≤ p ∨ p + threadSize ≤ newThread
  | _ => True

end Event

/-- The states that events lead to from `Start` on, with their histories. -/
inductive Run : State → History → Prop
  | start {pointer : Nat} {registers : RegisterState} {frame : InterruptFrame} (some_thread : pointer ≠ 0)
      (inside : pointer + threadSize ≤ 2^64) : Run (.started pointer registers frame) ⟨[pointer],fun _ => (registers,frame)⟩
  | step {s s' : State} {h : History} {e : Event} (earlier : Run s h) (allowed : e.Allowed h) (done : e.exec s = some s') :
      Run s' (e.record s h)

/-- How a run goes on, with the threads that the switches make current. -/
inductive Continues (s : State) (h : History) : List Nat → State → History → Prop
  | refl : Continues s h [] s h
  | step {s' s'' : State} {h' : History} {current : List Nat} {e : Event} (earlier : Continues s h current s' h')
      (allowed : e.Allowed h') (done : e.exec s' = some s'') :
      Continues s h (current ++ if e.switches s' then [s''.CurrentThread] else []) s'' (e.record s' h')

/-- The thread behind a pointer that may be null. -/
def thread (pointer : Nat) : Option Nat := if pointer = 0 then none else some pointer

/-- The scheduler as a round robin. -/
def round (s : State) : Round Nat Context where
  running := thread s.CurrentThread
  waiting := s.ReadyQueue.elements
  context := fun p => ((s.threads p).Registers,(s.threads p).InterruptFrame)

/-- The current thread, if there is one, and those in `ReadyQueue`. -/
def members (s : State) : List Nat := (round s).members

variable {s s' : State} {h : History} {e : Event} {i : Interrupt} {p t : Nat} {rest : List Nat}
  {registers registers' : RegisterState} {frame frame' : InterruptFrame}

theorem thread_of_ne (some_thread : p ≠ 0) : thread p = some p := if_neg some_thread

theorem thread_injective (same : thread p = thread t) : p = t := by
  simp only [thread] at same
  split at same <;> split at same <;> simp_all

/-- A write to the quantum of a thread changes no context. -/
theorem round_quantum (quantum : Thread → Int) :
    round (s.update p (fun thread => { thread with CurrentTimeQuantum := quantum thread })) = round s := by
  have contexts : (round (s.update p (fun thread => { thread with CurrentTimeQuantum := quantum thread }))).context =
      (round s).context := by
    funext q
    by_cases here : q = p
    · subst here
      simp [round]
    · simp [round,State.update,Function.update_of_ne here]
  exact congrArg (fun context => (⟨thread s.CurrentThread,s.ReadyQueue.elements,context⟩ : Round Nat Context)) contexts

/-- `TaskSwitchOnEnd` takes the first thread of the queue. -/
theorem taskSwitchOnEnd_round (word : s.ReadyQueue.mCount < 2^64) (first : s.ReadyQueue.elements = t :: rest) :
    ∃ s', s.TaskSwitchOnEnd = some (s',(s.threads t).Registers,(s.threads t).InterruptFrame) ∧ s'.CurrentThread = t ∧
      s'.Running = s.Running ∧ round s' = ⟨thread t,rest,(round s).context⟩ := by
  have count : s.ReadyQueue.mCount = rest.length + 1 := by
    rw [← KernelList.elements_length,first,List.length_cons]
  have got : t = (s.ReadyQueue.Get 0).2 := by
    have inside : s.ReadyQueue.elements[0]? = some (s.ReadyQueue.Get 0).2 := KernelList.get_eq (by omega)
    rw [first,List.getElem?_cons_zero] at inside
    exact Option.some.inj inside
  have popped : (s.ReadyQueue.RemoveAt 0).elements = rest := by
    rw [KernelList.elements_removeAt (by omega) word,first]
    rfl
  obtain ⟨u,uIs⟩ : ∃ u : State, u = { s with CurrentThread := t, ReadyQueue := s.ReadyQueue.RemoveAt 0 } := ⟨_,rfl⟩
  refine ⟨u.update t (fun thread => { thread with CurrentTimeQuantum := u.GetTimeQuantum }),?_,by rw [uIs]; rfl,
    by rw [uIs]; rfl,?_⟩
  · rw [State.TaskSwitchOnEnd,← got,uIs]
  · rw [round_quantum (fun _ => u.GetTimeQuantum),uIs]
    simp only [round,popped]

/-- `TaskSwitch` saves and queues the current thread before. -/
theorem taskSwitch_round (registers : RegisterState) (frame : InterruptFrame) (word : s.ReadyQueue.mCount + 1 < 2^64)
    (first : s.ReadyQueue.elements ++ [s.CurrentThread] = t :: rest) :
    ∃ s', s.TaskSwitch registers frame = some (s',Function.update (round s).context s.CurrentThread (registers,frame) t) ∧
      s'.CurrentThread = t ∧ s'.Running = s.Running ∧
      round s' = ⟨thread t,rest,Function.update (round s).context s.CurrentThread (registers,frame)⟩ := by
  have count : (s.ReadyQueue.Add s.CurrentThread).mCount < 2^64 := by
    rw [KernelList.add_mCount]
    exact wrap_lt _
  have queued : (s.ReadyQueue.Add s.CurrentThread).elements = t :: rest := by rw [KernelList.elements_add word,first]
  obtain ⟨saved,savedIs⟩ : ∃ u : State, u = { s.update s.CurrentThread (fun thread =>
      { thread with InterruptFrame := frame, Registers := registers, CurrentTimeQuantum := 0 }) with
    ReadyQueue := s.ReadyQueue.Add s.CurrentThread } := ⟨_,rfl⟩
  have contexts : (round saved).context = Function.update (round s).context s.CurrentThread (registers,frame) := by
    funext q
    by_cases here : q = s.CurrentThread
    · subst here
      simp [savedIs,round,State.update]
    · simp [savedIs,round,State.update,Function.update_of_ne here]
  have queued' : saved.ReadyQueue.elements = t :: rest := by rw [savedIs]; exact queued
  obtain ⟨s',done,current,running,same⟩ := taskSwitchOnEnd_round (by rw [savedIs]; exact count) queued'
  refine ⟨s',?_,current,by rw [running,savedIs]; rfl,by rw [same,contexts]⟩
  have result : ((saved.threads t).Registers,(saved.threads t).InterruptFrame) = (round saved).context t := rfl
  have called : s.TaskSwitch registers frame = saved.TaskSwitchOnEnd := by rw [savedIs]; rfl
  rw [called,done,result,contexts]

/-- What a handler does: nothing to the threads and the context that was interrupted, or a switch. -/
inductive Handled (s : State) (i : Interrupt) : State → Context → Prop
  | stay {s' : State} (off : i.switches s = false) (same : round s' = round s) (running : s'.Running = s.Running) :
      Handled s i s' i.context
  | switch {s' : State} {t : Nat} {rest : List Nat} (on : i.taskSwitches s = true) (current : s.CurrentThread ≠ 0)
      (first : s.ReadyQueue.elements ++ [s.CurrentThread] = t :: rest) (now : s'.CurrentThread = t) (running : s'.Running = s.Running)
      (same : round s' = ⟨thread t,rest,Function.update (round s).context s.CurrentThread i.context⟩) :
      Handled s i s' (Function.update (round s).context s.CurrentThread i.context t)
  | take {s' : State} {t : Nat} {rest : List Nat} (on : i.takes s = true) (gone : s.CurrentThread = 0)
      (first : s.ReadyQueue.elements = t :: rest) (now : s'.CurrentThread = t) (running : s'.Running = s.Running)
      (same : round s' = ⟨thread t,rest,(round s).context⟩) :
      Handled s i s' ((round s).context t)

/-- A switch from a state in which only the quantum of a thread has changed. -/
theorem taskSwitch_handled {u : State} (on : i.taskSwitches s = true) (current : s.CurrentThread ≠ 0)
    (word : s.ReadyQueue.mCount + 1 < 2^64) (same : round u = round s) (here : u.CurrentThread = s.CurrentThread)
    (queue : u.ReadyQueue = s.ReadyQueue) (running : u.Running = s.Running) (context : i.context = (registers,frame)) :
    ∃ s' registers' frame', u.TaskSwitch registers frame = some (s',registers',frame') ∧
      Handled s i s' (registers',frame') := by
  obtain ⟨t,rest,first⟩ : ∃ t rest, s.ReadyQueue.elements ++ [s.CurrentThread] = t :: rest :=
    List.exists_cons_of_ne_nil (by simp)
  obtain ⟨s',done,now,running',after⟩ := taskSwitch_round (s := u) registers frame
    (by rw [queue]; exact word) (by rw [queue,here]; exact first)
  rw [same,here,← context] at after done
  exact ⟨s',_,_,done,.switch on current first now (running'.trans running) after⟩

/-- An interrupt of the timer lets the thread run on until its quantum has passed. -/
theorem timer_handled (timeMs : Nat) (registers : RegisterState) (frame : InterruptFrame) (running : s.Running = true)
    (word : s.ReadyQueue.mCount + 1 < 2^64) : ∃ s' registers' frame',
      (Interrupt.timer timeMs registers frame).handle s = some (s',registers',frame') ∧
      Handled s (.timer timeMs registers frame) s' (registers',frame') := by
  rw [Interrupt.handle,State.TimerInterrupt]
  by_cases idle : s.ReadyQueue.GetCount ≤ 0
  · rw [if_pos (.inr idle)]
    exact ⟨s,registers,frame,rfl,.stay (by simp [Interrupt.switches,Interrupt.taskSwitches,Interrupt.takes,idle]) rfl rfl⟩
  rw [if_neg (by simp [running]; omega)]
  by_cases gone : s.CurrentThread = 0
  · rw [if_pos gone]
    cases first : s.ReadyQueue.elements with
    | nil =>
      have empty := KernelList.elements_length (l := s.ReadyQueue)
      rw [first] at empty
      exact absurd (Nat.le_of_eq empty.symm) idle
    | cons t rest =>
      obtain ⟨s',done,now,running',same⟩ := taskSwitchOnEnd_round (by omega) first
      exact ⟨s',_,_,done,.take (by simp [Interrupt.takes,running,gone]; omega) gone first now running' same⟩
  rw [if_neg gone]
  obtain ⟨u,uIs⟩ : ∃ u : State, u = s.update s.CurrentThread (fun thread =>
      { thread with CurrentTimeQuantum := thread.CurrentTimeQuantum - State.elapsed timeMs }) := ⟨_,rfl⟩
  have same : round u = round s := by rw [uIs]; exact round_quantum _
  have quantum : (u.threads u.CurrentThread).CurrentTimeQuantum =
      (s.threads s.CurrentThread).CurrentTimeQuantum - State.elapsed timeMs := by simp [uIs]
  simp only [← uIs]
  by_cases ended : (u.threads u.CurrentThread).CurrentTimeQuantum ≤ 0
  · rw [if_pos ended]
    rw [quantum] at ended
    refine taskSwitch_handled ?_ gone word same (by rw [uIs]; rfl) (by rw [uIs]; rfl) (by rw [uIs]; rfl) rfl
    simp only [Interrupt.taskSwitches,running,Bool.true_and,Bool.and_eq_true,decide_eq_true_eq]
    omega
  · rw [if_neg ended]
    rw [quantum] at ended
    refine ⟨u,registers,frame,rfl,.stay ?_ same (by rw [uIs]; rfl)⟩
    simp only [Interrupt.switches,Interrupt.taskSwitches,Interrupt.takes,running,Bool.true_and,Bool.or_eq_false_iff,
      Bool.and_eq_false_iff,decide_eq_false_iff_not]
    omega

/-- A thread that yields goes to the end of the queue. -/
theorem yield_handled (registers : RegisterState) (frame : InterruptFrame) (running : s.Running = true)
    (word : s.ReadyQueue.mCount + 1 < 2^64) : ∃ s' registers' frame',
      (Interrupt.yield registers frame).handle s = some (s',registers',frame') ∧
      Handled s (.yield registers frame) s' (registers',frame') := by
  rw [Interrupt.handle,State.hTaskYield]
  by_cases gone : s.CurrentThread = 0
  · rw [if_pos (.inr gone)]
    exact ⟨s,registers,frame,rfl,.stay (by simp [Interrupt.switches,Interrupt.taskSwitches,Interrupt.takes,gone]) rfl rfl⟩
  rw [if_neg (by simp [running,gone])]
  obtain ⟨u,uIs⟩ : ∃ u : State, u = State.update
      { s with YieldedTime := s.YieldedTime + (s.threads s.CurrentThread).CurrentTimeQuantum } s.CurrentThread
      (fun thread => { thread with CurrentTimeQuantum := 0 }) := ⟨_,rfl⟩
  have same : round u = round s := by rw [uIs]; exact round_quantum _
  simp only [← uIs]
  exact taskSwitch_handled (by simp [Interrupt.taskSwitches,running,gone]) gone word same (by rw [uIs]; rfl)
    (by rw [uIs]; rfl) (by rw [uIs]; rfl) rfl

/-- Every handler returns, whatever was interrupted. -/
theorem handle_handled (i : Interrupt) (running : s.Running = true) (word : s.ReadyQueue.mCount + 1 < 2^64) :
    ∃ s' registers' frame', i.handle s = some (s',registers',frame') ∧ Handled s i s' (registers',frame') := by
  cases i with
  | timer timeMs registers frame => exact timer_handled timeMs registers frame running word
  | yield registers frame => exact yield_handled registers frame running word

/-! ### Events -/

/-- `CreateThread` appends to the queue a thread with the context that it prepared. -/
theorem createThread_round (stack newThread entry0 : Nat) (running : s.Running = true) (word : s.ReadyQueue.mCount + 1 < 2^64) :
    let s' := s.CreateThread stack newThread entry0
    s'.Running = true ∧ round s' = ⟨(round s).running,(round s).waiting ++ [newThread],
      Function.update (round s).context newThread ((s'.threads newThread).Registers,(s'.threads newThread).InterruptFrame)⟩ := by
  intro s'
  obtain ⟨made,madeIs⟩ : ∃ made : Thread, s' = { s with NextThreadID := s.NextThreadID + 1, ReadyQueue := s.ReadyQueue.Add newThread,
                                                        threads := Function.update s.threads newThread made } := by
    have on : ¬ (!s.Running) = true := by simp [running]
    simp only [s',State.CreateThread,if_neg on]
    exact ⟨_,rfl⟩
  refine ⟨by rw [madeIs]; exact running,?_⟩
  have contexts : (round s').context = Function.update (round s).context newThread
      ((s'.threads newThread).Registers,(s'.threads newThread).InterruptFrame) := by
    funext q
    by_cases here : q = newThread
    · subst here
      simp [round]
    · simp [madeIs,round,Function.update_of_ne here]
  have queued : s'.ReadyQueue.elements = s.ReadyQueue.elements ++ [newThread] := by
    rw [madeIs]
    exact KernelList.elements_add word
  have whole : round s' = ⟨thread s'.CurrentThread,s'.ReadyQueue.elements,(round s').context⟩ := rfl
  rw [whole,queued,contexts]
  simp only [madeIs]
  rfl

/-- `ThreadExit` leaves no current thread, and its `Yield` returns to it. -/
theorem threadExit_exec (some_thread : s.CurrentThread ≠ 0) : (Event.ThreadExit registers frame).exec s = some s.dropCurrent := by
  rw [Event.exec,if_neg some_thread,State.hTaskYield,if_pos (.inr rfl)]
  rfl

/-- What the event does to the threads. -/
def Event.change (s : State) : Event → Change Nat
  | .CreateThread _ newThread _ => .create newThread
  | .interrupt _ => .none
  | .ThreadExit _ _ => .exit s.CurrentThread

/-- The thread that the event makes current, when it switches. -/
def Event.next (s s' : State) (e : Event) : Option Nat := if e.switches s then some s'.CurrentThread else none

/-- The live threads are those of the round robin, their objects are apart, and those that
    wait have the context that was saved. -/
structure Sound (s : State) (h : History) : Prop where
  running : s.Running = true
  members : (round s).members.Perm h.live
  placed : ∀ p ∈ h.live, p ≠ 0 ∧ p + threadSize ≤ 2^64
  apart : h.live.Pairwise (fun p q => q + threadSize ≤ p ∨ p + threadSize ≤ q)
  contexts : ∀ p ∈ s.ReadyQueue.elements, (round s).context p = h.contexts p

/-- There are fewer threads than a word can count, since their objects are apart. -/
theorem Sound.room (sound : Sound s h) : s.ReadyQueue.mCount + 1 < 2^64 := by
  have few : h.live.length ≤ 2^63 := by
    have distinct : (h.live.map (fun p => p / threadSize)).Nodup := by
      refine List.pairwise_map.mpr (sound.apart.imp (fun {p q} apart same => ?_))
      simp only [threadSize] at apart same
      omega
    have inside : (h.live.map (fun p => p / threadSize)).toFinset ⊆ Finset.range (2^63) := by
      intro x member
      obtain ⟨p,live,rfl⟩ := List.mem_map.mp (List.mem_toFinset.mp member)
      have placed := (sound.placed p live).2
      simp only [threadSize] at placed ⊢
      exact Finset.mem_range.mpr (by omega)
    have card := Finset.card_le_card inside
    rwa [List.toFinset_card_of_nodup distinct,List.length_map,Finset.card_range] at card
  have count := sound.members.length_eq
  rw [Round.members,List.length_append,round,KernelList.elements_length] at count
  omega

theorem Sound.nodup (sound : Sound s h) : h.live.Nodup :=
  sound.apart.imp (fun {p q} apart same => by unfold threadSize at apart; omega)

theorem Sound.live (sound : Sound s h) (member : p ∈ (round s).members) : p ∈ h.live := sound.members.subset member

theorem Sound.current (sound : Sound s h) (some_thread : s.CurrentThread ≠ 0) : s.CurrentThread ∈ h.live := by
  apply sound.live
  rw [Round.members,round,thread_of_ne some_thread]
  exact List.mem_append_left _ (List.mem_singleton_self _)

/-- A thread that is switched to is live, and so not null. -/
theorem Sound.waits (sound : Sound s h) (member : p ∈ s.ReadyQueue.elements) : p ≠ 0 :=
  (sound.placed p (sound.live (List.mem_append_right _ member))).1

/-- An interrupt is a step of the round robin: no switch, a switch, or a thread that is taken from the queue. -/
theorem handled_simulates (sound : Sound s h) {context : Context} (handled : Handled s i s' context) :
    RoundRobin.Step (round s) ((Event.interrupt i).change s) ((Event.interrupt i).next s s') (round s') ∧ s'.Running = true := by
  cases handled with
  | stay off same running =>
    refine ⟨?_,running.trans sound.running⟩
    have next : (Event.interrupt i).next s s' = none := by rw [Event.next,Event.switches,off]; rfl
    rw [same,next]
    exact .stay
  | @switch u rest on current first now running same =>
    refine ⟨?_,running.trans sound.running⟩
    have next : (Event.interrupt i).next s s' = some u := by
      rw [Event.next,Event.switches,Interrupt.switches,on,now]
      rfl
    have member : u ∈ s.ReadyQueue.elements ++ [s.CurrentThread] := by rw [first]; exact List.mem_cons_self
    have some_thread : u ≠ 0 := by
      rcases List.mem_append.mp member with waits | last
      · exact sound.waits waits
      · rw [List.mem_singleton.mp last]
        exact current
    rw [same,next,thread_of_ne some_thread]
    exact .switch (thread_of_ne current) i.context first
  | @take u rest on gone first now running same =>
    refine ⟨?_,running.trans sound.running⟩
    have next : (Event.interrupt i).next s s' = some u := by
      rw [Event.next,Event.switches,Interrupt.switches,on,now,Bool.or_true]
      rfl
    have some_thread : u ≠ 0 := sound.waits (by rw [first]; exact List.mem_cons_self)
    rw [same,next,thread_of_ne some_thread]
    exact .take (by rw [round,gone]; rfl) first

/-- An event is a step of the round robin. -/
theorem exec_simulates (sound : Sound s h) (done : e.exec s = some s') :
    RoundRobin.Step (round s) (e.change s) (e.next s s') (round s') ∧ s'.Running = true := by
  cases e with
  | CreateThread stack newThread entry0 =>
    cases done
    obtain ⟨running,same⟩ := createThread_round stack newThread entry0 sound.running sound.room
    refine ⟨?_,running⟩
    rw [same]
    exact .create newThread _
  | interrupt i =>
    obtain ⟨t,registers',frame',returned,handled⟩ := handle_handled i sound.running sound.room
    rw [Event.exec,returned] at done
    cases done
    exact handled_simulates sound handled
  | ThreadExit registers frame =>
    have some_thread : s.CurrentThread ≠ 0 := by
      intro gone
      rw [Event.exec,if_pos gone] at done
      cases done
    rw [threadExit_exec some_thread] at done
    cases done
    exact ⟨.exit (thread_of_ne some_thread),sound.running⟩

/-- The recorded threads change as those of the round robin do. -/
theorem record_live : (e.record s h).live = (e.change s).apply h.live := by
  cases e with
  | CreateThread stack newThread entry0 => rfl
  | interrupt i =>
    rw [Event.record]
    split <;> rfl
  | ThreadExit registers frame => rfl

theorem taskSwitches_of_gone (gone : s.CurrentThread = 0) : i.taskSwitches s = false := by
  cases i with
  | timer timeMs registers frame => simp [Interrupt.taskSwitches,gone]
  | yield registers frame => simp [Interrupt.taskSwitches,gone]

/-- A context that is saved twice is the same in both places. -/
theorem contexts_update {c d : Nat → Context} {x : Context} {waiting waiting' : List Nat} (kept : ∀ q ∈ waiting, c q = d q)
    (only : ∀ q ∈ waiting', q ∈ waiting ∨ q = p) (q : Nat) (member : q ∈ waiting') :
    Function.update c p x q = Function.update d p x q := by
  by_cases here : q = p
  · rw [here,Function.update_self,Function.update_self]
  · rw [Function.update_of_ne here,Function.update_of_ne here]
    exact kept q ((only q member).resolve_right here)

/-- The contexts of the threads that wait after an interrupt are those that were saved. -/
theorem handled_contexts {context : Context} (sound : Sound s h) (handled : Handled s i s' context) :
    ∀ p ∈ s'.ReadyQueue.elements, (round s').context p = ((Event.interrupt i).record s h).contexts p := by
  cases handled with
  | stay off same _ =>
    have quiet : i.taskSwitches s = false := (Bool.or_eq_false_iff.mp off).1
    have queue : s'.ReadyQueue.elements = s.ReadyQueue.elements := congrArg Round.waiting same
    rw [same,queue,Event.record,if_neg (by simp [quiet])]
    exact sound.contexts
  | @switch u rest on current first _ _ same =>
    have queue : s'.ReadyQueue.elements = rest := congrArg Round.waiting same
    rw [same,queue,Event.record,if_pos on]
    apply contexts_update sound.contexts
    intro q member
    have old : q ∈ s.ReadyQueue.elements ++ [s.CurrentThread] := by rw [first]; exact List.mem_cons_of_mem _ member
    simpa using old
  | @take u rest on gone first _ _ same =>
    have quiet : i.taskSwitches s = false := taskSwitches_of_gone gone
    have queue : s'.ReadyQueue.elements = rest := congrArg Round.waiting same
    rw [same,queue,Event.record,if_neg (by simp [quiet])]
    exact fun q member => sound.contexts q (by rw [first]; exact List.mem_cons_of_mem _ member)

/-- Every event keeps the threads sound. -/
theorem exec_sound (sound : Sound s h) (allowed : e.Allowed h) (done : e.exec s = some s') : Sound s' (e.record s h) := by
  obtain ⟨step,running⟩ := exec_simulates sound done
  have members := step.members sound.members
  rw [← record_live] at members
  cases e with
  | CreateThread stack newThread entry0 =>
    obtain ⟨null,inside,apart⟩ := allowed
    refine ⟨running,members,?_,?_,?_⟩
    · intro p member
      rcases List.mem_append.mp member with old | new
      · exact sound.placed p old
      · cases List.mem_singleton.mp new
        exact ⟨null,inside⟩
    · refine List.pairwise_append.mpr ⟨sound.apart,List.pairwise_singleton _ _,?_⟩
      intro p old q new
      cases List.mem_singleton.mp new
      exact apart p old
    · cases done
      obtain ⟨_,same⟩ := createThread_round stack newThread entry0 sound.running sound.room
      have queue : (s.CreateThread stack newThread entry0).ReadyQueue.elements = s.ReadyQueue.elements ++ [newThread] :=
        congrArg Round.waiting same
      rw [same,queue]
      exact contexts_update sound.contexts (fun q member => by simpa using member)
  | interrupt i =>
    obtain ⟨t,registers',frame',returned,handled⟩ := handle_handled i sound.running sound.room
    rw [Event.exec,returned] at done
    cases done
    have live : ((Event.interrupt i).record s h).live = h.live := record_live
    exact ⟨running,members,by rw [live]; exact sound.placed,by rw [live]; exact sound.apart,handled_contexts sound handled⟩
  | ThreadExit registers frame =>
    have some_thread : s.CurrentThread ≠ 0 := by
      intro gone
      rw [Event.exec,if_pos gone] at done
      cases done
    rw [threadExit_exec some_thread] at done
    cases done
    exact ⟨running,members,fun p member => sound.placed p (List.mem_of_mem_erase member),
      sound.apart.sublist List.erase_sublist,sound.contexts⟩

/-! ### Runs -/

theorem started_sound (some_thread : p ≠ 0) (inside : p + threadSize ≤ 2^64) :
    Sound (.started p registers frame) ⟨[p],fun _ => (registers,frame)⟩ where
  running := rfl
  members := by
    have only : (round (.started p registers frame)).members = [p] := by
      rw [Round.members,round,State.started,thread_of_ne some_thread]
      rfl
    rw [only]
  placed := by
    intro q member
    cases List.mem_singleton.mp member
    exact ⟨some_thread,inside⟩
  apart := List.pairwise_singleton _ _
  contexts := by intro q member; cases member

theorem run_sound (run : Run s h) : Sound s h := by
  induction run with
  | start some_thread inside => exact started_sound some_thread inside
  | step _ allowed done ih => exact exec_sound ih allowed done

/-- The current thread and the queue hold each live thread once, in every state of a run;
    every handler returns, keeps them, and switches to live threads only. -/
theorem run_members (run : Run s h) : (members s).Perm h.live ∧ (members s).Nodup ∧
    ∀ i : Interrupt, ∃ s' registers' frame', i.handle s = some (s',registers',frame') ∧ (members s').Perm h.live ∧
      (i.switches s = true → s'.CurrentThread ∈ h.live) := by
  have sound := run_sound run
  refine ⟨sound.members,sound.members.nodup_iff.mpr sound.nodup,?_⟩
  intro i
  obtain ⟨s',registers',frame',returned,_⟩ := handle_handled i sound.running sound.room
  have done : (Event.interrupt i).exec s = some s' := by rw [Event.exec,returned]; rfl
  obtain ⟨step,_⟩ := exec_simulates sound done
  refine ⟨s',registers',frame',returned,step.members sound.members,?_⟩
  intro on
  rw [Event.next,Event.switches,if_pos on] at step
  exact (step.members sound.members).subset step.next_members

/-- The kernel's thread has created another one. -/
def twoThreads : State := (State.started 0x1000 {} {}).CreateThread 0x8000 0x2000 0x400000

def twoThreadsHistory : History :=
  (Event.CreateThread 0x8000 0x2000 0x400000).record (.started 0x1000 {} {}) ⟨[0x1000],fun _ => ({},{})⟩

theorem twoThreads_run : Run twoThreads twoThreadsHistory :=
  .step (.start (by decide) (by decide)) ⟨by decide,by decide,by decide⟩ rfl

theorem run_members_twoThreads : (members twoThreads).Perm [0x1000,0x2000] := (run_members twoThreads_run).1

/-- A switch writes back the registers and the frame that were saved when the thread was
    switched out, or prepared when it was created; without a switch those that were
    interrupted are untouched. -/
theorem run_resumes (run : Run s h) (returned : i.handle s = some (s',registers',frame')) :
    (i.switches s = true → (registers',frame') = ((Event.interrupt i).record s h).contexts s'.CurrentThread) ∧
      (i.switches s = false → (registers',frame') = i.context ∧ s'.CurrentThread = s.CurrentThread) := by
  have sound := run_sound run
  obtain ⟨t,registers'',frame'',returned',handled⟩ := handle_handled i sound.running sound.room
  rw [returned] at returned'
  cases returned'
  obtain ⟨context,contextIs⟩ : ∃ context, context = (registers',frame') := ⟨_,rfl⟩
  rw [← contextIs] at handled ⊢
  cases handled with
  | stay off same _ =>
    refine ⟨?_,fun _ => ⟨rfl,thread_injective (congrArg Round.running same)⟩⟩
    intro on
    rw [off] at on
    cases on
  | @switch u rest on current first now _ _ =>
    constructor
    · intro _
      rw [now,Event.record,if_pos on]
      have old : u ∈ s.ReadyQueue.elements ++ [s.CurrentThread] := by rw [first]; exact List.mem_cons_self
      have only : ∀ q ∈ [u], q ∈ s.ReadyQueue.elements ∨ q = s.CurrentThread := by
        intro q member
        rw [List.mem_singleton.mp member]
        simpa using old
      exact contexts_update sound.contexts only u (List.mem_singleton_self u)
    · intro off
      rw [Interrupt.switches,on] at off
      cases off
  | @take u rest on gone first now _ _ =>
    constructor
    · intro _
      have quiet : i.taskSwitches s = false := taskSwitches_of_gone gone
      rw [now,Event.record,if_neg (by simp [quiet])]
      exact sound.contexts u (by rw [first]; exact List.mem_cons_self)
    · intro off
      rw [Interrupt.switches,on,Bool.or_true] at off
      cases off

/-- The thread that was created is resumed as it was prepared. -/
theorem run_resumes_twoThreads : ∃ s' registers' frame',
    (Interrupt.yield {} {}).handle twoThreads = some (s',registers',frame') ∧ s'.CurrentThread = 0x2000 ∧
      (registers',frame') = twoThreadsHistory.contexts 0x2000 := by
  obtain ⟨s',registers',frame',returned,_⟩ := (run_members twoThreads_run).2.2 (.yield {} {})
  have now : s'.CurrentThread = 0x2000 := by
    have reads : ((Interrupt.yield {} {}).handle twoThreads).map (fun r => r.1.CurrentThread) = some 0x2000 := by decide +kernel
    rw [returned] at reads
    exact Option.some.inj reads
  refine ⟨s',registers',frame',returned,now,?_⟩
  have resumed := (run_resumes twoThreads_run returned).1 (by decide +kernel)
  rw [now,Event.record,if_pos (by decide +kernel)] at resumed
  exact resumed

/-- A run that goes on is a run, and its steps are those of the round robin. -/
theorem continues_steps {current : List Nat} {h' : History} (run : Run s h) (more : Continues s h current s' h') :
    Run s' h' ∧ Steps (round s) current (round s') := by
  induction more with
  | refl => exact ⟨run,.refl⟩
  | @step s₁ s₂ h₁ current e _ allowed done ih =>
    obtain ⟨earlier,steps⟩ := ih
    obtain ⟨step,_⟩ := exec_simulates (run_sound earlier) done
    have next : (if e.switches s₁ then [s₂.CurrentThread] else []) = (e.next s₁ s₂).toList := by
      rw [Event.next]
      split <;> rfl
    rw [next]
    exact ⟨.step earlier allowed done,.step steps step⟩

/-- From every state of a run on, the switch after `k` others makes the thread current that
    waits at position `k`, however the run goes on. -/
theorem run_fifo {current : List Nat} {h' : History} {k : Nat} (run : Run s h) (more : Continues s h current s' h')
    (waits : s.ReadyQueue.elements[k]? = some t) (reached : k < current.length) : current[k]? = some t :=
  (continues_steps run more).2.fifo waits reached

theorem run_fifo_twoThreads : ∃ s' h' x, Continues twoThreads twoThreadsHistory [x] s' h' ∧ [x][0]? = some 0x2000 := by
  obtain ⟨s',_,_,returned,_⟩ := (run_members twoThreads_run).2.2 (.yield {} {})
  have done : (Event.interrupt (.yield {} {})).exec twoThreads = some s' := by rw [Event.exec,returned]; rfl
  have more := Continues.step .refl (e := .interrupt (.yield {} {})) (h := twoThreadsHistory) trivial done
  rw [if_pos (by decide +kernel)] at more
  exact ⟨s',_,s'.CurrentThread,more,run_fifo twoThreads_run more (by decide +kernel) (by simp)⟩

end WaifuOS.Scheduler
