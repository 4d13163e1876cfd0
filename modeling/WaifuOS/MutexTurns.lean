import WaifuOS.Synchronization
import WaifuOS.Turns

/-!
Threads of the scheduler that use a `Mutex`. The current thread executes the routines of the
mutex, a timer interrupt may come between any two of its instructions, and the `call Yield` of
a thread that waits is an event of the scheduler. A thread that has the mutex may yield and
create threads too, but nothing frees the mutex of one that exits, so none does. Unlike a spin
lock that code with interrupts off waits for, a mutex that is taken then cannot bring the
system to a stop: the thread that has it is never lost, and runs again within its patience,
however many threads wait for it (`mutex_holder_runs`).
-/
namespace WaifuOS.MutexTurns
open WaifuOS.Scheduler WaifuOS.Synchronization WaifuOS.Sections

/-- The scheduler, and where its threads are in the routines of the mutex. -/
structure System where
  scheduler : Scheduler.State × History
  threads : Sections.State Nat Place (BitVec 32)

/-- The current thread. -/
def System.current (σ : System) : Nat := σ.scheduler.1.CurrentThread

/-- Whether the next instruction of a thread is `call Yield`. -/
def AtYield : Place → Prop
  | .aquiring s => s.rip = 3
  | _ => False

/-- Where a thread can be when an event comes. A tick comes anywhere, the others are called for before the routines or
    between them; who has the mutex does not exit. -/
def Comes : Event → Place → Prop
  | .interrupt (.timer _ _ _), _ => True
  | .ThreadExit _ _, l => l = .outside
  | _, l => l = .outside ∨ l = .inside

variable {A : Type*}

/-- A step: an instruction of the current thread, its `call Yield`, or another event of the scheduler. -/
inductive Step (σ : System) : Option Event → List (Nat × Option (Action A)) → System → Prop
  | instruction {action : Option (Action A)} {l : Place} {lock : BitVec 32} (some_thread : σ.current ≠ 0)
      (plain : ¬ AtYield (σ.threads.party σ.current))
      (moves : Synchronization.Step .Mutex (σ.threads.party σ.current) σ.threads.shared action l lock) :
      Step σ none [(σ.current,action)] { σ with threads := σ.threads.move σ.current l lock }
  | callYield {action : Option (Action A)} {l : Place} {lock : BitVec 32} {registers : RegisterState} {frame : InterruptFrame}
      {u : Scheduler.State} (some_thread : σ.current ≠ 0) (waits : AtYield (σ.threads.party σ.current))
      (moves : Synchronization.Step .Mutex (σ.threads.party σ.current) σ.threads.shared action l lock)
      (done : (Event.interrupt (.yield registers frame)).exec σ.scheduler.1 = some u) :
      Step σ (some (.interrupt (.yield registers frame))) [(σ.current,action)]
        ⟨(u,(Event.interrupt (.yield registers frame)).record σ.scheduler.1 σ.scheduler.2),σ.threads.move σ.current l lock⟩
  | event {e : Event} {u : Scheduler.State} (allowed : e.Allowed σ.scheduler.2) (done : e.exec σ.scheduler.1 = some u)
      (comes : Comes e (σ.threads.party σ.current)) :
      Step σ (some e) [] { σ with scheduler := (u,e.record σ.scheduler.1 σ.scheduler.2) }

/-- The states that steps lead to from `Start` and the construction of the mutex on. -/
inductive Run : System → List (Nat × Option (Action A)) → Prop
  | start {pointer : Nat} {registers : RegisterState} {frame : InterruptFrame} (some_thread : pointer ≠ 0)
      (inside : pointer + threadSize ≤ 2^64) :
      Run ⟨(.started pointer registers frame,⟨[pointer],fun _ => (registers,frame)⟩),constructed Nat⟩ []
  | step {σ σ' : System} {e : Option Event} {moves more : List (Nat × Option (Action A))} (earlier : Run σ moves)
      (last : Step σ e more σ') : Run σ' (moves ++ more)

/-- A step without what it does to the mutex. -/
def Moves (A : Type*) (σ : System) (e : Option Event) (σ' : System) : Prop := ∃ more : List (Nat × Option (Action A)), Step σ e more σ'

variable {σ σ' : System} {e : Option Event} {moves more : List (Nat × Option (Action A))} {t : Nat}

theorem moves_schedules : Schedules System.scheduler (Moves A) where
  event := by
    rintro σ e σ' ⟨more,step⟩
    cases step with
    | callYield some_thread waits moves done => exact ⟨trivial,done,rfl⟩
    | event allowed done comes => exact ⟨allowed,done,rfl⟩
  other := by
    rintro σ σ' ⟨more,step⟩
    cases step with
    | instruction some_thread plain moves => rfl

/-- Threads that are in the routines are live. -/
def Placed (σ : System) : Prop := ∀ t, σ.threads.party t ≠ .outside → t ∈ σ.scheduler.2.live

theorem move_placed {l : Place} {lock : BitVec 32} (placed : Placed σ) (live : σ.current ∈ σ.scheduler.2.live) (t : Nat)
    (inside : (σ.threads.move σ.current l lock).party t ≠ .outside) : t ∈ σ.scheduler.2.live := by
  by_cases here : t = σ.current
  · rw [here]
    exact live
  · rw [move_other here] at inside
    exact placed t inside

theorem step_placed (run : Scheduler.Run σ.scheduler.1 σ.scheduler.2) (placed : Placed σ) (step : Step σ e more σ') : Placed σ' := by
  have sound := run_sound run
  cases step with
  | instruction some_thread plain moves => exact move_placed placed (sound.current some_thread)
  | callYield some_thread waits moves done =>
    intro t inside
    have live := move_placed placed (sound.current some_thread) t inside
    show t ∈ (Event.record _ _ _).live
    rw [record_live]
    exact live
  | @event e u allowed done comes =>
    intro t inside
    have live := placed t inside
    show t ∈ (e.record _ _).live
    rw [record_live]
    cases e with
    | CreateThread stack newThread entry0 => exact List.mem_append_left _ live
    | interrupt i => exact live
    | ThreadExit registers frame =>
      -- Who exits is outside.
      have other : t ≠ σ.current := by
        intro same
        rw [same] at inside
        exact inside comes
      exact (List.mem_erase_of_ne other).mpr live

/-- What a run of the system is for the scheduler and for the mutex. -/
theorem run_parts (run : Run σ moves) : Scheduler.Run σ.scheduler.1 σ.scheduler.2 ∧
    Sections.Run (Synchronization.Step .Mutex) (constructed Nat) moves σ.threads ∧ Placed σ := by
  induction run with
  | start some_thread inside => exact ⟨.start some_thread inside,.refl,fun t inside => absurd rfl inside⟩
  | @step σ σ' e moves more _ last ih =>
    obtain ⟨scheduler,threads,placed⟩ := ih
    refine ⟨?_,?_,step_placed scheduler placed last⟩
    · cases e with
      | none =>
        rw [moves_schedules.other ⟨more,last⟩]
        exact scheduler
      | some e =>
        obtain ⟨allowed,done,record⟩ := moves_schedules.event ⟨more,last⟩
        rw [record]
        exact .step scheduler allowed done
    · cases last with
      | instruction some_thread plain moves => exact .step threads moves
      | callYield some_thread waits moves done => exact .step threads moves
      | event allowed done comes => simpa using threads

/-- A live thread that does not run waits in the queue. -/
theorem live_waits {s : Scheduler.State} {h : History} (run : Scheduler.Run s h) (live : t ∈ h.live) :
    s.CurrentThread = t ∨ ∃ k : Nat, s.ReadyQueue.elements[k]? = some t := by
  have sound := run_sound run
  have member : t ∈ (Scheduler.round s).members := sound.members.mem_iff.mpr live
  rcases List.mem_append.mp member with runs | waits
  · refine .inl ?_
    simp only [Scheduler.round,thread] at runs
    split at runs
    · cases runs
    · exact (List.mem_singleton.mp runs).symm
  · exact .inr (List.mem_iff_getElem?.mp waits)

/-- A mutex that is taken is held by one thread, which has not exited. It is the current thread, or it waits in the queue and
    runs before the timer has ticked as often as its patience allows, whatever the threads do meanwhile. -/
theorem mutex_holder_runs (run : Run σ moves) (taken : Lock.GetState σ.threads.shared = true) :
    ∃ t, (∀ u, (σ.threads.party u).Holds ↔ u = t) ∧ t ∈ σ.scheduler.2.live ∧
      (σ.current = t ∨ ∃ k : Nat, σ.scheduler.1.ReadyQueue.elements[k]? = some t ∧
        ∀ events σ', Path (Moves A) σ events σ' → patience k ≤ ticks events →
          ∃ before after ρ, events = before ++ after ∧ Path (Moves A) σ before ρ ∧ ρ.current = t ∧ Path (Moves A) ρ after σ') := by
  obtain ⟨scheduler,threads,placed⟩ := run_parts run
  obtain ⟨owner,_,owned,state⟩ := run_owned threads
  rw [taken] at state
  obtain ⟨t,rfl⟩ := Option.isSome_iff_exists.mp state.symm
  have holds : (σ.threads.party t).Holds := (owned.holder t).mpr rfl
  have live : t ∈ σ.scheduler.2.live := by
    apply placed t
    intro outside
    rw [outside] at holds
    exact holds
  refine ⟨t,?_,live,?_⟩
  · intro u
    rw [owned.holder u,Option.some.injEq]
    exact eq_comm
  · rcases live_waits scheduler live with runs | ⟨k,waits⟩
    · exact .inl runs
    · exact .inr ⟨k,waits,fun events σ' path enough => path_waits moves_schedules scheduler path waits enough⟩

/-- The kernel's thread has created another one, and has the mutex. -/
theorem twoThreads_locks : ∃ σ moves, Run (A := Nat) σ moves ∧ σ.scheduler = (twoThreads,twoThreadsHistory) ∧
    Lock.GetState σ.threads.shared = true := by
  have first : Run (A := Nat) ⟨(.started 0x1000 {} {},⟨[0x1000],fun _ => ({},{})⟩),constructed Nat⟩ [] :=
    .start (by decide) (by decide)
  have second := Run.step first (.event (e := .CreateThread 0x8000 0x2000 0x400000) ⟨by decide,by decide,by decide⟩ rfl (.inl rfl))
  have third := Run.step second (.instruction (by decide) (fun never => never) (.callAquire ⟨false,false⟩))
  have bts : Synchronization.Step (A := Nat) .Mutex (.aquiring ⟨0,⟨false,false⟩⟩) 0 (some .acquire) (.aquiring ⟨1,⟨false,false⟩⟩) 1 :=
    .aquire ⟨false,false⟩ rfl rfl rfl
  have fourth := Run.step third (.instruction (by decide) (by simp [System.current,AtYield]) (by simpa [System.current,constructed] using bts))
  exact ⟨_,_,fourth,rfl,rfl⟩

theorem mutex_holder_runs_twoThreads : ∃ (σ : System) (t : Nat), (∀ u, (σ.threads.party u).Holds ↔ u = t) ∧ t ∈ twoThreadsHistory.live := by
  obtain ⟨σ,moves,run,scheduler,taken⟩ := twoThreads_locks
  obtain ⟨t,holder,live,_⟩ := mutex_holder_runs run taken
  rw [scheduler] at live
  exact ⟨σ,t,holder,live⟩

end WaifuOS.MutexTurns
