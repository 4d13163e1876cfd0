import WaifuOS.Scheduling

/-!
Threads, interrupts and `memoryLock` on the single CPU. A thread is outside of the
heap, waits at `memoryLock.Aquire()`, or is in `malloc` or `free` between that and
`memoryLock.Free()`. Interrupt handlers and `ThreadExit` run with interrupts off, and
they call the heap too: `ReadyQueue.Add` allocates when the queue is full, and
`ThreadExit` frees. When they find the lock taken they spin forever
(`deadlocked_forever`), which happens in exactly the steps that begin such calls
while the lock is taken (`step_deadlocks`), and so in no run without such a step
(`run_notDeadlocked`).
-/
namespace WaifuOS.MemoryLock
open WaifuOS.Scheduler

/-- Where code is in a call of `malloc` or `free`. -/
inductive Position
  | outside
  | acquiring
  | critical
deriving DecidableEq

inductive HeapCall
  | malloc
  | free
deriving DecidableEq

/-- Code that calls the heap with interrupts off. -/
inductive Code
  | handler (i : Interrupt)
  | ThreadExit

/-- Code with interrupts off in the first of the heap calls that it has to finish. -/
structure Masked where
  code : Code
  calls : List HeapCall
  position : Position

/-- The scheduler, the lock, where the threads are, and the code with interrupts off
    if that is what the CPU runs. -/
structure System where
  scheduler : State
  memoryLock : Bool
  position : Nat → Position
  masked : Option Masked

/-- What happens next. The heap calls of `CreateThread` are heap calls of the thread
    that calls it, and what else it does is one event. `malloc` takes the lock again
    after it has expanded the heap. -/
inductive Event
  | heapCall
  | Aquire
  | Free (again : Bool)
  | CreateThread (stack newThread entry0 : Nat)
  | interrupt (i : Interrupt)
  | ThreadExit

namespace System

def current (s : System) : Nat := s.scheduler.CurrentThread

/-- The state after the current thread has moved. -/
def move (s : System) (p : Position) : System := { s with position := Function.update s.position s.current p }

/-- Where the code is that the CPU runs. -/
def running (s : System) : Option Position :=
  match s.masked with
  | some masked => some masked.position
  | none => if s.current = 0 then none else some (s.position s.current)

/-- What is left of the code with interrupts off after its last heap call. -/
def finish (s : System) : Code → Option System
  | .handler i => do
    let (scheduler,_,_) ← i.handle s.scheduler
    some { s with scheduler, masked := none }
  | .ThreadExit => some { s with scheduler := s.scheduler.dropCurrent, masked := none }

/-- The `bts` of `SpinLockAquire`, and its loop while the lock is taken. -/
def Aquire (s : System) : Option System :=
  if s.running = some .acquiring then
    if s.memoryLock then some s
    else
      match s.masked with
      | none => some { s.move .critical with memoryLock := true }
      | some masked => some { s with memoryLock := true, masked := some { masked with position := .critical } }
  else none

/-- `SpinLockFree`, and where the code goes on. -/
def Free (s : System) (again : Bool) : Option System :=
  if s.running = some .critical then
    match s.masked with
    | none => some { s.move (if again then .acquiring else .outside) with memoryLock := false }
    | some masked =>
      let s := { s with memoryLock := false }
      if again then
        if masked.calls.head? = some .malloc then some { s with masked := some { masked with position := .acquiring } }
        else none
      else
        match masked.calls.tail with
        | [] => s.finish masked.code
        | calls => some { s with masked := some { masked with calls, position := .acquiring } }
  else none

/-- The next state, if the event can happen. -/
def exec (s : System) : Event → Option System
  | .heapCall => if s.masked.isNone ∧ s.running = some .outside then some (s.move .acquiring) else none
  | .Aquire => s.Aquire
  | .Free again => s.Free again
  | .CreateThread stack newThread entry0 =>
    -- The object is no live thread.
    if s.masked.isNone ∧ s.running = some .outside ∧ newThread ≠ 0 ∧ newThread ≠ s.current ∧
        s.position newThread = .outside ∧ ∀ x < s.scheduler.ReadyQueue.mCount, s.scheduler.ReadyQueue.mArray x ≠ newThread then
      some { s with scheduler := s.scheduler.CreateThread stack newThread entry0 }
    else none
  | .interrupt i =>
    if s.masked.isSome then none
    -- The heap calls do not yield.
    else if i.called ∧ s.running ≠ some .outside ∧ s.running ≠ none then none
    else if i.allocates s.scheduler then some { s with masked := some ⟨.handler i,[.malloc,.free],.acquiring⟩ }
    else s.finish (.handler i)
  | .ThreadExit =>
    if s.masked.isNone ∧ s.running = some .outside then
      -- `free` returns at once on the stack of the kernel's thread, which is `nullptr`.
      let calls := if (s.scheduler.threads s.current).StackBaseAddress = 0 then [.free] else [.free,.free]
      some { s with masked := some ⟨.ThreadExit,calls,.acquiring⟩ }
    else none

end System

/-- The system after `Start`. -/
def started (pointer : Nat) (registers : RegisterState) (frame : InterruptFrame) : System where
  scheduler := .started pointer registers frame
  memoryLock := false
  position := fun _ => .outside
  masked := none

/-- The states that events lead to from `Start` on, each of which meets a condition. -/
inductive Run (condition : System → Event → Prop) : System → Prop
  | start {pointer : Nat} {registers : RegisterState} {frame : InterruptFrame} (some_thread : pointer ≠ 0) :
      Run condition (started pointer registers frame)
  | step {s s' : System} {e : Event} (earlier : Run condition s) (met : condition s e) (done : s.exec e = some s') :
      Run condition s'

/-- Code with interrupts off tries to acquire the lock while a thread holds it, and no
    thread runs. -/
def Deadlocked (s : System) : Prop :=
  ∃ masked, s.masked = some masked ∧ masked.position = .acquiring ∧ ∃ t, s.position t = .critical

/-- The code that goes on with interrupts off and calls the heap finds the lock free. -/
def Unlocked (s : System) : Event → Prop
  | .interrupt i => i.allocates s.scheduler = true → s.memoryLock = false
  | .ThreadExit => s.memoryLock = false
  | _ => True

instance (s : System) (e : Event) : Decidable (Unlocked s e) :=
  match e with
  | .interrupt i => inferInstanceAs (Decidable (i.allocates s.scheduler = true → s.memoryLock = false))
  | .ThreadExit => inferInstanceAs (Decidable (s.memoryLock = false))
  | .heapCall | .Aquire | .Free _ | .CreateThread _ _ _ => inferInstanceAs (Decidable True)

variable {s s' : System} {e : Event}

/-- What a step does to the lock and to those who use it. -/
inductive Step (s : System) : Event → System → Prop
  | heapCall (on : s.masked = none) (outside : s.position s.current = .outside) : Step s .heapCall (s.move .acquiring)
  | spin (waits : s.running = some .acquiring) (taken : s.memoryLock = true) : Step s .Aquire s
  | aquire (on : s.masked = none) (clear : s.memoryLock = false) :
      Step s .Aquire { s.move .critical with memoryLock := true }
  | aquireMasked {masked : Masked} (off : s.masked = some masked) (clear : s.memoryLock = false) :
      Step s .Aquire { s with memoryLock := true, masked := some { masked with position := .critical } }
  | free {again : Bool} {p : Position} (on : s.masked = none) (holds : s.position s.current = .critical)
      (leaves : p ≠ .critical) : Step s (.Free again) { s.move p with memoryLock := false }
  | freeMasked {again : Bool} {masked masked' : Masked} (off : s.masked = some masked) (holds : masked.position = .critical)
      (waits : masked'.position = .acquiring) :
      Step s (.Free again) { s with memoryLock := false, masked := some masked' }
  | finish {again : Bool} {masked : Masked} {scheduler : State} (off : s.masked = some masked)
      (holds : masked.position = .critical) :
      Step s (.Free again) { s with scheduler, memoryLock := false, masked := none }
  | create {stack newThread entry0 : Nat} {scheduler : State} (on : s.masked = none) :
      Step s (.CreateThread stack newThread entry0) { s with scheduler }
  | handled {i : Interrupt} {scheduler : State} (on : s.masked = none) (small : i.allocates s.scheduler = false) :
      Step s (.interrupt i) { s with scheduler }
  | allocates {i : Interrupt} {masked : Masked} (on : s.masked = none) (large : i.allocates s.scheduler = true)
      (waits : masked.position = .acquiring) : Step s (.interrupt i) { s with masked := some masked }
  | exit {masked : Masked} (on : s.masked = none) (waits : masked.position = .acquiring) :
      Step s .ThreadExit { s with masked := some masked }

theorem running_of_on (on : s.masked = none) {p : Position} (here : s.running = some p) : s.position s.current = p := by
  rw [System.running,on] at here
  simp only at here
  split at here
  · cases here
  · exact Option.some.inj here

theorem running_of_off {masked : Masked} (off : s.masked = some masked) {p : Position} (here : s.running = some p) :
    masked.position = p := by
  rw [System.running,off] at here
  exact Option.some.inj here

theorem finish_eq {code : Code} (done : s.finish code = some s') : ∃ scheduler, s' = { s with scheduler, masked := none } := by
  cases code with
  | handler i =>
    simp only [System.finish,Option.bind_eq_bind,Option.bind_eq_some_iff] at done
    obtain ⟨⟨scheduler,_,_⟩,_,same⟩ := done
    cases same
    exact ⟨scheduler,rfl⟩
  | ThreadExit =>
    cases done
    exact ⟨_,rfl⟩

theorem aquire_step (done : s.Aquire = some s') : Step s .Aquire s' := by
  rw [System.Aquire] at done
  by_cases waits : s.running = some .acquiring
  · rw [if_pos waits] at done
    cases taken : s.memoryLock with
    | true =>
      rw [taken,if_pos rfl] at done
      cases done
      exact .spin waits taken
    | false =>
      rw [taken,if_neg (by simp)] at done
      cases masked : s.masked with
      | none =>
        simp only [masked] at done
        cases done
        exact .aquire masked taken
      | some code =>
        simp only [masked] at done
        cases done
        exact .aquireMasked masked taken
  · rw [if_neg waits] at done
    cases done

theorem free_step {again : Bool} (done : s.Free again = some s') : Step s (.Free again) s' := by
  rw [System.Free] at done
  by_cases holds : s.running = some .critical
  · rw [if_pos holds] at done
    cases masked : s.masked with
    | none =>
      simp only [masked] at done
      cases done
      exact .free masked (running_of_on masked holds) (by split <;> simp)
    | some code =>
      have inside := running_of_off masked holds
      simp only [masked] at done
      split at done
      · split at done
        · cases done
          exact .freeMasked masked inside rfl
        · cases done
      · split at done
        · obtain ⟨scheduler,rfl⟩ := finish_eq done
          exact .finish masked inside
        · cases done
          exact .freeMasked masked inside rfl
  · rw [if_neg holds] at done
    cases done

theorem interrupt_step {i : Interrupt} (done : s.exec (.interrupt i) = some s') : Step s (.interrupt i) s' := by
  rw [System.exec] at done
  by_cases masked : s.masked.isSome
  · rw [if_pos masked] at done
    cases done
  · have on : s.masked = none := by simpa using masked
    rw [if_neg masked] at done
    by_cases inside : i.called ∧ s.running ≠ some .outside ∧ s.running ≠ none
    · rw [if_pos inside] at done
      cases done
    · rw [if_neg inside] at done
      by_cases large : i.allocates s.scheduler
      · rw [if_pos large] at done
        cases done
        exact .allocates on large rfl
      · rw [if_neg large] at done
        obtain ⟨scheduler,rfl⟩ := finish_eq done
        have same : { s with scheduler, masked := none } = { s with scheduler } := by rw [← on]
        rw [same]
        exact .handled on (Bool.eq_false_iff.mpr large)

/-- Every event that happens is one of these steps. -/
theorem exec_step (done : s.exec e = some s') : Step s e s' := by
  cases e with
  | heapCall =>
    simp only [System.exec,Option.isNone_iff_eq_none] at done
    split at done
    · rename_i outside
      cases done
      exact .heapCall outside.1 (running_of_on outside.1 outside.2)
    · cases done
  | Aquire => exact aquire_step done
  | Free again => exact free_step done
  | CreateThread stack newThread entry0 =>
    simp only [System.exec,Option.isNone_iff_eq_none] at done
    split at done
    · rename_i allowed
      cases done
      exact .create allowed.1
    · cases done
  | interrupt i => exact interrupt_step done
  | ThreadExit =>
    simp only [System.exec,Option.isNone_iff_eq_none] at done
    split at done
    · rename_i outside
      cases done
      exact .exit outside.1 rfl
    · cases done

/-- The lock is taken as long as someone holds it, and nobody else does. -/
structure Consistent (s : System) : Prop where
  held : ∀ t, s.position t = .critical → s.memoryLock = true
  single : ∀ t u, s.position t = .critical → s.position u = .critical → t = u
  alone : ∀ masked, s.masked = some masked → masked.position = .critical → ∀ t, s.position t ≠ .critical
  holder : s.memoryLock = true → (∃ t, s.position t = .critical) ∨
    ∃ masked, s.masked = some masked ∧ masked.position = .critical

theorem Consistent.clear (consistent : Consistent s) (clear : s.memoryLock = false) (t : Nat) : s.position t ≠ .critical := by
  intro holds
  rw [consistent.held t holds] at clear
  cases clear

theorem move_other {p : Position} {t : Nat} (other : t ≠ s.current) : (s.move p).position t = s.position t :=
  Function.update_of_ne other ..

@[simp] theorem move_self {p : Position} : (s.move p).position s.current = p := Function.update_self ..

/-- A thread that moves without the lock. -/
theorem move_critical {p : Position} {t : Nat} (leaves : p ≠ .critical) (holds : (s.move p).position t = .critical) :
    t ≠ s.current ∧ s.position t = .critical := by
  have other : t ≠ s.current := by
    rintro rfl
    rw [move_self] at holds
    exact leaves holds
  exact ⟨other,(move_other other).symm.trans holds⟩

theorem started_consistent {pointer : Nat} {registers : RegisterState} {frame : InterruptFrame} :
    Consistent (started pointer registers frame) where
  held := by intro t holds; cases holds
  single := by intro t u holds; cases holds
  alone := by intro masked off; cases off
  holder := by intro taken; cases taken

/-- Code with interrupts off that waits changes nothing for the lock. -/
theorem masked_consistent {masked : Masked} (consistent : Consistent s) (on : s.masked = none)
    (waits : masked.position = .acquiring) : Consistent { s with masked := some masked } where
  held := consistent.held
  single := consistent.single
  alone := by
    intro code same inside
    cases same
    rw [waits] at inside
    cases inside
  holder := by
    intro taken
    rcases consistent.holder taken with thread | ⟨code,off,_⟩
    · exact .inl thread
    · rw [on] at off
      cases off

/-- Every step keeps the lock consistent. -/
theorem step_consistent (consistent : Consistent s) (step : Step s e s') : Consistent s' := by
  cases step with
  | heapCall on outside =>
    have stays : ∀ t, (s.move .acquiring).position t = .critical ↔ s.position t = .critical := by
      intro t
      constructor
      · intro holds
        exact (move_critical (by simp) holds).2
      · intro holds
        rw [move_other (by rintro rfl; rw [outside] at holds; cases holds),holds]
    refine ⟨fun t holds => consistent.held t ((stays t).mp holds),?_,?_,?_⟩
    · intro t u holds holds'
      exact consistent.single t u ((stays t).mp holds) ((stays u).mp holds')
    · intro masked off
      cases on.symm.trans off
    · intro taken
      rcases consistent.holder taken with ⟨t,holds⟩ | ⟨masked,off,_⟩
      · exact .inl ⟨t,(stays t).mpr holds⟩
      · cases on.symm.trans off
  | spin waits taken => exact consistent
  | aquire on clear =>
    have only : ∀ t, (s.move .critical).position t = .critical → t = s.current := by
      intro t holds
      by_contra other
      exact consistent.clear clear t ((move_other other).symm.trans holds)
    refine ⟨fun _ _ => rfl,fun t u holds holds' => (only t holds).trans (only u holds').symm,?_,fun _ => .inl ⟨_,move_self⟩⟩
    intro masked off
    cases on.symm.trans off
  | aquireMasked off clear =>
    exact ⟨fun _ _ => rfl,consistent.single,fun _ _ _ => consistent.clear clear,fun _ => .inr ⟨_,rfl,rfl⟩⟩
  | @free _ p on holds leaves =>
    have none : ∀ t, (s.move p).position t ≠ .critical := by
      intro t inside
      obtain ⟨other,inside⟩ := move_critical leaves inside
      exact other (consistent.single t s.current inside holds)
    refine ⟨fun t inside => absurd inside (none t),fun t _ inside => absurd inside (none t),fun _ _ _ => none,?_⟩
    intro taken
    cases taken
  | freeMasked off holds waits =>
    have none := consistent.alone _ off holds
    refine ⟨fun t inside => absurd inside (none t),consistent.single,fun _ _ _ => none,?_⟩
    intro taken
    cases taken
  | finish off holds =>
    have none := consistent.alone _ off holds
    refine ⟨fun t inside => absurd inside (none t),consistent.single,fun _ _ _ => none,?_⟩
    intro taken
    cases taken
  | create on => exact ⟨consistent.held,consistent.single,consistent.alone,consistent.holder⟩
  | handled on small => exact ⟨consistent.held,consistent.single,consistent.alone,consistent.holder⟩
  | allocates on large waits => exact masked_consistent consistent on waits
  | exit on waits => exact masked_consistent consistent on waits

/-- A step leads into a deadlock if and only if it begins heap calls with interrupts off
    while the lock is taken. -/
theorem step_deadlocks (consistent : Consistent s) (free : ¬ Deadlocked s) (step : Step s e s') :
    Deadlocked s' ↔ ¬ Unlocked s e := by
  have idle : s.masked = none → ∀ masked, masked.position = .acquiring →
      (Deadlocked { s with masked := some masked } ↔ s.memoryLock ≠ false) := by
    intro on masked waits
    constructor
    · rintro ⟨_,_,_,t,holds⟩
      simp [consistent.held t holds]
    · intro taken
      rcases consistent.holder (by simpa using taken) with thread | ⟨code,off,_⟩
      · exact ⟨masked,rfl,waits,thread⟩
      · cases on.symm.trans off
  have none : ∀ t : System, t.masked = none → (Deadlocked t ↔ ¬ True) := by
    intro t on
    simp only [not_true,iff_false]
    rintro ⟨masked,off,_⟩
    cases on.symm.trans off
  cases step with
  | heapCall on outside => exact none _ on
  | spin waits taken => simpa [Unlocked] using free
  | aquire on clear => exact none _ on
  | aquireMasked off clear =>
    simp only [Unlocked,not_true,iff_false]
    rintro ⟨masked,same,waits,_⟩
    cases same
    cases waits
  | free on holds leaves => exact none _ on
  | freeMasked off holds waits =>
    simp only [Unlocked,not_true,iff_false]
    rintro ⟨_,_,_,t,inside⟩
    exact consistent.alone _ off holds t inside
  | finish off holds => exact none _ rfl
  | create on => exact none _ on
  | handled on small =>
    simp only [Unlocked,small,Bool.false_eq_true,false_imp_iff]
    exact none _ on
  | allocates on large waits =>
    simp only [Unlocked,large,true_imp_iff]
    exact idle on _ waits
  | exit on waits => exact idle on _ waits

/-- In a deadlock the CPU spins forever: nothing that can happen changes anything. -/
theorem deadlocked_forever (consistent : Consistent s) (deadlocked : Deadlocked s) (done : s.exec e = some s') : s' = s := by
  obtain ⟨masked,off,waits,t,holds⟩ := deadlocked
  cases exec_step done with
  | heapCall on outside => cases off.symm.trans on
  | spin waits taken => rfl
  | aquire on clear => cases off.symm.trans on
  | aquireMasked off' clear => exact absurd holds (consistent.clear clear t)
  | free on holds leaves => cases off.symm.trans on
  | freeMasked off' inside waits' =>
    cases off.symm.trans off'
    rw [waits] at inside
    cases inside
  | finish off' inside =>
    cases off.symm.trans off'
    rw [waits] at inside
    cases inside
  | create on => cases off.symm.trans on
  | handled on small => cases off.symm.trans on
  | allocates on large waits' => cases off.symm.trans on
  | exit on waits' => cases off.symm.trans on

theorem run_consistent {condition : System → Event → Prop} (run : Run condition s) : Consistent s := by
  induction run with
  | start some_thread => exact started_consistent
  | step _ _ done ih => exact step_consistent ih (exec_step done)

/-- In every run whose steps begin heap calls with interrupts off only while the lock is
    free, there is no deadlock. -/
theorem run_notDeadlocked (run : Run Unlocked s) : ¬ Deadlocked s := by
  induction run with
  | start some_thread =>
    rintro ⟨masked,off,_⟩
    cases off
  | step earlier met done ih =>
    intro deadlocked
    exact (step_deadlocks (run_consistent earlier) ih (exec_step done)).mp deadlocked met

/-- The events of a run, one after another. -/
theorem run_events {condition : System → Event → Prop} [∀ s e, Decidable (condition s e)] {es : List Event} (run : Run condition s)
    (done : es.foldlM (fun s e => if condition s e then s.exec e else none) s = some s') : Run condition s' := by
  induction es generalizing s with
  | nil =>
    cases done
    exact run
  | cons e es ih =>
    rw [List.foldlM_cons,Option.bind_eq_bind,Option.bind_eq_some_iff] at done
    obtain ⟨t,first,rest⟩ := done
    split at first
    · next met => exact ih (.step run met first) rest
    · cases first

/-- A tick of the timer at 200 Hz. -/
def tick : Event := .interrupt (.timer 5 {} {})

/-- The thread at 0x1000 creates one at 0x2000 and runs until its quantum of 200 ms is over. The other one calls `malloc` and
    yields, the first one exits, and the next tick finds the other one again. -/
def exitAfterMalloc : List Event :=
  .CreateThread 0x8000 0x2000 0 :: List.replicate 40 tick ++
    [.heapCall,.Aquire,.Free false,.interrupt (.yield {} {}),.ThreadExit,.Aquire,.Free false,tick]

theorem run_notDeadlocked_exitAfterMalloc : ∃ s, Run Unlocked s ∧ s.current = 0x2000 ∧ ¬ Deadlocked s := by
  have reads : (exitAfterMalloc.foldlM (fun s e => if Unlocked s e then s.exec e else none) (started 0x1000 {} {})).map System.current =
      some 0x2000 := by decide +kernel
  obtain ⟨s,done,current⟩ := Option.map_eq_some_iff.mp reads
  have run := run_events (.start (by decide)) done
  exact ⟨s,run,current,run_notDeadlocked run⟩

/-- The thread at 0x1000 creates one at 0x2000, and is interrupted for it in a call of
    `malloc` when its quantum of 200 ms is over. Then the other one exits. -/
def exitDuringMalloc : List Event :=
  .CreateThread 0x8000 0x2000 0 :: List.replicate 39 tick ++ [.heapCall,.Aquire,tick,.ThreadExit]

theorem exitDuringMalloc_deadlocks : ¬ ∀ s, Run (fun _ _ => True) s → ¬ Deadlocked s := by
  intro all
  have reads : (exitDuringMalloc.foldlM (fun s e => if True then s.exec e else none) (started 0x1000 {} {})).map
      (fun s => (s.masked.map Masked.position,s.position 0x1000)) = some (some .acquiring,.critical) := by decide +kernel
  obtain ⟨s,done,same⟩ := Option.map_eq_some_iff.mp reads
  obtain ⟨off,holds⟩ := Prod.mk.inj same
  obtain ⟨masked,off,waits⟩ := Option.map_eq_some_iff.mp off
  exact all s (run_events (.start (by decide)) done) ⟨masked,off,waits,0x1000,holds⟩

end WaifuOS.MemoryLock
