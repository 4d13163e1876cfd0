import WaifuOS.RegisterDump
import WaifuOS.SchedulerRuns

/-!
The scheduler on the CPU. A timer interrupt or a yield runs the code of its stub, which
saves the registers in the dump, calls the handler, and restores them from there; the handler may
put the dump and the frame of another thread in place. Each thread is given a processor of its own
here, which only the instructions change that run while the thread is the current one (`advance`). The
one CPU is always that of the current thread (`run_processors`): whatever ran in between,
a thread goes on with all the registers that it was interrupted with.
-/
namespace WaifuOS.Processors
open WaifuOS.Scheduler WaifuOS.RoundRobin
open WaifuOS.Interrupts (Registers Op stub Represents execAll SaveAllRegisters RestoreAllRegisters)
open Function (update)

abbrev Dump := Interrupts.RegisterState

/-- The part `k` of a wide register. -/
def part (y : BitVec 256) (k : Fin 4) : Nat := y.toNat / 2^(64 * k.val) % 2^64

/-- The dump, as the scheduler copies it. -/
def ofDump (d : Dump) : RegisterState where
  rax := (d.general .rax).toNat
  rbx := (d.general .rbx).toNat
  rcx := (d.general .rcx).toNat
  rdx := (d.general .rdx).toNat
  rsi := (d.general .rsi).toNat
  rdi := (d.general .rdi).toNat
  rbp := (d.general .rbp).toNat
  r8 := (d.general .r8).toNat
  r9 := (d.general .r9).toNat
  r10 := (d.general .r10).toNat
  r11 := (d.general .r11).toNat
  r12 := (d.general .r12).toNat
  r13 := (d.general .r13).toNat
  r14 := (d.general .r14).toNat
  r15 := (d.general .r15).toNat
  ds := (d.segment .ds).toNat
  es := (d.segment .es).toNat
  fs := (d.segment .fs).toNat
  gs := (d.segment .gs).toNat
  mm i := (d.mm i).toNat
  ymm i := part (d.ymm i)

def general (r : RegisterState) : Interrupts.General → Nat
  | .rax => r.rax
  | .rbx => r.rbx
  | .rcx => r.rcx
  | .rdx => r.rdx
  | .rsi => r.rsi
  | .rdi => r.rdi
  | .rbp => r.rbp
  | .r8 => r.r8
  | .r9 => r.r9
  | .r10 => r.r10
  | .r11 => r.r11
  | .r12 => r.r12
  | .r13 => r.r13
  | .r14 => r.r14
  | .r15 => r.r15

def segment (r : RegisterState) : Interrupts.Segment → Nat
  | .ds => r.ds
  | .es => r.es
  | .fs => r.fs
  | .gs => r.gs

/-- What the scheduler writes back. -/
def toDump (r : RegisterState) : Dump where
  general g := BitVec.ofNat 64 (general r g)
  segment s := BitVec.ofNat 64 (segment r s)
  mm i := BitVec.ofNat 64 (r.mm i)
  ymm i := BitVec.ofNat 256 (r.ymm i 0 + 2^64 * r.ymm i 1 + 2^128 * r.ymm i 2 + 2^192 * r.ymm i 3)

/-- The registers that a dump is restored to. -/
def loaded (d : Dump) : Registers := ⟨d.general,fun s => (d.segment s).setWidth 16,d.mm,d.ymm⟩

/-- The CPU with the registers that an interrupt pushes, the dump, and the scheduler. -/
structure Machine where
  cpu : Registers
  frame : InterruptFrame
  dump : Dump
  scheduler : State

/-- The interrupts whose handlers may switch. -/
inductive Cause
  | timer (timeMs : Nat)
  | yield

namespace Cause

def vector : Cause → Nat
  | .timer _ => 0x20
  | .yield => 0x30

def interrupt (registers : RegisterState) (frame : InterruptFrame) : Cause → Interrupt
  | .timer timeMs => .timer timeMs registers frame
  | .yield => .yield registers frame

/-- `hPitScheduler` and `hTaskYield`, whose code leaves anything in the registers. -/
def handler (left : Registers) (m : Machine) (cause : Cause) : Option Machine := do
  let (scheduler,registers,frame) ← (cause.interrupt (ofDump m.dump) m.frame).handle m.scheduler
  some ⟨left,frame,toDump registers,scheduler⟩

end Cause

namespace Machine

/-- A step of a stub; the interrupts here push no error code that could be popped. -/
def step (handler : Machine → Option Machine) (m : Machine) : Op → Option Machine
  | .cli => some m
  | .move i => some { m with cpu := (i.exec (m.cpu,m.dump)).1, dump := (i.exec (m.cpu,m.dump)).2 }
  | .popRdx => none
  | .StandardHandler _ => handler m
  | .iretq => some m

def interrupt (m : Machine) (cause : Cause) (left : Registers) : Option Machine :=
  (stub cause.vector).foldlM (step (fun m => cause.handler left m)) m

/-- The dump that the stub saves. -/
def saved (m : Machine) : Dump := (execAll (m.cpu,m.dump) SaveAllRegisters).2

end Machine

/-- What a thread finds on the CPU. -/
abbrev Processor := Registers × InterruptFrame

/-- The processor that goes on with a context. -/
def resumed (context : Context) : Processor := (loaded (toDump context.1),context.2)

inductive Event
  /-- Instructions of the code that runs. -/
  | execute (f : Processor → Processor)
  | interrupt (cause : Cause) (left : Registers)
  | CreateThread (stack newThread entry0 : Nat)
  | ThreadExit (left : Registers)

namespace Event

/-- The next machine; `ThreadExit` drops the thread and yields without one. -/
def exec (m : Machine) : Event → Option Machine
  | .execute f => some { m with cpu := (f (m.cpu,m.frame)).1, frame := (f (m.cpu,m.frame)).2 }
  | .interrupt cause left => m.interrupt cause left
  | .CreateThread stack newThread entry0 => some { m with scheduler := m.scheduler.CreateThread stack newThread entry0 }
  | .ThreadExit left =>
    if m.scheduler.CurrentThread = 0 then none
    else Machine.interrupt { m with scheduler := m.scheduler.dropCurrent } .yield left

/-- What the event is for the scheduler. -/
def scheduled (m : Machine) : Event → Option Scheduler.Event
  | .execute _ => none
  | .interrupt cause _ => some (.interrupt (cause.interrupt (ofDump m.saved) m.frame))
  | .CreateThread stack newThread entry0 => some (.CreateThread stack newThread entry0)
  | .ThreadExit _ => some (.ThreadExit (ofDump m.saved) m.frame)

def Allowed (m : Machine) (h : History) (e : Event) : Prop := ∀ e' ∈ e.scheduled m, e'.Allowed h

def record (m : Machine) (h : History) (e : Event) : History := (e.scheduled m).elim h (fun e' => e'.record m.scheduler h)

/-- The processors of the threads: instructions change that of the current thread, and a new
    thread has one as `CreateThread` prepared it. -/
def advance (m : Machine) (v : Nat → Processor) : Event → Nat → Processor
  | .execute f => update v m.scheduler.CurrentThread (f (v m.scheduler.CurrentThread))
  | .CreateThread stack newThread entry0 =>
    let thread := (m.scheduler.CreateThread stack newThread entry0).threads newThread
    update v newThread (resumed (thread.Registers,thread.InterruptFrame))
  | _ => v

end Event

/-- The machines that events lead to from `Start` on, with the threads and their processors. -/
inductive Run : Machine → History → (Nat → Processor) → Prop
  | start {cpu : Registers} {frame : InterruptFrame} {dump : Dump} {pointer : Nat} {registers : RegisterState} (some_thread : pointer ≠ 0)
      (inside : pointer + threadSize ≤ 2^64) :
      Run ⟨cpu,frame,dump,.started pointer registers frame⟩ ⟨[pointer],fun _ => (registers,frame)⟩ (fun _ => (cpu,frame))
  | step {m m' : Machine} {h : History} {v : Nat → Processor} {e : Event} (earlier : Run m h v) (allowed : e.Allowed m h)
      (done : e.exec m = some m') : Run m' (e.record m h) (e.advance m v)

variable {m m' : Machine} {h : History} {v : Nat → Processor} {e : Event} {cause : Cause} {left c : Registers} {d : Dump}
  {s s' : State} {i : Interrupt}

theorem parts (y : BitVec 256) : BitVec.ofNat 256 (part y 0 + 2^64 * part y 1 + 2^128 * part y 2 + 2^192 * part y 3) = y := by
  have bound := y.isLt
  have whole : part y 0 + 2^64 * part y 1 + 2^128 * part y 2 + 2^192 * part y 3 = y.toNat := by
    simp only [part,Fin.val_zero,Fin.val_one,Fin.val_two,show (3 : Fin 4).val = 3 from rfl]
    omega
  rw [whole,BitVec.ofNat_toNat,BitVec.setWidth_eq]

theorem word (x : BitVec 64) : BitVec.ofNat 64 x.toNat = x := by rw [BitVec.ofNat_toNat,BitVec.setWidth_eq]

/-- A dump that is copied and written back is the same. -/
theorem toDump_ofDump (d : Dump) : toDump (ofDump d) = d := by
  have generals : (toDump (ofDump d)).general = d.general := by
    funext g
    cases g <;> exact word _
  have segments : (toDump (ofDump d)).segment = d.segment := by
    funext s
    cases s <;> exact word _
  have mms : (toDump (ofDump d)).mm = d.mm := funext (fun i => word _)
  have ymms : (toDump (ofDump d)).ymm = d.ymm := funext (fun i => parts _)
  calc toDump (ofDump d)
      = ⟨(toDump (ofDump d)).general,(toDump (ofDump d)).segment,(toDump (ofDump d)).mm,(toDump (ofDump d)).ymm⟩ := rfl
    _ = d := by rw [generals,segments,mms,ymms]

theorem loaded_represents (d : Dump) : Represents (loaded d) d := ⟨fun _ => rfl,fun _ => rfl,fun _ => rfl,fun _ => rfl⟩

theorem loaded_eq (represents : Represents c d) : loaded d = c := by
  ext1
  · exact funext represents.general
  · exact funext represents.segment
  · exact funext represents.mm
  · exact funext represents.ymm

/-! ### Interrupts -/

/-- The moves of a stub. -/
theorem foldlM_moves (handler : Machine → Option Machine) (l : List Interrupts.Instruction) (m : Machine) :
    (l.map Op.move).foldlM (Machine.step handler) m =
      some { m with cpu := (execAll (m.cpu,m.dump) l).1, dump := (execAll (m.cpu,m.dump) l).2 } := by
  induction l generalizing m with
  | nil => rfl
  | cons i l ih =>
    rw [List.map_cons,List.foldlM_cons]
    exact ih _

/-- The stub's dump is one of the registers. -/
theorem saved_represents (m : Machine) : Represents m.cpu m.saved := by
  obtain ⟨v,d,saved,represents⟩ := Interrupts.save (c := m.cpu) (d := m.dump)
  rw [Machine.saved,saved]
  exact represents

theorem resumed_saved (m : Machine) : resumed (ofDump m.saved,m.frame) = (m.cpu,m.frame) := by
  rw [resumed,toDump_ofDump,loaded_eq (saved_represents m)]

/-- From the handler on. -/
theorem foldlM_restoring (handler : Machine → Option Machine) (m : Machine) :
    Interrupts.restoring.foldlM (Machine.step handler) m = some { m with cpu := loaded m.dump } := by
  rw [Interrupts.restoring,List.foldlM_append,foldlM_moves,Interrupts.restore (loaded_represents m.dump)]
  rfl

/-- The handler, and the rest of the stub after it. -/
theorem handler_restores (handler : Machine → Option Machine) (m : Machine) (cause : Cause) (left : Registers) :
    (cause.handler left m >>= Interrupts.restoring.foldlM (Machine.step handler)) =
      ((cause.interrupt (ofDump m.dump) m.frame).handle m.scheduler).map (fun r => ⟨loaded (toDump r.2.1),r.2.2,toDump r.2.1,r.1⟩) := by
  simp only [Cause.handler]
  cases (cause.interrupt (ofDump m.dump) m.frame).handle m.scheduler with
  | none => rfl
  | some r =>
    simp only [Option.bind_eq_bind,Option.bind_some,foldlM_restoring,Option.map_some]

/-- An interrupt of the scheduler goes through its stub to the context that the handler returns. -/
theorem interrupt_eq (m : Machine) (cause : Cause) (left : Registers) : m.interrupt cause left =
    ((cause.interrupt (ofDump m.saved) m.frame).handle m.scheduler).map (fun r => ⟨loaded (toDump r.2.1),r.2.2,toDump r.2.1,r.1⟩) := by
  have shape : stub cause.vector = .cli :: (SaveAllRegisters.map .move ++ .StandardHandler cause.vector :: Interrupts.restoring) := by
    cases cause <;> rfl
  obtain ⟨x,d,saves⟩ : ∃ x d, execAll (m.cpu,m.dump) SaveAllRegisters = (x,d) := ⟨_,_,rfl⟩
  have dump : m.saved = d := by rw [Machine.saved,saves]
  have returned := handler_restores (fun m => cause.handler left m) ⟨x,m.frame,d,m.scheduler⟩ cause left
  rw [Machine.interrupt,shape,dump,← returned]
  simp only [List.foldlM_cons,List.foldlM_append,foldlM_moves,Machine.step,Option.bind_eq_bind,Option.bind_some,saves]

/-! ### Runs -/

/-- The CPU is the processor of the current thread, and what the threads that wait are resumed with is theirs. -/
structure Mirrors (m : Machine) (h : History) (v : Nat → Processor) : Prop where
  sound : Sound m.scheduler h
  current : m.scheduler.CurrentThread ≠ 0 → v m.scheduler.CurrentThread = (m.cpu,m.frame)
  waiting : ∀ p ∈ m.scheduler.ReadyQueue.elements, v p = resumed ((Scheduler.round m.scheduler).context p)

/-- The current thread does not wait. -/
theorem waits_ne {p : Nat} (sound : Sound s h) (waits : p ∈ s.ReadyQueue.elements) : p ≠ s.CurrentThread := by
  intro same
  by_cases gone : s.CurrentThread = 0
  · exact sound.waits waits (same.trans gone)
  · have nodup := sound.members.nodup_iff.mpr sound.nodup
    rw [Round.members,Scheduler.round,thread_of_ne gone] at nodup
    exact (List.nodup_cons.mp nodup).1 (same ▸ waits)

/-- A handler resumes the processor of the thread that is current after it. -/
theorem handled_mirrors {context : Context} (dump : Dump) (mirrors : Mirrors m h v) (interrupted : resumed i.context = (m.cpu,m.frame))
    (handled : Handled m.scheduler i s' context) (sound : Sound s' ((Scheduler.Event.interrupt i).record m.scheduler h)) :
    Mirrors ⟨(resumed context).1,(resumed context).2,dump,s'⟩ ((Scheduler.Event.interrupt i).record m.scheduler h) v ∧
      (s'.CurrentThread = m.scheduler.CurrentThread → resumed context = (m.cpu,m.frame)) := by
  cases handled with
  | stay off same running =>
    have current : s'.CurrentThread = m.scheduler.CurrentThread := thread_injective (congrArg Round.running same)
    have queue : s'.ReadyQueue.elements = m.scheduler.ReadyQueue.elements := congrArg Round.waiting same
    refine ⟨⟨sound,?_,?_⟩,fun _ => interrupted⟩
    · intro some_thread
      rw [current] at some_thread
      show v s'.CurrentThread = resumed i.context
      rw [current,mirrors.current some_thread,interrupted]
    · show ∀ p ∈ s'.ReadyQueue.elements, v p = resumed ((Scheduler.round s').context p)
      rw [same,queue]
      exact mirrors.waiting
  | @switch t rest on current first now running same =>
    have queue : s'.ReadyQueue.elements = rest := congrArg Round.waiting same
    have all : ∀ p ∈ t :: rest, v p = resumed (update (Scheduler.round m.scheduler).context m.scheduler.CurrentThread i.context p) := by
      intro p member
      rw [← first] at member
      rcases List.mem_append.mp member with waits | last
      · rw [Function.update_of_ne (waits_ne mirrors.sound waits)]
        exact mirrors.waiting p waits
      · rw [List.mem_singleton.mp last,Function.update_self,interrupted]
        exact mirrors.current current
    refine ⟨⟨sound,?_,?_⟩,?_⟩
    · intro _
      show v s'.CurrentThread = _
      rw [now]
      exact all t List.mem_cons_self
    · show ∀ p ∈ s'.ReadyQueue.elements, v p = resumed ((Scheduler.round s').context p)
      rw [same,queue]
      exact fun p waits => all p (List.mem_cons_of_mem _ waits)
    · intro alone
      rw [now] at alone
      rw [alone,Function.update_self]
      exact interrupted
  | @take t rest on gone first now running same =>
    have queue : s'.ReadyQueue.elements = rest := congrArg Round.waiting same
    have all : ∀ p ∈ t :: rest, v p = resumed ((Scheduler.round m.scheduler).context p) := by
      rw [← first]
      exact mirrors.waiting
    have some_thread : t ≠ 0 := mirrors.sound.waits (by rw [first]; exact List.mem_cons_self)
    refine ⟨⟨sound,?_,?_⟩,fun alone => absurd (now.symm.trans (alone.trans gone)) some_thread⟩
    · intro _
      show v s'.CurrentThread = _
      rw [now]
      exact all t List.mem_cons_self
    · show ∀ p ∈ s'.ReadyQueue.elements, v p = resumed ((Scheduler.round s').context p)
      rw [same,queue]
      exact fun p waits => all p (List.mem_cons_of_mem _ waits)

theorem context_interrupt (cause : Cause) (registers : RegisterState) (frame : InterruptFrame) :
    (cause.interrupt registers frame).context = (registers,frame) := by
  cases cause <;> rfl

/-- Every interrupt returns, to the processor of the current thread. -/
theorem interrupt_mirrors (mirrors : Mirrors m h v) (cause : Cause) (left : Registers) : ∃ m', m.interrupt cause left = some m' ∧
    Mirrors m' ((Event.interrupt cause left).record m h) v ∧
    (m'.scheduler.CurrentThread = m.scheduler.CurrentThread → m'.cpu = m.cpu ∧ m'.frame = m.frame) := by
  obtain ⟨s',registers,frame,returned,handled⟩ := handle_handled (cause.interrupt (ofDump m.saved) m.frame) mirrors.sound.running mirrors.sound.room
  have done : (Scheduler.Event.interrupt (cause.interrupt (ofDump m.saved) m.frame)).exec m.scheduler = some s' := by
    rw [Scheduler.Event.exec,returned]
    rfl
  have interrupted : resumed (cause.interrupt (ofDump m.saved) m.frame).context = (m.cpu,m.frame) := by
    rw [context_interrupt,resumed_saved]
  obtain ⟨mirrors',alone⟩ := handled_mirrors (toDump registers) mirrors interrupted handled
    (exec_sound mirrors.sound trivial done)
  refine ⟨⟨loaded (toDump registers),frame,toDump registers,s'⟩,?_,mirrors',?_⟩
  · rw [interrupt_eq,returned]
    rfl
  · intro same
    exact Prod.mk.inj (alone same)

/-- A thread that exits leaves the processors of the others. -/
theorem dropCurrent_mirrors (mirrors : Mirrors m h v) (some_thread : m.scheduler.CurrentThread ≠ 0) (registers : RegisterState)
    (frame : InterruptFrame) : Mirrors { m with scheduler := m.scheduler.dropCurrent }
      ((Scheduler.Event.ThreadExit registers frame).record m.scheduler h) v where
  sound := exec_sound mirrors.sound trivial (threadExit_exec some_thread)
  current := fun some_thread => absurd rfl some_thread
  waiting := mirrors.waiting

theorem exec_mirrors (mirrors : Mirrors m h v) (allowed : e.Allowed m h) (done : e.exec m = some m') :
    Mirrors m' (e.record m h) (e.advance m v) := by
  cases e with
  | execute f =>
    cases done
    refine ⟨mirrors.sound,?_,?_⟩
    · intro some_thread
      show update v _ (f (v m.scheduler.CurrentThread)) _ = f (m.cpu,m.frame)
      rw [Function.update_self,mirrors.current some_thread]
    · intro p waits
      show update v _ (f (v m.scheduler.CurrentThread)) p = _
      rw [Function.update_of_ne (waits_ne mirrors.sound waits)]
      exact mirrors.waiting p waits
  | interrupt cause left =>
    obtain ⟨m'',returned,mirrors',_⟩ := interrupt_mirrors mirrors cause left
    rw [Event.exec,returned] at done
    cases done
    exact mirrors'
  | CreateThread stack newThread entry0 =>
    cases done
    have allowed' := allowed (.CreateThread stack newThread entry0) rfl
    obtain ⟨_,same⟩ := createThread_round stack newThread entry0 mirrors.sound.running mirrors.sound.room
    have queue : (m.scheduler.CreateThread stack newThread entry0).ReadyQueue.elements = m.scheduler.ReadyQueue.elements ++ [newThread] :=
      congrArg Round.waiting same
    have current : (m.scheduler.CreateThread stack newThread entry0).CurrentThread = m.scheduler.CurrentThread :=
      thread_injective (congrArg Round.running same)
    have fresh : ∀ p ∈ h.live, p ≠ newThread := by
      rintro p live rfl
      have apart := allowed'.2.2 p live
      simp only [threadSize] at apart
      omega
    refine ⟨exec_sound (e := .CreateThread stack newThread entry0) mirrors.sound allowed' rfl,?_,?_⟩
    · intro some_thread
      rw [current] at some_thread
      show update v newThread _ (m.scheduler.CreateThread stack newThread entry0).CurrentThread = _
      rw [current,Function.update_of_ne (fresh _ (mirrors.sound.current some_thread))]
      exact mirrors.current some_thread
    · intro p waits
      show update v newThread _ p = resumed ((Scheduler.round (m.scheduler.CreateThread stack newThread entry0)).context p)
      rw [same]
      show update v newThread _ p = resumed (update (Scheduler.round m.scheduler).context newThread _ p)
      by_cases new : p = newThread
      · rw [new,Function.update_self,Function.update_self]
      · rw [Function.update_of_ne new,Function.update_of_ne new]
        have waits' : p ∈ (m.scheduler.CreateThread stack newThread entry0).ReadyQueue.elements := waits
        rw [queue] at waits'
        exact mirrors.waiting p ((List.mem_append.mp waits').resolve_right (fun last => new (List.mem_singleton.mp last)))
  | ThreadExit left =>
    by_cases gone : m.scheduler.CurrentThread = 0
    · rw [Event.exec,if_pos gone] at done
      cases done
    · obtain ⟨m'',returned,mirrors',_⟩ := interrupt_mirrors (dropCurrent_mirrors mirrors gone (ofDump m.saved) m.frame) .yield left
      rw [Event.exec,if_neg gone,returned] at done
      cases done
      have quiet : (Scheduler.Event.interrupt (.yield (ofDump (Machine.saved { m with scheduler := m.scheduler.dropCurrent })) m.frame)).record
          m.scheduler.dropCurrent ((Scheduler.Event.ThreadExit (ofDump m.saved) m.frame).record m.scheduler h) =
            (Scheduler.Event.ThreadExit (ofDump m.saved) m.frame).record m.scheduler h :=
        if_neg (by rw [taskSwitches_of_gone rfl]; exact Bool.false_ne_true)
      show Mirrors m' ((Scheduler.Event.ThreadExit (ofDump m.saved) m.frame).record m.scheduler h) v
      rw [← quiet]
      exact mirrors'

theorem run_mirrors (run : Run m h v) : Mirrors m h v := by
  induction run with
  | start some_thread inside => exact ⟨started_sound some_thread inside,fun _ => rfl,fun p waits => by cases waits⟩
  | step _ allowed done ih => exact exec_mirrors ih allowed done

def idle : Registers := ⟨fun _ => 0,fun _ => 0x10,fun _ => 0,fun _ => 0⟩

/-- The kernel's thread with all registers cleared, before it creates another thread. -/
def booted : Machine := ⟨idle,{},toDump {},.started 0x1000 {} {}⟩

/-- The processors after that. -/
def twoProcessors : Nat → Processor := (Event.CreateThread 0x8000 0x2000 0x400000).advance booted (fun _ => (idle,{}))

theorem twoProcessors_run : Run { booted with scheduler := twoThreads } twoThreadsHistory twoProcessors := by
  refine .step (e := .CreateThread 0x8000 0x2000 0x400000) (.start (by decide) (by decide)) ?_ rfl
  intro e' new
  cases new
  exact ⟨by decide,by decide,by decide⟩

end WaifuOS.Processors
