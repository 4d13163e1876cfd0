import Mathlib.Data.List.FinRange
import Mathlib.Logic.Function.Basic
import Mathlib.Logic.Relation

/-!
The stubs of `Handlers.asm`. A stub saves all registers in the one static
`RegisterState`, calls the handler, and restores the registers from there; the CPU
keeps the rest of the interrupted context in the frame of the interrupt. Interrupts
nest, as those that cannot be masked do. A context is resumed with its registers
as long as every interrupt that arrives inside a stub finds the registers that the
stub is to restore (`run_unchanged`); one that arrives inside a handler leaves its
own registers in the dump, and they are what the outer context is resumed with
(`nested_resumes`).
-/
namespace WaifuOS.Interrupts

inductive General
  | rax | rbx | rcx | rdx | rsi | rdi | rbp | r8 | r9 | r10 | r11 | r12 | r13 | r14 | r15
  deriving DecidableEq

inductive Segment
  | ds | es | fs | gs
  deriving DecidableEq

/-- The registers that the stubs save. -/
@[ext] structure Registers where
  general : General → BitVec 64
  segment : Segment → BitVec 16
  mm : Fin 8 → BitVec 64
  ymm : Fin 16 → BitVec 256

/-- The dump. -/
structure RegisterState where
  general : General → BitVec 64
  segment : Segment → BitVec 64
  mm : Fin 8 → BitVec 64
  ymm : Fin 16 → BitVec 256

/-- The moves between the registers and the dump. -/
inductive Instruction
  | saveGeneral (r : General)
  /-- `mov rax, s` -/
  | movRax (s : Segment)
  /-- `mov [RegisterState.s], rax` -/
  | saveRax (s : Segment)
  | saveMm (i : Fin 8)
  | saveYmm (i : Fin 16)
  /-- `mov rax, [RegisterState.s]` -/
  | loadRax (s : Segment)
  /-- `mov s, rax` -/
  | movSegment (s : Segment)
  | loadGeneral (r : General)
  | loadMm (i : Fin 8)
  | loadYmm (i : Fin 16)

abbrev Cpu := Registers × RegisterState

open Function (update)

def Registers.setGeneral (r : Registers) (g : General) (value : BitVec 64) : Registers :=
  { r with general := update r.general g value }

@[simp] theorem setGeneral_segment (r : Registers) (g : General) (value : BitVec 64) :
    (r.setGeneral g value).segment = r.segment := rfl
@[simp] theorem setGeneral_mm (r : Registers) (g : General) (value : BitVec 64) : (r.setGeneral g value).mm = r.mm := rfl
@[simp] theorem setGeneral_ymm (r : Registers) (g : General) (value : BitVec 64) : (r.setGeneral g value).ymm = r.ymm := rfl

namespace Instruction

def exec (x : Cpu) : Instruction → Cpu
  | .saveGeneral g => (x.1,{ x.2 with general := update x.2.general g (x.1.general g) })
  | .movRax s => (x.1.setGeneral .rax ((x.1.segment s).setWidth 64),x.2)
  | .saveRax s => (x.1,{ x.2 with segment := update x.2.segment s (x.1.general .rax) })
  | .saveMm i => (x.1,{ x.2 with mm := update x.2.mm i (x.1.mm i) })
  | .saveYmm i => (x.1,{ x.2 with ymm := update x.2.ymm i (x.1.ymm i) })
  | .loadRax s => (x.1.setGeneral .rax (x.2.segment s),x.2)
  | .movSegment s => ({ x.1 with segment := update x.1.segment s ((x.1.general .rax).setWidth 16) },x.2)
  | .loadGeneral g => (x.1.setGeneral g (x.2.general g),x.2)
  | .loadMm i => ({ x.1 with mm := update x.1.mm i (x.2.mm i) },x.2)
  | .loadYmm i => ({ x.1 with ymm := update x.1.ymm i (x.2.ymm i) },x.2)

end Instruction

def generals : List General :=
  [.rax,.rbx,.rcx,.rdx,.rsi,.rdi,.rbp,.r8,.r9,.r10,.r11,.r12,.r13,.r14,.r15]

def segments : List Segment := [.ds,.es,.fs,.gs]

def saveSegments (ss : List Segment) : List Instruction := ss.flatMap (fun s => [.movRax s,.saveRax s])

def loadSegments (ss : List Segment) : List Instruction := ss.flatMap (fun s => [.loadRax s,.movSegment s])

/-- `SaveAllRegisters` after the segment registers. -/
def saveWide : List Instruction := (List.finRange 8).map .saveMm ++ (List.finRange 16).map .saveYmm

def SaveAllRegisters : List Instruction := generals.map .saveGeneral ++ (saveSegments segments ++ saveWide)

/-- `RestoreAllRegisters` after the segment registers. -/
def loadOthers : List Instruction :=
  generals.map .loadGeneral ++ ((List.finRange 8).map .loadMm ++ (List.finRange 16).map .loadYmm)

def RestoreAllRegisters : List Instruction := loadSegments segments ++ loadOthers

/-- The steps of a stub. `StandardHandler` sets the arguments and calls the handler. -/
inductive Op
  | cli
  | move (i : Instruction)
  | popRdx
  | StandardHandler (vector : Nat)
  | iretq

/-- What `StandardHandler` returns to. -/
def restoring : List Op := RestoreAllRegisters.map .move ++ [.iretq]

def HandlerStub (vector : Nat) : List Op :=
  .cli :: (SaveAllRegisters.map .move ++ .StandardHandler vector :: restoring)

def ErrorHandlerStub (vector : Nat) : List Op :=
  SaveAllRegisters.map .move ++ .popRdx :: .StandardHandler vector :: restoring

/-- The vectors of the table whose stub is an `ErrorHandlerStub`. -/
def errorVectors : List Nat := [8,10,11,12,13,14,17,21,29,30]

def stub (vector : Nat) : List Op := if vector ∈ errorVectors then ErrorHandlerStub vector else HandlerStub vector

/-- An interrupt that has not returned: the registers that were interrupted, the error
    code that was pushed, and what its stub has left to do. -/
structure Activation where
  interrupted : Registers
  errorCode : BitVec 64
  rest : List Op

/-- The CPU and the dump, the interrupts that have not returned, innermost first, and
    for each one that has, the registers that were interrupted and those that were resumed. -/
structure Machine where
  cpu : Cpu
  stack : List Activation
  resumed : List (Registers × Registers)

/-- The CPU takes an interrupt. -/
def Machine.interrupt (m : Machine) (vector : Nat) (errorCode : BitVec 64) : Machine :=
  { m with stack := ⟨m.cpu.1,errorCode,stub vector⟩ :: m.stack }

/-- What runs on the CPU: the interrupted program, the innermost stub, or its handler,
    which switches no thread and so leaves the dump as it is. -/
inductive Step : Machine → Machine → Prop
  | program {x : Cpu} {resumed : List (Registers × Registers)} (registers : Registers) :
      Step ⟨x,[],resumed⟩ ⟨(registers,x.2),[],resumed⟩
  | cli {x : Cpu} {c : Registers} {code : BitVec 64} {rest : List Op} {below : List Activation}
      {resumed : List (Registers × Registers)} :
      Step ⟨x,⟨c,code,.cli :: rest⟩ :: below,resumed⟩ ⟨x,⟨c,code,rest⟩ :: below,resumed⟩
  | move {x : Cpu} {c : Registers} {code : BitVec 64} {i : Instruction} {rest : List Op} {below : List Activation}
      {resumed : List (Registers × Registers)} :
      Step ⟨x,⟨c,code,.move i :: rest⟩ :: below,resumed⟩ ⟨i.exec x,⟨c,code,rest⟩ :: below,resumed⟩
  | popRdx {x : Cpu} {c : Registers} {code : BitVec 64} {rest : List Op} {below : List Activation}
      {resumed : List (Registers × Registers)} :
      Step ⟨x,⟨c,code,.popRdx :: rest⟩ :: below,resumed⟩
        ⟨(x.1.setGeneral .rdx code,x.2),⟨c,code,rest⟩ :: below,resumed⟩
  | handler {x : Cpu} {c : Registers} {code : BitVec 64} {vector : Nat} {rest : List Op} {below : List Activation}
      {resumed : List (Registers × Registers)} (registers : Registers) :
      Step ⟨x,⟨c,code,.StandardHandler vector :: rest⟩ :: below,resumed⟩
        ⟨(registers,x.2),⟨c,code,.StandardHandler vector :: rest⟩ :: below,resumed⟩
  | returns {x : Cpu} {c : Registers} {code : BitVec 64} {vector : Nat} {rest : List Op} {below : List Activation}
      {resumed : List (Registers × Registers)} :
      Step ⟨x,⟨c,code,.StandardHandler vector :: rest⟩ :: below,resumed⟩ ⟨x,⟨c,code,rest⟩ :: below,resumed⟩
  | iretq {x : Cpu} {c : Registers} {code : BitVec 64} {rest : List Op} {below : List Activation}
      {resumed : List (Registers × Registers)} :
      Step ⟨x,⟨c,code,.iretq :: rest⟩ :: below,resumed⟩ ⟨x,below,(c,x.1) :: resumed⟩

/-- The machines that are reached with interrupts where `Allowed` permits one. -/
inductive Run (Allowed : Machine → Prop) : Machine → Prop
  | start (x : Cpu) : Run Allowed ⟨x,[],[]⟩
  | step {m m' : Machine} (earlier : Run Allowed m) (step : Step m m') : Run Allowed m'
  | interrupt {m : Machine} {vector : Nat} {errorCode : BitVec 64} (earlier : Run Allowed m) (allowed : Allowed m) :
      Run Allowed (m.interrupt vector errorCode)

/-- Inside a stub the registers are those that it is to restore. -/
def Undisturbed (m : Machine) : Prop := ∀ a ∈ m.stack.head?, m.cpu.1 = a.interrupted

def execAll (x : Cpu) (l : List Instruction) : Cpu := l.foldl Instruction.exec x

theorem execAll_append (x : Cpu) (l l' : List Instruction) : execAll x (l ++ l') = execAll (execAll x l) l' :=
  List.foldl_append

/-- The dump holds the registers `c`; of a segment register the low 16 bits count. -/
structure Represents (c : Registers) (d : RegisterState) : Prop where
  general : ∀ g, d.general g = c.general g
  segment : ∀ s, (d.segment s).setWidth 16 = c.segment s
  mm : ∀ i, d.mm i = c.mm i
  ymm : ∀ i, d.ymm i = c.ymm i

/-- A load of a register that is no segment register. -/
def Instruction.Plain : Instruction → Prop
  | .loadGeneral _ => True
  | .loadMm _ => True
  | .loadYmm _ => True
  | _ => False

variable {c r : Registers} {d d' : RegisterState} {x : Cpu} {l : List Instruction} {s : Segment} {ss : List Segment}

/-- After an update with its value, a function has fewer values left to set. -/
theorem updated {ι β : Type} [DecidableEq ι] {f g : ι → β} {i j : ι} {v : β} {left : Prop} (value : v = g j)
    (there : f i = g i ∨ i = j ∨ left) : update f j v i = g i ∨ left := by
  by_cases same : i = j
  · subst same
    exact .inl (by rw [Function.update_self,value])
  · rw [Function.update_of_ne same]
    exact there.imp_right (fun h => h.resolve_left same)

/-- Loads complete the registers when those that they do not load are there. -/
theorem load_plain (represents : Represents c d) (plain : ∀ i ∈ l, i.Plain)
    (general : ∀ g, r.general g = c.general g ∨ .loadGeneral g ∈ l) (segment : ∀ s, r.segment s = c.segment s)
    (mm : ∀ i, r.mm i = c.mm i ∨ .loadMm i ∈ l) (ymm : ∀ i, r.ymm i = c.ymm i ∨ .loadYmm i ∈ l) :
    execAll (r,d) l = (c,d) := by
  induction l generalizing r with
  | nil =>
    have same : r = c := by
      ext1
      · funext g
        exact (general g).resolve_right (by simp)
      · exact funext segment
      · funext i
        exact (mm i).resolve_right (by simp)
      · funext i
        exact (ymm i).resolve_right (by simp)
    rw [same]
    rfl
  | cons i l ih =>
    have later : ∀ i ∈ l, i.Plain := fun i member => plain i (List.mem_cons_of_mem _ member)
    have here := plain i (by simp)
    cases i with
    | loadGeneral g =>
      refine ih later ?_ segment (fun i => by simpa using mm i) (fun i => by simpa using ymm i)
      intro h
      exact updated (represents.general g) (by simpa using general h)
    | loadMm j =>
      refine ih later (fun g => by simpa using general g) segment ?_ (fun i => by simpa using ymm i)
      intro i
      exact updated (represents.mm j) (by simpa using mm i)
    | loadYmm j =>
      refine ih later (fun g => by simpa using general g) segment (fun i => by simpa using mm i) ?_
      intro i
      exact updated (represents.ymm j) (by simpa using ymm i)
    | _ => exact here.elim

/-- What the segment loads leave. -/
theorem load_segments (ss : List Segment) (represents : Represents c d) (segment : ∀ s, r.segment s = c.segment s ∨ s ∈ ss) :
    ∃ v, execAll (r,d) (loadSegments ss) = ({ r.setGeneral .rax v with segment := c.segment },d) := by
  induction ss generalizing r with
  | nil =>
    have same : r.segment = c.segment := funext (fun s => (segment s).resolve_right (by simp))
    exact ⟨r.general .rax,by rw [← same]; simp [loadSegments,execAll,Registers.setGeneral]⟩
  | cons s ss ih =>
    obtain ⟨v,loaded⟩ := ih (r := { r.setGeneral .rax (d.segment s) with segment := update r.segment s (c.segment s) })
      (fun t => by
        by_cases same : t = s
        · subst same
          exact .inl (by simp)
        · simpa [same] using segment t)
    refine ⟨v,?_⟩
    have first : execAll (r,d) [.loadRax s,.movSegment s] =
        ({ r.setGeneral .rax (d.segment s) with segment := update r.segment s (c.segment s) },d) := by
      simp [execAll,Instruction.exec,Registers.setGeneral,represents.segment]
    have parts : loadSegments (s :: ss) = [.loadRax s,.movSegment s] ++ loadSegments ss := rfl
    rw [parts,execAll_append,first,loaded]
    simp [Registers.setGeneral]

theorem mem_generals (g : General) : g ∈ generals := by cases g <;> decide

theorem mem_segments (s : Segment) : s ∈ segments := by cases s <;> decide

theorem loadOthers_plain {i : Instruction} (member : i ∈ loadOthers) : i.Plain := by
  simp only [loadOthers,List.mem_append,List.mem_map] at member
  rcases member with ⟨_,_,rfl⟩ | ⟨_,_,rfl⟩ | ⟨_,_,rfl⟩ <;> trivial

theorem loadOthers_general (g : General) : .loadGeneral g ∈ loadOthers := by simp [loadOthers,mem_generals]

/-- From a dump that holds `c` the registers `c` are restored. -/
theorem restore (represents : Represents c d) : execAll (r,d) RestoreAllRegisters = (c,d) := by
  obtain ⟨v,loaded⟩ := load_segments (r := r) segments represents (fun s => .inr (mem_segments s))
  rw [RestoreAllRegisters,execAll_append,loaded]
  exact load_plain represents (fun i => loadOthers_plain) (fun g => .inr (loadOthers_general g)) (fun s => rfl)
    (fun i => .inr (by simp [loadOthers])) (fun i => .inr (by simp [loadOthers]))

/-- Registers that are `c` already stay so when segment registers and then the others are loaded. -/
theorem restore_again (represents : Represents c d) : execAll (c,d) (loadSegments ss ++ loadOthers) = (c,d) := by
  obtain ⟨v,loaded⟩ := load_segments (r := c) ss represents (fun s => .inl rfl)
  rw [execAll_append,loaded]
  exact load_plain represents (fun i => loadOthers_plain) (fun g => .inr (loadOthers_general g)) (fun s => rfl)
    (fun i => .inl rfl) (fun i => .inl rfl)

/-- A save of a register that is no segment register. -/
def Instruction.PlainSave : Instruction → Prop
  | .saveGeneral _ => True
  | .saveMm _ => True
  | .saveYmm _ => True
  | _ => False

/-- Saves complete the dump when the slots that they do not write are there. -/
theorem save_plain (plain : ∀ i ∈ l, i.PlainSave) (general : ∀ g, .saveGeneral g ∈ l → r.general g = c.general g)
    (mm : r.mm = c.mm) (ymm : r.ymm = c.ymm) : ∃ d', execAll (r,d) l = (r,d') ∧ d'.segment = d.segment ∧
      (∀ g, d.general g = c.general g ∨ .saveGeneral g ∈ l → d'.general g = c.general g) ∧
      (∀ i, d.mm i = c.mm i ∨ .saveMm i ∈ l → d'.mm i = c.mm i) ∧
      (∀ i, d.ymm i = c.ymm i ∨ .saveYmm i ∈ l → d'.ymm i = c.ymm i) := by
  induction l generalizing d with
  | nil =>
    exact ⟨d,rfl,rfl,fun g there => there.resolve_right (by simp),fun i there => there.resolve_right (by simp),
      fun i there => there.resolve_right (by simp)⟩
  | cons i l ih =>
    have here := plain i (by simp)
    have ih := fun d => ih (d := d) (fun i member => plain i (List.mem_cons_of_mem _ member))
      (fun g member => general g (List.mem_cons_of_mem _ member))
    cases i with
    | saveGeneral g =>
      obtain ⟨d',done,segments,generals,mms,ymms⟩ := ih { d with general := update d.general g (r.general g) }
      refine ⟨d',done,segments,fun h there => generals h ?_,fun i there => mms i (by simpa using there),
        fun i there => ymms i (by simpa using there)⟩
      exact updated (general g List.mem_cons_self) (by simpa using there)
    | saveMm j =>
      obtain ⟨d',done,segments,generals,mms,ymms⟩ := ih { d with mm := update d.mm j (r.mm j) }
      refine ⟨d',done,segments,fun g there => generals g (by simpa using there),fun i there => mms i ?_,
        fun i there => ymms i (by simpa using there)⟩
      exact updated (congrFun mm j) (by simpa using there)
    | saveYmm j =>
      obtain ⟨d',done,segments,generals,mms,ymms⟩ := ih { d with ymm := update d.ymm j (r.ymm j) }
      refine ⟨d',done,segments,fun g there => generals g (by simpa using there),fun i there => mms i (by simpa using there),
        fun i there => ymms i ?_⟩
      exact updated (congrFun ymm j) (by simpa using there)
    | _ => exact here.elim

/-- What the saves of the segment registers leave. -/
theorem save_segments (r : Registers) (d : RegisterState) (ss : List Segment) : ∃ v d',
    execAll (r,d) (saveSegments ss) = (r.setGeneral .rax v,d') ∧ d'.general = d.general ∧
    ∀ s, (d.segment s).setWidth 16 = r.segment s ∨ s ∈ ss → (d'.segment s).setWidth 16 = r.segment s := by
  induction ss generalizing r d with
  | nil =>
    exact ⟨r.general .rax,d,by simp [saveSegments,execAll,Registers.setGeneral],rfl,fun s there => there.resolve_right (by simp)⟩
  | cons s ss ih =>
    obtain ⟨v,d',done,general,segment⟩ := ih (r := r.setGeneral .rax ((r.segment s).setWidth 64))
      (d := { d with segment := update d.segment s ((r.segment s).setWidth 64) })
    refine ⟨v,d',?_,general,fun t there => segment t ?_⟩
    · have first : execAll (r,d) [.movRax s,.saveRax s] = (r.setGeneral .rax ((r.segment s).setWidth 64),
          { d with segment := update d.segment s ((r.segment s).setWidth 64) }) := by
        simp [execAll,Instruction.exec,Registers.setGeneral]
      have parts : saveSegments (s :: ss) = [.movRax s,.saveRax s] ++ saveSegments ss := rfl
      rw [parts,execAll_append,first,done]
      simp [Registers.setGeneral]
    · by_cases same : t = s
      · subst same
        exact .inl (by simp)
      · simpa [same] using there

/-- `SaveAllRegisters` leaves a dump of the registers. -/
theorem save : ∃ v d', execAll (c,d) SaveAllRegisters = (c.setGeneral .rax v,d') ∧ Represents c d' := by
  obtain ⟨d₁,first,_,generals₁,_⟩ := save_plain (r := c) (c := c) (d := d) (l := generals.map .saveGeneral)
    (by simp [Instruction.PlainSave]) (fun g _ => rfl) rfl rfl
  obtain ⟨v,d₂,second,generals₂,segments₂⟩ := save_segments c d₁ segments
  obtain ⟨d₃,third,segments₃,generals₃,mms₃,ymms₃⟩ := save_plain (r := c.setGeneral .rax v) (c := c) (d := d₂) (l := saveWide)
    (by simp only [saveWide,List.mem_append,List.mem_map]; rintro i (⟨_,_,rfl⟩ | ⟨_,_,rfl⟩) <;> trivial)
    (by simp [saveWide]) rfl rfl
  refine ⟨v,d₃,?_,?_,?_,?_,?_⟩
  · rw [SaveAllRegisters,execAll_append,execAll_append,first,second,third]
  · intro g
    refine generals₃ g (.inl ?_)
    rw [generals₂]
    exact generals₁ g (.inr (by simp [mem_generals]))
  · intro s
    rw [segments₃]
    exact segments₂ s (.inr (mem_segments s))
  · intro i
    exact mms₃ i (.inr (by simp [saveWide]))
  · intro i
    exact ymms₃ i (.inr (by simp [saveWide]))

/-- A move to the dump, or the one to `rax` before it. -/
def Instruction.Saving : Instruction → Prop
  | .saveGeneral _ => True
  | .movRax _ => True
  | .saveRax _ => True
  | .saveMm _ => True
  | .saveYmm _ => True
  | _ => False

/-- Each slot of `d'` is that of `d`, or holds what it has to hold for `c`. -/
structure Patched (c : Registers) (d d' : RegisterState) : Prop where
  general : ∀ g, d'.general g = d.general g ∨ d'.general g = c.general g
  segment : ∀ s, d'.segment s = d.segment s ∨ (d'.segment s).setWidth 16 = c.segment s
  mm : ∀ i, d'.mm i = d.mm i ∨ d'.mm i = c.mm i
  ymm : ∀ i, d'.ymm i = d.ymm i ∨ d'.ymm i = c.ymm i

theorem Represents.patched (represents : Represents c d) (patched : Patched c d d') : Represents c d' where
  general g := (patched.general g).elim (fun same => same.trans (represents.general g)) id
  segment s := (patched.segment s).elim (fun same => by rw [same]; exact represents.segment s) id
  mm i := (patched.mm i).elim (fun same => same.trans (represents.mm i)) id
  ymm i := (patched.ymm i).elim (fun same => same.trans (represents.ymm i)) id

/-- The saving moves do not read the dump. -/
theorem exec_saving {i : Instruction} (saving : i.Saving) (patched : Patched c d d') :
    (i.exec (r,d')).1 = (i.exec (r,d)).1 ∧ Patched c (i.exec (r,d)).2 (i.exec (r,d')).2 := by
  cases i with
  | saveGeneral g =>
    refine ⟨rfl,?_,patched.segment,patched.mm,patched.ymm⟩
    intro h
    by_cases same : h = g
    · subst same
      exact .inl (by simp [Instruction.exec])
    · simpa [Instruction.exec,same] using patched.general h
  | movRax s => exact ⟨rfl,patched⟩
  | saveRax s =>
    refine ⟨rfl,patched.general,?_,patched.mm,patched.ymm⟩
    intro t
    by_cases same : t = s
    · subst same
      exact .inl (by simp [Instruction.exec])
    · simpa [Instruction.exec,same] using patched.segment t
  | saveMm j =>
    refine ⟨rfl,patched.general,patched.segment,?_,patched.ymm⟩
    intro i
    by_cases same : i = j
    · subst same
      exact .inl (by simp [Instruction.exec])
    · simpa [Instruction.exec,same] using patched.mm i
  | saveYmm j =>
    refine ⟨rfl,patched.general,patched.segment,patched.mm,?_⟩
    intro i
    by_cases same : i = j
    · subst same
      exact .inl (by simp [Instruction.exec])
    · simpa [Instruction.exec,same] using patched.ymm i
  | _ => exact saving.elim

theorem execAll_saving (saving : ∀ i ∈ l, i.Saving) (patched : Patched c d d') :
    (execAll (r,d') l).1 = (execAll (r,d) l).1 ∧ Patched c (execAll (r,d) l).2 (execAll (r,d') l).2 := by
  induction l generalizing r d d' with
  | nil => exact ⟨rfl,patched⟩
  | cons i l ih =>
    obtain ⟨same,patched'⟩ := exec_saving (r := r) (saving i (by simp)) patched
    obtain ⟨x,isX⟩ : ∃ x, x = i.exec (r,d) := ⟨_,rfl⟩
    obtain ⟨x',isX'⟩ : ∃ x, x = i.exec (r,d') := ⟨_,rfl⟩
    rw [← isX,← isX'] at same patched'
    have later := ih (r := x.1) (fun i member => saving i (List.mem_cons_of_mem _ member)) patched'
    have both : execAll (r,d') (i :: l) = execAll (x.1,x'.2) l := by rw [execAll,List.foldl_cons,← isX',← same]; rfl
    have first : execAll (r,d) (i :: l) = execAll (x.1,x.2) l := by rw [execAll,List.foldl_cons,← isX]; rfl
    rw [both,first]
    exact later

/-- The rest of a stub leads to `c` and leaves a dump of it, whatever registers its handler returns. -/
def Leads (c : Registers) (code : BitVec 64) : Cpu → List Op → Prop
  | _, [] => False
  | x, .cli :: rest => Leads c code x rest
  | x, .move i :: rest => Leads c code (i.exec x) rest
  | x, .popRdx :: rest => Leads c code (x.1.setGeneral .rdx code,x.2) rest
  | x, .StandardHandler _ :: rest => ∀ registers, Leads c code (registers,x.2) rest
  | x, .iretq :: _ => x.1 = c ∧ Represents c x.2

variable {code : BitVec 64} {rest tail : List Op} {vector : Nat}

theorem leads_cli : Leads c code x (.cli :: rest) ↔ Leads c code x rest := Iff.rfl

theorem leads_popRdx : Leads c code x (.popRdx :: rest) ↔ Leads c code (x.1.setGeneral .rdx code,x.2) rest := Iff.rfl

theorem leads_moves : Leads c code x (l.map .move ++ rest) ↔ Leads c code (execAll x l) rest := by
  induction l generalizing x with
  | nil => rfl
  | cons i l ih => exact ih

theorem exec_dump {i : Instruction} (loading : ¬ i.Saving) : (i.exec x).2 = x.2 := by
  cases i with
  | saveGeneral _ => exact absurd trivial loading
  | saveRax _ => exact absurd trivial loading
  | saveMm _ => exact absurd trivial loading
  | saveYmm _ => exact absurd trivial loading
  | _ => rfl

theorem execAll_dump (loading : ∀ i ∈ l, ¬ i.Saving) : (execAll x l).2 = x.2 := by
  induction l generalizing x with
  | nil => rfl
  | cons i l ih =>
    exact (ih (fun i member => loading i (List.mem_cons_of_mem _ member))).trans (exec_dump (loading i (by simp)))

theorem restore_loading {i : Instruction} (member : i ∈ RestoreAllRegisters) : ¬ i.Saving := by
  rcases List.mem_append.mp member with segment | other
  · simp only [loadSegments,List.mem_flatMap,List.mem_cons,List.not_mem_nil,or_false] at segment
    obtain ⟨_,_,rfl | rfl⟩ := segment <;> exact id
  · have plain := loadOthers_plain other
    cases i <;> first | exact id | exact plain.elim

theorem save_saving {i : Instruction} (member : i ∈ SaveAllRegisters) : i.Saving := by
  simp only [SaveAllRegisters,saveSegments,saveWide,List.mem_append,List.mem_map,List.mem_flatMap,List.mem_cons,
    List.not_mem_nil,or_false] at member
  obtain ⟨_,_,rfl⟩ | ⟨_,_,rfl | rfl⟩ | ⟨_,_,rfl⟩ | ⟨_,_,rfl⟩ := member <;> trivial

/-- Before the handler and after it only the dump counts. -/
theorem leads_handler (vector : Nat) : Leads c code x (.StandardHandler vector :: restoring) ↔ Represents c x.2 := by
  constructor
  · intro leads
    have back := (leads_moves.mp (leads c)).2
    rwa [execAll_dump (fun i => restore_loading)] at back
  · intro represents registers
    apply leads_moves.mpr
    rw [restore represents]
    exact ⟨rfl,represents⟩

/-- A stub leads back to the registers that it starts with. -/
theorem leads_stub : Leads c code (c,d) (stub vector) := by
  obtain ⟨v,d',saved,represents⟩ := save (c := c) (d := d)
  simp only [stub]
  split
  · rw [ErrorHandlerStub,leads_moves,saved,leads_popRdx]
    exact (leads_handler vector).mpr represents
  · rw [HandlerStub,leads_cli,leads_moves,saved]
    exact (leads_handler vector).mpr represents

/-! ### After another stub -/

theorem suffix_append {α : Type} {l a b : List α} (suffix : l <:+ a ++ b) : l <:+ b ∨ ∃ a', a' <:+ a ∧ l = a' ++ b := by
  obtain ⟨front,whole⟩ := suffix
  rcases List.append_eq_append_iff.mp whole with ⟨a',rfl,rfl⟩ | ⟨b',rfl,rfl⟩
  · exact .inr ⟨a',⟨front,rfl⟩,rfl⟩
  · exact .inl ⟨b',rfl⟩

/-- A suffix of the segment loads starts with a load, or between the two moves of one. -/
theorem loadSegments_suffix (suffix : l <:+ loadSegments ss) (nodup : ss.Nodup) :
    ∃ ss', ss' <:+ ss ∧ (l = loadSegments ss' ∨ ∃ s, s ∉ ss' ∧ l = .movSegment s :: loadSegments ss') := by
  induction ss with
  | nil => exact ⟨[],List.suffix_refl _,.inl (List.suffix_nil.mp suffix)⟩
  | cons s ss ih =>
    obtain ⟨fresh,nodup'⟩ := List.nodup_cons.mp nodup
    have parts : loadSegments (s :: ss) = .loadRax s :: .movSegment s :: loadSegments ss := rfl
    rw [parts] at suffix
    rcases List.suffix_cons_iff.mp suffix with whole | suffix
    · exact ⟨s :: ss,List.suffix_refl _,.inl whole⟩
    · rcases List.suffix_cons_iff.mp suffix with half | suffix
      · exact ⟨ss,List.suffix_cons s ss,.inr ⟨s,fresh,half⟩⟩
      · obtain ⟨ss',inside,shape⟩ := ih suffix nodup'
        exact ⟨ss',inside.trans (List.suffix_cons s ss),shape⟩

/-- A segment register that is not moved to is kept. -/
theorem execAll_segment (other : .movSegment s ∉ l) : (execAll x l).1.segment s = x.1.segment s := by
  induction l generalizing x with
  | nil => rfl
  | cons i l ih =>
    rw [List.mem_cons,not_or] at other
    apply (ih (x := i.exec x) other.2).trans
    cases i with
    | movSegment t =>
      have differ : s ≠ t := fun same => other.1 (by rw [same])
      simp [Instruction.exec,differ]
    | _ => rfl

/-- A part of `RestoreAllRegisters` that leads from `c` to `c` does so from every dump of `c`. -/
theorem restore_suffix (suffix : l <:+ RestoreAllRegisters) (leads : (execAll (c,d) l).1 = c) (represents : Represents c d') :
    execAll (c,d') l = (c,d') := by
  rcases suffix_append suffix with others | ⟨front,inside,rfl⟩
  · refine load_plain represents (fun i member => loadOthers_plain (others.subset member)) (fun g => .inl rfl) (fun s => rfl)
      (fun i => .inl rfl) (fun i => .inl rfl)
  · obtain ⟨ss,_,rfl | ⟨s,fresh,rfl⟩⟩ := loadSegments_suffix inside (by decide)
    · exact restore_again represents
    · -- The value in `rax` is moved to `s`, which nothing changes afterwards.
      have kept := execAll_segment (s := s) (x := (Instruction.movSegment s).exec (c,d)) (l := loadSegments ss ++ loadOthers)
        (by simp [loadSegments,loadOthers,fresh])
      have final : (execAll ((Instruction.movSegment s).exec (c,d)) (loadSegments ss ++ loadOthers)).1 = c := leads
      rw [final] at kept
      have moved : (Instruction.movSegment s).exec (c,d') = (c,d') := by
        simp only [Instruction.exec,Function.update_self] at kept ⊢
        rw [← kept,Function.update_eq_self]
      have first : execAll (c,d') (.movSegment s :: loadSegments ss ++ loadOthers) =
          execAll ((Instruction.movSegment s).exec (c,d')) (loadSegments ss ++ loadOthers) := rfl
      rw [first,moved]
      exact restore_again represents

/-- The part of a stub from the handler on. -/
theorem leads_again_restoring (suffix : rest <:+ restoring) (leads : Leads c code (c,d) rest) (represents : Represents c d') :
    Leads c code (c,d') rest := by
  rcases suffix_append suffix with last | ⟨front,inside,rfl⟩
  · rcases List.suffix_cons_iff.mp last with rfl | none
    · exact ⟨rfl,represents⟩
    · rw [List.suffix_nil.mp none] at leads
      exact leads.elim
  · obtain ⟨l,part,rfl⟩ := List.suffix_map_iff.mp inside
    rw [leads_moves] at leads ⊢
    rw [restore_suffix part leads.1 represents]
    exact ⟨rfl,represents⟩

/-- A part of a stub from which the handler is reached with a dump of `c` reaches it from every patched dump too. -/
theorem leads_again_saving (saving : ∀ i ∈ l, i.Saving) (dump : ∀ x, Leads c code x tail ↔ Represents c x.2)
    (leads : Leads c code (r,d) (l.map .move ++ tail)) (patched : Patched c d d') : Leads c code (r,d') (l.map .move ++ tail) := by
  rw [leads_moves,dump] at leads ⊢
  exact leads.patched (execAll_saving saving patched).2

/-- Registers that are `c` while a stub is to restore `c` may go through another stub. -/
theorem leads_again (suffix : rest <:+ stub vector) (leads : Leads c code (c,d) rest) (represents : Represents c d') :
    Leads c code (c,d') rest := by
  have patched : Patched c d d' := ⟨fun g => .inr (represents.general g),fun s => .inr (represents.segment s),
    fun i => .inr (represents.mm i),fun i => .inr (represents.ymm i)⟩
  have handler : ∀ x, Leads c code x (.StandardHandler vector :: restoring) ↔ Represents c x.2 := fun x => leads_handler vector
  -- From the handler on, and then the moves before it.
  have later : rest <:+ .StandardHandler vector :: restoring → Leads c code (c,d') rest := fun suffix => by
    rcases List.suffix_cons_iff.mp suffix with rfl | inside
    · exact (handler _).mpr represents
    · exact leads_again_restoring inside leads represents
  simp only [stub] at suffix
  split at suffix
  · have popped : ∀ x, Leads c code x (.popRdx :: .StandardHandler vector :: restoring) ↔ Represents c x.2 := fun x => handler _
    rcases suffix_append suffix with tail | ⟨front,inside,rfl⟩
    · rcases List.suffix_cons_iff.mp tail with rfl | inside
      · exact (popped _).mpr represents
      · exact later inside
    · obtain ⟨l,part,rfl⟩ := List.suffix_map_iff.mp inside
      exact leads_again_saving (fun i member => save_saving (part.subset member)) popped leads patched
  · rcases List.suffix_cons_iff.mp suffix with rfl | suffix
    · exact leads_cli.mpr (leads_again_saving (fun i => save_saving) handler (leads_cli.mp leads) patched)
    · rcases suffix_append suffix with tail | ⟨front,inside,rfl⟩
      · exact later tail
      · obtain ⟨l,part,rfl⟩ := List.suffix_map_iff.mp inside
        exact leads_again_saving (fun i member => save_saving (part.subset member)) handler leads patched

/-! ### Runs -/

/-- The activations `as` are inside their stubs, and each of them, once the one above it
    has returned to the registers `c`, leads to its target. -/
def Waiting : Registers → List Registers → List Activation → Prop
  | _, [], _ => True
  | c, t :: ts, a :: as => (∀ d, Represents c d → Leads t a.errorCode (c,d) a.rest) ∧ Waiting t ts as
  | _, _ :: _, [] => False

/-- The innermost activations lead to the targets, one after another. -/
def Sound (x : Cpu) : List Registers → List Activation → Prop
  | [], _ => True
  | t :: ts, a :: as => Leads t a.errorCode x a.rest ∧ Waiting t ts as
  | _ :: _, [] => False

variable {m m' : Machine} {ts : List Registers} {t : Registers} {vector' : Nat}

/-- A return makes the next activation the innermost one. -/
theorem Waiting.sound {as : List Activation} (waiting : Waiting c ts as) (represents : Represents c d) : Sound (c,d) ts as := by
  cases ts with
  | nil => trivial
  | cons t ts =>
    cases as with
    | nil => exact waiting.elim
    | cons a as => exact ⟨waiting.1 d represents,waiting.2⟩

/-- A step leads on to the targets, or it returns to the first one. -/
theorem step_sound (step : Step m m') (sound : Sound m.cpu (t :: ts) m.stack) :
    (∃ a rest below, m.stack = a :: below ∧ rest <:+ a.rest ∧ m'.stack = { a with rest } :: below ∧ m'.resumed = m.resumed ∧
      Sound m'.cpu (t :: ts) m'.stack) ∨
    ∃ a below, m.stack = a :: below ∧ m'.stack = below ∧ m'.resumed = (a.interrupted,t) :: m.resumed ∧ Sound m'.cpu ts below := by
  cases step with
  | program registers => exact sound.elim
  | cli => exact .inl ⟨_,_,_,rfl,List.suffix_cons _ _,rfl,rfl,sound⟩
  | move => exact .inl ⟨_,_,_,rfl,List.suffix_cons _ _,rfl,rfl,sound⟩
  | popRdx => exact .inl ⟨_,_,_,rfl,List.suffix_cons _ _,rfl,rfl,sound⟩
  | handler registers => exact .inl ⟨_,_,_,rfl,List.suffix_refl _,rfl,rfl,⟨fun registers => sound.1 registers,sound.2⟩⟩
  | returns => exact .inl ⟨_,_,_,rfl,List.suffix_cons _ _,rfl,rfl,⟨sound.1 _,sound.2⟩⟩
  | iretq =>
    obtain ⟨⟨same,represents⟩,waiting⟩ := sound
    refine .inr ⟨_,_,rfl,rfl,by rw [same],?_⟩
    have back := waiting.sound represents
    rw [← same] at back
    exact back

/-- Without an interrupted context nothing is resumed. -/
theorem step_idle (step : Step m m') (idle : m.stack = []) : m'.stack = [] ∧ m'.resumed = m.resumed := by
  cases step with
  | program registers => exact ⟨rfl,rfl⟩
  | _ => cases idle

theorem step_resumed (step : Step m m') : m.resumed <:+ m'.resumed := by
  cases step with
  | iretq => exact List.suffix_cons _ _
  | _ => exact List.suffix_refl _

/-- An interrupt that finds the registers of the stub below leads to them twice. -/
theorem interrupt_sound {a : Activation} {below : List Activation} (suffix : a.rest <:+ stub vector)
    (sound : Sound m.cpu (t :: ts) (a :: below)) (undisturbed : m.cpu.1 = t) :
    Sound m.cpu (m.cpu.1 :: t :: ts) (⟨m.cpu.1,code,stub vector'⟩ :: a :: below) := by
  subst undisturbed
  exact ⟨leads_stub,fun d represents => leads_again suffix sound.1 represents,sound.2⟩

/-- The interrupted contexts are the targets, and each one that was resumed was its own. -/
structure Kept (m : Machine) : Prop where
  stubs : ∀ a ∈ m.stack, ∃ vector, a.rest <:+ stub vector
  sound : Sound m.cpu (m.stack.map Activation.interrupted) m.stack
  resumed : ∀ p ∈ m.resumed, p.2 = p.1

theorem step_kept (step : Step m m') (kept : Kept m) : Kept m' := by
  obtain ⟨stubs,sound,resumed⟩ := kept
  cases shape : m.stack with
  | nil =>
    obtain ⟨idle,same⟩ := step_idle step shape
    exact ⟨by simp [idle],by rw [idle]; trivial,by rw [same]; exact resumed⟩
  | cons a below =>
    rw [shape,List.map_cons] at sound
    rw [← shape] at sound
    rcases step_sound step sound with ⟨a',rest,below',stack,part,stack',same,sound'⟩ | ⟨a',below',stack,stack',same,sound'⟩
    · rw [shape] at stack
      cases stack
      refine ⟨?_,?_,by rw [same]; exact resumed⟩
      · rw [stack']
        intro b member
        rcases List.mem_cons.mp member with rfl | member
        · obtain ⟨vector,suffix⟩ := stubs a (by simp [shape])
          exact ⟨vector,part.trans suffix⟩
        · exact stubs b (by simp [shape,member])
      · rw [stack'] at sound' ⊢
        exact sound'
    · rw [shape] at stack
      cases stack
      refine ⟨?_,?_,?_⟩
      · rw [stack']
        exact fun b member => stubs b (by simp [shape,member])
      · rw [stack']
        exact sound'
      · rw [same]
        intro p member
        rcases List.mem_cons.mp member with rfl | member
        · rfl
        · exact resumed p member

theorem interrupt_kept (kept : Kept m) (undisturbed : Undisturbed m) : Kept (m.interrupt vector code) := by
  obtain ⟨stubs,sound,resumed⟩ := kept
  refine ⟨?_,?_,resumed⟩
  · intro b member
    rcases List.mem_cons.mp member with rfl | member
    · exact ⟨vector,List.suffix_refl _⟩
    · exact stubs b member
  · cases shape : m.stack with
    | nil =>
      rw [Machine.interrupt,shape]
      exact ⟨leads_stub,trivial⟩
    | cons a below =>
      obtain ⟨vector',suffix⟩ := stubs a (by simp [shape])
      rw [shape] at sound
      rw [Machine.interrupt,shape]
      exact interrupt_sound suffix sound (undisturbed a (by simp [shape]))

/-- Where every interrupt inside a stub finds the registers that the stub is to restore,
    every context is resumed with the registers it was interrupted with. -/
theorem run_unchanged (run : Run Undisturbed m) : ∀ p ∈ m.resumed, p.2 = p.1 := by
  have kept : Kept m := by
    induction run with
    | start x => exact ⟨by simp,trivial,by simp⟩
    | step _ step ih => exact step_kept step ih
    | interrupt _ allowed ih => exact interrupt_kept ih allowed
  exact kept.resumed

/-- An interrupt that arrives while a handler runs leaves its registers in the dump: when
    both stubs have returned, the outer context was resumed with the handler's registers. -/
theorem nested_resumes {a : Activation} {below : List Activation} (stack : m.stack = a :: below)
    (body : a.rest = .StandardHandler vector :: restoring)
    (quiet : Relation.ReflTransGen Step (m.interrupt vector' code) m') (returned : m'.stack = below) :
    (a.interrupted,m.cpu.1) ∈ m'.resumed := by
  have invariant : (∃ a₁ a₂, m'.stack = a₁ :: a₂ :: below ∧ a₂.interrupted = a.interrupted ∧
        Sound m'.cpu [m.cpu.1,m.cpu.1] m'.stack) ∨
      (∃ a₂, m'.stack = a₂ :: below ∧ a₂.interrupted = a.interrupted ∧ Sound m'.cpu [m.cpu.1] m'.stack) ∨
      (a.interrupted,m.cpu.1) ∈ m'.resumed := by
    clear returned
    induction quiet with
    | refl =>
      refine .inl ⟨⟨m.cpu.1,code,stub vector'⟩,a,by rw [Machine.interrupt,stack],rfl,?_⟩
      rw [Machine.interrupt,stack]
      refine ⟨leads_stub,?_,trivial⟩
      intro d represents
      rw [body]
      exact (leads_handler _).mpr represents
    | tail _ step ih =>
      rcases ih with ⟨a₁,a₂,shape,same,sound⟩ | ⟨a₂,shape,same,sound⟩ | done
      · rcases step_sound step sound with ⟨b,rest,below',stack',_,after,_,sound'⟩ | ⟨b,below',stack',after,_,sound'⟩
        · rw [shape] at stack'
          cases stack'
          exact .inl ⟨_,a₂,after,same,sound'⟩
        · rw [shape] at stack'
          cases stack'
          exact .inr (.inl ⟨a₂,after,same,by rw [after]; exact sound'⟩)
      · rcases step_sound step sound with ⟨b,rest,below',stack',_,after,_,sound'⟩ | ⟨b,below',stack',after,resumed,_⟩
        · rw [shape] at stack'
          cases stack'
          exact .inr (.inl ⟨_,after,same,sound'⟩)
        · rw [shape] at stack'
          cases stack'
          exact .inr (.inr (by rw [resumed,same]; simp))
      · exact .inr (.inr ((step_resumed step).subset done))
  rcases invariant with ⟨a₁,a₂,shape,_⟩ | ⟨a₂,shape,_⟩ | done
  · rw [returned] at shape
    have lengths := congrArg List.length shape
    simp at lengths
    omega
  · rw [returned] at shape
    have lengths := congrArg List.length shape
    simp at lengths
  · exact done

/-! ### Interrupts that return -/

open Relation (ReflTransGen)

variable {below : List Activation} {resumed : List (Registers × Registers)} {Allowed : Machine → Prop}

theorem Run.steps (run : Run Allowed m) (steps : ReflTransGen Step m m') : Run Allowed m' := by
  induction steps with
  | refl => exact run
  | tail _ step ih => exact ih.step step

theorem moves_steps (x : Cpu) (l : List Instruction) (rest : List Op) : ReflTransGen Step ⟨x,⟨c,code,l.map .move ++ rest⟩ :: below,resumed⟩
    ⟨execAll x l,⟨c,code,rest⟩ :: below,resumed⟩ := by
  induction l generalizing x with
  | nil => exact .refl
  | cons i l ih => exact .head .move (ih _)

/-- A stub gets as far as its handler, with a dump of the registers. -/
theorem stub_steps (c : Registers) (d : RegisterState) (code : BitVec 64) (vector : Nat) (below : List Activation)
    (resumed : List (Registers × Registers)) : ∃ r d', Represents c d' ∧ ReflTransGen Step ⟨(c,d),⟨c,code,stub vector⟩ :: below,resumed⟩
    ⟨(r,d'),⟨c,code,.StandardHandler vector :: restoring⟩ :: below,resumed⟩ := by
  obtain ⟨v,d',saved,represents⟩ := save (c := c) (d := d)
  have saves : ∀ rest, ReflTransGen Step ⟨(c,d),⟨c,code,SaveAllRegisters.map .move ++ rest⟩ :: below,resumed⟩
      ⟨(c.setGeneral .rax v,d'),⟨c,code,rest⟩ :: below,resumed⟩ := by
    intro rest
    rw [← saved]
    exact moves_steps (c,d) SaveAllRegisters rest
  simp only [stub]
  split
  · exact ⟨_,d',represents,(saves _).tail .popRdx⟩
  · exact ⟨_,d',represents,.head .cli (saves _)⟩

/-- After its handler a stub returns to the registers in the dump. -/
theorem handler_steps {a : Activation} (body : a.rest = .StandardHandler vector :: restoring) (represents : Represents t d) :
    ReflTransGen Step ⟨(r,d),a :: below,resumed⟩ ⟨(t,d),below,(a.interrupted,t) :: resumed⟩ := by
  obtain ⟨interrupted,code,rest⟩ := a
  cases body
  have loads : ReflTransGen Step ⟨(r,d),⟨interrupted,code,RestoreAllRegisters.map .move ++ [.iretq]⟩ :: below,resumed⟩
      ⟨execAll (r,d) RestoreAllRegisters,⟨interrupted,code,[.iretq]⟩ :: below,resumed⟩ := moves_steps _ _ _
  rw [restore represents] at loads
  exact (ReflTransGen.head .returns loads).tail .iretq

/-- An interrupt whose handler does nothing. -/
theorem interrupt_steps (m : Machine) (vector : Nat) (code : BitVec 64) : ∃ d, Represents m.cpu.1 d ∧
    ReflTransGen Step (m.interrupt vector code) ⟨(m.cpu.1,d),m.stack,(m.cpu.1,m.cpu.1) :: m.resumed⟩ := by
  obtain ⟨r,d,represents,saved⟩ := stub_steps m.cpu.1 m.cpu.2 code vector m.stack m.resumed
  exact ⟨d,represents,saved.trans (handler_steps rfl represents)⟩

/-- Registers that are zero, and a dump of them. -/
def zeros : Registers := ⟨fun _ => 0,fun _ => 0,fun _ => 0,fun _ => 0⟩

def zeroDump : RegisterState := ⟨fun _ => 0,fun _ => 0,fun _ => 0,fun _ => 0⟩

/-- A timer interrupt, and another one that is not masked before the stub has started to save. -/
theorem run_unchanged_nested : ∃ m, Run Undisturbed m ∧ m.resumed = [(zeros,zeros),(zeros,zeros)] ∧
    ∀ p ∈ m.resumed, p.2 = p.1 := by
  let m₀ : Machine := ⟨(zeros,zeroDump),[],[]⟩
  obtain ⟨d₁,_,inner⟩ := interrupt_steps (m₀.interrupt 32 0) 2 0
  obtain ⟨d₂,_,outer⟩ := interrupt_steps ⟨(zeros,d₁),[],[(zeros,zeros)]⟩ 32 0
  have first : Run Undisturbed (m₀.interrupt 32 0) := (Run.start (zeros,zeroDump)).interrupt (by simp [Undisturbed])
  have second : Run Undisturbed ((m₀.interrupt 32 0).interrupt 2 0) :=
    first.interrupt (by intro a member; cases member; rfl)
  have run := (second.steps inner).steps outer
  exact ⟨_,run,rfl,run_unchanged run⟩

/-- An interrupt that is not masked while the timer's handler runs: the program is resumed
    with the value that the handler had in `rax`. -/
theorem nested_interrupt : ∃ m m', Run (fun _ => True) m ∧ m.stack = [⟨zeros,0,.StandardHandler 32 :: restoring⟩] ∧
    ReflTransGen Step (m.interrupt 2 0) m' ∧ Run (fun _ => True) m' ∧ ¬ ∀ p ∈ m'.resumed, p.2 = p.1 := by
  let m₀ : Machine := ⟨(zeros,zeroDump),[],[]⟩
  let r : Registers := zeros.setGeneral .rax 1
  obtain ⟨_,d₁,_,saved⟩ := stub_steps zeros zeroDump 0 32 [] []
  let m₁ : Machine := ⟨(r,d₁),[⟨zeros,0,.StandardHandler 32 :: restoring⟩],[]⟩
  have run₀ : Run (fun _ => True) (m₀.interrupt 32 0) := (Run.start (zeros,zeroDump)).interrupt trivial
  have run₁ : Run (fun _ => True) m₁ := run₀.steps (saved.tail (.handler r))
  obtain ⟨d₂,represents,inner⟩ := interrupt_steps m₁ 2 0
  have steps := inner.trans (handler_steps rfl represents)
  refine ⟨m₁,_,run₁,rfl,steps,(run₁.interrupt trivial).steps steps,?_⟩
  intro all
  have same := all _ (List.mem_cons_self ..)
  have rax := congrArg (fun r => r.general .rax) same
  simp [m₁,r,zeros,Registers.setGeneral] at rax

end WaifuOS.Interrupts
