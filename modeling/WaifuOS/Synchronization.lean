import WaifuOS.Sections

/-!
`SpinLock` and `Mutex`, instruction by instruction. Any number of threads call
`Aquire` (`Lock`), access what the lock protects, and call `Free` (`Unlock`), and
between any two instructions another thread may run. Both locks do what a lock is for: in every order of the
instructions the accesses are made in sections one after another (`lock_serial`). A lock
that nobody holds is taken before a thread that waits for it has made six steps, by this thread or by
another one (`lock_acquires`). A mutex differs from a spin lock in what a thread does while it waits.
-/
namespace WaifuOS.Synchronization
open WaifuOS.Sections

structure Flags where
  CF : Bool
  ZF : Bool

/-- Where a thread is in a routine, with the flags that the routines ask for. -/
structure Cpu where
  rip : Nat
  flags : Flags

/-- The instructions of the routines; `rdi` is the address of the lock in all of them. -/
inductive Instruction
  | bts -- lock bts dword [rdi], 0
  | jc (target : Nat)
  | ret
  | pause
  | callYield
  | test -- test dword [rdi], 1
  | jnz (target : Nat)
  | jmp (target : Nat)
  | mov -- mov dword [rdi], 0
deriving DecidableEq

/-- The thread and the lock after an instruction; `yielded` are the flags that `Yield` leaves, which keeps `rdi`. -/
def Instruction.exec (s : Cpu) (lock : BitVec 32) (yielded : Flags) : Instruction → Option (Cpu × BitVec 32)
  | .bts => some (⟨s.rip + 1,{ s.flags with CF := lock.getLsbD 0 }⟩,lock ||| 1#32)
  | .jc target => some ({ s with rip := if s.flags.CF then target else s.rip + 1 },lock)
  | .ret => none
  | .pause => some ({ s with rip := s.rip + 1 },lock)
  | .callYield => some (⟨s.rip + 1,yielded⟩,lock)
  | .test => some (⟨s.rip + 1,⟨false,lock &&& 1#32 == 0⟩⟩,lock)
  | .jnz target => some ({ s with rip := if s.flags.ZF then s.rip + 1 else target },lock)
  | .jmp target => some ({ s with rip := target },lock)
  | .mov => some ({ s with rip := s.rip + 1 },0#32)

/-- `SpinLockAquire` and `MutexLock`, with what a thread does while it waits; `.spin` and `.yield` are at 3. -/
def aquireBy (wait : Instruction) : List Instruction :=
  [.bts,
   .jc 3,
   .ret,
   wait,
   .test,
   .jnz 3,
   .jmp 0]

/-- `SpinLockFree` and `MutexUnlock`. -/
def freeCode : List Instruction := [.mov,.ret]

def SpinLockAquire : List Instruction := aquireBy .pause

def SpinLockFree : List Instruction := freeCode

def MutexLock : List Instruction := aquireBy .callYield

def MutexUnlock : List Instruction := freeCode

inductive Lock
  | SpinLock
  | Mutex

namespace Lock

def Aquire : Lock → List Instruction
  | SpinLock => SpinLockAquire
  | Mutex => MutexLock

def Free : Lock → List Instruction
  | SpinLock => SpinLockFree
  | Mutex => MutexUnlock

/-- `GetState` and `IsLocked`. -/
def GetState (lock : BitVec 32) : Bool := lock != 0

end Lock

/-- Where a thread is. -/
inductive Place
  | outside
  | aquiring (s : Cpu)
  | inside
  | freeing (s : Cpu)

variable {A : Type*}

/-- What an instruction does to the lock: `bts` acquires it when the bit was clear. -/
def Instruction.action (lock : BitVec 32) : Instruction → Option (Action A)
  | .bts => if lock.getLsbD 0 then none else some .acquire
  | .mov => some .release
  | _ => none

/-- The steps of a thread: it calls the routines in turn and makes accesses of its own between the calls. -/
inductive Step (kind : Lock) : Place → BitVec 32 → Option (Action A) → Place → BitVec 32 → Prop
  | callAquire {lock : BitVec 32} (flags : Flags) : Step kind .outside lock none (.aquiring ⟨0,flags⟩) lock
  | aquire {s s' : Cpu} {lock lock' : BitVec 32} {i : Instruction} {action : Option (Action A)} (yielded : Flags)
      (here : kind.Aquire[s.rip]? = some i) (done : i.exec s lock yielded = some (s',lock')) (does : i.action lock = action) :
      Step kind (.aquiring s) lock action (.aquiring s') lock'
  | enter {s : Cpu} {lock : BitVec 32} (here : kind.Aquire[s.rip]? = some .ret) : Step kind (.aquiring s) lock none .inside lock
  | access {lock : BitVec 32} (a : A) : Step kind .inside lock (some (.access a)) .inside lock
  | callFree {lock : BitVec 32} (flags : Flags) : Step kind .inside lock none (.freeing ⟨0,flags⟩) lock
  | free {s s' : Cpu} {lock lock' : BitVec 32} {i : Instruction} {action : Option (Action A)} (yielded : Flags)
      (here : kind.Free[s.rip]? = some i) (done : i.exec s lock yielded = some (s',lock')) (does : i.action lock = action) :
      Step kind (.freeing s) lock action (.freeing s') lock'
  | leave {s : Cpu} {lock : BitVec 32} (here : kind.Free[s.rip]? = some .ret) : Step kind (.freeing s) lock none .outside lock

/-- A thread has the lock from the `bts` that finds the bit clear to the `mov`. -/
def Place.Holds : Place → Prop
  | .outside => False
  | .aquiring s => s.rip = 1 ∧ s.flags.CF = false ∨ s.rip = 2
  | .inside => True
  | .freeing s => s.rip = 0

/-- A thread is in `Aquire` and has not got the lock. -/
def Place.Waits (l : Place) : Prop := (∃ s, l = .aquiring s) ∧ ¬ l.Holds

/-- How many steps a thread that waits may take before its next `bts`, if the lock stays free. -/
def Place.distance : Place → Nat
  | .aquiring s =>
    match s.rip with
    | 0 => 0
    | 6 => 1
    | 5 => if s.flags.ZF then 2 else 5
    | 4 => 3
    | 3 => 4
    | _ => 5
  | _ => 0

/-- The bit of the lock. -/
def Taken (lock : BitVec 32) : Prop := lock.getLsbD 0 = true

/-- The lock as it is constructed, and no thread in a routine. -/
def constructed (P : Type*) : State P Place (BitVec 32) := ⟨fun _ => .outside,0⟩

variable {kind : Lock} {s s' : Cpu} {lock lock' : BitVec 32} {yielded : Flags} {i : Instruction} {action : Option (Action A)}

@[simp] theorem taken_or : Taken (lock ||| 1#32) := by simp [Taken]

@[simp] theorem not_taken_zero : ¬ Taken 0#32 := by simp [Taken]

/-- What `test` finds. -/
theorem masked_bit : (lock &&& 1#32 == 0) = !lock.getLsbD 0 := by
  rw [BitVec.and_one_eq_setWidth_ofBool_getLsbD]
  cases lock.getLsbD 0 <;> rfl

/-- What an instruction of `Aquire` does, by the place of the instruction. -/
inductive Aquires (s : Cpu) (lock : BitVec 32) : Option (Action A) → Cpu → BitVec 32 → Prop
  | gets {ZF : Bool} (here : s.rip = 0) (free : ¬ Taken lock) : Aquires s lock (some .acquire) ⟨1,⟨false,ZF⟩⟩ (lock ||| 1#32)
  | misses {ZF : Bool} (here : s.rip = 0) (taken : Taken lock) : Aquires s lock none ⟨1,⟨true,ZF⟩⟩ (lock ||| 1#32)
  | jc (here : s.rip = 1) : Aquires s lock none ⟨if s.flags.CF then 3 else 2,s.flags⟩ lock
  | wait {flags : Flags} (here : s.rip = 3) : Aquires s lock none ⟨4,flags⟩ lock
  | test (here : s.rip = 4) : Aquires s lock none ⟨5,⟨false,!lock.getLsbD 0⟩⟩ lock
  | jnz (here : s.rip = 5) : Aquires s lock none ⟨if s.flags.ZF then 6 else 3,s.flags⟩ lock
  | jmp (here : s.rip = 6) : Aquires s lock none ⟨0,s.flags⟩ lock

theorem aquire_cases (here : kind.Aquire[s.rip]? = some i) (done : i.exec s lock yielded = some (s',lock'))
    (does : i.action lock = action) : Aquires s lock action s' lock' := by
  obtain ⟨rip,flags⟩ := s
  have waits : ∃ wait, kind.Aquire = aquireBy wait ∧ (wait = .pause ∨ wait = .callYield) := by
    cases kind with
    | SpinLock => exact ⟨_,rfl,.inl rfl⟩
    | Mutex => exact ⟨_,rfl,.inr rfl⟩
  obtain ⟨wait,code,waits⟩ := waits
  rw [code] at here
  match rip,here with
  | 0,here =>
    cases here
    cases done
    cases bit : lock.getLsbD 0 with
    | false =>
      simp only [Instruction.action,bit,Bool.false_eq_true,if_false] at does
      subst does
      exact .gets rfl (by rw [Taken,bit]; exact Bool.false_ne_true)
    | true =>
      simp only [Instruction.action,bit,if_true] at does
      subst does
      exact .misses rfl bit
  | 1,here =>
    cases here
    cases done
    subst does
    exact .jc rfl
  | 2,here =>
    cases here
    cases done
  | 3,here =>
    cases here
    rcases waits with rfl | rfl
    · cases done
      subst does
      exact .wait rfl
    · cases done
      subst does
      exact .wait rfl
  | 4,here =>
    cases here
    cases done
    subst does
    rw [masked_bit]
    exact .test rfl
  | 5,here =>
    cases here
    cases done
    subst does
    exact .jnz rfl
  | 6,here =>
    cases here
    cases done
    subst does
    exact .jmp rfl
  | rip+7,here => cases here

/-- The only instruction of `Free` before its `ret`. -/
theorem free_cases (here : kind.Free[s.rip]? = some i) (done : i.exec s lock yielded = some (s',lock'))
    (does : i.action lock = action) : s.rip = 0 ∧ s' = ⟨1,s.flags⟩ ∧ lock' = 0 ∧ action = some .release := by
  obtain ⟨rip,flags⟩ := s
  have code : kind.Free = freeCode := by cases kind <;> rfl
  rw [code] at here
  match rip,here with
  | 0,here =>
    cases here
    cases done
    exact ⟨rfl,rfl,rfl,does.symm⟩
  | 1,here =>
    cases here
    cases done
  | rip+2,here => cases here

theorem aquire_ret (here : kind.Aquire[s.rip]? = some .ret) : s.rip = 2 := by
  obtain ⟨rip,flags⟩ := s
  match rip,here with
  | 2,_ => rfl
  | 0,here => cases kind <;> cases here
  | 1,here => cases kind <;> cases here
  | 3,here => cases kind <;> cases here
  | 4,here => cases kind <;> cases here
  | 5,here => cases kind <;> cases here
  | 6,here => cases kind <;> cases here
  | rip+7,here => cases kind <;> cases here

theorem free_ret (here : kind.Free[s.rip]? = some .ret) : s.rip = 1 := by
  obtain ⟨rip,flags⟩ := s
  match rip,here with
  | 1,_ => rfl
  | 0,here => cases kind <;> cases here
  | rip+2,here => cases kind <;> cases here

theorem aquires_silent (aquires : Aquires s lock (none : Option (Action A)) s' lock') :
    ((Place.aquiring s').Holds ↔ (Place.aquiring s).Holds) ∧ (Taken lock' ↔ Taken lock) := by
  cases aquires with
  | misses here taken => simp [Place.Holds,here,taken]
  | jc here => cases flag : s.flags.CF <;> simp [Place.Holds,here,flag]
  | wait here => simp [Place.Holds,here]
  | test here => simp [Place.Holds,here]
  | jnz here => cases flag : s.flags.ZF <;> simp [Place.Holds,here]
  | jmp here => simp [Place.Holds,here]

/-- Each step of a thread keeps to the rules of a lock. -/
theorem step_guarded (kind : Lock) : Guarded (Step (A := A) kind) Place.Holds Taken where
  silent := by
    intro l lock l' lock' step
    cases step with
    | callAquire flags => simp [Place.Holds]
    | aquire _ here done does => exact aquires_silent (aquire_cases here done does)
    | enter here => simp [Place.Holds,aquire_ret here]
    | callFree flags => simp [Place.Holds]
    | free _ here done does => cases (free_cases here done does).2.2.2
    | leave here => simp [Place.Holds,free_ret here]
  acquire := by
    intro l lock l' lock' step
    cases step with
    | aquire _ here done does =>
      cases aquire_cases here done does with
      | gets first free => exact ⟨free,.inl ⟨rfl,rfl⟩,taken_or⟩
    | free _ here done does => cases (free_cases here done does).2.2.2
  access := by
    intro l lock l' lock' a step
    cases step with
    | aquire _ here done does => cases aquire_cases here done does
    | access => exact ⟨trivial,trivial,Iff.rfl⟩
    | free _ here done does => cases (free_cases here done does).2.2.2
  release := by
    intro l lock l' lock' step
    cases step with
    | aquire _ here done does => cases aquire_cases here done does
    | free _ here done does =>
      obtain ⟨first,rfl,rfl,_⟩ := free_cases here done does
      exact ⟨first,by simp [Place.Holds],not_taken_zero⟩

/-- A thread that waits comes nearer to its next `bts` while the lock is free. -/
theorem step_advances (kind : Lock) : Advances (Step (A := A) kind) Taken Place.Waits Place.distance := by
  intro l lock action l' lock' waits free step
  obtain ⟨⟨s,rfl⟩,without⟩ := waits
  cases step with
  | enter here => exact absurd (.inr (aquire_ret here)) without
  | aquire _ here done does =>
    cases aquire_cases here done does with
    | gets first _ => exact .inl rfl
    | misses first taken => exact absurd taken free
    | jc second =>
      have carry : s.flags.CF = true := by
        cases flag : s.flags.CF with
        | false => exact absurd (.inl ⟨second,flag⟩) without
        | true => rfl
      refine .inr ⟨⟨⟨_,rfl⟩,?_⟩,?_⟩
      · simp [Place.Holds,carry]
      · simp [Place.distance,second,carry]
    | wait third => exact .inr ⟨⟨⟨_,rfl⟩,by simp [Place.Holds]⟩,by simp [Place.distance,third]⟩
    | test fourth =>
      have clear : lock.getLsbD 0 = false := Bool.eq_false_iff.mpr free
      exact .inr ⟨⟨⟨_,rfl⟩,by simp [Place.Holds]⟩,by simp only [Place.distance,fourth,clear]; decide⟩
    | jnz fifth =>
      cases flag : s.flags.ZF with
      | false => exact .inr ⟨⟨⟨_,rfl⟩,by simp [Place.Holds]⟩,by simp [Place.distance,fifth,flag]⟩
      | true => exact .inr ⟨⟨⟨_,rfl⟩,by simp [Place.Holds]⟩,by simp [Place.distance,fifth,flag]⟩
    | jmp sixth => exact .inr ⟨⟨⟨_,rfl⟩,by simp [Place.Holds]⟩,by simp [Place.distance,sixth]⟩

theorem distance_le (l : Place) : l.distance ≤ 5 := by
  cases l with
  | aquiring s =>
    simp only [Place.distance]
    split <;> try omega
    split <;> omega
  | outside => simp [Place.distance]
  | inside => simp [Place.distance]
  | freeing s => simp [Place.distance]

/-- The routines leave no other bits in the lock. -/
theorem step_word {l l' : Place} (step : Step kind l lock action l' lock') (word : lock = 0 ∨ lock = 1) : lock' = 0 ∨ lock' = 1 := by
  have set : lock ||| 1#32 = 1 := by rcases word with rfl | rfl <;> rfl
  cases step with
  | callAquire | enter | access | callFree | leave => exact word
  | aquire _ here done does =>
    cases aquire_cases here done does with
    | gets | misses => exact .inr set
    | jc | wait | test | jnz | jmp => exact word
  | free _ here done does => exact .inl (free_cases here done does).2.2.1

variable {P : Type*} [DecidableEq P] {t : P} {σ σ' : State P Place (BitVec 32)} {h h' : List (P × Option (Action A))}

theorem constructed_owned {P : Type*} : Owned Place.Holds Taken (constructed P) none :=
  ⟨fun _ => by simp [constructed,Place.Holds],by simp [constructed]⟩

theorem run_word (run : Run (Step kind) (constructed P) h σ) : σ.shared = 0 ∨ σ.shared = 1 := by
  induction run with
  | refl => exact .inl rfl
  | step _ moves ih => exact step_word moves ih

/-- In every order of the instructions the lock permits what is done, and `GetState` tells whether it has an owner. -/
theorem run_owned (run : Run (Step kind) (constructed P) h σ) : ∃ owner, replay none (actionsOf h) = some owner ∧
    Owned Place.Holds Taken σ owner ∧ Lock.GetState σ.shared = owner.isSome := by
  obtain ⟨owner,permitted,owned⟩ := run_replay (step_guarded kind) constructed_owned run
  refine ⟨owner,permitted,owned,?_⟩
  have locked := owned.locked
  rcases run_word run with clear | set
  · rw [clear] at locked ⊢
    cases owner with
    | none => rfl
    | some _ => exact absurd (locked.mpr rfl) not_taken_zero
  · rw [set] at locked ⊢
    exact (locked.mp rfl).symm

/-- In every order of the instructions of any threads, what is done behind the lock is done in
    sections one after another. The thread of the section that is not over is the only one that
    has the lock, and `GetState` tells whether there is one. -/
theorem lock_serial (run : Run (Step kind) (constructed P) h σ) : ∃ (done : List (Section P A)) (last : Option (Section P A)),
    actionsOf h = done.flatMap Section.actions ++ last.toList.flatMap Section.opened ∧
      (∀ t, (σ.party t).Holds ↔ last.map Section.party = some t) ∧ Lock.GetState σ.shared = last.isSome := by
  obtain ⟨owner,permitted,owned,state⟩ := run_owned run
  obtain ⟨done,last,serial,rfl⟩ := replay_serial.mp permitted
  exact ⟨done,last,serial,owned.holder,by rw [state,Option.isSome_map]⟩

/-- One of two threads has called `Aquire`. -/
def oneWaits : State Bool Place (BitVec 32) := (constructed Bool).move false (.aquiring ⟨0,⟨false,false⟩⟩) 0

theorem oneWaits_run (kind : Lock) : Run (Step (A := Nat) kind) (constructed Bool) [(false,none)] oneWaits :=
  .step .refl (.callAquire ⟨false,false⟩)

/-- The thread goes through the section, with an access and a `Free`. -/
theorem oneWaits_enters : ∃ σ, Run (Step .SpinLock) oneWaits [(false,some .acquire),(false,none),(false,none),
    (false,some (.access 7)),(false,none),(false,some .release)] σ ∧ σ.party true = .outside ∧ σ.shared = 0 := by
  have bts : Step (A := Nat) .SpinLock (.aquiring ⟨0,⟨false,false⟩⟩) 0 (some .acquire) (.aquiring ⟨1,⟨false,false⟩⟩) 1 :=
    .aquire ⟨false,false⟩ rfl rfl rfl
  have jc : Step (A := Nat) .SpinLock (.aquiring ⟨1,⟨false,false⟩⟩) 1 none (.aquiring ⟨2,⟨false,false⟩⟩) 1 :=
    .aquire ⟨false,false⟩ rfl rfl rfl
  have mov : Step (A := Nat) .SpinLock (.freeing ⟨0,⟨false,false⟩⟩) 1 (some .release) (.freeing ⟨1,⟨false,false⟩⟩) 0 :=
    .free ⟨false,false⟩ rfl rfl rfl
  have first := Run.step (.refl (s := oneWaits)) (t := false) bts
  have second := Run.step first (t := false) jc
  have third := Run.step second (t := false) (.enter rfl)
  have fourth := Run.step third (t := false) (.access 7)
  have fifth := Run.step fourth (t := false) (.callFree ⟨false,false⟩)
  exact ⟨_,Run.step fifth (t := false) mov,rfl,rfl⟩

/-- Then the other one has entered. -/
theorem lock_serial_oneWaits : ∃ (σ : State Bool Place (BitVec 32)) (done : List (Section Bool Nat)) (last : Option (Section Bool Nat)),
    [(false,.acquire),(false,.access 7),(false,.release),(true,.acquire)] = done.flatMap Section.actions ++ last.toList.flatMap Section.opened ∧
      (∀ t, (σ.party t).Holds ↔ last.map Section.party = some t) ∧ Lock.GetState σ.shared = last.isSome := by
  obtain ⟨σ,enters,outside,free⟩ := oneWaits_enters
  have called : Step (A := Nat) .SpinLock (σ.party true) σ.shared none (.aquiring ⟨0,⟨false,false⟩⟩) 0 := by
    rw [outside,free]
    exact .callAquire ⟨false,false⟩
  have bts : Step (A := Nat) .SpinLock (.aquiring ⟨0,⟨false,false⟩⟩) 0 (some .acquire) (.aquiring ⟨1,⟨false,false⟩⟩) 1 :=
    .aquire ⟨false,false⟩ rfl rfl rfl
  have first := Run.step ((oneWaits_run .SpinLock).trans enters) called
  have second := Run.step first (t := true) (by simpa using bts)
  exact ⟨_,lock_serial second⟩

/-- A lock that nobody has is acquired, by some thread, before one that is in `Aquire` has made six steps. -/
theorem lock_acquires (run : Run (Step kind) (constructed P) h σ) (free : Lock.GetState σ.shared = false)
    (waits : ∃ s, σ.party t = .aquiring s) (more : Run (Step kind) σ h' σ') (six : 6 ≤ (h'.filter (fun x => x.1 = t)).length) :
    ∃ u, (u,some Action.acquire) ∈ h' := by
  obtain ⟨owner,_,owned,state⟩ := run_owned run
  rw [free] at state
  obtain rfl : owner = none := by simpa using state.symm
  have without : ¬ (σ.party t).Holds := by
    intro holds
    cases (owned.holder t).mp holds
  have near := distance_le (σ.party t)
  exact run_acquires (step_guarded kind) (step_advances kind) owned ⟨waits,without⟩ more (by omega)

theorem lock_acquires_oneWaits : ∃ (h : List (Bool × Option (Action Nat))) (u : Bool), (u,some Action.acquire) ∈ h := by
  obtain ⟨σ,enters,_⟩ := oneWaits_enters
  exact ⟨_,lock_acquires (oneWaits_run .SpinLock) rfl ⟨_,move_self⟩ enters (Nat.le_refl 6)⟩

end WaifuOS.Synchronization
