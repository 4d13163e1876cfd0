import WaifuOS.AddressSpace
import Mathlib.Logic.Relation

/-!
A machine with the instructions of x86-64 that routines on memory are made of. A program is a list of
instructions, and a jump goes to a place in it. `rep` makes one round at a time and stays where it is
until its counter is zero (`rep_steps`); what its rounds do together is told for
the two string instructions apart from it (`stos_times`, `movs_times`). Of the flags there are
those that a program of this kind asks for. The stack lies apart from the memory.
-/
namespace WaifuOS.X86
open WaifuOS.AddressSpace
open Relation (ReflTransGen)

inductive Register
  | rax | rcx | rdx | rsi | rdi

/-- What a string instruction moves at once. -/
inductive Width
  | byte | qword

def Width.bytes : Width → Nat
  | .byte => 1
  | .qword => 8

inductive StringInstruction
  | stos (width : Width)
  | movs (width : Width)

inductive Instruction
  | mov (destination source : Register)
  | push (r : Register)
  | pop (r : Register)
  | shr (r : Register) (count : Nat)
  | and (r : Register) (mask : BitVec 64)
  | test (r r' : Register)
  | dec (r : Register)
  | ror (r : Register) (count : Nat)
  | jz (target : Nat)
  | jmp (target : Nat)
  | cld
  | string (op : StringInstruction)
  | rep (op : StringInstruction)
  | ret

structure Machine where
  rax : BitVec 64
  rcx : BitVec 64
  rdx : BitVec 64
  rsi : BitVec 64
  rdi : BitVec 64
  ZF : Bool
  DF : Bool
  stack : List (BitVec 64)
  mem : Space 64 (BitVec 8)
  rip : Nat

/-- The byte `i` of a word, the lowest first. -/
def byte (v : BitVec 64) (i : Nat) : BitVec 8 := v.extractLsb' (8*i) 8

namespace Machine

def get (s : Machine) : Register → BitVec 64
  | .rax => s.rax
  | .rcx => s.rcx
  | .rdx => s.rdx
  | .rsi => s.rsi
  | .rdi => s.rdi

def set (s : Machine) (v : BitVec 64) : Register → Machine
  | .rax => { s with rax := v }
  | .rcx => { s with rcx := v }
  | .rdx => { s with rdx := v }
  | .rsi => { s with rsi := v }
  | .rdi => { s with rdi := v }

/-- A register with a result that sets the flags. -/
def setFlags (s : Machine) (v : BitVec 64) (r : Register) : Machine := { s.set v r with ZF := v == 0 }

/-- The pointer of a string instruction after a round. -/
def advance (s : Machine) (pointer : BitVec 64) (width : Width) : BitVec 64 :=
  if s.DF then pointer - BitVec.ofNat 64 width.bytes else pointer + BitVec.ofNat 64 width.bytes

end Machine

def StringInstruction.exec (s : Machine) : StringInstruction → Machine
  | .stos width => { s with mem := fill s.mem s.rdi width.bytes (byte s.rax), rdi := s.advance s.rdi width }
  | .movs width =>
    { s with
      mem := fill s.mem s.rdi width.bytes (fun i => s.mem (s.rsi + BitVec.ofNat 64 i))
      rdi := s.advance s.rdi width
      rsi := s.advance s.rsi width }

/-- The machine after an instruction; `shr` is given a count that is not zero. -/
def Instruction.exec (s : Machine) : Instruction → Option Machine
  | .mov destination source => some { s.set (s.get source) destination with rip := s.rip + 1 }
  | .push r => some { s with stack := s.get r :: s.stack, rip := s.rip + 1 }
  | .pop r =>
    match s.stack with
    | [] => none
    | v :: stack => some { s.set v r with stack, rip := s.rip + 1 }
  | .shr r count => some { s.setFlags (s.get r >>> count) r with rip := s.rip + 1 }
  | .and r mask => some { s.setFlags (s.get r &&& mask) r with rip := s.rip + 1 }
  | .test r r' => some { s with ZF := s.get r &&& s.get r' == 0, rip := s.rip + 1 }
  | .dec r => some { s.setFlags (s.get r - 1) r with rip := s.rip + 1 }
  | .ror r count => some { s.set ((s.get r).rotateRight count) r with rip := s.rip + 1 }
  | .jz target => some { s with rip := if s.ZF then target else s.rip + 1 }
  | .jmp target => some { s with rip := target }
  | .cld => some { s with DF := false, rip := s.rip + 1 }
  | .string op => some { op.exec s with rip := s.rip + 1 }
  | .rep op => some (if s.rcx = 0 then { s with rip := s.rip + 1 } else { op.exec s with rcx := s.rcx - 1 })
  | .ret => none

/-- One step of a program. -/
def step (code : List Instruction) (s : Machine) : Option Machine := do
  let instruction ← code[s.rip]?
  instruction.exec s

def Steps (code : List Instruction) : Machine → Machine → Prop := ReflTransGen (fun s s' => step code s = some s')

/-- The program runs from `s` to a `ret`, with the machine in `s'`. -/
def Returns (code : List Instruction) (s s' : Machine) : Prop := Steps code s s' ∧ code[s'.rip]? = some .ret

variable {code : List Instruction} {s s' t : Machine} {op : StringInstruction} {width : Width} {n : Nat}

theorem Steps.next (first : step code s = some s') (rest : Steps code s' t) : Steps code s t := ReflTransGen.head first rest

theorem exec_pop {r : Register} {v : BitVec 64} {stack : List (BitVec 64)} (top : s.stack = v :: stack) :
    (Instruction.pop r).exec s = some { s.set v r with stack, rip := s.rip + 1 } := by
  rw [Instruction.exec,top]

/-- A program returns in one way only. -/
theorem Returns.unique (returns : Returns code s s') (returns' : Returns code s t) : s' = t := by
  have stuck : ∀ {s s'}, code[s.rip]? = some .ret → Steps code s s' → s = s' := by
    intro s s' ends steps
    cases ReflTransGen.cases_head steps with
    | inl same => exact same
    | inr further =>
      obtain ⟨u,first,_⟩ := further
      rw [step,ends] at first
      cases first
  have alike : Relator.RightUnique (fun s s' => step code s = some s') := by
    intro a b c first first'
    exact Option.some.inj (first.symm.trans first')
  rcases ReflTransGen.total_of_right_unique alike returns.1 returns'.1 with further | further
  · exact stuck returns.2 further
  · exact (stuck returns'.2 further).symm

/-- The machine after `n` rounds. -/
def StringInstruction.times (op : StringInstruction) (s : Machine) : Nat → Machine
  | 0 => s
  | n+1 => times op (op.exec s) n

/-- The rounds do not see the counter. -/
theorem times_rcx (op : StringInstruction) (s : Machine) (rcx : BitVec 64) (n : Nat) :
    op.times { s with rcx } n = { op.times s n with rcx } := by
  have round : ∀ s : Machine, op.exec { s with rcx } = { op.exec s with rcx } := by
    intro s
    cases op <;> rfl
  induction n generalizing s with
  | zero => rfl
  | succ n ih => rw [StringInstruction.times,round,ih,StringInstruction.times]

theorem exec_rip (op : StringInstruction) (s : Machine) : (op.exec s).rip = s.rip := by
  cases op <;> rfl

/-- `rep` makes as many rounds as its counter says. -/
theorem rep_steps (here : code[s.rip]? = some (.rep op)) : Steps code s { op.times s s.rcx.toNat with rcx := 0, rip := s.rip + 1 } := by
  obtain ⟨n,count⟩ : ∃ n, n = s.rcx.toNat := ⟨_,rfl⟩
  rw [← count]
  induction n generalizing s with
  | zero =>
    have zero : s.rcx = 0 := BitVec.eq_of_toNat_eq count.symm
    have first : step code s = some { s with rip := s.rip + 1 } := by
      rw [step,here]
      exact congrArg some (if_pos zero)
    have done : { s with rip := s.rip + 1 } = { op.times s 0 with rcx := 0, rip := s.rip + 1 } := by
      rw [StringInstruction.times,← zero]
    rw [← done]
    exact .single first
  | succ n ih =>
    have more : s.rcx ≠ 0 := by
      intro zero
      rw [zero] at count
      cases count
    have first : step code s = some { op.exec s with rcx := s.rcx - 1 } := by
      rw [step,here]
      exact congrArg some (if_neg more)
    have later := @ih { op.exec s with rcx := s.rcx - 1 } (by rw [← here]; exact congrArg (code[·]?) (exec_rip op s)) (by
      show n = (s.rcx - 1).toNat
      rw [BitVec.toNat_sub_of_le (by show 1 ≤ s.rcx.toNat; omega),← count]
      rfl)
    rw [times_rcx,exec_rip] at later
    exact Steps.next first later

/-- The rounds of `stos` repeat the bytes of `rax` over a range. -/
theorem stos_times (forward : s.DF = false) (fits : width.bytes * n ≤ 2^64) : (StringInstruction.stos width).times s n =
    { s with
      mem := fill s.mem s.rdi (width.bytes * n) (fun i => byte s.rax (i % width.bytes))
      rdi := s.rdi + BitVec.ofNat 64 (width.bytes * n) } := by
  induction n generalizing s with
  | zero => rw [StringInstruction.times,Nat.mul_zero,fill_zero,BitVec.add_zero]
  | succ n ih =>
    have whole : width.bytes * (n+1) = width.bytes + width.bytes * n := by rw [Nat.mul_succ,Nat.add_comm]
    have first : fill s.mem s.rdi width.bytes (byte s.rax) = fill s.mem s.rdi width.bytes (fun i => byte s.rax (i % width.bytes)) :=
      fill_congr (fun i small => by rw [Nat.mod_eq_of_lt small])
    have later : (fun i => byte s.rax (i % width.bytes)) = fun i => byte s.rax ((width.bytes + i) % width.bytes) := by
      funext i
      rw [Nat.add_mod_left]
    have pointer : s.advance s.rdi width = s.rdi + BitVec.ofNat 64 width.bytes := by simp [Machine.advance,forward]
    have round : (StringInstruction.stos width).exec s =
        { s with mem := fill s.mem s.rdi width.bytes (byte s.rax), rdi := s.advance s.rdi width } := rfl
    rw [StringInstruction.times,round,pointer,first,ih (by exact forward) (by omega)]
    dsimp only
    nth_rewrite 2 [later]
    rw [fill_append _ _ _ (by omega),BitVec.add_assoc,← BitVec.ofNat_add,whole]

/-- The rounds of `movs` copy a range, if it is ahead. -/
theorem movs_times (forward : s.DF = false) (ahead : Ahead s.rdi s.rsi (width.bytes * n)) : (StringInstruction.movs width).times s n =
    { s with
      mem := fill s.mem s.rdi (width.bytes * n) (fun i => s.mem (s.rsi + BitVec.ofNat 64 i))
      rdi := s.rdi + BitVec.ofNat 64 (width.bytes * n)
      rsi := s.rsi + BitVec.ofNat 64 (width.bytes * n) } := by
  induction n generalizing s with
  | zero => rw [StringInstruction.times,Nat.mul_zero,fill_zero,BitVec.add_zero,BitVec.add_zero]
  | succ n ih =>
    have whole : width.bytes * (n+1) = width.bytes + width.bytes * n := by rw [Nat.mul_succ,Nat.add_comm]
    have pointer : ∀ a, s.advance a width = a + BitVec.ofNat 64 width.bytes := by intro a; simp [Machine.advance,forward]
    have round : (StringInstruction.movs width).exec s =
        { s with
          mem := fill s.mem s.rdi width.bytes (fun i => s.mem (s.rsi + BitVec.ofNat 64 i))
          rdi := s.advance s.rdi width
          rsi := s.advance s.rsi width } := rfl
    rw [whole] at ahead ⊢
    rw [StringInstruction.times,round,pointer,pointer,ih (by exact forward) (by exact ahead.later)]
    dsimp only
    rw [copy_append _ ahead,BitVec.add_assoc,BitVec.add_assoc,← BitVec.ofNat_add]

end WaifuOS.X86
