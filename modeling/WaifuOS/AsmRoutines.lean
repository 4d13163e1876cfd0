import WaifuOS.AsmUtils
import WaifuOS.X86

/-!
The routines of `asmUtils.asm` as programs of the machine. `memset64` stores words, then the bytes
that are left, with `rax` rotated by a byte in each round; `memcpy` moves words and then bytes. Both
return from every call and do what they are for wherever the ranges lie, also across the end of
the address space (`memset64_sets`, `memcpy_copies`). The functions of `AsmUtils.lean`, which the other
models call, are what the programs do to ranges that do not run across it (`memset64_agrees`, `memcpy_agrees`).
-/
namespace WaifuOS.asmUtils
open WaifuOS.AddressSpace WaifuOS.X86

abbrev p0 : Register := .rdi

abbrev p1 : Register := .rsi

abbrev p2 : Register := .rdx

/-- `memset64`, with `.byteLoop` at 7 and `.end` at 12. -/
def memset64 : List Instruction :=
  [.push .rcx,
   .mov .rax p1,
   .mov .rcx p2,
   .shr .rcx 3, -- divide by 8
   .and p2 0b111, -- the remainder
   .rep (.stos .qword), -- store value into buffer
   .test p2 p2,
   .jz 12,
   .string (.stos .byte),
   .ror .rax 8,
   .dec p2,
   .jmp 7,
   .pop .rcx,
   .ret]

def memcpy : List Instruction :=
  [.cld,
   .mov .rcx p2,
   .shr .rcx 3, -- divide by 8
   .and p2 0b111, -- remainder
   .rep (.movs .qword),
   .mov .rcx p2,
   .rep (.movs .byte),
   .ret]

/-- A call with three arguments. By convention the direction flag is clear. -/
def call (s : Machine) (a0 a1 a2 : BitVec 64) : Machine := { s with rdi := a0, rsi := a1, rdx := a2, DF := false, rip := 0 }

variable {s : Machine} {dest src value nBytes a0 a1 a2 : BitVec 64} {n k i : Nat}

theorem words_toNat (nBytes : BitVec 64) : (nBytes >>> 3).toNat = nBytes.toNat / 8 := by
  rw [BitVec.toNat_ushiftRight,Nat.shiftRight_eq_div_pow]

theorem rest_toNat (nBytes : BitVec 64) : (nBytes &&& 0b111).toNat = nBytes.toNat % 8 := by
  rw [BitVec.toNat_and]
  exact Nat.and_two_pow_sub_one_eq_mod nBytes.toNat 3

/-- A rotation by a byte moves every byte but the first one down. -/
theorem byte_rotateRight (v : BitVec 64) (inside : i < 7) : byte (v.rotateRight 8) i = byte v (1+i) := by
  ext j small
  simp only [byte,BitVec.getElem_extractLsb',BitVec.getLsbD_rotateRight]
  have above : 8*i + j < 64 - 8 % 64 := by omega
  rw [decide_eq_true above,cond_true]
  congr 1
  omega

/-- The byte loop stores the bytes of `rax` one after another. -/
theorem byteLoop_steps (here : s.rip = 7) (forward : s.DF = false) (count : s.rdx.toNat = n) (short : n < 8)
    (flag : s.ZF = (s.rdx == 0)) :
    ∃ t, Steps memset64 s t ∧ t.rip = 12 ∧ t.mem = fill s.mem s.rdi n (byte s.rax) ∧ t.stack = s.stack := by
  induction n generalizing s with
  | zero =>
    have zero : s.rdx = 0 := BitVec.eq_of_toNat_eq count
    have leaves : step memset64 s = some { s with rip := 12 } := by
      rw [step,here]
      show some { s with rip := if s.ZF then 12 else s.rip + 1 } = _
      rw [flag,zero]
      rfl
    exact ⟨_,.single leaves,rfl,(fill_zero _ _ _).symm,rfl⟩
  | succ n ih =>
    have more : (s.rdx == 0) = false := by
      rw [beq_eq_false_iff_ne]
      intro zero
      rw [zero] at count
      cases count
    have stays : step memset64 s = some { s with rip := 8 } := by
      rw [step,here]
      show some { s with rip := if s.ZF then 12 else s.rip + 1 } = _
      rw [flag,more,here]
      rfl
    have pointer : s.advance s.rdi .byte = s.rdi + BitVec.ofNat 64 1 := by simp [Machine.advance,forward,Width.bytes]
    have round : Steps memset64 s { s with
        mem := fill s.mem s.rdi 1 (byte s.rax)
        rdi := s.advance s.rdi .byte
        rax := s.rax.rotateRight 8
        rdx := s.rdx - 1
        ZF := s.rdx - 1 == 0
        rip := 7 } :=
      Steps.next stays (Steps.next rfl (Steps.next rfl (Steps.next rfl (.single rfl))))
    have fewer : (s.rdx - 1).toNat = n := by
      rw [BitVec.toNat_sub_of_le (show 1 ≤ s.rdx.toNat by omega),count]
      rfl
    obtain ⟨t,steps,ends,mem,stack⟩ := @ih { s with
        mem := fill s.mem s.rdi 1 (byte s.rax)
        rdi := s.advance s.rdi .byte
        rax := s.rax.rotateRight 8
        rdx := s.rdx - 1
        ZF := s.rdx - 1 == 0
        rip := 7 } rfl forward fewer (by omega) rfl
    refine ⟨t,round.trans steps,ends,?_,stack⟩
    have rotated : ∀ i < n, byte (s.rax.rotateRight 8) i = byte s.rax (1+i) := fun i inside => byte_rotateRight s.rax (by omega)
    rw [mem]
    dsimp only
    rw [pointer,fill_congr rotated,fill_append _ _ _ (by omega),Nat.add_comm]

/-- `memset64` up to its byte loop: the words are stored. -/
theorem memset64_words (s : Machine) (dest value nBytes : BitVec 64) : ∃ t, Steps memset64 (call s dest value nBytes) t ∧
    t.rip = 7 ∧ t.DF = false ∧ t.rax = value ∧ t.rdx = nBytes &&& 0b111 ∧ t.ZF = (t.rdx == 0) ∧
    t.rdi = dest + BitVec.ofNat 64 (8 * (nBytes.toNat / 8)) ∧
    t.mem = fill s.mem dest (8 * (nBytes.toNat / 8)) (fun i => byte value (i % 8)) ∧ t.stack = s.rcx :: s.stack := by
  have below := nBytes.isLt
  obtain ⟨u,isU⟩ : ∃ u, u = { call s dest value nBytes with
      stack := s.rcx :: s.stack
      rax := value
      rcx := nBytes >>> 3
      rdx := nBytes &&& 0b111
      ZF := nBytes &&& 0b111 == 0
      rip := 5 } := ⟨_,rfl⟩
  have divided : Steps memset64 (call s dest value nBytes) u := by
    rw [isU]
    exact Steps.next rfl (Steps.next rfl (Steps.next rfl (Steps.next rfl (.single rfl))))
  have stored := @rep_steps memset64 u (.stos .qword) (by rw [isU]; rfl)
  have count : u.rcx.toNat = nBytes.toNat / 8 := by rw [isU,← words_toNat]
  rw [count,stos_times (by rw [isU]; rfl) (by show 8 * _ ≤ _; omega)] at stored
  subst isU
  refine ⟨_,(divided.trans stored).tail rfl,rfl,rfl,rfl,rfl,?_,rfl,rfl,rfl⟩
  exact congrArg (· == 0) BitVec.and_self

/-- `memset64` returns, and leaves the bytes of the value over the range. -/
theorem memset64_returns (s : Machine) (dest value nBytes : BitVec 64) : ∃ t, Returns memset64 (call s dest value nBytes) t ∧
    t.mem = fill s.mem dest nBytes.toNat (fun i => byte value (i % 8)) ∧ t.rcx = s.rcx ∧ t.stack = s.stack := by
  have below := nBytes.isLt
  have parts : 8 * (nBytes.toNat / 8) + nBytes.toNat % 8 = nBytes.toNat := Nat.div_add_mod _ _
  obtain ⟨u,words,atLoop,forward,rax,rdx,flag,rdi,mem,stack⟩ := memset64_words s dest value nBytes
  obtain ⟨v,bytes,atEnd,mem',stack'⟩ := byteLoop_steps atLoop forward (n := nBytes.toNat % 8) (by rw [rdx,rest_toNat]) (by omega) flag
  have pops : step memset64 v = some { v with rcx := s.rcx, stack := s.stack, rip := 13 } := by
    have popped := exec_pop (r := .rcx) (stack'.trans stack)
    rw [atEnd] at popped
    rw [step,atEnd]
    exact popped
  refine ⟨_,⟨(words.trans bytes).tail pops,rfl⟩,?_,rfl,rfl⟩
  have later : ∀ i < nBytes.toNat % 8, byte value i = byte value ((8 * (nBytes.toNat / 8) + i) % 8) := by
    intro i inside
    rw [Nat.mul_add_mod,Nat.mod_eq_of_lt (by omega)]
  show v.mem = _
  rw [mem',rdi,mem,rax,fill_congr later,fill_append _ _ (fun i => byte value (i % 8)) (by omega),parts]

/-- `memcpy` up to its bytes: the words are moved. -/
theorem memcpy_words (s : Machine) (nBytes : BitVec 64) (ahead : Ahead dest src (8 * (nBytes.toNat / 8))) :
    ∃ t, Steps memcpy (call s dest src nBytes) t ∧ t.rip = 6 ∧ t.DF = false ∧ t.rcx = nBytes &&& 0b111 ∧
    t.rdi = dest + BitVec.ofNat 64 (8 * (nBytes.toNat / 8)) ∧ t.rsi = src + BitVec.ofNat 64 (8 * (nBytes.toNat / 8)) ∧
    t.mem = fill s.mem dest (8 * (nBytes.toNat / 8)) (fun i => s.mem (src + BitVec.ofNat 64 i)) ∧ t.stack = s.stack := by
  obtain ⟨u,isU⟩ : ∃ u, u = { call s dest src nBytes with
      rcx := nBytes >>> 3
      rdx := nBytes &&& 0b111
      ZF := nBytes &&& 0b111 == 0
      rip := 4 } := ⟨_,rfl⟩
  have divided : Steps memcpy (call s dest src nBytes) u := by
    rw [isU]
    exact Steps.next rfl (Steps.next rfl (Steps.next rfl (.single rfl)))
  have moved := @rep_steps memcpy u (.movs .qword) (by rw [isU]; rfl)
  have count : u.rcx.toNat = nBytes.toNat / 8 := by rw [isU,← words_toNat]
  rw [count,movs_times (by rw [isU]; rfl) (by rw [isU]; exact ahead)] at moved
  subst isU
  exact ⟨_,(divided.trans moved).tail rfl,rfl,rfl,rfl,rfl,rfl,rfl,rfl⟩

/-- `memcpy` returns, and leaves the bytes of the source over the range, if they are read before they are written. -/
theorem memcpy_returns (s : Machine) (nBytes : BitVec 64) (ahead : Ahead dest src nBytes.toNat) :
    ∃ t, Returns memcpy (call s dest src nBytes) t ∧
      t.mem = fill s.mem dest nBytes.toNat (fun i => s.mem (src + BitVec.ofNat 64 i)) ∧ t.stack = s.stack := by
  have parts : 8 * (nBytes.toNat / 8) + nBytes.toNat % 8 = nBytes.toNat := Nat.div_add_mod _ _
  rw [← parts] at ahead
  obtain ⟨u,words,atRep,forward,rcx,rdi,rsi,mem,stack⟩ := memcpy_words s nBytes (Ahead.first ahead)
  have bytes := @rep_steps memcpy u (.movs .byte) (by rw [atRep]; rfl)
  have count : u.rcx.toNat = nBytes.toNat % 8 := by rw [rcx,rest_toNat]
  have whole : Width.byte.bytes * (nBytes.toNat % 8) = nBytes.toNat % 8 := Nat.one_mul _
  rw [count,movs_times forward (by rw [rdi,rsi,whole]; exact ahead.later),whole] at bytes
  refine ⟨_,⟨words.trans bytes,?_⟩,?_,stack⟩
  · show memcpy[u.rip + 1]? = some .ret
    rw [atRep]
    rfl
  · show fill u.mem u.rdi _ (fun i => u.mem (u.rsi + BitVec.ofNat 64 i)) = _
    rw [mem,rdi,rsi,copy_append _ ahead,parts]

/-- The byte `i` of the range is set to the byte `i % 8` of the value, and no other byte is changed. -/
theorem memset64_sets (s : Machine) (dest value nBytes : BitVec 64) :
    ∃ t, Returns memset64 (call s dest value nBytes) t ∧ (∀ t', Returns memset64 (call s dest value nBytes) t' → t' = t) ∧
      (∀ i < nBytes.toNat, t.mem (dest + BitVec.ofNat 64 i) = byte value (i % 8)) ∧
      ∀ a, (∀ i < nBytes.toNat, a ≠ dest + BitVec.ofNat 64 i) → t.mem a = s.mem a := by
  obtain ⟨t,returns,mem,_⟩ := memset64_returns s dest value nBytes
  refine ⟨t,returns,fun t' returns' => returns'.unique returns,?_⟩
  rw [mem]
  exact fill_told s.mem dest _ (Nat.le_of_lt nBytes.isLt)

/-- Where the destination is below the source, or has no byte in common with it, the bytes that were in
    the source stand in the range, and no other byte is changed. -/
theorem memcpy_copies (s : Machine) (dest src nBytes : BitVec 64)
    (places : dest ≤ src ∧ src.toNat + nBytes.toNat ≤ 2^64 + dest.toNat ∨
      ∀ i < nBytes.toNat, ∀ j < nBytes.toNat, dest + BitVec.ofNat 64 i ≠ src + BitVec.ofNat 64 j) :
    ∃ t, Returns memcpy (call s dest src nBytes) t ∧ (∀ t', Returns memcpy (call s dest src nBytes) t' → t' = t) ∧
      (∀ i < nBytes.toNat, t.mem (dest + BitVec.ofNat 64 i) = s.mem (src + BitVec.ofNat 64 i)) ∧
      ∀ a, (∀ i < nBytes.toNat, a ≠ dest + BitVec.ofNat 64 i) → t.mem a = s.mem a := by
  have ahead : Ahead dest src nBytes.toNat := by
    rcases places with ⟨le,short⟩ | apart
    · exact ahead_of_le le short
    · exact ahead_of_disjoint apart
  obtain ⟨t,returns,mem,_⟩ := memcpy_returns s nBytes ahead
  refine ⟨t,returns,fun t' returns' => returns'.unique returns,?_⟩
  rw [mem]
  exact fill_told s.mem dest _ (Nat.le_of_lt nBytes.isLt)

/-- Twelve bytes that are moved down by three. -/
theorem memcpy_copies_down : ∃ t, Returns memcpy (call ⟨0,0,0,0,0,false,false,[],fun a => a.setWidth 8,0⟩ 0x1000 0x1003 12) t ∧
    t.mem 0x1008 = 0x0b := by
  obtain ⟨t,returns,_,copied,_⟩ := memcpy_copies ⟨0,0,0,0,0,false,false,[],fun a => a.setWidth 8,0⟩ 0x1000 0x1003 12
    (.inl ⟨by decide,by decide⟩)
  exact ⟨t,returns,copied 8 (by decide)⟩

/-- The memory `m` holds the bytes of the machine at the numbers of their addresses. -/
def Agrees (m : Bytes.Mem) (space : Space 64 (BitVec 8)) : Prop := ∀ a : BitVec 64, m a.toNat = space a

theorem Agrees.fill {m : Bytes.Mem} {space : Space 64 (BitVec 8)} (agrees : Agrees m space) {a : BitVec 64} {f g : Nat → BitVec 8}
    (bound : a.toNat + n ≤ 2^64) (same : ∀ i < n, f i = g i) : Agrees (Bytes.fill m a.toNat n f) (AddressSpace.fill space a n g) := by
  intro x
  have below := x.isLt
  rw [AddressSpace.fill]
  by_cases after : a ≤ x
  · have order : a.toNat ≤ x.toNat := after
    rw [BitVec.toNat_sub_of_le after]
    by_cases inside : x.toNat - a.toNat < n
    · rw [if_pos inside,Bytes.fill_at order (by omega),same _ inside]
    · rw [if_neg inside,Bytes.fill_apart (by omega),agrees x]
  · have order : x.toNat < a.toNat := Nat.lt_of_not_le after
    have far : ¬ (x - a).toNat < n := by
      rw [BitVec.toNat_sub]
      omega
    rw [if_neg far,Bytes.fill_apart (by omega),agrees x]

theorem pattern_byte (value : BitVec 64) (i : Nat) : pattern value.toNat i = byte value (i % 8) := by
  apply BitVec.eq_of_toNat_eq
  rw [pattern,byte,BitVec.extractLsb'_toNat,BitVec.toNat_ofNat,Nat.shiftRight_eq_div_pow,Nat.pow_mul]

theorem memset64_agrees {m : Bytes.Mem} (agrees : Agrees m s.mem) (value : BitVec 64) (bound : dest.toNat + nBytes.toNat ≤ 2^64) :
    ∃ t, Returns memset64 (call s dest value nBytes) t ∧
      Agrees (WaifuOS.memset64 m dest.toNat value.toNat nBytes.toNat) t.mem := by
  obtain ⟨t,returns,mem,_⟩ := memset64_returns s dest value nBytes
  refine ⟨t,returns,?_⟩
  rw [memset64_eq bound,mem]
  exact agrees.fill bound (fun i _ => pattern_byte value i)

theorem memcpy_agrees {m : Bytes.Mem} (agrees : Agrees m s.mem) (bound : dest.toNat + nBytes.toNat ≤ 2^64)
    (source : src.toNat + nBytes.toNat ≤ 2^64) (forward : Forward dest.toNat src.toNat nBytes.toNat) :
    ∃ t, Returns memcpy (call s dest src nBytes) t ∧
      Agrees (WaifuOS.memcpy m dest.toNat src.toNat nBytes.toNat) t.mem := by
  have ahead : Ahead dest src nBytes.toNat := by
    simp only [Ahead]
    rw [BitVec.toNat_sub]
    simp only [Forward] at forward
    omega
  obtain ⟨t,returns,mem,_⟩ := memcpy_returns s nBytes ahead
  refine ⟨t,returns,?_⟩
  rw [memcpy_eq bound source forward,mem]
  apply agrees.fill bound
  intro i inside
  have address : (src + BitVec.ofNat 64 i).toNat = src.toNat + i := by
    rw [BitVec.toNat_add,BitVec.toNat_ofNat]
    omega
  rw [← agrees,address]

end WaifuOS.asmUtils
