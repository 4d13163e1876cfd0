import WaifuOS.Bytes
import WaifuOS.Words
import Mathlib.Tactic.NormNum

/-!
The memory routines `memset64` and `memcpy` of `asmUtils.asm`: words first, then the
bytes that are left. Both loops of `memset64` together repeat the bytes of the
value over the whole range (`memset64_eq`), and those of `memcpy` copy a range down,
or to one that is apart from it (`memcpy_eq`). They are irreducible, so that no comparison
of states runs them.
-/
namespace WaifuOS
open WaifuOS.Words WaifuOS.Bytes

/-- `rep stosq`. -/
def stosq (m : Mem) (rdi rax : Nat) : Nat → Mem
  | 0 => m
  | rcx+1 => stosq (store m rdi 8 rax) (wrap (rdi + 8)) rax rcx

/-- The byte loop of `memset64`, which rotates `rax` by a byte each round. -/
def stosb (m : Mem) (rdi rax : Nat) : Nat → Mem
  | 0 => m
  | p2+1 => stosb (store m rdi 1 rax) (wrap (rdi + 1)) (rax / 256 + rax % 256 * 2^56) p2

@[irreducible] def memset64 (m : Mem) (destination value numBytes : Nat) : Mem :=
  let rcx := numBytes / 8
  stosb (stosq m destination value rcx) (wrap (destination + 8 * rcx)) value (numBytes % 8)

/-- `rep movsq`. -/
def movsq (m : Mem) (rdi rsi : Nat) : Nat → Mem
  | 0 => m
  | rcx+1 => movsq (store m rdi 8 (load m rsi 8)) (wrap (rdi + 8)) (wrap (rsi + 8)) rcx

/-- `rep movsb`. -/
def movsb (m : Mem) (rdi rsi : Nat) : Nat → Mem
  | 0 => m
  | rcx+1 => movsb (store m rdi 1 (load m rsi 1)) (wrap (rdi + 1)) (wrap (rsi + 1)) rcx

@[irreducible] def memcpy (m : Mem) (dest src nBytes : Nat) : Mem :=
  let rcx := nBytes / 8
  movsb (movsq m dest src rcx) (wrap (dest + 8 * rcx)) (wrap (src + 8 * rcx)) (nBytes % 8)

/-- The byte `i` of a pattern that repeats the word `value`. -/
def pattern (value i : Nat) : BitVec 8 := BitVec.ofNat 8 (value / 256^(i % 8))

theorem stosq_eq {m : Mem} {rdi rax rcx : Nat} (bound : rdi + 8 * rcx ≤ 2^64) :
    stosq m rdi rax rcx = fill m rdi (8 * rcx) (pattern rax) := by
  induction rcx generalizing m rdi with
  | zero => rw [stosq,Nat.mul_zero,fill_zero]
  | succ rcx ih =>
    have word : store m rdi 8 rax = fill m rdi 8 (pattern rax) := by
      rw [store_eq_fill]
      exact fill_congr (fun i small => by rw [pattern,Nat.mod_eq_of_lt small])
    have later : pattern rax = fun i => pattern rax (8+i) := by funext i; simp [pattern]
    rw [stosq,word]
    cases rcx with
    | zero => rw [stosq]
    | succ rcx =>
      rw [wrap_of_lt (by omega),ih (by omega)]
      nth_rewrite 2 [later]
      rw [fill_append,show 8 + 8 * (rcx+1) = 8 * (rcx+1+1) by omega]

/-- The byte loop writes the bytes of `rax` one after another. -/
theorem stosb_eq {m : Mem} {rdi rax n : Nat} (bound : rdi + n ≤ 2^64) (short : n ≤ 8) :
    stosb m rdi rax n = fill m rdi n (fun i => BitVec.ofNat 8 (rax / 256^i)) := by
  induction n generalizing m rdi rax with
  | zero => rw [stosb,fill_zero]
  | succ n ih =>
    have first : store m rdi 1 rax = fill m rdi 1 (fun i => BitVec.ofNat 8 (rax / 256^i)) := store_eq_fill m rdi 1 rax
    rw [stosb,first]
    cases n with
    | zero => rw [stosb]
    | succ n =>
      -- The byte that is rotated in at the top is not reached by the rounds that are left.
      have rotated : ∀ i < n+1, BitVec.ofNat 8 ((rax / 256 + rax % 256 * 2^56) / 256^i) = BitVec.ofNat 8 (rax / 256^(1+i)) := by
        intro i small
        obtain ⟨k,rest⟩ := Nat.exists_eq_add_of_lt (show i < 7 by omega)
        have top : 2^56 = 256^i * (256 * 256^k) := by
          rw [← pow_succ',← pow_add,show i + (k+1) = 7 by omega]
          norm_num
        rw [top,show rax % 256 * (256^i * (256 * 256^k)) = 256^i * (256 * (rax % 256 * 256^k)) by ring,
          Nat.add_mul_div_left _ _ (Nat.pow_pos (by decide)),Nat.div_div_eq_div_mul,← pow_succ',Nat.add_comm 1 i]
        apply BitVec.eq_of_toNat_eq
        simp
      rw [wrap_of_lt (by omega),ih (by omega) (by omega),fill_congr rotated,fill_append,Nat.add_comm 1]

theorem memset64_eq {m : Mem} {destination value numBytes : Nat} (bound : destination + numBytes ≤ 2^64) :
    memset64 m destination value numBytes = fill m destination numBytes (pattern value) := by
  have parts := Nat.div_add_mod numBytes 8
  have tail : (fun i => pattern value (8 * (numBytes / 8) + i)) = pattern value := by funext i; simp [pattern]
  have whole : fill (fill m destination (8 * (numBytes / 8)) (pattern value)) (destination + 8 * (numBytes / 8))
      (numBytes % 8) (pattern value) = fill m destination numBytes (pattern value) := by
    have pieces := fill_append m destination (8 * (numBytes / 8)) (numBytes % 8) (pattern value)
    rwa [tail,parts] at pieces
  rw [memset64,stosq_eq (by omega)]
  cases rest : numBytes % 8 with
  | zero =>
    rw [rest,fill_zero] at whole
    rw [stosb,whole]
  | succ n =>
    have bytes : fill (fill m destination (8 * (numBytes / 8)) (pattern value)) (destination + 8 * (numBytes / 8)) (n+1)
        (fun i => BitVec.ofNat 8 (value / 256^i)) =
        fill (fill m destination (8 * (numBytes / 8)) (pattern value)) (destination + 8 * (numBytes / 8)) (n+1)
        (pattern value) := fill_congr (fun i small => by rw [pattern,Nat.mod_eq_of_lt (by omega)])
    rw [wrap_of_lt (by omega),stosb_eq (by omega) (by omega),bytes,← rest,whole]

/-- Storing a number that was read from an address copies its bytes. -/
theorem store_load (m : Mem) (a b k : Nat) : store m a k (load m b k) = fill m a k (fun i => m (b+i)) := by
  rw [store_eq_fill]
  exact fill_congr (fun i small => load_byte m b small)

/-- A copy that goes upwards reads each byte before it writes to it. -/
def Forward (dest src n : Nat) : Prop := dest ≤ src ∨ src + n ≤ dest

/-- One round of a copy, and the rounds that are left, which start where it ends. -/
theorem copy_cons {m : Mem} {rdi rsi k n : Nat} (forward : Forward rdi rsi (k+n)) :
    fill (fill m rdi k (fun i => m (rsi+i))) (rdi+k) n (fun i => fill m rdi k (fun i => m (rsi+i)) (rsi+k+i)) =
      fill m rdi (k+n) (fun i => m (rsi+i)) := by
  rw [← fill_append]
  apply fill_congr
  intro i small
  rw [fill_apart (by unfold Forward at forward; omega),Nat.add_assoc]

theorem movsq_eq {m : Mem} {rdi rsi rcx : Nat} (bound : rdi + 8 * rcx ≤ 2^64) (source : rsi + 8 * rcx ≤ 2^64)
    (forward : Forward rdi rsi (8 * rcx)) : movsq m rdi rsi rcx = fill m rdi (8 * rcx) (fun i => m (rsi+i)) := by
  induction rcx generalizing m rdi rsi with
  | zero => rw [movsq,Nat.mul_zero,fill_zero]
  | succ rcx ih =>
    rw [movsq,store_load]
    cases rcx with
    | zero => rw [movsq]
    | succ rcx =>
      have whole : 8 * (rcx+1+1) = 8 + 8 * (rcx+1) := by omega
      rw [wrap_of_lt (by omega),wrap_of_lt (by omega),ih (by omega) (by omega) (by unfold Forward at forward ⊢; omega)]
      rw [whole] at forward ⊢
      exact copy_cons forward

theorem movsb_eq {m : Mem} {rdi rsi rcx : Nat} (bound : rdi + rcx ≤ 2^64) (source : rsi + rcx ≤ 2^64)
    (forward : Forward rdi rsi rcx) : movsb m rdi rsi rcx = fill m rdi rcx (fun i => m (rsi+i)) := by
  induction rcx generalizing m rdi rsi with
  | zero => rw [movsb,fill_zero]
  | succ rcx ih =>
    rw [movsb,store_load]
    cases rcx with
    | zero => rw [movsb]
    | succ rcx =>
      have whole : rcx+1+1 = 1 + (rcx+1) := by omega
      rw [wrap_of_lt (by omega),wrap_of_lt (by omega),ih (by omega) (by omega) (by unfold Forward at forward ⊢; omega)]
      rw [whole] at forward ⊢
      exact copy_cons forward

theorem memcpy_eq {m : Mem} {dest src nBytes : Nat} (bound : dest + nBytes ≤ 2^64) (source : src + nBytes ≤ 2^64)
    (forward : Forward dest src nBytes) : memcpy m dest src nBytes = fill m dest nBytes (fun i => m (src+i)) := by
  have parts := Nat.div_add_mod nBytes 8
  rw [memcpy,movsq_eq (by omega) (by omega) (by unfold Forward at forward ⊢; omega)]
  cases rest : nBytes % 8 with
  | zero =>
    rw [rest,Nat.add_zero] at parts
    rw [movsb,parts]
  | succ n =>
    rw [rest] at parts
    rw [wrap_of_lt (by omega),wrap_of_lt (by omega),movsb_eq (by omega) (by omega) (by unfold Forward at forward ⊢; omega)]
    rw [← parts] at forward
    rw [copy_cons forward,parts]

end WaifuOS
