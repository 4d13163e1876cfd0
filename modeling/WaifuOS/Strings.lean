import WaifuOS.Texts

/-!
The string routines `strcpy` and `strncpy` of `string.asm`. Their loops test `al` before
they read the first character, when `al` is still the low byte of the destination:
where that is 0 nothing is copied, and everywhere else what should be
(`strcpy_iff`, `strncpy_iff`). No object lies across the top of the address space, so
that addresses are sums.
-/
namespace WaifuOS
open WaifuOS.Bytes

/-- The loop of `strcpy`: what it writes. -/
def strcpyLoop (m : Mem) (rdi rsi rcx al : Nat) : Nat → Option (List Write)
  | 0 => none
  | fuel+1 =>
    if al = 0 then some []
    else
      let al := (m (rsi + rcx)).toNat
      (strcpyLoop (store m (rdi + rcx) 1 al) rdi rsi (rcx+1) al fuel).map (⟨rdi + rcx,1,al⟩ :: ·)

def strcpy (m : Mem) (dest src fuel : Nat) : Option (List Write) := strcpyLoop m dest src 0 (dest % 256) fuel

/-- The loop of `strncpy` with `n` rounds left until `rcx` reaches `rdx`: what it writes. -/
def strncpyLoop (m : Mem) (rdi rsi rcx al : Nat) : Nat → List Write
  | 0 => []
  | n+1 =>
    if al = 0 then []
    else
      let al := (m (rsi + rcx)).toNat
      ⟨rdi + rcx,1,al⟩ :: strncpyLoop (store m (rdi + rcx) 1 al) rdi rsi (rcx+1) al n

def strncpy (m : Mem) (dest src max : Nat) : List Write := strncpyLoop m dest src 0 (dest % 256) max

/-- No write is outside the `max` bytes of the destination. -/
theorem strncpyLoop_inside {m : Mem} {rdi rsi rcx al n : Nat} {w : Write} (member : w ∈ strncpyLoop m rdi rsi rcx al n) :
    w.Inside rdi (rcx + n) := by
  induction n generalizing m rcx al with
  | zero => cases member
  | succ n ih =>
    rw [strncpyLoop] at member
    split at member
    · cases member
    · rcases List.mem_cons.mp member with rfl | later
      · exact ⟨by simp only; omega,by simp only; omega⟩
      · obtain ⟨low,high⟩ := ih later
        exact ⟨low,by omega⟩

theorem strncpy_inside {m : Mem} {dest src max : Nat} {w : Write} (member : w ∈ strncpy m dest src max) :
    w.Inside dest max := by
  have inside := strncpyLoop_inside member
  rwa [Nat.zero_add] at inside

/-- The writes that copy `n` bytes of a text and its terminator. -/
def copied (dest : Nat) (s : List (BitVec 8)) (n : Nat) : List Write :=
  (List.range n).map (fun i => ⟨dest + i,1,(s.getD i 0).toNat⟩)

variable {m : Mem} {rdi rsi rcx al dest src max n k fuel : Nat} {s : List (BitVec 8)}

@[simp] theorem copied_length : (copied dest s n).length = n := by simp [copied]

theorem store_byte (m : Mem) (a : Nat) (c : BitVec 8) : store m a 1 c.toNat = fill m a 1 (fun _ => c) := by
  rw [store_eq_fill]
  apply fill_congr
  intro i small
  obtain rfl : i = 0 := by omega
  rw [Nat.pow_zero,Nat.div_one,BitVec.ofNat_toNat,BitVec.setWidth_eq]

/-- The copy fills the destination. -/
theorem writeAll_copied : writeAll m (copied dest s n) = fill m dest n (fun i => s.getD i 0) := by
  induction n with
  | zero => exact (fill_zero _ _ _).symm
  | succ n ih =>
    have split : copied dest s (n+1) = copied dest s n ++ [⟨dest + n,1,(s.getD n 0).toNat⟩] := by
      rw [copied,List.range_succ,List.map_append,List.map_singleton,copied]
    rw [split,writeAll_append,ih,writeAll,writeAll,store_byte,← fill_append]
    apply fill_congr
    intro i small
    obtain rfl : i = 0 := by omega
    rfl

/-- Where `al` is 0 nothing is written. -/
theorem strncpyLoop_zero : strncpyLoop m rdi rsi rcx 0 n = [] := by
  cases n with
  | zero => rfl
  | succ n => exact if_pos rfl

/-- `strcpy` does what `strncpy` does with a bound that it does not reach. -/
theorem strcpyLoop_eq : strcpyLoop m rdi rsi rcx al fuel =
    if (strncpyLoop m rdi rsi rcx al fuel).length < fuel then some (strncpyLoop m rdi rsi rcx al fuel) else none := by
  induction fuel generalizing m rcx al with
  | zero => exact (if_neg (Nat.not_lt_zero _)).symm
  | succ fuel ih =>
    rw [strcpyLoop,strncpyLoop]
    by_cases stop : al = 0
    · rw [if_pos stop,if_pos stop,List.length_nil,if_pos (Nat.succ_pos fuel)]
    · rw [if_neg stop,if_neg stop]
      simp only [ih,List.length_cons,Nat.add_lt_add_iff_right]
      split <;> rfl

/-- From a character that is not the terminator on, the loop copies up to the terminator or the bound. -/
theorem strncpyLoop_text (text : Text m rsi s) (inside : k ≤ s.length) (going : al ≠ 0)
    (apart : Apart (rdi + k) (min n (s.length + 1 - k)) rsi (s.length + 1)) :
    strncpyLoop m rdi rsi k al n =
      (List.range' k (min n (s.length + 1 - k))).map (fun i => ⟨rdi + i,1,(s.getD i 0).toNat⟩) := by
  induction n generalizing m k al with
  | zero => simp [strncpyLoop]
  | succ n ih =>
    have rounds : min (n+1) (s.length + 1 - k) = min n (s.length + 1 - (k+1)) + 1 := by omega
    rw [strncpyLoop,if_neg going,rounds,List.range'_succ,List.map_cons,text.2 k inside]
    apply congrArg _
    by_cases last : k = s.length
    · have none : min n (s.length + 1 - (k+1)) = 0 := by omega
      rw [none,last,List.getD_eq_default _ _ (Nat.le_refl _)]
      exact strncpyLoop_zero
    · have kept : Text (store m (rdi + k) 1 (s.getD k 0).toNat) rsi s :=
        text.congr (fun i upTo => store_apart (by unfold Apart at apart; omega))
      have more : (s.getD k 0).toNat ≠ 0 := by
        rw [← text.2 k inside]
        exact fun zero => text.getD_ne (by omega) (BitVec.eq_of_toNat_eq zero)
      exact ih (k := k+1) kept (by omega) more (by unfold Apart at apart ⊢; omega)

/-- Where the low byte of the destination is not 0, `strncpy` copies the text up to the bound. -/
theorem strncpy_text (text : Text m src s) (apart : Apart dest (min max (s.length + 1)) src (s.length + 1))
    (low : dest % 256 ≠ 0) : strncpy m dest src max = copied dest s (min max (s.length + 1)) := by
  rw [strncpy,strncpyLoop_text text (Nat.zero_le _) low apart,copied,List.range_eq_range']
  rfl

/-- Where the low byte of the destination is 0, `strncpy` writes nothing. -/
theorem strncpy_nothing (low : dest % 256 = 0) : strncpy m dest src max = [] := by
  rw [strncpy,low]
  exact strncpyLoop_zero

theorem strncpy_iff (text : Text m src s) (apart : Apart dest (min max (s.length + 1)) src (s.length + 1)) :
    strncpy m dest src max = copied dest s (min max (s.length + 1)) ↔ dest % 256 ≠ 0 ∨ max = 0 := by
  constructor
  · intro right
    by_contra neither
    rw [not_or,not_ne_iff] at neither
    rw [strncpy_nothing neither.1] at right
    have count := congrArg List.length right
    rw [copied_length,List.length_nil] at count
    omega
  · rintro (low | rfl)
    · exact strncpy_text text apart low
    · simp [strncpy,strncpyLoop,copied]

theorem strcpy_iff (text : Text m src s) (apart : Apart dest (s.length + 1) src (s.length + 1)) (enough : s.length + 1 < fuel) :
    strcpy m dest src fuel = some (copied dest s (s.length + 1)) ↔ dest % 256 ≠ 0 := by
  have bound : min fuel (s.length + 1) = s.length + 1 := by omega
  have bounded : strncpy m dest src fuel = copied dest s (min fuel (s.length + 1)) ↔ dest % 256 ≠ 0 ∨ fuel = 0 :=
    strncpy_iff text (by rw [bound]; exact apart)
  rw [bound,or_iff_left (by omega)] at bounded
  rw [← bounded,strcpy,strcpyLoop_eq,← strncpy]
  constructor
  · intro returned
    split at returned
    · exact Option.some.inj returned
    · cases returned
  · intro right
    rw [right,copied_length,if_pos enough]

end WaifuOS
