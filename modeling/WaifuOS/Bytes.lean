import Mathlib.Logic.Function.Basic
import Mathlib.Tactic.Ring

/-!
Byte memories. A memory holds one byte at each address (`Mem`). Numbers stand in
it least significant byte first: `load` reads one, `store` writes one, `fill`
writes a byte for each offset of a range. What a write leaves and what it
changes is stated once here (`store_apart`, `store_at`, `fill_apart`,
`fill_at`), and reading back what was written is `load_store`. A code that writes
here and there is followed by the list of its writes (`Write`, `writeAll`).
-/
namespace WaifuOS.Bytes

/-- One byte at each address. -/
abbrev Mem := Nat → BitVec 8

/-- The number that the `k` bytes from `a` write, least significant byte first. -/
def load (m : Mem) (a : Nat) : Nat → Nat
  | 0 => 0
  | k+1 => (m a).toNat + 256 * load m (a+1) k

/-- Writes the `k` low bytes of `v` from `a`, least significant byte first. -/
def store (m : Mem) (a : Nat) : Nat → Nat → Mem
  | 0, _ => m
  | k+1, v => Function.update (store m (a+1) k (v / 256)) a (BitVec.ofNat 8 v)

/-- Writes `f i` at the offset `i` of the range of `n` bytes from `a`. -/
def fill (m : Mem) (a n : Nat) (f : Nat → BitVec 8) : Mem :=
  fun x => if a ≤ x ∧ x < a+n then f (x-a) else m x

/-- Two ranges without a common address. -/
def Apart (a n b k : Nat) : Prop := a+n ≤ b ∨ b+k ≤ a

theorem load_congr {m m' : Mem} {a k : Nat} (same : ∀ x, a ≤ x → x < a+k → m' x = m x) :
    load m' a k = load m a k := by
  induction k generalizing a with
  | zero => rfl
  | succ k ih =>
    have first : m' a = m a := same a (by omega) (by omega)
    have later : load m' (a+1) k = load m (a+1) k :=
      ih (fun x low high => same x (by omega) (by omega))
    simp only [load,first,later]

theorem load_lt (m : Mem) (a k : Nat) : load m a k < 256^k := by
  induction k generalizing a with
  | zero => simp [load]
  | succ k ih =>
    have later := ih (a+1)
    have byte := (m a).isLt
    simp only [load,pow_succ]
    omega

/-- The bytes of a number that was read. -/
theorem load_byte (m : Mem) (a : Nat) {k i : Nat} (inside : i < k) : BitVec.ofNat 8 (load m a k / 256^i) = m (a+i) := by
  induction k generalizing a i with
  | zero => omega
  | succ k ih =>
    have byte := (m a).isLt
    cases i with
    | zero => exact BitVec.eq_of_toNat_eq (by simp [load]; exact byte)
    | succ i =>
      have later : ((m a).toNat + 256 * load m (a+1) k) / 256 = load m (a+1) k := by omega
      rw [load,pow_succ',← Nat.div_div_eq_div_mul,later,ih (a+1) (by omega),show a+1+i = a+(i+1) by omega]

theorem store_apart {m : Mem} {a k v x : Nat} (outside : x < a ∨ a+k ≤ x) : store m a k v x = m x := by
  induction k generalizing a v with
  | zero => rfl
  | succ k ih =>
    rw [store,Function.update_of_ne (by omega)]
    exact ih (by omega)

theorem store_at {m : Mem} {a k v i : Nat} (inside : i < k) :
    store m a k v (a+i) = BitVec.ofNat 8 (v / 256^i) := by
  induction k generalizing a v i with
  | zero => omega
  | succ k ih =>
    cases i with
    | zero => simp [store]
    | succ i =>
      rw [store,Function.update_of_ne (by omega)]
      have later := ih (a := a+1) (v := v/256) (i := i) (by omega)
      rw [show a+(i+1) = a+1+i by omega,later,Nat.div_div_eq_div_mul,pow_succ,Nat.mul_comm]

/-- Reading back what was written. -/
theorem load_store (m : Mem) (a k v : Nat) : load (store m a k v) a k = v % 256^k := by
  induction k generalizing a v with
  | zero => simp [load,Nat.mod_one]
  | succ k ih =>
    have later : load (store m a (k+1) v) (a+1) k = load (store m (a+1) k (v/256)) (a+1) k :=
      load_congr (fun x low high => by rw [store,Function.update_of_ne (by omega)])
    have first : (store m a (k+1) v a).toNat = v % 256 := by simp [store]
    rw [load,later,first,ih,pow_succ,Nat.mul_comm (256^k) 256,Nat.mod_mul]

/-- A number that is apart from what is written is read as before. -/
theorem load_store_apart {m : Mem} {a k b j v : Nat} (apart : Apart a k b j) :
    load (store m b j v) a k = load m a k :=
  load_congr (fun x low high => store_apart (by unfold Apart at apart; omega))

theorem fill_apart {m : Mem} {a n : Nat} {f : Nat → BitVec 8} {x : Nat} (outside : x < a ∨ a+n ≤ x) :
    fill m a n f x = m x := by
  rw [fill,if_neg (by omega)]

theorem fill_at {m : Mem} {a n : Nat} {f : Nat → BitVec 8} {x : Nat} (low : a ≤ x) (high : x < a+n) :
    fill m a n f x = f (x-a) := by
  rw [fill,if_pos ⟨low,high⟩]

/-- Only the bytes of the range matter. -/
theorem fill_congr {m : Mem} {a n : Nat} {f g : Nat → BitVec 8} (same : ∀ i < n, f i = g i) : fill m a n f = fill m a n g := by
  funext x
  by_cases inside : a ≤ x ∧ x < a+n
  · rw [fill_at inside.1 inside.2,fill_at inside.1 inside.2,same (x-a) (by omega)]
  · rw [fill_apart (by omega),fill_apart (by omega)]

theorem fill_zero (m : Mem) (a : Nat) (f : Nat → BitVec 8) : fill m a 0 f = m := by
  funext x; exact fill_apart (by omega)

/-- A longer range is filled as a shorter one when it agrees with it, and with the memory behind it. -/
theorem fill_eq_iff {m : Mem} {a n k : Nat} {f g : Nat → BitVec 8} (le : n ≤ k) :
    fill m a k f = fill m a n g ↔ (∀ i < n, f i = g i) ∧ ∀ i, n ≤ i → i < k → m (a+i) = f i := by
  have left : ∀ i < k, fill m a k f (a+i) = f i := fun i small => by
    rw [fill_at (by omega) (by omega),Nat.add_sub_cancel_left]
  have right : ∀ i < n, fill m a n g (a+i) = g i := fun i small => by
    rw [fill_at (by omega) (by omega),Nat.add_sub_cancel_left]
  constructor
  · intro same
    constructor
    · intro i small
      rw [← left i (by omega),same,right i small]
    · intro i low high
      rw [← left i high,same,fill_apart (by omega)]
  · rintro ⟨inside,behind⟩
    funext x
    by_cases outside : x < a ∨ a+k ≤ x
    · rw [fill_apart outside,fill_apart (by omega)]
    · obtain ⟨i,rfl⟩ := Nat.exists_eq_add_of_le (show a ≤ x by omega)
      rw [left i (by omega)]
      by_cases small : i < n
      · rw [right i small,inside i small]
      · rw [fill_apart (by omega),behind i (by omega) (by omega)]

/-- A number inside a range that was filled. -/
theorem load_fill {m f : Mem} {a n offset k : Nat} (inside : offset + k ≤ n) : load (fill m a n f) (a + offset) k = load f offset k := by
  induction k generalizing offset with
  | zero => rfl
  | succ k ih =>
    have later := @ih (offset + 1) (by omega)
    rw [load,load,fill_at (by omega) (by omega),Nat.add_sub_cancel_left,Nat.add_assoc,later]

theorem load_fill_apart {m f : Mem} {a n b k : Nat} (apart : Apart b k a n) : load (fill m a n f) b k = load m b k :=
  load_congr (fun x low high => fill_apart (by unfold Apart at apart; omega))

/-- A range is filled piece by piece. -/
theorem fill_append (m : Mem) (a n k : Nat) (f : Nat → BitVec 8) :
    fill (fill m a n f) (a+n) k (fun i => f (n+i)) = fill m a (n+k) f := by
  funext x
  by_cases first : a ≤ x ∧ x < a+n
  · rw [fill_apart (by omega),fill_at first.1 first.2,fill_at first.1 (by omega)]
  · by_cases second : a+n ≤ x ∧ x < a+n+k
    · rw [fill_at second.1 second.2,fill_at (by omega) (by omega),show n+(x-(a+n)) = x-a by omega]
    · rw [fill_apart (by omega),fill_apart (by omega),fill_apart (by omega)]

/-- Writing a number fills its range with its bytes. -/
theorem store_eq_fill (m : Mem) (a k v : Nat) :
    store m a k v = fill m a k (fun i => BitVec.ofNat 8 (v / 256^i)) := by
  funext x
  by_cases inside : a ≤ x ∧ x < a+k
  · obtain ⟨i,rfl⟩ := Nat.exists_eq_add_of_le inside.1
    rw [store_at (by omega),fill_at (by omega) inside.2,Nat.add_sub_cancel_left]
  · rw [store_apart (by omega),fill_apart (by omega)]

/-- A number that is written. -/
structure Write where
  address : Nat
  size : Nat
  value : Nat

/-- The write stays inside the `n` bytes from `a`. -/
def Write.Inside (w : Write) (a n : Nat) : Prop := a ≤ w.address ∧ w.address + w.size ≤ a+n

/-- The writes one after another. -/
def writeAll (m : Mem) : List Write → Mem
  | [] => m
  | w :: ws => writeAll (store m w.address w.size w.value) ws

/-- A byte that no write reaches is kept. -/
theorem writeAll_apart {m : Mem} {ws : List Write} {x : Nat} (apart : ∀ w ∈ ws, x < w.address ∨ w.address + w.size ≤ x) :
    writeAll m ws x = m x := by
  induction ws generalizing m with
  | nil => rfl
  | cons w ws ih =>
    rw [writeAll,ih (fun w' member => apart w' (List.mem_cons_of_mem _ member))]
    exact store_apart (apart w (by simp))

theorem writeAll_append {m : Mem} (first later : List Write) : writeAll m (first ++ later) = writeAll (writeAll m first) later := by
  induction first generalizing m with
  | nil => rfl
  | cons w first ih => exact ih

theorem load_writeAll_apart {m : Mem} {ws : List Write} {a k : Nat} (apart : ∀ w ∈ ws, Apart a k w.address w.size) :
    load (writeAll m ws) a k = load m a k :=
  load_congr (fun x low high => writeAll_apart (fun w member => by
    have away := apart w member
    simp only [Apart] at away
    omega))

/-- Two writes to different bytes. -/
def Write.Away (w w' : Write) : Prop := Apart w.address w.size w'.address w'.size

/-- What is written to different bytes is all read back. -/
theorem load_writeAll_mem {m : Mem} {ws : List Write} {w : Write} (away : ws.Pairwise Write.Away) (member : w ∈ ws) :
    load (writeAll m ws) w.address w.size = w.value % 256^w.size := by
  induction ws generalizing m with
  | nil => cases member
  | cons first ws ih =>
    obtain ⟨apart,later⟩ := List.pairwise_cons.mp away
    rw [writeAll]
    rcases List.mem_cons.mp member with rfl | member
    · rw [load_writeAll_apart apart,load_store]
    · exact ih later member

theorem load_written {m : Mem} {ws : List Write} {a k v : Nat} (away : ws.Pairwise Write.Away) (member : ⟨a,k,v⟩ ∈ ws)
    (small : v < 256^k) : load (writeAll m ws) a k = v := (load_writeAll_mem away member).trans (Nat.mod_eq_of_lt small)

end WaifuOS.Bytes
