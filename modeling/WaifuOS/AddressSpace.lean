import Mathlib.Data.BitVec

/-!
Memories with addresses of `w` bits. The addresses go round: behind the last one comes the first
(`fill`, which writes a range from an address on). A range that is not longer than the memory is
told cell by cell (`fill_at`, `fill_apart`) and piece by piece (`fill_append`). A copy that goes
upwards, one piece after another, is right when no piece is written before it is read
(`Ahead`, `copy_append`): from a higher address to a lower one, and between ranges
that have no cell in common.
-/
namespace WaifuOS.AddressSpace

/-- One cell at each address of `w` bits. -/
abbrev Space (w : Nat) (α : Type) := BitVec w → α

variable {w : Nat} {α : Type}

/-- Writes `f i` to the cell `i` of the `n` cells from `a` on. -/
def fill (m : Space w α) (a : BitVec w) (n : Nat) (f : Nat → α) : Space w α :=
  fun x => if (x - a).toNat < n then f (x - a).toNat else m x

variable {m : Space w α} {a x : BitVec w} {n k i : Nat} {f g : Nat → α}

theorem offset_toNat (a : BitVec w) (small : i < 2^w) : (a + BitVec.ofNat w i - a).toNat = i := by
  rw [BitVec.add_comm,BitVec.add_sub_cancel,BitVec.toNat_ofNat,Nat.mod_eq_of_lt small]

theorem offset_self (a x : BitVec w) : a + BitVec.ofNat w (x - a).toNat = x := by
  rw [BitVec.ofNat_toNat,BitVec.setWidth_eq,BitVec.add_comm,BitVec.sub_add_cancel]

theorem fill_at (inside : i < n) (fits : n ≤ 2^w) : fill m a n f (a + BitVec.ofNat w i) = f i := by
  rw [fill,offset_toNat a (by omega),if_pos inside]

theorem fill_apart (outside : ∀ i < n, x ≠ a + BitVec.ofNat w i) : fill m a n f x = m x := by
  rw [fill,if_neg]
  intro inside
  exact outside _ inside (offset_self a x).symm

/-- A range that is filled, and the cells outside of it. -/
theorem fill_told (m : Space w α) (a : BitVec w) (f : Nat → α) (fits : n ≤ 2^w) :
    (∀ i < n, fill m a n f (a + BitVec.ofNat w i) = f i) ∧
      ∀ x, (∀ i < n, x ≠ a + BitVec.ofNat w i) → fill m a n f x = m x :=
  ⟨fun _ inside => fill_at inside fits,fun _ outside => fill_apart outside⟩

theorem fill_zero (m : Space w α) (a : BitVec w) (f : Nat → α) : fill m a 0 f = m := by
  funext x
  exact fill_apart (fun i inside => absurd inside (Nat.not_lt_zero i))

/-- Only the cells of the range matter. -/
theorem fill_congr (same : ∀ i < n, f i = g i) : fill m a n f = fill m a n g := by
  funext x
  rw [fill,fill]
  by_cases inside : (x - a).toNat < n
  · rw [if_pos inside,if_pos inside,same _ inside]
  · rw [if_neg inside,if_neg inside]

/-- The offset from an address further on. -/
theorem offset_later (x a : BitVec w) (fits : n ≤ 2^w) : (x - (a + BitVec.ofNat w n)).toNat =
    if n ≤ (x - a).toNat then (x - a).toNat - n else (x - a).toNat + (2^w - n) := by
  obtain ⟨d,offset⟩ : ∃ d, d = (x - a).toNat := ⟨_,rfl⟩
  have below : d < 2^w := by rw [offset]; exact (x - a).isLt
  have whole : a + BitVec.ofNat w d = x := by rw [offset]; exact offset_self a x
  rw [← offset]
  by_cases later : n ≤ d
  · have there : x = a + BitVec.ofNat w n + BitVec.ofNat w (d - n) := by
      rw [BitVec.add_assoc,← BitVec.ofNat_add,Nat.add_sub_cancel' later,whole]
    rw [if_pos later,there,offset_toNat _ (by omega)]
  · -- The offset goes round once.
    have around : BitVec.ofNat w (n + (d + (2^w - n))) = BitVec.ofNat w d := by
      apply BitVec.eq_of_toNat_eq
      rw [show n + (d + (2^w - n)) = d + 2^w by omega,BitVec.toNat_ofNat,BitVec.toNat_ofNat,Nat.add_mod_right]
    have there : x = a + BitVec.ofNat w n + BitVec.ofNat w (d + (2^w - n)) := by
      rw [BitVec.add_assoc,← BitVec.ofNat_add,around,whole]
    rw [if_neg later,there,offset_toNat _ (by omega)]

/-- A range is filled piece by piece. -/
theorem fill_append (m : Space w α) (a : BitVec w) (f : Nat → α) (fits : n + k ≤ 2^w) :
    fill (fill m a n f) (a + BitVec.ofNat w n) k (fun i => f (n+i)) = fill m a (n+k) f := by
  funext x
  have below := (x - a).isLt
  simp only [fill,offset_later x a (show n ≤ 2^w by omega)]
  by_cases first : n ≤ (x - a).toNat
  · rw [if_pos first,Nat.add_sub_cancel' first]
    by_cases second : (x - a).toNat < n + k
    · rw [if_pos (by omega),if_pos second]
    · rw [if_neg (by omega),if_neg (by omega),if_neg second]
  · rw [if_neg first,if_neg (by omega),if_pos (by omega),if_pos (by omega)]

/-- Going upwards from `a` on, the `n` cells from `b` on are not reached before their turn. -/
def Ahead (a b : BitVec w) (n : Nat) : Prop := (b - a).toNat + n ≤ 2^w

variable {b : BitVec w}

theorem Ahead.first (ahead : Ahead a b (n+k)) : Ahead a b n := Nat.le_trans (by omega) ahead

theorem Ahead.later (ahead : Ahead a b (n+k)) : Ahead (a + BitVec.ofNat w n) (b + BitVec.ofNat w n) k := by
  simp only [Ahead] at *
  rw [add_sub_add_right_eq_sub]
  omega

/-- The first piece of a copy does not touch what the later ones read. -/
theorem Ahead.kept (ahead : Ahead a b (n+k)) (inside : i < k) :
    fill m a n f (b + BitVec.ofNat w n + BitVec.ofNat w i) = m (b + BitVec.ofNat w (n+i)) := by
  simp only [Ahead] at ahead
  rw [BitVec.add_assoc,← BitVec.ofNat_add]
  apply fill_apart
  intro j small same
  have source : b + BitVec.ofNat w (n+i) = a + BitVec.ofNat w ((b - a).toNat + (n+i)) := by
    rw [BitVec.ofNat_add (b - a).toNat,← BitVec.add_assoc,offset_self]
  have equal := congrArg (fun y => (y - a).toNat) (source.symm.trans same)
  simp only [offset_toNat a (show (b - a).toNat + (n+i) < 2^w by omega),offset_toNat a (show j < 2^w by omega)] at equal
  omega

/-- A copy is made piece by piece. -/
theorem copy_append (m : Space w α) (ahead : Ahead a b (n+k)) :
    fill (fill m a n (fun i => m (b + BitVec.ofNat w i))) (a + BitVec.ofNat w n) k
      (fun i => fill m a n (fun i => m (b + BitVec.ofNat w i)) (b + BitVec.ofNat w n + BitVec.ofNat w i)) =
      fill m a (n+k) (fun i => m (b + BitVec.ofNat w i)) := by
  have fits : n + k ≤ 2^w := by unfold Ahead at ahead; omega
  rw [← fill_append m a _ fits]
  exact fill_congr (fun i inside => ahead.kept inside)

theorem ahead_of_le (le : a ≤ b) (short : b.toNat + n ≤ 2^w + a.toNat) : Ahead a b n := by
  have less : a.toNat ≤ b.toNat := le
  simp only [Ahead]
  rw [BitVec.toNat_sub_of_le le]
  omega

theorem ahead_of_disjoint (apart : ∀ i < n, ∀ j < n, a + BitVec.ofNat w i ≠ b + BitVec.ofNat w j) : Ahead a b n := by
  simp only [Ahead]
  by_contra long
  have below := (b - a).isLt
  -- The cell `j` of the source is the first one of the destination.
  obtain ⟨j,round⟩ : ∃ j, (b - a).toNat + j = 2^w := ⟨2^w - (b - a).toNat,by omega⟩
  have source : b + BitVec.ofNat w j = a + BitVec.ofNat w 0 := by
    have zero : BitVec.ofNat w (2^w) = BitVec.ofNat w 0 := by
      apply BitVec.eq_of_toNat_eq
      rw [BitVec.toNat_ofNat,BitVec.toNat_ofNat,Nat.mod_self,Nat.zero_mod]
    rw [← zero,← round,BitVec.ofNat_add,← BitVec.add_assoc,offset_self]
  exact apart 0 (by omega) j (by omega) source.symm

end WaifuOS.AddressSpace
