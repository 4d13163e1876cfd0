import Mathlib.Algebra.BigOperators.Group.Finset.Basic
import Mathlib.Algebra.BigOperators.Group.Finset.Sigma
import Mathlib.Data.Finset.Card

/-!
Counting. `tally` counts the numbers below a bound that satisfy a test, and changes by
one when the test changes at one number (`tally_change`). A ledger gives each
number at most one label; `held` counts the numbers with a label.
-/
namespace WaifuOS.Ledgers

/-- The count of the numbers below `n` that pass a test. -/
def tally (f : Nat → Bool) (n : Nat) : Nat := ((Finset.range n).filter (fun i => f i = true)).card

variable {f g : Nat → Bool} {i n : Nat}

theorem tally_congr (same : ∀ j < n, g j = f j) : tally g n = tally f n := by
  simp only [tally]
  congr 1
  exact Finset.filter_congr (fun j member => by rw [same j (Finset.mem_range.mp member)])

theorem tally_succ : tally f (n+1) = tally f n + (f n).toNat := by
  simp only [tally]
  rw [Finset.range_add_one,Finset.filter_insert]
  cases here : f n with
  | true => rw [if_pos rfl,Finset.card_insert_of_notMem (by simp)]; rfl
  | false => rw [if_neg (by simp)]; rfl

theorem tally_none (fails : ∀ j < n, f j = false) : tally f n = 0 := by
  induction n with
  | zero => rfl
  | succ n ih =>
    rw [tally_succ,ih (fun j small => fails j (by omega)),fails n (by omega)]
    rfl

/-- Every number passes a test or fails it. -/
theorem tally_not : tally (fun i => !f i) n + tally f n = n := by
  induction n with
  | zero => rfl
  | succ n ih =>
    rw [tally_succ,tally_succ]
    cases f n
    · simp only [Bool.not_false,Bool.toNat_true,Bool.toNat_false]
      omega
    · simp only [Bool.not_true,Bool.toNat_true,Bool.toNat_false]
      omega

/-- Tests that agree but for one number below the bound. -/
theorem tally_change (inside : i < n) (same : ∀ j, j ≠ i → g j = f j) :
    tally g n + (f i).toNat = tally f n + (g i).toNat := by
  induction n with
  | zero => omega
  | succ n ih =>
    rw [tally_succ,tally_succ]
    rcases Nat.lt_succ_iff_lt_or_eq.mp inside with before | rfl
    · rw [same n (by omega)]
      have later := ih before
      omega
    · rw [tally_congr (fun j small => same j (by omega))]
      omega

/-- Numbers that fail the test are not counted. -/
theorem tally_add_le (missing : Finset Nat) (below : ∀ i ∈ missing, i < n) (fails : ∀ i ∈ missing, f i = false) :
    tally f n + missing.card ≤ n := by
  have apart : Disjoint ((Finset.range n).filter (fun i => f i = true)) missing := by
    rw [Finset.disjoint_left]
    intro i counted member
    rw [Finset.mem_filter,fails i member] at counted
    exact Bool.false_ne_true counted.2
  have inside : (Finset.range n).filter (fun i => f i = true) ∪ missing ⊆ Finset.range n :=
    Finset.union_subset (Finset.filter_subset _ _) (fun i member => Finset.mem_range.mpr (below i member))
  have size := Finset.card_le_card inside
  rwa [Finset.card_union_of_disjoint apart,Finset.card_range] at size

/-- A test that only numbers below `k` pass. -/
theorem tally_le_of_below {k : Nat} (below : ∀ i, f i = true → i < k) : tally f n ≤ k := by
  have inside : (Finset.range n).filter (fun i => f i = true) ⊆ Finset.range k := by
    intro i counted
    exact Finset.mem_range.mpr (below i (Finset.mem_filter.mp counted).2)
  have size := Finset.card_le_card inside
  rwa [Finset.card_range] at size

variable {L : Type} [DecidableEq L]

/-- The count of the numbers below `n` with a label. -/
def held (o : Nat → Option L) (n : Nat) (a : L) : Nat := tally (fun i => decide (o i = some a)) n

theorem held_none {a : L} : held (fun _ => none) n a = 0 := by
  induction n with
  | zero => rfl
  | succ n ih => rw [held,tally_succ]; exact ih

/-- A ledger in which one label changes. -/
theorem held_change {o p : Nat → Option L} (inside : i < n) (same : ∀ j, j ≠ i → p j = o j) (a : L) :
    held p n a + (decide (o i = some a)).toNat = held o n a + (decide (p i = some a)).toNat :=
  tally_change (f := fun j => decide (o j = some a)) (g := fun j => decide (p j = some a)) inside
    (fun j other => by rw [same j other])

end WaifuOS.Ledgers
