import Mathlib.Data.Finset.Card

/-!
Counting who holds a thing: each of a finite set of owners holds at most one thing, and
the holders of a thing are counted as owners come and go.
-/
namespace WaifuOS.Sharing

variable {Owner Thing : Type} [DecidableEq Thing] {owners : Finset Owner} {f g : Owner → Option Thing}
  {o : Owner} {t : Thing}

/-- How many of the owners hold the thing. -/
def holders (owners : Finset Owner) (f : Owner → Option Thing) (t : Thing) : Nat := (owners.filter (fun o => f o = some t)).card

theorem holders_congr (same : ∀ o ∈ owners, f o = g o) (t : Thing) : holders owners f t = holders owners g t := by
  simp only [holders]
  rw [Finset.filter_congr (fun o member => by rw [same o member])]

theorem holders_insert [DecidableEq Owner] (new : o ∉ owners) (f : Owner → Option Thing) (t : Thing) :
    holders (insert o owners) f t = holders owners f t + if f o = some t then 1 else 0 := by
  simp only [holders]
  rw [Finset.filter_insert]
  split_ifs
  · exact Finset.card_insert_of_notMem (fun member => new (Finset.mem_filter.mp member).1)
  · rfl

theorem holders_erase [DecidableEq Owner] (member : o ∈ owners) (f : Owner → Option Thing) (t : Thing) :
    holders owners f t = holders (owners.erase o) f t + if f o = some t then 1 else 0 := by
  rw [← holders_insert (Finset.notMem_erase o owners),Finset.insert_erase member]

theorem holders_eq_zero : holders owners f t = 0 ↔ ∀ o ∈ owners, f o ≠ some t := by
  simp only [holders]
  rw [Finset.card_eq_zero,Finset.filter_eq_empty_iff]

theorem holders_pos (member : o ∈ owners) (holds : f o = some t) : 0 < holders owners f t :=
  Nat.pos_of_ne_zero (fun none => holders_eq_zero.mp none o member holds)

omit [DecidableEq Thing] in
/-- What holds of any two owners still does with one more owner, if it holds of that one and each of them. -/
theorem pairs_insert [DecidableEq Owner] {R : Owner → Owner → Prop} (symm : ∀ x y, R x y → R y x) (self : R o o)
    (new : ∀ x ∈ owners, R o x) (old : ∀ x ∈ owners, ∀ y ∈ owners, R x y) : ∀ x ∈ insert o owners, ∀ y ∈ insert o owners, R x y := by
  intro x here y there
  rcases Finset.mem_insert.mp here with rfl | first
  · rcases Finset.mem_insert.mp there with rfl | second
    · exact self
    · exact new y second
  · rcases Finset.mem_insert.mp there with rfl | second
    · exact symm _ _ (new x first)
    · exact old x first y second

end WaifuOS.Sharing
