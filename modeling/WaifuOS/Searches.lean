import Mathlib.Data.List.Induction

/-!
Searches through a list that examine one element after another until one stops them.
Whether an element stops the search may depend on those before it (`stops`). A search has
stopped after the elements up to the first that stops it (`Stopped`), or has passed all of
them (`Passed`). What it has examined says where it stopped: two lists that begin with it
are searched alike (`Stopped.of_prefix`). What holds of each element and those before it
(`Throughout`) is shown list after list (`throughout_append`).
-/
namespace WaifuOS.Searches

variable {α : Type} {stops holds : List α → α → Prop} {prior xs ys seen : List α} {x : α}

/-- After `prior`, the search of a list stops at the last of the elements it has seen. -/
inductive Stopped (stops : List α → α → Prop) : List α → List α → List α → Prop
  | here {prior xs : List α} {x : α} (stop : stops prior x) : Stopped stops prior (x :: xs) [x]
  | later {prior xs seen : List α} {x : α} (goes : ¬ stops prior x) (rest : Stopped stops (prior ++ [x]) xs seen) :
      Stopped stops prior (x :: xs) (x :: seen)

/-- After `prior`, no element of a list stops the search. -/
def Passed (stops : List α → α → Prop) (prior xs : List α) : Prop :=
  ∀ before x after, xs = before ++ x :: after → ¬ stops (prior ++ before) x

/-- What a search of the whole list has seen. -/
def UpTo (stops : List α → α → Prop) (xs seen : List α) : Prop := Stopped stops [] xs seen ∨ (Passed stops [] xs ∧ seen = xs)

/-- Something holds of every element of a list and those before it. -/
def Throughout (holds : List α → α → Prop) (prior xs : List α) : Prop :=
  ∀ before x after, xs = before ++ x :: after → holds (prior ++ before) x

theorem throughout_nil : Throughout holds prior [] := fun before x after whole => by simp at whole

theorem throughout_cons : Throughout holds prior (x :: xs) ↔ holds prior x ∧ Throughout holds (prior ++ [x]) xs := by
  constructor
  · intro all
    constructor
    · have first := all [] x xs rfl
      rwa [List.append_nil] at first
    · intro before y after whole
      have later := all (x :: before) y after (by rw [whole]; rfl)
      rwa [List.append_cons] at later
  · rintro ⟨first,later⟩ before y after whole
    cases before with
    | nil =>
      cases whole
      rwa [List.append_nil]
    | cons z before =>
      cases whole
      rw [List.append_cons]
      exact later before y after rfl

theorem throughout_append : Throughout holds prior (xs ++ ys) ↔ Throughout holds prior xs ∧ Throughout holds (prior ++ xs) ys := by
  induction xs generalizing prior with
  | nil =>
    rw [List.nil_append,List.append_nil]
    exact ⟨fun all => ⟨throughout_nil,all⟩,And.right⟩
  | cons x xs ih => rw [List.cons_append,throughout_cons,throughout_cons,ih,and_assoc,← List.append_cons]

theorem passed_nil : Passed stops prior [] := @throughout_nil _ (fun prior x => ¬ stops prior x) _

theorem passed_cons : Passed stops prior (x :: xs) ↔ ¬ stops prior x ∧ Passed stops (prior ++ [x]) xs :=
  @throughout_cons _ (fun prior x => ¬ stops prior x) _ _ _

theorem Stopped.isPrefix (stopped : Stopped stops prior xs seen) : seen <+: xs := by
  induction stopped with
  | here stop => exact ⟨_,rfl⟩
  | later goes rest ih => exact List.cons_prefix_cons.mpr ⟨rfl,ih⟩

/-- The last element that was seen stopped the search, and those before it did not. -/
theorem Stopped.last (stopped : Stopped stops prior xs seen) :
    ∃ before x, seen = before ++ [x] ∧ Passed stops prior before ∧ stops (prior ++ before) x := by
  induction stopped with
  | @here prior xs x stop => exact ⟨[],x,rfl,passed_nil,by rwa [List.append_nil]⟩
  | @later prior xs seen x goes rest ih =>
    obtain ⟨before,y,whole,passed,stop⟩ := ih
    refine ⟨x :: before,y,by rw [whole]; rfl,passed_cons.mpr ⟨goes,passed⟩,?_⟩
    rwa [List.append_cons]

/-- Any list that begins with what was seen is searched alike. -/
theorem Stopped.of_prefix (stopped : Stopped stops prior xs seen) (begins : seen <+: ys) : Stopped stops prior ys seen := by
  induction stopped generalizing ys with
  | @here prior xs x stop =>
    obtain ⟨rest,rfl⟩ := begins
    exact .here stop
  | @later prior xs seen x goes rest ih =>
    obtain ⟨rest,rfl⟩ := begins
    exact .later goes (ih ⟨rest,rfl⟩)

/-- A search that passes all elements does not stop. -/
theorem Stopped.not_passed (stopped : Stopped stops prior xs seen) : ¬ Passed stops prior xs := by
  induction stopped with
  | here stop => exact fun passed => (passed_cons.mp passed).1 stop
  | later goes rest ih => exact fun passed => ih (passed_cons.mp passed).2

/-- The search of two lists one after the other stops in the first of them, or passes it. -/
theorem Stopped.append_cases (stopped : Stopped stops prior (xs ++ ys) seen) :
    Stopped stops prior xs seen ∨ (Passed stops prior xs ∧ ∃ later, seen = xs ++ later ∧ Stopped stops (prior ++ xs) ys later) := by
  induction xs generalizing prior seen with
  | nil => exact .inr ⟨passed_nil,seen,rfl,by rwa [List.append_nil]⟩
  | cons x xs ih =>
    cases stopped with
    | here stop => exact .inl (.here stop)
    | later goes rest =>
      rcases ih rest with first | ⟨passed,later,rfl,stopped⟩
      · exact .inl (.later goes first)
      · exact .inr ⟨passed_cons.mpr ⟨goes,passed⟩,later,rfl,by rwa [List.append_cons]⟩

/-- A search that passes a list goes on behind it. -/
theorem Stopped.of_passed (passed : Passed stops prior xs) (stopped : Stopped stops (prior ++ xs) ys seen) :
    Stopped stops prior (xs ++ ys) (xs ++ seen) := by
  induction xs generalizing prior with
  | nil => rwa [List.append_nil] at stopped
  | cons x xs ih =>
    obtain ⟨goes,rest⟩ := passed_cons.mp passed
    exact .later goes (ih rest (by rwa [List.append_cons] at stopped))

end WaifuOS.Searches
