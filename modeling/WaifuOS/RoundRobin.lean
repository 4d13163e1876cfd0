import Mathlib.Data.List.Basic
import Mathlib.Data.List.Perm.Basic
import Mathlib.Logic.Function.Basic
import Mathlib.Tactic.Common

/-!
Round robin on one processor. One of the threads may run, the others wait in a
queue, and each has a context that is saved when another thread is switched to.
A step may switch to the first thread that waits. Steps keep the threads
(`Step.members`), and switches make the waiting threads run in the order of the
queue (`Steps.order`).
-/
namespace WaifuOS.RoundRobin

/-- Threads `P` with contexts `C`. -/
structure Round (P C : Type*) where
  running : Option P
  waiting : List P
  context : P → C

variable {P C : Type*}

namespace Round

/-- The threads there are. -/
def members (r : Round P C) : List P := r.running.toList ++ r.waiting

end Round

/-- What becomes of the threads in a step. -/
inductive Change (P : Type*)
  | none
  | create (p : P)
  | exit (p : P)

variable [DecidableEq P]

/-- A step, with the change of the threads and the thread that it switches to. -/
inductive Step : Round P C → Change P → Option P → Round P C → Prop
  | stay {r : Round P C} : Step r .none none r
  | create {r : Round P C} (p : P) (c : C) :
      Step r (.create p) none { r with waiting := r.waiting ++ [p], context := Function.update r.context p c }
  | exit {r : Round P C} {p : P} (on : r.running = some p) : Step r (.exit p) none { r with running := none }
  | switch {r : Round P C} {p t : P} {rest : List P} (on : r.running = some p) (c : C) (first : r.waiting ++ [p] = t :: rest) :
      Step r .none (some t) { running := some t, waiting := rest, context := Function.update r.context p c }
  | take {r : Round P C} {t : P} {rest : List P} (off : r.running = none) (first : r.waiting = t :: rest) :
      Step r .none (some t) { r with running := some t, waiting := rest }

/-- Steps one after another, with the threads that they switch to. -/
inductive Steps : Round P C → List P → Round P C → Prop
  | refl {r : Round P C} : Steps r [] r
  | step {r r' r'' : Round P C} {switches : List P} {change : Change P} {next : Option P} (earlier : Steps r switches r')
      (last : Step r' change next r'') : Steps r (switches ++ next.toList) r''

variable {r r' : Round P C} {change : Change P} {next : Option P} {switches : List P}

/-- The threads after a change. -/
def Change.apply (live : List P) : Change P → List P
  | .none => live
  | .create p => live ++ [p]
  | .exit p => live.erase p

/-- A step loses no thread and duplicates none. -/
theorem Step.members {live : List P} (step : Step r change next r') (all : r.members.Perm live) :
    r'.members.Perm (change.apply live) := by
  cases step with
  | stay => exact all
  | create p c =>
    change (r.running.toList ++ (r.waiting ++ [p])).Perm (live ++ [p])
    rw [← List.append_assoc]
    exact all.append_right [p]
  | @exit p on =>
    rw [Round.members,on] at all
    have rest := all.erase p
    rwa [Option.toList_some,List.singleton_append,List.erase_cons_head] at rest
  | @switch p t rest on c first =>
    rw [Round.members,on] at all
    change (t :: rest).Perm live
    rw [← first]
    exact (List.perm_append_singleton p r.waiting).trans all
  | @take t rest off first =>
    rw [Round.members,off,first] at all
    exact all

/-- The thread that a step switches to is one of the threads there are. -/
theorem Step.next_members {t : P} (step : Step r change (some t) r') : t ∈ r'.members := by
  cases step with
  | switch on c first => simp [Round.members]
  | take off first => simp [Round.members]

/-- A step switches to the first thread that waits, and lets no thread in before another. -/
theorem Step.order (step : Step r change next r') : ∃ added, r.waiting ++ added = next.toList ++ r'.waiting := by
  cases step with
  | stay => exact ⟨[],List.append_nil _⟩
  | create p c => exact ⟨[p],rfl⟩
  | exit on => exact ⟨[],List.append_nil _⟩
  | @switch p t rest on c first => exact ⟨[p],first⟩
  | take off first => exact ⟨[],(List.append_nil _).trans first⟩

/-- The threads that are switched to are those that waited, in order, and then those that came later. -/
theorem Steps.order (steps : Steps r switches r') : ∃ added, r.waiting ++ added = switches ++ r'.waiting := by
  induction steps with
  | refl => exact ⟨[],List.append_nil _⟩
  | step _ last ih =>
    obtain ⟨before,earlier⟩ := ih
    obtain ⟨after,later⟩ := last.order
    exact ⟨before ++ after,by rw [← List.append_assoc,earlier,List.append_assoc,later,List.append_assoc]⟩

/-- The thread at position `k` is the one that the switch after `k` others makes run. -/
theorem Steps.fifo {k : Nat} {t : P} (steps : Steps r switches r') (waits : r.waiting[k]? = some t) (reached : k < switches.length) :
    switches[k]? = some t := by
  obtain ⟨added,same⟩ := steps.order
  have inside := (List.getElem?_eq_some_iff.mp waits).1
  have switched : (switches ++ r'.waiting)[k]? = switches[k]? := List.getElem?_append_left reached
  rw [← switched,← same,List.getElem?_append_left inside,waits]

end WaifuOS.RoundRobin
