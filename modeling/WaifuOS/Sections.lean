import Mathlib.Data.List.Induction
import Mathlib.Logic.Function.Basic
import Mathlib.Tactic.Common

/-!
Parties that share something behind a lock, and take steps in any order. A party acquires the
lock, accesses what is behind it and releases the lock (`Action`), besides steps that are its own
affair. Where each step of a party by itself keeps to a few rules (`Guarded`), the lock has one
owner at most, whatever the order of the steps (`run_replay`), and what is done behind it
is done in sections one after another (`replay_serial`). Where the steps of a party that waits lead
to the lock (`Advances`), it cannot stay free for long (`run_acquires`).
-/
namespace WaifuOS.Sections

/-- What a party does to the lock, and to what is behind it. -/
inductive Action (A : Type*)
  | acquire
  | access (a : A)
  | release

/-- All that one party does while it has the lock. -/
structure Section (P A : Type*) where
  party : P
  accesses : List A

variable {P A L W : Type*}

namespace Section

/-- A section that is not over. -/
def opened (s : Section P A) : List (P × Action A) :=
  (s.party,.acquire) :: s.accesses.map (fun a => (s.party,.access a))

def actions (s : Section P A) : List (P × Action A) := s.opened ++ [(s.party,.release)]

end Section

section Histories
variable [DecidableEq P] {owner owner' : Option P} {t : P} {h h' : List (P × Action A)}

/-- The owner after an action of a party, if the lock permits it. -/
def permit (owner : Option P) (t : P) : Action A → Option (Option P)
  | .acquire => if owner = none then some (some t) else none
  | .access _ => if owner = some t then some owner else none
  | .release => if owner = some t then some none else none

/-- The owner after actions one after another. -/
def replay (owner : Option P) : List (P × Action A) → Option (Option P)
  | [] => some owner
  | (t,a) :: h => (permit owner t a).bind (fun owner => replay owner h)

theorem replay_append : replay owner (h ++ h') = (replay owner h).bind (fun owner => replay owner h') := by
  induction h generalizing owner with
  | nil => rfl
  | cons x h ih =>
    rw [List.cons_append,replay,replay,Option.bind_assoc]
    exact congrArg _ (funext (fun owner => ih))

theorem replay_accesses (t : P) (accesses : List A) :
    replay (some t) (accesses.map (fun a => (t,.access a))) = some (some t) := by
  induction accesses with
  | nil => rfl
  | cons a accesses ih =>
    rw [List.map_cons,replay,permit,if_pos rfl]
    exact ih

theorem replay_opened (s : Section P A) : replay none s.opened = some (some s.party) := by
  rw [Section.opened,replay,permit,if_pos rfl]
  exact replay_accesses s.party s.accesses

theorem replay_actions (s : Section P A) : replay none s.actions = some none := by
  rw [Section.actions,replay_append,replay_opened,Option.bind_some,replay,permit,if_pos rfl]
  rfl

theorem replay_sections (done : List (Section P A)) : replay none (done.flatMap Section.actions) = some none := by
  induction done with
  | nil => rfl
  | cons s done ih => rw [List.flatMap_cons,replay_append,replay_actions,Option.bind_some,ih]

/-- The lock permits what sections one after another do, the last of which may not be over, and
    nothing else. -/
theorem replay_serial : replay none h = some owner ↔ ∃ (done : List (Section P A)) (last : Option (Section P A)),
    h = done.flatMap Section.actions ++ last.toList.flatMap Section.opened ∧ owner = last.map Section.party := by
  constructor
  · -- The induction is on the last action, since the sections are told from the first one on.
    intro permitted
    induction h using List.reverseRecOn generalizing owner with
    | nil =>
      cases permitted
      exact ⟨[],none,rfl,rfl⟩
    | append_singleton h x ih =>
      obtain ⟨t,a⟩ := x
      rw [replay_append] at permitted
      obtain ⟨before,earlier,now⟩ := Option.bind_eq_some_iff.mp permitted
      obtain ⟨done,last,rfl,rfl⟩ := ih earlier
      rw [replay] at now
      obtain ⟨after,step,same⟩ := Option.bind_eq_some_iff.mp now
      cases same
      cases a with
      | acquire =>
        rw [permit] at step
        split at step
        · rename_i free
          cases step
          cases Option.map_eq_none_iff.mp free
          exact ⟨done,some ⟨t,[]⟩,by simp [Section.opened],rfl⟩
        · cases step
      | access a =>
        rw [permit] at step
        split at step
        · rename_i owns
          cases step
          obtain ⟨s,rfl,party⟩ := Option.map_eq_some_iff.mp owns
          exact ⟨done,some ⟨s.party,s.accesses ++ [a]⟩,by simp [Section.opened,party],rfl⟩
        · cases step
      | release =>
        rw [permit] at step
        split at step
        · rename_i owns
          cases step
          obtain ⟨s,rfl,party⟩ := Option.map_eq_some_iff.mp owns
          exact ⟨done ++ [s],none,by simp [Section.actions,party],rfl⟩
        · cases step
  · rintro ⟨done,last,rfl,rfl⟩
    rw [replay_append,replay_sections,Option.bind_some]
    cases last with
    | none => rfl
    | some s =>
      rw [Option.toList_some,List.flatMap_cons,List.flatMap_nil,List.append_nil]
      exact replay_opened s

end Histories

/-- The parties, and what they share. -/
structure State (P L W : Type*) where
  party : P → L
  shared : W

/-- The state after one party has moved. -/
def State.move [DecidableEq P] (s : State P L W) (t : P) (l : L) (w : W) : State P L W := ⟨Function.update s.party t l,w⟩

/-- The rules for the steps of a party: who holds the lock has found it free, and gives it
    back when it stops to hold it. -/
structure Guarded (step : L → W → Option (Action A) → L → W → Prop) (holds : L → Prop) (taken : W → Prop) : Prop where
  silent : ∀ {l w l' w'}, step l w none l' w' → (holds l' ↔ holds l) ∧ (taken w' ↔ taken w)
  acquire : ∀ {l w l' w'}, step l w (some .acquire) l' w' → ¬ taken w ∧ holds l' ∧ taken w'
  access : ∀ {l w l' w' a}, step l w (some (.access a)) l' w' → holds l ∧ holds l' ∧ (taken w' ↔ taken w)
  release : ∀ {l w l' w'}, step l w (some .release) l' w' → holds l ∧ ¬ holds l' ∧ ¬ taken w'

/-- While the lock is free, a party that waits acquires it or comes nearer to it with each of its steps. -/
def Advances (step : L → W → Option (Action A) → L → W → Prop) (taken : W → Prop) (waits : L → Prop) (distance : L → Nat) : Prop :=
  ∀ {l w action l' w'}, waits l → ¬ taken w → step l w action l' w' →
    action = some .acquire ∨ waits l' ∧ distance l' < distance l

variable {step : L → W → Option (Action A) → L → W → Prop} {holds : L → Prop} {taken : W → Prop}
  {waits : L → Prop} {distance : L → Nat}

/-- Steps one after another, each with its party. -/
inductive Run [DecidableEq P] (step : L → W → Option (Action A) → L → W → Prop) (s : State P L W) :
    List (P × Option (Action A)) → State P L W → Prop
  | refl : Run step s [] s
  | step {h : List (P × Option (Action A))} {s' : State P L W} {t : P} {action : Option (Action A)} {l : L} {w : W}
      (earlier : Run step s h s') (moves : step (s'.party t) s'.shared action l w) :
      Run step s (h ++ [(t,action)]) (s'.move t l w)

theorem Run.trans [DecidableEq P] {s s' s'' : State P L W} {h h' : List (P × Option (Action A))} (first : Run step s h s')
    (second : Run step s' h' s'') : Run step s (h ++ h') s'' := by
  induction second with
  | refl => simpa using first
  | step _ moves ih => simpa using Run.step ih moves

/-- What is done in a run to the lock and behind it. -/
def actionsOf (h : List (P × Option (Action A))) : List (P × Action A) := h.filterMap (fun x => x.2.map (fun a => (x.1,a)))

/-- The owner is the party that holds the lock, and it is taken when there is one. -/
structure Owned (holds : L → Prop) (taken : W → Prop) (s : State P L W) (owner : Option P) : Prop where
  holder : ∀ t, holds (s.party t) ↔ owner = some t
  locked : taken s.shared ↔ owner.isSome = true

variable {s s' : State P L W} {h : List (P × Option (Action A))} {owner : Option P} {t : P} {l : L} {w : W}

theorem actionsOf_append {action : Option (Action A)} :
    actionsOf (h ++ [(t,action)]) = actionsOf h ++ action.toList.map (fun a => (t,a)) := by
  rw [actionsOf,List.filterMap_append]
  cases action <;> rfl

theorem Owned.free (owned : Owned holds taken s owner) (free : ¬ taken s.shared) : owner = none := by
  rw [owned.locked] at free
  exact Option.not_isSome_iff_eq_none.mp free

variable [DecidableEq P]

@[simp] theorem move_shared : (s.move t l w).shared = w := rfl

@[simp] theorem move_self : (s.move t l w).party t = l := Function.update_self ..

theorem move_other {u : P} (other : u ≠ t) : (s.move t l w).party u = s.party u := Function.update_of_ne other ..

/-- Who holds the lock after a step in which one party starts to hold it, or stops. -/
theorem Owned.update (owned : Owned holds taken s owner) {owner' : Option P} (mine : holds l ↔ owner' = some t)
    (others : ∀ u, u ≠ t → (owner' = some u ↔ owner = some u)) (locked : taken w ↔ owner'.isSome = true) :
    Owned holds taken (s.move t l w) owner' := by
  refine ⟨?_,locked⟩
  intro u
  by_cases here : u = t
  · subst here
    rw [move_self]
    exact mine
  · rw [move_other here,owned.holder u]
    exact (others u here).symm

/-- A step of a party is one that the lock permits. -/
theorem step_permit (guarded : Guarded step holds taken) (owned : Owned holds taken s owner) {action : Option (Action A)}
    (moves : step (s.party t) s.shared action l w) :
    ∃ owner', replay owner (action.toList.map (fun a => (t,a))) = some owner' ∧
      Owned holds taken (s.move t l w) owner' := by
  cases action with
  | none =>
    obtain ⟨mine,locked⟩ := guarded.silent moves
    exact ⟨owner,rfl,owned.update (mine.trans (owned.holder t)) (fun _ _ => Iff.rfl) (locked.trans owned.locked)⟩
  | some action =>
    cases action with
    | acquire =>
      obtain ⟨free,now,locked⟩ := guarded.acquire moves
      cases owned.free free
      refine ⟨some t,rfl,owned.update (by simp [now]) ?_ (by simp [locked])⟩
      intro u other
      simp [Ne.symm other]
    | access a =>
      obtain ⟨before,now,locked⟩ := guarded.access moves
      have owns := (owned.holder t).mp before
      refine ⟨owner,?_,owned.update (by simp [now,owns]) (fun _ _ => Iff.rfl) (locked.trans owned.locked)⟩
      rw [owns]
      exact replay_accesses t [a]
    | release =>
      obtain ⟨before,gone,clear⟩ := guarded.release moves
      have owns := (owned.holder t).mp before
      refine ⟨none,?_,owned.update (by simp [gone]) ?_ (by simp [clear])⟩
      · rw [owns]
        simp [replay,permit]
      · intro u other
        rw [owns]
        simp [Ne.symm other]

/-- In every order of steps the lock permits what is done, and its owner is who holds it. -/
theorem run_replay (guarded : Guarded step holds taken) (free : Owned holds taken s none) (run : Run step s h s') :
    ∃ owner, replay none (actionsOf h) = some owner ∧ Owned holds taken s' owner := by
  induction run with
  | refl => exact ⟨none,rfl,free⟩
  | step _ moves ih =>
    obtain ⟨owner,permitted,owned⟩ := ih
    obtain ⟨owner',next,owned'⟩ := step_permit guarded owned moves
    refine ⟨owner',?_,owned'⟩
    rw [actionsOf_append,replay_append,permitted,Option.bind_some,next]

/-- As long as nobody acquires the free lock, a party that waits takes no more steps than its distance. -/
theorem run_distance (guarded : Guarded step holds taken) (advances : Advances step taken waits distance)
    (free : Owned holds taken s none) (waiting : waits (s.party t)) (run : Run step s h s')
    (none_acquires : ∀ x ∈ h, x.2 ≠ some .acquire) :
    Owned holds taken s' none ∧ waits (s'.party t) ∧
      (h.filter (fun x => x.1 = t)).length + distance (s'.party t) ≤ distance (s.party t) := by
  induction run with
  | refl => exact ⟨free,waiting,by simp⟩
  | @step h u v action l w earlier moves ih =>
    obtain ⟨free',waiting',near⟩ := ih (fun x member => none_acquires x (List.mem_append_left _ member))
    have silent := none_acquires (v,action) (by simp)
    obtain ⟨owner,permitted,owned⟩ := step_permit guarded free' moves
    have still : owner = none := by
      cases action with
      | none =>
        cases permitted
        rfl
      | some action =>
        cases action with
        | acquire => exact absurd rfl silent
        | access a => simp [replay,permit] at permitted
        | release => simp [replay,permit] at permitted
    subst still
    refine ⟨owned,?_⟩
    by_cases here : v = t
    · subst here
      rcases advances waiting' (fun locked => by simpa using free'.locked.mp locked) moves with now | ⟨later,nearer⟩
      · exact absurd now silent
      · rw [move_self,List.filter_append,List.length_append]
        exact ⟨later,by simp; omega⟩
    · rw [move_other (Ne.symm here),List.filter_append,List.length_append]
      exact ⟨waiting',by simp [here]; omega⟩

/-- A party that waits at a free lock and takes more steps than its distance sees it acquired, by itself or another. -/
theorem run_acquires (guarded : Guarded step holds taken) (advances : Advances step taken waits distance)
    (free : Owned holds taken s none) (waiting : waits (s.party t)) (run : Run step s h s')
    (many : distance (s.party t) < (h.filter (fun x => x.1 = t)).length) : ∃ u, (u,some Action.acquire) ∈ h := by
  by_contra never
  have none_acquires : ∀ x ∈ h, x.2 ≠ some .acquire := by
    rintro ⟨u,action⟩ member rfl
    exact never ⟨u,member⟩
  have few := (run_distance guarded advances free waiting run none_acquires).2.2
  omega

end WaifuOS.Sections
