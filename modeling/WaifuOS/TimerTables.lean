import WaifuOS.PIT
import Mathlib.Data.Finset.Card

/-!
The table of timers over whole histories of `AddTimer` and `RemoveTimer`. From `Initialize`
on `CurrentTimers` counts the active entries and the other ones are cleared (`Table`), so
a new timer never takes the place of an active one. `AddTimer` returns 0 both for the
first entry and when there is no room, so a timer that is added and removed leaves
the table as it was exactly while the table is not full (`addTimer_restored_iff`).
-/
namespace WaifuOS.PIT
open Function (update)

/-- An entry that is not in use. -/
def noTimer : TimerEntry := ⟨0,0.0,0.0,false⟩

namespace State

/-- `AddTimer` with an interval in milliseconds. -/
def AddTimerMs (s : State) (handler intervalMs : Nat) : Nat × State := s.AddTimer handler (Float.ofNat intervalMs / 1000.0)

/-- `RemoveTimer` by a handler, whose first entry is removed. -/
def RemoveTimerHandler (s : State) (handler : Nat) : Bool × State :=
  match (List.range timerCount).find? (fun x => (s.Timers x).Handler = handler) with
  | some x => (true,s.RemoveTimer x)
  | none => (false,s)

end State

inductive Call
  | AddTimer (handler : Nat) (intervalS : Float)
  | AddTimerMs (handler : Nat) (intervalMs : BitVec 32)
  | RemoveTimer (ID : BitVec 8)
  | RemoveTimerHandler (handler : Nat)

namespace Call

def exec (s : State) : Call → State
  | .AddTimer handler intervalS => (s.AddTimer handler intervalS).2
  | .AddTimerMs handler intervalMs => (s.AddTimerMs handler intervalMs.toNat).2
  | .RemoveTimer ID => s.RemoveTimer ID.toNat
  | .RemoveTimerHandler handler => (s.RemoveTimerHandler handler).2

/-- The call leaves the memory behind the table alone, which ID 255 is an entry of. -/
def Inside (s : State) : Call → Prop
  | .RemoveTimer ID => ID.toNat < timerCount ∨ (s.Timers ID.toNat).Active = false
  | _ => True

end Call

/-- The tables that calls lead to from `Initialize` on. -/
inductive Reachable : State → Prop
  | Initialize {earlier s : State} : earlier.Initialize = some s → Reachable s
  | call {s : State} (c : Call) : Reachable s → c.Inside s → Reachable (c.exec s)

/-- The entries that are active. -/
def State.active (s : State) : Finset Nat := (Finset.range timerCount).filter fun x => (s.Timers x).Active = true

/-- `CurrentTimers` counts the active entries, `AddTimer` overwrites none of them, and a timer that is added and
    removed by the ID that was returned leaves everything as it was. -/
structure Consistent (s : State) : Prop where
  count : s.CurrentTimers = s.active.card
  kept : ∀ handler intervalS x, (s.Timers x).Active = true → (s.AddTimer handler intervalS).2.Timers x = s.Timers x
  restored : ∀ handler intervalS, (s.AddTimer handler intervalS).2.RemoveTimer (s.AddTimer handler intervalS).1 = s

/-- What every call keeps. -/
structure Table (s : State) : Prop where
  count : s.CurrentTimers = s.active.card
  cleared : ∀ x, x < timerCount → (s.Timers x).Active = false → s.Timers x = noTimer

variable {s : State} {handler x : Nat} {intervalS : Float}

theorem mem_active : x ∈ s.active ↔ x < timerCount ∧ (s.Timers x).Active = true := by
  simp [State.active]

theorem active_le (s : State) : s.active.card ≤ timerCount := by
  calc
    s.active.card ≤ (Finset.range timerCount).card := Finset.card_filter_le _ _
    _ = timerCount := Finset.card_range _

/-- While the table is not full the search finds an entry that is not active. -/
theorem freeTimer_free (room : s.active.card < timerCount) : s.freeTimer < timerCount ∧ (s.Timers s.freeTimer).Active = false := by
  rw [State.freeTimer]
  cases found : (List.range timerCount).find? (fun x => !(s.Timers x).Active) with
  | some x =>
    have inside := List.mem_range.mp (List.mem_of_find?_eq_some found)
    have free := List.find?_some found
    exact ⟨inside,by simpa using free⟩
  | none =>
    have all : s.active = Finset.range timerCount := by
      apply Finset.filter_true_of_mem
      intro x member
      have taken := List.find?_eq_none.mp found x (List.mem_range.mpr (Finset.mem_range.mp member))
      simpa using taken
    rw [all,Finset.card_range] at room
    exact absurd room (Nat.lt_irrefl _)

theorem addTimer_full (full : timerCount ≤ s.CurrentTimers) : s.AddTimer handler intervalS = (0,s) := if_pos full

theorem addTimer_room (room : s.CurrentTimers < timerCount) : s.AddTimer handler intervalS =
    (s.freeTimer,{ s with Timers := update s.Timers s.freeTimer ⟨handler,intervalS,0.0,true⟩, CurrentTimers := s.CurrentTimers + 1 }) := by
  have small : (s.CurrentTimers + 1) % 2^16 = s.CurrentTimers + 1 := by
    simp only [timerCount] at room
    omega
  rw [State.AddTimer,if_neg (Nat.not_le.mpr room),small]

/-- The entry that is taken becomes active. -/
theorem addTimer_active (table : Table s) (room : s.CurrentTimers < timerCount) :
    (s.AddTimer handler intervalS).2.active = insert s.freeTimer s.active := by
  have free := freeTimer_free (table.count ▸ room)
  ext x
  rw [addTimer_room room,Finset.mem_insert,mem_active,mem_active]
  by_cases here : x = s.freeTimer
  · subst here
    simp [free.1]
  · simp [here]

theorem Table.addTimer (table : Table s) (handler : Nat) (intervalS : Float) : Table (s.AddTimer handler intervalS).2 := by
  by_cases room : s.CurrentTimers < timerCount
  · have free := freeTimer_free (table.count ▸ room)
    have fresh : s.freeTimer ∉ s.active := fun member => by simp [(mem_active.mp member).2] at free
    constructor
    · rw [addTimer_active table room,Finset.card_insert_of_notMem fresh,← table.count,addTimer_room room]
    · intro x inside inactive
      rw [addTimer_room room] at inactive ⊢
      by_cases here : x = s.freeTimer
      · subst here
        simp at inactive
      · simp only [Function.update_of_ne here] at inactive ⊢
        exact table.cleared x inside inactive
  · rw [addTimer_full (Nat.le_of_not_lt room)]
    exact table

theorem removeTimer_active (active : (s.Timers x).Active = true) (inside : x < timerCount) :
    (s.RemoveTimer x).active = s.active.erase x := by
  ext y
  rw [State.RemoveTimer,if_pos active,Finset.mem_erase,mem_active,mem_active]
  by_cases here : y = x
  · subst here
    simp
  · simp [here]

theorem Table.removeTimer (table : Table s) (inside : x < timerCount ∨ (s.Timers x).Active = false) : Table (s.RemoveTimer x) := by
  cases active : (s.Timers x).Active with
  | false =>
    rw [State.RemoveTimer,if_neg (by simp [active])]
    exact table
  | true =>
    have low : x < timerCount := inside.resolve_right (by simp [active])
    have member : x ∈ s.active := mem_active.mpr ⟨low,active⟩
    have some_one := Finset.card_pos.mpr ⟨x,member⟩
    have few := active_le s
    have count := table.count
    constructor
    · rw [removeTimer_active active low,Finset.card_erase_of_mem member,State.RemoveTimer,if_pos active]
      simp only [count]
      simp only [timerCount] at few
      omega
    · intro y inside inactive
      rw [State.RemoveTimer,if_pos active] at inactive ⊢
      by_cases here : y = x
      · subst here
        simp only [Function.update_self]
        rfl
      · simp only [Function.update_of_ne here] at inactive ⊢
        exact table.cleared y inside inactive

theorem Table.exec (table : Table s) (c : Call) (inside : c.Inside s) : Table (c.exec s) := by
  cases c with
  | AddTimer handler intervalS => exact table.addTimer handler intervalS
  | AddTimerMs handler intervalMs => exact table.addTimer handler _
  | RemoveTimer ID => exact table.removeTimer inside
  | RemoveTimerHandler handler =>
    rw [Call.exec,State.RemoveTimerHandler]
    split
    · next x found => exact table.removeTimer (.inl (List.mem_range.mp (List.mem_of_find?_eq_some found)))
    · exact table

theorem initialize_cleared {earlier : State} (initialized : earlier.Initialize = some s) :
    s.CurrentTimers = 0 ∧ ∀ x, x < timerCount → s.Timers x = noTimer := by
  simp only [State.Initialize,State.SetFrequency,Option.bind_eq_bind] at initialized
  cases initialized
  refine ⟨rfl,?_⟩
  intro x inside
  simp only [if_pos inside]
  rfl

theorem initialize_table {earlier : State} (initialized : earlier.Initialize = some s) : Table s := by
  obtain ⟨zero,cleared⟩ := initialize_cleared initialized
  have empty : s.active = ∅ := by
    apply Finset.filter_false_of_mem
    intro x member
    rw [cleared x (Finset.mem_range.mp member)]
    decide
  exact ⟨by rw [zero,empty,Finset.card_empty],fun x inside _ => cleared x inside⟩

theorem Reachable.table (reachable : Reachable s) : Table s := by
  induction reachable with
  | Initialize initialized => exact initialize_table initialized
  | call c _ inside ih => exact ih.exec c inside

/-- An active entry is not overwritten. -/
theorem addTimer_kept (table : Table s) (active : (s.Timers x).Active = true) :
    (s.AddTimer handler intervalS).2.Timers x = s.Timers x := by
  by_cases room : s.CurrentTimers < timerCount
  · have free := (freeTimer_free (table.count ▸ room)).2
    have other : x ≠ s.freeTimer := by
      intro same
      rw [same,free] at active
      cases active
    rw [addTimer_room room]
    exact Function.update_of_ne other _ _
  · rw [addTimer_full (Nat.le_of_not_lt room)]

/-- While there is room the timer that was added is the one that is removed. -/
theorem addTimer_removed (table : Table s) (room : s.CurrentTimers < timerCount) :
    (s.AddTimer handler intervalS).2.RemoveTimer (s.AddTimer handler intervalS).1 = s := by
  obtain ⟨inside,inactive⟩ := freeTimer_free (table.count ▸ room)
  have cleared : s.Timers s.freeTimer = noTimer := table.cleared _ inside inactive
  have back : update s.Timers s.freeTimer noTimer = s.Timers := by
    rw [← cleared]
    exact Function.update_eq_self _ _
  have count : (s.CurrentTimers + 1 + (2^16 - 1)) % 2^16 = s.CurrentTimers := by
    simp only [timerCount] at room
    omega
  rw [addTimer_room room,State.RemoveTimer]
  simp only [Function.update_self,Function.update_idem,count,if_true]
  rw [← noTimer,back]

/-- In a full table another timer is removed. -/
theorem addTimer_lost (table : Table s) (full : timerCount ≤ s.CurrentTimers) :
    (s.AddTimer handler intervalS).2.RemoveTimer (s.AddTimer handler intervalS).1 ≠ s := by
  intro same
  have all : s.active = Finset.range timerCount :=
    Finset.eq_of_subset_of_card_le (Finset.filter_subset _ _) (by rw [Finset.card_range,← table.count]; exact full)
  have first : 0 ∈ s.active := by
    rw [all]
    exact Finset.mem_range.mpr (by decide)
  have active := (mem_active.mp first).2
  rw [addTimer_full full] at same
  have removed := congrArg (fun s => (s.Timers 0).Active) same
  simp only [State.RemoveTimer,active] at removed
  cases removed

/-- In every table that is reached `CurrentTimers` counts the active timers and none is overwritten, and one that is
    added can be removed again if and only if the table is not full. -/
theorem addTimer_restored_iff (reachable : Reachable s) : Consistent s ↔ s.CurrentTimers < timerCount := by
  have table := reachable.table
  constructor
  · intro consistent
    apply Nat.lt_of_not_le
    intro full
    exact addTimer_lost table full (consistent.restored 1 0.5)
  · intro room
    exact ⟨table.count,fun _ _ _ active => addTimer_kept table active,fun _ _ => addTimer_removed table room⟩

/-- The globals before `Initialize`. -/
def blank : State := ⟨0,0.0,fun _ => noTimer,0⟩

/-- A table with `n` timers, as far as there is room. -/
def filled (s : State) : Nat → State
  | 0 => s
  | n+1 => ((filled s n).AddTimer 1 0.5).2

theorem filled_reachable (reachable : Reachable s) (n : Nat) : Reachable (filled s n) := by
  induction n with
  | zero => exact reachable
  | succ n ih => exact ih.call (.AddTimer 1 0.5) trivial

theorem filled_count (empty : s.CurrentTimers = 0) {n : Nat} (few : n ≤ timerCount) : (filled s n).CurrentTimers = n := by
  induction n with
  | zero => exact empty
  | succ n ih =>
    have before := ih (by omega)
    rw [filled,addTimer_room (by omega)]
    simp only [before]

theorem blank_initialized : ∃ s, blank.Initialize = some s := ⟨_,rfl⟩

/-- A table with three timers. -/
theorem addTimer_restored_iff_filled : ∃ s, Reachable s ∧ s.CurrentTimers = 3 ∧ Consistent s := by
  obtain ⟨s,initialized⟩ := blank_initialized
  have reachable := filled_reachable (.Initialize initialized) 3
  have count : (filled s 3).CurrentTimers = 3 := filled_count (initialize_cleared initialized).1 (by decide)
  refine ⟨_,reachable,count,(addTimer_restored_iff reachable).mpr ?_⟩
  rw [count]
  decide

theorem addTimer_unrestored : ∃ s, Reachable s ∧ ¬ Consistent s := by
  obtain ⟨s,initialized⟩ := blank_initialized
  have reachable := filled_reachable (.Initialize initialized) timerCount
  refine ⟨_,reachable,?_⟩
  intro consistent
  have count := filled_count (initialize_cleared initialized).1 (Nat.le_refl timerCount)
  exact addTimer_lost reachable.table (Nat.le_of_eq count.symm) (consistent.restored 1 0.5)

end WaifuOS.PIT
