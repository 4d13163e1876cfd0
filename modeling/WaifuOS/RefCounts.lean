import WaifuOS.Sharing
import Mathlib.Algebra.Group.Nat.Defs

/-!
The counters by which `EntryInfo` objects share their name. Objects are constructed,
copied, assigned and destroyed in any order. The counters count their objects, and
counters and names are freed once and in time, exactly in the runs without a
copy construction in which no sole owner is assigned to itself and no counter passes
its 16 bits (`run_consistent_iff`): the copy constructor allocates a counter
that it then loses.
-/
namespace WaifuOS.FAT32.RefCounts
open WaifuOS.Sharing

/-- The pointers of an `EntryInfo`, by the number of what they point to. Its other members are plain data. -/
structure EntryInfo where
  wEntryName : Option Nat
  refCount : Option Nat

/-- The objects that are alive, and every counter and every name that was allocated. -/
structure Heap where
  live : Finset Nat
  object : Nat → EntryInfo
  count : Nat → BitVec 16
  counters : Nat
  names : Nat
  countersFreed : Nat → Nat
  namesFreed : Nat → Nat

namespace Heap

/-- What the members are at first: no name and a counter of one. -/
def initMembers (s : Heap) (o : Nat) : Heap :=
  { s with
    live := insert o s.live
    object := Function.update s.object o ⟨none,some s.counters⟩
    count := Function.update s.count s.counters 1
    counters := s.counters + 1 }

/-- `refCount[0] += 1`, which a null pointer does not survive. -/
def increment (s : Heap) (o : Nat) : Option Heap :=
  match (s.object o).refCount with
  | none => none
  | some k => some { s with count := Function.update s.count k (s.count k + 1) }

/-- `delete` of the name, if there is one. -/
def deleteName (s : Heap) (o : Nat) : Heap :=
  match (s.object o).wEntryName with
  | none => s
  | some n =>
    { s with
      namesFreed := Function.update s.namesFreed n (s.namesFreed n + 1)
      object := Function.update s.object o ⟨none,(s.object o).refCount⟩ }

def destructor (s : Heap) (o : Nat) : Heap :=
  match (s.object o).refCount with
  | none => s
  | some k =>
    let value := s.count k - 1
    let s := { s with count := Function.update s.count k value }
    if value = 0 then
      let s := s.deleteName o
      { s with
        countersFreed := Function.update s.countersFreed k (s.countersFreed k + 1)
        object := Function.update s.object o ⟨(s.object o).wEntryName,none⟩ }
    else s

/-- `memcpy` of a whole object. -/
def copyObject (s : Heap) (o src : Nat) : Heap := { s with object := Function.update s.object o (s.object src) }

end Heap

inductive Op
  /-- The default constructor, and `FromDirectoryEntry` with a long name or without. -/
  | Construct (o : Nat) (lfn : Bool)
  | Copy (o src : Nat)
  | Assign (o src : Nat)
  | Destroy (o : Nat)

def Op.exec (s : Heap) : Op → Option Heap
  | .Construct o lfn =>
    let s := s.initMembers o
    if lfn then some { s with object := Function.update s.object o ⟨some s.names,(s.object o).refCount⟩, names := s.names + 1 } else some s
  | .Copy o src => ((s.initMembers o).copyObject o src).increment o
  | .Assign o src => ((s.destructor o).copyObject o src).increment o
  | .Destroy o => some { s.destructor o with live := s.live.erase o }

/-- Objects are constructed once before they are used, and not used after they are destroyed. -/
def Op.Allowed (s : Heap) : Op → Prop
  | .Construct o _ => o ∉ s.live
  | .Copy o src => o ∉ s.live ∧ src ∈ s.live
  | .Assign o src => o ∈ s.live ∧ src ∈ s.live
  | .Destroy o => o ∈ s.live

instance (s : Heap) : (op : Op) → Decidable (op.Allowed s)
  | .Construct o _ => inferInstanceAs (Decidable (o ∉ s.live))
  | .Copy o src => inferInstanceAs (Decidable (o ∉ s.live ∧ src ∈ s.live))
  | .Assign o src => inferInstanceAs (Decidable (o ∈ s.live ∧ src ∈ s.live))
  | .Destroy o => inferInstanceAs (Decidable (o ∈ s.live))

namespace Heap

def refCounts (s : Heap) (o : Nat) : Option Nat := (s.object o).refCount

def entryNames (s : Heap) (o : Nat) : Option Nat := (s.object o).wEntryName

/-- How many live objects share the counter. -/
def sharers (s : Heap) (k : Nat) : Nat := holders s.live s.refCounts k

/-- How many of them besides `o`. -/
def others (s : Heap) (o k : Nat) : Nat := holders (s.live.erase o) s.refCounts k

/-- Each live object's counter counts the live objects that share it, and a counter or a name was freed once
    if no live object is left that has it, and not freed otherwise. -/
structure Consistent (s : Heap) : Prop where
  counts : ∀ o ∈ s.live, ∃ k, s.refCounts o = some k ∧ (s.count k).toNat = s.sharers k
  counters : ∀ k < s.counters, s.countersFreed k = if s.sharers k = 0 then 1 else 0
  names : ∀ n < s.names, s.namesFreed n = if holders s.live s.entryNames n = 0 then 1 else 0

/-- What else holds in a run: pointers are to what was allocated, only that was freed, and objects share
    their name exactly when they share their counter. -/
structure Invariant (s : Heap) : Prop extends Consistent s where
  counterBorn : ∀ o ∈ s.live, ∀ k, s.refCounts o = some k → k < s.counters
  nameBorn : ∀ o ∈ s.live, ∀ n, s.entryNames o = some n → n < s.names
  counterUnborn : ∀ k, s.counters ≤ k → s.countersFreed k = 0
  nameUnborn : ∀ n, s.names ≤ n → s.namesFreed n = 0
  together : ∀ o ∈ s.live, ∀ p ∈ s.live, s.refCounts o = s.refCounts p → s.entryNames o = s.entryNames p
  apart : ∀ o ∈ s.live, ∀ p ∈ s.live, ∀ n, s.entryNames o = some n → s.entryNames p = some n → s.refCounts o = s.refCounts p

end Heap

/-- The condition on a step: no copy construction, no assignment of a sole owner to itself, and fewer than
    65536 objects at a counter. -/
def Op.Counts (s : Heap) : Op → Prop
  | .Construct _ _ => True
  | .Copy _ _ => False
  | .Assign o src => ∀ k, s.refCounts src = some k → if o = src then 0 < s.others o k else s.others o k + 1 < 2^16
  | .Destroy _ => True

namespace Heap
variable {s : Heap} {o p k : Nat}

/-- A live object's counter counts it and the others that share it. -/
theorem Invariant.count_eq (inv : s.Invariant) (member : o ∈ s.live) (holds : s.refCounts o = some k) :
    (s.count k).toNat = s.others o k + 1 := by
  obtain ⟨j,held,count⟩ := inv.counts o member
  obtain rfl : k = j := by rw [holds] at held; exact Option.some.inj held
  rw [count,sharers,holders_erase member,if_pos holds]
  rfl

theorem Invariant.count_shared (inv : s.Invariant) (shared : s.sharers k ≠ 0) : (s.count k).toNat = s.sharers k := by
  by_contra differ
  refine shared (holders_eq_zero.mpr ?_)
  intro x here held
  obtain ⟨j,held',count⟩ := inv.counts x here
  obtain rfl : k = j := by rw [held] at held'; exact Option.some.inj held'
  exact differ count

theorem deleteName_eq (s : Heap) (o : Nat) : s.deleteName o =
    { s with
      namesFreed := fun n => s.namesFreed n + if s.entryNames o = some n then 1 else 0
      object := Function.update s.object o ⟨none,s.refCounts o⟩ } := by
  unfold deleteName entryNames refCounts
  cases name : (s.object o).wEntryName with
  | none =>
    have same : (⟨none,(s.object o).refCount⟩ : EntryInfo) = s.object o := by rw [← name]
    simp [same]
  | some n =>
    have freed : Function.update s.namesFreed n (s.namesFreed n + 1) = fun m => s.namesFreed m + if n = m then 1 else 0 := by
      funext m
      by_cases here : m = n
      · subst here; simp
      · simp [here,Ne.symm here]
    simp [freed]

/-- The destructor of an object whose counter others share. -/
theorem destructor_shared (holds : s.refCounts o = some k) (shared : s.count k ≠ 1) :
    s.destructor o = { s with count := Function.update s.count k (s.count k - 1) } := by
  have more : s.count k - 1 ≠ 0 := by bv_omega
  simp only [refCounts] at holds
  simp only [destructor]
  rw [holds]
  dsimp only
  rw [if_neg more]

/-- The destructor of the last object at a counter. -/
theorem destructor_last (holds : s.refCounts o = some k) (last : s.count k = 1) : s.destructor o =
    { s with
      object := Function.update s.object o ⟨none,none⟩
      count := Function.update s.count k 0
      countersFreed := Function.update s.countersFreed k (s.countersFreed k + 1)
      namesFreed := fun n => s.namesFreed n + if s.entryNames o = some n then 1 else 0 } := by
  simp only [refCounts] at holds
  simp only [destructor]
  rw [holds]
  dsimp only
  rw [last,if_pos (by decide)]
  simp only [deleteName_eq,Function.update_self,Function.update_idem]
  rfl

/-- What is left to show of a heap without one of the objects. -/
theorem erase_invariant {d : Heap} (inv : s.Invariant) (live : d.live = s.live.erase o)
    (same : ∀ x ∈ s.live.erase o, d.object x = s.object x) (counters : d.counters = s.counters) (names : d.names = s.names)
    (counts : ∀ x ∈ s.live.erase o, ∀ j, s.refCounts x = some j → (d.count j).toNat = s.others o j)
    (freed : ∀ j, d.countersFreed j = if j < s.counters ∧ s.others o j = 0 then 1 else 0)
    (freedNames : ∀ n, d.namesFreed n = if n < s.names ∧ holders (s.live.erase o) s.entryNames n = 0 then 1 else 0) :
    d.Invariant := by
  have refs : ∀ x ∈ s.live.erase o, d.refCounts x = s.refCounts x := fun x here => congrArg EntryInfo.refCount (same x here)
  have tags : ∀ x ∈ s.live.erase o, d.entryNames x = s.entryNames x := fun x here => congrArg EntryInfo.wEntryName (same x here)
  have old : ∀ x ∈ s.live.erase o, x ∈ s.live := fun x here => Finset.mem_of_mem_erase here
  have sharers (j : Nat) : d.sharers j = s.others o j := by
    rw [sharers,live]
    exact holders_congr refs j
  have named (n : Nat) : holders d.live d.entryNames n = holders (s.live.erase o) s.entryNames n := by
    rw [live]
    exact holders_congr tags n
  refine ⟨⟨?_,?_,?_⟩,?_,?_,?_,?_,?_,?_⟩
  · intro x here
    rw [live] at here
    obtain ⟨j,holds,_⟩ := inv.counts x (old x here)
    exact ⟨j,(refs x here).trans holds,(counts x here j holds).trans (sharers j).symm⟩
  · intro j born
    rw [freed j,sharers]
    simp only [counters ▸ born,true_and]
  · intro n born
    rw [freedNames n,named]
    simp only [names ▸ born,true_and]
  · intro x here j holds
    rw [live] at here
    rw [refs x here] at holds
    rw [counters]
    exact inv.counterBorn x (old x here) j holds
  · intro x here n holds
    rw [live] at here
    rw [tags x here] at holds
    rw [names]
    exact inv.nameBorn x (old x here) n holds
  · intro j late
    rw [freed j,if_neg (fun born => by omega)]
  · intro n late
    rw [freedNames n,if_neg (fun born => by omega)]
  · intro x here y there
    rw [live] at here there
    rw [refs x here,refs y there,tags x here,tags y there]
    exact inv.together x (old x here) y (old y there)
  · intro x here y there
    rw [live] at here there
    rw [refs x here,refs y there,tags x here,tags y there]
    exact inv.apart x (old x here) y (old y there)

/-- What was freed, also of what was not allocated. -/
theorem Invariant.countersFreed_eq (inv : s.Invariant) (j : Nat) :
    s.countersFreed j = if j < s.counters ∧ s.sharers j = 0 then 1 else 0 := by
  by_cases born : j < s.counters
  · rw [inv.counters j born]
    simp only [born,true_and]
  · rw [inv.counterUnborn j (by omega),if_neg (fun both => born both.1)]

theorem Invariant.namesFreed_eq (inv : s.Invariant) (n : Nat) :
    s.namesFreed n = if n < s.names ∧ holders s.live s.entryNames n = 0 then 1 else 0 := by
  by_cases born : n < s.names
  · rw [inv.names n born]
    simp only [born,true_and]
  · rw [inv.nameUnborn n (by omega),if_neg (fun both => born both.1)]

/-- The objects at a counter, with the one that is destroyed. -/
theorem sharers_eq (member : o ∈ s.live) (holds : s.refCounts o = some k) (j : Nat) :
    s.sharers j = s.others o j + if k = j then 1 else 0 := by
  rw [sharers,holders_erase member,holds]
  simp [others]

/-- What the counters of the other objects stand at before the destructor. -/
theorem Invariant.other_counts (inv : s.Invariant) (member : o ∈ s.live) (holds : s.refCounts o = some k) {x j : Nat}
    (here : x ∈ s.live.erase o) (held : s.refCounts x = some j) : (s.count j).toNat = s.others o j + if k = j then 1 else 0 := by
  obtain ⟨i,held',counted⟩ := inv.counts x (Finset.mem_of_mem_erase here)
  obtain rfl : j = i := by rw [held] at held'; exact Option.some.inj held'
  rw [counted,sharers_eq member holds]

/-- The last object at a counter frees it and the name. -/
theorem destroyLast_invariant (inv : s.Invariant) (member : o ∈ s.live) (holds : s.refCounts o = some k) (last : s.count k = 1) :
    Invariant { s.destructor o with live := s.live.erase o } := by
  have count := inv.count_eq member holds
  have alone : s.others o k = 0 := by rw [last] at count; simpa using count.symm
  rw [destructor_last holds last]
  refine erase_invariant inv rfl (fun x here => Function.update_of_ne (Finset.ne_of_mem_erase here) _ _) rfl rfl ?_ ?_ ?_
  · intro x here j held
    have other : j ≠ k := fun same => holders_eq_zero.mp alone x here (same ▸ held)
    dsimp only
    rw [Function.update_of_ne other,inv.other_counts member holds here held,if_neg (Ne.symm other),Nat.add_zero]
  · intro j
    dsimp only
    by_cases here : j = k
    · subst here
      have counted : s.sharers j ≠ 0 := by rw [sharers_eq member holds,if_pos rfl]; omega
      rw [Function.update_self,inv.countersFreed_eq,if_neg (fun both => counted both.2),
        if_pos ⟨inv.counterBorn o member j holds,alone⟩]
    · rw [Function.update_of_ne here,inv.countersFreed_eq,sharers_eq member holds,if_neg (Ne.symm here),Nat.add_zero]
  · intro n
    dsimp only
    rw [inv.namesFreed_eq,holders_erase member]
    by_cases name : s.entryNames o = some n
    · -- Whoever else has the name shares the counter, and nobody does.
      have none : holders (s.live.erase o) s.entryNames n = 0 := holders_eq_zero.mpr (fun x here held =>
        holders_eq_zero.mp alone x here ((inv.apart x (Finset.mem_of_mem_erase here) o member n held name).trans holds))
      rw [if_pos name,if_neg (by omega),if_pos ⟨inv.nameBorn o member n name,none⟩]
    · rw [if_neg name,Nat.add_zero,Nat.add_zero]

/-- Where others share the counter nothing is freed. -/
theorem destroyShared_invariant (inv : s.Invariant) (member : o ∈ s.live) (holds : s.refCounts o = some k) (shared : s.count k ≠ 1) :
    Invariant { s.destructor o with live := s.live.erase o } := by
  have count := inv.count_eq member holds
  have more : s.others o k ≠ 0 := fun none => shared (by rw [none] at count; exact BitVec.eq_of_toNat_eq count)
  rw [destructor_shared holds shared]
  refine erase_invariant inv rfl (fun x here => rfl) rfl rfl ?_ ?_ ?_
  · intro x here j held
    have counted := inv.other_counts member holds here held
    dsimp only
    by_cases same : j = k
    · subst same
      rw [Function.update_self]
      rw [if_pos rfl] at counted
      bv_omega
    · rw [Function.update_of_ne same,counted,if_neg (Ne.symm same),Nat.add_zero]
  · intro j
    dsimp only
    rw [inv.countersFreed_eq,sharers_eq member holds]
    by_cases here : k = j
    · subst here
      rw [if_neg (fun both => by omega),if_neg (fun both => more both.2)]
    · rw [if_neg here,Nat.add_zero]
  · intro n
    dsimp only
    rw [inv.namesFreed_eq,holders_erase member]
    by_cases name : s.entryNames o = some n
    · -- Another object shares the counter, and so it has the name.
      have kept : holders (s.live.erase o) s.entryNames n ≠ 0 := fun none => by
        refine more (holders_eq_zero.mpr ?_)
        intro x here held
        have tag := inv.together x (Finset.mem_of_mem_erase here) o member (held.trans holds.symm)
        exact holders_eq_zero.mp none x here (tag.trans name)
      rw [if_neg (by omega),if_neg (fun both => kept both.2)]
    · rw [if_neg name,Nat.add_zero]

/-- Destroying an object leaves the others with their counters. -/
theorem destroy_invariant (inv : s.Invariant) (member : o ∈ s.live) :
    Invariant { s.destructor o with live := s.live.erase o } := by
  obtain ⟨k,holds,_⟩ := inv.counts o member
  by_cases last : s.count k = 1
  · exact destroyLast_invariant inv member holds last
  · exact destroyShared_invariant inv member holds last

/-! ### Sharing -/

/-- An object that is not alive becomes one more at the counter of another. -/
def attach (s : Heap) (o src : Nat) : Option Heap := ({ s with live := insert o s.live }.copyObject o src).increment o

theorem attach_eq (holds : s.refCounts p = some k) : s.attach o p = some { s with
    live := insert o s.live
    object := Function.update s.object o (s.object p)
    count := Function.update s.count k (s.count k + 1) } := by
  simp only [refCounts] at holds
  simp only [attach,increment,copyObject]
  simp [holds]

/-- What is left to show of a heap with one more object. -/
theorem insert_invariant {d : Heap} {e : EntryInfo} (inv : s.Invariant) (new : o ∉ s.live) (live : d.live = insert o s.live)
    (object : d.object = Function.update s.object o e) (holds : e.refCount = some k) (counters : k < d.counters ∧ s.counters ≤ d.counters)
    (names : (∀ n, e.wEntryName = some n → n < d.names) ∧ s.names ≤ d.names)
    (counts : ∀ j < d.counters, s.sharers j + (if k = j then 1 else 0) ≠ 0 → (d.count j).toNat = s.sharers j + if k = j then 1 else 0)
    (freed : ∀ j, d.countersFreed j = if j < d.counters ∧ s.sharers j + (if k = j then 1 else 0) = 0 then 1 else 0)
    (freedNames : ∀ n, d.namesFreed n =
      if n < d.names ∧ holders s.live s.entryNames n + (if e.wEntryName = some n then 1 else 0) = 0 then 1 else 0)
    (together : ∀ x ∈ s.live, s.refCounts x = some k → s.entryNames x = e.wEntryName)
    (apart : ∀ x ∈ s.live, ∀ n, e.wEntryName = some n → s.entryNames x = some n → s.refCounts x = some k) : d.Invariant := by
  have others' : ∀ x ∈ s.live, x ≠ o := fun x here same => new (same ▸ here)
  have ref : d.refCounts o = some k := by rw [← holds]; unfold refCounts; rw [object,Function.update_self]
  have tag : d.entryNames o = e.wEntryName := by unfold entryNames; rw [object,Function.update_self]
  have refs : ∀ x ∈ s.live, d.refCounts x = s.refCounts x := fun x here => by
    unfold refCounts; rw [object,Function.update_of_ne (others' x here)]
  have tags : ∀ x ∈ s.live, d.entryNames x = s.entryNames x := fun x here => by
    unfold entryNames; rw [object,Function.update_of_ne (others' x here)]
  have sharers (j : Nat) : d.sharers j = s.sharers j + if k = j then 1 else 0 := by
    rw [sharers,live,holders_insert new,holders_congr refs,ref]
    simp [Heap.sharers]
  have named (n : Nat) : holders d.live d.entryNames n = holders s.live s.entryNames n + if e.wEntryName = some n then 1 else 0 := by
    rw [live,holders_insert new,holders_congr tags,tag]
  refine ⟨⟨?_,?_,?_⟩,?_,?_,?_,?_,?_,?_⟩
  · intro x here
    rw [live,Finset.mem_insert] at here
    rcases here with rfl | here
    · exact ⟨k,ref,by rw [sharers]; exact counts k counters.1 (by rw [if_pos rfl]; omega)⟩
    · obtain ⟨j,held,_⟩ := inv.counts x here
      have some' : 0 < s.sharers j := holders_pos here held
      have born := inv.counterBorn x here j held
      exact ⟨j,(refs x here).trans held,by rw [sharers]; exact counts j (by omega) (by omega)⟩
  · intro j born
    rw [freed j,sharers]
    simp only [born,true_and]
  · intro n born
    rw [freedNames n,named]
    simp only [born,true_and]
  · intro x here j held
    rw [live,Finset.mem_insert] at here
    rcases here with rfl | here
    · obtain rfl : k = j := by rw [ref] at held; exact Option.some.inj held
      exact counters.1
    · have born := inv.counterBorn x here j ((refs x here).symm.trans held)
      omega
  · intro x here n held
    rw [live,Finset.mem_insert] at here
    rcases here with rfl | here
    · exact names.1 n (tag.symm.trans held)
    · have born := inv.nameBorn x here n ((tags x here).symm.trans held)
      omega
  · intro j late
    rw [freed j,if_neg (fun both => by omega)]
  · intro n late
    rw [freedNames n,if_neg (fun both => by omega)]
  · rw [live]
    refine pairs_insert (fun x y given same => (given same.symm).symm) (fun _ => rfl) ?_ ?_
    · intro x here
      rw [ref,tag,refs x here,tags x here]
      exact fun same => (together x here same.symm).symm
    · intro x here y there
      rw [refs x here,refs y there,tags x here,tags y there]
      exact inv.together x here y there
  · rw [live]
    refine pairs_insert (fun x y given n held held' => (given n held' held).symm) (fun _ _ _ => rfl) (fun x here n => ?_)
      (fun x here y there n => ?_)
    · rw [ref,tag,refs x here,tags x here]
      exact fun held held' => (apart x here n held held').symm
    · rw [refs x here,refs y there,tags x here,tags y there]
      exact inv.apart x here y there n

theorem attach_invariant (inv : s.Invariant) (new : o ∉ s.live) (member : p ∈ s.live) (holds : s.refCounts p = some k)
    (small : s.sharers k + 1 < 2^16) : ∃ d, s.attach o p = some d ∧ d.Invariant := by
  refine ⟨_,attach_eq holds,?_⟩
  have born := inv.counterBorn p member k holds
  have shared : 0 < s.sharers k := holders_pos member holds
  refine insert_invariant inv new rfl rfl holds ⟨born,le_rfl⟩ ⟨inv.nameBorn p member,le_rfl⟩ ?_ ?_ ?_
    (fun x here held => inv.together x here p member (held.trans holds.symm))
    (fun x here n held held' => (inv.apart x here p member n held' held).trans holds)
  · intro j _ some'
    dsimp only
    by_cases same : k = j
    · subst same
      have count := inv.count_shared (k := k) (by omega)
      rw [Function.update_self,if_pos rfl]
      bv_omega
    · rw [if_neg same,Nat.add_zero] at some' ⊢
      rw [Function.update_of_ne (Ne.symm same)]
      exact inv.count_shared some'
  · intro j
    dsimp only
    rw [inv.countersFreed_eq]
    by_cases same : k = j
    · subst same
      rw [if_neg (fun both => by omega),if_neg (fun both => by omega)]
    · rw [if_neg same,Nat.add_zero]
  · intro n
    dsimp only
    rw [inv.namesFreed_eq]
    by_cases name : (s.object p).wEntryName = some n
    · have kept : 0 < holders s.live s.entryNames n := holders_pos member name
      rw [if_neg (fun both => by omega),if_neg (fun both => by omega)]
    · rw [if_neg name,Nat.add_zero]

/-! ### Steps -/

/-- A new object with a new counter, and with a new name or none. -/
theorem fresh_invariant {d : Heap} {e : EntryInfo} (inv : s.Invariant) (new : o ∉ s.live) (live : d.live = insert o s.live)
    (object : d.object = Function.update s.object o e) (holds : e.refCount = some s.counters) (counters : d.counters = s.counters + 1)
    (count : d.count = Function.update s.count s.counters 1) (countersFreed : d.countersFreed = s.countersFreed)
    (namesFreed : d.namesFreed = s.namesFreed)
    (names : e.wEntryName = none ∧ d.names = s.names ∨ e.wEntryName = some s.names ∧ d.names = s.names + 1) : d.Invariant := by
  have fresh : s.sharers s.counters = 0 := holders_eq_zero.mpr (fun x here held => Nat.lt_irrefl _ (inv.counterBorn x here _ held))
  have unnamed : holders s.live s.entryNames s.names = 0 :=
    holders_eq_zero.mpr (fun x here held => Nat.lt_irrefl _ (inv.nameBorn x here _ held))
  have grows : s.names ≤ d.names := by rcases names with ⟨_,same⟩ | ⟨_,next⟩ <;> omega
  refine insert_invariant inv new live object holds ⟨by omega,by omega⟩ ⟨fun n held => ?_,grows⟩ (fun j born some' => ?_)
    (fun j => ?_) (fun n => ?_) (fun x here held => absurd held (holders_eq_zero.mp fresh x here)) (fun x here n held held' => ?_)
  · rcases names with ⟨none,_⟩ | ⟨name,next⟩
    · rw [none] at held; cases held
    · rw [name] at held
      obtain rfl := Option.some.inj held
      omega
  · rw [count]
    by_cases same : s.counters = j
    · subst same
      rw [Function.update_self,if_pos rfl,fresh]
      rfl
    · rw [if_neg same,Nat.add_zero] at some' ⊢
      rw [Function.update_of_ne (Ne.symm same)]
      exact inv.count_shared some'
  · rw [countersFreed,inv.countersFreed_eq,counters]
    by_cases same : s.counters = j
    · subst same
      rw [if_neg (fun both => Nat.lt_irrefl _ both.1),if_neg (fun both => absurd both.2 (by rw [if_pos rfl]; omega))]
    · simp only [if_neg same,Nat.add_zero,show j < s.counters + 1 ↔ j < s.counters by omega]
  · rw [namesFreed,inv.namesFreed_eq]
    rcases names with ⟨none,same⟩ | ⟨name,next⟩
    · simp only [none,same,reduceCtorEq,if_false,Nat.add_zero]
    · by_cases same : s.names = n
      · subst same
        rw [name,if_neg (fun both => Nat.lt_irrefl _ both.1),if_neg (fun both => absurd both.2 (by rw [if_pos rfl]; omega))]
      · simp only [name,next,Option.some.injEq,if_neg same,Nat.add_zero,show n < s.names + 1 ↔ n < s.names by omega]
  · rcases names with ⟨none,_⟩ | ⟨name,_⟩
    · rw [none] at held; cases held
    · rw [name] at held
      obtain rfl := Option.some.inj held
      exact absurd held' (holders_eq_zero.mp unnamed x here)

theorem construct_invariant (inv : s.Invariant) (new : o ∉ s.live) (lfn : Bool) :
    ∃ d, (Op.Construct o lfn).exec s = some d ∧ d.Invariant := by
  cases lfn with
  | false => exact ⟨_,rfl,fresh_invariant inv new rfl rfl rfl rfl rfl rfl rfl (.inl ⟨rfl,rfl⟩)⟩
  | true =>
    refine ⟨_,rfl,fresh_invariant (e := ⟨some s.names,some s.counters⟩) inv new rfl ?_ rfl rfl rfl rfl rfl (.inr ⟨rfl,rfl⟩)⟩
    simp [initMembers]

theorem destructor_live (s : Heap) (o : Nat) : (s.destructor o).live = s.live := by
  unfold destructor
  split
  · rfl
  · dsimp only
    split_ifs
    · rw [deleteName_eq]
    · rfl

theorem destructor_object (s : Heap) (other : p ≠ o) : (s.destructor o).object p = s.object p := by
  unfold destructor
  split
  · rfl
  · dsimp only
    split_ifs
    · rw [deleteName_eq]
      dsimp only
      rw [Function.update_of_ne other,Function.update_of_ne other]
    · rfl

/-- An assignment is a destruction and one more object at the source's counter. -/
theorem assign_eq (member : o ∈ s.live) (src : Nat) :
    (Op.Assign o src).exec s = attach { s.destructor o with live := s.live.erase o } o src := by
  have same : ({ s.destructor o with live := insert o (s.live.erase o) } : Heap) = s.destructor o := by
    rw [Finset.insert_erase member,← destructor_live s o]
  unfold Op.exec attach
  dsimp only
  rw [same]

theorem assign_invariant (inv : s.Invariant) (member : o ∈ s.live) (other : p ∈ s.live) (differ : o ≠ p) (holds : s.refCounts p = some k)
    (small : s.others o k + 1 < 2^16) : ∃ d, (Op.Assign o p).exec s = some d ∧ d.Invariant := by
  have held : Heap.refCounts { s.destructor o with live := s.live.erase o } p = some k := by
    rw [← holds]
    exact congrArg EntryInfo.refCount (destructor_object s (Ne.symm differ))
  have count : Heap.sharers { s.destructor o with live := s.live.erase o } k = s.others o k :=
    holders_congr (fun x here => congrArg EntryInfo.refCount (destructor_object s (Finset.ne_of_mem_erase here))) k
  rw [assign_eq member]
  exact attach_invariant (destroy_invariant inv member) (Finset.notMem_erase o s.live)
    (Finset.mem_erase.mpr ⟨Ne.symm differ,other⟩) held (by rw [count]; exact small)

/-- An object that is assigned to itself loses its counter when nobody shares it, and is as before otherwise. -/
theorem assign_self (inv : s.Invariant) (member : o ∈ s.live) (holds : s.refCounts o = some k) :
    (Op.Assign o o).exec s = if 0 < s.others o k then some s else none := by
  have count := inv.count_eq member holds
  unfold Op.exec
  dsimp only
  split_ifs with shared
  · rw [destructor_shared holds (fun one => by rw [one] at count; simp at count; omega)]
    have back : s.count k - 1 + 1 = s.count k := by bv_omega
    simp only [refCounts] at holds
    simp only [copyObject,increment]
    simp only [Function.update_eq_self,holds,Function.update_self,Function.update_idem,back]
  · rw [destructor_last holds (by bv_omega)]
    simp only [copyObject,increment]
    simp

end Heap

/-! ### Runs -/

open Heap

theorem exec_invariant {s : Heap} (inv : s.Invariant) {op : Op} (allowed : op.Allowed s) (counts : op.Counts s) :
    ∃ d, op.exec s = some d ∧ d.Invariant := by
  cases op with
  | Construct o lfn => exact construct_invariant inv allowed lfn
  | Copy o src => exact counts.elim
  | Assign o src =>
    obtain ⟨member,source⟩ := allowed
    obtain ⟨k,holds,_⟩ := inv.counts src source
    have condition := counts k holds
    by_cases self : o = src
    · subst self
      rw [if_pos rfl] at condition
      exact ⟨s,by rw [assign_self inv member holds,if_pos condition],inv⟩
    · rw [if_neg self] at condition
      exact assign_invariant inv member source self holds condition
  | Destroy o => exact ⟨_,rfl,destroy_invariant inv allowed⟩

theorem copy_eq {s : Heap} {o src k : Nat} (differ : src ≠ o) (holds : s.refCounts src = some k) : (Op.Copy o src).exec s = some
    { s with
      live := insert o s.live
      object := Function.update s.object o (s.object src)
      count := Function.update (Function.update s.count s.counters 1) k (Function.update s.count s.counters 1 k + 1)
      counters := s.counters + 1 } := by
  simp only [refCounts] at holds
  simp only [Op.exec,copyObject,increment]
  simp [initMembers,Function.update_of_ne differ,holds]

/-- The copy constructor loses the counter that it allocated: nobody has it, and it was not freed. -/
theorem copy_inconsistent {s d : Heap} (inv : s.Invariant) {o src : Nat} (new : o ∉ s.live) (source : src ∈ s.live)
    (step : (Op.Copy o src).exec s = some d) : ¬ d.Consistent := by
  intro consistent
  obtain ⟨k,holds,_⟩ := inv.counts src source
  have differ : src ≠ o := fun same => new (same ▸ source)
  rw [copy_eq differ holds] at step
  obtain rfl := Option.some.inj step
  have lost := consistent.counters s.counters (Nat.lt_succ_self _)
  dsimp only at lost
  rw [inv.counterUnborn s.counters le_rfl,if_pos] at lost
  · exact absurd lost (by decide)
  · apply holders_eq_zero.mpr
    intro x here held
    simp only [refCounts] at held
    dsimp only at here held
    rcases Finset.mem_insert.mp here with rfl | here
    · rw [Function.update_self] at held
      exact Nat.lt_irrefl _ (inv.counterBorn src source _ held)
    · have other : x ≠ o := fun same => new (same ▸ here)
      rw [Function.update_of_ne other] at held
      exact Nat.lt_irrefl _ (inv.counterBorn x here _ held)

/-- An assignment that makes 65536 objects share a counter takes the counter to 0. -/
theorem assign_full {s d : Heap} {o src k : Nat} (member : o ∈ s.live) (differ : o ≠ src)
    (holds : s.refCounts src = some k) (step : (Op.Assign o src).exec s = some d) (consistent : d.Consistent) :
    s.others o k + 1 < 2^16 := by
  have held : Heap.refCounts { s.destructor o with live := s.live.erase o } src = some k := by
    rw [← holds]
    exact congrArg EntryInfo.refCount (destructor_object s (Ne.symm differ))
  rw [assign_eq member,attach_eq held] at step
  have live : d.live = insert o (s.live.erase o) := by rw [← Option.some.inj step]
  have object : d.object = Function.update (s.destructor o).object o ((s.destructor o).object src) := by rw [← Option.some.inj step]
  have self : d.refCounts o = some k := by unfold refCounts; rw [object,Function.update_self]; exact held
  have rest : holders (s.live.erase o) d.refCounts k = s.others o k := holders_congr (fun x here => by
    have other := Finset.ne_of_mem_erase here
    simp only [refCounts]
    rw [object,Function.update_of_ne other,destructor_object s other]) k
  obtain ⟨j,shared,count⟩ := consistent.counts o (by rw [live]; exact Finset.mem_insert_self _ _)
  obtain rfl : j = k := Option.some.inj (shared.symm.trans self)
  rw [sharers,live,holders_insert (Finset.notMem_erase o s.live),if_pos self,rest] at count
  rw [← count]
  exact BitVec.isLt _

/-- A step after which the counters are right meets the condition. -/
theorem counts_of_exec {s d : Heap} (inv : s.Invariant) {op : Op} (allowed : op.Allowed s) (step : op.exec s = some d)
    (consistent : d.Consistent) : op.Counts s := by
  cases op with
  | Construct o lfn => trivial
  | Copy o src => exact copy_inconsistent inv allowed.1 allowed.2 step consistent
  | Assign o src =>
    obtain ⟨member,source⟩ := allowed
    intro k holds
    by_cases self : o = src
    · subst self
      rw [assign_self inv member holds] at step
      rw [if_pos rfl]
      by_contra alone
      rw [if_neg alone] at step
      cases step
    · rw [if_neg self]
      exact assign_full member self holds step consistent
  | Destroy o => trivial

/-- The objects of a run are used as the language allows. -/
def Lives : Heap → List Op → Prop
  | _, [] => True
  | s, op :: ops => op.Allowed s ∧ ∀ d, op.exec s = some d → Lives d ops

/-- Every step of a run returns and leaves the counters right. -/
def StaysConsistent : Heap → List Op → Prop
  | _, [] => True
  | s, op :: ops => ∃ d, op.exec s = some d ∧ d.Consistent ∧ StaysConsistent d ops

/-- Every step of a run meets the condition in the state before it. -/
def Meets : Heap → List Op → Prop
  | _, [] => True
  | s, op :: ops => op.Counts s ∧ ∀ d, op.exec s = some d → Meets d ops

/-- Before the first object. -/
def start : Heap := ⟨∅,fun _ => ⟨none,none⟩,fun _ => 0,0,0,fun _ => 0,fun _ => 0⟩

theorem start_invariant : start.Invariant := by
  refine ⟨⟨?_,?_,?_⟩,?_,?_,?_,?_,?_,?_⟩
  · exact fun o here => absurd here (Finset.notMem_empty o)
  · exact fun k born => absurd born (Nat.not_lt_zero k)
  · exact fun n born => absurd born (Nat.not_lt_zero n)
  · exact fun o here => absurd here (Finset.notMem_empty o)
  · exact fun o here => absurd here (Finset.notMem_empty o)
  · exact fun _ _ => rfl
  · exact fun _ _ => rfl
  · exact fun o here => absurd here (Finset.notMem_empty o)
  · exact fun o here => absurd here (Finset.notMem_empty o)

theorem staysConsistent_iff {s : Heap} (inv : s.Invariant) (ops : List Op) (lives : Lives s ops) :
    StaysConsistent s ops ↔ Meets s ops := by
  induction ops generalizing s with
  | nil => exact Iff.rfl
  | cons op ops ih =>
    obtain ⟨allowed,later⟩ := lives
    constructor
    · rintro ⟨d,step,consistent,rest⟩
      have counts := counts_of_exec inv allowed step consistent
      obtain ⟨d',step',inv'⟩ := exec_invariant inv allowed counts
      obtain rfl : d = d' := Option.some.inj (step.symm.trans step')
      refine ⟨counts,?_⟩
      intro e again
      obtain rfl : d = e := Option.some.inj (step.symm.trans again)
      exact (ih inv' (later d step)).mp rest
    · rintro ⟨counts,rest⟩
      obtain ⟨d,step,inv'⟩ := exec_invariant inv allowed counts
      exact ⟨d,step,inv'.toConsistent,(ih inv' (later d step)).mpr (rest d step)⟩

/-- The counters and what is freed are right in all of a run exactly when each step meets the condition. -/
theorem run_consistent_iff (ops : List Op) (lives : Lives start ops) : StaysConsistent start ops ↔ Meets start ops :=
  staysConsistent_iff start_invariant ops lives

/-- A named object and another one that is assigned from it; both are destroyed. -/
def pair : List Op := [.Construct 0 true,.Construct 1 false,.Assign 1 0,.Destroy 0,.Destroy 1]

theorem pair_lives : Lives start pair := by
  refine ⟨by decide,?_⟩
  intro d step
  obtain rfl := Option.some.inj (show some _ = some d from step)
  refine ⟨by decide,?_⟩
  intro d step
  obtain rfl := Option.some.inj (show some _ = some d from step)
  refine ⟨by decide,?_⟩
  intro d step
  obtain rfl := Option.some.inj (show some _ = some d from step)
  refine ⟨by decide,?_⟩
  intro d step
  obtain rfl := Option.some.inj (show some _ = some d from step)
  exact ⟨by decide,fun _ _ => trivial⟩

theorem run_consistent_iff_pair : StaysConsistent start pair := by
  refine (run_consistent_iff pair pair_lives).mpr ⟨trivial,?_⟩
  intro d step
  obtain rfl := Option.some.inj (show some _ = some d from step)
  refine ⟨trivial,?_⟩
  intro d step
  obtain rfl := Option.some.inj (show some _ = some d from step)
  refine ⟨?_,fun _ _ => ⟨trivial,fun _ _ => ⟨trivial,fun _ _ => trivial⟩⟩⟩
  intro k holds
  obtain rfl := Option.some.inj (show some 0 = some k from holds)
  decide

/-- After one copy construction a counter is lost. -/
theorem copy_not_consistent : Lives start [.Construct 0 false,.Copy 1 0] ∧ ¬ StaysConsistent start [.Construct 0 false,.Copy 1 0] := by
  refine ⟨⟨by decide,?_⟩,?_⟩
  · intro d step
    obtain rfl := Option.some.inj (show some _ = some d from step)
    exact ⟨by decide,fun _ _ => trivial⟩
  · rintro ⟨d,step,_,e,copied,consistent,_⟩
    obtain rfl := Option.some.inj (show some _ = some d from step)
    obtain rfl := Option.some.inj (show some _ = some e from copied)
    exact absurd (consistent.counters 1 (by decide)) (by decide)

end WaifuOS.FAT32.RefCounts
