import Mathlib.Data.List.Perm.Basic

/-!
Maps that are laid over another one after another. A piece has values at some places and
leaves the others (`Piece`); pieces without a common place do not cover each other, so what
is seen in the end is each of them and what was there between them (`overlay_some`,
`overlay_none`), in whatever order they are laid (`overlay_perm`).
-/
namespace WaifuOS.Overlays
universe u v

/-- Values at some places. -/
abbrev Piece (α : Type u) (β : Type v) := α → Option β

variable {α : Type u} {β : Type v} {ps qs : List (Piece α β)} {m m' : α → β} {x : α} {b : β} {p : Piece α β}

/-- Lays a piece over a map. -/
def put (p : Piece α β) (m : α → β) : α → β := fun x => (p x).getD (m x)

/-- Lays pieces over a map, the first one first. -/
def overlay (ps : List (Piece α β)) (m : α → β) : α → β := ps.foldl (fun m p => put p m) m

/-- Two pieces without a common place. -/
def Apart (p q : Piece α β) : Prop := ∀ x, p x = none ∨ q x = none

theorem Apart.symm {q : Piece α β} (apart : Apart p q) : Apart q p := fun x => (apart x).symm

theorem put_some (value : p x = some b) : put p m x = b := by
  rw [put,value,Option.getD_some]

theorem put_none (none : p x = none) : put p m x = m x := by
  rw [put,none,Option.getD_none]

theorem overlay_cons (p : Piece α β) (ps : List (Piece α β)) (m : α → β) : overlay (p :: ps) m = overlay ps (put p m) := rfl

theorem overlay_concat (ps : List (Piece α β)) (p : Piece α β) (m : α → β) : overlay (ps ++ [p]) m = put p (overlay ps m) := by
  rw [overlay,List.foldl_append]
  rfl

/-- A place that no piece covers stays. -/
theorem overlay_none (none : ∀ p ∈ ps, p x = none) : overlay ps m x = m x := by
  induction ps generalizing m with
  | nil => rfl
  | cons p ps ih =>
    have first : p x = Option.none := none p List.mem_cons_self
    rw [overlay_cons,ih (fun q member => none q (List.mem_cons_of_mem p member)),put_none first]

/-- A place that a piece covers has its value. -/
theorem overlay_some (apart : ps.Pairwise Apart) (member : p ∈ ps) (value : p x = some b) : overlay ps m x = b := by
  induction ps generalizing m with
  | nil => cases member
  | cons q ps ih =>
    obtain ⟨first,later⟩ := List.pairwise_cons.mp apart
    rw [overlay_cons]
    rcases List.mem_cons.mp member with rfl | member
    · have none : ∀ q ∈ ps, q x = none := fun q behind => (first q behind x).resolve_left (by simp [value])
      rw [overlay_none none,put_some value]
    · exact ih later member

/-- The order of the pieces makes no difference, where the maps below them agree. -/
theorem overlay_perm (apart : ps.Pairwise Apart) (perm : ps.Perm qs) (same : (∀ p ∈ ps, p x = none) → m x = m' x) :
    overlay ps m x = overlay qs m' x := by
  have apart' : qs.Pairwise Apart := (perm.pairwise_iff Apart.symm).mp apart
  by_cases covered : ∃ p ∈ ps, p x ≠ none
  · obtain ⟨p,member,covers⟩ := covered
    obtain ⟨b,value⟩ := Option.ne_none_iff_exists'.mp covers
    rw [overlay_some apart member value,overlay_some apart' (perm.mem_iff.mp member) value]
  · have none : ∀ p ∈ ps, p x = none := fun p member => by
      by_contra covers
      exact covered ⟨p,member,covers⟩
    rw [overlay_none none,overlay_none (fun p member => none p (perm.mem_iff.mpr member)),same none]

end WaifuOS.Overlays
