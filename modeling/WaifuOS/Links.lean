import Mathlib.Data.List.Induction
import Mathlib.Tactic.Common

/-!
Trees of tables in a memory. Table `t` may link at index `i` to another table
(`link t i`); `follow` walks a list of indices from the root. The tables of the
first levels form a tree when no table is at two places (`IsTree`). A table that
is hung in (`follow_hang`) and a link of the last level that is written
(`follow_write`) change one walk and no other.
-/
namespace WaifuOS.Links

variable {T I : Type*}

/-- The table that a walk from `root` reaches. -/
def follow (link : T → I → Option T) (root : T) : List I → Option T
  | [] => some root
  | i :: path => (link root i).bind (fun t => follow link t path)

/-- No table of the first `d` levels below the root is at two places. -/
def IsTree (link : T → I → Option T) (root : T) (d : Nat) : Prop :=
  ∀ p q t, p.length ≤ d → q.length ≤ d → follow link root p = some t → follow link root q = some t → p = q

/-- `f` is no table of the first `d` levels. -/
def Fresh (link : T → I → Option T) (root : T) (d : Nat) (f : T) : Prop :=
  ∀ q, q.length ≤ d → follow link root q ≠ some f

variable {link link' : T → I → Option T} {root t f : T} {i : I} {p q : List I} {d : Nat}

theorem follow_append : follow link root (p ++ q) = (follow link root p).bind (fun t => follow link t q) := by
  induction p generalizing root with
  | nil => rfl
  | cons j p ih =>
    cases step : link root j with
    | none => simp [follow,step]
    | some u => simpa [follow,step] using ih

theorem follow_concat : follow link root (p ++ [i]) = (follow link root p).bind (fun t => link t i) := by
  rw [follow_append]
  congr 1
  funext t
  cases step : link t i with
  | none => simp [follow,step]
  | some u => simp [follow,step]

/-- Where the links of the first `d` levels are the same, so are the walks. -/
theorem follow_congr (same : ∀ u j q, q.length ≤ d → follow link root q = some u → link' u j = link u j)
    (q : List I) (short : q.length ≤ d+1) : follow link' root q = follow link root q := by
  induction q using List.reverseRecOn with
  | nil => rfl
  | append_singleton q j ih =>
    rw [List.length_append,List.length_singleton] at short
    rw [follow_concat,follow_concat,ih (by omega)]
    cases reached : follow link root q with
    | none => rfl
    | some u => exact same u j q (by omega) reached

/-- A walk that does not pass `f` reaches what it did when only the links of `f` change. -/
theorem follow_apart (same : ∀ u j, u ≠ f → link' u j = link u j) (q : List I)
    (apart : ∀ r, r <+: q → r ≠ q → follow link root r ≠ some f) : follow link' root q = follow link root q := by
  induction q using List.reverseRecOn with
  | nil => rfl
  | append_singleton q j ih =>
    have before : follow link' root q = follow link root q := by
      refine ih (fun r inside other => apart r (inside.trans (List.prefix_append q [j])) ?_)
      rintro rfl
      have longer := inside.length_le
      simp only [List.length_append,List.length_singleton] at longer
      omega
    rw [follow_concat,follow_concat,before]
    cases reached : follow link root q with
    | none => rfl
    | some u =>
      apply same u j
      rintro rfl
      exact apart q (List.prefix_append q [j]) (fun whole => by simp at whole) reached

/-- A walk that meets no changed link reaches what it did. -/
theorem follow_same (tree : IsTree link root d) (at_p : follow link root p = some t) (level : p.length ≤ d)
    (same : ∀ u j, (∃ q, q.length ≤ d ∧ follow link root q = some u) → ¬ (u = t ∧ j = i) → link' u j = link u j)
    (q : List I) (short : q.length ≤ d+1) (apart : ¬ (p ++ [i]) <+: q) :
    follow link' root q = follow link root q := by
  induction q using List.reverseRecOn with
  | nil => rfl
  | append_singleton q j ih =>
    rw [List.length_append,List.length_singleton] at short
    have before : follow link' root q = follow link root q := by
      refine ih (by omega) (fun inside => apart ?_)
      exact inside.trans (List.prefix_append q [j])
    rw [follow_concat,follow_concat,before]
    cases reached : follow link root q with
    | none => rfl
    | some u =>
      apply same u j ⟨q,by omega,reached⟩
      rintro ⟨rfl,rfl⟩
      have place : q = p := tree q p u (by omega) level reached at_p
      exact apart (place ▸ List.prefix_refl _)

/-- A fresh table without links, hung in where no link was, is at its place, and
    every other walk reaches what it did. -/
theorem follow_hang (tree : IsTree link root d) (at_p : follow link root p = some t) (level : p.length ≤ d)
    (empty : link t i = none) (fresh : Fresh link root d f) (hung : link' t i = some f) (blank : ∀ j, link' f j = none)
    (same : ∀ u j, u ≠ f → ¬ (u = t ∧ j = i) → link' u j = link u j) :
    follow link' root (p ++ [i]) = some f ∧
      ∀ q, q.length ≤ d+1 → q ≠ p ++ [i] → follow link' root q = follow link root q := by
  have kept := follow_same tree at_p level (fun u j reached other => same u j (by
    rintro rfl
    obtain ⟨q,short,here⟩ := reached
    exact fresh q short here) other)
  have at_p' : follow link' root p = some t := by
    rw [kept p (by omega) (fun inside => by
      have longer := inside.length_le
      simp only [List.length_append,List.length_singleton] at longer
      omega),at_p]
  have here : follow link' root (p ++ [i]) = some f := by rw [follow_concat,at_p',Option.bind_some,hung]
  refine ⟨here,?_⟩
  intro q short other
  by_cases inside : (p ++ [i]) <+: q
  · -- Below the fresh table there is nothing now, and below the missing link there was nothing before.
    obtain ⟨rest,rfl⟩ := inside
    cases rest with
    | nil => exact absurd (List.append_nil _) other
    | cons j rest =>
      rw [follow_append,here,Option.bind_some,follow_append,follow_concat,at_p,Option.bind_some,empty,follow,blank]
      rfl
  · exact kept q short inside

/-- Hanging in a fresh table keeps the tables a tree. -/
theorem isTree_hang (tree : IsTree link root d) (at_p : follow link root p = some t) (level : p.length ≤ d)
    (empty : link t i = none) (fresh : Fresh link root d f) (hung : link' t i = some f) (blank : ∀ j, link' f j = none)
    (same : ∀ u j, u ≠ f → ¬ (u = t ∧ j = i) → link' u j = link u j) : IsTree link' root d := by
  obtain ⟨here,kept⟩ := follow_hang tree at_p level empty fresh hung blank same
  intro q r u shortQ shortR atQ atR
  by_cases hungQ : q = p ++ [i]
  · by_cases hungR : r = p ++ [i]
    · rw [hungQ,hungR]
    · rw [hungQ,here] at atQ
      rw [kept r (by omega) hungR,← atQ] at atR
      exact absurd atR (fresh r shortR)
  · by_cases hungR : r = p ++ [i]
    · rw [hungR,here] at atR
      rw [kept q (by omega) hungQ,← atR] at atQ
      exact absurd atQ (fresh q shortQ)
    · rw [kept q (by omega) hungQ] at atQ
      rw [kept r (by omega) hungR] at atR
      exact tree q r u shortQ shortR atQ atR

/-- A link that is written in a table of the last level changes the walk through it alone. -/
theorem follow_write (tree : IsTree link root d) (at_p : follow link root p = some t) (level : p.length = d)
    (same : ∀ u j, ¬ (u = t ∧ j = i) → link' u j = link u j) :
    follow link' root (p ++ [i]) = link' t i ∧
      (∀ q, q.length ≤ d+1 → q ≠ p ++ [i] → follow link' root q = follow link root q) := by
  have kept := follow_same tree at_p (Nat.le_of_eq level) (fun u j _ other => same u j other)
  have others : ∀ q, q.length ≤ d+1 → q ≠ p ++ [i] → follow link' root q = follow link root q := by
    intro q short other
    refine kept q short (fun inside => other ?_)
    exact (inside.eq_of_length (by have := inside.length_le; simp at this ⊢; omega)).symm
  refine ⟨?_,others⟩
  have table : p ≠ p ++ [i] := by intro same; have := congrArg List.length same; simp at this
  rw [follow_concat,others p (by omega) table,at_p,Option.bind_some]

theorem isTree_of_follow (tree : IsTree link root d)
    (kept : ∀ q, q.length ≤ d → follow link' root q = follow link root q) : IsTree link' root d := by
  intro q r u shortQ shortR atQ atR
  rw [kept q shortQ] at atQ
  rw [kept r shortR] at atR
  exact tree q r u shortQ shortR atQ atR

/-- A root without links is a tree. -/
theorem isTree_blank (blank : ∀ j, link root j = none) : IsTree link root d := by
  have only : ∀ q u, follow link root q = some u → q = [] := by
    intro q u reached
    cases q with
    | nil => rfl
    | cons j q => rw [follow,blank] at reached; cases reached
  intro q r u _ _ atQ atR
  rw [only q u atQ,only r u atR]

end WaifuOS.Links
