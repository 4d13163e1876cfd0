import Mathlib.Data.List.Chain
import Mathlib.Tactic.Common
import Mathlib.Algebra.Group.Nat.Units
import Mathlib.Algebra.BigOperators.Group.List.Basic

/-!
Tilings of an interval by blocks, each a header of a fixed size followed by a
payload, as a list-based allocator keeps them. `Starts` says which block starts
where; two blocks that start at different addresses are apart (`starts_apart`).
`merge` joins every maximal row of free blocks, and is the identity on a tiling
without two free neighbours (`merge_of_separate`). Freeing marks blocks (`mark`)
and merges: merging in between changes nothing (`merge_mark_merge`), so blocks
freed one after another in any order leave the same tiling (`release_all`).
-/
namespace WaifuOS.Tiling

/-- A block: the length of its payload and whether it is free. -/
structure Block where
  len : Nat
  free : Bool
deriving DecidableEq

/-- No two neighbours are both free. -/
def Separate (bs : List Block) : Prop := bs.IsChain (fun b c => ¬ (b.free = true ∧ c.free = true))

/-- A free block with room for `n` bytes. -/
def Fits (n : Nat) (b : Block) : Prop := b.free = true ∧ n ≤ b.len

instance (n : Nat) (b : Block) : Decidable (Fits n b) := inferInstanceAs (Decidable (_ ∧ _))

/-- The lengths are nonzero multiples of a unit. -/
def Multiples (u : Nat) (bs : List Block) : Prop := ∀ b ∈ bs, b.len ≠ 0 ∧ u ∣ b.len

variable (hd : Nat)

/-- The number of bytes that the blocks take, headers included. -/
def extent : List Block → Nat
  | [] => 0
  | b :: bs => hd + b.len + extent bs

/-- `b` starts at `x` in the tiling that starts at `a`. -/
def Starts (a : Nat) : List Block → Nat → Block → Prop
  | [], _, _ => False
  | c :: bs, x, b => (x = a ∧ b = c) ∨ Starts (a + hd + c.len) bs x b

/-- Where the last block starts; `before` where there is none. -/
def lastStart (before a : Nat) : List Block → Nat
  | [] => before
  | b :: bs => lastStart a (a + hd + b.len) bs

/-- Puts a block before a merged tiling. -/
def glue (b : Block) : List Block → List Block
  | [] => [b]
  | c :: bs => if b.free = true ∧ c.free = true then ⟨b.len + hd + c.len,true⟩ :: bs else b :: c :: bs

/-- Joins every maximal row of free blocks. -/
def merge : List Block → List Block
  | [] => []
  | b :: bs => glue hd b (merge bs)

/-- Frees the blocks that start at an address in `P`. -/
def mark (P : Nat → Bool) (a : Nat) : List Block → List Block
  | [] => []
  | b :: bs => ⟨b.len,b.free || P a⟩ :: mark P (a + hd + b.len) bs

/-- Frees the blocks that start at `x`, then joins free neighbours. -/
def release (a x : Nat) (bs : List Block) : List Block := merge hd (mark hd (fun y => decide (y = x)) a bs)

variable {hd} {a x y : Nat} {b c : Block} {bs pre post : List Block} {P Q : Nat → Bool}

@[simp] theorem extent_nil : extent hd [] = 0 := rfl
@[simp] theorem extent_cons : extent hd (b :: bs) = hd + b.len + extent hd bs := rfl
@[simp] theorem extent_append : extent hd (pre ++ post) = extent hd pre + extent hd post := by
  induction pre with
  | nil => simp
  | cons b pre ih => simp only [List.cons_append,extent_cons,ih]; omega

@[simp] theorem lastStart_nil : lastStart hd x a [] = x := rfl
@[simp] theorem lastStart_concat : lastStart hd x a (pre ++ [b]) = a + extent hd pre := by
  induction pre generalizing x a with
  | nil => simp [lastStart]
  | cons c pre ih => simp only [List.cons_append,lastStart,ih,extent_cons]; omega

theorem lastStart_append : lastStart hd x a (pre ++ post) =
    lastStart hd (lastStart hd x a pre) (a + extent hd pre) post := by
  induction pre generalizing x a with
  | nil => simp
  | cons c pre ih =>
    simp only [List.cons_append,lastStart,ih,extent_cons]
    rw [show a + hd + c.len + extent hd pre = a + (hd + c.len + extent hd pre) by omega]

theorem starts_iff_append : Starts hd a bs x b ↔ ∃ pre post, bs = pre ++ b :: post ∧ x = a + extent hd pre := by
  induction bs generalizing a with
  | nil => simp [Starts]
  | cons c bs ih =>
    simp only [Starts,ih]
    constructor
    · rintro (⟨rfl,rfl⟩ | ⟨pre,post,rfl,rfl⟩)
      · exact ⟨[],bs,rfl,by simp⟩
      · exact ⟨c :: pre,post,rfl,by simp only [extent_cons]; omega⟩
    · rintro ⟨pre,post,split,rfl⟩
      cases pre with
      | nil => simp only [List.nil_append,List.cons.injEq] at split; exact .inl ⟨by simp,split.1.symm⟩
      | cons d pre =>
        simp only [List.cons_append,List.cons.injEq] at split
        obtain ⟨rfl,rfl⟩ := split
        exact .inr ⟨pre,post,rfl,by simp only [extent_cons]; omega⟩

theorem starts_mid : Starts hd a (pre ++ b :: post) (a + extent hd pre) b :=
  starts_iff_append.mpr ⟨pre,post,rfl,rfl⟩

theorem starts_append : Starts hd a (pre ++ post) x b ↔
    Starts hd a pre x b ∨ Starts hd (a + extent hd pre) post x b := by
  induction pre generalizing a with
  | nil => simp [Starts]
  | cons c pre ih =>
    simp only [List.cons_append,Starts,ih,extent_cons]
    rw [show a + hd + c.len + extent hd pre = a + (hd + c.len + extent hd pre) by omega]
    tauto

theorem starts_mem (starts : Starts hd a bs x b) : b ∈ bs := by
  obtain ⟨pre,post,rfl,_⟩ := starts_iff_append.mp starts
  simp

theorem starts_low (starts : Starts hd a bs x b) : a ≤ x := by
  obtain ⟨pre,post,_,rfl⟩ := starts_iff_append.mp starts
  omega

theorem starts_high (starts : Starts hd a bs x b) : x + hd + b.len ≤ a + extent hd bs := by
  obtain ⟨pre,post,rfl,rfl⟩ := starts_iff_append.mp starts
  simp only [extent_append,extent_cons]
  omega

/-- Two blocks of a tiling are the same one or take apart ranges. -/
theorem starts_apart (left : Starts hd a bs x b) (right : Starts hd a bs y c) :
    (x = y ∧ b = c) ∨ x + hd + b.len ≤ y ∨ y + hd + c.len ≤ x := by
  induction bs generalizing a with
  | nil => exact left.elim
  | cons d bs ih =>
    rcases left with ⟨rfl,rfl⟩ | left
    · rcases right with ⟨rfl,rfl⟩ | right
      · exact .inl ⟨rfl,rfl⟩
      · exact .inr (.inl (starts_low right))
    · rcases right with ⟨rfl,rfl⟩ | right
      · exact .inr (.inr (starts_low left))
      · exact ih left right

/-- A block of a tiling is known by its address. -/
theorem starts_unique (pos : 0 < hd) (left : Starts hd a bs x b) (right : Starts hd a bs x c) : b = c := by
  rcases starts_apart left right with same | apart
  · exact same.2
  · omega

/-- The blocks of a tiling by multiples of a unit start at multiples of it. -/
theorem starts_dvd {u : Nat} (start : u ∣ a) (header : u ∣ hd) (multiples : Multiples u bs) (starts : Starts hd a bs x b) :
    u ∣ x := by
  induction bs generalizing a with
  | nil => exact starts.elim
  | cons c bs ih =>
    rcases starts with ⟨rfl,_⟩ | later
    · exact start
    · refine ih (Nat.dvd_add (Nat.dvd_add start header) (multiples c (by simp)).2) ?_ later
      intro d member
      exact multiples d (by simp [member])

/-- The first block of a tiling with room for `n` bytes. -/
theorem first_fit {n : Nat} (fits : ∃ b ∈ bs, Fits n b) :
    ∃ pre b post, bs = pre ++ b :: post ∧ Fits n b ∧ ∀ c ∈ pre, ¬ Fits n c := by
  cases found : bs.find? (fun b => decide (Fits n b)) with
  | none =>
    obtain ⟨b,member,room⟩ := fits
    exact absurd room (by simpa using List.find?_eq_none.mp found b member)
  | some b =>
    obtain ⟨room,pre,post,split,earlier⟩ := List.find?_eq_some_iff_append.mp found
    exact ⟨pre,b,post,split,by simpa using room,fun c member => by simpa using earlier c member⟩

theorem separate_append : Separate (pre ++ post) ↔ Separate pre ∧ Separate post ∧
    ∀ b ∈ pre.getLast?, ∀ c ∈ post.head?, ¬ (b.free = true ∧ c.free = true) := List.isChain_append

theorem separate_nil : Separate [] := List.isChain_nil
theorem separate_single : Separate [b] := List.isChain_singleton b
theorem separate_cons : Separate (b :: bs) ↔ (∀ c ∈ bs.head?, ¬ (b.free = true ∧ c.free = true)) ∧ Separate bs :=
  List.isChain_cons

/-! ### Merging -/
theorem glue_cons : glue hd b (c :: bs) =
    if b.free = true ∧ c.free = true then ⟨b.len + hd + c.len,true⟩ :: bs else b :: c :: bs := rfl

theorem glue_of_apart (apart : ∀ c ∈ bs.head?, ¬ (b.free = true ∧ c.free = true)) : glue hd b bs = b :: bs := by
  cases bs with
  | nil => rfl
  | cons c bs => exact if_neg (apart c rfl)

theorem glue_used (used : b.free = false) : glue hd b bs = b :: bs :=
  glue_of_apart (fun c _ both => by simp [used] at both)

@[simp] theorem glue_free {l k : Nat} : glue hd ⟨l,true⟩ (⟨k,true⟩ :: bs) = ⟨l + hd + k,true⟩ :: bs := by
  simp [glue]

/-- Merging leaves a tiling without two free neighbours alone. -/
theorem merge_of_separate (separate : Separate bs) : merge hd bs = bs := by
  induction bs with
  | nil => rfl
  | cons b bs ih =>
    obtain ⟨apart,rest⟩ := separate_cons.mp separate
    rw [merge,ih rest,glue_of_apart apart]

theorem separate_glue (separate : Separate bs) : Separate (glue hd b bs) := by
  cases bs with
  | nil => exact separate_single
  | cons c bs =>
    rw [glue_cons]
    split
    · rename_i both
      obtain ⟨apart,rest⟩ := separate_cons.mp separate
      exact separate_cons.mpr ⟨fun d member both' => apart d member ⟨both.2,both'.2⟩,rest⟩
    · rename_i apart
      exact separate_cons.mpr ⟨fun d member => by cases member; exact apart,separate⟩

theorem separate_merge : Separate (merge hd bs) := by
  induction bs with
  | nil => exact separate_nil
  | cons b bs ih => exact separate_glue ih

@[simp] theorem extent_glue : extent hd (glue hd b bs) = hd + b.len + extent hd bs := by
  cases bs with
  | nil => rfl
  | cons c bs =>
    rw [glue_cons]
    split
    · simp only [extent_cons]; omega
    · rfl

@[simp] theorem extent_merge : extent hd (merge hd bs) = extent hd bs := by
  induction bs with
  | nil => rfl
  | cons b bs ih => simp only [merge,extent_glue,ih,extent_cons]

theorem multiples_glue {u : Nat} (header : u ∣ hd) (multiples : Multiples u (b :: bs)) :
    Multiples u (glue hd b bs) := by
  cases bs with
  | nil => exact multiples
  | cons c bs =>
    rw [glue_cons]
    split
    · intro d member
      obtain ⟨nonzero,unit⟩ := multiples b (by simp)
      have next := multiples c (by simp)
      rcases List.mem_cons.mp member with rfl | later
      · exact ⟨by simp only; omega,Nat.dvd_add (Nat.dvd_add unit header) next.2⟩
      · exact multiples d (by simp [later])
    · exact multiples

theorem multiples_merge {u : Nat} (header : u ∣ hd) (multiples : Multiples u bs) : Multiples u (merge hd bs) := by
  induction bs with
  | nil => exact multiples
  | cons b bs ih =>
    have rest := ih (fun c member => multiples c (by simp [member]))
    apply multiples_glue header
    intro c member
    rcases List.mem_cons.mp member with rfl | later
    · exact multiples c (by simp)
    · exact rest c later

/-- A used block starts where it did before a block was put in front. -/
theorem starts_glue (used : c.free = false) : Starts hd a (glue hd b bs) x c ↔ Starts hd a (b :: bs) x c := by
  cases bs with
  | nil => rfl
  | cons d bs =>
    rw [glue_cons]
    split
    · rename_i both
      simp only [Starts]
      have notJoined : c ≠ ⟨b.len + hd + d.len,true⟩ := by rintro rfl; simp at used
      have notFirst : c ≠ b := by rintro rfl; simp [used] at both
      have notSecond : c ≠ d := by rintro rfl; simp [used] at both
      simp only [notJoined,notFirst,notSecond,and_false,false_or]
      rw [show a + hd + (b.len + hd + d.len) = a + hd + b.len + hd + d.len by omega]
    · rfl

/-- Merging keeps every used block where it is. -/
theorem starts_merge (used : c.free = false) : Starts hd a (merge hd bs) x c ↔ Starts hd a bs x c := by
  induction bs generalizing a with
  | nil => rfl
  | cons b bs ih => rw [merge,starts_glue used]; simp only [Starts,ih]

/-- A separate front that ends in a used block, or is empty, is not touched. -/
theorem merge_append (separate : Separate pre) (used : ∀ b ∈ pre.getLast?, b.free = false) :
    merge hd (pre ++ post) = pre ++ merge hd post := by
  induction pre with
  | nil => rfl
  | cons b pre ih =>
    obtain ⟨apart,rest⟩ := separate_cons.mp separate
    cases pre with
    | nil => exact glue_used (used b rfl)
    | cons c pre =>
      have later := ih rest (fun d member => used d (by rwa [List.getLast?_cons_cons]))
      rw [List.cons_append,merge,later,glue_of_apart (fun d member => by cases member; exact apart c rfl)]
      rfl

/-- Two free blocks in front merge with what follows as one. -/
theorem glue_glue {l k : Nat} :
    glue hd ⟨l,true⟩ (glue hd ⟨k,true⟩ bs) = glue hd ⟨l + hd + k,true⟩ bs := by
  cases bs with
  | nil => simp [glue]
  | cons c bs =>
    obtain ⟨m,free⟩ := c
    cases free with
    | true => simp only [glue_free,Nat.add_assoc]
    | false => simp [glue]

/-! ### Marking -/

@[simp] theorem extent_mark : extent hd (mark hd P a bs) = extent hd bs := by
  induction bs generalizing a with
  | nil => rfl
  | cons b bs ih => simp only [mark,extent_cons,ih]

theorem mark_append : mark hd P a (pre ++ post) = mark hd P a pre ++ mark hd P (a + extent hd pre) post := by
  induction pre generalizing a with
  | nil => rfl
  | cons b pre ih => simp only [List.cons_append,mark,ih,extent_cons,Nat.add_assoc]

theorem mark_mark : mark hd P a (mark hd Q a bs) = mark hd (fun x => Q x || P x) a bs := by
  induction bs generalizing a with
  | nil => rfl
  | cons b bs ih => simp only [mark,ih,Bool.or_assoc]

/-- Marking changes nothing where the marked addresses start no block. -/
theorem mark_outside (outside : ∀ x b, Starts hd a bs x b → P x = false) : mark hd P a bs = bs := by
  induction bs generalizing a with
  | nil => rfl
  | cons b bs ih =>
    rw [mark,outside a b (.inl ⟨rfl,rfl⟩),ih (fun x c starts => outside x c (.inr starts))]
    simp

theorem multiples_mark {u : Nat} (multiples : Multiples u bs) : Multiples u (mark hd P a bs) := by
  induction bs generalizing a with
  | nil => exact multiples
  | cons b bs ih =>
    intro c member
    rcases List.mem_cons.mp member with rfl | later
    · exact multiples b (by simp)
    · exact ih (fun d rest => multiples d (by simp [rest])) c later

/-- The used blocks after marking are those that are not marked. -/
theorem starts_mark (used : c.free = false) :
    Starts hd a (mark hd P a bs) x c ↔ Starts hd a bs x c ∧ P x = false := by
  induction bs generalizing a with
  | nil => simp [Starts,mark]
  | cons b bs ih =>
    simp only [mark,Starts,ih]
    obtain ⟨l,free⟩ := b
    obtain ⟨k,taken⟩ := c
    cases used
    constructor
    · rintro (⟨rfl,same⟩ | later)
      · simp only [Block.mk.injEq] at same
        have kept : free = false ∧ P x = false := by
          have := same.2.symm
          simpa using this
        exact ⟨.inl ⟨rfl,by simp [same.1,kept.1]⟩,kept.2⟩
      · exact ⟨.inr later.1,later.2⟩
    · rintro ⟨⟨rfl,same⟩ | later,unmarked⟩
      · cases same; exact .inl ⟨rfl,by simp [unmarked]⟩
      · exact .inr ⟨later,unmarked⟩

theorem mark_glue_merge (merged : merge hd (mark hd P (a + hd + b.len) bs) = merge hd (mark hd P (a + hd + b.len) post)) :
    merge hd (mark hd P a (glue hd b bs)) = merge hd (mark hd P a (b :: post)) := by
  cases bs with
  | nil => simp only [glue,mark,merge] at merged ⊢; rw [← merged]
  | cons c bs =>
    rw [glue_cons]
    split
    · rename_i both
      obtain ⟨l,free⟩ := b
      obtain ⟨k,taken⟩ := c
      obtain ⟨rfl,rfl⟩ : free = true ∧ taken = true := both
      simp only [mark,merge,Bool.true_or] at merged ⊢
      rw [← merged,glue_glue,show a + hd + (l + hd + k) = a + hd + l + hd + k by omega]
    · simp only [mark,merge] at merged ⊢
      rw [← merged]

/-- Merging before marking changes nothing once all is merged. -/
theorem merge_mark_merge : merge hd (mark hd P a (merge hd bs)) = merge hd (mark hd P a bs) := by
  induction bs generalizing a with
  | nil => rfl
  | cons b bs ih => rw [merge]; exact mark_glue_merge ih

/-- What is put behind a separate front meets its last block only. -/
theorem merge_behind (separate : Separate (pre ++ [c])) : merge hd (pre ++ c :: bs) = pre ++ glue hd c (merge hd bs) := by
  obtain ⟨front,_,apart⟩ := separate_append.mp separate
  cases taken : c.free with
  | true =>
    rw [merge_append front (fun b last => Bool.eq_false_iff.mpr (fun free => apart b last c rfl ⟨free,taken⟩))]
    rfl
  | false =>
    have whole : pre ++ c :: bs = (pre ++ [c]) ++ bs := by simp
    rw [whole,merge_append separate (fun b last => by
      rw [List.getLast?_concat] at last
      cases last
      exact taken),glue_used taken]
    simp

/-- Merging works from the back, so that the blocks in front do not matter. -/
theorem merge_congr (same : merge hd bs = merge hd post) : merge hd (pre ++ bs) = merge hd (pre ++ post) := by
  induction pre with
  | nil => exact same
  | cons c pre ih => rw [List.cons_append,List.cons_append,merge,merge,ih]

/-- The two parts of a free block are merged again. -/
theorem merge_parts (l k : Nat) : merge hd (⟨l,true⟩ :: ⟨k,true⟩ :: bs) = merge hd (⟨l + hd + k,true⟩ :: bs) := by
  rw [merge,merge,merge,glue_glue]

/-- Only the block that starts at the address is freed. -/
theorem mark_one (a : Nat) (pre : List Block) (b : Block) (post : List Block) (pos : 0 < hd) : mark hd (fun y => decide (y = a + extent hd pre)) a (pre ++ b :: post) =
    pre ++ ⟨b.len,true⟩ :: post := by
  have front : mark hd (fun y => decide (y = a + extent hd pre)) a pre = pre :=
    mark_outside (fun y c starts => by
      have high := starts_high starts
      exact decide_eq_false (by omega))
  have rest : mark hd (fun y => decide (y = a + extent hd pre)) (a + extent hd pre + hd + b.len) post = post :=
    mark_outside (fun y c starts => by
      have low := starts_low starts
      exact decide_eq_false (by omega))
  rw [mark_append,front,mark,rest]
  simp

/-- Releasing the first block of a separate tiling. -/
theorem release_first (pos : 0 < hd) (separate : Separate (b :: post)) :
    release hd a a (b :: post) = glue hd ⟨b.len,true⟩ post := by
  have marked := mark_one a [] b post pos
  rw [extent_nil,Nat.add_zero,List.nil_append,List.nil_append] at marked
  rw [release,marked,merge,merge_of_separate (separate_cons.mp separate).2]

/-- Releasing a block of a separate tiling that has a block before it. -/
theorem release_mid (hd a : Nat) (pos : 0 < hd) (separate : Separate (pre ++ c :: b :: post)) :
    release hd a (a + extent hd pre + hd + c.len) (pre ++ c :: b :: post) =
      pre ++ glue hd c (glue hd ⟨b.len,true⟩ post) := by
  have marked := mark_one a (pre ++ [c]) b post pos
  have place : a + extent hd (pre ++ [c]) = a + extent hd pre + hd + c.len := by
    rw [extent_append,extent_cons,extent_nil]
    omega
  rw [place,List.append_assoc,List.append_assoc] at marked
  have whole : pre ++ c :: b :: post = (pre ++ [c]) ++ b :: post := by simp
  have front : Separate (pre ++ [c]) := (separate_append.mp (whole ▸ separate)).1
  have back : Separate post := (separate_cons.mp (separate_append.mp (whole ▸ separate)).2.1).2
  change merge hd (mark hd _ a (pre ++ ([c] ++ b :: post))) = _
  rw [marked]
  change merge hd (pre ++ c :: (⟨b.len,true⟩ :: post)) = _
  rw [merge_behind front,merge,merge_of_separate back]

/-- Blocks freed one after another leave the merged tiling with all of them marked. -/
theorem release_all (separate : Separate bs) (xs : List Nat) :
    xs.foldl (fun bs x => release hd a x bs) bs = merge hd (mark hd (fun y => decide (y ∈ xs)) a bs) := by
  have merged : ∀ (xs : List Nat) (P : Nat → Bool),
      xs.foldl (fun bs x => release hd a x bs) (merge hd (mark hd P a bs)) =
        merge hd (mark hd (fun y => P y || decide (y ∈ xs)) a bs) := by
    intro xs
    induction xs with
    | nil => intro P; simp
    | cons x xs ih =>
      intro P
      have first : release hd a x (merge hd (mark hd P a bs)) =
          merge hd (mark hd (fun y => P y || decide (y = x)) a bs) := by
        rw [release,merge_mark_merge,mark_mark]
      rw [List.foldl_cons,first,ih]
      congr 2
      funext y
      simp [Bool.or_assoc]
  have start : merge hd (mark hd (fun _ => false) a bs) = bs := by
    rw [mark_outside (fun _ _ _ => rfl),merge_of_separate separate]
  have all := merged xs (fun _ => false)
  rw [start] at all
  simpa using all

/-- A tiling of free blocks merges into one block. -/
theorem merge_free (nonempty : bs ≠ []) (free : ∀ b ∈ bs, b.free = true) :
    merge hd bs = [⟨extent hd bs - hd,true⟩] := by
  induction bs with
  | nil => exact absurd rfl nonempty
  | cons b bs ih =>
    obtain ⟨l,taken⟩ := b
    obtain rfl : taken = true := free ⟨l,taken⟩ (by simp)
    cases bs with
    | nil => simp [merge,glue]
    | cons c bs =>
      rw [merge,ih (by simp) (fun d member => free d (by simp [member])),glue_free]
      simp only [extent_cons,List.cons.injEq,Block.mk.injEq,and_true]
      omega

/-- When every used block is marked, one free block is left. -/
theorem merge_mark_all (nonempty : bs ≠ []) (all : ∀ x b, Starts hd a bs x b → b.free = false → P x = true) :
    merge hd (mark hd P a bs) = [⟨extent hd bs - hd,true⟩] := by
  have free : ∀ b ∈ mark hd P a bs, b.free = true := by
    clear nonempty
    induction bs generalizing a with
    | nil => simp [mark]
    | cons c bs ih =>
      intro b member
      rcases List.mem_cons.mp member with rfl | later
      · cases used : c.free with
        | true => simp
        | false => simp [all a c (.inl ⟨rfl,rfl⟩) used]
      · exact ih (fun x d starts => all x d (.inr starts)) b later
  have marked : mark hd P a bs ≠ [] := by cases bs with
    | nil => exact absurd rfl nonempty
    | cons c bs => simp [mark]
  rw [merge_free marked free,extent_mark]

end WaifuOS.Tiling
