import WaifuOS.Texts
import WaifuOS.WideStrings
import WaifuOS.Words
import Mathlib.Tactic.Ring

/-!
`substring` and `wsubstring` in the memory. The new buffer is sized by the difference of the
indices, and the loop counts in positions of the source for both. `copies_iff` says
when the copy is right and stays in its block: from 0 on only. From 1 on it stays inside, but
starts with what `new` has left there, which is 0.
-/
namespace WaifuOS.Substrings
open WaifuOS.Words WaifuOS.Bytes

/-- The units of `s`, of `size` bytes each, stand at `p` with a terminator. -/
def UnitsAt (size : Nat) (m : Mem) (p : Nat) (s : List Nat) : Prop :=
  0 ∉ s ∧ ∀ i ≤ s.length, load m (p + size * i) size = s.getD i 0

/-- What a call returns: null or a pointer, and what it wrote. -/
structure Copy where
  pointer : Option Nat
  writes : List Write

/-- The loop of `wstrlen` from `len` on. -/
def wstrlenLoop (m : Mem) (str len : Nat) : Nat → Option Nat
  | 0 => none
  | fuel+1 => if load m (str + 2 * len) 2 = 0 then some len else wstrlenLoop m str (len+1) fuel

def wstrlen (m : Mem) (str fuel : Nat) : Option Nat := wstrlenLoop m str 0 fuel

/-- The copying loop from `x` on, with units of `size` bytes and `n` rounds left. -/
def copyLoop (size : Nat) (m : Mem) (buffer str x : Nat) : Nat → List Write
  | 0 => []
  | n+1 =>
    let w : Write := ⟨wrap (buffer + size * x),size,load m (wrap (str + size * x)) size⟩
    w :: copyLoop size (store m w.address w.size w.value) buffer str (x+1) n

/-- The body of both functions; `buffer` is what `new` returns. -/
def copy (size : Nat) (length : Option Nat) (m : Mem) (buffer str startIndex endIndex : Nat) : Option Copy :=
  if startIndex ≥ endIndex then some ⟨none,[]⟩
  else do
    let len ← length
    if endIndex > len then some ⟨none,[]⟩
    else
      let bufflen := endIndex - startIndex + 1
      -- `new` is `calloc`, which clears the block.
      let block : Write := ⟨buffer,size * bufflen,0⟩
      let m := store m block.address block.size block.value
      some ⟨some buffer,block :: (copyLoop size m buffer str startIndex (endIndex - startIndex) ++
        [⟨wrap (buffer + size * (bufflen - 1)),size,0⟩])⟩

def substring (fuel : Nat) (m : Mem) (buffer str startIndex endIndex : Nat) : Option Copy :=
  copy 1 (strlen m str fuel) m buffer str startIndex endIndex

def wsubstring (fuel : Nat) (m : Mem) (buffer str startIndex endIndex : Nat) : Option Copy :=
  copy 2 (wstrlen m str fuel) m buffer str startIndex endIndex

/-- The copy of `s` from `a` up to `b` is at `buffer`, and nothing was written outside of its block. -/
def Copies (size : Nat) (m : Mem) (buffer : Nat) (s : List Nat) (a b : Nat) (c : Copy) : Prop :=
  c.pointer = some buffer ∧ UnitsAt size (writeAll m c.writes) buffer ((s.drop a).take (b-a)) ∧
    ∀ w ∈ c.writes, w.Inside buffer (size * (b-a+1))

/-- A call with indices in the string `s` at `str`, and a new block that is apart from the string. -/
structure Call (size : Nat) (m : Mem) (buffer str : Nat) (s : List Nat) (a b : Nat) : Prop where
  units : UnitsAt size m str s
  order : a < b
  upTo : b ≤ s.length
  block : buffer + size * (b-a+1) ≤ 2^64
  string : str + size * (s.length+1) ≤ 2^64
  apart : Apart buffer (size * (b-a+1)) str (size * (s.length+1))

variable {size buffer str a b x n fuel : Nat} {m : Mem} {s : List Nat}

theorem UnitsAt.ne_zero (units : UnitsAt size m str s) {i : Nat} (inside : i < s.length) : load m (str + size * i) size ≠ 0 := by
  rw [units.2 i (by omega),List.getD_eq_getElem _ _ inside]
  exact fun zero => units.1 (zero ▸ List.getElem_mem inside)

theorem UnitsAt.terminated (units : UnitsAt size m str s) : load m (str + size * s.length) size = 0 := by
  rw [units.2 _ (Nat.le_refl _),List.getD_eq_default _ _ (Nat.le_refl _)]

theorem wstrlenLoop_units {len k : Nat} (units : UnitsAt 2 m str s) (whole : len + k = s.length) (enough : k < fuel) :
    wstrlenLoop m str len fuel = some s.length := by
  induction k generalizing len fuel with
  | zero =>
    obtain ⟨fuel,rfl⟩ := Nat.exists_eq_add_of_lt enough
    obtain rfl : len = s.length := by omega
    rw [Nat.zero_add,wstrlenLoop,if_pos units.terminated]
  | succ k ih =>
    cases fuel with
    | zero => omega
    | succ fuel =>
      rw [wstrlenLoop,if_neg (units.ne_zero (by omega))]
      exact ih (by omega) (by omega)

theorem load_one (m : Mem) (p : Nat) : load m p 1 = (m p).toNat := rfl

/-- Units of one byte are a text. -/
theorem UnitsAt.text (units : UnitsAt 1 m str s) : Text m str (s.map (BitVec.ofNat 8)) := by
  have byte : ∀ i ≤ s.length, m (str + i) = BitVec.ofNat 8 (s.getD i 0) := by
    intro i upTo
    rw [← units.2 i upTo,Nat.one_mul,load_one,BitVec.ofNat_toNat,BitVec.setWidth_eq]
  constructor
  · intro member
    obtain ⟨i,inside,zero⟩ := List.getElem_of_mem member
    rw [List.length_map] at inside
    rw [List.getElem_map,← List.getD_eq_getElem _ 0 inside,← byte i (by omega)] at zero
    apply units.ne_zero inside
    rw [Nat.one_mul,load_one,zero]
    rfl
  · intro i upTo
    rw [List.length_map] at upTo
    rw [byte i upTo]
    exact (List.getD_map s 0 (BitVec.ofNat 8)).symm

theorem strlen_units (units : UnitsAt 1 m str s) (enough : s.length < fuel) : strlen m str fuel = some s.length := by
  have length := strlen_text units.text (show (s.map (BitVec.ofNat 8)).length < fuel by rwa [List.length_map])
  rwa [List.length_map] at length

/-- In a round of the loop, a unit is written at the position that it is read from. -/
theorem copyLoop_mem (size : Nat) (m : Mem) (buffer str x n : Nat) {i : Nat} (low : x ≤ i) (high : i < x+n) :
    ∃ v, ⟨wrap (buffer + size * i),size,v⟩ ∈ copyLoop size m buffer str x n := by
  induction n generalizing m x with
  | zero => omega
  | succ n ih =>
    rw [copyLoop]
    by_cases first : i = x
    · subst first
      exact ⟨_,List.mem_cons_self⟩
    · obtain ⟨v,later⟩ := ih (store m (wrap (buffer + size * x)) size (load m (wrap (str + size * x)) size)) (x+1) (by omega) (by omega)
      exact ⟨v,List.mem_cons_of_mem _ later⟩

/-- What the loop does to a range that is apart from the source. -/
theorem copyLoop_spec (size : Nat) (m : Mem) (buffer str x n : Nat) (bound : buffer + size * (x+n) ≤ 2^64) (source : str + size * (x+n) ≤ 2^64)
    (apart : buffer + size * (x+n) ≤ str + size * x ∨ str + size * (x+n) ≤ buffer + size * x) (positive : 0 < size) :
    (∀ i, x ≤ i → i < x+n → load (writeAll m (copyLoop size m buffer str x n)) (buffer + size * i) size = load m (str + size * i) size) ∧
    (∀ q, q < buffer + size * x ∨ buffer + size * (x+n) ≤ q → writeAll m (copyLoop size m buffer str x n) q = m q) ∧
    ∀ w ∈ copyLoop size m buffer str x n, w.Inside (buffer + size * x) (size * n) := by
  induction n generalizing m x with
  | zero => exact ⟨fun i low high => by omega,fun q outside => rfl,fun w member => nomatch member⟩
  | succ n ih =>
    have step : size * (x + (n+1)) = size * x + size + size * n := by ring
    have step' : size * (x+1+n) = size * x + size + size * n := by ring
    have first : size * (x+1) = size * x + size := by ring
    have rest : size * (n+1) = size + size * n := by ring
    rw [step] at bound source apart
    rw [copyLoop,wrap_of_lt (by omega),wrap_of_lt (by omega)]
    obtain ⟨copied,kept,inside⟩ := ih (store m (buffer + size * x) size (load m (str + size * x) size)) (x+1)
      (by rw [step']; omega) (by rw [step']; omega) (by rw [step',first]; omega)
    simp only [writeAll]
    rw [step',first] at kept
    rw [first] at inside
    refine ⟨?_,?_,?_⟩
    · intro i low high
      by_cases here : i = x
      · subst here
        rw [load_congr (fun q low high => kept q (by omega)),load_store,Nat.mod_eq_of_lt (load_lt _ _ _)]
      · rw [copied i (by omega) (by omega)]
        have later : size * i = size * x + size * (i-x) := by rw [← Nat.mul_add,Nat.add_sub_cancel' low]
        have small : size * (i-x) ≤ size * n := Nat.mul_le_mul_left _ (by omega)
        exact load_store_apart (by unfold Apart; omega)
    · intro q outside
      rw [step] at outside
      rw [kept q (by omega),store_apart (by omega)]
    · intro w member
      rw [rest]
      rcases List.mem_cons.mp member with rfl | later
      · exact ⟨Nat.le_refl _,by simp only; omega⟩
      · obtain ⟨low,high⟩ := inside w later
        exact ⟨by omega,by omega⟩

/-- The block that `new` has cleared. -/
def newBlock (size buffer a b : Nat) : Write := ⟨buffer,size * (b-a+1),0⟩

/-- What a call with indices in the string writes after that. -/
def Call.copied (_ : Call size m buffer str s a b) : Copy :=
  ⟨some buffer,copyLoop size m buffer str a (b-a) ++ [⟨wrap (buffer + size * (b-a)),size,0⟩]⟩

/-- The string is where it was. -/
theorem Call.clear (call : Call size m buffer str s a b) : Call size (store m buffer (size * (b-a+1)) 0) buffer str s a b where
  units := by
    refine ⟨call.units.1,?_⟩
    intro i upTo
    have apart := call.apart
    have inside : size * i + size ≤ size * (s.length+1) := by
      rw [← Nat.mul_succ]
      exact Nat.mul_le_mul_left _ (by omega)
    rw [load_store_apart (by unfold Apart at apart ⊢; omega),call.units.2 i upTo]
  order := call.order
  upTo := call.upTo
  block := call.block
  string := call.string
  apart := call.apart

theorem copy_eq (call : Call size m buffer str s a b) :
    copy size (some s.length) m buffer str a b = some ⟨some buffer,newBlock size buffer a b :: call.clear.copied.writes⟩ := by
  have order := call.order
  have upTo := call.upTo
  rw [copy,if_neg (by omega)]
  simp only [Option.bind_eq_bind,Option.bind_some]
  rw [if_neg (by omega)]
  rfl

/-- The copy after the block was cleared is the copy of the call. -/
theorem copies_clear (call : Call size m buffer str s a b) :
    Copies size m buffer s a b ⟨some buffer,newBlock size buffer a b :: call.clear.copied.writes⟩ ↔
      Copies size (store m buffer (size * (b-a+1)) 0) buffer s a b call.clear.copied := by
  have block : (newBlock size buffer a b).Inside buffer (size * (b-a+1)) := ⟨Nat.le_refl _,Nat.le_refl _⟩
  unfold Copies
  rw [List.forall_mem_cons,and_iff_right block]
  rfl

theorem slice_length (call : Call size m buffer str s a b) : ((s.drop a).take (b-a)).length = b-a := by
  have upTo := call.upTo
  rw [List.length_take,List.length_drop]
  omega

theorem slice_getD {j : Nat} (small : j < b-a) : ((s.drop a).take (b-a)).getD j 0 = s.getD (a+j) 0 := by
  simp [List.getD_eq_getElem?_getD,small]

/-- From the second unit of the source on, the loop leaves the block. -/
theorem copied_outside (known : size = 1 ∨ size = 2) (call : Call size m buffer str s a b) (late : 2 ≤ a) :
    ∃ w ∈ call.copied.writes, ¬ w.Inside buffer (size * (b-a+1)) := by
  have order := call.order
  have block := call.block
  have upTo := call.upTo
  have string := call.string
  obtain ⟨v,member⟩ := copyLoop_mem size m buffer str a (b-a) (show a ≤ b-1 by omega) (by omega)
  refine ⟨_,List.mem_append_left _ member,?_⟩
  rintro ⟨low,high⟩
  simp only at low high
  simp only [wrap] at low high
  rcases known with rfl | rfl <;> omega

/-- From the start or the first unit on, the units of the source are at their own positions, with a terminator behind as
    many as are copied, and nothing else was written. -/
theorem copied_spec (known : size = 1 ∨ size = 2) (call : Call size m buffer str s a b) (early : a ≤ 1) :
    (∀ i, a ≤ i → i < b-a → load (writeAll m call.copied.writes) (buffer + size * i) size = s.getD i 0) ∧
    (∀ i < a, i < b-a → load (writeAll m call.copied.writes) (buffer + size * i) size = load m (buffer + size * i) size) ∧
    load (writeAll m call.copied.writes) (buffer + size * (b-a)) size = 0 ∧
    ∀ w ∈ call.copied.writes, w.Inside buffer (size * (b-a+1)) := by
  have order := call.order
  have upTo := call.upTo
  have block := call.block
  have string := call.string
  have apart := call.apart
  simp only [Apart] at apart
  have whole : a + (b-a) = b := by omega
  obtain ⟨copied,kept,inside⟩ := copyLoop_spec size m buffer str a (b-a)
    (by rw [whole]; rcases known with rfl | rfl <;> omega) (by rw [whole]; rcases known with rfl | rfl <;> omega)
    (by rw [whole]; rcases known with rfl | rfl <;> omega) (by omega)
  have address : wrap (buffer + size * (b-a)) = buffer + size * (b-a) := wrap_of_lt (by rcases known with rfl | rfl <;> omega)
  have finished : writeAll m call.copied.writes =
      store (writeAll m (copyLoop size m buffer str a (b-a))) (buffer + size * (b-a)) size 0 := by
    rw [Call.copied,writeAll_append,address]
    rfl
  rw [finished]
  refine ⟨?_,?_,?_,?_⟩
  · intro i low high
    rw [load_store_apart (by unfold Apart; rcases known with rfl | rfl <;> omega),copied i low (by omega),
      call.units.2 i (by omega)]
  · intro i low high
    rw [load_store_apart (by unfold Apart; rcases known with rfl | rfl <;> omega)]
    exact load_congr (fun q lower upper => kept q (by rcases known with rfl | rfl <;> omega))
  · rw [load_store,Nat.zero_mod]
  · intro w member
    rcases List.mem_append.mp member with loop | last
    · obtain ⟨low,high⟩ := inside w loop
      exact ⟨by omega,by rcases known with rfl | rfl <;> omega⟩
    · rw [List.mem_singleton.mp last,address]
      exact ⟨by simp only; omega,by simp only; rcases known with rfl | rfl <;> omega⟩

/-- A block that was cleared starts with 0. -/
theorem load_clear (known : size = 1 ∨ size = 2) (m : Mem) (buffer n : Nat) : load (store m buffer (size * (n+1)) 0) buffer size = 0 := by
  have zero : ∀ x, buffer ≤ x → x < buffer + size → store m buffer (size * (n+1)) 0 x = 0#8 := by
    intro x low high
    obtain ⟨i,rfl⟩ := Nat.exists_eq_add_of_le low
    rw [store_at (by rcases known with rfl | rfl <;> omega),Nat.zero_div]
  rw [load_congr (m := fun _ => 0#8) zero]
  rcases known with rfl | rfl <;> simp [load]

/-- The copy is right and stays in its block if and only if it starts at 0. -/
theorem copied_iff (known : size = 1 ∨ size = 2) (call : Call size m buffer str s a b) :
    Copies size m buffer s a b ⟨some buffer,newBlock size buffer a b :: call.clear.copied.writes⟩ ↔ a = 0 := by
  have order := call.order
  have upTo := call.upTo
  have length := slice_length call
  rw [copies_clear call]
  constructor
  · rintro ⟨-,⟨-,units⟩,inside⟩
    by_contra late
    by_cases first : a = 1
    · -- The unit at 0 is the one that the block starts with.
      obtain ⟨-,kept,-,-⟩ := copied_spec known call.clear (Nat.le_of_eq first)
      have unit := call.units.ne_zero (i := a) (by omega)
      rw [call.units.2 a (by omega)] at unit
      have here := units 0 (by omega)
      rw [kept 0 (by omega) (by omega),slice_getD (by omega)] at here
      simp only [Nat.mul_zero,Nat.add_zero,load_clear known] at here
      exact unit here.symm
    · obtain ⟨w,member,outside⟩ := copied_outside known call.clear (by omega)
      exact outside (inside w member)
  · rintro rfl
    obtain ⟨copied,-,terminated,inside⟩ := copied_spec known call.clear (Nat.zero_le _)
    have proper : 0 ∉ (s.drop 0).take (b-0) := fun member => call.units.1 (List.mem_of_mem_drop (List.mem_of_mem_take member))
    refine ⟨rfl,⟨proper,?_⟩,inside⟩
    intro i upTo
    by_cases last : i = b-0
    · rw [last,terminated,List.getD_eq_default _ _ (by omega)]
    · rw [copied i (Nat.zero_le _) (by omega),slice_getD (by omega),Nat.zero_add]

theorem substring_iff (call : Call 1 m buffer str s a b) (enough : s.length < fuel) :
    ∃ c, substring fuel m buffer str a b = some c ∧ (Copies 1 m buffer s a b c ↔ a = 0) := by
  have length := strlen_units call.units enough
  exact ⟨_,by rw [substring,length,copy_eq call],copied_iff (Or.inl rfl) call⟩

theorem wsubstring_iff (call : Call 2 m buffer str s a b) (enough : s.length < fuel) :
    ∃ c, wsubstring fuel m buffer str a b = some c ∧ (Copies 2 m buffer s a b c ↔ a = 0) := by
  have length : wstrlen m str fuel = some s.length := wstrlenLoop_units call.units (Nat.zero_add _) enough
  exact ⟨_,by rw [wsubstring,length,copy_eq call],copied_iff (Or.inr rfl) call⟩

/-- Both functions return a right copy and write in its block only if and only if the range starts at 0. -/
theorem copies_iff (m : Mem) (buffer str : Nat) (s : List Nat) (a b : Nat) (enough : s.length < fuel) :
    (Call 1 m buffer str s a b → ∃ c, substring fuel m buffer str a b = some c ∧ (Copies 1 m buffer s a b c ↔ a = 0)) ∧
    (Call 2 m buffer str s a b → ∃ c, wsubstring fuel m buffer str a b = some c ∧ (Copies 2 m buffer s a b c ↔ a = 0)) :=
  ⟨fun call => substring_iff call enough,fun call => wsubstring_iff call enough⟩

/-- The two characters `ab`, which are also one wide character. -/
def smallText (q : Nat) : BitVec 8 := if q = 0x100 then 0x61 else if q = 0x101 then 0x62 else 0

theorem smallText_chars (a b : Nat) (order : a < b) (upTo : b ≤ 2) : Call 1 smallText 0x200 0x100 [0x61,0x62] a b :=
  ⟨by unfold UnitsAt; decide,order,upTo,by omega,by decide,Or.inr (by decide)⟩

theorem smallText_wide : Call 2 smallText 0x200 0x100 [0x6261] 0 1 :=
  ⟨by unfold UnitsAt; decide,by decide,by decide,by decide,by decide,Or.inr (by decide)⟩

theorem copies_iff_small : (∃ c, substring 3 smallText 0x200 0x100 0 2 = some c ∧ Copies 1 smallText 0x200 [0x61,0x62] 0 2 c) ∧
    ∃ c, wsubstring 3 smallText 0x200 0x100 0 1 = some c ∧ Copies 2 smallText 0x200 [0x6261] 0 1 c := by
  obtain ⟨c,run,exact⟩ :=
    (copies_iff smallText 0x200 0x100 [0x61,0x62] 0 2 (show 2 < 3 by decide)).1 (smallText_chars 0 2 (by decide) (by decide))
  obtain ⟨d,runs,exactly⟩ := (copies_iff smallText 0x200 0x100 [0x6261] 0 1 (show 1 < 3 by decide)).2 smallText_wide
  exact ⟨⟨c,run,exact.mpr rfl⟩,⟨d,runs,exactly.mpr rfl⟩⟩

/-- The second character of `ab`: the copy starts with the 0 that was in the block. -/
theorem substring_misplaced : ¬ ∃ c, substring 3 smallText 0x200 0x100 1 2 = some c ∧ Copies 1 smallText 0x200 [0x61,0x62] 1 2 c := by
  rintro ⟨c,run,copies⟩
  obtain ⟨c',run',exact⟩ := substring_iff (smallText_chars 1 2 (by decide) (by decide)) (show 2 < 3 by decide)
  rw [run,Option.some.injEq] at run'
  subst run'
  exact absurd (exact.mp copies) (by decide)

/-- From 0 on, the copy in the memory is that of the strings without a memory. -/
theorem wsubstring_string (call : Call 2 m buffer str s 0 b) (enough : s.length < fuel) : ∃ c t,
    wsubstring fuel m buffer str 0 b = some c ∧ cstr.wsubstring s 0 b = some t ∧ UnitsAt 2 (writeAll m c.writes) buffer t := by
  obtain ⟨c,run,exact⟩ := wsubstring_iff call enough
  have order := call.order
  have copies := exact.mpr rfl
  refine ⟨c,s.take b,run,?_,copies.2.1⟩
  rw [cstr.wsubstring_zero call.units.1 call.upTo,if_neg (by omega)]

end WaifuOS.Substrings
