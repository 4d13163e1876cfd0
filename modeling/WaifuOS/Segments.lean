import WaifuOS.Heap
import WaifuOS.Tiling

/-!
The segments of the heap as a tiling. `Chain s bs` says that the headers in memory
are linked both ways through the blocks `bs` from `heapBase` to `heapEnd`. Each
operation on segments is an operation on blocks: combining is `glue`
(`combineForward_chain`, `combineBackward_chain`), splitting is `carve`
(`split_chain`), growing puts a free block behind (`expandHeap_chain`). What an
operation writes lies in the headers, so that payloads are kept.
-/
namespace WaifuOS
open WaifuOS.Words WaifuOS.Bytes WaifuOS.Tiling

/-- The header at `x` of a block, between the headers at `prev` and `next`. -/
structure Header (m : Mem) (x : Nat) (b : Block) (prev next : Nat) : Prop where
  length : load m x 8 = b.len
  next : load m (x+8) 8 = next
  previous : load m (x+16) 8 = prev
  free : (m (x+24) != 0#8) = b.free

/-- Where the header of the next block is, `stop` where there is no next block. -/
def after (stop x : Nat) : List Block → Nat
  | [] => stop
  | _ :: _ => x

/-- The headers of the blocks that are tiled from `a` on are linked both ways. -/
def Linked (m : Mem) (prev a stop : Nat) : List Block → Prop
  | [] => True
  | b :: bs => Header m a b prev (after stop (a + 32 + b.len) bs) ∧ Linked m a (a + 32 + b.len) stop bs

section Headers
variable {m m' : Mem} {x y k v a prev next stop p : Nat} {b c : Block} {bs pre post : List Block}

theorem header_any (m : Mem) (x : Nat) :
    Header m x ⟨load m x 8,m (x+24) != 0#8⟩ (load m (x+16) 8) (load m (x+8) 8) := ⟨rfl,rfl,rfl,rfl⟩

theorem header_congr (header : Header m x b prev next) (same : ∀ y, x ≤ y → y < x+32 → m' y = m y) :
    Header m' x b prev next where
  length := (load_congr (fun y low high => same y (by omega) (by omega))).trans header.length
  next := (load_congr (fun y low high => same y (by omega) (by omega))).trans header.next
  previous := (load_congr (fun y low high => same y (by omega) (by omega))).trans header.previous
  free := by rw [same (x+24) (by omega) (by omega)]; exact header.free

theorem header_apart (header : Header m x b prev next) (apart : x+32 ≤ y ∨ y+k ≤ x) :
    Header (store m y k v) x b prev next :=
  header_congr header (fun z low high => store_apart (by omega))

theorem header_setLength (header : Header m x b prev next) (word : v < 2^64) :
    Header (store m x 8 v) x ⟨v,b.free⟩ prev next where
  length := by rw [load_store]; exact Nat.mod_eq_of_lt word
  next := by rw [load_store_apart (.inr (by omega))]; exact header.next
  previous := by rw [load_store_apart (.inr (by omega))]; exact header.previous
  free := by rw [store_apart (.inr (by omega))]; exact header.free

theorem header_setNext (header : Header m x b prev next) (word : v < 2^64) :
    Header (store m (x+8) 8 v) x b prev v where
  length := by rw [load_store_apart (.inl (by omega))]; exact header.length
  next := by rw [load_store]; exact Nat.mod_eq_of_lt word
  previous := by rw [load_store_apart (.inr (by omega))]; exact header.previous
  free := by rw [store_apart (.inr (by omega))]; exact header.free

theorem header_setPrevious (header : Header m x b prev next) (word : v < 2^64) :
    Header (store m (x+16) 8 v) x b v next where
  length := by rw [load_store_apart (.inl (by omega))]; exact header.length
  next := by rw [load_store_apart (.inl (by omega))]; exact header.next
  previous := by rw [load_store]; exact Nat.mod_eq_of_lt word
  free := by rw [store_apart (.inr (by omega))]; exact header.free

theorem header_setFree (free : Bool) (header : Header m x b prev next) :
    Header (store m (x+24) 1 free.toNat) x ⟨b.len,free⟩ prev next where
  length := by rw [load_store_apart (.inl (by omega))]; exact header.length
  next := by rw [load_store_apart (.inl (by omega))]; exact header.next
  previous := by rw [load_store_apart (.inl (by omega))]; exact header.previous
  free := by
    have written := store_at (m := m) (a := x+24) (v := free.toNat) (i := 0) (k := 1) (by omega)
    rw [Nat.add_zero] at written
    rw [written]
    cases free <;> rfl

theorem linked_append : Linked m prev a stop (pre ++ post) ↔
    Linked m prev a (after stop (a + extent 32 pre) post) pre ∧
      Linked m (lastStart 32 prev a pre) (a + extent 32 pre) stop post := by
  induction pre generalizing prev a with
  | nil => simp [Linked]
  | cons b pre ih =>
    have place : a + extent 32 (b :: pre) = a + 32 + b.len + extent 32 pre := by rw [extent_cons]; omega
    have link : after stop (a + 32 + b.len) (pre ++ post) =
        after (after stop (a + 32 + b.len + extent 32 pre) post) (a + 32 + b.len) pre := by
      cases pre with
      | nil => rfl
      | cons c pre => rfl
    rw [List.cons_append,Linked,ih,link,Linked,place,lastStart,and_assoc]

theorem linked_congr (linked : Linked m prev a stop bs) (same : ∀ y, a ≤ y → y < a + extent 32 bs → m' y = m y) :
    Linked m' prev a stop bs := by
  induction bs generalizing prev a with
  | nil => trivial
  | cons b bs ih =>
    rw [extent_cons] at same
    exact ⟨header_congr linked.1 (fun y low high => same y low (by omega)),
      ih linked.2 (fun y low high => same y (by omega) (by omega))⟩

theorem linked_apart (linked : Linked m prev a stop bs) (apart : y+k ≤ a ∨ a + extent 32 bs ≤ y) :
    Linked (store m y k v) prev a stop bs :=
  linked_congr linked (fun z low high => store_apart (by omega))

theorem linked_setPrevious (linked : Linked m prev a stop (c :: bs)) (word : v < 2^64) :
    Linked (store m (a+16) 8 v) v a stop (c :: bs) :=
  ⟨header_setPrevious linked.1 word,linked_apart linked.2 (.inl (by omega))⟩

/-- A block in the middle of a chain, with what is before and behind it. -/
theorem linked_mid : Linked m prev a stop (pre ++ b :: post) ↔
    Linked m prev a (a + extent 32 pre) pre ∧
      Header m (a + extent 32 pre) b (lastStart 32 prev a pre) (after stop (a + extent 32 pre + 32 + b.len) post) ∧
      Linked m (a + extent 32 pre) (a + extent 32 pre + 32 + b.len) stop post := by
  rw [linked_append]
  rfl

theorem lastStart_low (nonempty : bs ≠ []) : a ≤ lastStart 32 prev a bs := by
  obtain ⟨pre,b,rfl⟩ := List.eq_nil_or_concat' bs |>.resolve_left nonempty
  rw [lastStart_concat]
  omega

end Headers

/-! ### Chains -/

/-- The addresses outside the headers of the blocks that are tiled from `a` on. -/
def OffHeaders (a : Nat) (bs : List Block) (y : Nat) : Prop := ∀ x b, Starts 32 a bs x b → y < x ∨ x+32 ≤ y

/-- The segments of the heap are the blocks `bs`. -/
structure Chain (s : Kernel) (bs : List Block) : Prop where
  nonempty : bs ≠ []
  linked : Linked s.memory 0 s.heapBase 0 bs
  last : s.LastSegment = lastStart 32 0 s.heapBase bs
  ends : s.heapEnd = s.heapBase + extent 32 bs
  bounded : s.heapEnd < 2^64
  based : 0 < s.heapBase

/-- Only headers of `bs` and the global `LastSegment` are written. -/
structure Rewires (s s' : Kernel) (bs : List Block) : Prop where
  state : s' = { s with memory := s'.memory, LastSegment := s'.LastSegment }
  payloads : ∀ y, OffHeaders s.heapBase bs y → s'.memory y = s.memory y

/-- The globals that no operation on segments touches. -/
structure Keeps (s s' : Kernel) : Prop where
  heapBase : s'.heapBase = s.heapBase
  HeapInitialized : s'.HeapInitialized = s.HeapInitialized
  memoryLock : s'.memoryLock = s.memoryLock
  earlyMallocBase : s'.earlyMallocBase = s.earlyMallocBase

theorem Keeps.trans {s s' t : Kernel} (first : Keeps s s') (second : Keeps s' t) : Keeps s t :=
  ⟨second.heapBase.trans first.heapBase,second.HeapInitialized.trans first.HeapInitialized,
    second.memoryLock.trans first.memoryLock,second.earlyMallocBase.trans first.earlyMallocBase⟩

variable {s s' : Kernel} {bs pre post : List Block} {b c : Block} {n : Nat}

/-- Rewired headers that tile the same interval are a chain again. -/
theorem Chain.rewire {m : Mem} {l : Nat} {bs' : List Block} (chain : Chain s bs) (nonempty : bs' ≠ [])
    (linked : Linked m 0 s.heapBase 0 bs') (last : l = lastStart 32 0 s.heapBase bs')
    (size : extent 32 bs' = extent 32 bs) : Chain { s with memory := m, LastSegment := l } bs' :=
  ⟨nonempty,linked,last,by rw [size]; exact chain.ends,chain.bounded,chain.based⟩

theorem Chain.lock {l : Bool} (chain : Chain s bs) : Chain { s with memoryLock := l } bs :=
  ⟨chain.nonempty,chain.linked,chain.last,chain.ends,chain.bounded,chain.based⟩

theorem Rewires.refl : Rewires s s bs := ⟨rfl,fun _ _ => rfl⟩

theorem Rewires.keeps (rewires : Rewires s s' bs) : Keeps s s' where
  heapBase := by rw [rewires.state]
  HeapInitialized := by rw [rewires.state]
  memoryLock := by rw [rewires.state]
  earlyMallocBase := by rw [rewires.state]

theorem starts_glue_header {a x : Nat} (starts : Starts 32 a (glue 32 b bs) x c) : ∃ d, Starts 32 a (b :: bs) x d := by
  cases bs with
  | nil => exact ⟨c,starts⟩
  | cons d bs =>
    rw [glue_cons] at starts
    split at starts
    · rcases starts with ⟨rfl,rfl⟩ | later
      · exact ⟨b,.inl ⟨rfl,rfl⟩⟩
      · refine ⟨c,.inr (.inr ?_)⟩
        have place : a + 32 + (b.len + 32 + d.len) = a + 32 + b.len + 32 + d.len := by omega
        exact place ▸ later
    · exact ⟨c,starts⟩

/-- Where a header was outside before a block was glued on, it is outside after. -/
theorem offHeaders_glue {a y : Nat} (off : OffHeaders a (pre ++ b :: post) y) : OffHeaders a (pre ++ glue 32 b post) y := by
  intro x c starts
  rcases starts_append.mp starts with early | late
  · exact off x c (starts_append.mpr (.inl early))
  · obtain ⟨d,header⟩ := starts_glue_header late
    exact off x d (starts_append.mpr (.inr header))

/-- A payload lies outside all headers. -/
theorem offHeaders_payload {a x y : Nat} (starts : Starts 32 a bs x b) (low : x+32 ≤ y) (high : y < x+32+b.len) :
    OffHeaders a bs y := by
  intro z c other
  rcases starts_apart starts other with ⟨rfl,rfl⟩ | before | behind
  · exact .inr low
  · exact .inl (by omega)
  · exact .inr (by omega)

theorem offHeaders_flag {a y : Nat} {free : Bool} (off : OffHeaders a (pre ++ b :: post) y) :
    OffHeaders a (pre ++ ⟨b.len,free⟩ :: post) y := by
  intro x c starts
  rcases starts_append.mp starts with early | ⟨rfl,rfl⟩ | late
  · exact off x c (starts_append.mpr (.inl early))
  · exact off _ b starts_mid
  · exact off x c (starts_append.mpr (.inr (.inr late)))

namespace Kernel

/-- What stands in the headers of a block and its neighbours. -/
theorem chain_mid (chain : Chain s (pre ++ b :: post)) :
    Linked s.memory 0 s.heapBase (s.heapBase + extent 32 pre) pre ∧
      Header s.memory (s.heapBase + extent 32 pre) b (lastStart 32 0 s.heapBase pre)
        (after 0 (s.heapBase + extent 32 pre + 32 + b.len) post) ∧
      Linked s.memory (s.heapBase + extent 32 pre) (s.heapBase + extent 32 pre + 32 + b.len) 0 post :=
  linked_mid.mp chain.linked

/-- What `CombineForward` writes where the next segment is free. -/
theorem combineForward_eq {x z w prev : Nat} (here : Header s.memory x b prev z) (there : Header s.memory z c x w)
    (apart : x+32 ≤ z) (behind : w = 0 ∨ z+32 ≤ w) (free : c.free = true) (short : b.len + 32 + c.len < 2^64) :
    s.CombineForward x =
      let joined := store s.memory x 8 (b.len + 32 + c.len)
      { s with
        memory := store (if w ≠ 0 then store joined (w+16) 8 x else joined) (x+8) 8 w,
        LastSegment := if z = s.LastSegment then x else s.LastSegment } := by
  have notLast : z ≠ 0 := by omega
  have sum : wrap (b.len + wrap (c.len + headerSize)) = b.len + 32 + c.len := by
    rw [headerSize,wrap_of_lt (x := c.len + 32) (by omega),wrap_of_lt (by omega)]
    omega
  have here₁ := header_setLength here short
  have there₁ := header_apart (k := 8) (v := b.len + 32 + c.len) there (.inr (show x+8 ≤ z by omega))
  simp only [CombineForward,Next,Free,Length,setLength,setPrevious,setNext,here.next,there.free,free,here.length,
    there.length,sum,if_neg notLast,Bool.not_true,Bool.false_eq_true,if_false,here₁.next]
  by_cases last : z = s.LastSegment
  · by_cases more : w = 0
    · simp only [if_pos last,there₁.next,more,ne_eq,not_true_eq_false,if_false,here₁.next]
    · have here₂ := header_apart (k := 8) (v := x) here₁ (.inl (show x+32 ≤ w+16 by omega))
      have there₂ := header_apart (k := 8) (v := x) there₁ (.inl (show z+32 ≤ w+16 by omega))
      simp only [if_pos last,there₁.next,more,ne_eq,not_false_eq_true,if_true,here₁.next,here₂.next,there₂.next]
  · by_cases more : w = 0
    · simp only [if_neg last,there₁.next,more,ne_eq,not_true_eq_false,if_false,here₁.next]
    · have here₂ := header_apart (k := 8) (v := x) here₁ (.inl (show x+32 ≤ w+16 by omega))
      have there₂ := header_apart (k := 8) (v := x) there₁ (.inl (show z+32 ≤ w+16 by omega))
      simp only [if_neg last,there₁.next,more,ne_eq,not_false_eq_true,if_true,here₁.next,here₂.next,there₂.next]

/-- Setting the next header of a free block that the others are linked to already. -/
theorem linked_setNext {m : Mem} {a x l z w : Nat} (before : Linked m 0 a x pre)
    (here : Header m x ⟨l,true⟩ (lastStart 32 0 a pre) z) (behind : Linked m x (x+32+l) 0 post)
    (xIs : x = a + extent 32 pre) (wIs : w = after 0 (x+32+l) post) (word : w < 2^64) :
    Linked (store m (x+8) 8 w) 0 a 0 (pre ++ ⟨l,true⟩ :: post) := by
  refine linked_mid.mpr ⟨?_,?_,?_⟩
  · rw [← xIs]
    exact linked_apart before (.inr (by omega))
  · rw [← xIs,← wIs]
    exact header_setNext here word
  · rw [← xIs]
    exact linked_apart behind (.inl (by omega))

/-- What `CombineForward` writes makes one block of two. -/
theorem linked_joined {m : Mem} {a x : Nat} (linked : Linked m 0 a 0 (pre ++ b :: c :: post)) (free : b.free = true)
    (word : a + extent 32 (pre ++ b :: c :: post) < 2^64) (based : 0 < a) (xIs : x = a + extent 32 pre) :
    let w := after 0 (x + 32 + b.len + 32 + c.len) post
    let joined := store m x 8 (b.len + 32 + c.len)
    let m' := store (if w ≠ 0 then store joined (w+16) 8 x else joined) (x+8) 8 w
    Linked m' 0 a 0 (pre ++ ⟨b.len + 32 + c.len,true⟩ :: post) ∧
      ∀ z, OffHeaders a (pre ++ b :: c :: post) z → m' z = m z := by
  obtain ⟨before,here,_,rest⟩ := linked_mid.mp linked
  rw [extent_append,extent_cons,extent_cons] at word
  rw [← xIs] at before here rest
  have offX : ∀ {z}, OffHeaders a (pre ++ b :: c :: post) z → z < x ∨ x+32 ≤ z := fun off => off x b (xIs ▸ starts_mid)
  have before₁ := linked_apart (k := 8) (v := b.len + 32 + c.len) before (.inr (Nat.le_of_eq xIs.symm))
  have here₁ := header_setLength (v := b.len + 32 + c.len) here (by omega)
  rw [free] at here₁
  intro w joined m'
  cases post with
  | nil =>
    have m'Is : m' = store (store m x 8 (b.len + 32 + c.len)) (x+8) 8 0 := by simp [m',w,joined,after]
    rw [m'Is]
    refine ⟨linked_setNext before₁ here₁ trivial xIs rfl (Nat.two_pow_pos 64),?_⟩
    intro z off
    have outside := offX off
    rw [store_apart (by omega),store_apart (by omega)]
  | cons d post =>
    rw [extent_cons] at word
    have wIs : w = x + 32 + b.len + 32 + c.len := rfl
    have m'Is : m' = store (store (store m x 8 (b.len + 32 + c.len)) (w+16) 8 x) (x+8) 8 w := by
      simp only [m']
      rw [if_pos (by omega)]
    have before₂ := linked_apart (k := 8) (v := x) before₁ (.inr (show a + extent 32 pre ≤ w+16 by omega))
    have here₂ := header_apart (k := 8) (v := x) here₁ (.inl (show x+32 ≤ w+16 by omega))
    have rest₁ := linked_apart (k := 8) (v := b.len + 32 + c.len) rest (.inl (show x+8 ≤ x + 32 + b.len + 32 + c.len by omega))
    rw [← wIs] at rest₁
    have rest₂ := linked_setPrevious (v := x) rest₁ (by omega)
    have place : w = x + 32 + (b.len + 32 + c.len) := by omega
    rw [m'Is]
    refine ⟨linked_setNext before₂ here₂ (place ▸ rest₂) xIs (by rw [after]; exact place) (by omega),?_⟩
    intro z off
    have outside := offX off
    have outsideW := off w d (by
      have mid : Starts 32 a ((pre ++ [b,c]) ++ d :: post) (a + extent 32 (pre ++ [b,c])) d := starts_mid
      rw [extent_append,extent_cons,extent_cons,extent_nil,List.append_assoc] at mid
      have start : w = a + (extent 32 pre + (32 + b.len + (32 + c.len + 0))) := by omega
      exact start ▸ mid)
    rw [store_apart (by omega),store_apart (by omega),store_apart (by omega)]

/-- The last header after two blocks became one. -/
theorem lastStart_joined (a : Nat) (pre post : List Block) (b c : Block) (free : Bool) :
    (if a + extent 32 pre + 32 + b.len = lastStart 32 0 a (pre ++ b :: c :: post) then a + extent 32 pre
      else lastStart 32 0 a (pre ++ b :: c :: post)) = lastStart 32 0 a (pre ++ ⟨b.len + 32 + c.len,free⟩ :: post) := by
  cases post with
  | nil =>
    rw [lastStart_concat,show pre ++ [b,c] = (pre ++ [b]) ++ [c] by simp,lastStart_concat,extent_append,extent_cons,extent_nil]
    exact if_pos (by omega)
  | cons d post =>
    have late : a + extent 32 pre + 32 + b.len + 32 + c.len ≤ lastStart 32 (a + extent 32 pre + 32 + b.len)
        (a + extent 32 pre + 32 + b.len + 32 + c.len) (d :: post) := lastStart_low (by simp)
    have place : a + extent 32 pre + 32 + (b.len + 32 + c.len) = a + extent 32 pre + 32 + b.len + 32 + c.len := by omega
    simp only [lastStart_append,lastStart] at late ⊢
    rw [if_neg (by omega),place]

/-- Combining a free segment forward glues its block to the blocks behind. -/
theorem combineForward_chain (chain : Chain s (pre ++ b :: post)) (free : b.free = true) :
    Chain (s.CombineForward (s.heapBase + extent 32 pre)) (pre ++ glue 32 b post) ∧
      Rewires s (s.CombineForward (s.heapBase + extent 32 pre)) (pre ++ b :: post) := by
  obtain ⟨_,here,behind⟩ := chain_mid chain
  have based := chain.based
  have bounded := chain.bounded
  rw [chain.ends] at bounded
  set x := s.heapBase + extent 32 pre with xIs
  cases post with
  | nil =>
    have stays : s.CombineForward x = s := if_pos here.next
    rw [stays]
    exact ⟨chain,.refl⟩
  | cons c post =>
    obtain ⟨there,_⟩ := behind
    replace here : Header s.memory x b (lastStart 32 0 s.heapBase pre) (x + 32 + b.len) := here
    have next : s.Next x = x + 32 + b.len := here.next
    cases taken : c.free with
    | false =>
      have stays : s.CombineForward x = s := by
        have notFree : s.Free (s.Next x) = false := by rw [next]; exact there.free.trans taken
        rw [CombineForward,notFree]
        simp
      rw [stays,glue_cons,if_neg (by simp [taken])]
      exact ⟨chain,.refl⟩
    | true =>
      obtain ⟨linked,payloads⟩ := linked_joined chain.linked free bounded based xIs
      have parts := lastStart_joined s.heapBase pre post b c true
      rw [← chain.last,← xIs] at parts
      rw [extent_append,extent_cons,extent_cons] at bounded
      have done := combineForward_eq here there (by omega) (by cases post with
        | nil => exact .inl rfl
        | cons d post => exact .inr (by simp only [after]; omega)) taken (by omega)
      have glued : glue 32 b (c :: post) = ⟨b.len + 32 + c.len,true⟩ :: post := by rw [glue_cons,if_pos ⟨free,taken⟩]
      rw [done,glued]
      refine ⟨chain.rewire (by simp) linked parts ?_,rfl,payloads⟩
      simp only [extent_append,extent_cons]
      omega

/-- Combining a segment backward glues the block before to its block. -/
theorem combineBackward_chain (chain : Chain s (pre ++ b :: c :: post)) :
    Chain (s.CombineBackward (s.heapBase + extent 32 pre + 32 + b.len)) (pre ++ glue 32 b (c :: post)) ∧
      Rewires s (s.CombineBackward (s.heapBase + extent 32 pre + 32 + b.len)) (pre ++ b :: c :: post) := by
  obtain ⟨_,here,there,_⟩ := chain_mid chain
  have previous : s.Previous (s.heapBase + extent 32 pre + 32 + b.len) = s.heapBase + extent 32 pre := there.previous
  have taken : s.Free (s.heapBase + extent 32 pre) = b.free := here.free
  have based := chain.based
  cases before : b.free with
  | true =>
    have both : s.Previous (s.heapBase + extent 32 pre + 32 + b.len) ≠ 0 ∧
        s.Free (s.Previous (s.heapBase + extent 32 pre + 32 + b.len)) = true := by
      rw [previous,taken]
      exact ⟨by omega,before⟩
    rw [CombineBackward,if_pos both,previous]
    exact combineForward_chain chain before
  | false =>
    have stays : s.CombineBackward (s.heapBase + extent 32 pre + 32 + b.len) = s := by
      apply if_neg
      intro both
      rw [previous,taken,before] at both
      exact Bool.false_ne_true both.2
    rw [stays,glue_used before]
    exact ⟨chain,.refl⟩

/-- The first segment has nothing before it to combine with. -/
theorem combineBackward_first (chain : Chain s (b :: post)) : s.CombineBackward s.heapBase = s :=
  if_neg (fun both => both.1 chain.linked.1.previous)

/-! ### Splitting -/

/-- A free block of which `n` bytes are taken. What is left becomes a block when it
    has room for a header and 16 bytes and its length is not negative as a signed word. -/
def carve (n : Nat) (b : Block) : List Block :=
  if n + 48 ≤ b.len ∧ b.len < n + 32 + 2^63 then [⟨n,false⟩,⟨b.len - n - 32,true⟩] else [⟨b.len,false⟩]

theorem split_refuses {x : Nat} (length : s.Length x = b.len) (fits : n ≤ b.len) (word : b.len < 2^64)
    (small : ¬ (n + 48 ≤ b.len ∧ b.len < n + 32 + 2^63)) : s.Split x n = (0,s) := by
  by_cases short : n < 0x10
  · exact if_pos short
  · have rest : signed (sub (sub (s.Length x) n) headerSize) < (0x10 : Nat) := by
      rw [signed_lt_iff (sub_lt _ _) (by omega),length,sub_of_le fits word,headerSize]
      by_cases exact_rest : 32 ≤ b.len - n
      · rw [sub_of_le exact_rest (by omega)]
        omega
      · simp only [sub]
        omega
    rw [Split,if_neg short]
    exact if_pos rest

/-- What `Split` writes where it splits. -/
theorem split_eq {x prev next : Nat} (here : Header s.memory x b prev next) (atLeast : 16 ≤ n)
    (room : n + 48 ≤ b.len) (signed_room : b.len < n + 32 + 2^63) (word : x + 32 + b.len < 2^64)
    (behind : next = 0 ∨ x + 32 + b.len ≤ next) :
    (s.Split x n).2 =
      let y := x + n + 32
      let m := if next ≠ 0 then store s.memory (next+16) 8 y else s.memory
      let m := store (store (store m (y+8) 8 next) (x+8) 8 y) (y+16) 8 x
      { s with
        memory := store (store (store m y 8 (b.len - n - 32)) (y+24) 1 b.free.toNat) x 8 n,
        LastSegment := if s.LastSegment = x then y else s.LastSegment } := by
  have length : s.Length x = b.len := here.length
  have rest : sub (sub (s.Length x) n) headerSize = b.len - n - 32 := by
    rw [length,headerSize,sub_of_le (x := b.len) (y := n) (by omega) (by omega),sub_of_le (by omega) (by omega)]
  have large : ¬ signed (b.len - n - 32) < 0x10 := by
    change ¬ signed (b.len - n - 32) < (0x10 : Nat)
    rw [signed_lt_iff (by omega) (by omega)]
    omega
  have place : wrap (x + n + headerSize) = x + n + 32 := by rw [headerSize,wrap_of_lt (by omega)]
  have notShort : ¬ n < 0x10 := by omega
  have next₀ : s.Next x = next := here.next
  have kept : ∀ m, Header m x b prev next →
      ((store (store (store (store m (x+n+32+8) 8 next) (x+8) 8 (x+n+32)) (x+n+32+16) 8 x) (x+n+32) 8 (b.len-n-32))
        (x+24) != 0#8) = b.free := by
    intro m header
    have first := header_apart (k := 8) (v := next) header (.inl (show x+32 ≤ x+n+32+8 by omega))
    have second := header_setNext (v := x+n+32) first (by omega)
    have third := header_apart (k := 8) (v := x) second (.inl (show x+32 ≤ x+n+32+16 by omega))
    have fourth := header_apart (k := 8) (v := b.len-n-32) third (.inl (show x+32 ≤ x+n+32 by omega))
    exact fourth.free
  by_cases last : next = 0
  · have free₁ := kept _ here
    simp only [Split,if_neg notShort,rest,if_neg large,place,next₀,last,ne_eq,not_true_eq_false,if_false] at free₁ ⊢
    simp only [setNext,setPrevious,setLength,setFree,Free,free₁]
    split <;> rfl
  · have header := header_apart (k := 8) (v := x+n+32) here (.inl (show x+32 ≤ next+16 by omega))
    have free₁ := kept _ header
    have next₁ : (s.setPrevious next (x+n+32)).Next x = next := header.next
    simp only [Split,if_neg notShort,rest,if_neg large,place,next₀,last,ne_eq,not_false_eq_true,if_true,next₁]
    simp only [setNext,setPrevious,setLength,setFree,Free,free₁]
    split <;> rfl

/-- The memory after the headers at `x` and `y` of the two parts are written. -/
def carved (m : Mem) (x y n rest next : Nat) (free : Bool) : Mem :=
  let m := store (store (store m (y+8) 8 next) (x+8) 8 y) (y+16) 8 x
  store (store (store (store m y 8 rest) (y+24) 1 free.toNat) x 8 n) (x+24) 1 false.toNat

/-- The writes that carve a block make two headers, and write nothing outside them. -/
theorem carved_headers {m : Mem} {x prev next : Nat} (y rest : Nat) (here : Header m x b prev next) (apart : x+32 ≤ y)
    (words : n < 2^64 ∧ rest < 2^64 ∧ y < 2^64 ∧ next < 2^64) :
    Header (carved m x y n rest next b.free) x ⟨n,false⟩ prev y ∧
      Header (carved m x y n rest next b.free) y ⟨rest,b.free⟩ x next ∧
      ∀ z, z < x ∨ x+32 ≤ z → z < y ∨ y+32 ≤ z → carved m x y n rest next b.free z = m z := by
  obtain ⟨word,wordRest,wordY,wordNext⟩ := words
  refine ⟨?_,?_,?_⟩
  · have first := header_apart (k := 8) (v := next) here (.inl (show x+32 ≤ y+8 by omega))
    have second := header_setNext first wordY
    have third := header_apart (k := 8) (v := x) second (.inl (show x+32 ≤ y+16 by omega))
    have fourth := header_apart (k := 8) (v := rest) third (.inl apart)
    have fifth := header_apart (k := 1) (v := b.free.toNat) fourth (.inl (show x+32 ≤ y+24 by omega))
    exact header_setFree false (header_setLength fifth word)
  · have first := header_setNext (header_any m y) wordNext
    have second := header_apart (k := 8) (v := y) first (.inr (show x+8+8 ≤ y by omega))
    have third := header_setPrevious second (show x < 2^64 by omega)
    have fifth := header_setFree b.free (header_setLength third wordRest)
    have sixth := header_apart (k := 8) (v := n) fifth (.inr (show x+8 ≤ y by omega))
    exact header_apart sixth (.inr (show x+24+1 ≤ y by omega))
  · intro z offX offY
    simp only [carved]
    repeat rw [store_apart (by omega)]

/-- The two headers, where the block behind is linked to the second one already. -/
theorem linked_parts {m : Mem} {a x y rest next : Nat} (before : Linked m 0 a x pre)
    (here : Header m x b (lastStart 32 0 a pre) next) (behind : Linked m y (x + 32 + b.len) 0 post) (free : b.free = true)
    (word : x + 32 + b.len < 2^64) (xIs : x = a + extent 32 pre) (yIs : y = x + 32 + n) (room : b.len = n + 32 + rest)
    (nextIs : next = after 0 (x + 32 + b.len) post) (wordNext : next < 2^64) :
    Linked (carved m x y n rest next true) 0 a 0 (pre ++ ⟨n,false⟩ :: ⟨rest,true⟩ :: post) := by
  have place : y + 32 + rest = x + 32 + b.len := by omega
  obtain ⟨first,second,same⟩ := carved_headers (n := n) y rest here (by omega) ⟨by omega,by omega,by omega,wordNext⟩
  rw [free] at first second same
  refine linked_mid.mpr ⟨?_,?_,?_,?_⟩
  · rw [← xIs]
    exact linked_congr before (fun z _ high => same z (by omega) (by omega))
  · rw [← xIs]
    exact yIs ▸ first
  · rw [← xIs,← yIs,place,← nextIs]
    exact second
  · rw [← xIs,← yIs,place]
    exact linked_congr behind (fun z low _ => same z (by omega) (by omega))

/-- Carving a block of a chain, after the block behind has learned its new neighbour. -/
theorem linked_carved {m : Mem} {a x : Nat} (y rest : Nat) (linked : Linked m 0 a 0 (pre ++ b :: post)) (free : b.free = true)
    (word : a + extent 32 (pre ++ b :: post) < 2^64) (based : 0 < a) (xIs : x = a + extent 32 pre)
    (yIs : y = x + 32 + n) (room : b.len = n + 32 + rest) :
    let next := after 0 (x + 32 + b.len) post
    let m' := carved (if next ≠ 0 then store m (next+16) 8 y else m) x y n rest next true
    Linked m' 0 a 0 (pre ++ ⟨n,false⟩ :: ⟨rest,true⟩ :: post) ∧
      ∀ z, OffHeaders a (pre ++ ⟨n,false⟩ :: ⟨rest,true⟩ :: post) z → m' z = m z := by
  rw [extent_append,extent_cons] at word
  obtain ⟨before,here,behind⟩ := linked_mid.mp linked
  have offX : ∀ {z}, OffHeaders a (pre ++ ⟨n,false⟩ :: ⟨rest,true⟩ :: post) z → z < x ∨ x+32 ≤ z :=
    fun off => xIs ▸ off _ _ starts_mid
  have offY : ∀ {z}, OffHeaders a (pre ++ ⟨n,false⟩ :: ⟨rest,true⟩ :: post) z → z < y ∨ y+32 ≤ z := by
    intro z off
    refine off y ⟨rest,true⟩ (starts_iff_append.mpr ⟨pre ++ [⟨n,false⟩],post,by simp,?_⟩)
    simp only [extent_append,extent_cons,extent_nil]
    omega
  rw [← xIs] at before here behind
  cases post with
  | nil =>
    intro next m'
    obtain ⟨_,_,same⟩ := carved_headers (n := n) y rest here (by omega)
      ⟨by omega,by omega,by omega,Nat.two_pow_pos 64⟩
    rw [free] at same
    exact ⟨linked_parts before here trivial free (by omega) xIs yIs room rfl (Nat.two_pow_pos 64),
      fun z off => same z (offX off) (offY off)⟩
  | cons c post =>
    intro next m'
    have notZero : next ≠ 0 := by simp only [next,after]; omega
    have nextIs : next = x + 32 + b.len := rfl
    rw [extent_cons] at word
    have here₁ := header_apart (k := 8) (v := y) here (.inl (show x+32 ≤ next+16 by omega))
    obtain ⟨_,_,same⟩ := carved_headers (n := n) y rest here₁ (by omega)
      ⟨by omega,by omega,by omega,by omega⟩
    rw [free] at same
    simp only [m',ne_eq,notZero,not_false_eq_true,if_true]
    refine ⟨linked_parts ?_ here₁ ?_ free (by omega) xIs yIs room rfl (by omega),?_⟩
    · exact linked_apart before (.inr (by omega))
    · exact linked_setPrevious behind (by omega)
    · intro z off
      have offNext : z < next ∨ next+32 ≤ z := by
        refine off next c (starts_iff_append.mpr ⟨pre ++ [⟨n,false⟩,⟨rest,true⟩],post,by simp,?_⟩)
        simp only [extent_append,extent_cons,extent_nil]
        omega
      rw [same z (offX off) (offY off),store_apart (by omega)]

/-- The last block after carving: the second part, where the block was the last one. -/
theorem lastStart_carve (a rest : Nat) (pre post : List Block) (room : b.len = n + 32 + rest) :
    (if lastStart 32 0 a (pre ++ b :: post) = a + extent 32 pre then a + extent 32 pre + n + 32
      else lastStart 32 0 a (pre ++ b :: post)) = lastStart 32 0 a (pre ++ ⟨n,false⟩ :: ⟨rest,true⟩ :: post) := by
  cases post with
  | nil =>
    rw [lastStart_concat,if_pos rfl,show ∀ c d : Block, pre ++ [c,d] = (pre ++ [c]) ++ [d] by simp,lastStart_concat,
      extent_append]
    simp only [extent_cons,extent_nil]
    omega
  | cons c post =>
    have last : ∀ before, lastStart 32 before (a + extent 32 pre) (b :: c :: post) =
        lastStart 32 0 (a + extent 32 pre + 32 + b.len) (c :: post) := fun _ => rfl
    have late : a + extent 32 pre + 32 + b.len ≤ lastStart 32 0 (a + extent 32 pre + 32 + b.len) (c :: post) :=
      lastStart_low (by simp)
    have place : a + extent 32 pre + 32 + n + 32 + rest = a + extent 32 pre + 32 + b.len := by omega
    rw [lastStart_append,last,if_neg (by omega),lastStart_append]
    simp only [lastStart,place]

/-- Marking a segment marks its block. -/
theorem setFree_chain {x : Nat} (free : Bool) (chain : Chain s (pre ++ b :: post)) (xIs : x = s.heapBase + extent 32 pre) :
    Chain (s.setFree x free) (pre ++ ⟨b.len,free⟩ :: post) ∧ Rewires s (s.setFree x free) (pre ++ b :: post) := by
  obtain ⟨before,here,behind⟩ := chain_mid chain
  rw [← xIs] at before here behind
  have linked : Linked (store s.memory (x+24) 1 free.toNat) 0 s.heapBase 0 (pre ++ ⟨b.len,free⟩ :: post) := by
    rw [linked_mid,← xIs]
    refine ⟨linked_apart before (.inr (by omega)),header_setFree free here,?_⟩
    exact linked_apart behind (.inl (show x+24+1 ≤ x+32+b.len by omega))
  refine ⟨chain.rewire (by simp) linked ?_ ?_,rfl,?_⟩
  · have last := chain.last
    rw [lastStart_append] at last ⊢
    exact last
  · simp only [extent_append,extent_cons]
  · intro z off
    have outside := off x b (starts_iff_append.mpr ⟨pre,post,rfl,xIs⟩)
    exact store_apart (by omega)

/-- Taking `n` bytes of a free segment carves its block. -/
theorem take_chain (chain : Chain s (pre ++ b :: post)) (free : b.free = true) (atLeast : 16 ≤ n) (fits : n ≤ b.len) :
    let s' := (if b.len > n then (s.Split (s.heapBase + extent 32 pre) n).2 else s).setFree (s.heapBase + extent 32 pre) false
    Chain s' (pre ++ (carve n b ++ post)) ∧ Rewires s s' (pre ++ (carve n b ++ post)) := by
  obtain ⟨before,here,behind⟩ := chain_mid chain
  have based := chain.based
  have bounded := chain.bounded
  rw [chain.ends,extent_append,extent_cons] at bounded
  set x := s.heapBase + extent 32 pre with xIs
  by_cases whole : n + 48 ≤ b.len ∧ b.len < n + 32 + 2^63
  · obtain ⟨room,signed_room⟩ := whole
    have links : after 0 (x + 32 + b.len) post = 0 ∨ x + 32 + b.len ≤ after 0 (x + 32 + b.len) post := by
      cases post with
      | nil => exact .inl rfl
      | cons c post => exact .inr (Nat.le_refl _)
    have done := split_eq here atLeast room signed_room (by omega) links
    obtain ⟨linked,payloads⟩ := linked_carved (n := n) (x + n + 32) (b.len - n - 32) chain.linked free
      (chain.ends ▸ chain.bounded) based xIs (by omega) (by omega)
    have larger : b.len > n := by omega
    rw [if_pos larger,done,carve,if_pos ⟨room,signed_room⟩,free]
    refine ⟨chain.rewire (by simp) linked ?_ ?_,rfl,payloads⟩
    · have parts := lastStart_carve s.heapBase (b.len - n - 32) pre post (show b.len = n + 32 + (b.len - n - 32) by omega)
      rw [← chain.last,← xIs] at parts
      exact parts
    · simp only [List.cons_append,List.nil_append,extent_append,extent_cons]
      omega
  · have same : (if b.len > n then (s.Split x n).2 else s) = s := by
      rw [split_refuses here.length fits (by omega) whole]
      split <;> rfl
    rw [same,carve,if_neg whole]
    obtain ⟨marked,rewires⟩ := setFree_chain false chain xIs
    exact ⟨marked,rewires.state,fun z off => rewires.payloads z (offHeaders_flag (b := ⟨b.len,false⟩) off)⟩

/-! ### Growing -/

/-- The pages that `length` bytes take, in bytes. -/
def pageRound (length : Nat) : Nat := (length + 4095) / 4096 * 4096

theorem mapPage_eq (s : Kernel) {n : Nat} (bound : n + PAGE_SIZE ≤ 2^64) : ∃ paging granted, s.mapPage n =
    { s with memory := fill s.memory n PAGE_SIZE (fun _ => 0#8), paging, granted } := by
  have zeros : pattern 0x00 = fun _ => 0#8 := by funext i; simp [pattern]
  refine ⟨(s.mapPage n).paging,(s.mapPage n).granted,?_⟩
  simp only [mapPage,memset64_eq bound,zeros]

/-- Mapping some pages clears them. -/
theorem mapPages_eq {e : Nat} (bound : e + n * PAGE_SIZE < 2^64) : ∃ paging granted, s.mapPages e n =
    { s with memory := fill s.memory e (n * PAGE_SIZE) (fun _ => 0#8), paging, granted } := by
  induction n generalizing s e with
  | zero =>
    refine ⟨s.paging,s.granted,?_⟩
    rw [mapPages,Nat.zero_mul,fill_zero]
  | succ n ih =>
    have size : (n+1) * PAGE_SIZE = PAGE_SIZE + n * PAGE_SIZE := by rw [Nat.add_mul]; omega
    obtain ⟨paging₁,granted₁,first⟩ := mapPage_eq s (n := e) (by omega)
    obtain ⟨paging₂,granted₂,later⟩ := @ih (s.mapPage e) (e + PAGE_SIZE) (by omega)
    refine ⟨paging₂,granted₂,?_⟩
    have pieces := fill_append s.memory e PAGE_SIZE (n * PAGE_SIZE) (fun _ => 0#8)
    rw [mapPages,wrap_of_lt (by omega),later,first]
    simp only [pieces,size]

theorem mapPages_heapEnd (s : Kernel) (e t n : Nat) :
    ({ s with heapEnd := e } : Kernel).mapPages t n = { s.mapPages t n with heapEnd := e } := by
  induction n generalizing s t with
  | zero => rfl
  | succ n ih =>
    have first : ({ s with heapEnd := e } : Kernel).mapPage t = { s.mapPage t with heapEnd := e } := rfl
    rw [mapPages,first,ih]
    rfl

/-- Growing maps pages from `heapEnd` on and moves it behind them. -/
theorem growHeap_mapPages (bound : s.heapEnd + n * PAGE_SIZE < 2^64) :
    s.growHeap n = { s.mapPages s.heapEnd n with heapEnd := s.heapEnd + n * PAGE_SIZE } := by
  induction n generalizing s with
  | zero =>
    rw [growHeap,Nat.zero_mul]
    rfl
  | succ n ih =>
    have size : (n+1) * PAGE_SIZE = PAGE_SIZE + n * PAGE_SIZE := by rw [Nat.add_mul]; omega
    have step : wrap (s.heapEnd + PAGE_SIZE) = s.heapEnd + PAGE_SIZE := wrap_of_lt (by omega)
    have same : (s.mapPage s.heapEnd).heapEnd = s.heapEnd := rfl
    rw [growHeap,same,step,ih (by simp only; omega),mapPages_heapEnd,mapPages,step,size,Nat.add_assoc]

/-- Growing by some pages clears them and moves `heapEnd` behind them. -/
theorem growHeap_eq (bound : s.heapEnd + n * PAGE_SIZE < 2^64) : ∃ paging granted, s.growHeap n =
    { s with
      memory := fill s.memory s.heapEnd (n * PAGE_SIZE) (fun _ => 0#8), heapEnd := s.heapEnd + n * PAGE_SIZE,
      paging, granted } := by
  obtain ⟨paging,granted,mapped⟩ := mapPages_eq bound
  exact ⟨paging,granted,by rw [growHeap_mapPages bound,mapped]⟩

/-- A new header behind the last block of a chain. -/
theorem linked_extend {m : Mem} {a x : Nat} (e rest : Nat) (linked : Linked m 0 a 0 (pre ++ [b])) (xIs : x = a + extent 32 pre)
    (eIs : e = x + 32 + b.len) (word : e + 32 + rest < 2^64) :
    let m' := store (store (store (store (store m (e+24) 1 true.toNat) (e+16) 8 x) (x+8) 8 e) (e+8) 8 0) e 8 rest
    Linked m' 0 a 0 (pre ++ [b,⟨rest,true⟩]) ∧ ∀ z, OffHeaders a (pre ++ [b,⟨rest,true⟩]) z → m' z = m z := by
  obtain ⟨before,here,_⟩ := linked_mid.mp linked
  rw [← xIs] at before here
  refine ⟨linked_mid.mpr ⟨?_,?_,?_,trivial⟩,?_⟩
  · rw [← xIs]
    exact linked_congr before (fun z _ high => by repeat rw [store_apart (by omega)])
  · rw [← xIs]
    have first := header_apart (k := 1) (v := true.toNat) here (.inl (show x+32 ≤ e+24 by omega))
    have second := header_apart (k := 8) (v := x) first (.inl (show x+32 ≤ e+16 by omega))
    have third := header_setNext (v := e) second (by omega)
    have fourth := header_apart (k := 8) (v := 0) third (.inl (show x+32 ≤ e+8 by omega))
    have fifth := header_apart (k := 8) (v := rest) fourth (.inl (show x+32 ≤ e by omega))
    exact eIs ▸ fifth
  · rw [← xIs,← eIs]
    have first := header_setPrevious (v := x) (header_setFree true (header_any m e)) (by omega)
    have second := header_apart (k := 8) (v := e) first (.inr (show x+8+8 ≤ e by omega))
    have third := header_setNext (v := 0) second (Nat.two_pow_pos 64)
    exact header_setLength third (by omega)
  · intro z off
    have offX := off x b (xIs ▸ starts_mid)
    have offE := off e ⟨rest,true⟩ (starts_iff_append.mpr ⟨pre ++ [b],[],by simp,by
      simp only [extent_append,extent_cons,extent_nil]
      omega⟩)
    repeat rw [store_apart (by omega)]

theorem pageRound_eq {length : Nat} (word : pageRound length < 2^64) :
    (if length % PAGE_SIZE ≠ 0 then wrap (length - length % PAGE_SIZE + PAGE_SIZE) else length) = pageRound length := by
  unfold pageRound PAGE_SIZE at *
  split
  · rw [wrap_of_lt (by omega)]
    omega
  · omega

/-- Below the end of the heap, a block that is put behind the last one has no header. -/
theorem offHeaders_extend {base y : Nat} {c : Block} (off : OffHeaders base (pre ++ [b]) y) (low : y < base + extent 32 (pre ++ [b])) :
    OffHeaders base (pre ++ [b,c]) y := by
  intro z c' starts
  have split : Starts 32 base ((pre ++ [b]) ++ [c]) z c' := by rwa [List.append_assoc]
  rcases starts_append.mp split with old | ⟨rfl,_⟩ | none
  · exact off z c' old
  · omega
  · exact none.elim

/-- Growing puts a free block behind the last one, and combines the two. -/
theorem expandHeap_chain (length : Nat) (chain : Chain s (pre ++ [b])) (initialized : s.HeapInitialized = true)
    (pos : 0 < length) (room : s.heapEnd + pageRound length < 2^64) :
    ∃ s', s.ExpandHeap length = some s' ∧ Chain s' (pre ++ glue 32 b [⟨pageRound length - 32,true⟩]) ∧ Keeps s s' ∧
      ∀ y, y < s.heapEnd → OffHeaders s.heapBase (pre ++ [b]) y → s'.memory y = s.memory y := by
  have size : pageRound length = pageRound length / 4096 * PAGE_SIZE := by unfold pageRound PAGE_SIZE; omega
  have large : 4096 ≤ pageRound length := by unfold pageRound; omega
  obtain ⟨paging,granted,grown⟩ := growHeap_eq (s := s) (n := pageRound length / 4096) (by rw [← size]; exact room)
  rw [← size] at grown
  have ends := chain.ends
  rw [extent_append,extent_cons,extent_nil] at ends
  set x := s.heapBase + extent 32 pre with xIs
  have last : s.LastSegment = x := by rw [chain.last,lastStart_concat]
  have cleared : Linked (fill s.memory s.heapEnd (pageRound length) (fun _ => 0#8)) 0 s.heapBase 0 (pre ++ [b]) :=
    linked_congr chain.linked (fun z _ high => fill_apart (by
      rw [extent_append,extent_cons,extent_nil] at high
      omega))
  obtain ⟨linked,payloads⟩ := linked_extend s.heapEnd (pageRound length - 32) cleared xIs (by omega) (by omega)
  set m := store (store (store (store (store (fill s.memory s.heapEnd (pageRound length) (fun _ => 0#8)) (s.heapEnd+24) 1
    true.toNat) (s.heapEnd+16) 8 x) (x+8) 8 s.heapEnd) (s.heapEnd+8) 8 0) s.heapEnd 8 (pageRound length - 32) with mIs
  set s₁ : Kernel :=
    { s with
      memory := m
      heapEnd := s.heapEnd + pageRound length
      LastSegment := s.heapEnd
      paging := paging
      granted := granted } with s₁Is
  have rest : sub (pageRound length) headerSize = pageRound length - 32 := by
    rw [headerSize,sub_of_le (by omega) (by omega)]
  have done : s.ExpandHeap length = some (s₁.CombineBackward s.heapEnd) := by
    have pages : pageRound length / PAGE_SIZE = pageRound length / 4096 := rfl
    simp only [ExpandHeap,initialized,Bool.not_true,Bool.false_eq_true,if_false,pageRound_eq (show pageRound length < 2^64 by omega),
      pages,grown,setFree,setPrevious,setNext,setLength,last,rest,s₁Is,mIs]
  have chain₁ : Chain s₁ (pre ++ b :: [⟨pageRound length - 32,true⟩]) := by
    refine ⟨by simp,linked,?_,?_,room,chain.based⟩
    · have parts : lastStart 32 0 s.heapBase ((pre ++ [b]) ++ [⟨pageRound length - 32,true⟩]) =
          s.heapBase + extent 32 (pre ++ [b]) := lastStart_concat
      rw [List.append_assoc,extent_append,extent_cons,extent_nil] at parts
      simp only [s₁Is]
      rw [List.cons_append,List.nil_append] at parts
      rw [parts]
      omega
    · simp only [s₁Is,extent_append,extent_cons,extent_nil]
      omega
  have place : s₁.heapBase + extent 32 pre + 32 + b.len = s.heapEnd := by
    simp only [s₁Is]
    omega
  obtain ⟨chain₂,rewires⟩ := combineBackward_chain chain₁
  rw [place] at chain₂ rewires
  refine ⟨_,done,chain₂,⟨rewires.keeps.heapBase,rewires.keeps.HeapInitialized,rewires.keeps.memoryLock,
    rewires.keeps.earlyMallocBase⟩,fun y low off => ?_⟩
  have off₁ : OffHeaders s.heapBase (pre ++ [b,⟨pageRound length - 32,true⟩]) y := by
    apply offHeaders_extend off
    rw [extent_append,extent_cons,extent_nil]
    omega
  exact ((rewires.payloads y off₁).trans (payloads y off₁)).trans (fill_apart (.inl low))

end Kernel
end WaifuOS
