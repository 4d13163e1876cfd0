import WaifuOS.NumberTexts
import Mathlib.Data.List.DropRight

/-!
`format`. The position of a character in `formatBuffer` is that of the string plus a running
offset, which a directive corrects by the length of what it inserts. The offset wraps and
comes out right (`formatLoop_inside`), so that a string of directives and plain characters is
expanded (`format_expands`). A `%` that starts no directive leaves a zero in the buffer, which ends
the text (`format_keeps_iff`), and nothing compares a position with the size of the
buffer (`format_bounded_iff`).
-/
namespace WaifuOS.cstr
open WaifuOS.Words WaifuOS.Bytes

/-- The characters `0` to `9`. -/
def IsDigit (c : BitVec 8) : Prop := 0x30 ≤ c ∧ c ≤ 0x39

instance (c : BitVec 8) : Decidable (IsDigit c) := inferInstanceAs (Decidable (_ ∧ _))

/-- The parameters `p0` to `p9`. -/
abbrev Params := Fin 10 → BitVec 64

/-- The parameter that `Insert` selects. -/
def param (p : Params) (chr : BitVec 8) : BitVec 64 := if IsDigit chr then p (Fin.ofNat 10 (chr.toNat - 0x30)) else 0

/-- The memory and the offset of a call, and the indices of `formatBuffer` that were written one by one. -/
structure Formatting where
  memory : Mem
  fBufferOffset : Nat
  written : List Nat

/-- `formatBuffer[index] = chr`. -/
def Formatting.put (S : Statics) (f : Formatting) (index : Nat) (chr : BitVec 8) : Formatting :=
  { f with memory := Function.update f.memory (wrap (S.formatBuffer + index)) chr, written := f.written ++ [index] }

/-- The loop of `Insert` from `y` on. -/
def insertLoop (S : Statics) (x pstr : Nat) (f : Formatting) (y : Nat) : Nat → Option Formatting
  | 0 => none
  | fuel+1 =>
    if f.memory (pstr + y) = 0 then some f
    else insertLoop S x pstr (f.put S (wrap (x + y + f.fBufferOffset)) (f.memory (pstr + y))) ((y+1) % 2^32) fuel

def Insert (S : Statics) (fuel : Nat) (p : Params) (UseHex : Bool) (x : Nat) (f : Formatting) (chr : BitVec 8) : Option Formatting := do
  let (pstr,memory) ← ToString S fuel f.memory (param p chr) UseHex
  let f ← insertLoop S x pstr { f with memory } 0 fuel
  let length ← strlen f.memory pstr fuel
  some { f with fBufferOffset := wrap (f.fBufferOffset + sub length 1) }

/-- The loop of `format` from `x` on. A `%` that starts no directive is passed by, and nothing is written for it. -/
def formatLoop (S : Statics) (fuel : Nat) (str : List (BitVec 8)) (p : Params) (x : Nat) (f : Formatting) : Nat → Option Formatting
  | 0 => none
  | rounds+1 =>
    if str.getD x 0 = 0 then some f
    else if str.getD x 0 = 0x25 then
      if str.getD (x+1) 0 = 0x78 then
        if IsDigit (str.getD (x+2) 0) then do
          let f ← Insert S fuel p true x f (str.getD (x+2) 0)
          formatLoop S fuel str p (x+2+1) { f with fBufferOffset := sub f.fBufferOffset 2 } rounds
        else formatLoop S fuel str p (x+1) f rounds
      else if IsDigit (str.getD (x+1) 0) then do
        let f ← Insert S fuel p false x f (str.getD (x+1) 0)
        formatLoop S fuel str p (x+1+1) { f with fBufferOffset := sub f.fBufferOffset 1 } rounds
      else formatLoop S fuel str p (x+1) f rounds
    else formatLoop S fuel str p (x+1) (f.put S (wrap (x + f.fBufferOffset)) (str.getD x 0)) rounds

/-- `format`, for the characters of a string before the terminator. The text is in `formatBuffer`. -/
def format (S : Statics) (fuel : Nat) (m : Mem) (str : List (BitVec 8)) (p : Params) : Option Formatting :=
  formatLoop S fuel str p 0 ⟨memset64 m S.formatBuffer 0 512,0,[]⟩ fuel

/-- What a format string consists of: plain characters, directives, and `%`s that start none. -/
inductive Token
  | literal (c : BitVec 8)
  | directive (hex : Bool) (digit : BitVec 8)
  | stray
deriving DecidableEq

/-- The parts of a format string. -/
def tokens : List (BitVec 8) → List Token
  | [] => []
  | c :: rest =>
    if c ≠ 0x25 then .literal c :: tokens rest
    else
      match rest with
      | [] => [.stray]
      | d :: later =>
        if IsDigit d then .directive false d :: tokens later
        else
          match later with
          | [] => .stray :: tokens [d]
          | e :: last => if d = 0x78 ∧ IsDigit e then .directive true e :: tokens last else .stray :: tokens (d :: e :: last)

/-- What a part stands for. A stray `%` stands for itself. -/
def Token.text (p : Params) : Token → List (BitVec 8)
  | .literal c => [c]
  | .directive hex digit => numeral (param p digit) hex
  | .stray => [0x25]

/-- A format string with every directive replaced by the text of its parameter. -/
def expansion (p : Params) (str : List (BitVec 8)) : List (BitVec 8) := (tokens str).flatMap (Token.text p)

/-- A `%` at `i` starts a directive. -/
def Directs (str : List (BitVec 8)) (i : Nat) : Prop :=
  IsDigit (str.getD (i+1) 0) ∨ str.getD (i+1) 0 = 0x78 ∧ IsDigit (str.getD (i+2) 0)

variable {S : Statics} {fuel x : Nat} {str : List (BitVec 8)} {p : Params} {f f' : Formatting}

theorem drop_getD (inside : x < str.length) : str.drop x = str.getD x 0 :: str.drop (x+1) := by
  rw [List.getD_eq_getElem _ _ inside]
  exact List.drop_eq_getElem_cons inside

theorem getD_drop (k i : Nat) : (str.drop k).getD i 0 = str.getD (k+i) 0 := by
  simp [List.getD_eq_getElem?_getD]

theorem tokens_literal {c : BitVec 8} {rest : List (BitVec 8)} (plain : c ≠ 0x25) :
    tokens (c :: rest) = .literal c :: tokens rest := by
  rw [tokens.eq_def]
  exact if_pos plain

theorem tokens_directive {d : BitVec 8} {later : List (BitVec 8)} (digit : IsDigit d) :
    tokens (0x25 :: d :: later) = .directive false d :: tokens later := by
  rw [tokens.eq_def]
  exact if_pos digit

theorem tokens_hex {e : BitVec 8} {last : List (BitVec 8)} (digit : IsDigit e) :
    tokens (0x25 :: 0x78 :: e :: last) = .directive true e :: tokens last := by
  rw [tokens.eq_def]
  exact if_pos (show (0x78 : BitVec 8) = 0x78 ∧ IsDigit e from ⟨rfl,digit⟩)

/-- A `%` that starts no directive. -/
theorem tokens_stray {rest : List (BitVec 8)} (digit : ¬ IsDigit (rest.getD 0 0))
    (hex : ¬ (rest.getD 0 0 = 0x78 ∧ IsDigit (rest.getD 1 0))) : tokens (0x25 :: rest) = .stray :: tokens rest := by
  cases rest with
  | nil => rfl
  | cons d later =>
    rw [List.getD_cons_zero] at digit hex
    cases later with
    | nil =>
      rw [tokens.eq_def]
      exact if_neg digit
    | cons e last =>
      rw [List.getD_cons_succ,List.getD_cons_zero] at hex
      rw [tokens.eq_def]
      exact (if_neg digit).trans (if_neg hex)

/-- A character that is compared with something else than 0 is in the string. -/
theorem inside_of_getD (some : str.getD x 0 ≠ 0) : x < str.length := by
  by_contra outside
  exact some (List.getD_eq_default _ _ (by omega))

theorem IsDigit.ne_zero {c : BitVec 8} (digit : IsDigit c) : c ≠ 0 := by
  rintro rfl
  exact absurd digit (by decide)

/-- A round at a `%` that starts a directive, of `k+1` characters. -/
theorem round_directive (S : Statics) (fuel : Nat) (p : Params) (mark : str.getD x 0 = 0x25) (directs : Directs str x) :
    ∃ hex d k, 0 < k ∧ x+k < str.length ∧ tokens (str.drop x) = .directive hex d :: tokens (str.drop (x+k+1)) ∧ ∀ f rounds,
      formatLoop S fuel str p x f (rounds+1) = (Insert S fuel p hex x f d).bind (fun f =>
        formatLoop S fuel str p (x+k+1) { f with fBufferOffset := sub f.fBufferOffset k } rounds) := by
  have nonzero : str.getD x 0 ≠ 0 := by rw [mark]; decide
  have inside := inside_of_getD nonzero
  rcases directs with digit | ⟨hex,digit⟩
  · have second := inside_of_getD digit.ne_zero
    have plain : str.getD (x+1) 0 ≠ 0x78 := fun hex => by rw [hex] at digit; exact absurd digit (by decide)
    refine ⟨false,str.getD (x+1) 0,1,by decide,second,?_,?_⟩
    · rw [drop_getD inside,mark,drop_getD second]
      exact tokens_directive digit
    · intro f rounds
      rw [formatLoop,if_neg nonzero,if_pos mark,if_neg plain,if_pos digit]
      rfl
  · have second : x+1 < str.length := inside_of_getD (by rw [hex]; decide)
    have third := inside_of_getD digit.ne_zero
    refine ⟨true,str.getD (x+2) 0,2,by decide,third,?_,?_⟩
    · rw [drop_getD inside,mark,drop_getD second,hex,drop_getD third]
      exact tokens_hex digit
    · intro f rounds
      rw [formatLoop,if_neg nonzero,if_pos mark,if_pos hex,if_pos digit]
      rfl

/-- A round at a `%` that starts none. -/
theorem round_stray (S : Statics) (fuel : Nat) (p : Params) (mark : str.getD x 0 = 0x25) (none : ¬ Directs str x) :
    tokens (str.drop x) = .stray :: tokens (str.drop (x+1)) ∧ ∀ f rounds,
      formatLoop S fuel str p x f (rounds+1) = formatLoop S fuel str p (x+1) f rounds := by
  have nonzero : str.getD x 0 ≠ 0 := by rw [mark]; decide
  obtain ⟨digit,hex⟩ := not_or.mp none
  constructor
  · rw [drop_getD (inside_of_getD nonzero),mark]
    exact tokens_stray (by rwa [getD_drop]) (by rwa [getD_drop,getD_drop])
  · intro f rounds
    rw [formatLoop,if_neg nonzero,if_pos mark]
    by_cases wide : str.getD (x+1) 0 = 0x78
    · rw [if_pos wide,if_neg (fun late => hex ⟨wide,late⟩)]
    · rw [if_neg wide,if_neg digit]

/-- What a round of `format` does: it copies a character, inserts a parameter or passes a `%` by. -/
theorem round_cases (S : Statics) (fuel : Nat) (p : Params) (inside : x < str.length) (proper : 0 ∉ str) :
    (∃ c, c ≠ 0 ∧ tokens (str.drop x) = .literal c :: tokens (str.drop (x+1)) ∧ ∀ f rounds,
      formatLoop S fuel str p x f (rounds+1) = formatLoop S fuel str p (x+1) (f.put S (wrap (x + f.fBufferOffset)) c) rounds) ∨
    (∃ hex d k, 0 < k ∧ x+k < str.length ∧ tokens (str.drop x) = .directive hex d :: tokens (str.drop (x+k+1)) ∧ ∀ f rounds,
      formatLoop S fuel str p x f (rounds+1) = (Insert S fuel p hex x f d).bind (fun f =>
        formatLoop S fuel str p (x+k+1) { f with fBufferOffset := sub f.fBufferOffset k } rounds)) ∨
    (str.getD x 0 = 0x25 ∧ ¬ Directs str x ∧ tokens (str.drop x) = .stray :: tokens (str.drop (x+1)) ∧ ∀ f rounds,
      formatLoop S fuel str p x f (rounds+1) = formatLoop S fuel str p (x+1) f rounds) := by
  have nonzero : str.getD x 0 ≠ 0 := by
    rw [List.getD_eq_getElem _ _ inside]
    exact fun zero => proper (zero ▸ List.getElem_mem inside)
  by_cases mark : str.getD x 0 = 0x25
  · by_cases directs : Directs str x
    · exact Or.inr (Or.inl (round_directive S fuel p mark directs))
    · exact Or.inr (Or.inr ⟨mark,directs,round_stray S fuel p mark directs⟩)
  · refine Or.inl ⟨_,nonzero,?_,?_⟩
    · rw [drop_getD inside]
      exact tokens_literal mark
    · intro f rounds
      rw [formatLoop,if_neg nonzero,if_neg mark]

/-- A position that is outside of `formatBuffer` was written. -/
def Formatting.Overflowed (f : Formatting) : Prop := ∃ i ∈ f.written, 512 ≤ i

/-- What was written stays written. -/
theorem insertLoop_written {pstr y : Nat} (run : insertLoop S x pstr f y fuel = some f') : f.written ⊆ f'.written := by
  induction fuel generalizing f y with
  | zero => cases run
  | succ fuel ih =>
    rw [insertLoop] at run
    split at run
    · cases run
      exact List.Subset.refl _
    · exact fun i member => ih run (List.mem_append_left _ member)

theorem insert_written {hex : Bool} {chr : BitVec 8} (run : Insert S fuel p hex x f chr = some f') : f.written ⊆ f'.written := by
  simp only [Insert,Option.bind_eq_bind,Option.bind_eq_some_iff] at run
  obtain ⟨⟨pstr,memory⟩,-,g,looped,length,-,same⟩ := run
  cases same
  exact fun i member => insertLoop_written looped member

/-- The position that a character gets is the length of what is there before it. -/
theorem position_eq (pos x y : Nat) : wrap (x + y + sub pos x) = wrap (pos + y) := by
  simp only [wrap,sub]
  omega

/-- A text that is apart from `formatBuffer` is kept by a write to it. -/
theorem text_put {pstr i : Nat} {s : List (BitVec 8)} {chr : BitVec 8} (text : Text f.memory pstr s)
    (apart : Apart pstr 32 S.formatBuffer 512) (short : s.length < 24) (small : i < 512) :
    Text (f.put S i chr).memory pstr s := by
  have inside := S.format_inside
  simp only [Apart] at apart
  apply text.congr
  intro j upTo
  rw [Formatting.put,wrap_of_lt (by omega)]
  exact Function.update_of_ne (by omega) _ _

/-- `Insert` copies the rest of a text behind what is there. -/
theorem insertLoop_inside {pstr y pos : Nat} {s : List (BitVec 8)} (text : Text f.memory pstr s)
    (apart : Apart pstr 32 S.formatBuffer 512) (offset : f.fBufferOffset = sub pos x) (short : s.length < 24)
    (upTo : y ≤ s.length) (fits : pos + s.length ≤ 512) (enough : s.length - y < fuel) :
    insertLoop S x pstr f y fuel = some { f with
      memory := place f.memory (S.formatBuffer + (pos + y)) (s.drop y)
      written := f.written ++ List.range' (pos + y) (s.length - y) } := by
  have inside := S.format_inside
  induction fuel generalizing f y with
  | zero => omega
  | succ fuel ih =>
    rw [insertLoop]
    by_cases last : y = s.length
    · subst last
      rw [if_pos text.terminated,List.drop_length,place_nil,Nat.sub_self,List.range'_zero,List.append_nil]
    · have char := text.2 y (by omega)
      have rest : s.drop y = s.getD y 0 :: s.drop (y+1) := drop_getD (by omega)
      have indices : List.range' (pos + y) (s.length - y) = (pos + y) :: List.range' (pos + (y+1)) (s.length - (y+1)) := by
        rw [show s.length - y = s.length - (y+1) + 1 by omega]
        rfl
      have later := ih (f := f.put S (pos + y) (s.getD y 0)) (y := y+1) (text_put text apart short (by omega)) offset
        (by omega) (by omega)
      rw [if_neg (text.getD_ne (by omega)),offset,position_eq,wrap_of_lt (by omega),Nat.mod_eq_of_lt (by omega),char,later,
        indices,rest,← place_cons,Formatting.put,wrap_of_lt (by omega)]
      simp only [List.append_assoc,List.singleton_append,Nat.add_assoc,offset]

/-- A text that does not fit is written beyond the end. -/
theorem insertLoop_outside {pstr y pos : Nat} {s : List (BitVec 8)} (text : Text f.memory pstr s)
    (apart : Apart pstr 32 S.formatBuffer 512) (offset : f.fBufferOffset = sub pos x) (short : s.length < 24)
    (more : y < s.length) (spills : 512 < pos + s.length) (next : pos + y ≤ 512 ∨ y = 0) (word : pos + y < 2^64)
    (run : insertLoop S x pstr f y fuel = some f') : f'.Overflowed := by
  induction fuel generalizing f y with
  | zero => cases run
  | succ fuel ih =>
    rw [insertLoop,if_neg (text.getD_ne more),offset,position_eq,wrap_of_lt word,Nat.mod_eq_of_lt (by omega)] at run
    by_cases beyond : 512 ≤ pos + y
    · exact ⟨pos+y,insertLoop_written run (List.mem_append_right _ (List.mem_singleton_self _)),beyond⟩
    · exact ih (text_put text apart short (by omega)) offset (by omega) (by omega) (by omega) run

/-- What is written behind what is there. -/
theorem buffer_append {m : Mem} {a : Nat} {before s : List (BitVec 8)} (buffer : ∀ i < 512, m (a+i) = before.getD i 0)
    {i : Nat} (small : i < 512) : place m (a + before.length) s (a+i) = (before ++ s).getD i 0 := by
  by_cases early : i < before.length
  · rw [place_apart (by omega),buffer i small,List.getD_append _ _ _ _ early]
  · rw [List.getD_append_right _ _ _ _ (by omega)]
    by_cases late : i < before.length + s.length
    · rw [show a+i = a + before.length + (i - before.length) by omega,place_at (by omega)]
    · rw [place_apart (by omega),buffer i small,List.getD_eq_default _ _ (by omega),List.getD_eq_default _ _ (by omega)]

theorem numeral_proper (n : BitVec 64) (hex : Bool) : 0 ∉ numeral n hex := by
  obtain ⟨p,m',-,left⟩ := toString_told (S := packed) (m := fun _ => 0) (n := n) hex (Nat.le_refl 24)
  exact left.text.1

theorem numeral_nonempty (n : BitVec 64) (hex : Bool) : 0 < (numeral n hex).length := by
  cases hex with
  | true => exact Nat.succ_pos _
  | false =>
    rw [numeral_decimal]
    split
    · exact Nat.one_pos
    · rename_i nonzero
      split
      · exact Nat.succ_pos _
      · rw [List.length_reverse,List.length_map,List.length_pos_iff,ne_eq,Nat.digits_eq_nil_iff_eq_zero]
        exact fun same => nonzero (BitVec.eq_of_toInt_eq (Int.natAbs_eq_zero.mp same))

/-- A parameter that fits is inserted. -/
theorem insert_inside {hex : Bool} {chr : BitVec 8} {before : List (BitVec 8)} (offset : f.fBufferOffset = sub before.length x)
    (buffer : ∀ i < 512, f.memory (S.formatBuffer + i) = before.getD i 0)
    (fits : before.length + (numeral (param p chr) hex).length ≤ 512) (enough : 24 ≤ fuel) :
    ∃ memory, Insert S fuel p hex x f chr = some ⟨memory,
        wrap (sub before.length x + sub (numeral (param p chr) hex).length 1),
        f.written ++ List.range' before.length (numeral (param p chr) hex).length⟩ ∧
      ∀ i < 512, memory (S.formatBuffer + i) = (before ++ numeral (param p chr) hex).getD i 0 := by
  obtain ⟨pstr,m',told,left⟩ := toString_told (S := S) (m := f.memory) (n := param p chr) hex enough
  have apart := left.apart
  have looped : insertLoop S x pstr { f with memory := m' } 0 fuel = _ := insertLoop_inside left.text apart offset left.short
    (Nat.zero_le _) fits (by have short := left.short; omega)
  rw [List.drop_zero,Nat.sub_zero,Nat.add_zero,offset] at looped
  generalize numeral (param p chr) hex = s at *
  have kept : Text (place m' (S.formatBuffer + before.length) s) pstr s :=
    left.text.congr (fun i upTo => place_apart (by have short := left.short; unfold Apart at apart; omega))
  have length := strlen_text kept (show s.length < fuel by have short := left.short; omega)
  refine ⟨place m' (S.formatBuffer + before.length) s,?_,?_⟩
  · simp only [Insert,told,Option.bind_eq_bind,Option.bind_some]
    rw [offset,looped]
    simp only [Option.bind_some,length]
  · intro i small
    have kept' : ∀ i < 512, m' (S.formatBuffer + i) = before.getD i 0 := fun i small => by
      rw [left.formatBuffer small,buffer i small]
    exact buffer_append kept' small

/-- A parameter that does not fit is written beyond the end. -/
theorem insert_outside {hex : Bool} {chr : BitVec 8} {pos : Nat} (offset : f.fBufferOffset = sub pos x)
    (spills : 512 < pos + (numeral (param p chr) hex).length) (word : pos < 2^64) (enough : 24 ≤ fuel)
    (run : Insert S fuel p hex x f chr = some f') : f'.Overflowed := by
  obtain ⟨pstr,m',told,left⟩ := toString_told (S := S) (m := f.memory) (n := param p chr) hex enough
  simp only [Insert,told,Option.bind_eq_bind,Option.bind_some,Option.bind_eq_some_iff] at run
  obtain ⟨g,looped,length,-,same⟩ := run
  cases same
  have beyond : g.Overflowed := insertLoop_outside (f := { f with memory := m' }) (y := 0) left.text left.apart offset
    left.short (numeral_nonempty _ _) spills (Or.inr rfl) word looped
  exact beyond

/-- What a part leaves in the buffer: nothing is written for a stray `%`, whose place stays 0. -/
def Token.laid (p : Params) : Token → List (BitVec 8)
  | .literal c => [c]
  | .directive hex digit => numeral (param p digit) hex
  | .stray => [0]

/-- The loop at `x`, with `before` in the buffer and nothing written beyond its end. -/
structure Along (S : Statics) (before : List (BitVec 8)) (x : Nat) (f : Formatting) : Prop where
  offset : f.fBufferOffset = sub before.length x
  buffer : ∀ i < 512, f.memory (S.formatBuffer + i) = before.getD i 0
  inside : ∀ i ∈ f.written, i < 512
  reach : before.length ≤ 512 + x
  low : ∀ i, 512 ≤ i → before.getD i 0 = 0

section
variable {before : List (BitVec 8)}

/-- The place of the next character is behind what is there. -/
theorem Along.position (along : Along S before x f) (word : before.length < 2^64) : wrap (x + f.fBufferOffset) = before.length := by
  rw [along.offset]
  simp only [wrap,sub]
  omega

theorem Along.literal {c : BitVec 8} (along : Along S before x f) (fits : before.length < 512) :
    Along S (before ++ [c]) (x+1) (f.put S (wrap (x + f.fBufferOffset)) c) := by
  have bound := S.format_inside
  rw [along.position (by omega)]
  refine ⟨?_,?_,?_,?_,?_⟩
  · rw [List.length_append,List.length_singleton]
    apply along.offset.trans
    simp only [sub]
    omega
  · intro i small
    rw [← buffer_append along.buffer small,Formatting.put,wrap_of_lt (by omega),place_singleton]
  · intro i member
    rcases List.mem_append.mp member with old | new
    · exact along.inside i old
    · rw [List.mem_singleton.mp new]
      exact fits
  · have reach := along.reach
    rw [List.length_append,List.length_singleton]
    omega
  · intro i beyond
    exact List.getD_eq_default _ _ (by rw [List.length_append,List.length_singleton]; omega)

/-- A byte that stays 0 behind what is there. -/
theorem getD_concat_zero (before : List (BitVec 8)) (i : Nat) : (before ++ [0]).getD i 0 = before.getD i 0 := by
  by_cases early : i < before.length
  · rw [List.getD_append _ _ _ _ early]
  · rw [List.getD_append_right _ _ _ _ (by omega),List.getD_eq_default before _ (by omega)]
    cases i - before.length <;> rfl

theorem Along.stray (along : Along S before x f) : Along S (before ++ [0]) (x+1) f := by
  refine ⟨?_,?_,along.inside,?_,?_⟩
  · rw [List.length_append,List.length_singleton]
    apply along.offset.trans
    simp only [sub]
    omega
  · intro i small
    rw [along.buffer i small,getD_concat_zero]
  · have reach := along.reach
    rw [List.length_append,List.length_singleton]
    omega
  · intro i beyond
    rw [getD_concat_zero,along.low i beyond]

/-- After a directive of `k+1` characters, the offset is that of what follows it. -/
theorem Along.directive {hex : Bool} {d : BitVec 8} {k : Nat} (along : Along S before x f)
    (fits : before.length + (numeral (param p d) hex).length ≤ 512) (enough : 24 ≤ fuel) :
    ∃ g, Insert S fuel p hex x f d = some g ∧
      Along S (before ++ numeral (param p d) hex) (x+k+1) { g with fBufferOffset := sub g.fBufferOffset k } := by
  obtain ⟨memory,run,buffer⟩ := insert_inside along.offset along.buffer fits enough
  have some := numeral_nonempty (param p d) hex
  refine ⟨_,run,?_,buffer,?_,?_,?_⟩
  · rw [List.length_append]
    simp only
    simp only [wrap,sub]
    omega
  · intro i member
    rcases List.mem_append.mp member with old | new
    · exact along.inside i old
    · have range := List.mem_range'_1.mp new
      omega
  · rw [List.length_append]
    omega
  · intro i beyond
    exact List.getD_eq_default _ _ (by rw [List.length_append]; omega)

theorem formatLoop_written {rounds : Nat} (run : formatLoop S fuel str p x f rounds = some f') : f.written ⊆ f'.written := by
  induction rounds generalizing x f with
  | zero => cases run
  | succ rounds ih =>
    rw [formatLoop] at run
    split at run
    · cases run
      exact List.Subset.refl _
    · split at run
      · split at run
        · split at run
          · obtain ⟨g,inserted,later⟩ := Option.bind_eq_some_iff.mp run
            exact fun i member => ih later (insert_written inserted member)
          · exact ih run
        · split at run
          · obtain ⟨g,inserted,later⟩ := Option.bind_eq_some_iff.mp run
            exact fun i member => ih later (insert_written inserted member)
          · exact ih run
      · exact fun i member => ih run (List.mem_append_left _ member)

/-- A string whose parts fit is laid out in the buffer. -/
theorem formatLoop_inside {rounds : Nat} (proper : 0 ∉ str) (along : Along S before x f) (enough : 24 ≤ fuel)
    (upTo : x ≤ str.length) (more : str.length - x < rounds)
    (fits : ∀ i, 512 ≤ i → (before ++ (tokens (str.drop x)).flatMap (Token.laid p)).getD i 0 = 0) :
    ∃ f', formatLoop S fuel str p x f rounds = some f' ∧ (∀ i ∈ f'.written, i < 512) ∧
      ∀ i < 512, f'.memory (S.formatBuffer + i) = (before ++ (tokens (str.drop x)).flatMap (Token.laid p)).getD i 0 := by
  induction rounds generalizing x f before with
  | zero => omega
  | succ rounds ih =>
    by_cases last : x = str.length
    · subst last
      rw [List.drop_length,tokens,List.flatMap_nil,List.append_nil]
      refine ⟨f,?_,along.inside,along.buffer⟩
      rw [formatLoop,if_pos (List.getD_eq_default _ _ (Nat.le_refl _))]
    · rcases round_cases S fuel p (show x < str.length by omega) proper with
        ⟨c,nonzero,parts,round⟩ | ⟨hex,d,k,positive,room,parts,round⟩ | ⟨-,-,parts,round⟩
      · rw [parts,List.flatMap_cons,← List.append_assoc] at fits ⊢
        have place : before.length < 512 := by
          by_contra beyond
          have zero := fits before.length (by omega)
          rw [List.append_assoc,List.getD_append_right _ _ _ _ (Nat.le_refl _),Nat.sub_self] at zero
          exact nonzero zero
        rw [round]
        exact ih (along.literal place) (by omega) (by omega) fits
      · rw [parts,List.flatMap_cons,← List.append_assoc] at fits ⊢
        have some := numeral_nonempty (param p d) hex
        have place : before.length + (numeral (param p d) hex).length ≤ 512 := by
          by_contra beyond
          have zero := fits (before.length + ((numeral (param p d) hex).length - 1)) (by omega)
          have proper := numeral_proper (param p d) hex
          rw [List.append_assoc,List.getD_append_right _ _ _ _ (by omega),Nat.add_sub_cancel_left,Token.laid,
            List.getD_append _ _ _ _ (by omega),List.getD_eq_getElem _ _ (by omega)] at zero
          exact proper (zero ▸ List.getElem_mem _)
        obtain ⟨g,inserted,along'⟩ := along.directive (k := k) place enough
        rw [round,inserted]
        exact ih along' (by omega) (by omega) fits
      · rw [parts,List.flatMap_cons,← List.append_assoc] at fits ⊢
        rw [round]
        exact ih along.stray (by omega) (by omega) fits

/-- A string whose parts do not fit is written beyond the end. -/
theorem formatLoop_outside {rounds : Nat} (proper : 0 ∉ str) (along : Along S before x f) (enough : 24 ≤ fuel)
    (room : str.length + 513 ≤ 2^64) (upTo : x ≤ str.length)
    (spills : ∃ i, 512 ≤ i ∧ (before ++ (tokens (str.drop x)).flatMap (Token.laid p)).getD i 0 ≠ 0)
    (run : formatLoop S fuel str p x f rounds = some f') : f'.Overflowed := by
  induction rounds generalizing x f before with
  | zero => cases run
  | succ rounds ih =>
    have reach := along.reach
    by_cases last : x = str.length
    · subst last
      obtain ⟨i,beyond,some⟩ := spills
      rw [List.drop_length,tokens,List.flatMap_nil,List.append_nil] at some
      exact absurd (along.low i beyond) some
    · rcases round_cases S fuel p (show x < str.length by omega) proper with
        ⟨c,nonzero,parts,round⟩ | ⟨hex,d,k,positive,room,parts,round⟩ | ⟨-,-,parts,round⟩
      · rw [parts,List.flatMap_cons,← List.append_assoc] at spills
        rw [round] at run
        by_cases place : before.length < 512
        · exact ih (along.literal place) (by omega) spills run
        · refine ⟨before.length,formatLoop_written run ?_,by omega⟩
          rw [along.position (by omega)]
          exact List.mem_append_right _ (List.mem_singleton_self _)
      · rw [parts,List.flatMap_cons,← List.append_assoc] at spills
        rw [round] at run
        by_cases place : before.length + (numeral (param p d) hex).length ≤ 512
        · obtain ⟨g,inserted,along'⟩ := along.directive (k := k) place enough
          rw [inserted] at run
          exact ih along' (by omega) spills run
        · obtain ⟨g,inserted,later⟩ := Option.bind_eq_some_iff.mp run
          obtain ⟨i,member,beyond⟩ := insert_outside along.offset (by omega) (by omega) enough inserted
          exact ⟨i,formatLoop_written later member,beyond⟩
      · rw [parts,List.flatMap_cons,← List.append_assoc] at spills
        rw [round] at run
        exact ih along.stray (by omega) spills run

end

/-- What a call leaves in the buffer, where it fits. -/
def layout (p : Params) (str : List (BitVec 8)) : List (BitVec 8) := (tokens str).flatMap (Token.laid p)

theorem along_start (S : Statics) (m : Mem) : Along S [] 0 ⟨memset64 m S.formatBuffer 0 512,0,[]⟩ := by
  refine ⟨?_,?_,(fun i member => nomatch member),Nat.zero_le _,fun i beyond => rfl⟩
  · rw [List.length_nil]
    simp only [sub]
    rfl
  · intro i small
    rw [memset64_zero S.format_inside]
    show fill m S.formatBuffer 512 (fun _ => 0) (S.formatBuffer + i) = 0
    rw [fill_at (by omega) (by omega)]

theorem format_inside (S : Statics) (m : Mem) (proper : 0 ∉ str) (fits : ∀ i, 512 ≤ i → (layout p str).getD i 0 = 0)
    (enough : str.length + 24 ≤ fuel) :
    ∃ f, format S fuel m str p = some f ∧ (∀ i ∈ f.written, i < 512) ∧
      ∀ i < 512, f.memory (S.formatBuffer + i) = (layout p str).getD i 0 :=
  formatLoop_inside proper (along_start S m) (by omega) (Nat.zero_le _) (by omega) fits

theorem format_outside (proper : 0 ∉ str) (room : str.length + 513 ≤ 2^64) (enough : 24 ≤ fuel) {m : Mem}
    (spills : ∃ i, 512 ≤ i ∧ (layout p str).getD i 0 ≠ 0) (run : format S fuel m str p = some f) : f.Overflowed :=
  formatLoop_outside proper (along_start S m) enough room (Nat.zero_le _) spills run

/-! ### Directives and plain characters only -/

/-- What holds of characters, of directives and of every `%` that starts none holds of all parts of a string. -/
theorem tokens_forall {P : Token → Prop} (proper : 0 ∉ str) (literal : ∀ c, c ≠ 0 → P (.literal c))
    (directive : ∀ hex d, P (.directive hex d))
    (stray : ∀ x < str.length, str.getD x 0 = 0x25 → ¬ Directs str x → P .stray) : ∀ t ∈ tokens str, P t := by
  suffices ∀ k x, str.length - x = k → ∀ t ∈ tokens (str.drop x), P t from this _ 0 rfl
  intro k
  induction k using Nat.strong_induction_on with
  | _ k ih =>
    intro x left t member
    by_cases inside : x < str.length
    · rcases round_cases packed 0 (fun _ => 0) inside proper with
        ⟨c,nonzero,parts,-⟩ | ⟨hex,d,j,positive,room,parts,-⟩ | ⟨mark,none,parts,-⟩
      · rw [parts] at member
        rcases List.mem_cons.mp member with rfl | later
        · exact literal c nonzero
        · exact ih _ (by omega) (x+1) rfl t later
      · rw [parts] at member
        rcases List.mem_cons.mp member with rfl | later
        · exact directive hex d
        · exact ih _ (by omega) (x+j+1) rfl t later
      · rw [parts] at member
        rcases List.mem_cons.mp member with rfl | later
        · exact stray x inside mark none
        · exact ih _ (by omega) (x+1) rfl t later
    · rw [List.drop_eq_nil_iff.mpr (by omega)] at member
      cases member

/-- No `%` is left over in a string where each starts a directive. -/
theorem stray_absent (proper : 0 ∉ str) (wellFormed : ∀ i < str.length, str.getD i 0 = 0x25 → Directs str i) :
    Token.stray ∉ tokens str := by
  intro member
  exact tokens_forall (P := (· ≠ .stray)) proper (fun c _ => nofun) (fun hex d => nofun)
    (fun x inside mark none => absurd (wellFormed x inside mark) none) _ member rfl

/-- What a part shows has no terminator in it. -/
theorem text_proper (proper : 0 ∉ str) : ∀ t ∈ tokens str, 0 ∉ t.text p := by
  apply tokens_forall (P := fun t => 0 ∉ t.text p) proper
  · intro c nonzero member
    exact nonzero (List.mem_singleton.mp member).symm
  · intro hex d
    exact numeral_proper _ hex
  · intro x inside mark none
    exact (by decide : (0 : BitVec 8) ∉ [0x25])

theorem laid_eq_text {t : Token} (ordinary : t ≠ .stray) : t.laid p = t.text p := by
  cases t with
  | stray => exact absurd rfl ordinary
  | literal c => rfl
  | directive hex d => rfl

theorem laid_length (p : Params) (t : Token) : (t.laid p).length = (t.text p).length := by
  cases t <;> rfl

theorem layout_length (p : Params) (ts : List Token) : (ts.flatMap (Token.laid p)).length = (ts.flatMap (Token.text p)).length := by
  induction ts with
  | nil => rfl
  | cons t ts ih => rw [List.flatMap_cons,List.flatMap_cons,List.length_append,List.length_append,ih,laid_length]

theorem flatMap_laid {ts : List Token} (ordinary : Token.stray ∉ ts) : ts.flatMap (Token.laid p) = ts.flatMap (Token.text p) :=
  List.flatMap_congr (fun _ member => laid_eq_text (fun same => ordinary (same ▸ member)))

/-- A string in which each `%` starts a directive, and whose expansion fits, is expanded: each directive becomes the
    text that `ToString` gives for its parameter. -/
theorem format_expands (S : Statics) (m : Mem) (p : Params) (proper : 0 ∉ str)
    (wellFormed : ∀ i < str.length, str.getD i 0 = 0x25 → Directs str i) (fits : (expansion p str).length ≤ 511)
    (enough : str.length + 24 ≤ fuel) :
    (∀ m n hex, ∃ pstr m', ToString S fuel m n hex = some (pstr,m') ∧ Text m' pstr (numeral n hex)) ∧
      ∃ f, format S fuel m str p = some f ∧ Text f.memory S.formatBuffer (expansion p str) := by
  have ordinary := stray_absent proper wellFormed
  have same : layout p str = expansion p str := flatMap_laid ordinary
  constructor
  · intro m n hex
    obtain ⟨pstr,m',told,left⟩ := toString_told (S := S) (m := m) (n := n) hex (show 24 ≤ fuel by omega)
    exact ⟨pstr,m',told,left.text⟩
  · obtain ⟨f,run,-,buffer⟩ := format_inside (p := p) S m proper
      (fun i beyond => by rw [same]; exact List.getD_eq_default _ _ (by omega)) enough
    refine ⟨f,run,?_,?_⟩
    · intro member
      obtain ⟨t,part,zero⟩ := List.mem_flatMap.mp member
      exact text_proper proper t part zero
    · intro i upTo
      rw [buffer i (by omega),same]

/-- The text `%0` of the parameter 5. -/
theorem format_expands_five : 0 ∉ [0x25,0x30] ∧ (∀ i < [0x25,0x30].length, [0x25,0x30].getD i 0 = 0x25 → Directs [0x25,0x30] i) ∧
    (∀ m n hex, ∃ pstr m', ToString packed 26 m n hex = some (pstr,m') ∧ Text m' pstr (numeral n hex)) ∧
      ∃ f, format packed 26 (fun _ => 0) [0x25,0x30] (fun _ => 5) = some f ∧
        Text f.memory packed.formatBuffer (expansion (fun _ => 5) [0x25,0x30]) :=
  ⟨by decide,by unfold Directs; decide,
    format_expands packed (fun _ => 0) (fun _ => 5) (by decide) (by unfold Directs; decide) (by decide) (by decide)⟩

/-! ### Stray `%`s -/

/-- The parts before the first `%` that starts no directive. -/
def beforeStray (str : List (BitVec 8)) : List Token := (tokens str).takeWhile (· ≠ .stray)

/-- The parts behind it. -/
def behindStray (str : List (BitVec 8)) : List Token := ((tokens str).dropWhile (· ≠ .stray)).tail

/-- The plain characters among parts. -/
def literals (ts : List Token) : List (BitVec 8) := ts.flatMap (fun t => match t with | .literal c => [c] | _ => [])

/-- The plain characters and the parameters among parts. -/
def shown (p : Params) (ts : List Token) : List (BitVec 8) :=
  ts.flatMap (fun t => match t with | .stray => [] | t => t.text p)

/-- `r` shows what stands before the first stray `%`, and behind that `text` in its order. -/
def Keeps (p : Params) (str text r : List (BitVec 8)) : Prop :=
  ∃ behind, r = (beforeStray str).flatMap (Token.text p) ++ behind ∧ text.Sublist behind

theorem tokens_parts (str : List (BitVec 8)) : Token.stray ∉ beforeStray str ∧
    (tokens str = beforeStray str ∧ behindStray str = [] ∨ tokens str = beforeStray str ++ .stray :: behindStray str) := by
  have whole := List.takeWhile_append_dropWhile (p := fun t => decide (t ≠ Token.stray)) (l := tokens str)
  constructor
  · intro member
    have other : decide (Token.stray ≠ .stray) = true := List.mem_takeWhile_imp (p := fun t => decide (t ≠ Token.stray)) member
    exact absurd other (by decide)
  · simp only [beforeStray,behindStray]
    cases rest : (tokens str).dropWhile (· ≠ .stray) with
    | nil =>
      rw [rest,List.append_nil] at whole
      exact Or.inl ⟨whole.symm,rfl⟩
    | cons t after =>
      have first := List.head_dropWhile_not (l := tokens str) (fun t => decide (t ≠ Token.stray)) (by rw [rest]; exact List.cons_ne_nil _ _)
      simp only [rest,List.head_cons,decide_eq_false_iff_not,ne_eq,not_not] at first
      rw [rest,first] at whole
      exact Or.inr whole.symm

/-- The text of a call ends at the first stray `%`. -/
theorem format_text (S : Statics) (m : Mem) (p : Params) (proper : 0 ∉ str) (fits : (expansion p str).length ≤ 511)
    (enough : str.length + 24 ≤ fuel) :
    ∃ f, format S fuel m str p = some f ∧ Text f.memory S.formatBuffer ((beforeStray str).flatMap (Token.text p)) := by
  obtain ⟨ordinary,parts⟩ := tokens_parts str
  have size : (layout p str).length ≤ 511 := by rwa [layout,layout_length]
  obtain ⟨f,run,-,buffer⟩ := format_inside (p := p) S m proper
    (fun i beyond => List.getD_eq_default _ _ (by omega)) enough
  have clean : 0 ∉ (beforeStray str).flatMap (Token.text p) := by
    intro member
    obtain ⟨t,part,zero⟩ := List.mem_flatMap.mp member
    exact text_proper proper t (List.takeWhile_subset _ part) zero
  -- Behind the first parts there is the zero of the stray `%`, or what was cleared.
  have cut : ∃ rest, layout p str = (beforeStray str).flatMap (Token.text p) ++ rest ∧ rest.getD 0 0 = 0 := by
    rcases parts with ⟨whole,-⟩ | whole
    · exact ⟨[],by rw [layout,whole,flatMap_laid ordinary,List.append_nil],rfl⟩
    · exact ⟨0 :: (behindStray str).flatMap (Token.laid p),
        by rw [layout,whole,List.flatMap_append,List.flatMap_cons,flatMap_laid ordinary]; rfl,rfl⟩
  obtain ⟨rest,shape,zero⟩ := cut
  have bound : ((beforeStray str).flatMap (Token.text p)).length ≤ 511 := by
    rw [shape,List.length_append] at size
    omega
  refine ⟨f,run,clean,?_⟩
  intro i upTo
  rw [buffer i (by omega),shape]
  by_cases last : i = ((beforeStray str).flatMap (Token.text p)).length
  · rw [List.getD_append_right _ _ _ _ (by omega),last,Nat.sub_self,zero,List.getD_eq_default _ _ (Nat.le_refl _)]
  · exact List.getD_append _ _ _ _ (by omega)

/-- Nothing is kept behind the first stray `%`. -/
theorem keeps_iff {text : List (BitVec 8)} : Keeps p str text ((beforeStray str).flatMap (Token.text p)) ↔ text = [] := by
  constructor
  · rintro ⟨behind,same,sublist⟩
    have empty : behind = [] := List.self_eq_append_right.mp same
    rw [empty] at sublist
    exact List.sublist_nil.mp sublist
  · rintro rfl
    exact ⟨[],(List.append_nil _).symm,List.nil_sublist _⟩

theorem literals_eq_nil {ts : List Token} : literals ts = [] ↔ ∀ c, Token.literal c ∉ ts := by
  rw [literals,List.flatMap_eq_nil_iff]
  constructor
  · intro all c member
    exact absurd (all _ member) (List.cons_ne_nil _ _)
  · intro none t member
    cases t with
    | literal c => exact absurd member (none c)
    | directive hex d => rfl
    | stray => rfl

theorem shown_eq_nil {ts : List Token} : shown p ts = [] ↔ ∀ t ∈ ts, t = .stray := by
  rw [shown,List.flatMap_eq_nil_iff]
  refine forall_congr' (fun t => imp_congr_right (fun _ => ?_))
  cases t with
  | stray => exact ⟨fun _ => rfl,fun _ => rfl⟩
  | literal c => exact ⟨fun empty => absurd empty (List.cons_ne_nil _ _),nofun⟩
  | directive hex d =>
    exact ⟨fun empty => absurd empty (List.length_pos_iff.mp (numeral_nonempty (param p d) hex)),nofun⟩

/-- The text of a format string that fits shows the plain characters behind its first stray `%` if and only if there are
    none, and all that stands behind it if and only if that is stray `%`s only. -/
theorem format_keeps_iff (S : Statics) (m : Mem) (p : Params) (proper : 0 ∉ str) (fits : (expansion p str).length ≤ 511)
    (enough : str.length + 24 ≤ fuel) :
    ∃ f r, format S fuel m str p = some f ∧ Text f.memory S.formatBuffer r ∧
      (Keeps p str (literals (behindStray str)) r ↔ ∀ c, Token.literal c ∉ behindStray str) ∧
      (Keeps p str (shown p (behindStray str)) r ↔ ∀ t ∈ behindStray str, t = .stray) := by
  obtain ⟨f,run,text⟩ := format_text S m p proper fits enough
  refine ⟨f,_,run,text,?_,?_⟩
  · rw [keeps_iff,literals_eq_nil]
  · rw [keeps_iff,shown_eq_nil]

theorem format_keeps_iff_percent : 0 ∉ [0x31,0x25] ∧ ∃ f r, format packed 26 (fun _ => 0) [0x31,0x25] (fun _ => 5) = some f ∧
    Text f.memory packed.formatBuffer r ∧
      (Keeps (fun _ => 5) [0x31,0x25] (literals (behindStray [0x31,0x25])) r ↔ ∀ c, Token.literal c ∉ behindStray [0x31,0x25]) ∧
      (Keeps (fun _ => 5) [0x31,0x25] (shown (fun _ => 5) (behindStray [0x31,0x25])) r ↔ ∀ t ∈ behindStray [0x31,0x25], t = .stray) :=
  ⟨by decide,format_keeps_iff packed (fun _ => 0) (fun _ => 5) (by decide) (by decide) (by decide)⟩

/-- The string `%z`: nothing is shown. -/
theorem format_cuts : ¬ ∃ f r, format packed 26 (fun _ => 0) [0x25,0x7A] (fun _ => 5) = some f ∧
    Text f.memory packed.formatBuffer r ∧ Keeps (fun _ => 5) [0x25,0x7A] (literals (behindStray [0x25,0x7A])) r := by
  rintro ⟨f,r,run,text,kept⟩
  obtain ⟨f',run',text'⟩ := format_text packed (fun _ => 0) (fun _ => 5) (show 0 ∉ [0x25,0x7A] by decide) (by decide) (show 26 ≤ 26 by decide)
  rw [run,Option.some.injEq] at run'
  subst run'
  rw [text.unique text',keeps_iff] at kept
  exact absurd kept (by decide)

/-! ### The size of the buffer -/

/-- A call writes the 512 characters of the buffer only, and leaves a terminator in them. -/
def Bounded (S : Statics) (fuel : Nat) (m : Mem) (str : List (BitVec 8)) (p : Params) : Prop :=
  ∃ f, format S fuel m str p = some f ∧ (∀ i ∈ f.written, i < 512) ∧ ∃ i < 512, f.memory (S.formatBuffer + i) = 0

/-- The parts of a string without the stray `%`s at its end. -/
def trimmed (str : List (BitVec 8)) : List Token := (tokens str).rdropWhile (· = .stray)

theorem tokens_trimmed (str : List (BitVec 8)) : ∃ rest, tokens str = trimmed str ++ rest ∧ ∀ t ∈ rest, t = .stray :=
  ⟨(tokens str).rtakeWhile (· = .stray),List.rdropWhile_append_rtakeWhile.symm,
    fun _ member => of_decide_eq_true (List.mem_rtakeWhile_imp (p := fun t => decide (t = Token.stray)) member)⟩

theorem strays_getD {rest : List Token} (strays : ∀ t ∈ rest, t = .stray) (i : Nat) :
    (rest.flatMap (Token.laid p)).getD i 0 = 0 := by
  by_cases inside : i < (rest.flatMap (Token.laid p)).length
  · rw [List.getD_eq_getElem _ _ inside]
    obtain ⟨t,part,member⟩ := List.mem_flatMap.mp (List.getElem_mem inside)
    rw [strays t part] at member
    exact List.mem_singleton.mp member
  · exact List.getD_eq_default _ _ (by omega)

/-- Only a stray `%` leaves a zero. -/
theorem laid_zero_iff (proper : 0 ∉ str) {t : Token} (part : t ∈ tokens str) : 0 ∈ t.laid p ↔ t = .stray := by
  constructor
  · intro zero
    by_contra ordinary
    rw [laid_eq_text ordinary] at zero
    exact text_proper proper t part zero
  · rintro rfl
    exact List.mem_singleton_self _

theorem trimmed_subset (str : List (BitVec 8)) : trimmed str ⊆ tokens str := (List.rdropWhile_prefix _ _).subset

/-- The layout of a string: what is written, and the zeroes of the stray `%`s at its end. -/
theorem layout_parts (p : Params) (str : List (BitVec 8)) : ∃ rest, (∀ i, (List.flatMap (Token.laid p) rest).getD i 0 = 0) ∧
    layout p str = (trimmed str).flatMap (Token.laid p) ++ rest.flatMap (Token.laid p) := by
  obtain ⟨rest,whole,strays⟩ := tokens_trimmed str
  exact ⟨rest,strays_getD strays,by rw [layout,whole,List.flatMap_append]⟩

/-- Behind what is written there are zeroes. -/
theorem layout_behind {i : Nat} (beyond : ((trimmed str).flatMap (Token.text p)).length ≤ i) : (layout p str).getD i 0 = 0 := by
  obtain ⟨rest,zeroes,shape⟩ := layout_parts p str
  rw [← layout_length] at beyond
  rw [shape,List.getD_append_right _ _ _ _ beyond]
  exact zeroes _

/-- The last character that is written is no zero, for the last part is no stray `%`. -/
theorem layout_last (proper : 0 ∉ str) (some : trimmed str ≠ []) :
    (layout p str).getD (((trimmed str).flatMap (Token.text p)).length - 1) 0 ≠ 0 := by
  obtain ⟨rest,-,shape⟩ := layout_parts p str
  have last : ¬ decide ((trimmed str).getLast some = .stray) = true := List.rdropWhile_last_not _ _ some
  have part : (trimmed str).getLast some ∈ tokens str := trimmed_subset str (List.getLast_mem some)
  have split := List.dropLast_append_getLast some
  generalize (trimmed str).getLast some = t at last part split
  have clean : 0 ∉ t.laid p := fun zero => last (decide_eq_true ((laid_zero_iff proper part).mp zero))
  have filled : 0 < (t.laid p).length := by
    cases t with
    | literal c => exact Nat.one_pos
    | directive hex d => exact numeral_nonempty _ _
    | stray => exact Nat.one_pos
  rw [← layout_length,shape,← split,List.flatMap_append,List.flatMap_singleton,List.length_append,List.append_assoc,
    List.getD_append_right _ _ _ _ (by omega),show ∀ k, k + (t.laid p).length - 1 - k = (t.laid p).length - 1 by intro k; omega,
    List.getD_append _ _ _ _ (by omega),List.getD_eq_getElem _ _ (by omega)]
  exact fun zero => clean (zero ▸ List.getElem_mem _)

/-- Among what is written there is a zero where a stray `%` is. -/
theorem layout_zero_iff (proper : 0 ∉ str) :
    (∃ i < ((trimmed str).flatMap (Token.text p)).length, (layout p str).getD i 0 = 0) ↔ .stray ∈ trimmed str := by
  obtain ⟨rest,-,shape⟩ := layout_parts p str
  rw [← layout_length]
  constructor
  · rintro ⟨i,inside,zero⟩
    rw [shape,List.getD_append _ _ _ _ inside,List.getD_eq_getElem _ _ inside] at zero
    obtain ⟨t,part,member⟩ := List.mem_flatMap.mp (List.getElem_mem inside)
    rw [zero,laid_zero_iff proper (trimmed_subset str part)] at member
    exact member ▸ part
  · intro part
    have zero : 0 ∈ (trimmed str).flatMap (Token.laid p) := List.mem_flatMap.mpr ⟨_,part,List.mem_singleton_self _⟩
    obtain ⟨i,inside,same⟩ := List.getElem_of_mem zero
    exact ⟨i,inside,by rw [shape,List.getD_append _ _ _ _ inside,List.getD_eq_getElem _ _ inside,same]⟩

/-- A call keeps to the buffer if what it writes, up to the last character that it writes, fits with a terminator, which
    a stray `%` also leaves. -/
theorem bounded_of (S : Statics) (m : Mem) (p : Params) (proper : 0 ∉ str) (enough : str.length + 24 ≤ fuel)
    (short : ((trimmed str).flatMap (Token.text p)).length ≤ 511 ∨
      ((trimmed str).flatMap (Token.text p)).length = 512 ∧ .stray ∈ trimmed str) : Bounded S fuel m str p := by
  obtain ⟨f,run,inside,buffer⟩ := format_inside (p := p) S m proper (fun i beyond => layout_behind (by omega)) enough
  refine ⟨f,run,inside,?_⟩
  rcases short with short | ⟨full,stray⟩
  · exact ⟨((trimmed str).flatMap (Token.text p)).length,by omega,by rw [buffer _ (by omega),layout_behind (Nat.le_refl _)]⟩
  · obtain ⟨i,small,same⟩ := (layout_zero_iff (p := p) proper).mpr stray
    exact ⟨i,by omega,by rw [buffer i (by omega),same]⟩

theorem bounded_only (S : Statics) (m : Mem) (p : Params) (proper : 0 ∉ str) (room : str.length + 513 ≤ 2^64)
    (enough : str.length + 24 ≤ fuel) (bounded : Bounded S fuel m str p) :
    ((trimmed str).flatMap (Token.text p)).length ≤ 511 ∨
      ((trimmed str).flatMap (Token.text p)).length = 512 ∧ .stray ∈ trimmed str := by
  obtain ⟨f,run,inside,i,small,terminated⟩ := bounded
  by_cases spills : 512 < ((trimmed str).flatMap (Token.text p)).length
  · have some : trimmed str ≠ [] := by
      rintro empty
      rw [empty,List.flatMap_nil,List.length_nil] at spills
      omega
    obtain ⟨j,member,beyond⟩ := format_outside (m := m) proper room (by omega) ⟨_,by omega,layout_last proper some⟩ run
    have bound := inside j member
    omega
  · by_cases full : ((trimmed str).flatMap (Token.text p)).length = 512
    · refine Or.inr ⟨full,(layout_zero_iff (p := p) proper).mp ⟨i,by omega,?_⟩⟩
      obtain ⟨f',run',-,buffer⟩ := format_inside (p := p) S m proper (fun i beyond => layout_behind (by omega)) enough
      rw [run,Option.some.injEq] at run'
      subst run'
      rw [← buffer i small,terminated]
    · exact Or.inl (by omega)

/-- A call keeps to the buffer if and only if the characters up to the last one that it writes are at most 511, where a
    directive counts as the text of its parameter and a stray `%` as one character, or 512 with a stray `%` among them. -/
theorem format_bounded_iff (S : Statics) (m : Mem) (p : Params) (proper : 0 ∉ str) (room : str.length + 513 ≤ 2^64)
    (enough : str.length + 24 ≤ fuel) :
    Bounded S fuel m str p ↔ ((trimmed str).flatMap (Token.text p)).length ≤ 511 ∨
      ((trimmed str).flatMap (Token.text p)).length = 512 ∧ .stray ∈ trimmed str :=
  ⟨bounded_only S m p proper room enough,bounded_of S m p proper enough⟩

theorem format_bounded_iff_five : 0 ∉ [0x25,0x30] ∧ [0x25,0x30].length + 513 ≤ 2^64 ∧
    (Bounded packed 26 (fun _ => 0) [0x25,0x30] (fun _ => 5) ↔
      ((trimmed [0x25,0x30]).flatMap (Token.text (fun _ => 5))).length ≤ 511 ∨
        ((trimmed [0x25,0x30]).flatMap (Token.text (fun _ => 5))).length = 512 ∧ .stray ∈ trimmed [0x25,0x30]) :=
  ⟨by decide,by decide,format_bounded_iff packed (fun _ => 0) (fun _ => 5) (by decide) (by decide) (by decide)⟩

theorem tokens_replicate {c : BitVec 8} (plain : c ≠ 0x25) (n : Nat) : tokens (List.replicate n c) = List.replicate n (.literal c) := by
  induction n with
  | zero => rfl
  | succ n ih => rw [List.replicate_succ,tokens_literal plain,ih,List.replicate_succ]

theorem text_replicate (c : BitVec 8) (n : Nat) : ((List.replicate n (Token.literal c)).flatMap (Token.text p)).length = n := by
  induction n with
  | zero => rfl
  | succ n ih =>
    rw [List.replicate_succ,List.flatMap_cons,List.length_append,ih,Token.text,List.length_singleton,Nat.add_comm]

/-- A string of 512 characters fills the buffer. -/
theorem format_unbounded : ¬ Bounded packed 536 (fun _ => 0) (List.replicate 512 0x61) (fun _ => 0) := by
  intro bounded
  have whole : trimmed (List.replicate 512 0x61) = List.replicate 512 (.literal 0x61) := by
    rw [trimmed,tokens_replicate (by decide),List.rdropWhile_eq_self_iff]
    intro some
    rw [List.getLast_replicate]
    decide
  have size : ((trimmed (List.replicate 512 0x61)).flatMap (Token.text (fun _ => 0))).length = 512 := by
    rw [whole,text_replicate]
  have proper : (0 : BitVec 8) ∉ List.replicate 512 0x61 := fun member => absurd (List.eq_of_mem_replicate member) (by decide)
  rcases bounded_only packed _ _ proper (by rw [List.length_replicate]; decide) (by rw [List.length_replicate]) bounded with short | ⟨-,stray⟩
  · omega
  · rw [whole] at stray
    exact absurd (List.eq_of_mem_replicate stray) nofun

end WaifuOS.cstr
