import WaifuOS.Entries

/-!
Long names in the pieces that hold them. The units that `GetEntryNameLFN` writes are listed
(`nameWrites`): they are inside the buffer for the name when the order of each piece is
below the number of pieces (`nameWrites_inside_iff`), which nothing checks. The pieces of
a name (`longPieces`) hold 13 units each, and a 0 and padding behind the last one. In
any order they are put together to the name again (`getEntryNameLFN_longPieces`).
-/
namespace WaifuOS.cstr

/-- The units that `wstrncpy` writes, each with its index. -/
def wstrncpyWrites (offset : Nat) (src : List Nat) : Nat → List (Nat × Nat)
  | 0 => []
  | max+1 =>
    if src.headD 0 = 0 then [(offset,0)]
    else (offset,src.headD 0) :: wstrncpyWrites (offset+1) src.tail max

variable {dest src : List Nat} {offset max i j : Nat} {w : Nat × Nat}

/-- `wstrncpy` does these writes one after another. -/
theorem wstrncpy_writes (dest : List Nat) (offset : Nat) (src : List Nat) (max : Nat) :
    wstrncpy dest offset src max = (wstrncpyWrites offset src max).foldl (fun name w => name.set w.1 w.2) dest := by
  induction max generalizing dest offset src with
  | zero => rfl
  | succ max ih =>
    rw [wstrncpy,wstrncpyWrites]
    by_cases ends : src.headD 0 = 0
    · rw [if_pos ends,if_pos ends]
      rfl
    · rw [if_neg ends,if_neg ends,List.foldl_cons]
      exact ih _ _ _

theorem wstrncpyWrites_range (member : w ∈ wstrncpyWrites offset src max) : offset ≤ w.1 ∧ w.1 < offset + max := by
  induction max generalizing offset src with
  | zero => cases member
  | succ max ih =>
    rw [wstrncpyWrites] at member
    split at member
    · cases List.mem_singleton.mp member
      exact ⟨Nat.le_refl _,Nat.lt_add_of_pos_right (Nat.succ_pos _)⟩
    · rcases List.mem_cons.mp member with rfl | later
      · exact ⟨Nat.le_refl _,Nat.lt_add_of_pos_right (Nat.succ_pos _)⟩
      · have range := ih later
        omega

/-- Whatever is copied, the first unit is written. -/
theorem wstrncpyWrites_first (offset : Nat) (src : List Nat) (max : Nat) : ∃ unit, (offset,unit) ∈ wstrncpyWrites offset src (max+1) := by
  rw [wstrncpyWrites]
  split
  · exact ⟨0,List.mem_singleton_self _⟩
  · exact ⟨_,List.mem_cons_self⟩

@[simp] theorem wstrncpy_length : (wstrncpy dest offset src max).length = dest.length := by
  induction max generalizing dest offset src with
  | zero => rfl
  | succ max ih =>
    rw [wstrncpy]
    split
    · exact List.length_set
    · rw [ih,List.length_set]

theorem getD_set_ne {a : List Nat} {x : Nat} (other : i ≠ j) : (a.set j x).getD i 0 = a.getD i 0 := by
  rw [List.getD_eq_getElem?_getD,List.getD_eq_getElem?_getD,List.getElem?_set_ne (Ne.symm other)]

theorem getD_set_self {a : List Nat} {x : Nat} (inside : i < a.length) : (a.set i x).getD i 0 = x := by
  rw [List.getD_eq_getElem?_getD,List.getElem?_set_self inside,Option.getD_some]

theorem wstrncpy_apart (outside : i < offset ∨ offset + max ≤ i) : (wstrncpy dest offset src max).getD i 0 = dest.getD i 0 := by
  induction max generalizing dest offset src with
  | zero => rfl
  | succ max ih =>
    rw [wstrncpy]
    split
    · exact getD_set_ne (by omega)
    · rw [ih (by omega),getD_set_ne (by omega)]

/-- Up to the terminator the units are copied. -/
theorem wstrncpy_at (inside : j < max) (room : offset + j < dest.length) (proper : ∀ t < j, src.getD t 0 ≠ 0) :
    (wstrncpy dest offset src max).getD (offset + j) 0 = src.getD j 0 := by
  induction max generalizing dest offset src j with
  | zero => omega
  | succ max ih =>
    have first : src.headD 0 = src.getD 0 0 := by cases src <;> rfl
    rw [wstrncpy]
    cases j with
    | zero =>
      split
      · rw [Nat.add_zero,getD_set_self (by omega),← first]
        exact Eq.symm ‹_›
      · rw [wstrncpy_apart (by omega),Nat.add_zero,getD_set_self (by omega),first]
    | succ j =>
      have goes : ¬ src.headD 0 = 0 := by
        rw [first]
        exact proper 0 (by omega)
      have tail : ∀ t, src.tail.getD t 0 = src.getD (t+1) 0 := by
        intro t
        cases src <;> rfl
      rw [if_neg goes,← tail,show offset + (j+1) = offset + 1 + j by omega]
      apply ih (by omega) (by rw [List.length_set]; omega)
      intro t less
      rw [tail]
      exact proper (t+1) (by omega)

/-- A buffer holds the string that is in front of its terminator. -/
theorem ofBuffer_eq {str : WString} {buffer : List Nat} (proper : 0 ∉ str) (units : ∀ i < str.length, buffer.getD i 0 = str.getD i 0)
    (ends : buffer.getD str.length 0 = 0) : ofBuffer buffer = str := by
  induction str generalizing buffer with
  | nil =>
    cases buffer with
    | nil => rfl
    | cons c buffer =>
      have zero : c = 0 := ends
      simp [ofBuffer,zero]
  | cons c str ih =>
    obtain ⟨first,later⟩ : ¬ 0 = c ∧ 0 ∉ str := by simpa using proper
    cases buffer with
    | nil => exact absurd (units 0 (Nat.succ_pos _)) first
    | cons d buffer =>
      have same : d = c := units 0 (Nat.succ_pos _)
      subst same
      have rest := ih later (fun i less => units (i+1) (Nat.succ_lt_succ less)) ends
      simp only [ofBuffer] at rest ⊢
      rw [List.takeWhile_cons,if_pos (by simpa using Ne.symm first),rest]

end WaifuOS.cstr

namespace WaifuOS.FAT32
open WaifuOS.Bytes WaifuOS.cstr

/-- The units that a piece writes. -/
def LFNEntry.writes (entry : LFNEntry) : List (Nat × Nat) :=
  let nameOffset := entry.order * 13
  wstrncpyWrites (nameOffset + 0) entry.Name0 5 ++ wstrncpyWrites (nameOffset + 5) entry.Name1 6 ++
    wstrncpyWrites (nameOffset + 11) entry.Name2 2

/-- The units that `GetEntryNameLFN` writes, the terminator last. -/
def nameWrites (Entries : List LFNEntry) : List (Nat × Nat) :=
  Entries.flatMap LFNEntry.writes ++ [(Entries.length * 13 + 1 - 1,0)]

variable {entry : LFNEntry} {Entries : List LFNEntry} {name buffer : List Nat} {i j k : Nat}

theorem place_writes (name : List Nat) (entry : LFNEntry) :
    entry.place name = entry.writes.foldl (fun name w => name.set w.1 w.2) name := by
  simp only [LFNEntry.place,LFNEntry.writes,List.foldl_append,← wstrncpy_writes]

/-- The name is what these writes leave in the buffer. -/
theorem getEntryNameLFN_writes (placed : Placed Entries) : GetEntryNameLFN Entries =
    some (ofBuffer ((nameWrites Entries).foldl (fun name w => name.set w.1 w.2) (List.replicate (Entries.length * 13 + 1) 0))) := by
  have pieces : ∀ (Entries : List LFNEntry) (name : List Nat), Entries.foldl LFNEntry.place name =
      (Entries.flatMap LFNEntry.writes).foldl (fun name w => name.set w.1 w.2) name := by
    intro Entries
    induction Entries with
    | nil => intro name; rfl
    | cons entry Entries ih =>
      intro name
      rw [List.foldl_cons,List.flatMap_cons,List.foldl_append,ih,place_writes]
  simp only [GetEntryNameLFN,if_pos placed,nameWrites,List.foldl_append,pieces,List.foldl_cons,List.foldl_nil]

theorem entry_writes_range {w : Nat × Nat} (member : w ∈ entry.writes) : entry.order * 13 ≤ w.1 ∧ w.1 < entry.order * 13 + 13 := by
  simp only [LFNEntry.writes,List.mem_append] at member
  rcases member with (first | second) | third
  · have range := wstrncpyWrites_range first
    omega
  · have range := wstrncpyWrites_range second
    omega
  · have range := wstrncpyWrites_range third
    omega

/-- The pieces are written inside the buffer for their name exactly when the order of each of them is below
    their number. -/
theorem nameWrites_inside_iff (Entries : List LFNEntry) :
    (∀ w ∈ nameWrites Entries, w.1 < Entries.length * 13 + 1) ↔ ∀ entry ∈ Entries, entry.order < Entries.length := by
  constructor
  · intro inside entry member
    -- The second fragment starts behind the terminator of a buffer that the piece does not fit into.
    obtain ⟨unit,second⟩ := wstrncpyWrites_first (entry.order * 13 + 5) entry.Name1 5
    have written : (entry.order * 13 + 5,unit) ∈ nameWrites Entries := by
      refine List.mem_append_left _ (List.mem_flatMap.mpr ⟨entry,member,?_⟩)
      exact List.mem_append_left _ (List.mem_append_right _ second)
    have bound : entry.order * 13 + 5 < Entries.length * 13 + 1 := inside _ written
    omega
  · intro low w member
    rcases List.mem_append.mp member with piece | last
    · obtain ⟨entry,there,written⟩ := List.mem_flatMap.mp piece
      have range := entry_writes_range written
      have order := low entry there
      omega
    · cases List.mem_singleton.mp last
      exact Nat.lt_succ_self _

/-- A single piece that says it is the second one is written behind its buffer. -/
theorem nameWrites_outside : ¬ ∀ w ∈ nameWrites [⟨0x42,[0x61,0x61,0x61,0x61,0x61],[0x61,0x61,0x61,0x61,0x61,0x61],[0x61,0x61]⟩],
    w.1 < 14 := by
  intro inside
  have bound := inside (18,0x61) (by decide)
  omega

/-- The units of a piece. -/
def LFNEntry.chars (entry : LFNEntry) : List Nat := entry.Name0 ++ entry.Name1 ++ entry.Name2

/-- The fragments of a piece are as long as their fields. -/
structure LFNEntry.Sized (entry : LFNEntry) : Prop where
  Name0 : entry.Name0.length = 5
  Name1 : entry.Name1.length = 6

@[simp] theorem place_length : (entry.place name).length = name.length := by simp [LFNEntry.place]

theorem place_apart (outside : i < entry.order * 13 ∨ entry.order * 13 + 13 ≤ i) : (entry.place name).getD i 0 = name.getD i 0 := by
  rw [LFNEntry.place,wstrncpy_apart (by omega),wstrncpy_apart (by omega),wstrncpy_apart (by omega)]

/-- Up to a terminator the units of a piece are at its place. -/
theorem place_at (sized : entry.Sized) (inside : j < 13) (room : entry.order * 13 + 13 ≤ name.length)
    (proper : ∀ t < j, entry.chars.getD t 0 ≠ 0) : (entry.place name).getD (entry.order * 13 + j) 0 = entry.chars.getD j 0 := by
  obtain ⟨size₀,size₁⟩ := sized
  have first : ∀ t, t < 5 → entry.chars.getD t 0 = entry.Name0.getD t 0 := by
    intro t less
    rw [LFNEntry.chars,List.append_assoc,List.getD_append _ _ _ _ (by omega)]
  have second : ∀ t, t < 6 → entry.chars.getD (5+t) 0 = entry.Name1.getD t 0 := by
    intro t less
    rw [LFNEntry.chars,List.append_assoc,List.getD_append_right _ _ _ _ (by omega),size₀,Nat.add_sub_cancel_left,
      List.getD_append _ _ _ _ (by omega)]
  have third : ∀ t, entry.chars.getD (11+t) 0 = entry.Name2.getD t 0 := by
    intro t
    have front : (entry.Name0 ++ entry.Name1).length = 11 := by rw [List.length_append,size₀,size₁]
    rw [LFNEntry.chars,List.getD_append_right _ _ _ _ (by omega),front,Nat.add_sub_cancel_left]
  rw [LFNEntry.place]
  by_cases inFirst : j < 5
  · rw [wstrncpy_apart (by omega),wstrncpy_apart (by omega),first j inFirst]
    apply wstrncpy_at inFirst (by omega)
    intro t less
    rw [← first t (by omega)]
    exact proper t less
  · by_cases inSecond : j < 11
    · obtain ⟨t,rfl⟩ : ∃ t, j = 5 + t := ⟨j - 5,by omega⟩
      rw [wstrncpy_apart (by omega),second t (by omega),← Nat.add_assoc]
      apply wstrncpy_at (by omega) (by rw [wstrncpy_length]; omega)
      intro u less
      rw [← second u (by omega)]
      exact proper (5+u) (by omega)
    · obtain ⟨t,rfl⟩ : ∃ t, j = 11 + t := ⟨j - 11,by omega⟩
      rw [third t,← Nat.add_assoc]
      apply wstrncpy_at (by omega) (by rw [wstrncpy_length,wstrncpy_length]; omega)
      intro u less
      rw [← third u]
      exact proper (11+u) (by omega)

@[simp] theorem foldl_place_length : (Entries.foldl LFNEntry.place name).length = name.length := by
  induction Entries generalizing name with
  | nil => rfl
  | cons entry Entries ih => rw [List.foldl_cons,ih,place_length]

theorem foldl_place_apart (others : ∀ entry ∈ Entries, entry.order ≠ k) (inside : j < 13) :
    (Entries.foldl LFNEntry.place name).getD (k * 13 + j) 0 = name.getD (k * 13 + j) 0 := by
  induction Entries generalizing name with
  | nil => rfl
  | cons entry Entries ih =>
    have apart := others entry List.mem_cons_self
    rw [List.foldl_cons,ih (fun e member => others e (List.mem_cons_of_mem _ member)),place_apart (by omega)]

/-- Pieces of different orders do not overwrite each other. -/
theorem foldl_place_at (name : List Nat) (distinct : (Entries.map LFNEntry.order).Nodup) (member : entry ∈ Entries) (sized : entry.Sized)
    (inside : j < 13) (room : entry.order * 13 + 13 ≤ name.length) (proper : ∀ t < j, entry.chars.getD t 0 ≠ 0) :
    (Entries.foldl LFNEntry.place name).getD (entry.order * 13 + j) 0 = entry.chars.getD j 0 := by
  induction Entries generalizing name with
  | nil => cases member
  | cons first Entries ih =>
    rw [List.map_cons,List.nodup_cons] at distinct
    rw [List.foldl_cons]
    rcases List.mem_cons.mp member with rfl | later
    · have others : ∀ e ∈ Entries, e.order ≠ entry.order := by
        intro e there same
        apply distinct.1
        rw [← same]
        exact List.mem_map_of_mem there
      rw [foldl_place_apart others inside]
      exact place_at sized inside room proper
    · exact ih _ distinct.2 later (by rw [place_length]; exact room)

/-- How many pieces a name takes. -/
def pieceCount (name : WString) : Nat := (name.length + 12) / 13

/-- A name as its pieces hold it, with a terminator and padding where the last one is not full. -/
def padded (name : WString) : List Nat :=
  if name.length % 13 = 0 then name else name ++ 0 :: List.replicate (12 - name.length % 13) 0xFFFF

/-- A piece of a name. The order counts from 1, and the last piece is marked. -/
def longPiece (name : WString) (k : Nat) : LFNEntry where
  EntryOrder := BitVec.ofNat 8 (k+1) ||| (if k + 1 = pieceCount name then 0x40 else 0)
  Name0 := ((padded name).drop (13*k)).take 5
  Name1 := ((padded name).drop (13*k+5)).take 6
  Name2 := ((padded name).drop (13*k+11)).take 2

def longPieces (name : WString) : List LFNEntry := (List.range (pieceCount name)).map (longPiece name)

theorem padded_length (name : WString) : (padded name).length = 13 * pieceCount name := by
  simp only [padded,pieceCount]
  split
  · omega
  · rw [List.length_append,List.length_cons,List.length_replicate]
    omega

theorem padded_unit {name : WString} (inside : i < name.length) : (padded name).getD i 0 = name.getD i 0 := by
  simp only [padded]
  split
  · rfl
  · rw [List.getD_append _ _ _ _ inside]

theorem padded_ends {name : WString} : (padded name).getD name.length 0 = 0 := by
  simp only [padded]
  split
  · exact List.getD_eq_default _ _ (Nat.le_refl _)
  · rw [List.getD_append_right _ _ _ _ (Nat.le_refl _),Nat.sub_self]
    rfl

theorem longPiece_order {name : WString} (small : k < 20) : (longPiece name k).order = k := by
  have marked : ∀ k : Fin 20, (((BitVec.ofNat 8 (k+1) ||| 0x40) &&& 0xBF) - 1 : BitVec 8).toNat = k := by decide
  have plain : ∀ k : Fin 20, (((BitVec.ofNat 8 (k+1) ||| 0) &&& 0xBF) - 1 : BitVec 8).toNat = k := by decide
  rw [LFNEntry.order,longPiece]
  split
  · exact marked ⟨k,small⟩
  · exact plain ⟨k,small⟩

theorem longPiece_chars (name : WString) (k : Nat) : (longPiece name k).chars = ((padded name).drop (13*k)).take 13 := by
  have parts : ∀ l : List Nat, l.take 13 = l.take 5 ++ (l.drop 5).take 6 ++ (l.drop 11).take 2 := by
    intro l
    rw [show (13 : Nat) = 5 + 6 + 2 from rfl,List.take_add,List.take_add]
  rw [LFNEntry.chars,longPiece,parts,List.drop_drop,List.drop_drop]

theorem longPiece_unit {name : WString} (inside : j < 13) : (longPiece name k).chars.getD j 0 = (padded name).getD (13*k+j) 0 := by
  rw [longPiece_chars,List.getD_eq_getElem?_getD,List.getD_eq_getElem?_getD,List.getElem?_take_of_lt inside,List.getElem?_drop]

theorem longPiece_sized {name : WString} (inside : k < pieceCount name) : (longPiece name k).Sized := by
  have size := padded_length name
  constructor
  · rw [longPiece,List.length_take,List.length_drop]
    omega
  · rw [longPiece,List.length_take,List.length_drop]
    omega

/-- The pieces of a name have the orders from 0 on. -/
theorem longPieces_order {name : WString} (small : name.length ≤ 255) :
    (longPieces name).map LFNEntry.order = List.range (pieceCount name) := by
  have few : pieceCount name ≤ 20 := by unfold pieceCount; omega
  rw [longPieces,List.map_map]
  refine (List.map_congr_left ?_).trans (List.map_id _)
  intro k member
  exact longPiece_order (by have := List.mem_range.mp member; omega)

theorem perm_orders {name : WString} (small : name.length ≤ 255) (perm : Entries.Perm (longPieces name)) :
    (Entries.map LFNEntry.order).Perm (List.range (pieceCount name)) :=
  (perm.map LFNEntry.order).trans (List.Perm.of_eq (longPieces_order small))

/-- The units up to the terminator are where the pieces put them. -/
theorem foldl_longPieces {name : WString} (small : name.length ≤ 255) (proper : 0 ∉ name) (perm : Entries.Perm (longPieces name))
    (room : 13 * pieceCount name ≤ buffer.length) (low : i ≤ name.length) (inside : i < 13 * pieceCount name) :
    (Entries.foldl LFNEntry.place buffer).getD i 0 = (padded name).getD i 0 := by
  have distinct : (Entries.map LFNEntry.order).Nodup := (perm_orders small perm).nodup_iff.mpr List.nodup_range
  have block : i / 13 < pieceCount name := by omega
  have few : pieceCount name ≤ 20 := by unfold pieceCount; omega
  have member : longPiece name (i / 13) ∈ Entries := perm.mem_iff.mpr (List.mem_map.mpr ⟨i / 13,List.mem_range.mpr block,rfl⟩)
  have order : (longPiece name (i / 13)).order = i / 13 := longPiece_order (by omega)
  have place : i = (longPiece name (i / 13)).order * 13 + i % 13 := by
    rw [order]
    omega
  have unit_inside : i % 13 < 13 := Nat.mod_lt _ (by decide)
  have at_place := foldl_place_at buffer distinct member (longPiece_sized block) unit_inside (by rw [order]; omega) (fun t less => ?_)
  · rw [← place,longPiece_unit unit_inside,Nat.div_add_mod] at at_place
    exact at_place
  · rw [longPiece_unit (by omega),padded_unit (by omega),List.getD_eq_getElem _ _ (by omega)]
    intro zero
    exact proper (zero ▸ List.getElem_mem _)

/-- The pieces of a name write it, in whatever order they are copied. -/
theorem getEntryNameLFN_perm {name : WString} {Entries : List LFNEntry} (small : name.length ≤ 255) (proper : 0 ∉ name)
    (perm : Entries.Perm (longPieces name)) : GetEntryNameLFN Entries = some name := by
  have orders := perm_orders small perm
  have count : Entries.length = pieceCount name := by
    have size := orders.length_eq
    rwa [List.length_map,List.length_range] at size
  have placed : Placed Entries := by
    intro entry member
    rw [count]
    exact List.mem_range.mp (orders.mem_iff.mp (List.mem_map_of_mem member))
  have room : 13 * pieceCount name ≤ (List.replicate (Entries.length * 13 + 1) 0).length := by
    rw [List.length_replicate,count]
    omega
  rw [GetEntryNameLFN,if_pos placed,Nat.add_sub_cancel]
  refine congrArg some (ofBuffer_eq proper ?_ ?_)
  · intro i inside
    have block : i < 13 * pieceCount name := by unfold pieceCount; omega
    rw [getD_set_ne (by omega),foldl_longPieces small proper perm room (by omega) block,padded_unit inside]
  · by_cases full : name.length = 13 * pieceCount name
    · rw [full,count,Nat.mul_comm,getD_set_self (by rw [foldl_place_length,List.length_replicate]; omega)]
    · have block : name.length < 13 * pieceCount name := by unfold pieceCount at full ⊢; omega
      rw [getD_set_ne (by omega),foldl_longPieces small proper perm room (Nat.le_refl _) block,padded_ends]

/-- The pieces of a name of up to 255 units, in any order, are put together to the name. -/
theorem getEntryNameLFN_longPieces {name : WString} {Entries : List LFNEntry} (small : name.length ≤ 255)
    (proper : ∀ unit ∈ name, unit ≠ 0) (perm : Entries.Perm (longPieces name)) : GetEntryNameLFN Entries = some name :=
  getEntryNameLFN_perm small (fun member => proper 0 member rfl) perm

/-- A name of 15 units, with its second piece first. -/
theorem getEntryNameLFN_longPieces_two : GetEntryNameLFN (longPieces (List.replicate 15 0x61)).reverse = some (List.replicate 15 0x61) :=
  getEntryNameLFN_longPieces (by decide) (by decide) (List.reverse_perm _)

end WaifuOS.FAT32
