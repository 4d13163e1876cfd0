import WaifuOS.Entries

/-!
`GetEntryName` with its buffer of 13 characters. The characters that it writes are listed
(`nameWrites`) and so are those that `ToLower` changes in place. All of them are inside the
buffer, which keeps a terminator, and the string in it is the one that the rest of the
driver sees (`getEntryName_buffer`). For a name and an extension that are padded with
spaces it is the name in lower case, with the extension behind a dot if there is one
(`getEntryName_padded`).
-/
namespace WaifuOS.FAT32.ShortNames

/-- `IndexOf` in the first `len` characters; `none` is -1. -/
def IndexOf (str : List (BitVec 8)) (character : BitVec 8) (len : Nat) : Option Nat := (str.take len).findIdx? (· = character)

/-- Characters that are written one behind the other. -/
def writesFrom : Nat → List (BitVec 8) → List (Nat × BitVec 8)
  | _, [] => []
  | temp, c :: str => (temp,c) :: writesFrom (temp+1) str

/-- The characters that `GetEntryName` writes before it calls `ToLower`, each with its index. -/
def nameWrites (entry : DirectoryEntry) : List (Nat × BitVec 8) :=
  let index := (IndexOf entry.ShortName 0x20 8).getD 8
  let ext := entry.ShortExt.takeWhile (· ≠ 0x20)
  (12,0) :: writesFrom 0 (entry.ShortName.take index) ++
    if entry.ShortExt.headD 0 ≠ 0x20 then (index,0x2E) :: writesFrom (index+1) ext ++ [(index + 1 + ext.length,0)]
    else [(index,0)]

/-- The characters that `ToLower` writes into a string from `x` on. -/
def lowerWrites (x : Nat) : List (BitVec 8) → List (Nat × BitVec 8)
  | [] => []
  | c :: str =>
    if 0x41 ≤ c.toInt ∧ c.toInt ≤ 0x5A then (x,c + 0x20) :: lowerWrites (x+1) str
    else lowerWrites (x+1) str

/-- The string in a buffer. -/
def text (buffer : List (BitVec 8)) : List (BitVec 8) := buffer.takeWhile (· ≠ 0)

def writeAll (buffer : List (BitVec 8)) (writes : List (Nat × BitVec 8)) : List (BitVec 8) :=
  writes.foldl (fun buffer w => buffer.set w.1 w.2) buffer

/-- The buffer before `ToLower`. -/
def nameBuffer (entry : DirectoryEntry) : List (BitVec 8) := writeAll (List.replicate 13 0) (nameWrites entry)

/-- All characters that `GetEntryName` writes. -/
def allWrites (entry : DirectoryEntry) : List (Nat × BitVec 8) := nameWrites entry ++ lowerWrites 0 (text (nameBuffer entry))

variable {entry : DirectoryEntry} {before rest str : List (BitVec 8)} {temp x n : Nat} {w : Nat × BitVec 8}

theorem writeAll_append (buffer : List (BitVec 8)) (first later : List (Nat × BitVec 8)) :
    writeAll buffer (first ++ later) = writeAll (writeAll buffer first) later := List.foldl_append

theorem writeAll_cons (buffer : List (BitVec 8)) (w : Nat × BitVec 8) (later : List (Nat × BitVec 8)) :
    writeAll buffer (w :: later) = writeAll (buffer.set w.1 w.2) later := rfl

theorem writesFrom_range (member : w ∈ writesFrom temp str) : temp ≤ w.1 ∧ w.1 < temp + str.length := by
  induction str generalizing temp with
  | nil => cases member
  | cons c str ih =>
    rw [List.length_cons]
    rcases List.mem_cons.mp member with rfl | later
    · constructor <;> simp
    · have range := ih later
      omega

theorem lowerWrites_range (member : w ∈ lowerWrites x str) : x ≤ w.1 ∧ w.1 < x + str.length := by
  induction str generalizing x with
  | nil => cases member
  | cons c str ih =>
    rw [List.length_cons]
    rw [lowerWrites] at member
    split at member
    · rcases List.mem_cons.mp member with rfl | later
      · constructor <;> simp
      · have range := ih later
        omega
    · have range := ih member
      omega

/-- A character behind the first ones of a buffer is replaced. -/
theorem set_behind (before rest : List (BitVec 8)) (c d : BitVec 8) :
    (before ++ c :: rest).set before.length d = before ++ d :: rest := by
  rw [List.set_append_right _ _ (Nat.le_refl _),Nat.sub_self,List.set_cons_zero]

theorem writesFrom_append (temp : Nat) (str later : List (BitVec 8)) :
    writesFrom temp (str ++ later) = writesFrom temp str ++ writesFrom (temp + str.length) later := by
  induction str generalizing temp with
  | nil => rfl
  | cons c str ih => rw [List.cons_append,writesFrom,writesFrom,ih,List.length_cons,List.cons_append,Nat.add_assoc,Nat.add_comm 1]

/-- Characters that are written fill a blank buffer from the front. -/
theorem writeAll_from (before str : List (BitVec 8)) {n : Nat} (room : str.length ≤ n) :
    writeAll (before ++ List.replicate n 0) (writesFrom before.length str) = before ++ str ++ List.replicate (n - str.length) 0 := by
  induction str generalizing before n with
  | nil => simp [writesFrom,writeAll]
  | cons c str ih =>
    rw [List.length_cons] at room ⊢
    obtain ⟨k,rfl⟩ : ∃ k, n = k + 1 := ⟨n - 1,by omega⟩
    have later := ih (before ++ [c]) (n := k) (by omega)
    rw [List.length_append,List.length_singleton,List.append_assoc,List.append_assoc] at later
    rw [writesFrom,writeAll_cons,List.replicate_succ,set_behind]
    apply later.trans
    simp

/-- `ToLower` in place. -/
theorem writeAll_lower (before str rest : List (BitVec 8)) :
    writeAll (before ++ str ++ rest) (lowerWrites before.length str) = before ++ ToLower str ++ rest := by
  induction str generalizing before with
  | nil => simp [lowerWrites,writeAll,ToLower]
  | cons c str ih =>
    rw [lowerWrites]
    split
    · rename_i upper
      have later := ih (before ++ [c + 0x20])
      rw [List.length_append,List.length_singleton] at later
      rw [writeAll_cons,List.append_assoc,List.cons_append,set_behind]
      simp only [List.append_assoc,List.singleton_append] at later
      apply later.trans
      simp [ToLower,upper]
    · rename_i other
      have later := ih (before ++ [c])
      rw [List.length_append,List.length_singleton] at later
      simp only [List.append_assoc,List.cons_append] at later ⊢
      apply later.trans
      simp [ToLower,other]

/-- What `GetEntryName` puts together, before it is cut at a terminator. -/
def body (entry : DirectoryEntry) : List (BitVec 8) :=
  entry.ShortName.takeWhile (· ≠ 0x20) ++
    if entry.ShortExt.headD 0 ≠ 0x20 then 0x2E :: entry.ShortExt.takeWhile (· ≠ 0x20) else []

theorem getEntryName_eq (entry : DirectoryEntry) : GetEntryName entry = ToLower (text (body entry)) := rfl

/-- The name goes up to its first space. -/
theorem take_index (full : entry.ShortName.length = 8) :
    entry.ShortName.take ((IndexOf entry.ShortName 0x20 8).getD 8) = entry.ShortName.takeWhile (· ≠ 0x20) ∧
      (IndexOf entry.ShortName 0x20 8).getD 8 = (entry.ShortName.takeWhile (· ≠ 0x20)).length := by
  have whole : entry.ShortName.take 8 = entry.ShortName := List.take_of_length_le (by omega)
  have index : (IndexOf entry.ShortName 0x20 8).getD 8 = entry.ShortName.findIdx (· = 0x20) := by
    rw [IndexOf,whole,List.findIdx_eq_getD_findIdx?,full]
  have bound : entry.ShortName.findIdx (· = 0x20) ≤ entry.ShortName.length := List.findIdx_le_length
  have taken : entry.ShortName.take (entry.ShortName.findIdx (· = 0x20)) = entry.ShortName.takeWhile (· ≠ 0x20) := by
    rw [List.takeWhile_eq_take_findIdx_not]
    simp
  refine ⟨by rw [index,taken],?_⟩
  rw [index,← taken,List.length_take]
  omega

/-- The name and the extension with its dot leave room for a terminator. -/
theorem body_length (full : entry.ShortName.length = 8) (ext : entry.ShortExt.length = 3) : (body entry).length ≤ 12 := by
  have name := (List.takeWhile_prefix (l := entry.ShortName) (· ≠ 0x20)).length_le
  have extension := (List.takeWhile_prefix (l := entry.ShortExt) (· ≠ 0x20)).length_le
  rw [body,List.length_append]
  split
  · rw [List.length_cons]
    omega
  · rw [List.length_nil]
    omega

/-- The characters are written one behind the other, and a terminator behind them. -/
theorem nameWrites_eq (full : entry.ShortName.length = 8) :
    nameWrites entry = (12,0) :: writesFrom 0 (body entry) ++ [((body entry).length,0)] := by
  obtain ⟨taken,index⟩ := take_index full
  rw [nameWrites,taken,index,body]
  by_cases present : entry.ShortExt.headD 0 ≠ 0x20
  · rw [show (entry.ShortName.takeWhile (· ≠ 0x20)).length + 1 + (entry.ShortExt.takeWhile (· ≠ 0x20)).length =
      (entry.ShortName.takeWhile (· ≠ 0x20)).length + ((entry.ShortExt.takeWhile (· ≠ 0x20)).length + 1) by omega]
    simp only [if_pos present,writesFrom_append,writesFrom,List.length_append,List.length_cons,Nat.zero_add,List.append_assoc,
      List.cons_append]
  · simp only [if_neg present,List.append_nil]

/-- The buffer holds what was put together, and zeros behind it. -/
theorem nameBuffer_eq (full : entry.ShortName.length = 8) (ext : entry.ShortExt.length = 3) :
    nameBuffer entry = body entry ++ List.replicate (13 - (body entry).length) 0 := by
  have bound := body_length full ext
  have blank : (List.replicate 13 (0 : BitVec 8)).set 12 0 = [] ++ List.replicate 13 0 := rfl
  have written := writeAll_from [] (body entry) (n := 13) (by omega)
  have ends : ∀ (before : List (BitVec 8)) (n : Nat),
      (before ++ List.replicate n 0).set before.length 0 = before ++ List.replicate n 0 := by
    intro before n
    rw [List.set_append_right _ _ (Nat.le_refl _),Nat.sub_self]
    cases n with
    | zero => rfl
    | succ n => rw [List.replicate_succ,List.set_cons_zero]
  rw [nameBuffer,nameWrites_eq full,writeAll_append,writeAll_cons (List.replicate 13 0),blank]
  refine (congrArg (fun buffer => writeAll buffer [((body entry).length,0)]) written).trans ?_
  exact ends (body entry) _

/-- A string that is followed by a terminator. -/
theorem text_append (proper : 0 ∉ str) (rest : List (BitVec 8)) : text (str ++ 0 :: rest) = str := by
  rw [text,List.takeWhile_append_of_pos]
  · simp
  · intro c member
    simp only [ne_eq,decide_not,Bool.not_eq_eq_eq_not,Bool.not_true,decide_eq_false_iff_not]
    rintro rfl
    exact proper member

/-- A buffer with a zero is its string, a terminator and the rest. -/
theorem exists_text {buffer : List (BitVec 8)} (ends : 0 ∈ buffer) : ∃ rest, buffer = text buffer ++ 0 :: rest := by
  induction buffer with
  | nil => cases ends
  | cons c buffer ih =>
    by_cases zero : c = 0
    · subst zero
      exact ⟨buffer,rfl⟩
    · have later : 0 ∈ buffer := by
        rcases List.mem_cons.mp ends with here | later
        · exact absurd here.symm zero
        · exact later
      obtain ⟨rest,whole⟩ := ih later
      refine ⟨rest,?_⟩
      have goes : text (c :: buffer) = c :: text buffer := by
        rw [text,List.takeWhile_cons,if_pos (by simpa using zero)]
        rfl
      rw [goes,List.cons_append,← whole]

theorem toLower_proper (proper : 0 ∉ str) : 0 ∉ ToLower str := by
  intro member
  obtain ⟨c,there,lowered⟩ := List.mem_map.mp member
  split at lowered
  · rename_i upper
    have other : ∀ d : BitVec 8, 0x41 ≤ d.toInt ∧ d.toInt ≤ 0x5A → d + 0x20 ≠ 0 := by decide
    exact other c upper lowered
  · exact proper (lowered ▸ there)

theorem text_proper (buffer : List (BitVec 8)) : 0 ∉ text buffer := by
  intro member
  have nonzero := List.mem_takeWhile_imp member
  simp at nonzero

theorem text_eq_self (proper : 0 ∉ str) : text str = str := by
  apply (List.takeWhile_eq_self_iff).mpr
  intro c member
  simp only [ne_eq,decide_not,Bool.not_eq_eq_eq_not,Bool.not_true,decide_eq_false_iff_not]
  rintro rfl
  exact proper member

theorem text_length (buffer : List (BitVec 8)) : (text buffer).length ≤ buffer.length := (List.takeWhile_prefix _).length_le

/-- The string of the buffer ends in what was put together, or at the terminator behind it. -/
theorem nameBuffer_text (full : entry.ShortName.length = 8) (ext : entry.ShortExt.length = 3) :
    0 ∈ nameBuffer entry ∧ text (nameBuffer entry) = text (body entry) := by
  have bound := body_length full ext
  have buffer := nameBuffer_eq full ext
  have behind : 13 - (body entry).length = (12 - (body entry).length) + 1 := by omega
  rw [behind,List.replicate_succ] at buffer
  rw [buffer]
  refine ⟨by simp,?_⟩
  by_cases ends : 0 ∈ body entry
  · obtain ⟨rest,whole⟩ := exists_text ends
    rw [whole,List.append_assoc,List.cons_append,text_append (text_proper _),text_append (text_proper _)]
  · rw [text_append ends,text_eq_self ends]

theorem allWrites_inside (full : entry.ShortName.length = 8) (ext : entry.ShortExt.length = 3) : ∀ w ∈ allWrites entry, w.1 < 13 := by
  intro w member
  have bound := body_length full ext
  rw [allWrites,nameWrites_eq full] at member
  rcases List.mem_append.mp member with written | changed
  · rcases List.mem_append.mp written with first | last
    · rcases List.mem_cons.mp first with rfl | copied
      · exact Nat.lt_succ_self 12
      · have range := writesFrom_range copied
        omega
    · cases List.mem_singleton.mp last
      exact Nat.lt_succ_of_le bound
  · have range := lowerWrites_range changed
    have short := text_length (body entry)
    rw [(nameBuffer_text full ext).2] at range
    omega

/-- All writes of `GetEntryName` are inside its buffer, which then holds the terminated name. -/
theorem getEntryName_buffer (entry : DirectoryEntry) (full : entry.ShortName.length = 8) (ext : entry.ShortExt.length = 3) :
    (∀ w ∈ allWrites entry, w.1 < 13) ∧ 0 ∈ writeAll (List.replicate 13 0) (allWrites entry) ∧
      text (writeAll (List.replicate 13 0) (allWrites entry)) = GetEntryName entry := by
  obtain ⟨ends,same⟩ := nameBuffer_text full ext
  obtain ⟨rest,whole⟩ := exists_text ends
  have result : writeAll (List.replicate 13 0) (allWrites entry) = ToLower (text (body entry)) ++ 0 :: rest := by
    have lowered := writeAll_lower [] (text (nameBuffer entry)) (0 :: rest)
    rw [List.nil_append,List.nil_append,← whole] at lowered
    rw [allWrites,writeAll_append]
    exact lowered.trans (by rw [same])
  refine ⟨allWrites_inside full ext,?_,?_⟩
  · rw [result]
    simp
  · rw [result,text_append (toLower_proper (text_proper _)),getEntryName_eq]

/-- A field holds a name without spaces that is padded with spaces. -/
structure Padded (field name : List (BitVec 8)) (size : Nat) : Prop where
  spaces : field = name ++ List.replicate (size - name.length) 0x20
  proper : 0 ∉ name
  solid : 0x20 ∉ name

/-- An ASCII letter in lower case. -/
def lowerCase (c : BitVec 8) : BitVec 8 := if 0x41 ≤ c.toNat ∧ c.toNat ≤ 0x5A then c + 0x20 else c

/-- That characters are signed makes no difference to `ToLower`. -/
theorem toLower_eq (str : List (BitVec 8)) : ToLower str = str.map lowerCase := by
  have each : ∀ c : BitVec 8, (if 0x41 ≤ c.toInt ∧ c.toInt ≤ 0x5A then c + 0x20 else c) = lowerCase c := by decide
  exact List.map_congr_left (fun c _ => each c)

variable {field name ext : List (BitVec 8)} {size : Nat}

theorem Padded.takeWhile (padded : Padded field name size) : field.takeWhile (· ≠ 0x20) = name := by
  rw [padded.spaces,List.takeWhile_append_of_pos]
  · cases size - name.length with
    | zero => simp
    | succ k => simp [List.replicate_succ]
  · intro c member
    simp only [ne_eq,decide_not,Bool.not_eq_eq_eq_not,Bool.not_true,decide_eq_false_iff_not]
    rintro rfl
    exact padded.solid member

/-- The field starts with a space when it holds no name. -/
theorem Padded.blank_iff (padded : Padded field name size) (some_size : 0 < size) : field.headD 0 = 0x20 ↔ name = [] := by
  rw [padded.spaces]
  cases name with
  | nil =>
    obtain ⟨k,rfl⟩ : ∃ k, size = k + 1 := ⟨size - 1,by omega⟩
    simp [List.replicate_succ]
  | cons c name =>
    have other : c ≠ 0x20 := by
      rintro rfl
      exact padded.solid List.mem_cons_self
    simpa using other

theorem getEntryName_padded (isName : Padded entry.ShortName name 8) (isExt : Padded entry.ShortExt ext 3) :
    GetEntryName entry = name.map lowerCase ++ if ext = [] then [] else 0x2E :: ext.map lowerCase := by
  have whole : body entry = name ++ if ext = [] then [] else 0x2E :: ext := by
    rw [body,isName.takeWhile,isExt.takeWhile]
    by_cases none : ext = []
    · rw [if_neg (not_not.mpr ((isExt.blank_iff (by decide)).mpr none)),if_pos none]
    · rw [if_pos (fun blank => none ((isExt.blank_iff (by decide)).mp blank)),if_neg none]
  have proper : 0 ∉ body entry := by
    rw [whole]
    intro member
    rcases List.mem_append.mp member with first | later
    · exact isName.proper first
    · split at later
      · cases later
      · rcases List.mem_cons.mp later with dot | last
        · exact absurd dot (by decide)
        · exact isExt.proper last
  rw [getEntryName_eq,text_eq_self proper,whole,toLower_eq,List.map_append]
  split
  · rfl
  · rfl

/-- `GetEntryName` writes inside its buffer and leaves a terminator in it, and for a padded name and extension the
    buffer holds them in lower case. -/
theorem getEntryName_correct (raw : Raw) : (∀ w ∈ allWrites raw.directoryEntry, w.1 < 13) ∧
    0 ∈ writeAll (List.replicate 13 0) (allWrites raw.directoryEntry) ∧
    ∀ name ext, Padded raw.directoryEntry.ShortName name 8 → Padded raw.directoryEntry.ShortExt ext 3 →
      text (writeAll (List.replicate 13 0) (allWrites raw.directoryEntry)) =
        name.map lowerCase ++ if ext = [] then [] else 0x2E :: ext.map lowerCase := by
  obtain ⟨inside,ends,same⟩ := getEntryName_buffer raw.directoryEntry (by simp [Raw.directoryEntry])
    (by simp [Raw.directoryEntry])
  refine ⟨inside,ends,?_⟩
  intro name ext isName isExt
  rw [same]
  exact getEntryName_padded isName isExt

/-- The entry of the file `BOOT.TXT`. -/
def bootRaw : Raw := [0x42,0x4F,0x4F,0x54,0x20,0x20,0x20,0x20,0x54,0x58,0x54]

theorem getEntryName_correct_boot : text (writeAll (List.replicate 13 0) (allWrites bootRaw.directoryEntry)) =
    [0x62,0x6F,0x6F,0x74,0x2E,0x74,0x78,0x74] := by
  have isName : Padded bootRaw.directoryEntry.ShortName [0x42,0x4F,0x4F,0x54] 8 := ⟨by decide,by decide,by decide⟩
  have isExt : Padded bootRaw.directoryEntry.ShortExt [0x54,0x58,0x54] 3 := ⟨by decide,by decide,by decide⟩
  exact ((getEntryName_correct bootRaw).2.2 _ _ isName isExt).trans (by decide)

end WaifuOS.FAT32.ShortNames
