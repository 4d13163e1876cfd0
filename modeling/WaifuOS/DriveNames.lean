import WaifuOS.PathFailures

/-!
Hexadecimal numbers as they are written. `_ToIntBase16` tells letters from numbers by one
threshold, so that a small letter counts 32 more than it stands for. `toInt_hex_iff` says
when the value of a text is right all the same: when no small letter is among its last 15
digits. The drive of a path is named by one digit, so that a small letter names another drive,
and `GetEntryInfo` asks that one.
-/
namespace WaifuOS.FAT32
open WaifuOS.cstr

/-- The letters `a` to `f`. -/
def IsSmall (c : BitVec 8) : Prop := 0x61 ≤ c ∧ c ≤ 0x66

/-- A hexadecimal digit, in either case. -/
def IsHex (c : BitVec 8) : Prop := (0x30 ≤ c ∧ c ≤ 0x39) ∨ (0x41 ≤ c ∧ c ≤ 0x46) ∨ IsSmall c

instance (c : BitVec 8) : Decidable (IsSmall c) := inferInstanceAs (Decidable (_ ∧ _))

instance (c : BitVec 8) : Decidable (IsHex c) := inferInstanceAs (Decidable (_ ∨ _ ∨ _))

/-- What a hexadecimal digit stands for. -/
def hexWorth (c : BitVec 8) : Nat :=
  if IsSmall c then c.toNat - 0x57 else if 0x41 ≤ c then c.toNat - 0x37 else c.toNat - 0x30

/-- The number that hexadecimal digits write, the highest first. -/
def denoted (digits : List (BitVec 8)) : Nat := Nat.ofDigits 16 (digits.reverse.map hexWorth)

/-- The prefixes that `_ToIntBase16` knows, and none. -/
def hexPrefixes : List (List (BitVec 8)) := [[],[0x30,0x78],[0x30,0x58]]

variable {c : BitVec 8} {digits front : List (BitVec 8)}

/-- The value that `_ToIntBase16` takes a digit for. -/
theorem hexDigit_read (hex : IsHex c) :
    (if c.toInt > 0x39 then c.signExtend 64 - 0x37 else c.signExtend 64 - 0x30) =
      1 * ((hexWorth c + if IsSmall c then 32 else 0 : Nat) : BitVec 64) := by
  revert c
  decide +kernel

/-- The value that `_ToIntBase16` takes a text for. -/
theorem toIntBase16_eq (known : front ∈ hexPrefixes) (hex : ∀ c ∈ digits, IsHex c) :
    ToIntBase16 (front ++ digits) =
      (Nat.ofDigits 16 (digits.reverse.map (fun c => hexWorth c + if IsSmall c then 32 else 0)) : Nat) := by
  have folded := foldl_value 16 (fun c => if c.toInt > 0x39 then c.signExtend 64 - 0x37 else c.signExtend 64 - 0x30)
    (fun c => hexWorth c + if IsSmall c then 32 else 0) digits (fun c member => hexDigit_read (hex c member))
  rw [one_mul] at folded
  rw [← folded,ToIntBase16]
  simp only [hexPrefixes,List.mem_cons,List.not_mem_nil,or_false] at known
  rcases known with rfl | rfl | rfl
  · -- No digit looks like the `x` of a prefix.
    rw [List.nil_append,if_neg]
    · rfl
    · rintro ⟨long,-,mark⟩
      rw [List.getD_eq_getElem _ _ (by omega)] at mark
      have digit := hex _ (List.getElem_mem (show 1 < digits.length by omega))
      rcases mark with mark | mark <;> rw [mark] at digit <;> exact absurd digit (by decide)
  · simp
  · simp

theorem ofDigits_smalls (cs : List (BitVec 8)) : Nat.ofDigits 16 (cs.map (fun c => hexWorth c + if IsSmall c then 32 else 0)) =
    Nat.ofDigits 16 (cs.map hexWorth) + 32 * Nat.ofDigits 16 (cs.map (fun c => if IsSmall c then 1 else 0)) := by
  induction cs with
  | nil => rfl
  | cons c cs ih =>
    simp only [List.map_cons,Nat.ofDigits_cons,ih]
    split <;> omega

/-- Digits that are 0 or 1 write a number below a fifteenth of the next power. -/
theorem ofDigits_bits {ds : List Nat} (bits : ∀ d ∈ ds, d ≤ 1) : 15 * Nat.ofDigits 16 ds < 16^ds.length := by
  induction ds with
  | nil => decide
  | cons d ds ih =>
    have first := bits d List.mem_cons_self
    have later := ih (fun d member => bits d (List.mem_cons_of_mem _ member))
    rw [Nat.ofDigits_cons,List.length_cons,pow_succ]
    omega

theorem ofDigits_eq_zero {ds : List Nat} : Nat.ofDigits 16 ds = 0 ↔ ∀ d ∈ ds, d = 0 := by
  induction ds with
  | nil => simp
  | cons d ds ih =>
    rw [Nat.ofDigits_cons,Nat.add_eq_zero_iff,List.forall_mem_cons,← ih]
    simp

/-- 32 times a number of such digits is 0 as a word if and only if the last 15 are. -/
theorem bits_wrap_iff {ds : List Nat} (bits : ∀ d ∈ ds, d ≤ 1) :
    32 * Nat.ofDigits 16 ds % 2^64 = 0 ↔ ∀ d ∈ ds.take 15, d = 0 := by
  have low := ofDigits_bits (fun d member => bits d (List.mem_of_mem_take (i := 15) member))
  rw [← ofDigits_eq_zero]
  by_cases long : ds.length ≤ 15
  · have bound : 16^ds.length ≤ 16^15 := Nat.pow_le_pow_right (by decide) long
    rw [List.take_of_length_le long] at low ⊢
    omega
  · have size : (ds.take 15).length = 15 := List.length_take_of_le (by omega)
    have parts : Nat.ofDigits 16 (ds.take 15 ++ ds.drop 15) = Nat.ofDigits 16 (ds.take 15) +
        16^(ds.take 15).length * Nat.ofDigits 16 (ds.drop 15) := Nat.ofDigits_append
    rw [List.take_append_drop,size] at parts
    rw [size] at low
    omega

/-- The value of a text is right if and only if no small letter is among its last 15 digits. -/
theorem toIntBase16_iff (known : front ∈ hexPrefixes) (hex : ∀ c ∈ digits, IsHex c) :
    ToInt (front ++ digits) true = BitVec.ofNat 64 (denoted digits) ↔ ∀ c ∈ digits.reverse.take 15, ¬ IsSmall c := by
  have bits : ∀ d ∈ digits.reverse.map (fun c => if IsSmall c then 1 else 0), d ≤ 1 := by
    intro d member
    obtain ⟨c,-,rfl⟩ := List.mem_map.mp member
    split <;> decide
  have places : (∀ d ∈ (digits.reverse.map (fun c => if IsSmall c then 1 else 0)).take 15, d = 0) ↔
      ∀ c ∈ digits.reverse.take 15, ¬ IsSmall c := by
    rw [← List.map_take,List.forall_mem_map]
    refine forall_congr' (fun c => imp_congr_right (fun _ => ?_))
    split <;> simp_all
  rw [← places,← bits_wrap_iff bits,ToInt,if_pos rfl,toIntBase16_eq known hex,ofDigits_smalls,← denoted,
    BitVec.natCast_eq_ofNat,← BitVec.toNat_inj,BitVec.toNat_ofNat,BitVec.toNat_ofNat]
  omega

/-- The number that a path names, where it starts with a hexadecimal digit. -/
theorem driveNum_eq {path : WString} (hex : IsHex c) (first : path.getD 0 0 = c.toNat) :
    (driveNum path).toNat = hexWorth c + if IsSmall c then 32 else 0 := by
  have char : BitVec.ofNat 8 (path.getD 0 0) = c := by rw [first,BitVec.ofNat_toNat,BitVec.setWidth_eq]
  rw [driveNum,char]
  clear first char
  revert c
  decide +kernel

/-- What is answered when the drive is chosen. -/
def answerOf {σ : Type} (find : Drive → Lookup σ) (blank info : EntryInfo) (s : σ) (path : WString) :
    Option Drive → Option (Status × EntryInfo × σ)
  | none => some (.BadVolume,info,s)
  | some drive => (drive.driver.GetEntryInfo (find drive) blank info s (path.drop 2)).result

/-- `FAT32::GetEntryInfo` hands a path to the first drive with a number, whatever is on the drives. -/
def AnswersFrom (Drives : List Drive) (path : WString) (id : Nat) : Prop :=
  ∀ (σ : Type) (find : Drive → Lookup σ) (blank info : EntryInfo) (s : σ), GetEntryInfo Drives find blank info s path =
    answerOf find blank info s path (Drives.find? (fun drive => drive.driver.mDriveID = id))

theorem getEntryInfo_answer {σ : Type} {path : WString} (Drives : List Drive) (find : Drive → Lookup σ) (blank info : EntryInfo) (s : σ)
    (long : 2 ≤ path.length) : GetEntryInfo Drives find blank info s path = answerOf find blank info s path (driveOf Drives path) := by
  rw [GetEntryInfo,if_neg (by omega)]
  cases driveOf Drives path <;> rfl

/-- A path without a name is answered by no lookup. -/
theorem answerOf_nameless {σ : Type} {path : WString} {find : Drive → Lookup σ} {blank info : EntryInfo} {s : σ} (proper : 0 ∉ path.drop 2)
    (nameless : trim (path.drop 2) = []) (drive : Drive) : answerOf find blank info s path (some drive) = some (.BadPath,info,s) := by
  rw [answerOf,getEntryInfo_trim _ info s proper,if_pos nameless]

/-- One with a name is answered by its drive alone: nothing comes of it where the first lookup does not return. -/
theorem answerOf_named {path : WString} {find : Drive → Lookup Unit} {blank info : EntryInfo} (proper : 0 ∉ path.drop 2)
    (named : trim (path.drop 2) ≠ []) {drive : Drive} {answer : Option Status}
    (same : ∀ s name current, find drive s name current = answer.map (·,current,s)) (fails : answer ≠ some .Ok) :
    (answerOf find blank info () path (some drive)).map (·.1) = answer := by
  rw [answerOf,getEntryInfo_trim _ info () proper,if_neg named,resolve_result]
  cases indexOfSlash (wstrToLower (trim (path.drop 2))) with
  | none => cases answer <;> simp [same]
  | some index =>
    cases answer with
    | none => simp [same]
    | some status =>
      have failed : status ≠ .Ok := fun ok => fails (congrArg some ok)
      simp [same,failed]

/-- A lookup that fails on the drives with a number, and does not return on the others. -/
def failsOn (id : Nat) : Drive → Lookup Unit := fun drive s _ current =>
  if drive.driver.mDriveID = id then some (.Error,current,s) else none

/-- Two choices are told apart, but for two drives where the path has no name. -/
theorem answerOf_eq_iff {path : WString} (proper : 0 ∉ path.drop 2) {a b : Option Drive} {i j : Nat} (other : i ≠ j)
    (first : ∀ drive ∈ a, drive.driver.mDriveID = i) (second : ∀ drive ∈ b, drive.driver.mDriveID = j) :
    (∀ (σ : Type) (find : Drive → Lookup σ) (blank info : EntryInfo) (s : σ),
        answerOf find blank info s path a = answerOf find blank info s path b) ↔
      (a = none ∧ b = none) ∨ (trim (path.drop 2) = [] ∧ a ≠ none ∧ b ≠ none) := by
  constructor
  · intro same
    have told := same Unit (failsOn i) (fileEntry 0 0) (fileEntry 0 0) ()
    by_cases nameless : trim (path.drop 2) = []
    · cases a <;> cases b
      · exact .inl ⟨rfl,rfl⟩
      · rw [answerOf_nameless proper nameless] at told
        cases told
      · rw [answerOf_nameless proper nameless] at told
        cases told
      · exact .inr ⟨nameless,by simp,by simp⟩
    · have told := congrArg (Option.map (·.1)) told
      have failed : ∀ drive ∈ a, (answerOf (failsOn i) (fileEntry 0 0) (fileEntry 0 0) () path (some drive)).map (·.1) = some .Error :=
        fun drive member => answerOf_named proper nameless (fun s name current => if_pos (first drive member)) (by decide)
      have stuck : ∀ drive ∈ b, (answerOf (failsOn i) (fileEntry 0 0) (fileEntry 0 0) () path (some drive)).map (·.1) = none :=
        fun drive member => answerOf_named proper nameless
          (fun s name current => if_neg (by rw [second drive member]; exact other.symm)) (by decide)
      cases a <;> cases b
      · exact .inl ⟨rfl,rfl⟩
      · rw [stuck _ rfl] at told
        cases told
      · rw [failed _ rfl] at told
        cases told
      · rw [failed _ rfl,stuck _ rfl] at told
        cases told
  · rintro (⟨rfl,rfl⟩ | ⟨nameless,some_a,some_b⟩) σ find blank info s
    · rfl
    · obtain ⟨d,rfl⟩ := Option.ne_none_iff_exists'.mp some_a
      obtain ⟨e,rfl⟩ := Option.ne_none_iff_exists'.mp some_b
      rw [answerOf_nameless proper nameless,answerOf_nameless proper nameless]

/-- A path is answered by the drive that its digit names, unless that is a small letter: then only if there is no drive
    for either number, or one for each and no name to look up. -/
theorem answersFrom_iff {path : WString} (Drives : List Drive) (hex : IsHex c) (first : path.getD 0 0 = c.toNat)
    (long : 2 ≤ path.length) (proper : 0 ∉ path.drop 2) : AnswersFrom Drives path (hexWorth c) ↔ ¬ IsSmall c ∨
      (∀ drive ∈ Drives, drive.driver.mDriveID ≠ hexWorth c ∧ drive.driver.mDriveID ≠ hexWorth c + 32) ∨
      (trim (path.drop 2) = [] ∧ (∃ drive ∈ Drives, drive.driver.mDriveID = hexWorth c) ∧
        ∃ drive ∈ Drives, drive.driver.mDriveID = hexWorth c + 32) := by
  have chosen : ∀ id, ∀ drive ∈ Drives.find? (fun drive => drive.driver.mDriveID = id), drive.driver.mDriveID = id :=
    fun id drive found => by simpa using List.find?_some found
  have absent : ∀ id, Drives.find? (fun drive => drive.driver.mDriveID = id) = none ↔ ∀ drive ∈ Drives, drive.driver.mDriveID ≠ id := by
    simp
  have present : ∀ id, Drives.find? (fun drive => drive.driver.mDriveID = id) ≠ none ↔ ∃ drive ∈ Drives, drive.driver.mDriveID = id := by
    simp [absent]
  simp only [AnswersFrom,getEntryInfo_answer Drives _ _ _ _ long,driveOf,driveNum_eq hex first]
  by_cases small : IsSmall c
  · rw [if_pos small,answerOf_eq_iff proper (by omega) (chosen _) (chosen _),absent,absent,present,present]
    simp only [small,not_true_eq_false,false_or,forall_and]
    exact or_congr and_comm (and_congr_right fun _ => and_comm)
  · rw [if_neg small,Nat.add_zero]
    exact ⟨fun _ => .inl small,fun _ _ _ _ _ _ => rfl⟩

/-- A text of hexadecimal digits has the value that it denotes if and only if no small letter is among its
    last 15 digits, and `FAT32::GetEntryInfo` hands a path to the drive that its first digit names if and only if that is no
    small letter, or no drive is there for either number, or one for each and nothing to look up on it. -/
theorem toInt_hex_iff {path : WString} (Drives : List Drive)
    (known : front ∈ hexPrefixes) (hex : ∀ c ∈ digits, IsHex c) (digit : IsHex c)
    (first : path.getD 0 0 = c.toNat) (long : 2 ≤ path.length) (proper : 0 ∉ path.drop 2) :
    (ToInt (front ++ digits) true = BitVec.ofNat 64 (denoted digits) ↔ ∀ c ∈ digits.reverse.take 15, ¬ IsSmall c) ∧
      (AnswersFrom Drives path (hexWorth c) ↔ ¬ IsSmall c ∨
        (∀ drive ∈ Drives, drive.driver.mDriveID ≠ hexWorth c ∧ drive.driver.mDriveID ≠ hexWorth c + 32) ∨
        (trim (path.drop 2) = [] ∧ (∃ drive ∈ Drives, drive.driver.mDriveID = hexWorth c) ∧
          ∃ drive ∈ Drives, drive.driver.mDriveID = hexWorth c + 32)) :=
  ⟨toIntBase16_iff known hex,answersFrom_iff Drives digit first long proper⟩

theorem toInt_hex_iff_large : AnswersFrom [smallDrive] [0x42,0x3A,0x61] (hexWorth 0x42) ∧
    ToInt ([0x30,0x78] ++ [0x41,0x39]) true = BitVec.ofNat 64 (denoted [0x41,0x39]) :=
  have both := @toInt_hex_iff 0x42 [0x41,0x39] [0x30,0x78] [0x42,0x3A,0x61] [smallDrive] (by decide) (by decide) (by decide) rfl
    (by decide) (by decide)
  ⟨both.2.mpr (.inl (by decide)),both.1.mpr (by decide)⟩

/-- The text `a` counts as 42. -/
theorem toInt_small_wrong : ToInt [0x61] true ≠ BitVec.ofNat 64 (denoted [0x61]) := by
  decide

end WaifuOS.FAT32
