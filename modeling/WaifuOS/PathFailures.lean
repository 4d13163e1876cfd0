import WaifuOS.NumberTexts
import WaifuOS.PathClusters

/-!
What a failing `GetEntryInfo` leaves in the caller's object. The function of `FSDriver` looks
the parts of a path up one after another, and that of the namespace picks the drive by the
first character of the path. The object is assigned when the last part is looked up, whether
it is found or not; `getEntryInfo_kept_iff` says that a failing call leaves every object as
it was if and only if it is not that lookup that fails (`LastMissed`).
-/
namespace WaifuOS.FAT32
open WaifuOS.AHCI WaifuOS.Bytes WaifuOS.cstr

variable {σ : Type}

/-- A driver of `Drives`, with the number of its port and the device behind it. -/
structure Drive where
  driver : FSDriver
  port : Nat
  device : Device

/-- `FindEntry` on a drive. The state is how many calls there were, the ports and the memory. -/
def Drive.find (behind : Nat → Nat → List Nat) (clusterBuffer fuel : Nat) (nullName : WString) (drive : Drive) :
    Lookup (Nat × (Nat → ATAPort) × Mem) :=
  fun (n,ports,m) name current =>
    (drive.driver.lookup drive.device (behind n) clusterBuffer fuel nullName (ports drive.port,m) name current).map
      (fun (status,entry,p,m) => (status,entry,n+1,Function.update ports drive.port p,m))

/-- The number of the drive that a path names. -/
def driveNum (path : WString) : BitVec 8 :=
  let driveNum := BitVec.ofNat 8 (path.getD 0 0)
  -- The text ends at once where the character is a terminator.
  let dnums := if driveNum = 0 then [] else [driveNum]
  (ToIntBase16 dnums).setWidth 8

/-- The first drive with the number that a path names. -/
def driveOf (Drives : List Drive) (path : WString) : Option Drive :=
  Drives.find? (fun drive => drive.driver.mDriveID = (driveNum path).toNat)

/-- `FAT32::GetEntryInfo`. -/
def GetEntryInfo (Drives : List Drive) (find : Drive → Lookup σ) (blank info : EntryInfo) (s : σ) (path : WString) :
    Option (Status × EntryInfo × σ) :=
  if path.length < 2 then some (.BadPath,info,s)
  else
    match driveOf Drives path with
    | none => some (.BadVolume,info,s)
    | some drive => (drive.driver.GetEntryInfo (find drive) blank info s (path.drop 2)).result

/-- A call that returns another status than `Ok` leaves the caller's object as it was, whatever it holds. -/
def KeepsObject (call : EntryInfo → Option (Status × EntryInfo × σ)) : Prop :=
  ∀ info status info' s', call info = some (status,info',s') → status ≠ .Ok → info' = info

/-- All parts of a path but the last are found, and the lookup of the last one fails. -/
inductive LastMissed (find : Lookup σ) : σ → EntryInfo → List (Option WString) → Prop
  | last {s s' : σ} {current entry : EntryInfo} {name : Option WString} {status : Status}
      (returned : find s name current = some (status,entry,s')) (fails : status ≠ .Ok) : LastMissed find s current [name]
  | later {s s' : σ} {current current' : EntryInfo} {name : Option WString} {names : List (Option WString)}
      (found : find s name current = some (.Ok,current',s')) (missed : LastMissed find s' current' names) :
      LastMissed find s current (name :: names)

variable {find : Lookup σ} {s s' : σ} {current info info' : EntryInfo} {status : Status} {text path : WString}

/-- The loop looks up the last part, or one that others follow. -/
theorem resolve_result (find : Lookup σ) (info : EntryInfo) (s : σ) (current : EntryInfo) (text : WString) :
    (FSDriver.resolve find info s current text).result =
      match indexOfSlash text with
      | none => find s (some text) current
      | some index =>
        match find s (wsubstring text 0 index) current with
        | none => none
        | some (stat,current,s) =>
          if stat ≠ .Ok then some (stat,info,s) else (FSDriver.resolve find info s current (text.drop (index+1))).result := by
  rw [FSDriver.resolve]
  split
  · next last => simp only [last]
  · next index cut =>
    simp only [cut]
    cases find s (wsubstring text 0 index) current with
    | none => rfl
    | some answer =>
      obtain ⟨stat,current',s'⟩ := answer
      by_cases ok : stat = .Ok
      · simp [ok,Resolution.after]
      · simp [ok]

/-- What is left of the path behind a cut is shorter. -/
theorem rest_shorter {index : Nat} (cut : indexOfSlash text = some index) : (text.drop (index+1)).length < text.length := by
  obtain ⟨name,c,rest,whole,here,_⟩ := indexOfSlash_some cut
  rw [List.length_drop,whole,List.length_append,List.length_cons]
  omega

/-- Where the last part is not found, the object is assigned the entry that the lookup leaves. -/
theorem resolve_missed (missed : LastMissed find s current (parts text)) :
    ∃ status entry s', status ≠ .Ok ∧ ∀ info, (FSDriver.resolve find info s current text).result = some (status,entry,s') := by
  induction size : text.length using Nat.strong_induction_on generalizing text s current with
  | _ n ih =>
    cases cut : indexOfSlash text with
    | none =>
      rw [parts_last cut] at missed
      cases missed with
      | last returned fails => exact ⟨_,_,_,fails,fun info => by rw [resolve_result,cut]; exact returned⟩
      | later found missed => cases missed
    | some index =>
      rw [parts_cut cut] at missed
      generalize more : parts (text.drop (index+1)) = names at missed
      cases missed with
      | last =>
        -- A cut is followed by a part.
        have none := congrArg List.length more
        rw [parts] at none
        split at none <;> simp at none
      | later found missed =>
        subst more
        obtain ⟨status,entry,s',fails,result⟩ := ih _ (by rw [← size]; exact rest_shorter cut) missed rfl
        refine ⟨status,entry,s',fails,?_⟩
        intro info
        rw [resolve_result,cut]
        simp only [found,ne_eq,not_true_eq_false,if_false]
        exact result info

/-- Where another part is not found, the object is left. -/
theorem resolve_kept (notMissed : ¬ LastMissed find s current (parts text)) :
    KeepsObject (fun info => (FSDriver.resolve find info s current text).result) := by
  intro info status info' s' returned fails
  induction size : text.length using Nat.strong_induction_on generalizing text s current with
  | _ n ih =>
    dsimp only at returned
    rw [resolve_result] at returned
    cases cut : indexOfSlash text with
    | none =>
      rw [cut] at returned
      rw [parts_last cut] at notMissed
      exact absurd (.last returned fails) notMissed
    | some index =>
      rw [cut] at returned
      rw [parts_cut cut] at notMissed
      cases found : find s (wsubstring text 0 index) current with
      | none => simp [found] at returned
      | some answer =>
        obtain ⟨stat,current',s₁⟩ := answer
        by_cases ok : stat = .Ok
        · subst ok
          simp only [found,ne_eq,not_true_eq_false,if_false] at returned
          exact ih _ (by rw [← size]; exact rest_shorter cut) (fun missed => notMissed (.later found missed)) returned rfl
        · simp only [found,ne_eq,ok,not_false_eq_true,if_true,Option.some.injEq,Prod.mk.injEq] at returned
          exact returned.2.1.symm

theorem LastMissed.some_parts {names : List (Option WString)} (missed : LastMissed find s current names) : names ≠ [] := by
  cases missed <;> simp

/-- An object that differs from a given one. -/
theorem exists_other (entry : EntryInfo) : ∃ info : EntryInfo, info ≠ entry := by
  refine ⟨{ entry with FileSize := entry.FileSize + 1 },?_⟩
  intro same
  have sizes := congrArg EntryInfo.FileSize same
  exact absurd sizes (Nat.succ_ne_self _)

theorem driver_missed (proper : 0 ∉ path) (d : FSDriver) (blank : EntryInfo) (missed : LastMissed find s (d.rootEntry blank) (pathParts path)) :
    ∃ status entry s', status ≠ .Ok ∧ ∀ info, (d.GetEntryInfo find blank info s path).result = some (status,entry,s') := by
  have some_chars : trim path ≠ [] := fun empty => missed.some_parts (if_pos empty)
  rw [pathParts,if_neg some_chars] at missed
  obtain ⟨status,entry,s',fails,result⟩ := resolve_missed missed
  refine ⟨status,entry,s',fails,?_⟩
  intro info
  rw [getEntryInfo_trim find info s proper,if_neg some_chars]
  exact result info

/-- `FSDriver::GetEntryInfo` leaves the object unless it fails in the last lookup. -/
theorem driver_kept_iff (find : Lookup σ) (s : σ) (proper : 0 ∉ path) (d : FSDriver) (blank : EntryInfo) :
    KeepsObject (fun info => (d.GetEntryInfo find blank info s path).result) ↔ ¬ LastMissed find s (d.rootEntry blank) (pathParts path) := by
  constructor
  · intro kept missed
    obtain ⟨status,entry,s',fails,result⟩ := driver_missed proper d blank missed
    obtain ⟨info,other⟩ := exists_other entry
    exact other (kept info status entry s' (result info) fails).symm
  · intro notMissed info status info' s' returned fails
    dsimp only at returned
    rw [getEntryInfo_trim find info s proper] at returned
    by_cases empty : trim path = []
    · rw [if_pos empty] at returned
      cases returned
      rfl
    · rw [if_neg empty] at returned
      rw [pathParts,if_neg empty] at notMissed
      exact resolve_kept notMissed info status info' s' returned fails

/-- So does `FAT32::GetEntryInfo`, on the drive that the path names. -/
theorem drives_kept_iff (Drives : List Drive) (find : Drive → Lookup σ) (s : σ) (proper : 0 ∉ path) (blank : EntryInfo) :
    KeepsObject (fun info => GetEntryInfo Drives find blank info s path) ↔ ∀ drive, 2 ≤ path.length → driveOf Drives path = some drive →
      ¬ LastMissed (find drive) s (drive.driver.rootEntry blank) (pathParts (path.drop 2)) := by
  have rest : 0 ∉ path.drop 2 := fun member => proper (List.mem_of_mem_drop member)
  by_cases short : path.length < 2
  · have stays : KeepsObject (fun info => GetEntryInfo Drives find blank info s path) := by
      intro info status info' s' returned _
      simp only [GetEntryInfo,if_pos short] at returned
      cases returned
      rfl
    exact iff_of_true stays (fun drive long => absurd long (by omega))
  simp only [GetEntryInfo,if_neg short]
  cases named : driveOf Drives path with
  | none =>
    refine iff_of_true ?_ (fun drive _ none => by cases none)
    intro info status info' s' returned _
    cases returned
    rfl
  | some drive =>
    simp only [Option.some.injEq]
    rw [driver_kept_iff (find drive) s rest drive.driver blank]
    constructor
    · rintro notMissed _ _ rfl
      exact notMissed
    · exact fun all => all drive (by omega) rfl

/-- A failing call leaves the caller's object as it was if and only if it is not the lookup of the last part
    that fails: in `FSDriver::GetEntryInfo`, and in `FAT32::GetEntryInfo` on the drive that the path names. -/
theorem getEntryInfo_kept_iff (proper : 0 ∉ path) (Drives : List Drive) (behind : Nat → Nat → List Nat) (clusterBuffer fuel : Nat)
    (nullName : WString) (s : Nat × (Nat → ATAPort) × Mem) (blank : EntryInfo) :
    (∀ drive : Drive, KeepsObject (fun info =>
        (drive.driver.GetEntryInfo (drive.find behind clusterBuffer fuel nullName) blank info s path).result) ↔
      ¬ LastMissed (drive.find behind clusterBuffer fuel nullName) s (drive.driver.rootEntry blank) (pathParts path)) ∧
    (KeepsObject (fun info => GetEntryInfo Drives (Drive.find behind clusterBuffer fuel nullName) blank info s path) ↔
      ∀ drive, 2 ≤ path.length → driveOf Drives path = some drive →
        ¬ LastMissed (drive.find behind clusterBuffer fuel nullName) s (drive.driver.rootEntry blank) (pathParts (path.drop 2))) :=
  ⟨fun drive => driver_kept_iff _ s proper drive.driver blank,drives_kept_iff Drives _ s proper blank⟩

/-- The small volume, as the only drive. -/
def smallDrive : Drive := ⟨.mount 0 smallEBR,0,smallDisk.device⟩

/-- No part is found in a root directory that ends at once. -/
theorem smallDrive_find (name : Option WString) : ∃ s',
    smallDrive.find (fun _ _ => []) 0x130000 1 [] (0,fun _ => idlePort,fun _ => 0) name (smallDrive.driver.rootEntry (fileEntry 0 0)) =
      some (.NotFound,smallDrive.driver.rootEntry (fileEntry 0 0),s') := by
  have cluster := small_cluster (c := 2) (by decide) (by decide)
  have ready : Buffered idlePort 8 false := ⟨rfl,rfl⟩
  obtain ⟨p',m',_,round⟩ := search_succ small_wellFormed cluster ready (fun _ => 0) 0 0x130000 (fun _ => []) (name.getD [])
    (smallDrive.driver.rootEntry (fileEntry 0 0))
  have first : ∃ slot slots, smallDisk.readSlots smallEBR 2 = slot :: slots ∧ slot.2.Ends :=
    ⟨(2,Raw.read (smallDisk.readByte (smallEBR.firstSector 2)) 0),_,rfl,by decide +kernel⟩
  obtain ⟨slot,slots,whole,ends⟩ := first
  have scanned : smallDrive.driver.scan (fun _ => []) (name.getD []) 0 [] (slot :: slots) = some ([slot],.ended) :=
    (@scan_cons _ _ _ [] slots [slot] slot .ended).mpr ⟨.ended,examine_ends ends,rfl,rfl⟩
  have searched := round 0 [] []
  rw [whole,List.length_nil] at searched
  refine ⟨(1,Function.update (fun _ => idlePort) smallDrive.port p',m'),?_⟩
  have found : smallDrive.driver.FindEntry smallDrive.device (fun _ => []) 0x130000 1 idlePort (fun _ => 0) (name.getD [])
      (smallDrive.driver.rootEntry (fileEntry 0 0)) (some (smallDrive.driver.rootEntry (fileEntry 0 0))) =
        some ⟨.NotFound,smallDrive.driver.rootEntry (fileEntry 0 0),[slot],p',m'⟩ := by
    rw [findEntry_directory _ _ _ _ _ _ _ _ rfl (by decide)]
    apply searched.trans
    rw [show (FSDriver.mount 0 smallEBR).scan (fun _ => []) (name.getD []) 0 [] (slot :: slots) = _ from scanned]
    rfl
  rw [Drive.find,FSDriver.lookup,found]
  rfl

theorem smallDrive_named : driveOf [smallDrive] [0x30,0x3A,0x61] = some smallDrive := rfl

/-- In a path of two parts it is the first one that is not found. -/
theorem getEntryInfo_kept_iff_first : 0 ∉ [0x61,slash,0x62] ∧ KeepsObject (fun info => (smallDrive.driver.GetEntryInfo
    (smallDrive.find (fun _ _ => []) 0x130000 1 []) (fileEntry 0 0) info (0,fun _ => idlePort,fun _ => 0) [0x61,slash,0x62]).result) := by
  have proper : 0 ∉ [0x61,slash,0x62] := by decide
  obtain ⟨s',returned⟩ := smallDrive_find (some [0x61])
  have names : pathParts [0x61,slash,0x62] = [some [0x61],some [0x62]] := by decide +kernel
  refine ⟨proper,((getEntryInfo_kept_iff proper [] _ _ _ _ _ _).1 smallDrive).mpr ?_⟩
  rw [names]
  intro missed
  cases missed with
  | later found missed =>
    rw [returned] at found
    cases found

/-- The path `0:a`: the object becomes the entry of the root directory. -/
theorem getEntryInfo_overwrites : ¬ KeepsObject (fun info => GetEntryInfo [smallDrive] (Drive.find (fun _ _ => []) 0x130000 1 [])
    (fileEntry 0 0) info (0,fun _ => idlePort,fun _ => 0) [0x30,0x3A,0x61]) := by
  obtain ⟨s',returned⟩ := smallDrive_find (some [0x61])
  have names : pathParts [0x61] = [some [0x61]] := by decide +kernel
  have missed : LastMissed (smallDrive.find (fun _ _ => []) 0x130000 1 []) (0,fun _ => idlePort,fun _ => 0)
      (smallDrive.driver.rootEntry (fileEntry 0 0)) (pathParts [0x61]) := by
    rw [names]
    exact .last returned (by decide)
  rw [drives_kept_iff _ _ _ (by decide)]
  exact fun all => all smallDrive (by decide) smallDrive_named missed

end WaifuOS.FAT32
