import WaifuOS.Entries
import WaifuOS.FileReads
import WaifuOS.Searches

/-!
How `FindEntry` searches a directory. It reads a cluster and examines its entries one
after another; an end marker or the entry with the name ends the search (`Stops`). Behind
the last entry of the cluster it reads the same cluster again: the chain of the directory is
not followed. `findEntry_iff` says when the call still examines the entries of the chain in
their order, up to the first one that ends the search: when that one stands in the first
cluster. A cluster that does not end the search is read forever (`findEntry_never`).
-/
namespace WaifuOS.FAT32
open WaifuOS.Bytes WaifuOS.AHCI WaifuOS.cstr WaifuOS.Searches

/-- An entry, with the cluster that was read for it. -/
abbrev Slot := Nat × Raw

/-- What examining an entry does: the entry is found, the directory ends there, or the search goes
    on with pieces of a long name. -/
inductive Examined
  | found (info : EntryInfo)
  | ended
  | more (nameEntries : List LFNEntry)

/-- What `FindEntry` returns and leaves behind, with the entries it has examined. -/
structure Answer where
  status : Status
  out : EntryInfo
  examined : List Slot
  port : ATAPort
  memory : Mem

namespace FSDriver

/-- The body of the inner loop. The copy of the long name is as long as the name, without room for a
    terminator; `behind` is what stands in memory behind it. There is no result when a piece
    of the long name is written outside of its buffer. -/
def examine (d : FSDriver) (behind : List Nat) (name : WString) (nameEntries : List LFNEntry) (raw : Raw) : Option Examined :=
  let entry := raw.directoryEntry
  -- `ShortName` has signed characters, and both cases are compared as an `int`.
  let first := (entry.ShortName.headD 0).toInt
  if first = ENTRY_END then some .ended
  else if first = ENTRY_DELETED then some (.more nameEntries)
  else if entry.EntryAttributes = EntryAttribute.LFN then some (.more (nameEntries ++ [raw.lfnEntry]))
  else if nameEntries.length > 0 then do
    let lfnName ← GetEntryNameLFN nameEntries
    let len := lfnName.length
    let lfnNameLower := wstrToLower (ofBuffer (wstrncpy (List.replicate len 0) 0 lfnName len ++ behind))
    if name = lfnNameLower then some (.found (.FromDirectoryEntry entry d.mDriveID (some lfnName)))
    else some (.more [])
  else
    let wEntryName := cstrTowstr (GetEntryName entry)
    if name = wEntryName then some (.found (.FromDirectoryEntry entry d.mDriveID none))
    else some (.more nameEntries)

/-- The inner loop, after `count` entries: the entries it examines, and what the last of them did. -/
def scan (d : FSDriver) (behind : Nat → List Nat) (name : WString) (count : Nat) (nameEntries : List LFNEntry) :
    List Slot → Option (List Slot × Examined)
  | [] => some ([],.more nameEntries)
  | slot :: slots => do
    match ← d.examine (behind count) name nameEntries slot.2 with
    | .more nameEntries =>
      let (examined,result) ← scan d behind name (count+1) nameEntries slots
      some (slot :: examined,result)
    | result => some ([slot],result)

/-- The outer loop with `fuel` rounds left. -/
def search (d : FSDriver) (device : Device) (behind : Nat → List Nat) (clusterBuffer startCluster : Nat) (name : WString) (out : EntryInfo) :
    Nat → ATAPort → Mem → List Slot → List LFNEntry → Option Answer
  | 0, _, _, _, _ => none
  | fuel+1, p, m, examined, nameEntries => do
    let (done,p,m) ← d.ReadCluster device p m startCluster clusterBuffer
    if !done then some ⟨.ReadError,out,examined,p,m⟩
    else
      let entriesPerCluster := d.mBootRecord.SectorsPerCluster * SECTOR_SIZE / 32
      let slots := (List.range entriesPerCluster).map (fun x => (startCluster,Raw.read m (clusterBuffer + 32*x)))
      let (more,result) ← d.scan behind name examined.length nameEntries slots
      match result with
      | .found info => some ⟨.Ok,info,examined ++ more,p,m⟩
      | .ended => some ⟨.NotFound,out,examined ++ more,p,m⟩
      | .more nameEntries => search d device behind clusterBuffer startCluster name out fuel p m (examined ++ more) nameEntries

/-- `FindEntry`; `root` is `none` for the root directory. -/
def FindEntry (d : FSDriver) (device : Device) (behind : Nat → List Nat) (clusterBuffer fuel : Nat) (p : ATAPort) (m : Mem)
    (name : WString) (out : EntryInfo) (root : Option EntryInfo) : Option Answer :=
  match root with
  | none => d.search device behind clusterBuffer d.mBootRecord.RootClusterStart name out fuel p m [] []
  | some root =>
    if root.DriveID ≠ d.mDriveID then some ⟨.BadVolume,out,[],p,m⟩
    else if root.EntryAttributes &&& EntryAttribute.Directory = 0 then some ⟨.Error,out,[],p,m⟩
    else d.search device behind clusterBuffer root.firstCluster name out fuel p m [] []

end FSDriver

/-- An end marker. -/
def Raw.Ends (raw : Raw) : Prop := (raw.directoryEntry.ShortName.headD 0).toInt = ENTRY_END

/-- A piece of a long name. -/
def Raw.Piece (raw : Raw) : Prop := raw.directoryEntry.EntryAttributes = EntryAttribute.LFN

/-- The mark of a deleted entry. -/
def Raw.Deleted (raw : Raw) : Prop := raw.getD 0 0 = 0xE5

instance (raw : Raw) : Decidable raw.Ends := inferInstanceAs (Decidable (_ = _))

instance (raw : Raw) : Decidable raw.Piece := inferInstanceAs (Decidable (_ = _))

instance (raw : Raw) : Decidable raw.Deleted := inferInstanceAs (Decidable (_ = _))

/-- The pieces that stand directly before the next entry. -/
def pieces (slots : List Slot) : List LFNEntry :=
  slots.foldl (fun nameEntries slot => if slot.2.Piece then nameEntries ++ [slot.2.lfnEntry] else []) []

/-- The name of an entry, as it is compared: the long name that the pieces before it write, with what
    stands behind the copy of it, or its short name. -/
def comparedName (behind : List Nat) (nameEntries : List LFNEntry) (raw : Raw) : Option WString :=
  if nameEntries.length > 0 then (GetEntryNameLFN nameEntries).map (fun lfnName => wstrToLower (ofBuffer (lfnName ++ behind)))
  else some (cstrTowstr (GetEntryName raw.directoryEntry))

/-- An entry has the name that is looked for. -/
def Matches (behind : Nat → List Nat) (name : WString) (prior : List Slot) (slot : Slot) : Prop :=
  ¬ slot.2.Ends ∧ ¬ slot.2.Piece ∧ comparedName (behind prior.length) (pieces prior) slot.2 = some name

/-- What ends the search. -/
def Stops (behind : Nat → List Nat) (name : WString) (prior : List Slot) (slot : Slot) : Prop :=
  slot.2.Ends ∨ Matches behind name prior slot

/-- The pieces before an entry that is compared stay inside their buffer. -/
def Sound (prior : List Slot) (slot : Slot) : Prop := ¬ slot.2.Ends → ¬ slot.2.Piece → Placed (pieces prior)

/-- The entries of clusters, as they are stored. -/
def Disk.slots (disk : Disk) (ebr : EBR) (clusters : List Nat) : List Slot :=
  clusters.flatMap (fun c => (List.range (ebr.clusterBytes / 32)).map (fun x => (c,Raw.read (disk.clusterByte ebr c) (32*x))))

/-- The entries of a cluster, as they are read. -/
def Disk.readSlots (disk : Disk) (ebr : EBR) (c : Nat) : List Slot :=
  (List.range (ebr.clusterBytes / 32)).map (fun x => (c,Raw.read (disk.readByte (ebr.firstSector c)) (32*x)))

/-- The first cluster of the directory that is searched. -/
def EBR.startCluster (ebr : EBR) : Option EntryInfo → Nat
  | none => ebr.RootClusterStart
  | some root => root.firstCluster

/-- `root` is a directory of the volume, with its entries in the clusters. -/
structure IsDirectory (disk : Disk) (ebr : EBR) (id : Nat) (root : Option EntryInfo) (clusters : List Nat) : Prop where
  here : ∀ info, root = some info → info.DriveID = id ∧ info.EntryAttributes &&& EntryAttribute.Directory ≠ 0
  chain : Chain disk ebr (ebr.startCluster root) clusters
  /-- Behind an end marker there are only end markers. -/
  ended : (disk.slots ebr clusters).Pairwise (fun earlier later => earlier.2.Ends → later.2.Ends)

/-- The entries of the whole chain are examined in order up to the first that ends the search, and the
    name is not found only if none of them has it. -/
structure Searched (disk : Disk) (ebr : EBR) (behind : Nat → List Nat) (name : WString) (clusters : List Nat) (answer : Answer) : Prop where
  examined : UpTo (Stops behind name) (disk.slots ebr clusters) answer.examined
  complete : answer.status = .NotFound →
    ∀ before slot after, disk.slots ebr clusters = before ++ slot :: after → ¬ Matches behind name before slot

/-- The search of the first cluster stops, and up to there its entries are read as they are stored and
    the long names stay inside their buffers. -/
structure Reached (disk : Disk) (ebr : EBR) (behind : Nat → List Nat) (name : WString) (c : Nat) (seen : List Slot) : Prop where
  stopped : Stopped (Stops behind name) [] (disk.slots ebr [c]) seen
  same : seen <+: disk.readSlots ebr c
  sound : ∀ before slot after, seen = before ++ slot :: after → Sound before slot

variable {disk : Disk} {ebr : EBR} {id clusterBuffer fuel c : Nat} {p : ATAPort} {m : Mem} {name : WString} {out : EntryInfo}
  {root : Option EntryInfo} {clusters : List Nat} {behind : Nat → List Nat} {d : FSDriver} {prior slots seen : List Slot} {slot : Slot}

/-- A signed character is never the mark of a deleted entry. -/
theorem not_deleted (c : BitVec 8) : c.toInt ≠ ENTRY_DELETED := by
  have small : 2 * c.toInt < 2^8 := BitVec.two_mul_toInt_lt
  simp only [ENTRY_DELETED]
  omega

theorem pieces_append : pieces (prior ++ [slot]) = if slot.2.Piece then pieces prior ++ [slot.2.lfnEntry] else [] := by
  simp [pieces]

/-- What is stored for an entry that has the name. -/
def foundInfo (d : FSDriver) (nameEntries : List LFNEntry) (raw : Raw) : EntryInfo :=
  .FromDirectoryEntry raw.directoryEntry d.mDriveID (if nameEntries.length > 0 then GetEntryNameLFN nameEntries else none)

/-- What examining an entry says about it. -/
def Examined.Tells (behind : Nat → List Nat) (name : WString) (prior : List Slot) (slot : Slot) : Examined → Prop
  | .found _ => Matches behind name prior slot
  | .ended => slot.2.Ends
  | .more nameEntries => ¬ Stops behind name prior slot ∧ nameEntries = pieces (prior ++ [slot])

theorem getEntryNameLFN_proper {nameEntries : List LFNEntry} {lfnName : WString} (written : GetEntryNameLFN nameEntries = some lfnName) :
    0 ∉ lfnName := by
  simp only [GetEntryNameLFN] at written
  split at written
  · cases written
    exact ofBuffer_proper _
  · cases written

theorem getEntryNameLFN_isSome {nameEntries : List LFNEntry} : (GetEntryNameLFN nameEntries).isSome ↔ Placed nameEntries := by
  simp only [GetEntryNameLFN]
  split <;> simp [*]

theorem examine_ends {behind : List Nat} {nameEntries : List LFNEntry} {raw : Raw} (ends : raw.Ends) :
    d.examine behind name nameEntries raw = some .ended := if_pos ends

theorem examine_piece {behind : List Nat} {nameEntries : List LFNEntry} {raw : Raw} (ends : ¬ raw.Ends) (piece : raw.Piece) :
    d.examine behind name nameEntries raw = some (.more (nameEntries ++ [raw.lfnEntry])) :=
  (if_neg ends).trans ((if_neg (not_deleted _)).trans (if_pos piece))

/-- An entry that is neither an end marker nor a piece is compared, if its name can be made. -/
theorem examine_compared {behind : List Nat} {nameEntries : List LFNEntry} {raw : Raw} (ends : ¬ raw.Ends) (piece : ¬ raw.Piece) :
    d.examine behind name nameEntries raw = (comparedName behind nameEntries raw).map
      (fun compared => if name = compared then .found (foundInfo d nameEntries raw) else .more []) := by
  have first : ¬ (raw.directoryEntry.ShortName.headD 0).toInt = ENTRY_END := ends
  have attributes : ¬ raw.directoryEntry.EntryAttributes = EntryAttribute.LFN := piece
  rw [FSDriver.examine,if_neg first,if_neg (not_deleted _),if_neg attributes,comparedName]
  by_cases long : nameEntries.length > 0
  · simp only [if_pos long]
    cases written : GetEntryNameLFN nameEntries with
    | none => rfl
    | some lfnName =>
      have copied := wstrncpy_all [] (getEntryNameLFN_proper written)
      simp only [List.nil_append,List.length_nil] at copied
      simp only [Option.map_some,Option.bind_eq_bind,Option.bind_some,copied,foundInfo,if_pos long,written]
      split <;> rfl
  · have none : nameEntries = [] := List.eq_nil_of_length_eq_zero (by omega)
    simp only [if_neg long,Option.map_some,foundInfo]
    rw [none]
    split <;> rfl

/-- What examining an entry does is what the entry is. -/
theorem examine_tells {result : Examined} (examined : d.examine (behind prior.length) name (pieces prior) slot.2 = some result) :
    result.Tells behind name prior slot ∧ Sound prior slot := by
  by_cases ends : slot.2.Ends
  · rw [examine_ends ends] at examined
    cases examined
    exact ⟨ends,fun goes => absurd ends goes⟩
  by_cases piece : slot.2.Piece
  · rw [examine_piece ends piece] at examined
    cases examined
    refine ⟨⟨?_,by rw [pieces_append,if_pos piece]⟩,fun _ whole => absurd piece whole⟩
    rintro (stop | ⟨_,whole,_⟩)
    · exact ends stop
    · exact whole piece
  rw [examine_compared ends piece] at examined
  obtain ⟨compared,named,isResult⟩ := Option.map_eq_some_iff.mp examined
  have sound : Sound prior slot := by
    intro _ _
    by_cases long : (pieces prior).length > 0
    · rw [comparedName,if_pos long] at named
      obtain ⟨lfnName,written,_⟩ := Option.map_eq_some_iff.mp named
      exact getEntryNameLFN_isSome.mp (by rw [written]; rfl)
    · intro entry member
      have some_piece := List.length_pos_of_mem member
      omega
  refine ⟨?_,sound⟩
  by_cases same : name = compared
  · rw [if_pos same] at isResult
    rw [← isResult]
    exact ⟨ends,piece,by rw [named,same]⟩
  · rw [if_neg same] at isResult
    rw [← isResult]
    refine ⟨?_,by rw [pieces_append,if_neg piece]⟩
    rintro (stop | ⟨_,_,matching⟩)
    · exact ends stop
    · rw [named] at matching
      exact same (Option.some.inj matching).symm

/-- An entry is examined when the pieces before it stay inside their buffer. -/
theorem examine_sound (d : FSDriver) (behind : Nat → List Nat) (name : WString) (sound : Sound prior slot) : ∃ result, d.examine (behind prior.length) name (pieces prior) slot.2 = some result := by
  by_cases ends : slot.2.Ends
  · exact ⟨_,examine_ends ends⟩
  by_cases piece : slot.2.Piece
  · exact ⟨_,examine_piece ends piece⟩
  obtain ⟨lfnName,written⟩ := Option.isSome_iff_exists.mp (getEntryNameLFN_isSome.mpr (sound ends piece))
  rw [examine_compared ends piece,comparedName,written]
  split <;> exact ⟨_,rfl⟩

/-! ### Scanning a cluster -/

/-- What the scan of entries says about them. -/
def Examined.Scanned (behind : Nat → List Nat) (name : WString) (prior slots seen : List Slot) : Examined → Prop
  | .found _ => Stopped (Stops behind name) prior slots seen
  | .ended => Stopped (Stops behind name) prior slots seen ∧ ∃ before slot, seen = before ++ [slot] ∧ slot.2.Ends
  | .more nameEntries => Passed (Stops behind name) prior slots ∧ seen = slots ∧ nameEntries = pieces (prior ++ slots)

/-- All entries that were seen after `prior` are sound. -/
def AllSound (prior seen : List Slot) : Prop := ∀ before slot after, seen = before ++ slot :: after → Sound (prior ++ before) slot

theorem allSound_cons : AllSound prior (slot :: seen) ↔ Sound prior slot ∧ AllSound (prior ++ [slot]) seen := throughout_cons

/-- One entry after another, the scan does what the first of them does, or goes on behind it. -/
theorem scan_cons {result : Examined} : d.scan behind name prior.length (pieces prior) (slot :: slots) = some (seen,result) ↔
    ∃ first, d.examine (behind prior.length) name (pieces prior) slot.2 = some first ∧
      match first with
      | .more nameEntries => ∃ later, d.scan behind name (prior.length + 1) nameEntries slots = some (later,result) ∧ seen = slot :: later
      | first => seen = [slot] ∧ result = first := by
  rw [FSDriver.scan]
  cases examined : d.examine (behind prior.length) name (pieces prior) slot.2 with
  | none => simp
  | some first =>
    cases first with
    | found info => simp [eq_comm,and_comm]
    | ended => simp [eq_comm,and_comm]
    | more nameEntries =>
      simp only [Option.bind_eq_bind,Option.bind_some,Option.bind_eq_some_iff,Option.some.injEq,Prod.mk.injEq,exists_eq_left']
      constructor
      · rintro ⟨⟨later,result'⟩,scanned,rfl,rfl⟩
        exact ⟨later,scanned,rfl⟩
      · rintro ⟨later,scanned,rfl⟩
        exact ⟨(later,result),scanned,rfl,rfl⟩

theorem scan_tells (prior : List Slot) {result : Examined} (scanned : d.scan behind name prior.length (pieces prior) slots = some (seen,result)) :
    result.Scanned behind name prior slots seen ∧ AllSound prior seen := by
  induction slots generalizing prior seen with
  | nil =>
    cases scanned
    exact ⟨⟨passed_nil,rfl,by rw [List.append_nil]⟩,fun before slot after whole => by simp at whole⟩
  | cons slot slots ih =>
    obtain ⟨first,examined,follows⟩ := scan_cons.mp scanned
    obtain ⟨told,sound⟩ := examine_tells examined
    have alone : AllSound prior [slot] := allSound_cons.mpr ⟨sound,fun before s after whole => by simp at whole⟩
    cases first with
    | found info =>
      obtain ⟨rfl,rfl⟩ := follows
      exact ⟨.here (.inr told),alone⟩
    | ended =>
      obtain ⟨rfl,rfl⟩ := follows
      exact ⟨⟨.here (.inl told),[],slot,rfl,told⟩,alone⟩
    | more nameEntries =>
      obtain ⟨later,scanned',rfl⟩ := follows
      obtain ⟨goes,rfl⟩ := told
      rw [show prior.length + 1 = (prior ++ [slot]).length by simp] at scanned'
      obtain ⟨told',sound'⟩ := ih _ scanned'
      refine ⟨?_,allSound_cons.mpr ⟨sound,sound'⟩⟩
      cases result with
      | found info => exact .later goes told'
      | ended =>
        obtain ⟨stopped,before,last,rfl,ends⟩ := told'
        exact ⟨.later goes stopped,slot :: before,last,rfl,ends⟩
      | more nameEntries =>
        obtain ⟨passed,rfl,rfl⟩ := told'
        exact ⟨passed_cons.mpr ⟨goes,passed⟩,rfl,congrArg pieces (List.append_cons ..).symm⟩

/-- A scan goes on behind a sound entry that does not stop it. -/
theorem scan_goes {result : Examined} (sound : Sound prior slot) (goes : ¬ Stops behind name prior slot)
    (later : d.scan behind name (prior ++ [slot]).length (pieces (prior ++ [slot])) slots = some (seen,result)) :
    d.scan behind name prior.length (pieces prior) (slot :: slots) = some (slot :: seen,result) := by
  obtain ⟨first,examined⟩ := examine_sound d behind name sound
  have told := (examine_tells examined).1
  cases first with
  | found info => exact absurd (.inr told) goes
  | ended => exact absurd (.inl told) goes
  | more nameEntries =>
    obtain ⟨_,rfl⟩ := told
    rw [show (prior ++ [slot]).length = prior.length + 1 by simp] at later
    exact scan_cons.mpr ⟨_,examined,seen,later,rfl⟩

/-- A scan gets to the entry that stops it, when the entries up to there are sound. -/
theorem scan_stops (d : FSDriver) (stopped : Stopped (Stops behind name) prior slots seen) (sound : AllSound prior seen) :
    ∃ result, d.scan behind name prior.length (pieces prior) slots = some (seen,result) := by
  induction stopped with
  | @here prior slots slot stop =>
    obtain ⟨first,examined⟩ := examine_sound d behind name (allSound_cons.mp sound).1
    have told := (examine_tells examined).1
    refine ⟨first,scan_cons.mpr ⟨first,examined,?_⟩⟩
    cases first with
    | found info => exact ⟨rfl,rfl⟩
    | ended => exact ⟨rfl,rfl⟩
    | more nameEntries => exact absurd stop told.1
  | @later prior slots seen slot goes rest ih =>
    obtain ⟨here,behind_it⟩ := allSound_cons.mp sound
    obtain ⟨result,scanned⟩ := ih behind_it
    exact ⟨result,scan_goes here goes scanned⟩

/-- What is found is stored for the entry that is examined. -/
theorem examine_found {behind : List Nat} {nameEntries : List LFNEntry} {raw : Raw} {info : EntryInfo}
    (examined : d.examine behind name nameEntries raw = some (.found info)) : info = foundInfo d nameEntries raw := by
  by_cases ends : raw.Ends
  · rw [examine_ends ends] at examined
    cases examined
  by_cases piece : raw.Piece
  · rw [examine_piece ends piece] at examined
    cases examined
  rw [examine_compared ends piece] at examined
  obtain ⟨compared,_,isResult⟩ := Option.map_eq_some_iff.mp examined
  split at isResult
  · cases isResult
    rfl
  · cases isResult

/-- What the scan finds is stored for the last of the entries it has examined, and that one has the name. -/
theorem scan_found (prior : List Slot) {info : EntryInfo} (scanned : d.scan behind name prior.length (pieces prior) slots = some (seen,.found info)) :
    ∃ before slot, seen = before ++ [slot] ∧ Matches behind name (prior ++ before) slot ∧
      info = foundInfo d (pieces (prior ++ before)) slot.2 := by
  induction slots generalizing prior seen with
  | nil => cases scanned
  | cons slot slots ih =>
    obtain ⟨first,examined,follows⟩ := scan_cons.mp scanned
    have told := (examine_tells examined).1
    cases first with
    | found info' =>
      obtain ⟨rfl,same⟩ := follows
      cases same
      refine ⟨[],slot,rfl,?_⟩
      rw [List.append_nil]
      exact ⟨told,examine_found examined⟩
    | ended => cases follows.2
    | more nameEntries =>
      obtain ⟨later,scanned',rfl⟩ := follows
      obtain ⟨_,rfl⟩ := told
      rw [show prior.length + 1 = (prior ++ [slot]).length by simp] at scanned'
      obtain ⟨before,last,rfl,found⟩ := ih _ scanned'
      exact ⟨slot :: before,last,rfl,by rwa [List.append_cons]⟩

/-- A scan passes entries that do not stop it, when they are sound. -/
theorem scan_passes (d : FSDriver) (passed : Passed (Stops behind name) prior slots) (sound : AllSound prior slots) :
    d.scan behind name prior.length (pieces prior) slots = some (slots,.more (pieces (prior ++ slots))) := by
  induction slots generalizing prior with
  | nil => rw [List.append_nil]; rfl
  | cons slot slots ih =>
    obtain ⟨goes,rest⟩ := passed_cons.mp passed
    obtain ⟨here,behind_it⟩ := allSound_cons.mp sound
    have scanned := ih rest behind_it
    rw [← List.append_cons] at scanned
    exact scan_goes here goes scanned

/-! ### Searching -/

theorem read_slots (disk : Disk) (ebr : EBR) (c clusterBuffer : Nat) (m : Mem) : (List.range (ebr.clusterBytes / 32)).map (fun x =>
    (c,Raw.read (fill m clusterBuffer ebr.clusterBytes (disk.readByte (ebr.firstSector c))) (clusterBuffer + 32*x))) =
      disk.readSlots ebr c := by
  apply List.map_congr_left
  intro x member
  have inside := List.mem_range.mp member
  refine congrArg (Prod.mk c) (List.map_congr_left ?_)
  intro i small
  have byte := List.mem_range.mp small
  rw [fill_at (by omega) (by omega)]
  congr 1
  omega

/-- A cluster has entries. -/
theorem WellFormed.entries_pos (wf : WellFormed disk ebr) : 0 < ebr.clusterBytes / 32 := by
  have size := wf.clusterSize_pos
  simp only [EBR.clusterBytes,SECTOR_SIZE]
  omega

theorem readSlots_length : (disk.readSlots ebr c).length = ebr.clusterBytes / 32 := by simp [Disk.readSlots]

theorem slots_length : (disk.slots ebr [c]).length = ebr.clusterBytes / 32 := by simp [Disk.slots]

theorem slots_cons (disk : Disk) (ebr : EBR) (c : Nat) (cs : List Nat) : disk.slots ebr (c :: cs) = disk.slots ebr [c] ++ disk.slots ebr cs := by simp [Disk.slots]

theorem readSlots_cluster (member : slot ∈ disk.readSlots ebr c) : slot.1 = c := by
  obtain ⟨x,_,rfl⟩ := List.mem_map.mp member
  rfl

/-- The first entry of a chain of clusters stands in the first of them. -/
theorem slots_first (wf : WellFormed disk ebr) (c : Nat) (cs : List Nat) : ∃ raw later, disk.slots ebr (c :: cs) = (c,raw) :: later := by
  obtain ⟨n,count⟩ := Nat.exists_eq_succ_of_ne_zero (Nat.ne_of_gt wf.entries_pos)
  simp [Disk.slots,count,List.range_succ_eq_map]

/-- One round of the outer loop reads the cluster and scans its entries. -/
theorem search_succ (wf : WellFormed disk ebr) (cluster : ebr.Cluster c) (ready : Buffered p 8 false) (m : Mem) (id clusterBuffer : Nat)
    (behind : Nat → List Nat) (name : WString) (out : EntryInfo) :
    ∃ p' m', Buffered p' 8 false ∧ ∀ fuel examined nameEntries,
      (FSDriver.mount id ebr).search disk.device behind clusterBuffer c name out (fuel+1) p m examined nameEntries =
        ((FSDriver.mount id ebr).scan behind name examined.length nameEntries (disk.readSlots ebr c)).bind (fun scanned =>
          match scanned.2 with
          | .found info => some ⟨.Ok,info,examined ++ scanned.1,p',m'⟩
          | .ended => some ⟨.NotFound,out,examined ++ scanned.1,p',m'⟩
          | .more nameEntries => (FSDriver.mount id ebr).search disk.device behind clusterBuffer c name out fuel p' m'
              (examined ++ scanned.1) nameEntries) := by
  obtain ⟨p',ready',returned⟩ := readCluster_spec wf cluster ready id m clusterBuffer
  refine ⟨p',fill m clusterBuffer ebr.clusterBytes (disk.readByte (ebr.firstSector c)),ready',?_⟩
  intro fuel examined nameEntries
  rw [FSDriver.search,returned]
  have slots := read_slots disk ebr c clusterBuffer m
  simp only [Option.bind_eq_bind,Option.bind_some,Bool.not_true,Bool.false_eq_true,if_false]
  rw [← slots]
  rfl

theorem readSlots_first (begins : seen <+: disk.readSlots ebr c) (some_entries : seen ≠ []) : ∃ raw later, seen = (c,raw) :: later := by
  cases seen with
  | nil => exact absurd rfl some_entries
  | cons slot later =>
    obtain ⟨c',raw⟩ := slot
    have here : c' = c := readSlots_cluster (begins.subset List.mem_cons_self)
    exact ⟨raw,later,by rw [here]⟩

theorem stopped_first (stopped : Stopped (Stops behind name) prior (disk.readSlots ebr c) seen) : ∃ raw later, seen = (c,raw) :: later := by
  obtain ⟨before,slot,rfl,_,_⟩ := stopped.last
  exact readSlots_first stopped.isPrefix (by simp)

/-- Every round examines entries of the one cluster that is read. -/
theorem search_examined (wf : WellFormed disk ebr) (cluster : ebr.Cluster c) {answer : Answer} (ready : Buffered p 8 false)
    (returned : (FSDriver.mount id ebr).search disk.device behind clusterBuffer c name out fuel p m prior (pieces prior) = some answer) :
    ∃ raw more, answer.examined = prior ++ (c,raw) :: more := by
  induction fuel generalizing p m prior with
  | zero => cases returned
  | succ fuel ih =>
    obtain ⟨p',m',ready',round⟩ := search_succ wf cluster ready m id clusterBuffer behind name out
    rw [round] at returned
    obtain ⟨⟨seen,result⟩,scanned,follows⟩ := Option.bind_eq_some_iff.mp returned
    have told := (scan_tells prior scanned).1
    cases result with
    | found info =>
      cases follows
      obtain ⟨raw,later,rfl⟩ := stopped_first told
      exact ⟨raw,later,rfl⟩
    | ended =>
      cases follows
      obtain ⟨raw,later,rfl⟩ := stopped_first told.1
      exact ⟨raw,later,rfl⟩
    | more nameEntries =>
      obtain ⟨_,rfl,rfl⟩ := told
      obtain ⟨raw,more,examined⟩ := ih ready' follows
      have some_entries : disk.readSlots ebr c ≠ [] := List.ne_nil_of_length_pos (by rw [readSlots_length]; exact wf.entries_pos)
      obtain ⟨raw',later,whole⟩ := readSlots_first (List.prefix_refl _) some_entries
      refine ⟨raw',later ++ (c,raw) :: more,?_⟩
      rw [examined,whole,List.append_assoc,List.cons_append]

/-- The search ends in the first round, or examines the cluster again. -/
theorem search_first (wf : WellFormed disk ebr) (cluster : ebr.Cluster c) {answer : Answer} (ready : Buffered p 8 false)
    (returned : (FSDriver.mount id ebr).search disk.device behind clusterBuffer c name out fuel p m [] [] = some answer) :
    (Stopped (Stops behind name) [] (disk.readSlots ebr c) answer.examined ∧ AllSound [] answer.examined) ∨
      ∃ raw more, answer.examined = disk.readSlots ebr c ++ (c,raw) :: more := by
  cases fuel with
  | zero => cases returned
  | succ fuel =>
    obtain ⟨p',m',ready',round⟩ := search_succ wf cluster ready m id clusterBuffer behind name out
    rw [round] at returned
    obtain ⟨⟨seen,result⟩,scanned,follows⟩ := Option.bind_eq_some_iff.mp returned
    obtain ⟨told,sound⟩ := scan_tells [] scanned
    cases result with
    | found info =>
      cases follows
      exact .inl ⟨told,sound⟩
    | ended =>
      cases follows
      exact .inl ⟨told.1,sound⟩
    | more nameEntries =>
      obtain ⟨_,rfl,rfl⟩ := told
      exact .inr (search_examined wf cluster ready' follows)

/-- In a directory of its drive `FindEntry` searches from its first cluster on. -/
theorem findEntry_directory {current : EntryInfo} (device : Device) (behind : Nat → List Nat) (clusterBuffer fuel : Nat) (p : ATAPort)
    (m : Mem) (name : WString) (out : EntryInfo) (here : current.DriveID = d.mDriveID)
    (isDirectory : current.EntryAttributes &&& EntryAttribute.Directory ≠ 0) :
    d.FindEntry device behind clusterBuffer fuel p m name out (some current) =
      d.search device behind clusterBuffer current.firstCluster name out fuel p m [] [] := by
  rw [FSDriver.FindEntry,if_neg (not_not.mpr here),if_neg isDirectory]

/-- `FindEntry` in a directory of its drive searches from the first cluster on. -/
theorem findEntry_here (here : ∀ info, root = some info → info.DriveID = id ∧ info.EntryAttributes &&& EntryAttribute.Directory ≠ 0) :
    (FSDriver.mount id ebr).FindEntry disk.device behind clusterBuffer fuel p m name out root =
      (FSDriver.mount id ebr).search disk.device behind clusterBuffer (ebr.startCluster root) name out fuel p m [] [] := by
  cases root with
  | none => rfl
  | some info =>
    obtain ⟨drive,isDirectory⟩ := here info rfl
    exact findEntry_directory _ _ _ _ _ _ _ _ drive isDirectory

theorem findEntry_search (dir : IsDirectory disk ebr id root clusters) :
    (FSDriver.mount id ebr).FindEntry disk.device behind clusterBuffer fuel p m name out root =
      (FSDriver.mount id ebr).search disk.device behind clusterBuffer (ebr.startCluster root) name out fuel p m [] [] :=
  findEntry_here dir.here

/-- `FindEntry` returns, and has searched the chain of the directory. -/
def FindsEntry (disk : Disk) (ebr : EBR) (id : Nat) (behind : Nat → List Nat) (clusterBuffer : Nat) (p : ATAPort) (m : Mem)
    (name : WString) (out : EntryInfo) (root : Option EntryInfo) (clusters : List Nat) : Prop :=
  ∃ fuel answer, (FSDriver.mount id ebr).FindEntry disk.device behind clusterBuffer fuel p m name out root = some answer ∧
    Searched disk ebr behind name clusters answer

theorem FindsEntry.reached (wf : WellFormed disk ebr) (dir : IsDirectory disk ebr id root clusters) (ready : Buffered p 8 false)
    (finds : FindsEntry disk ebr id behind clusterBuffer p m name out root clusters) :
    ∃ seen, Reached disk ebr behind name (ebr.startCluster root) seen := by
  obtain ⟨fuel,answer,returned,searched⟩ := finds
  rw [findEntry_search dir] at returned
  obtain ⟨later,rfl⟩ := dir.chain.first
  have sizes : (disk.readSlots ebr (ebr.startCluster root)).length = (disk.slots ebr [ebr.startCluster root]).length := by
    rw [readSlots_length,slots_length]
  have begins : answer.examined <+: disk.slots ebr [ebr.startCluster root] ++ disk.slots ebr later := by
    rw [← slots_cons]
    rcases searched.examined with stopped | ⟨_,all⟩
    · exact stopped.isPrefix
    · exact ⟨[],by rw [all,List.append_nil]⟩
  rcases search_first wf dir.chain.cluster ready returned with ⟨stopped,sound⟩ | ⟨raw,more,again⟩
  · have short : answer.examined <+: disk.slots ebr [ebr.startCluster root] :=
      List.prefix_of_prefix_length_le begins (List.prefix_append _ _) (by rw [← sizes]; exact stopped.isPrefix.length_le)
    refine ⟨answer.examined,?_,stopped.isPrefix,sound⟩
    rcases searched.examined with chain | ⟨passed,all⟩
    · exact chain.of_prefix short
    · obtain ⟨before,slot,whole,_,stop⟩ := stopped.last
      exact absurd stop (passed before slot [] (by rw [← all,whole]))
  · -- The chain goes on with another cluster, or not at all.
    obtain ⟨rest,whole⟩ := begins
    rw [again,List.append_assoc] at whole
    have next := (List.append_inj whole sizes).2
    cases later with
    | nil => simp [Disk.slots] at next
    | cons c' later =>
      obtain ⟨raw',after,first⟩ := slots_first wf c' later
      rw [first] at next
      have same : ebr.startCluster root = c' := congrArg Prod.fst (List.cons.inj next).1
      exact absurd same.symm (dir.chain.second_ne wf)

/-- Behind an entry that ends the directory, none has the name. -/
theorem IsDirectory.complete (dir : IsDirectory disk ebr id root clusters) (stopped : Stopped (Stops behind name) [] (disk.slots ebr clusters) seen)
    (ended : ∃ before slot, seen = before ++ [slot] ∧ slot.2.Ends) {before after : List Slot}
    (whole : disk.slots ebr clusters = before ++ slot :: after) : ¬ Matches behind name before slot := by
  obtain ⟨first,last,rfl,ends⟩ := ended
  obtain ⟨first',last',same,passed,_⟩ := stopped.last
  obtain ⟨rfl,_⟩ := List.append_inj' same rfl
  obtain ⟨rest,split⟩ := stopped.isPrefix
  rw [List.append_assoc,List.singleton_append] at split
  intro matching
  have order := dir.ended
  rw [← split] at order
  have last_ends := (List.pairwise_cons.mp (List.pairwise_append.mp order).2.1).1
  rw [whole] at split
  rcases List.append_eq_append_iff.mp split with ⟨between,_,isLast⟩ | ⟨between,isFirst,isSlot⟩
  · cases between with
    | nil =>
      cases isLast
      exact matching.1 ends
    | cons s between =>
      cases isLast
      exact matching.1 (last_ends slot (by simp) ends)
  · cases between with
    | nil =>
      cases isSlot
      exact matching.1 ends
    | cons s between =>
      cases isSlot
      exact passed before slot between isFirst (.inr matching)

theorem Reached.findsEntry (wf : WellFormed disk ebr) (dir : IsDirectory disk ebr id root clusters) (ready : Buffered p 8 false)
    (reached : Reached disk ebr behind name (ebr.startCluster root) seen) :
    FindsEntry disk ebr id behind clusterBuffer p m name out root clusters := by
  have stopped := reached.stopped.of_prefix reached.same
  obtain ⟨result,scanned⟩ := scan_stops (FSDriver.mount id ebr) stopped reached.sound
  have told := (scan_tells [] scanned).1
  obtain ⟨p',m',_,round⟩ := search_succ wf dir.chain.cluster ready m id clusterBuffer behind name out
  have returned := round 0 [] []
  have scanned' : (FSDriver.mount id ebr).scan behind name 0 [] (disk.readSlots ebr (ebr.startCluster root)) = some (seen,result) := scanned
  rw [List.length_nil,scanned',Option.bind_some,← findEntry_search dir] at returned
  obtain ⟨later,rfl⟩ := dir.chain.first
  have chain : Stopped (Stops behind name) [] (disk.slots ebr (ebr.startCluster root :: later)) seen := by
    refine reached.stopped.of_prefix (reached.stopped.isPrefix.trans ?_)
    rw [slots_cons _ _ _ later]
    exact List.prefix_append _ _
  cases result with
  | found info => exact ⟨1,_,returned,.inl chain,fun none => (by cases none)⟩
  | ended => exact ⟨1,_,returned,.inl chain,fun _ before slot after whole => dir.complete chain told.2 whole⟩
  | more nameEntries => exact absurd told.1 stopped.not_passed

/-- `FindEntry` searches the chain of the directory if and only if the search of its first cluster stops. -/
theorem findEntry_iff (wf : WellFormed disk ebr) (dir : IsDirectory disk ebr id root clusters) (ready : Buffered p 8 false) :
    FindsEntry disk ebr id behind clusterBuffer p m name out root clusters ↔ ∃ seen, Reached disk ebr behind name (ebr.startCluster root) seen :=
  ⟨fun finds => finds.reached wf dir ready,fun ⟨_,reached⟩ => reached.findsEntry wf dir ready⟩

/-! ### Full clusters -/

/-- An entry without a long name that has another name. -/
def Other (name : WString) (slot : Slot) : Prop :=
  ¬ slot.2.Ends ∧ ¬ slot.2.Piece ∧ cstrTowstr (GetEntryName slot.2.directoryEntry) ≠ name

instance (name : WString) (slot : Slot) : Decidable (Other name slot) := inferInstanceAs (Decidable (_ ∧ _ ∧ _))

theorem pieces_eq_nil (none : ∀ s ∈ slots, ¬ s.2.Piece) : pieces slots = [] := by
  induction slots using List.reverseRecOn with
  | nil => rfl
  | append_singleton slots slot _ => rw [pieces_append,if_neg (none slot (by simp))]

/-- Entries with other names do not stop the search. -/
theorem passed_of_other (before : ∀ s ∈ prior, ¬ s.2.Piece) (others : ∀ s ∈ slots, Other name s) : Passed (Stops behind name) prior slots := by
  intro first slot after whole stop
  obtain ⟨ends,piece,differs⟩ := others slot (by rw [whole]; simp)
  have none : pieces (prior ++ first) = [] := by
    apply pieces_eq_nil
    intro s member
    rcases List.mem_append.mp member with old | new
    · exact before s old
    · exact (others s (by rw [whole]; simp [new])).2.1
  rcases stop with stop | ⟨_,_,same⟩
  · exact ends stop
  · rw [comparedName,none] at same
    exact differs (Option.some.inj same)

/-- A first cluster that is full of entries with other names is read forever. -/
theorem findEntry_never (wf : WellFormed disk ebr) (dir : IsDirectory disk ebr id root clusters) (ready : Buffered p 8 false)
    (others : ∀ s ∈ disk.readSlots ebr (ebr.startCluster root), Other name s) (fuel : Nat) :
    (FSDriver.mount id ebr).FindEntry disk.device behind clusterBuffer fuel p m name out root = none := by
  have never : ∀ prior : List Slot, (∀ s ∈ prior, ¬ s.2.Piece) →
      (FSDriver.mount id ebr).search disk.device behind clusterBuffer (ebr.startCluster root) name out fuel p m prior (pieces prior) = none := by
    induction fuel generalizing p m with
    | zero => exact fun prior before => rfl
    | succ fuel ih =>
      intro prior before
      obtain ⟨p',m',ready',round⟩ := search_succ wf dir.chain.cluster ready m id clusterBuffer behind name out
      rw [round]
      refine Option.bind_eq_none_iff.mpr (fun ⟨seen,result⟩ scanned => ?_)
      have told := (scan_tells prior scanned).1
      have passed : Passed (Stops behind name) prior _ := passed_of_other before others
      cases result with
      | found info => exact absurd passed told.not_passed
      | ended => exact absurd passed told.1.not_passed
      | more nameEntries =>
        obtain ⟨_,rfl,rfl⟩ := told
        apply ih ready' _
        intro s member
        rcases List.mem_append.mp member with old | new
        · exact before s old
        · exact (others s new).2.1
  rw [findEntry_search dir]
  exact never [] (fun s member => by cases member)

/-- The root directory has two clusters, 2 and 3. The first one is full of entries `AAAAAAAA.AAA`,
    and the other one begins with an entry `B`. -/
def rootDisk : Disk where
  data i :=
    if i = 16384 + 8 then 3
    else if 16384 + 12 ≤ i ∧ i < 16384 + 16 then 0xFF
    else if 1056 * 512 ≤ i ∧ i < 1057 * 512 then 0x41
    else if i = 1057 * 512 then 0x42
    else if 1057 * 512 < i ∧ i < 1057 * 512 + 32 then 0x20
    else 0
  capacity := 66581

theorem root_wellFormed : WellFormed rootDisk smallEBR :=
  ⟨rfl,⟨0,by decide,rfl⟩,by decide,by decide,by decide,by decide,by decide,by unfold EBR.Cluster; decide⟩

theorem root_isDirectory : IsDirectory rootDisk smallEBR 0 none [2,3] where
  here := fun info none => by cases none
  chain := .next (small_cluster (by decide) (by decide)) (.last (small_cluster (by decide) (by decide)) (by decide))
  ended := by decide +kernel

theorem findEntry_iff_first : FindsEntry rootDisk smallEBR 0 (fun _ => []) 0x130000 idlePort (fun _ => 0)
    [0x61,0x61,0x61,0x61,0x61,0x61,0x61,0x61,0x2E,0x61,0x61,0x61] (fileEntry 0 0) none [2,3] := by
  have ready : Buffered idlePort 8 false := ⟨rfl,rfl⟩
  let slot : Slot := (2,Raw.read (rootDisk.clusterByte smallEBR 2) 0)
  have matching : Matches (fun _ => []) [0x61,0x61,0x61,0x61,0x61,0x61,0x61,0x61,0x2E,0x61,0x61,0x61] [] slot :=
    ⟨by decide +kernel,by decide +kernel,by decide +kernel⟩
  have stopped : Stopped (Stops (fun _ => []) [0x61,0x61,0x61,0x61,0x61,0x61,0x61,0x61,0x2E,0x61,0x61,0x61]) [] [slot] [slot] :=
    .here (.inr matching)
  have sound : AllSound [] [slot] := allSound_cons.mpr ⟨fun _ _ entry member => (by cases member),fun before s after whole => by simp at whole⟩
  have reached : Reached rootDisk smallEBR (fun _ => []) _ 2 [slot] := ⟨stopped.of_prefix (by decide +kernel),by decide +kernel,sound⟩
  exact (findEntry_iff root_wellFormed root_isDirectory ready).mpr ⟨_,reached⟩

/-- The entry `B` is not found: the call does not return. -/
theorem findEntry_unreached : WellFormed rootDisk smallEBR ∧ IsDirectory rootDisk smallEBR 0 none [2,3] ∧ Buffered idlePort 8 false ∧
    ¬ FindsEntry rootDisk smallEBR 0 (fun _ => []) 0x130000 idlePort (fun _ => 0) [0x62] (fileEntry 0 0) none [2,3] := by
  have ready : Buffered idlePort 8 false := ⟨rfl,rfl⟩
  refine ⟨root_wellFormed,root_isDirectory,ready,?_⟩
  rintro ⟨fuel,answer,returned,_⟩
  have others : ∀ s ∈ rootDisk.readSlots smallEBR 2, Other [0x62] s := by decide +kernel
  rw [findEntry_never root_wellFormed root_isDirectory ready others fuel] at returned
  cases returned

end WaifuOS.FAT32
