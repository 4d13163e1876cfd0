import WaifuOS.Paths

/-!
The clusters that `GetEntryInfo` reads on its way along a path. Each part of the path is
looked up by a call of `FindEntry` (`calls`), which passes the first cluster of the
directory that was found before it to `ReadCluster`, once for each round. On a volume
whose directories have chains of clusters (`Tree`), an entry that links to the root holds
the cluster 0, and the driver takes that number as it stands. `clustersPassed_iff` says
when every cluster that is passed is one of the volume: when no part but the last leads
to such an entry, and the parts that lead to an entry outside of the tree lead to a
cluster all the same (`Leads`).
-/
namespace WaifuOS.FAT32
open WaifuOS.AHCI WaifuOS.Bytes WaifuOS.cstr WaifuOS.Searches

variable {σ : Type}

/-- A call of `FindEntry`: the state before it, the name and the directory. -/
structure Call (σ : Type) where
  state : σ
  name : Option WString
  root : EntryInfo

/-- What the loop of `GetEntryInfo` cuts a path into. -/
def parts (currentPath : WString) : List (Option WString) :=
  match _cut : indexOfSlash currentPath with
  | none => [some currentPath]
  | some index => wsubstring currentPath 0 index :: parts (currentPath.drop (index+1))
termination_by currentPath.length
decreasing_by
  obtain ⟨name,c,rest,whole,size,_⟩ := indexOfSlash_some _cut
  rw [List.length_drop,whole,List.length_append,List.length_cons]
  omega

/-- The parts of a path that `GetEntryInfo` looks up. -/
def pathParts (path : WString) : List (Option WString) := if trim path = [] then [] else parts (wstrToLower (trim path))

/-- The calls along the parts, up to the first that does not find its entry. -/
def calls (find : Lookup σ) (s : σ) (current : EntryInfo) : List (Option WString) → List (Call σ)
  | [] => []
  | name :: names => ⟨s,name,current⟩ ::
    match find s name current with
    | some (.Ok,current,s) => calls find s current names
    | _ => []

namespace FSDriver

/-- The clusters that the outer loop of `FindEntry` passes to `ReadCluster`, with `fuel` rounds left. -/
def searchPasses (d : FSDriver) (device : Device) (behind : Nat → List Nat) (clusterBuffer startCluster : Nat) (name : WString) :
    Nat → ATAPort → Mem → List Slot → List LFNEntry → List Nat
  | 0, _, _, _, _ => []
  | fuel+1, p, m, examined, nameEntries => startCluster ::
    match d.ReadCluster device p m startCluster clusterBuffer with
    | some (true,p,m) =>
      let entriesPerCluster := d.mBootRecord.SectorsPerCluster * SECTOR_SIZE / 32
      let slots := (List.range entriesPerCluster).map (fun x => (startCluster,Raw.read m (clusterBuffer + 32*x)))
      match d.scan behind name examined.length nameEntries slots with
      | some (more,.more nameEntries) => searchPasses d device behind clusterBuffer startCluster name fuel p m (examined ++ more) nameEntries
      | _ => []
    | _ => []

/-- The clusters that `FindEntry` passes to `ReadCluster`. -/
def FindEntryPasses (d : FSDriver) (device : Device) (behind : Nat → List Nat) (clusterBuffer fuel : Nat) (p : ATAPort) (m : Mem)
    (name : WString) (root : EntryInfo) : List Nat :=
  if root.DriveID ≠ d.mDriveID then []
  else if root.EntryAttributes &&& EntryAttribute.Directory = 0 then []
  else d.searchPasses device behind clusterBuffer root.firstCluster name fuel p m [] []

/-- The calls of `FindEntry` one after another; the memory behind the copies of long names may be
    another one in each call. -/
def lookups (d : FSDriver) (device : Device) (behind : Nat → Nat → List Nat) (clusterBuffer fuel : Nat) (nullName : WString) :
    Lookup (Nat × ATAPort × Mem) :=
  fun (n,s) name current => (d.lookup device (behind n) clusterBuffer fuel nullName s name current).map
    (fun (status,entry,s) => (status,entry,(n+1,s)))

/-- The clusters that the calls along the parts pass to `ReadCluster`. -/
def passed (d : FSDriver) (device : Device) (behind : Nat → Nat → List Nat) (clusterBuffer fuel : Nat) (nullName : WString)
    (s : Nat × ATAPort × Mem) (current : EntryInfo) (names : List (Option WString)) : List Nat :=
  (calls (d.lookups device behind clusterBuffer fuel nullName) s current names).flatMap
    (fun call => d.FindEntryPasses device (behind call.state.1) clusterBuffer fuel call.state.2.1 call.state.2.2
      (call.name.getD nullName) call.root)

/-- The clusters that `GetEntryInfo` has `FindEntry` pass to `ReadCluster`. -/
def clustersPassed (d : FSDriver) (device : Device) (behind : Nat → Nat → List Nat) (clusterBuffer fuel : Nat) (nullName : WString)
    (blank : EntryInfo) (p : ATAPort) (m : Mem) (path : WString) : List Nat :=
  d.passed device behind clusterBuffer fuel nullName (0,p,m) (d.rootEntry blank) (pathParts path)

end FSDriver

/-- The entries of a cluster that is read `rounds` times. -/
def Disk.rereads (disk : Disk) (ebr : EBR) (c rounds : Nat) : List Slot := (List.replicate rounds (disk.readSlots ebr c)).flatten

/-- After `prior`, a cluster that is read again and again has `before` in front of the first entry that
    ends the search; that one has the name, and the long names up to there stay inside their buffers. -/
structure Found (disk : Disk) (ebr : EBR) (behind : Nat → List Nat) (name : WString) (c : Nat) (prior before : List Slot) (slot : Slot) :
    Prop where
  stopped : ∃ rounds, Stopped (Stops behind name) prior (disk.rereads ebr c rounds) (before ++ [slot])
  matching : Matches behind name (prior ++ before) slot
  sound : AllSound prior (before ++ [slot])

/-- The attribute of a directory. -/
def Raw.IsDirectory (raw : Raw) : Prop := raw.directoryEntry.EntryAttributes &&& EntryAttribute.Directory ≠ 0

def Raw.firstCluster (raw : Raw) : Nat := raw.directoryEntry.EntryFirstClusterLow ||| (raw.directoryEntry.EntryFirstClusterHigh <<< 16) % 2^32

instance (raw : Raw) : Decidable raw.IsDirectory := inferInstanceAs (Decidable (_ ≠ _))

/-- The entries that the parts of a path but the last lead to, from the directory at a cluster on. -/
inductive Follows (disk : Disk) (ebr : EBR) (behind : Nat → Nat → List Nat) (nullName : WString) :
    Nat → Nat → List (Option WString) → Slot → Prop
  | here {n c : Nat} {name next : Option WString} {names : List (Option WString)} {before : List Slot} {slot : Slot}
      (found : Found disk ebr (behind n) (name.getD nullName) c [] before slot) :
      Follows disk ebr behind nullName n c (name :: next :: names) slot
  | later {n c : Nat} {name : Option WString} {names : List (Option WString)} {before : List Slot} {slot slot' : Slot}
      (found : Found disk ebr (behind n) (name.getD nullName) c [] before slot) (isDirectory : slot.2.IsDirectory)
      (follows : Follows disk ebr behind nullName (n+1) slot.2.firstCluster names slot') :
      Follows disk ebr behind nullName n c (name :: names) slot'

/-- An entry of the directory at a cluster: in front of the end marker, and neither deleted nor a piece
    of a long name. -/
structure Holds (disk : Disk) (ebr : EBR) (c : Nat) (slot : Slot) : Prop where
  stored : ∃ clusters before after, Chain disk ebr c clusters ∧ disk.slots ebr clusters = before ++ slot :: after ∧
    ∀ s ∈ before, ¬ s.2.Ends
  live : ¬ slot.2.Ends ∧ ¬ slot.2.Deleted ∧ ¬ slot.2.Piece

/-- The first clusters of the directories: the root, and where the entries of directories lead. The cluster 0 is
    a link to the root. -/
inductive Directory (disk : Disk) (ebr : EBR) : Nat → Prop
  | root : Directory disk ebr ebr.RootClusterStart
  | sub {c : Nat} {slot : Slot} (parent : Directory disk ebr c) (entry : Holds disk ebr c slot) (isDirectory : slot.2.IsDirectory)
      (linked : slot.2.firstCluster ≠ 0) : Directory disk ebr slot.2.firstCluster

/-- A volume whose directories have chains of clusters. -/
structure Tree (disk : Disk) (ebr : EBR) : Prop where
  volume : WellFormed disk ebr
  chain : ∀ c, Directory disk ebr c → ∃ clusters, Chain disk ebr c clusters

/-- The entry that is read was not deleted, and stands in a directory whose first cluster is read as it is stored. -/
def Kept (disk : Disk) (ebr : EBR) (slot : Slot) : Prop :=
  ¬ slot.2.Deleted ∧ Directory disk ebr slot.1 ∧ disk.readSlots ebr slot.1 = disk.slots ebr [slot.1]

/-- An entry leads on: it is no link to the root, and where it is not kept, it names a cluster all the same. -/
structure Leads (disk : Disk) (ebr : EBR) (slot : Slot) : Prop where
  linked : slot.2.firstCluster ≠ 0
  stray : ¬ Kept disk ebr slot → ebr.Cluster slot.2.firstCluster

/-- A cluster of the volume, whose sectors the driver finds in the data region. -/
structure InData (ebr : EBR) (id c : Nat) : Prop where
  cluster : 2 ≤ c ∧ c ≤ ebr.totalClusters + 1
  sectors : ebr.firstDataSector ≤ (FSDriver.mount id ebr).GetFirstSectorOfCluster c ∧
    (FSDriver.mount id ebr).GetFirstSectorOfCluster c + ebr.SectorsPerCluster ≤ ebr.totalSectors

/-- However many rounds the searches take, every cluster that is passed for a path is one of the volume. -/
def StaysInData (disk : Disk) (ebr : EBR) (id : Nat) (behind : Nat → Nat → List Nat) (clusterBuffer : Nat) (nullName : WString)
    (blank : EntryInfo) (p : ATAPort) (m : Mem) (path : WString) : Prop :=
  ∀ fuel, ∀ x ∈ (FSDriver.mount id ebr).clustersPassed disk.device behind clusterBuffer fuel nullName blank p m path, InData ebr id x

variable {find : Lookup σ} {info current out : EntryInfo} {s : σ} {text name : WString} {disk : Disk} {ebr : EBR}
  {c id clusterBuffer fuel : Nat} {behind : Nat → List Nat} {prior before slots seen : List Slot} {slot : Slot} {p : ATAPort} {m : Mem}

theorem parts_last (last : indexOfSlash text = none) : parts text = [some text] := by
  rw [parts]
  split
  · rfl
  · next found =>
    rw [last] at found
    cases found

theorem parts_cut {index : Nat} (found : indexOfSlash text = some index) :
    parts text = wsubstring text 0 index :: parts (text.drop (index+1)) := by
  rw [parts]
  split
  · next last =>
    rw [last] at found
    cases found
  · next cut =>
    rw [found] at cut
    cases cut
    rfl

theorem calls_cons (find : Lookup σ) (s : σ) (current : EntryInfo) (name : Option WString) (names : List (Option WString)) :
    calls find s current (name :: names) = ⟨s,name,current⟩ ::
      match find s name current with
      | some (.Ok,current,s) => calls find s current names
      | _ => [] := rfl

/-- A call that finds its entry is followed by the calls in it. -/
theorem calls_found {s' : σ} {current' : EntryInfo} {name : Option WString} (found : find s name current = some (.Ok,current',s'))
    (names : List (Option WString)) : calls find s current (name :: names) = ⟨s,name,current⟩ :: calls find s' current' names := by
  rw [calls_cons,found]

/-- A call that does not find its entry is the last one. -/
theorem calls_fails {name : Option WString} (fails : ∀ current' s', find s name current ≠ some (.Ok,current',s'))
    (names : List (Option WString)) : calls find s current (name :: names) = [⟨s,name,current⟩] := by
  rw [calls_cons]
  split
  · next found => exact absurd found (fails _ _)
  · rfl

/-- The loop hands out the names of the calls. -/
theorem resolve_handed (find : Lookup σ) (info : EntryInfo) (s : σ) (current : EntryInfo) (text : WString) :
    (FSDriver.resolve find info s current text).handed = (calls find s current (parts text)).map Call.name := by
  induction size : text.length using Nat.strong_induction_on generalizing text s current with
  | _ n ih =>
    cases cut : indexOfSlash text with
    | none =>
      rw [resolve_last cut,parts_last cut,calls_cons]
      split <;> simp [calls]
    | some index =>
      have shorter : (text.drop (index+1)).length < n := by
        obtain ⟨name,c,rest,whole,here,_⟩ := indexOfSlash_some cut
        rw [← size,List.length_drop,whole,List.length_append,List.length_cons]
        omega
      rw [parts_cut cut,FSDriver.resolve]
      split
      · next last =>
        rw [last] at cut
        cases cut
      · next index' cut' =>
        rw [cut] at cut'
        cases cut'
        cases found : find s (wsubstring text 0 index) current with
        | none =>
          rw [calls_fails (fun _ _ => by rw [found]; simp)]
          simp [found]
        | some answer =>
          obtain ⟨status,current',s'⟩ := answer
          by_cases ok : status = .Ok
          · subst ok
            rw [calls_found found,List.map_cons,← ih _ shorter s' current' _ rfl]
            simp [found,Resolution.after]
          · rw [calls_fails (fun _ _ => by rw [found]; simp [ok])]
            simp [found,ok]

/-- The names that `GetEntryInfo` hands to `FindEntry` are those of the calls. -/
theorem getEntryInfo_handed {path : WString} (proper : 0 ∉ path) (d : FSDriver) (blank : EntryInfo) :
    (d.GetEntryInfo find blank info s path).handed = (calls find s (d.rootEntry blank) (pathParts path)).map Call.name := by
  rw [getEntryInfo_trim find info s proper,pathParts]
  split
  · rfl
  · exact resolve_handed find info s _ _

theorem allSound_append : AllSound prior (slots ++ seen) ↔ AllSound prior slots ∧ AllSound (prior ++ slots) seen := throughout_append

theorem rereads_one (disk : Disk) (ebr : EBR) (c : Nat) : disk.rereads ebr c 1 = disk.readSlots ebr c := List.append_nil _

theorem rereads_succ (disk : Disk) (ebr : EBR) (c rounds : Nat) :
    disk.rereads ebr c (rounds+1) = disk.readSlots ebr c ++ disk.rereads ebr c rounds := rfl

/-- An entry that has the name does not end the directory. -/
theorem Found.result (found : Found disk ebr behind name c prior before slot) {d : FSDriver} {result : Examined}
    (scanned : d.scan behind name prior.length (pieces prior) slots = some (before ++ [slot],result))
    (here : Stopped (Stops behind name) prior slots (before ++ [slot])) :
    result = .found (foundInfo d (pieces (prior ++ before)) slot.2) := by
  have told := (scan_tells prior scanned).1
  cases result with
  | found info =>
    obtain ⟨before',slot',same,_,stored⟩ := scan_found prior scanned
    obtain ⟨rfl,last⟩ := List.append_inj' same rfl
    cases last
    rw [stored]
  | ended =>
    obtain ⟨_,before',slot',same,ends⟩ := told
    obtain ⟨rfl,last⟩ := List.append_inj' same rfl
    cases last
    exact absurd ends found.matching.1
  | more nameEntries => exact absurd told.1 here.not_passed

/-- The entry is found in the first round, or the round passes all entries and it is found behind them. -/
theorem Found.round {rounds : Nat} (found : Found disk ebr behind name c prior before slot)
    (stopped : Stopped (Stops behind name) prior (disk.rereads ebr c (rounds+1)) (before ++ [slot])) :
    Stopped (Stops behind name) prior (disk.readSlots ebr c) (before ++ [slot]) ∨
      (Passed (Stops behind name) prior (disk.readSlots ebr c) ∧ AllSound prior (disk.readSlots ebr c) ∧ ∃ before',
        before = disk.readSlots ebr c ++ before' ∧ Found disk ebr behind name c (prior ++ disk.readSlots ebr c) before' slot ∧
        Stopped (Stops behind name) (prior ++ disk.readSlots ebr c) (disk.rereads ebr c rounds) (before' ++ [slot])) := by
  rw [rereads_succ] at stopped
  rcases stopped.append_cases with first | ⟨passed,later,whole,stopped'⟩
  · exact .inl first
  · obtain ⟨before',slot',rfl,_,_⟩ := stopped'.last
    rw [← List.append_assoc] at whole
    obtain ⟨rfl,last⟩ := List.append_inj' whole rfl
    cases last
    have sound := found.sound
    rw [List.append_assoc,allSound_append] at sound
    refine .inr ⟨passed,sound.1,before',rfl,⟨⟨rounds,stopped'⟩,?_,sound.2⟩,stopped'⟩
    rw [List.append_assoc]
    exact found.matching

/-- From some number of rounds on the search finds the entry. -/
theorem search_found (wf : WellFormed disk ebr) (cluster : ebr.Cluster c) (ready : Buffered p 8 false)
    (found : Found disk ebr behind name c prior before slot) (m : Mem) (id clusterBuffer : Nat) (out : EntryInfo) :
    ∃ least answer, Buffered answer.port 8 false ∧ answer.status = .Ok ∧
      answer.out = foundInfo (FSDriver.mount id ebr) (pieces (prior ++ before)) slot.2 ∧ ∀ fuel ≥ least,
        (FSDriver.mount id ebr).search disk.device behind clusterBuffer c name out fuel p m prior (pieces prior) = some answer := by
  obtain ⟨rounds,stopped⟩ := found.stopped
  induction rounds generalizing p m prior before with
  | zero => cases stopped
  | succ rounds ih =>
    obtain ⟨p',m',ready',round⟩ := search_succ wf cluster ready m id clusterBuffer behind name out
    rcases found.round stopped with here | ⟨passed,sound,before',rfl,found',stopped'⟩
    · obtain ⟨result,scanned⟩ := scan_stops (FSDriver.mount id ebr) here found.sound
      have isFound := found.result scanned here
      refine ⟨1,⟨.Ok,_,prior ++ (before ++ [slot]),p',m'⟩,ready',rfl,rfl,?_⟩
      intro fuel enough
      obtain ⟨more,rfl⟩ := Nat.exists_eq_add_of_le' enough
      rw [round,scanned,isFound]
      rfl
    · have scanned := scan_passes (FSDriver.mount id ebr) passed sound
      obtain ⟨least,answer,ready'',status,stored,returned⟩ := ih ready' found' m' stopped'
      refine ⟨least+1,answer,ready'',status,by rw [stored,List.append_assoc],?_⟩
      intro fuel enough
      obtain ⟨more,rfl⟩ := Nat.exists_eq_add_of_le' enough
      rw [show more + (least + 1) = more + least + 1 by omega,round,scanned]
      exact returned (more + least) (by omega)

/-- What the search returns with success is an entry that is found there. -/
theorem search_ok (wf : WellFormed disk ebr) (cluster : ebr.Cluster c) (ready : Buffered p 8 false) {answer : Answer}
    (returned : (FSDriver.mount id ebr).search disk.device behind clusterBuffer c name out fuel p m prior (pieces prior) = some answer)
    (ok : answer.status = .Ok) : Buffered answer.port 8 false ∧ ∃ before slot, Found disk ebr behind name c prior before slot ∧
      answer.out = foundInfo (FSDriver.mount id ebr) (pieces (prior ++ before)) slot.2 := by
  induction fuel generalizing p m prior with
  | zero => cases returned
  | succ fuel ih =>
    obtain ⟨p',m',ready',round⟩ := search_succ wf cluster ready m id clusterBuffer behind name out
    rw [round] at returned
    obtain ⟨⟨seen,result⟩,scanned,follows⟩ := Option.bind_eq_some_iff.mp returned
    obtain ⟨told,sound⟩ := scan_tells prior scanned
    cases result with
    | found info =>
      cases follows
      obtain ⟨before,slot,rfl,matching,stored⟩ := scan_found prior scanned
      exact ⟨ready',before,slot,⟨⟨1,by rwa [rereads_one]⟩,matching,sound⟩,stored⟩
    | ended =>
      cases follows
      cases ok
    | more nameEntries =>
      obtain ⟨passed,rfl,rfl⟩ := told
      obtain ⟨ready'',before,slot,⟨⟨rounds,stopped⟩,matching,sound'⟩,stored⟩ := ih ready' follows
      rw [List.append_assoc] at matching stored
      refine ⟨ready'',_,slot,⟨⟨rounds+1,?_⟩,matching,?_⟩,stored⟩
      · rw [rereads_succ,List.append_assoc]
        exact .of_passed passed stopped
      · rw [List.append_assoc]
        exact allSound_append.mpr ⟨sound,sound'⟩

theorem searchPasses_mem {d : FSDriver} {device : Device} {examined : List Slot} {nameEntries : List LFNEntry} {x : Nat}
    (member : x ∈ d.searchPasses device behind clusterBuffer c name fuel p m examined nameEntries) : x = c := by
  induction fuel generalizing p m examined nameEntries with
  | zero => cases member
  | succ fuel ih =>
    rw [FSDriver.searchPasses] at member
    rcases List.mem_cons.mp member with here | later
    · exact here
    · split at later
      · simp only at later
        split at later
        · exact ih later
        · cases later
      · cases later

/-- `FindEntry` passes only the first cluster of a directory of its drive. -/
theorem findEntryPasses_mem {d : FSDriver} {device : Device} {x : Nat}
    (member : x ∈ d.FindEntryPasses device behind clusterBuffer fuel p m name current) :
    current.DriveID = d.mDriveID ∧ current.EntryAttributes &&& EntryAttribute.Directory ≠ 0 ∧ x = current.firstCluster := by
  simp only [FSDriver.FindEntryPasses] at member
  split at member
  · cases member
  · next here =>
    split at member
    · cases member
    · next isDirectory => exact ⟨not_not.mp here,isDirectory,searchPasses_mem member⟩

/-- The first round passes the first cluster of the directory. -/
theorem findEntryPasses_first {d : FSDriver} (device : Device) (behind : Nat → List Nat) (clusterBuffer fuel : Nat) (p : ATAPort) (m : Mem)
    (name : WString) (here : current.DriveID = d.mDriveID) (isDirectory : current.EntryAttributes &&& EntryAttribute.Directory ≠ 0) :
    current.firstCluster ∈ d.FindEntryPasses device behind clusterBuffer (fuel+1) p m name current := by
  rw [FSDriver.FindEntryPasses,if_neg (not_not.mpr here),if_neg isDirectory,FSDriver.searchPasses]
  exact List.mem_cons_self

theorem scan_subset {d : FSDriver} {count : Nat} {nameEntries : List LFNEntry} {result : Examined}
    (scanned : d.scan behind name count nameEntries slots = some (seen,result)) : seen ⊆ slots := by
  induction slots generalizing count nameEntries seen with
  | nil =>
    cases scanned
    exact List.Subset.refl _
  | cons slot slots ih =>
    rw [FSDriver.scan] at scanned
    obtain ⟨first,_,follows⟩ := Option.bind_eq_some_iff.mp scanned
    cases first with
    | found info =>
      cases follows
      simp
    | ended =>
      cases follows
      simp
    | more nameEntries =>
      obtain ⟨⟨later,result'⟩,scanned',same⟩ := Option.bind_eq_some_iff.mp follows
      cases same
      exact List.cons_subset_cons slot (ih scanned')

/-- The search examines entries of its cluster only. -/
theorem search_member {d : FSDriver} {device : Device} {examined : List Slot} {nameEntries : List LFNEntry} {answer : Answer}
    (returned : d.search device behind clusterBuffer c name out fuel p m examined nameEntries = some answer) (slot : Slot)
    (member : slot ∈ answer.examined) : slot ∈ examined ∨ slot.1 = c := by
  induction fuel generalizing p m examined nameEntries with
  | zero => cases returned
  | succ fuel ih =>
    rw [FSDriver.search] at returned
    obtain ⟨⟨done,p,m⟩,_,read⟩ := Option.bind_eq_some_iff.mp returned
    simp only at read
    split at read
    · cases read
      exact .inl member
    · obtain ⟨⟨more,result⟩,scanned,follows⟩ := Option.bind_eq_some_iff.mp read
      have here : ∀ slot ∈ more, slot.1 = c := by
        intro slot there
        obtain ⟨x,_,rfl⟩ := List.mem_map.mp (scan_subset scanned there)
        rfl
      have parted : slot ∈ examined ++ more → slot ∈ examined ∨ slot.1 = c :=
        fun there => (List.mem_append.mp there).imp_right (here slot)
      cases result with
      | found info =>
        cases follows
        exact parted member
      | ended =>
        cases follows
        exact parted member
      | more nameEntries =>
        rcases ih follows with old | new
        · exact parted old
        · exact .inr new

/-- `FindEntry` succeeds in a directory of its drive only. -/
theorem findEntry_ok {d : FSDriver} {device : Device} {answer : Answer}
    (returned : d.FindEntry device behind clusterBuffer fuel p m name out (some current) = some answer) (ok : answer.status = .Ok) :
    current.DriveID = d.mDriveID ∧ current.EntryAttributes &&& EntryAttribute.Directory ≠ 0 := by
  rw [FSDriver.FindEntry] at returned
  split at returned
  · cases returned
    cases ok
  · next here =>
    split at returned
    · cases returned
      cases ok
    · next isDirectory => exact ⟨not_not.mp here,isDirectory⟩

/-- Each entry that is examined stands in a cluster that was passed. -/
theorem findEntry_passes {d : FSDriver} {device : Device} {answer : Answer}
    (returned : d.FindEntry device behind clusterBuffer fuel p m name out (some current) = some answer) {slot : Slot}
    (member : slot ∈ answer.examined) : slot.1 ∈ d.FindEntryPasses device behind clusterBuffer fuel p m name current := by
  rw [FSDriver.FindEntry] at returned
  split at returned
  · cases returned
    cases member
  · next here =>
    split at returned
    · cases returned
      cases member
    · next isDirectory =>
      rcases search_member returned slot member with none | first
      · cases none
      · cases fuel with
        | zero => cases returned
        | succ fuel =>
          rw [first]
          exact findEntryPasses_first device behind clusterBuffer fuel p m name (not_not.mp here) isDirectory

/-- `current` is the entry of a directory at a cluster of the drive. -/
structure Enters (id : Nat) (current : EntryInfo) (c : Nat) : Prop where
  drive : current.DriveID = id
  isDirectory : current.EntryAttributes &&& EntryAttribute.Directory ≠ 0
  cluster : current.firstCluster = c

theorem foundInfo_enters {nameEntries : List LFNEntry} (small : id < 2^8) (isDirectory : slot.2.IsDirectory) :
    Enters id (foundInfo (FSDriver.mount id ebr) nameEntries slot.2) slot.2.firstCluster :=
  ⟨Nat.mod_eq_of_lt small,isDirectory,rfl⟩

/-- From some number of rounds on the lookup finds the entry. -/
theorem lookups_found {behind : Nat → Nat → List Nat} {n : Nat} {name : Option WString} {nullName : WString} (wf : WellFormed disk ebr)
    (enters : Enters id current c) (cluster : ebr.Cluster c) (ready : Buffered p 8 false)
    (found : Found disk ebr (behind n) (name.getD nullName) c [] before slot) (m : Mem) (clusterBuffer : Nat) :
    ∃ least p' m', Buffered p' 8 false ∧ ∀ fuel ≥ least,
      (FSDriver.mount id ebr).lookups disk.device behind clusterBuffer fuel nullName (n,p,m) name current =
        some (.Ok,foundInfo (FSDriver.mount id ebr) (pieces before) slot.2,(n+1,p',m')) := by
  obtain ⟨least,answer,ready',status,stored,returned⟩ := search_found wf cluster ready found m id clusterBuffer current
  refine ⟨least,answer.port,answer.memory,ready',?_⟩
  intro fuel enough
  have entered : (FSDriver.mount id ebr).FindEntry disk.device (behind n) clusterBuffer fuel p m (name.getD nullName) current (some current) =
      some answer := by
    rw [findEntry_directory _ _ _ _ _ _ _ _ enters.drive enters.isDirectory,enters.cluster]
    exact returned fuel enough
  rw [FSDriver.lookups,FSDriver.lookup,entered]
  simp [status,stored]

/-- What a lookup finds in a directory is an entry of its first cluster. -/
theorem lookups_ok {behind : Nat → Nat → List Nat} {n : Nat} {name : Option WString} {nullName : WString} {current' : EntryInfo}
    {s' : Nat × ATAPort × Mem} (wf : WellFormed disk ebr) (ready : Buffered p 8 false)
    (cluster : current.EntryAttributes &&& EntryAttribute.Directory ≠ 0 → ebr.Cluster current.firstCluster)
    (returned : (FSDriver.mount id ebr).lookups disk.device behind clusterBuffer fuel nullName (n,p,m) name current = some (.Ok,current',s')) :
    Enters id current current.firstCluster ∧ s'.1 = n+1 ∧ Buffered s'.2.1 8 false ∧
      ∃ before slot, Found disk ebr (behind n) (name.getD nullName) current.firstCluster [] before slot ∧
        current' = foundInfo (FSDriver.mount id ebr) (pieces before) slot.2 := by
  obtain ⟨looked,lookedUp,same⟩ := Option.map_eq_some_iff.mp returned
  obtain ⟨answer,answered,rfl⟩ := Option.map_eq_some_iff.mp lookedUp
  obtain ⟨ok,isEntry,isState⟩ : answer.status = .Ok ∧ answer.out = current' ∧ (n+1,answer.port,answer.memory) = s' := by simpa using same
  obtain ⟨drive,isDirectory⟩ := findEntry_ok answered ok
  rw [findEntry_directory _ _ _ _ _ _ _ _ drive isDirectory] at answered
  have searched : (FSDriver.mount id ebr).search disk.device (behind n) clusterBuffer current.firstCluster (name.getD nullName) current
      fuel p m [] (pieces []) = some answer := answered
  obtain ⟨ready',before,slot,found,stored⟩ := search_ok wf (cluster isDirectory) ready searched ok
  rw [← isState,← isEntry]
  exact ⟨⟨drive,isDirectory,rfl⟩,rfl,ready',before,slot,found,stored⟩

variable {behind : Nat → Nat → List Nat} {n : Nat} {nullName : WString} {names : List (Option WString)}

/-- The clusters that the first call passes, and those of the calls behind it. -/
theorem passed_cons {d : FSDriver} {device : Device} {s : Nat × ATAPort × Mem} {name : Option WString} {x : Nat}
    (member : x ∈ d.passed device behind clusterBuffer fuel nullName s current (name :: names)) :
    x ∈ d.FindEntryPasses device (behind s.1) clusterBuffer fuel s.2.1 s.2.2 (name.getD nullName) current ∨
      ∃ current' s', d.lookups device behind clusterBuffer fuel nullName s name current = some (.Ok,current',s') ∧
        x ∈ d.passed device behind clusterBuffer fuel nullName s' current' names := by
  rw [FSDriver.passed,calls_cons,List.flatMap_cons] at member
  rcases List.mem_append.mp member with here | later
  · exact .inl here
  · split at later
    · next current' s' found => exact .inr ⟨current',s',found,later⟩
    · cases later

/-- Where the entries that the path follows name clusters, every cluster that is passed is one. -/
theorem passed_clusters (wf : WellFormed disk ebr) (ready : Buffered p 8 false)
    (cluster : current.EntryAttributes &&& EntryAttribute.Directory ≠ 0 → ebr.Cluster current.firstCluster)
    (followed : ∀ slot, Enters id current current.firstCluster → Follows disk ebr behind nullName n current.firstCluster names slot →
      slot.2.IsDirectory → ebr.Cluster slot.2.firstCluster) :
    ∀ x ∈ (FSDriver.mount id ebr).passed disk.device behind clusterBuffer fuel nullName (n,p,m) current names, ebr.Cluster x := by
  induction names generalizing n p m current with
  | nil => exact fun x member => by cases member
  | cons name names ih =>
    intro x member
    rcases passed_cons member with here | ⟨current',⟨n',p',m'⟩,returned,later⟩
    · obtain ⟨_,isDirectory,rfl⟩ := findEntryPasses_mem here
      exact cluster isDirectory
    · obtain ⟨enters,next,ready',before,slot,found,rfl⟩ := lookups_ok wf ready cluster returned
      cases next
      cases names with
      | nil => cases later
      | cons name' names =>
        refine ih ready' ?_ ?_ x later
        · intro isDirectory
          exact followed slot enters (.here found) isDirectory
        · intro slot' enters' follows
          exact followed slot' enters (.later found enters'.isDirectory follows)

/-- The first call passes the first cluster of its directory. -/
theorem passed_first (enters : Enters id current c) (some_rounds : fuel ≠ 0) (device : Device) (behind : Nat → Nat → List Nat)
    (clusterBuffer : Nat) (nullName : WString) (s : Nat × ATAPort × Mem) (name : Option WString) (names : List (Option WString)) :
    c ∈ (FSDriver.mount id ebr).passed device behind clusterBuffer fuel nullName s current (name :: names) := by
  obtain ⟨more,rfl⟩ := Nat.exists_eq_succ_of_ne_zero some_rounds
  rw [FSDriver.passed,calls_cons,List.flatMap_cons,← enters.cluster]
  exact List.mem_append_left _ (findEntryPasses_first _ _ _ _ _ _ _ enters.drive enters.isDirectory)

/-- Behind a call that finds its entry, the clusters of the calls in it are passed. -/
theorem passed_later {d : FSDriver} {device : Device} {s s' : Nat × ATAPort × Mem} {current' : EntryInfo} {name : Option WString} {x : Nat}
    (found : d.lookups device behind clusterBuffer fuel nullName s name current = some (.Ok,current',s'))
    (member : x ∈ d.passed device behind clusterBuffer fuel nullName s' current' names) :
    x ∈ d.passed device behind clusterBuffer fuel nullName s current (name :: names) := by
  rw [FSDriver.passed,calls_found found,List.flatMap_cons]
  exact List.mem_append_right _ member

/-- Where every cluster that is passed is one, so are those of the entries that the path follows. -/
theorem Follows.cluster {c : Nat} {slot : Slot} (follows : Follows disk ebr behind nullName n c names slot) (small : id < 2^8)
    (wf : WellFormed disk ebr) (ready : Buffered p 8 false) (enters : Enters id current c) {enough : Nat}
    (passes : ∀ fuel ≥ enough, ∀ x ∈ (FSDriver.mount id ebr).passed disk.device behind clusterBuffer fuel nullName (n,p,m) current names,
      ebr.Cluster x) (isDirectory : slot.2.IsDirectory) : ebr.Cluster slot.2.firstCluster := by
  induction follows generalizing current p m enough with
  | @here n c name next names before slot found =>
    have cluster := passes (enough+1) (by omega) c (passed_first enters (by omega) _ _ _ _ _ _ _)
    obtain ⟨least,p',m',_,looked⟩ := lookups_found wf enters cluster ready found m clusterBuffer
    exact passes (enough+least+1) (by omega) _ (passed_later (looked _ (by omega))
      (passed_first (foundInfo_enters small isDirectory) (by omega) _ _ _ _ _ _ _))
  | @later n c name names before slot slot' found enters' follows ih =>
    have cluster := passes (enough+1) (by omega) c (passed_first enters (by omega) _ _ _ _ _ _ _)
    obtain ⟨least,p',m',ready',looked⟩ := lookups_found wf enters cluster ready found m clusterBuffer
    have later : ∀ fuel ≥ enough + least, ∀ x ∈ (FSDriver.mount id ebr).passed disk.device behind clusterBuffer fuel nullName (n+1,p',m')
        (foundInfo (FSDriver.mount id ebr) (pieces before) slot.2) names, ebr.Cluster x :=
      fun fuel large x member => passes fuel (by omega) x (passed_later (looked fuel (by omega)) member)
    exact ih ready' (foundInfo_enters small enters') later isDirectory

/-! ### Trees -/

/-- What is found is an entry of the cluster, as it is read, in front of the end marker. -/
theorem Found.read {behind : Nat → List Nat} (found : Found disk ebr behind name c prior before slot) : ∃ first after,
    disk.readSlots ebr c = first ++ slot :: after ∧ ∀ s ∈ first, ¬ s.2.Ends := by
  obtain ⟨rounds,stopped⟩ := found.stopped
  induction rounds generalizing prior before with
  | zero => cases stopped
  | succ rounds ih =>
    rcases found.round stopped with here | ⟨_,_,before',_,found',stopped'⟩
    · obtain ⟨after,whole⟩ := here.isPrefix
      obtain ⟨before',slot',same,passed,_⟩ := here.last
      obtain ⟨rfl,_⟩ := List.append_inj' same rfl
      refine ⟨before,after,by rw [← whole]; simp,?_⟩
      intro s member ends
      obtain ⟨earlier,later,rfl⟩ := List.append_of_mem member
      exact passed earlier s later rfl (.inl ends)
    · exact ih found' stopped'

/-- An entry without a long name is found behind others. -/
theorem found_short {behind : Nat → List Nat} (others : ∀ s ∈ before, Other name s)
    (named : ¬ slot.2.Ends ∧ ¬ slot.2.Piece ∧ cstrTowstr (GetEntryName slot.2.directoryEntry) = name)
    (begins : before ++ [slot] <+: disk.readSlots ebr c) : Found disk ebr behind name c [] before slot := by
  obtain ⟨ends,piece,same⟩ := named
  have short : ∀ s ∈ before ++ [slot], ¬ s.2.Piece := by
    intro s member
    rcases List.mem_append.mp member with other | here
    · exact (others s other).2.1
    · rwa [List.mem_singleton.mp here]
  have none : pieces before = [] := pieces_eq_nil (fun s member => short s (by simp [member]))
  have matching : Matches behind name before slot := ⟨ends,piece,by rw [none,comparedName,if_neg (by simp),same]⟩
  have passed : Passed (Stops behind name) [] before := passed_of_other (fun s member => by cases member) others
  have stopped : Stopped (Stops behind name) [] (before ++ [slot]) (before ++ [slot]) := .of_passed passed (.here (.inr matching))
  refine ⟨⟨1,by rw [rereads_one]; exact stopped.of_prefix begins⟩,matching,?_⟩
  intro first s after whole _ _
  have no_pieces : pieces first = [] := pieces_eq_nil (fun s' member => short s' (by rw [whole]; simp [member]))
  rw [List.nil_append,no_pieces]
  exact fun entry member => by cases member

/-- The path follows entries that are found in the cluster they are read from. -/
theorem Follows.found {c : Nat} {slot : Slot} (follows : Follows disk ebr behind nullName n c names slot) :
    ∃ behind name before, Found disk ebr behind name slot.1 [] before slot := by
  induction follows with
  | @here n c name next names before slot found =>
    obtain ⟨first,after,whole,_⟩ := found.read
    have member : slot ∈ disk.readSlots ebr c := by rw [whole]; simp
    have isHere := readSlots_cluster member
    exact ⟨_,_,before,isHere ▸ found⟩
  | later _ _ _ ih => exact ih

theorem Tree.cluster (tree : Tree disk ebr) {c : Nat} (directory : Directory disk ebr c) : ebr.Cluster c := by
  obtain ⟨clusters,chain⟩ := tree.chain c directory
  exact chain.cluster

/-- An entry that is kept is one of the directory. -/
theorem Tree.holds (tree : Tree disk ebr) {behind : Nat → List Nat} (found : Found disk ebr behind name slot.1 [] before slot)
    (kept : Kept disk ebr slot) : Holds disk ebr slot.1 slot := by
  obtain ⟨undeleted,directory,same⟩ := kept
  obtain ⟨clusters,chain⟩ := tree.chain _ directory
  obtain ⟨later,rfl⟩ := chain.first
  obtain ⟨first,after,whole,passed⟩ := found.read
  refine ⟨⟨_,first,after ++ disk.slots ebr later,chain,?_,passed⟩,found.matching.1,undeleted,found.matching.2.1⟩
  rw [slots_cons,← same,whole]
  simp

/-- A cluster among the first 2^24 sectors is read as it is stored. -/
theorem readSlots_low (low : ebr.firstSector c + ebr.SectorsPerCluster ≤ 2^24) : disk.readSlots ebr c = disk.slots ebr [c] := by
  rw [Disk.slots,List.flatMap_singleton]
  apply List.map_congr_left
  intro x member
  have inside := List.mem_range.mp member
  refine congrArg (Prod.mk c) (List.map_congr_left ?_)
  intro i small
  have byte := List.mem_range.mp small
  apply readByte_of_lt
  simp only [EBR.clusterBytes,SECTOR_SIZE] at inside
  simp only [SECTOR_SIZE]
  omega

/-- In the directories among the first 2^24 sectors every entry is kept that was not deleted. -/
theorem kept_of_low (directory : Directory disk ebr slot.1) (low : ebr.firstSector slot.1 + ebr.SectorsPerCluster ≤ 2^24) :
    Kept disk ebr slot ↔ ¬ slot.2.Deleted :=
  ⟨fun kept => kept.1,fun undeleted => ⟨undeleted,directory,readSlots_low low⟩⟩

/-- In a tree an entry that the path follows names a cluster if and only if it leads on. -/
theorem Follows.leads_iff (follows : Follows disk ebr behind nullName n c names slot) (tree : Tree disk ebr) (isDirectory : slot.2.IsDirectory) :
    ebr.Cluster slot.2.firstCluster ↔ Leads disk ebr slot := by
  constructor
  · intro cluster
    refine ⟨?_,fun _ => cluster⟩
    intro none
    have low := cluster.1
    omega
  · intro leads
    by_cases kept : Kept disk ebr slot
    · obtain ⟨_,_,_,found⟩ := follows.found
      exact tree.cluster (.sub kept.2.1 (tree.holds found kept) isDirectory leads.linked)
    · exact leads.stray kept

/-! ### Paths -/

/-- The clusters of the volume are those whose sectors lie in its data region. -/
theorem inData_iff (wf : WellFormed disk ebr) (id : Nat) : InData ebr id c ↔ ebr.Cluster c := by
  constructor
  · rintro ⟨⟨low,high⟩,_⟩
    exact ⟨low,by omega⟩
  · intro cluster
    have inside := wf.cluster_inside cluster
    refine ⟨⟨cluster.1,by have high := cluster.2; omega⟩,?_⟩
    rw [firstSector_eq wf cluster]
    exact ⟨Nat.le_add_right _ _,inside⟩

theorem rootEntry_firstCluster (wf : WellFormed disk ebr) (id : Nat) (blank : EntryInfo) :
    ((FSDriver.mount id ebr).rootEntry blank).firstCluster = ebr.RootClusterStart := by
  have small : ebr.RootClusterStart < 2^28 := by
    have bound := wf.clusters.2
    have high := wf.root.2
    omega
  have low : ebr.RootClusterStart % 2^16 < 2^16 := Nat.mod_lt _ (by decide)
  simp only [EntryInfo.firstCluster,FSDriver.rootEntry,FSDriver.mount]
  rw [Nat.shiftLeft_eq,Nat.mod_eq_of_lt (a := _ * _) (by omega),Nat.or_comm,← Nat.shiftLeft_eq,← Nat.shiftLeft_add_eq_or_of_lt low,
    Nat.shiftLeft_eq]
  omega

/-- Every cluster that is passed to `ReadCluster` for a path is one of the volume if and only if the entries of
    directories that its parts but the last lead to lead on. A drive with a number of more than a byte
    reads nothing. -/
theorem clustersPassed_iff {path : WString} (tree : Tree disk ebr) (ready : Buffered p 8 false) (blank : EntryInfo) :
    StaysInData disk ebr id behind clusterBuffer nullName blank p m path ↔ (id < 2^8 → ∀ slot,
      Follows disk ebr behind nullName 0 ebr.RootClusterStart (pathParts path) slot → slot.2.IsDirectory → Leads disk ebr slot) := by
  have root := rootEntry_firstCluster tree.volume id blank
  constructor
  · intro passes small slot follows isDirectory
    have enters : Enters id ((FSDriver.mount id ebr).rootEntry blank) ebr.RootClusterStart :=
      ⟨Nat.mod_eq_of_lt small,by simp [FSDriver.rootEntry,EntryAttribute.Directory],root⟩
    have clusters : ∀ fuel ≥ 0, ∀ x ∈ (FSDriver.mount id ebr).passed disk.device behind clusterBuffer fuel nullName (0,p,m)
        ((FSDriver.mount id ebr).rootEntry blank) (pathParts path), ebr.Cluster x :=
      fun fuel _ x member => (inData_iff tree.volume id).mp (passes fuel x member)
    exact (follows.leads_iff tree isDirectory).mp (follows.cluster small tree.volume ready enters clusters isDirectory)
  · intro leads fuel x member
    rw [inData_iff tree.volume]
    refine passed_clusters tree.volume ready ?_ ?_ x member
    · intro _
      rw [root]
      exact tree.volume.root
    · intro slot enters follows isDirectory
      rw [root] at follows
      have small : id < 2^8 := by
        have here : id % 2^8 = id := enters.drive
        omega
      exact (follows.leads_iff tree isDirectory).mpr (leads small slot follows isDirectory)

/-! ### A small tree -/

/-- The 32 bytes of an entry with a short name of 11 characters, in a cluster whose number is small. -/
def shortEntry (ShortName : List (BitVec 8)) (EntryAttributes EntryFirstClusterLow : BitVec 8) : Raw :=
  ShortName ++ EntryAttributes :: List.replicate 14 0 ++ EntryFirstClusterLow :: List.replicate 5 0

/-- The root holds a directory `A` and a file `B`, and the directory holds `.` and `..`. -/
def treeDisk : Disk where
  data i :=
    if 16384 + 8 ≤ i ∧ i < 16384 + 16 then 0xFF
    else if 1056 * 512 ≤ i ∧ i < 1056 * 512 + 64 then
      (shortEntry (0x41 :: List.replicate 10 0x20) 0x10 3 ++ shortEntry (0x42 :: List.replicate 10 0x20) 0x20 0).getD (i - 1056 * 512) 0
    else if 1057 * 512 ≤ i ∧ i < 1057 * 512 + 64 then
      (shortEntry (0x2E :: List.replicate 10 0x20) 0x10 3 ++ shortEntry (0x2E :: 0x2E :: List.replicate 9 0x20) 0x10 0).getD (i - 1057 * 512) 0
    else 0
  capacity := 66581

theorem tree_wellFormed : WellFormed treeDisk smallEBR :=
  ⟨rfl,⟨0,by decide,rfl⟩,by decide,by decide,by decide,by decide,by decide,by unfold EBR.Cluster; decide⟩

theorem tree_chain {c : Nat} (known : c = 2 ∨ c = 3) : Chain treeDisk smallEBR c [c] := by
  rcases known with rfl | rfl
  · exact .last (small_cluster (by decide) (by decide)) (by decide)
  · exact .last (small_cluster (by decide) (by decide)) (by decide)

/-- The entries of directories link to the root, or lead to cluster 3. -/
theorem tree_entries {c : Nat} (known : c = 2 ∨ c = 3) :
    ∀ slot ∈ treeDisk.slots smallEBR [c], slot.2.IsDirectory → slot.2.firstCluster = 0 ∨ slot.2.firstCluster = 3 := by
  rcases known with rfl | rfl
  · decide +kernel
  · decide +kernel

theorem tree_directory {c : Nat} (directory : Directory treeDisk smallEBR c) : c = 2 ∨ c = 3 := by
  induction directory with
  | root => exact .inl rfl
  | @sub c slot parent entry isDirectory linked known =>
    obtain ⟨clusters,before,after,chain,whole,_⟩ := entry.stored
    cases chain.unique tree_wellFormed (tree_chain known)
    have member : slot ∈ treeDisk.slots smallEBR [c] := by rw [whole]; simp
    rcases tree_entries known slot member isDirectory with none | same
    · exact absurd none linked
    · exact .inr same

theorem small_tree : Tree treeDisk smallEBR := ⟨tree_wellFormed,fun c directory => ⟨[c],tree_chain (tree_directory directory)⟩⟩

/-- The path `a/b`. -/
theorem clustersPassed_iff_below :
    StaysInData treeDisk smallEBR 0 (fun _ _ => []) 0x130000 [] (fileEntry 0 0) idlePort (fun _ => 0) [0x61,slash,0x62] := by
  have cut : pathParts [0x61,slash,0x62] = [some [0x61],some [0x62]] := by
    rw [pathParts,if_neg (by decide),parts_cut (show indexOfSlash _ = some 1 by decide),parts_last (by decide)]
    decide
  have ready : Buffered idlePort 8 false := ⟨rfl,rfl⟩
  apply (clustersPassed_iff small_tree ready (fileEntry 0 0)).mpr
  intro _ slot follows isDirectory
  rw [cut] at follows
  have here : ∀ s ∈ treeDisk.readSlots smallEBR 2, s.2.IsDirectory → s.2.firstCluster = 3 := by decide +kernel
  cases follows with
  | here found =>
    obtain ⟨first,after,whole,_⟩ := found.read
    have member : slot ∈ treeDisk.readSlots smallEBR 2 := by
      have parted : treeDisk.readSlots smallEBR 2 = first ++ slot :: after := whole
      rw [parted]
      simp
    have isThird := here slot member isDirectory
    exact ⟨by omega,fun _ => isThird ▸ small_cluster (by decide) (by decide)⟩
  | later found enters follows =>
    cases follows with
    | later found enters follows => cases follows

/-- The path `a/../b`: the third call passes the cluster 0 of the entry `..`. -/
theorem clustersPassed_parent : Tree treeDisk smallEBR ∧ Buffered idlePort 8 false ∧
    ¬ StaysInData treeDisk smallEBR 0 (fun _ _ => []) 0x130000 [] (fileEntry 0 0) idlePort (fun _ => 0)
      [0x61,slash,0x2E,0x2E,slash,0x62] := by
  have cut : pathParts [0x61,slash,0x2E,0x2E,slash,0x62] = [some [0x61],some [0x2E,0x2E],some [0x62]] := by
    rw [pathParts,if_neg (by decide),parts_cut (show indexOfSlash _ = some 1 by decide),
      parts_cut (show indexOfSlash _ = some 2 by decide),parts_last (by decide)]
    decide
  have ready : Buffered idlePort 8 false := ⟨rfl,rfl⟩
  refine ⟨small_tree,ready,?_⟩
  intro passes
  have a : Found treeDisk smallEBR (fun _ => []) [0x61] 2 [] [] (2,Raw.read (treeDisk.clusterByte smallEBR 2) 0) :=
    found_short (fun s member => by cases member) (by decide +kernel) (by decide +kernel)
  have parent : Found treeDisk smallEBR (fun _ => []) [0x2E,0x2E] 3 [] [(3,Raw.read (treeDisk.clusterByte smallEBR 3) 0)]
      (3,Raw.read (treeDisk.clusterByte smallEBR 3) 32) := found_short (by decide +kernel) (by decide +kernel) (by decide +kernel)
  have follows : Follows treeDisk smallEBR (fun _ _ => []) [] 0 2 [some [0x61],some [0x2E,0x2E],some [0x62]]
      (3,Raw.read (treeDisk.clusterByte smallEBR 3) 32) := .later a (by decide +kernel) (.here parent)
  have enters : Enters 0 ((FSDriver.mount 0 smallEBR).rootEntry (fileEntry 0 0)) 2 := ⟨rfl,by decide,by decide⟩
  have clusters : ∀ fuel ≥ 0, ∀ x ∈ (FSDriver.mount 0 smallEBR).passed treeDisk.device (fun _ _ => []) 0x130000 fuel []
      (0,idlePort,fun _ => 0) ((FSDriver.mount 0 smallEBR).rootEntry (fileEntry 0 0)) [some [0x61],some [0x2E,0x2E],some [0x62]], smallEBR.Cluster x := by
    intro fuel _ x member
    rw [← cut] at member
    exact (inData_iff tree_wellFormed 0).mp (passes fuel x member)
  have linked := (follows.cluster (by decide) tree_wellFormed ready enters clusters (by decide +kernel)).1
  revert linked
  decide +kernel

end WaifuOS.FAT32
