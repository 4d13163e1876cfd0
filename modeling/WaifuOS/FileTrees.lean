import WaifuOS.NameSearch
import WaifuOS.PathFailures

/-!
Files that are read by their paths (`FAT32::ReadFile`). A volume is meant as a graph: a node is a file with its
bytes, or a directory with names in lower case that lead to other nodes (`Node`), and a path is followed from the
root along its names (`follow`). The entries on the disk store the graph (`Stores`) where each directory lies in
one cluster and each file in clusters that follow each other. `readFile_follows` says that then the call answers
every tidy path as the graph does, through the lookups, the transfers and the list of drives.
-/
namespace WaifuOS.FAT32
open WaifuOS.Bytes WaifuOS.AHCI WaifuOS.cstr WaifuOS.Searches
open Function (update)

/-- How many lookups there were, the ports and the memory of the transfers. -/
abbrev Machine := Nat × (Nat → ATAPort) × Mem

/-- `FAT32::ReadFile` of an entry. -/
def ReadFileInfo (Drives : List Drive) (s : Machine) (info : EntryInfo) (out numBytes : Nat) : Option (Status × Machine) :=
  match Drives.find? (fun drive => drive.driver.mDriveID = info.DriveID) with
  | none => some (.BadVolume,s)
  | some drive => (drive.driver.ReadFile drive.device (s.2.1 drive.port) s.2.2 info out numBytes).map
      (fun (done,p,m) => (if done then .Ok else .ReadError,(s.1,update s.2.1 drive.port p,m)))

/-- `FAT32::ReadFile` of a path; `blank` is what a new `EntryInfo` holds. -/
def ReadFile (Drives : List Drive) (behind : Nat → Nat → List Nat) (clusterBuffer fuel : Nat) (nullName : WString) (blank : EntryInfo)
    (s : Machine) (path : WString) (out numBytes : Nat) : Option (Status × Machine) := do
  let (sts,info,s) ← GetEntryInfo Drives (Drive.find behind clusterBuffer fuel nullName) blank blank s path
  if sts ≠ .Ok then some (sts,s) else ReadFileInfo Drives s info out numBytes

/-- What stands at a node of a volume. The parent of a directory of the root is an entry that leads nowhere. -/
inductive Node (ν : Type)
  | file (bytes : List (BitVec 8))
  | directory (names : List WString) (child : WString → ν)
  | astray

variable {ν : Type}

/-- Where a name leads. Nothing is said of an entry that leads nowhere. -/
def Node.lookup (name : WString) : Node ν → Option (Except Status ν)
  | file _ => some (.error .Error)
  | directory names child => some (if name ∈ names then .ok (child name) else .error .NotFound)
  | astray => none

/-- The status of an answer. -/
def statusOf {α : Type} : Except Status α → Status
  | .ok _ => .Ok
  | .error status => status

/-- The first bytes of a file; none of them cannot be read. -/
def Node.read (numBytes : Nat) : Node ν → Option (Except Status (List (BitVec 8)))
  | file bytes => some (if bytes.take numBytes = [] then .error .ReadError else .ok (bytes.take numBytes))
  | _ => none

/-- Where names lead, one after another. -/
def follow (g : ν → Node ν) (v : ν) : List WString → Option (Except Status ν)
  | [] => some (.ok v)
  | name :: names =>
    match (g v).lookup name with
    | some (.ok w) => follow g w names
    | stuck => stuck

/-- What reading the file at the end of a path should give. -/
def readAt (g : ν → Node ν) (v : ν) (names : List WString) (numBytes : Nat) : Option (Except Status (List (BitVec 8))) :=
  match follow g v names with
  | some (.ok w) => (g w).read numBytes
  | some (.error status) => some (.error status)
  | none => none

/-- The bytes of an answer. -/
def bytesOf : Except Status (List (BitVec 8)) → List (BitVec 8)
  | .ok bytes => bytes
  | .error _ => []

/-- Each part of a path has characters, none of which is a separator, and separators stand only between
    parts: a backslash only where no slash follows. -/
inductive Tidy : WString → Prop
  | last {name : WString} (chars : name ≠ []) (whole : ∀ c ∈ name, isSeparator c = false) : Tidy name
  | next {name rest : WString} {c : Nat} (chars : name ≠ []) (whole : ∀ c ∈ name, isSeparator c = false) (cuts : Cuts c rest)
      (later : Tidy rest) : Tidy (name ++ c :: rest)

/-- The unit that the first character of a deleted entry becomes. -/
def deletedUnit : Nat := 0xFFE5

/-- The long name of a file does not fill its buffer, and a deleted file has no pieces of a long name. -/
def Record.Plain : Record → Prop
  | .file long _ _ _ => long = [] ∨ long.length % 8 ≠ 0
  | .deleted pieces _ _ => pieces = []

/-- An entry of a file with the bytes, in clusters that follow each other among the first 2^24 sectors. -/
structure StoredFile (disk : Disk) (ebr : EBR) (id : Nat) (info : EntryInfo) (bytes : List (BitVec 8)) : Prop where
  here : info.DriveID = id ∧ info.EntryAttributes &&& EntryAttribute.Directory = 0
  stored : ∃ clusters, File disk ebr info clusters ∧ (∀ k < clusters.length, clusters.getD k 0 = info.firstCluster + k) ∧
    bytes = (disk.contents ebr clusters).take info.FileSize
  low : ebr.firstSector info.firstCluster + (info.FileSize / SECTOR_SIZE + 1) ≤ 2^24
  there : ebr.firstSector info.firstCluster + (info.FileSize / SECTOR_SIZE + 1) ≤ disk.capacity

/-- An entry of a directory with the names, in one cluster among the first 2^24 sectors. -/
structure StoredDirectory (disk : Disk) (ebr : EBR) (id : Nat) (info : EntryInfo) (names : List WString) (child : WString → EntryInfo) :
    Prop where
  stored : ∃ records last rest, SingleCluster disk ebr id (some info) records last rest ∧ names = records.filterMap Record.name ∧
    (∀ r ∈ records, r.Plain) ∧ ∀ name r, records.find? (fun r => r.name = some name) = some r → child name = r.info id
  low : ebr.firstSector info.firstCluster + ebr.SectorsPerCluster ≤ 2^24

/-- The volume stores the graph; `entry` is the entry of each node. -/
structure Stores (disk : Disk) (ebr : EBR) (id : Nat) (g : ν → Node ν) (entry : ν → EntryInfo) : Prop where
  volume : WellFormed disk ebr
  file : ∀ v bytes, g v = .file bytes → StoredFile disk ebr id (entry v) bytes
  directory : ∀ v names child, g v = .directory names child → StoredDirectory disk ebr id (entry v) names (entry ∘ child)

/-- The drive of the volume, behind a port. -/
def Disk.drive (disk : Disk) (ebr : EBR) (id port : Nat) : Drive := ⟨.mount id ebr,port,disk.device⟩

/-- The memory behind the copies of long names, in the directories that the names lead through. -/
def RoomBehind (disk : Disk) (ebr : EBR) (behind : Nat → Nat → List Nat) (g : ν → Node ν) (entry : ν → EntryInfo) : Nat → ν → List WString → Prop
  | _, _, [] => True
  | n, v, name :: names => (∀ here child, g v = .directory here child →
        Throughout (Allocated (behind n)) [] (disk.slots ebr [(entry v).firstCluster])) ∧
      ∀ w, (g v).lookup name = some (.ok w) → RoomBehind disk ebr behind g entry (n+1) w names

/-- The port is ready again, other ports are as they were, and so is the memory outside of a buffer. -/
structure Moved (port buffer size : Nat) (s s' : Machine) : Prop where
  ready : Buffered (s'.2.1 port) 8 false
  ports : ∀ q ≠ port, s'.2.1 q = s.2.1 q
  memory : ∀ x, x < buffer ∨ buffer + size ≤ x → s'.2.2 x = s.2.2 x

variable {disk : Disk} {ebr : EBR} {id clusterBuffer fuel n port numBytes : Nat} {p : ATAPort} {m : Mem} {name text path nullName : WString}
  {names : List WString} {g : ν → Node ν} {entry : ν → EntryInfo} {v w : ν} {info blank : EntryInfo} {s s' s'' : Machine}
  {bytes : List (BitVec 8)} {child : WString → EntryInfo} {records : List Record} {last : Raw} {rest : List Raw}

theorem Moved.trans {buffer size : Nat} (first : Moved port buffer size s s') (second : Moved port buffer size s' s'') :
    Moved port buffer size s s'' where
  ready := second.ready
  ports q other := (second.ports q other).trans (first.ports q other)
  memory x outside := (second.memory x outside).trans (first.memory x outside)

/-- A deleted entry is compared under a name with the mark. -/
theorem deleted_name {pieces : List Raw} {short : Raw} (deleted : IsDeleted pieces short) :
    (cstrTowstr (GetEntryName short.directoryEntry)).head? = some deletedUnit := by
  have mark : short.directoryEntry.ShortName = 0xE5 :: (List.range' 1 7).map (fun i => short.getD i 0) := by
    have first : short.getD 0 0 = 0xE5 := deleted.isShort.2
    rw [← first]
    rfl
  unfold GetEntryName
  dsimp only
  rw [mark,List.takeWhile_cons_of_pos (by decide),List.cons_append,List.takeWhile_cons_of_pos (by decide)]
  rfl

/-- The records of a plain directory are handled, whatever name without the mark is looked for. -/
theorem allHandled (plain : ∀ r ∈ records, r.Plain) (unmarked : name.head? ≠ some deletedUnit) : AllHandled name records := by
  induction records with
  | nil => trivial
  | cons r rs ih =>
    have later := ih (fun r member => plain r (List.mem_cons_of_mem _ member))
    have first := plain r List.mem_cons_self
    refine ⟨?_,.inr later⟩
    cases r with
    | file long pieces short isFile => exact first
    | deleted pieces short isDeleted =>
      refine ⟨first,fun same => unmarked ?_⟩
      rw [← same]
      exact deleted_name isDeleted

theorem find?_name (name : WString) (records : List Record) :
    (∃ r, records.find? (fun r => r.name = some name) = some r) ↔ name ∈ records.filterMap Record.name := by
  rw [← Option.isSome_iff_exists,List.find?_isSome,List.mem_filterMap]
  simp only [decide_eq_true_eq]

/-- A lookup in a directory answers as the names in it do. -/
theorem findEntry_stored {behind : Nat → List Nat} (wf : WellFormed disk ebr) (directory : StoredDirectory disk ebr id info names child)
    (ready : Buffered p 8 false) (allocated : Throughout (Allocated behind) [] (disk.slots ebr [info.firstCluster]))
    (unmarked : name.head? ≠ some deletedUnit) (m : Mem) (clusterBuffer fuel : Nat) (out : EntryInfo) :
    ∃ p' examined, Buffered p' 8 false ∧
      (FSDriver.mount id ebr).FindEntry disk.device behind clusterBuffer (fuel+1) p m name out (some info) =
        some ⟨if name ∈ names then .Ok else .NotFound,if name ∈ names then child name else out,examined,p',
          fill m clusterBuffer ebr.clusterBytes (disk.readByte (ebr.firstSector info.firstCluster))⟩ := by
  obtain ⟨records,last,rest,dir,isNames,plain,children⟩ := directory.stored
  have cluster : ebr.Cluster info.firstCluster := dir.chain.cluster
  obtain ⟨p',ready',returned⟩ := readCluster_spec wf cluster ready id m clusterBuffer
  obtain ⟨more,stored⟩ := dir.begins name
  have begins : slotsOf info.firstCluster (rawsUpTo name last records) ++ more = disk.slots ebr [info.firstCluster] := stored
  rw [← begins,throughout_append] at allocated
  obtain ⟨scanned,_⟩ := scan_first (d := FSDriver.mount id ebr) (allHandled plain unmarked) rfl dir.ends allocated.1 more
  rw [begins,← readSlots_low directory.low,← read_slots disk ebr info.firstCluster clusterBuffer m] at scanned
  refine ⟨p',slotsOf info.firstCluster (rawsUpTo name last records),ready',?_⟩
  obtain ⟨drive,isDirectory⟩ := dir.here info rfl
  rw [findEntry_directory _ _ _ _ _ _ _ _ drive isDirectory,FSDriver.search,returned]
  simp only [Option.bind_eq_bind,Option.bind_some,Bool.not_true,Bool.false_eq_true,if_false]
  apply (congrArg (Option.bind · _) scanned).trans
  have inside := find?_name name records
  rw [← isNames] at inside
  rw [Option.bind_some]
  cases first : records.find? (fun r => r.name = some name) with
  | some r =>
    have result : firstOf (FSDriver.mount id ebr).mDriveID name records = .found (r.info id) := by rw [firstOf,first]; rfl
    have member : name ∈ names := inside.mp ⟨r,first⟩
    simp only [result,if_pos member,children name r first]
    rfl
  | none =>
    have result : firstOf (FSDriver.mount id ebr).mDriveID name records = .ended := by rw [firstOf,first]
    have absent : name ∉ names := fun member => by
      obtain ⟨r,found⟩ := inside.mpr member
      cases first.symm.trans found
    simp only [result,if_neg absent]
    rfl

theorem Moved.refl {buffer size : Nat} (ready : Buffered (s.2.1 port) 8 false) : Moved port buffer size s s :=
  ⟨ready,fun _ _ => rfl,fun _ _ => rfl⟩

theorem lookup_error {node : Node ν} {status : Status} (fails : node.lookup name = some (.error status)) : status ≠ .Ok := by
  rintro rfl
  cases node with
  | file => cases fails
  | directory names child =>
    have fails := Option.some.inj fails
    split at fails <;> cases fails
  | astray => cases fails

theorem moved_update {buffer size n' : Nat} {ports : Nat → ATAPort} {m' : Mem} (ready : Buffered p 8 false)
    (memory : ∀ x, x < buffer ∨ buffer + size ≤ x → m' x = m x) : Moved port buffer size (n,ports,m) (n',update ports port p,m') where
  ready := by
    show Buffered (update ports port p port) 8 false
    rwa [Function.update_self]
  ports q other := Function.update_of_ne other _ _
  memory := memory

theorem drive_find {behind : Nat → Nat → List Nat} {ports : Nat → ATAPort} {answer : Answer}
    (asked : (FSDriver.mount id ebr).FindEntry disk.device (behind n) clusterBuffer fuel (ports port) m name info (some info) = some answer) :
    (disk.drive ebr id port).find behind clusterBuffer fuel nullName (n,ports,m) (some name) info =
      some (answer.status,answer.out,(n+1,update ports port answer.port,answer.memory)) :=
  congrArg (Option.map _) (congrArg (Option.map _) asked)

theorem follow_error {status : Status} (fails : follow g v names = some (.error status)) : status ≠ .Ok := by
  induction names generalizing v with
  | nil => cases fails
  | cons name names ih =>
    rw [follow] at fails
    cases looked : (g v).lookup name with
    | none =>
      rw [looked] at fails
      cases fails
    | some found =>
      rw [looked] at fails
      cases found with
      | ok w => exact ih fails
      | error other =>
        cases fails
        exact lookup_error looked

/-- A lookup on the drive answers as the node does. -/
theorem find_stored {behind : Nat → Nat → List Nat} (stores : Stores disk ebr id g entry) (ready : Buffered (s.2.1 port) 8 false)
    (room : ∀ here child, g v = .directory here child →
      Throughout (Allocated (behind s.1)) [] (disk.slots ebr [(entry v).firstCluster]))
    (unmarked : name.head? ≠ some deletedUnit) {answer : Except Status ν} (answers : (g v).lookup name = some answer)
    (clusterBuffer fuel : Nat) (nullName : WString) : ∃ s' current, s'.1 = s.1 + 1 ∧ Moved port clusterBuffer ebr.clusterBytes s s' ∧
      (disk.drive ebr id port).find behind clusterBuffer (fuel+1) nullName s (some name) (entry v) = some (statusOf answer,current,s') ∧
      ∀ w, answer = .ok w → current = entry w := by
  obtain ⟨n,ports,m⟩ := s
  cases node : g v with
  | file bytes =>
    rw [node] at answers
    cases answers
    obtain ⟨drive,plain⟩ := (stores.file v bytes node).here
    have asked : (FSDriver.mount id ebr).FindEntry disk.device (behind n) clusterBuffer (fuel+1) (ports port) m name (entry v)
        (some (entry v)) = some ⟨.Error,entry v,[],ports port,m⟩ := (if_neg (not_not.mpr drive)).trans (if_pos plain)
    exact ⟨_,_,rfl,moved_update ready (fun _ _ => rfl),drive_find asked,fun w ok => by cases ok⟩
  | directory names child =>
    rw [node] at answers
    obtain ⟨p',examined,ready',asked⟩ := findEntry_stored stores.volume (stores.directory v names child node) ready
      (room names child node) unmarked m clusterBuffer fuel (entry v)
    have status : statusOf answer = if name ∈ names then .Ok else .NotFound := by
      cases answers
      split <;> rfl
    rw [status]
    refine ⟨_,_,rfl,moved_update ready' (fun x outside => fill_apart outside),drive_find asked,?_⟩
    intro w ok
    cases ok
    have found := Option.some.inj answers
    by_cases member : name ∈ names
    · rw [if_pos member] at found
      cases found
      exact if_pos member
    · rw [if_neg member] at found
      cases found
  | astray =>
    rw [node] at answers
    cases answers

/-- The walk along names is the way that they lead. -/
theorem walk_follows {behind : Nat → Nat → List Nat} (stores : Stores disk ebr id g entry) (ready : Buffered (s.2.1 port) 8 false)
    (room : RoomBehind disk ebr behind g entry s.1 v names) (unmarked : ∀ name ∈ names, name.head? ≠ some deletedUnit)
    {answer : Except Status ν} (answers : follow g v names = some answer) (clusterBuffer fuel : Nat) (nullName : WString) :
    ∃ s' current, Moved port clusterBuffer ebr.clusterBytes s s' ∧
      (walk ((disk.drive ebr id port).find behind clusterBuffer (fuel+1) nullName) s (entry v) names).result =
        some (statusOf answer,current,s') ∧ ∀ w, answer = .ok w → current = entry w := by
  induction names generalizing s v with
  | nil =>
    cases answers
    exact ⟨s,entry v,.refl ready,rfl,fun w ok => by cases ok; rfl⟩
  | cons name names ih =>
    obtain ⟨roomHere,roomLater⟩ := room
    have first := unmarked name List.mem_cons_self
    cases looked : (g v).lookup name with
    | none =>
      rw [follow,looked] at answers
      cases answers
    | some found =>
      obtain ⟨s',current,counted,moved,asked,leads⟩ := find_stored stores ready roomHere first looked clusterBuffer fuel nullName
      rw [follow,looked] at answers
      cases found with
      | ok w =>
        cases leads w rfl
        obtain ⟨s'',current,moved',walked,ends⟩ := ih moved.ready (counted ▸ roomLater w looked)
          (fun name member => unmarked name (List.mem_cons_of_mem _ member)) answers
        refine ⟨s'',current,moved.trans moved',?_,ends⟩
        rw [walk,asked]
        exact walked
      | error status =>
        cases answers
        refine ⟨s',current,moved,?_,fun w ok => by cases ok⟩
        rw [walk,asked]
        exact congrArg Resolution.result (if_pos (lookup_error looked))

theorem Tidy.some_chars (tidy : Tidy text) : text ≠ [] := by
  cases tidy with
  | last chars whole => exact chars
  | next => simp

theorem Tidy.lower (tidy : Tidy text) : Tidy (wstrToLower text) := by
  have lowered : ∀ {name : WString}, (∀ c ∈ name, isSeparator c = false) → ∀ c ∈ wstrToLower name, isSeparator c = false := by
    intro name whole c member
    obtain ⟨x,inside,rfl⟩ := List.mem_map.mp member
    rw [isSeparator_lower]
    exact whole x inside
  induction tidy with
  | last chars whole => exact .last (fun none => chars (List.map_eq_nil_iff.mp none)) (lowered whole)
  | @next name rest c chars whole cuts later ih =>
    have same : cstr.lower c = c := by rcases cuts with rfl | ⟨rfl,_⟩ <;> rfl
    rw [wstrToLower,List.map_append,List.map_cons,same]
    refine .next (fun none => chars (List.map_eq_nil_iff.mp none)) (lowered whole) ?_ ih
    rcases cuts with rfl | ⟨rfl,none⟩
    · exact .inl rfl
    · refine .inr ⟨rfl,fun member => none ?_⟩
      obtain ⟨x,inside,isSlash⟩ := List.mem_map.mp member
      have separator : isSeparator x = true := by rw [← isSeparator_lower,isSlash]; rfl
      have either : x = slash ∨ x = backslash := by simpa [isSeparator] using separator
      rcases either with rfl | rfl
      · exact inside
      · cases isSlash

/-- Every lookup meets the parts of a tidy path. -/
theorem Tidy.plain {σ : Type} {find : Lookup σ} {current : EntryInfo} {s : σ} (tidy : Tidy text) : Plain find s current text := by
  induction tidy generalizing s current with
  | last chars whole => exact .last chars whole
  | @next name rest c chars whole cuts later ih =>
    by_cases found : ∃ current' s', find s (some name) current = some (.Ok,current',s')
    · obtain ⟨current',s',found⟩ := found
      exact .next chars whole cuts found ih
    · exact .fails chars whole cuts (fun current' s' ok => found ⟨current',s',ok⟩)

/-- `GetEntryInfo` of a tidy path answers as its names lead. -/
theorem getEntryInfo_follows {behind : Nat → Nat → List Nat} (stores : Stores disk ebr id g entry) (ready : Buffered (s.2.1 port) 8 false)
    (proper : 0 ∉ path) (tidy : Tidy (trim path)) (root : entry v = (FSDriver.mount id ebr).rootEntry blank)
    (room : RoomBehind disk ebr behind g entry s.1 v ((runs path).map wstrToLower))
    (unmarked : ∀ name ∈ (runs path).map wstrToLower, name.head? ≠ some deletedUnit)
    {answer : Except Status ν} (answers : follow g v ((runs path).map wstrToLower) = some answer) (clusterBuffer fuel : Nat)
    (nullName : WString) (info : EntryInfo) :
    ∃ s' current, Moved port clusterBuffer ebr.clusterBytes s s' ∧
      ((FSDriver.mount id ebr).GetEntryInfo ((disk.drive ebr id port).find behind clusterBuffer (fuel+1) nullName) blank info s path).result =
        some (statusOf answer,current,s') ∧ ∀ w, answer = .ok w → current = entry w := by
  have some_chars := tidy.some_chars
  have proper' : 0 ∉ wstrToLower (trim path) := by
    intro member
    obtain ⟨c,there,zero⟩ := List.mem_map.mp member
    exact lower_ne_zero (fun isZero => trim_proper proper (isZero ▸ there)) zero
  obtain ⟨s',current,moved,walked,ends⟩ := walk_follows stores ready room unmarked answers clusterBuffer fuel nullName
  rw [root,← runs_trim,← runs_lower] at walked
  obtain ⟨info',resolved,same⟩ := (tidy.lower.plain.resolve proper' info).2 _ _ _ walked
  refine ⟨s',info',moved,?_,?_⟩
  · rw [getEntryInfo_trim _ _ _ proper,if_neg some_chars]
    exact resolved
  · intro w ok
    rw [same (by rw [ok]; rfl),ends w ok]

/-! ### Files -/

theorem contents_length (disk : Disk) (ebr : EBR) (clusters : List Nat) :
    (disk.contents ebr clusters).length = clusters.length * ebr.clusterBytes := by
  simp [Disk.contents,List.length_flatMap]

theorem StoredFile.size (file : StoredFile disk ebr id info bytes) : bytes.length = info.FileSize := by
  obtain ⟨clusters,isFile,_,rfl⟩ := file.stored
  rw [List.length_take,contents_length]
  exact Nat.min_eq_left isFile.room

/-- A file is read from its entry, and none of its bytes cannot be. -/
theorem readFileInfo_stored {Drives : List Drive} {ports : Nat → ATAPort} (volume : WellFormed disk ebr)
    (file : StoredFile disk ebr id info bytes) (first : Drives.find? (fun drive => drive.driver.mDriveID = id) = some (disk.drive ebr id port))
    (ready : Buffered (ports port) 8 false) (m : Mem) (out numBytes : Nat)
    (short : ((bytes.take numBytes).length / SECTOR_SIZE + 1) % 8 ≠ 0) :
    ∃ p', ReadFileInfo Drives (n,ports,m) info out numBytes =
      some (if bytes.take numBytes = [] then .ReadError else .Ok,
        (n,update ports port p',fill m out (bytes.take numBytes).length (fun i => (bytes.take numBytes).getD i 0))) := by
  have size := file.size
  have taken : (bytes.take numBytes).length = min numBytes info.FileSize := by rw [List.length_take,size]
  have picked : ∀ read : Option (Bool × ATAPort × Mem), (FSDriver.mount id ebr).ReadFile disk.device (ports port) m info out numBytes = read →
      ReadFileInfo Drives (n,ports,m) info out numBytes = read.map (fun (done,p,m) => (if done then .Ok else .ReadError,(n,update ports port p,m))) := by
    rintro read rfl
    rw [ReadFileInfo,file.here.1,first]
    rfl
  by_cases none : bytes.take numBytes = []
  · have zero : min numBytes info.FileSize = 0 := by rw [← taken,none]; rfl
    have asked : (if numBytes > info.FileSize then info.FileSize else numBytes) = 0 := by split <;> omega
    have failed : (FSDriver.mount id ebr).ReadFile disk.device (ports port) m info out numBytes = some (false,ports port,m) := by
      simp [FSDriver.ReadFile,asked,FSDriver.twice,ATAPort.ReadBytes]
    refine ⟨ports port,?_⟩
    rw [picked _ failed,if_pos none,none,List.length_nil,fill_zero]
    rfl
  · have some_bytes : min numBytes info.FileSize ≠ 0 := by
      rw [← taken]
      exact fun zero => none (List.eq_nil_of_length_eq_zero zero)
    obtain ⟨clusters,isFile,consecutive,isBytes⟩ := file.stored
    have fewer : min numBytes info.FileSize / SECTOR_SIZE ≤ info.FileSize / SECTOR_SIZE := Nat.div_le_div_right (Nat.min_le_right _ _)
    have low := file.low
    have there := file.there
    have readable : Readable disk ebr m (ebr.firstSector info.firstCluster) clusters out (min numBytes info.FileSize) :=
      readable_of_consecutive volume isFile consecutive some_bytes (Nat.min_le_right _ _) (by omega) (by omega) (by rwa [← taken])
    have reads : ReadsFile disk ebr id (ports port) m info clusters out numBytes := readable.readsFile volume isFile ready
    obtain ⟨p',read⟩ := reads
    refine ⟨p',?_⟩
    rw [picked _ read,if_neg none,taken]
    refine congrArg (fun m => some (Status.Ok,(n,update ports port p',m))) (fill_congr ?_)
    intro i inside
    rw [isBytes,List.take_take,List.getD_eq_getElem?_getD,List.getD_eq_getElem?_getD,List.getElem?_take_of_lt (by omega)]

/-- The entries `A`, a directory at cluster 3, and in it `.`, `..` and `B`, a file of three bytes at cluster 4. -/
def entryA : Raw := shortEntry (0x41 :: List.replicate 10 0x20) 0x10 3

def entryHere : Raw := shortEntry (0x2E :: List.replicate 10 0x20) 0x10 3

def entryParent : Raw := shortEntry (0x2E :: 0x2E :: List.replicate 9 0x20) 0x10 0

def entryFile : Raw := (shortEntry (0x42 :: List.replicate 10 0x20) 0x20 4).set 28 3

/-- The root holds `A`, and the clusters 2, 3 and 4 are the last ones of their chains. -/
def filesDisk : Disk where
  data i :=
    if 16384 + 8 ≤ i ∧ i < 16384 + 20 then 0xFF
    else if 1056 * 512 ≤ i ∧ i < 1056 * 512 + 32 then entryA.getD (i - 1056 * 512) 0
    else if 1057 * 512 ≤ i ∧ i < 1057 * 512 + 96 then (entryHere ++ entryParent ++ entryFile).getD (i - 1057 * 512) 0
    else if 1058 * 512 ≤ i ∧ i < 1058 * 512 + 3 then BitVec.ofNat 8 (i - 1058 * 512 + 0x78)
    else 0
  capacity := 66581

theorem files_wellFormed : WellFormed filesDisk smallEBR :=
  ⟨rfl,⟨0,by decide,rfl⟩,by decide,by decide,by decide,by decide,by decide,by unfold EBR.Cluster; decide⟩

/-- The nodes are the root, `A`, `B`, and what `..` and `.` lead to. -/
def filesGraph : Nat → Node Nat
  | 0 => .directory [[0x61]] (fun _ => 1)
  | 1 | 4 => .directory [[0x2E],[0x2E,0x2E],[0x62]] (fun name => if name = [0x2E] then 4 else if name = [0x62] then 2 else 3)
  | 2 => .file [0x78,0x79,0x7A]
  | _ => .astray

def shortRecord (short : Raw) (isShort : ¬ short.Ends ∧ ¬ short.Piece ∧ ¬ short.Deleted) : Record :=
  .file [] [] short ⟨by decide,by decide,.of_eq rfl,by simp,isShort⟩

def filesEntry : Nat → EntryInfo
  | 0 => (FSDriver.mount 0 smallEBR).rootEntry (fileEntry 0 0)
  | 1 => .FromDirectoryEntry entryA.directoryEntry 0 none
  | 2 => .FromDirectoryEntry entryFile.directoryEntry 0 none
  | 4 => .FromDirectoryEntry entryHere.directoryEntry 0 none
  | _ => .FromDirectoryEntry entryParent.directoryEntry 0 none

theorem files_inside (info : EntryInfo) (here : info.DriveID = 0 ∧ info.EntryAttributes &&& EntryAttribute.Directory ≠ 0)
    (third : info.firstCluster = 3) : StoredDirectory filesDisk smallEBR 0 info [[0x2E],[0x2E,0x2E],[0x62]]
      (filesEntry ∘ fun name => if name = [0x2E] then 4 else if name = [0x62] then 2 else 3) := by
  have chain : Chain filesDisk smallEBR 3 [3] := .last (small_cluster (by decide) (by decide)) (by decide)
  refine ⟨⟨[shortRecord entryHere (by decide),shortRecord entryParent (by decide),shortRecord entryFile (by decide)],blank,
    List.replicate 12 blank,⟨?_,?_,?_,by decide⟩,by decide,?_,?_⟩,by rw [third]; decide⟩
  · rintro _ ⟨⟩
    exact here
  · show Chain filesDisk smallEBR info.firstCluster [info.firstCluster]
    rw [third]
    exact chain
  · show filesDisk.slots smallEBR [info.firstCluster] = slotsOf info.firstCluster _
    rw [third]
    decide +kernel
  · intro r member
    simp only [List.mem_cons,List.not_mem_nil,or_false] at member
    rcases member with rfl | rfl | rfl <;> exact .inl rfl
  · have names : (shortRecord entryHere (by decide)).name = some [0x2E] ∧ (shortRecord entryParent (by decide)).name = some [0x2E,0x2E] ∧
        (shortRecord entryFile (by decide)).name = some [0x62] := by decide
    obtain ⟨here,parent,inside⟩ := names
    intro name r found
    have member := List.mem_of_find?_eq_some found
    have named : r.name = some name := by simpa using List.find?_some found
    simp only [List.mem_cons,List.not_mem_nil,or_false] at member
    rcases member with rfl | rfl | rfl
    · cases here.symm.trans named
      rfl
    · cases parent.symm.trans named
      rfl
    · cases inside.symm.trans named
      rfl

theorem files_stores : Stores filesDisk smallEBR 0 filesGraph filesEntry where
  volume := files_wellFormed
  file := by
    intro v bytes isFile
    have second : v = 2 ∧ bytes = [0x78,0x79,0x7A] := by
      simp only [filesGraph] at isFile
      split at isFile <;> cases isFile
      exact ⟨rfl,rfl⟩
    obtain ⟨rfl,rfl⟩ := second
    refine ⟨by decide,⟨[4],⟨by decide,?_,by decide⟩,by decide,by decide +kernel⟩,by decide,by decide⟩
    intro _
    exact .last (small_cluster (by decide) (by decide)) (by decide)
  directory := by
    intro v names child isDirectory
    simp only [filesGraph] at isDirectory
    split at isDirectory <;> cases isDirectory
    · have chain : Chain filesDisk smallEBR 2 [2] := .last (small_cluster (by decide) (by decide)) (by decide)
      refine ⟨⟨[shortRecord entryA (by decide)],blank,List.replicate 14 blank,⟨?_,chain,?_,by decide⟩,by decide,?_,?_⟩,by decide⟩
      · rintro _ ⟨⟩
        decide
      · show filesDisk.slots smallEBR [2] = slotsOf 2 _
        decide +kernel
      · intro r member
        cases List.mem_singleton.mp member
        exact .inl rfl
      · intro name r found
        cases List.mem_singleton.mp (List.mem_of_find?_eq_some found)
        rfl
    · exact files_inside _ (by decide) (by decide)
    · exact files_inside _ (by decide) (by decide)

theorem files_allocated {c : Nat} (known : c = 2 ∨ c = 3) : Throughout (Allocated (fun _ => [])) [] (filesDisk.slots smallEBR [c]) := by
  have parts : filesDisk.slots smallEBR [c] = slotsOf c ((filesDisk.slots smallEBR [c]).map Prod.snd) ∧
      ∀ raw ∈ (filesDisk.slots smallEBR [c]).map Prod.snd, ¬ raw.Piece := by
    rcases known with rfl | rfl <;> decide +kernel
  rw [parts.1]
  exact allocated_short rfl parts.2

end WaifuOS.FAT32
