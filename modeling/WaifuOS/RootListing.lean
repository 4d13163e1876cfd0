import WaifuOS.Mounts
import WaifuOS.PathClusters

/-!
What `PrintRootDir` prints. It reads the first cluster of the root directory and walks along its
entries. The test of the inner loop compares an address with itself, so that only an end marker
ends the walk, and behind the buffer it goes on with what is there. `printRootDir_iff` says
when every entry of the root directory that is in use is printed once and the walk stays
in the buffer: when the first cluster has an end marker, and the long names in front
of it stay inside their buffers.
-/
namespace WaifuOS.FAT32
open WaifuOS.Words WaifuOS.Bytes WaifuOS.AHCI WaifuOS.cstr WaifuOS.Searches

/-- The loop of `wstrTocstr` from `x` on, with `len` rounds left. -/
def wstrTocstrLoop (wstr : WString) (x : Nat) (wcharBuffer : Mem) : Nat → Mem
  | 0 => wcharBuffer
  | len+1 =>
    let c := BitVec.ofNat 8 (wstr.getD x 0)
    if c = 0 then wcharBuffer else wstrTocstrLoop wstr (x+1) (Function.update wcharBuffer x c) len

/-- `wstrTocstr` fills a static buffer. It is terminated behind `len` characters only, also where the string is shorter. -/
def wstrTocstr (wcharBuffer : Mem) (wstr : WString) (len : Nat) : Mem :=
  Function.update (wstrTocstrLoop wstr 0 wcharBuffer len) len 0

/-- What is printed for an entry. -/
structure Printed where
  entry : Raw
  label : String
  name : List (BitVec 8)

/-- What the walk has gathered, the entries it has printed and the addresses of those it has read. -/
structure Listing where
  nameEntries : List LFNEntry
  wcharBuffer : Mem
  printed : List Printed
  examined : List Nat

namespace Listing

/-- Prints an entry that is in use, with the name that the pieces before it write or with its short name. -/
def print (l : Listing) (raw : Raw) : Option Listing :=
  let entry := raw.directoryEntry
  let folder := decide (entry.EntryAttributes &&& EntryAttribute.Directory ≠ 0)
  if l.nameEntries.length > 0 then do
    let lFileName ← GetEntryNameLFN l.nameEntries
    let len := l.nameEntries.length * 13
    let wcharBuffer := wstrTocstr l.wcharBuffer lFileName len
    let entryName := ((List.range len).map wcharBuffer).takeWhile (· ≠ 0)
    let label := if folder then "Folder Name (LFN): " else "File Name (LFN): "
    some { l with nameEntries := [], wcharBuffer, printed := l.printed ++ [⟨raw,label,entryName⟩] }
  else
    let label := if folder then "Folder Name: " else "File Name: "
    some { l with printed := l.printed ++ [⟨raw,label,GetEntryName entry⟩] }

/-- What an entry does that is no end marker: it is skipped, gathered or printed. -/
def examine (l : Listing) (raw : Raw) : Option Listing :=
  if raw.getD 0 0 = 0xE5 then some l
  else if raw.directoryEntry.EntryAttributes = EntryAttribute.LFN then some { l with nameEntries := l.nameEntries ++ [raw.lfnEntry] }
  else l.print raw

end Listing

namespace FSDriver

/-- The inner loop from the address `entry` on: whether the outer one goes on, and what was gathered. -/
def listCluster (d : FSDriver) (m : Mem) : Nat → Nat → Listing → Option (Bool × Listing)
  | 0, _, _ => none
  | fuel+1, entry, l =>
    if entry < wrap (entry + d.mBootRecord.SectorsPerCluster * SECTOR_SIZE) then
      let raw := Raw.read m entry
      let l := { l with examined := l.examined ++ [entry] }
      if raw.getD 0 0 = 0 then some (false,l)
      else do
        let l ← l.examine raw
        listCluster d m fuel (wrap (entry + 32)) l
    else some (true,l)

/-- The outer loop. The offset of the next cluster is given in bytes. -/
def listRoot (d : FSDriver) (device : Device) (clusterBuffer : Nat) : Nat → ATAPort → Mem → Nat → Listing → Option Listing
  | 0, _, _, _, _ => none
  | fuel+1, p, m, rootSectorOffset, l => do
    let (read,p,m) ← p.Read device m rootSectorOffset d.mBootRecord.SectorsPerCluster clusterBuffer
    if !read then some l
    else
      let (keepGoing,l) ← d.listCluster m fuel clusterBuffer l
      if keepGoing then listRoot d device clusterBuffer fuel p m ((rootSectorOffset + d.mBootRecord.SectorsPerCluster * 512) % 2^32) l
      else some l

end FSDriver

/-- `PrintRootDir`; `wcharBuffer` is what the static buffer holds. -/
def Geometry.PrintRootDir (d : Geometry) (device : Device) (clusterBuffer fuel : Nat) (p : ATAPort) (m wcharBuffer : Mem) : Option Listing :=
  d.listRoot device clusterBuffer fuel p m d.mFirstRootDirSector ⟨[],wcharBuffer,[],[]⟩

/-- An entry that is in use and has a name of its own. -/
def Raw.InUse (raw : Raw) : Prop := ¬ raw.Deleted ∧ ¬ raw.Piece

instance (raw : Raw) : Decidable raw.InUse := inferInstanceAs (Decidable (_ ∧ _))

/-- The entries in front of the end marker. -/
def front (raws : List Raw) : List Raw := raws.takeWhile (fun raw => ¬ raw.Ends)

/-- The entries of the directory that are in use. -/
def inUse (raws : List Raw) : List Raw := (front raws).filter (fun raw => raw.InUse)

/-- `PrintRootDir` ends, reads entries only inside the buffer and prints each entry of the root directory that is in use
    once, in the order on the disk. -/
def PrintsRoot (disk : Disk) (ebr : EBR) (d : Geometry) (clusterBuffer : Nat) (p : ATAPort) (m wcharBuffer : Mem) (clusters : List Nat) : Prop :=
  ∃ fuel l, d.PrintRootDir disk.device clusterBuffer fuel p m wcharBuffer = some l ∧
    (∀ entry ∈ l.examined, clusterBuffer ≤ entry ∧ entry + 32 ≤ clusterBuffer + ebr.clusterBytes) ∧
    l.printed.map Printed.entry = inUse ((disk.slots ebr clusters).map Prod.snd)

/-- The pieces of long names that stand before an entry: those of deleted entries stay. -/
def gathered (raws : List Raw) : List LFNEntry :=
  raws.foldl (fun nameEntries raw => if raw.Deleted then nameEntries else if raw.Piece then nameEntries ++ [raw.lfnEntry] else []) []

/-- The pieces before an entry that is printed stay inside their buffer. -/
def Writable (prior : List Raw) (raw : Raw) : Prop := raw.InUse → Placed (gathered prior)

/-- The entries of a cluster, as they are read. -/
def Disk.readRaws (disk : Disk) (ebr : EBR) (c : Nat) : List Raw := (disk.readSlots ebr c).map Prod.snd

/-- As it is read, a cluster has an end marker, in front of it the long names of the entries in use stay inside their buffers, and
    these entries are read as the directory has them stored. -/
structure Listed (disk : Disk) (ebr : EBR) (c : Nat) (clusters : List Nat) : Prop where
  marked : ∃ raw ∈ disk.readRaws ebr c, raw.Ends
  writable : Throughout Writable [] (front (disk.readRaws ebr c))
  same : inUse (disk.readRaws ebr c) = inUse ((disk.slots ebr clusters).map Prod.snd)

variable {disk : Disk} {ebr : EBR} {d : FSDriver} {id clusterBuffer fuel a c : Nat} {p : ATAPort} {m wcharBuffer : Mem} {l l' : Listing}
  {raw : Raw} {raws prior : List Raw} {clusters : List Nat} {device : Device}

theorem ends_iff : raw.Ends ↔ raw.getD 0 0 = 0 := by
  have first : raw.directoryEntry.ShortName.headD 0 = raw.getD 0 0 := rfl
  rw [Raw.Ends,first,ENTRY_END,← BitVec.toInt_zero,BitVec.toInt_inj]
  exact Iff.rfl

theorem gathered_append : gathered (prior ++ [raw]) =
    if raw.Deleted then gathered prior else if raw.Piece then gathered prior ++ [raw.lfnEntry] else [] := by simp [gathered]

/-- An entry in use is printed if the pieces before it stay inside their buffer, and takes them. -/
theorem print_spec (state : l.nameEntries = gathered prior) (placed : Placed (gathered prior)) (raw : Raw) :
    ∃ l', l.print raw = some l' ∧ l'.nameEntries = [] ∧ l'.examined = l.examined ∧
      l'.printed.map Printed.entry = l.printed.map Printed.entry ++ [raw] := by
  rw [Listing.print]
  by_cases long : l.nameEntries.length > 0
  · obtain ⟨lFileName,written⟩ := Option.isSome_iff_exists.mp (getEntryNameLFN_isSome.mpr placed)
    rw [← state] at written
    simp only [if_pos long,written]
    exact ⟨_,rfl,rfl,rfl,by simp⟩
  · simp only [if_neg long]
    have none : l.nameEntries = [] := List.eq_nil_of_length_eq_zero (by omega)
    exact ⟨_,rfl,none,rfl,by simp⟩

/-- What an entry does whose name can be written. -/
theorem examine_spec (state : l.nameEntries = gathered prior) (writable : Writable prior raw) :
    ∃ l', l.examine raw = some l' ∧ l'.nameEntries = gathered (prior ++ [raw]) ∧ l'.examined = l.examined ∧
      l'.printed.map Printed.entry = l.printed.map Printed.entry ++ [raw].filter (fun raw => raw.InUse) := by
  rw [Listing.examine,gathered_append]
  by_cases deleted : raw.Deleted
  · have unused : ¬ raw.InUse := fun used => used.1 deleted
    have first : raw.getD 0 0 = 0xE5 := deleted
    rw [if_pos first,if_pos deleted]
    exact ⟨l,rfl,state,rfl,by simp [unused]⟩
  have first : ¬ raw.getD 0 0 = 0xE5 := deleted
  rw [if_neg first,if_neg deleted]
  by_cases piece : raw.Piece
  · have unused : ¬ raw.InUse := fun used => used.2 piece
    have attributes : raw.directoryEntry.EntryAttributes = EntryAttribute.LFN := piece
    rw [if_pos attributes,if_pos piece]
    exact ⟨_,rfl,by rw [← state],rfl,by simp [unused]⟩
  · have used : raw.InUse := ⟨deleted,piece⟩
    have attributes : ¬ raw.directoryEntry.EntryAttributes = EntryAttribute.LFN := piece
    rw [if_neg attributes,if_neg piece]
    obtain ⟨l',printed,taken,examined,lines⟩ := print_spec state (writable used) raw
    exact ⟨l',printed,taken,examined,by simp [used,lines]⟩

/-- Where an entry is examined, its name could be written. -/
theorem examine_writable (state : l.nameEntries = gathered prior) (examined : l.examine raw = some l') : Writable prior raw := by
  rintro ⟨deleted,piece⟩
  have first : ¬ raw.getD 0 0 = 0xE5 := deleted
  have attributes : ¬ raw.directoryEntry.EntryAttributes = EntryAttribute.LFN := piece
  rw [Listing.examine,if_neg first,if_neg attributes,Listing.print] at examined
  rw [← state]
  by_cases long : l.nameEntries.length > 0
  · simp only [if_pos long] at examined
    obtain ⟨lFileName,written,_⟩ := Option.bind_eq_some_iff.mp examined
    exact getEntryNameLFN_isSome.mp (by rw [written]; rfl)
  · intro entry member
    have some_piece := List.length_pos_of_mem member
    omega

/-- What the entries do one after another that stand at an address. -/
def Listing.advance (l : Listing) (a : Nat) : List Raw → Option Listing
  | [] => some l
  | raw :: raws => (Listing.examine { l with examined := l.examined ++ [a] } raw).bind (fun l => l.advance (a+32) raws)

/-- The entries stand in memory one after another. -/
def Stands (m : Mem) : Nat → List Raw → Prop
  | _, [] => True
  | a, raw :: raws => Raw.read m a = raw ∧ Stands m (a+32) raws

theorem advance_spec (state : l.nameEntries = gathered prior) (a : Nat) (writable : Throughout Writable prior raws) :
    ∃ l', l.advance a raws = some l' ∧ l'.examined = l.examined ++ (List.range raws.length).map (fun i => a + 32*i) ∧
      l'.printed.map Printed.entry = l.printed.map Printed.entry ++ raws.filter (fun raw => raw.InUse) := by
  induction raws generalizing l prior a with
  | nil => exact ⟨l,rfl,by simp,by simp⟩
  | cons raw raws ih =>
    obtain ⟨first,later⟩ := throughout_cons.mp writable
    obtain ⟨l₁,examined,state₁,seen₁,lines₁⟩ := @examine_spec { l with examined := l.examined ++ [a] } _ _ state first
    obtain ⟨l',advanced,seen,lines⟩ := ih state₁ (a+32) later
    refine ⟨l',?_,?_,?_⟩
    · rw [Listing.advance,examined]
      exact advanced
    · have addresses : (fun i => a + 32 * (i+1)) = fun i => a + 32 + 32*i := by
        funext i
        omega
      rw [seen,seen₁,List.length_cons,List.range_succ_eq_map,List.map_cons,List.map_map,List.append_assoc]
      simp [Function.comp_def,addresses]
    · rw [lines,lines₁,List.append_assoc,← List.filter_append,List.singleton_append]

theorem advance_writable (state : l.nameEntries = gathered prior) (advanced : l.advance a raws = some l') : Throughout Writable prior raws := by
  induction raws generalizing l prior a with
  | nil => exact throughout_nil
  | cons raw raws ih =>
    obtain ⟨l₁,examined,rest⟩ := Option.bind_eq_some_iff.mp advanced
    have first : Writable prior raw := @examine_writable { l with examined := l.examined ++ [a] } _ _ _ state examined
    obtain ⟨l₂,same,state₂,_⟩ := @examine_spec { l with examined := l.examined ++ [a] } _ _ state first
    rw [examined] at same
    cases same
    exact throughout_cons.mpr ⟨first,ih state₂ rest⟩

/-- The test of the inner loop holds of every address that is not at the end of memory. -/
theorem inside_loop (pos : 0 < d.mBootRecord.SectorsPerCluster) (size : d.mBootRecord.SectorsPerCluster ≤ 128) (low : a + 2^16 < 2^64) :
    a < wrap (a + d.mBootRecord.SectorsPerCluster * SECTOR_SIZE) := by
  simp only [SECTOR_SIZE]
  rw [wrap_of_lt (by omega)]
  omega

/-- Entries that do not end the directory are passed. -/
theorem listCluster_front (pos : 0 < d.mBootRecord.SectorsPerCluster) (size : d.mBootRecord.SectorsPerCluster ≤ 128)
    (low : a + 32 * raws.length + 2^16 < 2^64) (stands : Stands m a raws) (go : ∀ raw ∈ raws, ¬ raw.Ends) (l : Listing) (fuel : Nat) :
    d.listCluster m (raws.length + fuel) a l = (l.advance a raws).bind (fun l => d.listCluster m fuel (a + 32 * raws.length) l) := by
  induction raws generalizing a l with
  | nil => simp [Listing.advance]
  | cons raw raws ih =>
    obtain ⟨first,later⟩ := stands
    rw [List.length_cons] at low
    have goes : ¬ raw.getD 0 0 = 0 := by
      rw [← ends_iff]
      exact go raw (by simp)
    rw [List.length_cons,Nat.succ_add,FSDriver.listCluster,if_pos (inside_loop pos size (by omega)),Listing.advance,Option.bind_assoc]
    simp only [first,if_neg goes,Option.bind_eq_bind,wrap_of_lt (show a + 32 < 2^64 by omega)]
    congr 1
    funext l₁
    rw [ih (by omega) later (fun raw member => go raw (List.mem_cons_of_mem _ member)),Nat.mul_succ,Nat.add_assoc a,Nat.add_comm 32]

/-- An end marker ends both loops. -/
theorem listCluster_marker (pos : 0 < d.mBootRecord.SectorsPerCluster) (size : d.mBootRecord.SectorsPerCluster ≤ 128) (low : a + 2^16 < 2^64)
    (ends : (Raw.read m a).Ends) (l : Listing) (fuel : Nat) :
    d.listCluster m (fuel+1) a l = some (false,{ l with examined := l.examined ++ [a] }) := by
  rw [FSDriver.listCluster,if_pos (inside_loop pos size low)]
  exact if_pos (ends_iff.mp ends)

/-- More fuel changes no result of the inner loop. -/
theorem listCluster_mono {result : Bool × Listing} (k : Nat) (returned : d.listCluster m fuel a l = some result) :
    d.listCluster m (fuel+k) a l = some result := by
  induction fuel generalizing a l with
  | zero => cases returned
  | succ fuel ih =>
    rw [FSDriver.listCluster] at returned
    rw [Nat.succ_add,FSDriver.listCluster]
    split
    · rw [if_pos ‹_›] at returned
      dsimp only at returned ⊢
      split
      · rwa [if_pos ‹_›] at returned
      · rw [if_neg ‹_›] at returned
        obtain ⟨l₁,examined,rest⟩ := Option.bind_eq_some_iff.mp returned
        exact Option.bind_eq_some_iff.mpr ⟨l₁,examined,ih rest⟩
    · rwa [if_neg ‹_›] at returned

theorem listRoot_mono {rootSectorOffset : Nat} (k : Nat) (returned : d.listRoot device clusterBuffer fuel p m rootSectorOffset l = some l') :
    d.listRoot device clusterBuffer (fuel+k) p m rootSectorOffset l = some l' := by
  induction fuel generalizing p m rootSectorOffset l with
  | zero => cases returned
  | succ fuel ih =>
    rw [FSDriver.listRoot] at returned
    rw [Nat.succ_add,FSDriver.listRoot]
    obtain ⟨⟨read,p₁,m₁⟩,done,follows⟩ := Option.bind_eq_some_iff.mp returned
    refine Option.bind_eq_some_iff.mpr ⟨_,done,?_⟩
    dsimp only at follows ⊢
    split
    · rwa [if_pos ‹_›] at follows
    · rw [if_neg ‹_›] at follows
      obtain ⟨⟨keepGoing,l₁⟩,walked,rest⟩ := Option.bind_eq_some_iff.mp follows
      refine Option.bind_eq_some_iff.mpr ⟨_,listCluster_mono k walked,?_⟩
      dsimp only at rest ⊢
      split
      · rw [if_pos ‹_›] at rest
        exact ih rest
      · rwa [if_neg ‹_›] at rest

/-- Examining an entry reads no other one. -/
theorem examine_examined (examined : l.examine raw = some l') : l'.examined = l.examined := by
  unfold Listing.examine Listing.print at examined
  split at examined
  · cases examined
    rfl
  split at examined
  · cases examined
    rfl
  dsimp only at examined
  split at examined
  · obtain ⟨lFileName,_,same⟩ := Option.bind_eq_some_iff.mp examined
    cases same
    rfl
  · cases examined
    rfl

/-- The entries that were read stay read. -/
theorem listCluster_examined {result : Bool × Listing} (returned : d.listCluster m fuel a l = some result) : l.examined <+: result.2.examined := by
  induction fuel generalizing a l with
  | zero => cases returned
  | succ fuel ih =>
    rw [FSDriver.listCluster] at returned
    split at returned
    · dsimp only at returned
      split at returned
      · cases returned
        exact List.prefix_append _ _
      · obtain ⟨l₁,examined,rest⟩ := Option.bind_eq_some_iff.mp returned
        have more := ih rest
        rw [examine_examined examined] at more
        exact (List.prefix_append _ _).trans more
    · cases returned
      exact List.prefix_refl _

theorem listRoot_examined {rootSectorOffset : Nat} (returned : d.listRoot device clusterBuffer fuel p m rootSectorOffset l = some l') :
    l.examined <+: l'.examined := by
  induction fuel generalizing p m rootSectorOffset l with
  | zero => cases returned
  | succ fuel ih =>
    rw [FSDriver.listRoot] at returned
    obtain ⟨⟨read,p₁,m₁⟩,done,follows⟩ := Option.bind_eq_some_iff.mp returned
    dsimp only at follows
    split at follows
    · cases follows
      exact List.prefix_refl _
    · obtain ⟨⟨keepGoing,l₁⟩,walked,rest⟩ := Option.bind_eq_some_iff.mp follows
      have first := listCluster_examined walked
      dsimp only at rest
      split at rest
      · exact first.trans (ih rest)
      · cases rest
        exact first

/-- The inner loop reads the entry at an address, and what it reads later it adds to it. -/
theorem listCluster_reads {result : Bool × Listing} (pos : 0 < d.mBootRecord.SectorsPerCluster) (size : d.mBootRecord.SectorsPerCluster ≤ 128)
    (low : a + 2^16 < 2^64) (returned : d.listCluster m fuel a l = some result) : a ∈ result.2.examined := by
  cases fuel with
  | zero => cases returned
  | succ fuel =>
    rw [FSDriver.listCluster,if_pos (inside_loop pos size low)] at returned
    dsimp only at returned
    split at returned
    · cases returned
      simp
    · obtain ⟨l₁,examined,rest⟩ := Option.bind_eq_some_iff.mp returned
      have more := listCluster_examined rest
      rw [examine_examined examined] at more
      exact more.subset (by simp)

/-! ### The first cluster -/

theorem stands_range (m : Mem) (a n : Nat) : Stands m a ((List.range n).map (fun x => Raw.read m (a + 32*x))) := by
  induction n generalizing a with
  | zero => trivial
  | succ n ih =>
    have later := ih (a+32)
    rw [List.range_succ_eq_map,List.map_cons,List.map_map]
    refine ⟨rfl,?_⟩
    have addresses : (fun x => Raw.read m (a + 32*x)) ∘ Nat.succ = fun x => Raw.read m (a + 32 + 32*x) := by
      funext x
      simp only [Function.comp_apply]
      congr 1
      omega
    rwa [addresses]

/-- The entries that are read stand in the buffer. -/
theorem stands_read (disk : Disk) (ebr : EBR) (c clusterBuffer : Nat) (m : Mem) :
    Stands (fill m clusterBuffer ebr.clusterBytes (disk.readByte (ebr.firstSector c))) clusterBuffer (disk.readRaws ebr c) := by
  rw [Disk.readRaws,← read_slots disk ebr c clusterBuffer m,List.map_map]
  exact stands_range _ _ _

theorem Stands.append {more : List Raw} (stands : Stands m a (raws ++ more)) : Stands m a raws ∧ Stands m (a + 32 * raws.length) more := by
  induction raws generalizing a with
  | nil => exact ⟨trivial,stands⟩
  | cons raw raws ih =>
    obtain ⟨first,later⟩ := stands
    obtain ⟨front,behind⟩ := ih later
    refine ⟨⟨first,front⟩,?_⟩
    rw [List.length_cons,Nat.mul_succ,Nat.add_comm _ 32,← Nat.add_assoc]
    exact behind

/-- `PrintRootDir` walks along the first cluster of the root directory, and goes on with what is left of the fuel. -/
theorem printRootDir_first (wf : WellFormed disk ebr) {d : Geometry} (built : calculate id ebr = some (.ok d))
    (cluster : ebr.Cluster ebr.RootClusterStart) (ready : Buffered p 8 false) (m : Mem) (clusterBuffer : Nat) : ∃ p' m',
      Stands m' clusterBuffer (disk.readRaws ebr ebr.RootClusterStart) ∧ ∀ fuel wcharBuffer,
        d.PrintRootDir disk.device clusterBuffer (fuel+1) p m wcharBuffer =
          (d.listCluster m' fuel clusterBuffer ⟨[],wcharBuffer,[],[]⟩).bind (fun walked =>
            if walked.1 then d.listRoot disk.device clusterBuffer fuel p' m'
              ((ebr.firstSector ebr.RootClusterStart + ebr.SectorsPerCluster * 512) % 2^32) walked.2
            else some walked.2) := by
  have driver := (calculate_ok built).1
  have record : d.mBootRecord = ebr := congrArg FSDriver.mBootRecord driver
  have root : d.mFirstRootDirSector = ebr.firstSector ebr.RootClusterStart := (calculate_root built).trans (firstSector_eq wf cluster id)
  have inside := wf.cluster_inside cluster
  have word := wf.word
  have some_sectors : ebr.SectorsPerCluster ≠ 0 := Nat.ne_of_gt wf.clusterSize_pos
  obtain ⟨done,p',m',returned,_,completes,memory⟩ := read_spec disk.steady ready (by decide) (by decide) some_sectors
    (show ebr.firstSector ebr.RootClusterStart + ebr.SectorsPerCluster < 2^64 by omega) m clusterBuffer
  have succeeded := completes.mpr (wf.cluster_works cluster)
  refine ⟨p',m',?_,?_⟩
  · rw [memory succeeded]
    exact stands_read disk ebr _ clusterBuffer m
  · intro fuel wcharBuffer
    rw [Geometry.PrintRootDir,FSDriver.listRoot,root,record,returned,succeeded]
    rfl

/-- Either no entry is an end marker, or one stands behind those in front of it. -/
theorem front_cases (raws : List Raw) : (∀ raw ∈ raws, ¬ raw.Ends) ∨ ∃ marker rest, marker.Ends ∧ raws = front raws ++ marker :: rest := by
  simp only [front]
  induction raws with
  | nil => exact .inl (by simp)
  | cons raw raws ih =>
    by_cases ends : raw.Ends
    · exact .inr ⟨raw,raws,ends,by simp [ends]⟩
    · rcases ih with go | ⟨marker,rest,stop,whole⟩
      · exact .inl (List.forall_mem_cons.mpr ⟨ends,go⟩)
      · refine .inr ⟨marker,rest,stop,?_⟩
        rw [List.takeWhile_cons,if_pos (by simpa using ends),List.cons_append,← whole]

theorem front_goes (raws : List Raw) : ∀ raw ∈ front raws, ¬ raw.Ends := by
  intro raw member
  have goes := List.mem_takeWhile_imp member
  simpa using goes

theorem readRaws_length : (disk.readRaws ebr c).length = ebr.clusterBytes / 32 := by rw [Disk.readRaws,List.length_map,readSlots_length]

theorem WellFormed.clusterSize_le (wf : WellFormed disk ebr) : ebr.SectorsPerCluster ≤ 128 := by
  obtain ⟨k,small,size⟩ := wf.clusterSize
  rw [size]
  exact Nat.pow_le_pow_right (by decide) small

/-- The driver has as many sectors in a cluster as the volume. -/
theorem built_clusterSize (wf : WellFormed disk ebr) {d : Geometry} (built : calculate id ebr = some (.ok d)) :
    0 < d.mBootRecord.SectorsPerCluster ∧ d.mBootRecord.SectorsPerCluster ≤ 128 := by
  have record : d.mBootRecord = ebr := congrArg FSDriver.mBootRecord (calculate_ok built).1
  rw [record]
  exact ⟨wf.clusterSize_pos,wf.clusterSize_le⟩

section
variable (wf : WellFormed disk ebr) {d : Geometry} (built : calculate id ebr = some (.ok d)) (cluster : ebr.Cluster ebr.RootClusterStart)
  (ready : Buffered p 8 false) (low : clusterBuffer < 2^63)
include wf built cluster ready low

/-- Where the first cluster has an end marker, the walk stops there. -/
theorem printRootDir_marked {marker : Raw} {rest : List Raw} (stop : marker.Ends)
    (whole : disk.readRaws ebr ebr.RootClusterStart = front (disk.readRaws ebr ebr.RootClusterStart) ++ marker :: rest) (fuel : Nat)
    (m wcharBuffer : Mem) : d.PrintRootDir disk.device clusterBuffer ((front (disk.readRaws ebr ebr.RootClusterStart)).length + (fuel+1) + 1) p m wcharBuffer =
      (Listing.advance ⟨[],wcharBuffer,[],[]⟩ clusterBuffer (front (disk.readRaws ebr ebr.RootClusterStart))).map (fun l =>
        { l with examined := l.examined ++ [clusterBuffer + 32 * (front (disk.readRaws ebr ebr.RootClusterStart)).length] }) := by
  obtain ⟨p',m',stands,run⟩ := printRootDir_first wf built cluster ready m clusterBuffer
  obtain ⟨pos,small⟩ := built_clusterSize wf built
  have go := front_goes (disk.readRaws ebr ebr.RootClusterStart)
  have size := @readRaws_length disk ebr ebr.RootClusterStart
  have bytes : ebr.clusterBytes = ebr.SectorsPerCluster * 512 := rfl
  rw [whole] at stands size
  rw [List.length_append,List.length_cons] at size
  obtain ⟨before,behind⟩ := stands.append
  have ends : (Raw.read m' (clusterBuffer + 32 * (front (disk.readRaws ebr ebr.RootClusterStart)).length)).Ends := by
    rw [behind.1]
    exact stop
  have room : ebr.SectorsPerCluster ≤ 128 := wf.clusterSize_le
  rw [run,listCluster_front pos small (by omega) before go _ (fuel+1)]
  cases Listing.advance ⟨[],wcharBuffer,[],[]⟩ clusterBuffer (front (disk.readRaws ebr ebr.RootClusterStart)) with
  | none => rfl
  | some l =>
    rw [Option.bind_some,listCluster_marker pos small (by omega) ends]
    rfl

/-- Where it has none, the entry behind the buffer is read. -/
theorem printRootDir_unmarked {l : Listing} (none : ∀ raw ∈ disk.readRaws ebr ebr.RootClusterStart, ¬ raw.Ends)
    (returned : d.PrintRootDir disk.device clusterBuffer fuel p m wcharBuffer = some l) :
    clusterBuffer + 32 * (ebr.clusterBytes / 32) ∈ l.examined := by
  obtain ⟨p',m',stands,run⟩ := printRootDir_first wf built cluster ready m clusterBuffer
  obtain ⟨pos,small⟩ := built_clusterSize wf built
  have size := @readRaws_length disk ebr ebr.RootClusterStart
  have bytes : ebr.clusterBytes = ebr.SectorsPerCluster * 512 := rfl
  have room : ebr.SectorsPerCluster ≤ 128 := wf.clusterSize_le
  have enough : d.PrintRootDir disk.device clusterBuffer ((disk.readRaws ebr ebr.RootClusterStart).length + fuel + 1) p m wcharBuffer = some l := by
    rw [Nat.add_comm _ fuel,Nat.add_assoc]
    exact listRoot_mono _ returned
  rw [run,listCluster_front pos small (by omega) stands none] at enough
  obtain ⟨⟨keepGoing,l₁⟩,walked,follows⟩ := Option.bind_eq_some_iff.mp enough
  obtain ⟨l₂,_,behind⟩ := Option.bind_eq_some_iff.mp walked
  have reads := listCluster_reads pos small (by omega) behind
  rw [size] at reads
  dsimp only at follows
  split at follows
  · exact (listRoot_examined follows).subset reads
  · cases follows
    exact reads

/-- `PrintRootDir` prints the root directory if and only if the directory is listed by its first cluster. -/
theorem printsRoot_iff : PrintsRoot disk ebr d clusterBuffer p m wcharBuffer clusters ↔ Listed disk ebr ebr.RootClusterStart clusters := by
  have size := @readRaws_length disk ebr ebr.RootClusterStart
  have start : (Listing.mk [] wcharBuffer [] []).nameEntries = gathered [] := rfl
  constructor
  · rintro ⟨fuel,l,returned,inside,printed⟩
    rcases front_cases (disk.readRaws ebr ebr.RootClusterStart) with none | ⟨marker,rest,stop,whole⟩
    · have outside := inside _ (printRootDir_unmarked wf built cluster ready low none returned)
      omega
    · have longer := listRoot_mono ((front (disk.readRaws ebr ebr.RootClusterStart)).length + 2) returned
      rw [show fuel + ((front (disk.readRaws ebr ebr.RootClusterStart)).length + 2) =
        (front (disk.readRaws ebr ebr.RootClusterStart)).length + (fuel+1) + 1 by omega] at longer
      have marked := (printRootDir_marked wf built cluster ready low stop whole fuel m wcharBuffer).symm.trans longer
      obtain ⟨l₁,advanced,rfl⟩ := Option.map_eq_some_iff.mp marked
      have writable := advance_writable start advanced
      obtain ⟨l₂,same,_,lines⟩ := advance_spec start clusterBuffer writable
      cases advanced.symm.trans same
      refine ⟨⟨marker,by rw [whole]; simp,stop⟩,writable,?_⟩
      rw [← printed,lines]
      rfl
  · rintro ⟨⟨raw,member,ends⟩,writable,same⟩
    rcases front_cases (disk.readRaws ebr ebr.RootClusterStart) with none | ⟨marker,rest,stop,whole⟩
    · exact absurd ends (none raw member)
    · obtain ⟨l,advanced,seen,lines⟩ := advance_spec start clusterBuffer writable
      have returned := printRootDir_marked wf built cluster ready low stop whole 0 m wcharBuffer
      rw [advanced,Option.map_some] at returned
      refine ⟨_,_,returned,?_,?_⟩
      · intro entry inside
        have total := size
        rw [whole,List.length_append,List.length_cons] at total
        simp only [seen,List.nil_append,List.mem_append,List.mem_map,List.mem_range,List.mem_singleton] at inside
        rcases inside with ⟨i,before,rfl⟩ | rfl <;> omega
      · rw [← same,lines]
        rfl
end

/-- In front of an end marker in the first cluster stand the entries of the whole directory. -/
theorem front_append {more : List Raw} (marked : ∃ raw ∈ raws, raw.Ends) : front (raws ++ more) = front raws := by
  rcases front_cases raws with none | ⟨marker,rest,stop,whole⟩
  · obtain ⟨raw,member,ends⟩ := marked
    exact absurd ends (none raw member)
  · have goes := front_goes raws
    generalize front raws = before at whole goes
    have stays : ∀ raw ∈ before, decide (¬ raw.Ends) = true := fun raw member => decide_eq_true (goes raw member)
    rw [whole,List.append_assoc,front,List.takeWhile_append_of_pos stays]
    simp [stop]

/-- Where the first cluster is among the first 2^24 sectors, an end marker in it and long names inside their buffers are enough. -/
theorem listed_of_low (later : List Nat) (low : ebr.firstSector c + ebr.SectorsPerCluster ≤ 2^24) (marked : ∃ raw ∈ disk.readRaws ebr c, raw.Ends)
    (writable : Throughout Writable [] (front (disk.readRaws ebr c))) : Listed disk ebr c (c :: later) := by
  refine ⟨marked,writable,?_⟩
  rw [inUse,inUse,slots_cons,List.map_append,← readSlots_low low]
  exact (congrArg _ (front_append marked)).symm

/-- `PrintRootDir` ends, stays inside the buffer and prints each entry of the root directory in use once if and only if
    the first cluster has an end marker, with the entries of the directory in front of it. -/
theorem printRootDir_iff (wf : WellFormed disk ebr) {d : Geometry} (built : calculate id ebr = some (.ok d))
    (dir : IsDirectory disk ebr id none clusters) (ready : Buffered p 8 false) (low : clusterBuffer < 2^63) :
    PrintsRoot disk ebr d clusterBuffer p m wcharBuffer clusters ↔ Listed disk ebr ebr.RootClusterStart clusters :=
  printsRoot_iff wf built dir.chain.cluster ready low

/-! ### A full cluster -/

/-- The driver of the small volume. -/
def smallGeometry : Geometry :=
  { FSDriver.mount 0 smallEBR with
    mTotalSectors := 66581
    mFatSizeSectors := 512
    mFirstFatSector := 32
    mFirstRootDirSector := 1056
    mTotalDataSectors := 65525
    mTotalClusters := 65525 }

theorem smallGeometry_built : calculate 0 smallEBR = some (.ok smallGeometry) := by
  simp [calculate,smallGeometry,smallEBR,FSDriver.mount]
  rfl

/-- The root directory has one cluster, with an entry `A` and an end marker. -/
def listDisk : Disk where
  data i :=
    if 16384 + 8 ≤ i ∧ i < 16384 + 12 then 0xFF
    else if i = 1056 * 512 then 0x41
    else if 1056 * 512 < i ∧ i < 1056 * 512 + 11 then 0x20
    else 0
  capacity := 66581

theorem listDisk_wellFormed : WellFormed listDisk smallEBR :=
  ⟨rfl,⟨0,by decide,rfl⟩,by decide,by decide,by decide,by decide,by decide,by unfold EBR.Cluster; decide⟩

theorem listDisk_directory : IsDirectory listDisk smallEBR 0 none [2] where
  here := fun info none => by cases none
  chain := .last (small_cluster (by decide) (by decide)) (by decide)
  ended := by decide +kernel

theorem printRootDir_iff_one : PrintsRoot listDisk smallEBR smallGeometry 0x130000 idlePort (fun _ => 0) (fun _ => 0) [2] := by
  have ready : Buffered idlePort 8 false := ⟨rfl,rfl⟩
  have marked : ∃ raw ∈ listDisk.readRaws smallEBR 2, raw.Ends := by decide +kernel
  have entries : front (listDisk.readRaws smallEBR 2) = [Raw.read listDisk.data (1056*512)] := by decide +kernel
  have placed : Writable [] (Raw.read listDisk.data (1056*512)) := fun _ entry member => by cases member
  have writable : Throughout Writable [] (front (listDisk.readRaws smallEBR 2)) := by
    rw [entries]
    exact throughout_cons.mpr ⟨placed,throughout_nil⟩
  exact (printRootDir_iff listDisk_wellFormed smallGeometry_built listDisk_directory ready (by decide)).mpr
    (listed_of_low [] (by decide) marked writable)

/-- The first of two clusters is full: the entries behind the buffer are read. -/
theorem printRootDir_beyond : WellFormed rootDisk smallEBR ∧ calculate 0 smallEBR = some (.ok smallGeometry) ∧
    IsDirectory rootDisk smallEBR 0 none [2,3] ∧ Buffered idlePort 8 false ∧
    ¬ PrintsRoot rootDisk smallEBR smallGeometry 0x130000 idlePort (fun _ => 0) (fun _ => 0) [2,3] := by
  have ready : Buffered idlePort 8 false := ⟨rfl,rfl⟩
  refine ⟨root_wellFormed,smallGeometry_built,root_isDirectory,ready,?_⟩
  have full : ¬ ∃ raw ∈ rootDisk.readRaws smallEBR 2, raw.Ends := by decide +kernel
  rw [printsRoot_iff root_wellFormed smallGeometry_built root_isDirectory.chain.cluster ready (by decide)]
  exact fun listed => full listed.marked

end WaifuOS.FAT32
