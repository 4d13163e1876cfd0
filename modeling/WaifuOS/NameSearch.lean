import WaifuOS.Directories
import WaifuOS.HeapCalls
import WaifuOS.LongNames
import WaifuOS.ShortNames

/-!
What `FindEntry` finds in a directory of one cluster. The directory is a list of files, each
with the pieces of its long name directly before its short entry, and of deleted entries
(`Record`). The call should find the first file with the name (`FindsFirst`), but it copies a
long name into a buffer without room for its terminator: only the rounding of the allocation
leaves a 0 behind the copy, and nothing does when the length of the name is a multiple of 8
(`lowerBuffer_ends`). Deleted entries are examined like others. `findEntry_first_iff` says when the
first file is found.
-/
namespace WaifuOS.FAT32
open WaifuOS.Bytes WaifuOS.AHCI WaifuOS.cstr WaifuOS.Searches

/-- The entries of a file: the pieces of its long name, if it has one, directly before the short entry. -/
structure IsFile (long : WString) (pieces : List Raw) (short : Raw) : Prop where
  small : long.length ≤ 255
  proper : 0 ∉ long
  whole : (pieces.map Raw.lfnEntry).Perm (longPieces long)
  isPiece : ∀ raw ∈ pieces, raw.Piece
  isShort : ¬ short.Ends ∧ ¬ short.Piece ∧ ¬ short.Deleted

/-- The entries of a deleted file. -/
structure IsDeleted (pieces : List Raw) (short : Raw) : Prop where
  few : pieces.length ≤ 20
  marked : ∀ raw ∈ pieces, raw.Deleted
  isPiece : ∀ raw ∈ pieces, raw.Piece
  isShort : ¬ short.Piece ∧ short.Deleted

/-- What a directory holds. `long` is empty for a file that has only its 8.3 name. -/
inductive Record
  | file (long : WString) (pieces : List Raw) (short : Raw) (isFile : IsFile long pieces short)
  | deleted (pieces : List Raw) (short : Raw) (isDeleted : IsDeleted pieces short)

namespace Record

def pieces : Record → List Raw
  | file _ pieces _ _ => pieces
  | deleted pieces _ _ => pieces

def short : Record → Raw
  | file _ _ short _ => short
  | deleted _ short _ => short

/-- The entries of a record in their order. -/
def raws (r : Record) : List Raw := r.pieces ++ [r.short]

/-- The name of a file in lower case: its long name, or its 8.3 name. -/
def name : Record → Option WString
  | file long _ short _ => some (if long = [] then cstrTowstr (GetEntryName short.directoryEntry) else wstrToLower long)
  | deleted .. => none

/-- What is stored for a file. -/
def info (id : Nat) : Record → EntryInfo
  | file long _ short _ => .FromDirectoryEntry short.directoryEntry id (if long = [] then none else some long)
  | deleted _ short _ => .FromDirectoryEntry short.directoryEntry id none

end Record

/-- The entries of a directory up to the first file with the name, or up to the end marker. -/
def rawsUpTo (name : WString) (last : Raw) : List Record → List Raw
  | [] => [last]
  | r :: rs => r.raws ++ if r.name = some name then [] else rawsUpTo name last rs

/-- What the search of a directory should come to. -/
def firstOf (id : Nat) (name : WString) (records : List Record) : Examined :=
  match records.find? (fun r => r.name = some name) with
  | some r => .found (r.info id)
  | none => .ended

/-- The entries of one cluster. -/
def slotsOf (c : Nat) (raws : List Raw) : List Slot := raws.map (Prod.mk c)

/-- How many units `new wchar[len]` allocates and clears. -/
def allocatedUnits (len : Nat) : Nat := Kernel.roundSize (2 * len) / 2

/-- `lfnNameLower` when the long name has been copied. -/
def lowerBuffer (lfnName : WString) : List Nat :=
  wstrncpy (List.replicate (allocatedUnits lfnName.length) 0) 0 lfnName lfnName.length

/-- Behind the copy of a long name are the rest of its buffer, and other memory. -/
def Allocated (behind : Nat → List Nat) (prior : List Slot) (_ : Slot) : Prop := ∀ lfnName, GetEntryNameLFN (pieces prior) = some lfnName →
  ∃ beyond, behind prior.length = List.replicate (allocatedUnits lfnName.length - lfnName.length) 0 ++ beyond

/-- The name of an entry that is compared ends inside its buffer. A long name is made inside the buffer for it, too. -/
def ReadsInside (prior : List Slot) (slot : Slot) : Prop := ¬ slot.2.Ends → ¬ slot.2.Piece →
  if pieces prior = [] then 0 ∈ ShortNames.writeAll (List.replicate 13 0) (ShortNames.allWrites slot.2.directoryEntry)
  else ∃ lfnName, GetEntryNameLFN (pieces prior) = some lfnName ∧ 0 ∈ lowerBuffer lfnName

/-- The call handles a record: a long name does not fill its buffer, and a deleted file has no pieces and not the name. -/
def Record.Handled (name : WString) : Record → Prop
  | .file long _ _ _ => long = [] ∨ long.length % 8 ≠ 0
  | .deleted pieces short _ => pieces = [] ∧ cstrTowstr (GetEntryName short.directoryEntry) ≠ name

/-- All records are handled up to the first one with the name. -/
def AllHandled (name : WString) : List Record → Prop
  | [] => True
  | r :: rs => r.Handled name ∧ (r.name = some name ∨ AllHandled name rs)

/-- `root` is a directory of the volume with one cluster, which holds the records and an end marker behind them. -/
structure SingleCluster (disk : Disk) (ebr : EBR) (id : Nat) (root : Option EntryInfo) (records : List Record) (last : Raw) (rest : List Raw) :
    Prop where
  here : ∀ info, root = some info → info.DriveID = id ∧ info.EntryAttributes &&& EntryAttribute.Directory ≠ 0
  chain : Chain disk ebr (ebr.startCluster root) [ebr.startCluster root]
  stored : disk.slots ebr [ebr.startCluster root] = slotsOf (ebr.startCluster root) (records.flatMap Record.raws ++ last :: rest)
  ends : last.Ends

/-- The answer is the first file with the name, if there is one, and every buffer that was read for it ends. -/
structure FoundFirst (id c : Nat) (name : WString) (records : List Record) (last : Raw) (answer : Answer) : Prop where
  examined : answer.examined = slotsOf c (rawsUpTo name last records)
  found : ∀ r, records.find? (fun r => r.name = some name) = some r → answer.status = .Ok ∧ answer.out = r.info id
  missing : (∀ r ∈ records, r.name ≠ some name) → answer.status = .NotFound
  inside : Throughout ReadsInside [] answer.examined

/-- `FindEntry` returns with the first file that has the name, or says that there is none. -/
def FindsFirst (disk : Disk) (ebr : EBR) (id : Nat) (behind : Nat → List Nat) (clusterBuffer : Nat) (p : ATAPort) (m : Mem)
    (name : WString) (out : EntryInfo) (root : Option EntryInfo) (records : List Record) (last : Raw) : Prop :=
  ∃ fuel answer, (FSDriver.mount id ebr).FindEntry disk.device behind clusterBuffer fuel p m name out root = some answer ∧
    FoundFirst id (ebr.startCluster root) name records last answer

variable {disk : Disk} {ebr : EBR} {id clusterBuffer fuel c count : Nat} {p : ATAPort} {m : Mem} {name long : WString} {out : EntryInfo}
  {root : Option EntryInfo} {behind : Nat → List Nat} {d : FSDriver} {prior slots xs : List Slot} {slot : Slot}
  {nameEntries later : List LFNEntry} {raws rest : List Raw} {raw short last : Raw}
  {records : List Record}

@[simp] theorem slotsOf_length : (slotsOf c raws).length = raws.length := List.length_map ..

theorem slotsOf_append (c : Nat) (first rest : List Raw) : slotsOf c (first ++ rest) = slotsOf c first ++ slotsOf c rest := List.map_append

/-- The scan goes on behind an entry that does not end it. -/
theorem scan_more (examined : d.examine (behind count) name nameEntries slot.2 = some (.more later)) (slots : List Slot) :
    d.scan behind name count nameEntries (slot :: slots) = (d.scan behind name (count+1) later slots).map (fun r => (slot :: r.1,r.2)) := by
  rw [FSDriver.scan,examined,Option.map_eq_bind]
  rfl

/-- The scan goes on behind entries that do not end it. -/
theorem scan_append (passed : d.scan behind name count nameEntries xs = some (xs,.more later)) (slots : List Slot) :
    d.scan behind name count nameEntries (xs ++ slots) =
      (d.scan behind name (count + xs.length) later slots).map (fun r => (xs ++ r.1,r.2)) := by
  induction xs generalizing count nameEntries with
  | nil =>
    cases passed
    simp
  | cons slot xs ih =>
    cases examined : d.examine (behind count) name nameEntries slot.2 with
    | none => simp [FSDriver.scan,examined] at passed
    | some first =>
      cases first with
      | found info => simp [FSDriver.scan,examined] at passed
      | ended => simp [FSDriver.scan,examined] at passed
      | more between =>
        rw [scan_more examined] at passed
        obtain ⟨⟨seen,result⟩,scanned,whole⟩ := Option.map_eq_some_iff.mp passed
        obtain ⟨same,rfl⟩ := Prod.mk.inj whole
        obtain ⟨_,rfl⟩ := List.cons.inj same
        rw [List.cons_append,scan_more examined,ih scanned,Option.map_map,List.length_cons,Nat.add_assoc,Nat.add_comm 1]
        rfl

/-- Pieces of a long name are collected. -/
theorem scan_pieces (raws : List Raw) (ends : ∀ raw ∈ raws, ¬ raw.Ends) (piece : ∀ raw ∈ raws, raw.Piece) :
    d.scan behind name count nameEntries (slotsOf c raws) = some (slotsOf c raws,.more (nameEntries ++ raws.map Raw.lfnEntry)) := by
  induction raws generalizing count nameEntries with
  | nil =>
    rw [List.map_nil,List.append_nil]
    rfl
  | cons raw raws ih =>
    have first : d.examine (behind count) name nameEntries (Prod.mk c raw).2 = some (.more (nameEntries ++ [raw.lfnEntry])) :=
      examine_piece (ends raw List.mem_cons_self) (piece raw List.mem_cons_self)
    have rest : d.scan behind name (count+1) (nameEntries ++ [raw.lfnEntry]) (slotsOf c raws) =
        some (slotsOf c raws,.more (nameEntries ++ [raw.lfnEntry] ++ raws.map Raw.lfnEntry)) :=
      ih (fun r member => ends r (List.mem_cons_of_mem _ member)) (fun r member => piece r (List.mem_cons_of_mem _ member))
    rw [slotsOf,List.map_cons,scan_more first]
    simp only [slotsOf] at rest
    rw [rest,Option.map_some,List.append_assoc]
    rfl

/-- A short entry is compared. -/
theorem scan_compared (slot : Slot) (ends : ¬ slot.2.Ends) (piece : ¬ slot.2.Piece) (slots : List Slot) :
    d.scan behind name count nameEntries (slot :: slots) = (comparedName (behind count) nameEntries slot.2).bind (fun compared =>
      if name = compared then some ([slot],.found (foundInfo d nameEntries slot.2))
      else (d.scan behind name (count+1) [] slots).map (fun r => (slot :: r.1,r.2))) := by
  have examined : d.examine (behind count) name nameEntries slot.2 = (comparedName (behind count) nameEntries slot.2).map (fun compared =>
      if name = compared then .found (foundInfo d nameEntries slot.2) else .more []) := examine_compared ends piece
  cases named : comparedName (behind count) nameEntries slot.2 with
  | none =>
    rw [named,Option.map_none] at examined
    simp [FSDriver.scan,examined]
  | some compared =>
    rw [named,Option.map_some] at examined
    rw [Option.bind_some]
    by_cases same : name = compared
    · rw [if_pos same] at examined ⊢
      simp [FSDriver.scan,examined]
    · rw [if_neg same] at examined ⊢
      exact scan_more examined slots

/-- Behind a list, the pieces of a run of them are collected. -/
theorem pieces_append_run (prior : List Slot) (piece : ∀ s ∈ slots, s.2.Piece) :
    pieces (prior ++ slots) = pieces prior ++ slots.map (fun s => s.2.lfnEntry) := by
  induction slots generalizing prior with
  | nil => simp
  | cons slot slots ih =>
    have rest := ih (prior ++ [slot]) (fun s member => piece s (List.mem_cons_of_mem _ member))
    rw [pieces_append,if_pos (piece slot List.mem_cons_self),List.append_assoc,List.append_assoc] at rest
    exact rest

/-- A copy does not depend on what stands behind it. -/
theorem wstrncpy_append (dest rest : List Nat) (offset : Nat) (src : List Nat) (max : Nat) (room : offset + max ≤ dest.length) :
    wstrncpy (dest ++ rest) offset src max = wstrncpy dest offset src max ++ rest := by
  induction max generalizing dest offset src with
  | zero => rfl
  | succ max ih =>
    have inside : offset < dest.length := by omega
    rw [wstrncpy,wstrncpy]
    split
    · rw [List.set_append_left _ _ inside]
    · rw [List.set_append_left _ _ inside,ih _ _ _ (by rw [List.length_set]; omega)]

theorem allocatedUnits_eq {len : Nat} (small : len ≤ 255) : allocatedUnits len = (len + 7) / 8 * 8 := by
  rw [allocatedUnits,Kernel.roundSize_eq,Kernel.roundup16,Nat.mod_eq_of_lt (by omega)]
  omega

theorem lowerBuffer_eq (proper : 0 ∉ long) (small : long.length ≤ 255) :
    lowerBuffer long = long ++ List.replicate (allocatedUnits long.length - long.length) 0 := by
  have room : allocatedUnits long.length = long.length + (allocatedUnits long.length - long.length) := by
    rw [allocatedUnits_eq small]
    omega
  have copied := wstrncpy_all [] proper
  rw [List.nil_append,List.length_nil] at copied
  rw [lowerBuffer]
  nth_rewrite 1 [room]
  rw [List.replicate_add,wstrncpy_append _ _ _ _ _ (by rw [List.length_replicate]; omega),copied,List.nil_append]

/-- There is a terminator behind the copy when the length of the name is not a multiple of 8. -/
theorem lowerBuffer_ends (proper : 0 ∉ long) (small : long.length ≤ 255) : 0 ∈ lowerBuffer long ↔ long.length % 8 ≠ 0 := by
  rw [lowerBuffer_eq proper small,List.mem_append,List.mem_replicate,allocatedUnits_eq small]
  constructor
  · rintro (inside | ⟨rest,_⟩)
    · exact absurd inside proper
    · omega
  · intro rest
    exact .inr ⟨by omega,rfl⟩

/-- The name is compared as it is when its copy ends inside its buffer. -/
theorem ofBuffer_copy (proper : 0 ∉ long) (small : long.length ≤ 255) (ends : long.length % 8 ≠ 0) (beyond : List Nat) :
    ofBuffer (long ++ (List.replicate (allocatedUnits long.length - long.length) 0 ++ beyond)) = long := by
  obtain ⟨k,size⟩ : ∃ k, allocatedUnits long.length - long.length = k + 1 := by
    apply Nat.exists_eq_succ_of_ne_zero
    rw [allocatedUnits_eq small]
    omega
  rw [size,List.replicate_succ,List.cons_append]
  exact ofBuffer_of_terminated proper _

/-! ### Records -/

theorem first_byte (raw : Raw) : raw.directoryEntry.ShortName.headD 0 = raw.getD 0 0 := rfl

theorem Raw.Deleted.not_ends (deleted : raw.Deleted) : ¬ raw.Ends := by
  simp only [Raw.Ends,Raw.Deleted] at *
  rw [first_byte,deleted]
  decide

theorem Raw.Deleted.order (deleted : raw.Deleted) : raw.lfnEntry.order = 164 := by
  have order : raw.lfnEntry.order = ((raw.getD 0 0 &&& 0xBF) - 1).toNat := rfl
  simp only [Raw.Deleted] at deleted
  rw [order,deleted]
  rfl

theorem IsFile.piece_goes {pieces : List Raw} (file : IsFile long pieces short) (member : raw ∈ pieces) : ¬ raw.Ends := by
  obtain ⟨k,inside,same⟩ := List.mem_map.mp (file.whole.mem_iff.mp (List.mem_map_of_mem member))
  have few : k < 20 := by
    have block := List.mem_range.mp inside
    have small := file.small
    simp only [pieceCount] at block
    omega
  have marked : ∀ k : Fin 20, (BitVec.ofNat 8 (k+1) ||| 0x40 : BitVec 8) ≠ 0 := by decide
  have plain : ∀ k : Fin 20, (BitVec.ofNat 8 (k+1) ||| 0 : BitVec 8) ≠ 0 := by decide
  have nonzero : (longPiece long k).EntryOrder ≠ 0 := by
    rw [longPiece]
    split
    · exact marked ⟨k,few⟩
    · exact plain ⟨k,few⟩
  intro ends
  have zero : (raw.getD 0 0).toInt = 0 := ends
  have byte : (longPiece long k).EntryOrder = raw.getD 0 0 := congrArg LFNEntry.EntryOrder same
  rw [byte] at nonzero
  exact nonzero (BitVec.toInt_inj.mp (zero.trans BitVec.toInt_zero.symm))

namespace Record

theorem piece_goes (r : Record) (member : raw ∈ r.pieces) : ¬ raw.Ends := by
  cases r with
  | file long pieces short isFile => exact isFile.piece_goes member
  | deleted pieces short isDeleted => exact (isDeleted.marked raw member).not_ends

theorem isPiece (r : Record) : ∀ raw ∈ r.pieces, raw.Piece := by
  cases r with
  | file long pieces short isFile => exact isFile.isPiece
  | deleted pieces short isDeleted => exact isDeleted.isPiece

theorem short_goes (r : Record) : ¬ r.short.Ends ∧ ¬ r.short.Piece := by
  cases r with
  | file long pieces short isFile => exact ⟨isFile.isShort.1,isFile.isShort.2.1⟩
  | deleted pieces short isDeleted => exact ⟨isDeleted.isShort.2.not_ends,isDeleted.isShort.1⟩

/-- A file has pieces when it has a long name. -/
theorem pieces_none {pieces : List Raw} (file : IsFile long pieces short) : pieces = [] ↔ long = [] := by
  have count := file.whole.length_eq
  rw [List.length_map,longPieces,List.length_map,List.length_range,pieceCount] at count
  rw [← List.length_eq_zero_iff,← List.length_eq_zero_iff,count]
  omega

/-- The pieces of a file write its long name. -/
theorem written {pieces : List Raw} (file : IsFile long pieces short) : GetEntryNameLFN (pieces.map Raw.lfnEntry) = some long :=
  getEntryNameLFN_perm file.small file.proper file.whole

/-- A piece of a deleted file belongs behind every buffer. -/
theorem unwritten {pieces : List Raw} (deleted : IsDeleted pieces short) (some_pieces : pieces ≠ []) :
    GetEntryNameLFN (pieces.map Raw.lfnEntry) = none := by
  rw [← Option.not_isSome_iff_eq_none,getEntryNameLFN_isSome]
  intro placed
  obtain ⟨raw,member⟩ := List.exists_mem_of_ne_nil _ some_pieces
  have inside := placed _ (List.mem_map_of_mem member)
  rw [(deleted.marked raw member).order,List.length_map] at inside
  have few := deleted.few
  omega

/-- What is stored for an entry is that of its record. -/
theorem foundInfo_eq (d : FSDriver) (r : Record) : foundInfo d (r.pieces.map Raw.lfnEntry) r.short = r.info d.mDriveID := by
  cases r with
  | file long ps short isFile =>
    apply congrArg (EntryInfo.FromDirectoryEntry short.directoryEntry d.mDriveID)
    by_cases alone : long = []
    · cases (pieces_none isFile).mpr alone
      exact (if_pos alone).symm
    · have some_pieces : (ps.map Raw.lfnEntry).length > 0 := by
        rw [List.length_map]
        exact List.length_pos_iff.mpr (fun empty => alone ((pieces_none isFile).mp empty))
      exact (if_pos some_pieces).trans ((written isFile).trans (if_neg alone).symm)
  | deleted ps short isDeleted =>
    apply congrArg (EntryInfo.FromDirectoryEntry short.directoryEntry d.mDriveID)
    by_cases empty : ps = []
    · cases empty
      rfl
    · exact (congrArg (ite _ · none) (unwritten isDeleted empty)).trans (ite_self none)

/-- A deleted file is compared only if it has no pieces, and then under its 8.3 name. -/
theorem compared_deleted {pieces : List Raw} {memory : List Nat} {compared : WString} (deleted : IsDeleted pieces short)
    (shown : comparedName memory (pieces.map Raw.lfnEntry) short = some compared) :
    pieces = [] ∧ cstrTowstr (GetEntryName short.directoryEntry) = compared := by
  by_cases empty : pieces = []
  · cases empty
    exact ⟨rfl,Option.some.inj shown⟩
  · rw [comparedName,unwritten deleted empty,List.length_map,if_pos (List.length_pos_iff.mpr empty)] at shown
    cases shown

/-- The entries of a record are compared once, with its pieces. -/
theorem scan_raws (r : Record) (c count : Nat) (slots : List Slot) : d.scan behind name count [] (slotsOf c r.raws ++ slots) =
    (comparedName (behind (count + r.pieces.length)) (r.pieces.map Raw.lfnEntry) r.short).bind (fun compared =>
      if name = compared then some (slotsOf c r.raws,.found (foundInfo d (r.pieces.map Raw.lfnEntry) r.short))
      else (d.scan behind name (count + r.raws.length) [] slots).map (fun s => (slotsOf c r.raws ++ s.1,s.2))) := by
  have collected : d.scan behind name count [] (slotsOf c r.pieces) = some (slotsOf c r.pieces,.more (r.pieces.map Raw.lfnEntry)) :=
    scan_pieces r.pieces (fun raw member => r.piece_goes member) r.isPiece
  have compared : d.scan behind name (count + r.pieces.length) (r.pieces.map Raw.lfnEntry) ((c,r.short) :: slots) = _ :=
    scan_compared (c,r.short) r.short_goes.1 r.short_goes.2 slots
  rw [raws,slotsOf_append,List.append_assoc,scan_append collected,slotsOf_length]
  apply (congrArg _ compared).trans
  rw [Option.map_bind]
  refine congrArg _ (funext ?_)
  intro compared
  rw [Function.comp_apply,apply_ite (Option.map _),Option.map_some,Option.map_map,List.length_append,← Nat.add_assoc]
  congr 2
  exact funext (fun s => congrArg (Prod.mk · s.2) (List.append_assoc (slotsOf c r.pieces) (slotsOf c [r.short]) s.1).symm)

/-- Behind a record no pieces are left. -/
theorem pieces_behind (r : Record) (prior : List Slot) (c : Nat) : FAT32.pieces (prior ++ slotsOf c r.raws) = [] := by
  rw [raws,slotsOf_append,← List.append_assoc]
  exact pieces_append.trans (if_neg r.short_goes.2)

theorem pieces_before (r : Record) (c : Nat) (none : FAT32.pieces prior = []) :
    FAT32.pieces (prior ++ slotsOf c r.pieces) = r.pieces.map Raw.lfnEntry := by
  have piece : ∀ s ∈ slotsOf c r.pieces, s.2.Piece := by
    intro s member
    obtain ⟨raw,inside,rfl⟩ := List.mem_map.mp member
    exact r.isPiece raw inside
  rw [pieces_append_run prior piece,none,List.nil_append,slotsOf,List.map_map]
  rfl

/-- A record that is handled is compared under its name. -/
theorem compared_handled {r : Record} (handled : r.Handled name) (none : FAT32.pieces prior = [])
    (allocated : Allocated behind (prior ++ slotsOf c r.pieces) (c,r.short)) :
    ∃ compared, comparedName (behind (prior.length + r.pieces.length)) (r.pieces.map Raw.lfnEntry) r.short = some compared ∧
      (name = compared ↔ r.name = some name) := by
  have before := pieces_before r c none
  cases r with
  | file long ps short isFile =>
    by_cases alone : long = []
    · cases (pieces_none isFile).mpr alone
      refine ⟨_,rfl,?_⟩
      rw [Record.name,if_pos alone,Option.some_inj,eq_comm]
      rfl
    · have some_pieces : ps.length > 0 := List.length_pos_iff.mpr (fun empty => alone ((pieces_none isFile).mp empty))
      obtain ⟨beyond,rest⟩ := allocated long (before ▸ written isFile)
      have ends := handled.resolve_left alone
      have copied : comparedName (behind (prior ++ slotsOf c ps).length) (ps.map Raw.lfnEntry) short = some (wstrToLower long) := by
        rw [comparedName,List.length_map,if_pos some_pieces,written isFile,Option.map_some]
        refine (congrArg (fun buffer => some (wstrToLower (ofBuffer (long ++ buffer)))) rest).trans ?_
        rw [ofBuffer_copy isFile.proper isFile.small ends]
      rw [List.length_append,slotsOf_length] at copied
      refine ⟨wstrToLower long,copied,?_⟩
      rw [Record.name,if_neg alone,Option.some_inj,eq_comm]
  | deleted ps short isDeleted =>
    obtain ⟨empty,other⟩ := handled
    cases empty
    refine ⟨cstrTowstr (GetEntryName short.directoryEntry),rfl,?_⟩
    constructor
    · exact fun same => absurd same.symm other
    · exact fun named => by cases named

/-- The buffer of an 8.3 name has a terminator. -/
theorem reads_short (none : FAT32.pieces prior = []) : ReadsInside prior slot := by
  intro _ _
  have full : slot.2.directoryEntry.ShortName.length = 8 := by simp [Raw.directoryEntry]
  have ext : slot.2.directoryEntry.ShortExt.length = 3 := by simp [Raw.directoryEntry]
  obtain ⟨_,ends,_⟩ := ShortNames.getEntryName_buffer _ full ext
  rw [if_pos none]
  exact ends

/-- The copy of a long name ends inside its buffer exactly when the file is handled. -/
theorem reads_file {pieces : List Raw} (isFile : IsFile long pieces short) (none : FAT32.pieces prior = []) :
    ReadsInside (prior ++ slotsOf c pieces) (c,short) ↔ long = [] ∨ long.length % 8 ≠ 0 := by
  have before : FAT32.pieces (prior ++ slotsOf c pieces) = pieces.map Raw.lfnEntry :=
    pieces_before (.file long pieces short isFile) c none
  by_cases alone : long = []
  · cases (pieces_none isFile).mpr alone
    exact ⟨fun _ => .inl alone,fun _ => reads_short before⟩
  · have some_pieces : pieces.map Raw.lfnEntry ≠ [] := fun empty => alone ((pieces_none isFile).mp (List.map_eq_nil_iff.mp empty))
    rw [ReadsInside,before,if_neg some_pieces]
    constructor
    · intro inside
      obtain ⟨lfnName,name,ends⟩ := inside isFile.isShort.1 isFile.isShort.2.1
      cases (written isFile).symm.trans name
      exact .inr ((lowerBuffer_ends isFile.proper isFile.small).mp ends)
    · intro handled _ _
      exact ⟨long,written isFile,(lowerBuffer_ends isFile.proper isFile.small).mpr (handled.resolve_left alone)⟩

theorem reads_handled {r : Record} (handled : r.Handled name) (none : FAT32.pieces prior = []) :
    ReadsInside (prior ++ slotsOf c r.pieces) (c,r.short) := by
  cases r with
  | file long ps short isFile => exact (reads_file isFile none).mpr handled
  | deleted ps short isDeleted =>
    apply reads_short
    rw [pieces_before _ c none,pieces,handled.1]
    rfl

/-- Only the short entry of a record is compared. -/
theorem throughout_raws (r : Record) (prior : List Slot) (c : Nat) :
    Throughout ReadsInside prior (slotsOf c r.raws) ↔ ReadsInside (prior ++ slotsOf c r.pieces) (c,r.short) := by
  have passed : Throughout ReadsInside prior (slotsOf c r.pieces) := by
    intro before slot after whole _ piece
    obtain ⟨raw,member,rfl⟩ := List.mem_map.mp (show slot ∈ slotsOf c r.pieces from whole ▸ by simp)
    exact absurd (r.isPiece raw member) piece
  rw [raws,slotsOf_append,throughout_append]
  constructor
  · rintro ⟨_,last⟩
    exact (throughout_cons.mp last).1
  · intro last
    exact ⟨passed,throughout_cons.mpr ⟨last,throughout_nil⟩⟩

end Record

/-! ### The first file with the name -/

theorem rawsUpTo_ne_nil (name : WString) (last : Raw) (records : List Record) : rawsUpTo name last records ≠ [] := by
  cases records with
  | nil => exact List.cons_ne_nil _ _
  | cons r rs => simp [rawsUpTo,Record.raws]

theorem rawsUpTo_named {r : Record} (rs : List Record) (named : r.name = some name) : rawsUpTo name last (r :: rs) = r.raws := by
  rw [rawsUpTo,if_pos named,List.append_nil]

theorem rawsUpTo_other {r : Record} (rs : List Record) (other : r.name ≠ some name) :
    rawsUpTo name last (r :: rs) = r.raws ++ rawsUpTo name last rs := by rw [rawsUpTo,if_neg other]

theorem firstOf_named {r : Record} (id : Nat) (rs : List Record) (named : r.name = some name) :
    firstOf id name (r :: rs) = .found (r.info id) := by rw [firstOf,List.find?_cons_of_pos (by simpa using named)]

theorem firstOf_other {r : Record} (id : Nat) (rs : List Record) (other : r.name ≠ some name) :
    firstOf id name (r :: rs) = firstOf id name rs := by rw [firstOf,List.find?_cons_of_neg (by simpa using other),firstOf]

/-- When all records up to the first one with the name are handled, the scan finds that one. -/
theorem scan_first (handled : AllHandled name records) (none : pieces prior = []) (ends : last.Ends)
    (allocated : Throughout (Allocated behind) prior (slotsOf c (rawsUpTo name last records))) (slots : List Slot) :
    d.scan behind name prior.length [] (slotsOf c (rawsUpTo name last records) ++ slots) =
        some (slotsOf c (rawsUpTo name last records),firstOf d.mDriveID name records) ∧
      Throughout ReadsInside prior (slotsOf c (rawsUpTo name last records)) := by
  induction records generalizing prior with
  | nil =>
    have examined : d.examine (behind prior.length) name [] last = some .ended := examine_ends ends
    refine ⟨?_,throughout_cons.mpr ⟨fun goes => absurd ends goes,throughout_nil⟩⟩
    simp [rawsUpTo,slotsOf,FSDriver.scan,examined,firstOf]
  | cons r rs ih =>
    have compares : Allocated behind (prior ++ slotsOf c r.pieces) (c,r.short) := by
      rw [rawsUpTo,Record.raws,slotsOf_append,throughout_append,slotsOf_append,throughout_append] at allocated
      exact (throughout_cons.mp allocated.1.2).1
    obtain ⟨compared,shown,same⟩ := Record.compared_handled handled.1 none compares
    have inside := (Record.throughout_raws r prior c).mpr (Record.reads_handled handled.1 none)
    by_cases named : r.name = some name
    · rw [rawsUpTo_named rs named,Record.scan_raws,shown,Option.bind_some,if_pos (same.mpr named),Record.foundInfo_eq,
        firstOf_named d.mDriveID rs named]
      exact ⟨rfl,inside⟩
    · rw [rawsUpTo_other rs named,slotsOf_append,throughout_append] at allocated
      obtain ⟨scanned,later⟩ := ih (handled.2.resolve_left named) (Record.pieces_behind r prior c) allocated.2
      rw [List.length_append,slotsOf_length] at scanned
      rw [rawsUpTo_other rs named,slotsOf_append,List.append_assoc,Record.scan_raws,shown,Option.bind_some,
        if_neg (fun found => named (same.mp found)),scanned,firstOf_other d.mDriveID rs named]
      exact ⟨rfl,throughout_append.mpr ⟨inside,later⟩⟩

/-- A scan that should pass a record does so. -/
theorem scan_other {r : Record} {rs : List Record} {result : Examined} (other : r.name ≠ some name)
    (scanned : d.scan behind name count [] (slotsOf c (rawsUpTo name last (r :: rs)) ++ slots) =
      some (slotsOf c (rawsUpTo name last (r :: rs)),result)) :
    ∃ compared, comparedName (behind (count + r.pieces.length)) (r.pieces.map Raw.lfnEntry) r.short = some compared ∧ name ≠ compared ∧
      d.scan behind name (count + r.raws.length) [] (slotsOf c (rawsUpTo name last rs) ++ slots) =
        some (slotsOf c (rawsUpTo name last rs),result) := by
  rw [rawsUpTo_other rs other,slotsOf_append,List.append_assoc,Record.scan_raws] at scanned
  obtain ⟨compared,shown,follows⟩ := Option.bind_eq_some_iff.mp scanned
  refine ⟨compared,shown,?_⟩
  by_cases found : name = compared
  · rw [if_pos found] at follows
    have size := congrArg List.length (Prod.mk.inj (Option.some.inj follows)).1
    have more := List.length_pos_iff.mpr (rawsUpTo_ne_nil name last rs)
    rw [List.length_append,slotsOf_length,slotsOf_length] at size
    omega
  · rw [if_neg found] at follows
    obtain ⟨⟨seen,later⟩,rest,whole⟩ := Option.map_eq_some_iff.mp follows
    obtain ⟨same,rfl⟩ := Prod.mk.inj whole
    cases List.append_cancel_left same
    exact ⟨found,rest⟩

/-- When the scan ends with the first file with the name and stays inside its buffers, the records up to there are handled. -/
theorem handled_of_scan {result : Examined} (none : pieces prior = [])
    (scanned : d.scan behind name prior.length [] (slotsOf c (rawsUpTo name last records) ++ slots) =
      some (slotsOf c (rawsUpTo name last records),result))
    (inside : Throughout ReadsInside prior (slotsOf c (rawsUpTo name last records))) : AllHandled name records := by
  induction records generalizing prior with
  | nil => trivial
  | cons r rs ih =>
    constructor
    · cases r with
      | file long ps short isFile =>
        rw [rawsUpTo,slotsOf_append,throughout_append] at inside
        exact (Record.reads_file isFile none).mp ((Record.throughout_raws _ prior c).mp inside.1)
      | deleted ps short isDeleted =>
        obtain ⟨compared,shown,differs,_⟩ := scan_other (fun named => by cases named) scanned
        obtain ⟨empty,rfl⟩ := Record.compared_deleted isDeleted shown
        exact ⟨empty,Ne.symm differs⟩
    · by_cases named : r.name = some name
      · exact .inl named
      · obtain ⟨_,_,_,rest⟩ := scan_other named scanned
        rw [rawsUpTo_other rs named,slotsOf_append,throughout_append] at inside
        rw [← slotsOf_length,← List.length_append] at rest
        exact .inr (ih (Record.pieces_behind r prior c) rest inside.2)

theorem rawsUpTo_prefix (name : WString) (last : Raw) (rest : List Raw) (records : List Record) :
    rawsUpTo name last records <+: records.flatMap Record.raws ++ last :: rest := by
  induction records with
  | nil => exact ⟨rest,rfl⟩
  | cons r rs ih =>
    rw [List.flatMap_cons,List.append_assoc]
    by_cases named : r.name = some name
    · rw [rawsUpTo_named rs named]
      exact List.prefix_append _ _
    · rw [rawsUpTo_other rs named]
      exact (List.prefix_append_right_inj _).mpr ih

/-- The entries that the search should examine are the first of those that are stored. -/
theorem SingleCluster.begins (dir : SingleCluster disk ebr id root records last rest) (name : WString) :
    slotsOf (ebr.startCluster root) (rawsUpTo name last records) <+: disk.slots ebr [ebr.startCluster root] := by
  obtain ⟨more,whole⟩ := rawsUpTo_prefix name last rest records
  exact ⟨slotsOf _ more,by rw [dir.stored,← whole,slotsOf_append]⟩

theorem FindsFirst.handled (wf : WellFormed disk ebr) (dir : SingleCluster disk ebr id root records last rest) (ready : Buffered p 8 false)
    (finds : FindsFirst disk ebr id behind clusterBuffer p m name out root records last) :
    slotsOf (ebr.startCluster root) (rawsUpTo name last records) <+: disk.readSlots ebr (ebr.startCluster root) ∧ AllHandled name records := by
  obtain ⟨fuel,answer,returned,found⟩ := finds
  rw [findEntry_here dir.here] at returned
  have seen := found.examined
  rcases search_first wf dir.chain.cluster ready returned with ⟨stopped,sound⟩ | ⟨raw,more,again⟩
  · have begins := stopped.isPrefix
    obtain ⟨result,scanned⟩ := scan_stops (FSDriver.mount id ebr) stopped sound
    obtain ⟨slots,whole⟩ := begins
    rw [seen] at scanned whole
    rw [← whole] at scanned
    exact ⟨⟨slots,whole⟩,handled_of_scan rfl scanned (seen ▸ found.inside)⟩
  · -- A second round would examine more entries than the cluster has.
    have short := (dir.begins name).length_le
    have long := congrArg List.length again
    rw [seen,List.length_append,readSlots_length,List.length_cons] at long
    rw [slots_length] at short
    omega

theorem findsFirst_of_handled (wf : WellFormed disk ebr) (dir : SingleCluster disk ebr id root records last rest) (ready : Buffered p 8 false)
    (allocated : Throughout (Allocated behind) [] (disk.slots ebr [ebr.startCluster root]))
    (same : slotsOf (ebr.startCluster root) (rawsUpTo name last records) <+: disk.readSlots ebr (ebr.startCluster root))
    (handled : AllHandled name records) : FindsFirst disk ebr id behind clusterBuffer p m name out root records last := by
  obtain ⟨slots,whole⟩ := same
  obtain ⟨more,stored⟩ := dir.begins name
  rw [← stored,throughout_append] at allocated
  obtain ⟨scanned,inside⟩ := scan_first (d := FSDriver.mount id ebr) handled rfl dir.ends allocated.1 slots
  obtain ⟨p',m',_,round⟩ := search_succ wf dir.chain.cluster ready m id clusterBuffer behind name out
  have returned := round 0 [] []
  rw [List.length_nil,← whole] at returned
  rw [List.length_nil] at scanned
  rw [scanned,Option.bind_some,← findEntry_here dir.here] at returned
  cases first : records.find? (fun r => r.name = some name) with
  | some r =>
    have result : firstOf id name records = .found (r.info id) := by rw [firstOf,first]
    refine ⟨1,⟨.Ok,r.info id,_,p',m'⟩,?_,⟨rfl,?_,?_,inside⟩⟩
    · rw [returned]
      simp only [show (FSDriver.mount id ebr).mDriveID = id from rfl,result]
      rfl
    · intro r' isFirst
      cases first.symm.trans isFirst
      exact ⟨rfl,rfl⟩
    · intro none
      exact absurd (by simpa using List.find?_some first) (none r (List.mem_of_find?_eq_some first))
  | none =>
    have result : firstOf id name records = .ended := by rw [firstOf,first]
    refine ⟨1,⟨.NotFound,out,_,p',m'⟩,?_,⟨rfl,?_,fun _ => rfl,inside⟩⟩
    · rw [returned]
      simp only [show (FSDriver.mount id ebr).mDriveID = id from rfl,result]
      rfl
    · intro r' isFirst
      cases first.symm.trans isFirst

/-- In a directory of one cluster the first file with the name is found, with all names read inside their buffers, if and only
    if the entries up to it are read as they are stored, no long name among them fills its buffer, and no deleted file among them
    has pieces or the name. -/
theorem findEntry_first_iff (wf : WellFormed disk ebr) (dir : SingleCluster disk ebr id root records last rest) (ready : Buffered p 8 false)
    (allocated : Throughout (Allocated behind) [] (disk.slots ebr [ebr.startCluster root])) :
    FindsFirst disk ebr id behind clusterBuffer p m name out root records last ↔
      slotsOf (ebr.startCluster root) (rawsUpTo name last records) <+: disk.readSlots ebr (ebr.startCluster root) ∧
        AllHandled name records :=
  ⟨fun finds => finds.handled wf dir ready,fun ⟨same,handled⟩ => findsFirst_of_handled wf dir ready allocated same handled⟩

/-! ### A directory of one file -/

/-- The bytes of units. -/
def unitBytes (units : List Nat) : List (BitVec 8) := units.flatMap (fun unit => [BitVec.ofNat 8 unit,BitVec.ofNat 8 (unit / 256)])

/-- The piece of a name of up to 13 units. -/
def onlyPiece (checksum : BitVec 8) (long : WString) : Raw := 0x41 :: unitBytes ((padded long).take 5) ++ [0x0F,0,checksum] ++
  unitBytes (((padded long).drop 5).take 6) ++ [0,0] ++ unitBytes (((padded long).drop 11).take 2)

/-- The short entry of a file `B`. -/
def entryB : Raw := 0x42 :: List.replicate 10 0x20 ++ List.replicate 21 0

def blank : Raw := List.replicate 32 0

/-- The root directory is cluster 2 and holds a file `B` with a long name of `n` letters. -/
def fileDisk (n : Nat) : Disk where
  data i :=
    if 16384 + 8 ≤ i ∧ i < 16384 + 12 then 0xFF
    else if 1056 * 512 ≤ i ∧ i < 1057 * 512 then (onlyPiece 0xC0 (List.replicate n 0x61) ++ entryB).getD (i - 1056 * 512) 0
    else 0
  capacity := 66581

theorem fileDisk_wellFormed (n : Nat) : WellFormed (fileDisk n) smallEBR :=
  ⟨rfl,⟨0,by decide,rfl⟩,by decide,by decide,by decide,by decide,show smallEBR.totalSectors ≤ 66581 by decide,
    by unfold EBR.Cluster; decide⟩

theorem eight_isFile : IsFile (List.replicate 8 0x61) [onlyPiece 0xC0 (List.replicate 8 0x61)] entryB :=
  ⟨by decide,by decide,.of_eq rfl,by decide,by decide⟩

theorem nine_isFile : IsFile (List.replicate 9 0x61) [onlyPiece 0xC0 (List.replicate 9 0x61)] entryB :=
  ⟨by decide,by decide,.of_eq rfl,by decide,by decide⟩

theorem small_chain (ends : 0x0FFFFFF8 ≤ disk.next smallEBR 2) : Chain disk smallEBR 2 [2] := .last (small_cluster (by decide) (by decide)) ends

/-- What is read of entries that stand one behind another, with zeroes behind the last. -/
theorem read_flatten {raws : List Raw} (sized : ∀ raw ∈ raws, raw.length = 32) (x : Nat) :
    Raw.read (fun i => raws.flatten.getD i 0) (32*x) = raws.getD x blank := by
  induction raws generalizing x with
  | nil => exact List.map_const'
  | cons raw raws ih =>
    have size := sized raw List.mem_cons_self
    cases x with
    | zero =>
      apply List.ext_getElem (by simp [Raw.read,size])
      intro i inside inside'
      have small : i < raw.length := inside'
      simp only [Raw.read,List.getElem_map,List.getElem_range,List.flatten_cons,List.getD_cons_zero,Nat.mul_zero,Nat.zero_add]
      rw [List.getD_append _ _ _ _ small,List.getD_eq_getElem _ _ small]
    | succ x =>
      rw [List.getD_cons_succ,← ih (fun r member => sized r (List.mem_cons_of_mem _ member)) x]
      apply List.map_congr_left
      intro i _
      show (raw ++ raws.flatten).getD (32 * (x+1) + i) 0 = _
      rw [List.getD_append_right _ _ _ _ (by omega),size,show 32 * (x+1) + i - 32 = 32*x + i by omega]

theorem fileDisk_next (n : Nat) : (fileDisk n).next smallEBR 2 = 0x0FFFFFFF := by
  have link : load (fileDisk n).data (16384 + 8) 4 = load (fun _ => 0xFF) (16384 + 8) 4 :=
    load_congr (fun i low high => if_pos ⟨low,high⟩)
  show load (fileDisk n).data (16384 + 8) 4 % 2^28 = _
  rw [link]
  rfl

theorem fileDisk_byte (n : Nat) {i : Nat} (inside : i < 512) : (fileDisk n).clusterByte smallEBR 2 i =
    [onlyPiece 0xC0 (List.replicate n 0x61),entryB].flatten.getD i 0 := by
  show (fileDisk n).data (1056 * 512 + i) = _
  rw [List.flatten_cons,List.flatten_singleton]
  refine (if_neg (by omega)).trans ((if_pos (by omega)).trans ?_)
  rw [Nat.add_sub_cancel_left]

theorem file_cluster {n : Nat} (isFile : IsFile (List.replicate n 0x61) [onlyPiece 0xC0 (List.replicate n 0x61)] entryB)
    (size : (onlyPiece 0xC0 (List.replicate n 0x61)).length = 32) :
    SingleCluster (fileDisk n) smallEBR 0 none [.file _ _ _ isFile] blank (List.replicate 13 blank) := by
  have sized : ∀ raw ∈ [onlyPiece 0xC0 (List.replicate n 0x61),entryB], raw.length = 32 := by
    intro raw member
    rcases List.mem_cons.mp member with rfl | last
    · exact size
    · rw [List.mem_singleton.mp last]
      rfl
  have raws : ∀ x < 16, Raw.read ((fileDisk n).clusterByte smallEBR 2) (32*x) =
      [onlyPiece 0xC0 (List.replicate n 0x61),entryB].getD x blank := by
    intro x small
    rw [← read_flatten sized]
    apply List.map_congr_left
    intro i member
    have inside := List.mem_range.mp member
    exact fileDisk_byte n (by omega)
  refine ⟨fun info none => (by cases none),small_chain (by rw [fileDisk_next]; decide),?_,by decide⟩
  show List.flatMap _ [2] = _
  rw [List.flatMap_singleton]
  show (List.range 16).map _ = _
  rw [List.map_congr_left (fun x member => by rw [raws x (List.mem_range.mp member)])]
  rfl

theorem eight_cluster : SingleCluster (fileDisk 8) smallEBR 0 none [.file _ _ _ eight_isFile] blank (List.replicate 13 blank) :=
  file_cluster eight_isFile (by decide)

theorem nine_cluster : SingleCluster (fileDisk 9) smallEBR 0 none [.file _ _ _ nine_isFile] blank (List.replicate 13 blank) :=
  file_cluster nine_isFile (by decide)

/-- An entry without pieces needs no buffer. -/
theorem allocated_none (none : pieces prior = []) (slot : Slot) : Allocated behind prior slot := by
  intro lfnName written
  rw [none] at written
  have empty : lfnName = [] := (Option.some.inj written).symm
  refine ⟨behind prior.length,?_⟩
  rw [empty,List.length_nil,Nat.sub_zero,allocatedUnits_eq (Nat.zero_le _)]
  rfl

theorem allocated_short (none : pieces prior = []) (short : ∀ raw ∈ raws, ¬ raw.Piece) :
    Throughout (Allocated behind) prior (slotsOf c raws) := by
  induction raws generalizing prior with
  | nil => exact throughout_nil
  | cons raw raws ih =>
    refine throughout_cons.mpr ⟨allocated_none none _,ih ?_ (fun r member => short r (List.mem_cons_of_mem _ member))⟩
    exact pieces_append.trans (if_neg (short raw List.mem_cons_self))

/-- The memory behind the copy of the only long name of a directory. -/
theorem allocated_file {beyond : List Nat} (isFile : IsFile long [raw] short)
    (memory : behind 1 = List.replicate (allocatedUnits long.length - long.length) 0 ++ beyond) (others : ∀ r ∈ rest, ¬ r.Piece) :
    Throughout (Allocated behind) [] (slotsOf c (raw :: short :: rest)) := by
  have piece : raw.Piece := isFile.isPiece raw List.mem_cons_self
  have before : pieces [(c,raw)] = [raw.lfnEntry] := if_pos piece
  refine throughout_cons.mpr ⟨allocated_none rfl _,throughout_cons.mpr ⟨?_,?_⟩⟩
  · intro lfnName written
    rw [List.nil_append,before] at written
    cases (Record.written isFile).symm.trans written
    exact ⟨beyond,memory⟩
  · exact allocated_short (pieces_append.trans (if_neg isFile.isShort.2.1)) others

/-- A file with a name of nine letters is found. -/
theorem findEntry_first_iff_nine : FindsFirst (fileDisk 9) smallEBR 0 (fun _ => List.replicate 7 0 ++ [0x33]) 0x130000 idlePort
    (fun _ => 0) (List.replicate 9 0x61) (fileEntry 0 0) none [.file _ _ _ nine_isFile] blank := by
  have units : allocatedUnits 9 - 9 = 7 := by rw [allocatedUnits_eq (by decide)]
  have allocated : Throughout (Allocated (fun _ => List.replicate 7 0 ++ [0x33])) [] ((fileDisk 9).slots smallEBR [smallEBR.startCluster none]) := by
    rw [nine_cluster.stored]
    exact allocated_file nine_isFile (by rw [List.length_replicate,units]) (by decide)
  refine (findEntry_first_iff (fileDisk_wellFormed 9) nine_cluster ⟨rfl,rfl⟩ allocated).mpr ⟨by decide +kernel,.inr (by decide),.inl rfl⟩

/-- The file with a name of eight letters is not found as it should be: nothing ends the copy of its name. -/
theorem findEntry_unended : WellFormed (fileDisk 8) smallEBR ∧
    SingleCluster (fileDisk 8) smallEBR 0 none [.file _ _ _ eight_isFile] blank (List.replicate 13 blank) ∧ Buffered idlePort 8 false ∧
    Throughout (Allocated (fun _ => [0x33])) [] ((fileDisk 8).slots smallEBR [smallEBR.startCluster none]) ∧
    ¬ FindsFirst (fileDisk 8) smallEBR 0 (fun _ => [0x33]) 0x130000 idlePort (fun _ => 0) (List.replicate 8 0x61) (fileEntry 0 0) none
      [.file _ _ _ eight_isFile] blank := by
  have units : allocatedUnits 8 - 8 = 0 := by rw [allocatedUnits_eq (by decide)]
  have ready : Buffered idlePort 8 false := ⟨rfl,rfl⟩
  refine ⟨fileDisk_wellFormed 8,eight_cluster,ready,?_,?_⟩
  · rw [eight_cluster.stored]
    exact allocated_file eight_isFile (by rw [List.length_replicate,units]; rfl) (by decide)
  · intro finds
    have handled := (finds.handled (fileDisk_wellFormed 8) eight_cluster ready).2.1
    revert handled
    simp only [Record.Handled]
    decide

end WaifuOS.FAT32
