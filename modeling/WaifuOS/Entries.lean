import WaifuOS.FAT32
import WaifuOS.WideStrings

/-!
The entries of a directory, as `FAT32.cpp` reads them. The same 32 bytes are a
`DirectoryEntry` or a piece of a long name (`LFNEntry`). The name of an entry is put
together from the pieces that stand before it (`GetEntryNameLFN`), or made from its
short name (`GetEntryName`).
-/
namespace WaifuOS.FAT32
open WaifuOS.Bytes WaifuOS.cstr

/-- The 32 bytes of an entry. -/
abbrev Raw := List (BitVec 8)

/-- The entry at an address. -/
def Raw.read (m : Mem) (address : Nat) : Raw := (List.range 32).map (fun i => m (address + i))

/-- A field of `size` bytes at `offset`. -/
def Raw.field (raw : Raw) (offset size : Nat) : Nat := load (fun i => raw.getD i 0) offset size

/-- `count` wide characters at `offset`. -/
def Raw.chars (raw : Raw) (offset count : Nat) : List Nat := (List.range count).map (fun i => raw.field (offset + 2*i) 2)

structure DirectoryEntry where
  ShortName : List (BitVec 8)
  ShortExt : List (BitVec 8)
  EntryAttributes : Nat
  CreationTimestampTS : Nat
  CreationTimestampHMS : Nat
  CreationTimestampDate : Nat
  LastAccessDate : Nat
  EntryFirstClusterHigh : Nat
  ModificationTimestampHMS : Nat
  ModificationTimestampDate : Nat
  EntryFirstClusterLow : Nat
  FileSize : Nat

def Raw.directoryEntry (raw : Raw) : DirectoryEntry where
  ShortName := (List.range 8).map (fun i => raw.getD i 0)
  ShortExt := (List.range 3).map (fun i => raw.getD (8+i) 0)
  EntryAttributes := raw.field 11 1
  CreationTimestampTS := raw.field 13 1
  CreationTimestampHMS := raw.field 14 2
  CreationTimestampDate := raw.field 16 2
  LastAccessDate := raw.field 18 2
  EntryFirstClusterHigh := raw.field 20 2
  ModificationTimestampHMS := raw.field 22 2
  ModificationTimestampDate := raw.field 24 2
  EntryFirstClusterLow := raw.field 26 2
  FileSize := raw.field 28 4

structure LFNEntry where
  EntryOrder : BitVec 8
  Name0 : List Nat
  Name1 : List Nat
  Name2 : List Nat

def Raw.lfnEntry (raw : Raw) : LFNEntry where
  EntryOrder := raw.getD 0 0
  Name0 := raw.chars 1 5
  Name1 := raw.chars 14 6
  Name2 := raw.chars 28 2

namespace EntryAttribute

/-- The bit of a directory. -/
def Directory : Nat := 0x10

/-- The attributes of a piece of a long name. -/
def LFN : Nat := 0x0F

end EntryAttribute

def ENTRY_END : Int := 0x00

def ENTRY_DELETED : Int := 0xE5

/-- `(EntryOrder & ~0x40) - 1` in a byte. -/
def LFNEntry.order (entry : LFNEntry) : Nat := ((entry.EntryOrder &&& 0xBF) - 1).toNat

/-- A piece is copied into the name. -/
def LFNEntry.place (name : List Nat) (entry : LFNEntry) : List Nat :=
  let nameOffset := entry.order * 13
  let name := wstrncpy name (nameOffset + 0) entry.Name0 5
  let name := wstrncpy name (nameOffset + 5) entry.Name1 6
  wstrncpy name (nameOffset + 11) entry.Name2 2

/-- Every piece is copied inside the buffer that is allocated for the name. -/
def Placed (Entries : List LFNEntry) : Prop := ∀ entry ∈ Entries, entry.order < Entries.length

instance (Entries : List LFNEntry) : Decidable (Placed Entries) := inferInstanceAs (Decidable (∀ entry ∈ Entries, _))

/-- The name that the pieces write, if they stay inside its buffer. -/
def GetEntryNameLFN (Entries : List LFNEntry) : Option WString :=
  let nameLen := Entries.length * 13 + 1
  if Placed Entries then
    let name := Entries.foldl LFNEntry.place (List.replicate nameLen 0)
    some (ofBuffer (name.set (nameLen-1) 0))
  else none

/-- `ToLower` on the characters up to the terminator. -/
def ToLower (str : List (BitVec 8)) : List (BitVec 8) :=
  str.map (fun c => if 0x41 ≤ c.toInt ∧ c.toInt ≤ 0x5A then c + 0x20 else c)

/-- The short name in lower case, with its extension if there is one. -/
def GetEntryName (entry : DirectoryEntry) : List (BitVec 8) :=
  let name := entry.ShortName.takeWhile (· ≠ 0x20)
  let ext := if entry.ShortExt.headD 0 ≠ 0x20 then 0x2E :: entry.ShortExt.takeWhile (· ≠ 0x20) else []
  ToLower ((name ++ ext).takeWhile (· ≠ 0))

def EntryInfo.FromDirectoryEntry (base : DirectoryEntry) (driveID : Nat) (lfn : Option WString) : EntryInfo where
  EntryAttributes := base.EntryAttributes
  CreationTimestampTS := base.CreationTimestampTS
  CreationTimestampHMS := base.CreationTimestampHMS
  CreationTimestampDate := base.CreationTimestampDate
  LastAccessDate := base.LastAccessDate
  ModificationTimestampHMS := base.ModificationTimestampHMS
  ModificationTimestampDate := base.ModificationTimestampDate
  EntryFirstClusterLow := base.EntryFirstClusterLow
  EntryFirstClusterHigh := base.EntryFirstClusterHigh
  FileSize := base.FileSize
  DriveID := driveID % 2^8
  wEntryName := lfn
  ShortName := base.ShortName
  ShortExt := base.ShortExt

end WaifuOS.FAT32
