import WaifuOS.ThreadStacks

/-!
The names that `SetName` leaves in the threads. `Name` begins 792 bytes into the object.
`strncpy` writes nothing at an address with the low byte 0, so that an object
at 232 modulo 256 keeps the name it had (`setName_iff`). The heap gives no such
address to an object, for its blocks are at multiples of 16 (`heap_named`).
-/
namespace WaifuOS.ThreadStacks
open WaifuOS.Bytes WaifuOS.Tiling

/-- `Name` holds a text, or its first 64 bytes. -/
def Named (m : Mem) (newThread : Nat) (s : List (BitVec 8)) : Prop :=
  ∀ i < min 64 (s.length + 1), m (newThread + 792 + i) = s.getD i 0

/-- The text that `SetName` copies. -/
def Image.title (image : Image) (name : Nat) : Nat := if name = 0 then image.formatBuffer else name

variable {image : Image} {m : Mem} {dest src max newThread ThreadID name fuel p : Nat} {s : List (BitVec 8)}

theorem setName_writes : (SetName image m newThread ThreadID name).2 =
    strncpy (SetName image m newThread ThreadID name).1 (newThread + 792) (image.title name) 64 := by
  rw [SetName,Image.title]
  split <;> rfl

theorem named_copied : Named (writeAll m (copied (newThread + 792) s (min 64 (s.length + 1)))) newThread s := by
  intro i small
  rw [writeAll_copied,fill_at (by omega) (by omega),Nat.add_sub_cancel_left]

/-- `SetName` leaves the name where the low byte of the address of `Name` is not 0, or where it was there before. -/
theorem setName_iff (text : Text (SetName image m newThread ThreadID name).1 (image.title name) s)
    (apart : Apart (newThread + 792) (min 64 (s.length + 1)) (image.title name) (s.length + 1)) :
    Named (writeAll (SetName image m newThread ThreadID name).1 (SetName image m newThread ThreadID name).2) newThread s ↔
      (newThread + 792) % 256 ≠ 0 ∨ Named (SetName image m newThread ThreadID name).1 newThread s := by
  rw [setName_writes]
  by_cases low : (newThread + 792) % 256 = 0
  · rw [strncpy_nothing low,writeAll,or_iff_right (not_not_intro low)]
  · rw [strncpy_text text apart low]
    exact iff_of_true named_copied (Or.inl low)

/-- A given name stands in the memory as it is. -/
theorem setName_given (image : Image) (m : Mem) (newThread ThreadID : Nat) (given : name ≠ 0) : (SetName image m newThread ThreadID name).1 = m ∧ image.title name = name := by
  rw [SetName,Image.title,if_neg given,if_neg given]
  exact ⟨rfl,rfl⟩

/-- In every run of the heap the blocks are at multiples of 16. -/
theorem live_aligned {k : Kernel} {live : List Nat} (run : Kernel.Run k live) (member : p ∈ live) : 16 ∣ p := by
  obtain ⟨bs,tracks⟩ := Kernel.run_tracks run
  obtain ⟨x,⟨b,starts,_⟩,rfl⟩ := (tracks.used p).mp member
  have rep := tracks.represents
  exact Nat.dvd_add (starts_dvd rep.aligned (by decide) rep.multiples starts) (by decide)

/-- A thread that the heap has a block for gets its name. -/
theorem heap_named {k : Kernel} {live : List Nat} (run : Kernel.Run k live) (member : newThread ∈ live)
    (text : Text (SetName image m newThread ThreadID name).1 (image.title name) s)
    (apart : Apart (newThread + 792) (min 64 (s.length + 1)) (image.title name) (s.length + 1)) :
    Named (writeAll (SetName image m newThread ThreadID name).1 (SetName image m newThread ThreadID name).2) newThread s := by
  have aligned := live_aligned run member
  exact (setName_iff text apart).mpr (.inl (by omega))

/-- `strcpy` and `strncpy` copy what they should unless the low byte of the destination is 0,
    and `SetName` leaves the given name unless `Name` is at such an address. -/
theorem strings_copied_iff (image : Image) (dest max newThread ThreadID : Nat) (text : Text m src s) (enough : s.length + 1 < fuel) :
    (Apart dest (s.length + 1) src (s.length + 1) →
      (strcpy m dest src fuel = some (copied dest s (s.length + 1)) ↔ dest % 256 ≠ 0)) ∧
    (Apart dest (min max (s.length + 1)) src (s.length + 1) →
      (strncpy m dest src max = copied dest s (min max (s.length + 1)) ↔ dest % 256 ≠ 0 ∨ max = 0)) ∧
    (src ≠ 0 → Apart (newThread + 792) (min 64 (s.length + 1)) src (s.length + 1) →
      (Named (writeAll m (SetName image m newThread ThreadID src).2) newThread s ↔
        (newThread + 792) % 256 ≠ 0 ∨ Named m newThread s)) := by
  refine ⟨fun apart => strcpy_iff text apart enough,fun apart => strncpy_iff text apart,?_⟩
  intro given apart
  obtain ⟨same,place⟩ := setName_given image m newThread ThreadID given
  have named : Named (writeAll (SetName image m newThread ThreadID src).1 (SetName image m newThread ThreadID src).2) newThread s ↔
      (newThread + 792) % 256 ≠ 0 ∨ Named (SetName image m newThread ThreadID src).1 newThread s :=
    setName_iff (by rw [same,place]; exact text) (by rw [place]; exact apart)
  rwa [same] at named

/-- "Hi" is copied to a destination with the low byte 1, and to the name of a thread at such an address. -/
theorem strings_copied_iff_hi : ∃ m : Mem, Text m 0x2000 [72,105] ∧
    strcpy m 0x1001 0x2000 4 = some (copied 0x1001 [72,105] 3) ∧
    strncpy m 0x1001 0x2000 2 = copied 0x1001 [72,105] 2 ∧
    Named (writeAll m (SetName ⟨0,0,fun _ m => m⟩ m 0x3001 1 0x2000).2) 0x3001 [72,105] := by
  have text : Text (place (fun _ => 0) 0x2000 [72,105]) 0x2000 [72,105] := text_place (by decide) rfl
  obtain ⟨whole,bounded,named⟩ := strings_copied_iff ⟨0,0,fun _ m => m⟩ 0x1001 2 0x3001 1 text
    (show [72,105].length + 1 < 4 by decide)
  exact ⟨_,text,(whole (.inl (by decide))).mpr (by decide),(bounded (.inl (by decide))).mpr (by decide),
    (named (by decide) (.inr (by decide))).mpr (.inl (by decide))⟩

/-- At 0x1000 neither writes anything, and a thread at 0x3be8 keeps the empty name that it was made with. -/
theorem strings_not_copied : ∃ m : Mem, Text m 0x2000 [72,105] ∧ Apart 0x1000 3 0x2000 3 ∧
    strcpy m 0x1000 0x2000 4 = some [] ∧ strncpy m 0x1000 0x2000 2 = [] ∧
    strncpy m 0x1000 0x2000 2 ≠ copied 0x1000 [72,105] (min 2 3) ∧ Apart (0x3be8 + 792) 3 0x2000 3 ∧
    ¬ Named (writeAll m (SetName ⟨0,0,fun _ m => m⟩ m 0x3be8 1 0x2000).2) 0x3be8 [72,105] := by
  have text : Text (place (fun _ => 0) 0x2000 [72,105]) 0x2000 [72,105] := text_place (by decide) rfl
  refine ⟨_,text,.inl (by decide),rfl,rfl,?_,.inr (by decide),?_⟩
  · intro same
    have count := congrArg List.length same
    rw [copied_length] at count
    exact absurd count (by decide)
  · intro named
    have first := named 0 (by decide)
    exact absurd first (by decide)

end WaifuOS.ThreadStacks
