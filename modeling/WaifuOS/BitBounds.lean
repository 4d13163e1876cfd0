import WaifuOS.PageFrames

/-!
Where `Get` and `Set` of a bitmap touch memory. The functions are run here on a buffer whose
bytes outside the bitmap cannot be touched: a run that would touch one has no result, and
every other run ends as in `BitMap.lean` (`getWithin_eq`, `setWithin_eq`). The guard
lets exactly one index too many through, the number of bits itself, so the operations
on a page touch the byte behind the bitmap when that is the number of the page.
-/
namespace WaifuOS
open WaifuOS.Words

namespace BitMap

/-- `Buffer[i]`. -/
def byteWithin (bm : BitMap) (i : Nat) : Option (BitVec 8) := if i < bm.SizeBytes then some (bm.Buffer i) else none

def GetWithin (bm : BitMap) (index : Nat) : Option Bool :=
  if index > wrap (bm.SizeBytes * 8) then some false
  else do
    let byteIndex := index / 8
    let bitIndex := index % 8
    let bitVal : BitVec 8 := (1#8 <<< 7) >>> bitIndex
    let byte ← bm.byteWithin byteIndex
    some (byte &&& bitVal != 0#8)

/-- Both assignments of `Set` read the byte and write it. -/
def SetWithin (bm : BitMap) (index : Nat) (value : Bool) : Option (Bool × BitMap) :=
  if index > wrap (bm.SizeBytes * 8) then some (false,bm)
  else do
    let byteIndex := index / 8
    let bitIndex := index % 8
    let bitVal : BitVec 8 := (BitVec.ofNat 8 value.toNat <<< 7) >>> bitIndex
    let byte ← bm.byteWithin byteIndex
    let bm := { bm with Buffer := Function.update bm.Buffer byteIndex (byte &&& ~~~((1#8 <<< 7) >>> bitIndex)) }
    let byte ← bm.byteWithin byteIndex
    some (true,{ bm with Buffer := Function.update bm.Buffer byteIndex (byte ||| bitVal) })

/-- The index is refused, or its byte is one of the bitmap. -/
def Guarded (bm : BitMap) (index : Nat) : Prop := wrap (bm.SizeBytes * 8) < index ∨ index / 8 < bm.SizeBytes

instance (bm : BitMap) (index : Nat) : Decidable (bm.Guarded index) := inferInstanceAs (Decidable (_ ∨ _))

variable {bm : BitMap} {index : Nat}

/-- The bound is let through, and it is the first index behind the bits. -/
theorem guarded_iff (word : index < 2^64) : bm.Guarded index ↔ index ≠ bm.SizeBytes * 8 := by
  simp only [Guarded,wrap]
  omega

theorem getWithin_eq (bm : BitMap) (index : Nat) :
    bm.GetWithin index = if bm.Guarded index then some (bm.Get index) else none := by
  by_cases refused : wrap (bm.SizeBytes * 8) < index
  · rw [GetWithin,if_pos refused,if_pos (.inl refused),get_of_gt refused]
  · rw [GetWithin,Get,if_neg refused,if_neg refused]
    by_cases inside : index / 8 < bm.SizeBytes
    · simp [Guarded,byteWithin,inside]
    · simp [Guarded,byteWithin,inside,Nat.not_lt.mp refused]

theorem setWithin_eq (bm : BitMap) (index : Nat) (value : Bool) :
    bm.SetWithin index value = if bm.Guarded index then some (bm.Set index value) else none := by
  by_cases refused : wrap (bm.SizeBytes * 8) < index
  · rw [SetWithin,if_pos refused,if_pos (.inl refused),set_of_gt refused]
  · rw [SetWithin,Set,if_neg refused,if_neg refused]
    by_cases inside : index / 8 < bm.SizeBytes
    · simp [Guarded,byteWithin,inside]
    · simp [Guarded,byteWithin,inside,Nat.not_lt.mp refused]

end BitMap

namespace PageFrameAllocator

def setPageWithin (account : Account) (s : PageFrameAllocator) (address : Nat) : Option PageFrameAllocator := do
  let index := address / PAGE_SIZE
  if ← s.PageBitmap.GetWithin index then some s
  else
    let (done,_) ← s.PageBitmap.SetWithin index true
    if done then some ((s.setBit index true).charge account) else some s

def clearPageWithin (account : Account) (s : PageFrameAllocator) (address : Nat) : Option PageFrameAllocator := do
  let index := address / PAGE_SIZE
  if !(← s.PageBitmap.GetWithin index) then some s
  else
    let (done,_) ← s.PageBitmap.SetWithin index false
    if done then
      let s := (s.setBit index false).refund account
      if s.LastPageIndex > index then some { s with LastPageIndex := index } else some s
    else some s

variable {s : PageFrameAllocator} {account : Account} {address : Nat}

theorem setPageWithin_eq (account : Account) (s : PageFrameAllocator) (address : Nat) : setPageWithin account s address =
    if s.PageBitmap.Guarded (address / PAGE_SIZE) then some (setPage account s address) else none := by
  simp only [setPageWithin,setPage,BitMap.getWithin_eq,BitMap.setWithin_eq]
  by_cases guarded : s.PageBitmap.Guarded (address / PAGE_SIZE)
  · simp only [if_pos guarded,Option.bind_eq_bind,Option.bind_some]
    split
    · rfl
    · split <;> rfl
  · simp only [if_neg guarded]
    rfl

theorem clearPageWithin_eq (account : Account) (s : PageFrameAllocator) (address : Nat) : clearPageWithin account s address =
    if s.PageBitmap.Guarded (address / PAGE_SIZE) then some (clearPage account s address) else none := by
  simp only [clearPageWithin,clearPage,BitMap.getWithin_eq,BitMap.setWithin_eq]
  by_cases guarded : s.PageBitmap.Guarded (address / PAGE_SIZE)
  · simp only [if_pos guarded,Option.bind_eq_bind,Option.bind_some]
    split
    · rfl
    · split
      · split <;> rfl
      · rfl
  · simp only [if_neg guarded]
    rfl

end PageFrameAllocator

namespace BitMap

/-- What the guard is for: `Get` and `Set` stay inside the bitmap, and `Set` refuses every index behind its bits. -/
def GuardHolds (bm : BitMap) (index : Nat) : Prop :=
  (bm.GetWithin index).isSome ∧ ∀ value, (bm.SetWithin index value).isSome ∧
    (bm.SizeBytes * 8 ≤ index → bm.Set index value = (false,bm))

theorem guardHolds_iff {bm : BitMap} {index : Nat} (word : index < 2^64) : bm.GuardHolds index ↔ index ≠ bm.SizeBytes * 8 := by
  rw [← guarded_iff word]
  simp only [GuardHolds]
  simp only [getWithin_eq,setWithin_eq]
  by_cases guarded : bm.Guarded index
  · simp only [guarded,if_true,Option.isSome_some,true_and,iff_true]
    intro value behind
    apply set_of_gt
    rcases guarded with refused | inside
    · exact refused
    · omega
  · simp [guarded]

end BitMap

/-- The guard fails at the number of bits and nowhere else; so the operations on a page stay inside the
    bitmap unless the number of the page is the number of bits. -/
theorem bitmap_guard (bm : BitMap) (s : PageFrameAllocator) (account : PageFrameAllocator.Account) {index address : Nat}
    (word : index < 2^64) (word' : address < 2^64) :
    (bm.GuardHolds index ↔ index ≠ bm.SizeBytes * 8) ∧
      ((s.setPageWithin account address).isSome ↔ address / PAGE_SIZE ≠ s.PageBitmap.SizeBytes * 8) ∧
      ((s.clearPageWithin account address).isSome ↔ address / PAGE_SIZE ≠ s.PageBitmap.SizeBytes * 8) := by
  have page : address / PAGE_SIZE < 2^64 := by unfold PAGE_SIZE; omega
  rw [← BitMap.guarded_iff page,PageFrameAllocator.setPageWithin_eq,PageFrameAllocator.clearPageWithin_eq]
  refine ⟨BitMap.guardHolds_iff word,?_⟩
  by_cases guarded : s.PageBitmap.Guarded (address / PAGE_SIZE)
  · simp [guarded]
  · simp [guarded]

/-- The last bit of a bitmap of one byte, and the page of its address. -/
theorem bitmap_guard_seven : BitMap.GuardHolds ⟨1,0,fun _ => 0⟩ 7 ∧
    (PageFrameAllocator.setPageWithin .Reserved ⟨⟨1,0,fun _ => 0⟩,true,0,0,0,0,by decide⟩ 0x7000).isSome := by
  obtain ⟨guard,set,_⟩ := bitmap_guard ⟨1,0,fun _ => 0⟩ ⟨⟨1,0,fun _ => 0⟩,true,0,0,0,0,by decide⟩ .Reserved
    (show 7 < 2^64 by decide) (show 0x7000 < 2^64 by decide)
  exact ⟨guard.mpr (by decide),set.mpr (by decide)⟩

/-- The index 8 of a bitmap of one byte. -/
theorem bitmap_guard_fails : ¬ ∀ (bm : BitMap) (index : Nat), index < 2^64 → bm.GuardHolds index := by
  intro holds
  have guarded := holds ⟨1,0,fun _ => 0#8⟩ 8 (by decide)
  rw [BitMap.guardHolds_iff (by decide)] at guarded
  exact guarded rfl

end WaifuOS
