import WaifuOS.RootListing
import WaifuOS.Texts

/-!
What `wstrTocstr` returns after other calls. Its buffer is not cleared, and the terminator
goes behind `len` characters also where the loop stops before, so that characters of earlier
calls show behind a string that is shorter. `narrows_iff` says when a string is narrowed
all the same, and for which strings no history of calls can show.
-/
namespace WaifuOS.FAT32
open WaifuOS.Bytes WaifuOS.cstr

/-- The low bytes of the first `len` units, up to a terminator. -/
def narrowed (wstr : WString) (len : Nat) : List (BitVec 8) := ((wstr.take len).map (BitVec.ofNat 8)).takeWhile (· ≠ 0)

/-- A call: a string and a length. -/
abbrev Conversion := WString × Nat

/-- The buffer, which starts cleared, after a history of calls. -/
def converted (history : List Conversion) : Mem := history.foldl (fun wcharBuffer call => wstrTocstr wcharBuffer call.1 call.2) (fun _ => 0)

/-- The lengths of the calls stay inside the buffer. -/
def Fitting (history : List Conversion) : Prop := ∀ call ∈ history, call.2 ≤ 255

variable {wcharBuffer : Mem} {wstr : WString} {x len : Nat}

theorem narrowed_proper (wstr : WString) (len : Nat) : 0 ∉ narrowed wstr len := by
  intro member
  exact absurd rfl (of_decide_eq_true (List.mem_takeWhile_imp (p := fun c => decide (c ≠ 0)) member))

theorem narrowed_length (wstr : WString) (len : Nat) : (narrowed wstr len).length ≤ len := by
  have stopped := (List.takeWhile_prefix (l := (wstr.take len).map (BitVec.ofNat 8)) (fun c => decide (c ≠ 0))).length_le
  rw [List.length_map,List.length_take] at stopped
  exact Nat.le_trans stopped (Nat.min_le_left _ _)

/-- The loop writes what is narrowed and no more. -/
theorem wstrTocstrLoop_eq : wstrTocstrLoop wstr x wcharBuffer len = place wcharBuffer x (narrowed (wstr.drop x) len) := by
  induction len generalizing wcharBuffer x with
  | zero => rw [wstrTocstrLoop,narrowed,List.take_zero,List.map_nil,List.takeWhile_nil,place_nil]
  | succ len ih =>
    rw [wstrTocstrLoop]
    by_cases inside : x < wstr.length
    · have rest : wstr.drop x = wstr.getD x 0 :: wstr.drop (x+1) := by
        rw [List.getD_eq_getElem _ _ inside]
        exact List.drop_eq_getElem_cons inside
      rw [rest,narrowed,List.take_succ_cons,List.map_cons,List.takeWhile_cons]
      by_cases zero : BitVec.ofNat 8 (wstr.getD x 0) = 0
      · simp only [if_pos zero]
        rw [if_neg (by rw [decide_eq_true_iff]; exact fun other => other zero),place_nil]
      · simp only [if_neg zero]
        rw [if_pos (by rw [decide_eq_true_iff]; exact zero),ih,place_cons]
        rfl
    · have ended : wstr.getD x 0 = 0 := List.getD_eq_default _ _ (by omega)
      rw [List.drop_eq_nil_iff.mpr (by omega),ended]
      simp [narrowed]

/-- A call narrows a string if and only if it goes on to its length, or the buffer held a terminator where the string ends. -/
theorem narrows (wcharBuffer : Mem) (wstr : WString) (len : Nat) : Text (wstrTocstr wcharBuffer wstr len) 0 (narrowed wstr len) ↔
    (narrowed wstr len).length = len ∨ wcharBuffer (narrowed wstr len).length = 0 := by
  have bound := narrowed_length wstr len
  rw [wstrTocstr,wstrTocstrLoop_eq,List.drop_zero]
  by_cases full : (narrowed wstr len).length = len
  · refine iff_of_true ?_ (Or.inl full)
    have ends := @place_snoc wcharBuffer 0 (narrowed wstr len) 0
    rw [Nat.zero_add,full] at ends
    rw [ends]
    refine ⟨narrowed_proper wstr len,?_⟩
    intro i upTo
    rw [Bytes.place_at (by rw [List.length_append,List.length_singleton]; omega)]
    by_cases last : i = (narrowed wstr len).length
    · rw [last,List.getD_append_right _ _ _ _ (Nat.le_refl _),Nat.sub_self,List.getD_eq_default _ _ (Nat.le_refl _)]
      rfl
    · exact List.getD_append _ _ _ _ (by omega)
  · rw [or_iff_right full]
    have stop : Function.update (place wcharBuffer 0 (narrowed wstr len)) len 0 (narrowed wstr len).length =
        wcharBuffer (narrowed wstr len).length := by
      rw [Function.update_of_ne full,Bytes.place_apart (by omega)]
    constructor
    · intro text
      have ends := text.terminated
      rwa [Nat.zero_add,stop] at ends
    · intro zero
      refine ⟨narrowed_proper wstr len,?_⟩
      intro i upTo
      by_cases last : i = (narrowed wstr len).length
      · rw [Nat.zero_add,last,stop,zero,List.getD_eq_default _ _ (Nat.le_refl _)]
      · rw [Function.update_of_ne (by omega),Bytes.place_at (by omega)]

/-- What `PrintRootDir` takes from the buffer is the narrowed name under the same condition. -/
theorem printed_iff (wcharBuffer : Mem) (wstr : WString) (len : Nat) :
    ((List.range len).map (wstrTocstr wcharBuffer wstr len)).takeWhile (· ≠ 0) = narrowed wstr len ↔
      (narrowed wstr len).length = len ∨ wcharBuffer (narrowed wstr len).length = 0 := by
  have returned := text_range (m := wstrTocstr wcharBuffer wstr len) (p := 0) (n := len)
    (by rw [Nat.zero_add]; exact Function.update_self _ _ _)
  simp only [Nat.zero_add] at returned
  rw [← narrows]
  constructor
  · intro same
    rwa [same] at returned
  · exact returned.unique

/-- A longer string before leaves a character where a shorter one ends. -/
theorem converted_longer (k : Nat) : converted [(List.replicate (k+1) 0x41,k+1)] k = 0x41 := by
  have whole : narrowed (List.replicate (k+1) 0x41) (k+1) = List.replicate (k+1) 0x41 := by
    rw [narrowed,List.take_of_length_le (by rw [List.length_replicate]),List.map_replicate,List.takeWhile_replicate]
    rfl
  have text := (narrows (fun _ => 0) (List.replicate (k+1) 0x41) (k+1)).mpr (Or.inl (by rw [whole,List.length_replicate]))
  rw [whole] at text
  have last := text.2 k (by rw [List.length_replicate]; omega)
  rw [Nat.zero_add,List.getD_eq_getElem _ _ (by rw [List.length_replicate]; omega),List.getElem_replicate] at last
  exact last

/-- After a history of calls, a string is narrowed if and only if it has `len` characters, or the buffer holds a terminator
    where it ends; and it is narrowed after every history if and only if it has `len` characters. -/
theorem narrows_iff (history : List Conversion) (wstr : WString) (short : len ≤ 255) :
    (Text (wstrTocstr (converted history) wstr len) 0 (narrowed wstr len) ↔
      (narrowed wstr len).length = len ∨ converted history (narrowed wstr len).length = 0) ∧
    ((∀ history, Fitting history → Text (wstrTocstr (converted history) wstr len) 0 (narrowed wstr len)) ↔
      (narrowed wstr len).length = len) := by
  refine ⟨narrows _ _ _,?_,fun full history _ => (narrows _ _ _).mpr (Or.inl full)⟩
  intro always
  by_contra early
  have bound := narrowed_length wstr len
  have fitting : Fitting [(List.replicate ((narrowed wstr len).length + 1) 0x41,(narrowed wstr len).length + 1)] := by
    intro call member
    rw [List.mem_singleton.mp member]
    exact Nat.le_trans (show (narrowed wstr len).length + 1 ≤ len by omega) short
  rcases (narrows _ _ _).mp (always _ fitting) with full | zero
  · exact early full
  · rw [converted_longer] at zero
    exact absurd zero (by decide)

theorem narrows_iff_pair : 2 ≤ 255 ∧
    (Text (wstrTocstr (converted [([0x43],1)]) [0x41,0x42] 2) 0 (narrowed [0x41,0x42] 2) ↔
      (narrowed [0x41,0x42] 2).length = 2 ∨ converted [([0x43],1)] (narrowed [0x41,0x42] 2).length = 0) ∧
    ((∀ history, Fitting history → Text (wstrTocstr (converted history) [0x41,0x42] 2) 0 (narrowed [0x41,0x42] 2)) ↔
      (narrowed [0x41,0x42] 2).length = 2) :=
  ⟨by decide,narrows_iff [([0x43],1)] [0x41,0x42] (by decide)⟩

/-- After `AB`, the string `C` of two characters at most comes out as `CB`. -/
theorem narrows_stale : Fitting [([0x41,0x42],2)] ∧
    ¬ Text (wstrTocstr (converted [([0x41,0x42],2)]) [0x43] 2) 0 (narrowed [0x43] 2) := by
  refine ⟨by unfold Fitting; decide,?_⟩
  intro text
  rcases (narrows _ _ _).mp text with full | zero
  · exact absurd full (by decide)
  · exact absurd zero (by decide)

end WaifuOS.FAT32
