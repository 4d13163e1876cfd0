import Mathlib.Algebra.BigOperators.Group.Finset.Basic
import WaifuOS.HeapGrowth

/-!
What `GetRemainingHeap` reports. Its walk adds up the lengths of the free segments,
each once; then the length of the last segment is added, which the walk has counted
already when it is free, and which is not free otherwise. So in no run it reports the
free bytes (`remainingHeap_never`).
-/
namespace WaifuOS.Kernel
open WaifuOS.Words WaifuOS.Bytes WaifuOS.Tiling

/-- The loop of `GetRemainingHeap` from a segment on. -/
def remainingLoop : Nat → Kernel → Nat → Nat → Option Nat
  | 0, _, _, _ => none
  | fuel+1, s, pos, nFreeBytes =>
    if pos ≠ 0 ∧ s.heapBase ≤ pos ∧ pos ≤ s.heapEnd then
      remainingLoop fuel s (s.Next pos) (if s.Free pos = true then wrap (nFreeBytes + s.Length pos) else nFreeBytes)
    else some nFreeBytes

/-- `GetRemainingHeap`; it halts where there is no heap. -/
def GetRemainingHeap (fuel : Nat) (s : Kernel) : Option Nat :=
  if s.heapBase = 0 then none
  else do
    let nFreeBytes ← remainingLoop fuel s s.heapBase 0
    if s.LastSegment ≠ 0 then some (wrap (s.Length s.LastSegment + nFreeBytes)) else some nFreeBytes

/-- The lengths of those segments that are free, added up. -/
def freeBytes (s : Kernel) (segs : Finset Nat) : Nat := segs.sum (fun seg => if s.Free seg = true then s.Length seg else 0)

/-- What it reports are the bytes of the free segments. -/
def Reports (s : Kernel) : Prop :=
  ∃ segs : Finset Nat, (∀ seg, seg ∈ segs ↔ Segment s seg) ∧ ∃ fuel, s.GetRemainingHeap fuel = some (freeBytes s segs)

variable {s : Kernel} {bs : List Block} {live : List Nat} {prev a fuel acc : Nat}

/-- The headers of a tiling. -/
def headers (a : Nat) : List Block → Finset Nat
  | [] => ∅
  | b :: bs => insert a (headers (a + 32 + b.len) bs)

theorem mem_headers (x : Nat) : x ∈ headers a bs ↔ ∃ b, Starts 32 a bs x b := by
  induction bs generalizing a with
  | nil => simp [headers,Starts]
  | cons b bs ih =>
    rw [headers,Finset.mem_insert,ih]
    constructor
    · rintro (rfl | ⟨c,starts⟩)
      · exact ⟨b,.inl ⟨rfl,rfl⟩⟩
      · exact ⟨c,.inr starts⟩
    · rintro ⟨c,⟨same,_⟩ | starts⟩
      · exact .inl same
      · exact .inr ⟨c,starts⟩

/-- The first header adds its length when it is free. -/
theorem freeBytes_headers (b : Block) : freeBytes s (headers a (b :: bs)) =
    (if s.Free a = true then s.Length a else 0) + freeBytes s (headers (a + 32 + b.len) bs) := by
  have fresh : a ∉ headers (a + 32 + b.len) bs := by
    rw [mem_headers]
    rintro ⟨c,starts⟩
    have low := starts_low starts
    omega
  exact Finset.sum_insert fresh

/-- The free bytes fit in the tiling. -/
theorem freeBytes_le (linked : Linked s.memory prev a 0 bs) : freeBytes s (headers a bs) ≤ extent 32 bs := by
  induction bs generalizing prev a with
  | nil => exact Nat.le_refl 0
  | cons b bs ih =>
    have rest := ih linked.2
    have length : s.Length a = b.len := linked.1.length
    rw [freeBytes_headers,extent_cons,length]
    split <;> omega

/-- The walk through the segments adds up what is free. -/
theorem remainingLoop_sum (linked : Linked s.memory prev a 0 bs) (based : 0 < s.heapBase) (low : s.heapBase ≤ a)
    (high : a + extent 32 bs ≤ s.heapEnd) (word : acc + freeBytes s (headers a bs) < 2^64) (k : Nat) :
    remainingLoop (bs.length + k + 1) s (after 0 a bs) acc = some (acc + freeBytes s (headers a bs)) := by
  induction bs generalizing prev a acc with
  | nil =>
    rw [remainingLoop,if_neg (fun both => both.1 rfl)]
    rfl
  | cons b bs ih =>
    obtain ⟨here,later⟩ := linked
    have next : s.Next a = after 0 (a + 32 + b.len) bs := here.next
    rw [freeBytes_headers] at word
    rw [extent_cons] at high
    rw [List.length_cons,show bs.length + 1 + k + 1 = (bs.length + k + 1) + 1 by omega,remainingLoop,after,
      if_pos ⟨by omega,low,by omega⟩,next,freeBytes_headers]
    split
    · rename_i free
      rw [if_pos free] at word
      rw [wrap_of_lt (by omega),ih later (by omega) (by omega) (by omega),Nat.add_assoc]
    · rename_i taken
      rw [if_neg taken] at word
      rw [ih later (by omega) (by omega) (by omega),Nat.zero_add]

/-- More fuel changes no result of the walk. -/
theorem remainingLoop_mono {pos result : Nat} (k : Nat) (returned : remainingLoop fuel s pos acc = some result) :
    remainingLoop (fuel+k) s pos acc = some result := by
  induction fuel generalizing pos acc with
  | zero => cases returned
  | succ fuel ih =>
    rw [remainingLoop] at returned
    rw [Nat.succ_add,remainingLoop]
    split
    · rw [if_pos ‹_›] at returned
      exact ih returned
    · rwa [if_neg ‹_›] at returned

theorem remainingHeap_mono {result : Nat} (k : Nat) (returned : s.GetRemainingHeap fuel = some result) :
    s.GetRemainingHeap (fuel+k) = some result := by
  rw [GetRemainingHeap] at returned ⊢
  split
  · rwa [if_pos ‹_›] at returned
  · rw [if_neg ‹_›] at returned
    simp only [Option.bind_eq_bind,Option.bind_eq_some_iff] at returned ⊢
    obtain ⟨sum,walked,rest⟩ := returned
    exact ⟨sum,remainingLoop_mono k walked,rest⟩

/-- The report is the free bytes and the length of the last segment. -/
theorem remainingHeap_eq (chain : Chain s bs) (k : Nat) : s.GetRemainingHeap (bs.length + k + 1) =
    some (wrap (s.Length s.LastSegment + freeBytes s (headers s.heapBase bs))) := by
  have based := chain.based
  have bounded := chain.bounded
  have ends := chain.ends
  have some_blocks := chain.nonempty
  have sum := freeBytes_le chain.linked
  have word : 0 + freeBytes s (headers s.heapBase bs) < 2^64 := by omega
  have walk := remainingLoop_sum chain.linked based (Nat.le_refl _) (Nat.le_of_eq ends.symm) word k
  have first : after 0 s.heapBase bs = s.heapBase := by
    cases bs with
    | nil => exact absurd rfl some_blocks
    | cons b bs => rfl
  obtain ⟨front,d,rfl⟩ := List.eq_nil_or_concat' bs |>.resolve_left some_blocks
  obtain ⟨last,_⟩ := lastSegment_eq chain
  rw [first,Nat.zero_add] at walk
  rw [GetRemainingHeap,if_neg (by omega),walk]
  exact if_pos (by omega)

/-- The walk does not end with the free bytes alone: the last segment is not empty. -/
theorem not_reports (rep : Represents s bs) : ¬ Reports s := by
  rintro ⟨segs,reached,fuel,reported⟩
  have chain := rep.chain
  have same : segs = headers s.heapBase bs :=
    Finset.ext (fun seg => ((reached seg).trans (segment_iff chain)).trans (mem_headers seg).symm)
  have more := remainingHeap_mono (bs.length + 1) reported
  rw [show fuel + (bs.length + 1) = bs.length + fuel + 1 by omega,remainingHeap_eq chain,same] at more
  have equal := Option.some.inj more
  have last := ((wellFormed_of_represents rep).last s.LastSegment).mpr rfl
  have nonzero := ((wellFormed_of_represents rep).lengths s.LastSegment last.1).1
  have word : s.Length s.LastSegment < 256^8 := load_lt s.memory s.LastSegment 8
  have sum := freeBytes_le chain.linked
  have bounded := chain.bounded
  have ends := chain.ends
  simp only [wrap] at equal
  omega

/-- In every run `GetRemainingHeap` adds the length of the last segment to the free
    bytes, so that it never reports the free bytes. -/
theorem remainingHeap_never (run : Run s live) :
    (∃ segs : Finset Nat, (∀ seg, seg ∈ segs ↔ Segment s seg) ∧ ∃ enough, ∀ fuel, enough ≤ fuel →
      s.GetRemainingHeap fuel = some (wrap (s.Length s.LastSegment + freeBytes s segs))) ∧ ¬ Reports s := by
  obtain ⟨bs,tracks⟩ := run_tracks run
  have chain := tracks.represents.chain
  refine ⟨⟨headers s.heapBase bs,fun seg => (mem_headers seg).trans (segment_iff chain).symm,bs.length + 1,fun fuel large => ?_⟩,
    not_reports tracks.represents⟩
  obtain ⟨k,rfl⟩ := Nat.exists_eq_add_of_le large
  rw [show bs.length + 1 + k = bs.length + k + 1 by omega]
  exact remainingHeap_eq chain k

theorem remainingHeap_never_cleared : ∃ s, Run s [0x100000000020] ∧ ¬ Reports s := by
  obtain ⟨s,run,_⟩ := cleared_blocks
  exact ⟨s,run,(remainingHeap_never run).2⟩

/-- The heap of the boot code right after `InitializeHeap`: its one free segment is the
    last one, and it is counted twice. -/
theorem cleared_counted_twice : ∃ s, Run s [0x100000000020] ∧ (∃ fuel, s.GetRemainingHeap fuel = some (2 * 0xfffffb0)) ∧
    freeBytes s {0x100000000000,0x100000000030} = 0xfffffb0 ∧ ¬ Reports s := by
  obtain ⟨s,run,rep,base,_⟩ := cleared_blocks
  have report := remainingHeap_eq rep.chain 0
  obtain ⟨first,second,_⟩ := rep.chain.linked
  rw [base] at first second
  have used : s.Free 0x100000000000 = false := first.free
  have free : s.Free 0x100000000030 = true := second.free
  have length : s.Length 0x100000000030 = 0xfffffb0 := second.length
  have last : s.LastSegment = 0x100000000030 := by
    rw [rep.chain.last,base]
    rfl
  have sum : freeBytes s {0x100000000000,0x100000000030} = 0xfffffb0 := by
    rw [freeBytes,Finset.sum_pair (by decide),if_neg (by rw [used]; decide),if_pos free,length]
  have both : headers s.heapBase [⟨0x10,false⟩,⟨0xfffffb0,true⟩] = {0x100000000000,0x100000000030} := by
    rw [base]
    rfl
  have twice : wrap (0xfffffb0 + 0xfffffb0) = 2 * 0xfffffb0 := wrap_of_lt (by decide)
  rw [both,sum,last,length,twice] at report
  exact ⟨s,run,⟨_,report⟩,sum,not_reports rep⟩

end WaifuOS.Kernel
