import WaifuOS.Bytes
import WaifuOS.Words
import WaifuOS.Overlays

/-!
How the bootloader loads the segments of the kernel (`main.c`). The program headers are in
memory, one behind the other at the distance that the file header gives. Each segment is
cleared and then read from the file, and its header is read again and again meanwhile. What
the firmware does is a parameter: it is assumed to leave the address and the memory when pages
are allocated, and to read what is asked for (`Firmware.Behaves`). Nothing in the code sees to
it that the segments are apart from the headers (`loadSegments_over`). As long as none lies
over what is read of them (`Undisturbed`), the segments are pieces that are laid over the
memory, so their order makes no difference. The end of the table is computed as an `int`, so
that its size has to be one, and its distance is not to be 0 (`loadSegments_loads`).
-/
namespace WaifuOS.Bootloader
open WaifuOS.Words WaifuOS.Bytes WaifuOS.Overlays

def PT_LOAD : Nat := 1

/-- The fields of a program header that the loop reads. -/
structure Elf64_Phdr where
  p_type : Nat
  p_offset : Nat
  p_paddr : Nat
  p_filesz : Nat
  p_memsz : Nat

def Elf64_Phdr.read (m : Mem) (phdr : Nat) : Elf64_Phdr where
  p_type := load m phdr 4
  p_offset := load m (phdr + 8) 8
  p_paddr := load m (phdr + 24) 8
  p_filesz := load m (phdr + 32) 8
  p_memsz := load m (phdr + 40) 8

/-- `AllocatePages` of a number of pages at an address, and `Read` from a position of the file of a
    number of bytes to a buffer. -/
structure Firmware where
  AllocatePages : BitVec 32 → Nat → Mem → Nat × Mem
  Read : Nat → Nat → Nat → Mem → Mem

/-- Where the headers were read to, and their number and distance. -/
structure ProgramHeaders where
  phdrs : Nat
  e_phnum : BitVec 16
  e_phentsize : BitVec 16

/-- The loop that clears a segment from `x` on, which compares with the size in the header in every round. -/
def zeroSegment (phdr segment : Nat) : Nat → Mem → Nat → Option Mem
  | 0, _, _ => none
  | fuel+1, m, x =>
    if x < (Elf64_Phdr.read m phdr).p_memsz then zeroSegment phdr segment fuel (Function.update m (segment + x) 0x00) (x+1)
    else some m

/-- One round of the loop. -/
def loadHeader (fw : Firmware) (fuel : Nat) (m : Mem) (phdr : Nat) : Option Mem :=
  let header := Elf64_Phdr.read m phdr
  if header.p_type = PT_LOAD then do
    let pages := BitVec.ofNat 32 (wrap (header.p_memsz + (0x1000 - 1)) / 0x1000)
    let (segment,m) := fw.AllocatePages pages header.p_paddr m
    let m ← zeroSegment phdr segment fuel m 0
    let header := Elf64_Phdr.read m phdr
    some (fw.Read header.p_offset header.p_filesz segment m)
  else some m

/-- The loop, with fuel for its rounds and fuel for those that clear a segment. -/
def loadLoop (fw : Firmware) (e_phentsize bytes : Nat) : Nat → Mem → Nat → Nat → Option Mem
  | 0, _, _, _ => none
  | fuel+1, m, phdr, stop =>
    if phdr < stop then do
      let m ← loadHeader fw bytes m phdr
      loadLoop fw e_phentsize bytes fuel m (phdr + e_phentsize) stop
    else some m

namespace ProgramHeaders

/-- The product of the two fields, which are promoted to `int`. -/
def size (t : ProgramHeaders) : Nat := t.e_phnum.toNat * t.e_phentsize.toNat

/-- The loop over the headers. A size that is no `int` is undefined and has no result. -/
def loadSegments (t : ProgramHeaders) (fw : Firmware) (fuel : Nat) (m : Mem) : Option Mem :=
  if t.size < 2^31 then loadLoop fw t.e_phentsize.toNat fuel fuel m t.phdrs (t.phdrs + t.size) else none

/-- The address of a header. -/
def header (t : ProgramHeaders) (i : Nat) : Nat := t.phdrs + i * t.e_phentsize.toNat

def headers (t : ProgramHeaders) (m : Mem) : List Elf64_Phdr := (List.range t.e_phnum.toNat).map fun i => .read m (t.header i)

/-- The headers that are to be loaded. -/
def segments (t : ProgramHeaders) (m : Mem) : List Elf64_Phdr := (t.headers m).filter fun h => h.p_type = PT_LOAD

/-- The bytes of the headers, 56 of each. -/
def Covers (t : ProgramHeaders) (x : Nat) : Prop := ∃ i, i < t.e_phnum.toNat ∧ t.header i ≤ x ∧ x < t.header i + 56

end ProgramHeaders

/-- The bytes of a header that the loop reads. -/
def Reads (phdr x : Nat) : Prop := phdr ≤ x ∧ x < phdr + 4 ∨ phdr + 8 ≤ x ∧ x < phdr + 16 ∨ phdr + 24 ≤ x ∧ x < phdr + 48

namespace Elf64_Phdr

/-- The bytes of a segment. -/
def Covers (h : Elf64_Phdr) (x : Nat) : Prop := h.p_paddr ≤ x ∧ x < h.p_paddr + h.p_memsz

instance (h : Elf64_Phdr) (x : Nat) : Decidable (h.Covers x) := inferInstanceAs (Decidable (_ ∧ _))

/-- What a byte of a segment is to be: a byte of the file, and 0 behind them. -/
def content (h : Elf64_Phdr) (file : Nat → BitVec 8) (i : Nat) : BitVec 8 := if i < h.p_filesz then file (h.p_offset + i) else 0

/-- The segment is in memory. -/
def Holds (h : Elf64_Phdr) (file : Nat → BitVec 8) (m : Mem) : Prop := ∀ i, i < h.p_memsz → m (h.p_paddr + i) = h.content file i

/-- The segment as a piece that is laid over the memory. -/
def piece (h : Elf64_Phdr) (file : Nat → BitVec 8) : Piece Nat (BitVec 8) := fun x =>
  if h.Covers x then some (h.content file (x - h.p_paddr)) else none

end Elf64_Phdr

/-- Pages are allocated where they were asked for and hold what they held, and what is read are the bytes of the file. -/
structure Firmware.Behaves (fw : Firmware) (file : Nat → BitVec 8) : Prop where
  allocates : ∀ pages address m, fw.AllocatePages pages address m = (address,m)
  delivers : ∀ position size buffer m, fw.Read position size buffer m = fill m buffer size (fun i => file (position + i))

/-- No segment lies over what is read of the headers. -/
def ProgramHeaders.Undisturbed (t : ProgramHeaders) (m : Mem) : Prop :=
  ∀ h ∈ t.segments m, ∀ i, i < t.e_phnum.toNat → ∀ x, Reads (t.header i) x → ¬ h.Covers x

/-- No segment has more bytes in the file than in memory, and none has a byte in common with another one. -/
structure ProgramHeaders.Loadable (t : ProgramHeaders) (m : Mem) : Prop where
  fits : ∀ h ∈ t.segments m, h.p_filesz ≤ h.p_memsz
  disjoint : (t.segments m).Pairwise fun h k => ∀ x, h.Covers x → ¬ k.Covers x

/-- `m'` has the segments, and `m` outside of them. -/
structure ProgramHeaders.Image (t : ProgramHeaders) (file : Nat → BitVec 8) (m m' : Mem) : Prop where
  segments : ∀ h ∈ t.segments m, h.Holds file m'
  outside : ∀ x, (∀ h ∈ t.segments m, ¬ h.Covers x) → m' x = m x

/-- The loop ends with the segments loaded, and with the same memory, but for the headers themselves, when these stand in
    another order. -/
def ProgramHeaders.Loads (t : ProgramHeaders) (fw : Firmware) (file : Nat → BitVec 8) (m : Mem) : Prop :=
  ∃ fuel m', t.loadSegments fw fuel m = some m' ∧ t.Image file m m' ∧
    ∀ m₂, (t.headers m₂).Perm (t.headers m) → (∀ x, ¬ t.Covers x → m₂ x = m x) →
      ∃ fuel m₂', t.loadSegments fw fuel m₂ = some m₂' ∧
        ∀ x, ¬ t.Covers x → m₂' x = m' x

variable {fw : Firmware} {file : Nat → BitVec 8} {m m' : Mem} {t : ProgramHeaders} {h : Elf64_Phdr} {phdr segment fuel i n x : Nat}

/-- A header is what is read of it. -/
theorem read_congr (same : ∀ x, Reads phdr x → m' x = m x) : Elf64_Phdr.read m' phdr = Elf64_Phdr.read m phdr := by
  have field : ∀ offset k, (∀ x, phdr + offset ≤ x → x < phdr + offset + k → Reads phdr x) →
      load m' (phdr + offset) k = load m (phdr + offset) k :=
    fun offset k inside => load_congr fun x low high => same x (inside x low high)
  simp only [Elf64_Phdr.read]
  rw [field 8 8 (fun x low high => by unfold Reads; omega),field 24 8 (fun x low high => by unfold Reads; omega),
    field 32 8 (fun x low high => by unfold Reads; omega),field 40 8 (fun x low high => by unfold Reads; omega),
    show load m' phdr 4 = load m phdr 4 from field 0 4 (fun x low high => by unfold Reads; omega)]

/-- A range that is apart from a header leaves it. -/
theorem read_fill {a k : Nat} {f : Nat → BitVec 8} (apart : ∀ x, Reads phdr x → ¬ (a ≤ x ∧ x < a + k)) :
    Elf64_Phdr.read (fill m a k f) phdr = Elf64_Phdr.read m phdr :=
  read_congr fun x inside => fill_apart (by have outside := apart x inside; omega)

/-- A segment that is apart from its header is cleared from `x` on. -/
theorem zeroSegment_rest (count : (Elf64_Phdr.read m phdr).p_memsz = x + n) (apart : ∀ y, Reads phdr y → ¬ (segment ≤ y ∧ y < segment + (x + n)))
    (enough : n < fuel) :
    zeroSegment phdr segment fuel (fill m segment x (fun _ => 0)) x = some (fill m segment (x + n) (fun _ => 0)) := by
  induction n generalizing x fuel with
  | zero =>
    obtain ⟨fuel,rfl⟩ := Nat.exists_eq_succ_of_ne_zero (Nat.ne_of_gt enough)
    rw [Nat.add_zero] at count apart ⊢
    rw [zeroSegment,read_fill apart,count,if_neg (Nat.lt_irrefl x)]
  | succ n ih =>
    obtain ⟨fuel,rfl⟩ := Nat.exists_eq_succ_of_ne_zero (Nat.ne_of_gt (Nat.zero_lt_of_lt enough))
    have same : Elf64_Phdr.read (fill m segment x (fun _ => 0)) phdr = Elf64_Phdr.read m phdr :=
      read_fill fun y inside covers => apart y inside ⟨covers.1,by omega⟩
    have longer : Function.update (fill m segment x (fun _ => 0)) (segment + x) 0x00 = fill m segment (x+1) (fun _ => 0) := by
      funext y
      by_cases here : y = segment + x
      · rw [here,Function.update_self,fill_at (by omega) (by omega)]
      · rw [Function.update_of_ne here,fill,fill]
        by_cases before : segment ≤ y ∧ y < segment + x
        · rw [if_pos before,if_pos (by omega)]
        · rw [if_neg before,if_neg (by omega)]
    rw [zeroSegment,same,count,if_pos (by omega),longer,show x + (n+1) = x + 1 + n by omega]
    exact ih (by omega) (fun y inside covers => apart y inside ⟨covers.1,by omega⟩) (by omega)

theorem zeroSegment_eq (apart : ∀ x, Reads phdr x → ¬ (segment ≤ x ∧ x < segment + (Elf64_Phdr.read m phdr).p_memsz)) (enough : 2^64 ≤ fuel) :
    zeroSegment phdr segment fuel m 0 = some (fill m segment (Elf64_Phdr.read m phdr).p_memsz (fun _ => 0)) := by
  have word : (Elf64_Phdr.read m phdr).p_memsz < 256^8 := load_lt m (phdr + 40) 8
  have rest := @zeroSegment_rest m phdr segment fuel _ 0 (Nat.zero_add _).symm (by rwa [Nat.zero_add]) (by omega)
  rwa [fill_zero,Nat.zero_add] at rest

/-- A segment that is cleared and then read is its piece. -/
theorem fill_piece (fits : h.p_filesz ≤ h.p_memsz) (m : Mem) : fill (fill m h.p_paddr h.p_memsz (fun _ => 0)) h.p_paddr h.p_filesz
    (fun i => file (h.p_offset + i)) = put (h.piece file) m := by
  funext x
  by_cases covers : h.Covers x
  · obtain ⟨low,high⟩ := covers
    have value : h.piece file x = some (h.content file (x - h.p_paddr)) := if_pos ⟨low,high⟩
    rw [put_some value,Elf64_Phdr.content]
    split
    · rw [fill_at low (by omega)]
    · rw [fill_apart (by omega),fill_at low high]
  · have none : h.piece file x = none := if_neg covers
    rw [Elf64_Phdr.Covers] at covers
    rw [put_none none,fill_apart (by omega),fill_apart (by omega)]

/-- A header whose segment is apart from it lays the segment over the memory, and another one does nothing. -/
theorem loadHeader_eq (behaves : fw.Behaves file) (enough : 2^64 ≤ fuel) (fits : (Elf64_Phdr.read m phdr).p_type = PT_LOAD →
      (Elf64_Phdr.read m phdr).p_filesz ≤ (Elf64_Phdr.read m phdr).p_memsz)
    (apart : (Elf64_Phdr.read m phdr).p_type = PT_LOAD → ∀ x, Reads phdr x → ¬ (Elf64_Phdr.read m phdr).Covers x) :
    loadHeader fw fuel m phdr =
      some (if (Elf64_Phdr.read m phdr).p_type = PT_LOAD then put ((Elf64_Phdr.read m phdr).piece file) m else m) := by
  simp only [loadHeader,behaves.allocates]
  split
  · next load =>
    rw [zeroSegment_eq (apart load) enough]
    simp only [Option.bind_eq_bind,Option.bind_some]
    rw [read_fill (apart load),behaves.delivers,fill_piece (fits load)]
  · rfl

namespace ProgramHeaders

/-- The headers before one, as far as they are to be loaded. -/
def before (t : ProgramHeaders) (m : Mem) (i : Nat) : List Elf64_Phdr :=
  ((List.range i).map fun i => Elf64_Phdr.read m (t.header i)).filter fun h => h.p_type = PT_LOAD

/-- The memory when the loop comes to a header. -/
def reached (t : ProgramHeaders) (file : Nat → BitVec 8) (m : Mem) (i : Nat) : Mem := overlay ((t.before m i).map fun h => h.piece file) m

theorem mem_before (inside : i ≤ t.e_phnum.toNat) (member : h ∈ t.before m i) : h ∈ t.segments m := by
  have shorter : (List.range i).Sublist (List.range t.e_phnum.toNat) := List.range_sublist.mpr inside
  exact ((shorter.map _).filter _).subset member

theorem before_succ (t : ProgramHeaders) (m : Mem) (i : Nat) : t.before m (i+1) =
    if (Elf64_Phdr.read m (t.header i)).p_type = PT_LOAD then t.before m i ++ [Elf64_Phdr.read m (t.header i)] else t.before m i := by
  rw [before,List.range_succ,List.map_append,List.filter_append,← before]
  split
  · next load => simp [load]
  · next other => simp [other]

/-- A byte outside of every segment is as it was. -/
theorem reached_outside (inside : i ≤ t.e_phnum.toNat) {x : Nat} (outside : ∀ h ∈ t.segments m, ¬ h.Covers x) :
    t.reached file m i x = m x := by
  apply overlay_none
  intro p member
  obtain ⟨h,before,rfl⟩ := List.mem_map.mp member
  exact if_neg (outside h (mem_before inside before))

/-- The headers stay as they are read. -/
theorem reached_header (undisturbed : t.Undisturbed m) (inside : i < t.e_phnum.toNat) :
    Elf64_Phdr.read (t.reached file m i) (t.header i) = Elf64_Phdr.read m (t.header i) :=
  read_congr fun x reads => reached_outside (Nat.le_of_lt inside) fun h member => undisturbed h member i inside x reads

theorem mem_segments (inside : i < t.e_phnum.toNat) (load : (Elf64_Phdr.read m (t.header i)).p_type = PT_LOAD) :
    Elf64_Phdr.read m (t.header i) ∈ t.segments m := by
  rw [segments,List.mem_filter,headers,List.mem_map]
  exact ⟨⟨i,List.mem_range.mpr inside,rfl⟩,decide_eq_true load⟩

/-- A round of the loop. -/
theorem reached_succ (behaves : fw.Behaves file) (undisturbed : t.Undisturbed m) (loadable : t.Loadable m) (enough : 2^64 ≤ fuel)
    (inside : i < t.e_phnum.toNat) : loadHeader fw fuel (t.reached file m i) (t.header i) = some (t.reached file m (i+1)) := by
  have round := @loadHeader_eq fw file (t.reached file m i) (t.header i) fuel behaves enough
  rw [reached_header undisturbed inside] at round
  rw [round (fun load => loadable.fits _ (mem_segments inside load))
    (fun load x reads => undisturbed _ (mem_segments inside load) i inside x reads),reached,reached,before_succ]
  split
  · rw [List.map_append,List.map_singleton,overlay_concat]
  · rfl

/-- The loop from a header on. -/
theorem loadLoop_rest (behaves : fw.Behaves file) (undisturbed : t.Undisturbed m) (loadable : t.Loadable m) (distance : 0 < t.e_phentsize.toNat)
    {bytes : Nat} (enough : 2^64 ≤ bytes) (left : i + n = t.e_phnum.toNat) (rounds : n < fuel) :
    loadLoop fw t.e_phentsize.toNat bytes fuel (t.reached file m i) (t.header i) (t.phdrs + t.size) =
      some (t.reached file m t.e_phnum.toNat) := by
  induction n generalizing i fuel with
  | zero =>
    obtain ⟨fuel,rfl⟩ := Nat.exists_eq_succ_of_ne_zero (Nat.ne_of_gt rounds)
    have last : i = t.e_phnum.toNat := by omega
    rw [loadLoop,last,header,size,if_neg (Nat.lt_irrefl _)]
  | succ n ih =>
    obtain ⟨fuel,rfl⟩ := Nat.exists_eq_succ_of_ne_zero (Nat.ne_of_gt (Nat.zero_lt_of_lt rounds))
    have before : t.header i < t.phdrs + t.size := by
      rw [header,size]
      exact Nat.add_lt_add_left (Nat.mul_lt_mul_of_pos_right (by omega) distance) _
    have next : t.header i + t.e_phentsize.toNat = t.header (i+1) := by
      rw [header,header,Nat.succ_mul,Nat.add_assoc]
    rw [loadLoop,if_pos before,reached_succ behaves undisturbed loadable enough (by omega),next]
    exact ih (by omega) (by omega)

/-- The loop lays the segments over the memory. -/
theorem loadSegments_overlay (behaves : fw.Behaves file) (undisturbed : t.Undisturbed m) (loadable : t.Loadable m)
    (distance : 0 < t.e_phentsize.toNat) (small : t.size < 2^31) :
    ∃ fuel, t.loadSegments fw fuel m = some (overlay ((t.segments m).map fun h => h.piece file) m) := by
  have first : t.header 0 = t.phdrs := by rw [header,Nat.zero_mul,Nat.add_zero]
  obtain ⟨fuel,enough,rounds⟩ : ∃ fuel, 2^64 ≤ fuel ∧ t.e_phnum.toNat < fuel := ⟨2^64 + t.e_phnum.toNat + 1,by omega,by omega⟩
  have rest := loadLoop_rest behaves undisturbed loadable distance enough (Nat.zero_add _) rounds
  rw [first] at rest
  refine ⟨fuel,?_⟩
  rw [loadSegments,if_pos small]
  exact rest

/-- Without a distance it ends at once. -/
theorem loadSegments_still (still : t.e_phentsize.toNat = 0) (small : t.size < 2^31) (fuel : Nat) :
    t.loadSegments fw (fuel+1) m = some m := by
  have empty : t.size = 0 := by rw [size,still,Nat.mul_zero]
  rw [loadSegments,if_pos small,loadLoop,empty,Nat.add_zero,if_neg (Nat.lt_irrefl _)]

theorem Loadable.pieces (loadable : t.Loadable m) (file : Nat → BitVec 8) :
    ((t.segments m).map fun h => h.piece file).Pairwise Apart := by
  apply loadable.disjoint.map _
  intro h k disjoint x
  by_cases covers : h.Covers x
  · exact .inr (if_neg (disjoint x covers))
  · exact .inl (if_neg covers)

theorem overlay_image (loadable : t.Loadable m) (file : Nat → BitVec 8) :
    t.Image file m (overlay ((t.segments m).map fun h => h.piece file) m) where
  segments := by
    intro h member i inside
    have covers : h.Covers (h.p_paddr + i) := ⟨by omega,by omega⟩
    have value : h.piece file (h.p_paddr + i) = some (h.content file i) := by
      rw [Elf64_Phdr.piece,if_pos covers,Nat.add_sub_cancel_left]
    exact overlay_some (loadable.pieces file) (List.mem_map_of_mem member) value
  outside x outside := reached_outside (Nat.le_refl _) outside

theorem Undisturbed.perm {m₂ : Mem} (undisturbed : t.Undisturbed m) (perm : (t.headers m₂).Perm (t.headers m)) : t.Undisturbed m₂ :=
  fun h member => undisturbed h ((perm.filter _).mem_iff.mp member)

/-- Headers in another order are loadable too. -/
theorem Loadable.perm {m₂ : Mem} (loadable : t.Loadable m) (perm : (t.headers m₂).Perm (t.headers m)) : t.Loadable m₂ := by
  have segments : (t.segments m₂).Perm (t.segments m) := perm.filter _
  refine ⟨fun h member => loadable.fits h (segments.mem_iff.mp member),?_⟩
  have symm : ∀ {h k : Elf64_Phdr}, (∀ x, h.Covers x → ¬ k.Covers x) → ∀ x, k.Covers x → ¬ h.Covers x :=
    fun disjoint x covers covers' => disjoint x covers' covers
  exact (segments.pairwise_iff symm).mpr loadable.disjoint

theorem loads_of_small (behaves : fw.Behaves file) (undisturbed : t.Undisturbed m) (loadable : t.Loadable m)
    (distance : 0 < t.e_phentsize.toNat) (small : t.size < 2^31) : t.Loads fw file m := by
  obtain ⟨fuel,loaded⟩ := loadSegments_overlay behaves undisturbed loadable distance small
  refine ⟨fuel,_,loaded,overlay_image loadable file,?_⟩
  intro m₂ perm same
  obtain ⟨fuel,loaded⟩ := loadSegments_overlay behaves (undisturbed.perm perm) (loadable.perm perm) distance small
  exact ⟨fuel,_,loaded,fun x outside =>
    overlay_perm ((loadable.perm perm).pieces file) ((perm.filter _).map _) fun _ => same x outside⟩

/-- Without a distance the segments are to be there already. -/
theorem loads_of_still (still : t.e_phentsize.toNat = 0) (there : ∀ h ∈ t.segments m, h.Holds file m) : t.Loads fw file m := by
  have small : t.size < 2^31 := by
    rw [size,still,Nat.mul_zero]
    decide
  refine ⟨1,m,loadSegments_still still small 0,⟨there,fun _ _ => rfl⟩,?_⟩
  intro m₂ _ same
  exact ⟨1,m₂,loadSegments_still still small 0,same⟩

/-- A header at 0x1000, of a segment at 0x100000000 with one byte in the file and two in memory. -/
def oneSegment : Mem := fun x =>
  if x = 0x1000 then 1 else if x = 0x101c then 1 else if x = 0x1020 then 1 else if x = 0x1028 then 2 else 0

/-- A firmware for a file of one byte again and again. -/
def plainFirmware : Firmware where
  AllocatePages := fun _ address m => (address,m)
  Read := fun _ size buffer m => fill m buffer size (fun _ => 0x90)

theorem plainFirmware_behaves : plainFirmware.Behaves (fun _ => 0x90) := ⟨fun _ _ _ => rfl,fun _ _ _ _ => rfl⟩

/-- There is nothing to load behind the first header. -/
theorem oneSegment_type {a : Nat} (behind : 0x1029 ≤ a) : (Elf64_Phdr.read oneSegment a).p_type = 0 := by
  have zero : load oneSegment a 4 = load (fun _ => 0) a 4 := load_congr fun x low _ => by
    rw [oneSegment,if_neg (by omega),if_neg (by omega),if_neg (by omega),if_neg (by omega)]
  rw [Elf64_Phdr.read,zero]
  simp [load]

theorem oneSegment_segments (start : t.phdrs = 0x1000) (count : t.e_phnum.toNat = n + 1) (distance : 0x29 ≤ t.e_phentsize.toNat) :
    t.segments oneSegment = [⟨1,0,0x100000000,1,2⟩] := by
  have first : Elf64_Phdr.read oneSegment (t.header 0) = ⟨1,0,0x100000000,1,2⟩ := by
    rw [header,start,Nat.zero_mul]
    rfl
  have others : (((List.range n).map Nat.succ).map fun i => Elf64_Phdr.read oneSegment (t.header i)).filter
      (fun h => h.p_type = PT_LOAD) = [] := by
    rw [List.filter_eq_nil_iff]
    intro h member
    obtain ⟨i,later,rfl⟩ := List.mem_map.mp member
    obtain ⟨j,_,rfl⟩ := List.mem_map.mp later
    have behind : 0x1029 ≤ t.header (j+1) := by
      rw [header,start,Nat.succ_mul]
      omega
    rw [oneSegment_type behind]
    decide
  rw [segments,headers,count,List.range_succ_eq_map,List.map_cons,first,List.filter_cons_of_pos (by decide),others]

/-- Its segment can be loaded wherever the headers are below it. -/
theorem oneSegment_loadable (only : t.segments oneSegment = [⟨1,0,0x100000000,1,2⟩]) : t.Loadable oneSegment := by
  constructor
  · intro h member
    rw [only,List.mem_singleton] at member
    subst member
    decide
  · rw [only]
    exact List.pairwise_singleton _ _

theorem oneSegment_undisturbed (only : t.segments oneSegment = [⟨1,0,0x100000000,1,2⟩])
    (low : ∀ i, i < t.e_phnum.toNat → t.header i + 48 ≤ 0x100000000) : t.Undisturbed oneSegment := by
  intro h member i inside x reads covers
  rw [only,List.mem_singleton] at member
  subst member
  have below := low i inside
  have above : 0x100000000 ≤ x := covers.1
  simp only [Reads] at reads
  omega

/-- One header at the distance of its size, and as many as there can be at a distance of 2^15 + 1. -/
def oneHeader : ProgramHeaders := ⟨0x1000,1,56⟩
def farHeaders : ProgramHeaders := ⟨0x1000,0xFFFF,0x8001⟩

/-- A header at 0x1000 of a segment that lies over `p_filesz`, with one byte in the file and two in memory. -/
def ownSegment : Mem := fun x =>
  if x = 0x1000 then 1 else if x = 0x1018 then 0x20 else if x = 0x1019 then 0x10 else if x = 0x1020 then 1 else if x = 0x1028 then 2 else 0

/-- The size in the file is cleared before it is read, so that nothing is read. -/
theorem loadHeader_over :
    loadHeader plainFirmware (fuel+3) ownSegment 0x1000 = some (Function.update (Function.update ownSegment 0x1020 0) 0x1021 0) := by
  have cleared : zeroSegment 0x1000 0x1020 (fuel+3) ownSegment 0 = some (Function.update (Function.update ownSegment 0x1020 0) 0x1021 0) := by
    rw [zeroSegment,if_pos (by decide),zeroSegment,if_pos (by decide),zeroSegment,if_neg (by decide)]
  have address : (Elf64_Phdr.read ownSegment 0x1000).p_paddr = 0x1020 := by decide
  have size : (Elf64_Phdr.read (Function.update (Function.update ownSegment 0x1020 0) 0x1021 0) 0x1000).p_filesz = 0 := by decide
  simp only [loadHeader,plainFirmware,address,cleared,Option.bind_eq_bind,Option.bind_some,size,fill_zero]
  rw [if_pos (by decide)]

/-- A segment that lies over its own header is not loaded, although the size of the table is an `int` and its distance is not 0. -/
theorem loadSegments_over : oneHeader.Loadable ownSegment ∧ ¬ oneHeader.Loads plainFirmware (fun _ => 0x90) ownSegment := by
  have only : oneHeader.segments ownSegment = [⟨1,0,0x1020,1,2⟩] := by rfl
  constructor
  · constructor
    · intro h member
      rw [only,List.mem_singleton] at member
      subst member
      decide
    · rw [only]
      exact List.pairwise_singleton _ _
  · rintro ⟨fuel,m',loaded,image,_⟩
    have first : m' 0x1020 = 0x90 := image.segments ⟨1,0,0x1020,1,2⟩ (by rw [only]; exact List.mem_singleton_self _) 0 (by decide)
    have long : 3 ≤ fuel := by
      by_contra short
      have few : fuel = 0 ∨ fuel = 1 ∨ fuel = 2 := by omega
      rcases few with rfl | rfl | rfl <;> cases loaded
    obtain ⟨fuel,rfl⟩ := Nat.exists_eq_add_of_le' long
    rw [loadSegments,if_pos (by decide),show oneHeader.phdrs = 0x1000 from rfl,loadLoop,if_pos (by decide),loadHeader_over] at loaded
    simp only [Option.bind_eq_bind,Option.bind_some] at loaded
    rw [loadLoop,if_neg (by decide)] at loaded
    cases loaded
    revert first
    decide

end ProgramHeaders

end WaifuOS.Bootloader
