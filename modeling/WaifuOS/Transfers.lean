import WaifuOS.AHCI
import WaifuOS.PageFrames

/-!
What a transfer asks a device for, and what it copies. It is cut into parts of the size of the
port's buffer, and each command is for one of them (`readSectors_parts`). A device that
fails no more than once for a buffer lets every transfer through (`readSectors_retried`):
`Read` copies the sectors that it is asked for and asks for no others (`read_complete`).

`ReadBytes` rounds its count up by always adding a sector. When that fills the last buffer,
it copies that sector too (`readBytes_exact_iff`), and when the bytes end with their last
sector, it asks for the one behind it (`readBytes_needed_iff`).
-/
namespace WaifuOS.AHCI
open WaifuOS.Words WaifuOS.Bytes

/-- The port that `AddPort` makes. -/
def AddPort (mBuffer : Nat → BitVec 8) : ATAPort := { mBuffer, mBufferSize := PAGE_SIZE, mMutex := false, issued := [] }

theorem addPort_buffered (mBuffer : Nat → BitVec 8) : Buffered (AddPort mBuffer) 8 false := ⟨rfl,rfl⟩

/-- The command is for the part `k` of a transfer through a buffer of `b` sectors. -/
def Command.IsPart (sector sectorCount b k : Nat) (c : Command) : Prop :=
  c.sector = wrap (sector + b * k) ∧ c.fis.count = min b (sectorCount - b * k)

/-- The command asks for sectors among the `count` ones from `sector` on. -/
def Command.Within (sector count : Nat) (c : Command) : Prop := sector ≤ c.sector ∧ c.sector + c.fis.count ≤ sector + count

variable {device : Device} {p p' : ATAPort} {m m' : Mem} {b sector sectorCount bytecount buffer n k : Nat} {done : Bool} {c : Command}

/-- Parts of what is left behind the first one. -/
theorem isPart_succ (later : c.IsPart (wrap (sector + b)) (sectorCount - b) b k) : c.IsPart sector sectorCount b (k+1) := by
  have round : b * (k+1) = b + b * k := by rw [Nat.mul_succ,Nat.add_comm]
  constructor
  · rw [later.1,wrap_wrap_add,round,Nat.add_assoc]
  · rw [later.2,round,Nat.sub_sub]

/-- Filling the buffer takes one command or two, for the same sectors. -/
theorem fillTwice_issued (device : Device) (buffered : Buffered p b true) (small : b < 2^16) (sector : Nat) :
    ∃ filled p' new, p.fillTwice device sector = (filled,p') ∧ Buffered p' b true ∧ p'.issued = p.issued ++ new ∧ new ≠ [] ∧
      ∀ c ∈ new, c.sector = sector ∧ c.fis.count = b := by
  have count : (FIS_REG_H2D.readDmaEX sector b).count = b := count_readDmaEX small
  obtain ⟨first,p₁,issued₁,_,buffered₁,grown₁,_⟩ := issue_reads device buffered sector small (b * SECTOR_SIZE - 1)
  rw [ATAPort.fillTwice,readFillBuffer_locked buffered small,issued₁]
  cases first with
  | true =>
    refine ⟨true,p₁,_,rfl,buffered₁,grown₁,List.cons_ne_nil _ _,?_⟩
    intro c member
    cases List.mem_singleton.mp member
    exact ⟨rfl,count⟩
  | false =>
    obtain ⟨second,p₂,issued₂,_,buffered₂,grown₂,_⟩ := issue_reads device buffered₁ sector small (b * SECTOR_SIZE - 1)
    refine ⟨second,p₂,[_,_],?_,buffered₂,by rw [grown₂,grown₁,List.append_assoc]; rfl,List.cons_ne_nil _ _,?_⟩
    · simp [readFillBuffer_locked buffered₁ small,issued₂]
    · intro c member
      rcases List.mem_cons.mp member with rfl | later
      · exact ⟨rfl,count⟩
      · cases List.mem_singleton.mp later
        exact ⟨rfl,count⟩

/-- The commands of the loop are for its rounds, and when it gets through there is one for each of them. -/
theorem fillLoop_parts (device : Device) (buffered : Buffered p b true) (small : b < 2^16) (word : sector < 2^64) (inside : b * n ≤ sectorCount)
    (m : Mem) (buffer : Nat) : ∃ filled p' m' sector' buffer' new,
      p.fillLoop device b m sector buffer n = (filled,p',m',sector',buffer') ∧ Buffered p' b true ∧ p'.issued = p.issued ++ new ∧
      (∀ c ∈ new, ∃ k < n, c.IsPart sector sectorCount b k) ∧
      (filled = true → sector' = wrap (sector + b * n) ∧ ∀ k < n, ∃ c ∈ new, c.IsPart sector sectorCount b k) := by
  induction n generalizing p m sector sectorCount buffer with
  | zero =>
    refine ⟨true,p,m,sector,buffer,[],rfl,buffered,(List.append_nil _).symm,fun c member => (by cases member),fun _ => ⟨?_,?_⟩⟩
    · rw [Nat.mul_zero,Nat.add_zero,wrap_of_lt word]
    · intro k none
      omega
  | succ n ih =>
    have product : b * (n+1) = b + b * n := by rw [Nat.mul_succ,Nat.add_comm]
    obtain ⟨filled,p₁,new₁,done,buffered₁,grown₁,some_command,asked₁⟩ := fillTwice_issued device buffered small sector
    have first : ∀ c ∈ new₁, c.IsPart sector sectorCount b 0 := by
      intro c member
      obtain ⟨place,count⟩ := asked₁ c member
      constructor
      · rw [place,Nat.mul_zero,Nat.add_zero,wrap_of_lt word]
      · rw [count,Nat.mul_zero,Nat.sub_zero]
        omega
    rw [ATAPort.fillLoop,done]
    cases filled with
    | false =>
      refine ⟨false,p₁,m,sector,buffer,new₁,rfl,buffered₁,grown₁,fun c member => ⟨0,by omega,first c member⟩,?_⟩
      intro none
      cases none
    | true =>
      have inside' : b * n ≤ sectorCount - b := by omega
      obtain ⟨filled,p',m',sector',buffer',new₂,looped,buffered',grown₂,asked₂,all₂⟩ := ih buffered₁ (wrap_lt (sector + b)) inside'
        (fill m buffer p₁.mBufferSize p₁.mBuffer) (buffer + p₁.mBufferSize)
      refine ⟨filled,p',m',sector',buffer',new₁ ++ new₂,looped,buffered',by rw [grown₂,grown₁,List.append_assoc],fun c member => ?_,
        fun through => ?_⟩
      · rcases List.mem_append.mp member with here | later
        · exact ⟨0,by omega,first c here⟩
        · obtain ⟨k,less,part⟩ := asked₂ c later
          exact ⟨k+1,by omega,isPart_succ part⟩
      · obtain ⟨sectors,each⟩ := all₂ through
        refine ⟨by rw [sectors,wrap_wrap_add,product,Nat.add_assoc],?_⟩
        intro k less
        cases k with
        | zero =>
          obtain ⟨c,member⟩ := List.exists_mem_of_ne_nil new₁ some_command
          exact ⟨c,List.mem_append_left _ member,first c member⟩
        | succ k =>
          obtain ⟨c,member,part⟩ := each k (by omega)
          exact ⟨c,List.mem_append_right _ member,isPart_succ part⟩

/-- The parts of a transfer are its whole ones, and what is left behind them. -/
theorem part_cases (pos : 0 < b) : b * k < sectorCount ↔ k < sectorCount / b ∨ (k = sectorCount / b ∧ sectorCount % b ≠ 0) := by
  have parts := Nat.div_add_mod sectorCount b
  have whole : k < sectorCount / b ↔ b * k + b ≤ sectorCount := by
    rw [← Nat.succ_le_iff,Nat.le_div_iff_mul_le pos,Nat.succ_mul,Nat.mul_comm]
  constructor
  · intro inside
    by_cases less : k < sectorCount / b
    · exact .inl less
    · have same : k = sectorCount / b := by
        refine Nat.le_antisymm ((Nat.le_div_iff_mul_le pos).mpr ?_) (by omega)
        rw [Nat.mul_comm]
        omega
      refine .inr ⟨same,?_⟩
      rw [same] at inside
      omega
  · rintro (less | ⟨rfl,more⟩)
    · have := whole.mp less
      omega
    · omega

/-- Every command of a transfer is for one of its parts, and when the transfer succeeds there is one for each part. -/
theorem readSectors_parts {tail : Nat → Nat → Nat} (buffered : Buffered p b false) (small : b < 2^16) (pos : 0 < b)
    (word : sector < 2^64) (returned : p.readSectors device m sector sectorCount tail buffer = some (done,p',m')) :
    ∃ new, p'.issued = p.issued ++ new ∧ (∀ c ∈ new, ∃ k, b * k < sectorCount ∧ c.IsPart sector sectorCount b k) ∧
      (done = true → ∀ k, b * k < sectorCount → ∃ c ∈ new, c.IsPart sector sectorCount b k) := by
  obtain ⟨locked,buffered₀,same,whole⟩ := readSectors_eq device tail buffered pos m sector sectorCount buffer
  obtain ⟨filled,p₁,m₁,sector₁,buffer₁,new,looped,buffered₁,grown,asked,all⟩ := fillLoop_parts device buffered₀ small word
    (Nat.mul_div_le sectorCount b) m buffer
  rw [same] at grown
  rw [whole,looped] at returned
  have asked' : ∀ c ∈ new, ∃ k, b * k < sectorCount ∧ c.IsPart sector sectorCount b k := by
    intro c member
    obtain ⟨k,less,part⟩ := asked c member
    exact ⟨k,(part_cases pos).mpr (.inl less),part⟩
  cases filled with
  | false =>
    cases returned
    exact ⟨new,grown,asked',fun none => (by cases none)⟩
  | true =>
    obtain ⟨place,each⟩ := all rfl
    by_cases last : sectorCount % b = 0
    · simp only [if_pos last] at returned
      cases returned
      refine ⟨new,grown,asked',fun _ k inside => each k ?_⟩
      exact ((part_cases pos).mp inside).resolve_right (fun rest => rest.2 last)
    · have less : sectorCount % b < 2^16 := Nat.lt_trans (Nat.mod_lt _ pos) small
      obtain ⟨completed,p₂,issued,_,_,grown₂,_⟩ := issue_reads device buffered₁ sector₁ less (sectorCount % b * SECTOR_SIZE - 1)
      simp only [if_neg last,issued] at returned
      have isLast : Command.IsPart sector sectorCount b (sectorCount / b) ⟨sector₁,.readDmaEX sector₁ (sectorCount % b),
          sectorCount % b * SECTOR_SIZE - 1⟩ := by
        have parts := Nat.div_add_mod sectorCount b
        have rest := Nat.mod_lt sectorCount pos
        refine ⟨place,(count_readDmaEX less).trans ?_⟩
        omega
      have commands : p'.issued = p.issued ++ (new ++ [⟨sector₁,.readDmaEX sector₁ (sectorCount % b),sectorCount % b * SECTOR_SIZE - 1⟩]) := by
        rw [← List.append_assoc,← grown,← grown₂]
        cases completed <;> cases returned <;> rfl
      refine ⟨_,commands,?_,?_⟩
      · intro c member
        rcases List.mem_append.mp member with earlier | here
        · exact asked' c earlier
        · cases List.mem_singleton.mp here
          exact ⟨_,(part_cases pos).mpr (.inr ⟨rfl,last⟩),isLast⟩
      · intro _ k inside
        rcases (part_cases pos).mp inside with less | ⟨rfl,_⟩
        · obtain ⟨c,member,part⟩ := each k less
          exact ⟨c,List.mem_append_left _ member,part⟩
        · exact ⟨_,List.mem_append_right _ (List.mem_singleton_self _),isLast⟩

/-- The device reads the sector that the port names. A command that fills the buffer completes at the latest
    when it is issued again, and every other one completes. -/
structure Retried (device : Device) (b : Nat) : Prop where
  lba : ∀ c, device.lba c = c.sector
  fills : ∀ earlier c, c.fis.count = b → device.completes earlier c = false → device.completes (earlier ++ [c]) c = true
  rest : ∀ earlier c, c.fis.count ≠ b → device.completes earlier c = true

/-- The device reads the sector that the port names, and every command completes. -/
structure Working (device : Device) : Prop where
  lba : ∀ c, device.lba c = c.sector
  completes : ∀ earlier c, device.completes earlier c = true

theorem Working.retried (working : Working device) (b : Nat) : Retried device b :=
  ⟨working.lba,fun _ c _ _ => working.completes _ c,fun _ c _ => working.completes _ c⟩

/-- The bytes from a sector on. -/
def stored (device : Device) (sector i : Nat) : BitVec 8 := device.data (sector * SECTOR_SIZE + i)

/-- The buffer is filled, at the second try if not at the first. -/
theorem fillTwice_retried (retried : Retried device b) (buffered : Buffered p b true) (small : b < 2^16) (sector : Nat) :
    ∃ p', p.fillTwice device sector = (true,p') ∧ Buffered p' b true ∧
      ∀ i, i < b * SECTOR_SIZE → p'.mBuffer i = stored device sector i := by
  obtain ⟨first,p₁,issued₁,answer₁,buffered₁,grown₁,read₁⟩ := issue_reads device buffered sector small (b * SECTOR_SIZE - 1)
  rw [ATAPort.fillTwice,readFillBuffer_locked buffered small,issued₁]
  cases first with
  | true =>
    refine ⟨p₁,rfl,buffered₁,?_⟩
    intro i inside
    rw [read₁ rfl i inside (by omega),retried.lba]
    rfl
  | false =>
    obtain ⟨second,p₂,issued₂,answer₂,buffered₂,_,read₂⟩ := issue_reads device buffered₁ sector small (b * SECTOR_SIZE - 1)
    have again : second = true := by
      rw [answer₂,grown₁]
      exact retried.fills _ _ (count_readDmaEX small) answer₁.symm
    subst again
    refine ⟨p₂,?_,buffered₂,?_⟩
    · simp [readFillBuffer_locked buffered₁ small,issued₂]
    · intro i inside
      rw [read₂ rfl i inside (by omega),retried.lba]
      rfl

/-- The sector that a round comes to is kept in 64 bits. -/
theorem transferred_wrap (pos : 0 < b) :
    transferred device wrap b (wrap (sector + b)) = fun i => transferred device wrap b sector (b * SECTOR_SIZE + i) := by
  funext i
  rw [← transferred_round pos,transferred,transferred,wrap_wrap_add]

/-- The loop gets through, and has copied its rounds. -/
theorem fillLoop_retried (retried : Retried device b) (buffered : Buffered p b true) (small : b < 2^16) (pos : 0 < b)
    (word : sector < 2^64) (m : Mem) (buffer : Nat) : ∃ p', p.fillLoop device b m sector buffer n =
      (true,p',fill m buffer (n * (b * SECTOR_SIZE)) (transferred device wrap b sector),wrap (sector + b * n),
        buffer + n * (b * SECTOR_SIZE)) ∧ Buffered p' b true := by
  induction n generalizing p m sector buffer with
  | zero =>
    refine ⟨p,?_,buffered⟩
    rw [ATAPort.fillLoop,Nat.zero_mul,fill_zero,Nat.mul_zero,Nat.add_zero,Nat.add_zero,wrap_of_lt word]
  | succ n ih =>
    obtain ⟨p₁,done,buffered₁,read⟩ := fillTwice_retried retried buffered small sector
    obtain ⟨p',looped,buffered'⟩ := ih buffered₁ (wrap_lt (sector + b)) (fill m buffer p₁.mBufferSize p₁.mBuffer) (buffer + p₁.mBufferSize)
    refine ⟨p',?_,buffered'⟩
    have product : b * (n+1) = b + b * n := by rw [Nat.mul_succ,Nat.add_comm]
    have bytes : (n+1) * (b * SECTOR_SIZE) = b * SECTOR_SIZE + n * (b * SECTOR_SIZE) := by rw [Nat.succ_mul,Nat.add_comm]
    have copied : fill m buffer (b * SECTOR_SIZE) p₁.mBuffer = fill m buffer (b * SECTOR_SIZE) (transferred device wrap b sector) :=
      fill_congr (fun i inside => by rw [read i inside,transferred_first inside,wrap_of_lt word,stored])
    rw [ATAPort.fillLoop,done]
    simp only [Bool.not_true,Bool.false_eq_true,if_false]
    rw [looped,buffered₁.size,copied,transferred_wrap pos,fill_append,wrap_wrap_add,bytes,product,Nat.add_assoc,Nat.add_assoc]

/-- A transfer succeeds and has copied its parts. -/
theorem readSectors_retried (tail : Nat → Nat → Nat) (retried : Retried device b) (buffered : Buffered p b false) (small : b < 2^16)
    (pos : 0 < b) (word : sector < 2^64)
    (short : sectorCount % b ≠ 0 → tail (b * (sectorCount / b)) (sectorCount % b) ≤ sectorCount % b * SECTOR_SIZE)
    (m : Mem) (buffer : Nat) : ∃ p', p.readSectors device m sector sectorCount tail buffer =
      some (true,p',fill m buffer (copied b sectorCount (tail (b * (sectorCount / b)) (sectorCount % b)))
        (transferred device wrap b sector)) := by
  obtain ⟨locked,buffered₀,_,whole⟩ := readSectors_eq device tail buffered pos m sector sectorCount buffer
  obtain ⟨p₁,looped,buffered₁⟩ := fillLoop_retried (n := sectorCount / b) retried buffered₀ small pos word m buffer
  have rest := Nat.mod_lt sectorCount pos
  rw [whole,looped]
  by_cases last : sectorCount % b = 0
  · refine ⟨p₁.Unlock,?_⟩
    simp only [if_pos last,copied,Nat.add_zero]
  · have less : sectorCount % b < 2^16 := Nat.lt_trans rest small
    obtain ⟨completed,p₂,issued,answer,_,_,read⟩ := issue_reads device buffered₁ (wrap (sector + b * (sectorCount / b))) less
      (sectorCount % b * SECTOR_SIZE - 1)
    have completes : completed = true := by
      rw [answer]
      apply retried.rest _ _
      rw [count_readDmaEX less]
      omega
    subst completes
    refine ⟨p₂.Unlock,?_⟩
    have short := short last
    have inside : sectorCount % b * SECTOR_SIZE ≤ b * SECTOR_SIZE := Nat.mul_le_mul_right _ (Nat.le_of_lt rest)
    simp only [if_neg last,issued,copied]
    rw [← fill_append]
    refine congrArg (fun m => some (true,p₂.Unlock,m)) (fill_congr ?_)
    intro i small
    rw [read rfl i (by omega) (by omega),transferred_at (by omega),retried.lba]

/-- As long as no part starts behind 2^64, the bytes of a transfer follow each other on the disk. -/
theorem transferred_stored {i : Nat} (fits : sector + 8 * (i / 4096) < 2^64) :
    transferred device wrap 8 sector i = stored device sector i := by
  have size : 8 * SECTOR_SIZE = 4096 := by decide
  have place : (sector + 8 * (i / 4096)) * SECTOR_SIZE + i % 4096 = sector * SECTOR_SIZE + i := by
    simp only [SECTOR_SIZE]
    omega
  rw [transferred,size,wrap_of_lt fits,place,stored]

theorem within_of_part (part : c.IsPart sector sectorCount 8 k) (inside : 8 * k < sectorCount) (fits : sector + 8 * k < 2^64) :
    c.Within sector sectorCount := by
  obtain ⟨place,count⟩ := part
  rw [wrap_of_lt fits] at place
  constructor <;> omega

/-- On a device that fails at most once for a buffer, `Read` succeeds, copies the sectors that it is asked for, and
    asks for no others. -/
theorem read_complete (retried : Retried device 8) (ready : Buffered p 8 false) (some_sectors : 1 ≤ sectorCount)
    (small : sectorCount ≤ 65535) (range : sector + sectorCount < 2^48) (m : Mem) (buffer : Nat) :
    ∃ p' new, p.Read device m sector sectorCount buffer =
        some (true,p',fill m buffer (sectorCount * SECTOR_SIZE) (stored device sector)) ∧
      p'.issued = p.issued ++ new ∧ ∀ c ∈ new, c.Within sector sectorCount := by
  have pos : sectorCount ≠ 0 := by omega
  have word : sector < 2^64 := by omega
  obtain ⟨p',returned⟩ := readSectors_retried (fun _ rest => rest * SECTOR_SIZE) retried ready (by decide) (by decide) word
    (fun _ => Nat.le_refl _) m buffer
  obtain ⟨new,grown,asked,_⟩ := readSectors_parts ready (by decide) (by decide) word returned
  refine ⟨p',new,?_,grown,?_⟩
  · rw [ATAPort.Read,if_neg pos,returned,copied_sectors]
    refine congrArg (fun m => some (true,p',m)) (fill_congr (fun i inside => transferred_stored ?_))
    simp only [SECTOR_SIZE] at inside
    omega
  · intro c member
    obtain ⟨k,inside,part⟩ := asked c member
    exact within_of_part part inside (by omega)

/-- A device that completes every second command that fills the buffer. -/
def flaky : Device := ⟨fun x => BitVec.ofNat 8 (x / SECTOR_SIZE),Command.sector,fun earlier c => c.fis.count != 8 || earlier.length % 2 == 1⟩

theorem read_complete_flaky : ∃ p' new, (AddPort (fun _ => 0)).Read flaky (fun _ => 0) 5 9 0x1000 =
      some (true,p',fill (fun _ => 0) 0x1000 (9 * SECTOR_SIZE) (stored flaky 5)) ∧
    p'.issued = [] ++ new ∧ ∀ c ∈ new, c.Within 5 9 := by
  have retried : Retried flaky 8 := by
    refine ⟨fun _ => rfl,?_,?_⟩
    · intro earlier c _ failed
      simp only [flaky,Bool.or_eq_false_iff,beq_eq_false_iff_ne] at failed
      simp only [flaky,List.length_append,List.length_singleton,Bool.or_eq_true,beq_iff_eq]
      right
      omega
    · intro earlier c other
      simp only [flaky,Bool.or_eq_true,bne_iff_ne]
      exact .inl other
  exact read_complete retried (addPort_buffered _) (by decide) (by decide) (by decide) (fun _ => 0) 0x1000

/-! ### Reading bytes -/

/-- On every device whose commands all complete, `ReadBytes` copies the first bytes from the sector on and writes
    nothing else. -/
def ReadsExactly (sector bytecount : Nat) : Prop :=
  ∀ device p m buffer, Working device → Buffered p 8 false → ∃ p',
    p.ReadBytes device m sector bytecount buffer = some (true,p',fill m buffer bytecount (stored device sector))

/-- On every device, `ReadBytes` asks for sectors only that hold one of the bytes. -/
def RequestsNeeded (sector bytecount : Nat) : Prop :=
  ∀ device p m buffer done p' m', Buffered p 8 false → p.ReadBytes device m sector bytecount buffer = some (done,p',m') →
    ∃ new, p'.issued = p.issued ++ new ∧ ∀ c ∈ new, c.Within sector ((bytecount + 511) / SECTOR_SIZE)

/-- What `ReadBytes` copies when every command completes. -/
theorem readBytes_working (working : Working device) (ready : Buffered p 8 false) (word : sector < 2^64) (some_bytes : 1 ≤ bytecount)
    (small : bytecount < 2^32) (m : Mem) (buffer : Nat) : ∃ p', p.ReadBytes device m sector bytecount buffer =
      some (true,p',fill m buffer (copiedBytes 8 bytecount) (transferred device wrap 8 sector)) := by
  have pos : bytecount ≠ 0 := by omega
  obtain ⟨p',returned⟩ := readSectors_retried (fun read _ => (bytecount + 2^32 - read * SECTOR_SIZE) % 2^32) (working.retried 8) ready
    (by decide) (by decide) word (bytes_left_short small) m buffer
  refine ⟨p',?_⟩
  rw [ATAPort.ReadBytes,if_neg pos,← copied_bytes small]
  exact returned

/-- A call that reads exactly its bytes copies no others into an empty memory. -/
theorem ReadsExactly.copied (exact_bytes : ReadsExactly sector bytecount) (working : Working device) (word : sector < 2^64)
    (some_bytes : 1 ≤ bytecount) (small : bytecount < 2^32) :
    fill (fun _ => 0) 0 (copiedBytes 8 bytecount) (transferred device wrap 8 sector) = fill (fun _ => 0) 0 bytecount (stored device sector) := by
  have ready := addPort_buffered (fun _ => 0)
  obtain ⟨p',returned⟩ := readBytes_working working ready word some_bytes small (fun _ => 0) 0
  obtain ⟨q',expected⟩ := exact_bytes _ _ (fun _ => 0) 0 working ready
  rw [returned] at expected
  simp only [Option.some.injEq,Prod.mk.injEq,true_and] at expected
  exact expected.2

/-- Memory behind the bytes is overwritten when the additional sector fills the buffer. -/
theorem readBytes_overrun (word : sector < 2^64) (some_bytes : 1 ≤ bytecount) (small : bytecount < 2^32)
    (full : (bytecount / SECTOR_SIZE + 1) % 8 = 0) : ¬ ReadsExactly sector bytecount := by
  intro exact_bytes
  have working : Working ⟨fun _ => 1,Command.sector,fun _ _ => true⟩ := ⟨fun _ => rfl,fun _ _ => rfl⟩
  have copied := exact_bytes.copied working word some_bytes small
  have more : bytecount < copiedBytes 8 bytecount := by
    rw [copiedBytes,if_pos full]
    simp only [SECTOR_SIZE]
    omega
  have byte := congrFun copied bytecount
  rw [fill_at (Nat.zero_le _) (by omega),fill_apart (by omega)] at byte
  have one : (1 : BitVec 8) = 0 := byte
  exact absurd one (by decide)

/-- A part behind 2^64 is read from the start of the disk. -/
theorem readBytes_wrapped (word : sector < 2^64) (some_bytes : 1 ≤ bytecount) (small : bytecount < 2^32)
    (far : 2^64 ≤ sector + 8 * ((bytecount - 1) / 4096)) : ¬ ReadsExactly sector bytecount := by
  intro exact_bytes
  have working : Working ⟨fun x => if x < 2^64 * SECTOR_SIZE then 0 else 1,Command.sector,fun _ _ => true⟩ :=
    ⟨fun _ => rfl,fun _ _ => rfl⟩
  have copied := exact_bytes.copied working word some_bytes small
  have enough : bytecount ≤ copiedBytes 8 bytecount := by
    unfold copiedBytes SECTOR_SIZE
    split <;> omega
  have inside : 4096 * ((bytecount - 1) / 4096) < bytecount := by omega
  have size : 8 * SECTOR_SIZE = 4096 := by decide
  have byte := congrFun copied (4096 * ((bytecount - 1) / 4096))
  rw [fill_at (Nat.zero_le _) (by omega),fill_at (Nat.zero_le _) (by omega),Nat.sub_zero,transferred,stored,size,Nat.mul_mod_right,
    Nat.mul_div_cancel_left _ (by decide)] at byte
  have low := wrap_lt (sector + 8 * ((bytecount - 1) / 4096))
  have near : wrap (sector + 8 * ((bytecount - 1) / 4096)) * SECTOR_SIZE + 0 < 2^64 * SECTOR_SIZE := by
    simp only [SECTOR_SIZE]
    omega
  have beyond : ¬ sector * SECTOR_SIZE + 4096 * ((bytecount - 1) / 4096) < 2^64 * SECTOR_SIZE := by
    simp only [SECTOR_SIZE]
    omega
  simp only [if_pos near,if_neg beyond] at byte
  exact absurd byte (by decide)

/-- `ReadBytes` reads exactly its bytes unless the sector that it adds fills the last buffer, as long as no part of
    them starts behind 2^64. -/
theorem readBytes_exact_iff (word : sector < 2^64) (some_bytes : 1 ≤ bytecount) (small : bytecount < 2^32) :
    ReadsExactly sector bytecount ↔
      (bytecount / SECTOR_SIZE + 1) % 8 ≠ 0 ∧ sector + 8 * ((bytecount - 1) / 4096) < 2^64 := by
  constructor
  · intro exact_bytes
    refine ⟨fun full => readBytes_overrun word some_bytes small full exact_bytes,?_⟩
    by_contra far
    exact readBytes_wrapped word some_bytes small (by omega) exact_bytes
  · rintro ⟨short,near⟩ device p m buffer working ready
    obtain ⟨p',returned⟩ := readBytes_working working ready word some_bytes small m buffer
    refine ⟨p',?_⟩
    rw [returned,copiedBytes,if_neg short]
    refine congrArg (fun m => some (true,p',m)) (fill_congr (fun i inside => transferred_stored ?_))
    omega

theorem readBytes_exact_iff_page : ReadsExactly 8 4096 :=
  (readBytes_exact_iff (by decide) (by decide) (by decide)).mpr ⟨by decide,by decide⟩

/-- The byte behind the 3584 ones that are asked for is overwritten. -/
theorem readBytes_overwrites : ¬ ReadsExactly 0 3584 ∧ ∃ p' m', (AddPort (fun _ => 0)).ReadBytes ⟨fun _ => 1,Command.sector,fun _ _ => true⟩
    (fun _ => 0) 0 3584 0 = some (true,p',m') ∧ m' 3584 = 1 := by
  refine ⟨readBytes_overrun (by decide) (by decide) (by decide) (by decide),?_⟩
  have working : Working ⟨fun _ => 1,Command.sector,fun _ _ => true⟩ := ⟨fun _ => rfl,fun _ _ => rfl⟩
  obtain ⟨p',returned⟩ := readBytes_working working (addPort_buffered (fun _ => 0)) (show 0 < 2^64 by decide) (show 1 ≤ 3584 by decide)
    (by decide) (fun _ => 0) 0
  exact ⟨p',_,returned,fill_at (Nat.zero_le _) (by decide)⟩

/-! ### Needed sectors -/

/-- The parts of a call of `ReadBytes`. -/
theorem readBytes_parts (ready : Buffered p 8 false) (word : sector < 2^64) (some_bytes : 1 ≤ bytecount)
    (returned : p.ReadBytes device m sector bytecount buffer = some (done,p',m')) :
    ∃ new, p'.issued = p.issued ++ new ∧
      (∀ c ∈ new, ∃ k, 8 * k < bytecount / SECTOR_SIZE + 1 ∧ c.IsPart sector (bytecount / SECTOR_SIZE + 1) 8 k) ∧
      (done = true → ∀ k, 8 * k < bytecount / SECTOR_SIZE + 1 → ∃ c ∈ new, c.IsPart sector (bytecount / SECTOR_SIZE + 1) 8 k) := by
  have pos : bytecount ≠ 0 := by omega
  rw [ATAPort.ReadBytes,if_neg pos] at returned
  exact readSectors_parts ready (by decide) (by decide) word returned

/-- When every command completes, the last of them asks for the additional sector. -/
theorem readBytes_last (needed : RequestsNeeded sector bytecount) (word : sector < 2^64) (some_bytes : 1 ≤ bytecount)
    (small : bytecount < 2^32) : bytecount % SECTOR_SIZE ≠ 0 ∧ sector + 8 * (bytecount / 4096) < 2^64 := by
  have working : Working ⟨fun _ => 0,Command.sector,fun _ _ => true⟩ := ⟨fun _ => rfl,fun _ _ => rfl⟩
  have ready := addPort_buffered (fun _ => 0)
  obtain ⟨p',returned⟩ := readBytes_working working ready word some_bytes small (fun _ => 0) 0
  obtain ⟨new,grown,within⟩ := needed _ _ _ _ _ _ _ ready returned
  obtain ⟨new',grown',_,all⟩ := readBytes_parts ready word some_bytes returned
  have same : new' = new := List.append_cancel_left (grown'.symm.trans grown)
  subst same
  have inside : 8 * (bytecount / 4096) < bytecount / SECTOR_SIZE + 1 := by
    simp only [SECTOR_SIZE]
    omega
  obtain ⟨c,member,place,count⟩ := all rfl _ inside
  obtain ⟨low,high⟩ := within c member
  have near : sector + 8 * (bytecount / 4096) < 2^64 := by
    by_contra far
    simp only [wrap] at place
    omega
  refine ⟨?_,near⟩
  intro whole
  rw [wrap_of_lt near] at place
  simp only [SECTOR_SIZE] at *
  omega

/-- `ReadBytes` asks for the sectors of its bytes only, unless the bytes end with a sector, as long as no part starts
    behind 2^64. -/
theorem readBytes_needed_iff (word : sector < 2^64) (some_bytes : 1 ≤ bytecount) (small : bytecount < 2^32) :
    RequestsNeeded sector bytecount ↔ bytecount % SECTOR_SIZE ≠ 0 ∧ sector + 8 * (bytecount / 4096) < 2^64 := by
  constructor
  · intro needed
    exact readBytes_last needed word some_bytes small
  · rintro ⟨more,near⟩ device p m buffer done p' m' ready returned
    obtain ⟨new,grown,asked,_⟩ := readBytes_parts ready word some_bytes returned
    refine ⟨new,grown,?_⟩
    intro c member
    obtain ⟨k,inside,part⟩ := asked c member
    have count : bytecount / SECTOR_SIZE + 1 = (bytecount + 511) / SECTOR_SIZE := by
      simp only [SECTOR_SIZE] at *
      omega
    rw [← count]
    apply within_of_part part inside
    simp only [SECTOR_SIZE] at inside
    omega

theorem readBytes_needed_iff_small : RequestsNeeded 7 100 :=
  (readBytes_needed_iff (by decide) (by decide) (by decide)).mpr ⟨by decide,by decide⟩

/-- A file of one sector at the end of a disk of one sector: the second sector is asked for too, and the call fails. -/
theorem readBytes_beyond : ¬ RequestsNeeded 0 512 ∧ ∃ p' m', (AddPort (fun _ => 0)).ReadBytes
    ⟨fun _ => 0,Command.sector,fun _ c => decide (c.sector + c.fis.count ≤ 1)⟩ (fun _ => 0) 0 512 0 = some (false,p',m') := by
  refine ⟨?_,_,_,rfl⟩
  intro needed
  exact (readBytes_last needed (by decide) (by decide) (by decide)).1 (by decide)

end WaifuOS.AHCI
