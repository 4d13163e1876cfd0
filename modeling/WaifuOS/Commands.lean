import WaifuOS.AHCI

/-!
The commands that the transfers of an ATA port issue. Each of them asks for the sector that
the port has come to, and the FIS has six bytes for it (`transfer_issued`). A device
that decodes them reads that sector when its number is below 2^24 (`transfer_lba_iff`):
the third byte of the address is followed by the fifth one of the sector.
-/
namespace WaifuOS.AHCI
open WaifuOS.Words WaifuOS.Bytes

/-- A call that reads. -/
inductive Transfer
  | Read (sector sectorCount buffer : Nat)
  | ReadBytes (sector bytecount buffer : Nat)
  | ReadFillBuffer (sector : Nat)

namespace Transfer

/-- The sector that the caller names. -/
def sector : Transfer → Nat
  | Read sector _ _ => sector
  | ReadBytes sector _ _ => sector
  | ReadFillBuffer sector => sector

def exec (device : Device) (p : ATAPort) (m : Mem) : Transfer → Option (Bool × ATAPort × Mem)
  | Read sector sectorCount buffer => p.Read device m sector sectorCount buffer
  | ReadBytes sector bytecount buffer => p.ReadBytes device m sector bytecount buffer
  | ReadFillBuffer sector =>
    let (done,p) := p.ReadFillBuffer device sector
    some (done,p,m)

end Transfer

/-- The command asks for the sector behind `k` full buffers of `b` sectors, and its FIS is that of
    `ReadDmaEX`. -/
def Command.Asks (sector b : Nat) (c : Command) : Prop :=
  (∃ k, c.sector % 2^64 = (sector + b * k) % 2^64) ∧ ∃ sectorCount, c.fis = .readDmaEX c.sector sectorCount

/-- What is issued from one port to the next asks for sectors from `sector` on. -/
def Issues (sector b : Nat) (p p' : ATAPort) : Prop :=
  p'.mBufferSize = p.mBufferSize ∧ ∃ new, p'.issued = p.issued ++ new ∧ ∀ c ∈ new, c.Asks sector b

variable {device : Device} {p p' p'' : ATAPort} {m m' : Mem} {b sector sectorCount ByteCount n : Nat} {done : Bool} {c : Command}

theorem Issues.refl (sector b : Nat) (p : ATAPort) : Issues sector b p p :=
  ⟨rfl,[],(List.append_nil _).symm,fun c member => by cases member⟩

theorem Issues.trans (first : Issues sector b p p') (later : Issues sector b p' p'') : Issues sector b p p'' := by
  obtain ⟨size,new,issued,asks⟩ := first
  obtain ⟨size',new',issued',asks'⟩ := later
  refine ⟨size'.trans size,new ++ new',by rw [issued',issued,List.append_assoc],?_⟩
  intro c member
  rcases List.mem_append.mp member with old | late
  · exact asks c old
  · exact asks' c late

/-- Sectors behind one more buffer. -/
theorem Issues.behind (later : Issues (wrap (sector + b)) b p p') : Issues sector b p p' := by
  obtain ⟨size,new,issued,asks⟩ := later
  refine ⟨size,new,issued,?_⟩
  intro c member
  obtain ⟨⟨k,place⟩,fis⟩ := asks c member
  refine ⟨⟨k+1,?_⟩,fis⟩
  have round : b * (k+1) = b + b * k := by rw [Nat.mul_succ,Nat.add_comm]
  rw [place,round]
  simp only [wrap]
  omega

theorem issue_issues : Issues sector b p (p.issue device sector sectorCount ByteCount).2 :=
  ⟨rfl,[⟨sector,.readDmaEX sector sectorCount,ByteCount⟩],rfl,fun c member => by
    rw [List.mem_singleton] at member
    subst member
    exact ⟨⟨0,by rw [Nat.mul_zero,Nat.add_zero]⟩,_,rfl⟩⟩

theorem readFillBuffer_issues : Issues sector b p (p.ReadFillBuffer device sector).2 := by
  rw [ATAPort.ReadFillBuffer]
  split
  · exact .refl sector b p
  · exact issue_issues

theorem fillTwice_issues : Issues sector b p (p.fillTwice device sector).2 := by
  have once : Issues sector b p (p.ReadFillBuffer device sector).2 := readFillBuffer_issues
  unfold ATAPort.fillTwice
  dsimp only
  split
  · exact once
  · exact once.trans readFillBuffer_issues

/-- Every round of the loop asks for the sectors behind the last one. -/
theorem fillLoop_issues {buffer : Nat} : ∃ filled p' m' sector' buffer',
    p.fillLoop device b m sector buffer n = (filled,p',m',sector',buffer') ∧ Issues sector b p p' ∧
      (∀ {q}, Issues sector' b p' q → Issues sector b p' q) := by
  induction n generalizing p m sector buffer with
  | zero => exact ⟨true,p,m,sector,buffer,rfl,.refl sector b p,fun issues => issues⟩
  | succ n ih =>
    have round : Issues sector b p (p.fillTwice device sector).2 := fillTwice_issues
    obtain ⟨filled,p₁,twice⟩ : ∃ filled p₁, p.fillTwice device sector = (filled,p₁) := ⟨_,_,rfl⟩
    rw [twice] at round
    rw [ATAPort.fillLoop,twice]
    cases filled with
    | false => exact ⟨false,p₁,m,sector,buffer,rfl,round,fun issues => issues⟩
    | true =>
      obtain ⟨filled,p',m',sector',buffer',looped,issues,goes⟩ := @ih p₁ (fill m buffer p₁.mBufferSize p₁.mBuffer)
        (wrap (sector + b)) (buffer + p₁.mBufferSize)
      exact ⟨filled,p',m',sector',buffer',looped,round.trans issues.behind,fun later => (goes later).behind⟩

theorem readSectors_issues {tail : Nat → Nat → Nat} {buffer : Nat}
    (returned : p.readSectors device m sector sectorCount tail buffer = some (done,p',m')) :
    Issues sector (p.mBufferSize / SECTOR_SIZE) p p' := by
  obtain ⟨locked,isLocked,rest⟩ := Option.bind_eq_some_iff.mp returned
  have same : locked.mBufferSize = p.mBufferSize ∧ locked.issued = p.issued := by
    simp only [ATAPort.Lock] at isLocked
    split at isLocked
    · cases isLocked
    · cases isLocked
      exact ⟨rfl,rfl⟩
  have unlocked : ∀ {q : ATAPort}, Issues sector (p.mBufferSize / SECTOR_SIZE) locked q →
      Issues sector (p.mBufferSize / SECTOR_SIZE) p q.Unlock := by
    rintro q ⟨size,new,issued,asks⟩
    exact ⟨size.trans same.1,new,issued.trans (by rw [same.2]),asks⟩
  rw [same.1] at rest
  by_cases none : p.mBufferSize / SECTOR_SIZE = 0
  · rw [if_pos none] at rest
    cases rest
    exact unlocked (.refl _ _ _)
  rw [if_neg none] at rest
  obtain ⟨filled,p₁,m₁,sector₁,buffer₁,looped,issues,goes⟩ := @fillLoop_issues device locked m (p.mBufferSize / SECTOR_SIZE) sector
    (sectorCount / (p.mBufferSize / SECTOR_SIZE)) buffer
  simp only [looped] at rest
  split at rest
  · cases rest
    exact unlocked issues
  split at rest
  · cases rest
    exact unlocked issues
  have last := issues.trans (goes (@issue_issues device p₁ (p.mBufferSize / SECTOR_SIZE) sector₁
    (sectorCount - p.mBufferSize / SECTOR_SIZE * (sectorCount / (p.mBufferSize / SECTOR_SIZE)))
    ((sectorCount - p.mBufferSize / SECTOR_SIZE * (sectorCount / (p.mBufferSize / SECTOR_SIZE))) * SECTOR_SIZE - 1)))
  split at rest
  · cases rest
    exact unlocked last
  · cases rest
    exact unlocked last

/-- A transfer asks for the sector that its caller named, and for those behind it. -/
theorem transfer_issued (t : Transfer) (returned : t.exec device p m = some (done,p',m')) :
    Issues t.sector (p.mBufferSize / SECTOR_SIZE) p p' := by
  cases t with
  | Read sector sectorCount buffer =>
    simp only [Transfer.exec,ATAPort.Read] at returned
    split at returned
    · cases returned
      exact .refl _ _ _
    · exact readSectors_issues returned
  | ReadBytes sector bytecount buffer =>
    simp only [Transfer.exec,ATAPort.ReadBytes] at returned
    split at returned
    · cases returned
      exact .refl _ _ _
    · exact readSectors_issues returned
  | ReadFillBuffer sector =>
    cases returned
    exact readFillBuffer_issues

/-- The six bytes decode to the sector when it is below 2^24. -/
theorem lba_iff (low : sector < 2^48) : (FIS_REG_H2D.readDmaEX sector sectorCount).lba = sector ↔ sector < 2^24 := by
  have high : sector / 2^32 % 2^24 = sector / 2^32 := Nat.mod_eq_of_lt (by omega)
  rw [lba_readDmaEX,high]
  omega

/-- Every command of a transfer is for the sector that the caller named or one behind full buffers, and the
    device is asked for it when it is below 2^24. -/
theorem transfer_lba_iff (t : Transfer) (returned : t.exec device p m = some (done,p',m')) : ∃ new, p'.issued = p.issued ++ new ∧
    ∀ c ∈ new, (∃ k, c.sector % 2^64 = (t.sector + p.mBufferSize / SECTOR_SIZE * k) % 2^64) ∧
      (c.sector < 2^48 → (c.fis.lba = c.sector ↔ c.sector < 2^24)) := by
  obtain ⟨_,new,issued,asks⟩ := transfer_issued t returned
  refine ⟨new,issued,?_⟩
  intro c member
  obtain ⟨place,sectorCount,fis⟩ := asks c member
  refine ⟨place,?_⟩
  intro low
  rw [fis]
  exact lba_iff low

/-- A device whose commands all complete. -/
def eager : Device := ⟨fun _ => 0,fun c => c.fis.lba,fun _ _ => true⟩

/-- A port that is locked. -/
def lockedPort : ATAPort := ⟨fun _ => 0,4096,true,[]⟩

theorem transfer_lba_iff_high : ∃ p', (Transfer.ReadFillBuffer (2^24)).exec eager lockedPort (fun _ => 0) = some (true,p',fun _ => 0) ∧
    ∃ new, p'.issued = lockedPort.issued ++ new ∧ ∀ c ∈ new, c.sector < 2^48 → (c.fis.lba = c.sector ↔ c.sector < 2^24) := by
  obtain ⟨p',returned⟩ : ∃ p', (Transfer.ReadFillBuffer (2^24)).exec eager lockedPort (fun _ => 0) = some (true,p',fun _ => 0) :=
    ⟨_,rfl⟩
  obtain ⟨new,issued,asks⟩ := transfer_lba_iff _ returned
  exact ⟨p',returned,new,issued,fun c member => (asks c member).2⟩

/-- The port is asked for the sector 2^24, and the device for the sector 0. -/
theorem transfer_misread : ∃ p' c, (Transfer.ReadFillBuffer (2^24)).exec eager lockedPort (fun _ => 0) = some (true,p',fun _ => 0) ∧
    c ∈ p'.issued ∧ c.sector = 2^24 ∧ c.fis.lba = 0 := by
  refine ⟨_,⟨2^24,.readDmaEX (2^24) 8,4095⟩,rfl,?_,rfl,?_⟩
  · exact List.mem_singleton_self _
  · rw [lba_readDmaEX]
    omega

end WaifuOS.AHCI
