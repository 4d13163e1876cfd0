import WaifuOS.NameSearch
import WaifuOS.PathClusters

/-!
Which entry `FindEntry` gives a long name to. The pieces that it has collected name the next
short entry, whatever their orders and checksums are, and a directory without an end marker is
read again with the pieces at its end still collected. A long name belongs to the entry
when its pieces stand directly before it, are a whole name and have its checksum
(`OwnPieces`). The code looks at none of this, so all long names belong to their entries
exactly when the directory has no other pieces before an entry (`onlyOwn_iff`).
-/
namespace WaifuOS.FAT32
open WaifuOS.Bytes WaifuOS.AHCI WaifuOS.cstr WaifuOS.Searches

/-- The checksum of an 8.3 name that the pieces of its long name carry. -/
def checksum (shortName : List (BitVec 8)) : BitVec 8 := shortName.foldl (fun sum c => ((sum &&& 1) <<< 7) + (sum >>> 1) + c) 0

/-- The order bytes of `n` pieces as they are stored, the marked last piece first. -/
def orderBytes (n : Nat) : List (BitVec 8) :=
  (List.range n).reverse.map (fun k => BitVec.ofNat 8 (k+1) ||| (if k + 1 = n then 0x40 else 0))

/-- The pieces of the long name of an entry. -/
structure OwnPieces (run : List Raw) (short : Raw) : Prop where
  few : run.length ≤ 20
  whole : run.map (fun raw => raw.getD 0 0) = orderBytes run.length
  sums : ∀ raw ∈ run, raw.getD 13 0 = checksum (short.directoryEntry.ShortName ++ short.directoryEntry.ShortExt)

/-- The collected pieces are those of the entry, and stand directly before it. -/
def Owned (first : List Slot) (slot : Slot) (nameEntries : List LFNEntry) : Prop :=
  ∃ earlier run, first = earlier ++ run ∧ nameEntries = run.map (fun s => s.2.lfnEntry) ∧ OwnPieces (run.map Prod.snd) slot.2

/-- The entries that are examined in whole rounds through a directory. -/
def roundsOf (content : List Slot) (rounds : Nat) : List Slot := (List.replicate rounds content).flatten

/-- After whole rounds through the directory and its first entries, an entry is compared under the long name of pieces. -/
structure Attributed (d : FSDriver) (behind : Nat → List Nat) (name : WString) (content : List Slot) (rounds : Nat)
    (first : List Slot) (slot : Slot) (nameEntries : List LFNEntry) : Prop where
  there : ∃ after, content = first ++ slot :: after
  reached : d.scan behind name 0 [] (roundsOf content rounds ++ first) = some (roundsOf content rounds ++ first,.more nameEntries)
  compared : ¬ slot.2.Ends ∧ ¬ slot.2.Piece
  long : nameEntries ≠ []

/-- Every long name that is given to an entry of the directory is its own. -/
def OnlyOwn (content : List Slot) : Prop := ∀ (d : FSDriver) behind name rounds first slot nameEntries,
  Attributed d behind name content rounds first slot nameEntries → Owned first slot nameEntries

/-- The list does not end with a piece. -/
def Closed (slots : List Slot) : Prop := ∀ s, slots.getLast? = some s → ¬ s.2.Piece

/-- Before the end marker all pieces directly before an entry are its own, and without an end marker the directory does not end
    with a piece. -/
structure Clean (content : List Slot) : Prop where
  own : ∀ earlier run slot after, content = earlier ++ run ++ slot :: after → (∀ s ∈ earlier ++ run, ¬ s.2.Ends) → ¬ slot.2.Ends →
    ¬ slot.2.Piece → (∀ s ∈ run, s.2.Piece) → Closed earlier → run ≠ [] → OwnPieces (run.map Prod.snd) slot.2
  closed : (∀ s ∈ content, ¬ s.2.Ends) → (∃ s ∈ content, ¬ s.2.Piece) → Closed content

variable {disk : Disk} {ebr : EBR} {id clusterBuffer fuel c rounds : Nat} {p : ATAPort} {m : Mem} {name : WString} {out : EntryInfo}
  {root : Option EntryInfo} {behind : Nat → List Nat} {d : FSDriver} {content prior first slots run : List Slot} {slot : Slot}
  {nameEntries : List LFNEntry} {raws : List Raw} {raw short : Raw} {answer : Answer}

theorem pieces_closed (closed : Closed prior) : pieces prior = [] := by
  cases prior using List.reverseRecOn with
  | nil => rfl
  | append_singleton prior slot => rw [pieces_append,if_neg (closed slot (by simp))]

/-- The pieces that are collected are the last run of pieces. -/
theorem exists_run (first : List Slot) : ∃ earlier run, first = earlier ++ run ∧ (∀ s ∈ run, s.2.Piece) ∧ Closed earlier := by
  induction first using List.reverseRecOn with
  | nil => exact ⟨[],[],rfl,by simp,by simp [Closed]⟩
  | append_singleton first slot ih =>
    by_cases piece : slot.2.Piece
    · obtain ⟨earlier,run,rfl,all,closed⟩ := ih
      refine ⟨earlier,run ++ [slot],List.append_assoc ..,?_,closed⟩
      intro s member
      rcases List.mem_append.mp member with old | new
      · exact all s old
      · rwa [List.mem_singleton.mp new]
    · refine ⟨first ++ [slot],[],(List.append_nil _).symm,by simp,?_⟩
      intro s last
      rw [List.getLast?_concat] at last
      rwa [← Option.some.inj last]

theorem pieces_run {earlier : List Slot} (piece : ∀ s ∈ run, s.2.Piece) (closed : Closed earlier) :
    pieces (earlier ++ run) = run.map (fun s => s.2.lfnEntry) := by
  rw [pieces_append_run earlier piece,pieces_closed closed,List.nil_append]

/-- A whole name is written inside its buffer. -/
theorem OwnPieces.placed {run : List Raw} (own : OwnPieces run short) : Placed (run.map Raw.lfnEntry) := by
  have marked : ∀ k : Fin 20, (((BitVec.ofNat 8 (k+1) ||| 0x40) &&& 0xBF) - 1 : BitVec 8).toNat = k := by decide
  have plain : ∀ k : Fin 20, (((BitVec.ofNat 8 (k+1) ||| 0) &&& 0xBF) - 1 : BitVec 8).toNat = k := by decide
  intro entry member
  obtain ⟨raw,there,rfl⟩ := List.mem_map.mp member
  have order : raw.getD 0 0 ∈ orderBytes run.length := own.whole ▸ List.mem_map_of_mem there
  obtain ⟨k,inside,byte⟩ := List.mem_map.mp order
  have low : k < run.length := List.mem_range.mp (List.mem_reverse.mp inside)
  have few := own.few
  have value : raw.lfnEntry.order = ((raw.getD 0 0 &&& 0xBF) - 1).toNat := rfl
  rw [List.length_map,value,← byte]
  split
  · exact (marked ⟨k,by omega⟩).trans_lt low
  · exact (plain ⟨k,by omega⟩).trans_lt low

theorem Owned.placed (owned : Owned first slot nameEntries) : Placed nameEntries := by
  obtain ⟨earlier,run,_,rfl,own⟩ := owned
  have placed := own.placed
  rwa [List.map_map] at placed

theorem lower_ne (unit : Nat) : lower unit ≠ 0x41 := by
  simp only [lower]
  split <;> omega

theorem comparedName_ne (behind : List Nat) (nameEntries : List LFNEntry) (raw : Raw) : comparedName behind nameEntries raw ≠ some [0x41] := by
  intro named
  have short : ∀ c : BitVec 8, ((if 0x41 ≤ c.toInt ∧ c.toInt ≤ 0x5A then c + 0x20 else c).signExtend 16).toNat ≠ 0x41 := by decide
  rw [comparedName] at named
  split at named
  · obtain ⟨lfnName,_,lowered⟩ := Option.map_eq_some_iff.mp named
    have member : 0x41 ∈ wstrToLower (ofBuffer (lfnName ++ behind)) := by
      rw [lowered]
      exact List.mem_singleton_self _
    obtain ⟨unit,_,same⟩ := List.mem_map.mp member
    exact lower_ne unit same
  · have member : 0x41 ∈ cstrTowstr (GetEntryName raw.directoryEntry) := by
      rw [Option.some.inj named]
      exact List.mem_singleton_self _
    obtain ⟨c,inside,same⟩ := List.mem_map.mp member
    obtain ⟨c',_,rfl⟩ := List.mem_map.mp inside
    exact short c' same

/-- A search for that name passes all entries before the end marker that are sound. -/
theorem scan_unnamed (d : FSDriver) (behind : Nat → List Nat) (ends : ∀ s ∈ first, ¬ s.2.Ends) (sound : AllSound [] first) :
    d.scan behind [0x41] 0 [] first = some (first,.more (pieces first)) := by
  have passed : Passed (Stops behind [0x41]) [] first := by
    intro before s after whole stop
    rcases stop with stop | ⟨_,_,named⟩
    · exact ends s (by rw [whole]; simp) stop
    · exact comparedName_ne _ _ _ named
  exact scan_passes d passed sound

theorem OnlyOwn.owned (onlyOwn : OnlyOwn content) {after : List Slot} (whole : content = first ++ slot :: after)
    (ends : ∀ s ∈ first, ¬ s.2.Ends) (sound : AllSound [] first) (goes : ¬ slot.2.Ends) (compared : ¬ slot.2.Piece)
    (some_pieces : pieces first ≠ []) : Owned first slot (pieces first) :=
  onlyOwn (.mount 0 smallEBR) (fun _ => []) [0x41] 0 first slot _
    ⟨⟨after,whole⟩,scan_unnamed _ _ ends sound,⟨goes,compared⟩,some_pieces⟩

/-- When long names are only given to their own entries, all of them are made inside their buffers. -/
theorem OnlyOwn.sound (onlyOwn : OnlyOwn content) (first after : List Slot) (whole : content = first ++ after)
    (ends : ∀ s ∈ first, ¬ s.2.Ends) : AllSound [] first := by
  induction first using List.reverseRecOn generalizing after with
  | nil => exact throughout_nil
  | append_singleton first slot ih =>
    rw [List.append_assoc] at whole
    have before := ih _ whole (fun s member => ends s (List.mem_append_left _ member))
    refine throughout_append.mpr ⟨before,throughout_cons.mpr ⟨?_,throughout_nil⟩⟩
    intro goes compared
    by_cases none : pieces first = []
    · rw [List.nil_append,none]
      intro entry member
      cases member
    · exact (onlyOwn.owned whole (fun s member => ends s (List.mem_append_left _ member)) before goes compared none).placed

theorem exists_compared (other : ∃ s ∈ slots, ¬ s.2.Piece) :
    ∃ lead slot after, slots = lead ++ slot :: after ∧ (∀ s ∈ lead, s.2.Piece) ∧ ¬ slot.2.Piece := by
  induction slots with
  | nil =>
    obtain ⟨s,member,_⟩ := other
    cases member
  | cons first slots ih =>
    by_cases piece : first.2.Piece
    · obtain ⟨s,member,compared⟩ := other
      rcases List.mem_cons.mp member with rfl | later
      · exact absurd piece compared
      obtain ⟨lead,slot,after,rfl,all,compared⟩ := ih ⟨s,later,compared⟩
      refine ⟨first :: lead,slot,after,rfl,?_,compared⟩
      intro s member
      rcases List.mem_cons.mp member with rfl | later
      · exact piece
      · exact all s later
    · exact ⟨[],first,slots,rfl,by simp,piece⟩

theorem roundsOf_succ (content : List Slot) (rounds : Nat) : roundsOf content (rounds+1) = content ++ roundsOf content rounds := by
  rw [roundsOf,List.replicate_succ,List.flatten_cons]
  rfl

/-- Pieces at the end of a directory without an end marker would name its first entry in the next round. -/
theorem OnlyOwn.closed (onlyOwn : OnlyOwn content) (ends : ∀ s ∈ content, ¬ s.2.Ends) (other : ∃ s ∈ content, ¬ s.2.Piece) :
    Closed content := by
  intro last isLast piece
  obtain ⟨lead,slot,after,whole,all,compared⟩ := exists_compared other
  have ends_lead : ∀ s ∈ content ++ lead, ¬ s.2.Ends := by
    intro s member
    rcases List.mem_append.mp member with first | again
    · exact ends s first
    · exact ends s (by rw [whole]; exact List.mem_append_left _ again)
  have sound : AllSound [] (content ++ lead) := by
    refine throughout_append.mpr ⟨onlyOwn.sound content [] (List.append_nil _).symm ends,?_⟩
    intro before s after split _ compared
    exact absurd (all s (by rw [split]; simp)) compared
  have collected := pieces_append_run content all
  have some_pieces : pieces content ≠ [] := by
    obtain ⟨front,rfl⟩ := List.getLast?_eq_some_iff.mp isLast
    rw [pieces_append,if_pos piece]
    simp
  have reached := scan_unnamed (.mount 0 smallEBR) (fun _ => []) ends_lead sound
  have one : roundsOf content 1 = content := by rw [roundsOf_succ,roundsOf,List.replicate_zero,List.flatten_nil,List.append_nil]
  have attributed : Attributed (.mount 0 smallEBR) (fun _ => []) [0x41] content 1 lead slot (pieces (content ++ lead)) := by
    refine ⟨⟨after,whole⟩,by rw [one]; exact reached,⟨ends slot (by rw [whole]; simp),compared⟩,?_⟩
    rw [collected]
    exact List.append_ne_nil_of_left_ne_nil some_pieces _
  obtain ⟨earlier,run,split,same,_⟩ := onlyOwn _ _ _ _ _ _ _ attributed
  have sizes := congrArg List.length same
  have total := congrArg List.length split
  have more := List.length_pos_iff.mpr some_pieces
  rw [collected,List.length_append,List.length_map,List.length_map] at sizes
  rw [List.length_append] at total
  omega

theorem OnlyOwn.clean (onlyOwn : OnlyOwn content) : Clean content where
  own := by
    intro earlier run slot after whole ends goes compared piece closed some_pieces
    have collected := pieces_run piece closed
    have some_entries : pieces (earlier ++ run) ≠ [] := by
      rw [collected]
      exact fun none => some_pieces (List.map_eq_nil_iff.mp none)
    obtain ⟨earlier',run',split,same,own⟩ :=
      onlyOwn.owned whole ends (onlyOwn.sound _ _ whole ends) goes compared some_entries
    have sizes := congrArg List.length (collected.symm.trans same)
    rw [List.length_map,List.length_map] at sizes
    rw [(List.append_inj' split sizes).2]
    exact own
  closed := onlyOwn.closed

theorem Closed.append {later : List Slot} (closed : Closed first) (closed' : Closed later) : Closed (first ++ later) := by
  intro s last
  cases later with
  | nil => exact closed s (by rwa [List.append_nil] at last)
  | cons slot later => exact closed' s (by rwa [List.getLast?_append_of_ne_nil _ (List.cons_ne_nil _ _)] at last)

theorem closed_roundsOf (closed : Closed content) (rounds : Nat) : Closed (roundsOf content rounds) := by
  induction rounds with
  | zero => simp [roundsOf,Closed]
  | succ rounds ih =>
    rw [roundsOf_succ]
    exact closed.append ih

theorem Clean.onlyOwn (clean : Clean content) : OnlyOwn content := by
  intro d behind name rounds first slot nameEntries attributed
  obtain ⟨after,whole⟩ := attributed.there
  obtain ⟨passed,_,collected⟩ := (scan_tells [] attributed.reached).1
  have ends : ∀ s ∈ roundsOf content rounds ++ first, ¬ s.2.Ends := by
    intro s member goes
    obtain ⟨before,later,split⟩ := List.append_of_mem member
    exact passed before s later split (.inl goes)
  have closed_rounds : Closed (roundsOf content rounds) := by
    cases rounds with
    | zero => simp [roundsOf,Closed]
    | succ n =>
      have ends_content : ∀ s ∈ content, ¬ s.2.Ends := by
        intro s member
        refine ends s (List.mem_append_left _ ?_)
        rw [roundsOf_succ]
        exact List.mem_append_left _ member
      exact closed_roundsOf (clean.closed ends_content ⟨slot,by rw [whole]; simp,attributed.compared.2⟩) _
  obtain ⟨earlier,run,rfl,piece,closed⟩ := exists_run first
  rw [List.nil_append,← List.append_assoc,pieces_run piece (closed_rounds.append closed)] at collected
  have some_pieces : run ≠ [] := by
    rintro rfl
    exact attributed.long collected
  exact ⟨earlier,run,rfl,collected,clean.own earlier run slot after whole (fun s member => ends s (List.mem_append_right _ member))
    attributed.compared.1 attributed.compared.2 piece closed some_pieces⟩

/-- Long names are given only to the entries that they belong to if and only if the directory has no other pieces before an
    entry. -/
theorem onlyOwn_iff (content : List Slot) : OnlyOwn content ↔ Clean content := ⟨OnlyOwn.clean,Clean.onlyOwn⟩

example : OwnPieces [onlyPiece 0xC0 (List.replicate 9 0x61)] entryB := ⟨by decide,by decide,by decide⟩

/-- A piece that was left over, with another checksum, names the entry `B`. -/
theorem onlyOwn_leftOver : ¬ OnlyOwn [(2,onlyPiece 0x00 [0x78]),(2,entryB),(2,blank)] := by
  intro onlyOwn
  have own := onlyOwn.clean.own [] [(2,onlyPiece 0x00 [0x78])] (2,entryB) [(2,blank)] rfl (by decide) (by decide) (by decide) (by decide)
    (by simp [Closed]) (by simp)
  exact absurd (own.sums _ (List.mem_singleton_self _)) (by decide)

/-- An entry that is examined is in one of the rounds. -/
theorem exists_round {before rest : List Slot} (whole : before ++ slot :: rest = roundsOf content rounds) :
    ∃ done first after, before = roundsOf content done ++ first ∧ content = first ++ slot :: after := by
  induction rounds generalizing before with
  | zero => simp [roundsOf] at whole
  | succ rounds ih =>
    have later : ∀ between, before = content ++ between → between ++ slot :: rest = roundsOf content rounds →
        ∃ done first after, before = roundsOf content done ++ first ∧ content = first ++ slot :: after := by
      rintro between rfl split
      obtain ⟨done,first,after,rfl,inside⟩ := ih split
      exact ⟨done+1,first,after,by rw [roundsOf_succ,List.append_assoc],inside⟩
    rw [roundsOf_succ] at whole
    rcases List.append_eq_append_iff.mp whole with ⟨between,isContent,split⟩ | ⟨between,isBefore,split⟩
    · cases between with
      | nil => exact later [] (by rw [isContent,List.append_nil,List.append_nil]) split
      | cons s between =>
        cases split
        exact ⟨0,before,between,rfl,isContent⟩
    · exact later between isBefore split.symm

/-- What `FindEntry` returns for a long name is the entry that the name was given to. -/
theorem findEntry_attributed (wf : WellFormed disk ebr) (cluster : ebr.Cluster (ebr.startCluster root)) (ready : Buffered p 8 false)
    (here : ∀ info, root = some info → info.DriveID = id ∧ info.EntryAttributes &&& EntryAttribute.Directory ≠ 0)
    (returned : (FSDriver.mount id ebr).FindEntry disk.device behind clusterBuffer fuel p m name out root = some answer)
    (ok : answer.status = .Ok) (long : answer.out.wEntryName ≠ none) :
    ∃ rounds first slot nameEntries,
      Attributed (.mount id ebr) behind name (disk.readSlots ebr (ebr.startCluster root)) rounds first slot nameEntries ∧
      answer.out = foundInfo (.mount id ebr) nameEntries slot.2 := by
  rw [findEntry_here here] at returned
  have started : (FSDriver.mount id ebr).search disk.device behind clusterBuffer (ebr.startCluster root) name out fuel p m [] (pieces []) =
      some answer := returned
  obtain ⟨_,before,slot,⟨⟨rounds,stopped⟩,⟨goes,compared,_⟩,sound⟩,isOut⟩ := search_ok wf cluster ready started ok
  obtain ⟨before',slot',same,passed,_⟩ := stopped.last
  obtain ⟨rest,whole⟩ := stopped.isPrefix
  obtain ⟨rfl,_⟩ := List.append_inj' same rfl
  rw [List.append_assoc,List.singleton_append] at whole
  have reached := scan_passes (.mount id ebr) passed (allSound_append.mp sound).1
  obtain ⟨done,first,after,rfl,inside⟩ := exists_round whole
  have some_pieces : pieces (roundsOf (disk.readSlots ebr (ebr.startCluster root)) done ++ first) ≠ [] := by
    intro none
    rw [isOut,List.nil_append,none] at long
    exact long rfl
  exact ⟨done,first,slot,_,⟨⟨after,inside⟩,reached,⟨goes,compared⟩,some_pieces⟩,isOut⟩

end WaifuOS.FAT32
