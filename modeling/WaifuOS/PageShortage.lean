import WaifuOS.PageWalks

/-!
Page tables without a frame for a missing table. `RequestPage` answers `nullptr` then, which `MapMemory` and
`SetVirtualFlag` do not look at. Where address 0 is memory they use frame 0 as the table: they clear it and link to it
(`Nulled`). One table in frame 0 still is a table, and the entry of the address is the
one that is changed. From the second on frame 0 links to itself. Where the page of address 0 cannot be, clearing it
is a page fault, and the entry is not written any more.

`SetVirtualFlag` sets the flag when each missing table finds a frame, or address 0 is memory and one of them does not
(`setVirtualFlag_iff`). A call that runs out of frames leaves a link to frame 0 where address 0 is memory, and harms
nothing where it faults (`exec_short_iff`).
-/
namespace WaifuOS.PageTables
open WaifuOS.Words WaifuOS.Links

/-- The entry of an address in its table of the last level, blank as long as that table is missing. -/
def leafEntry (s : PageTables) (vAddress : Nat) : PageDirectoryEntry :=
  match s.walk ((path vAddress).take 3) with
  | none => ⟨0#64⟩
  | some PT => s.ram PT (PageMapIndexer.ofAddress vAddress).Pi

/-- How many of the tables above the entry of an address are missing. -/
def missingTables (s : PageTables) (vAddress : Nat) : Nat :=
  [1,2,3].countP (fun k => s.walk ((path vAddress).take k) = none)

/-- Tables in marked frames, and none of them in frame 0. -/
structure Sound (s : PageTables) : Prop where
  wellformed : Wellformed s
  marked : s.frames.used 0 = true
  notNull : ∀ q, q.length ≤ 3 → s.walk q ≠ some 0

/-- The request for a missing table finds no frame. -/
def NextShort (s : PageTables) (table index : Nat) : Prop :=
  (s.ram table index).GetFlag .Present = false ∧ s.frames.requestFrame.1 = none

/-- Some request of `lastTable` finds no frame. -/
def LastShort (s : PageTables) (indexer : PageMapIndexer) : Prop :=
  s.NextShort s.PML4 indexer.PDPi ∨
    let (PDP,s) := s.nextTable s.PML4 indexer.PDPi
    s.NextShort PDP indexer.PDi ∨
      let (PD,s) := s.nextTable PDP indexer.PDi
      s.NextShort PD indexer.PTi

/-- Some request of the call finds no frame. -/
def TableCall.Short (s : PageTables) : TableCall → Prop
  | .MapMemory virtualMemory _ => s.LastShort (.ofAddress virtualMemory)
  | .SetVirtualFlag address _ _ => s.LastShort (.ofAddress address)

/-- The call returns, the entry of the address has the flag as told, and nothing else is changed. -/
structure FlagSet (s s' : PageTables) (address : Nat) (flag : PTFlag) (value : Bool) : Prop where
  returns : s'.null ≠ .faulted
  told : (s'.leafEntry address).GetFlag flag = value
  others : ∀ other, other ≠ flag → (s'.leafEntry address).GetFlag other = (s.leafEntry address).GetFlag other
  frame : (s'.leafEntry address).GetAddress = (s.leafEntry address).GetAddress
  pages : ∀ w, page w ≠ page address → s'.leafEntry w = s.leafEntry w

/-- Addresses that were mapped still are, and no entry has been made a link to frame 0. -/
structure Unharmed (s s' : PageTables) : Prop where
  mapped : ∀ w frame, s.translate w = some frame → s'.translate w = some frame
  links : ∀ q, q.length ≤ 3 → s'.walk q = some 0 → s.walk q = some 0

/-- Missing tables have got frames, and no entry of the last level is changed. -/
structure Kept (s t : PageTables) : Prop where
  sound : Sound t
  null : t.null = s.null
  leaf : ∀ w, t.leafEntry w = s.leafEntry w

/-- A step from a table to the one below. -/
def descend (r : Nat × PageTables) (index : Nat) : Nat × PageTables := r.2.nextTable r.1 index

variable {s s' : PageTables} {v w table i j f physMemory : Nat} {p q : List Nat} {flag : PTFlag} {value : Bool}

theorem Kept.trans {t : PageTables} (first : Kept s s') (second : Kept s' t) : Kept s t :=
  ⟨second.sound,second.null.trans first.null,fun w => (second.leaf w).trans (first.leaf w)⟩

theorem path_split (vAddress : Nat) : path vAddress = (path vAddress).take 3 ++ [(PageMapIndexer.ofAddress vAddress).Pi] := rfl

theorem index_eq (same : path w = path v) : (PageMapIndexer.ofAddress w).Pi = (PageMapIndexer.ofAddress v).Pi := by
  simp only [path,List.cons.injEq,and_true] at same
  exact same.2.2.2

/-- Hanging in a blank table changes no entry of the last level. -/
theorem hang_leafEntry (tree : IsTree (link s.ram) s.PML4 3) (at_p : s.walk p = some table) (level : p.length ≤ 2)
    (missing : (s.ram table i).GetFlag .Present = false) (fresh : ∀ q, q.length ≤ 3 → s.walk q ≠ some f) (word : f < 2^64)
    (aligned : pageOf f = f) (w : Nat) : (s.hang table i f).leafEntry w = s.leafEntry w := by
  have other : f ≠ table := by
    rintro rfl
    exact fresh p (by omega) at_p
  obtain ⟨here,kept,_⟩ := hang_follow tree at_p level (target_none missing) fresh word aligned
  have length : ((path w).take 3).length = 3 := rfl
  by_cases new : (path w).take 3 = p ++ [i]
  · have gone : s.walk (p ++ [i]) = none := by rw [walk_concat at_p,target_none missing]
    simp only [leafEntry,new,here,gone]
    simp [hang,write,blank,Function.update_of_ne other]
  · rw [leafEntry,leafEntry,kept _ (by omega) new]
    cases reached : s.walk ((path w).take 3) with
    | none => rfl
    | some t =>
      refine hang_ram other ?_ ?_
      · rintro rfl
        exact fresh _ (by omega) reached
      · rintro ⟨rfl,_⟩
        have same := tree _ p t (by omega) (by omega) reached at_p
        rw [same] at length
        omega

/-- Writing to the entry of an address changes no other entry of the last level. -/
theorem write_leafEntry {e : PageDirectoryEntry} (tree : IsTree (link s.ram) s.PML4 3)
    (at_table : s.walk ((path v).take 3) = some table) (w : Nat) :
    (s.write table (PageMapIndexer.ofAddress v).Pi e).leafEntry w = if page w = page v then e else s.leafEntry w := by
  obtain ⟨_,kept⟩ := write_follow (e := e) (i := (PageMapIndexer.ofAddress v).Pi) tree at_table rfl
  have length : ((path w).take 3).length = 3 := rfl
  have tables : (s.write table (PageMapIndexer.ofAddress v).Pi e).walk ((path w).take 3) = s.walk ((path w).take 3) := by
    apply kept _ (by omega)
    intro same
    have four := congrArg List.length same
    rw [length,List.length_append,List.length_take] at four
    simp [path] at four
  rw [leafEntry,leafEntry,tables]
  by_cases here : page w = page v
  · have same : path w = path v := path_eq_iff.mpr here
    rw [if_pos here,same,at_table,index_eq same]
    simp [write]
  · rw [if_neg here]
    cases reached : s.walk ((path w).take 3) with
    | none => rfl
    | some t =>
      by_cases same : t = table
      · subst same
        have upper : (path w).take 3 = (path v).take 3 := tree _ _ t (by omega) (Nat.le_refl 3) reached at_table
        have index : (PageMapIndexer.ofAddress w).Pi ≠ (PageMapIndexer.ofAddress v).Pi := by
          intro index
          refine here (path_eq_iff.mp ?_)
          rw [path_split w,path_split v,upper,index]
        simp [write,Function.update_of_ne index]
      · simp [write,Function.update_of_ne same]

/-- The link to frame 0, in an entry that was blank. -/
def nullLink : PageDirectoryEntry :=
  (((⟨0#64⟩ : PageDirectoryEntry).SetAddress (BitVec.ofNat 64 0 >>> 12)).SetFlag .Present true).SetFlag .ReadWrite true

/-- Address 0 is memory, frame 0 is the table at the end of a walk, its entries are blank or link to itself, and no
    frame is left. -/
structure Nulled (s : PageTables) (q : List Nat) : Prop where
  memory : s.null = .memory
  here : s.walk q = some 0
  way : ∀ r, r <+: q → r ≠ q → s.walk r ≠ some 0
  entries : ∀ j, s.ram 0 j = ⟨0#64⟩ ∨ s.ram 0 j = nullLink
  out : s.frames.requestFrame.1 = none

theorem nullLink_target : nullLink.target = some 0 := by decide

theorem nullLink_flags : nullLink.GetFlag .Present = true ∧ nullLink.GetFlag .ReadWrite = true := by decide

/-- A request finds no frame when no clear frame is left. -/
theorem requestFrame_eq_none {frames : PageFrameAllocator} : frames.requestFrame.1 = none ↔ frames.clearFrames = ∅ := by
  constructor
  · intro out
    by_contra left
    obtain ⟨i,after,found⟩ := PageFrameAllocator.requestFrame_of_clear (Finset.nonempty_iff_ne_empty.mpr left)
    rw [found] at out
    cases out
  · intro empty
    rcases run : frames.requestFrame with ⟨_ | i,after⟩
    · rfl
    · have member := (PageFrameAllocator.requestFrame_clearFrames run).1
      rw [empty] at member
      cases member

/-- After a request without a frame there is none either. -/
theorem requestPage_short (out : s.frames.requestFrame.1 = none) :
    ∃ t : PageTables, s.RequestPage = (0,t) ∧ t.ram = s.ram ∧ t.PML4 = s.PML4 ∧ t.null = s.null ∧
      t.frames.requestFrame.1 = none := by
  rcases run : s.frames.requestFrame with ⟨_ | i,frames⟩
  · refine ⟨{ s with frames },by rw [RequestPage,PageFrameAllocator.RequestPage,run],rfl,rfl,rfl,?_⟩
    obtain ⟨used,after⟩ := PageFrameAllocator.requestFrame_none run
    rw [requestFrame_eq_none,Finset.eq_empty_iff_forall_notMem]
    intro j member
    obtain ⟨inside,low,clear⟩ := PageFrameAllocator.mem_clearFrames.mp member
    rw [after] at inside low clear
    have low' : max s.frames.LastPageIndex s.frames.limit ≤ j := low
    have clear' : s.frames.used j = false := clear
    rw [used j (by omega) inside] at clear'
    cases clear'
  · rw [run] at out
    cases out

/-- A table without a frame is not there, and no frame is left. -/
theorem NextShort.gone (short : s.NextShort table i) (at_p : s.walk p = some table) :
    s.walk (p ++ [i]) = none ∧ s.frames.clearFrames.card = 0 := by
  constructor
  · rw [walk_concat at_p,target_none short.1]
  · rw [requestFrame_eq_none.mp short.2,Finset.card_empty]

/-- A table without a frame is made in frame 0 if there is memory. -/
theorem nextTable_short (short : s.NextShort table i) (memory : s.null = .memory) : ∃ t : PageTables,
    s.nextTable table i = (0,t.hang table i 0) ∧ t.ram = s.ram ∧ t.PML4 = s.PML4 ∧ t.null = .memory ∧ t.frames.requestFrame.1 = none := by
  obtain ⟨missing,out⟩ := short
  obtain ⟨t,request,same_ram,same_root,same_null,out'⟩ := requestPage_short out
  have memory' : t.null = .memory := same_null.trans memory
  refine ⟨t,?_,same_ram,same_root,memory',out'⟩
  simp [nextTable,missing,request,not_faults (.inl memory),not_faults (.inl memory')]

/-- Where address 0 is no memory the code does not get so far. -/
theorem nextTable_faults (short : s.NextShort table i) (off : s.null = .impossible) (other : table ≠ 0) : ∃ t : PageTables,
    s.nextTable table i = (0,t.fault) ∧ t.ram = s.ram ∧ t.PML4 = s.PML4 := by
  obtain ⟨missing,out⟩ := short
  obtain ⟨t,request,same_ram,same_root,same_null,_⟩ := requestPage_short out
  have cleared : t.faults 0 = true := decide_eq_true (.inr ⟨same_null.trans off,rfl⟩)
  refine ⟨t,?_,same_ram,same_root⟩
  simp [nextTable,missing,request,not_faults (.inr ⟨off,other⟩),cleared]

/-- The first table that is made in frame 0 is where it should be, and no entry of the last level is changed. -/
theorem nextTable_null (sound : Sound s) (memory : s.null = .memory) (at_p : s.walk p = some table) (level : p.length ≤ 2)
    (short : s.NextShort table i) :
    ∃ t, s.nextTable table i = (0,t) ∧ Nulled t (p ++ [i]) ∧ IsTree (link t.ram) t.PML4 3 ∧ ∀ w, t.leafEntry w = s.leafEntry w := by
  have missing := short.1
  obtain ⟨t,made,same_ram,same_root,memory',out⟩ := nextTable_short short memory
  have walks : ∀ q, t.walk q = s.walk q := by intro q; rw [walk,walk,same_ram,same_root]
  have tree : IsTree (link t.ram) t.PML4 3 := by rw [same_ram,same_root]; exact sound.wellformed.tree
  have at_p' : t.walk p = some table := (walks p).trans at_p
  have missing' : (t.ram table i).GetFlag .Present = false := by rw [same_ram]; exact missing
  have fresh : ∀ q, q.length ≤ 3 → t.walk q ≠ some 0 := fun q short => by rw [walks]; exact sound.notNull q short
  obtain ⟨here,kept,tree'⟩ := hang_follow tree at_p' level (target_none missing') fresh (by decide) rfl
  have other : (0 : Nat) ≠ table := by
    rintro rfl
    exact fresh p (by omega) at_p'
  refine ⟨_,made,⟨memory',here,fun r inside apart => ?_,fun j => .inl ?_,out⟩,tree',fun w => ?_⟩
  · have short := inside.length_le
    rw [List.length_append,List.length_singleton] at short
    rw [kept r (by omega) apart]
    exact fresh r (by omega)
  · simp [hang,write,blank,Function.update_of_ne other]
  · rw [hang_leafEntry tree at_p' level missing' fresh (by decide) rfl]
    simp only [leafEntry,walks,same_ram]

/-- A walk to frame 0 that does not pass it stays when only frame 0 changes. -/
theorem Nulled.walk {t : PageTables} (nulled : Nulled s q) (root : t.PML4 = s.PML4) (same : ∀ u, u ≠ 0 → t.ram u = s.ram u) :
    ∀ r, r <+: q → t.walk r = s.walk r := by
  intro r inside
  rw [PageTables.walk,PageTables.walk,root]
  refine follow_apart (fun u j other => by rw [link,link,same u other]) r ?_
  intro r' inside' apart
  apply nulled.way r' (inside'.trans inside)
  rintro rfl
  exact apart (List.IsPrefix.eq_of_length_le inside' inside.length_le)

/-- Writing into frame 0 leaves the walk to it. -/
theorem Nulled.write_walk (nulled : Nulled s q) (i : Nat) (e : PageDirectoryEntry) : (s.write 0 i e).walk q = some 0 := by
  have others : ∀ u, u ≠ 0 → (s.write 0 i e).ram u = s.ram u := by
    intro u other
    simp [write,Function.update_of_ne other]
  have root : (s.write 0 i e).PML4 = s.PML4 := rfl
  exact (nulled.walk root others q (List.prefix_refl q)).trans nulled.here

/-- The next table below frame 0 is frame 0. -/
theorem Nulled.nextTable (nulled : Nulled s q) (i : Nat) :
    ∃ t, s.nextTable 0 i = (0,t) ∧ Nulled t q ∧ t.ram 0 i = nullLink ∧ t.PML4 = s.PML4 ∧ ∀ u, u ≠ 0 → t.ram u = s.ram u := by
  rcases nulled.entries i with blank_i | linked
  · have missing : (s.ram 0 i).GetFlag .Present = false := by rw [blank_i]; decide
    obtain ⟨t,made,same_ram,same_root,memory,out⟩ := nextTable_short ⟨missing,nulled.out⟩ nulled.memory
    have others : ∀ u, u ≠ 0 → (t.hang 0 i 0).ram u = s.ram u := by
      intro u other
      simp [hang,write,blank,Function.update_of_ne other,same_ram]
    have zero : ∀ j, (t.hang 0 i 0).ram 0 j = if j = i then nullLink else ⟨0#64⟩ := by
      intro j
      by_cases hit : j = i
      · rw [hit]
        simp [hang,write,blank,same_ram,blank_i,nullLink]
      · simp [hang,write,blank,hit]
    have walks := nulled.walk (t := t.hang 0 i 0) same_root others
    refine ⟨_,made,⟨memory,(walks q (List.prefix_refl q)).trans nulled.here,?_,?_,out⟩,?_,same_root,others⟩
    · intro r inside apart
      rw [walks r inside]
      exact nulled.way r inside apart
    · intro j
      rw [zero]
      split
      · exact .inr rfl
      · exact .inl rfl
    · rw [zero,if_pos rfl]
  · refine ⟨s,?_,nulled,linked,rfl,fun _ _ => rfl⟩
    rw [nextTable_present (not_faults (.inl nulled.memory)) (by rw [linked]; exact nullLink_flags.1),linked]
    rfl

/-- So are all tables below it, and the last entry on the way links to it. -/
theorem Nulled.descend (nulled : Nulled s q) (below : List Nat) : ∃ t, below.foldl descend (0,s) = (0,t) ∧ Nulled t q ∧
    ∀ i, below.getLast? = some i → t.ram 0 i = nullLink := by
  induction below generalizing s with
  | nil => exact ⟨s,rfl,nulled,fun i none => by cases none⟩
  | cons i below ih =>
    obtain ⟨t,made,nulled',linked,_⟩ := nulled.nextTable i
    obtain ⟨u,rest,nulled'',last⟩ := ih nulled'
    have first : PageTables.descend (0,s) i = (0,t) := made
    refine ⟨u,by rw [List.foldl_cons,first,rest],nulled'',?_⟩
    intro j isLast
    cases below with
    | nil =>
      cases isLast
      cases rest
      exact linked
    | cons k below => exact last j (by rwa [List.getLast?_cons_cons] at isLast)

/-- A table that is there, or for which a frame is left, is the next one, and no entry of the last level
    is changed. -/
theorem nextTable_served (sound : Sound s) (at_p : s.walk p = some table) (level : p.length ≤ 2) (served : ¬ s.NextShort table i) :
    ∃ next t, s.nextTable table i = (next,t) ∧ t.walk (p ++ [i]) = some next ∧ Kept s t ∧
      (∀ q, q.length ≤ 4 → q ≠ p ++ [i] → t.walk q = s.walk q) ∧
      t.frames.clearFrames.card + (if s.walk (p ++ [i]) = none then 1 else 0) = s.frames.clearFrames.card := by
  cases present : (s.ram table i).GetFlag .Present with
  | true =>
    have there : s.walk (p ++ [i]) = some ((s.ram table i).GetAddress <<< 12).toNat := by
      rw [walk_concat at_p,PageDirectoryEntry.target,if_pos present]
    refine ⟨_,s,nextTable_present (sound.wellformed.reads at_p (by omega)) present,there,⟨sound,rfl,fun _ => rfl⟩,fun _ _ _ => rfl,?_⟩
    rw [there,if_neg (Option.some_ne_none _)]
    rfl
  | false =>
    have left : 0 < s.frames.clearFrames.card := by
      refine Finset.card_pos.mpr (Finset.nonempty_iff_ne_empty.mpr (fun empty => served ⟨present,?_⟩))
      exact requestFrame_eq_none.mpr empty
    obtain ⟨f,t,made,same_ram,same_root,bound,clear,count,same_null,here,others,sound',grown⟩ :=
      nextTable_new sound.wellformed at_p level present left
    have walks : ∀ q, t.walk q = s.walk q := by intro q; rw [walk,walk,same_ram,same_root]
    have notFirst : f * PAGE_SIZE ≠ 0 := by
      intro zero
      have first : f = 0 := PageFrameAllocator.frame_injective (zero.trans (Nat.zero_mul PAGE_SIZE).symm)
      rw [first,sound.marked] at clear
      cases clear
    refine ⟨_,_,made,here,⟨⟨sound',grown.used 0 sound.marked,?_⟩,same_null,?_⟩,others,?_⟩
    · intro q short reached
      by_cases new : q = p ++ [i]
      · rw [new,here] at reached
        exact notFirst (Option.some.inj reached)
      · rw [others q (by omega) new] at reached
        exact sound.notNull q short reached
    · intro w
      have fresh : ∀ q, q.length ≤ 3 → t.walk q ≠ some (f * PAGE_SIZE) := by
        intro q short reached
        obtain ⟨k,_,place,used⟩ := sound.wellformed.held q _ short ((walks q).symm.trans reached)
        rw [← PageFrameAllocator.frame_injective place,clear] at used
        cases used
      have tree : IsTree (link t.ram) t.PML4 3 := by rw [same_ram,same_root]; exact sound.wellformed.tree
      rw [hang_leafEntry tree ((walks p).trans at_p) level (by rw [same_ram]; exact present) fresh (by unfold PAGE_SIZE; omega)
        (pageOf_frame bound)]
      simp only [leafEntry,walks,same_ram]
    · rw [walk_concat at_p,target_none present,if_pos rfl]
      exact count

theorem walk_none_below (gone : s.walk p = none) (inside : p <+: q) : s.walk q = none := by
  obtain ⟨rest,rfl⟩ := inside
  rw [walk] at gone ⊢
  rw [follow_append,gone]
  rfl

/-- Some request on the way down from a table finds no frame. -/
def ShortBelow (s : PageTables) (table : Nat) : List Nat → Prop
  | [] => False
  | i :: rest => s.NextShort table i ∨ ShortBelow (s.nextTable table i).2 (s.nextTable table i).1 rest

/-- How many tables are missing on the way down from the end of a walk. -/
def missingBelow (s : PageTables) (p : List Nat) : List Nat → Nat
  | [] => 0
  | i :: rest => (if s.walk (p ++ [i]) = none then 1 else 0) + missingBelow s (p ++ [i]) rest

theorem lastTable_eq (s : PageTables) (v : Nat) : s.lastTable (.ofAddress v) = ((path v).take 3).foldl descend (s.PML4,s) := rfl

theorem lastShort_iff (s : PageTables) (v : Nat) : s.LastShort (.ofAddress v) ↔ s.ShortBelow s.PML4 ((path v).take 3) := by
  show _ ∨ _ ∨ _ ↔ _ ∨ _ ∨ _ ∨ False
  rw [or_false]
  rfl

theorem missingTables_eq (s : PageTables) (v : Nat) : s.missingTables v = s.missingBelow [] ((path v).take 3) := by
  have three : s.missingBelow [] ((path v).take 3) = (if s.walk ((path v).take 1) = none then 1 else 0) +
      ((if s.walk ((path v).take 2) = none then 1 else 0) + ((if s.walk ((path v).take 3) = none then 1 else 0) + 0)) := rfl
  rw [three]
  simp only [missingTables,List.countP_cons,List.countP_nil,decide_eq_true_eq]
  omega

theorem missingBelow_of_none (gone : s.walk p = none) (rest : List Nat) : s.missingBelow p rest = rest.length := by
  induction rest generalizing p with
  | nil => rfl
  | cons i rest ih =>
    have gone' : s.walk (p ++ [i]) = none := walk_none_below gone (List.prefix_append p [i])
    rw [missingBelow,if_pos gone',ih gone',List.length_cons,Nat.add_comm]

theorem missingBelow_congr {t : PageTables} (rest : List Nat) (level : p.length + rest.length ≤ 3)
    (same : ∀ q, p.length < q.length → q.length ≤ 3 → t.walk q = s.walk q) : t.missingBelow p rest = s.missingBelow p rest := by
  induction rest generalizing p with
  | nil => rfl
  | cons i rest ih =>
    have length : (p ++ [i]).length = p.length + 1 := by simp
    rw [List.length_cons] at level
    rw [missingBelow,missingBelow,same _ (by omega) (by omega),ih (by omega) (fun q long short => same q (by omega) short)]

/-- On the way down each table is there in the end, or one of them finds no frame where all before are there. -/
theorem descend_cases (sound : Sound s) (at_p : s.walk p = some table) (rest : List Nat) (level : p.length + rest.length ≤ 3) :
    (¬ s.ShortBelow table rest ∧ s.missingBelow p rest ≤ s.frames.clearFrames.card ∧
      ∃ PT t, rest.foldl descend (table,s) = (PT,t) ∧ t.walk (p ++ rest) = some PT ∧ Kept s t) ∨
    (s.ShortBelow table rest ∧ ∃ above i below next t, rest = above ++ i :: below ∧ t.walk (p ++ above) = some next ∧ t.NextShort next i ∧
      Kept s t ∧ s.walk (p ++ above ++ [i]) = none ∧ s.missingBelow p rest = s.frames.clearFrames.card + (below.length + 1) ∧
      rest.foldl descend (table,s) = below.foldl descend (t.nextTable next i)) := by
  induction rest generalizing s p table with
  | nil => exact .inl ⟨id,Nat.zero_le _,table,s,rfl,by rwa [List.append_nil],sound,rfl,fun _ => rfl⟩
  | cons i rest ih =>
    rw [List.length_cons] at level
    have length : (p ++ [i]).length = p.length + 1 := by simp
    by_cases short : s.NextShort table i
    · obtain ⟨gone,empty⟩ := short.gone at_p
      refine .inr ⟨.inl short,[],i,rest,table,s,rfl,by rwa [List.append_nil],short,⟨sound,rfl,fun _ => rfl⟩,by rwa [List.append_nil],?_,rfl⟩
      rw [missingBelow,if_pos gone,missingBelow_of_none gone,empty]
      omega
    · obtain ⟨next,t,made,at_next,kept,others,count⟩ := nextTable_served sound at_p (by omega) short
      have longer : ∀ q, (p ++ [i]).length < q.length → q.length ≤ 4 → t.walk q = s.walk q :=
        fun q long short => others q short (by rintro rfl; omega)
      have same := missingBelow_congr rest (by omega) (fun q long short => longer q long (by omega))
      have onward : s.ShortBelow table (i :: rest) ↔ t.ShortBelow next rest := by
        rw [ShortBelow,made,or_iff_right short]
      have first : (i :: rest).foldl descend (table,s) = rest.foldl descend (next,t) := by
        rw [List.foldl_cons,descend,made]
      rw [onward,first,missingBelow]
      rcases ih kept.sound at_next (by omega) with ⟨served,few,PT,u,last,there,kept'⟩ |
        ⟨short',above,j,below,next',u,split,there,short'',kept',gone,many,last⟩
      · rw [List.append_assoc] at there
        exact .inl ⟨served,by omega,PT,u,last,there,kept.trans kept'⟩
      · have gone' : s.walk (p ++ [i] ++ above ++ [j]) = none := by
          rw [← longer _ (by simp) (by rw [split] at level; simp at level ⊢; omega)]
          exact gone
        rw [List.append_assoc p [i] above] at there gone'
        exact .inr ⟨short',i :: above,j,below,next',u,by rw [split]; rfl,there,short'',kept.trans kept',gone',by omega,last⟩

/-- The table of the last level is in its place when every request finds a frame. -/
theorem lastTable_served (sound : Sound s) (served : ¬ s.LastShort (.ofAddress v)) :
    s.missingTables v ≤ s.frames.clearFrames.card ∧
      ∃ PT t, s.lastTable (.ofAddress v) = (PT,t) ∧ t.walk ((path v).take 3) = some PT ∧ Kept s t := by
  rw [lastShort_iff] at served
  rw [missingTables_eq,lastTable_eq]
  rcases descend_cases sound (p := []) rfl ((path v).take 3) (by simp [path]) with ⟨_,few,there⟩ | ⟨short,_⟩
  · exact ⟨few,there⟩
  · exact absurd short served

/-- Otherwise a table that is missing is made in frame 0, and all below it are frame 0. -/
theorem lastTable_null (sound : Sound s) (memory : s.null = .memory) (short : s.LastShort (.ofAddress v)) :
    ∃ q below t, (path v).take 3 = q ++ below ∧ q ≠ [] ∧ s.walk q = none ∧
      s.missingTables v = s.frames.clearFrames.card + (below.length + 1) ∧ s.lastTable (.ofAddress v) = (0,t) ∧ Nulled t q ∧
      (∀ i, below.getLast? = some i → t.ram 0 i = nullLink) ∧
      (below = [] → IsTree (link t.ram) t.PML4 3 ∧ ∀ w, t.leafEntry w = s.leafEntry w) := by
  rw [lastShort_iff] at short
  rw [missingTables_eq,lastTable_eq]
  rcases descend_cases sound (p := []) rfl ((path v).take 3) (by simp [path]) with
    ⟨served,_⟩ | ⟨_,above,i,below,next,t,split,there,short',kept,gone,many,last⟩
  · exact absurd short served
  · have level : above.length ≤ 2 := by
      have lengths := congrArg List.length split
      simp [path] at lengths
      omega
    obtain ⟨u,made,nulled,tree,leaf⟩ := nextTable_null kept.sound (kept.null.trans memory) there level short'
    obtain ⟨u',rest,nulled',linked⟩ := nulled.descend below
    refine ⟨above ++ [i],below,u',by rw [split]; simp,by simp,gone,many,by rw [last,made,rest],nulled',linked,?_⟩
    intro none
    subst none
    cases rest
    exact ⟨tree,fun w => (leaf w).trans (kept.leaf w)⟩

/-- Where address 0 is no memory the code faults instead, and nothing is changed but that missing tables before are there. -/
theorem lastTable_impossible (sound : Sound s) (off : s.null = .impossible) (short : s.LastShort (.ofAddress v)) :
    s.frames.clearFrames.card < s.missingTables v ∧ ∃ t u : PageTables, s.lastTable (.ofAddress v) = (0,u.fault) ∧ Kept s t ∧
      u.ram = t.ram ∧ u.PML4 = t.PML4 := by
  rw [lastShort_iff] at short
  rw [missingTables_eq,lastTable_eq]
  rcases descend_cases sound (p := []) rfl ((path v).take 3) (by simp [path]) with
    ⟨served,_⟩ | ⟨_,above,i,below,next,t,split,there,short',kept,_,many,last⟩
  · exact absurd short served
  · have level : above.length ≤ 3 := by
      have lengths := congrArg List.length split
      simp [path] at lengths
      omega
    obtain ⟨u,made,same_ram,same_root⟩ := nextTable_faults short' (kept.null.trans off)
      (by rintro rfl; exact kept.sound.notNull above level there)
    have stays : ∀ below : List Nat, below.foldl descend (0,u.fault) = (0,u.fault) := by
      intro below
      induction below with
      | nil => rfl
      | cons j below ih =>
        have stopped : u.fault.faults 0 = true := rfl
        have again : descend (0,u.fault) j = (0,u.fault) := by
          rw [descend,nextTable]
          simp only [stopped,if_true]
          rfl
        rw [List.foldl_cons,again,ih]
    exact ⟨by omega,t,u,by rw [last,made,stays],kept,same_ram,same_root⟩

/-! ### Tables outside frame 0 -/

theorem write_sound {PT : Nat} {e : PageDirectoryEntry} (sound : Sound s) (at_table : s.walk p = some PT) (level : p.length = 3) :
    Sound (s.write PT i e) := by
  obtain ⟨_,kept⟩ := write_follow (e := e) (i := i) sound.wellformed.tree at_table level
  have tables : ∀ q, q.length ≤ 3 → (s.write PT i e).walk q = s.walk q := by
    intro q short
    apply kept q (by omega)
    rintro rfl
    rw [List.length_append,level,List.length_singleton] at short
    omega
  exact ⟨wellformed_congr sound.wellformed rfl tables rfl rfl,sound.marked,fun q short => by rw [tables q short]; exact sound.notNull q short⟩

/-- As long as its requests find frames, a call makes no table in frame 0. -/
theorem exec_sound (sound : Sound s) (call : TableCall) (served : ¬ call.Short s) : Sound (call.exec s) := by
  cases call with
  | MapMemory virtualMemory physMemory =>
    obtain ⟨_,PT,t,made,at₃,kept⟩ := lastTable_served sound served
    rw [TableCall.exec,mapMemory_eq made (kept.sound.wellformed.reads at₃ (Nat.le_refl 3))]
    exact write_sound kept.sound at₃ rfl
  | SetVirtualFlag address flag value =>
    obtain ⟨_,PT,t,made,at₃,kept⟩ := lastTable_served sound served
    rw [TableCall.exec,setVirtualFlag_eq made (kept.sound.wellformed.reads at₃ (Nat.le_refl 3))]
    exact write_sound kept.sound at₃ rfl

@[simp] theorem load_walk (s : PageTables) (q : List Nat) : s.load.walk q = s.walk q := rfl

theorem load_leafEntry (s : PageTables) (w : Nat) : s.load.leafEntry w = s.leafEntry w := by
  rw [leafEntry,leafEntry,load_walk]
  rfl

/-- So it is when the tables are loaded. -/
theorem Sound.load (sound : Sound s) : Sound s.load :=
  ⟨⟨sound.wellformed.bounded,.inr ⟨rfl,sound.marked,sound.notNull⟩,sound.wellformed.tree,sound.wellformed.held⟩,sound.marked,sound.notNull⟩

/-- Paging starts with its `PML4` outside frame 0. -/
theorem startPaging_sound (bounded : s.frames.limit ≤ 2^40) (left : s.frames.clearFrames.Nonempty)
    (marked : s.frames.used 0 = true) : Sound s.startPaging := by
  obtain ⟨i,frames,found⟩ := PageFrameAllocator.requestFrame_of_clear left
  obtain ⟨_,_,_,clear,_⟩ := PageFrameAllocator.requestFrame_some found
  have started : s.startPaging = { ({ s with frames } : PageTables).blank (i * PAGE_SIZE) with PML4 := i * PAGE_SIZE, null := .memory } := by
    rw [startPaging,RequestPage,PageFrameAllocator.RequestPage_eq,found]
  refine ⟨startPaging_wellformed bounded left,?_,?_⟩
  · rw [started]
    simp [blank,PageFrameAllocator.requestFrame_bit found,marked]
  · intro q _ reached
    cases q with
    | nil =>
      have root : i * PAGE_SIZE = 0 := by
        rw [started] at reached
        exact Option.some.inj reached
      have first : i = 0 := PageFrameAllocator.frame_injective (root.trans (Nat.zero_mul PAGE_SIZE).symm)
      rw [first,marked] at clear
      cases clear
    | cons j q =>
      have empty : link s.startPaging.ram s.startPaging.PML4 j = none := by
        rw [started]
        simp [link,blank,target_blank]
      rw [walk,follow,empty] at reached
      cases reached

/-! ### Flags -/

theorem leafEntry_congr (same : page w = page v) : s.leafEntry w = s.leafEntry v := by
  have paths : path w = path v := path_eq_iff.mpr same
  rw [leafEntry,leafEntry,paths,index_eq paths]

/-- With the table of the last level in its place the flag is set, whatever it should be. -/
theorem setVirtualFlag_leaf {PT : Nat} {t : PageTables} (made : s.lastTable (.ofAddress v) = (PT,t))
    (reads : t.faults PT = false) (at_table : t.walk ((path v).take 3) = some PT) (tree : IsTree (link t.ram) t.PML4 3)
    (leaf : ∀ w, t.leafEntry w = s.leafEntry w) : FlagSet s (s.SetVirtualFlag v flag value) v flag value ↔ value = true := by
  have entry : t.ram PT (PageMapIndexer.ofAddress v).Pi = s.leafEntry v := by
    rw [← leaf v,leafEntry,at_table]
  have result : s.SetVirtualFlag v flag value =
      t.write PT (PageMapIndexer.ofAddress v).Pi ((s.leafEntry v).SetFlag flag value) := by
    rw [setVirtualFlag_eq made reads,entry]
  have after : ∀ w, (s.SetVirtualFlag v flag value).leafEntry w =
      if page w = page v then (s.leafEntry v).SetFlag flag value else s.leafEntry w := by
    intro w
    rw [result,write_leafEntry tree at_table,leaf]
  have here : (s.SetVirtualFlag v flag value).leafEntry v = (s.leafEntry v).SetFlag flag value := by rw [after,if_pos rfl]
  constructor
  · intro done
    have told := done.told
    rw [here] at told
    simpa using told.symm
  · rintro rfl
    have runs : t.null ≠ .faulted := fun stopped => of_decide_eq_false reads (.inl stopped)
    refine ⟨by rw [result]; exact runs,by rw [here]; simp,?_,by rw [here]; simp,fun w apart => by rw [after,if_neg apart]⟩
    intro other apart
    rw [here]
    simp [apart]

/-- Every four indices are those of some address. -/
theorem exists_path {a b c d : Nat} (smallA : a < 2^9) (smallB : b < 2^9) (smallC : c < 2^9) (smallD : d < 2^9) :
    ∃ w, path w = [a,b,c,d] := by
  refine ⟨a * 2^39 + b * 2^30 + c * 2^21 + d * 2^12,?_⟩
  rw [path_eq]
  simp only [List.cons.injEq,and_true]
  omega

/-- Below frame 0 the walk stays there, along the index of its link to itself. -/
theorem walk_replicate (here : s.walk q = some 0) (linked : (s.ram 0 i).target = some 0) (n : Nat) :
    s.walk (q ++ List.replicate n i) = some 0 := by
  induction n with
  | zero => simpa using here
  | succ n ih => rw [List.replicate_succ',← List.append_assoc,walk_concat ih,linked]

/-- With frame 0 above the table of the last level an entry is a link that was no link before. -/
theorem early_harm {t : PageTables} {e : PageDirectoryEntry} (upper : q = (path v).take 1 ∨ q = (path v).take 2)
    (gone : s.walk q = none) (here : t.walk q = some 0) (linked : t.ram 0 (PageMapIndexer.ofAddress v).PTi = e)
    (toNull : e.target = some 0) : ∃ w, s.leafEntry w = ⟨0#64⟩ ∧ t.leafEntry w = e := by
  have digits := path_eq v
  simp only [path,List.cons.injEq,and_true] at digits
  obtain ⟨first,second,third,_⟩ := digits
  have small : ∀ x, x % 2^9 < 2^9 := fun x => Nat.mod_lt x (by decide)
  obtain ⟨w,n,upper_w,last⟩ : ∃ w n, (path w).take 3 = q ++ List.replicate n (PageMapIndexer.ofAddress v).PTi ∧
      (PageMapIndexer.ofAddress w).Pi = (PageMapIndexer.ofAddress v).PTi := by
    rcases upper with rfl | rfl
    · obtain ⟨w,walk⟩ := exists_path (first ▸ small _) (third ▸ small _) (third ▸ small _) (third ▸ small _)
      refine ⟨w,2,by rw [walk]; rfl,?_⟩
      simp only [path,List.cons.injEq,and_true] at walk
      exact walk.2.2.2
    · obtain ⟨w,walk⟩ := exists_path (first ▸ small _) (second ▸ small _) (third ▸ small _) (third ▸ small _)
      refine ⟨w,1,by rw [walk]; rfl,?_⟩
      simp only [path,List.cons.injEq,and_true] at walk
      exact walk.2.2.2
  refine ⟨w,?_,?_⟩
  · rw [leafEntry,upper_w,walk_none_below gone (List.prefix_append q _)]
  · rw [leafEntry,upper_w,walk_replicate here (by rw [linked]; exact toNull),last]
    exact linked

/-- A present and writable link to frame 0. -/
def NullEntry (e : PageDirectoryEntry) : Prop := e.GetFlag .Present = true ∧ e.GetFlag .ReadWrite = true ∧ e.target = some 0

theorem nullLink_nullEntry : NullEntry nullLink := ⟨nullLink_flags.1,nullLink_flags.2,nullLink_target⟩

theorem NullEntry.setFlag {e : PageDirectoryEntry} (nullEntry : NullEntry e) (flag : PTFlag) (value : Bool) :
    NullEntry (e.SetFlag flag value) := by
  obtain ⟨present,writable,toNull⟩ := nullEntry
  refine ⟨by simp [present],by simp [writable],?_⟩
  rw [PageDirectoryEntry.target,if_pos present] at toNull
  rw [PageDirectoryEntry.target,PageDirectoryEntry.setFlag_getAddress,PageDirectoryEntry.setFlag_getFlag,present]
  exact toNull

/-- The link of frame 0 to itself may get the flag, and stays a link. -/
theorem write_nullEntry {t : PageTables} (linked : t.ram 0 j = nullLink) (i : Nat) (flag : PTFlag) (value : Bool) :
    NullEntry ((t.write 0 i ((t.ram 0 i).SetFlag flag value)).ram 0 j) := by
  by_cases same : j = i
  · subst same
    have written : (t.write 0 j ((t.ram 0 j).SetFlag flag value)).ram 0 j = nullLink.SetFlag flag value := by simp [write,linked]
    rw [written]
    exact nullLink_nullEntry.setFlag flag value
  · have kept : (t.write 0 i ((t.ram 0 i).SetFlag flag value)).ram 0 j = nullLink := by
      simp [write,Function.update_of_ne same,linked]
    rw [kept]
    exact nullLink_nullEntry

/-- A blank entry that has become a link is no flag that was set. -/
theorem not_flagSet {e : PageDirectoryEntry} (before : s.leafEntry w = ⟨0#64⟩) (after : s'.leafEntry w = e) (nullEntry : NullEntry e) :
    ¬ FlagSet s s' v flag value := by
  intro done
  obtain ⟨present,writable,_⟩ := nullEntry
  by_cases same : page w = page v
  · rw [leafEntry_congr same] at before after
    by_cases first : flag = .Present
    · have kept := done.others .ReadWrite (by rw [first]; decide)
      rw [before,after,writable] at kept
      exact absurd kept (by decide)
    · have kept := done.others .Present (Ne.symm first)
      rw [before,after,present] at kept
      exact absurd kept (by decide)
  · have kept := done.pages w same
    rw [before,after] at kept
    rw [kept] at present
    exact absurd present (by decide)

/-- With tables in frame 0 the flag is set as told if only the last of them is there, and the flag is to be set. -/
theorem setVirtualFlag_null (sound : Sound s) (memory : s.null = .memory) (short : s.LastShort (.ofAddress v)) :
    FlagSet s (s.SetVirtualFlag v flag value) v flag value ↔ value = true ∧ s.missingTables v ≤ s.frames.clearFrames.card + 1 := by
  obtain ⟨q,below,t,split,some_index,gone,many,made,nulled,linked,upper⟩ := lastTable_null sound memory short
  have reads : t.faults 0 = false := not_faults (.inl nulled.memory)
  by_cases last : below = []
  · obtain ⟨tree,leaf⟩ := upper last
    rw [last,List.append_nil] at split
    rw [last,List.length_nil] at many
    rw [and_iff_left (by omega)]
    exact setVirtualFlag_leaf made reads (by rw [split]; exact nulled.here) tree leaf
  · have more : 0 < below.length := List.length_pos_of_ne_nil last
    have above : q = (path v).take 1 ∨ q = (path v).take 2 := by
      have whole := congrArg List.length split
      have pos := List.length_pos_of_ne_nil some_index
      have part : q = ((path v).take 3).take q.length := by rw [split,List.take_left']; rfl
      have three : ((path v).take 3).length = 3 := rfl
      rw [List.length_append] at whole
      rw [List.take_take] at part
      by_cases one : q.length = 1
      · exact .inl (part.trans (by rw [one]; rfl))
      · exact .inr (part.trans (by rw [show q.length = 2 by omega]; rfl))
    have index : below.getLast? = some (PageMapIndexer.ofAddress v).PTi := by
      have whole := congrArg List.getLast? split
      rw [List.getLast?_append_of_ne_nil _ last] at whole
      exact whole.symm
    have nullEntry := write_nullEntry (linked _ index) (PageMapIndexer.ofAddress v).Pi flag value
    obtain ⟨w,before,after⟩ := early_harm above gone (nulled.write_walk _ _) rfl nullEntry.2.2
    rw [setVirtualFlag_eq made reads]
    exact ⟨fun done => absurd done (not_flagSet before after nullEntry),fun ⟨_,few⟩ => by omega⟩

/-- What the MMU is led to is what the entry says. -/
theorem translate_leafEntry (s : PageTables) (w : Nat) : s.translate w = (s.leafEntry w).target := by
  rw [translate,path_split,leafEntry]
  cases reached : s.walk ((path w).take 3) with
  | none => rw [walk_none_below reached (List.prefix_append _ _),target_blank]
  | some t => exact walk_concat reached

/-- A fault behind tables that have got frames harms nothing. -/
theorem Kept.unharmed {t u : PageTables} (kept : Kept s t) (same_ram : u.ram = t.ram) (same_root : u.PML4 = t.PML4) :
    Unharmed s u.fault := by
  have walks : ∀ q, u.fault.walk q = t.walk q := by
    intro q
    show follow (link u.ram) u.PML4 q = _
    rw [same_ram,same_root]
    rfl
  constructor
  · intro w frame before
    have same : u.fault.translate w = t.translate w := walks _
    rw [same,translate_leafEntry,kept.leaf,← translate_leafEntry]
    exact before
  · intro q short reached
    exact absurd ((walks q).symm.trans reached) (kept.sound.notNull q short)

/-- An entry that is written in frame 0 leaves the link to it. -/
theorem Nulled.harmed {t : PageTables} {e : PageDirectoryEntry} (nulled : Nulled t q) (short : q.length ≤ 3)
    (gone : s.walk q = none) : ¬ Unharmed s (t.write 0 i e) := by
  intro unharmed
  have before := unharmed.links q short (nulled.write_walk i e)
  rw [gone] at before
  cases before

/-- A call that finds no frame for a missing table leaves a link to frame 0 if and only if address 0 is memory; where it is not,
    the call faults. -/
theorem exec_short_iff (sound : Sound s) (call : TableCall) (short : call.Short s) :
    Unharmed s (call.exec s) ↔ s.null = .impossible := by
  rcases sound.wellformed.null with memory | ⟨off,_⟩
  · refine iff_of_false ?_ (by rw [memory]; decide)
    cases call with
    | MapMemory virtualMemory physMemory =>
      obtain ⟨q,below,t,split,_,gone,_,made,nulled,_⟩ := lastTable_null sound memory short
      rw [TableCall.exec,mapMemory_eq made (not_faults (.inl nulled.memory))]
      exact nulled.harmed (by have whole := congrArg List.length split; simp [path] at whole; omega) gone
    | SetVirtualFlag address flag value =>
      obtain ⟨q,below,t,split,_,gone,_,made,nulled,_⟩ := lastTable_null sound memory short
      rw [TableCall.exec,setVirtualFlag_eq made (not_faults (.inl nulled.memory))]
      exact nulled.harmed (by have whole := congrArg List.length split; simp [path] at whole; omega) gone
  · refine iff_of_true ?_ off
    cases call with
    | MapMemory virtualMemory physMemory =>
      obtain ⟨_,t,u,made,kept,same_ram,same_root⟩ := lastTable_impossible sound off short
      have stopped : s.MapMemory virtualMemory physMemory = u.fault := by
        rw [MapMemory,made]
        rfl
      rw [TableCall.exec,stopped]
      exact kept.unharmed same_ram same_root
    | SetVirtualFlag address flag value =>
      obtain ⟨_,t,u,made,kept,same_ram,same_root⟩ := lastTable_impossible sound off short
      have stopped : s.SetVirtualFlag address flag value = u.fault := by
        rw [SetVirtualFlag,made]
        rfl
      rw [TableCall.exec,stopped]
      exact kept.unharmed same_ram same_root

/-- Page tables with an empty `PML4` in the only frame that was clear. -/
def oneFrame : PageTables :=
  startPaging ⟨⟨⟨1,0,fun _ => 0b11111110#8⟩,true,0,0,0,0,by decide⟩,fun _ _ => ⟨0#64⟩,0,.memory⟩

/-- A page is to be mapped before the tables are loaded, and behind that. -/
theorem exec_short_iff_oneFrame : ¬ Unharmed oneFrame (oneFrame.MapMemory 0x1234 0x7000) ∧
    Unharmed oneFrame.load (oneFrame.load.MapMemory 0x1234 0x7000) := by
  have sound : Sound oneFrame := startPaging_sound (by decide +kernel) ⟨7,by decide +kernel⟩ (by decide +kernel)
  constructor
  · intro unharmed
    exact absurd ((exec_short_iff sound (.MapMemory 0x1234 0x7000) (.inl (by constructor <;> decide +kernel))).mp unharmed) (by decide)
  · exact (exec_short_iff sound.load (.MapMemory 0x1234 0x7000) (.inl (by constructor <;> decide +kernel))).mpr rfl

/-- Without a frame for its first table, mapping a page makes frame 0 that table. -/
theorem mapMemory_nullTable : oneFrame.frames.requestFrame.1 = none ∧ oneFrame.walk [0] = none ∧
    (oneFrame.MapMemory 0x1234 0x7000).walk [0] = some 0 ∧ ¬ Unharmed oneFrame (oneFrame.MapMemory 0x1234 0x7000) := by
  have before : oneFrame.walk [0] = none := by decide +kernel
  have after : (oneFrame.MapMemory 0x1234 0x7000).walk [0] = some 0 := by decide +kernel
  refine ⟨by decide +kernel,before,after,?_⟩
  intro unharmed
  have link := unharmed.links [0] (by decide) after
  rw [before] at link
  cases link

end WaifuOS.PageTables
